import Mathlib.Data.List.Basic
import Mathlib.Tactic.Ring
import Cockroach.Library.ByteOrder

/-! Integers of 64 bits as groups of seven bits, the lowest group first. -/
namespace Leb128
open ByteOrder

/-- The groups of a number. All but the last one have their highest bit set. -/
def putNat : ℕ → ℕ → Bytes
  | 0, n => [UInt8.ofNat n]
  | k + 1, n =>
    if n < 128 then [UInt8.ofNat n] else UInt8.ofNat (n % 128 + 128) :: putNat k (n / 128)

/-- Ten groups hold 64 bits. -/
def putUvarint (x : UInt64) : Bytes := putNat 9 x.toNat

/-- The number and the bytes read, zero or less where the bytes end within the number or where it
has more than 64 bits. -/
def uvarintFrom (i acc : ℕ) : Bytes → UInt64 × ℤ
  | [] => (0, 0)
  | b :: r =>
    if i = 10 then (0, -(i + 1))
    else if b.toNat < 128 then
      if i = 9 ∧ 1 < b.toNat then (0, -(i + 1))
      else (UInt64.ofNat (acc + b.toNat * 128 ^ i), i + 1)
    else uvarintFrom (i + 1) (acc + b.toNat % 128 * 128 ^ i) r

def uvarint (buf : Bytes) : UInt64 × ℤ := uvarintFrom 0 0 buf

/-- The sign goes to the lowest bit. -/
def zigzag (x : ℤ) : ℕ := if 0 ≤ x then (2 * x).toNat else (-2 * x - 1).toNat

def unzigzag (n : ℕ) : ℤ := if n % 2 = 0 then n / 2 else -(n / 2) - 1

def putVarint (x : Int64) : Bytes := putUvarint (UInt64.ofNat (zigzag x.toInt))

def varint (buf : Bytes) : Int64 × ℤ :=
  let (ux, n) := uvarint buf
  (Int64.ofInt (unzigzag ux.toNat), n)

theorem putNat_length_pos (k n : ℕ) : 0 < (putNat k n).length := by
  cases k with
  | zero => exact Nat.one_pos
  | succ k =>
    rw [putNat]
    split_ifs
    · exact Nat.one_pos
    · exact Nat.succ_pos _

theorem toNat_ofNat {n : ℕ} (h : n < 256) : (UInt8.ofNat n).toNat = n :=
  UInt8.toNat_ofNat_of_lt' h

theorem uvarintFrom_last {i n acc : ℕ} (hi : i ≤ 9) (hn : n < 128) (hlast : i = 9 → n ≤ 1)
    (s : Bytes) : uvarintFrom i acc (UInt8.ofNat n :: s) =
      (UInt64.ofNat (acc + n * 128 ^ i), ((i + 1 : ℕ) : ℤ)) := by
  rw [uvarintFrom, if_neg (by omega), toNat_ofNat (by omega), if_pos hn, if_neg (by omega)]
  rfl

/-- The groups from the `i`th one on are read behind those before. -/
theorem uvarintFrom_putNat {i k n acc : ℕ} (hik : i + k = 9) (hn : n * 128 ^ i < 2 ^ 64)
    (s : Bytes) : uvarintFrom i acc (putNat k n ++ s) =
      (UInt64.ofNat (acc + n * 128 ^ i), ((i + (putNat k n).length : ℕ) : ℤ)) := by
  induction k generalizing i n acc with
  | zero =>
    obtain rfl : i = 9 := by omega
    exact uvarintFrom_last le_rfl (by omega) (by omega) s
  | succ k ih =>
    rw [putNat]
    split_ifs with hsmall
    · exact uvarintFrom_last (by omega) hsmall (by omega) s
    · have hsplit : n * 128 ^ i = n % 128 * 128 ^ i + n / 128 * 128 ^ (i + 1) := by
        nth_rewrite 1 [← Nat.mod_add_div n 128]
        ring
      rw [List.cons_append, uvarintFrom, if_neg (by omega), toNat_ofNat (by omega),
        if_neg (by omega), ih (by omega) (by omega), Nat.add_mod_right, Nat.mod_mod,
        Nat.add_assoc acc, ← hsplit, List.length_cons]
      congr 2
      omega

theorem uvarint_putUvarint (x : UInt64) (s : Bytes) :
    uvarint (putUvarint x ++ s) = (x, ((putUvarint x).length : ℤ)) := by
  have hx := x.toNat_lt
  rw [uvarint, putUvarint, uvarintFrom_putNat rfl (by omega), Nat.zero_add, Nat.zero_add,
    pow_zero, Nat.mul_one, UInt64.ofNat_toNat]

theorem unzigzag_zigzag (x : ℤ) : unzigzag (zigzag x) = x := by
  unfold unzigzag zigzag
  split_ifs <;> omega

theorem zigzag_lt {x : ℤ} (hlo : -2 ^ 63 ≤ x) (hhi : x < 2 ^ 63) : zigzag x < 2 ^ 64 := by
  unfold zigzag
  split_ifs <;> omega

theorem varint_putVarint (x : Int64) (s : Bytes) :
    varint (putVarint x ++ s) = (x, ((putVarint x).length : ℤ)) := by
  have hlt : zigzag x.toInt < 2 ^ 64 := zigzag_lt x.le_toInt x.toInt_lt
  rw [varint, putVarint, uvarint_putUvarint]
  dsimp only
  rw [UInt64.toNat_ofNat_of_lt' hlt, unzigzag_zigzag, Int64.ofInt_toInt]

end Leb128
