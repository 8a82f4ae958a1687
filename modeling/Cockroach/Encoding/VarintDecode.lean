import Cockroach.Encoding.Varint
import Cockroach.Library.Outcome

/-! Decoding of the variable-length integers of the key encoding, and the lengths of their codes. -/
namespace Cockroach.Encoding
open ByteOrder List

inductive CodeError where
  | uvarint
  | varintLength (length slice : ℕ)
  | terminator
  | unknownPrefix
  | mantissaEmpty
  | centimal (t : ℕ)
deriving DecidableEq, Repr

/-- The rest of the buffer and the decoded value, which is none where bytes are missing or the
length is invalid. -/
def decodeUvarintDescending : Bytes → Option (Bytes × UInt64)
  | [] => none
  | tag :: b =>
    let length : ℤ := intZero.toNat - tag.toNat
    if length < 0 ∨ length > 8 ∨ b.length < length.toNat then none
    else some (b.drop length.toNat,
      UInt64.ofNat (ofBigEndian (complement (b.take length.toNat))))

/-- The length of the code of a varint, which needs at least one byte. -/
def getVarintLen (b : Bytes) : Outcome CodeError ℕ :=
  match b with
  | [] => .panic
  | tag :: _ =>
    let length : ℤ := tag.toNat - intZero.toNat
    let check (n : ℕ) : Outcome CodeError ℕ :=
      if n > b.length then .error (.varintLength n b.length) else .ok n
    if 0 ≤ length then
      if length ≤ intSmall then .ok 1 else check (1 + (length - intSmall)).toNat
    else check (1 - length).toNat

theorem getVarintLen_cons (tag : UInt8) (b : Bytes) : getVarintLen (tag :: b) =
    if varintLength tag ≤ b.length + 1 then .ok (varintLength tag)
    else .error (.varintLength (varintLength tag) (b.length + 1)) := by
  have hzero : intZero.toNat = 136 := rfl
  have hsmall : (intSmall : ℤ) = 109 := rfl
  unfold getVarintLen varintLength
  simp only [hzero, hsmall, length_cons]
  by_cases h1 : tag.toNat < 136
  · rw [if_neg (by omega),
      show (1 - ((tag.toNat : ℤ) - (136 : ℕ))).toNat = 137 - tag.toNat by omega]
    split_ifs <;> first | rfl | omega
  · rw [if_neg h1, if_pos (by omega)]
    by_cases h2 : tag.toNat ≤ 245
    · rw [if_pos h2, if_pos (by omega), if_pos (by omega)]
    · rw [if_neg (by omega),
        show (1 + ((tag.toNat : ℤ) - (136 : ℕ) - 109)).toNat = tag.toNat - 244 by omega]
      split_ifs <;> first | rfl | omega

theorem varintLength_pos (tag : UInt8) : 0 < varintLength tag := by
  unfold varintLength
  split_ifs <;> omega

theorem getVarintLen_append {tag : UInt8} {a : Bytes} (h : varintLength tag = a.length + 1)
    (s : Bytes) : getVarintLen (tag :: a ++ s) = .ok (tag :: a).length := by
  rw [cons_append, getVarintLen_cons, if_pos (by rw [length_append]; omega), h, length_cons]

theorem ofInt_toNat (v : UInt64) : UInt64.ofInt v.toNat = v := by
  have hv := v.toNat_lt
  rw [UInt64.ofInt, Int.emod_eq_of_lt (by omega) (by omega), Int.toNat_natCast, UInt64.ofNat_toNat]

theorem decodeUvarintAscending_encode (v : UInt64) (s : Bytes) :
    decodeUvarintAscending (encodeUvarintAscending v ++ s) = some (s, v) := by
  have hw := payloadWidth_le v.toNat_lt
  have hw' := one_le_payloadWidth v.toNat
  have hzero : intZero.toNat = 136 := rfl
  have hsmall : intSmall = 109 := rfl
  rw [encodeUvarintAscending_eq]
  split_ifs with hv
  · have htag : (UInt8.ofNat (136 + v.toNat)).toNat = 136 + v.toNat := toNat_ofNat_of_le (by omega)
    rw [singleton_append, decodeUvarintAscending]
    simp only [htag, hzero]
    rw [if_pos (by omega), show ((136 + v.toNat : ℕ) : ℤ) - (136 : ℕ) = v.toNat by omega,
      ofInt_toNat]
  · have htag : (UInt8.ofNat (245 + payloadWidth v.toNat)).toNat = 245 + payloadWidth v.toNat :=
      toNat_ofNat_of_le (by omega)
    rw [cons_append, decodeUvarintAscending]
    simp only [htag, hzero, hsmall]
    rw [if_neg (by omega), show ((((245 + payloadWidth v.toNat : ℕ) : ℤ) - (136 : ℕ)) -
      (109 : ℕ)).toNat = payloadWidth v.toNat by omega, if_neg (by simp; omega),
      drop_left' (length_bigEndian _ _), take_left' (length_bigEndian _ _),
      ofBigEndian_bigEndian, Nat.mod_eq_of_lt (lt_pow_payloadWidth _), UInt64.ofNat_toNat]

theorem complement_bigEndian {w n : ℕ} (hw : w ≤ 8) (hn : n < 2 ^ 64) :
    complement (bigEndian w (2 ^ 64 - 1 - n)) = bigEndian w n := by
  induction w with
  | zero => rfl
  | succ w ih =>
    rw [bigEndian, complement_cons, ih (by omega)]
    congr 1
    apply UInt8.toNat_inj.mp
    have hw' : w ≤ 7 := by omega
    interval_cases w <;> norm_num <;> omega

theorem decodeUvarintDescending_encode (v : UInt64) (s : Bytes) :
    decodeUvarintDescending (encodeUvarintDescending v ++ s) = some (s, v) := by
  have hw := payloadWidth_le v.toNat_lt
  have hzero : intZero.toNat = 136 := rfl
  rw [encodeUvarintDescending_eq]
  split_ifs with hv
  · have hv' : v = 0 := UInt64.toNat_inj.mp hv
    rw [hv']
    rfl
  · have htag : (UInt8.ofNat (136 - payloadWidth v.toNat)).toNat = 136 - payloadWidth v.toNat :=
      toNat_ofNat_of_le (by omega)
    rw [cons_append, decodeUvarintDescending]
    simp only [htag, hzero]
    rw [show (((136 : ℕ) : ℤ) - ((136 - payloadWidth v.toNat : ℕ) : ℤ)).toNat =
      payloadWidth v.toNat by omega, if_neg (by simp; omega),
      drop_left' (length_bigEndian _ _), take_left' (length_bigEndian _ _),
      complement_bigEndian hw v.toNat_lt, ofBigEndian_bigEndian,
      Nat.mod_eq_of_lt (lt_pow_payloadWidth _), UInt64.ofNat_toNat]

end Cockroach.Encoding
