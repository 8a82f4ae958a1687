import Cockroach.Encoding.BitArrayOps

/-! The order of bit arrays, their numbers and their text. -/
namespace Cockroach.Encoding.BitArray
open PackedWords ByteOrder List

section Compare

/-- Bits compare as their numbers. -/
def compareBits (l k : List Bool) : Ordering :=
  lexCompare (fun a b => Ord.compare a.toNat b.toNat) l k

theorem compare_self_eq (n : ℕ) : Ord.compare n n = .eq := Nat.compare_eq_eq.mpr rfl

variable {i : ℕ}

theorem toNat_testBit (x : UInt64) (hi : i < 64) : x.toNat.testBit (63 - i) = wordBit x i := by
  rw [wordBit, BitVec.getMsbD]
  simp only [hi, decide_true, Bool.true_and]
  rfl

theorem toNat_lt_of_wordBit {x y : UInt64} (hi : i < 64) (h : ∀ j < i, wordBit x j = wordBit y j)
    (hx : wordBit x i = false) (hy : wordBit y i = true) : x.toNat < y.toNat := by
  refine Nat.lt_of_testBit (63 - i) ?_ ?_ ?_
  · rw [toNat_testBit x hi, hx]
  · rw [toNat_testBit y hi, hy]
  · intro j hj
    rcases Nat.lt_or_ge j 64 with hlt | hge
    · have hj' : j = 63 - (63 - j) := by omega
      rw [hj', toNat_testBit x (by omega), toNat_testBit y (by omega), h _ (by omega)]
    · have hzero (z : UInt64) : z.toNat.testBit j = false :=
        Nat.testBit_lt_two_pow (z.toNat_lt.trans_le (Nat.pow_le_pow_right (by decide) hge))
      rw [hzero, hzero]

theorem compare_eq_lt {d e : BitArray} {l k : List Bool} (hd : d.Represents l)
    (he : e.Represents k) (h : ∀ j < i, d.bit j = e.bit j) (hi : d.bit i = false)
    (hi' : e.bit i = true) : d.compare e = .lt ∧ compareBits l k = .lt := by
  obtain ⟨-, -, hdbit⟩ := represents_iff.mp hd
  obtain ⟨-, -, hebit⟩ := represents_iff.mp he
  constructor
  · have hwords (m : ℕ) (hm : m < i / 64) : d.words.getD m 0 = e.words.getD m 0 := by
      refine wordBit_ext _ _ ?_
      intro b hb
      rw [← bit_word d m hb, ← bit_word e m hb, h _ (by omega)]
    have hless : (d.words.getD (i / 64) 0).toNat < (e.words.getD (i / 64) 0).toNat := by
      refine toNat_lt_of_wordBit (Nat.mod_lt i (by decide)) ?_ hi hi'
      intro j hj
      rw [← bit_word d _ (by omega), ← bit_word e _ (by omega), h _ (by omega)]
    have hlen : i / 64 < e.words.length := by
      by_contra hge
      rw [bit, bitOf_of_ge (by omega)] at hi'
      cases hi'
    rw [BitArray.compare, lexCompare_eq_lt (fun x => compare_self_eq x.toNat) hwords hlen
      (Nat.compare_eq_lt.mpr hless)]
    rfl
  · rw [hdbit] at hi
    rw [hebit] at hi'
    have hlen : i < k.length := by
      by_contra hge
      rw [getD_eq_default _ _ (by omega)] at hi'
      cases hi'
    refine lexCompare_eq_lt (fun x => compare_self_eq x.toNat) (z := false) ?_ hlen ?_
    · intro j hj
      rw [← hdbit, ← hebit, h j hj]
    · rw [hi, hi']
      rfl

end Compare

section Int64

variable {width : ℕ}

variable {d : BitArray}

variable {x : BitVec 64}

variable {n : ℕ}

variable (hn : n ≤ 64)
  (hx : d.words.getD (d.words.length - 1) 0 = ⟨x <<< (64 - d.lastBitsUsed.toNat)⟩)
  (hhigh : d.lastBitsUsed.toNat < n → 1 < d.words.length ∧
    d.words.getD (d.words.length - 2) 0 = ⟨x.sshiftRight d.lastBitsUsed.toNat⟩)
include hn hx hhigh

omit hn hx hhigh

end Int64

end Cockroach.Encoding.BitArray
