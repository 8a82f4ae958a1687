import Cockroach.Encoding.BitArray

/-! What the operations of bit arrays do to the lists of their bits. -/
namespace Cockroach.Encoding.BitArray
open PackedWords List Option

section Lists

variable {α : Type} {l : List α} {a : α} {k i : ℕ}

end Lists

section Words

variable {ws vs : List UInt64} {i : ℕ}

theorem bitOf_eq (ws : List UInt64) (i : ℕ) : bitOf ws i = wordBit (ws.getD (i / 64) 0) (i % 64) :=
  rfl

theorem bitOf_of_ge (hi : 64 * ws.length ≤ i) : bitOf ws i = false :=
  PackedWords.bit_eq_false wordBit_zero hi (by norm_num)

theorem sizesForBitLen_le (n : ℕ) : (sizesForBitLen n).2 ≤ 64 := by
  simp only [sizesForBitLen]
  split_ifs <;> omega

theorem represents_mustFromEncodingParts {l : List Bool} {n : ℕ} (hn : l.length = n) (hpos : 0 < n)
    (hlength : ws.length = (n + 63) / 64) (hbit : ∀ i, bitOf ws i = l.getD i false) :
    ∃ r, mustFromEncodingParts ws (sizesForBitLen n).2 = some r ∧ r.Represents l := by
  subst hn
  have hle := sizesForBitLen_le l.length
  refine ⟨⟨ws, UInt8.ofNat (sizesForBitLen l.length).2⟩, ?_, ?_⟩
  · rw [mustFromEncodingParts, fromEncodingParts, if_neg (by omega)]
    rfl
  · refine represents_iff.mpr ⟨hlength, ?_, hbit⟩
    rw [UInt8.toNat_ofNat_of_lt' (hle.trans_lt (by decide)), lastUsed, if_neg (by omega)]

end Words

variable {l : List Bool}

section Shifts

variable {d : List UInt64}

variable {s b : ℕ}

variable {n : Int64}

end Shifts

section Concat

variable {xs : List UInt64}

variable {x : UInt64} {s : ℕ} {lhs rhs : BitArray}

variable {ws : List UInt64}

theorem bitOf_set {k : ℕ} (x : UInt64) (hk : k < ws.length) (i : ℕ) :
    bitOf (ws.set k x) i = if i / 64 = k then wordBit x (i % 64) else bitOf ws i := by
  rw [bitOf_eq, bitOf_eq]
  split_ifs with hi
  · rw [hi, getD_eq_getElem?_getD, getElem?_set_self hk]
    rfl
  · rw [getD_eq_getElem?_getD, getElem?_set_ne (Ne.symm hi), ← getD_eq_getElem?_getD]

variable {l : List Bool}

theorem Represents.parts {d : BitArray} (h : d.Represents l) (hl : l ≠ []) :
    0 < l.length ∧ 0 < d.words.length ∧ 0 < d.lastBitsUsed.toNat ∧ d.lastBitsUsed.toNat ≤ 64 ∧
      64 * (d.words.length - 1) + d.lastBitsUsed.toNat = l.length ∧
        d.nonEmptyBitLen = l.length := by
  have hpos := length_pos_of_ne_nil hl
  obtain ⟨hwords, hlast, -⟩ := represents_iff.mp h
  rw [nonEmptyBitLen, hlast]
  simp only [lastUsed, sizesForBitLen, hpos.ne', if_false]
  split_ifs <;> omega

theorem getD_append_false (l k : List Bool) (i : ℕ) : (l ++ k).getD i false =
    if i < l.length then l.getD i false else k.getD (i - l.length) false := by
  split_ifs with hi
  · rw [getD_append _ _ _ _ hi]
  · rw [getD_append_right _ _ _ _ (by omega)]

variable {k : List Bool}

end Concat

end Cockroach.Encoding.BitArray
