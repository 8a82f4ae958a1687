import Cockroach.Encoding.KeySide
import Cockroach.Library.PackedWords

/-! The operations of bit arrays, which pack their bits into words of 64 from the highest one on. -/
namespace Cockroach.Encoding
open PackedWords List

/-- Shifts by any number of places. No bit is left from 64 places on. -/
def shl (x : UInt64) (n : ℕ) : UInt64 := ⟨x.toBitVec <<< n⟩
def shr (x : UInt64) (n : ℕ) : UInt64 := ⟨x.toBitVec >>> n⟩

inductive BitArrayError where
  | lastBitsUsed (n : ℕ)
  | binaryDigit (c : Char)
  | hexDigit (c : Char)
deriving DecidableEq, Repr

def BitArrayError.message : BitArrayError → String
  | .lastBitsUsed n =>
    "FromEncodingParts: lastBitsUsed must not exceed 64, got " ++ toString n
  | .binaryDigit c =>
    "could not parse string as bit array: \"" ++ c.toString ++ "\" is not a valid binary digit"
  | .hexDigit c =>
    "could not parse string as bit array: \"" ++ c.toString ++ "\" is not a valid hexadecimal digit"

namespace BitArray

def empty : BitArray := ⟨[], 0⟩

def nonEmptyBitLen (d : BitArray) : ℕ := (d.words.length - 1) * 64 + d.lastBitsUsed.toNat

def bitLen (d : BitArray) : ℕ := if d.words.length = 0 then 0 else d.nonEmptyBitLen

/-- The number of words for some bits, and how many are used of the last. -/
def sizesForBitLen (bitLen : ℕ) : ℕ × ℕ :=
  ((bitLen + 63) / 64, if bitLen % 64 = 0 then 64 else bitLen % 64)

def encodingPartsForBitLen (bitLen : ℕ) : List UInt64 × ℕ :=
  if bitLen = 0 then ([], 0)
  else (List.replicate (sizesForBitLen bitLen).1 0, (sizesForBitLen bitLen).2)

def fromEncodingParts (words : List UInt64) (lastBitsUsed : ℕ) : Except BitArrayError BitArray :=
  if lastBitsUsed > 64 then .error (.lastBitsUsed lastBitsUsed)
  else .ok ⟨words, UInt8.ofNat lastBitsUsed⟩

/-- There is no result where the code panics, as for every function below. -/
def mustFromEncodingParts (words : List UInt64) (lastBitsUsed : ℕ) : Option BitArray :=
  (fromEncodingParts words lastBitsUsed).toOption

def setWord (words : List UInt64) (i : ℕ) (x : UInt64) : Option (List UInt64) :=
  if i < words.length then some (words.set i x) else none

/-- What `copy` leaves of an array when it writes to the places from an index on. -/
def copyFrom (r : List UInt64) (j : ℕ) (xs : List UInt64) : List UInt64 :=
  r.take j ++ xs.take (r.length - j) ++ r.drop (j + xs.length)

/-- The words from the one that is filled up on. -/
def concatLoop (rhsShift : ℕ) : List UInt64 → ℕ → UInt64 → List UInt64 →
    Option (List UInt64 × ℕ × UInt64)
  | words, idx, trailingBits, [] => some (words, idx, trailingBits)
  | words, idx, trailingBits, x :: xs =>
    (setWord words idx (trailingBits ||| shr x rhsShift)).bind fun words =>
      concatLoop rhsShift words (idx + 1) (shl x (64 - rhsShift)) xs

/-- The case in which the bits of the right hand side start within a word. -/
def concatShifted (lhs rhs : BitArray) (words : List UInt64) : Option BitArray := do
  let target := lhs.words.length - 1
  let r ← concatLoop lhs.lastBitsUsed.toNat words target (words.getD target 0) rhs.words
  let lastBitsUsed := lhs.lastBitsUsed + rhs.lastBitsUsed
  let words ← if lastBitsUsed > 64 then setWord r.1 r.2.1 r.2.2 else pure r.1
  pure ⟨words, if lastBitsUsed % 64 = 0 then 64 else lastBitsUsed % 64⟩

def concat (lhs rhs : BitArray) : Option BitArray :=
  if lhs.lastBitsUsed = 0 then some rhs
  else if rhs.lastBitsUsed = 0 then some lhs
  else
    let words := copyFrom
      (List.replicate ((lhs.nonEmptyBitLen + rhs.nonEmptyBitLen + 63) / 64) 0) 0 lhs.words
    if lhs.lastBitsUsed = 64 then
      some ⟨copyFrom words lhs.words.length rhs.words, rhs.lastBitsUsed⟩
    else concatShifted lhs rhs words

/-- A bitwise operation. The caller ensures that the sizes are the same. -/
def bitwise (f : UInt64 → UInt64 → UInt64) (lhs rhs : BitArray) : Option BitArray :=
  (writeFrom f lhs.words 0 rhs.words).map fun words => { lhs with words := words }

def and : BitArray → BitArray → Option BitArray := bitwise (· &&& ·)
def or : BitArray → BitArray → Option BitArray := bitwise (· ||| ·)
def next (d : BitArray) : BitArray :=
  if d.lastBitsUsed = 0 then ⟨[0], 1⟩
  else if d.lastBitsUsed < 64 then { d with lastBitsUsed := d.lastBitsUsed + 1 }
  else ⟨copyFrom (List.replicate (d.words.length + 1) 0) 0 d.words, 1⟩

/-- A bit of a word, the highest one first. -/
def wordBit (x : UInt64) (i : ℕ) : Bool := x.toBitVec.getMsbD i

/-- A bit of some words, or zero behind them. -/
def bitOf (words : List UInt64) (i : ℕ) : Bool := PackedWords.bit wordBit 0 64 words i

/-- A bit of the array, or zero behind its words. -/
def bit (d : BitArray) (i : ℕ) : Bool := bitOf d.words i

def bits (d : BitArray) : List Bool := (toBits wordBit 64 d.words).take d.bitLen

/-- The bits of the last word that are not used are zero, and only an empty array has no bits
there. -/
structure Canonical (d : BitArray) : Prop where
  used : d.words = [] ∧ d.lastBitsUsed = 0 ∨
    d.words ≠ [] ∧ 0 < d.lastBitsUsed.toNat ∧ d.lastBitsUsed.toNat ≤ 64
  unused : ∀ x ∈ d.words.getLast?, ∀ i, d.lastBitsUsed.toNat ≤ i → wordBit x i = false

/-- A canonical array with the given bits. -/
def Represents (d : BitArray) (l : List Bool) : Prop := d.Canonical ∧ d.bits = l

section Words

theorem wordBit_zero (i : ℕ) : wordBit 0 i = false := by
  simp [wordBit]

variable {i : ℕ}

theorem wordBit_of_ge (x : UInt64) (hi : 64 ≤ i) : wordBit x i = false :=
  BitVec.getMsbD_of_ge _ _ hi

theorem wordBit_ext (x y : UInt64) (h : ∀ i < 64, wordBit x i = wordBit y i) : x = y :=
  UInt64.toBitVec_inj.mp (BitVec.eq_of_getMsbD_eq h)

@[simp] theorem wordBit_shl (x : UInt64) (n i : ℕ) : wordBit (shl x n) i = wordBit x (i + n) :=
  BitVec.getMsbD_shiftLeft _ _

@[simp] theorem wordBit_or (x y : UInt64) (i : ℕ) :
    wordBit (x ||| y) i = (wordBit x i || wordBit y i) := BitVec.getMsbD_or

end Words

/-- How many bits of the last word are used, also for the empty array. -/
def lastUsed (n : ℕ) : ℕ := if n = 0 then 0 else (sizesForBitLen n).2

theorem lastUsed_le (n : ℕ) : lastUsed n ≤ 64 := by
  simp only [lastUsed, sizesForBitLen]
  split_ifs <;> omega

variable {d : BitArray}

theorem bitLen_of_parts {n : ℕ} (hwords : d.words.length = (n + 63) / 64)
    (hlast : d.lastBitsUsed.toNat = lastUsed n) : d.bitLen = n := by
  unfold bitLen nonEmptyBitLen
  rw [hlast]
  simp only [lastUsed, sizesForBitLen]
  split_ifs <;> omega

theorem Canonical.parts (h : d.Canonical) :
    d.words.length = (d.bitLen + 63) / 64 ∧ d.lastBitsUsed.toNat = lastUsed d.bitLen := by
  rcases h.used with ⟨hwords, hlast⟩ | ⟨hwords, hpos, hle⟩
  · simp [bitLen, hwords, hlast, lastUsed]
  · have hlength : 0 < d.words.length := length_pos_of_ne_nil hwords
    simp only [bitLen, nonEmptyBitLen, lastUsed, sizesForBitLen, hlength.ne', if_false]
    constructor
    · omega
    · split_ifs <;> omega

theorem bit_eq_false_of_words {i : ℕ} (hi : 64 * d.words.length ≤ i) : d.bit i = false :=
  PackedWords.bit_eq_false wordBit_zero hi (by norm_num)

theorem bit_word (d : BitArray) (j : ℕ) {b : ℕ} (hb : b < 64) :
    d.bit (64 * j + b) = wordBit (d.words.getD j 0) b :=
  PackedWords.bit_of_word (by norm_num) d.words j hb

theorem getLast?_eq_getD {ws : List UInt64} {x : UInt64} (h : x ∈ ws.getLast?) :
    ws ≠ [] ∧ x = ws.getD (ws.length - 1) 0 := by
  have hne : ws ≠ [] := by
    rintro rfl
    cases h
  rw [getLast?_eq_getElem?] at h
  exact ⟨hne, by rw [getD_eq_getElem?_getD, h]; rfl⟩

theorem Canonical.bit_eq_false (h : d.Canonical) {i : ℕ} (hi : d.bitLen ≤ i) : d.bit i = false := by
  rcases Nat.lt_or_ge i (64 * d.words.length) with hlt | hge
  · -- The bit is in the last word, behind those that are used.
    obtain ⟨hwords, hlast⟩ := h.parts
    obtain ⟨x, hx⟩ : ∃ x, d.words.getLast? = some x := by
      cases hlast : d.words.getLast? with
      | none =>
        rw [getLast?_eq_none_iff] at hlast
        rw [hlast] at hlt
        simp at hlt
      | some x => exact ⟨x, rfl⟩
    obtain ⟨-, hget⟩ := getLast?_eq_getD hx
    simp only [lastUsed, sizesForBitLen] at hlast
    have hword : i = 64 * (d.words.length - 1) + (i - 64 * (d.words.length - 1)) := by
      split_ifs at hlast <;> omega
    rw [hword, bit_word d _ (by omega), ← hget]
    refine h.unused x hx _ ?_
    split_ifs at hlast <;> omega
  · exact bit_eq_false_of_words hge

/-- An array represents some bits exactly if it has the parts for their number and these bits, with
zeros behind. -/
theorem represents_iff {l : List Bool} : d.Represents l ↔ d.words.length = (l.length + 63) / 64 ∧
      d.lastBitsUsed.toNat = lastUsed l.length ∧ ∀ i, d.bit i = l.getD i false := by
  have hget (i : ℕ) : (toBits wordBit 64 d.words).getD i false = d.bit i :=
    getD_toBits wordBit_zero (by norm_num) d.words i
  have hlength : (toBits wordBit 64 d.words).length = 64 * d.words.length := length_toBits d.words
  constructor
  · rintro ⟨hd, rfl⟩
    obtain ⟨hwords, hlast⟩ := hd.parts
    have hbits : d.bits.length = d.bitLen := by
      rw [bits, length_take]
      omega
    rw [hbits]
    refine ⟨hwords, hlast, ?_⟩
    intro i
    rcases Nat.lt_or_ge i d.bitLen with hi | hi
    · rw [bits, ← hget, getD_eq_getElem?_getD, getD_eq_getElem?_getD, getElem?_take_of_lt hi]
    · rw [hd.bit_eq_false hi, getD_eq_default _ _ (by omega)]
  · rintro ⟨hwords, hlast, hbit⟩
    have hlen := bitLen_of_parts hwords hlast
    have hle := lastUsed_le l.length
    refine ⟨⟨?_, ?_⟩, ?_⟩
    · rcases Nat.eq_zero_or_pos l.length with hzero | hpos
      · left
        rw [hzero] at hwords hlast
        exact ⟨length_eq_zero_iff.mp hwords, UInt8.toNat_inj.mp hlast⟩
      · right
        have hne : d.words ≠ [] := by
          rw [← length_pos_iff]
          omega
        refine ⟨hne, ?_, by omega⟩
        rw [hlast]
        simp only [lastUsed, sizesForBitLen]
        split_ifs <;> omega
    · intro x hx i hi
      obtain ⟨hne, rfl⟩ := getLast?_eq_getD hx
      rcases Nat.lt_or_ge i 64 with hi' | hi'
      · rw [← bit_word d _ hi', hbit, getD_eq_default]
        rw [hlast] at hi
        simp only [lastUsed, sizesForBitLen] at hi
        split_ifs at hi <;> omega
      · exact wordBit_of_ge _ hi'
    · refine ext_getElem ?_ ?_
      · rw [bits, length_take]
        omega
      · intro i hi hi'
        have h := hbit i
        rw [← hget, getD_eq_getElem _ _ hi', getD_eq_getElem _ _ (by omega)] at h
        simpa [bits] using h

theorem Represents.length {l : List Bool} (h : d.Represents l) : d.bitLen = l.length := by
  obtain ⟨hwords, hlast, -⟩ := represents_iff.mp h
  exact bitLen_of_parts hwords hlast

end BitArray

end Cockroach.Encoding
