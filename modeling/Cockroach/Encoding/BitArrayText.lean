import Cockroach.Encoding.BitArraySemantics

/-! The text of bit arrays: what the formatter writes is parsed to the same array. -/
namespace Cockroach.Encoding.BitArray
open PackedWords ByteOrder List

structure ParseState where
  words : List UInt64
  wordIdx : ℕ
  bitIdx : ℕ
  curWord : UInt64
deriving DecidableEq, Repr

/-- Put the bits of one digit into the current word, which is stored once it is full. -/
def ParseState.push (size : ℕ) (st : ParseState) (bitVal : UInt64) : Option ParseState :=
  let curWord := st.curWord ||| shl bitVal (64 - size - st.bitIdx)
  let bitIdx := (st.bitIdx + size) % 64
  if bitIdx = 0 then
    (setWord st.words st.wordIdx curWord).map fun words => ⟨words, st.wordIdx + 1, bitIdx, 0⟩
  else some { st with bitIdx := bitIdx, curWord := curWord }

/-- Ensure that the last word is stored. -/
def ParseState.finish (st : ParseState) (lastBitsUsed : ℕ) :
    Option (Except BitArrayError BitArray) :=
  (if st.bitIdx > 0 then setWord st.words st.wordIdx st.curWord else some st.words).map
    fun words => fromEncodingParts words lastBitsUsed

def binaryDigit (c : Char) : Except BitArrayError UInt64 :=
  let val := UInt64.ofNat c.toNat - UInt64.ofNat '0'.toNat
  if val &&& 1 ≠ val then .error (.binaryDigit c) else .ok (val &&& 1)

def hexDigit (c : Char) : Except BitArrayError UInt64 :=
  if '0' ≤ c ∧ c ≤ '9' then .ok (UInt64.ofNat (c.toNat - '0'.toNat))
  else if 'a' ≤ c ∧ c ≤ 'f' then .ok (UInt64.ofNat (c.toNat - 'a'.toNat) + 10)
  else if 'A' ≤ c ∧ c ≤ 'F' then .ok (UInt64.ofNat (c.toNat - 'A'.toNat) + 10)
  else .error (.hexDigit c)

section Parse

/-- The state after some bits: the full words hold the first of them and the current word the
others. -/
structure ParseState.Holds (st : ParseState) (n : ℕ) (l : List Bool) : Prop where
  length : st.words.length = n
  bound : st.bitIdx < 64
  count : l.length = 64 * st.wordIdx + st.bitIdx
  stored : ∀ i < 64 * st.wordIdx, bitOf st.words i = l.getD i false
  current : ∀ i, wordBit st.curWord i = l.getD (64 * st.wordIdx + i) false
  rest : ∀ i, 64 * st.wordIdx ≤ i → bitOf st.words i = false

/-- A digit as a word of one bit. -/
def bitVal (b : Bool) : UInt64 := if b then 1 else 0

theorem wordBit_bitVal (b : Bool) (i : ℕ) : wordBit (bitVal b) i = (decide (i = 63) && b) := by
  cases b with
  | false => rw [Bool.and_false]; exact wordBit_zero i
  | true =>
    rw [Bool.and_true]
    rcases Nat.lt_or_ge i 64 with hi | hi
    · have hone : (bitVal true).toNat = 1 := rfl
      rw [← toNat_testBit _ hi, hone, Bool.eq_iff_iff, decide_eq_true_iff,
        Nat.testBit_one_eq_true_iff_self_eq_zero]
      omega
    · rw [wordBit_of_ge _ hi, decide_eq_false (by omega)]

theorem getD_concat (l : List Bool) (b : Bool) (i : ℕ) :
    (l ++ [b]).getD i false = (l.getD i false || decide (i = l.length) && b) := by
  rw [getD_append_false]
  split_ifs with hi
  · rw [decide_eq_false (by omega), Bool.false_and, Bool.or_false]
  · rw [getD_eq_default l _ (by omega), Bool.false_or]
    by_cases heq : i = l.length
    · rw [heq, Nat.sub_self, decide_eq_true rfl]
      rfl
    · rw [decide_eq_false heq, Bool.false_and, getD_eq_default _ _ (by
        rw [length_singleton]; omega)]

variable {st : ParseState} {l : List Bool}

theorem ParseState.Holds.push {n : ℕ} (h : st.Holds n l) (b : Bool) (hroom : l.length < 64 * n) :
    ∃ st', st.push 1 (bitVal b) = some st' ∧ st'.Holds n (l ++ [b]) := by
  have hcount := h.count
  have hbound := h.bound
  have hword (i : ℕ) : wordBit (st.curWord ||| shl (bitVal b) (64 - 1 - st.bitIdx)) i =
      (l ++ [b]).getD (64 * st.wordIdx + i) false := by
    rw [wordBit_or, wordBit_shl, wordBit_bitVal, h.current, getD_concat]
    congr 2
    exact decide_eq_decide.mpr (by omega)
  unfold ParseState.push
  dsimp only
  split_ifs with hfull
  · rw [setWord, if_pos (by rw [h.length]; omega)]
    refine ⟨_, rfl, ?_⟩
    constructor
    · rw [length_set, h.length]
    · dsimp only
      omega
    · rw [length_append, length_singleton]
      dsimp only
      omega
    · intro i hi
      dsimp only at hi
      rw [bitOf_set _ (by rw [h.length]; omega)]
      split_ifs with hlast
      · rw [hword, show 64 * st.wordIdx + i % 64 = i by omega]
      · rw [h.stored i (by omega), getD_append _ _ _ _ (by omega)]
    · intro i
      dsimp only
      rw [wordBit_zero, getD_eq_default _ _ (by rw [length_append, length_singleton]; omega)]
    · intro i hi
      dsimp only at hi
      rw [bitOf_set _ (by rw [h.length]; omega), if_neg (by omega)]
      exact h.rest i (by omega)
  · refine ⟨_, rfl, ?_⟩
    constructor
    · exact h.length
    · exact Nat.mod_lt _ (by decide)
    · rw [length_append, length_singleton]
      dsimp only
      omega
    · intro i hi
      rw [h.stored i hi, getD_append _ _ _ _ (by dsimp only at hi; omega)]
    · exact hword
    · exact h.rest

theorem ParseState.Holds.finish (hpos : 0 < l.length) (h : st.Holds ((l.length + 63) / 64) l) :
    ∃ d, st.finish (sizesForBitLen l.length).2 = some (.ok d) ∧ d.Represents l := by
  have hcount := h.count
  have hbound := h.bound
  have hlength := h.length
  have hsizes := sizesForBitLen_le l.length
  have hparts {ws : List UInt64} (hws : ws.length = (l.length + 63) / 64)
      (hbit : ∀ i, bitOf ws i = l.getD i false) :
      ∃ d, fromEncodingParts ws (sizesForBitLen l.length).2 = .ok d ∧ d.Represents l := by
    obtain ⟨d, hd, hrep⟩ := represents_mustFromEncodingParts rfl hpos hws hbit
    rw [mustFromEncodingParts, fromEncodingParts, if_neg (by omega)] at hd
    refine ⟨d, ?_, hrep⟩
    rw [fromEncodingParts, if_neg (by omega)]
    exact congrArg Except.ok (Option.some.inj hd)
  unfold ParseState.finish
  split_ifs with hmore
  · rw [setWord, if_pos (by omega)]
    obtain ⟨d, hd, hrep⟩ := @hparts (st.words.set st.wordIdx st.curWord)
      (by rw [length_set, hlength]) (by
        intro i
        rw [bitOf_set _ (by omega)]
        split_ifs with hi
        · rw [h.current, show 64 * st.wordIdx + i % 64 = i by omega]
        · rcases Nat.lt_or_ge i (64 * st.wordIdx) with hlt | hge
          · exact h.stored i hlt
          · rw [h.rest i hge, getD_eq_default _ _ (by omega)])
    exact ⟨d, congrArg some hd, hrep⟩
  · obtain ⟨d, hd, hrep⟩ := hparts hlength (by
      intro i
      rcases Nat.lt_or_ge i (64 * st.wordIdx) with hlt | hge
      · exact h.stored i hlt
      · rw [h.rest i hge, getD_eq_default _ _ (by omega)])
    exact ⟨d, congrArg some hd, hrep⟩

theorem Represents.unique {d e : BitArray} (hd : d.Represents l) (he : e.Represents l) : d = e := by
  obtain ⟨hdw, hdlast, hdbit⟩ := represents_iff.mp hd
  obtain ⟨hew, helast, hebit⟩ := represents_iff.mp he
  have hwords : d.words = e.words :=
    ext_bit (fun x y => wordBit_ext x y) (by decide) (hdw.trans hew.symm)
      fun i => (hdbit i).trans (hebit i).symm
  have hlast : d.lastBitsUsed = e.lastBitsUsed := UInt8.toNat_inj.mp (hdlast.trans helast.symm)
  cases d
  cases e
  simp_all

end Parse

end Cockroach.Encoding.BitArray
