import Mathlib.Data.List.GetD
import Mathlib.Data.Nat.Init

/-! Bits that are packed into words of one width, the first one highest, and loops that write into
an array from some index on. -/
namespace PackedWords
open List

section Bits

variable {α : Type} (msb : α → ℕ → Bool) (zero : α) (w : ℕ)

/-- A bit of the words, or zero behind their end. -/
def bit (ws : List α) (i : ℕ) : Bool := msb (ws.getD (i / w) zero) (i % w)

/-- All bits of the words. -/
def toBits (ws : List α) : List Bool := ws.flatMap fun x => (List.range w).map (msb x)

variable {msb zero w}

theorem bit_of_word (hw : 0 < w) (ws : List α) (j : ℕ) {b : ℕ} (hb : b < w) :
    bit msb zero w ws (w * j + b) = msb (ws.getD j zero) b := by
  rw [bit, Nat.mul_add_div hw, Nat.div_eq_of_lt hb, Nat.mul_add_mod, Nat.mod_eq_of_lt hb,
    Nat.add_zero]

theorem bit_cons_lt {x : α} {ws : List α} {i : ℕ} (hi : i < w) :
    bit msb zero w (x :: ws) i = msb x i := by
  rw [bit, Nat.div_eq_of_lt hi, Nat.mod_eq_of_lt hi]
  rfl

theorem bit_cons_add (hw : 0 < w) (x : α) (ws : List α) (i : ℕ) :
    bit msb zero w (x :: ws) (w + i) = bit msb zero w ws i := by
  rw [bit, Nat.add_div_left i hw, Nat.add_mod_left]
  rfl

theorem bit_eq_false (hzero : ∀ i, msb zero i = false) {ws : List α} {i : ℕ}
    (hi : w * ws.length ≤ i) (hw : 0 < w) : bit msb zero w ws i = false := by
  have hword : ws.length ≤ i / w := by
    rw [Nat.le_div_iff_mul_le hw, Nat.mul_comm]
    exact hi
  rw [bit, getD_eq_default _ _ hword, hzero]

theorem length_toBits (ws : List α) : (toBits msb w ws).length = w * ws.length := by
  induction ws with
  | nil => rfl
  | cons x ws ih =>
    have hcons : toBits msb w (x :: ws) = (List.range w).map (msb x) ++ toBits msb w ws := rfl
    rw [hcons, length_append, ih, length_map, length_range, length_cons, Nat.mul_succ, Nat.add_comm]

theorem getD_toBits (hzero : ∀ i, msb zero i = false) (hw : 0 < w) (ws : List α) (i : ℕ) :
    (toBits msb w ws).getD i false = bit msb zero w ws i := by
  induction ws generalizing i with
  | nil =>
    rw [bit_eq_false hzero (Nat.zero_le _) hw]
    rfl
  | cons x ws ih =>
    have hcons : toBits msb w (x :: ws) = (List.range w).map (msb x) ++ toBits msb w ws := rfl
    have hlength : ((List.range w).map (msb x)).length = w := by simp
    rw [hcons]
    rcases Nat.lt_or_ge i w with hi | hi
    · rw [getD_append _ _ _ _ (by omega), bit_cons_lt hi]
      simp [hi]
    · obtain ⟨k, rfl⟩ := Nat.exists_eq_add_of_le hi
      rw [getD_append_right _ _ _ _ (by omega), hlength, Nat.add_sub_cancel_left, ih,
        bit_cons_add hw]

theorem ext_bit (hext : ∀ x y, (∀ i < w, msb x i = msb y i) → x = y) (hw : 0 < w)
    {ws vs : List α} (hlength : ws.length = vs.length)
    (h : ∀ i, bit msb zero w ws i = bit msb zero w vs i) : ws = vs := by
  refine ext_getElem hlength ?_
  intro j hj hj'
  refine hext _ _ ?_
  intro b hb
  have hbit := h (w * j + b)
  rw [bit_of_word hw _ _ hb, bit_of_word hw _ _ hb, getD_eq_getElem _ _ hj,
    getD_eq_getElem _ _ hj'] at hbit
  exact hbit

end Bits

section Loops

variable {α β : Type}

/-- Write into consecutive places from an index on, each time from what is there and one element of
the other list. There is no result if a place does not exist. -/
def writeFrom (f : α → β → α) : List α → ℕ → List β → Option (List α)
  | r, _, [] => some r
  | r, j, x :: xs => if h : j < r.length then writeFrom f (r.set j (f r[j] x)) (j + 1) xs else none

end Loops

end PackedWords
