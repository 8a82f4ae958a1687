import Mathlib.Algebra.Order.Ring.Int
import Mathlib.Tactic.NormNum

/-! Signed 64-bit arithmetic that wraps or is checked, for a program written once over both. -/
namespace MachineInt

/-- The operations that may leave the range of 64 bits. -/
structure Ops (m : Type → Type) where
  add : Int64 → Int64 → m Int64
  sub : Int64 → Int64 → m Int64
  mul : Int64 → Int64 → m Int64

/-- Two's complement, as the machine computes. -/
def wrapping : Ops Id where
  add a b := a + b
  sub a b := a - b
  mul a b := a * b

/-- An exact result, if it is in range. -/
def fit (x : ℤ) : Option Int64 := if -2 ^ 63 ≤ x ∧ x < 2 ^ 63 then some (.ofInt x) else none

/-- Operations that fail where the machine wraps. -/
def checked : Ops Option where
  add a b := fit (a.toInt + b.toInt)
  sub a b := fit (a.toInt - b.toInt)
  mul a b := fit (a.toInt * b.toInt)

theorem fit_eq_some {x : ℤ} {c : Int64} : fit x = some c ↔ c.toInt = x := by
  unfold fit
  constructor
  · intro h
    split_ifs at h with hx
    rw [← Option.some.inj h]
    exact Int64.toInt_ofInt_of_le hx.1 hx.2
  · intro h
    have hlow := c.le_toInt
    have hhigh := c.toInt_lt
    rw [← h, if_pos ⟨hlow, hhigh⟩, Int64.ofInt_toInt]

theorem exists_fit {x : ℤ} (hlow : -2 ^ 63 ≤ x) (hhigh : x < 2 ^ 63) :
    ∃ c, fit x = some c ∧ c.toInt = x :=
  ⟨.ofInt x, if_pos ⟨hlow, hhigh⟩, Int64.toInt_ofInt_of_le hlow hhigh⟩

theorem fit_eq_none {x : ℤ} (h : x < -2 ^ 63 ∨ 2 ^ 63 ≤ x) : fit x = none := by
  refine if_neg ?_
  omega

theorem bmod_of_mem {x : ℤ} (hlow : -2 ^ 63 ≤ x) (hhigh : x < 2 ^ 63) : x.bmod (2 ^ 64) = x := by
  refine Int.bmod_eq_of_le ?_ ?_
  · simpa using hlow
  · simpa using hhigh

theorem bmod_eq_self_iff {x : ℤ} : x.bmod (2 ^ 64) = x ↔ -2 ^ 63 ≤ x ∧ x < 2 ^ 63 := by
  constructor
  · intro h
    have hlow := Int.le_bmod (x := x) (m := 2 ^ 64) (by norm_num)
    have hhigh := Int.bmod_lt (x := x) (m := 2 ^ 64) (by norm_num)
    omega
  · rintro ⟨hlow, hhigh⟩
    exact bmod_of_mem hlow hhigh

section Agrees

variable {α β : Type}

/-- A checked computation that succeeds has the result of the wrapping one. -/
def Agrees (x : Option α) (y : Id α) : Prop := ∀ a, x = some a → y = a

theorem Agrees.pure (a : α) : Agrees (some a) a := by
  intro b h
  exact Option.some.inj h

theorem Agrees.bind {x : Option α} {y : Id α} {f : α → Option β} {g : α → Id β}
    (h : Agrees x y) (hf : ∀ a, Agrees (f a) (g a)) : Agrees (x >>= f) (y >>= g) := by
  intro b hb
  obtain ⟨a, ha, hfa⟩ := Option.bind_eq_some_iff.mp hb
  have hy : y = a := h a ha
  rw [hy]
  exact hf a b hfa

theorem Agrees.ite {c : Prop} [Decidable c] {x x' : Option α} {y y' : Id α} (h : Agrees x y)
    (h' : Agrees x' y') : Agrees (if c then x else x') (if c then y else y') := by
  split_ifs
  · exact h
  · exact h'

theorem agrees_add (a b : Int64) : Agrees (checked.add a b) (wrapping.add a b) := by
  intro c hc
  have hexact : c.toInt = a.toInt + b.toInt := fit_eq_some.mp hc
  refine Int64.toInt_inj.mp ?_
  change (a + b).toInt = c.toInt
  rw [Int64.toInt_add, ← hexact, bmod_of_mem c.le_toInt c.toInt_lt]

theorem agrees_sub (a b : Int64) : Agrees (checked.sub a b) (wrapping.sub a b) := by
  intro c hc
  have hexact : c.toInt = a.toInt - b.toInt := fit_eq_some.mp hc
  refine Int64.toInt_inj.mp ?_
  change (a - b).toInt = c.toInt
  rw [Int64.toInt_sub, ← hexact, bmod_of_mem c.le_toInt c.toInt_lt]

theorem agrees_mul (a b : Int64) : Agrees (checked.mul a b) (wrapping.mul a b) := by
  intro c hc
  have hexact : c.toInt = a.toInt * b.toInt := fit_eq_some.mp hc
  refine Int64.toInt_inj.mp ?_
  change (a * b).toInt = c.toInt
  rw [Int64.toInt_mul, ← hexact, bmod_of_mem c.le_toInt c.toInt_lt]

end Agrees

theorem tdiv_spec (x : ℤ) {c : ℤ} (hc : 0 < c) :
    ∃ r, x = c * x.tdiv c + r ∧ -c < r ∧ r < c ∧ (0 ≤ x → 0 ≤ r) ∧ (x ≤ 0 → r ≤ 0) := by
  refine ⟨x.tmod c, ?_, Int.lt_tmod_of_pos x hc, Int.tmod_lt_of_pos x hc, Int.tmod_nonneg c, ?_⟩
  · exact (Int.mul_tdiv_add_tmod x c).symm
  · intro hx
    have hneg := Int.tmod_nonneg c (neg_nonneg.mpr hx)
    rw [Int.neg_tmod] at hneg
    exact neg_nonneg.mp hneg

theorem toInt_div {a b : Int64} (hb : 0 < b.toInt) : (a / b).toInt = a.toInt.tdiv b.toInt := by
  have hlow := a.le_toInt
  have hhigh := a.toInt_lt
  obtain ⟨r, hr, -, -, hpos, hneg⟩ := tdiv_spec a.toInt hb
  rw [Int64.toInt_div]
  rcases le_total 0 a.toInt with h | h
  · have hq : 0 ≤ a.toInt.tdiv b.toInt := Int.tdiv_nonneg h hb.le
    have hle : a.toInt.tdiv b.toInt ≤ b.toInt * a.toInt.tdiv b.toInt :=
      le_mul_of_one_le_left hq hb
    exact bmod_of_mem (by omega) (by omega)
  · have hq : a.toInt.tdiv b.toInt ≤ 0 := by
      have hquot := Int.tdiv_nonneg (neg_nonneg.mpr h) hb.le
      rw [Int.neg_tdiv] at hquot
      exact neg_nonneg.mp hquot
    have hone : (1 : ℤ) ≤ b.toInt := hb
    have hle : b.toInt * a.toInt.tdiv b.toInt ≤ a.toInt.tdiv b.toInt :=
      (mul_le_mul_of_nonpos_right hone hq).trans_eq (one_mul _)
    exact bmod_of_mem (by omega) (by omega)

end MachineInt
