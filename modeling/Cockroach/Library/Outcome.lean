import Mathlib.Data.List.Basic

/-! Results of code that may return an error or index out of range. -/

/-- A value, an error, or a panic. -/
inductive Outcome (ε α : Type) where
  | ok (a : α)
  | error (e : ε)
  | panic
deriving DecidableEq, Repr

namespace Outcome

variable {ε α β : Type}

def bind (x : Outcome ε α) (f : α → Outcome ε β) : Outcome ε β :=
  match x with
  | ok a => f a
  | error e => error e
  | panic => panic

instance : Monad (Outcome ε) where
  pure := ok
  bind := bind

@[simp] theorem pure_eq (a : α) : (pure a : Outcome ε α) = ok a := rfl
@[simp] theorem ok_bind (a : α) (f : α → Outcome ε β) : (ok a >>= f) = f a := rfl
@[simp] theorem error_bind (e : ε) (f : α → Outcome ε β) : (error e >>= f) = error e := rfl
@[simp] theorem panic_bind (f : α → Outcome ε β) : (panic >>= f) = panic := rfl

variable {x : Outcome ε α} {f : α → Outcome ε β}

theorem bind_eq_ok {b : β} : (x >>= f) = ok b ↔ ∃ a, x = ok a ∧ f a = ok b := by
  cases x with
  | ok | error | panic => simp

/-- The value has the property if there is one. -/
def Ensures (x : Outcome ε α) (p : α → Prop) : Prop := ∀ a, x = ok a → p a

section Ensures

variable {x : Outcome ε α} {f : α → Outcome ε β} {p : α → Prop} {q : β → Prop}

@[simp] theorem ensures_ok {a : α} : (ok a : Outcome ε α).Ensures p ↔ p a := by
  simp [Ensures]

@[simp] theorem ensures_error {e : ε} : (error e : Outcome ε α).Ensures p := by
  simp [Ensures]

@[simp] theorem ensures_panic : (panic : Outcome ε α).Ensures p := by
  simp [Ensures]

theorem Ensures.bind (h : x.Ensures p) (hf : ∀ a, p a → (f a).Ensures q) : (x >>= f).Ensures q := by
  intro b hb
  obtain ⟨a, ha, hb⟩ := bind_eq_ok.mp hb
  exact hf a (h a ha) b hb

theorem ensures_bind (hf : ∀ a, (f a).Ensures q) : (x >>= f).Ensures q :=
  Ensures.bind (p := fun _ => True) (fun _ _ => trivial) fun a _ => hf a

end Ensures

def mapError {ε' : Type} (f : ε → ε') : Outcome ε α → Outcome ε' α
  | ok a => ok a
  | error e => error (f e)
  | panic => panic

def ofOption (e : ε) : Option α → Outcome ε α
  | some a => ok a
  | none => error e

/-- The element at an index, which has to exist. -/
def index (l : List α) (i : ℕ) : Outcome ε α :=
  match l[i]? with
  | some a => ok a
  | none => panic

/-- The elements from an index on, which is at most the length. -/
def sliceFrom (l : List α) (i : ℕ) : Outcome ε (List α) :=
  if i ≤ l.length then ok (l.drop i) else panic

variable {l : List α} {i : ℕ}

theorem sliceFrom_eq_panic : (sliceFrom l i : Outcome ε (List α)) = panic ↔ l.length < i := by
  unfold sliceFrom
  split_ifs with h
  · simp only [false_iff]
    omega
  · simp only [true_iff]
    omega

theorem sliceFrom_eq_ok (h : i ≤ l.length) :
    (sliceFrom l i : Outcome ε (List α)) = ok (l.drop i) := if_pos h

theorem sliceFrom_cons_one {a : α} : (sliceFrom (a :: l) 1 : Outcome ε (List α)) = ok l :=
  sliceFrom_eq_ok (Nat.succ_le_succ (Nat.zero_le _))

variable {r : List α}

theorem sliceFrom_append (h : l.length = i) :
    (sliceFrom (l ++ r) i : Outcome ε (List α)) = ok r := by
  rw [← h, sliceFrom_eq_ok (by simp), List.drop_left]

theorem index_eq_panic : (index l i : Outcome ε α) = panic ↔ l.length ≤ i := by
  unfold index
  rcases Nat.lt_or_ge i l.length with h | h
  · rw [List.getElem?_eq_getElem h]
    simp only [reduceCtorEq, false_iff]
    omega
  · rw [List.getElem?_eq_none h]
    simpa using h

theorem index_of_drop {x : α} (h : l.drop i = x :: r) : (index l i : Outcome ε α) = ok x := by
  have hget : l[i]? = some x := by
    rw [← Nat.add_zero i, ← List.getElem?_drop, h]
    rfl
  rw [index, hget]

end Outcome
