import Mathlib

/-! Positions in a list of entries, with one position before the first entry and one behind the
last. -/

/-- Position `0` is before the first entry and position `i + 1` at the entry with index `i`. -/
structure Cursor (α : Type*) where
  entries : List α
  pos : ℕ

namespace Cursor

variable {α : Type*}

/-- The entry at the position, if the position is valid. -/
def current (c : Cursor α) : Option α := if c.pos = 0 then none else c.entries[c.pos - 1]?

def next (c : Cursor α) : Cursor α := { c with pos := min (c.pos + 1) (c.entries.length + 1) }

def prev (c : Cursor α) : Cursor α := { c with pos := c.pos - 1 }

/-- Move to the first entry that is not below a target. -/
def seekGE (c : Cursor α) (below : α → Bool) : Cursor α :=
  { c with pos := (c.entries.takeWhile below).length + 1 }

/-- Move to the last entry that is below a target. -/
def seekLT (c : Cursor α) (below : α → Bool) : Cursor α :=
  { c with pos := (c.entries.takeWhile below).length }

theorem current_of_pos {c : Cursor α} {n : ℕ} (h : c.pos = n + 1) : c.current = c.entries[n]? := by
  unfold current
  rw [if_neg (by omega), h, Nat.add_sub_cancel]

theorem current_of_pos_zero {c : Cursor α} (h : c.pos = 0) : c.current = none := if_pos h

theorem length_takeWhile_append {below : α → Bool} {p q : List α} (hp : ∀ x ∈ p, below x = true)
    (hq : ∀ x ∈ q.head?, below x = false) : ((p ++ q).takeWhile below).length = p.length := by
  rw [List.takeWhile_append_of_pos hp]
  cases q with
  | nil => simp
  | cons x q => simp [hq x rfl]

end Cursor
