import Mathlib

/-! Hybrid logical clock timestamps. -/
namespace Cockroach.Hlc
open Option

/-- A timestamp whose `WallTime` and `Logical` parts are non-negative `int64` and `int32` values. -/
structure Timestamp where
  wallTime : ℕ
  logical : ℕ
  synthetic : Bool
  wallTime_lt : wallTime < 2 ^ 63
  logical_lt : logical < 2 ^ 31
deriving DecidableEq, Repr

namespace Timestamp

theorem zero_lt_wallTime : 0 < 2 ^ 63 := by norm_num

theorem zero_lt_logical : 0 < 2 ^ 31 := by norm_num

/-- The zero value, which stands for an unset timestamp. -/
def empty : Timestamp := ⟨0, 0, false, zero_lt_wallTime, zero_lt_logical⟩

theorem toNat_lt_wallTime (n : UInt8) : n.toNat < 2 ^ 63 := n.toNat_lt.trans (by norm_num)

/-- A time of a few nanoseconds. -/
def ofNanos (n : UInt8) : Timestamp := ⟨n.toNat, 0, false, toNat_lt_wallTime n, zero_lt_logical⟩

@[simp] theorem wallTime_ofNanos (n : UInt8) : (ofNanos n).wallTime = n.toNat := rfl

/-- Position in the clock order: the logical part counts inside one nanosecond. -/
def ticks (t : Timestamp) : ℕ := t.wallTime * 2 ^ 31 + t.logical

/-- Equal up to the `Synthetic` flag. -/
def EqOrdering (t s : Timestamp) : Prop := t.wallTime = s.wallTime ∧ t.logical = s.logical

def Less (t s : Timestamp) : Prop :=
  t.wallTime < s.wallTime ∨ t.wallTime = s.wallTime ∧ t.logical < s.logical

def LessEq (t s : Timestamp) : Prop :=
  t.wallTime < s.wallTime ∨ t.wallTime = s.wallTime ∧ t.logical ≤ s.logical

def IsEmpty (t : Timestamp) : Prop := t = empty

instance (t s : Timestamp) : Decidable (t.EqOrdering s) := inferInstanceAs (Decidable (_ ∧ _))
instance (t s : Timestamp) : Decidable (t.Less s) := inferInstanceAs (Decidable (_ ∨ _))
instance (t s : Timestamp) : Decidable (t.LessEq s) := inferInstanceAs (Decidable (_ ∨ _))
instance (t : Timestamp) : Decidable t.IsEmpty := inferInstanceAs (Decidable (_ = _))

def compare (t s : Timestamp) : Ordering :=
  if t.wallTime > s.wallTime then .gt
  else if t.wallTime < s.wallTime then .lt
  else if t.logical > s.logical then .gt
  else if t.logical < s.logical then .lt
  else .eq

theorem less_iff (t s : Timestamp) : t.Less s ↔ t.ticks < s.ticks := by
  have ht := t.logical_lt
  have hs := s.logical_lt
  unfold Less ticks
  omega

theorem lessEq_iff (t s : Timestamp) : t.LessEq s ↔ t.ticks ≤ s.ticks := by
  have ht := t.logical_lt
  have hs := s.logical_lt
  unfold LessEq ticks
  omega

theorem eqOrdering_iff (t s : Timestamp) : t.EqOrdering s ↔ t.ticks = s.ticks := by
  have ht := t.logical_lt
  have hs := s.logical_lt
  unfold EqOrdering ticks
  omega

theorem compare_eq (t s : Timestamp) : t.compare s = Ord.compare t.ticks s.ticks := by
  have ht := t.logical_lt
  have hs := s.logical_lt
  rw [Nat.compare_eq_ite_lt]
  unfold compare ticks
  split_ifs <;> first | rfl | omega

@[simp] theorem ticks_empty : empty.ticks = 0 := rfl

variable {t s : Timestamp}

/-- A timestamp is its clock position together with the `Synthetic` flag. -/
theorem ext_ticks (h : t.ticks = s.ticks) (hs : t.synthetic = s.synthetic) : t = s := by
  obtain ⟨hw, hl⟩ := (eqOrdering_iff t s).mpr h
  cases t
  cases s
  simp_all

theorem isEmpty_iff (t : Timestamp) : t.IsEmpty ↔ t.ticks = 0 ∧ t.synthetic = false :=
  ⟨fun h => by rw [show t = empty from h]; exact ⟨rfl, rfl⟩, fun h => ext_ticks h.1 h.2⟩

theorem not_isEmpty_of_ticks_pos (h : 0 < t.ticks) : ¬ t.IsEmpty := by
  rw [isEmpty_iff]
  omega

/-- The next later timestamp; the code panics at the largest one. -/
def next (t : Timestamp) : Option Timestamp :=
  if hl : t.logical = 2 ^ 31 - 1 then
    if hw : t.wallTime = 2 ^ 63 - 1 then none
    else some ⟨t.wallTime + 1, 0, t.synthetic, by have := t.wallTime_lt; omega, by norm_num⟩
  else some ⟨t.wallTime, t.logical + 1, t.synthetic, t.wallTime_lt,
    by have := t.logical_lt; omega⟩

/-- The next earlier timestamp; the code panics at zero. -/
def prev (t : Timestamp) : Option Timestamp :=
  if 0 < t.logical then
    some ⟨t.wallTime, t.logical - 1, t.synthetic, t.wallTime_lt, by have := t.logical_lt; omega⟩
  else if 0 < t.wallTime then
    some ⟨t.wallTime - 1, 2 ^ 31 - 1, t.synthetic, by have := t.wallTime_lt; omega, by norm_num⟩
  else none

theorem next_eq_some (h : t.next = some s) : s.ticks = t.ticks + 1 ∧ s.synthetic = t.synthetic := by
  unfold next at h
  split_ifs at h with hl hw
  all_goals
    obtain rfl := some.inj h
    refine ⟨?_, rfl⟩
    unfold ticks
    dsimp only
    omega

theorem prev_eq_some (h : t.prev = some s) : s.ticks + 1 = t.ticks ∧ s.synthetic = t.synthetic := by
  unfold prev at h
  split_ifs at h with hl hw
  all_goals
    obtain rfl := some.inj h
    refine ⟨?_, rfl⟩
    unfold ticks
    dsimp only
    omega

theorem exists_prev (h : 0 < t.ticks) : ∃ s, t.prev = some s := by
  unfold prev
  split_ifs with hl hw
  · exact ⟨_, rfl⟩
  · exact ⟨_, rfl⟩
  · unfold ticks at h
    omega

/-- `Forward` replaces the receiver by the argument if that moves it forwards in time. At equal
clock positions the result is synthetic only if both are. -/
def forward (t s : Timestamp) : Timestamp :=
  if t.Less s then s
  else if t.EqOrdering s then { t with synthetic := t.synthetic && s.synthetic }
  else t

@[simp] theorem ticks_forward (t s : Timestamp) : (t.forward s).ticks = max t.ticks s.ticks := by
  unfold forward
  simp only [less_iff, eqOrdering_iff]
  split_ifs with h h'
  · omega
  · change t.ticks = _
    omega
  · omega

theorem forward_of_lt (h : t.ticks < s.ticks) : t.forward s = s :=
  if_pos ((less_iff t s).mpr h)

theorem forward_of_eq (h : t.ticks = s.ticks) :
    t.forward s = { t with synthetic := t.synthetic && s.synthetic } := by
  unfold forward
  rw [if_neg (by rw [less_iff]; omega), if_pos ((eqOrdering_iff t s).mpr h)]

theorem forward_of_gt (h : s.ticks < t.ticks) : t.forward s = t := by
  unfold forward
  rw [if_neg (by rw [less_iff]; omega), if_neg (by rw [eqOrdering_iff]; omega)]

@[simp] theorem forward_forward (t s : Timestamp) : t.forward (t.forward s) = t.forward s := by
  rcases lt_trichotomy t.ticks s.ticks with h | h | h
  · rw [forward_of_lt h, forward_of_lt h]
  · have hself : t.ticks = ({ t with synthetic := t.synthetic && s.synthetic } : Timestamp).ticks :=
      rfl
    rw [forward_of_eq h, forward_of_eq hself]
    simp
  · rw [forward_of_gt h, forward_of_eq rfl]
    simp

/-- `Backward` replaces the receiver by the argument if that moves it backwards in time. The result
is synthetic only if both are. -/
def backward (t s : Timestamp) : Timestamp :=
  { (if s.Less t then s else t) with synthetic := t.synthetic && s.synthetic }

@[simp] theorem backward_self (t : Timestamp) : t.backward t = t := by
  unfold backward
  rw [ite_self, Bool.and_self]

@[simp] theorem ticks_backward (t s : Timestamp) : (t.backward s).ticks = min t.ticks s.ticks := by
  have hticks : (t.backward s).ticks = (if s.Less t then s else t).ticks := rfl
  rw [hticks]
  split_ifs with h
  · rw [less_iff] at h
    omega
  · rw [less_iff] at h
    omega

def floor (t : Timestamp) : Timestamp := { t with logical := 0, logical_lt := by norm_num }

theorem ticks_floor (t : Timestamp) : t.floor.ticks = t.ticks / 2 ^ 31 * 2 ^ 31 := by
  have hlog := t.logical_lt
  change t.wallTime * 2 ^ 31 + 0 = _
  unfold ticks
  omega

theorem LessEq.forward_left (t s : Timestamp) : t.LessEq (t.forward s) := by
  rw [lessEq_iff, ticks_forward]
  exact le_max_left _ _

theorem LessEq.forward_right (t s : Timestamp) : s.LessEq (t.forward s) := by
  rw [lessEq_iff, ticks_forward]
  exact le_max_right _ _

theorem LessEq.trans {u : Timestamp} (h : t.LessEq s) (h' : s.LessEq u) : t.LessEq u := by
  rw [lessEq_iff] at h h' ⊢
  exact Nat.le_trans h h'

theorem LessEq.refl (t : Timestamp) : t.LessEq t := by
  rw [lessEq_iff]

end Timestamp

end Cockroach.Hlc
