import Mathlib

/-! Consecutive half-open ranges between the elements of an ascending list. -/
namespace Splits
open List

variable {κ μ : Type*}

/-- The pairs of neighbours. -/
def consecutive : List κ → List (κ × κ)
  | a :: b :: l => (a, b) :: consecutive (b :: l)
  | _ => []

variable [LinearOrder μ] {f : κ → μ} {a b : κ} {l : List κ} {x : μ}

theorem exists_mem_consecutive (hx : f a ≤ x) (hx' : x < f ((a :: l).getLast (by simp))) :
    ∃ r ∈ consecutive (a :: l), f r.1 ≤ x ∧ x < f r.2 := by
  induction l generalizing a with
  | nil => exact absurd hx' hx.not_gt
  | cons b l ih =>
    rcases lt_or_ge x (f b) with hlt | hge
    · exact ⟨(a, b), mem_cons_self, hx, hlt⟩
    · obtain ⟨r, hr, hrx⟩ := ih hge hx'
      exact ⟨r, mem_cons_of_mem _ hr, hrx⟩

variable [LinearOrder κ]

theorem le_of_mem_consecutive (hs : (a :: l).Pairwise (· < ·)) {r : κ × κ}
    (hr : r ∈ consecutive (a :: l)) : a ≤ r.1 := by
  induction l generalizing a with
  | nil => cases hr
  | cons b l ih =>
    obtain ⟨ha, hs'⟩ := pairwise_cons.mp hs
    rcases mem_cons.mp hr with rfl | hr
    · exact le_rfl
    · exact (ha b mem_cons_self).le.trans (ih hs' hr)

theorem le_getLast_of_mem_consecutive (hs : (a :: l).Pairwise (· < ·)) {r : κ × κ}
    (hr : r ∈ consecutive (a :: l)) : r.2 ≤ (a :: l).getLast (by simp) := by
  induction l generalizing a with
  | nil => cases hr
  | cons b l ih =>
    obtain ⟨-, hs'⟩ := pairwise_cons.mp hs
    rcases mem_cons.mp hr with rfl | hr
    · exact (hs'.imp le_of_lt).rel_getLast mem_cons_self
    · exact ih hs' hr

theorem eq_of_mem_consecutive (hf : StrictMono f) (hs : (a :: l).Pairwise (· < ·)) {r r' : κ × κ}
    (hr : r ∈ consecutive (a :: l)) (hr' : r' ∈ consecutive (a :: l))
    (hx : f r.1 ≤ x ∧ x < f r.2) (hx' : f r'.1 ≤ x ∧ x < f r'.2) : r = r' := by
  induction l generalizing a with
  | nil => cases hr
  | cons b l ih =>
    obtain ⟨-, hs'⟩ := pairwise_cons.mp hs
    have hlater : ∀ q ∈ consecutive (b :: l), f q.1 ≤ x → f b ≤ x := fun q hq hqx =>
      (hf.monotone (le_of_mem_consecutive hs' hq)).trans hqx
    rcases mem_cons.mp hr with rfl | hr <;> rcases mem_cons.mp hr' with rfl | hr'
    · rfl
    · exact absurd (hlater r' hr' hx'.1) hx.2.not_ge
    · exact absurd (hlater r hr hx.1) hx'.2.not_ge
    · exact ih hs' hr hr'

end Splits
