import Cockroach.Opt.OrderingChoice

/-! Functional dependencies between columns, and the closures of column sets under them. -/
namespace Cockroach.Opt

/-- The columns that determine others. In an equivalence they are equal to them. -/
structure FuncDep where
  fromCols : ColSet
  toCols : ColSet
  strict : Bool
  equiv : Bool
deriving DecidableEq

def allToCols (deps : List FuncDep) : ColSet := deps.foldr (·.toCols ∪ ·) ∅

theorem toCols_subset {deps : List FuncDep} {fd : FuncDep} (h : fd ∈ deps) :
    fd.toCols ⊆ allToCols deps := by
  induction deps with
  | nil => simp at h
  | cons x deps ih =>
    rcases List.mem_cons.mp h with rfl | h
    · exact Finset.subset_union_left
    · exact (ih h).trans Finset.subset_union_right

/-- The search for a dependency that adds columns starts again after each one. -/
def computeClosure (deps : List FuncDep) (cols : ColSet) : ColSet :=
  match _h : deps.find? (fun fd => decide (fd.strict = true ∧ fd.fromCols ⊆ cols ∧
      ¬ fd.toCols ⊆ cols)) with
  | none => cols
  | some fd => computeClosure deps (cols ∪ fd.toCols)
termination_by (allToCols deps \ cols).card
decreasing_by
  have hsome := List.find?_some _h
  obtain ⟨-, -, hnot⟩ := of_decide_eq_true hsome
  obtain ⟨c, hc, hcols⟩ := Finset.not_subset.mp hnot
  have hto := toCols_subset (List.mem_of_find?_eq_some _h) hc
  refine Finset.card_lt_card (Finset.ssubset_iff_of_subset ?_ |>.mpr
    ⟨c, Finset.mem_sdiff.mpr ⟨hto, hcols⟩, ?_⟩)
  · exact Finset.sdiff_subset_sdiff le_rfl Finset.subset_union_left
  · simp [hc]

def computeEquivClosure (deps : List FuncDep) (cols : ColSet) : ColSet :=
  deps.foldl (fun cols fd => if fd.equiv = true ∧ fd.fromCols ⊆ cols ∧ ¬ fd.toCols ⊆ cols
    then cols ∪ fd.toCols else cols) cols

/-- Equivalences are strict, have one determinant, and each column of a group has the whole group
as its closure. -/
structure FuncDepSet where
  deps : List FuncDep
  equivs : ∀ fd ∈ deps, fd.equiv = true → fd.strict = true ∧ ∃ c, fd.fromCols = {c} ∧
    ∀ d ∈ insert c fd.toCols, computeEquivClosure deps {d} = insert c fd.toCols

def FuncDepSet.computeEquivGroup (F : FuncDepSet) (rep : ℕ) : ColSet :=
  computeEquivClosure F.deps {rep}

variable {deps : List FuncDep} {cols s : ColSet} {P : ColSet → Prop}

/-- What dependencies keep that are applied one by one holds of the closure. -/
theorem computeClosure_induct (hcols : P cols)
    (hstep : ∀ s, ∀ fd ∈ deps, fd.strict = true → fd.fromCols ⊆ s → P s → P (s ∪ fd.toCols)) :
    P (computeClosure deps cols) := by
  induction cols using computeClosure.induct deps with
  | case1 cols h =>
    rw [computeClosure, h]
    exact hcols
  | case2 cols fd h ih =>
    rw [computeClosure, h]
    have hsome := List.find?_some h
    obtain ⟨hstrict, hfrom, -⟩ := of_decide_eq_true hsome
    exact ih (hstep cols fd (List.mem_of_find?_eq_some h) hstrict hfrom hcols)

theorem computeEquivClosure_induct (hcols : P cols)
    (hstep : ∀ s, ∀ fd ∈ deps, fd.equiv = true → fd.fromCols ⊆ s → P s → P (s ∪ fd.toCols)) :
    P (computeEquivClosure deps cols) := by
  refine List.foldlRecOn deps _ hcols fun s hs fd hfd => ?_
  split_ifs with h
  · exact hstep s fd hfd h.1 h.2.1 hs
  · exact hs

theorem subset_computeClosure : cols ⊆ computeClosure deps cols :=
  computeClosure_induct (P := (cols ⊆ ·)) subset_rfl
    fun _ _ _ _ _ h => h.trans Finset.subset_union_left

theorem subset_computeClosure_union {t : ColSet} (h : s ⊆ cols) :
    s ⊆ computeClosure deps (cols ∪ t) :=
  (h.trans Finset.subset_union_left).trans subset_computeClosure

theorem subset_computeEquivClosure : cols ⊆ computeEquivClosure deps cols :=
  computeEquivClosure_induct (P := (cols ⊆ ·)) subset_rfl
    fun _ _ _ _ _ h => h.trans Finset.subset_union_left

/-- No dependency adds columns to the set. -/
def Closed (deps : List FuncDep) (s : ColSet) : Prop :=
  ∀ fd ∈ deps, fd.strict = true → fd.fromCols ⊆ s → fd.toCols ⊆ s

theorem closed_computeClosure : Closed deps (computeClosure deps cols) := by
  induction cols using computeClosure.induct deps with
  | case1 cols h =>
    rw [computeClosure, h]
    intro fd hfd hstrict hfrom
    by_contra hto
    have hnone := List.find?_eq_none.mp h fd hfd
    simp [hstrict, hfrom, hto] at hnone
  | case2 cols fd h ih =>
    rw [computeClosure, h]
    exact ih

theorem Closed.computeClosure_eq (h : Closed deps s) : computeClosure deps s = s :=
  (computeClosure_induct (P := (· ⊆ s)) subset_rfl fun _ fd hfd hstrict hfrom ht =>
    Finset.union_subset ht (h fd hfd hstrict (hfrom.trans ht))).antisymm subset_computeClosure

namespace FuncDepSet

variable {F : FuncDepSet} {c d : ℕ}

theorem mem_computeEquivGroup : c ∈ F.computeEquivGroup c :=
  subset_computeEquivClosure (Finset.mem_singleton_self c)

theorem computeEquivGroup_eq (h : d ∈ F.computeEquivGroup c) :
    F.computeEquivGroup d = F.computeEquivGroup c := by
  by_cases hdep : ∃ fd ∈ F.deps, fd.equiv = true ∧ fd.fromCols = {c}
  · obtain ⟨fd, hfd, hequiv, hfrom⟩ := hdep
    obtain ⟨-, c', hfrom', hgroup⟩ := F.equivs fd hfd hequiv
    obtain rfl := Finset.singleton_injective (hfrom.symm.trans hfrom')
    have hc : F.computeEquivGroup c = insert c fd.toCols := hgroup c (Finset.mem_insert_self c _)
    rw [hc] at h ⊢
    exact hgroup d h
  · have hc : F.computeEquivGroup c = {c} := by
      refine computeEquivClosure_induct (P := (· = {c})) rfl fun s fd hfd hequiv hfrom hs => ?_
      obtain ⟨-, c', hfrom', -⟩ := F.equivs fd hfd hequiv
      rw [hfrom', hs, Finset.singleton_subset_singleton] at hfrom
      exact absurd ⟨fd, hfd, hequiv, hfrom ▸ hfrom'⟩ hdep
    rw [hc, Finset.mem_singleton] at h
    rw [h]

/-- A closed set has all columns of a group or none. -/
theorem mem_of_closed (hs : Closed F.deps s) (h : d ∈ F.computeEquivGroup c) (hd : d ∈ s) :
    c ∈ s := by
  have hsub : F.computeEquivGroup d ⊆ s :=
    computeEquivClosure_induct (P := (· ⊆ s)) (Finset.singleton_subset_iff.mpr hd)
      fun t fd hfd hequiv hfrom ht => Finset.union_subset ht
        (hs fd hfd (F.equivs fd hfd hequiv).1 (hfrom.trans ht))
  apply hsub
  rw [computeEquivGroup_eq h]
  exact mem_computeEquivGroup

end FuncDepSet

end Cockroach.Opt
