import Cockroach.Opt.SpanOrder

/-! Unions and intersections of constraints denote the unions and intersections of their tuples. -/
namespace Cockroach.Opt
open Intervals List

variable {D : Type*} [LinearOrder D] {cols : List OrderingColumn}

namespace Spans

def bounds (cols : List OrderingColumn) (spans : List (Span D)) : List (Bounds (List (Place D))) :=
  spans.map (Span.bounds cols)

omit [LinearOrder D] in
@[simp] theorem bounds_cons (sp : Span D) (spans : List (Span D)) :
    bounds cols (sp :: spans) = sp.bounds cols :: bounds cols spans := rfl

/-- Spans of the columns that are not empty, in ascending order with space between them. -/
structure Proper (cols : List OrderingColumn) (spans : List (Span D)) : Prop where
  fits : ∀ sp ∈ spans, sp.Fits cols
  separated : Separated (bounds cols spans)

/-- A span of the columns that is not empty and starts before all others. -/
structure Merging (cols : List OrderingColumn) (sp : Span D) (spans : List (Span D)) : Prop where
  fits : sp.Fits cols
  lt : (sp.bounds cols).lo < (sp.bounds cols).hi
  proper : Proper cols spans
  le : ∀ i ∈ bounds cols spans, (sp.bounds cols).lo ≤ i.lo

variable {sp sp' : Span D} {spans left right : List (Span D)}

theorem Proper.head (h : Proper cols (sp :: spans)) : sp.Fits cols :=
  (forall_mem_cons.mp h.fits).1

theorem Proper.tail (h : Proper cols (sp :: spans)) : Proper cols spans :=
  ⟨(forall_mem_cons.mp h.fits).2, h.separated.tail⟩

theorem Proper.merging (h : Proper cols (sp :: spans)) : Merging cols sp spans :=
  ⟨h.head, h.separated.head_lt, h.tail,
    fun i hi => h.separated.lo_le i (mem_cons_of_mem _ hi)⟩

theorem Merging.of_lo (h : Merging cols sp spans) (h' : Merging cols sp' left)
    (hlo : (sp'.bounds cols).lo = (sp.bounds cols).lo) : Merging cols sp' spans :=
  ⟨h'.fits, h'.lt, h.proper, fun i hi => hlo.le.trans (h.le i hi)⟩

theorem absorbHead_some (h : Merging cols sp spans) {spans' : List (Span D)}
    (hr : absorbHead cols sp spans = some (sp', spans')) :
    Merging cols sp' spans' ∧ (sp'.bounds cols).lo = (sp.bounds cols).lo ∧
      cover (sp'.bounds cols :: bounds cols spans') =
        cover (sp.bounds cols :: bounds cols spans) := by
  cases spans with
  | nil => cases hr
  | cons other spans =>
    obtain ⟨m, hunion, heq⟩ := Option.map_eq_some_iff.mp hr
    obtain ⟨rfl, rfl⟩ := Prod.mk.inj heq
    have hle := h.le _ mem_cons_self
    have hspec := Span.tryUnionWith_spec h.fits h.proper.head hle h.lt
    rw [hunion] at hspec
    obtain ⟨hfits, htouch, hbounds⟩ := hspec
    have hlo : (m.bounds cols).lo = (sp.bounds cols).lo := by rw [hbounds]
    refine ⟨⟨hfits, ?_, h.proper.tail, fun i hi => ?_⟩, hlo, ?_⟩
    · rw [hbounds]
      exact h.lt.trans_le (le_max_left _ _)
    · rw [hlo]
      exact h.le i (mem_cons_of_mem _ hi)
    · rw [hbounds, cover_cons, ← Ico_union_Ico_of_touch hle htouch, Set.union_assoc, bounds_cons,
        cover_cons, cover_cons]

theorem absorbHead_none (h : Merging cols sp spans) (hr : absorbHead cols sp spans = none) :
    ∀ i ∈ bounds cols spans, (sp.bounds cols).hi < i.lo := by
  cases spans with
  | nil => exact fun i hi => nomatch hi
  | cons other spans =>
    have hspec := Span.tryUnionWith_spec h.fits h.proper.head (h.le _ mem_cons_self) h.lt
    rw [Option.map_eq_none_iff.mp hr] at hspec
    exact fun i hi => hspec.trans_le (h.proper.separated.lo_le i hi)

/-- The merged span covers what it has absorbed, and there is space to all others. -/
theorem absorb_spec (hl : Merging cols sp left) (hr : Merging cols sp right) :
    Merging cols (absorb cols sp left right).1 (absorb cols sp left right).2.1 ∧
      Merging cols (absorb cols sp left right).1 (absorb cols sp left right).2.2 ∧
      ((absorb cols sp left right).1.bounds cols).lo = (sp.bounds cols).lo ∧
      (∀ i ∈ bounds cols (absorb cols sp left right).2.1 ++
          bounds cols (absorb cols sp left right).2.2,
        ((absorb cols sp left right).1.bounds cols).hi < i.lo) ∧
      cover ((absorb cols sp left right).1.bounds cols ::
          bounds cols (absorb cols sp left right).2.1) ∪
          cover (bounds cols (absorb cols sp left right).2.2) =
        cover (sp.bounds cols :: bounds cols left) ∪ cover (bounds cols right) := by
  fun_induction absorb cols sp left right with
  | case1 sp left right sp' left' hleft sp'' right' hright ih =>
    obtain ⟨hl', hlo', hcover'⟩ := absorbHead_some hl hleft
    obtain ⟨hr'', hlo'', hcover''⟩ := absorbHead_some (hr.of_lo hl' hlo') hright
    obtain ⟨hml, hmr, hlo, hafter, hcover⟩ := ih (hl'.of_lo hr'' hlo'') hr''
    refine ⟨hml, hmr, hlo.trans (hlo''.trans hlo'), hafter, hcover.trans ?_⟩
    rw [cover_cons, cover_cons] at hcover'' hcover'
    rw [cover_cons, cover_cons, ← hcover', Set.union_right_comm, hcover'', Set.union_right_comm]
  | case2 sp left right sp' left' hleft _ ih =>
    obtain ⟨hl', hlo', hcover'⟩ := absorbHead_some hl hleft
    obtain ⟨hml, hmr, hlo, hafter, hcover⟩ := ih hl' (hr.of_lo hl' hlo')
    exact ⟨hml, hmr, hlo.trans hlo', hafter, hcover.trans (by rw [hcover'])⟩
  | case3 sp left right _ sp' right' hright ih =>
    obtain ⟨hr', hlo', hcover'⟩ := absorbHead_some hr hright
    obtain ⟨hml, hmr, hlo, hafter, hcover⟩ := ih (hl.of_lo hr' hlo') hr'
    refine ⟨hml, hmr, hlo.trans hlo', hafter, hcover.trans ?_⟩
    rw [cover_cons, cover_cons] at hcover'
    rw [cover_cons, cover_cons, Set.union_right_comm, hcover', Set.union_right_comm]
  | case4 sp left right hleft hright =>
    refine ⟨hl, hr, rfl, fun i hi => ?_, rfl⟩
    rcases mem_append.mp hi with hi | hi
    · exact absorbHead_none hl hleft i hi
    · exact absorbHead_none hr hright i hi

theorem Proper.nil : Proper cols ([] : List (Span D)) := ⟨(fun _ h => nomatch h), .nil⟩

theorem Merging.nil (h : Merging cols sp spans) : Merging cols sp [] :=
  ⟨h.fits, h.lt, .nil, fun _ h => nomatch h⟩

theorem Merging.of_head (h : Merging cols sp left) (hspans : Proper cols (sp' :: spans))
    (hle : (sp.bounds cols).lo ≤ (sp'.bounds cols).lo) : Merging cols sp (sp' :: spans) :=
  ⟨h.fits, h.lt, hspans, fun i hi => hle.trans (hspans.separated.lo_le i hi)⟩

theorem first_some (hl : Proper cols left) (hr : Proper cols right)
    {left' right' : List (Span D)} (h : first cols left right = some (sp, left', right')) :
    Merging cols sp left' ∧ Merging cols sp right' ∧
      sp.bounds cols ∈ bounds cols left ++ bounds cols right ∧
      cover (sp.bounds cols :: bounds cols left') ∪ cover (bounds cols right') =
        cover (bounds cols left) ∪ cover (bounds cols right) := by
  unfold first at h
  split at h
  · cases h
  · obtain ⟨rfl, rfl, rfl⟩ := by simpa using h
    exact ⟨hl.merging, hl.merging.nil, by simp, rfl⟩
  · obtain ⟨rfl, rfl, rfl⟩ := by simpa using h
    exact ⟨hr.merging, hr.merging.nil, by simp, Set.union_comm _ _⟩
  next sp₁ left sp₂ right =>
    by_cases hcmp : sp₁.compare cols sp₂ = .gt
    · rw [if_pos hcmp] at h
      obtain ⟨rfl, rfl, rfl⟩ := by simpa using h
      have hle := Span.compare_eq_gt hl.head hr.head hcmp
      exact ⟨hr.merging, hr.merging.of_head hl hle, by simp, Set.union_comm _ _⟩
    · rw [if_neg hcmp] at h
      obtain ⟨rfl, rfl, rfl⟩ := by simpa using h
      have hle := Span.compare_ne_gt hl.head hr.head hcmp
      exact ⟨hl.merging, hl.merging.of_head hr hle, by simp, rfl⟩

theorem first_none (h : first cols left right = none) : left = [] ∧ right = [] := by
  unfold first at h
  split at h
  · exact ⟨rfl, rfl⟩
  · cases h
  · cases h
  · split_ifs at h

theorem Proper.cons (h : Merging cols sp spans) (hlt : ∀ i ∈ bounds cols left,
    (sp.bounds cols).hi < i.lo) (hl : Proper cols left) : Proper cols (sp :: left) :=
  ⟨forall_mem_cons.mpr ⟨h.fits, hl.fits⟩, hl.separated.cons h.lt hlt⟩

theorem union_spec (hl : Proper cols left) (hr : Proper cols right) :
    Proper cols (union cols left right) ∧
      (∀ b, (∀ i ∈ bounds cols left ++ bounds cols right, b < i.lo) →
        ∀ i ∈ bounds cols (union cols left right), b < i.lo) ∧
      cover (bounds cols (union cols left right)) =
        cover (bounds cols left) ∪ cover (bounds cols right) := by
  fun_induction union cols left right with
  | case1 left right hfirst =>
    obtain ⟨rfl, rfl⟩ := first_none hfirst
    exact ⟨.nil, (fun _ _ i hi => nomatch hi), by simp [bounds]⟩
  | case2 left right sp left' right' hfirst r ih =>
    obtain ⟨hml, hmr, hmem, hcover⟩ := first_some hl hr hfirst
    obtain ⟨hml', hmr', hlo, hafter, hcover'⟩ := absorb_spec hml hmr
    obtain ⟨hproper, hbound, hcover''⟩ := ih hml'.proper hmr'.proper
    have hrest := hbound _ hafter
    refine ⟨.cons hml' hrest hproper, fun b hb => ?_, ?_⟩
    · have hlt : b < (r.1.bounds cols).lo := hlo ▸ hb _ hmem
      refine forall_mem_cons.mpr ⟨hlt, fun i hi => ?_⟩
      exact hlt.trans (hml'.lt.trans (hrest i hi))
    · rw [bounds_cons, cover_cons, hcover'', ← Set.union_assoc, ← cover_cons, ← hcover, ← hcover']

/-- The result is the intersection of two lists. -/
structure Meets (cols : List OrderingColumn) (left right result : List (Span D)) : Prop where
  proper : Proper cols result
  after_left : ∀ b, (∀ i ∈ bounds cols left, b < i.lo) → ∀ i ∈ bounds cols result, b < i.lo
  after_right : ∀ b, (∀ i ∈ bounds cols right, b < i.lo) → ∀ i ∈ bounds cols result, b < i.lo
  cover_eq : cover (bounds cols result) = cover (bounds cols left) ∩ cover (bounds cols right)

theorem Meets.cons {m : Span D} {rest : List (Span D)}
    (hspec : m.Fits cols ∧ m.bounds cols = ⟨max (sp.bounds cols).lo (sp'.bounds cols).lo,
      min (sp.bounds cols).hi (sp'.bounds cols).hi⟩ ∧ (m.bounds cols).lo < (m.bounds cols).hi)
    (hrest : Proper cols rest) (hafter : ∀ i ∈ bounds cols rest, (m.bounds cols).hi < i.lo)
    (hcover : cover (bounds cols (sp :: left)) ∩ cover (bounds cols (sp' :: right)) =
      Set.Ico (max (sp.bounds cols).lo (sp'.bounds cols).lo)
        (min (sp.bounds cols).hi (sp'.bounds cols).hi) ∪ cover (bounds cols rest)) :
    Meets cols (sp :: left) (sp' :: right) (m :: rest) := by
  obtain ⟨hfits, hbounds, hlt⟩ := hspec
  have hbound : ∀ b, b < (m.bounds cols).lo → ∀ i ∈ bounds cols (m :: rest), b < i.lo :=
    fun b hb => forall_mem_cons.mpr ⟨hb, fun i hi => hb.trans (hlt.trans (hafter i hi))⟩
  refine ⟨⟨forall_mem_cons.mpr ⟨hfits, hrest.fits⟩, hrest.separated.cons hlt hafter⟩,
    fun b hb => hbound b ?_, fun b hb => hbound b ?_, ?_⟩
  · rw [hbounds]
    exact (hb _ mem_cons_self).trans_le (le_max_left _ _)
  · rw [hbounds]
    exact (hb _ mem_cons_self).trans_le (le_max_right _ _)
  · rw [hcover, bounds_cons, cover_cons, hbounds]

theorem intersect_spec (hl : Proper cols left) (hr : Proper cols right) :
    Meets cols left right (intersect cols left right) := by
  fun_induction intersect cols left right with
  | case1 sp left sp' right hstarts ih =>
    rw [Span.startsAfter_iff hl.head hr.head] at hstarts
    obtain ⟨hproper, hleft, hright, hcover⟩ := ih hl hr.tail
    refine ⟨hproper, hleft, fun b hb => hright b (forall_mem_cons.mp hb).2, hcover.trans ?_⟩
    exact (cover_inter_cons_of_le fun k hk => hstarts.trans (hl.separated.lo_le k hk)).symm
  | case2 sp left sp' right hstarts hnone ih =>
    rw [Span.startsAfter_iff hl.head hr.head, not_le] at hstarts
    have hspec := Span.tryIntersectWith_spec hl.head hr.head hl.separated.head_lt
      hr.separated.head_lt
    rw [hnone] at hspec
    have hbefore := hspec.resolve_right hstarts.not_ge
    obtain ⟨hproper, hleft, hright, hcover⟩ := ih hl.tail hr
    refine ⟨hproper, fun b hb => hleft b (forall_mem_cons.mp hb).2, hright, ?_⟩
    rw [hcover, Set.inter_comm, Set.inter_comm (cover (bounds cols (sp :: left)))]
    exact (cover_inter_cons_of_le fun k hk => hbefore.trans (hr.separated.lo_le k hk)).symm
  | case3 sp left sp' right _ m hsome ih₁ ih₂ ih₃ =>
    have hspec := Span.tryIntersectWith_spec hl.head hr.head hl.separated.head_lt
      hr.separated.head_lt
    have hends := Span.compareEnds_compares hl.head hr.head
    rw [hsome] at hspec
    have hbounds := hspec.2.1
    cases hcmp : sp.compareEnds cols sp' with
    | lt =>
      rw [hcmp] at hends
      have hmeets := ih₁ hl.tail hr
      refine .cons hspec hmeets.proper (hmeets.after_left _ fun i hi => ?_) ?_
      · rw [hbounds]
        exact (min_le_left _ _).trans_lt (hl.separated.hi_lt i hi)
      · rw [hmeets.cover_eq]
        exact cover_cons_inter_cons hr.separated (le_of_lt hends)
    | eq =>
      rw [hcmp] at hends
      have hmeets := ih₂ hl.tail hr.tail
      refine .cons hspec hmeets.proper (hmeets.after_left _ fun i hi => ?_) ?_
      · rw [hbounds]
        exact (min_le_left _ _).trans_lt (hl.separated.hi_lt i hi)
      · have hskip : cover (bounds cols left) ∩ cover (bounds cols (sp' :: right)) =
            cover (bounds cols left) ∩ cover (bounds cols right) :=
          cover_inter_cons_of_le fun k hk => (ge_of_eq hends).trans (hl.separated.hi_lt k hk).le
        rw [hmeets.cover_eq, ← hskip]
        exact cover_cons_inter_cons hr.separated (le_of_eq hends)
    | gt =>
      rw [hcmp] at hends
      have hmeets := ih₃ hl hr.tail
      refine .cons hspec hmeets.proper (hmeets.after_right _ fun i hi => ?_) ?_
      · rw [hbounds]
        exact (min_le_right _ _).trans_lt (hr.separated.hi_lt i hi)
      · rw [hmeets.cover_eq, Set.inter_comm, max_comm, min_comm,
          Set.inter_comm _ (cover (bounds cols right))]
        exact cover_cons_inter_cons hl.separated (le_of_lt hends)
  | case4 left right hnil =>
    have hempty : cover (bounds cols left) ∩ cover (bounds cols right) = ∅ := by
      match left, right, hnil with
      | [], _, _ => simp [bounds]
      | _ :: _, [], _ => simp [bounds]
      | sp :: left, sp' :: right, hnil => exact (hnil sp left sp' right rfl rfl).elim
    exact ⟨.nil, (fun _ _ i hi => nomatch hi), (fun _ _ i hi => nomatch hi),
      by rw [hempty]; exact cover_nil⟩

theorem sortedAndMerged_iff (h : ∀ sp ∈ spans, sp.Fits cols) : sortedAndMerged cols spans = true ↔
      (bounds cols spans).IsChain fun i j => i.hi < j.lo := by
  induction spans with
  | nil => simp [sortedAndMerged, bounds]
  | cons sp spans ih =>
    cases spans with
    | nil => simp [sortedAndMerged, bounds]
    | cons sp' spans =>
      obtain ⟨hsp, htail⟩ := forall_mem_cons.mp h
      rw [sortedAndMerged, Bool.and_eq_true,
        Span.startsStrictlyAfter_iff (htail _ mem_cons_self) hsp, ih htail]
      rw [bounds_cons, bounds_cons, bounds_cons, isChain_cons_cons]

/-- Merging keeps what is covered and leaves space between any two spans. -/
theorem merge_spec (hsp : sp.Fits cols) (h : ∀ sp' ∈ spans, sp'.Fits cols)
    (hsorted : (bounds cols (sp :: spans)).Pairwise fun i j => i.lo ≤ j.lo) :
    (∀ sp' ∈ merge cols sp spans, sp'.Fits cols) ∧
      ((bounds cols (merge cols sp spans)).IsChain fun i j => i.hi < j.lo) ∧
      (∃ m rest, merge cols sp spans = m :: rest ∧ (m.bounds cols).lo = (sp.bounds cols).lo) ∧
      cover (bounds cols (merge cols sp spans)) = cover (bounds cols (sp :: spans)) := by
  induction spans generalizing sp with
  | nil => exact ⟨by simpa [merge] using hsp, isChain_singleton _, ⟨sp, [], rfl, rfl⟩, rfl⟩
  | cons sp' spans ih =>
    obtain ⟨hsp', htail⟩ := forall_mem_cons.mp h
    obtain ⟨hle, hsorted'⟩ := pairwise_cons.mp hsorted
    obtain ⟨-, hsorted''⟩ := pairwise_cons.mp hsorted'
    have hsp_le : (sp.bounds cols).lo ≤ (sp'.bounds cols).lo := hle _ mem_cons_self
    rw [merge]
    by_cases hstrict : sp'.startsStrictlyAfter cols sp = true
    · rw [if_pos hstrict]
      rw [Span.startsStrictlyAfter_iff hsp' hsp] at hstrict
      obtain ⟨hfits, hchain, ⟨m, rest, heq, hlo⟩, hcover⟩ := ih hsp' htail hsorted'
      refine ⟨forall_mem_cons.mpr ⟨hsp, hfits⟩, ?_, ⟨sp, _, rfl, rfl⟩, ?_⟩
      · rw [heq] at hchain ⊢
        exact isChain_cons_cons.mpr ⟨hlo ▸ hstrict, hchain⟩
      · rw [bounds_cons, cover_cons, hcover, bounds_cons sp, cover_cons]
    · rw [if_neg hstrict]
      rw [Span.startsStrictlyAfter_iff hsp' hsp, not_lt] at hstrict
      have hends := Span.compareEnds_compares hsp hsp'
      have hmerge := Ico_union_Ico_of_touch (d := (sp'.bounds cols).hi) hsp_le hstrict
      have hle'' : ∀ j ∈ bounds cols spans, (sp.bounds cols).lo ≤ j.lo :=
        fun j hj => hle j (mem_cons_of_mem _ hj)
      by_cases hend : sp.compareEnds cols sp' = .lt
      · rw [if_pos hend]
        rw [hend] at hends
        have hfits' : (sp.withEnd sp').Fits cols := ⟨hsp.1, hsp'.2⟩
        obtain ⟨hfits, hchain, hhead, hcover⟩ :=
          ih hfits' htail (pairwise_cons.mpr ⟨hle'', hsorted''⟩)
        refine ⟨hfits, hchain, hhead, hcover.trans ?_⟩
        rw [max_eq_right (le_of_lt hends)] at hmerge
        simp only [bounds_cons, cover_cons, ← Set.union_assoc, hmerge]
        rfl
      · rw [if_neg hend]
        obtain ⟨hfits, hchain, hhead, hcover⟩ :=
          ih hsp htail (pairwise_cons.mpr ⟨hle'', hsorted''⟩)
        refine ⟨hfits, hchain, hhead, hcover.trans ?_⟩
        rw [max_eq_left (not_lt.mp (mt hends.eq_lt.mpr hend))] at hmerge
        simp only [bounds_cons, cover_cons, ← Set.union_assoc, hmerge]

theorem bounds_sort (h : ∀ sp ∈ spans, sp.Fits cols) :
    (bounds cols (sort cols spans)).Pairwise fun i j => i.lo ≤ j.lo := by
  have hmap : bounds cols (sort cols spans) = (bounds cols spans).mergeSort
      fun i j => decide (toLex (i.lo, i.hi) ≤ toLex (j.lo, j.hi)) := by
    refine map_mergeSort fun sp hsp sp' hsp' => ?_
    rw [Bool.eq_iff_iff, bne_iff_ne, Ne, (Span.compare_compares (h sp hsp) (h sp' hsp')).eq_gt,
      not_lt, decide_eq_true_eq]
  rw [hmap]
  refine (pairwise_mergeSort (fun i j k hij hjk => ?_) (fun i j => ?_) _).imp fun hij => ?_
  · rw [decide_eq_true_eq] at hij hjk ⊢
    exact hij.trans hjk
  · rw [Bool.or_eq_true, decide_eq_true_eq, decide_eq_true_eq]
    exact le_total _ _
  · exact Prod.Lex.monotone_fst _ _ (of_decide_eq_true hij)

theorem sortAndMerge_spec (h : ∀ sp ∈ spans, sp.Fits cols) :
    (∀ sp ∈ sortAndMerge cols spans, sp.Fits cols) ∧
      sortedAndMerged cols (sortAndMerge cols spans) = true ∧
      cover (bounds cols (sortAndMerge cols spans)) = cover (bounds cols spans) := by
  unfold sortAndMerge
  by_cases hsorted : sortedAndMerged cols spans = true
  · rw [if_pos hsorted]
    exact ⟨h, hsorted, rfl⟩
  · rw [if_neg hsorted]
    have hperm : (sort cols spans).Perm spans := mergeSort_perm _ _
    have hfits : ∀ sp ∈ sort cols spans, sp.Fits cols := fun sp hsp => h sp (hperm.mem_iff.mp hsp)
    have hpairwise := bounds_sort h
    have hcover : cover (bounds cols (sort cols spans)) = cover (bounds cols spans) :=
      cover_perm (hperm.map _)
    cases hsort : sort cols spans with
    | nil =>
      rw [hsort] at hcover
      exact ⟨(fun _ hsp => nomatch hsp), rfl, hcover⟩
    | cons sp spans' =>
      rw [hsort] at hfits hpairwise hcover
      obtain ⟨hsp, htail⟩ := forall_mem_cons.mp hfits
      obtain ⟨hmerged, hchain, -, heq⟩ := merge_spec hsp htail hpairwise
      exact ⟨hmerged, (sortedAndMerged_iff hmerged).mpr hchain, heq.trans hcover⟩

/-- Spans of a constraint: each one has keys of the columns and is not empty, and they are ordered
and do not overlap or touch. -/
structure Ordered (cols : List OrderingColumn) (spans : List (Span D)) : Prop where
  fits : ∀ sp ∈ spans, sp.Fits cols
  nonempty : ∀ sp ∈ spans, sp.start.compare cols sp.stop sp.startExt sp.endExt = .lt
  sortedAndMerged : sortedAndMerged cols spans = true

theorem ordered_iff_proper : Ordered cols spans ↔ Proper cols spans := by
  have hlt : ∀ sp : Span D, sp.Fits cols →
      (sp.start.compare cols sp.stop sp.startExt sp.endExt = .lt ↔
        (sp.bounds cols).lo < (sp.bounds cols).hi) :=
    fun sp hsp => (Key.compare_compares _ _ hsp.1 hsp.2).eq_lt
  constructor
  · intro h
    refine ⟨h.fits, .of_isChain ((sortedAndMerged_iff h.fits).mp h.sortedAndMerged) ?_⟩
    intro i hi
    obtain ⟨sp, hsp, rfl⟩ := mem_map.mp hi
    exact (hlt sp (h.fits sp hsp)).mp (h.nonempty sp hsp)
  · intro h
    refine ⟨h.fits, fun sp hsp => ?_, ?_⟩
    · exact (hlt sp (h.fits sp hsp)).mpr (h.separated.lo_lt_hi _ (mem_map_of_mem hsp))
    · exact (sortedAndMerged_iff h.fits).mpr h.separated.pairwise.isChain

theorem mem_tuples [OrderBot D] (h : ∀ sp ∈ spans, sp.Fits cols) {t : List D} :
    t ∈ tuples cols spans ↔
      t.length = cols.length ∧ tuplePosition cols t ∈ cover (bounds cols spans) := by
  unfold tuples bounds cover
  simp only [Set.mem_ofPred_eq, mem_map, exists_exists_and_eq_and]
  refine and_congr_right fun ht => exists_congr fun sp => and_congr_right fun hsp => ?_
  exact Span.contains_iff (h sp hsp) ht

end Spans

namespace Constraint

def tuples (c : Constraint D) : Set (List D) := Spans.tuples c.columns.toList c.spans

def Ordered (c : Constraint D) : Prop := Spans.Ordered c.columns.toList c.spans

variable [OrderBot D] {a b c : Constraint D}

/-- The constraint starts at the null value of a descending column, where it is not the first value
but the last one. -/
def StartsAtLastNull (c : Constraint D) : Prop :=
  c.columns.firstCol.descending = true ∧ (∃ x : D, x ≠ ⊥) ∧
    ∃ sp, c.spans = [sp] ∧ sp.start = [⊥] ∧ sp.startBoundary = .includeBoundary ∧ sp.stop = []

/-- What the operations on constraints promise. -/
structure SetAlgebra (a b : Constraint D) (spans : List (Span D)) : Prop where
  union : ∃ c, a.unionWith b = some c ∧ c.columns = a.columns ∧ c.Ordered ∧
    c.tuples = a.tuples ∪ b.tuples
  intersect : ∃ c, a.intersectWith b = some c ∧ c.columns = a.columns ∧ c.Ordered ∧
    c.tuples = a.tuples ∩ b.tuples
  sortAndMerge : Spans.sortedAndMerged a.columns.toList
      (Spans.sortAndMerge a.columns.toList spans) = true ∧
    Spans.tuples a.columns.toList (Spans.sortAndMerge a.columns.toList spans) =
      Spans.tuples a.columns.toList spans
  unconstrained : ∀ c ∈ [a, b], c.isUnconstrained = true →
    ∀ t : List D, t.length = c.columns.count → t ∈ c.tuples

theorem isUnconstrained_iff : c.isUnconstrained = true ↔
    ∃ sp, c.spans = [sp] ∧ (sp.start = [] ∨ sp.start = [⊥] ∧
      sp.startBoundary = .includeBoundary) ∧ sp.stop = [] := by
  unfold isUnconstrained
  split
  next sp heq => simp [heq, Span.isUnconstrained]
  next hne =>
    refine iff_of_false Bool.false_ne_true ?_
    rintro ⟨sp, heq, -⟩
    exact hne sp heq

theorem compare_null (col : OrderingColumn) {x : D} (hx : x ≠ ⊥) :
    col.compare x ⊥ = if col.descending then .lt else .gt := by
  have hgt : cmp x ⊥ = .gt := (cmp_compares x ⊥).eq_gt.mpr (bot_lt_iff_ne_bot.mpr hx)
  rw [OrderingColumn.compare, hgt]
  rfl

theorem compare_null_self (col : OrderingColumn) : col.compare (⊥ : D) ⊥ = .eq := by
  rw [OrderingColumn.compare]
  simp

theorem tuples_of_isUnconstrained (hnull : ¬ c.StartsAtLastNull) (h : c.isUnconstrained = true)
    {t : List D} (ht : t.length = c.columns.count) : t ∈ c.tuples := by
  obtain ⟨sp, hspans, hstart, hstop⟩ := isUnconstrained_iff.mp h
  refine ⟨ht.trans c.columns.length_toList.symm, sp, by simp [hspans], ?_,
    .inr ⟨by rw [hstop, Key.comparePrefix_nil], sp.stop_empty hstop⟩⟩
  rcases hstart with hstart | ⟨hstart, hinclude⟩
  · exact .inr ⟨by rw [hstart, Key.comparePrefix_nil], sp.start_empty hstart⟩
  · cases t with
    | nil =>
      rw [length_nil, Columns.count] at ht
      omega
    | cons x t =>
      rw [hstart, Columns.toList, Key.comparePrefix_singleton]
      by_cases hx : x = ⊥
      · rw [hx, compare_null_self]
        exact .inr ⟨rfl, hinclude⟩
      · have hdesc : ¬ c.columns.firstCol.descending = true := fun hdesc =>
          hnull ⟨hdesc, ⟨x, hx⟩, sp, hspans, hstart, hinclude, hstop⟩
        rw [compare_null _ hx, if_neg hdesc]
        exact .inl rfl

theorem exists_notMem_of_startsAtLastNull (h : c.StartsAtLastNull) :
    c.isUnconstrained = true ∧ ∃ t : List D, t.length = c.columns.count ∧ t ∉ c.tuples := by
  obtain ⟨hdesc, ⟨x, hx⟩, sp, hspans, hstart, hinclude, hstop⟩ := h
  refine ⟨isUnconstrained_iff.mpr ⟨sp, hspans, .inr ⟨hstart, hinclude⟩, hstop⟩,
    x :: List.replicate c.columns.otherCols.length ⊥, ?_, ?_⟩
  · rw [length_cons, length_replicate, Columns.count, Nat.add_comm]
  · rintro ⟨-, sp', hsp', hcontains, -⟩
    rw [hspans, mem_singleton] at hsp'
    rw [hsp', hstart, Columns.toList, Key.comparePrefix_singleton, compare_null _ hx,
      if_pos hdesc] at hcontains
    rcases hcontains with hgt | ⟨heq, -⟩
    · cases hgt
    · cases heq

theorem tuples_eq_univ (hnull : ¬ c.StartsAtLastNull) (h : c.isUnconstrained = true) :
    c.tuples = {t | t.length = c.columns.count} := by
  ext t
  refine ⟨fun ht => ht.1.trans c.columns.length_toList, tuples_of_isUnconstrained hnull h⟩

omit [OrderBot D] in
theorem tuples_of_isContradiction (h : c.isContradiction = true) : c.tuples = ∅ := by
  rw [isContradiction, List.isEmpty_iff] at h
  rw [tuples, h, Set.eq_empty_iff_forall_notMem]
  rintro t ⟨-, sp, hsp, -⟩
  cases hsp

omit [OrderBot D] in
theorem tuples_subset (hcols : a.columns = b.columns) :
    b.tuples ⊆ {t | t.length = a.columns.count} := by
  intro t ht
  rw [hcols]
  exact ht.1.trans b.columns.length_toList

section Operations

variable (ha : a.Ordered) (hb : b.Ordered) (hcols : a.columns = b.columns)
include ha hb hcols

theorem unionWith_spec (hnull : ¬ a.StartsAtLastNull) :
    ∃ c, a.unionWith b = some c ∧ c.columns = a.columns ∧ c.Ordered ∧
      c.tuples = a.tuples ∪ b.tuples := by
  rw [unionWith, if_neg (not_not.mpr hcols)]
  by_cases hunc : a.isUnconstrained = true
  · refine ⟨a, by rw [hunc]; rfl, rfl, ha, ?_⟩
    rw [tuples_eq_univ hnull hunc, Set.union_eq_left.mpr (tuples_subset hcols)]
  by_cases hcontr : b.isContradiction = true
  · refine ⟨a, by rw [hcontr, Bool.or_true]; rfl, rfl, ha, ?_⟩
    rw [tuples_of_isContradiction hcontr, Set.union_empty]
  rw [if_neg (by simp [hunc, hcontr])]
  have hpa := Spans.ordered_iff_proper.mp ha
  have hpb := Spans.ordered_iff_proper.mp hb
  rw [← hcols] at hpb
  obtain ⟨hproper, -, hcover⟩ := Spans.union_spec hpa hpb
  refine ⟨_, rfl, rfl, Spans.ordered_iff_proper.mpr hproper, ?_⟩
  ext t
  rw [Set.mem_union, tuples, tuples, tuples, ← hcols, Spans.mem_tuples hproper.fits,
    Spans.mem_tuples hpa.fits, Spans.mem_tuples hpb.fits, hcover, Set.mem_union, and_or_left]

theorem intersectWith_spec (hnull : ¬ b.StartsAtLastNull) :
    ∃ c, a.intersectWith b = some c ∧ c.columns = a.columns ∧ c.Ordered ∧
      c.tuples = a.tuples ∩ b.tuples := by
  rw [intersectWith, if_neg (not_not.mpr hcols)]
  by_cases hcontr : a.isContradiction = true
  · refine ⟨a, by rw [hcontr]; rfl, rfl, ha, ?_⟩
    rw [tuples_of_isContradiction hcontr, Set.empty_inter]
  by_cases hunc : b.isUnconstrained = true
  · refine ⟨a, by rw [hunc, Bool.or_true]; rfl, rfl, ha, ?_⟩
    rw [tuples_eq_univ hnull hunc, Set.inter_eq_left.mpr (tuples_subset hcols.symm)]
  rw [if_neg (by simp [hunc, hcontr])]
  have hpa := Spans.ordered_iff_proper.mp ha
  have hpb := Spans.ordered_iff_proper.mp hb
  rw [← hcols] at hpb
  obtain ⟨hproper, -, -, hcover⟩ := Spans.intersect_spec hpa hpb
  refine ⟨_, rfl, rfl, Spans.ordered_iff_proper.mpr hproper, ?_⟩
  ext t
  rw [Set.mem_inter_iff, tuples, tuples, tuples, ← hcols, Spans.mem_tuples hproper.fits,
    Spans.mem_tuples hpa.fits, Spans.mem_tuples hpb.fits, hcover]
  exact ⟨fun ⟨hlen, hl, hr⟩ => ⟨⟨hlen, hl⟩, hlen, hr⟩, fun ⟨⟨hlen, hl⟩, _, hr⟩ => ⟨hlen, hl, hr⟩⟩

end Operations

/-- The operations on constraints are those on their tuples unless one of the two constraints starts
at the null value of a descending column. -/
theorem setAlgebra_iff (ha : a.Ordered) (hb : b.Ordered) (hcols : a.columns = b.columns)
    {spans : List (Span D)} (hspans : ∀ sp ∈ spans, sp.Fits a.columns.toList) :
    SetAlgebra a b spans ↔ ¬ a.StartsAtLastNull ∧ ¬ b.StartsAtLastNull := by
  constructor
  · intro h
    have hno : ∀ c ∈ [a, b], ¬ c.StartsAtLastNull := by
      intro c hc hnull
      obtain ⟨hunc, t, ht, hnot⟩ := exists_notMem_of_startsAtLastNull hnull
      exact hnot (h.unconstrained c hc hunc t ht)
    exact ⟨hno a (by simp), hno b (by simp)⟩
  · rintro ⟨hna, hnb⟩
    obtain ⟨hfits, hsorted, hcover⟩ := Spans.sortAndMerge_spec hspans
    refine ⟨unionWith_spec ha hb hcols hna, intersectWith_spec ha hb hcols hnb, ⟨hsorted, ?_⟩, ?_⟩
    · ext t
      rw [Spans.mem_tuples hfits, Spans.mem_tuples hspans, hcover]
    · intro c hc hunc t ht
      have hnull : ¬ c.StartsAtLastNull := by
        rcases mem_pair.mp hc with rfl | rfl
        · exact hna
        · exact hnb
      exact tuples_of_isUnconstrained hnull hunc ht

/-- The span of one value, or of all values from one on. -/
def sampleSpan (a : ℕ) (stop : Key ℕ) : Span ℕ :=
  ⟨[a], stop, .includeBoundary, .includeBoundary, fun _ => rfl, fun _ => rfl⟩

/-- Constraints on one column with natural numbers, of which zero is the null value. -/
def sampleConstraint (descending : Bool) (a : ℕ) (stop : Key ℕ) : Constraint ℕ :=
  ⟨⟨⟨1, descending⟩, []⟩, [sampleSpan a stop]⟩

theorem ordered_sampleConstraint (descending : Bool) (a : ℕ) (stop : Key ℕ) (hlen : stop.length ≤ 1)
    (hlt : Key.compare [⟨1, descending⟩] [a] stop .extendLow .extendHigh = .lt) :
    (sampleConstraint descending a stop).Ordered := by
  refine ⟨fun sp hsp => ?_, fun sp hsp => ?_, rfl⟩
  · obtain rfl := mem_singleton.mp hsp
    exact ⟨le_rfl, hlen⟩
  · obtain rfl := mem_singleton.mp hsp
    exact hlt

/-- On an ascending column the constraint from the null value on is none. -/
theorem setAlgebra_sampleConstraint :
    SetAlgebra (sampleConstraint false 0 []) (sampleConstraint false 5 [5])
      [sampleSpan 7 [], sampleSpan 5 [6]] := by
  refine (setAlgebra_iff (ordered_sampleConstraint false 0 [] (by decide) (by decide))
    (ordered_sampleConstraint false 5 [5] (by decide) (by decide)) rfl ?_).mpr
    ⟨fun h => Bool.false_ne_true h.1, fun h => Bool.false_ne_true h.1⟩
  refine forall_mem_cons.mpr ⟨⟨le_rfl, Nat.zero_le _⟩, forall_mem_singleton.mpr ?_⟩
  exact ⟨le_rfl, le_rfl⟩

/-- On a descending column the constraint from the null value on allows only null, but it is taken
for no constraint: its union with the constraint to 5 does not allow 5, and its intersection with it
does. -/
theorem not_setAlgebra_sampleConstraint :
    (sampleConstraint true 0 []).Ordered ∧ (sampleConstraint true 5 [5]).Ordered ∧
      (sampleConstraint true 0 []).unionWith (sampleConstraint true 5 [5]) =
        some (sampleConstraint true 0 []) ∧
      (sampleConstraint true 5 [5]).intersectWith (sampleConstraint true 0 []) =
        some (sampleConstraint true 5 [5]) ∧
      [5] ∈ (sampleConstraint true 5 [5]).tuples ∧ [5] ∉ (sampleConstraint true 0 []).tuples ∧
      ¬ SetAlgebra (sampleConstraint true 0 []) (sampleConstraint true 5 [5]) [] := by
  have hmem : [5] ∈ (sampleConstraint true 5 [5]).tuples :=
    ⟨rfl, _, mem_singleton_self _, .inr ⟨by decide, rfl⟩, .inr ⟨by decide, rfl⟩⟩
  have hnot : [5] ∉ (sampleConstraint true 0 []).tuples := by
    rintro ⟨-, sp, hsp, hstart, -⟩
    obtain rfl := mem_singleton.mp hsp
    revert hstart
    decide
  refine ⟨ordered_sampleConstraint true 0 [] (by decide) (by decide),
    ordered_sampleConstraint true 5 [5] (by decide) (by decide), rfl, rfl, hmem, hnot, fun h => ?_⟩
  obtain ⟨c, hc, -, -, heq⟩ := h.union
  obtain rfl : sampleConstraint true 0 [] = c := Option.some.inj hc
  rw [heq] at hnot
  exact hnot (.inr hmem)

end Constraint

end Cockroach.Opt
