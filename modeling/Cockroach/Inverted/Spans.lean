import Cockroach.Library.ByteOrder
import Cockroach.Library.Intervals

/-! Union, intersection and subtraction of lists of spans of an inverted index. -/
namespace Cockroach.Inverted
open ByteOrder Intervals List

/-- The encoded form of a value in the inverted column. -/
abbrev EncVal := Bytes

/-- A span from an inclusive start to an exclusive end. -/
abbrev Span := Bounds EncVal

/-- The end of the left span with the start of the right one. -/
def cmpExcEndWithIncStart (left right : Span) : Ordering := bytesCompare left.hi right.lo

def cmpEnds (left right : Span) : Ordering := bytesCompare left.hi right.hi

/-- The longer span, if the right one extends the left one. -/
def extendSpanEnd (left right : Span) (cmpExcEndIncStart : Ordering) : Option Span :=
  if cmpExcEndIncStart = .eq ∨ bytesCompare left.hi right.hi = .lt then some ⟨left.lo, right.hi⟩
  else none

/-- Merge spans into the current one, which comes from the left, while any are on the right. -/
def unionLoop (mergeSpan : Span) (left right : List Span) : List Span :=
  match left, right with
  | left, [] => mergeSpan :: left
  | left, r :: right =>
    if cmpExcEndWithIncStart mergeSpan r = .lt then
      mergeSpan :: match left with
        | [] => unionLoop r right []
        | l :: left =>
          if bytesCompare l.lo r.lo = .gt then unionLoop r right (l :: left)
          else unionLoop l left (r :: right)
    else match extendSpanEnd mergeSpan r (cmpExcEndWithIncStart mergeSpan r) with
      -- The right side extended the span, so now it plays the role of the left.
      | some mergeSpan' => unionLoop mergeSpan' right left
      | none => unionLoop mergeSpan left right
termination_by left.length + right.length

def unionSpans (left right : List Span) : List Span :=
  match left, right with
  | [], right => right
  | left, [] => left
  | l :: left, r :: right =>
    if bytesCompare l.lo r.lo = .gt then unionLoop r right (l :: left)
    else unionLoop l left (r :: right)

/-- The overlaps of two lists. What is left of the span that is being intersected comes before the
rest of its list. -/
def intersectLoop (mergeSpan : Option Span) (left right : List Span) : List Span :=
  match mergeSpan, left, right with
  | none, l :: left, r :: right =>
    if bytesCompare l.lo r.lo = .gt then intersectLoop (some r) right (l :: left)
    else intersectLoop (some l) left (r :: right)
  | some m, left, r :: right =>
    if cmpExcEndWithIncStart m r = .gt then
      match cmpEnds m r with
      | .lt => ⟨r.lo, m.hi⟩ :: intersectLoop (some ⟨m.hi, r.hi⟩) right left
      | .eq => ⟨r.lo, m.hi⟩ :: intersectLoop none left right
      | .gt => ⟨r.lo, r.hi⟩ :: intersectLoop (some ⟨r.hi, m.hi⟩) left right
    else intersectLoop none left (r :: right)
  | _, _, _ => []
termination_by 2 * (left.length + right.length) + mergeSpan.elim 0 fun _ => 1

def intersectSpans (left right : List Span) : List Span := intersectLoop none left right

/-- Remove spans that are part of the left ones. Reading past the end of the left list panics. -/
def subtractLoop (mergeSpan : Option Span) (left right : List Span) : Option (List Span) :=
  match mergeSpan, left, right with
  | none, left, [] => some left
  | some m, left, [] => some (m :: left)
  | none, [], _ :: _ => none
  | none, l :: left, r :: right => subtractLoop (some l) left (r :: right)
  | some m, left, r :: right =>
    if cmpExcEndWithIncStart m r = .gt then
      let out := if bytesCompare m.lo r.lo = .lt then [⟨m.lo, r.lo⟩] else []
      if cmpEnds m r = .eq then (subtractLoop none left right).map (out ++ ·)
      else (subtractLoop (some ⟨r.hi, m.hi⟩) left right).map (out ++ ·)
    else (subtractLoop none left (r :: right)).map (m :: ·)
termination_by 2 * (left.length + right.length) + mergeSpan.elim 0 fun _ => 1

def subtractSpans (left right : List Span) : Option (List Span) := subtractLoop none left right

variable {m : Span} {left right : List Span}

/-- The result is the union of a current span with both lists. -/
structure Joins (m : Span) (left right result : List Span) : Prop where
  separated : Separated result
  le : ∀ i ∈ result, m.lo ≤ i.lo
  cover_eq : cover result = Set.Ico m.lo m.hi ∪ (cover left ∪ cover right)

variable {r : Span}

theorem extendSpanEnd_spec (hr : r.lo < r.hi) (hcmp : ¬ cmpExcEndWithIncStart m r = .lt) :
    r.lo ≤ m.hi ∧ extendSpanEnd m r (cmpExcEndWithIncStart m r) =
      if m.hi < r.hi then some ⟨m.lo, r.hi⟩ else none := by
  rw [cmpExcEndWithIncStart, bytesCompare_lt_iff] at hcmp
  refine ⟨hcmp, ?_⟩
  unfold extendSpanEnd cmpExcEndWithIncStart
  congr 1
  rw [bytesCompare_eq_iff, bytesCompare_lt_iff, eq_iff_iff]
  refine ⟨fun h => ?_, .inr⟩
  rcases h with heq | hlt
  · rw [heq]
    exact hr
  · exact hlt

variable {left' right' result : List Span}

theorem Joins.cons {m' : Span} (h : Joins m' left' right' result) (hm : m.lo < m.hi)
    (hlt : m.hi < m'.lo)
    (hcover : cover left ∪ cover right = Set.Ico m'.lo m'.hi ∪ (cover left' ∪ cover right')) :
    Joins m left right (m :: result) := by
  have hafter : ∀ i ∈ result, m.hi < i.lo := fun i hi => hlt.trans_le (h.le i hi)
  refine ⟨h.separated.cons hm hafter, forall_mem_cons.mpr ⟨le_rfl, fun i hi => ?_⟩, ?_⟩
  · exact (hm.trans (hafter i hi)).le
  · rw [cover_cons, h.cover_eq, hcover]

theorem unionLoop_joins (hm : m.lo < m.hi) (hleft : Separated left) (hright : Separated right)
    (hafter : ∀ i ∈ left, m.hi < i.lo) (hle : ∀ i ∈ right, m.lo ≤ i.lo) :
    Joins m left right (unionLoop m left right) := by
  fun_induction unionLoop m left right with
  | case1 m left =>
    refine ⟨hleft.cons hm hafter, forall_mem_cons.mpr ⟨le_rfl, fun i hi => ?_⟩, by simp⟩
    exact (hm.trans (hafter i hi)).le
  | case2 m left r right hcmp ih =>
    rw [cmpExcEndWithIncStart, bytesCompare_lt_iff] at hcmp
    cases left with
    | nil =>
      have hjoins := ih hright.head_lt hright.tail .nil hright.hi_lt fun i hi => nomatch hi
      refine hjoins.cons hm hcmp ?_
      rw [cover_cons, cover_nil, Set.empty_union, Set.union_empty]
    | cons l left =>
      have hl := hafter l mem_cons_self
      dsimp only
      by_cases hgt : bytesCompare l.lo r.lo = .gt
      · rw [if_pos hgt]
        rw [bytesCompare_gt_iff] at hgt
        have hjoins := ih.1 hright.head_lt hright.tail hleft hright.hi_lt
          fun i hi => hgt.le.trans (hleft.lo_le i hi)
        refine hjoins.cons hm hcmp ?_
        rw [Set.union_comm, cover_cons r, Set.union_assoc]
      · rw [if_neg hgt]
        rw [bytesCompare_gt_iff, not_lt] at hgt
        have hjoins := ih.2 hleft.head_lt hleft.tail hright hleft.hi_lt
          fun i hi => hgt.trans (hright.lo_le i hi)
        refine hjoins.cons hm hl ?_
        rw [cover_cons l, Set.union_assoc]
  | case3 m left r right hcmp m' hext ih =>
    obtain ⟨htouch, heq⟩ := extendSpanEnd_spec hright.head_lt hcmp
    rw [heq] at hext
    split_ifs at hext with hlt
    obtain rfl := Option.some.inj hext
    have hr := hle r mem_cons_self
    obtain ⟨hsep, hle', hcover⟩ := ih (hm.trans hlt) hright.tail hleft hright.hi_lt
      fun i hi => (hm.trans (hafter i hi)).le
    refine ⟨hsep, hle', hcover.trans ?_⟩
    have hmerge := Ico_union_Ico_of_touch (d := r.hi) hr htouch
    rw [max_eq_right hlt.le] at hmerge
    rw [← hmerge, cover_cons, Set.union_comm (cover right), Set.union_assoc,
      Set.union_left_comm (Set.Ico r.lo r.hi)]
  | case4 m left r right hcmp hext ih =>
    obtain ⟨htouch, heq⟩ := extendSpanEnd_spec hright.head_lt hcmp
    rw [heq] at hext
    split_ifs at hext with hlt
    have hr := hle r mem_cons_self
    obtain ⟨hsep, hle', hcover⟩ := ih hm hleft hright.tail hafter
      fun i hi => hle i (mem_cons_of_mem _ hi)
    refine ⟨hsep, hle', hcover.trans ?_⟩
    have hmerge := Ico_union_Ico_of_touch (d := r.hi) hr htouch
    rw [max_eq_left (not_lt.mp hlt)] at hmerge
    nth_rewrite 1 [← hmerge]
    rw [cover_cons, Set.union_assoc, Set.union_left_comm (Set.Ico r.lo r.hi)]

theorem unionSpans_spec (hleft : Separated left) (hright : Separated right) :
    Separated (unionSpans left right) ∧
      cover (unionSpans left right) = cover left ∪ cover right := by
  unfold unionSpans
  split
  · exact ⟨hright, by rw [cover_nil, Set.empty_union]⟩
  · exact ⟨hleft, by rw [cover_nil, Set.union_empty]⟩
  next l left r right =>
    by_cases hgt : bytesCompare l.lo r.lo = .gt
    · rw [if_pos hgt]
      rw [bytesCompare_gt_iff] at hgt
      obtain ⟨hsep, -, hcover⟩ := unionLoop_joins hright.head_lt hright.tail hleft hright.hi_lt
        fun i hi => hgt.le.trans (hleft.lo_le i hi)
      refine ⟨hsep, hcover.trans ?_⟩
      rw [← Set.union_assoc, Set.union_comm, cover_cons r]
    · rw [if_neg hgt]
      rw [bytesCompare_gt_iff, not_lt] at hgt
      obtain ⟨hsep, -, hcover⟩ := unionLoop_joins hleft.head_lt hleft.tail hright hleft.hi_lt
        fun i hi => hgt.trans (hright.lo_le i hi)
      refine ⟨hsep, hcover.trans ?_⟩
      rw [cover_cons l, Set.union_assoc]

/-- The result is the intersection of two lists and starts no earlier than the right one. -/
structure Meets (left right result : List Span) : Prop where
  separated : Separated result
  after : ∀ b, (∀ i ∈ right, b < i.lo) → ∀ i ∈ result, b < i.lo
  cover_eq : cover result = cover left ∩ cover right

theorem Meets.cons {i : Span} (h : Meets left' right' result) (hi : i.lo < i.hi)
    (hafter : ∀ j ∈ right', i.hi < j.lo) (hlo : i.lo = r.lo)
    (hcover : cover left ∩ cover (r :: right) = Set.Ico i.lo i.hi ∪ cover left' ∩ cover right') :
    Meets left (r :: right) (i :: result) := by
  have hresult := h.after i.hi hafter
  refine ⟨h.separated.cons hi hresult, fun b hb => ?_, ?_⟩
  · have hlt : b < i.lo := hlo ▸ hb r mem_cons_self
    exact forall_mem_cons.mpr ⟨hlt, fun j hj => hlt.trans (hi.trans (hresult j hj))⟩
  · rw [cover_cons, h.cover_eq, hcover]

theorem Meets.swap {l : Span} (h : Meets (r :: right) (l :: left) result)
    (hleft : Separated (l :: left)) (hlt : r.lo < l.lo) :
    Meets (l :: left) (r :: right) result := by
  refine ⟨h.separated, fun b hb => h.after b fun i hi => ?_, h.cover_eq.trans (Set.inter_comm _ _)⟩
  exact ((hb r mem_cons_self).trans hlt).trans_le (hleft.lo_le i hi)

/-- The current span comes before the rest of its list. -/
theorem intersectLoop_meets {mergeSpan : Option Span}
    (hleft : Separated (mergeSpan.toList ++ left)) (hright : Separated right)
    (hle : ∀ m ∈ mergeSpan, ∀ i ∈ right, m.lo ≤ i.lo) :
    Meets (mergeSpan.toList ++ left) right (intersectLoop mergeSpan left right) := by
  fun_induction intersectLoop mergeSpan left right with
  | case1 l left r right hgt ih =>
    rw [bytesCompare_gt_iff] at hgt
    refine (ih hright hleft ?_).swap hleft hgt
    rintro _ ⟨⟩ i hi
    exact hgt.le.trans (hleft.lo_le i hi)
  | case2 l left r right hgt ih =>
    rw [bytesCompare_gt_iff, not_lt] at hgt
    refine ih hleft hright ?_
    rintro _ ⟨⟩ i hi
    exact hgt.trans (hright.lo_le i hi)
  | case3 m left r right hcmp hends ih =>
    rw [cmpExcEndWithIncStart, bytesCompare_gt_iff] at hcmp
    rw [cmpEnds, bytesCompare_lt_iff] at hends
    have hmr := hle m rfl r mem_cons_self
    have hmeets := ih (hright.tail.cons hends hright.hi_lt) hleft.tail (by
      rintro _ ⟨⟩ i hi
      exact (hleft.hi_lt i hi).le)
    refine hmeets.cons hcmp hleft.hi_lt rfl ?_
    refine (cover_cons_inter_cons hright hends.le).trans ?_
    rw [max_eq_right hmr, min_eq_left hends.le, Set.inter_comm (cover (_ ++ right))]
    exact congrArg _ (cover_inter_cons_shrink (fun k hk => (hleft.hi_lt k hk).le) hcmp.le)
  | case4 m left r right hcmp hends ih =>
    rw [cmpExcEndWithIncStart, bytesCompare_gt_iff] at hcmp
    rw [cmpEnds, bytesCompare_eq_iff] at hends
    have hmr := hle m rfl r mem_cons_self
    have hmeets := ih hleft.tail hright.tail fun _ h => nomatch h
    refine hmeets.cons hcmp (fun j hj => hends ▸ hright.hi_lt j hj) rfl ?_
    refine (cover_cons_inter_cons hright hends.le).trans ?_
    rw [max_eq_right hmr, min_eq_left hends.le]
    exact congrArg _ (cover_inter_cons_of_le fun k hk => hends ▸ (hleft.hi_lt k hk).le)
  | case5 m left r right _ hends ih =>
    rw [cmpEnds, bytesCompare_gt_iff] at hends
    have hmr := hle m rfl r mem_cons_self
    have hmeets := ih (hleft.tail.cons hends hleft.hi_lt) hright.tail (by
      rintro _ ⟨⟩ i hi
      exact (hright.hi_lt i hi).le)
    refine hmeets.cons hright.head_lt hright.hi_lt rfl ?_
    rw [Set.inter_comm]
    refine (cover_cons_inter_cons hleft hends.le).trans ?_
    rw [max_eq_left hmr, min_eq_left hends.le, Set.inter_comm _ (cover right)]
    exact congrArg _ (cover_inter_cons_shrink (fun k hk => (hright.hi_lt k hk).le)
      (hmr.trans hright.head_lt.le))
  | case6 m left r right hcmp ih =>
    rw [cmpExcEndWithIncStart, bytesCompare_gt_iff, not_lt] at hcmp
    obtain ⟨hsep, hafter, hcover⟩ := ih hleft.tail hright fun _ h => nomatch h
    refine ⟨hsep, hafter, hcover.trans ?_⟩
    rw [Set.inter_comm, Set.inter_comm (cover (Option.toList (some m) ++ left))]
    exact (cover_inter_cons_of_le fun k hk => hcmp.trans (hright.lo_le k hk)).symm
  | case7 mergeSpan left right hsome hnone =>
    have hempty : cover (mergeSpan.toList ++ left) ∩ cover right = ∅ := by
      match mergeSpan, left, right, hsome, hnone with
      | none, [], _, _, _ => simp
      | none, _ :: _, [], _, _ => simp
      | some _, _, [], _, _ => simp
      | none, l :: left, r :: right, _, hnone => exact (hnone l left r right rfl rfl rfl).elim
      | some m, left, r :: right, hsome, _ => exact (hsome m r right rfl rfl).elim
    exact ⟨.nil, (fun _ _ i hi => nomatch hi), by rw [hempty, cover_nil]⟩

theorem intersectSpans_spec (hleft : Separated left) (hright : Separated right) :
    Separated (intersectSpans left right) ∧
      cover (intersectSpans left right) = cover left ∩ cover right := by
  obtain ⟨hsep, -, hcover⟩ := @intersectLoop_meets left right none hleft hright fun _ h => nomatch h
  exact ⟨hsep, hcover⟩

theorem inside_head (hleft : Separated (m :: left)) (hright : Separated (r :: right))
    (hsub : cover (r :: right) ⊆ cover (m :: left)) (hlt : r.lo < m.hi) :
    m.lo ≤ r.lo ∧ r.hi ≤ m.hi := by
  have hsub' : Set.Ico r.lo r.hi ⊆ Set.Ico m.lo m.hi ∪ cover left := by
    rw [← cover_cons]
    exact (Set.subset_union_left.trans (cover_cons r right).ge).trans hsub
  have hafter : ∀ x, x ≤ m.hi → x ∉ cover left := by
    rintro x hx ⟨i, hi, hmem⟩
    exact (hleft.hi_lt i hi).not_ge (hmem.1.trans hx)
  constructor
  · rcases hsub' ⟨le_rfl, hright.head_lt⟩ with hmem | hmem
    · exact hmem.1
    · exact absurd hmem (hafter _ hlt.le)
  · by_contra hge
    rcases hsub' ⟨hlt.le, not_le.mp hge⟩ with hmem | hmem
    · exact hmem.2.false
    · exact hafter _ le_rfl hmem

/-- The result is the left list without the right one and starts no earlier. -/
def Subtracts (left right : List Span) (result : Option (List Span)) : Prop :=
  ∃ out, result = some out ∧ Separated out ∧
    (∀ b, (∀ i ∈ left, b < i.lo) → ∀ i ∈ out, b < i.lo) ∧ cover out = cover left \ cover right

theorem Subtracts.before {result : Option (List Span)} (h : Subtracts left' right' result)
    (hmr : m.lo ≤ r.lo) (hafter : ∀ i ∈ left', r.lo < i.lo)
    (hcover : cover (m :: left) \ cover (r :: right) =
      Set.Ico m.lo r.lo ∪ cover left' \ cover right') : Subtracts (m :: left) (r :: right)
      (result.map ((if bytesCompare m.lo r.lo = .lt then [⟨m.lo, r.lo⟩] else []) ++ ·)) := by
  obtain ⟨out, rfl, hsep, hout, hcover'⟩ := h
  have hlt := hout r.lo hafter
  refine ⟨_, rfl, ?_⟩
  by_cases hcmp : bytesCompare m.lo r.lo = .lt
  · rw [if_pos hcmp]
    rw [bytesCompare_lt_iff] at hcmp
    refine ⟨hsep.cons hcmp hlt, fun b hb => ?_, ?_⟩
    · have hb' := hb m mem_cons_self
      exact forall_mem_cons.mpr ⟨hb', fun i hi => (hb'.trans hcmp).trans (hlt i hi)⟩
    · change cover (⟨m.lo, r.lo⟩ :: out) = _
      rw [cover_cons, hcover', hcover]
  · rw [if_neg hcmp]
    rw [bytesCompare_lt_iff] at hcmp
    refine ⟨hsep, fun b hb i hi => ?_, ?_⟩
    · exact ((hb m mem_cons_self).trans_le hmr).trans (hlt i hi)
    · change cover out = _
      rw [hcover', hcover, le_antisymm hmr hcmp, Set.Ico_self, Set.empty_union]

theorem subtractLoop_subtracts {mergeSpan : Option Span}
    (hleft : Separated (mergeSpan.toList ++ left)) (hright : Separated right)
    (hsub : cover right ⊆ cover (mergeSpan.toList ++ left)) :
    Subtracts (mergeSpan.toList ++ left) right (subtractLoop mergeSpan left right) := by
  fun_induction subtractLoop mergeSpan left right with
  | case1 left => exact ⟨left, rfl, hleft, fun _ hb => hb, by simp⟩
  | case2 m left => exact ⟨m :: left, rfl, hleft, fun _ hb => hb, by simp⟩
  | case3 r right =>
    have hmem : r.lo ∈ cover (r :: right) := ⟨r, mem_cons_self, le_rfl, hright.head_lt⟩
    exact absurd (hsub hmem) (by simp)
  | case4 l left r right ih => exact ih hleft hright hsub
  | case5 m left r right hcmp out hends ih =>
    rw [cmpExcEndWithIncStart, bytesCompare_gt_iff] at hcmp
    rw [cmpEnds, bytesCompare_eq_iff] at hends
    obtain ⟨hlo, hhi⟩ := inside_head hleft hright hsub hcmp
    -- Nothing is left of the current span.
    have hnone : cover (⟨r.hi, m.hi⟩ :: left) = cover left := by
      rw [cover_cons, hends, Set.Ico_self, Set.empty_union]
    refine (ih hleft.tail hright.tail ?_).before hlo (fun i hi => hcmp.trans (hleft.hi_lt i hi)) ?_
    · exact (cover_subset_of_cons hright hsub).trans hnone.le
    · refine (cover_cons_diff_cons hleft.hi_lt hright hlo hhi).trans ?_
      exact congrArg (fun c => Set.Ico m.lo r.lo ∪ c \ cover right) hnone
  | case6 m left r right hcmp out hends ih =>
    rw [cmpExcEndWithIncStart, bytesCompare_gt_iff] at hcmp
    obtain ⟨hlo, hhi⟩ := inside_head hleft hright hsub hcmp
    have hlt : r.hi < m.hi := lt_of_le_of_ne hhi fun heq => hends (bytesCompare_eq_iff.mpr heq.symm)
    refine (ih (hleft.tail.cons hlt hleft.hi_lt) hright.tail
      (cover_subset_of_cons hright hsub)).before hlo ?_ ?_
    · refine forall_mem_cons.mpr ⟨hright.head_lt, fun i hi => ?_⟩
      exact hcmp.trans (hleft.hi_lt i hi)
    · exact cover_cons_diff_cons hleft.hi_lt hright hlo hhi
  | case7 m left r right hcmp ih =>
    rw [cmpExcEndWithIncStart, bytesCompare_gt_iff, not_lt] at hcmp
    have hdisjoint : Disjoint (Set.Ico m.lo m.hi) (cover (r :: right)) :=
      disjoint_Ico_cover fun k hk => hcmp.trans (hright.lo_le k hk)
    have hsub' : cover (r :: right) ⊆ cover left :=
      hdisjoint.symm.subset_right_of_subset_union (hsub.trans (cover_cons m left).le)
    obtain ⟨out, heq, hsep, hafter, hcover⟩ := ih hleft.tail hright hsub'
    have hlt := hafter m.hi hleft.hi_lt
    refine ⟨m :: out, by rw [heq]; rfl, hsep.cons hleft.head_lt hlt, fun b hb => ?_, ?_⟩
    · have hb' := hb m mem_cons_self
      refine forall_mem_cons.mpr ⟨hb', fun i hi => ?_⟩
      exact (hb'.trans hleft.head_lt).trans (hlt i hi)
    · change _ = cover (m :: left) \ _
      rw [cover_cons, cover_cons m, hcover, Set.union_sdiff_distrib, hdisjoint.sdiff_eq_left]
      rfl

theorem subtractSpans_spec (hleft : Separated left) (hright : Separated right)
    (hsub : cover right ⊆ cover left) : ∃ out, subtractSpans left right = some out ∧ Separated out ∧
      cover out = cover left \ cover right := by
  obtain ⟨out, heq, hsep, -, hcover⟩ := @subtractLoop_subtracts left right none hleft hright hsub
  exact ⟨out, heq, hsep, hcover⟩

end Cockroach.Inverted
