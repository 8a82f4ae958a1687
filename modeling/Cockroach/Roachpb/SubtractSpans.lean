import Cockroach.Roachpb.MergeSpans

/-! The subtraction of spans, and what the merge and the subtraction of spans give. -/
namespace Cockroach.Roachpb
open ByteOrder List

def Span.startsNoLater (a b : Span) : Bool := bytesCompare a.key b.key ≠ .gt

/-- The span goes into the last one that remains if it starts where that ends. -/
def appendRemaining (remaining : List Span) (s : Span) : List Span :=
  match remaining.getLast? with
  | some last =>
    if last.endKey = s.key then remaining.dropLast ++ [{ last with endKey := s.endKey }]
    else remaining ++ [s]
  | none => [s]

/-- Of a span that overlaps the next done one, the part before that remains. -/
def keepBefore (remaining : List Span) (t d : Span) : List Span :=
  if bytesCompare d.key t.key ≠ .gt then remaining else appendRemaining remaining ⟨t.key, d.key⟩

/-- The loop over the sorted spans; every round takes away a span of one of the lists. -/
def subtractLoop (remaining : List Span) (todo done : List Span) : List Span :=
  match todo, done with
  | [], _ => remaining
  | t :: todo, [] => remaining ++ t :: todo
  | t :: todo, d :: done =>
    if t.key = t.endKey then subtractLoop remaining todo (d :: done)
    else if bytesCompare d.key t.endKey ≠ .lt then
      subtractLoop (appendRemaining remaining t) todo (d :: done)
    else if bytesCompare d.endKey t.key ≠ .gt then subtractLoop remaining (t :: todo) done
    else
      match bytesCompare d.endKey t.endKey with
      | .lt =>
        subtractLoop (keepBefore remaining t d) ({ t with key := d.endKey } :: todo) done
      | .gt => subtractLoop (keepBefore remaining t d) todo (d :: done)
      | .eq => subtractLoop (keepBefore remaining t d) todo done
termination_by todo.length + done.length

def subtractSpans (todo done : List Span) : List Span :=
  if done = [] then todo
  else subtractLoop [] (todo.mergeSort Span.startsNoLater) (done.mergeSort Span.startsNoLater)

namespace Span

def Covers (s : Span) (k : Bytes) : Prop := s.key ≤ k ∧ k < s.endKey

/-- Ranges that are not empty, each one behind the ones before it. -/
structure Ordered (spans : List Span) : Prop where
  lt : ∀ s ∈ spans, s.key < s.endKey
  pairwise : spans.Pairwise fun a b => a.endKey ≤ b.key

def CoveredBy (spans : List Span) (k : Bytes) : Prop := ∃ s ∈ spans, s.Covers k

variable {s : Span} {l m : List Span} {k : Bytes}

@[simp] theorem coveredBy_nil : ¬ CoveredBy [] k := by
  simp [CoveredBy]

@[simp] theorem coveredBy_cons : CoveredBy (s :: l) k ↔ s.Covers k ∨ CoveredBy l k := by
  simp [CoveredBy]

@[simp] theorem coveredBy_append : CoveredBy (l ++ m) k ↔ CoveredBy l k ∨ CoveredBy m k := by
  simp [CoveredBy, or_and_right, exists_or]

theorem Ordered.nil : Ordered [] := ⟨by simp, .nil⟩

theorem Ordered.tail (h : Ordered (s :: l)) : Ordered l :=
  ⟨fun t ht => h.lt t (mem_cons_of_mem _ ht), (pairwise_cons.mp h.pairwise).2⟩

theorem Ordered.head (h : Ordered (s :: l)) : s.key < s.endKey := h.lt s mem_cons_self

theorem Ordered.head_le (h : Ordered (s :: l)) : ∀ t ∈ l, s.endKey ≤ t.key :=
  (pairwise_cons.mp h.pairwise).1

theorem Ordered.cons (hs : s.key < s.endKey) (hl : ∀ t ∈ l, s.endKey ≤ t.key) (h : Ordered l) :
    Ordered (s :: l) := by
  refine ⟨fun t ht => ?_, .cons hl h.pairwise⟩
  rcases mem_cons.mp ht with rfl | ht
  · exact hs
  · exact h.lt t ht

theorem Ordered.append (hl : Ordered l) (hm : Ordered m)
    (h : ∀ a ∈ l, ∀ b ∈ m, a.endKey ≤ b.key) : Ordered (l ++ m) := by
  refine ⟨fun t ht => ?_, pairwise_append.mpr ⟨hl.pairwise, hm.pairwise, h⟩⟩
  rcases mem_append.mp ht with ht | ht
  · exact hl.lt t ht
  · exact hm.lt t ht

theorem lt_of_coveredBy {b : Bytes} (h : ∀ t ∈ l, b ≤ t.key) (hk : CoveredBy l k) : b ≤ k := by
  obtain ⟨t, ht, hcovers⟩ := hk
  exact (h t ht).trans hcovers.1

end Span

open Roachpb.Span

section

variable {remaining todo done : List Span} {s t d : Span}

/-- A span behind those that remain is added to them. -/
theorem appendRemaining_spec (hr : Ordered remaining) (hs : s.key < s.endKey)
    (hle : ∀ r ∈ remaining, r.endKey ≤ s.key) : Ordered (appendRemaining remaining s) ∧
      (∀ r ∈ appendRemaining remaining s, r.endKey ≤ s.endKey) ∧
      ∀ k, CoveredBy (appendRemaining remaining s) k ↔ CoveredBy remaining k ∨ s.Covers k := by
  have hsingle : Ordered [s] := .cons hs (by simp) .nil
  have hplain : Ordered (remaining ++ [s]) ∧ (∀ r ∈ remaining ++ [s], r.endKey ≤ s.endKey) ∧
      ∀ k, CoveredBy (remaining ++ [s]) k ↔ CoveredBy remaining k ∨ s.Covers k := by
    refine ⟨hr.append hsingle (by simpa using hle), ?_, by simp⟩
    intro r hr'
    rcases mem_append.mp hr' with hr' | hr'
    · exact (hle r hr').trans hs.le
    · exact (mem_singleton.mp hr' ▸ le_rfl)
  unfold appendRemaining
  rcases eq_nil_or_concat remaining with rfl | ⟨init, last, rfl⟩
  · exact hplain
  rw [concat_eq_append] at *
  simp only [getLast?_append, getLast?_singleton, Option.some_or]
  split_ifs with hend
  · rw [dropLast_concat]
    obtain ⟨hinit, -, hbefore⟩ := pairwise_append.mp hr.pairwise
    have hinit' : Ordered init := ⟨fun t ht => hr.lt t (mem_append_left _ ht), hinit⟩
    have hlast' := hr.lt last (by simp)
    have hlt : last.key < s.endKey := by
      rw [hend] at hlast'
      exact hlast'.trans hs
    refine ⟨hinit'.append (.cons hlt (by simp) .nil) (by simpa using hbefore), ?_, ?_⟩
    · intro r hr'
      rcases mem_append.mp hr' with hr' | hr'
      · exact (hle r (mem_append_left _ hr')).trans hs.le
      · rw [mem_singleton.mp hr']
    · intro k
      simp only [coveredBy_append, coveredBy_cons, coveredBy_nil, or_false, or_assoc]
      refine or_congr_right ?_
      unfold Span.Covers
      rw [← hend]
      constructor
      · intro hk
        rcases lt_or_ge k last.endKey with hlt' | hge
        · exact .inl ⟨hk.1, hlt'⟩
        · exact .inr ⟨hge, hk.2⟩
      · rintro (hk | hk)
        · exact ⟨hk.1, hk.2.trans (hend ▸ hs)⟩
        · exact ⟨hlast'.le.trans hk.1, hk.2⟩
  · exact hplain

theorem keepBefore_spec (hr : Ordered remaining) (hle : ∀ r ∈ remaining, r.endKey ≤ t.key) :
    Ordered (keepBefore remaining t d) ∧
      (∀ r ∈ keepBefore remaining t d, r.endKey ≤ max t.key d.key) ∧
      ∀ k, CoveredBy (keepBefore remaining t d) k ↔
        CoveredBy remaining k ∨ t.key ≤ k ∧ k < d.key := by
  unfold keepBefore
  split_ifs with hcmp
  · rw [bytesCompare_ne_gt_iff] at hcmp
    refine ⟨hr, fun r hr' => (hle r hr').trans (le_max_left _ _), fun k => ?_⟩
    refine (or_iff_left ?_).symm
    rintro ⟨hge, hlt⟩
    exact absurd hlt (hcmp.trans hge).not_gt
  · rw [bytesCompare_ne_gt_iff, not_le] at hcmp
    obtain ⟨hordered, hends, hcovers⟩ := appendRemaining_spec (s := ⟨t.key, d.key⟩) hr hcmp hle
    exact ⟨hordered, fun r hr' => (hends r hr').trans (le_max_right _ _), hcovers⟩

/-- The loop keeps what remains and adds what is to do and not done. -/
theorem subtractLoop_spec (hr : Ordered remaining) (ht : Ordered todo) (hd : Ordered done)
    (hle : ∀ r ∈ remaining, ∀ t ∈ todo, r.endKey ≤ t.key) :
    Ordered (subtractLoop remaining todo done) ∧
      ∀ k, CoveredBy (subtractLoop remaining todo done) k ↔
        CoveredBy remaining k ∨ CoveredBy todo k ∧ ¬ CoveredBy done k := by
  fun_induction subtractLoop remaining todo done with
  | case1 => exact ⟨hr, by simp⟩
  | case2 remaining t todo => exact ⟨hr.append ht hle, by simp⟩
  | case3 remaining t todo d done heq _ => exact absurd heq ht.head.ne
  | case4 remaining t todo d done _ hcmp ih =>
    -- The next done span starts behind the span.
    rw [bytesCompare_ne_lt_iff] at hcmp
    obtain ⟨hordered, hends, hcovers⟩ :=
      appendRemaining_spec hr ht.head fun r hr' => hle r hr' t mem_cons_self
    obtain ⟨hordered', hcovers'⟩ := ih hordered ht.tail hd
      fun r hr' t' ht' => (hends r hr').trans (ht.head_le t' ht')
    refine ⟨hordered', fun k => ?_⟩
    rw [hcovers', hcovers, coveredBy_cons (s := t), or_assoc, or_and_right]
    refine or_congr_right (or_congr_left (and_iff_left_of_imp fun hk hdone => ?_).symm)
    have hdk : d.key ≤ k := by
      refine lt_of_coveredBy (fun d' hd' => ?_) hdone
      rcases mem_cons.mp hd' with rfl | hd'
      · exact le_rfl
      · exact hd.head.le.trans (hd.head_le d' hd')
    exact absurd hk.2 (hcmp.trans hdk).not_gt
  | case5 remaining t todo d done hne hcmp hcmp' ih =>
    -- The next done span ends before all that is left to do.
    rw [bytesCompare_ne_gt_iff] at hcmp'
    obtain ⟨hordered', hcovers'⟩ := ih hr ht hd.tail hle
    refine ⟨hordered', fun k => ?_⟩
    rw [hcovers', coveredBy_cons (s := d), not_or]
    refine or_congr_right (and_congr_right fun hk => (and_iff_right fun hdk => ?_).symm)
    have htk : t.key ≤ k := by
      refine lt_of_coveredBy (fun t' ht' => ?_) hk
      rcases mem_cons.mp ht' with rfl | ht'
      · exact le_rfl
      · exact ht.head.le.trans (ht.head_le t' ht')
    exact absurd hdk.2 (hcmp'.trans htk).not_gt
  | case6 remaining t todo d done _ _ hcmp' hend ih =>
    rw [bytesCompare_ne_gt_iff, not_le] at hcmp'
    rw [bytesCompare_lt_iff] at hend
    obtain ⟨hordered, hends, hcovers⟩ := keepBefore_spec (d := d) hr (hle · · t mem_cons_self)
    have hmax : max t.key d.key ≤ d.endKey := max_le hcmp'.le hd.head.le
    obtain ⟨hordered', hcovers'⟩ := ih hordered (.cons hend ht.head_le ht.tail) hd.tail (by
      intro r hr' t' ht'
      refine ((hends r hr').trans hmax).trans ?_
      rcases mem_cons.mp ht' with rfl | ht'
      · exact le_rfl
      · exact hend.le.trans (ht.head_le t' ht'))
    refine ⟨hordered', fun k => ?_⟩
    have htodo : CoveredBy todo k → t.endKey ≤ k := lt_of_coveredBy ht.head_le
    have hdone : CoveredBy done k → d.endKey ≤ k := lt_of_coveredBy hd.head_le
    rw [hcovers', coveredBy_cons, coveredBy_cons, coveredBy_cons]
    unfold Span.Covers
    grind
  | case7 remaining t todo d done _ hcmp hcmp' hend ih =>
    rw [not_not, bytesCompare_lt_iff] at hcmp
    rw [bytesCompare_gt_iff] at hend
    obtain ⟨hordered, hends, hcovers⟩ := keepBefore_spec (d := d) hr (hle · · t mem_cons_self)
    have hmax : max t.key d.key ≤ t.endKey := max_le ht.head.le hcmp.le
    obtain ⟨hordered', hcovers'⟩ := ih hordered ht.tail hd
      fun r hr' t' ht' => ((hends r hr').trans hmax).trans (ht.head_le t' ht')
    refine ⟨hordered', fun k => ?_⟩
    have hdone : CoveredBy done k → d.endKey ≤ k := lt_of_coveredBy hd.head_le
    rw [hcovers', coveredBy_cons, coveredBy_cons]
    unfold Span.Covers
    grind
  | case8 remaining t todo d done _ hcmp hcmp' hend ih =>
    rw [not_not, bytesCompare_lt_iff] at hcmp
    rw [bytesCompare_eq_iff] at hend
    obtain ⟨hordered, hends, hcovers⟩ := keepBefore_spec (d := d) hr (hle · · t mem_cons_self)
    have hmax : max t.key d.key ≤ t.endKey := max_le ht.head.le hcmp.le
    obtain ⟨hordered', hcovers'⟩ := ih hordered ht.tail hd.tail
      fun r hr' t' ht' => ((hends r hr').trans hmax).trans (ht.head_le t' ht')
    refine ⟨hordered', fun k => ?_⟩
    have htodo : CoveredBy todo k → t.endKey ≤ k := lt_of_coveredBy ht.head_le
    have hdone : CoveredBy done k → d.endKey ≤ k := lt_of_coveredBy hd.head_le
    rw [hcovers', coveredBy_cons, coveredBy_cons]
    unfold Span.Covers
    grind

end

namespace RawSpan

theorem le_iff {a b : RawSpan} :
    a.le b = true ↔ a.key < b.key ∨ a.key = b.key ∧ a.stop ≤ b.stop := by
  unfold le Span.le toSpan
  cases h : bytesCompare a.key b.key with
  | lt =>
    rw [bytesCompare_lt_iff] at h
    simp [h]
  | eq =>
    rw [bytesCompare_eq_iff] at h
    simp [h, ← not_lt, ← bytesCompare_gt_iff]
  | gt =>
    rw [bytesCompare_gt_iff] at h
    simp [h.ne', h.not_gt]

/-- A result of the sort, which leaves the order of equal spans open. -/
structure Sorts (spans sorted : List RawSpan) : Prop where
  perm : sorted.Perm spans
  pairwise : sorted.Pairwise fun a b => a.le b = true

theorem Sorts.key_le {spans sorted : List RawSpan} (h : Sorts spans sorted) :
    sorted.Pairwise fun a b => a.key ≤ b.key := by
  refine h.pairwise.imp fun hab => ?_
  rcases le_iff.mp hab with hlt | ⟨heq, -⟩
  · exact hlt.le
  · exact heq.le

theorem sorts_mergeSort (spans : List RawSpan) : Sorts spans (spans.mergeSort le) := by
  refine ⟨mergeSort_perm _ _, pairwise_mergeSort ?_ ?_ _⟩
  · intro a b c hab hbc
    rw [le_iff] at *
    grind
  · intro a b
    rw [Bool.or_eq_true, le_iff, le_iff]
    grind

end RawSpan

/-- The result is sorted and disjoint and covers what is to do and not done. -/
structure SubtractedExactly (todo done result : List Span) : Prop where
  sorted : result.Pairwise fun a b => a.key < b.key
  disjoint : result.Pairwise fun a b => ∀ k, ¬ (a.Covers k ∧ b.Covers k)
  covers : ∀ k, CoveredBy result k ↔ CoveredBy todo k ∧ ¬ CoveredBy done k

/-- Ranges that are not empty and have no key in common. -/
structure DisjointRanges (spans : List Span) : Prop where
  lt : ∀ s ∈ spans, s.key < s.endKey
  disjoint : spans.Pairwise fun a b => ∀ k, ¬ (a.Covers k ∧ b.Covers k)

theorem pairwise_startsNoLater (spans : List Span) :
    (spans.mergeSort Span.startsNoLater).Pairwise fun a b => a.key ≤ b.key := by
  have hle : ∀ a b : Span, a.startsNoLater b = true ↔ a.key ≤ b.key := by
    intro a b
    rw [Span.startsNoLater, decide_eq_true_iff, bytesCompare_ne_gt_iff]
  have htrans : ∀ a b c : Span, a.startsNoLater b = true → b.startsNoLater c = true →
      a.startsNoLater c = true := by
    intro a b c hab hbc
    rw [hle] at *
    exact hab.trans hbc
  have htotal : ∀ a b : Span, (a.startsNoLater b || b.startsNoLater a) = true := by
    intro a b
    rw [Bool.or_eq_true, hle, hle]
    exact le_total _ _
  exact (pairwise_mergeSort htrans htotal spans).imp fun hab => (hle _ _).mp hab

variable {spans : List Span}

theorem DisjointRanges.ordered (h : DisjointRanges spans) :
    Ordered (spans.mergeSort Span.startsNoLater) := by
  have hperm := mergeSort_perm spans Span.startsNoLater
  have hlt : ∀ s ∈ spans.mergeSort Span.startsNoLater, s.key < s.endKey :=
    fun s hs => h.lt s (hperm.mem_iff.mp hs)
  have hdisjoint := (hperm.pairwise_iff fun hab k hk => hab k hk.symm).mpr h.disjoint
  refine ⟨hlt, ((pairwise_startsNoLater spans).and hdisjoint).imp_of_mem ?_⟩
  rintro a b - hb ⟨hle, hdis⟩
  by_contra hnot
  exact hdis b.key ⟨⟨hle, not_le.mp hnot⟩, le_rfl, hlt b hb⟩

theorem coveredBy_mergeSort (spans : List Span) (k : Bytes) :
    CoveredBy (spans.mergeSort Span.startsNoLater) k ↔ CoveredBy spans k := by
  simp only [CoveredBy, (mergeSort_perm spans Span.startsNoLater).mem_iff]

theorem Span.Ordered.sorted (h : Ordered spans) : spans.Pairwise fun a b => a.key < b.key :=
  h.pairwise.imp_of_mem fun ha _ hab => (h.lt _ ha).trans_le hab

theorem Span.Ordered.disjoint (h : Ordered spans) :
    spans.Pairwise fun a b => ∀ k, ¬ (a.Covers k ∧ b.Covers k) :=
  h.pairwise.imp fun hab _ hk => absurd (hk.1.2.trans_le hab) hk.2.1.not_gt

theorem subtractedExactly_iff {todo done : List Span} (htodo : DisjointRanges todo)
    (hdone : DisjointRanges done) : SubtractedExactly todo done (subtractSpans todo done) ↔
      (done = [] → todo.Pairwise fun a b => a.key < b.key) := by
  unfold subtractSpans
  split_ifs with hnil
  · subst hnil
    exact ⟨fun h _ => h.sorted, fun h => ⟨h rfl, htodo.disjoint, by simp⟩⟩
  · refine iff_of_true ?_ fun h => absurd h hnil
    obtain ⟨hordered, hcovers⟩ := subtractLoop_spec .nil htodo.ordered hdone.ordered (by simp)
    refine ⟨hordered.sorted, hordered.disjoint, fun k => ?_⟩
    rw [hcovers, coveredBy_mergeSort, coveredBy_mergeSort]
    simp

theorem spans_exact_iff {spans : List RawSpan} {todo done : List Span}
    (hspans : ∀ s ∈ spans, s.Valid) (htodo : DisjointRanges todo) (hdone : DisjointRanges done) :
    ((RawSpan.MergedExactly spans (RawSpan.mergeSpans spans) ∧
        ∀ sorted, RawSpan.Sorts spans sorted →
          RawSpan.MergedExactly spans (RawSpan.mergeSorted sorted)) ∧
      SubtractedExactly todo done (subtractSpans todo done)) ↔
    ¬ RawSpan.LosesPoint spans ∧ (done = [] → todo.Pairwise fun a b => a.key < b.key) := by
  have hmerge : ∀ sorted, RawSpan.Sorts spans sorted →
      (RawSpan.MergedExactly spans (RawSpan.mergeSorted sorted) ↔ ¬ RawSpan.LosesPoint spans) :=
    fun sorted hsorted => RawSpan.mergedExactly_iff hspans hsorted.perm hsorted.key_le
  rw [subtractedExactly_iff htodo hdone]
  refine and_congr_left fun _ => ?_
  rw [RawSpan.mergeSpans, hmerge _ (RawSpan.sorts_mergeSort spans)]
  exact and_iff_left_of_imp fun hno sorted hsorted => (hmerge sorted hsorted).mpr hno

/-- A range and a point behind it whose end key is empty or missing. -/
def rangeAndPoint (endKey : Option Bytes) : List RawSpan := [⟨[97], some [98]⟩, ⟨[98], endKey⟩]

theorem mergeSpans_rangeAndPoint :
    RawSpan.mergeSpans (rangeAndPoint (some [])) = ([⟨[97], some [98]⟩], false) := by
  have hsorted : (rangeAndPoint (some [])).mergeSort RawSpan.le = rangeAndPoint (some []) :=
    mergeSort_of_pairwise (by decide)
  rw [RawSpan.mergeSpans, hsorted]
  decide

/-- A point with an empty end key gets lost behind a range, and spans from which nothing is
subtracted are not sorted. -/
theorem spans_inexact : ¬ RawSpan.MergedExactly (rangeAndPoint (some []))
        (RawSpan.mergeSpans (rangeAndPoint (some []))) ∧
      ¬ SubtractedExactly [⟨[99], [100]⟩, ⟨[97], [98]⟩] []
        (subtractSpans [⟨[99], [100]⟩, ⟨[97], [98]⟩] []) := by
  constructor
  · intro hexact
    rw [mergeSpans_rangeAndPoint] at hexact
    obtain ⟨s, hs, hcovers⟩ := (hexact.covers [98]).mpr
      ⟨⟨[98], some []⟩, by simp [rangeAndPoint], by decide⟩
    obtain rfl := mem_singleton.mp hs
    exact absurd hcovers (by decide)
  · intro hexact
    exact absurd hexact.sorted (by decide)

/-- With a missing end key the point is merged. -/
theorem spans_exact_rangeAndPoint :
    (RawSpan.MergedExactly (rangeAndPoint none) (RawSpan.mergeSpans (rangeAndPoint none)) ∧
        ∀ sorted, RawSpan.Sorts (rangeAndPoint none) sorted →
          RawSpan.MergedExactly (rangeAndPoint none) (RawSpan.mergeSorted sorted)) ∧
      SubtractedExactly [⟨[97], [100]⟩] [⟨[98], [99]⟩]
        (subtractSpans [⟨[97], [100]⟩] [⟨[98], [99]⟩]) := by
  have hsingle : ∀ s : Span, s.key < s.endKey → DisjointRanges [s] :=
    fun s hs => ⟨by simpa using hs, by simp⟩
  refine (spans_exact_iff ?_ (hsingle _ (by decide)) (hsingle _ (by decide))).mpr ⟨?_, by simp⟩
  · intro s hs
    rcases mem_pair.mp hs with rfl | rfl
    · exact fun _ => by decide
    · exact fun hne => absurd rfl hne
  · rintro ⟨p, hp, hempty, -⟩
    rcases mem_pair.mp hp with rfl | rfl
    · exact absurd hempty (by decide)
    · exact absurd hempty (by decide)

end Cockroach.Roachpb
