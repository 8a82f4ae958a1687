import Cockroach.Library.Intervals
import Cockroach.Opt.Constraint

/-! The tuples of a span, and extended keys as positions in a linear order of which spans are
intervals. -/
namespace Cockroach.Opt
open Intervals List

variable {D : Type*} [LinearOrder D]

/-- Compare a tuple with a key in the columns of the key. -/
def Key.comparePrefix : List OrderingColumn → List D → Key D → Ordering
  | col :: cols, x :: t, a :: k =>
    match col.compare x a with
    | .eq => Key.comparePrefix cols t k
    | o => o
  | _, _, _ => .eq

@[simp] theorem Key.comparePrefix_nil (cols : List OrderingColumn) (t : List D) :
    Key.comparePrefix cols t [] = .eq := by
  unfold comparePrefix
  split <;> trivial

theorem Key.comparePrefix_singleton (col : OrderingColumn) (cols : List OrderingColumn) (x a : D)
    (t : List D) : Key.comparePrefix (col :: cols) (x :: t) [a] = col.compare x a := by
  rw [comparePrefix]
  cases col.compare x a <;> simp

/-- The tuple is inside the span; a key stands for all its extensions on its inclusive side. -/
def Span.Contains (cols : List OrderingColumn) (sp : Span D) (t : List D) : Prop :=
  (Key.comparePrefix cols t sp.start = .gt ∨
      Key.comparePrefix cols t sp.start = .eq ∧ sp.startBoundary = .includeBoundary) ∧
    (Key.comparePrefix cols t sp.stop = .lt ∨
      Key.comparePrefix cols t sp.stop = .eq ∧ sp.stopBoundary = .includeBoundary)

/-- The tuples of the columns that are inside one of the spans. -/
def Spans.tuples (cols : List OrderingColumn) (spans : List (Span D)) : Set (List D) :=
  {t | t.length = cols.length ∧ ∃ sp ∈ spans, sp.Contains cols t}

/-- The values of a column in its direction, with an end on both sides. -/
abbrev Place (D : Type*) := WithBot (WithTop (Lex (D ⊕ Dᵒᵈ)))

def OrderingColumn.place (col : OrderingColumn) (a : D) : Place D :=
  ((toLex (if col.descending then Sum.inr (OrderDual.toDual a) else Sum.inl a) :
    Lex (D ⊕ Dᵒᵈ)) : WithTop (Lex (D ⊕ Dᵒᵈ)))

theorem OrderingColumn.compare_compares (col : OrderingColumn) (a b : D) :
    (col.compare a b).Compares (col.place a) (col.place b) := by
  have hcmp := cmp_compares a b
  unfold compare place
  generalize cmp a b = o at hcmp
  cases col.descending <;> cases o <;> simpa [Ordering.Compares] using hcmp

def KeyExtension.mark : KeyExtension → Place D
  | extendLow => ⊥
  | extendHigh => ⊤

def Key.position : List OrderingColumn → Key D → KeyExtension → List (Place D)
  | col :: cols, a :: k, ext => col.place a :: Key.position cols k ext
  | _, _, ext => [ext.mark]

variable {α : Type*} {o : Ordering}

theorem compares_cons [LinearOrder α] {a b : α} {k l : List α} {o' : Ordering}
    (h : o.Compares a b) (h' : o = .eq → o'.Compares k l) :
    (match o with
      | .eq => o'
      | o => o).Compares (a :: k) (b :: l) := by
  cases o with
  | lt | gt => exact cons_lt_cons_iff.mpr (.inl h)
  | eq =>
    obtain rfl : a = b := h
    have htail := h' rfl
    cases o' with
    | lt | gt => exact cons_lt_cons_iff.mpr (.inr ⟨rfl, htail⟩)
    | eq =>
      obtain rfl : k = l := htail
      rfl

theorem KeyExtension.compares_cons (ext : KeyExtension) (col : OrderingColumn) (a : D)
    (l : List (Place D)) : ext.toCmp.Compares [ext.mark] (col.place a :: l) := by
  cases ext with
  | extendLow => exact cons_lt_cons_iff.mpr (.inl (WithBot.bot_lt_coe _))
  | extendHigh =>
    exact cons_lt_cons_iff.mpr (.inl (WithBot.coe_lt_coe.mpr (WithTop.coe_lt_top _)))

theorem KeyExtension.compares_mark (kext lext : KeyExtension) :
    (if kext = lext then Ordering.eq else kext.toCmp).Compares
      ([kext.mark] : List (Place D)) [lext.mark] := by
  have hlt : ([⊥] : List (Place D)) < [⊤] := cons_lt_cons_iff.mpr (.inl bot_lt_top)
  cases kext with
  | extendLow =>
    cases lext with
    | extendLow => rfl
    | extendHigh => exact hlt
  | extendHigh =>
    cases lext with
    | extendLow => exact hlt
    | extendHigh => rfl

variable {k : Key D} {cols : List OrderingColumn}

theorem Key.compare_compares {l : Key D} (kext lext : KeyExtension) (hk : k.length ≤ cols.length)
    (hl : l.length ≤ cols.length) :
    (k.compare cols l kext lext).Compares (k.position cols kext) (l.position cols lext) := by
  induction cols generalizing k l with
  | nil =>
    obtain rfl := length_eq_zero_iff.mp (Nat.le_zero.mp hk)
    obtain rfl := length_eq_zero_iff.mp (Nat.le_zero.mp hl)
    exact KeyExtension.compares_mark kext lext
  | cons col cols ih =>
    match k, l with
    | [], [] => exact KeyExtension.compares_mark kext lext
    | [], b :: l => exact kext.compares_cons col b _
    | a :: k, [] => exact (Ordering.compares_swap).mpr (lext.compares_cons col a _)
    | a :: k, b :: l =>
      exact compares_cons (col.compare_compares a b) fun _ =>
        ih (Nat.le_of_succ_le_succ hk) (Nat.le_of_succ_le_succ hl)

namespace Span

def Fits (cols : List OrderingColumn) (sp : Span D) : Prop :=
  sp.start.length ≤ cols.length ∧ sp.stop.length ≤ cols.length

def bounds (cols : List OrderingColumn) (sp : Span D) : Bounds (List (Place D)) :=
  ⟨sp.start.position cols sp.startExt, sp.stop.position cols sp.endExt⟩

variable {cols : List OrderingColumn} {sp other : Span D}

section Compare

variable (h : sp.Fits cols) (h' : other.Fits cols)
include h h'

theorem compareStarts_compares :
    (sp.compareStarts cols other).Compares (sp.bounds cols).lo (other.bounds cols).lo :=
  Key.compare_compares _ _ h.1 h'.1

theorem compareEnds_compares :
    (sp.compareEnds cols other).Compares (sp.bounds cols).hi (other.bounds cols).hi :=
  Key.compare_compares _ _ h.2 h'.2

theorem compare_compares : (sp.compare cols other).Compares
    (toLex ((sp.bounds cols).lo, (sp.bounds cols).hi))
    (toLex ((other.bounds cols).lo, (other.bounds cols).hi)) := by
  have hstarts := compareStarts_compares h h'
  have hends := compareEnds_compares h h'
  unfold compare
  cases hcmp : sp.compareStarts cols other with
  | lt | gt =>
    rw [hcmp] at hstarts
    exact Prod.Lex.toLex_lt_toLex.mpr (.inl hstarts)
  | eq =>
    rw [hcmp] at hstarts
    replace hstarts : (sp.bounds cols).lo = (other.bounds cols).lo := hstarts
    cases hcmp' : sp.compareEnds cols other with
    | lt =>
      rw [hcmp'] at hends
      exact Prod.Lex.toLex_lt_toLex.mpr (.inr ⟨hstarts, hends⟩)
    | gt =>
      rw [hcmp'] at hends
      exact Prod.Lex.toLex_lt_toLex.mpr (.inr ⟨hstarts.symm, hends⟩)
    | eq =>
      rw [hcmp'] at hends
      exact congrArg toLex (Prod.ext hstarts hends)

theorem compare_eq_gt (hgt : sp.compare cols other = .gt) :
    (other.bounds cols).lo ≤ (sp.bounds cols).lo :=
  Prod.Lex.monotone_fst _ _ ((compare_compares h h').eq_gt.mp hgt).le

theorem compare_ne_gt (hgt : sp.compare cols other ≠ .gt) :
    (sp.bounds cols).lo ≤ (other.bounds cols).lo := by
  rw [Ne, (compare_compares h h').eq_gt, not_lt] at hgt
  exact Prod.Lex.monotone_fst _ _ hgt

theorem startsAfter_iff :
    sp.startsAfter cols other = true ↔ (other.bounds cols).hi ≤ (sp.bounds cols).lo := by
  have hcmp := Key.compare_compares sp.startExt other.endExt h.1 h'.2
  rw [startsAfter, bne_iff_ne, Ne, hcmp.eq_lt, not_lt]
  rfl

theorem startsStrictlyAfter_iff :
    sp.startsStrictlyAfter cols other = true ↔ (other.bounds cols).hi < (sp.bounds cols).lo := by
  have hcmp := Key.compare_compares sp.startExt other.endExt h.1 h'.2
  rw [startsStrictlyAfter, beq_iff_eq, hcmp.eq_gt]
  rfl

/-- The union with a later span that is not empty, unless there is space before it. -/
theorem tryUnionWith_spec (hle : (sp.bounds cols).lo ≤ (other.bounds cols).lo)
    (hlt : (sp.bounds cols).lo < (sp.bounds cols).hi) :
    match sp.tryUnionWith cols other with
    | none => (sp.bounds cols).hi < (other.bounds cols).lo
    | some m => m.Fits cols ∧ (other.bounds cols).lo ≤ (sp.bounds cols).hi ∧
        m.bounds cols = ⟨(sp.bounds cols).lo, max (sp.bounds cols).hi (other.bounds cols).hi⟩ := by
  have hstarts := compareStarts_compares h h'
  have hends := compareEnds_compares h h'
  have hcmp : (sp.stop.compare cols other.start sp.endExt other.startExt).Compares
      (sp.bounds cols).hi (other.bounds cols).lo := Key.compare_compares _ _ h.2 h'.1
  have hmerged : (other.bounds cols).lo ≤ (sp.bounds cols).hi →
      (if sp.compareEnds cols other = .lt then sp.withEnd other else sp).Fits cols ∧
      (other.bounds cols).lo ≤ (sp.bounds cols).hi ∧
      (if sp.compareEnds cols other = .lt then sp.withEnd other else sp).bounds cols =
        ⟨(sp.bounds cols).lo, max (sp.bounds cols).hi (other.bounds cols).hi⟩ := by
    intro htouch
    by_cases hend : sp.compareEnds cols other = .lt
    · rw [if_pos hend]
      rw [hend] at hends
      exact ⟨⟨h.1, h'.2⟩, htouch, by rw [max_eq_right hends.le]; rfl⟩
    · rw [if_neg hend]
      have hge : (other.bounds cols).hi ≤ (sp.bounds cols).hi := by
        rwa [hends.eq_lt, not_lt] at hend
      exact ⟨h, htouch, by rw [max_eq_left hge]⟩
  unfold tryUnionWith
  cases hstart : sp.compareStarts cols other with
  | gt =>
    rw [hstart] at hstarts
    exact absurd hstarts hle.not_gt
  | eq =>
    rw [hstart] at hstarts
    simpa using hmerged (hstarts.ge.trans hlt.le)
  | lt =>
    by_cases hspace : sp.stop.compare cols other.start sp.endExt other.startExt = .lt
    · rw [if_pos hspace]
      exact hcmp.eq_lt.mp hspace
    · rw [if_neg hspace]
      rw [hcmp.eq_lt, not_lt] at hspace
      exact hmerged hspace

/-- The intersection of two spans that are not empty. -/
theorem tryIntersectWith_spec (hlt : (sp.bounds cols).lo < (sp.bounds cols).hi)
    (hlt' : (other.bounds cols).lo < (other.bounds cols).hi) :
    match sp.tryIntersectWith cols other with
    | none => (sp.bounds cols).hi ≤ (other.bounds cols).lo ∨
        (other.bounds cols).hi ≤ (sp.bounds cols).lo
    | some m => m.Fits cols ∧ m.bounds cols =
        ⟨max (sp.bounds cols).lo (other.bounds cols).lo,
          min (sp.bounds cols).hi (other.bounds cols).hi⟩ ∧
        (m.bounds cols).lo < (m.bounds cols).hi := by
  have hstarts := compareStarts_compares h h'
  have hends := compareEnds_compares h h'
  have hcmp : (sp.start.compare cols other.stop sp.startExt other.endExt).Compares
      (sp.bounds cols).lo (other.bounds cols).hi := Key.compare_compares _ _ h.1 h'.2
  have hcmp' : (sp.stop.compare cols other.start sp.endExt other.startExt).Compares
      (sp.bounds cols).hi (other.bounds cols).lo := Key.compare_compares _ _ h.2 h'.1
  unfold tryIntersectWith
  by_cases hafter : sp.compareStarts cols other = .gt ∧
      sp.start.compare cols other.stop sp.startExt other.endExt ≠ .lt
  · simp only [if_pos hafter]
    exact .inr (not_lt.mp (mt hcmp.eq_lt.mpr hafter.2))
  by_cases hbefore : sp.compareEnds cols other = .lt ∧
      sp.stop.compare cols other.start sp.endExt other.startExt ≠ .gt
  · simp only [if_neg hafter, if_pos hbefore]
    exact .inl (not_lt.mp (mt hcmp'.eq_gt.mpr hbefore.2))
  simp only [if_neg hafter, if_neg hbefore]
  rw [hstarts.eq_gt, ne_eq, hcmp.eq_lt, not_and_not_right] at hafter
  rw [hends.eq_lt, ne_eq, hcmp'.eq_gt, not_and_not_right] at hbefore
  have hlt₁ : (sp.bounds cols).lo < (other.bounds cols).hi :=
    (lt_or_ge (other.bounds cols).lo (sp.bounds cols).lo).elim hafter fun hle => hle.trans_lt hlt'
  have hlt₂ : (other.bounds cols).lo < (sp.bounds cols).hi :=
    (lt_or_ge (sp.bounds cols).hi (other.bounds cols).hi).elim hbefore fun hle => hlt'.trans_le hle
  have hfits : (if sp.compareStarts cols other = .lt then sp.withStart other else sp).Fits cols ∧
      (if sp.compareStarts cols other = .lt then sp.withStart other else sp).bounds cols =
        ⟨max (sp.bounds cols).lo (other.bounds cols).lo, (sp.bounds cols).hi⟩ := by
    by_cases hstart : sp.compareStarts cols other = .lt
    · rw [if_pos hstart, max_eq_right (hstarts.eq_lt.mp hstart).le]
      exact ⟨⟨h'.1, h.2⟩, rfl⟩
    · rw [if_neg hstart, max_eq_left (not_lt.mp (mt hstarts.eq_lt.mpr hstart))]
      exact ⟨h, rfl⟩
  generalize (if sp.compareStarts cols other = .lt then sp.withStart other else sp) = sp' at hfits
  have hbounds : (if sp.compareEnds cols other = .gt then sp'.withEnd other else sp').Fits cols ∧
      (if sp.compareEnds cols other = .gt then sp'.withEnd other else sp').bounds cols =
        ⟨max (sp.bounds cols).lo (other.bounds cols).lo,
          min (sp.bounds cols).hi (other.bounds cols).hi⟩ := by
    by_cases hend : sp.compareEnds cols other = .gt
    · have hlo : (sp'.bounds cols).lo = max (sp.bounds cols).lo (other.bounds cols).lo :=
        congrArg Bounds.lo hfits.2
      rw [if_pos hend, min_eq_right (hends.eq_gt.mp hend).le, ← hlo]
      exact ⟨⟨hfits.1.1, h'.2⟩, rfl⟩
    · rw [if_neg hend, min_eq_left (not_lt.mp (mt hends.eq_gt.mpr hend))]
      exact hfits
  refine ⟨hbounds.1, hbounds.2, ?_⟩
  rw [hbounds.2]
  exact max_lt (lt_min hlt hlt₁) (lt_min hlt₂ hlt')

end Compare

end Span

variable [OrderBot D]

/-- The position of a tuple, which is not the one of any extended key. -/
def tuplePosition : List OrderingColumn → List D → List (Place D)
  | col :: cols, x :: t => col.place x :: tuplePosition cols t
  | _, _ => [OrderingColumn.place ⟨0, false⟩ ⊥]

theorem tuplePosition_eq_cons (cols : List OrderingColumn) (t : List D) :
    ∃ col a l, tuplePosition cols t = OrderingColumn.place col a :: l := by
  unfold tuplePosition
  split
  · exact ⟨_, _, _, rfl⟩
  · exact ⟨_, _, _, rfl⟩

variable {t : List D}

theorem Key.comparePrefix_compares (ext : KeyExtension) (ht : t.length = cols.length)
    (hk : k.length ≤ cols.length) :
    (match Key.comparePrefix cols t k with
      | .eq => ext.toCmp.swap
      | o => o).Compares (tuplePosition cols t) (k.position cols ext) := by
  have hnil : ∀ cols (t : List D), ext.toCmp.swap.Compares (tuplePosition cols t) [ext.mark] := by
    intro cols t
    obtain ⟨col, a, l, heq⟩ := tuplePosition_eq_cons cols t
    rw [heq, Ordering.compares_swap]
    exact ext.compares_cons col a l
  induction cols generalizing t k with
  | nil =>
    exact hnil [] t
  | cons col cols ih =>
    match t, k with
    | t, [] => simpa [comparePrefix, position] using hnil (col :: cols) t
    | x :: t, a :: k =>
      have htail := ih (Nat.succ.inj ht) (Nat.le_of_succ_le_succ hk)
      have hcons := compares_cons (col.compare_compares x a) fun _ => htail
      rw [comparePrefix]
      cases hcmp : col.compare x a <;> rwa [hcmp] at hcons

theorem compares_le_iff [LinearOrder α] {a b : α} {ext : KeyExtension}
    (h : (match o with | .eq => ext.toCmp.swap | o => o).Compares a b) :
    (b ≤ a ↔ o = .gt ∨ o = .eq ∧ ext = .extendLow) ∧
      (a < b ↔ o = .lt ∨ o = .eq ∧ ext = .extendHigh) := by
  cases o with
  | lt =>
    replace h : a < b := h
    simp [h]
  | gt =>
    replace h : b < a := h
    simp [h.le]
  | eq =>
    cases ext with
    | extendLow =>
      replace h : b < a := h
      simp [h.le]
    | extendHigh =>
      replace h : a < b := h
      simp [h]

theorem Span.contains_iff {sp : Span D} (hfits : sp.Fits cols) (ht : t.length = cols.length) :
    sp.Contains cols t ↔
      tuplePosition cols t ∈ Set.Ico (sp.bounds cols).lo (sp.bounds cols).hi := by
  have hstart := (compares_le_iff (Key.comparePrefix_compares sp.startExt ht hfits.1)).1
  have hstop := (compares_le_iff (Key.comparePrefix_compares sp.endExt ht hfits.2)).2
  rw [Span.startExt_eq_extendLow] at hstart
  rw [Span.endExt_eq_extendHigh] at hstop
  exact (hstart.and hstop).symm

end Cockroach.Opt
