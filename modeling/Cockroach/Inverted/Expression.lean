import Cockroach.Inverted.Spans

/-! Expressions over an inverted index: how conjunction and disjunction factor out common spans. -/
namespace Cockroach.Inverted
open ByteOrder Intervals List

inductive SetOperator where
  | setUnion
  | setIntersection

/-- Whether a primary key is selected, given whether the children select it. -/
def SetOperator.Selects : SetOperator → Prop → Prop → Prop
  | .setUnion, left, right => left ∨ right
  | .setIntersection, left, right => left ∧ right

/-- What a node has besides its operator and children. -/
structure Header where
  tight : Bool
  unique : Bool
  spansToRead : List Span
  factoredUnionSpans : List Span

/-- An expression has either an operator and two children or none of them. -/
inductive SpanExpression where
  | leaf (header : Header)
  | op (header : Header) (operator : SetOperator) (left right : SpanExpression)

namespace SpanExpression

def header : SpanExpression → Header
  | leaf header => header
  | op header _ _ _ => header

def withHeader (header : Header) : SpanExpression → SpanExpression
  | leaf _ => leaf header
  | op _ operator left right => op header operator left right

def factoredUnionSpans (e : SpanExpression) : List Span := e.header.factoredUnionSpans

def spansToRead (e : SpanExpression) : List Span := e.header.spansToRead

def withFactoredUnionSpans (e : SpanExpression) (spans : List Span) : SpanExpression :=
  e.withHeader { e.header with factoredUnionSpans := spans }

def exprForSpan (span : Span) (tight : Bool) : SpanExpression := leaf ⟨tight, false, [span], [span]⟩

def isEmptyExpr : SpanExpression → Bool
  | leaf header => header.factoredUnionSpans.isEmpty
  | op _ _ _ _ => false

/-- The spans to read if the factored spans of the child are not used. -/
def promotedSpansToRead (expr : Header) : SpanExpression → List Span
  | leaf _ => expr.factoredUnionSpans
  | op _ _ left right =>
    unionSpans (unionSpans expr.factoredUnionSpans left.spansToRead) right.spansToRead

/-- Operator and children of a child become those of the parent when the other child is empty. -/
def promoteChild (expr : Header) (child : SpanExpression) : SpanExpression :=
  child.withHeader <|
    if child.factoredUnionSpans.isEmpty then expr
    else { expr with spansToRead := child.promotedSpansToRead expr }

def tryPruneChildren (expr : Header) (operator : SetOperator) (left right : SpanExpression) :
    SpanExpression :=
  match left.isEmptyExpr, right.isEmptyExpr with
  | true, true => leaf expr
  | true, false => promoteChild expr right
  | false, true => promoteChild expr left
  | false, false => op expr operator left right

def intersectSpanExpressions (left right : SpanExpression) : Option SpanExpression := do
  let factored := intersectSpans left.factoredUnionSpans right.factoredUnionSpans
  let expr : Header := ⟨left.header.tight && right.header.tight,
    left.header.unique && right.header.unique,
    unionSpans left.spansToRead right.spansToRead, factored⟩
  if factored.isEmpty then return tryPruneChildren expr .setIntersection left right
  let leftSpans ← subtractSpans left.factoredUnionSpans factored
  let rightSpans ← subtractSpans right.factoredUnionSpans factored
  return tryPruneChildren expr .setIntersection (left.withFactoredUnionSpans leftSpans)
    (right.withFactoredUnionSpans rightSpans)

def unionSpanExpressions (left right : SpanExpression) : SpanExpression :=
  tryPruneChildren ⟨left.header.tight && right.header.tight, false,
      unionSpans left.spansToRead right.spansToRead,
      unionSpans left.factoredUnionSpans right.factoredUnionSpans⟩
    .setUnion (left.withFactoredUnionSpans []) (right.withFactoredUnionSpans [])

/-- Some key is in one of the spans. -/
def Hits (keys : Finset EncVal) (spans : List Span) : Prop := ∃ k ∈ keys, k ∈ cover spans

/-- The expression selects a primary key with some inverted keys. -/
def Selects (keys : Finset EncVal) : SpanExpression → Prop
  | leaf header => Hits keys header.factoredUnionSpans
  | op header operator left right => Hits keys header.factoredUnionSpans ∨
      operator.Selects (left.Selects keys) (right.Selects keys)

/-- The operator and its children select a primary key. -/
def ChildrenSelect (keys : Finset EncVal) : SpanExpression → Prop
  | leaf _ => False
  | op _ operator left right => operator.Selects (left.Selects keys) (right.Selects keys)

def denote {P : Type} (index : P → Finset EncVal) (e : SpanExpression) : Set P :=
  {p | e.Selects (index p)}

def Header.Sorted (header : Header) : Prop :=
  Separated header.spansToRead ∧ Separated header.factoredUnionSpans

/-- All lists of spans are sorted and do not overlap. -/
def Sorted : SpanExpression → Prop
  | leaf header => Header.Sorted header
  | op header _ left right => Header.Sorted header ∧ left.Sorted ∧ right.Sorted

/-- The keys in the factored spans of all nodes. -/
def allSpans : SpanExpression → Set EncVal
  | leaf header => cover header.factoredUnionSpans
  | op header _ left right => cover header.factoredUnionSpans ∪ (left.allSpans ∪ right.allSpans)

/-- The keys in the factored spans of the nodes below. -/
def childSpans : SpanExpression → Set EncVal
  | leaf _ => ∅
  | op _ _ left right => left.allSpans ∪ right.allSpans

def ReadsExactly (e : SpanExpression) : Prop := cover e.spansToRead = e.allSpans

def IsLeaf : SpanExpression → Prop
  | leaf _ => True
  | op _ _ _ _ => False

variable {e : SpanExpression} {hd : Header} {keys : Finset EncVal}

theorem selects_iff : e.Selects keys ↔ Hits keys e.factoredUnionSpans ∨ e.ChildrenSelect keys := by
  cases e with
  | leaf => simp [Selects, ChildrenSelect, factoredUnionSpans, SpanExpression.header]
  | op => exact Iff.rfl

theorem allSpans_eq : e.allSpans = cover e.factoredUnionSpans ∪ e.childSpans := by
  cases e with
  | leaf => simp [allSpans, childSpans, factoredUnionSpans, SpanExpression.header]
  | op => rfl

@[simp] theorem header_withHeader : (e.withHeader hd).header = hd := by
  cases e <;> rfl

@[simp] theorem childrenSelect_withHeader :
    (e.withHeader hd).ChildrenSelect keys ↔ e.ChildrenSelect keys := by
  cases e <;> rfl

@[simp] theorem childSpans_withHeader : (e.withHeader hd).childSpans = e.childSpans := by
  cases e <;> rfl

@[simp] theorem isLeaf_withHeader : (e.withHeader hd).IsLeaf ↔ e.IsLeaf := by
  cases e <;> rfl

theorem Sorted.header (h : e.Sorted) : Header.Sorted e.header := by
  cases e with
  | leaf => exact h
  | op => exact h.1

theorem Sorted.spansToRead (h : e.Sorted) : Separated e.spansToRead := h.header.1

theorem Sorted.factoredUnionSpans (h : e.Sorted) : Separated e.factoredUnionSpans := h.header.2

theorem Sorted.withHeader (h : e.Sorted) (hheader : Header.Sorted hd) :
    (e.withHeader hd).Sorted := by
  cases e with
  | leaf => exact hheader
  | op => exact ⟨hheader, h.2⟩

theorem not_childrenSelect_of_isLeaf (h : e.IsLeaf) : ¬ e.ChildrenSelect keys := by
  cases e with
  | leaf => exact id
  | op => exact h.elim

theorem childSpans_of_isLeaf (h : e.IsLeaf) : e.childSpans = ∅ := by
  cases e with
  | leaf => rfl
  | op => exact h.elim

theorem isEmptyExpr_iff : e.isEmptyExpr = true ↔ e.IsLeaf ∧ e.factoredUnionSpans = [] := by
  cases e with
  | leaf => simp [isEmptyExpr, IsLeaf, factoredUnionSpans, SpanExpression.header]
  | op => simp [isEmptyExpr, IsLeaf]

section Prune

variable {operator : SetOperator} {left right : SpanExpression}

theorem factoredUnionSpans_promoteChild :
    (promoteChild hd e).factoredUnionSpans = hd.factoredUnionSpans := by
  rw [promoteChild, factoredUnionSpans, header_withHeader]
  split_ifs <;> rfl

@[simp] theorem factoredUnionSpans_tryPruneChildren :
    (tryPruneChildren hd operator left right).factoredUnionSpans = hd.factoredUnionSpans := by
  unfold tryPruneChildren
  split
  · rfl
  · exact factoredUnionSpans_promoteChild
  · exact factoredUnionSpans_promoteChild
  · rfl

theorem tight_promoteChild : (promoteChild hd e).header.tight = hd.tight := by
  rw [promoteChild, header_withHeader]
  split_ifs <;> rfl

theorem tight_tryPruneChildren :
    (tryPruneChildren hd operator left right).header.tight = hd.tight := by
  unfold tryPruneChildren
  split
  · rfl
  · exact tight_promoteChild
  · exact tight_promoteChild
  · rfl

theorem selects_tryPruneChildren :
    (tryPruneChildren hd operator left right).Selects keys ↔ Hits keys hd.factoredUnionSpans ∨
      if left.isEmptyExpr then right.ChildrenSelect keys
      else if right.isEmptyExpr then left.ChildrenSelect keys
      else operator.Selects (left.Selects keys) (right.Selects keys) := by
  rw [selects_iff, factoredUnionSpans_tryPruneChildren]
  refine or_congr_right ?_
  unfold tryPruneChildren
  cases hleft : left.isEmptyExpr with
  | true =>
    cases hright : right.isEmptyExpr with
    | true =>
      have hleaf := (isEmptyExpr_iff.mp hright).1
      exact iff_of_false id (not_childrenSelect_of_isLeaf hleaf)
    | false => exact childrenSelect_withHeader
  | false =>
    cases hright : right.isEmptyExpr with
    | true => exact childrenSelect_withHeader
    | false => exact Iff.rfl

theorem sorted_promoteChild (hhd : Header.Sorted hd) (h : e.Sorted) :
    (promoteChild hd e).Sorted := by
  refine h.withHeader ?_
  split_ifs
  · exact hhd
  · refine ⟨?_, hhd.2⟩
    cases e with
    | leaf => exact hhd.2
    | op _ _ left right =>
      exact (unionSpans_spec (unionSpans_spec hhd.2 h.2.1.header.1).1 h.2.2.header.1).1

theorem sorted_tryPruneChildren (hhd : Header.Sorted hd) (hleft : left.Sorted)
    (hright : right.Sorted) : (tryPruneChildren hd operator left right).Sorted := by
  unfold tryPruneChildren
  split
  · exact hhd
  · exact sorted_promoteChild hhd hright
  · exact sorted_promoteChild hhd hleft
  · exact ⟨hhd, hleft, hright⟩

theorem allSpans_of_isEmptyExpr (h : e.isEmptyExpr = true) : e.allSpans = ∅ := by
  obtain ⟨hleaf, hnil⟩ := isEmptyExpr_iff.mp h
  rw [allSpans_eq, hnil, cover_nil, childSpans_of_isLeaf hleaf, Set.union_empty]

theorem readsExactly_promoteChild
    (hread : cover hd.spansToRead = cover hd.factoredUnionSpans ∪ e.allSpans)
    (he : e.factoredUnionSpans = [] ∨ e.IsLeaf) : (promoteChild hd e).ReadsExactly := by
  rw [ReadsExactly, allSpans_eq, factoredUnionSpans_promoteChild]
  rw [promoteChild, childSpans_withHeader, spansToRead, header_withHeader]
  by_cases hnil : e.factoredUnionSpans = []
  · rw [if_pos (List.isEmpty_iff.mpr hnil), hread, allSpans_eq, hnil, cover_nil, Set.empty_union]
  · rw [if_neg (mt List.isEmpty_iff.mp hnil)]
    have hleaf := he.resolve_left hnil
    cases e with
    | leaf => exact (Set.union_empty _).symm
    | op => exact hleaf.elim

theorem readsExactly_tryPruneChildren
    (hread : cover hd.spansToRead = cover hd.factoredUnionSpans ∪ (left.allSpans ∪ right.allSpans))
    (hleft : left.isEmptyExpr = true → right.factoredUnionSpans = [] ∨ right.IsLeaf)
    (hright : right.isEmptyExpr = true → left.factoredUnionSpans = [] ∨ left.IsLeaf) :
    (tryPruneChildren hd operator left right).ReadsExactly := by
  unfold tryPruneChildren
  cases hl : left.isEmptyExpr with
  | true =>
    rw [allSpans_of_isEmptyExpr hl, Set.empty_union] at hread
    cases hr : right.isEmptyExpr with
    | true =>
      rw [allSpans_of_isEmptyExpr hr, Set.union_empty] at hread
      exact hread
    | false => exact readsExactly_promoteChild hread (hleft hl)
  | false =>
    cases hr : right.isEmptyExpr with
    | true =>
      rw [allSpans_of_isEmptyExpr hr, Set.union_empty] at hread
      exact readsExactly_promoteChild hread (hright hr)
    | false => exact hread

end Prune

section WithFactoredUnionSpans

variable {spans : List Span}

@[simp] theorem factoredUnionSpans_with :
    (e.withFactoredUnionSpans spans).factoredUnionSpans = spans := by
  rw [withFactoredUnionSpans, factoredUnionSpans, header_withHeader]

theorem selects_with :
    (e.withFactoredUnionSpans spans).Selects keys ↔ Hits keys spans ∨ e.ChildrenSelect keys := by
  rw [selects_iff, factoredUnionSpans_with, withFactoredUnionSpans, childrenSelect_withHeader]

theorem allSpans_with : (e.withFactoredUnionSpans spans).allSpans = cover spans ∪ e.childSpans := by
  rw [allSpans_eq, factoredUnionSpans_with, withFactoredUnionSpans, childSpans_withHeader]

theorem isEmptyExpr_with :
    (e.withFactoredUnionSpans spans).isEmptyExpr = true ↔ e.IsLeaf ∧ spans = [] := by
  rw [isEmptyExpr_iff, factoredUnionSpans_with, withFactoredUnionSpans, isLeaf_withHeader]

theorem sorted_with (h : e.Sorted) (hspans : Separated spans) :
    (e.withFactoredUnionSpans spans).Sorted := h.withHeader ⟨h.header.1, hspans⟩

end WithFactoredUnionSpans

theorem hits_nil : ¬ Hits keys [] := by
  simp [Hits]

theorem hits_of_cover_eq {l m n : List Span} (h : cover l = cover m ∪ cover n) :
    Hits keys l ↔ Hits keys m ∨ Hits keys n := by
  simp only [Hits, h, Set.mem_union, and_or_left, exists_or]

variable {left right : SpanExpression}

theorem selects_prune_cases {operator : SetOperator} {l r : List Span} (keys : Finset EncVal) :
    (left.IsLeaf ∧ l = []) ∧ ((tryPruneChildren hd operator (left.withFactoredUnionSpans l)
          (right.withFactoredUnionSpans r)).Selects keys ↔
          Hits keys hd.factoredUnionSpans ∨ right.ChildrenSelect keys) ∨ (right.IsLeaf ∧ r = []) ∧
        ((tryPruneChildren hd operator (left.withFactoredUnionSpans l)
          (right.withFactoredUnionSpans r)).Selects keys ↔
          Hits keys hd.factoredUnionSpans ∨ left.ChildrenSelect keys) ∨
      ¬ (left.IsLeaf ∧ l = []) ∧ ¬ (right.IsLeaf ∧ r = []) ∧
        ((tryPruneChildren hd operator (left.withFactoredUnionSpans l)
          (right.withFactoredUnionSpans r)).Selects keys ↔
          Hits keys hd.factoredUnionSpans ∨ operator.Selects
            (Hits keys l ∨ left.ChildrenSelect keys)
            (Hits keys r ∨ right.ChildrenSelect keys)) := by
  rw [← isEmptyExpr_with, ← isEmptyExpr_with, selects_tryPruneChildren]
  by_cases hl : (left.withFactoredUnionSpans l).isEmptyExpr = true
  · refine .inl ⟨hl, ?_⟩
    rw [if_pos hl, withFactoredUnionSpans, childrenSelect_withHeader]
  · by_cases hr : (right.withFactoredUnionSpans r).isEmptyExpr = true
    · refine .inr (.inl ⟨hr, ?_⟩)
      rw [if_neg hl, if_pos hr, withFactoredUnionSpans, childrenSelect_withHeader]
    · refine .inr (.inr ⟨hl, hr, ?_⟩)
      rw [if_neg hl, if_neg hr, selects_with, selects_with]

theorem unionSpanExpressions_spec (hleft : left.Sorted) (hright : right.Sorted) :
    (unionSpanExpressions left right).Sorted ∧
      (∀ keys, (unionSpanExpressions left right).Selects keys ↔
        left.Selects keys ∨ right.Selects keys) ∧ (left.ReadsExactly → right.ReadsExactly →
        (unionSpanExpressions left right).ReadsExactly) := by
  obtain ⟨hread, hcread⟩ := unionSpans_spec hleft.spansToRead hright.spansToRead
  obtain ⟨hunion, hcunion⟩ := unionSpans_spec hleft.factoredUnionSpans hright.factoredUnionSpans
  refine ⟨sorted_tryPruneChildren ⟨hread, hunion⟩ (sorted_with hleft .nil)
    (sorted_with hright .nil),
    fun keys => ?_, fun hl hr => readsExactly_tryPruneChildren ?_ ?_ ?_⟩
  · rw [selects_iff (e := left), selects_iff (e := right), or_or_or_comm,
      ← hits_of_cover_eq hcunion, unionSpanExpressions]
    rcases selects_prune_cases keys with ⟨hl, heq⟩ | ⟨hr, heq⟩ | ⟨-, -, heq⟩
    · rw [heq, or_iff_right (not_childrenSelect_of_isLeaf hl.1)]
    · rw [heq, or_iff_left (not_childrenSelect_of_isLeaf hr.1)]
    · rw [heq, or_iff_right hits_nil, or_iff_right hits_nil, SetOperator.Selects]
  · rw [allSpans_with, allSpans_with, cover_nil, Set.empty_union, Set.empty_union, hcunion, hcread]
    rw [ReadsExactly, allSpans_eq] at hl hr
    rw [hl, hr, Set.union_union_union_comm]
  · exact fun _ => .inl factoredUnionSpans_with
  · exact fun _ => .inl factoredUnionSpans_with

/-- An operand without children has all its spans factored out, and the other has children. -/
def Absorbs (left right : SpanExpression) : Prop :=
  left.IsLeaf ∧ ¬ right.IsLeaf ∧ cover left.factoredUnionSpans ⊆ cover right.factoredUnionSpans

theorem cover_eq_empty {l : List Span} (h : Separated l) : cover l = ∅ ↔ l = [] := by
  cases l with
  | nil => simp
  | cons i l =>
    refine iff_of_false (fun hempty => ?_) (cons_ne_nil i l)
    have hmem : i.lo ∈ cover (i :: l) := ⟨i, mem_cons_self, le_rfl, h.head_lt⟩
    rw [hempty] at hmem
    exact hmem

theorem with_self : e.withFactoredUnionSpans e.factoredUnionSpans = e := by
  cases e <;> rfl

/-- The spans that both operands have are factored out of them. -/
theorem intersectSpanExpressions_eq (hleft : left.Sorted) (hright : right.Sorted) :
    ∃ hd l r, intersectSpanExpressions left right = some (tryPruneChildren hd .setIntersection
        (left.withFactoredUnionSpans l) (right.withFactoredUnionSpans r)) ∧
      Header.Sorted hd ∧ Separated l ∧ Separated r ∧
      hd.tight = (left.header.tight && right.header.tight) ∧
      cover hd.spansToRead = cover left.spansToRead ∪ cover right.spansToRead ∧
      cover hd.factoredUnionSpans = cover left.factoredUnionSpans ∩ cover right.factoredUnionSpans ∧
      cover l = cover left.factoredUnionSpans \ cover right.factoredUnionSpans ∧
      cover r = cover right.factoredUnionSpans \ cover left.factoredUnionSpans := by
  obtain ⟨hread, hcread⟩ := unionSpans_spec hleft.spansToRead hright.spansToRead
  obtain ⟨hinter, hcinter⟩ := intersectSpans_spec hleft.factoredUnionSpans hright.factoredUnionSpans
  obtain ⟨l, hl, hlsep, hcl⟩ := subtractSpans_spec hleft.factoredUnionSpans hinter
    (hcinter.le.trans Set.inter_subset_left)
  obtain ⟨r, hr, hrsep, hcr⟩ := subtractSpans_spec hright.factoredUnionSpans hinter
    (hcinter.le.trans Set.inter_subset_right)
  rw [hcinter, Set.sdiff_self_inter] at hcl
  rw [hcinter, Set.inter_comm, Set.sdiff_self_inter] at hcr
  refine ⟨⟨left.header.tight && right.header.tight, left.header.unique && right.header.unique,
    unionSpans left.spansToRead right.spansToRead,
    intersectSpans left.factoredUnionSpans right.factoredUnionSpans⟩, l, r, ?_, ⟨hread, hinter⟩,
    hlsep, hrsep, rfl, hcread, hcinter, hcl, hcr⟩
  unfold intersectSpanExpressions
  by_cases hnil : intersectSpans left.factoredUnionSpans right.factoredUnionSpans = []
  · -- Nothing is factored out, so that there is nothing to subtract.
    rw [hnil] at hl hr ⊢
    have hself : ∀ spans, subtractSpans spans [] = some spans := by
      intro spans
      rw [subtractSpans, subtractLoop]
    obtain rfl := Option.some.inj ((hself _).symm.trans hl)
    obtain rfl := Option.some.inj ((hself _).symm.trans hr)
    rw [with_self, with_self]
    rfl
  · simp only [List.isEmpty_iff, if_neg hnil, hl, hr]
    rfl

theorem factor_and {f l r a b : Prop} : f ∨ (l ∨ a) ∧ (r ∨ b) ↔ ((l ∨ f) ∨ a) ∧ ((r ∨ f) ∨ b) := by
  rw [or_right_comm, or_right_comm (a := r), ← and_or_right, or_comm]

theorem absorb_left {f r b p : Prop} (h : b → p) : f ∨ b ↔ f ∧ ((r ∨ f) ∨ b) ∨ p ∧ b := by
  constructor
  · rintro (hf | hb)
    · exact .inl ⟨hf, .inl (.inr hf)⟩
    · exact .inr ⟨h hb, hb⟩
  · rintro (⟨hf, -⟩ | ⟨-, hb⟩)
    · exact .inl hf
    · exact .inr hb

/-- A conjunction selects what both operands select, and also what the children of one operand
select if the other one is absorbed. -/
theorem intersectSpanExpressions_spec (hleft : left.Sorted) (hright : right.Sorted) :
    ∃ e, intersectSpanExpressions left right = some e ∧ e.Sorted ∧
      e.header.tight = (left.header.tight && right.header.tight) ∧
      (∀ keys, e.Selects keys ↔ (left.Selects keys ∧ right.Selects keys) ∨
        (left.Absorbs right ∧ right.ChildrenSelect keys) ∨
        (right.Absorbs left ∧ left.ChildrenSelect keys)) ∧
      (left.ReadsExactly → right.ReadsExactly → ¬ left.Absorbs right → ¬ right.Absorbs left →
        e.ReadsExactly) := by
  obtain ⟨hd, l, r, heq, hhd, hl, hr, htight, hcread, hcinter, hcl, hcr⟩ :=
    intersectSpanExpressions_eq hleft hright
  have hl_nil : l = [] ↔ cover left.factoredUnionSpans ⊆ cover right.factoredUnionSpans := by
    rw [← cover_eq_empty hl, hcl, Set.sdiff_eq_empty]
  have hr_nil : r = [] ↔ cover right.factoredUnionSpans ⊆ cover left.factoredUnionSpans := by
    rw [← cover_eq_empty hr, hcr, Set.sdiff_eq_empty]
  refine ⟨_, heq, sorted_tryPruneChildren hhd (sorted_with hleft hl) (sorted_with hright hr),
    tight_tryPruneChildren.trans htight, fun keys => ?_,
    fun hlread hrread hla hra => readsExactly_tryPruneChildren ?_ ?_ ?_⟩
  · have hitsl : Hits keys left.factoredUnionSpans ↔
        Hits keys l ∨ Hits keys hd.factoredUnionSpans :=
      hits_of_cover_eq (by rw [hcl, hcinter, Set.sdiff_union_inter])
    have hitsr : Hits keys right.factoredUnionSpans ↔
        Hits keys r ∨ Hits keys hd.factoredUnionSpans :=
      hits_of_cover_eq (by rw [hcr, hcinter, Set.inter_comm, Set.sdiff_union_inter])
    rw [selects_iff (e := left), selects_iff (e := right), hitsl, hitsr, Absorbs, Absorbs,
      ← hl_nil, ← hr_nil]
    rcases @selects_prune_cases hd left right .setIntersection l r keys with
      ⟨⟨hleaf, rfl⟩, heq⟩ | ⟨⟨hleaf, rfl⟩, heq⟩ | ⟨hnl, hnr, heq⟩
    · have hno := @not_childrenSelect_of_isLeaf _ keys hleaf
      have hselect : right.ChildrenSelect keys → ¬ right.IsLeaf :=
        fun h hr => not_childrenSelect_of_isLeaf hr h
      simp only [heq, hleaf, hits_nil, hno, false_or, or_false, true_and, not_true_eq_false,
        false_and, and_false, and_true]
      exact absorb_left hselect
    · have hno := @not_childrenSelect_of_isLeaf _ keys hleaf
      have hselect : left.ChildrenSelect keys → ¬ left.IsLeaf :=
        fun h hl => not_childrenSelect_of_isLeaf hl h
      simp only [heq, hleaf, hits_nil, hno, false_or, or_false, true_and, not_true_eq_false,
        false_and, and_false, and_true]
      rw [and_comm (b := Hits keys hd.factoredUnionSpans)]
      exact absorb_left hselect
    · have hnl' : ¬ (left.IsLeaf ∧ ¬ right.IsLeaf ∧ l = []) := fun h => hnl ⟨h.1, h.2.2⟩
      have hnr' : ¬ (right.IsLeaf ∧ ¬ left.IsLeaf ∧ r = []) := fun h => hnr ⟨h.1, h.2.2⟩
      simp only [heq, hnl', hnr', false_and, or_false]
      exact factor_and
  · rw [ReadsExactly, allSpans_eq] at hlread hrread
    rw [hcread, hlread, hrread, allSpans_with, allSpans_with, hcinter, hcl, hcr]
    ext x
    simp only [Set.mem_union, Set.mem_inter_iff, Set.mem_sdiff]
    tauto
  · intro hempty
    obtain ⟨hleaf, hnil⟩ := isEmptyExpr_with.mp hempty
    have hright_leaf : right.IsLeaf := by
      by_contra hnot
      exact hla ⟨hleaf, hnot, hl_nil.mp hnil⟩
    exact .inr (isLeaf_withHeader.mpr hright_leaf)
  · intro hempty
    obtain ⟨hleaf, hnil⟩ := isEmptyExpr_with.mp hempty
    have hleft_leaf : left.IsLeaf := by
      by_contra hnot
      exact hra ⟨hleaf, hnot, hr_nil.mp hnil⟩
    exact .inr (isLeaf_withHeader.mpr hleft_leaf)

/-- An operand is absorbed although the children of the other one can select a primary key that has
no key in its spans. -/
def Misjoins (left right : SpanExpression) : Prop :=
  left.Absorbs right ∧ ∃ keys : Finset EncVal,
    ¬ Hits keys left.factoredUnionSpans ∧ right.ChildrenSelect keys

theorem selects_of_absorbs (h : left.Absorbs right) (keys : Finset EncVal) :
    left.Selects keys ∧ right.Selects keys ↔ Hits keys left.factoredUnionSpans := by
  have hleft : left.Selects keys ↔ Hits keys left.factoredUnionSpans := by
    rw [selects_iff, or_iff_left (not_childrenSelect_of_isLeaf h.1)]
  rw [hleft, and_iff_left_iff_imp, selects_iff]
  rintro ⟨k, hk, hmem⟩
  exact .inl ⟨k, hk, h.2.2 hmem⟩

theorem not_misjoins_iff : ¬ left.Misjoins right ↔ ∀ keys : Finset EncVal,
    left.Absorbs right ∧ right.ChildrenSelect keys → left.Selects keys ∧ right.Selects keys := by
  constructor
  · rintro h keys ⟨habsorbs, hselect⟩
    refine (selects_of_absorbs habsorbs _).mpr ?_
    by_contra hhits
    exact h ⟨habsorbs, keys, hhits, hselect⟩
  · rintro h ⟨habsorbs, keys, hhits, hselect⟩
    exact hhits ((selects_of_absorbs habsorbs keys).mp (h keys ⟨habsorbs, hselect⟩))

theorem denote_and_iff {e : SpanExpression}
    (he : ∀ keys, e.Selects keys ↔ (left.Selects keys ∧ right.Selects keys) ∨
      (left.Absorbs right ∧ right.ChildrenSelect keys) ∨
      (right.Absorbs left ∧ left.ChildrenSelect keys)) : (∀ (P : Type) (index : P → Finset EncVal),
        e.denote index = left.denote index ∩ right.denote index) ↔
      ¬ left.Misjoins right ∧ ¬ right.Misjoins left := by
  rw [not_misjoins_iff, not_misjoins_iff]
  constructor
  · intro h
    have hboth : ∀ keys, e.Selects keys → left.Selects keys ∧ right.Selects keys :=
      fun keys => (Set.ext_iff.mp (h Unit fun _ => keys) ()).mp
    constructor
    · exact fun keys hl => hboth keys ((he keys).mpr (.inr (.inl hl)))
    · exact fun keys hr => (hboth keys ((he keys).mpr (.inr (.inr hr)))).symm
  · rintro ⟨hl, hr⟩ P index
    ext p
    refine (he (index p)).trans (or_iff_left_of_imp ?_)
    rintro (h | h)
    · exact hl _ h
    · exact (hr _ h).symm

end SpanExpression

/-- Conjunctions and disjunctions of single spans. -/
inductive Formula where
  | span (span : Span) (nonempty : span.lo < span.hi) (tight : Bool)
  | and (left right : Formula)
  | or (left right : Formula)

namespace Formula

open SpanExpression

/-- The expression that is built; a panic is a missing result. -/
def build : Formula → Option SpanExpression
  | span sp _ tight => some (exprForSpan sp tight)
  | and left right => do intersectSpanExpressions (← left.build) (← right.build)
  | or left right => do return unionSpanExpressions (← left.build) (← right.build)

/-- The primary keys that the formula selects. -/
def denote {P : Type} (index : P → Finset EncVal) : Formula → Set P
  | span sp _ _ => {p | ∃ k ∈ index p, k ∈ Set.Ico sp.lo sp.hi}
  | and left right => left.denote index ∩ right.denote index
  | or left right => left.denote index ∪ right.denote index

def tight : Formula → Bool
  | span _ _ tight => tight
  | and left right => left.tight && right.tight
  | or left right => left.tight && right.tight

/-- No operand of a conjunction is absorbed. -/
def Unabsorbed : Formula → Prop
  | span _ _ _ => True
  | and left right => left.Unabsorbed ∧ right.Unabsorbed ∧ ∀ l ∈ left.build, ∀ r ∈ right.build,
      ¬ l.Absorbs r ∧ ¬ r.Absorbs l
  | or left right => left.Unabsorbed ∧ right.Unabsorbed

theorem build_spec (f : Formula) : ∃ e, f.build = some e ∧ e.Sorted ∧ e.header.tight = f.tight ∧
    (f.Unabsorbed → e.ReadsExactly ∧ ∀ (P : Type) (index : P → Finset EncVal),
      e.denote index = f.denote index) := by
  induction f with
  | span sp hsp tight =>
    have hsep : Separated [sp] := Separated.nil.cons hsp fun _ h => nomatch h
    refine ⟨_, rfl, ⟨hsep, hsep⟩, rfl, fun _ => ⟨rfl, fun P index => ?_⟩⟩
    ext p
    simp [SpanExpression.denote, Selects, Hits, denote, exprForSpan]
  | and f g ihf ihg =>
    obtain ⟨l, hl, hlsorted, hltight, hlexact⟩ := ihf
    obtain ⟨r, hr, hrsorted, hrtight, hrexact⟩ := ihg
    obtain ⟨e, he, hsorted, htight, hselects, hreads⟩ :=
      intersectSpanExpressions_spec hlsorted hrsorted
    refine ⟨e, by rw [build, hl, hr]; exact he, hsorted, ?_, ?_⟩
    · rw [htight, hltight, hrtight, tight]
    · rintro ⟨hf, hg, habsorbs⟩
      obtain ⟨hla, hra⟩ := habsorbs l hl r hr
      obtain ⟨hlreads, hldenote⟩ := hlexact hf
      obtain ⟨hrreads, hrdenote⟩ := hrexact hg
      refine ⟨hreads hlreads hrreads hla hra, fun P index => ?_⟩
      rw [(denote_and_iff hselects).mpr ⟨fun h => hla h.1, fun h => hra h.1⟩, hldenote, hrdenote,
        denote]
  | or f g ihf ihg =>
    obtain ⟨l, hl, hlsorted, hltight, hlexact⟩ := ihf
    obtain ⟨r, hr, hrsorted, hrtight, hrexact⟩ := ihg
    obtain ⟨hsorted, hselects, hreads⟩ := unionSpanExpressions_spec hlsorted hrsorted
    refine ⟨unionSpanExpressions l r, by rw [build, hl, hr]; rfl, hsorted, ?_, ?_⟩
    · rw [unionSpanExpressions, tight_tryPruneChildren, hltight, hrtight, tight]
    · rintro ⟨hf, hg⟩
      obtain ⟨hlreads, hldenote⟩ := hlexact hf
      obtain ⟨hrreads, hrdenote⟩ := hrexact hg
      refine ⟨hreads hlreads hrreads, fun P index => ?_⟩
      rw [denote, ← hldenote, ← hrdenote]
      ext p
      exact hselects (index p)

/-- Disjunctions of built expressions are right for every index, conjunctions exactly if no operand
is absorbed while the children of the other one select something else; all lists of spans are
sorted. If no operand is absorbed, expressions select what their formula says and read what they
need. -/
theorem and_or_exact (f g : Formula) : ∃ l r e,
    f.build = some l ∧ g.build = some r ∧ intersectSpanExpressions l r = some e ∧
      l.Sorted ∧ r.Sorted ∧ e.Sorted ∧ (unionSpanExpressions l r).Sorted ∧
      (∀ (P : Type) (index : P → Finset EncVal), (unionSpanExpressions l r).denote index =
        l.denote index ∪ r.denote index) ∧
      ((∀ (P : Type) (index : P → Finset EncVal), e.denote index =
        l.denote index ∩ r.denote index) ↔ ¬ l.Misjoins r ∧ ¬ r.Misjoins l) ∧
      (f.Unabsorbed → l.header.tight = f.tight ∧ l.ReadsExactly ∧
        ∀ (P : Type) (index : P → Finset EncVal), l.denote index = f.denote index) := by
  obtain ⟨l, hl, hlsorted, htight, hexact⟩ := f.build_spec
  obtain ⟨r, hr, hrsorted, -, -⟩ := g.build_spec
  obtain ⟨e, he, hsorted, -, hselects, -⟩ := intersectSpanExpressions_spec hlsorted hrsorted
  obtain ⟨husorted, huselects, -⟩ := unionSpanExpressions_spec hlsorted hrsorted
  refine ⟨l, r, e, hl, hr, he, hlsorted, hrsorted, hsorted, husorted, fun P index => ?_,
    denote_and_iff hselects, fun h => ⟨htight, hexact h⟩⟩
  ext p
  exact huselects (index p)

/-- A span of keys with one byte. -/
def sampleSpan (a b : UInt8) (h : [a] < [b]) : Formula := span ⟨[a], [b]⟩ h true

def sampleAnd : Formula := and (sampleSpan 1 10 (by decide)) (sampleSpan 5 15 (by decide))

/-- Their conjunction selects and reads what it should. -/
theorem and_or_exact_sampleAnd : ∃ l, sampleAnd.build = some l ∧ l.header.tight = true ∧
    l.ReadsExactly ∧ ∀ (P : Type) (index : P → Finset EncVal), l.denote index =
      sampleAnd.denote index := by
  obtain ⟨l, -, -, hl, -, -, -, -, -, -, -, -, hexact⟩ := and_or_exact sampleAnd sampleAnd
  have hunabsorbed : sampleAnd.Unabsorbed := by
    refine ⟨trivial, trivial, ?_⟩
    rintro _ ⟨⟩ _ ⟨⟩
    exact ⟨fun h => h.2.1 trivial, fun h => h.2.1 trivial⟩
  exact ⟨l, hl, hexact hunabsorbed⟩

theorem build_and_sampleAnd : (and (sampleSpan 5 7 (by decide)) sampleAnd).build =
    some (.op ⟨true, false, [⟨[1], [15]⟩], [⟨[5], [7]⟩]⟩ .setIntersection
      (.leaf ⟨true, false, [⟨[1], [10]⟩], [⟨[1], [5]⟩]⟩)
      (.leaf ⟨true, false, [⟨[5], [15]⟩], [⟨[10], [15]⟩]⟩)) := by
  simp [sampleAnd, sampleSpan, build, exprForSpan, intersectSpanExpressions, intersectSpans,
    intersectLoop, subtractSpans, subtractLoop, cmpExcEndWithIncStart, cmpEnds, bytesCompare,
    factoredUnionSpans, spansToRead, SpanExpression.header, tryPruneChildren, isEmptyExpr,
    withFactoredUnionSpans, withHeader, promoteChild, promotedSpansToRead, unionSpans, unionLoop,
    extendSpanEnd, Nat.compare_eq_ite_lt]

/-- A span inside of the overlap is absorbed: the conjunction selects a primary key with the keys 1
and 10, which has no key in the span, and it reads 8, which is in no factored span. -/
theorem not_exact_and_sampleAnd : ∃ l r e, (sampleSpan 5 7 (by decide)).build = some l ∧
    sampleAnd.build = some r ∧ intersectSpanExpressions l r = some e ∧ e.header.tight = true ∧
      e.denote (fun _ : Unit => {[1], [10]}) ≠
        l.denote (fun _ : Unit => {[1], [10]}) ∩ r.denote (fun _ : Unit => {[1], [10]}) ∧
      ¬ e.ReadsExactly := by
  obtain ⟨r, hr, -⟩ := sampleAnd.build_spec
  have hbuild := build_and_sampleAnd
  rw [build, hr] at hbuild
  refine ⟨_, r, _, rfl, hr, hbuild, rfl, fun heq => ?_, fun heq => ?_⟩
  · have hmem := (Set.ext_iff.mp heq ()).mp
      (.inr ⟨⟨[1], by decide, ⟨_, mem_singleton_self _, by decide⟩⟩,
        ⟨[10], by decide, ⟨_, mem_singleton_self _, by decide⟩⟩⟩)
    obtain ⟨k, hk, sp, hsp, hkey⟩ := hmem.1
    obtain rfl := mem_singleton.mp hsp
    revert k
    decide
  · have hmem : ([8] : EncVal) ∈ cover [(⟨[1], [15]⟩ : Span)] :=
      ⟨_, mem_singleton_self _, by decide⟩
    have hall := heq.le hmem
    simp only [allSpans, cover_cons, cover_nil] at hall
    revert hall
    decide

end Formula

end Cockroach.Inverted
