import Cockroach.Opt.Span

/-! Constraints as lists of spans: union, intersection, and sorting with merging. -/
namespace Cockroach.Opt

variable {D : Type*} [LinearOrder D]

namespace Spans

/-- Each span starts strictly after the end of the one before. -/
def sortedAndMerged (cols : List OrderingColumn) : List (Span D) → Bool
  | [] => true
  | [_] => true
  | sp :: sp' :: spans => sp'.startsStrictlyAfter cols sp && sortedAndMerged cols (sp' :: spans)

/-- Extend the current span by those that it overlaps with. -/
def merge (cols : List OrderingColumn) (currentSpan : Span D) : List (Span D) → List (Span D)
  | [] => [currentSpan]
  | sp :: spans =>
    if sp.startsStrictlyAfter cols currentSpan then currentSpan :: merge cols sp spans
    else if currentSpan.compareEnds cols sp = .lt then merge cols (currentSpan.withEnd sp) spans
    else merge cols currentSpan spans

def sort (cols : List OrderingColumn) (spans : List (Span D)) : List (Span D) :=
  spans.mergeSort fun sp sp' => sp.compare cols sp' != .gt

def sortAndMerge (cols : List OrderingColumn) (spans : List (Span D)) : List (Span D) :=
  if sortedAndMerged cols spans then spans
  else match sort cols spans with
    | [] => []
    | currentSpan :: spans => merge cols currentSpan spans

/-- Merge a span with the next one if they touch. -/
def absorbHead (cols : List OrderingColumn) (mergeSpan : Span D) :
    List (Span D) → Option (Span D × List (Span D))
  | [] => none
  | sp :: spans => (mergeSpan.tryUnionWith cols sp).map (·, spans)

theorem absorbHead_length {cols : List OrderingColumn} {mergeSpan mergeSpan' : Span D}
    {spans spans' : List (Span D)}
    (h : absorbHead cols mergeSpan spans = some (mergeSpan', spans')) :
    spans'.length < spans.length := by
  cases spans with
  | nil => cases h
  | cons sp spans =>
    obtain ⟨_, -, heq⟩ := Option.map_eq_some_iff.mp h
    obtain rfl := (Prod.mk.inj heq).2
    exact Nat.lt_succ_self _

/-- Merge a span with all that it overlaps with on the left and on the right. -/
def absorb (cols : List OrderingColumn) (mergeSpan : Span D) (left right : List (Span D)) :
    Span D × List (Span D) × List (Span D) :=
  match _hl : absorbHead cols mergeSpan left with
  | some (mergeSpan', left') =>
    match _hr : absorbHead cols mergeSpan' right with
    | some (mergeSpan'', right') => absorb cols mergeSpan'' left' right'
    | none => absorb cols mergeSpan' left' right
  | none =>
    match _hr : absorbHead cols mergeSpan right with
    | some (mergeSpan', right') => absorb cols mergeSpan' left right'
    | none => (mergeSpan, left, right)
termination_by left.length + right.length
decreasing_by
  · exact Nat.add_lt_add (absorbHead_length _hl) (absorbHead_length _hr)
  · exact Nat.add_lt_add_right (absorbHead_length _hl) _
  · exact Nat.add_lt_add_left (absorbHead_length _hr) _

/-- The span that starts first, with the other spans of its list before those of the other list. -/
def first (cols : List OrderingColumn) :
    List (Span D) → List (Span D) → Option (Span D × List (Span D) × List (Span D))
  | [], [] => none
  | sp :: left, [] => some (sp, left, [])
  | [], sp :: right => some (sp, right, [])
  | sp :: left, sp' :: right =>
    if sp.compare cols sp' = .gt then some (sp', right, sp :: left)
    else some (sp, left, sp' :: right)

theorem absorb_length (cols : List OrderingColumn) (mergeSpan : Span D)
    (left right : List (Span D)) :
    (absorb cols mergeSpan left right).2.1.length + (absorb cols mergeSpan left right).2.2.length ≤
      left.length + right.length := by
  fun_induction absorb cols mergeSpan left right with
  | case1 _ _ _ _ _ hl _ _ hr ih =>
    have hleft := absorbHead_length hl
    have hright := absorbHead_length hr
    omega
  | case2 _ _ _ _ _ hl _ ih =>
    have hleft := absorbHead_length hl
    omega
  | case3 _ _ _ _ _ _ hr ih =>
    have hright := absorbHead_length hr
    omega
  | case4 => exact le_rfl

theorem first_length {cols : List OrderingColumn} {left right left' right' : List (Span D)}
    {sp : Span D} (h : first cols left right = some (sp, left', right')) :
    left'.length + right'.length < left.length + right.length := by
  unfold first at h
  split at h
  · cases h
  · obtain ⟨rfl, rfl, rfl⟩ := by simpa using h
    simp
  · obtain ⟨rfl, rfl, rfl⟩ := by simpa using h
    simp
  · split_ifs at h
    all_goals
      obtain ⟨rfl, rfl, rfl⟩ := by simpa using h
      simp only [List.length_cons]
      omega

/-- A merge of two ordered lists in which overlapping spans become one. -/
def union (cols : List OrderingColumn) (left right : List (Span D)) : List (Span D) :=
  match _h : first cols left right with
  | none => []
  | some (sp, left', right') =>
    let r := absorb cols sp left' right'
    r.1 :: union cols r.2.1 r.2.2
termination_by left.length + right.length
decreasing_by exact (absorb_length cols sp left' right').trans_lt (first_length _h)

def intersect (cols : List OrderingColumn) : List (Span D) → List (Span D) → List (Span D)
  | sp :: left, sp' :: right =>
    if sp.startsAfter cols sp' then intersect cols (sp :: left) right
    else match sp.tryIntersectWith cols sp' with
      | none => intersect cols left (sp' :: right)
      | some mergeSpan =>
        mergeSpan :: match sp.compareEnds cols sp' with
          | .lt => intersect cols left (sp' :: right)
          | .eq => intersect cols left right
          | .gt => intersect cols (sp :: left) right
  | _, _ => []
termination_by left right => left.length + right.length

end Spans

structure Constraint (D : Type*) where
  columns : Columns
  spans : List (Span D)

namespace Constraint

def isContradiction (c : Constraint D) : Bool := c.spans.isEmpty

variable [OrderBot D]

def isUnconstrained (c : Constraint D) : Bool :=
  match c.spans with
  | [sp] => sp.isUnconstrained
  | _ => false

/-- Panics if the columns are not the same. -/
def unionWith (c other : Constraint D) : Option (Constraint D) :=
  if c.columns ≠ other.columns then none
  else if c.isUnconstrained || other.isContradiction then some c
  else some ⟨c.columns, Spans.union c.columns.toList c.spans other.spans⟩

/-- Panics if the columns are not the same. -/
def intersectWith (c other : Constraint D) : Option (Constraint D) :=
  if c.columns ≠ other.columns then none
  else if c.isContradiction || other.isUnconstrained then some c
  else some ⟨c.columns, Spans.intersect c.columns.toList c.spans other.spans⟩

end Constraint

end Cockroach.Opt
