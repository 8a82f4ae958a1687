import Mathlib

/-! Keys, spans and constraints of the optimizer: how spans are compared, merged and intersected. -/
namespace Cockroach.Opt

/-- A column with the direction in which its values are ordered. -/
structure OrderingColumn where
  id : ℕ
  descending : Bool
deriving DecidableEq

/-- There is always at least one column. -/
structure Columns where
  firstCol : OrderingColumn
  otherCols : List OrderingColumn
deriving DecidableEq

def Columns.toList (c : Columns) : List OrderingColumn := c.firstCol :: c.otherCols

def Columns.count (c : Columns) : ℕ := 1 + c.otherCols.length

theorem Columns.length_toList (c : Columns) : c.toList.length = c.count := by
  rw [toList, List.length_cons, count, Nat.add_comm]

/-- What a key is conceptually suffixed with for the purpose of comparison. -/
inductive KeyExtension where
  | extendLow
  | extendHigh
deriving DecidableEq

def KeyExtension.toCmp : KeyExtension → Ordering
  | extendLow => .lt
  | extendHigh => .gt

/-- The values of the first columns. -/
abbrev Key (D : Type*) := List D

section Compare

variable {D : Type*} [LinearOrder D]

def OrderingColumn.compare (col : OrderingColumn) (a b : D) : Ordering :=
  if col.descending then (cmp a b).swap else cmp a b

def Key.compare : List OrderingColumn → Key D → Key D → KeyExtension → KeyExtension → Ordering
  | col :: cols, a :: k, b :: l, kext, lext =>
    match col.compare a b with
    | .eq => Key.compare cols k l kext lext
    | o => o
  | _, [], _ :: _, kext, _ => kext.toCmp
  | _, _ :: _, [], _, lext => lext.toCmp.swap
  | _, _, _, kext, lext => if kext = lext then .eq else kext.toCmp

end Compare

inductive SpanBoundary where
  | includeBoundary
  | excludeBoundary
deriving DecidableEq

/-- The range between two keys. An empty key at a boundary does not constrain anything, and there is
only one representation for it. -/
structure Span (D : Type*) where
  start : Key D
  stop : Key D
  startBoundary : SpanBoundary
  stopBoundary : SpanBoundary
  start_empty : start = [] → startBoundary = .includeBoundary
  stop_empty : stop = [] → stopBoundary = .includeBoundary

namespace Span

variable {D : Type*}

def startExt (sp : Span D) : KeyExtension :=
  match sp.startBoundary with
  | .includeBoundary => .extendLow
  | .excludeBoundary => .extendHigh

def endExt (sp : Span D) : KeyExtension :=
  match sp.stopBoundary with
  | .includeBoundary => .extendHigh
  | .excludeBoundary => .extendLow

theorem startExt_eq_extendLow {sp : Span D} :
    sp.startExt = .extendLow ↔ sp.startBoundary = .includeBoundary := by
  unfold startExt
  cases sp.startBoundary <;> simp

theorem endExt_eq_extendHigh {sp : Span D} :
    sp.endExt = .extendHigh ↔ sp.stopBoundary = .includeBoundary := by
  unfold endExt
  cases sp.stopBoundary <;> simp

variable [LinearOrder D]

/-- The null value is the smallest one. -/
def isUnconstrained [OrderBot D] (sp : Span D) : Bool :=
  (sp.start = [] ∨ sp.start = [⊥] ∧ sp.startBoundary = .includeBoundary) ∧ sp.stop = []

variable (cols : List OrderingColumn) (sp other : Span D)

def compareStarts : Ordering :=
  sp.start.compare cols other.start sp.startExt other.startExt

def compareEnds : Ordering :=
  sp.stop.compare cols other.stop sp.endExt other.endExt

def compare : Ordering :=
  match sp.compareStarts cols other with
  | .eq => sp.compareEnds cols other
  | o => o

def startsAfter : Bool :=
  sp.start.compare cols other.stop sp.startExt other.endExt != .lt

def startsStrictlyAfter : Bool :=
  sp.start.compare cols other.stop sp.startExt other.endExt == .gt

def withStart : Span D :=
  { sp with start := other.start, startBoundary := other.startBoundary,
            start_empty := other.start_empty }

def withEnd : Span D :=
  { sp with stop := other.stop, stopBoundary := other.stopBoundary,
            stop_empty := other.stop_empty }

/-- The overlap of two spans, if there is one. -/
def tryIntersectWith : Option (Span D) :=
  let cmpStarts := sp.compareStarts cols other
  let cmpEnds := sp.compareEnds cols other
  if cmpStarts = .gt ∧ sp.start.compare cols other.stop sp.startExt other.endExt ≠ .lt then none
  else if cmpEnds = .lt ∧ sp.stop.compare cols other.start sp.endExt other.startExt ≠ .gt then none
  else
    let sp := if cmpStarts = .lt then sp.withStart other else sp
    some (if cmpEnds = .gt then sp.withEnd other else sp)

/-- The merged span, unless there is space between the two. -/
def tryUnionWith : Option (Span D) :=
  let cmpStartKeys := sp.compareStarts cols other
  let cmp := match cmpStartKeys with
    | .lt => sp.stop.compare cols other.start sp.endExt other.startExt
    | .gt => other.stop.compare cols sp.start other.endExt sp.startExt
    | .eq => .eq
  if cmp = .lt then none
  else
    let cmpEndKeys := sp.compareEnds cols other
    let sp := if cmpStartKeys = .gt then sp.withStart other else sp
    some (if cmpEndKeys = .lt then sp.withEnd other else sp)

end Span

end Cockroach.Opt
