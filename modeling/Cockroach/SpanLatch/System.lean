import Cockroach.SpanLatch.Manager

/-! The requests of a latch manager and the steps they take in any order. -/
namespace Cockroach.SpanLatch
open ByteOrder Hlc Roachpb

/-- What a request does when it waits for a poisoned latch. -/
inductive Policy where
  | wait
  | error
deriving DecidableEq, Repr

/-- How far an acquisition is. -/
inductive Phase where
  | waiting (items : List WaitItem)
  | optimistic (snap : Snapshot)
  | acquired
  | failed

/-- A guard with the signals that its latches share, and the spans for which an optimistic check
has found no conflicts. -/
structure Guard where
  latches : Latches
  pp : Policy
  phase : Phase
  checked : List SpanSet
  poisoned : Bool
  done : Bool
  removed : Bool

structure System where
  manager : Manager
  guards : List Guard

namespace System

def initial : System := ⟨.initial, []⟩

/-- The latches of the guard are signaled as released. -/
def signaled (σ : System) (i : ℕ) : Bool := σ.guards[i]?.any fun g => g.done

def poisonedAt (σ : System) (i : ℕ) : Bool := σ.guards[i]?.any fun g => g.poisoned

end System

/-- The atomic steps. The release of latches has two: the signal, and the removal. -/
inductive Event where
  | acquire (spans : SpanSet) (pp : Policy)
  | acquireOptimistic (spans : SpanSet) (pp : Policy)
  | waitFor (spans : SpanSet)
  | checkOptimisticNoConflicts (i : ℕ) (spans : SpanSet)
  | waitUntilAcquired (i : ℕ)
  /-- The wait goes on to the next latch of the snapshot. -/
  | advance (i : ℕ)
  | finish (i : ℕ)
  /-- The context is cancelled or the server quiesces. -/
  | cancel (i : ℕ)
  | observePoison (i : ℕ)
  | poison (i : ℕ)
  | signal (i : ℕ)
  | remove (i : ℕ)

/-- The wait is over with this latch. -/
def WaitItem.passed (σ : System) (item : WaitItem) : Bool :=
  σ.signaled item.held.guard || item.ignored

namespace Guard

/-- What a guard does on its own, if it can. -/
def step (σ : System) (g : Guard) : Event → Option Guard
  | .checkOptimisticNoConflicts _ spans =>
    match g.phase with
    | .optimistic snap =>
      some (if SpanLatch.checkOptimisticNoConflicts snap spans then
        { g with checked := spans :: g.checked } else g)
    | _ => none
  | .waitUntilAcquired _ =>
    match g.phase with
    | .optimistic snap => some { g with phase := .waiting (waitItems g.latches snap) }
    | _ => none
  | .advance _ =>
    match g.phase with
    | .waiting (item :: rest) =>
      if item.passed σ then some { g with phase := .waiting rest } else none
    | _ => none
  | .finish _ =>
    match g.phase with
    | .waiting [] => some { g with phase := .acquired }
    | _ => none
  | .cancel _ =>
    match g.phase with
    | .waiting (item :: _) => if item.ignored then none else some { g with phase := .failed }
    | _ => none
  | .observePoison _ =>
    match g.phase with
    | .waiting (item :: _) =>
      if item.ignored = false ∧ σ.poisonedAt item.held.guard = true then
        match g.pp with
        | .error => some { g with phase := .failed }
        | .wait => some { g with poisoned := true }
      else none
    | _ => none
  | .poison _ => some { g with poisoned := true }
  | .signal _ =>
    match g.phase with
    | .waiting _ => none
    | _ => if g.done then none else some { g with done := true }
  | _ => none

end Guard

namespace System

/-- A new guard with its latches in the manager. -/
def sequence (σ : System) (spans : SpanSet) (pp : Policy) (phase : Latches → Snapshot → Phase) :
    System :=
  let (m, latches, snap) := σ.manager.sequence σ.guards.length spans
  ⟨m, σ.guards ++ [⟨latches, pp, phase latches snap, [], false, false, false⟩]⟩

def updateGuard (σ : System) (i : ℕ) (e : Event) : Option System :=
  match σ.guards[i]? with
  | none => none
  | some g => (g.step σ e).map fun g => { σ with guards := σ.guards.set i g }

/-- The system after a step, if the step can be taken. -/
def step (σ : System) (e : Event) : Option System :=
  match e with
  | .acquire spans pp =>
    some (σ.sequence spans pp fun latches snap => .waiting (waitItems latches snap))
  | .acquireOptimistic spans pp => some (σ.sequence spans pp fun _ snap => .optimistic snap)
  | .waitFor spans => some { σ with manager := (σ.manager.snapshotLocked spans).1 }
  | .remove i =>
    match σ.guards[i]? with
    | none => none
    | some g =>
      if g.done && !g.removed then
        some ⟨σ.manager.removeLocked g.latches, σ.guards.set i { g with removed := true }⟩
      else none
  | .checkOptimisticNoConflicts i _ | .waitUntilAcquired i | .advance i | .finish i | .cancel i
  | .observePoison i | .poison i | .signal i => σ.updateGuard i e

end System

/-- One access to a span. -/
structure Access where
  scope : SpanScope
  access : SpanAccess
  span : Span
  ts : Timestamp

/-- Two accesses must not happen at the same time. A read at a timestamp lets later writes pass. -/
def Conflict (x y : Access) : Prop :=
  x.scope = y.scope ∧ overlaps x.span y.span = true ∧
    (x.access = .readWrite ∨ y.access = .readWrite) ∧
    (x.access = .readOnly → ¬ x.ts.IsEmpty → ¬ x.ts.Less y.ts) ∧
    (y.access = .readOnly → ¬ y.ts.IsEmpty → ¬ y.ts.Less x.ts)

def Latch.asAccess (s : SpanScope) (a : SpanAccess) (l : Latch) : Access := ⟨s, a, l.span, l.ts⟩

/-- A span lies within another one. -/
def Within (inner outer : Span) : Prop :=
  bytesCompare outer.key inner.key ≠ .gt ∧
    ∀ key, belowUpperBound key inner = true → belowUpperBound key outer = true

/-- An optimistic check is for spans that the guard has latched. -/
def Event.Valid (σ : System) : Event → Prop
  | .checkOptimisticNoConflicts i spans => ∀ g, σ.guards[i]? = some g → ∀ s a, ∀ sp ∈ spans a s,
      ∃ l ∈ g.latches s a, Within sp.1 l.span ∧ l.ts = sp.2
  | _ => True

/-- The states of a latch manager and its requests. -/
inductive Reachable : System → Prop where
  | initial : Reachable .initial
  | step {σ σ' : System} (e : Event) : Reachable σ → e.Valid σ → σ.step e = some σ' → Reachable σ'

/-- A guard has acquired latches for an access and not released them: it has waited for its
latches, or has checked the span. -/
def System.Holds (σ : System) (i : ℕ) (x : Access) : Prop :=
  ∃ g, σ.guards[i]? = some g ∧ g.done = false ∧
    (g.phase = .acquired ∧ (∃ l ∈ g.latches x.scope x.access, l.asAccess x.scope x.access = x) ∨
      ∃ spans ∈ g.checked, (x.span, x.ts) ∈ spans x.access x.scope)

/-- A guard waits for a latch of another one. -/
def System.WaitsFor (σ : System) (i j : ℕ) (item : WaitItem) : Prop :=
  ∃ g rest, σ.guards[i]? = some g ∧ g.phase = .waiting (item :: rest) ∧ item.passed σ = false ∧
    item.held.guard = j

end Cockroach.SpanLatch
