import Cockroach.Roachpb.Transaction

/-! The latch manager: snapshots, insertion and removal of latches, and what a request waits for. -/
namespace Cockroach.SpanLatch
open ByteOrder Hlc Roachpb
open Function (update)

inductive SpanAccess where
  | readOnly
  | readWrite
deriving DecidableEq, Repr

inductive SpanScope where
  | global
  | local
deriving DecidableEq, Repr

/-- The spans that a request touches, each with the timestamp of the access. -/
abbrev SpanSet := SpanAccess → SpanScope → List (Span × Timestamp)

/-- The latch of one span, with the number of the guard that owns it. -/
structure Latch where
  id : ℕ
  guard : ℕ
  span : Span
  ts : Timestamp
deriving DecidableEq, Repr

/-- A key lies below the upper bound of a span; a span without an end key is a single key. -/
def belowUpperBound (key : Bytes) (span : Span) : Bool :=
  if span.endKey ≠ [] then bytesCompare key span.endKey = .lt
  else bytesCompare key span.key ≠ .gt

/-- Two spans overlap in the interval tree: each starts below the upper bound of the other. -/
def overlaps (a b : Span) : Bool := belowUpperBound a.key b && belowUpperBound b.key a

theorem overlaps_comm (a b : Span) : overlaps a b = overlaps b a := by
  exact Bool.and_comm _ _

/-- The latches of one scope. Reads wait in a list until a write needs them in the tree. -/
structure ScopedManager where
  readSet : List Latch
  trees : SpanAccess → List Latch

structure Manager where
  idAlloc : ℕ
  scopes : SpanScope → ScopedManager

def Manager.initial : Manager := ⟨0, fun _ => ⟨[], fun _ => []⟩⟩

/-- The trees that a request has to look at. -/
abbrev Snapshot := SpanScope → SpanAccess → List Latch

/-- The latches of a request, by scope and access. -/
abbrev Latches := SpanScope → SpanAccess → List Latch

/-- The latches for the spans, which get their ids when they are inserted. -/
def newGuard (guard : ℕ) (spans : SpanSet) : Latches := fun s a =>
  (spans a s).map fun sp => ⟨0, guard, sp.1, sp.2⟩

/-- Move the reads of the list into the tree. -/
def ScopedManager.flushReadSetLocked (sm : ScopedManager) : ScopedManager where
  readSet := []
  trees := update sm.trees .readOnly (sm.trees .readOnly ++ sm.readSet)

/-- The manager and the snapshot of one scope. -/
def ScopedManager.snapshotLocked (sm : ScopedManager) (reading writing : Bool) :
    ScopedManager × (SpanAccess → List Latch) :=
  let sm := if writing then sm.flushReadSetLocked else sm
  (sm, fun
    | .readOnly => if writing then sm.trees .readOnly else []
    | .readWrite => if writing || reading then sm.trees .readWrite else [])

def Manager.snapshotLocked (m : Manager) (spans : SpanSet) : Manager × Snapshot :=
  let perScope s := (m.scopes s).snapshotLocked (spans .readOnly s ≠ []) (spans .readWrite s ≠ [])
  ({ m with scopes := fun s => (perScope s).1 }, fun s => (perScope s).2)

/-- The latches with consecutive ids. -/
def assignIDs (idAlloc : ℕ) : List Latch → List Latch
  | [] => []
  | l :: ls => { l with id := idAlloc + 1 } :: assignIDs (idAlloc + 1) ls

/-- Insert the latches of one scope and access. -/
def Manager.insertAt (m : Manager) (latches : Latches) (s : SpanScope) (a : SpanAccess) :
    Manager × Latches :=
  let inserted := assignIDs m.idAlloc (latches s a)
  let sm := m.scopes s
  let sm := match a with
    | .readOnly => { sm with readSet := sm.readSet ++ inserted }
    | .readWrite =>
      { sm with trees := update sm.trees .readWrite (sm.trees .readWrite ++ inserted) }
  (⟨m.idAlloc + inserted.length, update m.scopes s sm⟩,
    update latches s (update (latches s) a inserted))

/-- The scopes and accesses in the order in which the loops go through them. -/
def scopesAndAccesses : List (SpanScope × SpanAccess) :=
  [(.global, .readOnly), (.global, .readWrite), (.local, .readOnly), (.local, .readWrite)]

def Manager.insertLocked (m : Manager) (latches : Latches) : Manager × Latches :=
  scopesAndAccesses.foldl (fun r sa => r.1.insertAt r.2 sa.1 sa.2) (m, latches)

/-- Take a snapshot and insert the latches of a new guard. -/
def Manager.sequence (m : Manager) (guard : ℕ) (spans : SpanSet) : Manager × Latches × Snapshot :=
  let (m, snap) := m.snapshotLocked spans
  let (m, latches) := m.insertLocked (newGuard guard spans)
  (m, latches, snap)

def ignoreLater (ts other : Timestamp) : Bool := ¬ ts.IsEmpty ∧ ts.Less other

def ignoreEarlier (ts other : Timestamp) : Bool := ¬ other.IsEmpty ∧ other.Less ts

def ignoreNothing (_ts _other : Timestamp) : Bool := false

/-- A latch of the snapshot that a wait comes by. -/
structure WaitItem where
  wait : Latch
  held : Latch
  ignored : Bool

/-- What `iterAndWait` goes through: the latches of the tree that overlap. -/
def iterItems (tree : List Latch) (wait : Latch) (ignore : Timestamp → Timestamp → Bool) :
    List WaitItem :=
  (tree.filter fun held => overlaps wait.span held.span).map fun held =>
    ⟨wait, held, ignore wait.ts held.ts⟩

/-- What one latch waits for. -/
def latchItems (tr : SpanAccess → List Latch) (a : SpanAccess) (latch : Latch) : List WaitItem :=
  match a with
  | .readOnly => iterItems (tr .readWrite) latch ignoreLater
  | .readWrite =>
    iterItems (tr .readWrite) latch ignoreNothing ++ iterItems (tr .readOnly) latch ignoreEarlier

/-- What `wait` goes through, in order. -/
def waitItems (latches : Latches) (snap : Snapshot) : List WaitItem :=
  scopesAndAccesses.flatMap fun sa =>
    (latches sa.1 sa.2).flatMap (latchItems (snap sa.1) sa.2)

/-- Whether the tree has a latch that overlaps and is not ignored. -/
def treeOverlaps (tree : List Latch) (span : Span) (ts : Timestamp)
    (ignore : Timestamp → Timestamp → Bool) : Bool :=
  tree.any fun held => overlaps span held.span && !ignore ts held.ts

/-- No span conflicts with a latch of the snapshot, released or not. -/
def checkOptimisticNoConflicts (snap : Snapshot) (spans : SpanSet) : Bool :=
  scopesAndAccesses.all fun sa =>
    (spans sa.2 sa.1).all fun sp =>
      match sa.2 with
      | .readOnly => !treeOverlaps (snap sa.1 .readWrite) sp.1 sp.2 ignoreLater
      | .readWrite =>
        !treeOverlaps (snap sa.1 .readWrite) sp.1 sp.2 ignoreNothing &&
          !treeOverlaps (snap sa.1 .readOnly) sp.1 sp.2 ignoreEarlier

def dropLatch (latch : Latch) (ls : List Latch) : List Latch := ls.filter fun l => l.id ≠ latch.id

/-- Remove one latch from the list of reads or from its tree. -/
def ScopedManager.removeLatch (sm : ScopedManager) (a : SpanAccess) (latch : Latch) :
    ScopedManager :=
  if sm.readSet.any fun l => l.id = latch.id then
    { sm with readSet := dropLatch latch sm.readSet }
  else { sm with trees := update sm.trees a (dropLatch latch (sm.trees a)) }

def Manager.removeAt (m : Manager) (latches : Latches) (s : SpanScope) (a : SpanAccess) : Manager :=
  { m with
    scopes := update m.scopes s
      ((latches s a).foldl (fun sm l => sm.removeLatch a l) (m.scopes s)) }

def Manager.removeLocked (m : Manager) (latches : Latches) : Manager :=
  scopesAndAccesses.foldl (fun m sa => m.removeAt latches sa.1 sa.2) m

end Cockroach.SpanLatch
