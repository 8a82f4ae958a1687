import Cockroach.Hlc.Timestamp
import Cockroach.Library.ByteOrder

/-! The resolved timestamp of a rangefeed and the queue of unresolved intents behind it. A panic is
a missing result. -/
namespace Cockroach.RangeFeed
open ByteOrder Hlc

structure UnresolvedTxn where
  txnID : ℕ
  txnKey : Bytes
  txnMinTimestamp : Timestamp
  timestamp : Timestamp
  /-- The number of unresolved intents. -/
  refCount : ℤ

/-- The older one comes first; the smaller ID breaks ties. -/
def UnresolvedTxn.less (t u : UnresolvedTxn) : Bool :=
  if t.timestamp.EqOrdering u.timestamp then t.txnID < u.txnID else t.timestamp.Less u.timestamp

/-- The transactions with unresolved intents. The heap has the smallest one at its first index. -/
structure UnresolvedIntentQueue where
  txns : List UnresolvedTxn
  allowNegRefCount : Bool

namespace UnresolvedIntentQueue

def empty : UnresolvedIntentQueue := ⟨[], true⟩

def find (uiq : UnresolvedIntentQueue) (txnID : ℕ) : Option UnresolvedTxn :=
  uiq.txns.find? fun t => t.txnID = txnID

def push (uiq : UnresolvedIntentQueue) (txn : UnresolvedTxn) : UnresolvedIntentQueue :=
  { uiq with txns := txn :: uiq.txns }

def remove (uiq : UnresolvedIntentQueue) (txnID : ℕ) : UnresolvedIntentQueue :=
  { uiq with txns := uiq.txns.filter fun t => t.txnID ≠ txnID }

def oldestOf : List UnresolvedTxn → Option UnresolvedTxn
  | [] => none
  | t :: ts =>
    match oldestOf ts with
    | none => some t
    | some u => if u.less t then some u else some t

def oldest (uiq : UnresolvedIntentQueue) : Option UnresolvedTxn := oldestOf uiq.txns

/-- The transaction is at the first index of the heap. -/
def isMin (uiq : UnresolvedIntentQueue) (txnID : ℕ) : Bool :=
  (uiq.oldest.map UnresolvedTxn.txnID) = some txnID

/-- Returns whether the oldest transaction may have moved forward. -/
def updateTxn (uiq : UnresolvedIntentQueue) (txnID : ℕ) (txnKey : Bytes) (txnMinTS ts : Timestamp)
    (delta : ℤ) : Bool × UnresolvedIntentQueue :=
  match uiq.find txnID with
  | none =>
    if delta = 0 ∨ delta < 0 ∧ uiq.allowNegRefCount = false then (false, uiq)
    else (false, uiq.push ⟨txnID, txnKey, txnMinTS, ts, delta⟩)
  | some txn =>
    let wasMin := uiq.isMin txnID
    let refCount := txn.refCount + delta
    if refCount = 0 ∨ refCount < 0 ∧ uiq.allowNegRefCount = false then
      (wasMin, uiq.remove txnID)
    else
      let timestamp := txn.timestamp.forward ts
      (if txn.timestamp.Less ts then wasMin else false,
        (uiq.remove txnID).push { txn with timestamp, refCount })

def incRef (uiq : UnresolvedIntentQueue) (txnID : ℕ) (txnKey : Bytes) (txnMinTS ts : Timestamp) :
    Bool × UnresolvedIntentQueue := uiq.updateTxn txnID txnKey txnMinTS ts 1

def decrRef (uiq : UnresolvedIntentQueue) (txnID : ℕ) (ts : Timestamp) :
    Bool × UnresolvedIntentQueue := uiq.updateTxn txnID [] .empty ts (-1)

def updateTS (uiq : UnresolvedIntentQueue) (txnID : ℕ) (ts : Timestamp) :
    Bool × UnresolvedIntentQueue := uiq.updateTxn txnID [] .empty ts 0

def del (uiq : UnresolvedIntentQueue) (txnID : ℕ) : Bool × UnresolvedIntentQueue :=
  match uiq.find txnID with
  | none => (false, uiq)
  | some _ => (uiq.isMin txnID, uiq.remove txnID)

/-- Forbid negative reference counts; panics if there is one that is not positive. -/
def disallowNegRefCount (uiq : UnresolvedIntentQueue) : Option UnresolvedIntentQueue :=
  if uiq.txns.any fun t => t.refCount ≤ 0 then none else some { uiq with allowNegRefCount := false }

end UnresolvedIntentQueue

inductive LogicalOp where
  | writeValue (ts : Timestamp)
  | writeIntent (txnID : ℕ) (txnKey : Bytes) (txnMinTS ts : Timestamp)
  | updateIntent (txnID : ℕ) (ts : Timestamp)
  | commitIntent (txnID : ℕ) (ts : Timestamp)
  | abortIntent (txnID : ℕ)
  | abortTxn (txnID : ℕ)

structure ResolvedTimestamp where
  isInit : Bool
  closedTS : Timestamp
  resolvedTS : Timestamp
  intentQ : UnresolvedIntentQueue

namespace ResolvedTimestamp

def make : ResolvedTimestamp := ⟨false, .empty, .empty, .empty⟩

/-- The closed timestamp, or what lies before the oldest transaction if that is earlier. -/
def target (rts : ResolvedTimestamp) : Option Timestamp :=
  match rts.intentQ.oldest with
  | none => some rts.closedTS
  | some txn =>
    if txn.timestamp.LessEq rts.resolvedTS then none
    else txn.timestamp.prev.map rts.closedTS.backward

/-- Returns whether the resolved timestamp moved forward. -/
def recompute (rts : ResolvedTimestamp) : Option (Bool × ResolvedTimestamp) :=
  if rts.isInit = false then some (false, rts)
  else if rts.closedTS.Less rts.resolvedTS then none
  else do
    let newTS := (← rts.target).floor
    if newTS.Less rts.resolvedTS then none
    else some (rts.resolvedTS.Less newTS, { rts with resolvedTS := rts.resolvedTS.forward newTS })

def assertNoChange (rts : ResolvedTimestamp) : Option ResolvedTimestamp := do
  let (changed, rts') ← rts.recompute
  if changed ∨ ¬ rts.resolvedTS.EqOrdering rts'.resolvedTS then none else some rts'

/-- Recompute after a change, or check that there is none. -/
def settle (changed : Bool) (rts : ResolvedTimestamp) : Option (Bool × ResolvedTimestamp) :=
  if changed then rts.recompute else rts.assertNoChange.map (false, ·)

def init (rts : ResolvedTimestamp) : Option (Bool × ResolvedTimestamp) := do
  let intentQ ← rts.intentQ.disallowNegRefCount
  recompute { rts with isInit := true, intentQ }

def forwardClosedTS (newClosedTS : Timestamp) (rts : ResolvedTimestamp) :
    Option (Bool × ResolvedTimestamp) :=
  settle (rts.closedTS.Less newClosedTS) { rts with closedTS := rts.closedTS.forward newClosedTS }

/-- Fails if the timestamp of an operation is resolved already. -/
def assertOpAboveRTS (rts : ResolvedTimestamp) (opTS : Timestamp) : Option Unit :=
  if opTS.LessEq rts.resolvedTS then none else some ()

def withQueue (rts : ResolvedTimestamp) (r : Bool × UnresolvedIntentQueue) :
    Bool × ResolvedTimestamp := (r.1, { rts with intentQ := r.2 })

/-- Track the intents; returns whether the oldest transaction may have moved forward. -/
def consume (rts : ResolvedTimestamp) : LogicalOp → Option (Bool × ResolvedTimestamp)
  | .writeValue ts => do
    rts.assertOpAboveRTS ts
    return (false, rts)
  | .writeIntent txnID txnKey txnMinTS ts => do
    rts.assertOpAboveRTS ts
    return rts.withQueue (rts.intentQ.incRef txnID txnKey txnMinTS ts)
  | .updateIntent txnID ts => some (rts.withQueue (rts.intentQ.updateTS txnID ts))
  | .commitIntent txnID ts => some (rts.withQueue (rts.intentQ.decrRef txnID ts))
  | .abortIntent txnID => some (rts.withQueue (rts.intentQ.decrRef txnID .empty))
  | .abortTxn txnID =>
    -- Until all intents are known, the reference counts have to stay balanced.
    if rts.isInit = false then some (false, rts) else some (rts.withQueue (rts.intentQ.del txnID))

def consumeLogicalOp (op : LogicalOp) (rts : ResolvedTimestamp) :
    Option (Bool × ResolvedTimestamp) := do
  let (changed, rts) ← rts.consume op
  rts.settle changed

end ResolvedTimestamp

end Cockroach.RangeFeed
