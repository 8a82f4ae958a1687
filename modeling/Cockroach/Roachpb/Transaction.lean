import Cockroach.Library.Search
import Cockroach.Roachpb.Data
import Cockroach.Storage.Scanner

/-! Transactions as they travel with requests, and the part that is kept in their records. -/
namespace Cockroach.Roachpb
open ByteOrder Hlc Storage

structure Span where
  key : Bytes
  endKey : Bytes
deriving DecidableEq, Repr

/-- Spans are sorted by their start and then by their end. -/
def Span.le (a b : Span) : Bool :=
  match bytesCompare a.key b.key with
  | .lt => true
  | .gt => false
  | .eq => bytesCompare a.endKey b.endKey ≠ .gt

/-- A span whose end key may be nil. -/
structure RawSpan where
  key : Bytes
  endKey : Option Bytes
deriving DecidableEq, Repr

namespace RawSpan

/-- The bytes of the end key; there are none in that of a point. -/
def stop (s : RawSpan) : Bytes := s.endKey.getD []

def toSpan (s : RawSpan) : Span := ⟨s.key, s.stop⟩

def le (a b : RawSpan) : Bool := a.toSpan.le b.toSpan

/-- The last one of the merged spans with the next one in it, unless that starts a new span, and
whether the two are distinct. -/
def merge (prev cur : RawSpan) : Option RawSpan × Bool :=
  if cur.stop = [] ∧ prev.stop = [] then
    if cur.key ≠ prev.key then (none, true) else (some prev, false)
  else if prev.stop = [] then
    if cur.key = prev.key then (some { prev with endKey := cur.endKey }, false) else (none, true)
  else if bytesCompare prev.stop cur.key = .lt then (none, true)
  else
    match cur.endKey with
    | some endKey =>
      if bytesCompare prev.stop endKey = .lt then
        (some { prev with endKey := cur.endKey }, bytesCompare prev.stop cur.key ≠ .gt)
      else (some prev, false)
    | none =>
      if bytesCompare prev.stop cur.key = .eq then
        (some { prev with endKey := some (cur.key ++ [0]) }, true)
      else (some prev, false)

/-- The loop over the sorted spans, with the span that was built last. -/
def mergeLoop (prev : RawSpan) (distinct : Bool) : List RawSpan → List RawSpan × Bool
  | [] => ([prev], distinct)
  | cur :: rest =>
    match prev.merge cur with
    | (some merged, d) => mergeLoop merged (distinct && d) rest
    | (none, d) =>
      let (r, distinct) := mergeLoop cur (distinct && d) rest
      (prev :: r, distinct)

def mergeSorted : List RawSpan → List RawSpan × Bool
  | [] => ([], true)
  | s :: rest => mergeLoop s true rest

def mergeSpans (spans : List RawSpan) : List RawSpan × Bool := mergeSorted (spans.mergeSort le)

/-- A span whose empty end key is nil. -/
def ofSpan (s : Span) : RawSpan := ⟨s.key, if s.endKey = [] then none else some s.endKey⟩

end RawSpan

def mergeSpans (spans : List Span) : List Span :=
  (RawSpan.mergeSpans (spans.map RawSpan.ofSpan)).1.map RawSpan.toSpan

/-- A write by its key and its sequence number. -/
structure SequencedWrite where
  key : Bytes
  sequence : ℤ
deriving DecidableEq, Repr

structure ObservedTimestamp where
  nodeID : ℤ
  timestamp : Timestamp
deriving DecidableEq, Repr

instance : Inhabited ObservedTimestamp := ⟨⟨0, .empty⟩⟩

structure Transaction extends Storage.Transaction where
  status : TransactionStatus
  lastHeartbeat : Timestamp
  globalUncertaintyLimit : Timestamp
  observedTimestamps : List ObservedTimestamp
  writeTooOld : Bool
  commitTimestampFixed : Bool
  lockSpans : List Span
  inFlightWrites : List SequencedWrite
deriving DecidableEq, Repr

structure TransactionRecord extends TxnMeta where
  status : TransactionStatus
  lastHeartbeat : Timestamp
  lockSpans : List Span
  inFlightWrites : List SequencedWrite
  ignoredSeqNums : List IgnoredSeqNumRange
deriving DecidableEq, Repr

/-- The fields of a transaction that are persisted. -/
def Transaction.asRecord (t : Transaction) : TransactionRecord where
  toTxnMeta := t.toTxnMeta
  status := t.status
  lastHeartbeat := t.lastHeartbeat
  lockSpans := t.lockSpans
  inFlightWrites := t.inFlightWrites
  ignoredSeqNums := t.ignoredSeqNums

/-- The transaction that is read from its record, with nothing in the other fields. -/
def TransactionRecord.asTransaction (r : TransactionRecord) : Transaction where
  toTxnMeta := r.toTxnMeta
  readTimestamp := .empty
  ignoredSeqNums := r.ignoredSeqNums
  status := r.status
  lastHeartbeat := r.lastHeartbeat
  globalUncertaintyLimit := .empty
  observedTimestamps := []
  writeTooOld := false
  commitTimestampFixed := false
  lockSpans := r.lockSpans
  inFlightWrites := r.inFlightWrites

/-- Where a node's timestamp is or would be. -/
def observedTimestampIndex (s : List ObservedTimestamp) (nodeID : ℤ) : ℕ :=
  Search.search s.length fun i => (s.getD i default).nodeID ≥ nodeID

/-- The lowest timestamp of a node prevails. -/
def updateObservedTimestamp (s : List ObservedTimestamp) (o : ObservedTimestamp) :
    List ObservedTimestamp :=
  let i := observedTimestampIndex s o.nodeID
  if i < s.length ∧ (s.getD i default).nodeID = o.nodeID then
    if o.timestamp.Less (s.getD i default).timestamp then s.set i o else s
  else s.take i ++ o :: s.drop i

namespace Transaction

def minTxnPriority : ℤ := 0
def maxTxnPriority : ℤ := 2 ^ 31 - 1

/-- The last time at which client activity definitely occurred. -/
def lastActive (t : Transaction) : Timestamp :=
  if t.readTimestamp.synthetic = false then t.lastHeartbeat.forward t.readTimestamp
  else t.lastHeartbeat

/-- The priority is raised unless it is the minimum. -/
def upgradePriority (t : Transaction) (minPriority : ℤ) : Transaction :=
  if minPriority > t.priority ∧ t.priority ≠ minTxnPriority then { t with priority := minPriority }
  else t

/-- The status after an update by a transaction of the same epoch. -/
def sameEpochStatus (status other : TransactionStatus) : TransactionStatus :=
  match status with
  | .pending => other
  | .staging => if other ≠ .pending then other else .staging
  | .aborted => .aborted
  | .committed => .committed

/-- The part of an update that depends on the epochs. -/
def updateEpoch (t o : Transaction) : Transaction :=
  if t.epoch < o.epoch then
    { t with
      epoch := o.epoch, status := o.status, writeTooOld := o.writeTooOld
      commitTimestampFixed := o.commitTimestampFixed, sequence := o.sequence
      lockSpans := o.lockSpans, inFlightWrites := o.inFlightWrites
      ignoredSeqNums := o.ignoredSeqNums }
  else if t.epoch = o.epoch then
    { t with
      status := sameEpochStatus t.status o.status
      -- A higher read timestamp comes from a refresh and dictates the flags.
      writeTooOld :=
        if t.readTimestamp = o.readTimestamp then t.writeTooOld || o.writeTooOld
        else if t.readTimestamp.Less o.readTimestamp then o.writeTooOld else t.writeTooOld
      commitTimestampFixed :=
        if t.readTimestamp = o.readTimestamp then t.commitTimestampFixed || o.commitTimestampFixed
        else if t.readTimestamp.Less o.readTimestamp then o.commitTimestampFixed
        else t.commitTimestampFixed
      sequence := if t.sequence < o.sequence then o.sequence else t.sequence
      lockSpans := if o.lockSpans ≠ [] then o.lockSpans else t.lockSpans
      inFlightWrites := if o.inFlightWrites ≠ [] then o.inFlightWrites else t.inFlightWrites
      ignoredSeqNums := if o.ignoredSeqNums ≠ [] then o.ignoredSeqNums else t.ignoredSeqNums }
  else { t with status := if o.status = .aborted then .aborted else t.status }

/-- The part of an update that only goes up, or down for the minimum timestamp. -/
def updateTimestamps (t o : Transaction) : Transaction :=
  { t with
    writeTimestamp := t.writeTimestamp.forward o.writeTimestamp
    lastHeartbeat := t.lastHeartbeat.forward o.lastHeartbeat
    globalUncertaintyLimit := t.globalUncertaintyLimit.forward o.globalUncertaintyLimit
    readTimestamp := t.readTimestamp.forward o.readTimestamp
    minTimestamp :=
      if t.minTimestamp.IsEmpty then o.minTimestamp
      else if ¬ o.minTimestamp.IsEmpty then t.minTimestamp.backward o.minTimestamp
      else t.minTimestamp
    observedTimestamps := o.observedTimestamps.foldl updateObservedTimestamp t.observedTimestamps }

/-- Ratchet a transaction by what is known from another copy of it. There is no result where the
code ends the process: on an uninitialized or a different transaction. -/
def update (t o : Transaction) : Option Transaction :=
  if o.id = 0 ∨ o.writeTimestamp.IsEmpty then none
  else if t.id = 0 then some o
  else if t.id ≠ o.id then none
  else
    let t := { t with key := if t.key = [] then o.key else t.key }
    some (((t.updateEpoch o).updateTimestamps o).upgradePriority o.priority)

theorem upgradePriority_eq (t : Transaction) (minPriority : ℤ) :
    ∃ priority, t.upgradePriority minPriority = { t with priority } := by
  unfold upgradePriority
  split_ifs
  · exact ⟨minPriority, rfl⟩
  · exact ⟨t.priority, rfl⟩

theorem update_eq {t o t' : Transaction} (h : t.update o = some t') (hid : t.id = o.id) :
    ∃ priority, t' =
      { (({ t with key := if t.key = [] then o.key else t.key } : Transaction).updateEpoch
          o).updateTimestamps o with priority } := by
  unfold update at h
  by_cases huninit : o.id = 0 ∨ o.writeTimestamp.IsEmpty
  · rw [if_pos huninit] at h
    cases h
  rw [if_neg huninit, if_neg (fun hzero => huninit (.inl (hid ▸ hzero))),
    if_neg (not_not.mpr hid)] at h
  exact ⟨_, (Option.some.inj h).symm.trans (upgradePriority_eq _ _).choose_spec⟩

theorem update_eq_some {t o t' : Transaction} (h : t.update o = some t') (hid : t.id = o.id)
    (hkey : t.key = o.key) (hmin : t.minTimestamp = o.minTimestamp) :
    t'.id = t.id ∧ t'.key = t.key ∧ t'.minTimestamp = t.minTimestamp := by
  obtain ⟨priority, rfl⟩ := update_eq h hid
  have hback := Timestamp.backward_self o.minTimestamp
  unfold updateEpoch updateTimestamps
  rcases lt_trichotomy t.epoch o.epoch with hlt | heq | hgt <;> grind

end Transaction
end Cockroach.Roachpb
