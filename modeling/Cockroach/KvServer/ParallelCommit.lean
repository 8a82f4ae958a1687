import Cockroach.KvServer.TxnOutcome

/-! Parallel commits: the writes and the attempts of a transaction's coordinator, the commands on
its record, and the recoveries of indeterminate commits. -/
namespace Cockroach.KvServer
open ByteOrder Hlc Roachpb
open Storage hiding Transaction

structure QueryIntentRequest where
  key : Bytes
  txn : TxnMeta
  errorIfMissing : Bool

structure QueryIntentResponse where
  foundIntent : Bool
  txn : Option Transaction

inductive QueryIntentError where
  | transactionUnsupported
  | requestTimestamp (timestamp limit : Timestamp)
  | transactionRetry (reason : TransactionRetryReason)
  | intentMissing (key : Bytes) (intent : Option TxnMeta)

/-- An intent of the epoch with at least the sequence number. -/
def QueryIntentRequest.matchesIntent (args : QueryIntentRequest) (intent : TxnMeta) : Bool :=
  args.txn.id = intent.id ∧ args.txn.epoch = intent.epoch ∧ args.txn.sequence ≤ intent.sequence

/-- The timestamp up to which an intent is not considered pushed. -/
def QueryIntentRequest.cmpTS (args : QueryIntentRequest) (h : Header) : Timestamp :=
  match h.txn with
  | none => args.txn.writeTimestamp
  | some txn => args.txn.writeTimestamp.forward txn.writeTimestamp

def queryIntent (h : Header) (args : QueryIntentRequest) (intent : Option TxnMeta) :
    Except QueryIntentError QueryIntentResponse :=
  if h.txn.any fun txn => txn.id ≠ args.txn.id then .error .transactionUnsupported
  else if h.writeTimestamp.Less args.txn.writeTimestamp then
    .error (.requestTimestamp h.timestamp args.txn.writeTimestamp)
  else
    match intent.filter args.matchesIntent with
    | none =>
      if args.errorIfMissing then .error (.intentMissing args.key intent) else .ok ⟨false, none⟩
    | some found =>
      if (args.cmpTS h).Less found.writeTimestamp then
        -- A pushed intent counts as a missing one.
        if args.errorIfMissing then
          if h.txn.isSome then .error (.transactionRetry .serializable)
          else .error (.intentMissing args.key intent)
        else .ok ⟨false, h.txn.map fun txn => { txn with
          writeTimestamp := txn.writeTimestamp.forward found.writeTimestamp }⟩
      else .ok ⟨true, none⟩

def queryTxn (ec : EvalContext) (txn : TxnMeta) (record : Option TransactionRecord) :
    Transaction :=
  match record with
  | some r => r.asTransaction
  | none => synthesizeTxnFromMeta ec txn

/-- A recovery of an indeterminate commit: the queries of its batch that are not answered yet, the
writes that are not queried yet, and what the answers of the batch say. -/
structure Recovery where
  txn : Transaction
  batch : List SequencedWrite
  rest : List SequencedWrite
  unchanged : Bool
  preventedIntent : Bool

namespace Recovery

def defaultBatchSize : ℕ := 128

def sendBatch (r : Recovery) : Recovery :=
  { r with
    batch := r.rest.take defaultBatchSize, rest := r.rest.drop defaultBatchSize
    unchanged := false }

/-- The probing phase starts with the writes sorted by key. -/
def start (txn : Transaction) : Recovery :=
  let writes := txn.inFlightWrites.mergeSort fun a b => bytesCompare a.key b.key ≠ .gt
  if writes = [] then ⟨txn, [], [], true, false⟩
  else sendBatch ⟨txn, [], writes, true, false⟩

/-- The answers of the batch are there. -/
def Answered (r : Recovery) : Prop := r.batch = [] ∧ r.unchanged = true

def Probed (r : Recovery) : Prop := r.Answered ∧ (r.preventedIntent = true ∨ r.rest = [])

def header (r : Recovery) (now : Timestamp) : Header := ⟨now.forward r.txn.writeTimestamp, none⟩

def queryIntentRequest (r : Recovery) (w : SequencedWrite) : QueryIntentRequest :=
  ⟨w.key, { r.txn.toTxnMeta with sequence := w.sequence }, false⟩

/-- The record shows that the transaction is finalized or goes on. -/
def sees (r : Recovery) (queriedTxn : Transaction) : Bool :=
  queriedTxn.status.isFinalized || r.txn.epoch < queriedTxn.epoch ||
    r.txn.writeTimestamp.Less queriedTxn.writeTimestamp

def recoverTxnRequest (r : Recovery) : RecoverTxnRequest :=
  ⟨r.txn.key, r.txn.toTxnMeta, !r.preventedIntent⟩

end Recovery

/-- A write of the transaction, as it was sent or as it was applied. -/
structure TxnWrite where
  key : Bytes
  epoch : ℤ
  sequence : ℤ
  ts : Timestamp
deriving DecidableEq

/-- An attempt to commit at a position of the coordinator, with the writes that may be in flight. -/
structure Attempt where
  epoch : ℤ
  ts : Timestamp
  writes : List SequencedWrite
deriving DecidableEq

/-- The coordinator of a transaction, with the reads of the timestamp cache, by key, that its writes
meet. What was sent once may still be used later. The failed attempts are those that the coordinator
knows to have failed. -/
structure Coordinator where
  reads : Bytes → Timestamp
  epoch : ℤ
  ts : Timestamp
  positions : List (ℤ × Timestamp)
  sent : List TxnWrite
  applied : List TxnWrite
  attempts : List Attempt
  requests : List Attempt
  staged : List Attempt
  failed : List Attempt

namespace Coordinator

variable (s : Coordinator)

/-- A declared write was applied at or below the timestamp of the attempt. -/
def Landed (a : Attempt) (w : SequencedWrite) : Prop :=
  ∃ l ∈ s.applied, l.key = w.key ∧ l.epoch = a.epoch ∧ w.sequence ≤ l.sequence ∧ l.ts.LessEq a.ts

/-- The coordinator is where the attempt was made. -/
def At (a : Attempt) : Prop := a.epoch = s.epoch ∧ a.ts.EqOrdering s.ts

/-- One of the declared writes has failed or landed above the attempt: it was not applied at or
below the timestamp, and no request that could do so is left. -/
def Failed (a : Attempt) : Prop :=
  ∃ w ∈ a.writes, ¬ s.Landed a w ∧
    ∀ r ∈ s.sent, r.key = w.key → r.epoch = a.epoch → ¬ w.sequence ≤ r.sequence

/-- The coordinator has left the position of the attempt. -/
def Passed (a : Attempt) : Prop := a.epoch < s.epoch ∨ a.ts.Less s.ts

/-- The request to commit is in flight, or has left its record. -/
def Live (a : Attempt) : Prop := a ∈ s.requests ∨ a ∈ s.staged

end Coordinator

/-- The state of a transaction around its commit. The intents are by key. What was seen or answered
once may still be used later. -/
structure CommitState extends Coordinator where
  records : RecordState
  intents : Bytes → Option TxnMeta
  seen : List TxnMeta
  answers : List Transaction
  recoveries : List Recovery

inductive CommitEvent where
  /-- Somebody else reads a key. -/
  | read (key : Bytes) (ts : Timestamp)
  | send (write : SequencedWrite)
  /-- A write is applied and leaves an intent. -/
  | land (write : TxnWrite) (intent : TxnMeta)
  /-- A write ends without being applied. -/
  | fail (write : TxnWrite)
  /-- The coordinator restarts in a newer epoch, or refreshes to a higher timestamp. -/
  | advance (epoch : ℤ) (ts : Timestamp)
  /-- The coordinator learns that an attempt has failed. -/
  | learn (a : Attempt)
  /-- The coordinator sends a request to commit. -/
  | attempt (writes : List SequencedWrite)
  /-- A request to commit is evaluated. -/
  | commit (a : Attempt) (h : Header) (args : EndTxnRequest) (ec : EvalContext)
      (responseTS : Timestamp)
  /-- A request to commit ends without being evaluated. -/
  | drop (a : Attempt)
  | command (c : Command) (ec : EvalContext) (responseTS : Timestamp)
  | gc
  /-- An intent is moved to where its transaction was pushed. -/
  | pushIntent (key : Bytes) (txn : Transaction)
  | resolveIntent (key : Bytes)
  | queryTxn (r : Recovery) (ec : EvalContext)
  | queryIntent (r : Recovery) (w : SequencedWrite) (now : Timestamp)
  | nextBatch (r : Recovery)

namespace CommitState

variable (s : CommitState)

/-- A new transaction whose coordinator is at a position. -/
def start (epoch : ℤ) (ts : Timestamp) (reads : Bytes → Timestamp) : CommitState where
  records := ⟨none, []⟩
  intents := fun _ => none
  reads := reads
  epoch := epoch
  ts := ts
  positions := [(epoch, ts)]
  sent := []
  applied := []
  seen := []
  attempts := []
  requests := []
  staged := []
  failed := []
  answers := []
  recoveries := []

/-- An `EndTxn` that leaves no record has resolved all intents. -/
def intentsAfter (c : Command) (record : Option TransactionRecord) : Bytes → Option TxnMeta :=
  match c, record with
  | .endTxn _ _, none => fun _ => none
  | _, _ => s.intents

/-- The record, the answers and the recoveries after a command. -/
def apply (c : Command) (ec : EvalContext) (responseTS : Timestamp) : CommitState :=
  match c.eval ec s.records.record with
  | .ok o => { s with
      records := s.records.step (.command c ec responseTS)
      answers := o.txn :: s.answers
      intents := s.intentsAfter c o.record }
  | .error (.indeterminateCommit txn) => { s with
      recoveries := .start txn :: s.recoveries }
  | .error _ => s

/-- An intent after its resolution with a transaction that is not finalized: it is moved up, or
removed if it is of an older epoch. -/
def pushedIntent (txn : Transaction) (intent : TxnMeta) : Option TxnMeta :=
  if intent.epoch < txn.epoch then none
  else some { intent with writeTimestamp := intent.writeTimestamp.forward txn.writeTimestamp }

def setIntent (key : Bytes) (intent : Option TxnMeta) : CommitState :=
  { s with
    intents := Function.update s.intents key intent
    seen := intent.toList ++ s.seen }

def addRead (key : Bytes) (ts : Timestamp) : CommitState :=
  { s with reads := Function.update s.reads key ((s.reads key).forward ts) }

/-- A query for an intent; one that is missing is prevented by the timestamp cache. -/
def probe (r : Recovery) (w : SequencedWrite) (now : Timestamp) : CommitState :=
  match KvServer.queryIntent (r.header now) (r.queryIntentRequest w) (s.intents w.key) with
  | .error _ => s
  | .ok response =>
    let r' := { r with
      batch := r.batch.erase w
      preventedIntent := r.preventedIntent || !response.foundIntent }
    let s' := if response.foundIntent then s else s.addRead w.key r.txn.writeTimestamp
    { s' with recoveries := r' :: s.recoveries }

def step : CommitEvent → CommitState
  | .read key ts => s.addRead key ts
  | .send w => { s with sent := ⟨w.key, s.epoch, w.sequence, s.ts⟩ :: s.sent }
  | .land w intent => { s.setIntent w.key (some intent) with
      sent := s.sent.erase w
      applied := { w with ts := intent.writeTimestamp } :: s.applied }
  | .fail w => { s with sent := s.sent.erase w }
  | .advance epoch ts => { s with
      epoch := epoch, ts := ts, positions := (epoch, ts) :: s.positions }
  | .learn a => { s with failed := a :: s.failed }
  | .attempt writes => { s with
      attempts := ⟨s.epoch, s.ts, writes⟩ :: s.attempts
      requests := ⟨s.epoch, s.ts, writes⟩ :: s.requests
      failed := s.failed.filter (· ≠ ⟨s.epoch, s.ts, writes⟩) }
  | .commit a h args ec responseTS =>
    let s' := s.apply (.endTxn h args) ec responseTS
    { s' with
      requests := s.requests.filter (· ≠ a)
      staged := match KvServer.endTxn ec h args s.records.record with
        | .ok _ => a :: s.staged
        | .error _ => s.staged }
  | .drop a => { s with requests := s.requests.filter (· ≠ a) }
  | .command c ec responseTS => s.apply c ec responseTS
  | .gc => { s with records := s.records.step .gc }
  | .pushIntent key txn => s.setIntent key ((s.intents key).bind (pushedIntent txn))
  | .resolveIntent key => s.setIntent key none
  | .queryTxn r ec =>
    if r.sees (KvServer.queryTxn ec r.txn.toTxnMeta s.records.record) then s
    else { s with recoveries := { r with unchanged := true } :: s.recoveries }
  | .queryIntent r w now => s.probe r w now
  | .nextBatch r => { s with recoveries := r.sendBatch :: s.recoveries }

def Finalized : Prop := ∃ t ∈ s.answers, t.status.isFinalized = true

def Committed : Prop := ∃ t ∈ s.answers, t.status = .committed

/-- The coordinator or an intent has reached the epoch and timestamp of a copy. -/
def Reached (m : TxnMeta) : Prop :=
  (m.epoch, m.writeTimestamp) ∈ s.positions ∨
    ∃ m' ∈ s.seen, m'.epoch = m.epoch ∧ m'.writeTimestamp = m.writeTimestamp

/-- A write can be applied at a timestamp above the reads of its key. Within an epoch the intents
of a key ascend, since a write that builds on a missing one fails. -/
structure Lands (x : TxnIdentity) (w : TxnWrite) (intent : TxnMeta) : Prop where
  sent : w ∈ s.sent
  is : x.Is intent
  epoch : intent.epoch = w.epoch
  sequence : intent.sequence = w.sequence
  ts : w.ts.LessEq intent.writeTimestamp
  above : (s.reads w.key).Less intent.writeTimestamp
  ascends : ∀ l ∈ s.applied, l.key = w.key → l.epoch = w.epoch →
    l.sequence < w.sequence ∧ l.ts.LessEq intent.writeTimestamp
  replaces : ∀ m ∈ s.intents w.key, m.epoch ≤ w.epoch ∧
    (m.epoch = w.epoch → m.writeTimestamp.LessEq intent.writeTimestamp)

/-- The header of a request to commit at the position of an attempt. -/
structure CommitsAt (a : Attempt) (t : Transaction) : Prop where
  epoch : t.epoch = a.epoch
  ts : t.writeTimestamp = a.ts
  read : t.readTimestamp = t.writeTimestamp ∨ t.readTimestamp.Less t.writeTimestamp

/-- What the actors around a transaction send. The coordinator's transaction is pending until it
learns that it is aborted; it makes a commit explicit once the declared writes have landed. -/
def ValidCommand (x : TxnIdentity) : Command → Prop
  | .heartbeatTxn h _ => ∀ t ∈ h.txn, (t.epoch, t.writeTimestamp) ∈ s.positions ∧
      t.status = .pending
  | .endTxn h args => ∀ t ∈ h.txn,
      if args.commit then args.inFlightWrites = [] ∧
        ∃ a ∈ s.staged, CommitsAt a t ∧ ∀ w ∈ a.writes, s.Landed a w
      else (t.epoch, t.writeTimestamp) ∈ s.positions ∧
        (t.status = .pending ∨ t.status = .aborted ∧ AbortKept x s.records)
  | .pushTxn _ args => s.Reached args.pusheeTxn
  | .recoverTxn h args => ∃ r ∈ s.recoveries, r.Probed ∧ args = r.recoverTxnRequest ∧
      ∃ now, h = r.header now

def Valid (x : TxnIdentity) : CommitEvent → Prop
  | .read _ _ => True
  -- A coordinator goes on where it has made an attempt if it knows that the attempt has failed.
  | .send w => ∀ a ∈ s.attempts, s.At a → w ∈ a.writes ∨ a ∈ s.failed
  | .land w intent => s.Lands x w intent
  | .fail w => w ∈ s.sent
  | .advance epoch ts => s.epoch ≤ epoch ∧ s.ts.LessEq ts ∧ (s.epoch < epoch ∨ s.ts.Less ts) ∧
      ∀ a ∈ s.attempts, s.At a → a ∈ s.failed
  | .learn a => a ∈ s.attempts ∧ (s.Failed a ∨ ¬ s.Live a)
  | .attempt writes => (∀ a ∈ s.attempts, s.At a → a ∈ s.failed) ∧
      (∀ w ∈ s.sent, w.epoch = s.epoch → ⟨w.key, w.sequence⟩ ∈ writes) ∧
      ∀ l ∈ s.applied, l.epoch = s.epoch → l.ts.LessEq s.ts ∨ ⟨l.key, l.sequence⟩ ∈ writes
  | .commit a h args ec responseTS => a ∈ s.requests ∧ args.commit = true ∧
      args.inFlightWrites = a.writes ∧ (∀ t ∈ h.txn, CommitsAt a t) ∧ ec.Determinate ∧
      (Event.command (.endTxn h args) ec responseTS).Valid x s.records
  | .drop a => a ∈ s.requests
  | .command c ec responseTS => s.ValidCommand x c ∧ ec.Determinate ∧
      (Event.command c ec responseTS).Valid x s.records
  | .gc => Event.gc.Valid x s.records ∧ (s.Committed → ∀ key, s.intents key = none)
  | .pushIntent _ txn => txn ∈ s.answers ∧ txn.status.isFinalized = false
  | .resolveIntent _ => s.Finalized
  | .queryTxn r _ => r ∈ s.recoveries
  | .queryIntent r w _ => r ∈ s.recoveries ∧ w ∈ r.batch
  | .nextBatch r => r ∈ s.recoveries ∧ r.Answered ∧ r.preventedIntent = false ∧ r.rest ≠ []

/-- A rollback brings nothing new to a staging record of its epoch, and one that finds no record
does not come after a commit. -/
def RollbackCareful (h : Header) : Prop :=
  (∀ t ∈ h.txn, ∀ r ∈ s.records.record, r.status = .staging → r.epoch = t.epoch →
    r.writeTimestamp.forward t.writeTimestamp = r.writeTimestamp ∧
      (t.inFlightWrites = [] ∨ t.inFlightWrites = r.inFlightWrites)) ∧
    (s.records.record = none → ¬ s.Committed)

/-- A pusher that comes with a higher timestamp than that of a staging record does not have it from
an older epoch. -/
def PushCareful (args : PushTxnRequest) : Prop :=
  ∀ r ∈ s.records.record, r.status = .staging →
    r.writeTimestamp.Less args.pusheeTxn.writeTimestamp → r.epoch ≤ args.pusheeTxn.epoch

/-- Rollbacks and pushes are careful, and the coordinator leaves the position of a failed attempt
before it goes on, unless the request to commit is gone and has left no record. -/
def Careful : CommitEvent → Prop
  | .send _ | .attempt _ => ∀ a ∈ s.failed, s.Live a → s.Passed a
  | .command (.endTxn h args) _ _ => args.commit = false → s.RollbackCareful h
  | .command (.pushTxn _ args) _ _ => s.PushCareful args
  | _ => True

end CommitState

/-- The runs of a transaction all of whose steps meet a condition. -/
inductive CommitRun (x : TxnIdentity) (P : CommitState → CommitEvent → Prop) :
    CommitState → Prop where
  | start (epoch : ℤ) (ts : Timestamp) (reads : Bytes → Timestamp) :
      Timestamp.empty.Less ts → CommitRun x P (.start epoch ts reads)
  | step {s : CommitState} (e : CommitEvent) : CommitRun x P s → s.Valid x e → P s e →
      CommitRun x P (s.step e)

end Cockroach.KvServer
