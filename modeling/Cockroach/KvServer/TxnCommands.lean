import Cockroach.Roachpb.Transaction

/-! The commands that read and write the record of a transaction. -/
namespace Cockroach.KvServer
open ByteOrder Hlc Roachpb
open Storage hiding Transaction

/-- The reasons for which a transaction is told to be aborted. -/
inductive TransactionAbortedReason where
  | abortedRecordFound
  | recordAlreadyWrittenPossibleReplay
  | newLeasePreventsTxn
  | timestampCacheRejected
deriving DecidableEq, Repr

inductive TransactionRetryReason where
  | writeTooOld
  | serializable
  | commitDeadlineExceeded
deriving DecidableEq, Repr

inductive EvalError where
  | noTransaction
  | keyMismatch (key txnKey : Bytes)
  | transactionStatus (status : TransactionStatus)
  | require1PC
  | poisonCommit
  | alreadyCommitted
  | transactionAborted (reason : TransactionAbortedReason)
  | transactionRetry (reason : TransactionRetryReason)
  | epochRegression (epoch : ℤ)
  | stageWithTrigger
  | indeterminateCommit (stagingTxn : Transaction)
  | transactionPush (pusheeTxn : Transaction)
  | transactionUnsupported
  | requestTimestamp (timestamp limit : Timestamp)
  | unexpectedPushType
  | nowNotSpecified
  | synthesizedNotAborted (txn : Transaction)
  | recoverStatus (txn : Transaction)
  | recoverEpoch (was is : ℤ)
  | recoverTimestamp (was is : Timestamp)
  | resolve
  | commitTrigger
  | fatal
deriving DecidableEq, Repr

/-- What the timestamp cache returns for the two markers of a transaction. -/
structure MarkerView where
  push : Timestamp
  tombstone : Timestamp
  tombstoneTxnID : BitVec 128

/-- What a command sees of its replica: the clock, the timestamp cache and the start of the lease,
and what the resolution of local locks and the commit triggers give. -/
structure EvalContext where
  now : Timestamp
  markers : MarkerView
  leaseStart : Timestamp
  recoverIndeterminateCommitsOnFailedPushes : Bool
  txnAutoGC : Bool
  /-- The locks that are left to be resolved elsewhere. -/
  resolveLocalLocks : Transaction → Except EvalError (List Span)
  runCommitTrigger : Transaction → Except EvalError Unit

structure Header where
  timestamp : Timestamp
  txn : Option Transaction

def Header.writeTimestamp (h : Header) : Timestamp :=
  match h.txn with
  | none => h.timestamp
  | some txn => h.timestamp.forward txn.writeTimestamp

/-- Whether a transaction that starts at `txnMinTS` can still write its record, and if so the
lowest timestamp at which it can commit. -/
def EvalContext.canCreateTxnRecord (ec : EvalContext) (txnID : BitVec 128)
    (txnMinTS : Timestamp) : Except TransactionAbortedReason Timestamp :=
  if txnMinTS.LessEq ec.markers.tombstone then
    if ec.markers.tombstoneTxnID = txnID then .error .recordAlreadyWrittenPossibleReplay
    else if ec.markers.tombstoneTxnID = 0 then
      if ec.markers.tombstone = ec.leaseStart then .error .newLeasePreventsTxn
      else .error .timestampCacheRejected
    else .error .abortedRecordFound
  else .ok ec.markers.push

/-- The transaction for which a record can be created, moved to the lowest commit timestamp. -/
def canCreateTxnRecord (ec : EvalContext) (txn : Transaction) :
    Except EvalError Transaction :=
  match ec.canCreateTxnRecord txn.id txn.minTimestamp with
  | .error reason => .error (.transactionAborted reason)
  | .ok minCommitTS =>
    .ok { txn with writeTimestamp := txn.writeTimestamp.forward minCommitTS }

/-- A transaction without a record, as far as an intent tells. It is aborted if it can never write
its record. -/
def synthesizeTxnFromMeta (ec : EvalContext) (txn : TxnMeta) : Transaction :=
  let synth : TransactionRecord :=
    { toTxnMeta := txn, status := .pending, lastHeartbeat := txn.minTimestamp, lockSpans := []
      inFlightWrites := [], ignoredSeqNums := [] }
  if txn.minTimestamp.IsEmpty then { synth with status := .aborted }.asTransaction
  else
    match ec.canCreateTxnRecord txn.id txn.minTimestamp with
    | .ok minCommitTS =>
      { synth with writeTimestamp := synth.writeTimestamp.forward minCommitTS }.asTransaction
    | .error _ => { synth with status := .aborted }.asTransaction

/-- The transaction of the header, if the request fits it. -/
def verifyTransaction (h : Header) (key : Bytes) (permittedStatuses : List TransactionStatus) :
    Except EvalError Transaction :=
  match h.txn with
  | none => .error .noTransaction
  | some txn =>
    if key ≠ txn.key then .error (.keyMismatch key txn.key)
    else if txn.status ∉ permittedStatuses then .error (.transactionStatus txn.status)
    else .ok txn

/-- What a command answers and the record that it leaves. -/
structure Outcome where
  txn : Transaction
  record : Option TransactionRecord

structure HeartbeatTxnRequest where
  key : Bytes
  now : Timestamp

/-- The transaction that a heartbeat finds or creates. -/
def heartbeatTarget (ec : EvalContext) (txn : Transaction)
    (record : Option TransactionRecord) : Except EvalError Transaction :=
  match record with
  | some r => .ok r.asTransaction
  | none => canCreateTxnRecord ec txn

def heartbeatTxn (ec : EvalContext) (h : Header) (args : HeartbeatTxnRequest)
    (record : Option TransactionRecord) : Except EvalError Outcome := do
  let hTxn ← verifyTransaction h args.key [.pending, .staging]
  if args.now.IsEmpty then .error .nowNotSpecified
  else do
    let txn ← heartbeatTarget ec hTxn record
    if txn.status.isFinalized then pure ⟨txn, record⟩
    else
      let txn := { txn with lastHeartbeat := txn.lastHeartbeat.forward args.now }
      pure ⟨txn, some txn.asRecord⟩

structure EndTxnRequest where
  key : Bytes
  commit : Bool
  poison : Bool
  require1PC : Bool
  deadline : Option Timestamp
  hasCommitTrigger : Bool
  lockSpans : List Span
  inFlightWrites : List SequencedWrite

def EndTxnRequest.isParallelCommit (args : EndTxnRequest) : Bool :=
  args.commit && args.inFlightWrites ≠ []

def isEndTxnExceedingDeadline (commitTS : Timestamp) (deadline : Option Timestamp) : Bool :=
  deadline.any fun d => ¬ d.IsEmpty ∧ d.LessEq commitTS

/-- Why a transaction cannot commit and has to be retried, if so. -/
def isEndTxnTriggeringRetryError (txn : Transaction) (args : EndTxnRequest) :
    Option TransactionRetryReason :=
  if txn.writeTooOld then some .writeTooOld
  else if txn.writeTimestamp ≠ txn.readTimestamp then some .serializable
  else if isEndTxnExceedingDeadline txn.writeTimestamp args.deadline then
    some .commitDeadlineExceeded
  else none

/-- The record of a finalized transaction, which is removed if no locks are left. -/
def updateFinalizedTxn (ec : EvalContext) (txn : Transaction)
    (externalLocks : List Span) : Option TransactionRecord :=
  if ec.txnAutoGC = true ∧ externalLocks = [] then none
  else some { txn with lockSpans := externalLocks, inFlightWrites := [] }.asRecord

/-- Resolve the local locks and write the finalized record. -/
def finalizeTxn (ec : EvalContext) (args : EndTxnRequest) (txn : Transaction) :
    Except EvalError Outcome := do
  let externalLocks ← ec.resolveLocalLocks txn
  let outcome : Outcome := ⟨txn, updateFinalizedTxn ec txn externalLocks⟩
  if txn.status = .committed ∧ args.hasCommitTrigger = true then
    (ec.runCommitTrigger txn).map fun _ => outcome
  else pure outcome

/-- Commit, stage or abort a transaction that is not finalized. -/
def finishEndTxn (ec : EvalContext) (args : EndTxnRequest) (txn : Transaction) :
    Except EvalError Outcome :=
  if args.commit then
    match isEndTxnTriggeringRetryError txn args with
    | some reason => .error (.transactionRetry reason)
    | none =>
      if args.isParallelCommit then
        if args.hasCommitTrigger then .error .stageWithTrigger
        else
          let txn := { txn with
            status := .staging, lockSpans := args.lockSpans
            inFlightWrites := args.inFlightWrites }
          .ok ⟨txn, some txn.asRecord⟩
      else finalizeTxn ec args { txn with status := .committed }
  else if txn.status = .staging then
    -- The commit may be implicit, which only the recovery can tell.
    .error (.indeterminateCommit txn)
  else finalizeTxn ec args { txn with status := .aborted }

/-- Bring the record up to date with the transaction of the request. -/
def updateExisting (existing txn : Transaction) : Except EvalError Transaction :=
  if txn.epoch < existing.epoch then .error (.epochRegression txn.epoch)
  else
    -- A newer epoch has restarted since the record was staged.
    let existing := if existing.status = .staging ∧ txn.epoch > existing.epoch then
      { existing with status := .pending } else existing
    match existing.update txn with
    | none => .error .fatal
    | some txn => .ok txn

/-- A rollback can always write an aborted record. -/
def endTxnTarget (ec : EvalContext) (args : EndTxnRequest) (txn : Transaction) :
    Except EvalError Transaction :=
  if args.commit then canCreateTxnRecord ec txn else .ok txn

def endTxn (ec : EvalContext) (h : Header) (args : EndTxnRequest)
    (record : Option TransactionRecord) : Except EvalError Outcome := do
  let hTxn ← verifyTransaction h args.key [.pending, .staging, .aborted]
  if args.require1PC then .error .require1PC
  else if args.commit && args.poison then .error .poisonCommit
  else
    match record with
    | none => endTxnTarget ec args hTxn >>= finishEndTxn ec args
    | some r =>
      match r.status with
      | .committed => .error .alreadyCommitted
      | .aborted =>
        if args.commit then .error (.transactionAborted .abortedRecordFound)
        else finalizeTxn ec args r.asTransaction
      | .pending | .staging => updateExisting r.asTransaction hTxn >>= finishEndTxn ec args

inductive PushTxnType where
  | timestamp
  | abort
  | touch
deriving DecidableEq, Repr

structure PushTxnRequest where
  key : Bytes
  pusherTxn : TxnMeta
  pusheeTxn : TxnMeta
  pushTo : Timestamp
  pushType : PushTxnType
  force : Bool

def txnLivenessThreshold : ℕ := 5 * 1000000000

/-- The transaction was not active for the liveness threshold; the sum wraps around. -/
def isExpired (now : Timestamp) (txn : Transaction) : Bool :=
  let wallTime := (Int64.ofNat txn.lastActive.wallTime + Int64.ofNat txnLivenessThreshold).toInt
  wallTime < now.wallTime ∨ wallTime = now.wallTime ∧ txn.lastActive.logical < now.logical

def canPushWithPriority (pusher pushee : ℤ) : Bool :=
  pusher > pushee ∧ (pusher = Transaction.maxTxnPriority ∨ pushee = Transaction.minTxnPriority)

/-- The pusher knows of an intent above the timestamp of the pushee. -/
def PushTxnRequest.knownHigherTimestamp (args : PushTxnRequest) (pushee : Transaction) :
    Bool :=
  pushee.writeTimestamp.Less args.pusheeTxn.writeTimestamp

def PushTxnRequest.knownHigherEpoch (args : PushTxnRequest) (pushee : Transaction) : Bool :=
  pushee.epoch < args.pusheeTxn.epoch

/-- The pusher knows that the recorded attempt at a parallel commit failed. -/
def PushTxnRequest.knownFailed (args : PushTxnRequest) (pushee : Transaction) : Bool :=
  (args.knownHigherTimestamp pushee || args.knownHigherEpoch pushee) && pushee.status = .staging

/-- The pushee with what the pusher knows of it. -/
def PushTxnRequest.learn (args : PushTxnRequest) (pushee : Transaction) :
    Transaction :=
  let learned := { pushee with
    writeTimestamp := if args.knownHigherTimestamp pushee then args.pusheeTxn.writeTimestamp
      else pushee.writeTimestamp
    epoch := if args.knownHigherEpoch pushee then args.pusheeTxn.epoch else pushee.epoch }
  let learned := learned.upgradePriority args.pusheeTxn.priority
  if args.knownFailed pushee then { learned with status := .pending, inFlightWrites := [] }
  else learned

/-- A push of the timestamp becomes an abort where the attempt failed within the epoch. -/
def PushTxnRequest.upgradedType (args : PushTxnRequest) (pushee : Transaction) :
    PushTxnType :=
  if args.knownFailed pushee ∧ args.knownHigherEpoch pushee = false ∧ args.pushType = .timestamp
  then .abort else args.pushType

/-- The push type with which the pusher wins, if it does. -/
def pusherWins (ec : EvalContext) (args : PushTxnRequest) (pushType : PushTxnType)
    (pushee : Transaction) : Option PushTxnType :=
  if isExpired ec.now pushee then some .abort
  else if pushType = .touch then none
  else if canPushWithPriority args.pusherTxn.priority pushee.priority then some pushType
  else if args.force then some pushType
  else none

/-- The pushee after a push that succeeds. -/
def pushed (args : PushTxnRequest) (pushType : PushTxnType) (exists_ : Bool)
    (pushee : Transaction) : Except EvalError Transaction :=
  let pushee := pushee.upgradePriority (args.pusherTxn.priority - 1)
  match pushType with
  | .abort => .ok { pushee with
      status := .aborted
      writeTimestamp := if exists_ then pushee.writeTimestamp.forward pushee.lastActive
        else pushee.writeTimestamp }
  | .timestamp => .ok { pushee with
      writeTimestamp := pushee.writeTimestamp.forward args.pushTo }
  | .touch => .error .unexpectedPushType

/-- Push a transaction that is not finalized and not yet where it is pushed to. -/
def pushActive (ec : EvalContext) (args : PushTxnRequest) (pushee : Transaction)
    (record : Option TransactionRecord) : Except EvalError Outcome :=
  let learned := args.learn pushee
  let wins := pusherWins ec args (args.upgradedType pushee) learned
  if learned.status = .staging ∧
      (wins.isSome ∨ ec.recoverIndeterminateCommitsOnFailedPushes = true) then
    .error (.indeterminateCommit learned)
  else
    match wins with
    | none => .error (.transactionPush learned)
    | some pushType => (pushed args pushType record.isSome learned).map fun txn =>
        -- A record is not created for the pushee.
        ⟨txn, if record.isSome then some txn.asRecord else none⟩

def pushPushee (ec : EvalContext) (args : PushTxnRequest) (pushee : Transaction)
    (record : Option TransactionRecord) : Except EvalError Outcome :=
  if pushee.status.isFinalized then .ok ⟨pushee, record⟩
  else if args.pushType = .timestamp ∧ args.pushTo.LessEq pushee.writeTimestamp then
    .ok ⟨pushee, record⟩
  else pushActive ec args pushee record

def pushTxn (ec : EvalContext) (h : Header) (args : PushTxnRequest)
    (record : Option TransactionRecord) : Except EvalError Outcome :=
  if h.txn.isSome then .error .transactionUnsupported
  else if h.writeTimestamp.Less args.pushTo then
    .error (.requestTimestamp h.timestamp args.pushTo)
  else if h.writeTimestamp.Less args.pusheeTxn.minTimestamp then
    .error (.requestTimestamp h.timestamp args.pusheeTxn.minTimestamp)
  else if args.key ≠ args.pusheeTxn.key then .error (.keyMismatch args.key args.pusheeTxn.key)
  else
    match record with
    | some r => pushPushee ec args r.asTransaction (some r)
    | none =>
      let synth := synthesizeTxnFromMeta ec args.pusheeTxn
      if synth.status = .aborted then .ok ⟨synth, none⟩ else pushPushee ec args synth none

structure RecoverTxnRequest where
  key : Bytes
  txn : TxnMeta
  implicitlyCommitted : Bool

/-- Whether the recovery goes on with the record, stops with it as it is, or fails. -/
inductive RecoverStep where
  | go
  | stop
  | fail (e : EvalError)

/-- All in-flight writes were found. -/
def recoverCommitted (args : RecoverTxnRequest) (r : TransactionRecord) : RecoverStep :=
  match r.status with
  | .pending | .aborted => .fail (.recoverStatus r.asTransaction)
  | .staging | .committed =>
    if args.txn.epoch ≠ r.epoch then .fail (.recoverEpoch args.txn.epoch r.epoch)
    else if args.txn.writeTimestamp ≠ r.writeTimestamp then
      .fail (.recoverTimestamp args.txn.writeTimestamp r.writeTimestamp)
    else if r.status = .committed then .stop
    else .go

/-- One of the in-flight writes was prevented. -/
def recoverPrevented (args : RecoverTxnRequest) (r : TransactionRecord) : RecoverStep :=
  match r.status with
  | .aborted | .committed => .stop
  | .pending =>
    if args.txn.epoch < r.epoch then .stop else .fail (.recoverStatus r.asTransaction)
  | .staging =>
    if args.txn.epoch < r.epoch ∨ args.txn.writeTimestamp.Less r.writeTimestamp then .stop
    else .go

/-- The record after a recovery: the in-flight writes become locks of the transaction. -/
def recoveredTxn (args : RecoverTxnRequest) (r : TransactionRecord) : Transaction :=
  { r.asTransaction with
    lockSpans := mergeSpans (r.lockSpans ++ r.inFlightWrites.map fun w => ⟨w.key, []⟩)
    inFlightWrites := []
    status := if args.implicitlyCommitted then .committed else .aborted }

def recoverTxn (ec : EvalContext) (h : Header) (args : RecoverTxnRequest)
    (record : Option TransactionRecord) : Except EvalError Outcome :=
  if h.txn.isSome then .error .transactionUnsupported
  else if h.writeTimestamp.Less args.txn.minTimestamp then
    .error (.requestTimestamp h.timestamp args.txn.minTimestamp)
  else if args.key ≠ args.txn.key then .error (.keyMismatch args.key args.txn.key)
  else
    match record with
    | none =>
      let synth := synthesizeTxnFromMeta ec args.txn
      if synth.status ≠ .aborted then .error (.synthesizedNotAborted synth) else .ok ⟨synth, none⟩
    | some r =>
      match (if args.implicitlyCommitted then recoverCommitted args r
        else recoverPrevented args r) with
      | .fail e => .error e
      | .stop => .ok ⟨r.asTransaction, some r⟩
      | .go =>
        let txn := recoveredTxn args r
        .ok ⟨txn, some txn.asRecord⟩

end Cockroach.KvServer
