import Cockroach.Library.RankedList
import Cockroach.Roachpb.Data
import Cockroach.Storage.Scanner

/-! Reads and writes of the versions and the intent of one key. -/
namespace Cockroach.Storage
open ByteOrder Hlc Roachpb

theorem engineRank_injective : Function.Injective engineRank := by
  intro t s h
  unfold engineRank at h
  have ht := Bool.toNat_le t.synthetic
  have hs := Bool.toNat_le s.synthetic
  apply Timestamp.ext_ticks
  · omega
  · have hb : t.synthetic.toNat = s.synthetic.toNat := by omega
    cases hts : t.synthetic <;> cases hss : s.synthetic <;> simp_all

/-- Newer versions come first. -/
def versionRank (t : VersionTimestamp) : ℕ := engineRank t.1

theorem versionRank_injective : Function.Injective versionRank :=
  engineRank_injective.comp Subtype.val_injective

/-- The locks on a key are sorted by the transaction. -/
def lockRank (id : BitVec 128) : ℕ := 2 ^ 128 - 1 - id.toNat

/-- What the engine holds for one key: the locks of the lock table, an inline value and the
versions, newest first. -/
structure KeyState where
  intents : List (BitVec 128 × MVCCMetadata)
  inline : Option Bytes
  versions : List (VersionTimestamp × Bytes)
  sorted : RankedList.Descending versionRank versions

/-- A key that was never written. -/
def KeyState.initial : KeyState := ⟨[], none, [], List.Pairwise.nil⟩

inductive MVCCError where
  | emptyKey
  | invalidOptions
  | scan (e : ScanError)
  | writeIntent (intents : List (Bytes × TxnMeta))
  | mixedInline (putIsInline : Bool)
  | inlineInTransaction
  | readTimestampMismatch (readTimestamp timestamp : Timestamp)
  | putEpoch (txnEpoch metaEpoch : ℤ) (id : BitVec 128)
  | missingIntent (id : BitVec 128) (metaSequence sequence : ℤ)
  | differentValue (id : BitVec 128) (sequence : ℤ) (value written : Bytes)
  | conditionFailed (actual : Option Bytes)
  | notInteger (key : Bytes)
  | integerOverflow (key : Bytes) (current increment : Int64)
  | timestampRegression (metaTimestamp newTimestamp : Timestamp)
  | intentValueMissing (timestamp : Timestamp)
  | panic
deriving DecidableEq, Repr

namespace KeyState

/-- Write a version; the engine panics on an empty timestamp. -/
def putMVCC (s : KeyState) (ts : Timestamp) (value : Bytes) : Except MVCCError KeyState :=
  if h : ts.IsEmpty then .error .panic
  else .ok { s with
    versions := RankedList.put versionRank ⟨ts, h⟩ value s.versions
    sorted := s.sorted.put versionRank_injective _ _ }

def clearMVCC (s : KeyState) (ts : Timestamp) : Except MVCCError KeyState :=
  if h : ts.IsEmpty then .error .panic
  else .ok { s with
    versions := RankedList.clear ⟨ts, h⟩ s.versions
    sorted := s.sorted.clear _ }

def putIntent (s : KeyState) (id : BitVec 128) (m : MVCCMetadata) : KeyState :=
  { s with intents := RankedList.put lockRank id m s.intents }

def clearIntent (s : KeyState) (id : BitVec 128) : KeyState :=
  { s with intents := RankedList.clear id s.intents }

/-- The records of the key in the order in which an iterator over versions and intents shows
them. -/
def entries (s : KeyState) (key : Bytes) : List Entry :=
  s.intents.map (fun i => .metadata key i.2) ++
    (s.inline.toList.map fun b => .metadata key { MVCCMetadata.zero with rawBytes := b }) ++
    s.versions.map fun v => .version key v.1 v.2

/-- The first version at or below a timestamp in the order of the engine. -/
def seekVersion (s : KeyState) (ts : Timestamp) : Option (VersionTimestamp × Bytes) :=
  s.versions.find? fun v => versionRank v.1 ≤ engineRank ts

def mvccVersionTimestampSize : ℕ := 12

/-- The metadata of the key, which is made up from the latest version where there is no record
of it. -/
def getMetadata (s : KeyState) : Option MVCCMetadata :=
  match s.intents, s.inline, s.versions with
  | i :: _, _, _ => some i.2
  | [], some b, _ => some { MVCCMetadata.zero with rawBytes := b }
  | [], none, v :: _ => some { MVCCMetadata.zero with
      keyBytes := mvccVersionTimestampSize, valBytes := v.2.length, deleted := v.2.length = 0,
      timestamp := v.1.1 }
  | [], none, [] => none

end KeyState

structure MVCCGetOptions where
  inconsistent : Bool := false
  tombstones : Bool := false
  failOnMoreRecent : Bool := false
  txn : Option Transaction := none
  uncertainty : Interval := ⟨.empty, .empty⟩

variable (marshal : MVCCMetadata → Bytes)

/-- The scanner of `mvccGet`, which reads one key. -/
def getOptions (key : Bytes) (timestamp : Timestamp) (opts : MVCCGetOptions) : ScanOptions where
  marshal := marshal
  reverse := false
  start := key
  stop := []
  ts := timestamp
  maxKeys := 1
  targetBytes := 0
  targetBytesAvoidExcess := false
  allowEmpty := false
  maxIntents := 0
  txn := opts.txn
  uncertainty := opts.uncertainty
  inconsistent := opts.inconsistent
  tombstones := opts.tombstones
  failOnMoreRecent := opts.failOnMoreRecent
  isGet := true

/-- Read one key: the value, if a version or a tombstone was found. -/
def mvccGet (s : KeyState) (key : Bytes) (timestamp : Timestamp) (opts : MVCCGetOptions) :
    Except MVCCError (Option Bytes) :=
  if key = [] then .error .emptyKey
  else if opts.inconsistent = true ∧ (opts.txn.isSome ∨ opts.failOnMoreRecent = true) then
    .error .invalidOptions
  else
    let scanner := Scanner.get (getOptions marshal key timestamp opts)
      (Scanner.init (s.entries key) (maxItersBeforeSeek / 2) (by decide) (by decide))
    match scanner.err with
    | some e => .error (.scan e)
    | none =>
      let intents := scanner.intents.filterMap fun i => i.2.txn.map fun t => (i.1, t)
      if opts.inconsistent = false ∧ intents ≠ [] then .error (.writeIntent intents)
      else .ok (scanner.results.head?.map ScanResult.value)

/-- The value to write, computed from the existing value, which may be a tombstone. -/
abbrev ValueFn := Option Bytes → Except MVCCError (Option Bytes)

/-- The given value, or that of the function where there is one. -/
def applyValueFn (valueFn : Option ValueFn) (value exVal : Option Bytes) :
    Except MVCCError (Option Bytes) :=
  match valueFn with
  | none => .ok value
  | some f => f exVal

/-- The value to write: the given one, or that of the function on what is read. -/
def maybeGetValue (s : KeyState) (key : Bytes) (value : Option Bytes) (exist : Bool)
    (readTimestamp : Timestamp) (valueFn : Option ValueFn) : Except MVCCError (Option Bytes) :=
  match valueFn with
  | none => .ok value
  | some f =>
    if exist then mvccGet marshal s key readTimestamp { tombstones := true } >>= f else f none

/-- What a transaction wrote at its sequence number. -/
def writtenValue (s : KeyState) (m : MVCCMetadata) (metaTxn : TxnMeta) (key : Bytes)
    (timestamp : Timestamp) (txn : Transaction) : Except MVCCError Bytes :=
  if txn.sequence = metaTxn.sequence then
    -- The value has not made it to the history yet.
    (mvccGet marshal s key timestamp { txn := some txn, tombstones := true }).map (·.getD [])
  else
    match m.getIntentValue txn.sequence with
    | none => .error (.missingIntent txn.id metaTxn.sequence txn.sequence)
    | some written => .ok written

/-- What a transaction would write at its sequence number if it were to do so again. -/
def replayedValue (s : KeyState) (m : MVCCMetadata) (key : Bytes) (timestamp : Timestamp)
    (value : Option Bytes) (txn : Transaction) (valueFn : Option ValueFn) :
    Except MVCCError (Option Bytes) :=
  match valueFn with
  | none => .ok value
  | some f =>
    match m.getPrevIntentSeq txn.sequence txn.ignoredSeqNums with
    | some prevIntent => f (some prevIntent.value)
    | none => mvccGet marshal s key timestamp { inconsistent := true, tombstones := true } >>= f

/-- A write that was executed before: check that it would write the same value again. -/
def replayTransactionalWrite (s : KeyState) (m : MVCCMetadata) (metaTxn : TxnMeta) (key : Bytes)
    (timestamp : Timestamp) (value : Option Bytes) (txn : Transaction)
    (valueFn : Option ValueFn) : Except MVCCError Unit := do
  let written ← writtenValue marshal s m metaTxn key timestamp txn
  let value ← replayedValue marshal s m key timestamp value txn valueFn
  if value.getD [] ≠ written then
    .error (.differentValue txn.id txn.sequence (value.getD []) written)
  else .ok ()

/-- A write that went through, with the timestamps of a `WriteTooOldError` if it is to be
returned although the write stands. -/
structure PutResult where
  state : KeyState
  tooOld : Option (Timestamp × Timestamp) := none

/-- A write that is permitted: the state in which it happens, what it writes and where. -/
structure PendingWrite where
  state : KeyState
  intentHistory : List SequencedIntent
  value : Option Bytes
  writeTimestamp : Timestamp
  tooOld : Option (Timestamp × Timestamp)

/-- The latest value of the transaction itself, and whether it is the provisional value. -/
def ownValue (s : KeyState) (m : MVCCMetadata) (metaTxn : TxnMeta) (key : Bytes)
    (readTimestamp : Timestamp) (txn : Transaction) : Except MVCCError (Option Bytes × Bool) :=
  if txn.epoch = metaTxn.epoch then
    if txnSeqIsIgnored metaTxn.sequence txn.ignoredSeqNums = false then
      (mvccGet marshal s key readTimestamp { txn := some txn, tombstones := true }).map (·, true)
    else
      -- The last write was rolled back: an earlier one may be in the history.
      let prevIntent := m.getPrevIntentSeq txn.sequence txn.ignoredSeqNums
      .ok (prevIntent.map SequencedIntent.value, false)
  else .ok (none, false)

/-- The value under the write of a transaction that overwrites its own intent. -/
def existingValue (s : KeyState) (m : MVCCMetadata) (metaTxn : TxnMeta) (key : Bytes)
    (readTimestamp : Timestamp) (txn : Transaction) : Except MVCCError (Option Bytes × Bool) := do
  let own ← ownValue marshal s m metaTxn key readTimestamp txn
  if own.1.isSome then pure own
  else
    let exVal ← mvccGet marshal s key readTimestamp { inconsistent := true, tombstones := true }
    pure (exVal, own.2)

/-- The history of an intent that its transaction overwrites. It is dropped by a new epoch, or
when there is no earlier value at all. -/
def overwrittenHistory (m : MVCCMetadata) (metaTxn : TxnMeta) (txn : Transaction)
    (exVal : Option Bytes) (curProvNotIgnored : Bool) : List SequencedIntent :=
  match exVal with
  | none => []
  | some v =>
    if txn.epoch = metaTxn.epoch then
      if curProvNotIgnored then (m.addToIntentHistory metaTxn.sequence v).intentHistory
      else m.intentHistory
    else []

/-- A write over the intent of another write of the same transaction. There is no result where
the transaction has executed at this sequence number before. -/
def overwriteIntent (s : KeyState) (m : MVCCMetadata) (metaTxn : TxnMeta) (key : Bytes)
    (readTimestamp : Timestamp) (value : Option Bytes) (txn : Transaction)
    (valueFn : Option ValueFn) : Except MVCCError (Option PendingWrite) :=
  if txn.epoch < metaTxn.epoch then .error (.putEpoch txn.epoch metaTxn.epoch txn.id)
  else if txn.epoch = metaTxn.epoch ∧ txn.sequence ≤ metaTxn.sequence then do
    replayTransactionalWrite marshal s m metaTxn key readTimestamp value txn valueFn
    pure none
  else do
    let (exVal, curProvNotIgnored) ← existingValue marshal s m metaTxn key readTimestamp txn
    let value ← applyValueFn valueFn value exVal
    let history := overwrittenHistory m metaTxn txn exVal curProvNotIgnored
    if m.timestamp.Less txn.writeTimestamp then
      -- The version below the intent is sought, which panics at the zero timestamp.
      if m.timestamp.prev.isNone then .error .panic
      else do
        let state ← s.clearMVCC m.timestamp
        pure (some ⟨state, history, value, txn.writeTimestamp, none⟩)
    else
      -- A write-too-old error may have moved the intent above the transaction.
      let writeTimestamp := if txn.writeTimestamp.Less m.timestamp then m.timestamp
        else txn.writeTimestamp
      pure (some ⟨s, history, value, writeTimestamp, none⟩)

/-- A write over a committed version, which moves above it where the version is not below the
read timestamp. -/
def overwriteCommitted (s : KeyState) (m : MVCCMetadata) (key : Bytes)
    (readTimestamp writeTimestamp : Timestamp) (value : Option Bytes) (inTxn : Bool)
    (valueFn : Option ValueFn) : Except MVCCError PendingWrite :=
  if readTimestamp.LessEq m.timestamp then
    match m.timestamp.next with
    | none => .error .panic
    | some next => do
      let newTimestamp := writeTimestamp.forward next
      let value ← maybeGetValue marshal s key value true
        (if inTxn then readTimestamp else newTimestamp) valueFn
      pure ⟨s, m.intentHistory, value, newTimestamp, some (readTimestamp, newTimestamp)⟩
  else do
    let value ← maybeGetValue marshal s key value true readTimestamp valueFn
    pure ⟨s, m.intentHistory, value, writeTimestamp, none⟩

/-- The metadata of a new intent, whose transaction is moved to the timestamp of the write. -/
def newIntent (txn : Transaction) (p : PendingWrite) : MVCCMetadata where
  txn := some (if txn.writeTimestamp ≠ p.writeTimestamp then
      { txn.toTxnMeta with writeTimestamp := txn.writeTimestamp.forward p.writeTimestamp }
    else txn.toTxnMeta)
  timestamp := p.writeTimestamp
  deleted := p.value.isNone
  keyBytes := KeyState.mvccVersionTimestampSize
  valBytes := (p.value.getD []).length
  rawBytes := []
  intentHistory := p.intentHistory

/-- The metadata is written first, for a transaction, and then the version. -/
def finishWrite (txn : Option Transaction) (p : PendingWrite) : Except MVCCError PutResult :=
  let state := match txn with
    | none => p.state
    | some txn => p.state.putIntent txn.id (newIntent txn p)
  (state.putMVCC p.writeTimestamp (p.value.getD [])).map fun state => ⟨state, p.tooOld⟩

/-- A write without a version, which replaces or removes the value kept with the metadata. -/
def putInline (s : KeyState) (key : Bytes) (exist : Bool) (timestamp : Timestamp)
    (value : Option Bytes) (txn : Option Transaction) (valueFn : Option ValueFn) :
    Except MVCCError PutResult :=
  if txn.isSome then .error .inlineInTransaction
  else do
    let value ← maybeGetValue marshal s key value exist timestamp valueFn
    pure { state := { s with inline := value } }

/-- A versioned write, at the read and write timestamps of its transaction. -/
def putVersioned (s : KeyState) (key : Bytes) (readTimestamp writeTimestamp : Timestamp)
    (value : Option Bytes) (txn : Option Transaction) (valueFn : Option ValueFn) :
    Except MVCCError PutResult :=
  match s.getMetadata with
  | none => do
    let value ← applyValueFn valueFn value none
    finishWrite txn ⟨s, [], value, writeTimestamp, none⟩
  | some m =>
    match m.txn with
    | none => do
      let p ← overwriteCommitted marshal s m key readTimestamp writeTimestamp value txn.isSome
        valueFn
      finishWrite txn p
    | some metaTxn =>
      match txn.filter fun txn => txn.id = metaTxn.id with
      | none => .error (.writeIntent [(key, metaTxn)])
      | some txn =>
        overwriteIntent marshal s m metaTxn key readTimestamp value txn valueFn >>= fun
          | none => .ok { state := s }
          | some p => finishWrite (some txn) p

def mvccPutInternal (s : KeyState) (key : Bytes) (timestamp : Timestamp) (value : Option Bytes)
    (txn : Option Transaction) (valueFn : Option ValueFn) : Except MVCCError PutResult :=
  if key = [] then .error .emptyKey
  else if s.getMetadata.any fun m => decide timestamp.IsEmpty != m.isInline then
    .error (.mixedInline timestamp.IsEmpty)
  else if timestamp.IsEmpty then
    putInline marshal s key s.getMetadata.isSome timestamp value txn valueFn
  else
    match txn with
    | none => putVersioned marshal s key timestamp timestamp value none valueFn
    | some t =>
      if t.readTimestamp ≠ timestamp then
        .error (.readTimestampMismatch t.readTimestamp timestamp)
      else putVersioned marshal s key t.readTimestamp t.writeTimestamp value (some t) valueFn

def mvccPut (s : KeyState) (key : Bytes) (timestamp : Timestamp) (value : Option Bytes)
    (txn : Option Transaction) : Except MVCCError PutResult :=
  mvccPutInternal marshal s key timestamp value txn none

def mvccDelete (s : KeyState) (key : Bytes) (timestamp : Timestamp) (txn : Option Transaction) :
    Except MVCCError PutResult :=
  mvccPutInternal marshal s key timestamp none txn none

/-- Whether a value exists and is not a tombstone. -/
def isPresent (v : Option Bytes) : Bool := v.getD [] ≠ []

/-- The condition of `MVCCConditionalPut`: the existing value is the expected one. -/
def conditionalValue (value : Option Bytes) (expBytes : Bytes) (allowNoExisting : Bool) : ValueFn :=
  fun existVal =>
    if expBytes ≠ [] ∧ isPresent existVal = true then
      match tagAndDataBytes (existVal.getD []) with
      | none => .error .panic
      | some b => if expBytes ≠ b then .error (.conditionFailed existVal) else .ok value
    else if (decide (expBytes ≠ []) != isPresent existVal) = true ∧
        (isPresent existVal = true ∨ allowNoExisting = false) then
      .error (.conditionFailed existVal)
    else .ok value

def mvccConditionalPut (s : KeyState) (key : Bytes) (timestamp : Timestamp)
    (value : Option Bytes) (expBytes : Bytes) (allowNoExisting : Bool)
    (txn : Option Transaction) : Except MVCCError PutResult :=
  mvccPutInternal marshal s key timestamp none txn
    (some (conditionalValue value expBytes allowNoExisting))

/-- The condition of `MVCCInitPut`: there is no other value. -/
def initValue (value : Option Bytes) (failOnTombstones : Bool) : ValueFn := fun existVal =>
  if failOnTombstones = true ∧ existVal = some [] then .error (.conditionFailed existVal)
  else if isPresent existVal then
    match tagAndDataBytes (existVal.getD []), tagAndDataBytes (value.getD []) with
    | some b, some b' => if b ≠ b' then .error (.conditionFailed existVal) else .ok value
    | _, _ => .error .panic
  else .ok value

def mvccInitPut (s : KeyState) (key : Bytes) (timestamp : Timestamp) (value : Option Bytes)
    (failOnTombstones : Bool) (txn : Option Transaction) : Except MVCCError PutResult :=
  mvccPutInternal marshal s key timestamp none txn (some (initValue value failOnTombstones))

def willOverflow (a b : Int64) : Bool :=
  let (a, b) := if a > b then (b, a) else (a, b)
  if b > 0 then a > Int64.maxValue - b else Int64.minValue - b > a

/-- The integer at a key, where no value counts as zero. -/
def currentInt (key : Bytes) (existVal : Option Bytes) : Except MVCCError Int64 :=
  if isPresent existVal then
    match getInt (existVal.getD []) with
    | none => .error (.notInteger key)
    | some i => .ok i
  else .ok 0

/-- The sum that `MVCCIncrement` writes. -/
def incrementValue (key : Bytes) (inc : Int64) : ValueFn := fun existVal => do
  let int64Val ← currentInt key existVal
  if willOverflow int64Val inc then .error (.integerOverflow key int64Val inc)
  else pure (some (initChecksum key (setInt (int64Val + inc))))

def mvccIncrement (s : KeyState) (key : Bytes) (timestamp : Timestamp)
    (txn : Option Transaction) (inc : Int64) : Except MVCCError PutResult :=
  mvccPutInternal marshal s key timestamp none txn (some (incrementValue key inc))

/-- The outcome of a transaction to apply to its intent on a key. -/
structure LockUpdate where
  txn : TxnMeta
  status : TransactionStatus
  ignoredSeqNums : List IgnoredSeqNumRange

/-- The last history entry that is not ignored, with the entries before it. -/
def lastNotIgnored (ignored : List IgnoredSeqNumRange) :
    List SequencedIntent → Option (List SequencedIntent × SequencedIntent)
  | [] => none
  | e :: rest =>
    match lastNotIgnored ignored rest with
    | some (before, last) => some (e :: before, last)
    | none => if txnSeqIsIgnored e.sequence ignored then none else some ([], e)

/-- What a partial rollback does to an intent. -/
inductive Rollback where
  | unchanged
  | remove
  | restored (m : MVCCMetadata) (metaTxn : TxnMeta) (value : Bytes)

/-- Reveal the latest value of the intent that is not ignored. -/
def mvccMaybeRewriteIntentHistory (ignored : List IgnoredSeqNumRange) (m : MVCCMetadata)
    (metaTxn : TxnMeta) : Rollback :=
  if txnSeqIsIgnored metaTxn.sequence ignored = false then .unchanged
  else
    match lastNotIgnored ignored m.intentHistory with
    | none => .remove
    | some (before, e) =>
      let metaTxn := { metaTxn with sequence := e.sequence }
      .restored { m with
        txn := some metaTxn, intentHistory := before, deleted := e.value.length = 0,
        valBytes := e.value.length } metaTxn e.value

/-- Move or keep an intent that is committed, pushed or rolled back in part. The iterator shows
the state before a rollback. -/
def updateIntent (iter s : KeyState) (intent : LockUpdate) (m : MVCCMetadata) (metaTxn : TxnMeta)
    (metaTimestamp : Timestamp) (commit : Bool) (rolledBackVal : Option Bytes) :
    Except MVCCError KeyState :=
  let newTimestamp := if rolledBackVal.isSome then intent.txn.writeTimestamp.forward metaTimestamp
    else intent.txn.writeTimestamp
  let timestampChanged := metaTimestamp.Less intent.txn.writeTimestamp
  if newTimestamp.Less metaTimestamp then
    .error (.timestampRegression metaTimestamp newTimestamp)
  else
    let newMeta := { m with
      timestamp := newTimestamp
      txn := some { metaTxn with writeTimestamp := newTimestamp } }
    let state := if commit then s.clearIntent metaTxn.id else s.putIntent metaTxn.id newMeta
    if timestampChanged then
      match iter.seekVersion metaTimestamp with
      | none => .error (.intentValueMissing metaTimestamp)
      | some (ts, value) =>
        if ¬ ts.1.EqOrdering metaTimestamp then .error (.intentValueMissing metaTimestamp)
        else do
          let state ← state.putMVCC newTimestamp (rolledBackVal.getD value)
          state.clearMVCC metaTimestamp
    else .ok state

def removeIntent (s : KeyState) (metaTxn : TxnMeta) (metaTimestamp : Timestamp) :
    Except MVCCError KeyState := do
  let state ← s.clearMVCC metaTimestamp
  if metaTimestamp.prev.isNone then .error .panic
  else pure (state.clearIntent metaTxn.id)

/-- Resolve an intent, and whether it was found and resolved. -/
def resolveIntent (s : KeyState) (intent : LockUpdate) (m : MVCCMetadata) (metaTxn : TxnMeta) :
    Except MVCCError (KeyState × Bool) :=
  let metaTimestamp := m.timestamp
  let epochsMatch := metaTxn.epoch = intent.txn.epoch
  let timestampsValid := metaTimestamp.LessEq intent.txn.writeTimestamp
  let timestampChanged := metaTimestamp.Less intent.txn.writeTimestamp
  let commit : Bool := intent.status = .committed ∧ epochsMatch ∧ timestampsValid
  let inProgress : Bool := intent.status.isFinalized = false ∧ metaTxn.epoch ≥ intent.txn.epoch
  let pushed : Bool := inProgress && timestampChanged
  match mvccMaybeRewriteIntentHistory intent.ignoredSeqNums m metaTxn with
  | .remove => (removeIntent s metaTxn metaTimestamp).map fun s => (s, true)
  | .unchanged =>
    if inProgress && !pushed then .ok (s, false)
    else if commit || pushed then
      (updateIntent s s intent m metaTxn metaTimestamp commit none).map fun s => (s, true)
    else (removeIntent s metaTxn metaTimestamp).map fun s => (s, true)
  | .restored m metaTxn value => do
    let s' ← s.putMVCC metaTimestamp value
    (updateIntent s s' intent m metaTxn metaTimestamp commit (some value)).map fun s => (s, true)

def mvccResolveWriteIntent (s : KeyState) (key : Bytes) (intent : LockUpdate) :
    Except MVCCError (KeyState × Bool) :=
  if key = [] then .error .emptyKey
  else
    match s.intents.find? fun i => intent.txn.id ≤ i.1 with
    | none => .ok (s, false)
    | some i =>
      match i.2.txn with
      | none => .ok (s, false)
      | some metaTxn =>
        if intent.txn.id ≠ metaTxn.id then .ok (s, false)
        else resolveIntent s intent i.2 metaTxn

end Cockroach.Storage
