import Cockroach.KvServer.TxnCommands
import Cockroach.Storage.MVCCCases

/-! The life of a transaction record together with the markers in the timestamp cache. -/
namespace Cockroach.KvServer
open ByteOrder Hlc Roachpb
open Storage hiding Transaction

/-- What stays the same in all copies of a transaction. -/
structure TxnIdentity where
  id : BitVec 128
  key : Bytes
  minTimestamp : Timestamp

def TxnIdentity.Is (x : TxnIdentity) (m : TxnMeta) : Prop :=
  m.id = x.id ∧ m.key = x.key ∧ m.minTimestamp = x.minTimestamp

inductive Marker where
  | tombstone
  | push
deriving DecidableEq, Repr

/-- A timestamp that was added to the cache for a marker of a transaction. -/
structure CacheEntry where
  marker : Marker
  key : Bytes
  id : BitVec 128
  ts : Timestamp
  txnID : BitVec 128

inductive Command where
  | heartbeatTxn (h : Header) (args : HeartbeatTxnRequest)
  | endTxn (h : Header) (args : EndTxnRequest)
  | pushTxn (h : Header) (args : PushTxnRequest)
  | recoverTxn (h : Header) (args : RecoverTxnRequest)

namespace Command

def header : Command → Header
  | heartbeatTxn h _ | endTxn h _ | pushTxn h _ | recoverTxn h _ => h

def eval (ec : EvalContext) (record : Option TransactionRecord) :
    Command → Except EvalError Outcome
  | heartbeatTxn h args => KvServer.heartbeatTxn ec h args record
  | endTxn h args => KvServer.endTxn ec h args record
  | pushTxn h args => KvServer.pushTxn ec h args record
  | recoverTxn h args => KvServer.recoverTxn ec h args record

/-- The transaction that a request is about. -/
def subject? : Command → Option TxnMeta
  | heartbeatTxn h _ | endTxn h _ => h.txn.map fun t => t.toTxnMeta
  | pushTxn _ args => some args.pusheeTxn
  | recoverTxn _ args => some args.txn

/-- What `updateTimestampCache` adds after a command that succeeded with an answer at `ts`. -/
def cacheEntries (ts : Timestamp) (answer : Transaction) : Command → List CacheEntry
  | heartbeatTxn h args =>
    let txnID := (h.txn.map fun t => t.id).getD 0
    [⟨.tombstone, args.key, txnID, ts, txnID⟩]
  | endTxn h args =>
    let txnID := (h.txn.map fun t => t.id).getD 0
    [⟨.tombstone, args.key, txnID, ts, txnID⟩]
  | recoverTxn _ args =>
    if answer.status.isFinalized then [⟨.tombstone, args.key, answer.id, ts, answer.id⟩] else []
  | pushTxn _ args =>
    match answer.status with
    | .pending => [⟨.push, args.key, answer.id, answer.writeTimestamp, args.pusherTxn.id⟩]
    | .aborted => [⟨.tombstone, args.key, answer.id, answer.minTimestamp, args.pusherTxn.id⟩]
    | .staging | .committed => []

end Command

/-- The record of a transaction and what was added to the timestamp cache. -/
structure RecordState where
  record : Option TransactionRecord
  cache : List CacheEntry

/-- A command with what it sees and the timestamp of its response, or the garbage collection of
the record. -/
inductive Event where
  | command (c : Command) (ec : EvalContext) (responseTS : Timestamp)
  | gc

/-- The cache returns at least what was added for the markers of the transaction. -/
def CacheAnswers (x : TxnIdentity) (cache : List CacheEntry) (view : MarkerView) : Prop :=
  ∀ e ∈ cache, e.key = x.key → e.id = x.id →
    e.ts.LessEq (match e.marker with
      | .tombstone => view.tombstone
      | .push => view.push)

/-- The events of a transaction: its requests come at or above its minimum timestamp, and only a
finalized record is collected. -/
def Event.Valid (x : TxnIdentity) (s : RecordState) : Event → Prop
  | .command c ec responseTS =>
    (∀ m ∈ c.subject?, x.Is m) ∧ x.minTimestamp.LessEq c.header.timestamp ∧
      c.header.timestamp.LessEq responseTS ∧ CacheAnswers x s.cache ec.markers
  | .gc => ∃ r, s.record = some r ∧ r.status.isFinalized = true

/-- The answer to an event, if it is a command that succeeds. -/
def RecordState.answer (s : RecordState) : Event → Option Transaction
  | .command c ec _ =>
    match c.eval ec s.record with
    | .ok o => some o.txn
    | .error _ => none
  | .gc => none

/-- The state after an event; a command that fails changes nothing. -/
def RecordState.step (s : RecordState) : Event → RecordState
  | .command c ec responseTS =>
    match c.eval ec s.record with
    | .ok o => ⟨o.record, c.cacheEntries responseTS o.txn ++ s.cache⟩
    | .error _ => s
  | .gc => { s with record := none }

/-- An event that happened: the answer, and the records before and after it. -/
structure Happened where
  event : Event
  answer : Option Transaction
  before : Option TransactionRecord
  after : Option TransactionRecord

def RecordState.happened (s : RecordState) (e : Event) : Happened :=
  ⟨e, s.answer e, s.record, (s.step e).record⟩

/-- The runs of a transaction, from a state without a record, with what happened in them. -/
inductive TxnHistory (x : TxnIdentity) : List Happened → RecordState → Prop where
  | start : TxnHistory x [] ⟨none, []⟩
  | step {past : List Happened} {s : RecordState} (e : Event) : TxnHistory x past s → e.Valid x s →
      TxnHistory x (past ++ [s.happened e]) (s.step e)

namespace Happened

/-- A push or a recovery has answered that the transaction is aborted, or a rollback has
succeeded. -/
def Aborts (a : Happened) : Prop :=
  (∃ h args ec ts t, a.event = .command (.pushTxn h args) ec ts ∧ a.answer = some t ∧
      t.status = .aborted) ∨
    (∃ h args ec ts t, a.event = .command (.recoverTxn h args) ec ts ∧ a.answer = some t ∧
      t.status = .aborted) ∨
    ∃ h args ec ts t, a.event = .command (.endTxn h args) ec ts ∧ args.commit = false ∧
      a.answer = some t

/-- The transaction is staged or committed at a timestamp. -/
def CommitsAt (a : Happened) (commitTS : Timestamp) : Prop :=
  (∃ h args ec ts t, a.event = .command (.endTxn h args) ec ts ∧ a.answer = some t ∧
      (t.status = .staging ∨ t.status = .committed) ∧ t.writeTimestamp = commitTS) ∨
    ∃ h args ec ts t, a.event = .command (.recoverTxn h args) ec ts ∧ a.answer = some t ∧
      t.status = .committed ∧ t.writeTimestamp = commitTS

/-- A push of the timestamp has succeeded on a transaction that was not committed. -/
def PushesTo (a : Happened) (pushTo : Timestamp) : Prop :=
  ∃ h args ec ts t, a.event = .command (.pushTxn h args) ec ts ∧ args.pushType = .timestamp ∧
    args.pushTo = pushTo ∧ a.answer = some t ∧ t.status ≠ .committed

/-- The finalized status of a record is not overwritten. -/
def KeepsFinalized (a : Happened) : Prop :=
  ∀ r ∈ a.before, r.status.isFinalized = true → ∀ r' ∈ a.after, r'.status = r.status

/-- What a later event owes to an earlier one: an aborted transaction does not commit, and a
pushed one does not commit below the push. -/
def Respects (earlier later : Happened) : Prop :=
  ∀ commitTS, later.CommitsAt commitTS →
    ¬ earlier.Aborts ∧ ∀ pushTo, earlier.PushesTo pushTo → pushTo.LessEq commitTS

end Happened

/-- What a command that succeeds can do to the record. Only the transaction itself creates a
record, at a timestamp that the cache allows, or as a rollback. -/
inductive Evolves (ec : EvalContext) (x : TxnIdentity) :
    Option TransactionRecord → Option TransactionRecord → Prop where
  | same (record : Option TransactionRecord) : Evolves ec x record record
  | create {r : TransactionRecord} {minCommitTS : Timestamp} :
      ec.canCreateTxnRecord x.id x.minTimestamp = .ok minCommitTS → x.Is r.toTxnMeta →
      minCommitTS.LessEq r.writeTimestamp → Evolves ec x none (some r)
  | rollback {r : TransactionRecord} : x.Is r.toTxnMeta → r.status = .aborted →
      Evolves ec x none (some r)
  | forward {r r' : TransactionRecord} : r.status.isFinalized = false → x.Is r'.toTxnMeta →
      r.writeTimestamp.LessEq r'.writeTimestamp → Evolves ec x (some r) (some r')
  | abortAgain {r r' : TransactionRecord} : r.status = .aborted → r'.status = .aborted →
      x.Is r'.toTxnMeta → Evolves ec x (some r) (some r')
  | remove (r : TransactionRecord) : Evolves ec x (some r) none

section Commands

variable {ec : EvalContext} {x : TxnIdentity} {h : Header} {record : Option TransactionRecord}
  {o : Outcome} {txn : Transaction}

variable {key : Bytes} {permitted : List TransactionStatus}

theorem verifyTransaction_eq_ok (hv : verifyTransaction h key permitted = .ok txn) :
    h.txn = some txn ∧ key = txn.key ∧ txn.status ∈ permitted := by
  unfold verifyTransaction at hv
  cases htxn : h.txn with
  | none =>
    rw [htxn] at hv
    cases hv
  | some t =>
    rw [htxn] at hv
    dsimp only at hv
    split_ifs at hv with hkey hstatus
    obtain rfl := Except.ok.inj hv
    exact ⟨rfl, not_not.mp hkey, hstatus⟩

theorem canCreateTxnRecord_eq_ok {txn' : Transaction}
    (hc : canCreateTxnRecord ec txn = .ok txn') :
    ∃ minCommitTS, ec.canCreateTxnRecord txn.id txn.minTimestamp = .ok minCommitTS ∧
      txn' = { txn with writeTimestamp := txn.writeTimestamp.forward minCommitTS } := by
  unfold canCreateTxnRecord at hc
  split at hc
  · cases hc
  · rename_i minCommitTS hok
    exact ⟨minCommitTS, hok, (Except.ok.inj hc).symm⟩

variable {args : EndTxnRequest}

/-- A commit at a timestamp is open: the cache allows a record there, or the record is at or below
it and not aborted. -/
def CommitAllowed (ec : EvalContext) (x : TxnIdentity) (record : Option TransactionRecord)
    (commitTS : Timestamp) : Prop :=
  (record = none ∧ ∃ minCommitTS, ec.canCreateTxnRecord x.id x.minTimestamp = .ok minCommitTS ∧
    minCommitTS.LessEq commitTS) ∨
  ∃ r, record = some r ∧ r.status ≠ .aborted ∧ r.writeTimestamp.LessEq commitTS

/-- What the end of a transaction does, by what is asked for. -/
structure EndsTxn (ec : EvalContext) (x : TxnIdentity) (args : EndTxnRequest)
    (record : Option TransactionRecord) (o : Outcome) : Prop where
  evolves : Evolves ec x record o.record
  aborts : args.commit = false → o.txn.status = .aborted ∧ ∀ r ∈ o.record, r.status = .aborted
  commits : args.commit = true → CommitAllowed ec x record o.txn.writeTimestamp

variable {r : TransactionRecord} {result : Except EvalError Outcome}

theorem error_ne (hresult : (∃ o, result = .ok o) ∨ ∃ t, result = .error (.indeterminateCommit t))
    {e : EvalError} (hne : ∀ t, e ≠ .indeterminateCommit t) : Except.error e ≠ result := by
  rintro rfl
  rcases hresult with ⟨o, ho⟩ | ⟨t, ht⟩
  · cases ho
  · exact hne t (Except.error.inj ht)

theorem verifyTransaction_determinate
    {u : Transaction} : verifyTransaction h key permitted ≠ .error (.indeterminateCommit u) := by
  intro hv
  unfold verifyTransaction at hv
  split at hv
  · cases hv
  · split_ifs at hv <;> cases hv

/-- A request that succeeds or meets an indeterminate commit has passed the checks. -/
theorem endTxn_checked
    (hresult : (∃ o, result = .ok o) ∨ ∃ t, result = .error (.indeterminateCommit t))
    (he : endTxn ec h args record = result) : ∃ t, h.txn = some t ∧ args.key = t.key ∧
      ((record = none ∧ (endTxnTarget ec args t >>= finishEndTxn ec args) = result) ∨
        (∃ r, record = some r ∧ r.status = .aborted ∧ args.commit = false ∧
          finalizeTxn ec args r.asTransaction = result) ∨
        ∃ r, record = some r ∧ r.status.isFinalized = false ∧
          (updateExisting r.asTransaction t >>= finishEndTxn ec args) = result) := by
  unfold endTxn at he
  cases hv : verifyTransaction h args.key [.pending, .staging, .aborted] with
  | error e =>
    rw [hv] at he
    refine absurd he (error_ne hresult ?_)
    rintro t rfl
    exact verifyTransaction_determinate hv
  | ok hTxn =>
    rw [hv, ok_bind] at he
    obtain ⟨hsome, hkey, -⟩ := verifyTransaction_eq_ok hv
    refine ⟨hTxn, hsome, hkey, ?_⟩
    by_cases h1pc : args.require1PC = true
    · rw [if_pos h1pc] at he
      exact absurd he (error_ne hresult (by simp))
    rw [if_neg h1pc] at he
    by_cases hpoison : (args.commit && args.poison) = true
    · rw [if_pos hpoison] at he
      exact absurd he (error_ne hresult (by simp))
    rw [if_neg hpoison] at he
    cases record with
    | none => exact .inl ⟨rfl, he⟩
    | some r =>
      dsimp only at he
      cases hrstatus : r.status with
      | committed =>
        rw [hrstatus] at he
        exact absurd he (error_ne hresult (by simp))
      | aborted =>
        rw [hrstatus] at he
        by_cases hcommit : args.commit = true
        · rw [if_pos hcommit] at he
          exact absurd he (error_ne hresult (by simp))
        · rw [if_neg hcommit] at he
          exact .inr (.inl ⟨r, rfl, hrstatus, Bool.eq_false_of_not_eq_true hcommit, he⟩)
      | pending | staging =>
        rw [hrstatus] at he
        exact .inr (.inr ⟨r, rfl, by rw [hrstatus]; rfl, he⟩)

variable (ec) in
theorem synthesizeTxnFromMeta_is {txn : TxnMeta} (hx : x.Is txn) :
    x.Is (synthesizeTxnFromMeta ec txn).toTxnMeta ∧
      (synthesizeTxnFromMeta ec txn).epoch = txn.epoch ∧
      ((synthesizeTxnFromMeta ec txn).status = .pending ∨
        (synthesizeTxnFromMeta ec txn).status = .aborted) := by
  unfold synthesizeTxnFromMeta
  split_ifs
  · exact ⟨hx, rfl, .inr rfl⟩
  · split
    · exact ⟨hx, rfl, .inl rfl⟩
    · exact ⟨hx, rfl, .inr rfl⟩

variable {pushee : Transaction}

theorem pushActive_eq_ok {args : PushTxnRequest} (ho : pushActive ec args pushee record = .ok o) :
    ∃ won, pusherWins ec args (args.upgradedType pushee) (args.learn pushee) = some won ∧
      (args.learn pushee).status ≠ .staging ∧
      pushed args won record.isSome (args.learn pushee) = .ok o.txn ∧
      o.record = if record.isSome then some o.txn.asRecord else none := by
  unfold pushActive at ho
  dsimp only at ho
  split at ho
  · cases ho
  rename_i hstaging
  cases hwins : pusherWins ec args (args.upgradedType pushee) (args.learn pushee) with
  | none =>
    rw [hwins] at ho
    cases ho
  | some won =>
    rw [hwins] at ho hstaging
    obtain ⟨txn, hp, rfl⟩ := map_eq_ok ho
    exact ⟨won, rfl, fun hst => hstaging ⟨hst, .inl rfl⟩, hp, rfl⟩

/-- What a push does: the answer is what the record says, and there is no record if none was. -/
structure PushesTxn (ec : EvalContext) (x : TxnIdentity) (args : PushTxnRequest)
    (record : Option TransactionRecord) (o : Outcome) : Prop where
  evolves : Evolves ec x record o.record
  txn : x.Is o.txn.toTxnMeta
  key : args.key = x.key
  keeps : ∀ r ∈ o.record, record.isSome ∧ r.status = o.txn.status ∧
    r.writeTimestamp = o.txn.writeTimestamp
  pushes : args.pushType = .timestamp → o.txn.status = .aborted ∨ o.txn.status = .committed ∨
    args.pushTo.LessEq o.txn.writeTimestamp
  unrecorded : o.record = none → o.txn.status = .pending ∨ o.txn.status = .aborted

theorem pushTxn_checked {args : PushTxnRequest}
    (hresult : (∃ o, result = .ok o) ∨ ∃ t, result = .error (.indeterminateCommit t))
    (hp : pushTxn ec h args record = result) : args.key = args.pusheeTxn.key ∧
      ((∃ r, record = some r ∧ pushPushee ec args r.asTransaction (some r) = result) ∨
      record = none ∧ ((synthesizeTxnFromMeta ec args.pusheeTxn).status = .aborted ∧
          result = .ok ⟨synthesizeTxnFromMeta ec args.pusheeTxn, none⟩ ∨
        (synthesizeTxnFromMeta ec args.pusheeTxn).status ≠ .aborted ∧
          pushPushee ec args (synthesizeTxnFromMeta ec args.pusheeTxn) none = result)) := by
  unfold pushTxn at hp
  by_cases htxn : h.txn.isSome = true
  · rw [if_pos htxn] at hp
    exact absurd hp (error_ne hresult (by simp))
  rw [if_neg htxn] at hp
  by_cases hto : h.writeTimestamp.Less args.pushTo
  · rw [if_pos hto] at hp
    exact absurd hp (error_ne hresult (by simp))
  rw [if_neg hto] at hp
  by_cases hmin : h.writeTimestamp.Less args.pusheeTxn.minTimestamp
  · rw [if_pos hmin] at hp
    exact absurd hp (error_ne hresult (by simp))
  rw [if_neg hmin] at hp
  by_cases hkey : args.key ≠ args.pusheeTxn.key
  · rw [if_pos hkey] at hp
    exact absurd hp (error_ne hresult (by simp))
  rw [if_neg hkey] at hp
  refine ⟨not_not.mp hkey, ?_⟩
  cases record with
  | some r => exact .inl ⟨r, rfl, hp⟩
  | none =>
    by_cases haborted : (synthesizeTxnFromMeta ec args.pusheeTxn).status = .aborted
    · rw [if_pos haborted] at hp
      exact .inr ⟨rfl, .inl ⟨haborted, hp.symm⟩⟩
    · rw [if_neg haborted] at hp
      exact .inr ⟨rfl, .inr ⟨haborted, hp⟩⟩

theorem recoverCommitted_go {args : RecoverTxnRequest} (hgo : recoverCommitted args r = .go) :
    r.status = .staging ∧ args.txn.epoch = r.epoch ∧
      args.txn.writeTimestamp = r.writeTimestamp := by
  unfold recoverCommitted at hgo
  cases hst : r.status with
  | pending | aborted =>
    rw [hst] at hgo
    cases hgo
  | committed =>
    rw [hst] at hgo
    rw [if_pos rfl] at hgo
    split_ifs at hgo
  | staging =>
    rw [hst] at hgo
    split_ifs at hgo with hepoch hts
    exact ⟨rfl, not_not.mp hepoch, not_not.mp hts⟩

theorem recoverPrevented_go {args : RecoverTxnRequest} (hgo : recoverPrevented args r = .go) :
    r.status = .staging ∧ r.epoch ≤ args.txn.epoch ∧
      r.writeTimestamp.LessEq args.txn.writeTimestamp := by
  unfold recoverPrevented at hgo
  cases hst : r.status with
  | aborted | committed =>
    rw [hst] at hgo
    cases hgo
  | pending =>
    rw [hst] at hgo
    split_ifs at hgo
  | staging =>
    rw [hst] at hgo
    dsimp only at hgo
    split_ifs at hgo with hlegal
    rw [not_or, not_lt, Timestamp.less_iff, not_lt] at hlegal
    exact ⟨rfl, hlegal.1, (Timestamp.lessEq_iff _ _).mpr hlegal.2⟩

/-- The assertions of a recovery that are called programming errors. -/
def EvalError.IsProgrammingError : EvalError → Prop
  | .recoverStatus _ | .recoverEpoch _ _ | .recoverTimestamp _ _ => True
  | _ => False

theorem recoverTxn_checked (ec : EvalContext) (h : Header) (args : RecoverTxnRequest)
    (record : Option TransactionRecord) :
    (∃ e, recoverTxn ec h args record = .error e ∧ ¬ e.IsProgrammingError ∧
        ∀ u, e ≠ .indeterminateCommit u) ∨
      args.key = args.txn.key ∧
      (record = none → (synthesizeTxnFromMeta ec args.txn).status = .aborted) ∧
      recoverTxn ec h args record = match record with
        | none => .ok ⟨synthesizeTxnFromMeta ec args.txn, none⟩
        | some r =>
          match (if args.implicitlyCommitted then recoverCommitted args r
            else recoverPrevented args r) with
          | .fail e => .error e
          | .stop => .ok ⟨r.asTransaction, some r⟩
          | .go => .ok ⟨recoveredTxn args r, some (recoveredTxn args r).asRecord⟩ := by
  unfold recoverTxn
  by_cases htxn : h.txn.isSome = true
  · rw [if_pos htxn]
    exact .inl ⟨_, rfl, id, by simp⟩
  rw [if_neg htxn]
  by_cases hmin : h.writeTimestamp.Less args.txn.minTimestamp
  · rw [if_pos hmin]
    exact .inl ⟨_, rfl, id, by simp⟩
  rw [if_neg hmin]
  by_cases hkey : args.key ≠ args.txn.key
  · rw [if_pos hkey]
    exact .inl ⟨_, rfl, id, by simp⟩
  rw [if_neg hkey]
  cases record with
  | none =>
    by_cases haborted : (synthesizeTxnFromMeta ec args.txn).status ≠ .aborted
    · rw [if_pos haborted]
      exact .inl ⟨_, rfl, id, by simp⟩
    · rw [if_neg haborted]
      exact .inr ⟨not_not.mp hkey, fun _ => not_not.mp haborted, rfl⟩
  | some r => exact .inr ⟨not_not.mp hkey, by simp, rfl⟩

/-- What a recovery does: the answer is what the record says, and only a staging record changes. -/
structure RecoversTxn (ec : EvalContext) (x : TxnIdentity) (args : RecoverTxnRequest)
    (record : Option TransactionRecord) (o : Outcome) : Prop where
  evolves : Evolves ec x record o.record
  txn : x.Is o.txn.toTxnMeta
  key : args.key = x.key
  keeps : ∀ r ∈ o.record, record.isSome ∧ r.status = o.txn.status
  commits : o.txn.status = .committed → CommitAllowed ec x record o.txn.writeTimestamp

end Commands

end Cockroach.KvServer
