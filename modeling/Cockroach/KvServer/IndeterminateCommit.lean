import Cockroach.KvServer.CommitRecovery

/-! Recoveries that start from an indeterminate commit end without an assertion, as long as
rollbacks and pushes bring nothing to a staging record that its attempt does not know, and the
coordinator does not go on where an attempt has failed. -/
namespace Cockroach.KvServer
open ByteOrder Hlc Storage Roachpb List Option

theorem CommitRun.mono {x : TxnIdentity} {P Q : CommitState → CommitEvent → Prop}
    (h : ∀ s e, P s e → Q s e) {s : CommitState} (hrun : CommitRun x P s) : CommitRun x Q s := by
  induction hrun with
  | start epoch ts reads hts => exact .start epoch ts reads hts
  | step e _ hv hp ih => exact .step e ih hv (h _ _ hp)

namespace CommitState

/-- A recovery that has probed its writes is a valid input of `RecoverTxn`. -/
theorem CommitInvariant.recovers {x : TxnIdentity} {s : CommitState} (hs : s.CommitInvariant x)
    {r : Recovery} (hr : r ∈ s.recoveries) (hprobed : r.Probed) {ec : EvalContext} {h : Header}
    {e : EvalError}
      (he : KvServer.recoverTxn ec h r.recoverTxnRequest s.records.record = .error e) :
    ¬ e.IsProgrammingError := by
  obtain ⟨a, hp⟩ := hs.recoveries r hr
  obtain ⟨⟨hbatch, -⟩, hdone⟩ := hprobed
  refine recoverTxn_of_allowed ?_ ?_ he
  · intro himplicit rec hrec
    have hnot : r.preventedIntent = false := by
      unfold Recovery.recoverTxnRequest at himplicit
      simpa using himplicit
    have hrest : r.rest = [] := hdone.resolve_left (by rw [hnot]; exact Bool.false_ne_true)
    -- All declared writes were found, so the attempt still lives in the record.
    have hlanded : ∀ w ∈ a.writes, s.Landed a w := by
      intro w hw
      rcases hp.found w hw with hin | hin | hprevented | hlanded
      · rw [hbatch] at hin
        cases hin
      · rw [hrest] at hin
        cases hin
      · rw [hnot] at hprevented
        cases hprevented
      · exact hlanded
    change _ ∧ r.txn.epoch = rec.epoch ∧ r.txn.writeTimestamp = rec.writeTimestamp
    rw [hp.epoch, hp.ts]
    rcases hs.recorded.live a hp.staged with hdead | ⟨rec', hrec', hstages⟩ | ⟨-, hwhere⟩
    · exact absurd hdead (Coordinator.not_dead_of_landed hlanded)
    · obtain rfl := some.inj (hrec.symm.trans hrec')
      exact ⟨.inl hstages.status, hstages.epoch, hstages.ts⟩
    · obtain ⟨hst, hepoch, hts⟩ := hwhere rec hrec
      exact ⟨.inr hst, hepoch, hts⟩
  · intro _ rec hrec hpending
    change r.txn.epoch < rec.epoch
    rw [hp.epoch]
    exact (hs.recorded.bound a hp.staged rec hrec (by rw [hpending]; rfl)).2.2 hpending

end CommitState

/-- In a run whose coordinator, rollbacks and pushes are careful, an indeterminate commit describes
the staging record, and no recovery ends in a programming error. -/
theorem recoveries_sound_of_careful {x : TxnIdentity} {s : CommitState}
    (h : CommitRun x CommitState.Careful s) :
    (∀ c ec responseTS t, s.Valid x (.command c ec responseTS) →
      s.Careful (.command c ec responseTS) →
      c.eval ec s.records.record = .error (.indeterminateCommit t) →
      ∃ r, s.records.record = some r ∧ r.status = .staging ∧ t.epoch = r.epoch ∧
        t.writeTimestamp = r.writeTimestamp) ∧ ∀ r ∈ s.recoveries, r.Probed → ∀ ec hdr e,
      recoverTxn ec hdr r.recoverTxnRequest s.records.record = .error e →
      ¬ e.IsProgrammingError := by
  have hs := CommitState.invariant_of_run (fun _ _ => id) h
  constructor
  · intro c ec responseTS t hv hcareful heval
    obtain ⟨-, r, hr, hst, hepoch, hts, -⟩ := hs.indeterminate hv hcareful heval
    exact ⟨r, hr, hst, hepoch, hts⟩
  · intro r hr hprobed ec hdr e he
    exact hs.recovers hr hprobed he

def stagedAt : Timestamp := .ofNanos 10

def readAt : Timestamp := .ofNanos 14

def landedAt : Timestamp := .ofNanos 15

def probedAt : Timestamp := .ofNanos 20

/-- The coordinator's transaction at a timestamp. -/
def writerTxn (ts : Timestamp) : Roachpb.Transaction where
  toTxnMeta := writerMeta ts
  readTimestamp := ts
  ignoredSeqNums := []
  status := .pending
  lastHeartbeat := early
  globalUncertaintyLimit := ts
  observedTimestamps := []
  writeTooOld := false
  commitTimestampFixed := false
  lockSpans := []
  inFlightWrites := []

/-- A replica whose timestamp cache has seen the requests of the transaction. -/
def replica (tombstone : Timestamp) : EvalContext where
  now := probedAt
  markers := ⟨.empty, tombstone, 1⟩
  leaseStart := .empty
  recoverIndeterminateCommitsOnFailedPushes := false
  txnAutoGC := true
  resolveLocalLocks := fun _ => .ok []
  runCommitTrigger := fun _ => .ok ()

def pipelinedWrite : SequencedWrite := ⟨[98], 1⟩

def pipelinedAttempt : Attempt := ⟨0, stagedAt, [pipelinedWrite]⟩

/-- The coordinator sends a write and an attempt to commit, which stages the record. -/
def stagedState : CommitState :=
  (((CommitState.start 0 stagedAt fun _ => .empty).step (.send pipelinedWrite)).step
    (.attempt [pipelinedWrite])).step
    (.commit pipelinedAttempt ⟨stagedAt, some (writerTxn stagedAt)⟩
      ⟨[97], true, false, false, none, false, [], [pipelinedWrite]⟩ (replica .empty) stagedAt)

theorem replica_determinate (tombstone : Timestamp) : (replica tombstone).Determinate :=
  ⟨fun _ _ => by simp [replica], fun _ _ => by simp [replica]⟩

theorem stagedState_run : CommitRun writerIdentity CommitState.Careful stagedState := by
  have hnone {a : Attempt} {p : Prop} (ha : a ∈ ([] : List Attempt)) : p := by cases ha
  refine .step _ (.step _ (.step _ (.start 0 stagedAt _ (by decide)) (fun _ => hnone)
    fun _ => hnone)
    ?_ fun _ => hnone) ?_ trivial
  · refine ⟨fun a ha => (by cases ha), ?_, fun l hl => (by cases hl)⟩
    intro w hw _
    obtain rfl := mem_singleton.mp hw
    exact mem_singleton.mpr rfl
  · refine ⟨mem_singleton.mpr rfl, rfl, rfl, ?_, replica_determinate _, ?_⟩
    · intro t ht
      obtain rfl := some.inj ht
      exact ⟨rfl, rfl, .inl rfl⟩
    · refine ⟨?_, by decide, by decide, by simp [CacheAnswers, CommitState.start, CommitState.step]⟩
      intro m hm
      obtain rfl := some.inj hm
      exact ⟨rfl, rfl, rfl⟩

/-- The write lands above the attempt, the coordinator learns of it, moves there and rolls back, and
the recovery of the indeterminate commit finds the write. -/
def rolledBackState : CommitState :=
  ((((stagedState.step (.read [98] readAt)).step
    (.land ⟨[98], 0, 1, stagedAt⟩ { writerMeta landedAt with sequence := 1 })).step
    (.learn pipelinedAttempt)).step (.advance 0 landedAt)).step
    (.command (.endTxn ⟨landedAt, some (writerTxn landedAt)⟩
      ⟨[97], false, false, false, none, false, [], []⟩) (replica probedAt) landedAt)

/-- The transaction of the indeterminate commit that the rollback meets. -/
def rolledBackTxn : Roachpb.Transaction :=
  { (writerTxn landedAt) with status := .staging, inFlightWrites := [pipelinedWrite] }

/-- A recovery of the only write, with the queries that are not answered yet. -/
def pipelinedRecovery (txn : Roachpb.Transaction) (batch : List SequencedWrite)
    (unchanged : Bool) : Recovery :=
  ⟨txn, batch, [], unchanged, false⟩

theorem start_pipelined {txn : Roachpb.Transaction} (h : txn.inFlightWrites = [pipelinedWrite]) :
    .start txn = pipelinedRecovery txn [pipelinedWrite] false := by
  unfold Recovery.start
  rw [h, mergeSort_singleton]
  rfl

def probedState : CommitState :=
  (rolledBackState.step (.queryTxn (pipelinedRecovery rolledBackTxn [pipelinedWrite] false)
    (replica probedAt))).step
    (.queryIntent (pipelinedRecovery rolledBackTxn [pipelinedWrite] true) pipelinedWrite probedAt)

theorem lands_first {s : CommitState} {ts : Timestamp} (hts : stagedAt.LessEq ts)
    (hsent : s.sent = [⟨[98], 0, 1, stagedAt⟩]) (happlied : s.applied = [])
    (hintents : s.intents [98] = none) (habove : (s.reads [98]).Less ts) :
    s.Lands writerIdentity ⟨[98], 0, 1, stagedAt⟩ { writerMeta ts with sequence := 1 } where
  sent := by simp [hsent]
  is := ⟨rfl, rfl, rfl⟩
  epoch := rfl
  sequence := rfl
  ts := hts
  above := habove
  ascends := by simp [happlied]
  replaces := by simp [hintents]

theorem rolledBackState_run : CommitRun writerIdentity (fun _ _ => True) rolledBackState := by
  have hstaged : CommitRun writerIdentity (fun _ _ => True) stagedState :=
    stagedState_run.mono fun _ _ _ => trivial
  refine .step _ (.step _
    (.step _ (.step _ (.step _ hstaged trivial trivial) ?_ trivial) ?_ trivial)
    ?_ trivial) ?_ trivial
  · exact lands_first (by decide) rfl rfl rfl (by decide : readAt.Less landedAt)
  · refine ⟨mem_singleton.mpr rfl,
      .inl ⟨pipelinedWrite, mem_singleton.mpr rfl, ?_, fun r hr => (by cases hr)⟩⟩
    rintro ⟨l, hl, -, -, -, hle⟩
    obtain rfl := mem_singleton.mp hl
    exact absurd hle (by decide)
  · exact ⟨le_refl _, by decide, .inr (by decide), fun a ha _ => ha⟩
  · refine ⟨?_, replica_determinate _, ?_, by decide, by decide, ?_⟩
    · intro t ht
      obtain rfl := some.inj ht
      exact ⟨mem_cons_self, .inl rfl⟩
    · intro m hm
      obtain rfl := some.inj hm
      exact ⟨rfl, rfl, rfl⟩
    · intro entry hentry _ _
      obtain rfl := mem_singleton.mp hentry
      decide

theorem probedState_run : CommitRun writerIdentity (fun _ _ => True) probedState := by
  have hrecoveries : rolledBackState.recoveries = [Recovery.start rolledBackTxn] := rfl
  rw [start_pipelined rfl] at hrecoveries
  refine .step _ (.step _ rolledBackState_run ?_ trivial) ?_ trivial
  · change _ ∈ rolledBackState.recoveries
    rw [hrecoveries]
    exact mem_singleton.mpr rfl
  · exact ⟨mem_cons_self, mem_singleton.mpr rfl⟩

/-- A rollback that has seen its write land above the staging record hands the higher timestamp to
the recovery, which then finds the write and trips over the record. -/
theorem rollback_recovery_asserts : CommitRun writerIdentity (fun _ _ => True) probedState ∧
      ∃ r ∈ probedState.recoveries, r.Probed ∧
        recoverTxn (replica probedAt) (r.header probedAt) r.recoverTxnRequest
          probedState.records.record = .error (.recoverTimestamp landedAt stagedAt) ∧
        (EvalError.recoverTimestamp landedAt stagedAt).IsProgrammingError :=
  ⟨probedState_run, pipelinedRecovery rolledBackTxn [] true, mem_cons_self,
    ⟨⟨rfl, rfl⟩, .inr rfl⟩, rfl, trivial⟩

/-- The write lands where the record is staged, and a forced push meets the staging record. -/
def pushedState : CommitState :=
  (stagedState.step (.land ⟨[98], 0, 1, stagedAt⟩ { writerMeta stagedAt with sequence := 1 })).step
    (.command (.pushTxn ⟨probedAt, none⟩ ⟨[97], ⟨2, [99], 0, probedAt, probedAt, 1, 0⟩,
      { writerMeta stagedAt with sequence := 1 }, probedAt, .abort, true⟩) (replica probedAt)
      probedAt)

/-- The transaction of the indeterminate commit that the push meets. -/
def stagingTxn : Roachpb.Transaction :=
  { (writerTxn stagedAt) with
    status := .staging, inFlightWrites := [pipelinedWrite]
    readTimestamp := .empty, globalUncertaintyLimit := .empty }

def recoveredState : CommitState :=
  (pushedState.step (.queryTxn (pipelinedRecovery stagingTxn [pipelinedWrite] false)
    (replica probedAt))).step
    (.queryIntent (pipelinedRecovery stagingTxn [pipelinedWrite] true) pipelinedWrite probedAt)

theorem pushedState_run : CommitRun writerIdentity CommitState.Careful pushedState := by
  refine .step _ (.step _ stagedState_run ?_ trivial) ?_ ?_
  · exact lands_first (by decide) rfl rfl rfl (by decide : Timestamp.empty.Less stagedAt)
  · refine ⟨.inr ⟨_, mem_cons_self, rfl, rfl⟩, replica_determinate _, ?_, by decide,
      by decide, ?_⟩
    · intro m hm
      obtain rfl := some.inj hm
      exact ⟨rfl, rfl, rfl⟩
    · intro entry hentry _ _
      obtain rfl := mem_singleton.mp hentry
      decide
  · intro r hr _ _
    obtain rfl := some.inj hr
    exact le_refl _

theorem recoveredState_run : CommitRun writerIdentity CommitState.Careful recoveredState := by
  have hrecoveries : pushedState.recoveries = [Recovery.start stagingTxn] := rfl
  rw [start_pipelined rfl] at hrecoveries
  refine .step _ (.step _ pushedState_run ?_ trivial) ?_ trivial
  · change _ ∈ pushedState.recoveries
    rw [hrecoveries]
    exact mem_singleton.mpr rfl
  · exact ⟨mem_cons_self, mem_singleton.mpr rfl⟩

/-- The recovery of the push finds the write, and commits the record. -/
theorem pushed_recovery_commits : pipelinedRecovery stagingTxn [] true ∈ recoveredState.recoveries ∧
      (∃ o, recoverTxn (replica probedAt) ((pipelinedRecovery stagingTxn [] true).header probedAt)
        (pipelinedRecovery stagingTxn [] true).recoverTxnRequest recoveredState.records.record
          = .ok o ∧ o.txn.status = .committed) ∧
      ∀ ec hdr e, recoverTxn ec hdr (pipelinedRecovery stagingTxn [] true).recoverTxnRequest
        recoveredState.records.record = .error e → ¬ e.IsProgrammingError := by
  have hmem : pipelinedRecovery stagingTxn [] true ∈ recoveredState.recoveries :=
    mem_cons_self
  refine ⟨hmem, ⟨_, rfl, rfl⟩, ?_⟩
  exact (recoveries_sound_of_careful recoveredState_run).2 _ hmem ⟨⟨rfl, rfl⟩, .inr rfl⟩

end Cockroach.KvServer
