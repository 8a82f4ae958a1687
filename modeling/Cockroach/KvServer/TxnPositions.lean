import Cockroach.KvServer.TxnRecord
import Cockroach.Roachpb.TransactionUpdates

/-! The epoch, timestamp, status and in-flight writes that each command leaves in a record. -/
namespace Cockroach.Roachpb.Transaction
open Hlc

/-- What an update by a transaction that is not behind leaves. -/
structure Updated (t o t' : Transaction) : Prop where
  epoch : t'.epoch = o.epoch
  writeTimestamp : t'.writeTimestamp = t.writeTimestamp.forward o.writeTimestamp
  readTimestamp : t'.readTimestamp = t.readTimestamp.forward o.readTimestamp
  status : t'.status = if t.epoch < o.epoch then o.status else sameEpochStatus t.status o.status
  inFlightWrites : t.epoch = o.epoch →
    t'.inFlightWrites = if o.inFlightWrites ≠ [] then o.inFlightWrites else t.inFlightWrites

theorem update_updated {t o t' : Transaction} (h : t.update o = some t') (hid : t.id = o.id)
    (hepoch : t.epoch ≤ o.epoch) : Updated t o t' := by
  have hu := update_updates h hid
  refine ⟨?_, hu.writeTimestamp, hu.readTimestamp, ?_, hu.inFlightWrites⟩
  · rw [hu.epoch, max_eq_right hepoch]
  · rw [hu.status]
    grind

end Cockroach.Roachpb.Transaction

namespace Cockroach.KvServer
open ByteOrder Hlc Roachpb
open Storage hiding Transaction

namespace Outcome

/-- The record says what is answered. -/
def Consistent (o : Outcome) : Prop :=
  ∀ r ∈ o.record, r.toTxnMeta = o.txn.toTxnMeta ∧ r.status = o.txn.status ∧
    (o.txn.status = .staging → r.inFlightWrites = o.txn.inFlightWrites)

/-- The record is still where it was. -/
structure Keeps (o : Outcome) (r : TransactionRecord) : Prop where
  isSome : o.record.isSome
  epoch : o.txn.epoch = r.epoch
  writeTimestamp : o.txn.writeTimestamp = r.writeTimestamp
  status : o.txn.status = r.status
  inFlightWrites : o.txn.inFlightWrites = r.inFlightWrites

theorem consistent_asRecord (txn : Transaction) : Consistent ⟨txn, some txn.asRecord⟩ := by
  rintro _ ⟨⟩
  exact ⟨rfl, rfl, fun _ => rfl⟩

theorem consistent_none (txn : Transaction) : Consistent ⟨txn, none⟩ := by
  rintro _ ⟨⟩

theorem keeps_asTransaction (r : TransactionRecord) : Keeps ⟨r.asTransaction, some r⟩ r :=
  ⟨rfl, rfl, rfl, rfl, rfl⟩

end Outcome

section Positions

variable {ec : EvalContext} {x : TxnIdentity} {h : Header} {record : Option TransactionRecord}
  {o : Outcome} {r : TransactionRecord}

/-- A record that was not finalized goes forward or is removed. -/
theorem evolves_of_active (hc : o.Consistent) (hactive : r.status.isFinalized = false)
    (hx : x.Is o.txn.toTxnMeta) (hle : r.writeTimestamp.LessEq o.txn.writeTimestamp) :
    Evolves ec x (some r) o.record := by
  cases hrec : o.record with
  | none => exact .remove r
  | some r' =>
    have hmeta := (hc r' hrec).1
    exact .forward hactive (by rwa [hmeta]) (by rwa [hmeta])

theorem evolves_of_create {minCommitTS : Timestamp} (hc : o.Consistent)
    (hok : ec.canCreateTxnRecord x.id x.minTimestamp = .ok minCommitTS)
    (hx : x.Is o.txn.toTxnMeta) (hle : minCommitTS.LessEq o.txn.writeTimestamp) :
    Evolves ec x none o.record := by
  cases hrec : o.record with
  | none => exact .same none
  | some r' =>
    have hmeta := (hc r' hrec).1
    exact .create hok (by rwa [hmeta]) (by rwa [hmeta])

theorem evolves_of_aborted (hc : o.Consistent) (hx : x.Is o.txn.toTxnMeta)
    (hst : o.txn.status = .aborted) (hrecord : ∀ r ∈ record, r.status = .aborted) :
    Evolves ec x record o.record := by
  cases hrec : o.record with
  | none =>
    cases record with
    | none => exact .same none
    | some r => exact .remove r
  | some r' =>
    obtain ⟨hmeta, hst', -⟩ := hc r' hrec
    have hx' : x.Is r'.toTxnMeta := by rwa [hmeta]
    cases record with
    | none => exact .rollback hx' (hst'.trans hst)
    | some r => exact .abortAgain (hrecord r rfl) (hst'.trans hst) hx'

/-- A heartbeat leaves the record where it is, or creates it. -/
theorem heartbeatTxn_eq_ok {args : HeartbeatTxnRequest} (hrecord : ∀ r ∈ record, x.Is r.toTxnMeta)
    (htxn : ∀ t ∈ h.txn, x.Is t.toTxnMeta) (ho : heartbeatTxn ec h args record = .ok o) :
    Evolves ec x record o.record ∧ o.Consistent ∧ ∃ t, h.txn = some t ∧ args.key = t.key ∧
      ((∃ r, record = some r ∧ o.Keeps r) ∨ record = none ∧
        (∃ minCommitTS, ec.canCreateTxnRecord x.id x.minTimestamp = .ok minCommitTS) ∧
        o.txn.epoch = t.epoch ∧ o.txn.status = t.status ∧
        (t.status = .pending → o.record.isSome)) := by
  obtain ⟨hTxn, hv, ho⟩ := bind_eq_ok ho
  obtain ⟨hsome, hkey, -⟩ := verifyTransaction_eq_ok hv
  have hx := htxn hTxn hsome
  split_ifs at ho
  obtain ⟨txn, htarget, ho⟩ := bind_eq_ok ho
  cases record with
  | none =>
    obtain ⟨minCommitTS, hok, rfl⟩ := canCreateTxnRecord_eq_ok htarget
    rw [hx.1, hx.2.2] at hok
    split_ifs at ho with hfinal
    · obtain rfl := Except.ok.inj ho
      refine ⟨.same none, Outcome.consistent_none _, hTxn, hsome, hkey,
        .inr ⟨rfl, ⟨minCommitTS, hok⟩, rfl, rfl, ?_⟩⟩
      intro hpending
      rw [hpending] at hfinal
      cases hfinal
    · obtain rfl := Except.ok.inj ho
      exact ⟨.create hok hx (.forward_right _ _), Outcome.consistent_asRecord _, hTxn, hsome,
        hkey, .inr ⟨rfl, ⟨minCommitTS, hok⟩, rfl, rfl, fun _ => rfl⟩⟩
  | some r =>
    obtain rfl := Except.ok.inj htarget
    split_ifs at ho with hfinal
    · obtain rfl := Except.ok.inj ho
      exact ⟨.same _, Outcome.consistent_asRecord r.asTransaction, hTxn, hsome, hkey,
        .inl ⟨r, rfl, Outcome.keeps_asTransaction r⟩⟩
    · obtain rfl := Except.ok.inj ho
      exact ⟨.forward (Bool.eq_false_of_not_eq_true hfinal) (hrecord r rfl) (.refl _),
        Outcome.consistent_asRecord _, hTxn, hsome, hkey, .inl ⟨r, rfl, rfl, rfl, rfl, rfl, rfl⟩⟩

variable {args : EndTxnRequest} {txn : Transaction}

theorem finalizeTxn_consistent (hstatus : txn.status ≠ .staging)
    (ho : finalizeTxn ec args txn = .ok o) : o.txn = txn ∧ o.Consistent := by
  obtain ⟨externalLocks, -, ho⟩ := bind_eq_ok ho
  have hout : o = ⟨txn, updateFinalizedTxn ec txn externalLocks⟩ := by
    split_ifs at ho
    · obtain ⟨_, -, ho⟩ := map_eq_ok ho
      exact ho.symm
    · exact (Except.ok.inj ho).symm
  rw [hout]
  refine ⟨rfl, ?_⟩
  unfold updateFinalizedTxn
  split_ifs
  · exact Outcome.consistent_none txn
  · rintro _ ⟨⟩
    exact ⟨rfl, rfl, fun hstaging => absurd hstaging hstatus⟩

/-- What becomes of a transaction that was not finalized, by what is asked for. -/
structure FinishesTxn (args : EndTxnRequest) (txn : Transaction) (o : Outcome) : Prop where
  toTxnMeta : o.txn.toTxnMeta = txn.toTxnMeta
  consistent : o.Consistent
  commits : args.commit = true → txn.writeTimestamp = txn.readTimestamp ∧
    (args.inFlightWrites = [] ∧ o.txn.status = .committed ∨
      args.inFlightWrites ≠ [] ∧ o.txn.status = .staging ∧ o.record.isSome ∧
        o.txn.inFlightWrites = args.inFlightWrites)
  aborts : args.commit = false → txn.status ≠ .staging ∧ o.txn.status = .aborted

theorem finishEndTxn_finishes (ho : finishEndTxn ec args txn = .ok o) : FinishesTxn args txn o := by
  unfold finishEndTxn at ho
  by_cases hcommit : args.commit = true
  · rw [if_pos hcommit] at ho
    cases hretry : isEndTxnTriggeringRetryError txn args with
    | some reason =>
      rw [hretry] at ho
      cases ho
    | none =>
      rw [hretry] at ho
      have hts : txn.writeTimestamp = txn.readTimestamp := by
        unfold isEndTxnTriggeringRetryError at hretry
        by_contra hne
        split_ifs at hretry
      by_cases hwrites : args.inFlightWrites = []
      · have hparallel : args.isParallelCommit = false := by
          simp [EndTxnRequest.isParallelCommit, hwrites]
        rw [hparallel] at ho
        obtain ⟨htxn, hconsistent⟩ := finalizeTxn_consistent (by simp) ho
        exact ⟨by rw [htxn], hconsistent, fun _ => ⟨hts, .inl ⟨hwrites, by rw [htxn]⟩⟩,
          by simp [hcommit]⟩
      · have hparallel : args.isParallelCommit = true := by
          simp [EndTxnRequest.isParallelCommit, hcommit, hwrites]
        split_ifs at ho
        obtain rfl := Except.ok.inj ho
        exact ⟨rfl, Outcome.consistent_asRecord _,
          fun _ => ⟨hts, .inr ⟨hwrites, rfl, rfl, rfl⟩⟩, by simp [hcommit]⟩
  · rw [if_neg hcommit] at ho
    by_cases hstaging : txn.status = .staging
    · rw [if_pos hstaging] at ho
      cases ho
    · rw [if_neg hstaging] at ho
      obtain ⟨htxn, hconsistent⟩ := finalizeTxn_consistent (by simp) ho
      exact ⟨by rw [htxn], hconsistent, fun hyes => absurd hyes hcommit,
        fun _ => ⟨hstaging, by rw [htxn]⟩⟩

theorem updateExisting_updated {existing txn' : Transaction}
    (hexisting : x.Is existing.toTxnMeta) (htxn : x.Is txn.toTxnMeta)
    (hu : updateExisting existing txn = .ok txn') :
    x.Is txn'.toTxnMeta ∧ existing.epoch ≤ txn.epoch ∧ Transaction.Updated existing txn txn' := by
  unfold updateExisting at hu
  by_cases hlt : txn.epoch < existing.epoch
  · rw [if_pos hlt] at hu
    cases hu
  rw [if_neg hlt] at hu
  have hle : existing.epoch ≤ txn.epoch := not_lt.mp hlt
  have hid := hexisting.1.trans htxn.1.symm
  have his : ∀ t : Transaction, t.update txn = some txn' →
      t.toTxnMeta = existing.toTxnMeta → x.Is txn'.toTxnMeta := by
    intro t ht hmeta
    rw [← hmeta] at hexisting
    obtain ⟨hid', hkey', hmin'⟩ := Transaction.update_eq_some ht (hexisting.1.trans htxn.1.symm)
      (hexisting.2.1.trans htxn.2.1.symm) (hexisting.2.2.trans htxn.2.2.symm)
    exact ⟨hid'.trans hexisting.1, hkey'.trans hexisting.2.1, hmin'.trans hexisting.2.2⟩
  dsimp only at hu
  split at hu
  · cases hu
  rename_i t ht
  obtain rfl := Except.ok.inj hu
  by_cases hrestart : existing.status = .staging ∧ txn.epoch > existing.epoch
  · rw [if_pos hrestart] at ht
    -- The status that was set to pending is overwritten by that of the newer epoch.
    obtain ⟨he, hw, hr, hs, hi⟩ := Transaction.update_updated ht hid hle
    have hlt' : existing.epoch < txn.epoch := hrestart.2
    refine ⟨his _ ht rfl, hle, he, hw, hr, ?_, hi⟩
    rw [hs, if_pos hlt', if_pos hlt']
  · rw [if_neg hrestart] at ht
    exact ⟨his _ ht rfl, hle, Transaction.update_updated ht hid hle⟩

/-- How the end of a transaction comes to its outcome. -/
inductive TxnEnd (ec : EvalContext) (x : TxnIdentity) (args : EndTxnRequest)
    (t : Transaction) (o : Outcome) : Option TransactionRecord → Prop where
  | create {minCommitTS : Timestamp} : args.commit = true →
      ec.canCreateTxnRecord t.id t.minTimestamp = .ok minCommitTS →
      FinishesTxn args { t with writeTimestamp := t.writeTimestamp.forward minCommitTS } o →
      TxnEnd ec x args t o none
  | rollback : args.commit = false → FinishesTxn args t o → TxnEnd ec x args t o none
  | aborted {r : TransactionRecord} : args.commit = false → r.status = .aborted →
      o.txn = r.asTransaction → o.Consistent → TxnEnd ec x args t o (some r)
  | update {r : TransactionRecord} {txn : Transaction} : r.status.isFinalized = false →
      x.Is txn.toTxnMeta → r.epoch ≤ t.epoch → Transaction.Updated r.asTransaction t txn →
      FinishesTxn args txn o → TxnEnd ec x args t o (some r)

theorem endTxn_txnEnd (hrecord : ∀ r ∈ record, x.Is r.toTxnMeta)
    (htxn : ∀ t ∈ h.txn, x.Is t.toTxnMeta) (ho : endTxn ec h args record = .ok o) :
    ∃ t, h.txn = some t ∧ args.key = t.key ∧ TxnEnd ec x args t o record := by
  obtain ⟨t, ht, hkey, hcases⟩ := endTxn_checked (.inl ⟨o, rfl⟩) ho
  refine ⟨t, ht, hkey, ?_⟩
  rcases hcases with ⟨rfl, hend⟩ | ⟨r, rfl, haborted, hcommit, hend⟩ | ⟨r, rfl, hactive, hend⟩
  · obtain ⟨txn, htarget, hend⟩ := bind_eq_ok hend
    have hfinishes := finishEndTxn_finishes hend
    unfold endTxnTarget at htarget
    split_ifs at htarget with hcommit
    · obtain ⟨minCommitTS, hok, rfl⟩ := canCreateTxnRecord_eq_ok htarget
      exact .create hcommit hok hfinishes
    · obtain rfl := Except.ok.inj htarget
      exact .rollback (Bool.eq_false_of_not_eq_true hcommit) hfinishes
  · obtain ⟨htxn', hconsistent⟩ := finalizeTxn_consistent (by
      change r.status ≠ .staging
      rw [haborted]
      simp) hend
    exact .aborted hcommit haborted htxn' hconsistent
  · obtain ⟨txn, hupdate, hend⟩ := bind_eq_ok hend
    obtain ⟨hx, hle, hupdated⟩ := updateExisting_updated (hrecord r rfl) (htxn t ht) hupdate
    exact .update hactive hx hle hupdated (finishEndTxn_finishes hend)

theorem endTxn_eq_ok (hrecord : ∀ r ∈ record, x.Is r.toTxnMeta)
    (htxn : ∀ t ∈ h.txn, x.Is t.toTxnMeta) (ho : endTxn ec h args record = .ok o) :
    EndsTxn ec x args record o := by
  obtain ⟨t, ht, -, hend⟩ := endTxn_txnEnd hrecord htxn ho
  have hx := htxn t ht
  have haborts : o.Consistent → o.txn.status = .aborted →
      o.txn.status = .aborted ∧ ∀ r ∈ o.record, r.status = .aborted := fun hc hst =>
    ⟨hst, fun r hr => (hc r hr).2.1.trans hst⟩
  cases hend with
  | @create minCommitTS hcommit hok hfin =>
    rw [hx.1, hx.2.2] at hok
    have hle : minCommitTS.LessEq o.txn.writeTimestamp := by
      rw [hfin.toTxnMeta]
      exact .forward_right _ _
    exact ⟨evolves_of_create hfin.consistent hok (by rw [hfin.toTxnMeta]; exact hx) hle,
      by simp [hcommit], fun _ => .inl ⟨rfl, minCommitTS, hok, hle⟩⟩
  | rollback hcommit hfin =>
    have hst := (hfin.aborts hcommit).2
    exact ⟨evolves_of_aborted hfin.consistent (by rwa [hfin.toTxnMeta]) hst (by simp),
      fun _ => haborts hfin.consistent hst, by simp [hcommit]⟩
  | @aborted r hcommit hst heq hconsistent =>
    have hst' : o.txn.status = .aborted := by
      rw [heq]
      exact hst
    exact ⟨evolves_of_aborted hconsistent (by rw [heq]; exact hrecord r rfl) hst' (by simpa),
      fun _ => haborts hconsistent hst', by simp [hcommit]⟩
  | @update r txn hactive htx _ hupdated hfin =>
    have hle : r.writeTimestamp.LessEq o.txn.writeTimestamp := by
      rw [hfin.toTxnMeta, hupdated.writeTimestamp]
      exact .forward_left _ _
    refine ⟨evolves_of_active hfin.consistent hactive (by rwa [hfin.toTxnMeta]) hle,
      fun hcommit => haborts hfin.consistent (hfin.aborts hcommit).2,
      fun _ => .inr ⟨r, rfl, ?_, hle⟩⟩
    intro haborted
    rw [haborted] at hactive
    cases hactive

variable {u : Transaction}

theorem updateExisting_determinate {existing : Transaction} :
    updateExisting existing txn ≠ .error (.indeterminateCommit u) := by
  intro hupdate
  unfold updateExisting at hupdate
  by_cases hlt : txn.epoch < existing.epoch
  · rw [if_pos hlt] at hupdate
    cases hupdate
  · rw [if_neg hlt] at hupdate
    dsimp only at hupdate
    split at hupdate <;> cases hupdate

/-- A commit at the position of its header. -/
structure CommitsTxn (ec : EvalContext) (t : Transaction) (args : EndTxnRequest)
    (record : Option TransactionRecord) (o : Outcome) : Prop where
  epoch : o.txn.epoch = t.epoch
  writeTimestamp : o.txn.writeTimestamp = t.writeTimestamp
  consistent : o.Consistent
  status : args.inFlightWrites = [] ∧ o.txn.status = .committed ∨
    args.inFlightWrites ≠ [] ∧ o.txn.status = .staging ∧ o.record.isSome ∧
      o.txn.inFlightWrites = args.inFlightWrites
  found : record = none ∧ (∃ minCommitTS,
      ec.canCreateTxnRecord t.id t.minTimestamp = .ok minCommitTS) ∨
    ∃ r, record = some r ∧ r.status.isFinalized = false ∧ r.epoch ≤ t.epoch ∧
      r.writeTimestamp.LessEq t.writeTimestamp

theorem writeTimestamp_of_commit {ts write read : Timestamp} (hpos : 0 < write.ticks)
    (hread : read = write ∨ read.Less write)
    (heq : ts.forward write = Timestamp.empty.forward read) :
    ts.forward write = write ∧ ts.LessEq write := by
  have hticks := congrArg Timestamp.ticks heq
  rw [Timestamp.ticks_forward, Timestamp.ticks_forward, Timestamp.ticks_empty] at hticks
  rcases hread with rfl | hless
  · refine ⟨heq.trans (Timestamp.forward_of_lt ?_), ?_⟩
    · exact hpos
    · rw [Timestamp.lessEq_iff]
      omega
  · rw [Timestamp.less_iff] at hless
    omega

variable {t : Transaction}

theorem endTxn_commit (hrecord : ∀ r ∈ record, x.Is r.toTxnMeta)
    (htxn : ∀ t ∈ h.txn, x.Is t.toTxnMeta) (ht : h.txn = some t) (hpos : 0 < t.writeTimestamp.ticks)
    (hread : t.readTimestamp = t.writeTimestamp ∨ t.readTimestamp.Less t.writeTimestamp)
    (hcommit : args.commit = true) (ho : endTxn ec h args record = .ok o) :
    CommitsTxn ec t args record o := by
  obtain ⟨t', ht', -, hend⟩ := endTxn_txnEnd hrecord htxn ho
  obtain rfl := Option.some.inj (ht.symm.trans ht')
  cases hend with
  | @create minCommitTS _ hok hfin =>
    obtain ⟨hts, hstatus⟩ := hfin.commits hcommit
    have hwrite : t.writeTimestamp.forward minCommitTS = t.writeTimestamp := by
      rcases hread with heq | hless
      · exact hts.trans heq
      · have hticks := congrArg Timestamp.ticks hts
        rw [Timestamp.less_iff] at hless
        rw [Timestamp.ticks_forward] at hticks
        dsimp only at hticks
        omega
    refine ⟨?_, ?_, hfin.consistent, hstatus, .inl ⟨rfl, minCommitTS, hok⟩⟩
    · rw [hfin.toTxnMeta]
    · rw [hfin.toTxnMeta]
      exact hwrite
  | rollback hno _ | aborted hno _ _ _ =>
    rw [hcommit] at hno
    cases hno
  | @update r txn hactive _ hle hupdated hfin =>
    obtain ⟨hts, hstatus⟩ := hfin.commits hcommit
    rw [hupdated.writeTimestamp, hupdated.readTimestamp] at hts
    obtain ⟨hwrite, hbelow⟩ := writeTimestamp_of_commit hpos hread hts
    refine ⟨?_, ?_, hfin.consistent, hstatus, .inr ⟨r, rfl, hactive, hle, hbelow⟩⟩
    · rw [hfin.toTxnMeta, hupdated.epoch]
    · rw [hfin.toTxnMeta, hupdated.writeTimestamp]
      exact hwrite

/-- A rollback that succeeds, by what it finds. -/
structure RollsBackTxn (t : Transaction) (record : Option TransactionRecord)
    (o : Outcome) : Prop where
  status : o.txn.status = .aborted
  consistent : o.Consistent
  epoch : o.txn.epoch = t.epoch ∨ ∃ r, record = some r ∧ o.txn.epoch = r.epoch
  found : ∀ r ∈ record, r.status = .aborted ∨ r.status.isFinalized = false ∧
    (r.status = .staging → r.epoch < t.epoch ∨ t.status ≠ .pending)

theorem endTxn_rollback (hrecord : ∀ r ∈ record, x.Is r.toTxnMeta)
    (htxn : ∀ t ∈ h.txn, x.Is t.toTxnMeta) (ht : h.txn = some t)
    (hcommit : args.commit = false) (ho : endTxn ec h args record = .ok o) :
    RollsBackTxn t record o := by
  obtain ⟨t', ht', -, hend⟩ := endTxn_txnEnd hrecord htxn ho
  obtain rfl := Option.some.inj (ht.symm.trans ht')
  cases hend with
  | create hyes _ _ =>
    rw [hcommit] at hyes
    cases hyes
  | rollback _ hfin =>
    exact ⟨(hfin.aborts hcommit).2, hfin.consistent, .inl (by rw [hfin.toTxnMeta]), by simp⟩
  | @aborted r _ hst heq hconsistent =>
    exact ⟨by rw [heq]; exact hst, hconsistent, .inr ⟨r, rfl, by rw [heq]; rfl⟩,
      by simp [hst]⟩
  | @update r txn hactive _ _ hupdated hfin =>
    obtain ⟨hstaging, haborted⟩ := hfin.aborts hcommit
    refine ⟨haborted, hfin.consistent, .inl (by rw [hfin.toTxnMeta]; exact hupdated.epoch), ?_⟩
    rintro _ ⟨⟩
    refine .inr ⟨hactive, ?_⟩
    intro hst
    by_contra hsame
    rw [not_or, not_lt, not_not] at hsame
    have hstatus : txn.status = if r.epoch < t.epoch then t.status
        else Transaction.sameEpochStatus r.status t.status := hupdated.status
    rw [if_neg (not_lt.mpr hsame.1), hsame.2, hst] at hstatus
    exact hstaging hstatus

/-- The resolution of local locks and the commit triggers meet no indeterminate commit. -/
def EvalContext.Determinate (ec : EvalContext) : Prop :=
  (∀ t u, ec.resolveLocalLocks t ≠ .error (.indeterminateCommit u)) ∧
    ∀ t u, ec.runCommitTrigger t ≠ .error (.indeterminateCommit u)

theorem finalizeTxn_determinate (hec : ec.Determinate) :
    finalizeTxn ec args txn ≠ .error (.indeterminateCommit u) := by
  unfold finalizeTxn
  cases hlocks : ec.resolveLocalLocks txn with
  | error e =>
    intro he
    obtain rfl : e = .indeterminateCommit u := Except.error.inj he
    exact hec.1 txn u hlocks
  | ok locks =>
    split_ifs
    · cases htrigger : ec.runCommitTrigger txn with
      | error e =>
        intro he
        obtain rfl : e = .indeterminateCommit u := Except.error.inj he
        exact hec.2 txn u htrigger
      | ok _ => exact nofun
    · exact nofun

theorem finishEndTxn_indeterminate (hec : ec.Determinate)
    (he : finishEndTxn ec args txn = .error (.indeterminateCommit u)) :
    args.commit = false ∧ txn.status = .staging ∧ u = txn := by
  unfold finishEndTxn at he
  by_cases hcommit : args.commit = true
  · rw [if_pos hcommit] at he
    split at he
    · cases he
    · split_ifs at he
      · cases he
      · exact absurd he (finalizeTxn_determinate hec)
  · rw [if_neg hcommit] at he
    by_cases hstaging : txn.status = .staging
    · rw [if_pos hstaging] at he
      refine ⟨Bool.eq_false_of_not_eq_true hcommit, hstaging, ?_⟩
      injection he with herror
      injection herror with htxn
      exact htxn.symm
    · rw [if_neg hstaging] at he
      exact absurd he (finalizeTxn_determinate hec)

theorem bind_eq_error {α β ε : Type} {a : Except ε α} {f : α → Except ε β} {e : ε}
    (h : (a >>= f) = .error e) : a = .error e ∨ ∃ b, a = .ok b ∧ f b = .error e := by
  cases a with
  | error e' => exact .inl (congrArg Except.error (Except.error.inj h))
  | ok b => exact .inr ⟨b, rfl, h⟩

/-- An indeterminate commit is met by a rollback, with what it has found. -/
theorem endTxn_indeterminate_of_rollback (hec : ec.Determinate)
    (he : endTxn ec h args record = .error (.indeterminateCommit u)) :
    args.commit = false ∧ u.status = .staging ∧ ∃ t, h.txn = some t ∧ (record = none ∧ u = t ∨
      ∃ r, record = some r ∧ updateExisting r.asTransaction t = .ok u) := by
  obtain ⟨t, ht, -, hcases⟩ := endTxn_checked (.inr ⟨u, rfl⟩) he
  rcases hcases with ⟨rfl, hend⟩ | ⟨r, rfl, -, -, hend⟩ | ⟨r, rfl, -, hend⟩
  · rcases bind_eq_error hend with htarget | ⟨txn, htarget, hend⟩
    · unfold endTxnTarget canCreateTxnRecord at htarget
      split_ifs at htarget
      split at htarget <;> cases htarget
    · obtain ⟨hcommit, hst, rfl⟩ := finishEndTxn_indeterminate hec hend
      unfold endTxnTarget at htarget
      rw [hcommit] at htarget
      exact ⟨hcommit, hst, t, ht, .inl ⟨rfl, (Except.ok.inj htarget).symm⟩⟩
  · exact absurd hend (finalizeTxn_determinate hec)
  · rcases bind_eq_error hend with hupdate | ⟨txn, hupdate, hend⟩
    · exact absurd hupdate updateExisting_determinate
    · obtain ⟨hcommit, hst, rfl⟩ := finishEndTxn_indeterminate hec hend
      exact ⟨hcommit, hst, t, ht, .inr ⟨r, rfl, hupdate⟩⟩

/-- An indeterminate commit is that of a staging record of the same epoch, which was brought up
to date first. -/
theorem endTxn_indeterminate (hec : ec.Determinate) (hrecord : ∀ r ∈ record, x.Is r.toTxnMeta)
    (ht : h.txn = some t) (hx : x.Is t.toTxnMeta) (hstatus : t.status ≠ .staging)
    (he : endTxn ec h args record = .error (.indeterminateCommit u)) :
    x.Is u.toTxnMeta ∧ ∃ r, record = some r ∧ r.status = .staging ∧
      r.epoch = t.epoch ∧ Transaction.Updated r.asTransaction t u := by
  obtain ⟨-, hst, t', ht', hcases⟩ := endTxn_indeterminate_of_rollback hec he
  obtain rfl := Option.some.inj (ht.symm.trans ht')
  rcases hcases with ⟨rfl, rfl⟩ | ⟨r, rfl, hupdate⟩
  · exact absurd hst hstatus
  obtain ⟨hux, hle, hupdated⟩ := updateExisting_updated (hrecord r rfl) hx hupdate
  have hmerged : u.status = if r.epoch < t.epoch then t.status
      else Transaction.sameEpochStatus r.status t.status := hupdated.status
  rw [hst] at hmerged
  by_cases hlt : r.epoch < t.epoch
  · rw [if_pos hlt] at hmerged
    exact absurd hmerged.symm hstatus
  rw [if_neg hlt] at hmerged
  refine ⟨hux, r, rfl, ?_, le_antisymm hle (not_lt.mp hlt), hupdated⟩
  cases hrst : r.status with
  | staging => rfl
  | pending =>
    rw [hrst] at hmerged
    exact absurd hmerged.symm hstatus
  | aborted | committed =>
    rw [hrst] at hmerged
    cases hmerged

/-- The pusher knows of a later attempt than the one that is recorded. -/
def PushTxnRequest.Refutes (args : PushTxnRequest) (r : TransactionRecord) : Prop :=
  r.writeTimestamp.Less args.pusheeTxn.writeTimestamp ∨ r.epoch < args.pusheeTxn.epoch

theorem learn_eq (args : PushTxnRequest) (pushee : Transaction) :
    ∃ priority, args.learn pushee = { pushee with
      writeTimestamp := if args.knownHigherTimestamp pushee then args.pusheeTxn.writeTimestamp
        else pushee.writeTimestamp
      epoch := if args.knownHigherEpoch pushee then args.pusheeTxn.epoch else pushee.epoch
      priority
      status := if args.knownFailed pushee then .pending else pushee.status
      inFlightWrites := if args.knownFailed pushee then [] else pushee.inFlightWrites } := by
  unfold PushTxnRequest.learn
  dsimp only
  rw [(Transaction.upgradePriority_eq _ _).choose_spec]
  cases args.knownFailed pushee <;> exact ⟨_, rfl⟩

theorem knownFailed_iff (args : PushTxnRequest) (r : TransactionRecord) :
    args.knownFailed r.asTransaction = true ↔ r.status = .staging ∧ args.Refutes r := by
  unfold PushTxnRequest.knownFailed PushTxnRequest.knownHigherTimestamp
    PushTxnRequest.knownHigherEpoch PushTxnRequest.Refutes
  rw [Bool.and_eq_true, Bool.or_eq_true, decide_eq_true_eq, decide_eq_true_eq, decide_eq_true_eq]
  exact and_comm

variable {pushee : Transaction}

theorem pusherWins_eq_some {args : PushTxnRequest} {pushType won : PushTxnType}
    (hw : pusherWins ec args pushType pushee = some won) : won = .abort ∨ won = pushType := by
  unfold pusherWins at hw
  split_ifs at hw <;> obtain rfl := Option.some.inj hw
  · exact .inl rfl
  · exact .inr rfl
  · exact .inr rfl

theorem pushed_eq_ok {args : PushTxnRequest} {pushType : PushTxnType} {exists_ : Bool}
    (hp : pushed args pushType exists_ pushee = .ok txn) :
    (x.Is pushee.toTxnMeta → x.Is txn.toTxnMeta) ∧ txn.epoch = pushee.epoch ∧
      pushee.writeTimestamp.LessEq txn.writeTimestamp ∧ (txn.status = .aborted ∨
        pushType = .timestamp ∧ txn.status = pushee.status ∧
          args.pushTo.LessEq txn.writeTimestamp) := by
  unfold pushed at hp
  rw [(Transaction.upgradePriority_eq _ _).choose_spec] at hp
  cases pushType with
  | abort =>
    obtain rfl := Except.ok.inj hp
    refine ⟨id, rfl, ?_, .inl rfl⟩
    split_ifs
    · exact .forward_left _ _
    · exact .refl _
  | timestamp =>
    obtain rfl := Except.ok.inj hp
    exact ⟨id, rfl, .forward_left _ _, .inr ⟨rfl, rfl, .forward_right _ _⟩⟩
  | touch => cases hp

/-- What a push leaves of a transaction that is not finalized, with or without a record. -/
structure PushesActive (x : TxnIdentity) (args : PushTxnRequest) (pushee : Transaction)
    (record : Option TransactionRecord) (o : Outcome) : Prop where
  record : o.record = if record.isSome then some o.txn.asRecord else none
  txn : x.Is o.txn.toTxnMeta
  epoch : o.txn.epoch = if args.knownHigherEpoch pushee then args.pusheeTxn.epoch else pushee.epoch
  writeTimestamp : pushee.writeTimestamp.LessEq o.txn.writeTimestamp
  failed : pushee.status = .staging → args.knownFailed pushee = true
  status : o.txn.status = .aborted ∨ o.txn.status = .pending ∧
    args.pushTo.LessEq o.txn.writeTimestamp ∧
    (pushee.status = .staging → args.knownHigherEpoch pushee = true)

theorem PushesActive.consistent {args : PushTxnRequest} (h : PushesActive x args pushee record o) :
    o.Consistent := by
  intro r hr
  rw [h.record] at hr
  split_ifs at hr
  · exact Outcome.consistent_asRecord o.txn r hr
  · cases hr

theorem pushActive_pushes {args : PushTxnRequest} (hx : x.Is pushee.toTxnMeta)
    (hactive : pushee.status.isFinalized = false)
    (ho : pushActive ec args pushee record = .ok o) : PushesActive x args pushee record o := by
  obtain ⟨won, hwins, hnot, hp, hrec⟩ := pushActive_eq_ok ho
  obtain ⟨priority, hlearn⟩ := learn_eq args pushee
  have hfailed : pushee.status = .staging → args.knownFailed pushee = true := by
    intro hst
    by_contra hno
    refine hnot ?_
    rw [hlearn]
    exact (if_neg hno).trans hst
  rw [hlearn] at hp
  obtain ⟨his, hepoch, hle, hstatus⟩ := pushed_eq_ok hp
  have hlearned : pushee.writeTimestamp.LessEq (if args.knownHigherTimestamp pushee then
      args.pusheeTxn.writeTimestamp else pushee.writeTimestamp) := by
    split_ifs with hknown
    · unfold PushTxnRequest.knownHigherTimestamp at hknown
      rw [decide_eq_true_eq, Timestamp.less_iff] at hknown
      rw [Timestamp.lessEq_iff]
      exact hknown.le
    · exact .refl _
  refine ⟨hrec, his hx, hepoch, hlearned.trans hle, hfailed,
    hstatus.imp_right fun ⟨hwon, hsame, hto⟩ => ⟨hsame.trans ?_, hto, ?_⟩⟩
  · dsimp only
    split_ifs with hknown
    · rfl
    · cases hst : pushee.status with
      | pending => rfl
      | staging => exact absurd (hfailed hst) hknown
      | committed | aborted =>
        rw [hst] at hactive
        cases hactive
  · intro hst
    rw [hwon] at hwins
    rcases pusherWins_eq_some hwins with hwon' | hwon'
    · cases hwon'
    -- A push within the epoch would have become an abort.
    by_contra hno
    unfold PushTxnRequest.upgradedType at hwon'
    by_cases htype : args.pushType = .timestamp
    · rw [if_pos ⟨hfailed hst, Bool.eq_false_of_not_eq_true hno, htype⟩] at hwon'
      cases hwon'
    · rw [if_neg (fun hall => htype hall.2.2)] at hwon'
      exact htype hwon'.symm

/-- A push that changes the record: it aborts the transaction, or leaves it pending, in a newer
epoch if it was staging. -/
structure PushesRecord (args : PushTxnRequest) (r : TransactionRecord) (o : Outcome) : Prop where
  active : r.status.isFinalized = false
  isSome : o.record.isSome
  epoch : r.epoch ≤ o.txn.epoch ∧ (o.txn.epoch = r.epoch ∨ o.txn.epoch = args.pusheeTxn.epoch)
  writeTimestamp : r.writeTimestamp.LessEq o.txn.writeTimestamp
  status : o.txn.status = .aborted ∧ (r.status = .staging → args.Refutes r) ∨
    o.txn.status = .pending ∧ (r.status = .staging → r.epoch < o.txn.epoch)

theorem pushActive_indeterminate {args : PushTxnRequest}
    (he : pushActive ec args pushee record = .error (.indeterminateCommit u)) :
    u = args.learn pushee ∧ (args.learn pushee).status = .staging := by
  unfold pushActive at he
  dsimp only at he
  split at he
  · rename_i hstaging
    injection he with herror
    injection herror with htxn
    exact ⟨htxn.symm, hstaging.1⟩
  split at he
  · cases he
  · rename_i won _
    cases won <;> cases he

theorem PushesActive.pushesRecord {args : PushTxnRequest} (hactive : r.status.isFinalized = false)
    (h : PushesActive x args r.asTransaction (some r) o) : PushesRecord args r o := by
  have hle : r.epoch ≤ o.txn.epoch ∧
      (o.txn.epoch = r.epoch ∨ o.txn.epoch = args.pusheeTxn.epoch) := by
    have hepoch := h.epoch
    by_cases hknown : args.knownHigherEpoch r.asTransaction = true
    · rw [if_pos hknown] at hepoch
      have hlt : r.epoch < args.pusheeTxn.epoch := of_decide_eq_true hknown
      exact ⟨by rw [hepoch]; exact hlt.le, .inr hepoch⟩
    · rw [if_neg hknown] at hepoch
      exact ⟨hepoch.ge, .inl hepoch⟩
  refine ⟨hactive, by rw [h.record]; rfl, hle, h.writeTimestamp, ?_⟩
  rcases h.status with haborted | ⟨hpending, -, hnewer⟩
  · exact .inl ⟨haborted, fun hst => ((knownFailed_iff args r).mp (h.failed hst)).2⟩
  · refine .inr ⟨hpending, fun hst => ?_⟩
    rw [h.epoch, if_pos (hnewer hst)]
    exact of_decide_eq_true (hnewer hst)

theorem pushPushee_eq_ok {args : PushTxnRequest} (hx : x.Is pushee.toTxnMeta)
    (ho : pushPushee ec args pushee record = .ok o) :
    (o = ⟨pushee, record⟩ ∧ (pushee.status = .aborted ∨ pushee.status = .committed ∨
      args.pushTo.LessEq pushee.writeTimestamp)) ∨
    pushee.status.isFinalized = false ∧ PushesActive x args pushee record o := by
  unfold pushPushee at ho
  split_ifs at ho with hfinal hthere
  · refine .inl ⟨(Except.ok.inj ho).symm, ?_⟩
    cases hst : pushee.status with
    | aborted => exact .inl rfl
    | committed => exact .inr (.inl rfl)
    | pending | staging =>
      rw [hst] at hfinal
      cases hfinal
  · exact .inl ⟨(Except.ok.inj ho).symm, .inr (.inr hthere.2)⟩
  · have hactive := Bool.eq_false_of_not_eq_true hfinal
    exact .inr ⟨hactive, pushActive_pushes hx hactive ho⟩

/-- What a push answers about a transaction without a record. -/
structure PushesUnrecorded (args : PushTxnRequest) (o : Outcome) : Prop where
  record : o.record = none
  epoch : o.txn.epoch = args.pusheeTxn.epoch
  status : o.txn.status = .pending ∨ o.txn.status = .aborted

/-- A push leaves the record where it is, or changes it, or finds none. -/
theorem pushTxn_eq_ok {args : PushTxnRequest} (hrecord : ∀ r ∈ record, x.Is r.toTxnMeta)
    (hpushee : x.Is args.pusheeTxn) (ho : pushTxn ec h args record = .ok o) :
    PushesTxn ec x args record o ∧ o.Consistent ∧ (record = none ∧ PushesUnrecorded args o ∨
      ∃ r, record = some r ∧ (o.Keeps r ∨ PushesRecord args r o)) := by
  obtain ⟨hkey, hcases⟩ := pushTxn_checked (.inl ⟨o, rfl⟩) ho
  have hkey' : args.key = x.key := hkey.trans hpushee.2.1
  rcases hcases with ⟨r, rfl, hp⟩ | ⟨rfl, hnone⟩
  · have hrx : x.Is r.asTransaction.toTxnMeta := hrecord r rfl
    have hkeeps : o.Consistent → ∀ r' ∈ o.record, (some r).isSome ∧ r'.status = o.txn.status ∧
        r'.writeTimestamp = o.txn.writeTimestamp := fun hc r' hr' =>
      ⟨rfl, (hc r' hr').2.1, by rw [(hc r' hr').1]⟩
    rcases pushPushee_eq_ok hrx hp with ⟨rfl, hwhy⟩ | ⟨hactive, hpush⟩
    · have hc := Outcome.consistent_asRecord r.asTransaction
      exact ⟨⟨.same _, hrx, hkey', hkeeps hc, fun _ => hwhy, by simp⟩, hc,
        .inr ⟨r, rfl, .inl (Outcome.keeps_asTransaction r)⟩⟩
    · have hc := hpush.consistent
      exact ⟨⟨evolves_of_active hc hactive hpush.txn hpush.writeTimestamp, hpush.txn, hkey',
        hkeeps hc, fun _ => hpush.status.imp_right fun hst => .inr hst.2.1,
        by simp [hpush.record]⟩, hc, .inr ⟨r, rfl, .inr (hpush.pushesRecord hactive)⟩⟩
  · obtain ⟨hsx, hsepoch, hsstatus⟩ := synthesizeTxnFromMeta_is ec hpushee
    have hpushes : o.record = none ∧ x.Is o.txn.toTxnMeta ∧
        o.txn.epoch = args.pusheeTxn.epoch ∧ (o.txn.status = .aborted ∨
          o.txn.status = .pending ∧ args.pushTo.LessEq o.txn.writeTimestamp) := by
      rcases hnone with ⟨haborted, hp⟩ | ⟨haborted, hp⟩
      · obtain rfl := Except.ok.inj hp
        exact ⟨rfl, hsx, hsepoch, .inl haborted⟩
      have hpending := hsstatus.resolve_right haborted
      rcases pushPushee_eq_ok hsx hp with ⟨rfl, hwhy⟩ | ⟨-, hpush⟩
      · refine ⟨rfl, hsx, hsepoch, .inr ⟨hpending, ?_⟩⟩
        simpa [hpending] using hwhy
      · refine ⟨hpush.record, hpush.txn, ?_, hpush.status.imp_right fun hst => ⟨hst.1, hst.2.1⟩⟩
        rw [hpush.epoch, hsepoch, ite_self]
    obtain ⟨hrec, hx, hepoch, hst⟩ := hpushes
    have hst' := hst.symm.imp_left And.left
    exact ⟨⟨by rw [hrec]; exact .same none, hx, hkey', by simp [hrec],
      fun _ => hst.imp_right fun hpush => .inr hpush.2, fun _ => hst'⟩,
      by simp [Outcome.Consistent, hrec], .inl ⟨rfl, hrec, hepoch, hst'⟩⟩

theorem pushTxn_indeterminate {args : PushTxnRequest} (hrecord : ∀ r ∈ record, x.Is r.toTxnMeta)
    (hpushee : x.Is args.pusheeTxn)
    (he : pushTxn ec h args record = .error (.indeterminateCommit u)) :
    x.Is u.toTxnMeta ∧ ∃ r, record = some r ∧ r.status = .staging ∧ u.epoch = r.epoch ∧
      u.writeTimestamp = r.writeTimestamp ∧ u.inFlightWrites = r.inFlightWrites := by
  have hactive : ∀ pushee rec, pushPushee ec args pushee rec = .error (.indeterminateCommit u) →
      u = args.learn pushee ∧ args.knownFailed pushee = false ∧ pushee.status = .staging := by
    intro pushee rec hp
    unfold pushPushee at hp
    split_ifs at hp
    obtain ⟨rfl, hst⟩ := pushActive_indeterminate hp
    rw [(learn_eq args pushee).choose_spec] at hst
    dsimp only at hst
    split_ifs at hst with hknown
    exact ⟨rfl, Bool.eq_false_of_not_eq_true hknown, hst⟩
  rcases (pushTxn_checked (.inr ⟨u, rfl⟩) he).2 with
    ⟨r, rfl, hp⟩ | ⟨rfl, ⟨-, hp⟩ | ⟨hnot, hp⟩⟩
  · obtain ⟨rfl, hknown, hst⟩ := hactive _ _ hp
    have hno : ¬ args.Refutes r := by
      intro hrefutes
      rw [(knownFailed_iff args r).mpr ⟨hst, hrefutes⟩] at hknown
      cases hknown
    have hts : args.knownHigherTimestamp r.asTransaction = false :=
      decide_eq_false fun hlt => hno (.inl hlt)
    have hepoch : args.knownHigherEpoch r.asTransaction = false :=
      decide_eq_false fun hlt => hno (.inr hlt)
    obtain ⟨priority, hlearn⟩ := learn_eq args r.asTransaction
    rw [hlearn, hts, hepoch, hknown]
    exact ⟨hrecord r rfl, r, rfl, hst, rfl, rfl, rfl⟩
  · cases hp
  · obtain ⟨-, -, hst⟩ := hactive _ _ hp
    rw [(synthesizeTxnFromMeta_is ec hpushee).2.2.resolve_right hnot] at hst
    cases hst

/-- A recovery that finalizes a staging record. -/
structure RecoversRecord (args : RecoverTxnRequest) (r : TransactionRecord) (o : Outcome) :
    Prop where
  staging : r.status = .staging
  isSome : o.record.isSome
  epoch : o.txn.epoch = r.epoch
  writeTimestamp : o.txn.writeTimestamp = r.writeTimestamp
  status : args.implicitlyCommitted = true ∧ o.txn.status = .committed ∧
      args.txn.epoch = r.epoch ∧ args.txn.writeTimestamp = r.writeTimestamp ∨
    args.implicitlyCommitted = false ∧ o.txn.status = .aborted ∧ r.epoch ≤ args.txn.epoch ∧
      r.writeTimestamp.LessEq args.txn.writeTimestamp

theorem recoverStep_fail {args : RecoverTxnRequest} {e : EvalError}
    (hfail : (if args.implicitlyCommitted then recoverCommitted args r
      else recoverPrevented args r) = .fail e) : e.IsProgrammingError := by
  unfold recoverCommitted recoverPrevented at hfail
  cases hst : r.status with
  | pending | staging | committed =>
    rw [hst] at hfail
    split_ifs at hfail <;> obtain rfl := RecoverStep.fail.inj hfail <;> trivial
  | aborted =>
    rw [hst] at hfail
    dsimp only at hfail
    split_ifs at hfail
    obtain rfl := RecoverStep.fail.inj hfail
    trivial

theorem recoverTxn_eq_ok {args : RecoverTxnRequest} (hrecord : ∀ r ∈ record, x.Is r.toTxnMeta)
    (htxn : x.Is args.txn) (ho : recoverTxn ec h args record = .ok o) :
    RecoversTxn ec x args record o ∧ o.Consistent ∧
      (record = none ∧ o.record = none ∧ o.txn.status = .aborted ∧ o.txn.epoch = args.txn.epoch ∨
        ∃ r, record = some r ∧ (o.Keeps r ∨ RecoversRecord args r o)) := by
  obtain ⟨hkey, hnone, hstep⟩ := (recoverTxn_checked ec h args record).resolve_left (by
    rintro ⟨e, he, -⟩
    rw [he] at ho
    cases ho)
  have hkey' : args.key = x.key := hkey.trans htxn.2.1
  rw [hstep] at ho
  cases record with
  | none =>
    obtain rfl := Except.ok.inj ho
    obtain ⟨hx, hepoch, -⟩ := synthesizeTxnFromMeta_is ec htxn
    have haborted := hnone rfl
    exact ⟨⟨.same none, hx, hkey', by simp, by simp [haborted]⟩, Outcome.consistent_none _,
      .inl ⟨rfl, rfl, haborted, hepoch⟩⟩
  | some r =>
    have hrx := hrecord r rfl
    dsimp only at ho
    cases hgo : (if args.implicitlyCommitted then recoverCommitted args r
        else recoverPrevented args r) with
    | fail e =>
      rw [hgo] at ho
      cases ho
    | stop =>
      rw [hgo] at ho
      obtain rfl := Except.ok.inj ho
      refine ⟨⟨.same _, hrx, hkey', by simp [TransactionRecord.asTransaction], ?_⟩,
        Outcome.consistent_asRecord r.asTransaction,
        .inr ⟨r, rfl, .inl (Outcome.keeps_asTransaction r)⟩⟩
      intro hcommitted
      have hcommitted' : r.status = .committed := hcommitted
      exact .inr ⟨r, rfl, by simp [hcommitted'], .refl _⟩
    | go =>
      rw [hgo] at ho
      obtain rfl := Except.ok.inj ho
      have hrecovers : RecoversRecord args r
          ⟨recoveredTxn args r, some (recoveredTxn args r).asRecord⟩ := by
        unfold recoveredTxn
        cases himplicit : args.implicitlyCommitted with
        | true =>
          rw [himplicit] at hgo
          obtain ⟨hst, hepoch, hts⟩ := recoverCommitted_go hgo
          exact ⟨hst, rfl, rfl, rfl, .inl ⟨himplicit, rfl, hepoch, hts⟩⟩
        | false =>
          rw [himplicit] at hgo
          obtain ⟨hst, hepoch, hts⟩ := recoverPrevented_go hgo
          exact ⟨hst, rfl, rfl, rfl, .inr ⟨himplicit, rfl, hepoch, hts⟩⟩
      have hst := hrecovers.staging
      refine ⟨⟨.forward (by rw [hst]; rfl) hrx (.refl _), hrx, hkey', ?_, fun _ => ?_⟩,
        Outcome.consistent_asRecord _, .inr ⟨r, rfl, .inr hrecovers⟩⟩
      · rintro _ ⟨⟩
        exact ⟨rfl, rfl⟩
      · exact .inr ⟨r, rfl, by simp [hst], .refl _⟩

theorem recoverTxn_of_allowed {args : RecoverTxnRequest} {e : EvalError}
    (hcommitted : args.implicitlyCommitted = true → ∀ r ∈ record,
      (r.status = .staging ∨ r.status = .committed) ∧ args.txn.epoch = r.epoch ∧
        args.txn.writeTimestamp = r.writeTimestamp)
    (hprevented : args.implicitlyCommitted = false → ∀ r ∈ record,
      r.status = .pending → args.txn.epoch < r.epoch)
    (he : recoverTxn ec h args record = .error e) : ¬ e.IsProgrammingError := by
  rcases recoverTxn_checked ec h args record with ⟨e', he', hno, -⟩ | ⟨-, -, hstep⟩
  · rwa [← Except.error.inj (he'.symm.trans he)]
  rw [hstep] at he
  exfalso
  cases record with
  | none => cases he
  | some r =>
    dsimp only at he
    cases himplicit : args.implicitlyCommitted with
    | true =>
      obtain ⟨hst, hepoch, hts⟩ := hcommitted himplicit r rfl
      rw [himplicit] at he
      unfold recoverCommitted at he
      rcases hst with hst | hst
      · rw [hst] at he
        simp [hepoch, hts] at he
      · rw [hst] at he
        simp [hepoch, hts] at he
    | false =>
      have hpending := hprevented himplicit r rfl
      rw [himplicit, if_neg Bool.false_ne_true] at he
      unfold recoverPrevented at he
      cases hst : r.status with
      | aborted | committed =>
        rw [hst] at he
        cases he
      | pending =>
        rw [hst] at he
        rw [if_pos (hpending hst)] at he
        cases he
      | staging =>
        rw [hst] at he
        split_ifs at he

theorem heartbeatTxn_determinate {args : HeartbeatTxnRequest} :
    heartbeatTxn ec h args record ≠ .error (.indeterminateCommit u) := by
  intro he
  rcases bind_eq_error he with hv | ⟨hTxn, -, he⟩
  · exact verifyTransaction_determinate hv
  split_ifs at he
  · cases he
  rcases bind_eq_error he with htarget | ⟨txn, -, he⟩
  · unfold heartbeatTarget canCreateTxnRecord at htarget
    split at htarget
    · cases htarget
    · split at htarget <;> cases htarget
  · split_ifs at he <;> cases he

theorem recoverTxn_determinate {args : RecoverTxnRequest} :
    recoverTxn ec h args record ≠ .error (.indeterminateCommit u) := by
  intro he
  rcases recoverTxn_checked ec h args record with ⟨e, he', -, hno⟩ | ⟨-, -, hstep⟩
  · exact hno u (Except.error.inj (he'.symm.trans he))
  rw [hstep] at he
  cases record with
  | none => cases he
  | some r =>
    dsimp only at he
    split at he
    · rename_i e hfail
      obtain rfl := Except.error.inj he
      exact recoverStep_fail hfail
    · cases he
    · cases he

end Positions

end Cockroach.KvServer
