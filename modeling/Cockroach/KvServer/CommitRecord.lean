import Cockroach.KvServer.CommitAttempts

/-! The record of a transaction whose commit is attempted in parallel with its writes. -/
namespace Cockroach.KvServer
open ByteOrder Hlc Storage Roachpb Option
open Timestamp (lessEq_iff less_iff)

namespace CommitState

/-- The record is the one that an attempt has staged. -/
structure Stages (a : Attempt) (r : TransactionRecord) : Prop where
  status : r.status = .staging
  epoch : a.epoch = r.epoch
  ts : a.ts = r.writeTimestamp

/-- What holds of the record: a staging one is that of an attempt, and an attempt that is not dead
is still staged, or was committed where it was made. -/
structure Recorded (x : TxnIdentity) (s : CommitState) : Prop where
  sound : s.records.Sound x
  epoch : ∀ r ∈ s.records.record, r.epoch ≤ s.epoch
  answers : ∀ t ∈ s.answers, t.epoch ≤ s.epoch ∧
    (t.status.isFinalized = false → PushKept x s.records t.writeTimestamp)
  tombstoned : s.staged ≠ [] ∨ s.Finalized → Tombstoned x s.records.cache
  finalized : s.Finalized → ∀ r ∈ s.records.record, r.status.isFinalized = true
  staging : ∀ r ∈ s.records.record, r.status = .staging →
    ∃ a ∈ s.staged, Stages a r ∧ a.writes = r.inFlightWrites
  live : ∀ a ∈ s.staged, s.Dead a ∨ (∃ r ∈ s.records.record, Stages a r) ∨
    s.Committed ∧ ∀ r ∈ s.records.record, r.status = .committed ∧ a.epoch = r.epoch ∧
      a.ts = r.writeTimestamp
  bound : ∀ a ∈ s.staged, ∀ r ∈ s.records.record, r.status.isFinalized = false →
    a.epoch ≤ r.epoch ∧ a.ts.LessEq r.writeTimestamp ∧ (r.status = .pending → a.epoch < r.epoch)

/-- What a command that succeeds does to the record. -/
inductive CommandEffect (x : TxnIdentity) (s : CommitState) (o : Outcome) : Prop where
  | keep {r : TransactionRecord} (found : s.records.record = some r) (keeps : o.Keeps r)
  | absent (found : s.records.record = none) (record : o.record = none)
      (epoch : o.txn.epoch ≤ s.epoch) (status : o.txn.status = .pending ∨ o.txn.status = .aborted)
  | create (found : s.records.record = none) (free : ¬ Tombstoned x s.records.cache)
      (isSome : o.record.isSome) (epoch : o.txn.epoch ≤ s.epoch) (status : o.txn.status = .pending)
  | commit {r : TransactionRecord} (found : s.records.record = some r)
      (staging : r.status = .staging) (epoch : o.txn.epoch = r.epoch)
      (ts : o.txn.writeTimestamp = r.writeTimestamp) (status : o.txn.status = .committed)
  | abort (found : ∀ r ∈ s.records.record, r.status = .aborted ∨ r.status.isFinalized = false ∧
        (r.status = .staging → ∀ a ∈ s.staged, Stages a r → s.Dead a))
      (uncommitted : s.records.record = none → ¬ s.Committed) (epoch : o.txn.epoch ≤ s.epoch)
      (status : o.txn.status = .aborted)
  | restart {r : TransactionRecord} (found : s.records.record = some r)
      (active : r.status.isFinalized = false) (isSome : o.record.isSome)
      (epoch : r.epoch ≤ o.txn.epoch) (ts : r.writeTimestamp.LessEq o.txn.writeTimestamp)
      (reached : o.txn.epoch ≤ s.epoch) (status : o.txn.status = .pending)
      (newer : r.status = .staging → r.epoch < o.txn.epoch)

/-- A command that succeeds: its effect, and the marks that it leaves in the timestamp cache. -/
structure CommandStep (x : TxnIdentity) (s : CommitState) (c : Command) (responseTS : Timestamp)
    (o : Outcome) : Prop where
  effect : CommandEffect x s o
  consistent : o.Consistent
  tombstoned : o.txn.status.isFinalized = true →
    Tombstoned x (c.cacheEntries responseTS o.txn ++ s.records.cache)
  marked : o.record = none → o.txn.status.isFinalized = false →
    PushMarked x (c.cacheEntries responseTS o.txn ++ s.records.cache) o.txn.writeTimestamp
  resolved : s.intentsAfter c o.record = s.intents ∨ o.txn.status.isFinalized = true

/-- An intent comes from a write of its epoch, and is at most where that landed or where the
transaction was pushed. -/
def Explains (s : CommitState) (l : TxnWrite) (m : TxnMeta) : Prop :=
  l.epoch = m.epoch ∧ (m.writeTimestamp.LessEq l.ts ∨
    ∃ t ∈ s.answers, t.status.isFinalized = false ∧ m.writeTimestamp.LessEq t.writeTimestamp)

/-- What holds of the intents: each comes from a write, and until the transaction is finalized a
write leaves one. -/
structure Located (x : TxnIdentity) (s : CommitState) : Prop where
  seen : ∀ m ∈ s.seen, ∃ l ∈ s.applied, s.Explains l m
  intents : ∀ key, ∀ m ∈ s.intents key, x.Is m ∧ ∃ l ∈ s.applied, s.Explains l m ∧ l.key = key ∧
    l.sequence = m.sequence ∧ l.ts.LessEq m.writeTimestamp
  present : ¬ s.Finalized → ∀ l ∈ s.applied, (∃ t ∈ s.answers, l.epoch < t.epoch) ∨
    ∃ m ∈ s.intents l.key, l.epoch < m.epoch ∨ l.epoch = m.epoch ∧ l.sequence ≤ m.sequence

/-- What holds of a recovery: it probes the writes of a staged attempt, those that were found have
landed, and if one was missing then the attempt is dead or the transaction is finalized. -/
structure Probes (x : TxnIdentity) (s : CommitState) (a : Attempt) (r : Recovery) : Prop where
  staged : a ∈ s.staged
  is : x.Is r.txn.toTxnMeta
  epoch : r.txn.epoch = a.epoch
  ts : r.txn.writeTimestamp = a.ts
  queries : ∀ w, w ∈ r.batch ∨ w ∈ r.rest → w ∈ a.writes
  found : ∀ w ∈ a.writes, w ∈ r.batch ∨ w ∈ r.rest ∨ r.preventedIntent = true ∨ s.Landed a w
  prevented : r.preventedIntent = true → s.Dead a ∨ s.Finalized

structure CommitInvariant (x : TxnIdentity) (s : CommitState) : Prop where
  coordinated : s.Coordinated
  recorded : s.Recorded x
  located : s.Located x
  recoveries : ∀ r ∈ s.recoveries, ∃ a, s.Probes x a r

section Effects

variable {x : TxnIdentity} {s : CommitState} {ec : EvalContext} {responseTS : Timestamp}
  {h : Header} {o : Outcome}

theorem not_none_of_isSome (hsome : o.record.isSome) : o.record ≠ none := by
  intro hnone
  rw [hnone] at hsome
  cases hsome

/-- A finalized transaction leaves no mark of a push. -/
theorem unmarked {P : Prop} (h : o.txn.status.isFinalized = true) :
    o.record = none → o.txn.status.isFinalized = false → P := by
  intro _ hactive
  rw [h] at hactive
  cases hactive

section

variable (hs : s.CommitInvariant x)
include hs

theorem CommitInvariant.heartbeatTxn {args : HeartbeatTxnRequest}
    (hv : s.Valid x (.command (.heartbeatTxn h args) ec responseTS))
    (ho : KvServer.heartbeatTxn ec h args s.records.record = .ok o) :
    CommandStep x s (.heartbeatTxn h args) responseTS o := by
  obtain ⟨hsends, -, hvalid⟩ := hv
  have hx : ∀ t ∈ h.txn, x.Is t.toTxnMeta := fun t ht => header_is hvalid rfl ht
  obtain ⟨-, hconsistent, t, ht, hkey, hcases⟩ := heartbeatTxn_eq_ok hs.recorded.sound.1 hx ho
  have htomb : Tombstoned x
      ((Command.heartbeatTxn h args).cacheEntries responseTS o.txn ++ s.records.cache) :=
    tombstoned_of_header (hvalid.2.1.trans hvalid.2.2.1) ht (hx t ht) hkey
  obtain ⟨hposition, hpending⟩ := hsends t ht
  rcases hcases with ⟨r, hfound, hkeeps⟩ | ⟨hnone, ⟨minCommitTS, hok⟩, hepoch, hst, hsome⟩
  · exact ⟨.keep hfound hkeeps, hconsistent, fun _ => htomb,
      fun hnone => absurd hnone (not_none_of_isSome hkeeps.isSome), .inl rfl⟩
  · have hfree := (canCreateTxnRecord_marks hvalid.2.2.2 hok).1
    have hreached : o.txn.epoch ≤ s.epoch := by
      rw [hepoch]
      exact (hs.coordinated.positions _ hposition).1
    exact ⟨.create hnone hfree (hsome hpending) hreached (hst.trans hpending), hconsistent,
      fun _ => htomb, fun hno => absurd hno (not_none_of_isSome (hsome hpending)), .inl rfl⟩

variable {args : EndTxnRequest} {a : Attempt}

theorem endTxn_header (hvalid : (Event.command (.endTxn h args) ec responseTS).Valid x s.records)
    (ho : KvServer.endTxn ec h args s.records.record = .ok o) :
    ∃ t, h.txn = some t ∧ (∀ t ∈ h.txn, x.Is t.toTxnMeta) ∧
      Tombstoned x ((Command.endTxn h args).cacheEntries responseTS o.txn ++ s.records.cache) := by
  have hx : ∀ t ∈ h.txn, x.Is t.toTxnMeta := fun t ht => header_is hvalid rfl ht
  obtain ⟨t, ht, hkey, -⟩ := endTxn_txnEnd hs.recorded.sound.1 hx ho
  exact ⟨t, ht, hx,
    tombstoned_of_header (hvalid.2.1.trans hvalid.2.2.1) ht (hx t ht) hkey⟩

theorem CommitInvariant.ticks_pos (ha : a ∈ s.attempts) : 0 < a.ts.ticks := by
  have hpos := (hs.coordinated.attempts a ha).2.2
  rwa [less_iff, Timestamp.ticks_empty] at hpos

theorem CommitInvariant.endTxn_explicit
    (hv : s.Valid x (.command (.endTxn h args) ec responseTS)) (hcommit : args.commit = true)
    (ho : KvServer.endTxn ec h args s.records.record = .ok o) :
    CommandStep x s (.endTxn h args) responseTS o := by
  obtain ⟨hsends, -, hvalid⟩ := hv
  obtain ⟨t, ht, hx, htomb⟩ := endTxn_header hs hvalid ho
  have hexplicit := hsends t ht
  rw [if_pos hcommit] at hexplicit
  obtain ⟨hwrites, a, ha, hat, hlanded⟩ := hexplicit
  have hpos : 0 < t.writeTimestamp.ticks := by
    rw [hat.ts]
    exact hs.ticks_pos (hs.coordinated.staged a ha)
  have hends := endTxn_commit hs.recorded.sound.1 hx ht hpos hat.read hcommit ho
  have hstatus : o.txn.status = .committed := by
    rcases hends.status with ⟨-, hst⟩ | ⟨hne, -⟩
    · exact hst
    · exact absurd hwrites hne
  have hfinal : o.txn.status.isFinalized = true := by
    rw [hstatus]
    rfl
  refine ⟨?_, hends.consistent, fun _ => htomb, unmarked hfinal, .inr hfinal⟩
  rcases hends.found with ⟨-, minCommitTS, hok⟩ | ⟨r, hfound, hactive, -, -⟩
  · -- The record was there when the attempt was staged, and cannot be created again.
    rw [(hx t ht).1, (hx t ht).2.2] at hok
    have hne : s.staged ≠ [] := List.ne_nil_of_mem ha
    exact absurd (hs.recorded.tombstoned (.inl hne))
      (canCreateTxnRecord_marks hvalid.2.2.2 hok).1
  · rcases hs.recorded.live a ha with hdead | ⟨r', hr', hstages⟩ | ⟨-, hcommitted⟩
    · exact absurd hdead (Coordinator.not_dead_of_landed hlanded)
    · obtain rfl := some.inj (hfound.symm.trans hr')
      refine .commit hfound hstages.status ?_ ?_ hstatus
      · rw [hends.epoch, hat.epoch, hstages.epoch]
      · rw [hends.writeTimestamp, hat.ts, hstages.ts]
    · have hst := (hcommitted r hfound).1
      rw [hst] at hactive
      cases hactive

theorem CommitInvariant.endTxn_rollback
    (hv : s.Valid x (.command (.endTxn h args) ec responseTS)) (hcommit : args.commit = false)
    (hcareful : s.RollbackCareful h) (ho : KvServer.endTxn ec h args s.records.record = .ok o) :
    CommandStep x s (.endTxn h args) responseTS o := by
  obtain ⟨hsends, -, hvalid⟩ := hv
  obtain ⟨t, ht, hx, htomb⟩ := endTxn_header hs hvalid ho
  have hrollback := hsends t ht
  rw [hcommit] at hrollback
  obtain ⟨hposition, hstatus⟩ := hrollback
  have hends := KvServer.endTxn_rollback hs.recorded.sound.1 hx ht hcommit ho
  have hreached : t.epoch ≤ s.epoch := (hs.coordinated.positions _ hposition).1
  have hfinal : o.txn.status.isFinalized = true := by
    rw [hends.status]
    rfl
  refine ⟨.abort ?_ hcareful.2 ?_ hends.status, hends.consistent, fun _ => htomb, unmarked hfinal,
    .inr hfinal⟩
  · intro r hr
    refine (hends.found r hr).imp_right fun ⟨hactive, hstaging⟩ => ⟨hactive, ?_⟩
    intro hst a ha hstages
    rcases hstaging hst with hlt | hne
    · refine hs.coordinated.dead_of_epoch (.inr ha) hreached ?_
      rw [hstages.epoch]
      exact hlt
    · obtain ⟨-, hkept⟩ := hstatus.resolve_left hne
      rw [hkept.2 r hr] at hst
      cases hst
  · rcases hends.epoch with hepoch | ⟨r, hr, hepoch⟩
    · exact hepoch.le.trans hreached
    · exact hepoch.le.trans (hs.recorded.epoch r hr)

theorem CommitInvariant.dead_of_refutes {args : PushTxnRequest}
    (hreached : s.Reached args.pusheeTxn) (hcareful : s.PushCareful args) {r : TransactionRecord}
    (hr : s.records.record = some r) (hrefutes : args.Refutes r) (ha : a ∈ s.staged)
    (hstages : Stages a r) : s.Dead a := by
  rcases hreached with hposition | ⟨m, hm, hmepoch, hmts⟩
  · obtain ⟨hepoch, hts⟩ := hs.coordinated.positions _ hposition
    refine hs.coordinated.dead a (.inr ha) (.inl ?_)
    unfold Coordinator.Passed
    rw [hstages.epoch, hstages.ts]
    rcases hrefutes with hlt | hlt
    · rw [less_iff] at hlt ⊢
      rw [lessEq_iff] at hts
      exact .inr (hlt.trans_le hts)
    · exact .inl (hlt.trans_le hepoch)
  · obtain ⟨l, hl, hlepoch, hwhy⟩ := hs.located.seen m hm
    have hlreached := hs.coordinated.epochs.2 l hl
    by_cases hlt : r.epoch < args.pusheeTxn.epoch
    · refine hs.coordinated.dead_of_epoch (.inr ha) hlreached ?_
      rw [hstages.epoch, hlepoch, hmepoch]
      exact hlt
    have hts := hrefutes.resolve_right hlt
    have hepoch : r.epoch = args.pusheeTxn.epoch :=
      le_antisymm (hcareful r hr hstages.status hts) (not_lt.mp hlt)
    rw [less_iff, ← hmts] at hts
    rcases hwhy with hle | ⟨t, ht, hactive, hle⟩
    · refine hs.coordinated.dead_of_above (.inr ha) hl ?_ ?_
      · rw [hlepoch, hmepoch, hstages.epoch, hepoch]
      · rw [lessEq_iff] at hle
        rw [less_iff, hstages.ts]
        omega
    · -- The record is not below a push of its transaction.
      rcases (((hs.recorded.answers t ht).2 hactive).1 r hr) with haborted | hpushed
      · rw [hstages.status] at haborted
        cases haborted
      · rw [lessEq_iff] at hle hpushed
        omega

theorem CommitInvariant.reached_epoch {m : TxnMeta}
    (hreached : s.Reached m) : m.epoch ≤ s.epoch := by
  rcases hreached with hposition | ⟨m', hm', hepoch, -⟩
  · exact (hs.coordinated.positions _ hposition).1
  · obtain ⟨l, hl, hlepoch, -⟩ := hs.located.seen m' hm'
    rw [← hepoch, ← hlepoch]
    exact hs.coordinated.epochs.2 l hl

theorem CommitInvariant.pushTxn {args : PushTxnRequest}
    (hv : s.Valid x (.command (.pushTxn h args) ec responseTS)) (hcareful : s.PushCareful args)
    (ho : KvServer.pushTxn ec h args s.records.record = .ok o) :
    CommandStep x s (.pushTxn h args) responseTS o := by
  obtain ⟨hreached, -, hvalid⟩ := hv
  have hpushee : x.Is args.pusheeTxn := hvalid.1 args.pusheeTxn rfl
  obtain ⟨hpush, hconsistent, hcases⟩ := pushTxn_eq_ok hs.recorded.sound.1 hpushee ho
  have hepoch := hs.reached_epoch hreached
  have htomb : o.txn.status.isFinalized = true → Tombstoned x
      ((Command.pushTxn h args).cacheEntries responseTS o.txn ++ s.records.cache) := by
    intro hfinal
    cases hrec : o.record with
    | some r => exact (hs.recorded.sound.2 (hpush.keeps r hrec).1).append
    | none =>
      rcases hpush.unrecorded hrec with hst | hst
      · rw [hst] at hfinal
        cases hfinal
      · refine ⟨⟨.tombstone, args.key, o.txn.id, o.txn.minTimestamp, args.pusherTxn.id⟩, ?_, rfl,
          hpush.key, hpush.txn.1, ?_⟩
        · simp [Command.cacheEntries, hst]
        · rw [hpush.txn.2.2]
          exact .refl _
  have hmarked : o.record = none → o.txn.status.isFinalized = false →
      PushMarked x ((Command.pushTxn h args).cacheEntries responseTS o.txn ++ s.records.cache)
        o.txn.writeTimestamp := by
    intro hrec hfinal
    rcases hpush.unrecorded hrec with hst | hst
    · refine ⟨⟨.push, args.key, o.txn.id, o.txn.writeTimestamp, args.pusherTxn.id⟩, ?_, rfl,
        hpush.key, hpush.txn.1, .refl _⟩
      simp [Command.cacheEntries, hst]
    · rw [hst] at hfinal
      cases hfinal
  refine ⟨?_, hconsistent, htomb, hmarked, .inl rfl⟩
  rcases hcases with ⟨hnone, hunrecorded⟩ | ⟨r, hfound, hkeeps | hpushes⟩
  · exact .absent hnone hunrecorded.record (hunrecorded.epoch.le.trans hepoch) hunrecorded.status
  · exact .keep hfound hkeeps
  · have hreach : o.txn.epoch ≤ s.epoch := by
      rcases hpushes.epoch.2 with heq | heq
      · exact heq.le.trans (hs.recorded.epoch r hfound)
      · exact heq.le.trans hepoch
    rcases hpushes.status with ⟨hst, hrefutes⟩ | ⟨hst, hnewer⟩
    · refine .abort ?_ (fun hnone => absurd (hfound.symm.trans hnone) (by simp)) hreach hst
      intro r' hr'
      obtain rfl := some.inj (hfound.symm.trans hr')
      exact .inr ⟨hpushes.active, fun hstaging a ha hstages =>
        hs.dead_of_refutes hreached hcareful hfound (hrefutes hstaging) ha hstages⟩
    · exact .restart hfound hpushes.active hpushes.isSome hpushes.epoch.1 hpushes.writeTimestamp
        hreach hst hnewer

theorem CommitInvariant.recoverTxn {args : RecoverTxnRequest}
    (hv : s.Valid x (.command (.recoverTxn h args) ec responseTS))
    (ho : KvServer.recoverTxn ec h args s.records.record = .ok o) :
    CommandStep x s (.recoverTxn h args) responseTS o := by
  obtain ⟨⟨rec, hrec, -, rfl, -⟩, -, hvalid⟩ := hv
  obtain ⟨a, hprobes⟩ := hs.recoveries rec hrec
  obtain ⟨hrecover, hconsistent, hcases⟩ :=
    recoverTxn_eq_ok hs.recorded.sound.1 (hvalid.1 _ rfl) ho
  have hts := hvalid.2.1.trans hvalid.2.2.1
  have htomb : o.txn.status.isFinalized = true → Tombstoned x
      ((Command.recoverTxn h rec.recoverTxnRequest).cacheEntries responseTS o.txn ++
        s.records.cache) := by
    intro hfinal
    refine ⟨⟨.tombstone, rec.recoverTxnRequest.key, o.txn.id, responseTS, o.txn.id⟩, ?_, rfl,
      hrecover.key, hrecover.txn.1, hts⟩
    simp [Command.cacheEntries, hfinal]
  have hreached : a.epoch ≤ s.epoch :=
    (hs.coordinated.attempts a (hs.coordinated.staged a hprobes.staged)).1
  rcases hcases with ⟨hnone, hrecord, hst, hepoch⟩ | ⟨r, hfound, hkeeps | hrecovers⟩
  · refine ⟨.absent hnone hrecord ?_ (.inr hst), hconsistent, htomb, unmarked (by rw [hst]; rfl),
      .inl rfl⟩
    exact (hepoch.trans hprobes.epoch).le.trans hreached
  · exact ⟨.keep hfound hkeeps, hconsistent, htomb,
      fun hno => absurd hno (not_none_of_isSome hkeeps.isSome), .inl rfl⟩
  · refine ⟨?_, hconsistent, htomb,
      fun hno => absurd hno (not_none_of_isSome hrecovers.isSome), .inl rfl⟩
    rcases hrecovers.status with ⟨-, hst, -, -⟩ | ⟨hnot, hst, hle, hlets⟩
    · exact .commit hfound hrecovers.staging hrecovers.epoch hrecovers.writeTimestamp hst
    · have hprevented : rec.preventedIntent = true := by
        unfold Recovery.recoverTxnRequest at hnot
        simpa using hnot
      refine .abort ?_ (fun hnone => absurd (hfound.symm.trans hnone) (by simp)) ?_ hst
      · intro r' hr'
        obtain rfl := some.inj (hfound.symm.trans hr')
        refine .inr ⟨by rw [hrecovers.staging]; rfl, ?_⟩
        intro hstaging b hb hstages
        -- The staged attempt is the one that was probed.
        obtain ⟨hbound, hboundts, -⟩ := hs.recorded.bound a hprobes.staged r hfound
          (by rw [hstaging]; rfl)
        have hsame : b = a := by
          refine hs.coordinated.unique b (.inr hb) a (.inr hprobes.staged) ?_ ?_
          · have hle' : r.epoch ≤ rec.txn.epoch := hle
            rw [hprobes.epoch] at hle'
            rw [hstages.epoch]
            exact le_antisymm hle' hbound
          · have hlets' : r.writeTimestamp.LessEq rec.txn.writeTimestamp := hlets
            rw [hprobes.ts, lessEq_iff] at hlets'
            rw [lessEq_iff] at hboundts
            rw [Timestamp.eqOrdering_iff, hstages.ts]
            exact le_antisymm hlets' hboundts
        rw [hsame]
        refine (hprobes.prevented hprevented).resolve_right ?_
        intro hfinal
        have hfinal' := hs.recorded.finalized hfinal r hfound
        rw [hstaging] at hfinal'
        cases hfinal'
      · rw [hrecovers.epoch]
        exact hs.recorded.epoch r hfound

end

end Effects

end CommitState

end Cockroach.KvServer
