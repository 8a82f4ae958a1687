import Cockroach.KvServer.CommitInvariant

/-! Recoveries of indeterminate commits along the runs of a transaction. -/
namespace Cockroach.KvServer
open ByteOrder Hlc Storage Roachpb List Option
open Timestamp (lessEq_iff less_iff)

namespace Recovery

theorem mem_start (txn : Roachpb.Transaction) (w : SequencedWrite) :
    w ∈ (start txn).batch ∨ w ∈ (start txn).rest ↔ w ∈ txn.inFlightWrites := by
  unfold start
  dsimp only
  split_ifs with hnil
  · have hlength := congrArg List.length hnil
    rw [length_mergeSort] at hlength
    have hempty : txn.inFlightWrites = [] := eq_nil_of_length_eq_zero hlength
    rw [hempty]
    simp
  · change w ∈ List.take _ _ ∨ w ∈ List.drop _ _ ↔ _
    rw [← mem_append, take_append_drop, mem_mergeSort]

theorem start_preventedIntent (txn : Roachpb.Transaction) :
    (start txn).preventedIntent = false := by
  unfold start
  dsimp only
  split_ifs <;> rfl

theorem start_txn (txn : Roachpb.Transaction) : (start txn).txn = txn := by
  unfold start
  dsimp only
  split_ifs <;> rfl

/-- The query of a recovery finds an intent of the epoch that is not above its timestamp. -/
def Finds (r : Recovery) (w : SequencedWrite) (intent : Option TxnMeta) : Prop :=
  ∃ m ∈ intent, r.txn.id = m.id ∧ r.txn.epoch = m.epoch ∧ w.sequence ≤ m.sequence ∧
    m.writeTimestamp.LessEq r.txn.writeTimestamp

theorem queryIntent_eq (r : Recovery) (w : SequencedWrite) (now : Timestamp)
    (intent : Option TxnMeta) :
    ∃ found, queryIntent (r.header now) (r.queryIntentRequest w) intent = .ok ⟨found, none⟩ ∧
      (found = true ↔ r.Finds w intent) := by
  have hheader : ¬ (r.header now).writeTimestamp.Less
      (r.queryIntentRequest w).txn.writeTimestamp := by
    change ¬ (now.forward r.txn.writeTimestamp).Less r.txn.writeTimestamp
    rw [less_iff, Timestamp.ticks_forward, not_lt]
    exact le_max_right _ _
  unfold queryIntent
  rw [show (r.header now).txn = none from rfl, any_none, if_neg hheader]
  cases hmatch : intent.filter (r.queryIntentRequest w).matchesIntent with
  | none =>
    refine ⟨false, rfl, by simp, ?_⟩
    rintro ⟨m, rfl, hid, hepoch, hseq, -⟩
    rw [filter_some] at hmatch
    have hyes : (r.queryIntentRequest w).matchesIntent m = true :=
      decide_eq_true ⟨hid, hepoch, hseq⟩
    rw [hyes] at hmatch
    cases hmatch
  | some m =>
    obtain ⟨rfl, hyes⟩ := filter_eq_some_iff.mp hmatch
    obtain ⟨hid, hepoch, hseq⟩ := of_decide_eq_true hyes
    dsimp only
    by_cases hpushed : ((r.queryIntentRequest w).cmpTS (r.header now)).Less m.writeTimestamp
    · rw [if_pos hpushed]
      refine ⟨false, rfl, by simp, ?_⟩
      rintro ⟨m', hm', -, -, -, hle⟩
      obtain rfl := some.inj hm'
      change r.txn.writeTimestamp.Less m.writeTimestamp at hpushed
      rw [less_iff] at hpushed
      rw [lessEq_iff] at hle
      omega
    · rw [if_neg hpushed]
      refine ⟨true, rfl, fun _ => ⟨m, rfl, hid, hepoch, hseq, ?_⟩, fun _ => rfl⟩
      rw [less_iff, not_lt] at hpushed
      rwa [lessEq_iff]

end Recovery

namespace CommitState

section Probing

variable {x : TxnIdentity} {s : CommitState} {a : Attempt} {r : Recovery} {w : SequencedWrite}

theorem finalized_of_committed (h : s.Committed) : s.Finalized := by
  obtain ⟨t, ht, hst⟩ := h
  exact ⟨t, ht, by rw [hst]; rfl⟩

theorem CommitInvariant.landed_of_finds (hs : s.CommitInvariant x) (hp : s.Probes x a r)
    (hfinds : r.Finds w (s.intents w.key)) : s.Landed a w := by
  obtain ⟨m, hm, -, hepoch, hseq, hle⟩ := hfinds
  obtain ⟨-, l, hl, hexplains, hkey, hlseq, hlle⟩ := hs.located.intents w.key m hm
  refine ⟨l, hl, hkey, ?_, ?_, ?_⟩
  · rw [hexplains.1, ← hepoch, hp.epoch]
  · rw [hlseq]
    exact hseq
  · rw [← hp.ts]
    exact hlle.trans hle

theorem CommitInvariant.finds_of_landed (hs : s.CommitInvariant x) (ha : a ∈ s.staged)
    (hx : x.Is r.txn.toTxnMeta) (hepoch : r.txn.epoch = a.epoch)
    (hts : r.txn.writeTimestamp = a.ts) (hdead : ¬ s.Dead a) (hfinal : ¬ s.Finalized)
    (hlanded : s.Landed a w) : r.Finds w (s.intents w.key) := by
  obtain ⟨l, hl, hkey, hlepoch, hseq, -⟩ := hlanded
  have hkills : ∀ {epoch : ℤ}, epoch ≤ s.epoch → ¬ a.epoch < epoch := fun hreached hlt =>
    hdead (hs.coordinated.dead_of_epoch (.inr ha) hreached hlt)
  rcases hs.located.present hfinal l hl with ⟨t, ht, hlt⟩ | ⟨m, hm, hlast⟩
  · rw [hlepoch] at hlt
    exact absurd hlt (hkills (hs.recorded.answers t ht).1)
  rw [hkey] at hm
  obtain ⟨hmx, l', hl', ⟨hl'epoch, hwhy⟩, -, -, -⟩ := hs.located.intents w.key m hm
  rcases hlast with hlt | ⟨hmepoch, hmseq⟩
  · rw [hlepoch, ← hl'epoch] at hlt
    exact absurd hlt (hkills (hs.coordinated.epochs.2 l' hl'))
  refine ⟨m, hm, ?_, ?_, hseq.trans hmseq, ?_⟩
  · rw [hx.1, hmx.1]
  · rw [hepoch, ← hlepoch, hmepoch]
  · rw [hts, lessEq_iff]
    by_contra habove
    rcases hwhy with hle' | ⟨t, ht, hactive, hle'⟩
    · refine hdead (hs.coordinated.dead_of_above (.inr ha) hl' ?_ ?_)
      · rw [hl'epoch, ← hmepoch, hlepoch]
      · rw [lessEq_iff] at hle'
        rw [less_iff]
        omega
    · -- The transaction was not pushed above the record that the attempt has staged.
      rcases hs.recorded.live a ha with hd | ⟨rec, hrec, hstages⟩ | ⟨hcommitted, -⟩
      · exact hdead hd
      · rcases ((hs.recorded.answers t ht).2 hactive).1 rec hrec with haborted | hpushed
        · rw [hstages.status] at haborted
          cases haborted
        · rw [← hstages.ts] at hpushed
          rw [lessEq_iff] at hle' hpushed
          omega
      · exact hfinal (finalized_of_committed hcommitted)

theorem CommitInvariant.dead_of_missing (hs : s.CommitInvariant x) (hp : s.Probes x a r)
    (hw : w ∈ a.writes) (hmissing : ¬ r.Finds w (s.intents w.key)) :
    (s.addRead w.key r.txn.writeTimestamp).Dead a ∨ s.Finalized := by
  by_cases hfinal : s.Finalized
  · exact .inr hfinal
  refine .inl ?_
  have hext : s.Extends (s.addRead w.key r.txn.writeTimestamp).toCoordinator :=
    Coordinator.extends_of_reads (fun k => Coordinator.lessEq_update s.reads w.key k _) rfl rfl
      (fun _ => id) rfl rfl
  by_cases hdead : s.Dead a
  · exact hext.dead (.inr hp.staged) hdead
  have hnot : ¬ s.Landed a w := fun hlanded =>
    hmissing (hs.finds_of_landed hp.staged hp.is hp.epoch hp.ts hdead hfinal hlanded)
  refine ⟨w, hw, hnot, .inl ?_⟩
  change a.ts.LessEq (Function.update s.reads w.key _ w.key)
  rw [Function.update_self, ← hp.ts]
  exact .forward_right _ _

theorem step_queryIntent (s : CommitState) (r : Recovery) (w : SequencedWrite) (now : Timestamp) :
    (r.Finds w (s.intents w.key) ∧ s.step (.queryIntent r w now) = { s with
        recoveries := { r with batch := r.batch.erase w } :: s.recoveries }) ∨
      (¬ r.Finds w (s.intents w.key) ∧ s.step (.queryIntent r w now) =
        { s.addRead w.key r.txn.writeTimestamp with recoveries :=
          { r with batch := r.batch.erase w, preventedIntent := true } :: s.recoveries }) := by
  obtain ⟨found, heq, hfound⟩ := r.queryIntent_eq w now (s.intents w.key)
  dsimp only [step, probe]
  rw [heq]
  cases found with
  | true =>
    refine .inl ⟨hfound.mp rfl, ?_⟩
    dsimp only
    rw [if_pos rfl, Bool.not_true, Bool.or_false]
  | false =>
    refine .inr ⟨fun hfinds => Bool.false_ne_true (hfound.mpr hfinds), ?_⟩
    dsimp only
    rw [if_neg Bool.false_ne_true, Bool.not_false, Bool.or_true]

theorem CommitInvariant.queryIntent_probes (hs : s.CommitInvariant x) (now : Timestamp)
    (hw : w ∈ r.batch) (hp : s.Probes x a r) :
    ∃ r', (s.step (.queryIntent r w now)).recoveries = r' :: s.recoveries ∧
      (s.step (.queryIntent r w now)).Probes x a r' := by
  have hwrites := hp.queries w (.inl hw)
  have herase : ∀ v, v ∈ r.batch → v = w ∨ v ∈ r.batch.erase w := fun v hv =>
    or_iff_not_imp_left.mpr fun hne => (mem_erase_of_ne hne).mpr hv
  have hqueries : ∀ v, v ∈ r.batch.erase w ∨ v ∈ r.rest → v ∈ a.writes := fun v hv =>
    hp.queries v (hv.imp_left mem_of_mem_erase)
  rcases step_queryIntent s r w now with ⟨hfinds, heq⟩ | ⟨hmissing, heq⟩
  · rw [heq]
    refine ⟨_, rfl, hp.staged, hp.is, hp.epoch, hp.ts, hqueries, ?_, hp.prevented⟩
    intro v hv
    rcases hp.found v hv with hbatch | hrest
    · rcases herase v hbatch with rfl | hleft
      · exact .inr (.inr (.inr (hs.landed_of_finds hp hfinds)))
      · exact .inl hleft
    · exact .inr hrest
  · rw [heq]
    exact ⟨_, rfl, hp.staged, hp.is, hp.epoch, hp.ts, hqueries,
      fun v _ => .inr (.inr (.inl rfl)), fun _ => hs.dead_of_missing hp hwrites hmissing⟩

theorem CommitInvariant.start_probes (hs : s.CommitInvariant x) {t : Roachpb.Transaction}
    (hx : x.Is t.toTxnMeta) {rec : TransactionRecord} (hrec : s.records.record = some rec)
    (hst : rec.status = .staging) (hepoch : t.epoch = rec.epoch)
    (hts : t.writeTimestamp = rec.writeTimestamp)
      (hwrites : t.inFlightWrites = rec.inFlightWrites) : ∃ a, s.Probes x a (Recovery.start t) := by
  obtain ⟨a, ha, hstages, hawrites⟩ := hs.recorded.staging rec hrec hst
  have hmem : ∀ w, w ∈ (Recovery.start t).batch ∨ w ∈ (Recovery.start t).rest ↔ w ∈ a.writes := by
    intro w
    rw [Recovery.mem_start, hwrites, hawrites]
  refine ⟨a, ha, ?_, ?_, ?_, fun w => (hmem w).mp, ?_, ?_⟩
  · rw [Recovery.start_txn]
    exact hx
  · rw [Recovery.start_txn, hepoch, hstages.epoch]
  · rw [Recovery.start_txn, hts, hstages.ts]
  · intro w hw
    exact ((hmem w).mpr hw).imp_right .inl
  · intro hprevented
    rw [Recovery.start_preventedIntent] at hprevented
    cases hprevented

end Probing

section Steps

variable {x : TxnIdentity} {s s' : CommitState} {c : Command} {ec : EvalContext}
  {responseTS : Timestamp} {o : Outcome}

theorem CommitInvariant.commandStep (hs : s.CommitInvariant x)
    (hv : s.Valid x (.command c ec responseTS)) (hcareful : s.Careful (.command c ec responseTS))
    (heval : c.eval ec s.records.record = .ok o) : CommandStep x s c responseTS o := by
  cases c with
  | heartbeatTxn h args => exact hs.heartbeatTxn hv heval
  | pushTxn h args => exact hs.pushTxn hv hcareful heval
  | recoverTxn h args => exact hs.recoverTxn hv heval
  | endTxn h args =>
    cases hcommit : args.commit with
    | true => exact hs.endTxn_explicit hv hcommit heval
    | false => exact hs.endTxn_rollback hv hcommit (hcareful hcommit) heval

theorem CommitInvariant.indeterminate (hs : s.CommitInvariant x)
    (hv : s.Valid x (.command c ec responseTS)) (hcareful : s.Careful (.command c ec responseTS))
    {t : Roachpb.Transaction}
    (heval : c.eval ec s.records.record = .error (.indeterminateCommit t)) :
    x.Is t.toTxnMeta ∧ ∃ r, s.records.record = some r ∧ r.status = .staging ∧
      t.epoch = r.epoch ∧ t.writeTimestamp = r.writeTimestamp ∧
      t.inFlightWrites = r.inFlightWrites := by
  obtain ⟨hsends, hec, hvalid⟩ := hv
  cases c with
  | heartbeatTxn h args => exact absurd heval heartbeatTxn_determinate
  | recoverTxn h args => exact absurd heval recoverTxn_determinate
  | pushTxn h args => exact pushTxn_indeterminate hs.recorded.sound.1 (hvalid.1 _ rfl) heval
  | endTxn h args =>
    obtain ⟨hcommit, -, hdr, hhdr, -⟩ := endTxn_indeterminate_of_rollback hec heval
    have hrollback := hsends hdr hhdr
    rw [hcommit] at hrollback
    have hstatus : hdr.status ≠ .staging := by
      rcases hrollback.2 with hst | ⟨hst, -⟩
      · rw [hst]
        simp
      · rw [hst]
        simp
    obtain ⟨hx, r, hr, hst, hepoch, hupdated⟩ := endTxn_indeterminate hec hs.recorded.sound.1
      hhdr (header_is hvalid rfl hhdr) hstatus heval
    obtain ⟨hts, hwrites⟩ := (hcareful hcommit).1 hdr hhdr r hr hst hepoch
    refine ⟨hx, r, hr, hst, hupdated.epoch.trans hepoch.symm, hupdated.writeTimestamp.trans hts, ?_⟩
    rw [hupdated.inFlightWrites hepoch]
    change (if hdr.inFlightWrites ≠ [] then hdr.inFlightWrites else r.inFlightWrites) = _
    rcases hwrites with hnil | hsame
    · rw [if_neg (not_not.mpr hnil)]
    · rw [hsame, ite_self]

theorem CommitInvariant.keep (hs : s.CommitInvariant x) (hc : s'.Coordinated)
    (hext : s.Extends s'.toCoordinator) (hrecords : s'.records = s.records)
      (hanswers : s'.answers = s.answers)
    (hstaged : s'.staged = s.staged) (hintents : s'.intents = s.intents)
    (hseen : s'.seen = s.seen) (happlied : s'.applied = s.applied)
    (hrecoveries : ∀ r ∈ s'.recoveries, r ∈ s.recoveries ∨ ∃ a, s'.Probes x a r) :
    s'.CommitInvariant x := by
  refine ⟨hc, hs.recorded.keep hext hrecords hanswers hstaged, ?_, ?_⟩
  · exact hs.located.keep hseen happlied (fun t ht => by rwa [hanswers]) (.inl hintents)
  · intro r hr
    rcases hrecoveries r hr with hold | hnew
    · obtain ⟨a, hp⟩ := hs.recoveries r hold
      refine ⟨a, hp.keep hext (fun b hb => by rwa [hstaged]) ?_⟩
      unfold Finalized
      rw [hanswers]
      exact id
    · exact hnew

theorem CommitInvariant.recoveries_keep (hs : s.CommitInvariant x)
    (hext : s.Extends s'.toCoordinator)
    (hstaged : ∀ b ∈ s.staged, b ∈ s'.staged) (hanswers : ∀ t ∈ s.answers, t ∈ s'.answers)
    (hrecoveries : s'.recoveries = s.recoveries) : ∀ r ∈ s'.recoveries, ∃ a, s'.Probes x a r := by
  intro r hr
  rw [hrecoveries] at hr
  obtain ⟨a, hp⟩ := hs.recoveries r hr
  refine ⟨a, hp.keep hext hstaged ?_⟩
  rintro ⟨t, ht, hfinal⟩
  exact ⟨t, hanswers t ht, hfinal⟩

theorem apply_error {e : EvalError} (heval : c.eval ec s.records.record = .error e)
    (hno : ∀ t, e ≠ .indeterminateCommit t) : s.apply c ec responseTS = s := by
  unfold apply
  rw [heval]
  split
  · rename_i h
    cases h
  · rename_i t h
    exact absurd (Except.error.inj h) (hno t)
  · rfl

theorem CommitInvariant.command (hs : s.CommitInvariant x)
    (hv : s.Valid x (.command c ec responseTS)) (hcareful : s.Careful (.command c ec responseTS)) :
    (s.step (.command c ec responseTS)).CommitInvariant x := by
  have hc := hs.coordinated.step hv hcareful
  have hext := extends_step hv hcareful
  change (s.apply c ec responseTS).CommitInvariant x
  change (s.apply c ec responseTS).Coordinated at hc
  change s.Extends (s.apply c ec responseTS).toCoordinator at hext
  cases heval : c.eval ec s.records.record with
  | ok o =>
    have hstep := hs.commandStep hv hcareful heval
    have hanswers : ∀ t ∈ s.answers, t ∈ (s.apply c ec responseTS).answers := by
      intro t ht
      rw [apply_ok heval]
      exact mem_cons_of_mem _ ht
    refine ⟨hc, hstep.recorded hs hv.2.2 heval, ?_, ?_⟩
    · refine hs.located.keep (apply_seen ..) (by rw [apply_toCoordinator]) hanswers ?_
      have hintents : (s.apply c ec responseTS).intents = s.intentsAfter c o.record := by
        rw [apply_ok heval]
      rw [hintents, finalized_apply heval]
      rcases hstep.resolved with hsame | hfinal
      · exact .inl hsame
      · exact (s.intentsAfter_cases c o.record).imp_right fun hnone => ⟨hnone, .inl hfinal⟩
    · exact hs.recoveries_keep hext (fun b hb => by rwa [apply_toCoordinator]) hanswers
        (by rw [apply_ok heval])
  | error e =>
    by_cases hindeterminate : ∃ t, e = .indeterminateCommit t
    · obtain ⟨t, rfl⟩ := hindeterminate
      obtain ⟨hx, r, hr, hst, hepoch, hts, hwrites⟩ := hs.indeterminate hv hcareful heval
      obtain ⟨a, hp⟩ := hs.start_probes hx hr hst hepoch hts hwrites
      have happly : s.apply c ec responseTS = { s with
          recoveries := .start t :: s.recoveries } := by
        unfold apply
        rw [heval]
      rw [happly] at hc hext ⊢
      refine hs.keep hc hext rfl rfl rfl rfl rfl rfl ?_
      intro r' hr'
      rcases mem_cons.mp hr' with rfl | hr'
      · exact .inr ⟨a, hp.keep hext (fun _ => id) id⟩
      · exact .inl hr'
    · rw [apply_error heval fun t ht => hindeterminate ⟨t, ht⟩]
      exact hs

theorem CommitInvariant.commit (hs : s.CommitInvariant x) {a : Attempt} {h : Header}
    {args : EndTxnRequest} (hv : s.Valid x (.commit a h args ec responseTS)) :
    (s.step (.commit a h args ec responseTS)).CommitInvariant x := by
  have hc := hs.coordinated.step hv trivial
  have hext := extends_step hv trivial
  cases heval : KvServer.endTxn ec h args s.records.record with
  | ok o =>
    have hrecorded := hs.commit_recorded hv heval
    obtain ⟨⟨t, -, hends⟩, -, -⟩ := hs.commits hv heval
    rw [step_commit_ok heval] at hc hext hrecorded ⊢
    refine ⟨hc, hrecorded, ?_, ?_⟩
    · refine hs.located.keep rfl rfl (fun t ht => mem_cons_of_mem _ ht) ?_
      rcases hends.status with ⟨-, hst⟩ | ⟨-, -, hsome, -⟩
      · exact (s.intentsAfter_cases (.endTxn h args) o.record).imp_right fun hnone =>
          ⟨hnone, o.txn, mem_cons_self, by rw [hst]; rfl⟩
      · obtain ⟨r, hr⟩ := isSome_iff_exists.mp hsome
        refine .inl ?_
        rw [hr]
        rfl
    · exact hs.recoveries_keep hext (fun b hb => mem_cons_of_mem _ hb)
        (fun t ht => mem_cons_of_mem _ ht) rfl
  | error e =>
    obtain ⟨-, hcommit, -, -, hec, -⟩ := hv
    have hno : ∀ t, e ≠ .indeterminateCommit t := by
      rintro t rfl
      have hnot := (endTxn_indeterminate_of_rollback hec heval).1
      rw [hcommit] at hnot
      cases hnot
    have hstep : s.step (.commit a h args ec responseTS) =
        { s with requests := s.requests.filter (· ≠ a) } := by
      dsimp only [step]
      have happly : s.apply (.endTxn h args) ec responseTS = s := apply_error heval hno
      rw [happly, heval]
    rw [hstep] at hc hext ⊢
    exact hs.keep hc hext rfl rfl rfl rfl rfl rfl fun _ => .inl

theorem commitInvariant_start {epoch : ℤ} {ts : Timestamp} {reads : Bytes → Timestamp}
    (hts : Timestamp.empty.Less ts) : (start epoch ts reads).CommitInvariant x where
  coordinated := coordinated_start hts
  recorded := by
    constructor <;> simp [start, RecordState.Sound, Finalized]
  located := by
    constructor <;> simp [start]
  recoveries := by simp [start]

/-- Every step keeps the invariant. -/
theorem CommitInvariant.step (hs : s.CommitInvariant x) {e : CommitEvent} (hv : s.Valid x e)
    (hcareful : s.Careful e) : (s.step e).CommitInvariant x := by
  have hc := hs.coordinated.step hv hcareful
  have hext := extends_step hv hcareful
  cases e with
  | read | send | fail | advance | learn | attempt | drop =>
    exact hs.keep hc hext rfl rfl rfl rfl rfl rfl fun _ => .inl
  | commit a h args ec responseTS => exact hs.commit hv
  | command c ec responseTS => exact hs.command hv hcareful
  | land w intent =>
    exact ⟨hc, hs.recorded.keep hext rfl rfl rfl, hs.located.land hv,
      hs.recoveries_keep hext (fun _ => id) (fun _ => id) rfl⟩
  | pushIntent key txn =>
    exact ⟨hc, hs.recorded.keep hext rfl rfl rfl, hs.located.pushIntent hv,
      hs.recoveries_keep hext (fun _ => id) (fun _ => id) rfl⟩
  | resolveIntent key =>
    exact ⟨hc, hs.recorded.keep hext rfl rfl rfl, hs.located.resolveIntent hv,
      hs.recoveries_keep hext (fun _ => id) (fun _ => id) rfl⟩
  | gc =>
    exact ⟨hc, hs.recorded.gc hv, hs.located.keep rfl rfl (fun _ => id) (.inl rfl),
      hs.recoveries_keep hext (fun _ => id) (fun _ => id) rfl⟩
  | queryTxn r ec =>
    obtain ⟨a, hp⟩ := hs.recoveries r hv
    dsimp only [CommitState.step] at hc hext ⊢
    split_ifs at hc hext ⊢
    · exact hs
    · refine hs.keep hc hext rfl rfl rfl rfl rfl rfl ?_
      intro r' hr'
      rcases mem_cons.mp hr' with rfl | hr'
      · exact .inr ⟨a, hp.staged, hp.is, hp.epoch, hp.ts, hp.queries, hp.found, hp.prevented⟩
      · exact .inl hr'
  | queryIntent r w now =>
    obtain ⟨hr, hw⟩ := hv
    obtain ⟨a, hp⟩ := hs.recoveries r hr
    obtain ⟨r', hrecoveries, hp'⟩ := hs.queryIntent_probes now hw hp
    have hsame : ∃ reads recoveries, s.step (.queryIntent r w now) =
        { s with reads := reads, recoveries := recoveries } := by
      rcases step_queryIntent s r w now with ⟨-, heq⟩ | ⟨-, heq⟩
      · exact ⟨_, _, heq⟩
      · exact ⟨_, _, heq⟩
    obtain ⟨reads, recoveries, heq⟩ := hsame
    rw [heq] at hc hext hrecoveries hp' ⊢
    refine hs.keep hc hext rfl rfl rfl rfl rfl rfl ?_
    intro r₁ hr₁
    rw [hrecoveries] at hr₁
    rcases mem_cons.mp hr₁ with rfl | hr₁
    · exact .inr ⟨a, hp'⟩
    · exact .inl hr₁
  | nextBatch r =>
    obtain ⟨hr, ⟨hempty, -⟩, -, -⟩ := hv
    obtain ⟨a, hp⟩ := hs.recoveries r hr
    have hmem : ∀ w, w ∈ r.sendBatch.batch ∨ w ∈ r.sendBatch.rest ↔ w ∈ r.rest := by
      intro w
      change w ∈ List.take _ _ ∨ w ∈ List.drop _ _ ↔ _
      rw [← mem_append, take_append_drop]
    refine hs.keep hc hext rfl rfl rfl rfl rfl rfl ?_
    intro r' hr'
    rcases mem_cons.mp hr' with rfl | hr'
    · refine .inr ⟨a, hp.staged, hp.is, hp.epoch, hp.ts, ?_, ?_, hp.prevented⟩
      · intro w hw
        exact hp.queries w (.inr ((hmem w).mp hw))
      · intro w hw
        rcases hp.found w hw with hbatch | hrest | hleft
        · rw [hempty] at hbatch
          cases hbatch
        · exact ((hmem w).mpr hrest).imp_right .inl
        · exact .inr (.inr hleft)
    · exact .inl hr'

end Steps

theorem invariant_of_run {x : TxnIdentity} {P : CommitState → CommitEvent → Prop}
    {s : CommitState} (hP : ∀ s e, P s e → s.Careful e) (h : CommitRun x P s) :
    s.CommitInvariant x := by
  induction h with
  | start epoch ts reads hts => exact commitInvariant_start hts
  | step e _ hv hp ih => exact ih.step hv (hP _ _ hp)

end CommitState

end Cockroach.KvServer
