import Cockroach.KvServer.CommitRecord

/-! Every step of a run keeps the record, the intents and the recoveries in agreement. -/
namespace Cockroach.KvServer
open ByteOrder Hlc Storage Roachpb List Option
open Function (update update_of_ne update_self)

namespace CommitState

section Command

variable {x : TxnIdentity} {s : CommitState} {c : Command} {ec : EvalContext}
  {responseTS : Timestamp} {o : Outcome}

theorem apply_ok (heval : c.eval ec s.records.record = .ok o) :
    s.apply c ec responseTS = { s with
      records := ⟨o.record, c.cacheEntries responseTS o.txn ++ s.records.cache⟩
      answers := o.txn :: s.answers
      intents := s.intentsAfter c o.record } := by
  unfold apply
  rw [heval]
  rw [step_of_eval responseTS heval]

section

variable (h : CommandEffect x s o)
include h

theorem CommandEffect.epoch_le (hs : s.CommitInvariant x) : o.txn.epoch ≤ s.epoch := by
  cases h with
  | keep found keeps => exact keeps.epoch.le.trans (hs.recorded.epoch _ found)
  | absent _ _ hle _ | create _ _ _ hle _ | abort _ _ hle _ | restart _ _ _ _ _ hle _ _ => exact hle
  | commit found _ heq _ _ => exact heq.le.trans (hs.recorded.epoch _ found)

theorem CommandEffect.finalized (hs : s.CommitInvariant x)
    (hfinal : s.Finalized) : o.record = none ∨ o.txn.status.isFinalized = true := by
  have hrecord := hs.recorded.finalized hfinal
  cases h with
  | keep found keeps =>
    rw [keeps.status]
    exact .inr (hrecord _ found)
  | absent _ hnone _ _ => exact .inl hnone
  | create _ hfree _ _ _ => exact absurd (hs.recorded.tombstoned (.inr hfinal)) hfree
  | commit _ _ _ _ hst | abort _ _ _ hst =>
    rw [hst]
    exact .inr rfl
  | restart found hactive _ _ _ _ _ _ =>
    rw [hrecord _ found] at hactive
    cases hactive

/-- A staged attempt lives on in the record, or dies. -/
theorem CommandEffect.live (hs : s.CommitInvariant x)
    (hconsistent : o.Consistent) {a : Attempt} (ha : a ∈ s.staged) :
    s.Dead a ∨ (∃ r ∈ o.record, Stages a r) ∨
      (o.txn.status = .committed ∨ s.Committed) ∧ ∀ r ∈ o.record,
        r.status = .committed ∧ a.epoch = r.epoch ∧ a.ts = r.writeTimestamp := by
  by_cases hdead : s.Dead a
  · exact .inl hdead
  refine .inr ?_
  have hlive := (hs.recorded.live a ha).resolve_left hdead
  cases h with
  | @keep r found keeps =>
    obtain ⟨r', hr'⟩ := isSome_iff_exists.mp keeps.isSome
    obtain ⟨hmeta, hst, -⟩ := hconsistent r' hr'
    have hepoch : r'.epoch = r.epoch := by rw [hmeta, keeps.epoch]
    have hts : r'.writeTimestamp = r.writeTimestamp := by rw [hmeta, keeps.writeTimestamp]
    rcases hlive with ⟨r₀, hr₀, hstages⟩ | ⟨hcommitted, hwhere⟩
    · obtain rfl := some.inj (found.symm.trans hr₀)
      refine .inl ⟨r', hr', ?_, ?_, ?_⟩
      · rw [hst, keeps.status, hstages.status]
      · rw [hepoch, hstages.epoch]
      · rw [hts, hstages.ts]
    · refine .inr ⟨.inr hcommitted, ?_⟩
      intro r₁ hr₁
      obtain rfl := some.inj (hr'.symm.trans hr₁)
      obtain ⟨hst₀, hepoch₀, hts₀⟩ := hwhere r found
      rw [hst, keeps.status, hepoch, hts]
      exact ⟨hst₀, hepoch₀, hts₀⟩
  | absent found hnone _ _ =>
    rcases hlive with ⟨r₀, hr₀, -⟩ | ⟨hcommitted, -⟩
    · cases found.symm.trans hr₀
    · refine .inr ⟨.inr hcommitted, ?_⟩
      intro r hr
      cases hnone.symm.trans hr
  | create _ hfree _ _ _ =>
    exact absurd (hs.recorded.tombstoned (.inl (ne_nil_of_mem ha))) hfree
  | @commit r found hstaging hepoch hts hst =>
    rcases hlive with ⟨r₀, hr₀, hstages⟩ | ⟨-, hwhere⟩
    · obtain rfl := some.inj (found.symm.trans hr₀)
      refine .inr ⟨.inl hst, ?_⟩
      intro r' hr'
      obtain ⟨hmeta, hst', -⟩ := hconsistent r' hr'
      rw [hst', hmeta, hepoch, hts]
      exact ⟨hst, hstages.epoch, hstages.ts⟩
    · rw [(hwhere r found).1] at hstaging
      cases hstaging
  | abort found huncommitted _ _ =>
    exfalso
    rcases hlive with ⟨r₀, hr₀, hstages⟩ | ⟨hcommitted, hwhere⟩
    · rcases found r₀ hr₀ with haborted | ⟨-, hkills⟩
      · rw [hstages.status] at haborted
        cases haborted
      · exact hdead (hkills hstages.status a ha hstages)
    · cases hrecord : s.records.record with
      | none => exact huncommitted hrecord hcommitted
      | some r =>
        have hst := (hwhere r hrecord).1
        rcases found r hrecord with haborted | ⟨hactive, -⟩
        · rw [hst] at haborted
          cases haborted
        · rw [hst] at hactive
          cases hactive
  | @restart r found hactive _ _ _ hreached _ hnewer =>
    exfalso
    rcases hlive with ⟨r₀, hr₀, hstages⟩ | ⟨-, hwhere⟩
    · obtain rfl := some.inj (found.symm.trans hr₀)
      refine hdead (hs.coordinated.dead_of_epoch (.inr ha) hreached ?_)
      rw [hstages.epoch]
      exact hnewer hstages.status
    · rw [(hwhere r found).1] at hactive
      cases hactive

theorem CommandEffect.bound (hs : s.CommitInvariant x)
    (hconsistent : o.Consistent) {a : Attempt} (ha : a ∈ s.staged) {r' : TransactionRecord}
    (hr' : o.record = some r') (hactive' : r'.status.isFinalized = false) :
    a.epoch ≤ r'.epoch ∧ a.ts.LessEq r'.writeTimestamp ∧
      (r'.status = .pending → a.epoch < r'.epoch) := by
  obtain ⟨hmeta, hst', -⟩ := hconsistent r' hr'
  cases h with
  | @keep r found keeps =>
    rw [hst', keeps.status] at hactive'
    obtain ⟨hepoch, hts, hpending⟩ := hs.recorded.bound a ha r found hactive'
    rw [hst', keeps.status, hmeta, keeps.epoch, keeps.writeTimestamp]
    exact ⟨hepoch, hts, hpending⟩
  | absent _ hnone _ _ => cases hnone.symm.trans hr'
  | create _ hfree _ _ _ =>
    exact absurd (hs.recorded.tombstoned (.inl (ne_nil_of_mem ha))) hfree
  | commit _ _ _ _ hst | abort _ _ _ hst =>
    rw [hst', hst] at hactive'
    cases hactive'
  | @restart r found hactive _ hle hlets _ _ hnewer =>
    obtain ⟨hepoch, hts, hpending⟩ := hs.recorded.bound a ha r found hactive
    rw [hmeta]
    refine ⟨hepoch.trans hle, hts.trans hlets, fun _ => ?_⟩
    cases hst : r.status with
    | pending => exact (hpending hst).trans_le hle
    | staging => exact hepoch.trans_lt (hnewer hst)
    | committed | aborted =>
      rw [hst] at hactive
      cases hactive

theorem CommandEffect.staging (hst : o.txn.status = .staging) :
    ∃ r, s.records.record = some r ∧ o.Keeps r := by
  cases h with
  | keep found keeps => exact ⟨_, found, keeps⟩
  | absent _ _ _ hst' =>
    rcases hst' with hst' | hst' <;> cases hst.symm.trans hst'
  | create _ _ _ _ hst' | commit _ _ _ _ hst' | abort _ _ _ hst' | restart _ _ _ _ _ _ hst' _ =>
    cases hst.symm.trans hst'

end

theorem finalized_apply (heval : c.eval ec s.records.record = .ok o) :
    (s.apply c ec responseTS).Finalized ↔ o.txn.status.isFinalized = true ∨ s.Finalized := by
  rw [apply_ok heval]
  exact exists_mem_cons_iff _ _ _

theorem committed_apply (heval : c.eval ec s.records.record = .ok o) :
    (s.apply c ec responseTS).Committed ↔ o.txn.status = .committed ∨ s.Committed := by
  rw [apply_ok heval]
  exact exists_mem_cons_iff _ _ _

theorem pushKept_of_marked {record : Option TransactionRecord} {cache : List CacheEntry}
    {ts : Timestamp} (hrecord : ∀ r ∈ record, r.writeTimestamp = ts)
    (hmarked : record = none → PushMarked x cache ts) : PushKept x ⟨record, cache⟩ ts := by
  refine ⟨?_, fun hnone => .inr (hmarked hnone)⟩
  intro r hr
  rw [hrecord r hr]
  exact .inr (.refl _)

theorem CommandStep.recorded (h : CommandStep x s c responseTS o) (hs : s.CommitInvariant x)
    (hvalid : (Event.command c ec responseTS).Valid x s.records)
    (heval : c.eval ec s.records.record = .ok o) : (s.apply c ec responseTS).Recorded x := by
  have hkeeps := eventKeeps hs.recorded.sound hvalid
  have hrecords : (s.apply c ec responseTS).records =
      s.records.step (.command c ec responseTS) := by
    rw [apply_ok heval, step_of_eval responseTS heval]
  have hrecord : (s.apply c ec responseTS).records.record = o.record := by
    rw [apply_ok heval]
  have hcache : (s.apply c ec responseTS).records.cache =
      c.cacheEntries responseTS o.txn ++ s.records.cache := by
    rw [apply_ok heval]
  constructor
  · rw [hrecords]
    exact hkeeps.sound
  · rw [hrecord, apply_toCoordinator]
    intro r hr
    rw [(h.consistent r hr).1]
    exact h.effect.epoch_le hs
  · rw [hrecords, apply_toCoordinator]
    intro t ht
    have ht' : t = o.txn ∨ t ∈ s.answers := by
      rw [apply_ok heval] at ht
      exact mem_cons.mp ht
    rcases ht' with rfl | hold
    · refine ⟨h.effect.epoch_le hs, fun hactive => ?_⟩
      rw [step_of_eval responseTS heval]
      refine pushKept_of_marked ?_ fun hnone => h.marked hnone hactive
      intro r hr
      rw [(h.consistent r hr).1]
    · exact ⟨(hs.recorded.answers t hold).1,
        fun hactive => hkeeps.pushKept _ ((hs.recorded.answers t hold).2 hactive)⟩
  · rw [hcache, apply_toCoordinator, finalized_apply heval]
    rintro (hstaged | hfinal | hfinal)
    · exact (hs.recorded.tombstoned (.inl hstaged)).append
    · exact h.tombstoned hfinal
    · exact (hs.recorded.tombstoned (.inr hfinal)).append
  · rw [hrecord, finalized_apply heval]
    intro hfinal r hr
    rw [(h.consistent r hr).2.1]
    rcases hfinal with hnew | hold
    · exact hnew
    · refine (h.effect.finalized hs hold).resolve_left ?_
      intro hnone
      cases hnone.symm.trans hr
  · rw [hrecord, apply_toCoordinator]
    intro r hr hst
    obtain ⟨hmeta, hst', hwrites⟩ := h.consistent r hr
    obtain ⟨r₀, found, keeps⟩ := h.effect.staging (hst'.symm.trans hst)
    obtain ⟨a, ha, hstages, hawrites⟩ :=
      hs.recorded.staging r₀ found (keeps.status.symm.trans (hst'.symm.trans hst))
    refine ⟨a, ha, ⟨hst, ?_, ?_⟩, ?_⟩
    · rw [hmeta, keeps.epoch, hstages.epoch]
    · rw [hmeta, keeps.writeTimestamp, hstages.ts]
    · rw [hwrites (hst'.symm.trans hst), keeps.inFlightWrites, hawrites]
  · rw [hrecord, apply_toCoordinator, committed_apply heval]
    intro a ha
    exact h.effect.live hs h.consistent ha
  · rw [hrecord, apply_toCoordinator]
    intro a ha r hr hactive
    exact h.effect.bound hs h.consistent ha hr hactive

end Command

section Commit

variable {x : TxnIdentity} {s : CommitState} {a : Attempt} {h : Header} {args : EndTxnRequest}
  {ec : EvalContext} {responseTS : Timestamp} {o : Outcome}

theorem CommitInvariant.dead_of_request (hs : s.CommitInvariant x) (ha : a ∈ s.requests)
    {b : Attempt} (hb : b ∈ s.staged) (hepoch : b.epoch ≤ a.epoch) (hts : b.ts.LessEq a.ts) :
    s.Dead b := by
  by_contra hdead
  have hb' := hs.coordinated.staged b hb
  have hpassed : ¬ s.Passed b := fun hp => hdead (hs.coordinated.dead b (.inr hb) (.inl hp))
  obtain ⟨hbepoch, hbts⟩ := hs.coordinated.at_of_not_passed hb' hpassed
  obtain ⟨ha', hnot⟩ := hs.coordinated.requests a ha
  obtain ⟨haepoch, hats, -⟩ := hs.coordinated.attempts a ha'
  rw [Timestamp.eqOrdering_iff] at hbts
  rw [Timestamp.lessEq_iff] at hts hats
  have hsame : a = b := by
    refine hs.coordinated.unique a (.inl ha) b (.inr hb) ?_ ?_
    · omega
    · rw [Timestamp.eqOrdering_iff]
      omega
  exact hnot (hsame ▸ hb)

theorem CommitInvariant.commits (hs : s.CommitInvariant x)
    (hv : s.Valid x (.commit a h args ec responseTS))
    (ho : KvServer.endTxn ec h args s.records.record = .ok o) :
    (∃ t, CommitsAt a t ∧ CommitsTxn ec t args s.records.record o) ∧
      Tombstoned x ((Command.endTxn h args).cacheEntries responseTS o.txn ++ s.records.cache) ∧
      (s.records.record = none ∧ ¬ Tombstoned x s.records.cache ∨
        ∃ r, s.records.record = some r ∧ r.status.isFinalized = false ∧ r.epoch ≤ a.epoch ∧
          r.writeTimestamp.LessEq a.ts) := by
  obtain ⟨ha, hcommit, -, hat, -, hvalid⟩ := hv
  obtain ⟨t, ht, hx, htomb⟩ := endTxn_header hs hvalid ho
  have hpos : 0 < t.writeTimestamp.ticks := by
    rw [(hat t ht).ts]
    exact hs.ticks_pos (hs.coordinated.requests a ha).1
  have hends := endTxn_commit hs.recorded.sound.1 hx ht hpos (hat t ht).read hcommit ho
  refine ⟨⟨t, hat t ht, hends⟩, htomb, ?_⟩
  rcases hends.found with ⟨hnone, minCommitTS, hok⟩ | ⟨r, hfound, hactive, hepoch, hts⟩
  · rw [(hx t ht).1, (hx t ht).2.2] at hok
    exact .inl ⟨hnone, (canCreateTxnRecord_marks hvalid.2.2.2 hok).1⟩
  · rw [(hat t ht).epoch] at hepoch
    rw [(hat t ht).ts] at hts
    exact .inr ⟨r, hfound, hactive, hepoch, hts⟩

theorem step_commit_ok (ho : KvServer.endTxn ec h args s.records.record = .ok o) :
    s.step (.commit a h args ec responseTS) = { s with
      records := ⟨o.record, (Command.endTxn h args).cacheEntries responseTS o.txn ++
        s.records.cache⟩
      answers := o.txn :: s.answers
      intents := s.intentsAfter (.endTxn h args) o.record
      requests := s.requests.filter (· ≠ a)
      staged := a :: s.staged } := by
  have heval : (Command.endTxn h args).eval ec s.records.record = .ok o := ho
  dsimp only [step]
  rw [apply_ok heval, ho]

theorem CommitInvariant.commit_recorded (hs : s.CommitInvariant x)
    (hv : s.Valid x (.commit a h args ec responseTS))
    (ho : KvServer.endTxn ec h args s.records.record = .ok o) :
    (s.step (.commit a h args ec responseTS)).Recorded x := by
  obtain ⟨⟨t, hat, hends⟩, htomb, hfound⟩ := hs.commits hv ho
  have hext := extends_step hv trivial
  obtain ⟨ha, -, hwrites, -, -, hvalid⟩ := hv
  have heval : (Command.endTxn h args).eval ec s.records.record = .ok o := ho
  have hkeeps := eventKeeps hs.recorded.sound hvalid
  have hsound := hkeeps.sound
  have hpushed := hkeeps.pushKept
  rw [step_commit_ok ho] at hext ⊢
  rw [step_of_eval responseTS heval] at hsound hpushed
  have hoepoch : o.txn.epoch = a.epoch := hends.epoch.trans hat.epoch
  have hots : o.txn.writeTimestamp = a.ts := hends.writeTimestamp.trans hat.ts
  have hreached : a.epoch ≤ s.epoch :=
    (hs.coordinated.attempts a (hs.coordinated.requests a ha).1).1
  have hrecord : ∀ r ∈ o.record, r.epoch = a.epoch ∧ r.writeTimestamp = a.ts ∧
      r.status = o.txn.status := by
    intro r hr
    obtain ⟨hmeta, hst, -⟩ := hends.consistent r hr
    rw [hmeta]
    exact ⟨hoepoch, hots, hst⟩
  have hnotFinal : ¬ s.Finalized := by
    intro hfinal
    rcases hfound with ⟨-, hfree⟩ | ⟨r, hr, hactive, -, -⟩
    · exact hfree (hs.recorded.tombstoned (.inr hfinal))
    · rw [hs.recorded.finalized hfinal r hr] at hactive
      cases hactive
  -- The attempts that were staged before.
  have hold : ∀ b ∈ s.staged, s.Dead b ∧ b.epoch ≤ a.epoch ∧ b.ts.LessEq a.ts := by
    intro b hb
    rcases hfound with ⟨-, hfree⟩ | ⟨r, hr, hactive, hepoch, hts⟩
    · exact absurd (hs.recorded.tombstoned (.inl (ne_nil_of_mem hb))) hfree
    · obtain ⟨hbepoch, hbts, -⟩ := hs.recorded.bound b hb r hr hactive
      have hle := hbepoch.trans hepoch
      have hlets := hbts.trans hts
      exact ⟨hs.dead_of_request ha hb hle hlets, hle, hlets⟩
  constructor
  · exact hsound
  · intro r hr
    rw [(hrecord r hr).1]
    exact hreached
  · intro u hu
    rcases mem_cons.mp hu with rfl | hu
    · refine ⟨hoepoch.le.trans hreached, fun hactive => ?_⟩
      refine pushKept_of_marked (fun r hr => (hrecord r hr).2.1.trans hots.symm) ?_
      intro hnone
      rcases hends.status with ⟨-, hst⟩ | ⟨-, -, hsome, -⟩
      · rw [hst] at hactive
        cases hactive
      · exact absurd hnone (not_none_of_isSome hsome)
    · exact ⟨(hs.recorded.answers u hu).1,
        fun hactive => hpushed _ ((hs.recorded.answers u hu).2 hactive)⟩
  · exact fun _ => htomb
  · rintro ⟨u, hu, hfinal⟩ r hr
    rw [(hrecord r hr).2.2]
    rcases mem_cons.mp hu with rfl | hu
    · exact hfinal
    · exact absurd ⟨u, hu, hfinal⟩ hnotFinal
  · intro r hr hst
    obtain ⟨hepoch, hts, hst'⟩ := hrecord r hr
    refine ⟨a, mem_cons_self, ⟨hst, hepoch.symm, hts.symm⟩, ?_⟩
    rcases hends.status with ⟨-, hcommitted⟩ | ⟨-, hstaging, -, hinFlight⟩
    · cases (hst.symm.trans hst').trans hcommitted
    · rw [(hends.consistent r hr).2.2 hstaging, hinFlight, hwrites]
  · intro b hb
    rcases mem_cons.mp hb with rfl | hb
    · refine .inr ?_
      rcases hends.status with ⟨-, hcommitted⟩ | ⟨-, hstaging, hsome, -⟩
      · refine .inr ⟨⟨o.txn, mem_cons_self, hcommitted⟩, ?_⟩
        intro r hr
        obtain ⟨hepoch, hts, hst⟩ := hrecord r hr
        exact ⟨hst.trans hcommitted, hepoch.symm, hts.symm⟩
      · obtain ⟨r, hr⟩ := isSome_iff_exists.mp hsome
        obtain ⟨hepoch, hts, hst⟩ := hrecord r hr
        exact .inl ⟨r, hr, hst.trans hstaging, hepoch.symm, hts.symm⟩
    · exact .inl (hext.dead (.inr hb) (hold b hb).1)
  · intro b hb r hr hactive
    obtain ⟨hepoch, hts, hst⟩ := hrecord r hr
    rw [hepoch, hts]
    have hpending : r.status ≠ .pending := by
      rw [hst]
      rcases hends.status with ⟨-, hcommitted⟩ | ⟨-, hstaging, -, -⟩
      · rw [hcommitted]
        simp
      · rw [hstaging]
        simp
    rcases mem_cons.mp hb with rfl | hb
    · exact ⟨le_refl _, .refl _, fun hst' => absurd hst' hpending⟩
    · exact ⟨(hold b hb).2.1, (hold b hb).2.2, fun hst' => absurd hst' hpending⟩

end Commit

section Keep

variable {x : TxnIdentity} {s s' : CommitState}

theorem Recorded.keep (h : s.Recorded x) (hext : s.Extends s'.toCoordinator)
    (hrecords : s'.records = s.records)
    (hanswers : s'.answers = s.answers) (hstaged : s'.staged = s.staged) : s'.Recorded x := by
  have hfinal : s'.Finalized ↔ s.Finalized := by
    unfold Finalized
    rw [hanswers]
  have hcommitted : s'.Committed ↔ s.Committed := by
    unfold Committed
    rw [hanswers]
  constructor
  · rw [hrecords]
    exact h.sound
  · rw [hrecords]
    exact fun r hr => (h.epoch r hr).trans hext.epoch
  · rw [hrecords, hanswers]
    exact fun t ht => ⟨(h.answers t ht).1.trans hext.epoch, (h.answers t ht).2⟩
  · rw [hrecords, hstaged, hfinal]
    exact h.tombstoned
  · rw [hrecords, hfinal]
    exact h.finalized
  · rw [hrecords, hstaged]
    exact h.staging
  · rw [hrecords, hstaged, hcommitted]
    exact fun a ha => (h.live a ha).imp_left (hext.dead (.inr ha))
  · rw [hrecords, hstaged]
    exact h.bound

theorem Recorded.gc (h : s.Recorded x) (hv : s.Valid x .gc) : (s.step .gc).Recorded x := by
  obtain ⟨hvalid, -⟩ := hv
  have hkeeps := eventKeeps h.sound hvalid
  obtain ⟨r, hr, hfinal⟩ := hvalid
  have hnone : (s.step .gc).records.record = none := rfl
  constructor
  · exact hkeeps.sound
  · rintro _ ⟨⟩
  · exact fun t ht => ⟨(h.answers t ht).1,
      fun hactive => hkeeps.pushKept _ ((h.answers t ht).2 hactive)⟩
  · exact h.tombstoned
  · rintro _ _ ⟨⟩
  · rintro _ ⟨⟩
  · intro a ha
    rcases h.live a ha with hdead | ⟨r', hr', hstages⟩ | ⟨hcommitted, -⟩
    · exact .inl hdead
    · obtain rfl := some.inj (hr.symm.trans hr')
      rw [hstages.status] at hfinal
      cases hfinal
    · refine .inr (.inr ⟨hcommitted, ?_⟩)
      rintro _ ⟨⟩
  · rintro _ _ _ ⟨⟩

theorem Explains.mono {l : TxnWrite} {m : TxnMeta} (h : s.Explains l m)
    (hanswers : ∀ t ∈ s.answers, t ∈ s'.answers) : s'.Explains l m := by
  refine ⟨h.1, h.2.imp_right ?_⟩
  rintro ⟨t, ht, hrest⟩
  exact ⟨t, hanswers t ht, hrest⟩

theorem Located.keep (h : s.Located x) (hseen : s'.seen = s.seen)
    (happlied : s'.applied = s.applied) (hanswers : ∀ t ∈ s.answers, t ∈ s'.answers)
    (hintents : s'.intents = s.intents ∨ (∀ key, s'.intents key = none) ∧ s'.Finalized) :
    s'.Located x := by
  constructor
  · rw [hseen, happlied]
    intro m hm
    obtain ⟨l, hl, hexplains⟩ := h.seen m hm
    exact ⟨l, hl, hexplains.mono hanswers⟩
  · intro key m hm
    rcases hintents with heq | ⟨hnone, -⟩
    · rw [heq] at hm
      obtain ⟨hx, l, hl, hexplains, hrest⟩ := h.intents key m hm
      rw [happlied]
      exact ⟨hx, l, hl, hexplains.mono hanswers, hrest⟩
    · rw [hnone key] at hm
      cases hm
  · intro hactive l hl
    rcases hintents with heq | ⟨-, hfinal⟩
    · rw [heq]
      rw [happlied] at hl
      have hbefore : ¬ s.Finalized := by
        rintro ⟨t, ht, hfinal⟩
        exact hactive ⟨t, hanswers t ht, hfinal⟩
      refine (h.present hbefore l hl).imp_left ?_
      rintro ⟨t, ht, hlt⟩
      exact ⟨t, hanswers t ht, hlt⟩
    · exact absurd hfinal hactive

theorem intentsAfter_cases (s : CommitState) (c : Command) (record : Option TransactionRecord) :
    s.intentsAfter c record = s.intents ∨ ∀ key, s.intentsAfter c record key = none := by
  unfold intentsAfter
  split
  · exact .inr fun _ => rfl
  · exact .inl rfl

theorem Probes.keep {a : Attempt} {r : Recovery} (h : s.Probes x a r)
    (hext : s.Extends s'.toCoordinator)
    (hstaged : ∀ b ∈ s.staged, b ∈ s'.staged) (hfinal : s.Finalized → s'.Finalized) :
    s'.Probes x a r where
  staged := hstaged a h.staged
  is := h.is
  epoch := h.epoch
  ts := h.ts
  queries := h.queries
  found := fun w hw => (h.found w hw).imp_right (Or.imp_right (Or.imp_right hext.landed))
  prevented := fun hprevented => (h.prevented hprevented).imp (hext.dead (.inr h.staged)) hfinal

end Keep

section Intents

variable {x : TxnIdentity} {s : CommitState}

theorem Located.land (h : s.Located x) {w : TxnWrite} {intent : TxnMeta}
    (hv : s.Valid x (.land w intent)) : (s.step (.land w intent)).Located x := by
  have hnew : (s.step (.land w intent)).Explains { w with ts := intent.writeTimestamp } intent :=
    ⟨hv.epoch.symm, .inl (.refl _)⟩
  constructor
  · intro m hm
    rcases mem_cons.mp hm with rfl | hm
    · exact ⟨_, mem_cons_self, hnew⟩
    · obtain ⟨l, hl, hexplains⟩ := h.seen m hm
      exact ⟨l, mem_cons_of_mem _ hl, hexplains.mono fun _ => id⟩
  · intro key m hm
    change update s.intents w.key (some intent) key = some m at hm
    by_cases hkey : key = w.key
    · rw [hkey, update_self] at hm
      obtain rfl := some.inj hm
      exact ⟨hv.is, _, mem_cons_self, hnew, hkey.symm, hv.sequence.symm, .refl _⟩
    · rw [update_of_ne hkey] at hm
      obtain ⟨hx, l, hl, hexplains, hrest⟩ := h.intents key m hm
      exact ⟨hx, l, mem_cons_of_mem _ hl, hexplains.mono fun _ => id, hrest⟩
  · intro hactive l hl
    change _ ∨ ∃ m ∈ update s.intents w.key (some intent) l.key, _
    rcases mem_cons.mp hl with rfl | hl
    · refine .inr ⟨intent, ?_, .inr ⟨hv.epoch.symm, hv.sequence.ge⟩⟩
      exact update_self _ _ _
    · refine (h.present hactive l hl).imp_right ?_
      rintro ⟨m, hm, hlast⟩
      by_cases hkey : l.key = w.key
      · rw [hkey] at hm
        refine ⟨intent, by rw [hkey, update_self]; rfl, ?_⟩
        have hle := (hv.replaces m hm).1
        rw [hv.epoch, hv.sequence]
        rcases lt_or_eq_of_le ((hlast.elim le_of_lt fun heq => heq.1.le).trans hle) with hlt | heq
        · exact .inl hlt
        · exact .inr ⟨heq, (hv.ascends l hl hkey heq).1.le⟩
      · exact ⟨m, by rwa [update_of_ne hkey], hlast⟩

theorem Located.setIntent (h : s.Located x) {key : Bytes} {intent : Option TxnMeta}
    (hintent : ∀ m' ∈ intent, ∃ m ∈ s.intents key, x.Is m' ∧ m'.epoch = m.epoch ∧
      m'.sequence = m.sequence ∧ m.writeTimestamp.LessEq m'.writeTimestamp ∧
      ∀ l, s.Explains l m → s.Explains l m')
    (hpresent : ¬ s.Finalized → ∀ m ∈ s.intents key, (∃ t ∈ s.answers, m.epoch < t.epoch) ∨
      ∃ m' ∈ intent, m'.epoch = m.epoch ∧ m'.sequence = m.sequence) :
    (s.setIntent key intent).Located x := by
  constructor
  · intro m hm
    rcases mem_append.mp hm with hm | hm
    · obtain ⟨m₀, hm₀, -, -, -, -, hexplains⟩ := hintent m (mem_toList.mp hm)
      obtain ⟨-, l, hl, hl', -⟩ := h.intents key m₀ hm₀
      exact ⟨l, hl, hexplains l hl'⟩
    · exact h.seen m hm
  · intro k m hm
    change update s.intents key intent k = some m at hm
    by_cases hkey : k = key
    · rw [hkey, update_self] at hm
      obtain ⟨m₀, hm₀, hx, -, hseq, hle, hexplains⟩ := hintent m hm
      obtain ⟨-, l, hl, hl', hlkey, hlseq, hlle⟩ := h.intents key m₀ hm₀
      exact ⟨hx, l, hl, hexplains l hl', hlkey.trans hkey.symm, hlseq.trans hseq.symm,
        hlle.trans hle⟩
    · rw [update_of_ne hkey] at hm
      exact h.intents k m hm
  · intro hactive l hl
    change _ ∨ ∃ m ∈ update s.intents key intent l.key, _
    rcases h.present hactive l hl with hold | ⟨m, hm, hlast⟩
    · exact .inl hold
    by_cases hkey : l.key = key
    · rw [hkey] at hm ⊢
      rw [update_self]
      rcases hpresent hactive m hm with ⟨t, ht, hlt⟩ | ⟨m', hm', hepoch, hseq⟩
      · refine .inl ⟨t, ht, ?_⟩
        exact (hlast.elim le_of_lt fun heq => heq.1.le).trans_lt hlt
      · refine .inr ⟨m', hm', ?_⟩
        rw [hepoch, hseq]
        exact hlast
    · rw [update_of_ne hkey]
      exact .inr ⟨m, hm, hlast⟩

theorem Located.pushIntent (h : s.Located x) {key : Bytes} {txn : Roachpb.Transaction}
    (hv : s.Valid x (.pushIntent key txn)) : (s.step (.pushIntent key txn)).Located x := by
  obtain ⟨hanswer, hactive⟩ := hv
  refine h.setIntent ?_ ?_
  · intro m' hm'
    obtain ⟨m, hm, hpushed⟩ := bind_eq_some_iff.mp hm'
    unfold pushedIntent at hpushed
    split_ifs at hpushed
    obtain rfl := some.inj hpushed
    refine ⟨m, hm, (h.intents key m hm).1, rfl, rfl, .forward_left _ _, ?_⟩
    rintro l ⟨hepoch, hwhy⟩
    refine ⟨hepoch, ?_⟩
    rcases le_total txn.writeTimestamp.ticks m.writeTimestamp.ticks with hle | hle
    · -- The intent is already there.
      have hsame : (m.writeTimestamp.forward txn.writeTimestamp).LessEq m.writeTimestamp := by
        rw [Timestamp.lessEq_iff, Timestamp.ticks_forward, max_eq_left hle]
      refine hwhy.imp hsame.trans ?_
      rintro ⟨t, ht, hta, hto⟩
      exact ⟨t, ht, hta, hsame.trans hto⟩
    · refine .inr ⟨txn, hanswer, hactive, ?_⟩
      rw [Timestamp.lessEq_iff]
      rw [Timestamp.ticks_forward, max_eq_right hle]
  · intro _ m hm
    by_cases hlt : m.epoch < txn.epoch
    · exact .inl ⟨txn, hanswer, hlt⟩
    · refine .inr ⟨{ m with
        writeTimestamp := m.writeTimestamp.forward txn.writeTimestamp }, ?_, rfl, rfl⟩
      refine bind_eq_some_iff.mpr ⟨m, hm, ?_⟩
      unfold pushedIntent
      rw [if_neg hlt]

theorem Located.resolveIntent (h : s.Located x) {key : Bytes}
    (hv : s.Valid x (.resolveIntent key)) : (s.step (.resolveIntent key)).Located x := by
  refine h.setIntent ?_ fun hactive => absurd hv hactive
  rintro _ ⟨⟩

end Intents

end CommitState

end Cockroach.KvServer
