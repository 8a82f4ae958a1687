import Cockroach.KvServer.TxnPositions

/-! Aborts and pushes of a transaction bind every later commit. -/
namespace Cockroach.KvServer
open ByteOrder Hlc Storage Roachpb List Option
open RecordState (answer step)

/-- The cache rules out that the transaction creates its record. -/
def Tombstoned (x : TxnIdentity) (cache : List CacheEntry) : Prop :=
  ∃ e ∈ cache, e.marker = .tombstone ∧ e.key = x.key ∧ e.id = x.id ∧ x.minTimestamp.LessEq e.ts

/-- The cache forces a record that is created later to `pushTo` or above. -/
def PushMarked (x : TxnIdentity) (cache : List CacheEntry) (pushTo : Timestamp) : Prop :=
  ∃ e ∈ cache, e.marker = .push ∧ e.key = x.key ∧ e.id = x.id ∧ pushTo.LessEq e.ts

/-- The transaction stays aborted. -/
def AbortKept (x : TxnIdentity) (s : RecordState) : Prop :=
  Tombstoned x s.cache ∧ ∀ r ∈ s.record, r.status = .aborted

/-- The transaction stays pushed, or aborted. -/
def PushKept (x : TxnIdentity) (s : RecordState) (pushTo : Timestamp) : Prop :=
  (∀ r ∈ s.record, r.status = .aborted ∨ pushTo.LessEq r.writeTimestamp) ∧
    (s.record = none → Tombstoned x s.cache ∨ PushMarked x s.cache pushTo)

/-- The record is one of the transaction, and its creation has left a tombstone. -/
def RecordState.Sound (x : TxnIdentity) (s : RecordState) : Prop :=
  (∀ r ∈ s.record, x.Is r.toTxnMeta) ∧ (s.record.isSome → Tombstoned x s.cache)

section Marks

variable {ec : EvalContext} {x : TxnIdentity} {s : RecordState} {pushTo commitTS : Timestamp}
  {record : Option TransactionRecord} {cache added : List CacheEntry}

theorem Tombstoned.append (h : Tombstoned x cache) : Tombstoned x (added ++ cache) := by
  obtain ⟨e, he, hmark⟩ := h
  exact ⟨e, mem_append_right _ he, hmark⟩

theorem PushMarked.append (h : PushMarked x cache pushTo) :
    PushMarked x (added ++ cache) pushTo := by
  obtain ⟨e, he, hmark⟩ := h
  exact ⟨e, mem_append_right _ he, hmark⟩

theorem AbortKept.pushKept (h : AbortKept x s) : PushKept x s pushTo :=
  ⟨fun r hr => .inl (h.2 r hr), fun _ => .inl h.1⟩

theorem canCreateTxnRecord_marks {minCommitTS : Timestamp}
    (hcache : CacheAnswers x cache ec.markers)
    (hok : ec.canCreateTxnRecord x.id x.minTimestamp = .ok minCommitTS) :
    ¬ Tombstoned x cache ∧ ∀ pushTo, PushMarked x cache pushTo → pushTo.LessEq minCommitTS := by
  unfold EvalContext.canCreateTxnRecord at hok
  by_cases hle : x.minTimestamp.LessEq ec.markers.tombstone
  · split_ifs at hok
  rw [if_neg hle] at hok
  obtain rfl := Except.ok.inj hok
  constructor
  · rintro ⟨e, he, hmarker, hkey, hid, hmin⟩
    have hanswer := hcache e he hkey hid
    rw [hmarker] at hanswer
    exact hle (hmin.trans hanswer)
  · rintro pushTo ⟨e, he, hmarker, hkey, hid, hto⟩
    have hanswer := hcache e he hkey hid
    rw [hmarker] at hanswer
    exact hto.trans hanswer

theorem CommitAllowed.not_abortKept (hcache : CacheAnswers x s.cache ec.markers)
    (h : CommitAllowed ec x s.record commitTS) : ¬ AbortKept x s := by
  rintro ⟨htomb, haborted⟩
  rcases h with ⟨-, minCommitTS, hok, -⟩ | ⟨r, hr, hstatus, -⟩
  · exact (canCreateTxnRecord_marks hcache hok).1 htomb
  · exact hstatus (haborted r hr)

theorem CommitAllowed.pushTo_le (hcache : CacheAnswers x s.cache ec.markers)
    (h : CommitAllowed ec x s.record commitTS) (hpush : PushKept x s pushTo) :
    pushTo.LessEq commitTS := by
  rcases h with ⟨hnone, minCommitTS, hok, hle⟩ | ⟨r, hr, hstatus, hle⟩
  · obtain ⟨hno, hmarks⟩ := canCreateTxnRecord_marks hcache hok
    have hmarked := (hpush.2 hnone).resolve_left hno
    exact (hmarks pushTo hmarked).trans hle
  · exact ((hpush.1 r hr).resolve_left hstatus).trans hle

section

variable (h : Evolves ec x s.record record)
include h

theorem Evolves.is (hs : s.Sound x) : ∀ r ∈ record, x.Is r.toTxnMeta := by
  intro r' hr'
  generalize hbefore : s.record = before at h
  cases h with
  | same => exact hs.1 r' (hbefore.trans hr')
  | create _ hx _ | rollback hx _ | forward _ hx _ | abortAgain _ _ hx =>
    obtain rfl := some.inj hr'
    exact hx
  | remove => cases hr'

theorem Evolves.keepsFinalized :
    ∀ r ∈ s.record, r.status.isFinalized = true → ∀ r' ∈ record, r'.status = r.status := by
  intro r hr hfinal r' hr'
  generalize s.record = before at h hr
  cases h with
  | same =>
    obtain rfl := some.inj (hr.symm.trans hr')
    rfl
  | create | rollback => cases hr
  | forward hactive _ _ =>
    obtain rfl := some.inj hr
    rw [hactive] at hfinal
    cases hfinal
  | abortAgain haborted haborted' _ =>
    obtain rfl := some.inj hr
    obtain rfl := some.inj hr'
    exact haborted'.trans haborted.symm
  | remove => cases hr'

theorem Evolves.abortKept (hcache : CacheAnswers x s.cache ec.markers) (habort : AbortKept x s) :
    AbortKept x ⟨record, added ++ s.cache⟩ := by
  refine ⟨habort.1.append, ?_⟩
  intro r' hr'
  have haborted := habort.2
  generalize s.record = before at h haborted
  cases h with
  | same => exact haborted r' hr'
  | create hok _ _ => exact absurd habort.1 (canCreateTxnRecord_marks hcache hok).1
  | rollback _ hstatus | abortAgain _ hstatus _ =>
    obtain rfl := some.inj hr'
    exact hstatus
  | forward hactive _ _ =>
    rw [haborted _ rfl] at hactive
    cases hactive
  | remove => cases hr'

theorem Evolves.pushKept (hs : s.Sound x)
    (hcache : CacheAnswers x s.cache ec.markers) (hpush : PushKept x s pushTo) :
    PushKept x ⟨record, added ++ s.cache⟩ pushTo := by
  obtain ⟨hrecord, hnone⟩ := hpush
  have hmarked := hs.2
  unfold PushKept
  generalize s.record = before at h hrecord hnone hmarked
  have hnone' : before = none → Tombstoned x (added ++ s.cache) ∨
      PushMarked x (added ++ s.cache) pushTo := fun hb =>
    (hnone hb).imp Tombstoned.append PushMarked.append
  cases h with
  | same => exact ⟨hrecord, hnone'⟩
  | @create r minCommitTS hok _ hle =>
    obtain ⟨hno, hmarks⟩ := canCreateTxnRecord_marks hcache hok
    have hto := hmarks pushTo ((hnone rfl).resolve_left hno)
    refine ⟨?_, by simp⟩
    rintro _ ⟨⟩
    exact .inr (hto.trans hle)
  | rollback _ hstatus | abortAgain _ hstatus _ =>
    refine ⟨?_, by simp⟩
    rintro _ ⟨⟩
    exact .inl hstatus
  | @forward r r' hactive _ hle =>
    refine ⟨?_, by simp⟩
    rintro _ ⟨⟩
    rcases hrecord r rfl with haborted | hto
    · rw [haborted] at hactive
      cases hactive
    · exact .inr (hto.trans hle)
  | remove => exact ⟨by simp, fun _ => .inl (hmarked rfl).append⟩

end

end Marks

/-- What one event does to the marks of a transaction. -/
structure EventKeeps (x : TxnIdentity) (s : RecordState) (e : Event) : Prop where
  sound : (s.step e).Sound x
  keepsFinalized : (s.happened e).KeepsFinalized
  abortKept : AbortKept x s → AbortKept x (s.step e)
  pushKept : ∀ pushTo, PushKept x s pushTo → PushKept x (s.step e) pushTo
  aborts : (s.happened e).Aborts → AbortKept x (s.step e)
  pushes : ∀ pushTo, (s.happened e).PushesTo pushTo → PushKept x (s.step e) pushTo
  commits : ∀ commitTS, (s.happened e).CommitsAt commitTS →
    ¬ AbortKept x s ∧ ∀ pushTo, PushKept x s pushTo → pushTo.LessEq commitTS

section Events

variable {x : TxnIdentity} {s : RecordState} {ec : EvalContext} {responseTS : Timestamp}
  {c : Command} {o : Outcome}

variable (responseTS) in
theorem answer_of_eval (heval : c.eval ec s.record = .ok o) :
    s.answer (.command c ec responseTS) = some o.txn := by
  simp only [answer, heval]

variable (responseTS) in
theorem step_of_eval (heval : c.eval ec s.record = .ok o) : s.step (.command c ec responseTS) =
      ⟨o.record, c.cacheEntries responseTS o.txn ++ s.cache⟩ := by
  simp only [step, heval]

theorem happened_of_answer_none {e : Event} (h : s.answer e = none) :
    ¬ (s.happened e).Aborts ∧ (∀ pushTo, ¬ (s.happened e).PushesTo pushTo) ∧
      ∀ commitTS, ¬ (s.happened e).CommitsAt commitTS := by
  have hanswer : ∀ t, (s.happened e).answer ≠ some t := by
    intro t ht
    cases h.symm.trans ht
  refine ⟨?_, ?_, ?_⟩
  · rintro (⟨_, _, _, _, t, -, ht, -⟩ | ⟨_, _, _, _, t, -, ht, -⟩ | ⟨_, _, _, _, t, -, -, ht⟩) <;>
      exact hanswer t ht
  · rintro pushTo ⟨_, _, _, _, t, -, -, -, ht, -⟩
    exact hanswer t ht
  · rintro commitTS (⟨_, _, _, _, t, -, ht, -⟩ | ⟨_, _, _, _, t, -, ht, -⟩) <;> exact hanswer t ht

theorem eventKeeps_error {e : EvalError} (hs : s.Sound x) (heval : c.eval ec s.record = .error e) :
    EventKeeps x s (.command c ec responseTS) := by
  have hstep : s.step (.command c ec responseTS) = s := by
    simp only [step, heval]
  obtain ⟨ha, hp, hc⟩ := happened_of_answer_none (s := s) (e := .command c ec responseTS)
    (by simp only [answer, heval])
  refine ⟨by rwa [hstep], ?_, by rw [hstep]; exact id, by rw [hstep]; exact fun _ => id,
    fun h => absurd h ha, fun _ h => absurd h (hp _), fun _ h => absurd h (hc _)⟩
  intro r hr _ r' hr'
  change (s.step _).record = some r' at hr'
  rw [hstep] at hr'
  obtain rfl := some.inj (hr.symm.trans hr')
  rfl

theorem eventKeeps_gc (hs : s.Sound x) (hvalid : Event.gc.Valid x s) : EventKeeps x s .gc := by
  obtain ⟨r, hr, -⟩ := hvalid
  have htomb : Tombstoned x s.cache := hs.2 (by rw [hr]; rfl)
  obtain ⟨ha, hp, hc⟩ := happened_of_answer_none (s := s) (e := .gc) rfl
  refine ⟨⟨by simp [step], by simp [step]⟩, ?_, ?_, ?_,
    fun h => absurd h ha, fun _ h => absurd h (hp _), fun _ h => absurd h (hc _)⟩
  · rintro _ _ _ _ ⟨⟩
  · exact fun _ => ⟨htomb, by simp [step]⟩
  · exact fun _ _ => ⟨by simp [step], fun _ => .inl htomb⟩

theorem eventKeeps_of_evolves (hs : s.Sound x) (hcache : CacheAnswers x s.cache ec.markers)
    (heval : c.eval ec s.record = .ok o) (hevolves : Evolves ec x s.record o.record)
    (hmark : o.record.isSome → Tombstoned x (c.cacheEntries responseTS o.txn ++ s.cache))
    (haborts : (s.happened (.command c ec responseTS)).Aborts →
      AbortKept x ⟨o.record, c.cacheEntries responseTS o.txn ++ s.cache⟩)
    (hpushes : ∀ pushTo, (s.happened (.command c ec responseTS)).PushesTo pushTo →
      PushKept x ⟨o.record, c.cacheEntries responseTS o.txn ++ s.cache⟩ pushTo)
    (hcommits : ∀ commitTS, (s.happened (.command c ec responseTS)).CommitsAt commitTS →
      CommitAllowed ec x s.record commitTS) : EventKeeps x s (.command c ec responseTS) := by
  have hstep := step_of_eval responseTS heval
  refine ⟨?_, ?_, ?_, ?_, ?_, ?_, ?_⟩
  · rw [hstep]
    exact ⟨hevolves.is hs, hmark⟩
  · intro r hr hfinal r' hr'
    change (s.step _).record = some r' at hr'
    rw [hstep] at hr'
    exact hevolves.keepsFinalized r hr hfinal r' hr'
  · rw [hstep]
    exact hevolves.abortKept hcache
  · rw [hstep]
    exact fun _ => hevolves.pushKept hs hcache
  · rwa [hstep]
  · rwa [hstep]
  · intro commitTS hcommit
    have hallowed := hcommits commitTS hcommit
    exact ⟨hallowed.not_abortKept hcache, fun _ => hallowed.pushTo_le hcache⟩

variable {h : Header}

variable {t : Roachpb.Transaction}

theorem tombstoned_of_header {key : Bytes} {rest : List CacheEntry}
    (hts : x.minTimestamp.LessEq responseTS) (htxn : h.txn = some t) (hx : x.Is t.toTxnMeta)
    (hkey : key = t.key) :
    Tombstoned x (⟨.tombstone, key, (h.txn.map fun t => t.id).getD 0, responseTS,
      (h.txn.map fun t => t.id).getD 0⟩ :: rest) := by
  refine ⟨_, mem_cons_self, rfl, hkey.trans hx.2.1, ?_, hts⟩
  rw [htxn]
  exact hx.1

theorem header_is {c : Command} (hv : (Event.command c ec responseTS).Valid x s)
    (hsubject : c.subject? = h.txn.map fun t => t.toTxnMeta)
    (ht : h.txn = some t) : x.Is t.toTxnMeta := by
  refine hv.1 t.toTxnMeta ?_
  rw [hsubject, ht]
  rfl

theorem eventKeeps_heartbeatTxn {args : HeartbeatTxnRequest} (hs : s.Sound x)
    (hvalid : (Event.command (.heartbeatTxn h args) ec responseTS).Valid x s)
    (heval : (Command.heartbeatTxn h args).eval ec s.record = .ok o) :
    EventKeeps x s (.command (.heartbeatTxn h args) ec responseTS) := by
  have htxn : ∀ t ∈ h.txn, x.Is t.toTxnMeta := fun t ht => header_is hvalid rfl ht
  obtain ⟨-, hmin, hresponse, hcache⟩ := hvalid
  obtain ⟨hevolves, -, t, ht, hkey, -⟩ := heartbeatTxn_eq_ok hs.1 htxn heval
  refine eventKeeps_of_evolves hs hcache heval hevolves
    (fun _ => tombstoned_of_header (hmin.trans hresponse) ht (htxn t ht) hkey) ?_ ?_ ?_
  · rintro (⟨_, _, _, _, _, he, -⟩ | ⟨_, _, _, _, _, he, -⟩ | ⟨_, _, _, _, _, he, -⟩) <;> cases he
  · rintro pushTo ⟨_, _, _, _, _, he, -⟩
    cases he
  · rintro commitTS (⟨_, _, _, _, _, he, -⟩ | ⟨_, _, _, _, _, he, -⟩) <;> cases he

theorem eventKeeps_endTxn {args : EndTxnRequest} (hs : s.Sound x)
    (hvalid : (Event.command (.endTxn h args) ec responseTS).Valid x s)
    (heval : (Command.endTxn h args).eval ec s.record = .ok o) :
    EventKeeps x s (.command (.endTxn h args) ec responseTS) := by
  have htxn : ∀ t ∈ h.txn, x.Is t.toTxnMeta := fun t ht => header_is hvalid rfl ht
  obtain ⟨-, hmin, hresponse, hcache⟩ := hvalid
  have hends := endTxn_eq_ok hs.1 htxn heval
  obtain ⟨t, ht, hkey, -⟩ := endTxn_txnEnd hs.1 htxn heval
  have htomb : Tombstoned x ((Command.endTxn h args).cacheEntries responseTS o.txn ++ s.cache) :=
    tombstoned_of_header (hmin.trans hresponse) ht (htxn t ht) hkey
  refine eventKeeps_of_evolves hs hcache heval hends.evolves (fun _ => htomb) ?_ ?_ ?_
  · rintro (⟨_, _, _, _, _, he, -⟩ | ⟨_, _, _, _, _, he, -⟩ | ⟨_, args', _, _, _, he, hcommit, -⟩)
    · cases he
    · cases he
    · cases he
      exact ⟨htomb, (hends.aborts hcommit).2⟩
  · rintro pushTo ⟨_, _, _, _, _, he, -⟩
    cases he
  · rintro commitTS (⟨_, _, _, _, t', he, hanswer, hstatus, rfl⟩ | ⟨_, _, _, _, _, he, -⟩)
    · cases he
      obtain rfl := some.inj ((answer_of_eval responseTS heval).symm.trans hanswer)
      refine hends.commits ?_
      by_contra hcommit
      rw [(hends.aborts (Bool.eq_false_of_not_eq_true hcommit)).1] at hstatus
      rcases hstatus with hstatus | hstatus <;> cases hstatus
    · cases he

theorem eventKeeps_pushTxn {args : PushTxnRequest} (hs : s.Sound x)
    (hvalid : (Event.command (.pushTxn h args) ec responseTS).Valid x s)
    (heval : (Command.pushTxn h args).eval ec s.record = .ok o) :
    EventKeeps x s (.command (.pushTxn h args) ec responseTS) := by
  obtain ⟨hsubject, -, -, hcache⟩ := hvalid
  have hpush := (pushTxn_eq_ok hs.1 (hsubject args.pusheeTxn rfl) heval).1
  have habort : o.txn.status = .aborted →
      AbortKept x ⟨o.record, (Command.pushTxn h args).cacheEntries responseTS o.txn ++
        s.cache⟩ := by
    intro haborted
    refine ⟨⟨⟨.tombstone, args.key, o.txn.id, o.txn.minTimestamp, args.pusherTxn.id⟩, ?_, rfl,
      hpush.key, hpush.txn.1, ?_⟩, ?_⟩
    · simp [Command.cacheEntries, haborted]
    · rw [hpush.txn.2.2]
      exact .refl _
    · exact fun r hr => (hpush.keeps r hr).2.1.trans haborted
  refine eventKeeps_of_evolves hs hcache heval hpush.evolves ?_ ?_ ?_ ?_
  · intro hsome
    obtain ⟨r, hr⟩ := isSome_iff_exists.mp hsome
    exact (hs.2 (hpush.keeps r hr).1).append
  · rintro (⟨_, _, _, _, t, -, hanswer, hst⟩ | ⟨_, _, _, _, _, he, -⟩ | ⟨_, _, _, _, _, he, -⟩)
    · obtain rfl := some.inj ((answer_of_eval responseTS heval).symm.trans hanswer)
      exact habort hst
    · cases he
    · cases he
  · rintro pushTo ⟨_, args', _, _, t, he, htype, rfl, hanswer, hst⟩
    cases he
    obtain rfl := some.inj ((answer_of_eval responseTS heval).symm.trans hanswer)
    rcases hpush.pushes htype with haborted | hcommitted | hto
    · exact (habort haborted).pushKept
    · exact absurd hcommitted hst
    · refine ⟨?_, ?_⟩
      · intro r hr
        rw [(hpush.keeps r hr).2.2]
        exact .inr hto
      · intro hnone
        rcases hpush.unrecorded hnone with hpending | haborted
        · refine .inr ⟨⟨.push, args.key, o.txn.id, o.txn.writeTimestamp, args.pusherTxn.id⟩, ?_,
            rfl, hpush.key, hpush.txn.1, hto⟩
          simp [Command.cacheEntries, hpending]
        · exact .inl (habort haborted).1
  · rintro commitTS (⟨_, _, _, _, _, he, -⟩ | ⟨_, _, _, _, _, he, -⟩) <;> cases he

theorem eventKeeps_recoverTxn {args : RecoverTxnRequest} (hs : s.Sound x)
    (hvalid : (Event.command (.recoverTxn h args) ec responseTS).Valid x s)
    (heval : (Command.recoverTxn h args).eval ec s.record = .ok o) :
    EventKeeps x s (.command (.recoverTxn h args) ec responseTS) := by
  obtain ⟨hsubject, hmin, hresponse, hcache⟩ := hvalid
  have hrecover := (recoverTxn_eq_ok hs.1 (hsubject args.txn rfl) heval).1
  refine eventKeeps_of_evolves hs hcache heval hrecover.evolves ?_ ?_ ?_ ?_
  · intro hsome
    obtain ⟨r, hr⟩ := isSome_iff_exists.mp hsome
    exact (hs.2 (hrecover.keeps r hr).1).append
  · rintro (⟨_, _, _, _, _, he, -⟩ | ⟨_, _, _, _, t, -, hanswer, hst⟩ | ⟨_, _, _, _, _, he, -⟩)
    · cases he
    · obtain rfl := some.inj ((answer_of_eval responseTS heval).symm.trans hanswer)
      refine ⟨⟨⟨.tombstone, args.key, o.txn.id, responseTS, o.txn.id⟩, ?_, rfl, hrecover.key,
        hrecover.txn.1, hmin.trans hresponse⟩, ?_⟩
      · simp [Command.cacheEntries, hst, TransactionStatus.isFinalized]
      · exact fun r hr => (hrecover.keeps r hr).2.trans hst
    · cases he
  · rintro pushTo ⟨_, _, _, _, _, he, -⟩
    cases he
  · rintro commitTS (⟨_, _, _, _, _, he, -⟩ | ⟨_, _, _, _, t, -, hanswer, hst, rfl⟩)
    · cases he
    · obtain rfl := some.inj ((answer_of_eval responseTS heval).symm.trans hanswer)
      exact hrecover.commits hst

end Events

variable {x : TxnIdentity} {s : RecordState}

variable {e : Event} {past : List Happened}

theorem eventKeeps (hs : s.Sound x) (hvalid : e.Valid x s) : EventKeeps x s e := by
  cases e with
  | gc => exact eventKeeps_gc hs hvalid
  | command c ec responseTS =>
    cases heval : c.eval ec s.record with
    | error err => exact eventKeeps_error hs heval
    | ok o =>
      cases c with
      | heartbeatTxn h args => exact eventKeeps_heartbeatTxn hs hvalid heval
      | endTxn h args => exact eventKeeps_endTxn hs hvalid heval
      | pushTxn h args => exact eventKeeps_pushTxn hs hvalid heval
      | recoverTxn h args => exact eventKeeps_recoverTxn hs hvalid heval

/-- What a history leaves behind for its later events. -/
structure HistoryKeeps (x : TxnIdentity) (past : List Happened) (s : RecordState) : Prop where
  sound : s.Sound x
  aborted : ∀ a ∈ past, a.Aborts → AbortKept x s
  pushed : ∀ a ∈ past, ∀ pushTo, a.PushesTo pushTo → PushKept x s pushTo
  respects : past.Pairwise Happened.Respects
  keepsFinalized : ∀ a ∈ past, a.KeepsFinalized

theorem HistoryKeeps.step (h : HistoryKeeps x past s)
    (hvalid : e.Valid x s) : HistoryKeeps x (past ++ [s.happened e]) (s.step e) := by
  have hkeeps := eventKeeps h.sound hvalid
  refine ⟨hkeeps.sound, ?_, ?_, ?_, ?_⟩
  · intro a ha haborts
    rcases mem_append.mp ha with hpast | hlast
    · exact hkeeps.abortKept (h.aborted a hpast haborts)
    · obtain rfl := mem_singleton.mp hlast
      exact hkeeps.aborts haborts
  · intro a ha pushTo hpush
    rcases mem_append.mp ha with hpast | hlast
    · exact hkeeps.pushKept pushTo (h.pushed a hpast pushTo hpush)
    · obtain rfl := mem_singleton.mp hlast
      exact hkeeps.pushes pushTo hpush
  · rw [pairwise_append]
    refine ⟨h.respects, pairwise_singleton _ _, ?_⟩
    intro a ha b hb commitTS hcommit
    obtain rfl := mem_singleton.mp hb
    obtain ⟨hno, hle⟩ := hkeeps.commits commitTS hcommit
    exact ⟨fun haborts => hno (h.aborted a ha haborts),
      fun pushTo hpush => hle pushTo (h.pushed a ha pushTo hpush)⟩
  · intro a ha
    rcases mem_append.mp ha with hpast | hlast
    · exact h.keepsFinalized a hpast
    · obtain rfl := mem_singleton.mp hlast
      exact hkeeps.keepsFinalized

theorem TxnHistory.keeps (h : TxnHistory x past s) : HistoryKeeps x past s := by
  induction h with
  | start => exact ⟨⟨by simp, by simp⟩, by simp, by simp, .nil, by simp⟩
  | step e _ hvalid ih => exact ih.step hvalid

/-- An aborted transaction does not commit, a pushed one does not commit below the push, and a
finalized record keeps its status. -/
theorem txnHistory_respects_aborts_and_pushes {x : TxnIdentity} {past : List Happened}
    {s : RecordState} (h : TxnHistory x past s) :
    past.Pairwise Happened.Respects ∧ ∀ a ∈ past, a.KeepsFinalized :=
  ⟨h.keeps.respects, h.keeps.keepsFinalized⟩

/-- The status is kept with the record only. A rollback does not ask the cache, and once the record
is collected, be it of a commit, it is answered as the first one. -/
theorem rollback_of_collected {h : Header} {args : EndTxnRequest} {ec : EvalContext}
    {t : Roachpb.Transaction} {locks : List Span} (responseTS : Timestamp)
    (htxn : h.txn = some t) (hkey : args.key = t.key) (hpending : t.status = .pending)
    (hrollback : args.commit = false) (hrequire : args.require1PC = false)
    (hlocks : ec.resolveLocalLocks { t with status := .aborted } = .ok locks) :
    (s.step .gc).answer (.command (.endTxn h args) ec responseTS) =
      some { t with status := .aborted } := by
  have hverify : verifyTransaction h args.key [.pending, .staging, .aborted] = .ok t := by
    simp [verifyTransaction, htxn, hkey, hpending]
  have heval : endTxn ec h args none = finalizeTxn ec args { t with status := .aborted } := by
    simp only [endTxn, hverify, endTxnTarget, hrequire, hrollback, ok_bind, Bool.false_and,
      Bool.false_eq_true, if_false]
    simp [finishEndTxn, hrollback, hpending]
  simp [answer, step, Command.eval, heval, finalizeTxn, hlocks]

def early : Timestamp := .ofNanos 1

def late : Timestamp := .ofNanos 5

def writerMeta (ts : Timestamp) : TxnMeta := ⟨1, [97], 0, ts, early, 1, 0⟩

def writerIdentity : TxnIdentity := ⟨1, [97], early⟩

/-- A pusher forces a transaction without a record to `late`. -/
def pushToLate : Event :=
  .command (.pushTxn ⟨late, none⟩ ⟨[97], ⟨2, [98], 0, late, late, 1, 0⟩, writerMeta early, late,
    .timestamp, true⟩) ⟨late, ⟨.empty, .empty, 0⟩, .empty, true, true, fun _ => .ok [],
      fun _ => .ok ()⟩
    late

/-- The transaction commits, with a header that already was refreshed to `late`. -/
def commitAtLate : Event :=
  .command (.endTxn ⟨late,
    some ⟨⟨writerMeta late, late, []⟩, .pending, early, late, [], false, false,
    [], []⟩⟩ ⟨[97], true, false, false, none, false, [], []⟩)
    ⟨late, ⟨late, .empty, 0⟩, .empty, true, true, fun _ => .ok [], fun _ => .ok ()⟩ late

theorem txnHistory_push_then_commit : let s : RecordState := ⟨none, []⟩
    let past := [s.happened pushToLate, (s.step pushToLate).happened commitAtLate]
    (s.happened pushToLate).PushesTo late ∧
      ((s.step pushToLate).happened commitAtLate).CommitsAt late ∧
      past.Pairwise Happened.Respects ∧ ∀ a ∈ past, a.KeepsFinalized := by
  intro s past
  have hpush : pushToLate.Valid writerIdentity s := by
    refine ⟨?_, by decide, by decide, by simp [CacheAnswers, s]⟩
    rintro _ ⟨⟩
    exact ⟨rfl, rfl, rfl⟩
  have hcache : (s.step pushToLate).cache = [⟨.push, [97], 1, late, 2⟩] := by
    rfl
  have hcommit : commitAtLate.Valid writerIdentity (s.step pushToLate) := by
    refine ⟨?_, by decide, by decide, ?_⟩
    · rintro _ ⟨⟩
      exact ⟨rfl, rfl, rfl⟩
    · intro e he _ _
      obtain rfl := mem_singleton.mp he
      exact .refl late
  have hhistory : TxnHistory writerIdentity past ((s.step pushToLate).step commitAtLate) :=
    .step commitAtLate (.step pushToLate .start hpush) hcommit
  refine ⟨⟨_, _, _, _, _, rfl, rfl, rfl, rfl, by decide⟩, .inl ⟨_, _, _, _, _, rfl, rfl, ?_, rfl⟩,
    txnHistory_respects_aborts_and_pushes hhistory⟩
  exact .inr rfl

end Cockroach.KvServer
