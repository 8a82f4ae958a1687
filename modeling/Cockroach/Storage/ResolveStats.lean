import Cockroach.Storage.PutStats

/-! The statistics of a resolved intent are those of a new count of the keys. -/
namespace Cockroach.Storage
open ByteOrder Hlc Roachpb
open RankedList (clear clear_cons_self clear_of_lt put put_cons_self put_of_lt)

variable {marshal : MVCCMetadata → Bytes} {key : Bytes}

variable {s : KeyState} {ts : VersionTimestamp} {v : Bytes} {l : List (VersionTimestamp × Bytes)}

theorem versionAfter_eq (hversions : s.versions = (ts, v) :: l) :
    s.versionAfter ts.1 = l.head? := by
  have hself : ¬ engineRank ts.1 < versionRank ts := lt_irrefl _
  rw [KeyState.versionAfter, hversions, List.dropWhile_cons_of_neg (by simpa using hself)]
  rfl

variable {m : MVCCMetadata}

theorem keyStats_intent {id : BitVec 128} (hone : s.intents = [(id, m)])
    (hversions : s.versions = (ts, v) :: l) (nowNanos : ℤ) : keyStats marshal nowNanos key s =
      headStats nowNanos (key.length + 1) (marshal m).length m.deleted true m.timestamp.wallTime
        v.length + shadowedStats nowNanos m.timestamp.wallTime l := by
  rw [keyStats, hone, hversions]

theorem keyStats_committed (hnone : s.intents = []) (hversions : s.versions = (ts, v) :: l)
    (nowNanos : ℤ) : keyStats marshal nowNanos key s =
      headStats nowNanos (key.length + 1) 0 (v.length = 0) false ts.1.wallTime v.length +
        shadowedStats nowNanos ts.1.wallTime l := by
  rw [keyStats, hnone, hversions]

variable {t : TxnMeta} {intent : LockUpdate} {ms : MVCCStats}

variable {r : KeyState × Effects} {commit : Bool} {rolledBackVal : Option Bytes}

/-- An intent that goes leaves the version below as the newest. -/
theorem balanced_removeIntent (hs : Accounted s) (hone : s.intents = [(t.id, m)])
    (hmatch : IntentMatches s.versions m t v) (hhidden : ¬ HidesVersion s m.timestamp)
      (h : isSysLocal key = false) (hremove : WithStats.removeIntent s key intent m t m.timestamp
      ((MVCCKey.mk key .empty).encodedSize, (marshal m).length) ms = .ok r) :
    Balanced marshal key s r.1 ms r.2.ms := by
  obtain ⟨h0, l, hversions, hnewest⟩ := hmatch.versions_eq s.sorted
  have hmem : (t.id, m) ∈ s.intents := by simp [hone]
  obtain ⟨s', hs', rfl⟩ := map_eq_ok hremove
  obtain ⟨h0', hcleared, hintents, -⟩ := removeIntent_eq_ok hs'
  have hnone : s'.intents = [] := by
    simp [hintents, hone, clear]
  have hversions' : s'.versions = l := by
    have hrank : ∀ w ∈ l, versionRank w.1 < versionRank ⟨m.timestamp, h0'⟩ := by
      intro w hw
      exact versionRank_lt_of_less (hnewest w hw)
    rw [hcleared, hversions, clear_cons_self, clear_of_lt hrank]
  have hnext := nextVersion_eq hversions hnewest hhidden
  rw [hnext, KeyState.encodedSize_empty]
  refine ⟨_, rfl, ?_⟩
  intro nowNanos
  rw [keyStats_intent hone hversions, ← hmatch.valBytes_eq]
  cases l with
  | nil =>
    dsimp only [List.head?_nil]
    rw [asOf_updateStatsOnClear_none h (hs.keyBytes_eq _ hmem), keyStats, hversions']
    simp [hmatch.txn_eq, shadowedStats]
  | cons w l =>
    have hdel : ({ MVCCMetadata.zero with
        deleted := w.2.length = 0, keyBytes := KeyState.mvccVersionTimestampSize,
        valBytes := w.2.length } : MVCCMetadata).deleted = true ↔ ((w.2.length : ℕ) : ℤ) = 0 := by
      simp
    dsimp only [List.head?_cons]
    rw [asOf_updateStatsOnClear_some h (hs.keyBytes_eq _ hmem) rfl hdel,
      keyStats_committed hnone hversions', hmatch.txn_eq]
    dsimp only [shadowedStats, Option.isSome_some]
    abel

/-- The key after an intent has been updated: its version at the front, and its metadata unless it
is committed. -/
theorem updateIntent_versions {iter s' : KeyState} {w : Bytes} {h0 : ¬ m.timestamp.IsEmpty}
    (hseek : ∃ h, (⟨m.timestamp, h⟩, w) ∈ iter.versions)
    (hversions : s.versions = (⟨m.timestamp, h0⟩, v) :: l)
    (hnewest : ∀ u ∈ l, u.1.1.Less m.timestamp) (hvalue : rolledBackVal.getD w = v)
    (h : updateIntent iter s intent m t m.timestamp commit rolledBackVal = .ok s') :
    ∃ ts : VersionTimestamp, s'.versions = (ts, v) :: l ∧
      (m.timestamp.Less intent.txn.writeTimestamp ∧ ts.1 = (if rolledBackVal.isSome then
          intent.txn.writeTimestamp.forward m.timestamp else intent.txn.writeTimestamp) ∨
        ¬ m.timestamp.Less intent.txn.writeTimestamp ∧ ts.1 = m.timestamp) := by
  obtain ⟨ts, hts, -, -, hmoved | hkept⟩ := updateIntent_eq_ok hseek h
  · obtain ⟨hless, h0', hne, hversions'⟩ := hmoved
    refine ⟨⟨ts, hne⟩, ?_, .inl ⟨hless, hts⟩⟩
    have hticks := (Timestamp.less_iff _ _).mp hless
    rw [Timestamp.forward_of_gt hticks, ite_self] at hts
    have hrank : ∀ u ∈ l, versionRank u.1 < versionRank ⟨m.timestamp, h0'⟩ := by
      intro u hu
      exact versionRank_lt_of_less (hnewest u hu)
    have hfront : versionRank ⟨m.timestamp, h0⟩ < versionRank ⟨ts, hne⟩ := by
      refine versionRank_lt_of_less ?_
      rw [← hts] at hless
      exact hless
    have hput : put versionRank ⟨ts, hne⟩ v ((⟨m.timestamp, h0⟩, v) :: l) =
        (⟨ts, hne⟩, v) :: (⟨m.timestamp, h0⟩, v) :: l := by
      refine put_of_lt ?_ _
      intro u hu
      rcases List.mem_cons.mp hu with rfl | hu
      · exact hfront
      · exact (hrank u hu).trans hfront
    have hdiffer : (⟨ts, hne⟩ : VersionTimestamp) ≠ ⟨m.timestamp, h0'⟩ := by
      intro heq
      rw [heq] at hfront
      exact absurd hfront (lt_irrefl _)
    rw [hversions', hversions, hvalue, hput, clear, List.filter_cons_of_pos (by
      simpa using hdiffer)]
    refine congrArg _ ?_
    exact (clear_cons_self _ _ _).trans (clear_of_lt hrank)
  · exact ⟨⟨m.timestamp, h0⟩, hkept.2.trans hversions, .inr ⟨hkept.1, rfl⟩⟩

/-- An intent is updated with a value of the length it had. -/
theorem balanced_updateIntent {s₁ : KeyState} (hs : Accounted s) {m' : MVCCMetadata}
    {t' : TxnMeta} {v' : Bytes} (hone : s.intents = [(t.id, m)])
    (hmatch : IntentMatches s.versions m t v) (hmatch' : IntentMatches s₁.versions m' t' v')
    (hintents : s₁.intents = s.intents) (hid : t'.id = t.id)
    (htimestamp : m'.timestamp = m.timestamp) (hkey : m'.keyBytes = m.keyBytes)
    (hsize : v'.length = v.length) (htail : s₁.versions.tail = s.versions.tail)
    {pushed : Bool} (hvalue : rolledBackVal.getD v = v')
    (hplace : ¬ m.timestamp.Less intent.txn.writeTimestamp →
      (if rolledBackVal.isSome then intent.txn.writeTimestamp.forward m.timestamp
        else intent.txn.writeTimestamp).wallTime = m.timestamp.wallTime)
    (h : isSysLocal key = false)
    (hupdate : WithStats.updateIntent marshal s s₁ key intent m' t' m.timestamp commit pushed
      rolledBackVal ((MVCCKey.mk key .empty).encodedSize, (marshal m).length) ms = .ok r) :
    Balanced marshal key s r.1 ms r.2.ms := by
  obtain ⟨h0, l, hversions, -⟩ := hmatch.versions_eq s.sorted
  obtain ⟨h0', l', hversions', hnewest'⟩ := hmatch'.versions_eq s₁.sorted
  have hl : l' = l := by
    rw [hversions, hversions'] at htail
    exact htail
  subst hl
  have hmem : (t.id, m) ∈ s.intents := by simp [hone]
  have hdeleted : m'.deleted = m.deleted := by
    rw [Bool.eq_iff_iff, hmatch'.deleted_iff, hmatch.deleted_iff, hsize]
  obtain ⟨hstate, stats, ts, hts, hstats, heffects⟩ := WithStats.updateIntent_eq_ok hupdate
  rw [← htimestamp] at hstate
  have hseek : ∃ h, (⟨m'.timestamp, h⟩, v) ∈ s.versions := by
    rw [htimestamp]
    exact hmatch.version_mem
  obtain ⟨vts, hafter, hposition⟩ := updateIntent_versions hseek hversions' hnewest' hvalue hstate
  obtain ⟨ts', hts', -, hintents', -⟩ := updateIntent_eq_ok hseek hstate
  rw [htimestamp] at hposition hts'
  have hwall : vts.1.wallTime = ts.wallTime := by
    rcases hposition with ⟨-, hvts⟩ | ⟨hless, hvts⟩
    · rw [hvts, hts]
    · rw [hvts, hts, hplace hless]
  set newMeta : MVCCMetadata := { m' with
    timestamp := ts, txn := some { t' with writeTimestamp := ts } } with hnew
  set metaValSize : ℤ := if commit then 0 else (marshal newMeta).length with hmetaValSize
  set prevValSize : ℤ := if m.timestamp.Less intent.txn.writeTimestamp then
    valueSize (s.versionAfter m.timestamp) else 0 with hprev
  have hstats' : stats = replaceIntent prevValSize (key.length + 1) (marshal m).length
      (key.length + 1) metaValSize m' newMeta commit := by
    unfold updateStatsOnResolve at hstats
    rw [h, if_neg (not_not.mpr rfl), KeyState.encodedSize_empty] at hstats
    exact (Option.some.inj hstats).symm
  have hnonneg : 0 ≤ prevValSize := by
    rw [hprev]
    split_ifs
    · exact valueSize_nonneg _
    · exact le_rfl
  -- The version below moves the time at which it is shadowed with the intent.
  have hshadow (nowNanos : ℤ) : shadowedStats nowNanos ts.wallTime l' -
      shadowedStats nowNanos m.timestamp.wallTime l' =
      olderStats nowNanos ts.wallTime 0 prevValSize -
        olderStats nowNanos m.timestamp.wallTime 0 prevValSize := by
    by_cases hless : m.timestamp.Less intent.txn.writeTimestamp
    · have hnext := versionAfter_eq hversions
      rw [hprev, if_pos hless, hnext]
      exact shadowedStats_sub _ _ 0 l'
    · have hsame := hplace hless
      rw [← hts] at hsame
      rw [hsame, sub_self, sub_self]
  have hcount (nowNanos : ℤ) : keyStats marshal nowNanos key r.1 =
      headStats nowNanos (key.length + 1) metaValSize m'.deleted (!commit) ts.wallTime v'.length +
        shadowedStats nowNanos ts.wallTime l' := by
    have hdel : decide (v'.length = 0) = m'.deleted := by
      rw [Bool.eq_iff_iff, decide_eq_true_eq, hmatch'.deleted_iff]
    rw [hintents, hone, ← hid] at hintents'
    cases commit with
    | true =>
      have hnone : r.1.intents = [] := by
        rw [hintents']
        simp [clear]
      rw [keyStats_committed hnone hafter, hwall, hdel]
      rfl
    | false =>
      have hone' : r.1.intents = [(t'.id, newMeta)] := by
        rw [hintents', hts', ← hts]
        exact put_cons_self _ _ _ _
      rw [keyStats_intent hone' hafter]
      rfl
  refine ⟨stats, by rw [heffects], ?_⟩
  intro nowNanos
  have horig : m'.keyBytes = KeyState.mvccVersionTimestampSize :=
    hkey.trans (hs.keyBytes_eq _ hmem)
  have hkey' : newMeta.keyBytes = KeyState.mvccVersionTimestampSize := horig
  have hval : m'.valBytes = newMeta.valBytes := rfl
  have hdel : m'.deleted = newMeta.deleted := rfl
  have hnanos : newMeta.timestamp.wallTime = ts.wallTime := rfl
  rw [hstats', asOf_replaceIntent hkey' horig hdel hval hnonneg 0, hcount,
    keyStats_intent hone hversions, htimestamp, ← hdeleted, ← hsize, ← hmatch'.valBytes_eq,
    ← hshadow, ← hdel, ← hval]
  abel

/-- A rollback restores a value of the length of the one it replaces. -/
def RollbackKeepsSize (s : KeyState) (intent : LockUpdate) : Prop :=
  ∀ i ∈ s.intents, ∀ t ∈ i.2.txn, i.1 = intent.txn.id → ∀ m' t' value,
    mvccMaybeRewriteIntentHistory intent.ignoredSeqNums i.2 t = .restored m' t' value →
    value.length = i.2.valBytes

/-- An intent that is removed hides no version. -/
def RemovalHidesNothing (s : KeyState) (intent : LockUpdate) : Prop :=
  ∀ i ∈ s.intents, ∀ t ∈ i.2.txn, i.1 = intent.txn.id → WithStats.Removes intent i.2 t →
    ¬ HidesVersion s i.2.timestamp

theorem wallTime_forward {ts w : Timestamp} (h : ¬ ts.Less w) :
    (w.forward ts).wallTime = ts.wallTime := by
  rw [Timestamp.less_iff, not_lt] at h
  rcases h.lt_or_eq with hlt | heq
  · rw [Timestamp.forward_of_lt hlt]
  · rw [Timestamp.forward_of_eq heq]
    exact ((Timestamp.eqOrdering_iff _ _).mpr heq).1

theorem balanced_mvccResolveWriteIntent (hs : Accounted s) (hsize : RollbackKeepsSize s intent)
    (hhidden : RemovalHidesNothing s intent) (h : isSysLocal key = false)
    {r : (KeyState × Effects) × Bool}
    (hresolve : WithStats.mvccResolveWriteIntent marshal s key intent ms = .ok r) :
    r = ((s, ⟨ms, []⟩), false) ∨ Balanced marshal key s r.1.1 ms r.1.2.ms := by
  rcases resolveWriteIntent_cases marshal key hs.wellFormed hresolve with hsame |
    ⟨m, t, v, hone, hmatch, hid, hcases⟩
  · exact .inl hsame
  right
  have hi : (t.id, m) ∈ s.intents := by simp [hone]
  have ht := hmatch.txn_eq
  rcases hcases with ⟨hremoves, hremove⟩ | ⟨hopen, hupdate⟩ |
    ⟨m', t', value, s₁, hrestored, hput, hmatch', hupdate⟩
  · exact balanced_removeIntent hs hone hmatch (hhidden _ hi t ht hid hremoves) h hremove
  · -- The intent moves up, or is committed where it is.
    refine balanced_updateIntent hs hone hmatch hmatch rfl rfl rfl rfl rfl rfl rfl ?_ h hupdate
    intro hless
    have hcommits : intent.commits t m.timestamp = true := by
      rcases hopen with hcommits | hpushed
      · exact hcommits
      · simp only [LockUpdate.pushes, Bool.and_eq_true, decide_eq_true_eq] at hpushed
        exact absurd hpushed.2 hless
    have hle : m.timestamp.LessEq intent.txn.writeTimestamp := (of_decide_eq_true hcommits).2.2
    rw [Timestamp.lessEq_iff] at hle
    rw [Timestamp.less_iff, not_lt] at hless
    exact ((Timestamp.eqOrdering_iff _ _).mpr (hless.antisymm hle)).1
  · -- An earlier value takes the place of the intent's.
    obtain ⟨before, e, -, rfl, rfl, rfl⟩ := rewrite_eq_restored hrestored
    obtain ⟨h0, hversions₁, hintents₁, -⟩ := putMVCC_eq_ok hput
    have htail : s₁.versions.tail = s.versions.tail := by
      obtain ⟨h0', l, hversions, -⟩ := hmatch.versions_eq s.sorted
      have hsame : (⟨m.timestamp, h0⟩ : VersionTimestamp) = ⟨m.timestamp, h0'⟩ := rfl
      rw [hversions₁, hversions]
      rw [put_cons_self]
      rfl
    have hlength : e.value.length = v.length := by
      rw [← hmatch.valBytes_eq]
      exact hsize _ hi t ht hid _ _ _ hrestored
    exact balanced_updateIntent hs hone hmatch hmatch' hintents₁ rfl rfl rfl hlength htail rfl
      wallTime_forward h hupdate

/-- A resolution that rolls back only to a value of the same length, and that removes no intent that
hides a version, adds to the statistics what a new count finds. -/
theorem resolve_countsAs {st : KeyStore} {hkey : key ≠ []} (hlocal : isSysLocal key = false)
    (hreach : Maintained marshal key (st.get key)) {intent : LockUpdate}
    (hflag : RollbackKeepsFlag (st.get key) intent) (hsize : RollbackKeepsSize (st.get key) intent)
    (hhidden : RemovalHidesNothing (st.get key) intent) {ms : MVCCStats}
    {r : (KeyState × Effects) × Bool}
    (h : WithStats.mvccResolveWriteIntent marshal (st.get key) key intent ms = .ok r) :
    r = ((st.get key, ⟨ms, []⟩), false) ∨
      ∃ delta, r.1.2.ms = ms.add delta ∧ CountsAs marshal st key hkey r.1.1 delta := by
  have hbefore := accounted_of_maintained hreach
  have hafter := accounted_mvccResolveWriteIntent hbefore hflag h
  rcases balanced_mvccResolveWriteIntent hbefore hsize hhidden hlocal h with hsame | hbalanced
  · exact .inl hsame
  · exact .inr (hbalanced.countsAs hlocal hbefore hafter)

/-- The sample transaction ends in a status, with some of its writes rolled back. -/
def writerUpdate (status : TransactionStatus) (ignored : List IgnoredSeqNumRange) : LockUpdate :=
  ⟨(writer false 2).toTxnMeta, status, ignored⟩

/-- The commit of the sample transaction after its first write. -/
theorem resolve_countsAs_onceWritten :
    ∃ r, WithStats.mvccResolveWriteIntent (fun _ => [0]) onceWritten [5]
        (writerUpdate .committed []) .zero = .ok r ∧ (r = ((onceWritten, ⟨.zero, []⟩), false) ∨
        ∃ delta, r.1.2.ms = MVCCStats.zero.add delta ∧
          CountsAs (fun _ => [0]) (.single [5] (by simp) onceWritten) [5] (by simp) r.1.1
            delta) := by
  have hok : (WithStats.mvccResolveWriteIntent (fun _ => [0]) onceWritten [5]
      (writerUpdate .committed []) .zero).isOk = true := by decide +kernel
  have hbelow : ∀ i ∈ onceWritten.intents, ∀ w ∈ onceWritten.versions,
      w.1.1.ticks + 1 ≠ i.2.timestamp.ticks := by decide +kernel
  cases hr : WithStats.mvccResolveWriteIntent (fun _ => [0]) onceWritten [5]
      (writerUpdate .committed []) .zero with
  | error e =>
    rw [hr] at hok
    cases hok
  | ok r =>
    refine ⟨r, rfl, ?_⟩
    refine @resolve_countsAs (fun _ => [0]) [5] (.single [5] (by simp) onceWritten) (by simp) rfl
      onceWritten_maintained _ ?_ ?_ ?_ _ _ hr
    · intro i _ t _ _ hignored
      cases hignored
    · intro i _ t _ _ m' t' value hrestored
      cases hrestored
    · rintro i hi t _ _ _ ⟨-, w, hw, hticks, -⟩
      exact hbelow i hi w hw hticks

/-- What the second write of the sample transaction leaves, with a longer value. -/
def rewritten : KeyState :=
  (Call.put (writer false 2).readTimestamp [7, 7] (some (writer false 2))).apply (fun _ => [0]) [5]
    onceWritten

theorem rewritten_maintained : Maintained (fun _ => [0]) [5] rewritten := by
  have hintents : ∀ i ∈ onceWritten.intents, i.2.timestamp = (writer false 2).writeTimestamp := by
    decide +kernel
  refine .call _ onceWritten_maintained ⟨by simp, (writerPut_valid false 2).2⟩ ?_
  rintro t ⟨⟩ i hi _ _ _ _ _
  rw [hintents i hi]

/-- The bytes of the values that a count of the sample store finds. -/
def countedValBytes (s : KeyState) : Option ℤ :=
  (computeStatsForRange (fun _ => [0]) (KeyStore.single [5] sampleKey_ne_nil s).entries [5] [6]
    0).toOption.map MVCCStats.valBytes

/-- A rollback of the second write brings back a shorter value, and the statistics keep the size of
the longer one. -/
theorem resolve_valBytes_rewritten : Maintained (fun _ => [0]) [5] rewritten ∧
      RollbackKeepsFlag rewritten (writerUpdate .pending [⟨2, 2⟩]) ∧
      (WithStats.mvccResolveWriteIntent (fun _ => [0]) rewritten [5]
        (writerUpdate .pending [⟨2, 2⟩]) .zero).toOption.map
          (fun r => (r.1.2.ms.valBytes, countedValBytes r.1.1)) = some (0, some 2) ∧
      countedValBytes rewritten = some 3 := by
  have hreal : ∀ i ∈ rewritten.intents, i.2.timestamp.synthetic = false := by decide +kernel
  refine ⟨rewritten_maintained, ?_, ?_, ?_⟩
  · intro i hi t _ _ _ _ _ _ hsynthetic
    rw [hreal i hi] at hsynthetic
    cases hsynthetic
  · decide +kernel
  · decide +kernel

end Cockroach.Storage
