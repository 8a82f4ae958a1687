import Cockroach.Storage.StatsInvariant

/-! The statistics of a write are those of a new count of the keys. -/
namespace Cockroach.Storage
open ByteOrder Hlc List
open RankedList (put put_cons_self put_of_lt)

variable {marshal : MVCCMetadata → Bytes} {key : Bytes}

theorem KeyState.encodedSize_empty (key : Bytes) :
    ((MVCCKey.mk key .empty).encodedSize : ℤ) = key.length + 1 := by
  have hempty : Timestamp.empty.IsEmpty := rfl
  simp [MVCCKey.encodedSize, hempty]

/-- A synthetic version lies one tick below a timestamp that is not synthetic. A search for the
version below the timestamp misses it. -/
def HidesVersion (s : KeyState) (ts : Timestamp) : Prop :=
  ts.synthetic = false ∧ ∃ w ∈ s.versions, w.1.1.ticks + 1 = ts.ticks ∧ w.1.1.synthetic = true

variable {s : KeyState} {v : Bytes} {l : List (VersionTimestamp × Bytes)}

/-- The version below that of an intent is found unless it is hidden. -/
theorem nextVersion_eq {ts : VersionTimestamp} (hversions : s.versions = (ts, v) :: l)
    (hnewest : ∀ w ∈ l, w.1.1.Less ts.1) (hhidden : ¬ HidesVersion s ts.1) :
    s.nextVersion ts.1 = l.head? := by
  have hbelow : ∀ w ∈ l, w.1.1.ticks < ts.1.ticks := by
    intro w hw
    exact (Timestamp.less_iff _ _).mp (hnewest w hw)
  have hflag : ∀ w ∈ l, w.1.1.ticks + 1 = ts.1.ticks → w.1.1.synthetic = true →
      ts.1.synthetic = true := by
    intro w hw hticks hsyn
    by_contra hts
    exact hhidden ⟨by simpa using hts, w, by simp [hversions, hw], hticks, hsyn⟩
  unfold KeyState.nextVersion
  cases hprev : ts.1.prev with
  | none =>
    cases l with
    | nil => rfl
    | cons w l =>
      have hpos : 0 < ts.1.ticks := (Nat.zero_le _).trans_lt (hbelow w mem_cons_self)
      obtain ⟨t, ht⟩ := Timestamp.exists_prev hpos
      rw [ht] at hprev
      cases hprev
  | some next =>
    obtain ⟨hticks, hsyn⟩ := Timestamp.prev_eq_some hprev
    dsimp only
    split_ifs with hempty
    · obtain ⟨hzero, hreal⟩ := (Timestamp.isEmpty_iff next).mp hempty
      cases l with
      | nil => rfl
      | cons w l =>
        have hw := hbelow w mem_cons_self
        have hw0 : w.1.1.ticks = 0 := by omega
        have hwsyn : w.1.1.synthetic = true := by
          by_contra hfalse
          exact w.1.2 ((Timestamp.isEmpty_iff _).mpr ⟨hw0, by simpa using hfalse⟩)
        have hts := hflag w mem_cons_self (by omega) hwsyn
        rw [← hsyn, hreal] at hts
        cases hts
    · have hhead : ¬ versionRank ts ≤ engineRank next := by
        change ¬ 2 * ts.1.ticks + ts.1.synthetic.toNat ≤ 2 * next.ticks + next.synthetic.toNat
        rw [hsyn]
        omega
      rw [KeyState.seekVersion, hversions, find?_cons_of_neg (by simpa using hhead)]
      cases l with
      | nil => rfl
      | cons w l =>
        have hw := hbelow w mem_cons_self
        have hrank : versionRank w.1 ≤ engineRank next := by
          change 2 * w.1.1.ticks + w.1.1.synthetic.toNat ≤ 2 * next.ticks + next.synthetic.toNat
          rw [hsyn]
          have hbit := Bool.toNat_le w.1.1.synthetic
          rcases Nat.lt_or_ge (w.1.1.ticks + 1) ts.1.ticks with hlt | hge
          · omega
          · cases hwsyn : w.1.1.synthetic with
            | false => simp only [Bool.toNat_false]; omega
            | true =>
              rw [hflag w mem_cons_self (by omega) hwsyn]
              omega
        rw [find?_cons_of_pos (by simpa using hrank)]
        rfl

def writtenIntents (txn : Option Transaction) (p : PendingWrite) :
    List (BitVec 128 × MVCCMetadata) :=
  match txn with
  | none => p.state.intents
  | some t => put lockRank t.id (newIntent t p) p.state.intents

/-- The size of the metadata that a write stores. -/
def writtenMetaValSize (marshal : MVCCMetadata → Bytes) (txn : Option Transaction)
    (p : PendingWrite) : ℤ :=
  if txn.isSome then (marshal (newMetadata txn p)).length else 0

variable {txn : Option Transaction} {p : PendingWrite} {logicalOp : MVCCLogicalOpType}
  {ms : MVCCStats} {r : PutResult × Effects}

theorem WithStats.finishWrite_eq_ok {orig : Original}
    (h : WithStats.finishWrite marshal key txn p orig logicalOp ms = .ok r) :
    (∃ hts, r.1.state.versions =
        put versionRank ⟨p.writeTimestamp, hts⟩ (p.value.getD []) p.state.versions) ∧
      r.1.state.intents = writtenIntents txn p ∧
      r.2.ms = ms.add (updateStatsOnPut key orig.prevValSize orig.metaKeySize orig.metaValSize
        (key.length + 1) (writtenMetaValSize marshal txn p) orig.m (newMetadata txn p)) := by
  obtain ⟨r', hr', rfl⟩ := map_eq_ok h
  obtain ⟨s', hs', rfl⟩ := map_eq_ok hr'
  obtain ⟨hts, hversions, hintents, -⟩ := putMVCC_eq_ok hs'
  refine ⟨⟨hts, ?_⟩, ?_, rfl⟩
  · rw [hversions]
    cases txn <;> rfl
  · rw [hintents]
    cases txn <;> rfl

theorem newMetadata_keyBytes (txn : Option Transaction) (p : PendingWrite) :
    (newMetadata txn p).keyBytes = KeyState.mvccVersionTimestampSize := by
  cases txn <;> rfl

variable {hts : ¬ p.writeTimestamp.IsEmpty}

theorem keyStats_written (hversions : s.versions = (⟨p.writeTimestamp, hts⟩, p.value.getD []) :: l)
    (hintents : s.intents = (txn.map fun t => (t.id, newIntent t p)).toList)
    (hvalue : ∀ b ∈ p.value, b ≠ []) (nowNanos : ℤ) : keyStats marshal nowNanos key s =
      headStats nowNanos (key.length + 1) (writtenMetaValSize marshal txn p)
          (newMetadata txn p).deleted (newMetadata txn p).txn.isSome
          (newMetadata txn p).timestamp.wallTime (newMetadata txn p).valBytes +
        shadowedStats nowNanos (newMetadata txn p).timestamp.wallTime l := by
  cases txn with
  | none =>
    have hdeleted : decide ((p.value.getD []).length = 0) = p.value.isNone := by
      cases hv : p.value with
      | none => rfl
      | some b => simp [hvalue b hv]
    rw [keyStats, hintents, hversions]
    dsimp only [Option.map_none, Option.toList_none]
    rw [hdeleted]
    rfl
  | some t =>
    rw [keyStats, hintents, hversions]
    rfl

/-- A write on a key without an intent of its own. -/
theorem keyStats_finishWrite_committed (hs : Accounted s) {writeTimestamp : Timestamp}
    {value : Option Bytes} {valueFn : Option ValueFn}
    (happends : Appends s writeTimestamp value valueFn p) (hp : ProperValue value valueFn)
    {r : KeyState} (hversions : ∃ hts, r.versions =
      put versionRank ⟨p.writeTimestamp, hts⟩ (p.value.getD []) p.state.versions)
    (hintents : r.intents = writtenIntents txn p) (h : isSysLocal key = false) (nowNanos : ℤ) :
    (updateStatsOnPut key 0 (s.metadataSizes marshal key).1 (s.metadataSizes marshal key).2
        (key.length + 1) (writtenMetaValSize marshal txn p) s.getMetadata
        (newMetadata txn p)).asOf nowNanos =
      keyStats marshal nowNanos key r - keyStats marshal nowNanos key s := by
  obtain ⟨hts, hversions⟩ := hversions
  obtain ⟨hnone, hstate, -, hnewest, ⟨exVal, hvalue⟩, -⟩ := happends
  have hfront : r.versions = (⟨p.writeTimestamp, hts⟩, p.value.getD []) :: s.versions := by
    rw [hversions, hstate]
    refine put_of_lt ?_ _
    intro w hw
    exact versionRank_lt_of_less (hnewest w hw)
  have hintents' : r.intents = (txn.map fun t => (t.id, newIntent t p)).toList := by
    rw [hintents]
    cases txn with
    | none => exact (congrArg KeyState.intents hstate).trans hnone
    | some t => simp [writtenIntents, hstate, hnone, put]
  have hinline := hs.wellFormed.1
  rw [keyStats_written hfront hintents' (applyValueFn_ne_nil hp hvalue)]
  cases hv : s.versions with
  | nil =>
    have hmeta : s.getMetadata = none := by
      rw [KeyState.getMetadata, hnone, hinline, hv]
    rw [hmeta, asOf_updateStatsOnPut_none h (newMetadata_keyBytes txn p), keyStats, hv]
    abel
  | cons w l =>
    have hsizes : s.metadataSizes marshal key = ((key.length : ℤ) + 1, 0) := by
      rw [KeyState.metadataSizes, hnone, hinline, hv]
      simp [MVCCKey.encodedSize, w.1.2]
    have hmeta : s.getMetadata = some { MVCCMetadata.zero with
        keyBytes := KeyState.mvccVersionTimestampSize, valBytes := w.2.length,
        deleted := w.2.length = 0, timestamp := w.1.1 } := by
      rw [KeyState.getMetadata, hnone, hinline, hv]
    rw [hmeta, hsizes, asOf_updateStatsOnPut_committed h (newMetadata_keyBytes txn p) rfl rfl
      (by simp), keyStats, hnone, hv]
    dsimp only [shadowedStats]
    abel

theorem valueSize_nonneg (v : Option (VersionTimestamp × Bytes)) : 0 ≤ valueSize v := by
  cases v with
  | none => exact le_rfl
  | some v => exact Int.natCast_nonneg _

variable {m : MVCCMetadata}

variable {t : TxnMeta} {h0 : ¬ m.timestamp.IsEmpty}

/-- A write over an intent of its own transaction, given the size of the version below. -/
theorem keyStats_rewrite {r : KeyState} (hs : Accounted s) (hone : s.intents = [(t.id, m)])
    (hmatch : IntentMatches s.versions m t v)
    (hversions : s.versions = (⟨m.timestamp, h0⟩, v) :: l) {txn : Transaction}
    (hvalue : ∀ b ∈ p.value, b ≠ [])
    (hversions' : r.versions = (⟨p.writeTimestamp, hts⟩, p.value.getD []) :: l)
    (hintents : r.intents = [(txn.id, newIntent txn p)]) {prevValSize : ℤ}
    (hprev : prevValSize = valueSize l.head? ∨ prevValSize = 0 ∧ p.writeTimestamp = m.timestamp)
    (h : isSysLocal key = false) (nowNanos : ℤ) :
    (updateStatsOnPut key prevValSize (s.metadataSizes marshal key).1
        (s.metadataSizes marshal key).2 (key.length + 1)
        (writtenMetaValSize marshal (some txn) p) (some m) (newMetadata (some txn) p)).asOf
        nowNanos = keyStats marshal nowNanos key r - keyStats marshal nowNanos key s := by
  have hmem : (t.id, m) ∈ s.intents := by simp [hone]
  have hsizes : s.metadataSizes marshal key = ((key.length : ℤ) + 1, ((marshal m).length : ℤ)) := by
    rw [KeyState.metadataSizes, hone]
    simp [KeyState.encodedSize_empty]
  have hnonneg : 0 ≤ prevValSize := by
    rcases hprev with rfl | ⟨rfl, -⟩
    · exact valueSize_nonneg _
    · exact le_rfl
  -- The version below moves the time at which it is shadowed with the intent.
  have hshadow : shadowedStats nowNanos (newMetadata (some txn) p).timestamp.wallTime l -
      shadowedStats nowNanos m.timestamp.wallTime l =
      olderStats nowNanos (newMetadata (some txn) p).timestamp.wallTime 0 prevValSize -
        olderStats nowNanos m.timestamp.wallTime 0 prevValSize := by
    rcases hprev with rfl | ⟨rfl, hsame⟩
    · exact shadowedStats_sub _ _ 0 l
    · have htimestamp : (newMetadata (some txn) p).timestamp = m.timestamp := hsame
      rw [htimestamp, sub_self, sub_self]
  have hintents' : r.intents = ((some txn).map fun t => (t.id, newIntent t p)).toList := hintents
  rw [hsizes, asOf_updateStatsOnPut_intent h (newMetadata_keyBytes _ p) (hs.keyBytes_eq _ hmem)
    (by simp [hmatch.txn_eq]) hnonneg 0, ← hshadow,
    keyStats_written hversions' hintents' hvalue nowNanos, keyStats, hone, hversions]
  dsimp only
  rw [hmatch.valBytes_eq]
  abel

theorem versions_of_overwrite (hversions : s.versions = (⟨m.timestamp, h0⟩, v) :: l)
    (hbelow : ∀ w ∈ l, w.1.1.Less m.timestamp) {txn : Transaction}
    (hcases : (m.timestamp.Less txn.writeTimestamp ∧ s.clearMVCC m.timestamp = .ok p.state ∧
        p.writeTimestamp = txn.writeTimestamp) ∨ (p.state = s ∧ p.writeTimestamp = m.timestamp)) :
    put versionRank ⟨p.writeTimestamp, hts⟩ (p.value.getD []) p.state.versions =
      (⟨p.writeTimestamp, hts⟩, p.value.getD []) :: l := by
  rcases hcases with ⟨hless, hclear, htimestamp⟩ | ⟨hstate, htimestamp⟩
  · obtain ⟨_, hcleared, -, -⟩ := clearMVCC_eq_ok hclear
    have hl : p.state.versions = l := by
      rw [hcleared, hversions, RankedList.clear_cons_self]
      have hrank : ∀ w ∈ l, versionRank w.1 < versionRank ⟨m.timestamp, h0⟩ := by
        intro w hw
        exact versionRank_lt_of_less (hbelow w hw)
      exact RankedList.clear_of_lt hrank
    rw [hl]
    refine put_of_lt ?_ _
    intro w hw
    refine versionRank_lt_of_less ?_
    have hw' := (Timestamp.less_iff _ _).mp (hbelow w hw)
    rw [Timestamp.less_iff] at hless ⊢
    rw [← htimestamp] at hless
    exact hw'.trans hless
  · have hsame : (⟨p.writeTimestamp, hts⟩ : VersionTimestamp) = ⟨m.timestamp, h0⟩ :=
      Subtype.ext htimestamp
    rw [hstate, hversions, hsame]
    exact put_cons_self _ _ _ _

variable (marshal key) in
/-- The statistics go from `ms` to `ms'` by what the key counts for more in `s'` than in `s`. -/
def Balanced (s s' : KeyState) (ms ms' : MVCCStats) : Prop :=
  ∃ delta, ms' = ms.add delta ∧ ∀ nowNanos,
    delta.asOf nowNanos = keyStats marshal nowNanos key s' - keyStats marshal nowNanos key s

/-- The intent that a transaction moves up hides no version. -/
def WriteHidesNothing (s : KeyState) (txn : Option Transaction) : Prop :=
  ∀ t ∈ txn, ∀ i ∈ s.intents, i.1 = t.id → i.2.timestamp.Less t.writeTimestamp →
    ¬ HidesVersion s i.2.timestamp

variable {value : Option Bytes} {valueFn : Option ValueFn}

/-- A write over an intent of its own transaction. -/
theorem balanced_overwriteIntent (hs : Accounted s) (hone : s.intents = [(t.id, m)])
    (hmatch : IntentMatches s.versions m t v) {readTimestamp : Timestamp} {txn : Transaction}
    (hid : txn.id = t.id) (hp : ProperValue value valueFn)
    (hflag : (t.epoch < txn.epoch ∨ t.epoch = txn.epoch ∧ t.sequence < txn.sequence) →
      SameFlag m.timestamp txn.writeTimestamp)
    (hhidden : m.timestamp.Less txn.writeTimestamp → ¬ HidesVersion s m.timestamp)
    (hpending : overwriteIntent marshal s m t key readTimestamp value txn valueFn = .ok (some p))
    (h : isSysLocal key = false) (hfinish : WithStats.finishWrite marshal key (some txn) p ⟨some m,
      (s.metadataSizes marshal key).1, (s.metadataSizes marshal key).2,
      if m.timestamp.Less txn.writeTimestamp then valueSize (s.nextVersion m.timestamp) else 0⟩
      logicalOp ms = .ok r) : Balanced marshal key s r.1.state ms r.2.ms := by
  obtain ⟨⟨hts, hversions'⟩, hintents', hms⟩ := WithStats.finishWrite_eq_ok hfinish
  obtain ⟨hlater, ⟨_, _, -, hvalue, -⟩, hcases⟩ := overwriteIntent_eq_ok marshal key hpending
  obtain ⟨h0, l, hversions, hnewest⟩ := hmatch.versions_eq s.sorted
  have hwritten : r.1.state.intents = [(txn.id, newIntent txn p)] := by
    rw [hintents', writtenIntents, overwriteIntent_intents marshal key hpending, hone, hid]
    exact put_cons_self _ _ _ _
  have hplace : (m.timestamp.Less txn.writeTimestamp ∧ s.clearMVCC m.timestamp = .ok p.state ∧
      p.writeTimestamp = txn.writeTimestamp) ∨ (p.state = s ∧ p.writeTimestamp = m.timestamp) := by
    rcases hcases with hmoved | ⟨hless, hsame, htimestamp⟩
    · exact .inl hmoved
    · rw [(rewriteTimestamp_eq hless (hflag hlater)).1] at htimestamp
      exact .inr ⟨hsame, htimestamp⟩
  rw [versions_of_overwrite hversions hnewest hplace] at hversions'
  refine ⟨_, hms, ?_⟩
  intro nowNanos
  refine keyStats_rewrite hs hone hmatch hversions (applyValueFn_ne_nil hp hvalue) hversions'
    hwritten ?_ h nowNanos
  rcases hcases with ⟨hless, -, -⟩ | ⟨hless, -, htimestamp⟩
  · left
    have hnext := nextVersion_eq hversions hnewest (hhidden hless)
    rw [if_pos hless, hnext]
  · right
    rw [(rewriteTimestamp_eq hless (hflag hlater)).1] at htimestamp
    exact ⟨if_neg hless, htimestamp⟩

theorem balanced_mvccPutInternal {timestamp : Timestamp} (hs : Accounted s)
    (hp : ProperValue value valueFn) (hvalid : ValidWrite timestamp txn)
    (hflag : WriteKeepsFlag s txn) (hhidden : WriteHidesNothing s txn)
    (hlocal : isSysLocal key = false)
    (h : WithStats.mvccPutInternal marshal s key timestamp value txn valueFn ms = .ok r) :
    r = ({ state := s }, ⟨ms, []⟩) ∨ Balanced marshal key s r.1.state ms r.2.ms := by
  obtain ⟨_, _, hle, -, h⟩ := mvccPutInternal_eq_ok marshal key hvalid h
  rcases putVersioned_cases marshal key hs.wellFormed hle h with ⟨-, hsame⟩ |
    ⟨p, op, happends, hfinish⟩ | ⟨m, t, v, txn', p, op, hone, hmatch, rfl, hid, hpending, hfinish⟩
  · exact .inl hsame
  · obtain ⟨hversions, hintents, hms⟩ := WithStats.finishWrite_eq_ok hfinish
    exact .inr ⟨_, hms, keyStats_finishWrite_committed hs happends hp hversions hintents hlocal⟩
  · have hmem : (t.id, m) ∈ s.intents := by simp [hone]
    have hsame := hflag txn' rfl (t.id, m) hmem t hmatch.txn_eq hid.symm
    have hhides := hhidden txn' rfl (t.id, m) hmem hid.symm
    exact .inr (balanced_overwriteIntent hs hone hmatch hid hp hsame hhides hpending hlocal
      hfinish)

variable (marshal) in
/-- A call that adds `delta` to the statistics and leaves `s` of a key is counted as a new count of
any span around the key counts it. -/
def CountsAs (st : KeyStore) (key : Bytes) (hkey : key ≠ []) (s : KeyState) (delta : MVCCStats) :
    Prop :=
  ∀ nowNanos start stop before, start ≤ key → key < stop →
    computeStatsForRange marshal st.entries start stop nowNanos = .ok before →
    ∃ after, computeStatsForRange marshal (st.put key hkey s).entries start stop nowNanos =
      .ok after ∧ delta.ageTo nowNanos = after.subtract before

theorem Balanced.countsAs {st : KeyStore} {hkey : key ≠ []} {ms' : MVCCStats}
    (h : Balanced marshal key (st.get key) s ms ms') (hlocal : isSysLocal key = false)
    (hbefore : Accounted (st.get key)) (hafter : Accounted s) :
    ∃ delta, ms' = ms.add delta ∧ CountsAs marshal st key hkey s delta := by
  obtain ⟨delta, hms, hdelta⟩ := h
  refine ⟨delta, hms, ?_⟩
  intro nowNanos start stop before hstart hstop hcount
  exact ageTo_eq_subtract hlocal hbefore hafter (hdelta nowNanos) hstart hstop hcount

/-- A write that does not change the flag of an intent it overwrites in place, and that moves no
intent that hides a version, adds to the statistics what a new count finds. -/
theorem put_countsAs {st : KeyStore} {hkey : key ≠ []} (hlocal : isSysLocal key = false)
    (hreach : Maintained marshal key (st.get key)) {timestamp : Timestamp} {value : Option Bytes}
    {txn : Option Transaction} {valueFn : Option ValueFn} {ms : MVCCStats} {r : PutResult × Effects}
    (hp : ProperValue value valueFn) (hvalid : ValidWrite timestamp txn)
    (hflag : WriteKeepsFlag (st.get key) txn) (hhidden : WriteHidesNothing (st.get key) txn)
    (h : WithStats.mvccPutInternal marshal (st.get key) key timestamp value txn valueFn ms =
      .ok r) : r = ({ state := st.get key }, ⟨ms, []⟩) ∨
      ∃ delta, r.2.ms = ms.add delta ∧ CountsAs marshal st key hkey r.1.state delta := by
  have hbefore := accounted_of_maintained hreach
  have hafter := accounted_mvccPutInternal hbefore hp hvalid hflag h
  rcases balanced_mvccPutInternal hbefore hp hvalid hflag hhidden hlocal h with hsame | hbalanced
  · exact .inl hsame
  · exact .inr (hbalanced.countsAs hlocal hbefore hafter)

def KeyStore.single (key : Bytes) (hkey : key ≠ []) (s : KeyState) : KeyStore where
  keys := [(key, s)]
  sorted := pairwise_singleton _ _
  ne_nil := by simpa using hkey

/-- What a first write of the sample transaction leaves. -/
def onceWritten : KeyState := (writerPut false 1).apply (fun _ => [0]) [5] .initial

theorem onceWritten_maintained : Maintained (fun _ => [0]) [5] onceWritten := by
  refine .call _ .initial (writerPut_valid _ _) ?_
  intro t _ i hi
  cases hi

/-- The second write of the sample transaction. -/
def secondWrite (synthetic : Bool) : Except MVCCError (PutResult × Effects) :=
  WithStats.mvccPutInternal (fun _ => [0]) onceWritten [5] (writer synthetic 2).readTimestamp
    (some [7, 7]) (some (writer synthetic 2)) none .zero

/-- A second write with the same flag. -/
theorem put_countsAs_secondWrite :
    ∃ r, secondWrite false = .ok r ∧ (r = ({ state := onceWritten }, ⟨.zero, []⟩) ∨
      ∃ delta, r.2.ms = MVCCStats.zero.add delta ∧
        CountsAs (fun _ => [0]) (.single [5] (by simp) onceWritten) [5] (by simp) r.1.state
          delta) := by
  have hok : (secondWrite false).isOk = true := by decide +kernel
  have hintents : ∀ i ∈ onceWritten.intents, i.2.timestamp = (writer false 2).writeTimestamp := by
    decide +kernel
  cases hr : secondWrite false with
  | error e =>
    rw [hr] at hok
    cases hok
  | ok r =>
    refine ⟨r, rfl, ?_⟩
    refine @put_countsAs (fun _ => [0]) [5] (.single [5] (by simp) onceWritten) (by simp) rfl
      onceWritten_maintained _ _ _ _ _ _ ⟨by simp, by simp⟩ (writerPut_valid false 2).2 ?_ ?_ hr
    · rintro t ⟨⟩ i hi _ _ _ _ _
      rw [hintents i hi]
    · rintro t ⟨⟩ i hi _ hless
      rw [hintents i hi, Timestamp.less_iff] at hless
      exact absurd hless (lt_irrefl _)

theorem sampleKey_ne_nil : ([5] : Bytes) ≠ [] := by simp

/-- The number of versions that a count of the sample store finds. -/
def countedVersions (s : KeyState) : Option ℤ :=
  (computeStatsForRange (fun _ => [0]) (KeyStore.single [5] sampleKey_ne_nil s).entries [5] [6]
    0).toOption.map MVCCStats.valCount

/-- A write at the position of its intent with the other flag leaves the version of the intent, and
the statistics miss it. -/
theorem put_valCount_secondWrite : Maintained (fun _ => [0]) [5] onceWritten ∧
      ValidWrite (writer true 2).readTimestamp (some (writer true 2)) ∧
      (secondWrite true).toOption.map (fun r => (r.2.ms.valCount, countedVersions r.1.state)) =
        some (0, some 2) ∧ countedVersions onceWritten = some 1 := by
  refine ⟨onceWritten_maintained, (writerPut_valid true 2).2, ?_, ?_⟩
  · decide +kernel
  · decide +kernel

end Cockroach.Storage
