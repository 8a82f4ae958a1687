import Cockroach.Storage.ComputeStats
import Cockroach.Storage.Effects
import Cockroach.Storage.IntentInvariant

/-! What each version of a key counts for, and how the updates of the statistics change it. -/
namespace Cockroach.Storage
open ByteOrder Hlc List
open MVCCStats (Counter ageTo asOf counters gcBytes seconds zero)
open KeyState (entries mvccVersionTimestampSize)

/-- What the newest version counts for, with the metadata of its key. -/
def headStats (nowNanos metaKeySize metaValSize : ℤ) (deleted isIntent : Bool) (nanos valSize : ℤ) :
    Counter → ℤ
  | .liveBytes => if deleted then 0 else
      metaKeySize + metaValSize + (valSize + mvccVersionTimestampSize)
  | .liveCount => if deleted then 0 else 1
  | .gcBytesAge => if deleted then
      (metaKeySize + metaValSize + (valSize + mvccVersionTimestampSize)) *
        (seconds nowNanos - seconds nanos) else 0
  | .keyBytes => metaKeySize + mvccVersionTimestampSize
  | .valBytes => metaValSize + valSize
  | .keyCount => 1
  | .valCount => 1
  | .intentBytes => if isIntent then valSize + mvccVersionTimestampSize else 0
  | .intentCount => if isIntent then 1 else 0
  | .separatedIntentCount => if isIntent then 1 else 0
  | .intentAge => if isIntent then seconds nowNanos - seconds nanos else 0
  | _ => 0

/-- What an overwritten version counts for. A value ages since it was shadowed, a tombstone since
it was written. -/
def olderStats (nowNanos shadowNanos nanos valSize : ℤ) : Counter → ℤ
  | .gcBytesAge => (valSize + mvccVersionTimestampSize) *
      (seconds nowNanos - seconds (if valSize = 0 then nanos else shadowNanos))
  | .keyBytes => mvccVersionTimestampSize
  | .valBytes => valSize
  | .valCount => 1
  | _ => 0

/-- What the versions below one that was written at `shadowNanos` count for. -/
def shadowedStats (nowNanos : ℤ) : ℤ → List (VersionTimestamp × Bytes) → Counter → ℤ
  | _, [] => 0
  | shadowNanos, v :: l =>
    olderStats nowNanos shadowNanos v.1.1.wallTime v.2.length +
      shadowedStats nowNanos v.1.1.wallTime l

theorem not_isPrefixOf_of_not_isSysLocal {key : Bytes} (h : isSysLocal key = false) :
    Keys.localRangeIDPrefix.isPrefixOf key = false := by
  cases hp : Keys.localRangeIDPrefix.isPrefixOf key with
  | false => rfl
  | true =>
    obtain ⟨t, rfl⟩ := isPrefixOf_iff_prefix.mp hp
    cases h

variable {marshal : MVCCMetadata → Bytes} {nowNanos : ℤ} {key : Bytes}

section

variable (h : isSysLocal key = false)
include h

theorem computeStep_eq {e : Entry} (he : e.key = key) (st : ComputeState) :
    computeStep marshal nowNanos st e = computeEntry marshal nowNanos st e := by
  rw [computeStep, he, not_isPrefixOf_of_not_isSysLocal h]
  rfl

variable {l : List (VersionTimestamp × Bytes)}

theorem foldlM_older {st : ComputeState} (hprev : st.prevKey = key) (hfirst : st.first = false) :
    ((l.map fun v => Entry.version key v.1 v.2).foldlM (computeStep marshal nowNanos) st).map
        (fun st => st.ms.counters) =
      .ok (st.ms.counters + shadowedStats nowNanos st.accrueGCAgeNanos l) := by
  induction l generalizing st with
  | nil => exact congrArg Except.ok (add_zero _).symm
  | cons v l ih =>
    set st' := { st with
      ms := countVersion v.2.length
        (countOlder nowNanos st.accrueGCAgeNanos v.1.1 v.2.length st.ms)
      accrueGCAgeNanos := v.1.1.wallTime } with hst'
    have hstep : computeStep marshal nowNanos st (.version key v.1 v.2) = .ok st' := by
      rw [computeStep_eq h rfl]
      simp [computeEntry, computeVersion, hprev, hfirst, h, hst']
    have hprev' : st'.prevKey = key := hprev
    have hfirst' : st'.first = false := hfirst
    rw [map_cons, foldlM_cons, hstep, ok_bind, ih hprev' hfirst']
    refine congrArg Except.ok ?_
    rw [counters_countVersion, counters_countOlder, shadowedStats]
    have holder : (countOlder nowNanos st.accrueGCAgeNanos v.1.1 v.2.length .zero).counters +
        (countVersion v.2.length .zero).counters =
        olderStats nowNanos st.accrueGCAgeNanos v.1.1.wallTime v.2.length := by
      funext c
      cases c <;> simp [countOlder, countVersion, counters, zero, olderStats]
    rw [← holder]
    abel

variable {v : VersionTimestamp × Bytes}

theorem foldlM_versions {st : ComputeState} (hprev : st.prevKey = key) (hfirst : st.first = true)
    (hkeyBytes : st.m.keyBytes = mvccVersionTimestampSize)
    (hvalBytes : st.m.valBytes = v.2.length) :
    (((v :: l).map fun v => Entry.version key v.1 v.2).foldlM (computeStep marshal nowNanos)
        st).map (fun st => st.ms.counters) =
      .ok (st.ms.counters + (countNewest nowNanos st.m v.2.length .zero).counters +
        (countVersion v.2.length .zero).counters +
        shadowedStats nowNanos st.m.timestamp.wallTime l) := by
  set st' := { st with
    ms := countVersion v.2.length (countNewest nowNanos st.m v.2.length st.ms)
    first := false
    accrueGCAgeNanos := st.m.timestamp.wallTime } with hst'
  have hstep : computeStep marshal nowNanos st (.version key v.1 v.2) = .ok st' := by
    rw [computeStep_eq h rfl]
    simp [computeEntry, computeVersion, hprev, hfirst, h, hkeyBytes, hvalBytes, hst']
  have hprev' : st'.prevKey = key := hprev
  have hfirst' : st'.first = false := rfl
  rw [map_cons, foldlM_cons, hstep, ok_bind, foldlM_older h hprev' hfirst']
  rw [counters_countVersion, counters_countNewest]

theorem headStats_eq (m : MVCCMetadata) (hraw : m.rawBytes = []) (metaValSize valSize : ℤ) :
    (countMeta nowNanos key m metaValSize .zero).counters +
        (countNewest nowNanos m valSize .zero).counters + (countVersion valSize .zero).counters =
      headStats nowNanos (key.length + 1) metaValSize m.deleted m.txn.isSome m.timestamp.wallTime
        valSize := by
  funext c
  cases hd : m.deleted <;> cases ht : m.txn.isSome <;> cases c <;>
    simp [countMeta, countNewest, countVersion, headStats, counters, zero, h,
      hd, ht, MVCCMetadata.isInline, hraw] <;> ring

variable {s : KeyState}

theorem keyCounters_committed (hkey : key ≠ [])
    (hintents : s.intents = []) (hinline : s.inline = none) (hversions : s.versions = v :: l) :
    keyCounters marshal nowNanos key s =
      .ok (headStats nowNanos (key.length + 1) 0 (v.2.length = 0) false v.1.1.wallTime
        v.2.length + shadowedStats nowNanos v.1.1.wallTime l) := by
  set m := implicitMetadata v.1.1 v.2 with hm
  -- The first version brings the metadata with it.
  have hfirst : computeStep marshal nowNanos .initial (.version key v.1 v.2) =
      computeStep marshal nowNanos ⟨countMeta nowNanos key m 0 .zero, m, key, true, 0⟩
        (.version key v.1 v.2) := by
    rw [computeStep_eq h rfl, computeStep_eq h rfl]
    simp only [computeEntry, ComputeState.initial]
    simp only [ne_eq, hkey, not_false_eq_true, if_true, not_true_eq_false, if_false, hm]
  have hentries : s.entries key = (v :: l).map fun v => Entry.version key v.1 v.2 := by
    simp [entries, hintents, hinline, hversions]
  have hversions := @foldlM_versions marshal nowNanos key h l v
    ⟨countMeta nowNanos key m 0 .zero, m, key, true, 0⟩ rfl rfl rfl rfl
  rw [map_cons] at hversions hentries
  rw [keyCounters, hentries, foldlM_cons, hfirst, ← foldlM_cons, hversions]
  rw [headStats_eq h m rfl]
  rfl

theorem keyCounters_intent {m : MVCCMetadata} {id : BitVec 128}
    (hintents : s.intents = [(id, m)]) (hinline : s.inline = none) (hraw : m.rawBytes = [])
    (hkeyBytes : m.keyBytes = mvccVersionTimestampSize) (hversions : s.versions = v :: l)
    (hvalBytes : m.valBytes = v.2.length) : keyCounters marshal nowNanos key s =
      .ok (headStats nowNanos (key.length + 1) (marshal m).length m.deleted m.txn.isSome
        m.timestamp.wallTime v.2.length + shadowedStats nowNanos m.timestamp.wallTime l) := by
  have hentries : s.entries key =
      Entry.metadata key m :: (v :: l).map fun v => Entry.version key v.1 v.2 := by
    simp [entries, hintents, hinline, hversions]
  have hfirst : computeStep marshal nowNanos .initial (.metadata key m) =
      .ok ⟨countMeta nowNanos key m (marshal m).length .zero, m, key, true, 0⟩ := by
    rw [computeStep_eq h rfl]
    rfl
  rw [keyCounters, hentries, foldlM_cons, hfirst]
  refine (foldlM_versions h rfl rfl hkeyBytes hvalBytes).trans ?_
  rw [headStats_eq h m hraw]

end

section Updates

variable {orig m restored : MVCCMetadata} {origKeySize origValSize metaKeySize metaValSize : ℤ}

theorem asOf_updateStatsOnPut_none (h : isSysLocal key = false)
    (hm : m.keyBytes = mvccVersionTimestampSize) :
    (updateStatsOnPut key 0 origKeySize origValSize metaKeySize metaValSize none m).asOf nowNanos =
      headStats nowNanos metaKeySize metaValSize m.deleted m.txn.isSome m.timestamp.wallTime
        m.valBytes := by
  funext c
  cases hd : m.deleted <;> cases ht : m.txn.isSome <;> cases c <;>
    simp only [updateStatsOnPut, asOf, counters, ageTo, gcBytes, zero, headStats, h, hd, ht, hm,
      Bool.false_eq_true, if_true, if_false] <;> ring

theorem asOf_updateStatsOnPut_committed (h : isSysLocal key = false)
    (hm : m.keyBytes = mvccVersionTimestampSize)
    (horig : orig.keyBytes = mvccVersionTimestampSize) (htxn : orig.txn = none)
    (hdel : orig.deleted = true ↔ (orig.valBytes : ℤ) = 0) :
    (updateStatsOnPut key 0 origKeySize origValSize metaKeySize metaValSize (some orig) m).asOf
        nowNanos =
      headStats nowNanos metaKeySize metaValSize m.deleted m.txn.isSome m.timestamp.wallTime
          m.valBytes +
        olderStats nowNanos m.timestamp.wallTime orig.timestamp.wallTime orig.valBytes -
        headStats nowNanos origKeySize origValSize orig.deleted false orig.timestamp.wallTime
          orig.valBytes := by
  funext c
  cases hd : m.deleted <;> cases ht : m.txn.isSome <;> cases ho : orig.deleted <;>
    simp only [ho, Bool.false_eq_true, true_iff, false_iff] at hdel <;> cases c <;>
    simp only [updateStatsOnPut, removeOriginal, asOf, counters,
      ageTo, gcBytes, zero, headStats, olderStats, h, hd, ht, hm,
      horig, htxn, ho, hdel, Pi.add_apply, Pi.sub_apply, Option.isSome_none, Bool.false_eq_true,
      gt_iff_lt, lt_self_iff_false, if_true, if_false] <;> ring

theorem asOf_updateStatsOnPut_intent (h : isSysLocal key = false)
    (hm : m.keyBytes = mvccVersionTimestampSize)
    (horig : orig.keyBytes = mvccVersionTimestampSize) (htxn : orig.txn.isSome = true)
    {prevValSize : ℤ} (hprev : 0 ≤ prevValSize) (prevNanos : ℤ) :
    (updateStatsOnPut key prevValSize origKeySize origValSize metaKeySize metaValSize (some orig)
        m).asOf nowNanos =
      headStats nowNanos metaKeySize metaValSize m.deleted m.txn.isSome m.timestamp.wallTime
          m.valBytes -
        headStats nowNanos origKeySize origValSize orig.deleted true orig.timestamp.wallTime
          orig.valBytes + (olderStats nowNanos m.timestamp.wallTime prevNanos prevValSize -
          olderStats nowNanos orig.timestamp.wallTime prevNanos prevValSize) := by
  funext c
  obtain rfl | ⟨hpos, hne⟩ := hprev.eq_or_lt.imp_right fun h => And.intro h h.ne' <;>
    cases hd : m.deleted <;> cases ht : m.txn.isSome <;> cases ho : orig.deleted <;> cases c <;>
    simp only [updateStatsOnPut, removeOriginal, asOf, counters, ageTo, gcBytes, zero,
      headStats, olderStats, Pi.add_apply, Pi.sub_apply, Bool.false_eq_true, gt_iff_lt,
      lt_self_iff_false, if_true, if_false, *] <;> ring

theorem asOf_replaceIntent {commit : Bool} (hm : m.keyBytes = mvccVersionTimestampSize)
    (horig : orig.keyBytes = mvccVersionTimestampSize) (hdel : orig.deleted = m.deleted)
    (hval : orig.valBytes = m.valBytes) {prevValSize : ℤ} (hprev : 0 ≤ prevValSize)
    (prevNanos : ℤ) :
    (replaceIntent prevValSize origKeySize origValSize metaKeySize metaValSize orig m
        commit).asOf nowNanos =
      headStats nowNanos metaKeySize metaValSize m.deleted (!commit) m.timestamp.wallTime
          m.valBytes -
        headStats nowNanos origKeySize origValSize orig.deleted true orig.timestamp.wallTime
          orig.valBytes + (olderStats nowNanos m.timestamp.wallTime prevNanos prevValSize -
          olderStats nowNanos orig.timestamp.wallTime prevNanos prevValSize) := by
  funext c
  rw [hval]
  obtain rfl | ⟨hpos, hne⟩ := hprev.eq_or_lt.imp_right fun h => And.intro h h.ne' <;>
    cases hd : m.deleted <;> cases commit <;> cases c <;>
    simp only [replaceIntent, asOf, counters, ageTo, gcBytes, zero, headStats,
      olderStats, Pi.add_apply, Pi.sub_apply, Bool.false_eq_true, Bool.not_true, Bool.not_false,
      gt_iff_lt, lt_self_iff_false, if_true, if_false, *] <;> ring

theorem asOf_updateStatsOnClear_none (h : isSysLocal key = false)
    (horig : orig.keyBytes = mvccVersionTimestampSize) :
    (updateStatsOnClear key origKeySize origValSize metaKeySize metaValSize orig none 0).asOf
        nowNanos = -headStats nowNanos origKeySize origValSize orig.deleted orig.txn.isSome
        orig.timestamp.wallTime orig.valBytes := by
  funext c
  cases ho : orig.deleted <;> cases ht : orig.txn.isSome <;> cases c <;>
    simp only [updateStatsOnClear, asOf, counters, ageTo, gcBytes, zero, headStats, h, ho, ht,
      horig, Pi.neg_apply, Bool.false_eq_true, if_true, if_false] <;> ring

theorem asOf_updateStatsOnClear_some (h : isSysLocal key = false)
    (horig : orig.keyBytes = mvccVersionTimestampSize)
    (hrestored : restored.keyBytes = mvccVersionTimestampSize)
    (hdel : restored.deleted = true ↔ (restored.valBytes : ℤ) = 0) (restoredNanos : ℤ) :
    (updateStatsOnClear key origKeySize origValSize metaKeySize metaValSize orig (some restored)
        restoredNanos).asOf nowNanos =
      headStats nowNanos metaKeySize metaValSize restored.deleted false restoredNanos
          restored.valBytes -
        olderStats nowNanos orig.timestamp.wallTime restoredNanos restored.valBytes -
        headStats nowNanos origKeySize origValSize orig.deleted orig.txn.isSome
          orig.timestamp.wallTime orig.valBytes := by
  funext c
  cases hd : restored.deleted <;> cases ho : orig.deleted <;> cases ht : orig.txn.isSome <;>
    simp only [hd, Bool.false_eq_true, true_iff, false_iff] at hdel <;> cases c <;>
    simp only [updateStatsOnClear, restoreVersion, asOf, counters,
      ageTo, gcBytes, zero, headStats, olderStats, h, hd, ho, ht,
      horig, hrestored, hdel, Pi.sub_apply, Bool.false_eq_true, if_true, if_false] <;> ring

end Updates

theorem shadowedStats_sub (a b prevNanos : ℤ) (l : List (VersionTimestamp × Bytes)) :
    shadowedStats nowNanos a l - shadowedStats nowNanos b l =
      olderStats nowNanos a prevNanos (valueSize l.head?) -
        olderStats nowNanos b prevNanos (valueSize l.head?) := by
  cases l with
  | nil =>
    funext c
    cases c <;> simp [shadowedStats, olderStats, valueSize]
  | cons v l =>
    simp only [shadowedStats, head?_cons, valueSize, Option.elim_some, add_sub_add_right_eq_sub]
    funext c
    by_cases hv : (v.2.length : ℤ) = 0
    · cases c <;> simp only [olderStats, Pi.sub_apply, hv, if_true, sub_self]
    · cases c <;> simp only [olderStats, Pi.sub_apply, hv, if_false]

theorem versionRank_lt_of_less {w t : VersionTimestamp} (h : w.1.Less t.1) :
    versionRank w < versionRank t := by
  have hticks := (Timestamp.less_iff _ _).mp h
  have hflag := Bool.toNat_le w.1.synthetic
  change 2 * w.1.ticks + w.1.synthetic.toNat < 2 * t.1.ticks + t.1.synthetic.toNat
  omega

theorem IntentMatches.versions_eq {versions : List (VersionTimestamp × Bytes)} {m : MVCCMetadata}
    {t : TxnMeta} {v : Bytes} (h : IntentMatches versions m t v)
    (hsorted : RankedList.Descending versionRank versions) :
    ∃ h0 l, versions = (⟨m.timestamp, h0⟩, v) :: l ∧ ∀ w ∈ l, w.1.1.Less m.timestamp := by
  obtain ⟨h0, hmem⟩ := h.version_mem
  cases versions with
  | nil => cases hmem
  | cons w l =>
    rcases mem_cons.mp hmem with rfl | hl
    · refine ⟨h0, l, rfl, ?_⟩
      intro w hw
      refine h.newest w (mem_cons_of_mem _ hw) ?_
      intro heq
      exact hsorted.ne_of_mem w hw (Subtype.ext heq)
    · have hrank := hsorted.rank_lt_head hl
      have hne : w.1.1 ≠ m.timestamp := by
        intro heq
        have hw : w.1 = ⟨m.timestamp, h0⟩ := Subtype.ext heq
        rw [hw] at hrank
        exact lt_irrefl _ hrank
      have hless : versionRank w.1 < versionRank ⟨m.timestamp, h0⟩ :=
        versionRank_lt_of_less (h.newest w mem_cons_self hne)
      exact absurd hrank hless.asymm

/-- The intents of a key have the form that the statistics rely on. -/
structure Accounted (s : KeyState) : Prop where
  wellFormed : WellFormed s
  keyBytes_eq : ∀ i ∈ s.intents, i.2.keyBytes = mvccVersionTimestampSize
  rawBytes_eq : ∀ i ∈ s.intents, i.2.rawBytes = []

variable (marshal nowNanos key) in
/-- What a key counts for. -/
def keyStats (s : KeyState) : Counter → ℤ :=
  match s.intents, s.versions with
  | _, [] => 0
  | [], v :: l => headStats nowNanos (key.length + 1) 0 (v.2.length = 0) false v.1.1.wallTime
      v.2.length + shadowedStats nowNanos v.1.1.wallTime l
  | i :: _, v :: l => headStats nowNanos (key.length + 1) (marshal i.2).length i.2.deleted true
      i.2.timestamp.wallTime v.2.length + shadowedStats nowNanos i.2.timestamp.wallTime l

theorem keyCounters_eq (h : isSysLocal key = false) (hkey : key ≠ []) (hs : Accounted s) :
    keyCounters marshal nowNanos key s = .ok (keyStats marshal nowNanos key s) := by
  obtain ⟨hinline, hnone | ⟨m, t, v, hone, hmatch⟩⟩ := hs.wellFormed
  · cases hv : s.versions with
    | nil =>
      rw [keyStats, hv, keyCounters, entries, hnone, hv, hinline]
      refine congrArg Except.ok ?_
      funext c
      cases c <;> rfl
    | cons v l =>
      rw [keyCounters_committed h hkey hnone hinline hv, keyStats, hnone, hv]
  · obtain ⟨h0, l, hv, -⟩ := hmatch.versions_eq s.sorted
    have hmem : (t.id, m) ∈ s.intents := by simp [hone]
    rw [keyCounters_intent h hone hinline (hs.rawBytes_eq _ hmem) (hs.keyBytes_eq _ hmem) hv
      hmatch.valBytes_eq, keyStats, hone, hv, hmatch.txn_eq]
    rfl

theorem ageTo_eq_subtract {st : KeyStore} {hkey : key ≠ []} {delta b : MVCCStats}
    {start stop : Bytes} (h : isSysLocal key = false) (hbefore : Accounted (st.get key))
    (hafter : Accounted s) (hdelta : delta.asOf nowNanos =
      keyStats marshal nowNanos key s - keyStats marshal nowNanos key (st.get key))
    (hstart : start ≤ key) (hstop : key < stop)
    (hb : computeStatsForRange marshal st.entries start stop nowNanos = .ok b) :
    ∃ a, computeStatsForRange marshal (st.put key hkey s).entries start stop nowNanos = .ok a ∧
      delta.ageTo nowNanos = a.subtract b := by
  obtain ⟨a, ha, hab⟩ := @computeStatsForRange_put marshal start stop nowNanos key st hkey s b _ _
    hstart hstop hb (keyCounters_eq h hkey hbefore) (keyCounters_eq h hkey hafter)
  refine ⟨a, ha, ?_⟩
  rw [MVCCStats.ageTo_eq_subtract_iff (lastUpdateNanos_compute ha) (lastUpdateNanos_compute hb),
    hdelta, hab]

end Cockroach.Storage
