import Cockroach.Storage.MVCCCases
import Cockroach.Storage.ScannerMoves
import Cockroach.Storage.Stats

/-! The statistics of a span of keys, counted from its records. -/
namespace Cockroach.Storage
open ByteOrder Hlc List
open Except (error ok)

inductive StatsError where
  | rangeIDKey (key : Bytes)
  | metaKeyBytes (keyBytes : ℕ)
  | metaValBytes (valBytes valSize : ℕ)
deriving DecidableEq, Repr

/-- What `ComputeStatsForRange` keeps from one record to the next. The metadata is that of the key
before, `first` says that its newest version has not been seen yet, and the time is that at which
the next older version was shadowed. -/
structure ComputeState where
  ms : MVCCStats
  m : MVCCMetadata
  prevKey : Bytes
  first : Bool
  accrueGCAgeNanos : ℤ

def ComputeState.initial : ComputeState := ⟨.zero, .zero, [], false, 0⟩

open MVCCStats (counters seconds)

/-- The counters of the metadata of a key, which may be implicit. -/
def countMeta (nowNanos : ℤ) (key : Bytes) (m : MVCCMetadata) (metaValSize : ℤ) (ms : MVCCStats) :
    MVCCStats :=
  let metaKeySize : ℤ := key.length + 1
  let totalBytes := metaKeySize + metaValSize
  if isSysLocal key then { ms with
    sysBytes := ms.sysBytes + totalBytes
    sysCount := ms.sysCount + 1
    abortSpanBytes := ms.abortSpanBytes + if isAbortSpanKey key then totalBytes else 0 }
  else
    let ms := if m.deleted then { ms with
        gcBytesAge := ms.gcBytesAge +
          totalBytes * (seconds nowNanos - seconds m.timestamp.wallTime) }
      else { ms with
        liveBytes := ms.liveBytes + totalBytes
        liveCount := ms.liveCount + 1 }
    { ms with
      keyBytes := ms.keyBytes + metaKeySize
      valBytes := ms.valBytes + metaValSize
      keyCount := ms.keyCount + 1
      valCount := ms.valCount + if m.isInline then 1 else 0 }

/-- The counters of the newest version of a key. -/
def countNewest (nowNanos : ℤ) (m : MVCCMetadata) (valSize : ℤ) (ms : MVCCStats) : MVCCStats :=
  let totalBytes := valSize + KeyState.mvccVersionTimestampSize
  let ms := if m.deleted then { ms with
      gcBytesAge := ms.gcBytesAge +
        totalBytes * (seconds nowNanos - seconds m.timestamp.wallTime) }
    else { ms with liveBytes := ms.liveBytes + totalBytes }
  if m.txn.isSome then { ms with
    intentBytes := ms.intentBytes + totalBytes
    intentCount := ms.intentCount + 1
    separatedIntentCount := ms.separatedIntentCount + 1
    intentAge := ms.intentAge + (seconds nowNanos - seconds m.timestamp.wallTime) }
  else ms

/-- The age of an overwritten version, which starts when it was shadowed or, for a tombstone, when
it was written. -/
def countOlder (nowNanos accrueGCAgeNanos : ℤ) (ts : Timestamp) (valSize : ℤ) (ms : MVCCStats) :
    MVCCStats :=
  let totalBytes := valSize + KeyState.mvccVersionTimestampSize
  let fromNanos := if valSize = 0 then (ts.wallTime : ℤ) else accrueGCAgeNanos
  { ms with
    gcBytesAge := ms.gcBytesAge + totalBytes * (seconds nowNanos - seconds fromNanos) }

def countVersion (valSize : ℤ) (ms : MVCCStats) : MVCCStats :=
  { ms with
    keyBytes := ms.keyBytes + KeyState.mvccVersionTimestampSize
    valBytes := ms.valBytes + valSize
    valCount := ms.valCount + 1 }

/-- The metadata of a key without a record of it, made up from its newest version. -/
def implicitMetadata (ts : Timestamp) (value : Bytes) : MVCCMetadata :=
  { MVCCMetadata.zero with
    keyBytes := KeyState.mvccVersionTimestampSize
    valBytes := value.length
    deleted := value.length = 0
    timestamp := ⟨ts.wallTime, 0, false, ts.wallTime_lt, Timestamp.zero_lt_logical⟩ }

/-- The part of the loop that counts a version. -/
def computeVersion (nowNanos : ℤ) (key : Bytes) (ts : Timestamp) (value : Bytes)
    (st : ComputeState) : Except StatsError ComputeState :=
  if isSysLocal key then .ok { st with
    ms := { st.ms with
      sysBytes := st.ms.sysBytes + (value.length + KeyState.mvccVersionTimestampSize) } }
  else if st.first then
    if st.m.keyBytes ≠ KeyState.mvccVersionTimestampSize then .error (.metaKeyBytes st.m.keyBytes)
    else if st.m.valBytes ≠ value.length then .error (.metaValBytes st.m.valBytes value.length)
    else .ok { st with
      ms := countVersion value.length (countNewest nowNanos st.m value.length st.ms)
      first := false
      accrueGCAgeNanos := st.m.timestamp.wallTime }
  else .ok { st with
    ms := countVersion value.length
      (countOlder nowNanos st.accrueGCAgeNanos ts value.length st.ms)
    accrueGCAgeNanos := ts.wallTime }

variable (marshal : MVCCMetadata → Bytes)

/-- The part of the loop that counts a record. -/
def computeEntry (nowNanos : ℤ) (st : ComputeState) : Entry → Except StatsError ComputeState
  | .metadata key m => .ok { st with
      ms := countMeta nowNanos key m (marshal m).length st.ms
      m := m
      prevKey := key
      first := true }
  | .version key ts value =>
    if key ≠ st.prevKey then
      let m := implicitMetadata ts.1 value
      computeVersion nowNanos key ts.1 value { st with
        ms := countMeta nowNanos key m 0 st.ms
        m := m
        prevKey := key
        first := true }
    else computeVersion nowNanos key ts.1 value st

/-- One round of the loop. The record of the applied state of a range is passed over. -/
def computeStep (nowNanos : ℤ) (st : ComputeState) (e : Entry) :
    Except StatsError ComputeState :=
  if Keys.localRangeIDPrefix.isPrefixOf e.key then
    match Keys.decodeRangeIDKey e.key with
    | none => .error (.rangeIDKey e.key)
    | some (_, infixKey, suffix, _) =>
      if infixKey = Keys.localRangeIDReplicatedInfix ∧
          suffix = Keys.localRangeAppliedStateSuffix then .ok st
      else computeEntry marshal nowNanos st e
  else computeEntry marshal nowNanos st e

def MVCCKey.less (k l : MVCCKey) : Bool :=
  if bytesCompare k.key l.key ≠ .eq then bytesCompare k.key l.key = .lt
  else if k.timestamp.IsEmpty then ¬ l.timestamp.IsEmpty
  else if l.timestamp.IsEmpty then false
  else l.timestamp.Less k.timestamp

/-- The statistics of the records from `start` to `stop`. -/
def computeStatsForRange (entries : List Entry) (start stop : Bytes) (nowNanos : ℤ) :
    Except StatsError MVCCStats :=
  let inRange := (entries.dropWhile (Entry.before ⟨start, .empty⟩)).takeWhile fun e =>
    e.mvccKey.less ⟨stop, .empty⟩
  (inRange.foldlM (computeStep marshal nowNanos) .initial).map fun st =>
    { st.ms with lastUpdateNanos := nowNanos }

variable {start stop : Bytes} {nowNanos : ℤ}

theorem lastUpdateNanos_compute {marshal : MVCCMetadata → Bytes} {entries : List Entry}
    {ms : MVCCStats} (h : computeStatsForRange marshal entries start stop nowNanos = .ok ms) :
    ms.lastUpdateNanos = nowNanos := by
  obtain ⟨st, -, rfl⟩ := map_eq_ok h
  rfl

theorem counters_countMeta (nowNanos : ℤ) (key : Bytes) (m : MVCCMetadata) (metaValSize : ℤ)
    (ms : MVCCStats) : (countMeta nowNanos key m metaValSize ms).counters =
      ms.counters + (countMeta nowNanos key m metaValSize .zero).counters := by
  funext c
  unfold countMeta
  split_ifs <;> cases c <;> simp [counters, MVCCStats.zero]

theorem counters_countNewest (nowNanos : ℤ) (m : MVCCMetadata) (valSize : ℤ) (ms : MVCCStats) :
    (countNewest nowNanos m valSize ms).counters =
      ms.counters + (countNewest nowNanos m valSize .zero).counters := by
  funext c
  unfold countNewest
  split_ifs <;> cases c <;> simp [counters, MVCCStats.zero]

theorem counters_countOlder (nowNanos accrueGCAgeNanos : ℤ) (ts : Timestamp) (valSize : ℤ)
    (ms : MVCCStats) : (countOlder nowNanos accrueGCAgeNanos ts valSize ms).counters =
      ms.counters + (countOlder nowNanos accrueGCAgeNanos ts valSize .zero).counters := by
  funext c
  unfold countOlder
  cases c <;> simp [counters, MVCCStats.zero]

theorem counters_countVersion (valSize : ℤ) (ms : MVCCStats) : (countVersion valSize ms).counters =
      ms.counters + (countVersion valSize .zero).counters := by
  funext c
  unfold countVersion
  cases c <;> simp [counters, MVCCStats.zero]

/-- Two states from which the records of a key are counted in the same way: neither has come to
the key, or both have and know the same of it. -/
def Agree (key : Bytes) (a b : ComputeState) : Prop :=
  (a.prevKey ≠ key ∧ b.prevKey ≠ key) ∨
    (a.prevKey = key ∧ b.prevKey = key ∧ a.m = b.m ∧ a.first = b.first ∧
      (a.first = true ∨ a.accrueGCAgeNanos = b.accrueGCAgeNanos))

/-- Two counts from states `a` and `b` add the same to the counters, or fail in the same way. -/
def SameChange (key : Bytes) (a b : ComputeState) :
    Except StatsError ComputeState → Except StatsError ComputeState → Prop
  | .ok a', .ok b' => Agree key a' b' ∧
      a'.ms.counters - a.ms.counters = b'.ms.counters - b.ms.counters ∧
      (a'.prevKey = key ∨ a'.prevKey = a.prevKey)
  | .error e, .error e' => e = e'
  | _, _ => False

variable {key : Bytes} {a b : ComputeState}

theorem sameChange_computeVersion {ts : Timestamp} {value : Bytes} (ha : a.prevKey = key)
    (hb : b.prevKey = key) (hm : a.m = b.m) (hfirst : a.first = b.first)
    (haccrue : a.first = true ∨ a.accrueGCAgeNanos = b.accrueGCAgeNanos) :
    SameChange key a b (computeVersion nowNanos key ts value a)
      (computeVersion nowNanos key ts value b) := by
  unfold computeVersion
  rw [← hm, ← hfirst]
  split_ifs with hsys hf hkey hval
  · refine ⟨.inr ⟨ha, hb, rfl, rfl, haccrue⟩, ?_, .inl ha⟩
    funext c
    cases c <;> simp [counters]
  · rfl
  · rfl
  · refine ⟨.inr ⟨ha, hb, rfl, rfl, .inr rfl⟩, ?_, .inl ha⟩
    rw [counters_countVersion, counters_countNewest,
      counters_countVersion _ (countNewest _ _ _ b.ms), counters_countNewest _ _ _ b.ms]
    abel
  · have hacc := haccrue.resolve_left hf
    refine ⟨.inr ⟨ha, hb, rfl, rfl, .inr rfl⟩, ?_, .inl ha⟩
    rw [← hacc, counters_countVersion, counters_countOlder,
      counters_countVersion _ (countOlder _ _ _ _ b.ms), counters_countOlder _ _ _ _ b.ms]
    abel

theorem SameChange.of_counters {a₁ b₁ : ComputeState} {x y : Except StatsError ComputeState}
    (hkey : a₁.prevKey = key ∨ a₁.prevKey = a.prevKey)
    (h : a₁.ms.counters - a.ms.counters = b₁.ms.counters - b.ms.counters)
    (hchange : SameChange key a₁ b₁ x y) : SameChange key a b x y := by
  cases x with
  | error e =>
    cases y with
    | error | ok => exact hchange
  | ok a' =>
    cases y with
    | error e' => exact hchange
    | ok b' =>
      obtain ⟨hagree, hcounters, hprev⟩ := hchange
      refine ⟨hagree, ?_, hprev.elim .inl fun heq => ?_⟩
      · rw [← sub_add_sub_cancel _ a₁.ms.counters, hcounters, h, sub_add_sub_cancel]
      · rwa [heq]

variable {e : Entry}

theorem sameChange_computeEntry (he : e.key = key) (h : Agree key a b) :
    SameChange key a b (computeEntry marshal nowNanos a e) (computeEntry marshal nowNanos b e) := by
  cases e with
  | metadata k m =>
    obtain rfl : k = key := he
    refine ⟨.inr ⟨rfl, rfl, rfl, rfl, .inl rfl⟩, ?_, .inl rfl⟩
    rw [counters_countMeta, counters_countMeta _ _ _ _ b.ms]
    abel
  | version k ts value =>
    obtain rfl : k = key := he
    simp only [computeEntry]
    rcases h with ⟨ha, hb⟩ | ⟨ha, hb, hm, hfirst, haccrue⟩
    · rw [if_pos (Ne.symm ha), if_pos (Ne.symm hb)]
      refine .of_counters (.inl rfl) ?_
        (sameChange_computeVersion rfl rfl rfl rfl (.inl rfl))
      rw [counters_countMeta, counters_countMeta _ _ _ _ b.ms]
      abel
    · rw [if_neg (not_not.mpr ha.symm), if_neg (not_not.mpr hb.symm)]
      exact sameChange_computeVersion ha hb hm hfirst haccrue

theorem sameChange_computeStep (he : e.key = key) (h : Agree key a b) :
    SameChange key a b (computeStep marshal nowNanos a e) (computeStep marshal nowNanos b e) := by
  have hcount : SameChange key a b (computeEntry marshal nowNanos a e)
      (computeEntry marshal nowNanos b e) := sameChange_computeEntry marshal he h
  unfold computeStep
  split_ifs
  · split
    · rfl
    · split_ifs
      · refine ⟨h, ?_, .inr rfl⟩
        rw [sub_self, sub_self]
      · exact hcount
  · exact hcount

theorem sameChange_foldlM {es : List Entry} (hes : ∀ e ∈ es, e.key = key) (h : Agree key a b) :
    SameChange key a b (es.foldlM (computeStep marshal nowNanos) a)
      (es.foldlM (computeStep marshal nowNanos) b) := by
  induction es generalizing a b with
  | nil =>
    refine ⟨h, ?_, .inr rfl⟩
    rw [sub_self, sub_self]
  | cons e es ih =>
    have hstep : SameChange key a b (computeStep marshal nowNanos a e)
        (computeStep marshal nowNanos b e) :=
      sameChange_computeStep marshal (hes e mem_cons_self) h
    rw [foldlM_cons, foldlM_cons]
    cases hx : computeStep marshal nowNanos a e with
    | error x =>
      cases hy : computeStep marshal nowNanos b e with
      | error y =>
        rw [hx, hy] at hstep
        exact hstep
      | ok b' =>
        rw [hx, hy] at hstep
        exact hstep.elim
    | ok a' =>
      cases hy : computeStep marshal nowNanos b e with
      | error y =>
        rw [hx, hy] at hstep
        exact hstep.elim
      | ok b' =>
        rw [hx, hy] at hstep
        obtain ⟨hagree, hcounters, hprev⟩ := hstep
        exact .of_counters hprev hcounters
          (ih (fun e' he' => hes e' (mem_cons_of_mem e he')) hagree)

/-- The keys of the engine in ascending order, with what it holds for each of them. -/
structure KeyStore where
  keys : List (Bytes × KeyState)
  sorted : keys.Pairwise fun a b => a.1 < b.1
  ne_nil : ∀ k ∈ keys, k.1 ≠ []

def entriesOf (l : List (Bytes × KeyState)) : List Entry := l.flatMap fun k => k.2.entries k.1

namespace KeyStore

def entries (st : KeyStore) : List Entry := entriesOf st.keys

/-- What the engine holds for a key. -/
def get (st : KeyStore) (key : Bytes) : KeyState :=
  ((st.keys.find? fun k => k.1 = key).map Prod.snd).getD .initial

/-- Replace what the engine holds for a key. -/
def put (st : KeyStore) (key : Bytes) (hkey : key ≠ []) (s : KeyState) : KeyStore where
  keys := st.keys.filter (fun k => k.1 < key) ++ (key, s) :: st.keys.filter fun k => key < k.1
  sorted := by
    refine pairwise_append.mpr ⟨st.sorted.filter _, pairwise_cons.mpr ⟨?_,
      st.sorted.filter _⟩, ?_⟩
    · intro k hk
      exact of_decide_eq_true (mem_filter.mp hk).2
    · intro a ha b hb
      have hlt : a.1 < key := of_decide_eq_true (mem_filter.mp ha).2
      rcases mem_cons.mp hb with rfl | hb
      · exact hlt
      · have hgt : key < b.1 := of_decide_eq_true (mem_filter.mp hb).2
        exact hlt.trans hgt
  ne_nil := by
    intro k hk
    rcases mem_append.mp hk with hk | hk
    · exact st.ne_nil k (mem_filter.mp hk).1
    · rcases mem_cons.mp hk with rfl | hk
      · exact hkey
      · exact st.ne_nil k (mem_filter.mp hk).1

end KeyStore

theorem key_of_mem_entries {s : KeyState} (h : e ∈ s.entries key) : e.key = key := by
  unfold KeyState.entries at h
  simp only [mem_append, mem_map] at h
  rcases h with (⟨i, -, rfl⟩ | ⟨b, -, rfl⟩) | ⟨v, -, rfl⟩ <;> rfl

def keyCounters (nowNanos : ℤ) (key : Bytes) (s : KeyState) :
    Except StatsError (MVCCStats.Counter → ℤ) :=
  ((s.entries key).foldlM (computeStep marshal nowNanos) .initial).map fun st => st.ms.counters

/-- The counters of several keys, each counted by itself. -/
def storeCounters (nowNanos : ℤ) (l : List (Bytes × KeyState)) :
    Except StatsError (MVCCStats.Counter → ℤ) :=
  (l.mapM fun k => keyCounters marshal nowNanos k.1 k.2).map List.sum

theorem storeCounters_cons (nowNanos : ℤ) (k : Bytes × KeyState) (l : List (Bytes × KeyState)) :
    storeCounters marshal nowNanos (k :: l) = keyCounters marshal nowNanos k.1 k.2 >>= fun c =>
        (storeCounters marshal nowNanos l).map (c + ·) := by
  unfold storeCounters
  rw [mapM_cons]
  cases keyCounters marshal nowNanos k.1 k.2 with
  | error e => rfl
  | ok c =>
    cases l.mapM fun k => keyCounters marshal nowNanos k.1 k.2 with
    | error e => rfl
    | ok cs => exact congrArg ok (sum_cons)

variable {l : List (Bytes × KeyState)}

/-- The loop counts the keys one after the other. -/
theorem foldlM_entriesOf {st : ComputeState} (hsorted : l.Pairwise fun a b => a.1 < b.1)
    (hne : ∀ k ∈ l, k.1 ≠ []) (hprev : ∀ k ∈ l, st.prevKey ≠ k.1) :
    ((entriesOf l).foldlM (computeStep marshal nowNanos) st).map (fun st => st.ms.counters) =
      (storeCounters marshal nowNanos l).map (st.ms.counters + ·) := by
  induction l generalizing st with
  | nil => exact congrArg ok (add_zero st.ms.counters).symm
  | cons k l ih =>
    obtain ⟨hlt, hsorted⟩ := pairwise_cons.mp hsorted
    have hchange : SameChange k.1 st .initial
        ((k.2.entries k.1).foldlM (computeStep marshal nowNanos) st)
        ((k.2.entries k.1).foldlM (computeStep marshal nowNanos) .initial) :=
      sameChange_foldlM marshal (fun _ => key_of_mem_entries)
        (.inl ⟨hprev k mem_cons_self, (hne k mem_cons_self).symm⟩)
    rw [storeCounters_cons, keyCounters, entriesOf, flatMap_cons, foldlM_append]
    cases hx : (k.2.entries k.1).foldlM (computeStep marshal nowNanos) st with
    | error x =>
      cases hy : (k.2.entries k.1).foldlM (computeStep marshal nowNanos) .initial with
      | error y =>
        rw [hx, hy] at hchange
        exact congrArg error hchange
      | ok b =>
        rw [hx, hy] at hchange
        exact hchange.elim
    | ok a =>
      cases hy : (k.2.entries k.1).foldlM (computeStep marshal nowNanos) .initial with
      | error y =>
        rw [hx, hy] at hchange
        exact hchange.elim
      | ok b =>
        rw [hx, hy] at hchange
        obtain ⟨-, hcounters, hprev'⟩ := hchange
        have hzero : ComputeState.initial.ms.counters = 0 := by
          funext c
          cases c <;> rfl
        have ha : a.ms.counters = st.ms.counters + b.ms.counters := by
          rw [hzero, sub_zero] at hcounters
          rw [← hcounters, add_sub_cancel]
        have hprevRest : ∀ k' ∈ l, a.prevKey ≠ k'.1 := by
          intro k' hk' heq
          rcases hprev' with hkey | hsame
          · have hlt' := hlt k' hk'
            rw [← hkey, heq] at hlt'
            exact lt_irrefl _ hlt'
          · exact hprev k' (mem_cons_of_mem k hk') (hsame ▸ heq)
        change ((entriesOf l).foldlM (computeStep marshal nowNanos) a).map _ = _
        rw [ih hsorted (fun k' hk' => hne k' (mem_cons_of_mem k hk')) hprevRest, ha]
        cases storeCounters marshal nowNanos l with
        | error e => rfl
        | ok c => exact congrArg ok (add_assoc _ _ _)

theorem exists_of_mem_entriesOf (h : e ∈ entriesOf l) : ∃ k ∈ l, e.key = k.1 := by
  obtain ⟨k, hk, he⟩ := mem_flatMap.mp h
  exact ⟨k, hk, key_of_mem_entries he⟩

theorem MVCCKey.less_empty (k : MVCCKey) (stop : Bytes) :
    k.less ⟨stop, .empty⟩ = true ↔ k.key < stop := by
  have hempty : Timestamp.empty.IsEmpty := rfl
  unfold MVCCKey.less
  rw [← bytesCompare_lt_iff]
  by_cases heq : bytesCompare k.key stop = .eq
  · simp [heq, hempty]
  · simp [heq]

theorem dropWhile_entriesOf (hsorted : l.Pairwise fun a b => a.1 < b.1) :
    (entriesOf l).dropWhile (Entry.before ⟨start, .empty⟩) =
      entriesOf (l.filter fun k => start ≤ k.1) := by
  induction l with
  | nil => rfl
  | cons k l ih =>
    obtain ⟨hlt, hsorted⟩ := pairwise_cons.mp hsorted
    have hbefore : ∀ e : Entry, Entry.before ⟨start, .empty⟩ e = true ↔ e.key < start := by
      intro e
      rw [Entry.before_empty, bytesCompare_lt_iff]
    rcases lt_or_ge k.1 start with hk | hk
    · rw [filter_cons_of_neg (by simpa using hk), ← ih hsorted, entriesOf]
      refine dropWhile_append_of_pos ?_
      intro e he
      rw [hbefore, key_of_mem_entries he]
      exact hk
    · have hkeep : (k :: l).filter (fun k => start ≤ k.1) = k :: l := by
        refine filter_eq_self.mpr ?_
        intro k' hk'
        rcases mem_cons.mp hk' with rfl | hk'
        · exact decide_eq_true hk
        · exact decide_eq_true (hk.trans (hlt k' hk').le)
      rw [hkeep]
      refine dropWhile_eq_self_iff.mpr ?_
      intro hlen hcon
      obtain ⟨k', hk', hkey⟩ := exists_of_mem_entriesOf (getElem_mem hlen)
      rw [hbefore, hkey] at hcon
      have hmem : k' ∈ (k :: l).filter fun k => start ≤ k.1 := by
        rw [hkeep]
        exact hk'
      exact absurd hcon (not_lt.mpr (of_decide_eq_true (mem_filter.mp hmem).2))

theorem takeWhile_entriesOf (hsorted : l.Pairwise fun a b => a.1 < b.1) :
    ((entriesOf l).takeWhile fun e => e.mvccKey.less ⟨stop, .empty⟩) =
      entriesOf (l.filter fun k => k.1 < stop) := by
  induction l with
  | nil => rfl
  | cons k l ih =>
    obtain ⟨hlt, hsorted⟩ := pairwise_cons.mp hsorted
    rcases lt_or_ge k.1 stop with hk | hk
    · rw [filter_cons_of_pos (by simpa using hk), entriesOf, entriesOf, flatMap_cons]
      rw [takeWhile_append_of_pos ?_]
      · exact congrArg _ (ih hsorted)
      · intro e he
        rw [MVCCKey.less_empty]
        exact (key_of_mem_entries he).trans_lt hk
    · have hnone : (k :: l).filter (fun k => k.1 < stop) = [] := by
        refine filter_eq_nil_iff.mpr ?_
        intro k' hk'
        rw [decide_eq_true_eq]
        rcases mem_cons.mp hk' with rfl | hk'
        · exact hk
        · exact hk.trans (hlt k' hk').le
      rw [hnone]
      cases hes : entriesOf (k :: l) with
      | nil => rfl
      | cons e es =>
        obtain ⟨k', hk', hkey⟩ := exists_of_mem_entriesOf (hes ▸ mem_cons_self)
        refine takeWhile_cons_of_neg ?_
        rw [MVCCKey.less_empty]
        intro hcon
        have hmem : k' ∈ (k :: l).filter fun k => k.1 < stop :=
          mem_filter.mpr ⟨hk', decide_eq_true (hkey ▸ hcon)⟩
        rw [hnone] at hmem
        cases hmem

theorem computeStatsForRange_counters (st : KeyStore) (start stop : Bytes) (nowNanos : ℤ) :
    (computeStatsForRange marshal st.entries start stop nowNanos).map counters =
      storeCounters marshal nowNanos
        ((st.keys.filter fun k => start ≤ k.1).filter fun k => k.1 < stop) := by
  have hsorted := st.sorted.filter fun k => start ≤ k.1
  have hsorted' := hsorted.filter fun k => k.1 < stop
  have hne : ∀ k ∈ (st.keys.filter fun k => start ≤ k.1).filter fun k => k.1 < stop,
      k.1 ≠ [] := by
    intro k hk
    exact st.ne_nil k (mem_filter.mp (mem_filter.mp hk).1).1
  have hloop := @foldlM_entriesOf marshal nowNanos _ .initial hsorted' hne
    fun k hk => (hne k hk).symm
  have hzero : ComputeState.initial.ms.counters = 0 := by
    funext c
    cases c <;> rfl
  unfold computeStatsForRange KeyStore.entries
  rw [dropWhile_entriesOf st.sorted, takeWhile_entriesOf hsorted]
  have hmap : ∀ x : Except StatsError ComputeState,
      (x.map fun st => { st.ms with lastUpdateNanos := nowNanos }).map counters =
        x.map fun st => st.ms.counters := by
    intro x
    cases x with
    | error e => rfl
    | ok st' =>
      refine congrArg ok ?_
      funext c
      cases c <;> rfl
  rw [hmap, hloop, hzero]
  cases storeCounters marshal nowNanos
      ((st.keys.filter fun k => start ≤ k.1).filter fun k => k.1 < stop) with
  | error e => rfl
  | ok c => exact congrArg ok (zero_add c)

/-- A key splits a sorted list of keys. -/
theorem keys_split (hsorted : l.Pairwise fun a b => a.1 < b.1) (key : Bytes) :
    ∃ mid, l = l.filter (fun k => k.1 < key) ++ mid ++ l.filter (fun k => key < k.1) ∧
      (mid = [] ∧ (l.find? fun k => k.1 = key) = none ∨
        ∃ s, mid = [(key, s)] ∧ (l.find? fun k => k.1 = key) = some (key, s)) := by
  induction l with
  | nil => exact ⟨[], rfl, .inl ⟨rfl, rfl⟩⟩
  | cons k l ih =>
    obtain ⟨hlt, hsorted⟩ := pairwise_cons.mp hsorted
    rcases lt_trichotomy k.1 key with hk | hk | hk
    · obtain ⟨mid, hl, hmid⟩ := ih hsorted
      have hne : ¬ k.1 = key := hk.ne
      refine ⟨mid, ?_, ?_⟩
      · rw [filter_cons_of_pos (by simpa using hk),
          filter_cons_of_neg (by simpa using hk.le), cons_append, cons_append, ← hl]
      · rw [find?_cons_of_neg (by simpa using hne)]
        exact hmid
    · have hall : l.filter (fun k' => key < k'.1) = l := by
        refine filter_eq_self.mpr ?_
        intro k' hk'
        exact decide_eq_true (hk ▸ hlt k' hk')
      have hnone : l.filter (fun k' => k'.1 < key) = [] := by
        refine filter_eq_nil_iff.mpr ?_
        intro k' hk'
        rw [decide_eq_true_eq]
        exact (hk ▸ hlt k' hk').le
      refine ⟨[k], ?_, .inr ⟨k.2, by rw [← hk], ?_⟩⟩
      · rw [filter_cons_of_neg (by simp [hk]), filter_cons_of_neg (by simp [hk]), hall, hnone]
        rfl
      · rw [find?_cons_of_pos (by simpa using hk), ← hk]
    · have hall : (k :: l).filter (fun k' => key < k'.1) = k :: l := by
        refine filter_eq_self.mpr ?_
        intro k' hk'
        rcases mem_cons.mp hk' with rfl | hk'
        · exact decide_eq_true hk
        · exact decide_eq_true (hk.trans (hlt k' hk'))
      have hge : ∀ k' ∈ k :: l, key < k'.1 := by
        intro k' hk'
        rw [← hall] at hk'
        exact of_decide_eq_true (mem_filter.mp hk').2
      refine ⟨[], ?_, .inl ⟨rfl, ?_⟩⟩
      · have hnone : (k :: l).filter (fun k' => k'.1 < key) = [] :=
          filter_eq_nil_iff.mpr fun k' hk' => by simpa using (hge k' hk').le
        rw [hall, hnone]
        rfl
      · refine find?_eq_none.mpr ?_
        intro k' hk'
        simpa using (hge k' hk').ne'

theorem storeCounters_append (nowNanos : ℤ) (l l' : List (Bytes × KeyState)) :
    storeCounters marshal nowNanos (l ++ l') = storeCounters marshal nowNanos l >>= fun c =>
        (storeCounters marshal nowNanos l').map (c + ·) := by
  induction l with
  | nil =>
    change storeCounters marshal nowNanos l' = (storeCounters marshal nowNanos l').map (0 + ·)
    cases storeCounters marshal nowNanos l' with
    | error e => rfl
    | ok c => exact congrArg ok (zero_add c).symm
  | cons k l ih =>
    rw [cons_append, storeCounters_cons, storeCounters_cons, ih]
    cases keyCounters marshal nowNanos k.1 k.2 with
    | error e => rfl
    | ok c =>
      cases storeCounters marshal nowNanos l with
      | error e => rfl
      | ok c' =>
        cases storeCounters marshal nowNanos l' with
        | error e => rfl
        | ok c'' => exact congrArg ok (add_assoc c c' c'').symm

/-- Replacing one key of a span changes its statistics by those of the key. -/
theorem computeStatsForRange_put {st : KeyStore} {hkey : key ≠ []} {s : KeyState} {b : MVCCStats}
    {c c' : MVCCStats.Counter → ℤ} (hstart : start ≤ key) (hstop : key < stop)
    (hb : computeStatsForRange marshal st.entries start stop nowNanos = .ok b)
    (hc : keyCounters marshal nowNanos key (st.get key) = .ok c)
    (hc' : keyCounters marshal nowNanos key s = .ok c') :
    ∃ a, computeStatsForRange marshal (st.put key hkey s).entries start stop nowNanos = .ok a ∧
      a.counters - b.counters = c' - c := by
  set inRange : List (Bytes × KeyState) → List (Bytes × KeyState) := fun l =>
    (l.filter fun k => start ≤ k.1).filter fun k => k.1 < stop with hin
  have happend : ∀ l l', inRange (l ++ l') = inRange l ++ inRange l' := by
    intro l l'
    simp only [hin, filter_append]
  have hself : ∀ s', inRange [(key, s')] = [(key, s')] := by
    simp [hin, hstart, hstop]
  obtain ⟨mid, hkeys, hmid⟩ := keys_split st.sorted key
  -- The key counts for the same before, whether or not it is in the list.
  have hmidCounters : storeCounters marshal nowNanos (inRange mid) = .ok c := by
    rcases hmid with ⟨rfl, hfind⟩ | ⟨s', rfl, hfind⟩
    · rw [KeyStore.get, hfind] at hc
      have hc0 : c = 0 := by
        refine (ok.inj hc).symm.trans ?_
        funext x
        cases x <;> rfl
      rw [hc0]
      rfl
    · rw [KeyStore.get, hfind] at hc
      rw [hself, storeCounters_cons]
      rw [show keyCounters marshal nowNanos key s' = .ok c from hc]
      exact congrArg ok (add_zero c)
  have hnew : storeCounters marshal nowNanos [(key, s)] = .ok c' := by
    rw [storeCounters_cons, hc']
    exact congrArg ok (add_zero c')
  have hbefore := computeStatsForRange_counters marshal st start stop nowNanos
  have hafter := computeStatsForRange_counters marshal (st.put key hkey s) start stop nowNanos
  change _ = storeCounters marshal nowNanos (inRange st.keys) at hbefore
  rw [hb, hkeys, happend, happend, storeCounters_append, storeCounters_append,
    hmidCounters] at hbefore
  set lo := st.keys.filter fun k => k.1 < key
  set hi := st.keys.filter fun k => key < k.1
  have hput : (st.put key hkey s).keys = lo ++ [(key, s)] ++ hi := by
    rw [append_assoc]
    rfl
  change _ = storeCounters marshal nowNanos (inRange (st.put key hkey s).keys) at hafter
  rw [hput, happend, happend, hself, storeCounters_append, storeCounters_append, hnew] at hafter
  cases hclo : storeCounters marshal nowNanos (inRange lo) with
  | error e =>
    rw [hclo] at hbefore
    cases hbefore
  | ok clo =>
    cases hchi : storeCounters marshal nowNanos (inRange hi) with
    | error e =>
      rw [hclo, hchi] at hbefore
      cases hbefore
    | ok chi =>
      rw [hclo, hchi] at hbefore hafter
      have hbc : b.counters = clo + c + chi := ok.inj hbefore
      obtain ⟨a, ha, hac⟩ := map_eq_ok hafter
      have hac' : a.counters = clo + c' + chi := hac
      refine ⟨a, ha, ?_⟩
      rw [hac', hbc]
      abel

end Cockroach.Storage
