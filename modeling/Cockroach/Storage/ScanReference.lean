import Cockroach.Storage.IntentHistory
import Cockroach.Storage.KeyRead

/-! What a scan should read, key by key, and where the scanner reads something else. -/
namespace Cockroach.Storage
open ByteOrder Hlc Scanner List Option
open Timestamp (eqOrdering_iff lessEq_iff)

namespace VersionedKey

/-- A version of the key as a result. -/
def result (b : VersionedKey) (v : VersionTimestamp × Bytes) : ScanResult := ⟨b.key, v.1.1, v.2⟩

/-- The newest version at or below a timestamp. -/
def versionAt (b : VersionedKey) (ts : Timestamp) : Option (VersionTimestamp × Bytes) :=
  b.versions.find? fun v => v.1.1.LessEq ts

/-- The newest committed version at or below a timestamp and below the intent. -/
def versionBelow (b : VersionedKey) (i : Intent) (ts : Timestamp) :
    Option (VersionTimestamp × Bytes) :=
  b.older.find? fun v => v.1.1.LessEq ts ∧ v.1.1.Less i.m.timestamp

/-- The writes of the transaction of the intent to the key. -/
def writes (b : VersionedKey) (i : Intent) : List SequencedIntent :=
  i.m.intentHistory ++ [⟨i.txn.sequence, b.newest.2⟩]

/-- What a transaction sees of its own writes. -/
noncomputable def ownWrite (b : VersionedKey) (i : Intent) (t : Transaction) :
    Option SequencedIntent :=
  if t.epoch = i.txn.epoch then latestWrite (b.writes i) t.sequence t.ignoredSeqNums else none

/-- The read of one key at a timestamp. -/
noncomputable def referenceRead (ts : Timestamp) (txn : Option Transaction) (b : VersionedKey) :
    KeyRead :=
  match b.intent with
  | none => .read [] ((b.versionAt ts).map b.result)
  | some i =>
    match txn.filter fun t => t.id = i.txn.id with
    | none =>
      if i.m.timestamp.LessEq ts then .read [(b.key, i.m)] none
      else .read [] ((b.versionAt ts).map b.result)
    | some t =>
      if t.epoch < i.txn.epoch then .error (.epoch t.epoch i.txn.epoch)
      else
        match b.ownWrite i t with
        | some w => .read [] (some ⟨b.key, i.m.timestamp, w.value⟩)
        | none => .read [] ((b.versionBelow i ts).map b.result)

/-- The timestamp at which the scanner looks for an older version, if it has to. -/
noncomputable def olderTimestamp (ts : Timestamp) (txn : Option Transaction) (b : VersionedKey) :
    Option Timestamp :=
  match b.intent with
  | none => if b.newest.1.1.LessEq ts then none else some ts
  | some i =>
    match txn.filter fun t => t.id = i.txn.id with
    | none => if i.m.timestamp.LessEq ts then none else some ts
    | some t =>
      if t.epoch < i.txn.epoch ∨ (b.ownWrite i t).isSome then none else some (belowIntent ts i)

theorem sequenced_writes (b : VersionedKey) (i : Intent) : Sequenced (b.writes i) := by
  refine pairwise_append.mpr ⟨i.history_sorted, pairwise_singleton _ _, ?_⟩
  intro w hw w' hw'
  obtain rfl := mem_singleton.mp hw'
  exact i.history_lt w hw

theorem latestWrite_writes (b : VersionedKey) (i : Intent) (seq : ℤ)
    {ignored : List IgnoredSeqNumRange} (h : SortedRanges ignored) :
    latestWrite (b.writes i) seq ignored =
      if seq ≥ i.txn.sequence ∧ txnSeqIsIgnored i.txn.sequence ignored = false then
        some ⟨i.txn.sequence, b.newest.2⟩ else latestWrite i.m.intentHistory seq ignored := by
  have hignored : txnSeqIsIgnored i.txn.sequence ignored = false ↔
      ¬ SeqIgnored i.txn.sequence ignored := by
    rw [← txnSeqIsIgnored_iff h, Bool.not_eq_true]
  rw [latestWrite_eq (b.sequenced_writes i), latestWrite_eq i.history_sorted]
  unfold writes
  simp only [hignored, filter_append]
  split_ifs with hcounts
  · rw [filter_cons_of_pos (by simpa using hcounts)]
    simp
  · rw [filter_cons_of_neg (by simpa using hcounts)]
    simp

variable {b : VersionedKey} {i : Intent} {t : Transaction}

theorem ownWrite_eq_none (h : b.ownWrite i t = none) (hepoch : t.epoch = i.txn.epoch)
    (hsorted : SortedRanges t.ignoredSeqNums) :
    ¬ (t.sequence ≥ i.txn.sequence ∧ txnSeqIsIgnored i.txn.sequence t.ignoredSeqNums = false) ∧
      getFromIntentHistory i.m t.sequence t.ignoredSeqNums = none := by
  unfold ownWrite at h
  rw [latestWrite_writes b i _ hsorted] at h
  split_ifs at h with hcounts
  refine ⟨hcounts, ?_⟩
  rw [getFromIntentHistory_eq i.history_sorted _ hsorted, h, map_none]

variable {o : ScanOptions}

variable {count : ℕ}

theorem readOwnIntent_of_ownWrite {w : SequencedIntent} (h : b.ownWrite i t = some w)
    (hsorted : SortedRanges t.ignoredSeqNums) :
    readOwnIntent o count b i t = .read [] (some ⟨b.key, i.m.timestamp, w.value⟩) := by
  unfold ownWrite at h
  split_ifs at h with hepoch
  rw [latestWrite_writes b i _ hsorted] at h
  unfold readOwnIntent
  split_ifs at h ⊢ with hcounts
  · obtain rfl := some.inj h
    rfl
  · rw [getFromIntentHistory_eq i.history_sorted _ hsorted, h]
    rfl

theorem readOwnIntent_of_none (h : b.ownWrite i t = none) (hepoch : ¬ t.epoch < i.txn.epoch)
    (hsorted : SortedRanges t.ignoredSeqNums) : readOwnIntent o count b i t =
      .read [] ((versionTarget count b (belowIntent o.ts i)).map (toResult o)) := by
  unfold readOwnIntent
  by_cases heq : t.epoch = i.txn.epoch
  · obtain ⟨hcounts, hhist⟩ := ownWrite_eq_none h heq hsorted
    rw [if_pos heq, if_neg hcounts, hhist]
  · rw [if_neg heq, if_neg hepoch]

theorem readKey_of_olderTimestamp_none (hcons : o.inconsistent = false)
    (htxn : ∀ t ∈ o.txn, SortedRanges t.ignoredSeqNums) (h : b.olderTimestamp o.ts o.txn = none)
    (count : ℕ) : readKey o count b = b.referenceRead o.ts o.txn := by
  unfold olderTimestamp at h
  unfold readKey referenceRead
  cases hb : b.intent with
  | none =>
    simp only [hb, ite_eq_left_iff, reduceCtorEq, imp_false, not_not] at h
    rw [if_pos h]
    unfold versionAt versions
    rw [find?_cons_of_pos (by simpa using h)]
    rfl
  | some i =>
    rw [hb] at h
    dsimp only at h ⊢
    rw [hcons]
    cases hown : o.txn.filter fun t => t.id = i.txn.id with
    | none =>
      simp only [hown, ite_eq_left_iff, reduceCtorEq, imp_false, not_not] at h
      simp [h]
    | some t =>
      have hsorted := htxn t (filter_eq_some_iff.mp hown).1
      rw [hown] at h
      dsimp only at h ⊢
      rw [if_neg (by simp), if_neg (by simp)]
      split_ifs at h with hcases
      by_cases hepoch : t.epoch < i.txn.epoch
      · unfold readOwnIntent
        rw [if_neg (by omega), if_pos hepoch, if_pos hepoch]
      · obtain ⟨w, hw⟩ := isSome_iff_exists.mp (hcases.resolve_left hepoch)
        rw [if_neg hepoch, hw, readOwnIntent_of_ownWrite hw hsorted]

theorem ticks_belowIntent (ts : Timestamp) (i : Intent) :
    (belowIntent ts i).ticks = min ts.ticks (i.m.timestamp.ticks - 1) := by
  obtain ⟨t, ht⟩ := Timestamp.exists_prev i.ticks_pos
  have hticks := (Timestamp.prev_eq_some ht).1
  unfold belowIntent
  simp only [lessEq_iff, ht, getD_some]
  split_ifs <;> omega

variable {ts : Timestamp}

theorem olderTimestamp_lt {ts' : Timestamp} {txn : Option Transaction}
    (h : b.olderTimestamp ts txn = some ts') : ts'.ticks < b.newest.1.1.ticks := by
  unfold olderTimestamp at h
  cases hb : b.intent with
  | none =>
    simp only [hb, ite_none_left_eq_some, lessEq_iff, some.injEq] at h
    obtain ⟨hlt, rfl⟩ := h
    omega
  | some i =>
    have hprov := b.provisional i hb
    rw [hb] at h
    dsimp only at h
    split at h
    · simp only [ite_none_left_eq_some, lessEq_iff, some.injEq] at h
      obtain ⟨hlt, rfl⟩ := h
      rw [← hprov]
      omega
    · simp only [ite_none_left_eq_some, some.injEq] at h
      obtain ⟨-, rfl⟩ := h
      have hpos := i.ticks_pos
      rw [ticks_belowIntent, ← hprov]
      omega

theorem find?_records (b : VersionedKey) (p : Entry → Bool) :
    (b.versions.map fun v => Entry.version b.key v.1 v.2).find? p =
      (b.versions.find? fun v => p (.version b.key v.1 v.2)).map
        fun v => .version b.key v.1 v.2 := by
  rw [find?_map]
  rfl

theorem find?_tail_records {p : Entry → Bool}
    (hnewest : p (.version b.key b.newest.1 b.newest.2) = false) :
    b.records.tail.find? p = (b.versions.find? fun v => p (.version b.key v.1 v.2)).map
      fun v => .version b.key v.1 v.2 := by
  rw [← find?_records]
  unfold records
  cases b.intent with
  | some i => rfl
  | none =>
    unfold versions
    rw [toList_none, map_nil, nil_append, map_cons, tail_cons,
      find?_cons_of_neg (by simp [hnewest])]

theorem stepTarget_eq (h : ts.ticks < b.newest.1.1.ticks) :
    stepTarget b ts = (b.versionAt ts).map fun v => .version b.key v.1 v.2 := by
  refine find?_tail_records (decide_eq_false ?_)
  change ¬ b.newest.1.1.LessEq ts
  rw [lessEq_iff]
  omega

theorem versionAt_belowIntent (hb : b.intent = some i) (ts : Timestamp) :
    b.versionAt (belowIntent ts i) = b.versionBelow i ts := by
  have hpos := i.ticks_pos
  have hprov := b.provisional i hb
  unfold versionAt versionBelow versions
  rw [find?_cons_of_neg]
  · congr 1
    funext v
    rw [Bool.eq_iff_iff]
    simp only [decide_eq_true_eq, lessEq_iff, Timestamp.less_iff, ticks_belowIntent]
    omega
  · simp only [decide_eq_true_eq, lessEq_iff, ticks_belowIntent, ← hprov]
    omega

theorem readKey_of_olderTimestamp (hcons : o.inconsistent = false)
    (htxn : ∀ t ∈ o.txn, SortedRanges t.ignoredSeqNums)
    (h : b.olderTimestamp o.ts o.txn = some ts) (count : ℕ) :
    readKey o count b = .read [] ((versionTarget count b ts).map (toResult o)) ∧
      b.referenceRead o.ts o.txn = .read [] ((stepTarget b ts).map (toResult o)) := by
  have hmap : (stepTarget b ts).map (toResult o) = (b.versionAt ts).map b.result := by
    rw [stepTarget_eq (olderTimestamp_lt h), Option.map_map]
    rfl
  rw [hmap]
  unfold olderTimestamp at h
  unfold readKey referenceRead
  cases hb : b.intent with
  | none =>
    simp only [hb, ite_none_left_eq_some, some.injEq] at h
    obtain ⟨hlt, rfl⟩ := h
    rw [if_neg hlt]
    exact ⟨rfl, rfl⟩
  | some i =>
    rw [hb] at h
    dsimp only at h ⊢
    cases hown : o.txn.filter fun t => t.id = i.txn.id with
    | none =>
      simp only [hown, ite_none_left_eq_some, some.injEq] at h
      obtain ⟨hlt, rfl⟩ := h
      simp [hlt]
    | some t =>
      have hsorted := htxn t (filter_eq_some_iff.mp hown).1
      simp only [hown, ite_none_left_eq_some, some.injEq, not_or] at h
      obtain ⟨⟨hepoch, hnone⟩, rfl⟩ := h
      have hnone' : b.ownWrite i t = none := by simpa using hnone
      dsimp only
      rw [hcons, if_neg (by simp), if_neg hepoch, hnone',
        readOwnIntent_of_none hnone' hepoch hsorted, versionAt_belowIntent hb]
      exact ⟨rfl, rfl⟩

theorem before_metadata {m : MVCCMetadata} (hts : ¬ ts.IsEmpty) :
    Entry.before ⟨b.key, ts⟩ (.metadata b.key m) = true :=
  (Entry.before_version hts rfl).mpr (.inl rfl)

theorem before_version_iff (hts : ¬ ts.IsEmpty) (v : VersionTimestamp × Bytes) :
    Entry.before ⟨b.key, ts⟩ (.version b.key v.1 v.2) = true ↔
      engineRank ts < engineRank v.1.1 := by
  rw [Entry.before_version (k := b.key) hts rfl]
  change v.1.1.IsEmpty ∨ engineRank ts < engineRank v.1.1 ↔ _
  simp [v.1.2]

/-- A search that passes over the intent and the versions above a timestamp. -/
theorem find?_not_before (hts : ¬ ts.IsEmpty) (p : Entry → Bool) :
    (b.records.find? fun e => !Entry.before ⟨b.key, ts⟩ e && p e) =
      (b.versions.find? fun v => decide (engineRank v.1.1 ≤ engineRank ts) &&
        p (.version b.key v.1 v.2)).map fun v => .version b.key v.1 v.2 := by
  have hpred : ∀ v : VersionTimestamp × Bytes,
      (!Entry.before ⟨b.key, ts⟩ (.version b.key v.1 v.2)) =
        decide (engineRank v.1.1 ≤ engineRank ts) := by
    intro v
    rw [Bool.eq_iff_iff, Bool.not_eq_true', ← Bool.not_eq_true, before_version_iff hts,
      decide_eq_true_eq, not_lt]
  simp only [← hpred]
  rw [← find?_records b fun e => !Entry.before ⟨b.key, ts⟩ e && p e]
  unfold records
  cases b.intent with
  | none => rfl
  | some i =>
    rw [toList_some, map_singleton, singleton_append,
      find?_cons_of_neg (by simp [before_metadata hts])]

theorem seekTarget_eq (hts : ¬ ts.IsEmpty) :
    seekTarget b ts = (b.versions.find? fun v => engineRank v.1.1 ≤ engineRank ts).map
      fun v => .version b.key v.1 v.2 := by
  simpa [seekTarget] using find?_not_before (b := b) hts fun _ => true

theorem seekTarget_empty (hts : ts.IsEmpty) : seekTarget b ts = b.records.head? := by
  have hts' : ts = .empty := hts
  subst hts'
  unfold seekTarget
  cases hr : b.records with
  | nil => rfl
  | cons e l =>
    have hkey : e.key = b.key := key_of_mem_records (hr ▸ mem_cons_self)
    have hbefore : Entry.before ⟨b.key, .empty⟩ e = false := by
      rw [← Bool.not_eq_true, Entry.before_empty, hkey, bytesCompare_self]
      simp
    rw [find?_cons_of_pos (by simp [hbefore])]
    rfl

end VersionedKey

/-- A value that is not a tombstone, or the reader asks for tombstones. -/
def Shown (tombstones : Bool) (value : Bytes) : Prop := value ≠ [] ∨ tombstones = true

instance (tombstones : Bool) (value : Bytes) : Decidable (Shown tombstones value) :=
  inferInstanceAs (Decidable (_ ∨ _))

/-- What is left of a result if tombstones are taken out. -/
def shown (tombstones : Bool) (r : Option ScanResult) : Option ScanResult :=
  r.filter fun r => Shown tombstones r.value

theorem shown_some (tombstones : Bool) (r : ScanResult) :
    shown tombstones (some r) = if Shown tombstones r.value then some r else none := by
  simp [shown, Option.filter]

/-- A seek without the `Synthetic` flag goes past a version at its clock position that has the
flag, and one of this version and the next one is shown. -/
def SkipsSynthetic (o : ScanOptions) (b : VersionedKey) (ts : Timestamp) : Prop :=
  ∃ newer v older, b.versions = newer ++ v :: older ∧ v.1.1.EqOrdering ts ∧
    v.1.1.synthetic = true ∧ ts.synthetic = false ∧
    (Shown o.tombstones v.2 ∨ ∃ w ∈ older.head?, Shown o.tombstones w.2)

/-- The seek for a version at or below a timestamp lands elsewhere than it should: the empty
timestamp brings it back to the first record of the key. -/
def SeekMisses (o : ScanOptions) (b : VersionedKey) (ts : Timestamp) : Prop :=
  (ts.IsEmpty ∧ ∃ e ∈ b.records.head?, Shown o.tombstones (curValue o e)) ∨ SkipsSynthetic o b ts

namespace VersionedKey

variable {o : ScanOptions} {b : VersionedKey} {ts : Timestamp}

theorem find?_congr_of_mem {α : Type*} {l : List α} {p q : α → Bool} (h : ∀ a ∈ l, p a = q a) :
    l.find? p = l.find? q := by
  induction l with
  | nil => rfl
  | cons a l ih =>
    rw [find?_cons, find?_cons, h a mem_cons_self, ih fun a' ha' => h a' (mem_cons_of_mem a ha')]

theorem seekTarget_eq_stepTarget (hts : ¬ ts.IsEmpty) (hlt : ts.ticks < b.newest.1.1.ticks)
    (h : ∀ v ∈ b.versions, v.1.1.EqOrdering ts → v.1.1.synthetic = true → ts.synthetic = true) :
    seekTarget b ts = stepTarget b ts := by
  rw [seekTarget_eq hts, stepTarget_eq hlt]
  congr 1
  apply find?_congr_of_mem
  intro v hv
  have hflag := h v hv
  rw [eqOrdering_iff] at hflag
  have hvbit := Bool.toNat_le v.1.1.synthetic
  have htbit := Bool.toNat_le ts.synthetic
  rw [Bool.eq_iff_iff, decide_eq_true_eq, decide_eq_true_eq, lessEq_iff]
  unfold engineRank
  constructor
  · intro hrank
    omega
  · intro hticks
    rcases hticks.lt_or_eq with hlt' | heq
    · omega
    · have hle : v.1.1.synthetic.toNat ≤ ts.synthetic.toNat :=
        Bool.toNat_le_toNat (Bool.le_iff_imp.mpr (hflag heq))
      omega

variable {newer older : List (VersionTimestamp × Bytes)} {v : VersionTimestamp × Bytes}

/-- A synthetic version at the clock position is found by stepping and skipped by the seek. -/
theorem targets_of_split (hts : ¬ ts.IsEmpty) (hlt : ts.ticks < b.newest.1.1.ticks)
    (hsplit : b.versions = newer ++ v :: older) (hord : v.1.1.EqOrdering ts)
    (hsyn : v.1.1.synthetic = true) (hreal : ts.synthetic = false) :
    stepTarget b ts = some (.version b.key v.1 v.2) ∧
      seekTarget b ts = older.head?.map fun w => .version b.key w.1 w.2 := by
  have hticks := (eqOrdering_iff _ _).mp hord
  have hsorted : RankedList.Descending versionRank (newer ++ v :: older) := hsplit ▸ b.sorted
  obtain ⟨-, htail, hnewer⟩ := pairwise_append.mp hsorted
  have hvrank : versionRank v.1 = 2 * ts.ticks + 1 := by
    unfold versionRank engineRank
    rw [hticks, hsyn, Bool.toNat_true]
  have hrank : engineRank ts = 2 * ts.ticks := by
    unfold engineRank
    rw [hreal, Bool.toNat_false, add_zero]
  have habove : ∀ w ∈ newer, 2 * ts.ticks + 1 < engineRank w.1.1 := by
    intro w hw
    have hw' := hnewer w hw v mem_cons_self
    rw [hvrank] at hw'
    exact hw'
  constructor
  · rw [stepTarget_eq hlt, versionAt, hsplit, find?_append, find?_cons_of_pos]
    · have hnone : newer.find? (fun w => decide (w.1.1.LessEq ts)) = none := by
        rw [find?_eq_none]
        intro w hw
        have hw' := habove w hw
        have hbit := Bool.toNat_le w.1.1.synthetic
        unfold engineRank at hw'
        rw [decide_eq_true_eq, lessEq_iff]
        omega
      rw [hnone]
      rfl
    · rw [decide_eq_true_eq, lessEq_iff]
      exact hticks.le
  · rw [seekTarget_eq hts, hsplit, find?_append, find?_cons_of_neg]
    · have hnone : newer.find? (fun w => decide (engineRank w.1.1 ≤ engineRank ts)) = none := by
        rw [find?_eq_none]
        intro w hw
        have hw' := habove w hw
        rw [decide_eq_true_eq]
        omega
      rw [hnone]
      congr 1
      cases older with
      | nil => rfl
      | cons w older =>
        have hw : versionRank w.1 < versionRank v.1 := (pairwise_cons.mp htail).1 w
          mem_cons_self
        rw [hvrank] at hw
        rw [find?_cons_of_pos]
        · rfl
        · rw [decide_eq_true_eq, hrank]
          exact Nat.lt_succ_iff.mp hw
    · rw [decide_eq_true_eq, hrank, not_le]
      exact (Nat.lt_succ_self _).trans_eq hvrank.symm

theorem shown_version (v : VersionTimestamp × Bytes) :
    shown o.tombstones (some (toResult o (.version b.key v.1 v.2))) =
      if Shown o.tombstones v.2 then some (toResult o (.version b.key v.1 v.2)) else none := by
  rw [shown_some]
  rfl

theorem shown_eq_none {tombstones : Bool} {r : Option ScanResult} :
    shown tombstones r = none ↔ ∀ x ∈ r, ¬ Shown tombstones x.value := by
  simp [shown, filter_eq_none_iff]

theorem shown_targets_of_split (hts : ¬ ts.IsEmpty) (hlt : ts.ticks < b.newest.1.1.ticks)
    (hsplit : b.versions = newer ++ v :: older) (hord : v.1.1.EqOrdering ts)
    (hsyn : v.1.1.synthetic = true) (hreal : ts.synthetic = false) :
    shown o.tombstones ((seekTarget b ts).map (toResult o)) =
        shown o.tombstones ((stepTarget b ts).map (toResult o)) ↔
      ¬ (Shown o.tombstones v.2 ∨ ∃ w ∈ older.head?, Shown o.tombstones w.2) := by
  obtain ⟨hstep, hseek⟩ := targets_of_split hts hlt hsplit hord hsyn hreal
  have hsorted : RankedList.Descending versionRank (newer ++ v :: older) := hsplit ▸ b.sorted
  have htail := (pairwise_append.mp hsorted).2.1
  rw [hstep, hseek]
  cases older with
  | nil =>
    rw [map_some, shown_version]
    split_ifs with hv
    · simp [shown, hv]
    · simp [shown, hv]
  | cons w older =>
    have hne : toResult o (.version b.key w.1 w.2) ≠ toResult o (.version b.key v.1 v.2) := by
      intro heq
      have hts' : w.1.1 = v.1.1 := congrArg ScanResult.timestamp heq
      exact RankedList.Descending.ne_of_mem htail w mem_cons_self (Subtype.ext hts')
    rw [head?_cons, map_some, map_some, map_some, shown_version, shown_version]
    by_cases hv : Shown o.tombstones v.2 <;> by_cases hw : Shown o.tombstones w.2
    · simp [hv, hw, hne]
    · simp [hv, hw]
    · simp [hv, hw]
    · simp [hv, hw]

theorem shown_seekTarget_eq_iff_of_ne (hts : ¬ ts.IsEmpty) (hlt : ts.ticks < b.newest.1.1.ticks) :
    shown o.tombstones ((seekTarget b ts).map (toResult o)) =
      shown o.tombstones ((stepTarget b ts).map (toResult o)) ↔ ¬ SkipsSynthetic o b ts := by
  constructor
  · rintro heq ⟨newer, v, older, hsplit, hord, hsyn, hreal, hshown⟩
    rw [shown_targets_of_split hts hlt hsplit hord hsyn hreal] at heq
    exact heq hshown
  · intro hskip
    by_cases hex : ∃ v ∈ b.versions, v.1.1.EqOrdering ts ∧ v.1.1.synthetic = true ∧
        ts.synthetic = false
    · obtain ⟨v, hv, hord, hsyn, hreal⟩ := hex
      obtain ⟨newer, older, hsplit⟩ := append_of_mem hv
      rw [shown_targets_of_split hts hlt hsplit hord hsyn hreal]
      intro hshown
      exact hskip ⟨newer, v, older, hsplit, hord, hsyn, hreal, hshown⟩
    · rw [seekTarget_eq_stepTarget hts hlt]
      intro v hv hord hsyn
      by_contra hreal
      exact hex ⟨v, hv, hord, hsyn, by simpa using hreal⟩

theorem shown_seekTarget_eq_iff (hpos : ∀ v ∈ b.versions, 0 < v.1.1.ticks)
    (hlt : ts.ticks < b.newest.1.1.ticks) :
    shown o.tombstones ((seekTarget b ts).map (toResult o)) =
      shown o.tombstones ((stepTarget b ts).map (toResult o)) ↔ ¬ SeekMisses o b ts := by
  unfold SeekMisses
  by_cases hts : ts.IsEmpty
  · have hzero : ts.ticks = 0 := ((Timestamp.isEmpty_iff ts).mp hts).1
    have hnone : stepTarget b ts = none := by
      rw [stepTarget_eq hlt, versionAt, map_eq_none_iff, find?_eq_none]
      intro v hv
      have hv' := hpos v hv
      rw [decide_eq_true_eq, lessEq_iff]
      omega
    have hright : ¬ SkipsSynthetic o b ts := by
      rintro ⟨newer, v, older, hsplit, hord, -⟩
      have hv := hpos v (by simp [hsplit])
      rw [(eqOrdering_iff _ _).mp hord] at hv
      omega
    rw [hnone, map_none, show shown o.tombstones none = none from rfl, shown_eq_none,
      seekTarget_empty hts]
    simp [hts, hright, toResult]
  · simp only [hts, false_and, false_or]
    exact shown_seekTarget_eq_iff_of_ne hts hlt

end VersionedKey
end Cockroach.Storage
