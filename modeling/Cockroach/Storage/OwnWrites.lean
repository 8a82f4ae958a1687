import Cockroach.Storage.IntentInvariant
import Cockroach.Storage.SingleRead

/-! A transaction's writes to one key, its rollbacks to savepoints, its reads and its commit. -/
namespace Cockroach.Storage
open ByteOrder Hlc Scanner List Except
open RankedList (clear clear_cons_self clear_of_lt put_cons_self put_of_lt)
open Timestamp (lessEq_iff less_iff ticks ticks_forward)

/-- The value that a transaction sees: its latest write that is not ignored, or else the committed
version at its read timestamp. -/
noncomputable def visibleValue (base : List (VersionTimestamp × Bytes))
    (writes : List SequencedIntent) (ts : Timestamp) (seq : ℤ)
    (ignored : List IgnoredSeqNumRange) : Option Bytes :=
  match latestWrite writes seq ignored with
  | some w => some w.value
  | none => (base.find? fun v => v.1.1.LessEq ts).map Prod.snd

/-- How far a transaction has come: the state of the key, what it has written there, what it has
rolled back and its sequence number. -/
structure TxnRun where
  state : KeyState
  writes : List SequencedIntent
  ignored : List IgnoredSeqNumRange
  sequence : ℤ

/-- The value of a write, which is given or computed by the write itself. -/
def writtenBy (value : Option Bytes) (valueFn : Option ValueFn) (s : KeyState) : Bytes :=
  match valueFn with
  | none => value.getD []
  | some _ => (s.versions.head?.map Prod.snd).getD []

/-- A write of the transaction at its next sequence number. -/
structure NextWrite (id : BitVec 128) (epoch : ℤ) (r : TxnRun) (t : Transaction) : Prop where
  id_eq : t.id = id
  epoch_eq : t.epoch = epoch
  ignored_eq : t.ignoredSeqNums = r.ignored
  sequence_lt : r.sequence < t.sequence
  read_ne : ¬ t.readTimestamp.IsEmpty
  read_le : t.readTimestamp.LessEq t.writeTimestamp
  write_pos : 0 < t.writeTimestamp.ticks

/-- A savepoint to which the transaction can still roll back: it was not itself rolled back. -/
def SavepointValid (r : TxnRun) (savepoint : ℤ) : Prop :=
  savepoint < r.sequence ∧ ∀ x ∈ r.ignored, x.stop ≤ savepoint ∨ savepoint < x.start

variable (marshal : MVCCMetadata → Bytes) (key : Bytes)

/-- The runs of one epoch of a transaction over a committed base, with a condition on its
writes. -/
inductive OwnRun (allowed : KeyState → Transaction → Prop)
    (base : List (VersionTimestamp × Bytes)) (id : BitVec 128) (epoch : ℤ) : TxnRun → Prop where
  | start (s : KeyState) (sequence : ℤ) : s.intents = [] → s.inline = none → s.versions = base →
      OwnRun allowed base id epoch ⟨s, [], [], sequence⟩
  | advance {r : TxnRun} (sequence : ℤ) : OwnRun allowed base id epoch r → r.sequence ≤ sequence →
      OwnRun allowed base id epoch { r with sequence }
  | write {r : TxnRun} (t : Transaction) (value : Option Bytes) (valueFn : Option ValueFn)
      (p : PutResult) : OwnRun allowed base id epoch r → NextWrite id epoch r t →
      allowed r.state t →
      mvccPutInternal marshal r.state key t.readTimestamp value (some t) valueFn = .ok p →
      OwnRun allowed base id epoch ⟨p.state,
        r.writes ++ [⟨t.sequence, writtenBy value valueFn p.state⟩], r.ignored, t.sequence⟩
  | rollback {r : TxnRun} (savepoint : ℤ) : OwnRun allowed base id epoch r →
      SavepointValid r savepoint → OwnRun allowed base id epoch { r with
        ignored := addIgnoredSeqNumRange r.ignored ⟨savepoint + 1, r.sequence⟩ }

/-- The write does not meet the intent at its clock position with another flag. -/
def KeepsFlag (s : KeyState) (t : Transaction) : Prop := WriteKeepsFlag s (some t)

/-- The writes that are not ignored. -/
def remaining (ignored : List IgnoredSeqNumRange) (writes : List SequencedIntent) :
    List SequencedIntent :=
  writes.filter fun w => ¬ SeqIgnored w.sequence ignored

variable (base : List (VersionTimestamp × Bytes)) (id : BitVec 128) (epoch : ℤ)

/-- The state of the key is a provisional value of the transaction over the base. -/
structure OwnIntent (s : KeyState) (b : VersionedKey) (i : Intent) : Prop where
  key_eq : b.key = key
  intent_eq : b.intent = some i
  older_eq : b.older = base
  intents_eq : s.intents = [(id, i.m)]
  inline_eq : s.inline = none
  versions_eq : s.versions = b.versions
  id_eq : i.txn.id = id
  epoch_eq : i.txn.epoch = epoch
  base_lt : ∀ w ∈ base, w.1.1.ticks < i.m.timestamp.ticks

/-- The state of the key stands for the writes: the last one is the provisional value, and those
before it are in the history unless they are ignored. -/
inductive Represents (ignored : List IgnoredSeqNumRange) : List SequencedIntent → KeyState → Prop
    where
  | clean {s : KeyState} : s.intents = [] → s.inline = none → s.versions = base →
      Represents ignored [] s
  | own {s : KeyState} {b : VersionedKey} {i : Intent} (before : List SequencedIntent) :
      OwnIntent key base id epoch s b i →
      remaining ignored i.m.intentHistory = remaining ignored before →
      Represents ignored (before ++ [⟨i.txn.sequence, b.newest.2⟩]) s

/-- The ranges of the rolled back sequence numbers as the rollbacks leave them. -/
structure ValidRanges (ignored : List IgnoredSeqNumRange) (sequence : ℤ) : Prop where
  sorted : SortedRanges ignored
  start_le : ∀ x ∈ ignored, x.start ≤ x.stop
  stop_le : ∀ x ∈ ignored, x.stop ≤ sequence

structure RunInvariant (r : TxnRun) : Prop where
  represents : Represents key base id epoch r.ignored r.writes r.state
  sequence_le : ∀ w ∈ r.writes, w.sequence ≤ r.sequence
  ranges : ValidRanges r.ignored r.sequence

section Rollback

variable {ignored : List IgnoredSeqNumRange} {savepoint sequence : ℤ}

theorem search_stop_spec (hranges : ValidRanges ignored sequence) (first : ℤ) :
    ∃ i, addIgnoredSeqNumRange ignored ⟨first, sequence⟩ = ignored.take i ++ [⟨first, sequence⟩] ∧
      (∀ x ∈ ignored.take i, x.stop < first) ∧ ∀ x ∈ ignored.drop i, first ≤ x.stop := by
  have hget : ∀ i (hi : i < ignored.length), ignored.getD i ⟨0, 0⟩ = ignored[i] :=
    fun i hi => getD_eq_getElem _ _ hi
  have hmono : ∀ a b, a ≤ b → b < ignored.length →
      decide ((ignored.getD a ⟨0, 0⟩).stop ≥ first) = true →
      decide ((ignored.getD b ⟨0, 0⟩).stop ≥ first) = true := by
    intro a b hab hb ha
    rw [hget b hb, decide_eq_true_eq]
    rw [hget a (by omega), decide_eq_true_eq] at ha
    rcases hab.lt_or_eq with hlt | rfl
    · have hstop := pairwise_iff_getElem.mp hranges.sorted a b (by omega) hb hlt
      have hstart := hranges.start_le _ (getElem_mem hb)
      omega
    · exact ha
  obtain ⟨hlow, hhigh⟩ := Search.search_spec hmono
  refine ⟨Search.search ignored.length fun a => (ignored.getD a ⟨0, 0⟩).stop ≥ first, rfl, ?_, ?_⟩
  · intro x hx
    obtain ⟨i, hi, rfl⟩ := mem_take_iff_getElem.mp hx
    have hi' := hlow i (by omega)
    rw [hget i (by omega), decide_eq_false_iff_not] at hi'
    omega
  · intro x hx
    obtain ⟨i, hi, rfl⟩ := mem_drop_iff_getElem.mp hx
    have hi' := hhigh _ (Nat.le_add_right _ i) (by omega)
    rw [hget _ (by omega), decide_eq_true_eq] at hi'
    exact hi'

theorem ValidRanges.rollback (hranges : ValidRanges ignored sequence) (hlt : savepoint < sequence) :
    ValidRanges (addIgnoredSeqNumRange ignored ⟨savepoint + 1, sequence⟩) sequence := by
  obtain ⟨i, heq, htake, -⟩ := search_stop_spec hranges (savepoint + 1)
  have hmem : ∀ x ∈ addIgnoredSeqNumRange ignored ⟨savepoint + 1, sequence⟩,
      x ∈ ignored ∨ x = ⟨savepoint + 1, sequence⟩ := by
    intro x hx
    rw [heq, mem_append, mem_singleton] at hx
    exact hx.imp mem_of_mem_take id
  constructor
  · rw [heq]
    refine pairwise_append.mpr ⟨hranges.sorted.take, pairwise_singleton _ _, ?_⟩
    intro x hx y hy
    obtain rfl := mem_singleton.mp hy
    exact htake x hx
  · intro x hx
    rcases hmem x hx with hx' | rfl
    · exact hranges.start_le x hx'
    · exact hlt
  · intro x hx
    rcases hmem x hx with hx' | rfl
    · exact hranges.stop_le x hx'
    · exact le_rfl

theorem seqIgnored_rollback (hranges : ValidRanges ignored sequence)
    (hvalid : ∀ x ∈ ignored, x.stop ≤ savepoint ∨ savepoint < x.start) (seq : ℤ) :
    SeqIgnored seq (addIgnoredSeqNumRange ignored ⟨savepoint + 1, sequence⟩) ↔
      SeqIgnored seq ignored ∨ savepoint < seq ∧ seq ≤ sequence := by
  obtain ⟨i, heq, -, hdrop⟩ := search_stop_spec hranges (savepoint + 1)
  rw [heq]
  constructor
  · intro h
    obtain ⟨x, hx, hlow, hhigh⟩ := h
    rcases mem_append.mp hx with hx | hx
    · exact .inl ⟨x, mem_of_mem_take hx, hlow, hhigh⟩
    · obtain rfl := mem_singleton.mp hx
      exact .inr ⟨hlow, hhigh⟩
  · intro h
    have hnew : ∀ seq, savepoint < seq → seq ≤ sequence →
        SeqIgnored seq (ignored.take i ++ [⟨savepoint + 1, sequence⟩]) := by
      intro seq hlow hhigh
      exact ⟨⟨savepoint + 1, sequence⟩, by simp, hlow, hhigh⟩
    rcases h with ⟨x, hx, hlow, hhigh⟩ | ⟨hlow, hhigh⟩
    · rw [← take_append_drop i ignored] at hx
      rcases mem_append.mp hx with hx | hx
      · exact ⟨x, mem_append_left _ hx, hlow, hhigh⟩
      · -- A range that is dropped lies within the new one.
        have hstop := hdrop x hx
        have hmem := mem_of_mem_drop hx
        have hle := hranges.stop_le x hmem
        have hstart := hvalid x hmem
        exact hnew seq (by omega) (by omega)
    · exact hnew seq hlow hhigh

end Rollback

variable {ignored : List IgnoredSeqNumRange}

theorem latestWrite_eq_of_remaining {writes writes' : List SequencedIntent}
    (h : remaining ignored writes = remaining ignored writes') (seq : ℤ) :
    latestWrite writes seq ignored = latestWrite writes' seq ignored := by
  have hfilter : ∀ l : List SequencedIntent,
      (l.filter fun w => w.sequence ≤ seq ∧ ¬ SeqIgnored w.sequence ignored) =
        (remaining ignored l).filter fun w => w.sequence ≤ seq := by
    intro l
    unfold remaining
    rw [filter_filter]
    simp only [Bool.decide_and]
  unfold latestWrite
  rw [hfilter, hfilter, h]

theorem remaining_append (ignored : List IgnoredSeqNumRange) (l l' : List SequencedIntent) :
    remaining ignored (l ++ l') = remaining ignored l ++ remaining ignored l' :=
  filter_append _ _

variable {l : List SequencedIntent} {synthetic : Bool}

theorem remaining_eq_nil : remaining ignored l = [] ↔ ∀ w ∈ l, SeqIgnored w.sequence ignored := by
  simp [remaining, filter_eq_nil_iff]

theorem remaining_mono {ignored' : List IgnoredSeqNumRange} {l' : List SequencedIntent}
    (hmono : ∀ seq, SeqIgnored seq ignored → SeqIgnored seq ignored')
    (h : remaining ignored l = remaining ignored l') :
    remaining ignored' l = remaining ignored' l' := by
  have hfilter : ∀ l, remaining ignored' l = remaining ignored' (remaining ignored l) := by
    intro l
    unfold remaining
    rw [filter_filter]
    apply filter_congr
    intro w _
    rw [Bool.eq_iff_iff]
    simp only [Bool.and_eq_true, decide_eq_true_eq]
    exact ⟨fun hw => ⟨hw, fun hw' => hw (hmono _ hw')⟩, fun hw => hw.1⟩
  rw [hfilter l, hfilter l', h]

theorem readKey_own {o : ScanOptions} {b : VersionedKey} {i : Intent} {t : Transaction} {count : ℕ}
    (hb : b.intent = some i) (hcons : o.inconsistent = false)
    (hown : o.txn.filter (fun t => t.id = i.txn.id) = some t) :
    readKey o count b = readOwnIntent o count b i t := by
  unfold readKey
  rw [hb]
  dsimp only
  rw [hown, hcons, if_neg (by simp), if_neg (by simp)]

section Write

variable {marshal key base id epoch} {s : KeyState} {b : VersionedKey} {i : Intent}

theorem OwnIntent.entries_eq (h : OwnIntent key base id epoch s b i) :
    s.entries b.key = b.records := by
  unfold KeyState.entries VersionedKey.records
  rw [h.intents_eq, h.inline_eq, h.versions_eq, h.intent_eq]
  rfl

theorem OwnIntent.versions_eq_cons (h : OwnIntent key base id epoch s b i) :
    ∃ hts, s.versions = (⟨i.m.timestamp, hts⟩, b.newest.2) :: base := by
  have hprov := b.provisional i h.intent_eq
  have hts : ¬ i.m.timestamp.IsEmpty := hprov ▸ b.newest.1.2
  have hnewest : b.newest = (⟨i.m.timestamp, hts⟩, b.newest.2) :=
    Prod.ext (Subtype.ext hprov.symm) rfl
  refine ⟨hts, ?_⟩
  rw [h.versions_eq, ← h.older_eq, ← hnewest]
  rfl

variable {t : Transaction} {ts : Timestamp}

variable {exVal : Option Bytes} {before : List SequencedIntent}

/-- What is kept of an overwritten intent: every write that is not ignored. -/
theorem OwnIntent.remaining_overwrittenHistory (h : OwnIntent key base id epoch s b i)
    (hkey : key ≠ []) (hid : t.id = id) (hepoch : t.epoch = epoch)
    (hseq : i.txn.sequence < t.sequence)
      (hsorted : SortedRanges t.ignoredSeqNums) {curProvNotIgnored : Bool}
    (hex : existingValue marshal s i.m i.txn key ts t = .ok (exVal, curProvNotIgnored)) :
    remaining t.ignoredSeqNums (overwrittenHistory i.m i.txn t exVal curProvNotIgnored) =
      remaining t.ignoredSeqNums (b.writes i) := by
  have hepoch' : t.epoch = i.txn.epoch := hepoch.trans h.epoch_eq.symm
  have hown : Option.filter (fun t : Transaction => t.id = i.txn.id) (some t) = some t := by
    simp [Option.filter, hid, h.id_eq]
  obtain ⟨own, hownValue, hex⟩ := bind_eq_ok hex
  unfold ownValue at hownValue
  rw [if_pos hepoch'] at hownValue
  unfold VersionedKey.writes
  rw [remaining_append]
  by_cases hignored : txnSeqIsIgnored i.txn.sequence t.ignoredSeqNums = false
  · -- The provisional value counts, and is found as the existing value.
    rw [if_pos hignored] at hownValue
    have hread : readKey (getOptions marshal b.key ts { txn := some t, tombstones := true })
        (maxItersBeforeSeek / 2) b = .read [] (some ⟨b.key, i.m.timestamp, b.newest.2⟩) := by
      rw [readKey_own h.intent_eq rfl hown]
      unfold readOwnIntent
      rw [if_pos hepoch', if_pos ⟨hseq.le, hignored⟩]
    have hget := mvccGet_eq marshal (by rwa [h.key_eq]) h.entries_eq
      (plain_getOptions marshal _ _ _ _ _)
      (by simp) hread (.inr rfl)
    rw [h.key_eq] at hget
    rw [hget] at hownValue
    obtain rfl := ok.inj hownValue
    simp only [shown_some, Shown, or_true, if_true, Option.map_some, Option.isSome_some] at hex
    obtain ⟨rfl, rfl⟩ := Prod.mk.inj (ok.inj hex)
    simp only [overwrittenHistory, hepoch', if_true, MVCCMetadata.addToIntentHistory]
    exact remaining_append _ _ _
  · rw [if_neg hignored] at hownValue
    obtain rfl := ok.inj hownValue
    have hlast : remaining t.ignoredSeqNums [⟨i.txn.sequence, b.newest.2⟩] = [] := by
      rw [remaining_eq_nil]
      intro w hw
      obtain rfl := mem_singleton.mp hw
      rw [← txnSeqIsIgnored_iff hsorted]
      simpa using hignored
    rw [hlast]
    cases exVal with
    | none =>
      -- Without an existing value nothing in the history counts.
      have hnone : latestWrite i.m.intentHistory (t.sequence - 1) t.ignoredSeqNums = none := by
        rw [← getPrevIntentSeq_eq i.history_sorted _ hsorted]
        by_contra hsome
        obtain ⟨e, he⟩ := Option.ne_none_iff_exists'.mp hsome
        simp [he] at hex
        cases hex
      have hall : remaining t.ignoredSeqNums i.m.intentHistory = [] := by
        rw [remaining_eq_nil]
        intro w hw
        have hlt := i.history_lt w hw
        exact latestWrite_eq_none.mp hnone w hw (by omega)
      rw [hall]
      rfl
    | some v =>
      have hprov : curProvNotIgnored = false := by
        split_ifs at hex
        · exact (Prod.mk.inj (ok.inj hex)).2.symm
        · obtain ⟨_, -, hex⟩ := bind_eq_ok hex
          exact (Prod.mk.inj (ok.inj hex)).2.symm
      rw [hprov]
      simp [overwrittenHistory, hepoch']

/-- A write that its transaction finishes above the base. -/
structure AboveBase (base : List (VersionTimestamp × Bytes)) (t : Transaction) (p : PendingWrite) :
    Prop where
  inline_eq : p.state.inline = none
  intents_eq : p.state.intents = [] ∨ ∃ m, p.state.intents = [(t.id, m)]
  versions_eq : p.state.versions = base ∨
    ∃ hts v, p.state.versions = (⟨p.writeTimestamp, hts⟩, v) :: base
  base_lt : ∀ w ∈ base, w.1.1.ticks < p.writeTimestamp.ticks
  ticks_pos : 0 < p.writeTimestamp.ticks
  forward_eq : t.writeTimestamp ≠ p.writeTimestamp →
    t.writeTimestamp.forward p.writeTimestamp = p.writeTimestamp
  history_sorted : Sequenced p.intentHistory
  history_lt : ∀ e ∈ p.intentHistory, e.sequence < t.sequence

theorem versionRank_lt {t s : VersionTimestamp} (h : t.1.ticks < s.1.ticks) :
    versionRank t < versionRank s := by
  have ht := Bool.toNat_le t.1.synthetic
  unfold versionRank engineRank
  omega

variable {p : PendingWrite} {r : PutResult}

theorem AboveBase.ownIntent (h : AboveBase base t p) (hr : finishWrite (some t) p = .ok r) :
    ∃ b i, OwnIntent key base t.id t.epoch r.state b i ∧ i.m.intentHistory = p.intentHistory ∧
      i.txn.sequence = t.sequence ∧ b.newest.2 = p.value.getD [] := by
  obtain ⟨hts, hversions, hintents, hinline⟩ := finishWrite_eq_ok hr
  have hrank : ∀ w ∈ base, versionRank w.1 < versionRank ⟨p.writeTimestamp, hts⟩ :=
    fun w hw => versionRank_lt (h.base_lt w hw)
  have hcons : r.state.versions = (⟨p.writeTimestamp, hts⟩, p.value.getD []) :: base := by
    rw [hversions]
    rcases h.versions_eq with hbase | ⟨_, v, hown⟩
    · rw [hbase, put_of_lt hrank]
    · rw [hown, put_cons_self]
  have hone : r.state.intents = [(t.id, newIntent t p)] := by
    rw [hintents]
    rcases h.intents_eq with hnone | ⟨m, hown⟩
    · rw [hnone]
      rfl
    · rw [hown, put_cons_self]
  let i : Intent := ⟨newIntent t p, _, newIntent_txn h.forward_eq, rfl, h.ticks_pos,
    h.history_sorted, h.history_lt⟩
  let b : VersionedKey := ⟨key, some i, (⟨p.writeTimestamp, hts⟩, p.value.getD []), base,
    hcons ▸ r.state.sorted, by
      intro i' hi'
      obtain rfl := Option.some.inj hi'
      rfl⟩
  exact ⟨b, i, ⟨rfl, rfl, rfl, hone, hinline.trans h.inline_eq, hcons, rfl, rfl, h.base_lt⟩, rfl,
    rfl, rfl⟩

variable {value : Option Bytes} {valueFn : Option ValueFn}

/-- A write over the own intent is above the base, and loses nothing that is not ignored. -/
theorem OwnIntent.overwriteIntent (h : OwnIntent key base id epoch s b i) (hkey : key ≠ [])
    (hid : t.id = id) (hepoch : t.epoch = epoch) (hseq : i.txn.sequence < t.sequence)
    (hsorted : SortedRanges t.ignoredSeqNums) (hflag : SameFlag i.m.timestamp t.writeTimestamp)
    (hp : overwriteIntent marshal s i.m i.txn key ts value t valueFn = .ok (some p)) :
    AboveBase base t p ∧
      remaining t.ignoredSeqNums p.intentHistory = remaining t.ignoredSeqNums (b.writes i) ∧
      ∃ exVal, applyValueFn valueFn value exVal = .ok p.value := by
  obtain ⟨-, ⟨exVal, curProvNotIgnored, hex, hvalue, hhistory⟩, hcases⟩ :=
    overwriteIntent_eq_ok marshal key hp
  obtain ⟨hts, hversions⟩ := h.versions_eq_cons
  obtain ⟨hsorted', hlt⟩ := overwrittenHistory_sorted i.history_sorted i.history_lt
    (fun _ => hseq) exVal curProvNotIgnored
  rw [← hhistory] at hsorted' hlt
  refine ⟨?_, ?_, exVal, hvalue⟩
  · have hone : s.intents = [(t.id, i.m)] := by
      rw [h.intents_eq, hid]
    rcases hcases with ⟨hless, hs', hts'⟩ | ⟨hless, hs', hts'⟩
    · -- The intent moves up and its old version is removed.
      obtain ⟨_, hversions', hintents', hinline'⟩ := clearMVCC_eq_ok hs'
      rw [less_iff] at hless
      have hbase : p.state.versions = base := by
        rw [hversions', hversions, clear_cons_self]
        exact clear_of_lt fun w hw => versionRank_lt (h.base_lt w hw)
      refine ⟨hinline'.trans h.inline_eq, .inr ⟨i.m, hintents'.trans hone⟩, .inl hbase, ?_, ?_,
        fun hne => absurd hts'.symm hne, hsorted', hlt⟩
      · intro w hw
        rw [hts']
        exact (h.base_lt w hw).trans hless
      · rw [hts']
        omega
    · obtain ⟨heq, hforward⟩ := rewriteTimestamp_eq hless hflag
      rw [heq] at hts'
      refine ⟨by rw [hs', h.inline_eq], .inr ⟨i.m, by rw [hs', hone]⟩, .inr ?_, ?_, ?_, ?_,
        hsorted', hlt⟩
      · rw [hs', hts']
        exact ⟨hts, _, hversions⟩
      · rw [hts']
        exact h.base_lt
      · rw [hts']
        exact i.ticks_pos
      · rwa [hts']
  · rw [hhistory]
    exact h.remaining_overwrittenHistory hkey hid hepoch hseq hsorted hex

theorem AboveBase.represents (h : AboveBase base t p) (hr : finishWrite (some t) p = .ok r)
    {valueFn : Option ValueFn} (hvalue : valueFn = none → p.value = value)
    {ignored : List IgnoredSeqNumRange}
    (hhistory : remaining ignored p.intentHistory = remaining ignored before) :
    Represents key base t.id t.epoch ignored
      (before ++ [⟨t.sequence, writtenBy value valueFn r.state⟩]) r.state := by
  obtain ⟨b, i, hown, hhist, hseq, hnewest⟩ := h.ownIntent hr
  have hwritten : writtenBy value valueFn r.state = b.newest.2 := by
    unfold writtenBy
    cases valueFn with
    | none => rw [hnewest, hvalue rfl]
    | some f =>
      rw [hown.versions_eq]
      rfl
  rw [hwritten, ← hseq]
  exact .own before hown (by rwa [hhist])

theorem applyValueFn_none {v : Option Bytes} (h : applyValueFn none value exVal = .ok v) :
    v = value :=
  (ok.inj h).symm

theorem overwriteIntent_eq_none {m : MVCCMetadata} {metaTxn : TxnMeta}
    (h : Storage.overwriteIntent marshal s m metaTxn key ts value t valueFn = .ok none) :
    t.sequence ≤ metaTxn.sequence := by
  unfold Storage.overwriteIntent at h
  by_cases hepoch : t.epoch < metaTxn.epoch
  · rw [if_pos hepoch] at h
    cases h
  rw [if_neg hepoch] at h
  by_cases hreplay : t.epoch = metaTxn.epoch ∧ t.sequence ≤ metaTxn.sequence
  · exact hreplay.2
  rw [if_neg hreplay] at h
  obtain ⟨_, -, h⟩ := bind_eq_ok h
  obtain ⟨_, -, h⟩ := bind_eq_ok h
  by_cases hless : m.timestamp.Less t.writeTimestamp
  · split_ifs at h
    obtain ⟨_, -, h⟩ := bind_eq_ok h
    cases h
  · rw [if_neg hless] at h
    cases h

theorem represents_first (hinline : s.inline = none) (hintents : s.intents = [])
    (hversions : s.versions = base) (hread : t.readTimestamp.LessEq t.writeTimestamp)
    (hpos : 0 < t.writeTimestamp.ticks)
    (h : putVersioned marshal s key t.readTimestamp t.writeTimestamp value (some t) valueFn = .ok r)
    (ignored : List IgnoredSeqNumRange) : Represents key base t.id t.epoch ignored
      ([] ++ [⟨t.sequence, writtenBy value valueFn r.state⟩]) r.state := by
  have hmap : (WithStats.putVersioned marshal s key t.readTimestamp t.writeTimestamp value (some t)
      valueFn .zero).map Prod.fst = .ok r := WithStats.map_putVersioned.trans h
  obtain ⟨r', hr', rfl⟩ := map_eq_ok hmap
  rcases putVersioned_cases marshal key ⟨hinline, .inl hintents⟩ hread hr' with ⟨hne, -⟩ |
    ⟨p, op, happends, hfinish⟩ | ⟨m, t', v, _, _, _, hone, -⟩
  · exact absurd hintents hne
  · obtain ⟨r₁, hr₁, rfl⟩ := map_eq_ok hfinish
    obtain ⟨-, rfl, hhist, hnewest, ⟨exVal, hvalue⟩, hforward⟩ := happends
    have hbase : ∀ w ∈ base, w.1.1.ticks < p.writeTimestamp.ticks := by
      intro w hw
      exact (less_iff _ _).mp (hnewest w (hversions ▸ hw))
    have hpos' : 0 < p.writeTimestamp.ticks := by
      by_cases heq : t.writeTimestamp = p.writeTimestamp
      · rwa [← heq]
      · rw [← hforward heq, ticks_forward]
        omega
    have habove : AboveBase base t p := by
      refine ⟨hinline, .inl hintents, .inl hversions, hbase, hpos', hforward, ?_, ?_⟩
      · rw [hhist]
        exact List.Pairwise.nil
      · simp [hhist]
    refine habove.represents hr₁ ?_ (by rw [hhist])
    intro hnone
    rw [hnone] at hvalue
    exact applyValueFn_none hvalue
  · rw [hintents] at hone
    cases hone

theorem OwnIntent.represents (h : OwnIntent key base id epoch s b i) (hkey : key ≠ [])
    (hid : t.id = id) (hepoch : t.epoch = epoch) (hseq : i.txn.sequence < t.sequence)
    (hsorted : SortedRanges t.ignoredSeqNums) (hflag : SameFlag i.m.timestamp t.writeTimestamp)
    (hbefore : remaining t.ignoredSeqNums i.m.intentHistory = remaining t.ignoredSeqNums before)
    (hput : putVersioned marshal s key t.readTimestamp t.writeTimestamp value (some t) valueFn =
      .ok r) : Represents key base id epoch t.ignoredSeqNums
      ((before ++ [⟨i.txn.sequence, b.newest.2⟩]) ++
        [⟨t.sequence, writtenBy value valueFn r.state⟩]) r.state := by
  have hmeta : s.getMetadata = some i.m := by
    unfold KeyState.getMetadata
    rw [h.intents_eq]
  have hfilter : Option.filter (fun t : Transaction => t.id = i.txn.id) (some t) = some t := by
    simp [Option.filter, hid, h.id_eq]
  unfold putVersioned at hput
  rw [hmeta] at hput
  dsimp only at hput
  rw [i.txn_eq] at hput
  dsimp only at hput
  rw [hfilter] at hput
  obtain ⟨q, hq, hput⟩ := bind_eq_ok hput
  cases q with
  | none =>
    have hle := overwriteIntent_eq_none hq
    omega
  | some p =>
    obtain ⟨habove, hhistory, exVal, hvalue⟩ := h.overwriteIntent hkey hid hepoch hseq hsorted
      hflag hq
    have hlast : remaining t.ignoredSeqNums (b.writes i) =
        remaining t.ignoredSeqNums (before ++ [⟨i.txn.sequence, b.newest.2⟩]) := by
      unfold VersionedKey.writes
      rw [remaining_append, remaining_append, hbefore]
    rw [← hid, ← hepoch]
    refine habove.represents hput ?_ (hhistory.trans hlast)
    intro hnone
    rw [hnone] at hvalue
    exact applyValueFn_none hvalue

theorem putVersioned_of_mvccPutInternal (hread : ¬ t.readTimestamp.IsEmpty)
    (h : mvccPutInternal marshal s key t.readTimestamp value (some t) valueFn = .ok r) :
    key ≠ [] ∧ putVersioned marshal s key t.readTimestamp t.writeTimestamp value (some t) valueFn =
      .ok r := by
  unfold mvccPutInternal at h
  by_cases hkey : key = []
  · rw [if_pos hkey] at h
    cases h
  rw [if_neg hkey] at h
  refine ⟨hkey, ?_⟩
  split at h
  · cases h
  · dsimp only at h
    rwa [if_neg (not_not.mpr rfl)] at h

theorem RunInvariant.write {r : TxnRun} (h : RunInvariant key base id epoch r)
    (ht : NextWrite id epoch r t) (hflag : WriteKeepsFlag r.state (some t)) {p : PutResult}
    (hput : mvccPutInternal marshal r.state key t.readTimestamp value (some t) valueFn = .ok p) :
    RunInvariant key base id epoch ⟨p.state,
      r.writes ++ [⟨t.sequence, writtenBy value valueFn p.state⟩], r.ignored, t.sequence⟩ := by
  obtain ⟨hkey, hput⟩ := putVersioned_of_mvccPutInternal ht.read_ne hput
  have hlt := ht.sequence_lt
  refine ⟨?_, ?_, h.ranges.sorted, h.ranges.start_le, ?_⟩
  · obtain ⟨hrep, hle, hranges⟩ := h
    generalize r.writes = writes at hrep hle
    cases hrep with
    | clean hintents hinline hversions =>
      rw [← ht.id_eq, ← ht.epoch_eq]
      exact represents_first hinline hintents hversions ht.read_le ht.write_pos hput _
    | own before hown hbefore =>
      rename_i b i
      have hseq : i.txn.sequence < t.sequence := (hle _ mem_concat_self).trans_lt hlt
      rw [← ht.ignored_eq] at hbefore hranges ⊢
      refine hown.represents hkey ht.id_eq ht.epoch_eq hseq hranges.sorted ?_ hbefore hput
      refine hflag t rfl (id, i.m) (by simp [hown.intents_eq]) i.txn i.txn_eq ht.id_eq.symm ?_
      exact .inr ⟨hown.epoch_eq.trans ht.epoch_eq.symm, hseq⟩
  · intro w hw
    rcases mem_append.mp hw with hw | hw
    · exact (h.sequence_le w hw).trans hlt.le
    · obtain rfl := mem_singleton.mp hw
      exact le_rfl
  · intro x hx
    exact (h.ranges.stop_le x hx).trans hlt.le

end Write

theorem Represents.rollback {ignored' : List IgnoredSeqNumRange} {writes : List SequencedIntent}
    {s : KeyState} (h : Represents key base id epoch ignored writes s)
    (hmono : ∀ seq, SeqIgnored seq ignored → SeqIgnored seq ignored') :
    Represents key base id epoch ignored' writes s := by
  cases h with
  | clean hintents hinline hversions => exact .clean hintents hinline hversions
  | own before hown hbefore => exact .own before hown (remaining_mono hmono hbefore)

theorem OwnRun.invariant {r : TxnRun} (h : OwnRun marshal key KeepsFlag base id epoch r) :
    RunInvariant key base id epoch r := by
  induction h with
  | start s sequence hintents hinline hversions =>
    exact ⟨.clean hintents hinline hversions, by simp, List.Pairwise.nil, by simp, by simp⟩
  | advance sequence _ hle ih =>
    exact ⟨ih.represents, fun w hw => (ih.sequence_le w hw).trans hle, ih.ranges.sorted,
      ih.ranges.start_le, fun x hx => (ih.ranges.stop_le x hx).trans hle⟩
  | write t value valueFn p _ ht hflag hput ih => exact ih.write ht hflag hput
  | rollback savepoint _ hvalid ih =>
    refine ⟨ih.represents.rollback key base id epoch ?_, ih.sequence_le,
      ih.ranges.rollback hvalid.1⟩
    intro seq hseq
    exact (seqIgnored_rollback ih.ranges hvalid.2 seq).mpr (.inl hseq)

section Read

variable {marshal key base id epoch} {s : KeyState} {b : VersionedKey} {i : Intent}
  {ignored : List IgnoredSeqNumRange} {writes : List SequencedIntent}

theorem map_value_shown (tombstones : Bool) (x : Option ScanResult) :
    (shown tombstones x).map ScanResult.value =
      (x.map ScanResult.value).filter fun v => Shown tombstones v := by
  cases x with
  | none => rfl
  | some r =>
    rw [shown_some]
    split_ifs with h <;> simp [Option.filter, h]

theorem OwnIntent.referenceRead (h : OwnIntent key base id epoch s b i) {t : Transaction}
    (hid : t.id = id) (hepoch : t.epoch = epoch) {before : List SequencedIntent}
    (hbefore : remaining t.ignoredSeqNums i.m.intentHistory = remaining t.ignoredSeqNums before)
    (ts : Timestamp) : ∃ x, b.referenceRead ts (some t) = .read [] x ∧ x.map ScanResult.value =
      visibleValue base (before ++ [⟨i.txn.sequence, b.newest.2⟩]) ts t.sequence
        t.ignoredSeqNums := by
  have hepoch' : t.epoch = i.txn.epoch := hepoch.trans h.epoch_eq.symm
  have hfilter : Option.filter (fun t : Transaction => t.id = i.txn.id) (some t) = some t := by
    simp [Option.filter, hid, h.id_eq]
  have hwrite : b.ownWrite i t = latestWrite (before ++ [⟨i.txn.sequence, b.newest.2⟩]) t.sequence
      t.ignoredSeqNums := by
    unfold VersionedKey.ownWrite VersionedKey.writes
    rw [if_pos hepoch']
    apply latestWrite_eq_of_remaining
    rw [remaining_append, remaining_append, hbefore]
  have hbelow : b.versionBelow i ts = base.find? fun v => v.1.1.LessEq ts := by
    unfold VersionedKey.versionBelow
    rw [h.older_eq]
    apply VersionedKey.find?_congr_of_mem
    intro v hv
    have hlt := h.base_lt v hv
    rw [← less_iff] at hlt
    simp [hlt]
  unfold VersionedKey.referenceRead visibleValue
  rw [h.intent_eq]
  dsimp only
  rw [hfilter]
  dsimp only
  rw [if_neg (by omega), hwrite, hbelow]
  cases latestWrite (before ++ [⟨i.txn.sequence, b.newest.2⟩]) t.sequence t.ignoredSeqNums with
  | some w => exact ⟨_, rfl, rfl⟩
  | none =>
    refine ⟨_, rfl, ?_⟩
    rw [Option.map_map]
    rfl

/-- A read of the transaction shows the value that it should see. -/
theorem Represents.mvccGet_eq (h : Represents key base id epoch ignored writes s) (hkey : key ≠ [])
    {t : Transaction} (hid : t.id = id) (hepoch : t.epoch = epoch)
    (hignored : t.ignoredSeqNums = ignored) (hsorted : SortedRanges ignored) {ts : Timestamp}
    {tombstones : Bool} (hfinds : ∀ b : VersionedKey, b.key = key → s.entries key = b.records →
      ReadFinds (getOptions marshal key ts { tombstones, txn := some t }) b) :
    mvccGet marshal s key ts { tombstones, txn := some t } =
      .ok ((visibleValue base writes ts t.sequence ignored).filter
        fun v => Shown tombstones v) := by
  have htxn : ∀ t' ∈ some t, SortedRanges t'.ignoredSeqNums := by
    intro t' ht'
    obtain rfl := Option.some.inj ht'
    rwa [hignored]
  cases h with
  | clean hintents hinline hversions =>
    subst hversions
    have hentries : s.entries key = s.versions.map fun v => .version key v.1 v.2 := by
      unfold KeyState.entries
      rw [hintents, hinline]
      rfl
    have hnone : latestWrite [] t.sequence ignored = none := latestWrite_eq_none.mpr (by simp)
    unfold visibleValue
    rw [hnone]
    cases hversions : s.versions with
    | nil =>
      rw [hversions] at hentries
      exact mvccGet_of_entries_nil marshal hkey hentries ts tombstones _
    | cons newest older =>
      let b : VersionedKey := ⟨key, none, newest, older, hversions ▸ s.sorted, by simp⟩
      have hs : s.entries b.key = b.records := by
        rw [hentries, hversions]
        rfl
      have href : b.referenceRead ts (some t) = .read [] ((b.versionAt ts).map b.result) := rfl
      rw [mvccGet_of_referenceRead marshal hkey hs htxn (hfinds b rfl hs) href, map_value_shown,
        Option.map_map]
      rfl
  | own before hown hbefore =>
    rename_i b i
    subst hignored
    have hs := hown.entries_eq
    obtain rfl := hown.key_eq
    obtain ⟨x, href, hx⟩ := hown.referenceRead hid hepoch hbefore ts
    rw [mvccGet_of_referenceRead marshal hkey hs htxn (hfinds b rfl hs) href, map_value_shown, hx]

end Read

/-- The versions of a key after a commit: the last write that is not ignored, over the base. -/
def CommittedOver (base : List (VersionTimestamp × Bytes)) (write : Option SequencedIntent)
    (versions : List (VersionTimestamp × Bytes)) : Prop :=
  match write with
  | none => versions = base
  | some w => ∃ ts : VersionTimestamp, versions = (ts, w.value) :: base ∧
      ∀ v ∈ base, v.1.1.ticks < ts.1.ticks

section Commit

variable {marshal key base id epoch} {s : KeyState} {b : VersionedKey} {i : Intent}
  {ignored : List IgnoredSeqNumRange} {writes : List SequencedIntent}

variable {seq : ℤ}

theorem lastNotIgnored_eq {history : List SequencedIntent} (h : Sequenced history)
    (hsorted : SortedRanges ignored) (hle : ∀ w ∈ history, w.sequence ≤ seq) :
    latestWrite history seq ignored = (lastNotIgnored ignored history).map Prod.snd := by
  cases hlast : lastNotIgnored ignored history with
  | none =>
    refine latestWrite_eq_none.mpr ?_
    intro w hw _
    exact (txnSeqIsIgnored_iff hsorted).mp (lastNotIgnored_eq_none hlast w hw)
  | some p =>
    obtain ⟨before, e⟩ := p
    obtain ⟨after, rfl, he, hafter⟩ := lastNotIgnored_eq_some hlast
    have he' : ¬ SeqIgnored e.sequence ignored := by
      rw [← txnSeqIsIgnored_iff hsorted, he]
      simp
    have hnil : (after.filter fun w => w.sequence ≤ seq ∧ ¬ SeqIgnored w.sequence ignored) =
        [] := by
      rw [filter_eq_nil_iff]
      intro w hw
      simp [(txnSeqIsIgnored_iff hsorted).mp (hafter w hw)]
    have hseq := hle e (by simp)
    rw [latestWrite_eq h, filter_append, filter_cons_of_pos (by simp [hseq, he']), hnil]
    simp

variable {ts : Timestamp}

theorem putMVCC_of_pos (hpos : 0 < ts.ticks) (s : KeyState) (v : Bytes) :
    ∃ s' hts, s.putMVCC ts v = .ok s' ∧ s'.intents = s.intents ∧
      s'.versions = RankedList.put versionRank ⟨ts, hts⟩ v s.versions := by
  unfold KeyState.putMVCC
  rw [dif_neg (Timestamp.not_isEmpty_of_ticks_pos hpos)]
  exact ⟨_, _, rfl, rfl, rfl⟩

theorem clearMVCC_of_pos (hpos : 0 < ts.ticks) (s : KeyState) :
    ∃ s' hts, s.clearMVCC ts = .ok s' ∧ s'.intents = s.intents ∧
      s'.versions = clear ⟨ts, hts⟩ s.versions := by
  unfold KeyState.clearMVCC
  rw [dif_neg (Timestamp.not_isEmpty_of_ticks_pos hpos)]
  exact ⟨_, _, rfl, rfl, rfl⟩

variable {u : LockUpdate}

/-- The commit of an intent moves its version to the timestamp of the transaction. -/
theorem updateIntent_commit {iter : KeyState} {m : MVCCMetadata} {t : TxnMeta}
    {hts : ¬ ts.IsEmpty} {v : Bytes} (rolledBackVal : Option Bytes)
    (hiter : (⟨ts, hts⟩, v) ∈ iter.versions)
    (hs : s.versions = (⟨ts, hts⟩, rolledBackVal.getD v) :: base)
    (hbase : ∀ w ∈ base, w.1.1.ticks < ts.ticks) (hpos : 0 < ts.ticks)
    (hle : ts.LessEq u.txn.writeTimestamp) :
    ∃ s', updateIntent iter s u m t ts true rolledBackVal = .ok s' ∧
      s'.intents = clear t.id s.intents ∧
      ∃ ts' : VersionTimestamp, s'.versions = (ts', rolledBackVal.getD v) :: base ∧
        ∀ w ∈ base, w.1.1.ticks < ts'.1.ticks := by
  rw [lessEq_iff] at hle
  unfold updateIntent
  set newTimestamp := (if rolledBackVal.isSome then u.txn.writeTimestamp.forward ts
    else u.txn.writeTimestamp) with hnew
  have hticks : newTimestamp.ticks = u.txn.writeTimestamp.ticks := by
    rw [hnew]
    split_ifs
    · rw [ticks_forward, max_eq_left hle]
    · rfl
  have hback : ¬ newTimestamp.Less ts := by
    rw [less_iff]
    omega
  dsimp only
  rw [if_neg hback, if_pos rfl]
  by_cases hless : ts.Less u.txn.writeTimestamp
  · have hord : ts.EqOrdering ts := ⟨rfl, rfl⟩
    rw [if_pos hless, seekVersion_of_mem hiter]
    dsimp only
    rw [if_neg (not_not.mpr hord)]
    rw [less_iff, ← hticks] at hless
    obtain ⟨s₁, hnew', hput, hintents₁, hversions₁⟩ := putMVCC_of_pos (hpos.trans hless)
      (s.clearIntent t.id) (rolledBackVal.getD v)
    obtain ⟨s₂, hts₂, hclear, hintents₂, hversions₂⟩ := clearMVCC_of_pos hpos s₁
    refine ⟨s₂, ?_, hintents₂.trans hintents₁, ⟨newTimestamp, hnew'⟩, ?_, ?_⟩
    · rw [hput]
      exact hclear
    · have hrank : ∀ w ∈ base, versionRank w.1 < versionRank ⟨ts, hts⟩ :=
        fun w hw => versionRank_lt (hbase w hw)
      have hrank' : versionRank ⟨ts, hts⟩ < versionRank ⟨newTimestamp, hnew'⟩ :=
        versionRank_lt hless
      have hput' : s₁.versions = (⟨newTimestamp, hnew'⟩, rolledBackVal.getD v) :: s.versions := by
        rw [hversions₁]
        apply put_of_lt
        intro w hw
        rcases mem_cons.mp (hs ▸ hw) with rfl | hw'
        · exact hrank'
        · exact (hrank w hw').trans hrank'
      have hne : (⟨newTimestamp, hnew'⟩ : VersionTimestamp) ≠ ⟨ts, hts⟩ := by
        intro heq
        rw [heq] at hrank'
        exact absurd hrank' (lt_irrefl _)
      have hbase' := clear_of_lt hrank
      unfold clear at hbase'
      rw [hversions₂, hput', hs]
      unfold clear
      rw [filter_cons_of_pos (by simpa using hne), filter_cons_of_neg (by simp), hbase']
    · intro w hw
      exact (hbase w hw).trans hless
  · rw [if_neg hless]
    exact ⟨_, rfl, rfl, ⟨ts, hts⟩, hs, hbase⟩

theorem OwnIntent.removeIntent (h : OwnIntent key base id epoch s b i) :
    ∃ s', Storage.removeIntent s i.txn i.m.timestamp = .ok s' ∧ s'.intents = [] ∧
      s'.versions = base := by
  obtain ⟨hts, hversions⟩ := h.versions_eq_cons
  obtain ⟨s₁, hts', hclear, hintents₁, hversions₁⟩ := clearMVCC_of_pos i.ticks_pos s
  obtain ⟨prev, hprev⟩ := Timestamp.exists_prev i.ticks_pos
  refine ⟨s₁.clearIntent i.txn.id, ?_, ?_, ?_⟩
  · unfold Storage.removeIntent
    rw [hclear, hprev]
    rfl
  · change clear i.txn.id s₁.intents = []
    rw [hintents₁, h.intents_eq, h.id_eq, clear_cons_self]
    rfl
  · change s₁.versions = base
    rw [hversions₁, hversions, clear_cons_self]
    exact clear_of_lt fun w hw => versionRank_lt (h.base_lt w hw)

/-- The resolution of the own intent as committed. -/
theorem OwnIntent.resolveIntent (h : OwnIntent key base id epoch s b i)
    (hepoch : u.txn.epoch = epoch) (hstatus : u.status = .committed)
    (hsorted : SortedRanges u.ignoredSeqNums) (hle : i.m.timestamp.LessEq u.txn.writeTimestamp)
    (hseq : i.txn.sequence ≤ seq) :
    ∃ s', Storage.resolveIntent s u i.m i.txn = .ok (s', true) ∧ s'.intents = [] ∧
      CommittedOver base (latestWrite (b.writes i) seq u.ignoredSeqNums) s'.versions := by
  have hcommit : decide (u.status = .committed ∧ i.txn.epoch = u.txn.epoch ∧
      i.m.timestamp.LessEq u.txn.writeTimestamp) = true := by
    rw [decide_eq_true_eq]
    exact ⟨hstatus, h.epoch_eq.trans hepoch.symm, hle⟩
  have hdone : decide (u.status.isFinalized = false ∧ i.txn.epoch ≥ u.txn.epoch) = false := by
    simp [hstatus, Roachpb.TransactionStatus.isFinalized]
  have hnone : clear i.txn.id s.intents = [] := by
    rw [h.intents_eq, h.id_eq, clear_cons_self]
    rfl
  have hhistory : ∀ w ∈ i.m.intentHistory, w.sequence ≤ seq :=
    fun w hw => (i.history_lt w hw).le.trans hseq
  obtain ⟨hts, hversions⟩ := h.versions_eq_cons
  have hmem : (⟨i.m.timestamp, hts⟩, b.newest.2) ∈ s.versions := by
    rw [hversions]
    exact mem_cons_self
  rw [VersionedKey.latestWrite_writes b i seq hsorted]
  unfold Storage.resolveIntent
  dsimp only
  rw [hcommit, hdone]
  by_cases hignored : txnSeqIsIgnored i.txn.sequence u.ignoredSeqNums = false
  · have hroll : mvccMaybeRewriteIntentHistory u.ignoredSeqNums i.m i.txn = .unchanged :=
      if_pos hignored
    obtain ⟨s', hs', hintents', hversions'⟩ := updateIntent_commit (t := i.txn) (m := i.m)
      none hmem hversions h.base_lt i.ticks_pos hle
    have hcounts : seq ≥ i.txn.sequence ∧ txnSeqIsIgnored i.txn.sequence u.ignoredSeqNums = false :=
      ⟨hseq, hignored⟩
    rw [hroll, if_pos hcounts]
    refine ⟨s', ?_, hintents'.trans hnone, hversions'⟩
    rw [if_neg (by simp), hs']
    rfl
  have hcounts : ¬ (seq ≥ i.txn.sequence ∧
      txnSeqIsIgnored i.txn.sequence u.ignoredSeqNums = false) := fun hboth => hignored hboth.2
  rw [if_neg hcounts, lastNotIgnored_eq i.history_sorted hsorted hhistory]
  cases hlast : lastNotIgnored u.ignoredSeqNums i.m.intentHistory with
  | none =>
    have hroll : mvccMaybeRewriteIntentHistory u.ignoredSeqNums i.m i.txn = .remove := by
      unfold mvccMaybeRewriteIntentHistory
      rw [if_neg hignored, hlast]
    obtain ⟨s', hs', hintents', hversions'⟩ := h.removeIntent
    refine ⟨s', ?_, hintents', hversions'⟩
    rw [hroll]
    dsimp only
    rw [hs']
    rfl
  | some p =>
    obtain ⟨before, e⟩ := p
    -- The value of the history entry replaces the provisional one before it is committed.
    obtain ⟨s₁, hts₁, hput, hintents₁, hversions₁⟩ := putMVCC_of_pos i.ticks_pos s e.value
    rw [hversions, put_cons_self] at hversions₁
    unfold mvccMaybeRewriteIntentHistory
    rw [if_neg hignored, hlast]
    dsimp only
    obtain ⟨s', hs', hintents', hversions'⟩ := updateIntent_commit
      (t := { i.txn with sequence := e.sequence }) (m := { i.m with
        txn := some { i.txn with sequence := e.sequence }, intentHistory := before
        deleted := e.value.length = 0, valBytes := e.value.length })
      (some e.value) hmem hversions₁ h.base_lt i.ticks_pos hle
    refine ⟨s', ?_, ?_, hversions'⟩
    · rw [hput]
      dsimp only [bind, Except.bind]
      rw [hs']
      rfl
    · rw [hintents', hintents₁]
      exact hnone

theorem Represents.commit (h : Represents key base id epoch ignored writes s) (hkey : key ≠ [])
    (hid : u.txn.id = id) (hepoch : u.txn.epoch = epoch) (hstatus : u.status = .committed)
    (hignored : u.ignoredSeqNums = ignored) (hsorted : SortedRanges ignored)
    (hts : ∀ i ∈ s.intents, i.2.timestamp.LessEq u.txn.writeTimestamp)
    (hle : ∀ w ∈ writes, w.sequence ≤ seq) :
    ∃ s' found, mvccResolveWriteIntent s key u = .ok (s', found) ∧ s'.intents = [] ∧
      CommittedOver base (latestWrite writes seq ignored) s'.versions := by
  unfold mvccResolveWriteIntent
  rw [if_neg hkey]
  cases h with
  | clean hintents hinline hversions =>
    rw [hintents]
    exact ⟨s, false, rfl, hintents, hversions⟩
  | own before hown hbefore =>
    rename_i b i
    subst hignored
    have hwrites : latestWrite (before ++ [⟨i.txn.sequence, b.newest.2⟩]) seq u.ignoredSeqNums =
        latestWrite (b.writes i) seq u.ignoredSeqNums := by
      apply latestWrite_eq_of_remaining
      unfold VersionedKey.writes
      rw [remaining_append, remaining_append, hbefore]
    have hfind : s.intents.find? (fun i => decide (u.txn.id ≤ i.1)) = some (id, i.m) := by
      rw [hown.intents_eq, hid, find?_cons_of_pos (by simp)]
    obtain ⟨s', hs', hintents', hversions'⟩ := hown.resolveIntent hepoch hstatus hsorted
      (hts (id, i.m) (by simp [hown.intents_eq])) (hle _ mem_concat_self)
    refine ⟨s', true, ?_, hintents', by rwa [hwrites]⟩
    rw [hfind]
    dsimp only
    rw [i.txn_eq]
    dsimp only
    rw [if_neg (not_not.mpr (hid.trans hown.id_eq.symm)), hs']

end Commit

/-- In every run whose writes keep the flag of the intent, a read at a sequence number shows the
latest write that is not ignored, or else the committed base, and a commit leaves just that write
over the base. -/
theorem ownRun_reads_and_commits {r : TxnRun} (hkey : key ≠ [])
    (h : OwnRun marshal key KeepsFlag base id epoch r) :
    (∀ (t : Transaction) (ts : Timestamp) (tombstones : Bool), t.id = id → t.epoch = epoch →
      t.ignoredSeqNums = r.ignored →
      (∀ b : VersionedKey, b.key = key → r.state.entries key = b.records →
        ReadFinds (getOptions marshal key ts { tombstones, txn := some t }) b) →
      mvccGet marshal r.state key ts { tombstones, txn := some t } =
        .ok ((visibleValue base r.writes ts t.sequence r.ignored).filter
          fun v => Shown tombstones v)) ∧
    ∀ u : LockUpdate, u.txn.id = id → u.txn.epoch = epoch → u.status = .committed →
      u.ignoredSeqNums = r.ignored →
      (∀ i ∈ r.state.intents, i.2.timestamp.LessEq u.txn.writeTimestamp) →
      ∃ s' found, mvccResolveWriteIntent r.state key u = .ok (s', found) ∧ s'.intents = [] ∧
        CommittedOver base (latestWrite r.writes r.sequence r.ignored) s'.versions := by
  obtain ⟨hrep, hle, hranges⟩ := h.invariant
  constructor
  · intro t ts tombstones hid hepoch hignored hfinds
    exact hrep.mvccGet_eq hkey hid hepoch hignored hranges.sorted hfinds
  · intro u hid hepoch hstatus hignored hts
    exact hrep.commit hkey hid hepoch hstatus hignored hranges.sorted hts hle

def putState (s : KeyState) (t : Transaction) (value : Bytes) : KeyState :=
  (Call.put t.readTimestamp value (some t)).apply (fun _ => [0]) [1] s

theorem putState_eq {s : KeyState} {t : Transaction} {value : Bytes}
    (h : (mvccPut (fun _ => [0]) s [1] t.readTimestamp (some value) (some t)).isOk = true) :
    ∃ p, mvccPutInternal (fun _ => [0]) s [1] t.readTimestamp (some value) (some t) none = .ok p ∧
      p.state = putState s t value := by
  unfold putState Call.apply
  dsimp only
  cases hput : mvccPut (fun _ => [0]) s [1] t.readTimestamp (some value) (some t) with
  | error e =>
    rw [hput] at h
    cases h
  | ok p => exact ⟨p, hput, rfl⟩

/-- Two writes at one position, the second with the given flag, and a rollback of those after a
savepoint. -/
def writerRun (synthetic : Bool) (savepoint : ℤ) : TxnRun where
  state := putState (putState .initial (writer false 1) [7]) (writer synthetic 2) [8]
  writes := [⟨1, [7]⟩, ⟨2, [8]⟩]
  ignored := [⟨savepoint + 1, 2⟩]
  sequence := 2

theorem nextWrite_writer {r : TxnRun} {sequence : ℤ} (hnone : r.ignored = [])
    (hlt : r.sequence < sequence) : NextWrite 1 0 r (writer synthetic sequence) where
  id_eq := rfl
  epoch_eq := rfl
  ignored_eq := hnone.symm
  sequence_lt := hlt
  read_ne := by simp [writer, Timestamp.isEmpty_iff, ticks]
  read_le := by simp [writer, lessEq_iff, ticks]
  write_pos := by simp [writer, ticks]

theorem ownRun_writerRun {allowed : KeyState → Transaction → Prop}
    {savepoint : ℤ} (hlt : savepoint < 2) (hfirst : allowed .initial (writer false 1))
    (hsecond : allowed (putState .initial (writer false 1) [7]) (writer synthetic 2))
    (hok : (mvccPut (fun _ => [0]) (putState .initial (writer false 1) [7]) [1]
      (writer synthetic 2).readTimestamp (some [8]) (some (writer synthetic 2))).isOk = true) :
    OwnRun (fun _ => [0]) [1] allowed [] 1 0 (writerRun synthetic savepoint) := by
  obtain ⟨p, hp, hstate⟩ := putState_eq
    (show (mvccPut (fun _ => [0]) .initial [1] (writer false 1).readTimestamp (some [7])
      (some (writer false 1))).isOk = true by decide +kernel)
  have h₁ := OwnRun.write (writer false 1) (some [7]) none p
    (.start .initial 0 rfl rfl rfl) (nextWrite_writer rfl (by decide)) hfirst hp
  rw [hstate] at h₁
  obtain ⟨q, hq, hstate'⟩ := putState_eq hok
  have h₂ := OwnRun.write (writer synthetic 2) (some [8]) none q h₁
    (nextWrite_writer rfl (by decide)) hsecond hq
  rw [hstate'] at h₂
  have h₃ := OwnRun.rollback savepoint h₂ ⟨hlt, by simp⟩
  have hignored : addIgnoredSeqNumRange [] ⟨savepoint + 1, 2⟩ = [⟨savepoint + 1, 2⟩] := by
    simp [addIgnoredSeqNumRange]
  simp only [writtenBy, Option.getD_some, nil_append, singleton_append] at h₃
  rw [show (writer synthetic 2).sequence = 2 from rfl, hignored] at h₃
  exact h₃

/-- Two writes with the same flag, of which the second is rolled back. -/
theorem ownRun_writer_rollback :
    let txn : Transaction := { writer false 2 with ignoredSeqNums := [⟨2, 2⟩] }
    mvccGet (fun _ => [0]) (writerRun false 1).state [1] txn.readTimestamp { txn := some txn } =
        .ok ((visibleValue [] [⟨1, [7]⟩, ⟨2, [8]⟩] txn.readTimestamp 2 [⟨2, 2⟩]).filter
          fun v => Shown false v) ∧
      ∃ s' found, mvccResolveWriteIntent (writerRun false 1).state [1]
          ⟨txn.toTxnMeta, .committed, [⟨2, 2⟩]⟩ = .ok (s', found) ∧ s'.intents = [] ∧
        CommittedOver [] (latestWrite [⟨1, [7]⟩, ⟨2, [8]⟩] 2 [⟨2, 2⟩]) s'.versions := by
  intro txn
  have hkeeps : KeepsFlag (putState .initial (writer false 1) [7]) (writer false 2) := by
    have hflag : ∀ i ∈ (putState .initial (writer false 1) [7]).intents,
        i.2.timestamp.synthetic = false := by decide +kernel
    intro t ht i hi _ _ _ _ _
    obtain rfl := Option.some.inj ht
    exact hflag i hi
  have hrun : OwnRun (fun _ => [0]) [1] KeepsFlag [] 1 0 (writerRun false 1) :=
    ownRun_writerRun (by decide) (by simp [KeepsFlag, WriteKeepsFlag, KeyState.initial]) hkeeps
      (by decide +kernel)
  obtain ⟨hreads, hcommits⟩ := ownRun_reads_and_commits (fun _ => [0]) [1] [] 1 0 (by simp) hrun
  have hlen : ((writerRun false 1).state.entries [1]).length ≤ maxItersBeforeSeek / 2 := by
    decide +kernel
  constructor
  · refine hreads txn txn.readTimestamp false rfl rfl rfl ?_
    intro b _ hb ts _
    rw [hb] at hlen
    exact .inl (.inl hlen)
  · refine hcommits ⟨txn.toTxnMeta, .committed, [⟨2, 2⟩]⟩ rfl rfl rfl rfl ?_
    decide +kernel

/-- The flag of the second write differs and both writes are rolled back: after the commit the
value of the first write is there as a committed version. -/
theorem ownRun_writer_stale :
    OwnRun (fun _ => [0]) [1] (fun _ _ => True) [] 1 0 (writerRun true 0) ∧
      latestWrite (writerRun true 0).writes 2 (writerRun true 0).ignored = none ∧
      ∃ s', mvccResolveWriteIntent (writerRun true 0).state [1]
          ⟨(writer true 2).toTxnMeta, .committed, (writerRun true 0).ignored⟩ = .ok (s', true) ∧
        s'.versions.map Prod.snd = [[7]] := by
  refine ⟨ownRun_writerRun (by decide) trivial trivial (by decide +kernel), ?_, ?_⟩
  · rw [latestWrite_eq_none]
    decide
  · have hmap : (mvccResolveWriteIntent (writerRun true 0).state [1]
        ⟨(writer true 2).toTxnMeta, .committed, (writerRun true 0).ignored⟩).map
          (fun p => (p.1.versions.map Prod.snd, p.2)) = .ok ([[7]], true) := by decide +kernel
    obtain ⟨⟨s', found⟩, hs', heq⟩ := map_eq_ok hmap
    obtain ⟨hvalues, rfl⟩ := Prod.mk.inj heq
    exact ⟨s', hs', hvalues⟩

end Cockroach.Storage
