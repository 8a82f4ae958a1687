import Cockroach.Storage.Effects
import Cockroach.Storage.IntentHistory

/-! What the writes and resolutions of a key keep true of its intent. -/
namespace Cockroach.Storage
open ByteOrder Hlc Roachpb List Except Option
open RankedList (clear mem_clear mem_put put)
open Timestamp (eqOrdering_iff lessEq_iff less_iff)

/-- An intent and the versions of its key fit together. -/
structure IntentMatches (versions : List (VersionTimestamp × Bytes)) (m : MVCCMetadata)
    (t : TxnMeta) (v : Bytes) : Prop where
  txn_eq : m.txn = some t
  timestamp_eq : m.timestamp = t.writeTimestamp
  version_mem : ∃ h, (⟨m.timestamp, h⟩, v) ∈ versions
  valBytes_eq : m.valBytes = v.length
  deleted_iff : m.deleted = true ↔ v.length = 0
  newest : ∀ w ∈ versions, w.1.1 ≠ m.timestamp → w.1.1.Less m.timestamp
  history_sorted : m.intentHistory.Pairwise fun a b => a.sequence < b.sequence
  history_lt : ∀ e ∈ m.intentHistory, e.sequence < t.sequence

/-- There is at most one intent, and it matches the versions. -/
def WellFormed (s : KeyState) : Prop :=
  s.inline = none ∧
    (s.intents = [] ∨ ∃ m t v, s.intents = [(t.id, m)] ∧ IntentMatches s.versions m t v)

inductive Call where
  | put (timestamp : Timestamp) (value : Bytes) (txn : Option Transaction)
  | delete (timestamp : Timestamp) (txn : Option Transaction)
  | conditionalPut (timestamp : Timestamp) (value expBytes : Bytes) (allowNoExisting : Bool)
      (txn : Option Transaction)
  | initPut (timestamp : Timestamp) (value : Bytes) (failOnTombstones : Bool)
      (txn : Option Transaction)
  | increment (timestamp : Timestamp) (txn : Option Transaction) (inc : Int64)
  | resolveWriteIntent (intent : LockUpdate)

variable (marshal : MVCCMetadata → Bytes) (key : Bytes)

/-- The state after a call. Only a `WriteTooOldError` leaves the writes of a failed call. -/
def Call.apply (s : KeyState) (c : Call) : KeyState :=
  let put (r : Except MVCCError PutResult) : KeyState :=
    match r with
    | .ok r => r.state
    | .error _ => s
  match c with
  | .put ts value txn => put (mvccPut marshal s key ts (some value) txn)
  | .delete ts txn => put (mvccDelete marshal s key ts txn)
  | .conditionalPut ts value expBytes allowNoExisting txn =>
    put (mvccConditionalPut marshal s key ts (some value) expBytes allowNoExisting txn)
  | .initPut ts value failOnTombstones txn =>
    put (mvccInitPut marshal s key ts (some value) failOnTombstones txn)
  | .increment ts txn inc => put (mvccIncrement marshal s key ts txn inc)
  | .resolveWriteIntent intent =>
    match mvccResolveWriteIntent s key intent with
    | .ok r => r.1
    | .error _ => s

/-- The timestamps of a write are set and the transaction reads at or below its writes. -/
def ValidWrite (timestamp : Timestamp) (txn : Option Transaction) : Prop :=
  ¬ timestamp.IsEmpty ∧
    ∀ t ∈ txn, ¬ t.writeTimestamp.IsEmpty ∧ t.readTimestamp.LessEq t.writeTimestamp

def Call.Valid : Call → Prop
  | .put ts value txn => value ≠ [] ∧ ValidWrite ts txn
  | .delete ts txn => ValidWrite ts txn
  | .conditionalPut ts value _ _ txn => value ≠ [] ∧ ValidWrite ts txn
  | .initPut ts value _ txn => value ≠ [] ∧ ValidWrite ts txn
  | .increment ts txn _ => ValidWrite ts txn
  | .resolveWriteIntent intent => ¬ intent.txn.writeTimestamp.IsEmpty

/-- A transaction does not write over its intent at the same clock position with another flag. -/
def WriteKeepsFlag (s : KeyState) (txn : Option Transaction) : Prop :=
  ∀ t ∈ txn, ∀ i ∈ s.intents, ∀ metaTxn ∈ i.2.txn, i.1 = t.id →
    (metaTxn.epoch < t.epoch ∨ metaTxn.epoch = t.epoch ∧ metaTxn.sequence < t.sequence) →
    SameFlag i.2.timestamp t.writeTimestamp

/-- A rollback to an entry of the history that does not commit comes at a synthetic timestamp if
it is at the clock position of a synthetic intent. -/
def RollbackKeepsFlag (s : KeyState) (intent : LockUpdate) : Prop :=
  ∀ i ∈ s.intents, ∀ t ∈ i.2.txn, i.1 = intent.txn.id →
    txnSeqIsIgnored t.sequence intent.ignoredSeqNums = true →
    (∃ e ∈ i.2.intentHistory, txnSeqIsIgnored e.sequence intent.ignoredSeqNums = false) →
    ¬ (intent.status = .committed ∧ t.epoch = intent.txn.epoch) →
    i.2.timestamp.EqOrdering intent.txn.writeTimestamp →
    i.2.timestamp.synthetic = true → intent.txn.writeTimestamp.synthetic = true

def Call.KeepsFlag (s : KeyState) : Call → Prop
  | .put _ _ txn | .delete _ txn | .conditionalPut _ _ _ _ txn | .initPut _ _ _ txn
  | .increment _ txn _ => WriteKeepsFlag s txn
  | .resolveWriteIntent intent => RollbackKeepsFlag s intent

/-- The states reached by calls that keep the flag of the intent. -/
inductive Reachable : KeyState → Prop where
  | initial : Reachable .initial
  | step {s : KeyState} (c : Call) : Reachable s → c.Valid → c.KeepsFlag s →
      Reachable (c.apply marshal key s)

/-- A value function that never writes an empty value. -/
def Nonempty (f : ValueFn) : Prop := ∀ e v, f e = .ok v → ∃ b, v = some b ∧ b ≠ []

theorem nonempty_conditionalValue {value : Bytes} (h : value ≠ []) (expBytes : Bytes)
    (allowNoExisting : Bool) :
    Nonempty (conditionalValue (some value) expBytes allowNoExisting) := by
  intro e v hv
  unfold conditionalValue at hv
  split_ifs at hv
  · split at hv
    · cases hv
    · split_ifs at hv
      exact ⟨value, (ok.inj hv).symm, h⟩
  · exact ⟨value, (ok.inj hv).symm, h⟩

theorem nonempty_initValue {value : Bytes} (h : value ≠ []) (failOnTombstones : Bool) :
    Nonempty (initValue (some value) failOnTombstones) := by
  intro e v hv
  unfold initValue at hv
  split_ifs at hv
  · split at hv
    · split_ifs at hv
      exact ⟨value, (ok.inj hv).symm, h⟩
    · cases hv
  · exact ⟨value, (ok.inj hv).symm, h⟩

theorem nonempty_incrementValue (inc : Int64) : Nonempty (incrementValue key inc) := by
  intro e v hv
  obtain ⟨i, -, hv⟩ := bind_eq_ok hv
  split_ifs at hv
  refine ⟨_, (ok.inj hv).symm, ?_⟩
  simp [initChecksum, bigEndian]

/-- What is written is not empty unless it is a tombstone. -/
def ProperValue (value : Option Bytes) (valueFn : Option ValueFn) : Prop :=
  (∀ b ∈ value, b ≠ []) ∧ ∀ f ∈ valueFn, Nonempty f

variable {value : Option Bytes} {valueFn : Option ValueFn}

theorem applyValueFn_ne_nil {exVal v : Option Bytes} (hp : ProperValue value valueFn)
    (h : applyValueFn valueFn value exVal = .ok v) : ∀ b ∈ v, b ≠ [] := by
  unfold applyValueFn at h
  split at h
  · obtain rfl := ok.inj h
    exact hp.1
  · rename_i f
    obtain ⟨b, rfl, hb⟩ := hp.2 f rfl _ _ h
    rintro b' ⟨⟩
    exact hb

variable {s : KeyState} {readTimestamp : Timestamp}

theorem maybeGetValue_eq_ok {v : Option Bytes} {exist : Bool}
    (h : maybeGetValue marshal s key value exist readTimestamp valueFn = .ok v) :
    ∃ exVal, applyValueFn valueFn value exVal = .ok v := by
  unfold maybeGetValue at h
  split at h
  · exact ⟨none, h⟩
  · split_ifs at h
    · obtain ⟨exVal, -, h⟩ := bind_eq_ok h
      exact ⟨exVal, h⟩
    · exact ⟨none, h⟩

/-- A write that a transaction may finish: it is above the other versions, it has no intent of
another transaction next to it, and the history is older than its sequence number. -/
structure Permitted (t : Transaction) (p : PendingWrite) : Prop where
  inline_eq : p.state.inline = none
  intents_eq : p.state.intents = [] ∨ ∃ m, p.state.intents = [(t.id, m)]
  newest : ∀ w ∈ p.state.versions, w.1.1 ≠ p.writeTimestamp → w.1.1.Less p.writeTimestamp
  value_ne_nil : ∀ b ∈ p.value, b ≠ []
  forward_eq : t.writeTimestamp ≠ p.writeTimestamp →
    t.writeTimestamp.forward p.writeTimestamp = p.writeTimestamp
  history_sorted : p.intentHistory.Pairwise fun a b => a.sequence < b.sequence
  history_lt : ∀ e ∈ p.intentHistory, e.sequence < t.sequence

variable {p : PendingWrite}

theorem Permitted.intentMatches {t : Transaction} (h : Permitted t p)
    (hts : ¬ p.writeTimestamp.IsEmpty) : ∃ t' : TxnMeta, t'.id = t.id ∧ IntentMatches
      (put versionRank ⟨p.writeTimestamp, hts⟩ (p.value.getD []) p.state.versions)
      (newIntent t p) t' (p.value.getD []) := by
  have hlen : p.value.isNone = true ↔ (p.value.getD []).length = 0 := by
    cases hv : p.value with
    | none => simp
    | some b => simp [h.value_ne_nil b hv]
  have hnew : ∀ w ∈ put versionRank ⟨p.writeTimestamp, hts⟩ (p.value.getD [])
      p.state.versions, w.1.1 ≠ p.writeTimestamp → w.1.1.Less p.writeTimestamp := by
    intro w hw hne
    rcases (mem_put p.state.sorted _ _).mp hw with rfl | ⟨hw', -⟩
    · exact absurd rfl hne
    · exact h.newest w hw' hne
  have hmem : (⟨p.writeTimestamp, hts⟩, p.value.getD []) ∈ put versionRank
      ⟨p.writeTimestamp, hts⟩ (p.value.getD []) p.state.versions :=
    (mem_put p.state.sorted _ _).mpr (.inl rfl)
  exact ⟨{ t.toTxnMeta with writeTimestamp := p.writeTimestamp }, rfl, newIntent_txn h.forward_eq,
    rfl, ⟨hts, hmem⟩, rfl, hlen, hnew, h.history_sorted, h.history_lt⟩

variable {r : PutResult}

theorem Permitted.finishWrite {t : Transaction} (h : Permitted t p)
    (hr : finishWrite (some t) p = .ok r) : WellFormed r.state := by
  obtain ⟨hts, hversions, hintents, hinline⟩ := finishWrite_eq_ok hr
  obtain ⟨t', hid, hmatch⟩ := h.intentMatches hts
  refine ⟨hinline.trans h.inline_eq, .inr ⟨newIntent t p, t', p.value.getD [], ?_, ?_⟩⟩
  · rw [hintents, hid]
    rcases h.intents_eq with h0 | ⟨m, h1⟩
    · simp [h0, put]
    · simp [h1, put]
  · rw [hversions]
    exact hmatch

theorem wellFormed_finishWrite_none (hinline : p.state.inline = none)
    (hintents : p.state.intents = []) (hr : finishWrite none p = .ok r) : WellFormed r.state := by
  obtain ⟨s', hs', rfl⟩ := map_eq_ok hr
  obtain ⟨-, -, hintents', hinline'⟩ := putMVCC_eq_ok hs'
  exact ⟨hinline'.trans hinline, .inl (hintents'.trans hintents)⟩

variable {m : MVCCMetadata}

variable {metaTxn : TxnMeta}

theorem overwrittenHistory_sorted {txn : Transaction}
    (hsorted : m.intentHistory.Pairwise fun a b => a.sequence < b.sequence)
    (hlt : ∀ e ∈ m.intentHistory, e.sequence < metaTxn.sequence)
    (hseq : txn.epoch = metaTxn.epoch → metaTxn.sequence < txn.sequence) (exVal : Option Bytes)
    (curProvNotIgnored : Bool) :
    ((overwrittenHistory m metaTxn txn exVal curProvNotIgnored).Pairwise
        fun a b => a.sequence < b.sequence) ∧
      ∀ e ∈ overwrittenHistory m metaTxn txn exVal curProvNotIgnored,
        e.sequence < txn.sequence := by
  unfold overwrittenHistory
  split
  · simp
  split_ifs with hepoch hprov
  · have hseq' := hseq hepoch
    constructor
    · refine pairwise_append.mpr ⟨hsorted, pairwise_singleton _ _, ?_⟩
      intro a ha b hb
      obtain rfl := mem_singleton.mp hb
      exact hlt a ha
    · intro e he
      rcases mem_append.mp he with he | he
      · exact (hlt e he).trans hseq'
      · obtain rfl := mem_singleton.mp he
        exact hseq'
  · refine ⟨hsorted, ?_⟩
    intro e he
    exact (hlt e he).trans (hseq hepoch)
  · simp

variable {v : Bytes}

/-- A transaction that overwrites its own intent may finish its write. Where the intent stays at
its clock position, the flag must be the same for the new version to replace the old one. -/
theorem overwriteIntent_permitted {txn : Transaction} (hp : ProperValue value valueFn)
    (hinline : s.inline = none) (hintents : s.intents = [(metaTxn.id, m)])
    (hmatch : IntentMatches s.versions m metaTxn v) (hid : txn.id = metaTxn.id)
    (hflag : (metaTxn.epoch < txn.epoch ∨
      metaTxn.epoch = txn.epoch ∧ metaTxn.sequence < txn.sequence) →
      SameFlag m.timestamp txn.writeTimestamp)
    (h : overwriteIntent marshal s m metaTxn key readTimestamp value txn valueFn = .ok (some p)) :
    Permitted txn p := by
  obtain ⟨hlater, ⟨exVal, curProvNotIgnored, -, hvalue, hhistory⟩, hcases⟩ :=
    overwriteIntent_eq_ok marshal key h
  have hne := applyValueFn_ne_nil hp hvalue
  obtain ⟨hsorted, hlt⟩ := overwrittenHistory_sorted hmatch.history_sorted hmatch.history_lt
    (show txn.epoch = metaTxn.epoch → metaTxn.sequence < txn.sequence by omega) exVal
    curProvNotIgnored
  rw [← hhistory] at hsorted hlt
  have hone : s.intents = [(txn.id, m)] := by
    rw [hintents, hid]
  rcases hcases with ⟨hless, hs', hts⟩ | ⟨hless, hs', hts⟩
  · -- The intent moves up and its old version is removed.
    obtain ⟨_, hversions, hintents', hinline'⟩ := clearMVCC_eq_ok hs'
    refine ⟨hinline'.trans hinline, .inr ⟨m, hintents'.trans hone⟩, ?_, hne, ?_, hsorted, hlt⟩
    · intro w hw _
      obtain ⟨hw', hother⟩ := mem_clear.mp (hversions ▸ hw)
      have hbelow := hmatch.newest w hw' fun heq => hother (Subtype.ext heq)
      rw [less_iff] at hless hbelow ⊢
      rw [hts]
      exact hbelow.trans hless
    · intro hneq
      exact absurd hts.symm hneq
  · obtain ⟨heq, hforward⟩ := rewriteTimestamp_eq hless (hflag hlater)
    rw [heq] at hts
    refine ⟨by rw [hs', hinline], .inr ⟨m, by rw [hs', hone]⟩, ?_, hne, ?_, hsorted, hlt⟩
    · intro w hw hw'
      rw [hts] at hw' ⊢
      rw [hs'] at hw
      exact hmatch.newest w hw hw'
    · rwa [hts]

/-- A write above all versions of a key without an intent. -/
structure Appends (s : KeyState) (writeTimestamp : Timestamp) (value : Option Bytes)
    (valueFn : Option ValueFn) (p : PendingWrite) : Prop where
  intents_eq : s.intents = []
  state_eq : p.state = s
  history_eq : p.intentHistory = []
  newest : ∀ w ∈ s.versions, w.1.1.Less p.writeTimestamp
  value_eq : ∃ exVal, applyValueFn valueFn value exVal = .ok p.value
  forward_eq : writeTimestamp ≠ p.writeTimestamp →
    writeTimestamp.forward p.writeTimestamp = p.writeTimestamp

theorem Appends.permitted {t : Transaction} (h : Appends s t.writeTimestamp value valueFn p)
    (hinline : s.inline = none) (hp : ProperValue value valueFn) : Permitted t p := by
  obtain ⟨exVal, hvalue⟩ := h.value_eq
  refine ⟨by rw [h.state_eq, hinline], .inl (by rw [h.state_eq, h.intents_eq]), ?_,
    applyValueFn_ne_nil hp hvalue, h.forward_eq, ?_, ?_⟩
  · intro w hw _
    rw [h.state_eq] at hw
    exact h.newest w hw
  · rw [h.history_eq]
    exact List.Pairwise.nil
  · simp [h.history_eq]

variable {txn : Option Transaction} {writeTimestamp : Timestamp} {ms : MVCCStats}
  {r : PutResult × Effects}

/-- A versioned write that succeeds does nothing, as a replay, or it is finished above the versions
of the key or over an intent of its transaction. -/
theorem putVersioned_cases (hs : WellFormed s) (hle : readTimestamp.LessEq writeTimestamp)
    (h : WithStats.putVersioned marshal s key readTimestamp writeTimestamp value txn valueFn ms
      = .ok r) : let sizes := s.metadataSizes marshal key
    (s.intents ≠ [] ∧ r = ({ state := s }, ⟨ms, []⟩)) ∨
      (∃ p op, Appends s writeTimestamp value valueFn p ∧ WithStats.finishWrite marshal key txn p
        ⟨s.getMetadata, sizes.1, sizes.2, 0⟩ op ms = .ok r) ∨
      ∃ m t v txn' p op, s.intents = [(t.id, m)] ∧ IntentMatches s.versions m t v ∧
        txn = some txn' ∧ txn'.id = t.id ∧
        overwriteIntent marshal s m t key readTimestamp value txn' valueFn = .ok (some p) ∧
        WithStats.finishWrite marshal key (some txn') p ⟨some m, sizes.1, sizes.2,
          if m.timestamp.Less txn'.writeTimestamp then valueSize (s.nextVersion m.timestamp)
          else 0⟩ op ms = .ok r := by
  obtain ⟨hinline, hintents⟩ := hs
  unfold WithStats.putVersioned at h
  cases hmeta : s.getMetadata with
  | none =>
    -- The key was never written.
    rw [hmeta] at h
    obtain ⟨hnone, hversions⟩ := getMetadata_eq_none hmeta
    obtain ⟨v, hv, h⟩ := bind_eq_ok h
    exact .inr (.inl ⟨_, _, ⟨hnone, rfl, rfl, by simp [hversions], ⟨none, hv⟩,
      fun hne => absurd rfl hne⟩, h⟩)
  | some m =>
    rw [hmeta] at h
    dsimp only at h
    rcases hintents with hnone | ⟨m', t', v, hone, hmatch⟩
    · -- The newest version is committed.
      obtain ⟨hmtxn, hhistory, hnewest⟩ := ticks_le_of_getMetadata hinline hnone hmeta
      rw [hmtxn] at h
      obtain ⟨p, hpending, h⟩ := bind_eq_ok h
      obtain ⟨hstate, hhist, hless, hforward, _, hvalue, -⟩ :=
        overwriteCommitted_eq_ok marshal key hle hpending
      refine .inr (.inl ⟨p, _, ⟨hnone, hstate, hhist.trans hhistory, ?_,
        maybeGetValue_eq_ok marshal key hvalue, hforward⟩, h⟩)
      intro w hw
      rw [less_iff] at hless ⊢
      exact (hnewest w hw).trans_lt hless
    · -- There is an intent, which only its own transaction overwrites.
      obtain rfl : m' = m := by
        rw [KeyState.getMetadata, hone] at hmeta
        exact some.inj hmeta
      rw [hmatch.txn_eq] at h
      dsimp only at h
      split at h
      · cases h
      rename_i t hfilter
      obtain ⟨rfl, hid⟩ := filter_eq_some_iff.mp hfilter
      obtain ⟨o, ho, h⟩ := bind_eq_ok h
      cases o with
      | none => exact .inl ⟨by simp [hone], (ok.inj h).symm⟩
      | some p =>
        exact .inr (.inr ⟨m', t', v, t, p, _, hone, hmatch, rfl, by simpa using hid, ho, h⟩)

/-- A versioned write keeps the state of the key well formed. -/
theorem wellFormed_putVersioned (hs : WellFormed s) (hp : ProperValue value valueFn)
    (hle : readTimestamp.LessEq writeTimestamp)
    (htxn : ∀ t ∈ txn, t.writeTimestamp = writeTimestamp) (hflag : WriteKeepsFlag s txn)
    (h : WithStats.putVersioned marshal s key readTimestamp writeTimestamp value txn valueFn ms
      = .ok r) : WellFormed r.1.state := by
  rcases putVersioned_cases marshal key hs hle h with ⟨-, rfl⟩ | ⟨p, op, happends, hfinish⟩ |
    ⟨m, t, v, txn', p, op, hone, hmatch, rfl, hid, hpending, hfinish⟩
  · exact hs
  · obtain ⟨r', hr', rfl⟩ := map_eq_ok hfinish
    cases txn with
    | none =>
      rw [← happends.state_eq] at hs
      exact wellFormed_finishWrite_none hs.1 (by rw [happends.state_eq, happends.intents_eq]) hr'
    | some t =>
      rw [← htxn t rfl] at happends
      exact (happends.permitted hs.1 hp).finishWrite hr'
  · obtain ⟨r', hr', rfl⟩ := map_eq_ok hfinish
    have hsame := hflag txn' rfl (t.id, m) (by simp [hone]) t hmatch.txn_eq hid.symm
    exact (overwriteIntent_permitted marshal key hp hs.1 hone hmatch hid hsame
      hpending).finishWrite hr'

variable {t : TxnMeta}

variable {versions : List (VersionTimestamp × Bytes)} {ts : Timestamp}

theorem IntentMatches.move (h : IntentMatches versions m t v)
    (hsorted : RankedList.Descending versionRank versions) (hless : m.timestamp.Less ts)
    (h0 : ¬ m.timestamp.IsEmpty) (hts : ¬ ts.IsEmpty) :
    IntentMatches (clear ⟨m.timestamp, h0⟩
        (put versionRank ⟨ts, hts⟩ v versions))
      { m with timestamp := ts, txn := some { t with writeTimestamp := ts } }
      { t with writeTimestamp := ts } v := by
  rw [less_iff] at hless
  have hne : ts ≠ m.timestamp := by
    rintro rfl
    omega
  refine ⟨rfl, rfl, ⟨hts, ?_⟩, h.valBytes_eq, h.deleted_iff, ?_, h.history_sorted, h.history_lt⟩
  · refine mem_clear.mpr ⟨(mem_put hsorted _ _).mpr (.inl rfl), ?_⟩
    intro heq
    exact hne (congrArg Subtype.val heq)
  · intro w hw hw'
    obtain ⟨hput, hother⟩ := mem_clear.mp hw
    rcases (mem_put hsorted _ _).mp hput with rfl | ⟨hmem, -⟩
    · exact absurd rfl hw'
    · have hbelow := h.newest w hmem fun heq => hother (Subtype.ext heq)
      rw [less_iff] at hbelow ⊢
      exact hbelow.trans hless

variable {ignored : List IgnoredSeqNumRange}

theorem IntentMatches.restore (h : IntentMatches versions m t v)
    (hsorted : RankedList.Descending versionRank versions) (h0 : ¬ m.timestamp.IsEmpty)
    {before : List SequencedIntent} {e : SequencedIntent}
    (hlast : lastNotIgnored ignored m.intentHistory = some (before, e)) :
    IntentMatches (put versionRank ⟨m.timestamp, h0⟩ e.value versions)
      { m with
        txn := some { t with sequence := e.sequence }, intentHistory := before,
        deleted := e.value.length = 0, valBytes := e.value.length }
      { t with sequence := e.sequence } e.value := by
  obtain ⟨after, hhistory, -, -⟩ := lastNotIgnored_eq_some hlast
  have hpairs := h.history_sorted
  rw [hhistory, pairwise_append] at hpairs
  refine ⟨rfl, h.timestamp_eq, ⟨h0, (mem_put hsorted _ _).mpr (.inl rfl)⟩, rfl,
    by simp, ?_, hpairs.1, ?_⟩
  · intro w hw hw'
    rcases (mem_put hsorted _ _).mp hw with rfl | ⟨hmem, -⟩
    · exact absurd rfl hw'
    · exact h.newest w hmem hw'
  · intro e' he'
    exact hpairs.2.2 e' he' e mem_cons_self

variable {s' : KeyState}

theorem wellFormed_removeIntent (hinline : s.inline = none) (hintents : s.intents = [(t.id, m)])
    (h : removeIntent s t ts = .ok s') : WellFormed s' := by
  obtain ⟨-, -, hintents', hinline'⟩ := removeIntent_eq_ok h
  refine ⟨hinline'.trans hinline, .inl ?_⟩
  simp [hintents', hintents, clear]

variable {intent : LockUpdate}

/-- An update of the one intent of a key, which has its version at `w` before and at `v` after a
rollback. -/
theorem wellFormed_updateIntent {iter : KeyState} {m₀ : MVCCMetadata} {w : Bytes} {commit : Bool}
    {rolledBackVal : Option Bytes} (hinline : s.inline = none)
    (hintents : s.intents = [(t.id, m₀)]) (hmatch : IntentMatches s.versions m t v)
    (hseek : ∃ h, (⟨m.timestamp, h⟩, w) ∈ iter.versions) (hvalue : rolledBackVal.getD w = v)
    (hmoves : commit = false → rolledBackVal = none → m.timestamp.Less intent.txn.writeTimestamp)
    (hflag : commit = false → rolledBackVal.isSome →
      m.timestamp.EqOrdering intent.txn.writeTimestamp →
      m.timestamp.synthetic = true → intent.txn.writeTimestamp.synthetic = true)
    (h : updateIntent iter s intent m t m.timestamp commit rolledBackVal = .ok s') :
    WellFormed s' := by
  obtain ⟨ts, hts, hinline', hintents', hversions⟩ := updateIntent_eq_ok hseek h
  refine ⟨hinline'.trans hinline, ?_⟩
  cases commit with
  | true =>
    left
    simp [hintents', hintents, clear]
  | false =>
    right
    have hone : s'.intents = [(t.id, { m with
        timestamp := ts, txn := some { t with writeTimestamp := ts } })] := by
      simp [hintents', hintents, put]
    rcases hversions with ⟨hless, h0, hne, hversions⟩ | ⟨hless, hversions⟩
    · have hticks := (less_iff _ _).mp hless
      have hts' : ts = intent.txn.writeTimestamp := by
        rw [hts, Timestamp.forward_of_gt hticks, ite_self]
      refine ⟨_, { t with writeTimestamp := ts }, v, hone, ?_⟩
      rw [hversions, hvalue]
      exact hmatch.move s.sorted (hts' ▸ hless) h0 hne
    · -- A rollback that leaves the intent at its timestamp.
      have hsome : rolledBackVal.isSome = true := by
        by_contra hnone
        exact hless (hmoves rfl (by simpa using hnone))
      have hts' : ts = m.timestamp := by
        rw [less_iff] at hless
        rw [hts, if_pos hsome]
        rcases lt_or_eq_of_le (not_lt.mp hless) with hlt | heq
        · exact Timestamp.forward_of_lt hlt
        · have hord := (eqOrdering_iff _ _).mpr heq.symm
          rw [Timestamp.forward_of_eq heq]
          refine Timestamp.ext_ticks heq ?_
          cases hm : m.timestamp.synthetic <;> simp_all
      refine ⟨m, t, v, ?_, hversions ▸ hmatch⟩
      have ht : ({ t with writeTimestamp := m.timestamp } : TxnMeta) = t := by
        rw [hmatch.timestamp_eq]
      rw [hone, hts', ht, ← hmatch.txn_eq]

theorem restored_of_ignored {m' : MVCCMetadata} {t' : TxnMeta} {value : Bytes}
    (h : mvccMaybeRewriteIntentHistory ignored m t = .restored m' t' value) :
    txnSeqIsIgnored t.sequence ignored = true ∧
      ∃ e ∈ m.intentHistory, txnSeqIsIgnored e.sequence ignored = false := by
  obtain ⟨before, e, hlast, -⟩ := rewrite_eq_restored h
  obtain ⟨after, hhistory, hkept, -⟩ := lastNotIgnored_eq_some hlast
  refine ⟨?_, e, by simp [hhistory], hkept⟩
  unfold mvccMaybeRewriteIntentHistory at h
  split_ifs at h with hignored
  simpa using hignored

variable {r : (KeyState × Effects) × Bool}

/-- A resolution that succeeds does nothing, or it removes the intent, or moves or commits it, as
it is or with an earlier value. -/
theorem resolveWriteIntent_cases (hs : WellFormed s)
    (h : WithStats.mvccResolveWriteIntent marshal s key intent ms = .ok r) :
    r = ((s, ⟨ms, []⟩), false) ∨
      ∃ m t v, s.intents = [(t.id, m)] ∧ IntentMatches s.versions m t v ∧ t.id = intent.txn.id ∧
        let sizes : ℤ × ℤ := ((MVCCKey.mk key .empty).encodedSize, (marshal m).length)
        let commit := intent.commits t m.timestamp
        let pushed := intent.pushes t m.timestamp
        (WithStats.Removes intent m t ∧
            WithStats.removeIntent s key intent m t m.timestamp sizes ms = .ok r.1) ∨
          ((commit = true ∨ pushed = true) ∧ WithStats.updateIntent marshal s s key intent m t
            m.timestamp commit pushed none sizes ms = .ok r.1) ∨
          ∃ m' t' value s', mvccMaybeRewriteIntentHistory intent.ignoredSeqNums m t =
              .restored m' t' value ∧ s.putMVCC m.timestamp value = .ok s' ∧
            IntentMatches s'.versions m' t' value ∧ WithStats.updateIntent marshal s s' key intent
              m' t' m.timestamp commit pushed (some value) sizes ms = .ok r.1 := by
  rcases WithStats.mvccResolveWriteIntent_cases h with hsame | ⟨i, hi, t, ht, hid, hcases⟩
  · exact .inl hsame
  obtain ⟨-, hnone | ⟨m, t₀, v, hone, hmatch⟩⟩ := hs
  · simp [hnone] at hi
  obtain rfl : i = (t₀.id, m) := by simpa [hone] using hi
  obtain rfl := some.inj (ht.symm.trans hmatch.txn_eq)
  refine .inr ⟨m, t, v, hone, hmatch, hid, ?_⟩
  rcases hcases with hremove | ⟨-, hupdate⟩ | ⟨m', t', value, s', hrestored, hput, hupdate⟩
  · exact .inl hremove
  · exact .inr (.inl hupdate)
  · refine .inr (.inr ⟨m', t', value, s', hrestored, hput, ?_, hupdate⟩)
    obtain ⟨before, e, hlast, rfl, rfl, rfl⟩ := rewrite_eq_restored hrestored
    obtain ⟨h0, hversions, -, -⟩ := putMVCC_eq_ok hput
    rw [hversions]
    exact hmatch.restore s.sorted h0 hlast

/-- A resolution keeps the state of the key well formed. -/
theorem wellFormed_mvccResolveWriteIntent (hs : WellFormed s) (hflag : RollbackKeepsFlag s intent)
    (h : WithStats.mvccResolveWriteIntent marshal s key intent ms = .ok r) : WellFormed r.1.1 := by
  rcases resolveWriteIntent_cases marshal key hs h with rfl | ⟨m, t, v, hone, hmatch, hid, hcases⟩
  · exact hs
  have hseek := hmatch.version_mem
  rcases hcases with ⟨-, hremove⟩ | ⟨hopen, hupdate⟩ |
    ⟨m', t', value, s', hrestored, hput, hmatch', hupdate⟩
  · obtain ⟨s', hs', hr⟩ := map_eq_ok hremove
    rw [← hr]
    exact wellFormed_removeIntent hs.1 hone hs'
  · refine wellFormed_updateIntent hs.1 hone hmatch hseek rfl ?_ (by simp)
      (WithStats.updateIntent_eq_ok hupdate).1
    intro hcommit _
    rw [hcommit] at hopen
    have hpushes := hopen.resolve_left Bool.false_ne_true
    simp only [LockUpdate.pushes, Bool.and_eq_true, decide_eq_true_eq] at hpushes
    exact hpushes.2
  · obtain ⟨hignored, hkept⟩ := restored_of_ignored hrestored
    obtain ⟨before, e, -, rfl, rfl, rfl⟩ := rewrite_eq_restored hrestored
    obtain ⟨_, -, hintents', hinline'⟩ := putMVCC_eq_ok hput
    refine wellFormed_updateIntent (t := { t with sequence := e.sequence })
      (hinline'.trans hs.1) (hintents'.trans hone) hmatch' hseek rfl (by simp) ?_
      (WithStats.updateIntent_eq_ok hupdate).1
    intro hcommit _ hord
    -- At equal positions the intent of a committed transaction would be removed.
    have hle : m.timestamp.LessEq intent.txn.writeTimestamp := by
      rw [lessEq_iff]
      exact ((eqOrdering_iff _ _).mp hord).le
    have hopen : ¬ (intent.status = .committed ∧ t.epoch = intent.txn.epoch) := by
      intro hc
      exact absurd ⟨hc.1, hc.2, hle⟩ (of_decide_eq_false hcommit)
    exact hflag (t.id, m) (by simp [hone]) t hmatch.txn_eq hid hignored hkept hopen hord

variable {timestamp : Timestamp}

theorem mvccPutInternal_eq_ok {r : PutResult × Effects} (hvalid : ValidWrite timestamp txn)
    (h : WithStats.mvccPutInternal marshal s key timestamp value txn valueFn ms = .ok r) :
    ∃ readTimestamp writeTimestamp, readTimestamp.LessEq writeTimestamp ∧
      (∀ t ∈ txn, t.writeTimestamp = writeTimestamp) ∧
      WithStats.putVersioned marshal s key readTimestamp writeTimestamp value txn valueFn ms =
        .ok r := by
  unfold WithStats.mvccPutInternal at h
  split_ifs at h with _ _ hempty
  · exact absurd hempty hvalid.1
  · split at h
    · exact ⟨timestamp, timestamp, .refl _, by simp, h⟩
    · rename_i t
      split_ifs at h
      exact ⟨_, _, (hvalid.2 t rfl).2, by simp, h⟩

theorem wellFormed_mvccPutInternal {r : PutResult × Effects} (hs : WellFormed s)
    (hp : ProperValue value valueFn) (hvalid : ValidWrite timestamp txn)
    (hflag : WriteKeepsFlag s txn)
    (h : WithStats.mvccPutInternal marshal s key timestamp value txn valueFn ms = .ok r) :
    WellFormed r.1.state := by
  obtain ⟨_, _, hle, htxn, h⟩ := mvccPutInternal_eq_ok marshal key hvalid h
  exact wellFormed_putVersioned marshal key hs hp hle htxn hflag h

variable {c : Call}

/-- What a write and the resolution of an intent keep is kept by every call. -/
theorem Call.apply_invariant {P : KeyState → Prop} (hs : P s) (hvalid : c.Valid)
    (hflag : c.KeepsFlag s) (hput : ∀ {timestamp value txn valueFn r}, ProperValue value valueFn →
      ValidWrite timestamp txn → WriteKeepsFlag s txn →
      WithStats.mvccPutInternal marshal s key timestamp value txn valueFn .zero = .ok r →
      P r.1.state) (hresolve : ∀ {intent r}, RollbackKeepsFlag s intent →
      WithStats.mvccResolveWriteIntent marshal s key intent .zero = .ok r → P r.1.1) :
    P (c.apply marshal key s) := by
  have hwrite {timestamp value txn valueFn} (hp : ProperValue value valueFn)
      (hvalid : ValidWrite timestamp txn) (hflag : WriteKeepsFlag s txn) :
      P (match mvccPutInternal marshal s key timestamp value txn valueFn with
        | .ok r => r.state
        | .error _ => s) := by
    have hmap : (WithStats.mvccPutInternal marshal s key timestamp value txn valueFn .zero).map
        Prod.fst = mvccPutInternal marshal s key timestamp value txn valueFn :=
      WithStats.map_mvccPutInternal
    split
    · rename_i r hr
      obtain ⟨r', hr', rfl⟩ := map_eq_ok (hmap.trans hr)
      exact hput hp hvalid hflag hr'
    · exact hs
  cases c with
  | put ts value txn =>
    refine hwrite ⟨?_, by simp⟩ hvalid.2 hflag
    rintro b ⟨⟩
    exact hvalid.1
  | delete ts txn => exact hwrite ⟨by simp, by simp⟩ hvalid hflag
  | conditionalPut ts value expBytes allowNoExisting txn =>
    refine hwrite ⟨by simp, ?_⟩ hvalid.2 hflag
    rintro f ⟨⟩
    exact nonempty_conditionalValue hvalid.1 expBytes allowNoExisting
  | initPut ts value failOnTombstones txn =>
    refine hwrite ⟨by simp, ?_⟩ hvalid.2 hflag
    rintro f ⟨⟩
    exact nonempty_initValue hvalid.1 failOnTombstones
  | increment ts txn inc =>
    refine hwrite ⟨by simp, ?_⟩ hvalid hflag
    rintro f ⟨⟩
    exact nonempty_incrementValue key inc
  | resolveWriteIntent intent =>
    change P (match mvccResolveWriteIntent s key intent with
      | .ok r => r.1
      | .error _ => s)
    have hmap : (WithStats.mvccResolveWriteIntent marshal s key intent .zero).map
        (fun r => (r.1.1, r.2)) = mvccResolveWriteIntent s key intent :=
      WithStats.map_mvccResolveWriteIntent
    split
    · rename_i r hr
      obtain ⟨r', hr', rfl⟩ := map_eq_ok (hmap.trans hr)
      exact hresolve hflag hr'
    · exact hs

theorem Call.wellFormed_apply (hs : WellFormed s) (hvalid : c.Valid) (hflag : c.KeepsFlag s) :
    WellFormed (c.apply marshal key s) :=
  c.apply_invariant marshal key hs hvalid hflag (wellFormed_mvccPutInternal marshal key hs)
    (wellFormed_mvccResolveWriteIntent marshal key hs)

/-- The intent of a key matches its versions after every run of calls that keep the flag of the
intent. -/
theorem wellFormed_of_reachable {s : KeyState} (h : Reachable marshal key s) : WellFormed s := by
  induction h with
  | initial => exact ⟨rfl, .inl rfl⟩
  | step c _ hvalid hflag ih => exact c.wellFormed_apply marshal key ih hvalid hflag

/-- A transaction that reads at wall time one and writes at the same position. -/
def writer (synthetic : Bool) (sequence : ℤ) : Transaction where
  id := 1
  key := [1]
  epoch := 0
  writeTimestamp := { Timestamp.ofNanos 1 with synthetic }
  minTimestamp := .empty
  priority := 0
  sequence := sequence
  readTimestamp := .ofNanos 1
  ignoredSeqNums := []

def writerPut (synthetic : Bool) (sequence : ℤ) : Call :=
  .put (writer synthetic sequence).readTimestamp [7] (some (writer synthetic sequence))

theorem writerPut_valid (synthetic : Bool) (sequence : ℤ) :
    (writerPut synthetic sequence).Valid := by
  refine ⟨by simp, ?_, ?_⟩
  · simp [writer, Timestamp.isEmpty_iff, Timestamp.ticks]
  · rintro t ⟨⟩
    simp [writer, Timestamp.isEmpty_iff, lessEq_iff, Timestamp.ticks]

/-- Two writes at one position with the same flag. -/
theorem reachable_wellFormed_writerPut :
    Reachable (fun _ => [0]) [1] ((writerPut false 2).apply (fun _ => [0]) [1]
        ((writerPut false 1).apply (fun _ => [0]) [1] .initial)) ∧
      WellFormed ((writerPut false 2).apply (fun _ => [0]) [1]
        ((writerPut false 1).apply (fun _ => [0]) [1] .initial)) := by
  have hfirst : Reachable (fun _ => [0]) [1] ((writerPut false 1).apply (fun _ => [0]) [1]
      .initial) := by
    refine .step _ .initial (writerPut_valid _ _) ?_
    intro t _ i hi
    cases hi
  have hsecond : Reachable (fun _ => [0]) [1] ((writerPut false 2).apply (fun _ => [0]) [1]
      ((writerPut false 1).apply (fun _ => [0]) [1] .initial)) := by
    refine .step _ hfirst (writerPut_valid _ _) ?_
    have hflag : ∀ i ∈ ((writerPut false 1).apply (fun _ => [0]) [1] .initial).intents,
        i.2.timestamp.synthetic = false := by decide +kernel
    rintro t ⟨⟩ i hi metaTxn _ _ _ _
    exact hflag i hi
  exact ⟨hsecond, wellFormed_of_reachable _ _ hsecond⟩

/-- The second write leaves the version of the first next to its own, at the same position. -/
theorem not_wellFormed_writerPut : (writerPut false 1).Valid ∧ (writerPut true 2).Valid ∧
      ¬ WellFormed ((writerPut true 2).apply (fun _ => [0]) [1]
        ((writerPut false 1).apply (fun _ => [0]) [1] .initial)) := by
  refine ⟨writerPut_valid _ _, writerPut_valid _ _, ?_⟩
  set s := (writerPut true 2).apply (fun _ => [0]) [1]
    ((writerPut false 1).apply (fun _ => [0]) [1] .initial)
  have hintents : s.intents ≠ [] := by decide +kernel
  have hticks : ∀ w ∈ s.versions, w.1.1.ticks = 2 ^ 31 := by decide +kernel
  have htwo : ¬ ∀ w ∈ s.versions, ∀ w' ∈ s.versions, w.1.1 = w'.1.1 := by decide +kernel
  rintro ⟨-, hnone | ⟨m, t, v, -, hmatch⟩⟩
  · exact hintents hnone
  · obtain ⟨h0, hmem⟩ := hmatch.version_mem
    have hall : ∀ w ∈ s.versions, w.1.1 = m.timestamp := by
      intro w hw
      by_contra hne
      have hless := (less_iff _ _).mp (hmatch.newest w hw hne)
      have hm := hticks _ hmem
      rw [hticks w hw] at hless
      exact absurd hm hless.ne'
    exact htwo fun w hw w' hw' => (hall w hw).trans (hall w' hw').symm

end Cockroach.Storage
