import Cockroach.Storage.Effects
import Cockroach.Storage.IntentInvariant

/-! Whether the operation that a resolution logs describes what became of the intent. -/
namespace Cockroach.Storage
open ByteOrder Hlc Roachpb List
open RankedList (mem_clear mem_put_self)

/-- Every intent belongs to its transaction and has a provisional value, the newest version. -/
def IntentsSound (s : KeyState) : Prop :=
  ∀ i ∈ s.intents, ∃ t v, i.2.txn = some t ∧ i.1 = t.id ∧
    (∃ h, (⟨i.2.timestamp, h⟩, v) ∈ s.versions) ∧
    ∀ w ∈ s.versions, w.1.1 ≠ i.2.timestamp → w.1.1.Less i.2.timestamp

/-- The transaction has an intent on the key. -/
def HasIntent (s : KeyState) (id : BitVec 128) : Prop := ∃ i ∈ s.intents, i.1 = id

/-- There is a version with the value of an intent, at its timestamp or above. -/
def ValueStays (s : KeyState) (ts : Timestamp) (v : Bytes) : Prop :=
  ∃ w ∈ s.versions, ts.LessEq w.1.1 ∧ w.2 = v

/-- Of all versions only the provisional value at a timestamp is gone. -/
def ValueRemoved (s s' : KeyState) (ts : Timestamp) : Prop :=
  ∀ w, w ∈ s'.versions ↔ w ∈ s.versions ∧ w.1.1 ≠ ts

/-- An operation says what became of the intent of a transaction with value `v`. -/
structure Describes (op : MVCCLogicalOpType) (s s' : KeyState) (id : BitVec 128) (ts : Timestamp)
    (v : Bytes) : Prop where
  commit_iff : op = .commitIntent ↔ ¬ HasIntent s' id ∧ ValueStays s' ts v
  update_iff : op = .updateIntent ↔ HasIntent s' id
  abort_iff : op = .abortIntent ↔ ¬ HasIntent s' id ∧ ValueRemoved s s' ts

/-- The value of an intent after the ignored writes are rolled back. -/
def remainingValue (intent : LockUpdate) (m : MVCCMetadata) (t : TxnMeta) (v : Bytes) : Bytes :=
  match mvccMaybeRewriteIntentHistory intent.ignoredSeqNums m t with
  | .restored _ _ value => value
  | _ => v

/-- A partial rollback of an intent that is neither committed nor pushed. -/
def RollsBackInPlace (intent : LockUpdate) (m : MVCCMetadata) (t : TxnMeta) : Prop :=
  (∃ m' t' value, mvccMaybeRewriteIntentHistory intent.ignoredSeqNums m t =
    .restored m' t' value) ∧
    intent.commits t m.timestamp = false ∧ intent.pushes t m.timestamp = false

variable {s : KeyState}

variable {id : BitVec 128} {l : List (BitVec 128 × MVCCMetadata)}

theorem not_hasIntent_clear (h : s.intents = RankedList.clear id l) : ¬ HasIntent s id := by
  rintro ⟨i, hi, hid⟩
  rw [h] at hi
  exact (mem_clear.mp hi).2 hid

variable {m : MVCCMetadata}

theorem hasIntent_put (h : s.intents = RankedList.put lockRank id m l) : HasIntent s id := by
  refine ⟨(id, m), ?_, rfl⟩
  rw [h]
  exact mem_put_self id m l

variable {intent : LockUpdate} {t : TxnMeta}

theorem pushes_of_commits {ts : Timestamp} (h : intent.commits t ts = true) :
    intent.pushes t ts = false := by
  have hstatus := (of_decide_eq_true h).1
  simp [LockUpdate.pushes, LockUpdate.inProgress, hstatus, TransactionStatus.isFinalized]

section

variable {s s' : KeyState} {id : BitVec 128} {ts : Timestamp} {v : Bytes}
  (hnewest : ∀ w ∈ s.versions, w.1.1 ≠ ts → w.1.1.Less ts)

include hnewest in
theorem not_valueStays (hremoved : ValueRemoved s s' ts) : ¬ ValueStays s' ts v := by
  rintro ⟨w, hw, hle, -⟩
  obtain ⟨hmem, hne⟩ := (hremoved w).mp hw
  have hless := hnewest w hmem hne
  rw [Timestamp.less_iff] at hless
  rw [Timestamp.lessEq_iff] at hle
  omega

include hnewest in
theorem describes_abort (hintent : ¬ HasIntent s' id) (hremoved : ValueRemoved s s' ts) :
    Describes .abortIntent s s' id ts v := by
  have hgone : ¬ ValueStays s' ts v := not_valueStays hnewest hremoved
  constructor
  · simp [hgone]
  · simp [hintent]
  · simp [hintent, hremoved]

include hnewest in
theorem describes_commit (hintent : ¬ HasIntent s' id) (hstays : ValueStays s' ts v) :
    Describes .commitIntent s s' id ts v := by
  have hkept : ¬ ValueRemoved s s' ts := fun hremoved => not_valueStays hnewest hremoved hstays
  constructor
  · simp [hintent, hstays]
  · simp [hintent]
  · simp [hkept]

theorem describes_update (hintent : HasIntent s' id) : Describes .updateIntent s s' id ts v := by
  constructor <;> simp [hintent]

theorem not_describes_commit (hintent : HasIntent s' id) :
    ¬ Describes .commitIntent s s' id ts v := by
  intro h
  exact (h.commit_iff.mp rfl).1 hintent

end

variable {iter s' : KeyState} {v w : Bytes} {rolledBackVal : Option Bytes}

theorem updateIntent_keeps {commit : Bool} (hseek : ∃ h, (⟨m.timestamp, h⟩, w) ∈ iter.versions)
    (hv : ∃ h, (⟨m.timestamp, h⟩, v) ∈ s.versions) (hvalue : rolledBackVal.getD w = v)
    (h : updateIntent iter s intent m t m.timestamp commit rolledBackVal = .ok s') :
    ValueStays s' m.timestamp v ∧ (HasIntent s' t.id ↔ commit = false) := by
  obtain ⟨ts, hts, -, hintents, hversions⟩ := updateIntent_eq_ok hseek h
  constructor
  · rcases hversions with ⟨hless, h0, hne, hversions⟩ | ⟨-, hversions⟩
    · have hticks := (Timestamp.less_iff _ _).mp hless
      rw [Timestamp.forward_of_gt hticks, ite_self] at hts
      rw [← hts] at hticks
      refine ⟨(⟨ts, hne⟩, v), ?_, ?_, rfl⟩
      · rw [hversions, hvalue]
        refine mem_clear.mpr ⟨mem_put_self _ _ _, ?_⟩
        intro heq
        have heq' : ts = m.timestamp := congrArg Subtype.val heq
        rw [heq'] at hticks
        exact absurd hticks (lt_irrefl _)
      · rw [Timestamp.lessEq_iff]
        exact hticks.le
    · obtain ⟨h0, hmem⟩ := hv
      refine ⟨(⟨m.timestamp, h0⟩, v), by rwa [hversions], ?_, rfl⟩
      rw [Timestamp.lessEq_iff]
  · cases commit with
    | true =>
      have hnone : ¬ HasIntent s' t.id := not_hasIntent_clear hintents
      simp [hnone]
    | false =>
      have hintent : HasIntent s' t.id := hasIntent_put hintents
      simp [hintent]

theorem describes_updateIntent_iff {s₁ : KeyState} {t₀ : TxnMeta}
    (h : updateIntent iter s₁ intent m t m.timestamp (intent.commits t₀ m.timestamp)
      rolledBackVal = .ok s') (hid : t.id = t₀.id)
    (hnewest : ∀ w ∈ s.versions, w.1.1 ≠ m.timestamp → w.1.1.Less m.timestamp)
    (hseek : ∃ h, (⟨m.timestamp, h⟩, w) ∈ iter.versions)
    (hv : ∃ h, (⟨m.timestamp, h⟩, v) ∈ s₁.versions) (hvalue : rolledBackVal.getD w = v) :
    Describes (if intent.pushes t₀ m.timestamp then .updateIntent else .commitIntent) s s' t₀.id
        m.timestamp v ↔
      intent.commits t₀ m.timestamp = true ∨ intent.pushes t₀ m.timestamp = true := by
  obtain ⟨hstays, hintent⟩ := updateIntent_keeps hseek hv hvalue h
  rw [hid] at hintent
  cases hcommit : intent.commits t₀ m.timestamp with
  | true =>
    have hnot : ¬ HasIntent s' t₀.id := by simp [hintent, hcommit]
    simp [pushes_of_commits hcommit, describes_commit hnewest hnot hstays]
  | false =>
    have hhas : HasIntent s' t₀.id := hintent.mpr hcommit
    cases intent.pushes t₀ m.timestamp with
    | true => simp [describes_update hhas]
    | false => simp [not_describes_commit hhas]

/-- The operation that a resolution logs describes what it did to the intent exactly if it does
not roll back some of the writes of an intent that it neither commits nor pushes. Such an intent
is logged as committed. -/
theorem logged_describes_iff {marshal : MVCCMetadata → Bytes} {s : KeyState} {key : Bytes}
    {intent : LockUpdate} {ms : MVCCStats} {r : (KeyState × Effects) × Bool} (hs : IntentsSound s)
    (h : WithStats.mvccResolveWriteIntent marshal s key intent ms = .ok r) (hchange : r.1.1 ≠ s) :
    ∃ i ∈ s.intents, ∃ t v, i.2.txn = some t ∧ t.id = intent.txn.id ∧
      (∃ h, (⟨i.2.timestamp, h⟩, v) ∈ s.versions) ∧
      ((∃ op, r.1.2.ops = [op] ∧ Describes op.type s r.1.1 t.id i.2.timestamp
          (remainingValue intent i.2 t v)) ↔ ¬ RollsBackInPlace intent i.2 t) := by
  rcases WithStats.mvccResolveWriteIntent_cases h with rfl | ⟨i, hi, t, ht, hid, hcases⟩
  · exact absurd rfl hchange
  obtain ⟨t', v, ht', -, hmem, hnewest⟩ := hs i hi
  refine ⟨i, hi, t, v, ht, hid, hmem, ?_⟩
  rcases hcases with ⟨hremoves, hr⟩ | ⟨hsame, hupdate, hr⟩ |
    ⟨m', t', value, s₁, hrestored, hput, hr⟩
  · -- The intent is removed, which is logged as an abort.
    obtain ⟨s', hs', hr⟩ := map_eq_ok hr
    obtain ⟨h0, hversions, hintents, -⟩ := removeIntent_eq_ok hs'
    have hgone : ¬ HasIntent r.1.1 t.id := by
      rw [← hr]
      exact not_hasIntent_clear hintents
    have hremoved : ValueRemoved s r.1.1 i.2.timestamp := by
      intro w
      rw [← hr]
      rw [hversions, mem_clear, ne_eq, Subtype.ext_iff]
    have hrollback : ¬ RollsBackInPlace intent i.2 t := by
      rintro ⟨⟨m', t', value, hrestored⟩, -⟩
      rcases hremoves with hremove | ⟨hsame, -⟩
      · rw [hremove] at hrestored
        cases hrestored
      · rw [hsame] at hrestored
        cases hrestored
    refine iff_of_true ⟨_, by rw [← hr], ?_⟩ hrollback
    exact describes_abort hnewest hgone hremoved
  · -- The intent is committed or pushed as it is.
    obtain ⟨hs', stats, ts, -, -, heffects⟩ := WithStats.updateIntent_eq_ok hr
    have hvalue : remainingValue intent i.2 t v = v := by
      rw [remainingValue, hsame]
    have hrollback : ¬ RollsBackInPlace intent i.2 t := by
      rintro ⟨⟨m', t', value, hrestored⟩, -⟩
      rw [hsame] at hrestored
      cases hrestored
    rw [hvalue]
    refine iff_of_true ⟨_, by rw [heffects], ?_⟩ hrollback
    exact (describes_updateIntent_iff hs' rfl hnewest hmem hmem rfl).mpr hupdate
  · -- Some of the writes of the intent are rolled back.
    obtain ⟨hs', stats, ts, -, -, heffects⟩ := WithStats.updateIntent_eq_ok hr
    obtain ⟨before, e, -, rfl, rfl, rfl⟩ := rewrite_eq_restored hrestored
    obtain ⟨h0, hversions, -, -⟩ := putMVCC_eq_ok hput
    have hvalue : remainingValue intent i.2 t v = e.value := by
      rw [remainingValue, hrestored]
    have hmem₁ : ∃ h, (⟨i.2.timestamp, h⟩, e.value) ∈ s₁.versions := by
      refine ⟨h0, ?_⟩
      rw [hversions]
      exact mem_put_self _ _ _
    have hiff := describes_updateIntent_iff hs' rfl hnewest hmem hmem₁ rfl
    have hrollback : RollsBackInPlace intent i.2 t ↔
        ¬ (intent.commits t i.2.timestamp = true ∨ intent.pushes t i.2.timestamp = true) := by
      rw [not_or, Bool.not_eq_true, Bool.not_eq_true]
      exact ⟨fun hroll => hroll.2, fun hopen => ⟨⟨_, _, _, hrestored⟩, hopen⟩⟩
    rw [hrollback, not_not, ← hiff, hvalue, heffects]
    constructor
    · rintro ⟨op, hop, hdescribes⟩
      obtain rfl := singleton_inj.mp hop
      exact hdescribes
    · intro hdescribes
      exact ⟨_, rfl, hdescribes⟩

/-- A transaction at wall time one that has written twice. -/
def twiceWriter : TxnMeta where
  id := 1
  key := [97]
  epoch := 0
  writeTimestamp := .ofNanos 1
  minTimestamp := .empty
  priority := 0
  sequence := 2

/-- The key of its intent, with the first of the two values in the history. -/
def twiceWritten : KeyState where
  intents := [(1, ⟨some twiceWriter, twiceWriter.writeTimestamp, false, 12, 1, [], [⟨1, [5]⟩]⟩)]
  inline := none
  versions := [(⟨twiceWriter.writeTimestamp, by decide⟩, [7])]
  sorted := pairwise_singleton _ _

theorem intentsSound_twiceWritten : IntentsSound twiceWritten := by
  intro i hi
  obtain rfl := mem_singleton.mp hi
  refine ⟨twiceWriter, [7], rfl, rfl, ⟨by decide, mem_singleton_self _⟩, ?_⟩
  intro w hw hne
  obtain rfl := mem_singleton.mp hw
  exact absurd rfl hne

/-- The transaction ends in a status, with some of its writes rolled back. -/
def twiceWriterUpdate (status : TransactionStatus) (ignored : List IgnoredSeqNumRange) :
    LockUpdate :=
  ⟨twiceWriter, status, ignored⟩

theorem logged_describes_twiceWritten : IntentsSound twiceWritten ∧ ∃ r,
      WithStats.mvccResolveWriteIntent (fun _ => []) twiceWritten [97]
        (twiceWriterUpdate .committed [⟨2, 2⟩]) .zero = .ok r ∧ r.1.1 ≠ twiceWritten ∧
      ∃ i ∈ twiceWritten.intents, ∃ t v, i.2.txn = some t ∧ t.id = twiceWriter.id ∧
        (∃ h, (⟨i.2.timestamp, h⟩, v) ∈ twiceWritten.versions) ∧
        ((∃ op, r.1.2.ops = [op] ∧ Describes op.type twiceWritten r.1.1 t.id i.2.timestamp
            (remainingValue (twiceWriterUpdate .committed [⟨2, 2⟩]) i.2 t v)) ↔
          ¬ RollsBackInPlace (twiceWriterUpdate .committed [⟨2, 2⟩]) i.2 t) := by
  obtain ⟨r, hr, hnone⟩ : ∃ r, WithStats.mvccResolveWriteIntent (fun _ => []) twiceWritten [97]
      (twiceWriterUpdate .committed [⟨2, 2⟩]) .zero = .ok r ∧ r.1.1.intents = [] :=
    ⟨_, rfl, rfl⟩
  have hchange : r.1.1 ≠ twiceWritten := by
    intro heq
    rw [heq] at hnone
    cases hnone
  exact ⟨intentsSound_twiceWritten, r, hr, hchange,
    logged_describes_iff intentsSound_twiceWritten hr hchange⟩

/-- The rollback of the second write of a pending transaction is logged as a commit, although the
intent is still there. -/
theorem logged_commit_twiceWritten : IntentsSound twiceWritten ∧ ∃ r,
      WithStats.mvccResolveWriteIntent (fun _ => []) twiceWritten [97]
        (twiceWriterUpdate .pending [⟨2, 2⟩]) .zero = .ok r ∧ r.1.1 ≠ twiceWritten ∧
      HasIntent r.1.1 twiceWriter.id ∧ ∃ op, r.1.2.ops = [op] ∧ op.type = .commitIntent ∧
        ∀ v, ¬ Describes op.type twiceWritten r.1.1 twiceWriter.id
          twiceWriter.writeTimestamp v := by
  have hhas : ∀ r : KeyState, ∀ m, r.intents = [(1, m)] → HasIntent r twiceWriter.id := by
    intro r m hr
    exact ⟨(1, m), by simp [hr], rfl⟩
  have hchange : ∀ r : KeyState, ∀ m, r.intents = [(1, m)] →
      m.intentHistory = [] → r ≠ twiceWritten := by
    rintro r m hr hm rfl
    obtain rfl := (Prod.ext_iff.mp (singleton_inj.mp hr)).2
    cases hm
  refine ⟨intentsSound_twiceWritten, _, rfl, hchange _ _ rfl rfl, hhas _ _ rfl, _, rfl, rfl, ?_⟩
  intro v
  exact not_describes_commit (hhas _ _ rfl)

end Cockroach.Storage
