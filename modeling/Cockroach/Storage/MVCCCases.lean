import Cockroach.Storage.MVCC

/-! What the writes and resolutions of a key do when they succeed. -/
namespace Cockroach.Storage
open ByteOrder Hlc Except Option
open RankedList (clear put)

/-- The two timestamps are not apart by the `Synthetic` flag alone. -/
def SameFlag (t s : Timestamp) : Prop := t.EqOrdering s → t.synthetic = s.synthetic

theorem eq_of_sameFlag {t s : Timestamp} (h : t.EqOrdering s) (hf : SameFlag t s) : t = s :=
  Timestamp.ext_ticks ((Timestamp.eqOrdering_iff t s).mp h) (hf h)

variable {ε α β : Type}

variable {x : Except ε α} {b : β}

theorem bind_eq_ok {f : α → Except ε β} (h : x >>= f = .ok b) : ∃ a, x = .ok a ∧ f a = .ok b := by
  cases x with
  | error e => cases h
  | ok a => exact ⟨a, rfl, h⟩

theorem ok_bind (a : α) (f : α → Except ε β) : (Except.ok a >>= f) = f a := rfl

theorem map_eq_ok {f : α → β} (h : x.map f = .ok b) : ∃ a, x = .ok a ∧ f a = b := by
  cases x with
  | error e => cases h
  | ok a => exact ⟨a, rfl, ok.inj h⟩

variable {s s' : KeyState} {ts : Timestamp}

variable {v : Bytes}

theorem putMVCC_eq_ok (h : s.putMVCC ts v = .ok s') :
    ∃ hts, s'.versions = put versionRank ⟨ts, hts⟩ v s.versions ∧
      s'.intents = s.intents ∧ s'.inline = s.inline := by
  unfold KeyState.putMVCC at h
  split_ifs at h with hts
  obtain rfl := ok.inj h
  exact ⟨hts, rfl, rfl, rfl⟩

theorem clearMVCC_eq_ok (h : s.clearMVCC ts = .ok s') :
    ∃ hts, s'.versions = clear ⟨ts, hts⟩ s.versions ∧ s'.intents = s.intents ∧
      s'.inline = s.inline := by
  unfold KeyState.clearMVCC at h
  split_ifs at h with hts
  obtain rfl := ok.inj h
  exact ⟨hts, rfl, rfl, rfl⟩

variable {t : TxnMeta}

theorem removeIntent_eq_ok (h : removeIntent s t ts = .ok s') :
    ∃ hts, s'.versions = clear ⟨ts, hts⟩ s.versions ∧
      s'.intents = clear t.id s.intents ∧ s'.inline = s.inline := by
  obtain ⟨s₁, hclear, h⟩ := bind_eq_ok h
  obtain ⟨hts, hversions, hintents, hinline⟩ := clearMVCC_eq_ok hclear
  split_ifs at h
  obtain rfl := ok.inj h
  refine ⟨hts, hversions, ?_, hinline⟩
  rw [← hintents]
  rfl

variable {p : PendingWrite}

theorem finishWrite_eq_ok {t : Transaction} {r : PutResult} (h : finishWrite (some t) p = .ok r) :
    ∃ hts, r.state.versions =
        put versionRank ⟨p.writeTimestamp, hts⟩ (p.value.getD []) p.state.versions ∧
      r.state.intents = put lockRank t.id (newIntent t p) p.state.intents ∧
      r.state.inline = p.state.inline := by
  obtain ⟨s', hs', rfl⟩ := map_eq_ok h
  exact putMVCC_eq_ok hs'

theorem newIntent_txn {t : Transaction}
    (h : t.writeTimestamp ≠ p.writeTimestamp →
      t.writeTimestamp.forward p.writeTimestamp = p.writeTimestamp) :
    (newIntent t p).txn = some { t.toTxnMeta with writeTimestamp := p.writeTimestamp } := by
  unfold newIntent
  by_cases heq : t.writeTimestamp = p.writeTimestamp
  · rw [if_neg (not_not.mpr heq), ← heq]
  · rw [if_pos heq, h heq]

variable (marshal : MVCCMetadata → Bytes) (key : Bytes)

variable {m : MVCCMetadata}

variable {readTimestamp writeTimestamp : Timestamp} {value : Option Bytes}
  {valueFn : Option ValueFn}

theorem overwriteCommitted_eq_ok {inTxn : Bool} (hle : readTimestamp.LessEq writeTimestamp)
    (h : overwriteCommitted marshal s m key readTimestamp writeTimestamp value inTxn valueFn
      = .ok p) :
    p.state = s ∧ p.intentHistory = m.intentHistory ∧ m.timestamp.Less p.writeTimestamp ∧
      (writeTimestamp ≠ p.writeTimestamp →
        writeTimestamp.forward p.writeTimestamp = p.writeTimestamp) ∧
      ∃ ts, maybeGetValue marshal s key value true ts valueFn = .ok p.value ∧
        (inTxn = true → ts = readTimestamp) := by
  rw [Timestamp.lessEq_iff] at hle
  unfold overwriteCommitted at h
  by_cases hread : readTimestamp.LessEq m.timestamp
  · rw [if_pos hread] at h
    split at h
    · cases h
    · rename_i next hnext
      obtain ⟨v, hv, hp'⟩ := bind_eq_ok h
      obtain rfl := ok.inj hp'
      have hticks := (Timestamp.next_eq_some hnext).1
      refine ⟨rfl, rfl, ?_, ?_, _, hv, ?_⟩
      · simp only [Timestamp.less_iff, Timestamp.ticks_forward]
        omega
      · intro _
        exact Timestamp.forward_forward _ _
      · intro htxn
        rw [if_pos htxn]
  · rw [if_neg hread] at h
    obtain ⟨v, hv, hp'⟩ := bind_eq_ok h
    obtain rfl := ok.inj hp'
    refine ⟨rfl, rfl, ?_, ?_, readTimestamp, hv, fun _ => rfl⟩
    · rw [Timestamp.lessEq_iff] at hread
      rw [Timestamp.less_iff]
      dsimp only
      omega
    · intro hne
      exact absurd rfl hne

variable {metaTxn : TxnMeta} {txn : Transaction}

theorem overwriteIntent_eq_ok
    (h : overwriteIntent marshal s m metaTxn key readTimestamp value txn valueFn = .ok (some p)) :
    (metaTxn.epoch < txn.epoch ∨ metaTxn.epoch = txn.epoch ∧ metaTxn.sequence < txn.sequence) ∧
      (∃ exVal curProvNotIgnored,
        existingValue marshal s m metaTxn key readTimestamp txn = .ok (exVal, curProvNotIgnored) ∧
        applyValueFn valueFn value exVal = .ok p.value ∧
        p.intentHistory = overwrittenHistory m metaTxn txn exVal curProvNotIgnored) ∧
      ((m.timestamp.Less txn.writeTimestamp ∧ s.clearMVCC m.timestamp = .ok p.state ∧
          p.writeTimestamp = txn.writeTimestamp) ∨
        (¬ m.timestamp.Less txn.writeTimestamp ∧ p.state = s ∧ p.writeTimestamp =
          if txn.writeTimestamp.Less m.timestamp then m.timestamp else txn.writeTimestamp)) := by
  unfold overwriteIntent at h
  by_cases hepoch : txn.epoch < metaTxn.epoch
  · rw [if_pos hepoch] at h
    cases h
  rw [if_neg hepoch] at h
  by_cases hreplay : txn.epoch = metaTxn.epoch ∧ txn.sequence ≤ metaTxn.sequence
  · rw [if_pos hreplay] at h
    obtain ⟨_, -, hnone⟩ := bind_eq_ok h
    cases hnone
  rw [if_neg hreplay] at h
  obtain ⟨⟨exVal, curProvNotIgnored⟩, hex, h⟩ := bind_eq_ok h
  obtain ⟨value', hvalue, h⟩ := bind_eq_ok h
  refine ⟨by omega, ?_⟩
  by_cases hless : m.timestamp.Less txn.writeTimestamp
  · split_ifs at h
    obtain ⟨s', hs', h⟩ := bind_eq_ok h
    obtain rfl := some.inj (ok.inj h)
    exact ⟨⟨exVal, curProvNotIgnored, hex, hvalue, rfl⟩, .inl ⟨hless, hs', rfl⟩⟩
  · rw [if_neg hless] at h
    obtain rfl := some.inj (ok.inj h)
    exact ⟨⟨exVal, curProvNotIgnored, hex, hvalue, rfl⟩, .inr ⟨hless, rfl, rfl⟩⟩

theorem overwriteIntent_intents
    (h : overwriteIntent marshal s m metaTxn key readTimestamp value txn valueFn = .ok (some p)) :
    p.state.intents = s.intents := by
  obtain ⟨-, -, ⟨-, hclear, -⟩ | ⟨-, hsame, -⟩⟩ := overwriteIntent_eq_ok marshal key h
  · obtain ⟨_, -, hintents, -⟩ := clearMVCC_eq_ok hclear
    exact hintents
  · rw [hsame]

theorem rewriteTimestamp_eq (hless : ¬ ts.Less writeTimestamp)
    (hflag : SameFlag ts writeTimestamp) :
    (if writeTimestamp.Less ts then ts else writeTimestamp) = ts ∧
      (writeTimestamp ≠ ts → writeTimestamp.forward ts = ts) := by
  rw [Timestamp.less_iff] at hless
  rcases lt_or_eq_of_le (not_lt.mp hless) with hlt | heq
  · have hless' := (Timestamp.less_iff _ _).mpr hlt
    exact ⟨if_pos hless', fun _ => Timestamp.forward_of_lt hlt⟩
  · have hsame := eq_of_sameFlag ((Timestamp.eqOrdering_iff _ _).mpr heq.symm) hflag
    refine ⟨by rw [← hsame, ite_self], fun hne => absurd hsame.symm hne⟩

theorem ticks_le_of_getMetadata (hinline : s.inline = none) (hintents : s.intents = [])
    (hm : s.getMetadata = some m) :
    m.txn = none ∧ m.intentHistory = [] ∧ ∀ w ∈ s.versions, w.1.1.ticks ≤ m.timestamp.ticks := by
  have hsorted := s.sorted
  unfold KeyState.getMetadata at hm
  rw [hintents, hinline] at hm
  cases hv : s.versions with
  | nil =>
    rw [hv] at hm
    cases hm
  | cons v l =>
    rw [hv] at hm hsorted
    obtain rfl := some.inj hm
    refine ⟨rfl, rfl, ?_⟩
    intro w hw
    have hrank := hsorted.rank_le_head w hw
    unfold versionRank engineRank at hrank
    have hbit := Bool.toNat_le v.1.1.synthetic
    dsimp only
    omega

theorem getMetadata_eq_none (h : s.getMetadata = none) : s.intents = [] ∧ s.versions = [] := by
  unfold KeyState.getMetadata at h
  split at h
  · cases h
  · cases h
  · cases h
  · rename_i hintents _ hversions
    exact ⟨hintents, hversions⟩

theorem seekVersion_of_mem {ts : VersionTimestamp} (h : (ts, v) ∈ s.versions) :
    s.seekVersion ts.1 = some (ts, v) :=
  s.sorted.find?_rank_le h

/-- What an update of an intent does: the metadata is removed or moved to the new timestamp, and
the version moves with it where that is later. -/
theorem updateIntent_eq_ok {iter : KeyState} {intent : LockUpdate} {w : Bytes} {commit : Bool}
    {rolledBackVal : Option Bytes} (hseek : ∃ h, (⟨m.timestamp, h⟩, w) ∈ iter.versions)
    (h : updateIntent iter s intent m t m.timestamp commit rolledBackVal = .ok s') :
    ∃ ts, ts = (if rolledBackVal.isSome then intent.txn.writeTimestamp.forward m.timestamp
        else intent.txn.writeTimestamp) ∧
      s'.inline = s.inline ∧
      s'.intents = (if commit then clear t.id s.intents else
        put lockRank t.id { m with
          timestamp := ts, txn := some { t with writeTimestamp := ts } } s.intents) ∧
      ((m.timestamp.Less intent.txn.writeTimestamp ∧ ∃ h0 hts, s'.versions =
          clear ⟨m.timestamp, h0⟩
            (put versionRank ⟨ts, hts⟩ (rolledBackVal.getD w) s.versions)) ∨
        (¬ m.timestamp.Less intent.txn.writeTimestamp ∧ s'.versions = s.versions)) := by
  obtain ⟨h0, hmem⟩ := hseek
  refine ⟨_, rfl, ?_⟩
  unfold updateIntent at h
  generalize (if rolledBackVal.isSome then intent.txn.writeTimestamp.forward m.timestamp
    else intent.txn.writeTimestamp) = ts at h ⊢
  by_cases hback : ts.Less m.timestamp
  · rw [if_pos hback] at h
    cases h
  rw [if_neg hback] at h
  set s₁ : KeyState := if commit then s.clearIntent t.id else s.putIntent t.id { m with
    timestamp := ts, txn := some { t with writeTimestamp := ts } } with hs₁
  have hinline₁ : s₁.inline = s.inline := by
    rw [hs₁]
    split_ifs <;> rfl
  have hversions₁ : s₁.versions = s.versions := by
    rw [hs₁]
    split_ifs <;> rfl
  have hintents₁ : s₁.intents = (if commit then clear t.id s.intents else
      put lockRank t.id { m with
        timestamp := ts, txn := some { t with writeTimestamp := ts } } s.intents) := by
    rw [hs₁]
    split_ifs <;> rfl
  by_cases hless : m.timestamp.Less intent.txn.writeTimestamp
  · have hfound := seekVersion_of_mem hmem
    have hord : m.timestamp.EqOrdering m.timestamp := ⟨rfl, rfl⟩
    rw [if_pos hless, hfound] at h
    dsimp only at h
    rw [if_neg (not_not.mpr hord)] at h
    obtain ⟨s₂, hput, hclear⟩ := bind_eq_ok h
    obtain ⟨hts, hversions₂, hintents₂, hinline₂⟩ := putMVCC_eq_ok hput
    obtain ⟨h0, hversions₃, hintents₃, hinline₃⟩ := clearMVCC_eq_ok hclear
    refine ⟨by rw [hinline₃, hinline₂, hinline₁], by rw [hintents₃, hintents₂, hintents₁],
      .inl ⟨hless, h0, hts, ?_⟩⟩
    rw [hversions₃, hversions₂, hversions₁]
  · rw [if_neg hless] at h
    obtain rfl := ok.inj h
    exact ⟨hinline₁, hintents₁, .inr ⟨hless, hversions₁⟩⟩

theorem rewrite_eq_restored {ignored : List IgnoredSeqNumRange} {m' : MVCCMetadata} {t' : TxnMeta}
    {value : Bytes} (h : mvccMaybeRewriteIntentHistory ignored m t = .restored m' t' value) :
    ∃ before e, lastNotIgnored ignored m.intentHistory = some (before, e) ∧
      t' = { t with sequence := e.sequence } ∧ value = e.value ∧
      m' = { m with
        txn := some { t with sequence := e.sequence }, intentHistory := before,
        deleted := e.value.length = 0, valBytes := e.value.length } := by
  unfold mvccMaybeRewriteIntentHistory at h
  split_ifs at h
  split at h
  · cases h
  · rename_i before e hlast
    obtain ⟨rfl, rfl, rfl⟩ := Rollback.restored.inj h
    exact ⟨before, e, hlast, rfl, rfl, rfl⟩

end Cockroach.Storage
