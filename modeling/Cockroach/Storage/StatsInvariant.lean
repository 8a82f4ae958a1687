import Cockroach.Storage.StatsLedger

/-! Every run of calls leaves the intents of a key in the form that the statistics rely on. -/
namespace Cockroach.Storage
open ByteOrder Hlc

variable {marshal : MVCCMetadata → Bytes} {key : Bytes}

/-- The form of an intent that the statistics rely on. -/
def CountsValue (m : MVCCMetadata) : Prop :=
  m.keyBytes = KeyState.mvccVersionTimestampSize ∧ m.rawBytes = []

variable {s : KeyState}

theorem accounted_iff : Accounted s ↔ WellFormed s ∧ ∀ i ∈ s.intents, CountsValue i.2 := by
  constructor
  · intro h
    refine ⟨h.wellFormed, ?_⟩
    intro i hi
    exact ⟨h.keyBytes_eq i hi, h.rawBytes_eq i hi⟩
  · rintro ⟨hs, hi⟩
    exact ⟨hs, fun i h => (hi i h).1, fun i h => (hi i h).2⟩

variable {txn : Option Transaction}

theorem countsValue_finishWrite {p : PendingWrite} {r : PutResult}
    (hp : ∀ i ∈ p.state.intents, CountsValue i.2)
    (h : finishWrite txn p = .ok r) : ∀ i ∈ r.state.intents, CountsValue i.2 := by
  obtain ⟨s', hs', rfl⟩ := map_eq_ok h
  obtain ⟨-, -, hintents, -⟩ := putMVCC_eq_ok hs'
  intro i hi
  rw [hintents] at hi
  cases txn with
  | none => exact hp i hi
  | some t =>
    rcases RankedList.mem_of_mem_put hi with rfl | hmem
    · exact ⟨rfl, rfl⟩
    · exact hp i hmem

variable {ms : MVCCStats}

theorem accounted_mvccPutInternal {timestamp : Timestamp} {value : Option Bytes}
    {valueFn : Option ValueFn} {r : PutResult × Effects} (hs : Accounted s)
    (hp : ProperValue value valueFn) (hvalid : ValidWrite timestamp txn)
    (hflag : WriteKeepsFlag s txn)
    (h : WithStats.mvccPutInternal marshal s key timestamp value txn valueFn ms = .ok r) :
    Accounted r.1.state := by
  obtain ⟨hwf, hcounts⟩ := accounted_iff.mp hs
  refine accounted_iff.mpr ⟨wellFormed_mvccPutInternal marshal key hwf hp hvalid hflag h, ?_⟩
  obtain ⟨_, _, hle, -, h⟩ := mvccPutInternal_eq_ok marshal key hvalid h
  rcases putVersioned_cases marshal key hwf hle h with ⟨-, rfl⟩ | ⟨p, op, happends, hfinish⟩ |
    ⟨m, t, v, txn', p, op, -, -, rfl, -, hpending, hfinish⟩
  · exact hcounts
  · obtain ⟨r', hr', rfl⟩ := map_eq_ok hfinish
    exact countsValue_finishWrite (happends.state_eq ▸ hcounts) hr'
  · obtain ⟨r', hr', rfl⟩ := map_eq_ok hfinish
    exact countsValue_finishWrite (overwriteIntent_intents marshal key hpending ▸ hcounts) hr'

theorem countsValue_updateIntent {iter s' : KeyState} {intent : LockUpdate} {m : MVCCMetadata}
    {t : TxnMeta} {w : Bytes} {commit : Bool} {rolledBackVal : Option Bytes}
    (hseek : ∃ h, (⟨m.timestamp, h⟩, w) ∈ iter.versions) (hs : ∀ i ∈ s.intents, CountsValue i.2)
    (hm : CountsValue m)
    (h : updateIntent iter s intent m t m.timestamp commit rolledBackVal = .ok s') :
    ∀ i ∈ s'.intents, CountsValue i.2 := by
  obtain ⟨ts, -, -, hintents, -⟩ := updateIntent_eq_ok hseek h
  intro i hi
  rw [hintents] at hi
  cases commit with
  | true => exact hs i (RankedList.mem_clear.mp hi).1
  | false =>
    rcases RankedList.mem_of_mem_put hi with rfl | hmem
    · exact hm
    · exact hs i hmem

theorem accounted_mvccResolveWriteIntent {intent : LockUpdate} {r : (KeyState × Effects) × Bool}
    (hs : Accounted s) (hflag : RollbackKeepsFlag s intent)
    (h : WithStats.mvccResolveWriteIntent marshal s key intent ms = .ok r) : Accounted r.1.1 := by
  obtain ⟨hwf, hcounts⟩ := accounted_iff.mp hs
  refine accounted_iff.mpr ⟨wellFormed_mvccResolveWriteIntent marshal key hwf hflag h, ?_⟩
  rcases resolveWriteIntent_cases marshal key hwf h with rfl | ⟨m, t, v, hone, hmatch, -, hcases⟩
  · exact hcounts
  have hseek := hmatch.version_mem
  have hm : CountsValue m := hcounts (t.id, m) (by simp [hone])
  rcases hcases with ⟨-, hremove⟩ | ⟨-, hupdate⟩ | ⟨m', t', value, s', hrestore, hput, -, hupdate⟩
  · obtain ⟨s', hs', hr⟩ := map_eq_ok hremove
    obtain ⟨-, -, hintents, -⟩ := removeIntent_eq_ok hs'
    intro j hj
    rw [← hr] at hj
    rw [hintents] at hj
    exact hcounts j (RankedList.mem_clear.mp hj).1
  · exact countsValue_updateIntent hseek hcounts hm (WithStats.updateIntent_eq_ok hupdate).1
  · obtain ⟨before, e, -, rfl, rfl, rfl⟩ := rewrite_eq_restored hrestore
    obtain ⟨-, -, hintents, -⟩ := putMVCC_eq_ok hput
    have hupdated := (WithStats.updateIntent_eq_ok hupdate).1
    exact countsValue_updateIntent (by exact hseek) (hintents ▸ hcounts) (by exact hm) hupdated

/-- Versions that are not those of an intent are dropped, by garbage collection or because they
lie in a time range that is cleared. -/
structure Collected (s s' : KeyState) : Prop where
  inline_eq : s'.inline = s.inline
  intents_eq : s'.intents = s.intents
  sublist : s'.versions.Sublist s.versions
  keeps : ∀ i ∈ s.intents, ∀ v ∈ s.versions, v.1.1 = i.2.timestamp → v ∈ s'.versions

theorem Collected.accounted {s' : KeyState} (h : Collected s s') (hs : Accounted s) :
    Accounted s' := by
  obtain ⟨⟨hinline, hintents⟩, hcounts⟩ := accounted_iff.mp hs
  refine accounted_iff.mpr ⟨⟨h.inline_eq.trans hinline, ?_⟩, ?_⟩
  · rw [h.intents_eq]
    rcases hintents with hnone | ⟨m, t, v, hone, hmatch⟩
    · exact .inl hnone
    · obtain ⟨h0, hmem⟩ := hmatch.version_mem
      have hkept := h.keeps (t.id, m) (by simp [hone]) _ hmem rfl
      have hnewest : ∀ w ∈ s'.versions, w.1.1 ≠ m.timestamp → w.1.1.Less m.timestamp := by
        intro w hw
        exact hmatch.newest w (h.sublist.subset hw)
      exact .inr ⟨m, t, v, hone, { hmatch with version_mem := ⟨h0, hkept⟩, newest := hnewest }⟩
  · rw [h.intents_eq]
    exact hcounts

variable (marshal key) in
/-- The states reached by calls that keep the flag of the intent, and by dropping versions. -/
inductive Maintained : KeyState → Prop where
  | initial : Maintained .initial
  | call {s : KeyState} (c : Call) : Maintained s → c.Valid → c.KeepsFlag s →
      Maintained (c.apply marshal key s)
  | collect {s s' : KeyState} : Maintained s → Collected s s' → Maintained s'

theorem Call.accounted_apply {c : Call} (hs : Accounted s) (hvalid : c.Valid)
    (hflag : c.KeepsFlag s) : Accounted (c.apply marshal key s) :=
  c.apply_invariant marshal key hs hvalid hflag (accounted_mvccPutInternal hs)
    (accounted_mvccResolveWriteIntent hs)

theorem accounted_of_maintained (h : Maintained marshal key s) : Accounted s := by
  induction h with
  | initial =>
    refine accounted_iff.mpr ⟨⟨rfl, .inl rfl⟩, ?_⟩
    intro i hi
    cases hi
  | call c _ hvalid hflag ih => exact c.accounted_apply ih hvalid hflag
  | collect _ hcollected ih => exact hcollected.accounted ih

end Cockroach.Storage
