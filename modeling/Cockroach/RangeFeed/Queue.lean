import Cockroach.RangeFeed.ResolvedTimestamp

/-! What an update of the intent queue does to the reference counts and to the oldest transaction,
and that recomputing the resolved timestamp succeeds. -/
namespace Cockroach.RangeFeed
open ByteOrder Hlc List
open Timestamp (eqOrdering_iff less_iff ticks_backward ticks_forward)

variable {t u : UnresolvedTxn}

theorem UnresolvedTxn.ticks_le_of_less (h : t.less u = true) :
    t.timestamp.ticks ≤ u.timestamp.ticks := by
  unfold UnresolvedTxn.less at h
  split_ifs at h with heq
  · exact ((eqOrdering_iff _ _).mp heq).le
  · rw [decide_eq_true_eq, less_iff] at h
    exact h.le

theorem UnresolvedTxn.ticks_le_of_not_less (h : ¬ t.less u = true) :
    u.timestamp.ticks ≤ t.timestamp.ticks := by
  unfold UnresolvedTxn.less at h
  split_ifs at h with heq
  · exact ((eqOrdering_iff _ _).mp heq).ge
  · rw [decide_eq_true_eq, less_iff] at h
    omega

namespace UnresolvedIntentQueue

variable {uiq : UnresolvedIntentQueue} {txnID id : ℕ} {txnKey : Bytes} {txnMinTS ts : Timestamp}
  {delta : ℤ} {n : ℕ}

variable {l : List UnresolvedTxn} {u : UnresolvedTxn}

theorem oldestOf_spec (h : oldestOf l = some u) :
    u ∈ l ∧ ∀ t ∈ l, u.timestamp.ticks ≤ t.timestamp.ticks := by
  induction l generalizing u with
  | nil => cases h
  | cons t l ih =>
    rw [oldestOf] at h
    cases hrest : oldestOf l with
    | none =>
      rw [hrest] at h
      obtain rfl := Option.some.inj h
      cases l with
      | nil => simp
      | cons v l =>
        rw [oldestOf] at hrest
        split at hrest
        · cases hrest
        · split_ifs at hrest
    | some v =>
      obtain ⟨hv, hle⟩ := ih hrest
      rw [hrest] at h
      dsimp only at h
      split_ifs at h with hless
      · obtain rfl := Option.some.inj h
        refine ⟨mem_cons_of_mem t hv, forall_mem_cons.mpr ⟨?_, hle⟩⟩
        exact UnresolvedTxn.ticks_le_of_less hless
      · obtain rfl := Option.some.inj h
        have ht := UnresolvedTxn.ticks_le_of_not_less hless
        exact ⟨mem_cons_self, forall_mem_cons.mpr ⟨le_rfl, fun w hw => ht.trans (hle w hw)⟩⟩

theorem oldestOf_eq_none (h : oldestOf l = none) : l = [] := by
  cases l with
  | nil => rfl
  | cons t l =>
    rw [oldestOf] at h
    split at h
    · cases h
    · split_ifs at h

def Distinct (uiq : UnresolvedIntentQueue) : Prop := (uiq.txns.map UnresolvedTxn.txnID).Nodup

variable {t : UnresolvedTxn}

theorem Distinct.eq_of_mem (h : uiq.Distinct) (ht : t ∈ uiq.txns) (hu : u ∈ uiq.txns)
    (heq : t.txnID = u.txnID) : t = u := inj_on_of_nodup_map h ht hu heq

theorem find_eq_none : uiq.find txnID = none ↔ ∀ t ∈ uiq.txns, t.txnID ≠ txnID := by
  simp [find]

theorem mem_of_find (h : uiq.find txnID = some t) : t ∈ uiq.txns ∧ t.txnID = txnID :=
  ⟨mem_of_find?_eq_some h, by simpa using find?_some h⟩

theorem find_eq_some (h : uiq.Distinct) :
    uiq.find txnID = some t ↔ t ∈ uiq.txns ∧ t.txnID = txnID := by
  refine ⟨mem_of_find, ?_⟩
  rintro ⟨ht, rfl⟩
  cases hfind : uiq.find t.txnID with
  | none => exact absurd rfl (find_eq_none.mp hfind t ht)
  | some u => rw [h.eq_of_mem (mem_of_find hfind).1 ht (mem_of_find hfind).2]

theorem mem_remove : t ∈ (uiq.remove txnID).txns ↔ t ∈ uiq.txns ∧ t.txnID ≠ txnID := by
  simp [remove]

theorem Distinct.remove (h : uiq.Distinct) : (uiq.remove txnID).Distinct :=
  List.Nodup.sublist (filter_sublist.map _) h

theorem Distinct.push (h : uiq.Distinct) (ht : ∀ u ∈ uiq.txns, u.txnID ≠ t.txnID) :
    (uiq.push t).Distinct := by
  refine nodup_cons.mpr ⟨fun hmem => ?_, h⟩
  obtain ⟨u, hu, heq⟩ := mem_map.mp hmem
  exact ht u hu heq

inductive Updates (uiq : UnresolvedIntentQueue) (txnID : ℕ) (ts : Timestamp) (delta : ℤ) :
    Bool × UnresolvedIntentQueue → Prop
  | ignored : uiq.find txnID = none → (delta = 0 ∨ delta < 0 ∧ uiq.allowNegRefCount = false) →
      Updates uiq txnID ts delta (false, uiq)
  | added {txn : UnresolvedTxn} : uiq.find txnID = none → delta ≠ 0 →
      (delta < 0 → uiq.allowNegRefCount = true) → txn.txnID = txnID → txn.timestamp = ts →
      txn.refCount = delta → Updates uiq txnID ts delta (false, uiq.push txn)
  | removed {txn : UnresolvedTxn} : uiq.find txnID = some txn → (txn.refCount + delta = 0 ∨
      txn.refCount + delta < 0 ∧ uiq.allowNegRefCount = false) →
      Updates uiq txnID ts delta (uiq.isMin txnID, uiq.remove txnID)
  | moved {txn txn' : UnresolvedTxn} : uiq.find txnID = some txn → txn.refCount + delta ≠ 0 →
      (txn.refCount + delta < 0 → uiq.allowNegRefCount = true) → txn'.txnID = txnID →
      txn'.timestamp = txn.timestamp.forward ts → txn'.refCount = txn.refCount + delta →
      Updates uiq txnID ts delta
        (if txn.timestamp.Less ts then uiq.isMin txnID else false, (uiq.remove txnID).push txn')

theorem updateTxn_updates :
    Updates uiq txnID ts delta (uiq.updateTxn txnID txnKey txnMinTS ts delta) := by
  unfold updateTxn
  cases hfind : uiq.find txnID with
  | none =>
    split_ifs with hdelta
    · exact .ignored hfind hdelta
    · rw [not_or, not_and, Bool.not_eq_false] at hdelta
      exact .added hfind hdelta.1 hdelta.2 rfl rfl rfl
  | some txn =>
    dsimp only
    by_cases hcount : txn.refCount + delta = 0 ∨
        txn.refCount + delta < 0 ∧ uiq.allowNegRefCount = false
    · rw [if_pos hcount]
      exact .removed hfind hcount
    · rw [if_neg hcount]
      rw [not_or, not_and, Bool.not_eq_false] at hcount
      exact .moved hfind hcount.1 hcount.2 (mem_of_find hfind).2 rfl rfl

/-- The reference count of a transaction, which is zero if it is not tracked. -/
def refs (uiq : UnresolvedIntentQueue) (txnID : ℕ) : ℤ :=
  ((uiq.find txnID).map UnresolvedTxn.refCount).getD 0

theorem refs_of_mem (h : uiq.Distinct) (ht : t ∈ uiq.txns) : uiq.refs t.txnID = t.refCount := by
  rw [refs, (find_eq_some h).mpr ⟨ht, rfl⟩]
  rfl

theorem exists_of_refs_ne_zero (h : uiq.refs txnID ≠ 0) : ∃ t ∈ uiq.txns, t.txnID = txnID := by
  cases hfind : uiq.find txnID with
  | none =>
    rw [refs, hfind] at h
    exact absurd rfl h
  | some t => exact ⟨t, mem_of_find hfind⟩

theorem refs_of_find_none (h : uiq.find txnID = none) : uiq.refs txnID = 0 := by
  rw [refs, h]
  rfl

theorem find_push_self (t : UnresolvedTxn) : (uiq.push t).find t.txnID = some t := by
  simp [find, push]

theorem find_push_of_ne (h : t.txnID ≠ id) : (uiq.push t).find id = uiq.find id := by
  simp [find, push, h]

theorem find_remove_self : (uiq.remove txnID).find txnID = none := by
  rw [find_eq_none]
  exact fun t ht => (mem_remove.mp ht).2

theorem find_remove_of_ne (h : id ≠ txnID) : (uiq.remove txnID).find id = uiq.find id := by
  unfold find remove
  rw [find?_filter]
  congr 1
  funext t
  by_cases ht : t.txnID = id
  · simp [ht, h]
  · simp [ht]

namespace Updates

variable {r : Bool × UnresolvedIntentQueue}

section

variable (hr : Updates uiq txnID ts delta r)
include hr

theorem distinct (h : uiq.Distinct) : r.2.Distinct := by
  cases hr with
  | ignored => exact h
  | added hfind _ _ hid =>
    refine h.push ?_
    rw [hid]
    exact find_eq_none.mp hfind
  | removed => exact h.remove
  | moved _ _ _ hid =>
    refine h.remove.push ?_
    rw [hid]
    exact fun t ht => (mem_remove.mp ht).2

theorem allowNegRefCount : r.2.allowNegRefCount = uiq.allowNegRefCount := by
  cases hr <;> rfl

theorem refs_of_ne (hne : id ≠ txnID) : r.2.refs id = uiq.refs id := by
  unfold refs
  cases hr with
  | ignored => rfl
  | added _ _ _ hid => rw [find_push_of_ne (hid ▸ hne.symm)]
  | removed => rw [find_remove_of_ne hne]
  | moved _ _ _ hid => rw [find_push_of_ne (hid ▸ hne.symm), find_remove_of_ne hne]

theorem refs_self (hcount : uiq.allowNegRefCount = true ∨ 0 ≤ uiq.refs txnID + delta) :
    r.2.refs txnID = uiq.refs txnID + delta := by
  cases hr with
  | ignored hfind hdelta =>
    rw [refs_of_find_none hfind] at hcount ⊢
    rcases hdelta with rfl | ⟨hneg, hallow⟩
    · rfl
    · rcases hcount with htrue | hle
      · rw [hallow] at htrue
        cases htrue
      · omega
  | added hfind _ _ hid _ hrefs =>
    rw [refs_of_find_none hfind, refs, ← hid, find_push_self, zero_add, ← hrefs]
    rfl
  | @removed txn hfind hzero =>
    have hrefs : uiq.refs txnID = txn.refCount := by
      rw [refs, hfind]
      rfl
    rw [refs_of_find_none find_remove_self, hrefs]
    rcases hzero with hzero | ⟨hneg, hallow⟩
    · exact hzero.symm
    · rcases hcount with htrue | hle
      · rw [hallow] at htrue
        cases htrue
      · omega
  | @moved txn txn' hfind _ _ hid _ hrefs' =>
    have hrefs : uiq.refs txnID = txn.refCount := by
      rw [refs, hfind]
      rfl
    rw [hrefs, refs, ← hid, find_push_self, ← hrefs']
    rfl

theorem mem_cases (ht : t ∈ r.2.txns) : t ∈ uiq.txns ∧ t.txnID ≠ txnID ∨
      uiq.find txnID = none ∧ delta ≠ 0 ∧ (delta < 0 → uiq.allowNegRefCount = true) ∧
        t.txnID = txnID ∧ t.timestamp = ts ∧ t.refCount = delta ∨
      ∃ u ∈ uiq.txns, u.txnID = txnID ∧ t.txnID = txnID ∧
        t.timestamp = u.timestamp.forward ts ∧ t.refCount = u.refCount + delta ∧
        t.refCount ≠ 0 ∧ (t.refCount < 0 → uiq.allowNegRefCount = true) := by
  cases hr with
  | ignored hfind => exact .inl ⟨ht, find_eq_none.mp hfind t ht⟩
  | added hfind hne hneg hid hts hrefs =>
    rcases mem_cons.mp ht with rfl | ht
    · exact .inr (.inl ⟨hfind, hne, hneg, hid, hts, hrefs⟩)
    · exact .inl ⟨ht, find_eq_none.mp hfind t ht⟩
  | removed => exact .inl (mem_remove.mp ht)
  | @moved txn txn' hfind hne hneg hid hts hrefs =>
    rcases mem_cons.mp ht with rfl | ht
    · obtain ⟨hu, huid⟩ := mem_of_find hfind
      rw [← hrefs] at hne hneg
      exact .inr (.inr ⟨txn, hu, huid, hid, hts, hrefs, hne, hneg⟩)
    · exact .inl (mem_remove.mp ht)

theorem above (hts : delta ≠ 0 → (delta < 0 → uiq.allowNegRefCount = true) → n < ts.ticks)
    (habove : ∀ t ∈ uiq.txns, n < t.timestamp.ticks) : ∀ t ∈ r.2.txns, n < t.timestamp.ticks := by
  intro t ht
  rcases hr.mem_cases ht with ⟨ht, -⟩ | ⟨-, hne, hneg, -, heq, -⟩ | ⟨u, hu, -, -, heq, -⟩
  · exact habove t ht
  · rw [heq]
    exact hts hne hneg
  · rw [heq, ticks_forward]
    exact (habove u hu).trans_le (le_max_left _ _)

end

end Updates

theorem exists_le_of_not_isMin (h : uiq.isMin txnID = false) (ht : t ∈ uiq.txns) :
    ∃ u ∈ (uiq.remove txnID).txns, u.timestamp.ticks ≤ t.timestamp.ticks := by
  cases hold : uiq.oldest with
  | none =>
    rw [oldestOf_eq_none hold] at ht
    cases ht
  | some u =>
    obtain ⟨hu, hle⟩ := oldestOf_spec hold
    refine ⟨u, mem_remove.mpr ⟨hu, fun hid => ?_⟩, hle t ht⟩
    rw [isMin, hold, decide_eq_false_iff_not] at h
    exact h (congrArg some hid)

variable {r : Bool × UnresolvedIntentQueue}

theorem Updates.above_of_false (hr : Updates uiq txnID ts delta r) (h : uiq.Distinct)
    (hfalse : r.1 = false) (habove : ∀ t ∈ r.2.txns, n < t.timestamp.ticks) :
    ∀ t ∈ uiq.txns, n < t.timestamp.ticks := by
  intro t ht
  cases hr with
  | ignored => exact habove t ht
  | added => exact habove t (mem_cons_of_mem _ ht)
  | removed =>
    obtain ⟨u, hu, hle⟩ := exists_le_of_not_isMin hfalse ht
    exact (habove u hu).trans_le hle
  | @moved txn txn' hfind _ _ _ hts _ =>
    by_cases hless : txn.timestamp.Less ts
    · rw [if_pos hless] at hfalse
      obtain ⟨u, hu, hle⟩ := exists_le_of_not_isMin hfalse ht
      exact (habove u (mem_cons_of_mem _ hu)).trans_le hle
    · by_cases hid : t.txnID = txnID
      · obtain ⟨hmem, htxn⟩ := mem_of_find hfind
        have hnew := habove txn' mem_cons_self
        rw [less_iff] at hless
        rw [hts, ticks_forward, max_eq_left (by omega)] at hnew
        rwa [h.eq_of_mem ht hmem (hid.trans htxn.symm)]
      · exact habove t (mem_cons_of_mem _ (mem_remove.mpr ⟨ht, hid⟩))

theorem del_spec (h : uiq.Distinct) (hr : uiq.del txnID = r) :
    (∀ t, t ∈ r.2.txns ↔ t ∈ uiq.txns ∧ t.txnID ≠ txnID) ∧ r.2.Distinct ∧
      r.2.allowNegRefCount = uiq.allowNegRefCount ∧ (∀ id ≠ txnID, r.2.refs id = uiq.refs id) ∧
      (r.1 = false → (∀ t ∈ r.2.txns, n < t.timestamp.ticks) →
        ∀ t ∈ uiq.txns, n < t.timestamp.ticks) := by
  unfold del at hr
  cases hfind : uiq.find txnID with
  | none =>
    rw [hfind] at hr
    subst hr
    refine ⟨fun t => ⟨fun ht => ⟨ht, find_eq_none.mp hfind t ht⟩, And.left⟩, h, rfl,
      fun _ _ => rfl, fun _ habove => habove⟩
  | some txn =>
    rw [hfind] at hr
    subst hr
    refine ⟨fun t => mem_remove, h.remove, rfl, fun id hne => ?_, fun hfalse habove t ht => ?_⟩
    · rw [refs, refs, find_remove_of_ne hne]
    · obtain ⟨u, hu, hle⟩ := exists_le_of_not_isMin hfalse ht
      exact (habove u hu).trans_le hle

end UnresolvedIntentQueue

namespace ResolvedTimestamp

variable {rts : ResolvedTimestamp}

/-- The resolved timestamp is the start of a nanosecond that is closed and lies before all
unresolved transactions. -/
structure Sound (rts : ResolvedTimestamp) : Prop where
  whole : 2 ^ 31 ∣ rts.resolvedTS.ticks
  le_closed : rts.resolvedTS.ticks ≤ rts.closedTS.ticks
  above : ∀ t ∈ rts.intentQ.txns, rts.resolvedTS.ticks < t.timestamp.ticks

/-- There is no later one. -/
def Latest (rts : ResolvedTimestamp) : Prop :=
  ∀ n, 2 ^ 31 ∣ n → n ≤ rts.closedTS.ticks →
    (∀ t ∈ rts.intentQ.txns, n < t.timestamp.ticks) → n ≤ rts.resolvedTS.ticks

theorem target_spec (h : rts.Sound) : ∃ ts, rts.target = some ts ∧
    ts.ticks ≤ rts.closedTS.ticks ∧ (∀ t ∈ rts.intentQ.txns, ts.ticks < t.timestamp.ticks) ∧
    ∀ n, n ≤ rts.closedTS.ticks → (∀ t ∈ rts.intentQ.txns, n < t.timestamp.ticks) →
      n ≤ ts.ticks := by
  unfold target
  cases hold : rts.intentQ.oldest with
  | none =>
    have hnil := UnresolvedIntentQueue.oldestOf_eq_none hold
    refine ⟨rts.closedTS, rfl, le_rfl, by simp [hnil], fun n hn _ => hn⟩
  | some txn =>
    obtain ⟨hmem, hle⟩ := UnresolvedIntentQueue.oldestOf_spec hold
    have hlt := h.above txn hmem
    obtain ⟨ts, hts⟩ := Timestamp.exists_prev (t := txn.timestamp) (by omega)
    have hprev := (Timestamp.prev_eq_some hts).1
    dsimp only
    rw [if_neg (by rw [Timestamp.lessEq_iff]; omega), hts]
    refine ⟨rts.closedTS.backward ts, rfl, ?_, fun t ht => ?_, fun n hn habove => ?_⟩
    · rw [ticks_backward]
      exact min_le_left _ _
    · have ht' := hle t ht
      rw [ticks_backward]
      omega
    · have hn' := habove txn hmem
      rw [ticks_backward]
      omega

theorem recompute_eq (hinit : rts.isInit = true)
    (hclosed : rts.resolvedTS.ticks ≤ rts.closedTS.ticks) {ts : Timestamp}
    (hts : rts.target = some ts) (hle : rts.resolvedTS.ticks ≤ ts.floor.ticks) :
    rts.recompute = some (decide (rts.resolvedTS.ticks < ts.floor.ticks),
      { rts with resolvedTS := rts.resolvedTS.forward ts.floor }) := by
  have hless : ¬ rts.closedTS.Less rts.resolvedTS := by
    rw [less_iff]
    exact Nat.not_lt.mpr hclosed
  have hnew : ¬ ts.floor.Less rts.resolvedTS := by
    rw [less_iff]
    exact Nat.not_lt.mpr hle
  have hdec : decide (rts.resolvedTS.Less ts.floor) =
      decide (rts.resolvedTS.ticks < ts.floor.ticks) :=
    decide_eq_decide.mpr (less_iff _ _)
  -- A tactic that compares the two instances would compute with the ticks, so they stay as they
  -- are.
  rewrite [← hdec, recompute, if_neg (by rw [hinit]; decide), if_neg hless, hts]
  exact if_neg hnew

theorem recompute_spec (hinit : rts.isInit = true) (h : rts.Sound) :
    ∃ ts, rts.recompute =
        some (decide (rts.resolvedTS.ticks < ts.ticks), { rts with resolvedTS := ts }) ∧
      rts.resolvedTS.ticks ≤ ts.ticks ∧ Sound { rts with resolvedTS := ts } ∧
      Latest { rts with resolvedTS := ts } := by
  obtain ⟨ts, hts, hclosed, habove, hlatest⟩ := target_spec h
  have hfloor := ts.ticks_floor
  have hres := hlatest _ h.le_closed h.above
  have hle : rts.resolvedTS.ticks ≤ ts.floor.ticks := by
    obtain ⟨k, hk⟩ := h.whole
    omega
  have hticks : (rts.resolvedTS.forward ts.floor).ticks = ts.floor.ticks := by
    rw [ticks_forward, max_eq_right hle]
  have heq := recompute_eq hinit h.le_closed hts hle
  generalize rts.resolvedTS.forward ts.floor = new at heq hticks
  rw [← hticks] at heq hfloor hle
  refine ⟨new, heq, hle, ⟨?_, ?_, ?_⟩, ?_⟩
  · exact ⟨_, hfloor.trans (Nat.mul_comm _ _)⟩
  · change new.ticks ≤ rts.closedTS.ticks
    omega
  · intro t ht
    have := habove t ht
    change new.ticks < _
    omega
  · intro n hn hnclosed hnabove
    have := hlatest n hnclosed hnabove
    change n ≤ new.ticks
    omega

variable {changed : Bool}

theorem settle_spec (hinit : rts.isInit = true) (h : rts.Sound)
    (hlatest : changed = false → rts.Latest) :
    ∃ b ts, rts.settle changed = some (b, { rts with resolvedTS := ts }) ∧
      rts.resolvedTS.ticks ≤ ts.ticks ∧ Sound { rts with resolvedTS := ts } ∧
      Latest { rts with resolvedTS := ts } := by
  obtain ⟨ts, hts, hle, hsound, hlatest'⟩ := recompute_spec hinit h
  cases changed with
  | true => exact ⟨_, ts, hts, hle, hsound, hlatest'⟩
  | false =>
    have heq : rts.resolvedTS.ticks = ts.ticks :=
      le_antisymm hle (hlatest rfl _ hsound.whole hsound.le_closed hsound.above)
    refine ⟨false, ts, ?_, hle, hsound, hlatest'⟩
    have hsame : rts.assertNoChange = some { rts with resolvedTS := ts } := by
      have hno : ¬ (decide (rts.resolvedTS.ticks < ts.ticks) = true ∨
          ¬ rts.resolvedTS.EqOrdering ts) := by
        rw [not_or, not_not, decide_eq_true_eq]
        exact ⟨heq.not_lt, (eqOrdering_iff _ _).mpr heq⟩
      exact Option.bind_eq_some_iff.mpr ⟨_, hts, if_neg hno⟩
    rw [settle, hsame]
    rfl

theorem settle_of_not_init (hinit : rts.isInit = false) :
    rts.settle changed = some (false, rts) := by
  have hrec : rts.recompute = some (false, rts) := if_pos hinit
  cases changed with
  | true => exact hrec
  | false =>
    have hsame : rts.assertNoChange = some rts := by
      unfold assertNoChange
      rw [hrec]
      refine if_neg ?_
      rw [not_or, not_not]
      exact ⟨by simp, (eqOrdering_iff _ _).mpr rfl⟩
    rw [settle, hsame]
    rfl

end ResolvedTimestamp

end Cockroach.RangeFeed
