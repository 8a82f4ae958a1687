import Cockroach.RangeFeed.Queue

/-! Streams of logical operations that transactions on a range produce, with the scan of the intents
that were there before, and what the resolved timestamp promises about them. -/
namespace Cockroach.RangeFeed
open ByteOrder Hlc List
open Timestamp (lessEq_iff less_iff ticks_empty ticks_forward)
open UnresolvedIntentQueue (del_spec refs_of_mem updateTxn_updates)

structure Intent where
  txnID : ℕ
  txnKey : Bytes
  txnMinTimestamp : Timestamp
  timestamp : Timestamp
deriving DecidableEq

/-- What transactions have done on a range. -/
structure History where
  /-- The number of intents that are not removed yet. -/
  live : ℕ → ℕ
  /-- The intents from before the stream that the scan has not delivered yet. -/
  scan : List Intent
  /-- The ticks of the latest operation. -/
  latest : ℕ → ℕ
  aborted : ℕ → Bool
  committed : ℕ → Bool

/-- The number of intents of a transaction that the scan has not delivered yet. -/
def History.unscanned (h : History) (txnID : ℕ) : ℕ := h.scan.countP fun i => i.txnID = txnID

/-- The history before a stream, with the intents that are there. -/
def History.start (intents : List Intent) : History where
  live txnID := intents.countP fun i => i.txnID = txnID
  scan := intents
  latest txnID :=
    ((intents.filter fun i => i.txnID = txnID).map fun i => i.timestamp.ticks).foldr max 0
  aborted _ := false
  committed _ := false

inductive Event where
  | op (op : LogicalOp)
  | scan (i : Intent)
  | init
  | forwardClosedTS (ts : Timestamp)

structure State where
  rts : ResolvedTimestamp
  history : History

def State.start (intents : List Intent) : State := ⟨.make, .start intents⟩

/-- The transactions keep to the closed timestamp and to their own operations, and all intents that
were there are scanned before the resolved timestamp is initialized. -/
def Event.Allowed (s : State) : Event → Prop
  | op (.writeValue ts) => s.rts.closedTS.Less ts
  | op (.writeIntent _ _ _ ts) => s.rts.closedTS.Less ts
  | op (.updateIntent _ _) => True
  | op (.commitIntent txnID ts) => 0 < s.history.live txnID ∧
      s.history.latest txnID ≤ ts.ticks ∧ s.history.aborted txnID = false
  | op (.abortIntent txnID) => 0 < s.history.live txnID
  | op (.abortTxn txnID) => s.history.committed txnID = false
  | scan i => i ∈ s.history.scan
  | init => s.history.scan = []
  | forwardClosedTS _ => True

open Function in
def History.after (h : History) : Event → History
  | .op (.writeValue _) => h
  | .op (.writeIntent txnID _ _ ts) => { h with
      live := update h.live txnID (h.live txnID + 1)
      latest := update h.latest txnID (max (h.latest txnID) ts.ticks) }
  | .op (.updateIntent txnID ts) => { h with
      latest := update h.latest txnID (max (h.latest txnID) ts.ticks) }
  | .op (.commitIntent txnID ts) => { h with
      live := update h.live txnID (h.live txnID - 1)
      latest := update h.latest txnID (max (h.latest txnID) ts.ticks)
      committed := update h.committed txnID true }
  | .op (.abortIntent txnID) => { h with live := update h.live txnID (h.live txnID - 1) }
  | .op (.abortTxn txnID) => { h with aborted := update h.aborted txnID true }
  | .scan i => { h with scan := h.scan.erase i }
  | .init => h
  | .forwardClosedTS _ => h

def Event.apply (rts : ResolvedTimestamp) : Event → Option (Bool × ResolvedTimestamp)
  | op o => rts.consumeLogicalOp o
  | scan i => rts.consumeLogicalOp (.writeIntent i.txnID i.txnKey i.txnMinTimestamp i.timestamp)
  | init => rts.init
  | forwardClosedTS ts => rts.forwardClosedTS ts

def Event.step (e : Event) (s : State) : Option State :=
  (e.apply s.rts).map fun r => ⟨r.2, s.history.after e⟩

/-- A run of allowed events without a panic. -/
inductive Run : State → List Event → State → Prop
  | nil (s : State) : Run s [] s
  | cons {s s' s'' : State} {e : Event} {es : List Event} : e.Allowed s → e.step s = some s' →
      Run s' es s'' → Run s (e :: es) s''

instance (s : State) (e : Event) : Decidable (e.Allowed s) :=
  match e with
  | .op (.writeValue _) => inferInstanceAs (Decidable (Timestamp.Less _ _))
  | .op (.writeIntent _ _ _ _) => inferInstanceAs (Decidable (Timestamp.Less _ _))
  | .op (.updateIntent _ _) => inferInstanceAs (Decidable True)
  | .op (.commitIntent _ _) => inferInstanceAs (Decidable (_ ∧ _ ∧ _))
  | .op (.abortIntent _) => inferInstanceAs (Decidable (_ < _))
  | .op (.abortTxn _) => inferInstanceAs (Decidable (_ = _))
  | .scan _ => inferInstanceAs (Decidable (_ ∈ _))
  | .init => inferInstanceAs (Decidable (_ = _))
  | .forwardClosedTS _ => inferInstanceAs (Decidable True)

/-- The state after some events, if they are allowed and do not panic. -/
def State.run (s : State) : List Event → Option State
  | [] => some s
  | e :: es => if e.Allowed s then (e.step s).bind fun s => s.run es else none

variable {events : List Event}

theorem State.run_of_run {s s' : State} (h : s.run events = some s') : Run s events s' := by
  induction events generalizing s with
  | nil =>
    obtain rfl := Option.some.inj h
    exact .nil s
  | cons e es ih =>
    rw [State.run] at h
    split_ifs at h with he
    obtain ⟨s₁, hstep, hrun⟩ := Option.bind_eq_some_iff.mp h
    exact .cons he hstep (ih hrun)

/-- The timestamp at which an event publishes a value. -/
def Event.published : Event → Option Timestamp
  | op (.writeValue ts) => some ts
  | op (.commitIntent _ ts) => some ts
  | _ => none

/-- While not all intents are known, nothing is resolved, and the counts are those of the intents
that were delivered less those that were removed. -/
structure BeforeInit (s : State) : Prop where
  resolved : s.rts.resolvedTS.ticks = 0
  allowNegRefCount : s.rts.intentQ.allowNegRefCount = true
  refs : ∀ txnID, s.rts.intentQ.refs txnID =
    (s.history.live txnID : ℤ) - s.history.unscanned txnID
  txn : ∀ t ∈ s.rts.intentQ.txns, t.refCount ≠ 0 ∧
    (0 < t.refCount → 0 < t.timestamp.ticks ∧ t.timestamp.ticks ≤ s.history.latest t.txnID)

/-- Later on the intents of a transaction are counted unless it is known to be aborted. -/
structure AfterInit (s : State) : Prop where
  scan : s.history.scan = []
  allowNegRefCount : s.rts.intentQ.allowNegRefCount = false
  sound : s.rts.Sound
  refs : ∀ txnID, s.history.aborted txnID = false →
    s.rts.intentQ.refs txnID = s.history.live txnID
  txn : ∀ t ∈ s.rts.intentQ.txns,
    0 < t.refCount ∧ t.timestamp.ticks ≤ s.history.latest t.txnID

/-- The queue tracks the intents of the history. -/
structure Tracked (s : State) : Prop where
  distinct : s.rts.intentQ.Distinct
  live : ∀ txnID, 0 < s.history.live txnID → 0 < s.history.latest txnID
  scan : ∀ i ∈ s.history.scan, 0 < i.timestamp.ticks ∧
    i.timestamp.ticks ≤ s.history.latest i.txnID
  before : s.rts.isInit = false → BeforeInit s
  after : s.rts.isInit = true → AfterInit s

/-- Between two events the resolved timestamp is as late as it can be. -/
structure Inv (s : State) : Prop extends Tracked s where
  latest : s.rts.isInit = true → s.rts.Latest

variable {s s' : State}

theorem Tracked.resolved_le_closed (h : Tracked s) :
    s.rts.resolvedTS.ticks ≤ s.rts.closedTS.ticks := by
  cases hinit : s.rts.isInit with
  | false =>
    rw [(h.before hinit).resolved]
    exact Nat.zero_le _
  | true => exact (h.after hinit).sound.le_closed

variable {txnID : ℕ}

theorem Tracked.resolved_lt_latest (h : Tracked s) (hlive : 0 < s.history.live txnID)
    (haborted : s.history.aborted txnID = false) :
    s.rts.resolvedTS.ticks < s.history.latest txnID := by
  cases hinit : s.rts.isInit with
  | false =>
    rw [(h.before hinit).resolved]
    exact h.live txnID hlive
  | true =>
    have hafter := h.after hinit
    have hrefs : s.rts.intentQ.refs txnID ≠ 0 := by
      rw [hafter.refs txnID haborted]
      omega
    obtain ⟨t, ht, rfl⟩ := UnresolvedIntentQueue.exists_of_refs_ne_zero hrefs
    exact (hafter.sound.above t ht).trans_le (hafter.txn t ht).2

/-- A computation does not panic, keeps the invariant and does not move the resolved timestamp
back. -/
def Keeps (rts : ResolvedTimestamp) (h : History) (o : Option (Bool × ResolvedTimestamp)) : Prop :=
  ∃ b rts', o = some (b, rts') ∧ Inv ⟨rts', h⟩ ∧ rts.resolvedTS.ticks ≤ rts'.resolvedTS.ticks

theorem Tracked.settle {rts : ResolvedTimestamp} {h : History} {changed : Bool}
    (ht : Tracked ⟨rts, h⟩) (hlatest : changed = false → rts.isInit = true → rts.Latest) :
    Keeps rts h (rts.settle changed) := by
  cases hinit : rts.isInit with
  | false =>
    refine ⟨false, rts, ResolvedTimestamp.settle_of_not_init hinit, ⟨ht, fun htrue => ?_⟩, le_rfl⟩
    rw [hinit] at htrue
    cases htrue
  | true =>
    have hafter := ht.after hinit
    obtain ⟨b, ts, hts, hle, hsound, hlatest'⟩ :=
      ResolvedTimestamp.settle_spec hinit hafter.sound fun hno => hlatest hno hinit
    refine ⟨b, _, hts, ⟨⟨ht.distinct, ht.live, ht.scan, fun hfalse => ?_, fun _ => ?_⟩,
      fun _ => hlatest'⟩, hle⟩
    · rw [hinit] at hfalse
      cases hfalse
    · exact ⟨hafter.scan, hafter.allowNegRefCount, hsound, hafter.refs, hafter.txn⟩

/-- What an update of one transaction by a number of intents does to the history. -/
structure Changes (h h' : History) (txnID ts : ℕ) (delta : ℤ) : Prop where
  count : ∀ id, (h'.live id : ℤ) - h'.unscanned id =
    h.live id - h.unscanned id + if id = txnID then delta else 0
  latest : ∀ id, h.latest id ≤ h'.latest id
  ts_le : ts ≤ h'.latest txnID
  live : ∀ id, 0 < h'.live id → 0 < h'.latest id
  scan : ∀ i ∈ h'.scan, 0 < i.timestamp.ticks ∧ i.timestamp.ticks ≤ h'.latest i.txnID
  scan_nil : h.scan = [] → h'.scan = []
  aborted : ∀ id, h'.aborted id = false → h.aborted id = false

section Updates

variable {h' : History} {txnID : ℕ} {ts : Timestamp} {delta : ℤ}
  {r : Bool × UnresolvedIntentQueue}
  (hr : UnresolvedIntentQueue.Updates s.rts.intentQ txnID ts delta r) (hdelta : delta ≤ 1)
  (hpos : 0 < delta → s.rts.resolvedTS.ticks < ts.ticks)
  (hc : Changes s.history h' txnID ts.ticks delta)
include hr hdelta hpos hc

theorem BeforeInit.update (h : BeforeInit s) : BeforeInit ⟨{ s.rts with intentQ := r.2 }, h'⟩ := by
  refine ⟨h.resolved, hr.allowNegRefCount.trans h.allowNegRefCount, fun id => ?_, fun t ht => ?_⟩
  · rw [hc.count id, ← h.refs id]
    by_cases hid : id = txnID
    · rw [if_pos hid, hid]
      exact hr.refs_self (.inl h.allowNegRefCount)
    · rw [if_neg hid, add_zero]
      exact hr.refs_of_ne hid
  · rw [h.resolved] at hpos
    rcases hr.mem_cases ht with ⟨ht, -⟩ | ⟨-, hne, -, hid, hts, hrefs⟩ |
      ⟨u, hu, huid, hid, hts, hrefs, hne, -⟩
    · obtain ⟨hne, htxn⟩ := h.txn t ht
      exact ⟨hne, fun hlt => ⟨(htxn hlt).1, (htxn hlt).2.trans (hc.latest _)⟩⟩
    · rw [hid, hts, hrefs]
      exact ⟨hne, fun hlt => ⟨hpos hlt, hc.ts_le⟩⟩
    · refine ⟨hne, fun hlt => ?_⟩
      obtain ⟨hune, htxn⟩ := h.txn u hu
      -- A transaction with a negative count is removed before its count becomes positive.
      have hu' := htxn (by omega)
      rw [huid] at hu'
      rw [hid, hts, ticks_forward]
      exact ⟨hu'.1.trans_le (le_max_left _ _), max_le (hu'.2.trans (hc.latest _)) hc.ts_le⟩

omit hdelta in
theorem AfterInit.update (h : AfterInit s) : AfterInit ⟨{ s.rts with intentQ := r.2 }, h'⟩ := by
  have hscan' := hc.scan_nil h.scan
  have hallow : ¬ s.rts.intentQ.allowNegRefCount = true := by simp [h.allowNegRefCount]
  refine ⟨hscan', hr.allowNegRefCount.trans h.allowNegRefCount,
    ⟨h.sound.whole, h.sound.le_closed, ?_⟩, fun id haborted => ?_, fun t ht => ?_⟩
  · refine hr.above (fun hne hneg => hpos ?_) h.sound.above
    by_contra hle
    exact hallow (hneg (by omega))
  · have hrefs := h.refs id (hc.aborted id haborted)
    have hcount := hc.count id
    simp only [History.unscanned, h.scan, hscan', countP_nil] at hcount
    change r.2.refs id = h'.live id
    by_cases hid : id = txnID
    · subst hid
      rw [hr.refs_self (.inr (by omega))]
      omega
    · rw [hr.refs_of_ne hid]
      omega
  · rcases hr.mem_cases ht with ⟨ht, -⟩ | ⟨-, hne, hneg, hid, hts, hrefs⟩ |
      ⟨u, hu, huid, hid, hts, hrefs, hne, hneg⟩
    · exact ⟨(h.txn t ht).1, (h.txn t ht).2.trans (hc.latest _)⟩
    · rw [hid, hts]
      refine ⟨?_, hc.ts_le⟩
      by_contra hle
      exact hallow (hneg (by omega))
    · have hu' := (h.txn u hu).2
      rw [huid] at hu'
      rw [hid, hts, ticks_forward]
      refine ⟨?_, max_le (hu'.trans (hc.latest _)) hc.ts_le⟩
      by_contra hle
      exact hallow (hneg (by omega))

theorem Inv.update (h : Inv s) :
    Keeps s.rts h' (ResolvedTimestamp.settle r.1 { s.rts with intentQ := r.2 }) := by
  have htracked : Tracked ⟨{ s.rts with intentQ := r.2 }, h'⟩ :=
    ⟨hr.distinct h.distinct, hc.live, hc.scan,
      fun hinit => (h.before hinit).update hr hdelta hpos hc,
      fun hinit => (h.after hinit).update hr hpos hc⟩
  refine htracked.settle fun hfalse hinit n hn hclosed habove => ?_
  exact h.latest hinit n hn hclosed (hr.above_of_false h.distinct hfalse habove)

end Updates

theorem Tracked.changes (h : Tracked s) {h' : History} {ts n : ℕ} {delta : ℤ}
    (hscan : h'.scan = s.history.scan) (haborted : h'.aborted = s.history.aborted)
    (hlive : h'.live = Function.update s.history.live txnID n)
    (hlatest : h'.latest = Function.update s.history.latest txnID (max (s.history.latest txnID) ts))
    (hn : (n : ℤ) = s.history.live txnID + delta) (hpos : 0 < delta → 0 < ts) :
    Changes s.history h' txnID ts delta := by
  have hle : ∀ id, s.history.latest id ≤ h'.latest id := by
    intro id
    rw [hlatest, Function.update_apply]
    split_ifs with hid
    · rw [hid]
      exact le_max_left _ _
    · exact le_rfl
  have hts : ts ≤ h'.latest txnID := by
    rw [hlatest, Function.update_self]
    exact le_max_right _ _
  refine ⟨fun id => ?_, hle, hts, fun id hid => ?_, ?_, hscan.trans, fun id hid => ?_⟩
  · rw [History.unscanned, History.unscanned, hscan, hlive, Function.update_apply]
    split_ifs with hid
    · subst hid
      omega
    · omega
  · by_cases hlt : 0 < s.history.live id
    · exact (h.live id hlt).trans_le (hle id)
    · -- The transaction had no intent, so this is its first one.
      have heq : id = txnID := by
        by_contra hne
        rw [hlive, Function.update_of_ne hne] at hid
        exact hlt hid
      subst heq
      rw [hlive, Function.update_self] at hid
      exact (hpos (by omega)).trans_le hts
  · rw [hscan]
    exact fun i hi => ⟨(h.scan i hi).1, (h.scan i hi).2.trans (hle _)⟩
  · rwa [← haborted]

theorem Tracked.changes_scan (h : Tracked s) {i : Intent} (hi : i ∈ s.history.scan) :
    Changes s.history (s.history.after (.scan i)) i.txnID i.timestamp.ticks 1 := by
  have hmem : ∀ j ∈ (s.history.scan.erase i), j ∈ s.history.scan :=
    fun j hj => mem_of_mem_erase hj
  refine ⟨fun id => ?_, fun _ => le_rfl, (h.scan i hi).2, h.live,
    fun j hj => h.scan j (hmem j hj), fun hnil => ?_, fun _ hid => hid⟩
  · change (s.history.live id : ℤ) - ((s.history.scan.erase i).countP fun i => i.txnID = id) = _
    have hpos : i.txnID = id → 0 < s.history.unscanned id := fun hid =>
      countP_pos_iff.mpr ⟨i, hi, by simpa using hid⟩
    rw [countP_erase]
    change _ - ((s.history.unscanned id - if _ then 1 else 0 : ℕ) : ℤ) = _
    by_cases hid : id = i.txnID
    · rw [if_pos ⟨hi, by simp [hid]⟩]
      omega
    · rw [if_neg (by simp [Ne.symm hid])]
      omega
  · rw [hnil] at hi
    cases hi

variable {ts : Timestamp}

theorem ResolvedTimestamp.assertOpAboveRTS_eq {rts : ResolvedTimestamp}
    (h : rts.resolvedTS.ticks < ts.ticks) : rts.assertOpAboveRTS ts = some () := by
  rw [assertOpAboveRTS, if_neg]
  rw [lessEq_iff]
  exact Nat.not_le.mpr h

theorem Inv.writeIntent (h : Inv s) {h' : History} {txnKey : Bytes} {txnMinTS : Timestamp}
    (hts : s.rts.resolvedTS.ticks < ts.ticks) (hc : Changes s.history h' txnID ts.ticks 1) :
    Keeps s.rts h' (s.rts.consumeLogicalOp (.writeIntent txnID txnKey txnMinTS ts)) := by
  rw [ResolvedTimestamp.consumeLogicalOp, ResolvedTimestamp.consume,
    ResolvedTimestamp.assertOpAboveRTS_eq hts]
  exact h.update updateTxn_updates le_rfl (fun _ => hts) hc

theorem Inv.forwardClosedTS (h : Inv s) (ts : Timestamp) :
    Keeps s.rts s.history (s.rts.forwardClosedTS ts) := by
  have hle : s.rts.closedTS.ticks ≤ (s.rts.closedTS.forward ts).ticks := by
    rw [ticks_forward]
    exact le_max_left _ _
  have htracked : Tracked ⟨{ s.rts with closedTS := s.rts.closedTS.forward ts }, s.history⟩ := by
    refine ⟨h.distinct, h.live, h.scan, fun hinit => ?_, fun hinit => ?_⟩
    · have hbefore := h.before hinit
      exact ⟨hbefore.resolved, hbefore.allowNegRefCount, hbefore.refs, hbefore.txn⟩
    · have hafter := h.after hinit
      exact ⟨hafter.scan, hafter.allowNegRefCount,
        ⟨hafter.sound.whole, hafter.sound.le_closed.trans hle, hafter.sound.above⟩,
        hafter.refs, hafter.txn⟩
  refine htracked.settle fun hfalse hinit n hn hclosed habove => ?_
  rw [decide_eq_false_iff_not, less_iff] at hfalse
  refine h.latest hinit n hn ?_ habove
  rw [ticks_forward] at hclosed
  omega

theorem Inv.refCount_pos (h : Inv s) (hscan : s.history.scan = []) :
    ∀ t ∈ s.rts.intentQ.txns, 0 < t.refCount := by
  intro t ht
  cases hinit : s.rts.isInit with
  | true => exact ((h.after hinit).txn t ht).1
  | false =>
    have hne := ((h.before hinit).txn t ht).1
    have hrefs := (h.before hinit).refs t.txnID
    rw [refs_of_mem h.distinct ht, History.unscanned, hscan, countP_nil] at hrefs
    omega

theorem Inv.init (h : Inv s) (hscan : s.history.scan = []) : Keeps s.rts s.history s.rts.init := by
  have hpos := h.refCount_pos hscan
  have hdisallow : s.rts.intentQ.disallowNegRefCount =
      some { s.rts.intentQ with allowNegRefCount := false } := by
    refine if_neg ?_
    rw [any_eq_true]
    rintro ⟨t, ht, hle⟩
    have := hpos t ht
    rw [decide_eq_true_eq] at hle
    omega
  have htracked : Tracked ⟨{ s.rts with
      isInit := true, intentQ := { s.rts.intentQ with allowNegRefCount := false } },
      s.history⟩ := by
    refine ⟨h.distinct, h.live, h.scan, fun hfalse => Bool.noConfusion hfalse, fun _ => ?_⟩
    cases hinit : s.rts.isInit with
    | true =>
      have hafter := h.after hinit
      exact ⟨hscan, rfl, ⟨hafter.sound.whole, hafter.sound.le_closed, hafter.sound.above⟩,
        hafter.refs, hafter.txn⟩
    | false =>
      have hbefore := h.before hinit
      refine ⟨hscan, rfl, ⟨?_, h.resolved_le_closed, fun t ht => ?_⟩, fun id _ => ?_,
        fun t ht => ?_⟩
      · rw [hbefore.resolved]
        exact Nat.dvd_zero _
      · rw [hbefore.resolved]
        exact ((hbefore.txn t ht).2 (hpos t ht)).1
      · refine (hbefore.refs id).trans ?_
        rw [History.unscanned, hscan]
        exact Int.sub_zero _
      · exact ⟨hpos t ht, ((hbefore.txn t ht).2 (hpos t ht)).2⟩
  have hsettle := @Tracked.settle _ _ true htracked fun hfalse => Bool.noConfusion hfalse
  rw [ResolvedTimestamp.init, hdisallow]
  exact hsettle

theorem Inv.abortTxn (h : Inv s) (txnID : ℕ) : Keeps s.rts (s.history.after (.op (.abortTxn txnID)))
      (s.rts.consumeLogicalOp (.abortTxn txnID)) := by
  rw [ResolvedTimestamp.consumeLogicalOp, ResolvedTimestamp.consume]
  cases hinit : s.rts.isInit with
  | false =>
    have hbefore := h.before hinit
    have htracked : Tracked ⟨s.rts, s.history.after (.op (.abortTxn txnID))⟩ := by
      refine ⟨h.distinct, h.live, h.scan, fun _ => ?_, fun htrue => ?_⟩
      · exact ⟨hbefore.resolved, hbefore.allowNegRefCount, hbefore.refs, hbefore.txn⟩
      · rw [hinit] at htrue
        cases htrue
    exact @Tracked.settle _ _ false htracked fun _ => h.latest
  | true =>
    have hafter := h.after hinit
    obtain ⟨hmem, hdistinct, hallow, hrefs, -⟩ :=
      del_spec (n := 0) h.distinct (Eq.refl (s.rts.intentQ.del txnID))
    have htracked : Tracked ⟨{ s.rts with intentQ := (s.rts.intentQ.del txnID).2 },
        s.history.after (.op (.abortTxn txnID))⟩ := by
      refine ⟨hdistinct, h.live, h.scan, fun hfalse => ?_, fun _ => ?_⟩
      · rw [hinit] at hfalse
        cases hfalse
      · refine ⟨hafter.scan, hallow.trans hafter.allowNegRefCount, ⟨hafter.sound.whole,
          hafter.sound.le_closed, fun t ht => hafter.sound.above t ((hmem t).mp ht).1⟩,
          fun id hid => ?_, fun t ht => hafter.txn t ((hmem t).mp ht).1⟩
        change Function.update s.history.aborted txnID true id = false at hid
        have hne : id ≠ txnID := by
          rintro rfl
          rw [Function.update_self] at hid
          cases hid
        rw [Function.update_of_ne hne] at hid
        exact (hrefs id hne).trans (hafter.refs id hid)
    refine htracked.settle fun hfalse _ n hn hclosed habove => ?_
    obtain ⟨-, -, -, -, hmin⟩ :=
      del_spec (n := n) h.distinct (Eq.refl (s.rts.intentQ.del txnID))
    exact h.latest hinit n hn hclosed (hmin hfalse habove)

variable {e : Event}

/-- No allowed event panics; each keeps the invariant and moves the resolved timestamp forward. -/
theorem Inv.apply (h : Inv s) (he : e.Allowed s) :
    Keeps s.rts (s.history.after e) (e.apply s.rts) := by
  have hclosed := h.resolved_le_closed
  match e, he with
  | .op (.writeValue ts), he =>
    rw [Event.Allowed, less_iff] at he
    rw [Event.apply, ResolvedTimestamp.consumeLogicalOp, ResolvedTimestamp.consume,
      ResolvedTimestamp.assertOpAboveRTS_eq (hclosed.trans_lt he)]
    exact @Tracked.settle _ _ false h.toTracked fun _ => h.latest
  | .op (.writeIntent txnID txnKey txnMinTS ts), he =>
    rw [Event.Allowed, less_iff] at he
    exact h.writeIntent (hclosed.trans_lt he) (h.changes rfl rfl rfl rfl (Int.natCast_succ _)
      fun _ => by omega)
  | .op (.updateIntent txnID ts), _ =>
    refine h.update updateTxn_updates (by decide)
      (fun hlt => absurd hlt (by decide)) (h.changes rfl rfl ?_ rfl (Int.add_zero _).symm
      fun hlt => absurd hlt (by decide))
    exact (Function.update_eq_self _ _).symm
  | .op (.commitIntent txnID ts), he =>
    refine h.update updateTxn_updates (by decide)
      (fun hlt => absurd hlt (by decide)) (h.changes rfl rfl rfl rfl ?_
      fun hlt => absurd hlt (by decide))
    have := he.1
    omega
  | .op (.abortIntent txnID), he =>
    refine h.update updateTxn_updates (by decide)
      (fun hlt => absurd hlt (by decide)) (h.changes rfl rfl rfl ?_ ?_
      fun hlt => absurd hlt (by decide))
    · rw [ticks_empty, max_eq_left (Nat.zero_le _)]
      exact (Function.update_eq_self _ _).symm
    · change 0 < s.history.live txnID at he
      omega
  | .op (.abortTxn txnID), _ => exact h.abortTxn txnID
  | .scan i, he =>
    have hinit : s.rts.isInit = false := by
      by_contra hne
      have hnil := (h.after (Bool.not_eq_false _ ▸ hne)).scan
      rw [Event.Allowed, hnil] at he
      cases he
    refine h.writeIntent ?_ (h.changes_scan he)
    rw [(h.before hinit).resolved]
    exact (h.scan i he).1
  | .init, he => exact h.init he
  | .forwardClosedTS ts, _ => exact h.forwardClosedTS ts

theorem Inv.step (h : Inv s) (he : e.Allowed s) :
    ∃ s', e.step s = some s' ∧ Inv s' ∧ s.rts.resolvedTS.ticks ≤ s'.rts.resolvedTS.ticks := by
  obtain ⟨b, rts', heq, hinv, hle⟩ := h.apply he
  refine ⟨⟨rts', s.history.after e⟩, ?_, hinv, hle⟩
  rw [Event.step, heq]
  rfl

theorem Inv.start {intents : List Intent} (hintents : ∀ i ∈ intents, 0 < i.timestamp.ticks) :
    Inv (State.start intents) := by
  have hle : ∀ i ∈ intents, i.timestamp.ticks ≤ (History.start intents).latest i.txnID := by
    intro i hi
    refine le_max_of_le' 0 (mem_map.mpr ⟨i, mem_filter.mpr ⟨hi, ?_⟩, rfl⟩) le_rfl
    rw [decide_eq_true_eq]
  refine ⟨⟨nodup_nil, fun txnID hlive => ?_, fun i hi => ⟨hintents i hi, hle i hi⟩,
    fun _ => ⟨ticks_empty, rfl, fun txnID => (Int.sub_self _).symm,
      fun t ht => nomatch ht⟩,
    fun hinit => Bool.noConfusion hinit⟩, fun hinit => Bool.noConfusion hinit⟩
  obtain ⟨i, hi, hid⟩ := countP_pos_iff.mp hlive
  rw [decide_eq_true_eq] at hid
  subst hid
  exact (hintents i hi).trans_le (hle i hi)

theorem Inv.run (h : Inv s) (hrun : Run s events s') :
    Inv s' ∧ s.rts.resolvedTS.ticks ≤ s'.rts.resolvedTS.ticks := by
  induction hrun with
  | nil => exact ⟨h, le_rfl⟩
  | cons he hstep _ ih =>
    obtain ⟨s₁, heq, hinv, hle⟩ := h.step he
    obtain rfl := Option.some.inj (heq.symm.trans hstep)
    exact ⟨(ih hinv).1, hle.trans (ih hinv).2⟩

theorem Inv.lt_published (h : Inv s) (he : e.Allowed s) (hts : e.published = some ts) :
    s.rts.resolvedTS.ticks < ts.ticks := by
  unfold Event.published at hts
  split at hts
  · obtain rfl := Option.some.inj hts
    rw [Event.Allowed, less_iff] at he
    exact h.resolved_le_closed.trans_lt he
  · obtain rfl := Option.some.inj hts
    obtain ⟨hlive, hle, haborted⟩ := he
    exact (h.resolved_lt_latest hlive haborted).trans_le hle
  · cases hts

theorem Inv.lt_published_run (h : Inv s) (hrun : Run s events s') :
    ∀ e ∈ events, ∀ ts, e.published = some ts → s.rts.resolvedTS.ticks < ts.ticks := by
  induction hrun with
  | nil => exact fun e he => nomatch he
  | cons he hstep _ ih =>
    obtain ⟨s₁, heq, hinv, hle⟩ := h.step he
    obtain rfl := Option.some.inj (heq.symm.trans hstep)
    refine forall_mem_cons.mpr ⟨fun ts hts => h.lt_published he hts, fun e' he' ts hts => ?_⟩
    exact hle.trans_lt (ih hinv e' he' ts hts)

/-- Whatever transactions do, no panic is reached, and what the resolved timestamp promises is kept:
it lies between the earlier ones and the closed timestamp, and all that is unresolved or published
later lies above it. -/
theorem resolvedTS_safe {intents : List Intent} (hintents : ∀ i ∈ intents, 0 < i.timestamp.ticks)
    {events : List Event} {s : State} (hrun : Run (.start intents) events s) :
    (∀ e : Event, e.Allowed s → ∃ s', e.step s = some s') ∧ s.rts.resolvedTS.LessEq s.rts.closedTS ∧
      (∀ txnID, 0 < s.history.live txnID → s.history.aborted txnID = false →
        s.rts.resolvedTS.ticks < s.history.latest txnID) ∧
      ∀ events' s', Run s events' s' → s.rts.resolvedTS.LessEq s'.rts.resolvedTS ∧
        ∀ e ∈ events', ∀ ts, e.published = some ts → s.rts.resolvedTS.Less ts := by
  have hinv := ((Inv.start hintents).run hrun).1
  refine ⟨fun e he => ?_, ?_, fun txnID hlive => hinv.resolved_lt_latest hlive,
    fun events' s' hrun' => ⟨?_, fun e he ts hts => ?_⟩⟩
  · obtain ⟨s', heq, -⟩ := hinv.step he
    exact ⟨s', heq⟩
  · rw [lessEq_iff]
    exact hinv.resolved_le_closed
  · rw [lessEq_iff]
    exact (hinv.run hrun').2
  · rw [less_iff]
    exact hinv.lt_published_run hrun' e he ts hts

/-- An intent that is committed before the scan delivers it, and one that is aborted later. -/
def sampleIntents : List Intent :=
  [⟨1, [], .empty, ⟨5, 0, false, by decide, by decide⟩⟩,
    ⟨2, [], .empty, ⟨7, 0, false, by decide, by decide⟩⟩]

def sampleEvents : List Event :=
  [.op (.commitIntent 1 ⟨6, 0, false, by decide, by decide⟩),
    .forwardClosedTS ⟨9, 0, false, by decide, by decide⟩,
    .scan ⟨2, [], .empty, ⟨7, 0, false, by decide, by decide⟩⟩,
    .scan ⟨1, [], .empty, ⟨5, 0, false, by decide, by decide⟩⟩, .init]

theorem isSome_run_sampleEvents :
    ((State.start sampleIntents).run sampleEvents).isSome = true := by decide

/-- The two intents are scanned and the second one keeps the resolved timestamp back. -/
theorem resolvedTS_safe_sampleEvents : ∃ s, Run (State.start sampleIntents) sampleEvents s ∧
    s.rts.resolvedTS.LessEq s.rts.closedTS ∧ s.rts.resolvedTS.ticks < s.history.latest 2 := by
  have hrun := State.run_of_run (Option.some_get isSome_run_sampleEvents).symm
  obtain ⟨-, hle, hlive, -⟩ := resolvedTS_safe (by decide) hrun
  exact ⟨_, hrun, hle, hlive 2 (by decide) (by decide)⟩

theorem ResolvedTimestamp.settle_intentQ {rts rts' : ResolvedTimestamp} {changed b : Bool}
    (h : rts.settle changed = some (b, rts')) : rts'.intentQ = rts.intentQ := by
  have hrec {b : Bool} {rts' : ResolvedTimestamp} (h : rts.recompute = some (b, rts')) :
      rts'.intentQ = rts.intentQ := by
    unfold recompute at h
    split_ifs at h
    · cases h
      rfl
    · obtain ⟨ts, -, h⟩ := Option.bind_eq_some_iff.mp h
      dsimp only at h
      split_ifs at h
      cases h
      rfl
  cases changed with
  | true => exact hrec h
  | false =>
    obtain ⟨_, hsame, heq⟩ := Option.map_eq_some_iff.mp h
    obtain ⟨⟨_, _⟩, hr, hsame⟩ := Option.bind_eq_some_iff.mp hsame
    dsimp only at hsame
    split_ifs at hsame
    cases hsame
    cases heq
    exact hrec hr

/-- What the queue owes to the event before: the transaction of an intent is not below it, and that
of an abort is gone. -/
def Event.Known (uiq : UnresolvedIntentQueue) : Event → Prop
  | op (.writeIntent txnID _ _ ts) | op (.updateIntent txnID ts) | op (.commitIntent txnID ts) =>
    ∀ t ∈ uiq.txns, t.txnID = txnID → ts.ticks ≤ t.timestamp.ticks
  | op (.abortTxn txnID) => ∀ t ∈ uiq.txns, t.txnID ≠ txnID
  | _ => True

theorem ticks_le_of_updates {uiq : UnresolvedIntentQueue} {delta : ℤ}
    {r : Bool × UnresolvedIntentQueue} (hr : UnresolvedIntentQueue.Updates uiq txnID ts delta r)
    {t : UnresolvedTxn} (ht : t ∈ r.2.txns) (hid : t.txnID = txnID) :
    ts.ticks ≤ t.timestamp.ticks := by
  rcases hr.mem_cases ht with ⟨-, hne⟩ | ⟨-, -, -, -, heq, -⟩ | ⟨u, -, -, -, heq, -⟩
  · exact absurd hid hne
  · rw [heq]
  · rw [heq, ticks_forward]
    exact le_max_right _ _

theorem known_of_step (hdistinct : s.rts.intentQ.Distinct) (hinit : s.rts.isInit = true)
    (h : e.step s = some s') : e.Known s'.rts.intentQ := by
  obtain ⟨⟨b, rts'⟩, happly, rfl⟩ := Option.map_eq_some_iff.mp h
  cases e with
  | op o =>
    obtain ⟨⟨changed, rts⟩, hconsume, hsettle⟩ := Option.bind_eq_some_iff.mp happly
    rw [ResolvedTimestamp.settle_intentQ hsettle]
    cases o with
    | writeIntent =>
      obtain ⟨-, -, heq⟩ := Option.bind_eq_some_iff.mp hconsume
      cases heq
      exact fun t => ticks_le_of_updates updateTxn_updates
    | updateIntent | commitIntent =>
      cases hconsume
      exact fun t => ticks_le_of_updates updateTxn_updates
    | abortTxn txnID =>
      rw [ResolvedTimestamp.consume, if_neg (by rw [hinit]; decide)] at hconsume
      cases hconsume
      obtain ⟨hmem, -⟩ := del_spec (n := 0) hdistinct (Eq.refl (s.rts.intentQ.del txnID))
      exact fun t ht => ((hmem t).mp ht).2
    | _ => trivial
  | _ => trivial

/-- The resolved timestamp is never held back without need: it is the last full nanosecond up to the
closed timestamp and before all tracked transactions. These have intents or are aborted, and follow
the operations on them. -/
theorem resolvedTS_isGreatest {intents : List Intent}
    (hintents : ∀ i ∈ intents, 0 < i.timestamp.ticks) {events : List Event} {s : State}
    (hrun : Run (.start intents) events s) (hinit : s.rts.isInit = true) :
    IsGreatest {n | 2 ^ 31 ∣ n ∧ n ≤ s.rts.closedTS.ticks ∧
        ∀ t ∈ s.rts.intentQ.txns, n < t.timestamp.ticks} s.rts.resolvedTS.ticks ∧
      (∀ t ∈ s.rts.intentQ.txns, (0 < s.history.live t.txnID ∨ s.history.aborted t.txnID = true) ∧
          t.timestamp.ticks ≤ s.history.latest t.txnID) ∧
      ∀ (e : Event) s', e.step s = some s' → e.Known s'.rts.intentQ := by
  have hinv := ((Inv.start hintents).run hrun).1
  obtain ⟨-, -, hsound, hrefs, htxn⟩ := hinv.after hinit
  refine ⟨⟨⟨hsound.whole, hsound.le_closed, hsound.above⟩, ?_⟩, fun t ht => ⟨?_, (htxn t ht).2⟩,
    fun e s' hstep => known_of_step hinv.distinct hinit hstep⟩
  · rintro n ⟨hn, hclosed, hbelow⟩
    exact hinv.latest hinit n hn hclosed hbelow
  · cases haborted : s.history.aborted t.txnID with
    | true => exact .inr rfl
    | false =>
      have hpos := (htxn t ht).1
      rw [← refs_of_mem hinv.distinct ht, hrefs t.txnID haborted] at hpos
      exact .inl (by omega)

/-- The intent that is left holds the resolved timestamp back. -/
theorem resolvedTS_isGreatest_sampleEvents : ∃ s, Run (.start sampleIntents) sampleEvents s ∧
    s.rts.isInit = true ∧ ∀ t ∈ s.rts.intentQ.txns, (0 < s.history.live t.txnID ∨
      s.history.aborted t.txnID = true) ∧ t.timestamp.ticks ≤ s.history.latest t.txnID := by
  have hrun := State.run_of_run (Option.some_get isSome_run_sampleEvents).symm
  have hinit : (((State.start sampleIntents).run sampleEvents).get
    isSome_run_sampleEvents).rts.isInit = true := by decide
  exact ⟨_, hrun, hinit, (resolvedTS_isGreatest (by decide) hrun hinit).2.1⟩

end Cockroach.RangeFeed
