import Cockroach.SpanLatch.Exclusion

/-! Runs of the latch manager exclude conflicting accesses and wait only for earlier guards. -/
namespace Cockroach.SpanLatch
open ByteOrder Hlc Roachpb List Option

section Step

variable {σ σ' : System} {i : ℕ} {e : Event}

theorem invariant_remove (h : Invariant σ) {g : Guard} (hg : σ.guards[i]? = some g)
    (hdone : g.done = true) :
    Invariant ⟨σ.manager.removeLocked g.latches, σ.guards.set i { g with removed := true }⟩ := by
  have hguard := h.guards i g hg
  have hok : GuardOk σ i { g with removed := true } :=
    ⟨hguard.owner, fun _ => hdone, hguard.phase, hguard.checked⟩
  refine invariant_set h hg rfl (fun _ => hdone) hok ?_ (fun s a l => has_of_has_removeLocked)
    (idAlloc_removeLocked _ _)
  intro j gj hj hremoved s a l hl
  by_cases hij : i = j
  · subst hij
    rw [getElem?_set_self (List.getElem?_eq_some_iff.mp hg).1] at hj
    obtain rfl := some.inj hj
    cases hremoved
  · rw [getElem?_set_ne hij] at hj
    refine has_removeLocked (h.manager.present j gj hj hremoved s a l hl) ?_
    intro s' a' latch hlatch
    exact h.manager.distinct j i s a s' a' l latch (Ne.symm hij) ⟨gj, hj, hl⟩ ⟨g, hg, hlatch⟩

theorem invariant_waitFor (h : Invariant σ) (spans : SpanSet) :
    Invariant { σ with manager := (σ.manager.snapshotLocked spans).1 } := by
  refine ⟨⟨?_, ?_, h.manager.ids, h.manager.distinct⟩, fun j g hg => ?_⟩
  · intro j g hg hremoved s a l hl
    exact has_snapshotLocked.mpr (h.manager.present j g hg hremoved s a l hl)
  · intro s a l hl
    exact h.manager.owned s a l (has_snapshotLocked.mp hl)
  · have hframe : Frame σ { σ with manager := (σ.manager.snapshotLocked spans).1 } :=
      ⟨fun _ _ _ _ _ hactive => hactive, fun _ _ _ _ howns => howns⟩
    exact hframe.guardOk (List.getElem?_eq_some_iff.mp hg).1.le (h.guards j g hg)

theorem invariant_updateGuard (h : Invariant σ) (hvalid : e.Valid σ)
    (hindex : ∀ j spans, e = .checkOptimisticNoConflicts j spans → j = i)
    (hstep : σ.updateGuard i e = some σ') : Invariant σ' := by
  unfold System.updateGuard at hstep
  split at hstep
  · cases hstep
  next g hg =>
  obtain ⟨g', hg', rfl⟩ := map_eq_some_iff.mp hstep
  have hkeeps : Keeps σ i g g' := by
    refine keeps_step h (h.guards i g hg) ?_ hindex hg'
    rintro spans rfl
    exact hvalid g hg
  exact invariant_set h hg hkeeps.latches hkeeps.done hkeeps.ok
    (present_set h hg hkeeps.latches hkeeps.removed) (fun _ _ _ hl => hl) rfl

theorem invariant_step (h : Invariant σ) (hvalid : e.Valid σ) (hstep : σ.step e = some σ') :
    Invariant σ' := by
  cases e with
  | acquire spans pp =>
    obtain rfl := some.inj hstep
    exact invariant_sequence h fun _ _ _ hsnap => hsnap.itemsOk
  | acquireOptimistic spans pp =>
    obtain rfl := some.inj hstep
    exact invariant_sequence h fun _ _ _ hsnap => hsnap
  | waitFor spans =>
    obtain rfl := some.inj hstep
    exact invariant_waitFor h spans
  | remove i =>
    unfold System.step at hstep
    dsimp only at hstep
    split at hstep
    · cases hstep
    next g hg =>
    split_ifs at hstep with hdone
    obtain rfl := some.inj hstep
    exact invariant_remove h hg (Bool.and_eq_true_iff.mp hdone).1
  | checkOptimisticNoConflicts i spans =>
    refine invariant_updateGuard h hvalid ?_ hstep
    rintro j spans' ⟨⟩
    rfl
  | waitUntilAcquired i | advance i | finish i | cancel i | observePoison i | poison i | signal i =>
    refine invariant_updateGuard h hvalid ?_ hstep
    rintro j spans ⟨⟩

end Step

theorem invariant_initial : Invariant .initial := by
  have hguards : ∀ (i : ℕ) (g : Guard), System.initial.guards[i]? ≠ some g := by
    simp [System.initial]
  have howns : ∀ i s a l, ¬ System.initial.Owns i s a l := fun i s a l ⟨g, hg, _⟩ => hguards i g hg
  refine ⟨⟨fun i g hg => absurd hg (hguards i g), ?_,
    fun i s a l hl => absurd hl (howns i s a l), ?_⟩,
    fun i g hg => absurd hg (hguards i g)⟩
  · rintro s a l (hl | ⟨-, hl⟩)
    · cases hl
    · cases hl
  · intro i j s a s' a' l l' _ hl
    exact absurd hl (howns i s a l)

theorem invariant_of_reachable {σ : System} (h : Reachable σ) : Invariant σ := by
  induction h with
  | initial => exact invariant_initial
  | step e _ hvalid hstep ih => exact invariant_step ih hvalid hstep

theorem Conflict.symm {x y : Access} (h : Conflict x y) : Conflict y x := by
  obtain ⟨hscope, hover, haccess, hx, hy⟩ := h
  exact ⟨hscope.symm, overlaps_comm x.span y.span ▸ hover, haccess.symm, hy, hx⟩

theorem belowUpperBound_of_le {key key' : Bytes} {span : Span} (hle : key ≤ key')
    (h : belowUpperBound key' span = true) : belowUpperBound key span = true := by
  unfold belowUpperBound at *
  split_ifs at *
  · exact decide_eq_true (bytesCompare_lt_iff.mpr
      (hle.trans_lt (bytesCompare_lt_iff.mp (of_decide_eq_true h))))
  · exact decide_eq_true (bytesCompare_ne_gt_iff.mpr
      (hle.trans (bytesCompare_ne_gt_iff.mp (of_decide_eq_true h))))

theorem overlaps_of_within {inner outer span : Span} (hwithin : Within inner outer)
    (h : overlaps inner span = true) : overlaps outer span = true := by
  obtain ⟨hinner, hspan⟩ := Bool.and_eq_true_iff.mp h
  exact Bool.and_eq_true_iff.mpr
    ⟨belowUpperBound_of_le (bytesCompare_ne_gt_iff.mp hwithin.1) hinner, hwithin.2 _ hspan⟩

theorem Conflict.of_within {s : SpanScope} {a : SpanAccess} {inner : Span} {ts : Timestamp}
    {l : Latch} {y : Access} (hwithin : Within inner l.span) (hts : l.ts = ts)
    (h : Conflict ⟨s, a, inner, ts⟩ y) : Conflict (l.asAccess s a) y := by
  subst hts
  obtain ⟨hscope, hover, haccess, hx, hy⟩ := h
  exact ⟨hscope, overlaps_of_within hwithin hover, haccess, hx, hy⟩

section Exclusion

variable {σ : System} {i j : ℕ} {x y : Access}

theorem Invariant.latched (h : Invariant σ) (hx : σ.Holds i x) :
    ∃ l, σ.Active i x.scope x.access l ∧ Within x.span l.span ∧ l.ts = x.ts := by
  obtain ⟨g, hg, hdone, ⟨-, l, hl, heq⟩ | ⟨spans, hspans, hmem⟩⟩ := hx
  · have hspan : l.span = x.span := congrArg Access.span heq
    have hwithin : Within x.span l.span := by
      rw [hspan]
      exact ⟨by simp [bytesCompare_self], fun _ hk => hk⟩
    exact ⟨l, ⟨g, hg, hdone, hl⟩, hwithin, congrArg Access.ts heq⟩
  · obtain ⟨l, hl, hwithin, hts⟩ :=
      ((h.guards i g hg).checked spans hspans).latched x.scope x.access _ hmem
    exact ⟨l, ⟨g, hg, hdone, hl⟩, hwithin, hts⟩

theorem Invariant.not_conflict_of_lt (h : Invariant σ) (hij : i < j) (hx : σ.Holds i x)
    (hy : σ.Holds j y) : ¬ Conflict x y := by
  intro hconflict
  obtain ⟨l, hactive, hwithin, hts⟩ := h.latched hx
  have hheld : Conflict (l.asAccess x.scope x.access) y := hconflict.of_within hwithin hts
  rw [show x.scope = y.scope from hconflict.1] at hheld hactive
  obtain ⟨g, hg, -, ⟨hphase, l', hl', heq⟩ | ⟨spans, hspans, hmem⟩⟩ := hy
  · have hacquired := (h.guards j g hg).phase
    rw [hphase] at hacquired
    exact hacquired i hij _ _ _ l hactive l' hl' (heq.symm ▸ hheld)
  · exact ((h.guards j g hg).checked spans hspans).free i hij _ _ _ l hactive _ hmem hheld

theorem Invariant.not_conflict (h : Invariant σ) (hij : i ≠ j) (hx : σ.Holds i x)
    (hy : σ.Holds j y) : ¬ Conflict x y := by
  rcases lt_or_gt_of_ne hij with hlt | hlt
  · exact h.not_conflict_of_lt hlt hx hy
  · exact fun hconflict => h.not_conflict_of_lt hlt hy hx hconflict.symm

theorem Invariant.waitsFor (h : Invariant σ) {item : WaitItem} (hwait : σ.WaitsFor i j item) :
    j < i ∧ ∃ s a a', σ.Owns i s a item.wait ∧ σ.Active j s a' item.held ∧
      Conflict (item.held.asAccess s a') (item.wait.asAccess s a) := by
  obtain ⟨g, rest, hg, hphase, hpassed, rfl⟩ := hwait
  obtain ⟨hsignaled, hignored⟩ := Bool.or_eq_false_iff.mp hpassed
  have hitems := (h.guards i g hg).phase
  rw [hphase] at hitems
  obtain ⟨s, a, a', hmem, hlt, ⟨g', hg', hheld⟩, hconflict⟩ := hitems.each item mem_cons_self
  have hdone : g'.done = false := by
    unfold System.signaled at hsignaled
    rwa [hg', any_some] at hsignaled
  exact ⟨hlt, s, a, a', ⟨g, hg, hmem⟩, ⟨g', hg', hdone, hheld⟩, hconflict hignored⟩

end Exclusion

/-- Guards that hold latches at the same time do not conflict, a guard waits only for a latch of an
earlier guard that is held and conflicts, and no cycle of guards wait for each other. -/
theorem latches_exclusive_and_waits_ordered {σ : System} (h : Reachable σ) :
    (∀ i j x y, i ≠ j → σ.Holds i x → σ.Holds j y → ¬ Conflict x y) ∧
    (∀ i j item, σ.WaitsFor i j item → j < i ∧ ∃ s a a', σ.Owns i s a item.wait ∧
      σ.Active j s a' item.held ∧ Conflict (item.held.asAccess s a') (item.wait.asAccess s a)) ∧
    ∀ i, ¬ Relation.TransGen (fun i j => ∃ item, σ.WaitsFor i j item) i i := by
  have hinv := invariant_of_reachable h
  refine ⟨fun i j x y hij hx hy => hinv.not_conflict hij hx hy, ?_, ?_⟩
  · intro i j item hwait
    exact hinv.waitsFor hwait
  · intro i hcycle
    have hdescends : ∀ {j k}, Relation.TransGen (fun i j => ∃ item, σ.WaitsFor i j item) j k →
        k < j := by
      intro j k hpath
      induction hpath with
      | single hstep =>
        obtain ⟨item, hwait⟩ := hstep
        exact (hinv.waitsFor hwait).1
      | tail _ hstep ih =>
        obtain ⟨item, hwait⟩ := hstep
        exact (hinv.waitsFor hwait).1.trans ih
    exact lt_irrefl i (hdescends hcycle)

/-- The system after the events, of which those that cannot happen are skipped. -/
def System.run (σ : System) (events : List Event) : System :=
  events.foldl (fun σ e => (σ.step e).getD σ) σ

theorem Reachable.run {σ : System} (h : Reachable σ) {events : List Event}
    (hvalid : ∀ e ∈ events, ∀ σ, e.Valid σ) : Reachable (σ.run events) := by
  induction events generalizing σ with
  | nil => exact h
  | cons e events ih =>
    have hnext : Reachable ((σ.step e).getD σ) := by
      cases hstep : σ.step e with
      | none => exact h
      | some σ' => exact h.step e (hvalid e mem_cons_self σ) hstep
    exact ih hnext fun e' he' => hvalid e' (mem_cons_of_mem e he')

/-- The span set of one access to one key. -/
def singleKey (access : SpanAccess) (ts : Timestamp) : SpanSet := fun a s =>
  if a = access ∧ s = .global then [(⟨[97], []⟩, ts)] else []

def writeTime : Timestamp := .ofNanos 1

def readTime : Timestamp := .ofNanos 2

/-- A write that holds its latch, and a read of the same key at a later time that waits for it. -/
def writeThenRead : System :=
  System.initial.run [.acquire (singleKey .readWrite writeTime) .wait, .finish 0,
    .acquire (singleKey .readOnly readTime) .wait]

theorem reachable_writeThenRead : Reachable writeThenRead := by
  refine Reachable.initial.run ?_
  intro e he σ
  simp only [mem_cons, not_mem_nil, or_false] at he
  rcases he with rfl | rfl | rfl <;> trivial

theorem latches_exclusive_writeThenRead :
    writeThenRead.Holds 0 ⟨.global, .readWrite, ⟨[97], []⟩, writeTime⟩ ∧
    (∃ item, writeThenRead.WaitsFor 1 0 item) ∧
    ∀ i, ¬ Relation.TransGen (fun i j => ∃ item, writeThenRead.WaitsFor i j item) i i := by
  refine ⟨?_, ?_, (latches_exclusive_and_waits_ordered reachable_writeThenRead).2.2⟩
  · exact ⟨_, rfl, rfl, .inl ⟨rfl, ⟨1, 0, ⟨[97], []⟩, writeTime⟩, mem_singleton.mpr rfl, rfl⟩⟩
  · exact ⟨_, _, [], rfl, rfl, rfl, rfl⟩

/-- No wait is stuck: of the guards up to the waiting one, one can go on with its own wait, has
nothing left to wait for, or can release its latches. -/
theorem waiting_progresses {σ : System} (h : Reachable σ) {i : ℕ} {g : Guard}
    {items : List WaitItem} (hg : σ.guards[i]? = some g) (hphase : g.phase = .waiting items) :
    ∃ j ≤ i, ∃ e ∈ [Event.advance j, .finish j, .signal j], (σ.step e).isSome := by
  have hinv := invariant_of_reachable h
  induction i using Nat.strong_induction_on generalizing g items with
  | _ i ih =>
  cases items with
  | nil =>
    exact ⟨i, le_rfl, .finish i, by simp,
      by simp [System.step, System.updateGuard, hg, Guard.step, hphase]⟩
  | cons item rest =>
    cases hpassed : item.passed σ with
    | true =>
      exact ⟨i, le_rfl, .advance i, by simp,
        by simp [System.step, System.updateGuard, hg, Guard.step, hphase, hpassed]⟩
    | false =>
      obtain ⟨hlt, -, -, -, -, ⟨g', hg', hdone, -⟩, -⟩ :=
        hinv.waitsFor ⟨g, rest, hg, hphase, hpassed, rfl⟩
      cases hphase' : g'.phase with
      | waiting items' =>
        obtain ⟨j, hj, hstep⟩ := ih _ hlt hg' hphase'
        exact ⟨j, hj.trans hlt.le, hstep⟩
      | optimistic _ | acquired | failed =>
        exact ⟨_, hlt.le, .signal item.held.guard, by simp,
          by simp [System.step, System.updateGuard, hg', Guard.step, hphase', hdone]⟩

/-- The writer holds its latch and can release it, the reader waits for that. -/
theorem waiting_progresses_writeThenRead :
    ∃ j ≤ 1, ∃ e ∈ [Event.advance j, .finish j, .signal j], (writeThenRead.step e).isSome :=
  waiting_progresses reachable_writeThenRead rfl rfl

end Cockroach.SpanLatch
