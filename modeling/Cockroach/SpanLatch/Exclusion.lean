import Cockroach.SpanLatch.ManagerCases

/-! Latches that are held at the same time do not conflict, and waits go to earlier guards. -/
namespace Cockroach.SpanLatch
open ByteOrder Hlc Roachpb List
open Option (some)

namespace System

def Owns (σ : System) (i : ℕ) (s : SpanScope) (a : SpanAccess) (l : Latch) : Prop :=
  ∃ g, σ.guards[i]? = some g ∧ l ∈ g.latches s a

/-- A latch of a guard that has not released it. -/
def Active (σ : System) (i : ℕ) (s : SpanScope) (a : SpanAccess) (l : Latch) : Prop :=
  ∃ g, σ.guards[i]? = some g ∧ g.done = false ∧ l ∈ g.latches s a

end System

/-- A request with these latches looks at a tree of the snapshot. -/
def Needs (latches : Latches) (s : SpanScope) : SpanAccess → Prop
  | .readOnly => latches s .readWrite ≠ []
  | .readWrite => latches s .readWrite ≠ [] ∨ latches s .readOnly ≠ []

/-- What a sequencing step does. -/
structure Sequences (m : Manager) (guard : ℕ) (m' : Manager) (latches : Latches)
    (snap : Snapshot) : Prop where
  has : ∀ s a l, m'.Has s a l ↔ m.Has s a l ∨ l ∈ latches s a
  owner : ∀ s a, ∀ l ∈ latches s a, l.guard = guard
  ids : ∀ s a, ∀ l ∈ latches s a, m.idAlloc < l.id ∧ l.id ≤ m'.idAlloc
  idAlloc : m.idAlloc ≤ m'.idAlloc
  snap_has : ∀ s a, ∀ l ∈ snap s a, m.Has s a l
  needs : ∀ s a l, Needs latches s a → m.Has s a l → l ∈ snap s a

theorem sequences_sequence (m : Manager) (guard : ℕ) (spans : SpanSet) :
    Sequences m guard (m.sequence guard spans).1 (m.sequence guard spans).2.1
      (m.sequence guard spans).2.2 := by
  unfold Manager.sequence
  dsimp only
  have hins := inserts_insertLocked (m.snapshotLocked spans).1 (newGuard guard spans)
  set latches := ((m.snapshotLocked spans).1.insertLocked (newGuard guard spans)).2
  have hassigned := fun s a => hins.assigned s a (mem_scopesAndAccesses s a)
  have hempty : ∀ s a, latches s a ≠ [] → spans a s ≠ [] := by
    intro s a hne hnil
    obtain ⟨n, -, -, heq⟩ := hassigned s a
    have hlength := congrArg List.length heq
    rw [newGuard, hnil] at hlength
    exact hne (length_eq_zero_iff.mp hlength)
  refine ⟨?_, ?_, ?_, hins.idAlloc, fun s a l => has_of_mem_snapshot, ?_⟩
  · intro s a l
    rw [hins.has, has_snapshotLocked]
    simp [mem_scopesAndAccesses]
  · intro s a l hl
    obtain ⟨n, -, -, heq⟩ := hassigned s a
    rw [heq] at hl
    obtain ⟨-, -, l₀, hl₀, heq₀⟩ := mem_assignIDs hl
    obtain ⟨sp, -, rfl⟩ := mem_map.mp hl₀
    rw [heq₀]
  · intro s a l hl
    obtain ⟨n, hn, hle, heq⟩ := hassigned s a
    rw [heq] at hl
    obtain ⟨hlt, hle', -⟩ := mem_assignIDs hl
    rw [idAlloc_snapshotLocked] at hn
    omega
  · intro s a l hneeds hhas
    cases a with
    | readOnly => exact mem_snapshot_readOnly.mpr ⟨hempty s .readWrite hneeds, hhas⟩
    | readWrite =>
      exact mem_snapshot_readWrite.mpr ⟨hneeds.imp (hempty s .readWrite) (hempty s .readOnly), hhas⟩

/-- The latches of the snapshot are of earlier guards, and those that count are in it. -/
structure SnapOk (σ : System) (i : ℕ) (latches : Latches) (snap : Snapshot) : Prop where
  owned : ∀ s a, ∀ l ∈ snap s a, l.guard < i ∧ σ.Owns l.guard s a l
  complete : ∀ j < i, ∀ s a l, σ.Active j s a l → Needs latches s a → l ∈ snap s a

/-- An item is for a latch of an earlier guard, which conflicts unless it is ignored. -/
def ItemOk (σ : System) (i : ℕ) (latches : Latches) (item : WaitItem) : Prop :=
  ∃ s a a', item.wait ∈ latches s a ∧ item.held.guard < i ∧ σ.Owns item.held.guard s a' item.held ∧
    (item.ignored = false → Conflict (item.held.asAccess s a') (item.wait.asAccess s a))

/-- The wait still comes by everything that conflicts. -/
structure ItemsOk (σ : System) (i : ℕ) (latches : Latches) (items : List WaitItem) : Prop where
  each : ∀ item ∈ items, ItemOk σ i latches item
  complete : ∀ j < i, ∀ s a a' held, σ.Active j s a' held → ∀ l ∈ latches s a,
    Conflict (held.asAccess s a') (l.asAccess s a) →
      ∃ item ∈ items, item.held = held ∧ item.ignored = false

variable {wait : Latch} {item : WaitItem}

theorem mem_iterItems {tree : List Latch} {ignore : Timestamp → Timestamp → Bool} :
    item ∈ iterItems tree wait ignore ↔ ∃ held ∈ tree, overlaps wait.span held.span = true ∧
        item = ⟨wait, held, ignore wait.ts held.ts⟩ := by
  unfold iterItems
  rw [mem_map]
  constructor
  · rintro ⟨held, hheld, rfl⟩
    obtain ⟨hmem, hover⟩ := mem_filter.mp hheld
    exact ⟨held, hmem, hover, rfl⟩
  · rintro ⟨held, hmem, hover, rfl⟩
    exact ⟨held, mem_filter.mpr ⟨hmem, hover⟩, rfl⟩

/-- The function that decides which latches of an access do not count. -/
def ignoreFor : SpanAccess → SpanAccess → Timestamp → Timestamp → Bool
  | .readOnly, _ => ignoreLater
  | .readWrite, .readWrite => ignoreNothing
  | .readWrite, .readOnly => ignoreEarlier

/-- The accesses of which at least one is a write. -/
def Opposed (a a' : SpanAccess) : Prop := a = .readWrite ∨ a' = .readWrite

variable {a : SpanAccess}

theorem mem_latchItems {tr : SpanAccess → List Latch} : item ∈ latchItems tr a wait ↔
      ∃ a', Opposed a a' ∧ item ∈ iterItems (tr a') wait (ignoreFor a a') := by
  unfold latchItems Opposed
  cases a with
  | readOnly =>
    constructor
    · exact fun h => ⟨.readWrite, .inr rfl, h⟩
    · rintro ⟨a', ha' | rfl, h⟩
      · cases ha'
      · exact h
  | readWrite =>
    rw [mem_append]
    constructor
    · rintro (h | h)
      · exact ⟨.readWrite, .inl rfl, h⟩
      · exact ⟨.readOnly, .inl rfl, h⟩
    · rintro ⟨a', -, h⟩
      cases a' with
      | readOnly => exact .inr h
      | readWrite => exact .inl h

variable {s : SpanScope} {a' : SpanAccess}

theorem conflict_iff_ignoreFor {span span' : Span} {ts ts' : Timestamp} :
    Conflict ⟨s, a', span', ts'⟩ ⟨s, a, span, ts⟩ ↔
      Opposed a a' ∧ overlaps span span' = true ∧ ignoreFor a a' ts ts' = false := by
  unfold Conflict Opposed
  rw [overlaps_comm]
  cases a <;> cases a' <;>
    simp [ignoreFor, ignoreLater, ignoreEarlier, ignoreNothing]

variable {latches : Latches} {l : Latch}

theorem needs_of_opposed (hl : l ∈ latches s a) (h : Opposed a a') : Needs latches s a' := by
  have hne : latches s a ≠ [] := ne_nil_of_mem hl
  cases a with
  | readOnly =>
    rcases h with h | rfl
    · cases h
    · exact .inr hne
  | readWrite =>
    cases a' with
    | readOnly => exact hne
    | readWrite => exact .inl hne

variable {σ : System} {i : ℕ}

theorem SnapOk.itemsOk {snap : Snapshot} (h : SnapOk σ i latches snap) :
    ItemsOk σ i latches (waitItems latches snap) := by
  refine ⟨?_, ?_⟩
  · intro item hitem
    obtain ⟨⟨s, a⟩, -, hsa⟩ := mem_flatMap.mp hitem
    obtain ⟨l, hl, hitem⟩ := mem_flatMap.mp hsa
    obtain ⟨a', hopposed, hitem⟩ := mem_latchItems.mp hitem
    obtain ⟨held, hheld, hover, rfl⟩ := mem_iterItems.mp hitem
    obtain ⟨hlt, howned⟩ := h.owned s a' held hheld
    exact ⟨s, a, a', hl, hlt, howned, fun hignored =>
      conflict_iff_ignoreFor.mpr ⟨hopposed, hover, hignored⟩⟩
  · intro j hj s a a' held hactive l hl hconflict
    obtain ⟨hopposed, hover, hignore⟩ := conflict_iff_ignoreFor.mp hconflict
    have hheld := h.complete j hj s a' held hactive (needs_of_opposed hl hopposed)
    have hitem : (⟨l, held, ignoreFor a a' l.ts held.ts⟩ : WaitItem) ∈ latchItems (snap s) a l :=
      mem_latchItems.mpr ⟨a', hopposed, mem_iterItems.mpr ⟨held, hheld, hover, rfl⟩⟩
    exact ⟨_, mem_flatMap.mpr ⟨(s, a), mem_scopesAndAccesses s a,
      mem_flatMap.mpr ⟨l, hl, hitem⟩⟩, rfl, hignore⟩

/-- What an acquisition knows of the earlier guards. -/
def PhaseOk (σ : System) (i : ℕ) (latches : Latches) : Phase → Prop
  | .waiting items => ItemsOk σ i latches items
  | .optimistic snap => SnapOk σ i latches snap
  | .acquired => ∀ j < i, ∀ s a a' held, σ.Active j s a' held → ∀ l ∈ latches s a,
      ¬ Conflict (held.asAccess s a') (l.asAccess s a)
  | .failed => True

/-- Spans that were checked are latched and do not conflict with earlier guards. -/
structure CheckedOk (σ : System) (i : ℕ) (latches : Latches) (spans : SpanSet) : Prop where
  latched : ∀ s a, ∀ sp ∈ spans a s, ∃ l ∈ latches s a, Within sp.1 l.span ∧ l.ts = sp.2
  free : ∀ j < i, ∀ s a a' held, σ.Active j s a' held → ∀ sp ∈ spans a s,
    ¬ Conflict (held.asAccess s a') ⟨s, a, sp.1, sp.2⟩

structure GuardOk (σ : System) (i : ℕ) (g : Guard) : Prop where
  owner : ∀ s a, ∀ l ∈ g.latches s a, l.guard = i
  removed_done : g.removed = true → g.done = true
  phase : PhaseOk σ i g.latches g.phase
  checked : ∀ spans ∈ g.checked, CheckedOk σ i g.latches spans

/-- The manager has the latches of the guards, under ids of their own. -/
structure ManagerOk (σ : System) : Prop where
  present : ∀ (i : ℕ) (g : Guard), σ.guards[i]? = some g → g.removed = false →
    ∀ s a, ∀ l ∈ g.latches s a,
    σ.manager.Has s a l
  owned : ∀ s a l, σ.manager.Has s a l → σ.Owns l.guard s a l
  ids : ∀ i s a l, σ.Owns i s a l → l.id ≤ σ.manager.idAlloc
  distinct : ∀ i j s a s' a' l l', i ≠ j → σ.Owns i s a l → σ.Owns j s' a' l' → l.id ≠ l'.id

structure Invariant (σ : System) : Prop where
  manager : ManagerOk σ
  guards : ∀ (i : ℕ) (g : Guard), σ.guards[i]? = some g → GuardOk σ i g

/-- A step keeps latches and gives none back. -/
structure Frame (σ σ' : System) : Prop where
  active : ∀ i s a l, i < σ.guards.length → σ'.Active i s a l → σ.Active i s a l
  owns : ∀ i s a l, σ.Owns i s a l → σ'.Owns i s a l

section Transport

variable {σ σ' : System} {i : ℕ} {latches : Latches}

theorem Frame.itemsOk (hf : Frame σ σ') (hi : i ≤ σ.guards.length) {items : List WaitItem}
    (h : ItemsOk σ i latches items) : ItemsOk σ' i latches items := by
  refine ⟨?_, ?_⟩
  · intro item hitem
    obtain ⟨s, a, a', hwait, hlt, howns, hconflict⟩ := h.each item hitem
    exact ⟨s, a, a', hwait, hlt, hf.owns _ _ _ _ howns, hconflict⟩
  · intro j hj s a a' held hactive
    exact h.complete j hj s a a' held (hf.active _ _ _ _ (hj.trans_le hi) hactive)

theorem Frame.snapOk (hf : Frame σ σ') (hi : i ≤ σ.guards.length) {snap : Snapshot}
    (h : SnapOk σ i latches snap) : SnapOk σ' i latches snap := by
  refine ⟨?_, ?_⟩
  · intro s a l hl
    obtain ⟨hlt, howns⟩ := h.owned s a l hl
    exact ⟨hlt, hf.owns _ _ _ _ howns⟩
  · intro j hj s a l hactive
    exact h.complete j hj s a l (hf.active _ _ _ _ (hj.trans_le hi) hactive)

theorem Frame.phaseOk (hf : Frame σ σ') (hi : i ≤ σ.guards.length) {phase : Phase}
    (h : PhaseOk σ i latches phase) : PhaseOk σ' i latches phase := by
  cases phase with
  | waiting items => exact hf.itemsOk hi h
  | optimistic snap => exact hf.snapOk hi h
  | acquired =>
    intro j hj s a a' held hactive
    exact h j hj s a a' held (hf.active _ _ _ _ (hj.trans_le hi) hactive)
  | failed => trivial

theorem Frame.guardOk (hf : Frame σ σ') (hi : i ≤ σ.guards.length) {g : Guard}
    (h : GuardOk σ i g) : GuardOk σ' i g := by
  refine ⟨h.owner, h.removed_done, hf.phaseOk hi h.phase, ?_⟩
  intro spans hspans
  have hc := h.checked spans hspans
  refine ⟨hc.latched, ?_⟩
  intro j hj s a a' held hactive
  exact hc.free j hj s a a' held (hf.active _ _ _ _ (hj.trans_le hi) hactive)

end Transport

theorem owns_lt (h : σ.Owns i s a l) : i < σ.guards.length := by
  obtain ⟨g, hg, -⟩ := h
  exact (List.getElem?_eq_some_iff.mp hg).1

section Sequence

variable {σ : System} {spans : SpanSet} {pp : Policy} {phase : Latches → Snapshot → Phase}

/-- A new guard knows all earlier latches, and the earlier guards are as before. -/
theorem invariant_sequence (h : Invariant σ)
    (hphase : ∀ (σ' : System) latches snap, SnapOk σ' σ.guards.length latches snap →
      PhaseOk σ' σ.guards.length latches (phase latches snap)) :
    Invariant (σ.sequence spans pp phase) := by
  have hseq := sequences_sequence σ.manager σ.guards.length spans
  unfold System.sequence
  set m' := (σ.manager.sequence σ.guards.length spans).1
  set latches := (σ.manager.sequence σ.guards.length spans).2.1
  set snap := (σ.manager.sequence σ.guards.length spans).2.2
  set g : Guard := ⟨latches, pp, phase latches snap, [], false, false, false⟩ with hg
  set σ' : System := ⟨m', σ.guards ++ [g]⟩ with hσ'
  have hold : ∀ i, i < σ.guards.length → σ'.guards[i]? = σ.guards[i]? := fun i hi =>
    getElem?_append_left hi
  have hnew : σ'.guards[σ.guards.length]? = some g := by
    simp [hσ']
  have hcases : ∀ i g', σ'.guards[i]? = some g' →
      (i < σ.guards.length ∧ σ.guards[i]? = some g') ∨ i = σ.guards.length ∧ g' = g := by
    intro i g' hi
    have hlt := (List.getElem?_eq_some_iff.mp hi).1
    rw [length_append, length_singleton] at hlt
    by_cases hlt' : i < σ.guards.length
    · exact .inl ⟨hlt', (hold i hlt') ▸ hi⟩
    · obtain rfl : i = σ.guards.length := by omega
      exact .inr ⟨rfl, some.inj (hi.symm.trans hnew)⟩
  have howns : ∀ i s a l, σ'.Owns i s a l →
      σ.Owns i s a l ∨ i = σ.guards.length ∧ l ∈ latches s a := by
    rintro i s a l ⟨g', hg', hl⟩
    rcases hcases i g' hg' with ⟨-, hg''⟩ | ⟨rfl, rfl⟩
    · exact .inl ⟨g', hg'', hl⟩
    · exact .inr ⟨rfl, hl⟩
  have hframe : Frame σ σ' := by
    refine ⟨?_, ?_⟩
    · rintro i s a l hi ⟨g', hg', hdone, hl⟩
      rw [hold i hi] at hg'
      exact ⟨g', hg', hdone, hl⟩
    · rintro i s a l ⟨g', hg', hl⟩
      have hi := (List.getElem?_eq_some_iff.mp hg').1
      exact ⟨g', (hold i hi).trans hg', hl⟩
  have hsnap : SnapOk σ' σ.guards.length latches snap := by
    refine ⟨?_, ?_⟩
    · intro s a l hl
      have howned := h.manager.owned s a l (hseq.snap_has s a l hl)
      exact ⟨owns_lt howned, hframe.owns _ _ _ _ howned⟩
    · intro j hj s a l hactive hneeds
      obtain ⟨g', hg', hdone, hl⟩ := hframe.active j s a l hj hactive
      have hremoved : g'.removed = false := by
        rw [Bool.eq_false_iff]
        intro htrue
        rw [(h.guards j g' hg').removed_done htrue] at hdone
        cases hdone
      exact hseq.needs s a l hneeds (h.manager.present j g' hg' hremoved s a l hl)
  have hfresh : ∀ i s a l s' a' l', σ.Owns i s a l → l' ∈ latches s' a' → l.id ≠ l'.id := by
    intro i s a l s' a' l' hl hl'
    have hle := h.manager.ids i s a l hl
    have hlt := (hseq.ids s' a' l' hl').1
    omega
  refine ⟨⟨?_, ?_, ?_, ?_⟩, ?_⟩
  · intro i g' hg' hremoved s a l hl
    rcases hcases i g' hg' with ⟨-, hg''⟩ | ⟨-, rfl⟩
    · exact (hseq.has s a l).mpr (.inl (h.manager.present i g' hg'' hremoved s a l hl))
    · exact (hseq.has s a l).mpr (.inr hl)
  · intro s a l hl
    rcases (hseq.has s a l).mp hl with hl | hl
    · exact hframe.owns _ _ _ _ (h.manager.owned s a l hl)
    · rw [hseq.owner s a l hl]
      exact ⟨g, hnew, hl⟩
  · intro i s a l hl
    rcases howns i s a l hl with hl | ⟨-, hl⟩
    · exact (h.manager.ids i s a l hl).trans hseq.idAlloc
    · exact (hseq.ids s a l hl).2
  · intro i j s a s' a' l l' hne hl hl'
    rcases howns i s a l hl with hold₁ | ⟨hi, hnew₁⟩
    · rcases howns j s' a' l' hl' with hold₂ | ⟨-, hnew₂⟩
      · exact h.manager.distinct i j s a s' a' l l' hne hold₁ hold₂
      · exact hfresh i s a l s' a' l' hold₁ hnew₂
    · rcases howns j s' a' l' hl' with hold₂ | ⟨hj, -⟩
      · exact (hfresh j s' a' l' s a l hold₂ hnew₁).symm
      · exact absurd (hi.trans hj.symm) hne
  · intro i g' hg'
    rcases hcases i g' hg' with ⟨hi, hg''⟩ | ⟨rfl, rfl⟩
    · exact hframe.guardOk hi.le (h.guards i g' hg'')
    · refine ⟨hseq.owner, fun hr => ?_, hphase σ' latches snap hsnap, by simp [hg]⟩
      cases hr

end Sequence

section Update

variable {σ : System} {i : ℕ} {g g' : Guard} {m' : Manager}

/-- The change of one guard that keeps its latches and does not take back its signal. -/
theorem invariant_set (h : Invariant σ) (hg : σ.guards[i]? = some g)
    (hlatches : g'.latches = g.latches) (hdone : g.done = true → g'.done = true)
    (hok : GuardOk σ i g')
    (hpresent : ∀ (j : ℕ) (gj : Guard), (σ.guards.set i g')[j]? = some gj → gj.removed = false →
      ∀ s a, ∀ l ∈ gj.latches s a, m'.Has s a l)
    (hhas : ∀ s a l, m'.Has s a l → σ.manager.Has s a l)
    (hid : m'.idAlloc = σ.manager.idAlloc) : Invariant ⟨m', σ.guards.set i g'⟩ := by
  have hi := (List.getElem?_eq_some_iff.mp hg).1
  have hcases : ∀ (j : ℕ) (gj : Guard), (σ.guards.set i g')[j]? = some gj →
      (i = j ∧ gj = g') ∨ i ≠ j ∧ σ.guards[j]? = some gj := by
    intro j gj hj
    by_cases hij : i = j
    · subst hij
      rw [getElem?_set_self hi] at hj
      exact .inl ⟨rfl, (some.inj hj).symm⟩
    · rw [getElem?_set_ne hij] at hj
      exact .inr ⟨hij, hj⟩
  have howns : ∀ j s a l, System.Owns ⟨m', σ.guards.set i g'⟩ j s a l ↔ σ.Owns j s a l := by
    intro j s a l
    constructor
    · rintro ⟨gj, hj, hl⟩
      rcases hcases j gj hj with ⟨rfl, rfl⟩ | ⟨-, hj'⟩
      · exact ⟨g, hg, hlatches ▸ hl⟩
      · exact ⟨gj, hj', hl⟩
    · rintro ⟨gj, hj, hl⟩
      by_cases hij : i = j
      · subst hij
        obtain rfl := some.inj (hg.symm.trans hj)
        exact ⟨g', getElem?_set_self hi, hlatches.symm ▸ hl⟩
      · exact ⟨gj, (getElem?_set_ne hij).trans hj, hl⟩
  have hframe : Frame σ ⟨m', σ.guards.set i g'⟩ := by
    refine ⟨?_, fun j s a l => (howns j s a l).mpr⟩
    rintro j s a l - ⟨gj, hj, hactive, hl⟩
    rcases hcases j gj hj with ⟨rfl, rfl⟩ | ⟨-, hj'⟩
    · refine ⟨g, hg, ?_, hlatches ▸ hl⟩
      rw [Bool.eq_false_iff]
      intro htrue
      rw [hdone htrue] at hactive
      cases hactive
    · exact ⟨gj, hj', hactive, hl⟩
  refine ⟨⟨hpresent, ?_, ?_, ?_⟩, ?_⟩
  · exact fun s a l hl => (howns _ _ _ _).mpr (h.manager.owned s a l (hhas s a l hl))
  · intro j s a l hl
    rw [hid]
    exact h.manager.ids j s a l ((howns _ _ _ _).mp hl)
  · intro j k s a s' a' l l' hne hl hl'
    exact h.manager.distinct j k s a s' a' l l' hne ((howns _ _ _ _).mp hl) ((howns _ _ _ _).mp hl')
  · intro j gj hj
    rcases hcases j gj hj with ⟨rfl, rfl⟩ | ⟨-, hj'⟩
    · exact hframe.guardOk hi.le hok
    · exact hframe.guardOk (List.getElem?_eq_some_iff.mp hj').1.le (h.guards j gj hj')

theorem present_set (h : Invariant σ) (hg : σ.guards[i]? = some g)
    (hlatches : g'.latches = g.latches) (hremoved : g'.removed = g.removed) :
    ∀ (j : ℕ) (gj : Guard), (σ.guards.set i g')[j]? = some gj → gj.removed = false →
      ∀ s a, ∀ l ∈ gj.latches s a, σ.manager.Has s a l := by
  intro j gj hj hrem s a l hl
  by_cases hij : i = j
  · subst hij
    rw [getElem?_set_self (List.getElem?_eq_some_iff.mp hg).1] at hj
    obtain rfl := some.inj hj
    exact h.manager.present i g hg (hremoved ▸ hrem) s a l (hlatches ▸ hl)
  · rw [getElem?_set_ne hij] at hj
    exact h.manager.present j gj hj hrem s a l hl

theorem not_active_of_signaled {j : ℕ} (h : σ.signaled j = true) {s : SpanScope} {a : SpanAccess}
    {l : Latch} : ¬ σ.Active j s a l := by
  rintro ⟨gj, hj, hdone, -⟩
  unfold System.signaled at h
  rw [hj, Option.any_some, hdone] at h
  cases h

variable {latches : Latches}

theorem ItemsOk.tail (howner : ∀ (j : ℕ) (gj : Guard), σ.guards[j]? = some gj →
      ∀ s a, ∀ l ∈ gj.latches s a, l.guard = j) {item : WaitItem} {rest : List WaitItem}
    (h : ItemsOk σ i latches (item :: rest)) (hpassed : item.passed σ = true) :
    ItemsOk σ i latches rest := by
  refine ⟨fun item' hitem' => h.each item' (mem_cons_of_mem item hitem'), ?_⟩
  intro j hj s a a' held hactive l hl hconflict
  obtain ⟨item', hitem', hheld, hignored⟩ := h.complete j hj s a a' held hactive l hl hconflict
  rcases mem_cons.mp hitem' with rfl | hrest
  · have hguard : item'.held.guard = j := by
      obtain ⟨gj, hgj, -, hmem⟩ := hactive
      rw [hheld]
      exact howner j gj hgj s a' held hmem
    unfold WaitItem.passed at hpassed
    rw [hignored, Bool.or_false, hguard] at hpassed
    exact absurd hactive (not_active_of_signaled hpassed)
  · exact ⟨item', hrest, hheld, hignored⟩

variable {spans : SpanSet}

theorem SnapOk.checkedOk {snap : Snapshot} (h : SnapOk σ i latches snap)
    (hlatched : ∀ s a, ∀ sp ∈ spans a s, ∃ l ∈ latches s a, Within sp.1 l.span ∧ l.ts = sp.2)
    (hcheck : checkOptimisticNoConflicts snap spans = true) : CheckedOk σ i latches spans := by
  refine ⟨hlatched, ?_⟩
  intro j hj s a a' held hactive sp hsp hconflict
  obtain ⟨hopposed, hover, hignore⟩ := conflict_iff_ignoreFor.mp hconflict
  obtain ⟨l, hl, -⟩ := hlatched s a sp hsp
  have hheld := h.complete j hj s a' held hactive (needs_of_opposed hl hopposed)
  have hfree := all_eq_true.mp (all_eq_true.mp hcheck (s, a) (mem_scopesAndAccesses s a))
    sp hsp
  have hoverlaps : treeOverlaps (snap s a') sp.1 sp.2 (ignoreFor a a') = true := by
    unfold treeOverlaps
    rw [any_eq_true]
    exact ⟨held, hheld, by simp [hover, hignore]⟩
  cases a with
  | readOnly =>
    rcases hopposed with ha | rfl
    · cases ha
    · simp only [ignoreFor] at hoverlaps
      simp [hoverlaps] at hfree
  | readWrite =>
    cases a' with
    | readOnly | readWrite =>
      simp only [ignoreFor] at hoverlaps
      simp [hoverlaps] at hfree

/-- What a guard keeps when it takes a step. -/
structure Keeps (σ : System) (i : ℕ) (g g' : Guard) : Prop where
  latches : g'.latches = g.latches
  removed : g'.removed = g.removed
  done : g.done = true → g'.done = true
  ok : GuardOk σ i g'

theorem keeps_phase (h : GuardOk σ i g) {phase : Phase} (hphase : PhaseOk σ i g.latches phase) :
    Keeps σ i g { g with phase := phase } :=
  ⟨rfl, rfl, id, h.owner, h.removed_done, hphase, h.checked⟩

theorem keeps_poisoned (h : GuardOk σ i g) (poisoned : Bool) :
    Keeps σ i g { g with poisoned := poisoned } :=
  ⟨rfl, rfl, id, h.owner, h.removed_done, h.phase, h.checked⟩

theorem keeps_signal (h : GuardOk σ i g) : Keeps σ i g { g with done := true } :=
  ⟨rfl, rfl, fun _ => rfl, h.owner, fun _ => rfl, h.phase, h.checked⟩

theorem keeps_check (h : GuardOk σ i g)
    (hlatched : ∀ s a, ∀ sp ∈ spans a s, ∃ l ∈ g.latches s a, Within sp.1 l.span ∧ l.ts = sp.2)
    (hstep : g.step σ (.checkOptimisticNoConflicts i spans) = some g') : Keeps σ i g g' := by
  unfold Guard.step at hstep
  cases hphase : g.phase with
  | waiting items | acquired | failed =>
    rw [hphase] at hstep
    cases hstep
  | optimistic snap =>
    rw [hphase] at hstep
    obtain rfl := some.inj hstep
    have hsnap : SnapOk σ i g.latches snap := by
      have := h.phase
      rwa [hphase] at this
    by_cases hcheck : checkOptimisticNoConflicts snap spans = true
    · rw [if_pos hcheck]
      refine ⟨rfl, rfl, id, h.owner, h.removed_done, hsnap, ?_⟩
      intro spans' hspans'
      rcases mem_cons.mp hspans' with rfl | hold
      · exact hsnap.checkedOk hlatched hcheck
      · exact h.checked spans' hold
    · rw [if_neg hcheck]
      exact ⟨rfl, rfl, id, h⟩

variable {e : Event}

theorem keeps_waiting (hinv : Invariant σ) (h : GuardOk σ i g) {items : List WaitItem}
    (hphase : g.phase = .waiting items) (hstep : g.step σ e = some g') : Keeps σ i g g' := by
  have hitems : ItemsOk σ i g.latches items := by
    have := h.phase
    rwa [hphase] at this
  unfold Guard.step at hstep
  rw [hphase] at hstep
  cases e with
  | acquire | acquireOptimistic | waitFor | checkOptimisticNoConflicts | waitUntilAcquired | remove
  | signal => cases hstep
  | poison =>
    obtain rfl := some.inj hstep
    exact hphase ▸ keeps_poisoned h true
  | advance =>
    cases items with
    | nil => cases hstep
    | cons item rest =>
      dsimp only at hstep
      split_ifs at hstep with hpassed
      obtain rfl := some.inj hstep
      exact keeps_phase h (hitems.tail (fun j gj hj => (hinv.guards j gj hj).owner) hpassed)
  | finish =>
    cases items with
    | cons item rest => cases hstep
    | nil =>
      obtain rfl := some.inj hstep
      refine keeps_phase h ?_
      intro j hj s a a' held hactive l hl hconflict
      obtain ⟨item, hitem, -⟩ := hitems.complete j hj s a a' held hactive l hl hconflict
      cases hitem
  | cancel =>
    cases items with
    | nil => cases hstep
    | cons item rest =>
      dsimp only at hstep
      split_ifs at hstep
      obtain rfl := some.inj hstep
      exact keeps_phase h trivial
  | observePoison =>
    cases items with
    | nil => cases hstep
    | cons item rest =>
      dsimp only at hstep
      split_ifs at hstep
      split at hstep
      · obtain rfl := some.inj hstep
        exact keeps_phase h trivial
      · obtain rfl := some.inj hstep
        exact hphase ▸ keeps_poisoned h true

theorem keeps_step (hinv : Invariant σ) (h : GuardOk σ i g)
    (hvalid : ∀ spans, e = .checkOptimisticNoConflicts i spans → ∀ s a, ∀ sp ∈ spans a s,
      ∃ l ∈ g.latches s a, Within sp.1 l.span ∧ l.ts = sp.2)
    (hindex : ∀ j spans, e = .checkOptimisticNoConflicts j spans → j = i)
    (hstep : g.step σ e = some g') : Keeps σ i g g' := by
  cases hphase : g.phase with
  | waiting items => exact keeps_waiting hinv h hphase hstep
  | optimistic snap =>
    cases e with
    | checkOptimisticNoConflicts j spans =>
      obtain rfl := hindex j spans rfl
      exact keeps_check h (hvalid spans rfl) hstep
    | waitUntilAcquired =>
      unfold Guard.step at hstep
      rw [hphase] at hstep
      obtain rfl := some.inj hstep
      have hsnap : SnapOk σ i g.latches snap := by
        have := h.phase
        rwa [hphase] at this
      exact keeps_phase h hsnap.itemsOk
    | poison =>
      obtain rfl := some.inj hstep
      exact keeps_poisoned h true
    | signal =>
      unfold Guard.step at hstep
      rw [hphase] at hstep
      split_ifs at hstep
      obtain rfl := some.inj hstep
      exact hphase ▸ keeps_signal h
    | acquire | acquireOptimistic | waitFor | remove => cases hstep
    | advance | finish | cancel | observePoison =>
      unfold Guard.step at hstep
      rw [hphase] at hstep
      cases hstep
  | acquired | failed =>
    unfold Guard.step at hstep
    rw [hphase] at hstep
    cases e with
    | poison =>
      obtain rfl := some.inj hstep
      exact hphase ▸ keeps_poisoned h true
    | signal =>
      split_ifs at hstep
      obtain rfl := some.inj hstep
      exact hphase ▸ keeps_signal h
    | acquire | acquireOptimistic | waitFor | remove => cases hstep
    | checkOptimisticNoConflicts | waitUntilAcquired | advance | finish | cancel | observePoison =>
      cases hstep

end Update

end Cockroach.SpanLatch
