import Cockroach.SpanLatch.System

/-! Which latches the manager has after each of its operations. -/
namespace Cockroach.SpanLatch
open ByteOrder Hlc Roachpb List
open Function (update_of_ne update_self)

/-- A latch is in its tree, or with the reads that are not yet there. -/
def ScopedManager.Has (sm : ScopedManager) (a : SpanAccess) (l : Latch) : Prop :=
  l ∈ sm.trees a ∨ a = .readOnly ∧ l ∈ sm.readSet

def Manager.Has (m : Manager) (s : SpanScope) (a : SpanAccess) (l : Latch) : Prop :=
  (m.scopes s).Has a l

variable {sm : ScopedManager} {l : Latch}

theorem ScopedManager.has_flush {a : SpanAccess} : sm.flushReadSetLocked.Has a l ↔ sm.Has a l := by
  unfold Has flushReadSetLocked
  cases a <;> simp

theorem ScopedManager.mem_trees_flush :
    l ∈ sm.flushReadSetLocked.trees .readOnly ↔ sm.Has .readOnly l := by
  unfold Has flushReadSetLocked
  simp

theorem ScopedManager.has_readWrite : sm.Has .readWrite l ↔ l ∈ sm.trees .readWrite := by
  unfold Has
  simp

section Snapshot

variable {m : Manager} {spans : SpanSet} {s : SpanScope} {l : Latch}

variable {a : SpanAccess}

theorem has_snapshotLocked : (m.snapshotLocked spans).1.Has s a l ↔ m.Has s a l := by
  unfold Manager.Has Manager.snapshotLocked ScopedManager.snapshotLocked
  dsimp only
  split_ifs
  · exact ScopedManager.has_flush
  · exact Iff.rfl

@[simp] theorem idAlloc_snapshotLocked : (m.snapshotLocked spans).1.idAlloc = m.idAlloc := rfl

theorem mem_snapshot_readOnly :
    l ∈ (m.snapshotLocked spans).2 s .readOnly ↔ spans .readWrite s ≠ [] ∧ m.Has s .readOnly l := by
  unfold Manager.Has Manager.snapshotLocked ScopedManager.snapshotLocked
  by_cases hwriting : spans .readWrite s ≠ []
  · simp only [hwriting, decide_true, if_true, ne_eq, not_false_eq_true, true_and]
    exact ScopedManager.mem_trees_flush
  · simp [hwriting]

theorem mem_snapshot_readWrite : l ∈ (m.snapshotLocked spans).2 s .readWrite ↔
      (spans .readWrite s ≠ [] ∨ spans .readOnly s ≠ []) ∧ m.Has s .readWrite l := by
  unfold Manager.Has Manager.snapshotLocked ScopedManager.snapshotLocked
  rw [ScopedManager.has_readWrite]
  by_cases hwriting : spans .readWrite s ≠ []
  · simp [hwriting, ScopedManager.flushReadSetLocked]
  · by_cases hreading : spans .readOnly s ≠ []
    · simp [hwriting, hreading]
    · simp [hwriting, hreading]

theorem has_of_mem_snapshot (h : l ∈ (m.snapshotLocked spans).2 s a) : m.Has s a l := by
  cases a with
  | readOnly => exact (mem_snapshot_readOnly.mp h).2
  | readWrite => exact (mem_snapshot_readWrite.mp h).2

end Snapshot

theorem length_assignIDs (n : ℕ) (ls : List Latch) : (assignIDs n ls).length = ls.length := by
  induction ls generalizing n with
  | nil => rfl
  | cons l ls ih => simp [assignIDs, ih]

theorem mem_assignIDs {n : ℕ} {ls : List Latch} (h : l ∈ assignIDs n ls) :
    n < l.id ∧ l.id ≤ n + ls.length ∧ ∃ l₀ ∈ ls, l = { l₀ with id := l.id } := by
  induction ls generalizing n with
  | nil => cases h
  | cons l₁ ls ih =>
    rcases mem_cons.mp h with rfl | h
    · exact ⟨Nat.lt_succ_self n, by simp, l₁, mem_cons_self, rfl⟩
    · obtain ⟨hlt, hle, l₀, hl₀, heq⟩ := ih h
      refine ⟨by omega, ?_, l₀, mem_cons_of_mem l₁ hl₀, heq⟩
      rw [length_cons]
      omega

/-- What the insertion at some scopes and accesses does. -/
structure Inserts (ps : List (SpanScope × SpanAccess)) (m : Manager) (latches : Latches)
    (m' : Manager) (latches' : Latches) : Prop where
  idAlloc : m.idAlloc ≤ m'.idAlloc
  other : ∀ s a, (s, a) ∉ ps → latches' s a = latches s a
  assigned : ∀ s a, (s, a) ∈ ps → ∃ n, m.idAlloc ≤ n ∧ n + (latches s a).length ≤ m'.idAlloc ∧
    latches' s a = assignIDs n (latches s a)
  has : ∀ s a l, m'.Has s a l ↔ m.Has s a l ∨ (s, a) ∈ ps ∧ l ∈ latches' s a

theorem has_insertAt {m : Manager} {latches : Latches} {s : SpanScope} {a : SpanAccess}
    {s' : SpanScope} {a' : SpanAccess} : (m.insertAt latches s a).1.Has s' a' l ↔
      m.Has s' a' l ∨ (s', a') = (s, a) ∧ l ∈ (m.insertAt latches s a).2 s' a' := by
  unfold Manager.insertAt Manager.Has ScopedManager.Has
  by_cases hs : s' = s
  · subst hs
    cases a with
    | readOnly =>
      cases a' with
      | readOnly => simp [or_assoc]
      | readWrite => simp
    | readWrite =>
      cases a' <;> simp
  · simp [hs]

theorem inserts_foldl {ps : List (SpanScope × SpanAccess)} (hps : ps.Nodup) (m : Manager)
    (latches : Latches) :
    Inserts ps m latches (ps.foldl (fun r sa => r.1.insertAt r.2 sa.1 sa.2) (m, latches)).1
      (ps.foldl (fun r sa => r.1.insertAt r.2 sa.1 sa.2) (m, latches)).2 := by
  induction ps generalizing m latches with
  | nil => exact ⟨le_rfl, fun _ _ _ => rfl, by simp, by simp⟩
  | cons p ps ih =>
    obtain ⟨hp, hps'⟩ := nodup_cons.mp hps
    obtain ⟨s, a⟩ := p
    set m₁ := (m.insertAt latches s a).1 with hm₁
    set latches₁ := (m.insertAt latches s a).2 with hlatches₁
    have hins := ih hps' m₁ latches₁
    have hid : m₁.idAlloc = m.idAlloc + (latches s a).length := by
      rw [hm₁]
      simp [Manager.insertAt, length_assignIDs]
    have hself : latches₁ s a = assignIDs m.idAlloc (latches s a) := by
      simp [hlatches₁, Manager.insertAt]
    have hother : ∀ s' a', (s', a') ≠ (s, a) → latches₁ s' a' = latches s' a' := by
      intro s' a' hne
      rw [hlatches₁]
      unfold Manager.insertAt
      dsimp only
      by_cases hs : s' = s
      · subst hs
        have ha : a' ≠ a := fun ha => hne (by rw [ha])
        rw [update_self, update_of_ne ha]
      · rw [update_of_ne hs]
    change Inserts _ _ _ (ps.foldl _ (m₁, latches₁)).1 (ps.foldl _ (m₁, latches₁)).2
    refine ⟨?_, ?_, ?_, ?_⟩
    · have := hins.idAlloc
      omega
    · intro s' a' hnot
      rw [mem_cons, not_or] at hnot
      rw [hins.other s' a' hnot.2, hother s' a' hnot.1]
    · intro s' a' hmem
      rcases mem_cons.mp hmem with heq | hmem
      · obtain ⟨rfl, rfl⟩ := Prod.mk.inj heq
        refine ⟨m.idAlloc, le_rfl, ?_, ?_⟩
        · rw [← hid]
          exact hins.idAlloc
        · rw [hins.other s' a' hp, hself]
      · have hne : (s', a') ≠ (s, a) := fun heq => hp (heq ▸ hmem)
        obtain ⟨n, hn, hle, heq⟩ := hins.assigned s' a' hmem
        rw [hother s' a' hne] at hle heq
        exact ⟨n, by omega, hle, heq⟩
    · intro s' a' l
      rw [hins.has, has_insertAt, ← hlatches₁, mem_cons, or_assoc]
      by_cases heq : (s', a') = (s, a)
      · obtain ⟨rfl, rfl⟩ := Prod.mk.inj heq
        rw [hins.other s' a' hp]
        simp [hp]
      · simp [heq]

theorem mem_scopesAndAccesses (s : SpanScope) (a : SpanAccess) : (s, a) ∈ scopesAndAccesses := by
  cases s <;> cases a <;> decide

theorem inserts_insertLocked (m : Manager) (latches : Latches) :
    Inserts scopesAndAccesses m latches (m.insertLocked latches).1 (m.insertLocked latches).2 :=
  inserts_foldl (by decide) m latches

section Remove

variable {latch l : Latch} {ls : List Latch}

theorem mem_dropLatch : l ∈ dropLatch latch ls ↔ l ∈ ls ∧ l.id ≠ latch.id := by
  simp [dropLatch]

variable {sm : ScopedManager} {a a' : SpanAccess}

theorem has_of_has_removeLatch (h : (sm.removeLatch a latch).Has a' l) : sm.Has a' l := by
  unfold ScopedManager.removeLatch ScopedManager.Has at *
  split_ifs at h
  · exact h.imp_right fun ⟨ha, hl⟩ => ⟨ha, (mem_dropLatch.mp hl).1⟩
  · dsimp only at h
    by_cases ha : a' = a
    · subst ha
      rw [update_self] at h
      exact h.imp_left fun hl => (mem_dropLatch.mp hl).1
    · rwa [update_of_ne ha] at h

theorem has_removeLatch (h : sm.Has a' l) (hid : l.id ≠ latch.id) :
    (sm.removeLatch a latch).Has a' l := by
  unfold ScopedManager.removeLatch ScopedManager.Has at *
  split_ifs
  · exact h.imp_right fun ⟨ha, hl⟩ => ⟨ha, mem_dropLatch.mpr ⟨hl, hid⟩⟩
  · dsimp only
    by_cases ha : a' = a
    · subst ha
      rw [update_self]
      exact h.imp_left fun hl => mem_dropLatch.mpr ⟨hl, hid⟩
    · rwa [update_of_ne ha]

theorem has_of_has_removeAll (h : (ls.foldl (fun sm l => sm.removeLatch a l) sm).Has a' l) :
    sm.Has a' l := by
  induction ls generalizing sm with
  | nil => exact h
  | cons latch ls ih => exact has_of_has_removeLatch (ih h)

theorem has_removeAll (h : sm.Has a' l) (hid : ∀ latch ∈ ls, l.id ≠ latch.id) :
    (ls.foldl (fun sm l => sm.removeLatch a l) sm).Has a' l := by
  induction ls generalizing sm with
  | nil => exact h
  | cons latch ls ih =>
    exact ih (has_removeLatch h (hid latch mem_cons_self))
      fun latch' hl => hid latch' (mem_cons_of_mem latch hl)

variable {m : Manager} {latches : Latches} {s : SpanScope}

theorem has_of_has_removeLocked (h : (m.removeLocked latches).Has s a l) : m.Has s a l := by
  unfold Manager.removeLocked at h
  generalize scopesAndAccesses = ps at h
  induction ps generalizing m with
  | nil => exact h
  | cons p ps ih =>
    have h' := ih h
    unfold Manager.removeAt Manager.Has at h'
    dsimp only at h'
    by_cases hs : s = p.1
    · subst hs
      rw [update_self] at h'
      exact has_of_has_removeAll h'
    · rwa [update_of_ne hs] at h'

theorem has_removeLocked (h : m.Has s a l) (hid : ∀ s a, ∀ latch ∈ latches s a, l.id ≠ latch.id) :
    (m.removeLocked latches).Has s a l := by
  unfold Manager.removeLocked
  induction scopesAndAccesses generalizing m with
  | nil => exact h
  | cons p ps ih =>
    refine ih ?_
    unfold Manager.removeAt Manager.Has
    dsimp only
    by_cases hs : s = p.1
    · subst hs
      rw [update_self]
      exact has_removeAll h (hid _ _)
    · rwa [update_of_ne hs]

@[simp] theorem idAlloc_removeLocked (m : Manager) (latches : Latches) :
    (m.removeLocked latches).idAlloc = m.idAlloc := by
  induction scopesAndAccesses generalizing m with
  | nil => rfl
  | cons _ _ ih => exact ih _

end Remove

end Cockroach.SpanLatch
