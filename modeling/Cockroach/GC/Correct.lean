import Cockroach.GC.Loop

/-! Garbage collection keeps every read at or above the threshold. -/
namespace Cockroach.GC
open ByteOrder Hlc Storage List Option

namespace RangeKey

/-- The versions of a key, of which an inline value has none. -/
def history : RangeKey → KeyHistory
  | inline key _ => ⟨key, none, [], KeyState.initial.sorted⟩
  | versioned h => h

theorem key_of_mem_records {k : RangeKey} {e : Entry} (he : e ∈ k.records) : e.key = k.key := by
  cases k with
  | inline key m =>
    obtain rfl := mem_singleton.mp he
    rfl
  | versioned h =>
    rcases mem_append.mp he with he | he
    · obtain ⟨i, -, he⟩ := mem_flatMap.mp he
      rcases mem_cons.mp he with rfl | he
      · rfl
      · obtain rfl := mem_singleton.mp he
        rfl
    · obtain ⟨v, -, rfl⟩ := mem_map.mp he
      rfl

end RangeKey

section Content

variable {env : Environment} {threshold : Timestamp} {fails : Bool}

theorem passes_rangeKey {k : RangeKey} {l rest : List Entry} {s : LoopState} (hs : s.Clean)
    (hrest : ∀ e ∈ rest.head?, e.key ≠ k.key) (hl : Delivered fails l (k.records.reverse ++ rest)) :
    Passes env threshold fails k.history l rest s (KeyDone threshold k.history) := by
  cases k with
  | versioned h => exact passes_history hs hrest hl
  | inline key m =>
    obtain ⟨w, hw, hnot⟩ := window_metadata key m rest hrest
    refine passes_other hl hw (.inl hnot) ⟨hs, ?_⟩
    rintro u ⟨hu, -⟩
    cases hu

variable (env threshold) in
/-- The loop over keys, in the order of the iteration: it asks for garbage only, and for all of it
if nothing ends it early. -/
theorem visitAll_keys {keys : List RangeKey} (hkeys : keys.Pairwise fun a b => a.key ≠ b.key)
    {l : List Entry} {s : LoopState} (hs : s.Clean)
    (hl : Delivered fails l (keys.flatMap fun k => k.records.reverse)) :
    ∃ err s', visitAll env threshold fails l s = some (err, s') ∧
      (∀ g, s'.Asked g → s.Asked g ∨ ∃ k ∈ keys, GarbageKey threshold k.history g) ∧
      (err = none → (∀ g, s.Asked g → s'.Asked g) ∧
        ∀ k ∈ keys, ∀ u, k.history.Garbage threshold u → s'.Covers k.history u) := by
  induction keys generalizing l s with
  | nil =>
    obtain rfl := prefix_nil.mp hl.1
    exact ⟨_, s, rfl, fun g => .inl, fun _ => ⟨fun g => id, by simp⟩⟩
  | cons k keys ih =>
    obtain ⟨hne, hkeys'⟩ := pairwise_cons.mp hkeys
    have hrest : ∀ e ∈ (keys.flatMap fun k => k.records.reverse).head?, e.key ≠ k.key := by
      intro e he
      obtain ⟨k', hk', hin⟩ := mem_flatMap.mp (mem_of_mem_head? he)
      rw [RangeKey.key_of_mem_records (mem_reverse.mp hin)]
      exact (hne k' hk').symm
    have hpass : Passes env threshold fails k.history l _ s (KeyDone threshold k.history) :=
      passes_rangeKey hs hrest hl
    rcases hpass with
      ⟨err, s', heq, hasked⟩ | ⟨l', s', heq, hl', hasked, hgrow, hclean, hcovers⟩
    · refine ⟨some err, s', heq, ?_, fun h => by cases h⟩
      exact fun g hg => (hasked g hg).imp_right fun hk => ⟨k, mem_cons_self, hk⟩
    · obtain ⟨err, s'', heq', hasked', hnone⟩ := ih hkeys' hclean hl'
      refine ⟨err, s'', heq.trans heq', ?_, ?_⟩
      · intro g hg
        rcases hasked' g hg with hg' | ⟨k', hk', hgarbage⟩
        · exact (hasked g hg').imp_right fun hk => ⟨k, mem_cons_self, hk⟩
        · exact .inr ⟨k', mem_cons_of_mem k hk', hgarbage⟩
      · intro herr
        obtain ⟨hgrow', hcovers'⟩ := hnone herr
        refine ⟨fun g hg => hgrow' g (hgrow g hg), ?_⟩
        intro k' hk' u hu
        rcases mem_cons.mp hk' with rfl | hk'
        · exact (hcovers u hu).mono hgrow'
        · exact hcovers' k' hk' u hu

end Content

theorem delivered_delivers (it : ReplicaMVCCDataIterator) :
    Delivered it.fails it.delivers it.remaining := by
  obtain ⟨remaining, failAfter⟩ := it
  cases failAfter with
  | none => exact ⟨prefix_rfl, fun _ => rfl⟩
  | some n =>
    refine ⟨List.take_prefix n remaining, ?_⟩
    intro hfails
    have hlt : remaining.length < n := by
      simpa [ReplicaMVCCDataIterator.fails] using hfails
    exact take_of_length_le hlt.le

/-- Nothing fails around the run. -/
structure Environment.Benign (env : Environment) : Prop where
  gc : ∀ n, env.gc n = .ok
  intentCancelled : ∀ e, env.intentCancelled e = false
  flushCancelled : env.flushCancelled = false
  failAfter : env.failAfter = none

section Benign

variable {env : Environment} {threshold : Timestamp}

theorem visitVersion_requests (env : Environment) (cur : Entry) (isNewest garbage : Bool)
    (s : LoopState) : ((s.visitVersion env cur isNewest garbage).1 = false ∧
      (s.visitVersion env cur isNewest garbage).2.requests = s.requests) ∨
    ∃ batch, (s.visitVersion env cur isNewest garbage).2.requests =
        s.requests ++ [(batch, env.gc s.requests.length)] ∧
      ((s.visitVersion env cur isNewest garbage).1 = true →
        env.gc s.requests.length = .cancelled) := by
  unfold LoopState.visitVersion
  set s₁ := (if garbage then s.noteGarbage cur else s).noteAffected isNewest with hs₁
  have hrequests₁ : s₁.requests = s.requests := by
    obtain ⟨n, hn⟩ := LoopState.noteAffected_eq isNewest (if garbage then s.noteGarbage cur else s)
    rw [hs₁, hn]
    split_ifs <;> rfl
  set s₂ := (if s₁.shouldSendBatch || isNewest && s₁.haveGarbageForThisKey then
    s₁.addKey cur isNewest else s₁) with hs₂
  have hrequests₂ : s₂.requests = s.requests := by
    rw [hs₂]
    split_ifs
    · exact hrequests₁
    · exact hrequests₁
  by_cases hsend : s₁.shouldSendBatch = true
  · rw [if_pos hsend]
    refine .inr ⟨s₂.batchGCKeys, ?_⟩
    unfold LoopState.sendBatch
    rw [hrequests₂]
    by_cases hc : env.gc s.requests.length = .cancelled
    · rw [if_pos hc]
      exact ⟨rfl, fun _ => hc⟩
    · rw [if_neg hc]
      exact ⟨rfl, fun h => by cases h⟩
  · rw [if_neg hsend]
    exact .inl ⟨rfl, hrequests₂⟩

theorem visit_of_benign (henv : env.Benign) {w : GCIteratorState} {s : LoopState}
    {r : Bool × LoopState} (hs : ∀ q ∈ s.requests, q.2 = .ok)
    (hr : s.visit env threshold w = some r) : r.1 = false ∧ ∀ q ∈ r.2.requests, q.2 = .ok := by
  unfold LoopState.visit at hr
  by_cases hnot : w.curIsNotValue = true
  · rw [if_pos hnot] at hr
    obtain rfl := some.inj hr
    exact ⟨rfl, hs⟩
  rw [if_neg hnot] at hr
  by_cases hintent : w.curIsIntent = true
  · rw [if_pos hintent] at hr
    obtain rfl := some.inj hr
    refine ⟨?_, hs⟩
    cases w.next with
    | none => rfl
    | some e => exact henv.intentCancelled e
  rw [if_neg hintent] at hr
  obtain ⟨garbage, -, rfl⟩ := map_eq_some_iff.mp hr
  rcases visitVersion_requests env w.cur w.curIsNewest garbage s with
    ⟨hgo, hsame⟩ | ⟨batch, hsent, hcancelled⟩
  · rw [hsame]
    exact ⟨hgo, hs⟩
  · rw [henv.gc] at hsent hcancelled
    refine ⟨?_, ?_⟩
    · rw [Bool.eq_false_iff]
      intro htrue
      cases hcancelled htrue
    · rw [hsent]
      intro q hq
      rcases mem_append.mp hq with hq | hq
      · exact hs q hq
      · obtain rfl := mem_singleton.mp hq
        rfl

theorem visitAll_of_benign (henv : env.Benign) {l : List Entry} {s s' : LoopState}
    {err : Option RunError} (hs : ∀ q ∈ s.requests, q.2 = .ok)
    (h : visitAll env threshold false l s = some (err, s')) :
    err = none ∧ ∀ q ∈ s'.requests, q.2 = .ok := by
  induction l generalizing s with
  | nil =>
    cases h
    exact ⟨rfl, hs⟩
  | cons e rest ih =>
    rw [visitAll] at h
    cases hw : GCIterator.windowOf false (e :: rest) with
    | none =>
      rw [hw] at h
      cases h
      exact ⟨rfl, hs⟩
    | some w =>
      rw [hw] at h
      dsimp only at h
      cases hvisit : s.visit env threshold w with
      | none =>
        rw [hvisit] at h
        cases h
      | some r =>
        obtain ⟨hr, hrequests⟩ := visit_of_benign henv hs hvisit
        rw [hvisit] at h
        obtain ⟨cancelled, s₁⟩ := r
        obtain rfl : cancelled = false := hr
        exact ih hrequests h

end Benign

variable {env : Environment} {s : LoopState}

theorem mem_asked_finishRun {g : GCKey} (hg : g ∈ (finishRun env s).asked) : s.Asked g := by
  have hsent : ∀ q, g ∈ q.1 → q ∈ s.requests → s.Asked g := fun q hq hmem => .inr ⟨q, hmem, hq⟩
  obtain ⟨q, hq, hgq⟩ := mem_flatMap.mp hg
  unfold finishRun at hq
  by_cases hflush : env.flushCancelled = true
  · rw [if_pos hflush] at hq
    exact hsent q hgq hq
  rw [if_neg hflush] at hq
  by_cases hbatch : s.batchGCKeys ≠ []
  · rw [if_pos hbatch] at hq
    rcases mem_append.mp hq with hq | hq
    · exact hsent q hgq hq
    · obtain rfl := mem_singleton.mp hq
      exact .inl hgq
  · rw [if_neg hbatch] at hq
    exact hsent q hgq hq

theorem mem_asked_of_err_none {g : GCKey} (herr : (finishRun env s).err = none) (hg : s.Asked g) :
    g ∈ (finishRun env s).asked := by
  unfold Run.asked
  rw [mem_flatMap]
  unfold finishRun at herr ⊢
  by_cases hflush : env.flushCancelled = true
  · rw [if_pos hflush] at herr
    cases herr
  rw [if_neg hflush]
  by_cases hbatch : s.batchGCKeys ≠ []
  · rw [if_pos hbatch]
    rcases hg with hg | ⟨q, hq, hgq⟩
    · exact ⟨_, mem_append_right _ (mem_singleton.mpr rfl), hg⟩
    · exact ⟨q, mem_append_left _ hq, hgq⟩
  · rw [if_neg hbatch]
    rcases hg with hg | ⟨q, hq, hgq⟩
    · rw [not_not.mp hbatch] at hg
      cases hg
    · exact ⟨q, hq, hgq⟩

theorem succeeds_finishRun (henv : env.Benign) (hs : ∀ q ∈ s.requests, q.2 = .ok) :
    (finishRun env s).Succeeds := by
  unfold finishRun
  rw [henv.flushCancelled, henv.gc]
  simp only [Bool.false_eq_true, if_false]
  split_ifs
  · refine ⟨rfl, ?_⟩
    intro q hq
    rcases mem_append.mp hq with hq | hq
    · exact hs q hq
    · obtain rfl := mem_singleton.mp hq
      rfl
  · exact ⟨rfl, hs⟩

theorem flatten_map_records (ranges : List (List RangeKey)) :
    (ranges.map fun keys => keys.flatMap RangeKey.records).flatten =
      ranges.flatten.flatMap RangeKey.records := by
  induction ranges with
  | nil => rfl
  | cons keys ranges ih =>
    rw [map_cons, flatten_cons, flatten_cons, flatMap_append, ih]

/-- What a run over a range asks for: garbage only, and all of it if the run ends without an
error. -/
theorem processReplicatedKeyRange_eq (env : Environment) (threshold : Timestamp)
    {ranges : List (List RangeKey)} (hsorted : KeysAscending ranges.flatten) :
    ∃ run, processReplicatedKeyRange env threshold
        (ranges.map fun keys => keys.flatMap RangeKey.records) = some run ∧
      (∀ g ∈ run.asked, ∃ k ∈ ranges.flatten, GarbageKey threshold k.history g) ∧
      (run.err = none → ∀ k ∈ ranges.flatten, ∀ u, k.history.Garbage threshold u →
        ∃ g ∈ run.asked, g.key = k.history.key ∧ u.1.1.LessEq g.timestamp) ∧
      (env.Benign → run.Succeeds) := by
  set entries := ranges.map fun keys => keys.flatMap RangeKey.records with hentries
  have hflatten : entries.flatten.reverse =
      ranges.flatten.reverse.flatMap fun k => k.records.reverse := by
    rw [flatten_map_records, reverse_flatMap]
    rfl
  set it := GCIterator.makeGCIterator entries env.failAfter with hit
  have hdelivered : Delivered it.it.fails it.pending
      (ranges.flatten.reverse.flatMap fun k => k.records.reverse) := by
    rw [← hflatten]
    exact delivered_delivers it.it
  have hkeys : ranges.flatten.reverse.Pairwise fun a b => a.key ≠ b.key := by
    rw [pairwise_reverse]
    refine hsorted.imp ?_
    intro a b hlt heq
    rw [heq, bytesCompare_self] at hlt
    cases hlt
  have hclean : LoopState.initial.Clean := ⟨rfl, by decide⟩
  have hno : ∀ g, ¬ LoopState.initial.Asked g := by
    rintro g (hg | ⟨q, hq, -⟩)
    · cases hg
    · cases hq
  obtain ⟨err, s, heq, hasked, hnone⟩ := visitAll_keys env threshold hkeys hclean hdelivered
  have hlength : it.pending.length < entries.flatten.length + 1 := by
    have hle := hdelivered.1.length_le
    rw [← hflatten, length_reverse] at hle
    omega
  have hgarbage : ∀ g, s.Asked g → ∃ k ∈ ranges.flatten, GarbageKey threshold k.history g := by
    intro g hg
    obtain ⟨k, hk, hkg⟩ := (hasked g hg).resolve_left (hno g)
    exact ⟨k, mem_reverse.mp hk, hkg⟩
  unfold processReplicatedKeyRange
  rw [processEntries_eq hlength, heq]
  cases err with
  | some e =>
    refine ⟨⟨s.requests, some e⟩, rfl, ?_, (fun h => by cases h), ?_⟩
    · intro g hg
      obtain ⟨q, hq, hgq⟩ := mem_flatMap.mp hg
      exact hgarbage g (.inr ⟨q, hq, hgq⟩)
    · intro henv
      have hfails : it.it.fails = false := by
        rw [hit, henv.failAfter]
        rfl
      rw [hfails] at heq
      cases (visitAll_of_benign henv (by simp [LoopState.initial]) heq).1
  | none =>
    refine ⟨finishRun env s, rfl, fun g hg => hgarbage g (mem_asked_finishRun hg), ?_, ?_⟩
    · intro herr k hk u hu
      obtain ⟨g, hg, hkey, hle⟩ := (hnone rfl).2 k (mem_reverse.mpr hk) u hu
      exact ⟨g, mem_asked_of_err_none herr hg, hkey, hle⟩
    · intro henv
      have hfails : it.it.fails = false := by
        rw [hit, henv.failAfter]
        rfl
      rw [hfails] at heq
      exact succeeds_finishRun henv (visitAll_of_benign henv (by simp [LoopState.initial]) heq).2

end Cockroach.GC
