import Cockroach.GC.Correct

/-! Which contents of a range garbage collection preserves. -/
namespace Cockroach.GC
open ByteOrder Hlc Storage List Option Timestamp

variable {run : Run}

theorem Run.keeps_eq_false {key : Bytes} {v : Version} :
    run.keeps key v = false ↔ ∃ g ∈ run.applied, g.key = key ∧ v.1.1.LessEq g.timestamp := by
  unfold keeps
  simp

theorem Run.mem_asked_of_mem_applied {g : GCKey} (hg : g ∈ run.applied) : g ∈ run.asked := by
  obtain ⟨q, hq, hgq⟩ := mem_flatMap.mp hg
  exact mem_flatMap.mpr ⟨q, mem_of_mem_filter hq, hgq⟩

theorem Run.Succeeds.mem_applied (h : run.Succeeds) {g : GCKey} (hg : g ∈ run.asked) :
    g ∈ run.applied := by
  obtain ⟨q, hq, hgq⟩ := mem_flatMap.mp hg
  refine mem_flatMap.mpr ⟨q, mem_filter.mpr ⟨hq, ?_⟩, hgq⟩
  rw [h.2 q hq]
  rfl

theorem Run.keeps_of_lessEq {key : Bytes} {v w : Version} (hle : w.1.1.LessEq v.1.1)
    (hv : run.keeps key v = false) : run.keeps key w = false := by
  obtain ⟨g, hg, hkey, hvg⟩ := Run.keeps_eq_false.mp hv
  refine Run.keeps_eq_false.mpr ⟨g, hg, hkey, ?_⟩
  rw [lessEq_iff] at hle hvg ⊢
  exact hle.trans hvg

variable {threshold : Timestamp}

/-- Reads do not miss versions that are not the newest at or below the threshold, nor tombstones
with everything below them. -/
theorem valueAt_filter {versions : List Version} {keeps : Version → Bool} {ts : Timestamp}
    (hsorted : RankedList.Descending versionRank versions) (hts : threshold.LessEq ts)
    (hdown : ∀ v w, w.1.1.LessEq v.1.1 → keeps v = false → keeps w = false)
    (hgarbage : ∀ v ∈ versions, keeps v = false → v.2 = [] ∨
      ∃ w ∈ versions, versionRank v.1 < versionRank w.1 ∧ w.1.1.LessEq threshold) :
    valueAt (versions.filter keeps) ts = valueAt versions ts := by
  unfold valueAt
  cases hfind : versions.find? fun v => v.1.1.LessEq ts with
  | none =>
    have hnone : (versions.filter keeps).find? (fun v => v.1.1.LessEq ts) = none := by
      rw [find?_eq_none] at hfind ⊢
      exact fun v hv => hfind v (mem_of_mem_filter hv)
    rw [hnone]
  | some v =>
    obtain ⟨hv, newer, older, rfl, hnewer⟩ := find?_eq_some_iff_append.mp hfind
    obtain ⟨-, hcons, hrank⟩ := pairwise_append.mp hsorted
    cases hkeep : keeps v with
    | true =>
      have hnone : (newer.filter keeps).find? (fun v => v.1.1.LessEq ts) = none := by
        rw [find?_eq_none]
        intro w hw
        simpa using hnewer w (mem_of_mem_filter hw)
      have hfound : ((newer ++ v :: older).filter keeps).find? (fun v => v.1.1.LessEq ts) =
          some v := by
        rw [filter_append, filter_cons_of_pos hkeep, find?_append, hnone, none_or, find?_cons, hv]
      rw [hfound]
    | false =>
      -- A newer version at or below the threshold would have been found, so this is a tombstone.
      have hdel : v.2 = [] := by
        refine (hgarbage v (mem_append_right _ mem_cons_self) hkeep).resolve_right ?_
        rintro ⟨w, hw, hlt, hle⟩
        rcases mem_append.mp hw with hin | hin
        · have hno : ¬ w.1.1.LessEq ts := by simpa using hnewer w hin
          rw [lessEq_iff] at hno hle hts
          exact hno (hle.trans hts)
        · rcases mem_cons.mp hin with rfl | hin
          · exact absurd hlt (lt_irrefl _)
          · exact absurd hlt ((pairwise_cons.mp hcons).1 w hin).not_gt
      have hnone : ((newer ++ v :: older).filter keeps).find? (fun v => v.1.1.LessEq ts) =
          none := by
        rw [find?_eq_none]
        intro w hw
        obtain ⟨hin, hkw⟩ := mem_filter.mp hw
        rcases mem_append.mp hin with hin | hin
        · simpa using hnewer w hin
        · have hle : w.1.1.LessEq v.1.1 := by
            rw [lessEq_iff]
            rcases mem_cons.mp hin with rfl | hin
            · exact le_rfl
            · exact KeyHistory.ticks_le_of_versionRank_lt ((pairwise_cons.mp hcons).1 w hin)
          rw [hdown v w hle hkeep] at hkw
          cases hkw
      rw [hnone, map_some, hdel]
      rfl

namespace KeyHistory

variable {h : KeyHistory} {threshold : Timestamp}

theorem committed_sorted (h : KeyHistory) : RankedList.Descending versionRank h.committed :=
  (pairwise_append.mp h.sorted).2.1

variable {v : Version}

theorem lt_provisional {p : Version} (hp : p ∈ h.provisional) (hv : v ∈ h.committed) :
    versionRank v.1 < versionRank p.1 := by
  refine (pairwise_append.mp h.sorted).2.2 p ?_ v hv
  rw [mem_toList]
  exact hp

theorem not_garbage_iff (hv : v ∈ h.committed) : ¬ h.Garbage threshold v ↔ threshold.Less v.1.1 ∨
      (h.committed.find? fun w => w.1.1.LessEq threshold) = some v ∧ v.2 ≠ [] := by
  obtain ⟨past, newer, hsplit⟩ := append_of_mem (mem_reverse.mpr hv)
  have hcommitted : h.committed = newer.reverse ++ v :: past.reverse := by
    have := congrArg List.reverse hsplit
    simpa using this
  have hless : threshold.Less v.1.1 ↔ ¬ v.1.1.LessEq threshold := by
    rw [less_iff, lessEq_iff, not_le]
  rw [garbage_iff threshold hsplit, hless]
  constructor
  · intro hnot
    by_cases hle : v.1.1.LessEq threshold
    · refine .inr ⟨?_, fun hdel => hnot ⟨hle, .inl hdel⟩⟩
      rw [find?_eq_some_iff_append]
      refine ⟨by simpa using hle, newer.reverse, past.reverse, hcommitted, ?_⟩
      intro w hw
      have hno : ¬ w.1.1.LessEq threshold := fun hwle =>
        hnot ⟨hle, .inr ⟨w, mem_reverse.mp hw, hwle⟩⟩
      simpa using hno
    · exact .inl hle
  · rintro (hgt | ⟨hfind, hdel⟩) ⟨hle, hwhy⟩
    · exact hgt hle
    · obtain ⟨w, hw, hwle⟩ := hwhy.resolve_left hdel
      -- The newer version would have been found first.
      rw [hcommitted, find?_append] at hfind
      obtain ⟨w', hw'⟩ : ∃ w', newer.reverse.find? (fun w => w.1.1.LessEq threshold) = some w' := by
        rw [← isSome_iff_exists, find?_isSome]
        exact ⟨w, mem_reverse.mpr hw, by simpa using hwle⟩
      rw [hw'] at hfind
      obtain rfl := some.inj hfind
      have hmem := mem_reverse.mp (mem_of_find?_eq_some hw')
      exact absurd ((lt_versionRank_iff hsplit hv).mpr hmem) (lt_irrefl _)

theorem FlagSeparated.garbage_of_lessEq (hsep : h.FlagSeparated threshold) {u : Version}
    (hu : h.Garbage threshold u) (hv : v ∈ h.provisional ∨ v ∈ h.committed)
    (hle : v.1.1.LessEq u.1.1) : h.Garbage threshold v := by
  by_contra hnot
  have hne := hsep u hu v hv hnot
  rw [lessEq_iff] at hle
  rw [eqOrdering_iff] at hne
  have hlt : versionRank v.1 < versionRank u.1 := by
    unfold versionRank engineRank
    have := v.1.1.synthetic.toNat_le
    omega
  rcases hv with hp | hc
  · exact absurd hlt (lt_provisional hp hu.1).not_gt
  · refine hnot ⟨hc, ?_, .inr ⟨u, hu.1, hlt, hu.2.1⟩⟩
    have hut := hu.2.1
    rw [lessEq_iff] at hut ⊢
    exact hle.trans hut

end KeyHistory

/-- A run that asks for garbage only, and for all of it if it succeeds, preserves a key whose flags
are apart. -/
theorem preserves_of_separated {h : KeyHistory} (hsep : h.FlagSeparated threshold)
    (hgarbage : ∀ g ∈ run.asked, g.key = h.key → GarbageKey threshold h g)
    (hall : run.err = none → ∀ u, h.Garbage threshold u →
      ∃ g ∈ run.asked, g.key = h.key ∧ u.1.1.LessEq g.timestamp) : Preserves threshold run h := by
  have hremoved : ∀ g ∈ run.asked, g.key = h.key → ∀ v, v ∈ h.provisional ∨ v ∈ h.committed →
      v.1.1.LessEq g.timestamp → h.Garbage threshold v := by
    intro g hg hkey v hv hle
    obtain ⟨u, hu, rfl⟩ := hgarbage g hg hkey
    exact hsep.garbage_of_lessEq hu hv hle
  have hkept : ∀ v, v ∈ h.provisional ∨ v ∈ h.committed → run.keeps h.key v = false →
      h.Garbage threshold v := by
    intro v hv hkeep
    obtain ⟨g, hg, hkey, hle⟩ := Run.keeps_eq_false.mp hkeep
    exact hremoved g (Run.mem_asked_of_mem_applied hg) hkey v hv hle
  have hprovisional : ∀ p ∈ h.provisional, ¬ h.Garbage threshold p := by
    intro p hp hg
    exact absurd (KeyHistory.lt_provisional hp hg.1) (lt_irrefl _)
  have hfilter : h.provisional.filter (run.keeps h.key) = h.provisional := by
    cases hp : h.provisional with
    | none => rfl
    | some p =>
      rw [filter_some, if_pos]
      by_contra hno
      exact hprovisional p hp (hkept p (.inl hp) (Bool.eq_false_of_not_eq_true hno))
  have hreads : ∀ ts, threshold.LessEq ts →
      valueAt (h.committed.filter (run.keeps h.key)) ts = valueAt h.committed ts := fun ts hts =>
    valueAt_filter h.committed_sorted hts (fun v w => Run.keeps_of_lessEq)
      fun v hv hkeep => (hkept v (.inr hv) hkeep).2.2
  refine ⟨?_, ?_, ?_, ?_⟩
  · intro commitTS _ ts hts
    rw [hfilter]
    cases commitTS with
    | none => exact hreads ts hts
    | some c =>
      cases h.provisional with
      | none => exact hreads ts hts
      | some p =>
        have hread := hreads ts hts
        unfold valueAt resolve at *
        simp only [map_some, toList_some, cons_append, nil_append, find?_cons]
        cases decide (c.1.LessEq ts) with
        | true => rfl
        | false => exact hread
  · exact fun g hg hkey p hp hle => hprovisional p hp (hremoved g hg hkey p (.inl hp) hle)
  · intro g hg hkey v hv hdel hle
    obtain ⟨-, -, hwhy⟩ := hremoved g hg hkey v (.inr (mem_of_mem_head? hv)) hle
    obtain ⟨w, hw, hlt, -⟩ := hwhy.resolve_left hdel
    obtain ⟨rest, hcommitted⟩ : ∃ rest, h.committed = v :: rest := by
      cases hc : h.committed with
      | nil =>
        rw [hc] at hv
        cases hv
      | cons a rest =>
        rw [hc] at hv
        obtain rfl := some.inj hv
        exact ⟨rest, rfl⟩
    have hsorted := h.committed_sorted
    rw [hcommitted] at hsorted hw
    exact absurd hlt (hsorted.rank_le_head w hw).not_gt
  · intro hsucceeds v hv
    rw [← KeyHistory.not_garbage_iff hv]
    constructor
    · intro hkeep hg
      obtain ⟨g, hgasked, hkey, hle⟩ := hall hsucceeds.1 v hg
      rw [Run.keeps_eq_false.mpr ⟨g, hsucceeds.mem_applied hgasked, hkey, hle⟩] at hkeep
      cases hkeep
    · intro hnot
      by_contra hkeep
      exact hnot (hkept v (.inr hv) (Bool.eq_false_of_not_eq_true hkeep))

theorem separated_of_preserves {h : KeyHistory} (hpreserves : Preserves threshold run h)
    (hsucceeds : run.Succeeds) (hall : ∀ u, h.Garbage threshold u →
      ∃ g ∈ run.asked, g.key = h.key ∧ u.1.1.LessEq g.timestamp) : h.FlagSeparated threshold := by
  intro u hu v hv hnot heq
  obtain ⟨g, hg, hkey, hle⟩ := hall u hu
  have hvg : v.1.1.LessEq g.timestamp := by
    rw [lessEq_iff] at hle ⊢
    rw [eqOrdering_iff] at heq
    exact heq.le.trans hle
  rcases hv with hp | hc
  · exact hpreserves.intent g hg hkey v hp hvg
  · have hkeep := (hpreserves.exact hsucceeds v hc).mpr ((KeyHistory.not_garbage_iff hc).mp hnot)
    rw [Run.keeps_eq_false.mpr ⟨g, hsucceeds.mem_applied hg, hkey, hvg⟩] at hkeep
    cases hkeep

theorem RangeKey.key_history (k : RangeKey) : k.history.key = k.key := by
  cases k <;> rfl

theorem KeysAscending.eq_of_key_eq {content : List RangeKey} (h : KeysAscending content)
    {a b : RangeKey} (ha : a ∈ content) (hb : b ∈ content) (hkey : a.key = b.key) : a = b := by
  have hnodup : (content.map RangeKey.key).Nodup := by
    rw [List.Nodup, pairwise_map]
    refine h.imp ?_
    intro a b hlt heq
    rw [heq, bytesCompare_self] at hlt
    cases hlt
  exact inj_on_of_nodup_map hnodup ha hb hkey

def benign : Environment := ⟨fun _ => .ok, fun _ => false, false, none⟩

/-- Garbage collection preserves a range in every environment exactly if no garbage version differs
from a version that is kept only in the flag of its timestamp. -/
theorem collectsGarbageOnly_iff (threshold : Timestamp) (ranges : List (List RangeKey))
    (hsorted : KeysAscending ranges.flatten) : (∀ env, CollectsGarbageOnly env threshold ranges) ↔
      ∀ h, .versioned h ∈ ranges.flatten → h.FlagSeparated threshold := by
  constructor
  · intro hcollects h hh
    obtain ⟨run, hrun, -, hall, hbenign⟩ := processReplicatedKeyRange_eq benign threshold hsorted
    obtain ⟨run', hrun', hpreserves⟩ := hcollects benign
    obtain rfl := some.inj (hrun.symm.trans hrun')
    have hsucceeds := hbenign ⟨fun _ => rfl, fun _ => rfl, rfl, rfl⟩
    exact separated_of_preserves (hpreserves h hh) hsucceeds (hall hsucceeds.1 (.versioned h) hh)
  · intro hsep env
    obtain ⟨run, hrun, hgarbage, hall, -⟩ := processReplicatedKeyRange_eq env threshold hsorted
    refine ⟨run, hrun, ?_⟩
    intro h hh
    refine preserves_of_separated (hsep h hh) ?_ fun herr => hall herr (.versioned h) hh
    -- Only the key itself has its name.
    intro g hg hkey
    obtain ⟨k, hk, hkg⟩ := hgarbage g hg
    have hname : k.key = (RangeKey.versioned h).key := by
      obtain ⟨u, -, rfl⟩ := hkg
      rw [← k.key_history]
      exact hkey
    rwa [hsorted.eq_of_key_eq hk hh hname] at hkg

/-- A version of the sample key at a wall time. -/
def sampleVersion (wallTime : Fin 10) (synthetic : Bool) (value : Bytes) : Version :=
  (⟨⟨wallTime + 1, 0, synthetic, by omega, zero_lt_logical⟩,
    by simp [Timestamp.IsEmpty, Timestamp.empty]⟩, value)

/-- A key with a version above the threshold and two below it. -/
def sampleHistory (newer older : Version)
    (hsorted : RankedList.Descending versionRank [sampleVersion 4 false [3], newer, older]) :
    KeyHistory :=
  ⟨[97], none, [sampleVersion 4 false [3], newer, older], hsorted⟩

/-- The versions differ in their times. -/
def separatedHistory : KeyHistory :=
  sampleHistory (sampleVersion 1 false [2]) (sampleVersion 0 false [1]) (by
    unfold RankedList.Descending
    decide +kernel)

/-- The versions below the threshold differ in their flags only. -/
def conflictingHistory : KeyHistory :=
  sampleHistory (sampleVersion 0 true [2]) (sampleVersion 0 false [1]) (by
    unfold RankedList.Descending
    decide +kernel)

def sampleThreshold : Timestamp := .ofNanos 3

theorem collectsGarbageOnly_separatedHistory :
    KeysAscending [[.versioned separatedHistory]].flatten ∧
      ∀ env, CollectsGarbageOnly env sampleThreshold [[.versioned separatedHistory]] := by
  have hsorted : KeysAscending [[.versioned separatedHistory]].flatten := pairwise_singleton _ _
  refine ⟨hsorted, (collectsGarbageOnly_iff _ _ hsorted).mpr ?_⟩
  intro h hh
  obtain rfl : h = separatedHistory := by simpa using hh
  have hunique : ∀ u ∈ separatedHistory.committed, ∀ v ∈ separatedHistory.committed,
      v.1.1.EqOrdering u.1.1 → v = u := by
    decide +kernel
  intro u hu v hv hnot heq
  rcases hv with hp | hc
  · cases hp
  · rw [hunique u hu.1 v hc heq] at hnot
    exact hnot hu

/-- The run succeeds and removes the value that a read at the threshold finds. -/
theorem not_collectsGarbageOnly_conflictingHistory :
    (∃ run, processReplicatedKeyRange benign sampleThreshold [conflictingHistory.records] =
        some run ∧ run.asked = [⟨[97], (sampleVersion 0 false []).1.1⟩] ∧ run.Succeeds ∧
      valueAt conflictingHistory.committed sampleThreshold = some [2] ∧
      valueAt (conflictingHistory.committed.filter (run.keeps [97])) sampleThreshold = none) ∧
    ¬ ∀ env, CollectsGarbageOnly env sampleThreshold [[.versioned conflictingHistory]] := by
  obtain ⟨⟨requests, err⟩, hrun⟩ := isSome_iff_exists.mp (show (processReplicatedKeyRange
    benign sampleThreshold [conflictingHistory.records]).isSome = true by decide +kernel)
  have hrequests : (processReplicatedKeyRange benign sampleThreshold
      [conflictingHistory.records]).map (fun run => (run.requests, run.err)) =
        some ([([⟨[97], (sampleVersion 0 false []).1.1⟩], .ok)], none) := by
    decide +kernel
  rw [hrun, map_some, some.injEq] at hrequests
  obtain ⟨rfl, rfl⟩ := hrequests
  have hbefore : valueAt conflictingHistory.committed sampleThreshold = some [2] := by
    decide +kernel
  have hafter : valueAt (conflictingHistory.committed.filter
      (Run.keeps ⟨[([⟨[97], (sampleVersion 0 false []).1.1⟩], .ok)], none⟩ [97]))
      sampleThreshold = none := by
    decide +kernel
  refine ⟨⟨_, hrun, rfl, ⟨rfl, by simp⟩, hbefore, hafter⟩, ?_⟩
  intro hcollects
  obtain ⟨run, hrun', hpreserves⟩ := hcollects benign
  obtain rfl := some.inj (hrun.symm.trans hrun')
  have hreads := (hpreserves conflictingHistory (by simp)).reads none (by simp) sampleThreshold
    (by decide)
  exact absurd (hafter.symm.trans (hreads.trans hbefore)) (by simp)

end Cockroach.GC
