import Mathlib

/-! The hybrid logical clocks of the nodes of a cluster and what their messages carry. -/
namespace Cockroach.Hlc

/-- A reading of a clock. The logical part is an `int32`. -/
structure ClockTimestamp where
  wallTime : Int64
  logical : ℤ

def ClockTimestamp.Less (t s : ClockTimestamp) : Prop :=
  t.wallTime < s.wallTime ∨ t.wallTime = s.wallTime ∧ t.logical < s.logical

structure Clock where
  maxOffset : Int64
  timestamp : ClockTimestamp
  wallTimeUpperBound : Int64

namespace Clock

/-- A wall time above the persisted bound, if there is one, ends the process. -/
def enforceWallTimeWithinBound (c : Clock) : Option Clock :=
  if c.wallTimeUpperBound ≠ 0 ∧ c.timestamp.wallTime > c.wallTimeUpperBound then none else some c

/-- The reading is the timestamp of the clock afterwards. -/
def now (physicalClock : Int64) (c : Clock) : Option Clock :=
  enforceWallTimeWithinBound { c with timestamp :=
    if c.timestamp.wallTime ≥ physicalClock then
      { c.timestamp with logical := (c.timestamp.logical + 1).bmod (2 ^ 32) }
    else ⟨physicalClock, 0⟩ }

def update (rt : ClockTimestamp) (c : Clock) : Option Clock :=
  if rt.wallTime < c.timestamp.wallTime then some c
  else enforceWallTimeWithinBound { c with timestamp :=
    if rt.wallTime > c.timestamp.wallTime then rt
    else if rt.logical > c.timestamp.logical then { c.timestamp with logical := rt.logical }
    else c.timestamp }

/-- A remote time that is too far ahead is an error and leaves the clock alone. -/
def updateAndCheckMaxOffset (physicalClock : Int64) (rt : ClockTimestamp) (c : Clock) :
    Except Unit (Option Clock) :=
  if c.maxOffset > 0 ∧ rt.wallTime - physicalClock > c.maxOffset then .error ()
  else .ok (c.update (if physicalClock > rt.wallTime then ⟨physicalClock, 0⟩ else rt))

end Clock

/-- A timestamp with the readings that happened before it. -/
abbrev Stamp := ClockTimestamp × Set ClockTimestamp

/-- The clocks of the nodes with the readings that happened before, and the messages. -/
structure Cluster (ι : Type) where
  clocks : ι → Clock
  past : ι → Set ClockTimestamp
  messages : Set Stamp

variable {ι : Type} [DecidableEq ι]

def Cluster.stamp (s : Cluster ι) (i : ι) : Stamp := ((s.clocks i).timestamp, s.past i)

def Cluster.set (s : Cluster ι) (i : ι) (c : Clock) (past : Set ClockTimestamp) : Cluster ι :=
  { s with clocks := Function.update s.clocks i c, past := Function.update s.past i past }

/-- The runs in which no physical clock is ahead of `latest` and no logical part overflows. -/
inductive Cluster.Reached (latest : Int64) : Cluster ι → Prop
  | start (clocks : ι → Clock) (h : ∀ i, (clocks i).timestamp = ⟨0, 0⟩) :
    Reached latest ⟨clocks, fun _ => ∅, ∅⟩
  | now {s c} (i : ι) (p : Int64) : Reached latest s → p ≤ latest →
    (s.clocks i).timestamp.logical < 2 ^ 31 - 1 → (s.clocks i).now p = some c →
    Reached latest (s.set i c (insert c.timestamp (s.past i)))
  | send {s} (i : ι) : Reached latest s →
    Reached latest { s with messages := insert (s.stamp i) s.messages }
  | receive {s c m} (i : ι) (p : Int64) : Reached latest s → m ∈ s.messages → p ≤ latest →
    (s.clocks i).updateAndCheckMaxOffset p m.1 = .ok (some c) →
    Reached latest (s.set i c (s.past i ∪ m.2))

/-- The stamp is not before its past nor ahead of the physical clocks. -/
structure Stamp.Sound (latest : Int64) (m : Stamp) : Prop where
  logical_nonneg : 0 ≤ m.1.logical
  logical_lt : m.1.logical < 2 ^ 31
  wallTime_nonneg : 0 ≤ m.1.wallTime
  wallTime_le : m.1.wallTime = 0 ∨ m.1.wallTime ≤ latest
  past : ∀ t ∈ m.2, ¬ m.1.Less t

variable {latest p : Int64} {c c' : Clock} {past : Set ClockTimestamp} {m : Stamp}

theorem Clock.eq_of_enforce (h : c.enforceWallTimeWithinBound = some c') : c' = c := by
  unfold enforceWallTimeWithinBound at h
  split_ifs at h
  exact (Option.some.inj h).symm

theorem Clock.now_spec (hp : p ≤ latest) (hc : Stamp.Sound latest (c.timestamp, past))
    (hl : c.timestamp.logical < 2 ^ 31 - 1) (h : c.now p = some c') :
    (∀ t ∈ past, t.Less c'.timestamp) ∧
      Stamp.Sound latest (c'.timestamp, insert c'.timestamp past) := by
  obtain ⟨h0, -, hwall, hle, hpast⟩ := hc
  dsimp only at h0
  have htick : (c.timestamp.logical + 1).bmod (2 ^ 32) = c.timestamp.logical + 1 :=
    Int.bmod_eq_of_le (by omega) (by omega)
  obtain rfl := eq_of_enforce h
  rw [htick]
  refine ⟨?_, ?_, ?_, ?_, ?_, ?_⟩ <;> grind [ClockTimestamp.Less]

theorem Clock.update_spec (hp : p ≤ latest) (hc : Stamp.Sound latest (c.timestamp, past))
    (hm : m.Sound latest) (h : c.updateAndCheckMaxOffset p m.1 = .ok (some c')) :
    Stamp.Sound latest (c'.timestamp, past ∪ m.2) := by
  obtain ⟨h0, h1, hwall, hle, hpast⟩ := hc
  obtain ⟨h0', h1', hwall', hle', hpast'⟩ := hm
  unfold updateAndCheckMaxOffset at h
  split_ifs at h <;> replace h := Except.ok.inj h <;> unfold update at h <;> split_ifs at h <;>
    first
    | obtain rfl := eq_of_enforce h
    | obtain rfl := Option.some.inj h
  all_goals refine ⟨?_, ?_, ?_, ?_, ?_⟩ <;> grind [ClockTimestamp.Less]

open Int64 in
/-- The difference of a clock and a message, neither of them negative, does not wrap. -/
theorem Stamp.Sound.sub_le (hm : m.Sound latest) (hp : 0 ≤ p) {maxOffset : Int64}
    (h : latest.toInt ≤ p.toInt + maxOffset.toInt) (hmax : 0 < maxOffset) :
    m.1.wallTime - p ≤ maxOffset := by
  have hwall := hm.wallTime_nonneg
  have hle := hm.wallTime_le
  have hlt := m.1.wallTime.toInt_lt
  have hlt' := p.toInt_lt
  simp only [le_iff_toInt_le, lt_iff_toInt_lt, ← toInt_inj, toInt_zero] at *
  rw [toInt_sub, Int.bmod_eq_of_le (by omega) (by omega)]
  omega

variable {s : Cluster ι}

theorem Cluster.sound_set (h : ∀ j, (s.stamp j).Sound latest) (i : ι)
    (hc : Stamp.Sound latest (c.timestamp, past)) (j : ι) :
    ((s.set i c past).stamp j).Sound latest := by
  by_cases hj : j = i
  · subst hj
    simpa [stamp, set] using hc
  · simpa [stamp, set, hj] using h j

theorem Cluster.Reached.sound (h : Reached latest s) :
    (∀ i, (s.stamp i).Sound latest) ∧ ∀ m ∈ s.messages, m.Sound latest := by
  induction h with
  | start clocks h =>
    refine ⟨fun i => ?_, by simp⟩
    rw [stamp, h i]
    exact ⟨le_rfl, by norm_num, Int64.le_refl 0, .inl rfl, by simp⟩
  | now i p _ hp hl hc ih =>
    exact ⟨sound_set ih.1 i (Clock.now_spec hp (ih.1 i) hl hc).2, ih.2⟩
  | send i _ ih => exact ⟨ih.1, Set.forall_mem_insert.mpr ⟨ih.1 i, ih.2⟩⟩
  | receive i p _ hm hp hc ih =>
    exact ⟨sound_set ih.1 i (Clock.update_spec hp (ih.1 i) (ih.2 _ hm) hc), ih.2⟩

/-- A reading is after all that happened before it on any node, no clock is ahead of all physical
clocks, and no message is refused while these are within the maximum offset. -/
theorem Cluster.Reached.causal (h : Reached latest s) (i : ι) :
    (∀ p c, p ≤ latest → (s.clocks i).timestamp.logical < 2 ^ 31 - 1 →
      (s.clocks i).now p = some c → ∀ t ∈ s.past i, t.Less c.timestamp) ∧
    ((s.clocks i).timestamp.wallTime = 0 ∨ (s.clocks i).timestamp.wallTime ≤ latest) ∧
    ∀ p : Int64, 0 ≤ p → latest.toInt ≤ p.toInt + (s.clocks i).maxOffset.toInt →
      ∀ m ∈ s.messages, (s.clocks i).updateAndCheckMaxOffset p m.1 ≠ .error () := by
  obtain ⟨hclocks, hmessages⟩ := h.sound
  refine ⟨?_, (hclocks i).wallTime_le, ?_⟩
  · intro p c hp hl hc
    exact (Clock.now_spec hp (hclocks i) hl hc).1
  · intro p hp hlatest m hm
    have hoffset := (hmessages m hm).sub_le hp hlatest
    unfold Clock.updateAndCheckMaxOffset
    grind

/-- A reading that is sent to another node, which reads its clock at the same physical time. -/
theorem Cluster.causal_afterMessage : ∃ s : Cluster Bool, s.Reached 5 ∧ ⟨5, 0⟩ ∈ s.past false ∧
    ∀ t ∈ s.past false, t.Less ⟨5, 1⟩ := by
  have hstart : Reached 5 ⟨fun _ : Bool => ⟨1, ⟨0, 0⟩, 0⟩, fun _ => ∅, ∅⟩ :=
    .start _ fun _ => rfl
  have hsent := (hstart.now true 5 (by decide) (by decide) rfl).send true
  have hreceived := hsent.receive false 4 (Set.mem_insert _ _) (by decide) rfl
  exact ⟨_, hreceived, by simp [set, stamp],
    (hreceived.causal false).1 5 ⟨1, ⟨5, 1⟩, 0⟩ (by decide) (by decide) rfl⟩

end Cockroach.Hlc
