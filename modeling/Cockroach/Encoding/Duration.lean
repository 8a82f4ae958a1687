import Cockroach.Encoding.KeySide
import Cockroach.Util.Duration

/-! Durations on the key side, and where their order differs from that of the durations. -/
namespace Cockroach.Encoding
open ByteOrder Util MachineInt Option

def durationMarker : UInt8 := timeMarker + 2

/-- The three numbers of `Duration.encode`, each by the given variant of the integer encoding. -/
def encodeDuration (varint : Int64 → Bytes) (b : Bytes) (d : Duration) : Option Bytes :=
  d.encode.map fun e => b ++ durationMarker :: (varint e.1 ++ (varint e.2.1 ++ varint e.2.2))

def encodeDurationAscending (b : Bytes) (d : Duration) : Option Bytes :=
  encodeDuration encodeVarintAscending b d

def encodeDurationDescending (b : Bytes) (d : Duration) : Option Bytes :=
  encodeDuration encodeVarintDescending b d

/-- The order of encoded durations, by the nanoseconds that are left of their lengths in 64 bits. -/
def sortOrder (d x : Duration) : Ordering :=
  (compare (d.total.bmod (2 ^ 64)) (x.total.bmod (2 ^ 64))).then
    ((compare d.months.toInt x.months.toInt).then (compare d.days.toInt x.days.toInt))

variable {varint : Int64 → Bytes} {p a : Bytes} {d x : Duration}

theorem encodeDuration_eq_some (h : encodeDuration varint p d = some a) :
    ∃ sortNanos : Int64, sortNanos.toInt = d.total.bmod (2 ^ 64) ∧
      a = p ++ durationMarker :: (varint sortNanos ++ (varint d.months ++ varint d.days)) := by
  obtain ⟨e, he, rfl⟩ := map_eq_some_iff.mp h
  obtain ⟨hnanos, hmonths, hdays⟩ := Duration.encode_eq_some he
  exact ⟨e.1, hnanos, by rw [hmonths, hdays]⟩

theorem sortsAs_encodeDuration {f : Ordering → Ordering}
    (hthen : ∀ o o', f (o.then o') = (f o).then (f o'))
    (hsorts : ∀ u v, SortsAs (f (compare u.toInt v.toInt)) (varint u) (varint v))
    {b : Bytes} (ha : encodeDuration varint p d = some a)
    (hb : encodeDuration varint p x = some b) : SortsAs (f (sortOrder d x)) a b := by
  obtain ⟨nanos, hnanos, rfl⟩ := encodeDuration_eq_some ha
  obtain ⟨nanos', hnanos', rfl⟩ := encodeDuration_eq_some hb
  rw [sortOrder, hthen, hthen, ← hnanos, ← hnanos']
  apply SortsAs.append_left
  apply SortsAs.cons
  exact (hsorts _ _).append ((hsorts _ _).append (hsorts _ _))

theorem sortOrder_eq_lt_iff :
    sortOrder d x = .lt ↔ ¬ d.NotShorter x ((x.wraps - d.wraps) * 2 ^ 64) := by
  simp only [sortOrder, Ordering.then_eq_lt, compare_lt_iff_lt, compare_eq_iff_eq,
    Duration.bmod_total, Duration.NotShorter, ← Int64.toInt_inj]
  omega

/-- Encoded durations are in the order of SQL but for those whose lengths are not. Where 64 bits
are too few for neither length, or as often for one as for the other, these are one month or one day
apart in normal form, and days or nanoseconds of the other sign make the second the shorter one. -/
theorem encodeDuration_order_iff {d x : Duration} {p a b a' b' : Bytes}
    (ha : encodeDurationAscending p d = some a) (hb : encodeDurationAscending p x = some b)
    (ha' : encodeDurationDescending p d = some a') (hb' : encodeDurationDescending p x = some b') :
    ((d.compare x = .lt → bytesCompare a b = .lt ∧ bytesCompare a' b' = .gt) ↔ ¬ d.Misordered x) ∧
      (d.wraps = x.wraps → (d.Misordered x ↔ d.OneUnitApart x ∧ d.NotShorter x 0)) := by
  have hasc := sortsAs_encodeDuration (f := id) (fun _ _ => rfl) sortsAs_encodeVarintAscending ha hb
  have hdesc := sortsAs_encodeDuration (f := Ordering.swap) Ordering.swap_then
    sortsAs_encodeVarintDescending ha' hb'
  obtain ⟨e, he, -⟩ := map_eq_some_iff.mp ha
  obtain ⟨e', he', -⟩ := map_eq_some_iff.mp hb
  have hbytes : bytesCompare a b = .lt ∧ bytesCompare a' b' = .gt ↔ sortOrder d x = .lt := by
    rw [hasc.bytesCompare_eq, hdesc.bytesCompare_eq]
    cases sortOrder d x <;> simp
  refine ⟨?_, Duration.misordered_iff⟩
  rw [hbytes, Duration.compare_eq_lt_iff he he', sortOrder_eq_lt_iff, Duration.Misordered, not_and]

/-- One hour less than thirty days. -/
def almostMonth : Duration := ⟨0, 29, 82800000000000⟩

/-- One month less one day. -/
def monthLessDay : Duration := ⟨1, -1, 0⟩

theorem encodeDuration_order_iff_days : ∃ a b a' b', encodeDurationAscending [] ⟨0, 1, 0⟩ = some a ∧
      encodeDurationAscending [] monthLessDay = some b ∧
      encodeDurationDescending [] ⟨0, 1, 0⟩ = some a' ∧
      encodeDurationDescending [] monthLessDay = some b' ∧
      Duration.wraps ⟨0, 1, 0⟩ = monthLessDay.wraps ∧
      ((Duration.compare ⟨0, 1, 0⟩ monthLessDay = .lt →
          bytesCompare a b = .lt ∧ bytesCompare a' b' = .gt) ↔
        ¬ Duration.Misordered ⟨0, 1, 0⟩ monthLessDay) ∧
      (Duration.Misordered ⟨0, 1, 0⟩ monthLessDay ↔ Duration.OneUnitApart ⟨0, 1, 0⟩ monthLessDay ∧
          Duration.NotShorter ⟨0, 1, 0⟩ monthLessDay 0) := by
  have h := @encodeDuration_order_iff ⟨0, 1, 0⟩ monthLessDay [] _ _ _ _ rfl rfl rfl rfl
  exact ⟨_, _, _, _, rfl, rfl, rfl, rfl, by decide, h.1, h.2 (by decide)⟩

/-- SQL orders them by their months, the index by their lengths. -/
theorem encodeDuration_misorders : almostMonth.compare monthLessDay = .lt ∧
      ∃ a b a' b', encodeDurationAscending [] almostMonth = some a ∧
        encodeDurationAscending [] monthLessDay = some b ∧
        encodeDurationDescending [] almostMonth = some a' ∧
        encodeDurationDescending [] monthLessDay = some b' ∧
        bytesCompare a b = .gt ∧ bytesCompare a' b' = .lt := by
  refine ⟨by decide, _, _, _, _, rfl, rfl, rfl, rfl, ?_, ?_⟩
  · decide
  · decide

end Cockroach.Encoding
