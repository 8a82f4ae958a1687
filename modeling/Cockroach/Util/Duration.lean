import Cockroach.Library.MachineInt
import Mathlib.Tactic.Linarith

/-! Durations of months, days and nanoseconds, and what it takes to bring them to normal form. -/
namespace Cockroach.Util
open MachineInt Option
open Int64 (lt_iff_toInt_lt maxValue minValue toInt_maxValue toInt_minValue)

structure Duration where
  months : Int64
  days : Int64
  nanos : Int64
deriving DecidableEq, Repr

def daysPerMonth : Int64 := 30
def nanosInDay : Int64 := 24 * 3600000000000
def nanosInMonth : Int64 := daysPerMonth * nanosInDay

def int64Min (a b : Int64) : Int64 := if a < b then a else b
def int64Max (a b : Int64) : Int64 := if a > b then a else b

namespace Duration

variable {m : Type → Type} [Monad m]

/-- Move some units of `rate` from the lower field of two to the higher one. -/
def transfer (ops : Ops m) (rate hi lo moved : Int64) : m (Int64 × Int64) := do
  let hi' ← ops.add hi moved
  let back ← ops.mul moved rate
  let lo' ← ops.sub lo back
  pure (hi', lo')

/-- How much a field can take. If it is negative the difference would overflow, but no more than the
greatest integer can be transferred anyway. -/
def roomAbove (ops : Ops m) (hi : Int64) : m Int64 :=
  if hi > 0 then ops.sub maxValue hi else pure maxValue

def roomBelow (ops : Ops m) (hi : Int64) : m Int64 :=
  if hi < 0 then ops.sub minValue hi else pure minValue

/-- Move the whole units of a positive amount. -/
def shiftPos (ops : Ops m) (rate hi lo : Int64) : m (Int64 × Int64) :=
  roomAbove ops hi >>= fun maxHi => transfer ops rate hi lo (int64Min (lo / rate) maxHi)

/-- Move the whole units of a negative amount. -/
def shiftNeg (ops : Ops m) (rate hi lo : Int64) : m (Int64 × Int64) :=
  roomBelow ops hi >>= fun minHi => transfer ops rate hi lo (int64Max (lo / rate) minHi)

def shiftPosDaysToMonths (ops : Ops m) (d : Duration) : m Duration := do
  let p ← shiftPos ops daysPerMonth d.months d.days
  pure { d with months := p.1, days := p.2 }

def shiftPosNanosToDays (ops : Ops m) (d : Duration) : m Duration := do
  let p ← shiftPos ops nanosInDay d.days d.nanos
  pure { d with days := p.1, nanos := p.2 }

def shiftNegDaysToMonths (ops : Ops m) (d : Duration) : m Duration := do
  let p ← shiftNeg ops daysPerMonth d.months d.days
  pure { d with months := p.1, days := p.2 }

def shiftNegNanosToDays (ops : Ops m) (d : Duration) : m Duration := do
  let p ← shiftNeg ops nanosInDay d.days d.nanos
  pure { d with days := p.1, nanos := p.2 }

/-- The first shift of `normalize`, of days into months. -/
def normalizeDays (ops : Ops m) (d : Duration) : m Duration :=
  if d.days > 0 then shiftPosDaysToMonths ops d
  else if d.days < 0 then shiftNegDaysToMonths ops d
  else pure d

/-- The nanoseconds are shifted next, and then the days once more, by the sign of the
nanoseconds. -/
def normalizeNanos (ops : Ops m) (d : Duration) : m Duration :=
  if d.nanos > 0 then shiftPosNanosToDays ops d >>= shiftPosDaysToMonths ops
  else if d.nanos < 0 then shiftNegNanosToDays ops d >>= shiftNegDaysToMonths ops
  else pure d

def normalizeWith (ops : Ops m) (d : Duration) : m Duration :=
  normalizeDays ops d >>= normalizeNanos ops

def normalize (d : Duration) : Duration := normalizeWith wrapping d

def total (d : Duration) : ℤ :=
  d.months.toInt * nanosInMonth.toInt + d.days.toInt * nanosInDay.toInt + d.nanos.toInt

end Duration

@[simp] theorem toInt_daysPerMonth : daysPerMonth.toInt = 30 := by decide
@[simp] theorem toInt_nanosInDay : nanosInDay.toInt = 86400000000000 := by decide
@[simp] theorem toInt_nanosInMonth : nanosInMonth.toInt = 2592000000000000 := by decide

theorem toInt_int64Min (a b : Int64) : (int64Min a b).toInt = min a.toInt b.toInt := by
  unfold int64Min
  split_ifs with h
  · exact (min_eq_left (lt_iff_toInt_lt.mp h).le).symm
  · rw [lt_iff_toInt_lt, not_lt] at h
    exact (min_eq_right h).symm

theorem toInt_int64Max (a b : Int64) : (int64Max a b).toInt = max a.toInt b.toInt := by
  unfold int64Max
  split_ifs with h
  · exact (max_eq_left (lt_iff_toInt_lt.mp h).le).symm
  · rw [gt_iff_lt, lt_iff_toInt_lt, not_lt] at h
    exact (max_eq_right h).symm

namespace Duration

/-- How many units a shift moves for positive amounts. -/
def movedUp (rate hi lo : ℤ) : ℤ :=
  min (lo.tdiv rate) (if hi > 0 then 2 ^ 63 - 1 - hi else 2 ^ 63 - 1)

/-- How many units a shift moves for negative amounts. -/
def movedDown (rate hi lo : ℤ) : ℤ := max (lo.tdiv rate) (if hi < 0 then -2 ^ 63 - hi else -2 ^ 63)

theorem mul_between {rate lo k : ℤ} (hrate : 0 < rate)
    (hk : 0 ≤ k ∧ k ≤ lo.tdiv rate ∨ lo.tdiv rate ≤ k ∧ k ≤ 0) :
    0 ≤ lo ∧ 0 ≤ k * rate ∧ k * rate ≤ lo ∨ lo ≤ 0 ∧ lo ≤ k * rate ∧ k * rate ≤ 0 := by
  obtain ⟨r, hr, -, -, hpos, hneg⟩ := tdiv_spec lo hrate
  have hquot : rate * lo.tdiv rate = lo.tdiv rate * rate := mul_comm _ _
  rcases le_total 0 lo with hlo | hlo
  · left
    have hq : 0 ≤ lo.tdiv rate := Int.tdiv_nonneg hlo hrate.le
    have hk0 : 0 ≤ k ∧ k ≤ lo.tdiv rate := by omega
    have hle : k * rate ≤ lo.tdiv rate * rate := mul_le_mul_of_nonneg_right hk0.2 hrate.le
    exact ⟨hlo, mul_nonneg hk0.1 hrate.le, by omega⟩
  · right
    have hq : 0 ≤ -lo.tdiv rate := by
      rw [← Int.neg_tdiv]
      exact Int.tdiv_nonneg (neg_nonneg.mpr hlo) hrate.le
    have hk0 : lo.tdiv rate ≤ k ∧ k ≤ 0 := by omega
    have hle : lo.tdiv rate * rate ≤ k * rate := mul_le_mul_of_nonneg_right hk0.1 hrate.le
    exact ⟨hlo, by omega, mul_nonpos_of_nonpos_of_nonneg hk0.2 hrate.le⟩

variable {rate lo hi : Int64}

theorem transfer_checked {k : Int64} (hrate : 0 < rate.toInt)
    (hk : 0 ≤ k.toInt ∧ k.toInt ≤ lo.toInt.tdiv rate.toInt ∨
      lo.toInt.tdiv rate.toInt ≤ k.toInt ∧ k.toInt ≤ 0) (hlow : -2 ^ 63 ≤ hi.toInt + k.toInt)
    (hhigh : hi.toInt + k.toInt < 2 ^ 63) : ∃ p, transfer checked rate hi lo k = some p ∧
      p.1.toInt = hi.toInt + k.toInt ∧ p.2.toInt = lo.toInt - k.toInt * rate.toInt := by
  have hlo := lo.le_toInt
  have hlo' := lo.toInt_lt
  have hbetween := mul_between hrate hk
  obtain ⟨hi', hadd, hhi'⟩ := exists_fit hlow hhigh
  obtain ⟨back, hmul, hback⟩ := exists_fit (x := k.toInt * rate.toInt) (by omega) (by omega)
  obtain ⟨lo', hsub, hlo'⟩ := exists_fit (x := lo.toInt - back.toInt) (by omega) (by omega)
  refine ⟨(hi', lo'), ?_, hhi', by rw [hlo', hback]⟩
  simp only [transfer, checked, hadd, hmul, hsub, bind_eq_bind, bind_some, pure_def]

theorem roomAbove_checked (hi : Int64) : ∃ maxHi, roomAbove checked hi = some maxHi ∧
      maxHi.toInt = if hi.toInt > 0 then 2 ^ 63 - 1 - hi.toInt else 2 ^ 63 - 1 := by
  have hhi := hi.toInt_lt
  have hzero : hi > 0 ↔ hi.toInt > 0 := lt_iff_toInt_lt
  unfold roomAbove
  by_cases hpos : hi.toInt > 0
  · rw [if_pos (hzero.mpr hpos), if_pos hpos]
    exact exists_fit (by rw [toInt_maxValue]; omega) (by rw [toInt_maxValue]; omega)
  · rw [if_neg (mt hzero.mp hpos), if_neg hpos]
    exact ⟨maxValue, rfl, toInt_maxValue⟩

theorem roomBelow_checked (hi : Int64) : ∃ minHi, roomBelow checked hi = some minHi ∧
      minHi.toInt = if hi.toInt < 0 then -2 ^ 63 - hi.toInt else -2 ^ 63 := by
  have hhi := hi.le_toInt
  have hzero : hi < 0 ↔ hi.toInt < 0 := lt_iff_toInt_lt
  unfold roomBelow
  by_cases hneg : hi.toInt < 0
  · rw [if_pos (hzero.mpr hneg), if_pos hneg]
    exact exists_fit (by rw [toInt_minValue]; omega) (by rw [toInt_minValue]; omega)
  · rw [if_neg (mt hzero.mp hneg), if_neg hneg]
    exact ⟨minValue, rfl, toInt_minValue⟩

/-- The checked shift of an amount of the given sign. -/
def shift (up : Bool) (rate hi lo : Int64) : Option (Int64 × Int64) :=
  if up then shiftPos checked rate hi lo else shiftNeg checked rate hi lo

def moved (up : Bool) (rate hi lo : ℤ) : ℤ :=
  if up then movedUp rate hi lo else movedDown rate hi lo

def Signed (up : Bool) (x : ℤ) : Prop := if up then 0 < x else x < 0

/-- The number is not out of range on the side from which the shift leads away. -/
def Within (up : Bool) (x : ℤ) : Prop := if up then -2 ^ 63 ≤ x else x < 2 ^ 63

variable {up : Bool} {d : Duration}

section Signs

attribute [local simp] moved movedUp movedDown Signed Within

theorem exists_signed {x : ℤ} (h : x ≠ 0) : ∃ up, Signed up x := by
  rcases lt_or_gt_of_ne h with h | h
  · exact ⟨false, by simpa using h⟩
  · exact ⟨true, by simpa using h⟩

theorem shift_eq_transfer (up : Bool) (hi lo : Int64) (hrate : 0 < rate.toInt) :
    ∃ k, shift up rate hi lo = transfer checked rate hi lo k ∧
      k.toInt = moved up rate.toInt hi.toInt lo.toInt := by
  cases up with
  | true =>
    obtain ⟨maxHi, hroom, hmaxHi⟩ := roomAbove_checked hi
    refine ⟨int64Min (lo / rate) maxHi, ?_, ?_⟩
    · rw [shift, if_pos rfl, shiftPos, hroom]
      rfl
    · rw [toInt_int64Min, toInt_div hrate, hmaxHi]
      rfl
  | false =>
    obtain ⟨minHi, hroom, hminHi⟩ := roomBelow_checked hi
    refine ⟨int64Max (lo / rate) minHi, ?_, ?_⟩
    · rw [shift, if_neg Bool.false_ne_true, shiftNeg, hroom]
      rfl
    · rw [toInt_int64Max, toInt_div hrate, hminHi]
      rfl

theorem shift_checked (hrate : 0 < rate.toInt)
    (h : Within up (hi.toInt + lo.toInt.tdiv rate.toInt)) : ∃ p, shift up rate hi lo = some p ∧
      p.1.toInt = hi.toInt + moved up rate.toInt hi.toInt lo.toInt ∧
      p.2.toInt = lo.toInt - moved up rate.toInt hi.toInt lo.toInt * rate.toInt := by
  have hhi := hi.le_toInt
  have hhi' := hi.toInt_lt
  obtain ⟨k, hshift, hk⟩ := shift_eq_transfer up hi lo hrate
  rw [hshift, ← hk]
  cases up <;> simp at h hk <;> apply transfer_checked hrate <;> split_ifs at hk <;> omega

theorem transfer_fails {k : Int64}
    (h : hi.toInt + k.toInt < -2 ^ 63 ∨ 2 ^ 63 ≤ hi.toInt + k.toInt) :
    transfer checked rate hi lo k = none := by
  have hadd : checked.add hi k = none := fit_eq_none h
  rw [transfer, hadd]
  rfl

theorem shift_fails (hrate : 0 < rate.toInt)
    (h : ¬ Within up (hi.toInt + lo.toInt.tdiv rate.toInt)) : shift up rate hi lo = none := by
  obtain ⟨k, hshift, hk⟩ := shift_eq_transfer up hi lo hrate
  refine hshift.trans (transfer_fails ?_)
  cases up <;> simp at h hk <;> split_ifs at hk <;> omega

/-- The days are less than a month unless the months are at an end of their range. -/
def DaysSettled (d : Duration) : Prop :=
  -30 < d.days.toInt ∧ d.days.toInt < 30 ∨
    d.months.toInt = 2 ^ 63 - 1 ∧ 0 < d.days.toInt ∨ d.months.toInt = -2 ^ 63 ∧ d.days.toInt < 0

theorem normalizeDays_of_signed (hs : Signed up d.days.toInt) :
    normalizeDays checked d = (shift up daysPerMonth d.months d.days).map
      fun p => { d with months := p.1, days := p.2 } := by
  rw [normalizeDays, map_eq_bind]
  cases up with
  | true =>
    have hpos : 0 < d.days := lt_iff_toInt_lt.mpr hs
    exact if_pos hpos
  | false =>
    have hneg : d.days < 0 := lt_iff_toInt_lt.mpr hs
    exact (if_neg (Int64.lt_asymm hneg)).trans (if_pos hneg)

theorem normalizeDays_checked (d : Duration) :
    ∃ d', normalizeDays checked d = some d' ∧ d'.nanos = d.nanos ∧
      30 * d'.months.toInt + d'.days.toInt = 30 * d.months.toInt + d.days.toInt ∧
      DaysSettled d' ∧ (-2 ^ 63 ≤ d.months.toInt + d.days.toInt.tdiv 30 →
        d.months.toInt + d.days.toInt.tdiv 30 < 2 ^ 63 →
          d'.months.toInt = d.months.toInt + d.days.toInt.tdiv 30) := by
  have hm := d.months.le_toInt
  have hm' := d.months.toInt_lt
  have hd := d.days.le_toInt
  have hd' := d.days.toInt_lt
  obtain ⟨r, hr, hlow, hhigh, -, -⟩ := tdiv_spec d.days.toInt (c := 30) (by norm_num)
  by_cases hzero : d.days.toInt = 0
  · have hdays : d.days = 0 := Int64.toInt_inj.mp hzero
    refine ⟨d, by rw [normalizeDays, hdays]; rfl, rfl, rfl, ?_, by omega⟩
    unfold DaysSettled
    omega
  · obtain ⟨up, hs⟩ := exists_signed hzero
    have hquot : Within up (d.months.toInt + d.days.toInt.tdiv daysPerMonth.toInt) := by
      cases up <;> simp at hs ⊢ <;> omega
    obtain ⟨p, hp, hp1, hp2⟩ := shift_checked (by simp) hquot
    rw [toInt_daysPerMonth] at hp1 hp2
    refine ⟨{ d with months := p.1, days := p.2 }, ?_, rfl, ?_, ?_⟩
    · rw [normalizeDays_of_signed hs, hp, map_some]
    · dsimp only
      omega
    · unfold DaysSettled
      dsimp only
      cases up <;> simp at hs hp1 hp2 <;> split_ifs at hp1 hp2 <;> omega

/-- Where the nanoseconds are of the other sign, the whole days they make up lead back to the range
of the months, but for less than one month. -/
def ShiftsInRange (d : Duration) : Prop :=
  (0 < d.nanos.toInt → 30 * -2 ^ 63 - 30 <
    30 * d.months.toInt + d.days.toInt + d.nanos.toInt.tdiv nanosInDay.toInt) ∧
  (d.nanos.toInt < 0 →
    30 * d.months.toInt + d.days.toInt + d.nanos.toInt.tdiv nanosInDay.toInt <
      30 * (2 ^ 63 - 1) + 30)

/-- Days and nanoseconds are less than the next unit unless the months are at an end of their
range. -/
def Normal (d : Duration) : Prop :=
  d.months.toInt = 2 ^ 63 - 1 ∨ d.months.toInt = -2 ^ 63 ∨
    -30 < d.days.toInt ∧ d.days.toInt < 30 ∧
      -nanosInDay.toInt < d.nanos.toInt ∧ d.nanos.toInt < nanosInDay.toInt

theorem normalizeNanos_of_signed (hs : Signed up d.nanos.toInt) : ∃ p : Int64 × Int64,
      normalizeNanos checked d = (shift up daysPerMonth d.months p.1).map
        (fun q => ⟨q.1, q.2, p.2⟩) ∧
      p.1.toInt = d.days.toInt + moved up 86400000000000 d.days.toInt d.nanos.toInt ∧
      p.2.toInt = d.nanos.toInt -
        moved up 86400000000000 d.days.toInt d.nanos.toInt * 86400000000000 := by
  have hdays := d.days.le_toInt
  have hdays' := d.days.toInt_lt
  obtain ⟨r, hr, hlow, hhigh, -, -⟩ := tdiv_spec d.nanos.toInt (c := 86400000000000)
    (by norm_num)
  have hfirst : Within up (d.days.toInt + d.nanos.toInt.tdiv nanosInDay.toInt) := by
    cases up <;> simp at hs ⊢ <;> omega
  obtain ⟨p, hp, hp1, hp2⟩ := shift_checked (by simp) hfirst
  refine ⟨p, ?_, hp1, hp2⟩
  rw [normalizeNanos, map_eq_bind]
  cases up with
  | true =>
    change shiftPos checked nanosInDay d.days d.nanos = _ at hp
    have hpos : 0 < d.nanos := lt_iff_toInt_lt.mpr hs
    rw [if_pos hpos, shiftPosNanosToDays, hp]
    rfl
  | false =>
    change shiftNeg checked nanosInDay d.days d.nanos = _ at hp
    have hneg : d.nanos < 0 := lt_iff_toInt_lt.mpr hs
    rw [if_neg (Int64.lt_asymm hneg), if_pos hneg, shiftNegNanosToDays, hp]
    rfl

theorem normalizeNanos_checked (hd : DaysSettled d) (h : d.ShiftsInRange) :
    ∃ d', normalizeNanos checked d = some d' ∧ d'.total = d.total ∧ Normal d' ∧
      (d'.months.toInt = 2 ^ 63 - 1 ∨ d'.months.toInt = -2 ^ 63 ∨ d'.months.toInt = d.months.toInt +
          (d.days.toInt + d.nanos.toInt.tdiv nanosInDay.toInt).tdiv 30 ∧
        d'.nanos.toInt = d.nanos.toInt.tmod nanosInDay.toInt) := by
  have hm := d.months.le_toInt
  have hm' := d.months.toInt_lt
  have hnanos := d.nanos.le_toInt
  have hnanos' := d.nanos.toInt_lt
  rw [Int.tmod_def, toInt_nanosInDay]
  obtain ⟨r, hr, hlow, hhigh, hpos, hneg⟩ := tdiv_spec d.nanos.toInt (c := 86400000000000)
    (by norm_num)
  simp only [ShiftsInRange, toInt_nanosInDay] at h
  unfold DaysSettled at hd
  by_cases hzero : d.nanos.toInt = 0
  · have hnone : d.nanos = 0 := Int64.toInt_inj.mp hzero
    obtain ⟨r₁, hr₁, hlow₁, hhigh₁, hpos₁, hneg₁⟩ := tdiv_spec
      (d.days.toInt + d.nanos.toInt.tdiv 86400000000000) (c := 30) (by norm_num)
    refine ⟨d, by rw [normalizeNanos, hnone]; rfl, rfl, ?_⟩
    simp only [Normal, toInt_nanosInDay]
    omega
  obtain ⟨up, hs⟩ := exists_signed hzero
  obtain ⟨p, hp, hp1, hp2⟩ := normalizeNanos_of_signed hs
  obtain ⟨r', hr', hlow', hhigh', hpos', hneg'⟩ := tdiv_spec p.1.toInt (c := 30) (by norm_num)
  have hsecond : Within up (d.months.toInt + p.1.toInt.tdiv daysPerMonth.toInt) := by
    cases up <;> simp at hs hp1 ⊢ <;> split_ifs at hp1 <;> omega
  obtain ⟨q, hq, hq1, hq2⟩ := shift_checked (by simp) hsecond
  rw [toInt_daysPerMonth] at hq1 hq2
  -- Not all whole days fit only if the months are at an end already.
  have hwhole : q.1.toInt = 2 ^ 63 - 1 ∨ q.1.toInt = -2 ^ 63 ∨
      p.1.toInt = d.days.toInt + d.nanos.toInt.tdiv 86400000000000 := by
    cases up <;> simp at hs hp1 hq1 <;> split_ifs at hp1 hq1 <;> omega
  refine ⟨⟨q.1, q.2, p.2⟩, by rw [hp, hq, map_some], ?_, ?_, ?_⟩
  · simp only [total, toInt_nanosInMonth, toInt_nanosInDay]
    omega
  · simp only [Normal, toInt_nanosInDay]
    cases up <;> simp at hs hp1 hp2 hq1 hq2 <;> split_ifs at hp1 hp2 hq1 hq2 <;> omega
  · rcases hwhole with hend | hend | hwhole
    · exact .inl hend
    · exact .inr (.inl hend)
    · rw [← hwhole]
      dsimp only
      cases up <;> simp at hs hp1 hp2 hq1 hq2 <;> split_ifs at hq1 hq2 <;> omega

theorem normalizeNanos_fails (hs : Signed up d.nanos.toInt) (h : ¬ d.ShiftsInRange) :
    normalizeNanos checked d = none := by
  obtain ⟨p, hp, hp1, -⟩ := normalizeNanos_of_signed hs
  obtain ⟨r', hr', hlow', hhigh', -, -⟩ := tdiv_spec p.1.toInt (c := 30) (by norm_num)
  simp only [ShiftsInRange, toInt_nanosInDay] at h
  have hsecond : ¬ Within up (d.months.toInt + p.1.toInt.tdiv daysPerMonth.toInt) := by
    cases up <;> simp at hs hp1 ⊢ <;> split_ifs at hp1 <;> omega
  rw [hp, shift_fails (by simp) hsecond, map_none]

end Signs

theorem agrees_transfer (rate hi lo k : Int64) :
    Agrees (transfer checked rate hi lo k) (transfer wrapping rate hi lo k) := by
  refine (agrees_add hi k).bind fun hi' => (agrees_mul k rate).bind fun back => ?_
  exact (agrees_sub lo back).bind fun lo' => .pure _

theorem agrees_shiftPos (rate hi lo : Int64) :
    Agrees (shiftPos checked rate hi lo) (shiftPos wrapping rate hi lo) := by
  refine .bind ?_ fun maxHi => agrees_transfer rate hi lo _
  exact (agrees_sub _ hi).ite (.pure _)

theorem agrees_shiftNeg (rate hi lo : Int64) :
    Agrees (shiftNeg checked rate hi lo) (shiftNeg wrapping rate hi lo) := by
  refine .bind ?_ fun minHi => agrees_transfer rate hi lo _
  exact (agrees_sub _ hi).ite (.pure _)

theorem agrees_normalizeWith (d : Duration) :
    Agrees (normalizeWith checked d) (normalizeWith wrapping d) := by
  have hposDays (d : Duration) :
      Agrees (shiftPosDaysToMonths checked d) (shiftPosDaysToMonths wrapping d) :=
    (agrees_shiftPos _ _ _).bind fun p => .pure _
  have hnegDays (d : Duration) :
      Agrees (shiftNegDaysToMonths checked d) (shiftNegDaysToMonths wrapping d) :=
    (agrees_shiftNeg _ _ _).bind fun p => .pure _
  have hposNanos (d : Duration) :
      Agrees (shiftPosNanosToDays checked d) (shiftPosNanosToDays wrapping d) :=
    (agrees_shiftPos _ _ _).bind fun p => .pure _
  have hnegNanos (d : Duration) :
      Agrees (shiftNegNanosToDays checked d) (shiftNegNanosToDays wrapping d) :=
    (agrees_shiftNeg _ _ _).bind fun p => .pure _
  refine .bind ?_ fun d' => ?_
  · exact (hposDays d).ite ((hnegDays d).ite (.pure d))
  · exact ((hposNanos d').bind hposDays).ite
      (((hnegNanos d').bind hnegDays).ite (.pure d'))

/-- The days that make up no month, with those that the nanoseconds make up. -/
def carriedDays (d : Duration) : ℤ :=
  d.days.toInt.tmod 30 + d.nanos.toInt.tdiv nanosInDay.toInt

def settledMonths (d : Duration) : ℤ :=
  d.months.toInt + d.days.toInt.tdiv 30 + d.carriedDays.tdiv 30

def settledDays (d : Duration) : ℤ := d.carriedDays.tmod 30

def settledNanos (d : Duration) : ℤ := d.nanos.toInt.tmod nanosInDay.toInt

/-- The checked run of `normalize`, from which the wrapping one does not differ. Away from the ends
of the range each shift moves all whole units. -/
theorem normalizeWith_checked (h : d.ShiftsInRange) :
    ∃ d', normalizeWith checked d = some d' ∧ d'.total = d.total ∧ Normal d' ∧
      (-2 ^ 63 ≤ d.months.toInt + d.days.toInt.tdiv 30 →
        d.months.toInt + d.days.toInt.tdiv 30 < 2 ^ 63 →
          d'.months.toInt = 2 ^ 63 - 1 ∨ d'.months.toInt = -2 ^ 63 ∨
            d'.months.toInt = d.settledMonths ∧ d'.nanos.toInt = d.settledNanos) := by
  obtain ⟨d₁, hdays, hnanos, hsum, hsettled, hmonths⟩ := normalizeDays_checked d
  rw [ShiftsInRange, ← hnanos, ← hsum] at h
  obtain ⟨d', hrun, htotal, hnormal, hfields⟩ := normalizeNanos_checked hsettled h
  refine ⟨d', by rw [normalizeWith, hdays]; exact hrun, ?_, hnormal, fun hlow hhigh => ?_⟩
  · rw [htotal]
    simp only [total, toInt_nanosInMonth, toInt_nanosInDay, hnanos]
    omega
  · have hm := hmonths hlow hhigh
    have hrem : d₁.days.toInt = d.days.toInt.tmod 30 := by
      rw [Int.tmod_def]
      omega
    rwa [hm, hrem, hnanos] at hfields

theorem normalizeWith_fails (h : ¬ d.ShiftsInRange) : normalizeWith checked d = none := by
  obtain ⟨d₁, hdays, hnanos, hsum, -, -⟩ := normalizeDays_checked d
  have hrun : normalizeWith checked d = normalizeNanos checked d₁ := by
    rw [normalizeWith, hdays]
    rfl
  rw [hrun]
  rw [ShiftsInRange, ← hnanos, ← hsum] at h
  obtain ⟨up, hs⟩ : ∃ up, Signed up d₁.nanos.toInt := exists_signed fun hn => h (by omega)
  exact normalizeNanos_fails hs h

/-- No operation of `normalize` wraps, the length is preserved and the result is normal, exactly if
the nanoseconds do not leave days that the months have no room for. -/
theorem normalize_exact_iff (d : Duration) :
    (∃ d', normalizeWith checked d = some d' ∧ d.normalize = d' ∧ d'.total = d.total ∧ Normal d') ↔
      d.ShiftsInRange := by
  constructor
  · rintro ⟨d', hrun, -⟩
    by_contra h
    rw [normalizeWith_fails h] at hrun
    cases hrun
  · intro h
    obtain ⟨d', hrun, htotal, hnormal, -⟩ := normalizeWith_checked h
    exact ⟨d', hrun, agrees_normalizeWith d d' hrun, htotal, hnormal⟩

/-- Sixty days below the least number of months, and one nanosecond above. -/
theorem normalize_wraps : normalizeWith checked ⟨minValue, -60, 1⟩ = none ∧
      normalize ⟨minValue, -60, 1⟩ = ⟨maxValue - 1, 0, 1⟩ := by
  decide

/-- The greatest and the least number of months whose nanoseconds are in range. -/
def maxYearsInDuration : Int64 := maxValue / nanosInMonth
def minYearsInDuration : Int64 := minValue / nanosInMonth

def encode (d : Duration) : Option (Int64 × Int64 × Int64) :=
  let years := d.months / 12 + d.days / daysPerMonth / 12 + d.nanos / nanosInMonth / 12
  if years > maxYearsInDuration ∨ years < minYearsInDuration then none
  else some (d.months * nanosInMonth + d.days * nanosInDay + d.nanos, d.months, d.days)

def encodeBigInt (d : Duration) : ℤ × Int64 × Int64 :=
  (d.nanos.toInt + d.months.toInt * nanosInMonth.toInt + d.days.toInt * nanosInDay.toInt,
    d.months, d.days)

variable {e : Int64 × Int64 × Int64} {x : Duration}

theorem encode_eq_some (h : d.encode = some e) :
    e.1.toInt = d.total.bmod (2 ^ 64) ∧ e.2.1 = d.months ∧ e.2.2 = d.days := by
  unfold encode at h
  dsimp only at h
  split_ifs at h
  obtain rfl := some.inj h
  refine ⟨?_, rfl, rfl⟩
  have hsum : (d.months * nanosInMonth + d.days * nanosInDay).toInt =
      (d.months.toInt * nanosInMonth.toInt + d.days.toInt * nanosInDay.toInt).bmod (2 ^ 64) := by
    rw [Int64.toInt_add, Int64.toInt_mul, Int64.toInt_mul, Int.bmod_add_bmod, Int.add_bmod_bmod]
  rw [Int64.toInt_add, hsum, Int.bmod_add_bmod]
  rfl

theorem encodeBigInt_eq (d : Duration) : d.encodeBigInt.1 = d.total := by
  unfold encodeBigInt total
  omega

/-- The nanoseconds that `encode` sorts by are exact for the lengths of 64 bits only, and the others
are not refused. -/
theorem encode_exact_iff {d : Duration} {e : Int64 × Int64 × Int64} (h : d.encode = some e) :
    e.1.toInt = d.encodeBigInt.1 ↔ -2 ^ 63 ≤ d.total ∧ d.total < 2 ^ 63 := by
  rw [(encode_eq_some h).1, encodeBigInt_eq]
  exact bmod_eq_self_iff

theorem encode_exact_iff_month : encode ⟨1, 0, 0⟩ = some (nanosInMonth, 1, 0) ∧
      (nanosInMonth.toInt = (encodeBigInt ⟨1, 0, 0⟩).1 ↔
        -2 ^ 63 ≤ total ⟨1, 0, 0⟩ ∧ total ⟨1, 0, 0⟩ < 2 ^ 63) := by
  have h : encode ⟨1, 0, 0⟩ = some (nanosInMonth, 1, 0) := by decide
  exact ⟨h, encode_exact_iff h⟩

/-- Four thousand months, or 333 years, are encoded as a negative number of nanoseconds. -/
theorem encode_wraps : encode ⟨4000, 0, 0⟩ = some (-8078744073709551616, 4000, 0) ∧
      (encodeBigInt ⟨4000, 0, 0⟩).1 = 10368000000000000000 := by
  decide

/-- The order of SQL: by months, days and nanoseconds in normal form. -/
def compare (d x : Duration) : Ordering :=
  let normD := d.normalize
  let normX := x.normalize
  if normD.months < normX.months then .lt
  else if normD.months > normX.months then .gt
  else if normD.days < normX.days then .lt
  else if normD.days > normX.days then .gt
  else if normD.nanos < normX.nanos then .lt
  else if normD.nanos > normX.nanos then .gt
  else .eq

/-- What the check of `encode` bounds is the sum of months and days, not the fields. -/
theorem days_of_encode (h : d.encode = some e) :
    -2 ^ 30 < 30 * d.months.toInt + d.days.toInt ∧ 30 * d.months.toInt + d.days.toInt < 2 ^ 30 := by
  have htwelve (x : Int64) :
      ∃ r, x.toInt = 12 * (x / 12).toInt + r ∧ -12 < r ∧ r < 12 := by
    rw [toInt_div (by decide)]
    obtain ⟨r, hr, hlow, hhigh, -⟩ := tdiv_spec x.toInt (c := 12) (by norm_num)
    exact ⟨r, hr, hlow, hhigh⟩
  obtain ⟨r₁, hr₁, hlow₁, hhigh₁⟩ := htwelve d.months
  obtain ⟨r₂, hr₂, hlow₂, hhigh₂⟩ := htwelve (d.days / daysPerMonth)
  obtain ⟨r₃, hr₃, hlow₃, hhigh₃⟩ := htwelve (d.nanos / nanosInMonth)
  obtain ⟨r₄, hr₄, hlow, hhigh, -⟩ := tdiv_spec d.days.toInt (c := 30) (by norm_num)
  obtain ⟨r₅, hr₅, hlow', hhigh', -⟩ :=
    tdiv_spec d.nanos.toInt (c := 2592000000000000) (by norm_num)
  rw [toInt_div (by decide), toInt_daysPerMonth] at hr₂
  rw [toInt_div (by decide), toInt_nanosInMonth] at hr₃
  have hm := d.months.le_toInt
  have hm' := d.months.toInt_lt
  have hd := d.days.le_toInt
  have hd' := d.days.toInt_lt
  have hn := d.nanos.le_toInt
  have hn' := d.nanos.toInt_lt
  have hmax : maxYearsInDuration.toInt = 3558 := by decide
  have hmin : minYearsInDuration.toInt = -3558 := by decide
  unfold encode at h
  dsimp only at h
  split_ifs at h with hyears
  rw [gt_iff_lt, lt_iff_toInt_lt, lt_iff_toInt_lt, hmax, hmin, Int64.toInt_add, Int64.toInt_add,
    Int.bmod_add_bmod, bmod_of_mem] at hyears <;> omega

theorem total_eq_settled (d : Duration) :
    d.total = d.settledMonths * 2592000000000000 + d.settledDays * 86400000000000 +
      d.settledNanos := by
  simp only [total, settledMonths, settledDays, settledNanos, carriedDays, Int.tmod_def,
    toInt_nanosInMonth, toInt_nanosInDay]
  omega

theorem normalize_of_encode (h : d.encode = some e) :
    d.normalize.months.toInt = d.settledMonths ∧ d.normalize.days.toInt = d.settledDays ∧
      d.normalize.nanos.toInt = d.settledNanos := by
  obtain ⟨hlow, hhigh⟩ := days_of_encode h
  have hn := d.nanos.le_toInt
  have hn' := d.nanos.toInt_lt
  obtain ⟨r, hr, hr', hr'', -⟩ := tdiv_spec d.days.toInt (c := 30) (by norm_num)
  obtain ⟨r₁, hr₁, hlow₁, hhigh₁, -⟩ := tdiv_spec d.nanos.toInt (c := 86400000000000) (by norm_num)
  have hrange : d.ShiftsInRange := by
    simp only [ShiftsInRange, toInt_nanosInDay]
    omega
  obtain ⟨d', hrun, htotal, -, hfields⟩ := normalizeWith_checked hrange
  have hdays := d'.days.le_toInt
  have hdays' := d'.days.toInt_lt
  have hnanos := d'.nanos.le_toInt
  have hnanos' := d'.nanos.toInt_lt
  have hsum := total_eq_settled d
  rw [← htotal] at hsum
  simp only [total, toInt_nanosInMonth, toInt_nanosInDay] at htotal hsum
  rw [normalize, agrees_normalizeWith d d' hrun]
  omega

/-- The order of the fields in normal form. -/
def Precedes (d x : Duration) : Prop :=
  d.settledMonths < x.settledMonths ∨ d.settledMonths = x.settledMonths ∧
    (d.settledDays < x.settledDays ∨
      d.settledDays = x.settledDays ∧ d.settledNanos < x.settledNanos)

theorem compare_eq_lt_iff {e' : Int64 × Int64 × Int64} (hd : d.encode = some e)
    (hx : x.encode = some e') : d.compare x = .lt ↔ d.Precedes x := by
  obtain ⟨hm, hdays, hn⟩ := normalize_of_encode hd
  obtain ⟨hm', hdays', hn'⟩ := normalize_of_encode hx
  simp only [compare, gt_iff_lt, lt_iff_toInt_lt, hm, hdays, hn, hm', hdays', hn', Precedes]
  split_ifs <;> simp <;> omega

/-- How often 64 bits are too few for the length, with its sign. -/
def wraps (d : Duration) : ℤ := (d.total + 2 ^ 63) / 2 ^ 64

theorem bmod_total (d : Duration) : d.total.bmod (2 ^ 64) = d.total - d.wraps * 2 ^ 64 := by
  rw [Int.bmod_def, wraps]
  split_ifs <;> omega

/-- The second is longer by less than the gap, or by the gap and not above by months and days. -/
def NotShorter (d x : Duration) (gap : ℤ) : Prop :=
  x.total - d.total < gap ∨ x.total - d.total = gap ∧
    (x.months.toInt < d.months.toInt ∨ x.months = d.months ∧ x.days.toInt ≤ d.days.toInt)

/-- The first comes before the second by the fields in normal form, but not by the lengths without
what 64 bits do not hold of them. -/
def Misordered (d x : Duration) : Prop :=
  d.Precedes x ∧ d.NotShorter x ((x.wraps - d.wraps) * 2 ^ 64)

/-- The months in normal form are one more, or the same with one more day. -/
def OneUnitApart (d x : Duration) : Prop :=
  x.settledMonths = d.settledMonths + 1 ∨
    x.settledMonths = d.settledMonths ∧ x.settledDays = d.settledDays + 1

/-- Less than two units of days or nanoseconds are left to make up for a greater field. -/
theorem misordered_iff (h : d.wraps = x.wraps) :
    d.Misordered x ↔ d.OneUnitApart x ∧ d.NotShorter x 0 := by
  have hbounds (d : Duration) : -30 < d.settledDays ∧ d.settledDays < 30 ∧
      -86400000000000 < d.settledNanos ∧ d.settledNanos < 86400000000000 :=
    ⟨Int.lt_tmod_of_pos _ (by norm_num), Int.tmod_lt_of_pos _ (by norm_num),
      Int.lt_tmod_of_pos _ (by simp), Int.tmod_lt_of_pos _ (by simp)⟩
  have hd := hbounds d
  have hx := hbounds x
  rw [Misordered, h, sub_self, zero_mul]
  refine and_congr_left fun hlength => ?_
  simp only [NotShorter, total_eq_settled] at hlength
  unfold Precedes OneUnitApart
  omega

end Duration

end Cockroach.Util
