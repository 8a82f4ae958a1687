import Cockroach.Hlc.Timestamp

/-! The values of the timestamp cache: ratcheting is the join of an order, and the compressed
maximum of a page bounds its values unless it overflows. -/
namespace Cockroach.TsCache
open Hlc
open Timestamp (forward less_iff ticks)

/-- A timestamp with the transaction that owns it, if it is owned by one. -/
@[ext] structure CacheValue where
  ts : Timestamp
  txnID : Option ℕ
deriving DecidableEq, Repr

namespace CacheValue

def zero : CacheValue := ⟨.empty, none⟩

/-- The later value wins; what two values of one time disagree on is dropped. The flag tells
whether the old value was updated. -/
def ratchetValue (old new : CacheValue) : CacheValue × Bool :=
  if old.ts.Less new.ts then (new, true)
  else if new.ts.Less old.ts then (old, false)
  else
    let res : CacheValue :=
      ⟨if new.ts.synthetic ≠ old.ts.synthetic then { new.ts with synthetic := false } else new.ts,
        if new.txnID ≠ old.txnID then none else new.txnID⟩
    (res, res ≠ old)

/-- The second value is later, or is of the same time and claims no more than the first one. -/
def le (v w : CacheValue) : Prop :=
  v.ts.ticks < w.ts.ticks ∨ v.ts.ticks = w.ts.ticks ∧
    (w.ts.synthetic = true → v.ts.synthetic = true) ∧ (w.txnID = none ∨ w.txnID = v.txnID)

instance : PartialOrder CacheValue where
  le := le
  le_refl v := .inr ⟨rfl, id, .inr rfl⟩
  le_trans u v w huv hvw := by
    rcases huv with huv | ⟨huv, hsyn, htxn⟩ <;> rcases hvw with hvw | ⟨hvw, hsyn', htxn'⟩
    · exact .inl (huv.trans hvw)
    · exact .inl (huv.trans_eq hvw)
    · exact .inl (huv.trans_lt hvw)
    · refine .inr ⟨huv.trans hvw, hsyn ∘ hsyn', ?_⟩
      rcases htxn' with h | h
      · exact .inl h
      · rw [h]
        exact htxn
  le_antisymm v w hvw hwv := by
    rcases hvw with hvw | ⟨hvw, hsyn, htxn⟩ <;> rcases hwv with hwv | ⟨hwv, hsyn', htxn'⟩
    · omega
    · omega
    · omega
    · refine CacheValue.ext (Timestamp.ext_ticks hvw (Bool.eq_iff_iff.mpr ⟨hsyn', hsyn⟩)) ?_
      rcases htxn with h | h
      · rw [h]
        rcases htxn' with h' | h'
        · exact h'
        · rw [h', h]
      · exact h.symm

variable {old new : CacheValue}

theorem ratchetValue_of_lt (h : old.ts.ticks < new.ts.ticks) : ratchetValue old new = (new, true) :=
  if_pos ((less_iff _ _).mpr h)

theorem ratchetValue_of_gt (h : new.ts.ticks < old.ts.ticks) :
    ratchetValue old new = (old, false) := by
  unfold ratchetValue
  rw [if_neg (by rw [less_iff]; omega), if_pos ((less_iff _ _).mpr h)]

theorem ratchetValue_of_eq (h : old.ts.ticks = new.ts.ticks) :
    (ratchetValue old new).1.ts.ticks = new.ts.ticks ∧
      ((ratchetValue old new).1.ts.synthetic = true ↔
        old.ts.synthetic = true ∧ new.ts.synthetic = true) ∧
      (ratchetValue old new).1.txnID = (if new.txnID ≠ old.txnID then none else new.txnID) ∧
      (ratchetValue old new).2 = decide ((ratchetValue old new).1 ≠ old) := by
  unfold ratchetValue
  rw [if_neg (by rw [less_iff]; omega), if_neg (by rw [less_iff]; omega)]
  refine ⟨?_, ?_, rfl, rfl⟩
  · split_ifs <;> rfl
  · cases ho : old.ts.synthetic <;> cases hn : new.ts.synthetic <;> simp [hn]

instance : SemilatticeSup CacheValue where
  sup v w := (ratchetValue v w).1
  le_sup_left v w := by
    rcases lt_trichotomy v.ts.ticks w.ts.ticks with h | h | h
    · rw [ratchetValue_of_lt h]
      exact .inl h
    · obtain ⟨hticks, hsyn, htxn, -⟩ := ratchetValue_of_eq h
      refine .inr ⟨h.trans hticks.symm, fun hs => (hsyn.mp hs).1, ?_⟩
      rw [htxn]
      split_ifs with hne
      · exact .inl rfl
      · exact .inr (not_not.mp hne)
    · rw [ratchetValue_of_gt h]
  le_sup_right v w := by
    rcases lt_trichotomy v.ts.ticks w.ts.ticks with h | h | h
    · rw [ratchetValue_of_lt h]
    · obtain ⟨hticks, hsyn, htxn, -⟩ := ratchetValue_of_eq h
      refine .inr ⟨hticks.symm, fun hs => (hsyn.mp hs).2, ?_⟩
      rw [htxn]
      split_ifs
      · exact .inl rfl
      · exact .inr rfl
    · rw [ratchetValue_of_gt h]
      exact .inl h
  sup_le u v w huw hvw := by
    rcases lt_trichotomy u.ts.ticks v.ts.ticks with h | h | h
    · rw [ratchetValue_of_lt h]
      exact hvw
    · obtain ⟨hticks, hsyn, htxn, -⟩ := ratchetValue_of_eq h
      rcases huw with huw | ⟨huw, husyn, hutxn⟩
      · exact .inl (by omega)
      · rcases hvw with hvw | ⟨hvw, hvsyn, hvtxn⟩
        · exact .inl (by omega)
        · refine .inr ⟨hticks.trans hvw, fun hs => hsyn.mpr ⟨husyn hs, hvsyn hs⟩, ?_⟩
          rw [htxn]
          split_ifs with hne
          · rcases hutxn with h' | h'
            · exact .inl h'
            · rcases hvtxn with h'' | h''
              · exact .inl h''
              · exact absurd (h''.symm.trans h') hne
          · exact hvtxn
    · rw [ratchetValue_of_gt h]
      exact huw

theorem ratchetValue_fst (old new : CacheValue) : (ratchetValue old new).1 = old ⊔ new := rfl

theorem ratchetValue_snd : (ratchetValue old new).2 = false ↔ new ≤ old := by
  have hflag : (ratchetValue old new).2 = decide ((ratchetValue old new).1 ≠ old) := by
    rcases lt_trichotomy old.ts.ticks new.ts.ticks with h | h | h
    · rw [ratchetValue_of_lt h, eq_comm]
      refine decide_eq_true ?_
      rintro rfl
      exact lt_irrefl _ h
    · exact (ratchetValue_of_eq h).2.2.2
    · rw [ratchetValue_of_gt h]
      simp
  rw [hflag, decide_eq_false_iff_not, not_not, ratchetValue_fst, sup_eq_left]

theorem ticks_le_of_le {v w : CacheValue} (h : v ≤ w) : v.ts.ticks ≤ w.ts.ticks := by
  rcases h with h | ⟨h, -⟩
  · exact h.le
  · exact h.le

theorem ticks_sup (v w : CacheValue) : (v ⊔ w).ts.ticks = max v.ts.ticks w.ts.ticks := by
  rw [← ratchetValue_fst]
  rcases lt_trichotomy v.ts.ticks w.ts.ticks with h | h | h
  · rw [ratchetValue_of_lt h, max_eq_right h.le]
  · rw [(ratchetValue_of_eq h).1, h, max_self]
  · rw [ratchetValue_of_gt h, max_eq_left h.le]

end CacheValue

/-- A compressed timestamp: the wall time without its last bit, which is set unless the timestamp is
synthetic. -/
abbrev RatchetingTime := { n : ℕ // n < 2 ^ 63 }

def increment64 (x : ℤ) : ℤ := if x + 1 < 2 ^ 63 then x + 1 else x + 1 - 2 ^ 64

/-- The wall time rounded up to one that is even and not below the timestamp. -/
def roundedWallTime (ts : Timestamp) : ℤ :=
  let rt : ℤ := if ts.logical > 0 then increment64 ts.wallTime else ts.wallTime
  if rt % 2 = 1 then increment64 rt else rt

def makeRatchetingTime (ts : Timestamp) : ℤ :=
  -- The last bit is clear, so setting it adds one.
  if ts.synthetic then roundedWallTime ts else roundedWallTime ts + 1

theorem makeRatchetingTime_lt (ts : Timestamp) : makeRatchetingTime ts < 2 ^ 63 := by
  have hwall := ts.wallTime_lt
  unfold makeRatchetingTime roundedWallTime increment64
  dsimp only
  split_ifs <;> omega

namespace RatchetingTime

/-- The largest timestamp that is compressed to this time. -/
def get (rt : RatchetingTime) : Timestamp :=
  ⟨rt.1 - rt.1 % 2, 0, rt.1 % 2 = 0, by have := rt.2; omega, Timestamp.zero_lt_logical⟩

/-- The maximum with a timestamp. -/
def ratchet (rt : RatchetingTime) (ts : Timestamp) : RatchetingTime :=
  if h : makeRatchetingTime ts ≤ rt.1 then rt
  else ⟨(makeRatchetingTime ts).toNat, by have := makeRatchetingTime_lt ts; omega⟩

theorem le_ratchet (rt : RatchetingTime) (ts : Timestamp) : rt ≤ rt.ratchet ts := by
  unfold ratchet
  split_ifs with h
  · exact le_rfl
  · change rt.1 ≤ (makeRatchetingTime ts).toNat
    omega

theorem makeRatchetingTime_le_ratchet (rt : RatchetingTime) (ts : Timestamp) :
    makeRatchetingTime ts ≤ (rt.ratchet ts).1 := by
  unfold ratchet
  split_ifs with h
  · exact h
  · dsimp only
    omega

/-- All that a page with this maximum may hold lies at or below this value. -/
def bound (rt : RatchetingTime) : CacheValue := ⟨rt.get, none⟩ ⊔ .zero

theorem get_le_bound (rt : RatchetingTime) : ⟨rt.get, none⟩ ≤ rt.bound := le_sup_left

theorem zero_le_bound (rt : RatchetingTime) : CacheValue.zero ≤ rt.bound := le_sup_right

theorem ticks_get (rt : RatchetingTime) : rt.get.ticks = (rt.1 - rt.1 % 2) * 2 ^ 31 := by
  simp [ticks, get]

theorem ticks_bound (rt : RatchetingTime) : rt.bound.ts.ticks = rt.get.ticks := by
  have hzero : (CacheValue.zero).ts.ticks = 0 := rfl
  unfold bound
  rw [CacheValue.ticks_sup]
  exact Nat.max_zero _

theorem bound_mono {rt rt' : RatchetingTime} (h : rt ≤ rt') : rt.bound ≤ rt'.bound := by
  refine sup_le_sup_right ?_ _
  have h' : rt.1 ≤ rt'.1 := h
  change rt.get.ticks < rt'.get.ticks ∨ rt.get.ticks = rt'.get.ticks ∧
    (decide (rt'.1 % 2 = 0) = true → decide (rt.1 % 2 = 0) = true) ∧ _
  rw [ticks_get, ticks_get, decide_eq_true_eq, decide_eq_true_eq]
  by_cases heq : rt.1 - rt.1 % 2 = rt'.1 - rt'.1 % 2
  · refine .inr ⟨by rw [heq], by omega, .inl rfl⟩
  · exact .inl (by omega)

end RatchetingTime

/-- The timestamp can be rounded up to an even wall time. -/
def Compressible (ts : Timestamp) : Prop :=
  ts.wallTime + (if ts.logical > 0 then 1 else 0) ≤ 2 ^ 63 - 2

instance (ts : Timestamp) : Decidable (Compressible ts) := inferInstanceAs (Decidable (_ ≤ _))

theorem le_bound_ratchet {v : CacheValue} (h : Compressible v.ts) (rt : RatchetingTime) :
    v ≤ (rt.ratchet v.ts).bound := by
  have hmake := rt.makeRatchetingTime_le_ratchet v.ts
  set mt := rt.ratchet v.ts
  have hlog := v.ts.logical_lt
  refine le_trans ?_ mt.get_le_bound
  change v.ts.ticks < mt.get.ticks ∨ v.ts.ticks = mt.get.ticks ∧
    (decide (mt.1 % 2 = 0) = true → v.ts.synthetic = true) ∧ _
  rw [RatchetingTime.ticks_get, decide_eq_true_eq]
  unfold Compressible at h
  unfold makeRatchetingTime roundedWallTime increment64 at hmake
  unfold ticks
  by_cases hl : v.ts.logical > 0
  · left
    simp only [hl, if_true] at h hmake
    have hwall : v.ts.wallTime + 1 ≤ mt.1 - mt.1 % 2 := by
      split_ifs at hmake <;> omega
    omega
  · simp only [hl, if_false] at h hmake
    have hwall : v.ts.wallTime ≤ mt.1 - mt.1 % 2 := by
      split_ifs at hmake <;> omega
    rcases hwall.lt_or_eq with hlt | heq
    · left
      omega
    · right
      refine ⟨by omega, fun heven => ?_, .inl rfl⟩
      by_contra hsyn
      split_ifs at hmake <;> omega

/-- A timestamp whose parts may be negative. -/
structure SignedTimestamp where
  wallTime : ℤ
  logical : ℤ
  synthetic : Bool
deriving DecidableEq

namespace SignedTimestamp

def ofTimestamp (ts : Timestamp) : SignedTimestamp := ⟨ts.wallTime, ts.logical, ts.synthetic⟩

def LessEq (t s : SignedTimestamp) : Prop :=
  t.wallTime < s.wallTime ∨ t.wallTime = s.wallTime ∧ t.logical ≤ s.logical

/-- The timestamp of any compressed time, also of one that has become negative. -/
def get (rt : ℤ) : SignedTimestamp := ⟨rt - rt % 2, 0, rt % 2 = 0⟩

theorem ofTimestamp_lessEq {t s : Timestamp} :
    (ofTimestamp t).LessEq (ofTimestamp s) ↔ t.LessEq s := by
  unfold LessEq ofTimestamp Timestamp.LessEq
  dsimp only
  omega

theorem LessEq.trans {t s u : SignedTimestamp} (h : t.LessEq s) (h' : s.LessEq u) : t.LessEq u := by
  unfold LessEq at h h' ⊢
  omega

theorem get_mono {rt rt' : ℤ} (h : rt ≤ rt') : (get rt).LessEq (get rt') := by
  unfold LessEq get
  dsimp only
  omega

end SignedTimestamp

open SignedTimestamp

theorem roundedWallTime_even (ts : Timestamp) : roundedWallTime ts % 2 = 0 := by
  unfold roundedWallTime increment64
  dsimp only
  split_ifs <;> omega

theorem get_makeRatchetingTime (ts : Timestamp) :
    get (makeRatchetingTime ts) = ⟨roundedWallTime ts, 0, ts.synthetic⟩ := by
  have heven := roundedWallTime_even ts
  unfold makeRatchetingTime SignedTimestamp.get
  cases ts.synthetic with
  | true => simp [heven]
  | false =>
    have hodd : (roundedWallTime ts + 1) % 2 = 1 := by omega
    simp [hodd]

theorem lessEq_get_of_compressible {ts : Timestamp} (h : Compressible ts) :
    (ofTimestamp ts).LessEq (get (makeRatchetingTime ts)) := by
  rw [get_makeRatchetingTime]
  unfold Compressible at h
  unfold LessEq ofTimestamp roundedWallTime increment64
  dsimp only
  split_ifs at h ⊢ <;> omega

/-- The largest compressed time stands for an even wall time without a logical part. -/
theorem compressible_of_lessEq_get {ts : Timestamp} {rt : ℤ} (hrt : rt < 2 ^ 63)
    (h : (ofTimestamp ts).LessEq (get rt)) : Compressible ts := by
  unfold LessEq ofTimestamp SignedTimestamp.get at h
  unfold Compressible
  dsimp only at h
  split_ifs <;> omega

/-- What is promised for the compression of any two timestamps. -/
def RoundsUp (x y : Timestamp) : Prop :=
  (ofTimestamp x).LessEq (get (makeRatchetingTime x)) ∧
  (get (makeRatchetingTime x)).synthetic = x.synthetic ∧
  (ofTimestamp (x.forward y)).LessEq (get (max (makeRatchetingTime x) (makeRatchetingTime y)))

theorem roundsUp_iff (x y : Timestamp) : RoundsUp x y ↔ Compressible x ∧ Compressible y := by
  have hlt := max_lt (makeRatchetingTime_lt x) (makeRatchetingTime_lt y)
  constructor
  · rintro ⟨-, -, hmax⟩
    have hx := (ofTimestamp_lessEq.mpr (.forward_left x y)).trans hmax
    have hy := (ofTimestamp_lessEq.mpr (.forward_right x y)).trans hmax
    exact ⟨compressible_of_lessEq_get hlt hx, compressible_of_lessEq_get hlt hy⟩
  · rintro ⟨hx, hy⟩
    have hx' := lessEq_get_of_compressible hx
    have hy' := lessEq_get_of_compressible hy
    refine ⟨hx', by rw [get_makeRatchetingTime], ?_⟩
    unfold forward
    split_ifs
    · exact hy'.trans (get_mono (le_max_right _ _))
    · exact hx'.trans (get_mono (le_max_left _ _))
    · exact hx'.trans (get_mono (le_max_left _ _))

/-- The largest timestamp is compressed to the smallest wall time. -/
theorem not_roundsUp_of_wrap :
    get (makeRatchetingTime ⟨2 ^ 63 - 1, 2 ^ 31 - 1, false, by norm_num, by norm_num⟩) =
      ⟨-2 ^ 63, 0, false⟩ ∧
    ∀ y, ¬ RoundsUp ⟨2 ^ 63 - 1, 2 ^ 31 - 1, false, by norm_num, by norm_num⟩ y := by
  constructor
  · decide
  · rintro y ⟨hle, -⟩
    exact absurd (compressible_of_lessEq_get (makeRatchetingTime_lt _) hle) (by decide)

end Cockroach.TsCache
