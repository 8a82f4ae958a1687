import Cockroach.Encoding.Varint
import Cockroach.Library.Positional

/-! Order-preserving key encoding of arbitrary-precision decimals. -/
namespace Cockroach.Encoding
open ByteOrder Positional List

def decimalNaN : UInt8 := 24
def decimalNegativeInfinity : UInt8 := decimalNaN + 1
def decimalNegLarge : UInt8 := decimalNegativeInfinity + 1
def decimalNegMedium : UInt8 := decimalNegLarge + 11
def decimalNegSmall : UInt8 := decimalNegMedium + 1
def decimalZero : UInt8 := decimalNegSmall + 1
def decimalPosSmall : UInt8 := decimalZero + 1
def decimalPosMedium : UInt8 := decimalPosSmall + 1
def decimalPosLarge : UInt8 := decimalPosMedium + 11
def decimalInfinity : UInt8 := decimalPosLarge + 1
def decimalNaNDesc : UInt8 := decimalInfinity + 1
def decimalTerminator : UInt8 := 0x00

inductive Form where
  | finite
  | infinite
  | naNSignaling
  | naN
deriving DecidableEq, Repr

/-- A decimal `±coeff * 10 ^ exponent`. The digits of the coefficient fit into a slice. -/
structure Decimal where
  form : Form
  negative : Bool
  exponent : Int32
  coeff : ℕ
  length_lt : (digits 10 coeff).length < 2 ^ 62

def Decimal.IsZero (d : Decimal) : Prop := d.form = .finite ∧ d.coeff = 0

instance (d : Decimal) : Decidable d.IsZero := inferInstanceAs (Decidable (_ ∧ _))

/-- A byte `2 * x + 1` per centimal digit `x`, except for the last one, which is `2 * x`. -/
def mantissa (xs : List ℕ) : Bytes :=
  let m := xs.map fun x => UInt8.ofNat (2 * x + 1)
  m.dropLast ++ (m.getLast?.map (· - 1)).toList

/-- The power-10 exponent as a power of 100, rounded up unless it is negative. -/
def exponent100 (e10 : ℤ) : ℤ := if e10 ≥ 0 then (e10 + 1).tdiv 2 else e10.tdiv 2

/-- The exponent of the decimal point in front of the first digit. -/
def exponent10 (d : Decimal) : ℤ := d.exponent.toInt + (digits 10 d.coeff).length

/-- The digits behind the decimal point, with the leading zero that an odd exponent takes. -/
def pointDigits (d : Decimal) : List ℕ :=
  let tmp := (0 :: digits 10 d.coeff).rdropWhile (· = 0)
  if exponent100 (exponent10 d) * 2 = exponent10 d then tmp.drop 1 else tmp

def centimals (d : Decimal) : List ℕ := pairs 10 (padEven (pointDigits d))

def decimalEandM (d : Decimal) : ℤ × Bytes :=
  (exponent100 (exponent10 d), mantissa (centimals d))

def highestByteIndex (v : UInt64) : ℕ :=
  let n := v.toNat
  let (n, l) := if n > 0xffffffff then (n >>> 32, 4) else (n, 0)
  let (n, l) := if n > 0xffff then (n >>> 16, l + 2) else (n, l)
  if n > 0xff then l + 1 else l

def encLenUvarintAscending (v : UInt64) : ℕ :=
  if v.toNat ≤ intSmall then 1 else 2 + highestByteIndex v

def encLenUvarintDescending (v : UInt64) : ℕ :=
  if v.toNat = 0 then 1 else 2 + highestByteIndex v

/-- The mantissa is put behind a gap of the precomputed length and the exponent into the gap. -/
def encodeVarExpNumber (tag : UInt8) (expAscending : Bool) (exp : UInt64) (m : Bytes) : Bytes :=
  let n := if expAscending then encLenUvarintAscending exp else encLenUvarintDescending exp
  let encInto := tag :: (List.replicate n 0 ++ m)
  let e := if expAscending then encodeUvarintAscending exp else encodeUvarintDescending exp
  encInto.take 1 ++ e ++ encInto.drop (1 + e.length) ++ [decimalTerminator]

def encodeSmallNumber (negative : Bool) (e : ℤ) (m : Bytes) : Bytes :=
  if negative then
    encodeVarExpNumber decimalNegSmall true (UInt64.ofNat (-e).toNat) (complement m)
  else encodeVarExpNumber decimalPosSmall false (UInt64.ofNat (-e).toNat) m

def encodeLargeNumber (negative : Bool) (e : ℤ) (m : Bytes) : Bytes :=
  if negative then
    encodeVarExpNumber decimalNegLarge false (UInt64.ofNat e.toNat) (complement m)
  else encodeVarExpNumber decimalPosLarge true (UInt64.ofNat e.toNat) m

def encodeMediumNumber (negative : Bool) (e : ℤ) (m : Bytes) : Bytes :=
  if negative then
    (decimalNegMedium - UInt8.ofNat e.toNat) :: (complement m ++ [decimalTerminator])
  else (decimalPosMedium + UInt8.ofNat e.toNat) :: (m ++ [decimalTerminator])

def encodeEandM (negative : Bool) (e : ℤ) (m : Bytes) : Bytes :=
  if e < 0 then encodeSmallNumber negative e m
  else if e ≤ 10 then encodeMediumNumber negative e m
  else encodeLargeNumber negative e m

/-- `none` stands for the panic on an unknown form. -/
def encodeDecimal (d : Decimal) (invert : Bool) : Option Bytes :=
  if d.IsZero then some [decimalZero]
  else
    let neg := d.negative != invert
    match d.form with
    | .finite =>
      let (e, m) := decimalEandM d
      some (encodeEandM neg e m)
    | .infinite => some [if neg then decimalNegativeInfinity else decimalInfinity]
    | .naN => some [if invert then decimalNaNDesc else decimalNaN]
    | .naNSignaling => none

def encodeDecimalAscending (d : Decimal) : Option Bytes := encodeDecimal d false

def encodeDecimalDescending (d : Decimal) : Option Bytes := encodeDecimal d true

theorem highestByteIndex_eq (v : UInt64) : highestByteIndex v + 1 = payloadWidth v.toNat := by
  have hv : v.toNat < 256 ^ 8 := v.toNat_lt
  unfold highestByteIndex
  simp only [Nat.shiftRight_eq_div_pow]
  split_ifs <;> dsimp only at * <;> symm <;> apply payloadWidth_eq <;> omega

theorem encLenUvarintAscending_eq (v : UInt64) :
    encLenUvarintAscending v = (encodeUvarintAscending v).length := by
  have h := highestByteIndex_eq v
  rw [encodeUvarintAscending_eq]
  unfold encLenUvarintAscending
  split_ifs with hs
  · rfl
  · rw [length_cons, length_bigEndian]
    omega

theorem encLenUvarintDescending_eq (v : UInt64) :
    encLenUvarintDescending v = (encodeUvarintDescending v).length := by
  have h := highestByteIndex_eq v
  rw [encodeUvarintDescending_eq]
  unfold encLenUvarintDescending
  split_ifs with hs
  · rfl
  · rw [length_cons, length_bigEndian]
    omega

theorem encodeVarExpNumber_eq (tag : UInt8) (expAscending : Bool) (exp : UInt64) (m : Bytes) :
    encodeVarExpNumber tag expAscending exp m =
      tag :: ((if expAscending then encodeUvarintAscending exp else encodeUvarintDescending exp) ++
        (m ++ [decimalTerminator])) := by
  unfold encodeVarExpNumber
  cases expAscending with
  | true => simp [encLenUvarintAscending_eq, Nat.add_comm 1]
  | false => simp [encLenUvarintDescending_eq, Nat.add_comm 1]

theorem exponent100_mul_two (e : ℤ) : exponent100 e * 2 = e ∨ exponent100 e * 2 = e + 1 := by
  unfold exponent100
  split_ifs with h
  · rw [Int.tdiv_eq_ediv_of_nonneg (by omega)]
    omega
  · rw [show e = -(-e) by omega, Int.neg_tdiv, Int.tdiv_eq_ediv_of_nonneg (by omega)]
    omega

theorem mantissa_cons {x : ℕ} (hx : x < 100) (xs : List ℕ) :
    ∃ c : UInt8, mantissa (x :: xs) = c :: mantissa xs ∧
      c.toNat = if xs = [] then 2 * x else 2 * x + 1 := by
  have hodd : (UInt8.ofNat (2 * x + 1)).toNat = 2 * x + 1 := toNat_ofNat_of_le (by omega)
  cases xs with
  | nil =>
    refine ⟨UInt8.ofNat (2 * x + 1) - 1, rfl, ?_⟩
    rw [UInt8.toNat_sub, if_pos rfl, UInt8.toNat_one]
    omega
  | cons y ys => exact ⟨UInt8.ofNat (2 * x + 1), by simp [mantissa], by simpa using hodd⟩

theorem sortsAs_mantissa {xs ys : List ℕ} (hx : ∀ z ∈ xs, z < 100) (hy : ∀ z ∈ ys, z < 100)
    (hne : xs = [] ↔ ys = []) : SortsAs (lexCompare compare xs ys) (mantissa xs) (mantissa ys) := by
  induction xs generalizing ys with
  | nil =>
    rw [hne.mp rfl]
    exact sortsAs_eq_self _
  | cons x xs ih => cases ys with
    | nil => simp at hne
    | cons y ys =>
      obtain ⟨c, hc, hcx⟩ := mantissa_cons (hx x (by simp)) xs
      obtain ⟨c', hc', hcy⟩ := mantissa_cons (hy y (by simp)) ys
      rw [hc, hc', lexCompare]
      rcases lt_trichotomy x y with h | h | h
      · rw [Nat.compare_eq_lt.mpr h]
        apply sortsAs_cons_of_lt
        split_ifs at hcx hcy <;> omega
      · subst h
        rw [Nat.compare_eq_eq.mpr rfl]
        -- The same digit gives the same byte unless exactly one of the two is the last.
        cases xs with
        | nil => cases ys with
          | nil =>
            rw [UInt8.toNat_inj.mp (hcx.trans hcy.symm)]
            exact sortsAs_eq_self _
          | cons y' ys => exact sortsAs_cons_of_lt (by simp at hcx hcy; omega) _ _
        | cons x' xs => cases ys with
          | nil => exact sortsAs_cons_of_gt (by simp at hcx hcy; omega) _ _
          | cons y' ys =>
            have hcc : c = c' := UInt8.toNat_inj.mp (by simp at hcx hcy; omega)
            rw [hcc]
            apply SortsAs.cons
            apply ih
            · exact fun z hz => hx z (mem_cons_of_mem _ hz)
            · exact fun z hz => hy z (mem_cons_of_mem _ hz)
            · simp
      · rw [Nat.compare_eq_gt.mpr h]
        apply sortsAs_cons_of_gt
        split_ifs at hcx hcy <;> omega

/-- The absolute value of a finite decimal. -/
def Decimal.abs (d : Decimal) : ℚ := d.coeff * 10 ^ d.exponent.toInt

theorem frac_digits_mul (d : Decimal) :
    d.abs = frac 10 (digits 10 d.coeff) * 10 ^ exponent10 d := by
  have hdig := frac_digits 10 (by norm_num) d.coeff
  rw [exponent10, hdig, zpow_add₀ (by norm_num), zpow_natCast, Decimal.abs]
  push_cast
  field_simp

theorem pointDigits_spec (d : Decimal) (h : d.coeff ≠ 0) :
    Canonical 10 (pointDigits d) ∧ (100 : ℚ)⁻¹ ≤ frac 10 (pointDigits d) ∧
    d.abs = frac 10 (pointDigits d) * 100 ^ exponent100 (exponent10 d) := by
  obtain ⟨x, xs, hds, hx⟩ := digits_eq_cons 10 h
  obtain ⟨ys, hdrop, hys⟩ := rdropWhile_zero_cons hx xs
  have hfrac : frac 10 (0 :: x :: ys) = frac 10 (0 :: x :: xs) := by
    rw [← hdrop, frac_rdropWhile]
  have hcons : frac 10 (x :: ys) = frac 10 (x :: xs) := by
    simpa [frac] using hfrac
  have hlast : (0 :: x :: ys).getLast? ≠ some 0 := hdrop ▸ getLast_rdropWhile (0 :: x :: xs)
  have hlt : ∀ z ∈ x :: ys, z < 10 := by
    intro z hz
    apply digits_lt (by norm_num) d.coeff
    rw [hds]
    exact (cons_prefix_cons.mpr ⟨rfl, hys⟩).subset hz
  have hinv := inv_le_frac (b := 10) (Nat.one_le_iff_ne_zero.mpr hx) ys
  have habs := frac_digits_mul d
  unfold pointDigits
  generalize exponent10 d = e10 at habs ⊢
  rw [hds] at habs ⊢
  rw [hdrop, habs, ← hcons]
  have hpow (e : ℤ) : (100 : ℚ) ^ e = 10 ^ (e * 2) := by
    rw [mul_comm, zpow_mul]
    norm_num
  rcases exponent100_mul_two e10 with he | he
  · rw [if_pos he, hpow, he]
    refine ⟨⟨hlt, by simpa using hlast⟩, ?_, rfl⟩
    exact le_trans (by norm_num) hinv
  · rw [if_neg (by omega), hpow, he, zpow_add_one₀ (by norm_num)]
    have hzero : frac 10 (0 :: x :: ys) = frac 10 (x :: ys) / 10 := by simp [frac]
    refine ⟨⟨?_, hlast⟩, ?_, ?_⟩
    · intro z hz
      rcases mem_cons.mp hz with rfl | hz
      · norm_num
      · exact hlt z hz
    · linarith
    · rw [hzero]
      field_simp

/-- The centimal digits and the exponent stand for the value, normalized to `0.01 ≤ … < 1`. -/
theorem centimals_spec (d : Decimal) (h : d.coeff ≠ 0) :
    Canonical 100 (centimals d) ∧ (100 : ℚ)⁻¹ ≤ frac 100 (centimals d) ∧
    d.abs = frac 100 (centimals d) * 100 ^ exponent100 (exponent10 d) := by
  obtain ⟨hcan, hinv, habs⟩ := pointDigits_spec d h
  have hfrac := frac_pairs_padEven 10 (by norm_num) (pointDigits d)
  refine ⟨hcan.pairs (by norm_num), ?_, ?_⟩
  · exact hinv.trans_eq hfrac.symm
  · exact habs.trans (by rw [← hfrac]; rfl)

theorem centimals_ne_nil (d : Decimal) (h : d.coeff ≠ 0) : centimals d ≠ [] := by
  intro hnil
  have hinv := (centimals_spec d h).2.1
  rw [hnil] at hinv
  norm_num [frac] at hinv

theorem compare_abs (d o : Decimal) (hd : d.coeff ≠ 0) (ho : o.coeff ≠ 0) : compare d.abs o.abs =
      (compare (exponent100 (exponent10 d)) (exponent100 (exponent10 o))).then
        (lexCompare compare (centimals d) (centimals o)) := by
  obtain ⟨hcan, hinv, habs⟩ := centimals_spec d hd
  obtain ⟨hcan', hinv', habs'⟩ := centimals_spec o ho
  have hscale := compare_scaled (b := 100) (by norm_num) hinv (frac_lt_one hcan.1) hinv'
    (frac_lt_one hcan'.1) (exponent100 (exponent10 d)) (exponent100 (exponent10 o))
  rw [habs, habs', ← compare_frac hcan hcan']
  exact_mod_cast hscale

theorem sortsAs_mantissa_centimals (d o : Decimal) (hd : d.coeff ≠ 0) (ho : o.coeff ≠ 0) :
    SortsAs (lexCompare compare (centimals d) (centimals o)) (mantissa (centimals d))
      (mantissa (centimals o)) := by
  apply sortsAs_mantissa (centimals_spec d hd).1.1 (centimals_spec o ho).1.1
  simp [centimals_ne_nil, hd, ho]

def exponentBytes (negative : Bool) (e : ℤ) : Bytes :=
  if e < 0 then
    if negative then decimalNegSmall :: encodeUvarintAscending (UInt64.ofNat (-e).toNat)
    else decimalPosSmall :: encodeUvarintDescending (UInt64.ofNat (-e).toNat)
  else if e ≤ 10 then
    [if negative then decimalNegMedium - UInt8.ofNat e.toNat
      else decimalPosMedium + UInt8.ofNat e.toNat]
  else
    if negative then decimalNegLarge :: encodeUvarintDescending (UInt64.ofNat e.toNat)
    else decimalPosLarge :: encodeUvarintAscending (UInt64.ofNat e.toNat)

theorem encodeEandM_eq (negative : Bool) (e : ℤ) (m : Bytes) :
    encodeEandM negative e m = exponentBytes negative e ++
      ((if negative then complement m else m) ++ [decimalTerminator]) := by
  unfold encodeEandM encodeSmallNumber encodeMediumNumber encodeLargeNumber exponentBytes
  cases negative <;> simp only [encodeVarExpNumber_eq] <;> split_ifs <;> simp_all

theorem toNat_ofNat_toNat {e : ℤ} (h : e < 2 ^ 63) : (UInt64.ofNat e.toNat).toNat = e.toNat := by
  rw [UInt64.toNat_ofNat']
  omega

theorem exponentBytes_head (negative : Bool) (e : ℤ) : ∃ x s, exponentBytes negative e = x :: s ∧
      (x.toNat : ℤ) = if negative then 37 - max (-1) (min e 11) else 41 + max (-1) (min e 11) := by
  unfold exponentBytes
  by_cases he : e < 0
  · rw [if_pos he, show max (-1) (min e 11) = -1 by omega]
    cases negative <;> exact ⟨_, _, rfl, rfl⟩
  rw [if_neg he]
  by_cases he' : e ≤ 10
  · rw [if_pos he']
    refine ⟨_, _, rfl, ?_⟩
    have hbyte : (UInt8.ofNat e.toNat).toNat = e.toNat := toNat_ofNat_of_le (by omega)
    have hp : decimalPosMedium.toNat = 41 := rfl
    have hn : decimalNegMedium.toNat = 37 := rfl
    cases negative with
    | true =>
      simp only [if_true, UInt8.toNat_sub, hbyte, hn]
      omega
    | false =>
      simp only [Bool.false_eq_true, if_false, UInt8.toNat_add, hbyte, hp]
      omega
  · rw [if_neg he', show max (-1) (min e 11) = 11 by omega]
    cases negative <;> exact ⟨_, _, rfl, rfl⟩

theorem diffLt_exponentBytes {e f : ℤ} (he : -2 ^ 63 < e) (hf : f < 2 ^ 63) (h : e < f) :
    DiffLt (exponentBytes false e) (exponentBytes false f) ∧
    DiffLt (exponentBytes true f) (exponentBytes true e) := by
  by_cases hhead : max (-1) (min e 11) < max (-1) (min f 11)
  · constructor
    · obtain ⟨x, s, hx, hxe⟩ := exponentBytes_head false e
      obtain ⟨y, t, hy, hyf⟩ := exponentBytes_head false f
      rw [hx, hy]
      left
      rw [if_neg (by simp)] at hxe hyf
      omega
    · obtain ⟨x, s, hx, hxe⟩ := exponentBytes_head true e
      obtain ⟨y, t, hy, hyf⟩ := exponentBytes_head true f
      rw [hx, hy]
      left
      rw [if_pos rfl] at hxe hyf
      omega
  -- The same first byte: both exponents are small, or both are large.
  rcases (by omega : e < 0 ∧ f < 0 ∨ 10 < e ∧ 10 < f) with ⟨he0, hf0⟩ | ⟨he10, hf10⟩
  · have hlt : (UInt64.ofNat (-f).toNat).toNat < (UInt64.ofNat (-e).toNat).toNat := by
      rw [toNat_ofNat_toNat (by omega), toNat_ofNat_toNat (by omega)]
      omega
    unfold exponentBytes
    rw [if_pos he0, if_pos hf0, if_pos he0, if_pos hf0]
    constructor
    · exact (diffLt_encodeUvarintDescending hlt).append_left [_]
    · exact (diffLt_encodeUvarintAscending hlt).append_left [_]
  · have hlt : (UInt64.ofNat e.toNat).toNat < (UInt64.ofNat f.toNat).toNat := by
      rw [toNat_ofNat_toNat (by omega), toNat_ofNat_toNat (by omega)]
      omega
    have hlarge (g : ℤ) (hg : 10 < g) : ¬ g < 0 ∧ ¬ g ≤ 10 := by omega
    unfold exponentBytes
    simp only [hlarge e he10, hlarge f hf10, if_false]
    constructor
    · exact (diffLt_encodeUvarintAscending hlt).append_left [_]
    · exact (diffLt_encodeUvarintDescending hlt).append_left [_]

theorem exponent100_bounds (d : Decimal) :
    -2 ^ 63 < exponent100 (exponent10 d) ∧ exponent100 (exponent10 d) < 2 ^ 63 := by
  have hlen := d.length_lt
  have hl := d.exponent.le_toInt
  have hu := d.exponent.toInt_lt
  have he := exponent100_mul_two (exponent10 d)
  unfold exponent10 at he ⊢
  constructor <;> omega

theorem sortsAs_exponentBytes (d o : Decimal) : let exp (d : Decimal) := exponent100 (exponent10 d)
    SortsAs (compare (exp d) (exp o)) (exponentBytes false (exp d)) (exponentBytes false (exp o)) ∧
    SortsAs (compare (exp d) (exp o)).swap (exponentBytes true (exp d))
      (exponentBytes true (exp o)) := by
  intro exp
  have hlt (d o : Decimal) (h : exp d < exp o) :=
    diffLt_exponentBytes (exponent100_bounds d).1 (exponent100_bounds o).2 h
  constructor
  · refine @sortsAs_of_diffLt _ _ _ (fun d => exponentBytes false (exp d)) exp ?_ ?_ d o
    · exact fun d o h => (hlt d o h).1
    · exact fun d o h => congrArg _ h
  · rw [Int.compare_swap]
    refine @sortsAs_of_diffLt _ _ _ (fun d => exponentBytes true (exp d))
      (fun d => OrderDual.toDual (exp d)) ?_ ?_ d o
    · exact fun d o h => (hlt o d h).2
    · exact fun d o h => congrArg _ h

/-- The code of a nonzero finite decimal. -/
def encodeNonzero (negative : Bool) (d : Decimal) : Bytes :=
  encodeEandM negative (decimalEandM d).1 (decimalEandM d).2

theorem encodeNonzero_head (negative : Bool) (d : Decimal) :
    ∃ x s, encodeNonzero negative d = x :: s ∧
      if negative then 26 ≤ x.toNat ∧ x.toNat ≤ 38 else 40 ≤ x.toNat ∧ x.toNat ≤ 52 := by
  obtain ⟨x, s, hxs, hx⟩ := exponentBytes_head negative (decimalEandM d).1
  refine ⟨x, _, by rw [encodeNonzero, encodeEandM_eq, hxs, cons_append], ?_⟩
  split_ifs at hx ⊢ <;> omega

theorem sortsAs_encodeNonzero (d o : Decimal) (hd : d.coeff ≠ 0) (ho : o.coeff ≠ 0) :
    SortsAs (compare d.abs o.abs) (encodeNonzero false d) (encodeNonzero false o) ∧
    SortsAs (compare d.abs o.abs).swap (encodeNonzero true d) (encodeNonzero true o) := by
  have hm := sortsAs_mantissa_centimals d o hd ho
  obtain ⟨hpos, hneg⟩ := sortsAs_exponentBytes d o
  rw [compare_abs d o hd ho, Ordering.swap_then]
  simp only [encodeNonzero, encodeEandM_eq]
  constructor
  · exact hpos.append (hm.append_right _)
  · exact hneg.append (hm.complement.append_right _)

/-- The order of the kinds of decimals: NaN, -Infinity, finite, +Infinity. -/
def Decimal.rank (d : Decimal) : ℕ :=
  match d.form, d.negative with
  | .naN, _ | .naNSignaling, _ => 0
  | .infinite, true => 1
  | .finite, _ => 2
  | .infinite, false => 3

def Decimal.value (d : Decimal) : ℚ :=
  match d.form, d.negative with
  | .finite, true => -d.abs
  | .finite, false => d.abs
  | _, _ => 0

/-- Numeric comparison, with NaN below everything else. -/
def Decimal.numericCompare (d o : Decimal) : Ordering :=
  compare (toLex (d.rank, d.value)) (toLex (o.rank, o.value))

variable {d : Decimal}

theorem Decimal.abs_pos (h : d.coeff ≠ 0) : 0 < d.abs := by
  unfold Decimal.abs
  positivity

/-- The ascending codes, by the rank and the sign of the decimal. -/
inductive AscendingCode (d : Decimal) : Bytes → Prop where
  | special (x : UInt8) (hr : d.rank ≠ 2) (hr3 : d.rank ≤ 3) (hv : d.value = 0)
      (hx : x.toNat = if d.rank = 3 then 53 else 24 + d.rank) : AscendingCode d [x]
  | zero (hr : d.rank = 2) (hv : d.value = 0) : AscendingCode d [decimalZero]
  | negative (hr : d.rank = 2) (hc : d.coeff ≠ 0) (hv : d.value = -d.abs) :
      AscendingCode d (encodeNonzero true d)
  | positive (hr : d.rank = 2) (hc : d.coeff ≠ 0) (hv : d.value = d.abs) :
      AscendingCode d (encodeNonzero false d)

theorem ascendingCode_encodeDecimalAscending (d : Decimal) (h : d.form ≠ .naNSignaling) :
    ∃ a, encodeDecimalAscending d = some a ∧ AscendingCode d a := by
  obtain ⟨form, negative, exponent, coeff, hlen⟩ := d
  unfold encodeDecimalAscending encodeDecimal
  cases form with
  | finite =>
    by_cases hc : coeff = 0
    · refine ⟨_, if_pos ⟨rfl, hc⟩, .zero rfl ?_⟩
      cases negative <;> simp [Decimal.value, Decimal.abs, hc]
    · rw [if_neg fun hz => hc hz.2]
      cases negative with
      | true => exact ⟨_, rfl, .negative rfl hc rfl⟩
      | false => exact ⟨_, rfl, .positive rfl hc rfl⟩
  | infinite =>
    cases negative with
    | true | false =>
      exact ⟨_, rfl, .special _ (by simp [Decimal.rank]) (by simp [Decimal.rank]) rfl rfl⟩
  | naN => exact ⟨_, rfl, .special _ (by simp [Decimal.rank]) (by simp [Decimal.rank]) rfl rfl⟩
  | naNSignaling => exact absurd rfl h

variable {a : Bytes}

theorem AscendingCode.head (h : AscendingCode d a) :
    ∃ x s, a = x :: s ∧ (d.rank ≠ 2 → x.toNat = if d.rank = 3 then 53 else 24 + d.rank) ∧
      (d.rank = 2 → 26 ≤ x.toNat ∧ x.toNat ≤ 52 ∧ (d.value < 0 → x.toNat ≤ 38) ∧
        (d.value = 0 → x.toNat = 39) ∧ (0 < d.value → 40 ≤ x.toNat)) ∧ d.rank ≤ 3 := by
  cases h with
  | special x hr hr3 hv hx => exact ⟨x, [], rfl, fun _ => hx, fun h2 => absurd h2 hr, hr3⟩
  | zero hr hv =>
    refine ⟨_, [], rfl, fun h2 => absurd hr h2,
      fun _ => ⟨by decide, by decide, ?_, ?_, ?_⟩, by omega⟩
    · exact fun hneg => absurd hv hneg.ne
    · exact fun _ => by decide
    · exact fun hpos => absurd hv hpos.ne'
  | negative hr hc hv =>
    obtain ⟨x, s, hxs, hlo, hhi⟩ := encodeNonzero_head true d
    have hpos := Decimal.abs_pos hc
    refine ⟨x, s, hxs, fun h2 => absurd hr h2, fun _ => ⟨hlo, by omega, fun _ => hhi, ?_, ?_⟩,
      by omega⟩
    · exact fun h0 => by linarith
    · exact fun h0 => by linarith
  | positive hr hc hv =>
    obtain ⟨x, s, hxs, hlo, hhi⟩ := encodeNonzero_head false d
    have hpos := Decimal.abs_pos hc
    refine ⟨x, s, hxs, fun h2 => absurd hr h2, fun _ => ⟨by omega, hhi, ?_, ?_, fun _ => hlo⟩,
      by omega⟩
    · exact fun h0 => by linarith
    · exact fun h0 => by linarith

variable {o : Decimal}

theorem diffLt_encodeNonzero (hd : d.coeff ≠ 0) (ho : o.coeff ≠ 0) (h : d.abs < o.abs) :
    DiffLt (encodeNonzero false d) (encodeNonzero false o) ∧
    DiffLt (encodeNonzero true o) (encodeNonzero true d) := by
  obtain ⟨hpos, hneg⟩ := sortsAs_encodeNonzero d o hd ho
  rw [compare_lt_iff_lt.mpr h] at hpos hneg
  exact ⟨hpos, hneg⟩

variable {b : Bytes}

theorem AscendingCode.diffLt_of_value (hd : AscendingCode d a) (ho : AscendingCode o b)
    (hr : d.rank = 2) (hr' : o.rank = 2) (h : d.value < o.value) : DiffLt a b := by
  obtain ⟨x, s, hxs, -, hx, -⟩ := hd.head
  obtain ⟨y, t, hyt, -, hy, -⟩ := ho.head
  obtain ⟨-, -, hxneg, hxzero, -⟩ := hx hr
  obtain ⟨-, -, -, hyzero, hypos⟩ := hy hr'
  have hhead (h' : x.toNat < y.toNat) : DiffLt a b := by
    rw [hxs, hyt]
    exact .inl h'
  rcases lt_trichotomy d.value 0 with hd0 | hd0 | hd0
  · have hx38 := hxneg hd0
    rcases lt_trichotomy o.value 0 with ho0 | ho0 | ho0
    · cases hd with
      | special x hr2 hr3 hv hx => exact absurd hr hr2
      | zero _ hv => exact absurd hv hd0.ne
      | positive _ hc hv => linarith [Decimal.abs_pos hc]
      | negative _ hc hv => cases ho with
        | special x hr2 hr3 hv hx => exact absurd hr' hr2
        | zero _ hv' => exact absurd hv' ho0.ne
        | positive _ hc' hv' => linarith [Decimal.abs_pos hc']
        | negative _ hc' hv' => exact (diffLt_encodeNonzero hc' hc (by linarith)).2
    · have hy39 := hyzero ho0
      exact hhead (by omega)
    · have hy40 := hypos ho0
      exact hhead (by omega)
  · have hx39 := hxzero hd0
    have hy40 := hypos (by linarith)
    exact hhead (by omega)
  · cases hd with
    | special x hr2 hr3 hv hx => exact absurd hr hr2
    | zero _ hv => exact absurd hv hd0.ne'
    | negative _ hc hv => linarith [Decimal.abs_pos hc]
    | positive _ hc hv => cases ho with
      | special x hr2 hr3 hv hx => exact absurd hr' hr2
      | zero _ hv' => linarith
      | negative _ hc' hv' => linarith [Decimal.abs_pos hc']
      | positive _ hc' hv' => exact (diffLt_encodeNonzero hc hc' (by linarith)).1

theorem AscendingCode.value_eq_zero (h : AscendingCode d a) (hr : d.rank ≠ 2) : d.value = 0 := by
  cases h with
  | special x hr2 hr3 hv hx => exact hv
  | zero hr2 hv | negative hr2 hc hv | positive hr2 hc hv => exact absurd hr2 hr

theorem AscendingCode.diffLt (hd : AscendingCode d a) (ho : AscendingCode o b)
    (h : toLex (d.rank, d.value) < toLex (o.rank, o.value)) : DiffLt a b := by
  rcases Prod.Lex.toLex_lt_toLex.mp h with hr | ⟨hr, hv⟩
  · obtain ⟨x, s, rfl, hx, hx2, hd3⟩ := hd.head
    obtain ⟨y, t, rfl, hy, hy2, ho3⟩ := ho.head
    left
    by_cases hd2 : d.rank = 2
    · have hy53 := hy (by omega)
      rw [if_pos (by omega)] at hy53
      omega
    · have hxr := hx hd2
      rw [if_neg (by omega)] at hxr
      by_cases ho2 : o.rank = 2
      · omega
      · have hyr := hy ho2
        split_ifs at hyr <;> omega
  · by_cases hd2 : d.rank = 2
    · exact hd.diffLt_of_value ho hd2 (by omega) hv
    · rw [hd.value_eq_zero hd2, ho.value_eq_zero (by omega)] at hv
      exact absurd hv (lt_irrefl 0)

theorem AscendingCode.eq (hd : AscendingCode d a) (ho : AscendingCode o b) (hr : d.rank = o.rank)
    (hv : d.value = o.value) : a = b := by
  have hnonzero (n : Bool) (hc : d.coeff ≠ 0) (hc' : o.coeff ≠ 0) (habs : d.abs = o.abs) :
      encodeNonzero n d = encodeNonzero n o := by
    obtain ⟨hpos, hneg⟩ := sortsAs_encodeNonzero d o hc hc'
    rw [compare_eq_iff_eq.mpr habs] at hpos hneg
    cases n with
    | false => exact hpos
    | true => exact hneg
  cases hd with
  | special x hr2 hr3 hv hx => cases ho with
    | special y hr2' hr3' hv' hy =>
      rw [← hr, ← hx] at hy
      rw [UInt8.toNat_inj.mp hy]
    | zero hr' _ | negative hr' _ _ | positive hr' _ _ => exact absurd (hr.trans hr') hr2
  | zero hr2 hv0 => cases ho with
    | special y hr2' hr3' hv' hy => exact absurd (hr.symm.trans hr2) hr2'
    | zero _ _ => rfl
    | negative _ hc' hv' | positive _ hc' hv' => linarith [Decimal.abs_pos hc']
  | negative hr2 hc hvd => cases ho with
    | special y hr2' hr3' hv' hy => exact absurd (hr.symm.trans hr2) hr2'
    | zero _ hv' => linarith [Decimal.abs_pos hc]
    | negative _ hc' hv' => exact hnonzero true hc hc' (by linarith)
    | positive _ hc' hv' => linarith [Decimal.abs_pos hc, Decimal.abs_pos hc']
  | positive hr2 hc hvd => cases ho with
    | special y hr2' hr3' hv' hy => exact absurd (hr.symm.trans hr2) hr2'
    | zero _ hv' => linarith [Decimal.abs_pos hc]
    | negative _ hc' hv' => linarith [Decimal.abs_pos hc, Decimal.abs_pos hc']
    | positive _ hc' hv' => exact hnonzero false hc hc' (by linarith)

theorem AscendingCode.sortsAs (hd : AscendingCode d a) (ho : AscendingCode o b) :
    SortsAs (d.numericCompare o) a b := by
  unfold Decimal.numericCompare
  rcases lt_trichotomy (toLex (d.rank, d.value)) (toLex (o.rank, o.value)) with h | h | h
  · rw [compare_lt_iff_lt.mpr h]
    exact hd.diffLt ho h
  · rw [compare_eq_iff_eq.mpr h]
    have hpair := Prod.mk.injEq .. ▸ toLex.injective h
    exact hd.eq ho hpair.1 hpair.2
  · rw [compare_gt_iff_gt.mpr h]
    exact ho.diffLt hd h

def Decimal.neg (d : Decimal) : Decimal := { d with negative := !d.negative }

theorem encodeDecimalDescending_eq (d : Decimal) : encodeDecimalDescending d =
      if d.form = .naN then some [decimalNaNDesc] else encodeDecimalAscending d.neg := by
  obtain ⟨form, negative, exponent, coeff, hlen⟩ := d
  cases form <;> cases negative <;> rfl

theorem Decimal.rank_neg (h : d.rank ≠ 0) : d.neg.rank = 4 - d.rank := by
  obtain ⟨form, negative, exponent, coeff, hlen⟩ := d
  cases form <;> cases negative <;> first | rfl | exact absurd rfl h

theorem Decimal.value_neg (d : Decimal) : d.neg.value = -d.value := by
  obtain ⟨form, negative, exponent, coeff, hlen⟩ := d
  cases form <;> cases negative <;> simp [Decimal.neg, Decimal.value, Decimal.abs]

theorem Decimal.rank_eq_zero (h : d.form ≠ .naNSignaling) : d.rank = 0 ↔ d.form = .naN := by
  obtain ⟨form, negative, exponent, coeff, hlen⟩ := d
  cases form <;> cases negative <;> simp_all [Decimal.rank]

theorem Decimal.rank_le (d : Decimal) : d.rank ≤ 3 := by
  obtain ⟨form, negative, exponent, coeff, hlen⟩ := d
  cases form <;> cases negative <;> simp [Decimal.rank]

theorem Decimal.neg_lt (hd : d.rank ≠ 0) (ho : o.rank ≠ 0)
    (h : toLex (d.rank, d.value) < toLex (o.rank, o.value)) :
    toLex (o.neg.rank, o.neg.value) < toLex (d.neg.rank, d.neg.value) := by
  have ho3 := o.rank_le
  rw [rank_neg hd, rank_neg ho, value_neg, value_neg]
  rw [Prod.Lex.toLex_lt_toLex] at h ⊢
  rcases h with h | ⟨hr, hv⟩
  · exact .inl (by dsimp only at h ⊢; omega)
  · exact .inr ⟨by dsimp only at hr ⊢; omega, by simpa using hv⟩

theorem Decimal.numericCompare_neg (hd : d.rank ≠ 0) (ho : o.rank ≠ 0) :
    d.neg.numericCompare o.neg = (d.numericCompare o).swap := by
  unfold Decimal.numericCompare
  rcases lt_trichotomy (toLex (d.rank, d.value)) (toLex (o.rank, o.value)) with h | h | h
  · rw [compare_lt_iff_lt.mpr h, compare_gt_iff_gt.mpr (neg_lt hd ho h)]
    rfl
  · have hpair := Prod.mk.injEq .. ▸ toLex.injective h
    rw [compare_eq_iff_eq.mpr h, rank_neg hd, rank_neg ho, value_neg, value_neg, hpair.1, hpair.2]
    exact compare_eq_iff_eq.mpr rfl
  · rw [compare_gt_iff_gt.mpr h, compare_lt_iff_lt.mpr (neg_lt ho hd h)]
    rfl

theorem AscendingCode.diffLt_naNDesc (h : AscendingCode d a) : DiffLt a [decimalNaNDesc] := by
  obtain ⟨x, s, rfl, hx, hx2, h3⟩ := h.head
  have hnan : decimalNaNDesc.toNat = 54 := rfl
  left
  by_cases h2 : d.rank = 2
  · omega
  · have hxr := hx h2
    split_ifs at hxr <;> omega

theorem Decimal.lt_of_naN (hd : d.rank = 0) (ho : o.rank ≠ 0) :
    toLex (d.rank, d.value) < toLex (o.rank, o.value) :=
  Prod.Lex.toLex_lt_toLex.mpr (.inl (by dsimp only; omega))

theorem Decimal.numericCompare_naN (hd : d.form = .naN) (ho : o.form = .naN) :
    d.numericCompare o = .eq := by
  apply compare_eq_iff_eq.mpr
  simp [Decimal.rank, Decimal.value, hd, ho]

theorem sortsAs_encodeDecimalAscending (d o : Decimal) (hd : d.form ≠ .naNSignaling)
    (ho : o.form ≠ .naNSignaling) :
    ∃ a b, encodeDecimalAscending d = some a ∧ encodeDecimalAscending o = some b ∧
      SortsAs (d.numericCompare o) a b := by
  obtain ⟨a, ha, hda⟩ := ascendingCode_encodeDecimalAscending d hd
  obtain ⟨b, hb, hob⟩ := ascendingCode_encodeDecimalAscending o ho
  exact ⟨a, b, ha, hb, hda.sortsAs hob⟩

theorem sortsAs_encodeDecimalDescending (d o : Decimal) (hd : d.form ≠ .naNSignaling)
    (ho : o.form ≠ .naNSignaling) :
    ∃ a b, encodeDecimalDescending d = some a ∧ encodeDecimalDescending o = some b ∧
      SortsAs (d.numericCompare o).swap a b := by
  obtain ⟨a, ha, hda⟩ := ascendingCode_encodeDecimalAscending d.neg hd
  obtain ⟨b, hb, hob⟩ := ascendingCode_encodeDecimalAscending o.neg ho
  have hdr := Decimal.rank_eq_zero hd
  have hor := Decimal.rank_eq_zero ho
  rw [encodeDecimalDescending_eq, encodeDecimalDescending_eq, ha, hb]
  by_cases hdn : d.form = .naN
  · rw [if_pos hdn]
    by_cases hon : o.form = .naN
    · rw [if_pos hon, Decimal.numericCompare_naN hdn hon]
      exact ⟨_, _, rfl, rfl, rfl⟩
    · have hlt := Decimal.lt_of_naN (hdr.mpr hdn) (mt hor.mp hon)
      rw [if_neg hon, Decimal.numericCompare, compare_lt_iff_lt.mpr hlt]
      exact ⟨_, _, rfl, rfl, hob.diffLt_naNDesc⟩
  · rw [if_neg hdn]
    by_cases hon : o.form = .naN
    · have hgt := Decimal.lt_of_naN (hor.mpr hon) (mt hdr.mp hdn)
      rw [if_pos hon, Decimal.numericCompare, compare_gt_iff_gt.mpr hgt]
      exact ⟨_, _, rfl, rfl, hda.diffLt_naNDesc⟩
    · rw [if_neg hon, ← Decimal.numericCompare_neg (mt hdr.mp hdn) (mt hor.mp hon)]
      exact ⟨_, _, rfl, rfl, hda.sortsAs hob⟩

/-- Decimal codes sort as the numbers ascending and in reverse descending, equal numbers have one
code, and no code is a proper prefix of another. -/
theorem encodeDecimal_order (d o : Decimal) (hd : d.form ≠ .naNSignaling)
    (ho : o.form ≠ .naNSignaling) :
    (∃ a b, encodeDecimalAscending d = some a ∧ encodeDecimalAscending o = some b ∧
      bytesCompare a b = d.numericCompare o ∧ (d.numericCompare o = .eq → a = b) ∧
      (a <+: b ∨ b <+: a → a = b) ∧ ∀ s, bytesCompare (a ++ s) (b ++ s) = d.numericCompare o) ∧
    (∃ a b, encodeDecimalDescending d = some a ∧ encodeDecimalDescending o = some b ∧
      bytesCompare a b = (d.numericCompare o).swap ∧ (d.numericCompare o = .eq → a = b) ∧
      (a <+: b ∨ b <+: a → a = b) ∧
      ∀ s, bytesCompare (a ++ s) (b ++ s) = (d.numericCompare o).swap) := by
  have hpre {c : Ordering} {a b : Bytes} (h : SortsAs c a b) (hp : a <+: b ∨ b <+: a) :
      a = b := by
    rcases hp with hp | hp
    · exact h.eq_of_prefix hp
    · exact (h.swap.eq_of_prefix hp).symm
  constructor
  · obtain ⟨a, b, ha, hb, h⟩ := sortsAs_encodeDecimalAscending d o hd ho
    refine ⟨a, b, ha, hb, h.bytesCompare_eq, ?_, hpre h, ?_⟩
    · exact fun heq => bytesCompare_eq_iff.mp (h.bytesCompare_eq.trans heq)
    · exact fun s => (h.append_right s).bytesCompare_eq
  · obtain ⟨a, b, ha, hb, h⟩ := sortsAs_encodeDecimalDescending d o hd ho
    refine ⟨a, b, ha, hb, h.bytesCompare_eq, ?_, hpre h, ?_⟩
    · exact fun heq => bytesCompare_eq_iff.mp (h.bytesCompare_eq.trans (by rw [heq]; rfl))
    · exact fun s => (h.append_right s).bytesCompare_eq

/-- The decimal 1. -/
def one : Decimal := ⟨.finite, false, 0, 1, by norm_num [digits]⟩

/-- The decimal 10E-1. -/
def tenTenths : Decimal := ⟨.finite, false, -1, 10, by norm_num [digits]⟩

theorem encodeDecimal_order_one : one.numericCompare tenTenths = .eq ∧
    ∃ a, encodeDecimalAscending one = some a ∧ encodeDecimalAscending tenTenths = some a := by
  have hcmp : one.numericCompare tenTenths = .eq := by
    have hexp : (-1 : Int32).toInt = -1 := by decide
    apply compare_eq_iff_eq.mpr
    norm_num [one, tenTenths, Decimal.rank, Decimal.value, Decimal.abs, hexp, Int32.toInt_zero]
  obtain ⟨⟨a, b, ha, hb, -, heq, -⟩, -⟩ :=
    encodeDecimal_order one tenTenths (by decide) (by decide)
  exact ⟨hcmp, a, ha, by rw [heq hcmp]; exact hb⟩

end Cockroach.Encoding
