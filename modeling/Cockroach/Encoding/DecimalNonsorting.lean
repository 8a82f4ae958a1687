import Cockroach.Encoding.DecimalDecode

/-! The encoding of decimals in values, which keeps the coefficient and the exponent. -/
namespace Cockroach.Encoding
open ByteOrder Positional List

/-- The number of decimal digits, which is one for zero. -/
def numDigits (n : ℕ) : ℕ := if n = 0 then 1 else (digits 10 n).length

/-- The words of a number, the lowest one first. -/
def coeffBits (n : ℕ) : List UInt64 := (Nat.digits (2 ^ 64) n).map UInt64.ofNat

/-- The bytes of the words without the zeros in front. -/
def copyWords (nat : List UInt64) : Bytes :=
  (nat.reverse.flatMap fun w => bigEndian 8 w.toNat).dropWhile (· = 0)

def encodeNonsortingDecimalValue (exp : UInt64) (digits : List UInt64) : Bytes :=
  encodeUvarintAscending exp ++ copyWords digits

def encodeNonsortingDecimalValueWithoutExp (digits : List UInt64) : Bytes := copyWords digits

/-- The cases of a finite decimal by its sign and the exponent of the point before its digits. -/
def encodeNonsortingFinite (neg : Bool) (e : ℤ) (bNat : List UInt64) : Bytes :=
  if neg ∧ e > 0 then
    decimalNegLarge :: encodeNonsortingDecimalValue (UInt64.ofNat e.toNat) bNat
  else if neg ∧ e = 0 then decimalNegMedium :: encodeNonsortingDecimalValueWithoutExp bNat
  else if neg ∧ e < 0 then
    decimalNegSmall :: encodeNonsortingDecimalValue (UInt64.ofNat (-e).toNat) bNat
  else if e < 0 then
    decimalPosSmall :: encodeNonsortingDecimalValue (UInt64.ofNat (-e).toNat) bNat
  else if e = 0 then decimalPosMedium :: encodeNonsortingDecimalValueWithoutExp bNat
  else decimalPosLarge :: encodeNonsortingDecimalValue (UInt64.ofNat e.toNat) bNat

/-- There is no code where the form is unknown and the encoder panics. -/
def encodeNonsortingDecimal (d : Decimal) : Option Bytes :=
  match d.form with
  | .finite =>
    if d.IsZero ∧ d.negative = false ∧ d.exponent = 0 then some [decimalZero]
    else some (encodeNonsortingFinite d.negative (numDigits d.coeff + d.exponent.toInt)
      (coeffBits d.coeff))
  | .infinite => some [if d.negative then decimalNegativeInfinity else decimalInfinity]
  | .naN => some [decimalNaN]
  | .naNSignaling => none

/-- A finite decimal from its parts. No slice has room for more digits. -/
def finiteDecimal (negative : Bool) (exponent : Int32) (coeff : ℕ) : Outcome CodeError Decimal :=
  if h : (digits 10 coeff).length < 2 ^ 62 then .ok ⟨.finite, negative, exponent, coeff, h⟩
  else .panic

def decodeNonsortingDecimalValue (negative negExp : Bool) (buf : Bytes) :
    Outcome CodeError Decimal :=
  .ofOption .uvarint (decodeUvarintAscending buf) >>= fun (buf, e) =>
    let e := if negExp then -e else e
    let coeff := ofBigEndian buf
    finiteDecimal negative (Int32.ofInt (e.toInt64.toInt - numDigits coeff)) coeff

def decodeNonsortingDecimalValueWithoutExp (negative : Bool) (buf : Bytes) :
    Outcome CodeError Decimal :=
  let coeff := ofBigEndian buf
  finiteDecimal negative (-Int32.ofNat (numDigits coeff)) coeff

def decodeNonsortingDecimal (buf : Bytes) : Outcome CodeError Decimal :=
  match buf with
  | [] => .panic
  | tag :: r =>
    if tag = decimalNaN then .ok (specialDecimal .naN false)
    else if tag = decimalNegativeInfinity then .ok (specialDecimal .infinite true)
    else if tag = decimalInfinity then .ok (specialDecimal .infinite false)
    else if tag = decimalZero then .ok (specialDecimal .finite false)
    else if tag = decimalNegLarge then decodeNonsortingDecimalValue true false r
    else if tag = decimalNegMedium then decodeNonsortingDecimalValueWithoutExp true r
    else if tag = decimalNegSmall then decodeNonsortingDecimalValue true true r
    else if tag = decimalPosSmall then decodeNonsortingDecimalValue false true r
    else if tag = decimalPosMedium then decodeNonsortingDecimalValueWithoutExp false r
    else if tag = decimalPosLarge then decodeNonsortingDecimalValue false false r
    else .error .unknownPrefix

theorem ofBigEndian_append (a b : Bytes) :
    ofBigEndian (a ++ b) = ofBigEndian a * 256 ^ b.length + ofBigEndian b := by
  induction b using List.reverseRecOn with
  | nil => simp [ofBigEndian]
  | append_singleton b x ih =>
    have hconcat (c : Bytes) : ofBigEndian (c ++ [x]) = ofBigEndian c * 256 + x.toNat := by
      simp [ofBigEndian]
    rw [← append_assoc, hconcat, hconcat, ih, length_append, length_singleton]
    ring

theorem ofBigEndian_dropWhile_zero (a : Bytes) :
    ofBigEndian (a.dropWhile (· = 0)) = ofBigEndian a := by
  induction a with
  | nil => rfl
  | cons x a ih =>
    by_cases hx : x = 0
    · rw [dropWhile_cons_of_pos (by simpa using hx), ih, hx]
      rfl
    · rw [dropWhile_cons_of_neg (by simpa using hx)]

theorem ofBigEndian_words (ws : List UInt64) :
    ofBigEndian (ws.reverse.flatMap fun w => bigEndian 8 w.toNat) =
      Nat.ofDigits (2 ^ 64) (ws.map UInt64.toNat) := by
  induction ws with
  | nil => rfl
  | cons w ws ih =>
    have hw : w.toNat < 256 ^ 8 := w.toNat_lt
    rw [reverse_cons, flatMap_append, ofBigEndian_append, ih, flatMap_singleton, length_bigEndian,
      ofBigEndian_bigEndian, Nat.mod_eq_of_lt hw, map_cons, Nat.ofDigits_cons]
    ring

theorem ofBigEndian_copyWords (n : ℕ) : ofBigEndian (copyWords (coeffBits n)) = n := by
  have hdigits : (coeffBits n).map UInt64.toNat = Nat.digits (2 ^ 64) n := by
    rw [coeffBits, map_map]
    refine (map_congr_left ?_).trans (map_id _)
    intro x hx
    have hlt : x < 2 ^ 64 := Nat.digits_lt_base (by norm_num) hx
    exact UInt64.toNat_ofNat_of_lt' hlt
  rw [copyWords, ofBigEndian_dropWhile_zero, ofBigEndian_words, hdigits, Nat.ofDigits_digits]

theorem decodeNonsortingDecimalValue_encode {e : ℤ} (h : -2 ^ 63 < e) (h' : e < 2 ^ 63)
    (negative : Bool) (n : ℕ) : decodeNonsortingDecimalValue negative (decide (e < 0))
        (encodeNonsortingDecimalValue (UInt64.ofNat e.natAbs) (coeffBits n)) =
      finiteDecimal negative (Int32.ofInt (e - numDigits n)) n := by
  have hexp : (if decide (e < 0) = true then -UInt64.ofNat e.natAbs
      else UInt64.ofNat e.natAbs).toInt64.toInt = e := by
    by_cases hneg : e < 0
    · rw [if_pos (decide_eq_true hneg), show e.natAbs = (-e).toNat by omega,
        toInt_toInt64_neg hneg h]
    · rw [if_neg (by simpa using hneg), show e.natAbs = e.toNat by omega,
        toInt_toInt64_ofNat (by omega) h']
  rw [decodeNonsortingDecimalValue, encodeNonsortingDecimalValue, decodeUvarintAscending_encode]
  dsimp only [Outcome.ofOption]
  rw [Outcome.ok_bind]
  rw [ofBigEndian_copyWords, hexp]

theorem decodeNonsortingDecimalValueWithoutExp_encode (negative : Bool) (n : ℕ) :
    decodeNonsortingDecimalValueWithoutExp negative
        (encodeNonsortingDecimalValueWithoutExp (coeffBits n)) =
      finiteDecimal negative (Int32.ofInt (0 - numDigits n)) n := by
  have hneg : -Int32.ofNat (numDigits n) = Int32.ofInt (0 - numDigits n) := by
    rw [Int.zero_sub, Int32.ofInt_neg, Int32.ofInt_eq_ofNat]
  rw [decodeNonsortingDecimalValueWithoutExp, encodeNonsortingDecimalValueWithoutExp,
    ofBigEndian_copyWords, hneg]

theorem decodeNonsortingDecimal_tags (r : Bytes) :
    decodeNonsortingDecimal (decimalNegLarge :: r) = decodeNonsortingDecimalValue true false r ∧
    decodeNonsortingDecimal (decimalNegMedium :: r) =
      decodeNonsortingDecimalValueWithoutExp true r ∧
    decodeNonsortingDecimal (decimalNegSmall :: r) = decodeNonsortingDecimalValue true true r ∧
    decodeNonsortingDecimal (decimalPosSmall :: r) = decodeNonsortingDecimalValue false true r ∧
    decodeNonsortingDecimal (decimalPosMedium :: r) =
      decodeNonsortingDecimalValueWithoutExp false r ∧
    decodeNonsortingDecimal (decimalPosLarge :: r) = decodeNonsortingDecimalValue false false r :=
  ⟨rfl, rfl, rfl, rfl, rfl, rfl⟩

theorem decodeNonsortingDecimal_encodeFinite {e : ℤ} (h : -2 ^ 63 < e) (h' : e < 2 ^ 63)
    (negative : Bool) (n : ℕ) :
    decodeNonsortingDecimal (encodeNonsortingFinite negative e (coeffBits n)) =
      finiteDecimal negative (Int32.ofInt (e - numDigits n)) n := by
  have hvalue := decodeNonsortingDecimalValue_encode h h' negative n
  have hzero := decodeNonsortingDecimalValueWithoutExp_encode negative n
  obtain ⟨hnl, -, hns, hps, -, hpl⟩ :=
    decodeNonsortingDecimal_tags
      (encodeNonsortingDecimalValue (UInt64.ofNat e.natAbs) (coeffBits n))
  obtain ⟨-, hnm, -, -, hpm, -⟩ :=
    decodeNonsortingDecimal_tags (encodeNonsortingDecimalValueWithoutExp (coeffBits n))
  unfold encodeNonsortingFinite
  rcases Int.lt_trichotomy e 0 with hneg | hzero' | hpos
  · rw [decide_eq_true hneg] at hvalue
    rw [show (-e).toNat = e.natAbs by omega]
    cases negative with
    | true => rw [if_neg (by omega), if_neg (by omega), if_pos ⟨rfl, hneg⟩, hns, hvalue]
    | false =>
      rw [if_neg (by simp), if_neg (by simp), if_neg (by simp), if_pos hneg, hps, hvalue]
  · cases negative with
    | true => rw [if_neg (by omega), if_pos ⟨rfl, hzero'⟩, hnm, hzero, hzero']
    | false =>
      rw [if_neg (by simp), if_neg (by simp), if_neg (by simp), if_neg (by omega), if_pos hzero',
        hpm, hzero, hzero']
  · rw [decide_eq_false (by omega)] at hvalue
    rw [show e.toNat = e.natAbs by omega]
    cases negative with
    | true => rw [if_pos ⟨rfl, hpos⟩, hnl, hvalue]
    | false =>
      rw [if_neg (by simp), if_neg (by simp), if_neg (by simp), if_neg (by omega),
        if_neg (by omega), hpl, hvalue]

/-- The decimal is decoded from its code exactly as it is. -/
def NonsortingRoundTrip (d : Decimal) : Prop :=
  ∃ code, encodeNonsortingDecimal d = some code ∧ decodeNonsortingDecimal code = .ok d

theorem nonsortingRoundTrip_of_finite {d : Decimal} (h : d.form = .finite) :
    NonsortingRoundTrip d := by
  obtain ⟨form, negative, exponent, coeff, hlen⟩ := d
  subst h
  unfold NonsortingRoundTrip encodeNonsortingDecimal
  dsimp only
  split_ifs with hzero
  · obtain ⟨⟨-, hcoeff⟩, hneg, hexp⟩ := hzero
    subst hcoeff hneg hexp
    exact ⟨_, rfl, rfl⟩
  · have hlo := exponent.le_toInt
    have hhi := exponent.toInt_lt
    have hdigits : numDigits coeff < 2 ^ 62 := by
      unfold numDigits
      split_ifs
      · norm_num
      · exact hlen
    refine ⟨_, rfl, ?_⟩
    rw [decodeNonsortingDecimal_encodeFinite (by omega) (by omega), finiteDecimal, dif_pos hlen,
      add_sub_cancel_left, Int32.ofInt_toInt]

theorem nonsortingRoundTrip_iff (d : Decimal) : NonsortingRoundTrip d ↔
    d.form = .finite ∨ d.coeff = 0 ∧ d.exponent = 0 ∧
      (d.form = .infinite ∨ d.form = .naN ∧ d.negative = false) := by
  by_cases hfinite : d.form = .finite
  · exact iff_of_true (nonsortingRoundTrip_of_finite hfinite) (.inl hfinite)
  obtain ⟨form, negative, exponent, coeff, hlen⟩ := d
  cases form with
  | finite => exact absurd rfl hfinite
  | infinite =>
    have hdecode : decodeNonsortingDecimal
        [if negative then decimalNegativeInfinity else decimalInfinity] =
          .ok (specialDecimal .infinite negative) := by
      cases negative <;> rfl
    constructor
    · rintro ⟨code, hcode, hok⟩
      rw [← Option.some.inj hcode, hdecode, Outcome.ok.injEq] at hok
      exact .inr ⟨(congrArg Decimal.coeff hok).symm, (congrArg Decimal.exponent hok).symm, .inl rfl⟩
    · rintro (h | ⟨hcoeff, hexp, -⟩)
      · exact absurd h (by simp)
      · subst hcoeff hexp
        exact ⟨_, rfl, hdecode⟩
  | naN =>
    constructor
    · rintro ⟨code, hcode, hok⟩
      rw [← Option.some.inj hcode] at hok
      have hok' : specialDecimal .naN false = _ := Outcome.ok.inj hok
      exact .inr ⟨(congrArg Decimal.coeff hok').symm, (congrArg Decimal.exponent hok').symm,
        .inr ⟨rfl, (congrArg Decimal.negative hok').symm⟩⟩
    · rintro (h | ⟨hcoeff, hexp, h | ⟨-, hneg⟩⟩)
      · exact absurd h (by simp)
      · exact absurd h (by simp)
      · subst hcoeff hexp hneg
        exact ⟨_, rfl, rfl⟩
  | naNSignaling =>
    constructor
    · rintro ⟨code, hcode, -⟩
      cases hcode
    · rintro (h | ⟨-, -, h | ⟨h, -⟩⟩)
      · exact absurd h (by simp)
      · exact absurd h (by simp)
      · exact absurd h (by simp)

/-- Both encodings of a decimal are decoded to it, the one of keys for exponents in the range of
SQL. -/
def RoundTrips (d : Decimal) : Prop :=
  (d.form = .finite → -100000 ≤ d.exponent.toInt ∧ d.exponent.toInt ≤ 100000 →
    ∀ invert s, KeyRoundTrip d invert s) ∧ NonsortingRoundTrip d

/-- The exponent that takes up the zeros at the end of the coefficient has 32 bits. -/
def ZerosFit (d : Decimal) : Prop := d.exponent.toInt + trailingZeros d.coeff < 2 ^ 31

theorem decimal_roundTrips_iff (d : Decimal) : RoundTrips d ↔
    (d.form = .finite → -100000 ≤ d.exponent.toInt ∧ d.exponent.toInt ≤ 100000 → ZerosFit d) ∧
    (d.form = .finite ∨ d.coeff = 0 ∧ d.exponent = 0 ∧
      (d.form = .infinite ∨ d.form = .naN ∧ d.negative = false)) := by
  unfold RoundTrips ZerosFit
  rw [nonsortingRoundTrip_iff]
  constructor
  · rintro ⟨hkey, hform⟩
    refine ⟨?_, hform⟩
    intro hfinite hrange
    exact (keyRoundTrip_iff hfinite false []).mp (hkey hfinite hrange false [])
  · rintro ⟨hfits, hform⟩
    refine ⟨?_, hform⟩
    intro hfinite hrange invert s
    exact (keyRoundTrip_iff hfinite invert s).mpr (hfits hfinite hrange)

theorem digits_pow_ten (k : ℕ) : Nat.digits 10 (10 ^ k) = List.replicate k 0 ++ [1] := by
  have h := Nat.digits_base_pow_mul (b := 10) (k := k) (m := 1) (by norm_num) (by norm_num)
  rw [Nat.mul_one] at h
  rw [h]
  rfl

theorem trailingZeros_pow_ten (k : ℕ) : trailingZeros (10 ^ k) = k := by
  rw [trailingZeros, digits_pow_ten, takeWhile_append_of_pos]
  · rw [length_append, length_replicate]
    rfl
  · intro x hx
    simpa using eq_of_mem_replicate hx

/-- A power of ten with the exponent zero. -/
def powerOfTen (k : ℕ) (h : k + 1 < 2 ^ 62) : Decimal :=
  ⟨.finite, false, 0, 10 ^ k, by
    rw [digits, digits_pow_ten, length_reverse, length_append, length_replicate]
    exact h⟩

theorem not_roundTrips_powerOfTen (k : ℕ) (h : k + 1 < 2 ^ 62) (hk : 2 ^ 31 ≤ k) :
    ¬ RoundTrips (powerOfTen k h) := by
  intro hround
  have hrange : -100000 ≤ (0 : Int32).toInt ∧ (0 : Int32).toInt ≤ 100000 := by decide
  have hfits : (0 : Int32).toInt + trailingZeros (10 ^ k) < 2 ^ 31 :=
    (keyRoundTrip_iff (d := powerOfTen k h) rfl false []).mp
      (hround.1 rfl hrange false [])
  rw [trailingZeros_pow_ten] at hfits
  have hzero : (0 : Int32).toInt = 0 := rfl
  omega

theorem decimal_wraps_powerOfTen : ¬ RoundTrips (powerOfTen 2147483648 (by norm_num)) :=
  not_roundTrips_powerOfTen 2147483648 (by norm_num) (by norm_num)

end Cockroach.Encoding
