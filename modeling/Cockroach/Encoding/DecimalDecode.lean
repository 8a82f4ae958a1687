import Cockroach.Encoding.Decimal
import Cockroach.Encoding.VarintDecode

/-! Decoding of decimals from keys, and the length of their codes. -/
namespace Cockroach.Encoding
open ByteOrder Positional List
open Outcome (ok_bind)

/-- Two decimal digits for every byte of a mantissa. -/
def expandMantissa : Bytes → Outcome CodeError (List ℕ)
  | [] => .ok []
  | v :: m =>
    let t := v.toNat / 2
    if t > 99 then .error (.centimal t)
    else expandMantissa m >>= fun b => pure (t / 10 :: t % 10 :: b)

/-- A decimal with the given digits. No slice has room for more of them. -/
def decimalOfDigits (negative : Bool) (exp : ℤ) (b : List ℕ) : Outcome CodeError Decimal :=
  if h : (digits 10 (Nat.ofDigits 10 b.reverse)).length < 2 ^ 62 then
    .ok ⟨.finite, negative, Int32.ofInt exp, Nat.ofDigits 10 b.reverse, h⟩
  else .panic

def makeDecimalFromMandE (negative : Bool) (e : ℤ) (m : Bytes) : Outcome CodeError Decimal :=
  if m = [] then .error .mantissaEmpty
  else expandMantissa m >>= fun b =>
    let b := if b.getLast? = some 0 then b.dropLast else b
    decimalOfDigits negative (2 * e - b.length) b

def findDecimalTerminator (buf : Bytes) : Outcome CodeError ℕ :=
  .ofOption .terminator (buf.idxOf? decimalTerminator)

/-- The mantissa in front of the terminator and what is behind it. -/
def splitMantissa (negative : Bool) (r : Bytes) : Outcome CodeError (Bytes × Bytes) :=
  findDecimalTerminator r >>= fun idx =>
    pure (if negative then complement (r.take idx) else r.take idx, r.drop (idx + 1))

/-- Each of the three kinds of numbers gets the bytes behind the tag. -/
def decodeSmallNumber (negative : Bool) (buf : Bytes) : Outcome CodeError (ℤ × Bytes × Bytes) :=
  .ofOption .uvarint (if negative then decodeUvarintAscending buf else decodeUvarintDescending buf)
    >>= fun (r, ex) => splitMantissa negative r >>= fun m => pure ((-ex).toInt64.toInt, m)

def decodeMediumNumber (negative : Bool) (tag : UInt8) (buf : Bytes) :
    Outcome CodeError (ℤ × Bytes × Bytes) :=
  splitMantissa negative buf >>= fun m =>
    pure ((if negative then decimalNegMedium - tag else tag - decimalPosMedium).toNat, m)

def decodeLargeNumber (negative : Bool) (buf : Bytes) : Outcome CodeError (ℤ × Bytes × Bytes) :=
  .ofOption .uvarint (if negative then decodeUvarintDescending buf else decodeUvarintAscending buf)
    >>= fun (r, ex) => splitMantissa negative r >>= fun m => pure (ex.toInt64.toInt, m)

/-- The number from its parts, with the bytes behind them. -/
def makeDecoded (negative : Bool) (parts : Outcome CodeError (ℤ × Bytes × Bytes)) :
    Outcome CodeError (Bytes × Decimal) :=
  parts >>= fun (e, m, r) => makeDecimalFromMandE negative e m >>= fun d => pure (r, d)

/-- A value without digits. -/
def specialDecimal (form : Form) (negative : Bool) : Decimal :=
  ⟨form, negative, 0, 0, by norm_num [digits]⟩

def decodeDecimal (buf : Bytes) (invert : Bool) : Outcome CodeError (Bytes × Decimal) :=
  match buf with
  | [] => .panic
  | tag :: r =>
    if tag = decimalNaN ∨ tag = decimalNaNDesc then .ok (r, specialDecimal .naN false)
    else if tag = decimalInfinity then .ok (r, specialDecimal .infinite invert)
    else if tag = decimalNegativeInfinity then .ok (r, specialDecimal .infinite !invert)
    else if tag = decimalZero then .ok (r, specialDecimal .finite false)
    else if tag = decimalNegLarge then makeDecoded (!invert) (decodeLargeNumber true r)
    else if tag > decimalNegLarge ∧ tag ≤ decimalNegMedium then
      makeDecoded (!invert) (decodeMediumNumber true tag r)
    else if tag = decimalNegSmall then makeDecoded (!invert) (decodeSmallNumber true r)
    else if tag = decimalPosLarge then makeDecoded invert (decodeLargeNumber false r)
    else if tag ≥ decimalPosMedium ∧ tag < decimalPosLarge then
      makeDecoded invert (decodeMediumNumber false tag r)
    else if tag = decimalPosSmall then makeDecoded invert (decodeSmallNumber false r)
    else .error .unknownPrefix

def decodeDecimalAscending (buf : Bytes) : Outcome CodeError (Bytes × Decimal) :=
  decodeDecimal buf false

def decodeDecimalDescending (buf : Bytes) : Outcome CodeError (Bytes × Decimal) :=
  decodeDecimal buf true

/-- The bytes up to the terminator, behind a prefix of the given length. -/
def decimalEnd (buf : Bytes) (p : ℕ) : Outcome CodeError ℕ :=
  Outcome.sliceFrom buf p >>= fun r => findDecimalTerminator r >>= fun idx => pure (p + idx + 1)

def getDecimalLen (buf : Bytes) : Outcome CodeError ℕ :=
  match buf with
  | [] => .panic
  | m :: r =>
    if m < decimalNaN ∨ m > decimalNaNDesc then .panic
    else if m = decimalNaN ∨ m = decimalNegativeInfinity ∨ m = decimalNaNDesc ∨
        m = decimalInfinity ∨ m = decimalZero then .ok 1
    else if m = decimalNegLarge ∨ m = decimalNegSmall ∨ m = decimalPosLarge ∨
        m = decimalPosSmall then
      getVarintLen r >>= fun l => decimalEnd buf (1 + l)
    else decimalEnd buf 1

section Mantissa

variable {m : Bytes}

theorem idxOf?_append_cons {x : UInt8} (h : x ∉ m) (s : Bytes) :
    (m ++ x :: s).idxOf? x = some m.length := by
  induction m with
  | nil => simp [idxOf?_cons]
  | cons y m ih =>
    rw [mem_cons, not_or] at h
    rw [cons_append, idxOf?_cons, ih h.2, if_neg (by simpa using Ne.symm h.1)]
    rfl

theorem findDecimalTerminator_append (h : decimalTerminator ∉ m) (s : Bytes) :
    findDecimalTerminator (m ++ decimalTerminator :: s) = .ok m.length := by
  rw [findDecimalTerminator, idxOf?_append_cons h]
  rfl

theorem complement_complement (a : Bytes) : complement (complement a) = a := by
  induction a with
  | nil => rfl
  | cons x a ih => rw [complement_cons, complement_cons, ih, UInt8.not_not]

theorem splitMantissa_append (negative : Bool) (h : decimalTerminator ∉ m)
    (h' : decimalTerminator ∉ complement m) (s : Bytes) :
    splitMantissa negative ((if negative then complement m else m) ++ decimalTerminator :: s) =
      .ok (m, s) := by
  have hdrop (a : Bytes) : (a ++ decimalTerminator :: s).drop (a.length + 1) = s := by
    rw [← drop_drop, drop_left]
    rfl
  unfold splitMantissa
  cases negative with
  | true =>
    rw [if_pos rfl, findDecimalTerminator_append h', ok_bind, take_left,
      complement_complement, hdrop]
    rfl
  | false =>
    rw [if_neg (by decide), findDecimalTerminator_append h, ok_bind, take_left, hdrop]
    rfl

theorem terminator_notMem_mantissa {xs : List ℕ} (h : Canonical 100 xs) :
    decimalTerminator ∉ mantissa xs ∧ decimalTerminator ∉ complement (mantissa xs) := by
  induction xs with
  | nil => exact ⟨not_mem_nil, not_mem_nil⟩
  | cons x xs ih =>
    obtain ⟨c, hc, hcx⟩ := mantissa_cons (h.1 x mem_cons_self) xs
    obtain ⟨hmem, hmem'⟩ := ih h.tail
    have hx := h.1 x mem_cons_self
    have hzero : decimalTerminator.toNat = 0 := rfl
    have hlast : xs = [] → x ≠ 0 := by
      intro hnil hx0
      exact h.2 (by rw [hnil, hx0]; rfl)
    have hpos : c.toNat ≠ 0 ∧ c.toNat < 255 := by
      split_ifs at hcx with hnil
      · have := hlast hnil
        omega
      · omega
    rw [hc, complement_cons]
    constructor
    · rw [mem_cons, not_or]
      refine ⟨?_, hmem⟩
      intro heq
      rw [← heq] at hpos
      exact hpos.1 hzero
    · rw [mem_cons, not_or]
      refine ⟨?_, hmem'⟩
      intro heq
      have hnot := congrArg UInt8.toNat heq
      rw [UInt8.toNat_not] at hnot
      have hsize : UInt8.size = 256 := rfl
      omega

theorem expandMantissa_mantissa {xs : List ℕ} (h : ∀ x ∈ xs, x < 100) :
    expandMantissa (mantissa xs) = .ok (xs.flatMap fun x => [x / 10, x % 10]) := by
  induction xs with
  | nil => rfl
  | cons x xs ih =>
    obtain ⟨c, hc, hcx⟩ := mantissa_cons (h x mem_cons_self) xs
    have hx := h x mem_cons_self
    have hhalf : c.toNat / 2 = x := by
      split_ifs at hcx <;> omega
    rw [hc, expandMantissa, hhalf, if_neg (by omega), ih fun y hy => h y (mem_cons_of_mem _ hy)]
    rfl

theorem expand_pairs {ys : List ℕ} (h : ∀ y ∈ ys, y < 10) (heven : ys.length % 2 = 0) :
    ((pairs 10 ys).flatMap fun x => [x / 10, x % 10]) = ys := by
  induction ys using pairs.induct with
  | case1 x y ys ih =>
    have hy : y < 10 := h y (by simp)
    rw [pairs, flatMap_cons, ih (fun z hz => h z (by simp [hz])) (by
      simp only [length_cons] at heven; omega), show (10 * x + y) / 10 = x by omega,
      show (10 * x + y) % 10 = y by omega]
    rfl
  | case2 ys hys =>
    cases ys with
    | nil => rfl
    | cons x t =>
      cases t with
      | nil => simp at heven
      | cons y t => exact absurd rfl (hys x y t)

end Mantissa

section Coefficient

def trailingZeros (n : ℕ) : ℕ := ((Nat.digits 10 n).takeWhile (· = 0)).length

/-- The number without the zeros at its end. -/
def significant (n : ℕ) : ℕ := Nat.ofDigits 10 ((Nat.digits 10 n).dropWhile (· = 0))

theorem ofDigits_takeWhile_zero (l : List ℕ) : Nat.ofDigits 10 (l.takeWhile (· = 0)) = 0 := by
  induction l with
  | nil => rfl
  | cons x l ih =>
    by_cases hx : x = 0
    · rw [takeWhile_cons_of_pos (by simpa using hx), Nat.ofDigits_cons, ih, hx]
    · rw [takeWhile_cons_of_neg (by simpa using hx)]
      rfl

theorem significant_mul (n : ℕ) : significant n * 10 ^ trailingZeros n = n := by
  have hsplit := congrArg (Nat.ofDigits 10)
    (takeWhile_append_dropWhile (p := fun x => decide (x = 0)) (l := Nat.digits 10 n))
  rw [Nat.ofDigits_append, ofDigits_takeWhile_zero, Nat.ofDigits_digits, Nat.zero_add] at hsplit
  rw [trailingZeros, Nat.mul_comm]
  exact hsplit

theorem significant_le (n : ℕ) : significant n ≤ n := by
  have h := significant_mul n
  have hpos : 0 < 10 ^ trailingZeros n := by positivity
  calc significant n ≤ significant n * 10 ^ trailingZeros n := Nat.le_mul_of_pos_right _ hpos
    _ = n := h

theorem significant_pos {n : ℕ} (hn : n ≠ 0) : 0 < significant n := by
  rw [Nat.pos_iff_ne_zero]
  intro hzero
  have h := significant_mul n
  rw [hzero, Nat.zero_mul] at h
  exact hn h.symm

theorem dropWhile_digits_ne_nil {n : ℕ} (hn : n ≠ 0) :
    (Nat.digits 10 n).dropWhile (· = 0) ≠ [] := by
  intro hnil
  have h := significant_pos hn
  rw [significant, hnil] at h
  exact absurd h (by decide)

variable {d : Decimal}

theorem pointDigits_eq (h : d.coeff ≠ 0) : pointDigits d =
    (if exponent100 (exponent10 d) * 2 = exponent10 d then [] else [0]) ++
      ((Nat.digits 10 d.coeff).dropWhile (· = 0)).reverse := by
  have htmp : (0 :: digits 10 d.coeff).rdropWhile (· = 0) =
      0 :: ((Nat.digits 10 d.coeff).dropWhile (· = 0)).reverse := by
    have hne := dropWhile_digits_ne_nil h
    rw [List.rdropWhile, reverse_cons, digits, reverse_reverse, dropWhile_append,
      if_neg (by simpa [List.isEmpty_iff] using hne), reverse_append]
    rfl
  unfold pointDigits
  rw [htmp]
  split_ifs <;> rfl

theorem ofDigits_pointDigits (h : d.coeff ≠ 0) :
    Nat.ofDigits 10 (pointDigits d).reverse = significant d.coeff := by
  rw [pointDigits_eq h, reverse_append, Nat.ofDigits_append, significant]
  split_ifs <;> simp

theorem length_takeWhile_dropWhile (n : ℕ) :
    (digits 10 n).length = trailingZeros n + ((Nat.digits 10 n).dropWhile (· = 0)).length := by
  rw [digits, length_reverse, trailingZeros, ← length_append, takeWhile_append_dropWhile]

theorem exponent_pointDigits (h : d.coeff ≠ 0) :
    2 * exponent100 (exponent10 d) - (pointDigits d).length =
      d.exponent.toInt + trailingZeros d.coeff := by
  have hlen := length_takeWhile_dropWhile d.coeff
  have hexp : exponent10 d = d.exponent.toInt + (digits 10 d.coeff).length := rfl
  rw [pointDigits_eq h, length_append, length_reverse]
  rcases exponent100_mul_two (exponent10 d) with he | he
  · rw [if_pos he, length_nil]
    omega
  · rw [if_neg (by omega), length_singleton]
    omega

theorem dropLast_padEven {xs : List ℕ} (h : xs.getLast? ≠ some 0) :
    (if (padEven xs).getLast? = some 0 then (padEven xs).dropLast else padEven xs) = xs := by
  unfold padEven
  by_cases hodd : xs.length % 2 ≠ 0
  · rw [if_pos hodd, getLast?_concat, if_pos rfl, dropLast_concat]
  · rw [if_neg hodd, if_neg h]

theorem length_digits_significant (d : Decimal) :
    (digits 10 (significant d.coeff)).length < 2 ^ 62 := by
  refine lt_of_le_of_lt ?_ d.length_lt
  rw [digits, digits, length_reverse, length_reverse]
  exact Nat.le_length_digits_le 10 _ _ (significant_le d.coeff)

/-- The decimal that is decoded from the code of a number. -/
def decodedDecimal (d : Decimal) (negative : Bool) : Decimal :=
  ⟨.finite, negative, Int32.ofInt (d.exponent.toInt + trailingZeros d.coeff), significant d.coeff,
    length_digits_significant d⟩

theorem makeDecimalFromMandE_centimals (h : d.coeff ≠ 0) (negative : Bool) :
    makeDecimalFromMandE negative (exponent100 (exponent10 d)) (mantissa (centimals d)) =
      .ok (decodedDecimal d negative) := by
  obtain ⟨hcan, -, -⟩ := pointDigits_spec d h
  have hcent := (centimals_spec d h).1
  have hne : mantissa (centimals d) ≠ [] := by
    cases hx : centimals d with
    | nil => exact absurd hx (centimals_ne_nil d h)
    | cons x xs =>
      rw [hx] at hcent
      obtain ⟨c, hc, -⟩ := mantissa_cons (hcent.1 x mem_cons_self) xs
      rw [hc]
      exact cons_ne_nil _ _
  have hexpand : ((centimals d).flatMap fun x => [x / 10, x % 10]) = padEven (pointDigits d) :=
    expand_pairs (padEven_lt (by norm_num) hcan.1) (length_padEven _)
  have hdigits := ofDigits_pointDigits h
  have hlength := length_digits_significant d
  rw [← hdigits] at hlength
  rw [makeDecimalFromMandE, if_neg hne, expandMantissa_mantissa hcent.1, ok_bind, hexpand]
  dsimp only
  rw [dropLast_padEven hcan.2, exponent_pointDigits h, decimalOfDigits, dif_pos hlength]
  simp only [hdigits]
  rfl

end Coefficient

section Code

theorem decodeDecimal_cons (tag : UInt8) (r : Bytes) (invert : Bool) :
    decodeDecimal (tag :: r) invert =
      if tag.toNat = 24 ∨ tag.toNat = 54 then .ok (r, specialDecimal .naN false)
      else if tag.toNat = 53 then .ok (r, specialDecimal .infinite invert)
      else if tag.toNat = 25 then .ok (r, specialDecimal .infinite !invert)
      else if tag.toNat = 39 then .ok (r, specialDecimal .finite false)
      else if tag.toNat = 26 then makeDecoded (!invert) (decodeLargeNumber true r)
      else if 26 < tag.toNat ∧ tag.toNat ≤ 37 then
        makeDecoded (!invert) (decodeMediumNumber true tag r)
      else if tag.toNat = 38 then makeDecoded (!invert) (decodeSmallNumber true r)
      else if tag.toNat = 52 then makeDecoded invert (decodeLargeNumber false r)
      else if 41 ≤ tag.toNat ∧ tag.toNat < 52 then
        makeDecoded invert (decodeMediumNumber false tag r)
      else if tag.toNat = 40 then makeDecoded invert (decodeSmallNumber false r)
      else .error .unknownPrefix := by
  simp only [decodeDecimal, ← UInt8.toNat_inj]
  rfl

theorem getDecimalLen_cons (tag : UInt8) (r : Bytes) : getDecimalLen (tag :: r) =
      if tag.toNat < 24 ∨ 54 < tag.toNat then .panic
      else if tag.toNat = 24 ∨ tag.toNat = 25 ∨ tag.toNat = 54 ∨ tag.toNat = 53 ∨
        tag.toNat = 39 then .ok 1
      else if tag.toNat = 26 ∨ tag.toNat = 38 ∨ tag.toNat = 52 ∨ tag.toNat = 40 then
        getVarintLen r >>= fun l => decimalEnd (tag :: r) (1 + l) else decimalEnd (tag :: r) 1 := by
  simp only [getDecimalLen, ← UInt8.toNat_inj]
  rfl

variable {e : ℤ}

theorem toInt_toInt64_ofNat (h : 0 ≤ e) (h' : e < 2 ^ 63) :
    (UInt64.ofNat e.toNat).toInt64.toInt = e := by
  have hnat := toNat_ofNat_toNat h'
  have hcond : (UInt64.ofNat e.toNat).toInt64.toInt =
      if 2 * (UInt64.ofNat e.toNat).toNat < 2 ^ 64 then ((UInt64.ofNat e.toNat).toNat : ℤ)
      else ((UInt64.ofNat e.toNat).toNat : ℤ) - (2 ^ 64 : ℕ) :=
    BitVec.toInt_eq_toNat_cond (UInt64.ofNat e.toNat).toBitVec
  rw [hcond]
  split_ifs <;> omega

theorem toInt_toInt64_neg (h : e < 0) (h' : -2 ^ 63 < e) :
    (-UInt64.ofNat (-e).toNat).toInt64.toInt = e := by
  have hnat := toNat_ofNat_toNat (e := -e) (by omega)
  have hneg : (-UInt64.ofNat (-e).toNat).toNat =
      (2 ^ 64 - (UInt64.ofNat (-e).toNat).toNat) % 2 ^ 64 :=
    BitVec.toNat_neg (UInt64.ofNat (-e).toNat).toBitVec
  have hcond : (-UInt64.ofNat (-e).toNat).toInt64.toInt =
      if 2 * (-UInt64.ofNat (-e).toNat).toNat < 2 ^ 64 then ((-UInt64.ofNat (-e).toNat).toNat : ℤ)
      else ((-UInt64.ofNat (-e).toNat).toNat : ℤ) - (2 ^ 64 : ℕ) :=
    BitVec.toInt_eq_toNat_cond (-UInt64.ofNat (-e).toNat).toBitVec
  rw [hcond, hneg]
  split_ifs <;> omega

/-- The exponent is decoded and the mantissa is what follows. -/
theorem decodeDecimal_exponentBytes (h : -2 ^ 63 < e) (h' : e < 2 ^ 63) (negative : Bool)
    (rest : Bytes) (invert : Bool) : decodeDecimal (exponentBytes negative e ++ rest) invert =
      makeDecoded (if negative then !invert else invert)
        (splitMantissa negative rest >>= fun m => pure (e, m)) := by
  unfold exponentBytes
  by_cases hsmall : e < 0
  · rw [if_pos hsmall]
    cases negative with
    | true =>
      change makeDecoded (!invert) (decodeSmallNumber true (_ ++ rest)) = _
      rw [decodeSmallNumber, if_pos rfl, decodeUvarintAscending_encode]
      dsimp only [Outcome.ofOption]
      rw [ok_bind, toInt_toInt64_neg hsmall h]
      rfl
    | false =>
      change makeDecoded invert (decodeSmallNumber false (_ ++ rest)) = _
      rw [decodeSmallNumber, if_neg (by decide), decodeUvarintDescending_encode]
      dsimp only [Outcome.ofOption]
      rw [ok_bind, toInt_toInt64_neg hsmall h]
      rfl
  rw [if_neg hsmall]
  by_cases hmedium : e ≤ 10
  · rw [if_pos hmedium]
    have hbyte : (UInt8.ofNat e.toNat).toNat = e.toNat := toNat_ofNat_of_le (by omega)
    have hneg : decimalNegMedium.toNat = 37 := rfl
    have hpos : decimalPosMedium.toNat = 41 := rfl
    cases negative with
    | true =>
      have htag : (decimalNegMedium - UInt8.ofNat e.toNat).toNat = 37 - e.toNat := by
        rw [UInt8.toNat_sub, hneg]
        omega
      have hexp : (decimalNegMedium - (decimalNegMedium - UInt8.ofNat e.toNat)).toNat =
          e.toNat := by
        rw [UInt8.toNat_sub, hneg]
        omega
      rw [if_pos rfl, singleton_append, decodeDecimal_cons, if_neg (by omega),
        if_neg (by omega), if_neg (by omega), if_neg (by omega), if_neg (by omega),
        if_pos (by omega), decodeMediumNumber, if_pos rfl, hexp, Int.toNat_of_nonneg (by omega)]
      rfl
    | false =>
      have htag : (decimalPosMedium + UInt8.ofNat e.toNat).toNat = 41 + e.toNat := by
        rw [UInt8.toNat_add, hpos]
        omega
      have hexp : (decimalPosMedium + UInt8.ofNat e.toNat - decimalPosMedium).toNat = e.toNat := by
        rw [UInt8.toNat_sub, hpos]
        omega
      rw [if_neg (by decide), singleton_append, decodeDecimal_cons, if_neg (by omega),
        if_neg (by omega), if_neg (by omega), if_neg (by omega), if_neg (by omega),
        if_neg (by omega), if_neg (by omega), if_neg (by omega), if_pos (by omega),
        decodeMediumNumber, if_neg (by decide), hexp, Int.toNat_of_nonneg (by omega)]
      rfl
  · rw [if_neg hmedium]
    cases negative with
    | true =>
      change makeDecoded (!invert) (decodeLargeNumber true (_ ++ rest)) = _
      rw [decodeLargeNumber, if_pos rfl, decodeUvarintDescending_encode]
      dsimp only [Outcome.ofOption]
      rw [ok_bind, toInt_toInt64_ofNat (by omega) h']
      rfl
    | false =>
      change makeDecoded invert (decodeLargeNumber false (_ ++ rest)) = _
      rw [decodeLargeNumber, if_neg (by decide), decodeUvarintAscending_encode]
      dsimp only [Outcome.ofOption]
      rw [ok_bind, toInt_toInt64_ofNat (by omega) h']
      rfl

theorem getVarintLen_uvarintAscending (v : UInt64) (s : Bytes) :
    getVarintLen (encodeUvarintAscending v ++ s) = .ok (encodeUvarintAscending v).length := by
  obtain ⟨tag, a, heq, -, -, hlen⟩ := encodeUvarintAscending_tag v
  rw [heq, getVarintLen_append hlen]

theorem getVarintLen_uvarintDescending (v : UInt64) (s : Bytes) :
    getVarintLen (encodeUvarintDescending v ++ s) = .ok (encodeUvarintDescending v).length := by
  obtain ⟨tag, a, heq, -, -, hlen⟩ := encodeUvarintDescending_tag v
  rw [heq, getVarintLen_append hlen]

theorem getDecimalLen_exponentBytes (negative : Bool) (e : ℤ) (rest : Bytes) :
    getDecimalLen (exponentBytes negative e ++ rest) =
      decimalEnd (exponentBytes negative e ++ rest) (exponentBytes negative e).length := by
  have hvar {tag : UInt8} {a : Bytes} (htag : tag.toNat = 26 ∨ tag.toNat = 38 ∨ tag.toNat = 52 ∨
      tag.toNat = 40) (ha : getVarintLen (a ++ rest) = .ok a.length) :
      getDecimalLen (tag :: a ++ rest) = decimalEnd (tag :: a ++ rest) (tag :: a).length := by
    rw [cons_append, getDecimalLen_cons, if_neg (by omega), if_neg (by omega), if_pos htag, ha,
      ok_bind, length_cons, Nat.add_comm]
  obtain ⟨x, a, hxa, hx⟩ := exponentBytes_head negative e
  unfold exponentBytes
  by_cases hsmall : e < 0
  · rw [if_pos hsmall]
    cases negative with
    | true => exact hvar (by decide) (getVarintLen_uvarintAscending _ _)
    | false => exact hvar (by decide) (getVarintLen_uvarintDescending _ _)
  rw [if_neg hsmall]
  by_cases hmedium : e ≤ 10
  · -- The tag alone says the exponent.
    have hone : exponentBytes negative e = [x] := by
      rw [exponentBytes, if_neg hsmall, if_pos hmedium] at hxa ⊢
      rw [List.cons.injEq] at hxa
      rw [hxa.1]
    rw [exponentBytes, if_neg hsmall, if_pos hmedium] at hone
    rw [if_pos hmedium, hone, singleton_append, getDecimalLen_cons, if_neg, if_neg, if_neg]
    · rfl
    all_goals split_ifs at hx <;> omega
  · rw [if_neg hmedium]
    cases negative with
    | true => exact hvar (by decide) (getVarintLen_uvarintDescending _ _)
    | false => exact hvar (by decide) (getVarintLen_uvarintAscending _ _)

theorem encodeNonzero_append (negative : Bool) (d : Decimal) (s : Bytes) :
    encodeNonzero negative d ++ s = exponentBytes negative (exponent100 (exponent10 d)) ++
      ((if negative then complement (mantissa (centimals d)) else mantissa (centimals d)) ++
        decimalTerminator :: s) := by
  rw [encodeNonzero, encodeEandM_eq, append_assoc, append_assoc]
  rfl

theorem decodeDecimal_encodeNonzero {d : Decimal} (h : d.coeff ≠ 0) (negative invert : Bool)
    (s : Bytes) : decodeDecimal (encodeNonzero negative d ++ s) invert =
      .ok (s, decodedDecimal d (if negative then !invert else invert)) := by
  obtain ⟨hlo, hhi⟩ := exponent100_bounds d
  obtain ⟨hmem, hmem'⟩ := terminator_notMem_mantissa (centimals_spec d h).1
  rw [encodeNonzero_append, decodeDecimal_exponentBytes hlo hhi,
    splitMantissa_append negative hmem hmem', ok_bind, makeDecoded, Outcome.pure_eq, ok_bind]
  dsimp only
  rw [makeDecimalFromMandE_centimals h]
  rfl

theorem getDecimalLen_encodeNonzero {d : Decimal} (h : d.coeff ≠ 0) (negative : Bool) (s : Bytes) :
    getDecimalLen (encodeNonzero negative d ++ s) = .ok (encodeNonzero negative d).length := by
  obtain ⟨hmem, hmem'⟩ := terminator_notMem_mantissa (centimals_spec d h).1
  have hlength : (encodeNonzero negative d).length =
      (exponentBytes negative (exponent100 (exponent10 d))).length +
        (if negative then complement (mantissa (centimals d))
          else mantissa (centimals d)).length + 1 := by
    rw [← append_nil (encodeNonzero negative d), encodeNonzero_append, length_append, length_append]
    rfl
  have hfind : findDecimalTerminator ((if negative then complement (mantissa (centimals d))
      else mantissa (centimals d)) ++ decimalTerminator :: s) =
        .ok (if negative then complement (mantissa (centimals d))
          else mantissa (centimals d)).length := by
    cases negative with
    | true => exact findDecimalTerminator_append hmem' s
    | false => exact findDecimalTerminator_append hmem s
  rw [hlength, encodeNonzero_append, getDecimalLen_exponentBytes, decimalEnd,
    Outcome.sliceFrom_eq_ok (by rw [length_append]; omega), drop_left, ok_bind, hfind]
  rfl

end Code

section RoundTrip

variable {d : Decimal}

theorem decodedDecimal_abs_iff (h : d.coeff ≠ 0) (negative : Bool) :
    (decodedDecimal d negative).abs = d.abs ↔
      d.exponent.toInt + trailingZeros d.coeff < 2 ^ 31 := by
  have hlo := d.exponent.le_toInt
  have hexp : (decodedDecimal d negative).exponent.toInt =
      (d.exponent.toInt + trailingZeros d.coeff).bmod (2 ^ 32) := Int32.toInt_ofInt
  have hpos : (0 : ℚ) < significant d.coeff := by exact_mod_cast significant_pos h
  have habs : d.abs = significant d.coeff * 10 ^ (d.exponent.toInt + trailingZeros d.coeff) := by
    rw [zpow_add₀ (by norm_num), zpow_natCast, Decimal.abs]
    nth_rewrite 1 [← significant_mul d.coeff]
    push_cast
    ring
  rw [habs, Decimal.abs, hexp]
  change (significant d.coeff : ℚ) * _ = _ ↔ _
  rw [mul_right_inj' hpos.ne', zpow_right_inj₀ (by norm_num) (by norm_num), Int.bmod_def]
  split_ifs <;> omega

/-- The code of a decimal in front of any bytes is decoded to the same number, and its length is
found. -/
def KeyRoundTrip (d : Decimal) (invert : Bool) (s : Bytes) : Prop :=
  ∃ code r, encodeDecimal d invert = some code ∧ decodeDecimal (code ++ s) invert = .ok (s, r) ∧
    r.form = .finite ∧ r.value = d.value ∧ getDecimalLen (code ++ s) = .ok code.length

theorem value_of_finite (h : d.form = .finite) :
    d.value = if d.negative then -d.abs else d.abs := by
  unfold Decimal.value
  rw [h]
  cases d.negative <;> rfl

theorem keyRoundTrip_iff (h : d.form = .finite) (invert : Bool) (s : Bytes) :
    KeyRoundTrip d invert s ↔ d.exponent.toInt + trailingZeros d.coeff < 2 ^ 31 := by
  by_cases hc : d.coeff = 0
  · have hzero : encodeDecimal d invert = some [decimalZero] := if_pos ⟨h, hc⟩
    have habs : d.abs = 0 := by rw [Decimal.abs, hc, Nat.cast_zero, zero_mul]
    have hvalue : d.value = 0 := by rw [value_of_finite h, habs, neg_zero, ite_self]
    have hlt := d.exponent.toInt_lt
    have htail : trailingZeros d.coeff = 0 := by rw [hc]; rfl
    refine iff_of_true ⟨_, specialDecimal .finite false, hzero, rfl, rfl, ?_, rfl⟩ (by omega)
    rw [hvalue]
    change (0 : ℕ) * (10 : ℚ) ^ _ = 0
    rw [Nat.cast_zero, zero_mul]
  · have hcode : encodeDecimal d invert = some (encodeNonzero (d.negative != invert) d) := by
      rw [encodeDecimal, if_neg fun hz => hc hz.2, h]
      rfl
    have hsign : (if (d.negative != invert) = true then !invert else invert) = d.negative := by
      cases d.negative <;> cases invert <;> rfl
    have hdecode := decodeDecimal_encodeNonzero hc (d.negative != invert) invert s
    rw [hsign] at hdecode
    rw [← decodedDecimal_abs_iff hc d.negative]
    constructor
    · rintro ⟨code, r, hcode', hdecode', -, hvalue, -⟩
      rw [hcode, Option.some.injEq] at hcode'
      rw [← hcode', hdecode, Outcome.ok.injEq, Prod.mk.injEq] at hdecode'
      rw [← hdecode'.2, value_of_finite rfl, value_of_finite h] at hvalue
      change (if d.negative then _ else _) = _ at hvalue
      split_ifs at hvalue
      · exact neg_inj.mp hvalue
      · exact hvalue
    · intro habs
      refine ⟨_, _, hcode, hdecode, rfl, ?_, getDecimalLen_encodeNonzero hc _ s⟩
      rw [value_of_finite rfl, value_of_finite h, habs]
      rfl

end RoundTrip

end Cockroach.Encoding
