import Cockroach.Library.ByteOrder

/-! Positional fractions `0.x₁x₂…xₙ` in an arbitrary base, and their order. -/
namespace Positional
open List
open ByteOrder (lexCompare)

/-- The value of the digits `x₁ x₂ …` behind the point in base `b`. -/
def frac (b : ℕ) : List ℕ → ℚ
  | [] => 0
  | x :: xs => (x + frac b xs) / b

/-- Digits of base `b` without a trailing zero. -/
def Canonical (b : ℕ) (xs : List ℕ) : Prop := (∀ x ∈ xs, x < b) ∧ xs.getLast? ≠ some 0

theorem frac_nonneg (b : ℕ) (xs : List ℕ) : 0 ≤ frac b xs := by
  induction xs with
  | nil => exact le_rfl
  | cons x xs ih =>
    unfold frac
    positivity

variable {b : ℕ} {xs : List ℕ}

theorem frac_lt_one (h : ∀ x ∈ xs, x < b) : frac b xs < 1 := by
  induction xs with
  | nil => exact zero_lt_one
  | cons x xs ih =>
    have hx : x < b := h x (by simp)
    have hi := ih fun y hy => h y (by simp [hy])
    have hxb : (x : ℚ) + 1 ≤ b := by exact_mod_cast hx
    have hb : (0 : ℚ) < b := by linarith [frac_nonneg b xs, Nat.cast_nonneg (α := ℚ) x]
    rw [frac, div_lt_one hb]
    linarith

@[simp] theorem frac_append_zero (b : ℕ) (xs : List ℕ) : frac b (xs ++ [0]) = frac b xs := by
  induction xs with
  | nil => simp [frac]
  | cons x xs ih => simp [frac, ih]

variable {x : ℕ}

theorem Canonical.tail (h : Canonical b (x :: xs)) : Canonical b xs := by
  constructor
  · exact fun y hy => h.1 y (by simp [hy])
  · cases xs with
    | nil => simp
    | cons y ys => simpa using h.2

theorem frac_pos (h : Canonical b xs) (hne : xs ≠ []) : 0 < frac b xs := by
  induction xs with
  | nil => exact absurd rfl hne
  | cons x xs ih =>
    have hx : x < b := h.1 x (by simp)
    have hb : (0 : ℚ) < b := by exact_mod_cast (show 0 < b by omega)
    cases xs with
    | nil =>
      have hx0 : 0 < x := Nat.pos_of_ne_zero fun hz => h.2 (by simp [hz])
      simp only [frac]
      positivity
    | cons y ys =>
      have hpos := ih h.tail (by simp)
      rw [frac]
      positivity

theorem frac_lt_of_lt {y : ℕ} {ys : List ℕ} (hxs : ∀ z ∈ xs, z < b) (hb : 0 < b) (h : x < y) :
    frac b (x :: xs) < frac b (y :: ys) := by
  have hbq : (0 : ℚ) < b := by exact_mod_cast hb
  have hxy : (x : ℚ) + 1 ≤ y := by exact_mod_cast h
  have hlt := frac_lt_one hxs
  have hnn := frac_nonneg b ys
  rw [frac, frac, div_lt_div_iff_of_pos_right hbq]
  linarith

theorem compare_frac {ys : List ℕ} (hx : Canonical b xs) (hy : Canonical b ys) :
    compare (frac b xs) (frac b ys) = lexCompare compare xs ys := by
  induction xs generalizing ys with
  | nil => cases ys with
    | nil => exact compare_eq_iff_eq.mpr rfl
    | cons y ys => exact compare_lt_iff_lt.mpr (frac_pos hy (by simp))
  | cons x xs ih => cases ys with
    | nil => exact compare_gt_iff_gt.mpr (frac_pos hx (by simp))
    | cons y ys =>
      have hxb : x < b := hx.1 x (by simp)
      have hb : 0 < b := by omega
      have hbq : (0 : ℚ) < b := by exact_mod_cast hb
      rw [lexCompare]
      rcases lt_trichotomy x y with h | h | h
      · rw [Nat.compare_eq_lt.mpr h, compare_lt_iff_lt.mpr (frac_lt_of_lt hx.tail.1 hb h)]
        rfl
      · subst h
        have hmono : StrictMono fun q : ℚ => (x + q) / b := by
          intro p q hpq
          rw [div_lt_div_iff_of_pos_right hbq]
          linarith
        have hcmp := hmono.cmp_map_eq (frac b xs) (frac b ys)
        rw [cmp_eq_compare, cmp_eq_compare, ih hx.tail hy.tail] at hcmp
        simpa [frac] using hcmp
      · rw [Nat.compare_eq_gt.mpr h, compare_gt_iff_gt.mpr (frac_lt_of_lt hy.tail.1 hb h)]
        rfl

/-- Two digits of base `b` make one digit of base `b ^ 2`. -/
def pairs (b : ℕ) : List ℕ → List ℕ
  | x :: y :: xs => (b * x + y) :: pairs b xs
  | _ => []

theorem frac_pairs (b : ℕ) (hb : 0 < b) (xs : List ℕ) (h : xs.length % 2 = 0) :
    frac (b * b) (pairs b xs) = frac b xs := by
  induction xs using pairs.induct with
  | case1 x y xs ih =>
    rw [pairs, frac, frac, frac, ih (by simp only [length_cons] at h; omega)]
    push_cast
    field_simp
    ring
  | case2 xs hxs =>
    match xs, hxs, h with
    | [], _, _ => rfl
    | [x], _, h => simp at h
    | x :: y :: t, hxs, _ => exact absurd rfl (hxs x y t)

theorem pairs_lt (h : ∀ x ∈ xs, x < b) : ∀ z ∈ pairs b xs, z < b * b := by
  induction xs using pairs.induct with
  | case1 x y xs ih =>
    have hx : x < b := h x (by simp)
    have hy : y < b := h y (by simp)
    intro z hz
    rw [pairs, mem_cons] at hz
    rcases hz with rfl | hz
    · nlinarith
    · exact ih (fun w hw => h w (by simp [hw])) z hz
  | case2 xs hxs =>
    intro z hz
    match xs, hxs, hz with
    | [], _, hz => simp [pairs] at hz
    | [x], _, hz => simp [pairs] at hz
    | x :: y :: t, hxs, _ => exact absurd rfl (hxs x y t)

/-- The digits of a number, the most significant one first. -/
def digits (b n : ℕ) : List ℕ := (Nat.digits b n).reverse

theorem digits_lt (hb : 1 < b) (n : ℕ) : ∀ x ∈ digits b n, x < b :=
  fun _ hx => Nat.digits_lt_base hb (mem_reverse.mp hx)

theorem digits_eq_cons (b : ℕ) {n : ℕ} (hn : n ≠ 0) : ∃ x xs, digits b n = x :: xs ∧ x ≠ 0 := by
  have hlast := Nat.getLast_digit_ne_zero b hn
  refine ⟨_, (Nat.digits b n).dropLast.reverse, ?_, hlast⟩
  rw [digits, ← reverse_concat, dropLast_append_getLast]

theorem frac_append (b : ℕ) (hb : 0 < b) (xs : List ℕ) (y : ℕ) :
    frac b (xs ++ [y]) = frac b xs + y / b ^ (xs.length + 1) := by
  induction xs with
  | nil => simp [frac]
  | cons x xs ih =>
    rw [cons_append, frac, frac, ih, length_cons]
    field_simp
    ring

/-- The digits of `n` stand for `n` shifted behind the point. -/
theorem frac_digits (b : ℕ) (hb : 1 < b) (n : ℕ) :
    frac b (digits b n) = n / (b : ℚ) ^ (digits b n).length := by
  unfold digits
  induction n using Nat.strongRecOn with
  | ind n ih =>
    rcases Nat.eq_zero_or_pos n with rfl | hn
    · simp [frac]
    · have hlt : n / b < n := Nat.div_lt_self hn hb
      have hdm : (n : ℚ) = b * (n / b : ℕ) + (n % b : ℕ) := by
        exact_mod_cast (Nat.div_add_mod n b).symm
      rw [Nat.digits_def' hb hn, reverse_cons, frac_append b (by omega), ih _ hlt]
      simp only [length_append, length_reverse, length_cons, length_nil]
      rw [hdm, pow_succ]
      field_simp

theorem frac_rdropWhile (b : ℕ) (xs : List ℕ) : frac b (xs.rdropWhile (· = 0)) = frac b xs := by
  induction xs using List.reverseRecOn with
  | nil => rfl
  | append_singleton xs x ih =>
    rw [rdropWhile_concat]
    split_ifs with hx
    · have hx0 : x = 0 := by simpa using hx
      rw [ih, hx0, frac_append_zero]
    · rfl

theorem getLast_rdropWhile (xs : List ℕ) : (xs.rdropWhile (· = 0)).getLast? ≠ some 0 := by
  by_cases hne : xs.rdropWhile (· = 0) = []
  · simp [hne]
  · have hlast := rdropWhile_last_not (fun z => decide (z = 0)) xs hne
    rw [getLast?_eq_some_getLast hne]
    simpa using hlast

theorem rdropWhile_zero_cons (hx : x ≠ 0) (xs : List ℕ) :
    ∃ ys, (0 :: x :: xs).rdropWhile (· = 0) = 0 :: x :: ys ∧ ys <+: xs := by
  have hpre := rdropWhile_prefix (fun z => decide (z = 0)) (l := 0 :: x :: xs)
  cases hr : (0 :: x :: xs).rdropWhile (· = 0) with
  | nil =>
    rw [rdropWhile_eq_nil_iff] at hr
    exact absurd (by simpa using hr x (by simp)) hx
  | cons z zs =>
    rw [hr, cons_prefix_cons] at hpre
    obtain ⟨rfl, hzs⟩ := hpre
    cases zs with
    | nil => exact absurd (by rw [hr]; rfl) (getLast_rdropWhile (0 :: x :: xs))
    | cons w ws =>
      rw [cons_prefix_cons] at hzs
      obtain ⟨rfl, hws⟩ := hzs
      exact ⟨ws, rfl, hws⟩

/-- A zero digit behind a list of odd length. -/
def padEven (xs : List ℕ) : List ℕ := if xs.length % 2 ≠ 0 then xs ++ [0] else xs

theorem padEven_cons_cons (x y : ℕ) (xs : List ℕ) :
    padEven (x :: y :: xs) = x :: y :: padEven xs := by
  unfold padEven
  rw [length_cons, length_cons]
  have hmod : (xs.length + 1 + 1) % 2 = xs.length % 2 := by omega
  rw [hmod]
  split_ifs <;> rfl

theorem length_padEven (xs : List ℕ) : (padEven xs).length % 2 = 0 := by
  unfold padEven
  split_ifs with h
  · rw [length_append, length_singleton]
    omega
  · omega

theorem frac_pairs_padEven (b : ℕ) (hb : 0 < b) (xs : List ℕ) :
    frac (b * b) (pairs b (padEven xs)) = frac b xs := by
  rw [frac_pairs b hb _ (length_padEven xs)]
  unfold padEven
  split_ifs <;> simp

theorem padEven_lt (hb : 0 < b) (h : ∀ x ∈ xs, x < b) : ∀ x ∈ padEven xs, x < b := by
  unfold padEven
  split_ifs
  · intro x hx
    rcases mem_append.mp hx with hx | hx
    · exact h x hx
    · rw [mem_singleton.mp hx]
      exact hb
  · exact h

theorem getLast_pairs_padEven (hb : 0 < b) (h : xs.getLast? ≠ some 0) :
    (pairs b (padEven xs)).getLast? ≠ some 0 := by
  induction xs using pairs.induct with
  | case1 x y xs ih =>
    rw [padEven_cons_cons, pairs]
    cases hxs : pairs b (padEven xs) with
    | nil =>
      have hnil : xs = [] := by
        match xs, hxs with
        | [], _ => rfl
        | [z], hxs => simp [padEven, pairs] at hxs
        | z :: w :: t, hxs => simp [padEven_cons_cons, pairs] at hxs
      subst hnil
      have hy : y ≠ 0 := by simpa using h
      simp only [getLast?_singleton, ne_eq, Option.some.injEq]
      omega
    | cons z zs =>
      rw [hxs] at ih
      apply ih
      cases xs with
      | nil => simp
      | cons w ws => simpa using h
  | case2 xs hxs =>
    match xs, hxs, h with
    | [], _, _ => simp [padEven, pairs]
    | [x], _, h =>
      have hx : x ≠ 0 := by simpa using h
      simpa [padEven, pairs] using ⟨hb.ne', hx⟩
    | x :: y :: t, hxs, _ => exact absurd rfl (hxs x y t)

theorem Canonical.pairs (hb : 0 < b) (h : Canonical b xs) :
    Canonical (b * b) (pairs b (padEven xs)) :=
  ⟨pairs_lt (padEven_lt hb h.1), getLast_pairs_padEven hb h.2⟩

theorem inv_le_frac (hx : 1 ≤ x) (xs : List ℕ) : (b : ℚ)⁻¹ ≤ frac b (x :: xs) := by
  have hxq : (1 : ℚ) ≤ x := by exact_mod_cast hx
  have hnn := frac_nonneg b xs
  rw [frac, inv_eq_one_div]
  gcongr
  linarith

theorem scaled_lt (hb : 1 < b) {p q : ℚ} (hp : p < 1) (hq : (b : ℚ)⁻¹ ≤ q) {e f : ℤ} (h : e < f) :
    p * (b : ℚ) ^ e < q * (b : ℚ) ^ f := by
  have hbq : (1 : ℚ) < b := by exact_mod_cast hb
  have hb0 : (0 : ℚ) < b := by linarith
  calc p * (b : ℚ) ^ e < 1 * (b : ℚ) ^ e := by gcongr
    _ = (b : ℚ)⁻¹ * (b : ℚ) ^ (e + 1) := by
      rw [zpow_add_one₀ hb0.ne']
      field_simp
    _ ≤ (b : ℚ)⁻¹ * (b : ℚ) ^ f := by
      have hle := zpow_le_zpow_right₀ hbq.le (show e + 1 ≤ f by omega)
      gcongr
    _ ≤ q * (b : ℚ) ^ f := by gcongr

theorem compare_scaled (hb : 1 < b) {p q : ℚ} (hp : (b : ℚ)⁻¹ ≤ p) (hp' : p < 1)
    (hq : (b : ℚ)⁻¹ ≤ q) (hq' : q < 1) (e f : ℤ) :
    compare (p * (b : ℚ) ^ e) (q * (b : ℚ) ^ f) = (compare e f).then (compare p q) := by
  rcases lt_trichotomy e f with h | h | h
  · rw [compare_lt_iff_lt.mpr (scaled_lt hb hp' hq h), compare_lt_iff_lt.mpr h]
    rfl
  · subst h
    have hb0 : (0 : ℚ) < b := by exact_mod_cast (show 0 < b by omega)
    have hmono : StrictMono fun r : ℚ => r * (b : ℚ) ^ e := by
      intro r s hrs
      exact mul_lt_mul_of_pos_right hrs (zpow_pos hb0 e)
    have hcmp := hmono.cmp_map_eq p q
    rw [cmp_eq_compare, cmp_eq_compare] at hcmp
    rw [compare_eq_iff_eq.mpr rfl]
    exact hcmp
  · rw [compare_gt_iff_gt.mpr (scaled_lt hb hq' hp h), compare_gt_iff_gt.mpr h]
    rfl

end Positional
