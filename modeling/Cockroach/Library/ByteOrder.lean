import Mathlib

/-! Unsigned lexicographic order of byte strings. The relation `SortsAs` records an order
that is settled at a byte both strings have, so that it survives any suffix. -/
namespace ByteOrder
open List

abbrev Bytes := List UInt8

/-- Lexicographic comparison, a proper prefix first. -/
def bytesCompare : Bytes → Bytes → Ordering
  | [], [] => .eq
  | [], _ :: _ => .lt
  | _ :: _, [] => .gt
  | x :: a, y :: b => (compare x.toNat y.toNat).then (bytesCompare a b)

/-- The strings differ at a byte both of them have, and the first one is smaller there. -/
def DiffLt : Bytes → Bytes → Prop
  | x :: a, y :: b => x.toNat < y.toNat ∨ x = y ∧ DiffLt a b
  | _, _ => False

/-- The order `o` of two strings, with neither a proper prefix of the other. -/
def SortsAs : Ordering → Bytes → Bytes → Prop
  | .lt, a, b => DiffLt a b
  | .eq, a, b => a = b
  | .gt, a, b => DiffLt b a

@[simp] theorem not_diffLt_nil_left (b : Bytes) : ¬ DiffLt [] b := by
  simp [DiffLt]

@[simp] theorem not_diffLt_nil_right (a : Bytes) : ¬ DiffLt a [] := by
  simp [DiffLt]

theorem bytesCompare_self (a : Bytes) : bytesCompare a a = .eq := by
  induction a with
  | nil => rfl
  | cons x a ih => simp [bytesCompare, ih]

theorem bytesCompare_swap (a b : Bytes) : (bytesCompare a b).swap = bytesCompare b a := by
  induction a generalizing b with
  | nil => cases b <;> rfl
  | cons x a ih =>
    cases b with
    | nil => rfl
    | cons y b => simp [bytesCompare, Ordering.swap_then, ih, Nat.compare_swap]

variable {a b : Bytes}

theorem bytesCompare_eq_iff : bytesCompare a b = .eq ↔ a = b := by
  constructor
  · intro h
    induction a generalizing b with
    | nil => cases b with
      | nil => rfl
      | cons y b => simp [bytesCompare] at h
    | cons x a ih => cases b with
      | nil => simp [bytesCompare] at h
      | cons y b =>
        simp only [bytesCompare, Ordering.then_eq_eq, Nat.compare_eq_eq] at h
        rw [UInt8.toNat_inj.mp h.1, ih h.2]
  · rintro rfl
    exact bytesCompare_self a

theorem bytesCompare_lt_iff : bytesCompare a b = .lt ↔ a < b := by
  induction a generalizing b with
  | nil => cases b <;> simp [bytesCompare]
  | cons x a ih =>
    cases b with
    | nil => simp [bytesCompare]
    | cons y b =>
      rw [cons_lt_cons_iff, ← ih, UInt8.lt_iff_toNat_lt, ← UInt8.toNat_inj]
      simp [bytesCompare, Ordering.then_eq_lt, Nat.compare_eq_lt]

theorem bytesCompare_gt_iff : bytesCompare a b = .gt ↔ b < a := by
  rw [← bytesCompare_lt_iff, ← bytesCompare_swap a b, Ordering.swap_eq_lt]

/-- The order that `bytesCompare` decides. -/
instance : LinearOrder Bytes where
  le a b := a ≤ b
  lt a b := a < b
  le_refl := List.le_refl
  le_trans _ _ _ := List.le_trans
  lt_iff_le_not_ge a b := by
    rw [List.not_le]
    exact ⟨fun h => ⟨List.le_of_lt h, h⟩, And.right⟩
  le_antisymm _ _ := List.le_antisymm
  le_total := List.le_total
  toDecidableLE := inferInstance
  toDecidableLT := inferInstance
  toDecidableEq := inferInstance
  compare := bytesCompare
  compare_eq_compareOfLessAndEq a b := by
    unfold compareOfLessAndEq
    split_ifs with hlt heq
    · exact bytesCompare_lt_iff.mpr hlt
    · exact bytesCompare_eq_iff.mpr heq
    · cases h : bytesCompare a b with
      | lt => exact absurd (bytesCompare_lt_iff.mp h) hlt
      | eq => exact absurd (bytesCompare_eq_iff.mp h) heq
      | gt => rfl

theorem bytesCompare_ne_gt_iff : bytesCompare a b ≠ .gt ↔ a ≤ b := by
  rw [ne_eq, bytesCompare_gt_iff, not_lt]

theorem bytesCompare_ne_lt_iff : bytesCompare a b ≠ .lt ↔ b ≤ a := by
  rw [ne_eq, bytesCompare_lt_iff, not_lt]

theorem bytesCompare_append_zero (a b : Bytes) :
    bytesCompare a (b ++ [0]) = .lt ↔ bytesCompare a b ≠ .gt := by
  induction a generalizing b with
  | nil => cases b <;> simp [bytesCompare]
  | cons x a ih =>
    cases b with
    | nil => cases a <;> simp [bytesCompare, Ordering.then_eq_lt, Nat.compare_eq_lt]
    | cons y b =>
      simp only [cons_append, bytesCompare, Ordering.then_eq_lt, ih]
      cases Ord.compare x.toNat y.toNat <;> simp

@[simp] theorem bytesCompare_append_left (p a b : Bytes) :
    bytesCompare (p ++ a) (p ++ b) = bytesCompare a b := by
  induction p with
  | nil => rfl
  | cons x p ih => simp [bytesCompare, ih]

theorem DiffLt.bytesCompare_eq (h : DiffLt a b) : bytesCompare a b = .lt := by
  induction a generalizing b with
  | nil => simp at h
  | cons x a ih => cases b with
    | nil => simp at h
    | cons y b =>
      rcases h with h | ⟨rfl, h⟩
      · simp [bytesCompare, Nat.compare_eq_lt.mpr h]
      · simp [bytesCompare, ih h]

theorem DiffLt.append (h : DiffLt a b) (s t : Bytes) : DiffLt (a ++ s) (b ++ t) := by
  induction a generalizing b with
  | nil => simp at h
  | cons x a ih => cases b with
    | nil => simp at h
    | cons y b =>
      rcases h with h | ⟨rfl, h⟩
      · exact .inl h
      · exact .inr ⟨rfl, ih h⟩

theorem DiffLt.append_left (h : DiffLt a b) (p : Bytes) : DiffLt (p ++ a) (p ++ b) := by
  induction p with
  | nil => exact h
  | cons x p ih => exact .inr ⟨rfl, ih⟩

theorem DiffLt.not_prefix (h : DiffLt a b) : ¬ a <+: b ∧ ¬ b <+: a := by
  induction a generalizing b with
  | nil => simp at h
  | cons x a ih => cases b with
    | nil => simp at h
    | cons y b =>
      simp only [cons_prefix_cons, not_and]
      rcases h with h | ⟨rfl, h⟩
      · constructor <;> (rintro rfl; omega)
      · exact ⟨fun _ => (ih h).1, fun _ => (ih h).2⟩

@[simp] theorem sortsAs_eq_self (a : Bytes) : SortsAs .eq a a := rfl

variable {o : Ordering}

section

variable (h : SortsAs o a b)
include h

theorem SortsAs.bytesCompare_eq : bytesCompare a b = o := by
  cases o with
  | lt => exact DiffLt.bytesCompare_eq h
  | eq => rw [show a = b from h, bytesCompare_self]
  | gt => rw [← bytesCompare_swap, DiffLt.bytesCompare_eq h]; rfl

theorem SortsAs.append {o' : Ordering} {c d : Bytes} (h' : SortsAs o' c d) :
    SortsAs (o.then o') (a ++ c) (b ++ d) := by
  cases o with
  | lt => exact .append h c d
  | gt => exact .append h d c
  | eq =>
    obtain rfl : a = b := h
    cases o' with
    | lt | gt => exact .append_left h' a
    | eq => exact congrArg (a ++ ·) h'

theorem SortsAs.bytesCompare_append (s t : Bytes) :
    bytesCompare (a ++ s) (b ++ t) = o.then (bytesCompare s t) := by
  cases o with
  | lt => exact (DiffLt.append h s t).bytesCompare_eq
  | eq => rw [show a = b from h, bytesCompare_append_left]; rfl
  | gt => rw [← bytesCompare_swap, (DiffLt.append h t s).bytesCompare_eq]; rfl

theorem SortsAs.append_left (p : Bytes) : SortsAs o (p ++ a) (p ++ b) := by
  simpa using (sortsAs_eq_self p).append h

theorem SortsAs.cons (x : UInt8) : SortsAs o (x :: a) (x :: b) := h.append_left [x]

theorem SortsAs.append_right (s : Bytes) : SortsAs o (a ++ s) (b ++ s) := by
  simpa using h.append (sortsAs_eq_self s)

theorem SortsAs.swap : SortsAs o.swap b a := by
  cases o with
  | lt | gt => exact h
  | eq => exact Eq.symm h

theorem SortsAs.eq_of_prefix (hp : a <+: b) : a = b := by
  cases o with
  | lt => exact absurd hp (DiffLt.not_prefix h).1
  | eq => exact h
  | gt => exact absurd hp (DiffLt.not_prefix h).2

end

variable {x y : UInt8}

theorem sortsAs_cons_of_lt (h : x.toNat < y.toNat) (a b : Bytes) :
    SortsAs .lt (x :: a) (y :: b) := .inl h

theorem sortsAs_cons_of_gt (h : y.toNat < x.toNat) (a b : Bytes) :
    SortsAs .gt (x :: a) (y :: b) := .inl h

theorem SortsAs.cons_then (h : x = y → SortsAs o a b) :
    SortsAs ((compare x.toNat y.toNat).then o) (x :: a) (y :: b) := by
  rcases lt_trichotomy x.toNat y.toNat with hlt | heq | hgt
  · rw [Nat.compare_eq_lt.mpr hlt]
    exact sortsAs_cons_of_lt hlt a b
  · rw [Nat.compare_eq_eq.mpr heq]
    have hxy := UInt8.toNat_inj.mp heq
    subst hxy
    exact (h rfl).cons x
  · rw [Nat.compare_eq_gt.mpr hgt]
    exact sortsAs_cons_of_gt hgt a b

def complement (a : Bytes) : Bytes := a.map (~~~ ·)

theorem toNat_not (x : UInt8) : (~~~ x).toNat = 255 - x.toNat := by
  simp [UInt8.toNat_not]

@[simp] theorem complement_cons (x : UInt8) (a : Bytes) :
    complement (x :: a) = (~~~ x) :: complement a := rfl

@[simp] theorem complement_append (a b : Bytes) :
    complement (a ++ b) = complement a ++ complement b := by
  simp [complement]

theorem DiffLt.complement (h : DiffLt a b) : DiffLt (complement b) (complement a) := by
  induction a generalizing b with
  | nil => simp at h
  | cons x a ih => cases b with
    | nil => simp at h
    | cons y b =>
      rcases h with h | ⟨rfl, h⟩
      · refine .inl ?_
        have hy := y.toNat_lt
        rw [toNat_not, toNat_not]
        omega
      · exact .inr ⟨rfl, ih h⟩

theorem SortsAs.complement (h : SortsAs o a b) : SortsAs o.swap (complement a) (complement b) := by
  cases o with
  | lt | gt => exact .complement h
  | eq => exact congrArg _ h

/-- The `w` low-order bytes of `n`, the most significant one first. -/
def bigEndian : ℕ → ℕ → Bytes
  | 0, _ => []
  | w + 1, n => UInt8.ofNat (n / 256 ^ w) :: bigEndian w n

@[simp] theorem length_bigEndian (w n : ℕ) : (bigEndian w n).length = w := by
  induction w with
  | zero => rfl
  | succ w ih => simp [bigEndian, ih]

@[simp] theorem take_bigEndian (w n : ℕ) : (bigEndian w n).take w = bigEndian w n :=
  take_of_length_le (by simp)

/-- The number a big-endian byte string stands for. -/
def ofBigEndian (a : Bytes) : ℕ := a.foldl (fun n x => n * 256 + x.toNat) 0

theorem mod_pow_succ (w n : ℕ) :
    n % 256 ^ (w + 1) = n % 256 ^ w + 256 ^ w * (n / 256 ^ w % 256) := by
  rw [pow_succ, Nat.mod_mul]

theorem foldl_bigEndian (w n k : ℕ) :
    (bigEndian w n).foldl (fun m x => m * 256 + x.toNat) k = k * 256 ^ w + n % 256 ^ w := by
  induction w generalizing k with
  | zero => simp [bigEndian, Nat.mod_one]
  | succ w ih =>
    simp only [bigEndian, foldl_cons, ih, UInt8.toNat_ofNat', mod_pow_succ]
    ring

theorem ofBigEndian_bigEndian (w n : ℕ) : ofBigEndian (bigEndian w n) = n % 256 ^ w := by
  simp [ofBigEndian, foldl_bigEndian]

theorem compare_add_mul {b r s : ℕ} (q p : ℕ) (hr : r < b) (hs : s < b) :
    compare (r + b * q) (s + b * p) = (compare q p).then (compare r s) := by
  rcases lt_trichotomy q p with h | h | h
  · have hb : b * (q + 1) ≤ b * p := Nat.mul_le_mul_left b h
    rw [Nat.compare_eq_lt.mpr h, Nat.compare_eq_lt.mpr (by rw [mul_add] at hb; omega)]
    rfl
  · subst h
    simp [Nat.compare_eq_ite_lt]
  · have hb : b * (p + 1) ≤ b * q := Nat.mul_le_mul_left b h
    rw [Nat.compare_eq_gt.mpr h, Nat.compare_eq_gt.mpr (by rw [mul_add] at hb; omega)]
    rfl

theorem sortsAs_bigEndian (w m n : ℕ) :
    SortsAs (compare (m % 256 ^ w) (n % 256 ^ w)) (bigEndian w m) (bigEndian w n) := by
  induction w with
  | zero => simp [bigEndian, Nat.mod_one, SortsAs]
  | succ w ih =>
    rw [mod_pow_succ, mod_pow_succ, compare_add_mul _ _ (Nat.mod_lt _ (by positivity))
      (Nat.mod_lt _ (by positivity))]
    simpa [bigEndian, UInt8.toNat_ofNat'] using
      .cons_then (x := UInt8.ofNat (m / 256 ^ w)) (y := UInt8.ofNat (n / 256 ^ w))
        (fun _ => ih)

theorem diffLt_tagged {w w' p q : ℕ}
    (h : x.toNat < y.toNat ∨ x = y ∧ w = w' ∧ p % 256 ^ w < q % 256 ^ w) :
    DiffLt (x :: bigEndian w p) (y :: bigEndian w' q) := by
  rcases h with h | ⟨rfl, rfl, h⟩
  · exact .inl h
  · have hb := sortsAs_bigEndian w p q
    rw [Nat.compare_eq_lt.mpr h] at hb
    exact hb.cons x

variable {α : Type*}

theorem sortsAs_of_diffLt {β : Type*} [LinearOrder β] {enc : α → Bytes} (key : α → β)
    (hlt : ∀ a b, key a < key b → DiffLt (enc a) (enc b))
    (heq : ∀ a b, key a = key b → enc a = enc b) (a b : α) :
    SortsAs (compare (key a) (key b)) (enc a) (enc b) := by
  rcases lt_trichotomy (key a) (key b) with hab | hab | hab
  · rw [compare_lt_iff_lt.mpr hab]
    exact hlt a b hab
  · rw [compare_eq_iff_eq.mpr hab]
    exact heq a b hab
  · rw [compare_gt_iff_gt.mpr hab]
    exact hlt b a hab

/-- Lexicographic comparison of lists, a proper prefix first. -/
def lexCompare {α : Type*} (c : α → α → Ordering) : List α → List α → Ordering
  | [], [] => .eq
  | [], _ :: _ => .lt
  | _ :: _, [] => .gt
  | x :: a, y :: b => (c x y).then (lexCompare c a b)

theorem bytesCompare_eq_lexCompare (a b : Bytes) :
    bytesCompare a b = lexCompare (fun x y => compare x.toNat y.toNat) a b := by
  induction a generalizing b with
  | nil => cases b <;> rfl
  | cons x a ih => cases b with
    | nil => rfl
    | cons y b => simp [bytesCompare, lexCompare, ih]

variable {c : α → α → Ordering}

/-- Item codes followed by a terminator sort as the lists of items, where the terminator sorts
before every item. The map `f` is the identity, or the reversal for a descending code. -/
theorem sortsAs_flatMap_append {item : α → Bytes} {f : Ordering → Ordering} {t t' : Bytes}
    (hf : ∀ o o', f (o.then o') = (f o).then (f o'))
    (hitem : ∀ a b, SortsAs (f (c a b)) (item a) (item b))
    (ht : ∀ a u, SortsAs (f .lt) t (item a ++ u)) (ht' : ∀ a u, SortsAs (f .gt) (item a ++ u) t')
    (ho : SortsAs (f o) t t') (a b : List α) :
    SortsAs (f ((lexCompare c a b).then o)) (a.flatMap item ++ t) (b.flatMap item ++ t') := by
  induction a generalizing b with
  | nil => cases b with
    | nil => exact ho
    | cons y b => simpa [lexCompare] using ht y _
  | cons x a ih => cases b with
    | nil => simpa [lexCompare] using ht' x _
    | cons y b =>
      have h := (hitem x y).append (ih b)
      rw [← hf, ← Ordering.then_assoc] at h
      simpa [lexCompare] using h

variable {z : α}

theorem lexCompare_eq_lt (hc : ∀ x, c x x = .eq) {a b : List α} {i : ℕ}
    (h : ∀ j < i, a.getD j z = b.getD j z) (hi : i < b.length)
    (hlt : c (a.getD i z) (b.getD i z) = .lt) : lexCompare c a b = .lt := by
  induction a generalizing b i with
  | nil =>
    cases b with
    | nil => simp at hi
    | cons y b => rfl
  | cons x a ih =>
    cases b with
    | nil => simp at hi
    | cons y b =>
      rw [lexCompare]
      cases i with
      | zero =>
        rw [getD_cons_zero, getD_cons_zero] at hlt
        rw [hlt]
        rfl
      | succ i =>
        have hxy : x = y := h 0 (Nat.succ_pos i)
        rw [hxy, hc]
        refine ih ?_ (Nat.lt_of_succ_lt_succ hi) hlt
        intro j hj
        have hj' := h (j + 1) (Nat.succ_lt_succ hj)
        rwa [getD_cons_succ, getD_cons_succ] at hj'

end ByteOrder
