import Mathlib

/-! Binary search for the first index at which a monotone predicate holds. -/
namespace Search

/-- Halve `[i, j)` until it is empty, keeping the indices where `f` holds at or above `j`. -/
def searchBetween (f : ℕ → Bool) (i j : ℕ) : ℕ :=
  if i < j then
    let h := (i + j) / 2
    if f h then searchBetween f i h else searchBetween f (h + 1) j
  else i
termination_by j - i

def search (n : ℕ) (f : ℕ → Bool) : ℕ := searchBetween f 0 n

theorem searchBetween_le (f : ℕ → Bool) (i j : ℕ) (hij : i ≤ j) : searchBetween f i j ≤ j := by
  induction i, j using searchBetween.induct f with
  | case1 i j hlt h hf ih =>
    rw [searchBetween, if_pos hlt, if_pos hf]
    exact (ih (by omega)).trans (by omega)
  | case2 i j hlt h hf ih =>
    rw [searchBetween, if_pos hlt, if_neg hf]
    exact ih (by omega)
  | case3 i j hge =>
    rw [searchBetween, if_neg hge]
    exact hij

theorem search_le (n : ℕ) (f : ℕ → Bool) : search n f ≤ n := searchBetween_le f 0 n (by omega)

/-- What the halving keeps: `f` fails below `i` and holds from `j` on. -/
theorem searchBetween_spec {f : ℕ → Bool} {n : ℕ}
    (hmono : ∀ a b, a ≤ b → b < n → f a = true → f b = true) (i j : ℕ) (hij : i ≤ j) (hj : j ≤ n)
    (hlow : ∀ k < i, f k = false) (hhigh : ∀ k, j ≤ k → k < n → f k = true) :
    (∀ k < searchBetween f i j, f k = false) ∧
      ∀ k, searchBetween f i j ≤ k → k < n → f k = true := by
  induction i, j using searchBetween.induct f with
  | case1 i j hlt h hf ih =>
    rw [searchBetween, if_pos hlt, if_pos hf]
    apply ih (by omega) (by omega) hlow
    intro k hk hkn
    exact hmono h k hk hkn hf
  | case2 i j hlt h hf ih =>
    rw [searchBetween, if_pos hlt, if_neg hf]
    apply ih (by omega) hj
    · intro k hk
      by_contra hne
      exact hf (hmono k h (by omega) (by omega) (by simpa using hne))
    · exact hhigh
  | case3 i j hge =>
    rw [searchBetween, if_neg hge]
    refine ⟨hlow, ?_⟩
    intro k hk hkn
    exact hhigh k (by omega) hkn

theorem search_spec {f : ℕ → Bool} {n : ℕ}
    (hmono : ∀ a b, a ≤ b → b < n → f a = true → f b = true) :
    (∀ k < search n f, f k = false) ∧ ∀ k, search n f ≤ k → k < n → f k = true := by
  apply searchBetween_spec hmono 0 n (by omega) le_rfl
  · intro k hk
    omega
  · intro k hk hkn
    omega

end Search
