import Mathlib

/-! Association lists in strictly descending order of a rank of their keys. -/
namespace RankedList
open List

variable {κ ν : Type*} {rank : κ → ℕ}

/-- The entry of every key stands before those of a lower rank. -/
def Descending (rank : κ → ℕ) (l : List (κ × ν)) : Prop :=
  l.Pairwise fun a b => rank b.1 < rank a.1

variable {e : κ × ν} {l : List (κ × ν)}

theorem Descending.ne_of_mem (h : Descending rank (e :: l)) : ∀ e' ∈ l, e'.1 ≠ e.1 := by
  intro e' he' heq
  have hlt := rel_of_pairwise_cons h he'
  rw [heq] at hlt
  exact absurd hlt (lt_irrefl _)

theorem Descending.rank_le_head (h : Descending rank (e :: l)) :
    ∀ e' ∈ e :: l, rank e'.1 ≤ rank e.1 := by
  intro e' he'
  rcases mem_cons.mp he' with rfl | he''
  · exact le_rfl
  · exact (rel_of_pairwise_cons h he'').le

theorem Descending.rank_lt_head {e' : κ × ν} (h : Descending rank (e :: l)) (he : e' ∈ l) :
    rank e'.1 < rank e.1 :=
  rel_of_pairwise_cons h he

variable {k : κ}

theorem Descending.find?_rank_le (hl : Descending rank l) {v : ν} (hmem : (k, v) ∈ l) :
    l.find? (fun e => rank e.1 ≤ rank k) = some (k, v) := by
  induction l with
  | nil => cases hmem
  | cons a l ih =>
    rcases mem_cons.mp hmem with rfl | hmem'
    · rw [find?_cons_of_pos (by simp)]
    · have hlt : rank k < rank a.1 := (pairwise_cons.mp hl).1 _ hmem'
      rw [find?_cons_of_neg (by simpa using hlt)]
      exact ih (List.Pairwise.of_cons hl) hmem'

variable [DecidableEq κ]

/-- Write an entry, replacing the one of the same key. -/
def put (rank : κ → ℕ) (k : κ) (v : ν) : List (κ × ν) → List (κ × ν)
  | [] => [(k, v)]
  | e :: l =>
    if e.1 = k then (k, v) :: l
    else if rank e.1 < rank k then (k, v) :: e :: l
    else e :: put rank k v l

def clear (k : κ) (l : List (κ × ν)) : List (κ × ν) := l.filter fun e => e.1 ≠ k

theorem put_of_lt (h : ∀ e ∈ l, rank e.1 < rank k) (v : ν) : put rank k v l = (k, v) :: l := by
  cases l with
  | nil => rfl
  | cons e l =>
    have hlt := h e mem_cons_self
    have hne : e.1 ≠ k := by
      intro heq
      rw [heq] at hlt
      exact absurd hlt (lt_irrefl _)
    rw [put, if_neg hne, if_pos hlt]

theorem put_cons_self (k : κ) (v v' : ν) (l : List (κ × ν)) :
    put rank k v ((k, v') :: l) = (k, v) :: l := by
  rw [put, if_pos rfl]

theorem mem_put_self (k : κ) (v : ν) (l : List (κ × ν)) : (k, v) ∈ put rank k v l := by
  induction l with
  | nil => exact mem_cons_self
  | cons e l ih =>
    rw [put]
    split_ifs
    · exact mem_cons_self
    · exact mem_cons_self
    · exact mem_cons_of_mem e ih

theorem mem_of_mem_put {v : ν} (h : e ∈ put rank k v l) : e = (k, v) ∨ e ∈ l := by
  induction l with
  | nil => exact .inl (mem_singleton.mp h)
  | cons a l ih =>
    rw [put] at h
    split_ifs at h
    · exact (mem_cons.mp h).imp_right (mem_cons_of_mem a)
    · exact mem_cons.mp h
    · rcases mem_cons.mp h with rfl | h
      · exact .inr mem_cons_self
      · exact (ih h).imp_right (mem_cons_of_mem a)

theorem clear_of_lt (h : ∀ e ∈ l, rank e.1 < rank k) : clear k l = l := by
  refine filter_eq_self.mpr ?_
  intro e he
  have hlt := h e he
  rw [decide_eq_true_eq]
  intro heq
  rw [heq] at hlt
  exact absurd hlt (lt_irrefl _)

theorem clear_cons_self (k : κ) (v : ν) (l : List (κ × ν)) : clear k ((k, v) :: l) = clear k l := by
  simp [clear]

theorem mem_clear : e ∈ clear k l ↔ e ∈ l ∧ e.1 ≠ k := by
  simp [clear]

theorem Descending.clear (h : Descending rank l) (k : κ) : Descending rank (clear k l) :=
  h.filter _

theorem mem_put (hl : Descending rank l) (k : κ) (v : ν) :
    e ∈ put rank k v l ↔ e = (k, v) ∨ e ∈ l ∧ e.1 ≠ k := by
  induction l with
  | nil => simp [put]
  | cons a l ih =>
    have hne := hl.ne_of_mem
    have hrank : ∀ b ∈ l, rank b.1 < rank a.1 := (pairwise_cons.mp hl).1
    rw [put]
    split_ifs with hk hlt
    · subst hk
      rw [mem_cons, mem_cons]
      constructor
      · rintro (rfl | he)
        · exact .inl rfl
        · exact .inr ⟨.inr he, hne e he⟩
      · rintro (rfl | ⟨rfl | he, hek⟩)
        · exact .inl rfl
        · exact absurd rfl hek
        · exact .inr he
    · rw [mem_cons]
      refine or_congr Iff.rfl ⟨fun he => ⟨he, ?_⟩, fun he => he.1⟩
      rcases mem_cons.mp he with rfl | he'
      · exact hk
      · intro heq
        have hlow := hrank e he'
        rw [heq] at hlow
        omega
    · rw [mem_cons, mem_cons, ih (List.Pairwise.of_cons hl)]
      constructor
      · rintro (rfl | rfl | ⟨he, hek⟩)
        · exact .inr ⟨.inl rfl, hk⟩
        · exact .inl rfl
        · exact .inr ⟨.inr he, hek⟩
      · rintro (rfl | ⟨rfl | he, hek⟩)
        · exact .inr (.inl rfl)
        · exact .inl rfl
        · exact .inr (.inr ⟨he, hek⟩)

theorem Descending.put (hinj : Function.Injective rank) (hl : Descending rank l) (k : κ) (v : ν) :
    Descending rank (put rank k v l) := by
  induction l with
  | nil => exact pairwise_singleton _ _
  | cons a l ih =>
    have hrank : ∀ b ∈ l, rank b.1 < rank a.1 := (pairwise_cons.mp hl).1
    have hl' := List.Pairwise.of_cons hl
    rw [RankedList.put]
    split_ifs with hk hlt
    · subst hk
      exact pairwise_cons.mpr ⟨hrank, hl'⟩
    · refine pairwise_cons.mpr ⟨fun b hb => ?_, hl⟩
      rcases mem_cons.mp hb with rfl | hb'
      · exact hlt
      · exact (hrank b hb').trans hlt
    · refine pairwise_cons.mpr ⟨fun b hb => ?_, ih hl'⟩
      rcases (mem_put hl' k v).mp hb with rfl | ⟨hb', -⟩
      · have hne : rank a.1 ≠ rank k := fun heq => hk (hinj heq)
        dsimp only
        omega
      · exact hrank b hb'

end RankedList
