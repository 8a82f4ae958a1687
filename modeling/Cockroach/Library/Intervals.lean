import Mathlib

/-! Lists of half-open intervals of a linear order and the points they cover. -/
namespace Intervals
open List

variable {α : Type*} [LinearOrder α]

structure Bounds (α : Type*) where
  lo : α
  hi : α

/-- The points of some intervals. -/
def cover (l : List (Bounds α)) : Set α := {x | ∃ i ∈ l, x ∈ Set.Ico i.lo i.hi}

@[simp] theorem cover_nil : cover ([] : List (Bounds α)) = ∅ := by
  simp [cover]

@[simp] theorem cover_cons (i : Bounds α) (l : List (Bounds α)) :
    cover (i :: l) = Set.Ico i.lo i.hi ∪ cover l := by
  ext x
  simp [cover]

theorem cover_perm {l m : List (Bounds α)} (h : l.Perm m) : cover l = cover m := by
  ext x
  simp only [cover, Set.mem_ofPred_eq, h.mem_iff]

theorem cover_subset_Ici {l : List (Bounds α)} {b : α} (h : ∀ i ∈ l, b ≤ i.lo) :
    cover l ⊆ Set.Ici b := by
  rintro x ⟨i, hi, hx⟩
  exact (h i hi).trans hx.1

theorem disjoint_Ico_cover {l : List (Bounds α)} {a b : α} (h : ∀ i ∈ l, b ≤ i.lo) :
    Disjoint (Set.Ico a b) (cover l) :=
  Set.disjoint_left.mpr fun _ hx hl => hx.2.not_ge (cover_subset_Ici h hl)

theorem Ico_union_Ico_of_touch {a b c d : α} (hac : a ≤ c) (hcb : c ≤ b) :
    Set.Ico a b ∪ Set.Ico c d = Set.Ico a (max b d) := by
  ext x
  simp only [Set.mem_union, Set.mem_Ico, lt_max_iff]
  constructor
  · rintro (⟨hax, hxb⟩ | ⟨hcx, hxd⟩)
    · exact ⟨hax, .inl hxb⟩
    · exact ⟨hac.trans hcx, .inr hxd⟩
  · rintro ⟨hax, hxb | hxd⟩
    · exact .inl ⟨hax, hxb⟩
    · rcases lt_or_ge x b with hxb | hbx
      · exact .inl ⟨hax, hxb⟩
      · exact .inr ⟨hcb.trans hbx, hxd⟩

/-- Nonempty intervals in ascending order, each one with space to the next. -/
structure Separated (l : List (Bounds α)) : Prop where
  pairwise : l.Pairwise fun i j => i.hi < j.lo
  lo_lt_hi : ∀ i ∈ l, i.lo < i.hi

namespace Separated

variable {i : Bounds α} {l : List (Bounds α)}

theorem nil : Separated ([] : List (Bounds α)) := ⟨List.Pairwise.nil, fun _ h => nomatch h⟩

theorem cons (hi : i.lo < i.hi) (hl : ∀ j ∈ l, i.hi < j.lo) (h : Separated l) :
    Separated (i :: l) :=
  ⟨pairwise_cons.mpr ⟨hl, h.pairwise⟩, forall_mem_cons.mpr ⟨hi, h.lo_lt_hi⟩⟩

theorem tail (h : Separated (i :: l)) : Separated l :=
  ⟨(pairwise_cons.mp h.pairwise).2, (forall_mem_cons.mp h.lo_lt_hi).2⟩

theorem head_lt (h : Separated (i :: l)) : i.lo < i.hi := (forall_mem_cons.mp h.lo_lt_hi).1

theorem hi_lt (h : Separated (i :: l)) : ∀ j ∈ l, i.hi < j.lo :=
  (pairwise_cons.mp h.pairwise).1

theorem lo_le (h : Separated (i :: l)) : ∀ j ∈ i :: l, i.lo ≤ j.lo := by
  refine forall_mem_cons.mpr ⟨le_rfl, fun j hj => ?_⟩
  exact (h.head_lt.trans (h.hi_lt j hj)).le

theorem of_isChain (hchain : l.IsChain fun i j => i.hi < j.lo) (hlt : ∀ i ∈ l, i.lo < i.hi) :
    Separated l := by
  induction l with
  | nil => exact nil
  | cons i l ih =>
    obtain ⟨hi, hl⟩ := forall_mem_cons.mp hlt
    have htail := ih (isChain_of_isChain_cons hchain) hl
    refine cons hi (fun j hj => ?_) htail
    cases l with
    | nil => cases hj
    | cons k l => exact (isChain_cons_cons.mp hchain).1.trans_le (htail.lo_le j hj)

end Separated

variable {i j : Bounds α} {l m : List (Bounds α)}

theorem cover_inter_cons_of_le (h : ∀ k ∈ l, j.hi ≤ k.lo) :
    cover l ∩ cover (j :: m) = cover l ∩ cover m := by
  rw [cover_cons, Set.inter_union_distrib_left, Set.inter_comm (cover l) (Set.Ico _ _),
    (disjoint_Ico_cover h).inter_eq, Set.empty_union]

theorem cover_cons_inter_cons (h : Separated (j :: m)) (hle : i.hi ≤ j.hi) :
    cover (i :: l) ∩ cover (j :: m) =
      Set.Ico (max i.lo j.lo) (min i.hi j.hi) ∪ cover l ∩ cover (j :: m) := by
  have hdisjoint : Set.Ico i.lo i.hi ∩ cover m = ∅ :=
    (disjoint_Ico_cover fun k hk => hle.trans (h.hi_lt k hk).le).inter_eq
  rw [cover_cons i, Set.union_inter_distrib_right, cover_cons j, Set.inter_union_distrib_left,
    Set.Ico_inter_Ico, hdisjoint, Set.union_empty]

theorem cover_inter_cons_shrink {b : α} (h : ∀ k ∈ l, b ≤ k.lo) (hb : j.lo ≤ b) :
    cover l ∩ cover (j :: m) = cover l ∩ cover (⟨b, j.hi⟩ :: m) := by
  ext x
  simp only [cover_cons, Set.mem_inter_iff, Set.mem_union, Set.mem_Ico]
  refine and_congr_right fun hx => or_congr_left (and_congr_left fun _ => ?_)
  exact iff_of_true (hb.trans (cover_subset_Ici h hx)) (cover_subset_Ici h hx)

theorem lt_of_mem_cover {b x : α} (h : ∀ k ∈ l, b < k.lo) (hx : x ∈ cover l) : b < x := by
  obtain ⟨k, hk, hmem⟩ := hx
  exact (h k hk).trans_le hmem.1

theorem cover_cons_diff_cons (hl : ∀ k ∈ l, i.hi < k.lo) (hm : Separated (j :: m))
    (hlo : i.lo ≤ j.lo) (hhi : j.hi ≤ i.hi) : cover (i :: l) \ cover (j :: m) =
      Set.Ico i.lo j.lo ∪ cover (⟨j.hi, i.hi⟩ :: l) \ cover m := by
  ext x
  have hxl : x ∈ cover l → i.hi < x := lt_of_mem_cover hl
  have hxm : x ∈ cover m → j.hi < x := lt_of_mem_cover hm.hi_lt
  have hj := hm.head_lt
  simp only [cover_cons, Set.mem_sdiff, Set.mem_union, Set.mem_Ico]
  grind

theorem cover_subset_of_cons (hm : Separated (j :: m))
    (hsub : cover (j :: m) ⊆ cover (i :: l)) : cover m ⊆ cover (⟨j.hi, i.hi⟩ :: l) := by
  intro x hx
  have hlt : j.hi < x := lt_of_mem_cover hm.hi_lt hx
  have hmem : x ∈ cover (i :: l) := hsub ((cover_cons j m).ge (.inr hx))
  rw [cover_cons] at hmem ⊢
  exact hmem.imp_left fun hi => ⟨hlt.le, hi.2⟩

end Intervals
