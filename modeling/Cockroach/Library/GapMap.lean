import Mathlib

/-! Maps from ordered keys that give a value to every key: that of its node, or of the gap it is in.
A node that is not initialized yet inherits what comes in from the gap before it. -/
namespace GapMap
open List

variable {κ α : Type*}

structure Node (κ α : Type*) where
  key : κ
  keyVal : α
  gapVal : α
  initialized : Bool
  /-- The node is given up and never will be initialized. -/
  cantInit : Bool

def Sorted [LT κ] (ns : List (Node κ α)) : Prop := ns.Pairwise fun n m => n.key < m.key

theorem Sorted.key_inj [LinearOrder κ] {ns : List (Node κ α)} (hs : Sorted ns) {n m : Node κ α}
    (hn : n ∈ ns) (hm : m ∈ ns) (h : n.key = m.key) : n = m := by
  have hnodup : (ns.map Node.key).Nodup :=
    pairwise_map.mpr (hs.imp fun hlt => hlt.ne)
  exact inj_on_of_nodup_map hnodup hn hm h

section Values

variable [SemilatticeSup α]

/-- The value of the key of a node, with the value of the gap before it. -/
def Node.keyWith (n : Node κ α) (g : α) : α := if n.initialized then n.keyVal else n.keyVal ⊔ g

def Node.gapWith (n : Node κ α) (g : α) : α := if n.initialized then n.gapVal else n.gapVal ⊔ g

theorem Node.keyWith_mono (n : Node κ α) {g g' : α} (h : g ≤ g') : n.keyWith g ≤ n.keyWith g' := by
  unfold keyWith
  split_ifs
  · exact le_rfl
  · exact sup_le_sup_left h _

theorem Node.gapWith_mono (n : Node κ α) {g g' : α} (h : g ≤ g') : n.gapWith g ≤ n.gapWith g' := by
  unfold gapWith
  split_ifs
  · exact le_rfl
  · exact sup_le_sup_left h _

theorem Node.le_keyWith (n : Node κ α) (g : α) : n.keyVal ≤ n.keyWith g := by
  unfold keyWith
  split_ifs
  · exact le_rfl
  · exact le_sup_left

theorem Node.le_gapWith (n : Node κ α) (g : α) : n.gapVal ≤ n.gapWith g := by
  unfold gapWith
  split_ifs
  · exact le_rfl
  · exact le_sup_left

theorem Node.keyWith_le (n : Node κ α) (g : α) : n.keyWith g ≤ n.keyVal ⊔ g := by
  unfold keyWith
  split_ifs
  · exact le_sup_left
  · exact le_rfl

theorem Node.gapWith_le (n : Node κ α) (g : α) : n.gapWith g ≤ n.gapVal ⊔ g := by
  unfold gapWith
  split_ifs
  · exact le_sup_left
  · exact le_rfl

end Values

/-- A position between or at keys, by the side on which it lies of each key. -/
structure Cut (κ : Type*) [LinearOrder κ] where
  side : κ → Ordering
  mono : ∀ {a b}, a < b → side b ≠ .lt → side a = .gt

namespace Cut

variable [LinearOrder κ]

/-- The position of a key. -/
def key (k : κ) : Cut κ where
  side x := compare k x
  mono {a b} hab hb := by
    rw [compare_gt_iff_gt]
    rw [ne_eq, compare_lt_iff_lt, not_lt] at hb
    exact hab.trans_le hb

/-- The position just before a key. -/
def before (k : κ) : Cut κ where
  side x := if x < k then .gt else .lt
  mono {a b} hab hb := by
    split_ifs at hb with h
    · exact if_pos (hab.trans h)
    · exact absurd rfl hb

/-- The position just behind a key. -/
def after (k : κ) : Cut κ where
  side x := if x ≤ k then .gt else .lt
  mono {a b} hab hb := by
    split_ifs at hb with h
    · exact if_pos (hab.le.trans h)
    · exact absurd rfl hb

variable {k x : κ}

theorem side_key_lt (h : k < x) : (key k).side x = .lt := compare_lt_iff_lt.mpr h

theorem side_key_gt (h : x < k) : (key k).side x = .gt := compare_gt_iff_gt.mpr h

theorem side_key_self (k : κ) : (key k).side k = .eq := compare_eq_iff_eq.mpr rfl

theorem side_before_gt (h : x < k) : (before k).side x = .gt := if_pos h

theorem side_before_lt (h : k ≤ x) : (before k).side x = .lt := if_neg h.not_gt

theorem side_after_gt (h : x ≤ k) : (after k).side x = .gt := if_pos h

theorem side_after_lt (h : k < x) : (after k).side x = .lt := if_neg h.not_ge

end Cut

section Values

variable [LinearOrder κ] [SemilatticeSup α]

/-- The value at a position, with the value of the gap before the first node. -/
def valueAt (g : α) : List (Node κ α) → Cut κ → α
  | [], _ => g
  | n :: ns, c =>
    match c.side n.key with
    | .lt => g
    | .eq => n.keyWith g
    | .gt => valueAt (n.gapWith g) ns c

variable {g g' : α} {n m : Node κ α} {ns ms : List (Node κ α)} {c : Cut κ} {k : κ}

theorem valueAt_cons_of_lt (h : c.side n.key = .lt) : valueAt g (n :: ns) c = g := by
  rw [valueAt, h]

theorem valueAt_cons_of_eq (h : c.side n.key = .eq) : valueAt g (n :: ns) c = n.keyWith g := by
  rw [valueAt, h]

theorem valueAt_cons_of_gt (h : c.side n.key = .gt) :
    valueAt g (n :: ns) c = valueAt (n.gapWith g) ns c := by
  rw [valueAt, h]

theorem valueAt_cons_le (hkey : n.key = m.key) (hg : g ≤ g') (hk : n.keyWith g ≤ m.keyWith g')
    (hrest : valueAt (n.gapWith g) ns c ≤ valueAt (m.gapWith g') ms c) :
    valueAt g (n :: ns) c ≤ valueAt g' (m :: ms) c := by
  rw [valueAt, valueAt, ← hkey]
  cases c.side n.key with
  | lt => exact hg
  | eq => exact hk
  | gt => exact hrest

theorem valueAt_cons_congr (hkey : n.key = m.key) (hk : n.keyWith g = m.keyWith g)
    (hrest : valueAt (n.gapWith g) ns c = valueAt (m.gapWith g) ms c) :
    valueAt g (n :: ns) c = valueAt g (m :: ms) c := by
  rw [valueAt, valueAt, ← hkey, hk, hrest]

theorem valueAt_mono (h : g ≤ g') : valueAt g ns c ≤ valueAt g' ns c := by
  induction ns generalizing g g' with
  | nil => exact h
  | cons n ns ih => exact valueAt_cons_le rfl h (n.keyWith_mono h) (ih (n.gapWith_mono h))

theorem valueAt_append (h : ∀ n ∈ ns, c.side n.key = .gt) :
    valueAt g (ns ++ ms) c = valueAt (valueAt g ns c) ms c := by
  induction ns generalizing g with
  | nil => rfl
  | cons n ns ih =>
    rw [cons_append, valueAt_cons_of_gt (h n mem_cons_self), valueAt_cons_of_gt (h n mem_cons_self)]
    exact ih fun m hm => h m (mem_cons_of_mem n hm)

theorem valueAt_eq_of_gt {c' : Cut κ} (h : ∀ n ∈ ns, c.side n.key = .gt)
    (h' : ∀ n ∈ ns, c'.side n.key = .gt) : valueAt g ns c = valueAt g ns c' := by
  induction ns generalizing g with
  | nil => rfl
  | cons n ns ih =>
    rw [valueAt_cons_of_gt (h n mem_cons_self), valueAt_cons_of_gt (h' n mem_cons_self)]
    exact ih (fun m hm => h m (mem_cons_of_mem n hm))
      fun m hm => h' m (mem_cons_of_mem n hm)

theorem valueAt_of_initialized (hn : n.initialized = true) (hc : c.side n.key ≠ .lt) :
    valueAt g (n :: ns) c = valueAt g' (n :: ns) c := by
  have hkey : n.keyWith g = n.keyWith g' := by
    simp [Node.keyWith, hn]
  have hgap : n.gapWith g = n.gapWith g' := by
    simp [Node.gapWith, hn]
  rw [valueAt, valueAt, hkey, hgap]
  cases hside : c.side n.key with
  | lt => exact absurd hside hc
  | eq | gt => rfl

theorem valueAt_append_congr {pre : List (Node κ α)} (h : (∀ x ∈ pre, c.side x.key = .gt) →
      valueAt (valueAt g pre c) ns c = valueAt (valueAt g pre c) ms c) :
    valueAt g (pre ++ ns) c = valueAt g (pre ++ ms) c := by
  induction pre generalizing g with
  | nil => exact h (by simp)
  | cons x pre ih =>
    rw [cons_append, cons_append, valueAt, valueAt]
    cases hside : c.side x.key with
    | lt | eq => rfl
    | gt =>
      refine ih fun hpre => ?_
      rw [valueAt_cons_of_gt hside] at h
      exact h (forall_mem_cons.mpr ⟨hside, hpre⟩)

theorem valueAt_of_forall_lt (h : ∀ n ∈ ns, c.side n.key = .lt) : valueAt g ns c = g := by
  cases ns with
  | nil => rfl
  | cons n ns => exact valueAt_cons_of_lt (h n mem_cons_self)

theorem valueAt_of_not_mem (h : ∀ n ∈ ns, n.key ≠ k) :
    valueAt g ns (.key k) = valueAt g ns (.before k) ∧
      valueAt g ns (.after k) = valueAt g ns (.before k) := by
  induction ns generalizing g with
  | nil => exact ⟨rfl, rfl⟩
  | cons n ns ih =>
    rcases lt_or_gt_of_ne (h n mem_cons_self) with hlt | hgt
    · rw [valueAt_cons_of_gt (Cut.side_key_gt hlt), valueAt_cons_of_gt (Cut.side_before_gt hlt),
        valueAt_cons_of_gt (Cut.side_after_gt hlt.le)]
      exact ih fun m hm => h m (mem_cons_of_mem n hm)
    · rw [valueAt_cons_of_lt (Cut.side_key_lt hgt), valueAt_cons_of_lt (Cut.side_before_lt hgt.le),
        valueAt_cons_of_lt (Cut.side_after_lt hgt)]
      exact ⟨rfl, rfl⟩

theorem le_valueAt_of_mem (hs : Sorted ns) (hn : n ∈ ns) :
    n.keyVal ≤ valueAt g ns (.key n.key) ∧ n.gapVal ≤ valueAt g ns (.after n.key) := by
  induction ns generalizing g with
  | nil => simp at hn
  | cons m ns ih =>
    obtain ⟨hm, hns⟩ := pairwise_cons.mp hs
    rcases mem_cons.mp hn with rfl | hn
    · rw [valueAt_cons_of_eq (Cut.side_key_self _), valueAt_cons_of_gt (Cut.side_after_gt le_rfl),
        valueAt_of_forall_lt fun x hx => Cut.side_after_lt (hm x hx)]
      exact ⟨n.le_keyWith g, n.le_gapWith g⟩
    · rw [valueAt_cons_of_gt (Cut.side_key_gt (hm n hn)),
        valueAt_cons_of_gt (Cut.side_after_gt (hm n hn).le)]
      exact ih hns hn

theorem valueAt_le_of_forall {b : α} (hg : g ≤ b) (h : ∀ n ∈ ns, n.keyVal ≤ b ∧ n.gapVal ≤ b) :
    valueAt g ns c ≤ b := by
  induction ns generalizing g with
  | nil => exact hg
  | cons n ns ih =>
    obtain ⟨hn, hns⟩ := forall_mem_cons.mp h
    rw [valueAt]
    cases c.side n.key with
    | lt => exact hg
    | eq => exact (n.keyWith_le g).trans (sup_le hn.1 hg)
    | gt => exact ih ((n.gapWith_le g).trans (sup_le hn.2 hg)) hns

theorem le_valueAt_of_floor {v : α} {a : κ} (hs : Sorted ns) (hgap : v ≤ valueAt g ns (.after a))
    (hnodes : ∀ n ∈ ns, a < n.key → n.key ≤ k → v ≤ n.keyVal ∧ v ≤ n.gapVal)
    (ha : a < k) : v ≤ valueAt g ns (.key k) := by
  induction ns generalizing g with
  | nil => exact hgap
  | cons n ns ih =>
    obtain ⟨hn, hns⟩ := pairwise_cons.mp hs
    have hrest : ∀ m ∈ ns, a < m.key → m.key ≤ k → v ≤ m.keyVal ∧ v ≤ m.gapVal := fun m hm =>
      hnodes m (mem_cons_of_mem n hm)
    by_cases han : a < n.key
    · rw [valueAt_cons_of_lt (Cut.side_after_lt han)] at hgap
      rcases lt_trichotomy k n.key with hlt | rfl | hgt
      · rw [valueAt_cons_of_lt (Cut.side_key_lt hlt)]
        exact hgap
      · rw [valueAt_cons_of_eq (Cut.side_key_self _)]
        exact (hnodes n mem_cons_self han le_rfl).1.trans (n.le_keyWith g)
      · rw [valueAt_cons_of_gt (Cut.side_key_gt hgt)]
        have hv := (hnodes n mem_cons_self han hgt.le).2.trans (n.le_gapWith g)
        refine ih hns ?_ hrest
        cases ns with
        | nil => exact hv
        | cons m ns =>
          rwa [valueAt_cons_of_lt (Cut.side_after_lt (han.trans (hn m mem_cons_self)))]
    · rw [valueAt_cons_of_gt (Cut.side_after_gt (not_lt.mp han))] at hgap
      rw [valueAt_cons_of_gt (Cut.side_key_gt (lt_of_le_of_lt (not_lt.mp han) ha))]
      exact ih hns hgap hrest

theorem valueAt_le_replace {pre post : List (Node κ α)} (hkey : n.key = m.key)
    (hpre : ∀ x ∈ pre, x.key < n.key)
    (hk : n.keyWith (valueAt g pre (.before n.key)) ≤ m.keyWith (valueAt g pre (.before n.key)))
    (hg : n.gapWith (valueAt g pre (.before n.key)) ≤ m.gapWith (valueAt g pre (.before n.key))) :
    valueAt g (pre ++ n :: post) c ≤ valueAt g (pre ++ m :: post) c := by
  induction pre generalizing g with
  | nil => exact valueAt_cons_le hkey le_rfl hk (valueAt_mono hg)
  | cons x pre ih =>
    have hx := hpre x mem_cons_self
    rw [valueAt_cons_of_gt (Cut.side_before_gt hx)] at hk hg
    exact valueAt_cons_le rfl le_rfl le_rfl
      (ih (fun y hy => hpre y (mem_cons_of_mem x hy)) hk hg)

end Values

section Insert

variable [LinearOrder κ]

def insertNode (n : Node κ α) : List (Node κ α) → List (Node κ α)
  | [] => [n]
  | m :: ms => if n.key < m.key then n :: m :: ms else m :: insertNode n ms

variable {n : Node κ α} {ns : List (Node κ α)}

theorem mem_insertNode {m : Node κ α} : m ∈ insertNode n ns ↔ m = n ∨ m ∈ ns := by
  induction ns with
  | nil => simp [insertNode]
  | cons m' ns ih =>
    rw [insertNode]
    split_ifs
    · exact mem_cons
    · rw [mem_cons, mem_cons]
      tauto

theorem sorted_insertNode (hs : Sorted ns) (hn : ∀ m ∈ ns, m.key ≠ n.key) :
    Sorted (insertNode n ns) := by
  induction ns with
  | nil => exact pairwise_singleton _ _
  | cons m ns ih =>
    obtain ⟨hm, hns⟩ := pairwise_cons.mp hs
    rw [insertNode]
    split_ifs with hlt
    · refine pairwise_cons.mpr ⟨?_, hs⟩
      intro m' hm'
      rcases mem_cons.mp hm' with rfl | hm'
      · exact hlt
      · exact hlt.trans (hm m' hm')
    · refine pairwise_cons.mpr ⟨?_, ih hns fun m' hm' => hn m' (mem_cons_of_mem m hm')⟩
      intro m' hm'
      rcases mem_insertNode.mp hm' with rfl | hm'
      · exact lt_of_le_of_ne (not_lt.mp hlt) (hn m mem_cons_self)
      · exact hm m' hm'

variable [SemilatticeSup α]

theorem valueAt_le_insertNode (hn : n.initialized = false) {g : α} {c : Cut κ} :
    valueAt g ns c ≤ valueAt g (insertNode n ns) c := by
  have hkey : ∀ g, g ≤ n.keyWith g := by
    simp [Node.keyWith, hn]
  have hgap : ∀ g, g ≤ n.gapWith g := by
    simp [Node.gapWith, hn]
  induction ns generalizing g with
  | nil =>
    rw [insertNode, valueAt, valueAt]
    cases c.side n.key with
    | lt => exact le_rfl
    | eq => exact hkey g
    | gt => exact hgap g
  | cons m ns ih =>
    rw [insertNode]
    split_ifs with hlt
    · cases hside : c.side n.key with
      | lt =>
        have hm : c.side m.key = .lt := by
          by_contra hne
          rw [c.mono hlt hne] at hside
          cases hside
        rw [valueAt_cons_of_lt hside, valueAt_cons_of_lt hm]
      | eq =>
        have hm : c.side m.key = .lt := by
          by_contra hne
          rw [c.mono hlt hne] at hside
          cases hside
        rw [valueAt_cons_of_eq hside, valueAt_cons_of_lt hm]
        exact hkey g
      | gt =>
        rw [valueAt_cons_of_gt hside]
        exact valueAt_mono (hgap g)
    · exact valueAt_cons_le rfl le_rfl le_rfl ih

end Insert

end GapMap
