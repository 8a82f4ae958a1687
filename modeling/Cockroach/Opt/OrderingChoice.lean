import Mathlib.Data.Finset.Max
import Mathlib.Data.List.Basic

/-! Orderings that leave a choice: a sequence of groups of equivalent columns, each with a
direction, and a set of columns that may appear anywhere. -/
namespace Cockroach.Opt

abbrev ColSet := Finset ℕ

/-- Any column of the group can form this column of the sort key. -/
@[ext] structure OrderingColumnChoice where
  group : ColSet
  descending : Bool
  nonempty : group.Nonempty
deriving DecidableEq

def OrderingColumnChoice.anyID (c : OrderingColumnChoice) : ℕ := c.group.min' c.nonempty

structure OrderingChoice where
  optional : ColSet
  columns : List OrderingColumnChoice
deriving DecidableEq

abbrev ColSet.Intersects (s t : ColSet) : Prop := (s ∩ t).Nonempty

/-- The columns of the left list match those of the right one or are optional there. All columns
of a group become optional once one of them is used. -/
def impliesLoop (optional : ColSet) :
    List OrderingColumnChoice → List OrderingColumnChoice → Bool
  | _, [] => true
  | [], _ :: _ => false
  | l :: ls, r :: rs =>
    if l.descending = r.descending ∧ l.group ⊆ r.group then
      impliesLoop (optional ∪ r.group) ls rs
    else if ColSet.Intersects optional l.group then impliesLoop optional ls (r :: rs)
    else false

def intersectsLoop (leftOptional rightOptional : ColSet) :
    List OrderingColumnChoice → List OrderingColumnChoice → Bool
  | [], _ => true
  | _, [] => true
  | l :: ls, r :: rs =>
    if l.descending = r.descending ∧ ColSet.Intersects l.group r.group then
      intersectsLoop (leftOptional ∪ l.group) (rightOptional ∪ r.group) ls rs
    else if ColSet.Intersects rightOptional l.group then
      intersectsLoop (leftOptional ∪ l.group) rightOptional ls (r :: rs)
    else if ColSet.Intersects leftOptional r.group then
      intersectsLoop leftOptional (rightOptional ∪ r.group) (l :: ls) rs
    else false
termination_by ls rs => ls.length + rs.length

/-- No result stands for the panic over sets that do not intersect. -/
def intersectionLoop (leftOptional rightOptional : ColSet) :
    List OrderingColumnChoice → List OrderingColumnChoice → Option (List OrderingColumnChoice)
  | [], rs => some rs
  | l :: ls, [] => some (l :: ls)
  | l :: ls, r :: rs =>
    if h : l.descending = r.descending ∧ ColSet.Intersects l.group r.group then
      (intersectionLoop (leftOptional ∪ l.group) (rightOptional ∪ r.group) ls rs).map
        (⟨l.group ∩ r.group, l.descending, h.2⟩ :: ·)
    else if h : ColSet.Intersects rightOptional l.group then
      (intersectionLoop (leftOptional ∪ l.group) rightOptional ls (r :: rs)).map
        (⟨rightOptional ∩ l.group, l.descending, h⟩ :: ·)
    else if h : ColSet.Intersects leftOptional r.group then
      (intersectionLoop leftOptional (rightOptional ∪ r.group) (l :: ls) rs).map
        (⟨leftOptional ∩ r.group, r.descending, h⟩ :: ·)
    else none
termination_by ls rs => ls.length + rs.length

namespace OrderingChoice

def any (oc : OrderingChoice) : Bool := oc.columns.isEmpty

def implies (oc other : OrderingChoice) : Bool :=
  decide (oc.optional ⊆ other.optional) && impliesLoop other.optional oc.columns other.columns

def intersects (oc other : OrderingChoice) : Bool :=
  intersectsLoop oc.optional other.optional oc.columns other.columns

def intersection (oc other : OrderingChoice) : Option OrderingChoice :=
  if oc.any then some other
  else if other.any then some oc
  else (intersectionLoop oc.optional other.optional oc.columns other.columns).map
    (⟨oc.optional ∩ other.optional, ·⟩)

/-- The groups are disjoint from each other and from the optional columns. -/
def Separate (oc : OrderingChoice) : Prop :=
  oc.columns.Pairwise (fun c d => Disjoint c.group d.group) ∧
    ∀ c ∈ oc.columns, Disjoint oc.optional c.group

instance (oc : OrderingChoice) : Decidable oc.Separate := inferInstanceAs (Decidable (_ ∧ _))

end OrderingChoice

variable {L R : ColSet} {l r : OrderingColumnChoice} {ls rs : List OrderingColumnChoice}

theorem impliesLoop_nil : impliesLoop R ls [] = true := by
  cases ls <;> rfl

/-- Whatever the left columns skip on the way through the right ones is optional as a whole. -/
def SkipsWhole (optional : ColSet) :
    List OrderingColumnChoice → List OrderingColumnChoice → Prop
  | _, [] => True
  | [], _ :: _ => True
  | l :: ls, r :: rs =>
    if l.descending = r.descending ∧ l.group ⊆ r.group then
      SkipsWhole (optional ∪ r.group) ls rs
    else l.group ⊆ optional ∧ SkipsWhole optional ls (r :: rs)

theorem map_cons_eq_cons {o : Option (List OrderingColumnChoice)} {group : ColSet}
    {descending : Bool} {h : group.Nonempty} (hgroup : group = l.group)
    (hdesc : descending = l.descending) :
    o.map ((⟨group, descending, h⟩ : OrderingColumnChoice) :: ·) = some (l :: ls) ↔
      o = some ls := by
  subst hgroup hdesc
  cases o <;> simp

/-- If the groups that are skipped were not narrowed, the left columns are what both walks keep;
the groups that were used on the left are optional on the right all along. -/
theorem intersectionLoop_eq_iff (hLR : L ⊆ R)
    (hrs : rs.Pairwise fun c d => Disjoint c.group d.group) (hR : ∀ c ∈ rs, Disjoint R c.group)
    (h : impliesLoop R ls rs = true) :
    (intersectionLoop L R ls rs = some ls ∧ intersectionLoop R L rs ls = some ls) ↔
      SkipsWhole R ls rs := by
  induction ls generalizing L R rs with
  | nil =>
    cases rs with
    | nil => simp [intersectionLoop, SkipsWhole]
    | cons r rs => simp [impliesLoop] at h
  | cons l ls ih =>
    cases rs with
    | nil => simp [intersectionLoop, SkipsWhole]
    | cons r rs =>
      obtain ⟨hr, hrs'⟩ := List.pairwise_cons.mp hrs
      obtain ⟨hRr, hR'⟩ := List.forall_mem_cons.mp hR
      rw [impliesLoop] at h
      rw [intersectionLoop, intersectionLoop, SkipsWhole]
      by_cases hmatch : l.descending = r.descending ∧ l.group ⊆ r.group
      · rw [if_pos hmatch] at h
        have hinter : l.group ∩ r.group = l.group := Finset.inter_eq_left.mpr hmatch.2
        have hinter' : r.group ∩ l.group = l.group := Finset.inter_eq_right.mpr hmatch.2
        have hl : ColSet.Intersects l.group r.group := by
          rw [ColSet.Intersects, hinter]
          exact l.nonempty
        have hr' : ColSet.Intersects r.group l.group := by
          rwa [ColSet.Intersects, Finset.inter_comm]
        rw [dif_pos ⟨hmatch.1, hl⟩, dif_pos ⟨hmatch.1.symm, hr'⟩, if_pos hmatch,
          map_cons_eq_cons hinter rfl, map_cons_eq_cons hinter' hmatch.1.symm]
        refine ih (Finset.union_subset_union hLR hmatch.2) hrs' (fun c hc => ?_) h
        exact Finset.disjoint_union_left.mpr ⟨hR' c hc, hr c hc⟩
      · rw [if_neg hmatch] at h ⊢
        split_ifs at h with hopt
        by_cases hl : l.group ⊆ R
        · have hlr : ¬ ColSet.Intersects l.group r.group :=
            Finset.not_nonempty_iff_eq_empty.mpr (hRr.mono_left hl).eq_bot
          have hLr : ¬ ColSet.Intersects L r.group :=
            Finset.not_nonempty_iff_eq_empty.mpr (hRr.mono_left hLR).eq_bot
          have hrl : ¬ ColSet.Intersects r.group l.group := by
            rwa [ColSet.Intersects, Finset.inter_comm]
          have hinter : R ∩ l.group = l.group := Finset.inter_eq_right.mpr hl
          rw [dif_neg (fun hboth => hlr hboth.2), dif_pos hopt, dif_neg fun hboth => hrl hboth.2,
            dif_neg hLr, dif_pos hopt, map_cons_eq_cons hinter rfl, map_cons_eq_cons hinter rfl,
            and_iff_right hl]
          exact ih (Finset.union_subset hLR hl) hrs hR h
        · refine iff_of_false (fun hkept => ?_) fun hskip => hl hskip.1
          -- Either walk would have to narrow the group.
          have hhead := hkept.1
          split_ifs at hhead with hsame
          · obtain ⟨x, -, hx⟩ := Option.map_eq_some_iff.mp hhead
            have hgroup := congrArg OrderingColumnChoice.group (List.cons.inj hx).1
            exact hmatch ⟨hsame.1, Finset.inter_eq_left.mp hgroup⟩
          · obtain ⟨x, -, hx⟩ := Option.map_eq_some_iff.mp hhead
            have hgroup := congrArg OrderingColumnChoice.group (List.cons.inj hx).1
            exact hl (Finset.inter_eq_right.mp hgroup)

/-- An ordering that implies another one is their intersection exactly if it skips only groups
that are optional as a whole. -/
theorem OrderingChoice.intersection_eq_iff_skipsWhole {a b : OrderingChoice}
    (hb : b.Separate) (h : a.implies b = true) :
    (a.intersection b = some a ∧ b.intersection a = some a) ↔
      (a.any = true → a.optional = b.optional) ∧ SkipsWhole b.optional a.columns b.columns := by
  obtain ⟨opt, cols⟩ := a
  obtain ⟨opt', cols'⟩ := b
  obtain ⟨hopt, hloop⟩ := (Bool.and_eq_true _ _).mp h
  have hopt := of_decide_eq_true hopt
  have hloop := intersectionLoop_eq_iff hopt hb.1 hb.2 hloop
  have hinter : opt ∩ opt' = opt := Finset.inter_eq_left.mpr hopt
  have hinter' : opt' ∩ opt = opt := Finset.inter_eq_right.mpr hopt
  cases cols with
  | nil =>
    cases cols' with
    | nil => simp [intersection, any, SkipsWhole, eq_comm]
    | cons r rs => simp [implies, impliesLoop] at h
  | cons l ls =>
    cases cols' with
    | nil => simp [intersection, any, SkipsWhole]
    | cons r rs =>
      rw [← hloop]
      simp [intersection, any, Option.map_eq_some_iff, hinter, hinter']

/-- An ordering by the columns of the list. -/
def OrderingChoice.ascending (optional : ColSet) (columns : List ℕ) : OrderingChoice :=
  ⟨optional, columns.map fun c => ⟨{c}, false, Finset.singleton_nonempty c⟩⟩

theorem OrderingChoice.intersection_eq_of_skipped_column :
    (ascending ∅ [1, 3]).intersection (ascending {1} [3]) = some (ascending ∅ [1, 3]) ∧
      (ascending {1} [3]).intersection (ascending ∅ [1, 3]) = some (ascending ∅ [1, 3]) :=
  (intersection_eq_iff_skipsWhole (by decide) (by decide)).mpr
    ⟨by decide, by simp [ascending, SkipsWhole]⟩

/-- The group of the columns 1 and 2 is skipped as the column 1 is optional, and narrowed to it. -/
theorem OrderingChoice.intersection_narrows_skipped_group :
    let a : OrderingChoice := ⟨∅, ⟨{1, 2}, false, by decide⟩ :: (ascending ∅ [3]).columns⟩
    a.Separate ∧ (ascending {1} [3]).Separate ∧ a.implies (ascending {1} [3]) = true ∧
      a.intersection (ascending {1} [3]) = some (ascending ∅ [1, 3]) ∧ ascending ∅ [1, 3] ≠ a := by
  refine ⟨by decide, by decide, by decide, ?_, by decide⟩
  simp [intersection, ascending, any, intersectionLoop, ColSet.Intersects]

end Cockroach.Opt
