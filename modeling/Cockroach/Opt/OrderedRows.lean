import Cockroach.Opt.FuncDep

/-! Row sequences that satisfy an ordering: what implications, intersections and simplifications of
orderings mean for them. -/
namespace Cockroach.Opt
open List Option
open Finset (inter_subset_right mem_inter mem_sdiff mem_union min'_mem not_subset)

namespace FuncDepSet

/-- Constant columns become optional, groups that the ones before determine are dropped, and the
others become the groups of equivalent columns. -/
def simplifyLoop (F : FuncDepSet) (optional : ColSet) :
    ColSet → List OrderingColumnChoice → List OrderingColumnChoice
  | _, [] => []
  | closure, g :: gs =>
    if ColSet.Intersects g.group optional ∧ g.group ⊆ optional then
      simplifyLoop F optional closure gs
    else
      let group := if ColSet.Intersects g.group optional then g.group \ optional else g.group
      if h : group ⊆ closure then simplifyLoop F optional closure gs
      else
        let rep := group.min' ((not_subset.mp h).imp fun _ hc => hc.1)
        ⟨F.computeEquivGroup rep, g.descending, rep, mem_computeEquivGroup⟩ ::
          simplifyLoop F optional
            (computeClosure F.deps (closure ∪ F.computeEquivGroup rep)) gs

def canSimplifyLoop (F : FuncDepSet) (optional : ColSet) :
    ColSet → List OrderingColumnChoice → Bool
  | _, [] => false
  | closure, g :: gs =>
    if ColSet.Intersects g.group optional then true
    else if g.group ⊆ closure then true
    else if F.computeEquivGroup g.anyID ≠ g.group then true
    else canSimplifyLoop F optional
      (computeClosure F.deps (closure ∪ F.computeEquivGroup g.anyID)) gs

end FuncDepSet

namespace OrderingChoice

def simplify (oc : OrderingChoice) (F : FuncDepSet) : OrderingChoice :=
  let optional := computeClosure F.deps oc.optional
  let columns := F.simplifyLoop optional optional oc.columns
  if columns = [] then ⟨∅, []⟩ else ⟨optional, columns⟩

def canSimplify (oc : OrderingChoice) (F : FuncDepSet) : Bool :=
  if oc.any then false
  else
    let optional := computeClosure F.deps oc.optional
    if optional ≠ oc.optional then true else F.canSimplifyLoop optional optional oc.columns

end OrderingChoice

variable {V : Type*} {x y : ℕ → V} {s L R : ColSet}

/-- The rows have the same values in these columns. -/
def Agree (cols : ColSet) (x y : ℕ → V) : Prop := ∀ c ∈ cols, x c = y c

theorem Agree.union {t : ColSet} (hs : Agree s x y) (ht : Agree t x y) : Agree (s ∪ t) x y := by
  intro c hc
  rcases mem_union.mp hc with hc | hc
  · exact hs c hc
  · exact ht c hc

/-- A group of which one column agrees agrees. -/
theorem agree_group {group : ColSet} {c : ℕ} (hc : c ∈ group)
    (hx : ∀ c ∈ group, ∀ d ∈ group, x c = x d) (hy : ∀ c ∈ group, ∀ d ∈ group, y c = y d)
    (h : x c = y c) : Agree group x y := by
  intro d hd
  rw [hx d hd c hc, hy d hd c hc, h]

/-- The strict dependencies and the equivalences hold in the rows. -/
structure FuncDepSet.Holds (F : FuncDepSet) (rows : List (ℕ → V)) : Prop where
  strict : ∀ fd ∈ F.deps, fd.strict = true → ∀ x ∈ rows, ∀ y ∈ rows,
    Agree fd.fromCols x y → Agree fd.toCols x y
  equiv : ∀ fd ∈ F.deps, fd.equiv = true → ∀ x ∈ rows, ∀ c ∈ fd.fromCols, ∀ d ∈ fd.toCols,
    x c = x d

variable {F : FuncDepSet} {rows : List (ℕ → V)} {c d : ℕ}

theorem FuncDepSet.Holds.agree (hF : F.Holds rows) (hx : x ∈ rows) (hy : y ∈ rows)
    (h : Agree s x y) : Agree (computeClosure F.deps s) x y :=
  computeClosure_induct (P := (Agree · x y)) h fun _ fd hfd hstrict hfrom ht =>
    ht.union (hF.strict fd hfd hstrict x hx y hy fun c hc => ht c (hfrom hc))

theorem FuncDepSet.Holds.eq_of_mem (hF : F.Holds rows) (hx : x ∈ rows)
    (h : d ∈ F.computeEquivGroup c) : x d = x c := by
  refine computeEquivClosure_induct (P := fun t => ∀ d ∈ t, x d = x c) (by simp)
    (fun t fd hfd hequiv hfrom ht d hd => ?_) d h
  rcases mem_union.mp hd with hd | hd
  · exact ht d hd
  · obtain ⟨-, c', hfrom', -⟩ := F.equivs fd hfd hequiv
    have hc' : c' ∈ fd.fromCols := hfrom' ▸ Finset.mem_singleton_self c'
    rw [← hF.equiv fd hfd hequiv x hx c' hc' d hd, ht c' (hfrom hc')]

variable [LinearOrder V]

/-- The first column in which the rows differ has them in its direction. -/
def LexLE : List (ℕ × Bool) → (ℕ → V) → (ℕ → V) → Prop
  | [], _, _ => True
  | (c, descending) :: cs, x, y =>
    (if descending then y c < x c else x c < y c) ∨ x c = y c ∧ LexLE cs x y

/-- One column is chosen from each group. -/
def Chosen (cs : List (ℕ × Bool)) (columns : List OrderingColumnChoice) : Prop :=
  List.Forall₂ (fun c g => c.1 ∈ g.group ∧ c.2 = g.descending) cs columns

/-- Rows that agree on the optional columns are sorted by columns chosen from the groups. -/
def OrderingChoice.Satisfied (oc : OrderingChoice) (rows : List (ℕ → V)) : Prop :=
  ∃ cs, Chosen cs oc.columns ∧
    rows.Pairwise fun x y => Agree oc.optional x y → LexLE cs x y

/-- The columns of each group are equal. -/
def EvenOn (columns : List OrderingColumnChoice) (x : ℕ → V) : Prop :=
  ∀ g ∈ columns, ∀ c ∈ g.group, ∀ d ∈ g.group, x c = x d

variable {g : OrderingColumnChoice} {gs ls rs res : List OrderingColumnChoice}

theorem OrderingColumnChoice.anyID_mem (g : OrderingColumnChoice) : g.anyID ∈ g.group :=
  min'_mem _ _

/-- The sort key that takes any column of each group. -/
def sortKey (columns : List OrderingColumnChoice) : List (ℕ × Bool) :=
  columns.map fun g => (g.anyID, g.descending)

/-- The rows are in the order of the groups. -/
abbrev Ordered (columns : List OrderingColumnChoice) (x y : ℕ → V) : Prop :=
  LexLE (sortKey columns) x y

theorem Chosen.lexLE_iff {cs : List (ℕ × Bool)} (h : Chosen cs gs) (hx : EvenOn gs x)
    (hy : EvenOn gs y) : LexLE cs x y ↔ Ordered gs x y := by
  induction h with
  | nil => exact Iff.rfl
  | @cons c g cs gs hc h ih =>
    obtain ⟨hx, hxs⟩ := forall_mem_cons.mp hx
    obtain ⟨hy, hys⟩ := forall_mem_cons.mp hy
    obtain ⟨c, d⟩ := c
    obtain ⟨hc, rfl⟩ := hc
    have hsame := ih hxs hys
    rw [Ordered, sortKey, map_cons, LexLE, hx c hc _ g.anyID_mem, hy c hc _ g.anyID_mem, hsame]
    rfl

theorem OrderingChoice.satisfied_iff {oc : OrderingChoice} (h : ∀ x ∈ rows, EvenOn oc.columns x) :
    oc.Satisfied rows ↔
      rows.Pairwise fun x y => Agree oc.optional x y → Ordered oc.columns x y := by
  constructor
  · rintro ⟨cs, hcs, hrows⟩
    exact hrows.imp_of_mem fun hx hy hxy hagree =>
      (hcs.lexLE_iff (h _ hx) (h _ hy)).mp (hxy hagree)
  · intro hrows
    refine ⟨sortKey oc.columns, ?_, hrows⟩
    unfold Chosen sortKey
    rw [forall₂_map_left_iff, forall₂_same]
    exact fun g _ => ⟨g.anyID_mem, rfl⟩

theorem ordered_cons : Ordered (g :: gs) x y ↔
    (if g.descending then y g.anyID < x g.anyID else x g.anyID < y g.anyID) ∨
      x g.anyID = y g.anyID ∧ Ordered gs x y := Iff.rfl

/-- A group in which the rows agree does not decide. -/
theorem ordered_cons_of_eq (h : x g.anyID = y g.anyID) :
    Ordered (g :: gs) x y ↔ Ordered gs x y := by
  rw [ordered_cons, h]
  simp

theorem ordered_of_implies (hloop : impliesLoop R ls rs = true) (hls : EvenOn ls x)
    (hls' : EvenOn ls y) (hrs : EvenOn rs x) (hrs' : EvenOn rs y) (hR : Agree R x y)
    (h : Ordered ls x y) : Ordered rs x y := by
  induction ls generalizing R rs with
  | nil =>
    cases rs with
    | nil => trivial
    | cons r rs => simp [impliesLoop] at hloop
  | cons l ls ih =>
    obtain ⟨hl, hls⟩ := forall_mem_cons.mp hls
    obtain ⟨hl', hls'⟩ := forall_mem_cons.mp hls'
    cases rs with
    | nil => trivial
    | cons r rs =>
      rw [impliesLoop] at hloop
      split_ifs at hloop with hmatch hopt
      · obtain ⟨hr, hrs⟩ := forall_mem_cons.mp hrs
        obtain ⟨hr', hrs'⟩ := forall_mem_cons.mp hrs'
        have hmem := hmatch.2 l.anyID_mem
        rw [ordered_cons, hmatch.1, hr _ hmem _ r.anyID_mem, hr' _ hmem _ r.anyID_mem] at h
        rcases h with h | ⟨heq, h⟩
        · exact .inl h
        · refine .inr ⟨heq, ih hloop hls hls' hrs hrs' (hR.union ?_) h⟩
          exact agree_group r.anyID_mem hr hr' heq
      · obtain ⟨c, hc⟩ := hopt
        rw [mem_inter] at hc
        have heq := agree_group hc.2 hl hl' (hR c hc.1) l.anyID l.anyID_mem
        exact ih hloop hls hls' hrs hrs' hR ((ordered_cons_of_eq heq).mp h)

theorem OrderingChoice.Satisfied.of_implies {a b : OrderingChoice} (h : a.implies b = true)
    (ha : ∀ x ∈ rows, EvenOn a.columns x) (hb : ∀ x ∈ rows, EvenOn b.columns x)
    (hsat : a.Satisfied rows) : b.Satisfied rows := by
  obtain ⟨hopt, hloop⟩ := (Bool.and_eq_true _ _).mp h
  rw [satisfied_iff hb]
  refine ((satisfied_iff ha).mp hsat).imp_of_mem fun hx hy hxy hagree => ?_
  exact ordered_of_implies hloop (ha _ hx) (ha _ hy) (hb _ hx) (hb _ hy) hagree
    (hxy fun c hc => hagree c (of_decide_eq_true hopt hc))

section Intersection

variable {l r : OrderingColumnChoice} {a b : OrderingChoice}

theorem impliesLoop_self : impliesLoop R ls ls = true := by
  induction ls generalizing R with
  | nil => rfl
  | cons l ls ih =>
    rw [impliesLoop, if_pos ⟨rfl, subset_rfl⟩]
    exact ih

/-- A column that the right list is past is optional there. -/
theorem impliesLoop_advance (h : impliesLoop R ls (r :: rs) = true) :
    impliesLoop (R ∪ r.group) ls rs = true := by
  induction ls generalizing R r rs with
  | nil => simp [impliesLoop] at h
  | cons l ls ih =>
    cases rs with
    | nil => exact impliesLoop_nil
    | cons r' rs =>
      rw [impliesLoop] at h ⊢
      split_ifs at h with hmatch hopt
      · have hopt : ColSet.Intersects (R ∪ r.group) l.group :=
          ⟨l.anyID, mem_inter.mpr
            ⟨Finset.mem_union_right R (hmatch.2 l.anyID_mem), l.anyID_mem⟩⟩
        split_ifs
        · exact ih h
        · exact h
      · rw [if_pos (hopt.mono (Finset.inter_subset_inter_right Finset.subset_union_left))]
        split_ifs
        · exact ih (ih h)
        · exact ih h

theorem impliesLoop_cons (hl : ColSet.Intersects R l.group) (h : impliesLoop R ls rs = true) :
    impliesLoop R (l :: ls) rs = true := by
  cases rs with
  | nil => rfl
  | cons r rs =>
    rw [impliesLoop]
    split_ifs
    · exact impliesLoop_advance h
    · exact h

/-- The intersection goes on to imply both lists, as narrowed groups match those they come from
and columns of one list are optional in the other. -/
theorem intersectionLoop_implies (h : intersectionLoop L R ls rs = some res) :
    impliesLoop L res ls = true ∧ impliesLoop R res rs = true ∧
      ∀ g ∈ res, ∃ g' ∈ ls ++ rs, g.group ⊆ g'.group := by
  induction L, R, ls, rs using intersectionLoop.induct generalizing res with
  | case1 L R rs =>
    rw [intersectionLoop] at h
    obtain rfl := some.inj h
    exact ⟨impliesLoop_nil, impliesLoop_self, fun g hg => ⟨g, hg, subset_rfl⟩⟩
  | case2 L R l ls =>
    rw [intersectionLoop] at h
    obtain rfl := some.inj h
    exact ⟨impliesLoop_self, impliesLoop_nil, fun g hg => ⟨g, by simpa using hg, subset_rfl⟩⟩
  | case3 L R l ls r rs hmatch ih =>
    rw [intersectionLoop, dif_pos hmatch] at h
    obtain ⟨res, hres, rfl⟩ := map_eq_some_iff.mp h
    obtain ⟨hls, hrs, hsub⟩ := ih hres
    rw [impliesLoop, impliesLoop, if_pos ⟨rfl, Finset.inter_subset_left⟩,
      if_pos ⟨hmatch.1, inter_subset_right⟩]
    refine ⟨hls, hrs, forall_mem_cons.mpr ⟨⟨l, by simp, Finset.inter_subset_left⟩, ?_⟩⟩
    exact fun g hg => (hsub g hg).imp (by grind)
  | case4 L R l ls r rs hne hopt ih =>
    rw [intersectionLoop, dif_neg hne, dif_pos hopt] at h
    obtain ⟨res, hres, rfl⟩ := map_eq_some_iff.mp h
    obtain ⟨hls, hrs, hsub⟩ := ih hres
    rw [impliesLoop, if_pos ⟨rfl, inter_subset_right⟩]
    refine ⟨hls, impliesLoop_cons ?_ hrs, forall_mem_cons.mpr
      ⟨⟨l, by simp, inter_subset_right⟩, fun g hg => (hsub g hg).imp (by grind)⟩⟩
    rwa [ColSet.Intersects, Finset.inter_left_idem]
  | case5 L R l ls r rs hne hne' hopt ih =>
    rw [intersectionLoop, dif_neg hne, dif_neg hne', dif_pos hopt] at h
    obtain ⟨res, hres, rfl⟩ := map_eq_some_iff.mp h
    obtain ⟨hls, hrs, hsub⟩ := ih hres
    refine ⟨impliesLoop_cons ?_ hls, ?_, forall_mem_cons.mpr
      ⟨⟨r, by simp, inter_subset_right⟩, fun g hg => (hsub g hg).imp (by grind)⟩⟩
    · rwa [ColSet.Intersects, Finset.inter_left_idem]
    · exact (if_pos ⟨rfl, inter_subset_right⟩).trans hrs
  | case6 L R l ls r rs hne hne' hne'' =>
    rw [intersectionLoop, dif_neg hne, dif_neg hne', dif_neg hne''] at h
    cases h

theorem intersectionLoop_isSome :
    (intersectionLoop L R ls rs).isSome = intersectsLoop L R ls rs := by
  induction L, R, ls, rs using intersectionLoop.induct with
  | case1 | case2 => simp [intersectionLoop, intersectsLoop]
  | case3 L R l ls r rs h ih => simp [intersectionLoop, intersectsLoop, h, ih]
  | case4 L R l ls r rs h h' ih => simp [intersectionLoop, intersectsLoop, h, h', ih]
  | case5 L R l ls r rs h h' h'' ih => simp [intersectionLoop, intersectsLoop, h, h', h'', ih]
  | case6 L R l ls r rs h h' h'' => simp [intersectionLoop, intersectsLoop, h, h', h'']

theorem OrderingChoice.satisfied_of_any (h : a.any = true) : a.Satisfied rows := by
  obtain ⟨opt, cols⟩ := a
  obtain rfl := isEmpty_iff.mp h
  exact ⟨[], .nil, pairwise_of_forall fun _ _ _ => trivial⟩

theorem OrderingChoice.implies_of_any (h : b.any = true) :
    a.implies b = true ↔ a.optional ⊆ b.optional := by
  simp [implies, isEmpty_iff.mp h, impliesLoop_nil]

theorem OrderingChoice.implies_self : a.implies a = true := by
  simp [implies, impliesLoop_self]

/-- Orderings without columns apart, the intersection implies both. -/
theorem OrderingChoice.intersection_spec (V : Type*) [LinearOrder V]
    (h : a.intersects b = true) : ∃ r, a.intersection b = some r ∧
      (∀ rows : List (ℕ → V), (∀ x ∈ rows, EvenOn a.columns x) → (∀ x ∈ rows, EvenOn b.columns x) →
        r.Satisfied rows → a.Satisfied rows ∧ b.Satisfied rows) ∧
      (r.implies a = true ∧ r.implies b = true ↔ (a.any = true → b.optional ⊆ a.optional) ∧
        (a.any = false → b.any = true → a.optional ⊆ b.optional)) := by
  unfold intersection
  by_cases ha : a.any = true
  · rw [if_pos ha]
    refine ⟨b, rfl, fun rows _ _ hb => ⟨satisfied_of_any ha, hb⟩, ?_⟩
    simp [implies_of_any ha, implies_self, ha]
  rw [if_neg ha]
  by_cases hb : b.any = true
  · rw [if_pos hb]
    refine ⟨a, rfl, fun rows _ _ ha => ⟨ha, satisfied_of_any hb⟩, ?_⟩
    simp [implies_of_any hb, implies_self, ha, hb]
  rw [if_neg hb]
  obtain ⟨res, hres⟩ := isSome_iff_exists.mp (intersectionLoop_isSome.trans h)
  obtain ⟨hls, hrs, hsub⟩ := intersectionLoop_implies hres
  have hia : implies ⟨a.optional ∩ b.optional, res⟩ a = true := by
    simp [implies, hls]
  have hib : implies ⟨a.optional ∩ b.optional, res⟩ b = true := by
    simp [implies, hrs]
  refine ⟨_, by rw [hres]; rfl, fun rows hx hy hsat => ?_, by simp [hia, hib, ha, hb]⟩
  have hres : ∀ x ∈ rows, EvenOn res x := by
    intro x hmem g hg c hc d hd
    obtain ⟨g', hg', hgg⟩ := hsub g hg
    rcases mem_append.mp hg' with hg' | hg'
    · exact hx x hmem g' hg' c (hgg hc) d (hgg hd)
    · exact hy x hmem g' hg' c (hgg hc) d (hgg hd)
  exact ⟨hsat.of_implies hia hres hx, hsat.of_implies hib hres hy⟩

end Intersection

section Simplify

variable {optional closure : ColSet} {a : OrderingChoice}

/-- The set knows the columns of the group to be equivalent. -/
def FuncDepSet.Equates (F : FuncDepSet) (g : OrderingColumnChoice) : Prop :=
  ∀ c ∈ g.group, ∀ d ∈ g.group, d ∈ F.computeEquivGroup c

/-- A group is dropped, or replaced by that of one of its columns. -/
theorem simplifyLoop_cons (F : FuncDepSet) (g : OrderingColumnChoice)
    (gs : List OrderingColumnChoice) (hsub : optional ⊆ closure) : (g.group ⊆ closure ∧
      F.simplifyLoop optional closure (g :: gs) = F.simplifyLoop optional closure gs) ∨
    ∃ rep h, rep ∈ g.group ∧ rep ∉ optional ∧ ¬ g.group ⊆ closure ∧
      (¬ ColSet.Intersects g.group optional → rep = g.anyID) ∧
      F.simplifyLoop optional closure (g :: gs) =
        ⟨F.computeEquivGroup rep, g.descending, h⟩ :: F.simplifyLoop optional
          (computeClosure F.deps (closure ∪ F.computeEquivGroup rep)) gs := by
  rw [FuncDepSet.simplifyLoop]
  split_ifs with hall hopt
  · exact .inl ⟨hall.2.trans hsub, rfl⟩
  · dsimp only
    split_ifs with hc
    · exact .inl ⟨fun c hmem => by
        by_cases hcopt : c ∈ optional
        · exact hsub hcopt
        · exact hc (mem_sdiff.mpr ⟨hmem, hcopt⟩), rfl⟩
    · obtain ⟨hmem, hnot⟩ := mem_sdiff.mp (min'_mem (g.group \ optional)
        ((not_subset.mp hc).imp fun _ hc => hc.1))
      exact .inr ⟨_, ⟨_, FuncDepSet.mem_computeEquivGroup⟩, hmem, hnot,
        fun h => hc (Finset.sdiff_subset.trans h), fun h => absurd hopt h, rfl⟩
  · dsimp only
    split_ifs with hc
    · exact .inl ⟨hc, rfl⟩
    · refine .inr ⟨_, ⟨_, FuncDepSet.mem_computeEquivGroup⟩, g.anyID_mem, fun hmem => hopt ?_,
        hc, fun _ => rfl, rfl⟩
      exact ⟨_, mem_inter.mpr ⟨g.anyID_mem, hmem⟩⟩

theorem ordered_simplifyLoop (hF : F.Holds rows) (hx : x ∈ rows) (hy : y ∈ rows)
    (hsub : optional ⊆ closure) (hgs : ∀ g ∈ gs, F.Equates g) (hcl : Agree closure x y) :
    Ordered (F.simplifyLoop optional closure gs) x y ↔ Ordered gs x y := by
  induction gs generalizing closure with
  | nil => rfl
  | cons g gs ih =>
    obtain ⟨hg, hgs⟩ := forall_mem_cons.mp hgs
    obtain ⟨hdet, heq⟩ | ⟨rep, hrep, hmem, -, -, -, heq⟩ := simplifyLoop_cons F g gs hsub
    · rw [heq, ih hsub hgs hcl, ordered_cons_of_eq (hcl _ (hdet g.anyID_mem))]
    · have hany : ∀ x ∈ rows, x (OrderingColumnChoice.mk (F.computeEquivGroup rep) g.descending
          hrep).anyID = x g.anyID := fun x hx =>
        (hF.eq_of_mem hx (OrderingColumnChoice.anyID_mem _)).trans
          (hF.eq_of_mem hx (hg rep hmem _ g.anyID_mem)).symm
      rw [heq, ordered_cons, hany x hx, hany y hy]
      refine or_congr_right (and_congr_right fun hsame => ?_)
      refine ih (subset_computeClosure_union hsub) hgs
        (hF.agree hx hy (hcl.union fun c hc => ?_))
      have hrep' := fun x hx => hF.eq_of_mem (x := x) hx (hg rep hmem _ g.anyID_mem)
      rw [hF.eq_of_mem hx hc, hF.eq_of_mem hy hc, ← hrep' x hx, ← hrep' y hy, hsame]

theorem simplifyLoop_idem (hcl : Closed F.deps closure) (hsub : optional ⊆ closure)
    (hgs : ∀ g ∈ gs, F.Equates g) :
    F.simplifyLoop optional closure (F.simplifyLoop optional closure gs) =
      F.simplifyLoop optional closure gs := by
  induction gs generalizing closure with
  | nil => rfl
  | cons g gs ih =>
    obtain ⟨hg, hgs⟩ := forall_mem_cons.mp hgs
    obtain ⟨-, heq⟩ | ⟨rep, hrep, hmem, -, hnot, -, heq⟩ := simplifyLoop_cons F g gs hsub
    · rw [heq, ih hcl hsub hgs]
    · rw [heq]
      obtain ⟨hdet, -⟩ | ⟨rep', hrep', hmem', -, -, -, heq'⟩ := simplifyLoop_cons F
        ⟨F.computeEquivGroup rep, g.descending, hrep⟩ (F.simplifyLoop optional
          (computeClosure F.deps (closure ∪ F.computeEquivGroup rep)) gs) hsub
      · refine absurd (fun c hc => ?_) hnot
        exact F.mem_of_closed hcl (hg c hc rep hmem) (hdet FuncDepSet.mem_computeEquivGroup)
      · rw [heq']
        have hgroup := FuncDepSet.computeEquivGroup_eq hmem'
        simp only [hgroup]
        rw [ih closed_computeClosure (subset_computeClosure_union hsub) hgs]

theorem length_simplifyLoop_le (hsub : optional ⊆ closure) :
    (F.simplifyLoop optional closure gs).length ≤ gs.length := by
  induction gs generalizing closure with
  | nil => rfl
  | cons g gs ih =>
    obtain ⟨-, heq⟩ | ⟨rep, hrep, -, -, -, -, heq⟩ := simplifyLoop_cons F g gs hsub
    · rw [heq]
      exact (ih hsub).trans (Nat.le_succ _)
    · rw [heq]
      exact Nat.succ_le_succ (ih (subset_computeClosure_union hsub))

theorem canSimplifyLoop_eq_false_iff (hopt : Closed F.deps optional) (hsub : optional ⊆ closure) :
    F.canSimplifyLoop optional closure gs = false ↔ F.simplifyLoop optional closure gs = gs := by
  induction gs generalizing closure with
  | nil => simp [FuncDepSet.canSimplifyLoop, FuncDepSet.simplifyLoop]
  | cons g gs ih =>
    rw [FuncDepSet.canSimplifyLoop]
    obtain ⟨hdet, heq⟩ | ⟨rep, hrep, hmem, hnot, hncl, hany, heq⟩ := simplifyLoop_cons F g gs hsub
    · have hlen : F.simplifyLoop optional closure gs ≠ g :: gs := fun h => by
        have hle : (F.simplifyLoop optional closure gs).length ≤ gs.length :=
          length_simplifyLoop_le hsub
        rw [h, length_cons] at hle
        omega
      simp [heq, hdet, hlen]
    · rw [heq]
      by_cases hinter : ColSet.Intersects g.group optional
      · rw [if_pos hinter]
        refine iff_of_false (by simp) fun h => ?_
        obtain ⟨d, hd⟩ := hinter
        rw [mem_inter, ← congrArg OrderingColumnChoice.group (List.cons.inj h).1] at hd
        exact hnot (F.mem_of_closed hopt hd.1 hd.2)
      · rw [if_neg hinter, if_neg hncl]
        obtain rfl := hany hinter
        by_cases hgroup : F.computeEquivGroup g.anyID = g.group
        · have hsame : OrderingColumnChoice.mk _ g.descending hrep = g :=
            OrderingColumnChoice.ext hgroup rfl
          rw [if_neg (not_not.mpr hgroup), ih (subset_computeClosure_union hsub), List.cons.injEq,
            and_iff_right hsame]
        · rw [if_pos hgroup]
          refine iff_of_false (by simp) fun h => hgroup ?_
          exact congrArg OrderingColumnChoice.group (List.cons.inj h).1

theorem equates_simplifyLoop (hsub : optional ⊆ closure) :
    ∀ g ∈ F.simplifyLoop optional closure gs, F.Equates g := by
  induction gs generalizing closure with
  | nil => simp [FuncDepSet.simplifyLoop]
  | cons g gs ih =>
    obtain ⟨-, heq⟩ | ⟨rep, hrep, -, -, -, -, heq⟩ := simplifyLoop_cons F g gs hsub
    · rw [heq]
      exact ih hsub
    · rw [heq]
      refine forall_mem_cons.mpr ⟨fun c hc d hd => ?_, ih (subset_computeClosure_union hsub)⟩
      rwa [FuncDepSet.computeEquivGroup_eq hc]

omit [LinearOrder V] in
theorem FuncDepSet.Holds.evenOn (hF : F.Holds rows) (hgs : ∀ g ∈ gs, F.Equates g) :
    ∀ x ∈ rows, EvenOn gs x :=
  fun _ hx g hg c hc d hd => hF.eq_of_mem hx (hgs g hg d hd c hc)

namespace OrderingChoice

theorem satisfied_simplify (hF : F.Holds rows) (ha : ∀ g ∈ a.columns, F.Equates g) :
    (a.simplify F).Satisfied rows ↔ a.Satisfied rows := by
  have hord : ∀ x ∈ rows, ∀ y ∈ rows, Agree a.optional x y → (Ordered (F.simplifyLoop
      (computeClosure F.deps a.optional) (computeClosure F.deps a.optional) a.columns) x y ↔
        Ordered a.columns x y) :=
    fun x hx y hy hagree => ordered_simplifyLoop hF hx hy subset_rfl ha (hF.agree hx hy hagree)
  rw [satisfied_iff (hF.evenOn ha), simplify]
  split_ifs with hnil
  · rw [hnil] at hord
    refine iff_of_true (satisfied_of_any rfl) (List.Pairwise.imp_of_mem
      (fun hx hy _ hagree => (hord _ hx _ hy hagree).mp trivial)
      (pairwise_of_forall fun _ _ => trivial))
  · rw [satisfied_iff (hF.evenOn (equates_simplifyLoop subset_rfl))]
    constructor
    · exact List.Pairwise.imp_of_mem fun hx hy hxy hagree =>
        (hord _ hx _ hy hagree).mp (hxy (hF.agree hx hy hagree))
    · refine List.Pairwise.imp_of_mem fun hx hy hxy hagree => ?_
      have hagree' := fun c hc => hagree c (subset_computeClosure hc)
      exact (hord _ hx _ hy hagree').mpr (hxy hagree')

theorem simplify_simplify (ha : ∀ g ∈ a.columns, F.Equates g) :
    (a.simplify F).simplify F = a.simplify F := by
  have hclosed : Closed F.deps (computeClosure F.deps a.optional) := closed_computeClosure
  have hidem := simplifyLoop_idem hclosed subset_rfl ha
  unfold simplify
  by_cases hnil : F.simplifyLoop (computeClosure F.deps a.optional)
      (computeClosure F.deps a.optional) a.columns = []
  · simp [hnil, FuncDepSet.simplifyLoop]
  · simp [hnil, hclosed.computeClosure_eq, hidem]

/-- The columns 1 and 2 are equal. -/
def equalColumns : FuncDepSet where
  deps := [⟨{1}, {2}, true, true⟩, ⟨{2}, {1}, true, true⟩]
  equivs := by
    simp only [forall_mem_cons, not_mem_nil, IsEmpty.forall_iff, implies_true, and_true, true_and]
    exact ⟨fun _ => ⟨1, rfl, by decide⟩, fun _ => ⟨2, rfl, by decide⟩⟩

/-- By the second of two equal columns nothing is left to sort. -/
theorem simplify_equalColumns (rows : List (ℕ → V)) (h : ∀ x ∈ rows, x 1 = x 2) :
    (ascending ∅ [1, 2]).simplify equalColumns = ⟨∅, [⟨{1, 2}, false, by simp⟩]⟩ ∧
      (((ascending ∅ [1, 2]).simplify equalColumns).Satisfied rows ↔
        (ascending ∅ [1, 2]).Satisfied rows) := by
  have hholds : equalColumns.Holds rows := by
    constructor <;> simp [equalColumns, Agree] <;> grind
  have hequates : ∀ g ∈ (ascending ∅ [1, 2]).columns, equalColumns.Equates g := by
    simp [ascending, FuncDepSet.Equates, FuncDepSet.mem_computeEquivGroup]
  refine ⟨?_, satisfied_simplify hholds hequates⟩
  decide +kernel

theorem canSimplify_iff :
    (a.canSimplify F = true ↔ a.simplify F ≠ a) ↔ (a.any = true → a.optional = ∅) := by
  obtain ⟨optional, columns⟩ := a
  cases columns with
  | nil => simp [canSimplify, any, simplify, FuncDepSet.simplifyLoop, eq_comm]
  | cons g gs =>
    refine iff_of_true ?_ (by simp [any])
    have hclosed : Closed F.deps (computeClosure F.deps optional) := closed_computeClosure
    have hloop := @canSimplifyLoop_eq_false_iff F (g :: gs) _ _ hclosed subset_rfl
    unfold canSimplify simplify
    rw [if_neg (by simp [any])]
    dsimp only
    split_ifs with hopt hnil hnil
    · simp
    · simpa using fun h => absurd h hopt
    · simp [hnil] at hloop
      simp [hloop]
    · rw [not_not] at hopt
      rw [← not_iff_not, Bool.not_eq_true, hloop]
      simp [hopt]

/-- What the operations on orderings promise for sequences of rows. -/
structure Promises (V : Type*) [LinearOrder V] (a b : OrderingChoice) (F : FuncDepSet) : Prop where
  implies : a.implies b = true → ∀ rows : List (ℕ → V), (∀ x ∈ rows, EvenOn a.columns x) →
    (∀ x ∈ rows, EvenOn b.columns x) → a.Satisfied rows → b.Satisfied rows
  intersection : a.intersects b = true → ∃ r, a.intersection b = some r ∧
    (∀ rows : List (ℕ → V), (∀ x ∈ rows, EvenOn a.columns x) → (∀ x ∈ rows, EvenOn b.columns x) →
      r.Satisfied rows → a.Satisfied rows ∧ b.Satisfied rows) ∧
    r.implies a = true ∧ r.implies b = true
  simplify : (∀ g ∈ a.columns, F.Equates g) →
    (∀ rows : List (ℕ → V), F.Holds rows → ((a.simplify F).Satisfied rows ↔ a.Satisfied rows)) ∧
      (a.simplify F).simplify F = a.simplify F
  canSimplify : a.canSimplify F = true ↔ a.simplify F ≠ a

/-- The promises are kept unless an ordering without columns meets optional columns. -/
theorem promises_iff (V : Type*) [LinearOrder V] (a b : OrderingChoice) (F : FuncDepSet) :
    Promises V a b F ↔ (a.any = true → a.optional = ∅ ∧ b.optional = ∅) ∧
      (b.any = true → a.optional ⊆ b.optional) := by
  constructor
  · intro h
    have hopt := canSimplify_iff.mp h.canSimplify
    have hmeet : a.intersects b = true → (a.any = true → b.optional ⊆ a.optional) ∧
        (a.any = false → b.any = true → a.optional ⊆ b.optional) := by
      intro hab
      obtain ⟨r, hr, -, himp⟩ := h.intersection hab
      obtain ⟨r', hr', -, hiff⟩ := intersection_spec V hab
      obtain rfl := some.inj (hr.symm.trans hr')
      exact hiff.mp himp
    constructor
    · intro ha
      have hab : a.intersects b = true := by
        simp [intersects, isEmpty_iff.mp ha, intersectsLoop]
      have hsub := (hmeet hab).1 ha
      rw [hopt ha] at hsub
      exact ⟨hopt ha, Finset.subset_empty.mp hsub⟩
    · intro hb
      cases ha : a.any with
      | true => simp [hopt ha]
      | false =>
        have hab : a.intersects b = true := by
          unfold intersects
          rw [isEmpty_iff.mp hb]
          cases a.columns <;> simp [intersectsLoop]
        exact (hmeet hab).2 ha hb
  · rintro ⟨ha, hb⟩
    refine ⟨fun h rows hx hy hsat => hsat.of_implies h hx hy, fun h => ?_, fun hg =>
      ⟨fun rows hF => satisfied_simplify hF hg, simplify_simplify hg⟩,
      canSimplify_iff.mpr fun h => (ha h).1⟩
    obtain ⟨r, hr, hsat, hiff⟩ := intersection_spec V h
    exact ⟨r, hr, hsat, hiff.mpr ⟨fun h => by simp [(ha h).2], fun _ => hb⟩⟩

/-- The intersection with the empty ordering does not imply it if it has optional columns. -/
theorem intersection_any_not_implies : (ascending ∅ []).intersects (ascending {2} [1]) = true ∧
      (ascending ∅ []).intersection (ascending {2} [1]) = some (ascending {2} [1]) ∧
      (ascending {2} [1]).implies (ascending ∅ []) = false := by
  refine ⟨by simp [intersects, ascending, intersectsLoop], rfl, by decide⟩

end OrderingChoice

end Simplify

end Cockroach.Opt
