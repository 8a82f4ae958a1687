import Cockroach.Roachpb.BatchSplit
import Mathlib.Data.List.Pairwise

/-! What the parts of a split batch have in common, and why they end where they do. -/
namespace Cockroach.Roachpb
open RequestFlag List

namespace RequestFlag

variable {a b c : RequestFlag}

theorem SameKind.symm (h : SameKind a b) : SameKind b a := ⟨h.1.symm, h.2.symm⟩

theorem SameKind.trans (h : SameKind a b) (h' : SameKind b c) : SameKind a c :=
  ⟨h.1.trans h'.1, h.2.trans h'.2⟩

theorem SameDirection.symm (h : SameDirection a b) : SameDirection b a :=
  fun hb ha => (h ha hb).symm

def Together (a b : RequestFlag) : Prop := a = 0 ∨ b = 0 ∨ SameKind a b ∧ SameDirection a b

theorem Together.self (a : RequestFlag) : Together a a :=
  .inr (.inr ⟨⟨rfl, rfl⟩, fun _ _ => rfl⟩)

theorem or_eq_left_of_sameKind (h : Together a b) (ha : a ≠ 0) : SameKind (a ||| b) a := by
  rcases h with h | rfl | h
  · exact absurd h ha
  · have hor : a ||| 0 = a := BitVec.or_zero
    rw [hor]
    exact ⟨rfl, rfl⟩
  · simp [SameKind, has_or, ← h.1.1, ← h.1.2]

theorem SameDirection.of_or_left (ha : Directed a) (hb : Directed b) (h : Together a b)
    (hc : SameDirection (a ||| b) c) : SameDirection a c := by
  intro harange hcrange
  have hrev := hc (by rw [has_or, harange]; rfl) hcrange
  rw [has_or] at hrev
  rcases h with rfl | rfl | ⟨-, hsame⟩
  · simp at harange
  · simpa using hrev
  · by_cases hbrev : b.has isReverse = true
    · rw [← hrev, hsame harange (hb hbrev), Bool.or_self]
    · rw [← hrev, Bool.eq_false_iff.mpr hbrev, Bool.or_false]

theorem Together.symm (h : Together a b) : Together b a := by
  rcases h with h | h | h
  · exact .inr (.inl h)
  · exact .inl h
  · exact .inr (.inr ⟨h.1.symm, h.2.symm⟩)

theorem Directed.or (ha : Directed a) (hb : Directed b) : Directed (a ||| b) := by
  intro h
  rw [has_or, Bool.or_eq_true] at h ⊢
  exact h.imp ha hb

theorem directed_zero : Directed 0 := by
  intro h
  simp at h

theorem Together.or (ha : Directed a) (hb : Directed b) (hac : Together a c) (hbc : Together b c) :
    Together (a ||| b) c := by
  rcases hac with rfl | hc | ⟨hakind, hadir⟩
  · have hor : 0 ||| b = b := BitVec.zero_or
    rwa [hor]
  · exact .inr (.inl hc)
  rcases hbc with rfl | hc | ⟨hbkind, hbdir⟩
  · have hor : a ||| 0 = a := BitVec.or_zero
    rw [hor]
    exact .inr (.inr ⟨hakind, hadir⟩)
  · exact .inr (.inl hc)
  refine .inr (.inr ⟨?_, ?_⟩)
  · simp [SameKind, has_or, hakind.1, hakind.2, hbkind.1, hbkind.2]
  · intro hrange hcrange
    rw [has_or]
    by_cases harange : a.has isRange = true
    · rw [hadir harange hcrange]
      by_cases hbrev : b.has isReverse = true
      · rw [hbdir (hb hbrev) hcrange, Bool.or_self]
      · rw [Bool.eq_false_iff.mpr hbrev, Bool.or_false]
    · have hbrange : b.has isRange = true := by
        rw [has_or, Bool.eq_false_iff.mpr harange] at hrange
        exact hrange
      have harev : a.has isReverse = false := Bool.eq_false_iff.mpr fun h => harange (ha h)
      rw [harev, Bool.false_or, hbdir hbrange hcrange]

/-- A relation that flags compared with those of a whole part have with those of each request. -/
structure Absorbs (D : RequestFlag → Prop) (P : RequestFlag → RequestFlag → Prop) : Prop where
  zero : D 0
  or {a b : RequestFlag} : D a → D b → D (a ||| b)
  symm {a b : RequestFlag} : P a b → P b a
  of_together {a b : RequestFlag} : Together a b → P a b
  of_or_left {a b c : RequestFlag} : D a → D b → Together a b → P (a ||| b) c → P a c

theorem absorbs_sameKind : Absorbs (fun _ => True) fun a b => a ≠ 0 → b ≠ 0 → SameKind a b where
  zero := trivial
  or _ _ := trivial
  symm h hb ha := (h ha hb).symm
  of_together h ha hb := ((h.resolve_left ha).resolve_left hb).1
  of_or_left {a b c} _ _ h hc ha hc0 := by
    have hor : a ||| b ≠ 0 := fun h0 => ha (BitVec.or_eq_zero_iff.mp h0).1
    exact (or_eq_left_of_sameKind h ha).symm.trans (hc hor hc0)

theorem absorbs_sameDirection : Absorbs Directed SameDirection where
  zero := directed_zero
  or := Directed.or
  symm := SameDirection.symm
  of_together := by
    rintro a b (rfl | rfl | h)
    · intro hrange
      simp at hrange
    · intro _ hrange
      simp at hrange
    · exact h.2
  of_or_left := SameDirection.of_or_left

end RequestFlag

namespace RequestUnion

/-- Two sets of flags that must not come together in a part. -/
def Clash (a b : RequestFlag) : Prop :=
  a.has isAlone = true ∨ b.has isAlone = true ∨
    a ≠ 0 ∧ b ≠ 0 ∧ ¬ (SameKind a b ∧ SameDirection a b)

theorem clash_iff {a b : RequestFlag} : Clash a b ↔ compatible a b = false := by
  rw [← Bool.not_eq_true, compatible_iff]
  unfold Clash
  by_cases ha : a.has isAlone = true <;> by_cases hb : b.has isAlone = true <;>
    by_cases ha0 : a = 0 <;> by_cases hb0 : b = 0 <;> simp [ha, hb, ha0, hb0]

theorem compatible_or {a b c : RequestFlag} (ha : Directed a) (hb : Directed b)
    (hac : compatible a c = true) (hbc : compatible b c = true) :
    compatible (a ||| b) c = true := by
  obtain ⟨haalone, hcalone, hac⟩ := compatible_iff.mp hac
  obtain ⟨hbalone, -, hbc⟩ := compatible_iff.mp hbc
  refine compatible_iff.mpr ⟨?_, hcalone, Together.or ha hb hac hbc⟩
  rw [has_or, haalone, hbalone]
  rfl

theorem compatible_self {a : RequestFlag} (h : a.has isAlone = false) : compatible a a = true :=
  compatible_iff.mpr ⟨h, h, Together.self a⟩

/-- The requests that a rule about a part is for. -/
def Counts (canSplitET : Bool) (r : RequestUnion) : Prop :=
  r.flags.has isPrefix = false ∧ r.uncompared canSplitET = false

theorem Counts.cmpFlags {canSplitET : Bool} {r : RequestUnion} (h : Counts canSplitET r)
    (reqs : List RequestUnion) : cmpFlags canSplitET r reqs = r.flags := by
  rw [RequestUnion.cmpFlags, h.2, partFlags_of_not_isPrefix h.1]
  rfl

theorem Counts.partFlags {canSplitET : Bool} {r : RequestUnion} (h : Counts canSplitET r)
    (reqs : List RequestUnion) : partFlags canSplitET r reqs = r.flags :=
  partFlags_of_not_isPrefix h.1

/-- The requests that are added to a part with the flags so far, and those that are left. -/
inductive Extends (canSplitET : Bool) :
    RequestFlag → List RequestUnion → List RequestUnion → Prop where
  | stop {g : RequestFlag} {rest : List RequestUnion} :
      (∀ b q, rest = b :: q → compatible g (cmpFlags canSplitET b q) = false) →
      Extends canSplitET g [] rest
  | add {g : RequestFlag} {a : RequestUnion} {p rest : List RequestUnion} :
      compatible g (cmpFlags canSplitET a (p ++ rest)) = true →
      Extends canSplitET (g ||| partFlags canSplitET a (p ++ rest)) p rest →
      Extends canSplitET g (a :: p) rest

theorem extends_partLength (canSplitET : Bool) (g : RequestFlag) (reqs : List RequestUnion) :
    Extends canSplitET g (reqs.take (partLength canSplitET g reqs))
      (reqs.drop (partLength canSplitET g reqs)) := by
  induction reqs generalizing g with
  | nil => exact .stop (fun b q h => by cases h)
  | cons a reqs ih =>
    rw [partLength]
    by_cases hcompat : compatible g (cmpFlags canSplitET a reqs) = true
    · rw [if_pos hcompat, drop_succ_cons]
      refine .add ?_ ?_
      · rwa [take_append_drop]
      · rw [take_append_drop]
        exact ih _
    · rw [if_neg hcompat]
      refine .stop fun b q h => ?_
      obtain ⟨rfl, rfl⟩ := List.cons.inj h
      simpa using hcompat

inductive Parts (canSplitET : Bool) : List RequestUnion → List (List RequestUnion) → Prop where
  | nil : Parts canSplitET [] []
  | cons {r : RequestUnion} {p rest : List RequestUnion} {parts : List (List RequestUnion)} :
      Extends canSplitET (partFlags canSplitET r (p ++ rest)) p rest →
      Parts canSplitET rest parts → Parts canSplitET (r :: p ++ rest) ((r :: p) :: parts)

theorem parts_split (canSplitET : Bool) (reqs : List RequestUnion) :
    Parts canSplitET reqs (split canSplitET reqs) := by
  fun_induction split canSplitET reqs with
  | case1 => exact .nil
  | case2 r reqs n ih =>
    have hn : n = partLength canSplitET (partFlags canSplitET r reqs) reqs + 1 :=
      partLoop_unset canSplitET r reqs
    rw [hn, drop_succ_cons] at ih
    rw [hn, drop_succ_cons]
    have hext := extends_partLength canSplitET (partFlags canSplitET r reqs) reqs
    have happend := take_append_drop
      (partLength canSplitET (partFlags canSplitET r reqs) reqs) reqs
    have hcons := Parts.cons (r := r) (by rw [happend]; exact hext) ih
    rwa [cons_append, happend] at hcons

namespace Extends

variable {canSplitET : Bool} {g : RequestFlag} {p rest : List RequestUnion}

theorem eq_nil_of_alone (h : Extends canSplitET g p rest) (hg : g.has isAlone = true) : p = [] := by
  cases h with
  | stop => rfl
  | add hcompat =>
    rw [(compatible_iff.mp hcompat).1] at hg
    cases hg

variable {a : RequestUnion}

theorem not_alone (h : Extends canSplitET g p rest) (ha : a ∈ p) (hcounts : Counts canSplitET a) :
    a.flags.has isAlone = false := by
  induction h with
  | stop => cases ha
  | add hcompat _ ih =>
    rcases mem_cons.mp ha with rfl | ha
    · rw [hcounts.cmpFlags] at hcompat
      exact (compatible_iff.mp hcompat).2.1
    · exact ih ha

/-- An `EndTxn` that is not compared ends the part; otherwise the flags that are added were
compared. -/
theorem together_or_nil (hcompat : compatible g (cmpFlags canSplitET a (p ++ rest)) = true)
    (h : Extends canSplitET (g ||| partFlags canSplitET a (p ++ rest)) p rest) :
    p = [] ∨ Together g (partFlags canSplitET a (p ++ rest)) := by
  by_cases hu : a.uncompared canSplitET = true
  · left
    apply h.eq_nil_of_alone
    rw [has_or, partFlags_of_not_isPrefix (flags_of_uncompared hu).1,
      (flags_of_uncompared hu).2, Bool.or_true]
  · right
    rw [cmpFlags, if_neg hu] at hcompat
    exact (compatible_iff.mp hcompat).2.2

variable {D : RequestFlag → Prop} {P : RequestFlag → RequestFlag → Prop}

theorem partFlags_of_absorbs (hP : Absorbs D P) {reqs : List RequestUnion}
    (h : ∀ r ∈ a :: reqs, D r.flags) : D (partFlags canSplitET a reqs) := by
  rcases partFlags_cases canSplitET a reqs with h0 | ⟨r, hr, heq⟩
  · rw [h0]
    exact hP.zero
  · rw [heq]
    exact h r hr

theorem absorbed (hP : Absorbs D P) (h : Extends canSplitET g p rest)
    (hd : ∀ r ∈ p ++ rest, D r.flags) (hg : D g) : (∀ b ∈ p, Counts canSplitET b → P g b.flags) ∧
      p.Pairwise fun a b => Counts canSplitET a → Counts canSplitET b → P a.flags b.flags := by
  induction h with
  | stop => exact ⟨by simp, .nil⟩
  | @add g a p rest hcompat hrest ih =>
    have hf : D (partFlags canSplitET a (p ++ rest)) := partFlags_of_absorbs hP hd
    obtain ⟨hall, hpair⟩ := ih (fun r hr => hd r (mem_cons_of_mem _ hr)) (hP.or hg hf)
    have hboth : ∀ b ∈ p, Counts canSplitET b →
        P g b.flags ∧ P (partFlags canSplitET a (p ++ rest)) b.flags := by
      intro b hb hcounts
      have hor := hall b hb hcounts
      rcases together_or_nil hcompat hrest with rfl | htogether
      · cases hb
      refine ⟨hP.of_or_left hg hf htogether hor, ?_⟩
      rw [BitVec.or_comm] at hor
      exact hP.of_or_left hf hg htogether.symm hor
    constructor
    · intro b hb hcounts
      rcases mem_cons.mp hb with rfl | hb
      · rw [hcounts.cmpFlags] at hcompat
        exact hP.of_together (compatible_iff.mp hcompat).2.2
      · exact (hboth b hb hcounts).1
    · refine .cons ?_ hpair
      intro b hb hacounts hbcounts
      have hab := (hboth b hb hbcounts).2
      rwa [hacounts.partFlags] at hab

theorem directed_partFlags {reqs : List RequestUnion} (h : ∀ r ∈ a :: reqs, Directed r.flags) :
    Directed (partFlags canSplitET a reqs) :=
  partFlags_of_absorbs absorbs_sameDirection h

/-- A part whose flags go together with those that its header looked up reaches the request behind
the headers. -/
theorem exists_not_isPrefix (h : Extends canSplitET g p rest)
    (hdirected : ∀ r ∈ p ++ rest, Directed r.flags) (hg : Directed g)
    (hunset : headerFlags canSplitET (p ++ rest) ≠ unset)
    (hcompat : compatible g (headerFlags canSplitET (p ++ rest)) = true) :
    ∃ a ∈ p, a.flags.has isPrefix = false := by
  induction h with
  | @stop g rest hstop =>
    exfalso
    rw [nil_append] at hunset hcompat
    cases rest with
    | nil => exact hunset rfl
    | cons b q =>
      have hincompat := hstop b q rfl
      suffices hcmp : cmpFlags canSplitET b q = headerFlags canSplitET (b :: q) by
        rw [hcmp, hcompat] at hincompat
        cases hincompat
      by_cases hpre : b.flags.has isPrefix = true
      · have hu : ¬ b.uncompared canSplitET = true := fun hu => by
          rw [(flags_of_uncompared hu).1] at hpre
          cases hpre
        rw [headerFlags_cons_of_isPrefix hpre] at hunset hcompat ⊢
        have halone := (compatible_iff.mp hcompat).2.1
        simp [cmpFlags, partFlags, hu, hpre, hunset, halone]
      · have hpre' : b.flags.has isPrefix = false := by simpa using hpre
        rw [headerFlags_cons_of_not_isPrefix hpre', cmpFlags, partFlags_of_not_isPrefix hpre']
  | @add g a p rest _ _ ih =>
    by_cases hpre : a.flags.has isPrefix = true
    · rw [cons_append, headerFlags_cons_of_isPrefix hpre] at hunset hcompat
      have halone := (compatible_iff.mp hcompat).2.1
      have hflags : partFlags canSplitET a (p ++ rest) = headerFlags canSplitET (p ++ rest) := by
        simp [partFlags, hpre, hunset, halone]
      have hheader : Directed (headerFlags canSplitET (p ++ rest)) := by
        rw [← hflags]
        exact directed_partFlags hdirected
      rw [hflags] at ih
      obtain ⟨b, hb, hnot⟩ := ih (fun r hr => hdirected r (mem_cons_of_mem _ hr))
        (hg.or hheader) hunset (compatible_or hg hheader hcompat (compatible_self halone))
      exact ⟨b, mem_cons_of_mem _ hb, hnot⟩
    · exact ⟨a, mem_cons_self, by simpa using hpre⟩

theorem split_at {l t : List RequestUnion} {q : RequestUnion}
    (h : Extends canSplitET g (l ++ q :: t) rest)
    (hdirected : ∀ r ∈ l ++ q :: t ++ rest, Directed r.flags) (hg : Directed g) :
    ∃ g', Directed g' ∧ compatible g' (cmpFlags canSplitET q (t ++ rest)) = true ∧
      Extends canSplitET (g' ||| partFlags canSplitET q (t ++ rest)) t rest := by
  induction l generalizing g with
  | nil =>
    cases h with
    | add hcompat hext => exact ⟨g, hg, hcompat, hext⟩
  | cons a l ih =>
    cases h with
    | add hcompat hext =>
      exact ih hext (fun r hr => hdirected r (mem_cons_of_mem _ hr))
        (hg.or (directed_partFlags hdirected))

theorem exists_clash (h : Extends canSplitET g p rest)
    (hdirected : ∀ r ∈ p ++ rest, Directed r.flags) (hg : Directed g) {b : RequestUnion}
      {q : List RequestUnion}
    (hrest : rest = b :: q) : Clash g (cmpFlags canSplitET b q) ∨ ∃ l a r, p = l ++ a :: r ∧
      Clash (partFlags canSplitET a (r ++ rest)) (cmpFlags canSplitET b q) := by
  induction h with
  | stop hstop => exact .inl (clash_iff.mpr (hstop b q hrest))
  | @add g a p rest hadd hext ih =>
    have hflags : Directed (partFlags canSplitET a (p ++ rest)) := directed_partFlags hdirected
    rcases ih (fun r hr => hdirected r (mem_cons_of_mem _ hr)) (hg.or hflags) hrest with
      hclash | ⟨l, a', r, rfl, hclash⟩
    · by_cases hleft : Clash g (cmpFlags canSplitET b q)
      · exact .inl hleft
      by_cases hright : Clash (partFlags canSplitET a (p ++ rest)) (cmpFlags canSplitET b q)
      · exact .inr ⟨[], a, p, rfl, hright⟩
      exfalso
      rw [clash_iff, Bool.not_eq_false] at hleft hright
      rw [clash_iff, ← Bool.not_eq_true] at hclash
      exact hclash (compatible_or hg hflags hleft hright)
    · exact .inr ⟨a :: l, a', r, rfl, hclash⟩

end Extends

/-- What the requests of a part have in common, headers and uncompared requests apart, and with
which request a header stays. -/
structure Rules (canSplitET : Bool) (part rest : List RequestUnion) : Prop where
  sameKind : ∀ a ∈ part, ∀ b ∈ part, Counts canSplitET a → Counts canSplitET b → a.flags ≠ 0 →
    b.flags ≠ 0 → SameKind a.flags b.flags
  sameDirection : ∀ a ∈ part, ∀ b ∈ part, Counts canSplitET a → Counts canSplitET b →
    SameDirection a.flags b.flags
  alone : ∀ l a r, part = l ++ a :: r → Counts canSplitET a → a.flags.has isAlone = true →
    ∀ b ∈ l ++ r, ¬ Counts canSplitET b
  headers : ∀ l q r, part = l ++ q :: r → q.flags.has isPrefix = true →
    (∀ a ∈ r, a.flags.has isPrefix = true) →
    ∀ n, rest.find? (fun a => !a.flags.has isPrefix) = some n →
      Counts canSplitET n ∧ n.flags.has isAlone = true

/-- The parts are the batch. In each one, all requests that write or administrate do the same, and
a request that wants to be alone is. If only requests for ranges have a direction, all rules hold
and every part ends at a request that clashes with one of its own. -/
structure SplitSpec (canSplitET : Bool) (reqs : List RequestUnion)
    (parts : List (List RequestUnion)) : Prop where
  flatten : parts.flatten = reqs
  nonempty : ∀ part ∈ parts, part ≠ []
  sameKind : ∀ part ∈ parts, ∀ a ∈ part, ∀ b ∈ part, Counts canSplitET a →
    Counts canSplitET b → a.flags ≠ 0 → b.flags ≠ 0 → SameKind a.flags b.flags
  alone : ∀ part ∈ parts, ∀ a ∈ part, Counts canSplitET a → a.flags.has isAlone = true →
    part = [a]
  rules : (∀ r ∈ reqs, Directed r.flags) → ∀ before part after, parts = before ++ part :: after →
    Rules canSplitET part after.flatten
  maximal : (∀ r ∈ reqs, Directed r.flags) → ∀ before part b q after,
    parts = before ++ part :: (b :: q) :: after → ∃ l a r, part = l ++ a :: r ∧
      Clash (partFlags canSplitET a (r ++ b :: q ++ after.flatten))
        (cmpFlags canSplitET b (q ++ after.flatten))

section Spec

variable {canSplitET : Bool} {reqs : List RequestUnion} {parts : List (List RequestUnion)}

theorem Parts.flatten (h : Parts canSplitET reqs parts) : parts.flatten = reqs := by
  induction h with
  | nil => rfl
  | cons _ _ ih => rw [flatten_cons, ih]

theorem Parts.extends (h : Parts canSplitET reqs parts) {before after : List (List RequestUnion)}
    {part : List RequestUnion} (hparts : parts = before ++ part :: after) : ∃ r p, part = r :: p ∧
      Extends canSplitET (partFlags canSplitET r (p ++ after.flatten)) p after.flatten := by
  induction h generalizing before with
  | nil => simp at hparts
  | @cons r p rest parts hext hrest ih =>
    cases before with
    | nil =>
      obtain ⟨rfl, rfl⟩ := List.cons.inj hparts
      exact ⟨r, p, rfl, by rwa [hrest.flatten]⟩
    | cons part' before => exact ih (List.cons.inj hparts).2

variable {r : RequestUnion} {p rest : List RequestUnion}

variable {a : RequestUnion}

theorem eq_singleton_of_alone (h : Extends canSplitET (partFlags canSplitET r (p ++ rest)) p rest)
    (ha : a ∈ r :: p) (hcounts : Counts canSplitET a) (halone : a.flags.has isAlone = true) :
    r :: p = [a] := by
  rcases mem_cons.mp ha with rfl | ha
  · rw [hcounts.partFlags] at h
    rw [h.eq_nil_of_alone halone]
  · rw [h.not_alone ha hcounts] at halone
    cases halone

theorem absorbed_of_extends {D : RequestFlag → Prop} {P : RequestFlag → RequestFlag → Prop}
    (hP : Absorbs D P) (h : Extends canSplitET (partFlags canSplitET r (p ++ rest)) p rest)
    (hd : ∀ a ∈ r :: (p ++ rest), D a.flags) {b : RequestUnion} (ha : a ∈ r :: p)
    (hb : b ∈ r :: p) (hacounts : Counts canSplitET a) (hbcounts : Counts canSplitET b) :
    P a.flags b.flags := by
  obtain ⟨hall, hpair⟩ := h.absorbed hP (fun a ha => hd a (mem_cons_of_mem _ ha))
    (Extends.partFlags_of_absorbs hP hd)
  have hcons : (r :: p).Pairwise fun a b => Counts canSplitET a → Counts canSplitET b →
      P a.flags b.flags := by
    refine .cons (fun b hb hrcounts hbcounts => ?_) hpair
    have hrb := hall b hb hbcounts
    rwa [hrcounts.partFlags] at hrb
  have hsymm : Std.Symm fun a b : RequestUnion => Counts canSplitET a → Counts canSplitET b →
      P a.flags b.flags := ⟨fun a b hab hb ha => hP.symm (hab ha hb)⟩
  exact List.Pairwise.forall_of_forall (fun c _ _ _ => hP.of_together (.self _)) hcons ha hb
    hacounts hbcounts

theorem headerFlags_of_find? {n : RequestUnion}
    (h : reqs.find? (fun a => !a.flags.has isPrefix) = some n) :
    headerFlags canSplitET reqs = if n.uncompared canSplitET then 0 else n.flags := by
  induction reqs with
  | nil => cases h
  | cons a reqs ih =>
    by_cases hpre : a.flags.has isPrefix = true
    · rw [find?_cons_of_neg (by simp [hpre])] at h
      rw [headerFlags_cons_of_isPrefix hpre, ih h]
    · have hpre' : a.flags.has isPrefix = false := by simpa using hpre
      rw [find?_cons_of_pos (by simp [hpre'])] at h
      obtain rfl := Option.some.inj h
      exact headerFlags_cons_of_not_isPrefix hpre'

/-- The headers at the end of a part are followed by a request that wants to be alone. -/
theorem alone_of_headers {g : RequestFlag} {q n : RequestUnion}
    (h : Extends canSplitET (g ||| partFlags canSplitET q (p ++ rest)) p rest)
    (hg : Directed g) (hdirected : ∀ a ∈ q :: (p ++ rest), Directed a.flags)
    (htogether : compatible g (cmpFlags canSplitET q (p ++ rest)) = true ∨ g = 0)
    (hq : q.flags.has isPrefix = true) (hp : ∀ a ∈ p, a.flags.has isPrefix = true)
    (hn : rest.find? (fun a => !a.flags.has isPrefix) = some n) :
    Counts canSplitET n ∧ n.flags.has isAlone = true := by
  have hfind : (p ++ rest).find? (fun a => !a.flags.has isPrefix) = some n := by
    rw [find?_append, find?_eq_none.mpr (fun a ha => by simp [hp a ha])]
    exact hn
  have hheader := @headerFlags_of_find? canSplitET _ n hfind
  have hnpre : n.flags.has isPrefix = false := by
    have hsome := find?_some hn
    simpa using hsome
  by_contra hnot
  have hnalone : (headerFlags canSplitET (p ++ rest)).has isAlone = false := by
    rw [hheader]
    by_cases hu : n.uncompared canSplitET = true
    · rw [if_pos hu]
      rfl
    · rw [if_neg hu]
      exact Bool.eq_false_iff.mpr fun halone => hnot ⟨⟨hnpre, by simpa using hu⟩, halone⟩
  have hunset : headerFlags canSplitET (p ++ rest) ≠ unset := by
    rw [hheader]
    by_cases hu : n.uncompared canSplitET = true
    · rw [if_pos hu]
      decide
    · rw [if_neg hu]
      exact ne_unset n.flags_lt
  have hflags : partFlags canSplitET q (p ++ rest) = headerFlags canSplitET (p ++ rest) := by
    simp [partFlags, hq, hunset, hnalone]
  have hqu : ¬ q.uncompared canSplitET = true := fun hu => by
    rw [(flags_of_uncompared hu).1] at hq
    cases hq
  have hheaderDirected : Directed (headerFlags canSplitET (p ++ rest)) := by
    rw [← hflags]
    exact Extends.directed_partFlags hdirected
  rw [hflags] at h
  rw [cmpFlags, if_neg hqu, hflags] at htogether
  have hcompat : compatible g (headerFlags canSplitET (p ++ rest)) = true := by
    rcases htogether with hcompat | rfl
    · exact hcompat
    · exact compatible_iff.mpr ⟨rfl, hnalone, .inl rfl⟩
  obtain ⟨a, ha, hanot⟩ := h.exists_not_isPrefix
    (fun a ha => hdirected a (mem_cons_of_mem _ ha)) (hg.or hheaderDirected) hunset
    (compatible_or hg hheaderDirected hcompat (compatible_self hnalone))
  rw [hp a ha] at hanot
  cases hanot

theorem rules_of_extends (h : Extends canSplitET (partFlags canSplitET r (p ++ rest)) p rest)
    (hdirected : ∀ a ∈ r :: (p ++ rest), Directed a.flags) : Rules canSplitET (r :: p) rest where
  sameKind _ ha _ hb := absorbed_of_extends absorbs_sameKind h (fun _ _ => trivial) ha hb
  sameDirection _ ha _ hb := absorbed_of_extends absorbs_sameDirection h hdirected ha hb
  alone := by
    intro l a t hpart hcounts halone
    have hmem : a ∈ r :: p := by
      rw [hpart]
      simp
    have hsingle := eq_singleton_of_alone h hmem hcounts halone
    rw [hpart] at hsingle
    have hlength := congrArg List.length hsingle
    simp only [length_append, length_cons, length_nil] at hlength
    have hl : l = [] := eq_nil_of_length_eq_zero (by omega)
    have ht : t = [] := eq_nil_of_length_eq_zero (by omega)
    simp [hl, ht]
  headers := by
    intro l q t hpart hq ht n hn
    cases l with
    | nil =>
      obtain ⟨rfl, rfl⟩ := List.cons.inj hpart
      have hor : 0 ||| partFlags canSplitET r (p ++ rest) = partFlags canSplitET r (p ++ rest) :=
        BitVec.zero_or
      exact alone_of_headers (g := 0) (by rwa [hor]) directed_zero hdirected (.inr rfl) hq ht hn
    | cons r' l =>
      rw [cons_append] at hpart
      obtain ⟨rfl, rfl⟩ := List.cons.inj hpart
      obtain ⟨g, hg, hcompat, hext⟩ := h.split_at
        (fun a ha => hdirected a (mem_cons_of_mem _ ha)) (Extends.directed_partFlags hdirected)
      refine alone_of_headers hext hg ?_ (.inl hcompat) hq ht hn
      intro a ha
      refine hdirected a (mem_cons_of_mem _ ?_)
      rw [append_assoc]
      exact mem_append_right _ ha

/-- The parts of a batch keep the rules, and end where they have to. -/
theorem split_spec (canSplitET : Bool) (reqs : List RequestUnion) :
    SplitSpec canSplitET reqs (split canSplitET reqs) := by
  have hparts := parts_split canSplitET reqs
  have hflatten := hparts.flatten
  have hextends : ∀ part ∈ split canSplitET reqs, ∃ r p rest, part = r :: p ∧
      Extends canSplitET (partFlags canSplitET r (p ++ rest)) p rest := by
    intro part hpart
    obtain ⟨before, after, hsplit⟩ := append_of_mem hpart
    obtain ⟨r, p, heq, hext⟩ := hparts.extends hsplit
    exact ⟨r, p, _, heq, hext⟩
  have hdirected : (∀ a ∈ reqs, Directed a.flags) → ∀ before part after,
      split canSplitET reqs = before ++ part :: after →
      ∀ a ∈ part ++ after.flatten, Directed a.flags := by
    intro hdirected before part after hsplit a ha
    refine hdirected a ?_
    rw [← hflatten, hsplit, flatten_append]
    exact mem_append_right _ ha
  constructor
  · exact hflatten
  · intro part hpart
    obtain ⟨r, p, _, rfl, -⟩ := hextends part hpart
    exact cons_ne_nil _ _
  · intro part hpart a ha b hb
    obtain ⟨r, p, rest, rfl, hext⟩ := hextends part hpart
    exact absorbed_of_extends absorbs_sameKind hext (fun _ _ => trivial) ha hb
  · intro part hpart a ha
    obtain ⟨r, p, rest, rfl, hext⟩ := hextends part hpart
    exact eq_singleton_of_alone hext ha
  · intro hreqs before part after hsplit
    obtain ⟨r, p, rfl, hext⟩ := hparts.extends hsplit
    exact rules_of_extends hext (hdirected hreqs before _ after hsplit)
  · intro hreqs before part b q after hsplit
    obtain ⟨r, p, rfl, hext⟩ := hparts.extends hsplit
    have hdir := hdirected hreqs before _ _ hsplit
    rcases hext.exists_clash (fun a ha => hdir a (mem_cons_of_mem _ ha))
      (Extends.directed_partFlags hdir) rfl with hclash | ⟨l, a, t, rfl, hclash⟩
    · refine ⟨[], r, p, rfl, ?_⟩
      rwa [append_assoc, cons_append]
    · refine ⟨r :: l, a, t, rfl, ?_⟩
      rwa [append_assoc, cons_append]

end Spec

/-- A request that is no `EndTxn` and has the given flags. -/
def ofFlags (flags : RequestFlag) (h : flags.toNat < 2 ^ RequestFlag.count) : RequestUnion :=
  ⟨false, flags, h, nofun⟩

def endTxnRequest : RequestUnion :=
  ⟨true, isWrite ||| isTxn ||| isAlone ||| updatesTSCache, by decide, fun _ => rfl⟩

/-- A scan without locks. -/
def scanRequest : RequestUnion :=
  ofFlags (isRead ||| isRange ||| isTxn ||| updatesTSCache ||| needsRefresh) (by decide)

def reverseScanRequest : RequestUnion :=
  ofFlags (isRead ||| isRange ||| isReverse ||| isTxn ||| updatesTSCache ||| needsRefresh)
    (by decide)

/-- Flags that no request has: a direction without a range. -/
def turnRequest : RequestUnion := ofFlags isReverse (by decide)

/-- An `EndTxn` that must not be split off is followed by a new part, although the rules of a part
disregard it. A direction without a range lets both directions into a part. -/
theorem split_stops_after_endTxn :
    (split false [endTxnRequest, scanRequest] = [[endTxnRequest], [scanRequest]] ∧
      Rules false [endTxnRequest, scanRequest] []) ∧
    split true [turnRequest, scanRequest, reverseScanRequest] =
        [[turnRequest, scanRequest, reverseScanRequest]] ∧
      ¬ Rules true [turnRequest, scanRequest, reverseScanRequest] [] := by
  have hloop : partLoop false unset unset [endTxnRequest, scanRequest] = 1 := by decide
  have hloop' : partLoop false unset unset [scanRequest] = 1 := by decide
  have hturn : partLoop true unset unset [turnRequest, scanRequest, reverseScanRequest] = 3 := by
    decide
  have hcounts : ∀ a ∈ [endTxnRequest, scanRequest], Counts false a → a = scanRequest := by
    intro a ha hcounts
    rcases mem_pair.mp ha with rfl | rfl
    · exact absurd hcounts.2 (by decide)
    · rfl
  refine ⟨⟨?_, ?_, ?_, ?_, ?_⟩, ?_, ?_⟩
  · rw [split, hloop]
    simp only [take_succ_cons, take_zero, drop_succ_cons, drop_zero]
    rw [split, hloop']
    simp [split]
  · intro a ha b hb hacounts hbcounts _ _
    rw [hcounts a ha hacounts, hcounts b hb hbcounts]
    exact ⟨rfl, rfl⟩
  · intro a ha b hb hacounts hbcounts _ _
    rw [hcounts a ha hacounts, hcounts b hb hbcounts]
  · intro l a r hpart hacounts halone
    have ha := hcounts a (by rw [hpart]; simp) hacounts
    rw [ha] at halone
    exact absurd halone (by decide)
  · intro l q r _ _ _ n hn
    cases hn
  · rw [split, hturn]
    simp [split]
  · intro hrules
    have hsame := hrules.sameDirection scanRequest (by simp) reverseScanRequest (by simp)
      ⟨by decide, by decide⟩ ⟨by decide, by decide⟩ (by decide) (by decide)
    exact absurd hsame (by decide)

end RequestUnion
end Cockroach.Roachpb
