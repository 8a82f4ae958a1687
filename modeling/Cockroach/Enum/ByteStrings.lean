import Cockroach.Library.ByteOrder

/-! The byte strings that represent the members of an enum, and new ones between them. -/
namespace Cockroach.Enum
open ByteOrder List

def minToken : ℕ := 0
def maxToken : ℕ := 256
def midToken : ℕ := maxToken / 2
def shiftInterval : ℕ := 5

inductive ByteSpacing where
  | packed
  | spread

/-- The first digit of what is left of a string, where a missing one is read as the default. -/
def get (arr : Bytes) (default : ℕ) : ℕ :=
  match arr with
  | [] => default
  | b :: _ => b.toNat

def byteBetweenPacked (lo hi : ℕ) : ℕ :=
  if lo = minToken ∧ hi = maxToken then lo + (hi - lo) / 2
  else if lo = minToken ∧ hi - lo > shiftInterval then hi - shiftInterval
  else if hi = maxToken ∧ hi - lo > shiftInterval then lo + shiftInterval
  else lo + (hi - lo) / 2

def byteBetweenSpread (lo hi : ℕ) : ℕ := lo + (hi - lo) / 2

def byteBetween (spacing : ByteSpacing) (lo hi : ℕ) : ℕ :=
  match spacing with
  | .packed => byteBetweenPacked lo hi
  | .spread => byteBetweenSpread lo hi

theorem get_lt_maxToken (prev : Bytes) : get prev minToken < maxToken := by
  cases prev with
  | nil => decide
  | cons b prev => exact b.toNat_lt

/-- The loop over the digits that both strings share goes on with what is left of them. -/
def genByteStringBetween (spacing : ByteSpacing) (prev next : Bytes) : Bytes :=
  if prev = [] ∧ next = [] then [UInt8.ofNat midToken]
  else if get prev minToken = get next maxToken then
    UInt8.ofNat (get prev minToken) :: genByteStringBetween spacing prev.tail next.tail
  else
    let mid := byteBetween spacing (get prev minToken) (get next maxToken)
    if mid = get prev minToken then
      UInt8.ofNat (get prev minToken) :: genByteStringBetween spacing prev.tail []
    else [UInt8.ofNat mid]
termination_by prev.length + next.length
decreasing_by
  · rename_i heq
    cases next with
    | nil => exact absurd heq (get_lt_maxToken prev).ne
    | cons n next => simp; omega
  · rename_i hnil _ _
    cases prev with
    | nil => simpa [length_pos_iff] using hnil
    | cons p prev => simp; omega

/-- A member represented by `r` fits between those represented by `prev` and `next`, where an empty
string stands for no member. -/
structure Between (prev next r : Bytes) : Prop where
  ne_nil : r ≠ []
  last_ne : r.getLast? ≠ some 0
  gt : prev < r
  lt : next ≠ [] → r < next

theorem byteBetween_bounds (spacing : ByteSpacing) {lo hi : ℕ} (h : lo < hi) :
    lo ≤ byteBetween spacing lo hi ∧ byteBetween spacing lo hi < hi := by
  cases spacing with
  | packed => grind [byteBetween, byteBetweenPacked, minToken, maxToken, shiftInterval]
  | spread => grind [byteBetween, byteBetweenSpread]

variable {l : Bytes}

theorem nil_lt_of_ne_nil (h : l ≠ []) : [] < l := by
  obtain ⟨a, l, rfl⟩ := exists_cons_of_ne_nil h
  exact nil_lt_cons _ _

theorem getLast?_tail_ne (h : l.getLast? ≠ some 0) : l.tail.getLast? ≠ some 0 := by
  cases l with
  | nil => exact h
  | cons a l =>
    cases l with
    | nil => simp
    | cons b l => rwa [getLast?_cons_cons] at h

variable {prev next r : Bytes}

/-- A digit of `prev` goes before what is above the rest of `prev`. -/
theorem Between.cons {a : UInt8} {next' : Bytes} (h : Between prev.tail next' r)
    (ha : a.toNat = get prev minToken) (hlt : next ≠ [] → a :: r < next) :
    Between prev next (a :: r) := by
  obtain ⟨b, l, rfl⟩ := exists_cons_of_ne_nil h.ne_nil
  constructor
  · simp
  · exact h.last_ne
  · cases prev with
    | nil => exact nil_lt_cons _ _
    | cons p prev =>
      have hp : p = a := UInt8.toNat_inj.mp ha.symm
      exact cons_lt_cons_iff.mpr (.inr ⟨hp, h.gt⟩)
  · exact hlt

theorem between_singleton {mid : ℕ} (hlo : get prev minToken < mid)
    (hhi : mid < get next maxToken) (hmax : mid < maxToken) :
    Between prev next [UInt8.ofNat mid] := by
  have hmid : (UInt8.ofNat mid).toNat = mid := UInt8.toNat_ofNat_of_lt' hmax
  constructor
  · simp
  · intro hlast
    have hzero : UInt8.ofNat mid = 0 := by simpa using hlast
    rw [hzero] at hmid
    exact absurd hlo (by rw [← hmid]; exact Nat.not_lt_zero _)
  · cases prev with
    | nil => exact nil_lt_cons _ _
    | cons p prev =>
      apply cons_lt_cons_iff.mpr
      left
      rw [UInt8.lt_iff_toNat_lt, hmid]
      exact hlo
  · intro hne
    obtain ⟨n, next, rfl⟩ := exists_cons_of_ne_nil hne
    apply cons_lt_cons_iff.mpr
    left
    rw [UInt8.lt_iff_toNat_lt, hmid]
    exact hhi

/-- The digits are in the order of the strings. -/
theorem get_le_get (h : next ≠ [] → prev < next) : get prev minToken ≤ get next maxToken := by
  cases next with
  | nil => exact (get_lt_maxToken prev).le
  | cons n next =>
    cases prev with
    | nil => exact Nat.zero_le _
    | cons p prev =>
      rcases cons_lt_cons_iff.mp (h (by simp)) with hlt | ⟨rfl, -⟩
      · exact (UInt8.lt_iff_toNat_lt.mp hlt).le
      · exact le_rfl

/-- There is room between two strings that do not end in zero. -/
theorem between_genByteStringBetween (spacing : ByteSpacing) (hprev : prev.getLast? ≠ some 0)
    (hnext : next.getLast? ≠ some 0) (h : next ≠ [] → prev < next) :
    Between prev next (genByteStringBetween spacing prev next) := by
  have hdigit (l : Bytes) : (UInt8.ofNat (get l minToken)).toNat = get l minToken :=
    UInt8.toNat_ofNat_of_lt' (get_lt_maxToken l)
  fun_induction genByteStringBetween spacing prev next with
  | case1 prev next hnil =>
    obtain ⟨rfl, rfl⟩ := hnil
    exact between_singleton (by decide) (by decide) (by decide)
  | case2 prev next hnil heq ih =>
    cases next with
    | nil => exact absurd heq (get_lt_maxToken prev).ne
    | cons n next =>
      have hn : UInt8.ofNat (get prev minToken) = n := by
        rw [heq]
        exact UInt8.ofNat_toNat
      have hbelow : prev.tail < next := by
        cases prev with
        | nil =>
          -- A digit zero is not the last one.
          have hzero : n = 0 := hn.symm
          cases next with
          | nil => simp [hzero] at hnext
          | cons m next => exact nil_lt_cons _ _
        | cons p prev =>
          have hp : p = n := UInt8.toNat_inj.mp heq
          rcases cons_lt_cons_iff.mp (h (by simp)) with hlt | ⟨-, hlt⟩
          · exact absurd hlt (hp ▸ UInt8.lt_irrefl p)
          · exact hlt
      have hrest := ih (getLast?_tail_ne hprev) (getLast?_tail_ne hnext) fun _ => hbelow
      have hne : next ≠ [] := by
        rintro rfl
        exact not_lt_nil _ hbelow
      apply hrest.cons (hdigit prev)
      intro _
      exact cons_lt_cons_iff.mpr (.inr ⟨hn, hrest.lt hne⟩)
  | case3 prev next hnil hne _ hmid ih =>
    have hlt := (get_le_get h).lt_of_ne hne
    have hrest := ih (getLast?_tail_ne hprev) (by simp) (by simp)
    apply hrest.cons (hdigit prev)
    intro hnext
    obtain ⟨n, next, rfl⟩ := exists_cons_of_ne_nil hnext
    apply cons_lt_cons_iff.mpr
    left
    rw [UInt8.lt_iff_toNat_lt, hdigit]
    exact hlt
  | case4 prev next hnil hne mid hmid =>
    obtain ⟨hlo, hhi⟩ := byteBetween_bounds spacing ((get_le_get h).lt_of_ne hne)
    refine between_singleton (hlo.lt_of_ne (Ne.symm hmid)) hhi (hhi.trans_le ?_)
    cases next with
    | nil => exact le_rfl
    | cons n next => exact n.toNat_lt.le

/-- Representations in the order of their members. -/
structure Ordered (reps : List Bytes) : Prop where
  pairwise : reps.Pairwise (· < ·)
  proper : ∀ r ∈ reps, r ≠ [] ∧ r.getLast? ≠ some 0

/-- A member is added behind the first `i` ones, with the representations around it as bounds. -/
def insertMember (spacing : ByteSpacing) (reps : List Bytes) (i : ℕ) : List Bytes :=
  let prev := (reps.take i).getLast?.getD []
  let next := (reps.drop i).head?.getD []
  reps.take i ++ genByteStringBetween spacing prev next :: reps.drop i

/-- The slots of the result from `lo` to `hi`, of which there are `n`. -/
def genEvenlySpacedHelper (n : ℕ) (bot top : Bytes) : List Bytes :=
  if n = 0 then []
  else
    let midBytes := genByteStringBetween .spread bot top
    genEvenlySpacedHelper (n / 2) bot midBytes ++
      midBytes :: genEvenlySpacedHelper (n - n / 2 - 1) midBytes top
termination_by n

def generateNEvenlySpacedBytes (n : ℕ) : List Bytes := genEvenlySpacedHelper n [] []

/-- The representations that insertions leave of those that a type is created with. -/
inductive Inserted : List Bytes → Prop where
  | start (n : ℕ) : Inserted (generateNEvenlySpacedBytes n)
  | insert {reps : List Bytes} (spacing : ByteSpacing) (i : ℕ) : Inserted reps →
      Inserted (insertMember spacing reps i)

theorem Ordered.insert {before after : List Bytes} (h : Ordered (before ++ after))
    (hr : Between (before.getLast?.getD []) (after.head?.getD []) r) :
    Ordered (before ++ r :: after) := by
  obtain ⟨hbefore, hafter, hcross⟩ := pairwise_append.mp h.pairwise
  have hgt : ∀ x ∈ before, x < r := by
    intro x hx
    rcases eq_nil_or_concat before with rfl | ⟨init, last, rfl⟩
    · cases hx
    · have hlast : last < r := by simpa using hr.gt
      rw [concat_eq_append] at hx hbefore
      rcases mem_append.mp hx with hinit | hx
      · exact ((pairwise_append.mp hbefore).2.2 x hinit last (by simp)).trans hlast
      · rwa [mem_singleton.mp hx]
  have hlt : ∀ x ∈ after, r < x := by
    intro x hx
    cases after with
    | nil => cases hx
    | cons y after =>
      have hy : r < y := hr.lt (h.proper y (by simp)).1
      rcases mem_cons.mp hx with rfl | hx
      · exact hy
      · exact hy.trans ((pairwise_cons.mp hafter).1 x hx)
  constructor
  · apply pairwise_append.mpr
    refine ⟨hbefore, pairwise_cons.mpr ⟨hlt, hafter⟩, ?_⟩
    intro x hx y hy
    rcases mem_cons.mp hy with rfl | hy
    · exact hgt x hx
    · exact hcross x hx y hy
  · intro x hx
    rcases mem_append.mp hx with hx | hx
    · exact h.proper x (mem_append_left _ hx)
    rcases mem_cons.mp hx with rfl | hx
    · exact ⟨hr.ne_nil, hr.last_ne⟩
    · exact h.proper x (mem_append_right _ hx)

variable {reps : List Bytes}

theorem Ordered.insertMember (h : Ordered reps) (spacing : ByteSpacing) (i : ℕ) :
    Ordered (insertMember spacing reps i) := by
  rw [← take_append_drop i reps] at h
  refine h.insert (between_genByteStringBetween spacing ?_ ?_ ?_)
  · cases hlast : (reps.take i).getLast? with
    | none => simp
    | some x => exact (h.proper x (mem_append_left _ (mem_of_getLast? hlast))).2
  · cases hhead : (reps.drop i).head? with
    | none => simp
    | some y => exact (h.proper y (mem_append_right _ (mem_of_mem_head? hhead))).2
  · intro hne
    cases hhead : (reps.drop i).head? with
    | none => simp [hhead] at hne
    | some y =>
      cases hlast : (reps.take i).getLast? with
      | none =>
        rw [hhead] at hne
        exact nil_lt_of_ne_nil hne
      | some x =>
        exact (pairwise_append.mp h.pairwise).2.2 x (mem_of_getLast? hlast) y
          (mem_of_mem_head? hhead)

theorem genEvenlySpacedHelper_spec (n : ℕ) {bot top : Bytes} (hbot : bot.getLast? ≠ some 0)
    (htop : top.getLast? ≠ some 0) (h : top ≠ [] → bot < top) :
    (genEvenlySpacedHelper n bot top).length = n ∧
      (genEvenlySpacedHelper n bot top).Pairwise (· < ·) ∧
      ∀ r ∈ genEvenlySpacedHelper n bot top, Between bot top r := by
  fun_induction genEvenlySpacedHelper n bot top with
  | case1 => simp
  | case2 n bot top hn mid ihleft ihright =>
    have hmid : Between bot top mid := between_genByteStringBetween .spread hbot htop h
    obtain ⟨hlen, hpair, hleft⟩ := ihleft hbot hmid.last_ne fun _ => hmid.gt
    obtain ⟨hlen', hpair', hright⟩ := ihright hmid.last_ne htop hmid.lt
    have hbelow : ∀ r ∈ genEvenlySpacedHelper (n / 2) bot mid, r < mid :=
      fun r hr => (hleft r hr).lt hmid.ne_nil
    refine ⟨?_, ?_, ?_⟩
    · rw [length_append, length_cons, hlen']
      omega
    · apply pairwise_append.mpr
      refine ⟨hpair, pairwise_cons.mpr ⟨fun r hr => (hright r hr).gt, hpair'⟩, ?_⟩
      intro x hx y hy
      rcases mem_cons.mp hy with rfl | hy
      · exact hbelow x hx
      · exact (hbelow x hx).trans (hright y hy).gt
    · intro r hr
      rcases mem_append.mp hr with hr | hr
      · have hr' := hleft r hr
        exact ⟨hr'.ne_nil, hr'.last_ne, hr'.gt, fun hne => (hbelow r hr).trans (hmid.lt hne)⟩
      rcases mem_cons.mp hr with rfl | hr
      · exact hmid
      · have hr' := hright r hr
        exact ⟨hr'.ne_nil, hr'.last_ne, hmid.gt.trans hr'.gt, hr'.lt⟩

theorem ordered_generateNEvenlySpacedBytes (n : ℕ) : Ordered (generateNEvenlySpacedBytes n) := by
  obtain ⟨-, hpair, hbetween⟩ := @genEvenlySpacedHelper_spec n [] [] (by simp) (by simp) (by simp)
  exact ⟨hpair, fun r hr => ⟨(hbetween r hr).ne_nil, (hbetween r hr).last_ne⟩⟩

theorem Inserted.ordered (h : Inserted reps) : Ordered reps := by
  induction h with
  | start n => exact ordered_generateNEvenlySpacedBytes n
  | insert spacing i _ ih => exact ih.insertMember spacing i

/-- There is a representation in every gap, so that insertions keep the order of the members, and
the evenly spaced ones are increasing. -/
theorem representations_ordered :
    (∀ spacing prev next, prev.getLast? ≠ some 0 → next.getLast? ≠ some 0 →
      (prev ≠ [] → next ≠ [] → prev < next) →
      Between prev next (genByteStringBetween spacing prev next)) ∧
    (∀ reps, Inserted reps → reps.Pairwise (· < ·)) ∧
    ∀ n, (generateNEvenlySpacedBytes n).length = n ∧
      (generateNEvenlySpacedBytes n).Pairwise (· < ·) := by
  refine ⟨?_, fun reps h => h.ordered.pairwise, ?_⟩
  · intro spacing prev next hprev hnext h
    refine between_genByteStringBetween spacing hprev hnext ?_
    intro hne
    cases prev with
    | nil => exact nil_lt_of_ne_nil hne
    | cons p prev => exact h (by simp) hne
  · intro n
    obtain ⟨hlen, hpair, -⟩ := @genEvenlySpacedHelper_spec n [] [] (by simp) (by simp) (by simp)
    exact ⟨hlen, hpair⟩

/-- Behind `[5]` and before `[5, 1]` there is only room with a third digit. -/
theorem representation_below_five_one :
    Between [5] [5, 1] (genByteStringBetween .packed [5] [5, 1]) :=
  representations_ordered.1 .packed [5] [5, 1] (by decide) (by decide) fun _ _ => by decide

end Cockroach.Enum
