import Mathlib.Algebra.Ring.Nat
import Mathlib.Data.List.Basic

/-! The split of a batch into parts that a store can execute. -/
namespace Cockroach.Roachpb
open BitVec (and_or_distrib_right twoPow_and)

/-- A set of request flags; all bits are set in the value that stands for no flags yet. -/
abbrev RequestFlag := BitVec 64

namespace RequestFlag

def isAdmin : RequestFlag := .twoPow 64 0
def isRead : RequestFlag := .twoPow 64 1
def isWrite : RequestFlag := .twoPow 64 2
def isTxn : RequestFlag := .twoPow 64 3
def isRange : RequestFlag := .twoPow 64 6
def isReverse : RequestFlag := .twoPow 64 7
def isAlone : RequestFlag := .twoPow 64 8
def isPrefix : RequestFlag := .twoPow 64 9
def updatesTSCache : RequestFlag := .twoPow 64 13
def needsRefresh : RequestFlag := .twoPow 64 15

/-- The number of flags that a request can have. -/
def count : ℕ := 18

def unset : RequestFlag := -1

def has (flags flag : RequestFlag) : Bool := flags &&& flag ≠ 0

@[simp] theorem has_zero (flag : RequestFlag) : has 0#64 flag = false := by
  simp [has]

@[simp] theorem has_or (a b flag : RequestFlag) :
    has (a ||| b) flag = (has a flag || has b flag) := by
  unfold has
  rw [and_or_distrib_right]
  simp [BitVec.or_eq_zero_iff, imp_iff_not_or]

/-- A mask of one bit keeps what `has` asks for. -/
theorem twoPow_and_eq_iff (a b : RequestFlag) (i : ℕ) :
    .twoPow 64 i &&& a = .twoPow 64 i &&& b ↔ a.has (.twoPow 64 i) = b.has (.twoPow 64 i) := by
  unfold has
  rw [twoPow_and, twoPow_and, BitVec.and_twoPow, BitVec.and_twoPow]
  cases a.getLsbD i <;> cases b.getLsbD i <;> simp [@eq_comm _ 0#64]

theorem or_and_eq_iff (p q a b : RequestFlag) :
    (p ||| q) &&& a = (p ||| q) &&& b ↔ p &&& a = p &&& b ∧ q &&& a = q &&& b := by
  simp only [BitVec.eq_of_getLsbD_eq_iff, BitVec.getLsbD_and, BitVec.getLsbD_or]
  grind

theorem ne_unset {flags : RequestFlag} (h : flags.toNat < 2 ^ count) : flags ≠ unset := by
  rintro rfl
  exact absurd h (by decide)

/-- Requests of one kind: both or none write, and both or none are for the administration. -/
def SameKind (a b : RequestFlag) : Prop :=
  a.has isWrite = b.has isWrite ∧ a.has isAdmin = b.has isAdmin

/-- Two requests for ranges go in the same direction. -/
def SameDirection (a b : RequestFlag) : Prop :=
  a.has isRange = true → b.has isRange = true → a.has isReverse = b.has isReverse

/-- Only a request for a range has a direction. -/
def Directed (a : RequestFlag) : Prop := a.has isReverse = true → a.has isRange = true

theorem mask_eq_iff (a b : RequestFlag) :
    (isWrite ||| isAdmin) &&& a = (isWrite ||| isAdmin) &&& b ↔ SameKind a b := by
  rw [or_and_eq_iff]
  exact and_congr (twoPow_and_eq_iff a b 2) (twoPow_and_eq_iff a b 0)

theorem mask_reverse_eq_iff (a b : RequestFlag) :
    (isWrite ||| isAdmin ||| isReverse) &&& a = (isWrite ||| isAdmin ||| isReverse) &&& b ↔
      SameKind a b ∧ a.has isReverse = b.has isReverse := by
  rw [or_and_eq_iff, mask_eq_iff]
  exact and_congr_right fun _ => twoPow_and_eq_iff a b 7

end RequestFlag

open RequestFlag

/-- A request by what the split looks at. Only the flags of `EndTxn` are fixed here. -/
structure RequestUnion where
  isEndTxn : Bool
  flags : RequestFlag
  flags_lt : flags.toNat < 2 ^ RequestFlag.count
  flags_endTxn : isEndTxn = true → flags = isWrite ||| isTxn ||| isAlone ||| updatesTSCache

namespace RequestUnion

def compatible (exFlags newFlags : RequestFlag) : Bool :=
  if exFlags.has isAlone || newFlags.has isAlone then false
  else if exFlags = 0 ∨ newFlags = 0 then true
  else
    let mask := isWrite ||| isAdmin
    let mask := if exFlags.has isRange && newFlags.has isRange then mask ||| isReverse else mask
    mask &&& exFlags = mask &&& newFlags

theorem compatible_iff {a b : RequestFlag} : compatible a b = true ↔
    a.has isAlone = false ∧ b.has isAlone = false ∧
      (a = 0 ∨ b = 0 ∨ SameKind a b ∧ SameDirection a b) := by
  unfold compatible
  by_cases halone : (a.has isAlone || b.has isAlone) = true
  · rw [if_pos halone]
    constructor
    · exact nofun
    · intro h
      rw [h.1, h.2.1] at halone
      cases halone
  rw [if_neg halone]
  have hnone : a.has isAlone = false ∧ b.has isAlone = false := by
    simpa [Bool.or_eq_true] using halone
  by_cases hzero : a = 0 ∨ b = 0
  · rw [if_pos hzero]
    simp only [true_iff]
    exact ⟨hnone.1, hnone.2, hzero.imp_right .inl⟩
  rw [if_neg hzero]
  have hdirection : decide ((if a.has isRange && b.has isRange
      then isWrite ||| isAdmin ||| isReverse else isWrite ||| isAdmin) &&& a =
      (if a.has isRange && b.has isRange
      then isWrite ||| isAdmin ||| isReverse else isWrite ||| isAdmin) &&& b) = true ↔
      SameKind a b ∧ SameDirection a b := by
    rw [decide_eq_true_iff]
    by_cases hrange : (a.has isRange && b.has isRange) = true
    · rw [if_pos hrange, mask_reverse_eq_iff]
      obtain ⟨ha, hb⟩ := Bool.and_eq_true_iff.mp hrange
      simp [SameDirection, ha, hb]
    · rw [if_neg hrange, mask_eq_iff]
      refine (and_iff_left fun ha hb => ?_).symm
      exact absurd (by rw [ha, hb]; rfl) hrange
  refine hdirection.trans ?_
  constructor
  · intro h
    exact ⟨hnone.1, hnone.2, .inr (.inr h)⟩
  · intro h
    rcases h.2.2 with ha | hb | hsame
    · exact absurd (.inl ha) hzero
    · exact absurd (.inr hb) hzero
    · exact hsame

/-- Nothing about an `EndTxn` is compared if it must not be split off. -/
def uncompared (canSplitET : Bool) (r : RequestUnion) : Bool := !canSplitET && r.isEndTxn

/-- The flags of the first request that is not a header. -/
def headerFlags (canSplitET : Bool) : List RequestUnion → RequestFlag
  | [] => unset
  | r :: reqs =>
    let nFlags := if r.uncompared canSplitET then 0 else r.flags
    if nFlags.has isPrefix then headerFlags canSplitET reqs else nFlags

/-- The number of requests that go into the part. -/
def partLoop (canSplitET : Bool) (gFlags hFlags : RequestFlag) : List RequestUnion → ℕ
  | [] => 0
  | r :: reqs =>
    let hFlags :=
      if r.flags.has isPrefix then
        if hFlags = unset then headerFlags canSplitET reqs else hFlags
      else unset
    let flags :=
      if r.flags.has isPrefix && hFlags ≠ unset && !hFlags.has isAlone then hFlags else r.flags
    let cmpFlags := if r.uncompared canSplitET then 0 else flags
    if gFlags = unset then partLoop canSplitET flags hFlags reqs + 1
    else if compatible gFlags cmpFlags then
      partLoop canSplitET (gFlags ||| flags) hFlags reqs + 1
    else 0

theorem partLoop_unset_pos (canSplitET : Bool) (hFlags : RequestFlag) {r : RequestUnion}
    (reqs : List RequestUnion) : 0 < partLoop canSplitET unset hFlags (r :: reqs) := by
  exact Nat.succ_pos _

def split (canSplitET : Bool) (reqs : List RequestUnion) : List (List RequestUnion) :=
  match reqs with
  | [] => []
  | r :: rest =>
    let n := partLoop canSplitET unset unset (r :: rest)
    (r :: rest).take n :: split canSplitET ((r :: rest).drop n)
termination_by reqs.length
decreasing_by
  have hpos := partLoop_unset_pos canSplitET unset (r := r) rest
  rw [List.length_drop, List.length_cons]
  omega

/-- An `EndTxn` is alone, and not a header. -/
theorem flags_of_uncompared {canSplitET : Bool} {r : RequestUnion}
    (h : r.uncompared canSplitET = true) :
    r.flags.has isPrefix = false ∧ r.flags.has isAlone = true := by
  have hend : r.isEndTxn = true := (Bool.and_eq_true_iff.mp h).2
  rw [r.flags_endTxn hend]
  decide

/-- The flags with which a request goes into a part: a header takes those of the request that
follows it. -/
def partFlags (canSplitET : Bool) (r : RequestUnion) (reqs : List RequestUnion) : RequestFlag :=
  let hFlags := headerFlags canSplitET reqs
  if r.flags.has isPrefix && hFlags ≠ unset && !hFlags.has isAlone then hFlags else r.flags

/-- The flags with which a request is compared with those before it. -/
def cmpFlags (canSplitET : Bool) (r : RequestUnion) (reqs : List RequestUnion) : RequestFlag :=
  if r.uncompared canSplitET then 0 else partFlags canSplitET r reqs

/-- The number of requests that go into a part behind those with the flags so far. -/
def partLength (canSplitET : Bool) (gFlags : RequestFlag) : List RequestUnion → ℕ
  | [] => 0
  | r :: reqs =>
    if compatible gFlags (cmpFlags canSplitET r reqs) then
      partLength canSplitET (gFlags ||| partFlags canSplitET r reqs) reqs + 1
    else 0

variable {canSplitET : Bool} {reqs : List RequestUnion} {r : RequestUnion}

theorem headerFlags_cons_of_isPrefix (h : r.flags.has isPrefix = true) :
    headerFlags canSplitET (r :: reqs) = headerFlags canSplitET reqs := by
  have huncompared : r.uncompared canSplitET ≠ true := fun hu => by
    rw [(flags_of_uncompared hu).1] at h
    cases h
  rw [headerFlags, if_neg huncompared, if_pos h]

theorem headerFlags_cons_of_not_isPrefix (h : r.flags.has isPrefix = false) :
    headerFlags canSplitET (r :: reqs) = if r.uncompared canSplitET then 0 else r.flags := by
  rw [headerFlags]
  split_ifs with huncompared hpre hpre
  · simp at hpre
  · rfl
  · rw [h] at hpre
    cases hpre
  · rfl

theorem partFlags_of_not_isPrefix (h : r.flags.has isPrefix = false) :
    partFlags canSplitET r reqs = r.flags := by
  simp [partFlags, h]

theorem partFlags_cases (canSplitET : Bool) (r : RequestUnion) (reqs : List RequestUnion) :
    partFlags canSplitET r reqs = 0 ∨ ∃ r' ∈ r :: reqs, partFlags canSplitET r reqs = r'.flags := by
  have hheader : ∀ reqs : List RequestUnion, headerFlags canSplitET reqs = unset ∨
      headerFlags canSplitET reqs = 0 ∨
      ∃ r' ∈ reqs, headerFlags canSplitET reqs = r'.flags := by
    intro reqs
    induction reqs with
    | nil => exact .inl rfl
    | cons r' reqs ih =>
      by_cases hpre : r'.flags.has isPrefix = true
      · rw [headerFlags_cons_of_isPrefix hpre]
        rcases ih with h | h | ⟨r'', hmem, h⟩
        · exact .inl h
        · exact .inr (.inl h)
        · exact .inr (.inr ⟨r'', List.mem_cons_of_mem _ hmem, h⟩)
      · rw [headerFlags_cons_of_not_isPrefix (by simpa using hpre)]
        by_cases hu : r'.uncompared canSplitET = true
        · rw [if_pos hu]
          exact .inr (.inl rfl)
        · rw [if_neg hu]
          exact .inr (.inr ⟨r', List.mem_cons_self, rfl⟩)
  by_cases h : (r.flags.has isPrefix && headerFlags canSplitET reqs ≠ unset &&
      !(headerFlags canSplitET reqs).has isAlone) = true
  · have heq : partFlags canSplitET r reqs = headerFlags canSplitET reqs := if_pos h
    rw [heq]
    rcases hheader reqs with hunset | hzero | ⟨r', hmem, h'⟩
    · simp [hunset] at h
    · exact .inl hzero
    · exact .inr ⟨r', List.mem_cons_of_mem _ hmem, h'⟩
  · exact .inr ⟨r, List.mem_cons_self, if_neg h⟩

theorem partFlags_lt (canSplitET : Bool) (r : RequestUnion) (reqs : List RequestUnion) :
    (partFlags canSplitET r reqs).toNat < 2 ^ RequestFlag.count := by
  rcases partFlags_cases canSplitET r reqs with h | ⟨r', -, h⟩
  · rw [h]
    decide
  · rw [h]
    exact r'.flags_lt

theorem partLoop_eq {g h : RequestFlag} (hg : g.toNat < 2 ^ RequestFlag.count)
    (hh : h = unset ∨ h = headerFlags canSplitET reqs) :
    partLoop canSplitET g h reqs = partLength canSplitET g reqs := by
  induction reqs generalizing g h with
  | nil => rfl
  | cons r reqs ih =>
    have hg' : (g ||| partFlags canSplitET r reqs).toNat < 2 ^ RequestFlag.count := by
      exact Nat.or_lt_two_pow hg (partFlags_lt canSplitET r reqs)
    rw [partLoop, partLength, if_neg (ne_unset hg)]
    by_cases hpre : r.flags.has isPrefix = true
    · have hheader : (if r.flags.has isPrefix then
          if h = unset then headerFlags canSplitET reqs else h else unset) =
          headerFlags canSplitET reqs := by
        rw [if_pos hpre]
        rcases hh with rfl | rfl
        · exact if_pos rfl
        · rw [headerFlags_cons_of_isPrefix hpre, ite_self]
      rw [hheader]
      change (if compatible g (cmpFlags canSplitET r reqs) = true then
        partLoop canSplitET (g ||| partFlags canSplitET r reqs) _ reqs + 1 else 0) = _
      rw [ih hg' (.inr rfl)]
    · have hflags := @partFlags_of_not_isPrefix canSplitET reqs r (by simpa using hpre)
      rw [if_neg hpre, cmpFlags, hflags]
      rw [hflags] at hg'
      simp only [ne_eq, not_true_eq_false, decide_false, Bool.and_false, Bool.false_and,
        Bool.false_eq_true, if_false]
      rw [ih hg' (.inl rfl)]

theorem partLoop_unset (canSplitET : Bool) (r : RequestUnion) (reqs : List RequestUnion) :
    partLoop canSplitET unset unset (r :: reqs) =
      partLength canSplitET (partFlags canSplitET r reqs) reqs + 1 := by
  rw [partLoop, if_pos rfl]
  by_cases hpre : r.flags.has isPrefix = true
  · rw [if_pos hpre]
    exact congrArg (· + 1) (partLoop_eq (partFlags_lt canSplitET r reqs) (.inr rfl))
  · have hflags := @partFlags_of_not_isPrefix canSplitET reqs r (by simpa using hpre)
    rw [if_neg hpre, hflags]
    simp only [ne_eq, not_true_eq_false, decide_false, Bool.and_false, Bool.false_and,
      Bool.false_eq_true, if_false]
    rw [partLoop_eq r.flags_lt (.inl rfl)]

end RequestUnion

end Cockroach.Roachpb
