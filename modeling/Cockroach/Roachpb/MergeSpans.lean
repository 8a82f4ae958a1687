import Cockroach.Roachpb.Transaction

/-! The merge of spans: what it covers, and when the spans are distinct. -/
namespace Cockroach.Roachpb
open ByteOrder List

namespace RawSpan

/-- The key is one of those of the span. -/
def Covers (s : RawSpan) (k : Bytes) : Prop :=
  if s.stop = [] then k = s.key else s.key ≤ k ∧ k < s.stop

instance (s : RawSpan) (k : Bytes) : Decidable (s.Covers k) :=
  inferInstanceAs (Decidable (if s.stop = [] then k = s.key else s.key ≤ k ∧ k < s.stop))

def Valid (s : RawSpan) : Prop := s.stop ≠ [] → s.key < s.stop

/-- No key is in both spans. -/
def Distinct (a b : RawSpan) : Prop := ∀ k, ¬ (a.Covers k ∧ b.Covers k)

/-- A point whose end key is there but empty. -/
def IsEmptyPoint (s : RawSpan) : Prop := s.endKey = some []

instance (s : RawSpan) : Decidable s.IsEmptyPoint :=
  inferInstanceAs (Decidable (s.endKey = some []))

/-- The first key behind those of the span. -/
def hi (s : RawSpan) : Bytes := if s.stop = [] then s.key ++ [0] else s.stop

theorem lt_next_iff {a b : Bytes} : a < b ++ [0] ↔ a ≤ b := by
  rw [← bytesCompare_lt_iff, bytesCompare_append_zero, bytesCompare_ne_gt_iff]

section

variable {s prev cur : RawSpan} {k : Bytes}

theorem hi_point (h : s.stop = []) : s.hi = s.key ++ [0] := if_pos h

theorem hi_range (h : s.stop ≠ []) : s.hi = s.stop := if_neg h

theorem IsEmptyPoint.stop (h : s.IsEmptyPoint) : s.stop = [] := by
  rw [RawSpan.stop, h]
  rfl

theorem covers_iff : s.Covers k ↔ s.key ≤ k ∧ k < s.hi := by
  unfold Covers
  split_ifs with h
  · rw [hi_point h, lt_next_iff]
    grind
  · rw [hi_range h]

theorem Valid.lt_hi (h : s.Valid) : s.key < s.hi := by
  by_cases hstop : s.stop = []
  · rw [hi_point hstop, lt_next_iff]
  · rw [hi_range hstop]
    exact h hstop

theorem distinct_iff (hcur : cur.Valid) (hle : s.key ≤ cur.key) :
    Distinct s cur ↔ s.hi ≤ cur.key := by
  have hlt' := hcur.lt_hi
  constructor
  · intro h
    have := h cur.key
    rw [covers_iff, covers_iff] at this
    grind
  · intro h k hk
    rw [covers_iff, covers_iff] at hk
    grind

/-- What becomes of the last span when the next one comes. -/
inductive Merges (prev cur : RawSpan) : Option RawSpan × Bool → Prop where
  | apart : prev.hi ≤ cur.key → (prev.stop ≠ [] → prev.stop < cur.key) →
      Merges prev cur (none, true)
  | join {merged : RawSpan} {d : Bool} : merged.key = prev.key → cur.key ≤ prev.hi →
      merged.hi = max prev.hi cur.hi → (d = true ↔ prev.hi ≤ cur.key) →
      (merged.stop = [] → prev.stop = [] ∧ cur.stop = []) →
      (merged.stop ≠ [] → prev.stop ≠ [] ∨ cur.stop ≠ [] ∧ cur.key = prev.key) →
      (cur.IsEmptyPoint → cur.key < prev.hi) → Merges prev cur (some merged, d)
  | drop : cur.IsEmptyPoint → prev.stop ≠ [] → cur.key = prev.stop →
      Merges prev cur (some prev, false)

theorem Merges.keep (h : prev.stop ≠ []) (hlt : cur.key < prev.hi) (hle : cur.hi ≤ prev.hi) :
    Merges prev cur (some prev, false) :=
  .join rfl hlt.le (max_eq_left hle).symm (by grind) (by grind) (by grind) (fun _ => hlt)

theorem Merges.extend (h : prev.stop ≠ []) (hle : cur.key ≤ prev.hi) (hlt : prev.hi < cur.hi)
    (hempty : ¬ cur.IsEmptyPoint) {d : Bool} (hd : d = true ↔ prev.hi ≤ cur.key) :
    Merges prev cur (some { prev with endKey := some cur.hi }, d) := by
  have hne : cur.hi ≠ [] := by
    intro h0
    rw [h0] at hlt
    exact absurd hlt (by simp)
  refine .join rfl hle ?_ hd (fun h0 => absurd h0 hne) (fun _ => .inl h)
    (fun h0 => absurd h0 hempty)
  rw [max_eq_right hlt.le]
  exact if_neg hne

theorem merges_merge (hprev : prev.Valid) (hcur : cur.Valid) (hle : prev.key ≤ cur.key) :
    Merges prev cur (prev.merge cur) := by
  have hlt := hprev.lt_hi
  have hlt' := hcur.lt_hi
  unfold RawSpan.merge
  by_cases hpoint : prev.stop = []
  · have hhi := hi_point hpoint
    have hle_hi : ∀ k, prev.hi ≤ k ↔ prev.key < k := by
      intro k
      rw [hhi, ← not_lt, lt_next_iff, not_le]
    by_cases hkey : cur.key = prev.key
    · by_cases hcpoint : cur.stop = []
      · rw [if_pos ⟨hcpoint, hpoint⟩, if_neg (not_not.mpr hkey)]
        refine .join rfl (by grind) ?_ (by grind) (by grind) (by grind) (by grind)
        rw [hhi, hi_point hcpoint, hkey, max_self]
      · rw [if_neg (by grind), if_pos hpoint, if_pos hkey]
        refine .join rfl (by grind) ?_ (by grind) (by grind [RawSpan.stop]) (by grind) (by grind)
        rw [max_eq_right ((hle_hi _).mpr (hkey ▸ hlt'))]
        exact (hi_range hcpoint) ▸ hi_range hcpoint
    · have hapart : Merges prev cur (none, true) := .apart (by grind) (by grind)
      by_cases hcpoint : cur.stop = []
      · rwa [if_pos ⟨hcpoint, hpoint⟩, if_pos hkey]
      · rwa [if_neg (by grind), if_pos hpoint, if_neg hkey]
  rw [if_neg (by grind), if_neg hpoint]
  have hhi := hi_range hpoint
  by_cases hafter : bytesCompare prev.stop cur.key = .lt
  · rw [if_pos hafter]
    rw [bytesCompare_lt_iff] at hafter
    exact .apart (by grind) (by grind)
  rw [if_neg hafter]
  have hge : cur.key ≤ prev.stop := bytesCompare_ne_lt_iff.mp hafter
  cases hend : cur.endKey with
  | some e =>
    have hstop : cur.stop = e := by
      rw [RawSpan.stop, hend]
      rfl
    dsimp only
    by_cases hlonger : bytesCompare prev.stop e = .lt
    · rw [if_pos hlonger]
      rw [bytesCompare_lt_iff, ← hstop] at hlonger
      have hne : cur.stop ≠ [] := by
        intro h0
        rw [h0] at hlonger
        exact absurd hlonger (by simp)
      have hend' : some e = some cur.hi := by rw [hi_range hne, hstop]
      rw [hend']
      refine .extend hpoint (by grind) (by grind [hi_range]) (fun h => hne h.stop) ?_
      rw [decide_eq_true_iff, bytesCompare_ne_gt_iff, hhi]
    · rw [if_neg hlonger]
      have hlonger' : e ≤ prev.stop := bytesCompare_ne_lt_iff.mp hlonger
      by_cases hcpoint : cur.stop = []
      · rcases hge.lt_or_eq with hin | heq
        · refine .keep hpoint (by grind) ?_
          rw [hi_point hcpoint, hhi, ← not_lt, lt_next_iff]
          exact hin.not_ge
        · exact .drop (by rw [IsEmptyPoint, hend, ← hstop, hcpoint]) hpoint heq
      · have hchi := hi_range hcpoint
        exact .keep hpoint (by grind) (by grind)
  | none =>
    have hcpoint : cur.stop = [] := by
      rw [RawSpan.stop, hend]
      rfl
    have hchi := hi_point hcpoint
    by_cases heq : bytesCompare prev.stop cur.key = .eq
    · rw [if_pos heq, ← hchi]
      rw [bytesCompare_eq_iff] at heq
      exact .extend hpoint (by grind) (by grind) (by simp [IsEmptyPoint, hend]) (by grind)
    · rw [if_neg heq]
      rw [bytesCompare_eq_iff] at heq
      refine .keep hpoint (by grind) ?_
      rw [hchi, ← not_lt, lt_next_iff]
      grind

end

/-- What the merged spans have to do with the given ones: an empty point at the end of a merged
range is not in it. -/
structure Hull (spans out : List RawSpan) : Prop where
  valid : ∀ r ∈ out, r.Valid
  within : ∀ s ∈ spans, (∃ r ∈ out, r.key ≤ s.key ∧ s.hi ≤ r.hi ∧ (s.stop ≠ [] → r.stop ≠ [])) ∨
    s.IsEmptyPoint ∧ ∃ r ∈ out, r.stop ≠ [] ∧ s.key = r.stop
  covered : ∀ r ∈ out, ∀ k, r.Covers k → ∃ s ∈ spans, s.Covers k ∧
    (r.stop ≠ [] → ¬ s.IsEmptyPoint)
  range : ∀ r ∈ out, r.stop ≠ [] → ∃ s ∈ spans, s.stop ≠ [] ∧ r.key ≤ s.key ∧ s.stop ≤ r.stop

namespace Hull

theorem singleton {s : RawSpan} (h : s.Valid) : Hull [s] [s] := by
  refine ⟨by simpa, ?_, ?_, ?_⟩ <;> simp only [mem_singleton, forall_eq, exists_eq_left]
  · exact .inl ⟨le_rfl, le_rfl, id⟩
  · exact fun k hk => ⟨hk, fun hne hempty => hne hempty.stop⟩
  · exact fun hne => ⟨hne, le_rfl, le_rfl⟩

theorem append {spans spans' out out' : List RawSpan} (h : Hull spans out)
    (h' : Hull spans' out') : Hull (spans ++ spans') (out ++ out') := by
  constructor
  · grind [h.valid, h'.valid]
  · grind [h.within, h'.within]
  · grind [h.covered, h'.covered]
  · grind [h.range, h'.range]

variable {seen : List RawSpan} {prev cur merged : RawSpan} {d : Bool}

theorem step (h : Hull seen [prev]) (hcur : cur.Valid) (hle : prev.key ≤ cur.key)
    (hm : Merges prev cur (some merged, d)) : Hull (seen ++ [cur]) [merged] := by
  obtain ⟨hvalid, hwithin, hcovered, hrange⟩ := h
  simp only [mem_singleton, forall_eq, exists_eq_left] at hvalid hwithin hcovered hrange
  have hlt' := hcur.lt_hi
  simp only [covers_iff] at hcovered
  cases hm with
  | drop hempty hne hkey =>
    constructor <;> simp only [mem_singleton, forall_eq, exists_eq_left, covers_iff]
    · exact hvalid
    · grind
    · grind
    · grind
  | join hkey hge hhi hd hpoint hmrange hempty =>
    have hpoint_hi : ∀ s : RawSpan, s.stop = [] → ∀ k, s.hi ≤ k ↔ s.key < k := by
      intro s hs k
      rw [hi_point hs, ← not_lt, lt_next_iff, not_le]
    constructor <;> simp only [mem_singleton, forall_eq, exists_eq_left, covers_iff]
    · intro hne
      rw [← hi_range hne]
      grind
    · intro s hs
      rcases mem_append.mp hs with hs | hs
      · rcases hwithin s hs with hin | ⟨hse, hne, hskey⟩
        · grind
        · have := hi_range hne
          have := hpoint_hi s hse.stop
          grind [hi_range]
      · grind
    · intro k hk
      rcases lt_or_ge k prev.hi with hin | hout
      · by_cases hprev : prev.stop = []
        · have := hpoint_hi prev hprev k
          grind [IsEmptyPoint.stop]
        · grind
      · have := fun h => hpoint_hi cur h k
        grind [IsEmptyPoint.stop]
    · intro hne
      by_cases hprev : prev.stop = []
      · obtain ⟨hcne, -⟩ := (hmrange hne).resolve_left (not_not.mpr hprev)
        exact ⟨cur, by simp, hcne, by grind, by grind [hi_range]⟩
      · obtain ⟨s, hs, hsne, hskey, hsle⟩ := hrange hprev
        exact ⟨s, by simp [hs], hsne, by grind, by grind [hi_range]⟩

end Hull

variable {l : List RawSpan} {prev : RawSpan} {d : Bool}

theorem mergeLoop_hull {seen : List RawSpan} (h : Hull seen [prev]) (hvalid : ∀ s ∈ l, s.Valid)
    (hsorted : (prev :: l).Pairwise fun a b => a.key ≤ b.key) :
    Hull (seen ++ l) (mergeLoop prev d l).1 ∧
      (mergeLoop prev d l).1.Pairwise (fun a b => a.hi ≤ b.key ∧ (a.stop ≠ [] → a.stop < b.key)) ∧
      ∀ r ∈ (mergeLoop prev d l).1, prev.key ≤ r.key := by
  induction l generalizing seen prev d with
  | nil => simpa [mergeLoop] using h
  | cons cur l ih =>
    have hcur := hvalid cur mem_cons_self
    have hl : ∀ s ∈ l, s.Valid := fun s hs => hvalid s (mem_cons_of_mem _ hs)
    obtain ⟨hle, hsorted'⟩ := pairwise_cons.mp hsorted
    have hm := merges_merge (h.valid prev mem_cons_self) hcur (hle cur mem_cons_self)
    rw [mergeLoop]
    rcases hstep : prev.merge cur with ⟨_ | merged, d'⟩
    · rw [hstep] at hm
      obtain ⟨hhull, hpair, hkeys⟩ := ih (d := d && d') (.singleton hcur) hl hsorted'
      refine ⟨by simpa using h.append hhull, .cons ?_ hpair, ?_⟩
      · cases hm with
        | apart hhi hstop => grind
      · grind
    · rw [hstep] at hm
      have hkey : merged.key = prev.key := by
        cases hm with
        | join hkey => exact hkey
        | drop => rfl
      have hsorted'' : (merged :: l).Pairwise fun a b => a.key ≤ b.key :=
        .cons (by grind) (pairwise_cons.mp hsorted').2
      obtain ⟨hhull, hpair, hkeys⟩ := ih (d := d && d')
        (h.step hcur (hle cur mem_cons_self) hm) hl hsorted''
      exact ⟨by simpa using hhull, hpair, by grind⟩

theorem pairwise_distinct_iff (hvalid : ∀ s ∈ l, s.Valid)
    (hsorted : l.Pairwise fun a b => a.key ≤ b.key) :
    l.Pairwise Distinct ↔ l.Pairwise fun a b => a.hi ≤ b.key := by
  constructor
  · intro h
    refine (h.and hsorted).imp_of_mem fun ha hb hab => ?_
    exact (distinct_iff (hvalid _ hb) hab.2).mp hab.1
  · intro h
    refine (h.and hsorted).imp_of_mem fun ha hb hab => ?_
    exact (distinct_iff (hvalid _ hb) hab.2).mpr hab.1

theorem mem_mergeLoop (hprev : prev.Valid) (hne : prev.stop ≠ [])
    (h : ∀ s ∈ l, s.Valid ∧ prev.stop < s.key) : prev ∈ (mergeLoop prev d l).1 := by
  cases l with
  | nil => simp [mergeLoop]
  | cons cur l =>
    obtain ⟨hcur, hlt⟩ := h cur mem_cons_self
    have hhi := hi_range hne
    have hm := merges_merge hprev hcur ((hprev hne).trans hlt).le
    rw [mergeLoop]
    rcases hstep : prev.merge cur with ⟨_ | merged, d'⟩
    · simp
    · rw [hstep] at hm
      cases hm with
      | join | drop => grind

/-- The flag is set if each span starts behind those before it, unless a point is dropped. -/
theorem mergeLoop_distinct (hprev : prev.Valid) (hvalid : ∀ s ∈ l, s.Valid)
    (hsorted : (prev :: l).Pairwise fun a b => a.key ≤ b.key) :
    ((mergeLoop prev d l).2 = true → d = true ∧ (prev :: l).Pairwise fun a b => a.hi ≤ b.key) ∧
      (d = true → ((prev :: l).Pairwise fun a b => a.hi ≤ b.key) →
        (mergeLoop prev d l).2 = true ∨ ∃ p ∈ l, p.IsEmptyPoint ∧
          ∃ r ∈ (mergeLoop prev d l).1, r.stop ≠ [] ∧ p.key = r.stop) := by
  induction l generalizing prev d with
  | nil => simp [mergeLoop]
  | cons cur l ih =>
    have hcur := hvalid cur mem_cons_self
    have hl : ∀ s ∈ l, s.Valid := fun s hs => hvalid s (mem_cons_of_mem _ hs)
    obtain ⟨hle, hsorted'⟩ := pairwise_cons.mp hsorted
    have hm := merges_merge hprev hcur (hle cur mem_cons_self)
    have hlt' := hcur.lt_hi
    rw [mergeLoop]
    rcases hstep : prev.merge cur with ⟨_ | merged, d'⟩
    · rw [hstep] at hm
      obtain ⟨hflag, hset⟩ := ih (d := d && d') hcur hl hsorted'
      cases hm with
      | apart hhi hstop =>
        simp only [pairwise_cons] at hflag hset ⊢
        constructor
        · grind
        · grind
    · rw [hstep] at hm
      cases hm with
      | join hkey hge hhi hd hpoint hmrange hempty =>
        have hmerged : merged.Valid := by
          intro hne
          rw [← hi_range hne]
          grind
        obtain ⟨hflag, hset⟩ := ih (d := d && d') hmerged hl
          (.cons (by grind) (pairwise_cons.mp hsorted').2)
        simp only [pairwise_cons] at hflag hset ⊢
        constructor
        · grind
        · rintro hdt ⟨hfirst, hrest, hpair⟩
          have hbehind := hd.mpr (hfirst cur mem_cons_self)
          rcases hset (by simp [hdt, hbehind]) ⟨by grind, hpair⟩ with hflag' | ⟨p, hp, hdrop⟩
          · exact .inl hflag'
          · exact .inr ⟨p, mem_cons_of_mem _ hp, hdrop⟩
      | drop hempty hne hkey =>
        obtain ⟨hflag, -⟩ := ih (d := d && false) hprev hl
          (.cons (by grind) (pairwise_cons.mp hsorted').2)
        simp only [pairwise_cons] at hflag ⊢
        refine ⟨by grind, ?_⟩
        rintro - ⟨-, hrest, -⟩
        refine .inr ⟨cur, mem_cons_self, hempty, prev, ?_, hne, hkey⟩
        exact mem_mergeLoop hprev hne fun s hs => ⟨hl s hs, by grind⟩

/-- The merged spans are sorted and disjoint and cover what the given ones do, and the flag says
whether those are distinct. -/
structure MergedExactly (spans : List RawSpan) (merged : List RawSpan × Bool) : Prop where
  sorted : merged.1.Pairwise fun a b => a.key < b.key
  disjoint : merged.1.Pairwise Distinct
  covers : ∀ k, (∃ s ∈ merged.1, s.Covers k) ↔ ∃ s ∈ spans, s.Covers k
  distinct : merged.2 = true ↔ spans.Pairwise Distinct

/-- An empty point that no other span covers, right behind the keys that some spans with a range
among them cover without a gap. -/
def LosesPoint (spans : List RawSpan) : Prop :=
  ∃ p ∈ spans, p.IsEmptyPoint ∧ (∀ s ∈ spans, ¬ s.IsEmptyPoint → ¬ s.Covers p.key) ∧
    ∃ s ∈ spans, s.stop ≠ [] ∧ s.stop ≤ p.key ∧
      ∀ k, s.stop ≤ k → k < p.key → ∃ t ∈ spans, t.Covers k

section Exact

variable {spans out : List RawSpan} (h : Hull spans out)
  (hpair : out.Pairwise fun a b => a.hi ≤ b.key ∧ (a.stop ≠ [] → a.stop < b.key))
include h hpair

theorem not_covers_stop {r r' : RawSpan} (hr : r ∈ out) (hne : r.stop ≠ []) (hr' : r' ∈ out) :
    ¬ r'.Covers r.stop := by
  have hlt := (h.valid r hr).lt_hi
  have hhi := hi_range hne
  rw [covers_iff]
  rcases pairwise_iff_getElem.mp hpair with hget
  obtain ⟨i, hi, rfl⟩ := getElem_of_mem hr
  obtain ⟨j, hj, rfl⟩ := getElem_of_mem hr'
  rcases lt_trichotomy i j with hij | rfl | hij
  · have := (hget i j hi hj hij).2 hne
    grind
  · grind
  · have := (hget j i hj hi hij).1
    grind

theorem losesPoint_of_stop (hvalid : ∀ s ∈ spans, s.Valid) {p r : RawSpan} (hp : p ∈ spans)
    (hempty : p.IsEmptyPoint) (hr : r ∈ out) (hne : r.stop ≠ []) (hkey : p.key = r.stop) :
    LosesPoint spans := by
  obtain ⟨s, hs, hsne, hskey, hsle⟩ := h.range r hr hne
  refine ⟨p, hp, hempty, ?_, s, hs, hsne, hsle.trans hkey.ge, ?_⟩
  · intro t ht htne hcovers
    obtain ⟨r', hr', hkey', hhi', -⟩ := (h.within t ht).resolve_right fun hdrop => htne hdrop.1
    refine not_covers_stop h hpair hr hne hr' ?_
    rw [covers_iff] at hcovers ⊢
    grind
  · intro k hsk hkp
    have hcovers : r.Covers k := by
      rw [covers_iff, hi_range hne]
      have := hvalid s hs hsne
      grind
    obtain ⟨t, ht, hcovers', -⟩ := h.covered r hr k hcovers
    exact ⟨t, ht, hcovers'⟩

theorem not_covered_of_losesPoint (hvalid : ∀ s ∈ spans, s.Valid) (hloses : LosesPoint spans) :
    ∃ k, (∃ s ∈ spans, s.Covers k) ∧ ∀ r ∈ out, ¬ r.Covers k := by
  obtain ⟨p, hp, -, halone, s, hs, hsne, hsp, hcovered⟩ := hloses
  obtain ⟨r, hr, hkey, hhi, hrne⟩ :=
    (h.within s hs).resolve_right fun hdrop => hsne hdrop.1.stop
  have hrne := hrne hsne
  rw [hi_range hsne, hi_range hrne] at hhi
  refine ⟨r.stop, ?_, fun r' hr' => not_covers_stop h hpair hr hrne hr'⟩
  rcases lt_trichotomy r.stop p.key with hlt | heq | hgt
  · exact hcovered r.stop hhi hlt
  · exact ⟨p, hp, covers_iff.mpr (by rw [heq]; exact ⟨le_rfl, (hvalid p hp).lt_hi⟩)⟩
  · have hcovers : r.Covers p.key := by
      rw [covers_iff, hi_range hrne]
      have := hvalid s hs hsne
      grind
    obtain ⟨t, ht, hcovers', hnot⟩ := h.covered r hr p.key hcovers
    exact absurd hcovers' (halone t ht (hnot hrne))

end Exact

theorem mergedExactly_iff {spans : List RawSpan} (hvalid : ∀ s ∈ spans, s.Valid)
    (hperm : l.Perm spans) (hsorted : l.Pairwise fun a b => a.key ≤ b.key) :
    MergedExactly spans (mergeSorted l) ↔ ¬ LosesPoint spans := by
  have hvalid' : ∀ s ∈ l, s.Valid := fun s hs => hvalid s (hperm.mem_iff.mp hs)
  have hloses : LosesPoint spans ↔ LosesPoint l := by
    simp only [LosesPoint, hperm.mem_iff]
  have hdistinct := (hperm.pairwise_iff fun {a b} (hab : Distinct a b) k hk => hab k hk.symm).symm
  have hcovers : ∀ k, (∃ s ∈ spans, s.Covers k) ↔ ∃ s ∈ l, s.Covers k := by
    simp only [hperm.mem_iff, implies_true]
  cases l with
  | nil =>
    have hspans : spans = [] := nil_perm.mp hperm
    subst hspans
    exact iff_of_true ⟨.nil, .nil, by simp [mergeSorted], by simp [mergeSorted]⟩
      fun hloses => by simpa using hloses.imp fun _ hp => hp.1
  | cons s l =>
    have hs := hvalid' s mem_cons_self
    have hl : ∀ t ∈ l, t.Valid := fun t ht => hvalid' t (mem_cons_of_mem _ ht)
    obtain ⟨hhull, hpair, -⟩ := mergeLoop_hull (d := true) (.singleton hs) hl hsorted
    obtain ⟨hflag, hset⟩ := mergeLoop_distinct (d := true) hs hl hsorted
    rw [mergeSorted]
    rw [hloses]
    constructor
    · intro hexact hlost
      obtain ⟨k, hk, hno⟩ := not_covered_of_losesPoint hhull hpair hvalid' hlost
      obtain ⟨r, hr, hrk⟩ := (hexact.covers k).mpr ((hcovers k).mpr hk)
      exact hno r hr hrk
    · intro hno
      have hnodrop : ∀ p ∈ s :: l, p.IsEmptyPoint → ∀ r ∈ (mergeLoop s true l).1, r.stop ≠ [] →
          p.key ≠ r.stop := fun p hp hempty r hr hne hkey =>
        hno (losesPoint_of_stop hhull hpair hvalid' hp hempty hr hne hkey)
      have hlt : ∀ r ∈ (mergeLoop s true l).1, r.key < r.hi := fun r hr => (hhull.valid r hr).lt_hi
      refine ⟨hpair.imp_of_mem fun ha _ hab => (hlt _ ha).trans_le hab.1, ?_, ?_, ?_⟩
      · rw [pairwise_distinct_iff hhull.valid
          (hpair.imp_of_mem fun ha _ hab => ((hlt _ ha).trans_le hab.1).le)]
        exact hpair.imp And.left
      · intro k
        rw [hcovers]
        constructor
        · rintro ⟨r, hr, hk⟩
          obtain ⟨t, ht, htk, -⟩ := hhull.covered r hr k hk
          exact ⟨t, ht, htk⟩
        · rintro ⟨t, ht, hk⟩
          rcases hhull.within t ht with ⟨r, hr, hkey, hhi, -⟩ | ⟨hempty, r, hr, hne, hkey⟩
          · rw [covers_iff] at hk
            exact ⟨r, hr, covers_iff.mpr ⟨hkey.trans hk.1, hk.2.trans_le hhi⟩⟩
          · exact absurd hkey (hnodrop t ht hempty r hr hne)
      · rw [hdistinct, pairwise_distinct_iff hvalid' hsorted]
        refine ⟨fun hd => (hflag hd).2, fun hd => (hset rfl hd).resolve_right ?_⟩
        rintro ⟨p, hp, hempty, r, hr, hne, hkey⟩
        exact hnodrop p (mem_cons_of_mem _ hp) hempty r hr hne hkey

end RawSpan

end Cockroach.Roachpb
