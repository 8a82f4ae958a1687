import Cockroach.Keys.Addr
import Cockroach.Library.Splits
import Cockroach.Roachpb.Transaction

/-! The truncation of a batch to a range, and what the pieces for all ranges add up to. -/
namespace Cockroach.KvCoord
open ByteOrder Keys Roachpb List

/-- A range of addresses. -/
structure RSpan where
  key : Bytes
  endKey : Bytes
deriving DecidableEq

def RSpan.containsKey (rs : RSpan) (key : Bytes) : Bool := rs.key ≤ key ∧ key < rs.endKey

/-- A request with the span of its header and the rest of its data. -/
structure Request (ρ : Type) where
  isRange : Bool
  span : Span
  rest : ρ

inductive TruncateError where
  | endKeyIsSet
  | addr (e : AddrError)
  | localMixedWithGlobal
deriving DecidableEq

variable {ρ : Type}

def keyAddr (k : Bytes) : Except TruncateError Bytes := (addr k).mapError .addr

/-- The part of a request that lies in a range, if there is one. -/
def truncateOne (rs : RSpan) (args : Request ρ) : Except TruncateError (Option Span) :=
  let header := args.span
  if args.isRange = false then
    if header.endKey.length > 0 then .error .endKeyIsSet
    else do
      let keyAddr ← keyAddr header.key
      return if rs.containsKey keyAddr then some header else none
  else do
    let startAddr ← keyAddr header.key
    let endKeyAddr ← keyAddr header.endKey
    let l := isLocal header.key
    let r := isLocal header.endKey
    if (l || r) && (!l || !r) then .error .localMixedWithGlobal
    else
      let key :=
        if startAddr < rs.key then if l || r then makeRangeKeyPrefix rs.key else rs.key
        else header.key
      let endKey :=
        if ¬ endKeyAddr < rs.endKey then if l || r then makeRangeKeyPrefix rs.endKey else rs.endKey
        else header.endKey
      return if endKey ≤ key then none else some ⟨key, endKey⟩

/-- The requests from a position on that have a part in the range, with their positions. -/
def truncateFrom (rs : RSpan) :
    ℕ → List (Request ρ) → Except TruncateError (List (Request ρ) × List ℕ)
  | _, [] => .ok ([], [])
  | pos, arg :: reqs => do
    match ← truncateOne rs arg with
    | none => truncateFrom rs (pos + 1) reqs
    | some newSpan =>
      let (truncReqs, positions) ← truncateFrom rs (pos + 1) reqs
      let arg := if newSpan = arg.span then arg else { arg with span := newSpan }
      return (arg :: truncReqs, pos :: positions)

def truncate (reqs : List (Request ρ)) (rs : RSpan) :
    Except TruncateError (List (Request ρ) × List ℕ) := truncateFrom rs 0 reqs

/-- The key is one of those that the request is for. -/
def Request.HasKey (r : Request ρ) (k : Bytes) : Prop :=
  if r.isRange then r.span.key ≤ k ∧ k < r.span.endKey else k = r.span.key

/-- A global key, or a range-local key that wraps a global key once. -/
def WrapsOnce (k : Bytes) : Prop :=
  isLocal k = false ∨ ∃ g s, isLocal g = false ∧ k = makeRangeKeyPrefix g ++ s

structure Request.KeysWrapOnce (r : Request ρ) : Prop where
  key : WrapsOnce r.span.key
  endKey : r.isRange = true → WrapsOnce r.span.endKey

/-- A point request with an end key, or a range from a local to a global key or the other way. -/
def Request.Malformed (r : Request ρ) : Prop :=
  if r.isRange then isLocal r.span.key ≠ isLocal r.span.endKey else r.span.endKey ≠ []

/-- The place of an address among the keys that are local, or among those that are not. -/
def place (isLocal : Bool) (a : Bytes) : Bytes := if isLocal then makeRangeKeyPrefix a else a

theorem strictMono_place (b : Bool) : StrictMono (place b) := by
  cases b
  · exact strictMono_id
  · exact strictMono_makeRangeKeyPrefix

variable {k : Bytes}

theorem WrapsOnce.addr (h : WrapsOnce k) :
    ∃ a, addr k = .ok a ∧ ∀ b, place (isLocal k) b ≤ k ↔ b ≤ a := by
  rcases h with h | ⟨g, s, hg, rfl⟩
  · refine ⟨k, addr_of_global h, fun b => ?_⟩
    rw [h]
    rfl
  · exact ⟨g, addr_makeRangeKeyPrefix hg s, fun b => makeRangeKeyPrefix_le_iff b g s⟩

theorem WrapsOnce.keyAddr (h : WrapsOnce k) :
    ∃ a, keyAddr k = .ok a ∧ ∀ b, place (isLocal k) b ≤ k ↔ b ≤ a := by
  obtain ⟨a, ha, hplace⟩ := h.addr
  exact ⟨a, by rw [KvCoord.keyAddr, ha]; rfl, hplace⟩

/-- The key lies in the range, by the place that it has among the local or the global keys. -/
def InPlace (rs : RSpan) (isLocal : Bool) (k : Bytes) : Prop :=
  place isLocal rs.key ≤ k ∧ k < place isLocal rs.endKey

/-- The part of a request is what lies in the range; none is returned if nothing does. -/
def IsPart (rs : RSpan) (r : Request ρ) : Option Span → Prop
  | none => ∀ k, ¬ (r.HasKey k ∧ InPlace rs (isLocal r.span.key) k)
  | some span => (∃ k, ({ r with span } : Request ρ).HasKey k) ∧
      ∀ k, ({ r with span } : Request ρ).HasKey k ↔
        r.HasKey k ∧ InPlace rs (isLocal r.span.key) k

variable {rs : RSpan} {r : Request ρ} {a : Bytes}

theorem truncateOne_point (hr : r.isRange = false) (hend : r.span.endKey = [])
    (ha : keyAddr r.span.key = .ok a) :
    truncateOne rs r = .ok (if rs.containsKey a then some r.span else none) := by
  unfold truncateOne
  rw [if_pos hr, hend, ha]
  rfl

variable {span : Span}

theorem truncateOne_point_span (hr : r.isRange = false) (h : truncateOne rs r = .ok (some span)) :
    span = r.span := by
  unfold truncateOne at h
  rw [if_pos hr] at h
  split_ifs at h
  cases ha : keyAddr r.span.key with
  | error e =>
    rw [ha] at h
    cases h
  | ok a =>
    rw [ha] at h
    have heq : (if rs.containsKey a then some r.span else none) = some span := Except.ok.inj h
    split_ifs at heq
    exact (Option.some.inj heq).symm

variable {l : Bool}

theorem cut_start (hplace : ∀ b, place l b ≤ k ↔ b ≤ a) (c : Bytes) :
    (if a < c then if l then makeRangeKeyPrefix c else c else k) = max k (place l c) := by
  by_cases hlt : a < c
  · have hk : k < place l c := lt_of_not_ge fun hle => hlt.not_ge ((hplace c).mp hle)
    rw [if_pos hlt, max_eq_right hk.le, place]
  · rw [if_neg hlt, max_eq_left ((hplace c).mpr (not_lt.mp hlt))]

theorem cut_end (hplace : ∀ b, place l b ≤ k ↔ b ≤ a) (c : Bytes) :
    (if ¬ a < c then if l then makeRangeKeyPrefix c else c else k) = min k (place l c) := by
  by_cases hlt : a < c
  · have hk : k < place l c := lt_of_not_ge fun hle => hlt.not_ge ((hplace c).mp hle)
    rw [if_neg (not_not.mpr hlt), min_eq_left hk.le]
  · rw [if_pos hlt, min_eq_right ((hplace c).mpr (not_lt.mp hlt)), place]

theorem truncateOne_range (hr : r.isRange = true) (hkeys : r.KeysWrapOnce)
    (hsame : isLocal r.span.key = isLocal r.span.endKey) : truncateOne rs r =
      .ok (if min r.span.endKey (place (isLocal r.span.key) rs.endKey) ≤
          max r.span.key (place (isLocal r.span.key) rs.key) then none
        else some ⟨max r.span.key (place (isLocal r.span.key) rs.key),
          min r.span.endKey (place (isLocal r.span.key) rs.endKey)⟩) := by
  obtain ⟨a, ha, hplace⟩ := hkeys.key.keyAddr
  obtain ⟨b, hb, hplace'⟩ := (hkeys.endKey hr).keyAddr
  have hmixed : ((isLocal r.span.key || isLocal r.span.endKey) &&
      (!isLocal r.span.key || !isLocal r.span.endKey)) = false := by
    rw [← hsame]
    cases isLocal r.span.key <;> rfl
  rw [← hsame] at hplace'
  unfold truncateOne
  rw [if_neg (by rw [hr]; decide), ha, hb]
  refine (if_neg (by rw [hmixed]; decide)).trans ?_
  rw [← hsame, Bool.or_self, cut_start hplace rs.key, cut_end hplace' rs.endKey]
  rfl

theorem truncateOne_malformed (hkeys : r.KeysWrapOnce) (h : r.Malformed) :
    ∃ e, truncateOne rs r = .error e := by
  unfold truncateOne
  unfold Request.Malformed at h
  cases hr : r.isRange with
  | false =>
    simp only [hr, Bool.false_eq_true, if_false] at h
    exact ⟨.endKeyIsSet, by simp [length_pos_iff.mpr h]⟩
  | true =>
    obtain ⟨a, ha, -⟩ := hkeys.key.keyAddr
    obtain ⟨b, hb, -⟩ := (hkeys.endKey hr).keyAddr
    have hmixed : ((isLocal r.span.key || isLocal r.span.endKey) &&
        (!isLocal r.span.key || !isLocal r.span.endKey)) = true := by
      cases hl : isLocal r.span.key <;> cases hr : isLocal r.span.endKey
      all_goals simp_all
    refine ⟨.localMixedWithGlobal, ?_⟩
    rw [if_neg (by decide), ha, hb]
    exact if_pos hmixed

theorem truncateOne_isPart (hkeys : r.KeysWrapOnce) (h : ¬ r.Malformed) :
    ∃ o, truncateOne rs r = .ok o ∧ IsPart rs r o := by
  unfold Request.Malformed at h
  cases hr : r.isRange with
  | false =>
    simp only [hr, Bool.false_eq_true, if_false, not_not] at h
    obtain ⟨a, ha, hplace⟩ := hkeys.key.keyAddr
    refine ⟨_, truncateOne_point hr h ha, ?_⟩
    have hmem : rs.containsKey a = true ↔ InPlace rs (isLocal r.span.key) r.span.key := by
      unfold RSpan.containsKey InPlace
      rw [decide_eq_true_eq, hplace, lt_iff_not_ge, lt_iff_not_ge, hplace]
    have hpoint : ∀ k, r.HasKey k ↔ k = r.span.key := by
      simp [Request.HasKey, hr]
    split_ifs with hin
    · refine ⟨⟨r.span.key, (hpoint _).mpr rfl⟩, fun k => ?_⟩
      rw [hpoint]
      refine ⟨fun hk => ⟨hk, ?_⟩, And.left⟩
      rw [hk]
      exact hmem.mp hin
    · rintro k ⟨hk, hplace⟩
      rw [(hpoint k).mp hk] at hplace
      exact hin (hmem.mpr hplace)
  | true =>
    simp only [hr, if_true, ne_eq, not_not] at h
    refine ⟨_, truncateOne_range hr hkeys h, ?_⟩
    have hrange : ∀ (span : Span) k, ({ r with span } : Request ρ).HasKey k ↔
        span.key ≤ k ∧ k < span.endKey := by
      simp [Request.HasKey, hr]
    have hpart : ∀ k, (max r.span.key (place (isLocal r.span.key) rs.key) ≤ k ∧
        k < min r.span.endKey (place (isLocal r.span.key) rs.endKey)) ↔
          r.HasKey k ∧ InPlace rs (isLocal r.span.key) k := by
      intro k
      rw [hrange r.span, InPlace, max_le_iff, lt_min_iff]
      tauto
    split_ifs with hle
    · intro k hk
      have hk' := (hpart k).mpr hk
      exact absurd (hk'.1.trans_lt hk'.2) hle.not_gt
    · refine ⟨⟨_, (hrange _ _).mpr ⟨le_rfl, not_le.mp hle⟩⟩, fun k => ?_⟩
      rw [hrange, hpart]

/-- The parts of the requests from a position on, each with the position of its request. -/
def parts (rs : RSpan) : ℕ → List (Request ρ) → List (Request ρ × ℕ)
  | _, [] => []
  | pos, r :: reqs =>
    match truncateOne rs r with
    | .ok (some span) => ({ r with span }, pos) :: parts rs (pos + 1) reqs
    | _ => parts rs (pos + 1) reqs

variable {reqs : List (Request ρ)}

theorem truncateFrom_eq (h : ∀ r ∈ reqs, ∃ o, truncateOne rs r = .ok o) (pos : ℕ) :
    truncateFrom rs pos reqs =
      .ok ((parts rs pos reqs).map Prod.fst, (parts rs pos reqs).map Prod.snd) := by
  induction reqs generalizing pos with
  | nil => rfl
  | cons r reqs ih =>
    obtain ⟨⟨o, ho⟩, hrest⟩ := forall_mem_cons.mp h
    rw [truncateFrom, parts, ho]
    cases o with
    | none => exact ih hrest (pos + 1)
    | some span =>
      have hspan : (if span = r.span then r else { r with span }) = { r with span } := by
        split_ifs with heq
        · rw [heq]
        · rfl
      change (do
        let (truncReqs, positions) ← truncateFrom rs (pos + 1) reqs
        let arg := if span = r.span then r else { r with span := span }
        return (arg :: truncReqs, pos :: positions)) = _
      rw [ih hrest (pos + 1), hspan]
      rfl

theorem truncateFrom_malformed (hkeys : ∀ r ∈ reqs, r.KeysWrapOnce) (h : ∃ r ∈ reqs, r.Malformed)
    (pos : ℕ) : ∃ e, truncateFrom rs pos reqs = .error e := by
  induction reqs generalizing pos with
  | nil => simp at h
  | cons r reqs ih =>
    obtain ⟨hr, hrest⟩ := forall_mem_cons.mp hkeys
    rw [truncateFrom]
    by_cases hmal : r.Malformed
    · obtain ⟨e, he⟩ := @truncateOne_malformed ρ rs r hr hmal
      exact ⟨e, by rw [he]; rfl⟩
    · obtain ⟨o, ho, -⟩ := @truncateOne_isPart ρ rs r hr hmal
      obtain ⟨q, hq, hqmal⟩ := h
      have hmem : q ∈ reqs := by
        rcases mem_cons.mp hq with rfl | hq
        · exact absurd hqmal hmal
        · exact hq
      obtain ⟨e, he⟩ := ih hrest ⟨q, hmem, hqmal⟩ (pos + 1)
      refine ⟨e, ?_⟩
      rw [ho]
      cases o with
      | none => exact he
      | some span =>
        rw [he]
        rfl

/-- The part of a request at its position. -/
def partAt (rs : RSpan) (r : Request ρ) (pos : ℕ) : Option (Request ρ × ℕ) :=
  match truncateOne rs r with
  | .ok (some span) => some ({ r with span }, pos)
  | _ => none

theorem parts_eq (rs : RSpan) (pos : ℕ) (reqs : List (Request ρ)) :
    parts rs pos reqs = (reqs.zipIdx pos).filterMap fun p => partAt rs p.1 p.2 := by
  induction reqs generalizing pos with
  | nil => rfl
  | cons r reqs ih =>
    rw [parts, zipIdx_cons, filterMap_cons, ih, partAt]
    rcases truncateOne rs r with e | _ | span <;> rfl

theorem mem_parts {p : Request ρ × ℕ} :
    p ∈ parts rs 0 reqs ↔ ∃ r span, reqs[p.2]? = some r ∧ truncateOne rs r = .ok (some span) ∧
      p.1 = { r with span } := by
  rw [parts_eq, mem_filterMap]
  constructor
  · rintro ⟨⟨r, pos⟩, hmem, hpart⟩
    unfold partAt at hpart
    split at hpart
    · rename_i span hone
      cases hpart
      exact ⟨r, span, mk_mem_zipIdx_iff_getElem?.mp hmem, hone, rfl⟩
    · cases hpart
  · rintro ⟨r, span, hr, hone, hp⟩
    refine ⟨(r, p.2), mk_mem_zipIdx_iff_getElem?.mpr hr, ?_⟩
    rw [partAt, hone]
    dsimp only
    rw [← hp]

theorem pairwise_parts (rs : RSpan) (pos : ℕ) (reqs : List (Request ρ)) :
    (∀ p ∈ parts rs pos reqs, pos ≤ p.2) ∧ (parts rs pos reqs).Pairwise fun p q => p.2 < q.2 := by
  induction reqs generalizing pos with
  | nil => exact ⟨by simp [parts], List.Pairwise.nil⟩
  | cons r reqs ih =>
    obtain ⟨hle, hlt⟩ := ih (pos + 1)
    rw [parts]
    split
    · refine ⟨forall_mem_cons.mpr ⟨le_rfl, fun p hp => ?_⟩,
        pairwise_cons.mpr ⟨fun p hp => ?_, hlt⟩⟩
      · have hpos := hle p hp
        omega
      · have hpos := hle p hp
        omega
    · exact ⟨fun p hp => (Nat.le_succ pos).trans (hle p hp), hlt⟩

def keyMin : Bytes := []

def keyMax : Bytes := [0xff, 0xff]

/-- A partition of the addresses into consecutive ranges. -/
structure Partition where
  splits : List Bytes
  sorted : (keyMin :: (splits ++ [keyMax])).Pairwise (· < ·)

def Partition.ranges (P : Partition) : List RSpan :=
  (Splits.consecutive (keyMin :: (P.splits ++ [keyMax]))).map fun r => ⟨r.1, r.2⟩

theorem Partition.existsUnique_range (P : Partition) (l : Bool) (hmin : place l keyMin ≤ k)
    (hmax : k < place l keyMax) : ∃! rs, rs ∈ P.ranges ∧ InPlace rs l k := by
  have hlast : k < place l ((keyMin :: (P.splits ++ [keyMax])).getLast (by simp)) := by
    simpa using hmax
  obtain ⟨r, hr, hin⟩ := Splits.exists_mem_consecutive hmin hlast
  refine ⟨⟨r.1, r.2⟩, ⟨mem_map_of_mem hr, hin⟩, ?_⟩
  rintro _ ⟨hmem, hin'⟩
  obtain ⟨r', hr', rfl⟩ := mem_map.mp hmem
  rw [Splits.eq_of_mem_consecutive (strictMono_place l) P.sorted hr' hr hin' hin]

theorem Partition.lt_keyMax (P : Partition) (hrs : rs ∈ P.ranges) (hk : InPlace rs l k) :
    k < place l keyMax := by
  obtain ⟨r, hr, rfl⟩ := mem_map.mp hrs
  have hle : r.2 ≤ keyMax := by
    simpa using Splits.le_getLast_of_mem_consecutive P.sorted hr
  exact hk.2.trans_le ((strictMono_place l).monotone hle)

/-- The pieces that are returned for a range, each with the position of its request. -/
def pieces (reqs : List (Request ρ)) (rs : RSpan) : List (Request ρ × ℕ) :=
  match truncate reqs rs with
  | .ok (truncReqs, positions) => truncReqs.zip positions
  | .error _ => []

/-- The pieces for all ranges of a partition make up the requests. -/
structure PartitionedBy (P : Partition) (reqs : List (Request ρ)) : Prop where
  returns : ∀ rs ∈ P.ranges, ∃ truncReqs positions, truncate reqs rs = .ok (truncReqs, positions) ∧
    truncReqs.length = positions.length ∧ positions.Pairwise (· < ·)
  /-- A piece is not empty and all its keys have their addresses in the range; it is the request
  itself if it has all keys of it. -/
  piece : ∀ rs ∈ P.ranges, ∀ p ∈ pieces reqs rs, ∃ r, reqs[p.2]? = some r ∧
    p.1 = { r with span := p.1.span } ∧ (∃ k, p.1.HasKey k) ∧
    (∀ k, p.1.HasKey k → WrapsOnce k → isLocal k = isLocal r.span.key →
      ∃ a, addr k = .ok a ∧ rs.containsKey a = true) ∧
    ((∀ k, r.HasKey k → p.1.HasKey k) → p.1 = r)
  /-- Every addressable key of a request is in exactly one of its pieces, and no other key is. -/
  covers : ∀ pos r, reqs[pos]? = some r → ∀ k,
    (r.HasKey k ∧ k < place (isLocal r.span.key) keyMax ↔
      ∃! rs, rs ∈ P.ranges ∧ ∃ r', (r', pos) ∈ pieces reqs rs ∧ r'.HasKey k)

theorem Request.KeysWrapOnce.place_keyMin_le (h : r.KeysWrapOnce) (hk : r.HasKey k) :
    place (isLocal r.span.key) keyMin ≤ k := by
  obtain ⟨a, -, hplace⟩ := h.key.addr
  have hkey : place (isLocal r.span.key) keyMin ≤ r.span.key := (hplace _).mpr (nil_le a)
  unfold HasKey at hk
  split_ifs at hk
  · exact hkey.trans hk.1
  · rw [hk]
    exact hkey

theorem Request.eq_of_hasKey (hne : ∃ k, ({ r with span } : Request ρ).HasKey k)
    (h : ∀ k, ({ r with span } : Request ρ).HasKey k ↔ r.HasKey k) (hr : r.isRange = true) :
    { r with span } = r := by
  unfold HasKey at h hne
  simp only [hr, if_true] at h hne
  obtain ⟨k, hk⟩ := hne
  have hlt := hk.1.trans_lt hk.2
  have hk' := (h k).mp hk
  have hlt' := hk'.1.trans_lt hk'.2
  have hkey : span.key = r.span.key :=
    le_antisymm ((h _).mpr ⟨le_rfl, hlt'⟩).1 ((h _).mp ⟨le_rfl, hlt⟩).1
  have hend : span.endKey = r.span.endKey := by
    rcases lt_trichotomy span.endKey r.span.endKey with hcmp | hcmp | hcmp
    · exact absurd ((h span.endKey).mpr ⟨(hkey ▸ hlt).le, hcmp⟩).2 (lt_irrefl _)
    · exact hcmp
    · exact absurd ((h r.span.endKey).mp ⟨(hkey ▸ hlt').le, hcmp⟩).2 (lt_irrefl _)
  have hspan : span = r.span := by
    cases hs : span
    cases hr : r.span
    simp_all
  rw [hspan]

section Batch

variable {P : Partition} {reqs : List (Request ρ)}

theorem truncateOne_isOk (hkeys : ∀ r ∈ reqs, r.KeysWrapOnce) (hwell : ∀ r ∈ reqs, ¬ r.Malformed) :
    ∀ r ∈ reqs, ∃ o, truncateOne rs r = .ok o := by
  intro r hr
  obtain ⟨o, ho, -⟩ := truncateOne_isPart (hkeys r hr) (hwell r hr)
  exact ⟨o, ho⟩

theorem pieces_eq (hkeys : ∀ r ∈ reqs, r.KeysWrapOnce) (hwell : ∀ r ∈ reqs, ¬ r.Malformed) :
    pieces reqs rs = parts rs 0 reqs := by
  unfold pieces truncate
  rw [truncateFrom_eq (truncateOne_isOk hkeys hwell) 0]
  dsimp only
  rw [← unzip_fst, ← unzip_snd, zip_unzip]

theorem hasKey_piece_iff (hkeys : ∀ r ∈ reqs, r.KeysWrapOnce) (hwell : ∀ r ∈ reqs, ¬ r.Malformed)
    {pos : ℕ} (hr : reqs[pos]? = some r) : (∃ r', (r', pos) ∈ pieces reqs rs ∧ r'.HasKey k) ↔
      r.HasKey k ∧ InPlace rs (isLocal r.span.key) k := by
  have hmem := mem_of_getElem? hr
  obtain ⟨o, ho, hpart⟩ := @truncateOne_isPart ρ rs r (hkeys r hmem) (hwell r hmem)
  rw [pieces_eq hkeys hwell]
  constructor
  · rintro ⟨r', hr', hk⟩
    obtain ⟨q, span, hq, hone, hr'eq⟩ := mem_parts.mp hr'
    obtain rfl := Option.some.inj (hr.symm.trans hq)
    obtain rfl := Except.ok.inj (ho.symm.trans hone)
    exact (hpart.2 k).mp (hr'eq ▸ hk)
  · intro hk
    cases o with
    | none => exact absurd hk (hpart k)
    | some span => exact ⟨_, mem_parts.mpr ⟨r, span, hr, ho, rfl⟩, (hpart.2 k).mpr hk⟩

theorem partitionedBy_of_wellFormed (hkeys : ∀ r ∈ reqs, r.KeysWrapOnce)
    (hwell : ∀ r ∈ reqs, ¬ r.Malformed) : PartitionedBy P reqs where
  returns rs _ := by
    refine ⟨_, _, truncateFrom_eq (truncateOne_isOk hkeys hwell) 0, by simp, ?_⟩
    exact pairwise_map.mpr (pairwise_parts rs 0 reqs).2
  piece rs _ p hp := by
    rw [pieces_eq hkeys hwell] at hp
    obtain ⟨r, span, hr, hone, hpeq⟩ := mem_parts.mp hp
    have hmem := mem_of_getElem? hr
    obtain ⟨o, ho, hpart⟩ := @truncateOne_isPart ρ rs r (hkeys r hmem) (hwell r hmem)
    obtain rfl := Except.ok.inj (ho.symm.trans hone)
    refine ⟨r, hr, by rw [hpeq], hpeq ▸ hpart.1, fun k hk hwrap hlocal => ?_, fun hall => ?_⟩
    · rw [hpeq] at hk
      obtain ⟨a, ha, hplace⟩ := hwrap.addr
      have hin := ((hpart.2 k).mp hk).2
      rw [← hlocal] at hin
      refine ⟨a, ha, ?_⟩
      unfold RSpan.containsKey
      rw [decide_eq_true_eq]
      exact ⟨(hplace _).mp hin.1, lt_of_not_ge fun hle => hin.2.not_ge ((hplace _).mpr hle)⟩
    · rw [hpeq] at hall ⊢
      by_cases hrange : r.isRange = true
      · have hsame := fun k => Iff.intro (fun hk => ((hpart.2 k).mp hk).1) (hall k)
        exact Request.eq_of_hasKey hpart.1 hsame hrange
      · rw [truncateOne_point_span (Bool.not_eq_true _ ▸ hrange) hone]
  covers pos r hr k := by
    have hmem := mem_of_getElem? hr
    have hiff : ∀ rs, (rs ∈ P.ranges ∧ ∃ r', (r', pos) ∈ pieces reqs rs ∧ r'.HasKey k) ↔
        r.HasKey k ∧ rs ∈ P.ranges ∧ InPlace rs (isLocal r.span.key) k := by
      intro rs
      rw [hasKey_piece_iff hkeys hwell hr]
      tauto
    simp only [hiff]
    constructor
    · rintro ⟨hk, hmax⟩
      obtain ⟨rs, hrs, huniq⟩ := P.existsUnique_range (isLocal r.span.key)
        ((hkeys r hmem).place_keyMin_le hk) hmax
      exact ⟨rs, ⟨hk, hrs⟩, fun rs' h => huniq rs' h.2⟩
    · rintro ⟨rs, ⟨hk, hrs, hin⟩, -⟩
      exact ⟨hk, P.lt_keyMax hrs hin⟩

/-- Over a partition of the addresses, the pieces of a batch make up its requests; a batch with a
malformed request is rejected for every range. -/
theorem truncate_partition (P : Partition) (reqs : List (Request ρ))
    (hkeys : ∀ r ∈ reqs, r.KeysWrapOnce) :
    ((∃ r ∈ reqs, r.Malformed) → ∀ rs ∈ P.ranges, ∃ e, truncate reqs rs = .error e) ∧
      ((∀ r ∈ reqs, ¬ r.Malformed) → PartitionedBy P reqs) :=
  ⟨fun hmal _ _ => truncateFrom_malformed hkeys hmal 0, partitionedBy_of_wellFormed hkeys⟩

def samplePartition : Partition := ⟨[[0x62]], by decide⟩

/-- The range-local keys from `a` up to the second key of `b`, and the global key `c`. -/
def sampleBatch : List (Request Unit) :=
  [⟨true, ⟨makeRangeKeyPrefix [0x61], makeRangeKeyPrefix [0x62] ++ [1]⟩, ()⟩,
    ⟨false, ⟨[0x63], []⟩, ()⟩]

theorem truncate_partition_sampleBatch : PartitionedBy samplePartition sampleBatch := by
  refine (truncate_partition samplePartition sampleBatch ?_).2 ?_
  · refine forall_mem_cons.mpr ⟨⟨?_, fun _ => ?_⟩, forall_mem_cons.mpr ⟨⟨?_, ?_⟩, by simp⟩⟩
    · exact .inr ⟨[0x61], [], rfl, by rw [append_nil]⟩
    · exact .inr ⟨[0x62], [1], rfl, rfl⟩
    · exact .inl rfl
    · simp
  · refine forall_mem_cons.mpr ⟨?_, forall_mem_cons.mpr ⟨?_, by simp⟩⟩
    · exact fun h => h rfl
    · exact fun h => h rfl

end Batch

end Cockroach.KvCoord
