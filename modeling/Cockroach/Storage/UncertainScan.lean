import Cockroach.Storage.Uncertainty

/-! Scans with an uncertainty interval over everything that a range can store. -/
namespace Cockroach.Storage
open ByteOrder Hlc Scanner List Option
open StoredKey (block readAt versioned)

/-- The keys of a range. -/
structure Contents where
  keys : List StoredKey
  sorted : Block.Sorted block keys
  ticks_pos : ∀ k ∈ keys, ∀ b, k = .versioned b → ∀ v ∈ b.versions, 0 < v.1.1.ticks

/-- What is scanned, in which direction and up to which limits. -/
structure Extent where
  reverse : Bool
  start : Bytes
  stop : Bytes
  maxKeys : ℕ
  targetBytes : ℕ
  targetBytesAvoidExcess : Bool
  allowEmpty : Bool
  maxIntents : ℕ

namespace ScanOptions

def inExtent (o : ScanOptions) (x : Extent) : ScanOptions :=
  { o with
    reverse := x.reverse, start := x.start, stop := x.stop, maxKeys := x.maxKeys
    targetBytes := x.targetBytes, targetBytesAvoidExcess := x.targetBytesAvoidExcess
    allowEmpty := x.allowEmpty, maxIntents := x.maxIntents }

/-- The same scan without a check for uncertainty. -/
def withoutUncertainty (o : ScanOptions) : ScanOptions :=
  { o with uncertainty := ⟨.empty, .empty⟩ }

end ScanOptions

namespace Contents

def span (c : Contents) (start stop : Bytes) : List StoredKey :=
  c.keys.filter fun k =>
    bytesCompare k.block.key start ≠ .lt ∧ bytesCompare k.block.key stop = .lt

def entries (c : Contents) (x : Extent) : List Entry :=
  Block.recordsOf block (c.span x.start x.stop)

def order (c : Contents) (x : Extent) : List StoredKey :=
  if x.reverse then (c.span x.start x.stop).reverse else c.span x.start x.stop

variable {c : Contents} {k : StoredKey}

theorem mem_span {start stop : Bytes} : k ∈ c.span start stop ↔
    k ∈ c.keys ∧ bytesCompare k.block.key start ≠ .lt ∧ bytesCompare k.block.key stop = .lt := by
  simp [span]

theorem sorted_span (start stop : Bytes) : Block.Sorted block (c.span start stop) :=
  c.sorted.filter _

theorem inSpan (o : ScanOptions) : InSpan o (Block.recordsOf block (c.span o.start o.stop)) := by
  constructor
  · intro e he
    obtain ⟨k, hk, hek⟩ := Block.mem_recordsOf.mp he
    rw [← Bool.not_eq_true, Entry.before_empty, k.block.key_eq e hek]
    exact (mem_span.mp hk).2.1
  · intro _ e he
    obtain ⟨k, hk, hek⟩ := Block.mem_recordsOf.mp he
    rw [Entry.before_empty, k.block.key_eq e hek]
    exact (mem_span.mp hk).2.2

theorem span_single (hk : k ∈ c.keys) : c.span k.block.key (k.block.key ++ [0]) = [k] :=
  filter_key_single c.sorted hk

end Contents

/-- A scan that fails exactly if it reaches an uncertain key, and that otherwise reports what it
does without the check. -/
def ChecksUncertainty (o : ScanOptions) (c : Contents) (x : Extent) (fuel : ℕ) (s₀ : Scanner) :
    Prop :=
  ∃ s, scan (o.inExtent x) fuel s₀ = some s ∧
    (FailsUncertain s.output ↔
      ∃ k ∈ reached (o.inExtent x) (readAt o.ts) (c.order x) s₀.output, k.Uncertain o) ∧
    ((∀ k ∈ reached (o.inExtent x) (readAt o.ts) (c.order x) s₀.output, ¬ k.Uncertain o) →
      ∃ s', scan (o.inExtent x).withoutUncertainty fuel s₀ = some s' ∧ s.output = s'.output)

/-- The key can be scanned as it should from every count of steps. -/
def StoredKey.Checkable (o : ScanOptions) (k : StoredKey) : Prop :=
  ¬ k.MissesUncertain o ∧ (k.Uncertain o ∨ ¬ k.MissesVersion o)

section Sound

variable {o : ScanOptions} {c : Contents} {x : Extent}

theorem error?_readAt (ts : Timestamp) (k : StoredKey) : (k.readAt ts).error? = none := by
  cases k with
  | inline key m h => rfl
  | versioned b =>
    unfold readAt
    dsimp only
    cases b.intent with
    | none => rfl
    | some i =>
      dsimp only
      split_ifs <;> rfl

theorem mem_of_mem_reached {read : StoredKey → KeyRead} {keys : List StoredKey} {out : Output}
    {k : StoredKey} (h : k ∈ reached o read keys out) : k ∈ keys := by
  induction keys generalizing out with
  | nil => cases h
  | cons k' keys ih =>
    rcases mem_cons.mp h with rfl | h
    · exact mem_cons_self
    · split_ifs at h
      · exact mem_cons_of_mem k' (ih h)
      · cases h

theorem reached_withoutUncertainty (read : StoredKey → KeyRead) (keys : List StoredKey)
    (out : Output) : reached o.withoutUncertainty read keys out = reached o read keys out := by
  induction keys generalizing out with
  | nil => rfl
  | cons k keys ih =>
    rw [reached, ih]
    rfl

theorem runOutput_withoutUncertainty (read : StoredKey → KeyRead) (keys : List StoredKey)
    (out : Output) : runOutput o.withoutUncertainty read keys out = runOutput o read keys out := by
  induction keys generalizing out with
  | nil => rfl
  | cons k keys ih =>
    rw [runOutput, ih]
    rfl

theorem Scanner.Consistent.inExtent (ho : Consistent o) (x : Extent) : Consistent (o.inExtent x) :=
  ⟨ho.inconsistent_eq, ho.failOnMoreRecent_eq, ho.isGet_eq⟩

theorem Scanner.Consistent.withoutUncertainty (ho : Consistent o) :
    Consistent o.withoutUncertainty :=
  ⟨ho.inconsistent_eq, ho.failOnMoreRecent_eq, ho.isGet_eq⟩

theorem checkUncertainty_without (o : ScanOptions) :
    o.withoutUncertainty.checkUncertainty = false := by
  refine decide_eq_false ?_
  change ¬ o.ts.Less .empty
  rw [Timestamp.less_iff, Timestamp.ticks_empty]
  omega

/-- Over keys that can be checked every scan does as it should. -/
theorem checksUncertainty_of_checkable (ho : Consistent o) (hi : ProperInterval o)
    (hown : ∀ k ∈ c.span x.start x.stop, NoOwnIntent o k)
    (hgood : ∀ k ∈ c.span x.start x.stop, k.Checkable o) {iters : ℕ} (hpos : 1 ≤ iters)
    (hle : iters ≤ maxItersBeforeSeek) {fuel : ℕ} (hfuel : (c.span x.start x.stop).length ≤ fuel) :
    ChecksUncertainty o c x fuel (init (c.entries x) iters hpos hle) := by
  have hmem : ∀ k ∈ reached (o.inExtent x) (readAt o.ts) (c.order x)
      (init (c.entries x) iters hpos hle).output, k ∈ c.span x.start x.stop := by
    intro k hk
    have hk' := mem_of_mem_reached hk
    unfold Contents.order at hk'
    split_ifs at hk'
    · exact mem_reverse.mp hk'
    · exact hk'
  have hsorted := c.sorted_span x.start x.stop
  have hspan := c.inSpan (o.inExtent x)
  have hreads : ∀ k ∈ reached (o.inExtent x) (readAt o.ts) (c.order x)
      (init (c.entries x) iters hpos hle).output, ReadsKey (o.inExtent x) (StoredKey.Uncertain o)
        (readAt o.ts) (c.span x.start x.stop) k := by
    intro k hk
    exact readsKey_uncertain (ho.inExtent x) ⟨hi.ts_lt, hi.local_le⟩ hsorted hspan
      (hown k (hmem k hk)) (hgood k (hmem k hk)).1
  obtain ⟨s, hscan, hends⟩ := scan_endsAs (o := o.inExtent x) (error?_readAt o.ts) hsorted hspan
    hpos hle hreads hfuel
  refine ⟨s, hscan, ⟨?_, hends.fails⟩, ?_⟩
  · rintro ⟨readTs, existingTs, localLimit, herr⟩
    by_contra hnone
    have hout := hends.output_eq fun k hk hunc => hnone ⟨k, hk, hunc⟩
    rw [hout, (runOutput_frame (error?_readAt o.ts) _ _).1] at herr
    cases herr
  · intro hnone
    have hspan' := c.inSpan (o.inExtent x).withoutUncertainty
    have hreads' : ∀ k ∈ reached (o.inExtent x).withoutUncertainty (readAt o.ts)
        (c.order x) (init (c.entries x) iters hpos hle).output,
          ReadsKey (o.inExtent x).withoutUncertainty (fun _ => False) (readAt o.ts)
            (c.span x.start x.stop) k := by
      intro k hk
      rw [reached_withoutUncertainty] at hk
      have hk' := hmem k hk
      exact readsKey_plain (ho.inExtent x).withoutUncertainty (checkUncertainty_without _) hsorted
        hspan' (c.ticks_pos _ (Contents.mem_span.mp hk').1) (hown k hk')
        ((hgood k hk').2.resolve_left (hnone k hk))
    obtain ⟨s', hscan', hends'⟩ := scan_endsAs (o := (o.inExtent x).withoutUncertainty)
      (error?_readAt o.ts) hsorted hspan' hpos hle hreads' hfuel
    refine ⟨s', hscan', ?_⟩
    rw [hends.output_eq hnone, hends'.output_eq fun _ _ => not_false, runOutput_withoutUncertainty]
    rfl

end Sound

def Extent.single (key : Bytes) : Extent := ⟨false, key, key ++ [0], 0, 0, false, false, 0⟩

section Single

variable {o : ScanOptions} {c : Contents} {k : StoredKey} {b : VersionedKey}

theorem scan_one (hforward : o.reverse = false) (hspan : InSpan o (Block.recordsOf block [k]))
    {intents : List (Bytes × MVCCMetadata)} {r : Option ScanResult}
    (happlies : ∀ s, Block.AtKey block o [k] s k [] → s.itersBeforeSeek = 1 →
      Applies block o [k] [] (s.getAndAdvance o) (s.output.read o (.read intents r)))
    {s₀ s : Scanner} (hs₀ : s₀ = init (Block.recordsOf block [k]) 1 le_rfl (by decide))
    (hscan : scan o 1 s₀ = some s) : s.output = (s₀.output.read o (.read intents r)).2 := by
  subst hs₀
  set s₀ := init (Block.recordsOf block [k]) 1 le_rfl (by decide)
  have hfirst := Block.advances_first (f := block) (o := o) (s := s₀)
    (pairwise_singleton _ k) hspan rfl rfl
  have hiters := itersBeforeSeek_iterSeek o ⟨o.start, .empty⟩ s₀
  unfold scan at hscan
  simp only [hforward, Bool.false_eq_true, if_false] at hfirst hscan
  set first := s₀.iterSeek o ⟨o.start, .empty⟩
  obtain ⟨hgo, hat, hout⟩ := hfirst
  have hread := happlies first.2 hat hiters
  rw [hout] at hread
  set step := first.2.getAndAdvance o with hstep
  have hend : step.1 = false ∧ step.2.output = (s₀.output.read o (.read intents r)).2 := by
    unfold Applies at hread
    split_ifs at hread
    · exact hread
    · exact hread
  have hloop : scanLoop o 1 first.2 = some step.2 := by
    rw [scanLoop, ← hstep, show step = (false, step.2) from Prod.ext hend.1 rfl]
  have hrecent : step.2.mostRecentTS.IsEmpty := by
    change step.2.output.mostRecentTS = _
    rw [hend.2, (Output.read_frame intents r s₀.output).2]
    rfl
  rw [show first = (true, first.2) from Prod.ext hgo rfl] at hscan
  dsimp only at hscan
  rw [hloop, map_some, maybeFailOnMoreRecent_eq hrecent] at hscan
  obtain rfl := some.inj hscan
  exact hend.2

theorem Scanner.Output.results_read (hmax : o.maxKeys = 0) (hbytes : o.targetBytes = 0)
    (r : Option ScanResult) (out : Output) :
    (out.read o (.read [] r)).2.results = out.results ++ (shown o.tombstones r).toList := by
  cases r with
  | none => simp [Output.read, shown]
  | some r =>
    have hlimit : out.limitReached o r = none := by
      unfold Output.limitReached
      rw [if_neg (by omega), if_neg (by omega)]
    change (out.add o r).2.results = _
    unfold Output.add
    rw [shown_some, hlimit]
    by_cases hshown : Shown o.tombstones r.value
    · rw [if_neg (not_not.mpr hshown), if_pos hshown]
      unfold Output.push
      rw [if_neg (by omega)]
      rfl
    · rw [if_pos hshown, if_neg hshown]
      simp

theorem second_le_newest {e : Entry} (he : b.records[1]? = some e) :
    e.timestamp.ticks ≤ b.newest.1.1.ticks := by
  have hmem : ∃ v ∈ b.versions, e = .version b.key v.1 v.2 := by
    unfold VersionedKey.records at he
    cases hb : b.intent with
    | some i =>
      rw [hb] at he
      exact ⟨b.newest, mem_cons_self, (some.inj he).symm⟩
    | none =>
      rw [hb] at he
      obtain ⟨v, hv, rfl⟩ := mem_map.mp (mem_of_getElem? he)
      exact ⟨v, hv, rfl⟩
  obtain ⟨v, hv, rfl⟩ := hmem
  exact VersionedKey.ticks_le_newest hv

theorem not_newest_le_of_missesVersion (hmiss : (versioned b).MissesVersion o) :
    ¬ b.newest.1.1.LessEq o.ts := by
  obtain ⟨⟨e, he, hsecond⟩, -⟩ := hmiss
  intro hle
  rw [Timestamp.lessEq_iff] at hle hsecond
  exact hsecond ((second_le_newest he).trans hle)

section Misses

variable (ho : Consistent o) (hspan : InSpan o (Block.recordsOf block [.versioned b]))
  (hown : NoOwnIntent o (.versioned b)) {s : Scanner}
  (hat : Block.AtKey block o [.versioned b] s (.versioned b) []) (hiters : s.itersBeforeSeek = 1)
include ho hspan hown hat hiters

theorem applies_of_missesUncertain (hi : ProperInterval o)
    (hmiss : (versioned b).MissesUncertain o) :
    Applies block o [.versioned b] [] (s.getAndAdvance o)
      (s.output.read o (.read [] ((b.versionAt o.ts).map b.result))) := by
  obtain ⟨pre, post, hbs, h, hat⟩ := reading_of_atKey ho (pairwise_singleton _ _) hspan hat
  obtain ⟨⟨e, he, hsecond⟩, ⟨v, hv, hunc⟩, hhidden⟩ := hmiss
  have hlt : ¬ b.newest.1.1.LessEq o.ts := fun hle =>
    VersionedKey.not_uncertainVersion hle v hv hunc
  have hnewest : o.uncertainty.isUncertain b.newest.1.1 = false := by
    rw [Bool.eq_false_iff]
    intro htrue
    have hle := (Timestamp.lessEq_iff _ _).mp (hi.le_of_isUncertain htrue)
    exact hsecond ((Timestamp.lessEq_iff _ _).mpr ((second_le_newest he).trans hle))
  have hcheck : o.checkUncertainty = true := decide_eq_true hi.ts_lt
  have hconcl := h.seekVersion_one true hat hiters he hsecond
  rw [getAndAdvance_above ho hown h hat hlt, hcheck, if_pos rfl, hnewest, if_neg (by simp)]
  have happlies := hconcl.applies h
  rw [show ((versioned b).block.records.dropWhile (Entry.before
    ⟨(versioned b).block.key, o.uncertainty.globalLimit⟩)).find? (halts o true) = _ from
      VersionedKey.find?_halts hi, VersionedKey.found_of_certain] at happlies
  · exact happlies
  · exact fun w _ hle => VersionedKey.engineRank_le_of_visible hi hle
  · intro w hw hq hwunc
    have hrank := (engineRank_lt_iff_hidden (hi.le_of_isUncertain hwunc.2)).mpr (hhidden w hw hwunc)
    exact absurd (of_decide_eq_true hq) (not_le.mpr hrank)

theorem applies_of_missesVersion (hcheck : o.checkUncertainty = false)
    (hmiss : (versioned b).MissesVersion o) : Applies block o [.versioned b] [] (s.getAndAdvance o)
      (s.output.read o (.read [] ((seekTarget b o.ts).map (toResult o)))) := by
  obtain ⟨pre, post, hbs, h, hat⟩ := reading_of_atKey ho (pairwise_singleton _ _) hspan hat
  have hlt := not_newest_le_of_missesVersion hmiss
  obtain ⟨⟨e, he, hsecond⟩, -⟩ := hmiss
  have hconcl := h.seekVersion_one false hat hiters he hsecond
  rw [getAndAdvance_above ho hown h hat hlt, hcheck, if_neg (by simp)]
  have happlies := hconcl.applies h
  rw [found_false] at happlies
  rw [← find?_halts_false (o := o)]
  exact happlies

end Misses

theorem inSpan_single (hk : k ∈ c.keys) :
    InSpan (o.inExtent (.single k.block.key)) (Block.recordsOf block [k]) := by
  have hspan := c.inSpan (o.inExtent (.single k.block.key))
  have hsingle : c.span (o.inExtent (.single k.block.key)).start
      (o.inExtent (.single k.block.key)).stop = [k] := Contents.span_single hk
  rwa [hsingle] at hspan

/-- A key that is scanned as it should alone and from a count of one can be checked. -/
theorem checkable_of_checksUncertainty (ho : Consistent o) (hi : ProperInterval o)
    (hk : k ∈ c.keys) (hown : NoOwnIntent o k) (h : ChecksUncertainty o c (.single k.block.key) 1
      (init (Block.recordsOf block [k]) 1 le_rfl (by decide))) : k.Checkable o := by
  set x := Extent.single k.block.key with hx
  have hspan : InSpan (o.inExtent x) (Block.recordsOf block [k]) := inSpan_single hk
  have horder : c.order x = [k] := Contents.span_single hk
  obtain ⟨s, hscan, hfails, hsame⟩ := h
  rw [horder] at hfails hsame
  have hreached : ∀ out k', k' ∈ reached (o.inExtent x) (readAt o.ts) [k] out ↔ k' = k := by
    intro out k'
    rw [reached]
    split_ifs <;> simp [reached]
  simp only [hreached, exists_eq_left, forall_eq] at hfails hsame
  cases k with
  | inline key m hm => exact ⟨id, .inr id⟩
  | versioned b =>
    have hmiss : ¬ (versioned b).MissesUncertain o := by
      intro hmiss
      have hout := scan_one rfl hspan (fun s hat hiters =>
        applies_of_missesUncertain (ho.inExtent x)
        hspan hown hat hiters ⟨hi.ts_lt, hi.local_le⟩ hmiss) rfl hscan
      obtain ⟨v, hv, hunc⟩ := hmiss.2.1
      have hlt : ¬ b.newest.1.1.LessEq o.ts := fun hle =>
        VersionedKey.not_uncertainVersion hle v hv hunc
      obtain ⟨r, e, l, herr⟩ := hfails.mpr ((VersionedKey.uncertain_iff hlt).mpr ⟨v, hv, hunc⟩)
      rw [hout, (Output.read_frame _ _ _).1] at herr
      cases herr
    refine ⟨hmiss, or_iff_not_imp_left.mpr fun hcertain hversion => ?_⟩
    obtain ⟨s', hscan', hout'⟩ := hsame hcertain
    have hread := readsKey_uncertain (k := .versioned b) (ho.inExtent x) ⟨hi.ts_lt, hi.local_le⟩
      (pairwise_singleton _ _) hspan hown hmiss
    have hlt := not_newest_le_of_missesVersion hversion
    have hout : s.output = (Output.read (o.inExtent x)
        (init (Block.recordsOf block [.versioned b]) 1 le_rfl (by decide)).output
        (.read [] ((b.versionAt o.ts).map b.result))).2 := by
      refine scan_one rfl hspan (fun s hat _ => ?_) rfl hscan
      obtain ⟨r, happlies, -, hvisible⟩ := hread s [] hat
      rw [Output.read_congr (hvisible hcertain)] at happlies
      rwa [show (versioned b).readAt (o.inExtent x).ts = _ from readAt_above hlt]
        at happlies
    have hspan' : InSpan (o.inExtent x).withoutUncertainty
        (Block.recordsOf block [.versioned b]) := ⟨hspan.1, hspan.2⟩
    have hplain := scan_one rfl hspan' (fun s hat hiters => applies_of_missesVersion
      (ho.inExtent x).withoutUncertainty hspan' hown hat hiters (checkUncertainty_without _)
        hversion) rfl hscan'
    have hresults := congrArg Output.results (hout.symm.trans (hout'.trans hplain))
    rw [Output.results_read rfl rfl, Output.results_read rfl rfl] at hresults
    have hshown : shown o.tombstones ((seekTarget b o.ts).map (toResult o)) =
        shown o.tombstones ((stepTarget b o.ts).map (toResult o)) := by
      rw [stepTarget_toResult hlt]
      have hhead := congrArg List.head? (append_cancel_left hresults)
      rw [head?_toList, head?_toList] at hhead
      exact hhead.symm
    refine (VersionedKey.shown_seekTarget_eq_iff (c.ticks_pos _ hk b rfl) ?_).mp hshown hversion.2
    rw [Timestamp.lessEq_iff] at hlt
    omega

end Single

/-- The scans of all extents of a range, from any count of steps, check uncertainty as they should
exactly if every key without an intent of the reader can be checked. -/
theorem checksUncertainty_iff (o : ScanOptions) (ho : Consistent o) (hi : ProperInterval o)
    (c : Contents) :
    (∀ (x : Extent) (iters : ℕ) (hpos : 1 ≤ iters) (hle : iters ≤ maxItersBeforeSeek) (fuel : ℕ),
      (c.span x.start x.stop).length ≤ fuel → (∀ k ∈ c.span x.start x.stop, NoOwnIntent o k) →
        ChecksUncertainty o c x fuel (init (c.entries x) iters hpos hle)) ↔
      ∀ k ∈ c.keys, NoOwnIntent o k → k.Checkable o := by
  constructor
  · intro h k hk hown
    have hspan : c.span (Extent.single k.block.key).start (Extent.single k.block.key).stop = [k] :=
      Contents.span_single hk
    have hentries : c.entries (.single k.block.key) = Block.recordsOf block [k] :=
      congrArg (Block.recordsOf block) hspan
    have hone := h (.single k.block.key) 1 le_rfl (by decide) 1
      (by rw [hspan]; simp) (by rw [hspan]; simpa using hown)
    rw [hentries] at hone
    exact checkable_of_checksUncertainty ho hi hk hown hone
  · intro hgood x iters hpos hle fuel hfuel hown
    exact checksUncertainty_of_checkable ho hi hown
      (fun k hk => hgood k (Contents.mem_span.mp hk).1 (hown k hk)) hpos hle hfuel

/-- An inline value and a key with versions at wall times three, two and one. -/
def sampleContents (synthetic : Bool) : Contents where
  keys := [.inline [65] { MVCCMetadata.zero with rawBytes := [7] } (by simp),
    .versioned (sampleKey synthetic)]
  sorted := by
    unfold Block.Sorted
    cases synthetic <;> decide
  ticks_pos := by
    rintro _ hk b rfl
    have heq : b = sampleKey synthetic := by simpa using hk
    subst heq
    cases synthetic <;> decide

/-- A scan that starts below all versions, with a global limit at a wall time. -/
def limitScan (wallTime : ℕ) (h : wallTime < 4) : ScanOptions :=
  { sampleScan with
    ts := ⟨0, 1, false, Timestamp.zero_lt_wallTime, by norm_num⟩
    uncertainty := ⟨⟨wallTime, 0, false, by omega, Timestamp.zero_lt_logical⟩, .empty⟩ }

def sampleExtent : Extent := ⟨true, [65], [98], 0, 0, false, false, 0⟩

theorem consistent_limitScan (wallTime : ℕ) (h : wallTime < 4) :
    Consistent (limitScan wallTime h) :=
  ⟨rfl, rfl, rfl⟩

/-- With the limit at wall time two, the version there is uncertain and is found. -/
theorem checksUncertainty_sampleContents :
    (∀ k ∈ (sampleContents true).keys, NoOwnIntent (limitScan 2 (by decide)) k →
      k.Checkable (limitScan 2 (by decide))) ∧
    ChecksUncertainty (limitScan 2 (by decide)) (sampleContents true) sampleExtent 2
      (init ((sampleContents true).entries sampleExtent) 1 le_rfl (by decide)) := by
  have hgood : ∀ k ∈ (sampleContents true).keys, NoOwnIntent (limitScan 2 (by decide)) k →
      k.Checkable (limitScan 2 (by decide)) := by
    intro k hk _
    rcases mem_cons.mp hk with rfl | hk
    · exact ⟨id, .inr id⟩
    obtain rfl := mem_singleton.mp hk
    refine ⟨?_, .inl ⟨by simp [sampleKey], sampleVersion 2 false (by decide), ?_, ?_⟩⟩
    · rintro ⟨⟨e, he, hsecond⟩, -⟩
      obtain rfl := some.inj he
      exact hsecond (by decide)
    · simp [VersionedKey.versions, sampleKey]
    · exact ⟨by decide, by decide⟩
  refine ⟨hgood, ?_⟩
  refine (checksUncertainty_iff (limitScan 2 (by decide)) (consistent_limitScan 2 _)
    ⟨by decide, .inl rfl⟩ (sampleContents true)).mpr hgood sampleExtent 1 le_rfl (by decide) 2
      (by decide) ?_
  intro k hk
  have hk' := (Contents.mem_span.mp hk).1
  rcases mem_cons.mp hk' with rfl | hk'
  · trivial
  · obtain rfl := mem_singleton.mp hk'
    simp [NoOwnIntent, sampleKey]

/-- With the limit at wall time one, the synthetic version there is uncertain, but the seek to the
limit goes past it. -/
theorem not_checksUncertainty_sampleContents :
    (versioned (sampleKey true)).Uncertain (limitScan 1 (by decide)) ∧
    ¬ ChecksUncertainty (limitScan 1 (by decide)) (sampleContents true) sampleExtent 2
      (init ((sampleContents true).entries sampleExtent) 1 le_rfl (by decide)) := by
  have huncertain : (versioned (sampleKey true)).Uncertain (limitScan 1 (by decide)) := by
    refine ⟨by simp [sampleKey], sampleVersion 1 true (by decide), ?_, by decide, by decide⟩
    simp [VersionedKey.versions, sampleKey]
  refine ⟨huncertain, ?_⟩
  rintro ⟨s, hscan, hfails, -⟩
  have herr : s.err = none := by
    have hnone : ((scan ((limitScan 1 (by decide)).inExtent sampleExtent) 2
        (init ((sampleContents true).entries sampleExtent) 1 le_rfl (by decide))).map
          fun s => s.err) = some none := by
      decide +kernel
    rw [hscan] at hnone
    exact some.inj hnone
  have hreached : versioned (sampleKey true) ∈
      reached ((limitScan 1 (by decide)).inExtent sampleExtent)
        (readAt (limitScan 1 (by decide)).ts) ((sampleContents true).order sampleExtent)
        (init ((sampleContents true).entries sampleExtent) 1 le_rfl (by decide)).output :=
    mem_cons_self
  obtain ⟨r, e, l, hsome⟩ := hfails.mpr ⟨_, hreached, huncertain⟩
  rw [show s.output.err = s.err from rfl, herr] at hsome
  cases hsome

end Cockroach.Storage
