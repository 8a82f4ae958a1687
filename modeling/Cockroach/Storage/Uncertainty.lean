import Cockroach.Storage.LimitedScan

/-! The uncertainty errors of a scan against the versions of the keys it reaches. -/
namespace Cockroach.Storage
open ByteOrder Hlc Scanner List
open Timestamp (lessEq_iff less_iff)
open StoredKey (block readAt versioned)

/-- A version above the read timestamp that may be in the past of the reader. -/
def UncertainVersion (o : ScanOptions) (v : VersionTimestamp × Bytes) : Prop :=
  o.ts.Less v.1.1 ∧ o.uncertainty.isUncertain v.1.1 = true

/-- The interval reaches above the read timestamp, and its local limit is not above the global. -/
structure ProperInterval (o : ScanOptions) : Prop where
  ts_lt : o.ts.Less o.uncertainty.globalLimit
  local_le : o.uncertainty.localLimit.IsEmpty ∨
    o.uncertainty.localLimit.LessEq o.uncertainty.globalLimit

/-- A timestamp that a seek to the limit goes past although it is not above it. -/
def HiddenFrom (limit t : Timestamp) : Prop :=
  t.EqOrdering limit ∧ t.synthetic = true ∧ limit.synthetic = false

section Timestamps

variable {o : ScanOptions} {t : Timestamp}

theorem ProperInterval.le_of_isUncertain (h : ProperInterval o)
    (ht : o.uncertainty.isUncertain t = true) : t.LessEq o.uncertainty.globalLimit := by
  unfold Interval.isUncertain at ht
  split_ifs at ht with hlocal
  · have hle := h.local_le.resolve_left hlocal.1
    rw [decide_eq_true_eq] at ht
    rw [lessEq_iff] at *
    omega
  · exact of_decide_eq_true ht

theorem isUncertain_of_synthetic (hsyn : t.synthetic = true)
    (hle : t.LessEq o.uncertainty.globalLimit) : o.uncertainty.isUncertain t = true := by
  unfold Interval.isUncertain
  rw [if_neg (by simp [hsyn])]
  exact decide_eq_true hle

theorem engineRank_lt_iff_hidden {limit : Timestamp} (hle : t.LessEq limit) :
    engineRank limit < engineRank t ↔ HiddenFrom limit t := by
  unfold HiddenFrom engineRank
  rw [lessEq_iff] at hle
  rw [Timestamp.eqOrdering_iff]
  cases ht : t.synthetic <;> cases hl : limit.synthetic <;>
    simp only [Bool.toNat_true, Bool.toNat_false, and_true, and_false, iff_false, not_lt,
      reduceCtorEq] <;> omega

end Timestamps

namespace VersionedKey

variable {o : ScanOptions} {b : VersionedKey}

theorem find?_dropWhile {α : Type*} {q p : α → Bool} {l : List α}
    (h : l.Pairwise fun x y => q y = true → q x = true) :
    (l.dropWhile q).find? p = l.find? fun x => !q x && p x := by
  induction l with
  | nil => rfl
  | cons x l ih =>
    obtain ⟨hx, hl⟩ := pairwise_cons.mp h
    by_cases hq : q x = true
    · rw [dropWhile_cons_of_pos hq, ih hl, find?_cons_of_neg (by simp [hq])]
    · have hall : ∀ y ∈ x :: l, (!q y && p y) = p y := by
        intro y hy
        rcases mem_cons.mp hy with rfl | hy
        · simp [hq]
        · have hqy : q y = false := by
            rw [Bool.eq_false_iff]
            exact fun htrue => hq (hx y hy htrue)
          simp [hqy]
      rw [dropWhile_cons_of_neg hq]
      exact find?_congr_of_mem fun y hy => (hall y hy).symm

theorem find?_dropWhile_records {limit : Timestamp} (hlimit : ¬ limit.IsEmpty) (p : Entry → Bool) :
    (b.records.dropWhile (Entry.before ⟨b.key, limit⟩)).find? p =
      (b.versions.find? fun v => decide (engineRank v.1.1 ≤ engineRank limit) &&
        p (.version b.key v.1 v.2)).map fun v => .version b.key v.1 v.2 := by
  rw [← find?_not_before hlimit]
  refine find?_dropWhile (pairwise_append.mpr ⟨?_, ?_, ?_⟩)
  · cases b.intent <;> simp
  · rw [pairwise_map]
    refine b.sorted.imp ?_
    intro v w hvw hw
    rw [before_version_iff hlimit] at hw ⊢
    exact hw.trans hvw
  · intro x hx y _ _
    obtain ⟨i, -, rfl⟩ := mem_map.mp hx
    exact before_metadata hlimit

/-- A version that the search with a check does not go past. -/
def reads (o : ScanOptions) (v : VersionTimestamp × Bytes) : Bool :=
  v.1.1.LessEq o.ts ∨ o.uncertainty.isUncertain v.1.1 = true

variable {q : VersionTimestamp × Bytes → Bool}

theorem found_of_certain (hq : ∀ v ∈ b.versions, v.1.1.LessEq o.ts → q v = true)
    (h : ∀ v ∈ b.versions, q v = true → ¬ UncertainVersion o v) :
    found o true ((b.versions.find? fun v => q v && reads o v).map
      fun v => .version b.key v.1 v.2) = .read [] ((b.versionAt o.ts).map b.result) := by
  have hsame : b.versions.find? (fun v => q v && reads o v) = b.versionAt o.ts := by
    apply find?_congr_of_mem
    intro v hv
    rw [Bool.eq_iff_iff, Bool.and_eq_true, reads, decide_eq_true_eq, decide_eq_true_eq]
    constructor
    · rintro ⟨hqv, hle | hunc⟩
      · exact hle
      · by_contra hlt
        refine h v hv hqv ⟨?_, hunc⟩
        rw [lessEq_iff] at hlt
        rw [less_iff]
        omega
    · exact fun hle => ⟨hq v hv hle, .inl hle⟩
  rw [hsame]
  cases hver : b.versionAt o.ts with
  | none => rfl
  | some v =>
    have hle : v.1.1.LessEq o.ts := by
      simpa using find?_some hver
    exact if_pos (.inr hle)

variable {v : VersionTimestamp × Bytes}

theorem found_of_uncertain (hv : v ∈ b.versions) (hq : q v = true) (hunc : UncertainVersion o v) :
    ∃ ts, found o true ((b.versions.find? fun v => q v && reads o v).map
      fun v => .version b.key v.1 v.2) =
        .error (.uncertainty o.ts ts o.uncertainty.localLimit) := by
  have hreads : (q v && reads o v) = true := by
    rw [hq]
    exact decide_eq_true (.inr hunc.2)
  cases hfind : b.versions.find? fun v => q v && reads o v with
  | none => exact absurd hreads (find?_eq_none.mp hfind v hv)
  | some w =>
    obtain ⟨-, newer, older, hsplit, hnewer⟩ := find?_eq_some_iff_append.mp hfind
    have hsorted : RankedList.Descending versionRank (newer ++ w :: older) := hsplit ▸ b.sorted
    have hticks : v.1.1.ticks ≤ w.1.1.ticks := by
      have hrank : versionRank v.1 ≤ versionRank w.1 := by
        rw [hsplit] at hv
        rcases mem_append.mp hv with hv | hv
        · have hnot := hnewer v hv
          rw [hreads] at hnot
          cases hnot
        rcases mem_cons.mp hv with rfl | hv
        · exact le_rfl
        · exact ((pairwise_cons.mp (pairwise_append.mp hsorted).2.1).1 v hv).le
      have hwbit := Bool.toNat_le w.1.1.synthetic
      unfold versionRank engineRank at hrank
      omega
    have hlt := hunc.1
    rw [less_iff] at hlt
    refine ⟨w.1.1, if_neg ?_⟩
    rintro (hcheck | hle)
    · cases hcheck
    · have hle' := (lessEq_iff _ _).mp hle
      change w.1.1.ticks ≤ _ at hle'
      omega

theorem engineRank_le_second (hv : v ∈ b.versions) (hne : v ≠ b.newest) {e : Entry}
    (he : b.records[1]? = some e) : engineRank v.1.1 ≤ engineRank e.timestamp := by
  obtain ⟨hnewest, holder⟩ := pairwise_cons.mp b.sorted
  have hmem : v ∈ b.older := (mem_cons.mp hv).resolve_left hne
  unfold records at he
  cases hb : b.intent with
  | some i =>
    rw [hb] at he
    obtain rfl : Entry.version b.key b.newest.1 b.newest.2 = e := Option.some.inj he
    exact (hnewest v hmem).le
  | none =>
    rw [hb] at he
    unfold versions at he
    cases hlist : b.older with
    | nil =>
      rw [hlist] at hmem
      cases hmem
    | cons w older =>
      rw [hlist] at he hmem holder
      obtain rfl : Entry.version b.key w.1 w.2 = e := Option.some.inj he
      rcases mem_cons.mp hmem with rfl | hmem
      · exact le_rfl
      · exact ((pairwise_cons.mp holder).1 v hmem).le

end VersionedKey

namespace StoredKey

/-- No intent is in the way of the reader, and a version is uncertain. -/
def Uncertain (o : ScanOptions) : StoredKey → Prop
  | .inline _ _ _ => False
  | .versioned b => (∀ i ∈ b.intent, ¬ i.m.timestamp.LessEq o.ts) ∧
      ∃ v ∈ b.versions, UncertainVersion o v

/-- A seek to the global limit, which is not made for the second record, goes past all versions
that are uncertain. -/
def MissesUncertain (o : ScanOptions) : StoredKey → Prop
  | .inline _ _ _ => False
  | .versioned b => (∃ e ∈ b.records[1]?, ¬ e.timestamp.LessEq o.uncertainty.globalLimit) ∧
      (∃ v ∈ b.versions, UncertainVersion o v) ∧
      ∀ v ∈ b.versions, UncertainVersion o v → HiddenFrom o.uncertainty.globalLimit v.1.1

/-- A scan without a check may read something else than the newest visible version. -/
def MissesVersion (o : ScanOptions) : StoredKey → Prop
  | .inline _ _ _ => False
  | .versioned b => (∃ e ∈ b.records[1]?, ¬ e.timestamp.LessEq o.ts) ∧ SeekMisses o b o.ts

end StoredKey

namespace VersionedKey

variable {o : ScanOptions} {b : VersionedKey}

variable {v : VersionTimestamp × Bytes}

theorem ticks_le_newest (hv : v ∈ b.versions) : v.1.1.ticks ≤ b.newest.1.1.ticks := by
  have hrank : versionRank v.1 ≤ versionRank b.newest.1 := by
    rcases mem_cons.mp hv with rfl | hv
    · exact le_rfl
    · exact ((pairwise_cons.mp b.sorted).1 v hv).le
  have hnbit := Bool.toNat_le b.newest.1.1.synthetic
  unfold versionRank engineRank at hrank
  omega

theorem not_uncertainVersion (hle : b.newest.1.1.LessEq o.ts) :
    ∀ v ∈ b.versions, ¬ UncertainVersion o v := by
  intro v hv hunc
  have hticks := ticks_le_newest hv
  have hlt := hunc.1
  rw [lessEq_iff] at hle
  rw [less_iff] at hlt
  omega

theorem uncertain_iff (hlt : ¬ b.newest.1.1.LessEq o.ts) :
    (versioned b).Uncertain o ↔ ∃ v ∈ b.versions, UncertainVersion o v := by
  refine ⟨And.right, fun h => ⟨fun i hi hle => hlt ?_, h⟩⟩
  rwa [b.provisional i hi] at hle

theorem find?_stops (hi : ProperInterval o) (hlt : ¬ b.newest.1.1.LessEq o.ts)
    (hnewest : o.uncertainty.isUncertain b.newest.1.1 = false) :
    b.records.tail.find? (stops o true o.uncertainty.globalLimit) =
      (b.versions.find? fun v => true && reads o v).map fun v => .version b.key v.1 v.2 := by
  have hstops : ∀ v : VersionTimestamp × Bytes,
      stops o true o.uncertainty.globalLimit (.version b.key v.1 v.2) = reads o v := by
    intro v
    unfold stops halts reads
    rw [Bool.eq_iff_iff]
    simp only [Bool.true_eq_false, false_or, decide_eq_true_eq]
    refine ⟨And.right, fun h => ⟨?_, h⟩⟩
    rcases h with hle | hunc
    · have hts := hi.ts_lt
      rw [less_iff] at hts
      rw [lessEq_iff] at *
      exact hle.trans hts.le
    · exact hi.le_of_isUncertain hunc
  rw [find?_tail_records]
  · simp only [hstops, Bool.true_and]
  · rw [hstops, reads, decide_eq_false_iff_not]
    rintro (hle | hunc)
    · exact hlt hle
    · rw [hnewest] at hunc
      cases hunc

theorem find?_halts (hi : ProperInterval o) :
    (b.records.dropWhile (Entry.before ⟨b.key, o.uncertainty.globalLimit⟩)).find? (halts o true) =
      (b.versions.find? fun v => decide (engineRank v.1.1 ≤
        engineRank o.uncertainty.globalLimit) && reads o v).map
          fun v => .version b.key v.1 v.2 := by
  have hlimit : ¬ o.uncertainty.globalLimit.IsEmpty := by
    apply Timestamp.not_isEmpty_of_ticks_pos
    have hts := hi.ts_lt
    rw [less_iff] at hts
    omega
  rw [find?_dropWhile_records hlimit]
  have hhalts : ∀ v : VersionTimestamp × Bytes,
      halts o true (.version b.key v.1 v.2) = reads o v := by
    intro v
    unfold halts reads
    rw [Bool.eq_iff_iff]
    simp only [Bool.true_eq_false, false_or, decide_eq_true_eq]
    exact Iff.rfl
  simp only [hhalts]

theorem engineRank_le_of_visible (hi : ProperInterval o) (hle : v.1.1.LessEq o.ts) :
    decide (engineRank v.1.1 ≤ engineRank o.uncertainty.globalLimit) = true := by
  have hvbit := Bool.toNat_le v.1.1.synthetic
  have hts := hi.ts_lt
  unfold engineRank
  rw [lessEq_iff] at hle
  rw [less_iff] at hts
  rw [decide_eq_true_eq]
  omega

end VersionedKey

section Keys

variable {o : ScanOptions} {bs rest : List StoredKey} {s : Scanner} {b : VersionedKey}

variable {k : StoredKey}

theorem reading_of_atKey (ho : Consistent o) (hbs : Block.Sorted block bs)
    (hspan : InSpan o (Block.recordsOf block bs)) (hat : Block.AtKey block o bs s k rest) :
    ∃ pre post, bs = pre ++ k :: post ∧ Block.Reading block o pre k post rest ∧
      At o (Block.recordsOf block (pre ++ k :: post)) s (Block.recordsOf block pre).length := by
  obtain ⟨pre, post, rfl, hrest, hat⟩ := hat
  refine ⟨pre, post, rfl, ⟨hbs, hspan, hrest, fun hget => ?_⟩, hat⟩
  rw [ho.isGet_eq] at hget
  cases hget

theorem failsUncertain_read {x : KeyRead} {ts : Timestamp} (out : Output)
    (hx : x = .error (.uncertainty o.ts ts o.uncertainty.localLimit)) :
    FailsUncertain (out.read o x).2 ∧ (out.read o x).1 = false := by
  subst hx
  exact ⟨⟨_, _, _, rfl⟩, rfl⟩

theorem readAt_above (hlt : ¬ b.newest.1.1.LessEq o.ts) :
    (versioned b).readAt o.ts = .read [] ((b.versionAt o.ts).map b.result) := by
  unfold readAt
  dsimp only
  cases hb : b.intent with
  | none => rfl
  | some i =>
    dsimp only
    rw [if_neg]
    rwa [b.provisional i hb]

/-- A search with a check finds what it should unless it misses what is uncertain. -/
theorem seekVersion_uncertain {pre post : List StoredKey} (hi : ProperInterval o)
    (h : Block.Reading block o pre (.versioned b) post rest)
    (hat : At o (Block.recordsOf block (pre ++ .versioned b :: post)) s
      (Block.recordsOf block pre).length) (hlt : ¬ b.newest.1.1.LessEq o.ts)
    (hnewest : o.uncertainty.isUncertain b.newest.1.1 = false)
    (hmiss : ¬ (versioned b).MissesUncertain o) : ∃ q : VersionTimestamp × Bytes → Bool,
      Concludes block o true pre (.versioned b) post rest s
        (s.seekVersion o o.uncertainty.globalLimit true)
        ((b.versions.find? fun v => q v && VersionedKey.reads o v).map
          fun v => .version b.key v.1 v.2) ∧ (∀ v ∈ b.versions, v.1.1.LessEq o.ts → q v = true) ∧
      ((∃ v ∈ b.versions, UncertainVersion o v) →
        ∃ v ∈ b.versions, q v = true ∧ UncertainVersion o v) := by
  rcases h.seekVersion true o.uncertainty.globalLimit hat with hstep | ⟨⟨e, he, hpassed⟩, hseek⟩
  · refine ⟨fun _ => true, ?_, fun _ _ _ => rfl, fun ⟨v, hv, hunc⟩ => ⟨v, hv, rfl, hunc⟩⟩
    rw [← VersionedKey.find?_stops hi hlt hnewest]
    exact hstep
  · refine ⟨_, VersionedKey.find?_halts hi ▸ hseek,
      fun v _ hle => VersionedKey.engineRank_le_of_visible hi hle, fun hex => ?_⟩
    by_contra hnone
    -- Everything uncertain is hidden, so the second record is above the limit.
    have hhidden : ∀ v ∈ b.versions, UncertainVersion o v →
        HiddenFrom o.uncertainty.globalLimit v.1.1 := by
      intro v hv hunc
      refine (engineRank_lt_iff_hidden (hi.le_of_isUncertain hunc.2)).mp ?_
      by_contra hle
      exact hnone ⟨v, hv, decide_eq_true (not_lt.mp hle), hunc⟩
    refine hmiss ⟨⟨e, he, fun hle => ?_⟩, hex, hhidden⟩
    obtain ⟨v, hv, hunc⟩ := hex
    have hne : v ≠ b.newest := by
      rintro rfl
      rw [hunc.2] at hnewest
      cases hnewest
    have hrank := VersionedKey.engineRank_le_second hv hne he
    have hvlt := (engineRank_lt_iff_hidden (hi.le_of_isUncertain hunc.2)).mpr (hhidden v hv hunc)
    have hesyn := (engineRank_lt_iff_hidden hle).mp (hvlt.trans_le hrank)
    have hestops : stops o true o.uncertainty.globalLimit e = true := by
      unfold stops halts
      simp [hle, isUncertain_of_synthetic hesyn.2.1 hle]
    rw [hestops] at hpassed
    cases hpassed

theorem readsKey_uncertain (ho : Consistent o) (hi : ProperInterval o) (hbs : Block.Sorted block bs)
    (hspan : InSpan o (Block.recordsOf block bs)) (hown : NoOwnIntent o k)
    (hmiss : ¬ k.MissesUncertain o) : ReadsKey o (StoredKey.Uncertain o) (readAt o.ts) bs k := by
  intro s rest hat
  obtain ⟨pre, post, rfl, h, hat⟩ := reading_of_atKey ho hbs hspan hat
  cases k with
  | inline key m hm => exact ⟨_, applies_inline h hat, fun hunc => hunc.elim, fun _ => rfl⟩
  | versioned b =>
    by_cases hle : b.newest.1.1.LessEq o.ts
    · refine ⟨_, applies_below ho hown h hat hle, fun hunc => ?_, fun _ => rfl⟩
      obtain ⟨v, hv, hunc⟩ := hunc.2
      exact absurd hunc (VersionedKey.not_uncertainVersion hle v hv)
    have hcheck : o.checkUncertainty = true := decide_eq_true hi.ts_lt
    rw [getAndAdvance_above ho hown h hat hle, hcheck, VersionedKey.uncertain_iff hle,
      readAt_above hle]
    cases hnewest : o.uncertainty.isUncertain b.newest.1.1 with
    | true =>
      refine ⟨.error (.uncertainty o.ts b.newest.1.1 o.uncertainty.localLimit), ⟨rfl, rfl⟩,
        fun _ => failsUncertain_read _ rfl, fun hnone => absurd ⟨b.newest, ?_, ?_, hnewest⟩ hnone⟩
      · exact mem_cons_self
      · rw [lessEq_iff] at hle
        rw [less_iff]
        omega
    | false =>
      obtain ⟨q, hconcl, hvisible, hunc⟩ := seekVersion_uncertain hi h hat hle hnewest hmiss
      refine ⟨_, hconcl.applies h, fun hex => ?_, fun hnone => ?_⟩
      · obtain ⟨v, hv, hq, hv'⟩ := hunc hex
        obtain ⟨ts, hfound⟩ := VersionedKey.found_of_uncertain hv hq hv'
        exact failsUncertain_read _ hfound
      · rw [VersionedKey.found_of_certain hvisible]
        exact fun v hv _ hv' => hnone ⟨v, hv, hv'⟩

theorem found_false (target : Option Entry) :
    found o false target = .read [] (target.map (toResult o)) := by
  cases target with
  | none => rfl
  | some e => simp [found]

theorem find?_stops_false (ts : Timestamp) :
    b.records.tail.find? (stops o false ts) = stepTarget b ts := by
  unfold stepTarget stops halts
  simp

theorem stepTarget_toResult (hlt : ¬ b.newest.1.1.LessEq o.ts) :
    (stepTarget b o.ts).map (toResult o) = (b.versionAt o.ts).map b.result := by
  rw [lessEq_iff] at hlt
  rw [VersionedKey.stepTarget_eq (by omega), Option.map_map]
  rfl

theorem readsKey_plain (ho : Consistent o) (hcheck : o.checkUncertainty = false)
    (hbs : Block.Sorted block bs) (hspan : InSpan o (Block.recordsOf block bs))
    (hpos : ∀ b, k = .versioned b → ∀ v ∈ b.versions, 0 < v.1.1.ticks) (hown : NoOwnIntent o k)
    (hmiss : ¬ k.MissesVersion o) : ReadsKey o (fun _ => False) (readAt o.ts) bs k := by
  intro s rest hat
  obtain ⟨pre, post, rfl, h, hat⟩ := reading_of_atKey ho hbs hspan hat
  cases k with
  | inline key m hm => exact ⟨_, applies_inline h hat, False.elim, fun _ => rfl⟩
  | versioned b =>
    by_cases hle : b.newest.1.1.LessEq o.ts
    · exact ⟨_, applies_below ho hown h hat hle, False.elim, fun _ => rfl⟩
    have hlt : o.ts.ticks < b.newest.1.1.ticks := by
      rw [lessEq_iff] at hle
      omega
    rw [getAndAdvance_above ho hown h hat hle, hcheck, readAt_above hle, ← stepTarget_toResult hle]
    rcases h.seekVersion false o.ts hat with hstep | ⟨⟨e, he, hpassed⟩, hseek⟩
    · refine ⟨_, hstep.applies h, False.elim, fun _ => ?_⟩
      rw [found_false]
      exact congrArg _ (congrArg _ (congrArg _ (find?_stops_false o.ts)))
    · have hsecond : ¬ e.timestamp.LessEq o.ts := by
        intro hle'
        rw [show stops o false o.ts e = true by simp [stops, halts, hle']] at hpassed
        cases hpassed
      have hnot : ¬ SeekMisses o b o.ts := fun hmisses => hmiss ⟨⟨e, he, hsecond⟩, hmisses⟩
      have hshown := (VersionedKey.shown_seekTarget_eq_iff (hpos b rfl) hlt).mpr hnot
      refine ⟨_, hseek.applies h, False.elim, fun _ => ?_⟩
      rw [found_false]
      change KeyRead.visible o.tombstones (.read [] (Option.map (toResult o)
        ((b.records.dropWhile (Entry.before ⟨b.key, o.ts⟩)).find? (halts o false)))) = _
      rw [find?_halts_false]
      exact congrArg (KeyRead.read []) hshown

end Keys

end Cockroach.Storage
