import Cockroach.Storage.ScanCorrect

/-! Reads of a single key. -/
namespace Cockroach.Storage
open ByteOrder Hlc Scanner

namespace Scanner

variable {o : ScanOptions}

theorem emitResult_spec (x : Option ScanResult) (out : Output) :
    (out.emitResult o x).results = out.results ++ (shown o.tombstones x).toList ∧
      (out.emitResult o x).intents = out.intents ∧
      (out.emitResult o x).mostRecentTS = out.mostRecentTS ∧
      (out.emitResult o x).err = out.err := by
  cases x with
  | none => simp [Output.emitResult, shown]
  | some r =>
    rw [shown_some]
    by_cases h : Shown o.tombstones r.value
    · have hnot : ¬ (r.value = [] ∧ o.tombstones = false) := by
        unfold Shown at h
        rw [not_and_or]
        simpa using h
      simp [Output.emitResult, Output.emit, hnot, h]
    · rw [Output.emitResult, Output.emit_of_not_shown h, if_neg h]
      simp

variable {b : VersionedKey}

theorem inSpan_single (hforward : o.reverse = false) (hstart : o.start = b.key) :
    InSpan o b.records := by
  constructor
  · intro e he
    rw [← Bool.not_eq_true, Entry.before_empty, VersionedKey.key_of_mem_records he, hstart,
      bytesCompare_self]
    simp
  · intro hrev
    rw [hforward] at hrev
    cases hrev

/-- The scanner of a single key has read it when it stops. -/
theorem get_spec (hplain : Plain o) (hforward : o.reverse = false) (hmax : o.maxKeys = 1)
    (hbytes : o.targetBytes = 0) (hstart : o.start = b.key) (iters : ℕ) (hpos : 1 ≤ iters)
    (hle : iters ≤ maxItersBeforeSeek) {intents : List (Bytes × MVCCMetadata)}
    {x : Option ScanResult} (hread : readKey o iters b = .read intents x) :
    (Scanner.get o (init b.records iters hpos hle)).err = none ∧
      (Scanner.get o (init b.records iters hpos hle)).intents = intents ∧
      (Scanner.get o (init b.records iters hpos hle)).results = (shown o.tombstones x).toList := by
  have hone : recordsOf ([] ++ b :: []) = b.records := by
    simp [recordsOf_cons]
  have hspan := inSpan_single hforward hstart
  have hseek : ((init b.records iters hpos hle).parent.seekGE
      (Entry.before ⟨o.start, .empty⟩)).pos = 0 + 1 := by
    change (b.records.takeWhile (Entry.before ⟨o.start, .empty⟩)).length + 1 = 0 + 1
    rw [← List.nil_append b.records, Cursor.length_takeWhile_append (by simp)]
    · rfl
    · intro e he
      exact hspan.start_le e (List.mem_of_mem_head? he)
  obtain ⟨s, hs, hat, hout, hiters⟩ := updateCurrent_at (o := o) (E := b.records) (n := 0)
    (s := { init b.records iters hpos hle with
      parent := (init b.records iters hpos hle).parent.seekGE (Entry.before ⟨o.start, .empty⟩) })
    rfl hseek rfl (List.length_pos_of_ne_nil b.records_ne_nil)
  have hreading : Reading o [] b [] [] := by
    refine ⟨List.pairwise_singleton _ _, ?_, ?_, fun _ => rfl⟩
    · rwa [hone]
    · split_ifs <;> rfl
  have hroom : Room o [] s.output := ⟨hbytes, .inr ⟨hmax, by rw [hout]; rfl, rfl⟩⟩
  have hreads := hreading.getAndAdvance hplain hroom (by rwa [hone])
  rw [show s.itersBeforeSeek = iters from hiters, hread] at hreads
  obtain ⟨-, hfinal⟩ := hreads
  obtain ⟨hres, hint, hrecent, herr⟩ := emitResult_spec (o := o) x
    { s.output with intents := s.output.intents ++ intents }
  rw [← hfinal] at hres hint hrecent herr
  rw [hout] at hres hint hrecent herr
  have hget : Scanner.get o (init b.records iters hpos hle) = (s.getAndAdvance o).2 := by
    unfold Scanner.get
    rw [hs]
    exact maybeFailOnMoreRecent_eq hrecent
  rw [hget]
  exact ⟨herr, hint, hres⟩

end Scanner

variable (marshal : MVCCMetadata → Bytes)

variable {s : KeyState} {b : VersionedKey} {ts : Timestamp} {x : Option ScanResult}

theorem mvccGet_eq (hkey : b.key ≠ []) (hs : s.entries b.key = b.records) {opts : MVCCGetOptions}
    (hplain : Plain (getOptions marshal b.key ts opts))
    (hopts : opts.inconsistent = true → opts.txn = none) {intents : List (Bytes × MVCCMetadata)}
    (hread : readKey (getOptions marshal b.key ts opts) (maxItersBeforeSeek / 2) b =
      .read intents x) (hintents : opts.inconsistent = true ∨ intents = []) :
    mvccGet marshal s b.key ts opts = .ok ((shown opts.tombstones x).map ScanResult.value) := by
  have hvalid : ¬ (opts.inconsistent = true ∧
      (opts.txn.isSome ∨ opts.failOnMoreRecent = true)) := by
    rintro ⟨hinc, hsome | hfail⟩
    · simp [hopts hinc] at hsome
    · exact absurd (hfail.symm.trans hplain.failOnMoreRecent_eq) (by simp)
  obtain ⟨herr, hint, hres⟩ := Scanner.get_spec hplain rfl rfl rfl rfl (maxItersBeforeSeek / 2)
    (by decide) (by decide) hread
  unfold mvccGet
  rw [if_neg hkey, if_neg hvalid, hs]
  dsimp only
  rw [herr, hint, hres]
  rw [if_neg]
  · rw [Option.head?_toList]
    rfl
  · rintro ⟨hcons, hne⟩
    rcases hintents with hinc | hnil
    · rw [hcons] at hinc
      cases hinc
    · simp [hnil] at hne

theorem plain_getOptions (key : Bytes) (ts : Timestamp) (inconsistent tombstones : Bool)
    (txn : Option Transaction) :
    Plain (getOptions marshal key ts { inconsistent, tombstones, txn }) := by
  have hless : ¬ ts.Less .empty := by
    rw [Timestamp.less_iff]
    exact Nat.not_lt_zero _
  exact ⟨rfl, decide_eq_false hless, rfl⟩

theorem mvccGet_of_entries_nil {key : Bytes} (hkey : key ≠ []) (hs : s.entries key = [])
    (ts : Timestamp) (tombstones : Bool) (txn : Option Transaction) :
    mvccGet marshal s key ts { tombstones, txn } = .ok none := by
  unfold mvccGet
  rw [if_neg hkey, hs]
  rfl

/-- The older version that a read of a single key looks for is found by stepping, or no synthetic
version is in the way of the seek. -/
def ReadFinds (o : ScanOptions) (b : VersionedKey) : Prop :=
  ∀ ts ∈ b.olderTimestamp o.ts o.txn,
    (b.records.length ≤ maxItersBeforeSeek / 2 ∨
      ∃ e ∈ (b.records.drop 1).take (maxItersBeforeSeek / 2), e.timestamp.LessEq ts) ∨
    ¬ ts.IsEmpty ∧ ¬ SkipsSynthetic o b ts

theorem mvccGet_of_referenceRead (hkey : b.key ≠ []) (hs : s.entries b.key = b.records)
    {tombstones : Bool} {txn : Option Transaction} (htxn : ∀ t ∈ txn, SortedRanges t.ignoredSeqNums)
    (hfinds : ReadFinds (getOptions marshal b.key ts { tombstones, txn }) b)
    (href : b.referenceRead ts txn = .read [] x) : mvccGet marshal s b.key ts { tombstones, txn } =
      .ok ((shown tombstones x).map ScanResult.value) := by
  have hplain := plain_getOptions marshal b.key ts false tombstones txn
  cases holder : b.olderTimestamp ts txn with
  | none =>
    have hread := VersionedKey.readKey_of_olderTimestamp_none
      (o := getOptions marshal b.key ts { tombstones, txn }) rfl htxn holder
      (maxItersBeforeSeek / 2)
    exact mvccGet_eq marshal hkey hs hplain (by simp) (hread.trans href) (.inr rfl)
  | some ts' =>
    obtain ⟨hread, href'⟩ := VersionedKey.readKey_of_olderTimestamp
      (o := getOptions marshal b.key ts { tombstones, txn }) rfl htxn holder
      (maxItersBeforeSeek / 2)
    rw [mvccGet_eq marshal hkey hs hplain (by simp) hread (.inr rfl)]
    have hx : x = (stepTarget b ts').map (toResult (getOptions marshal b.key ts
        { tombstones, txn })) := (KeyRead.read.inj (href.symm.trans href')).2
    have hlt := VersionedKey.olderTimestamp_lt holder
    congr 2
    rw [hx]
    unfold versionTarget targetFrom
    split_ifs with hsteps
    · unfold stepTarget
      rw [List.drop_one]
    · obtain ⟨hne, hskip⟩ := (hfinds ts' holder).resolve_left hsteps
      exact (VersionedKey.shown_seekTarget_eq_iff_of_ne hne hlt).mpr hskip

end Cockroach.Storage
