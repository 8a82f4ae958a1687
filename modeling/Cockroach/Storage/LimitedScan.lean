import Cockroach.Storage.ScanCorrect
import Cockroach.Storage.VersionSearch

/-! Scans with limits over inline values and versions, as a run of reads of the keys. -/
namespace Cockroach.Storage
open ByteOrder Hlc List Option
open VersionedKey (records versions)

/-- A key of a range, with an inline value or with versions. -/
inductive StoredKey where
  | inline (key : Bytes) (m : MVCCMetadata) (h : m.rawBytes ≠ [])
  | versioned (b : VersionedKey)

namespace StoredKey

def block : StoredKey → Block
  | .inline key m _ => {
      key := key
      records := [.metadata key m]
      ne_nil := by simp
      key_eq := by
        rintro e he
        obtain rfl := mem_singleton.mp he
        rfl
      metadataFirst := by
        intro i e he _
        have hlt := (List.getElem?_eq_some_iff.mp he).1
        simpa using hlt }
  | .versioned b => b.block

/-- The read of a key at a timestamp, by a reader without an intent on it. -/
def readAt (ts : Timestamp) : StoredKey → Scanner.KeyRead
  | .inline key m _ => .read [] (some ⟨key, .empty, m.rawBytes⟩)
  | .versioned b =>
    match b.intent with
    | none => .read [] ((b.versionAt ts).map b.result)
    | some i =>
      if i.m.timestamp.LessEq ts then .read [(b.key, i.m)] none
      else .read [] ((b.versionAt ts).map b.result)

end StoredKey

open StoredKey (block)

namespace Scanner

/-- The limit that another result would exceed. -/
def Output.limitReached (o : ScanOptions) (r : ScanResult) (out : Output) : Option ResumeReason :=
  if 0 < o.targetBytes ∧ (o.targetBytes ≤ out.bytes ∨
      o.targetBytesAvoidExcess = true ∧ o.targetBytes < out.bytes + sizeOfResult r) then
    some .byteLimit
  else if 0 < o.maxKeys ∧ o.maxKeys ≤ out.results.length then some .keyLimit
  else none

/-- The output with a result added, and whether the scan goes on. -/
def Output.push (o : ScanOptions) (r : ScanResult) (out : Output) : Bool × Output :=
  let out := { out with results := out.results ++ [r], bytes := out.bytes + sizeOfResult r }
  if 0 < o.maxKeys ∧ o.maxKeys ≤ out.results.length then
    (false, { out with resumeReason := some .keyLimit })
  else (true, out)

def Output.add (o : ScanOptions) (r : ScanResult) (out : Output) : Bool × Output :=
  if ¬ Shown o.tombstones r.value then (true, out)
  else
    match out.limitReached o r with
    | some reason =>
      if o.allowEmpty = false ∧ out.results = [] then out.push o r
      else (false, { out with
        resumeReason := some reason
        resumeKey := some r.key
        resumeNextBytes := if reason = .byteLimit then sizeOfResult r else 0 })
    | none => out.push o r

def Output.note (o : ScanOptions) (intents : List (Bytes × MVCCMetadata)) (out : Output) :
    Bool × Output :=
  let out := { out with intents := out.intents ++ intents }
  if 0 < o.maxIntents ∧ o.maxIntents ≤ out.intents.length then
    (false, { out with resumeReason := some .intentLimit })
  else (true, out)

/-- The output after the read of a key, and whether the scan goes on. -/
def Output.read (o : ScanOptions) (out : Output) : KeyRead → Bool × Output
  | .error e => (false, { out with err := some e, results := [], bytes := 0, intents := [] })
  | .read [] none => (true, out)
  | .read [] (some r) => out.add o r
  | .read intents _ => out.note o intents

/-- The keys that a scan comes to before a limit stops it. -/
def reached (o : ScanOptions) (read : StoredKey → KeyRead) : List StoredKey → Output →
    List StoredKey
  | [], _ => []
  | k :: rest, out =>
    k :: if (out.read o (read k)).1 then reached o read rest (out.read o (read k)).2 else []

/-- The output of the reads of the keys, up to a limit. -/
def runOutput (o : ScanOptions) (read : StoredKey → KeyRead) : List StoredKey → Output → Output
  | [], out => out
  | k :: rest, out =>
    if (out.read o (read k)).1 then runOutput o read rest (out.read o (read k)).2
    else (out.read o (read k)).2

variable {o : ScanOptions}

theorem Output.read_visible (out : Output) (r : KeyRead) :
    out.read o (r.visible o.tombstones) = out.read o r := by
  rcases r with e | ⟨intents, r⟩
  · rfl
  cases intents with
  | cons i intents => rfl
  | nil =>
    cases r with
    | none => rfl
    | some r =>
      dsimp only [KeyRead.visible]
      rw [shown_some]
      by_cases h : Shown o.tombstones r.value
      · rw [if_pos h]
      · rw [if_neg h]
        change (true, out) = out.add o r
        unfold Output.add
        rw [if_pos h]

theorem Output.read_congr {r r' : KeyRead}
    (h : r.visible o.tombstones = r'.visible o.tombstones) (out : Output) :
    out.read o r = out.read o r' := by
  rw [← read_visible out r, h, read_visible]

theorem Output.add_frame (r : ScanResult) (out : Output) :
    (out.add o r).2.err = out.err ∧ (out.add o r).2.mostRecentTS = out.mostRecentTS := by
  have hpush : (out.push o r).2.err = out.err ∧
      (out.push o r).2.mostRecentTS = out.mostRecentTS := by
    unfold Output.push
    dsimp only
    split_ifs <;> exact ⟨rfl, rfl⟩
  unfold Output.add
  by_cases hshown : ¬ Shown o.tombstones r.value
  · rw [if_pos hshown]
    exact ⟨rfl, rfl⟩
  rw [if_neg hshown]
  split
  next reason =>
    by_cases hempty : o.allowEmpty = false ∧ out.results = []
    · rw [if_pos hempty]
      exact hpush
    · rw [if_neg hempty]
      exact ⟨rfl, rfl⟩
  · exact hpush

theorem Output.read_frame (intents : List (Bytes × MVCCMetadata)) (r : Option ScanResult)
    (out : Output) : (out.read o (.read intents r)).2.err = out.err ∧
      (out.read o (.read intents r)).2.mostRecentTS = out.mostRecentTS := by
  cases intents with
  | nil =>
    cases r with
    | none => exact ⟨rfl, rfl⟩
    | some r => exact add_frame r out
  | cons i intents =>
    change (out.note o (i :: intents)).2.err = _ ∧ (out.note o (i :: intents)).2.mostRecentTS = _
    unfold Output.note
    dsimp only
    split_ifs <;> exact ⟨rfl, rfl⟩

/-- The step has the effect of a read: it stops, or goes on to the next one of the keys `rest`. -/
def Applies {κ : Type*} (f : κ → Block) (o : ScanOptions) (bs rest : List κ) (r : Step)
    (x : Bool × Output) : Prop :=
  if x.1 then Block.Advances f o bs rest r x.2 else r.1 = false ∧ r.2.output = x.2

section Reads

variable {κ : Type*} {f : κ → Block} {pre post rest : List κ} {b : κ} {s : Scanner} {i : ℕ}

theorem applies_addAndAdvance (h : Block.Reading f o pre b post rest)
    (hat : At o (Block.recordsOf f (pre ++ b :: post)) s ((Block.recordsOf f pre).length + i))
    (hi : i < (f b).records.length) (r : ScanResult) :
    Applies f o (pre ++ b :: post) rest (s.addAndAdvance o r) (s.output.add o r) := by
  have hadd : Applies f o (pre ++ b :: post) rest (Scanner.addAndAdvance.add o r s)
      (s.output.push o r) := by
    unfold Scanner.addAndAdvance.add Output.push Applies
    by_cases hmax : 0 < o.maxKeys ∧ o.maxKeys ≤ (s.results ++ [r]).length
    · rw [if_pos hmax, if_pos (show 0 < o.maxKeys ∧ o.maxKeys ≤ (s.output.results ++ [r]).length
        from hmax)]
      exact ⟨rfl, rfl⟩
    · rw [if_neg hmax, if_neg (show ¬ (0 < o.maxKeys ∧ o.maxKeys ≤ (s.output.results ++ [r]).length)
        from hmax)]
      exact h.advanceKey (s := { s with
        results := s.results ++ [r], bytes := s.bytes + sizeOfResult r })
        ⟨hat.entries_eq, hat.cur_eq, hat.pos_eq, hat.reverse_of_peeked⟩ hi
  unfold Scanner.addAndAdvance Output.add
  by_cases hshown : r.value = [] ∧ o.tombstones = false
  · have hnot : ¬ Shown o.tombstones r.value := by
      simp [Shown, hshown]
    rw [if_pos hshown, if_pos hnot]
    exact h.advanceKey hat hi
  · have hnot : ¬ ¬ Shown o.tombstones r.value := by
      rw [not_not, Shown]
      rw [not_and_or] at hshown
      simpa using hshown
    rw [if_neg hshown, if_neg hnot,
      show Scanner.limitReached o r s = Output.limitReached o r s.output from rfl]
    cases Output.limitReached o r s.output with
    | none => exact hadd
    | some reason =>
      dsimp only
      by_cases hempty : o.allowEmpty = false ∧ s.results = []
      · rw [if_pos hempty, if_pos (show o.allowEmpty = false ∧ s.output.results = [] from hempty)]
        exact hadd
      · rw [if_neg hempty,
          if_neg (show ¬ (o.allowEmpty = false ∧ s.output.results = []) from hempty)]
        exact ⟨rfl, rfl⟩

/-- What a search has read if it ends at a record of the key. -/
def found (o : ScanOptions) (check : Bool) : Option Entry → KeyRead
  | none => .read [] none
  | some e =>
    if check = false ∨ e.timestamp.LessEq o.ts then .read [] (some (toResult o e))
    else .error (.uncertainty o.ts e.timestamp o.uncertainty.localLimit)

theorem Concludes.applies {check : Bool} {r : Step} {target : Option Entry}
    (h : Block.Reading f o pre b post rest) (hc : Concludes f o check pre b post rest s r target) :
    Applies f o (pre ++ b :: post) rest r (s.output.read o (found o check target)) := by
  cases target with
  | none => exact hc
  | some e =>
    obtain ⟨s', i, hat, he, hcur, hout, rfl⟩ := hc
    unfold conclude found
    dsimp only
    rw [hcur, ← hout]
    by_cases hle : check = false ∨ e.timestamp.LessEq o.ts
    · rw [if_pos hle, if_pos hle]
      have happlies := applies_addAndAdvance h hat (List.getElem?_eq_some_iff.mp he).1
        (toResult o e)
      unfold addCurrent
      rw [hcur]
      exact happlies
    · rw [if_neg hle, if_neg hle]
      exact ⟨rfl, rfl⟩

end Reads

/-- A consistent scan that does not fail on more recent values. -/
structure Consistent (o : ScanOptions) : Prop where
  inconsistent_eq : o.inconsistent = false
  failOnMoreRecent_eq : o.failOnMoreRecent = false
  isGet_eq : o.isGet = false

section Keys

variable {pre post rest : List StoredKey} {s : Scanner}

theorem applies_inline {key : Bytes} {m : MVCCMetadata} {hm : m.rawBytes ≠ []}
    (h : Block.Reading block o pre (.inline key m hm) post rest)
    (hat : At o (Block.recordsOf block (pre ++ .inline key m hm :: post)) s
      (Block.recordsOf block pre).length) :
    Applies block o (pre ++ .inline key m hm :: post) rest (s.getAndAdvance o)
      (s.output.read o ((StoredKey.inline key m hm).readAt o.ts)) := by
  have hcur : s.cur = .metadata key m :=
    (some.inj (h.cur_of_lt (i := 0) hat Nat.zero_lt_one)).symm
  unfold Scanner.getAndAdvance
  rw [hcur]
  dsimp only
  rw [if_pos hm]
  exact applies_addAndAdvance (i := 0) h hat Nat.zero_lt_one _

variable {b : VersionedKey}

section First

variable (h : Block.Reading block o pre (.versioned b) post rest)
  (hat : At o (Block.recordsOf block (pre ++ .versioned b :: post)) s
    (Block.recordsOf block pre).length)
include h hat

theorem records_cur : b.records[0]? = some s.cur :=
  h.cur_of_lt (i := 0) hat (length_pos_of_ne_nil b.records_ne_nil)

theorem getAndAdvance_version (hb : b.intent = none) :
    s.cur = .version b.key b.newest.1 b.newest.2 ∧
      s.getAndAdvance o = s.getVersion o b.newest.1.1 := by
  have hcur : s.cur = .version b.key b.newest.1 b.newest.2 := by
    simpa [records, versions, hb] using (records_cur h hat).symm
  unfold Scanner.getAndAdvance
  rw [hcur]
  exact ⟨rfl, rfl⟩

theorem getAndAdvance_intent {i : Intent} (hb : b.intent = some i) :
    s.cur.key = b.key ∧ s.getAndAdvance o = s.getIntent o i.m i.txn (belowIntent o.ts i) := by
  have hcur : s.cur = .metadata b.key i.m := by
    simpa [records, versions, hb] using (records_cur h hat).symm
  unfold Scanner.getAndAdvance
  rw [hcur]
  dsimp only
  rw [if_neg (not_not.mpr i.rawBytes_eq), i.txn_eq]
  rw [belowIntent_eq]
  exact ⟨rfl, rfl⟩

end First

/-- The reader has no intent of its own on the key. -/
def NoOwnIntent (o : ScanOptions) : StoredKey → Prop
  | .inline _ _ _ => True
  | .versioned b => ∀ i ∈ b.intent, ∀ t ∈ o.txn, t.id ≠ i.txn.id

theorem filter_own (hown : NoOwnIntent o (.versioned b)) {i : Intent} (hb : b.intent = some i) :
    (o.txn.filter fun t => t.id = i.txn.id) = none := by
  rw [filter_eq_none_iff]
  intro t ht
  simpa using hown i hb t ht

/-- A key without an intent whose newest version is visible, or with an intent in the way. -/
theorem applies_below (ho : Consistent o) (hown : NoOwnIntent o (.versioned b))
    (h : Block.Reading block o pre (.versioned b) post rest)
    (hat : At o (Block.recordsOf block (pre ++ .versioned b :: post)) s
      (Block.recordsOf block pre).length) (hle : b.newest.1.1.LessEq o.ts) :
    Applies block o (pre ++ .versioned b :: post) rest (s.getAndAdvance o)
      (s.output.read o ((StoredKey.versioned b).readAt o.ts)) := by
  have hpos : 0 < (StoredKey.versioned b).block.records.length :=
    length_pos_of_ne_nil b.records_ne_nil
  unfold StoredKey.readAt
  dsimp only
  cases hb : b.intent with
  | none =>
    obtain ⟨hcur, hget⟩ := getAndAdvance_version h hat hb
    have hread : b.versionAt o.ts = some b.newest := by
      unfold VersionedKey.versionAt versions
      rw [find?_cons_of_pos (by simpa using hle)]
    have hadd : s.getVersion o b.newest.1.1 = s.addCurrent o := by
      unfold getVersion
      rw [Timestamp.lessEq_iff] at hle
      simp only [ho.failOnMoreRecent_eq, Bool.false_eq_true, if_false, Timestamp.less_iff,
        Timestamp.eqOrdering_iff]
      split_ifs <;> first | rfl | omega
    have happlies := applies_addAndAdvance (i := 0) h hat hpos (toResult o s.cur)
    rw [hget, hadd, hread]
    rw [hcur] at happlies
    unfold addCurrent
    rw [hcur]
    exact happlies
  | some i =>
    obtain ⟨hkey, hget⟩ := getAndAdvance_intent h hat hb
    have hile : i.m.timestamp.LessEq o.ts := b.provisional i hb ▸ hle
    dsimp only
    rw [hget, if_pos hile]
    unfold getIntent
    rw [filter_own hown hb, if_neg (by simp [hile]), ho.inconsistent_eq, hkey]
    change Applies _ _ _ _
      (if 0 < o.maxIntents ∧ o.maxIntents ≤ (s.intents ++ [(b.key, i.m)]).length
      then _ else _) (s.output.note o [(b.key, i.m)])
    unfold Output.note Applies
    by_cases hmax : 0 < o.maxIntents ∧ o.maxIntents ≤ (s.intents ++ [(b.key, i.m)]).length
    · rw [if_pos hmax, if_pos (show 0 < o.maxIntents ∧
        o.maxIntents ≤ (s.output.intents ++ [(b.key, i.m)]).length from hmax)]
      exact ⟨rfl, rfl⟩
    · rw [if_neg hmax, if_neg (show ¬ (0 < o.maxIntents ∧
        o.maxIntents ≤ (s.output.intents ++ [(b.key, i.m)]).length) from hmax)]
      exact h.advanceKey (s := { s with intents := s.intents ++ [(b.key, i.m)] }) (i := 0)
        ⟨hat.entries_eq, hat.cur_eq, hat.pos_eq, hat.reverse_of_peeked⟩ hpos

theorem getAndAdvance_above (ho : Consistent o) (hown : NoOwnIntent o (.versioned b))
    (h : Block.Reading block o pre (.versioned b) post rest)
    (hat : At o (Block.recordsOf block (pre ++ .versioned b :: post)) s
      (Block.recordsOf block pre).length) (hlt : ¬ b.newest.1.1.LessEq o.ts) : s.getAndAdvance o =
      if o.checkUncertainty then
        if o.uncertainty.isUncertain b.newest.1.1 then s.uncertaintyError o b.newest.1.1
        else s.seekVersion o o.uncertainty.globalLimit true else s.seekVersion o o.ts false := by
  cases hb : b.intent with
  | none =>
    rw [(getAndAdvance_version h hat hb).2]
    unfold getVersion
    rw [Timestamp.lessEq_iff] at hlt
    rw [if_neg (by rw [Timestamp.less_iff]; omega),
      if_neg (by rw [Timestamp.eqOrdering_iff]; omega),
      ho.failOnMoreRecent_eq]
    rfl
  | some i =>
    rw [(getAndAdvance_intent h hat hb).2, ← b.provisional i hb]
    rw [← b.provisional i hb] at hlt
    unfold getIntent
    rw [filter_own hown hb, if_pos (by simp [hlt, ho.failOnMoreRecent_eq])]

end Keys

/-- A scan that ended with an uncertainty error. -/
def FailsUncertain (out : Output) : Prop :=
  ∃ readTs existingTs localLimit, out.err = some (.uncertainty readTs existingTs localLimit)

/-- One iteration reads a key as it should: it fails if the key is uncertain. -/
def ReadsKey (o : ScanOptions) (uncertain : StoredKey → Prop) (read : StoredKey → KeyRead)
    (bs : List StoredKey) (k : StoredKey) : Prop :=
  ∀ s rest, Block.AtKey block o bs s k rest →
    ∃ x, Applies block o bs rest (s.getAndAdvance o) (s.output.read o x) ∧
      (uncertain k → FailsUncertain (s.output.read o x).2 ∧ (s.output.read o x).1 = false) ∧
      (¬ uncertain k → x.visible o.tombstones = (read k).visible o.tombstones)

section Loop

variable {bs rest : List StoredKey} {s : Scanner} {uncertain : StoredKey → Prop}
  {read : StoredKey → KeyRead}

/-- What a scan from this output on should end with. -/
structure EndsAs (o : ScanOptions) (uncertain : StoredKey → Prop) (read : StoredKey → KeyRead)
    (keys : List StoredKey) (start out : Output) : Prop where
  fails : (∃ k ∈ reached o read keys start, uncertain k) → FailsUncertain out
  output_eq : (∀ k ∈ reached o read keys start, ¬ uncertain k) → out = runOutput o read keys start

theorem scanLoop_endsAs {k : StoredKey} (hat : Block.AtKey block o bs s k rest)
    (hreads : ∀ c ∈ reached o read (k :: rest) s.output, ReadsKey o uncertain read bs c)
    {fuel : ℕ} (hfuel : rest.length < fuel) :
    ∃ s', scanLoop o fuel s = some s' ∧ EndsAs o uncertain read (k :: rest) s.output s'.output := by
  induction fuel generalizing s k rest with
  | zero => omega
  | succ fuel ih =>
    obtain ⟨x, happlies, hfails, hread⟩ := hreads k mem_cons_self s rest hat
    set r := s.getAndAdvance o with hr
    rw [scanLoop, ← hr]
    by_cases hunc : uncertain k
    · obtain ⟨hfails, hstop⟩ := hfails hunc
      unfold Applies at happlies
      rw [hstop] at happlies
      rw [show r = (false, r.2) from Prod.ext happlies.1 rfl]
      refine ⟨r.2, rfl, fun _ => happlies.2 ▸ hfails, fun hnone => ?_⟩
      exact absurd hunc (hnone k mem_cons_self)
    · rw [Output.read_congr (hread hunc)] at happlies
      unfold Applies at happlies
      by_cases hmore : (s.output.read o (read k)).1 = true
      · rw [if_pos hmore] at happlies
        have hreached : reached o read (k :: rest) s.output =
            k :: reached o read rest (s.output.read o (read k)).2 := by
          rw [reached, if_pos hmore]
        have hrun : runOutput o read (k :: rest) s.output =
            runOutput o read rest (s.output.read o (read k)).2 := by
          rw [runOutput, if_pos hmore]
        cases rest with
        | nil =>
          rw [show r = (false, r.2) from Prod.ext happlies.1 rfl]
          refine ⟨r.2, rfl, ?_, fun _ => happlies.2.trans hrun.symm⟩
          rw [hreached]
          rintro ⟨c, hc, hcunc⟩
          obtain rfl := mem_singleton.mp hc
          exact absurd hcunc hunc
        | cons c rest =>
          obtain ⟨hgo, hat', hout⟩ := happlies
          rw [show r = (true, r.2) from Prod.ext hgo rfl]
          rw [hreached, ← hout] at hreads
          obtain ⟨s', hloop, hends⟩ := ih hat'
            (fun c' hc' => hreads c' (mem_cons_of_mem k hc')) (by simpa using hfuel)
          refine ⟨s', hloop, ?_, ?_⟩
          · rw [hreached, ← hout]
            rintro ⟨c', hc', hcunc⟩
            rcases mem_cons.mp hc' with rfl | hc'
            · exact absurd hcunc hunc
            · exact hends.fails ⟨c', hc', hcunc⟩
          · rw [hreached, hrun, ← hout]
            intro hnone
            exact hends.output_eq fun c' hc' => hnone c' (mem_cons_of_mem k hc')
      · rw [if_neg hmore] at happlies
        rw [show r = (false, r.2) from Prod.ext happlies.1 rfl]
        refine ⟨r.2, rfl, ?_, fun _ => ?_⟩
        · rw [reached, if_neg hmore]
          rintro ⟨c, hc, hcunc⟩
          obtain rfl := mem_singleton.mp hc
          exact absurd hcunc hunc
        · rw [runOutput, if_neg hmore]
          exact happlies.2

theorem runOutput_frame (hread : ∀ k, (read k).error? = none) (keys : List StoredKey)
    (out : Output) : (runOutput o read keys out).err = out.err ∧
      (runOutput o read keys out).mostRecentTS = out.mostRecentTS := by
  induction keys generalizing out with
  | nil => exact ⟨rfl, rfl⟩
  | cons k keys ih =>
    have hstep : (out.read o (read k)).2.err = out.err ∧
        (out.read o (read k)).2.mostRecentTS = out.mostRecentTS := by
      cases hk : read k with
      | error e =>
        have hnone := hread k
        rw [hk] at hnone
        cases hnone
      | read intents r => exact Output.read_frame intents r out
    rw [runOutput]
    split_ifs
    · obtain ⟨herr, hrecent⟩ := ih (out.read o (read k)).2
      exact ⟨herr.trans hstep.1, hrecent.trans hstep.2⟩
    · exact hstep

/-- A scan of the keys of a span, in reading order. -/
theorem scan_endsAs (hread : ∀ k, (read k).error? = none) (hbs : Block.Sorted block bs)
    (hspan : InSpan o (Block.recordsOf block bs)) {iters : ℕ} (hpos : 1 ≤ iters)
    (hle : iters ≤ maxItersBeforeSeek)
    (hreads : ∀ c ∈ reached o read (if o.reverse then bs.reverse else bs)
      (init (Block.recordsOf block bs) iters hpos hle).output, ReadsKey o uncertain read bs c)
    {fuel : ℕ} (hfuel : bs.length ≤ fuel) :
    ∃ s, scan o fuel (init (Block.recordsOf block bs) iters hpos hle) = some s ∧
      EndsAs o uncertain read (if o.reverse then bs.reverse else bs)
        (init (Block.recordsOf block bs) iters hpos hle).output s.output := by
  set s₀ := init (Block.recordsOf block bs) iters hpos hle
  have hfirst := Block.advances_first (f := block) (o := o) (s := s₀) hbs hspan rfl rfl
  have hlen : (if o.reverse then bs.reverse else bs).length = bs.length := by
    split_ifs <;> simp
  unfold scan
  set first := if o.reverse then s₀.iterSeekReverse o ⟨o.stop, .empty⟩
    else s₀.iterSeek o ⟨o.start, .empty⟩
  cases horder : (if o.reverse then bs.reverse else bs) with
  | nil =>
    rw [horder] at hfirst
    rw [show first = (false, first.2) from Prod.ext hfirst.1 rfl]
    refine ⟨first.2, rfl, ?_, fun _ => hfirst.2⟩
    rintro ⟨k, hk, -⟩
    cases hk
  | cons k rest =>
    rw [horder] at hfirst hlen hreads
    obtain ⟨hgo, hat, hout⟩ := hfirst
    rw [show first = (true, first.2) from Prod.ext hgo rfl, ← hout]
    rw [← hout] at hreads
    obtain ⟨s', hloop, hends⟩ := scanLoop_endsAs hat hreads
      (show rest.length < fuel by rw [length_cons] at hlen; omega)
    have hkeep : maybeFailOnMoreRecent o s' = s' := by
      refine if_pos ?_
      by_cases hex : ∃ c ∈ reached o read (k :: rest) first.2.output, uncertain c
      · obtain ⟨r, e, l, herr⟩ := hends.fails hex
        left
        rw [show s'.err = s'.output.err from rfl, herr]
        rfl
      · right
        have heq := hends.output_eq fun c hc hunc => hex ⟨c, hc, hunc⟩
        have hrecent := (runOutput_frame (o := o) hread (k :: rest) first.2.output).2
        rw [← heq, hout] at hrecent
        exact hrecent
    refine ⟨s', ?_, hends⟩
    dsimp only
    rw [hloop, map_some, hkeep]

end Loop

end Scanner

end Cockroach.Storage
