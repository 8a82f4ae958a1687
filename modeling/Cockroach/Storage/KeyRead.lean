import Cockroach.Storage.VersionedKey
import Cockroach.Storage.VersionSearch

/-! What the scanner reads of one key. -/
namespace Cockroach.Storage
open ByteOrder Hlc List
open VersionedKey (records versions)

namespace Scanner

/-- The output with a result added, unless it is a tombstone that is not asked for. -/
def Output.emit (o : ScanOptions) (r : ScanResult) (out : Output) : Output :=
  if r.value = [] ∧ o.tombstones = false then out
  else { out with
    results := out.results ++ [r]
    bytes := out.bytes + sizeOfResult r
    resumeReason := if 0 < o.maxKeys then some .keyLimit else out.resumeReason }

def Output.emitResult (o : ScanOptions) (r : Option ScanResult) (out : Output) : Output :=
  match r with
  | none => out
  | some r => out.emit o r

def toResult (o : ScanOptions) (e : Entry) : ScanResult := ⟨e.key, e.timestamp, curValue o e⟩

def Output.emitEntry (o : ScanOptions) (e : Option Entry) (out : Output) : Output :=
  out.emitResult o (e.map (toResult o))

/-- No limit is in the way of a result: there is none, or this is the read of a single key. -/
def Room (o : ScanOptions) (rest : List VersionedKey) (out : Output) : Prop :=
  o.targetBytes = 0 ∧ (o.maxKeys = 0 ∨ o.maxKeys = 1 ∧ out.results = [] ∧ rest = [])

variable {o : ScanOptions} {pre post rest : List VersionedKey} {b : VersionedKey} {s : Scanner}
  {i : ℕ}

theorem Reading.addAndAdvance (h : Reading o pre b post rest) (hroom : Room o rest s.output)
    (hat : At o (recordsOf (pre ++ b :: post)) s ((recordsOf pre).length + i))
    (hi : i < b.records.length) (r : ScanResult) :
    Advances o (pre ++ b :: post) rest (s.addAndAdvance o r) (s.output.emit o r) := by
  unfold Scanner.addAndAdvance Output.emit
  by_cases htomb : r.value = [] ∧ o.tombstones = false
  · rw [if_pos htomb, if_pos htomb]
    exact h.advanceKey hat hi
  rw [if_neg htomb, if_neg htomb]
  obtain ⟨hbytes, hkeys⟩ := hroom
  have hlimit : limitReached o r s = none := by
    unfold limitReached
    rw [if_neg (by omega), if_neg]
    rcases hkeys with h0 | ⟨h1, hres, -⟩
    · omega
    · rw [show s.results = [] from hres, length_nil]
      omega
  rw [hlimit]
  unfold addAndAdvance.add
  rcases hkeys with h0 | ⟨h1, -, hrest⟩
  · rw [if_neg (by omega), if_neg (by omega)]
    exact h.advanceKey (s := { s with
      results := s.results ++ [r], bytes := s.bytes + sizeOfResult r })
      ⟨hat.entries_eq, hat.cur_eq, hat.pos_eq, hat.reverse_of_peeked⟩ hi
  · rw [if_pos (by simp [h1]), if_pos (by omega), hrest]
    exact ⟨rfl, rfl⟩

theorem Reading.addCurrent (h : Reading o pre b post rest) (hroom : Room o rest s.output)
    (hat : At o (recordsOf (pre ++ b :: post)) s ((recordsOf pre).length + i))
    (hi : i < b.records.length) : Advances o (pre ++ b :: post) rest (s.addCurrent o)
      (s.output.emitEntry o b.records[i]?) := by
  have hcur : b.records[i]? = some s.cur := h.toBlock.cur_of_lt hat hi
  rw [hcur]
  exact h.addAndAdvance hroom hat hi _

/-- The record that stepping through the older records of a key finds. -/
def stepTarget (b : VersionedKey) (ts : Timestamp) : Option Entry :=
  b.records.tail.find? fun e => e.timestamp.LessEq ts

/-- The record of the key on which a seek lands. -/
def seekTarget (b : VersionedKey) (ts : Timestamp) : Option Entry :=
  b.records.find? fun e => !Entry.before ⟨b.key, ts⟩ e

/-- The record that is read from the record with index `i` on: stepping is given up after `count`
records. -/
def targetFrom (count i : ℕ) (b : VersionedKey) (ts : Timestamp) : Option Entry :=
  if b.records.length ≤ count ∨
      ∃ e ∈ (b.records.drop (i + 1)).take (count - i), e.timestamp.LessEq ts then
    (b.records.drop (i + 1)).find? fun e => e.timestamp.LessEq ts
  else seekTarget b ts

def versionTarget (count : ℕ) (b : VersionedKey) (ts : Timestamp) : Option Entry :=
  targetFrom count 0 b ts

variable {r : Step}

theorem Reading.of_concludes (h : Reading o pre b post rest) (hroom : Room o rest s.output)
    {target : Option Entry} (hr : Concludes VersionedKey.block o false pre b post rest s r target) :
    Advances o (pre ++ b :: post) rest r (s.output.emitEntry o target) := by
  cases target with
  | none => exact advances_iff.mpr hr
  | some e =>
    obtain ⟨s', i, hat, he, -, hout, rfl⟩ := hr
    have he' : b.records[i]? = some e := he
    have hadd := h.addCurrent (s := s') (by rwa [hout]) hat (List.getElem?_eq_some_iff.mp he').1
    rwa [he', hout] at hadd

theorem find?_halts_false (ts : Timestamp) :
    (b.records.dropWhile (Entry.before ⟨b.key, ts⟩)).find? (halts o false) = seekTarget b ts := by
  rw [seekTarget, find?_eq_head?_dropWhile_not _ b.records]
  simp only [Bool.not_not]
  cases b.records.dropWhile (Entry.before ⟨b.key, ts⟩) with
  | nil => rfl
  | cons e found => exact find?_cons_of_pos (by simp [halts])

theorem Reading.seekVersionAt (h : Reading o pre b post rest) (hroom : Room o rest s.output)
    {n : ℕ} (hat : At o (recordsOf (pre ++ b :: post)) s n) (ts : Timestamp) :
    Advances o (pre ++ b :: post) rest (s.seekVersionAt o b.key ts false)
      (s.output.emitEntry o (seekTarget b ts)) := by
  rw [← find?_halts_false]
  exact h.of_concludes hroom (h.toBlock.seekVersionAt hat)

variable {count : ℕ}

theorem targetFrom_of_ge (hi : i < b.records.length) (hcount : count ≤ i) (ts : Timestamp) :
    targetFrom count i b ts = seekTarget b ts := by
  unfold targetFrom
  rw [if_neg]
  rintro (hlen | ⟨e, he, -⟩)
  · omega
  · rw [show count - i = 0 by omega] at he
    cases he

theorem targetFrom_last (hi : i < count) (hlast : i + 1 = b.records.length) (ts : Timestamp) :
    targetFrom count i b ts = none := by
  unfold targetFrom
  rw [if_pos (.inl (by omega)), drop_of_length_le (by omega)]
  rfl

variable {e : Entry} {ts : Timestamp}

theorem targetFrom_found (hi : i < count) (he : b.records[i + 1]? = some e)
    (hle : e.timestamp.LessEq ts) : targetFrom count i b ts = some e := by
  obtain ⟨hlt, rfl⟩ := List.getElem?_eq_some_iff.mp he
  unfold targetFrom
  rw [drop_eq_getElem_cons hlt, show count - i = (count - i - 1) + 1 by omega,
    if_pos (.inr ⟨_, mem_cons_self, hle⟩), find?_cons_of_pos (by simpa using hle)]

theorem targetFrom_passed (hi : i < count) (he : b.records[i + 1]? = some e)
    (hle : ¬ e.timestamp.LessEq ts) : targetFrom count i b ts = targetFrom count (i + 1) b ts := by
  obtain ⟨hlt, rfl⟩ := List.getElem?_eq_some_iff.mp he
  unfold targetFrom
  rw [drop_eq_getElem_cons hlt, show count - i = (count - (i + 1)) + 1 by omega,
    take_succ_cons, find?_cons_of_neg (by simpa using hle)]
  simp only [exists_mem_cons_iff, hle, false_or]

/-- The loop reads the target, from the record with index `i` on. -/
theorem Reading.seekVersionLoop (h : Reading o pre b post rest) (ts : Timestamp) (m : ℕ)
    (hm : m + i = maxItersBeforeSeek) (hroom : Room o rest s.output)
    (hat : At o (recordsOf (pre ++ b :: post)) s ((recordsOf pre).length + i))
    (hi : i < b.records.length) (hle : i ≤ s.itersBeforeSeek) :
    Advances o (pre ++ b :: post) rest (Scanner.seekVersionLoop o b.key ts false m i s)
      (s.output.emitEntry o (targetFrom s.itersBeforeSeek i b ts)) := by
  have hs := split_recordsOf h.sorted
  induction m generalizing s i with
  | zero =>
    have hmax := s.iters_le
    rw [targetFrom_of_ge hi (by omega)]
    exact h.seekVersionAt hroom hat ts
  | succ m ih =>
    rw [Scanner.seekVersionLoop]
    by_cases hstep : i < s.itersBeforeSeek
    swap
    · rw [if_neg hstep, targetFrom_of_ge hi (by omega)]
      exact h.seekVersionAt hroom hat ts
    rw [if_pos hstep]
    rcases h.toBlock.iterNext hat hi with ⟨s', hnext, hout, hiters, hat'⟩ | ⟨s', hnext, hlast, hadv⟩
    swap
    · rw [hnext, targetFrom_last hstep hlast]
      exact advances_iff.mpr hadv
    rw [hnext]
    dsimp only
    by_cases hi' : i + 1 < b.records.length
    · have hcur := h.toBlock.cur_of_lt hat' hi'
      rw [if_neg (not_not.mpr (hs.key_of_lt hi' hat'.cur_eq))]
      by_cases hcurle : s'.cur.timestamp.LessEq ts
      · rw [if_pos hcurle, targetFrom_found hstep hcur hcurle]
        exact h.of_concludes hroom
          ⟨s'.incrementItersBeforeSeek, i + 1, hat'.increment, hcur, rfl, hout, rfl⟩
      · rw [if_neg hcurle, targetFrom_passed hstep hcur hcurle, ← hiters, ← hout]
        exact ih (by omega) (by rwa [hout]) hat' hi' (by omega)
    · have hlast : i + 1 = b.records.length := by
        omega
      rw [if_pos (hs.key_ne_of_ge hlast.ge hat'.cur_eq), targetFrom_last hstep hlast]
      rw [hlast] at hat'
      have hadv := h.advanceKeyAtNewKey hat'.increment
      rwa [show s'.incrementItersBeforeSeek.output = _ from hout] at hadv

theorem Reading.seekVersion (h : Reading o pre b post rest) (hroom : Room o rest s.output)
    (hat : At o (recordsOf (pre ++ b :: post)) s (recordsOf pre).length) (ts : Timestamp) :
    Advances o (pre ++ b :: post) rest (s.seekVersion o ts false)
      (s.output.emitEntry o (versionTarget s.itersBeforeSeek b ts)) := by
  have hpos := length_pos_of_ne_nil b.records_ne_nil
  have hkey := (split_recordsOf h.sorted).key_of_lt (i := 0) hpos hat.cur_eq
  unfold Scanner.seekVersion
  rw [hkey]
  exact h.seekVersionLoop ts maxItersBeforeSeek rfl hroom hat hpos (Nat.zero_le _)

/-- What comes of reading one key: an error, or the intents to report and the value found. -/
inductive KeyRead where
  | error (e : ScanError)
  | read (intents : List (Bytes × MVCCMetadata)) (r : Option ScanResult)
deriving DecidableEq

/-- The timestamp at which a read looks below an intent. -/
def belowIntent (ts : Timestamp) (i : Intent) : Timestamp :=
  if i.m.timestamp.LessEq ts then i.m.timestamp.prev.getD .empty else ts

/-- The read of a key with an intent of the reading transaction. -/
def readOwnIntent (o : ScanOptions) (count : ℕ) (b : VersionedKey) (i : Intent) (t : Transaction) :
    KeyRead :=
  let below := (versionTarget count b (belowIntent o.ts i)).map (toResult o)
  if t.epoch = i.txn.epoch then
    if t.sequence ≥ i.txn.sequence ∧ txnSeqIsIgnored i.txn.sequence t.ignoredSeqNums = false then
      .read [] (some ⟨b.key, i.m.timestamp, b.newest.2⟩)
    else
      match getFromIntentHistory i.m t.sequence t.ignoredSeqNums with
      | some value => .read [] (some ⟨b.key, i.m.timestamp, value⟩)
      | none => .read [] below
  else if t.epoch < i.txn.epoch then .error (.epoch t.epoch i.txn.epoch)
  else .read [] below

/-- What the scanner reads of a key if it may step over `count` records. -/
def readKey (o : ScanOptions) (count : ℕ) (b : VersionedKey) : KeyRead :=
  match b.intent with
  | none =>
    if b.newest.1.1.LessEq o.ts then .read [] (some ⟨b.key, b.newest.1.1, b.newest.2⟩)
    else .read [] ((versionTarget count b o.ts).map (toResult o))
  | some i =>
    let own := o.txn.filter fun t => t.id = i.txn.id
    if own.isNone ∧ ¬ i.m.timestamp.LessEq o.ts then
      .read [] ((versionTarget count b o.ts).map (toResult o))
    else if o.inconsistent then
      .read [(b.key, i.m)] ((versionTarget count b (belowIntent o.ts i)).map (toResult o))
    else
      match own with
      | none => .read [(b.key, i.m)] none
      | some t => readOwnIntent o count b i t

/-- The reader does not look above its timestamp and reports every intent. -/
structure Plain (o : ScanOptions) : Prop where
  failOnMoreRecent_eq : o.failOnMoreRecent = false
  checkUncertainty_eq : o.checkUncertainty = false
  maxIntents_eq : o.maxIntents = 0

/-- The step that reads a key: it fails, or it adds what was read and goes on. -/
def Reads (o : ScanOptions) (bs rest : List VersionedKey) (s : Scanner) (r : Step) :
    KeyRead → Prop
  | .error e => r.1 = false ∧ r.2.output = { s.output with err := some e }
  | .read intents x => Advances o bs rest r
      (({ s.output with intents := s.output.intents ++ intents } : Output).emitResult o x)

theorem reads_nil {bs : List VersionedKey} {x : Option ScanResult}
    (h : Advances o bs rest r (s.output.emitResult o x)) : Reads o bs rest s r (.read [] x) := by
  dsimp only [Reads]
  rwa [append_nil]

theorem getVersion_eq (hplain : Plain o) (ts : Timestamp) : s.getVersion o ts =
    if ts.LessEq o.ts then s.addCurrent o else s.seekVersion o o.ts false := by
  unfold Scanner.getVersion
  simp only [hplain.failOnMoreRecent_eq, hplain.checkUncertainty_eq, Bool.false_eq_true, if_false,
    Timestamp.less_iff, Timestamp.eqOrdering_iff, Timestamp.lessEq_iff]
  split_ifs <;> first | rfl | omega

theorem Reading.getVersion (h : Reading o pre b post rest) (hplain : Plain o)
    (hroom : Room o rest s.output)
    (hat : At o (recordsOf (pre ++ b :: post)) s (recordsOf pre).length) (hb : b.intent = none) :
    Reads o (pre ++ b :: post) rest s (s.getVersion o b.newest.1.1)
      (readKey o s.itersBeforeSeek b) := by
  have hpos := length_pos_of_ne_nil b.records_ne_nil
  have hfirst : b.records[0]? = some (.version b.key b.newest.1 b.newest.2) := by
    simp [records, versions, hb]
  unfold readKey
  rw [getVersion_eq hplain, hb]
  dsimp only
  split_ifs with hle
  · have hadd := h.addCurrent (i := 0) hroom hat hpos
    rw [hfirst] at hadd
    exact reads_nil hadd
  · exact reads_nil (h.seekVersion hroom hat o.ts)

theorem versionTarget_provisional (hcount : 1 ≤ count) {i : Intent} (hb : b.intent = some i) :
    versionTarget count b i.m.timestamp = some (.version b.key b.newest.1 b.newest.2) := by
  refine targetFrom_found hcount ?_ ?_
  · simp [records, versions, hb]
  · rw [b.provisional i hb, Timestamp.lessEq_iff]
    exact le_rfl

theorem belowIntent_eq (ts : Timestamp) (i : Intent) :
    (if i.m.timestamp.LessEq ts then i.m.timestamp.prev else some ts) =
      some (belowIntent ts i) := by
  unfold belowIntent
  split_ifs
  · obtain ⟨t, ht⟩ := Timestamp.exists_prev i.ticks_pos
    rw [ht, Option.getD_some]
  · rfl

theorem Reading.getOwnIntent (h : Reading o pre b post rest) (hroom : Room o rest s.output)
    (hat : At o (recordsOf (pre ++ b :: post)) s (recordsOf pre).length) {i : Intent}
    (hb : b.intent = some i) (t : Transaction) :
    Reads o (pre ++ b :: post) rest s (s.getOwnIntent o t i.m i.txn (belowIntent o.ts i))
      (readOwnIntent o s.itersBeforeSeek b i t) := by
  have hpos := length_pos_of_ne_nil b.records_ne_nil
  have hkey := (split_recordsOf h.sorted).key_of_lt (i := 0) hpos hat.cur_eq
  have hbelow := h.seekVersion hroom hat (belowIntent o.ts i)
  unfold Scanner.getOwnIntent readOwnIntent
  split_ifs with hepoch hprov hlt
  · have hseek := h.seekVersion hroom hat i.m.timestamp
    rw [versionTarget_provisional s.iters_pos hb] at hseek
    apply reads_nil
    rw [b.provisional i hb] at hseek ⊢
    exact hseek
  · cases hhist : getFromIntentHistory i.m t.sequence t.ignoredSeqNums with
    | some value =>
      rw [hkey]
      exact reads_nil (h.addAndAdvance (i := 0) hroom hat hpos _)
    | none => exact reads_nil hbelow
  · exact ⟨rfl, rfl⟩
  · exact reads_nil hbelow

/-- One iteration of the scan reads the current key. -/
theorem Reading.getAndAdvance (h : Reading o pre b post rest) (hplain : Plain o)
    (hroom : Room o rest s.output)
    (hat : At o (recordsOf (pre ++ b :: post)) s (recordsOf pre).length) :
    Reads o (pre ++ b :: post) rest s (s.getAndAdvance o) (readKey o s.itersBeforeSeek b) := by
  have hpos := length_pos_of_ne_nil b.records_ne_nil
  have hcur : b.records[0]? = some s.cur := h.toBlock.cur_of_lt hat hpos
  have hkey := (split_recordsOf h.sorted).key_of_lt (i := 0) hpos hat.cur_eq
  cases hb : b.intent with
  | none =>
    have hrec : s.cur = .version b.key b.newest.1 b.newest.2 := by
      simpa [records, versions, hb] using hcur.symm
    unfold Scanner.getAndAdvance
    rw [hrec]
    exact h.getVersion hplain hroom hat hb
  | some i =>
    have hrec : s.cur = .metadata b.key i.m := by
      simpa [records, versions, hb] using hcur.symm
    unfold Scanner.getAndAdvance
    rw [hrec]
    dsimp only
    rw [if_neg (not_not.mpr i.rawBytes_eq), i.txn_eq]
    rw [belowIntent_eq]
    unfold Scanner.getIntent readKey
    rw [hb, hplain.failOnMoreRecent_eq, hplain.checkUncertainty_eq, hplain.maxIntents_eq, hkey]
    simp only [Bool.or_false, decide_eq_false_iff_not, Bool.false_eq_true, if_false,
      lt_self_iff_false, false_and]
    have hnoted : At o (recordsOf (pre ++ b :: post))
        { s with intents := s.intents ++ [(b.key, i.m)] }
        (recordsOf pre).length :=
      ⟨hat.entries_eq, hat.cur_eq, hat.pos_eq, hat.reverse_of_peeked⟩
    split_ifs with hforeign hinc
    · exact reads_nil (h.seekVersion hroom hat o.ts)
    · exact h.seekVersion (s := { s with intents := s.intents ++ [(b.key, i.m)] }) hroom hnoted _
    · cases o.txn.filter fun t => t.id = i.txn.id with
      | none => exact h.advanceKey (i := 0) hnoted hpos
      | some t => exact h.getOwnIntent hroom hat hb t

end Scanner
end Cockroach.Storage
