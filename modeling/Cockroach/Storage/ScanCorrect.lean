import Cockroach.Storage.ScanReference

/-! The scan of a span against the reads of its keys. -/
namespace Cockroach.Storage
open ByteOrder Hlc Scanner List Option

namespace Scanner

/-- What a scan reports in the end. -/
inductive ScanOutcome where
  | error (e : ScanError)
  | writeIntent (intents : List (Bytes × MVCCMetadata))
  | results (results : List ScanResult) (resumeReason : Option ResumeReason)
deriving DecidableEq

def Output.outcome (out : Output) : ScanOutcome :=
  match out.err with
  | some e => .error e
  | none =>
    if out.intents = [] then .results out.results out.resumeReason else .writeIntent out.intents

namespace KeyRead

def error? : KeyRead → Option ScanError
  | .error e => some e
  | .read _ _ => none

def intents : KeyRead → List (Bytes × MVCCMetadata)
  | .error _ => []
  | .read intents _ => intents

def results (tombstones : Bool) : KeyRead → List ScanResult
  | .error _ => []
  | .read _ r => (shown tombstones r).toList

/-- The read with a tombstone that is not asked for taken out. -/
def visible (tombstones : Bool) : KeyRead → KeyRead
  | .error e => .error e
  | .read intents r => .read intents (shown tombstones r)

/-- The effect of a read on the output of a scan. -/
def effect (o : ScanOptions) (out : Output) : KeyRead → Output
  | .error e => { out with err := some e }
  | .read intents r =>
    ({ out with intents := out.intents ++ intents } : Output).emitResult o r

end KeyRead

/-- The reads of several keys in a row, up to the first error. -/
def runReads (o : ScanOptions) : List KeyRead → Output → Output
  | [], out => out
  | r :: reads, out =>
    if r.error?.isSome then r.effect o out else runReads o reads (r.effect o out)

/-- The outcome of the reads: the first error, the intents in the way or the values. -/
def outcomeOf (tombstones : Bool) (reads : List KeyRead) : ScanOutcome :=
  match reads.filterMap KeyRead.error? with
  | e :: _ => .error e
  | [] =>
    if reads.flatMap KeyRead.intents = [] then
      .results (reads.flatMap (KeyRead.results tombstones)) none
    else .writeIntent (reads.flatMap KeyRead.intents)

variable {o : ScanOptions}

theorem Output.emit_of_not_shown {r : ScanResult} (h : ¬ Shown o.tombstones r.value)
    (out : Output) : out.emit o r = out := by
  unfold Shown at h
  exact if_pos (by simpa using h)

theorem Output.emit_of_shown {r : ScanResult} (h : Shown o.tombstones r.value)
    (hmax : o.maxKeys = 0) (out : Output) :
    out.emit o r =
      { out with results := out.results ++ [r], bytes := out.bytes + sizeOfResult r } := by
  unfold Shown at h
  have hnot : ¬ (r.value = [] ∧ o.tombstones = false) := by
    rw [not_and_or]
    simpa using h
  simp [Output.emit, hnot, hmax]

theorem Output.emitResult_shown (r : Option ScanResult) (out : Output) :
    out.emitResult o (shown o.tombstones r) = out.emitResult o r := by
  cases r with
  | none => rfl
  | some r =>
    rw [shown_some]
    split_ifs with h
    · rfl
    · exact (Output.emit_of_not_shown h out).symm

theorem KeyRead.effect_visible (out : Output) (r : KeyRead) :
    (r.visible o.tombstones).effect o out = r.effect o out := by
  cases r with
  | error e => rfl
  | read intents r => exact Output.emitResult_shown r _

@[simp] theorem KeyRead.error?_visible (tombstones : Bool) (r : KeyRead) :
    (r.visible tombstones).error? = r.error? := by
  cases r <;> rfl

theorem KeyRead.effect_congr {r r' : KeyRead}
    (h : r.visible o.tombstones = r'.visible o.tombstones) (out : Output) :
    r.effect o out = r'.effect o out ∧ r.error? = r'.error? := by
  constructor
  · rw [← effect_visible out r, h, effect_visible]
  · rw [← error?_visible o.tombstones r, h, error?_visible]

theorem KeyRead.effect_read (hmax : o.maxKeys = 0) (out : Output)
    (intents : List (Bytes × MVCCMetadata)) (r : Option ScanResult) :
    (KeyRead.read intents r).effect o out = { out with
      intents := out.intents ++ intents
      results := out.results ++ (shown o.tombstones r).toList
      bytes := out.bytes + ((shown o.tombstones r).toList.map sizeOfResult).sum } := by
  unfold effect Output.emitResult
  cases r with
  | none => simp [shown]
  | some r =>
    dsimp only
    rw [shown_some]
    split_ifs with h
    · rw [Output.emit_of_shown h hmax]
      simp
    · rw [Output.emit_of_not_shown h]
      simp

theorem outcome_runReads (hmax : o.maxKeys = 0) (reads : List KeyRead) (out : Output)
    (herr : out.err = none) : (runReads o reads out).outcome =
      match reads.filterMap KeyRead.error? with
      | e :: _ => .error e
      | [] =>
        if out.intents ++ reads.flatMap KeyRead.intents = [] then
          .results (out.results ++ reads.flatMap (KeyRead.results o.tombstones)) out.resumeReason
        else .writeIntent (out.intents ++ reads.flatMap KeyRead.intents) := by
  induction reads generalizing out with
  | nil => by_cases h : out.intents = [] <;> simp [runReads, Output.outcome, herr, h]
  | cons r reads ih =>
    cases r with
    | error e => rfl
    | read intents r =>
      rw [runReads, if_neg (by simp [KeyRead.error?]), KeyRead.effect_read hmax, ih]
      · simp only [append_assoc]
        rfl
      · exact herr

theorem mostRecentTS_runReads (reads : List KeyRead) (out : Output) :
    (runReads o reads out).mostRecentTS = out.mostRecentTS := by
  have heffect : ∀ (r : KeyRead) (out : Output),
      (r.effect o out).mostRecentTS = out.mostRecentTS := by
    intro r out
    cases r with
    | error e => rfl
    | read intents x =>
      cases x with
      | none => rfl
      | some x =>
        change (Output.emit o x _).mostRecentTS = _
        unfold Output.emit
        by_cases h : x.value = [] ∧ o.tombstones = false
        · rw [if_pos h]
        · rw [if_neg h]
  induction reads generalizing out with
  | nil => rfl
  | cons r reads ih =>
    rw [runReads]
    split_ifs
    · exact heffect r out
    · rw [ih, heffect]

/-- What the options of an unlimited consistent scan have in common. -/
structure Unlimited (o : ScanOptions) : Prop extends Plain o where
  maxKeys_eq : o.maxKeys = 0
  targetBytes_eq : o.targetBytes = 0
  isGet_eq : o.isGet = false
  inconsistent_eq : o.inconsistent = false

theorem Unlimited.withSpan (h : Unlimited o) (reverse : Bool) (start stop : Bytes) :
    Unlimited { o with reverse, start, stop } :=
  { failOnMoreRecent_eq := h.failOnMoreRecent_eq, checkUncertainty_eq := h.checkUncertainty_eq
    maxIntents_eq := h.maxIntents_eq, maxKeys_eq := h.maxKeys_eq
    targetBytes_eq := h.targetBytes_eq, isGet_eq := h.isGet_eq
    inconsistent_eq := h.inconsistent_eq }

variable {bs rest : List VersionedKey} {b : VersionedKey} {s : Scanner}

theorem getAndAdvance_spec (ho : Unlimited o) (hbs : KeysSorted bs)
    (hspan : InSpan o (recordsOf bs)) (hat : AtKey o bs s b rest) : ∃ s', s.getAndAdvance o =
      (((readKey o s.itersBeforeSeek b).error?.isNone && !rest.isEmpty), s') ∧
      s'.output = (readKey o s.itersBeforeSeek b).effect o s.output ∧
      ∀ b' rest', rest = b' :: rest' →
        (readKey o s.itersBeforeSeek b).error? = none → AtKey o bs s' b' rest' := by
  obtain ⟨pre, post, rfl, hrest, hat⟩ := hat
  have hreading : Reading o pre b post rest :=
    ⟨hbs, hspan, hrest, fun h => absurd (h.symm.trans ho.isGet_eq) (by simp)⟩
  have hreads := hreading.getAndAdvance ho.toPlain ⟨ho.targetBytes_eq, .inl ho.maxKeys_eq⟩ hat
  cases hr : readKey o s.itersBeforeSeek b with
  | error e =>
    rw [hr] at hreads
    refine ⟨(s.getAndAdvance o).2, Prod.ext hreads.1 rfl, hreads.2, ?_⟩
    intro b' rest' _ hnone
    cases hnone
  | read intents x =>
    rw [hr] at hreads
    cases rest with
    | nil =>
      refine ⟨(s.getAndAdvance o).2, Prod.ext hreads.1 rfl, hreads.2, ?_⟩
      intro b' rest' heq
      cases heq
    | cons c rest =>
      refine ⟨(s.getAndAdvance o).2, Prod.ext hreads.1 rfl, hreads.2.2, ?_⟩
      rintro b' rest' ⟨⟩ _
      exact hreads.2.1

theorem scanLoop_spec (ho : Unlimited o) (hbs : KeysSorted bs) (hspan : InSpan o (recordsOf bs))
    (read : VersionedKey → KeyRead) (hat : AtKey o bs s b rest)
    (hagree : ∀ c ∈ b :: rest, ∀ count, 1 ≤ count →
      (readKey o count c).visible o.tombstones = (read c).visible o.tombstones)
    {fuel : ℕ} (hfuel : rest.length < fuel) :
    ∃ s', scanLoop o fuel s = some s' ∧ s'.output = runReads o ((b :: rest).map read) s.output := by
  induction fuel generalizing s b rest with
  | zero => omega
  | succ fuel ih =>
    obtain ⟨s', hstep, hout, hnext⟩ := getAndAdvance_spec ho hbs hspan hat
    obtain ⟨heffect, herror⟩ := KeyRead.effect_congr (hagree b mem_cons_self
      s.itersBeforeSeek s.iters_pos) s.output
    rw [scanLoop, hstep, map_cons, runReads]
    rw [heffect] at hout
    rw [herror] at hnext ⊢
    cases herr : (read b).error? with
    | some e => exact ⟨s', rfl, hout⟩
    | none =>
      cases rest with
      | nil => exact ⟨s', rfl, hout⟩
      | cons c rest =>
        have hat' := hnext c rest rfl herr
        obtain ⟨s'', hloop, hout'⟩ := ih hat' (fun c' hc' => hagree c' (mem_cons_of_mem b hc'))
          (by simpa using hfuel)
        refine ⟨s'', hloop, ?_⟩
        rw [hout', hout]
        rfl

theorem itersBeforeSeek_iterSeek (o : ScanOptions) (k : MVCCKey) (s : Scanner) :
    (s.iterSeek o k).2.itersBeforeSeek = s.itersBeforeSeek := by
  have hupdate : ∀ s : Scanner, (updateCurrent s).2.itersBeforeSeek = s.itersBeforeSeek := by
    intro s
    unfold updateCurrent
    split <;> rfl
  have hclear : (s.clearPeeked o).itersBeforeSeek = s.itersBeforeSeek := by
    unfold clearPeeked
    split_ifs <;> rfl
  exact (hupdate _).trans hclear

theorem maybeFailOnMoreRecent_eq (h : s.mostRecentTS.IsEmpty) : maybeFailOnMoreRecent o s = s :=
  if_pos (.inr h)

end Scanner

/-- The keys of a range, as far as it can be read by timestamp. -/
structure Store where
  keys : List VersionedKey
  sorted : KeysSorted keys
  ticks_pos : ∀ b ∈ keys, ∀ v ∈ b.versions, 0 < v.1.1.ticks

namespace Store

def span (st : Store) (start stop : Bytes) : List VersionedKey :=
  st.keys.filter fun b => bytesCompare b.key start ≠ .lt ∧ bytesCompare b.key stop = .lt

theorem keysSorted_span (st : Store) (start stop : Bytes) : KeysSorted (st.span start stop) :=
  st.sorted.filter _

theorem mem_span {st : Store} {start stop : Bytes} {b : VersionedKey} : b ∈ st.span start stop ↔
      b ∈ st.keys ∧ bytesCompare b.key start ≠ .lt ∧ bytesCompare b.key stop = .lt := by
  simp [span]

theorem inSpan (st : Store) (o : ScanOptions) : InSpan o (recordsOf (st.span o.start o.stop)) := by
  constructor
  · intro e he
    obtain ⟨b, hb, heb⟩ := mem_recordsOf.mp he
    rw [← Bool.not_eq_true, Entry.before_empty, VersionedKey.key_of_mem_records heb]
    exact (mem_span.mp hb).2.1
  · intro _ e he
    obtain ⟨b, hb, heb⟩ := mem_recordsOf.mp he
    rw [Entry.before_empty, VersionedKey.key_of_mem_records heb]
    exact (mem_span.mp hb).2.2

end Store

namespace Scanner

variable {o : ScanOptions}

/-- The keys of a span in the order in which they are read. -/
def readingOrder (o : ScanOptions) (bs : List VersionedKey) : List VersionedKey :=
  if o.reverse then bs.reverse else bs

/-- The first move of a scan, to the key that is read first. -/
def seekFirst (o : ScanOptions) (s : Scanner) : Step :=
  if o.reverse then s.iterSeekReverse o ⟨o.stop, .empty⟩ else s.iterSeek o ⟨o.start, .empty⟩

theorem seekFirst_spec {bs : List VersionedKey} (hbs : KeysSorted bs)
    (hspan : InSpan o (recordsOf bs)) {s : Scanner} (hE : s.parent.entries = recordsOf bs)
    (hp : s.peeked = false) : Advances o bs (readingOrder o bs) (seekFirst o s) s.output :=
  advances_iff.mpr (Block.advances_first (f := VersionedKey.block) hbs hspan hE hp)

theorem scan_eq {fuel : ℕ} {s s' : Scanner} {more : Bool} (h : seekFirst o s = (more, s')) :
    scan o fuel s =
      if more then (scanLoop o fuel s').map (maybeFailOnMoreRecent o) else some s' := by
  unfold seekFirst at h
  unfold scan
  rw [h]
  cases more <;> rfl

/-- An unlimited scan of the keys of a span reports what the reads of the keys give, in reading
order, if the scanner reads every key as it should whatever its count of steps is. -/
theorem scan_spec (ho : Unlimited o) {bs : List VersionedKey} (hbs : KeysSorted bs)
    (hspan : InSpan o (recordsOf bs)) (read : VersionedKey → KeyRead)
    (hagree : ∀ c ∈ bs, ∀ count, 1 ≤ count →
      (readKey o count c).visible o.tombstones = (read c).visible o.tombstones)
    (iters : ℕ) (hpos : 1 ≤ iters) (hle : iters ≤ maxItersBeforeSeek) {fuel : ℕ}
    (hfuel : bs.length ≤ fuel) : ∃ s, scan o fuel (init (recordsOf bs) iters hpos hle) = some s ∧
      s.output.outcome = outcomeOf o.tombstones ((readingOrder o bs).map read) := by
  have hfirst := seekFirst_spec (s := init (recordsOf bs) iters hpos hle) hbs hspan rfl rfl
  have houtcome : ∀ reads, (runReads o reads (init (recordsOf bs) iters hpos hle).output).outcome =
      outcomeOf o.tombstones reads := by
    intro reads
    rw [outcome_runReads ho.maxKeys_eq _ _ rfl]
    rfl
  have hlen : (readingOrder o bs).length = bs.length := by
    unfold readingOrder
    split_ifs <;> simp
  have hmem : ∀ c, c ∈ readingOrder o bs → c ∈ bs := by
    unfold readingOrder
    split_ifs <;> simp
  cases horder : readingOrder o bs with
  | nil =>
    rw [horder] at hfirst
    obtain ⟨hmore, hout⟩ := hfirst
    rw [scan_eq (Prod.ext hmore rfl)]
    refine ⟨_, rfl, ?_⟩
    rw [hout]
    exact houtcome []
  | cons b rest =>
    rw [horder] at hfirst hlen
    obtain ⟨hmore, hat, hout⟩ := hfirst
    rw [scan_eq (Prod.ext hmore rfl)]
    obtain ⟨s', hloop, hout'⟩ := scanLoop_spec ho hbs hspan read hat
      (fun c hc => hagree c (hmem c (horder ▸ hc)))
      (show rest.length < fuel by rw [length_cons] at hlen; omega)
    rw [hout] at hout'
    have hrecent : s'.mostRecentTS.IsEmpty := by
      change s'.output.mostRecentTS = _
      rw [hout', mostRecentTS_runReads]
      rfl
    refine ⟨s', ?_, ?_⟩
    · rw [if_pos rfl, hloop, map_some, maybeFailOnMoreRecent_eq hrecent]
    · rw [hout']
      exact houtcome _

end Scanner

/-- The scan of a span with the keys read as they should be. -/
noncomputable def referenceScan (ts : Timestamp) (txn : Option Transaction) (tombstones : Bool)
    (keys : List VersionedKey) : ScanOutcome :=
  outcomeOf tombstones (keys.map (VersionedKey.referenceRead ts txn))

/-- The scanner may miss the version of a key that it has to look for: it is at least two records
behind the first one, and the seek for it misses. -/
def MayMiss (o : ScanOptions) (b : VersionedKey) : Prop :=
  ∃ ts ∈ b.olderTimestamp o.ts o.txn,
    (∃ e ∈ b.records[1]?, ¬ e.timestamp.LessEq ts) ∧ SeekMisses o b ts

variable {o : ScanOptions} {b : VersionedKey} {ts : Timestamp}

theorem versionTarget_cases {count : ℕ} (hcount : 1 ≤ count) :
    versionTarget count b ts = stepTarget b ts ∨ (∃ e ∈ b.records[1]?, ¬ e.timestamp.LessEq ts) ∧
        versionTarget count b ts = seekTarget b ts := by
  unfold versionTarget targetFrom
  split_ifs with hstep
  · left
    unfold stepTarget
    rw [drop_one]
  · right
    obtain ⟨-, hnone⟩ := not_or.mp hstep
    have hlt : 1 < b.records.length := by omega
    refine ⟨⟨b.records[1], getElem?_eq_getElem hlt, ?_⟩, rfl⟩
    intro hle
    refine hnone ⟨b.records[1], ?_, hle⟩
    rw [drop_eq_getElem_cons hlt, show count - 0 = (count - 1) + 1 by omega]
    exact mem_cons_self

theorem versionTarget_one {e : Entry} (he : b.records[1]? = some e)
    (hle : ¬ e.timestamp.LessEq ts) : versionTarget 1 b ts = seekTarget b ts := by
  obtain ⟨hlt, rfl⟩ := List.getElem?_eq_some_iff.mp he
  unfold versionTarget
  rw [targetFrom_passed (by omega) he hle, targetFrom_of_ge hlt le_rfl]

theorem visible_readKey {st : Store} (ho : Unlimited o)
    (htxn : ∀ t ∈ o.txn, SortedRanges t.ignoredSeqNums) (hb : b ∈ st.keys)
    (hmiss : ¬ MayMiss o b) {count : ℕ} (hcount : 1 ≤ count) :
    (readKey o count b).visible o.tombstones =
      (b.referenceRead o.ts o.txn).visible o.tombstones := by
  cases holder : b.olderTimestamp o.ts o.txn with
  | none =>
    rw [VersionedKey.readKey_of_olderTimestamp_none ho.inconsistent_eq htxn holder]
  | some ts =>
    obtain ⟨hread, href⟩ := VersionedKey.readKey_of_olderTimestamp ho.inconsistent_eq htxn holder
      count
    rw [hread, href]
    rcases versionTarget_cases hcount with hstep | ⟨hsecond, hseek⟩
    · rw [hstep]
    · have hnot : ¬ SeekMisses o b ts := fun h => hmiss ⟨ts, holder, hsecond, h⟩
      have hshown := (VersionedKey.shown_seekTarget_eq_iff (st.ticks_pos b hb)
        (VersionedKey.olderTimestamp_lt holder)).mpr hnot
      rw [hseek]
      exact congrArg (KeyRead.read []) hshown

theorem outcomeOf_single (tombstones : Bool) (r : Option ScanResult) :
    outcomeOf tombstones [.read [] r] = .results (shown tombstones r).toList none := by
  unfold outcomeOf
  rw [filterMap_cons_none rfl]
  simp [KeyRead.intents, KeyRead.results]

theorem scan_single (ho : Unlimited o) (hforward : o.reverse = false)
    (hspan : InSpan o (recordsOf [b])) {fuel : ℕ} (hfuel : 1 ≤ fuel) (iters : ℕ)
    (hpos : 1 ≤ iters) (hle : iters ≤ maxItersBeforeSeek) {s : Scanner}
    (hscan : scan o fuel (init (recordsOf [b]) iters hpos hle) = some s) :
    s.output.outcome = outcomeOf o.tombstones [readKey o iters b] := by
  have hsorted : KeysSorted [b] := pairwise_singleton _ _
  have hfirst := seekFirst_spec (s := init (recordsOf [b]) iters hpos hle) hsorted hspan rfl rfl
  have hiters := itersBeforeSeek_iterSeek o ⟨o.start, .empty⟩
    (init (recordsOf [b]) iters hpos hle)
  unfold readingOrder seekFirst at hfirst
  simp only [hforward, Bool.false_eq_true, if_false] at hfirst
  unfold scan at hscan
  simp only [hforward, Bool.false_eq_true, if_false] at hscan
  set r := iterSeek o ⟨o.start, .empty⟩ (init (recordsOf [b]) iters hpos hle) with hr
  obtain ⟨hmore, hat, hout⟩ := hfirst
  rw [show r = (true, r.2) from Prod.ext hmore rfl] at hscan
  obtain ⟨s', hstep, hout', -⟩ := getAndAdvance_spec ho hsorted hspan hat
  have hloop : scanLoop o fuel r.2 = some s' := by
    obtain ⟨fuel, rfl⟩ := Nat.exists_eq_add_of_le' hfuel
    rw [scanLoop, hstep]
    simp
  have hrun : s'.output = runReads o [readKey o iters b]
      (init (recordsOf [b]) iters hpos hle).output := by
    rw [hout', hiters, hout]
    unfold runReads runReads
    split_ifs <;> rfl
  have hrecent : s'.mostRecentTS.IsEmpty := by
    change s'.output.mostRecentTS = _
    rw [hrun, mostRecentTS_runReads]
    rfl
  dsimp only at hscan
  rw [hloop, map_some, maybeFailOnMoreRecent_eq hrecent] at hscan
  obtain rfl := some.inj hscan
  rw [hrun, outcome_runReads ho.maxKeys_eq _ _ rfl]
  rfl

theorem filter_key_single {κ : Type*} {key : κ → Bytes} {l : List κ} {b : κ}
    (hsorted : l.Pairwise fun x y => bytesCompare (key x) (key y) = .lt) (hb : b ∈ l) :
    l.filter (fun c => bytesCompare (key c) (key b) ≠ .lt ∧
      bytesCompare (key c) (key b ++ [0]) = .lt) = [b] := by
  obtain ⟨pre, post, rfl⟩ := append_of_mem hb
  obtain ⟨-, hcons, hpre⟩ := pairwise_append.mp hsorted
  have hpost := (pairwise_cons.mp hcons).1
  rw [filter_append, filter_cons_of_pos]
  · have h1 : pre.filter (fun c => bytesCompare (key c) (key b) ≠ .lt ∧
        bytesCompare (key c) (key b ++ [0]) = .lt) = [] := by
      rw [filter_eq_nil_iff]
      intro c hc
      simp [hpre c hc b mem_cons_self]
    have h2 : post.filter (fun c => bytesCompare (key c) (key b) ≠ .lt ∧
        bytesCompare (key c) (key b ++ [0]) = .lt) = [] := by
      rw [filter_eq_nil_iff]
      intro c hc
      simp [bytesCompare_append_zero, ← bytesCompare_swap (key b) (key c), hpost c hc]
    rw [h1, h2, nil_append]
  · simp [bytesCompare_append_zero, bytesCompare_self]

theorem Store.span_single {st : Store} (hb : b ∈ st.keys) : st.span b.key (b.key ++ [0]) = [b] :=
  filter_key_single st.sorted hb

/-- The scans of all spans of a store, in both directions and from any count of steps, report what
the reads of the keys give exactly if the scanner may not miss a version of any key. -/
theorem scan_eq_referenceScan_iff (o : ScanOptions) (ho : Unlimited o)
    (htxn : ∀ t ∈ o.txn, SortedRanges t.ignoredSeqNums) (st : Store) :
    (∀ (reverse : Bool) (start stop : Bytes) (iters : ℕ) (hpos : 1 ≤ iters)
        (hle : iters ≤ maxItersBeforeSeek) (fuel : ℕ), (st.span start stop).length ≤ fuel →
      ∃ s, scan { o with reverse, start, stop } fuel
          (init (recordsOf (st.span start stop)) iters hpos hle) = some s ∧
        s.output.outcome = referenceScan o.ts o.txn o.tombstones
          (if reverse then (st.span start stop).reverse else st.span start stop)) ↔
      ∀ b ∈ st.keys, ¬ MayMiss o b := by
  constructor
  · rintro hscan b hb ⟨ts, holder, ⟨e, he, hle⟩, hmiss⟩
    -- The scan of the key alone, with a count of one, has to seek.
    set o' : ScanOptions := { o with reverse := false, start := b.key, stop := b.key ++ [0] }
    have hunl : Unlimited o' := ho.withSpan false b.key (b.key ++ [0])
    have hin : InSpan o' (recordsOf [b]) := by
      have hin := st.inSpan o'
      rwa [show st.span o'.start o'.stop = [b] from Store.span_single hb] at hin
    obtain ⟨s, hs, hout⟩ := hscan false b.key (b.key ++ [0]) 1 le_rfl (by decide) 1
      (by rw [Store.span_single hb]; simp)
    simp only [Store.span_single hb] at hs hout
    rw [scan_single hunl rfl hin le_rfl 1 le_rfl _ hs] at hout
    obtain ⟨hread, href⟩ := VersionedKey.readKey_of_olderTimestamp (o := o') hunl.inconsistent_eq
      htxn holder 1
    rw [hread, versionTarget_one he hle] at hout
    change _ = outcomeOf o'.tombstones [b.referenceRead o'.ts o'.txn] at hout
    rw [href, outcomeOf_single, outcomeOf_single] at hout
    have hshown : shown o'.tombstones ((seekTarget b ts).map (toResult o')) =
        shown o'.tombstones ((stepTarget b ts).map (toResult o')) := by
      have hlist := congrArg List.head? (ScanOutcome.results.inj hout).1
      rwa [head?_toList, head?_toList] at hlist
    exact (VersionedKey.shown_seekTarget_eq_iff (st.ticks_pos b hb)
      (VersionedKey.olderTimestamp_lt holder)).mp hshown hmiss
  · intro hmiss reverse start stop iters hpos hle fuel hfuel
    apply scan_spec (ho.withSpan reverse start stop) (st.keysSorted_span start stop)
      (st.inSpan { o with reverse, start, stop })
      (VersionedKey.referenceRead o.ts o.txn) ?_ iters hpos hle hfuel
    intro c hc count hcount
    have hkey := (Store.mem_span.mp hc).1
    exact visible_readKey (ho.withSpan reverse start stop) htxn hkey (hmiss c hkey) hcount

/-- The version of a key at a wall time, which is its value too. -/
def sampleVersion (wallTime : ℕ) (synthetic : Bool) (h : 0 < wallTime ∧ wallTime < 4) :
    VersionTimestamp × Bytes :=
  (⟨⟨wallTime, 0, synthetic, by omega, Timestamp.zero_lt_logical⟩, by
    apply Timestamp.not_isEmpty_of_ticks_pos
    unfold Timestamp.ticks
    dsimp only
    omega⟩, [UInt8.ofNat wallTime])

/-- A key with three versions, the oldest one at wall time one. -/
def sampleKey (synthetic : Bool) : VersionedKey where
  key := [97]
  intent := none
  newest := sampleVersion 3 false (by decide)
  older := [sampleVersion 2 false (by decide), sampleVersion 1 synthetic (by decide)]
  sorted := by
    unfold RankedList.Descending
    cases synthetic <;> decide
  provisional := by simp

def sampleStore (synthetic : Bool) : Store where
  keys := [sampleKey synthetic]
  sorted := pairwise_singleton _ _
  ticks_pos := by
    intro b hb
    obtain rfl := mem_singleton.mp hb
    cases synthetic <;> decide

/-- An unlimited scan by a transaction at wall time one. -/
def sampleScan : ScanOptions where
  marshal := fun _ => [0]
  reverse := false
  start := []
  stop := []
  ts := .ofNanos 1
  maxKeys := 0
  targetBytes := 0
  targetBytesAvoidExcess := false
  allowEmpty := false
  maxIntents := 0
  txn := some {
    id := 1, key := [97], epoch := 0, minTimestamp := .empty, priority := 0, sequence := 7
    writeTimestamp := .ofNanos 1
    readTimestamp := .ofNanos 1
    ignoredSeqNums := [⟨1, 2⟩, ⟨4, 5⟩] }
  uncertainty := ⟨.empty, .empty⟩
  inconsistent := false
  tombstones := false
  failOnMoreRecent := false
  isGet := false

theorem unlimited_sampleScan : Unlimited sampleScan where
  failOnMoreRecent_eq := rfl
  checkUncertainty_eq := by decide
  maxIntents_eq := rfl
  maxKeys_eq := rfl
  targetBytes_eq := rfl
  isGet_eq := rfl
  inconsistent_eq := rfl

theorem sorted_sampleScan : ∀ t ∈ sampleScan.txn, SortedRanges t.ignoredSeqNums := by
  rintro t ⟨⟩
  unfold SortedRanges
  decide

/-- Without the flag every scan of the sample store is right. -/
theorem scan_eq_referenceScan_sampleStore :
    (∀ b ∈ (sampleStore false).keys, ¬ MayMiss sampleScan b) ∧
    ∃ s, scan { sampleScan with reverse := true, start := [97], stop := [98] } 1
        (init (recordsOf ((sampleStore false).span [97] [98])) 1 le_rfl (by decide)) = some s ∧
      s.output.outcome = referenceScan sampleScan.ts sampleScan.txn false
        ((sampleStore false).span [97] [98]).reverse := by
  have hmiss : ∀ b ∈ (sampleStore false).keys, ¬ MayMiss sampleScan b := by
    intro b hb
    obtain rfl := mem_singleton.mp hb
    rintro ⟨ts, holder, -, hempty | ⟨newer, v, older, hsplit, -, hsyn, -⟩⟩
    · obtain rfl : sampleScan.ts = ts := by
        have hts : (sampleKey false).olderTimestamp sampleScan.ts sampleScan.txn =
            some sampleScan.ts := rfl
        exact some.inj (hts.symm.trans holder)
      exact absurd hempty.1 (by decide)
    · have hmem : v ∈ (sampleKey false).versions := by
        rw [hsplit]
        simp
      have hreal : ∀ v ∈ (sampleKey false).versions, v.1.1.synthetic = false := by decide
      rw [hreal v hmem] at hsyn
      cases hsyn
  refine ⟨hmiss, ?_⟩
  exact (scan_eq_referenceScan_iff sampleScan unlimited_sampleScan sorted_sampleScan _).mpr hmiss
    true [97] [98] 1 le_rfl (by decide) 1 (by decide)

/-- With the flag the seek to wall time one goes past the version there. -/
theorem scan_ne_referenceScan_sampleStore :
    ∃ s, scan { sampleScan with reverse := false, start := [97], stop := [98] } 1
        (init (recordsOf ((sampleStore true).span [97] [98])) 1 le_rfl (by decide)) = some s ∧
      s.output.outcome = .results [] none ∧
      referenceScan sampleScan.ts sampleScan.txn false ((sampleStore true).span [97] [98]) =
        .results [⟨[97], ⟨1, 0, true, by norm_num, by norm_num⟩, [1]⟩] none := by
  refine ⟨_, rfl, ?_, ?_⟩
  · decide +kernel
  · rfl

end Cockroach.Storage
