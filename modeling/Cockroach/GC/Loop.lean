import Cockroach.GC.History

/-! The requests of a run are for garbage, and for all of it. -/
namespace Cockroach.GC
open ByteOrder Hlc Storage List Option
open GCIterator (step_eq windowOf)

/-- The loop on what the iterator delivers. -/
def visitAll (env : Environment) (threshold : Timestamp) (fails : Bool) :
    List Entry → LoopState → Option (Option RunError × LoopState)
  | [], s => some (if fails then some .iterator else none, s)
  | e :: rest, s =>
    match windowOf fails (e :: rest) with
    | none => some (if fails then some .iterator else none, s)
    | some w =>
      match s.visit env threshold w with
      | none => none
      | some (true, s) => some (some .cancelled, s)
      | some (false, s) => visitAll env threshold fails rest s

theorem processEntries_eq {env : Environment} {threshold : Timestamp} {fuel : ℕ} {it : GCIterator}
    {s : LoopState} (hfuel : it.pending.length < fuel) :
    processEntries env threshold fuel it s = visitAll env threshold it.it.fails it.pending s := by
  induction fuel generalizing it s with
  | zero => exact absurd hfuel (Nat.not_lt_zero _)
  | succ fuel ih =>
    obtain ⟨it', hstate, hpending, hfails, hlen, herr⟩ := it.state_eq
    unfold processEntries
    rw [hstate]
    simp only [bind_eq_bind, bind_some]
    cases hl : it.pending with
    | nil =>
      rw [hl] at herr
      rw [herr rfl]
      rfl
    | cons e rest =>
      rw [hl] at herr hlen hpending
      unfold visitAll
      cases hw : windowOf it.it.fails (e :: rest) with
      | none =>
        rw [herr hw]
        rfl
      | some w =>
        dsimp only
        cases hvisit : s.visit env threshold w with
        | none => rfl
        | some r =>
          obtain ⟨cancelled, s'⟩ := r
          cases cancelled with
          | true => rfl
          | false =>
            obtain ⟨it'', hstep, hpending', hfails'⟩ := step_eq (hlen (by simp))
            simp only [bind_some, Bool.false_eq_true, if_false]
            rw [hstep]
            rw [hpending] at hpending'
            have hlen' : it''.pending.length < fuel := by
              rw [hpending', tail_cons]
              rw [hl, length_cons] at hfuel
              omega
            rw [bind_some, ih hlen', hpending', hfails', hfails]
            rfl

/-- What the iterator delivers of the entries to come: all of them, unless it fails. -/
def Delivered (fails : Bool) (delivered entries : List Entry) : Prop :=
  delivered <+: entries ∧ (fails = false → delivered = entries)

variable {fails : Bool} {delivered entries : List Entry}

theorem Delivered.cons {e : Entry} (h : Delivered fails (e :: delivered) entries) :
    ∃ entries', entries = e :: entries' ∧ Delivered fails delivered entries' := by
  obtain ⟨⟨t, rfl⟩, hall⟩ := h
  refine ⟨delivered ++ t, rfl, ⟨t, rfl⟩, ?_⟩
  intro hfails
  exact (cons_eq_cons.mp (hall hfails)).2

theorem Delivered.windowOf {w : GCIteratorState} (h : Delivered fails delivered entries)
    (hw : windowOf fails delivered = some w) : windowOf false entries = some w := by
  cases fails with
  | false => rwa [← h.2 rfl]
  | true =>
    obtain ⟨⟨t, rfl⟩, -⟩ := h
    match delivered with
    | [] => cases hw
    | [cur] => cases hw
    | [cur, next] =>
      by_cases hkey : next.key ≠ cur.key
      · rw [windowOf, if_pos hkey] at hw
        exact (if_pos hkey).trans hw
      · rw [windowOf, if_neg hkey] at hw
        cases hw
    | cur :: next :: afterNext :: rest => exact hw

namespace LoopState

/-- A key is in the batch or was sent. -/
def Asked (s : LoopState) (g : GCKey) : Prop := g ∈ s.batchGCKeys ∨ ∃ r ∈ s.requests, g ∈ r.1

/-- What the loop body can do to a committed version: keep the garbage it knows of, ask for it, ask
for the version, or remember the version as garbage. -/
inductive Visits (cur : Entry) (isNewest garbage : Bool) (s : LoopState) : Bool × LoopState → Prop
  | skip {s' : LoopState} : garbage = false → (isNewest = true → s.haveGarbageForThisKey = false) →
      (∀ g, s'.Asked g ↔ s.Asked g) → s'.haveGarbageForThisKey = s.haveGarbageForThisKey →
      s'.gcTimestampForThisKey = s.gcTimestampForThisKey →
      s'.batchGCKeysBytes < keyVersionChunkBytes → Visits cur isNewest garbage s (false, s')
  | askOlder {s' : LoopState} : garbage = false → isNewest = true →
      s.haveGarbageForThisKey = true →
      (∀ g, s'.Asked g ↔ s.Asked g ∨ g = ⟨cur.key, s.gcTimestampForThisKey⟩) →
      s'.haveGarbageForThisKey = false → s'.batchGCKeysBytes < keyVersionChunkBytes →
      Visits cur isNewest garbage s (false, s')
  | ask {cancelled : Bool} {s' : LoopState} : garbage = true →
      (∀ g, s'.Asked g ↔ s.Asked g ∨ g = ⟨cur.key, cur.timestamp⟩) →
      s'.haveGarbageForThisKey = false →
      (cancelled = false → s'.batchGCKeysBytes < keyVersionChunkBytes) →
      Visits cur isNewest garbage s (cancelled, s')
  | remember {s' : LoopState} : garbage = true → isNewest = false → (∀ g, s'.Asked g ↔ s.Asked g) →
      s'.haveGarbageForThisKey = true → s'.gcTimestampForThisKey = cur.timestamp →
      s'.batchGCKeysBytes < keyVersionChunkBytes → Visits cur isNewest garbage s (false, s')

theorem noteAffected_eq (isNewest : Bool) (s : LoopState) :
    ∃ n, s.noteAffected isNewest = { s with numKeysAffected := n } := by
  unfold noteAffected
  split_ifs
  · exact ⟨_, rfl⟩
  · exact ⟨s.numKeysAffected, rfl⟩

theorem asked_addKey (cur : Entry) (isNewest : Bool) (s : LoopState) (g : GCKey) :
    (s.addKey cur isNewest).Asked g ↔ s.Asked g ∨ g = ⟨cur.key, s.gcTimestampForThisKey⟩ := by
  simp only [Asked, addKey, mem_append, mem_singleton]
  exact or_right_comm

theorem asked_sendBatch (env : Environment) (s : LoopState) (g : GCKey) :
    (s.sendBatch env).2.Asked g ↔ s.Asked g := by
  unfold sendBatch
  dsimp only
  split_ifs
  · simp only [Asked, mem_append, mem_singleton]
    constructor
    · rintro (h | ⟨r, hr | rfl, hg⟩)
      · exact .inl h
      · exact .inr ⟨r, hr, hg⟩
      · exact .inl hg
    · rintro (h | ⟨r, hr, hg⟩)
      · exact .inl h
      · exact .inr ⟨r, .inl hr, hg⟩
  · simp only [Asked, mem_append, mem_singleton, not_mem_nil, false_or]
    constructor
    · rintro ⟨r, hr | rfl, hg⟩
      · exact .inr ⟨r, hr, hg⟩
      · exact .inl hg
    · rintro (h | ⟨r, hr, hg⟩)
      · exact ⟨_, .inr rfl, h⟩
      · exact ⟨r, .inl hr, hg⟩

theorem sendBatch_have (env : Environment) (s : LoopState) :
    (s.sendBatch env).2.haveGarbageForThisKey = s.haveGarbageForThisKey := by
  unfold sendBatch
  dsimp only
  split_ifs <;> rfl

theorem sendBatch_bytes (env : Environment) (s : LoopState) (h : (s.sendBatch env).1 = false) :
    (s.sendBatch env).2.batchGCKeysBytes < keyVersionChunkBytes := by
  unfold sendBatch at h ⊢
  by_cases hc : env.gc s.requests.length = .cancelled
  · rw [if_pos hc] at h
    cases h
  · rw [if_neg hc]
    exact (by decide : 0 < keyVersionChunkBytes)

theorem visits_visitVersion (env : Environment) (cur : Entry) (isNewest garbage : Bool)
    {s : LoopState} (hbytes : s.batchGCKeysBytes < keyVersionChunkBytes) :
    Visits cur isNewest garbage s (s.visitVersion env cur isNewest garbage) := by
  unfold visitVersion
  cases garbage with
  | false =>
    obtain ⟨n, hn⟩ := noteAffected_eq isNewest s
    simp only [Bool.false_eq_true, if_false, hn]
    -- Nothing was added to the batch, so that it is not sent.
    have hsend : ({ s with numKeysAffected := n } : LoopState).shouldSendBatch = false := by
      simpa [shouldSendBatch] using hbytes
    rw [hsend]
    simp only [Bool.false_or, Bool.false_eq_true, if_false]
    by_cases hask : (isNewest && s.haveGarbageForThisKey) = true
    · rw [if_pos hask]
      obtain ⟨hnewest, hhave⟩ := Bool.and_eq_true_iff.mp hask
      exact .askOlder rfl hnewest hhave (asked_addKey cur isNewest _) rfl hbytes
    · rw [if_neg hask]
      refine .skip rfl ?_ (fun _ => Iff.rfl) rfl rfl hbytes
      intro hnewest
      rw [hnewest] at hask
      exact Bool.eq_false_of_not_eq_true hask
  | true =>
    obtain ⟨n, hn⟩ := noteAffected_eq isNewest (s.noteGarbage cur)
    simp only [if_true, hn]
    set s₁ : LoopState := { s.noteGarbage cur with numKeysAffected := n }
    have hask := asked_addKey cur isNewest s₁
    cases hsend : s₁.shouldSendBatch with
    | true =>
      simp only [Bool.true_or, if_true]
      have hsent := asked_sendBatch env (s₁.addKey cur isNewest)
      have hhave := sendBatch_have env (s₁.addKey cur isNewest)
      have hbytes₂ := sendBatch_bytes env (s₁.addKey cur isNewest)
      generalize (s₁.addKey cur isNewest).sendBatch env = r at hsent hhave hbytes₂
      exact .ask rfl (fun g => (hsent g).trans (hask g)) hhave hbytes₂
    | false =>
      have hbytes₁ : s₁.batchGCKeysBytes < keyVersionChunkBytes := by
        simpa [shouldSendBatch] using hsend
      cases isNewest with
      | true => exact .ask rfl hask rfl fun _ => hbytes₁
      | false => exact .remember rfl rfl (fun _ => Iff.rfl) rfl rfl hbytes₁

end LoopState

namespace KeyHistory

variable {h : KeyHistory} {threshold : Timestamp} {past newer : List Version} {v : Version}

/-- The intent of the key from the provisional version on, in the order of the iteration. -/
def intentEntries (h : KeyHistory) : List Entry :=
  h.intent.toList.flatMap fun i => [versionEntry h.key i.2, .metadata h.key i.1]

theorem reverse_records (h : KeyHistory) :
    h.records.reverse = h.committed.reverse.map (versionEntry h.key) ++ h.intentEntries := by
  unfold records intentEntries
  cases h.intent with
  | none | some => simp

theorem ascending (h : KeyHistory) :
    h.committed.reverse.Pairwise fun a b => versionRank a.1 < versionRank b.1 := by
  rw [pairwise_reverse]
  exact (pairwise_append.mp h.sorted).2.1

variable {w : Version}

theorem lt_versionRank_iff (hsplit : h.committed.reverse = past ++ v :: newer)
    (hw : w ∈ h.committed) : versionRank v.1 < versionRank w.1 ↔ w ∈ newer := by
  have hasc := h.ascending
  rw [hsplit] at hasc
  obtain ⟨-, hcons, hpast⟩ := pairwise_append.mp hasc
  have hmem : w ∈ past ++ v :: newer := by
    rw [← hsplit]
    exact mem_reverse.mpr hw
  constructor
  · intro hlt
    rcases mem_append.mp hmem with hin | hin
    · exact absurd (hpast w hin v mem_cons_self) hlt.not_gt
    · rcases mem_cons.mp hin with rfl | hin
      · exact absurd hlt (lt_irrefl _)
      · exact hin
  · exact fun hin => (pairwise_cons.mp hcons).1 w hin

theorem mem_committed (hsplit : h.committed.reverse = past ++ newer) (hw : w ∈ past ∨ w ∈ newer) :
    w ∈ h.committed := by
  rw [← mem_reverse, hsplit]
  exact mem_append.mpr hw

variable (threshold) in
theorem garbage_iff (hsplit : h.committed.reverse = past ++ v :: newer) :
    h.Garbage threshold v ↔ v.1.1.LessEq threshold ∧
      (v.2 = [] ∨ ∃ w ∈ newer, w.1.1.LessEq threshold) := by
  have hv : v ∈ h.committed := mem_committed hsplit (.inr mem_cons_self)
  constructor
  · rintro ⟨-, hle, hdel | ⟨w, hw, hlt, hwle⟩⟩
    · exact ⟨hle, .inl hdel⟩
    · exact ⟨hle, .inr ⟨w, (lt_versionRank_iff hsplit hw).mp hlt, hwle⟩⟩
  · rintro ⟨hle, hdel | ⟨w, hw, hwle⟩⟩
    · exact ⟨hv, hle, .inl hdel⟩
    · have hwc : w ∈ h.committed := mem_committed hsplit (.inr (mem_cons_of_mem v hw))
      exact ⟨hv, hle, .inr ⟨w, hwc, (lt_versionRank_iff hsplit hwc).mpr hw, hwle⟩⟩

theorem ticks_le_of_versionRank_lt {t s : VersionTimestamp} (hlt : versionRank t < versionRank s) :
    t.1.ticks ≤ s.1.ticks := by
  unfold versionRank engineRank at hlt
  have hs := s.1.synthetic.toNat_le
  omega

theorem exists_newer_iff {next : Version} {rest : List Version}
    (hsplit : h.committed.reverse = past ++ v :: next :: rest) :
    (∃ w ∈ next :: rest, w.1.1.LessEq threshold) ↔ next.1.1.LessEq threshold := by
  constructor
  · rintro ⟨w, hw, hle⟩
    rcases mem_cons.mp hw with rfl | hw
    · exact hle
    · have hsplit' : h.committed.reverse = (past ++ [v]) ++ next :: rest := by
        rw [hsplit, append_assoc, singleton_append]
      have hwc : w ∈ h.committed := mem_committed hsplit' (.inr (mem_cons_of_mem next hw))
      have hlt := (lt_versionRank_iff hsplit' hwc).mpr hw
      rw [Timestamp.lessEq_iff] at hle ⊢
      exact (ticks_le_of_versionRank_lt hlt).trans hle
  · exact fun hle => ⟨next, mem_cons_self, hle⟩

variable (threshold) in
/-- The window at a committed version tells whether it is the newest and whether it is garbage. -/
theorem window_committed (hsplit : h.committed.reverse = past ++ v :: newer) {rest : List Entry}
    (hrest : ∀ e ∈ rest.head?, e.key ≠ h.key) : ∃ w, windowOf false
        (versionEntry h.key v :: (newer.map (versionEntry h.key) ++ (h.intentEntries ++ rest))) =
          some w ∧ w.cur = versionEntry h.key v ∧ w.curIsIntent = false ∧
      (w.curIsNewest = true ↔ newer = []) ∧
      ∃ garbage, isGarbage threshold w.cur w.next w.curIsNewest = some garbage ∧
        (garbage = true ↔ h.Garbage threshold v) := by
  have hgarbage := garbage_iff threshold hsplit
  cases newer with
  | nil =>
    -- The newest committed version: what follows is the intent or another key.
    obtain ⟨next, afterNext, hw, hintent, hnewest⟩ : ∃ next afterNext,
        windowOf false (versionEntry h.key v :: (h.intentEntries ++ rest)) =
          some ⟨versionEntry h.key v, next, afterNext⟩ ∧
        GCIteratorState.curIsIntent ⟨versionEntry h.key v, next, afterNext⟩ = false ∧
        GCIteratorState.curIsNewest ⟨versionEntry h.key v, next, afterNext⟩ = true := by
      unfold intentEntries
      cases h.intent with
      | none =>
        cases rest with
        | nil => exact ⟨none, none, rfl, rfl, rfl⟩
        | cons e rest => exact ⟨none, none, if_pos (hrest e rfl), rfl, rfl⟩
      | some i =>
        refine ⟨some (versionEntry h.key i.2), some (.metadata h.key i.1), ?_, rfl, rfl⟩
        simp [windowOf, versionEntry, Entry.key, Entry.mvccKey]
    refine ⟨_, hw, rfl, hintent, by simp [hnewest], ?_⟩
    rw [hnewest]
    unfold isGarbage
    dsimp only [versionEntry, valueOf, Entry.timestamp, Entry.mvccKey]
    by_cases hle : v.1.1.LessEq threshold
    · by_cases hdel : v.2 = []
      · exact ⟨true, by simp [hle, hdel], by simp [hgarbage, hle, hdel]⟩
      · exact ⟨false, by simp [hle, hdel], by simp [hgarbage, hdel]⟩
    · exact ⟨false, by simp [hle], by simp [hgarbage, hle]⟩
  | cons next rest' =>
    obtain ⟨afterNext, hw, hnewest⟩ : ∃ afterNext,
        windowOf false (versionEntry h.key v :: versionEntry h.key next ::
          (rest'.map (versionEntry h.key) ++ (h.intentEntries ++ rest))) =
          some ⟨versionEntry h.key v, some (versionEntry h.key next), afterNext⟩ ∧
        GCIteratorState.curIsNewest
          ⟨versionEntry h.key v, some (versionEntry h.key next), afterNext⟩ = false := by
      have hsame : ¬ (versionEntry h.key next).key ≠ (versionEntry h.key v).key :=
        fun hne => hne rfl
      cases rest' with
      | cons a rest' =>
        refine ⟨some (versionEntry h.key a), ?_, rfl⟩
        simp [windowOf, versionEntry, Entry.key, Entry.mvccKey]
      | nil =>
        unfold intentEntries
        cases h.intent with
        | some i =>
          refine ⟨some (versionEntry h.key i.2), ?_, rfl⟩
          simp [windowOf, versionEntry, Entry.key, Entry.mvccKey]
        | none =>
          cases rest with
          | nil => exact ⟨none, by simp [windowOf, hsame], rfl⟩
          | cons e rest =>
            have hne : e.key ≠ (versionEntry h.key v).key := hrest e rfl
            exact ⟨none, by simp [windowOf, hsame, hne], rfl⟩
    refine ⟨_, hw, rfl, rfl, by simp [hnewest], ?_⟩
    rw [exists_newer_iff hsplit] at hgarbage
    rw [hnewest]
    unfold isGarbage
    dsimp only [versionEntry, valueOf, Entry.timestamp, Entry.mvccKey]
    by_cases hle : v.1.1.LessEq threshold
    · by_cases hdel : v.2 = []
      · exact ⟨true, by simp [hle, hdel], by simp [hgarbage, hle, hdel]⟩
      · refine ⟨next.1.1.LessEq threshold, ?_, by simp [hgarbage, hle, hdel]⟩
        simp only [hle, hdel, not_true, if_false, decide_false, Bool.not_false, Bool.and_true,
          Bool.false_eq_true, map_some]
        rfl
    · exact ⟨false, by simp [hle], by simp [hgarbage, hle]⟩

end KeyHistory

theorem window_metadata (key : Bytes) (m : MVCCMetadata) (rest : List Entry)
    (hrest : ∀ e ∈ rest.head?, e.key ≠ key) :
    ∃ w, windowOf false (.metadata key m :: rest) = some w ∧ w.curIsNotValue = true := by
  cases rest with
  | nil => exact ⟨_, rfl, rfl⟩
  | cons e rest => exact ⟨_, if_pos (hrest e rfl), rfl⟩

section Blocks

variable {env : Environment} {threshold : Timestamp} {fails : Bool} {h : KeyHistory}

variable {l : List Entry}

variable {e : Entry} {w : GCIteratorState}

theorem visitAll_cons {entries : List Entry} (hl : Delivered fails l (e :: entries))
    (hw : windowOf false (e :: entries) = some w) (s : LoopState) :
    visitAll env threshold fails l s = some (some .iterator, s) ∨
      ∃ l', Delivered fails l' entries ∧ visitAll env threshold fails l s =
        match s.visit env threshold w with
        | none => none
        | some (true, s') => some (some .cancelled, s')
        | some (false, s') => visitAll env threshold fails l' s' := by
  cases l with
  | nil =>
    cases fails with
    | true => exact .inl rfl
    | false => cases hl.2 rfl
  | cons e' l' =>
    obtain ⟨entries', heq, hl'⟩ := hl.cons
    obtain ⟨rfl, rfl⟩ := cons_eq_cons.mp heq
    cases hw' : windowOf fails (e :: l') with
    | none =>
      cases fails with
      | true => exact .inl (by rw [visitAll, hw']; rfl)
      | false =>
        rw [hl.2 rfl, hw] at hw'
        cases hw'
    | some w' =>
      obtain rfl := some.inj (hw.symm.trans (hl.windowOf hw'))
      exact .inr ⟨l', hl', by rw [visitAll, hw']⟩

/-- The key with the timestamp of one of its garbage versions. -/
def GarbageKey (threshold : Timestamp) (h : KeyHistory) (g : GCKey) : Prop :=
  ∃ u, h.Garbage threshold u ∧ g = ⟨h.key, u.1.1⟩

/-- No garbage is remembered and the batch is not yet full. -/
def LoopState.Clean (s : LoopState) : Prop :=
  s.haveGarbageForThisKey = false ∧ s.batchGCKeysBytes < keyVersionChunkBytes

/-- A version of the key is asked for. -/
def LoopState.Covers (s : LoopState) (h : KeyHistory) (u : Version) : Prop :=
  ∃ g, s.Asked g ∧ g.key = h.key ∧ u.1.1.LessEq g.timestamp

/-- The loop over some entries ends early, or goes on with the rest and `After`. What it asks for
is garbage of the key. -/
def Passes (env : Environment) (threshold : Timestamp) (fails : Bool) (h : KeyHistory)
    (l rest : List Entry) (s : LoopState) (After : LoopState → Prop) : Prop :=
  (∃ err s', visitAll env threshold fails l s = some (some err, s') ∧
    ∀ g, s'.Asked g → s.Asked g ∨ GarbageKey threshold h g) ∨
  ∃ l' s', visitAll env threshold fails l s = visitAll env threshold fails l' s' ∧
    Delivered fails l' rest ∧ (∀ g, s'.Asked g → s.Asked g ∨ GarbageKey threshold h g) ∧
    (∀ g, s.Asked g → s'.Asked g) ∧ After s'

/-- What the loop knows in the middle of a key, after its versions in `past`. -/
structure InKey (threshold : Timestamp) (h : KeyHistory) (past newer : List Version)
    (s : LoopState) : Prop where
  bytes : s.batchGCKeysBytes < keyVersionChunkBytes
  have_ : s.haveGarbageForThisKey = true → newer ≠ [] ∧
    ∃ u, h.Garbage threshold u ∧ s.gcTimestampForThisKey = u.1.1
  covers : ∀ u ∈ past, h.Garbage threshold u → s.Covers h u ∨
    s.haveGarbageForThisKey = true ∧ u.1.1.LessEq s.gcTimestampForThisKey

variable {s : LoopState}

theorem LoopState.Covers.mono {s' : LoopState} {u : Version} (hc : s.Covers h u)
    (hasked : ∀ g, s.Asked g → s'.Asked g) : s'.Covers h u := by
  obtain ⟨g, hg, hkey, hle⟩ := hc
  exact ⟨g, hasked g hg, hkey, hle⟩

variable {past newer : List Version}

/-- One committed version: the loop stops, or knows as much after it. -/
theorem inKey_visits {v : Version} {isNewest : Bool} {garbage : Bool} {r : Bool × LoopState}
    (hsplit : h.committed.reverse = past ++ v :: newer)
    (hin : InKey threshold h past (v :: newer) s) (hnewest : isNewest = true ↔ newer = [])
    (hgarbage : garbage = true ↔ h.Garbage threshold v)
    (hv : s.Visits (KeyHistory.versionEntry h.key v) isNewest garbage r) :
    (∀ g, r.2.Asked g → s.Asked g ∨ GarbageKey threshold h g) ∧ (∀ g, s.Asked g → r.2.Asked g) ∧
      (r.1 = false → InKey threshold h (past ++ [v]) newer r.2) := by
  have hasc := h.ascending
  rw [hsplit] at hasc
  have hle : ∀ u ∈ past ++ [v], u.1.1.LessEq v.1.1 := by
    intro u hu
    rw [Timestamp.lessEq_iff]
    rcases mem_append.mp hu with hu | hu
    · exact KeyHistory.ticks_le_of_versionRank_lt
        ((pairwise_append.mp hasc).2.2 u hu v mem_cons_self)
    · rw [mem_singleton.mp hu]
  have hpast : garbage = false → ∀ u ∈ past ++ [v], h.Garbage threshold u → u ∈ past := by
    intro hno u hu hgu
    refine (mem_append.mp hu).resolve_right fun hu => ?_
    rw [mem_singleton.mp hu, ← hgarbage, hno] at hgu
    cases hgu
  cases hv with
  | @skip s' hno hnone hasked hhave hts hbytes =>
    refine ⟨fun g hg => .inl ((hasked g).mp hg), fun g => (hasked g).mpr, fun _ => ⟨hbytes, ?_, ?_⟩⟩
    · intro htrue
      rw [hhave] at htrue
      refine ⟨?_, ?_⟩
      · intro hnil
        rw [hnone (hnewest.mpr hnil)] at htrue
        cases htrue
      · rw [hts]
        exact (hin.have_ htrue).2
    · intro u hu hgu
      rw [hhave, hts]
      exact (hin.covers u (hpast hno u hu hgu) hgu).imp_left
        fun hc => hc.mono fun g => (hasked g).mpr
  | @askOlder s' hno hnew hhave hasked hhave' hbytes =>
    obtain ⟨-, u₀, hu₀, hts⟩ := hin.have_ hhave
    have hgrow : ∀ g, s.Asked g → s'.Asked g := fun g hg => (hasked g).mpr (.inl hg)
    refine ⟨?_, hgrow, fun _ => ⟨hbytes, ?_, ?_⟩⟩
    · intro g hg
      refine ((hasked g).mp hg).imp_right ?_
      rintro rfl
      exact ⟨u₀, hu₀, by rw [hts]; rfl⟩
    · rw [hhave']
      intro h
      cases h
    · intro u hu hgu
      rcases hin.covers u (hpast hno u hu hgu) hgu with hc | ⟨-, hle⟩
      · exact .inl (hc.mono hgrow)
      · exact .inl ⟨_, (hasked _).mpr (.inr rfl), rfl, hle⟩
  | @ask cancelled s' hyes hasked hhave' hbytes =>
    have hgv := hgarbage.mp hyes
    have hgrow : ∀ g, s.Asked g → s'.Asked g := fun g hg => (hasked g).mpr (.inl hg)
    refine ⟨?_, hgrow, fun hc => ⟨hbytes hc, ?_, ?_⟩⟩
    · intro g hg
      refine ((hasked g).mp hg).imp_right ?_
      rintro rfl
      exact ⟨v, hgv, rfl⟩
    · rw [hhave']
      intro h
      cases h
    · exact fun u hu _ => .inl ⟨_, (hasked _).mpr (.inr rfl), rfl, hle u hu⟩
  | @remember s' hyes hnew hasked hhave' hts hbytes =>
    have hgv := hgarbage.mp hyes
    refine ⟨fun g hg => .inl ((hasked g).mp hg), fun g => (hasked g).mpr, fun _ => ⟨hbytes, ?_, ?_⟩⟩
    · intro _
      refine ⟨?_, v, hgv, hts⟩
      intro hnil
      rw [hnewest.mpr hnil] at hnew
      cases hnew
    · intro u hu _
      rw [hts]
      exact .inr ⟨hhave', hle u hu⟩

variable {rest : List Entry}

variable {A : LoopState → Prop}

theorem Passes.trans {mid : List Entry} {B : LoopState → Prop}
    (h₁ : Passes env threshold fails h l mid s A)
    (h₂ : ∀ l' s', Delivered fails l' mid → A s' → Passes env threshold fails h l' rest s' B) :
    Passes env threshold fails h l rest s B := by
  rcases h₁ with hstop | ⟨l', s', heq, hl', hasked, hgrow, hafter⟩
  · exact .inl hstop
  · rcases h₂ l' s' hl' hafter with ⟨err, s'', heq', hasked'⟩ |
      ⟨l'', s'', heq', hl'', hasked', hgrow', hafter'⟩
    · refine .inl ⟨err, s'', heq.trans heq', ?_⟩
      exact fun g hg => (hasked' g hg).elim (hasked g) .inr
    · refine .inr ⟨l'', s'', heq.trans heq', hl'', ?_, fun g hg => hgrow' g (hgrow g hg), hafter'⟩
      exact fun g hg => (hasked' g hg).elim (hasked g) .inr

theorem passes_other (hl : Delivered fails l (e :: rest)) (hw : windowOf false (e :: rest) = some w)
    (hother : w.curIsNotValue = true ∨ w.curIsIntent = true) (hs : A s) :
    Passes env threshold fails h l rest s A := by
  obtain ⟨cancelled, hvisit⟩ : ∃ cancelled, s.visit env threshold w = some (cancelled, s) := by
    unfold LoopState.visit
    by_cases hnot : w.curIsNotValue = true
    · exact ⟨_, if_pos hnot⟩
    · rw [if_neg hnot, if_pos (hother.resolve_left hnot)]
      exact ⟨_, rfl⟩
  rcases visitAll_cons hl hw s with hstop | ⟨l', hl', heq⟩
  · exact .inl ⟨_, s, hstop, fun g => .inl⟩
  · rw [hvisit] at heq
    cases cancelled with
    | true => exact .inl ⟨_, s, heq, fun g => .inl⟩
    | false => exact .inr ⟨l', s, heq, hl', fun g => .inl, fun g => id, hs⟩

/-- The loop has dealt with all of the key. -/
def KeyDone (threshold : Timestamp) (h : KeyHistory) (s : LoopState) : Prop :=
  s.Clean ∧ ∀ u, h.Garbage threshold u → s.Covers h u

theorem passes_committed (hsplit : h.committed.reverse = past ++ newer)
    (hin : InKey threshold h past newer s) (hrest : ∀ e ∈ rest.head?, e.key ≠ h.key)
    (hl : Delivered fails l
      (newer.map (KeyHistory.versionEntry h.key) ++ (h.intentEntries ++ rest))) :
    Passes env threshold fails h l (h.intentEntries ++ rest) s (KeyDone threshold h) := by
  induction newer generalizing past l s with
  | nil =>
    have hhave : s.haveGarbageForThisKey = false := by
      rw [Bool.eq_false_iff]
      exact fun htrue => (hin.have_ htrue).1 rfl
    refine .inr ⟨l, s, rfl, hl, fun g => .inl, fun g => id, ⟨hhave, hin.bytes⟩, ?_⟩
    intro u hu
    have hmem : u ∈ past := by
      rw [append_nil] at hsplit
      rw [← hsplit, mem_reverse]
      exact hu.1
    refine (hin.covers u hmem hu).resolve_right ?_
    rintro ⟨htrue, -⟩
    rw [hhave] at htrue
    cases htrue
  | cons v newer ih =>
    obtain ⟨w, hw, hcur, hintent, hnewest, garbage, hgarbage, hiff⟩ :=
      KeyHistory.window_committed threshold hsplit hrest
    have hvisit : s.visit env threshold w =
        some (s.visitVersion env w.cur w.curIsNewest garbage) := by
      have hvalue : w.curIsNotValue = false := by
        unfold GCIteratorState.curIsNotValue
        rw [hcur]
        rfl
      unfold LoopState.visit
      rw [hvalue, hintent, hgarbage]
      rfl
    have hvisits := LoopState.visits_visitVersion env w.cur w.curIsNewest garbage hin.bytes
    rw [hcur] at hvisits hvisit
    obtain ⟨hasked, hgrow, hnext⟩ := inKey_visits hsplit hin hnewest hiff hvisits
    rcases visitAll_cons hl hw s with hstop | ⟨l', hl', heq⟩
    · exact .inl ⟨_, s, hstop, fun g => .inl⟩
    · rw [hvisit] at heq
      generalize s.visitVersion env (KeyHistory.versionEntry h.key v) w.curIsNewest garbage = r
        at heq hasked hgrow hnext
      obtain ⟨cancelled, s'⟩ := r
      cases cancelled with
      | true => exact .inl ⟨_, s', heq, hasked⟩
      | false =>
        have hsplit' : h.committed.reverse = (past ++ [v]) ++ newer := by
          rw [hsplit, append_assoc, singleton_append]
        have hpass : Passes env threshold fails h l
            (newer.map (KeyHistory.versionEntry h.key) ++ (h.intentEntries ++ rest)) s
            (InKey threshold h (past ++ [v]) newer) :=
          .inr ⟨l', s', heq, hl', hasked, hgrow, hnext rfl⟩
        exact hpass.trans fun l'' s'' hl'' hin'' => ih hsplit' hin'' hl''

theorem passes_history (hs : s.Clean) (hrest : ∀ e ∈ rest.head?, e.key ≠ h.key)
    (hl : Delivered fails l (h.records.reverse ++ rest)) :
    Passes env threshold fails h l rest s (KeyDone threshold h) := by
  rw [h.reverse_records, append_assoc] at hl
  have hin : InKey threshold h [] h.committed.reverse s := by
    refine ⟨hs.2, ?_, by simp⟩
    rw [hs.1]
    intro htrue
    cases htrue
  refine (passes_committed (nil_append _).symm hin hrest hl).trans ?_
  intro l' s' hl' hdone
  unfold KeyHistory.intentEntries at hl'
  cases hintent : h.intent with
  | none =>
    rw [hintent] at hl'
    exact .inr ⟨l', s', rfl, hl', fun g => .inl, fun g => id, hdone⟩
  | some i =>
    rw [hintent] at hl'
    have hprov : ∃ w, windowOf false
        (KeyHistory.versionEntry h.key i.2 :: .metadata h.key i.1 :: rest) = some w ∧
        w.curIsIntent = true := by
      cases rest with
      | nil | cons => exact ⟨_, if_neg (fun hne => hne rfl), rfl⟩
    obtain ⟨w, hw, hwi⟩ := hprov
    refine (passes_other hl' hw (.inr hwi) hdone).trans ?_
    intro l'' s'' hl'' hdone'
    obtain ⟨w', hw', hwn⟩ := window_metadata h.key i.1 rest hrest
    exact passes_other hl'' hw' (.inl hwn) hdone'

end Blocks

end Cockroach.GC
