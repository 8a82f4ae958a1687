import Cockroach.Storage.MVCCCases
import Cockroach.Storage.Stats

/-! Writes and resolutions with the statistics they update and the operations they log. -/
namespace Cockroach.Storage
open ByteOrder Hlc Roachpb Except

inductive MVCCLogicalOpType where
  | writeValue
  | writeIntent
  | updateIntent
  | commitIntent
  | abortIntent
deriving DecidableEq, Repr

/-- An operation that is logged for the rangefeeds. -/
structure LogicalOp where
  type : MVCCLogicalOpType
  txn : Option TxnMeta
  key : Bytes
  timestamp : Timestamp
deriving DecidableEq, Repr

/-- What a call leaves besides the records of the key. -/
structure Effects where
  ms : MVCCStats
  ops : List LogicalOp

/-- The first version behind a key of the engine, where there is one of the same user key. -/
def KeyState.nextVersion (s : KeyState) (ts : Timestamp) : Option (VersionTimestamp × Bytes) :=
  match ts.prev with
  | none => none
  | some next => if next.IsEmpty then none else s.seekVersion next

/-- The version behind the one that a search at a timestamp finds. -/
def KeyState.versionAfter (s : KeyState) (ts : Timestamp) : Option (VersionTimestamp × Bytes) :=
  (s.versions.dropWhile fun v => engineRank ts < versionRank v.1).tail.head?

/-- The size of a version that may be missing. -/
def valueSize (v : Option (VersionTimestamp × Bytes)) : ℤ := v.elim 0 fun v => v.2.length

variable (marshal : MVCCMetadata → Bytes)

/-- The sizes of the metadata key and value, which `mvccGetMetadata` returns with the metadata. -/
def KeyState.metadataSizes (s : KeyState) (key : Bytes) : ℤ × ℤ :=
  match s.intents, s.inline, s.versions with
  | i :: _, _, _ => ((MVCCKey.mk key .empty).encodedSize, (marshal i.2).length)
  | [], some b, _ => ((MVCCKey.mk key .empty).encodedSize,
      (marshal { MVCCMetadata.zero with rawBytes := b }).length)
  | [], none, v :: _ =>
    ((MVCCKey.mk key v.1.1).encodedSize - KeyState.mvccVersionTimestampSize, 0)
  | [], none, [] => (0, 0)

/-- What a write replaces, with the sizes of its metadata and of the version below it. -/
structure Original where
  m : Option MVCCMetadata
  metaKeySize : ℤ
  metaValSize : ℤ
  prevValSize : ℤ

/-- The metadata of a write, which is stored for a transaction only. -/
def newMetadata (txn : Option Transaction) (p : PendingWrite) : MVCCMetadata :=
  match txn with
  | none => { MVCCMetadata.zero with
      timestamp := p.writeTimestamp
      deleted := p.value.isNone
      keyBytes := KeyState.mvccVersionTimestampSize
      valBytes := (p.value.getD []).length
      intentHistory := p.intentHistory }
  | some txn => newIntent txn p

namespace WithStats

/-- A finished write updates the statistics and is logged. -/
def finishWrite (key : Bytes) (txn : Option Transaction) (p : PendingWrite) (orig : Original)
    (logicalOp : MVCCLogicalOpType) (ms : MVCCStats) : Except MVCCError (PutResult × Effects) :=
  (Storage.finishWrite txn p).map fun r =>
    let newMeta := newMetadata txn p
    let metaKeySize := (MVCCKey.mk key .empty).encodedSize
    let metaValSize : ℤ := if txn.isSome then (marshal newMeta).length else 0
    (r, ⟨ms.add (updateStatsOnPut key orig.prevValSize orig.metaKeySize orig.metaValSize
      metaKeySize metaValSize orig.m newMeta), [⟨logicalOp, newMeta.txn, key, p.writeTimestamp⟩]⟩)

/-- Where the intent moves up, the version under it is looked up for the statistics. -/
def putVersioned (s : KeyState) (key : Bytes) (readTimestamp writeTimestamp : Timestamp)
    (value : Option Bytes) (txn : Option Transaction) (valueFn : Option ValueFn)
    (ms : MVCCStats) : Except MVCCError (PutResult × Effects) :=
  let sizes := s.metadataSizes marshal key
  let logicalOp := if txn.isSome then MVCCLogicalOpType.writeIntent else .writeValue
  match s.getMetadata with
  | none => do
    let value ← applyValueFn valueFn value none
    finishWrite marshal key txn ⟨s, [], value, writeTimestamp, none⟩ ⟨none, sizes.1, sizes.2, 0⟩
      logicalOp ms
  | some m =>
    match m.txn with
    | none => do
      let p ← overwriteCommitted marshal s m key readTimestamp writeTimestamp value txn.isSome
        valueFn
      finishWrite marshal key txn p ⟨some m, sizes.1, sizes.2, 0⟩ logicalOp ms
    | some metaTxn =>
      match txn.filter fun txn => txn.id = metaTxn.id with
      | none => .error (.writeIntent [(key, metaTxn)])
      | some txn =>
        overwriteIntent marshal s m metaTxn key readTimestamp value txn valueFn >>= fun
          | none => .ok ({ state := s }, ⟨ms, []⟩)
          | some p =>
            let prevValSize := if m.timestamp.Less txn.writeTimestamp then
              valueSize (s.nextVersion m.timestamp) else 0
            finishWrite marshal key (some txn) p ⟨some m, sizes.1, sizes.2, prevValSize⟩
              .updateIntent ms

/-- A write without a version, which changes the statistics directly. -/
def putInline (s : KeyState) (key : Bytes) (exist : Bool) (timestamp : Timestamp)
    (value : Option Bytes) (txn : Option Transaction) (valueFn : Option ValueFn)
    (ms : MVCCStats) : Except MVCCError (PutResult × Effects) :=
  let sizes := s.metadataSizes marshal key
  (Storage.putInline marshal s key exist timestamp value txn valueFn).map fun r =>
    let newSizes : ℤ × ℤ := match r.state.inline with
      | none => (0, 0)
      | some b => ((MVCCKey.mk key .empty).encodedSize,
          (marshal { MVCCMetadata.zero with rawBytes := b }).length)
    (r, ⟨updateStatsForInline ms key sizes.1 sizes.2 newSizes.1 newSizes.2,
      [⟨.writeValue, none, key, .empty⟩]⟩)

def mvccPutInternal (s : KeyState) (key : Bytes) (timestamp : Timestamp) (value : Option Bytes)
    (txn : Option Transaction) (valueFn : Option ValueFn) (ms : MVCCStats) :
    Except MVCCError (PutResult × Effects) :=
  if key = [] then .error .emptyKey
  else if s.getMetadata.any fun m => decide timestamp.IsEmpty != m.isInline then
    .error (.mixedInline timestamp.IsEmpty)
  else if timestamp.IsEmpty then
    putInline marshal s key s.getMetadata.isSome timestamp value txn valueFn ms
  else
    match txn with
    | none => putVersioned marshal s key timestamp timestamp value none valueFn ms
    | some t =>
      if t.readTimestamp ≠ timestamp then
        .error (.readTimestampMismatch t.readTimestamp timestamp)
      else putVersioned marshal s key t.readTimestamp t.writeTimestamp value (some t) valueFn ms

end WithStats

/-- A transaction that committed in the epoch of an intent commits it, unless the intent is at a
later timestamp. -/
def LockUpdate.commits (intent : LockUpdate) (metaTxn : TxnMeta) (metaTimestamp : Timestamp) :
    Bool :=
  intent.status = .committed ∧ metaTxn.epoch = intent.txn.epoch ∧
    metaTimestamp.LessEq intent.txn.writeTimestamp

def LockUpdate.inProgress (intent : LockUpdate) (metaTxn : TxnMeta) : Bool :=
  intent.status.isFinalized = false ∧ metaTxn.epoch ≥ intent.txn.epoch

/-- A transaction in progress pushes an intent to a later timestamp. -/
def LockUpdate.pushes (intent : LockUpdate) (metaTxn : TxnMeta) (metaTimestamp : Timestamp) :
    Bool :=
  intent.inProgress metaTxn && metaTimestamp.Less intent.txn.writeTimestamp

theorem resolveIntent_eq (s : KeyState) (intent : LockUpdate) (m : MVCCMetadata) (t : TxnMeta) :
    resolveIntent s intent m t =
      match mvccMaybeRewriteIntentHistory intent.ignoredSeqNums m t with
      | .remove => (removeIntent s t m.timestamp).map fun s => (s, true)
      | .unchanged =>
        if intent.inProgress t && !intent.pushes t m.timestamp then .ok (s, false)
        else if intent.commits t m.timestamp || intent.pushes t m.timestamp then
          (updateIntent s s intent m t m.timestamp (intent.commits t m.timestamp) none).map
            fun s => (s, true)
        else (removeIntent s t m.timestamp).map fun s => (s, true)
      | .restored m' t' value =>
        s.putMVCC m.timestamp value >>= fun s' =>
          (updateIntent s s' intent m' t' m.timestamp (intent.commits t m.timestamp)
            (some value)).map fun s => (s, true) :=
  rfl

namespace WithStats

/-- The sizes `origSizes` are those of the metadata as it was stored, while `m` has gone through a
rollback already. The operation is logged as a commit unless the intent was pushed. -/
def updateIntent (iter s : KeyState) (key : Bytes) (intent : LockUpdate) (m : MVCCMetadata)
    (metaTxn : TxnMeta) (metaTimestamp : Timestamp) (commit pushed : Bool)
    (rolledBackVal : Option Bytes) (origSizes : ℤ × ℤ) (ms : MVCCStats) :
    Except MVCCError (KeyState × Effects) :=
  Storage.updateIntent iter s intent m metaTxn metaTimestamp commit rolledBackVal >>= fun state =>
    let newTimestamp := if rolledBackVal.isSome then
      intent.txn.writeTimestamp.forward metaTimestamp else intent.txn.writeTimestamp
    let newMeta := { m with
      timestamp := newTimestamp
      txn := some { metaTxn with writeTimestamp := newTimestamp } }
    let metaValSize : ℤ := if commit then 0 else (marshal newMeta).length
    let prevValSize := if metaTimestamp.Less intent.txn.writeTimestamp then
      valueSize (iter.versionAfter metaTimestamp) else 0
    match updateStatsOnResolve key prevValSize origSizes.1 origSizes.2
        (MVCCKey.mk key .empty).encodedSize metaValSize m newMeta commit with
    | none => .error .panic
    | some stats => .ok (state, ⟨ms.add stats,
        [⟨if pushed then .updateIntent else .commitIntent,
          some { intent.txn with writeTimestamp := newTimestamp }, key, newTimestamp⟩]⟩)

/-- The version below the removed intent, if any is found, is the newest one again. -/
def removeIntent (s : KeyState) (key : Bytes) (intent : LockUpdate) (m : MVCCMetadata)
    (metaTxn : TxnMeta) (metaTimestamp : Timestamp) (origSizes : ℤ × ℤ) (ms : MVCCStats) :
    Except MVCCError (KeyState × Effects) :=
  (Storage.removeIntent s metaTxn metaTimestamp).map fun state =>
    let stats := match s.nextVersion metaTimestamp with
      | none => updateStatsOnClear key origSizes.1 origSizes.2 0 0 m none 0
      | some (ts, value) =>
        updateStatsOnClear key origSizes.1 origSizes.2 (MVCCKey.mk key .empty).encodedSize 0 m
          (some { MVCCMetadata.zero with
            deleted := value.length = 0
            keyBytes := KeyState.mvccVersionTimestampSize
            valBytes := value.length }) ts.1.wallTime
    (state, ⟨ms.add stats, [⟨.abortIntent, some intent.txn, key, .empty⟩]⟩)

def resolveIntent (s : KeyState) (key : Bytes) (intent : LockUpdate) (m : MVCCMetadata)
    (metaTxn : TxnMeta) (ms : MVCCStats) : Except MVCCError ((KeyState × Effects) × Bool) :=
  let metaTimestamp := m.timestamp
  let commit := intent.commits metaTxn metaTimestamp
  let inProgress := intent.inProgress metaTxn
  let pushed := intent.pushes metaTxn metaTimestamp
  let origSizes : ℤ × ℤ := ((MVCCKey.mk key .empty).encodedSize, (marshal m).length)
  match mvccMaybeRewriteIntentHistory intent.ignoredSeqNums m metaTxn with
  | .remove =>
    (removeIntent s key intent m metaTxn metaTimestamp origSizes ms).map fun r => (r, true)
  | .unchanged =>
    if inProgress && !pushed then .ok ((s, ⟨ms, []⟩), false)
    else if commit || pushed then
      (updateIntent marshal s s key intent m metaTxn metaTimestamp commit pushed none origSizes
        ms).map fun r => (r, true)
    else (removeIntent s key intent m metaTxn metaTimestamp origSizes ms).map fun r => (r, true)
  | .restored m metaTxn value => do
    let s' ← s.putMVCC metaTimestamp value
    (updateIntent marshal s s' key intent m metaTxn metaTimestamp commit pushed (some value)
      origSizes ms).map fun r => (r, true)

def mvccResolveWriteIntent (s : KeyState) (key : Bytes) (intent : LockUpdate) (ms : MVCCStats) :
    Except MVCCError ((KeyState × Effects) × Bool) :=
  if key = [] then .error .emptyKey
  else
    match s.intents.find? fun i => intent.txn.id ≤ i.1 with
    | none => .ok ((s, ⟨ms, []⟩), false)
    | some i =>
      match i.2.txn with
      | none => .ok ((s, ⟨ms, []⟩), false)
      | some metaTxn =>
        if intent.txn.id ≠ metaTxn.id then .ok ((s, ⟨ms, []⟩), false)
        else resolveIntent marshal s key intent i.2 metaTxn ms

section Cases

variable {marshal : MVCCMetadata → Bytes} {s iter : KeyState} {key : Bytes} {intent : LockUpdate}
  {m : MVCCMetadata} {t : TxnMeta} {ms : MVCCStats} {origSizes : ℤ × ℤ}

theorem exists_updateStatsOnResolve (key : Bytes)
    (prevValSize origMetaKeySize origMetaValSize metaKeySize metaValSize : ℤ)
    {orig : MVCCMetadata} (h : orig.deleted = m.deleted) (commit : Bool) :
    ∃ stats, updateStatsOnResolve key prevValSize origMetaKeySize origMetaValSize metaKeySize
      metaValSize orig m commit = some stats := by
  unfold updateStatsOnResolve
  rw [if_neg (not_not.mpr h)]
  split_ifs
  · exact ⟨_, rfl⟩
  · exact ⟨_, rfl⟩

variable {ts : Timestamp} {commit pushed : Bool} {rolledBackVal : Option Bytes}

theorem updateIntent_eq_ok {r : KeyState × Effects}
    (h : updateIntent marshal iter s key intent m t ts commit pushed rolledBackVal origSizes ms
      = .ok r) :
    Storage.updateIntent iter s intent m t ts commit rolledBackVal = .ok r.1 ∧
      ∃ stats newTimestamp,
        newTimestamp = (if rolledBackVal.isSome then intent.txn.writeTimestamp.forward ts
          else intent.txn.writeTimestamp) ∧
        updateStatsOnResolve key (if ts.Less intent.txn.writeTimestamp then
            valueSize (iter.versionAfter ts) else 0) origSizes.1 origSizes.2
          (MVCCKey.mk key .empty).encodedSize
          (if commit then 0 else (marshal { m with
            timestamp := newTimestamp
            txn := some { t with writeTimestamp := newTimestamp } }).length) m
          { m with timestamp := newTimestamp
                   txn := some { t with writeTimestamp := newTimestamp } } commit = some stats ∧
        r.2 = ⟨ms.add stats, [⟨if pushed then .updateIntent else .commitIntent,
          some { intent.txn with writeTimestamp := newTimestamp }, key, newTimestamp⟩]⟩ := by
  obtain ⟨state, hstate, h⟩ := bind_eq_ok h
  dsimp only at h
  split at h
  · cases h
  · rename_i stats hstats
    obtain rfl := ok.inj h
    exact ⟨hstate, stats, _, rfl, hstats, rfl⟩

theorem map_updateIntent :
    (updateIntent marshal iter s key intent m t ts commit pushed rolledBackVal origSizes ms).map
      Prod.fst = Storage.updateIntent iter s intent m t ts commit rolledBackVal := by
  unfold updateIntent
  cases Storage.updateIntent iter s intent m t ts commit rolledBackVal with
  | error e => rfl
  | ok state =>
    dsimp only [bind, Except.bind]
    split
    · rename_i hnone
      set newTimestamp := if rolledBackVal.isSome then intent.txn.writeTimestamp.forward ts
        else intent.txn.writeTimestamp
      obtain ⟨stats, hstats⟩ := exists_updateStatsOnResolve key
        (if ts.Less intent.txn.writeTimestamp then valueSize (iter.versionAfter ts) else 0)
        origSizes.1 origSizes.2 (MVCCKey.mk key .empty).encodedSize
        (if commit then 0 else (marshal { m with
          timestamp := newTimestamp
          txn := some { t with writeTimestamp := newTimestamp } }).length)
        (show m.deleted = ({ m with
          timestamp := newTimestamp
          txn := some { t with writeTimestamp := newTimestamp } } : MVCCMetadata).deleted from rfl)
        commit
      rw [hstats] at hnone
      cases hnone
    · rfl

theorem map_resolveIntent :
    (resolveIntent marshal s key intent m t ms).map (fun r => (r.1.1, r.2)) =
      Storage.resolveIntent s intent m t := by
  have hmap : ∀ x : Except MVCCError (KeyState × Effects),
      (x.map fun r => (r, true)).map (fun r => (r.1.1, r.2)) =
        (x.map Prod.fst).map fun s => (s, true) := by
    intro x
    cases x <;> rfl
  have hremove : ∀ sizes, (removeIntent s key intent m t m.timestamp sizes ms).map Prod.fst =
      Storage.removeIntent s t m.timestamp := by
    intro sizes
    unfold removeIntent
    cases Storage.removeIntent s t m.timestamp <;> rfl
  rw [resolveIntent_eq]
  unfold resolveIntent
  cases mvccMaybeRewriteIntentHistory intent.ignoredSeqNums m t with
  | remove =>
    rw [hmap, hremove]
  | unchanged =>
    dsimp only
    split_ifs
    · rfl
    · rw [hmap, map_updateIntent]
    · rw [hmap, hremove]
  | restored m' t' value =>
    dsimp only
    cases s.putMVCC m.timestamp value with
    | error e => rfl
    | ok s' =>
      dsimp only [bind, Except.bind]
      rw [hmap, map_updateIntent]

theorem map_mvccResolveWriteIntent :
    (mvccResolveWriteIntent marshal s key intent ms).map (fun r => (r.1.1, r.2)) =
      Storage.mvccResolveWriteIntent s key intent := by
  unfold mvccResolveWriteIntent Storage.mvccResolveWriteIntent
  split_ifs
  · rfl
  cases s.intents.find? fun i => intent.txn.id ≤ i.1 with
  | none => rfl
  | some i =>
    dsimp only
    cases i.2.txn with
    | none => rfl
    | some metaTxn =>
      dsimp only
      split_ifs
      · rfl
      · exact map_resolveIntent

/-- The intent goes because everything is rolled back, or because it neither stays in progress
nor commits. -/
def Removes (intent : LockUpdate) (m : MVCCMetadata) (t : TxnMeta) : Prop :=
  mvccMaybeRewriteIntentHistory intent.ignoredSeqNums m t = .remove ∨
    mvccMaybeRewriteIntentHistory intent.ignoredSeqNums m t = .unchanged ∧
      intent.commits t m.timestamp = false ∧ intent.inProgress t = false

/-- What a resolution that succeeds has done: nothing, or it has removed the intent, moved or
committed it as it is, or moved or committed it with an earlier value. -/
theorem mvccResolveWriteIntent_cases {r : (KeyState × Effects) × Bool}
    (h : mvccResolveWriteIntent marshal s key intent ms = .ok r) : r = ((s, ⟨ms, []⟩), false) ∨
      ∃ i ∈ s.intents, ∃ t, i.2.txn = some t ∧ t.id = intent.txn.id ∧
        let sizes : ℤ × ℤ := ((MVCCKey.mk key .empty).encodedSize, (marshal i.2).length)
        let commit := intent.commits t i.2.timestamp
        let pushed := intent.pushes t i.2.timestamp
        (Removes intent i.2 t ∧
            removeIntent s key intent i.2 t i.2.timestamp sizes ms = .ok r.1) ∨
          (mvccMaybeRewriteIntentHistory intent.ignoredSeqNums i.2 t = .unchanged ∧
            (commit = true ∨ pushed = true) ∧ updateIntent marshal s s key intent i.2 t
              i.2.timestamp commit pushed none sizes ms = .ok r.1) ∨
          ∃ m' t' value s', mvccMaybeRewriteIntentHistory intent.ignoredSeqNums i.2 t =
              .restored m' t' value ∧ s.putMVCC i.2.timestamp value = .ok s' ∧
            updateIntent marshal s s' key intent m' t' i.2.timestamp commit pushed (some value)
              sizes ms = .ok r.1 := by
  unfold mvccResolveWriteIntent at h
  split_ifs at h
  split at h
  · exact .inl (ok.inj h).symm
  rename_i i hfind
  split at h
  · exact .inl (ok.inj h).symm
  rename_i t ht
  split_ifs at h with hid
  · exact .inl (ok.inj h).symm
  unfold resolveIntent at h
  have hmem := List.mem_of_find?_eq_some hfind
  have hid' : t.id = intent.txn.id := (not_not.mp hid).symm
  cases hrewrite : mvccMaybeRewriteIntentHistory intent.ignoredSeqNums i.2 t with
  | remove =>
    rw [hrewrite] at h
    obtain ⟨r', hr', rfl⟩ := map_eq_ok h
    exact .inr ⟨i, hmem, t, ht, hid', .inl ⟨.inl hrewrite, hr'⟩⟩
  | unchanged =>
    rw [hrewrite] at h
    dsimp only at h
    split_ifs at h with hkeep hupdate
    · exact .inl (ok.inj h).symm
    · obtain ⟨r', hr', rfl⟩ := map_eq_ok h
      rw [Bool.or_eq_true] at hupdate
      exact .inr ⟨i, hmem, t, ht, hid', .inr (.inl ⟨hrewrite, hupdate, hr'⟩)⟩
    · obtain ⟨r', hr', rfl⟩ := map_eq_ok h
      have hopen : intent.commits t i.2.timestamp = false ∧ intent.inProgress t = false := by
        cases hc : intent.commits t i.2.timestamp <;> cases hp : intent.pushes t i.2.timestamp <;>
          simp_all
      exact .inr ⟨i, hmem, t, ht, hid', .inl ⟨.inr ⟨hrewrite, hopen⟩, hr'⟩⟩
  | restored m' t' value =>
    rw [hrewrite] at h
    obtain ⟨s', hs', h⟩ := bind_eq_ok h
    obtain ⟨r', hr', rfl⟩ := map_eq_ok h
    exact .inr ⟨i, hmem, t, ht, hid', .inr (.inr ⟨m', t', value, s', hrewrite, hs', hr'⟩)⟩

theorem map_finishWrite (txn : Option Transaction) (p : PendingWrite) (orig : Original)
    (logicalOp : MVCCLogicalOpType) :
    (finishWrite marshal key txn p orig logicalOp ms).map Prod.fst = Storage.finishWrite txn p := by
  unfold finishWrite
  cases Storage.finishWrite txn p <;> rfl

theorem map_bind_fst {α β γ : Type} {x : Except MVCCError α} {f : α → Except MVCCError (β × γ)}
    {g : α → Except MVCCError β} (h : ∀ a, (f a).map Prod.fst = g a) :
    (x >>= f).map Prod.fst = x >>= g := by
  cases x with
  | error e => rfl
  | ok a => exact h a

variable {value : Option Bytes} {txn : Option Transaction} {valueFn : Option ValueFn}

theorem map_putVersioned {readTimestamp writeTimestamp : Timestamp} :
    (putVersioned marshal s key readTimestamp writeTimestamp value txn valueFn ms).map Prod.fst =
      Storage.putVersioned marshal s key readTimestamp writeTimestamp value txn valueFn := by
  unfold putVersioned Storage.putVersioned
  cases s.getMetadata with
  | none => exact map_bind_fst fun v => map_finishWrite txn _ _ _
  | some m =>
    dsimp only
    cases m.txn with
    | none => exact map_bind_fst fun p => map_finishWrite txn p _ _
    | some metaTxn =>
      dsimp only
      cases txn.filter fun txn => txn.id = metaTxn.id with
      | none => rfl
      | some t =>
        refine map_bind_fst fun o => ?_
        cases o with
        | none => rfl
        | some p => exact map_finishWrite (some t) p _ _

theorem map_mvccPutInternal {timestamp : Timestamp} :
    (mvccPutInternal marshal s key timestamp value txn valueFn ms).map Prod.fst =
      Storage.mvccPutInternal marshal s key timestamp value txn valueFn := by
  unfold mvccPutInternal Storage.mvccPutInternal
  split_ifs
  · rfl
  · rfl
  · unfold putInline
    cases Storage.putInline marshal s key s.getMetadata.isSome timestamp value txn valueFn <;> rfl
  · cases txn with
    | none => exact map_putVersioned
    | some t =>
      dsimp only
      split_ifs
      · rfl
      · exact map_putVersioned

end Cases

end WithStats
end Cockroach.Storage
