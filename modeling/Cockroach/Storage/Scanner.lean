import Cockroach.Library.Cursor
import Cockroach.Storage.Metadata
import Cockroach.Storage.MVCCKey

/-! The MVCC scanner, which reads the visible version of each key of a span. -/
namespace Cockroach.Storage
open ByteOrder Hlc

/-- The timestamp of a version, which is never the empty one. -/
abbrev VersionTimestamp := { t : Timestamp // ¬ t.IsEmpty }

/-- A record of the engine: the metadata of a key, or one of its versions. -/
inductive Entry where
  | metadata (key : Bytes) (m : MVCCMetadata)
  | version (key : Bytes) (ts : VersionTimestamp) (value : Bytes)
deriving DecidableEq, Repr

def Entry.mvccKey : Entry → MVCCKey
  | .metadata key _ => ⟨key, .empty⟩
  | .version key ts _ => ⟨key, ts.1⟩

def Entry.key (e : Entry) : Bytes := e.mvccKey.key

def Entry.timestamp (e : Entry) : Timestamp := e.mvccKey.timestamp

/-- Whether a record sorts before a key in the engine. -/
def Entry.before (k : MVCCKey) (e : Entry) : Bool :=
  engineKeyCompare (encodeMVCCKey e.mvccKey) (encodeMVCCKey k) = .lt

/-- A transaction as far as reads and writes of the storage layer use it. -/
structure Transaction extends TxnMeta where
  readTimestamp : Timestamp
  ignoredSeqNums : List IgnoredSeqNumRange
deriving DecidableEq, Repr

/-- The uncertainty interval of a reader. -/
structure Interval where
  globalLimit : Timestamp
  localLimit : Timestamp

def Interval.isUncertain (i : Interval) (valueTs : Timestamp) : Bool :=
  if ¬ i.localLimit.IsEmpty ∧ valueTs.synthetic = false then valueTs.LessEq i.localLimit
  else valueTs.LessEq i.globalLimit

inductive ResumeReason where
  | keyLimit
  | byteLimit
  | intentLimit
deriving DecidableEq, Repr

inductive ScanError where
  | intentWithoutTransaction
  | writeTooOld (ts actual : Timestamp) (key : Bytes)
  | uncertainty (readTs existingTs localLimit : Timestamp)
  | epoch (txnEpoch metaEpoch : ℤ)
  | panic
deriving DecidableEq, Repr

/-- The parameters of a scan, which do not change while it runs. The stored form of a metadata
record is a parameter too, as it is written by generated code. -/
structure ScanOptions where
  marshal : MVCCMetadata → Bytes
  reverse : Bool
  start : Bytes
  stop : Bytes
  ts : Timestamp
  maxKeys : ℕ
  targetBytes : ℕ
  targetBytesAvoidExcess : Bool
  allowEmpty : Bool
  maxIntents : ℕ
  txn : Option Transaction
  uncertainty : Interval
  inconsistent : Bool
  tombstones : Bool
  failOnMoreRecent : Bool
  isGet : Bool

/-- Uncertainty is checked unless the read timestamp is at or above the global limit. -/
def ScanOptions.checkUncertainty (o : ScanOptions) : Bool := o.ts.Less o.uncertainty.globalLimit

def maxItersBeforeSeek : ℕ := 10

/-- A key and the value that was read for it. -/
structure ScanResult where
  key : Bytes
  timestamp : Timestamp
  value : Bytes
deriving DecidableEq, Repr

/-- The state of a scan. The iteration count stays within its bounds. -/
structure Scanner where
  parent : Cursor Entry
  peeked : Bool
  cur : Entry
  itersBeforeSeek : ℕ
  iters_pos : 1 ≤ itersBeforeSeek
  iters_le : itersBeforeSeek ≤ maxItersBeforeSeek
  results : List ScanResult
  bytes : ℕ
  intents : List (Bytes × MVCCMetadata)
  resumeReason : Option ResumeReason
  resumeKey : Option Bytes
  resumeNextBytes : ℕ
  mostRecentTS : Timestamp
  mostRecentKey : Bytes
  err : Option ScanError

namespace Scanner

def incrementItersBeforeSeek (s : Scanner) : Scanner :=
  { s with
    itersBeforeSeek := min (s.itersBeforeSeek + 1) maxItersBeforeSeek
    iters_pos := by
      unfold maxItersBeforeSeek
      omega
    iters_le := by omega }

def decrementItersBeforeSeek (s : Scanner) : Scanner :=
  { s with
    itersBeforeSeek := max (s.itersBeforeSeek - 1) 1
    iters_pos := by omega
    iters_le := by
      have h := s.iters_le
      unfold maxItersBeforeSeek at h ⊢
      omega }

/-- Whether the scan can go on, and its state. -/
abbrev Step := Bool × Scanner

def updateCurrent (s : Scanner) : Step :=
  match s.parent.current with
  | none => (false, s)
  | some e => (true, { s with cur := e })

def clearPeeked (o : ScanOptions) (s : Scanner) : Scanner :=
  if o.reverse then { s with peeked := false } else s

def iterSeek (o : ScanOptions) (k : MVCCKey) (s : Scanner) : Step :=
  let s := s.clearPeeked o
  updateCurrent { s with parent := s.parent.seekGE (Entry.before k) }

/-- Advance to the next record; a scanner that has peeked is one record behind. -/
def iterNext (o : ScanOptions) (s : Scanner) : Step :=
  if o.reverse && s.peeked then
    let s := { s with peeked := false }
    match s.parent.current with
    | none =>
      -- It was peeked off the beginning of the iteration.
      let s := { s with parent := s.parent.seekGE (Entry.before ⟨o.start, .empty⟩) }
      match s.parent.current with
      | none => (false, s)
      | some _ => updateCurrent { s with parent := s.parent.next }
    | some _ =>
      let s := { s with parent := s.parent.next }
      match s.parent.current with
      | none => (false, s)
      | some _ => updateCurrent { s with parent := s.parent.next }
  else updateCurrent { s with parent := s.parent.next }

def iterPrev (s : Scanner) : Step :=
  if s.peeked then updateCurrent { s with peeked := false }
  else updateCurrent { s with parent := s.parent.prev }

/-- Move to the previous record while the current one stays, and return the key there. -/
def iterPeekPrev (s : Scanner) : Option Bytes × Scanner :=
  let s := if s.peeked then s else { s with peeked := true, parent := s.parent.prev }
  (s.parent.current.map Entry.key, s)

/-- Back up to the latest version of a key, in at most `n` steps before a seek. -/
def backwardLatestVersion (o : ScanOptions) (key : Bytes) : ℕ → Scanner → Step
  | 0, s => iterSeek o ⟨key, .empty⟩ s.decrementItersBeforeSeek
  | n + 1, s =>
    match s.iterPeekPrev with
    | (none, s) => (true, s)
    | (some peekedKey, s) =>
      if peekedKey ≠ key then (true, s.incrementItersBeforeSeek)
      else
        match s.iterPrev with
        | (false, s) => (false, s)
        | (true, s) => backwardLatestVersion o key n s

def iterSeekReverse (o : ScanOptions) (k : MVCCKey) (s : Scanner) : Step :=
  let s := s.clearPeeked o
  match updateCurrent { s with parent := s.parent.seekLT (Entry.before k) } with
  | (false, s) => (false, s)
  | (true, s) =>
    if s.cur.timestamp.IsEmpty then (true, s)
    else backwardLatestVersion o s.cur.key s.itersBeforeSeek s

/-- Move to the latest version of the key before `key`, in at most `n` steps before a seek. -/
def prevKeyFrom (o : ScanOptions) (key : Bytes) : ℕ → Scanner → Step
  | 0, s => iterSeekReverse o ⟨key, .empty⟩ s.decrementItersBeforeSeek
  | n + 1, s =>
    match s.iterPeekPrev with
    | (none, s) => (false, s)
    | (some peekedKey, s) =>
      if peekedKey ≠ key then backwardLatestVersion o peekedKey n s
      else
        match s.iterPrev with
        | (false, s) => (false, s)
        | (true, s) => prevKeyFrom o key n s

def prevKey (o : ScanOptions) (key : Bytes) (s : Scanner) : Step :=
  prevKeyFrom o key s.itersBeforeSeek s

/-- Move to the key after `key`, in at most `n` steps before a seek. -/
def nextKeyFrom (o : ScanOptions) (key : Bytes) : ℕ → Scanner → Step
  | 0, s => iterSeek o ⟨key ++ [0], .empty⟩ s.decrementItersBeforeSeek
  | n + 1, s =>
    match s.iterNext o with
    | (false, s) => (false, s)
    | (true, s) =>
      if s.cur.key ≠ key then (true, s.incrementItersBeforeSeek) else nextKeyFrom o key n s

def nextKey (o : ScanOptions) (s : Scanner) : Step := nextKeyFrom o s.cur.key s.itersBeforeSeek s

def advanceKey (o : ScanOptions) (s : Scanner) : Step :=
  if o.isGet then (false, s)
  else if o.reverse then s.prevKey o s.cur.key
  else s.nextKey o

def advanceKeyAtEnd (o : ScanOptions) (s : Scanner) : Step :=
  if o.reverse then
    -- Iterating forward has left the span: back up to its last record.
    match updateCurrent { s with
        peeked := false, parent := s.parent.seekLT (Entry.before ⟨o.stop, .empty⟩) } with
    | (false, s) => (false, s)
    | (true, s) => s.advanceKey o
  else (false, s)

def advanceKeyAtNewKey (o : ScanOptions) (key : Bytes) (s : Scanner) : Step :=
  if o.reverse then s.prevKey o key else (true, s)

def kvLenSize : ℕ := 8

/-- The size of a key and a value in the result buffer. -/
def sizeOfResult (r : ScanResult) : ℕ :=
  kvLenSize + encodedMVCCKeyLength ⟨r.key, r.timestamp⟩ + r.value.length

/-- The limit that another result would exceed. -/
def limitReached (o : ScanOptions) (r : ScanResult) (s : Scanner) : Option ResumeReason :=
  if 0 < o.targetBytes ∧ (o.targetBytes ≤ s.bytes ∨
      o.targetBytesAvoidExcess = true ∧ o.targetBytes < s.bytes + sizeOfResult r) then
    some .byteLimit
  else if 0 < o.maxKeys ∧ o.maxKeys ≤ s.results.length then some .keyLimit
  else none

/-- Add a result unless it is a tombstone or exceeds a limit, and go on to the next key. -/
def addAndAdvance (o : ScanOptions) (r : ScanResult) (s : Scanner) : Step :=
  if r.value = [] ∧ o.tombstones = false then s.advanceKey o
  else
    match limitReached o r s with
    | some reason =>
      -- The first result is returned all the same, unless an empty result is allowed.
      if o.allowEmpty = false ∧ s.results = [] then add s
      else (false, { s with
        resumeReason := some reason
        resumeKey := some r.key
        resumeNextBytes := if reason = .byteLimit then sizeOfResult r else 0 })
    | none => add s
where
  add (s : Scanner) : Step :=
    let s := { s with results := s.results ++ [r], bytes := s.bytes + sizeOfResult r }
    if 0 < o.maxKeys ∧ o.maxKeys ≤ s.results.length then
      (false, { s with resumeReason := some .keyLimit })
    else s.advanceKey o

def curValue (o : ScanOptions) : Entry → Bytes
  | .metadata _ m => o.marshal m
  | .version _ _ value => value

def addCurrent (o : ScanOptions) (s : Scanner) : Step :=
  s.addAndAdvance o ⟨s.cur.key, s.cur.timestamp, curValue o s.cur⟩

def uncertaintyError (o : ScanOptions) (ts : Timestamp) (s : Scanner) : Step :=
  (false, { s with
    err := some (.uncertainty o.ts ts o.uncertainty.localLimit), results := [], bytes := 0,
    intents := [] })

/-- The records of the key from the sought version on, while they are above the read timestamp
and have to be checked for uncertainty. -/
def seekVersionFrom (o : ScanOptions) (origKey : Bytes) (uncertaintyCheck : Bool) :
    ℕ → Scanner → Step
  | 0, s => (false, s)
  | fuel + 1, s =>
    if s.cur.key ≠ origKey then s.advanceKeyAtNewKey o origKey
    else if uncertaintyCheck = false ∨ s.cur.timestamp.LessEq o.ts then s.addCurrent o
    else if o.uncertainty.isUncertain s.cur.timestamp then s.uncertaintyError o s.cur.timestamp
    else
      match s.iterNext o with
      | (false, s) => s.advanceKeyAtEnd o
      | (true, s) => seekVersionFrom o origKey uncertaintyCheck fuel s

def seekVersionAt (o : ScanOptions) (origKey : Bytes) (seekTS : Timestamp)
    (uncertaintyCheck : Bool) (s : Scanner) : Step :=
  match s.decrementItersBeforeSeek.iterSeek o ⟨origKey, seekTS⟩ with
  | (false, s) => s.advanceKeyAtEnd o
  | (true, s) => seekVersionFrom o origKey uncertaintyCheck (s.parent.entries.length + 1) s

/-- The steps before the seek: iteration `i`, with `n` iterations up to the maximum. -/
def seekVersionLoop (o : ScanOptions) (origKey : Bytes) (seekTS : Timestamp)
    (uncertaintyCheck : Bool) : ℕ → ℕ → Scanner → Step
  | 0, _, s => seekVersionAt o origKey seekTS uncertaintyCheck s
  | n + 1, i, s =>
    if i < s.itersBeforeSeek then
      match s.iterNext o with
      | (false, s) => s.advanceKeyAtEnd o
      | (true, s) =>
        if s.cur.key ≠ origKey then s.incrementItersBeforeSeek.advanceKeyAtNewKey o origKey
        else if s.cur.timestamp.LessEq seekTS then
          let s := s.incrementItersBeforeSeek
          if uncertaintyCheck = false ∨ s.cur.timestamp.LessEq o.ts then s.addCurrent o
          else if o.uncertainty.isUncertain s.cur.timestamp then
            s.uncertaintyError o s.cur.timestamp
          else seekVersionLoop o origKey seekTS uncertaintyCheck n (i + 1) s
        else seekVersionLoop o origKey seekTS uncertaintyCheck n (i + 1) s
    else seekVersionAt o origKey seekTS uncertaintyCheck s

/-- Find the latest version of the current key at or below a timestamp and add it. -/
def seekVersion (o : ScanOptions) (seekTS : Timestamp) (uncertaintyCheck : Bool) (s : Scanner) :
    Step :=
  seekVersionLoop o s.cur.key seekTS uncertaintyCheck maxItersBeforeSeek 0 s

/-- The value that the transaction wrote last at or before its sequence number, leaving out what
it has rolled back. Only overwritten values are searched. -/
def getFromIntentHistory (m : MVCCMetadata) (seq : ℤ) (ignored : List IgnoredSeqNumRange) :
    Option Bytes :=
  let upIdx := Search.search m.intentHistory.length fun i => sequenceAt m.intentHistory i > seq
  skipIgnored upIdx
where
  skipIgnored : ℕ → Option Bytes
    | 0 => none
    | upIdx + 1 =>
      if txnSeqIsIgnored (sequenceAt m.intentHistory upIdx) ignored then skipIgnored upIdx
      else some (m.intentHistory.getD upIdx default).value

/-- A version at or above the read timestamp of a scan that fails on more recent values. -/
def noteMoreRecent (o : ScanOptions) (ts : Timestamp) (s : Scanner) : Step :=
  advanceKey o { s with
    mostRecentTS := s.mostRecentTS.forward ts
    mostRecentKey := if s.mostRecentKey = [] then s.cur.key else s.mostRecentKey }

def fail (e : ScanError) (s : Scanner) : Step := (false, { s with err := some e })

def getVersion (o : ScanOptions) (ts : Timestamp) (s : Scanner) : Step :=
  if ts.Less o.ts then s.addCurrent o
  else if ts.EqOrdering o.ts then
    if o.failOnMoreRecent then s.noteMoreRecent o ts else s.addCurrent o
  else if o.failOnMoreRecent then s.noteMoreRecent o ts
  else if o.checkUncertainty then
    if o.uncertainty.isUncertain ts then s.uncertaintyError o ts
    else s.seekVersion o o.uncertainty.globalLimit true
  else s.seekVersion o o.ts false

/-- The intent of the reading transaction. -/
def getOwnIntent (o : ScanOptions) (txn : Transaction) (m : MVCCMetadata) (metaTxn : TxnMeta)
    (prevTS : Timestamp) (s : Scanner) : Step :=
  if txn.epoch = metaTxn.epoch then
    if txn.sequence ≥ metaTxn.sequence ∧
        txnSeqIsIgnored metaTxn.sequence txn.ignoredSeqNums = false then
      s.seekVersion o m.timestamp false
    else
      match getFromIntentHistory m txn.sequence txn.ignoredSeqNums with
      | some value => s.addAndAdvance o ⟨s.cur.key, m.timestamp, value⟩
      | none => s.seekVersion o prevTS false
  else if txn.epoch < metaTxn.epoch then s.fail (.epoch txn.epoch metaTxn.epoch)
  else s.seekVersion o prevTS false

/-- A key with an intent. The intent is skipped by reading strictly below it at `prevTS`. -/
def getIntent (o : ScanOptions) (m : MVCCMetadata) (metaTxn : TxnMeta) (prevTS : Timestamp)
    (s : Scanner) : Step :=
  let metaTS := m.timestamp
  let own := o.txn.filter fun txn => txn.id = metaTxn.id
  let conflictingIntent : Bool := metaTS.LessEq o.ts || o.failOnMoreRecent
  if own.isNone ∧ conflictingIntent = false then
    if o.checkUncertainty then
      if o.uncertainty.isUncertain metaTS then s.uncertaintyError o metaTS
      else s.seekVersion o o.uncertainty.globalLimit true
    else s.seekVersion o o.ts false
  else if o.inconsistent then
    seekVersion o prevTS false { s with intents := s.intents ++ [(s.cur.key, m)] }
  else
    match own with
    | none =>
      let s := { s with intents := s.intents ++ [(s.cur.key, m)] }
      if 0 < o.maxIntents ∧ o.maxIntents ≤ s.intents.length then
        (false, { s with resumeReason := some .intentLimit })
      else s.advanceKey o
    | some txn => s.getOwnIntent o txn m metaTxn prevTS

/-- Emit the result of the current key and move on to the next one. -/
def getAndAdvance (o : ScanOptions) (s : Scanner) : Step :=
  match s.cur with
  | .version _ ts _ => s.getVersion o ts.1
  | .metadata key m =>
    if m.rawBytes ≠ [] then s.addAndAdvance o ⟨key, .empty, m.rawBytes⟩
    else
      match m.txn with
      | none => s.fail .intentWithoutTransaction
      | some metaTxn =>
        match if m.timestamp.LessEq o.ts then m.timestamp.prev else some o.ts with
        | none => s.fail .panic
        | some prevTS => s.getIntent o m metaTxn prevTS

/-- Fail if a more recent value was found and there is no other error. -/
def maybeFailOnMoreRecent (o : ScanOptions) (s : Scanner) : Scanner :=
  if s.err.isSome ∨ s.mostRecentTS.IsEmpty then s
  else
    match s.mostRecentTS.next with
    | none => { s with err := some .panic }
    | some actual =>
      { s with
        err := some (.writeTooOld o.ts actual s.mostRecentKey), results := [], bytes := 0,
        intents := [] }

/-- The loop of `scan`; there is no result if it needs more than `fuel` iterations. -/
def scanLoop (o : ScanOptions) : ℕ → Scanner → Option Scanner
  | 0, _ => none
  | fuel + 1, s =>
    match s.getAndAdvance o with
    | (true, s) => scanLoop o fuel s
    | (false, s) => some s

/-- The state in which a scan over the records of a span starts. -/
def init (entries : List Entry) (itersBeforeSeek : ℕ) (hpos : 1 ≤ itersBeforeSeek)
    (hle : itersBeforeSeek ≤ maxItersBeforeSeek) : Scanner where
  parent := ⟨entries, 0⟩
  peeked := false
  cur := .metadata [] .zero
  itersBeforeSeek := itersBeforeSeek
  iters_pos := hpos
  iters_le := hle
  results := []
  bytes := 0
  intents := []
  resumeReason := none
  resumeKey := none
  resumeNextBytes := 0
  mostRecentTS := .empty
  mostRecentKey := []
  err := none

/-- Read the keys of the span, up to a limit or an error. -/
def scan (o : ScanOptions) (fuel : ℕ) (s : Scanner) : Option Scanner :=
  match if o.reverse then s.iterSeekReverse o ⟨o.stop, .empty⟩
    else s.iterSeek o ⟨o.start, .empty⟩ with
  | (false, s) => some s
  | (true, s) => (scanLoop o fuel s).map (maybeFailOnMoreRecent o)

def get (o : ScanOptions) (s : Scanner) : Scanner :=
  match updateCurrent { s with parent := s.parent.seekGE (Entry.before ⟨o.start, .empty⟩) } with
  | (false, s) => s
  | (true, s) => maybeFailOnMoreRecent o (s.getAndAdvance o).2

end Scanner
end Cockroach.Storage
