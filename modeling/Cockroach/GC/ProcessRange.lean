import Cockroach.GC.Iterator

/-! The collection of garbage versions in the replicated key ranges. -/
namespace Cockroach.GC
open ByteOrder Hlc Storage

def keyVersionChunkBytes : ℕ := 256 * 1000

/-- All versions of the key at or below the timestamp are to be removed. -/
structure GCKey where
  key : Bytes
  timestamp : Timestamp
deriving DecidableEq, Repr

/-- How a request of `gcer.GC` ends. A cancelled context ends the whole run. -/
inductive GCOutcome where
  | ok
  | failed
  | cancelled
deriving DecidableEq, Repr

inductive RunError where
  | iterator
  | cancelled
  | gc
deriving DecidableEq, Repr

/-- What happens around a run: the outcome of each request, whether the context was cancelled when
an intent was handed to the intent resolver, and after how many entries the iterator fails. -/
structure Environment where
  gc : ℕ → GCOutcome
  intentCancelled : Entry → Bool
  flushCancelled : Bool
  failAfter : Option ℕ

def encodedSize (e : Entry) : ℕ :=
  e.key.length + 1 + if isValue e then KeyState.mvccVersionTimestampSize else 0

def valueOf : Entry → Bytes
  | .metadata _ _ => []
  | .version _ _ value => value

/-- Whether a version is garbage, given the next newer version of its key. There is no result where
the function panics. -/
def isGarbage (threshold : Timestamp) (cur : Entry) (next : Option Entry) (isNewest : Bool) :
    Option Bool :=
  if ¬ cur.timestamp.LessEq threshold then some false
  else
    let isDelete : Bool := valueOf cur = []
    if isNewest && !isDelete then some false
    else if isDelete then some true
    else next.map fun next => next.timestamp.LessEq threshold

/-- The variables of the loop over all versions, with the requests that were sent. -/
structure LoopState where
  batchGCKeys : List GCKey
  batchGCKeysBytes : ℕ
  haveGarbageForThisKey : Bool
  gcTimestampForThisKey : Timestamp
  sentBatchForThisKey : Bool
  numKeysAffected : ℕ
  affectedVersionsKeyBytes : ℕ
  affectedVersionsValBytes : ℕ
  requests : List (List GCKey × GCOutcome)

namespace LoopState

def initial : LoopState := ⟨[], 0, false, .empty, false, 0, 0, 0, []⟩

def noteGarbage (cur : Entry) (s : LoopState) : LoopState :=
  { s with
    batchGCKeysBytes := s.batchGCKeysBytes + encodedSize cur
    haveGarbageForThisKey := true
    gcTimestampForThisKey := cur.timestamp
    affectedVersionsKeyBytes := s.affectedVersionsKeyBytes + encodedSize cur
    affectedVersionsValBytes := s.affectedVersionsValBytes + (valueOf cur).length }

def noteAffected (isNewest : Bool) (s : LoopState) : LoopState :=
  if isNewest && (s.sentBatchForThisKey || s.haveGarbageForThisKey) then
    { s with numKeysAffected := s.numKeysAffected + 1 }
  else s

def shouldSendBatch (s : LoopState) : Bool := s.batchGCKeysBytes ≥ keyVersionChunkBytes

/-- Add the key with the newest garbage timestamp to the batch. -/
def addKey (cur : Entry) (isNewest : Bool) (s : LoopState) : LoopState :=
  { s with
    batchGCKeys := s.batchGCKeys ++ [⟨cur.key, s.gcTimestampForThisKey⟩]
    haveGarbageForThisKey := false
    gcTimestampForThisKey := .empty
    sentBatchForThisKey := s.shouldSendBatch && !isNewest }

/-- Send the batch. Where the context was cancelled the run stops before the batch is reset. -/
def sendBatch (env : Environment) (s : LoopState) : Bool × LoopState :=
  let outcome := env.gc s.requests.length
  let s := { s with requests := s.requests ++ [(s.batchGCKeys, outcome)] }
  if outcome = .cancelled then (true, s)
  else (false, { s with batchGCKeys := [], batchGCKeysBytes := 0 })

def visitVersion (env : Environment) (cur : Entry) (isNewest garbage : Bool) (s : LoopState) :
    Bool × LoopState :=
  let s := (if garbage then s.noteGarbage cur else s).noteAffected isNewest
  let send := s.shouldSendBatch
  let s := if send || isNewest && s.haveGarbageForThisKey then s.addKey cur isNewest else s
  if send then s.sendBatch env else (false, s)

/-- The loop body; the flag says that the run was cancelled. -/
def visit (env : Environment) (threshold : Timestamp) (w : GCIteratorState) (s : LoopState) :
    Option (Bool × LoopState) :=
  if w.curIsNotValue then some (false, s)
  else if w.curIsIntent then some (w.next.any env.intentCancelled, s)
  else (isGarbage threshold w.cur w.next w.curIsNewest).map fun garbage =>
    s.visitVersion env w.cur w.curIsNewest garbage

end LoopState

/-- The loop over all entries, with the error that ends it early. -/
def processEntries (env : Environment) (threshold : Timestamp) :
    ℕ → GCIterator → LoopState → Option (Option RunError × LoopState)
  | 0, _, _ => none
  | fuel + 1, it, s => do
    let (state?, it) ← it.state
    match state? with
    | none => pure (if it.err then some .iterator else none, s)
    | some w =>
      let (cancelled, s) ← s.visit env threshold w
      if cancelled then pure (some .cancelled, s)
      else
        let it ← it.step
        processEntries env threshold fuel it s

/-- The requests of a run with their outcomes, and the error that it returns. -/
structure Run where
  requests : List (List GCKey × GCOutcome)
  err : Option RunError

/-- Clean up the last intents and send the last batch. -/
def finishRun (env : Environment) (s : LoopState) : Run :=
  if env.flushCancelled then ⟨s.requests, some .cancelled⟩
  else if s.batchGCKeys ≠ [] then
    let outcome := env.gc s.requests.length
    ⟨s.requests ++ [(s.batchGCKeys, outcome)], if outcome = .ok then none else some .gc⟩
  else ⟨s.requests, none⟩

def processReplicatedKeyRange (env : Environment) (threshold : Timestamp)
    (ranges : List (List Entry)) : Option Run := do
  let (err, s) ← processEntries env threshold (ranges.flatten.length + 1)
    (.makeGCIterator ranges env.failAfter) .initial
  match err with
  | some e => pure ⟨s.requests, some e⟩
  | none => pure (finishRun env s)

end Cockroach.GC
