import Cockroach.Library.ByteOrder
import Cockroach.Library.GapMap
import Cockroach.TsCache.CacheValue

/-! The interval skiplist of the timestamp cache: nodes, pages that fill up and are rotated, and the
cache on top of them. Each call runs alone. -/
namespace Cockroach.TsCache
open ByteOrder Hlc CacheValue

abbrev Node := GapMap.Node Bytes CacheValue

/-- What the nodes of a page share: the outcome of its next allocations, which fit from the end of
the list on, whether it is full and its maximum. -/
structure Arena where
  allocs : List Bool
  isFull : Bool
  maxTime : RatchetingTime

namespace Arena

def alloc (a : Arena) : Bool × Arena :=
  match a.allocs with
  | [] => (true, a)
  | fits :: allocs => (fits, { a with allocs })

def ratchetMaxTimestamp (a : Arena) (ts : Timestamp) : Arena :=
  { a with maxTime := a.maxTime.ratchet ts }

end Arena

/-- The bounds of a range that are left out of it. -/
structure RangeOptions where
  excludeFrom : Bool
  excludeTo : Bool
deriving DecidableEq

/-- Both bounds belong to the range. -/
def RangeOptions.none : RangeOptions := ⟨false, false⟩

inductive RatchetPolicy where
  | always
  | onlyIfUninitialized
deriving DecidableEq

/-- The stored form of a value, which is left out if its timestamp is empty. -/
def stored (v : CacheValue) : CacheValue := if v.ts.IsEmpty then .zero else v

/-- Raise the values of a node. If there is no room, a node that is not initialized is given up. -/
def ratchetValueSet (policy : RatchetPolicy) (keyVal gapVal : CacheValue) (setInit : Bool)
    (n : Node) (a : Arena) : Bool × Node × Arena :=
  if n.initialized = true ∧ policy = .onlyIfUninitialized then (true, n, a)
  else if n.cantInit then (false, n, a)
  else
    let updateInit := setInit && !n.initialized
    let (newKey, keyUpdate) := ratchetValue n.keyVal keyVal
    let (newGap, gapUpdate) := ratchetValue n.gapVal gapVal
    if keyUpdate || gapUpdate then
      let a := a.ratchetMaxTimestamp (newKey.ts.forward newGap.ts)
      match a.alloc with
      | (true, a) => (true, { n with
          keyVal := stored newKey, gapVal := stored newGap
          initialized := n.initialized || updateInit }, a)
      | (false, a) => (false, { n with cantInit := n.cantInit || !n.initialized },
          { a with isFull := true })
    else if updateInit then (true, { n with initialized := true }, a)
    else (true, n, a)

/-- The comparison with the end of a scan, which may be open. -/
def compareStop (key : Bytes) : Option Bytes → Ordering
  | none => .lt
  | some stop => bytesCompare key stop

/-- Scan up to a key, which may be none, from the given gap value on. Returns the value of the last
gap and the maximum. -/
def scanTo (stop : Option Bytes) (opt : RangeOptions) :
    CacheValue → CacheValue → Bool → List Node → Arena →
      (CacheValue × CacheValue) × List Node × Arena
  | prevGapVal, maxVal, _, [], a => ((prevGapVal, maxVal), [], a)
  | prevGapVal, maxVal, first, n :: ns, a =>
    let toCmp := compareStop n.key stop
    if toCmp = .gt ∨ toCmp = .eq ∧ opt.excludeTo = true then ((prevGapVal, maxVal), n :: ns, a)
    else
      let (ok, n, a) := ratchetValueSet .onlyIfUninitialized prevGapVal prevGapVal false n a
      -- What could not be stored is taken into account all the same.
      let keyVal := if ok then n.keyVal else (ratchetValue n.keyVal prevGapVal).1
      let gapVal := if ok then n.gapVal else (ratchetValue n.gapVal prevGapVal).1
      let maxVal := if first && opt.excludeFrom then maxVal else (ratchetValue maxVal keyVal).1
      if toCmp = .eq then ((prevGapVal, maxVal), n :: ns, a)
      else
        let (vals, ns, a) := scanTo stop opt gapVal (ratchetValue maxVal gapVal).1 false ns a
        (vals, n :: ns, a)

/-- The nodes before and from the nearest initialized node at or before a key. -/
def prevInitNode (key : Bytes) : List Node → List Node × List Node
  | [] => ([], [])
  | n :: ns =>
    if ns.any fun m => decide (m.key ≤ key) && m.initialized then
      let (before, rest) := prevInitNode key ns
      (n :: before, rest)
    else ([], n :: ns)

def incomingGapVal (key : Bytes) (ns : List Node) (a : Arena) : CacheValue × List Node × Arena :=
  let (before, rest) := prevInitNode key ns
  let ((prevGapVal, _), rest, a) := scanTo (some key) .none .zero .zero true rest a
  (prevGapVal, before ++ rest, a)

def updateNode (key : Bytes) (f : Node → Arena → Bool × Node × Arena) :
    List Node → Arena → Bool × List Node × Arena
  | [], a => (true, [], a)
  | n :: ns, a =>
    if n.key = key then
      let (ok, n, a) := f n a
      (ok, n :: ns, a)
    else
      let (ok, ns, a) := updateNode key f ns a
      (ok, n :: ns, a)

def ensureInitialized (key : Bytes) (ns : List Node) (a : Arena) : Bool × List Node × Arena :=
  let (prevGapVal, ns, a) := incomingGapVal key ns a
  updateNode key (ratchetValueSet .onlyIfUninitialized prevGapVal prevGapVal true) ns a

/-- Whether a value is set for the key of a node and for the gap behind it. -/
structure NodeOptions where
  hasKey : Bool
  hasGap : Bool
deriving DecidableEq

/-- Add a node at a key, or raise the values of the one that is there. -/
def addNode (key : Bytes) (val : CacheValue) (opt : NodeOptions) (mustInit : Bool)
    (ns : List Node) (a : Arena) : Bool × List Node × Arena :=
  let keyVal := if opt.hasKey then val else .zero
  let gapVal := if opt.hasGap then val else .zero
  match ns.find? fun n => n.key = key with
  | none =>
    let (prevGapVal, ns, a) := incomingGapVal key ns a
    if (ratchetValue prevGapVal val).2 = false then (true, ns, a)
    else
      let a := a.ratchetMaxTimestamp val.ts
      match a.alloc with
      | (false, a) => (false, ns, { a with isFull := true })
      | (true, a) =>
        ensureInitialized key
          (GapMap.insertNode ⟨key, stored keyVal, stored gapVal, false, false⟩ ns) a
  | some n =>
    let (ok, ns, a) :=
      if n.initialized = false ∧ mustInit = true then ensureInitialized key ns a else (true, ns, a)
    if ok = false then (false, ns, a)
    else if opt = ⟨false, false⟩ then (true, ns, a)
    else updateNode key (ratchetValueSet .always keyVal gapVal false) ns a

/-- Raise the nodes behind `start` and before `stop`. -/
def ensureFloorValue (start : Bytes) (stop : Option Bytes) (val : CacheValue) :
    List Node → Arena → Bool × List Node × Arena
  | [], a => (true, [], a)
  | n :: ns, a =>
    if n.key ≤ start then
      let (ok, ns, a) := ensureFloorValue start stop val ns a
      (ok, n :: ns, a)
    else if ∃ key ∈ stop, key ≤ n.key then (true, n :: ns, a)
    else if a.isFull then (false, n :: ns, a)
    else
      let (ok, n, a) := ratchetValueSet .always val val false n a
      if ok then
        let (ok, ns, a) := ensureFloorValue start stop val ns a
        (ok, n :: ns, a)
      else (false, n :: ns, a)

def maxInRange (start : Bytes) (stop : Option Bytes) (opt : RangeOptions) (ns : List Node)
    (a : Arena) : CacheValue × List Node × Arena :=
  let (prevGapVal, ns, a) := incomingGapVal start ns a
  let before := ns.takeWhile fun n => n.key < start
  match ns.dropWhile fun n => n.key < start with
  | [] => (prevGapVal, ns, a)
  | n :: rest =>
    let prevGapVal := if n.key = start ∧ n.initialized = true then .zero else prevGapVal
    let opt := if n.key = start then opt else { opt with excludeFrom := false }
    let ((_, maxVal), rest, a) := scanTo stop opt prevGapVal prevGapVal true (n :: rest) a
    (maxVal, before ++ rest, a)

structure SklPage where
  nodes : List Node
  maxTime : RatchetingTime
  isFull : Bool

namespace SklPage

def arena (p : SklPage) (allocs : List Bool) : Arena := ⟨allocs, p.isFull, p.maxTime⟩

def ofArena (ns : List Node) (a : Arena) : SklPage := ⟨ns, a.maxTime, a.isFull⟩

def addStop (stop : Option Bytes) (opt : RangeOptions) (val : CacheValue) (ns : List Node)
    (a : Arena) : Bool × List Node × Arena :=
  match stop with
  | none => (true, ns, a)
  | some key => addNode key val ⟨!opt.excludeTo, false⟩ true ns a

/-- Add the start of a range and raise the nodes behind it. -/
def addStart (start stop : Option Bytes) (opt : RangeOptions) (val : CacheValue) (ns : List Node)
    (a : Arena) : Bool × List Node × Arena :=
  match start with
  | none => (true, ns, a)
  | some key =>
    let (ok, ns, a) := addNode key val ⟨!opt.excludeFrom, true⟩ false ns a
    if ok then ensureFloorValue key stop val ns a else (false, ns, a)

/-- Add a range to a page; fails if the page is full. -/
def addRange (start stop : Option Bytes) (opt : RangeOptions) (val : CacheValue)
    (allocs : List Bool) (p : SklPage) : Bool × SklPage :=
  let (ok, ns, a) := addStop stop opt val p.nodes (p.arena allocs)
  let (ok, ns, a) := if ok then addStart start stop opt val ns a else (false, ns, a)
  (ok, ofArena ns a)

def search (start : Bytes) (stop : Option Bytes) (opt : RangeOptions) (allocs : List Bool)
    (p : SklPage) : CacheValue × SklPage :=
  let (val, ns, a) := maxInRange start stop opt p.nodes (p.arena allocs)
  (val, ofArena ns a)

/-- The value of a range of keys of which at least one bound is given. -/
def lookupTimestampRange (start stop : Option Bytes) (opt : RangeOptions) (allocs : List Bool)
    (p : SklPage) : CacheValue × SklPage :=
  match stop with
  | none => p.search (start.getD []) none opt allocs
  | some key =>
    -- Without a start there is only the end key.
    match bytesCompare (start.getD key) key with
    | .gt => (.zero, p)
    | .eq =>
      if opt = ⟨true, true⟩ then (.zero, p) else p.search key (some key) .none allocs
    | .lt => p.search (start.getD key) (some key) opt allocs

end SklPage

/-- One attempt to add a range: the outcome of the allocations, and the clock when the pages are
rotated afterwards. -/
structure Attempt where
  allocs : List Bool
  now : Timestamp

/-- The skiplist with its pages, the newest one first. -/
structure IntervalSkl where
  front : SklPage
  pages : List SklPage
  floorTS : Timestamp

namespace IntervalSkl

def minPages : ℕ := 2

/-- The shortest time for which a page is kept, in nanoseconds. -/
def minRetentionWindow : ℕ := 10 ^ 10

/-- The timestamp lies within the time for which pages are kept. -/
def retained (now ts : Timestamp) : Bool :=
  (now.wallTime : ℤ) - minRetentionWindow < ts.wallTime ∨
    (now.wallTime : ℤ) - minRetentionWindow = ts.wallTime ∧ now.logical ≤ ts.logical

/-- Evict pages, given with the oldest one first, as long as there are enough of them. The front
page comes on top of their number. -/
def evict (now : Timestamp) : List SklPage → Timestamp → List SklPage × Timestamp
  | [], floorTS => ([], floorTS)
  | back :: pages, floorTS =>
    if pages.length + 2 < minPages ∨ retained now back.maxTime.get = true then
      (back :: pages, floorTS)
    else evict now pages (floorTS.forward back.maxTime.get)

/-- Put a new page in front, which starts with the maximum of the old one. -/
def rotatePages (now : Timestamp) (s : IntervalSkl) : IntervalSkl :=
  let (pages, floorTS) := evict now s.pages.reverse s.floorTS
  ⟨⟨[], s.front.maxTime, false⟩, s.front :: pages.reverse, floorTS⟩

def addRange (start stop : Option Bytes) (opt : RangeOptions) (val : CacheValue)
    (allocs : List Bool) (s : IntervalSkl) : Bool × IntervalSkl :=
  if val.ts.Less s.floorTS then (true, s)
  else
    let (ok, front) := s.front.addRange start stop opt val allocs
    (ok, { s with front })

/-- Add a range to the front page, which is rotated whenever it is full. There is no result if the
attempts run out. -/
def addRangeLoop (start stop : Option Bytes) (opt : RangeOptions) (val : CacheValue) :
    List Attempt → IntervalSkl → Option IntervalSkl
  | [], _ => none
  | t :: ts, s =>
    match s.addRange start stop opt val t.allocs with
    | (true, s) => some s
    | (false, s) => addRangeLoop start stop opt val ts (s.rotatePages t.now)

/-- Mark a range as read; there is no result if the code panics. -/
def addRangeAt (start stop : Option Bytes) (opt : RangeOptions) (val : CacheValue)
    (attempts : List Attempt) (s : IntervalSkl) : Option IntervalSkl :=
  match stop with
  | none => if start = none then none else addRangeLoop start none opt val attempts s
  | some key =>
    match bytesCompare (start.getD key) key with
    | .gt => none
    | .eq =>
      if opt = ⟨true, true⟩ then some s else addRangeLoop none (some key) .none val attempts s
    | .lt => addRangeLoop start (some key) opt val attempts s

/-- The pages are searched until their maximum is below what was found. -/
def lookupPages (start stop : Option Bytes) (opt : RangeOptions) :
    CacheValue → List (List Bool) → List SklPage → CacheValue × List SklPage
  | val, _, [] => (val, [])
  | val, allocs, p :: ps =>
    if p.maxTime.get.Less val.ts then (val, p :: ps)
    else
      let (val2, p) := p.lookupTimestampRange start stop opt (allocs.headD [])
      let (val, ps) := lookupPages start stop opt (ratchetValue val val2).1 allocs.tail ps
      (val, p :: ps)

/-- The value of a range of keys. The pages may store what their nodes inherit on the way; the
outcome of their allocations is given page by page. -/
def lookupTimestampRange (start stop : Option Bytes) (opt : RangeOptions)
    (allocs : List (List Bool)) (s : IntervalSkl) : CacheValue × IntervalSkl :=
  match lookupPages start stop opt .zero allocs (s.front :: s.pages) with
  | (val, []) => (val, s)
  | (val, front :: pages) =>
    ((ratchetValue val ⟨s.floorTS, none⟩).1, { s with front, pages })

end IntervalSkl

/-- The end of the keys with a prefix; a prefix of the largest bytes only is its own end. -/
def prefixEnd (b : Bytes) : Bytes :=
  if b = [] then [255, 255]
  else
    match b.reverse.dropWhile fun x => x = 255 with
    | [] => b
    | x :: rest => ((x + 1) :: rest).reverse

namespace SklImpl

def maximumSklPageSize : ℕ := 32 * 2 ^ 20

def maxKeySize : ℕ := maximumSklPageSize / 32

def boundKeyLengths (start stop : Bytes) : Bytes × Bytes :=
  (if start.length > maxKeySize then start.take maxKeySize else start,
    if stop.length > maxKeySize then prefixEnd (stop.take maxKeySize) else stop)

/-- An empty cache with a low water mark. -/
def clear (lowWater : Timestamp) : IntervalSkl :=
  ⟨⟨[], ⟨0, Timestamp.zero_lt_wallTime⟩, false⟩, [], lowWater⟩

/-- Record the read of a span, or of the start key if the span has no end. -/
def add (start stop : Bytes) (ts : Timestamp) (txnID : Option ℕ) (attempts : List Attempt)
    (s : IntervalSkl) : Option IntervalSkl :=
  let (start, stop) := boundKeyLengths start stop
  if stop = [] then s.addRangeAt none (some start) .none ⟨ts, txnID⟩ attempts
  else s.addRangeAt (some start) (some stop) ⟨false, true⟩ ⟨ts, txnID⟩ attempts

/-- The largest value of a span, or of the start key if the span has no end. -/
def getMax (start stop : Bytes) (allocs : List (List Bool)) (s : IntervalSkl) :
    CacheValue × IntervalSkl :=
  if stop = [] then s.lookupTimestampRange none (some start) .none allocs
  else s.lookupTimestampRange (some start) (some stop) ⟨false, true⟩ allocs

end SklImpl

end Cockroach.TsCache
