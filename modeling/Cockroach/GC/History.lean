import Cockroach.GC.ProcessRange

/-! What garbage collection may remove from the histories of the keys of a range. -/
namespace Cockroach.GC
open ByteOrder Hlc Storage

abbrev Version := VersionTimestamp × Bytes

/-- The committed versions of a key, newest first, under the provisional version of its intent. -/
structure KeyHistory where
  key : Bytes
  intent : Option (MVCCMetadata × Version)
  committed : List Version
  sorted : RankedList.Descending versionRank ((intent.map Prod.snd).toList ++ committed)

namespace KeyHistory

def provisional (h : KeyHistory) : Option Version := h.intent.map Prod.snd

def versionEntry (key : Bytes) (v : Version) : Entry := .version key v.1 v.2

/-- The entries of the key in the order of the engine. -/
def records (h : KeyHistory) : List Entry :=
  (h.intent.toList.flatMap fun i => [.metadata h.key i.1, versionEntry h.key i.2]) ++
    h.committed.map (versionEntry h.key)

/-- A committed version that no read at or above the threshold needs: it is a tombstone, or a newer
committed version is at or below the threshold too. -/
def Garbage (h : KeyHistory) (threshold : Timestamp) (v : Version) : Prop :=
  v ∈ h.committed ∧ v.1.1.LessEq threshold ∧
    (v.2 = [] ∨ ∃ w ∈ h.committed, versionRank v.1 < versionRank w.1 ∧ w.1.1.LessEq threshold)

/-- No garbage version has the timestamp of a version that is kept, with the other flag. -/
def FlagSeparated (threshold : Timestamp) (h : KeyHistory) : Prop :=
  ∀ u, h.Garbage threshold u → ∀ v, v ∈ h.provisional ∨ v ∈ h.committed →
    ¬ h.Garbage threshold v → ¬ v.1.1.EqOrdering u.1.1

end KeyHistory

/-- A key of the range, with an inline value or with versions. -/
inductive RangeKey where
  | inline (key : Bytes) (m : MVCCMetadata)
  | versioned (h : KeyHistory)

namespace RangeKey

def key : RangeKey → Bytes
  | inline key _ => key
  | versioned h => h.key

def records : RangeKey → List Entry
  | inline key m => [.metadata key m]
  | versioned h => h.records

end RangeKey

/-- The keys of a range come in ascending order. -/
def KeysAscending (content : List RangeKey) : Prop :=
  content.Pairwise fun a b => bytesCompare a.key b.key = .lt

/-- The value that a read at a timestamp finds in committed versions. -/
def valueAt (versions : List Version) (ts : Timestamp) : Option Bytes :=
  ((versions.find? fun v => v.1.1.LessEq ts).map Prod.snd).filter (· ≠ [])

/-- The committed versions once the intent is committed at a timestamp, or aborted. -/
def resolve (provisional : Option Version) (committed : List Version) :
    Option VersionTimestamp → List Version
  | none => committed
  | some commitTS => (provisional.map fun p => (commitTS, p.2)).toList ++ committed

namespace Run

/-- The keys of the requests that succeeded. -/
def applied (run : Run) : List GCKey := (run.requests.filter fun r => r.2 = .ok).flatMap Prod.fst

def asked (run : Run) : List GCKey := run.requests.flatMap Prod.fst

def Succeeds (run : Run) : Prop := run.err = none ∧ ∀ r ∈ run.requests, r.2 = .ok

/-- A version of a key is left by the requests that succeeded. -/
def keeps (run : Run) (key : Bytes) (v : Version) : Bool :=
  run.applied.all fun g => ¬ (g.key = key ∧ v.1.1.LessEq g.timestamp)

end Run

/-- What a run owes to a key: reads at or above the threshold stay the same whatever becomes of the
intent, the intent and a live newest version are not asked for, and what is left after a run
without failures is what has to be kept. -/
structure Preserves (threshold : Timestamp) (run : Run) (h : KeyHistory) : Prop where
  reads : ∀ commitTS : Option VersionTimestamp,
    (∀ p ∈ h.provisional, ∀ c ∈ commitTS, p.1.1.LessEq c.1) → ∀ ts, threshold.LessEq ts →
      valueAt (resolve (h.provisional.filter (run.keeps h.key))
        (h.committed.filter (run.keeps h.key)) commitTS) ts =
      valueAt (resolve h.provisional h.committed commitTS) ts
  intent : ∀ g ∈ run.asked, g.key = h.key → ∀ p ∈ h.provisional, ¬ p.1.1.LessEq g.timestamp
  newest : ∀ g ∈ run.asked, g.key = h.key → ∀ v ∈ h.committed.head?, v.2 ≠ [] →
    ¬ v.1.1.LessEq g.timestamp
  exact : run.Succeeds → ∀ v ∈ h.committed, run.keeps h.key v = true ↔
    threshold.Less v.1.1 ∨
      (h.committed.find? fun w => w.1.1.LessEq threshold) = some v ∧ v.2 ≠ []

/-- A run over the key ranges of a replica ends without a panic and preserves every key. -/
def CollectsGarbageOnly (env : Environment) (threshold : Timestamp)
    (ranges : List (List RangeKey)) : Prop :=
  ∃ run, processReplicatedKeyRange env threshold
      (ranges.map fun keys => keys.flatMap RangeKey.records) = some run ∧
    ∀ h, .versioned h ∈ ranges.flatten → Preserves threshold run h

end Cockroach.GC
