import Cockroach.Storage.MVCC
import Cockroach.Storage.Blocks

/-! Keys with versions and at most one intent, and how a scan goes from one to the next. -/
namespace Cockroach.Storage
open ByteOrder Hlc List

/-- An intent as its transaction leaves it. -/
structure Intent where
  m : MVCCMetadata
  txn : TxnMeta
  txn_eq : m.txn = some txn
  rawBytes_eq : m.rawBytes = []
  ticks_pos : 0 < m.timestamp.ticks
  history_sorted : m.intentHistory.Pairwise fun a b => a.sequence < b.sequence
  history_lt : ∀ e ∈ m.intentHistory, e.sequence < txn.sequence

/-- A key whose newest version is the provisional value of its intent, if it has one. -/
structure VersionedKey where
  key : Bytes
  intent : Option Intent
  newest : VersionTimestamp × Bytes
  older : List (VersionTimestamp × Bytes)
  sorted : RankedList.Descending versionRank (newest :: older)
  provisional : ∀ i ∈ intent, i.m.timestamp = newest.1.1

namespace VersionedKey

def versions (b : VersionedKey) : List (VersionTimestamp × Bytes) := b.newest :: b.older

/-- The records of the key in the order of the engine. -/
def records (b : VersionedKey) : List Entry :=
  (b.intent.toList.map fun i => .metadata b.key i.m) ++
    b.versions.map fun v => .version b.key v.1 v.2

theorem records_ne_nil (b : VersionedKey) : b.records ≠ [] := by
  simp [records, versions]

theorem key_of_mem_records {b : VersionedKey} {e : Entry} (h : e ∈ b.records) : e.key = b.key := by
  rcases mem_append.mp h with h | h
  · obtain ⟨i, -, rfl⟩ := mem_map.mp h
    rfl
  · obtain ⟨v, -, rfl⟩ := mem_map.mp h
    rfl

theorem timestamp_of_mem_versions {b : VersionedKey} {e : Entry}
    (h : e ∈ b.versions.map fun v => Entry.version b.key v.1 v.2) : ¬ e.timestamp.IsEmpty := by
  obtain ⟨v, -, rfl⟩ := mem_map.mp h
  exact v.1.2

theorem metadataFirst_records (b : VersionedKey) : Scanner.MetadataFirst b.records := by
  intro i e he hempty
  unfold records at he
  cases hi : b.intent with
  | none =>
    rw [hi] at he
    exact absurd hempty (timestamp_of_mem_versions (mem_of_getElem? he))
  | some it =>
    rw [hi] at he
    cases i with
    | zero => rfl
    | succ i => exact absurd hempty (timestamp_of_mem_versions (mem_of_getElem? he))

def block (b : VersionedKey) : Block :=
  ⟨b.key, b.records, b.records_ne_nil, fun _ => key_of_mem_records, b.metadataFirst_records⟩

end VersionedKey

def KeysSorted (bs : List VersionedKey) : Prop :=
  bs.Pairwise fun a b => bytesCompare a.key b.key = .lt

def recordsOf (bs : List VersionedKey) : List Entry := bs.flatMap VersionedKey.records

@[simp] theorem recordsOf_nil : recordsOf [] = [] := rfl

theorem recordsOf_cons (b : VersionedKey) (bs : List VersionedKey) :
    recordsOf (b :: bs) = b.records ++ recordsOf bs :=
  flatMap_cons

theorem mem_recordsOf {bs : List VersionedKey} {e : Entry} :
    e ∈ recordsOf bs ↔ ∃ b ∈ bs, e ∈ b.records :=
  mem_flatMap

namespace Scanner

variable {o : ScanOptions} {pre post rest : List VersionedKey} {b : VersionedKey} {s : Scanner}
  {i : ℕ}

theorem split_recordsOf (h : KeysSorted (pre ++ b :: post)) :
    Split (recordsOf (pre ++ b :: post)) (recordsOf pre) b.records (recordsOf post) b.key :=
  Block.split_recordsOf (f := VersionedKey.block) h

/-- The scanner is at the first record of a key, with the keys `rest` still to be read. -/
def AtKey (o : ScanOptions) (bs : List VersionedKey) (s : Scanner) (b : VersionedKey)
    (rest : List VersionedKey) : Prop :=
  ∃ pre post, bs = pre ++ b :: post ∧ rest = (if o.reverse then pre.reverse else post) ∧
    At o (recordsOf bs) s (recordsOf pre).length

/-- A step after which the output is `out` and the next one of the keys `rest` is read. -/
def Advances (o : ScanOptions) (bs : List VersionedKey) :
    List VersionedKey → Step → Output → Prop
  | [], r, out => r.1 = false ∧ r.2.output = out
  | b :: rest, r, out => r.1 = true ∧ AtKey o bs r.2 b rest ∧ r.2.output = out

theorem advances_iff {bs : List VersionedKey} {r : Step} {out : Output} :
    Advances o bs rest r out ↔ Block.Advances VersionedKey.block o bs rest r out := by
  cases rest <;> exact Iff.rfl

/-- The key `b` is being read, between the keys `pre` and `post`, with `rest` to be read later. -/
structure Reading (o : ScanOptions) (pre : List VersionedKey) (b : VersionedKey)
    (post rest : List VersionedKey) : Prop where
  sorted : KeysSorted (pre ++ b :: post)
  inSpan : InSpan o (recordsOf (pre ++ b :: post))
  rest_eq : rest = if o.reverse then pre.reverse else post
  isGet_rest : o.isGet = true → rest = []

namespace Reading

theorem toBlock (h : Reading o pre b post rest) :
    Block.Reading VersionedKey.block o pre b post rest :=
  ⟨h.sorted, h.inSpan, h.rest_eq, h.isGet_rest⟩

theorem advanceKey (h : Reading o pre b post rest)
    (hat : At o (recordsOf (pre ++ b :: post)) s ((recordsOf pre).length + i))
    (hi : i < b.records.length) : Advances o (pre ++ b :: post) rest (s.advanceKey o) s.output :=
  advances_iff.mpr (h.toBlock.advanceKey hat hi)

theorem advanceKeyAtNewKey (h : Reading o pre b post rest)
    (hat : At o (recordsOf (pre ++ b :: post)) s ((recordsOf pre).length + b.records.length)) :
    Advances o (pre ++ b :: post) rest (s.advanceKeyAtNewKey o b.key) s.output :=
  advances_iff.mpr (h.toBlock.advanceKeyAtNewKey hat)

end Reading

end Scanner
end Cockroach.Storage
