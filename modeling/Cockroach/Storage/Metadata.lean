import Cockroach.Hlc.Timestamp
import Cockroach.Library.ByteOrder
import Cockroach.Library.Search

/-! Transaction and MVCC metadata records, and the searches through an intent history. -/
namespace Cockroach.Storage
open ByteOrder Hlc Search

/-- The part of a transaction that is stored with its intents. -/
structure TxnMeta where
  id : BitVec 128
  key : Bytes
  epoch : ℤ
  writeTimestamp : Timestamp
  minTimestamp : Timestamp
  priority : ℤ
  sequence : ℤ
deriving DecidableEq, Repr

/-- A range of sequence numbers, both ends included, that was rolled back. -/
structure IgnoredSeqNumRange where
  start : ℤ
  stop : ℤ
deriving DecidableEq, Repr

/-- The loop of `TxnSeqIsIgnored`, on the ranges from the last one to the first. -/
def seqIsIgnoredFrom (seq : ℤ) : List IgnoredSeqNumRange → Bool
  | [] => false
  | r :: rs =>
    if seq < r.start then seqIsIgnoredFrom seq rs
    else if seq > r.stop then false
    else true

/-- Whether a sequence number lies in one of the ranges, which are sorted and disjoint. -/
def txnSeqIsIgnored (seq : ℤ) (ignored : List IgnoredSeqNumRange) : Bool :=
  seqIsIgnoredFrom seq ignored.reverse

/-- The ignored ranges after a rollback, which covers every range that reaches into it. -/
def addIgnoredSeqNumRange (list : List IgnoredSeqNumRange) (newRange : IgnoredSeqNumRange) :
    List IgnoredSeqNumRange :=
  let i := search list.length fun i => (list.getD i ⟨0, 0⟩).stop ≥ newRange.start
  list.take i ++ [newRange]

/-- A value that was overwritten by a later write of its transaction. -/
structure SequencedIntent where
  sequence : ℤ
  value : Bytes
deriving DecidableEq, Repr

structure MVCCMetadata where
  txn : Option TxnMeta
  timestamp : Timestamp
  deleted : Bool
  keyBytes : ℕ
  valBytes : ℕ
  rawBytes : Bytes
  intentHistory : List SequencedIntent
deriving DecidableEq, Repr

instance : Inhabited SequencedIntent := ⟨⟨0, []⟩⟩

/-- The metadata of a key without an intent, as `Reset` leaves it. -/
def MVCCMetadata.zero : MVCCMetadata := ⟨none, .empty, false, 0, 0, [], []⟩

def MVCCMetadata.isInline (m : MVCCMetadata) : Bool := m.rawBytes ≠ []

def MVCCMetadata.addToIntentHistory (m : MVCCMetadata) (seq : ℤ) (val : Bytes) : MVCCMetadata :=
  { m with intentHistory := m.intentHistory ++ [⟨seq, val⟩] }

/-- The sequence number of a history entry. -/
def sequenceAt (history : List SequencedIntent) (i : ℕ) : ℤ := (history.getD i default).sequence

/-- The search of `GetPrevIntentSeq` among the first `stop` entries. -/
def prevIntentSeqBelow (history : List SequencedIntent) (seq : ℤ)
    (ignored : List IgnoredSeqNumRange) (stop : ℕ) : Option SequencedIntent :=
  let index := search stop fun i => sequenceAt history i ≥ seq
  if _h : index = 0 then none
  else
    let candidate := index - 1
    -- An ignored entry is skipped and bounds the next search.
    if txnSeqIsIgnored (sequenceAt history candidate) ignored then
      prevIntentSeqBelow history seq ignored candidate
    else some (history.getD candidate default)
termination_by stop
decreasing_by
  have hle := search_le stop fun i => sequenceAt history i ≥ seq
  omega

/-- The latest history entry below a sequence number that is not ignored. -/
def MVCCMetadata.getPrevIntentSeq (m : MVCCMetadata) (seq : ℤ)
    (ignored : List IgnoredSeqNumRange) : Option SequencedIntent :=
  prevIntentSeqBelow m.intentHistory seq ignored m.intentHistory.length

/-- The value that was written at a sequence number. -/
def MVCCMetadata.getIntentValue (m : MVCCMetadata) (seq : ℤ) : Option Bytes :=
  let index := search m.intentHistory.length fun i => sequenceAt m.intentHistory i ≥ seq
  if index < m.intentHistory.length ∧ sequenceAt m.intentHistory index = seq then
    some (m.intentHistory.getD index default).value
  else none

end Cockroach.Storage
