import Cockroach.Encoding.KeySide

/-! Local keys and the addresses of keys. -/
namespace Cockroach.Encoding
open ByteOrder List

def escapedFF : UInt8 := 0x00

/-- Why a string could not be decoded, with the buffer that was left. -/
inductive DecodeError where
  | noMarker (b : Bytes)
  | noTerminator (b : Bytes)
  | malformedEscape (b : Bytes)
  | unknownEscape (v : UInt8)
deriving DecidableEq

/-- Decode up to the terminator; `buf` is what is left behind the last escape. -/
def decodeBytesLoop (buf : Bytes) : Bytes → Bytes → Except DecodeError (Bytes × Bytes)
  | [], _ => .error (.noTerminator buf)
  | [x], _ => if x = escape then .error (.malformedEscape buf) else .error (.noTerminator buf)
  | x :: v :: b, r =>
    if x = escape then
      if v = escapedTerm then .ok (b, r)
      else if v ≠ escaped00 then .error (.unknownEscape v)
      else decodeBytesLoop b b (r ++ [escapedFF])
    else decodeBytesLoop buf (v :: b) (r ++ [x])

/-- The rest of the buffer and the decoded string. -/
def decodeBytesAscending (b : Bytes) : Except DecodeError (Bytes × Bytes) :=
  match b with
  | x :: b' => if x = bytesMarker then decodeBytesLoop b' b' [] else .error (.noMarker b)
  | [] => .error (.noMarker b)

variable {buf b r s data : Bytes}

theorem decodeBytesLoop_cons {x : UInt8} (hx : x ≠ escape) :
    decodeBytesLoop buf (x :: b) r = decodeBytesLoop buf b (r ++ [x]) := by
  cases b with
  | nil => simp [decodeBytesLoop, hx]
  | cons v b => rw [decodeBytesLoop, if_neg hx]

theorem decodeBytesLoop_encode (data buf s r : Bytes) :
    decodeBytesLoop buf (data.flatMap escapeByte ++ escape :: escapedTerm :: s) r =
      .ok (s, r ++ data) := by
  induction data generalizing buf r with
  | nil => simp [decodeBytesLoop]
  | cons x data ih =>
    rw [flatMap_cons, escapeByte]
    split_ifs with hx
    · have hne : escaped00 ≠ escapedTerm := by decide
      rw [append_assoc, cons_append, cons_append, nil_append, decodeBytesLoop,
        if_pos rfl, if_neg hne, ih, hx, append_assoc]
      rfl
    · rw [append_assoc, singleton_append, decodeBytesLoop_cons hx, ih, append_assoc]
      rfl

theorem decodeBytesAscending_encodeBytesAscending (data s : Bytes) :
    decodeBytesAscending (encodeBytesAscending data ++ s) = .ok (s, data) := by
  unfold encodeBytesAscending encodeBytesAscendingWithTerminatorAndPrefix
    encodeBytesAscendingWithTerminator
  rw [encodeBytesAscendingWithoutTerminatorOrPrefix_eq, cons_append, append_assoc]
  exact decodeBytesLoop_encode data _ s []

theorem length_decodeBytesLoop
    (h : decodeBytesLoop buf b r = .ok (s, data)) : data.length < r.length + b.length := by
  fun_induction decodeBytesLoop buf b r with
  | case1 | case2 | case3 | case5 => cases h
  | case4 _ b r =>
    cases h
    simp
  | case6 _ v b r _ _ ih | case7 buf x v b r _ ih =>
    have hlt := ih h
    simp only [length_append, length_cons, length_nil] at hlt ⊢
    omega

theorem length_decodeBytesAscending
    (h : decodeBytesAscending b = .ok (s, data)) : data.length < b.length := by
  cases b with
  | nil => cases h
  | cons x b =>
    rw [decodeBytesAscending] at h
    split_ifs at h
    have hlt := length_decodeBytesLoop h
    simp only [length_nil, length_cons] at hlt ⊢
    omega

end Cockroach.Encoding

namespace Cockroach.Keys
open ByteOrder Encoding

def localPrefix : Bytes := [0x01]

/-- The end of the local keys. -/
def localMax : Bytes := [0x02]

def localRangeIDPrefix : Bytes := localPrefix ++ [0x69]

def localRangeIDReplicatedInfix : Bytes := [0x72]

def localAbortSpanSuffix : Bytes := [0x61, 0x62, 0x63, 0x2d]

def localRangeAppliedStateSuffix : Bytes := [0x72, 0x61, 0x73, 0x6b]

/-- The length of all local suffixes. -/
def localSuffixLength : ℕ := 4

def localRangePrefix : Bytes := localPrefix ++ [0x6b]

def localStorePrefix : Bytes := localPrefix ++ [0x73]

def isLocal (k : Bytes) : Bool := localPrefix.isPrefixOf k

/-- The range, infix, suffix and detail of a key of a range ID. -/
def decodeRangeIDKey (key : Bytes) : Option (UInt64 × Bytes × Bytes × Bytes) :=
  if !localRangeIDPrefix.isPrefixOf key then none
  else
    match decodeUvarintAscending (key.drop localRangeIDPrefix.length) with
    | none => none
    | some (b, rangeInt) =>
      if b.length < localSuffixLength + 1 then none
      else some (rangeInt, b.take 1, (b.drop 1).take localSuffixLength,
        (b.drop 1).drop localSuffixLength)

inductive AddrError where
  | storeLocal (k : Bytes)
  | rangeIDLocal (k : Bytes)
  | malformed (k : Bytes)
  | decode (e : DecodeError)
deriving DecidableEq

/-- Unwrap a local key until a global key is left. Every round takes bytes away, so the length of
the key bounds their number. -/
def addrLoop : ℕ → Bytes → Except AddrError Bytes
  | 0, k => .error (.malformed k)
  | n + 1, k =>
    if localStorePrefix.isPrefixOf k then .error (.storeLocal k)
    else if localRangeIDPrefix.isPrefixOf k then .error (.rangeIDLocal k)
    else if !localRangePrefix.isPrefixOf k then .error (.malformed k)
    else
      match decodeBytesAscending (k.drop localRangePrefix.length) with
      | .error e => .error (.decode e)
      | .ok (_, k) => if isLocal k then addrLoop n k else .ok k

/-- The key by which the range of a key is found. -/
def addr (k : Bytes) : Except AddrError Bytes := if isLocal k then addrLoop k.length k else .ok k

/-- The prefix of all range-local keys of an address. -/
def makeRangeKeyPrefix (key : Bytes) : Bytes := localRangePrefix ++ encodeBytesAscending key

variable {k : Bytes}

theorem isLocal_iff : isLocal k = true ↔ ∃ s, k = localPrefix ++ s := by
  unfold isLocal
  rw [List.isPrefixOf_iff_prefix]
  exact ⟨fun ⟨s, hs⟩ => ⟨s, hs.symm⟩, fun ⟨s, hs⟩ => ⟨s, hs.symm⟩⟩

theorem length_pos_of_isLocal (hk : isLocal k = true) : 0 < k.length := by
  obtain ⟨s, rfl⟩ := isLocal_iff.mp hk
  simp [localPrefix]

theorem addrLoop_eq {n m : ℕ} (hk : isLocal k = true) (hn : k.length ≤ n)
    (hm : k.length ≤ m) : addrLoop n k = addrLoop m k := by
  induction n generalizing m k with
  | zero =>
    have hpos := length_pos_of_isLocal hk
    omega
  | succ n ih =>
    have hpos := length_pos_of_isLocal hk
    cases m with
    | zero => omega
    | succ m =>
      rw [addrLoop, addrLoop]
      cases hdec : decodeBytesAscending (k.drop localRangePrefix.length) with
      | error e => rfl
      | ok r =>
        have hlt := length_decodeBytesAscending hdec
        rw [List.length_drop] at hlt
        have hrest : isLocal r.2 = true → addrLoop n r.2 = addrLoop m r.2 := fun hlocal =>
          ih hlocal (by omega) (by omega)
        dsimp only
        by_cases hlocal : isLocal r.2 = true
        · rw [if_pos hlocal, if_pos hlocal, hrest hlocal]
        · rw [if_neg hlocal, if_neg hlocal]

theorem addr_makeRangeKeyPrefix {g : Bytes} (hg : isLocal g = false) (s : Bytes) :
    addr (makeRangeKeyPrefix g ++ s) = .ok g := by
  have hlocal : isLocal (makeRangeKeyPrefix g ++ s) = true := rfl
  have hdrop : (makeRangeKeyPrefix g ++ s).drop localRangePrefix.length =
      encodeBytesAscending g ++ s := rfl
  rw [addr, if_pos hlocal]
  obtain ⟨n, hn⟩ := Nat.exists_eq_succ_of_ne_zero (length_pos_of_isLocal hlocal).ne'
  have hstore : localStorePrefix.isPrefixOf (makeRangeKeyPrefix g ++ s) = false := rfl
  have hid : localRangeIDPrefix.isPrefixOf (makeRangeKeyPrefix g ++ s) = false := rfl
  have hrange : localRangePrefix.isPrefixOf (makeRangeKeyPrefix g ++ s) = true := rfl
  rw [hn, addrLoop, hdrop, decodeBytesAscending_encodeBytesAscending, hstore, hid, hrange]
  simp [hg]

theorem addr_of_global (hk : isLocal k = false) : addr k = .ok k :=
  if_neg (by rw [hk]; decide)

theorem makeRangeKeyPrefix_le_iff (b g s : Bytes) :
    makeRangeKeyPrefix b ≤ makeRangeKeyPrefix g ++ s ↔ b ≤ g := by
  have hsort := (sortsAs_encodeBytes g b).1.bytesCompare_append s []
  have hcmp : bytesCompare (makeRangeKeyPrefix g ++ s) (makeRangeKeyPrefix b) =
      (bytesCompare g b).then (bytesCompare s []) := by
    unfold makeRangeKeyPrefix
    rwa [List.append_nil] at hsort
  rw [← bytesCompare_ne_lt_iff, ← bytesCompare_ne_lt_iff, hcmp]
  have hs : bytesCompare s [] ≠ .lt := by
    cases s <;> simp [bytesCompare]
  cases bytesCompare g b with
  | lt | gt => simp
  | eq => simpa using hs

theorem lt_makeRangeKeyPrefix_iff (b g s : Bytes) :
    makeRangeKeyPrefix g ++ s < makeRangeKeyPrefix b ↔ g < b := by
  rw [← not_le, makeRangeKeyPrefix_le_iff, not_le]

theorem strictMono_makeRangeKeyPrefix : StrictMono makeRangeKeyPrefix := by
  intro a b h
  have hlt := (lt_makeRangeKeyPrefix_iff b a []).mpr h
  rwa [List.append_nil] at hlt

end Cockroach.Keys
