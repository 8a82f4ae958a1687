import Cockroach.Library.ByteOrder
import Cockroach.Hlc.Timestamp

/-! MVCC keys, their Pebble encoding and the engine's key comparator. -/
namespace Cockroach.Storage
open ByteOrder Hlc List

/-- A key with a version timestamp. The empty timestamp marks the metadata key. -/
structure MVCCKey where
  key : Bytes
  timestamp : Timestamp
deriving DecidableEq, Repr

/-- The comparison of the MVCC layer: by key, the metadata key first, then newer versions first. -/
def MVCCKey.compare (k o : MVCCKey) : Ordering :=
  match bytesCompare k.key o.key with
  | .eq =>
    if k.timestamp.IsEmpty ∧ ¬ o.timestamp.IsEmpty then .lt
    else if ¬ k.timestamp.IsEmpty ∧ o.timestamp.IsEmpty then .gt
    else (k.timestamp.compare o.timestamp).swap
  | c => c

/-- The length of the encoding, with trailing zero-valued time components left out. -/
def encodedMVCCKeyLength (k : MVCCKey) : ℕ :=
  k.key.length + 1 +
    if k.timestamp.IsEmpty then 0
    else 8 + 1 +
      if k.timestamp.logical ≠ 0 ∨ k.timestamp.synthetic = true then
        4 + if k.timestamp.synthetic then 1 else 0
      else 0

def encodeMVCCTimestampToBuf (ts : Timestamp) : Bytes :=
  bigEndian 8 ts.wallTime ++
    if ts.logical ≠ 0 ∨ ts.synthetic = true then
      bigEndian 4 ts.logical ++ if ts.synthetic then [1] else []
    else []

/-- The key, a zero sentinel and, for a version, the timestamp with its length byte. -/
def encodeMVCCKey (k : MVCCKey) : Bytes :=
  let tsLen := encodedMVCCKeyLength k - (k.key.length + 1) - 1
  k.key ++ 0 ::
    if 0 < tsLen then encodeMVCCTimestampToBuf k.timestamp ++ [UInt8.ofNat (tsLen + 1)] else []

/-- `SplitMVCCKey` reads the length byte at the end and cuts off the version before it. -/
def splitMVCCKey (mvccKey : Bytes) : Option (Bytes × Bytes) :=
  match mvccKey.getLast? with
  | none => none
  | some last =>
    let tsLen := last.toNat
    if mvccKey.length < 1 + tsLen then none
    else
      let keyPartEnd := mvccKey.length - 1 - tsLen
      some (mvccKey.take keyPartEnd,
        if 0 < tsLen then (mvccKey.take (mvccKey.length - 1)).drop (keyPartEnd + 1) else [])

/-- A timestamp as it is read back from bytes, where the sign bits may be set. -/
structure RawTimestamp where
  wallTime : Int64
  logical : Int32
  synthetic : Bool
deriving DecidableEq, Repr

def rawTimestamp (t : Timestamp) : RawTimestamp :=
  ⟨Int64.ofNat t.wallTime, Int32.ofNat t.logical, t.synthetic⟩

def hex (b : Bytes) : String :=
  String.join (b.map fun x =>
    String.ofList [Nat.digitChar (x.toNat / 16), Nat.digitChar (x.toNat % 16)])

def decodeKey (encodedKey : Bytes) : Except String (Bytes × RawTimestamp) :=
  match splitMVCCKey encodedKey with
  | none => .error ("invalid encoded mvcc key: " ++ hex encodedKey)
  | some (key, encodedTS) =>
    let wallTime := Int64.ofNat (ofBigEndian (encodedTS.take 8))
    let logical := Int32.ofNat (ofBigEndian ((encodedTS.drop 8).take 4))
    match encodedTS.length with
    | 0 => .ok (key, ⟨0, 0, false⟩)
    | 8 => .ok (key, ⟨wallTime, 0, false⟩)
    | 12 => .ok (key, ⟨wallTime, logical, false⟩)
    | 13 => .ok (key, ⟨wallTime, logical, encodedTS.getLast? != some 0⟩)
    | _ => .error ("invalid encoded mvcc key: " ++ hex encodedKey ++
        " bad timestamp " ++ hex encodedTS)

def decodeMVCCKey (encodedKey : Bytes) : Except String (Bytes × RawTimestamp) :=
  decodeKey encodedKey

/-- The engine's comparator on encoded keys. It splits off the version by the length byte and
compares the raw version bytes in reverse. -/
def engineKeyCompare (a b : Bytes) : Ordering :=
  match a.getLast?, b.getLast? with
  | some la, some lb =>
    let aEnd := a.length - 1
    let bEnd := b.length - 1
    let aSep : ℤ := aEnd - la.toNat
    let bSep : ℤ := bEnd - lb.toNat
    -- Two bare suffixes compare as if they had a common key.
    let bare := aSep = -1 ∧ bSep = -1
    let aSep := if bare then 0 else aSep
    let bSep := if bare then 0 else bSep
    if aSep < 0 ∨ bSep < 0 then bytesCompare a b
    else
      match bytesCompare (a.take aSep.toNat) (b.take bSep.toNat) with
      | .eq =>
        let aTS := (a.take aEnd).drop aSep.toNat
        let bTS := (b.take bEnd).drop bSep.toNat
        if aTS.length = 0 then (if bTS.length = 0 then .eq else .lt)
        else if bTS.length = 0 then .gt
        else bytesCompare bTS aTS
      | c => c
  -- An empty key only occurs if the keys are corrupt.
  | _, _ => bytesCompare a b

/-- The version part of an encoded key, without its length byte. -/
def versionBytes (ts : Timestamp) : Bytes :=
  if ts.IsEmpty then [] else 0 :: encodeMVCCTimestampToBuf ts

theorem length_encodeMVCCTimestampToBuf (ts : Timestamp) : (encodeMVCCTimestampToBuf ts).length =
      8 + if ts.logical ≠ 0 ∨ ts.synthetic = true then
        4 + if ts.synthetic then 1 else 0 else 0 := by
  unfold encodeMVCCTimestampToBuf
  split_ifs <;> simp

theorem length_versionBytes_le (ts : Timestamp) : (versionBytes ts).length ≤ 14 := by
  unfold versionBytes
  split_ifs
  · simp
  · rw [length_cons, length_encodeMVCCTimestampToBuf]
    split_ifs <;> omega

theorem encodedMVCCKeyLength_eq (k : MVCCKey) :
    encodedMVCCKeyLength k = k.key.length + (versionBytes k.timestamp).length + 1 := by
  unfold encodedMVCCKeyLength versionBytes
  split_ifs <;> simp_all [length_encodeMVCCTimestampToBuf]

theorem encodeMVCCKey_eq (k : MVCCKey) : encodeMVCCKey k = (k.key ++ versionBytes k.timestamp) ++
      [UInt8.ofNat (versionBytes k.timestamp).length] := by
  have hlen := encodedMVCCKeyLength_eq k
  simp only [encodeMVCCKey, hlen]
  unfold versionBytes
  split_ifs with h h' h'
  · simp at h'
  · simp
  · simp
  · simp [length_encodeMVCCTimestampToBuf] at h'

theorem length_encodeMVCCKey (k : MVCCKey) : (encodeMVCCKey k).length = encodedMVCCKeyLength k := by
  rw [encodeMVCCKey_eq, encodedMVCCKeyLength_eq]
  simp [add_assoc]

theorem getLast_encodeMVCCKey (k : MVCCKey) :
    (encodeMVCCKey k).getLast? = some (UInt8.ofNat (versionBytes k.timestamp).length) := by
  rw [encodeMVCCKey_eq, getLast?_concat]

theorem toNat_versionLength (ts : Timestamp) :
    (UInt8.ofNat (versionBytes ts).length).toNat = (versionBytes ts).length := by
  have h := length_versionBytes_le ts
  rw [UInt8.toNat_ofNat', Nat.mod_eq_of_lt (by omega)]

theorem splitMVCCKey_encodeMVCCKey (k : MVCCKey) :
    splitMVCCKey (encodeMVCCKey k) = some (k.key, (versionBytes k.timestamp).drop 1) := by
  unfold splitMVCCKey
  rw [getLast_encodeMVCCKey]
  simp only [toNat_versionLength, length_encodeMVCCKey, encodedMVCCKeyLength_eq]
  rw [if_neg (by omega), encodeMVCCKey_eq]
  have hk : k.key.length + (versionBytes k.timestamp).length + 1 - 1 -
      (versionBytes k.timestamp).length = k.key.length := by omega
  rw [hk, append_assoc, take_left', ← append_assoc]
  · congr 2
    by_cases h : (versionBytes k.timestamp).length = 0
    · rw [eq_nil_of_length_eq_zero h]
      rfl
    · rw [if_pos (by omega), take_left' (by simp), ← drop_drop, drop_left]
  · rfl

@[simp] theorem ofBigEndian_wallTime (ts : Timestamp) :
    ofBigEndian (bigEndian 8 ts.wallTime) = ts.wallTime := by
  have := ts.wallTime_lt
  rw [ofBigEndian_bigEndian]
  omega

@[simp] theorem ofBigEndian_logical (ts : Timestamp) :
    ofBigEndian (bigEndian 4 ts.logical) = ts.logical := by
  have := ts.logical_lt
  rw [ofBigEndian_bigEndian]
  omega

theorem decodeMVCCKey_encodeMVCCKey (k : MVCCKey) :
    decodeMVCCKey (encodeMVCCKey k) = .ok (k.key, rawTimestamp k.timestamp) := by
  unfold decodeMVCCKey decodeKey
  rw [splitMVCCKey_encodeMVCCKey]
  by_cases h : k.timestamp.IsEmpty
  · rw [show k.timestamp = .empty from h]
    rfl
  · have hv : (versionBytes k.timestamp).drop 1 = encodeMVCCTimestampToBuf k.timestamp := by
      simp [versionBytes, h]
    simp only [hv, length_encodeMVCCTimestampToBuf]
    unfold encodeMVCCTimestampToBuf rawTimestamp
    -- The three encoded lengths are 13, 8 and 12.
    by_cases hs : k.timestamp.synthetic = true
    · simp [hs]
    · by_cases hz : k.timestamp.logical = 0
      · simp [hs, hz]
      · simp [hs, hz]

/-- Position of a version among the versions of its key in the engine: the clock order, with the
`Synthetic` flag as the last component. -/
def engineRank (t : Timestamp) : ℕ := 2 * t.ticks + t.synthetic.toNat

/-- The order of two versions of one key in the engine. -/
def versionCompare (t s : Timestamp) : Ordering :=
  if t.IsEmpty then (if s.IsEmpty then .eq else .lt)
  else if s.IsEmpty then .gt
  else Ord.compare (engineRank s) (engineRank t)

/-- The encoded time components after the wall time. -/
def logicalBytes (t : Timestamp) : Bytes :=
  if t.logical ≠ 0 ∨ t.synthetic = true then
    bigEndian 4 t.logical ++ if t.synthetic then [1] else []
  else []

theorem bytesCompare_flagBytes (x y : Bool) :
    bytesCompare (if x then [1] else []) (if y then [1] else []) = Ord.compare x.toNat y.toNat := by
  cases x <;> cases y <;> rfl

theorem bytesCompare_logicalBytes (t s : Timestamp) :
    bytesCompare (logicalBytes t) (logicalBytes s) =
      Ord.compare (t.synthetic.toNat + 2 * t.logical) (s.synthetic.toNat + 2 * s.logical) := by
  have ht := t.logical_lt
  have hs := s.logical_lt
  have htb := Bool.toNat_lt t.synthetic
  have hsb := Bool.toNat_lt s.synthetic
  have hb := sortsAs_bigEndian 4 t.logical s.logical
  rw [Nat.mod_eq_of_lt (by omega), Nat.mod_eq_of_lt (by omega)] at hb
  have hpos : ∀ u : Timestamp, u.logical ≠ 0 ∨ u.synthetic = true →
      0 < u.synthetic.toNat + 2 * u.logical := by
    rintro u (h | h)
    · omega
    · simp [h]
  have hzero : ∀ u : Timestamp, ¬ (u.logical ≠ 0 ∨ u.synthetic = true) →
      u.synthetic.toNat + 2 * u.logical = 0 := by
    intro u h
    simp only [ne_eq, not_or, not_not, Bool.not_eq_true] at h
    simp [h.1, h.2]
  unfold logicalBytes
  by_cases h1 : t.logical ≠ 0 ∨ t.synthetic = true <;>
    by_cases h2 : s.logical ≠ 0 ∨ s.synthetic = true
  · rw [if_pos h1, if_pos h2, hb.bytesCompare_append, compare_add_mul _ _ htb hsb,
      bytesCompare_flagBytes]
  · rw [if_pos h1, if_neg h2, hzero s h2, Nat.compare_eq_gt.mpr (hpos t h1)]
    rfl
  · rw [if_neg h1, if_pos h2, hzero t h1, Nat.compare_eq_lt.mpr (hpos s h2)]
    rfl
  · rw [if_neg h1, if_neg h2, hzero t h1, hzero s h2]
    rfl

theorem bytesCompare_encodeMVCCTimestampToBuf (t s : Timestamp) :
    bytesCompare (encodeMVCCTimestampToBuf t) (encodeMVCCTimestampToBuf s) =
      Ord.compare (engineRank t) (engineRank s) := by
  have ht := t.wallTime_lt
  have hs := s.wallTime_lt
  have htl := t.logical_lt
  have hsl := s.logical_lt
  have hb := sortsAs_bigEndian 8 t.wallTime s.wallTime
  rw [Nat.mod_eq_of_lt (by omega), Nat.mod_eq_of_lt (by omega)] at hb
  have hrank : ∀ u : Timestamp, engineRank u =
      (u.synthetic.toNat + 2 * u.logical) + 2 ^ 32 * u.wallTime := by
    intro u
    unfold engineRank Timestamp.ticks
    ring
  have hbool : ∀ u : Timestamp, u.synthetic.toNat ≤ 1 := fun u => Bool.toNat_le u.synthetic
  have h1 := hbool t
  have h2 := hbool s
  rw [hrank, hrank, compare_add_mul _ _ (by omega) (by omega), ← bytesCompare_logicalBytes]
  exact hb.bytesCompare_append _ _

theorem bytesCompare_versionBytes (t s : Timestamp) :
    (if (versionBytes t).length = 0 then (if (versionBytes s).length = 0 then .eq else .lt)
      else if (versionBytes s).length = 0 then .gt
      else bytesCompare (versionBytes s) (versionBytes t)) = versionCompare t s := by
  have hlen : ∀ u : Timestamp, (versionBytes u).length = 0 ↔ u.IsEmpty := by
    intro u
    unfold versionBytes
    split_ifs with h <;> simp [h]
  simp only [hlen, versionCompare]
  by_cases ht : t.IsEmpty
  · rw [if_pos ht, if_pos ht]
  · by_cases hs : s.IsEmpty
    · rw [if_neg ht, if_neg ht, if_pos hs, if_pos hs]
    · rw [if_neg ht, if_neg hs, if_neg hs, ← bytesCompare_encodeMVCCTimestampToBuf]
      simp only [versionBytes, ht, hs, if_false, bytesCompare, Nat.compare_eq_eq.mpr]
      rfl

/-- The engine compares encoded keys by the key bytes and then by `versionCompare`. -/
theorem engineKeyCompare_encodeMVCCKey (a b : MVCCKey) :
    engineKeyCompare (encodeMVCCKey a) (encodeMVCCKey b) =
      (bytesCompare a.key b.key).then (versionCompare a.timestamp b.timestamp) := by
  have hsep : ∀ k : MVCCKey,
      ((k.key.length + (versionBytes k.timestamp).length + 1 - 1 : ℕ) : ℤ) -
        (versionBytes k.timestamp).length = k.key.length := by
    omega
  have hkey : ∀ k : MVCCKey, (encodeMVCCKey k).take k.key.length = k.key := by
    intro k
    rw [encodeMVCCKey_eq, append_assoc, take_left' rfl]
  have hts : ∀ k : MVCCKey, ((encodeMVCCKey k).take
      (k.key.length + (versionBytes k.timestamp).length + 1 - 1)).drop k.key.length =
        versionBytes k.timestamp := by
    intro k
    rw [encodeMVCCKey_eq, take_left' (by simp), drop_left' rfl]
  unfold engineKeyCompare
  rw [getLast_encodeMVCCKey, getLast_encodeMVCCKey]
  simp only [toNat_versionLength, length_encodeMVCCKey, encodedMVCCKeyLength_eq, hsep]
  have hb : ¬ ((a.key.length : ℤ) = -1 ∧ (b.key.length : ℤ) = -1) := by omega
  simp only [hb, if_false, Int.toNat_natCast, hkey, hts]
  rw [bytesCompare_versionBytes]
  cases bytesCompare a.key b.key <;> rfl

theorem MVCCKey.compare_eq (a b : MVCCKey) : a.compare b = (bytesCompare a.key b.key).then
      (if a.timestamp.IsEmpty ∧ ¬ b.timestamp.IsEmpty then .lt
        else if ¬ a.timestamp.IsEmpty ∧ b.timestamp.IsEmpty then .gt
        else Ord.compare b.timestamp.ticks a.timestamp.ticks) := by
  unfold MVCCKey.compare
  rw [Timestamp.compare_eq, Nat.compare_swap]
  cases bytesCompare a.key b.key <;> rfl

/-- The pairs of keys on which the two layers disagree: one version with and one without the
`Synthetic` flag at the same clock position, which is not the zero position. -/
def FlagConflict (a b : MVCCKey) : Prop :=
  a.key = b.key ∧ a.timestamp.EqOrdering b.timestamp ∧
    a.timestamp.synthetic ≠ b.timestamp.synthetic ∧ 0 < a.timestamp.ticks

theorem compare_engineRank (t s : Timestamp) : Ord.compare (engineRank t) (engineRank s) =
      (Ord.compare t.ticks s.ticks).then (Ord.compare t.synthetic.toNat s.synthetic.toNat) := by
  unfold engineRank
  rw [add_comm, add_comm (2 * s.ticks), compare_add_mul _ _ (Bool.toNat_lt _) (Bool.toNat_lt _)]

theorem versionCompare_eq_iff (t s : Timestamp) : versionCompare t s =
      (if t.IsEmpty ∧ ¬ s.IsEmpty then .lt else if ¬ t.IsEmpty ∧ s.IsEmpty then .gt
        else Ord.compare s.ticks t.ticks) ↔
      ¬ (t.EqOrdering s ∧ t.synthetic ≠ s.synthetic ∧ 0 < t.ticks) := by
  unfold versionCompare
  by_cases ht : t.IsEmpty
  · have ht0 : t.ticks = 0 := ((Timestamp.isEmpty_iff t).mp ht).1
    by_cases hs : s.IsEmpty
    · have hs0 : s.ticks = 0 := ((Timestamp.isEmpty_iff s).mp hs).1
      simp [ht, hs, ht0, hs0]
    · simp [ht, hs, ht0]
  · by_cases hs : s.IsEmpty
    · have hs0 : s.ticks = 0 := ((Timestamp.isEmpty_iff s).mp hs).1
      simp only [ht, hs, Timestamp.eqOrdering_iff]
      simp
      omega
    · simp only [ht, hs, Timestamp.eqOrdering_iff, compare_engineRank]
      rw [Timestamp.isEmpty_iff] at ht hs
      by_cases hne : t.ticks = s.ticks
      · -- At the zero position both versions carry the flag, being non-empty.
        cases hts : t.synthetic <;> cases hss : s.synthetic <;> simp_all
      · rcases lt_or_gt_of_ne hne with h | h
        · simp [Nat.compare_eq_gt.mpr h, hne]
        · simp [Nat.compare_eq_lt.mpr h, hne]

/-- Encoded keys decode to what was encoded, and the engine orders two of them as the MVCC layer
orders the keys exactly when they are not apart by the `Synthetic` flag alone. -/
theorem engineKeyCompare_eq_compare_iff (a b : MVCCKey) :
    (decodeMVCCKey (encodeMVCCKey a) = .ok (a.key, rawTimestamp a.timestamp) ∧
      engineKeyCompare (encodeMVCCKey a) (encodeMVCCKey b) = a.compare b) ↔ ¬ FlagConflict a b := by
  rw [engineKeyCompare_encodeMVCCKey, MVCCKey.compare_eq]
  simp only [decodeMVCCKey_encodeMVCCKey, true_and, FlagConflict]
  by_cases hk : a.key = b.key
  · rw [bytesCompare_eq_iff.mpr hk]
    simpa [hk] using versionCompare_eq_iff a.timestamp b.timestamp
  · have hne : bytesCompare a.key b.key ≠ .eq := fun h => hk (bytesCompare_eq_iff.mp h)
    cases hc : bytesCompare a.key b.key with
    | lt | gt => simp [hk]
    | eq => exact absurd hc hne

/-- The key `a` at clock position `1,0`. -/
def versionAtOne (synthetic : Bool) : MVCCKey :=
  ⟨[97], { Timestamp.ofNanos 1 with synthetic }⟩

/-- With and without the flag the version is one for the MVCC layer and two for the engine. -/
theorem engineKeyCompare_ne_compare_of_flag :
    (versionAtOne false).compare (versionAtOne true) = .eq ∧
      engineKeyCompare (encodeMVCCKey (versionAtOne false)) (encodeMVCCKey (versionAtOne true)) ≠
        (versionAtOne false).compare (versionAtOne true) := by
  decide

end Cockroach.Storage
