import Cockroach.Keys.Addr
import Cockroach.Storage.MVCC

/-! The statistics of a range, and what a write or a removal adds to them. -/
namespace Cockroach.Storage
open ByteOrder Hlc

/-- The counters of a range. The two ages were last brought up to date at `lastUpdateNanos`. -/
@[ext] structure MVCCStats where
  containsEstimates : ℤ
  lastUpdateNanos : ℤ
  intentAge : ℤ
  gcBytesAge : ℤ
  liveBytes : ℤ
  liveCount : ℤ
  keyBytes : ℤ
  keyCount : ℤ
  valBytes : ℤ
  valCount : ℤ
  intentBytes : ℤ
  intentCount : ℤ
  separatedIntentCount : ℤ
  sysBytes : ℤ
  sysCount : ℤ
  abortSpanBytes : ℤ
deriving DecidableEq, Repr

namespace MVCCStats

def zero : MVCCStats := ⟨0, 0, 0, 0, 0, 0, 0, 0, 0, 0, 0, 0, 0, 0, 0, 0⟩

def gcBytes (ms : MVCCStats) : ℤ := ms.keyBytes + ms.valBytes - ms.liveBytes

/-- The whole seconds of a time. -/
def seconds (nanos : ℤ) : ℤ := nanos.tdiv 1000000000

def ageTo (ms : MVCCStats) (nowNanos : ℤ) : MVCCStats :=
  -- Seconds count each crossing of a whole second, not the rounded difference.
  let diffSeconds := seconds nowNanos - seconds ms.lastUpdateNanos
  { ms with
    gcBytesAge := ms.gcBytesAge + ms.gcBytes * diffSeconds
    intentAge := ms.intentAge + ms.intentCount * diffSeconds
    lastUpdateNanos := nowNanos }

def forward (ms : MVCCStats) (nowNanos : ℤ) : MVCCStats :=
  if ms.lastUpdateNanos ≥ nowNanos then ms else ms.ageTo nowNanos

def add (ms oms : MVCCStats) : MVCCStats :=
  let ms := ms.forward oms.lastUpdateNanos
  let oms := oms.forward ms.lastUpdateNanos
  { containsEstimates := ms.containsEstimates + oms.containsEstimates
    lastUpdateNanos := ms.lastUpdateNanos
    intentAge := ms.intentAge + oms.intentAge
    gcBytesAge := ms.gcBytesAge + oms.gcBytesAge
    liveBytes := ms.liveBytes + oms.liveBytes
    liveCount := ms.liveCount + oms.liveCount
    keyBytes := ms.keyBytes + oms.keyBytes
    keyCount := ms.keyCount + oms.keyCount
    valBytes := ms.valBytes + oms.valBytes
    valCount := ms.valCount + oms.valCount
    intentBytes := ms.intentBytes + oms.intentBytes
    intentCount := ms.intentCount + oms.intentCount
    separatedIntentCount := ms.separatedIntentCount + oms.separatedIntentCount
    sysBytes := ms.sysBytes + oms.sysBytes
    sysCount := ms.sysCount + oms.sysCount
    abortSpanBytes := ms.abortSpanBytes + oms.abortSpanBytes }

def subtract (ms oms : MVCCStats) : MVCCStats :=
  let ms := ms.forward oms.lastUpdateNanos
  let oms := oms.forward ms.lastUpdateNanos
  { containsEstimates := ms.containsEstimates - oms.containsEstimates
    lastUpdateNanos := ms.lastUpdateNanos
    intentAge := ms.intentAge - oms.intentAge
    gcBytesAge := ms.gcBytesAge - oms.gcBytesAge
    liveBytes := ms.liveBytes - oms.liveBytes
    liveCount := ms.liveCount - oms.liveCount
    keyBytes := ms.keyBytes - oms.keyBytes
    keyCount := ms.keyCount - oms.keyCount
    valBytes := ms.valBytes - oms.valBytes
    valCount := ms.valCount - oms.valCount
    intentBytes := ms.intentBytes - oms.intentBytes
    intentCount := ms.intentCount - oms.intentCount
    separatedIntentCount := ms.separatedIntentCount - oms.separatedIntentCount
    sysBytes := ms.sysBytes - oms.sysBytes
    sysCount := ms.sysCount - oms.sysCount
    abortSpanBytes := ms.abortSpanBytes - oms.abortSpanBytes }

/-- The counters apart from the time at which they hold. -/
inductive Counter where
  | containsEstimates
  | intentAge
  | gcBytesAge
  | liveBytes
  | liveCount
  | keyBytes
  | keyCount
  | valBytes
  | valCount
  | intentBytes
  | intentCount
  | separatedIntentCount
  | sysBytes
  | sysCount
  | abortSpanBytes
deriving DecidableEq, Repr

/-- The counters as they stand in the record. -/
def counters (ms : MVCCStats) : Counter → ℤ
  | .containsEstimates => ms.containsEstimates
  | .intentAge => ms.intentAge
  | .gcBytesAge => ms.gcBytesAge
  | .liveBytes => ms.liveBytes
  | .liveCount => ms.liveCount
  | .keyBytes => ms.keyBytes
  | .keyCount => ms.keyCount
  | .valBytes => ms.valBytes
  | .valCount => ms.valCount
  | .intentBytes => ms.intentBytes
  | .intentCount => ms.intentCount
  | .separatedIntentCount => ms.separatedIntentCount
  | .sysBytes => ms.sysBytes
  | .sysCount => ms.sysCount
  | .abortSpanBytes => ms.abortSpanBytes

theorem ext_counters {a b : MVCCStats} (hnanos : a.lastUpdateNanos = b.lastUpdateNanos)
    (h : a.counters = b.counters) : a = b := by
  have hc := fun c => congrFun h c
  ext
  · exact hc .containsEstimates
  · exact hnanos
  · exact hc .intentAge
  · exact hc .gcBytesAge
  · exact hc .liveBytes
  · exact hc .liveCount
  · exact hc .keyBytes
  · exact hc .keyCount
  · exact hc .valBytes
  · exact hc .valCount
  · exact hc .intentBytes
  · exact hc .intentCount
  · exact hc .separatedIntentCount
  · exact hc .sysBytes
  · exact hc .sysCount
  · exact hc .abortSpanBytes

/-- The counters at a given time, as a vector that can be added and subtracted. -/
def asOf (ms : MVCCStats) (nowNanos : ℤ) : Counter → ℤ := (ms.ageTo nowNanos).counters

theorem ageTo_eq_subtract_iff {d a b : MVCCStats} {nowNanos : ℤ}
    (ha : a.lastUpdateNanos = nowNanos) (hb : b.lastUpdateNanos = nowNanos) :
    d.ageTo nowNanos = a.subtract b ↔ d.asOf nowNanos = a.counters - b.counters := by
  have hfa : a.forward b.lastUpdateNanos = a := if_pos (by omega)
  have hfb : b.forward a.lastUpdateNanos = b := if_pos (by omega)
  have hcounters : (a.subtract b).counters = a.counters - b.counters := by
    funext c
    cases c <;> simp only [subtract, hfa, hfb, counters, Pi.sub_apply]
  have hlast : (a.subtract b).lastUpdateNanos = nowNanos := by
    simp only [subtract, hfa, ha]
  constructor
  · intro h
    rw [asOf, h, hcounters]
  · intro h
    refine ext_counters hlast.symm ?_
    rw [hcounters, ← h, asOf]

end MVCCStats

def isSysLocal (key : Bytes) : Bool := bytesCompare key Keys.localMax = .lt

def isAbortSpanKey (key : Bytes) : Bool :=
  match Keys.decodeRangeIDKey key with
  | none => false
  | some (_, infixKey, suffix, _) =>
    infixKey = Keys.localRangeIDReplicatedInfix && suffix = Keys.localAbortSpanSuffix

/-- The size of a key in the counters, with a fixed size for every version's timestamp. -/
def MVCCKey.encodedSize (k : MVCCKey) : ℕ :=
  if k.timestamp.IsEmpty then k.key.length + 1
  else k.key.length + 1 + KeyState.mvccVersionTimestampSize

/-- The counters of an inline value, added or taken away. -/
def inlineStats (key : Bytes) (sign metaKeySize metaValSize : ℤ) (ms : MVCCStats) : MVCCStats :=
  if metaKeySize = 0 then ms
  else if isSysLocal key then { ms with
    sysBytes := ms.sysBytes + sign * (metaKeySize + metaValSize)
    sysCount := ms.sysCount + sign
    abortSpanBytes := ms.abortSpanBytes +
      if isAbortSpanKey key then sign * (metaKeySize + metaValSize) else 0 }
  else { ms with
    liveBytes := ms.liveBytes + sign * (metaKeySize + metaValSize)
    liveCount := ms.liveCount + sign
    keyBytes := ms.keyBytes + sign * metaKeySize
    valBytes := ms.valBytes + sign * metaValSize
    keyCount := ms.keyCount + sign
    valCount := ms.valCount + sign }

def updateStatsForInline (ms : MVCCStats) (key : Bytes) (origMetaKeySize origMetaValSize
    metaKeySize metaValSize : ℤ) : MVCCStats :=
  inlineStats key 1 metaKeySize metaValSize
    (inlineStats key (-1) origMetaKeySize origMetaValSize ms)

/-- The part of `updateStatsOnPut` that takes the replaced metadata out of the counters, with the
version below it live from the old to the new timestamp. -/
def removeOriginal (prevValSize origMetaKeySize origMetaValSize : ℤ) (orig : MVCCMetadata)
    (metaNanos : ℤ) : MVCCStats :=
  let ms := { MVCCStats.zero with keyCount := -1 }
  let ms := ms.ageTo orig.timestamp.wallTime
  let ms := if orig.txn.isSome then { ms with
      valCount := ms.valCount - 1
      intentBytes := ms.intentBytes - (orig.keyBytes + orig.valBytes)
      intentCount := ms.intentCount - 1
      separatedIntentCount := ms.separatedIntentCount - 1 }
    else ms
  -- A tombstone has aged since its own timestamp.
  let ms := if orig.deleted then { ms with
      keyBytes := ms.keyBytes - origMetaKeySize - if orig.txn.isSome then orig.keyBytes else 0
      valBytes := ms.valBytes - origMetaValSize - if orig.txn.isSome then orig.valBytes else 0 }
    else ms
  let prevIsValue := prevValSize > 0
  let ms := if prevIsValue then
      { ms with liveBytes := ms.liveBytes + (KeyState.mvccVersionTimestampSize + prevValSize) }
    else ms
  let ms := ms.ageTo metaNanos
  let ms := if prevIsValue then
      { ms with liveBytes := ms.liveBytes - (KeyState.mvccVersionTimestampSize + prevValSize) }
    else ms
  -- A value stops being live where it is shadowed.
  if orig.deleted then ms
  else { ms with
    liveBytes := ms.liveBytes - (orig.keyBytes + orig.valBytes) -
      (origMetaKeySize + origMetaValSize)
    liveCount := ms.liveCount - 1
    keyBytes := ms.keyBytes - origMetaKeySize - if orig.txn.isSome then orig.keyBytes else 0
    valBytes := ms.valBytes - origMetaValSize - if orig.txn.isSome then orig.valBytes else 0 }

def updateStatsOnPut (key : Bytes) (prevValSize origMetaKeySize origMetaValSize metaKeySize
    metaValSize : ℤ) (orig : Option MVCCMetadata) (m : MVCCMetadata) : MVCCStats :=
  if isSysLocal key then
    let ms := match orig with
      | none => MVCCStats.zero
      | some orig => { MVCCStats.zero with
          sysBytes := -(origMetaKeySize + origMetaValSize) -
            if orig.txn.isSome then (orig.keyBytes + orig.valBytes : ℤ) else 0
          sysCount := -1 }
    { ms with
      sysBytes := ms.sysBytes + (m.keyBytes + m.valBytes + metaKeySize + metaValSize)
      sysCount := ms.sysCount + 1 }
  else
    let ms := match orig with
      | none => MVCCStats.zero.ageTo m.timestamp.wallTime
      | some orig => removeOriginal prevValSize origMetaKeySize origMetaValSize orig
          m.timestamp.wallTime
    let ms := if m.deleted then ms else { ms with
      liveBytes := ms.liveBytes + (m.keyBytes + m.valBytes + metaKeySize + metaValSize)
      liveCount := ms.liveCount + 1 }
    let ms := { ms with
      keyBytes := ms.keyBytes + (m.keyBytes + metaKeySize)
      valBytes := ms.valBytes + (m.valBytes + metaValSize)
      keyCount := ms.keyCount + 1
      valCount := ms.valCount + 1 }
    if m.txn.isSome then { ms with
      intentBytes := ms.intentBytes + (m.keyBytes + m.valBytes)
      intentCount := ms.intentCount + 1
      separatedIntentCount := ms.separatedIntentCount + 1 }
    else ms

/-- The part of `updateStatsOnResolve` that replaces an intent by the same one at a later
timestamp or by a committed version. -/
def replaceIntent (prevValSize origMetaKeySize origMetaValSize metaKeySize metaValSize : ℤ)
    (orig m : MVCCMetadata) (commit : Bool) : MVCCStats :=
  let ms := MVCCStats.zero.ageTo orig.timestamp.wallTime
  let ms := { ms with
    keyBytes := ms.keyBytes - (origMetaKeySize + orig.keyBytes)
    valBytes := ms.valBytes - (origMetaValSize + orig.valBytes) }
  let ms := if m.deleted then ms else { ms with
    liveBytes := ms.liveBytes - (origMetaKeySize + origMetaValSize) -
      (orig.keyBytes + m.valBytes) }
  let ms := { ms with
    intentBytes := ms.intentBytes - (orig.keyBytes + orig.valBytes)
    intentCount := ms.intentCount - 1
    separatedIntentCount := ms.separatedIntentCount - 1 }
  let prevIsValue := prevValSize > 0
  let ms := if prevIsValue then
      { ms with liveBytes := ms.liveBytes + (KeyState.mvccVersionTimestampSize + prevValSize) }
    else ms
  let ms := ms.ageTo m.timestamp.wallTime
  let ms := if prevIsValue then
      { ms with liveBytes := ms.liveBytes - (KeyState.mvccVersionTimestampSize + prevValSize) }
    else ms
  let ms := { ms with
    keyBytes := ms.keyBytes + (metaKeySize + m.keyBytes)
    valBytes := ms.valBytes + (metaValSize + m.valBytes) }
  let ms := if m.deleted then ms else { ms with
    liveBytes := ms.liveBytes + ((metaKeySize + metaValSize) + (m.keyBytes + m.valBytes)) }
  if commit then ms else { ms with
    intentBytes := ms.intentBytes + (m.keyBytes + m.valBytes)
    intentCount := ms.intentCount + 1
    separatedIntentCount := ms.separatedIntentCount + 1 }

/-- There is no result where the original and the new metadata are not deleted alike, which ends
the process. -/
def updateStatsOnResolve (key : Bytes) (prevValSize origMetaKeySize origMetaValSize metaKeySize
    metaValSize : ℤ) (orig m : MVCCMetadata) (commit : Bool) : Option MVCCStats :=
  if isSysLocal key then
    some { MVCCStats.zero with
      sysBytes := (metaKeySize + metaValSize) - (origMetaValSize + origMetaKeySize) }
  else if orig.deleted ≠ m.deleted then none
  else some (replaceIntent prevValSize origMetaKeySize origMetaValSize metaKeySize metaValSize
    orig m commit)

/-- The part of `updateStatsOnClear` that makes the version below the removed one the newest
again. -/
def restoreVersion (restoredMetaKeySize restoredMetaValSize : ℤ) (restored : MVCCMetadata)
    (restoredNanos origNanos : ℤ) : MVCCStats :=
  let ms := MVCCStats.zero.ageTo restoredNanos
  -- The metadata of a tombstone ages from the tombstone on.
  let ms := if restored.deleted then { ms with
      keyBytes := ms.keyBytes + restoredMetaKeySize
      valBytes := ms.valBytes + restoredMetaValSize }
    else ms
  let ms := ms.ageTo origNanos
  let ms := { ms with keyCount := ms.keyCount + 1 }
  if restored.deleted then ms
  else { ms with
    keyBytes := ms.keyBytes + restoredMetaKeySize
    valBytes := ms.valBytes + restoredMetaValSize
    liveBytes := ms.liveBytes + (restored.keyBytes + restored.valBytes) +
      (restoredMetaKeySize + restoredMetaValSize)
    liveCount := ms.liveCount + 1 }

/-- A restored version is never an intent. -/
def updateStatsOnClear (key : Bytes) (origMetaKeySize origMetaValSize restoredMetaKeySize
    restoredMetaValSize : ℤ) (orig : MVCCMetadata) (restored : Option MVCCMetadata)
    (restoredNanos : ℤ) : MVCCStats :=
  if isSysLocal key then
    let ms := match restored with
      | none => MVCCStats.zero
      | some _ => { MVCCStats.zero with
          sysBytes := restoredMetaKeySize + restoredMetaValSize
          sysCount := 1 }
    { ms with
      sysBytes := ms.sysBytes -
        ((orig.keyBytes + orig.valBytes) + (origMetaKeySize + origMetaValSize))
      sysCount := ms.sysCount - 1 }
  else
    let ms := match restored with
      | none => MVCCStats.zero.ageTo orig.timestamp.wallTime
      | some restored => restoreVersion restoredMetaKeySize restoredMetaValSize restored
          restoredNanos orig.timestamp.wallTime
    let ms := if orig.deleted then ms else { ms with
      liveBytes := ms.liveBytes -
        ((orig.keyBytes + orig.valBytes) + (origMetaKeySize + origMetaValSize))
      liveCount := ms.liveCount - 1 }
    let ms := { ms with
      keyBytes := ms.keyBytes - (orig.keyBytes + origMetaKeySize)
      valBytes := ms.valBytes - (orig.valBytes + origMetaValSize)
      keyCount := ms.keyCount - 1
      valCount := ms.valCount - 1 }
    if orig.txn.isSome then { ms with
      intentBytes := ms.intentBytes - (orig.keyBytes + orig.valBytes)
      intentCount := ms.intentCount - 1
      separatedIntentCount := ms.separatedIntentCount - 1 }
    else ms

end Cockroach.Storage
