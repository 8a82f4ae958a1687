import Cockroach.Library.ByteOrder

/-! Values with a checksum and a type tag, and transaction statuses. -/
namespace Cockroach.Roachpb
open ByteOrder

inductive TransactionStatus where
  | pending
  | committed
  | aborted
  | staging
deriving DecidableEq, Repr

def TransactionStatus.isFinalized : TransactionStatus → Bool
  | .committed | .aborted => true
  | .pending | .staging => false

def checksumUninitialized : UInt32 := 0
def checksumSize : ℕ := 4
def tagPos : ℕ := checksumSize
def headerSize : ℕ := tagPos + 1
def valueTypeInt : UInt8 := 1

/-- Eight steps of the reflected CRC-32 division with the IEEE polynomial. -/
def crc32Step : ℕ → UInt32 → UInt32
  | 0, c => c
  | n + 1, c => crc32Step n (if c &&& 1 = 1 then (c >>> 1) ^^^ 0xedb88320 else c >>> 1)

def crc32 (data : Bytes) : UInt32 :=
  ~~~ (data.foldl (fun c x => crc32Step 8 ((c ^^^ x.toUInt32) &&& 0xff) ^^^ (c >>> 8)) (~~~ 0))

/-- The checksum of a value, where 0 is reserved for an uninitialized one. -/
def computeChecksum (key rawBytes : Bytes) : UInt32 :=
  if rawBytes.length < headerSize then 0
  else
    let sum := crc32 (key ++ rawBytes.drop checksumSize)
    if sum = checksumUninitialized then 1 else sum

/-- Fill in the checksum of a value whose checksum bytes are not set. -/
def initChecksum (key rawBytes : Bytes) : Bytes :=
  bigEndian 4 (computeChecksum key rawBytes).toNat ++ rawBytes.drop checksumSize

/-- Seven bits a byte, with the high bit on all bytes but the last. -/
def putUvarint (x : ℕ) : Bytes :=
  if x < 0x80 then [UInt8.ofNat x] else UInt8.ofNat (x % 0x80 + 0x80) :: putUvarint (x / 0x80)
termination_by x

/-- The sign is kept in the lowest bit. -/
def putVarint (x : Int64) : Bytes :=
  putUvarint (if x.toInt < 0 then (-x.toInt * 2 - 1).toNat else (x.toInt * 2).toNat)

def maxVarintLen64 : ℕ := 10

/-- Read a varint whose byte `i` is next, with `x` read so far. -/
def uvarintFrom : ℕ → ℕ → Bytes → Option ℕ
  | _, _, [] => none
  | i, x, b :: buf =>
    if i = maxVarintLen64 then none
    else if b.toNat < 0x80 then
      if i = maxVarintLen64 - 1 ∧ b.toNat > 1 then none else some (x + b.toNat * 2 ^ (7 * i))
    else uvarintFrom (i + 1) (x + (b.toNat - 0x80) * 2 ^ (7 * i)) buf

def varint (buf : Bytes) : Option Int64 :=
  (uvarintFrom 0 0 buf).map fun ux =>
    Int64.ofInt (if ux % 2 = 1 then -(ux / 2 : ℕ) - 1 else (ux / 2 : ℕ))

/-- The stored form of an integer, without a checksum. -/
def setInt (i : Int64) : Bytes := [0, 0, 0, 0, valueTypeInt] ++ putVarint i

def getInt (rawBytes : Bytes) : Option Int64 :=
  if rawBytes[tagPos]? = some valueTypeInt then varint (rawBytes.drop headerSize) else none

/-- Everything but the checksum; the code panics on a value that is shorter than that. -/
def tagAndDataBytes (rawBytes : Bytes) : Option Bytes :=
  if rawBytes.length < tagPos then none else some (rawBytes.drop tagPos)

end Cockroach.Roachpb
