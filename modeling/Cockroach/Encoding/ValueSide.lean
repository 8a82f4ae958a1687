import Cockroach.Encoding.DecimalNonsorting
import Cockroach.Encoding.BitArray
import Cockroach.Encoding.KeyValue
import Cockroach.Library.Leb128

/-! The encoding of the columns within a value: a tag of column and type and then the data. -/
namespace Cockroach.Encoding
open ByteOrder Leb128 Util
open Outcome (index sliceFrom)

/-- The number of groups of seven bits behind the first one. -/
def uvarintGroups (x : UInt64) : ℕ :=
  if x.toNat < 2 ^ 7 then 0
  else if x.toNat < 2 ^ 14 then 1
  else if x.toNat < 2 ^ 21 then 2
  else if x.toNat < 2 ^ 28 then 3
  else if x.toNat < 2 ^ 35 then 4
  else if x.toNat < 2 ^ 42 then 5
  else if x.toNat < 2 ^ 49 then 6
  else if x.toNat < 2 ^ 56 then 7
  else if x.toNat < 2 ^ 63 then 8
  else 9

/-- The groups of seven bits from the `k`th one down. All but the last have their high bit set. -/
def uvarintBytes (x : UInt64) : ℕ → Bytes
  | 0 => [0x7f &&& x.toUInt8]
  | k + 1 => (0x80 ||| (shr x (7 * (k + 1))).toUInt8) :: uvarintBytes x k

/-- A single byte is not masked, and need not be. -/
def encodeNonsortingUvarint (x : UInt64) : Bytes :=
  if x.toNat < 2 ^ 7 then [x.toUInt8] else uvarintBytes x (uvarintGroups x)

def decodeUvarintFrom (value : UInt64) : Bytes → Option (Bytes × ℕ × UInt64)
  | [] => none
  | b :: buf =>
    let value := value + (b &&& 0x7f).toUInt64
    if b < 0x80 then some (buf, 1, value)
    else (decodeUvarintFrom (value <<< 7) buf).map fun (rest, n, v) => (rest, n + 1, v)

/-- What remains, the length and the number. A buffer that ends within the number is left as it is,
without an error. -/
def decodeNonsortingUvarint (buf : Bytes) : Bytes × ℕ × UInt64 :=
  (decodeUvarintFrom 0 buf).getD (buf, 0, 0)

inductive ValueError where
  | emptyArray
  | varint (length : ℤ)
  | bufferTooSmall
  | valueType (expected got : UInt64)
  | boolType (got : UInt64)
  | uint64Short
  | decimal (e : CodeError)
  | bitArray (e : BitArrayError)
  | ipFamily (family : UInt8)
  | inetFamily (family : UInt8)
  | box2D (e : PeekError)
  | tupleEntry (i : ℕ) (e : ValueError)
  | unknownType (typ : UInt64)
deriving DecidableEq, Repr

abbrev Decoded (α : Type) := Outcome ValueError α

def encodeNonsortingStdlibVarint (x : Int64) : Bytes := putVarint x

def decodeNonsortingStdlibVarint (b : Bytes) : Decoded (Bytes × ℕ × Int64) :=
  let (value, length) := varint b
  if length ≤ 0 then .error (.varint length)
  else sliceFrom b length.toNat >>= fun r => pure (r, length.toNat, value)

def decodeNonsortingStdlibUvarint (buf : Bytes) : Decoded (Bytes × ℕ × UInt64) :=
  let (i, n) := uvarint buf
  if n ≤ 0 then .error .bufferTooSmall
  else sliceFrom buf n.toNat >>= fun r => pure (r, n.toNat, i)

namespace Typ
def null : UInt64 := 1
def int : UInt64 := 3
def float : UInt64 := 4
def decimal : UInt64 := 5
def bytes : UInt64 := 6
def time : UInt64 := 8
def duration : UInt64 := 9
def true : UInt64 := 10
def false : UInt64 := 11
def uuid : UInt64 := 12
def array : UInt64 := 13
def ipAddr : UInt64 := 14
def sentinel : UInt64 := 15
def json : UInt64 := 15
def tuple : UInt64 := 16
def bitArray : UInt64 := 17
def timeTZ : UInt64 := 19
def geo : UInt64 := 20
def box2D : UInt64 := 24
def void : UInt64 := 25
end Typ

def noColumnID : UInt32 := 0

/-- Column and type in one number, and the type behind it where it takes more than four bits. -/
def encodeValueTag (colID : UInt32) (typ : UInt64) : Bytes :=
  if typ ≥ Typ.sentinel then
    encodeNonsortingUvarint (colID.toUInt64 <<< 4 ||| Typ.sentinel) ++ encodeNonsortingUvarint typ
  else if colID = noColumnID then [typ.toUInt8]
  else encodeNonsortingUvarint (colID.toUInt64 <<< 4 ||| typ)

/-- The offset of the type, the offset of the data, the column and the type. -/
def decodeValueTag (b : Bytes) : Decoded (ℤ × ℕ × UInt32 × UInt64) :=
  if b = [] then .error .emptyArray
  else
    let (b, n, tag) := decodeNonsortingUvarint b
    let colID := (tag >>> 4).toUInt32
    let typ := tag &&& 0xf
    if typ = Typ.sentinel then
      let (_, n', tag') := decodeNonsortingUvarint b
      .ok ((n : ℤ) - 1, n + n', colID, tag')
    else .ok ((n : ℤ) - 1, n, colID, typ)

structure UUID where
  bytes : Bytes
  length_eq : bytes.length = 16
deriving DecidableEq

inductive IPFamily where
  | ipv4
  | ipv6
deriving DecidableEq, Repr

def IPFamily.byte : IPFamily → UInt8
  | .ipv4 => 0
  | .ipv6 => 1

def ipv4mappedIPv6prefix : UInt64 := 0xffff00000000

/-- An address of 128 bits. Those of the older kind have it mapped into the newer. -/
structure IPAddr where
  family : IPFamily
  mask : UInt8
  hi : UInt64
  lo : UInt64
  mapped : family = .ipv4 → hi = 0 ∧ lo.toNat / 2 ^ 32 = 0xffff
deriving DecidableEq

/-- A bit array whose parts fit its length. -/
structure SizedBitArray where
  array : BitArray
  words_eq : array.words.length = (array.bitLen + 63) / 64
  last_eq : array.lastBitsUsed.toNat = BitArray.lastUsed array.bitLen
  bitLen_lt : array.bitLen < 2 ^ 63

/-- The types of columns. Those whose values are encoded alike are one. -/
inductive ValueType where
  | bool
  | int
  | bytes
  | decimal
  | time
  | timeTZ
  | duration
  | bitArray
  | uuid
  | ipAddr
  | tuple (contents : List ValueType)

def ValueType.isBool : ValueType → Bool
  | .bool => true
  | _ => false

mutual

/-- A value of a type. The lengths are those that slices can have. -/
inductive Value : ValueType → Type where
  | null {t : ValueType} : Value t
  | bool (v : Bool) : Value .bool
  | int (v : Int64) : Value .int
  | bytes (data : Bytes) (length_lt : data.length < 2 ^ 63) : Value .bytes
  | decimal (d : Decimal) : Value .decimal
  | time (t : Time) : Value .time
  | timeTZ (timeOfDay : Int64) (offsetSecs : Int32) : Value .timeTZ
  | duration (d : Duration) : Value .duration
  | bitArray (d : SizedBitArray) : Value .bitArray
  | uuid (u : UUID) : Value .uuid
  | ipAddr (a : IPAddr) : Value .ipAddr
  | tuple {contents : List ValueType} (length_lt : contents.length < 2 ^ 63) (d : Tuple contents) :
      Value (.tuple contents)

inductive Tuple : List ValueType → Type where
  | nil : Tuple []
  | cons {t : ValueType} {ts : List ValueType} (v : Value t) (d : Tuple ts) : Tuple (t :: ts)

end

def encodeUntaggedBytesValue (data : Bytes) : Bytes :=
  encodeNonsortingUvarint (UInt64.ofNat data.length) ++ data

def encodeUntaggedTimeValue (t : Time) : Bytes :=
  encodeNonsortingStdlibVarint t.unix ++ encodeNonsortingStdlibVarint (Int64.ofNat t.nanosecond)

def encodeUntaggedTimeTZValue (timeOfDay : Int64) (offsetSecs : Int32) : Bytes :=
  encodeNonsortingStdlibVarint timeOfDay ++ encodeNonsortingStdlibVarint offsetSecs.toInt64

/-- The length is put in front of the code once that is written. -/
def encodeUntaggedDecimalValue (d : Decimal) : Option Bytes :=
  (encodeNonsortingDecimal d).map fun code => putUvarint (UInt64.ofNat code.length) ++ code

def encodeUntaggedDurationValue (d : Duration) : Bytes :=
  encodeNonsortingStdlibVarint d.months ++
    (encodeNonsortingStdlibVarint d.days ++ encodeNonsortingStdlibVarint d.nanos)

def encodeUntaggedBitArrayValue (d : BitArray) : Bytes :=
  encodeNonsortingUvarint (UInt64.ofNat d.bitLen) ++ d.words.flatMap encodeUint64Ascending

def IPAddr.toBuffer (a : IPAddr) : Bytes :=
  a.family.byte :: a.mask ::
    match a.family with
    | .ipv4 => bigEndian 4 a.lo.toUInt32.toNat
    | .ipv6 => bigEndian 8 a.hi.toNat ++ bigEndian 8 a.lo.toNat

/-- The type in the tag of a value. That of a boolean says the value. -/
def Value.typ : {t : ValueType} → Value t → UInt64
  | _, .null => Typ.null
  | _, .bool v => if v then Typ.true else Typ.false
  | _, .int _ => Typ.int
  | _, .bytes _ _ => Typ.bytes
  | _, .decimal _ => Typ.decimal
  | _, .time _ => Typ.time
  | _, .timeTZ _ _ => Typ.timeTZ
  | _, .duration _ => Typ.duration
  | _, .bitArray _ => Typ.bitArray
  | _, .uuid _ => Typ.uuid
  | _, .ipAddr _ => Typ.ipAddr
  | _, .tuple _ _ => Typ.tuple

mutual

/-- What follows the tag. The fields of a tuple have tags of their own, without a column. -/
def Value.encodeUntagged : {t : ValueType} → Value t → Option Bytes
  | _, .null => some []
  | _, .bool _ => some []
  | _, .int v => some (encodeNonsortingStdlibVarint v)
  | _, .bytes data _ => some (encodeUntaggedBytesValue data)
  | _, .decimal d => encodeUntaggedDecimalValue d
  | _, .time t => some (encodeUntaggedTimeValue t)
  | _, .timeTZ timeOfDay offsetSecs => some (encodeUntaggedTimeTZValue timeOfDay offsetSecs)
  | _, .duration d => some (encodeUntaggedDurationValue d)
  | _, .bitArray d => some (encodeUntaggedBitArrayValue d.array)
  | _, .uuid u => some u.bytes
  | _, .ipAddr a => some a.toBuffer
  | _, @Value.tuple contents _ d => (Tuple.encodeFields d).map fun b =>
    encodeNonsortingUvarint (UInt64.ofNat contents.length) ++ b

def Tuple.encodeFields : {ts : List ValueType} → Tuple ts → Option Bytes
  | _, .nil => some []
  | _, .cons v d =>
    (Value.encodeUntagged v).bind fun data =>
      (Tuple.encodeFields d).map fun b => encodeValueTag noColumnID v.typ ++ (data ++ b)

end

def encodeValue {t : ValueType} (colID : UInt32) (v : Value t) : Option Bytes :=
  v.encodeUntagged.map fun data => encodeValueTag colID v.typ ++ data

/-- The first `i` bytes and those behind them. A number that is no index panics. -/
def splitAtInt (b : Bytes) (i : UInt64) : Decoded (Bytes × Bytes) :=
  if i.toInt64.toInt < 0 ∨ (b.length : ℤ) < i.toInt64.toInt then .panic
  else .ok (b.take i.toInt64.toInt.toNat, b.drop i.toInt64.toInt.toNat)

/-- The number in the first `w` bytes, which have to exist. -/
def readUint (w : ℕ) (b : Bytes) : Decoded ℕ :=
  if w ≤ b.length then .ok (ofBigEndian (b.take w)) else .panic

/-- `true` and `false` are read off the tag. -/
def decodeBoolValue (buf : Bytes) : Decoded (Bytes × Bool) :=
  decodeValueTag buf >>= fun (_, dataOffset, _, typ) => sliceFrom buf dataOffset >>=
    fun buf => if typ = Typ.true then .ok (buf, true)
      else if typ = Typ.false then .ok (buf, false)
      else .error (.boolType typ)

def decodeUntaggedIntValue (b : Bytes) : Decoded (Bytes × Int64) :=
  decodeNonsortingStdlibVarint b >>= fun (b, _, i) => pure (b, i)

def decodeUntaggedBytesValue (b : Bytes) : Decoded (Bytes × Bytes) :=
  let (b, _, i) := decodeNonsortingUvarint b
  splitAtInt b i >>= fun (data, rest) => pure (rest, data)

/-- The seconds and nanoseconds brought into range. -/
def timeUnix (sec nsec : Int64) : Time where
  unix := sec + Int64.ofInt (nsec.toInt / 1000000000)
  nanosecond := (nsec.toInt % 1000000000).toNat
  nanosecond_lt := by
    have hlt := Int.emod_lt_of_pos nsec.toInt (show (0 : ℤ) < 1000000000 by decide)
    omega

def decodeUntaggedTimeValue (b : Bytes) : Decoded (Bytes × Time) :=
  decodeNonsortingStdlibVarint b >>= fun (b, _, sec) =>
    decodeNonsortingStdlibVarint b >>= fun (b, _, nsec) => pure (b, timeUnix sec nsec)

def decodeUntaggedTimeTZValue (b : Bytes) : Decoded (Bytes × Int64 × Int32) :=
  decodeNonsortingStdlibVarint b >>= fun (b, _, timeOfDayMicros) =>
    decodeNonsortingStdlibVarint b >>= fun (b, _, offsetSecs) =>
      pure (b, timeOfDayMicros, offsetSecs.toInt32)

def decodeUntaggedDecimalValue (b : Bytes) : Decoded (Bytes × Decimal) :=
  decodeNonsortingStdlibUvarint b >>= fun (b, _, i) => splitAtInt b i >>= fun (code, rest) =>
    match decodeNonsortingDecimal code with
    | .ok d => .ok (rest, d)
    | .error e => .error (.decimal e)
    | .panic => .panic

def decodeUntaggedDurationValue (b : Bytes) : Decoded (Bytes × Duration) :=
  decodeNonsortingStdlibVarint b >>= fun (b, _, months) =>
    decodeNonsortingStdlibVarint b >>= fun (b, _, days) =>
      decodeNonsortingStdlibVarint b >>= fun (b, _, nanos) => pure (b, ⟨months, days, nanos⟩)

def decodeUint64Ascending (b : Bytes) : Decoded (Bytes × UInt64) :=
  if b.length < 8 then .error .uint64Short
  else .ok (b.drop 8, UInt64.ofNat (ofBigEndian (b.take 8)))

def decodeWords : ℕ → Bytes → Decoded (Bytes × List UInt64)
  | 0, b => .ok (b, [])
  | n + 1, b => decodeUint64Ascending b >>= fun (b, val) =>
    decodeWords n b >>= fun (b, words) => pure (b, val :: words)

/-- No slice has room for a greater array, and the parts fit the length by their construction. -/
def decodeUntaggedBitArrayValue (b : Bytes) : Decoded (Bytes × SizedBitArray) :=
  let (b, _, bitLen) := decodeNonsortingUvarint b
  let (words, lastBitsUsed) := BitArray.encodingPartsForBitLen bitLen.toNat
  decodeWords words.length b >>= fun (b, words) =>
    match BitArray.fromEncodingParts words lastBitsUsed with
    | .error e => .error (.bitArray e)
    | .ok d =>
      if h : d.words.length = (d.bitLen + 63) / 64 ∧
          d.lastBitsUsed.toNat = BitArray.lastUsed d.bitLen ∧ d.bitLen < 2 ^ 63 then
        .ok (b, ⟨d, h.1, h.2.1, h.2.2⟩)
      else .panic

def decodeUntaggedUUIDValue (b : Bytes) : Decoded (Bytes × UUID) :=
  if h : 16 ≤ b.length then .ok (b.drop 16, ⟨b.take 16, by rw [List.length_take]; omega⟩)
  else .panic

/-- An address of the older kind from its 32 bits. -/
def mappedAddr (mask : UInt8) (lo : UInt32) : IPAddr where
  family := .ipv4
  mask := mask
  hi := 0
  lo := lo.toUInt64 ||| ipv4mappedIPv6prefix
  mapped := by
    intro _
    have hlo := lo.toNat_lt
    have hor : (lo.toUInt64 ||| ipv4mappedIPv6prefix).toNat = 2 ^ 32 * 0xffff + lo.toNat := by
      rw [Nat.two_pow_add_eq_or_of_lt hlo, UInt64.toNat_or, Nat.or_comm]
      rfl
    exact ⟨rfl, by omega⟩

def IPAddr.fromBuffer (data : Bytes) : Decoded (Bytes × IPAddr) :=
  index data 0 >>= fun family =>
    if family ≠ IPFamily.ipv4.byte ∧ family ≠ IPFamily.ipv6.byte then .error (.ipFamily family)
    else index data 1 >>= fun mask => sliceFrom data 2 >>= fun addr =>
      if family = IPFamily.ipv4.byte then
        readUint 4 addr >>= fun lo => sliceFrom data 6 >>= fun rest =>
          pure (rest, mappedAddr mask (UInt32.ofNat lo))
      else
        readUint 8 addr >>= fun hi => readUint 8 (addr.drop 8) >>= fun lo =>
          sliceFrom data 18 >>= fun rest =>
            pure (rest, ⟨.ipv6, mask, UInt64.ofNat hi, UInt64.ofNat lo, by simp⟩)

/-- A value behind its tag. NULL is a value of every type, and the tag of a boolean is left to the
decoder of its data. -/
def decodeTagged {t : ValueType} (untagged : Bytes → Decoded (Bytes × Value t)) (b : Bytes) :
    Decoded (Bytes × Value t) :=
  decodeValueTag b >>= fun (_, dataOffset, _, typ) =>
    if typ = Typ.null then sliceFrom b dataOffset >>= fun b => pure (b, .null)
    else if t.isBool then untagged b
    else sliceFrom b dataOffset >>= untagged

mutual

def decodeUntaggedDatum : (t : ValueType) → Bytes → Decoded (Bytes × Value t)
  | .bool, buf => decodeBoolValue buf >>= fun (b, v) => pure (b, .bool v)
  | .int, buf => decodeUntaggedIntValue buf >>= fun (b, i) => pure (b, .int i)
  | .bytes, buf => decodeUntaggedBytesValue buf >>= fun (b, data) =>
    if h : data.length < 2 ^ 63 then pure (b, .bytes data h) else .panic
  | .decimal, buf => decodeUntaggedDecimalValue buf >>= fun (b, d) => pure (b, .decimal d)
  | .time, buf => decodeUntaggedTimeValue buf >>= fun (b, t) => pure (b, .time t)
  | .timeTZ, buf => decodeUntaggedTimeTZValue buf >>= fun (b, timeOfDay, offsetSecs) =>
    pure (b, .timeTZ timeOfDay offsetSecs)
  | .duration, buf => decodeUntaggedDurationValue buf >>= fun (b, d) => pure (b, .duration d)
  | .bitArray, buf => decodeUntaggedBitArrayValue buf >>= fun (b, d) => pure (b, .bitArray d)
  | .uuid, buf => decodeUntaggedUUIDValue buf >>= fun (b, u) => pure (b, .uuid u)
  | .ipAddr, buf => IPAddr.fromBuffer buf >>= fun (b, a) => pure (b, .ipAddr a)
  | .tuple contents, buf =>
    let (b, _, _) := decodeNonsortingUvarint buf
    decodeTuple contents b >>= fun (b, d) =>
      if h : contents.length < 2 ^ 63 then pure (b, .tuple h d) else .panic

def decodeTuple : (ts : List ValueType) → Bytes → Decoded (Bytes × Tuple ts)
  | [], b => .ok (b, .nil)
  | t :: ts, b =>
    decodeTagged (decodeUntaggedDatum t) b >>= fun (b, v) =>
      decodeTuple ts b >>= fun (b, d) => pure (b, .cons v d)

end

def decodeValue (t : ValueType) (b : Bytes) : Decoded (Bytes × Value t) :=
  decodeTagged (decodeUntaggedDatum t) b

def getMultiNonsortingVarintLen : ℕ → Bytes → Decoded ℕ
  | 0, _ => .ok 0
  | _ + 1, [] => .ok 0
  | num + 1, x :: b =>
    decodeNonsortingStdlibVarint (x :: b) >>= fun (b, len, _) =>
      getMultiNonsortingVarintLen num b >>= fun n => pure (len + n)

/-- The lengths of the fields of a tuple from the `i`th one on, `num` in all. -/
def peekEntries (peek : Bytes → Decoded (ℤ × ℤ)) (i : ℕ) : ℕ → Bytes → Decoded ℤ
  | 0, _ => .ok 0
  | num + 1, rem =>
    (peek rem).mapError (.tupleEntry i) >>= fun (_, entryLen) =>
      if entryLen < 0 ∨ (rem.length : ℤ) < entryLen then .panic
      else peekEntries peek (i + 1) num (rem.drop entryLen.toNat) >>= fun l => pure (entryLen + l)

/-- The length by the type in the tag. The fields of a tuple are left to `peek`. -/
def peekData (peek : Bytes → Decoded (ℤ × ℤ)) (dataOffset : ℕ) (typ : UInt64) (b : Bytes) :
    Decoded ℤ :=
  if typ = Typ.null then .ok dataOffset
  else if typ = Typ.void then .ok dataOffset
  else if typ = Typ.true ∨ typ = Typ.false then .ok dataOffset
  else if typ = Typ.int then
    decodeNonsortingStdlibVarint b >>= fun (_, n, _) => pure ((dataOffset : ℤ) + n)
  else if typ = Typ.float then .ok ((dataOffset : ℤ) + 8)
  else if typ = Typ.bytes ∨ typ = Typ.array ∨ typ = Typ.json ∨ typ = Typ.geo then
    let (_, n, i) := decodeNonsortingUvarint b
    .ok ((dataOffset : ℤ) + n + i.toInt64.toInt)
  else if typ = Typ.box2D then
    (peekBox2DLength b).mapError .box2D >>= fun length => pure ((dataOffset : ℤ) + length)
  else if typ = Typ.bitArray then
    let (_, n, bitLen) := decodeNonsortingUvarint b
    .ok ((dataOffset : ℤ) + n + (BitArray.sizesForBitLen bitLen.toNat).1 * 8)
  else if typ = Typ.tuple then
    let (rem, l, numTuples) := decodeNonsortingUvarint b
    peekEntries peek 0 numTuples.toInt64.toInt.toNat rem >>= fun n =>
      pure ((dataOffset : ℤ) + (l + n))
  else if typ = Typ.decimal then
    decodeNonsortingStdlibUvarint b >>= fun (_, n, i) =>
      pure ((dataOffset : ℤ) + n + i.toInt64.toInt)
  else if typ = Typ.time ∨ typ = Typ.timeTZ then
    getMultiNonsortingVarintLen 2 b >>= fun n => pure ((dataOffset : ℤ) + n)
  else if typ = Typ.duration then
    getMultiNonsortingVarintLen 3 b >>= fun n => pure ((dataOffset : ℤ) + n)
  else if typ = Typ.uuid then .ok ((dataOffset : ℤ) + 16)
  else if typ = Typ.ipAddr then
    index b 0 >>= fun family =>
      if family = IPFamily.ipv4.byte then .ok ((dataOffset : ℤ) + 6)
      else if family = IPFamily.ipv6.byte then .ok ((dataOffset : ℤ) + 18)
      else .error (.inetFamily family)
  else .error (.unknownType typ)

def peekValueLengthWithOffsetsAndType (peek : Bytes → Decoded (ℤ × ℤ)) (b : Bytes) (dataOffset : ℕ)
    (typ : UInt64) : Decoded ℤ :=
  sliceFrom b dataOffset >>= peekData peek dataOffset typ

def peekValueBody (peek : Bytes → Decoded (ℤ × ℤ)) (b : Bytes) : Decoded (ℤ × ℤ) :=
  if b = [] then .ok (0, 0)
  else decodeValueTag b >>= fun (typeOffset, dataOffset, _, typ) =>
    peekValueLengthWithOffsetsAndType peek b dataOffset typ >>= fun length =>
      pure (typeOffset, length)

/-- Tuples lie within each other at most as deep as there are bytes. -/
def peekValueFuel : ℕ → Bytes → Decoded (ℤ × ℤ)
  | 0, _ => .panic
  | fuel + 1, b => peekValueBody (peekValueFuel fuel) b

/-- The offset of the type and the length of the value. -/
def peekValueLength (b : Bytes) : Decoded (ℤ × ℤ) := peekValueFuel (b.length + 1) b

end Cockroach.Encoding
