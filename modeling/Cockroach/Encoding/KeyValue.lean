import Cockroach.Encoding.PeekLength

/-! The encodings that are found in keys: columns, arrays of them and inverted index entries. -/
namespace Cockroach.Encoding
open ByteOrder Util

/-- A 64-bit float by its bits. -/
structure Float64 where
  bits : UInt64
deriving DecidableEq, Repr

namespace Float64

def signBit : UInt64 := 0x8000000000000000
def exponentMask : UInt64 := 0x7ff0000000000000
def fractionMask : UInt64 := 0x000fffffffffffff

def isNaN (f : Float64) : Bool :=
  f.bits &&& exponentMask = exponentMask ∧ f.bits &&& fractionMask ≠ 0

/-- Equal to zero of either sign. -/
def isZero (f : Float64) : Bool := f.bits &&& ~~~ signBit = 0

def neg (f : Float64) : Float64 := ⟨f.bits ^^^ signBit⟩

/-- The equality of floats, under which a NaN is not equal to itself. -/
def equal (f g : Float64) : Bool :=
  !f.isNaN && !g.isNaN && (f = g || f.isZero && g.isZero)

end Float64

def encodeUint64Ascending (v : UInt64) : Bytes := bigEndian 8 v.toNat
def encodeUint64Descending (v : UInt64) : Bytes := encodeUint64Ascending (~~~ v)

def encodeFloatAscending (f : Float64) : Bytes :=
  if f.isNaN then [floatNaN]
  else if f.isZero then [floatZero]
  else if f.bits &&& Float64.signBit ≠ 0 then floatNeg :: encodeUint64Ascending (~~~ f.bits)
  else floatPos :: encodeUint64Ascending f.bits

def encodeFloatDescending (f : Float64) : Bytes :=
  if f.isNaN then [floatNaNDesc] else encodeFloatAscending f.neg

structure BoundingBox where
  loX : Float64
  hiX : Float64
  loY : Float64
  hiY : Float64
deriving DecidableEq, Repr

def encodeBox2DAscending (box : BoundingBox) : Bytes :=
  box2DMarker :: (encodeFloatAscending box.loX ++ (encodeFloatAscending box.hiX ++
    (encodeFloatAscending box.loY ++ encodeFloatAscending box.hiY)))

def encodeBox2DDescending (box : BoundingBox) : Bytes :=
  box2DMarker :: (encodeFloatDescending box.loX ++ (encodeFloatDescending box.hiX ++
    (encodeFloatDescending box.loY ++ encodeFloatDescending box.hiY)))

/-- The marshaled spatial object is `data`. -/
def encodeGeoAscending (curveIndex : UInt64) (data : Bytes) : Bytes :=
  geoMarker :: (encodeUint64Ascending curveIndex ++
    encodeBytesAscendingWithTerminator data escapedTerm)

def encodeGeoDescending (curveIndex : UInt64) (data : Bytes) : Bytes :=
  geoDescMarker :: (encodeUint64Descending curveIndex ++
    complement (encodeBytesAscendingWithTerminator data escapedTerm))

def encodeArrayKeyMarker : Direction → UInt8
  | .ascending => arrayKeyMarker
  | .descending => arrayKeyDescendingMarker

def encodeNullWithinArrayKey : Direction → UInt8
  | .ascending => 0x01
  | .descending => 0xfe

/-- A value of a key column. Dates, times of day and OIDs are integers, and UUIDs, IP addresses,
collated strings and enums are bytes. -/
inductive KeyValue where
  | datum {t : ColumnType} (d : Datum t)
  | float (f : Float64)
  | duration (d : Duration)
  | box2D (box : BoundingBox)
  | geo (curveIndex : UInt64) (data : Bytes)
  | void
  | array (elems : List KeyValue)

def KeyValue.isNull : KeyValue → Bool
  | .datum .null => true
  | _ => false

mutual

/-- Each element of an array that is NULL has a byte of its own. -/
def KeyValue.encode (dir : Direction) : KeyValue → Option Bytes
  | .datum d => Encoding.encode [] d dir
  | .float f =>
    some (match dir with
      | .ascending => encodeFloatAscending f
      | .descending => encodeFloatDescending f)
  | .duration d =>
    match dir with
    | .ascending => encodeDurationAscending [] d
    | .descending => encodeDurationDescending [] d
  | .box2D box =>
    some (match dir with
      | .ascending => encodeBox2DAscending box
      | .descending => encodeBox2DDescending box)
  | .geo curveIndex data =>
    some (match dir with
      | .ascending => encodeGeoAscending curveIndex data
      | .descending => encodeGeoDescending curveIndex data)
  | .void => some [voidMarker]
  | .array elems => (KeyValue.encodeElems dir elems).map fun b =>
    encodeArrayKeyMarker dir :: (b ++ [arrayTerminator dir])

def KeyValue.encodeElems (dir : Direction) : List KeyValue → Option Bytes
  | [] => some []
  | elem :: elems =>
    (if elem.isNull then some [encodeNullWithinArrayKey dir] else KeyValue.encode dir elem).bind
      fun a => (KeyValue.encodeElems dir elems).map (a ++ ·)

end

def geoInvertedFourFloats : UInt8 := 0
def escapedJSONObjectKeyTerm : UInt8 := 0x02
def escapedJSONArray : UInt8 := 0x03

/-- A JSON value. Its strings and keys are given by their bytes. -/
inductive Json where
  | null
  | bool (v : Bool)
  | string (s : Bytes)
  | number (d : Decimal)
  | array (elems : List Json)
  | object (fields : List (Bytes × Json))

/-- No path goes on below the value. -/
def isEnd : Json → Bool
  | .array elems => elems.isEmpty
  | .object fields => fields.isEmpty
  | _ => true

def addJSONPathTerminator (b : Bytes) : Bytes := b ++ [escape, escapedTerm]
def encodeJSONEmptyArray (b : Bytes) : Bytes := b ++ [escape, escapedTerm, jsonEmptyArray]
def encodeJSONEmptyObject (b : Bytes) : Bytes := b ++ [escape, escapedTerm, jsonEmptyObject]
def encodeArrayAscending (b : Bytes) : Bytes := b ++ [escape, escapedJSONArray]

def encodeJSONKeyStringAscending (s : Bytes) (isLast : Bool) : Bytes :=
  if isLast then encodeBytesAscendingWithoutTerminatorOrPrefix s
  else encodeBytesAscendingWithTerminator s escapedJSONObjectKeyTerm

mutual

/-- The keys of the paths below a prefix. Keys that occur twice are kept. -/
def Json.encodeInvertedIndexKeys (b : Bytes) : Json → Option (List Bytes)
  | .null => some [addJSONPathTerminator b ++ [encodedNull]]
  | .bool v => some [addJSONPathTerminator b ++ [if v then trueByte else falseByte]]
  | .string s => some [addJSONPathTerminator b ++ encodeBytesAscending s]
  | .number d => (encodeDecimalAscending d).map fun a => [addJSONPathTerminator b ++ a]
  | .array [] => some [encodeJSONEmptyArray b]
  | .array (j :: js) => Json.elemKeys (encodeArrayAscending b) (j :: js)
  | .object [] => some [encodeJSONEmptyObject b]
  | .object (f :: fs) => Json.fieldKeys b (f :: fs)

def Json.elemKeys (b : Bytes) : List Json → Option (List Bytes)
  | [] => some []
  | j :: js =>
    (Json.encodeInvertedIndexKeys b j).bind fun children =>
      (Json.elemKeys b js).map (children ++ ·)

def Json.fieldKeys (b : Bytes) : List (Bytes × Json) → Option (List Bytes)
  | [] => some []
  | (k, v) :: fs =>
    (Json.encodeInvertedIndexKeys [] v).bind fun children =>
      (Json.fieldKeys b fs).map fun keys =>
        children.map (fun child => b ++ (encodeJSONKeyStringAscending k (isEnd v) ++ child)) ++ keys

end

def encodeInvertedIndexKeys (j : Json) : Option (List Bytes) :=
  j.encodeInvertedIndexKeys [jsonInvertedIndex]

def encodeGeoInvertedBBox (loX loY hiX hiY : Float64) : Bytes :=
  if loX.equal hiX && loY.equal hiY then
    geoInvertedTwoFloats :: (encodeUint64Ascending loX.bits ++ encodeUint64Ascending loY.bits)
  else
    geoInvertedFourFloats :: (encodeUint64Ascending loX.bits ++ (encodeUint64Ascending loY.bits ++
      (encodeUint64Ascending hiX.bits ++ encodeUint64Ascending hiY.bits)))

def encodeGeoInvertedKey (cellID : UInt64) (loX loY hiX hiY : Float64) : Bytes :=
  geoInvertedIndexMarker ::
    (encodeUvarintAscending cellID ++ encodeGeoInvertedBBox loX loY hiX hiY)

/-- What the functions of the package write to a key for one value. -/
inductive KeyEncoding : Bytes → Prop where
  | value {v : KeyValue} {dir : Direction} {code : Bytes} (h : v.encode dir = some code) :
      KeyEncoding code
  | uvarintAscending (v : UInt64) : KeyEncoding (encodeUvarintAscending v)
  | uvarintDescending (v : UInt64) : KeyEncoding (encodeUvarintDescending v)
  | notNullAscending : KeyEncoding [encodedNotNull]
  | notNullDescending : KeyEncoding [encodedNotNullDesc]
  | emptyArray : KeyEncoding [emptyArray]
  | json {j : Json} {keys : List Bytes} {code : Bytes} (h : encodeInvertedIndexKeys j = some keys)
      (hcode : code ∈ keys) : KeyEncoding code
  | geoInverted (cellID : UInt64) (loX loY hiX hiY : Float64) :
      KeyEncoding (encodeGeoInvertedKey cellID loX loY hiX hiY)

end Cockroach.Encoding
