import Cockroach.Encoding.Decimal

/-! Key encoding of datums and of rows of datums. -/
namespace Cockroach.Encoding
open ByteOrder List

inductive Direction where
  | ascending
  | descending
deriving DecidableEq, Repr

/-- The order of a column read in its direction. -/
def Direction.apply : Direction → Ordering → Ordering
  | .ascending, o => o
  | .descending, o => o.swap

def encodedNull : UInt8 := 0x00
def encodedNullDesc : UInt8 := 0xff
def bytesMarker : UInt8 := 0x12
def bytesDescMarker : UInt8 := bytesMarker + 1
def timeMarker : UInt8 := bytesDescMarker + 1
def bitArrayMarker : UInt8 := 58
def bitArrayDescMarker : UInt8 := bitArrayMarker + 1
def timeTZMarker : UInt8 := bitArrayDescMarker + 1
def bitArrayDataTerminator : UInt8 := 0x00
def bitArrayDataDescTerminator : UInt8 := 0xff
def escape : UInt8 := 0x00
def escapedTerm : UInt8 := 0x01
def escaped00 : UInt8 := 0xff

/-- Every escape byte of the data is followed by a byte that tells it from the terminator. -/
def encodeBytesAscendingWithoutTerminatorOrPrefix (data : Bytes) : Bytes :=
  match _h : data.idxOf? escape with
  | none => data
  | some i =>
    data.take i ++ [escape, escaped00] ++
      encodeBytesAscendingWithoutTerminatorOrPrefix (data.drop (i + 1))
termination_by data.length
decreasing_by
  have hi := (idxOf?_eq_some_iff.mp _h).1
  rw [length_drop]
  omega

def encodeBytesAscendingWithTerminator (data : Bytes) (terminator : UInt8) : Bytes :=
  encodeBytesAscendingWithoutTerminatorOrPrefix data ++ [escape, terminator]

def encodeBytesAscendingWithTerminatorAndPrefix (data : Bytes) (terminator pre : UInt8) : Bytes :=
  pre :: encodeBytesAscendingWithTerminator data terminator

def encodeBytesAscending (data : Bytes) : Bytes :=
  encodeBytesAscendingWithTerminatorAndPrefix data escapedTerm bytesMarker

def encodeBytesDescending (data : Bytes) : Bytes :=
  bytesDescMarker :: complement ((encodeBytesAscending data).drop 1)

/-- A point in time as the seconds since the epoch and the nanoseconds within the second. -/
structure Time where
  unix : Int64
  nanosecond : ℕ
  nanosecond_lt : nanosecond < 1000000000

def encodeTime (unix nanos : Int64) : Bytes :=
  timeMarker :: (encodeVarintAscending unix ++ encodeVarintAscending nanos)

def encodeTimeAscending (t : Time) : Bytes := encodeTime t.unix (Int64.ofNat t.nanosecond)

def encodeTimeDescending (t : Time) : Bytes :=
  encodeTime (~~~ t.unix) (~~~ (Int64.ofNat t.nanosecond))

/-- A time of day in microseconds, 24:00:00 included, with the seconds west of UTC. -/
structure TimeTZ where
  timeOfDay : Int64
  offsetSecs : Int32
  timeOfDay_nonneg : 0 ≤ timeOfDay.toInt
  timeOfDay_le : timeOfDay.toInt ≤ 86400000000

def offsetSecsToMicros : Int64 := 1000000

def encodeTimeTZ (unixMicros : Int64) (offsetSecs : Int32) : Bytes :=
  timeTZMarker :: (encodeVarintAscending unixMicros ++ encodeVarintAscending offsetSecs.toInt64)

def encodeTimeTZAscending (t : TimeTZ) : Bytes :=
  encodeTimeTZ (t.timeOfDay + t.offsetSecs.toInt64 * offsetSecsToMicros) t.offsetSecs

def encodeTimeTZDescending (t : TimeTZ) : Bytes :=
  encodeTimeTZ (~~~ (t.timeOfDay + t.offsetSecs.toInt64 * offsetSecsToMicros)) (~~~ t.offsetSecs)

/-- The bits of an array in words, of which the last one holds `lastBitsUsed` bits. -/
structure BitArray where
  words : List UInt64
  lastBitsUsed : UInt8

def encodeBitArrayAscending (d : BitArray) : Bytes :=
  bitArrayMarker :: (d.words.flatMap encodeUvarintAscending ++
    bitArrayDataTerminator :: encodeUvarintAscending d.lastBitsUsed.toUInt64)

def encodeBitArrayDescending (d : BitArray) : Bytes :=
  bitArrayDescMarker :: (d.words.flatMap encodeUvarintDescending ++
    bitArrayDataDescTerminator :: encodeUvarintDescending d.lastBitsUsed.toUInt64)

inductive ColumnType where
  | bool
  | int
  | decimal
  | string
  | bytes
  | timestamp
  | timestampTZ
  | timeTZ
  | bitArray
deriving DecidableEq, Repr

/-- A value of a column. NULL is a value of every type, and no decimal is a signaling NaN. -/
inductive Datum : ColumnType → Type where
  | null {t : ColumnType} : Datum t
  | bool (v : Bool) : Datum .bool
  | int (v : Int64) : Datum .int
  | decimal (v : Decimal) (h : v.form ≠ .naNSignaling) : Datum .decimal
  | string (v : Bytes) : Datum .string
  | bytes (v : Bytes) : Datum .bytes
  | timestamp (v : Time) : Datum .timestamp
  | timestampTZ (v : Time) : Datum .timestampTZ
  | timeTZ (v : TimeTZ) : Datum .timeTZ
  | bitArray (v : BitArray) : Datum .bitArray

/-- Append the key encoding of a datum to `b`. There is no result where the code panics. -/
def encode {t : ColumnType} (b : Bytes) (val : Datum t) (dir : Direction) : Option Bytes :=
  let append (ascending descending : Bytes) : Option Bytes :=
    some (b ++ match dir with | .ascending => ascending | .descending => descending)
  match val with
  | .null => append [encodedNull] [encodedNullDesc]
  | .bool v =>
    let x : Int64 := if v then 1 else 0
    append (encodeVarintAscending x) (encodeVarintDescending x)
  | .int v => append (encodeVarintAscending v) (encodeVarintDescending v)
  | .decimal v _ =>
    match dir with
    | .ascending => (encodeDecimalAscending v).map (b ++ ·)
    | .descending => (encodeDecimalDescending v).map (b ++ ·)
  | .string v => append (encodeBytesAscending v) (encodeBytesDescending v)
  | .bytes v => append (encodeBytesAscending v) (encodeBytesDescending v)
  | .timestamp v => append (encodeTimeAscending v) (encodeTimeDescending v)
  | .timestampTZ v => append (encodeTimeAscending v) (encodeTimeDescending v)
  | .timeTZ v => append (encodeTimeTZAscending v) (encodeTimeTZDescending v)
  | .bitArray v => append (encodeBitArrayAscending v) (encodeBitArrayDescending v)

/-- The values of the indexed columns. -/
inductive Row : List (ColumnType × Direction) → Type where
  | nil : Row []
  | cons {t : ColumnType} {dir : Direction} {cols : List (ColumnType × Direction)}
      (val : Datum t) (row : Row cols) : Row ((t, dir) :: cols)

/-- The encodings of the columns one after the other. -/
def encodeRow (b : Bytes) : {cols : List (ColumnType × Direction)} → Row cols → Option Bytes
  | _, .nil => some b
  | (_, dir) :: _, .cons val row => (encode b val dir).bind fun b => encodeRow b row

def Time.compare (t u : Time) : Ordering :=
  (Ord.compare t.unix.toInt u.unix.toInt).then (Ord.compare t.nanosecond u.nanosecond)

/-- The instant of the time of day on the first day of the epoch, in nanoseconds. -/
def TimeTZ.toTime (t : TimeTZ) : ℤ := t.timeOfDay.toInt * 1000 + t.offsetSecs.toInt * 1000000000

def TimeTZ.compare (t u : TimeTZ) : Ordering :=
  (Ord.compare t.toTime u.toTime).then (Ord.compare t.offsetSecs.toInt u.offsetSecs.toInt)

def BitArray.compare (x y : BitArray) : Ordering :=
  (lexCompare (fun v w => Ord.compare v.toNat w.toNat) x.words y.words).then
    (Ord.compare x.lastBitsUsed.toNat y.lastBitsUsed.toNat)

/-- The order of the values of a column, NULL first. -/
def Datum.compare : {t : ColumnType} → Datum t → Datum t → Ordering
  | _, .null, .null => .eq
  | _, .null, _ => .lt
  | _, _, .null => .gt
  | _, .bool x, .bool y => Ord.compare x.toNat y.toNat
  | _, .int x, .int y => Ord.compare x.toInt y.toInt
  | _, .decimal x _, .decimal y _ => x.numericCompare y
  | _, .string x, .string y => bytesCompare x y
  | _, .bytes x, .bytes y => bytesCompare x y
  | _, .timestamp x, .timestamp y => x.compare y
  | _, .timestampTZ x, .timestampTZ y => x.compare y
  | _, .timeTZ x, .timeTZ y => x.compare y
  | _, .bitArray x, .bitArray y => x.compare y

/-- The lexicographic order of rows in which descending columns are reversed. -/
def Row.compare : {cols : List (ColumnType × Direction)} → Row cols → Row cols → Ordering
  | _, .nil, .nil => .eq
  | (_, dir) :: _, .cons x xs, .cons y ys => (dir.apply (x.compare y)).then (xs.compare ys)

/-- The code of one byte of a string. -/
def escapeByte (x : UInt8) : Bytes := if x = escape then [escape, escaped00] else [x]

theorem flatMap_escapeByte {data : Bytes} (h : escape ∉ data) : data.flatMap escapeByte = data := by
  induction data with
  | nil => rfl
  | cons x data ih =>
    rw [mem_cons, not_or] at h
    rw [flatMap_cons, escapeByte, if_neg fun hx => h.1 hx.symm, ih h.2, singleton_append]

theorem encodeBytesAscendingWithoutTerminatorOrPrefix_eq (data : Bytes) :
    encodeBytesAscendingWithoutTerminatorOrPrefix data = data.flatMap escapeByte := by
  induction data using encodeBytesAscendingWithoutTerminatorOrPrefix.induct with
  | case1 data h =>
    rw [encodeBytesAscendingWithoutTerminatorOrPrefix]
    split
    · exact (flatMap_escapeByte (idxOf?_eq_none_iff.mp h)).symm
    · rename_i i hi
      exact absurd (h.symm.trans hi) (by simp)
  | case2 data i h ih =>
    obtain ⟨hi, hget, hfirst⟩ := idxOf?_eq_some_iff.mp h
    have hsplit : data = data.take i ++ escape :: data.drop (i + 1) := by
      rw [← hget, getElem_cons_drop, take_append_drop]
    have htake : escape ∉ data.take i := by
      intro hmem
      obtain ⟨j, hj, hje⟩ := mem_iff_getElem.mp hmem
      rw [length_take] at hj
      rw [getElem_take] at hje
      exact hfirst j (by omega) hje
    rw [encodeBytesAscendingWithoutTerminatorOrPrefix]
    split
    · rename_i hn
      exact absurd (hn.symm.trans h) (by simp)
    · rename_i k hk
      obtain rfl : k = i := Option.some.inj (hk.symm.trans h)
      rw [ih]
      conv_rhs => rw [hsplit]
      rw [flatMap_append, flatMap_escapeByte htake, flatMap_cons, escapeByte, if_pos rfl,
        append_assoc]

theorem sortsAs_escapeByte (x y : UInt8) :
    SortsAs (compare x.toNat y.toNat) (escapeByte x) (escapeByte y) := by
  have hzero (z : UInt8) : z = escape ↔ z.toNat = 0 := UInt8.toNat_inj.symm
  have hesc : escape.toNat = 0 := rfl
  unfold escapeByte
  split_ifs with hx hy hy
  · rw [hx, hy]
    exact sortsAs_eq_self _
  · rw [hzero] at hx hy
    rw [Nat.compare_eq_lt.mpr (by omega)]
    exact sortsAs_cons_of_lt (by omega) _ _
  · rw [hzero] at hx hy
    rw [Nat.compare_eq_gt.mpr (by omega)]
    exact sortsAs_cons_of_gt (by omega) _ _
  · have h := SortsAs.cons_then (x := x) (y := y) fun _ => sortsAs_eq_self []
    rwa [Ordering.then_eq] at h

theorem diffLt_terminator (x : UInt8) (s : Bytes) :
    DiffLt [escape, escapedTerm] (escapeByte x ++ s) := by
  have hesc : escape.toNat = 0 := rfl
  unfold escapeByte
  split_ifs with hx
  · exact .inr ⟨rfl, .inl (by decide)⟩
  · have hx0 : x.toNat ≠ 0 := fun h => hx (UInt8.toNat_inj.mp h)
    exact .inl (by omega)

theorem sortsAs_encodeBytesAscendingWithTerminator (a b : Bytes) :
    SortsAs (bytesCompare a b) (encodeBytesAscendingWithTerminator a escapedTerm)
      (encodeBytesAscendingWithTerminator b escapedTerm) := by
  unfold encodeBytesAscendingWithTerminator
  rw [encodeBytesAscendingWithoutTerminatorOrPrefix_eq,
    encodeBytesAscendingWithoutTerminatorOrPrefix_eq, bytesCompare_eq_lexCompare]
  have h := sortsAs_flatMap_append (f := id) (fun _ _ => rfl) sortsAs_escapeByte
    diffLt_terminator diffLt_terminator (sortsAs_eq_self [escape, escapedTerm]) a b
  rwa [Ordering.then_eq] at h

theorem sortsAs_encodeBytes (a b : Bytes) :
    SortsAs (bytesCompare a b) (encodeBytesAscending a) (encodeBytesAscending b) ∧
    SortsAs (bytesCompare a b).swap (encodeBytesDescending a) (encodeBytesDescending b) := by
  have h := sortsAs_encodeBytesAscendingWithTerminator a b
  constructor
  · exact h.cons _
  · exact h.complement.cons _

theorem toInt_ofNat_nanosecond (t : Time) : (Int64.ofNat t.nanosecond).toInt = t.nanosecond := by
  have h := t.nanosecond_lt
  exact Int64.toInt_ofNat_of_lt (by omega)

theorem compare_natCast (m n : ℕ) : compare (m : ℤ) (n : ℤ) = compare m n := by
  have h := (Nat.strictMono_cast (α := ℤ)).cmp_map_eq m n
  rwa [cmp_eq_compare, cmp_eq_compare] at h

theorem sortsAs_encodeTime (t u : Time) :
    SortsAs (t.compare u) (encodeTimeAscending t) (encodeTimeAscending u) ∧
    SortsAs (t.compare u).swap (encodeTimeDescending t) (encodeTimeDescending u) := by
  have hnanos := compare_natCast t.nanosecond u.nanosecond
  rw [← toInt_ofNat_nanosecond, ← toInt_ofNat_nanosecond] at hnanos
  unfold Time.compare
  rw [← hnanos, Ordering.swap_then]
  constructor
  · apply SortsAs.cons
    exact (sortsAs_encodeVarintAscending _ _).append (sortsAs_encodeVarintAscending _ _)
  · apply SortsAs.cons
    exact (sortsAs_encodeVarintDescending _ _).append (sortsAs_encodeVarintDescending _ _)

theorem toInt_unixMicros (t : TimeTZ) :
    (t.timeOfDay + t.offsetSecs.toInt64 * offsetSecsToMicros).toInt * 1000 = t.toTime := by
  have h0 := t.timeOfDay_nonneg
  have h1 := t.timeOfDay_le
  have hl := t.offsetSecs.le_toInt
  have hu := t.offsetSecs.toInt_lt
  have hoff : offsetSecsToMicros.toInt = 1000000 := by decide
  have hmul : (t.offsetSecs.toInt * 1000000).bmod (2 ^ 64) = t.offsetSecs.toInt * 1000000 :=
    Int.bmod_eq_of_le (by omega) (by omega)
  rw [Int64.toInt_add, Int64.toInt_mul, Int32.toInt_toInt64, hoff, hmul,
    Int.bmod_eq_of_le (by omega) (by omega)]
  unfold TimeTZ.toTime
  ring

theorem toInt64_complement (x : Int32) : (~~~ x).toInt64 = ~~~ x.toInt64 := by
  have hl := x.le_toInt
  have hu := x.toInt_lt
  apply Int64.toInt_inj.mp
  rw [toInt_complement, Int32.toInt_toInt64, Int32.toInt_toInt64, Int32.toInt_not,
    Int.bmod_eq_of_le (by omega) (by omega)]

theorem sortsAs_encodeTimeTZ (t u : TimeTZ) :
    SortsAs (t.compare u) (encodeTimeTZAscending t) (encodeTimeTZAscending u) ∧
    SortsAs (t.compare u).swap (encodeTimeTZDescending t) (encodeTimeTZDescending u) := by
  have hmono : StrictMono fun k : ℤ => k * 1000 := fun a b h => by dsimp only; omega
  have hmicros (a b : ℤ) : compare (a * 1000) (b * 1000) = compare a b := by
    have h := hmono.cmp_map_eq a b
    rwa [cmp_eq_compare, cmp_eq_compare] at h
  unfold TimeTZ.compare
  rw [← toInt_unixMicros, ← toInt_unixMicros, hmicros, ← Int32.toInt_toInt64,
    ← Int32.toInt_toInt64, Ordering.swap_then]
  constructor
  · apply SortsAs.cons
    exact (sortsAs_encodeVarintAscending _ _).append (sortsAs_encodeVarintAscending _ _)
  · unfold encodeTimeTZDescending encodeTimeTZ
    rw [toInt64_complement, toInt64_complement]
    apply SortsAs.cons
    exact (sortsAs_encodeVarintDescending _ _).append (sortsAs_encodeVarintDescending _ _)

theorem sortsAs_encodeBitArray (d e : BitArray) :
    SortsAs (d.compare e) (encodeBitArrayAscending d) (encodeBitArrayAscending e) ∧
    SortsAs (d.compare e).swap (encodeBitArrayDescending d) (encodeBitArrayDescending e) := by
  have hlast (x : UInt8) : x.toUInt64.toNat = x.toNat := UInt8.toNat_toUInt64 x
  unfold BitArray.compare
  rw [← hlast, ← hlast]
  constructor
  · apply SortsAs.cons
    have ht (v : UInt64) (s t : Bytes) :
        DiffLt (bitArrayDataTerminator :: t) (encodeUvarintAscending v ++ s) := by
      obtain ⟨x, r, hx, hlo, -, -⟩ := encodeUvarintAscending_tag v
      rw [hx]
      exact .inl (by have : bitArrayDataTerminator.toNat = 0 := rfl; omega)
    exact sortsAs_flatMap_append (f := id) (fun _ _ => rfl) sortsAs_encodeUvarintAscending
      (fun v s => ht v s _) (fun v s => ht v s _)
      ((sortsAs_encodeUvarintAscending _ _).cons bitArrayDataTerminator) _ _
  · apply SortsAs.cons
    have ht (v : UInt64) (s t : Bytes) :
        DiffLt (encodeUvarintDescending v ++ s) (bitArrayDataDescTerminator :: t) := by
      obtain ⟨x, r, hx, -, hhi, -⟩ := encodeUvarintDescending_tag v
      rw [hx]
      exact .inl (by have : bitArrayDataDescTerminator.toNat = 255 := rfl; omega)
    exact sortsAs_flatMap_append Ordering.swap_then sortsAs_encodeUvarintDescending
      (fun v s => ht v s _) (fun v s => ht v s _)
      ((sortsAs_encodeUvarintDescending _ _).cons bitArrayDataDescTerminator) _ _

def Datum.code {t : ColumnType} (x : Datum t) (dir : Direction) : Bytes := (encode [] x dir).getD []

variable {t : ColumnType}

theorem encode_eq (p : Bytes) (x : Datum t) (dir : Direction) :
    encode p x dir = some (p ++ x.code dir) := by
  cases x with
  | decimal v h =>
    obtain ⟨a, b, ha, -, -⟩ := sortsAs_encodeDecimalAscending v v h h
    obtain ⟨a', b', ha', -, -⟩ := sortsAs_encodeDecimalDescending v v h h
    cases dir with
    | ascending => simp [encode, Datum.code, ha]
    | descending => simp [encode, Datum.code, ha']
  | _ => cases dir <;> rfl

/-- A code that starts with neither of the NULL bytes. -/
def NotNull (a : Bytes) : Prop := ∃ x s, a = x :: s ∧ 0 < x.toNat ∧ x.toNat < 255

theorem notNull_encodeVarintAscending (v : Int64) : NotNull (encodeVarintAscending v) := by
  obtain ⟨x, s, hx, hlo, hhi, -⟩ := encodeVarintAscending_tag v
  exact ⟨x, s, hx, by omega, by omega⟩

variable {a : Bytes} {x : Datum t} {cols : List (ColumnType × Direction)}

theorem AscendingCode.notNull {d : Decimal} (h : AscendingCode d a) : NotNull a := by
  obtain ⟨x, s, hx, hspecial, hfinite, h3⟩ := h.head
  refine ⟨x, s, hx, ?_⟩
  by_cases h2 : d.rank = 2
  · omega
  · have hx' := hspecial h2
    split_ifs at hx' <;> omega

theorem notNull_encodeDecimal (v : Decimal) (h : v.form ≠ .naNSignaling) (dir : Direction) :
    NotNull ((Datum.decimal v h).code dir) := by
  cases dir with
  | ascending =>
    obtain ⟨a, ha, hcode⟩ := ascendingCode_encodeDecimalAscending v h
    simpa [Datum.code, encode, ha] using hcode.notNull
  | descending =>
    obtain ⟨a, ha, hcode⟩ := ascendingCode_encodeDecimalAscending v.neg h
    by_cases hn : v.form = .naN
    · have hcode : (Datum.decimal v h).code .descending = [decimalNaNDesc] := by
        simp [Datum.code, encode, encodeDecimalDescending_eq, hn]
      exact ⟨_, [], hcode, by decide⟩
    · simpa [Datum.code, encode, encodeDecimalDescending_eq, hn, ha] using hcode.notNull

theorem Datum.notNull_code (x : Datum t) (hx : x ≠ .null) (dir : Direction) :
    NotNull (x.code dir) := by
  have hmark (m : UInt8) (s : Bytes) (h : 0 < m.toNat ∧ m.toNat < 255) : NotNull (m :: s) :=
    ⟨m, s, rfl, h⟩
  cases x with
  | null => exact absurd rfl hx
  | bool | int =>
    cases dir <;> exact notNull_encodeVarintAscending _
  | decimal v h => exact notNull_encodeDecimal v h dir
  | string v | bytes v | timestamp v | timestampTZ v | timeTZ v | bitArray v =>
    cases dir <;> exact hmark _ _ (by decide)

theorem sortsAs_null (x : Datum t) (hx : x ≠ .null) (dir : Direction) :
    SortsAs (dir.apply .lt) ((.null : Datum t).code dir) (x.code dir) := by
  obtain ⟨y, s, hy, hlo, hhi⟩ := x.notNull_code hx dir
  rw [hy]
  cases dir with
  | ascending => exact sortsAs_cons_of_lt (x := encodedNull) hlo _ _
  | descending => exact sortsAs_cons_of_gt (x := encodedNullDesc) hhi _ _

theorem Datum.compare_null_left (hx : x ≠ .null) : Datum.null.compare x = .lt := by
  cases x with
  | null => exact absurd rfl hx
  | _ => rfl

theorem Datum.compare_null_right (hx : x ≠ .null) : x.compare .null = .gt := by
  cases x with
  | null => exact absurd rfl hx
  | _ => rfl

theorem Direction.sortsAs {o : Ordering} {b a' b' : Bytes} (dir : Direction)
    (h : SortsAs o a b ∧ SortsAs o.swap a' b') :
    SortsAs (dir.apply o) (match dir with | .ascending => a | .descending => a')
      (match dir with | .ascending => b | .descending => b') := by
  cases dir with
  | ascending => exact h.1
  | descending => exact h.2

theorem sortsAs_encodeVarint (u v : Int64) :
    SortsAs (compare u.toInt v.toInt) (encodeVarintAscending u) (encodeVarintAscending v) ∧
    SortsAs (compare u.toInt v.toInt).swap (encodeVarintDescending u) (encodeVarintDescending v) :=
  ⟨sortsAs_encodeVarintAscending u v, sortsAs_encodeVarintDescending u v⟩

theorem sortsAs_encodeBool (v w : Bool) (dir : Direction) :
    SortsAs (dir.apply ((Datum.bool v).compare (.bool w))) ((Datum.bool v).code dir)
      ((Datum.bool w).code dir) := by
  have h := dir.sortsAs (sortsAs_encodeVarint (if v then 1 else 0) (if w then 1 else 0))
  cases v <;> cases w <;> exact h

theorem sortsAs_encodeDecimal (v w : Decimal) (hv : v.form ≠ .naNSignaling)
    (hw : w.form ≠ .naNSignaling) (dir : Direction) :
    SortsAs (dir.apply (v.numericCompare w)) ((Datum.decimal v hv).code dir)
      ((Datum.decimal w hw).code dir) := by
  cases dir with
  | ascending =>
    obtain ⟨a, b, ha, hb, h⟩ := sortsAs_encodeDecimalAscending v w hv hw
    simpa [Datum.code, encode, Direction.apply, ha, hb] using h
  | descending =>
    obtain ⟨a, b, ha, hb, h⟩ := sortsAs_encodeDecimalDescending v w hv hw
    simpa [Datum.code, encode, Direction.apply, ha, hb] using h

theorem Datum.sortsAs_code (x y : Datum t) (dir : Direction) :
    SortsAs (dir.apply (x.compare y)) (x.code dir) (y.code dir) := by
  by_cases hx : x = .null
  · subst hx
    by_cases hy : y = .null
    · subst hy
      cases dir <;> exact sortsAs_eq_self _
    · rw [compare_null_left hy]
      exact sortsAs_null y hy dir
  by_cases hy : y = .null
  · subst hy
    have h := (sortsAs_null x hx dir).swap
    rw [compare_null_right hx]
    cases dir <;> exact h
  match x, y with
  | .null, _ => exact absurd rfl hx
  | _, .null => exact absurd rfl hy
  | .bool v, .bool w => exact sortsAs_encodeBool v w dir
  | .int v, .int w => exact dir.sortsAs (sortsAs_encodeVarint v w)
  | .decimal v hv, .decimal w hw => exact sortsAs_encodeDecimal v w hv hw dir
  | .string v, .string w => exact dir.sortsAs (sortsAs_encodeBytes v w)
  | .bytes v, .bytes w => exact dir.sortsAs (sortsAs_encodeBytes v w)
  | .timestamp v, .timestamp w => exact dir.sortsAs (sortsAs_encodeTime v w)
  | .timestampTZ v, .timestampTZ w => exact dir.sortsAs (sortsAs_encodeTime v w)
  | .timeTZ v, .timeTZ w => exact dir.sortsAs (sortsAs_encodeTimeTZ v w)
  | .bitArray v, .bitArray w => exact dir.sortsAs (sortsAs_encodeBitArray v w)

def Row.code : {cols : List (ColumnType × Direction)} → Row cols → Bytes
  | _, .nil => []
  | (_, dir) :: _, .cons x xs => x.code dir ++ xs.code

theorem encodeRow_eq (p : Bytes) (row : Row cols) : encodeRow p row = some (p ++ row.code) := by
  induction row generalizing p with
  | nil => simp [encodeRow, Row.code]
  | cons x xs ih => simp [encodeRow, Row.code, encode_eq, ih]

theorem Row.sortsAs_code (r s : Row cols) : SortsAs (r.compare s) r.code s.code := by
  induction r with
  | nil => cases s with
    | nil => exact sortsAs_eq_self []
  | cons x xs ih => cases s with
    | cons y ys => exact (x.sortsAs_code y _).append (ih ys)

/-- Row keys sort as the rows, with descending columns reversed and NULL first ascending and last
descending, and no key of a row is a proper prefix of the key of another row. -/
theorem encodeRow_order {cols : List (ColumnType × Direction)} (r s : Row cols) :
    ∃ a b, encodeRow [] r = some a ∧ encodeRow [] s = some b ∧
      bytesCompare a b = r.compare s ∧ (a <+: b → a = b) := by
  have h := r.sortsAs_code s
  refine ⟨r.code, s.code, encodeRow_eq [] r, encodeRow_eq [] s, h.bytesCompare_eq, ?_⟩
  exact h.eq_of_prefix

end Cockroach.Encoding
