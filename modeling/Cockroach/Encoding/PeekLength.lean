import Cockroach.Encoding.DecimalDecode
import Cockroach.Encoding.KeySide
import Cockroach.Encoding.Duration

/-! The length of the value at the start of a key, found from its tag without decoding it. -/
namespace Cockroach.Encoding
open ByteOrder List
open Outcome (bind_eq_ok index ok_bind sliceFrom sliceFrom_eq_ok sliceFrom_eq_panic)

def encodedNotNull : UInt8 := 0x01
def floatNaN : UInt8 := encodedNotNull + 1
def floatNeg : UInt8 := floatNaN + 1
def floatZero : UInt8 := floatNeg + 1
def floatPos : UInt8 := floatZero + 1
def floatNaNDesc : UInt8 := floatPos + 1
def trueByte : UInt8 := 10
def falseByte : UInt8 := 11
def durationBigNegMarker : UInt8 := timeMarker + 1
def durationBigPosMarker : UInt8 := durationMarker + 1
def jsonInvertedIndex : UInt8 := decimalNaNDesc + 1
def jsonEmptyArray : UInt8 := jsonInvertedIndex + 1
def jsonEmptyObject : UInt8 := jsonEmptyArray + 1
def geoMarker : UInt8 := timeTZMarker + 1
def geoDescMarker : UInt8 := geoMarker + 1
def arrayKeyMarker : UInt8 := geoDescMarker + 1
def arrayKeyDescendingMarker : UInt8 := arrayKeyMarker + 1
def box2DMarker : UInt8 := arrayKeyDescendingMarker + 1
def geoInvertedIndexMarker : UInt8 := box2DMarker + 1
def emptyArray : UInt8 := geoInvertedIndexMarker + 1
def voidMarker : UInt8 := emptyArray + 1
def encodedNotNullDesc : UInt8 := 0xfe
def arrayKeyTerminator : UInt8 := 0x00
def arrayKeyDescendingTerminator : UInt8 := 0xff
def geoInvertedTwoFloats : UInt8 := 1

inductive PeekError where
  | code (e : CodeError)
  | emptySlice
  | terminator
  | bitArrayShort (n : ℕ)
  | arrayUnterminated
  | box2DShort
  | box2DMarker (m : UInt8)
  | geoShort (n : ℕ)
  | floatShort (n : ℕ)
  | invertedKey
  | bufShort (n : ℕ)
  | unknownTag (m : UInt8)
deriving DecidableEq, Repr

/-- The bytes with which zeros of the data and the end of a string are written. -/
structure Escapes where
  escape : UInt8
  escapedTerm : UInt8
deriving DecidableEq, Repr

def ascendingBytesEscapes : Escapes := ⟨escape, escapedTerm⟩
def descendingBytesEscapes : Escapes := ⟨~~~ escape, ~~~ escapedTerm⟩
def ascendingGeoEscapes : Escapes := ⟨escape, escapedTerm⟩
def descendingGeoEscapes : Escapes := ⟨~~~ escape, ~~~ escapedTerm⟩

/-- What a tag says of the bytes behind it. -/
inductive PeekKind where
  | single
  | bitArray (terminator : UInt8)
  | arrayKey (dir : Direction)
  | bytes (e : Escapes)
  | box2D
  | geoInverted
  | geo (e : Escapes)
  | json
  | varints (num : ℕ)
  | float
  | int
  | decimal
  | unknown
deriving DecidableEq, Repr

def peekKind (m : UInt8) : PeekKind :=
  if m ∈ [encodedNull, encodedNullDesc, encodedNotNull, encodedNotNullDesc, floatNaN, floatNaNDesc,
      floatZero, decimalZero, trueByte, falseByte, emptyArray, voidMarker] then .single
  else if m = bitArrayMarker then .bitArray bitArrayDataTerminator
  else if m = bitArrayDescMarker then .bitArray bitArrayDataDescTerminator
  else if m = arrayKeyMarker then .arrayKey .ascending
  else if m = arrayKeyDescendingMarker then .arrayKey .descending
  else if m = bytesMarker then .bytes ascendingBytesEscapes
  else if m = box2DMarker then .box2D
  else if m = geoInvertedIndexMarker then .geoInverted
  else if m = geoMarker then .geo ascendingGeoEscapes
  else if m = jsonInvertedIndex then .json
  else if m = bytesDescMarker then .bytes descendingBytesEscapes
  else if m = geoDescMarker then .geo descendingGeoEscapes
  else if m = timeMarker ∨ m = timeTZMarker then .varints 2
  else if m = durationBigNegMarker ∨ m = durationMarker ∨ m = durationBigPosMarker then .varints 3
  else if m = floatNeg ∨ m = floatPos then .float
  else if m ≥ intMin ∧ m ≤ intMax then .int
  else if m ≥ decimalNaN ∧ m ≤ decimalNaNDesc then .decimal
  else .unknown

abbrev Peek (α : Type) := Outcome PeekError α

/-- A length that is found by a function of the decoders. -/
def Peek.ofCode {α : Type} : Outcome CodeError α → Peek α
  | .ok a => .ok a
  | .error e => .error (.code e)
  | .panic => .panic

/-- The length up to a pair of the escape byte and one that stops. -/
def scanEscapes (err : PeekError) (esc : UInt8) (stop : UInt8 → Bool) : Bytes → Peek ℕ
  | [] => .error err
  | [x] => if x = esc then .panic else .error err
  | x :: y :: b =>
    if x = esc then
      if stop y then .ok 2 else scanEscapes err esc stop b >>= fun n => pure (n + 2)
    else scanEscapes err esc stop (y :: b) >>= fun n => pure (n + 1)

/-- The length of a bytes encoding. The tag is skipped. -/
def getBytesLength (b : Bytes) (e : Escapes) : Peek ℕ :=
  sliceFrom b 1 >>= fun r =>
    scanEscapes .terminator e.escape (· = e.escapedTerm) r >>= fun n => pure (1 + n)

/-- The number of items in front of a terminator and their length. Each step takes at least one
byte, so that the buffer's length bounds the steps. -/
def skipItems (err : PeekError) (itemLen : Bytes → Peek ℕ) (terminator : UInt8) :
    ℕ → Bytes → Peek (ℕ × ℕ)
  | 0, _ => .panic
  | _ + 1, [] => .error err
  | fuel + 1, x :: r =>
    if x = terminator then .ok (0, 0)
    else itemLen (x :: r) >>= fun k => sliceFrom (x :: r) k >>= fun b =>
      skipItems err itemLen terminator fuel b >>= fun (num, sz) => pure (num + 1, k + sz)

def getBitArrayWordsLen (b : Bytes) (term : UInt8) : Peek (ℕ × ℕ) :=
  skipItems (.bitArrayShort b.length) (fun b => .ofCode (getVarintLen b)) term (b.length + 1) b

/-- The varints that follow a tag, as far as there are bytes. -/
def multiVarintLen : ℕ → Bytes → Peek ℕ
  | 0, _ => .ok 0
  | _ + 1, [] => .ok 0
  | num + 1, x :: r =>
    Peek.ofCode (getVarintLen (x :: r)) >>= fun k => sliceFrom (x :: r) k >>= fun b =>
      multiVarintLen num b >>= fun n => pure (k + n)

def getMultiVarintLen (b : Bytes) (num : ℕ) : Peek ℕ :=
  sliceFrom b 1 >>= fun r => multiVarintLen num r >>= fun n => pure (1 + n)

def arrayTerminator : Direction → UInt8
  | .ascending => arrayKeyTerminator
  | .descending => arrayKeyDescendingTerminator

/-- The length of an array from its elements on, with its terminator. -/
def getArrayLength (peek : Bytes → Peek ℕ) (buf : Bytes) (dir : Direction) : Peek ℕ :=
  skipItems .arrayUnterminated peek (arrayTerminator dir) (buf.length + 1) buf >>= fun (_, sz) =>
    pure (sz + 1)

def box2DFloatsLength : ℕ → Bytes → Peek ℕ
  | 0, _ => .ok 0
  | _ + 1, [] => .error .box2DShort
  | i + 1, m :: r =>
    if m = floatNaN ∨ m = floatNaNDesc ∨ m = floatZero then
      box2DFloatsLength i r >>= fun n => pure (n + 1)
    else if m = floatNeg ∨ m = floatPos then
      sliceFrom (m :: r) 9 >>= fun curr => box2DFloatsLength i curr >>= fun n => pure (n + 9)
    else .error (.box2DMarker m)

def peekBox2DLength (b : Bytes) : Peek ℕ := box2DFloatsLength 4 b

def getInvertedIndexKeyLength (b : Bytes) : Peek ℕ :=
  scanEscapes .invertedKey escape
    (fun v => v = escapedTerm ∨ v = jsonEmptyObject ∨ v = jsonEmptyArray) b

def getJSONInvertedIndexKeyLength (peek : Bytes → Peek ℕ) (buf : Bytes) : Peek ℕ :=
  getInvertedIndexKeyLength buf >>= fun len => index buf len >>= fun x =>
    if x = jsonEmptyArray ∨ x = jsonEmptyObject then .ok (len + 1)
    else sliceFrom buf len >>= fun r => peek r >>= fun valLen => pure (len + valLen)

def getGeoInvertedIndexKeyLength (buf : Bytes) : Peek ℕ :=
  if buf.length < 19 then .error (.bufShort buf.length)
  else sliceFrom buf 1 >>= fun r => Peek.ofCode (getVarintLen r) >>= fun cellLen =>
    index buf (1 + cellLen) >>= fun encodingKind =>
      pure (1 + cellLen + 1 + if encodingKind = geoInvertedTwoFloats then 16 else 32)

/-- The length by the kind of the first byte. Values within values are left to `peek`. -/
def peekBody (peek : Bytes → Peek ℕ) (m : UInt8) (r : Bytes) : Peek ℕ :=
  let b := m :: r
  match peekKind m with
  | .single => .ok 1
  | .bitArray terminator =>
    getBitArrayWordsLen r terminator >>= fun (_, n) => sliceFrom b (n + 2) >>= fun r =>
      Peek.ofCode (getVarintLen r) >>= fun m => pure (1 + n + m + 1)
  | .arrayKey dir => getArrayLength peek r dir >>= fun length => pure (1 + length)
  | .bytes e => getBytesLength b e
  | .box2D => peekBox2DLength r >>= fun length => pure (1 + length)
  | .geoInverted => getGeoInvertedIndexKeyLength b
  | .geo e =>
    if b.length < 8 then .error (.geoShort b.length)
    else sliceFrom b 8 >>= fun r => getBytesLength r e >>= fun ret => pure (8 + ret)
  | .json => getJSONInvertedIndexKeyLength peek b
  | .varints num => getMultiVarintLen b num
  | .float => if b.length < 9 then .error (.floatShort b.length) else .ok 9
  | .int => Peek.ofCode (getVarintLen b)
  | .decimal => Peek.ofCode (getDecimalLen b)
  | .unknown => .error (.unknownTag m)

/-- Values lie within each other at most as deep as there are bytes. -/
def peekFuel : ℕ → Bytes → Peek ℕ
  | 0, _ => .panic
  | _ + 1, [] => .error .emptySlice
  | fuel + 1, m :: r => peekBody (peekFuel fuel) m r

def peekLength (b : Bytes) : Peek ℕ := peekFuel (b.length + 1) b

section Fuel

variable {err : PeekError} {itemLen itemLen' : Bytes → Peek ℕ} {t : UInt8}

variable {b : Bytes}

theorem sliceFrom_bind_congr {α : Type} {k : ℕ} (hk : 0 < k) {f g : Bytes → Peek α}
    (h : ∀ c : Bytes, c.length < b.length → f c = g c) :
    (sliceFrom b k >>= f) = (sliceFrom b k >>= g) := by
  rcases Nat.lt_or_ge b.length k with hlt | hge
  · rw [sliceFrom_eq_panic.mpr hlt]
    rfl
  · rw [sliceFrom_eq_ok hge]
    exact h _ (by rw [length_drop]; omega)

variable {n : ℕ}

theorem skipItems_fuel (hpos : ∀ b k, itemLen b = .ok k → 0 < k) {n' : ℕ} (h : b.length < n)
    (h' : b.length < n') : skipItems err itemLen t n b = skipItems err itemLen t n' b := by
  induction n generalizing n' b with
  | zero => omega
  | succ n ih =>
    obtain ⟨n', rfl⟩ : ∃ m, n' = m + 1 := ⟨n' - 1, by omega⟩
    cases b with
    | nil => rfl
    | cons x r =>
      rw [skipItems, skipItems]
      split_ifs
      · rfl
      cases hk : itemLen (x :: r) with
      | ok k =>
        refine sliceFrom_bind_congr (hpos _ _ hk) ?_
        intro c hc
        rw [@ih c n' (by rw [length_cons] at hc h; omega) (by rw [length_cons] at hc h'; omega)]
      | error | panic => rfl

/-- The items from the start of the buffer on. -/
def skipAll (err : PeekError) (itemLen : Bytes → Peek ℕ) (t : UInt8) (b : Bytes) : Peek (ℕ × ℕ) :=
  skipItems err itemLen t (b.length + 1) b

theorem skipAll_cons (hpos : ∀ b k, itemLen b = .ok k → 0 < k) (x : UInt8) (r : Bytes) :
    skipAll err itemLen t (x :: r) = if x = t then .ok (0, 0)
      else itemLen (x :: r) >>= fun k => sliceFrom (x :: r) k >>= fun b =>
        skipAll err itemLen t b >>= fun (num, sz) => pure (num + 1, k + sz) := by
  rw [skipAll, skipItems]
  split_ifs
  · rfl
  cases hk : itemLen (x :: r) with
  | ok k =>
    refine sliceFrom_bind_congr (hpos _ _ hk) ?_
    intro c hc
    rw [skipAll, skipItems_fuel hpos hc (Nat.lt_succ_self _)]
  | error | panic => rfl

theorem skipItems_congr (h : ∀ c : Bytes, c.length ≤ b.length → itemLen c = itemLen' c) :
    skipItems err itemLen t n b = skipItems err itemLen' t n b := by
  induction n generalizing b with
  | zero => rfl
  | succ n ih =>
    cases b with
    | nil => rfl
    | cons x r =>
      rw [skipItems, skipItems, h _ le_rfl]
      split_ifs
      · rfl
      cases itemLen' (x :: r) with
      | ok k =>
        rw [ok_bind, ok_bind]
        rcases Nat.lt_or_ge (x :: r).length k with hlt | hge
        · rw [sliceFrom_eq_panic.mpr hlt]
          rfl
        · rw [sliceFrom_eq_ok hge, ok_bind, ok_bind, ih]
          intro c hc
          exact h c (hc.trans (by rw [length_drop]; omega))
      | error | panic => rfl

theorem two_le_of_scanEscapes {esc : UInt8} {stop : UInt8 → Bool}
    (h : scanEscapes err esc stop b = .ok n) : 2 ≤ n ∧ n ≤ b.length := by
  induction b using scanEscapes.induct esc stop generalizing n with
  | case1 | case2 => simp [scanEscapes] at h
  | case3 x hx => simp [scanEscapes, hx] at h
  | case4 y b hy =>
    rw [scanEscapes, if_pos rfl, if_pos hy, Outcome.ok.injEq] at h
    simp only [length_cons]
    omega
  | case5 y b hy ih =>
    rw [scanEscapes, if_pos rfl, if_neg hy] at h
    obtain ⟨k, hk, hn⟩ := bind_eq_ok.mp h
    have hle := ih hk
    have hn' : k + 2 = n := Outcome.ok.inj hn
    simp only [length_cons]
    omega
  | case6 x y b hx ih =>
    rw [scanEscapes, if_neg hx] at h
    obtain ⟨k, hk, hn⟩ := bind_eq_ok.mp h
    have hle := ih hk
    have hn' : k + 1 = n := Outcome.ok.inj hn
    rw [length_cons]
    omega

variable {peek peek' : Bytes → Peek ℕ}

theorem getArrayLength_congr {buf : Bytes} {dir : Direction}
    (h : ∀ c : Bytes, c.length ≤ buf.length → peek c = peek' c) :
    getArrayLength peek buf dir = getArrayLength peek' buf dir := by
  rw [getArrayLength, getArrayLength, skipItems_congr h]

theorem getJSONInvertedIndexKeyLength_congr {m : UInt8} {r : Bytes}
    (h : ∀ c : Bytes, c.length ≤ r.length → peek c = peek' c) :
    getJSONInvertedIndexKeyLength peek (m :: r) = getJSONInvertedIndexKeyLength peek' (m :: r) := by
  rw [getJSONInvertedIndexKeyLength, getJSONInvertedIndexKeyLength]
  cases hlen : getInvertedIndexKeyLength (m :: r) with
  | ok len =>
    obtain ⟨htwo, -⟩ := two_le_of_scanEscapes hlen
    rw [ok_bind]
    congr 1
    funext x
    split_ifs
    · rfl
    · refine sliceFrom_bind_congr (by omega) ?_
      intro c hc
      rw [h c (Nat.lt_succ_iff.mp hc)]
  | error | panic => rfl

theorem peekBody_congr {m : UInt8} {r : Bytes}
    (h : ∀ c : Bytes, c.length ≤ r.length → peek c = peek' c) :
    peekBody peek m r = peekBody peek' m r := by
  unfold peekBody
  cases peekKind m with
  | arrayKey dir => simp only [getArrayLength_congr h]
  | json => exact getJSONInvertedIndexKeyLength_congr h
  | _ => rfl

theorem peekFuel_eq {n' : ℕ} (h : b.length < n) (h' : b.length < n') :
    peekFuel n b = peekFuel n' b := by
  induction n generalizing n' b with
  | zero => omega
  | succ n ih =>
    obtain ⟨n', rfl⟩ : ∃ m, n' = m + 1 := ⟨n' - 1, by omega⟩
    cases b with
    | nil => rfl
    | cons m r =>
      rw [length_cons] at h h'
      refine peekBody_congr ?_
      intro c hc
      exact ih (by omega) (by omega)

theorem peekLength_cons (m : UInt8) (r : Bytes) :
    peekLength (m :: r) = peekBody peekLength m r := by
  refine peekBody_congr ?_
  intro c hc
  exact peekFuel_eq (by rw [length_cons]; omega) (Nat.lt_succ_self _)

end Fuel

end Cockroach.Encoding
