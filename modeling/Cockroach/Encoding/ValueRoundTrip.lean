import Cockroach.Encoding.ValueTag

/-! Values are decoded from their encodings, and their lengths are found. -/
namespace Cockroach.Encoding
open ByteOrder Leb128 Util List Option
open Outcome (index index_of_drop mapError ok_bind pure_eq sliceFrom sliceFrom_eq_ok)

section Data

theorem decodeNonsortingStdlibVarint_encode (x : Int64) (s : Bytes) :
    decodeNonsortingStdlibVarint (encodeNonsortingStdlibVarint x ++ s) =
      .ok (s, (encodeNonsortingStdlibVarint x).length, x) := by
  have hpos : 0 < (putVarint x).length := putNat_length_pos _ _
  rw [encodeNonsortingStdlibVarint, decodeNonsortingStdlibVarint, varint_putVarint]
  dsimp only
  rw [if_neg (by omega), Int.toNat_natCast, sliceFrom_eq_ok (by simp), drop_left]
  rfl

theorem decodeNonsortingStdlibUvarint_encode (x : UInt64) (s : Bytes) :
    decodeNonsortingStdlibUvarint (putUvarint x ++ s) = .ok (s, (putUvarint x).length, x) := by
  have hpos : 0 < (putUvarint x).length := putNat_length_pos _ _
  rw [decodeNonsortingStdlibUvarint, uvarint_putUvarint]
  dsimp only
  rw [if_neg (by omega), Int.toNat_natCast, sliceFrom_eq_ok (by simp), drop_left]
  rfl

variable {n : ℕ}

theorem toInt_ofNat_length (h : n < 2 ^ 63) : (UInt64.ofNat n).toInt64.toInt = n := by
  have hlength := toInt_toInt64_ofNat (Int.natCast_nonneg n) (by omega)
  rwa [Int.toNat_natCast] at hlength

theorem splitAtInt_append {a : Bytes} (h : a.length < 2 ^ 63) (s : Bytes) :
    splitAtInt (a ++ s) (UInt64.ofNat a.length) = .ok (a, s) := by
  rw [splitAtInt, toInt_ofNat_length h, if_neg (by rw [length_append]; omega),
    Int.toNat_natCast, take_left, drop_left]

theorem decodeUntaggedBytesValue_encode {data : Bytes} (h : data.length < 2 ^ 63) (s : Bytes) :
    decodeUntaggedBytesValue (encodeUntaggedBytesValue data ++ s) = .ok (s, data) := by
  rw [encodeUntaggedBytesValue, append_assoc, decodeUntaggedBytesValue,
    decodeNonsortingUvarint_encode]
  dsimp only
  rw [splitAtInt_append h]
  rfl

theorem decodeUntaggedTimeValue_encode (t : Time) (s : Bytes) :
    decodeUntaggedTimeValue (encodeUntaggedTimeValue t ++ s) = .ok (s, t) := by
  have htime : timeUnix t.unix (Int64.ofNat t.nanosecond) = t := by
    obtain ⟨unix, nanosecond, hnanos⟩ := t
    have htoInt : (Int64.ofNat nanosecond).toInt = nanosecond :=
      toInt_ofNat_nanosecond ⟨unix, nanosecond, hnanos⟩
    have hdiv : (nanosecond : ℤ) / 1000000000 = 0 := by omega
    have hmod : ((nanosecond : ℤ) % 1000000000).toNat = nanosecond := by omega
    simp only [timeUnix, htoInt, hdiv, hmod]
    congr 1
    exact Int64.add_zero unix
  rw [encodeUntaggedTimeValue, append_assoc, decodeUntaggedTimeValue,
    decodeNonsortingStdlibVarint_encode, ok_bind]
  dsimp only
  rw [decodeNonsortingStdlibVarint_encode, ok_bind]
  rw [htime]
  rfl

theorem decodeUntaggedTimeTZValue_encode (timeOfDay : Int64) (offsetSecs : Int32) (s : Bytes) :
    decodeUntaggedTimeTZValue (encodeUntaggedTimeTZValue timeOfDay offsetSecs ++ s) =
      .ok (s, timeOfDay, offsetSecs) := by
  rw [encodeUntaggedTimeTZValue, append_assoc, decodeUntaggedTimeTZValue,
    decodeNonsortingStdlibVarint_encode, ok_bind]
  dsimp only
  rw [decodeNonsortingStdlibVarint_encode, ok_bind]
  rw [Int32.toInt32_toInt64]
  rfl

theorem decodeUntaggedDurationValue_encode (d : Duration) (s : Bytes) :
    decodeUntaggedDurationValue (encodeUntaggedDurationValue d ++ s) = .ok (s, d) := by
  rw [encodeUntaggedDurationValue, append_assoc, append_assoc,
    decodeUntaggedDurationValue, decodeNonsortingStdlibVarint_encode, ok_bind]
  dsimp only
  rw [decodeNonsortingStdlibVarint_encode, ok_bind]
  rw [decodeNonsortingStdlibVarint_encode]
  rfl

theorem length_flatMap_words (words : List UInt64) :
    (words.flatMap encodeUint64Ascending).length = words.length * 8 := by
  simp [length_flatMap, encodeUint64Ascending]

theorem decodeWords_encode (words : List UInt64) (s : Bytes) :
    decodeWords words.length (words.flatMap encodeUint64Ascending ++ s) = .ok (s, words) := by
  induction words with
  | nil => rfl
  | cons w words ih =>
    have hlen : (encodeUint64Ascending w).length = 8 := length_bigEndian _ _
    have hword : decodeUint64Ascending (encodeUint64Ascending w ++
        (words.flatMap encodeUint64Ascending ++ s)) =
        .ok (words.flatMap encodeUint64Ascending ++ s, w) := by
      rw [decodeUint64Ascending, if_neg (by rw [length_append]; omega), ← hlen, take_left,
        encodeUint64Ascending, ofBigEndian_bigEndian]
      congr 2
      have hw := w.toNat_lt
      rw [Nat.mod_eq_of_lt (hw.trans_le (by norm_num)), UInt64.ofNat_toNat]
    rw [flatMap_cons, append_assoc, length_cons, decodeWords, hword, ok_bind]
    dsimp only
    rw [ih]
    rfl

theorem decodeUntaggedBitArrayValue_encode (d : SizedBitArray) (s : Bytes) :
    decodeUntaggedBitArrayValue (encodeUntaggedBitArrayValue d.array ++ s) = .ok (s, d) := by
  obtain ⟨⟨words, lastBitsUsed⟩, hwords, hlast, hlt⟩ := d
  set d : BitArray := ⟨words, lastBitsUsed⟩
  have hbitLen : (UInt64.ofNat d.bitLen).toNat = d.bitLen :=
    UInt64.toNat_ofNat_of_lt' (hlt.trans (by decide))
  have hcount : (BitArray.encodingPartsForBitLen d.bitLen).1.length = words.length := by
    rw [show words.length = (d.bitLen + 63) / 64 from hwords]
    rw [BitArray.encodingPartsForBitLen]
    by_cases hzero : d.bitLen = 0
    · rw [hzero]
      rfl
    · rw [if_neg hzero]
      exact length_replicate
  have hused : (BitArray.encodingPartsForBitLen d.bitLen).2 = BitArray.lastUsed d.bitLen := by
    unfold BitArray.encodingPartsForBitLen BitArray.lastUsed
    split_ifs <;> rfl
  have hparts : BitArray.fromEncodingParts words (BitArray.lastUsed d.bitLen) = .ok d := by
    rw [BitArray.fromEncodingParts, if_neg (by have := BitArray.lastUsed_le d.bitLen; omega),
      ← hlast, UInt8.ofNat_toNat]
  rw [encodeUntaggedBitArrayValue, append_assoc, decodeUntaggedBitArrayValue,
    decodeNonsortingUvarint_encode]
  dsimp only
  rw [hbitLen, hcount, hused, decodeWords_encode, ok_bind]
  rw [hparts]
  dsimp only
  rw [dif_pos ⟨hwords, hlast, hlt⟩]

theorem decodeUntaggedUUIDValue_encode (u : UUID) (s : Bytes) :
    decodeUntaggedUUIDValue (u.bytes ++ s) = .ok (s, u) := by
  obtain ⟨bytes, hlen⟩ := u
  have hle : 16 ≤ (bytes ++ s).length := by
    rw [length_append]
    omega
  rw [decodeUntaggedUUIDValue, dif_pos hle]
  simp only [drop_left' hlen, take_left' hlen]

theorem readUint_append {w : ℕ} (hn : n < 256 ^ w) (s : Bytes) :
    readUint w (bigEndian w n ++ s) = .ok n := by
  have htake : (bigEndian w n ++ s).take w = bigEndian w n :=
    take_left' (length_bigEndian w n)
  rw [readUint, if_pos (by simp), htake, ofBigEndian_bigEndian, Nat.mod_eq_of_lt hn]

theorem IPAddr.fromBuffer_cons (family : IPFamily) (mask : UInt8) (addr : Bytes) :
    IPAddr.fromBuffer (family.byte :: mask :: addr) =
      match family with
      | .ipv4 => readUint 4 addr >>= fun lo =>
        sliceFrom (family.byte :: mask :: addr) 6 >>= fun rest =>
          pure (rest, mappedAddr mask (UInt32.ofNat lo))
      | .ipv6 => readUint 8 addr >>= fun hi => readUint 8 (addr.drop 8) >>= fun lo =>
        sliceFrom (family.byte :: mask :: addr) 18 >>= fun rest =>
          pure (rest, ⟨.ipv6, mask, UInt64.ofNat hi, UInt64.ofNat lo, by simp⟩) := by
  have hfamily : (index (family.byte :: mask :: addr) 0 : Decoded UInt8) =
      .ok family.byte := index_of_drop rfl
  have hmask : (index (family.byte :: mask :: addr) 1 : Decoded UInt8) = .ok mask :=
    index_of_drop rfl
  have haddr : (sliceFrom (family.byte :: mask :: addr) 2 : Decoded Bytes) = .ok addr :=
    sliceFrom_eq_ok (by simp)
  rw [IPAddr.fromBuffer, hfamily, ok_bind, hmask, ok_bind, haddr, ok_bind]
  cases family with
  | ipv4 => rw [if_neg (by decide), if_pos rfl]
  | ipv6 => rw [if_neg (by decide), if_neg (by decide)]

theorem IPAddr.fromBuffer_toBuffer (a : IPAddr) (s : Bytes) :
    IPAddr.fromBuffer (a.toBuffer ++ s) = .ok (s, a) := by
  obtain ⟨family, mask, hi, lo, hmapped⟩ := a
  cases family with
  | ipv4 =>
    obtain ⟨rfl, hlo⟩ := hmapped rfl
    have haddr : lo.toUInt32.toUInt64 ||| ipv4mappedIPv6prefix = lo := by
      have hlt : lo.toUInt32.toNat < 2 ^ 32 := lo.toUInt32.toNat_lt
      have hpre : ipv4mappedIPv6prefix.toNat = 2 ^ 32 * 0xffff := rfl
      rw [← UInt64.toNat_inj, UInt64.toNat_or, UInt32.toNat_toUInt64, hpre, Nat.or_comm,
        ← Nat.two_pow_add_eq_or_of_lt hlt, UInt64.toNat_toUInt32]
      omega
    have hbuffer : (IPAddr.toBuffer ⟨.ipv4, mask, 0, lo, hmapped⟩ ++ s) =
        IPFamily.ipv4.byte :: mask :: (bigEndian 4 lo.toUInt32.toNat ++ s) := rfl
    have hslice : (sliceFrom (IPFamily.ipv4.byte :: mask ::
        (bigEndian 4 lo.toUInt32.toNat ++ s)) 6 : Decoded Bytes) = .ok s := by
      exact congrArg _ (drop_left' (length_bigEndian _ _))
    rw [hbuffer, IPAddr.fromBuffer_cons]
    rw [readUint_append lo.toUInt32.toNat_lt, hslice, ok_bind, UInt32.ofNat_toNat]
    simp only [mappedAddr, haddr]
    rfl
  | ipv6 =>
    have hbuffer : (IPAddr.toBuffer ⟨.ipv6, mask, hi, lo, hmapped⟩ ++ s) =
        IPFamily.ipv6.byte :: mask :: (bigEndian 8 hi.toNat ++ (bigEndian 8 lo.toNat ++ s)) := by
      rfl
    have hslice : (sliceFrom (IPFamily.ipv6.byte :: mask ::
        (bigEndian 8 hi.toNat ++ (bigEndian 8 lo.toNat ++ s))) 18 : Decoded Bytes) = .ok s := by
      have hle : 18 ≤ (IPFamily.ipv6.byte :: mask ::
          (bigEndian 8 hi.toNat ++ (bigEndian 8 lo.toNat ++ s))).length := by
        simp only [length_cons, length_append, length_bigEndian]
        omega
      rw [← append_assoc]
      exact congrArg _ (drop_left' (by simp))
    have hdrop : (bigEndian 8 hi.toNat ++ (bigEndian 8 lo.toNat ++ s)).drop 8 =
        bigEndian 8 lo.toNat ++ s := drop_left' (length_bigEndian _ _)
    rw [hbuffer, IPAddr.fromBuffer_cons]
    rw [readUint_append hi.toNat_lt, hdrop, readUint_append lo.toNat_lt, ok_bind, hslice, ok_bind]
    simp only [UInt64.ofNat_toNat]
    rfl

end Data

section Decimals

theorem length_copyWords_le (n : ℕ) :
    (copyWords (coeffBits n)).length ≤ (Nat.digits 10 n).length + 8 := by
  set k := (Nat.digits 10 n).length / 16 + 1
  have hn : n < (2 ^ 64) ^ k := by
    have hlt : n < 10 ^ (Nat.digits 10 n).length := Nat.lt_base_pow_length_digits (by norm_num)
    have hle : 10 ^ (Nat.digits 10 n).length ≤ 10 ^ (16 * k) :=
      Nat.pow_le_pow_right (by norm_num) (by omega)
    have hwords : 10 ^ (16 * k) ≤ (2 ^ 64) ^ k := by
      rw [Nat.pow_mul]
      exact Nat.pow_le_pow_left (by norm_num) k
    exact hlt.trans_le (hle.trans hwords)
  have hcount : (Nat.digits (2 ^ 64) n).length ≤ k :=
    (Nat.digits_length_le_iff (by norm_num) n).mpr hn
  have hdrop : (copyWords (coeffBits n)).length ≤ (Nat.digits (2 ^ 64) n).length * 8 := by
    refine (length_dropWhile_le _ _).trans ((length_flatMap_words _).trans_le ?_)
    rw [length_reverse, coeffBits, length_map]
  omega

theorem length_encodeUvarintAscending_le (x : UInt64) : (encodeUvarintAscending x).length ≤ 9 := by
  have hwidth := payloadWidth_le x.toNat_lt
  rw [encodeUvarintAscending_eq]
  split_ifs
  · exact Nat.le_add_left 1 8
  · rw [length_cons, length_bigEndian]
    omega

variable {d : Decimal}

variable {code : Bytes}

theorem length_encodeNonsortingDecimal_lt
    (h : encodeNonsortingDecimal d = some code) : code.length < 2 ^ 63 := by
  have hdigits : (Nat.digits 10 d.coeff).length < 2 ^ 62 := by
    have hlen := d.length_lt
    rwa [Positional.digits, length_reverse] at hlen
  have hwords := length_copyWords_le d.coeff
  have hplain (m : UInt8) : (m :: encodeNonsortingDecimalValueWithoutExp
      (coeffBits d.coeff)).length < 2 ^ 63 := by
    rw [length_cons, encodeNonsortingDecimalValueWithoutExp]
    omega
  have hexp (m : UInt8) (e : UInt64) : (m :: encodeNonsortingDecimalValue e
      (coeffBits d.coeff)).length < 2 ^ 63 := by
    have hlen := length_encodeUvarintAscending_le e
    rw [length_cons, encodeNonsortingDecimalValue, length_append]
    omega
  unfold encodeNonsortingDecimal at h
  cases hform : d.form with
  | finite =>
    rw [hform] at h
    dsimp only at h
    split_ifs at h
    · rw [← some.inj h]
      exact Nat.one_lt_two_pow (by norm_num)
    · rw [← some.inj h]
      unfold encodeNonsortingFinite
      split_ifs
      · exact hexp _ _
      · exact hplain _
      · exact hexp _ _
      · exact hexp _ _
      · exact hplain _
      · exact hexp _ _
  | infinite | naN =>
    rw [hform] at h
    rw [← some.inj h]
    exact Nat.one_lt_two_pow (by norm_num)
  | naNSignaling =>
    rw [hform] at h
    cases h

/-- What is left of a decimal: of forms other than finite only what their marker says. -/
def Decimal.stored (d : Decimal) : Decimal :=
  match d.form with
  | .finite | .naNSignaling => d
  | .infinite => specialDecimal .infinite d.negative
  | .naN => specialDecimal .naN false

theorem decodeNonsortingDecimal_stored (h : encodeNonsortingDecimal d = some code) :
    decodeNonsortingDecimal code = .ok d.stored := by
  cases hform : d.form with
  | finite =>
    obtain ⟨code', hcode', hdecode⟩ := nonsortingRoundTrip_of_finite hform
    obtain rfl : code' = code := some.inj (hcode'.symm.trans h)
    rw [hdecode, Decimal.stored, hform]
  | infinite =>
    rw [encodeNonsortingDecimal, hform] at h
    rw [← some.inj h, Decimal.stored, hform]
    cases d.negative <;> rfl
  | naN =>
    rw [encodeNonsortingDecimal, hform] at h
    rw [← some.inj h, Decimal.stored, hform]
    rfl
  | naNSignaling =>
    rw [encodeNonsortingDecimal, hform] at h
    cases h

theorem decodeUntaggedDecimalValue_encode {data : Bytes}
    (h : encodeUntaggedDecimalValue d = some data) (s : Bytes) :
    decodeUntaggedDecimalValue (data ++ s) = .ok (s, d.stored) := by
  obtain ⟨code, hcode, rfl⟩ := map_eq_some_iff.mp h
  rw [append_assoc, decodeUntaggedDecimalValue, decodeNonsortingStdlibUvarint_encode, ok_bind]
  dsimp only
  rw [splitAtInt_append (length_encodeNonsortingDecimal_lt hcode), ok_bind]
  rw [decodeNonsortingDecimal_stored hcode]

end Decimals

section Values

mutual

/-- What is left of a value once it is stored. -/
def Value.stored : {t : ValueType} → Value t → Value t
  | _, .decimal d => .decimal d.stored
  | _, .tuple h d => .tuple h (.stored d)
  | _, v => v

def Tuple.stored : {ts : List ValueType} → Tuple ts → Tuple ts
  | _, .nil => .nil
  | _, .cons v d => .cons (.stored v) (.stored d)

end

variable {tag : Bytes} {off : ℤ}

variable {typ : UInt64} {t : ValueType}

theorem IsTag.ne_nil (h : IsTag tag typ off) : tag ≠ [] := by
  rintro rfl
  obtain ⟨colID, hdecode⟩ := h []
  cases hdecode

variable {r : Bytes}

variable {untagged : Bytes → Decoded (Bytes × Value t)}

theorem decodeTagged_data (h : IsTag tag typ off)
    (hnull : decide (typ = Typ.null) = false) (hbool : t.isBool = false) :
    decodeTagged untagged (tag ++ r) = untagged r := by
  obtain ⟨colID, hdecode⟩ := h r
  rw [decodeTagged, hdecode, ok_bind]
  dsimp only
  rw [if_neg (of_decide_eq_false hnull), hbool, if_neg Bool.false_ne_true,
    sliceFrom_eq_ok (by simp),
    drop_left, ok_bind]

theorem decodeTagged_null (h : IsTag tag Typ.null off) :
    decodeTagged untagged (tag ++ r) = .ok (r, .null) := by
  obtain ⟨colID, hdecode⟩ := h r
  rw [decodeTagged, hdecode, ok_bind]
  dsimp only
  rw [sliceFrom_eq_ok (by simp), drop_left]
  rfl

theorem decodeTagged_bool {v : Bool} (h : IsTag tag (Value.bool v).typ off) :
    decodeTagged (decodeUntaggedDatum .bool) (tag ++ r) = .ok (r, .bool v) := by
  obtain ⟨colID, hdecode⟩ := h r
  have hnull : (Value.bool v).typ ≠ Typ.null := by cases v <;> decide
  have hbool : decodeBoolValue (tag ++ r) = .ok (r, v) := by
    rw [decodeBoolValue, hdecode, ok_bind]
    dsimp only
    rw [sliceFrom_eq_ok (by simp), drop_left]
    cases v <;> rfl
  rw [decodeTagged, hdecode, ok_bind]
  dsimp only
  rw [if_neg hnull, ValueType.isBool, decodeUntaggedDatum, hbool]
  rfl

theorem isTag_encodeValueTag (colID : UInt32) (typ : UInt64) :
    ∃ off, IsTag (encodeValueTag colID typ) typ off := by
  obtain ⟨off, -, hdecode, -⟩ := decodeValueTag_encode colID typ
  exact ⟨off, fun s => ⟨colID, hdecode s⟩⟩

mutual

theorem decodeTagged_encode {t : ValueType} (v : Value t) {data : Bytes}
    (h : v.encodeUntagged = some data) {tag : Bytes} {off : ℤ} (htag : IsTag tag v.typ off)
    (s : Bytes) :
    decodeTagged (decodeUntaggedDatum t) (tag ++ (data ++ s)) = .ok (s, v.stored) := by
  match v with
  | .null =>
    rw [← some.inj h, nil_append, decodeTagged_null htag]
    rfl
  | .bool v =>
    rw [← some.inj h, nil_append, decodeTagged_bool htag]
    rfl
  | .int v =>
    rw [← some.inj h, decodeTagged_data htag rfl rfl, decodeUntaggedDatum,
      decodeUntaggedIntValue, decodeNonsortingStdlibVarint_encode]
    rfl
  | .bytes data hlt =>
    rw [← some.inj h, decodeTagged_data htag rfl rfl, decodeUntaggedDatum,
      decodeUntaggedBytesValue_encode hlt, ok_bind]
    dsimp only
    rw [dif_pos hlt]
    rfl
  | .decimal d =>
    rw [decodeTagged_data htag rfl rfl, decodeUntaggedDatum, decodeUntaggedDecimalValue_encode h]
    rfl
  | .time t =>
    rw [← some.inj h, decodeTagged_data htag rfl rfl, decodeUntaggedDatum,
      decodeUntaggedTimeValue_encode]
    rfl
  | .timeTZ timeOfDay offsetSecs =>
    rw [← some.inj h, decodeTagged_data htag rfl rfl, decodeUntaggedDatum,
      decodeUntaggedTimeTZValue_encode]
    rfl
  | .duration d =>
    rw [← some.inj h, decodeTagged_data htag rfl rfl, decodeUntaggedDatum,
      decodeUntaggedDurationValue_encode]
    rfl
  | .bitArray d =>
    rw [← some.inj h, decodeTagged_data htag rfl rfl, decodeUntaggedDatum,
      decodeUntaggedBitArrayValue_encode]
    rfl
  | .uuid u =>
    rw [← some.inj h, decodeTagged_data htag rfl rfl, decodeUntaggedDatum,
      decodeUntaggedUUIDValue_encode]
    rfl
  | .ipAddr a =>
    rw [← some.inj h, decodeTagged_data htag rfl rfl, decodeUntaggedDatum,
      IPAddr.fromBuffer_toBuffer]
    rfl
  | @Value.tuple contents hlt d =>
    obtain ⟨b, hb, rfl⟩ := map_eq_some_iff.mp h
    rw [decodeTagged_data htag rfl rfl, decodeUntaggedDatum, append_assoc,
      decodeNonsortingUvarint_encode]
    dsimp only
    rw [decodeTuple_encode d hb s, ok_bind]
    rw [dif_pos hlt]
    rfl

theorem decodeTuple_encode {ts : List ValueType} (d : Tuple ts) {b : Bytes}
    (h : d.encodeFields = some b) (s : Bytes) : decodeTuple ts (b ++ s) = .ok (s, d.stored) := by
  match d with
  | .nil =>
    rw [← some.inj h]
    rfl
  | .cons v d =>
    obtain ⟨data, hdata, h⟩ := bind_eq_some_iff.mp h
    obtain ⟨b, hb, rfl⟩ := map_eq_some_iff.mp h
    obtain ⟨off, htag⟩ := isTag_encodeValueTag noColumnID v.typ
    rw [append_assoc, append_assoc, decodeTuple, decodeTagged_encode v hdata htag, ok_bind]
    dsimp only
    rw [decodeTuple_encode d hb s]
    rfl

end

end Values

section Lengths

theorem getMultiNonsortingVarintLen_flatMap (vs : List Int64) (s : Bytes) :
    getMultiNonsortingVarintLen vs.length (vs.flatMap encodeNonsortingStdlibVarint ++ s) =
      .ok (vs.flatMap encodeNonsortingStdlibVarint).length := by
  induction vs with
  | nil => rfl
  | cons v vs ih =>
    have hpos : 0 < (encodeNonsortingStdlibVarint v).length := putNat_length_pos _ _
    obtain ⟨x, a, hxa⟩ := exists_cons_of_length_pos hpos
    have hdecode := decodeNonsortingStdlibVarint_encode v
      (vs.flatMap encodeNonsortingStdlibVarint ++ s)
    rw [flatMap_cons, append_assoc, length_cons, length_append]
    rw [hxa, cons_append] at hdecode ⊢
    rw [getMultiNonsortingVarintLen, hdecode, ok_bind]
    dsimp only
    rw [ih]
    rfl

variable {peek : Bytes → Decoded (ℤ × ℤ)} {o : ℕ}

variable {typ : UInt64} {data : Bytes}

/-- The data of a type that is stored as a fixed number of varints. -/
theorem peekData_varints {vs : List Int64} (h : ∀ b, peekData peek o typ b =
      (getMultiNonsortingVarintLen vs.length b >>= fun n => pure ((o : ℤ) + n)))
    (hdata : vs.flatMap encodeNonsortingStdlibVarint = data) (s : Bytes) :
    peekData peek o typ (data ++ s) = .ok ((o : ℤ) + data.length) := by
  rw [h, ← hdata, getMultiNonsortingVarintLen_flatMap]
  rfl

theorem peekData_int (v : Int64) (s : Bytes) :
    peekData peek o Typ.int (encodeNonsortingStdlibVarint v ++ s) =
      .ok ((o : ℤ) + (encodeNonsortingStdlibVarint v).length) := by
  change (decodeNonsortingStdlibVarint _ >>= _) = _
  rw [decodeNonsortingStdlibVarint_encode]
  rfl

theorem peekData_bytes (h : data.length < 2 ^ 63) (s : Bytes) :
    peekData peek o Typ.bytes (encodeUntaggedBytesValue data ++ s) =
      .ok ((o : ℤ) + (encodeUntaggedBytesValue data).length) := by
  have hdecode := decodeNonsortingUvarint_encode (UInt64.ofNat data.length) (data ++ s)
  have hlen := toInt_ofNat_length h
  change Outcome.ok ((o : ℤ) + (decodeNonsortingUvarint _).2.1 +
    (decodeNonsortingUvarint _).2.2.toInt64.toInt) = _
  rw [encodeUntaggedBytesValue, append_assoc, hdecode]
  rw [hlen, length_append]
  push_cast
  rw [add_assoc]

theorem peekData_decimal {d : Decimal} (h : encodeUntaggedDecimalValue d = some data)
    (s : Bytes) : peekData peek o Typ.decimal (data ++ s) = .ok ((o : ℤ) + data.length) := by
  obtain ⟨code, hcode, rfl⟩ := map_eq_some_iff.mp h
  have hlen := toInt_ofNat_length (length_encodeNonsortingDecimal_lt hcode)
  change (decodeNonsortingStdlibUvarint _ >>= _) = _
  rw [append_assoc, decodeNonsortingStdlibUvarint_encode, ok_bind]
  dsimp only
  rw [hlen, pure_eq, length_append]
  push_cast
  rw [add_assoc]

theorem peekData_bitArray (d : SizedBitArray) (s : Bytes) :
    peekData peek o Typ.bitArray (encodeUntaggedBitArrayValue d.array ++ s) =
      .ok ((o : ℤ) + (encodeUntaggedBitArrayValue d.array).length) := by
  have hlt := d.bitLen_lt
  have hbitLen : (UInt64.ofNat d.array.bitLen).toNat = d.array.bitLen :=
    UInt64.toNat_ofNat_of_lt' (hlt.trans (by decide))
  have hdecode := decodeNonsortingUvarint_encode (UInt64.ofNat d.array.bitLen)
    (d.array.words.flatMap encodeUint64Ascending ++ s)
  change Outcome.ok ((o : ℤ) + (decodeNonsortingUvarint _).2.1 +
    (BitArray.sizesForBitLen (decodeNonsortingUvarint _).2.2.toNat).1 * 8) = _
  rw [encodeUntaggedBitArrayValue, append_assoc, hdecode]
  rw [hbitLen, length_append, length_flatMap_words, d.words_eq, BitArray.sizesForBitLen]
  push_cast
  rw [add_assoc]

theorem peekData_uuid (u : UUID) (s : Bytes) :
    peekData peek o Typ.uuid (u.bytes ++ s) = .ok ((o : ℤ) + u.bytes.length) := by
  rw [u.length_eq]
  rfl

theorem peekData_ipAddr (a : IPAddr) (s : Bytes) :
    peekData peek o Typ.ipAddr (a.toBuffer ++ s) = .ok ((o : ℤ) + a.toBuffer.length) := by
  obtain ⟨family, mask, hi, lo, hmapped⟩ := a
  cases family <;> rfl

theorem peekValueFuel_tag {tag r : Bytes} {off : ℤ} (h : IsTag tag typ off)
    (fuel : ℕ) : peekValueFuel (fuel + 1) (tag ++ r) =
      (peekData (peekValueFuel fuel) tag.length typ r >>= fun length => pure (off, length)) := by
  obtain ⟨colID, hdecode⟩ := h r
  rw [peekValueFuel, peekValueBody, if_neg (by simp [h.ne_nil]), hdecode, ok_bind]
  dsimp only
  rw [peekValueLengthWithOffsetsAndType, sliceFrom_eq_ok (by simp), drop_left, ok_bind]

theorem peekData_tuple_eq (b : Bytes) : peekData peek o Typ.tuple b =
    (peekEntries peek 0 (decodeNonsortingUvarint b).2.2.toInt64.toInt.toNat
      (decodeNonsortingUvarint b).1 >>= fun n =>
        pure ((o : ℤ) + ((decodeNonsortingUvarint b).2.1 + n))) := rfl

theorem peekData_tuple {n : ℕ} (hn : n < 2 ^ 63) {b s : Bytes} {l : ℤ}
    (h : peekEntries peek 0 n (b ++ s) = .ok l) :
    peekData peek o Typ.tuple (encodeNonsortingUvarint (UInt64.ofNat n) ++ b ++ s) =
      .ok ((o : ℤ) + ((encodeNonsortingUvarint (UInt64.ofNat n)).length + l)) := by
  have hdecode := decodeNonsortingUvarint_encode (UInt64.ofNat n) (b ++ s)
  have hcount : (UInt64.ofNat n).toInt64.toInt.toNat = n := by
    rw [toInt_ofNat_length hn, Int.toNat_natCast]
  rw [peekData_tuple_eq, append_assoc, hdecode]
  rw [hcount, h]
  rfl

mutual

theorem peekValueFuel_encode {t : ValueType} (v : Value t) {data : Bytes}
    (h : v.encodeUntagged = some data) {tag : Bytes} {off : ℤ} (htag : IsTag tag v.typ off)
    {fuel : ℕ} (hfuel : data.length < fuel) (s : Bytes) :
    peekValueFuel fuel (tag ++ (data ++ s)) = .ok (off, (tag.length : ℤ) + data.length) := by
  obtain ⟨fuel, rfl⟩ : ∃ k, fuel = k + 1 := ⟨fuel - 1, by omega⟩
  rw [peekValueFuel_tag htag]
  match v with
  | .null =>
    rw [← some.inj h]
    rfl
  | .bool v =>
    rw [← some.inj h]
    cases v <;> rfl
  | .int v =>
    rw [← some.inj h, Value.typ, peekData_int]
    rfl
  | .bytes data hlt =>
    rw [← some.inj h, Value.typ, peekData_bytes hlt]
    rfl
  | .decimal d =>
    rw [Value.typ, peekData_decimal h]
    rfl
  | .time t =>
    have hdata : [t.unix, .ofNat t.nanosecond].flatMap encodeNonsortingStdlibVarint = data := by
      rw [← some.inj h, flatMap_cons, flatMap_cons, flatMap_nil, append_nil]
      rfl
    rw [Value.typ, peekData_varints (fun _ => rfl) hdata]
    rfl
  | .timeTZ timeOfDay offsetSecs =>
    have hdata : [timeOfDay, offsetSecs.toInt64].flatMap encodeNonsortingStdlibVarint = data := by
      rw [← some.inj h, flatMap_cons, flatMap_cons, flatMap_nil, append_nil]
      rfl
    rw [Value.typ, peekData_varints (fun _ => rfl) hdata]
    rfl
  | .duration d =>
    have hdata : [d.months, d.days, d.nanos].flatMap encodeNonsortingStdlibVarint = data := by
      rw [← some.inj h, flatMap_cons, flatMap_cons, flatMap_cons, flatMap_nil, append_nil]
      rfl
    rw [Value.typ, peekData_varints (fun _ => rfl) hdata]
    rfl
  | .bitArray d =>
    rw [← some.inj h, Value.typ, peekData_bitArray]
    rfl
  | .uuid u =>
    rw [← some.inj h, Value.typ, peekData_uuid]
    rfl
  | .ipAddr a =>
    rw [← some.inj h, Value.typ, peekData_ipAddr]
    rfl
  | @Value.tuple contents hlt d =>
    obtain ⟨b, hb, rfl⟩ := map_eq_some_iff.mp h
    rw [length_append] at hfuel
    rw [Value.typ, peekData_tuple hlt (peekEntries_encode d hb (show b.length < fuel by
      have hpos := length_pos_of_ne_nil
        (encodeNonsortingUvarint_ne_nil (UInt64.ofNat contents.length))
      omega) 0 s), length_append]
    rfl

theorem peekEntries_encode {ts : List ValueType} (d : Tuple ts) {b : Bytes}
    (h : d.encodeFields = some b) {fuel : ℕ} (hfuel : b.length < fuel) (i : ℕ) (s : Bytes) :
    peekEntries (peekValueFuel fuel) i ts.length (b ++ s) = .ok b.length := by
  match d with
  | .nil =>
    rw [← some.inj h]
    rfl
  | .cons v d =>
    obtain ⟨data, hdata, h⟩ := bind_eq_some_iff.mp h
    obtain ⟨b, hb, rfl⟩ := map_eq_some_iff.mp h
    obtain ⟨off, htag⟩ := isTag_encodeValueTag noColumnID v.typ
    rw [length_append, length_append] at hfuel
    have hpeek := peekValueFuel_encode v hdata htag (show data.length < fuel by omega) (b ++ s)
    have hdrop : (encodeValueTag noColumnID v.typ ++ (data ++ (b ++ s))).drop
        (((encodeValueTag noColumnID v.typ).length : ℤ) + data.length).toNat = b ++ s := by
      rw [← append_assoc]
      apply drop_left'
      rw [length_append]
      omega
    rw [append_assoc, append_assoc, length_cons, peekEntries, hpeek, mapError, ok_bind]
    dsimp only
    rw [if_neg (by simp only [length_append]; omega), hdrop,
      peekEntries_encode d hb (show b.length < fuel by omega)]
    simp only [ok_bind, pure_eq, Outcome.ok.injEq, length_append]
    push_cast
    ring

end

end Lengths

section RoundTrip

/-- A decimal in the form in which decimals are stored. -/
def Decimal.Standard (d : Decimal) : Prop :=
  d.form = .finite ∨ d.coeff = 0 ∧ d.exponent = 0 ∧
    (d.form = .infinite ∨ d.form = .naN ∧ d.negative = false)

mutual

/-- All decimals in the value are standard. -/
def Value.Standard : {t : ValueType} → Value t → Prop
  | _, .decimal d => d.Standard
  | _, .tuple _ d => Tuple.Standard d
  | _, _ => True

def Tuple.Standard : {ts : List ValueType} → Tuple ts → Prop
  | _, .nil => True
  | _, .cons v d => Value.Standard v ∧ Tuple.Standard d

end

theorem Decimal.standard_iff (d : Decimal) :
    d.Standard ↔ (∃ data, encodeUntaggedDecimalValue d = some data) ∧ d.stored = d := by
  rw [Decimal.Standard, ← nonsortingRoundTrip_iff]
  constructor
  · rintro ⟨code, hcode, hdecode⟩
    constructor
    · exact ⟨_, map_eq_some_iff.mpr ⟨code, hcode, rfl⟩⟩
    · rw [decodeNonsortingDecimal_stored hcode] at hdecode
      exact Outcome.ok.inj hdecode
  · rintro ⟨⟨data, hdata⟩, hstored⟩
    obtain ⟨code, hcode, -⟩ := map_eq_some_iff.mp hdata
    exact ⟨code, hcode, by rw [decodeNonsortingDecimal_stored hcode, hstored]⟩

mutual

theorem Value.standard_iff {t : ValueType} (v : Value t) :
    v.Standard ↔ (∃ data, v.encodeUntagged = some data) ∧ v.stored = v := by
  match v with
  | .null | .bool _ | .int _ | .bytes _ _ | .time _ | .timeTZ _ _ | .duration _ | .bitArray _
  | .uuid _ | .ipAddr _ => exact iff_of_true trivial ⟨⟨_, rfl⟩, rfl⟩
  | .decimal d =>
    have hdecimal := d.standard_iff
    have hstored : (Value.decimal d).stored = Value.decimal d ↔ d.stored = d := by
      rw [Value.stored, Value.decimal.injEq]
    rw [hstored]
    exact hdecimal
  | .tuple h d =>
    have htuple := Tuple.standard_iff d
    have hstored : (Value.tuple h d).stored = Value.tuple h d ↔ d.stored = d := by
      rw [Value.stored, Value.tuple.injEq]
    rw [hstored]
    refine htuple.trans (and_congr_left fun _ => ?_)
    constructor
    · rintro ⟨b, hb⟩
      exact ⟨_, map_eq_some_iff.mpr ⟨b, hb, rfl⟩⟩
    · rintro ⟨data, hdata⟩
      obtain ⟨b, hb, -⟩ := map_eq_some_iff.mp hdata
      exact ⟨b, hb⟩

theorem Tuple.standard_iff {ts : List ValueType} (d : Tuple ts) :
    d.Standard ↔ (∃ b, d.encodeFields = some b) ∧ d.stored = d := by
  match d with
  | .nil => exact iff_of_true trivial ⟨⟨_, rfl⟩, rfl⟩
  | .cons v d =>
    have hstored : (Tuple.cons v d).stored = Tuple.cons v d ↔ v.stored = v ∧ d.stored = d := by
      rw [Tuple.stored, Tuple.cons.injEq]
    rw [Tuple.Standard, hstored, Value.standard_iff v, Tuple.standard_iff d]
    constructor
    · rintro ⟨⟨⟨data, hdata⟩, hv⟩, ⟨b, hb⟩, hd⟩
      refine ⟨⟨encodeValueTag noColumnID v.typ ++ (data ++ b), ?_⟩, hv, hd⟩
      rw [Tuple.encodeFields, hdata, hb]
      rfl
    · rintro ⟨⟨c, hc⟩, hv, hd⟩
      obtain ⟨data, hdata, hrest⟩ := bind_eq_some_iff.mp hc
      obtain ⟨b, hb, -⟩ := map_eq_some_iff.mp hrest
      exact ⟨⟨⟨data, hdata⟩, hv⟩, ⟨b, hb⟩, hd⟩

end

/-- Column, type and value are read back from the code in front of any bytes, and its length is
found; and all but the column also from the byte of the type on. -/
def ValueRoundTrips {t : ValueType} (colID : UInt32) (v : Value t) (s : Bytes) : Prop :=
  ∃ code, encodeValue colID v = some code ∧ ∃ typeOffset dataOffset : ℕ,
    decodeValueTag (code ++ s) = .ok ((typeOffset : ℤ), dataOffset, colID, v.typ) ∧
    decodeValue t (code ++ s) = .ok (s, v) ∧
    peekValueLength (code ++ s) = .ok ((typeOffset : ℤ), (code.length : ℤ)) ∧
    (∃ col, decodeValueTag ((code ++ s).drop typeOffset) =
      .ok (0, dataOffset - typeOffset, col, v.typ)) ∧
    decodeValue t ((code ++ s).drop typeOffset) = .ok (s, v) ∧
    peekValueLength ((code ++ s).drop typeOffset) = .ok (0, (code.length : ℤ) - typeOffset)

variable {t : ValueType}

theorem decodeValue_encode (v : Value t) {data tag : Bytes} {off : ℤ}
    (h : v.encodeUntagged = some data) (htag : IsTag tag v.typ off) (s : Bytes) :
    decodeValue t (tag ++ data ++ s) = .ok (s, v.stored) ∧
    peekValueLength (tag ++ data ++ s) = .ok (off, (tag.length : ℤ) + data.length) := by
  rw [append_assoc]
  constructor
  · exact decodeTagged_encode v h htag s
  · apply peekValueFuel_encode v h htag
    simp only [length_append]
    omega

theorem ValueRoundTrips.stored_eq {colID : UInt32} {v : Value t} {s : Bytes}
    (h : ValueRoundTrips colID v s) : (∃ data, v.encodeUntagged = some data) ∧ v.stored = v := by
  obtain ⟨code, hcode, typeOffset, dataOffset, -, hdecode, -⟩ := h
  obtain ⟨data, hdata, rfl⟩ := map_eq_some_iff.mp hcode
  obtain ⟨off, htag⟩ := isTag_encodeValueTag colID v.typ
  rw [(decodeValue_encode v hdata htag s).1, Outcome.ok.injEq, Prod.mk.injEq] at hdecode
  exact ⟨⟨data, hdata⟩, hdecode.2⟩

theorem valueRoundTrips_iff_standard {t : ValueType} (colID : UInt32) (v : Value t) (s : Bytes) :
    ValueRoundTrips colID v s ↔ v.Standard := by
  rw [Value.standard_iff]
  constructor
  · exact ValueRoundTrips.stored_eq
  · rintro ⟨⟨data, hdata⟩, hstored⟩
    obtain ⟨off, hlt, htag, hdrop⟩ := decodeValueTag_encode colID v.typ
    set tag := encodeValueTag colID v.typ
    have hfull := decodeValue_encode v hdata (fun s => ⟨colID, htag s⟩) s
    have hpart := decodeValue_encode v hdata hdrop s
    obtain ⟨col, hcol⟩ := hdrop (data ++ s)
    have hcut : (tag ++ data ++ s).drop off = tag.drop off ++ data ++ s := by
      rw [append_assoc, append_assoc, drop_append_of_le_length hlt.le]
    rw [hstored] at hfull hpart
    rw [length_drop] at hcol hpart
    refine ⟨tag ++ data, map_eq_some_iff.mpr ⟨data, hdata, rfl⟩, off, tag.length, ?_,
      hfull.1, ?_, ⟨col, ?_⟩, ?_, ?_⟩
    · rw [append_assoc]
      exact htag _
    · rw [hfull.2, length_append]
      rfl
    · rw [hcut, append_assoc]
      exact hcol
    · rw [hcut]
      exact hpart.1
    · rw [hcut, hpart.2, length_append]
      push_cast [hlt.le]
      ring_nf

/-- The NaN that negation makes. -/
def negativeNaN : Decimal := specialDecimal .naN true

theorem not_valueRoundTrips_negativeNaN : ¬ ValueRoundTrips 1 (.decimal negativeNaN) [] := by
  intro h
  have hstored := h.stored_eq.2
  rw [Value.stored, Value.decimal.injEq] at hstored
  exact absurd (congrArg Decimal.negative hstored) (by decide)

end RoundTrip

end Cockroach.Encoding
