import Cockroach.Encoding.KeyValue
import Cockroach.Encoding.PeekSafety

/-! The peeked length of a key encoding, whatever follows it in the buffer. -/
namespace Cockroach.Encoding
open ByteOrder List Option

section Escapes

variable {esc : UInt8} {stop : UInt8 → Bool}

theorem Escaped.append {a b : Bytes} (ha : Escaped esc stop a) (hb : Escaped esc stop b) :
    Escaped esc stop (a ++ b) := by
  induction ha with
  | nil => exact hb
  | plain hx _ ih => exact .plain hx ih
  | pair hy _ ih => exact .pair hy ih

theorem Escaped.complement {stop' : UInt8 → Bool} (hstop : ∀ y, stop' (~~~ y) = stop y) {b : Bytes}
    (h : Escaped esc stop b) : Escaped (~~~ esc) stop' (complement b) := by
  induction h with
  | nil => exact .nil
  | plain hx _ ih =>
    rw [complement_cons]
    exact .plain (fun h => hx (UInt8.not_inj.mp h)) ih
  | pair hy _ ih =>
    rw [complement_cons, complement_cons]
    exact .pair (by rw [hstop, hy]) ih

theorem escaped_flatMap (hstop : stop escaped00 = false) (data : Bytes) :
    Escaped escape stop (data.flatMap escapeByte) := by
  induction data with
  | nil => exact .nil
  | cons x data ih =>
    rw [flatMap_cons, escapeByte]
    split_ifs with hx
    · exact .pair hstop ih
    · exact .plain hx ih

theorem escaped_ascending (data : Bytes) : Escaped ascendingBytesEscapes.escape
    (· = ascendingBytesEscapes.escapedTerm) (data.flatMap escapeByte) :=
  escaped_flatMap (by decide) data

theorem escaped_descending (data : Bytes) : Escaped descendingBytesEscapes.escape
    (· = descendingBytesEscapes.escapedTerm) (complement (data.flatMap escapeByte)) := by
  apply (escaped_ascending data).complement
  intro y
  exact decide_eq_decide.mpr UInt8.not_inj

end Escapes

section Flat

variable {m : UInt8}

theorem peekKind_int (h : 128 ≤ m.toNat) (h' : m.toNat ≤ 253) : peekKind m = .int := by
  have hall : ∀ i : Fin 256, 128 ≤ i.val → i.val ≤ 253 → peekKind ⟨⟨i⟩⟩ = .int := by decide +kernel
  exact hall m.toBitVec.toFin h h'

theorem peekKind_decimal (h : 24 ≤ m.toNat) (h' : m.toNat ≤ 54) (hm : m.toNat ≠ 39) :
    peekKind m = .decimal := by
  have hall : ∀ i : Fin 256, 24 ≤ i.val → i.val ≤ 54 → i.val ≠ 39 →
      peekKind ⟨⟨i⟩⟩ = .decimal := by decide +kernel
  exact hall m.toBitVec.toFin h h' hm

theorem peeks_uvarintAscending (v : UInt64) : Peeks (encodeUvarintAscending v) := by
  obtain ⟨tag, a, heq, hlo, hhi, hlen⟩ := encodeUvarintAscending_tag v
  rw [heq]
  exact peeks_int (peekKind_int (by omega) hhi) ⟨tag, a, rfl, hlen⟩

theorem peeks_uvarintDescending (v : UInt64) : Peeks (encodeUvarintDescending v) := by
  obtain ⟨tag, a, heq, hlo, hhi, hlen⟩ := encodeUvarintDescending_tag v
  rw [heq]
  exact peeks_int (peekKind_int hlo (by omega)) ⟨tag, a, rfl, hlen⟩

theorem peeks_varint (v : Int64) : Peeks (encodeVarintAscending v) := by
  obtain ⟨tag, a, heq, hlo, hhi, hlen⟩ := encodeVarintAscending_tag v
  rw [heq]
  exact peeks_int (peekKind_int hlo hhi) ⟨tag, a, rfl, hlen⟩

theorem varintCode (v : Int64) : VarintCode (encodeVarintAscending v) := by
  obtain ⟨tag, a, heq, -, -, hlen⟩ := encodeVarintAscending_tag v
  exact ⟨tag, a, heq, hlen⟩

theorem peeks_two (h : peekKind m = .varints 2) (v w : Int64) :
    Peeks (m :: (encodeVarintAscending v ++ encodeVarintAscending w)) := by
  have hpeek := @peeks_varints m [encodeVarintAscending v, encodeVarintAscending w] h
    (by simp [varintCode])
  rwa [flatten_cons, flatten_cons, flatten_nil, append_nil] at hpeek

theorem peeks_three (h : peekKind m = .varints 3) (u v w : Int64) :
    Peeks (m :: (encodeVarintAscending u ++ (encodeVarintAscending v ++
      encodeVarintAscending w))) := by
  have hpeek := @peeks_varints m [encodeVarintAscending u, encodeVarintAscending v,
    encodeVarintAscending w] h (by simp [varintCode])
  rwa [flatten_cons, flatten_cons, flatten_cons, flatten_nil, append_nil] at hpeek

theorem peeks_decimal {d : Decimal} {invert : Bool} {code : Bytes}
    (h : encodeDecimal d invert = some code) : Peeks code := by
  have hpeek {m : UInt8} {a s : Bytes} (hlo : 24 ≤ m.toNat) (hhi : m.toNat ≤ 54)
      (hm : m.toNat ≠ 39) (hlen : getDecimalLen (m :: a ++ s) = .ok (m :: a).length) :
      peekLength (m :: a ++ s) = .ok (m :: a).length := by
    rw [cons_append] at hlen ⊢
    rw [peekLength_cons, peekBody, peekKind_decimal hlo hhi hm]
    rw [hlen]
    rfl
  intro s
  rw [encodeDecimal] at h
  by_cases hzero : d.IsZero
  · rw [if_pos hzero] at h
    rw [← some.inj h]
    exact peeks_single (by decide) s
  rw [if_neg hzero] at h
  cases hform : d.form with
  | finite =>
    rw [hform] at h
    have hcoeff : d.coeff ≠ 0 := fun hc => hzero ⟨hform, hc⟩
    have hcode : encodeNonzero (d.negative != invert) d = code := some.inj h
    have hlen := getDecimalLen_encodeNonzero hcoeff (d.negative != invert) s
    obtain ⟨x, a, hxa, hx⟩ := encodeNonzero_head (d.negative != invert) d
    rw [← hcode]
    rw [hxa] at hlen ⊢
    split_ifs at hx
    · exact hpeek (by omega) (by omega) (by omega) hlen
    · exact hpeek (by omega) (by omega) (by omega) hlen
  | infinite | naN =>
    rw [hform] at h
    rw [← some.inj h]
    split_ifs
    · exact hpeek (by decide) (by decide) (by decide) rfl
    · exact hpeek (by decide) (by decide) (by decide) rfl
  | naNSignaling =>
    rw [hform] at h
    cases h

theorem peeks_words {t : UInt8} (h : peekKind m = .bitArray t) {enc : UInt64 → Bytes}
    (henc : ∀ v, ∃ tag a, enc v = tag :: a ∧ tag ≠ t ∧ varintLength tag = a.length + 1)
    (words : List UInt64) (last : UInt64) : Peeks (m :: (words.flatMap enc ++ t :: enc last)) := by
  have hcode (v : UInt64) : VarintCode (enc v) ∧ (enc v).head? ≠ some t := by
    obtain ⟨tag, a, heq, htag, hlen⟩ := henc v
    exact ⟨⟨tag, a, heq, hlen⟩, by simpa [heq] using htag⟩
  refine peeks_bitArray h ?_ (hcode last).1
  intro a ha
  obtain ⟨v, -, rfl⟩ := mem_map.mp ha
  exact hcode v

theorem floatCode_ascending (f : Float64) : FloatCode (encodeFloatAscending f) := by
  unfold encodeFloatAscending
  split_ifs
  · exact .inl ⟨_, rfl, .inl rfl⟩
  · exact .inl ⟨_, rfl, .inr (.inr rfl)⟩
  · exact .inr ⟨_, _, rfl, .inl rfl, length_bigEndian _ _⟩
  · exact .inr ⟨_, _, rfl, .inr rfl, length_bigEndian _ _⟩

theorem floatCode_descending (f : Float64) : FloatCode (encodeFloatDescending f) := by
  unfold encodeFloatDescending
  split_ifs
  · exact .inl ⟨_, rfl, .inr (.inl rfl)⟩
  · exact floatCode_ascending _

variable {a b c d : Bytes}

theorem FloatCode.peeks (h : FloatCode a) : Peeks a := by
  rcases h with ⟨m, rfl, hm⟩ | ⟨m, b, rfl, hm, hb⟩
  · exact peeks_single (by rcases hm with rfl | rfl | rfl <;> decide)
  · exact peeks_float (by rcases hm with rfl | rfl <;> decide) hb

theorem peeks_box (ha : FloatCode a) (hb : FloatCode b) (hc : FloatCode c) (hd : FloatCode d) :
    Peeks (box2DMarker :: (a ++ (b ++ (c ++ d)))) := by
  have hpeek := @peeks_box2D box2DMarker [a, b, c, d] (by decide) (by simp [ha, hb, hc, hd]) rfl
  simpa using hpeek

end Flat

section Values

theorem peeks_bytesAscending (data : Bytes) : Peeks (encodeBytesAscending data) := by
  rw [encodeBytesAscending, encodeBytesAscendingWithTerminatorAndPrefix,
    encodeBytesAscendingWithTerminator, encodeBytesAscendingWithoutTerminatorOrPrefix_eq]
  exact peeks_bytes (by decide) (escaped_ascending data)

theorem complement_withTerminator (data : Bytes) :
    complement (encodeBytesAscendingWithTerminator data escapedTerm) =
      complement (data.flatMap escapeByte) ++ [~~~ escape, ~~~ escapedTerm] := by
  rw [encodeBytesAscendingWithTerminator, encodeBytesAscendingWithoutTerminatorOrPrefix_eq,
    complement_append]
  rfl

theorem peeks_bytesDescending (data : Bytes) : Peeks (encodeBytesDescending data) := by
  have hcode : encodeBytesDescending data =
      bytesDescMarker :: complement (encodeBytesAscendingWithTerminator data escapedTerm) := rfl
  rw [hcode, complement_withTerminator]
  exact peeks_bytes (by decide) (escaped_descending data)

theorem peeks_geoAscending (curveIndex : UInt64) (data : Bytes) :
    Peeks (encodeGeoAscending curveIndex data) := by
  rw [encodeGeoAscending, encodeBytesAscendingWithTerminator,
    encodeBytesAscendingWithoutTerminatorOrPrefix_eq]
  exact peeks_geo (by decide) (length_bigEndian _ _) (escaped_ascending data)

theorem peeks_geoDescending (curveIndex : UInt64) (data : Bytes) :
    Peeks (encodeGeoDescending curveIndex data) := by
  rw [encodeGeoDescending, complement_withTerminator]
  exact peeks_geo (by decide) (length_bigEndian _ _) (escaped_descending data)

theorem peeks_bitArrayAscending (d : BitArray) : Peeks (encodeBitArrayAscending d) := by
  apply peeks_words (by decide)
  intro v
  obtain ⟨tag, a, heq, hlo, -, hlen⟩ := encodeUvarintAscending_tag v
  refine ⟨tag, a, heq, ?_, hlen⟩
  rintro rfl
  exact absurd hlo (by decide)

theorem peeks_bitArrayDescending (d : BitArray) : Peeks (encodeBitArrayDescending d) := by
  apply peeks_words (by decide)
  intro v
  obtain ⟨tag, a, heq, -, hhi, hlen⟩ := encodeUvarintDescending_tag v
  refine ⟨tag, a, heq, ?_, hlen⟩
  rintro rfl
  exact absurd hhi (by decide)

variable {dir : Direction} {code : Bytes}

theorem peeks_datum {t : ColumnType} {d : Datum t} (h : encode [] d dir = some code) :
    Peeks code := by
  cases d with
  | null =>
    rw [← some.inj h]
    cases dir <;> exact peeks_single (by decide)
  | bool | int =>
    rw [← some.inj h]
    cases dir <;> exact peeks_varint _
  | decimal v hv =>
    cases dir
    all_goals
      obtain ⟨a, ha, rfl⟩ := map_eq_some_iff.mp h
      exact peeks_decimal ha
  | string v | bytes v =>
    rw [← some.inj h]
    cases dir with
    | ascending => exact peeks_bytesAscending v
    | descending => exact peeks_bytesDescending v
  | timestamp | timestampTZ | timeTZ =>
    rw [← some.inj h]
    cases dir <;> exact peeks_two (by decide) _ _
  | bitArray v =>
    rw [← some.inj h]
    cases dir with
    | ascending => exact peeks_bitArrayAscending v
    | descending => exact peeks_bitArrayDescending v

theorem peeks_duration {d : Util.Duration}
    (h : KeyValue.encode dir (.duration d) = some code) : Peeks code := by
  cases dir
  all_goals
    obtain ⟨n, -, rfl⟩ := encodeDuration_eq_some h
    exact peeks_three (by decide) _ _ _

theorem FloatCode.notNull {a : Bytes} (h : FloatCode a) : NotNull a := by
  rcases h with ⟨m, rfl, rfl | rfl | rfl⟩ | ⟨m, b, rfl, rfl | rfl, -⟩
  all_goals exact ⟨_, _, rfl, by decide, by decide⟩

theorem KeyValue.notNull_encode {v : KeyValue} (hv : v.isNull = false)
    (h : v.encode dir = some code) : NotNull code := by
  cases v with
  | datum d =>
    have hd : d ≠ .null := by
      rintro rfl
      cases hv
    rw [KeyValue.encode, encode_eq [] d dir, some.injEq] at h
    rw [← h]
    exact Datum.notNull_code d hd dir
  | float f =>
    rw [← some.inj h]
    cases dir with
    | ascending => exact (floatCode_ascending f).notNull
    | descending => exact (floatCode_descending f).notNull
  | duration d =>
    cases dir
    all_goals
      obtain ⟨n, -, rfl⟩ := encodeDuration_eq_some h
      exact ⟨_, _, rfl, by decide, by decide⟩
  | box2D | geo =>
    rw [← some.inj h]
    cases dir <;> exact ⟨_, _, rfl, by decide, by decide⟩
  | void =>
    rw [← some.inj h]
    exact ⟨_, _, rfl, by decide, by decide⟩
  | array elems =>
    obtain ⟨b, -, rfl⟩ := map_eq_some_iff.mp h
    cases dir <;> exact ⟨_, _, rfl, by decide, by decide⟩

theorem ne_arrayTerminator {x : UInt8} (hlo : 0 < x.toNat) (hhi : x.toNat < 255) :
    x ≠ arrayTerminator dir := by
  rintro rfl
  cases dir with
  | ascending => exact absurd hlo (by decide)
  | descending => exact absurd hhi (by decide)

mutual

theorem peeks_value {dir : Direction} (v : KeyValue) {code : Bytes}
    (h : v.encode dir = some code) : Peeks code := by
  cases v with
  | datum d => exact peeks_datum h
  | float f =>
    rw [← some.inj h]
    cases dir with
    | ascending => exact (floatCode_ascending f).peeks
    | descending => exact (floatCode_descending f).peeks
  | duration d => exact peeks_duration h
  | box2D box =>
    rw [← some.inj h]
    cases dir with
    | ascending =>
      exact peeks_box (floatCode_ascending _) (floatCode_ascending _) (floatCode_ascending _)
        (floatCode_ascending _)
    | descending =>
      exact peeks_box (floatCode_descending _) (floatCode_descending _) (floatCode_descending _)
        (floatCode_descending _)
  | geo curveIndex data =>
    rw [← some.inj h]
    cases dir with
    | ascending => exact peeks_geoAscending curveIndex data
    | descending => exact peeks_geoDescending curveIndex data
  | void =>
    rw [← some.inj h]
    exact peeks_single (by decide)
  | array elems =>
    obtain ⟨b, hb, rfl⟩ := map_eq_some_iff.mp h
    obtain ⟨as, has, rfl⟩ := items_elems elems hb
    exact peeks_arrayKey (by cases dir <;> decide) has

theorem items_elems {dir : Direction} (elems : List KeyValue) {b : Bytes}
    (h : KeyValue.encodeElems dir elems = some b) :
    ∃ as, Items Peeks (arrayTerminator dir) as ∧ as.flatten = b := by
  cases elems with
  | nil => exact ⟨[], by simp [Items], some.inj h⟩
  | cons elem elems =>
    obtain ⟨a, ha, h⟩ := bind_eq_some_iff.mp h
    obtain ⟨b, hb, rfl⟩ := map_eq_some_iff.mp h
    have hpeeks : Peeks a ∧ NotNull a := by
      cases hnull : elem.isNull with
      | true =>
        rw [hnull, if_pos rfl, some.injEq] at ha
        rw [← ha]
        cases dir <;> exact ⟨peeks_single (by decide), _, _, rfl, by decide, by decide⟩
      | false =>
        rw [hnull, if_neg Bool.false_ne_true] at ha
        exact ⟨peeks_value elem ha, KeyValue.notNull_encode hnull ha⟩
    obtain ⟨hpeek, x, a', rfl, hlo, hhi⟩ := hpeeks
    obtain ⟨as, has, rfl⟩ := items_elems elems hb
    have hhead : (x :: a').head? ≠ some (arrayTerminator dir) := fun hx =>
      ne_arrayTerminator hlo hhi (some.inj hx)
    exact ⟨_, forall_mem_cons.mpr ⟨⟨hpeek, hhead⟩, has⟩, rfl⟩

end

end Values

/-- What stands behind the path of a JSON key: the mark of an empty array or object, or a value
that starts with neither. -/
def PathEnd (t : Bytes) : Prop :=
  t = [jsonEmptyArray] ∨ t = [jsonEmptyObject] ∨
    Peeks t ∧ ∃ x a, t = x :: a ∧ x ≠ jsonEmptyArray ∧ x ≠ jsonEmptyObject

/-- A path below a prefix and its end. -/
def PathKey (b key : Bytes) : Prop :=
  ∃ p t, Escaped escape pathStop p ∧ PathEnd t ∧ key = b ++ (p ++ escape :: escapedTerm :: t)

theorem PathKey.prepend {b q p key : Bytes} (hp : Escaped escape pathStop p) (hb : b = q ++ p)
    (h : PathKey b key) : PathKey q key := by
  obtain ⟨p', t, hp', ht, rfl⟩ := h
  exact ⟨p ++ p', t, hp.append hp', ht, by rw [hb]; simp⟩

theorem pathKey_leaf {b t : Bytes} (h : PathEnd t) : PathKey b (addJSONPathTerminator b ++ t) :=
  ⟨[], t, .nil, h, by simp [addJSONPathTerminator]⟩

theorem escaped_jsonKeyString (s : Bytes) (isLast : Bool) :
    Escaped escape pathStop (encodeJSONKeyStringAscending s isLast) := by
  have hdata := @escaped_flatMap pathStop (by decide) s
  unfold encodeJSONKeyStringAscending
  split_ifs
  · rw [encodeBytesAscendingWithoutTerminatorOrPrefix_eq]
    exact hdata
  · rw [encodeBytesAscendingWithTerminator, encodeBytesAscendingWithoutTerminatorOrPrefix_eq]
    exact hdata.append (.pair (by decide) .nil)

theorem pathEnd_decimal {d : Decimal} {a : Bytes} (h : encodeDecimalAscending d = some a) :
    PathEnd a := by
  have hform : d.form ≠ .naNSignaling := by
    intro hform
    have hzero : ¬ d.IsZero := fun hz => absurd (hz.1.symm.trans hform) (by decide)
    rw [encodeDecimalAscending, encodeDecimal, if_neg hzero] at h
    rw [hform] at h
    cases h
  obtain ⟨a', ha', hcode⟩ := ascendingCode_encodeDecimalAscending d hform
  obtain rfl : a' = a := some.inj (ha'.symm.trans h)
  obtain ⟨x, r, hxr, hspecial, hfinite, hrank⟩ := hcode.head
  have hx : x.toNat ≤ 53 := by
    by_cases hr : d.rank = 2
    · exact (hfinite hr).2.1.trans (by omega)
    · rw [hspecial hr]
      split_ifs <;> omega
  have hne {m : UInt8} (hm : 53 < m.toNat) : x ≠ m := by
    rintro rfl
    omega
  exact .inr (.inr ⟨peeks_decimal h, x, r, hxr, hne (by decide), hne (by decide)⟩)

mutual

theorem pathKey_keys (j : Json) {b : Bytes} {keys : List Bytes}
    (h : j.encodeInvertedIndexKeys b = some keys) : ∀ key ∈ keys, PathKey b key := by
  match j with
  | .null =>
    rw [← some.inj h, forall_mem_singleton]
    exact pathKey_leaf (.inr (.inr ⟨peeks_single (by decide), _, _, rfl, by decide, by decide⟩))
  | .bool v =>
    rw [← some.inj h, forall_mem_singleton]
    cases v with
    | false | true =>
      exact pathKey_leaf (.inr (.inr ⟨peeks_single (by decide), _, _, rfl, by decide, by decide⟩))
  | .string s =>
    rw [← some.inj h, forall_mem_singleton]
    exact pathKey_leaf (.inr (.inr ⟨peeks_bytesAscending s, _, _, rfl, by decide, by decide⟩))
  | .number d =>
    obtain ⟨a, ha, rfl⟩ := map_eq_some_iff.mp h
    rw [forall_mem_singleton]
    exact pathKey_leaf (pathEnd_decimal ha)
  | .array [] =>
    rw [← some.inj h, forall_mem_singleton]
    exact ⟨[], _, .nil, .inl rfl, rfl⟩
  | .array (j :: js) =>
    intro key hkey
    have harray : Escaped escape pathStop [escape, escapedJSONArray] := .pair (by decide) .nil
    exact (pathKey_elemKeys (j :: js) h key hkey).prepend harray rfl
  | .object [] =>
    rw [← some.inj h, forall_mem_singleton]
    exact ⟨[], _, .nil, .inr (.inl rfl), rfl⟩
  | .object (f :: fs) => exact pathKey_fieldKeys (f :: fs) h

theorem pathKey_elemKeys (js : List Json) {b : Bytes} {keys : List Bytes}
    (h : Json.elemKeys b js = some keys) : ∀ key ∈ keys, PathKey b key := by
  match js with
  | [] =>
    rw [← some.inj h]
    intro key hkey
    cases hkey
  | j :: js =>
    obtain ⟨children, hchildren, h⟩ := bind_eq_some_iff.mp h
    obtain ⟨rest, hrest, rfl⟩ := map_eq_some_iff.mp h
    rw [forall_mem_append]
    exact ⟨pathKey_keys j hchildren, pathKey_elemKeys js hrest⟩

theorem pathKey_fieldKeys (fs : List (Bytes × Json)) {b : Bytes} {keys : List Bytes}
    (h : Json.fieldKeys b fs = some keys) : ∀ key ∈ keys, PathKey b key := by
  match fs with
  | [] =>
    rw [← some.inj h]
    intro key hkey
    cases hkey
  | (k, v) :: fs =>
    obtain ⟨children, hchildren, h⟩ := bind_eq_some_iff.mp h
    obtain ⟨rest, hrest, rfl⟩ := map_eq_some_iff.mp h
    rw [forall_mem_append]
    refine ⟨?_, pathKey_fieldKeys fs hrest⟩
    intro key hkey
    obtain ⟨child, hchild, rfl⟩ := mem_map.mp hkey
    obtain ⟨p, t, hp, ht, rfl⟩ := pathKey_keys v hchildren child hchild
    exact ⟨_, t, (escaped_jsonKeyString k (isEnd v)).append hp, ht, by simp⟩

end

theorem PathKey.peeks {key : Bytes} (h : PathKey [jsonInvertedIndex] key) : Peeks key := by
  obtain ⟨p, t, hp, ht, rfl⟩ := h
  have hk : peekKind jsonInvertedIndex = .json := by decide
  have hpath : Escaped escape pathStop (jsonInvertedIndex :: p) := .plain (by decide) hp
  rcases ht with rfl | rfl | ⟨hpeek, x, a, rfl, hx⟩
  · exact peeks_jsonEmpty hk hpath (by decide) (.inl rfl)
  · exact peeks_jsonEmpty hk hpath (by decide) (.inr rfl)
  · exact peeks_json hk hpath (by decide) (not_or.mpr hx) hpeek

theorem length_geoInvertedBBox (loX loY hiX hiY : Float64) :
    ∃ x a, encodeGeoInvertedBBox loX loY hiX hiY = x :: a ∧
      a.length = if x = geoInvertedTwoFloats then 16 else 32 := by
  unfold encodeGeoInvertedBBox
  split_ifs with hbox
  · exact ⟨_, _, rfl, by simp [encodeUint64Ascending]⟩
  · refine ⟨_, _, rfl, ?_⟩
    rw [if_neg (by decide)]
    simp [encodeUint64Ascending]

theorem peeks_geoInvertedKey (cellID : UInt64) (loX loY hiX hiY : Float64) :
    Peeks (encodeGeoInvertedKey cellID loX loY hiX hiY) := by
  obtain ⟨x, a, hbox, ha⟩ := length_geoInvertedBBox loX loY hiX hiY
  obtain ⟨tag, c, hcell, -, -, hlen⟩ := encodeUvarintAscending_tag cellID
  rw [encodeGeoInvertedKey, hbox]
  exact peeks_geoInverted (by decide) ⟨tag, c, hcell, hlen⟩ ha

theorem KeyEncoding.peeks {code : Bytes} (h : KeyEncoding code) : Peeks code := by
  cases h with
  | value h => exact peeks_value _ h
  | uvarintAscending v => exact peeks_uvarintAscending v
  | uvarintDescending v => exact peeks_uvarintDescending v
  | notNullAscending | notNullDescending | emptyArray => exact peeks_single (by decide)
  | json h hcode => exact (pathKey_keys _ h _ hcode).peeks
  | geoInverted cellID loX loY hiX hiY => exact peeks_geoInvertedKey cellID loX loY hiX hiY

/-- No index out of range, a length within the buffer or an error, and the length of the code
where the buffer starts with one. -/
structure PeekedSafely (b : Bytes) : Prop where
  not_panic : peekLength b ≠ .panic
  bounds : ∀ n, peekLength b = .ok n → 1 ≤ n ∧ n ≤ b.length
  exact_code : ∀ code s, KeyEncoding code → b = code ++ s → peekLength b = .ok code.length

theorem peekedSafely_iff (b : Bytes) : PeekedSafely b ↔ ¬ Overruns b := by
  rw [← outOfBounds_iff_overruns]
  constructor
  · rintro ⟨hpanic, hbounds, -⟩ (h | ⟨n, hn, hlt⟩)
    · exact hpanic h
    · exact absurd (hbounds n hn).2 (by omega)
  · intro h
    rw [OutOfBounds, not_or, not_exists] at h
    constructor
    · exact h.1
    · intro n hn
      have hle : ¬ b.length < n := fun hlt => h.2 n ⟨hn, hlt⟩
      exact ⟨peekLength_pos b n hn, by omega⟩
    · rintro code s hcode rfl
      exact hcode.peeks s

/-- The marker of bytes and an escape byte at the end of the buffer. -/
theorem not_peekedSafely_escape : ¬ PeekedSafely [bytesMarker, escape] := by
  rintro ⟨hpanic, -, -⟩
  exact hpanic (by decide)

/-- A datum of an index key that is not decoded yet. -/
structure EncDatum where
  encoding : Direction
  encoded : Bytes
deriving DecidableEq

inductive EncDatumError where
  | emptyEncodedValue
  | peek (e : PeekError)

def EncDatum.isNull (ed : EncDatum) : Bool := ed.encoded.head?.any fun m =>
  m = encodedNull ∨ m = encodedNullDesc

/-- The first value of a key. An empty one panics. -/
def encDatumFromBuffer (enc : Direction) (buf : Bytes) :
    Outcome EncDatumError (EncDatum × Bytes) :=
  if buf = [] then .error .emptyEncodedValue
  else do
    let encLen ← (peekLength buf).mapError .peek
    let rest ← .sliceFrom buf encLen
    if encLen = 0 then .panic else pure (⟨enc, buf.take encLen⟩, rest)

/-- The values of an index key, what is left of it, and whether a value is NULL. -/
def decodeKeyVals : List Direction → Bytes → Outcome EncDatumError (List EncDatum × Bytes × Bool)
  | [], key => pure ([], key, false)
  | enc :: encs, key => do
    let (val, key) ← encDatumFromBuffer enc key
    let (vals, key, foundNull) ← decodeKeyVals encs key
    pure (val :: vals, key, val.isNull || foundNull)

theorem isNull_encode {v : KeyValue} {dir : Direction} {code : Bytes}
    (h : v.encode dir = some code) : code ≠ [] ∧ EncDatum.isNull ⟨dir, code⟩ = v.isNull := by
  cases hv : v.isNull with
  | false =>
    obtain ⟨x, a, rfl, hlo, hhi⟩ := KeyValue.notNull_encode hv h
    have hne : ¬ (x = encodedNull ∨ x = encodedNullDesc) := by
      rintro (rfl | rfl)
      · exact absurd hlo (by decide)
      · exact absurd hhi (by decide)
    exact ⟨cons_ne_nil _ _, decide_eq_false hne⟩
  | true =>
    cases v with
    | datum d =>
      cases d <;> cases hv
      cases dir <;> obtain rfl := Option.some.inj h <;> exact ⟨cons_ne_nil _ _, by decide⟩
    | _ => cases hv

/-- The columns of an index key are found in it again, whatever follows. -/
theorem decodeKeyVals_encode {row : List (KeyValue × Direction)} {codes : List Bytes}
    (h : Forall₂ (fun v code => v.1.encode v.2 = some code) row codes) (s : Bytes) :
    decodeKeyVals (row.map Prod.snd) (codes.flatten ++ s) =
      .ok (zipWith (fun v code => ⟨v.2, code⟩) row codes, s, row.any fun v => v.1.isNull) := by
  induction h with
  | nil => rfl
  | @cons v code row codes hcode _ ih =>
    obtain ⟨hne, hnull⟩ := isNull_encode hcode
    have hpeek := peeks_value v.1 hcode (codes.flatten ++ s)
    have hdatum : encDatumFromBuffer v.2 (code ++ (codes.flatten ++ s)) =
        .ok (⟨v.2, code⟩, codes.flatten ++ s) := by
      rw [encDatumFromBuffer, if_neg (by simp [hne]), hpeek, Outcome.mapError, Outcome.ok_bind,
        Outcome.sliceFrom_append rfl, Outcome.ok_bind, if_neg (by simpa using hne), take_left]
      rfl
    rw [map_cons, flatten_cons, append_assoc, decodeKeyVals, hdatum, Outcome.ok_bind]
    dsimp only
    rw [ih, Outcome.ok_bind, hnull]
    rfl

/-- An integer and a NULL that sorts last, before the rest of a key. -/
theorem decodeKeyVals_encode_intNull : decodeKeyVals [.ascending, .descending] [0x88, 0xff, 0x88] =
      .ok ([⟨.ascending, [0x88]⟩, ⟨.descending, [0xff]⟩], [0x88], true) := by
  have hrow : Forall₂ (fun v code => v.1.encode v.2 = some code)
      [(KeyValue.datum (.int 0), Direction.ascending), (.datum (t := .int) .null, .descending)]
      [[0x88], [0xff]] := .cons (by decide) (.cons rfl .nil)
  exact decodeKeyVals_encode hrow [0x88]

end Cockroach.Encoding
