import Cockroach.Encoding.ValueSide

/-! The numbers and tags of values are read back, also from the byte of the type on. -/
namespace Cockroach.Encoding
open ByteOrder Leb128 List
open UInt64 (le_iff_toNat_le toNat_add toNat_inj toNat_shiftLeft toNat_toUInt8)

theorem toNat_group (b : UInt8) : ((0x80 ||| b) &&& 0x7f).toNat = b.toNat % 128 ∧
    ¬ (0x80 ||| b) < 0x80 := by
  have hall : ∀ i : Fin 256, ((0x80 ||| UInt8.ofBitVec (BitVec.ofFin i)) &&& 0x7f).toNat =
      i.val % 128 ∧ ¬ (0x80 ||| UInt8.ofBitVec (BitVec.ofFin i)) < 0x80 := by decide +kernel
  exact hall b.toBitVec.toFin

theorem toNat_lastGroup (b : UInt8) : ((0x7f &&& b) &&& 0x7f).toNat = b.toNat % 128 ∧
    0x7f &&& b < 0x80 := by
  have hall : ∀ i : Fin 256, ((0x7f &&& UInt8.ofBitVec (BitVec.ofFin i)) &&& 0x7f).toNat =
      i.val % 128 ∧ 0x7f &&& UInt8.ofBitVec (BitVec.ofFin i) < 0x80 := by decide +kernel
  exact hall b.toBitVec.toFin

theorem toNat_shr (x : UInt64) (n : ℕ) : (shr x n).toNat = x.toNat / 2 ^ n := by
  rw [shr, UInt64.toNat, BitVec.toNat_ushiftRight, Nat.shiftRight_eq_div_pow]
  rfl

theorem length_uvarintBytes (x : UInt64) (k : ℕ) : (uvarintBytes x k).length = k + 1 := by
  induction k with
  | zero => rfl
  | succ k ih => rw [uvarintBytes, length_cons, ih]

theorem pow_group (k : ℕ) : 2 ^ (7 * (k + 1)) = 128 * 2 ^ (7 * k) := by
  have hseven : (2 : ℕ) ^ 7 = 128 := rfl
  rw [Nat.mul_succ, Nat.pow_add, Nat.mul_comm]

/-- Groups are appended to the number read so far, modulo 64 bits. -/
theorem decodeUvarintFrom_bytes (x v : UInt64) (k : ℕ) (s : Bytes) :
    ∃ w, decodeUvarintFrom v (uvarintBytes x k ++ s) = some (s, k + 1, w) ∧
      w.toNat = (v.toNat * 2 ^ (7 * k) + x.toNat % 2 ^ (7 * (k + 1))) % 2 ^ 64 := by
  induction k generalizing v with
  | zero =>
    obtain ⟨hgroup, hlt⟩ := toNat_lastGroup x.toUInt8
    refine ⟨v + ((0x7f &&& x.toUInt8) &&& 0x7f).toUInt64, ?_, ?_⟩
    · rw [uvarintBytes, singleton_append, decodeUvarintFrom]
      rw [if_pos hlt]
    · rw [toNat_add, UInt8.toNat_toUInt64, hgroup, toNat_toUInt8]
      omega
  | succ k ih =>
    obtain ⟨hgroup, hge⟩ := toNat_group (shr x (7 * (k + 1))).toUInt8
    set v' := v + ((0x80 ||| (shr x (7 * (k + 1))).toUInt8) &&& 0x7f).toUInt64 with hv'
    obtain ⟨w, hw, hwn⟩ := ih (v' <<< 7)
    refine ⟨w, ?_, ?_⟩
    · rw [uvarintBytes, cons_append, decodeUvarintFrom]
      rw [if_neg hge, hw]
      rfl
    · have hg : v'.toNat = (v.toNat + x.toNat / 2 ^ (7 * (k + 1)) % 128) % 2 ^ 64 := by
        rw [toNat_add, UInt8.toNat_toUInt64, hgroup, toNat_toUInt8, toNat_shr]
        congr 2
        omega
      have hshift : (v' <<< 7).toNat = v'.toNat * 128 % 2 ^ 64 := by
        rw [toNat_shiftLeft, Nat.shiftLeft_eq]
        rfl
      have hsplit : x.toNat % 2 ^ (7 * (k + 1 + 1)) =
          x.toNat / 2 ^ (7 * (k + 1)) % 128 * 2 ^ (7 * (k + 1)) + x.toNat % 2 ^ (7 * (k + 1)) := by
        rw [pow_group (k + 1), Nat.mul_comm 128, Nat.mod_mul]
        ring
      rw [hwn, hshift, hg, hsplit]
      have hcongr : (v.toNat + x.toNat / 2 ^ (7 * (k + 1)) % 128) % 2 ^ 64 * 128 % 2 ^ 64 *
          2 ^ (7 * k) ≡ (v.toNat + x.toNat / 2 ^ (7 * (k + 1)) % 128) * 128 * 2 ^ (7 * k)
          [MOD 2 ^ 64] :=
        (((Nat.mod_modEq _ _).trans ((Nat.mod_modEq _ _).mul_right 128)).mul_right _)
      have hsum := hcongr.add_right (x.toNat % 2 ^ (7 * (k + 1)))
      refine hsum.trans ?_
      rw [pow_group k]
      have hring (a g m : ℕ) : (a + g) * 128 * m = a * (128 * m) + g * (128 * m) := by ring
      rw [hring, Nat.add_assoc]

theorem lt_pow_uvarintGroups (x : UInt64) : x.toNat < 2 ^ (7 * (uvarintGroups x + 1)) := by
  have hx := x.toNat_lt
  unfold uvarintGroups
  split_ifs <;> omega

theorem decodeNonsortingUvarint_encode (x : UInt64) (s : Bytes) :
    decodeNonsortingUvarint (encodeNonsortingUvarint x ++ s) =
      (s, (encodeNonsortingUvarint x).length, x) := by
  rw [encodeNonsortingUvarint, decodeNonsortingUvarint]
  split_ifs with hx
  · have hbyte : x.toUInt8.toNat = x.toNat := by
      rw [toNat_toUInt8]
      omega
    have hlt : x.toUInt8 < 0x80 := by
      rw [UInt8.lt_iff_toNat_lt, hbyte]
      exact hx
    have hvalue : (0 : UInt64) + (x.toUInt8 &&& 0x7f).toUInt64 = x := by
      rw [← toNat_inj, UInt64.zero_add, UInt8.toNat_toUInt64, UInt8.toNat_and, hbyte]
      exact (Nat.and_two_pow_sub_one_eq_mod x.toNat 7).trans (Nat.mod_eq_of_lt hx)
    rw [singleton_append, decodeUvarintFrom]
    rw [if_pos hlt, hvalue]
    rfl
  · obtain ⟨w, hw, hwn⟩ := decodeUvarintFrom_bytes x 0 (uvarintGroups x) s
    have hxw : w = x := by
      rw [← toNat_inj, hwn, Nat.mod_eq_of_lt (lt_pow_uvarintGroups x)]
      have hlt := x.toNat_lt
      rw [UInt64.toNat_zero, Nat.zero_mul]
      omega
    rw [hw, hxw, length_uvarintBytes]
    rfl

theorem encodeNonsortingUvarint_last (x : UInt64) :
    ∃ p b, encodeNonsortingUvarint x = p ++ [b] ∧ b.toNat = x.toNat % 128 := by
  rw [encodeNonsortingUvarint]
  split_ifs with hx
  · refine ⟨[], _, rfl, ?_⟩
    rw [toNat_toUInt8]
    omega
  · have hlast : (0x7f &&& x.toUInt8).toNat = x.toNat % 128 := by
      rw [UInt8.toNat_and, Nat.and_comm, toNat_toUInt8]
      exact (Nat.and_two_pow_sub_one_eq_mod _ 7).trans (by omega)
    have hsuffix (k : ℕ) : ∃ p, uvarintBytes x k = p ++ [0x7f &&& x.toUInt8] := by
      induction k with
      | zero => exact ⟨[], rfl⟩
      | succ k ih =>
        obtain ⟨p, hp⟩ := ih
        exact ⟨_ :: p, by rw [uvarintBytes, hp, cons_append]⟩
    obtain ⟨p, hp⟩ := hsuffix (uvarintGroups x)
    exact ⟨p, _, hp, hlast⟩

theorem decodeNonsortingUvarint_byte {b : UInt8} (hb : b.toNat < 128) (s : Bytes) :
    decodeNonsortingUvarint (b :: s) = (s, 1, b.toUInt64) := by
  have hcode := decodeNonsortingUvarint_encode b.toUInt64 s
  have hlt : b.toUInt64.toNat < 2 ^ 7 := by
    exact hb
  rw [encodeNonsortingUvarint, if_pos hlt, UInt8.toUInt8_toUInt64] at hcode
  exact hcode

/-- A tag of a type, with the offset of the type in it, whatever the column. -/
def IsTag (tag : Bytes) (typ : UInt64) (typeOffset : ℤ) : Prop :=
  ∀ s, ∃ colID, decodeValueTag (tag ++ s) = .ok (typeOffset, tag.length, colID, typ)

theorem toNat_tag (colID : UInt32) {low : UInt64} (hlow : low.toNat < 16) :
    (colID.toUInt64 <<< 4 ||| low).toNat = colID.toNat * 16 + low.toNat := by
  have hcol := colID.toNat_lt
  have hshift : (colID.toUInt64 <<< 4).toNat = 2 ^ 4 * colID.toNat := by
    have hfour : UInt64.toNat 4 % 64 = 4 := rfl
    rw [toNat_shiftLeft, UInt32.toNat_toUInt64, hfour]
    omega
  rw [UInt64.toNat_or, hshift, ← Nat.two_pow_add_eq_or_of_lt hlow]
  omega

theorem column_of_tag (colID : UInt32) {low : UInt64} (hlow : low.toNat < 16) :
    ((colID.toUInt64 <<< 4 ||| low) >>> 4).toUInt32 = colID := by
  have hcol := colID.toNat_lt
  have hfour : UInt64.toNat 4 % 64 = 4 := rfl
  rw [← UInt32.toNat_inj, UInt64.toNat_toUInt32, UInt64.toNat_shiftRight, toNat_tag colID hlow,
    hfour]
  omega

theorem type_of_number {x low : UInt64} (h : x.toNat % 16 = low.toNat) : x &&& 0xf = low := by
  rw [← toNat_inj, ← h]
  exact Nat.and_two_pow_sub_one_eq_mod x.toNat 4

/-- The second number of a tag, which only greater types have. -/
def tagTail (typ : UInt64) : Bytes :=
  if typ ≥ Typ.sentinel then encodeNonsortingUvarint typ else []

/-- The type as far as it fits into the first number. -/
def tagLow (typ : UInt64) : UInt64 := if typ ≥ Typ.sentinel then Typ.sentinel else typ

theorem tagLow_lt (typ : UInt64) : (tagLow typ).toNat < 16 := by
  unfold tagLow
  split_ifs with h
  · decide
  · rw [ge_iff_le, le_iff_toNat_le, not_le] at h
    exact h.trans (by decide)

theorem encodeValueTag_eq (colID : UInt32) (typ : UInt64) : encodeValueTag colID typ =
    encodeNonsortingUvarint (colID.toUInt64 <<< 4 ||| tagLow typ) ++ tagTail typ := by
  unfold encodeValueTag tagLow tagTail
  split_ifs with hbig hcol
  · rfl
  · have htyp : typ.toNat < 2 ^ 7 := by
      rw [ge_iff_le, le_iff_toNat_le, not_le] at hbig
      exact hbig.trans (by decide)
    have htag : noColumnID.toUInt64 <<< 4 ||| typ = typ := by
      have hzero : noColumnID.toUInt64 <<< 4 = 0 := by decide
      rw [hzero, UInt64.zero_or]
    rw [hcol, htag, encodeNonsortingUvarint, if_pos htyp, append_nil]
  · rw [append_nil]

theorem decodeValueTag_append {a s : Bytes} {typ x : UInt64} (ha : a ≠ [])
    (hx : x &&& 0xf = tagLow typ) (hdecode : decodeNonsortingUvarint (a ++ (tagTail typ ++ s)) =
      (tagTail typ ++ s, a.length, x)) : decodeValueTag (a ++ tagTail typ ++ s) =
      .ok ((a.length : ℤ) - 1, (a ++ tagTail typ).length, (x >>> 4).toUInt32, typ) := by
  rw [append_assoc, decodeValueTag, if_neg (by simp [ha]), hdecode]
  dsimp only
  rw [hx]
  unfold tagLow tagTail
  split_ifs with hbig hlow hlow
  · rw [decodeNonsortingUvarint_encode, length_append]
  · exact absurd rfl hlow
  · rw [hlow] at hbig
    exact absurd (by decide) hbig
  · rw [append_nil]

theorem encodeNonsortingUvarint_ne_nil (x : UInt64) : encodeNonsortingUvarint x ≠ [] := by
  obtain ⟨p, b, h, -⟩ := encodeNonsortingUvarint_last x
  rw [h]
  exact append_ne_nil_of_right_ne_nil _ (cons_ne_nil _ _)

theorem decodeValueTag_encode (colID : UInt32) (typ : UInt64) :
    ∃ off : ℕ, off < (encodeValueTag colID typ).length ∧
      (∀ s, decodeValueTag (encodeValueTag colID typ ++ s) =
        .ok (off, (encodeValueTag colID typ).length, colID, typ)) ∧
      IsTag ((encodeValueTag colID typ).drop off) typ 0 := by
  set x := colID.toUInt64 <<< 4 ||| tagLow typ with hx
  have hlow := tagLow_lt typ
  obtain ⟨p, b, hp, hb⟩ := encodeNonsortingUvarint_last x
  have hlength : (encodeNonsortingUvarint x).length = p.length + 1 := by
    rw [hp, length_append, length_singleton]
  refine ⟨p.length, ?_, fun s => ?_, fun s => ?_⟩
  · rw [encodeValueTag_eq, length_append, hlength]
    omega
  · have hnumber : x &&& 0xf = tagLow typ := by
      apply type_of_number
      rw [toNat_tag colID hlow]
      omega
    rw [encodeValueTag_eq,
      decodeValueTag_append (encodeNonsortingUvarint_ne_nil x) hnumber
      (decodeNonsortingUvarint_encode x _), column_of_tag colID hlow, hlength]
    push_cast
    rw [add_sub_cancel_right]
  · have hdrop : (encodeValueTag colID typ).drop p.length = [b] ++ tagTail typ := by
      rw [encodeValueTag_eq, hp, append_assoc, drop_left]
    have hnumber : b.toUInt64 &&& 0xf = tagLow typ := by
      apply type_of_number
      rw [UInt8.toNat_toUInt64, hb, toNat_tag colID hlow]
      omega
    have hdecode := decodeNonsortingUvarint_byte (show b.toNat < 128 by omega) (tagTail typ ++ s)
    refine ⟨(b.toUInt64 >>> 4).toUInt32, ?_⟩
    rw [hdrop, decodeValueTag_append (cons_ne_nil _ _) hnumber hdecode]
    rfl

end Cockroach.Encoding
