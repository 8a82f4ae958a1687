import Cockroach.Library.ByteOrder

/-! Order-preserving variable-length integers of the key encoding. -/
namespace Cockroach.Encoding
open ByteOrder
open UInt8 (ofNat)

/-- Integer tags lie in `[intMin, intMax]`; `intZero` is the tag of zero and `intSmall` the
largest value that fits into the tag itself. -/
def intMin : UInt8 := 0x80
def intMax : UInt8 := 0xfd
def intZero : UInt8 := 136
def intSmall : ℕ := 109

def encodeUvarintAscending (v : UInt64) : Bytes :=
  let n := v.toNat
  if n ≤ intSmall then [intZero + v.toUInt8]
  else if n ≤ 0xff then (intMax - 7) :: bigEndian 1 n
  else if n ≤ 0xffff then (intMax - 6) :: bigEndian 2 n
  else if n ≤ 0xffffff then (intMax - 5) :: bigEndian 3 n
  else if n ≤ 0xffffffff then (intMax - 4) :: bigEndian 4 n
  else if n ≤ 0xffffffffff then (intMax - 3) :: bigEndian 5 n
  else if n ≤ 0xffffffffffff then (intMax - 2) :: bigEndian 6 n
  else if n ≤ 0xffffffffffffff then (intMax - 1) :: bigEndian 7 n
  else intMax :: bigEndian 8 n

def encodeUvarintDescending (v : UInt64) : Bytes :=
  let n := v.toNat
  let m := (~~~ v).toNat
  if n = 0 then [intMin + 8]
  else if n ≤ 0xff then (intMin + 7) :: bigEndian 1 m
  else if n ≤ 0xffff then (intMin + 6) :: bigEndian 2 m
  else if n ≤ 0xffffff then (intMin + 5) :: bigEndian 3 m
  else if n ≤ 0xffffffff then (intMin + 4) :: bigEndian 4 m
  else if n ≤ 0xffffffffff then (intMin + 3) :: bigEndian 5 m
  else if n ≤ 0xffffffffffff then (intMin + 2) :: bigEndian 6 m
  else if n ≤ 0xffffffffffffff then (intMin + 1) :: bigEndian 7 m
  else intMin :: bigEndian 8 m

/-- The rest of the buffer and the decoded value, which is none where bytes are missing or the
length is invalid. A tag below that of zero is not rejected and wraps around. -/
def decodeUvarintAscending : Bytes → Option (Bytes × UInt64)
  | [] => none
  | tag :: b =>
    let length : ℤ := tag.toNat - intZero.toNat
    if length ≤ intSmall then some (b, UInt64.ofInt length)
    else
      let width := (length - intSmall).toNat
      if width > 8 ∨ b.length < width then none
      else some (b.drop width, UInt64.ofNat (ofBigEndian (b.take width)))

/-- Negative values keep the low-order bytes of their two's complement. -/
def encodeVarintAscending (v : Int64) : Bytes :=
  let n := v.toInt
  let m := v.toUInt64.toNat
  if n < 0 then
    if n ≥ -0xff then (intMin + 7) :: bigEndian 1 m
    else if n ≥ -0xffff then (intMin + 6) :: bigEndian 2 m
    else if n ≥ -0xffffff then (intMin + 5) :: bigEndian 3 m
    else if n ≥ -0xffffffff then (intMin + 4) :: bigEndian 4 m
    else if n ≥ -0xffffffffff then (intMin + 3) :: bigEndian 5 m
    else if n ≥ -0xffffffffffff then (intMin + 2) :: bigEndian 6 m
    else if n ≥ -0xffffffffffffff then (intMin + 1) :: bigEndian 7 m
    else intMin :: bigEndian 8 m
  else encodeUvarintAscending v.toUInt64

def encodeVarintDescending (v : Int64) : Bytes := encodeVarintAscending (~~~ v)

/-- The number of payload bytes of a magnitude. -/
def payloadWidth (n : ℕ) : ℕ := Nat.log 256 n + 1

variable {n : ℕ} {u v : UInt64}

theorem payloadWidth_mono {m : ℕ} (h : m ≤ n) : payloadWidth m ≤ payloadWidth n :=
  Nat.succ_le_succ (Nat.log_mono_right h)

theorem lt_pow_payloadWidth (n : ℕ) : n < 256 ^ payloadWidth n :=
  Nat.lt_pow_succ_log_self (by norm_num) n

theorem payloadWidth_eq (w : ℕ) (hl : 256 ^ w ≤ n ∨ w = 0) (hu : n < 256 ^ (w + 1)) :
    payloadWidth n = w + 1 := by
  unfold payloadWidth
  rcases hl with hl | rfl
  · rw [Nat.log_eq_of_pow_le_of_lt_pow hl hu]
  · rw [Nat.log_of_lt (by simpa using hu)]

theorem payloadWidth_le (h : n < 2 ^ 64) : payloadWidth n ≤ 8 := by
  have : Nat.log 256 n < 8 := Nat.log_lt_of_lt_pow' (by norm_num) (by omega)
  unfold payloadWidth
  omega

theorem ite_payloadWidth {α : Type*} (f : ℕ → α) (h : n < 256 ^ 8) :
    (if n ≤ 0xff then f 1 else if n ≤ 0xffff then f 2 else if n ≤ 0xffffff then f 3
      else if n ≤ 0xffffffff then f 4 else if n ≤ 0xffffffffff then f 5
      else if n ≤ 0xffffffffffff then f 6 else if n ≤ 0xffffffffffffff then f 7 else f 8) =
      f (payloadWidth n) := by
  split
  · rw [payloadWidth_eq 0 (by simp) (by omega)]
  split
  · rw [payloadWidth_eq 1 (by omega) (by omega)]
  split
  · rw [payloadWidth_eq 2 (by omega) (by omega)]
  split
  · rw [payloadWidth_eq 3 (by omega) (by omega)]
  split
  · rw [payloadWidth_eq 4 (by omega) (by omega)]
  split
  · rw [payloadWidth_eq 5 (by omega) (by omega)]
  split
  · rw [payloadWidth_eq 6 (by omega) (by omega)]
  · rw [payloadWidth_eq 7 (by omega) (by omega)]

theorem encodeUvarintAscending_eq (v : UInt64) : encodeUvarintAscending v =
      if v.toNat ≤ intSmall then [ofNat (136 + v.toNat)] else ofNat (245 + payloadWidth v.toNat) ::
        bigEndian (payloadWidth v.toNat) v.toNat := by
  unfold encodeUvarintAscending
  dsimp only
  split
  · congr 1
    apply UInt8.toNat_inj.mp
    simp only [intZero, UInt8.toNat_add, UInt64.toNat_toUInt8, UInt8.toNat_ofNat']
    simp
  · exact ite_payloadWidth (fun w => ofNat (245 + w) :: bigEndian w v.toNat) v.toNat_lt

theorem encodeUvarintDescending_eq (v : UInt64) : encodeUvarintDescending v =
      if v.toNat = 0 then [136] else ofNat (136 - payloadWidth v.toNat) ::
        bigEndian (payloadWidth v.toNat) (2 ^ 64 - 1 - v.toNat) := by
  have hm : (~~~ v).toNat = 2 ^ 64 - 1 - v.toNat := by simp [UInt64.toNat_not]
  unfold encodeUvarintDescending
  dsimp only
  rw [hm]
  split
  · rfl
  · exact ite_payloadWidth
      (fun w => ofNat (136 - w) :: bigEndian w (2 ^ 64 - 1 - v.toNat)) v.toNat_lt

theorem toNat_toUInt64 (v : Int64) :
    (v.toUInt64.toNat : ℤ) = if v.toInt < 0 then v.toInt + 2 ^ 64 else v.toInt := by
  have hv := v.toUInt64.toNat_lt
  have hi : v.toInt = if 2 * v.toUInt64.toNat < 2 ^ 64 then (v.toUInt64.toNat : ℤ)
      else (v.toUInt64.toNat : ℤ) - 2 ^ 64 := BitVec.toInt_eq_toNat_cond v.toBitVec
  split_ifs at hi ⊢ <;> omega

/-- A negative value of magnitude `k` is stored as its two's complement `2 ^ 64 - k`. -/
theorem encodeVarintAscending_eq (v : Int64) : encodeVarintAscending v =
      if v.toInt < 0 then ofNat (136 - payloadWidth v.toInt.natAbs) ::
        bigEndian (payloadWidth v.toInt.natAbs) (2 ^ 64 - v.toInt.natAbs)
      else encodeUvarintAscending v.toUInt64 := by
  have hl := v.le_toInt
  unfold encodeVarintAscending
  by_cases hn : v.toInt < 0
  · have hm : v.toUInt64.toNat = 2 ^ 64 - v.toInt.natAbs := by
      have h := toNat_toUInt64 v
      omega
    have hge (k : ℕ) : v.toInt ≥ -k ↔ v.toInt.natAbs ≤ k := by omega
    rw [if_pos hn, if_pos hn, hm,
      ← ite_payloadWidth (fun w => ofNat (136 - w) :: bigEndian w (2 ^ 64 - v.toInt.natAbs))
        (by omega)]
    simp only [← hge]
    rfl
  · rw [if_neg hn, if_neg hn]

theorem sub_mod_pow {k w : ℕ} (hw : w ≤ 8) (hk : 0 < k) (hkw : k ≤ 256 ^ w) :
    (2 ^ 64 - k) % 256 ^ w = 256 ^ w - k := by
  have hpow : (2 : ℕ) ^ 64 = 256 ^ w * 256 ^ (8 - w) := by
    rw [← pow_add, show w + (8 - w) = 8 by omega]
    norm_num
  have hone : 1 ≤ 256 ^ (8 - w) := Nat.one_le_pow _ _ (by norm_num)
  have hsplit : 256 ^ w * 256 ^ (8 - w) - k = 256 ^ w - k + 256 ^ w * (256 ^ (8 - w) - 1) := by
    rw [Nat.mul_sub_one]
    have : 256 ^ w ≤ 256 ^ w * 256 ^ (8 - w) := Nat.le_mul_of_pos_right _ hone
    omega
  rw [hpow, hsplit, Nat.add_mul_mod_self_left, Nat.mod_eq_of_lt (by omega)]

theorem toNat_ofNat_of_le (h : n ≤ 255) : (ofNat n).toNat = n := by
  rw [UInt8.toNat_ofNat', Nat.mod_eq_of_lt (by omega)]

theorem one_le_payloadWidth (n : ℕ) : 1 ≤ payloadWidth n := Nat.le_add_left _ _

theorem diffLt_encodeUvarintAscending (h : u.toNat < v.toNat) :
    DiffLt (encodeUvarintAscending u) (encodeUvarintAscending v) := by
  have hmono := payloadWidth_mono h.le
  have hwv := payloadWidth_le v.toNat_lt
  have hpv := one_le_payloadWidth v.toNat
  rw [encodeUvarintAscending_eq, encodeUvarintAscending_eq]
  unfold intSmall
  split_ifs with hsu hsv
  · left
    rw [toNat_ofNat_of_le (by omega), toNat_ofNat_of_le (by omega)]
    omega
  · left
    rw [toNat_ofNat_of_le (by omega), toNat_ofNat_of_le (by omega)]
    omega
  · omega
  · apply diffLt_tagged
    rw [toNat_ofNat_of_le (by omega), toNat_ofNat_of_le (by omega)]
    rcases hmono.lt_or_eq with hlt | heq
    · exact .inl (by omega)
    · refine .inr ⟨by rw [heq], heq, ?_⟩
      have hv := lt_pow_payloadWidth v.toNat
      rw [Nat.mod_eq_of_lt (lt_pow_payloadWidth _), Nat.mod_eq_of_lt (heq ▸ hv)]
      exact h

theorem diffLt_encodeUvarintDescending (h : u.toNat < v.toNat) :
    DiffLt (encodeUvarintDescending v) (encodeUvarintDescending u) := by
  have hmono := payloadWidth_mono h.le
  have hwv := payloadWidth_le v.toNat_lt
  have hpv := one_le_payloadWidth v.toNat
  have hv0 : v.toNat ≠ 0 := by omega
  rw [encodeUvarintDescending_eq, encodeUvarintDescending_eq, if_neg hv0]
  split_ifs with hu
  · left
    rw [toNat_ofNat_of_le (by omega), show (136 : UInt8).toNat = 136 from rfl]
    omega
  · apply diffLt_tagged
    rw [toNat_ofNat_of_le (by omega), toNat_ofNat_of_le (by omega)]
    rcases hmono.lt_or_eq with hlt | heq
    · exact .inl (by omega)
    · refine .inr ⟨by rw [heq], heq.symm, ?_⟩
      have hvw := lt_pow_payloadWidth v.toNat
      rw [Nat.sub_sub, Nat.sub_sub, sub_mod_pow hwv (by omega) (by omega),
        sub_mod_pow hwv (by omega) (by omega)]
      omega

/-- The length that a tag says. -/
def varintLength (tag : UInt8) : ℕ :=
  if tag.toNat < 136 then 137 - tag.toNat else if tag.toNat ≤ 245 then 1 else tag.toNat - 244

/-- The first byte says the length; that of an unsigned varint lies between `intZero` and
`intMax`. -/
theorem encodeUvarintAscending_tag (v : UInt64) : ∃ tag a, encodeUvarintAscending v = tag :: a ∧
    136 ≤ tag.toNat ∧ tag.toNat ≤ 253 ∧ varintLength tag = a.length + 1 := by
  have hw := payloadWidth_le v.toNat_lt
  have hw' := one_le_payloadWidth v.toNat
  rw [encodeUvarintAscending_eq]
  have hsmall : intSmall = 109 := rfl
  split_ifs with hv
  · have htag : (ofNat (136 + v.toNat)).toNat = 136 + v.toNat := toNat_ofNat_of_le (by omega)
    refine ⟨_, _, rfl, by omega, by omega, ?_⟩
    rw [varintLength, if_neg (by omega), if_pos (by omega)]
    rfl
  · have htag : (ofNat (245 + payloadWidth v.toNat)).toNat = 245 + payloadWidth v.toNat :=
      toNat_ofNat_of_le (by omega)
    refine ⟨_, _, rfl, by omega, by omega, ?_⟩
    rw [varintLength, if_neg (by omega), if_neg (by omega), length_bigEndian]
    omega

theorem encodeUvarintDescending_tag (v : UInt64) : ∃ tag a, encodeUvarintDescending v = tag :: a ∧
    128 ≤ tag.toNat ∧ tag.toNat ≤ 136 ∧ varintLength tag = a.length + 1 := by
  have hw := payloadWidth_le v.toNat_lt
  have hw' := one_le_payloadWidth v.toNat
  rw [encodeUvarintDescending_eq]
  split_ifs with hv
  · exact ⟨_, _, rfl, by decide, by decide, by decide⟩
  · have htag : (ofNat (136 - payloadWidth v.toNat)).toNat = 136 - payloadWidth v.toNat :=
      toNat_ofNat_of_le (by omega)
    refine ⟨_, _, rfl, by omega, by omega, ?_⟩
    rw [varintLength, if_pos (by omega), length_bigEndian]
    omega

theorem encodeVarintAscending_tag (v : Int64) : ∃ tag a, encodeVarintAscending v = tag :: a ∧
    128 ≤ tag.toNat ∧ tag.toNat ≤ 253 ∧ varintLength tag = a.length + 1 := by
  rw [encodeVarintAscending_eq]
  split_ifs with hv
  · have hle := v.le_toInt
    have hw : payloadWidth v.toInt.natAbs ≤ 8 := payloadWidth_le (by omega)
    have hw' := one_le_payloadWidth v.toInt.natAbs
    have htag : (ofNat (136 - payloadWidth v.toInt.natAbs)).toNat =
        136 - payloadWidth v.toInt.natAbs := toNat_ofNat_of_le (by omega)
    refine ⟨_, _, rfl, by omega, by omega, ?_⟩
    rw [varintLength, if_pos (by omega), length_bigEndian]
    omega
  · obtain ⟨tag, a, heq, hlo, hhi, hlen⟩ := encodeUvarintAscending_tag v.toUInt64
    exact ⟨tag, a, heq, by omega, hhi, hlen⟩

theorem diffLt_encodeVarintAscending {u v : Int64} (h : u.toInt < v.toInt) :
    DiffLt (encodeVarintAscending u) (encodeVarintAscending v) := by
  have hu := u.le_toInt
  have hwu : payloadWidth u.toInt.natAbs ≤ 8 :=
    payloadWidth_le (by have := u.toInt_lt; omega)
  have hpu := one_le_payloadWidth u.toInt.natAbs
  rw [encodeVarintAscending_eq, encodeVarintAscending_eq]
  split_ifs with hnu hnv hnv
  · -- Both values are negative: the smaller one has the larger magnitude.
    have hmono : payloadWidth v.toInt.natAbs ≤ payloadWidth u.toInt.natAbs :=
      payloadWidth_mono (by omega)
    apply diffLt_tagged
    rw [toNat_ofNat_of_le (by omega), toNat_ofNat_of_le (by omega)]
    rcases hmono.lt_or_eq with hlt | heq
    · exact .inl (by omega)
    · refine .inr ⟨by rw [heq], heq.symm, ?_⟩
      have hku := lt_pow_payloadWidth u.toInt.natAbs
      have hkv := heq ▸ lt_pow_payloadWidth v.toInt.natAbs
      rw [sub_mod_pow hwu (by omega) hku.le, sub_mod_pow hwu (by omega) hkv.le]
      omega
  · obtain ⟨x, s, hx, hle, -, -⟩ := encodeUvarintAscending_tag v.toUInt64
    rw [hx]
    left
    rw [toNat_ofNat_of_le (by omega)]
    omega
  · omega
  · have hun := toNat_toUInt64 u
    have hvn := toNat_toUInt64 v
    exact diffLt_encodeUvarintAscending (by omega)

theorem sortsAs_encodeUvarintAscending (u v : UInt64) :
    SortsAs (compare u.toNat v.toNat) (encodeUvarintAscending u) (encodeUvarintAscending v) :=
  sortsAs_of_diffLt UInt64.toNat (fun _ _ => diffLt_encodeUvarintAscending)
    (fun _ _ h => by rw [UInt64.toNat_inj.mp h]) u v

theorem sortsAs_encodeUvarintDescending (u v : UInt64) :
    SortsAs (compare u.toNat v.toNat).swap (encodeUvarintDescending u)
      (encodeUvarintDescending v) := by
  rw [Nat.compare_swap]
  exact (sortsAs_of_diffLt (fun u : UInt64 => OrderDual.toDual u.toNat)
    (fun _ _ => diffLt_encodeUvarintDescending)
    (fun _ _ h => by rw [UInt64.toNat_inj.mp h]) u v)

theorem sortsAs_encodeVarintAscending (u v : Int64) :
    SortsAs (compare u.toInt v.toInt) (encodeVarintAscending u) (encodeVarintAscending v) :=
  sortsAs_of_diffLt Int64.toInt (fun _ _ => diffLt_encodeVarintAscending)
    (fun _ _ h => by rw [Int64.toInt_inj.mp h]) u v

theorem toInt_complement (v : Int64) : (~~~ v).toInt = -v.toInt - 1 := by
  have hl := v.le_toInt
  have hu := v.toInt_lt
  rw [Int64.toInt_not, Int.bmod_eq_of_le (by omega) (by omega)]

theorem compare_neg_sub_one (m n : ℤ) : compare (-m - 1) (-n - 1) = (compare m n).swap := by
  have hanti : StrictAnti fun k : ℤ => -k - 1 := fun a b hab => by dsimp only; omega
  rw [← cmp_eq_compare, ← cmp_eq_compare, cmp_swap]
  exact hanti.cmp_map_eq m n

theorem sortsAs_encodeVarintDescending (u v : Int64) :
    SortsAs (compare u.toInt v.toInt).swap (encodeVarintDescending u)
      (encodeVarintDescending v) := by
  have h := sortsAs_encodeVarintAscending (~~~ u) (~~~ v)
  rwa [toInt_complement, toInt_complement, compare_neg_sub_one] at h

end Cockroach.Encoding
