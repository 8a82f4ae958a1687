import Cockroach.Encoding.PeekLength

/-! The values of a key by their bytes. Where a buffer starts with one, its length is peeked. -/
namespace Cockroach.Encoding
open ByteOrder List
open Outcome (ensures_bind ensures_error ensures_ok ensures_panic index_of_drop ok ok_bind pure_eq
  sliceFrom sliceFrom_append sliceFrom_cons_one sliceFrom_eq_ok)

/-- Plain bytes and pairs that do not stop. -/
inductive Escaped (esc : UInt8) (stop : UInt8 → Bool) : Bytes → Prop where
  | nil : Escaped esc stop []
  | plain {x : UInt8} {b : Bytes} (hx : x ≠ esc) (h : Escaped esc stop b) :
      Escaped esc stop (x :: b)
  | pair {y : UInt8} {b : Bytes} (hy : stop y = false) (h : Escaped esc stop b) :
      Escaped esc stop (esc :: y :: b)

/-- A varint has the length that its first byte says. -/
def VarintCode (a : Bytes) : Prop := ∃ x b, a = x :: b ∧ varintLength x = b.length + 1

/-- A float is its tag alone or has eight bytes behind it. -/
def FloatCode (a : Bytes) : Prop :=
  (∃ m, a = [m] ∧ (m = floatNaN ∨ m = floatNaNDesc ∨ m = floatZero)) ∨
  ∃ m b, a = m :: b ∧ (m = floatNeg ∨ m = floatPos) ∧ b.length = 8

/-- The decimals that are a tag alone. -/
abbrev LoneDecimal (m : UInt8) : Prop :=
  m = decimalNaN ∨ m = decimalNegativeInfinity ∨ m = decimalNaNDesc ∨ m = decimalInfinity ∨
    m = decimalZero

/-- The decimals whose exponent stands behind the tag. -/
abbrev LongDecimal (m : UInt8) : Prop :=
  m = decimalNegLarge ∨ m = decimalNegSmall ∨ m = decimalPosLarge ∨ m = decimalPosSmall

/-- The bytes that stop the path of a JSON key. -/
def pathStop (v : UInt8) : Bool := v = escapedTerm ∨ v = jsonEmptyObject ∨ v = jsonEmptyArray

/-- Codes none of which starts with the terminator. -/
def Items (P : Bytes → Prop) (t : UInt8) (as : List Bytes) : Prop :=
  ∀ a ∈ as, P a ∧ a.head? ≠ some t

/-- The bytes of one whole value, by the kind of its tag. -/
inductive Complete : Bytes → Prop where
  | single {m : UInt8} (hm : peekKind m = .single) : Complete [m]
  | bytes {m : UInt8} {e : Escapes} {p : Bytes} (hm : peekKind m = .bytes e)
      (hp : Escaped e.escape (· = e.escapedTerm) p) :
      Complete (m :: (p ++ [e.escape, e.escapedTerm]))
  | geo {m : UInt8} {e : Escapes} {a p : Bytes} (hm : peekKind m = .geo e) (ha : a.length = 8)
      (hp : Escaped e.escape (· = e.escapedTerm) p) :
      Complete (m :: (a ++ (p ++ [e.escape, e.escapedTerm])))
  | loneDecimal {m : UInt8} (hm : peekKind m = .decimal) (h : LoneDecimal m) : Complete [m]
  | decimal {m : UInt8} {c d : Bytes} (hm : peekKind m = .decimal) (h : ¬ LoneDecimal m)
      (hc : if LongDecimal m then VarintCode c else c = []) (hd : decimalTerminator ∉ d) :
      Complete (m :: (c ++ (d ++ [decimalTerminator])))
  | bitArray {m t : UInt8} {ws : List Bytes} {c : Bytes} (hm : peekKind m = .bitArray t)
      (hw : Items VarintCode t ws) (hc : VarintCode c) : Complete (m :: (ws.flatten ++ t :: c))
  | box2D {m : UInt8} {as : List Bytes} (hm : peekKind m = .box2D) (h : ∀ a ∈ as, FloatCode a)
      (hn : as.length = 4) : Complete (m :: as.flatten)
  | geoInverted {m x : UInt8} {c a : Bytes} (hm : peekKind m = .geoInverted) (hc : VarintCode c)
      (ha : a.length = if x = geoInvertedTwoFloats then 16 else 32) : Complete (m :: (c ++ x :: a))
  | varints {m : UInt8} {as : List Bytes} (hm : peekKind m = .varints as.length)
      (h : ∀ a ∈ as, VarintCode a) : Complete (m :: as.flatten)
  | float {m : UInt8} {a : Bytes} (hm : peekKind m = .float) (ha : a.length = 8) :
      Complete (m :: a)
  | int {m : UInt8} {a : Bytes} (hm : peekKind m = .int) (ha : VarintCode (m :: a)) :
      Complete (m :: a)
  | arrayKey {m : UInt8} {dir : Direction} {as : List Bytes} (hm : peekKind m = .arrayKey dir)
      (h : ∀ a ∈ as, Complete a) (ht : ∀ a ∈ as, a.head? ≠ some (arrayTerminator dir)) :
      Complete (m :: (as.flatten ++ [arrayTerminator dir]))
  | jsonEmpty {m y x : UInt8} {p : Bytes} (hm : peekKind m = .json)
      (hp : Escaped escape pathStop (m :: p)) (hy : pathStop y = true)
      (hx : x = jsonEmptyArray ∨ x = jsonEmptyObject) : Complete (m :: (p ++ [escape, y, x]))
  | json {m y x : UInt8} {p a : Bytes} (hm : peekKind m = .json)
      (hp : Escaped escape pathStop (m :: p)) (hy : pathStop y = true)
      (hx : ¬ (x = jsonEmptyArray ∨ x = jsonEmptyObject)) (h : Complete (x :: a)) :
      Complete (m :: (p ++ escape :: y :: x :: a))

/-- The length of the code is found with anything behind it. -/
def Finds (itemLen : Bytes → Peek ℕ) (code : Bytes) : Prop :=
  ∀ s, itemLen (code ++ s) = .ok code.length

abbrev Peeks : Bytes → Prop := Finds peekLength

section Positive

variable {b : Bytes} {m : UInt8} {r : Bytes}

theorem ofCode_getVarintLen_pos (b : Bytes) : (Peek.ofCode (getVarintLen b)).Ensures (0 < ·) := by
  cases b with
  | nil => exact ensures_panic
  | cons x r =>
    rw [getVarintLen_cons]
    split_ifs
    · exact ensures_ok.mpr (varintLength_pos x)
    · exact ensures_error

theorem Peek.ensures_ofCode {α : Type} {x : Outcome CodeError α} {p : α → Prop}
    (h : x.Ensures p) : (Peek.ofCode x).Ensures p := by
  cases x with
  | ok a => exact ensures_ok.mpr (ensures_ok.mp h)
  | error e => exact ensures_error
  | panic => exact ensures_panic

theorem getDecimalLen_pos : (getDecimalLen (m :: r)).Ensures (0 < ·) := by
  have hend (p : ℕ) : (decimalEnd (m :: r) p).Ensures (0 < ·) :=
    ensures_bind fun _ => ensures_bind fun _ => by simp
  rw [getDecimalLen_cons]
  split_ifs
  · simp
  · simp
  · exact ensures_bind fun _ => hend _
  · exact hend 1

theorem getBytesLength_pos {e : Escapes} : (getBytesLength b e).Ensures (0 < ·) :=
  ensures_bind fun _ => ensures_bind fun _ => by simp

theorem peekLength_pos (b : Bytes) : (peekLength b).Ensures (0 < ·) := by
  cases b with
  | nil => exact ensures_error
  | cons m r =>
    rw [peekLength_cons, peekBody]
    cases peekKind m with
    | single => simp
    | bitArray t =>
      exact ensures_bind fun _ => ensures_bind fun _ =>
        ensures_bind fun _ => by simp
    | arrayKey | box2D => exact ensures_bind fun _ => by simp
    | bytes e => exact getBytesLength_pos
    | geoInverted =>
      dsimp only
      rw [getGeoInvertedIndexKeyLength]
      split_ifs
      · exact ensures_error
      · exact ensures_bind fun _ => ensures_bind fun _ =>
          ensures_bind fun _ => by simp
    | geo e =>
      dsimp only
      split_ifs
      · exact ensures_error
      · exact ensures_bind fun _ => ensures_bind fun _ => by simp
    | json =>
      refine Outcome.Ensures.bind (fun len hlen => two_le_of_scanEscapes hlen) fun len hlen =>
        ensures_bind fun x => ?_
      split_ifs
      · exact ensures_ok.mpr (Nat.succ_pos len)
      · exact ensures_bind fun _ => ensures_bind fun _ => by simp; omega
    | varints num => exact ensures_bind fun _ => ensures_bind fun _ => by simp
    | float =>
      split_ifs <;> simp
    | int => exact ofCode_getVarintLen_pos _
    | decimal => exact Peek.ensures_ofCode getDecimalLen_pos
    | unknown => exact ensures_error

end Positive

section Parts

variable {err : PeekError} {esc : UInt8} {stop : UInt8 → Bool} {p s : Bytes}

theorem scanEscapes_cons_of_ne {x : UInt8} {r : Bytes} (hx : x ≠ esc) (hr : r ≠ []) :
    scanEscapes err esc stop (x :: r) = (scanEscapes err esc stop r >>= fun n => pure (n + 1)) := by
  cases r with
  | nil => exact absurd rfl hr
  | cons y r => rw [scanEscapes, if_neg hx]

theorem scanEscapes_escaped (h : Escaped esc stop p) (hs : s ≠ []) :
    scanEscapes err esc stop (p ++ s) =
      (scanEscapes err esc stop s >>= fun n => pure (p.length + n)) := by
  induction h with
  | nil =>
    rw [nil_append]
    cases scanEscapes err esc stop s with
    | ok n => exact congrArg ok (Nat.zero_add n).symm
    | error | panic => rfl
  | plain hx _ ih =>
    rw [cons_append, scanEscapes_cons_of_ne hx (by simp [hs]), ih]
    cases scanEscapes err esc stop s with
    | ok n => exact congrArg ok (by rw [length_cons]; omega)
    | error | panic => rfl
  | pair hy _ ih =>
    rw [cons_append, cons_append, scanEscapes, if_pos rfl, if_neg (by simp [hy]), ih]
    cases scanEscapes err esc stop s with
    | ok n => exact congrArg ok (by rw [length_cons, length_cons]; omega)
    | error | panic => rfl

theorem scanEscapes_stop (h : Escaped esc stop p) {y : UInt8} (hy : stop y = true) (s : Bytes) :
    scanEscapes err esc stop (p ++ esc :: y :: s) = .ok (p.length + 2) := by
  rw [scanEscapes_escaped h (cons_ne_nil _ _), scanEscapes, if_pos rfl, if_pos hy]
  rfl

theorem getBytesLength_escaped {e : Escapes} (h : Escaped e.escape (· = e.escapedTerm) p)
    (m : UInt8) (s : Bytes) :
    getBytesLength (m :: (p ++ e.escape :: e.escapedTerm :: s)) e = .ok (p.length + 3) := by
  rw [getBytesLength, sliceFrom_cons_one, ok_bind, scanEscapes_stop h (decide_eq_true rfl),
    ok_bind, pure_eq, ok.injEq]
  omega

theorem VarintCode.getVarintLen {a : Bytes} (h : VarintCode a) (s : Bytes) :
    getVarintLen (a ++ s) = .ok a.length := by
  obtain ⟨x, b, rfl, hlen⟩ := h
  exact getVarintLen_append hlen s

theorem VarintCode.finds {a : Bytes} (h : VarintCode a) :
    Finds (fun b => .ofCode (Encoding.getVarintLen b)) a :=
  fun s => congrArg Peek.ofCode (h.getVarintLen s)

theorem multiVarintLen_flatten {as : List Bytes} (h : ∀ a ∈ as, VarintCode a) (s : Bytes) :
    multiVarintLen as.length (as.flatten ++ s) = .ok as.flatten.length := by
  induction as with
  | nil => rfl
  | cons a as ih =>
    rw [forall_mem_cons] at h
    have hlen := h.1.getVarintLen (as.flatten ++ s)
    obtain ⟨x, b, rfl, -⟩ := h.1
    rw [flatten_cons, append_assoc, length_cons, cons_append, multiVarintLen, ← cons_append, hlen,
      Peek.ofCode, ok_bind, sliceFrom_append rfl, ok_bind, ih h.2, length_append]
    rfl

theorem FloatCode.box2DFloatsLength {a : Bytes} (h : FloatCode a) (num : ℕ) (s : Bytes) :
    box2DFloatsLength (num + 1) (a ++ s) =
      (Encoding.box2DFloatsLength num s >>= fun n => pure (n + a.length)) := by
  rcases h with ⟨m, rfl, hm⟩ | ⟨m, b, rfl, hm, hb⟩
  · rw [singleton_append, Encoding.box2DFloatsLength, if_pos hm]
    rfl
  · have hslice : (sliceFrom (m :: (b ++ s)) 9 : Peek Bytes) = .ok s := by
      rw [← cons_append, sliceFrom_append (by rw [length_cons, hb])]
    have hm' : ¬ (m = floatNaN ∨ m = floatNaNDesc ∨ m = floatZero) := by
      rcases hm with rfl | rfl <;> decide
    rw [cons_append, Encoding.box2DFloatsLength, if_neg hm', if_pos hm, hslice,
      ok_bind, length_cons, hb]

theorem box2DFloatsLength_flatten {as : List Bytes} (h : ∀ a ∈ as, FloatCode a) (num : ℕ)
    (s : Bytes) : box2DFloatsLength (as.length + num) (as.flatten ++ s) =
      (box2DFloatsLength num s >>= fun n => pure (n + as.flatten.length)) := by
  induction as with
  | nil =>
    rw [length_nil, Nat.zero_add, flatten_nil, nil_append]
    cases box2DFloatsLength num s <;> rfl
  | cons a as ih =>
    rw [forall_mem_cons] at h
    rw [length_cons, Nat.succ_add, flatten_cons, append_assoc, h.1.box2DFloatsLength, ih h.2]
    cases box2DFloatsLength num s with
    | ok n => exact congrArg ok (by rw [length_append]; omega)
    | error | panic => rfl

theorem skipAll_items {itemLen : Bytes → Peek ℕ} (hpos : ∀ b k, itemLen b = .ok k → 0 < k)
    {t : UInt8} {as : List Bytes} (h : Items (Finds itemLen) t as) (s : Bytes) :
    skipAll err itemLen t (as.flatten ++ s) = (skipAll err itemLen t s >>= fun (num, sz) =>
      pure (num + as.length, as.flatten.length + sz)) := by
  induction as with
  | nil =>
    rw [flatten_nil, nil_append]
    rcases skipAll err itemLen t s with ⟨num, sz⟩ | e | _
    · exact congrArg ok (congrArg (num, ·) (Nat.zero_add sz).symm)
    · rfl
    · rfl
  | cons a as ih =>
    obtain ⟨⟨hfinds, ht⟩, has⟩ := forall_mem_cons.mp h
    have hlen := hfinds (as.flatten ++ s)
    cases a with
    | nil => exact absurd (hpos _ _ hlen) (Nat.lt_irrefl 0)
    | cons x a =>
      have hx : x ≠ t := fun hx => ht (congrArg some hx)
      rw [flatten_cons, append_assoc, cons_append, skipAll_cons hpos, if_neg hx, ← cons_append,
        hlen, ok_bind, sliceFrom_append rfl, ok_bind, ih has]
      rcases skipAll err itemLen t s with ⟨num, sz⟩ | e | _
      · refine congrArg ok (Prod.ext rfl ?_)
        simp only [length_append]
        omega
      · rfl
      · rfl

theorem skipAll_terminated {itemLen : Bytes → Peek ℕ} (hpos : ∀ b k, itemLen b = .ok k → 0 < k)
    {t : UInt8} {as : List Bytes} (h : Items (Finds itemLen) t as) (s : Bytes) :
    skipAll err itemLen t (as.flatten ++ t :: s) = .ok (as.length, as.flatten.length) := by
  rw [skipAll_items hpos h, skipAll_cons hpos, if_pos rfl]
  exact congrArg (fun n => ok (n, as.flatten.length)) (Nat.zero_add _)

theorem decimalEnd_append {a d : Bytes} (hd : decimalTerminator ∉ d) (s : Bytes) :
    decimalEnd (a ++ (d ++ decimalTerminator :: s)) a.length = .ok (a.length + d.length + 1) := by
  rw [decimalEnd, sliceFrom_append rfl, ok_bind, findDecimalTerminator, idxOf?_append_cons hd]
  rfl

end Parts

section Peeks

variable {m : UInt8} {a p : Bytes} {as : List Bytes}

theorem peeks_single (h : peekKind m = .single) : Peeks [m] := by
  intro s
  rw [singleton_append, peekLength_cons, peekBody, h]
  rfl

theorem peeks_int (h : peekKind m = .int) (ha : VarintCode (m :: a)) : Peeks (m :: a) := by
  intro s
  have hcode := ha.finds s
  rw [cons_append] at hcode ⊢
  rw [peekLength_cons, peekBody, h]
  exact hcode

theorem peeks_varints (hm : peekKind m = .varints as.length) (h : ∀ a ∈ as, VarintCode a) :
    Peeks (m :: as.flatten) := by
  intro s
  rw [cons_append, peekLength_cons, peekBody, hm]
  dsimp only
  rw [getMultiVarintLen, sliceFrom_cons_one, ok_bind, multiVarintLen_flatten h,
    ok_bind, pure_eq, length_cons, Nat.add_comm]

variable {e : Escapes} {c : Bytes} {t x y : UInt8}

theorem peeks_bytes (h : peekKind m = .bytes e) (hp : Escaped e.escape (· = e.escapedTerm) p) :
    Peeks (m :: (p ++ [e.escape, e.escapedTerm])) := by
  intro s
  rw [cons_append, append_assoc, peekLength_cons, peekBody, h]
  dsimp only
  have hbytes := getBytesLength_escaped hp m s
  rw [cons_append, cons_append, nil_append, hbytes]
  simp

/-- The tag and the first seven bytes are skipped, and then the eighth in place of a tag. -/
theorem sliceFrom_geo (ha : a.length = 8) (m : UInt8) (s : Bytes) :
    ∃ x, (sliceFrom (m :: (a ++ s)) 8 : Peek Bytes) = .ok (x :: s) := by
  obtain ⟨x, hx⟩ : ∃ x, (m :: a).drop 8 = [x] := length_eq_one_iff.mp (by simp [ha])
  refine ⟨x, ?_⟩
  rw [sliceFrom_eq_ok (by simp only [length_cons, length_append]; omega), ← cons_append,
    drop_append_of_le_length (by simp [ha]), hx, singleton_append]

theorem peeks_geo (h : peekKind m = .geo e) (ha : a.length = 8)
    (hp : Escaped e.escape (· = e.escapedTerm) p) :
    Peeks (m :: (a ++ (p ++ [e.escape, e.escapedTerm]))) := by
  intro s
  obtain ⟨x, hslice⟩ := sliceFrom_geo ha m (p ++ e.escape :: e.escapedTerm :: s)
  rw [cons_append, append_assoc, append_assoc, peekLength_cons, peekBody, h]
  dsimp only
  rw [cons_append, cons_append, nil_append,
    if_neg (by simp only [length_cons, length_append]; omega), hslice, ok_bind,
    getBytesLength_escaped hp, ok_bind, pure_eq, ok.injEq]
  simp only [length_cons, length_append, length_nil, ha]
  omega

theorem toNat_of_peekKind_decimal (h : peekKind m = .decimal) : 24 ≤ m.toNat ∧ m.toNat ≤ 54 := by
  have hall : ∀ i : Fin 256, peekKind (UInt8.ofBitVec (BitVec.ofFin i)) = .decimal →
      24 ≤ i.val ∧ i.val ≤ 54 := by decide +kernel
  exact hall m.toBitVec.toFin h

theorem getDecimalLen_of_peekKind (h : peekKind m = .decimal) (r : Bytes) :
    getDecimalLen (m :: r) = if LoneDecimal m then .ok 1
      else if LongDecimal m then getVarintLen r >>= fun l => decimalEnd (m :: r) (1 + l)
      else decimalEnd (m :: r) 1 := by
  obtain ⟨hlo, hhi⟩ := toNat_of_peekKind_decimal h
  exact if_neg (not_or.mpr ⟨not_lt.mpr hlo, not_lt.mpr hhi⟩)

theorem peeks_loneDecimal (hm : peekKind m = .decimal) (h : LoneDecimal m) : Peeks [m] := by
  intro s
  rw [singleton_append, peekLength_cons, peekBody, hm]
  dsimp only
  rw [getDecimalLen_of_peekKind hm, if_pos h]
  rfl

theorem peeks_terminated {d : Bytes} (hm : peekKind m = .decimal) (h : ¬ LoneDecimal m)
    (hc : if LongDecimal m then VarintCode c else c = []) (hd : decimalTerminator ∉ d) :
    Peeks (m :: (c ++ (d ++ [decimalTerminator]))) := by
  intro s
  have hend := @decimalEnd_append (m :: c) d hd s
  rw [cons_append, length_cons] at hend
  rw [cons_append, append_assoc, append_assoc, singleton_append, peekLength_cons, peekBody, hm]
  dsimp only
  rw [getDecimalLen_of_peekKind hm, if_neg h]
  split_ifs at hc ⊢
  · rw [hc.getVarintLen, ok_bind, Nat.add_comm, hend, Peek.ofCode, ok.injEq]
    simp only [length_cons, length_append, length_nil]
    omega
  · subst hc
    rw [nil_append, length_nil, Nat.zero_add] at hend
    rw [nil_append, hend, Peek.ofCode, ok.injEq]
    simp only [length_cons, length_append, length_nil]
    omega

theorem getBitArrayWordsLen_eq (r : Bytes) (t : UInt8) : getBitArrayWordsLen r t =
    skipAll (.bitArrayShort r.length) (fun b => .ofCode (getVarintLen b)) t r := rfl

/-- The words of a bit array and what stands behind their terminator. -/
theorem words_append {err : PeekError} (hw : Items VarintCode t as) (m : UInt8)
    (s : Bytes) : skipAll err (fun b => .ofCode (getVarintLen b)) t (as.flatten ++ t :: s) =
      .ok (as.length, as.flatten.length) ∧
    (sliceFrom (m :: (as.flatten ++ t :: s)) (as.flatten.length + 2) : Peek Bytes) = .ok s := by
  refine ⟨skipAll_terminated ofCode_getVarintLen_pos
    (fun a ha => (hw a ha).imp_left VarintCode.finds) s, ?_⟩
  have hcons : m :: (as.flatten ++ t :: s) = m :: (as.flatten ++ [t]) ++ s := by simp
  rw [hcons, sliceFrom_append (by simp)]

theorem peeks_bitArray (hm : peekKind m = .bitArray t)
    (hw : Items VarintCode t as) (hc : VarintCode c) : Peeks (m :: (as.flatten ++ t :: c)) := by
  intro s
  obtain ⟨hwords, hslice⟩ := words_append hw m (c ++ s)
  rw [cons_append, append_assoc, cons_append, peekLength_cons, peekBody, hm]
  dsimp only
  rw [getBitArrayWordsLen_eq, hwords, ok_bind]
  rw [hslice, ok_bind, hc.getVarintLen, Peek.ofCode, ok_bind, pure_eq, ok.injEq]
  simp only [length_cons, length_append]
  omega

theorem peeks_float (hm : peekKind m = .float) (ha : a.length = 8) : Peeks (m :: a) := by
  intro s
  rw [cons_append, peekLength_cons, peekBody, hm]
  dsimp only
  rw [if_neg (by simp only [length_cons, length_append]; omega), length_cons, ha]

theorem peeks_box2D (hm : peekKind m = .box2D) (h : ∀ a ∈ as, FloatCode a) (hn : as.length = 4) :
    Peeks (m :: as.flatten) := by
  intro s
  have hlen := box2DFloatsLength_flatten h 0 s
  rw [hn] at hlen
  rw [cons_append, peekLength_cons, peekBody, hm]
  dsimp only
  rw [peekBox2DLength, hlen, box2DFloatsLength, ok_bind, pure_eq, ok_bind, pure_eq,
    ok.injEq, length_cons]
  omega

theorem peeks_geoInverted (hm : peekKind m = .geoInverted)
    (hc : VarintCode c) (ha : a.length = if x = geoInvertedTwoFloats then 16 else 32) :
    Peeks (m :: (c ++ x :: a)) := by
  intro s
  have hpos : 0 < c.length := by
    obtain ⟨y, b, rfl, -⟩ := hc
    exact Nat.succ_pos _
  have hlong : 16 ≤ a.length := by
    rw [ha]
    split_ifs <;> omega
  have hdrop : (m :: (c ++ (x :: a ++ s))).drop (1 + c.length) = x :: (a ++ s) := by
    rw [Nat.add_comm]
    exact drop_left
  rw [cons_append, append_assoc, peekLength_cons, peekBody, hm]
  dsimp only
  rw [getGeoInvertedIndexKeyLength, if_neg (by simp only [length_cons, length_append]; omega),
    sliceFrom_cons_one, ok_bind, hc.getVarintLen, Peek.ofCode, ok_bind,
    index_of_drop hdrop, ok_bind, pure_eq, ok.injEq]
  simp only [length_cons, length_append]
  omega

theorem peeks_arrayKey {dir : Direction} (hm : peekKind m = .arrayKey dir)
    (h : Items Peeks (arrayTerminator dir) as) :
    Peeks (m :: (as.flatten ++ [arrayTerminator dir])) := by
  intro s
  have helems := @skipAll_terminated .arrayUnterminated _ peekLength_pos _ _ h s
  rw [cons_append, append_assoc, singleton_append, peekLength_cons, peekBody, hm]
  change (skipAll .arrayUnterminated peekLength (arrayTerminator dir) _ >>= _) >>= _ = _
  rw [helems]
  simp only [ok_bind, pure_eq, ok.injEq, length_cons, length_append, length_nil]
  omega

/-- The path of a JSON key, and what is found behind it. -/
theorem getJSONInvertedIndexKeyLength_path {y x : UInt8} (hp : Escaped escape pathStop p)
    (hy : pathStop y = true) (s : Bytes) :
    getJSONInvertedIndexKeyLength peekLength (p ++ escape :: y :: x :: s) =
      if x = jsonEmptyArray ∨ x = jsonEmptyObject then .ok (p.length + 3)
      else peekLength (x :: s) >>= fun n => pure (p.length + 2 + n) := by
  have hscan : getInvertedIndexKeyLength (p ++ escape :: y :: x :: s) = .ok (p.length + 2) :=
    scanEscapes_stop hp hy _
  have hcons : p ++ escape :: y :: x :: s = p ++ [escape, y] ++ x :: s := by simp
  have hdrop : (p ++ escape :: y :: x :: s).drop (p.length + 2) = x :: s := by
    rw [hcons]
    exact drop_left' (by simp)
  rw [getJSONInvertedIndexKeyLength, hscan, ok_bind, index_of_drop hdrop, ok_bind,
    sliceFrom_eq_ok (by simp), hdrop, ok_bind]

theorem peeks_jsonEmpty (hm : peekKind m = .json)
    (hp : Escaped escape pathStop (m :: p)) (hy : pathStop y = true)
    (hx : x = jsonEmptyArray ∨ x = jsonEmptyObject) : Peeks (m :: (p ++ [escape, y, x])) := by
  intro s
  have hpath := @getJSONInvertedIndexKeyLength_path _ y x hp hy s
  rw [if_pos hx, cons_append] at hpath
  rw [cons_append, append_assoc, peekLength_cons, peekBody, hm]
  refine hpath.trans (congrArg ok ?_)
  simp only [length_cons, length_append, length_nil]

theorem peeks_json (hm : peekKind m = .json)
    (hp : Escaped escape pathStop (m :: p)) (hy : pathStop y = true)
    (hx : ¬ (x = jsonEmptyArray ∨ x = jsonEmptyObject)) (h : Peeks (x :: a)) :
    Peeks (m :: (p ++ escape :: y :: x :: a)) := by
  intro s
  have hpath := @getJSONInvertedIndexKeyLength_path _ y x hp hy (a ++ s)
  have hleaf := h s
  rw [cons_append] at hleaf
  rw [if_neg hx, hleaf, ok_bind, cons_append] at hpath
  rw [cons_append, append_assoc, peekLength_cons, peekBody, hm]
  refine hpath.trans (congrArg ok ?_)
  simp only [length_cons, length_append]
  omega

theorem Complete.peeks {code : Bytes} (h : Complete code) : Peeks code := by
  induction h with
  | single hm => exact peeks_single hm
  | bytes hm hp => exact peeks_bytes hm hp
  | geo hm ha hp => exact peeks_geo hm ha hp
  | loneDecimal hm h => exact peeks_loneDecimal hm h
  | decimal hm h hc hd => exact peeks_terminated hm h hc hd
  | bitArray hm hw hc => exact peeks_bitArray hm hw hc
  | box2D hm h hn => exact peeks_box2D hm h hn
  | geoInverted hm hc ha => exact peeks_geoInverted hm hc ha
  | varints hm h => exact peeks_varints hm h
  | float hm ha => exact peeks_float hm ha
  | int hm ha => exact peeks_int hm ha
  | arrayKey hm _ ht ih => exact peeks_arrayKey hm fun a ha => ⟨ih a ha, ht a ha⟩
  | jsonEmpty hm hp hy hx => exact peeks_jsonEmpty hm hp hy hx
  | json hm hp hy hx _ ih => exact peeks_json hm hp hy hx ih

end Peeks

end Cockroach.Encoding
