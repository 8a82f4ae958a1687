import Cockroach.Encoding.PeekCodes

/-! The buffers on which the peeked length is out of bounds: those that end within a value. -/
namespace Cockroach.Encoding
open ByteOrder List
open Outcome (index_eq_panic ok_bind panic_bind pure_eq sliceFrom_cons_one sliceFrom_eq_ok
  sliceFrom_eq_panic)

/-- The buffer ends within the value at its start, or within an element or leaf of it, at a place
where the code reads on. -/
inductive Overruns : Bytes → Prop where
  | bytes {m : UInt8} {e : Escapes} {p : Bytes} (hm : peekKind m = .bytes e)
      (hp : Escaped e.escape (· = e.escapedTerm) p) : Overruns (m :: (p ++ [e.escape]))
  | geoTag {m : UInt8} {e : Escapes} {a : Bytes} (hm : peekKind m = .geo e) (ha : a.length = 7) :
      Overruns (m :: a)
  | geo {m : UInt8} {e : Escapes} {a p : Bytes} (hm : peekKind m = .geo e) (ha : a.length = 8)
      (hp : Escaped e.escape (· = e.escapedTerm) p) : Overruns (m :: (a ++ (p ++ [e.escape])))
  | decimal {m : UInt8} (hm : LongDecimal m) : Overruns [m]
  | bitArray {m t : UInt8} {ws : List Bytes} (hm : peekKind m = .bitArray t)
      (hw : Items VarintCode t ws) : Overruns (m :: (ws.flatten ++ [t]))
  | box2D {m x : UInt8} {as : List Bytes} {a : Bytes} (hm : peekKind m = .box2D)
      (h : ∀ a ∈ as, FloatCode a) (hn : as.length < 4) (hx : x = floatNeg ∨ x = floatPos)
      (ha : a.length < 8) : Overruns (m :: (as.flatten ++ x :: a))
  | geoInverted {m : UInt8} {c a : Bytes} (hm : peekKind m = .geoInverted) (hc : VarintCode c)
      (hlong : 18 ≤ (c ++ a).length)
      (ha : a.length < if a.head? = some geoInvertedTwoFloats then 17 else 33) :
      Overruns (m :: (c ++ a))
  | jsonEscape {m : UInt8} {p : Bytes} (hm : peekKind m = .json)
      (hp : Escaped escape pathStop (m :: p)) : Overruns (m :: (p ++ [escape]))
  | jsonPath {m y : UInt8} {p : Bytes} (hm : peekKind m = .json)
      (hp : Escaped escape pathStop (m :: p)) (hy : pathStop y = true) :
      Overruns (m :: (p ++ [escape, y]))
  | json {m y x : UInt8} {p r : Bytes} (hm : peekKind m = .json)
      (hp : Escaped escape pathStop (m :: p)) (hy : pathStop y = true)
      (hx : ¬ (x = jsonEmptyArray ∨ x = jsonEmptyObject)) (h : Overruns (x :: r)) :
      Overruns (m :: (p ++ escape :: y :: x :: r))
  | element {m x : UInt8} {dir : Direction} {as : List Bytes} {r : Bytes}
      (hm : peekKind m = .arrayKey dir) (has : Items Complete (arrayTerminator dir) as)
      (hx : x ≠ arrayTerminator dir) (h : Overruns (x :: r)) :
      Overruns (m :: (as.flatten ++ x :: r))

/-- The length is out of bounds, or the code indexes there. -/
def OutOfBounds (x : Peek ℕ) (len : ℕ) : Prop := x = .panic ∨ ∃ n, x = .ok n ∧ len < n

section Sound

variable {len n : ℕ} {m x : UInt8} {a p r : Bytes}

theorem outOfBounds_add {x : Peek ℕ} {k : ℕ} (h : OutOfBounds x len) :
    OutOfBounds (x >>= fun m => pure (k + m)) (k + len) := by
  rcases h with rfl | ⟨n, rfl, hlt⟩
  · exact .inl rfl
  · exact .inr ⟨_, rfl, Nat.add_lt_add_left hlt k⟩

theorem scanEscapes_cut {err : PeekError} {esc : UInt8} {stop : UInt8 → Bool}
    (h : Escaped esc stop p) : scanEscapes err esc stop (p ++ [esc]) = .panic := by
  rw [scanEscapes_escaped h (cons_ne_nil _ _), scanEscapes, if_pos rfl]
  rfl

theorem getBytesLength_cut {e : Escapes} (h : Escaped e.escape (· = e.escapedTerm) p) (m : UInt8) :
    getBytesLength (m :: (p ++ [e.escape])) e = .panic := by
  rw [getBytesLength, sliceFrom_cons_one, ok_bind, scanEscapes_cut h]
  rfl

theorem peekLength_geo_cut {e : Escapes} (hm : peekKind m = .geo e) (ha : a.length = 8)
    (hp : Escaped e.escape (· = e.escapedTerm) p) :
    peekLength (m :: (a ++ (p ++ [e.escape]))) = .panic := by
  obtain ⟨x, hslice⟩ := sliceFrom_geo ha m (p ++ [e.escape])
  rw [peekLength_cons, peekBody, hm]
  dsimp only
  rw [if_neg (by simp only [length_cons, length_append]; omega), hslice, ok_bind,
    getBytesLength_cut hp]
  rfl

theorem peekLength_bitArray_cut {t : UInt8} {ws : List Bytes} (hm : peekKind m = .bitArray t)
    (hw : Items VarintCode t ws) : peekLength (m :: (ws.flatten ++ [t])) = .panic := by
  obtain ⟨hwords, hslice⟩ := words_append hw m []
  rw [peekLength_cons, peekBody, hm]
  dsimp only
  rw [getBitArrayWordsLen_eq, hwords, ok_bind]
  rw [hslice]
  rfl

theorem peekLength_box2D_cut {as : List Bytes} (hm : peekKind m = .box2D)
    (h : ∀ a ∈ as, FloatCode a) (hn : as.length < 4) (hx : x = floatNeg ∨ x = floatPos)
    (ha : a.length < 8) : peekLength (m :: (as.flatten ++ x :: a)) = .panic := by
  have hx' : ¬ (x = floatNaN ∨ x = floatNaNDesc ∨ x = floatZero) := by
    rcases hx with rfl | rfl <;> decide
  have hlen := box2DFloatsLength_flatten h (3 - as.length + 1) (x :: a)
  have hfour : as.length + (3 - as.length + 1) = 4 := by omega
  have hslice : (Outcome.sliceFrom (x :: a) 9 : Peek Bytes) = .panic :=
    sliceFrom_eq_panic.mpr (by rw [length_cons]; omega)
  rw [hfour, box2DFloatsLength, if_neg hx', if_pos hx, hslice, panic_bind] at hlen
  rw [peekLength_cons, peekBody, hm]
  rw [peekBox2DLength, hlen]
  rfl

theorem outOfBounds_geoInverted_cut {c : Bytes} (hm : peekKind m = .geoInverted)
    (hc : VarintCode c) (hlong : 18 ≤ (c ++ a).length)
    (ha : a.length < if a.head? = some geoInvertedTwoFloats then 17 else 33) :
    OutOfBounds (peekLength (m :: (c ++ a))) (m :: (c ++ a)).length := by
  rw [peekLength_cons, peekBody, hm]
  rw [getGeoInvertedIndexKeyLength, if_neg (by rw [length_cons]; omega), sliceFrom_cons_one,
    ok_bind, hc.getVarintLen, Peek.ofCode, ok_bind]
  cases a with
  | nil =>
    rw [index_eq_panic.mpr (by simp [Nat.add_comm])]
    exact .inl rfl
  | cons x a =>
    have hdrop : (m :: (c ++ x :: a)).drop (1 + c.length) = x :: a := by
      rw [Nat.add_comm]
      exact drop_left
    rw [Outcome.index_of_drop hdrop]
    refine .inr ⟨_, rfl, ?_⟩
    simp only [head?_cons, Option.some.injEq, length_cons] at ha
    simp only [length_cons, length_append]
    split_ifs at ha ⊢ <;> omega

theorem peekLength_jsonPath_cut {y : UInt8} (hm : peekKind m = .json)
    (hp : Escaped escape pathStop (m :: p)) (hy : pathStop y = true) :
    peekLength (m :: (p ++ [escape, y])) = .panic := by
  have hscan : getInvertedIndexKeyLength (m :: (p ++ [escape, y])) = .ok (p.length + 3) :=
    scanEscapes_stop hp hy []
  rw [peekLength_cons, peekBody, hm]
  rw [getJSONInvertedIndexKeyLength, hscan, ok_bind, index_eq_panic.mpr (by simp)]
  rfl

theorem peekLength_element_cut {dir : Direction} {as : List Bytes} (hm : peekKind m = .arrayKey dir)
    (has : Items Complete (arrayTerminator dir) as) (hx : x ≠ arrayTerminator dir)
    (h : OutOfBounds (peekLength (x :: r)) (x :: r).length) :
    peekLength (m :: (as.flatten ++ x :: r)) = .panic := by
  have hcut : skipAll .arrayUnterminated peekLength (arrayTerminator dir) (x :: r) = .panic := by
    rw [skipAll_cons peekLength_pos, if_neg hx]
    rcases h with h | ⟨n, h, hlt⟩
    · rw [h]
      rfl
    · rw [h, ok_bind, sliceFrom_eq_panic.mpr hlt]
      rfl
  rw [peekLength_cons, peekBody, hm]
  change (skipAll .arrayUnterminated peekLength (arrayTerminator dir) _ >>= _) >>= _ = _
  rw [skipAll_items peekLength_pos fun a ha => (has a ha).imp_left Complete.peeks, hcut]
  rfl

theorem Overruns.outOfBounds {b : Bytes} (h : Overruns b) :
    OutOfBounds (peekLength b) b.length := by
  induction h with
  | @bytes m e p hm hp =>
    rw [peekLength_cons, peekBody, hm]
    exact .inl (getBytesLength_cut hp m)
  | @geoTag m e a hm ha =>
    have hslice : (Outcome.sliceFrom (m :: a) 8 : Peek Bytes) = .ok [] := by
      rw [sliceFrom_eq_ok (by simp [ha]), drop_of_length_le (by simp [ha])]
    rw [peekLength_cons, peekBody, hm]
    dsimp only
    rw [if_neg (by rw [length_cons]; omega), hslice]
    exact .inl rfl
  | geo hm ha hp => exact .inl (peekLength_geo_cut hm ha hp)
  | decimal hm => rcases hm with rfl | rfl | rfl | rfl <;> exact .inl (by decide)
  | bitArray hm hw => exact .inl (peekLength_bitArray_cut hm hw)
  | box2D hm h hn hx ha => exact .inl (peekLength_box2D_cut hm h hn hx ha)
  | geoInverted hm hc hlong ha => exact outOfBounds_geoInverted_cut hm hc hlong ha
  | @jsonEscape m p hm hp =>
    have hscan : getInvertedIndexKeyLength (m :: (p ++ [escape])) = .panic := scanEscapes_cut hp
    rw [peekLength_cons, peekBody, hm]
    rw [getJSONInvertedIndexKeyLength, hscan]
    exact .inl rfl
  | jsonPath hm hp hy => exact .inl (peekLength_jsonPath_cut hm hp hy)
  | @json m y x p r hm hp hy hx _ ih =>
    have hpath := @getJSONInvertedIndexKeyLength_path _ y x hp hy r
    rw [if_neg hx, cons_append] at hpath
    have hlength : (m :: (p ++ escape :: y :: x :: r)).length =
        (m :: p).length + 2 + (x :: r).length := by
      simp only [length_cons, length_append]
      omega
    rw [peekLength_cons, peekBody, hm]
    rw [hpath, hlength]
    exact outOfBounds_add ih
  | element hm has hx _ ih => exact .inl (peekLength_element_cut hm has hx ih)

end Sound

section Cases

variable {err : PeekError}

theorem scanEscapes_cases (esc : UInt8) (stop : UInt8 → Bool) (b : Bytes) :
    (∃ p y s, Escaped esc stop p ∧ stop y = true ∧ b = p ++ esc :: y :: s) ∨
    (∃ p, Escaped esc stop p ∧ b = p ++ [esc]) ∨ ∃ e, scanEscapes err esc stop b = .error e := by
  induction b using scanEscapes.induct esc stop with
  | case1 => exact .inr (.inr ⟨err, rfl⟩)
  | case2 => exact .inr (.inl ⟨[], .nil, rfl⟩)
  | case3 x hx => exact .inr (.inr ⟨err, if_neg hx⟩)
  | case4 y b hy => exact .inl ⟨[], y, b, .nil, hy, rfl⟩
  | case5 y b hy ih =>
    have hy' : stop y = false := by simpa using hy
    rcases ih with ⟨p, z, s, hp, hz, rfl⟩ | ⟨p, hp, rfl⟩ | ⟨e, he⟩
    · exact .inl ⟨_, z, s, .pair hy' hp, hz, rfl⟩
    · exact .inr (.inl ⟨_, .pair hy' hp, rfl⟩)
    · exact .inr (.inr ⟨e, by rw [scanEscapes, if_pos rfl, if_neg hy, he]; rfl⟩)
  | case6 x y b hx ih =>
    rcases ih with ⟨p, z, s, hp, hz, hb⟩ | ⟨p, hp, hb⟩ | ⟨e, he⟩
    · exact .inl ⟨_, z, s, .plain hx hp, hz, congrArg (x :: ·) hb⟩
    · exact .inr (.inl ⟨_, .plain hx hp, congrArg (x :: ·) hb⟩)
    · exact .inr (.inr ⟨e, by rw [scanEscapes, if_neg hx, he]; rfl⟩)

theorem varint_cases (x : UInt8) (r : Bytes) :
    (∃ a s, VarintCode a ∧ x :: r = a ++ s) ∨ ∃ e, getVarintLen (x :: r) = .error e := by
  rw [getVarintLen_cons]
  split_ifs with hle
  · have hpos := varintLength_pos x
    refine .inl ⟨x :: r.take (varintLength x - 1), r.drop (varintLength x - 1), ⟨x, _, rfl, ?_⟩, ?_⟩
    · rw [length_take]
      omega
    · rw [cons_append, take_append_drop]
  · exact .inr ⟨_, rfl⟩

theorem multiVarintLen_cases (num : ℕ) (r : Bytes) :
    (∃ (as : List Bytes) (s : Bytes), as.length = num ∧ (∀ a ∈ as, VarintCode a) ∧
      r = as.flatten ++ s) ∨
    multiVarintLen num r = .ok r.length ∨ ∃ e, multiVarintLen num r = .error e := by
  induction num generalizing r with
  | zero => exact .inl ⟨[], r, rfl, by simp, rfl⟩
  | succ num ih =>
    cases r with
    | nil => exact .inr (.inl rfl)
    | cons x r =>
      rcases varint_cases x r with ⟨a, s, ha, hr⟩ | ⟨e, he⟩
      · have hlen := ha.getVarintLen s
        rw [multiVarintLen, hr, hlen, Peek.ofCode, ok_bind, Outcome.sliceFrom_append rfl, ok_bind]
        rcases ih s with ⟨as, s', hn, has, rfl⟩ | h | ⟨e, he⟩
        · refine .inl ⟨a :: as, s', congrArg (· + 1) hn, forall_mem_cons.mpr ⟨ha, has⟩, ?_⟩
          rw [flatten_cons, append_assoc]
        · exact .inr (.inl (by rw [h, length_append]; rfl))
        · exact .inr (.inr ⟨e, by rw [he]; rfl⟩)
      · exact .inr (.inr ⟨.code e, by rw [multiVarintLen, he]; rfl⟩)

theorem box2DFloatsLength_cases (num : ℕ) (r : Bytes) :
    (∃ (as : List Bytes) (s : Bytes), as.length = num ∧ (∀ a ∈ as, FloatCode a) ∧
      r = as.flatten ++ s) ∨
    (∃ (as : List Bytes) (x : UInt8) (a : Bytes), as.length < num ∧ (∀ a ∈ as, FloatCode a) ∧
      (x = floatNeg ∨ x = floatPos) ∧
      a.length < 8 ∧ r = as.flatten ++ x :: a) ∨ ∃ e, box2DFloatsLength num r = .error e := by
  induction num generalizing r with
  | zero => exact .inl ⟨[], r, rfl, by simp, rfl⟩
  | succ num ih =>
    suffices hfirst : (∃ a s, FloatCode a ∧ r = a ++ s) ∨
        (∃ x a, (x = floatNeg ∨ x = floatPos) ∧ length a < 8 ∧ r = x :: a) ∨
        ∃ e, box2DFloatsLength (num + 1) r = .error e by
      rcases hfirst with ⟨a, s, ha, rfl⟩ | ⟨x, a, hx, ha, rfl⟩ | h
      · have hlen := ha.box2DFloatsLength num s
        rcases ih s with ⟨as, s', hn, has, rfl⟩ | ⟨as, x, c, hn, has, hx, hc, rfl⟩ | ⟨e, he⟩
        · exact .inl ⟨a :: as, s', congrArg (· + 1) hn, forall_mem_cons.mpr ⟨ha, has⟩, by simp⟩
        · exact .inr (.inl ⟨a :: as, x, c, Nat.succ_lt_succ hn, forall_mem_cons.mpr ⟨ha, has⟩, hx,
            hc, by simp⟩)
        · exact .inr (.inr ⟨e, by rw [hlen, he]; rfl⟩)
      · exact .inr (.inl ⟨[], x, a, Nat.succ_pos _, by simp, hx, ha, rfl⟩)
      · exact .inr (.inr h)
    cases r with
    | nil => exact .inr (.inr ⟨_, rfl⟩)
    | cons m r =>
      by_cases hshort : m = floatNaN ∨ m = floatNaNDesc ∨ m = floatZero
      · exact .inl ⟨[m], r, .inl ⟨m, rfl, hshort⟩, rfl⟩
      by_cases hlong : m = floatNeg ∨ m = floatPos
      · rcases Nat.lt_or_ge r.length 8 with hcut | hroom
        · exact .inr (.inl ⟨m, r, hlong, hcut, rfl⟩)
        · refine .inl ⟨m :: r.take 8, r.drop 8, .inr ⟨m, _, rfl, hlong, by simp [hroom]⟩, ?_⟩
          rw [cons_append, take_append_drop]
      · exact .inr (.inr ⟨_, by rw [box2DFloatsLength, if_neg hshort, if_neg hlong]⟩)

/-- What a buffer starts with: a whole item, one that it ends within, or neither. -/
inductive Starts (itemLen : Bytes → Peek ℕ) (P Bad : Bytes → Prop) (b : Bytes) : Prop where
  | whole {a : Bytes} (s : Bytes) (ha : P a) (hb : b = a ++ s)
  | cut (h : Bad b)
  | toEnd (h : itemLen b = .ok b.length)
  | fails {e : PeekError} (h : itemLen b = .error e)

/-- The items in front of the terminator, or of one that is bad, if none has an error. -/
theorem skipAll_cases {itemLen : Bytes → Peek ℕ} (hpos : ∀ b k, itemLen b = .ok k → 0 < k)
    {P Bad : Bytes → Prop} (hP : ∀ a, P a → Finds itemLen a) (t : UInt8) (r : Bytes)
    (hitem : ∀ x c, (x :: c).length ≤ r.length → Starts itemLen P Bad (x :: c)) :
    (∃ as s, Items P t as ∧ r = as.flatten ++ t :: s) ∨
    (∃ as x c, Items P t as ∧ x ≠ t ∧ Bad (x :: c) ∧ r = as.flatten ++ x :: c) ∨
    ∃ e, skipAll err itemLen t r = .error e := by
  induction hn : r.length using Nat.strong_induction_on generalizing r with
  | h n ih =>
    subst hn
    cases r with
    | nil => exact .inr (.inr ⟨err, rfl⟩)
    | cons x r =>
      by_cases hx : x = t
      · exact .inl ⟨[], r, by simp [Items], congrArg (· :: r) hx⟩
      rcases hitem x r le_rfl with @⟨a, s, ha, hr⟩ | hbad | hend | @⟨e, he⟩
      · have hlen := hP a ha s
        have hpos' := hpos _ _ hlen
        have hlength : (x :: r).length = a.length + s.length := by rw [hr, length_append]
        have hhead : a.head? ≠ some t := by
          cases a with
          | nil => cases hpos'
          | cons y a =>
            obtain ⟨rfl, -⟩ := cons.inj hr
            simpa using hx
        have hcons {as : List Bytes} (has : Items P t as) : Items P t (a :: as) :=
          forall_mem_cons.mpr ⟨⟨ha, hhead⟩, has⟩
        rcases ih s.length (by omega) s (fun y c hc => hitem y c (by omega)) rfl with
          ⟨as, s', has, rfl⟩ | ⟨as, y, c, has, hy, hbad, rfl⟩ | ⟨e, he⟩
        · exact .inl ⟨a :: as, s', hcons has, by simp [hr]⟩
        · exact .inr (.inl ⟨a :: as, y, c, hcons has, hy, hbad, by simp [hr]⟩)
        · refine .inr (.inr ⟨e, ?_⟩)
          rw [skipAll_cons hpos, if_neg hx, hr, hlen, ok_bind, Outcome.sliceFrom_append rfl,
            ok_bind, he]
          rfl
      · exact .inr (.inl ⟨[], x, r, by simp [Items], hx, hbad, rfl⟩)
      · refine .inr (.inr ⟨err, ?_⟩)
        rw [skipAll_cons hpos, if_neg hx, hend, ok_bind, sliceFrom_eq_ok le_rfl, ok_bind,
          drop_length]
        rfl
      · exact .inr (.inr ⟨e, by rw [skipAll_cons hpos, if_neg hx, he]; rfl⟩)

theorem decimalEnd_cases (a r : Bytes) :
    (∃ d s, decimalTerminator ∉ d ∧ r = d ++ decimalTerminator :: s) ∨
    ∃ e, decimalEnd (a ++ r) a.length = .error e := by
  by_cases h : decimalTerminator ∈ r
  · obtain ⟨d, s, hr, hd⟩ := eq_append_cons_of_mem h
    exact .inl ⟨d, s, hd, hr⟩
  · refine .inr ⟨.terminator, ?_⟩
    rw [decimalEnd, Outcome.sliceFrom_append rfl, ok_bind, findDecimalTerminator,
      idxOf?_eq_none_iff.mpr h]
    rfl

end Cases

section Buffers

abbrev Peeked (b : Bytes) : Prop := Starts peekLength Complete Overruns b

variable {m : UInt8} {r : Bytes}

theorem exists_append {n : ℕ} (h : n ≤ r.length) : ∃ a s : Bytes, a.length = n ∧ r = a ++ s :=
  ⟨r.take n, r.drop n, length_take_of_le h, (take_append_drop n r).symm⟩

theorem peeked_bytes {e : Escapes} (hm : peekKind m = .bytes e) : Peeked (m :: r) := by
  rcases @scanEscapes_cases .terminator e.escape (· = e.escapedTerm) r with
    ⟨p, y, s, hp, hy, rfl⟩ | ⟨p, hp, rfl⟩ | ⟨err, herr⟩
  · obtain rfl := of_decide_eq_true hy
    exact .whole s (.bytes hm hp) (by simp)
  · exact .cut (.bytes hm hp)
  · apply Starts.fails
    rw [peekLength_cons, peekBody, hm]
    dsimp only
    rw [getBytesLength, sliceFrom_cons_one, ok_bind, herr]
    rfl

theorem peeked_geo {e : Escapes} (hm : peekKind m = .geo e) : Peeked (m :: r) := by
  rcases lt_trichotomy r.length 7 with hlt | heq | hgt
  · apply Starts.fails
    rw [peekLength_cons, peekBody, hm]
    exact if_pos (Nat.succ_lt_succ hlt)
  · exact .cut (.geoTag hm heq)
  · obtain ⟨a, c, ha, rfl⟩ := exists_append (show 8 ≤ r.length from hgt)
    obtain ⟨x, hslice⟩ := sliceFrom_geo ha m c
    rcases @scanEscapes_cases .terminator e.escape (· = e.escapedTerm) c with
      ⟨p, y, s, hp, hy, rfl⟩ | ⟨p, hp, rfl⟩ | ⟨err, herr⟩
    · obtain rfl := of_decide_eq_true hy
      exact .whole s (.geo hm ha hp) (by simp)
    · exact .cut (.geo hm ha hp)
    · apply Starts.fails
      rw [peekLength_cons, peekBody, hm]
      dsimp only
      rw [if_neg (by rw [length_cons]; omega), hslice, ok_bind, getBytesLength, sliceFrom_cons_one,
        ok_bind, herr]
      rfl

theorem peeked_decimal (hm : peekKind m = .decimal) : Peeked (m :: r) := by
  by_cases hlone : LoneDecimal m
  · exact .whole r (.loneDecimal hm hlone) rfl
  have hlen : peekLength (m :: r) = Peek.ofCode (getDecimalLen (m :: r)) := by
    rw [peekLength_cons, peekBody, hm]
  rw [getDecimalLen_of_peekKind hm, if_neg hlone] at hlen
  by_cases hlong : LongDecimal m
  · rw [if_pos hlong] at hlen
    cases r with
    | nil => exact .cut (.decimal hlong)
    | cons x r =>
      rcases varint_cases x r with ⟨c, s, hc, hr⟩ | ⟨e, he⟩
      · rw [hr] at hlen ⊢
        rcases decimalEnd_cases (m :: c) s with ⟨d, s', hd, rfl⟩ | ⟨e, he⟩
        · exact .whole s' (.decimal hm hlone (by rwa [if_pos hlong]) hd) (by simp)
        · rw [hc.getVarintLen, ok_bind, Nat.add_comm, ← length_cons, ← cons_append, he] at hlen
          exact .fails hlen
      · rw [he] at hlen
        exact .fails hlen
  · rw [if_neg hlong] at hlen
    rcases decimalEnd_cases [m] r with ⟨d, s, hd, rfl⟩ | ⟨e, he⟩
    · exact .whole s (.decimal hm hlone (by rw [if_neg hlong]) hd) (by simp)
    · rw [singleton_append, length_singleton] at he
      rw [he] at hlen
      exact .fails hlen

theorem peeked_bitArray {t : UInt8} (hm : peekKind m = .bitArray t) : Peeked (m :: r) := by
  have hitem (x : UInt8) (c : Bytes) (_ : (x :: c).length ≤ r.length) :
      Starts (fun b => .ofCode (getVarintLen b)) VarintCode (fun _ => False) (x :: c) := by
    rcases varint_cases x c with ⟨a, s, ha, hc⟩ | ⟨e, he⟩
    · exact .whole s ha hc
    · exact .fails (congrArg Peek.ofCode he)
  have hlen : peekLength (m :: r) = (skipAll (.bitArrayShort r.length)
      (fun b => .ofCode (getVarintLen b)) t r >>= fun p => .sliceFrom (m :: r) (p.2 + 2) >>=
        fun r => Peek.ofCode (getVarintLen r) >>= fun m => pure (1 + p.2 + m + 1)) := by
    rw [peekLength_cons, peekBody, hm]
    rfl
  rcases @skipAll_cases (.bitArrayShort r.length) _ ofCode_getVarintLen_pos VarintCode
    (fun _ => False) (fun _ h => h.finds) t r hitem with
    ⟨ws, s, hw, rfl⟩ | ⟨_, _, _, _, _, hbad, _⟩ | ⟨e, he⟩
  · cases s with
    | nil => exact .cut (.bitArray hm hw)
    | cons x s =>
      rcases varint_cases x s with ⟨c, s', hc, hs⟩ | ⟨e, he⟩
      · exact .whole s' (.bitArray hm hw hc) (by simp [hs])
      · obtain ⟨hwords, hslice⟩ := words_append hw m (x :: s)
        rw [hwords, ok_bind] at hlen
        dsimp only at hlen
        rw [hslice, ok_bind, he] at hlen
        exact .fails hlen
  · exact hbad.elim
  · rw [he] at hlen
    exact .fails hlen

theorem peeked_box2D (hm : peekKind m = .box2D) : Peeked (m :: r) := by
  rcases box2DFloatsLength_cases 4 r with
    ⟨as, s, hn, has, rfl⟩ | ⟨as, x, a, hn, has, hx, ha, rfl⟩ | ⟨e, he⟩
  · exact .whole s (.box2D hm has hn) rfl
  · exact .cut (.box2D hm has hn hx ha)
  · apply Starts.fails
    rw [peekLength_cons, peekBody, hm]
    rw [peekBox2DLength, he]
    rfl

theorem peeked_geoInverted (hm : peekKind m = .geoInverted) : Peeked (m :: r) := by
  have hlen : peekLength (m :: r) = getGeoInvertedIndexKeyLength (m :: r) := by
    rw [peekLength_cons, peekBody, hm]
  rw [getGeoInvertedIndexKeyLength] at hlen
  by_cases hshort : (m :: r).length < 19
  · rw [if_pos hshort] at hlen
    exact .fails hlen
  rw [if_neg hshort, sliceFrom_cons_one, ok_bind] at hlen
  rw [length_cons] at hshort
  cases r with
  | nil => simp at hshort
  | cons x r =>
    rcases varint_cases x r with ⟨c, a, hc, hr⟩ | ⟨e, he⟩
    · rw [hr] at hshort ⊢
      by_cases hcut : a.length < if a.head? = some geoInvertedTwoFloats then 17 else 33
      · exact .cut (.geoInverted hm hc (by omega) hcut)
      cases a with
      | nil => exact absurd (by decide) hcut
      | cons y a =>
        simp only [head?_cons, Option.some.injEq, length_cons, not_lt] at hcut
        have hle : (if y = geoInvertedTwoFloats then 16 else 32) ≤ a.length := by
          split_ifs at hcut ⊢ <;> omega
        obtain ⟨a, s, ha, rfl⟩ := exists_append hle
        exact .whole s (.geoInverted hm hc ha) (by simp)
    · rw [he] at hlen
      exact .fails hlen

theorem peeked_varints {num : ℕ} (hm : peekKind m = .varints num) : Peeked (m :: r) := by
  have hlen : peekLength (m :: r) = (multiVarintLen num r >>= fun n => pure (1 + n)) := by
    rw [peekLength_cons, peekBody, hm]
    rfl
  rcases multiVarintLen_cases num r with ⟨as, s, rfl, has, rfl⟩ | h | ⟨e, he⟩
  · exact .whole s (.varints hm has) rfl
  · rw [h, ok_bind, pure_eq, Nat.add_comm] at hlen
    exact .toEnd hlen
  · rw [he] at hlen
    exact .fails hlen

theorem peeked_float (hm : peekKind m = .float) : Peeked (m :: r) := by
  by_cases hshort : (m :: r).length < 9
  · apply Starts.fails
    rw [peekLength_cons, peekBody, hm]
    exact if_pos hshort
  · rw [length_cons] at hshort
    obtain ⟨a, s, ha, rfl⟩ := exists_append (show 8 ≤ r.length by omega)
    exact .whole s (.float hm ha) rfl

theorem peeked_int (hm : peekKind m = .int) : Peeked (m :: r) := by
  rcases varint_cases m r with ⟨a, s, ha, hr⟩ | ⟨e, he⟩
  · rw [hr]
    obtain ⟨x, b, rfl, hlen⟩ := ha
    obtain ⟨rfl, -⟩ := cons.inj hr
    exact .whole s (.int hm ⟨m, b, rfl, hlen⟩) rfl
  · apply Starts.fails
    rw [peekLength_cons, peekBody, hm]
    rw [he]
    rfl

theorem peeked_arrayKey {dir : Direction} (hm : peekKind m = .arrayKey dir)
    (ih : ∀ c : Bytes, c.length ≤ r.length → Peeked c) : Peeked (m :: r) := by
  rcases @skipAll_cases .arrayUnterminated _ peekLength_pos Complete Overruns
    (fun _ h => h.peeks) (arrayTerminator dir) r (fun x c hc => ih (x :: c) hc) with
    ⟨as, s, has, rfl⟩ | ⟨as, x, c, has, hx, hover, rfl⟩ | ⟨e, he⟩
  · have hcode : Complete (m :: (as.flatten ++ [arrayTerminator dir])) :=
      .arrayKey hm (fun a ha => (has a ha).1) fun a ha => (has a ha).2
    exact .whole s hcode (by simp)
  · exact .cut (.element hm has hx hover)
  · have harray : getArrayLength peekLength r dir = .error e := by
      change (skipAll .arrayUnterminated peekLength (arrayTerminator dir) r >>= _) = _
      rw [he]
      rfl
    apply Starts.fails
    rw [peekLength_cons, peekBody, hm]
    dsimp only
    rw [harray]
    rfl

/-- The path starts with the tag, which is no escape byte. -/
theorem exists_path {p s : Bytes} (hm : peekKind m = .json) (hp : Escaped escape pathStop p)
    (h : m :: r = p ++ escape :: s) :
    ∃ q, Escaped escape pathStop (m :: q) ∧ r = q ++ escape :: s := by
  have hne : m ≠ escape := by
    rintro rfl
    exact absurd hm (by decide)
  cases hp with
  | nil | pair => exact absurd (cons.inj h).1 hne
  | @plain x p hx hp =>
    obtain ⟨rfl, hr⟩ := cons.inj h
    exact ⟨p, .plain hx hp, hr⟩

theorem peeked_json (hm : peekKind m = .json)
    (ih : ∀ c : Bytes, c.length ≤ r.length → Peeked c) : Peeked (m :: r) := by
  have hlen : peekLength (m :: r) = getJSONInvertedIndexKeyLength peekLength (m :: r) := by
    rw [peekLength_cons, peekBody, hm]
  rcases @scanEscapes_cases .invertedKey escape pathStop (m :: r) with
    ⟨p, y, s, hp, hy, hr⟩ | ⟨p, hp, hr⟩ | ⟨e, he⟩
  · obtain ⟨p, hp, rfl⟩ := exists_path hm hp hr
    cases s with
    | nil => exact .cut (.jsonPath hm hp hy)
    | cons x s =>
      by_cases hempty : x = jsonEmptyArray ∨ x = jsonEmptyObject
      · exact .whole s (.jsonEmpty hm hp hy hempty) (by simp)
      rw [← cons_append, getJSONInvertedIndexKeyLength_path hp hy, if_neg hempty] at hlen
      rcases ih (x :: s) (by simp only [length_cons, length_append]; omega) with
        @⟨a, s', ha, hs⟩ | hover | hend | @⟨e, he⟩
      · cases a with
        | nil => exact absurd (peekLength_pos _ _ (ha.peeks [])) (Nat.lt_irrefl 0)
        | cons x' a =>
          obtain ⟨rfl, rfl⟩ := cons.inj hs
          exact .whole s' (.json hm hp hy hempty ha) (by simp)
      · exact .cut (.json hm hp hy hempty hover)
      · rw [hend, ok_bind, pure_eq] at hlen
        refine .toEnd (hlen.trans (congrArg Outcome.ok ?_))
        simp only [length_cons, length_append]
        omega
      · rw [he] at hlen
        exact .fails hlen
  · obtain ⟨p, hp, rfl⟩ := exists_path hm hp hr
    exact .cut (.jsonEscape hm hp)
  · have hscan : getInvertedIndexKeyLength (m :: r) = .error e := he
    rw [getJSONInvertedIndexKeyLength, hscan] at hlen
    exact .fails hlen

theorem peeked (b : Bytes) : Peeked b := by
  induction hn : b.length using Nat.strong_induction_on generalizing b with
  | h n ih =>
    subst hn
    cases b with
    | nil => exact .fails rfl
    | cons m r =>
      have hrec (c : Bytes) (hc : c.length ≤ r.length) : Peeked c :=
        ih c.length (Nat.lt_succ_of_le hc) c rfl
      cases hm : peekKind m with
      | single => exact .whole r (.single hm) rfl
      | bitArray t => exact peeked_bitArray hm
      | arrayKey dir => exact peeked_arrayKey hm hrec
      | bytes e => exact peeked_bytes hm
      | box2D => exact peeked_box2D hm
      | geoInverted => exact peeked_geoInverted hm
      | geo e => exact peeked_geo hm
      | json => exact peeked_json hm hrec
      | varints num => exact peeked_varints hm
      | float => exact peeked_float hm
      | int => exact peeked_int hm
      | decimal => exact peeked_decimal hm
      | unknown => exact .fails (by rw [peekLength_cons, peekBody, hm])

/-- The length is out of bounds exactly where the buffer ends within a value. -/
theorem outOfBounds_iff_overruns (b : Bytes) :
    OutOfBounds (peekLength b) b.length ↔ Overruns b := by
  refine ⟨fun h => ?_, Overruns.outOfBounds⟩
  have hnot {n : ℕ} (hle : n ≤ b.length) : peekLength b ≠ .ok n := by
    intro hn
    rw [hn] at h
    rcases h with h | ⟨k, hk, hlt⟩
    · cases h
    · obtain rfl := Outcome.ok.inj hk
      omega
  rcases peeked b with @⟨a, s, ha, rfl⟩ | hover | hend | @⟨e, he⟩
  · exact absurd (ha.peeks s) (hnot (by rw [length_append]; omega))
  · exact hover
  · exact absurd hend (hnot le_rfl)
  · rw [he] at h
    rcases h with h | ⟨n, hn, -⟩
    · cases h
    · cases hn

end Buffers

end Cockroach.Encoding
