import Cockroach.Storage.Scanner

/-! How the scanner moves between the records of a span. -/
namespace Cockroach.Storage
open ByteOrder Hlc List Option
open Entry (before)

theorem Entry.before_empty (k : Bytes) (e : Entry) :
    before ⟨k, .empty⟩ e = true ↔ bytesCompare e.key k = .lt := by
  unfold before Entry.key
  rw [decide_eq_true_eq, engineKeyCompare_encodeMVCCKey, Ordering.then_eq_lt]
  have hver : versionCompare e.mvccKey.timestamp .empty ≠ .lt := by
    unfold versionCompare
    split_ifs with h1 h2 h2 <;> simp_all [Timestamp.IsEmpty]
  simp [hver]

variable {e : Entry}

theorem Entry.before_version {k : Bytes} {ts : Timestamp} (hts : ¬ ts.IsEmpty) (hk : e.key = k) :
    before ⟨k, ts⟩ e = true ↔ e.timestamp.IsEmpty ∨ engineRank ts < engineRank e.timestamp := by
  unfold before
  rw [decide_eq_true_eq, engineKeyCompare_encodeMVCCKey,
    show bytesCompare e.mvccKey.key k = .eq from bytesCompare_eq_iff.mpr hk]
  change versionCompare e.timestamp ts = .lt ↔ _
  unfold versionCompare
  by_cases he : e.timestamp.IsEmpty
  · simp [he, hts]
  · simp [he, hts, Nat.compare_eq_lt]

theorem Entry.before_of_key_lt {k : MVCCKey} (h : bytesCompare e.key k.key = .lt) :
    before k e = true := by
  unfold before
  rw [engineKeyCompare_encodeMVCCKey, show bytesCompare e.mvccKey.key k.key = .lt from h]
  rfl

theorem Entry.not_before_of_key_gt {k : MVCCKey} (h : bytesCompare k.key e.key = .lt) :
    before k e = false := by
  unfold before
  rw [engineKeyCompare_encodeMVCCKey, ← bytesCompare_swap,
    show bytesCompare k.key e.mvccKey.key = .lt from h]
  simp

namespace Scanner

structure Output where
  results : List ScanResult
  intents : List (Bytes × MVCCMetadata)
  resumeReason : Option ResumeReason
  mostRecentTS : Timestamp
  err : Option ScanError
  bytes : ℕ
  resumeKey : Option Bytes
  resumeNextBytes : ℕ

def output (s : Scanner) : Output :=
  ⟨s.results, s.intents, s.resumeReason, s.mostRecentTS, s.err, s.bytes, s.resumeKey,
    s.resumeNextBytes⟩

/-- The scanner is at the record with index `n`. If it has peeked, the iterator is one record
further back. -/
structure At (o : ScanOptions) (E : List Entry) (s : Scanner) (n : ℕ) : Prop where
  entries_eq : s.parent.entries = E
  cur_eq : E[n]? = some s.cur
  pos_eq : s.parent.pos + s.peeked.toNat = n + 1
  reverse_of_peeked : s.peeked = true → o.reverse = true

/-- The records of the span lie within its bounds. -/
structure InSpan (o : ScanOptions) (E : List Entry) : Prop where
  start_le : ∀ e ∈ E, before ⟨o.start, .empty⟩ e = false
  lt_stop : o.reverse = true → ∀ e ∈ E, before ⟨o.stop, .empty⟩ e = true

variable {o : ScanOptions} {E : List Entry} {s : Scanner} {n : ℕ}

theorem At.lt (h : At o E s n) : n < E.length := by
  by_contra hge
  have hcur := h.cur_eq
  rw [getElem?_eq_none (by omega)] at hcur
  cases hcur

theorem updateCurrent_at (hE : s.parent.entries = E) (hpos : s.parent.pos = n + 1)
    (hpeeked : s.peeked = false) (hn : n < E.length) :
    ∃ s', updateCurrent s = (true, s') ∧ At o E s' n ∧ s'.output = s.output ∧
      s'.itersBeforeSeek = s.itersBeforeSeek := by
  have hcur : s.parent.current = some E[n] := by
    rw [Cursor.current_of_pos hpos, hE]
    exact getElem?_eq_getElem hn
  refine ⟨{ s with cur := E[n] }, ?_, ⟨hE, getElem?_eq_getElem hn, ?_, ?_⟩, rfl, rfl⟩
  · unfold updateCurrent
    rw [hcur]
  · simp [hpeeked, hpos]
  · simp [hpeeked]

theorem updateCurrent_none (hcur : s.parent.current = none) : updateCurrent s = (false, s) := by
  unfold updateCurrent
  rw [hcur]

/-- A state that differs from another one only in where it is. -/
structure Moved (E : List Entry) (s s' : Scanner) : Prop where
  entries_eq : s'.parent.entries = E
  output_eq : s'.output = s.output

/-- A move that goes on at the record with index `n`. -/
def Reaches (o : ScanOptions) (E : List Entry) (s : Scanner) (r : Step) (n : ℕ) : Prop :=
  ∃ s', r = (true, s') ∧ At o E s' n ∧ s'.output = s.output

/-- A move that finds no further record. -/
def Ends (E : List Entry) (s : Scanner) (r : Step) : Prop := ∃ s', r = (false, s') ∧ Moved E s s'

variable {s₀ : Scanner} {r : Step}

theorem Reaches.of_output (h : Reaches o E s r n) (hout : s.output = s₀.output) :
    Reaches o E s₀ r n := by
  obtain ⟨s', hr, hat, hs'⟩ := h
  exact ⟨s', hr, hat, hs'.trans hout⟩

theorem Ends.of_output (h : Ends E s r) (hout : s.output = s₀.output) : Ends E s₀ r := by
  obtain ⟨s', hr, hE, hs'⟩ := h
  exact ⟨s', hr, hE, hs'.trans hout⟩

/-- A move that goes on at the record with index `n` if there is more to read. -/
def Goes (more : Prop) (o : ScanOptions) (E : List Entry) (s : Scanner) (r : Step) (n : ℕ) :
    Prop :=
  (more → Reaches o E s r n) ∧ (¬ more → Ends E s r)

theorem Goes.of_output {more : Prop} (h : Goes more o E s r n) (hout : s.output = s₀.output) :
    Goes more o E s₀ r n :=
  ⟨fun hm => (h.1 hm).of_output hout, fun hm => (h.2 hm).of_output hout⟩

theorem At.increment (h : At o E s n) : At o E s.incrementItersBeforeSeek n :=
  ⟨h.entries_eq, h.cur_eq, h.pos_eq, h.reverse_of_peeked⟩

theorem At.decrement (h : At o E s n) : At o E s.decrementItersBeforeSeek n :=
  ⟨h.entries_eq, h.cur_eq, h.pos_eq, h.reverse_of_peeked⟩

/-- Whether the scanner has peeked or not, the iterator ends up one record further. -/
theorem iterNext_eq (hspan : InSpan o E) (h : At o E s n) :
    ∃ c : Cursor Entry, s.iterNext o = updateCurrent { s with peeked := false, parent := c } ∧
      c.entries = E ∧ c.pos = n + 2 := by
  have hn := h.lt
  obtain ⟨hE, hcur, hpos, hrev⟩ := h
  have hcurrent : ∀ {c : Cursor Entry} {i : ℕ}, c.entries = E → c.pos = i + 1 → i < E.length →
      ∃ e, c.current = some e := by
    intro c i hc hi hlt
    refine ⟨E[i], ?_⟩
    rw [Cursor.current_of_pos hi, hc]
    exact getElem?_eq_getElem hlt
  unfold iterNext
  cases hp : s.peeked with
  | false =>
    rw [hp, Bool.toNat_false] at hpos
    refine ⟨s.parent.next, by simp, hE, ?_⟩
    simp only [Cursor.next, hE]
    omega
  | true =>
    rw [hp, Bool.toNat_true] at hpos
    rw [hrev hp, Bool.and_true, if_pos rfl]
    dsimp only
    cases n with
    | zero =>
      -- The iterator is before the first record, and a seek brings it back.
      have hseek : (s.parent.seekGE (before ⟨o.start, .empty⟩)).pos = 0 + 1 := by
        simp only [Cursor.seekGE, hE]
        rw [← nil_append E, Cursor.length_takeWhile_append (by simp)]
        · rfl
        · intro x hx
          exact hspan.start_le x (mem_of_mem_head? hx)
      obtain ⟨e, he⟩ := hcurrent (c := s.parent.seekGE (before ⟨o.start, .empty⟩)) hE hseek hn
      refine ⟨(s.parent.seekGE (before ⟨o.start, .empty⟩)).next, ?_, hE, ?_⟩
      · rw [Cursor.current_of_pos_zero (by omega)]
        rw [he]
      · unfold Cursor.next
        dsimp only
        rw [show (s.parent.seekGE _).entries = E from hE]
        omega
    | succ n =>
      have hnext : s.parent.next.pos = n + 1 + 1 := by
        simp only [Cursor.next, hE]
        omega
      obtain ⟨e, he⟩ := hcurrent hE (show s.parent.pos = n + 1 by omega) (by omega)
      obtain ⟨e', he'⟩ := hcurrent (c := s.parent.next) hE hnext hn
      refine ⟨s.parent.next.next, ?_, hE, ?_⟩
      · rw [he]
        rw [he']
      · simp only [Cursor.next, hE] at hnext ⊢
        omega

theorem iterNext_at (hspan : InSpan o E) (h : At o E s n) (hn : n + 1 < E.length) :
    ∃ s', s.iterNext o = (true, s') ∧ At o E s' (n + 1) ∧ s'.output = s.output ∧
      s'.itersBeforeSeek = s.itersBeforeSeek := by
  obtain ⟨c, hc, hE, hpos⟩ := iterNext_eq hspan h
  rw [hc]
  exact updateCurrent_at hE hpos rfl hn

theorem iterNext_end (hspan : InSpan o E) (h : At o E s n) (hn : n + 1 = E.length) :
    Ends E s (s.iterNext o) := by
  obtain ⟨c, hc, hE, hpos⟩ := iterNext_eq hspan h
  have hcur : c.current = none := by
    rw [Cursor.current_of_pos hpos, hE]
    exact getElem?_eq_none (by omega)
  exact ⟨_, hc.trans (updateCurrent_none hcur), hE, rfl⟩

theorem iterPrev_at (h : At o E s (n + 1)) : Reaches o E s s.iterPrev n := by
  have hn := h.lt
  obtain ⟨hE, -, hpos, hrev⟩ := h
  have hstep : ∃ c : Cursor Entry,
      s.iterPrev = updateCurrent { s with peeked := false, parent := c } ∧
      c.entries = E ∧ c.pos = n + 1 := by
    unfold iterPrev
    cases hp : s.peeked with
    | false =>
      rw [hp, Bool.toNat_false] at hpos
      refine ⟨s.parent.prev, by simp, hE, ?_⟩
      simp only [Cursor.prev]
      omega
    | true =>
      rw [hp, Bool.toNat_true] at hpos
      exact ⟨s.parent, by simp, hE, by omega⟩
  obtain ⟨c, hc, hE', hpos'⟩ := hstep
  obtain ⟨s', hs', hat, hout, -⟩ := updateCurrent_at (o := o)
    (s := { s with peeked := false, parent := c }) hE' hpos' rfl (by omega)
  exact ⟨s', hc.trans hs', hat, hout⟩

theorem iterPeekPrev_at (hrev : o.reverse = true) (h : At o E s n) :
    ∃ s', s.iterPeekPrev = (if n = 0 then none else E[n - 1]?.map Entry.key, s') ∧ At o E s' n ∧
      s'.output = s.output := by
  obtain ⟨hE, hcur, hpos, -⟩ := h
  have hstep : ∃ s', s.iterPeekPrev = (s'.parent.current.map Entry.key, s') ∧
      s'.parent.entries = E ∧ s'.parent.pos = n ∧ s'.peeked = true ∧ s'.cur = s.cur ∧
      s'.output = s.output := by
    unfold iterPeekPrev
    cases hp : s.peeked with
    | false =>
      rw [hp, Bool.toNat_false] at hpos
      refine ⟨{ s with peeked := true, parent := s.parent.prev }, by simp, hE, ?_, rfl, rfl, rfl⟩
      simp only [Cursor.prev]
      omega
    | true =>
      rw [hp, Bool.toNat_true] at hpos
      exact ⟨s, by simp, hE, by omega, hp, rfl, rfl⟩
  obtain ⟨s', hs', hE', hpos', hpeeked, hcur', hout⟩ := hstep
  refine ⟨s', ?_, ⟨hE', hcur' ▸ hcur, by simp [hpeeked, hpos'], fun _ => hrev⟩, hout⟩
  rw [hs']
  cases n with
  | zero => rw [Cursor.current_of_pos_zero hpos', if_pos rfl, map_none]
  | succ n =>
    rw [Cursor.current_of_pos hpos', hE']
    rfl

theorem clearPeeked_eq (hp : s.peeked = true → o.reverse = true) :
    s.clearPeeked o = { s with peeked := false } := by
  unfold clearPeeked
  split_ifs with hrev
  · rfl
  · cases hs : s.peeked with
    | false => rw [← hs]
    | true => exact absurd (hp hs) hrev

theorem iterSeek_at {P Q : List Entry} {k : MVCCKey} (hE : s.parent.entries = E)
    (hp : s.peeked = true → o.reverse = true) (hsplit : E = P ++ Q)
    (hP : ∀ e ∈ P, before k e = true) (hQ : ∀ e ∈ Q.head?, before k e = false) :
    Goes (Q ≠ []) o E s (s.iterSeek o k) P.length := by
  have hpos : (s.parent.seekGE (before k)).pos = P.length + 1 := by
    simp only [Cursor.seekGE, hE, hsplit, Cursor.length_takeWhile_append hP hQ]
  unfold iterSeek
  rw [clearPeeked_eq hp]
  constructor
  · intro hne
    have hlen := length_pos_of_ne_nil hne
    obtain ⟨s', hs', hat, hout, -⟩ := updateCurrent_at (o := o) (n := P.length)
      (s := { s with peeked := false, parent := s.parent.seekGE (before k) }) hE hpos rfl
      (by rw [hsplit, length_append]; omega)
    exact ⟨s', hs', hat, hout⟩
  · intro hnil
    obtain rfl := not_not.mp hnil
    refine ⟨_, updateCurrent_none ?_, hE, rfl⟩
    rw [Cursor.current_of_pos hpos]
    change s.parent.entries[P.length]? = none
    rw [hE, hsplit, append_nil]
    exact getElem?_eq_none le_rfl

theorem seekLT_at {P Q : List Entry} {k : MVCCKey} (hE : s.parent.entries = E)
    (hsplit : E = P ++ Q) (hP : ∀ e ∈ P, before k e = true)
    (hQ : ∀ e ∈ Q.head?, before k e = false) :
    Goes (P ≠ []) o E s (updateCurrent { s with
      peeked := false, parent := s.parent.seekLT (before k) }) (P.length - 1) := by
  have hpos : (s.parent.seekLT (before k)).pos = P.length := by
    simp only [Cursor.seekLT, hE, hsplit, Cursor.length_takeWhile_append hP hQ]
  constructor
  · intro hne
    have hlen := length_pos_of_ne_nil hne
    obtain ⟨s', hs', hat, hout, -⟩ := updateCurrent_at (o := o) (n := P.length - 1)
      (s := { s with peeked := false, parent := s.parent.seekLT (before k) }) hE
      (hpos.trans (by omega)) rfl (by rw [hsplit, length_append]; omega)
    exact ⟨s', hs', hat, hout⟩
  · intro hnil
    obtain rfl := not_not.mp hnil
    exact ⟨_, updateCurrent_none (Cursor.current_of_pos_zero hpos), hE, rfl⟩

/-- The records of one key among those of the smaller and of the larger keys. -/
structure Split (E A B C : List Entry) (k : Bytes) : Prop where
  eq : E = A ++ (B ++ C)
  below : ∀ e ∈ A, bytesCompare e.key k = .lt
  here : ∀ e ∈ B, e.key = k
  above : ∀ e ∈ C, bytesCompare k e.key = .lt
  ne_nil : B ≠ []

variable {A B C : List Entry} {k : Bytes} {i : ℕ}

theorem Split.length (h : Split E A B C k) : E.length = A.length + B.length + C.length := by
  rw [h.eq]
  simp [add_assoc]

variable {e : Entry}

theorem Split.getElem (h : Split E A B C k) (he : E[A.length + i]? = some e) :
    (i < B.length ∧ B[i]? = some e) ∨ (B.length ≤ i ∧ e ∈ C) := by
  rw [h.eq, getElem?_append_right (by omega), Nat.add_sub_cancel_left] at he
  by_cases hi : i < B.length
  · rw [getElem?_append_left hi] at he
    exact .inl ⟨hi, he⟩
  · rw [getElem?_append_right (by omega)] at he
    exact .inr ⟨by omega, mem_of_getElem? he⟩

theorem Split.key_of_lt (h : Split E A B C k) (hi : i < B.length) (he : E[A.length + i]? = some e) :
    e.key = k := by
  rcases h.getElem he with ⟨-, hB⟩ | ⟨hge, -⟩
  · exact h.here e (mem_of_getElem? hB)
  · omega

theorem Split.key_ne_of_ge (h : Split E A B C k) (hi : B.length ≤ i)
    (he : E[A.length + i]? = some e) : e.key ≠ k := by
  rcases h.getElem he with ⟨hlt, -⟩ | ⟨-, hC⟩
  · omega
  · rintro rfl
    have hlt := h.above e hC
    rw [bytesCompare_self] at hlt
    cases hlt

theorem Split.iterSeek (hs : Split E A B C k) (h : At o E s n) :
    Reaches o E s (s.iterSeek o ⟨k, .empty⟩) A.length := by
  refine (iterSeek_at (Q := B ++ C) h.entries_eq h.reverse_of_peeked hs.eq ?_ ?_).1
    (by simp [hs.ne_nil])
  · intro e he
    exact Entry.before_of_key_lt (hs.below e he)
  · intro e he
    have hB : e ∈ B := by
      rw [head?_append_of_ne_nil _ hs.ne_nil] at he
      exact mem_of_mem_head? he
    rw [← Bool.not_eq_true, Entry.before_empty, hs.here e hB, bytesCompare_self]
    simp

theorem Split.iterSeek_next (hs : Split E A B C k) (h : At o E s n) :
    Goes (C ≠ []) o E s (s.iterSeek o ⟨k ++ [0], .empty⟩) (A.length + B.length) := by
  have hle : ∀ e ∈ A ++ B, bytesCompare e.key k ≠ .gt := by
    intro e he
    rcases mem_append.mp he with hA | hB
    · simp [hs.below e hA]
    · simp [hs.here e hB, bytesCompare_self]
  rw [← length_append]
  apply iterSeek_at h.entries_eq h.reverse_of_peeked (by rw [hs.eq, append_assoc])
  · intro e he
    rw [Entry.before_empty, bytesCompare_append_zero]
    exact hle e he
  · intro e he
    rw [← Bool.not_eq_true, Entry.before_empty, bytesCompare_append_zero, not_not,
      ← bytesCompare_swap, hs.above e (mem_of_mem_head? he)]
    rfl

theorem nextKeyFrom_spec (hspan : InSpan o E) (hs : Split E A B C k) (m : ℕ)
    (h : At o E s (A.length + i)) (hi : i < B.length) :
    Goes (C ≠ []) o E s (nextKeyFrom o k m s) (A.length + B.length) := by
  have hlen := hs.length
  induction m generalizing s i with
  | zero => exact (hs.iterSeek_next h.decrement).of_output rfl
  | succ m ih =>
    rw [nextKeyFrom]
    by_cases hlast : A.length + i + 1 < E.length
    · obtain ⟨s', hnext, hat, hout, -⟩ := iterNext_at hspan h hlast
      rw [hnext]
      dsimp only
      by_cases hi' : i + 1 < B.length
      · rw [if_neg (not_not.mpr (hs.key_of_lt hi' hat.cur_eq))]
        exact (ih hat hi').of_output hout
      · have hB : A.length + (i + 1) = A.length + B.length := by omega
        have hkey := hs.key_ne_of_ge (i := i + 1) (by omega) hat.cur_eq
        rw [if_pos hkey]
        refine ⟨fun _ => ⟨_, rfl, hB ▸ hat.increment, hout⟩, ?_⟩
        intro hC
        rw [not_not.mp hC, length_nil] at hlen
        omega
    · obtain ⟨s', hnext, hmoved⟩ := iterNext_end hspan h (by have := h.lt; omega)
      rw [hnext]
      refine ⟨fun hC => ?_, fun _ => ⟨s', rfl, hmoved⟩⟩
      have hpos := length_pos_of_ne_nil hC
      omega

theorem Split.peek (hs : Split E A B C k) (hi : i ≤ B.length) (hn : A.length + i = n + 1) :
    ∃ e, E[n]? = some e ∧ (0 < i → e.key = k) ∧ (i = 0 → e.key ≠ k) := by
  have hlen := hs.length
  have hlt : n < E.length := by
    omega
  refine ⟨E[n], getElem?_eq_getElem hlt, ?_, ?_⟩
  · intro hpos
    refine hs.key_of_lt (i := i - 1) (by omega) ?_
    rw [show A.length + (i - 1) = n by omega]
    exact getElem?_eq_getElem hlt
  · rintro rfl heq
    have hA : E[n] ∈ A := by
      have hget : E[n]? = A[n]? := by
        rw [hs.eq, getElem?_append_left (by omega)]
      rw [getElem?_eq_getElem hlt] at hget
      exact mem_of_getElem? hget.symm
    have hbelow := hs.below _ hA
    rw [heq, bytesCompare_self] at hbelow
    cases hbelow

theorem backwardLatestVersion_spec (hrev : o.reverse = true) (hs : Split E A B C k) (m : ℕ)
    (h : At o E s (A.length + i)) (hi : i ≤ B.length) :
    Reaches o E s (backwardLatestVersion o k m s) A.length := by
  induction m generalizing s i with
  | zero => exact (hs.iterSeek h.decrement).of_output rfl
  | succ m ih =>
    obtain ⟨s', hpeek, hat, hout⟩ := iterPeekPrev_at hrev h
    rw [backwardLatestVersion, hpeek]
    cases hn : A.length + i with
    | zero =>
      -- The first record of all.
      rw [hn] at hat
      refine ⟨s', rfl, ?_, hout⟩
      rwa [show A.length = 0 by omega]
    | succ n =>
      obtain ⟨e, he, hsame, hother⟩ := hs.peek hi hn
      rw [if_neg (by omega), Nat.add_sub_cancel, he]
      dsimp only [map_some]
      rcases Nat.eq_zero_or_pos i with rfl | hpos
      · rw [if_pos (hother rfl)]
        exact ⟨_, rfl, hat.increment, hout⟩
      · rw [if_neg (not_not.mpr (hsame hpos))]
        rw [hn] at hat
        obtain ⟨s'', hprev, hat', hout'⟩ := iterPrev_at hat
        rw [hprev]
        rw [show n = A.length + (i - 1) by omega] at hat'
        exact (ih hat' (by omega)).of_output (hout'.trans hout)

/-- Only the first record of a key may be its metadata. -/
def MetadataFirst (B : List Entry) : Prop := ∀ i e, B[i]? = some e → e.timestamp.IsEmpty → i = 0

variable {k' : Bytes}

theorem iterSeekReverse_reaches (hrev : o.reverse = true) (hs : Split E A B C k)
    (hmeta : MetadataFirst B) (hE : s.parent.entries = E)
    (hbefore : ∀ e ∈ A ++ B, before ⟨k', .empty⟩ e = true)
    (hC : ∀ e ∈ C.head?, before ⟨k', .empty⟩ e = false) :
    Reaches o E s (s.iterSeekReverse o ⟨k', .empty⟩) A.length := by
  have hne : A ++ B ≠ [] := by
    simp [hs.ne_nil]
  have hlen := length_pos_of_ne_nil hs.ne_nil
  obtain ⟨s', hseek, hat, hout⟩ := (seekLT_at (o := o) (s := s) hE (by rw [hs.eq, append_assoc])
    hbefore hC).1 hne
  rw [length_append, Nat.add_sub_assoc (by omega)] at hat
  unfold iterSeekReverse
  rw [clearPeeked_eq fun _ => hrev]
  dsimp only
  rw [hseek]
  dsimp only
  rcases hs.getElem hat.cur_eq with ⟨hlt, hB⟩ | ⟨hge, -⟩
  · split_ifs with hempty
    · have hfirst := hmeta _ _ hB hempty
      refine ⟨s', rfl, ?_, hout⟩
      rwa [hfirst] at hat
    · rw [hs.key_of_lt hlt hat.cur_eq]
      exact (backwardLatestVersion_spec hrev hs _ hat hlt.le).of_output hout
  · omega

theorem iterSeekReverse_ends (hrev : o.reverse = true) (hE : s.parent.entries = E)
    (hhead : ∀ e ∈ E.head?, before ⟨k', .empty⟩ e = false) :
    Ends E s (s.iterSeekReverse o ⟨k', .empty⟩) := by
  obtain ⟨s', hseek, hmoved⟩ := (seekLT_at (o := o) (s := s) (P := []) hE (nil_append E).symm
    (by simp) hhead).2 (by simp)
  unfold iterSeekReverse
  rw [clearPeeked_eq fun _ => hrev]
  dsimp only
  rw [hseek]
  exact ⟨s', rfl, hmoved⟩

theorem prevKeyFrom_reaches (hrev : o.reverse = true) (hs : Split E A B C k) {A' B' : List Entry}
    (hs' : Split E A' B' (B ++ C) k') (hA : A = A' ++ B') (hmeta : MetadataFirst B') (m : ℕ)
    (h : At o E s (A.length + i)) (hi : i ≤ B.length) :
    Reaches o E s (prevKeyFrom o k m s) A'.length := by
  induction m generalizing s i with
  | zero =>
    refine (iterSeekReverse_reaches (s := s.decrementItersBeforeSeek) hrev hs' hmeta h.entries_eq
      ?_ ?_).of_output rfl
    · intro e he
      exact Entry.before_of_key_lt (hs.below e (hA ▸ he))
    · intro e he
      rw [head?_append_of_ne_nil _ hs.ne_nil] at he
      rw [← Bool.not_eq_true, Entry.before_empty, hs.here e (mem_of_mem_head? he),
        bytesCompare_self]
      simp
  | succ m ih =>
    obtain ⟨s', hpeek, hat, hout⟩ := iterPeekPrev_at hrev h
    have hpos := length_pos_of_ne_nil hs'.ne_nil
    have hlen : A.length = A'.length + B'.length := by
      rw [hA, length_append]
    rw [prevKeyFrom, hpeek, if_neg (by omega)]
    obtain ⟨e, he, hsame, hother⟩ := hs.peek (n := A.length + i - 1) hi (by omega)
    rw [he]
    dsimp only [map_some]
    rcases Nat.eq_zero_or_pos i with rfl | hi0
    · rw [if_pos (hother rfl)]
      have hkey : e.key = k' := by
        refine hs'.key_of_lt (i := B'.length - 1) (by omega) ?_
        rwa [show A'.length + (B'.length - 1) = A.length + 0 - 1 by omega]
      rw [hkey]
      -- The scanner still is at the first record of the key that it leaves.
      rw [hlen] at hat
      exact (backwardLatestVersion_spec hrev hs' m hat le_rfl).of_output hout
    · rw [if_neg (not_not.mpr (hsame hi0))]
      rw [show A.length + i = A.length + (i - 1) + 1 by omega] at hat
      obtain ⟨s'', hprev, hat', hout'⟩ := iterPrev_at hat
      rw [hprev]
      exact (ih hat' (by omega)).of_output (hout'.trans hout)

theorem prevKeyFrom_ends (hrev : o.reverse = true) (hs : Split E [] B C k) (m : ℕ)
    (h : At o E s i) (hi : i ≤ B.length) : Ends E s (prevKeyFrom o k m s) := by
  induction m generalizing s i with
  | zero =>
    refine (iterSeekReverse_ends (s := s.decrementItersBeforeSeek) hrev h.entries_eq ?_).of_output
      rfl
    intro e he
    rw [hs.eq, nil_append, head?_append_of_ne_nil _ hs.ne_nil] at he
    rw [← Bool.not_eq_true, Entry.before_empty, hs.here e (mem_of_mem_head? he), bytesCompare_self]
    simp
  | succ m ih =>
    obtain ⟨s', hpeek, hat, hout⟩ := iterPeekPrev_at hrev h
    rw [prevKeyFrom, hpeek]
    cases i with
    | zero => exact ⟨s', rfl, hat.entries_eq, hout⟩
    | succ i =>
      obtain ⟨e, he, hsame, -⟩ := hs.peek (n := i) hi (by simp)
      rw [if_neg (by omega), Nat.add_sub_cancel, he]
      dsimp only [map_some]
      rw [if_neg (not_not.mpr (hsame (by omega)))]
      obtain ⟨s'', hprev, hat', hout'⟩ := iterPrev_at hat
      rw [hprev]
      exact (ih hat' (by omega)).of_output (hout'.trans hout)

end Scanner
end Cockroach.Storage
