import Cockroach.Storage.ScannerMoves

/-! Keys as blocks of records, and how a scan goes from one to the next. -/
namespace Cockroach.Storage
open ByteOrder Hlc List

/-- The records of one key in the order of the engine. -/
structure Block where
  key : Bytes
  records : List Entry
  ne_nil : records ≠ []
  key_eq : ∀ e ∈ records, e.key = key
  metadataFirst : Scanner.MetadataFirst records

namespace Block

variable {κ : Type*} (f : κ → Block)

def Sorted (bs : List κ) : Prop := bs.Pairwise fun a b => bytesCompare (f a).key (f b).key = .lt

def recordsOf (bs : List κ) : List Entry := bs.flatMap fun b => (f b).records

@[simp] theorem recordsOf_nil : recordsOf f [] = [] := rfl

theorem recordsOf_append (bs cs : List κ) :
    recordsOf f (bs ++ cs) = recordsOf f bs ++ recordsOf f cs :=
  flatMap_append

theorem recordsOf_cons (b : κ) (bs : List κ) :
    recordsOf f (b :: bs) = (f b).records ++ recordsOf f bs :=
  flatMap_cons

variable {f}

variable {bs : List κ}

theorem mem_recordsOf {e : Entry} : e ∈ recordsOf f bs ↔ ∃ b ∈ bs, e ∈ (f b).records :=
  mem_flatMap

theorem recordsOf_eq_nil : recordsOf f bs = [] ↔ bs = [] := by
  cases bs with
  | nil => simp
  | cons b bs => simp [recordsOf_cons, (f b).ne_nil]

open Scanner

variable {o : ScanOptions} {pre post rest : List κ} {b : κ} {s : Scanner} {i : ℕ}

theorem split_recordsOf (h : Sorted f (pre ++ b :: post)) :
    Split (recordsOf f (pre ++ b :: post)) (recordsOf f pre) (f b).records (recordsOf f post)
      (f b).key := by
  obtain ⟨-, hcons, hpre⟩ := pairwise_append.mp h
  have hpost := (pairwise_cons.mp hcons).1
  refine ⟨?_, ?_, (f b).key_eq, ?_, (f b).ne_nil⟩
  · rw [recordsOf_append, recordsOf_cons]
  · intro e he
    obtain ⟨a, ha, hea⟩ := mem_recordsOf.mp he
    rw [(f a).key_eq e hea]
    exact hpre a ha b mem_cons_self
  · intro e he
    obtain ⟨c, hc, hec⟩ := mem_recordsOf.mp he
    rw [(f c).key_eq e hec]
    exact hpost c hc

variable (f) in
/-- The scanner is at the first record of a key, with the keys `rest` still to be read. -/
def AtKey (o : ScanOptions) (bs : List κ) (s : Scanner) (b : κ) (rest : List κ) : Prop :=
  ∃ pre post, bs = pre ++ b :: post ∧ rest = (if o.reverse then pre.reverse else post) ∧
    At o (recordsOf f bs) s (recordsOf f pre).length

variable (f) in
/-- A step after which the output is `out` and the next one of the keys `rest` is read. -/
def Advances (o : ScanOptions) (bs : List κ) : List κ → Step → Output → Prop
  | [], r, out => r.1 = false ∧ r.2.output = out
  | b :: rest, r, out => r.1 = true ∧ AtKey f o bs r.2 b rest ∧ r.2.output = out

theorem advances_of_ends {r : Step} (h : Ends (recordsOf f bs) s r) :
    Advances f o bs [] r s.output := by
  obtain ⟨s', rfl, hmoved⟩ := h
  exact ⟨rfl, hmoved.output_eq⟩

variable (f) in
/-- The key `b` is being read, between the keys `pre` and `post`, with `rest` to be read later. -/
structure Reading (o : ScanOptions) (pre : List κ) (b : κ) (post rest : List κ) : Prop where
  sorted : Sorted f (pre ++ b :: post)
  inSpan : InSpan o (recordsOf f (pre ++ b :: post))
  rest_eq : rest = if o.reverse then pre.reverse else post
  isGet_rest : o.isGet = true → rest = []

namespace Reading

section

variable (h : Reading f o pre b post rest)
include h

theorem prevKeyFrom (hrev : o.reverse = true) (m : ℕ)
    (hat : At o (recordsOf f (pre ++ b :: post)) s ((recordsOf f pre).length + i))
    (hi : i ≤ (f b).records.length) :
    Advances f o (pre ++ b :: post) rest (Scanner.prevKeyFrom o (f b).key m s) s.output := by
  have hs := split_recordsOf h.sorted
  rw [h.rest_eq, if_pos hrev]
  rcases eq_nil_or_concat pre with rfl | ⟨pre', b', rfl⟩
  · have hat' : At o (recordsOf f ([] ++ b :: post)) s i := by
      simpa using hat
    exact advances_of_ends (prevKeyFrom_ends hrev hs m hat' hi)
  · have heq : pre'.concat b' ++ b :: post = pre' ++ b' :: (b :: post) := by
      simp
    have hs' := split_recordsOf (heq ▸ h.sorted)
    rw [← heq] at hs'
    have hA : recordsOf f (pre'.concat b') = recordsOf f pre' ++ (f b').records := by
      rw [concat_eq_append, recordsOf_append, recordsOf_cons, recordsOf_nil, append_nil]
    obtain ⟨s', hr, hat', hout⟩ := prevKeyFrom_reaches hrev hs hs' hA (f b').metadataFirst m hat hi
    rw [concat_eq_append, reverse_append, reverse_singleton, singleton_append]
    rw [hr]
    refine ⟨rfl, ⟨pre', b :: post, ?_, ?_, ?_⟩, hout⟩
    · rw [append_assoc, singleton_append]
    · rw [if_pos hrev]
    · rwa [concat_eq_append] at hat'

theorem of_goes (hrev : o.reverse = false) {r : Step}
    (hr : Goes (recordsOf f post ≠ []) o (recordsOf f (pre ++ b :: post)) s r
      ((recordsOf f pre).length + (f b).records.length)) :
    Advances f o (pre ++ b :: post) rest r s.output := by
  rw [h.rest_eq, if_neg (by simp [hrev])]
  cases post with
  | nil => exact advances_of_ends (hr.2 (by simp))
  | cons c post =>
    obtain ⟨s', rfl, hat, hout⟩ := hr.1 (by simp [recordsOf_cons, (f c).ne_nil])
    refine ⟨rfl, ⟨pre ++ [b], post, ?_, ?_, ?_⟩, hout⟩
    · simp
    · rw [if_neg (by simp [hrev])]
    · rw [recordsOf_append f pre [b], length_append, recordsOf_cons, recordsOf_nil, append_nil]
      exact hat

theorem advanceKey (hat : At o (recordsOf f (pre ++ b :: post)) s ((recordsOf f pre).length + i))
    (hi : i < (f b).records.length) :
    Advances f o (pre ++ b :: post) rest (s.advanceKey o) s.output := by
  have hs := split_recordsOf h.sorted
  have hkey := hs.key_of_lt hi hat.cur_eq
  unfold Scanner.advanceKey
  split_ifs with hget hrev
  · rw [h.isGet_rest hget]
    exact ⟨rfl, rfl⟩
  · rw [hkey]
    exact h.prevKeyFrom hrev _ hat hi.le
  · unfold Scanner.nextKey
    rw [hkey]
    exact h.of_goes (by simpa using hrev) (nextKeyFrom_spec h.inSpan hs _ hat hi)

theorem advanceKeyAtEnd (hpost : post = [])
    (hE : s.parent.entries = recordsOf f (pre ++ b :: post)) :
    Advances f o (pre ++ b :: post) rest (s.advanceKeyAtEnd o) s.output := by
  have hs := split_recordsOf h.sorted
  have hpos := length_pos_of_ne_nil (f b).ne_nil
  have hlen := hs.length
  unfold Scanner.advanceKeyAtEnd
  split_ifs with hrev
  · have hne : recordsOf f (pre ++ b :: post) ≠ [] := by
      rw [Ne, recordsOf_eq_nil]
      simp
    obtain ⟨s', hseek, hat, hout⟩ := (seekLT_at (o := o) (s := s) (Q := []) (k := ⟨o.stop, .empty⟩)
      hE (append_nil _).symm (h.inSpan.lt_stop hrev) (by simp)).1 hne
    rw [hseek]
    have hnil : (recordsOf f post).length = 0 := by
      rw [hpost, recordsOf_nil, length_nil]
    rw [hlen, hnil, add_zero, Nat.add_sub_assoc (by omega)] at hat
    rw [← hout]
    exact h.advanceKey hat (by omega)
  · rw [h.rest_eq, if_neg hrev, hpost]
    exact ⟨rfl, rfl⟩

theorem advanceKeyAtNewKey (hat : At o (recordsOf f (pre ++ b :: post)) s
      ((recordsOf f pre).length + (f b).records.length)) :
    Advances f o (pre ++ b :: post) rest (s.advanceKeyAtNewKey o (f b).key) s.output := by
  have hlen := (split_recordsOf h.sorted).length
  have hlt := hat.lt
  unfold Scanner.advanceKeyAtNewKey
  split_ifs with hrev
  · exact h.prevKeyFrom hrev _ hat le_rfl
  · refine h.of_goes (by simpa using hrev) ⟨fun _ => ⟨s, rfl, hat, rfl⟩, fun hnil => ?_⟩
    rw [not_not.mp hnil, length_nil] at hlen
    omega

end

end Reading

theorem advances_first (hbs : Sorted f bs) (hspan : InSpan o (recordsOf f bs))
    (hE : s.parent.entries = recordsOf f bs) (hp : s.peeked = false) :
    Advances f o bs (if o.reverse then bs.reverse else bs)
      (if o.reverse then s.iterSeekReverse o ⟨o.stop, .empty⟩
        else s.iterSeek o ⟨o.start, .empty⟩) s.output := by
  split_ifs with hrev
  · rcases eq_nil_or_concat bs with rfl | ⟨pre, b, rfl⟩
    · exact advances_of_ends (iterSeekReverse_ends hrev hE (by simp))
    · rw [concat_eq_append] at *
      have hs := split_recordsOf hbs
      have hbefore : ∀ e ∈ recordsOf f pre ++ (f b).records,
          Entry.before ⟨o.stop, .empty⟩ e = true := by
        intro e he
        refine hspan.lt_stop hrev e ?_
        rw [hs.eq]
        simpa using he
      obtain ⟨s', hr, hat, hout⟩ := iterSeekReverse_reaches hrev hs (f b).metadataFirst hE
        hbefore (by simp)
      rw [reverse_append, reverse_singleton, singleton_append, hr]
      exact ⟨rfl, ⟨pre, [], rfl, by rw [if_pos hrev], hat⟩, hout⟩
  · have hgoes := iterSeek_at (o := o) (s := s) (P := []) (Q := recordsOf f bs)
      (k := ⟨o.start, .empty⟩) hE (by simp [hp]) rfl (by simp)
      fun e he => hspan.start_le e (mem_of_mem_head? he)
    cases bs with
    | nil => exact advances_of_ends (hgoes.2 (by simp))
    | cons b post =>
      obtain ⟨s', hr, hat, hout⟩ := hgoes.1 (by simp [recordsOf_cons, (f b).ne_nil])
      rw [hr]
      exact ⟨rfl, ⟨[], post, rfl, by rw [if_neg hrev], hat⟩, hout⟩

end Block
end Cockroach.Storage
