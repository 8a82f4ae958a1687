import Cockroach.Storage.Blocks

/-! Where the search for a version of a key ends, with or without a check for uncertainty. -/
namespace Cockroach.Storage
open ByteOrder Hlc List

namespace Scanner

/-- The search does not go past this record once it is at or below the sought timestamp. -/
def halts (o : ScanOptions) (check : Bool) (e : Entry) : Bool :=
  check = false ∨ e.timestamp.LessEq o.ts ∨ o.uncertainty.isUncertain e.timestamp = true

/-- The steps before a seek also pass over what is above the sought timestamp. -/
def stops (o : ScanOptions) (check : Bool) (seekTS : Timestamp) (e : Entry) : Bool :=
  e.timestamp.LessEq seekTS ∧ halts o check e = true

/-- The current record is read, or fails the scan. -/
def conclude (o : ScanOptions) (check : Bool) (s : Scanner) : Step :=
  if check = false ∨ s.cur.timestamp.LessEq o.ts then s.addCurrent o
  else s.uncertaintyError o s.cur.timestamp

variable {κ : Type*} {f : κ → Block} {o : ScanOptions} {pre post rest : List κ} {b : κ}
  {s : Scanner} {i : ℕ} {check : Bool} {seekTS : Timestamp}

theorem ite_halts (cont : Step) :
    (if check = false ∨ s.cur.timestamp.LessEq o.ts then s.addCurrent o
      else if o.uncertainty.isUncertain s.cur.timestamp then
        s.uncertaintyError o s.cur.timestamp
      else cont) = if halts o check s.cur then s.conclude o check else cont := by
  unfold halts conclude
  by_cases h1 : check = false ∨ s.cur.timestamp.LessEq o.ts
  · rw [if_pos h1, if_pos h1, if_pos (by rcases h1 with h | h <;> simp [h])]
  · rw [not_or] at h1
    simp [h1]

/-- A search that ends at a record of the key, or without one at the next key. -/
def Concludes (f : κ → Block) (o : ScanOptions) (check : Bool) (pre : List κ) (b : κ)
    (post rest : List κ) (s : Scanner) (r : Step) : Option Entry → Prop
  | none => Block.Advances f o (pre ++ b :: post) rest r s.output
  | some e => ∃ s' i, At o (Block.recordsOf f (pre ++ b :: post)) s'
      ((Block.recordsOf f pre).length + i) ∧ (f b).records[i]? = some e ∧ s'.cur = e ∧
      s'.output = s.output ∧ r = s'.conclude o check

theorem Concludes.of_output {s₀ : Scanner} {r : Step} {target : Option Entry}
    (h : Concludes f o check pre b post rest s r target) (hout : s.output = s₀.output) :
    Concludes f o check pre b post rest s₀ r target := by
  cases target with
  | none =>
    unfold Concludes at *
    rwa [← hout]
  | some e =>
    obtain ⟨s', i, hat, he, hcur, hout', hr⟩ := h
    exact ⟨s', i, hat, he, hcur, hout'.trans hout, hr⟩

end Scanner

namespace Block.Reading
open Scanner

variable {κ : Type*} {f : κ → Block} {o : ScanOptions} {pre post rest : List κ} {b : κ}
  {s : Scanner} {i : ℕ} {check : Bool} {seekTS : Timestamp}

section

variable (h : Reading f o pre b post rest)
include h

section

variable (hat : At o (recordsOf f (pre ++ b :: post)) s ((recordsOf f pre).length + i))
include hat

theorem cur_of_lt (hi : i < (f b).records.length) : (f b).records[i]? = some s.cur := by
  rcases (split_recordsOf h.sorted).getElem hat.cur_eq with ⟨-, hB⟩ | ⟨hge, -⟩
  · exact hB
  · omega

theorem iterNext (hi : i < (f b).records.length) :
    (∃ s', s.iterNext o = (true, s') ∧ s'.output = s.output ∧
      s'.itersBeforeSeek = s.itersBeforeSeek ∧
      At o (recordsOf f (pre ++ b :: post)) s' ((recordsOf f pre).length + (i + 1))) ∨
    (∃ s', s.iterNext o = (false, s') ∧ i + 1 = (f b).records.length ∧
      Advances f o (pre ++ b :: post) rest (s'.advanceKeyAtEnd o) s.output) := by
  have hlen := (split_recordsOf h.sorted).length
  by_cases hlast : (recordsOf f pre).length + i + 1 < (recordsOf f (pre ++ b :: post)).length
  · obtain ⟨s', hnext, hat', hout, hiters⟩ := iterNext_at h.inSpan hat hlast
    exact .inl ⟨s', hnext, hout, hiters, hat'⟩
  · obtain ⟨s', hnext, hmoved⟩ := iterNext_end h.inSpan hat (by omega)
    have hpost : post = [] := by
      rw [← recordsOf_eq_nil (f := f)]
      exact eq_nil_of_length_eq_zero (by omega)
    refine .inr ⟨s', hnext, ?_, ?_⟩
    · omega
    · have hadv := h.advanceKeyAtEnd hpost hmoved.entries_eq
      rwa [hmoved.output_eq] at hadv

theorem seekVersionFrom {fuel : ℕ}
    (hi : i ≤ (f b).records.length) (hfuel : (f b).records.length - i < fuel) :
    Concludes f o check pre b post rest s (Scanner.seekVersionFrom o (f b).key check fuel s)
      (((f b).records.drop i).find? (halts o check)) := by
  have hs := split_recordsOf h.sorted
  induction fuel generalizing s i with
  | zero => omega
  | succ fuel ih =>
    rw [Scanner.seekVersionFrom]
    rcases hi.eq_or_lt with rfl | hlt
    · rw [if_pos (hs.key_ne_of_ge le_rfl hat.cur_eq), drop_length]
      exact h.advanceKeyAtNewKey hat
    have hcur := h.cur_of_lt hat hlt
    have hget : (f b).records[i] = s.cur := (List.getElem?_eq_some_iff.mp hcur).2
    rw [if_neg (not_not.mpr (hs.key_of_lt hlt hat.cur_eq)), ite_halts, drop_eq_getElem_cons hlt,
      hget]
    by_cases hhalts : halts o check s.cur = true
    · rw [if_pos hhalts, find?_cons_of_pos hhalts]
      exact ⟨s, i, hat, hcur, rfl, rfl, rfl⟩
    · rw [if_neg hhalts, find?_cons_of_neg hhalts]
      rcases h.iterNext hat hlt with ⟨s', hnext, hout, -, hat'⟩ | ⟨s', hnext, hlast, hadv⟩
      · rw [hnext]
        exact (ih hat' hlt (by omega)).of_output hout
      · rw [hnext, drop_of_length_le hlast.ge]
        exact hadv

end

/-- A seek takes the first record from the sought version on that halts the search. -/
theorem seekVersionAt {n : ℕ} (hat : At o (recordsOf f (pre ++ b :: post)) s n) :
    Concludes f o check pre b post rest s (s.seekVersionAt o (f b).key seekTS check)
      (((f b).records.dropWhile (Entry.before ⟨(f b).key, seekTS⟩)).find? (halts o check)) := by
  have hs := split_recordsOf h.sorted
  set passed := (f b).records.takeWhile (Entry.before ⟨(f b).key, seekTS⟩)
  set found := (f b).records.dropWhile (Entry.before ⟨(f b).key, seekTS⟩) with hfound
  have hB : (f b).records = passed ++ found := takeWhile_append_dropWhile.symm
  have hE : recordsOf f (pre ++ b :: post) =
      (recordsOf f pre ++ passed) ++ (found ++ recordsOf f post) := by
    rw [hs.eq, hB]
    simp
  have hbefore : ∀ e ∈ recordsOf f pre ++ passed, Entry.before ⟨(f b).key, seekTS⟩ e = true := by
    intro e he
    rcases mem_append.mp he with he | he
    · exact Entry.before_of_key_lt (hs.below e he)
    · exact mem_takeWhile_imp he
  have hafter : ∀ e ∈ (found ++ recordsOf f post).head?,
      Entry.before ⟨(f b).key, seekTS⟩ e = false := by
    intro e he
    by_cases hnil : found = []
    · rw [hnil] at he
      exact Entry.not_before_of_key_gt (hs.above e (mem_of_mem_head? he))
    · rw [head?_append_of_ne_nil _ hnil] at he
      have hhead := head?_dropWhile_not (Entry.before ⟨(f b).key, seekTS⟩) (f b).records
      rw [Option.mem_def.mp he] at hhead
      simpa using hhead
  have hgoes := iterSeek_at (o := o) (s := s.decrementItersBeforeSeek) (k := ⟨(f b).key, seekTS⟩)
    hat.entries_eq hat.reverse_of_peeked hE hbefore hafter
  have hlen : (f b).records.length = passed.length + found.length := by
    rw [hB, length_append]
  unfold Scanner.seekVersionAt
  by_cases hnil : found ++ recordsOf f post = []
  · obtain ⟨s', hseek, hmoved⟩ := hgoes.2 (not_not.mpr hnil)
    rw [append_eq_nil_iff, recordsOf_eq_nil] at hnil
    have hadv := h.advanceKeyAtEnd hnil.2 hmoved.entries_eq
    rw [hseek, hnil.1]
    rwa [hmoved.output_eq] at hadv
  · obtain ⟨s', hseek, hat', hout⟩ := hgoes.1 hnil
    rw [length_append] at hat'
    rw [hseek]
    have hdrop : (f b).records.drop passed.length = found := by
      rw [hB, drop_left]
    have hfuel : (f b).records.length - passed.length < s'.parent.entries.length + 1 := by
      rw [hat'.entries_eq, hs.length]
      omega
    have hfrom : Concludes f o check pre b post rest s' _ _ :=
      h.seekVersionFrom hat' (by omega) hfuel
    rw [hdrop] at hfrom
    exact hfrom.of_output hout

/-- The steps before a seek end at the first record that stops them, or the seek decides. -/
theorem seekVersionLoop (m : ℕ)
    (hat : At o (recordsOf f (pre ++ b :: post)) s ((recordsOf f pre).length + i))
    (hi : i < (f b).records.length) :
    Concludes f o check pre b post rest s (Scanner.seekVersionLoop o (f b).key seekTS check m i s)
        (((f b).records.drop (i + 1)).find? (stops o check seekTS)) ∨
      (0 < m → i < s.itersBeforeSeek →
        ∃ e ∈ (f b).records[i + 1]?, stops o check seekTS e = false) ∧
      Concludes f o check pre b post rest s (Scanner.seekVersionLoop o (f b).key seekTS check m i s)
        (((f b).records.dropWhile (Entry.before ⟨(f b).key, seekTS⟩)).find? (halts o check)) := by
  have hs := split_recordsOf h.sorted
  induction m generalizing s i with
  | zero => exact .inr ⟨fun hm => absurd hm (lt_irrefl 0), h.seekVersionAt hat⟩
  | succ m ih =>
    rw [Scanner.seekVersionLoop]
    by_cases hstep : i < s.itersBeforeSeek
    swap
    · rw [if_neg hstep]
      exact .inr ⟨fun _ hlt => absurd hlt hstep, h.seekVersionAt hat⟩
    rw [if_pos hstep]
    rcases h.iterNext hat hi with ⟨s', hnext, hout, -, hat'⟩ | ⟨s', hnext, hlast, hadv⟩
    swap
    · rw [hnext, drop_of_length_le hlast.ge]
      exact .inl hadv
    rw [hnext]
    dsimp only
    by_cases hi' : i + 1 < (f b).records.length
    swap
    · have hlast : i + 1 = (f b).records.length := by omega
      rw [if_pos (hs.key_ne_of_ge hlast.ge hat'.cur_eq), drop_of_length_le hlast.ge]
      rw [hlast] at hat'
      have hadv := h.advanceKeyAtNewKey hat'.increment
      rw [show s'.incrementItersBeforeSeek.output = _ from hout] at hadv
      exact .inl hadv
    have hcur := h.cur_of_lt hat' hi'
    have hget : (f b).records[i + 1] = s'.cur := (List.getElem?_eq_some_iff.mp hcur).2
    rw [if_neg (not_not.mpr (hs.key_of_lt hi' hat'.cur_eq)), drop_eq_getElem_cons hi', hget]
    by_cases hstops : stops o check seekTS s'.cur = true
    · obtain ⟨hle, hhalts⟩ := of_decide_eq_true hstops
      rw [if_pos hle, ite_halts, find?_cons_of_pos hstops,
        if_pos (show halts o check s'.incrementItersBeforeSeek.cur = true from hhalts)]
      exact .inl ⟨s'.incrementItersBeforeSeek, i + 1, hat'.increment, hcur, rfl, hout, rfl⟩
    · rw [find?_cons_of_neg hstops]
      rw [Bool.not_eq_true] at hstops
      have hpassed : ∃ e ∈ (f b).records[i + 1]?, stops o check seekTS e = false :=
        ⟨s'.cur, hcur, hstops⟩
      by_cases hle : s'.cur.timestamp.LessEq seekTS
      · have hhalts : ¬ halts o check s'.incrementItersBeforeSeek.cur = true := by
          intro hhalts
          exact of_decide_eq_false hstops ⟨hle, hhalts⟩
        rw [if_pos hle, ite_halts, if_neg hhalts]
        exact (ih hat'.increment hi').imp (·.of_output hout)
          fun hseek => ⟨fun _ _ => hpassed, hseek.2.of_output hout⟩
      · rw [if_neg hle]
        exact (ih hat' hi').imp (·.of_output hout)
          fun hseek => ⟨fun _ _ => hpassed, hseek.2.of_output hout⟩

theorem seekVersion (check : Bool) (seekTS : Timestamp)
    (hat : At o (recordsOf f (pre ++ b :: post)) s (recordsOf f pre).length) :
    Concludes f o check pre b post rest s (s.seekVersion o seekTS check)
        ((f b).records.tail.find? (stops o check seekTS)) ∨
      (∃ e ∈ (f b).records[1]?, stops o check seekTS e = false) ∧
      Concludes f o check pre b post rest s (s.seekVersion o seekTS check)
        (((f b).records.dropWhile (Entry.before ⟨(f b).key, seekTS⟩)).find? (halts o check)) := by
  have hpos := length_pos_of_ne_nil (f b).ne_nil
  have hkey := (split_recordsOf h.sorted).key_of_lt (i := 0) hpos hat.cur_eq
  unfold Scanner.seekVersion
  rw [hkey, ← drop_one]
  exact (h.seekVersionLoop (i := 0) maxItersBeforeSeek hat hpos).imp_right
    fun hseek => ⟨hseek.1 (by decide) s.iters_pos, hseek.2⟩

theorem seekVersion_one (check : Bool)
    (hat : At o (recordsOf f (pre ++ b :: post)) s (recordsOf f pre).length)
    (hiters : s.itersBeforeSeek = 1) {e : Entry} (he : (f b).records[1]? = some e)
    (hle : ¬ e.timestamp.LessEq seekTS) :
    Concludes f o check pre b post rest s (s.seekVersion o seekTS check)
      (((f b).records.dropWhile (Entry.before ⟨(f b).key, seekTS⟩)).find? (halts o check)) := by
  have hs := split_recordsOf h.sorted
  have hpos := length_pos_of_ne_nil (f b).ne_nil
  have hlt : 1 < (f b).records.length := (List.getElem?_eq_some_iff.mp he).1
  have hkey := hs.key_of_lt (i := 0) hpos hat.cur_eq
  unfold Scanner.seekVersion
  rw [hkey, show maxItersBeforeSeek = 8 + 1 + 1 from rfl, Scanner.seekVersionLoop,
    if_pos (by omega)]
  rcases h.iterNext (i := 0) hat hpos with ⟨s', hnext, hout, hiters', hat'⟩ | ⟨s', -, hlast, -⟩
  · have hcur : s'.cur = e := Option.some.inj ((h.cur_of_lt hat' hlt).symm.trans he)
    rw [hnext]
    dsimp only
    rw [if_neg (not_not.mpr (hs.key_of_lt hlt hat'.cur_eq)), hcur, if_neg hle,
      Scanner.seekVersionLoop, if_neg (by omega)]
    exact (h.seekVersionAt hat').of_output hout
  · omega

end

end Block.Reading
end Cockroach.Storage
