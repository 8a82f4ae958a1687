import Cockroach.Storage.MVCC

/-! The writes of a transaction to one key, and the searches for the latest one that counts. -/
namespace Cockroach.Storage
open ByteOrder Hlc Search List

/-- The sequence number lies in one of the ranges. -/
def SeqIgnored (seq : ℤ) (ignored : List IgnoredSeqNumRange) : Prop :=
  ∃ r ∈ ignored, r.start ≤ seq ∧ seq ≤ r.stop

instance (seq : ℤ) (ignored : List IgnoredSeqNumRange) : Decidable (SeqIgnored seq ignored) :=
  inferInstanceAs (Decidable (∃ r ∈ ignored, _))

/-- The ranges are sorted and do not overlap. -/
def SortedRanges (ignored : List IgnoredSeqNumRange) : Prop :=
  ignored.Pairwise fun a b => a.stop < b.start

variable {seq : ℤ}

theorem seqIsIgnoredFrom_iff {rs : List IgnoredSeqNumRange}
    (h : rs.Pairwise fun a b => b.stop < a.start) :
    seqIsIgnoredFrom seq rs = true ↔ ∃ r ∈ rs, r.start ≤ seq ∧ seq ≤ r.stop := by
  induction rs with
  | nil => simp [seqIsIgnoredFrom]
  | cons r rs ih =>
    obtain ⟨hr, hrs⟩ := pairwise_cons.mp h
    rw [seqIsIgnoredFrom]
    split_ifs with hstart hstop
    · rw [ih hrs, exists_mem_cons_iff]
      constructor
      · exact .inr
      · rintro (hr' | hr')
        · omega
        · exact hr'
    · refine iff_of_false (by simp) ?_
      rintro ⟨r', hr', -, hge⟩
      rcases mem_cons.mp hr' with rfl | hmem
      · omega
      · have hlt := hr r' hmem
        omega
    · exact iff_of_true rfl ⟨r, mem_cons_self, by omega, by omega⟩

variable {ignored : List IgnoredSeqNumRange}

theorem txnSeqIsIgnored_iff (h : SortedRanges ignored) :
    txnSeqIsIgnored seq ignored = true ↔ SeqIgnored seq ignored := by
  unfold txnSeqIsIgnored SeqIgnored
  rw [seqIsIgnoredFrom_iff (pairwise_reverse.mpr h)]
  simp

/-- The writes are listed with increasing sequence numbers. -/
def Sequenced (writes : List SequencedIntent) : Prop :=
  writes.Pairwise fun a b => a.sequence < b.sequence

/-- The write with the largest sequence number up to `seq` that is not ignored. -/
noncomputable def latestWrite (writes : List SequencedIntent) (seq : ℤ)
    (ignored : List IgnoredSeqNumRange) : Option SequencedIntent :=
  (writes.filter fun w => w.sequence ≤ seq ∧ ¬ SeqIgnored w.sequence ignored).argmax
    SequencedIntent.sequence

variable {writes : List SequencedIntent}

theorem Sequenced.argmax_eq (h : Sequenced writes) :
    writes.argmax SequencedIntent.sequence = writes.getLast? := by
  induction writes using List.reverseRecOn with
  | nil => rfl
  | append_singleton writes w ih =>
    obtain ⟨hw, -, hlt⟩ := pairwise_append.mp h
    rw [argmax_concat, ih hw, getLast?_concat]
    cases hlast : writes.getLast? with
    | none => rfl
    | some w' =>
      have hmem := mem_of_getLast? hlast
      exact if_pos (hlt w' hmem w (mem_singleton_self w))

theorem latestWrite_eq (h : Sequenced writes) (seq : ℤ) (ignored : List IgnoredSeqNumRange) :
    latestWrite writes seq ignored =
      (writes.filter fun w => w.sequence ≤ seq ∧ ¬ SeqIgnored w.sequence ignored).getLast? :=
  Sequenced.argmax_eq (h.filter _)

theorem latestWrite_eq_none : latestWrite writes seq ignored = none ↔
      ∀ w ∈ writes, w.sequence ≤ seq → SeqIgnored w.sequence ignored := by
  unfold latestWrite
  simp

variable {history : List SequencedIntent}

theorem lastNotIgnored_eq_none (h : lastNotIgnored ignored history = none) :
    ∀ e ∈ history, txnSeqIsIgnored e.sequence ignored = true := by
  induction history with
  | nil => simp
  | cons a rest ih =>
    rw [lastNotIgnored] at h
    split at h
    · cases h
    · rename_i hnone
      split_ifs at h with hignored
      intro e he
      rcases mem_cons.mp he with rfl | he'
      · exact hignored
      · exact ih hnone e he'

theorem lastNotIgnored_eq_some {before : List SequencedIntent} {e : SequencedIntent}
    (h : lastNotIgnored ignored history = some (before, e)) :
    ∃ after, history = before ++ e :: after ∧ txnSeqIsIgnored e.sequence ignored = false ∧
      ∀ e' ∈ after, txnSeqIsIgnored e'.sequence ignored = true := by
  induction history generalizing before e with
  | nil => cases h
  | cons a rest ih =>
    rw [lastNotIgnored] at h
    split at h
    · rename_i before' last hlast
      obtain ⟨rfl, rfl⟩ := Prod.mk.inj (Option.some.inj h)
      obtain ⟨after, rfl, hrest⟩ := ih hlast
      exact ⟨after, rfl, hrest⟩
    · rename_i hnone
      split_ifs at h with hignored
      obtain ⟨rfl, rfl⟩ := Prod.mk.inj (Option.some.inj h)
      exact ⟨rest, rfl, by simpa using hignored, lastNotIgnored_eq_none hnone⟩

theorem sequenceAt_eq {i : ℕ} (hi : i < history.length) :
    sequenceAt history i = history[i].sequence := by
  unfold sequenceAt
  rw [getD_eq_getElem _ _ hi]

theorem Sequenced.sequenceAt_le (h : Sequenced history) {i j : ℕ} (hij : i ≤ j)
    (hj : j < history.length) : sequenceAt history i ≤ sequenceAt history j := by
  rw [sequenceAt_eq (by omega), sequenceAt_eq hj]
  rcases hij.lt_or_eq with hlt | rfl
  · exact (pairwise_iff_getElem.mp h i j (by omega) hj hlt).le
  · exact le_rfl

variable {n : ℕ}

theorem Sequenced.search_spec (h : Sequenced history) (hn : n ≤ history.length) {above : ℤ → Bool}
    (hup : ∀ a b, a ≤ b → above a = true → above b = true) :
    (∀ w ∈ history.take (search n fun i => above (sequenceAt history i)),
        above w.sequence = false) ∧
      ∀ w ∈ (history.take n).drop (search n fun i => above (sequenceAt history i)),
        above w.sequence = true := by
  obtain ⟨hlow, hhigh⟩ := Search.search_spec (f := fun i => above (sequenceAt history i)) (n := n)
    fun a b hab hb => hup _ _ (h.sequenceAt_le hab (by omega))
  constructor
  · intro w hw
    obtain ⟨i, hi, rfl⟩ := mem_take_iff_getElem.mp hw
    rw [← sequenceAt_eq (by omega)]
    exact hlow i (by omega)
  · intro w hw
    obtain ⟨i, hi, rfl⟩ := mem_drop_iff_getElem.mp hw
    rw [length_take] at hi
    rw [getElem_take, ← sequenceAt_eq (by omega)]
    exact hhigh _ (by omega) (by omega)

theorem filter_take {α : Type*} {l : List α} {p q : α → Bool} {k : ℕ} (hk : k ≤ n)
    (hlow : ∀ w ∈ l.take k, p w = true) (hhigh : ∀ w ∈ (l.take n).drop k, p w = false) :
    (l.take n).filter (fun w => p w && q w) = (l.take k).filter q := by
  have hsplit : l.take n = l.take k ++ (l.take n).drop k := by
    have htake : l.take k = (l.take n).take k := by
      rw [take_take, min_eq_left hk]
    rw [htake, take_append_drop]
  rw [hsplit, filter_append]
  have hnil : ((l.take n).drop k).filter (fun w => p w && q w) = [] := by
    rw [filter_eq_nil_iff]
    intro w hw
    simp [hhigh w hw]
  rw [hnil, append_nil]
  apply filter_congr
  intro w hw
  simp [hlow w hw]

theorem skipIgnored_eq (m : MVCCMetadata) (ignored : List IgnoredSeqNumRange)
    (hn : n ≤ m.intentHistory.length) : Scanner.getFromIntentHistory.skipIgnored m ignored n =
      ((m.intentHistory.take n).filter fun w =>
        !txnSeqIsIgnored w.sequence ignored).getLast?.map SequencedIntent.value := by
  induction n with
  | zero => rfl
  | succ n ih =>
    have hlt : n < m.intentHistory.length := by omega
    rw [Scanner.getFromIntentHistory.skipIgnored, take_succ_eq_append_getElem hlt,
      filter_append, sequenceAt_eq hlt]
    split_ifs with hignored
    · rw [ih (by omega)]
      simp [hignored]
    · simp [hignored, getElem?_eq_getElem hlt]

theorem getFromIntentHistory_eq {m : MVCCMetadata} (h : Sequenced m.intentHistory) (seq : ℤ)
    (hignored : SortedRanges ignored) : Scanner.getFromIntentHistory m seq ignored =
      (latestWrite m.intentHistory seq ignored).map SequencedIntent.value := by
  have hup : ∀ a b : ℤ, a ≤ b → decide (a > seq) = true → decide (b > seq) = true := by
    intro a b hab ha
    simp only [decide_eq_true_eq] at ha ⊢
    omega
  obtain ⟨hlow, hhigh⟩ := h.search_spec le_rfl hup
  have hle := search_le m.intentHistory.length fun i => decide (sequenceAt m.intentHistory i > seq)
  unfold Scanner.getFromIntentHistory
  rw [skipIgnored_eq m ignored hle, latestWrite_eq h]
  congr 2
  rw [← filter_take (p := fun w => decide (w.sequence ≤ seq)) hle]
  · rw [take_length]
    apply filter_congr
    intro w _
    simp [← txnSeqIsIgnored_iff hignored]
  · intro w hw
    simpa using hlow w hw
  · intro w hw
    simpa using hhigh w hw

/-- The search of a put finds the latest write before its own in the history. -/
theorem prevIntentSeqBelow_eq (h : Sequenced history) (seq : ℤ)
    (ignored : List IgnoredSeqNumRange) {stop : ℕ} (hstop : stop ≤ history.length) :
    prevIntentSeqBelow history seq ignored stop = ((history.take stop).filter fun w =>
      decide (w.sequence < seq) && !txnSeqIsIgnored w.sequence ignored).getLast? := by
  have hup : ∀ a b : ℤ, a ≤ b → decide (a ≥ seq) = true → decide (b ≥ seq) = true := by
    intro a b hab ha
    simp only [decide_eq_true_eq] at ha ⊢
    omega
  induction stop using Nat.strong_induction_on with
  | _ stop ih =>
    obtain ⟨hlow, hhigh⟩ := h.search_spec hstop hup
    have hle := search_le stop fun i => decide (sequenceAt history i ≥ seq)
    have hfilter := filter_take (l := history) (p := fun w => decide (w.sequence < seq))
      (q := fun w => !txnSeqIsIgnored w.sequence ignored) hle (by simpa using hlow)
      (by simpa using hhigh)
    rw [prevIntentSeqBelow]
    dsimp only
    rw [hfilter]
    generalize (search stop fun i => decide (sequenceAt history i ≥ seq)) = k at *
    split_ifs with h0 hignored
    · simp [h0]
    · obtain ⟨k, rfl⟩ := Nat.exists_eq_succ_of_ne_zero h0
      have hk : k < history.length := by omega
      have hbelow : ∀ w ∈ history.take k, decide (w.sequence < seq) = true := by
        intro w hw
        have hw' := hlow w (take_subset_take_left history (Nat.le_succ k) hw)
        simpa using hw'
      have hsame := filter_take (l := history) (k := k) (n := k)
        (q := fun w => !txnSeqIsIgnored w.sequence ignored) le_rfl hbelow (by simp)
      simp only [Nat.succ_eq_add_one, Nat.add_sub_cancel] at hignored ⊢
      rw [sequenceAt_eq hk] at hignored
      rw [ih k (by omega) (by omega), hsame, take_succ_eq_append_getElem hk, filter_append]
      simp [hignored]
    · obtain ⟨k, rfl⟩ := Nat.exists_eq_succ_of_ne_zero h0
      have hk : k < history.length := by omega
      simp only [Nat.succ_eq_add_one, Nat.add_sub_cancel] at hignored ⊢
      rw [sequenceAt_eq hk] at hignored
      rw [take_succ_eq_append_getElem hk, filter_append]
      simp [hignored, getElem?_eq_getElem hk]

theorem getPrevIntentSeq_eq {m : MVCCMetadata} (h : Sequenced m.intentHistory) (seq : ℤ)
    (hignored : SortedRanges ignored) :
    m.getPrevIntentSeq seq ignored = latestWrite m.intentHistory (seq - 1) ignored := by
  unfold MVCCMetadata.getPrevIntentSeq
  rw [prevIntentSeqBelow_eq h seq ignored le_rfl, latestWrite_eq h, take_length]
  congr 1
  apply filter_congr
  intro w _
  rw [Bool.eq_iff_iff]
  simp only [Bool.and_eq_true, decide_eq_true_eq, Bool.not_eq_true', ← Bool.not_eq_true,
    txnSeqIsIgnored_iff hignored, Int.le_sub_one_iff]

end Cockroach.Storage
