import Cockroach.TsCache.Coverage

/-! Runs of the timestamp cache: a read that was added is never forgotten, as long as its keys are
not cut off and no timestamp overflows. -/
namespace Cockroach.TsCache
open ByteOrder Hlc CacheValue List Option
open List (replicate reverse)

namespace SklImpl

inductive Call where
  | add (start stop : Bytes) (ts : Timestamp) (txnID : Option ℕ) (attempts : List Attempt)
  | getMax (start stop : Bytes) (allocs : List (List Bool))

def Call.apply : Call → IntervalSkl → Option IntervalSkl
  | add start stop ts txnID attempts, s => SklImpl.add start stop ts txnID attempts s
  | getMax start stop allocs, s => some (SklImpl.getMax start stop allocs s).2

/-- The cache after some calls, if none of them panics. -/
def run (calls : List Call) (s : IntervalSkl) : Option IntervalSkl :=
  calls.foldlM (fun s call => call.apply s) s

/-- The call adds no timestamp that is too late to be compressed. -/
def Call.Fits : Call → Prop
  | add _ _ ts _ _ => Compressible ts
  | getMax _ _ _ => True

instance : (call : Call) → Decidable call.Fits
  | .add _ _ ts _ _ => inferInstanceAs (Decidable (Compressible ts))
  | .getMax _ _ _ => inferInstanceAs (Decidable True)

/-- The keys of a span, which is only its start if it has no end. -/
def InSpan (start stop k : Bytes) : Prop :=
  if stop = [] then k = start else start ≤ k ∧ k < stop

/-- The keys of the span are short enough, or cutting them off only adds keys: a single key is not
cut off, and the end is not cut off to a string of the largest bytes. -/
def KeepsKeys (start stop : Bytes) : Prop :=
  if stop = [] then start.length ≤ maxKeySize
  else stop.length ≤ maxKeySize ∨ ∃ x ∈ stop.take maxKeySize, x ≠ 255

instance (start stop k : Bytes) : Decidable (InSpan start stop k) :=
  inferInstanceAs (Decidable (if stop = [] then k = start else start ≤ k ∧ k < stop))

instance (start stop : Bytes) : Decidable (KeepsKeys start stop) :=
  inferInstanceAs (Decidable (if stop = [] then start.length ≤ maxKeySize
    else stop.length ≤ maxKeySize ∨ ∃ x ∈ stop.take maxKeySize, x ≠ 255))

theorem lt_prefixEnd {b : Bytes} (h : ∃ x ∈ b, x ≠ 255) (r : Bytes) : b ++ r < prefixEnd b := by
  obtain ⟨x, hx, hne⟩ := h
  have hb : b ≠ [] := ne_nil_of_mem hx
  have hdrop : b.reverse.dropWhile (fun x => x = 255) ≠ [] := by
    rw [ne_eq, dropWhile_eq_nil_iff]
    intro hall
    exact hne (by simpa using hall x (mem_reverse.mpr hx))
  have hlast := head_dropWhile_not (fun x : UInt8 => decide (x = 255)) hdrop
  have happend := takeWhile_append_dropWhile (p := fun x : UInt8 => decide (x = 255))
    (l := b.reverse)
  unfold prefixEnd
  rw [if_neg hb]
  rcases hr : b.reverse.dropWhile (fun x => decide (x = 255)) with _ | ⟨y, rest⟩
  · exact absurd hr hdrop
  · dsimp only
    rw [hr] at happend
    have hy : y ≠ 255 := by
      simpa [hr] using hlast
    generalize b.reverse.takeWhile (fun x => decide (x = 255)) = t at happend
    have hsplit := congrArg reverse happend
    rw [reverse_append, reverse_cons, reverse_reverse, append_assoc] at hsplit
    have hnext : DiffLt ([y] ++ t.reverse ++ r) [y + 1] := by
      left
      have hlt := y.toNat_lt
      have hne' : y.toNat ≠ 255 := fun h => hy (UInt8.toNat_inj.mp h)
      rw [UInt8.toNat_add, UInt8.toNat_one]
      omega
    rw [← bytesCompare_lt_iff, ← hsplit, reverse_cons, append_assoc]
    exact (hnext.append_left rest.reverse).bytesCompare_eq

theorem take_le (b : Bytes) (n : ℕ) : b.take n ≤ b := by
  conv_rhs => rw [← take_append_drop n b]
  exact le_append_left

variable {start stop : Bytes}

theorem inRange_boundKeyLengths {k : Bytes} (hkeys : KeepsKeys start stop)
    (hk : InSpan start stop k) :
    ((boundKeyLengths start stop).2 = [] ∧ k = (boundKeyLengths start stop).1) ∨
      (boundKeyLengths start stop).2 ≠ [] ∧
        InRange (some (boundKeyLengths start stop).1) (some (boundKeyLengths start stop).2)
          ⟨false, true⟩ k := by
  unfold boundKeyLengths
  unfold KeepsKeys at hkeys
  unfold InSpan at hk
  dsimp only
  by_cases hstop : stop = []
  · rw [if_pos hstop] at hkeys hk
    left
    rw [hstop, if_neg (by simp), if_neg (by omega)]
    exact ⟨rfl, hk⟩
  · rw [if_neg hstop] at hkeys hk
    right
    have hstart : (if start.length > maxKeySize then start.take maxKeySize else start) ≤ start := by
      split_ifs
      · exact take_le start _
      · exact le_rfl
    have hend : stop ≤ if stop.length > maxKeySize then prefixEnd (stop.take maxKeySize)
        else stop := by
      split_ifs with hlong
      · have hlt := lt_prefixEnd (hkeys.resolve_left (by omega)) (stop.drop maxKeySize)
        rw [take_append_drop] at hlt
        exact hlt.le
      · exact le_rfl
    have hlt := hk.2.trans_le hend
    refine ⟨fun hnil => ?_, ?_, ?_⟩
    · rw [hnil] at hlt
      exact absurd hlt (not_lt_nil k)
    · rcases (hstart.trans hk.1).lt_or_eq with h | h
      · exact .inl h
      · exact .inr ⟨h.symm, rfl⟩
    · rintro _ ⟨⟩
      exact .inl hlt

variable {s s' : IntervalSkl}

theorem add_spec {ts : Timestamp} {txnID : Option ℕ} {attempts : List Attempt} (h : s.Sound)
    (hts : Compressible ts) (hr : add start stop ts txnID attempts s = some s') :
    s.Keeps s' ∧ (KeepsKeys start stop → ∀ k, InSpan start stop k → s'.Covered k ⟨ts, txnID⟩) := by
  unfold add at hr
  dsimp only at hr
  split_ifs at hr with hstop
  · obtain ⟨hkeeps, hrange⟩ := IntervalSkl.addRangeAt_spec h hts hr
    refine ⟨hkeeps, fun hkeys k hk => ?_⟩
    rcases inRange_boundKeyLengths hkeys hk with ⟨-, rfl⟩ | ⟨hne, -⟩
    · exact hrange _ ⟨rfl, rfl⟩
    · exact absurd hstop hne
  · obtain ⟨hkeeps, hrange⟩ := IntervalSkl.addRangeAt_spec h hts hr
    refine ⟨hkeeps, fun hkeys k hk => ?_⟩
    rcases inRange_boundKeyLengths hkeys hk with ⟨heq, -⟩ | ⟨-, hin⟩
    · exact absurd heq hstop
    · exact hrange k hin

theorem getMax_spec (h : s.Sound) (allocs : List (List Bool)) :
    s.Keeps (getMax start stop allocs s).2 ∧ ∀ k v, s.Covered k v → InSpan start stop k →
      v ≤ (getMax start stop allocs s).1 := by
  unfold getMax InSpan
  split_ifs with hstop
  · obtain ⟨hkeeps, hle⟩ := IntervalSkl.lookupTimestampRange_spec h allocs
    refine ⟨hkeeps, fun k v hcov hk => hle k v hcov ⟨congrArg some hk.symm, rfl⟩⟩
  · obtain ⟨hkeeps, hle⟩ := IntervalSkl.lookupTimestampRange_spec h allocs
    refine ⟨hkeeps, fun k v hcov hk => hle k v hcov ⟨?_, ?_⟩⟩
    · rcases hk.1.lt_or_eq with hlt | heq
      · exact .inl hlt
      · exact .inr ⟨heq.symm, rfl⟩
    · rintro _ ⟨⟩
      exact .inl hk.2

theorem sound_clear (lowWater : Timestamp) : (clear lowWater).Sound := by
  refine ⟨fun p hp => ?_, pairwise_singleton _ _⟩
  rw [mem_singleton.mp hp]
  exact ⟨List.Pairwise.nil, by simp [clear]⟩

theorem apply_keeps {call : Call} (h : s.Sound) (hcall : call.Fits) (hr : call.apply s = some s') :
    s.Keeps s' := by
  cases call with
  | add start stop ts txnID attempts => exact (add_spec h hcall hr).1
  | getMax start stop allocs =>
    cases hr
    exact (getMax_spec h allocs).1

theorem run_spec {calls : List Call} (h : s.Sound) (hcalls : ∀ call ∈ calls, call.Fits)
    (hr : run calls s = some s') :
    s.Keeps s' ∧ ∀ start stop ts txnID attempts, Call.add start stop ts txnID attempts ∈ calls →
      KeepsKeys start stop → ∀ k, InSpan start stop k → s'.Covered k ⟨ts, txnID⟩ := by
  induction calls generalizing s with
  | nil =>
    cases hr
    exact ⟨.refl h, by simp⟩
  | cons call calls ih =>
    obtain ⟨hcall, hcalls'⟩ := forall_mem_cons.mp hcalls
    obtain ⟨u, hu, hr⟩ := bind_eq_some_iff.mp hr
    have hkeeps := apply_keeps h hcall hu
    obtain ⟨hrest, hadded⟩ := ih hkeeps.sound hcalls' hr
    refine ⟨hkeeps.trans hrest, fun start stop ts txnID attempts hmem hkeys k hk => ?_⟩
    rcases mem_cons.mp hmem with rfl | hmem
    · exact hrest.covered k _ ((add_spec h hcall hu).2 hkeys k hk)
    · exact hadded start stop ts txnID attempts hmem hkeys k hk

/-- In a run whose timestamps can be compressed, a lookup of a key that was added with its span
returns no earlier timestamp, and no owner if transactions share it. -/
theorem getMax_covers_reads {lowWater : Timestamp} {calls : List Call} {s : IntervalSkl}
    (hrun : run calls (clear lowWater) = some s) (hcalls : ∀ call ∈ calls, call.Fits)
    {start stop : Bytes} {ts : Timestamp} {txnID : Option ℕ} {attempts : List Attempt}
    (hadd : Call.add start stop ts txnID attempts ∈ calls) (hkeys : KeepsKeys start stop)
    {start' stop' k : Bytes} (hk : InSpan start stop k) (hk' : InSpan start' stop' k)
    (allocs : List (List Bool)) : ts.LessEq (getMax start' stop' allocs s).1.ts ∧
      ((getMax start' stop' allocs s).1.ts.EqOrdering ts → ∀ start₂ stop₂ ts₂ txnID₂ attempts₂ k₂,
          Call.add start₂ stop₂ ts₂ txnID₂ attempts₂ ∈ calls → KeepsKeys start₂ stop₂ →
          InSpan start₂ stop₂ k₂ → InSpan start' stop' k₂ → ts₂.EqOrdering ts → txnID₂ ≠ txnID →
          (getMax start' stop' allocs s).1.txnID = none) := by
  obtain ⟨hkeeps, hcovered⟩ := run_spec (sound_clear lowWater) hcalls hrun
  obtain ⟨-, hfound⟩ := @getMax_spec start' stop' s hkeeps.sound allocs
  have hle := hfound k _ (hcovered start stop ts txnID attempts hadd hkeys k hk) hk'
  have hticks := @ticks_le_of_le ⟨ts, txnID⟩ _ hle
  refine ⟨(Timestamp.lessEq_iff _ _).mpr hticks, ?_⟩
  intro heq start₂ stop₂ ts₂ txnID₂ attempts₂ k₂ hadd₂ hkeys₂ hk₂ hk₂' hts hne
  have hle₂ := hfound k₂ _ (hcovered start₂ stop₂ ts₂ txnID₂ attempts₂ hadd₂ hkeys₂ k₂ hk₂) hk₂'
  rw [Timestamp.eqOrdering_iff] at heq hts
  rcases hle with hlt | ⟨-, -, howner⟩
  · exact absurd hlt (by change ¬ ts.ticks < _; omega)
  rcases hle₂ with hlt | ⟨-, -, howner₂⟩
  · exact absurd hlt (by change ¬ ts₂.ticks < _; omega)
  rcases howner with hnone | howner
  · exact hnone
  · rcases howner₂ with hnone | howner₂
    · exact hnone
    · exact absurd (howner₂.symm.trans howner) hne

def sampleTime (n : ℕ) (h : n < 2 ^ 63) : Timestamp := ⟨n, 0, false, h, Timestamp.zero_lt_logical⟩

def time5 : Timestamp := .ofNanos 5

def time9 : Timestamp := .ofNanos 9

/-- Two transactions read a key at the same time; the second read fills the page. -/
def sampleCalls : List Call :=
  [.add [1] [] time5 (some 1) [⟨[], .empty⟩],
    .add [0] [2] time5 (some 2) [⟨[false], .empty⟩, ⟨[], .empty⟩]]

theorem getMax_covers_reads_sampleCalls :
    ∃ s, run sampleCalls (clear .empty) = some s ∧ time5.LessEq (getMax [1] [] [] s).1.ts ∧
      ((getMax [1] [] [] s).1.ts.EqOrdering time5 → (getMax [1] [] [] s).1.txnID = none) := by
  obtain ⟨s, hs⟩ := isSome_iff_exists.mp
    (by decide +kernel : (run sampleCalls (clear .empty)).isSome = true)
  have hcovers := getMax_covers_reads hs (by decide +kernel) mem_cons_self (by decide)
    (by decide : InSpan [1] [] [1]) (by decide : InSpan [1] [] [1]) []
  refine ⟨s, hs, hcovers.1, fun heq => ?_⟩
  exact hcovers.2 heq [0] [2] time5 (some 2) _ [1] (mem_cons_of_mem _ mem_cons_self)
    (by decide) (by decide) (by decide) (by decide) (by decide)

section CutOff

theorem ratchetValue_zero_zero : ratchetValue zero zero = (zero, false) := by decide

theorem ratchetValue_zero_read :
    ratchetValue zero ⟨time5, some 1⟩ = (⟨time5, some 1⟩, true) := by decide

theorem ratchetValue_read_zero :
    ratchetValue ⟨time5, some 1⟩ zero = (⟨time5, some 1⟩, false) := by decide

theorem stored_zero : stored zero = zero := by decide

theorem stored_read : stored ⟨time5, some 1⟩ = ⟨time5, some 1⟩ := by decide

-- A call on a small cache is computed for any key.
attribute [local simp] IntervalSkl.addRangeAt IntervalSkl.addRangeLoop IntervalSkl.addRange
  SklPage.addRange SklPage.addStop SklPage.addStart addNode clear incomingGapVal prevInitNode scanTo
  bytesCompare_self SklPage.arena Arena.alloc Arena.ratchetMaxTimestamp RangeOptions.none
  ratchetValue_zero_zero ratchetValue_zero_read ratchetValue_read_zero stored_zero stored_read
  ensureInitialized GapMap.insertNode updateNode ratchetValueSet compareStop SklPage.ofArena
  IntervalSkl.lookupTimestampRange IntervalSkl.lookupPages SklPage.lookupTimestampRange
  SklPage.search maxInRange

/-- The cache after a single read of a key. -/
def readOnce (k : Bytes) : IntervalSkl :=
  ⟨⟨[⟨k, ⟨time5, some 1⟩, zero, true, false⟩],
    RatchetingTime.ratchet ⟨0, Timestamp.zero_lt_wallTime⟩ time5, false⟩, [], .empty⟩

theorem addRangeAt_readOnce (k : Bytes) :
    (clear .empty).addRangeAt none (some k) .none ⟨time5, some 1⟩ [⟨[], .empty⟩] =
      some (readOnce k) := by
  have hfloor : ¬ time5.Less .empty := by decide
  simp [hfloor, readOnce]

variable {k : Bytes}

theorem lookup_readOnce {k' : Bytes} (h : k < k') :
    ((readOnce k).lookupTimestampRange none (some k') .none []).1 = zero := by
  have hlt := bytesCompare_lt_iff.mpr h
  simp [readOnce, hlt, h]
  rfl

/-- The cache after a read of the keys from `[1]` up to one. -/
def readUpTo (k : Bytes) : IntervalSkl :=
  ⟨⟨[⟨[1], ⟨time5, some 1⟩, ⟨time5, some 1⟩, true, false⟩, ⟨k, zero, zero, true, false⟩],
    RatchetingTime.ratchet ⟨0, Timestamp.zero_lt_wallTime⟩ time5, false⟩, [], .empty⟩

theorem addRangeAt_readUpTo (h : [1] < k) :
    (clear .empty).addRangeAt (some [1]) (some k) ⟨false, true⟩ ⟨time5, some 1⟩ [⟨[], .empty⟩] =
      some (readUpTo k) := by
  have hfloor : ¬ time5.Less .empty := by decide
  have hmax : RatchetingTime.ratchet
      (RatchetingTime.ratchet ⟨0, Timestamp.zero_lt_wallTime⟩ time5) time5 =
      RatchetingTime.ratchet ⟨0, Timestamp.zero_lt_wallTime⟩ time5 := by decide
  have hlt := bytesCompare_lt_iff.mpr h
  have hgt := bytesCompare_gt_iff.mpr h
  simp [hfloor, readUpTo, hlt, hgt, h, h.ne', h.not_ge, ensureFloorValue, hmax]

theorem lookup_readUpTo (h : [1] < k) :
    ((readUpTo k).lookupTimestampRange none (some k) .none []).1 = zero := by
  simp [readUpTo, h]
  rfl

theorem run_singleton (call : Call) (s : IntervalSkl) : run [call] s = call.apply s := by
  simp [run]

def longKey : Bytes := replicate (maxKeySize + 1) 97

/-- The largest bytes only, and too many of them. -/
def lastKey : Bytes := replicate (maxKeySize + 1) 255

theorem replicate_lt_succ (n : ℕ) (x : UInt8) : replicate n x < replicate (n + 1) x := by
  have hcmp := bytesCompare_append_left (replicate n x) [] [x]
  rw [append_nil, ← replicate_succ'] at hcmp
  exact bytesCompare_lt_iff.mp (hcmp.trans rfl)

theorem prefixEnd_replicate (n : ℕ) :
    prefixEnd (replicate (n + 1) 255) = replicate (n + 1) 255 := by
  unfold prefixEnd
  simp

theorem maxKeySize_eq : maxKeySize = 1048575 + 1 := by decide

theorem boundKeyLengths_longKey : boundKeyLengths longKey [] = (replicate maxKeySize 97, []) := by
  simp [boundKeyLengths, longKey]

theorem boundKeyLengths_lastKey :
    boundKeyLengths [1] lastKey = ([1], replicate maxKeySize 255) := by
  have hone : ¬ [(1 : UInt8)].length > maxKeySize := by decide
  have hlong : lastKey.length > maxKeySize := by
    simp [lastKey]
  have htake : lastKey.take maxKeySize = replicate maxKeySize 255 := by
    simp [lastKey]
  rw [boundKeyLengths, if_neg hone, if_pos hlong, htake, maxKeySize_eq, prefixEnd_replicate]

/-- A read at the end of time, and one that fills the page. -/
def overflowCalls : List Call :=
  [.add [1] [] (sampleTime (2 ^ 63 - 1) (by norm_num)) (some 1) [⟨[], .empty⟩],
    .add [2] [] time5 (some 1) [⟨[false], .empty⟩, ⟨[], .empty⟩],
    .add [1] [] time9 (some 1) [⟨[], .empty⟩]]

theorem getMax_forgets_reads :
    (∃ s, run [.add longKey [] time5 (some 1) [⟨[], .empty⟩]] (clear .empty) = some s ∧
      (getMax longKey [] [] s).1.ts.Less time5) ∧
    (∃ s k, run [.add [1] lastKey time5 (some 1) [⟨[], .empty⟩]] (clear .empty) = some s ∧
      InSpan [1] lastKey k ∧ (getMax k [] [] s).1.ts.Less time5) ∧
    ∃ s, run overflowCalls (clear .empty) = some s ∧
      (getMax [1] [] [] s).1.ts.Less (sampleTime (2 ^ 63 - 1) (by norm_num)) := by
  have hless : zero.ts.Less time5 := by decide
  have hstart : [1] < replicate maxKeySize (255 : UInt8) := by
    rw [maxKeySize_eq, replicate_succ, ← bytesCompare_lt_iff]
    rfl
  have hstop : replicate maxKeySize (255 : UInt8) ≠ [] := by
    rw [maxKeySize_eq, replicate_succ]
    exact cons_ne_nil _ _
  refine ⟨⟨readOnce (replicate maxKeySize 97), ?_, ?_⟩,
    ⟨readUpTo (replicate maxKeySize 255), replicate maxKeySize 255, ?_, ?_, ?_⟩, ?_⟩
  · rw [run_singleton, Call.apply, add, boundKeyLengths_longKey]
    dsimp only
    rw [if_pos rfl, addRangeAt_readOnce]
  · have hlt : replicate maxKeySize 97 < longKey := replicate_lt_succ _ _
    rw [getMax, if_pos rfl, lookup_readOnce hlt]
    exact hless
  · rw [run_singleton, Call.apply, add, boundKeyLengths_lastKey]
    dsimp only
    rw [if_neg hstop]
    exact addRangeAt_readUpTo hstart
  · exact ⟨hstart.le, replicate_lt_succ _ _⟩
  · rw [getMax, if_pos rfl, lookup_readUpTo hstart]
    exact hless
  · refine ⟨(run overflowCalls (clear .empty)).get (by decide +kernel), some_get _ |>.symm, ?_⟩
    decide +kernel

end CutOff

end SklImpl

end Cockroach.TsCache
