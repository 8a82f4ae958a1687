import Cockroach.Storage.OwnWrites

/-! The sequence numbers of a transaction's writes, its savepoints and the rollbacks to them. -/
namespace Cockroach.KvCoord
open Storage List

/-- The flags of a request, of which an intent write implies a write. -/
structure RequestFlags where
  isRead : Bool
  isWrite : Bool
  isIntentWrite : Bool
  isEndTxn : Bool
  isWrite_of_isIntentWrite : isIntentWrite = true → isWrite = true

def RequestFlags.isReadOnly (req : RequestFlags) : Bool := req.isRead && !req.isWrite

/-- The request takes a new sequence number. -/
def RequestFlags.allocates (req : RequestFlags) : Bool := req.isIntentWrite || req.isEndTxn

inductive TxnType where
  | rootTxn
  | leafTxn
deriving DecidableEq

inductive TxnState where
  | pending
  | retryableError
  | error
  | finalized
deriving DecidableEq

/-- The coordinator of a transaction with its allocator of sequence numbers, which are 32 bits
wide. -/
structure TxnCoordSender where
  typ : TxnType
  txnState : TxnState
  active : Bool
  txnID : BitVec 128
  epoch : ℤ
  writeSeq : ℤ
  ignoredSeqNums : List IgnoredSeqNumRange

structure Savepoint where
  active : Bool
  txnID : BitVec 128
  epoch : ℤ
  seqNum : ℤ
deriving DecidableEq

/-- The savepoint at the beginning of a transaction. -/
def initialSavepoint : Savepoint := ⟨false, 0, 0, 0⟩

inductive SavepointError where
  | assertion (text : String)
  | operationInErrorTxn
  | unimplemented (text : String)
  | invalidAfterTxnRestart
  | retry (text : String) (txnID : BitVec 128)
deriving DecidableEq

/-- The increment of a number of 32 bits. -/
def nextSeq (seq : ℤ) : ℤ := (seq + 1).bmod (2 ^ 32)

/-- The last number after a batch, and its requests with the numbers they are sent with. -/
def sendLocked (steppingModeEnabled : Bool) (readSeq writeSeq : ℤ) :
    List RequestFlags → ℤ × List (RequestFlags × ℤ)
  | [] => (writeSeq, [])
  | req :: reqs =>
    let writeSeq := if req.allocates then nextSeq writeSeq else writeSeq
    let sequence := if steppingModeEnabled && req.isReadOnly then readSeq else writeSeq
    let sent := sendLocked steppingModeEnabled readSeq writeSeq reqs
    (sent.1, (req, sequence) :: sent.2)

namespace TxnCoordSender

variable (tc : TxnCoordSender)

def createSavepoint : Except SavepointError Savepoint :=
  if tc.typ ≠ .rootTxn then .error (.assertion "cannot get savepoint in non-root txn")
  else if tc.txnState = .finalized then
    .error (.assertion "operation invalid for finalized txns")
  else if tc.txnState ≠ .pending then .error .operationInErrorTxn
  else if tc.active = false then .ok initialSavepoint
  else .ok ⟨true, tc.txnID, tc.epoch, tc.writeSeq⟩

def checkSavepointLocked (s : Savepoint) : Except SavepointError Unit :=
  if s.active = false then .ok ()
  else if s.txnID ≠ tc.txnID then .error .invalidAfterTxnRestart
  else if s.epoch ≠ tc.epoch then .error .invalidAfterTxnRestart
  else if s.seqNum < 0 ∨ s.seqNum > tc.writeSeq then
    .error (.assertion s!"invalid savepoint: got {s.seqNum}, expected 0-{tc.writeSeq}")
  else .ok ()

/-- The ranges to ignore after a rollback, which are as before if nothing was written since. -/
def ignoredAfter (ignored : List IgnoredSeqNumRange) (seqNum writeSeq : ℤ) :
    List IgnoredSeqNumRange :=
  if seqNum < writeSeq then addIgnoredSeqNumRange ignored ⟨seqNum + 1, writeSeq⟩ else ignored

def rollbackToSavepoint (s : Savepoint) : Except SavepointError TxnCoordSender :=
  if tc.typ ≠ .rootTxn then .error (.assertion "cannot rollback savepoint in non-root txn")
  else if tc.txnState = .finalized then
    .error (.assertion "operation invalid for finalized txns")
  else if tc.txnState = .error then
    .error (.unimplemented "cannot rollback to savepoint after error")
  else match tc.checkSavepointLocked s with
    | .error .invalidAfterTxnRestart =>
      .error (.retry "cannot rollback to savepoint after a transaction restart" tc.txnID)
    | .error e => .error e
    | .ok _ => .ok { tc with
        active := s.active
        ignoredSeqNums := ignoredAfter tc.ignoredSeqNums s.seqNum tc.writeSeq }

end TxnCoordSender

open TxnCoordSender

/-- A coordinator and what has happened to it: the sequence numbers of its writes with their times,
the rollbacks with the times of their savepoints, and the savepoints that can be used with their
times, the newest first. -/
structure EpochRun where
  tc : TxnCoordSender
  clock : ℕ
  writes : List (ℕ × ℤ)
  rollbacks : List (ℕ × ℕ)
  valid : List (ℕ × Savepoint)

/-- The sequence numbers of the intent writes of a batch. -/
def writesOf (sent : List (RequestFlags × ℤ)) : List ℤ :=
  (sent.filter fun p => p.1.isIntentWrite).map Prod.snd

/-- The runs of an epoch, with a condition on its batches. -/
inductive EpochRun.Reached (allowed : TxnCoordSender → List RequestFlags → Prop) :
    EpochRun → Prop where
  -- Of the savepoints of earlier epochs only the initial ones can be used.
  | start (tc : TxnCoordSender) (held : ℕ) : tc.writeSeq = 0 → tc.ignoredSeqNums = [] →
      Reached allowed ⟨tc, 1, [], [], List.replicate held (0, initialSavepoint)⟩
  -- A batch may leave the transaction in any state; one that is rejected has no requests here.
  | send {r : EpochRun} (stepping : Bool) (readSeq : ℤ) (ba : List RequestFlags)
      (txnState : TxnState) {writeSeq : ℤ} {sent : List (RequestFlags × ℤ)} :
      Reached allowed r → allowed r.tc ba →
      sendLocked stepping readSeq r.tc.writeSeq ba = (writeSeq, sent) → Reached allowed
        { r with
          tc := { r.tc with active := true, txnState, writeSeq }
          clock := r.clock + 1
          writes := r.writes ++ (writesOf sent).map (r.clock, ·) }
  | create {r : EpochRun} {s : Savepoint} : Reached allowed r → r.tc.createSavepoint = .ok s →
      Reached allowed { r with clock := r.clock + 1, valid := (r.clock, s) :: r.valid }
  -- The savepoints created after the one rolled back to become invalid.
  | rollback {r : EpochRun} {tc : TxnCoordSender} {time : ℕ} {s : Savepoint}
      {newer older : List (ℕ × Savepoint)} : Reached allowed r →
      r.valid = newer ++ (time, s) :: older → r.tc.rollbackToSavepoint s = .ok tc →
      Reached allowed
        ⟨tc, r.clock + 1, r.writes, (time, r.clock) :: r.rollbacks, (time, s) :: older⟩

/-- After the time there was a rollback to a savepoint created before it. -/
def RolledBack (rollbacks : List (ℕ × ℕ)) (time : ℕ) : Prop :=
  ∃ b ∈ rollbacks, b.1 < time ∧ time < b.2

/-- The sequence numbers of the writes increase, the ignored ranges are sorted and disjoint, and
they hold exactly the writes that were rolled back. -/
def EpochRun.Sound (r : EpochRun) : Prop :=
  (r.writes.map Prod.snd).Pairwise (· < ·) ∧
  SortedRanges r.tc.ignoredSeqNums ∧ (∀ x ∈ r.tc.ignoredSeqNums, x.start ≤ x.stop) ∧
  ∀ w ∈ r.writes,
    txnSeqIsIgnored w.2 r.tc.ignoredSeqNums = true ↔ RolledBack r.rollbacks w.1

/-- The sequence numbers that the batch needs are left. -/
def FitsInt32 (tc : TxnCoordSender) (ba : List RequestFlags) : Prop :=
  tc.writeSeq + ba.countP RequestFlags.allocates < 2 ^ 31

instance (tc : TxnCoordSender) (ba : List RequestFlags) : Decidable (FitsInt32 tc ba) :=
  inferInstanceAs (Decidable (_ < _))

/-- What is known of a savepoint that can be used. -/
structure SavepointKept (r : EpochRun) (time : ℕ) (s : Savepoint) : Prop where
  time_lt : time < r.clock
  nonneg : 0 ≤ s.seqNum
  seqNum_le : s.seqNum ≤ r.tc.writeSeq
  initial : s.active = false → s.seqNum = 0
  outside : ∀ x ∈ r.tc.ignoredSeqNums, x.stop ≤ s.seqNum ∨ s.seqNum < x.start
  lt_of_before : ∀ w ∈ r.writes, time < w.1 → s.seqNum < w.2
  before_of_lt : ∀ w ∈ r.writes, s.seqNum < w.2 → time < w.1 ∨ RolledBack r.rollbacks w.1

/-- What every run keeps. -/
structure Kept (r : EpochRun) : Prop where
  ranges : ValidRanges r.tc.ignoredSeqNums r.tc.writeSeq
  nonneg : 0 ≤ r.tc.writeSeq
  start_pos : ∀ x ∈ r.tc.ignoredSeqNums, 0 < x.start
  increasing : (r.writes.map Prod.snd).Pairwise (· < ·)
  written : ∀ w ∈ r.writes, w.1 < r.clock ∧ 0 < w.2 ∧ w.2 ≤ r.tc.writeSeq
  rollback_lt : ∀ b ∈ r.rollbacks, b.2 < r.clock
  ignored_iff : ∀ w ∈ r.writes,
    SeqIgnored w.2 r.tc.ignoredSeqNums ↔ RolledBack r.rollbacks w.1
  inactive : r.tc.active = false →
    (∀ w ∈ r.writes, RolledBack r.rollbacks w.1) ∧ ∀ v ∈ r.valid, v.2.seqNum ≤ 0
  nested : r.valid.Pairwise fun a b => b.2.seqNum ≤ a.2.seqNum
  savepoints : ∀ v ∈ r.valid, SavepointKept r v.1 v.2

variable {r : EpochRun} {s : Savepoint} {time : ℕ}

theorem ignoredAfter_spec {ignored : List IgnoredSeqNumRange} {seqNum writeSeq : ℤ}
    (hranges : ValidRanges ignored writeSeq)
    (houtside : ∀ x ∈ ignored, x.stop ≤ seqNum ∨ seqNum < x.start) :
    ValidRanges (ignoredAfter ignored seqNum writeSeq) writeSeq ∧
    (∀ n ≤ writeSeq, SeqIgnored n (ignoredAfter ignored seqNum writeSeq) ↔
      SeqIgnored n ignored ∨ seqNum < n) ∧
    ∀ x ∈ ignoredAfter ignored seqNum writeSeq, x ∈ ignored ∨ x.start = seqNum + 1 := by
  unfold ignoredAfter
  split_ifs with hlt
  · refine ⟨hranges.rollback hlt, ?_, ?_⟩
    · intro n hn
      rw [seqIgnored_rollback hranges houtside]
      tauto
    · intro x hx
      obtain ⟨i, heq, -, -⟩ := search_stop_spec hranges (seqNum + 1)
      rw [heq, mem_append, mem_singleton] at hx
      exact hx.imp mem_of_mem_take fun h => by rw [h]
  · refine ⟨hranges, ?_, fun x hx => .inl hx⟩
    intro n hn
    exact (or_iff_left (by omega)).symm

theorem writesOf_cons (req : RequestFlags) (n : ℤ) (sent : List (RequestFlags × ℤ)) :
    writesOf ((req, n) :: sent) =
      if req.isIntentWrite then n :: writesOf sent else writesOf sent := by
  unfold writesOf
  split_ifs with hreq <;> simp [hreq]

theorem sendLocked_spec {stepping : Bool} {readSeq writeSeq : ℤ} {ba : List RequestFlags}
    (hnonneg : 0 ≤ writeSeq) (hfits : writeSeq + ba.countP RequestFlags.allocates < 2 ^ 31) :
    writeSeq ≤ (sendLocked stepping readSeq writeSeq ba).1 ∧
    (∀ n ∈ writesOf (sendLocked stepping readSeq writeSeq ba).2,
      writeSeq < n ∧ n ≤ (sendLocked stepping readSeq writeSeq ba).1) ∧
    (writesOf (sendLocked stepping readSeq writeSeq ba).2).Pairwise (· < ·) := by
  induction ba generalizing writeSeq with
  | nil => simp [sendLocked, writesOf]
  | cons req ba ih =>
    rw [countP_cons] at hfits
    by_cases halloc : req.allocates = true
    · rw [if_pos halloc] at hfits
      have hnext : nextSeq writeSeq = writeSeq + 1 := by
        refine Int.bmod_eq_of_le ?_ ?_ <;> omega
      obtain ⟨hle, hmem, hpairwise⟩ := @ih (writeSeq + 1) (by omega) (by omega)
      have hlater : ∀ n ∈ writesOf (sendLocked stepping readSeq (writeSeq + 1) ba).2,
          writeSeq < n ∧ n ≤ (sendLocked stepping readSeq (writeSeq + 1) ba).1 :=
        fun n hn => ⟨by have := (hmem n hn).1; omega, (hmem n hn).2⟩
      simp only [sendLocked, halloc, if_true, hnext, writesOf_cons]
      refine ⟨by omega, ?_⟩
      by_cases hreq : req.isIntentWrite = true
      · -- An intent write is not read-only, so that it gets the new number in stepping mode too.
        have hread : req.isReadOnly = false := by
          simp [RequestFlags.isReadOnly, req.isWrite_of_isIntentWrite hreq]
        simp only [hreq, hread, Bool.and_false, Bool.false_eq_true, if_true, if_false,
          forall_mem_cons, pairwise_cons]
        exact ⟨⟨⟨lt_add_one _, hle⟩, hlater⟩, fun n hn => (hmem n hn).1, hpairwise⟩
      · rw [if_neg hreq]
        exact ⟨hlater, hpairwise⟩
    · have hreq : req.isIntentWrite = false := by
        simp [RequestFlags.allocates] at halloc
        exact halloc.1
      rw [if_neg halloc, add_zero] at hfits
      simpa [sendLocked, halloc, writesOf_cons, hreq] using ih hnonneg hfits

theorem Kept.start {tc : TxnCoordSender} (held : ℕ) (hwrite : tc.writeSeq = 0)
    (hignored : tc.ignoredSeqNums = []) :
    Kept ⟨tc, 1, [], [], List.replicate held (0, initialSavepoint)⟩ := by
  have hvalid : ∀ v ∈ List.replicate held (0, initialSavepoint), v = (0, initialSavepoint) :=
    fun v hv => eq_of_mem_replicate hv
  refine ⟨?_, hwrite.ge, by simp [hignored], List.Pairwise.nil, nofun, nofun, nofun, ?_, ?_, ?_⟩
  · rw [hignored]
    exact ⟨List.Pairwise.nil, nofun, nofun⟩
  · exact fun _ => ⟨nofun, fun v hv => by rw [hvalid v hv]; exact le_rfl⟩
  · exact pairwise_replicate.mpr (.inr le_rfl)
  · intro v hv
    rw [hvalid v hv]
    exact ⟨Nat.one_pos, le_rfl, hwrite.ge, fun _ => rfl, by simp [hignored], nofun, nofun⟩

theorem Kept.send {stepping : Bool} {readSeq writeSeq : ℤ} {ba : List RequestFlags}
    {txnState : TxnState} {sent : List (RequestFlags × ℤ)} (h : Kept r) (hfits : FitsInt32 r.tc ba)
    (hsent : sendLocked stepping readSeq r.tc.writeSeq ba = (writeSeq, sent)) :
    Kept { r with
      tc := { r.tc with active := true, txnState, writeSeq }
      clock := r.clock + 1
      writes := r.writes ++ (writesOf sent).map (r.clock, ·) } := by
  obtain ⟨hle, hnew, hincreasing⟩ :
      r.tc.writeSeq ≤ writeSeq ∧ (∀ n ∈ writesOf sent, r.tc.writeSeq < n ∧ n ≤ writeSeq) ∧
        (writesOf sent).Pairwise (· < ·) := by
    have hspec := @sendLocked_spec stepping readSeq _ ba h.nonneg hfits
    rwa [hsent] at hspec
  have hnonneg := h.nonneg
  have hcases : ∀ w ∈ r.writes ++ (writesOf sent).map (r.clock, ·),
      w ∈ r.writes ∨ w.1 = r.clock ∧ r.tc.writeSeq < w.2 ∧ w.2 ≤ writeSeq := by
    intro w hw
    refine (mem_append.mp hw).imp_right ?_
    intro hw
    obtain ⟨n, hn, rfl⟩ := mem_map.mp hw
    exact ⟨rfl, hnew n hn⟩
  refine ⟨?_, hnonneg.trans hle, h.start_pos, ?_, ?_, ?_, ?_, nofun, h.nested, ?_⟩
  · exact { h.ranges with stop_le := fun x hx => (h.ranges.stop_le x hx).trans hle }
  · rw [map_append, map_map]
    refine pairwise_append.mpr ⟨h.increasing, by simpa using hincreasing, ?_⟩
    intro a ha b hb
    obtain ⟨w, hw, rfl⟩ := mem_map.mp ha
    have hold := (h.written w hw).2.2
    have hb' := (hnew b (by simpa using hb)).1
    omega
  · intro w hw
    dsimp only
    rcases hcases w hw with hw | hw
    · have hold := h.written w hw
      omega
    · omega
  · exact fun b hb => Nat.lt_succ_of_lt (h.rollback_lt b hb)
  · intro w hw
    rcases hcases w hw with hw | ⟨htime, hlt, -⟩
    · exact h.ignored_iff w hw
    · refine iff_of_false ?_ ?_
      · rintro ⟨x, hx, -, hstop⟩
        have hx' := h.ranges.stop_le x hx
        omega
      · rintro ⟨b, hb, -, hb'⟩
        have hb'' := h.rollback_lt b hb
        omega
  · intro v hv
    have hv' := h.savepoints v hv
    have hlt := hv'.time_lt
    have hseq := hv'.seqNum_le
    refine { hv' with
      time_lt := Nat.lt_succ_of_lt hlt
      seqNum_le := hseq.trans hle
      lt_of_before := ?_
      before_of_lt := ?_ }
    · intro w hw hbefore
      rcases hcases w hw with hw | hw
      · exact hv'.lt_of_before w hw hbefore
      · omega
    · intro w hw hbefore
      rcases hcases w hw with hw | hw
      · exact hv'.before_of_lt w hw hbefore
      · exact .inl (by omega)

theorem Kept.create (h : Kept r) (hs : r.tc.active = false ∧ s = initialSavepoint ∨
      r.tc.active = true ∧ s.active = true ∧ s.seqNum = r.tc.writeSeq) :
    Kept { r with clock := r.clock + 1, valid := (r.clock, s) :: r.valid } := by
  have hnonneg := h.nonneg
  refine { h with
    written := ?_
    rollback_lt := fun b hb => Nat.lt_succ_of_lt (h.rollback_lt b hb)
    inactive := ?_
    nested := pairwise_cons.mpr ⟨?_, h.nested⟩
    savepoints := ?_ }
  · intro w hw
    have hw' := h.written w hw
    dsimp only
    omega
  · intro hinactive
    refine ⟨(h.inactive hinactive).1, ?_⟩
    rintro v (_ | ⟨_, hv⟩)
    · rcases hs with ⟨-, rfl⟩ | ⟨hactive, -⟩
      · exact le_rfl
      · simp [hactive] at hinactive
    · exact (h.inactive hinactive).2 v hv
  · intro v hv
    rcases hs with ⟨hinactive, rfl⟩ | ⟨-, -, hs⟩
    · exact (h.inactive hinactive).2 v hv
    · exact hs ▸ (h.savepoints v hv).seqNum_le
  · rintro v (_ | ⟨_, hv⟩)
    · have hlater : ∀ w ∈ r.writes, ¬ r.clock < w.1 := fun w hw => (h.written w hw).1.not_gt
      rcases hs with ⟨hinactive, rfl⟩ | ⟨-, hactive, hs⟩
      · refine ⟨Nat.lt_succ_self _, le_rfl, hnonneg, fun _ => rfl, ?_, ?_, ?_⟩
        · exact fun x hx => .inr (h.start_pos x hx)
        · exact fun w hw hbefore => absurd hbefore (hlater w hw)
        · exact fun w hw _ => .inr ((h.inactive hinactive).1 w hw)
      · refine ⟨Nat.lt_succ_self _, hs ▸ hnonneg, hs.le, by simp [hactive], ?_, ?_, ?_⟩
        · exact fun x hx => .inl (hs ▸ h.ranges.stop_le x hx)
        · exact fun w hw hbefore => absurd hbefore (hlater w hw)
        · exact fun w hw hlt => absurd hlt (hs ▸ (h.written w hw).2.2.not_gt)
    · have hv' := h.savepoints v hv
      exact { hv' with time_lt := Nat.lt_succ_of_lt hv'.time_lt }

theorem Kept.rollback {newer older : List (ℕ × Savepoint)} {tc : TxnCoordSender} (h : Kept r)
    (hvalid : r.valid = newer ++ (time, s) :: older) (htc : tc = { r.tc with
      active := s.active
      ignoredSeqNums := ignoredAfter r.tc.ignoredSeqNums s.seqNum r.tc.writeSeq }) :
    Kept ⟨tc, r.clock + 1, r.writes, (time, r.clock) :: r.rollbacks, (time, s) :: older⟩ := by
  subst htc
  have hs : SavepointKept r time s := h.savepoints (time, s) (by simp [hvalid])
  obtain ⟨hranges, hignored, hnew⟩ := ignoredAfter_spec h.ranges hs.outside
  have hrolled : ∀ w ∈ r.writes, (RolledBack ((time, r.clock) :: r.rollbacks) w.1 ↔
      RolledBack r.rollbacks w.1 ∨ s.seqNum < w.2) := by
    intro w hw
    have hlast : RolledBack ((time, r.clock) :: r.rollbacks) w.1 ↔
        time < w.1 ∨ RolledBack r.rollbacks w.1 := by
      simp [RolledBack, (h.written w hw).1]
    rw [hlast]
    have hlt := hs.lt_of_before w hw
    have hbefore := hs.before_of_lt w hw
    tauto
  have hnested := h.nested
  rw [hvalid, pairwise_append] at hnested
  have holder : ∀ v ∈ (time, s) :: older, v.2.seqNum ≤ s.seqNum := by
    rintro v (_ | ⟨_, hv⟩)
    · exact le_rfl
    · exact (pairwise_cons.mp hnested.2.1).1 v hv
  refine ⟨hranges, h.nonneg, ?_, h.increasing, ?_, ?_, ?_, ?_, hnested.2.1, ?_⟩
  · intro x hx
    have hnonneg := hs.nonneg
    rcases hnew x hx with hx | hx
    · exact h.start_pos x hx
    · omega
  · intro w hw
    have hw' := h.written w hw
    dsimp only
    omega
  · rintro b (_ | ⟨_, hb⟩)
    · exact Nat.lt_succ_self _
    · exact Nat.lt_succ_of_lt (h.rollback_lt b hb)
  · intro w hw
    exact (hignored _ (h.written w hw).2.2).trans
      ((or_congr_left (h.ignored_iff w hw)).trans (hrolled w hw).symm)
  · intro hinitial
    have hzero := hs.initial hinitial
    refine ⟨?_, fun v hv => hzero ▸ holder v hv⟩
    intro w hw
    exact (hrolled w hw).mpr (.inr (hzero ▸ (h.written w hw).2.1))
  · intro v hv
    have hv' := h.savepoints v (by rw [hvalid]; exact mem_append_right _ hv)
    have hle := holder v hv
    refine { hv' with time_lt := Nat.lt_succ_of_lt hv'.time_lt, outside := ?_, before_of_lt := ?_ }
    · intro x hx
      rcases hnew x hx with hx | hx
      · exact hv'.outside x hx
      · exact .inr (by omega)
    · intro w hw hlt
      refine (hv'.before_of_lt w hw hlt).imp_right ?_
      exact fun hback => (hrolled w hw).mpr (.inl hback)

theorem createSavepoint_eq_ok {tc : TxnCoordSender} (h : tc.createSavepoint = .ok s) :
    tc.active = false ∧ s = initialSavepoint ∨
      tc.active = true ∧ s.active = true ∧ s.seqNum = tc.writeSeq := by
  unfold createSavepoint at h
  split_ifs at h with _ _ _ hactive
  · exact .inl ⟨hactive, (Except.ok.inj h).symm⟩
  · obtain rfl := Except.ok.inj h
    exact .inr ⟨by simpa using hactive, rfl, rfl⟩

theorem rollbackToSavepoint_eq_ok {tc tc' : TxnCoordSender}
    (h : tc.rollbackToSavepoint s = .ok tc') : tc' = { tc with
      active := s.active
      ignoredSeqNums := ignoredAfter tc.ignoredSeqNums s.seqNum tc.writeSeq } := by
  unfold rollbackToSavepoint at h
  split_ifs at h
  split at h
  · cases h
  · cases h
  · exact (Except.ok.inj h).symm

theorem Kept.of_reached (h : r.Reached FitsInt32) : Kept r := by
  induction h with
  | start tc held hwrite hignored => exact .start held hwrite hignored
  | send _ _ _ _ _ hfits hsent ih => exact ih.send hfits hsent
  | create _ hs ih => exact ih.create (createSavepoint_eq_ok hs)
  | rollback _ hvalid hs ih => exact ih.rollback hvalid (rollbackToSavepoint_eq_ok hs)

/-- In a run whose batches all find enough sequence numbers left. -/
theorem EpochRun.Reached.writes_sound (r : EpochRun) (h : r.Reached FitsInt32) : r.Sound := by
  have hkept := Kept.of_reached h
  refine ⟨hkept.increasing, hkept.ranges.sorted, hkept.ranges.start_le, ?_⟩
  intro w hw
  rw [txnSeqIsIgnored_iff hkept.ranges.sorted]
  exact hkept.ignored_iff w hw

def put : RequestFlags := ⟨false, true, true, false, fun _ => rfl⟩

def freshSender : TxnCoordSender := ⟨.rootTxn, .pending, false, 1, 0, 0, []⟩

/-- Two writes and a rollback to a savepoint between them. -/
theorem EpochRun.sound_twoWrites : ∃ r : EpochRun, r.Reached FitsInt32 ∧
    r.writes.map Prod.snd = [1, 2] ∧ r.tc.ignoredSeqNums = [⟨2, 2⟩] ∧ r.Sound := by
  have hstart : EpochRun.Reached FitsInt32 ⟨freshSender, 1, [], [], []⟩ := .start _ 0 rfl rfl
  have hfirst := hstart.send false 0 [put] .pending (by decide) rfl
  have hcreate := hfirst.create rfl
  have hsecond : EpochRun.Reached FitsInt32 ⟨{ freshSender with active := true, writeSeq := 2 }, 4,
      [(1, 1), (3, 2)], [], [(2, ⟨true, 1, 0, 1⟩)]⟩ :=
    hcreate.send false 0 [put] .pending (by decide) rfl
  have hback := @EpochRun.Reached.rollback FitsInt32 _
    { freshSender with active := true, writeSeq := 2, ignoredSeqNums := [⟨2, 2⟩] } _ _ [] []
    hsecond rfl (by simp [rollbackToSavepoint, checkSavepointLocked, ignoredAfter,
      addIgnoredSeqNumRange, freshSender])
  exact ⟨_, hback, rfl, rfl, EpochRun.Reached.writes_sound _ hback⟩

theorem sendLocked_replicate (m : ℕ) (x : ℤ) :
    (sendLocked false 0 (x.bmod (2 ^ 32)) (List.replicate m put)).1 = (x + m).bmod (2 ^ 32) := by
  induction m generalizing x with
  | zero => simp [sendLocked]
  | succ m ih =>
    have hnext : nextSeq (x.bmod (2 ^ 32)) = (x + 1).bmod (2 ^ 32) := Int.bmod_add_bmod
    have hput : put.allocates = true := rfl
    rw [replicate_succ, sendLocked]
    simp only [hput, if_true, hnext]
    rw [ih, Nat.cast_succ, add_assoc, add_comm 1]

/-- The write after the first 2147483647 ones gets a negative number. -/
theorem EpochRun.not_sound_of_wrap : ∃ r : EpochRun, r.Reached (fun _ _ => True) ∧ ¬ r.Sound := by
  have hstart : EpochRun.Reached (fun _ _ => True) ⟨freshSender, 1, [], [], []⟩ :=
    .start _ 0 rfl rfl
  have hfirst := hstart.send false 0 [put] .pending trivial rfl
  obtain ⟨ba, hba⟩ : ∃ ba, (sendLocked false 0 1 ba).1 = 2147483647 := by
    refine ⟨List.replicate 2147483646 put, (sendLocked_replicate 2147483646 1).trans ?_⟩
    norm_num [Int.bmod]
  have hmany := hfirst.send false 0 ba .pending trivial (Prod.ext hba rfl)
  have hlast := hmany.send false 0 [put] .pending trivial rfl
  refine ⟨_, hlast, ?_⟩
  rintro ⟨hincreasing, -⟩
  rw [map_append, pairwise_append] at hincreasing
  exact absurd (hincreasing.2.2 1 (mem_cons_self ..) (-2147483648) (mem_cons_self ..))
    (by decide)

end Cockroach.KvCoord
