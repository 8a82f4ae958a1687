import Cockroach.Roachpb.Transaction

/-! What a transaction becomes by any number of updates with other copies of it. -/
namespace Cockroach.Roachpb
open Hlc List Option

section Observed

variable {s : List ObservedTimestamp}

theorem observedTimestampIndex_spec (h : s.Pairwise fun a b => a.nodeID < b.nodeID) (n : ℤ) :
    ∃ a b, s = a ++ b ∧ a.length = observedTimestampIndex s n ∧ (∀ v ∈ a, v.nodeID < n) ∧
      ∀ v ∈ b, n ≤ v.nodeID := by
  have hget := pairwise_iff_getElem.mp h
  obtain ⟨hlow, hhigh⟩ := Search.search_spec (n := s.length)
    (f := fun i => decide ((s.getD i default).nodeID ≥ n)) (by
      intro i j hij hj hi
      rw [decide_eq_true_eq, getD_eq_getElem _ _ (by omega)] at hi ⊢
      rcases hij.lt_or_eq with hlt | rfl
      · exact hi.trans (hget i j (by omega) hj hlt).le
      · exact hi)
  have hle := Search.search_le s.length fun i => decide ((s.getD i default).nodeID ≥ n)
  refine ⟨s.take _, s.drop _, (take_append_drop (observedTimestampIndex s n) s).symm, ?_, ?_, ?_⟩
  · rw [length_take]
    exact min_eq_left hle
  · intro v hv
    obtain ⟨i, hi, rfl⟩ := getElem_of_mem hv
    rw [length_take] at hi
    have hbelow := hlow i (hi.trans_le (min_le_left _ _))
    rw [getD_eq_getElem _ _ (hi.trans_le (min_le_right _ _))] at hbelow
    simpa using hbelow
  · intro v hv
    obtain ⟨i, hi, rfl⟩ := getElem_of_mem hv
    rw [length_drop] at hi
    have habove := hhigh (observedTimestampIndex s n + i) (Nat.le_add_right _ _) (by omega)
    rw [getD_eq_getElem _ _ (by omega)] at habove
    simpa using habove

theorem updateObservedTimestamp_spec (h : s.Pairwise fun a b => a.nodeID < b.nodeID)
    (o : ObservedTimestamp) :
    (updateObservedTimestamp s o).Pairwise (fun a b => a.nodeID < b.nodeID) ∧
      ∀ v, v ∈ updateObservedTimestamp s o ↔
        v ∈ s ∧ (v.nodeID = o.nodeID → ¬ o.timestamp.Less v.timestamp) ∨
          v = o ∧ ∀ w ∈ s, w.nodeID = o.nodeID → o.timestamp.Less w.timestamp := by
  obtain ⟨a, b, hs, hlength, ha, hb⟩ := observedTimestampIndex_spec h o.nodeID
  unfold updateObservedTimestamp
  rw [← hlength]
  subst hs
  obtain ⟨hpa, hpb, hab⟩ := pairwise_append.mp h
  cases b with
  | nil =>
    simp only [append_nil, lt_irrefl, false_and, if_false, take_length, drop_length]
    refine ⟨pairwise_append.mpr ⟨by simpa using hpa, by simp, by simpa using ha⟩, ?_⟩
    grind
  | cons v b =>
    obtain ⟨hv, hpb⟩ := pairwise_cons.mp hpb
    have hget : (a ++ v :: b).getD a.length default = v := by simp
    have hlt : a.length < (a ++ v :: b).length := by simp
    dsimp only
    rw [hget]
    by_cases heq : v.nodeID = o.nodeID
    · rw [if_pos ⟨hlt, heq⟩]
      by_cases hless : o.timestamp.Less v.timestamp
      · rw [if_pos hless, set_append_right _ _ le_rfl, Nat.sub_self]
        refine ⟨pairwise_append.mpr ⟨hpa, .cons (by grind) hpb, by grind⟩, by grind⟩
      · rw [if_neg hless]
        exact ⟨h, by grind⟩
    · rw [if_neg (fun hand => heq hand.2), take_left, drop_left]
      refine ⟨pairwise_append.mpr ⟨hpa, .cons (by grind) (.cons hv hpb), by grind⟩, by grind⟩

/-- The timestamps are sorted by node and are the lowest ones of all that were observed. -/
structure Observes (all s : List ObservedTimestamp) : Prop where
  sorted : s.Pairwise fun a b => a.nodeID < b.nodeID
  least : ∀ v ∈ s, v ∈ all ∧ ∀ w ∈ all, w.nodeID = v.nodeID → v.timestamp.LessEq w.timestamp
  complete : ∀ w ∈ all, ∃ v ∈ s, v.nodeID = w.nodeID

theorem Observes.foldl {all : List ObservedTimestamp} (h : Observes all s)
    (l : List ObservedTimestamp) : Observes (all ++ l) (l.foldl updateObservedTimestamp s) := by
  induction l generalizing all s with
  | nil => simpa using h
  | cons o l ih =>
    obtain ⟨hsorted, hmem⟩ := updateObservedTimestamp_spec h.sorted o
    have hstep : Observes (all ++ [o]) (updateObservedTimestamp s o) := by
      obtain ⟨-, hleast, hcomplete⟩ := h
      refine ⟨hsorted, ?_, ?_⟩
      · simp only [hmem, Timestamp.less_iff, Timestamp.lessEq_iff] at hleast ⊢
        grind
      · grind
    simpa using ih hstep

end Observed

namespace Transaction

def Initialized (t : Transaction) : Prop := t.id ≠ 0 ∧ ¬ t.writeTimestamp.IsEmpty

/-- The updates of a transaction, one after the other. -/
def updates (t : Transaction) (os : List Transaction) : Option Transaction := os.foldlM update t

structure Updates (t o t' : Transaction) : Prop where
  id : t'.id = t.id
  epoch : t'.epoch = max t.epoch o.epoch
  writeTimestamp : t'.writeTimestamp = t.writeTimestamp.forward o.writeTimestamp
  readTimestamp : t'.readTimestamp = t.readTimestamp.forward o.readTimestamp
  lastHeartbeat : t'.lastHeartbeat = t.lastHeartbeat.forward o.lastHeartbeat
  globalUncertaintyLimit :
    t'.globalUncertaintyLimit = t.globalUncertaintyLimit.forward o.globalUncertaintyLimit
  observedTimestamps : t'.observedTimestamps =
    o.observedTimestamps.foldl updateObservedTimestamp t.observedTimestamps
  status : t'.status = if t.epoch < o.epoch then o.status
    else if t.epoch = o.epoch then sameEpochStatus t.status o.status
    else if o.status = .aborted then .aborted else t.status
  inFlightWrites : t.epoch = o.epoch →
    t'.inFlightWrites = if o.inFlightWrites ≠ [] then o.inFlightWrites else t.inFlightWrites

variable {t o t' : Transaction}

theorem update_updates (h : t.update o = some t') (hid : t.id = o.id) : Updates t o t' := by
  obtain ⟨priority, rfl⟩ := update_eq h hid
  unfold updateEpoch updateTimestamps
  rcases lt_trichotomy t.epoch o.epoch with hlt | heq | hgt
  · rw [if_pos hlt]
    constructor <;> grind
  · rw [if_pos heq]
    constructor <;> grind
  · rw [if_neg hgt.ne']
    constructor <;> grind

theorem exists_update (ho : o.Initialized) (hid : t.id = o.id) :
    ∃ t', t.update o = some t' ∧ Updates t o t' := by
  have hsome : ∃ t', t.update o = some t' := by
    unfold update
    rw [if_neg (not_or.mpr ho), if_neg (hid ▸ ho.1), if_neg (not_not.mpr hid)]
    exact ⟨_, rfl⟩
  obtain ⟨t', h⟩ := hsome
  exact ⟨t', h, update_updates h hid⟩

theorem Updates.finalized_iff (h : Updates t o t') (hfinal : t.status.isFinalized = true) :
    t'.status.isFinalized = true ↔ (t.epoch < o.epoch → o.status.isFinalized = true) := by
  rw [h.status]
  by_cases hlt : t.epoch < o.epoch
  · rw [if_pos hlt]
    exact ⟨fun h _ => h, fun h => h hlt⟩
  · rw [if_neg hlt]
    refine iff_of_true ?_ fun h => absurd h hlt
    cases hst : t.status with
    | committed | aborted => split_ifs <;> rfl
    | pending | staging =>
      rw [hst] at hfinal
      cases hfinal

/-- A commit and an abort are both final, but an update turns one into the other: by a newer epoch,
or by an abort of an older one. -/
theorem Updates.status_changes_iff (h : Updates t o t') (hfinal : t.status.isFinalized = true) :
    t'.status ≠ t.status ↔ o.status ≠ t.status ∧
      (t.epoch < o.epoch ∨ o.epoch < t.epoch ∧ o.status = .aborted) := by
  rw [h.status]
  rcases lt_trichotomy t.epoch o.epoch with hlt | heq | hgt
  · simp [hlt]
  · cases hst : t.status <;> simp_all [sameEpochStatus, TransactionStatus.isFinalized]
  · rw [if_neg hgt.not_gt, if_neg hgt.ne']
    by_cases habort : o.status = .aborted
    · simp [habort, hgt]
    · simp [habort, hgt.not_gt]

/-- A timestamp that is the highest of those of some copies, and from a clock if one of the highest
is. -/
structure Highest (f : Transaction → Timestamp) (seen : List Transaction) (t : Transaction) :
    Prop where
  mem : ∃ o ∈ seen, f t = f o
  le : ∀ o ∈ seen, (f o).LessEq (f t)
  clock : ∀ o ∈ seen, (f o).EqOrdering (f t) → (f t).synthetic = true → (f o).synthetic = true

variable {f : Transaction → Timestamp} {seen : List Transaction}

theorem highest_iff : Highest f seen t ↔ (∃ o ∈ seen, f t = f o) ∧
    (∀ o ∈ seen, (f o).ticks ≤ (f t).ticks) ∧
    ∀ o ∈ seen, (f o).ticks = (f t).ticks → (f t).synthetic = true → (f o).synthetic = true := by
  simp only [← Timestamp.lessEq_iff, ← Timestamp.eqOrdering_iff]
  exact ⟨fun h => ⟨h.mem, h.le, h.clock⟩, fun h => ⟨h.1, h.2.1, h.2.2⟩⟩

theorem Highest.forward (h : Highest f seen t) (hf : f t' = (f t).forward (f o)) :
    Highest f (seen ++ [o]) t' := by
  rw [highest_iff] at h ⊢
  rcases lt_trichotomy (f t).ticks (f o).ticks with hlt | heq | hgt
  · rw [hf, Timestamp.forward_of_lt hlt]
    grind
  · rw [Timestamp.forward_of_eq heq] at hf
    by_cases hflag : (f t).synthetic = true ∧ (f o).synthetic = false
    · have hf' : f t' = f o := hf.trans (Timestamp.ext_ticks heq (by simp [hflag]))
      grind
    · have hf' : f t' = f t := hf.trans (Timestamp.ext_ticks rfl (by grind))
      grind
  · rw [hf, Timestamp.forward_of_gt hgt]
    grind

variable {seen' : List Transaction}

theorem Highest.unique (h : Highest f seen t) (h' : Highest f seen' t')
    (hperm : ∀ o, o ∈ seen ↔ o ∈ seen') : f t = f t' := by
  rw [highest_iff] at h h'
  obtain ⟨⟨o, ho, hfo⟩, hle, hclock⟩ := h
  obtain ⟨⟨o', ho', hfo'⟩, hle', hclock'⟩ := h'
  have hticks : (f t).ticks = (f t').ticks := by
    refine le_antisymm ?_ ?_
    · rw [hfo]
      exact hle' o ((hperm o).mp ho)
    · rw [hfo']
      exact hle o' ((hperm o').mpr ho')
  refine Timestamp.ext_ticks hticks (Bool.eq_iff_iff.mpr ⟨fun hflag => ?_, fun hflag => ?_⟩)
  · rw [hfo']
    exact hclock o' ((hperm o').mpr ho') (hfo' ▸ hticks.symm) hflag
  · rw [hfo]
    exact hclock' o ((hperm o).mp ho) (hfo ▸ hticks) hflag

/-- What only grows is the highest of all copies, and of the observed timestamps the lowest of each
node is left. -/
structure Ratchets (seen : List Transaction) (t : Transaction) : Prop where
  epoch : (∃ o ∈ seen, t.epoch = o.epoch) ∧ ∀ o ∈ seen, o.epoch ≤ t.epoch
  writeTimestamp : Highest (fun t => t.writeTimestamp) seen t
  readTimestamp : Highest (fun t => t.readTimestamp) seen t
  lastHeartbeat : Highest lastHeartbeat seen t
  globalUncertaintyLimit : Highest globalUncertaintyLimit seen t
  observed : Observes (seen.flatMap observedTimestamps) t.observedTimestamps

theorem Ratchets.start (h : t.observedTimestamps.Pairwise fun a b => a.nodeID < b.nodeID) :
    Ratchets [t] t := by
  have hself : ∀ f, Highest f [t] t := fun f => highest_iff.mpr (by simp)
  refine ⟨by simp, hself _, hself _, hself _, hself _, ⟨h, ?_, ?_⟩⟩ <;>
    simp only [flatMap_singleton]
  · refine fun v hv => ⟨hv, fun w hw hnode => ?_⟩
    have hget := pairwise_iff_getElem.mp h
    obtain ⟨i, hi, rfl⟩ := getElem_of_mem hv
    obtain ⟨j, hj, rfl⟩ := getElem_of_mem hw
    rcases lt_trichotomy i j with hlt | rfl | hgt
    · exact absurd hnode (hget i j hi hj hlt).ne'
    · exact .refl _
    · exact absurd hnode (hget j i hj hi hgt).ne
  · exact fun w hw => ⟨w, hw, rfl⟩

theorem Ratchets.step (h : Ratchets seen t) (hu : Updates t o t') : Ratchets (seen ++ [o]) t' where
  epoch := by grind [h.epoch, hu.epoch]
  writeTimestamp := h.writeTimestamp.forward hu.writeTimestamp
  readTimestamp := h.readTimestamp.forward hu.readTimestamp
  lastHeartbeat := h.lastHeartbeat.forward hu.lastHeartbeat
  globalUncertaintyLimit := h.globalUncertaintyLimit.forward hu.globalUncertaintyLimit
  observed := by
    rw [hu.observedTimestamps]
    simpa using h.observed.foldl o.observedTimestamps

theorem Ratchets.updates (h : Ratchets seen t) (os : List Transaction)
    (hos : ∀ o ∈ os, o.Initialized ∧ o.id = t.id) :
    ∃ t', t.updates os = some t' ∧ t'.id = t.id ∧ Ratchets (seen ++ os) t' := by
  induction os generalizing t seen with
  | nil => exact ⟨t, rfl, rfl, by simpa using h⟩
  | cons o os ih =>
    obtain ⟨ho, hid⟩ := hos o mem_cons_self
    obtain ⟨t₁, h₁, hu⟩ := exists_update ho hid.symm
    obtain ⟨t', h', hid', hr⟩ := ih (h.step hu) fun o' ho' => by
      rw [hu.id]
      exact hos o' (mem_cons_of_mem _ ho')
    refine ⟨t', ?_, hid'.trans hu.id, by simpa using hr⟩
    rw [Transaction.updates, foldlM_cons, h₁]
    exact h'

/-- The one knows of no clock reading of a node that the other does not. -/
def Observes (t t' : Transaction) : Prop :=
  ∀ v ∈ t.observedTimestamps, ∃ w ∈ t'.observedTimestamps,
    w.nodeID = v.nodeID ∧ w.timestamp.EqOrdering v.timestamp

/-- Two copies with the same epoch and timestamps, and the same clock readings of the nodes. -/
structure Agrees (t t' : Transaction) : Prop where
  epoch : t.epoch = t'.epoch
  writeTimestamp : t.writeTimestamp = t'.writeTimestamp
  readTimestamp : t.readTimestamp = t'.readTimestamp
  lastHeartbeat : t.lastHeartbeat = t'.lastHeartbeat
  globalUncertaintyLimit : t.globalUncertaintyLimit = t'.globalUncertaintyLimit
  observed : Observes t t' ∧ Observes t' t

theorem Ratchets.observes (h : Ratchets seen t) (h' : Ratchets seen' t')
    (hperm : ∀ o, o ∈ seen ↔ o ∈ seen') : Observes t t' := by
  have hall : ∀ v, v ∈ seen.flatMap observedTimestamps ↔ v ∈ seen'.flatMap observedTimestamps := by
    simp only [mem_flatMap, hperm, implies_true]
  intro v hv
  obtain ⟨hmem, hleast⟩ := h.observed.least v hv
  obtain ⟨w, hw, hnode⟩ := h'.observed.complete v ((hall v).mp hmem)
  obtain ⟨hmem', hleast'⟩ := h'.observed.least w hw
  have hle := hleast w ((hall w).mpr hmem') hnode
  have hge := hleast' v ((hall v).mp hmem) hnode.symm
  rw [Timestamp.lessEq_iff] at hle hge
  exact ⟨w, hw, hnode, (Timestamp.eqOrdering_iff _ _).mpr (le_antisymm hge hle)⟩

theorem Ratchets.agrees (h : Ratchets seen t) (h' : Ratchets seen' t')
    (hperm : ∀ o, o ∈ seen ↔ o ∈ seen') : Agrees t t' where
  epoch := by
    obtain ⟨⟨o, ho, heq⟩, hle⟩ := h.epoch
    obtain ⟨⟨o', ho', heq'⟩, hle'⟩ := h'.epoch
    have hge := hle o' ((hperm o').mpr ho')
    have hge' := hle' o ((hperm o).mp ho)
    omega
  writeTimestamp := h.writeTimestamp.unique h'.writeTimestamp hperm
  readTimestamp := h.readTimestamp.unique h'.readTimestamp hperm
  lastHeartbeat := h.lastHeartbeat.unique h'.lastHeartbeat hperm
  globalUncertaintyLimit := h.globalUncertaintyLimit.unique h'.globalUncertaintyLimit hperm
  observed := ⟨h.observes h' hperm, h'.observes h fun o => (hperm o).symm⟩

/-- Nothing goes back in an update. -/
structure Grows (t t' : Transaction) : Prop where
  epoch : t.epoch ≤ t'.epoch
  writeTimestamp : t.writeTimestamp.LessEq t'.writeTimestamp
  readTimestamp : t.readTimestamp.LessEq t'.readTimestamp
  lastHeartbeat : t.lastHeartbeat.LessEq t'.lastHeartbeat
  globalUncertaintyLimit : t.globalUncertaintyLimit.LessEq t'.globalUncertaintyLimit
  final : t.status.isFinalized = true → t'.status.isFinalized = true

/-- Every update lets the transaction grow, and all of them in any order ratchet it. -/
structure UpdatesWell (t : Transaction) (os : List Transaction) : Prop where
  grows : ∀ l o r, os = l ++ o :: r → ∀ t₁ t₂, t.updates l = some t₁ → t₁.update o = some t₂ →
    Grows t₁ t₂
  ratchets : ∃ t', t.updates os = some t' ∧ Ratchets (t :: os) t' ∧
    ∀ os' : List Transaction, os'.Perm os → ∃ t'', t.updates os' = some t'' ∧ Agrees t' t''

theorem updatesWell_iff {os : List Transaction}
    (hsorted : t.observedTimestamps.Pairwise fun a b => a.nodeID < b.nodeID)
    (hos : ∀ o ∈ os, o.Initialized ∧ o.id = t.id) :
    UpdatesWell t os ↔ ∀ l o r, os = l ++ o :: r → ∀ t₁, t.updates l = some t₁ →
      t₁.status.isFinalized = true → t₁.epoch < o.epoch → o.status.isFinalized = true := by
  -- An update in the middle finds the transaction that the ones before it have left.
  have hmiddle : ∀ l o r, os = l ++ o :: r → ∀ t₁, t.updates l = some t₁ →
      ∃ t₂, t₁.update o = some t₂ ∧ Updates t₁ o t₂ := by
    intro l o r hsplit t₁ h₁
    obtain ⟨t₁', h₁', hid, -⟩ := (Ratchets.start hsorted).updates l
      fun o' ho' => hos o' (by simp [hsplit, ho'])
    obtain rfl := some.inj (h₁.symm.trans h₁')
    obtain ⟨ho, hoid⟩ := hos o (by simp [hsplit])
    exact exists_update ho (hid.trans hoid.symm)
  constructor
  · intro h l o r hsplit t₁ h₁ hfinal
    obtain ⟨t₂, h₂, hu⟩ := hmiddle l o r hsplit t₁ h₁
    exact (hu.finalized_iff hfinal).mp ((h.grows l o r hsplit t₁ t₂ h₁ h₂).final hfinal)
  · intro hcond
    constructor
    · intro l o r hsplit t₁ t₂ h₁ h₂
      obtain ⟨t₂', h₂', hu⟩ := hmiddle l o r hsplit t₁ h₁
      obtain rfl := some.inj (h₂.symm.trans h₂')
      constructor
      · exact hu.epoch ▸ le_max_left _ _
      · exact hu.writeTimestamp ▸ .forward_left _ _
      · exact hu.readTimestamp ▸ .forward_left _ _
      · exact hu.lastHeartbeat ▸ .forward_left _ _
      · exact hu.globalUncertaintyLimit ▸ .forward_left _ _
      · intro hfinal
        exact (hu.finalized_iff hfinal).mpr (hcond l o r hsplit t₁ h₁ hfinal)
    · obtain ⟨t', h', -, hr⟩ := (Ratchets.start hsorted).updates os hos
      refine ⟨t', h', hr, fun os' hperm => ?_⟩
      obtain ⟨t'', h'', -, hr'⟩ := (Ratchets.start hsorted).updates os'
        fun o ho => hos o (hperm.mem_iff.mp ho)
      exact ⟨t'', h'', hr.agrees hr' fun o => by simp [hperm.mem_iff]⟩

/-- A copy of a transaction by its epoch and status. -/
def copy (epoch : ℤ) (status : TransactionStatus) : Transaction :=
  { id := 1, key := [1], epoch, writeTimestamp := .ofNanos 1,
    minTimestamp := .empty, priority := 1, sequence := 0, readTimestamp := .empty,
    ignoredSeqNums := [], status, lastHeartbeat := .empty, globalUncertaintyLimit := .empty,
    observedTimestamps := [⟨1, .empty⟩], writeTooOld := false, commitTimestampFixed := false,
    lockSpans := [], inFlightWrites := [] }

theorem copy_initialized (epoch : ℤ) (status : TransactionStatus) :
    (copy epoch status).Initialized := by
  constructor
  · simp [copy]
  · simp [copy, Timestamp.isEmpty_iff, Timestamp.ticks]

/-- An aborted transaction is pending again after an update with a pending copy of a newer epoch. -/
theorem aborted_becomes_pending : ¬ UpdatesWell (copy 0 .aborted) [copy 1 .pending] := by
  intro h
  have hgrows := h.grows [] _ [] rfl _ _ rfl rfl
  exact absurd (hgrows.final rfl) (by decide)

theorem copy_updatesWell : UpdatesWell (copy 1 .aborted) [copy 0 .pending] := by
  refine (updatesWell_iff (by simp [copy]) ?_).mpr ?_
  · intro o ho
    obtain rfl := mem_singleton.mp ho
    exact ⟨copy_initialized 0 .pending, rfl⟩
  · intro l o r hsplit t₁ h₁ hfinal hlt
    obtain ⟨rfl, rfl, rfl⟩ : l = [] ∧ o = copy 0 .pending ∧ r = [] := by
      cases l with
      | nil => simpa using hsplit.symm
      | cons => simp at hsplit
    obtain rfl := some.inj h₁
    exact absurd hlt (by decide)

end Transaction

end Cockroach.Roachpb
