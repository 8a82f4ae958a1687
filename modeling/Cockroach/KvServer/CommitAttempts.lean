import Cockroach.KvServer.ParallelCommit

/-! The attempts of a coordinator: once one is left behind, one of its writes never lands. -/
namespace Cockroach.KvServer
open ByteOrder Hlc Storage Roachpb List Timestamp

namespace CommitState

section Fields

variable (s : CommitState) (c : Command) (ec : EvalContext) (responseTS : Timestamp)

theorem apply_toCoordinator : (s.apply c ec responseTS).toCoordinator = s.toCoordinator := by
  unfold apply
  split
  · rfl
  · rfl
  · rfl

theorem apply_seen : (s.apply c ec responseTS).seen = s.seen := by
  unfold apply
  split
  · rfl
  · rfl
  · rfl

theorem step_commit_toCoordinator (a : Attempt) (h : Header) (args : EndTxnRequest) :
    (s.step (.commit a h args ec responseTS)).toCoordinator = { s.toCoordinator with
      requests := s.requests.filter (· ≠ a)
      staged := (s.step (.commit a h args ec responseTS)).staged } := by
  dsimp only [step]
  rw [apply_toCoordinator]

variable (r : Recovery) (w : SequencedWrite) (now : Timestamp)

theorem probe_eq : s.probe r w now = s ∨ ∃ reads r', s.probe r w now =
      { s with reads := reads, recoveries := r' :: s.recoveries } ∧
    (reads = s.reads ∨
      reads = Function.update s.reads w.key ((s.reads w.key).forward r.txn.writeTimestamp)) := by
  unfold probe
  split
  · exact .inl rfl
  · rename_i response _
    cases hfound : response.foundIntent with
    | true => exact .inr ⟨_, _, rfl, .inl rfl⟩
    | false => exact .inr ⟨_, _, rfl, .inr rfl⟩

end Fields

end CommitState

namespace Coordinator

/-- A write that is applied, as it was sent and as the intents of its key allow. -/
structure Adds (s : Coordinator) (l : TxnWrite) : Prop where
  sent : ∃ w ∈ s.sent, w.key = l.key ∧ w.epoch = l.epoch ∧ w.sequence = l.sequence ∧
    w.ts.LessEq l.ts
  above : (s.reads l.key).Less l.ts
  ascends : ∀ l' ∈ s.applied, l'.key = l.key → l'.epoch = l.epoch →
    l'.sequence < l.sequence ∧ l'.ts.LessEq l.ts

/-- What a step does to the writes and the position of the coordinator. -/
structure Extends (s s' : Coordinator) : Prop where
  reads : ∀ key, (s.reads key).LessEq (s'.reads key)
  epoch : s.epoch ≤ s'.epoch
  ts : s.ts.LessEq s'.ts
  sent : ∀ w ∈ s'.sent, w ∈ s.sent ∨ (w.epoch = s.epoch ∧ w.ts = s.ts) ∧
    ∀ a ∈ s.failed, s.Live a → s.Passed a
  applied_mono : ∀ l ∈ s.applied, l ∈ s'.applied
  applied : ∀ l ∈ s'.applied, l ∈ s.applied ∨ s.Adds l
  failed : ∀ a ∈ s.failed, s.Live a → a ∈ s'.failed

theorem Extends.refl (s : Coordinator) : Extends s s :=
  ⟨fun _ => .refl _, le_refl _, .refl _, fun _ => .inl, fun _ => id,
    fun _ => .inl, fun _ ha _ => ha⟩

theorem extends_of_reads {s s' : Coordinator} (hreads : ∀ key, (s.reads key).LessEq (s'.reads key))
    (hepoch : s'.epoch = s.epoch) (hts : s'.ts = s.ts) (hsent : ∀ w ∈ s'.sent, w ∈ s.sent)
    (happlied : s'.applied = s.applied) (hfailed : s'.failed = s.failed) : Extends s s' := by
  constructor
  · exact hreads
  · exact hepoch.ge
  · rw [hts]
    exact .refl _
  · exact fun w hw => .inl (hsent w hw)
  · exact fun l hl => by rwa [happlied]
  · exact fun l hl => .inl (by rwa [← happlied])
  · exact fun a ha _ => by rwa [hfailed]

theorem lessEq_update (reads : Bytes → Timestamp) (key key' : Bytes) (ts : Timestamp) :
    (reads key').LessEq (Function.update reads key ((reads key).forward ts) key') := by
  by_cases h : key' = key
  · subst h
    rw [Function.update_self]
    exact .forward_left _ _
  · rw [Function.update_of_ne h]
    exact .refl _

theorem not_passed_here (s : Coordinator) (writes : List SequencedWrite) :
    ¬ s.Passed ⟨s.epoch, s.ts, writes⟩ := by
  rintro (hlt | hlt)
  · exact lt_irrefl _ hlt
  · rw [less_iff] at hlt
    exact lt_irrefl _ hlt

/-- A declared write does not land at or below the attempt any more: reads of the key prevent it,
or a write of the key has landed above, or the coordinator has given the attempt up and no request
is left that could do it. -/
def Bars (s : Coordinator) (a : Attempt) (w : SequencedWrite) : Prop :=
  ¬ s.Landed a w ∧
    (a.ts.LessEq (s.reads w.key) ∨
      (∃ l ∈ s.applied, l.key = w.key ∧ l.epoch = a.epoch ∧ a.ts.Less l.ts) ∨
      (s.Passed a ∨ a ∈ s.failed) ∧ ∀ r ∈ s.sent, r.key = w.key → r.epoch = a.epoch →
        w.sequence ≤ r.sequence →
        a.ts.Less r.ts)

/-- The attempt can no longer become an implicit commit. -/
def Dead (s : Coordinator) (a : Attempt) : Prop := ∃ w ∈ a.writes, s.Bars a w

section Steps

variable {s s' : Coordinator} {a : Attempt} {w : SequencedWrite}

theorem Extends.landed (h : Extends s s') (hl : s.Landed a w) : s'.Landed a w := by
  obtain ⟨l, hl, hrest⟩ := hl
  exact ⟨l, h.applied_mono l hl, hrest⟩

theorem Extends.passed (h : Extends s s') (hp : s.Passed a) : s'.Passed a := by
  have hts := h.ts
  unfold Passed at hp ⊢
  rw [lessEq_iff] at hts
  rw [less_iff] at hp ⊢
  exact hp.imp (fun hlt => hlt.trans_le h.epoch) fun hlt => hlt.trans_le hts

theorem Extends.bars (h : Extends s s') (hlive : s.Live a) (hb : s.Bars a w) : s'.Bars a w := by
  obtain ⟨hnot, hwhy⟩ := hb
  constructor
  · rintro ⟨l, hl, hkey, hepoch, hseq, hle⟩
    rcases h.applied l hl with hold | hadds
    · exact hnot ⟨l, hold, hkey, hepoch, hseq, hle⟩
    rw [lessEq_iff] at hle
    rcases hwhy with hreads | ⟨l₀, hl₀, hkey₀, hepoch₀, hlt⟩ | ⟨-, hsent⟩
    · have habove := hadds.above
      rw [hkey, less_iff] at habove
      rw [lessEq_iff] at hreads
      omega
    · have hascends := (hadds.ascends l₀ hl₀ (hkey₀.trans hkey.symm) (hepoch₀.trans hepoch.symm)).2
      rw [lessEq_iff] at hascends
      rw [less_iff] at hlt
      omega
    · obtain ⟨r, hr, hrkey, hrepoch, hrseq, hrle⟩ := hadds.sent
      have hlt := hsent r hr (hrkey.trans hkey) (hrepoch.trans hepoch) (hrseq.symm ▸ hseq)
      rw [less_iff] at hlt
      rw [lessEq_iff] at hrle
      omega
  · rcases hwhy with hreads | ⟨l₀, hl₀, hrest⟩ | ⟨hpassed, hsent⟩
    · exact .inl (hreads.trans (h.reads _))
    · exact .inr (.inl ⟨l₀, h.applied_mono l₀ hl₀, hrest⟩)
    · refine .inr (.inr ⟨hpassed.imp h.passed fun hf => h.failed a hf hlive, ?_⟩)
      intro r hr hkey hepoch hseq
      rcases h.sent r hr with hold | ⟨⟨hrepoch, hrts⟩, hleft⟩
      · exact hsent r hold hkey hepoch hseq
      · rcases hpassed.elim id fun hf => hleft a hf hlive with hlt | hlt
        · omega
        · rwa [hrts]

theorem Extends.dead (h : Extends s s') (hlive : s.Live a) (hd : s.Dead a) : s'.Dead a := by
  obtain ⟨w, hw, hbars⟩ := hd
  exact ⟨w, hw, h.bars hlive hbars⟩

theorem not_dead_of_landed (h : ∀ w ∈ a.writes, s.Landed a w) : ¬ s.Dead a := by
  rintro ⟨w, hw, hbars⟩
  exact hbars.1 (h w hw)

end Steps

/-- What holds of the coordinator: one attempt at a position is live, a live one that it has given
up is dead, and the writes that are in flight are declared. -/
structure Coordinated (s : Coordinator) : Prop where
  positions : ∀ p ∈ s.positions, p.1 ≤ s.epoch ∧ p.2.LessEq s.ts
  positive : Timestamp.empty.Less s.ts
  attempts : ∀ a ∈ s.attempts, a.epoch ≤ s.epoch ∧ a.ts.LessEq s.ts ∧ Timestamp.empty.Less a.ts
  unique : ∀ a, s.Live a → ∀ b, s.Live b → a.epoch = b.epoch → a.ts.EqOrdering b.ts → a = b
  requests : ∀ a ∈ s.requests, a ∈ s.attempts ∧ a ∉ s.staged
  staged : ∀ a ∈ s.staged, a ∈ s.attempts
  dead : ∀ a, s.Live a → s.Passed a ∨ a ∈ s.failed → s.Dead a
  epochs : (∀ w ∈ s.sent, w.epoch ≤ s.epoch) ∧ ∀ l ∈ s.applied, l.epoch ≤ s.epoch
  declared : ∀ a, s.Live a → ¬ (s.Passed a ∨ a ∈ s.failed) →
    (∀ w ∈ s.sent, w.epoch = a.epoch → ⟨w.key, w.sequence⟩ ∈ a.writes) ∧
      ∀ l ∈ s.applied, l.epoch = a.epoch → l.ts.LessEq a.ts ∨ ⟨l.key, l.sequence⟩ ∈ a.writes
  ascending : ∀ l ∈ s.applied, ∀ l' ∈ s.applied, l.key = l'.key → l.epoch = l'.epoch →
    l.sequence ≤ l'.sequence → l.ts.LessEq l'.ts

section Invariant

variable {x : TxnIdentity} {s s' : Coordinator}

section

variable (h : s.Coordinated)
include h

theorem Coordinated.keep (hext : s.Extends s')
    (hpositions : s'.positions = s.positions) (hepoch : s'.epoch = s.epoch) (hts : s'.ts = s.ts)
    (hattempts : s'.attempts = s.attempts) (hsent : ∀ w ∈ s'.sent, w ∈ s.sent)
    (happlied : s'.applied = s.applied)
    (hrequests : ∀ a ∈ s'.requests, a ∈ s.requests ∧ a ∉ s'.staged)
    (hstaged : ∀ a ∈ s'.staged, a ∈ s.staged ∨ a ∈ s.requests) (hfailed : s'.failed = s.failed) :
    s'.Coordinated := by
  have hpassed (a : Attempt) : s'.Passed a ∨ a ∈ s'.failed ↔ s.Passed a ∨ a ∈ s.failed := by
    unfold Passed
    rw [hepoch, hts, hfailed]
  have hlive (a : Attempt) (ha : s'.Live a) : s.Live a := by
    rcases ha with hreq | hst
    · exact .inl (hrequests a hreq).1
    · exact (hstaged a hst).symm
  constructor
  · rw [hpositions, hepoch, hts]
    exact h.positions
  · rw [hts]
    exact h.positive
  · rw [hattempts, hepoch, hts]
    exact h.attempts
  · exact fun a ha b hb => h.unique a (hlive a ha) b (hlive b hb)
  · intro a ha
    rw [hattempts]
    exact ⟨(h.requests a (hrequests a ha).1).1, (hrequests a ha).2⟩
  · intro a ha
    rw [hattempts]
    rcases hstaged a ha with hold | hreq
    · exact h.staged a hold
    · exact (h.requests a hreq).1
  · intro a ha hp
    exact hext.dead (hlive a ha) (h.dead a (hlive a ha) ((hpassed a).mp hp))
  · rw [hepoch, happlied]
    exact ⟨fun w hw => h.epochs.1 w (hsent w hw), h.epochs.2⟩
  · intro a ha hp
    rw [hpassed] at hp
    obtain ⟨hdsent, hdapplied⟩ := h.declared a (hlive a ha) hp
    rw [happlied]
    exact ⟨fun w hw => hdsent w (hsent w hw), hdapplied⟩
  · rw [happlied]
    exact h.ascending

theorem Coordinated.requests_kept : ∀ a ∈ s.requests, a ∈ s.requests ∧ a ∉ s.staged :=
  fun a ha => ⟨ha, (h.requests a ha).2⟩

theorem Coordinated.at_of_not_passed {a : Attempt} (ha : a ∈ s.attempts)
    (hp : ¬ s.Passed a) : s.At a := by
  obtain ⟨hepoch, hts, -⟩ := h.attempts a ha
  unfold Passed at hp
  rw [not_or, not_lt, less_iff, not_lt] at hp
  rw [lessEq_iff] at hts
  refine ⟨le_antisymm hepoch hp.1, ?_⟩
  rw [eqOrdering_iff]
  exact le_antisymm hts hp.2

theorem Coordinated.attempted {a : Attempt} (ha : s.Live a) : a ∈ s.attempts :=
  ha.elim (fun hreq => (h.requests a hreq).1) (h.staged a)

theorem Coordinated.dead_of_above {a : Attempt} (ha : s.Live a) {l : TxnWrite} (hl : l ∈ s.applied)
    (hepoch : l.epoch = a.epoch) (hlt : a.ts.Less l.ts) : s.Dead a := by
  by_cases hp : s.Passed a ∨ a ∈ s.failed
  · exact h.dead a ha hp
  rw [less_iff] at hlt
  have hw : ⟨l.key, l.sequence⟩ ∈ a.writes := by
    refine ((h.declared a ha hp).2 l hl hepoch).resolve_left ?_
    rw [lessEq_iff]
    omega
  refine ⟨_, hw, ?_, .inr (.inl ⟨l, hl, rfl, hepoch, (less_iff _ _).mpr hlt⟩)⟩
  rintro ⟨l', hl', hkey', hepoch', hseq', hle'⟩
  have hle := h.ascending l hl l' hl' hkey'.symm (hepoch.trans hepoch'.symm) hseq'
  rw [lessEq_iff] at hle hle'
  omega

theorem Coordinated.dead_of_epoch {a : Attempt}
    (ha : s.Live a) {epoch : ℤ} (hreached : epoch ≤ s.epoch) (hlt : a.epoch < epoch) : s.Dead a :=
  h.dead a ha (.inl (.inl (hlt.trans_le hreached)))

end

end Invariant

end Coordinator

namespace CommitState
open Coordinator

variable {x : TxnIdentity} {s : CommitState}

theorem coordinated_start {epoch : ℤ} {ts : Timestamp} {reads : Bytes → Timestamp}
    (hts : Timestamp.empty.Less ts) : (start epoch ts reads).Coordinated where
  positions := by
    intro p hp
    obtain rfl := mem_singleton.mp hp
    exact ⟨le_refl _, .refl _⟩
  positive := hts
  attempts := by simp [start]
  unique := by simp [start, Live]
  requests := by simp [start]
  staged := by simp [start]
  dead := by simp [start, Live]
  epochs := by simp [start]
  declared := by simp [start, Live]
  ascending := by simp [start]

theorem extends_step {e : CommitEvent} (hv : s.Valid x e) (hcareful : s.Careful e) :
    s.Extends (s.step e).toCoordinator := by
  cases e with
  | read key ts =>
    exact extends_of_reads (fun k => lessEq_update s.reads key k ts) rfl rfl (fun _ => id) rfl rfl
  | send w =>
    refine { Extends.refl s.toCoordinator with sent := ?_ }
    intro r hr
    rcases mem_cons.mp hr with rfl | hr
    · exact .inr ⟨⟨rfl, rfl⟩, hcareful⟩
    · exact .inl hr
  | land w intent =>
    refine { Extends.refl s.toCoordinator with
      sent := fun r hr => .inl (mem_of_mem_erase hr)
      applied_mono := fun l hl => mem_cons_of_mem _ hl
      applied := ?_ }
    intro l hl
    rcases mem_cons.mp hl with rfl | hl
    · exact .inr ⟨⟨w, hv.sent, rfl, rfl, rfl, hv.ts⟩, hv.above, hv.ascends⟩
    · exact .inl hl
  | fail w =>
    exact { Extends.refl s.toCoordinator with sent := fun r hr => .inl (mem_of_mem_erase hr) }
  | advance epoch ts =>
    exact { Extends.refl s.toCoordinator with epoch := hv.1, ts := hv.2.1 }
  | learn a =>
    exact { Extends.refl s.toCoordinator with failed := fun _ hb _ => mem_cons_of_mem _ hb }
  | attempt writes =>
    refine { Extends.refl s.toCoordinator with failed := ?_ }
    intro a ha hlive
    refine mem_filter.mpr ⟨ha, decide_eq_true ?_⟩
    rintro rfl
    exact s.not_passed_here writes (hcareful _ ha hlive)
  | commit a h args ec responseTS =>
    rw [step_commit_toCoordinator]
    exact { Extends.refl s.toCoordinator with }
  | drop a => exact { Extends.refl s.toCoordinator with }
  | command c ec responseTS =>
    change s.Extends (s.apply c ec responseTS).toCoordinator
    rw [apply_toCoordinator]
    exact .refl _
  | gc | pushIntent | resolveIntent | nextBatch => exact .refl _
  | queryTxn r ec =>
    dsimp only [step]
    split_ifs
    · exact .refl _
    · exact .refl _
  | queryIntent r w now =>
    change s.Extends (s.probe r w now).toCoordinator
    rcases probe_eq s r w now with heq | ⟨reads, r', heq, hreads⟩
    · rw [heq]
      exact .refl _
    · rw [heq]
      refine extends_of_reads ?_ rfl rfl (fun _ => id) rfl rfl
      intro key
      rcases hreads with rfl | rfl
      · exact .refl _
      · exact lessEq_update _ _ _ _

end CommitState

namespace Coordinator

variable {x : TxnIdentity} {s : CommitState}

section

variable (h : s.Coordinated)
include h

theorem Coordinated.send {w : SequencedWrite} (hv : s.Valid x (.send w))
    (hcareful : s.Careful (.send w)) : (s.step (.send w)).Coordinated := { h with
  dead := fun a ha hp => (CommitState.extends_step hv hcareful).dead ha (h.dead a ha hp)
  epochs := by
    refine ⟨?_, h.epochs.2⟩
    intro r hr
    rcases mem_cons.mp hr with rfl | hr
    · exact le_refl _
    · exact h.epochs.1 r hr
  declared := by
    intro a ha hp
    obtain ⟨hdsent, hdapplied⟩ := h.declared a ha hp
    refine ⟨?_, hdapplied⟩
    intro r hr hepoch
    rcases mem_cons.mp hr with rfl | hr
    · have ha' := h.attempted ha
      rw [not_or] at hp
      exact (hv a ha' (h.at_of_not_passed ha' hp.1)).resolve_right hp.2
    · exact hdsent r hr hepoch }

theorem Coordinated.land {w : TxnWrite} {intent : TxnMeta}
    (hv : s.Valid x (.land w intent)) : (s.step (.land w intent)).Coordinated := { h with
  dead := fun a ha hp => (CommitState.extends_step hv trivial).dead ha (h.dead a ha hp)
  epochs := by
    refine ⟨fun r hr => h.epochs.1 r (mem_of_mem_erase hr), ?_⟩
    intro l hl
    rcases mem_cons.mp hl with rfl | hl
    · exact h.epochs.1 w hv.sent
    · exact h.epochs.2 l hl
  declared := by
    intro a ha hp
    obtain ⟨hdsent, hdapplied⟩ := h.declared a ha hp
    refine ⟨fun r hr => hdsent r (mem_of_mem_erase hr), ?_⟩
    intro l hl hepoch
    rcases mem_cons.mp hl with rfl | hl
    · exact .inr (hdsent w hv.sent hepoch)
    · exact hdapplied l hl hepoch
  ascending := by
    intro l hl l' hl' hkey hepoch hseq
    rcases mem_cons.mp hl with rfl | hl <;> rcases mem_cons.mp hl' with rfl | hl'
    · exact .refl _
    · have hlt := (hv.ascends l' hl' hkey.symm hepoch.symm).1
      dsimp only at hseq
      omega
    · exact (hv.ascends l hl hkey hepoch).2
    · exact h.ascending l hl l' hl' hkey hepoch hseq }

theorem Coordinated.advance {epoch : ℤ} {ts : Timestamp}
    (hv : s.Valid x (.advance epoch ts)) : (s.step (.advance epoch ts)).Coordinated := by
  have hext := CommitState.extends_step hv trivial
  obtain ⟨hepoch, hts, hmoved, hleave⟩ := hv
  constructor
  · intro p hp
    rcases mem_cons.mp hp with rfl | hp
    · exact ⟨le_refl _, .refl _⟩
    · obtain ⟨hpe, hpt⟩ := h.positions p hp
      exact ⟨hpe.trans hepoch, hpt.trans hts⟩
  · have hpositive := h.positive
    change Timestamp.empty.Less ts
    rw [less_iff] at hpositive ⊢
    rw [lessEq_iff] at hts
    omega
  · intro a ha
    obtain ⟨haepoch, hats, hapos⟩ := h.attempts a ha
    exact ⟨haepoch.trans hepoch, hats.trans hts, hapos⟩
  · exact h.unique
  · exact h.requests
  · exact h.staged
  · intro a ha _
    refine hext.dead ha (h.dead a ha ?_)
    by_cases hpassed : s.Passed a
    · exact .inl hpassed
    · have ha' := h.attempted ha
      exact .inr (hleave a ha' (h.at_of_not_passed ha' hpassed))
  · exact ⟨fun w hw => (h.epochs.1 w hw).trans hepoch, fun l hl => (h.epochs.2 l hl).trans hepoch⟩
  · -- Every attempt is passed now.
    intro a ha hp
    obtain ⟨haepoch, hats, -⟩ := h.attempts a (h.attempted ha)
    refine absurd (.inl ?_) hp
    change a.epoch < epoch ∨ a.ts.Less ts
    rw [less_iff] at hmoved ⊢
    rw [lessEq_iff] at hats
    omega
  · exact h.ascending

theorem Coordinated.learn {a : Attempt} (hv : s.Valid x (.learn a)) :
    (s.step (.learn a)).Coordinated := { h with
  dead := by
    intro b hb hp
    by_cases hold : s.Passed b ∨ b ∈ s.failed
    · exact (CommitState.extends_step hv trivial).dead hb (h.dead b hb hold)
    rw [not_or] at hold
    obtain rfl := (mem_cons.mp (hp.resolve_left hold.1)).resolve_right hold.2
    obtain ⟨w, hw, hnot, hgone⟩ := hv.2.resolve_right (not_not.mpr hb)
    exact ⟨w, hw, hnot, .inr (.inr ⟨.inr mem_cons_self, fun r hr hkey hepoch hseq =>
      absurd hseq (hgone r hr hkey hepoch)⟩)⟩
  declared := fun b hb hp => h.declared b hb fun hold => hp (hold.imp_right (mem_cons_of_mem _)) }

theorem Coordinated.attempt {writes : List SequencedWrite}
    (hv : s.Valid x (.attempt writes)) (hcareful : s.Careful (.attempt writes)) :
    (s.step (.attempt writes)).Coordinated := by
  have hext := CommitState.extends_step hv hcareful
  obtain ⟨hfailed, hsent, happlied⟩ := hv
  have hnot := s.not_passed_here writes
  -- The live attempts before this one are passed, so they are at other positions.
  have hpassed (a : Attempt) (ha : s.Live a) : s.Passed a := by
    by_contra hp
    have ha' := h.attempted ha
    exact hp (hcareful a (hfailed a ha' (h.at_of_not_passed ha' hp)) ha)
  have hlive (a : Attempt) (ha : (s.step (.attempt writes)).Live a) :
      a = ⟨s.epoch, s.ts, writes⟩ ∨ s.Live a := by
    rcases ha with hreq | hst
    · exact (mem_cons.mp hreq).imp_right .inl
    · exact .inr (.inr hst)
  have hother {a : Attempt} (ha : s.Live a) (hepoch : a.epoch = s.epoch)
      (hts : a.ts.EqOrdering s.ts) : False := by
    rw [eqOrdering_iff] at hts
    have hp := hpassed a ha
    unfold Passed at hp
    rw [less_iff] at hp
    omega
  constructor
  · exact h.positions
  · exact h.positive
  · intro a ha
    rcases mem_cons.mp ha with rfl | ha
    · exact ⟨le_refl _, .refl _, h.positive⟩
    · exact h.attempts a ha
  · intro a ha b hb hepoch hts
    rcases hlive a ha with rfl | ha <;> rcases hlive b hb with rfl | hb
    · rfl
    · exact (hother hb hepoch.symm ⟨hts.1.symm, hts.2.symm⟩).elim
    · exact (hother ha hepoch hts).elim
    · exact h.unique a ha b hb hepoch hts
  · intro a ha
    rcases mem_cons.mp ha with rfl | ha
    · exact ⟨mem_cons_self, fun hst => hnot (hpassed _ (.inr hst))⟩
    · exact ⟨mem_cons_of_mem _ (h.requests a ha).1, (h.requests a ha).2⟩
  · exact fun a ha => mem_cons_of_mem _ (h.staged a ha)
  · intro a ha hp
    rcases hlive a ha with rfl | ha
    · rcases hp with hp | hp
      · exact absurd hp hnot
      · exact absurd rfl (of_decide_eq_true (mem_filter.mp hp).2)
    · exact hext.dead ha (h.dead a ha (.inl (hpassed a ha)))
  · exact h.epochs
  · intro a ha hp
    rcases hlive a ha with rfl | ha
    · exact ⟨hsent, happlied⟩
    · exact absurd (.inl (hpassed a ha)) hp
  · exact h.ascending

/-- Every step keeps the invariant of the coordinator. -/
theorem Coordinated.step {e : CommitEvent} (hv : s.Valid x e)
    (hcareful : s.Careful e) : (s.step e).Coordinated := by
  have hext := CommitState.extends_step hv hcareful
  cases e with
  | send w => exact h.send hv hcareful
  | land w intent => exact h.land hv
  | advance epoch ts => exact h.advance hv
  | learn a => exact h.learn hv
  | attempt writes => exact h.attempt hv hcareful
  | read key ts =>
    exact h.keep hext rfl rfl rfl rfl (fun _ => id) rfl h.requests_kept (fun _ => .inl) rfl
  | fail w =>
    exact h.keep hext rfl rfl rfl rfl (fun r hr => mem_of_mem_erase hr) rfl h.requests_kept
      (fun _ => .inl) rfl
  | commit a hd args ec responseTS =>
    have hreq : ∀ b ∈ s.requests.filter (· ≠ a), b ∈ s.requests ∧ b ≠ a := by
      intro b hb
      rw [mem_filter, decide_eq_true_eq] at hb
      exact hb
    rw [CommitState.step_commit_toCoordinator] at hext ⊢
    refine h.keep hext rfl rfl rfl rfl (fun _ => id) rfl ?_ ?_ rfl
    · intro b hb
      obtain ⟨hb, hne⟩ := hreq b hb
      refine ⟨hb, ?_⟩
      dsimp only [CommitState.step]
      split
      · exact fun hst => (h.requests b hb).2 (mem_of_ne_of_mem hne hst)
      · exact (h.requests b hb).2
    · intro b hb
      dsimp only [CommitState.step] at hb
      split at hb
      · rcases mem_cons.mp hb with rfl | hb
        · exact .inr hv.1
        · exact .inl hb
      · exact .inl hb
  | drop a =>
    refine h.keep hext rfl rfl rfl rfl (fun _ => id) rfl ?_ (fun _ => .inl) rfl
    intro b hb
    exact h.requests_kept b (mem_of_mem_filter hb)
  | command c ec responseTS =>
    change (s.apply c ec responseTS).Coordinated
    rwa [CommitState.apply_toCoordinator]
  | gc | pushIntent | resolveIntent | nextBatch => exact h
  | queryTxn r ec =>
    dsimp only [CommitState.step]
    split_ifs
    · exact h
    · exact h
  | queryIntent r w now =>
    change s.Extends (s.probe r w now).toCoordinator at hext
    change (s.probe r w now).Coordinated
    rcases CommitState.probe_eq s r w now with heq | ⟨reads, r', heq, -⟩
    · rw [heq]
      exact h
    · rw [heq] at hext ⊢
      exact h.keep hext rfl rfl rfl rfl (fun _ => id) rfl h.requests_kept (fun _ => .inl) rfl

end

end Coordinator

end Cockroach.KvServer
