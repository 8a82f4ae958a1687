import Cockroach.TsCache.IntervalSkl

/-! A page gives a value to every key. No operation lowers one, a range that was added is covered,
and a lookup finds what is there. -/
namespace Cockroach.TsCache
open ByteOrder Hlc CacheValue GapMap List Option

variable {ts : Timestamp}

theorem compressible_of_ticks {ts' : Timestamp} (h : ts.ticks = ts'.ticks) (hts : Compressible ts) :
    Compressible ts' := by
  have hlog := ts.logical_lt
  have hlog' := ts'.logical_lt
  unfold Timestamp.ticks at h
  have hwall : ts.wallTime = ts'.wallTime := by
    omega
  have hlogical : ts.logical = ts'.logical := by
    omega
  unfold Compressible at hts ⊢
  rwa [← hwall, ← hlogical]

/-- A page with this maximum accounts for the value. -/
def Fits (rt : RatchetingTime) (v : CacheValue) : Prop := Compressible v.ts ∧ v ≤ rt.bound

namespace Fits

variable {rt rt' : RatchetingTime} {v w : CacheValue}

theorem zero (rt : RatchetingTime) : Fits rt .zero := ⟨by decide, rt.zero_le_bound⟩

theorem compressible_sup (hv : Fits rt v) (hw : Compressible w.ts) : Compressible (v ⊔ w).ts := by
  have hticks := ticks_sup v w
  rcases le_total v.ts.ticks w.ts.ticks with h | h
  · rw [max_eq_right h] at hticks
    exact compressible_of_ticks hticks.symm hw
  · rw [max_eq_left h] at hticks
    exact compressible_of_ticks hticks.symm hv.1

theorem sup (hv : Fits rt v) (hw : Fits rt w) : Fits rt (v ⊔ w) :=
  ⟨hv.compressible_sup hw.1, sup_le hv.2 hw.2⟩

theorem mono (hv : Fits rt v) (h : rt ≤ rt') : Fits rt' v :=
  ⟨hv.1, hv.2.trans (RatchetingTime.bound_mono h)⟩

theorem stored (hv : Fits rt v) : Fits rt (stored v) := by
  unfold TsCache.stored
  split_ifs
  · exact zero rt
  · exact hv

theorem ticks_le (hv : Fits rt v) : v.ts.ticks ≤ rt.get.ticks := by
  have hle := ticks_le_of_le hv.2
  rwa [RatchetingTime.ticks_bound] at hle

theorem ratchet (hv : Compressible v.ts) (rt : RatchetingTime) : Fits (rt.ratchet v.ts) v :=
  ⟨hv, le_bound_ratchet hv rt⟩

end Fits

theorem le_unowned (v : CacheValue) : v ≤ ⟨v.ts, none⟩ := .inr ⟨rfl, id, .inl rfl⟩

theorem le_stored (v : CacheValue) : v ≤ stored v := by
  unfold stored
  split_ifs with h
  · have hzero : (⟨v.ts, none⟩ : CacheValue) = zero := congrArg (CacheValue.mk · none) h
    exact hzero ▸ le_unowned v
  · exact le_rfl

theorem stored_of_zero_le {v : CacheValue} (h : zero ≤ v) : stored v = v := by
  refine le_antisymm ?_ (le_stored v)
  unfold stored
  split_ifs
  · exact h
  · exact le_rfl

theorem unowned_forward (ts ts' : Timestamp) :
    (⟨ts.forward ts', none⟩ : CacheValue) = ⟨ts, none⟩ ⊔ ⟨ts', none⟩ := by
  rw [← ratchetValue_fst]
  rcases lt_trichotomy ts.ticks ts'.ticks with h | h | h
  · rw [Timestamp.forward_of_lt h, @ratchetValue_of_lt ⟨ts, none⟩ ⟨ts', none⟩ h]
  · obtain ⟨hticks, hsyn, htxn, -⟩ := @ratchetValue_of_eq ⟨ts, none⟩ ⟨ts', none⟩ h
    refine CacheValue.ext (Timestamp.ext_ticks ?_ ?_) ?_
    · rw [hticks, Timestamp.ticks_forward, h, max_self]
    · rw [Timestamp.forward_of_eq h, Bool.eq_iff_iff, hsyn, Bool.and_eq_true]
    · rw [htxn]
      rfl
  · rw [Timestamp.forward_of_gt h, @ratchetValue_of_gt ⟨ts, none⟩ ⟨ts', none⟩ h]

theorem compressible_forward {ts' : Timestamp} (h : Compressible ts) (h' : Compressible ts') :
    Compressible (ts.forward ts') := by
  rcases le_total ts.ticks ts'.ticks with hle | hle
  · exact compressible_of_ticks (by rw [Timestamp.ticks_forward, max_eq_right hle]) h'
  · exact compressible_of_ticks (by rw [Timestamp.ticks_forward, max_eq_left hle]) h

variable {rt : RatchetingTime}

theorem ratchet_level (hts : Compressible ts) (hle : ts.ticks ≤ rt.get.ticks) :
    (rt.ratchet ts).get.ticks = rt.get.ticks := by
  rw [RatchetingTime.ticks_get] at hle ⊢
  rw [RatchetingTime.ticks_get]
  unfold RatchetingTime.ratchet
  split_ifs with h
  · rfl
  · unfold Compressible at hts
    unfold Timestamp.ticks at hle
    have hwall : ts.wallTime + (if ts.logical > 0 then 1 else 0) ≤ rt.1 - rt.1 % 2 := by
      split_ifs <;> omega
    unfold makeRatchetingTime roundedWallTime increment64 at h ⊢
    dsimp only at h ⊢
    split_ifs at h hts hwall ⊢ <;> omega

theorem fits_ratchet_forward {v w : CacheValue} (hv : Compressible v.ts) (hw : Compressible w.ts)
    (rt : RatchetingTime) :
    Fits (rt.ratchet (v.ts.forward w.ts)) v ∧ Fits (rt.ratchet (v.ts.forward w.ts)) w := by
  have hforward := compressible_forward hv hw
  have hle : (⟨v.ts.forward w.ts, none⟩ : CacheValue) ≤ (rt.ratchet (v.ts.forward w.ts)).bound :=
    @le_bound_ratchet ⟨v.ts.forward w.ts, none⟩ hforward rt
  rw [unowned_forward] at hle
  exact ⟨⟨hv, (le_unowned v).trans (le_sup_left.trans hle)⟩,
    ⟨hw, (le_unowned w).trans (le_sup_right.trans hle)⟩⟩

/-- A page with this maximum accounts for the values of the node. -/
structure NodeFits (rt : RatchetingTime) (n : Node) : Prop where
  keyVal : Fits rt n.keyVal
  gapVal : Fits rt n.gapVal
  zero_le : n.initialized = true → zero ≤ n.gapVal

theorem NodeFits.mono {rt' : RatchetingTime} {n : Node} (hn : NodeFits rt n) (h : rt ≤ rt') :
    NodeFits rt' n := ⟨hn.keyVal.mono h, hn.gapVal.mono h, hn.zero_le⟩

theorem NodeFits.gapWith {n : Node} {g : CacheValue} (hn : NodeFits rt n) (hg : zero ≤ g)
    (hfit : Fits rt g) : zero ≤ n.gapWith g ∧ Fits rt (n.gapWith g) := by
  unfold Node.gapWith
  split_ifs with h
  · exact ⟨hn.zero_le h, hn.gapVal⟩
  · exact ⟨hg.trans le_sup_right, hn.gapVal.sup hfit⟩

/-- The ways in which the values of a node are raised, or not. -/
inductive Ratchets (policy : RatchetPolicy) (keyVal gapVal : CacheValue) (setInit : Bool)
    (n : Node) (a : Arena) : Bool × Node × Arena → Prop
  | kept : n.initialized = true → policy = .onlyIfUninitialized →
      Ratchets policy keyVal gapVal setInit n a (true, n, a)
  | refused : ¬ (n.initialized = true ∧ policy = .onlyIfUninitialized) →
      Ratchets policy keyVal gapVal setInit n a (false, n, a)
  | raised {a' : Arena} : ¬ (n.initialized = true ∧ policy = .onlyIfUninitialized) →
      a'.maxTime = a.maxTime.ratchet ((n.keyVal ⊔ keyVal).ts.forward (n.gapVal ⊔ gapVal).ts) →
      Ratchets policy keyVal gapVal setInit n a (true, { n with
        keyVal := stored (n.keyVal ⊔ keyVal), gapVal := stored (n.gapVal ⊔ gapVal)
        initialized := n.initialized || setInit }, a')
  | givenUp {a' : Arena} : ¬ (n.initialized = true ∧ policy = .onlyIfUninitialized) →
      a'.maxTime = a.maxTime.ratchet ((n.keyVal ⊔ keyVal).ts.forward (n.gapVal ⊔ gapVal).ts) →
      Ratchets policy keyVal gapVal setInit n a
        (false, { n with cantInit := n.cantInit || !n.initialized }, a')
  | unchanged : ¬ (n.initialized = true ∧ policy = .onlyIfUninitialized) →
      keyVal ≤ n.keyVal → gapVal ≤ n.gapVal → Ratchets policy keyVal gapVal setInit n a
        (true, { n with initialized := n.initialized || setInit }, a)

theorem Arena.alloc_maxTime (a : Arena) : a.alloc.2.maxTime = a.maxTime := by
  unfold alloc
  cases a.allocs <;> rfl

theorem ratchetValueSet_ratchets (policy : RatchetPolicy) (keyVal gapVal : CacheValue)
    (setInit : Bool) (n : Node) (a : Arena) : Ratchets policy keyVal gapVal setInit n a
      (ratchetValueSet policy keyVal gapVal setInit n a) := by
  unfold ratchetValueSet
  by_cases hkept : n.initialized = true ∧ policy = .onlyIfUninitialized
  · rw [if_pos hkept]
    exact .kept hkept.1 hkept.2
  rw [if_neg hkept]
  by_cases hcant : n.cantInit = true
  · rw [if_pos hcant]
    exact .refused hkept
  rw [if_neg hcant]
  dsimp only
  have hinit : (n.initialized || (setInit && !n.initialized)) = (n.initialized || setInit) := by
    cases n.initialized <;> simp
  by_cases hupdate :
      ((ratchetValue n.keyVal keyVal).2 || (ratchetValue n.gapVal gapVal).2) = true
  · rw [if_pos hupdate]
    have hmax := (a.ratchetMaxTimestamp ((n.keyVal ⊔ keyVal).ts.forward
      (n.gapVal ⊔ gapVal).ts)).alloc_maxTime
    rcases halloc : (a.ratchetMaxTimestamp ((n.keyVal ⊔ keyVal).ts.forward
      (n.gapVal ⊔ gapVal).ts)).alloc with ⟨_ | _, a'⟩
    · rw [halloc] at hmax
      exact .givenUp hkept hmax
    · rw [halloc] at hmax
      simp only [hinit]
      exact .raised hkept hmax
  · rw [if_neg hupdate]
    rw [Bool.or_eq_true, not_or, Bool.not_eq_true, Bool.not_eq_true, ratchetValue_snd,
      ratchetValue_snd] at hupdate
    have hsame := @Ratchets.unchanged policy keyVal gapVal setInit n a hkept hupdate.1 hupdate.2
    obtain ⟨key, keyVal', gapVal', init, cant⟩ := n
    cases init <;> cases setInit <;> exact hsame

namespace Ratchets

variable {policy : RatchetPolicy} {keyVal gapVal : CacheValue} {setInit : Bool} {n : Node}
  {a : Arena} {r : Bool × Node × Arena}

section

variable (h : Ratchets policy keyVal gapVal setInit n a r)
include h

theorem key_eq : r.2.1.key = n.key := by
  cases h <;> rfl

theorem maxTime_le : a.maxTime ≤ r.2.2.maxTime := by
  cases h with
  | kept | refused | unchanged => exact le_rfl
  | raised hkept hmax | givenUp hkept hmax =>
    rw [hmax]
    exact RatchetingTime.le_ratchet _ _

theorem vals_le : n.keyVal ≤ r.2.1.keyVal ∧ n.gapVal ≤ r.2.1.gapVal := by
  cases h with
  | raised => exact ⟨le_sup_left.trans (le_stored _), le_sup_left.trans (le_stored _)⟩
  | kept | refused | givenUp | unchanged => exact ⟨le_rfl, le_rfl⟩

theorem given_le (hok : r.1 = true) (hpolicy : n.initialized = true → policy = .always) :
    keyVal ≤ r.2.1.keyVal ∧ gapVal ≤ r.2.1.gapVal := by
  cases h with
  | kept hinit honly =>
    rw [hpolicy hinit] at honly
    cases honly
  | refused | givenUp => cases hok
  | raised => exact ⟨le_sup_right.trans (le_stored _), le_sup_right.trans (le_stored _)⟩
  | unchanged hkept hkey hgap => exact ⟨hkey, hgap⟩

end

theorem initialized_eq (h : Ratchets policy keyVal gapVal false n a r) :
    r.2.1.initialized = n.initialized := by
  cases h <;> simp

section

variable (h : Ratchets policy keyVal gapVal setInit n a r)
include h

theorem setInit_of_initialized (hr : r.2.1.initialized = true) (hn : n.initialized = false) :
    setInit = true ∧ r.1 = true := by
  cases h with
  | kept hinit => exact absurd hinit (by rw [hn]; decide)
  | refused | givenUp => exact absurd hr (by rw [hn]; decide)
  | raised | unchanged => exact ⟨by simpa [hn] using hr, rfl⟩

theorem nodeFits (hn : NodeFits a.maxTime n)
    (hkey : Compressible keyVal.ts) (hgap : Compressible gapVal.ts)
    (hinit : setInit = true → zero ≤ gapVal) : NodeFits r.2.2.maxTime r.2.1 := by
  have hmax := h.maxTime_le
  refine ⟨?_, ?_, fun hr => ?_⟩
  · cases h with
    | kept | refused | unchanged => exact hn.keyVal
    | raised hkept hmax' =>
      rw [hmax']
      exact (fits_ratchet_forward (hn.keyVal.compressible_sup hkey)
        (hn.gapVal.compressible_sup hgap) _).1.stored
    | givenUp => exact hn.keyVal.mono hmax
  · cases h with
    | kept | refused | unchanged => exact hn.gapVal
    | raised hkept hmax' =>
      rw [hmax']
      exact (fits_ratchet_forward (hn.keyVal.compressible_sup hkey)
        (hn.gapVal.compressible_sup hgap) _).2.stored
    | givenUp => exact hn.gapVal.mono hmax
  · cases hinitialized : n.initialized with
    | true => exact (hn.zero_le hinitialized).trans h.vals_le.2
    | false =>
      have hset := h.setInit_of_initialized hr hinitialized
      exact (hinit hset.1).trans (h.given_le hset.2 (by simp [hinitialized])).2

theorem level_eq (hn : NodeFits a.maxTime n)
    (hkey : Fits a.maxTime keyVal) (hgap : Fits a.maxTime gapVal) :
    r.2.2.maxTime.get.ticks = a.maxTime.get.ticks := by
  have hkey' := hn.keyVal.sup hkey
  have hgap' := hn.gapVal.sup hgap
  have hlevel := ratchet_level (compressible_forward hkey'.1 hgap'.1)
    ((Timestamp.ticks_forward _ _).trans_le (max_le hkey'.ticks_le hgap'.ticks_le))
  cases h with
  | kept | refused | unchanged => rfl
  | raised hkept hmax | givenUp hkept hmax =>
    rw [hmax]
    exact hlevel

theorem with_le {g : CacheValue} (hg : setInit = true → g ≤ keyVal ∧ g ≤ gapVal) :
    n.keyWith g ≤ r.2.1.keyWith g ∧ n.gapWith g ≤ r.2.1.gapWith g := by
  obtain ⟨hkey, hgap⟩ := h.vals_le
  unfold Node.keyWith Node.gapWith
  cases hn : n.initialized with
  | true =>
    have hr : r.2.1.initialized = true := by
      cases h <;> simp [hn]
    simp only [hr, if_true]
    exact ⟨hkey, hgap⟩
  | false =>
    cases hr : r.2.1.initialized with
    | false => exact ⟨sup_le_sup_right hkey g, sup_le_sup_right hgap g⟩
    | true =>
      obtain ⟨hset, hok⟩ := h.setInit_of_initialized hr hn
      obtain ⟨hkey', hgap'⟩ := h.given_le hok (by simp [hn])
      exact ⟨sup_le hkey ((hg hset).1.trans hkey'), sup_le hgap ((hg hset).2.trans hgap')⟩

end

theorem inherit {g : CacheValue} (h : Ratchets .onlyIfUninitialized g g false n a r)
    (hg : zero ≤ g) : (if r.1 then r.2.1.keyVal else r.2.1.keyVal ⊔ g) = n.keyWith g ∧
      (if r.1 then r.2.1.gapVal else r.2.1.gapVal ⊔ g) = n.gapWith g ∧
      r.2.1.keyWith g = n.keyWith g ∧ r.2.1.gapWith g = n.gapWith g := by
  unfold Node.keyWith Node.gapWith
  cases h with
  | kept hinit honly => simp [hinit]
  | refused hkept | givenUp hkept hmax =>
    have hinit : n.initialized = false := by
      simpa using hkept
    simp [hinit]
  | raised hkept hmax =>
    have hinit : n.initialized = false := by
      simpa using hkept
    have hkey := stored_of_zero_le (hg.trans (le_sup_right : g ≤ n.keyVal ⊔ g))
    have hgap := stored_of_zero_le (hg.trans (le_sup_right : g ≤ n.gapVal ⊔ g))
    simp [hinit, hkey, hgap]
  | unchanged hkept hkey hgap =>
    have hinit : n.initialized = false := by
      simpa using hkept
    simp [hinit, hkey, hgap]

theorem eq_of_initialized (h : Ratchets .onlyIfUninitialized keyVal gapVal setInit n a r)
    (hn : n.initialized = true) : r.2.1 = n := by
  cases h with
  | kept hinit honly => rfl
  | refused hkept | raised hkept hmax | givenUp hkept hmax | unchanged hkept hkey hgap =>
    exact absurd ⟨hn, rfl⟩ hkept

end Ratchets

/-- The keys of the nodes and which of them are initialized. -/
def nodeTags (ns : List Node) : List (Bytes × Bool) := ns.map fun n => (n.key, n.initialized)

theorem keys_of_tags {ns ns' : List Node} (h : nodeTags ns' = nodeTags ns) :
    ns'.map Node.key = ns.map Node.key := by
  have hfst : ∀ ns, ns.map Node.key = (nodeTags ns).map Prod.fst := by
    simp [nodeTags, Function.comp_def]
  rw [hfst, hfst, h]

/-- What a scan from a gap value on leaves: the keys and the values are the same. -/
structure Scanned (stop : Option Bytes) (opt : RangeOptions) (g m : CacheValue) (first : Bool)
    (ns : List Node) (a : Arena) (r : (CacheValue × CacheValue) × List Node × Arena) : Prop where
  tags : nodeTags r.2.1 = nodeTags ns
  values : ∀ c, valueAt g r.2.1 c = valueAt g ns c
  valuesOfHead : (∀ n ∈ ns.head?, n.initialized = true) →
    ∀ g' c, valueAt g' r.2.1 c = valueAt g' ns c
  maxTime_le : a.maxTime ≤ r.2.2.maxTime
  level_eq : r.2.2.maxTime.get.ticks = a.maxTime.get.ticks
  fits : ∀ n ∈ r.2.1, NodeFits r.2.2.maxTime n
  gapFits : Fits r.2.2.maxTime r.1.1
  zero_le_gap : zero ≤ r.1.1
  gap : ∀ key ∈ stop, r.1.1 = valueAt g ns (.before key)
  max_le : m ≤ r.1.2
  value_le_max : g ≤ m → ∀ k, (∀ key ∈ stop, k < key ∨ k = key ∧ opt.excludeTo = false) →
    (first = true → opt.excludeFrom = true → ∀ n ∈ ns.head?, n.key ≠ k) →
    valueAt g ns (.key k) ≤ r.1.2

variable {key : Bytes} {stop : Option Bytes}

theorem compareStop_eq_lt : compareStop key stop = .lt ↔ ∀ x ∈ stop, key < x := by
  cases stop with
  | none => simp [compareStop]
  | some x => simp [compareStop, bytesCompare_lt_iff]

theorem compareStop_eq_eq : compareStop key stop = .eq ↔ stop = some key := by
  cases stop with
  | none => simp [compareStop]
  | some x =>
    rw [compareStop, bytesCompare_eq_iff, some.injEq]
    exact eq_comm

theorem compareStop_eq_gt : compareStop key stop = .gt ↔ ∃ x ∈ stop, x < key := by
  cases stop with
  | none => simp [compareStop]
  | some x => simp [compareStop, bytesCompare_gt_iff]

section Scan

variable {stop : Option Bytes} {opt : RangeOptions} {g m : CacheValue} {first : Bool}
  {n : Node} {ns : List Node} {a : Arena}

theorem Scanned.stopped (hg : zero ≤ g) (hfit : Fits a.maxTime g)
    (hns : ∀ n ∈ ns, NodeFits a.maxTime n) (hlt : ∀ n ∈ ns.head?, ∃ key ∈ stop, key ≤ n.key ∧
      (key = n.key → opt.excludeTo = true)) : Scanned stop opt g m first ns a ((g, m), ns, a) where
  tags := rfl
  values _ := rfl
  valuesOfHead _ _ _ := rfl
  maxTime_le := le_rfl
  level_eq := rfl
  fits := hns
  gapFits := hfit
  zero_le_gap := hg
  gap key hkey := by
    cases ns with
    | nil => rfl
    | cons n ns =>
      obtain ⟨key', hkey', hle, -⟩ := hlt n rfl
      obtain rfl := mem_unique hkey hkey'
      exact (valueAt_cons_of_lt (Cut.side_before_lt hle)).symm
  max_le := le_rfl
  value_le_max hgm k hk _ := by
    cases ns with
    | nil => exact hgm
    | cons n ns =>
      obtain ⟨key, hkey, hle, hexcl⟩ := hlt n rfl
      have hkn : k < n.key := by
        rcases hk key hkey with hlt | ⟨rfl, hincl⟩
        · exact hlt.trans_le hle
        · refine lt_of_le_of_ne hle fun heq => ?_
          rw [hexcl heq] at hincl
          cases hincl
      rw [valueAt_cons_of_lt (Cut.side_key_lt hkn)]
      exact hgm

theorem scanTo_scanned (hg : zero ≤ g) (hfit : Fits a.maxTime g)
    (hns : ∀ n ∈ ns, NodeFits a.maxTime n) :
    Scanned stop opt g m first ns a (scanTo stop opt g m first ns a) := by
  induction ns generalizing g m first a with
  | nil => exact .stopped hg hfit hns (by simp)
  | cons n ns ih =>
    rw [scanTo]
    by_cases hstop : compareStop n.key stop = .gt ∨
        compareStop n.key stop = .eq ∧ opt.excludeTo = true
    · rw [if_pos hstop]
      refine .stopped hg hfit hns ?_
      rintro _ ⟨⟩
      rcases hstop with hgt | ⟨heq, hexcl⟩
      · obtain ⟨key, hkey, hlt⟩ := compareStop_eq_gt.mp hgt
        exact ⟨key, hkey, hlt.le, fun h => absurd h hlt.ne⟩
      · exact ⟨n.key, compareStop_eq_eq.mp heq, le_rfl, fun _ => hexcl⟩
    rw [if_neg hstop]
    have hratchet := ratchetValueSet_ratchets .onlyIfUninitialized g g false n a
    set r := ratchetValueSet .onlyIfUninitialized g g false n a
    obtain ⟨hkey, hgap, hkeyWith, hgapWith⟩ := hratchet.inherit hg
    have htag : (r.2.1.key, r.2.1.initialized) = (n.key, n.initialized) := by
      rw [hratchet.key_eq, hratchet.initialized_eq]
    have hfits := hratchet.nodeFits (hns n mem_cons_self) hfit.1 hfit.1 (by simp)
    have hlevel := hratchet.level_eq (hns n mem_cons_self) hfit hfit
    have hrest : ∀ m ∈ ns, NodeFits r.2.2.maxTime m := fun m hm =>
      (hns m (mem_cons_of_mem n hm)).mono hratchet.maxTime_le
    obtain ⟨hzero, hfit'⟩ := (hns n mem_cons_self).gapWith hg hfit
    simp only [ratchetValue_fst, hkey, hgap]
    set m' := if (first && opt.excludeFrom) = true then m else m ⊔ n.keyWith g
    have hm' : m ≤ m' := by
      unfold m'
      split_ifs
      · exact le_rfl
      · exact le_sup_left
    have hkey_le : (first = true → opt.excludeFrom = true → False) → n.keyWith g ≤ m' := by
      intro hfirst
      have hincl : ¬ (first && opt.excludeFrom) = true := by
        rw [Bool.and_eq_true]
        exact fun h => hfirst h.1 h.2
      unfold m'
      rw [if_neg hincl]
      exact le_sup_right
    by_cases heq : compareStop n.key stop = .eq
    · rw [if_pos heq]
      obtain rfl := compareStop_eq_eq.mp heq
      exact {
        tags := congrArg (· :: nodeTags ns) htag
        values := fun c => valueAt_cons_congr hratchet.key_eq hkeyWith (by rw [hgapWith])
        valuesOfHead := fun hhead g' c => by rw [hratchet.eq_of_initialized (hhead n rfl)]
        maxTime_le := hratchet.maxTime_le
        level_eq := hlevel
        fits := forall_mem_cons.mpr ⟨hfits, hrest⟩
        gapFits := hfit.mono hratchet.maxTime_le
        zero_le_gap := hg
        gap := fun key hkey => by
          obtain rfl := mem_some_iff.mp hkey
          exact (valueAt_cons_of_lt (Cut.side_before_lt le_rfl)).symm
        max_le := hm'
        value_le_max := fun hgm k hk hfirst => by
          rcases hk n.key rfl with hlt | ⟨rfl, -⟩
          · rw [valueAt_cons_of_lt (Cut.side_key_lt hlt)]
            exact hgm.trans hm'
          · rw [valueAt_cons_of_eq (Cut.side_key_self _)]
            exact hkey_le fun h h' => hfirst h h' n rfl rfl }
    · rw [if_neg heq]
      have hlt : ∀ key ∈ stop, n.key < key := by
        rw [← compareStop_eq_lt]
        rw [not_or] at hstop
        cases hcmp : compareStop n.key stop with
        | lt => rfl
        | eq => exact absurd hcmp heq
        | gt => exact absurd hcmp hstop.1
      have hscan := @ih (n.gapWith g) (m' ⊔ n.gapWith g) false r.2.2 hzero
        (hfit'.mono hratchet.maxTime_le) hrest
      exact {
        tags := congrArg₂ (· :: ·) htag hscan.tags
        values := fun c => valueAt_cons_congr hratchet.key_eq hkeyWith
          (by rw [hgapWith, hscan.values])
        valuesOfHead := fun hhead g' c => by
          have hinit := hhead n rfl
          rw [hratchet.eq_of_initialized hinit]
          have hgap' : n.gapWith g' = n.gapWith g := by
            simp [Node.gapWith, hinit]
          exact valueAt_cons_congr rfl rfl (by rw [hgap', hscan.values])
        maxTime_le := hratchet.maxTime_le.trans hscan.maxTime_le
        level_eq := hscan.level_eq.trans hlevel
        fits := forall_mem_cons.mpr ⟨hfits.mono hscan.maxTime_le, hscan.fits⟩
        gapFits := hscan.gapFits
        zero_le_gap := hscan.zero_le_gap
        gap := fun key hkey => by
          rw [valueAt_cons_of_gt (Cut.side_before_gt (hlt key hkey))]
          exact hscan.gap key hkey
        max_le := hm'.trans (le_sup_left.trans hscan.max_le)
        value_le_max := fun hgm k hk hfirst => by
          rcases lt_trichotomy k n.key with hkn | rfl | hkn
          · rw [valueAt_cons_of_lt (Cut.side_key_lt hkn)]
            exact (hgm.trans hm').trans (le_sup_left.trans hscan.max_le)
          · rw [valueAt_cons_of_eq (Cut.side_key_self _)]
            exact (hkey_le fun h h' => hfirst h h' n rfl rfl).trans
              (le_sup_left.trans hscan.max_le)
          · rw [valueAt_cons_of_gt (Cut.side_key_gt hkn)]
            exact hscan.value_le_max le_sup_right k hk (by simp) }

end Scan

end Cockroach.TsCache
