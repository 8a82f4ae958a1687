import Cockroach.TsCache.Page

/-! The operations of a page: they keep it healthy and lower no value, a range that was added is
covered, and a lookup returns no less than the value of any key of its range. -/
namespace Cockroach.TsCache
open ByteOrder Hlc CacheValue GapMap List Option

/-- The nodes of a page with this maximum are in order and accounted for. -/
structure Healthy (rt : RatchetingTime) (ns : List Node) : Prop where
  sorted : Sorted ns
  fits : ∀ n ∈ ns, NodeFits rt n

/-- The nodes and the maximum of a page become healthy ones that lower no value. -/
structure Improves (ns : List Node) (rt : RatchetingTime) (ns' : List Node)
    (rt' : RatchetingTime) : Prop where
  healthy : Healthy rt' ns'
  value_le : ∀ c, valueAt zero ns c ≤ valueAt zero ns' c
  maxTime_le : rt ≤ rt'

variable {rt rt' rt'' : RatchetingTime} {ns ns' ns'' : List Node} {a : Arena}

theorem Healthy.mono (h : Healthy rt ns) (hrt : rt ≤ rt') : Healthy rt' ns :=
  ⟨h.sorted, fun n hn => (h.fits n hn).mono hrt⟩

theorem Improves.refl (h : Healthy rt ns) (hrt : rt ≤ rt') : Improves ns rt ns rt' :=
  ⟨h.mono hrt, fun _ => le_rfl, hrt⟩

theorem Improves.trans (h : Improves ns rt ns' rt') (h' : Improves ns' rt' ns'' rt'') :
    Improves ns rt ns'' rt'' :=
  ⟨h'.healthy, fun c => (h.value_le c).trans (h'.value_le c), h.maxTime_le.trans h'.maxTime_le⟩

theorem sorted_of_keys (h : ns'.map Node.key = ns.map Node.key) (hs : Sorted ns) : Sorted ns' := by
  unfold Sorted at hs ⊢
  rw [← pairwise_map (f := Node.key) (R := (· < ·))] at hs ⊢
  rwa [h]

theorem prevInitNode_append (key : Bytes) (ns : List Node) :
    (prevInitNode key ns).1 ++ (prevInitNode key ns).2 = ns := by
  induction ns with
  | nil => rfl
  | cons n ns ih =>
    rw [prevInitNode]
    split_ifs
    · exact congrArg (n :: ·) ih
    · rfl

variable {key : Bytes}

theorem prevInitNode_of_any (h : ns.any (fun m => decide (m.key ≤ key) && m.initialized) = true) :
    ∃ n rest, (prevInitNode key ns).2 = n :: rest ∧ n.initialized = true ∧ n.key ≤ key := by
  induction ns with
  | nil => simp at h
  | cons n ns ih =>
    rw [prevInitNode]
    split_ifs with hany
    · exact ih hany
    · rw [any_cons, Bool.or_eq_true, or_iff_left hany, Bool.and_eq_true, decide_eq_true_eq] at h
      exact ⟨n, ns, rfl, h.2, h.1⟩

theorem prevInitNode_head (key : Bytes) (ns : List Node) : (prevInitNode key ns).1 = [] ∨
      ∃ n rest, (prevInitNode key ns).2 = n :: rest ∧ n.initialized = true ∧ n.key ≤ key := by
  cases ns with
  | nil => exact .inl rfl
  | cons n ns =>
    rw [prevInitNode]
    split_ifs with hany
    · exact .inr (prevInitNode_of_any hany)
    · exact .inl rfl

/-- What the search for the gap before a key returns and leaves. -/
structure Incoming (key : Bytes) (ns : List Node) (a : Arena)
    (r : CacheValue × List Node × Arena) : Prop where
  tags : nodeTags r.2.1 = nodeTags ns
  values : ∀ c, valueAt zero r.2.1 c = valueAt zero ns c
  healthy : Healthy r.2.2.maxTime r.2.1
  maxTime_le : a.maxTime ≤ r.2.2.maxTime
  level_eq : r.2.2.maxTime.get.ticks = a.maxTime.get.ticks
  gapFits : Fits r.2.2.maxTime r.1
  zero_le_gap : zero ≤ r.1
  gap : (∀ n ∈ ns, n.key = key → n.initialized = false) → r.1 = valueAt zero ns (.before key)

variable {r : CacheValue × List Node × Arena}

theorem Incoming.keys (h : Incoming key ns a r) :
    r.2.1.map Node.key = ns.map Node.key := keys_of_tags h.tags

theorem Incoming.improves (h : Incoming key ns a r) : Improves ns a.maxTime r.2.1 r.2.2.maxTime :=
  ⟨h.healthy, fun c => (h.values c).ge, h.maxTime_le⟩

variable {opt : RangeOptions} {before rest : List Node}

/-- A scan of the nodes behind others leaves all of them in order and accounted for. -/
theorem Scanned.healthy_append {stop : Option Bytes} {g m : CacheValue} {first : Bool}
    {r : (CacheValue × CacheValue) × List Node × Arena} (h : Scanned stop opt g m first rest a r)
    (hhealthy : Healthy a.maxTime (before ++ rest)) :
    nodeTags (before ++ r.2.1) = nodeTags (before ++ rest) ∧
      Healthy r.2.2.maxTime (before ++ r.2.1) := by
  have htags : nodeTags (before ++ r.2.1) = nodeTags (before ++ rest) := by
    have hrest := h.tags
    unfold nodeTags at hrest ⊢
    rw [map_append, hrest, ← map_append]
  refine ⟨htags, sorted_of_keys (keys_of_tags htags) hhealthy.sorted, fun n hn => ?_⟩
  rcases mem_append.mp hn with hn | hn
  · exact (hhealthy.fits n (mem_append_left _ hn)).mono h.maxTime_le
  · exact h.fits n hn

theorem incomingGapVal_incoming (key : Bytes) (h : Healthy a.maxTime ns) :
    Incoming key ns a (incomingGapVal key ns a) := by
  have happend := (prevInitNode_append key ns).symm
  have hinit := prevInitNode_head key ns
  unfold incomingGapVal
  dsimp only
  set before := (prevInitNode key ns).1
  set rest := (prevInitNode key ns).2
  have hfits : ∀ n ∈ rest, NodeFits a.maxTime n := fun n hn => h.fits n (by
    rw [happend]
    exact mem_append_right before hn)
  have hscan := @scanTo_scanned (some key) .none zero zero true rest a le_rfl (.zero _) hfits
  obtain ⟨htags, hhealthy⟩ := hscan.healthy_append (happend ▸ h)
  refine ⟨happend ▸ htags, fun c => ?_, hhealthy, hscan.maxTime_le, hscan.level_eq, hscan.gapFits,
    hscan.zero_le_gap, fun hkey => ?_⟩
  · rw [happend]
    rcases hinit with hnil | ⟨n, rest', hrest, hn, -⟩
    · rw [hnil]
      exact hscan.values c
    · refine valueAt_append_congr fun _ => hscan.valuesOfHead ?_ _ c
      rw [hrest]
      rintro _ ⟨⟩
      exact hn
  · rw [hscan.gap key rfl, happend]
    rcases hinit with hnil | ⟨n, rest', hrest, hn, hle⟩
    · rw [hnil]
      rfl
    · have hmem : n ∈ ns := by
        rw [happend, hrest]
        simp
      have hlt : n.key < key := by
        refine lt_of_le_of_ne hle fun heq => ?_
        rw [hkey n hmem heq] at hn
        cases hn
      have hsorted := h.sorted
      rw [happend, hrest] at hsorted
      have hbefore : ∀ m ∈ before, (Cut.before key).side m.key = .gt := fun m hm =>
        Cut.side_before_gt (((pairwise_append.mp hsorted).2.2 m hm n
          mem_cons_self).trans hlt)
      rw [valueAt_append hbefore, hrest]
      exact valueAt_of_initialized hn (by rw [Cut.side_before_gt hlt]; decide)

variable {n : Node}

variable {m : Node} {pre post : List Node}

theorem Improves.replace (h : Healthy rt (pre ++ n :: post)) (hrt : rt ≤ rt')
    (hm : NodeFits rt' m) (hkey : m.key = n.key)
    (hwith : n.keyWith (valueAt zero pre (.before n.key)) ≤
        m.keyWith (valueAt zero pre (.before n.key)) ∧
      n.gapWith (valueAt zero pre (.before n.key)) ≤ m.gapWith (valueAt zero pre (.before n.key))) :
    Improves (pre ++ n :: post) rt (pre ++ m :: post) rt' := by
  have hpre : ∀ x ∈ pre, x.key < n.key := fun x hx =>
    (pairwise_append.mp h.sorted).2.2 x hx n mem_cons_self
  refine ⟨⟨sorted_of_keys (by simp [hkey]) h.sorted, fun x hx => ?_⟩, fun c =>
    valueAt_le_replace hkey.symm hpre hwith.1 hwith.2, hrt⟩
  rw [mem_append, mem_cons] at hx
  rcases hx with hx | rfl | hx
  · exact (h.fits x (by simp [hx])).mono hrt
  · exact hm
  · exact (h.fits x (by simp [hx])).mono hrt

theorem updateNode_split (f : Node → Arena → Bool × Node × Arena) (a : Arena)
    (h : ∃ n ∈ ns, n.key = key) : ∃ pre n post, ns = pre ++ n :: post ∧ n.key = key ∧
      updateNode key f ns a = ((f n a).1, pre ++ (f n a).2.1 :: post, (f n a).2.2) := by
  induction ns with
  | nil => simp at h
  | cons m ns ih =>
    rw [updateNode]
    split_ifs with hkey
    · exact ⟨[], m, ns, rfl, hkey, rfl⟩
    · obtain ⟨n, hn, hnkey⟩ := h
      rcases mem_cons.mp hn with rfl | hn
      · exact absurd hnkey hkey
      · obtain ⟨pre, n, post, rfl, hkey', heq⟩ := ih ⟨n, hn, hnkey⟩
        refine ⟨m :: pre, n, post, rfl, hkey', ?_⟩
        rw [heq]
        rfl

theorem valueAt_before_append (hs : Sorted (pre ++ n :: post)) :
    valueAt zero (pre ++ n :: post) (.before n.key) = valueAt zero pre (.before n.key) := by
  have hpre : ∀ x ∈ pre, (Cut.before n.key).side x.key = .gt := fun x hx =>
    Cut.side_before_gt ((pairwise_append.mp hs).2.2 x hx n mem_cons_self)
  rw [valueAt_append hpre]
  exact valueAt_cons_of_lt (Cut.side_before_lt le_rfl)

theorem exists_key_of_keys (h : ns'.map Node.key = ns.map Node.key) (hmem : ∃ n ∈ ns, n.key = key) :
    ∃ n ∈ ns', n.key = key := by
  obtain ⟨n, hn, rfl⟩ := hmem
  have hkeys : n.key ∈ ns'.map Node.key := by
    rw [h]
    exact mem_map_of_mem hn
  exact mem_map.mp hkeys

theorem ensureInitialized_improves (h : Healthy a.maxTime ns) (hmem : ∃ n ∈ ns, n.key = key)
    (hinit : ∀ n ∈ ns, n.key = key → n.initialized = false) :
    Improves ns a.maxTime (ensureInitialized key ns a).2.1
      (ensureInitialized key ns a).2.2.maxTime ∧
      ((ensureInitialized key ns a).2.1).map Node.key = ns.map Node.key := by
  have hin := incomingGapVal_incoming key h
  unfold ensureInitialized
  dsimp only
  set r := incomingGapVal key ns a
  obtain ⟨pre, n, post, hsplit, rfl, heq⟩ := updateNode_split
    (ratchetValueSet .onlyIfUninitialized r.1 r.1 true) r.2.2 (exists_key_of_keys hin.keys hmem)
  have hratchet := ratchetValueSet_ratchets .onlyIfUninitialized r.1 r.1 true n r.2.2
  have hhealthy := hin.healthy
  have hgap : valueAt zero pre (.before n.key) = r.1 := by
    rw [hin.gap hinit, ← hin.values, hsplit]
    exact (valueAt_before_append (hsplit ▸ hhealthy.sorted)).symm
  rw [hsplit] at hhealthy
  have hfits := hratchet.nodeFits (hhealthy.fits n (by simp)) hin.gapFits.1 hin.gapFits.1
    fun _ => hin.zero_le_gap
  have hwith := hratchet.with_le (g := valueAt zero pre (.before n.key))
    fun _ => ⟨hgap.le, hgap.le⟩
  rw [heq]
  refine ⟨hin.improves.trans ?_, ?_⟩
  · have := Improves.replace hhealthy hratchet.maxTime_le hfits hratchet.key_eq hwith
    rwa [← hsplit] at this
  · rw [← hin.keys, hsplit]
    simp [hratchet.key_eq]

variable {val : CacheValue}

theorem Fits.ite (hval : Fits rt val) (b : Bool) : Fits rt (if b then val else .zero) := by
  cases b
  · exact Fits.zero rt
  · exact hval

theorem updateNode_always {keyVal gapVal : CacheValue} (h : Healthy a.maxTime ns)
    (hkey : Compressible keyVal.ts) (hgap : Compressible gapVal.ts) (hmem : ∃ n ∈ ns, n.key = key)
    {r : Bool × List Node × Arena}
    (hr : updateNode key (ratchetValueSet .always keyVal gapVal false) ns a = r) :
    Improves ns a.maxTime r.2.1 r.2.2.maxTime ∧ (r.1 = true →
      keyVal ≤ valueAt zero r.2.1 (.key key) ∧ gapVal ≤ valueAt zero r.2.1 (.after key)) := by
  obtain ⟨pre, n, post, rfl, rfl, heq⟩ :=
    updateNode_split (ratchetValueSet .always keyVal gapVal false) a hmem
  rw [heq] at hr
  subst hr
  have hratchet := ratchetValueSet_ratchets .always keyVal gapVal false n a
  have himproves := Improves.replace h hratchet.maxTime_le
    (hratchet.nodeFits (h.fits n (by simp)) hkey hgap (by simp)) hratchet.key_eq
    (hratchet.with_le (by simp))
  refine ⟨himproves, fun hok => ?_⟩
  obtain ⟨hkey', hgap'⟩ := hratchet.given_le hok fun _ => rfl
  have hnode := le_valueAt_of_mem (g := zero) himproves.healthy.sorted
    (mem_append_right pre mem_cons_self)
  rw [hratchet.key_eq] at hnode
  exact ⟨hkey'.trans hnode.1, hgap'.trans hnode.2⟩

/-- What adding a node guarantees. -/
def Adds (key : Bytes) (val : CacheValue) (opt : NodeOptions) (ns : List Node) (a : Arena)
    (r : Bool × List Node × Arena) : Prop :=
  Improves ns a.maxTime r.2.1 r.2.2.maxTime ∧ (r.1 = true →
    (opt.hasKey = true → val ≤ valueAt zero r.2.1 (.key key)) ∧
      (opt.hasGap = true → val ≤ valueAt zero r.2.1 (.after key)))

/-- A new node inherits from the gap that it is put into. -/
theorem insertNode_adds (opt : NodeOptions) {r : RatchetingTime} (h : Healthy r ns)
    (hno : ∀ n ∈ ns, n.key ≠ key) (hval : Compressible val.ts)
    (hmax : a.maxTime = r.ratchet val.ts) {s : Bool × List Node × Arena}
    (hs : ensureInitialized key (insertNode ⟨key, stored (if opt.hasKey then val else zero),
      stored (if opt.hasGap then val else zero), false, false⟩ ns) a = s) :
    Improves ns r s.2.1 s.2.2.maxTime ∧ (opt.hasKey = true → val ≤ valueAt zero s.2.1 (.key key)) ∧
      (opt.hasGap = true → val ≤ valueAt zero s.2.1 (.after key)) := by
  set n : Node := ⟨key, stored (if opt.hasKey then val else zero),
    stored (if opt.hasGap then val else zero), false, false⟩
  have hval' : Fits a.maxTime val := hmax ▸ Fits.ratchet hval r
  have hle : r ≤ a.maxTime := hmax ▸ RatchetingTime.le_ratchet _ _
  have hmem : n ∈ insertNode n ns := mem_insertNode.mpr (.inl rfl)
  have hhealthy : Healthy a.maxTime (insertNode n ns) := by
    refine ⟨sorted_insertNode h.sorted hno, fun m hm => ?_⟩
    rcases mem_insertNode.mp hm with rfl | hm
    · exact ⟨(hval'.ite _).stored, (hval'.ite _).stored, by simp⟩
    · exact (h.fits m hm).mono hle
  have hinsert : Improves ns r (insertNode n ns) a.maxTime :=
    ⟨hhealthy, fun c => valueAt_le_insertNode rfl, hle⟩
  have hinit : ∀ m ∈ insertNode n ns, m.key = key → m.initialized = false := by
    intro m hm hkey
    rcases mem_insertNode.mp hm with rfl | hm
    · rfl
    · exact absurd hkey (hno m hm)
  have hensure := (ensureInitialized_improves hhealthy ⟨n, hmem, rfl⟩ hinit).1
  rw [hs] at hensure
  have hnode := le_valueAt_of_mem (g := zero) hhealthy.sorted hmem
  refine ⟨hinsert.trans hensure, fun hkey => ?_, fun hgap => ?_⟩
  · have hval_le : val ≤ n.keyVal := by
      unfold n
      rw [hkey]
      exact le_stored val
    exact hval_le.trans (hnode.1.trans (hensure.value_le _))
  · have hval_le : val ≤ n.gapVal := by
      unfold n
      rw [hgap]
      exact le_stored val
    exact hval_le.trans (hnode.2.trans (hensure.value_le _))

theorem addNode_adds (opt : NodeOptions) (mustInit : Bool) (h : Healthy a.maxTime ns)
    (hval : Compressible val.ts) : Adds key val opt ns a (addNode key val opt mustInit ns a) := by
  unfold addNode
  cases hfind : ns.find? fun n => n.key = key with
  | none =>
    have hno : ∀ n ∈ ns, n.key ≠ key := by
      simpa using hfind
    have hin := incomingGapVal_incoming key h
    dsimp only
    set r := incomingGapVal key ns a
    have hno' : ∀ n ∈ r.2.1, n.key ≠ key := by
      intro n hn heq
      obtain ⟨m, hm, hmkey⟩ := exists_key_of_keys hin.keys.symm ⟨n, hn, heq⟩
      exact hno m hm hmkey
    by_cases hskip : (ratchetValue r.1 val).2 = false
    · rw [if_pos hskip]
      refine ⟨hin.improves, fun _ => ?_⟩
      have hle : val ≤ valueAt zero r.2.1 (.before key) := by
        rw [hin.values, ← hin.gap fun n hn heq => absurd heq (hno n hn)]
        exact ratchetValue_snd.mp hskip
      obtain ⟨hkey, hgap⟩ := valueAt_of_not_mem (g := zero) hno'
      exact ⟨fun _ => hle.trans hkey.ge, fun _ => hle.trans hgap.ge⟩
    · rw [if_neg hskip]
      have hmax := (r.2.2.ratchetMaxTimestamp val.ts).alloc_maxTime
      rcases halloc : (r.2.2.ratchetMaxTimestamp val.ts).alloc with ⟨_ | _, a'⟩
      · rw [halloc] at hmax
        refine ⟨hin.improves.trans (.refl hin.healthy ?_), by simp⟩
        rw [hmax]
        exact RatchetingTime.le_ratchet _ _
      · rw [halloc] at hmax
        obtain ⟨himproves, hcover⟩ := insertNode_adds opt hin.healthy hno' hval hmax rfl
        exact ⟨hin.improves.trans himproves, fun _ => hcover⟩
  | some n =>
    dsimp only
    have hn : n ∈ ns := mem_of_find?_eq_some hfind
    have hnkey : n.key = key := by
      simpa using find?_some hfind
    set r := if n.initialized = false ∧ mustInit = true then ensureInitialized key ns a
      else (true, ns, a) with hr
    obtain ⟨himproves, hkeys⟩ : Improves ns a.maxTime r.2.1 r.2.2.maxTime ∧
        r.2.1.map Node.key = ns.map Node.key := by
      rw [hr]
      split_ifs with hinit
      · refine ensureInitialized_improves h ⟨n, hn, hnkey⟩ fun m hm hmkey => ?_
        rw [h.sorted.key_inj hm hn (hmkey.trans hnkey.symm)]
        exact hinit.1
      · exact ⟨.refl h le_rfl, rfl⟩
    by_cases hok : r.1 = false
    · rw [if_pos hok]
      exact ⟨himproves, by simp⟩
    rw [if_neg hok]
    by_cases hopt : opt = ⟨false, false⟩
    · rw [hopt]
      exact ⟨himproves, by simp⟩
    rw [if_neg hopt]
    have hvals := fun b => ((Fits.ratchet hval ⟨0, by norm_num⟩).ite b).1
    obtain ⟨hraise, hcover⟩ := updateNode_always himproves.healthy (hvals opt.hasKey)
      (hvals opt.hasGap) (exists_key_of_keys hkeys ⟨n, hn, hnkey⟩) rfl
    refine ⟨himproves.trans hraise, fun hok' => ?_⟩
    obtain ⟨hkey, hgap⟩ := hcover hok'
    refine ⟨fun hhas => ?_, fun hhas => ?_⟩
    · exact (if_pos hhas).ge.trans hkey
    · exact (if_pos hhas).ge.trans hgap

/-- What raising the nodes of a range guarantees. -/
structure Floors (start : Bytes) (stop : Option Bytes) (val : CacheValue) (ns : List Node)
    (a : Arena) (r : Bool × List Node × Arena) : Prop where
  keys : r.2.1.map Node.key = ns.map Node.key
  value_le : ∀ g c, valueAt g ns c ≤ valueAt g r.2.1 c
  maxTime_le : a.maxTime ≤ r.2.2.maxTime
  fits : ∀ n ∈ r.2.1, NodeFits r.2.2.maxTime n
  floor : r.1 = true → ∀ n ∈ r.2.1, start < n.key → (∀ key ∈ stop, n.key < key) →
    val ≤ n.keyVal ∧ val ≤ n.gapVal

variable {start : Bytes} {stop : Option Bytes}

theorem Floors.cons {a' : Arena} {r : Bool × List Node × Arena}
    (h : Floors start stop val ns a' r) (hkey : m.key = n.key)
    (hwith : ∀ g, n.keyWith g ≤ m.keyWith g ∧ n.gapWith g ≤ m.gapWith g)
    (hmax : a.maxTime ≤ a'.maxTime) (hfits : NodeFits a'.maxTime m)
    (hfloor : start < m.key → val ≤ m.keyVal ∧ val ≤ m.gapVal) :
    Floors start stop val (n :: ns) a (r.1, m :: r.2.1, r.2.2) where
  keys := by rw [map_cons, map_cons, h.keys, hkey]
  value_le g c := valueAt_cons_le hkey.symm le_rfl (hwith g).1
    ((valueAt_mono (hwith g).2).trans (h.value_le _ c))
  maxTime_le := hmax.trans h.maxTime_le
  fits := forall_mem_cons.mpr ⟨hfits.mono h.maxTime_le, h.fits⟩
  floor hok := forall_mem_cons.mpr ⟨fun hstart _ => hfloor hstart, h.floor hok⟩

theorem ensureFloorValue_floors (h : Healthy a.maxTime ns) (hval : Compressible val.ts) :
    Floors start stop val ns a (ensureFloorValue start stop val ns a) := by
  induction ns generalizing a with
  | nil => exact ⟨rfl, fun _ _ => le_rfl, le_rfl, by simp [ensureFloorValue], by
      simp [ensureFloorValue]⟩
  | cons n ns ih =>
    obtain ⟨hn, hns⟩ := pairwise_cons.mp h.sorted
    obtain ⟨hfit, hfits⟩ := forall_mem_cons.mp h.fits
    -- The nodes are left as they are; nothing is promised unless the range is behind.
    have hstay : ∀ ok : Bool, (ok = true → ∃ key ∈ stop, key ≤ n.key) →
        Floors start stop val (n :: ns) a (ok, n :: ns, a) := by
      intro ok hok
      refine ⟨rfl, fun _ _ => le_rfl, le_rfl, h.fits, fun htrue m hm _ hlt => ?_⟩
      obtain ⟨key, hkey, hle⟩ := hok htrue
      have hmkey : key ≤ m.key := by
        rcases mem_cons.mp hm with rfl | hm
        · exact hle
        · exact hle.trans (hn m hm).le
      exact absurd (hlt key hkey) hmkey.not_gt
    rw [ensureFloorValue]
    by_cases hstart : n.key ≤ start
    · rw [if_pos hstart]
      exact (ih ⟨hns, hfits⟩).cons rfl (fun _ => ⟨le_rfl, le_rfl⟩) le_rfl hfit
        fun hlt => absurd hstart hlt.not_ge
    rw [if_neg hstart]
    by_cases hstop : ∃ key ∈ stop, key ≤ n.key
    · rw [if_pos hstop]
      exact hstay true fun _ => hstop
    rw [if_neg hstop]
    by_cases hfull : a.isFull = true
    · rw [if_pos hfull]
      exact hstay false (by simp)
    rw [if_neg hfull]
    have hratchet := ratchetValueSet_ratchets .always val val false n a
    dsimp only
    set r := ratchetValueSet .always val val false n a
    have hfit' := hratchet.nodeFits hfit hval hval (by simp)
    by_cases hok : r.1 = true
    · rw [if_pos hok]
      refine (ih ⟨hns, fun m hm => (hfits m hm).mono hratchet.maxTime_le⟩).cons hratchet.key_eq
        (fun _ => hratchet.with_le (by simp)) hratchet.maxTime_le hfit' fun _ => ?_
      exact hratchet.given_le hok fun _ => rfl
    · rw [if_neg hok]
      refine ⟨by rw [map_cons, map_cons, hratchet.key_eq], fun g c => ?_,
        hratchet.maxTime_le, forall_mem_cons.mpr ⟨hfit', fun m hm =>
          (hfits m hm).mono hratchet.maxTime_le⟩, by simp⟩
      have hwith := hratchet.with_le (g := g) (by simp)
      exact valueAt_cons_le hratchet.key_eq.symm le_rfl hwith.1 (valueAt_mono hwith.2)

/-- The key belongs to a range with this start. -/
def FromStart (start : Bytes) (opt : RangeOptions) (k : Bytes) : Prop :=
  start < k ∨ k = start ∧ opt.excludeFrom = false

/-- The key belongs to a range with this end, which may be open. -/
def ToStop (stop : Option Bytes) (opt : RangeOptions) (k : Bytes) : Prop :=
  ∀ key ∈ stop, k < key ∨ k = key ∧ opt.excludeTo = false

/-- The keys of a range; without a start it is only its end key. -/
def InRange (start stop : Option Bytes) (opt : RangeOptions) (k : Bytes) : Prop :=
  match start with
  | none => stop = some k ∧ opt.excludeTo = false
  | some key => FromStart key opt k ∧ ToStop stop opt k

theorem FromStart.le {k : Bytes} (h : FromStart start opt k) : start ≤ k := by
  rcases h with h | h
  · exact h.le
  · exact h.1.ge

namespace InRange

variable {start stop : Option Bytes} {opt : RangeOptions} {k : Bytes}

theorem start_le (h : InRange start (some key) opt k) : start.getD key ≤ k := by
  cases start with
  | none => exact (some.inj h.1).le
  | some _ => exact h.1.le

theorem le_stop (h : InRange start stop opt k) : ∀ key ∈ stop, k ≤ key := by
  intro key hkey
  cases start with
  | none => exact (mem_unique h.1 hkey).le
  | some _ =>
    rcases h.2 key hkey with h | h
    · exact h.le
    · exact h.1.le

theorem includes_stop (h : InRange start stop opt k) (hk : stop = some k) :
    opt.excludeTo = false := by
  cases start with
  | none => exact h.2
  | some _ =>
    rcases h.2 k hk with h | h
    · exact absurd h (lt_irrefl k)
    · exact h.2

theorem eq_of_same (h : InRange start (some key) opt k) (hsame : start.getD key = key) :
    k = key ∧ opt.excludeTo = false := by
  have hkey : k = key := le_antisymm (h.le_stop key rfl) (hsame.ge.trans h.start_le)
  exact ⟨hkey, h.includes_stop (congrArg some hkey.symm)⟩

end InRange

theorem Incoming.split {s : CacheValue × List Node × Arena} (h : Incoming start ns a s)
    (happend : s.2.1 = before ++ rest) (hbefore : ∀ n ∈ before, n.key < start)
    (hrest : ∀ n ∈ rest, start ≤ n.key) : (∀ k, start ≤ k → valueAt zero ns (.key k) =
        valueAt (valueAt zero before (.before start)) rest (.key k)) ∧
      ((∀ n ∈ rest, n.key = start → n.initialized = false) →
        s.1 = valueAt zero before (.before start)) := by
  have hside : ∀ n ∈ before, (Cut.before start).side n.key = .gt := fun n hn =>
    Cut.side_before_gt (hbefore n hn)
  refine ⟨fun k hk => ?_, fun hinit => ?_⟩
  · have hside' : ∀ n ∈ before, (Cut.key k).side n.key = .gt := fun n hn =>
      Cut.side_key_gt ((hbefore n hn).trans_le hk)
    rw [← h.values, happend, valueAt_append hside', valueAt_eq_of_gt hside' hside]
  · have hgap : s.1 = valueAt zero ns (.before start) := by
      refine h.gap fun n hn hkey => ?_
      have hmem : (n.key, n.initialized) ∈ nodeTags s.2.1 := by
        rw [h.tags]
        exact mem_map_of_mem hn
      obtain ⟨m, hm, heq⟩ := mem_map.mp hmem
      obtain ⟨hmkey, hminit⟩ := Prod.mk.inj heq
      rw [← hminit]
      rw [happend] at hm
      rcases mem_append.mp hm with hm | hm
      · exact absurd (hmkey.trans hkey) (hbefore m hm).ne
      · exact hinit m hm (hmkey.trans hkey)
    rw [hgap, ← h.values, happend, valueAt_append hside]
    exact valueAt_of_forall_lt fun n hn => Cut.side_before_lt (hrest n hn)

theorem maxInRange_spec (h : Healthy a.maxTime ns) (hr : maxInRange start stop opt ns a = r) :
    Improves ns a.maxTime r.2.1 r.2.2.maxTime ∧ r.2.2.maxTime.get.ticks = a.maxTime.get.ticks ∧
      ∀ k, FromStart start opt k → ToStop stop opt k → valueAt zero ns (.key k) ≤ r.1 := by
  have hin := incomingGapVal_incoming start h
  unfold maxInRange at hr
  dsimp only at hr
  set s := incomingGapVal start ns a
  have happend : s.2.1 = (s.2.1.takeWhile fun n => n.key < start) ++
      s.2.1.dropWhile fun n => n.key < start := (takeWhile_append_dropWhile).symm
  have hbefore : ∀ n ∈ s.2.1.takeWhile fun n => n.key < start, n.key < start := by
    intro n hn
    simpa using mem_takeWhile_imp hn
  set before := s.2.1.takeWhile fun n => n.key < start
  rcases hdrop : s.2.1.dropWhile fun n => n.key < start with _ | ⟨n, rest⟩
  · rw [hdrop] at hr happend
    subst hr
    obtain ⟨hvalue, hgap⟩ := hin.split happend hbefore (by simp)
    refine ⟨hin.improves, hin.level_eq, fun k hk _ => ?_⟩
    rw [hvalue k hk.le, hgap (by simp)]
    exact le_rfl
  · rw [hdrop] at hr happend
    have hn : start ≤ n.key := by
      have hhead := head_dropWhile_not (fun n : Node => decide (n.key < start)) (l := s.2.1)
        (by rw [hdrop]; simp)
      simpa [hdrop] using hhead
    have hsorted := hin.healthy.sorted
    rw [happend] at hsorted
    obtain ⟨-, hsorted', -⟩ := pairwise_append.mp hsorted
    have hlater : ∀ m ∈ rest, n.key < m.key := (pairwise_cons.mp hsorted').1
    have hrest : ∀ m ∈ n :: rest, start ≤ m.key :=
      forall_mem_cons.mpr ⟨hn, fun m hm => hn.trans (hlater m hm).le⟩
    obtain ⟨hvalue, hgap⟩ := hin.split happend hbefore hrest
    have hfits : ∀ m ∈ n :: rest, NodeFits s.2.2.maxTime m := fun m hm =>
      hin.healthy.fits m (by rw [happend]; exact mem_append_right _ hm)
    set g := if n.key = start ∧ n.initialized = true then zero else s.1 with hg
    have hzero : zero ≤ g := by
      rw [hg]
      split_ifs
      · exact le_rfl
      · exact hin.zero_le_gap
    have hfit : Fits s.2.2.maxTime g := by
      rw [hg]
      split_ifs
      · exact .zero _
      · exact hin.gapFits
    have hgap' : ¬ (n.key = start ∧ n.initialized = true) →
        g = valueAt zero before (.before start) := by
      intro hne
      rw [hg, if_neg hne]
      refine hgap (forall_mem_cons.mpr ⟨fun hkey => ?_, fun m hm hkey => ?_⟩)
      · simpa [hkey] using hne
      · exact absurd hkey (hn.trans_lt (hlater m hm)).ne'
    set opt' := if n.key = start then opt else { opt with excludeFrom := false } with hopt'
    have hscan := @scanTo_scanned stop opt' g g true (n :: rest) s.2.2 hzero hfit hfits
    subst hr
    set t := scanTo stop opt' g g true (n :: rest) s.2.2
    have hhealthy := (hscan.healthy_append (happend ▸ hin.healthy)).2
    refine ⟨hin.improves.trans ⟨hhealthy, fun c => ?_, hscan.maxTime_le⟩,
      hscan.level_eq.trans hin.level_eq, fun k hk hto => ?_⟩
    · rw [happend]
      refine (valueAt_append_congr fun hside => ?_).ge
      by_cases hinit : n.key = start ∧ n.initialized = true
      · refine hscan.valuesOfHead ?_ _ c
        rintro _ ⟨⟩
        exact hinit.2
      · rw [valueAt_eq_of_gt hside fun m hm => Cut.side_before_gt (hbefore m hm), ← hgap' hinit]
        exact hscan.values c
    · have hle : valueAt g (n :: rest) (.key k) ≤ t.1.2 := by
        refine hscan.value_le_max le_rfl k ?_ ?_
        · intro key hkey
          have hsame : opt'.excludeTo = opt.excludeTo := by
            rw [hopt']
            split_ifs <;> rfl
          rw [hsame]
          exact hto key hkey
        · rintro - hexcl _ ⟨⟩ rfl
          rw [hopt'] at hexcl
          split_ifs at hexcl with hkey
          rcases hk with hlt | ⟨-, hincl⟩
          · exact absurd hkey hlt.ne'
          · rw [hexcl] at hincl
            cases hincl
      rw [hvalue k hk.le]
      by_cases hinit : n.key = start ∧ n.initialized = true
      · have hside : (Cut.key k).side n.key ≠ .lt := by
          rw [hinit.1]
          exact fun hside => absurd (compare_lt_iff_lt.mp hside) hk.le.not_gt
        exact (valueAt_of_initialized hinit.2 hside).trans_le hle
      · rw [← hgap' hinit]
        exact hle

namespace SklPage

variable {p p' p'' : SklPage} {start stop : Option Bytes} {opt : RangeOptions} {val : CacheValue}
  {allocs : List Bool}

/-- The value that a page gives to a key. -/
def value (p : SklPage) (k : Bytes) : CacheValue := valueAt zero p.nodes (.key k)

def Sound (p : SklPage) : Prop := Healthy p.maxTime p.nodes

/-- The page becomes a sound one that lowers no value. -/
def ImprovesTo (p p' : SklPage) : Prop := Improves p.nodes p.maxTime p'.nodes p'.maxTime

theorem ImprovesTo.value_le (h : p.ImprovesTo p') (k : Bytes) : p.value k ≤ p'.value k :=
  Improves.value_le h (.key k)

theorem Sound.value_le_bound (h : p.Sound) (k : Bytes) : p.value k ≤ p.maxTime.bound := by
  refine valueAt_le_of_forall (RatchetingTime.zero_le_bound _) fun n hn => ?_
  exact ⟨(h.fits n hn).keyVal.2, (h.fits n hn).gapVal.2⟩

theorem Sound.value_ticks_le (h : p.Sound) (k : Bytes) :
    (p.value k).ts.ticks ≤ p.maxTime.get.ticks := by
  have hle := ticks_le_of_le (h.value_le_bound k)
  rwa [RatchetingTime.ticks_bound] at hle

theorem addStop_spec (h : Healthy a.maxTime ns) (hval : Compressible val.ts)
    {r : Bool × List Node × Arena} (hr : addStop stop opt val ns a = r) :
    Improves ns a.maxTime r.2.1 r.2.2.maxTime ∧ (r.1 = true → ∀ key ∈ stop,
      opt.excludeTo = false → val ≤ valueAt zero r.2.1 (.key key)) := by
  subst hr
  cases stop with
  | none => exact ⟨.refl h le_rfl, by simp⟩
  | some key =>
    have hadds : Adds key val _ ns a _ := addNode_adds ⟨!opt.excludeTo, false⟩ true h hval
    refine ⟨hadds.1, fun hok => ?_⟩
    rintro _ ⟨⟩ hincl
    exact (hadds.2 hok).1 (by rw [hincl]; rfl)

theorem addStart_spec (h : Healthy a.maxTime ns) (hval : Compressible val.ts)
    {r : Bool × List Node × Arena} (hr : addStart (some key) stop opt val ns a = r) :
    Improves ns a.maxTime r.2.1 r.2.2.maxTime ∧ (r.1 = true → ∀ k, FromStart key opt k →
      (∀ x ∈ stop, k < x) → val ≤ valueAt zero r.2.1 (.key k)) := by
  have hadds : Adds key val _ ns a _ := addNode_adds ⟨!opt.excludeFrom, true⟩ false h hval
  unfold addStart at hr
  dsimp only at hr
  set t := addNode key val ⟨!opt.excludeFrom, true⟩ false ns a
  by_cases hok : t.1 = true
  · rw [if_pos hok] at hr
    have hfloor : Floors key stop val _ _ _ := ensureFloorValue_floors hadds.1.healthy hval
    rw [hr] at hfloor
    have hlast : Improves t.2.1 t.2.2.maxTime r.2.1 r.2.2.maxTime :=
      ⟨⟨sorted_of_keys hfloor.keys hadds.1.healthy.sorted, hfloor.fits⟩, hfloor.value_le zero,
        hfloor.maxTime_le⟩
    refine ⟨hadds.1.trans hlast, fun hok' k hstart hstop => ?_⟩
    rcases hstart with hlt | ⟨rfl, hincl⟩
    · have hgap := ((hadds.2 hok).2 rfl).trans (hlast.value_le _)
      refine le_valueAt_of_floor hlast.healthy.sorted hgap (fun n hn hstart hle => ?_) hlt
      exact hfloor.floor hok' n hn hstart fun x hx => hle.trans_lt (hstop x hx)
    · exact ((hadds.2 hok).1 (by rw [hincl]; rfl)).trans (hlast.value_le _)
  · rw [if_neg hok] at hr
    subst hr
    exact ⟨hadds.1, by simp⟩

theorem addRange_spec (h : p.Sound) (hval : Compressible val.ts) :
    p.ImprovesTo (p.addRange start stop opt val allocs).2 ∧
      ((p.addRange start stop opt val allocs).1 = true → ∀ k, InRange start stop opt k →
          val ≤ (p.addRange start stop opt val allocs).2.value k) := by
  obtain ⟨himproves, hstop⟩ := addStop_spec (a := p.arena allocs) h hval
    (rfl : addStop stop opt val p.nodes (p.arena allocs) = _)
  unfold addRange
  dsimp only
  set r := addStop stop opt val p.nodes (p.arena allocs)
  by_cases hok : r.1 = true
  · rw [if_pos hok]
    cases start with
    | none => exact ⟨himproves, fun _ k hk => hstop hok k hk.1 hk.2⟩
    | some key =>
      obtain ⟨hlast, hrange⟩ := addStart_spec himproves.healthy hval
        (rfl : addStart (some key) stop opt val r.2.1 r.2.2 = _)
      refine ⟨himproves.trans hlast, fun hok' k hk => ?_⟩
      by_cases hend : ∀ x ∈ stop, k < x
      · exact hrange hok' k hk.1 hend
      · push Not at hend
        obtain ⟨x, hx, hle⟩ := hend
        rcases hk.2 x hx with hlt | ⟨rfl, hincl⟩
        · exact absurd hlt hle.not_gt
        · exact (hstop hok k hx hincl).trans (hlast.value_le _)
  · rw [if_neg hok]
    exact ⟨himproves, by simp⟩

/-- A search improves the page at its time. -/
def Refines (p p' : SklPage) : Prop :=
  p.ImprovesTo p' ∧ p'.maxTime.get.ticks = p.maxTime.get.ticks

theorem search_spec {start : Bytes} (h : p.Sound) :
    p.Refines (p.search start stop opt allocs).2 ∧ ∀ k, FromStart start opt k →
      ToStop stop opt k → p.value k ≤ (p.search start stop opt allocs).1 := by
  obtain ⟨himproves, hlevel, hle⟩ := maxInRange_spec (a := p.arena allocs) h
    (rfl : maxInRange start stop opt p.nodes (p.arena allocs) = _)
  exact ⟨⟨himproves, hlevel⟩, hle⟩

theorem lookupTimestampRange_spec (h : p.Sound) :
    p.Refines (p.lookupTimestampRange start stop opt allocs).2 ∧
      ∀ k, InRange start stop opt k → p.value k ≤
        (p.lookupTimestampRange start stop opt allocs).1 := by
  have hrefl : p.Refines p := ⟨.refl h le_rfl, rfl⟩
  unfold lookupTimestampRange
  cases stop with
  | none =>
    cases start with
    | none =>
      refine ⟨(search_spec h).1, fun k hk => ?_⟩
      cases hk.1
    | some key => exact ⟨(search_spec h).1, fun k hk => (search_spec h).2 k hk.1 hk.2⟩
  | some key =>
    dsimp only
    cases hcmp : bytesCompare (start.getD key) key with
    | gt =>
      refine ⟨hrefl, fun k hk => ?_⟩
      rw [bytesCompare_gt_iff] at hcmp
      exact absurd hk.start_le (lt_of_le_of_lt (hk.le_stop key rfl) hcmp).not_ge
    | eq =>
      rw [bytesCompare_eq_iff] at hcmp
      have honly : ∀ k, InRange start (some key) opt k → k = key ∧ opt.excludeTo = false :=
        fun k hk => hk.eq_of_same hcmp
      by_cases hopt : opt = ⟨true, true⟩
      · rw [if_pos hopt]
        refine ⟨hrefl, fun k hk => ?_⟩
        have hincl := (honly k hk).2
        rw [hopt] at hincl
        cases hincl
      · rw [if_neg hopt]
        refine ⟨(search_spec h).1, fun k hk => ?_⟩
        obtain rfl := (honly k hk).1
        refine (search_spec h).2 k (.inr ⟨rfl, rfl⟩) ?_
        rintro _ ⟨⟩
        exact .inr ⟨rfl, rfl⟩
    | lt =>
      cases start with
      | none =>
        rw [getD_none, bytesCompare_self] at hcmp
        cases hcmp
      | some key' => exact ⟨(search_spec h).1, fun k hk => (search_spec h).2 k hk.1 hk.2⟩

end SklPage

end Cockroach.TsCache
