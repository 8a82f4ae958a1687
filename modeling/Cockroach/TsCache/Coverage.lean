import Cockroach.TsCache.PageCover

/-! What the timestamp cache was told about stays covered: by a page, or by the floor that takes the
place of evicted pages. -/
namespace Cockroach.TsCache
open ByteOrder Hlc CacheValue GapMap List

namespace IntervalSkl

variable {s s' : IntervalSkl} {start stop : Option Bytes} {opt : RangeOptions}
  {val v : CacheValue} {k : Bytes}

def allPages (s : IntervalSkl) : List SklPage := s.front :: s.pages

/-- Newer pages have later maxima. -/
def Descending (ps : List SklPage) : Prop :=
  ps.Pairwise fun p q => q.maxTime.get.ticks ≤ p.maxTime.get.ticks

structure Sound (s : IntervalSkl) : Prop where
  page : ∀ p ∈ s.allPages, p.Sound
  descending : Descending s.allPages

/-- What a lookup finds at least, in any page. -/
def floor (s : IntervalSkl) : CacheValue := zero ⊔ ⟨s.floorTS, none⟩

/-- The cache accounts for a read of the key with this value. -/
def Covered (s : IntervalSkl) (k : Bytes) (v : CacheValue) : Prop :=
  v ≤ s.floor ∨ ∃ p ∈ s.allPages, v ≤ p.value k

theorem covered_of_front (hfront : s.front.ImprovesTo s'.front) (hpages : s'.pages = s.pages)
    (hfloor : s'.floorTS = s.floorTS) (h : s.Covered k v) : s'.Covered k v := by
  rcases h with h | ⟨p, hp, hle⟩
  · left
    unfold floor at h ⊢
    rwa [hfloor]
  · right
    rcases mem_cons.mp hp with rfl | hp
    · exact ⟨s'.front, mem_cons_self, hle.trans (hfront.value_le k)⟩
    · exact ⟨p, mem_cons_of_mem _ (hpages ▸ hp), hle⟩

theorem level_mono {rt rt' : RatchetingTime} (h : rt ≤ rt') : rt.get.ticks ≤ rt'.get.ticks := by
  have hle : rt.1 ≤ rt'.1 := h
  rw [RatchetingTime.ticks_get, RatchetingTime.ticks_get]
  omega

theorem sound_of_front (hfront : s.front.ImprovesTo s'.front) (hpages : s'.pages = s.pages)
    (h : s.Sound) : s'.Sound := by
  obtain ⟨hhead, htail⟩ := pairwise_cons.mp h.descending
  refine ⟨fun p hp => ?_, pairwise_cons.mpr ⟨fun q hq => ?_, hpages ▸ htail⟩⟩
  · rcases mem_cons.mp hp with rfl | hp
    · exact hfront.healthy
    · exact h.page p (mem_cons_of_mem _ (hpages ▸ hp))
  · exact (hhead q (hpages ▸ hq)).trans (level_mono hfront.maxTime_le)

theorem addRange_spec (h : s.Sound) (hval : Compressible val.ts) (allocs : List Bool) :
    (s.addRange start stop opt val allocs).2.Sound ∧
      (∀ k v, s.Covered k v → (s.addRange start stop opt val allocs).2.Covered k v) ∧
      ((s.addRange start stop opt val allocs).1 = true → ∀ k, InRange start stop opt k →
        (s.addRange start stop opt val allocs).2.Covered k val) := by
  unfold addRange
  split_ifs with hfloor
  · refine ⟨h, fun _ _ hcov => hcov, fun _ k _ => .inl ?_⟩
    refine le_trans (.inl ?_) le_sup_right
    exact (Timestamp.less_iff _ _).mp hfloor
  · obtain ⟨himproves, hrange⟩ := SklPage.addRange_spec (h.page s.front mem_cons_self) hval
    refine ⟨sound_of_front himproves rfl h, fun k v => covered_of_front himproves rfl rfl,
      fun hok k hk => .inr ⟨_, mem_cons_self, hrange hok k hk⟩⟩

theorem evict_spec (now : Timestamp) (ps : List SklPage) (floorTS : Timestamp) :
    ∃ dropped, ps = dropped ++ (evict now ps floorTS).1 ∧
      (⟨floorTS, none⟩ : CacheValue) ≤ ⟨(evict now ps floorTS).2, none⟩ ∧
      ∀ p ∈ dropped, (⟨p.maxTime.get, none⟩ : CacheValue) ≤ ⟨(evict now ps floorTS).2, none⟩ := by
  induction ps generalizing floorTS with
  | nil => exact ⟨[], rfl, le_rfl, by simp⟩
  | cons back ps ih =>
    rw [evict]
    split_ifs
    · exact ⟨[], rfl, le_rfl, by simp⟩
    · obtain ⟨dropped, heq, hfloor, hdropped⟩ := ih (floorTS.forward back.maxTime.get)
      rw [unowned_forward] at hfloor
      refine ⟨back :: dropped, by rw [cons_append, ← heq], le_sup_left.trans hfloor, ?_⟩
      exact forall_mem_cons.mpr ⟨le_sup_right.trans hfloor, hdropped⟩

theorem rotatePages_spec (h : s.Sound) (now : Timestamp) :
    (s.rotatePages now).Sound ∧ ∀ k v, s.Covered k v → (s.rotatePages now).Covered k v := by
  obtain ⟨dropped, heq, hfloor, hdropped⟩ := evict_spec now s.pages.reverse s.floorTS
  unfold rotatePages
  set r := evict now s.pages.reverse s.floorTS
  have hpages : s.pages = r.1.reverse ++ dropped.reverse := by
    rw [← reverse_append, ← heq, reverse_reverse]
  have hkept : List.Sublist (s.front :: r.1.reverse) s.allPages := by
    unfold allPages
    rw [hpages]
    exact (sublist_append_left _ _).cons_cons _
  refine ⟨⟨?_, ?_⟩, ?_⟩
  · intro p hp
    rcases mem_cons.mp hp with rfl | hp
    · exact ⟨List.Pairwise.nil, by simp⟩
    · exact h.page p (hkept.subset hp)
  · have hdesc := h.descending.sublist hkept
    refine pairwise_cons.mpr ⟨fun p hp => ?_, hdesc⟩
    rcases mem_cons.mp hp with rfl | hp
    · exact le_rfl
    · exact (pairwise_cons.mp hdesc).1 p hp
  · intro k v hcov
    rcases hcov with hle | ⟨p, hp, hle⟩
    · exact .inl (hle.trans (sup_le_sup_left hfloor _))
    · unfold allPages at hp
      rw [hpages, mem_cons, mem_append] at hp
      rcases hp with rfl | hp | hp
      · exact .inr ⟨_, mem_cons_of_mem _ mem_cons_self, hle⟩
      · exact .inr ⟨p, mem_cons_of_mem _ (mem_cons_of_mem _ hp), hle⟩
      · left
        have hbound := (h.page p (by
          unfold allPages
          rw [hpages]
          simp [mem_reverse.mp hp])).value_le_bound k
        refine hle.trans (hbound.trans (sup_le ?_ le_sup_left))
        exact (hdropped p (mem_reverse.mp hp)).trans le_sup_right

/-- A run of the cache keeps it sound and keeps what it covers. -/
structure Keeps (s s' : IntervalSkl) : Prop where
  sound : s'.Sound
  covered : ∀ k v, s.Covered k v → s'.Covered k v

theorem Keeps.refl (h : s.Sound) : s.Keeps s := ⟨h, fun _ _ hcov => hcov⟩

theorem Keeps.trans {s'' : IntervalSkl} (h : s.Keeps s') (h' : s'.Keeps s'') : s.Keeps s'' :=
  ⟨h'.sound, fun k v hcov => h'.covered k v (h.covered k v hcov)⟩

variable {attempts : List Attempt} {ps ps' : List SklPage}

theorem addRangeLoop_spec (h : s.Sound) (hval : Compressible val.ts)
    (hr : addRangeLoop start stop opt val attempts s = some s') :
    s.Keeps s' ∧ ∀ k, InRange start stop opt k → s'.Covered k val := by
  induction attempts generalizing s with
  | nil => cases hr
  | cons t ts ih =>
    obtain ⟨hsound, hcov, hrange⟩ := @addRange_spec s start stop opt val h hval t.allocs
    rw [addRangeLoop] at hr
    rcases hadd : s.addRange start stop opt val t.allocs with ⟨ok, u⟩
    rw [hadd] at hr hsound hcov hrange
    cases ok with
    | true =>
      cases hr
      exact ⟨⟨hsound, hcov⟩, hrange rfl⟩
    | false =>
      obtain ⟨hrotate, hcov'⟩ := rotatePages_spec hsound t.now
      obtain ⟨hkeeps, hrange'⟩ := ih hrotate hr
      exact ⟨(Keeps.trans ⟨hsound, hcov⟩ ⟨hrotate, hcov'⟩).trans hkeeps, hrange'⟩

theorem addRangeAt_spec (h : s.Sound) (hval : Compressible val.ts)
    (hr : s.addRangeAt start stop opt val attempts = some s') :
    s.Keeps s' ∧ ∀ k, InRange start stop opt k → s'.Covered k val := by
  unfold addRangeAt at hr
  cases stop with
  | none =>
    dsimp only at hr
    split_ifs at hr
    exact addRangeLoop_spec h hval hr
  | some key =>
    dsimp only at hr
    cases hcmp : bytesCompare (start.getD key) key with
    | gt =>
      rw [hcmp] at hr
      cases hr
    | lt =>
      rw [hcmp] at hr
      exact addRangeLoop_spec h hval hr
    | eq =>
      rw [hcmp] at hr
      rw [bytesCompare_eq_iff] at hcmp
      have honly : ∀ k, InRange start (some key) opt k → k = key ∧ opt.excludeTo = false :=
        fun k hk => hk.eq_of_same hcmp
      split_ifs at hr with hopt
      · cases hr
        refine ⟨.refl h, fun k hk => ?_⟩
        have hincl := (honly k hk).2
        rw [hopt] at hincl
        cases hincl
      · obtain ⟨hkeeps, hrange⟩ := addRangeLoop_spec h hval hr
        refine ⟨hkeeps, fun k hk => hrange k ⟨?_, rfl⟩⟩
        rw [(honly k hk).1]

/-- The pages after a search, each of them improved at its time. -/
def RefinesAll (ps ps' : List SklPage) : Prop := List.Forall₂ SklPage.Refines ps ps'

theorem lookupPages_spec {ps : List SklPage} (hps : ∀ p ∈ ps, p.Sound) (hdesc : Descending ps)
    (allocs : List (List Bool)) : RefinesAll ps (lookupPages start stop opt val allocs ps).2 ∧
      val ≤ (lookupPages start stop opt val allocs ps).1 ∧ ∀ p ∈ ps, ∀ k, InRange start stop opt k →
        p.value k ≤ (lookupPages start stop opt val allocs ps).1 := by
  induction ps generalizing val allocs with
  | nil => exact ⟨.nil, le_rfl, by simp⟩
  | cons p ps ih =>
    obtain ⟨hp, hps'⟩ := forall_mem_cons.mp hps
    obtain ⟨hhead, htail⟩ := pairwise_cons.mp hdesc
    rw [lookupPages]
    split_ifs with hless
    · refine ⟨forall₂_same.mpr fun q hq => ⟨.refl (hps q hq) le_rfl, rfl⟩, le_rfl,
        fun q hq k _ => .inl ?_⟩
      have hq' : q.maxTime.get.ticks ≤ p.maxTime.get.ticks := by
        rcases mem_cons.mp hq with rfl | hq
        · exact le_rfl
        · exact hhead q hq
      exact ((hps q hq).value_ticks_le k).trans_lt
        (hq'.trans_lt ((Timestamp.less_iff _ _).mp hless))
    · obtain ⟨hrefines, hle⟩ :=
        @SklPage.lookupTimestampRange_spec p start stop opt (allocs.headD []) hp
      set r := p.lookupTimestampRange start stop opt (allocs.headD [])
      obtain ⟨hrest, hval, hpages⟩ := @ih (val ⊔ r.1) hps' htail allocs.tail
      refine ⟨.cons hrefines hrest, le_sup_left.trans hval, forall_mem_cons.mpr
        ⟨fun k hk => (hle k hk).trans (le_sup_right.trans hval), hpages⟩⟩

theorem RefinesAll.exists_of_mem (h : RefinesAll ps ps') {p' : SklPage}
    (hp' : p' ∈ ps') : ∃ p ∈ ps, p.Refines p' := by
  induction h with
  | nil => cases hp'
  | @cons q q' ps ps' hq _ ih =>
    rcases mem_cons.mp hp' with rfl | hp'
    · exact ⟨q, mem_cons_self, hq⟩
    · obtain ⟨p, hp, hrefines⟩ := ih hp'
      exact ⟨p, mem_cons_of_mem q hp, hrefines⟩

theorem RefinesAll.spec (h : RefinesAll ps ps') (hdesc : Descending ps) :
    (∀ p ∈ ps', p.Sound) ∧ Descending ps' ∧ ∀ p ∈ ps, ∃ p' ∈ ps', ∀ k, p.value k ≤ p'.value k := by
  induction h with
  | nil => exact ⟨by simp, hdesc, by simp⟩
  | @cons p p' ps ps' hp hps ih =>
    obtain ⟨hhead, htail⟩ := pairwise_cons.mp hdesc
    obtain ⟨hsound, hdesc', hvalues⟩ := ih htail
    refine ⟨forall_mem_cons.mpr ⟨hp.1.healthy, hsound⟩, pairwise_cons.mpr
      ⟨fun q' hq' => ?_, hdesc'⟩, forall_mem_cons.mpr ⟨⟨p', mem_cons_self, hp.1.value_le⟩,
        fun q hq => ?_⟩⟩
    · obtain ⟨q, hq, hrefines⟩ := RefinesAll.exists_of_mem hps hq'
      rw [hrefines.2, hp.2]
      exact hhead q hq
    · obtain ⟨q', hq', hle⟩ := hvalues q hq
      exact ⟨q', mem_cons_of_mem _ hq', hle⟩

theorem lookupTimestampRange_spec (h : s.Sound) (allocs : List (List Bool)) :
    s.Keeps (s.lookupTimestampRange start stop opt allocs).2 ∧
      ∀ k v, s.Covered k v → InRange start stop opt k →
        v ≤ (s.lookupTimestampRange start stop opt allocs).1 := by
  obtain ⟨hrefines, hzero, hle⟩ := @lookupPages_spec start stop opt zero s.allPages h.page
    h.descending allocs
  unfold lookupTimestampRange
  have hall : s.front :: s.pages = s.allPages := rfl
  rw [hall]
  rcases hr : lookupPages start stop opt zero allocs s.allPages with ⟨val, ps⟩
  rw [hr] at hrefines hzero hle
  cases ps with
  | nil => cases hrefines
  | cons front pages =>
    obtain ⟨hsound, hdesc, hvalues⟩ := hrefines.spec h.descending
    refine ⟨⟨⟨hsound, hdesc⟩, fun k v hcov => ?_⟩, fun k v hcov hk => ?_⟩
    · rcases hcov with hfloor | ⟨p, hp, hv⟩
      · exact .inl hfloor
      · obtain ⟨p', hp', hle'⟩ := hvalues p hp
        exact .inr ⟨p', hp', hv.trans (hle' k)⟩
    · rcases hcov with hfloor | ⟨p, hp, hv⟩
      · exact hfloor.trans (sup_le_sup_right hzero _)
      · exact (hv.trans (hle p hp k hk)).trans le_sup_left

end IntervalSkl

end Cockroach.TsCache
