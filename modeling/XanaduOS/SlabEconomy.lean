import XanaduOS.GrowingPools
import XanaduOS.SlabNames

/-!
# How many slabs a cache takes

Every chunk of a cache's slabs is free or holds a live object, and only a cache
without a free chunk takes a slab. So an unaligned cache is a pool that grows
when it is full, and no order of allocations and releases makes it take more
slabs than the peak of its live objects needs.
-/

namespace XanaduOS.SlabEconomy

open SlabAllocator SlabRuns SlabNames GrowingPools Chains Runs

variable {cache size : ℕ} {s t : SlabSystem} {lists : ListKind → List ℕ}

/-! ## Objects of the slabs -/

/-- The objects of a slab. -/
def slabObjects (size slab : ℕ) : List ℕ :=
  (List.range SLAB_CAPACITY).map fun i => chunkAt size slab i+chunkSize

/-- The objects of some slabs. -/
def objects (size : ℕ) (slabs : List ℕ) : List ℕ := slabs.flatMap (slabObjects size)

/-- An object of a slab. -/
theorem mem_slabObjects {slab obj : ℕ} :
    obj∈slabObjects size slab ↔ ∃ i<SLAB_CAPACITY,obj=chunkAt size slab i+chunkSize := by
  simp only [slabObjects,List.mem_map,List.mem_range,eq_comm]

/-- Each slab has as many objects as chunks. -/
theorem length_objects (slabs : List ℕ) :
    (objects size slabs).length=SLAB_CAPACITY*slabs.length := by
  induction slabs with
  | nil => rfl
  | cons slab slabs ih =>
    rw [objects,List.flatMap_cons,List.length_append,←objects,ih,slabObjects,List.length_map,
      List.length_range,List.length_cons,Nat.mul_succ,Nat.add_comm]

/-- Objects of different chunks differ. -/
theorem objects_nodup (h : CacheInvariant cache size s lists)
    (hnd : s.slabs.Nodup) : (objects size s.slabs).Nodup := by
  refine List.nodup_flatMap.mpr ⟨fun slab _ => ?_,?_⟩
  · refine List.nodup_range.map fun i j hij => ?_
    exact chunkAt_inj (Nat.add_right_cancel hij)
  · refine hnd.imp_of_mem fun {x y} hx hy hne => ?_
    intro obj hobj hobj'
    obtain ⟨i,hi,rfl⟩ := mem_slabObjects.mp hobj
    obtain ⟨j,hj,heq⟩ := mem_slabObjects.mp hobj'
    exact hne (h.object_unique hx hy hi hj (Nat.add_right_cancel heq)).1

/-- The live objects are those objects of the slabs that are live. -/
theorem live_perm (h : CacheInvariant cache size s lists) (hnd : s.slabs.Nodup) :
    s.live.Perm ((objects size s.slabs).filter (· ∈ s.live)) := by
  refine (List.perm_ext_iff_of_nodup h.nodup ((objects_nodup h hnd).filter _)).mpr fun obj => ?_
  rw [List.mem_filter,decide_eq_true_eq]
  refine ⟨fun hlive => ⟨?_,hlive⟩,And.right⟩
  obtain ⟨slab,hslab,i,hi,rfl⟩ := h.object obj hlive
  exact List.mem_flatMap.mpr ⟨slab,hslab,mem_slabObjects.mpr ⟨i,hi,rfl⟩⟩

/-- A slab counts no free chunk exactly when its objects are all live. -/
theorem numFree_eq_zero_iff (h : CacheInvariant cache size s lists) {slab : ℕ}
    (hslab : slab∈s.slabs) :
    (s.mem.slab slab).numFree=0 ↔ ∀ obj∈slabObjects size slab,obj∈s.live := by
  obtain ⟨chain,hchain,hlen⟩ := (h.valid slab hslab).chain
  rw [hlen,List.length_eq_zero_iff,List.eq_nil_iff_forall_not_mem]
  constructor
  · intro hnone obj hobj
    obtain ⟨i,hi,rfl⟩ := mem_slabObjects.mp hobj
    by_contra hout
    exact hnone _ ((hchain.mem_iff _).mpr ⟨i,hi,rfl,hout⟩)
  · intro hall c hc
    obtain ⟨i,hi,rfl,hout⟩ := (hchain.mem_iff c).mp hc
    exact hout (hall _ (mem_slabObjects.mpr ⟨i,hi,rfl⟩))

/-- An allocation needs a slab exactly when no slab counts a free chunk. -/
theorem needsSlab_iff_full (h : CacheInvariant cache size s lists) :
    NeedsSlab s.mem cache ↔ ∀ slab∈s.slabs,(s.mem.slab slab).numFree=0 := by
  rw [h.linked.needsSlab_iff]
  constructor
  · rintro ⟨hpart,hfree⟩ slab hslab
    obtain ⟨chain,hchain,hlen⟩ := (h.valid slab hslab).chain
    have hcount := counts_kindOf (hlen▸hchain.length_le)
    have hmem := (h.mem_iff _ slab).mpr ⟨hslab,hcount⟩
    generalize kindOf (s.mem.slab slab).numFree=k at hcount hmem
    cases k with
    | slabsFree => rw [hfree] at hmem; cases hmem
    | slabsPartial => rw [hpart] at hmem; cases hmem
    | slabsFull => exact hcount
  · intro hfull
    refine ⟨List.eq_nil_iff_forall_not_mem.mpr fun slab hmem => ?_,
      List.eq_nil_iff_forall_not_mem.mpr fun slab hmem => ?_⟩
    · obtain ⟨hslab,hcount,-⟩ := (h.mem_iff _ slab).mp hmem
      have := hfull slab hslab
      omega
    · obtain ⟨hslab,hcount⟩ := (h.mem_iff _ slab).mp hmem
      rw [hfull slab hslab] at hcount
      cases hcount

/-- An allocation needs a slab exactly when all chunks hold live objects. -/
theorem needsSlab_iff_count (h : CacheInvariant cache size s lists)
    (hnd : s.slabs.Nodup) :
    NeedsSlab s.mem cache ↔ s.live.length=SLAB_CAPACITY*s.slabs.length := by
  rw [needsSlab_iff_full h,(live_perm h hnd).length_eq,←@length_objects size,
    List.length_filter_eq_length_iff]
  simp only [decide_eq_true_eq,objects,List.mem_flatMap]
  constructor
  · rintro hfull obj ⟨slab,hslab,hobj⟩
    exact (numFree_eq_zero_iff h hslab).mp (hfull slab hslab) obj hobj
  · intro hall slab hslab
    exact (numFree_eq_zero_iff h hslab).mpr fun obj hobj => hall obj ⟨slab,hslab,hobj⟩

/-- Different live objects lie apart. -/
theorem live_apart (h : CacheInvariant cache size s lists) {a b : ℕ}
    (ha : a∈s.live) (hb : b∈s.live) (hne : a≠b) : a+size≤b ∨ b+size≤a := by
  obtain ⟨x,hx,i,hi,rfl⟩ := h.object a ha
  obtain ⟨y,hy,j,hj,rfl⟩ := h.object b hb
  have hmul : ∀ {k l : ℕ},k<l → (k+1)*(size+chunkSize)≤l*(size+chunkSize) :=
    fun hlt => Nat.mul_le_mul_right _ (Nat.succ_le_of_lt hlt)
  simp only [Nat.add_one_mul] at hmul
  by_cases hxy : x=y
  · subst hxy
    have hij : i≠j := fun heq => hne (heq▸rfl)
    simp only [chunkAt]
    rcases Nat.lt_or_gt_of_ne hij with hlt|hlt
    · have := hmul hlt
      omega
    · have := hmul hlt
      omega
  · have hwhole : slabBytes size=slabSize+SLAB_CAPACITY*(size+chunkSize)+chunkSize := rfl
    have := hmul hi
    have := hmul hj
    simp only [chunkAt]
    rcases h.apart x hx y hy hxy with hle|hle
    · omega
    · omega

/-! ## The cache as a pool -/

/-- What a call does with the pool. -/
def event : SlabOp → Event
  | .slabAllocFromCache _ _ => .take
  | .slabFree _ => .give

/-- The pool of a cache. -/
def pool (s : SlabSystem) : Pool := ⟨s.live.length,s.slabs.length⟩

/-- A cache as its calls leave it, whose slabs differ. -/
def Kept (cache size : ℕ) (s : SlabSystem) : Prop := Maintained cache size s ∧ s.slabs.Nodup

/-- A call keeps the cache, and does with the pool what its event does. -/
theorem Kept.step {op : SlabOp} (hcache : cache≠0) (h : Kept cache size s)
    (ha : Admissible cache size s op) (hstep : Steps (step cache) s op t) :
    Kept cache size t ∧ pool t=(pool s).step SLAB_CAPACITY (event op) := by
  obtain ⟨hm,hnd⟩ := h
  have hkept := hm.step hcache ha hstep
  obtain ⟨lists,hinv⟩ := hm
  cases op with
  | slabAllocFromCache newSlab slabData =>
    obtain ⟨r,-,rfl⟩ := Option.map_eq_some_iff.mp hstep
    refine ⟨⟨hkept,slabsAfter_nodup hinv.word hnd ha⟩,?_⟩
    have hblocks : (slabsAfter s cache newSlab).length=
        if s.live.length=SLAB_CAPACITY*s.slabs.length then s.slabs.length+1
          else s.slabs.length := by
      rw [slabsAfter]
      by_cases hneed : NeedsSlab s.mem cache
      · rw [if_pos hneed,if_pos ((needsSlab_iff_count hinv hnd).mp hneed),List.length_cons]
      · rw [if_neg hneed,if_neg (mt (needsSlab_iff_count hinv hnd).mpr hneed)]
    exact congrArg (Pool.mk (s.live.length+1)) hblocks
  | slabFree obj =>
    obtain ⟨m,-,rfl⟩ := Option.map_eq_some_iff.mp hstep
    refine ⟨⟨hkept,hnd⟩,?_⟩
    simp only [pool,event,Pool.step,Event.after]
    rw [List.length_erase_of_mem ha]

/-- A run keeps the cache, and does with the pool what its events do. -/
theorem Kept.run {ops : List SlabOp} (hcache : cache≠0) (h : Kept cache size s)
    (hrun : Run (Guarded (Steps (SlabRuns.step cache)) (Admissible cache size)) s ops t) :
    Kept cache size t ∧
      pool t=(ops.map event).foldl (Pool.step SLAB_CAPACITY) (pool s) := by
  induction hrun with
  | nil s => exact ⟨h,rfl⟩
  | cons head _ ih =>
    obtain ⟨hkept,hpool⟩ := h.step hcache head.1 head.2
    obtain ⟨hend,hfold⟩ := ih hkept
    rw [hpool] at hfold
    exact ⟨hend,hfold⟩

/-- In every run from a new cache whose slabs have a machine word of bytes, the cache
has taken as many slabs as the peak of its live objects needs, and its first one;
it needs another exactly when all chunks hold live objects, and live objects lie
apart. -/
theorem run_slabs_eq_peak {m : SlabMem} {newSlab slabData : ℕ} (hcache : cache≠0)
    (hword : slabBytes size<2^32) (hfresh : Fresh cache size [] newSlab) {ops : List SlabOp}
    (hrun : Run (Guarded (Steps (SlabRuns.step cache)) (Admissible cache size))
      (created m size cache newSlab slabData) ops t) :
    t.slabs.length=max 1 (peak 0 (ops.map event) ⌈/⌉ SLAB_CAPACITY) ∧
    t.live.length=(ops.map event).foldl Event.after 0 ∧
    (NeedsSlab t.mem cache ↔ t.live.length=SLAB_CAPACITY*t.slabs.length) ∧
    ∀ a∈t.live,∀ b∈t.live,a≠b → a+size≤b ∨ b+size≤a := by
  have hstart : Kept cache size (created m size cache newSlab slabData) :=
    ⟨created_maintained hword hfresh,List.nodup_singleton _⟩
  obtain ⟨⟨⟨lists,hinv⟩,hnd⟩,hpool⟩ := hstart.run hcache hrun
  have hblocks := congrArg Pool.blocks hpool
  have hlive := congrArg Pool.live hpool
  rw [Pool.run_blocks (by decide) _ (Nat.zero_le _)] at hblocks
  rw [Pool.run_live] at hlive
  exact ⟨hblocks,hlive,needsSlab_iff_count hinv hnd,fun a ha b hb => live_apart hinv ha hb⟩

/-- One object taken from a cache of 8-byte objects. -/
theorem run_slabs_eq_peak_object : ∃ t,
    Run (Guarded (Steps (SlabRuns.step 0x1000)) (Admissible 0x1000 8))
      (created ⟨fun _ => ⟨0,0,0,0,0⟩,fun _ => ⟨0,0,0,0,0⟩,fun _ => ⟨0,0,0,0⟩,0⟩ 8 0x1000 0x2000 0)
      [.slabAllocFromCache 0 0] t ∧ t.slabs.length=1 := by
  let start := created ⟨fun _ => ⟨0,0,0,0,0⟩,fun _ => ⟨0,0,0,0,0⟩,fun _ => ⟨0,0,0,0⟩,0⟩
    8 0x1000 0x2000 0
  have hfresh : Fresh 0x1000 8 [] 0x2000 :=
    ⟨by decide,by decide,by decide,by simp⟩
  obtain ⟨t,ht⟩ := Option.isSome_iff_exists.mp
    (by decide : (SlabRuns.step 0x1000 start (.slabAllocFromCache 0 0)).isSome)
  have hneeds : ¬NeedsSlab start.mem 0x1000 := by decide
  have hrun : Run (Guarded (Steps (SlabRuns.step 0x1000)) (Admissible 0x1000 8)) start
      [.slabAllocFromCache 0 0] t := Run.cons ⟨fun hn => absurd hn hneeds,ht⟩ (Run.nil t)
  exact ⟨t,hrun,(run_slabs_eq_peak (by norm_num) (by decide) hfresh hrun).1⟩

end XanaduOS.SlabEconomy
