import XanaduOS.SlabRuns

/-!
# Releasing an object right after its allocation

A free chain is known from the live objects alone, and the slab of an object
that is handed out was at the front of its list. So the release of this object
puts its chunk back at the front of the same chain, and a slab that had to
change its list comes back to the front of the list it left.
-/

namespace XanaduOS.SlabUndo

open SlabAllocator SlabRuns Chains Runs

/-- The lists, counters and free chains of one memory are those of another. -/
structure Restored (cache size : ℕ) (slabs : List ℕ) (m m' : SlabMem) : Prop where
  /-- Each list has the same slabs in the same order. -/
  lists : ∀ k,∃ l,0∉l ∧ Linked 0 (nextOf m) (prevOf m) (listHead cache k) l ∧
    Linked 0 (nextOf m') (prevOf m') (listHead cache k) l
  /-- Each slab has the same counter. -/
  counts : ∀ slab∈slabs,(m'.slab slab).numFree=(m.slab slab).numFree
  /-- Each slab has the same free chain, as long as its counter says. -/
  chains : ∀ slab∈slabs,∃ chain,chain.length=(m.slab slab).numFree ∧
    Path (nextFreeOf m) (baseChunk slab) chain (chunkAt size slab SLAB_CAPACITY) ∧
    Path (nextFreeOf m') (baseChunk slab) chain (chunkAt size slab SLAB_CAPACITY)

variable {cache size : ℕ} {m m' : SlabMem} {lists : ListKind → List ℕ}

/-- The live objects determine a free chain. -/
theorem freeChain_unique {live chain chain' : List ℕ} {slab : ℕ}
    (h : FreeChain m size live slab chain) (h' : FreeChain m' size live slab chain') :
    chain=chain' := by
  have hmem : ∀ c,c∈chain ↔ c∈chain' := fun c => (h.mem_iff c).trans (h'.mem_iff c).symm
  have hnodup := h.increasing.imp fun hlt => Nat.ne_of_lt hlt
  have hnodup' := h'.increasing.imp fun hlt => Nat.ne_of_lt hlt
  exact ((List.perm_ext_iff_of_nodup hnodup hnodup').mpr hmem).eq_of_pairwise
    (fun a b _ _ hab hba => absurd hab hba.asymm) h.increasing h'.increasing

/-- A slab that leaves the front of its list and comes back is there again. -/
theorem place_place (h : ListsValid cache m lists) {k : ListKind} (k' : ListKind) {slab : ℕ}
    (hfront : (lists k).head?=some slab) : place (place lists slab k') slab k=lists := by
  have hmem : slab∈lists k := List.mem_of_mem_head? hfront
  by_cases hk : k'=k
  · subst hk
    have hstay : place lists slab k'=lists := by rw [place,if_pos hmem]
    rw [hstay,hstay]
  · have hout : ∀ j,j≠k → slab∉lists j := fun j hj hin => hj (h.apart j k slab hin hmem)
    have haway : place lists slab k'=moved lists slab k' := by rw [place,if_neg (hout k' hk)]
    have hgone : slab∉moved lists slab k' k := by
      rw [moved,if_neg (Ne.symm hk)]
      exact (h.nodup k).not_mem_erase
    rw [haway,place,if_neg hgone]
    funext j
    by_cases hj : j=k
    · subst hj
      obtain ⟨rest,hrest⟩ := List.head?_eq_some_iff.mp hfront
      rw [moved,if_pos rfl,moved,if_neg (Ne.symm hk),List.erase_of_not_mem
        (h.nodup j).not_mem_erase,hrest,List.erase_cons_head]
    · rw [moved,if_neg hj]
      by_cases hjk : j=k'
      · subst hjk
        rw [moved,if_pos rfl,List.erase_cons_head,List.erase_of_not_mem (hout j hj)]
      · rw [moved,if_neg hjk,List.erase_of_not_mem (hout j hj),List.erase_of_not_mem (hout j hj)]

/-- The same live objects and the same lists make the same memory, as far as
lists, counters and chains go. -/
theorem restored {slabs live : List ℕ} (h : CacheInvariant cache size ⟨m,slabs,live⟩ lists)
    (h' : CacheInvariant cache size ⟨m',slabs,live⟩ lists) : Restored cache size slabs m m' := by
  have hchains : ∀ slab∈slabs,∃ chain,FreeChain m size live slab chain ∧
      FreeChain m' size live slab chain ∧ (m.slab slab).numFree=chain.length ∧
      (m'.slab slab).numFree=chain.length := by
    intro slab hs
    obtain ⟨chain,hchain,hlen⟩ := (h.valid slab hs).chain
    obtain ⟨chain',hchain',hlen'⟩ := (h'.valid slab hs).chain
    obtain rfl := freeChain_unique hchain hchain'
    exact ⟨chain,hchain,hchain',hlen,hlen'⟩
  refine ⟨fun k => ⟨lists k,h.linked.null k,h.linked.linked k,h'.linked.linked k⟩,
    fun slab hs => ?_,fun slab hs => ?_⟩
  · obtain ⟨chain,-,-,hlen,hlen'⟩ := hchains slab hs
    rw [hlen,hlen']
  · obtain ⟨chain,hchain,hchain',hlen,-⟩ := hchains slab hs
    exact ⟨chain,hlen.symm,hchain.path,hchain'.path⟩

/-- Without a new slab, the slab chosen is at the front of one of its lists. -/
theorem chosen_front_listed {m : SlabMem} (h : ListsValid cache m lists)
    (hneed : ¬NeedsSlab m cache) (newSlab : ℕ) :
    ∃ k,(lists k).head?=some (chosen lists newSlab) := by
  obtain ⟨k,-,hfront⟩ := chosen_front lists newSlab
  rw [grownLists,if_neg (mt h.needsSlab_iff.mpr hneed)] at hfront
  exact ⟨k,hfront⟩

/-- Allocating from listed slabs and releasing the object at once. -/
theorem alloc_free {s : SlabSystem} (h : CacheInvariant cache size s lists) (hcache : cache≠0)
    (hneed : ¬NeedsSlab s.mem cache) (newSlab slabData : ℕ) {fuel : ℕ}
    (hfuel : SLAB_CAPACITY<fuel) :
    ∃ m' obj m'',slabAllocFromCache s.mem cache newSlab slabData=some (m',obj) ∧
      slabFree m' cache obj fuel=some m'' ∧ Restored cache size s.slabs s.mem m'' := by
  obtain ⟨m',i,halloc,hfirst,-,hinv⟩ := h.alloc hcache slabData fun hn => absurd hn hneed
  obtain ⟨k,hfront⟩ := chosen_front_listed h.linked hneed newSlab
  have hsame : slabsAfter s cache newSlab=s.slabs := by rw [slabsAfter,if_neg hneed]
  have hlists : grownLists lists newSlab=lists := by
    rw [grownLists,if_neg (mt h.linked.needsSlab_iff.mpr hneed)]
  rw [hsame,hlists] at hinv
  obtain ⟨hslab,hcount⟩ := (h.mem_iff k _).mp (List.mem_of_mem_head? hfront)
  obtain ⟨m'',hfree,hback⟩ := hinv.give hslab hfirst.lt List.mem_cons_self hfuel
  rw [List.erase_cons_head] at hback
  -- The counter is back, since the chain has the same chunks again.
  have hnum : (m''.slab (chosen lists newSlab)).numFree=
      (s.mem.slab (chosen lists newSlab)).numFree := by
    obtain ⟨chain,hchain,hlen⟩ := (h.valid _ hslab).chain
    obtain ⟨chain'',hchain'',hlen''⟩ := (hback.valid _ hslab).chain
    rw [hlen,freeChain_unique hchain hchain'']
    exact hlen''
  have hkind : kindOf (m''.slab (chosen lists newSlab)).numFree=k := by
    obtain ⟨chain,hchain,hlen⟩ := (h.valid _ hslab).chain
    rw [hnum]
    exact counts_inj (counts_kindOf (hlen▸hchain.length_le)) hcount
  rw [hkind,place_place h.linked _ hfront] at hback
  exact ⟨m',_,m'',halloc,hfree,restored h hback⟩

/-- After every run from a new cache whose slabs have a machine word of bytes that
leaves a slab on the partial or the free list, an allocation and the release of
its object bring back the lists, the counters and the free chains. -/
theorem run_alloc_free {m : SlabMem} {newSlab slabData : ℕ} (hcache : cache≠0)
    (hword : slabBytes size<2^32) (hfresh : Fresh cache size [] newSlab) {ops : List SlabOp}
    {t : SlabSystem} (hrun : Run (Guarded (Steps (step cache)) (Admissible cache size))
      (created m size cache newSlab slabData) ops t) (hneed : ¬NeedsSlab t.mem cache)
    (next data : ℕ) {fuel : ℕ} (hfuel : SLAB_CAPACITY<fuel) :
    ∃ m' obj m'',slabAllocFromCache t.mem cache next data=some (m',obj) ∧
      slabFree m' cache obj fuel=some m'' ∧ Restored cache size t.slabs t.mem m'' := by
  have hreached : Maintained cache size t :=
    hrun.guarded_invariant (fun hi ha hstep => hi.step hcache ha hstep)
      (created_maintained hword hfresh)
  obtain ⟨lists,hinv⟩ := hreached
  exact alloc_free hinv hcache hneed next data hfuel

/-- Memory without a record. -/
def emptyMem : SlabMem := ⟨fun _ => ⟨0,0,0,0,0⟩,fun _ => ⟨0,0,0,0,0⟩,fun _ => ⟨0,0,0,0⟩,0⟩

/-- The first object of a new cache moves its slab to the partial list and back. -/
theorem run_alloc_free_first : ∃ m' obj m'',
    slabAllocFromCache (created emptyMem 8 0x1000 0x2000 0).mem 0x1000 0 0=some (m',obj) ∧
    slabFree m' 0x1000 obj 17=some m'' ∧
    Restored 0x1000 8 [0x2000] (created emptyMem 8 0x1000 0x2000 0).mem m'' := by
  have hfresh : Fresh 0x1000 8 [] 0x2000 :=
    ⟨by decide,by decide,by decide,by simp⟩
  have hneed : ¬NeedsSlab (created emptyMem 8 0x1000 0x2000 0).mem 0x1000 := by decide
  exact run_alloc_free (by norm_num) (by decide) hfresh (Run.nil _) hneed 0 0 (by norm_num)

/-- The first object of a new cache of objects of 1 GiB, taken and released: the
free chain begins with another chunk than before. -/
theorem alloc_free_counterexample : Fresh 0xC0401000 0x40000000 [] 0xC0400000 ∧
    ∃ m' obj m'',slabAllocFromCache hugeCache.mem 0xC0401000 0 0=some (m',obj) ∧
      slabFree m' 0xC0401000 obj 17=some m'' ∧
      nextFreeOf hugeCache.mem (baseChunk 0xC0400000)=0xC0400028 ∧
      nextFreeOf m'' (baseChunk 0xC0400000)=0x0040003C ∧
      ¬Restored 0xC0401000 0x40000000 [0xC0400000] hugeCache.mem m'' := by
  have hobserve : (((slabAllocFromCache hugeCache.mem 0xC0401000 0 0).bind fun r =>
      slabFree r.1 0xC0401000 r.2 17).filter fun m =>
        nextFreeOf m (baseChunk 0xC0400000)=0x0040003C).isSome := by decide
  obtain ⟨m'',hm⟩ := Option.isSome_iff_exists.mp hobserve
  obtain ⟨hm,hafter⟩ := Option.filter_eq_some_iff.mp hm
  obtain ⟨⟨m',obj⟩,halloc,hfree⟩ := Option.bind_eq_some_iff.mp hm
  have hbefore : nextFreeOf hugeCache.mem (baseChunk 0xC0400000)=0xC0400028 := by decide
  have hcount : (hugeCache.mem.slab 0xC0400000).numFree=16 := by decide
  have hafter := of_decide_eq_true hafter
  refine ⟨⟨by decide,by decide,by decide,by simp⟩,m',obj,m'',halloc,hfree,hbefore,hafter,
    fun h => ?_⟩
  obtain ⟨chain,hlen,hpath,hpath''⟩ := h.chains 0xC0400000 List.mem_cons_self
  rw [hcount] at hlen
  match chain,hlen,hpath,hpath'' with
  | a::_,_,hpath,hpath'' =>
    have ha : nextFreeOf hugeCache.mem (baseChunk 0xC0400000)=a := hpath.1
    have ha'' : nextFreeOf m'' (baseChunk 0xC0400000)=a := hpath''.1
    omega

end XanaduOS.SlabUndo
