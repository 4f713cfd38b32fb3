import XanaduOS.BuddyBlocks
import XanaduOS.Runs

/-!
# Runs of the buddy allocator

Requests and releases keep the ownership of blocks as long as every merge goes
up from the lower half of a pair: the address passed up then is the parent's.
From the upper half it is not, and the block listed last is no block at all.
-/

namespace XanaduOS.BuddyRuns

open Word32 BitWords KernelDefs BuddyFrameAlloc BuddyBlocks DyadicBlocks Runs

/-! ## Runs -/

/-- A block handed out, with the request it answered. -/
structure LiveBlock where
  /-- Address written by the request. -/
  addr : ℕ
  /-- Frames requested. -/
  nframes : ℕ
  deriving DecidableEq

/-- Bytes of the block behind a request. -/
def LiveBlock.size (l : LiveBlock) : ℕ := blockSize (getBuddyOrder l.nframes)

/-- The dyadic block behind a request, numbered from the start of the memory. -/
def LiveBlock.block (start : ℕ) (l : LiveBlock) : Block :=
  ⟨getBuddyOrder l.nframes,(l.addr-start)/l.size⟩

/-- The allocator together with the blocks handed out and not yet released. -/
structure BuddySystem where
  /-- The allocator. -/
  buddy : BuddyAlloc
  /-- Blocks handed out. -/
  live : List LiveBlock

/-- Calls of the allocator's clients. -/
inductive BuddyOp
  /-- Request at most 1024 frames through a pointer. -/
  | allocFrames (addrs nframes : ℕ)
  /-- Release a live block with the size of its request. -/
  | freeFrames (addr nframes : ℕ)

/-- One call; a call outside its domain has no step. -/
def step (s : BuddySystem) : BuddyOp → Option BuddySystem
  | .allocFrames addrs nframes =>
    if 0<nframes ∧ nframes≤MAX_BUDDY_NFRAMES then do
      let r ← buddyAllocFrames s.buddy addrs nframes
      some ⟨r.buddy,if r.ret=0 then r.addrs.map (LiveBlock.mk · nframes)++s.live else s.live⟩
    else none
  | .freeFrames addr nframes =>
    if ⟨addr,nframes⟩∈s.live then do
      let buddy ← buddyFreeFrames s.buddy addr nframes
      some ⟨buddy,s.live.erase ⟨addr,nframes⟩⟩
    else none

/-- The calls that clients make. -/
def InDomain (s : BuddySystem) : BuddyOp → Prop
  | .allocFrames _ nframes => 0<nframes ∧ nframes≤MAX_BUDDY_NFRAMES
  | .freeFrames addr nframes => ⟨addr,nframes⟩∈s.live

/-- Whenever every neighbour from an order up to another is free, the block's
index at the latter is even: coalescing goes up from lower halves only. -/
def MergesFromLower (buddy : BuddyAlloc) (order addr : ℕ) : Prop :=
  ∀ top,order≤top → top<MAX_ORDER-1 →
    (∀ k,order≤k → k≤top → neighbourFree buddy k addr=true) → addr/blockSize top%2=0

/-- Releases coalesce from lower halves only. -/
def LowerHalfFrees (s : BuddySystem) : BuddyOp → Prop
  | .allocFrames _ _ => True
  | .freeFrames addr nframes => MergesFromLower s.buddy (getBuddyOrder nframes) addr

/-- Releases coalesce from lower halves of pairs whose size divides the start. -/
def FreesWithin (start : ℕ) (s : BuddySystem) : BuddyOp → Prop
  | .allocFrames _ _ => True
  | .freeFrames addr nframes => MergesWithin start s.buddy (getBuddyOrder nframes) addr

/-- Two address ranges without a common byte. -/
def RangesApart (addr size addr' size' : ℕ) : Prop := addr+size≤addr' ∨ addr'+size'≤addr

/-- Live blocks are apart from each other and from every listed block, and
inside the managed blocks of the highest order. -/
def BlocksSafe (memStart memLimit : ℕ) (s : BuddySystem) : Prop :=
  s.live.Pairwise (fun l m => RangesApart l.addr l.size m.addr m.size) ∧
  (∀ l∈s.live,∀ order,∀ addr∈(s.buddy.freeArea order).freeList,
    RangesApart l.addr l.size addr (blockSize order)) ∧
  ∀ l∈s.live,memStart≤l.addr ∧
    l.addr+l.size ≤ memStart+(memLimit-memStart)/MAX_BUDDY_SIZE*MAX_BUDDY_SIZE

/-- The blocks behind a list of requests. -/
def blocksOf (start : ℕ) (live : List LiveBlock) (x : Block) : Prop := ∃ l∈live,l.block start=x

/-- The allocator's invariant for the blocks handed out, each aligned and
handed out once. -/
structure SystemInvariant (start roots : ℕ) (s : BuddySystem) : Prop where
  /-- The allocator owns its memory together with the live blocks. -/
  buddy : BuddyInvariant start roots s.buddy (blocksOf start s.live)
  /-- Live addresses are multiples of their block size behind the start. -/
  aligned : ∀ l∈s.live,start≤l.addr ∧ l.size∣l.addr-start
  /-- No block is handed out twice. -/
  nodup : (s.live.map (LiveBlock.block start)).Nodup

variable {start roots : ℕ} {buddy : BuddyAlloc}

/-- A start that is a multiple of the largest block divides all pairs. -/
theorem LowerHalfFrees.within {s : BuddySystem} {op : BuddyOp} (hstart : MAX_BUDDY_SIZE∣start)
    (h : LowerHalfFrees s op) : FreesWithin start s op := by
  cases op with
  | allocFrames addrs nframes => trivial
  | freeFrames addr nframes =>
    intro top hlow htop hall
    refine ⟨dvd_trans ?_ hstart,h top hlow htop hall⟩
    have hsize : MAX_BUDDY_SIZE=PAGE_SIZE*2^10 := by norm_num
    rw [hsize]
    exact Nat.mul_dvd_mul_left _ (pow_dvd_pow 2 htop)

/-- The address of a live block. -/
theorem LiveBlock.addr_eq {l : LiveBlock} (h : start≤l.addr ∧ l.size∣l.addr-start) :
    blockAddr start (l.block start)=l.addr :=
  blockAddr_mk h

/-- A block handed out for a request. -/
theorem LiveBlock.block_eq {z : Block} {nframes : ℕ} (ho : z.order=getBuddyOrder nframes) :
    LiveBlock.block start ⟨blockAddr start z,nframes⟩=z := by
  refine Block.ext ho.symm ?_
  rw [LiveBlock.block,LiveBlock.size,←ho,blockAddr,Nat.add_sub_cancel_left]
  exact Nat.mul_div_cancel _ (blockSize_pos _)

/-- Handing out one more block. -/
theorem SystemInvariant.hand {s : BuddySystem} (h : SystemInvariant start roots s) {z : Block}
    {nframes : ℕ} (ho : z.order=getBuddyOrder nframes) (hz : ¬blocksOf start s.live z)
    (hinv : BuddyInvariant start roots buddy (fun y => blocksOf start s.live y ∨ y=z)) :
    SystemInvariant start roots ⟨buddy,⟨blockAddr start z,nframes⟩::s.live⟩ := by
  have hblock := @LiveBlock.block_eq start _ _ ho
  refine ⟨hinv.congr fun y => ?_,?_,?_⟩
  · simp only [blocksOf,List.exists_mem_cons_iff,hblock]
    rw [or_comm,eq_comm]
  · intro l hl
    rcases List.mem_cons.mp hl with rfl|hl
    · refine ⟨Nat.le_add_right _ _,?_⟩
      rw [LiveBlock.size,←ho,blockAddr,Nat.add_sub_cancel_left]
      exact Nat.dvd_mul_left _ _
    · exact h.aligned l hl
  · rw [List.map_cons,hblock,List.nodup_cons]
    refine ⟨fun hmem => hz ?_,h.nodup⟩
    obtain ⟨l,hl,heq⟩ := List.mem_map.mp hmem
    exact ⟨l,hl,heq⟩

/-- Releasing a live block. -/
theorem SystemInvariant.free {s : BuddySystem} (h : SystemInvariant start roots s) {addr nframes : ℕ}
    (hmem : ⟨addr,nframes⟩∈s.live)
    (hwithin : MergesWithin start s.buddy (getBuddyOrder nframes) addr) :
    ∃ buddy',buddyFreeFrames s.buddy addr nframes=some buddy' ∧
      freeFrames buddy'=freeFrames s.buddy+2^getBuddyOrder nframes ∧
      SystemInvariant start roots ⟨buddy',s.live.erase ⟨addr,nframes⟩⟩ := by
  have haddr : blockAddr start (LiveBlock.block start ⟨addr,nframes⟩)=addr :=
    LiveBlock.addr_eq (h.aligned _ hmem)
  obtain ⟨buddy',hfree,hframes,hinv⟩ := h.buddy.free (x:=LiveBlock.block start ⟨addr,nframes⟩)
    ⟨_,hmem,rfl⟩ nframes rfl (by rw [haddr]; exact hwithin)
  rw [haddr] at hfree
  refine ⟨buddy',hfree,hframes,hinv.congr fun y => ?_,
    fun m hm => h.aligned m (List.mem_of_mem_erase hm),h.nodup.sublist (List.erase_sublist.map _)⟩
  have hlive : s.live.Nodup := h.nodup.of_map _
  constructor
  · rintro ⟨⟨m,hm,rfl⟩,hne⟩
    exact ⟨m,(hlive.mem_erase_iff).mpr ⟨fun heq => hne (heq▸rfl),hm⟩,rfl⟩
  · rintro ⟨m,hm,rfl⟩
    obtain ⟨hne,hm⟩ := hlive.mem_erase_iff.mp hm
    exact ⟨⟨m,hm,rfl⟩,fun heq => hne (List.inj_on_of_nodup_map h.nodup hm hmem heq)⟩

/-- One call keeps the invariant. -/
theorem SystemInvariant.step {s t : BuddySystem} {op : BuddyOp} (h : SystemInvariant start roots s)
    (hwithin : FreesWithin start s op) (hstep : Steps step s op t) :
    SystemInvariant start roots t := by
  cases op with
  | allocFrames addrs nframes =>
    simp only [Steps,BuddyRuns.step] at hstep
    split at hstep
    case isFalse => contradiction
    case isTrue hn =>
      by_cases ha : addrs=0
      · simp only [buddyAllocFrames,if_pos ha] at hstep
        cases hstep
        exact ⟨h.buddy,h.aligned,h.nodup⟩
      · obtain ⟨r,hr,hserved⟩ := h.buddy.alloc ha hn.1 hn.2
        simp only [hr,Option.bind_eq_bind,Option.bind_some,Option.some.injEq] at hstep
        subst hstep
        rcases hserved with ⟨hret,_,hsame⟩|⟨z,hret,ho,haddrs,hz,hinv⟩
        · simp only [if_neg hret,hsame]
          exact ⟨h.buddy,h.aligned,h.nodup⟩
        · simp only [if_pos hret,haddrs,List.map_cons,List.map_nil,List.singleton_append]
          exact h.hand ho hz hinv
  | freeFrames addr nframes =>
    simp only [Steps,BuddyRuns.step] at hstep
    split at hstep
    case isFalse => contradiction
    case isTrue hmem =>
      obtain ⟨buddy',hb,-,hinv⟩ := h.free hmem hwithin
      simp only [hb,Option.bind_eq_bind,Option.bind_some,Option.some.injEq] at hstep
      subst hstep
      exact hinv

/-- Every admitted call on a state with the invariant has a result. -/
theorem SystemInvariant.step_isSome {s : BuddySystem} {op : BuddyOp}
    (h : SystemInvariant start roots s) (hwithin : FreesWithin start s op)
    (hdom : InDomain s op) : (BuddyRuns.step s op).isSome := by
  cases op with
  | allocFrames addrs nframes =>
    have hn : 0<nframes ∧ nframes≤MAX_BUDDY_NFRAMES := hdom
    simp only [BuddyRuns.step,if_pos hn]
    by_cases ha : addrs=0
    · simp [buddyAllocFrames,ha]
    · obtain ⟨r,hr,_⟩ := h.buddy.alloc ha hn.1 hn.2
      simp [hr]
  | freeFrames addr nframes =>
    have hmem : ⟨addr,nframes⟩∈s.live := hdom
    simp only [BuddyRuns.step,if_pos hmem]
    obtain ⟨buddy',hb,_⟩ := h.free hdom hwithin
    simp [hb]

/-- The addresses listed at creation. -/
theorem createdList_eq {memStart memLimit : ℕ} (hle : memStart ≤ memLimit) (hlimit : memLimit<2^32) :
    ((List.range ((memLimit-memStart)/MAX_BUDDY_SIZE)).map fun i =>
        wadd memStart (wmul i MAX_BUDDY_SIZE))=
      (List.range ((memLimit-memStart)/MAX_BUDDY_SIZE)).map fun i =>
        memStart+i*MAX_BUDDY_SIZE := by
  refine List.map_congr_left fun i hi => ?_
  have hlt := List.mem_range.mp hi
  have hend : (i+1)*MAX_BUDDY_SIZE ≤ memLimit-memStart :=
    (Nat.mul_le_mul_right _ hlt).trans (Nat.div_mul_le_self _ _)
  rw [Nat.succ_mul] at hend
  simp only [MAX_BUDDY_SIZE] at hend ⊢
  rw [wmul_eq (by omega),wadd_eq (by omega)]

/-- A new allocator owns the whole blocks between its limits, and all their
frames are free. -/
theorem buddyAllocCreate_invariant {memStart memLimit stale : ℕ} (hle : memStart ≤ memLimit)
    (hlimit : memLimit<2^32) (h : buddyAllocCreate memStart memLimit stale=some buddy) :
    SystemInvariant memStart ((memLimit-memStart)/MAX_BUDDY_SIZE) ⟨buddy,[]⟩ ∧
      freeFrames buddy=(memLimit-memStart)/MAX_BUDDY_SIZE*MAX_BUDDY_NFRAMES := by
  have hsize : blockSize (MAX_ORDER-1)=MAX_BUDDY_SIZE := by norm_num [blockSize]
  rw [buddyAllocCreate] at h
  split at h
  · contradiction
  · simp only [wsub_eq hle hlimit,createdList_eq hle hlimit,Option.some.injEq] at h
    generalize hblocks : (memLimit-memStart)/MAX_BUDDY_SIZE=blocks at h ⊢
    have hlist : ∀ x : Block,listed memStart buddy x ↔ x.order=MAX_ORDER-1 ∧ x.index<blocks := by
      intro x
      subst h
      by_cases ho : x.order=MAX_ORDER-1
      · have haddr : blockAddr memStart x=memStart+x.index*MAX_BUDDY_SIZE := by
          rw [blockAddr,ho,hsize]
        simp only [listed,haddr,ho,Function.update_self,List.mem_map,List.mem_range,true_and]
        constructor
        · rintro ⟨i,hi,heq⟩
          simp only [MAX_BUDDY_SIZE] at heq
          omega
        · exact fun hlt => ⟨x.index,hlt,rfl⟩
      · simp only [listed,Function.update_of_ne ho,List.not_mem_nil,ho,false_and]
    have hmark : ∀ x : Block,¬marked memStart buddy x := by
      intro x
      subst h
      simp [marked,bitAt]
    have howned : ∀ x : Block,listed memStart buddy x ∨ blocksOf memStart [] x →
        x.order=MAX_ORDER-1 ∧ x.index<blocks := by
      rintro x (hx|⟨l,hl,_⟩)
      · exact (hlist x).mp hx
      · exact absurd hl List.not_mem_nil
    refine ⟨⟨⟨⟨?_,?_,?_,?_,?_,?_,?_,?_⟩,?_,?_⟩,by simp,by simp⟩,?_⟩
    · intro x hx
      obtain ⟨ho,hin⟩ := howned x hx
      rw [ho,Nat.sub_self,pow_zero,Nat.div_one]
      exact ⟨le_rfl,hin⟩
    · intro x y hx hy hxy
      exact hxy.eq_of_order ((howned x hx).1.trans (howned y hy).1.symm)
    · rintro x - ⟨l,hl,-⟩
      exact absurd hl List.not_mem_nil
    · exact fun x _ => hmark x
    · rintro x ⟨l,hl,-⟩
      exact absurd hl List.not_mem_nil
    · intro x y hx hxy hne ho
      exact absurd (hxy.eq_of_order (le_antisymm hxy.1 ((howned x hx).1▸ho))) hne
    · exact fun x _ _ _ _ => hmark x
    · exact fun x _ hp => absurd hp (hmark x.parent)
    · intro k
      subst h
      by_cases hk : k=MAX_ORDER-1
      · subst hk
        simp only [Function.update_self]
        refine ⟨?_,?_,by simp⟩
        · intro addr ha
          obtain ⟨i,-,rfl⟩ := List.mem_map.mp ha
          rw [hsize,Nat.add_sub_cancel_left]
          exact ⟨Nat.le_add_right _ _,Nat.dvd_mul_left _ _⟩
        · refine List.nodup_range.map fun i j hij => ?_
          simp only [MAX_BUDDY_SIZE] at hij
          omega
      · simp only [Function.update_of_ne hk]
        exact ⟨by simp,List.nodup_nil,rfl⟩
    · have hend := Nat.div_mul_le_self (memLimit-memStart) MAX_BUDDY_SIZE
      rw [hblocks] at hend
      omega
    · subst h
      rw [freeFrames,Finset.sum_eq_single (MAX_ORDER-1)]
      · simp [MAX_BUDDY_NFRAMES]
      · intro order _ hne
        simp only [Function.update_of_ne hne,Nat.zero_mul]
      · intro hout
        exact absurd (Finset.mem_range.mpr (by norm_num)) hout

/-- Two owned blocks that differ occupy disjoint ranges. -/
theorem rangesApart {live : Block → Prop} (h : BuddyInvariant start roots buddy live) {x y : Block}
    (hx : listed start buddy x ∨ live x) (hy : listed start buddy y ∨ live y) (hne : x≠y) :
    RangesApart (blockAddr start x) (blockSize x.order) (blockAddr start y)
      (blockSize y.order) := by
  have hapart := Block.disjoint_of_not_within (fun hin => hne (h.own.apart x y hx hy hin))
    fun hin => hne (h.own.apart y x hy hx hin).symm
  simp only [RangesApart,blockAddr_first,blockSize,PAGE_SIZE]
  omega

/-- The invariant makes the blocks safe. -/
theorem SystemInvariant.blocksSafe {memStart memLimit : ℕ} {s : BuddySystem}
    (h : SystemInvariant memStart ((memLimit-memStart)/MAX_BUDDY_SIZE) s) :
    BlocksSafe memStart memLimit s := by
  refine ⟨?_,?_,?_⟩
  · refine (List.pairwise_map.mp h.nodup).imp_of_mem fun {l m} hl hm hne => ?_
    have hapart := rangesApart h.buddy (Or.inr ⟨l,hl,rfl⟩) (Or.inr ⟨m,hm,rfl⟩) hne
    rwa [LiveBlock.addr_eq (h.aligned l hl),LiveBlock.addr_eq (h.aligned m hm)] at hapart
  · intro l hl order addr haddr
    have heq := blockAddr_mk ((h.buddy.area order).aligned addr haddr)
    have hlisted : listed memStart s.buddy ⟨order,(addr-memStart)/blockSize order⟩ := by
      rw [listed,heq]
      exact haddr
    have hapart := rangesApart h.buddy (Or.inr ⟨l,hl,rfl⟩) (Or.inl hlisted)
      fun hsame => h.buddy.own.notBoth _ hlisted ⟨l,hl,hsame⟩
    rwa [LiveBlock.addr_eq (h.aligned l hl),heq] at hapart
  · intro l hl
    obtain ⟨_,hlow,hhigh⟩ := h.buddy.inside (Or.inr ⟨l,hl,rfl⟩)
    rw [LiveBlock.addr_eq (h.aligned l hl)] at hlow hhigh
    exact ⟨hlow,hhigh⟩

/-- Along every run from a new allocator whose releases coalesce from lower
halves only, the blocks are safe. -/
theorem run_blocksSafe {memStart memLimit stale : ℕ} (hstart : MAX_BUDDY_SIZE∣memStart)
    (hle : memStart ≤ memLimit) (hlimit : memLimit<2^32)
    (hcreate : buddyAllocCreate memStart memLimit stale=some buddy) {ops : List BuddyOp}
    {t : BuddySystem} (hrun : Run (Guarded (Steps step) LowerHalfFrees) ⟨buddy,[]⟩ ops t) :
    BlocksSafe memStart memLimit t := by
  have hinv := hrun.guarded_invariant (fun hi hlower hstep => hi.step (hlower.within hstart) hstep)
    (buddyAllocCreate_invariant hle hlimit hcreate).1
  exact hinv.blocksSafe

/-- Two frames taken and released lower first, then a whole block. -/
def upperHalfOps : List BuddyOp :=
  [.allocFrames 1 1,.allocFrames 1 1,.freeFrames 0x400000 1,.freeFrames 0x401000 1,
    .allocFrames 1 1024]

/-- Releasing the upper half of a pair last lists a block of the highest order
at the wrong address; handed out, it reaches into the next free block. -/
theorem blocksSafe_counterexample : ¬∀ (memStart memLimit stale : ℕ) (buddy : BuddyAlloc)
    (ops : List BuddyOp) (t : BuddySystem),MAX_BUDDY_SIZE∣memStart → memStart ≤ memLimit →
    memLimit<2^32 → buddyAllocCreate memStart memLimit stale=some buddy →
    Run (Steps step) ⟨buddy,[]⟩ ops t → BlocksSafe memStart memLimit t := by
  intro hall
  have hobserve : ((buddyAllocCreate 0x400000 0xC00000 0).bind fun buddy =>
      (upperHalfOps.foldlM step ⟨buddy,[]⟩).map fun t =>
        (t.live,(t.buddy.freeArea 10).freeList))=some ([⟨0x401000,1024⟩],[0x800000]) := by
    decide
  obtain ⟨buddy,hcreate,hobserve⟩ := Option.bind_eq_some_iff.mp hobserve
  obtain ⟨t,hfold,hstate⟩ := Option.map_eq_some_iff.mp hobserve
  obtain ⟨hlive,hfree⟩ := Prod.mk.inj hstate
  have hsafe := hall 0x400000 0xC00000 0 buddy upperHalfOps t (by norm_num) (by norm_num)
    (by norm_num) hcreate (Run.of_foldlM hfold)
  have hapart := hsafe.2.1 ⟨0x401000,1024⟩ (by simp [hlive]) 10 0x800000 (by simp [hfree])
  have hmeet : ¬(0x401000+LiveBlock.size ⟨0x401000,1024⟩≤0x800000 ∨
      0x800000+blockSize 10≤0x401000) := by decide
  exact hmeet hapart

/-- Taking a frame and releasing it meets the condition: the frame is the
lower half at every order. -/
theorem run_blocksSafe_frame : ∃ buddy t,buddyAllocCreate 0x400000 0xC00000 0=some buddy ∧
    Run (Guarded (Steps step) LowerHalfFrees) ⟨buddy,[]⟩
      [.allocFrames 1 1,.freeFrames 0x400000 1] t ∧ BlocksSafe 0x400000 0xC00000 t := by
  have hobserve : ((buddyAllocCreate 0x400000 0xC00000 0).bind fun buddy =>
      (step ⟨buddy,[]⟩ (.allocFrames 1 1)).bind fun s => step s (.freeFrames 0x400000 1)).isSome := by
    decide
  obtain ⟨t,ht⟩ := Option.isSome_iff_exists.mp hobserve
  obtain ⟨buddy,hcreate,ht⟩ := Option.bind_eq_some_iff.mp ht
  obtain ⟨s,hs,ht⟩ := Option.bind_eq_some_iff.mp ht
  have hlower : LowerHalfFrees s (.freeFrames 0x400000 1) := by
    have heven : ∀ top<MAX_ORDER-1,0x400000/blockSize top%2=0 := by decide
    exact fun top _ htop _ => heven top htop
  have hrun : Run (Guarded (Steps step) LowerHalfFrees) ⟨buddy,[]⟩
      [.allocFrames 1 1,.freeFrames 0x400000 1] t :=
    Run.cons ⟨trivial,hs⟩ (Run.cons ⟨hlower,ht⟩ (Run.nil t))
  exact ⟨buddy,t,hcreate,hrun,
    run_blocksSafe (by norm_num) (by norm_num) (by norm_num) hcreate hrun⟩

/-! ## Walks of free lists -/

/-- Along every run from a new allocator whose releases coalesce from lower
halves of pairs whose size divides the start, counters count their lists, and
every further such release of a live block ends its walks at entries. -/
theorem run_walksStop {memStart memLimit stale : ℕ} (hle : memStart ≤ memLimit)
    (hlimit : memLimit<2^32) (hcreate : buddyAllocCreate memStart memLimit stale=some buddy)
    {ops : List BuddyOp} {t : BuddySystem}
    (hrun : Run (Guarded (Steps step) (FreesWithin memStart)) ⟨buddy,[]⟩ ops t) :
    (∀ order,(t.buddy.freeArea order).numFree=(t.buddy.freeArea order).freeList.length) ∧
    ∀ addr nframes,⟨addr,nframes⟩∈t.live → FreesWithin memStart t (.freeFrames addr nframes) →
      WalksStop MAX_ORDER (getBuddyOrder nframes) addr t.buddy ∧
      (step t (.freeFrames addr nframes)).isSome := by
  have hinv := hrun.guarded_invariant (fun hi hwithin hstep => hi.step hwithin hstep)
    (buddyAllocCreate_invariant hle hlimit hcreate).1
  refine ⟨fun order => (hinv.buddy.area order).counted,fun addr nframes hmem hwithin => ?_⟩
  have haddr : blockAddr memStart (LiveBlock.block memStart ⟨addr,nframes⟩)=addr :=
    LiveBlock.addr_eq (hinv.aligned _ hmem)
  have hwalks := (hinv.buddy.coalesce (x:=LiveBlock.block memStart ⟨addr,nframes⟩) ⟨_,hmem,rfl⟩
    (Nat.le_add_right MAX_ORDER _) (by rw [haddr]; exact hwithin)).1
  rw [haddr] at hwalks
  exact ⟨hwalks,hinv.step_isSome hwithin hmem⟩

/-- In the memory of user tasks a quarter of a block next to an allocated one
comes together from halves. -/
theorem run_walksStop_user : ∃ buddy t,buddyAllocCreate 0x100000 0x40000000 0=some buddy ∧
    Run (Guarded (Steps step) (FreesWithin 0x100000)) ⟨buddy,[]⟩
      [.allocFrames 1 256,.allocFrames 1 128,.allocFrames 1 256] t ∧
    WalksStop MAX_ORDER 7 0x200000 t.buddy := by
  have hobserve : ((buddyAllocCreate 0x100000 0x40000000 0).bind fun buddy =>
      ([BuddyOp.allocFrames 1 256,.allocFrames 1 128,.allocFrames 1 256].foldlM step
        ⟨buddy,[]⟩).filter fun t => decide (⟨0x200000,128⟩∈t.live) &&
          !neighbourFree t.buddy 8 0x200000).isSome := by decide +kernel
  obtain ⟨t,ht⟩ := Option.isSome_iff_exists.mp hobserve
  obtain ⟨buddy,hcreate,ht⟩ := Option.bind_eq_some_iff.mp ht
  obtain ⟨hfold,hstate⟩ := Option.filter_eq_some_iff.mp ht
  obtain ⟨hlive,hused⟩ := (Bool.and_eq_true _ _).mp hstate
  have hrun : Run (Guarded (Steps step) (FreesWithin 0x100000)) ⟨buddy,[]⟩
      [.allocFrames 1 256,.allocFrames 1 128,.allocFrames 1 256] t :=
    (Run.of_foldlM hfold).guarded (by simp [FreesWithin])
  have hwithin : FreesWithin 0x100000 t (.freeFrames 0x200000 128) := by
    intro top hlow htop hall
    have horder : getBuddyOrder 128=7 := by decide
    rw [horder] at hlow hall
    have hseven : top=7 := by
      by_contra hne
      rw [hall 8 (by norm_num) (by omega)] at hused
      contradiction
    subst hseven
    decide
  exact ⟨buddy,t,hcreate,hrun,((run_walksStop (by norm_num) (by norm_num) hcreate hrun).2 0x200000
    128 (of_decide_eq_true hlive) hwithin).1⟩

/-- In the memory of user tasks releasing the only frame handed out looks for
the block at address zero, which is not managed: its bit is clear, and no entry
of the list covers it. -/
theorem walksStop_counterexample : ¬∀ (stale : ℕ) (buddy : BuddyAlloc) (ops : List BuddyOp)
    (t : BuddySystem),buddyAllocCreate 0x100000 0x40000000 stale=some buddy →
    Run (Steps step) ⟨buddy,[]⟩ ops t → ∀ addr nframes,⟨addr,nframes⟩∈t.live →
    WalksStop MAX_ORDER (getBuddyOrder nframes) addr t.buddy := by
  intro hall
  have hobserve : ((buddyAllocCreate 0x100000 0x40000000 0).bind fun buddy =>
      (step ⟨buddy,[]⟩ (.allocFrames 1 1)).filter fun t => decide (⟨0x100000,1⟩∈t.live) &&
        (coalesceLoop MAX_ORDER 0 0x100000 t.buddy).isNone).isSome := by decide +kernel
  obtain ⟨t,ht⟩ := Option.isSome_iff_exists.mp hobserve
  obtain ⟨buddy,hcreate,ht⟩ := Option.bind_eq_some_iff.mp ht
  obtain ⟨hstep,hstate⟩ := Option.filter_eq_some_iff.mp ht
  obtain ⟨hlive,hnone⟩ := (Bool.and_eq_true _ _).mp hstate
  have hwalks := hall 0 buddy [.allocFrames 1 1] t hcreate (Run.cons hstep (Run.nil t)) 0x100000 1
    (of_decide_eq_true hlive)
  obtain ⟨buddy',hsome⟩ := WalksStop.coalesceLoop hwalks
  rw [show getBuddyOrder 1=0 by decide] at hsome
  rw [hsome] at hnone
  contradiction

end XanaduOS.BuddyRuns
