import XanaduOS.BuddyMemory

/-!
# A buddy allocator and its clone

A clone has its own nodes, free areas and buffer, with the same blocks in the
same order and the same words. The pointer behind its last nodes is whatever
the slab's memory held. Every operation decides by counters, blocks and words
alone, so the clone answers like the original as long as the original follows
no null pointer, and neither writes into what belongs to the other.
-/

namespace XanaduOS.BuddyClone

open Word32 KernelDefs BuddyFrameAlloc BuddyRuns PointerLists Agreements BuddyMemory

/-! ## Cloning -/

/-- What the heap gives to a clone: a cache, an array and a buffer. -/
structure Grant where
  /-- Cache of the list nodes. -/
  flSlab : ℕ
  /-- Array of free areas. -/
  freeArea : ℕ
  /-- Buffer of the bitmaps. -/
  maps : ℕ

/-- Write the pointer at which a list is continued: its head, or the field of
its last node. -/
def writeLink (b : BuddyRecord) (order : ℕ) (newList : Option ℕ) (p : ℕ) : MemM Unit :=
  match newList with
  | none => do
    let a ← readArea b order
    writeArea b order {a with head := p}
  | some q => do
    let n ← readNode q
    writeNode q {n with next := p}

/-- Copy the rest of a list. The field of the last node is left as it is. -/
def cloneLoop (slab : Slab) (b : BuddyRecord) (order : ℕ) : ℕ → ℕ → Option ℕ → MemM Unit
  | 0,_,_ => failure
  | fuel+1,copyList,newList => do
    if copyList=0 then return ()
    let p ← slabAllocFromCache slab b.flSlab
    writeLink b order newList p
    let block := (← readNode copyList).addr
    let n ← readNode p
    writeNode p {n with addr := block}
    let next := (← readNode copyList).next
    cloneLoop slab b order fuel next (some p)

/-- Copy one list and its counter. -/
def cloneList (slab : Slab) (copy b : BuddyRecord) (order : ℕ) : MemM Unit := do
  let a ← readArea copy order
  let a' ← readArea b order
  writeArea b order {a' with numFree := a.numFree}
  fun m => cloneLoop slab b order (m.used.length+1) a.head none m

/-- Copy the lists of some orders. -/
def cloneLists (slab : Slab) (copy b : BuddyRecord) : List ℕ → MemM Unit
  | [] => return ()
  | order::orders => do
    cloneList slab copy b order
    cloneLists slab copy b orders

/-- The new arrays before any list is copied: the words of the buffer, and
free areas cleared but for one counter. -/
def cloneArrays (copy b : BuddyRecord) : MemM Unit := fun m =>
  some ((),{m with
    buffer := Function.update m.buffer b.maps fun i =>
      if i<getBuddyMapSize copy.memSize then m.buffer copy.maps i else 0#32
    area := Function.update m.area b.freeArea (Function.update (fun _ => ⟨0,0⟩) (MAX_ORDER-1)
      ⟨0,copy.memSize/MAX_BUDDY_SIZE⟩)})

/-- Clone an allocator. -/
def buddyAllocClone (slab : Slab) (g : Grant) (copy : BuddyRecord) : MemM BuddyRecord := do
  let b : BuddyRecord := ⟨copy.memSize,copy.memStart,g.flSlab,g.freeArea,g.maps⟩
  cloneArrays copy b
  cloneLists slab copy b (List.range MAX_ORDER)
  return b

/-- The nodes of a list, as many as its counter says. -/
def listNodes (m : Memory) (b : BuddyRecord) (order : ℕ) : List ℕ :=
  nodesFrom (fun p => (m.node p).next) (m.area b.freeArea order).numFree
    (m.area b.freeArea order).head

/-- Every list ends with a null pointer after as many nodes as its counter
says, and no node is in two lists. -/
structure WellFormed (m : Memory) (b : BuddyRecord) : Prop where
  /-- The head leads over the nodes to a null pointer. -/
  leads : ∀ order<MAX_ORDER,Leads (fun p => (m.node p).next)
    (m.area b.freeArea order).head (listNodes m b order) 0
  /-- Nodes are in use and no null pointers. -/
  used : ∀ order<MAX_ORDER,∀ p∈listNodes m b order,p∈m.used ∧ p≠0
  /-- No node is listed twice. -/
  nodup : ∀ order<MAX_ORDER,(listNodes m b order).Nodup
  /-- No node is in two lists. -/
  apart : ∀ i<MAX_ORDER,∀ j<MAX_ORDER,i≠j → ∀ p∈listNodes m b i,p∉listNodes m b j

/-- Nothing of an allocator has changed: its free areas, words and nodes. -/
structure Untouched (base m : Memory) (b : BuddyRecord) : Prop where
  /-- Heads and counters. -/
  area : m.area b.freeArea=base.area b.freeArea
  /-- Bitmaps. -/
  buffer : m.buffer b.maps=base.buffer b.maps
  /-- Nodes, which stay in use. -/
  node : ∀ order<MAX_ORDER,∀ p∈listNodes base b order,p∈m.used ∧ m.node p=base.node p

/-! ## Twins -/

/-- Two memories in which two allocators show the same view. The first one's
lists are closed. -/
def Twins (base base' : Memory) (foreign foreign' : ℕ → Prop) (b b' : BuddyRecord)
    (s t : Memory) : Prop :=
  ∃ v,Shows True base foreign b s v ∧ Shows False base' foreign' b' t v

variable {base base' : Memory} {foreign foreign' : ℕ → Prop} {b b' : BuddyRecord}
  {s t : Memory} {order addr : ℕ} {slab : Slab}

/-! ## Operations agree on twins -/

/-- Twins read the same words. -/
theorem agree_readMap (hsize : b'.memSize=b.memSize) (order frameMap : ℕ) :
    Agree (Twins base base' foreign foreign' b b') (readMap b order frameMap)
      (readMap b' order frameMap) := by
  rintro s t ⟨v,hs,ht⟩ w s' h
  rw [hs.readMap] at h
  rw [ht.readMap,mapIndex,hsize]
  split at h
  · rename_i hi
    obtain ⟨rfl,rfl⟩ := Prod.mk.inj (Option.some.inj h)
    exact ⟨t,if_pos hi,v,hs,ht⟩
  · simp at h

/-- Twins stay twins when the same word is written. -/
theorem agree_writeMap (hsize : b'.memSize=b.memSize) (order frameMap : ℕ) (w : BitVec 32) :
    Agree (Twins base base' foreign foreign' b b') (writeMap b order frameMap w)
      (writeMap b' order frameMap w) := by
  rintro s t ⟨v,hs,ht⟩ u s' h
  by_cases hi : mapIndex b order frameMap<getBuddyMapSize b.memSize
  · have hindex : mapIndex b' order frameMap=mapIndex b order frameMap := by
      rw [mapIndex,mapIndex,hsize]
    obtain ⟨s'',hrun,hs'⟩ := hs.writeMap hi w
    obtain ⟨t',hrun',ht'⟩ := ht.writeMap (by rw [hindex,hsize]; exact hi) w
    rw [hrun] at h
    obtain ⟨-,rfl⟩ := Prod.mk.inj (Option.some.inj h)
    exact ⟨t',hrun',_,hs',hindex▸ht'⟩
  · rw [show writeMap b order frameMap w s=none from if_neg hi] at h
    simp at h

/-- Marking a block. -/
theorem agree_setFrameUsed (hsize : b'.memSize=b.memSize) (order addr : ℕ) :
    Agree (Twins base base' foreign foreign' b b') (setFrameUsed b order addr)
      (setFrameUsed b' order addr) :=
  (agree_readMap hsize _ _).bind fun _ => agree_writeMap hsize _ _ _

/-- Unmarking a block. -/
theorem agree_setFrameUnused (hsize : b'.memSize=b.memSize) (order addr : ℕ) :
    Agree (Twins base base' foreign foreign' b b') (setFrameUnused b order addr)
      (setFrameUnused b' order addr) :=
  (agree_readMap hsize _ _).bind fun _ => agree_writeMap hsize _ _ _

/-- Testing a neighbour. -/
theorem agree_neighbourFree (hsize : b'.memSize=b.memSize) (order addr : ℕ) :
    Agree (Twins base base' foreign foreign' b b') (neighbourFree b order addr)
      (neighbourFree b' order addr) :=
  (agree_readMap hsize _ _).bind fun _ => Agree.pure _

/-- Pushing a block. -/
theorem agree_insertBuddy (hslab : slab.Supplies) (ho : order<MAX_ORDER) (addr : ℕ) :
    Agree (Twins base base' foreign foreign' b b') (insertBuddy slab b order addr)
      (insertBuddy slab b' order addr) := by
  rintro s t ⟨v,hs,ht⟩ a s' h
  obtain ⟨s'',hrun,hs'⟩ := hs.insertBuddy hslab ho addr
  obtain ⟨t',hrun',ht'⟩ := ht.insertBuddy hslab ho addr
  rw [hrun] at h
  obtain ⟨rfl,rfl⟩ := Prod.mk.inj (Option.some.inj h)
  exact ⟨t',hrun',_,hs',ht'⟩

/-- Unlinking a block. The first allocator's list is closed, so a result means
that there was one to unlink. -/
theorem agree_removeFreeFrame (ho : order<MAX_ORDER) (addr : ℕ) :
    Agree (Twins base base' foreign foreign' b b') (removeFreeFrame b order addr)
      (removeFreeFrame b' order addr) := by
  rintro s t ⟨v,hs,ht⟩ a s' h
  by_cases hl : v.lists order=[]
  · rw [hs.removeFreeFrame_nil ho hl] at h
    obtain ⟨-,rfl⟩ := Prod.mk.inj (Option.some.inj h)
    exact ⟨t,ht.removeFreeFrame_nil ho hl,v,hs,ht⟩
  · by_cases hc : ∃ e∈v.lists order,covers order addr e=true
    · obtain ⟨s'',hrun,hs'⟩ := hs.removeFreeFrame ho hc
      obtain ⟨t',hrun',ht'⟩ := ht.removeFreeFrame ho hc
      rw [hrun] at h
      obtain ⟨-,rfl⟩ := Prod.mk.inj (Option.some.inj h)
      exact ⟨t',hrun',_,hs',ht'⟩
    · rw [hs.removeFreeFrame_missing ho hl fun e he => by
        simpa using fun h' => hc ⟨e,he,h'⟩] at h
      simp at h

/-- Taking the first block when the counter is positive. -/
theorem twins_takeHead (ho : order<MAX_ORDER) (h : Twins base base' foreign foreign' b b' s t)
    (hn : (s.area b.freeArea order).numFree≠0) :
    ∃ a s' t',takeHead b order s=some (a,s') ∧ takeHead b' order t=some (a,t') ∧
      (s.area b.freeArea order).head≠0 ∧ (t.area b'.freeArea order).head≠0 ∧
      Twins base base' foreign foreign' b b' s' t' := by
  obtain ⟨v,hs,ht⟩ := h
  obtain ⟨ns,hs'⟩ := id hs
  obtain ⟨ns',ht'⟩ := id ht
  rw [hs'.numFree ho] at hn
  obtain ⟨a,rest,hl⟩ := List.exists_cons_of_ne_nil (List.length_pos_iff.mp (Nat.pos_of_ne_zero hn))
  obtain ⟨x,-,-,hx,hx0,-⟩ := hs'.head ho hl
  obtain ⟨x',-,-,hx',hx0',-⟩ := ht'.head ho hl
  obtain ⟨s',hrun,hs'⟩ := hs.takeHead ho hl
  obtain ⟨t',hrun',ht'⟩ := ht.takeHead ho hl
  exact ⟨a,s',t',hrun,hrun',hx▸hx0,hx'▸hx0',_,hs',ht'⟩

/-- Twins have the same counters. -/
theorem Twins.numFree (h : Twins base base' foreign foreign' b b' s t) (ho : order<MAX_ORDER) :
    (t.area b'.freeArea order).numFree=(s.area b.freeArea order).numFree := by
  obtain ⟨v,⟨ns,hs⟩,⟨ns',ht⟩⟩ := h
  rw [ht.numFree ho,hs.numFree ho]

/-- Splitting a block. -/
theorem agree_buddySlice (hslab : slab.Supplies) (hsize : b'.memSize=b.memSize)
    (addr target : ℕ) {level : ℕ} (hlevel : level<MAX_ORDER) :
    Agree (Twins base base' foreign foreign' b b') (buddySlice slab b addr target level)
      (buddySlice slab b' addr target level) := by
  induction level with
  | zero => exact Agree.failure fun s => rfl
  | succ start ih =>
    refine (agree_setFrameUsed hsize _ _).bind fun _ =>
      (agree_insertBuddy hslab (by omega) _).bind fun ret => Agree.ite (Agree.pure _) ?_
    refine Agree.ite (ih (by omega)) ?_
    exact (agree_setFrameUsed hsize _ _).bind fun _ => Agree.pure _

/-- One order of the search, where the list has nodes if its counter says so. -/
theorem searchUp_step {left i : ℕ} (h : (s.area b.freeArea i).numFree≠0 →
    (s.area b.freeArea i).head≠0) :
    searchUp slab b order (left+1) i s=
      if (s.area b.freeArea i).numFree=0 then searchUp slab b order left (i+1) s
      else (takeHead b i >>= fun upper => buddySlice slab b upper order i) s := by
  have hdef : searchUp slab b order (left+1) i s=
      (if (s.area b.freeArea i).numFree=0 then searchUp slab b order left (i+1)
      else if (s.area b.freeArea i).head=0 then
        (writeArea b i {s.area b.freeArea i with numFree := 0} >>= fun _ =>
          searchUp slab b order left (i+1))
      else takeHead b i >>= fun upper => buddySlice slab b upper order i) s := rfl
  rw [hdef]
  by_cases hn : (s.area b.freeArea i).numFree=0
  · rw [if_pos hn,if_pos hn]
  · rw [if_neg hn,if_neg hn,if_neg (h hn)]

/-- Searching the higher orders. -/
theorem agree_searchUp (hslab : slab.Supplies) (hsize : b'.memSize=b.memSize) (order : ℕ)
    {left i : ℕ} (hi : i+left=MAX_ORDER) :
    Agree (Twins base base' foreign foreign' b b') (searchUp slab b order left i)
      (searchUp slab b' order left i) := by
  induction left generalizing i with
  | zero => exact Agree.pure _
  | succ left ih =>
    intro s t hst a u h
    have ho : i<MAX_ORDER := by omega
    have hcount := hst.numFree ho
    by_cases hn : (s.area b.freeArea i).numFree=0
    · rw [searchUp_step fun h' => absurd hn h',if_pos hn] at h
      rw [searchUp_step fun h' => absurd (hcount.trans hn) h',if_pos (hcount.trans hn)]
      exact ih (by omega) s t hst a u h
    · obtain ⟨x,s',t',hrun,hrun',hhead,hhead',hst'⟩ := twins_takeHead ho hst hn
      rw [searchUp_step fun _ => hhead,if_neg hn] at h
      rw [searchUp_step fun _ => hhead',if_neg fun h' => hn (hcount.symm.trans h')]
      obtain ⟨⟨y,s''⟩,hy,hslice⟩ := Option.bind_eq_some_iff.mp h
      rw [hrun] at hy
      obtain ⟨rfl,rfl⟩ := Prod.mk.inj (Option.some.inj hy)
      obtain ⟨u',hu,hrel⟩ := agree_buddySlice hslab hsize x order ho s' t' hst' a u hslice
      exact ⟨u',Option.bind_eq_some_iff.mpr ⟨(x,t'),hrun',hu⟩,hrel⟩

/-- A request of one block takes the head of its list or searches on. -/
theorem buddyAllocFramesMaxOrder_step (nframes : ℕ) :
    buddyAllocFramesMaxOrder slab b nframes s=
      if (s.area b.freeArea (getBuddyOrder nframes)).numFree=0 then
        searchUp slab b (getBuddyOrder nframes) (MAX_ORDER-(getBuddyOrder nframes+1))
          (getBuddyOrder nframes+1) s
      else (takeHead b (getBuddyOrder nframes) >>= fun free =>
        setFrameUsed b (getBuddyOrder nframes) free >>= fun _ => pure (0,[free])) s := by
  have hdef : buddyAllocFramesMaxOrder slab b nframes s=
      (if (s.area b.freeArea (getBuddyOrder nframes)).numFree≠0 then
        (takeHead b (getBuddyOrder nframes) >>= fun free =>
          setFrameUsed b (getBuddyOrder nframes) free >>= fun _ => pure (0,[free]))
      else searchUp slab b (getBuddyOrder nframes) (MAX_ORDER-(getBuddyOrder nframes+1))
        (getBuddyOrder nframes+1)) s := rfl
  rw [hdef]
  by_cases hn : (s.area b.freeArea (getBuddyOrder nframes)).numFree=0
  · rw [if_pos hn,if_neg (not_not_intro hn)]
  · rw [if_neg hn,if_pos hn]

/-- Requesting a block. -/
theorem agree_buddyAllocFramesMaxOrder (hslab : slab.Supplies) (hsize : b'.memSize=b.memSize)
    (nframes : ℕ) :
    Agree (Twins base base' foreign foreign' b b') (buddyAllocFramesMaxOrder slab b nframes)
      (buddyAllocFramesMaxOrder slab b' nframes) := by
  intro s t hst a u h
  have ho := BuddyBlocks.getBuddyOrder_lt nframes
  have hcount := hst.numFree ho
  rw [buddyAllocFramesMaxOrder_step] at h ⊢
  by_cases hn : (s.area b.freeArea (getBuddyOrder nframes)).numFree=0
  · rw [if_pos hn] at h
    rw [if_pos (hcount.trans hn)]
    exact agree_searchUp hslab hsize _ (by omega) s t hst a u h
  · rw [if_neg hn] at h
    rw [if_neg fun h' => hn (hcount.symm.trans h')]
    obtain ⟨x,s',t',hrun,hrun',-,-,hst'⟩ := twins_takeHead ho hst hn
    obtain ⟨⟨y,s''⟩,hy,hmark⟩ := Option.bind_eq_some_iff.mp h
    rw [hrun] at hy
    obtain ⟨rfl,rfl⟩ := Prod.mk.inj (Option.some.inj hy)
    obtain ⟨u',hu,hrel⟩ := ((agree_setFrameUsed hsize (getBuddyOrder nframes) x).bind
      fun _ => Agree.pure (0,[x])) s' t' hst' a u hmark
    exact ⟨u',Option.bind_eq_some_iff.mpr ⟨(x,t'),hrun',hu⟩,hrel⟩

/-- Requesting block after block. -/
theorem agree_allocRounds (hslab : slab.Supplies) (hsize : b'.memSize=b.memSize)
    (nframes left i : ℕ) (acc : List ℕ) :
    Agree (Twins base base' foreign foreign' b b') (allocRounds slab b nframes left i acc)
      (allocRounds slab b' nframes left i acc) := by
  induction left generalizing i acc with
  | zero => exact Agree.pure _
  | succ left ih =>
    refine (agree_buddyAllocFramesMaxOrder hslab hsize _).bind fun r => ?_
    exact Agree.ite (Agree.pure _) (ih _ _)

/-- Requesting frames. -/
theorem agree_buddyAllocFrames (hslab : slab.Supplies) (hsize : b'.memSize=b.memSize)
    (addrs nframes : ℕ) :
    Agree (Twins base base' foreign foreign' b b') (buddyAllocFrames slab b addrs nframes)
      (buddyAllocFrames slab b' addrs nframes) :=
  Agree.ite (Agree.pure _) (agree_allocRounds hslab hsize _ _ _ _)

/-- Releasing a block and coalescing it. -/
theorem agree_buddyCoalesce (hslab : slab.Supplies) (hsize : b'.memSize=b.memSize) (addr : ℕ)
    {fuel order : ℕ} (ho : order<MAX_ORDER) :
    Agree (Twins base base' foreign foreign' b b') (buddyCoalesce slab b addr fuel order)
      (buddyCoalesce slab b' addr fuel order) := by
  induction fuel generalizing order with
  | zero => exact Agree.failure fun s => rfl
  | succ fuel ih =>
    refine (agree_setFrameUnused hsize _ _).bind fun _ => ?_
    by_cases hlt : order<MAX_ORDER-1
    · simp only [if_pos hlt]
      refine (agree_neighbourFree hsize _ _).bind fun merge => Agree.ite ?_ ?_
      · exact (agree_removeFreeFrame ho _).bind fun _ => ih (by omega)
      · exact (agree_insertBuddy hslab ho _).bind fun _ => Agree.pure _
    · simp only [if_neg hlt,pure_bind]
      exact (agree_insertBuddy hslab ho _).bind fun _ => Agree.pure _

/-- Releasing a block from the first order whose bit is set. -/
theorem agree_buddyFreeFramesRec (hslab : slab.Supplies) (hsize : b'.memSize=b.memSize)
    (addr : ℕ) {left order : ℕ} (ho : order+left=MAX_ORDER) :
    Agree (Twins base base' foreign foreign' b b') (buddyFreeFramesRec slab b addr left order)
      (buddyFreeFramesRec slab b' addr left order) := by
  induction left generalizing order with
  | zero => exact Agree.failure fun s => rfl
  | succ left ih =>
    refine (agree_readMap hsize _ _).bind fun w => Agree.ite (ih (by omega)) ?_
    exact agree_buddyCoalesce hslab hsize addr (by omega)

/-- One call. -/
theorem agree_call (hslab : slab.Supplies) (hsize : b'.memSize=b.memSize) (op : BuddyOp) :
    Agree (Twins base base' foreign foreign' b b') (call slab b op) (call slab b' op) := by
  cases op with
  | allocFrames addrs nframes => exact agree_buddyAllocFrames hslab hsize addrs nframes
  | freeFrames addr nframes =>
    have ho := BuddyBlocks.getBuddyOrder_lt nframes
    exact (agree_buddyFreeFramesRec hslab hsize addr (by omega)).bind fun _ => Agree.pure _

/-! ## A clone is a twin -/

/-- Nodes that are new in the second memory and hold the blocks that some
nodes have in the first. -/
structure Copied (s t : Memory) (xs ys : List ℕ) : Prop where
  /-- The blocks, in order. -/
  blocks : ys.map (fun p => (t.node p).addr)=xs.map fun p => (s.node p).addr
  /-- No node twice. -/
  nodup : ys.Nodup
  /-- New nodes were not in use. -/
  fresh : ∀ p∈ys,p∉s.used
  /-- New nodes are in use and no null pointers. -/
  used : ∀ p∈ys,p∈t.used ∧ p≠0
  /-- What was in use stays so. -/
  grows : ∀ p∈s.used,p∈t.used

/-- The first node copied: the new node holds the block and is the head. -/
theorem cloneLoop_first {x p fuel : ℕ} (hp : slab.alloc b.flSlab s.calls s.used=p) (hp0 : p≠0)
    (hxp : x≠p) (hx0 : x≠0) :
    ∃ t,cloneLoop slab b order (fuel+1) x none s=
        cloneLoop slab b order fuel (s.node x).next (some p) t ∧
      (t.node p).addr=(s.node x).addr ∧ t.used=p::s.used ∧ (∀ y≠p,t.node y=s.node y) ∧
      t.buffer=s.buffer ∧
      t.area=Function.update s.area b.freeArea (Function.update (s.area b.freeArea) order
        {s.area b.freeArea order with head := p}) := by
  refine ⟨{s with
    node := Function.update (Function.update s.node p (slab.stale b.flSlab s.calls)) p
      {slab.stale b.flSlab s.calls with addr := (s.node x).addr}
    used := p::s.used,calls := s.calls+1
    area := Function.update s.area b.freeArea (Function.update (s.area b.freeArea) order
      {s.area b.freeArea order with head := p})},?_,?_,rfl,fun y hy => ?_,rfl,rfl⟩
  · simp [cloneLoop,slabAllocFromCache,writeLink,readArea,writeArea,readNode,writeNode,bind,
      StateT.bind,hp,hp0,hx0,hxp]
  · simp
  · simp [hy]

/-- A further node copied: the new node holds the block and stands behind the
last one. -/
theorem cloneLoop_next {x p q fuel : ℕ} (hp : slab.alloc b.flSlab s.calls s.used=p) (hp0 : p≠0)
    (hxp : x≠p) (hx0 : x≠0) (hq0 : q≠0) (hqp : q≠p) (hqx : q≠x) :
    ∃ t,cloneLoop slab b order (fuel+1) x (some q) s=
        cloneLoop slab b order fuel (s.node x).next (some p) t ∧
      (t.node p).addr=(s.node x).addr ∧ t.used=p::s.used ∧
      (∀ y≠p,y≠q → t.node y=s.node y) ∧ t.node q={s.node q with next := p} ∧
      t.buffer=s.buffer ∧ t.area=s.area := by
  refine ⟨{s with
    node := Function.update (Function.update (Function.update s.node p
        (slab.stale b.flSlab s.calls)) q {s.node q with next := p}) p
      {slab.stale b.flSlab s.calls with addr := (s.node x).addr}
    used := p::s.used,calls := s.calls+1},?_,?_,rfl,fun y hy hyq => ?_,?_,rfl,rfl⟩
  · simp [cloneLoop,slabAllocFromCache,writeLink,readNode,writeNode,bind,StateT.bind,hp,hp0,
      hx0,hxp,hq0,hqp,Ne.symm hqp,Ne.symm hqx]
  · simp
  · simp [hy,hyq]
  · simp [hqp]

/-- Nothing copied. -/
theorem copied_nil (s : Memory) : Copied s s [] [] :=
  ⟨rfl,List.nodup_nil,by simp,by simp,fun _ hp => hp⟩

/-- A node copied in front of others. -/
theorem Copied.cons {u : Memory} {x p : ℕ} {xs ys : List ℕ} (h : Copied u t xs ys)
    (hused : u.used=p::s.used) (hp0 : p≠0) (hfresh : p∉s.used)
    (hblock : (t.node p).addr=(s.node x).addr)
    (hxs : ∀ y∈xs,(u.node y).addr=(s.node y).addr) : Copied s t (x::xs) (p::ys) := by
  have hsub : ∀ y∈s.used,y∈u.used := fun y hy => hused▸List.mem_cons_of_mem p hy
  have hpu : p∈u.used := hused▸List.mem_cons_self
  refine ⟨?_,List.nodup_cons.mpr ⟨fun hp => h.fresh p hp hpu,h.nodup⟩,fun y hy => ?_,
    fun y hy => ?_,fun y hy => h.grows y (hsub y hy)⟩
  · rw [List.map_cons,List.map_cons,hblock,h.blocks]
    congr 1
    exact List.map_congr_left hxs
  · rcases List.mem_cons.mp hy with rfl|hy
    · exact hfresh
    · exact fun hys => h.fresh y hy (hsub y hys)
  · rcases List.mem_cons.mp hy with rfl|hy
    · exact ⟨h.grows _ hpu,hp0⟩
    · exact h.used y hy

/-- The rest of a list is copied behind a node. -/
theorem cloneLoop_behind (hslab : slab.Supplies) {xs : List ℕ} {fuel src q : ℕ}
    (hleads : Leads (fun p => (s.node p).next) src xs 0) (hxs : ∀ p∈xs,p∈s.used ∧ p≠0)
    (hfuel : xs.length<fuel) (hq0 : q≠0) (hq : q∈s.used) (hqxs : q∉xs) :
    ∃ t ys r,cloneLoop slab b order fuel src (some q) s=some ((),t) ∧
      Leads (fun p => (t.node p).next) (t.node q).next ys r ∧ Copied s t xs ys ∧
      (∀ p∈s.used,p≠q → t.node p=s.node p) ∧ (t.node q).addr=(s.node q).addr ∧
      t.buffer=s.buffer ∧ t.area=s.area := by
  induction xs generalizing fuel src q s with
  | nil =>
    obtain ⟨fuel,rfl⟩ := Nat.exists_eq_succ_of_ne_zero (Nat.ne_of_gt hfuel)
    refine ⟨s,[],_,?_,rfl,copied_nil s,fun _ _ _ => rfl,rfl,rfl,rfl⟩
    obtain rfl : src=0 := hleads
    rfl
  | cons x xs ih =>
    obtain ⟨fuel,rfl⟩ := Nat.exists_eq_succ_of_ne_zero (Nat.ne_of_gt (Nat.zero_lt_of_lt hfuel))
    obtain ⟨rfl,hleads⟩ := hleads
    obtain ⟨hp0,hfresh⟩ := hslab b.flSlab s.calls s.used
    obtain ⟨hx,hx0⟩ := hxs src List.mem_cons_self
    have hne : ∀ y∈s.used,y≠slab.alloc b.flSlab s.calls s.used := by
      rintro y hy rfl
      exact hfresh hy
    obtain ⟨u,hstep,hblock,hused,hkeep,hlink,hbuffer,harea⟩ := @cloneLoop_next b s order slab src
      _ q fuel rfl hp0 (hne src hx) hx0 hq0 (hne q hq) fun h => hqxs (h▸List.mem_cons_self)
    generalize slab.alloc b.flSlab s.calls s.used=p at *
    have hxs' : ∀ y∈xs,u.node y=s.node y := by
      intro y hy
      refine hkeep y (hne y (hxs y (List.mem_cons_of_mem _ hy)).1) ?_
      rintro rfl
      exact hqxs (List.mem_cons_of_mem _ hy)
    have hsub : ∀ y∈s.used,y∈u.used := fun y hy => hused▸List.mem_cons_of_mem p hy
    have hpxs : p∉xs := fun hp => hfresh (hxs p (List.mem_cons_of_mem _ hp)).1
    obtain ⟨t,ys,r,hrun,hleads',hcopied,hkeep',hblock',hbuffer',harea'⟩ := @ih u fuel
      (s.node src).next p (hleads.congr fun y hy => by rw [hxs' y hy])
      (fun y hy => ⟨hsub y (hxs y (List.mem_cons_of_mem _ hy)).1,(hxs y (List.mem_cons_of_mem _ hy)).2⟩)
      (Nat.lt_of_succ_lt_succ hfuel) hp0 (hused▸List.mem_cons_self) hpxs
    have hq' : t.node q=u.node q := hkeep' q (hsub q hq) (hne q hq)
    refine ⟨t,p::ys,r,hstep.trans hrun,⟨?_,hleads'⟩,hcopied.cons hused hp0 hfresh
      (hblock'.trans hblock) (fun y hy => by rw [hxs' y hy]),fun y hy hyq => ?_,?_,
      hbuffer'.trans hbuffer,harea'.trans harea⟩
    · rw [hq',hlink]
    · exact (hkeep' y (hsub y hy) (hne y hy)).trans (hkeep y (hne y hy) hyq)
    · rw [hq',hlink]

/-- A list is copied behind the head of another. -/
theorem cloneLoop_head (hslab : slab.Supplies) {xs : List ℕ} {fuel src : ℕ}
    (hleads : Leads (fun p => (s.node p).next) src xs 0) (hxs : ∀ p∈xs,p∈s.used ∧ p≠0)
    (hfuel : xs.length<fuel) :
    ∃ t ys r,cloneLoop slab b order fuel src none s=some ((),t) ∧
      Leads (fun p => (t.node p).next) (t.area b.freeArea order).head ys r ∧ Copied s t xs ys ∧
      (∀ p∈s.used,t.node p=s.node p) ∧ t.buffer=s.buffer ∧
      (∀ a≠b.freeArea,t.area a=s.area a) ∧
      (∀ i≠order,t.area b.freeArea i=s.area b.freeArea i) ∧
      (t.area b.freeArea order).numFree=(s.area b.freeArea order).numFree := by
  obtain ⟨fuel,rfl⟩ := Nat.exists_eq_succ_of_ne_zero (Nat.ne_of_gt (Nat.zero_lt_of_lt hfuel))
  cases xs with
  | nil =>
    refine ⟨s,[],_,?_,rfl,copied_nil s,fun _ _ => rfl,rfl,fun _ _ => rfl,fun _ _ => rfl,rfl⟩
    obtain rfl : src=0 := hleads
    rfl
  | cons x xs =>
    obtain ⟨rfl,hleads⟩ := hleads
    obtain ⟨hp0,hfresh⟩ := hslab b.flSlab s.calls s.used
    obtain ⟨hx,hx0⟩ := hxs src List.mem_cons_self
    have hne : ∀ y∈s.used,y≠slab.alloc b.flSlab s.calls s.used := by
      rintro y hy rfl
      exact hfresh hy
    obtain ⟨u,hstep,hblock,hused,hkeep,hbuffer,harea⟩ :=
      @cloneLoop_first b s order slab src _ fuel rfl hp0 (hne src hx) hx0
    generalize slab.alloc b.flSlab s.calls s.used=p at *
    have hxs' : ∀ y∈xs,u.node y=s.node y := fun y hy =>
      hkeep y (hne y (hxs y (List.mem_cons_of_mem _ hy)).1)
    have hsub : ∀ y∈s.used,y∈u.used := fun y hy => hused▸List.mem_cons_of_mem p hy
    have hpxs : p∉xs := fun hp => hfresh (hxs p (List.mem_cons_of_mem _ hp)).1
    obtain ⟨t,ys,r,hrun,hleads',hcopied,hkeep',hblock',hbuffer',harea'⟩ :=
      @cloneLoop_behind b u order slab hslab xs fuel (s.node src).next p
        (hleads.congr fun y hy => by rw [hxs' y hy])
        (fun y hy => ⟨hsub y (hxs y (List.mem_cons_of_mem _ hy)).1,
          (hxs y (List.mem_cons_of_mem _ hy)).2⟩)
        (Nat.lt_of_succ_lt_succ hfuel) hp0 (hused▸List.mem_cons_self) hpxs
    refine ⟨t,p::ys,r,hstep.trans hrun,⟨?_,hleads'⟩,hcopied.cons hused hp0 hfresh
      (hblock'.trans hblock) (fun y hy => by rw [hxs' y hy]),fun y hy => ?_,
      hbuffer'.trans hbuffer,fun a ha => ?_,fun i hi => ?_,?_⟩
    · rw [harea',harea,Function.update_self,Function.update_self]
    · exact (hkeep' y (hsub y hy) (hne y hy)).trans (hkeep y (hne y hy))
    · rw [harea',harea,Function.update_of_ne ha]
    · rw [harea',harea,Function.update_self,Function.update_of_ne hi]
    · rw [harea',harea,Function.update_self,Function.update_self]

/-- Copies stay when what is in use is kept. -/
theorem Copied.keep {u : Memory} {xs ys : List ℕ} (h : Copied s u xs ys)
    (hkeep : ∀ p∈u.used,p∈t.used ∧ t.node p=u.node p) : Copied s t xs ys := by
  refine ⟨?_,h.nodup,h.fresh,fun p hp => ?_,fun p hp => (hkeep p (h.grows p hp)).1⟩
  · rw [←h.blocks]
    exact List.map_congr_left fun p hp => by rw [(hkeep p (h.used p hp).1).2]
  · exact ⟨(hkeep p (h.used p hp).1).1,(h.used p hp).2⟩

/-- Copies made later, of nodes that were kept until then. -/
theorem Copied.after {u : Memory} {xs ys : List ℕ} (h : Copied u t xs ys)
    (hkeep : ∀ p∈s.used,p∈u.used ∧ u.node p=s.node p) (hxs : ∀ p∈xs,p∈s.used) :
    Copied s t xs ys := by
  refine ⟨?_,h.nodup,fun p hp hps => h.fresh p hp (hkeep p hps).1,h.used,
    fun p hp => h.grows p (hkeep p hp).1⟩
  rw [h.blocks]
  exact List.map_congr_left fun p hp => by rw [(hkeep p (hxs p hp)).2]

/-- As many nodes are copied as there are. -/
theorem Copied.length_eq {xs ys : List ℕ} (h : Copied s t xs ys) : ys.length=xs.length := by
  simpa using congrArg List.length h.blocks

/-- A list that can be copied: closed, counted, of distinct nodes in use. -/
structure Closed (s : Memory) (b : BuddyRecord) (order : ℕ) (xs : List ℕ) : Prop where
  /-- The head leads over the nodes to a null pointer. -/
  leads : Leads (fun p => (s.node p).next) (s.area b.freeArea order).head xs 0
  /-- The counter counts them. -/
  count : (s.area b.freeArea order).numFree=xs.length
  /-- They are in use and no null pointers. -/
  used : ∀ p∈xs,p∈s.used ∧ p≠0
  /-- None is listed twice. -/
  nodup : xs.Nodup

/-- A closed list stays closed when its head and its nodes are kept. -/
theorem Closed.keep {xs : List ℕ} (h : Closed s b order xs)
    (harea : t.area b.freeArea order=s.area b.freeArea order)
    (hkeep : ∀ p∈s.used,p∈t.used ∧ t.node p=s.node p) : Closed t b order xs := by
  refine ⟨?_,by rw [harea]; exact h.count,fun p hp => ⟨(hkeep p (h.used p hp).1).1,(h.used p hp).2⟩,
    h.nodup⟩
  rw [harea]
  exact h.leads.congr fun p hp => by rw [(hkeep p (h.used p hp).1).2]

/-- One list and its counter are copied. -/
theorem cloneList_copies {copy : BuddyRecord} (hslab : slab.Supplies) {xs : List ℕ}
    (h : Closed s copy order xs) :
    ∃ t ys r,cloneList slab copy b order s=some ((),t) ∧
      Leads (fun p => (t.node p).next) (t.area b.freeArea order).head ys r ∧ Copied s t xs ys ∧
      (∀ p∈s.used,t.node p=s.node p) ∧ t.buffer=s.buffer ∧
      (∀ a≠b.freeArea,t.area a=s.area a) ∧
      (∀ i≠order,t.area b.freeArea i=s.area b.freeArea i) ∧
      (t.area b.freeArea order).numFree=ys.length := by
  have hlength : xs.length ≤ s.used.length :=
    (List.subperm_of_subset h.nodup fun p hp => (h.used p hp).1).length_le
  obtain ⟨u,hu⟩ : ∃ u,u={s with
      area := Function.update s.area b.freeArea (Function.update (s.area b.freeArea) order
        {s.area b.freeArea order with numFree := (s.area copy.freeArea order).numFree})} := ⟨_,rfl⟩
  have hnode : u.node=s.node := by rw [hu]
  have hused : u.used=s.used := by rw [hu]
  obtain ⟨t,ys,r,hrun,hleads,hcopied,hkeep,hbuffer,harea,hother,hcount⟩ :=
    @cloneLoop_head b u order slab hslab xs (s.used.length+1) (s.area copy.freeArea order).head
      (by rw [hnode]; exact h.leads) (by rw [hused]; exact h.used) (by omega)
  have hcopied' : Copied s t xs ys := hcopied.after (fun p hp => ⟨hused▸hp,by rw [hnode]⟩)
    fun p hp => (h.used p hp).1
  refine ⟨t,ys,r,?_,hleads,hcopied',fun p hp => ?_,?_,fun a ha => ?_,fun i hi => ?_,?_⟩
  · rw [←hrun,hu]
    rfl
  · rw [hkeep p (hused▸hp),hnode]
  · rw [hbuffer,hu]
  · rw [harea a ha,hu]
    exact Function.update_of_ne ha _ _
  · rw [hother i hi,hu]
    simp only [Function.update_self,Function.update_of_ne hi]
  · rw [hcount,hu,hcopied'.length_eq,←h.count]
    simp only [Function.update_self]

/-- All lists are copied, to nodes of their own. -/
theorem cloneLists_copies {copy : BuddyRecord} (hslab : slab.Supplies)
    (hne : b.freeArea≠copy.freeArea) {ns : ℕ → List ℕ} {orders : List ℕ} (hnodup : orders.Nodup)
    (h : ∀ i∈orders,Closed s copy i (ns i)) :
    ∃ (t : Memory) (ns' : ℕ → List ℕ),cloneLists slab copy b orders s=some ((),t) ∧
      (∀ i∈orders,(∃ r,Leads (fun p => (t.node p).next) (t.area b.freeArea i).head (ns' i) r) ∧
        Copied s t (ns i) (ns' i) ∧ (t.area b.freeArea i).numFree=(ns' i).length) ∧
      (∀ i∈orders,∀ j∈orders,i≠j → ∀ p∈ns' i,p∉ns' j) ∧
      (∀ p∈s.used,p∈t.used ∧ t.node p=s.node p) ∧ t.buffer=s.buffer ∧
      (∀ a≠b.freeArea,t.area a=s.area a) ∧
      ∀ i∉orders,t.area b.freeArea i=s.area b.freeArea i := by
  induction orders generalizing s with
  | nil =>
    exact ⟨s,fun _ => [],rfl,by simp,by simp,fun p hp => ⟨hp,rfl⟩,rfl,fun _ _ => rfl,fun _ _ => rfl⟩
  | cons i orders ih =>
    obtain ⟨hi,hnodup⟩ := List.nodup_cons.mp hnodup
    obtain ⟨u,ys,r,hrun,hleads,hcopied,hkeep,hbuffer,harea,hother,hcount⟩ :=
      cloneList_copies hslab (h i List.mem_cons_self)
    have hkept : ∀ p∈s.used,p∈u.used ∧ u.node p=s.node p :=
      fun p hp => ⟨hcopied.grows p hp,hkeep p hp⟩
    obtain ⟨t,ns',hrun',hlists,hapart,hkeep',hbuffer',harea',hother'⟩ := ih hnodup fun j hj =>
      (h j (List.mem_cons_of_mem i hj)).keep (congrFun (harea _ (Ne.symm hne)) j) hkept
    have hne' : ∀ j∈orders,j≠i := by
      rintro j hj rfl
      exact hi hj
    have hnew : ∀ j∈orders,∀ p∈ns' j,p∉ys := fun j hj p hp hys =>
      (hlists j hj).2.1.fresh p hp (hcopied.used p hys).1
    refine ⟨t,Function.update ns' i ys,Option.bind_eq_some_iff.mpr ⟨((),u),hrun,hrun'⟩,
      fun j hj => ?_,fun j hj k hk hjk => ?_,fun p hp => ?_,hbuffer'.trans hbuffer,
      fun a ha => (harea' a ha).trans (harea a ha),fun j hj => ?_⟩
    · rcases List.mem_cons.mp hj with rfl|hj
      · rw [Function.update_self,hother' j hi]
        exact ⟨⟨r,hleads.congr fun p hp => by rw [(hkeep' p (hcopied.used p hp).1).2]⟩,
          hcopied.keep hkeep',hcount⟩
      · rw [Function.update_of_ne (hne' j hj)]
        obtain ⟨hl,hc,hn⟩ := hlists j hj
        exact ⟨hl,hc.after hkept fun p hp => ((h j (List.mem_cons_of_mem i hj)).used p hp).1,hn⟩
    · rcases List.mem_cons.mp hj with hji|hj'
      · rcases List.mem_cons.mp hk with hki|hk'
        · exact absurd (hji.trans hki.symm) hjk
        · rw [hji,Function.update_self,Function.update_of_ne (hne' k hk')]
          exact fun p hp hp' => hnew k hk' p hp' hp
      · rw [Function.update_of_ne (hne' j hj')]
        rcases List.mem_cons.mp hk with hki|hk'
        · rw [hki,Function.update_self]
          exact hnew j hj'
        · rw [Function.update_of_ne (hne' k hk')]
          exact hapart j hj' k hk' hjk
    · obtain ⟨hu,hn⟩ := hkept p hp
      exact ⟨(hkeep' p hu).1,(hkeep' p hu).2.trans hn⟩
    · rw [hother' j fun hj' => hj (List.mem_cons_of_mem i hj')]
      exact hother j fun heq => hj (heq▸List.mem_cons_self)

/-- The nodes of an allocator. -/
def Listed (m : Memory) (b : BuddyRecord) (p : ℕ) : Prop :=
  ∃ order<MAX_ORDER,p∈listNodes m b order

/-- Counted lists are the nodes that their heads lead over. -/
theorem listNodes_eq {xs : List ℕ} {q : ℕ}
    (hleads : Leads (fun p => (s.node p).next) (s.area b.freeArea order).head xs q)
    (hcount : (s.area b.freeArea order).numFree=xs.length) : listNodes s b order=xs := by
  rw [listNodes,hcount,hleads.nodesFrom_eq]

/-- The lists of a well-formed allocator can be copied. -/
theorem WellFormed.closed (h : WellFormed s b) (ho : order<MAX_ORDER) :
    Closed s b order (listNodes s b order) := by
  refine ⟨h.leads order ho,?_,h.used order ho,h.nodup order ho⟩
  have hlength : ∀ (next : ℕ → ℕ) (n p : ℕ),(nodesFrom next n p).length=n := by
    intro next n
    induction n with
    | zero => exact fun p => rfl
    | succ n ih => exact fun p => congrArg (·+1) (ih (next p))
  exact (hlength _ _ _).symm

/-- What belongs to an allocator is kept by one that shows a view beside it. -/
theorem Shows.untouched {closed : Prop} {v : View}
    (h : Shows closed base (Listed base b) b' t v) (harea : b.freeArea≠b'.freeArea)
    (hmaps : b.maps≠b'.maps) : Untouched base t b := by
  obtain ⟨ns,h⟩ := h
  exact ⟨h.area _ harea,h.buffer _ hmaps,fun order ho p hp => h.node p ⟨order,ho,hp⟩⟩

/-- A clone of a well-formed allocator is its twin, and the original is as it
was. -/
theorem buddyAllocClone_twins {g : Grant} {copy : BuddyRecord} {m : Memory}
    (hslab : slab.Supplies) (hwf : WellFormed m copy) (harea : g.freeArea≠copy.freeArea)
    (hmaps : g.maps≠copy.maps) :
    ∃ b m',buddyAllocClone slab g copy m=some (b,m') ∧
      (b.memSize=copy.memSize ∧ b.freeArea=g.freeArea ∧ b.maps=g.maps) ∧
      Twins m' m' (Listed m' b) (Listed m' copy) copy b m' m' ∧ Untouched m m' copy := by
  obtain ⟨b,hb⟩ : ∃ b : BuddyRecord,b=⟨copy.memSize,copy.memStart,g.flSlab,g.freeArea,g.maps⟩ :=
    ⟨_,rfl⟩
  have hba : b.freeArea≠copy.freeArea := by rw [hb]; exact harea
  have hbm : b.maps≠copy.maps := by rw [hb]; exact hmaps
  obtain ⟨u,hu⟩ : ∃ u,cloneArrays copy b m=some ((),u) := ⟨_,rfl⟩
  have hu' := (Prod.mk.inj (Option.some.inj hu)).2
  have hunode : u.node=m.node := by rw [←hu']
  have huused : u.used=m.used := by rw [←hu']
  have huarea : u.area copy.freeArea=m.area copy.freeArea := by
    rw [←hu']
    exact Function.update_of_ne (Ne.symm hba) _ _
  have hubuffer : u.buffer copy.maps=m.buffer copy.maps := by
    rw [←hu']
    exact Function.update_of_ne (Ne.symm hbm) _ _
  have hclosed : ∀ i∈List.range MAX_ORDER,Closed u copy i (listNodes m copy i) := fun i hi =>
    (hwf.closed (List.mem_range.mp hi)).keep (congrFun huarea i)
      fun p hp => ⟨huused▸hp,by rw [hunode]⟩
  obtain ⟨m',ns',hrun,hlists,hapart,hkeep,hbuffer,harea',-⟩ :=
    cloneLists_copies hslab hba List.nodup_range hclosed
  have hlists' := fun i (hi : i<MAX_ORDER) => hlists i (List.mem_range.mpr hi)
  have hcopyArea : m'.area copy.freeArea=m.area copy.freeArea :=
    (harea' _ (Ne.symm hba)).trans huarea
  have hkeep' : ∀ p∈m.used,p∈m'.used ∧ m'.node p=m.node p := by
    intro p hp
    obtain ⟨hp',hnode⟩ := hkeep p (huused▸hp)
    exact ⟨hp',hnode.trans (by rw [hunode])⟩
  have hcopy : ∀ i<MAX_ORDER,Closed m' copy i (listNodes m copy i) := fun i hi =>
    (hwf.closed hi).keep (congrFun hcopyArea i) hkeep'
  have hnodes : ∀ i<MAX_ORDER,listNodes m' copy i=listNodes m copy i := fun i hi =>
    listNodes_eq (hcopy i hi).leads (hcopy i hi).count
  have hnodes' : ∀ i<MAX_ORDER,listNodes m' b i=ns' i := by
    intro i hi
    obtain ⟨⟨r,hr⟩,-,hn⟩ := hlists' i hi
    exact listNodes_eq hr hn
  have hfresh : ∀ i<MAX_ORDER,∀ j<MAX_ORDER,∀ p∈ns' j,p∉listNodes m copy i := by
    intro i hi j hj p hp hp'
    exact (hlists' j hj).2.1.fresh p hp (huused.symm▸(hwf.used i hi p hp').1)
  have hwords : ∀ i<getBuddyMapSize b.memSize,m'.buffer b.maps i=m'.buffer copy.maps i := by
    intro i hi
    rw [hbuffer,hubuffer,←hu']
    simp only [Function.update_self]
    exact if_pos (by rw [hb] at hi; exact hi)
  refine ⟨b,m',?_,by rw [hb]; exact ⟨rfl,rfl,rfl⟩,⟨⟨fun i => (listNodes m copy i).map
    fun p => (m'.node p).addr,m'.buffer copy.maps⟩,⟨listNodes m copy,?_⟩,⟨ns',?_⟩⟩,hcopyArea,
    by rw [hbuffer,hubuffer],fun i hi p hp => hkeep' p (hwf.used i hi p hp).1⟩
  · rw [←hu',hb] at hrun
    rw [hb]
    exact Option.bind_eq_some_iff.mpr ⟨((),m'),hrun,rfl⟩
  · refine ⟨fun i hi => ⟨0,(hcopy i hi).leads,fun _ => rfl⟩,fun i hi => (hcopy i hi).count,
      fun i hi => (hcopy i hi).used,fun i hi => (hcopy i hi).nodup,hwf.apart,?_,fun _ _ => rfl,
      fun _ _ => rfl,fun _ _ => rfl,fun _ _ => rfl,?_⟩
    · rintro i hi p hp ⟨j,hj,hpj⟩
      exact hfresh i hi j hj p (hnodes' j hj▸hpj) hp
    · rintro p ⟨j,hj,hpj⟩
      exact ⟨((hlists' j hj).2.1.used p (hnodes' j hj▸hpj)).1,rfl⟩
  · refine ⟨fun i hi => ?_,fun i hi => (hlists' i hi).2.2,fun i hi => (hlists' i hi).2.1.used,
      fun i hi => (hlists' i hi).2.1.nodup,fun i hi j hj => hapart i (List.mem_range.mpr hi) j
      (List.mem_range.mpr hj),?_,fun i hi => ?_,hwords,fun _ _ => rfl,fun _ _ => rfl,?_⟩
    · obtain ⟨r,hr⟩ := (hlists' i hi).1
      exact ⟨r,hr,False.elim⟩
    · rintro i hi p hp ⟨j,hj,hpj⟩
      exact hfresh j hj i hi p hp (hnodes j hj▸hpj)
    · rw [(hlists' i hi).2.1.blocks]
      exact List.map_congr_left fun p hp => by
        rw [(hkeep p (huused.symm▸(hwf.used i hi p hp).1)).2]
    · rintro p ⟨j,hj,hpj⟩
      exact ⟨(hkeep' p (hwf.used j hj p (hnodes j hj▸hpj)).1).1,rfl⟩

/-- After a well-formed allocator is cloned, every sequence of calls on which
the original has a result has the same return codes and addresses on the
clone, and neither sequence changes anything of the other allocator. -/
theorem clone_answers {g : Grant} {copy : BuddyRecord} {m : Memory} (hslab : slab.Supplies)
    (hwf : WellFormed m copy) (harea : g.freeArea≠copy.freeArea) (hmaps : g.maps≠copy.maps) :
    ∃ b m',buddyAllocClone slab g copy m=some (b,m') ∧ Untouched m m' copy ∧
      ∀ (ops : List BuddyOp) (rets : List (ℕ×List ℕ)) (s : Memory),
        ops.mapM (call slab copy) m'=some (rets,s) →
          ∃ t,ops.mapM (call slab b) m'=some (rets,t) ∧ Untouched m' s b ∧ Untouched m' t copy := by
  obtain ⟨b,m',hrun,⟨hsize,hba,hbm⟩,htwins,huntouched⟩ :=
    buddyAllocClone_twins hslab hwf harea hmaps
  refine ⟨b,m',hrun,huntouched,fun ops rets s h => ?_⟩
  obtain ⟨t,ht,v,hs,ht'⟩ := Agree.mapM (fun op => agree_call hslab hsize op) ops m' m' htwins rets s h
  have hba' : b.freeArea≠copy.freeArea := hba▸harea
  have hbm' : b.maps≠copy.maps := hbm▸hmaps
  exact ⟨t,ht,Shows.untouched hs hba' hbm',Shows.untouched ht' (Ne.symm hba') (Ne.symm hbm')⟩

/-- A slab whose nodes hold words that name no node. -/
def garbageSlab : Slab := ⟨fun _ _ used => used.sum+1,fun _ _ => ⟨0xDEAD,0xBEEF⟩⟩

/-- An allocator of one block. -/
def oneBlock : BuddyRecord := ⟨0x400000,0x400000,1,1,1⟩

/-- Memory with one node, on the list of the highest order. -/
def oneBlockMemory : Memory where
  node _ := ⟨0,0x400000⟩
  area _ order := if order=10 then ⟨1,1⟩ else ⟨0,0⟩
  buffer _ _ := 0#32
  used := [1]
  calls := 0

/-- The clone of an allocator of one block, whose last pointer is garbage,
hands out a frame and takes it back like the original. -/
theorem clone_answers_oneBlock :
    (∃ b m',buddyAllocClone garbageSlab ⟨2,2,2⟩ oneBlock oneBlockMemory=some (b,m') ∧
      Untouched oneBlockMemory m' oneBlock ∧
      ∀ (ops : List BuddyOp) (rets : List (ℕ×List ℕ)) (s : Memory),
        ops.mapM (call garbageSlab oneBlock) m'=some (rets,s) →
          ∃ t,ops.mapM (call garbageSlab b) m'=some (rets,t) ∧ Untouched m' s b ∧
            Untouched m' t oneBlock) ∧
    ((buddyAllocClone garbageSlab ⟨2,2,2⟩ oneBlock >>= fun _ =>
      [BuddyOp.allocFrames 1 1,.freeFrames 0x400000 1].mapM (call garbageSlab oneBlock))
        oneBlockMemory).map Prod.fst=some [(0,[0x400000]),(0,[])] := by
  refine ⟨clone_answers (fun _ _ used => ⟨Nat.succ_ne_zero _,fun h => ?_⟩) ?_ (by decide)
    (by decide),by decide +kernel⟩
  · exact absurd (List.le_sum_of_mem h) (Nat.not_succ_le_self _)
  · have hnodes : ∀ order,listNodes oneBlockMemory oneBlock order=if order=10 then [1] else [] := by
      intro order
      by_cases ho : order=10 <;> simp [listNodes,oneBlockMemory,ho,nodesFrom]
    refine ⟨fun order _ => ?_,fun order _ => ?_,fun order _ => ?_,fun i _ j _ hne => ?_⟩
    · rw [hnodes]
      by_cases ho : order=10 <;> simp [oneBlockMemory,ho,Leads]
    · rw [hnodes]
      by_cases ho : order=10 <;> simp [oneBlockMemory,ho]
    · rw [hnodes]
      by_cases ho : order=10 <;> simp [ho]
    · rw [hnodes,hnodes]
      by_cases hi : i=10
      · simp [hi,show j≠10 from fun hj => hne (hi.trans hj.symm)]
      · simp [hi]

end XanaduOS.BuddyClone
