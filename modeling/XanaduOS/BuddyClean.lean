import XanaduOS.BuddyRuns

/-!
# Resetting the buddy allocator

A task that executes a new program resets its allocator. The bitmaps are
cleared at an offset that is counted in pointers where bytes are meant, from
the array of pointers and not from the buffer behind them, and over a number
of bytes that counts words. The nodes of a list are freed up to the last one,
and only the list of the highest order is built anew. So the reset gives a new
allocator exactly when every list is empty and the bits that are set happen to
lie where the bitmaps are cleared.
-/

namespace XanaduOS.BuddyClean

open Word32 BitWords KernelDefs BuddyFrameAlloc BuddyRuns Runs

/-- Where the heap has put the arrays of an allocator. -/
structure HeapLayout where
  /-- Array of the bitmap pointers. -/
  maps : ℕ
  /-- Buffer of the bitmaps. -/
  mapData : ℕ

/-- Bytes of the array of bitmap pointers. -/
abbrev MAP_BASE_OFF : ℕ := 4*MAX_ORDER

/-- The bytes cleared: the offset is added to a pointer to pointers, and the
size is a number of words. -/
def inWindow (l : HeapLayout) (memSize p : ℕ) : Bool :=
  decide (wsub p (wadd l.maps (4*MAP_BASE_OFF))<getBuddyMapSize memSize)

/-- Address of a bitmap word. -/
def wordAddr (l : HeapLayout) (memSize order w : ℕ) : ℕ :=
  wadd l.mapData (4*(mapOffset memSize order+w))

/-- One byte of a word at an address, after some addresses are cleared. -/
def clearedByte (clear : ℕ → Bool) (p : ℕ) (v : BitVec 32) (k : ℕ) : BitVec 8 :=
  if clear (wadd p k) then 0#8 else v.extractLsb' (8*k) 8

/-- The word at an address, after some addresses are cleared. -/
def clearedWord (clear : ℕ → Bool) (p : ℕ) (v : BitVec 32) : BitVec 32 :=
  clearedByte clear p v 3++(clearedByte clear p v 2++(clearedByte clear p v 1++
    clearedByte clear p v 0))

/-- The loop that frees a node when there is one behind it. The pointer behind
the last node ends it, unless it was never written. -/
def freeLoop (tail : ℕ) : ℕ → List ℕ → Option (List ℕ)
  | _,[] => if tail=0 then some [] else none
  | flToFree,fl::rest => (freeLoop tail fl rest).map (flToFree::·)

/-- Free the nodes of a list whose counter is positive. -/
def freeNodes (area : FreeArea) : Option (List ℕ) :=
  if area.numFree=0 then some []
  else match area.freeList with
    | [] => none
    | flToFree::rest => freeLoop area.tail flToFree rest

/-- Blocks of the highest order in a memory. -/
def freshBlocks (memStart memSize : ℕ) : List ℕ :=
  (List.range (memSize/MAX_BUDDY_SIZE)).map fun i => wadd memStart (wmul i MAX_BUDDY_SIZE)

/-- The list of the highest order, built anew when there is a block for it.
The node created last keeps the word its memory held behind the address. -/
def refill (buddy : BuddyAlloc) (stale : ℕ) : FreeArea :=
  let maxMapSize := buddy.memSize/MAX_BUDDY_SIZE
  if maxMapSize=0 then {buddy.freeArea (MAX_ORDER-1) with numFree := 0}
  else ⟨freshBlocks buddy.memStart buddy.memSize,stale,maxMapSize⟩

/-- The lists after a reset. Those below the highest order keep their nodes. -/
def resetArea (buddy : BuddyAlloc) (stale i : ℕ) : FreeArea :=
  if i<MAX_ORDER-1 then {buddy.freeArea i with numFree := 0}
  else if i=MAX_ORDER-1 then refill buddy stale
  else buddy.freeArea i

/-- The allocator after a reset, and the nodes freed by it. -/
structure CleanResult where
  /-- The allocator. -/
  buddy : BuddyAlloc
  /-- Nodes freed, each by its order and its block. -/
  freed : List (ℕ×ℕ)

/-- Reset an allocator. Following a null or unwritten pointer has no result. -/
def buddyAllocClean (l : HeapLayout) (stale : ℕ) (buddy : BuddyAlloc) : Option CleanResult := do
  let freed ← (List.range MAX_ORDER).mapM fun i =>
    (freeNodes (buddy.freeArea i)).map (·.map (Prod.mk i))
  return {
    buddy := {buddy with
      freeArea := resetArea buddy stale
      maps := fun order w => clearedWord (inWindow l buddy.memSize)
        (wordAddr l buddy.memSize order w) (buddy.maps order w)}
    freed := freed.flatten}

/-- The nodes of an allocator, each by its order and its block. -/
def nodes (buddy : BuddyAlloc) : List (ℕ×ℕ) :=
  (List.range MAX_ORDER).flatMap fun i => (buddy.freeArea i).freeList.map (Prod.mk i)

/-- A reset gives what creation gives, bit for bit and block for block, and
frees every node once. -/
def Resets (memStart memLimit : ℕ) (l : HeapLayout) (stale : ℕ) (buddy : BuddyAlloc) : Prop :=
  ∃ r fresh,buddyAllocClean l stale buddy=some r ∧
    buddyAllocCreate memStart memLimit stale=some fresh ∧
    r.buddy.memSize=fresh.memSize ∧ r.buddy.memStart=fresh.memStart ∧
    (∀ order<MAX_ORDER,r.buddy.maps order=fresh.maps order ∧
      (r.buddy.freeArea order).freeList=(fresh.freeArea order).freeList ∧
      (r.buddy.freeArea order).numFree=(fresh.freeArea order).numFree) ∧
    r.freed.Perm (nodes buddy)

/-- Every list is empty. -/
def Exhausted (buddy : BuddyAlloc) : Prop := ∀ order<MAX_ORDER,(buddy.freeArea order).freeList=[]

/-- Every bit that is set lies in a byte that a reset clears. -/
def BitsInWindow (l : HeapLayout) (buddy : BuddyAlloc) : Prop :=
  ∀ order<MAX_ORDER,∀ w,∀ b<32,(buddy.maps order w).getLsbD b=true →
    inWindow l buddy.memSize (wadd (wordAddr l buddy.memSize order w) (b/8))=true

/-- One call. A request that fails leaves the allocator as it is by then. -/
def callStep (buddy : BuddyAlloc) : BuddyOp → Option BuddyAlloc
  | .allocFrames addrs nframes => (buddyAllocFrames buddy addrs nframes).map AllocResult.buddy
  | .freeFrames addr nframes => buddyFreeFrames buddy addr nframes

/-- Every counter is the length of its list. -/
def Counted (buddy : BuddyAlloc) : Prop :=
  ∀ order,(buddy.freeArea order).numFree=(buddy.freeArea order).freeList.length

/-- What calls leave alone: the limits, and that the counters are right. -/
structure Steady (buddy buddy' : BuddyAlloc) : Prop where
  /-- The size is kept. -/
  memSize : buddy'.memSize=buddy.memSize
  /-- The start is kept. -/
  memStart : buddy'.memStart=buddy.memStart
  /-- Counters that are right stay right. -/
  counted : Counted buddy → Counted buddy'

variable {buddy buddy' buddy'' : BuddyAlloc} {order addr : ℕ}

/-! ## Bits -/

/-- The bits of a word after some addresses are cleared. -/
theorem getLsbD_clearedWord (clear : ℕ → Bool) (p : ℕ) (v : BitVec 32) {b : ℕ} (hb : b<32) :
    (clearedWord clear p v).getLsbD b=(v.getLsbD b && !clear (wadd p (b/8))) := by
  have hbyte : ∀ k,k<4 → ∀ j<8,(clearedByte clear p v k).getLsbD j=
      (v.getLsbD (8*k+j) && !clear (wadd p k)) := by
    intro k hk j hj
    unfold clearedByte
    split <;> rename_i hc
    · simp [hc]
    · simp [hc,hj]
  simp only [clearedWord,BitVec.getLsbD_append]
  split_ifs with h24 h16 h8
  · rw [hbyte 0 (by norm_num) b h8,show b/8=0 by omega,Nat.mul_zero,Nat.zero_add]
  · rw [hbyte 1 (by norm_num) _ (by omega),show b/8=1 by omega,show 8*1+(b-8)=b by omega]
  · rw [hbyte 2 (by norm_num) _ (by omega),show b/8=2 by omega,show 8*2+(b-(8+8))=b by omega]
  · rw [hbyte 3 (by norm_num) _ (by omega),show b/8=3 by omega,
      show 8*3+(b-(8+(8+8)))=b by omega]

/-- A word is cleared when every bit set in it is. -/
theorem clearedWord_eq_zero (clear : ℕ → Bool) (p : ℕ) (v : BitVec 32) :
    clearedWord clear p v=0#32 ↔ ∀ b<32,v.getLsbD b=true → clear (wadd p (b/8))=true := by
  constructor
  · intro h b hb hv
    have hbit := getLsbD_clearedWord clear p v hb
    rw [h,hv] at hbit
    simpa using hbit
  · intro h
    refine BitVec.eq_of_getLsbD_eq fun b hb => ?_
    rw [getLsbD_clearedWord clear p v hb]
    cases hv : v.getLsbD b with
    | false => simp
    | true => simp [h b hb hv]

/-! ## Calls -/

/-- Doing nothing leaves everything alone. -/
theorem Steady.refl (buddy : BuddyAlloc) : Steady buddy buddy := ⟨rfl,rfl,id⟩

/-- Calls after each other leave alone what each of them does. -/
theorem Steady.trans (h : Steady buddy buddy') (h' : Steady buddy' buddy'') :
    Steady buddy buddy'' :=
  ⟨h'.memSize.trans h.memSize,h'.memStart.trans h.memStart,fun hc => h'.counted (h.counted hc)⟩

/-- Bitmaps do not matter. -/
theorem steady_setMap (buddy : BuddyAlloc) (order : ℕ) (map : ℕ → BitVec 32) :
    Steady buddy (buddy.setMap order map) := ⟨rfl,rfl,id⟩

/-- A list that is replaced keeps its counter right. -/
theorem steady_setArea {area : FreeArea}
    (h : (buddy.freeArea order).numFree=(buddy.freeArea order).freeList.length →
      area.numFree=area.freeList.length) : Steady buddy (buddy.setArea order area) := by
  refine ⟨rfl,rfl,fun hc k => ?_⟩
  simp only [BuddyAlloc.setArea,Function.update_apply]
  split
  · exact h (hc order)
  · exact hc k

/-- Listing a block counts it. -/
theorem steady_insertBuddy (buddy : BuddyAlloc) (order addr : ℕ) :
    Steady buddy (insertBuddy buddy order addr) :=
  steady_setArea fun h => congrArg (·+1) h

/-- Taking a block from within a list counts it. -/
theorem steady_removeFreeFrame (h : removeFreeFrame buddy order addr=some buddy') :
    Steady buddy buddy' := by
  simp only [removeFreeFrame] at h
  split at h
  · exact Option.some.inj h▸Steady.refl _
  · split at h
    · rename_i hany
      obtain ⟨e,he,hcov⟩ := List.any_eq_true.mp hany
      rw [←Option.some.inj h]
      refine steady_setArea fun hc => ?_
      simp only [List.length_eraseP_of_mem he hcov,hc]
    · simp at h

/-- Taking the first block of a list counts it. -/
theorem steady_removeFreeHead (h : removeFreeHead buddy order=some buddy') :
    Steady buddy buddy' := by
  simp only [removeFreeHead] at h
  split at h
  · exact Option.some.inj h▸Steady.refl _
  · rename_i hne
    split at h
    · rename_i _ rest hlist
      rw [←Option.some.inj h]
      refine steady_setArea fun hc => ?_
      simp only [hc,hlist,List.length_cons,Nat.add_sub_cancel]
    · rename_i hlist
      split at h
      · rw [←Option.some.inj h]
        exact steady_setArea fun hc => absurd (hc.trans (by rw [hlist]; rfl)) hne
      · simp at h

/-- Splitting a block lists its halves. -/
theorem steady_buddySlice {target level res : ℕ}
    (h : buddySlice addr target level buddy=some (buddy',res)) : Steady buddy buddy' := by
  induction level generalizing buddy with
  | zero => simp [buddySlice] at h
  | succ start ih =>
    have hsplit := (steady_setMap buddy (start+1) _).trans (steady_insertBuddy
      (setFrameUsed buddy (start+1) addr) start (wadd addr (blockSize (start+1)/2)))
    simp only [buddySlice] at h
    split at h
    · exact hsplit.trans (ih h)
    · obtain rfl := (Prod.mk.inj (Option.some.inj h)).1
      exact hsplit.trans (steady_setMap _ _ _)

/-- Searching the higher orders. -/
theorem steady_searchUp {left i : ℕ} {r : AllocResult} (h : searchUp order left i buddy=some r) :
    Steady buddy r.buddy := by
  induction left generalizing i buddy with
  | zero => exact Option.some.inj h▸Steady.refl _
  | succ left ih =>
    simp only [searchUp] at h
    split at h
    · exact ih h
    · rename_i hne
      split at h
      · rename_i hlist
        split at h
        · refine (steady_setArea fun hc => ?_).trans (ih h)
          exact absurd (hc.trans (by rw [hlist]; rfl)) hne
        · simp at h
      · obtain ⟨taken,htake,h⟩ := Option.bind_eq_some_iff.mp h
        obtain ⟨⟨sliced,res⟩,hslice,h⟩ := Option.bind_eq_some_iff.mp h
        rw [←Option.some.inj h]
        exact (steady_removeFreeHead htake).trans (steady_buddySlice hslice)

/-- Requesting a block. -/
theorem steady_buddyAllocFramesMaxOrder {nframes : ℕ} {r : AllocResult}
    (h : buddyAllocFramesMaxOrder buddy nframes=some r) : Steady buddy r.buddy := by
  simp only [buddyAllocFramesMaxOrder] at h
  split at h
  · exact steady_searchUp h
  · split at h
    · simp at h
    · obtain ⟨taken,htake,h⟩ := Option.bind_eq_some_iff.mp h
      rw [←Option.some.inj h]
      exact (steady_removeFreeHead htake).trans (steady_setMap _ _ _)

/-- Requesting block after block. -/
theorem steady_allocRounds {nframes left i : ℕ} {acc : List ℕ} {r : AllocResult}
    (h : allocRounds nframes left i buddy acc=some r) : Steady buddy r.buddy := by
  induction left generalizing i buddy acc with
  | zero => exact Option.some.inj h▸Steady.refl _
  | succ left ih =>
    simp only [allocRounds] at h
    obtain ⟨served,hserved,h⟩ := Option.bind_eq_some_iff.mp h
    have hsteady := steady_buddyAllocFramesMaxOrder hserved
    split at h
    · rw [←Option.some.inj h]
      exact hsteady
    · exact hsteady.trans (ih h)

/-- Releasing a block and coalescing it. -/
theorem steady_coalesceLoop {fuel : ℕ} (h : coalesceLoop fuel order addr buddy=some buddy') :
    Steady buddy buddy' := by
  induction fuel generalizing order buddy with
  | zero => simp [coalesceLoop] at h
  | succ fuel ih =>
    have hunused := steady_setMap buddy order (clearBit (buddy.maps order)
      (addrToMapId order addr).frameMap (addrToMapId order addr).frame)
    simp only [coalesceLoop] at h
    split at h
    · obtain ⟨taken,htake,h⟩ := Option.bind_eq_some_iff.mp h
      exact hunused.trans ((steady_removeFreeFrame htake).trans (ih h))
    · rw [←Option.some.inj h]
      exact hunused.trans (steady_insertBuddy _ _ _)

/-- Releasing a block from the first order whose bit is set. -/
theorem steady_freeFramesLoop {left : ℕ} (h : freeFramesLoop addr buddy left order=some buddy') :
    Steady buddy buddy' := by
  induction left generalizing order with
  | zero => simp [freeFramesLoop] at h
  | succ left ih =>
    simp only [freeFramesLoop] at h
    split at h
    · exact ih h
    · exact steady_coalesceLoop h

/-- One call leaves the limits and right counters alone. -/
theorem steady_callStep {op : BuddyOp} (h : callStep buddy op=some buddy') :
    Steady buddy buddy' := by
  cases op with
  | allocFrames addrs nframes =>
    obtain ⟨r,hr,rfl⟩ := Option.map_eq_some_iff.mp h
    simp only [buddyAllocFrames] at hr
    split at hr
    · exact Option.some.inj hr▸Steady.refl _
    · exact steady_allocRounds hr
  | freeFrames addr nframes => exact steady_freeFramesLoop h

/-- A new allocator counts its blocks. -/
theorem counted_create {memStart memLimit stale : ℕ}
    (h : buddyAllocCreate memStart memLimit stale=some buddy) : Counted buddy := by
  simp only [buddyAllocCreate] at h
  split at h
  · simp at h
  · rw [←Option.some.inj h]
    intro order
    simp only [Function.update_apply]
    split
    · simp
    · rfl

/-! ## The reset -/

/-- The loop frees as many nodes as stand behind the first one. -/
theorem freeLoop_length {tail flToFree : ℕ} {rest freed : List ℕ}
    (h : freeLoop tail flToFree rest=some freed) : freed.length=rest.length := by
  induction rest generalizing flToFree freed with
  | nil =>
    simp only [freeLoop] at h
    split at h
    · exact Option.some.inj h▸rfl
    · simp at h
  | cons fl rest ih =>
    obtain ⟨freed',hfreed,rfl⟩ := Option.map_eq_some_iff.mp h
    simp only [List.length_cons,ih hfreed]

/-- A list loses all its nodes but one. -/
theorem freeNodes_length {area : FreeArea} {freed : List ℕ}
    (hc : area.numFree=area.freeList.length) (h : freeNodes area=some freed) :
    freed.length=area.freeList.length-1 := by
  simp only [freeNodes] at h
  split at h
  · rename_i hz
    rw [←Option.some.inj h,←hc,hz]
    rfl
  · split at h
    · simp at h
    · rename_i flToFree rest hlist
      rw [freeLoop_length h,hlist]
      rfl

/-- An empty list has nothing to free. -/
theorem freeNodes_nil {area : FreeArea} (hc : area.numFree=area.freeList.length)
    (h : area.freeList=[]) : freeNodes area=some [] := by
  simp [freeNodes,hc,h]

/-- The nodes freed are fewer than the nodes, unless the lists are empty. -/
theorem freed_length (hc : Counted buddy) {orders : List ℕ} {freed : List (List (ℕ×ℕ))}
    (h : orders.mapM (fun i => (freeNodes (buddy.freeArea i)).map (·.map (Prod.mk i)))=some freed) :
    freed.flatten.length ≤
        (orders.flatMap fun i => (buddy.freeArea i).freeList.map (Prod.mk i)).length ∧
      (freed.flatten.length=
          (orders.flatMap fun i => (buddy.freeArea i).freeList.map (Prod.mk i)).length →
        ∀ i∈orders,(buddy.freeArea i).freeList=[]) := by
  induction orders generalizing freed with
  | nil =>
    obtain rfl : []=freed := Option.some.inj h
    exact ⟨le_rfl,fun _ i hi => by simp at hi⟩
  | cons i orders ih =>
    rw [List.mapM_cons] at h
    obtain ⟨first,hfirst,h⟩ := Option.bind_eq_some_iff.mp h
    obtain ⟨others,hothers,h⟩ := Option.bind_eq_some_iff.mp h
    obtain rfl : first::others=freed := Option.some.inj h
    obtain ⟨l,hl,rfl⟩ := Option.map_eq_some_iff.mp hfirst
    have hlength := freeNodes_length (hc i) hl
    obtain ⟨hle,hempty⟩ := ih hothers
    simp only [List.flatten_cons,List.flatMap_cons,List.length_append,List.length_map,hlength]
    refine ⟨by omega,fun heq k hk => ?_⟩
    rcases List.mem_cons.mp hk with rfl|hk
    · exact List.length_eq_zero_iff.mp (by omega)
    · exact hempty (by omega) k hk

/-- Empty lists have nothing to free. -/
theorem freed_nil (hc : Counted buddy) {orders : List ℕ}
    (h : ∀ i∈orders,(buddy.freeArea i).freeList=[]) :
    orders.mapM (fun i => (freeNodes (buddy.freeArea i)).map (·.map (Prod.mk i)))=
      some (orders.map fun _ => []) := by
  induction orders with
  | nil => rfl
  | cons i orders ih =>
    rw [List.mapM_cons,freeNodes_nil (hc i) (h i List.mem_cons_self),
      ih fun k hk => h k (List.mem_cons_of_mem i hk)]
    rfl

/-- Empty lists below the highest order stay empty. -/
theorem resetArea_lower (h : Exhausted buddy) (stale : ℕ) (ho : order<MAX_ORDER-1) :
    (resetArea buddy stale order).freeList=[] ∧ (resetArea buddy stale order).numFree=0 := by
  rw [resetArea,if_pos ho]
  exact ⟨h order (ho.trans (by norm_num)),rfl⟩

/-- An empty list of the highest order is built anew. -/
theorem resetArea_last (h : Exhausted buddy) (stale : ℕ) :
    (resetArea buddy stale (MAX_ORDER-1)).freeList=freshBlocks buddy.memStart buddy.memSize ∧
      (resetArea buddy stale (MAX_ORDER-1)).numFree=buddy.memSize/MAX_BUDDY_SIZE := by
  rw [resetArea,if_neg (lt_irrefl _),if_pos rfl]
  simp only [refill]
  split
  · rename_i hz
    refine ⟨?_,hz.symm⟩
    rw [freshBlocks,hz]
    exact h (MAX_ORDER-1) (by norm_num)
  · exact ⟨rfl,rfl⟩

/-- A reset of an allocator with right counters gives a new allocator exactly
when every list is empty and every bit set lies where the reset clears. -/
theorem resets_iff {memStart memLimit stale : ℕ} {l : HeapLayout} (hne : memLimit≠0)
    (hsize : buddy.memSize=wsub memLimit memStart) (hstart : buddy.memStart=memStart)
    (hc : Counted buddy) :
    Resets memStart memLimit l stale buddy ↔ Exhausted buddy ∧ BitsInWindow l buddy := by
  constructor
  · rintro ⟨r,fresh,hclean,hcreate,-,-,hsame,hperm⟩
    obtain ⟨freed,hfreed,h⟩ := Option.bind_eq_some_iff.mp hclean
    rw [←Option.some.inj h] at hsame hperm
    have hempty := (freed_length hc hfreed).2 hperm.length_eq
    refine ⟨fun order ho => hempty order (List.mem_range.mpr ho),fun order ho w => ?_⟩
    rw [buddyAllocCreate,if_neg hne] at hcreate
    have hmap := congrFun (hsame order ho).1 w
    rw [←Option.some.inj hcreate] at hmap
    exact (clearedWord_eq_zero _ _ _).mp hmap
  · rintro ⟨hempty,hbits⟩
    have hfreed := freed_nil hc fun i hi => hempty i (List.mem_range.mp hi)
    refine ⟨_,_,by rw [buddyAllocClean,hfreed]; rfl,by rw [buddyAllocCreate,if_neg hne],
      hsize,hstart,fun order ho => ⟨?_,?_⟩,?_⟩
    · funext w
      exact (clearedWord_eq_zero _ _ _).mpr (hbits order ho w)
    · change (resetArea buddy stale order).freeList=
          (Function.update (_ : ℕ → FreeArea) _ _ order).freeList ∧
        (resetArea buddy stale order).numFree=
          (Function.update (_ : ℕ → FreeArea) _ _ order).numFree
      rcases Nat.lt_or_ge order (MAX_ORDER-1) with hlt|hge
      · rw [Function.update_of_ne hlt.ne]
        exact resetArea_lower hempty stale hlt
      · obtain rfl : order=MAX_ORDER-1 := Nat.le_antisymm (Nat.le_of_lt_succ ho) hge
        rw [Function.update_self,(resetArea_last hempty stale).1,(resetArea_last hempty stale).2,
          hsize,hstart]
        exact ⟨rfl,rfl⟩
    · have hnodes : nodes buddy=[] := by
        refine List.flatMap_eq_nil_iff.mpr fun i hi => ?_
        rw [hempty i (List.mem_range.mp hi)]
        rfl
      rw [hnodes]
      simp

/-- After any run from a new allocator, a reset gives a new allocator exactly
when every list is empty and every bit set lies where the reset clears. -/
theorem run_resets_iff {memStart memLimit stale : ℕ}
    (hcreate : buddyAllocCreate memStart memLimit stale=some buddy) {ops : List BuddyOp}
    (hrun : Run (Steps callStep) buddy ops buddy') (l : HeapLayout) (stale' : ℕ) :
    Resets memStart memLimit l stale' buddy' ↔ Exhausted buddy' ∧ BitsInWindow l buddy' := by
  have hsteady : Steady buddy buddy' :=
    @Run.invariant _ _ _ (Steady buddy) (fun hi h => hi.trans (steady_callStep h)) _ _ _ hrun
      (Steady.refl buddy)
  have hcounted := hsteady.counted (counted_create hcreate)
  rw [buddyAllocCreate] at hcreate
  split at hcreate
  · simp at hcreate
  · rename_i hne
    have hsize := hsteady.memSize
    have hstart := hsteady.memStart
    rw [←Option.some.inj hcreate] at hsize hstart
    exact resets_iff hne hsize hstart hcounted

/-- A memory of one block, all of it handed out, with the buffer placed where
the reset clears. -/
theorem resets_exhausted : ∃ buddy buddy',buddyAllocCreate 0x400000 0x800000 0=some buddy ∧
    Run (Steps callStep) buddy [.allocFrames 1 1024] buddy' ∧
    Resets 0x400000 0x800000 ⟨0x1000,0x1078⟩ 0 buddy' := by
  obtain ⟨buddy,hcreate⟩ := Option.isSome_iff_exists.mp
    (show (buddyAllocCreate 0x400000 0x800000 0).isSome by decide)
  have hstep : callStep buddy (.allocFrames 1 1024)=
      some (setFrameUsed (buddy.setArea 10 ⟨[],0,0⟩) 10 0x400000) := by
    rw [←Option.some.inj hcreate]
    rfl
  have hrun : Run (Steps callStep) buddy [.allocFrames 1 1024] _ := Run.cons hstep (Run.nil _)
  refine ⟨_,_,hcreate,hrun,(run_resets_iff hcreate hrun _ _).mpr ?_⟩
  rw [←Option.some.inj hcreate]
  refine ⟨by unfold Exhausted; decide,fun order _ w b hb h => ?_⟩
  rw [←bitAt_mul_add _ hb,bitAt_setFrameUsed] at h
  obtain ⟨rfl,hbit⟩ : order=10 ∧ 32*w+b=0x400000/blockSize 10 := by
    rcases h with h|h
    · simp [BuddyAlloc.setArea,bitAt] at h
    · exact h
  norm_num [blockSize] at hbit
  obtain ⟨rfl,rfl⟩ : w=0 ∧ b=1 := by omega
  decide

/-- A new memory of one block: its node is not freed. -/
theorem new_not_resets : ∃ buddy,buddyAllocCreate 0x400000 0x800000 0=some buddy ∧
    Run (Steps callStep) buddy [] buddy ∧
    ∀ l stale,¬Resets 0x400000 0x800000 l stale buddy := by
  obtain ⟨buddy,hcreate⟩ := Option.isSome_iff_exists.mp
    (show (buddyAllocCreate 0x400000 0x800000 0).isSome by decide)
  refine ⟨buddy,hcreate,Run.nil _,fun l stale h => ?_⟩
  have hcounted := counted_create hcreate
  rw [←Option.some.inj hcreate] at h hcounted
  have hempty := ((resets_iff (by norm_num) rfl rfl hcounted).mp h).1 10 (by norm_num)
  exact absurd hempty (by decide)

end XanaduOS.BuddyClean
