import XanaduOS.BitWords
import XanaduOS.KernelDefs

/-!
# The buddy allocator

Eleven free lists, one for each block order, and a bitmap for each order. A
bit is set while its block is handed out or split. Lists are kept as the
addresses of their nodes; the pointer behind the last node is recorded, since
creation leaves it unwritten. An operation that would follow a null or
unwritten pointer has no result. Node memory is always obtained.
-/

namespace XanaduOS.BuddyFrameAlloc

open Word32 BitWords KernelDefs

/-- Number of block orders. -/
abbrev MAX_ORDER : ℕ := 11

/-- Bytes of a block of the highest order. -/
abbrev MAX_BUDDY_SIZE : ℕ := 0x400000

/-- Bits of one bitmap word. -/
abbrev MAP_SIZE : ℕ := 32

/-- Frames of a block of the highest order. -/
abbrev MAX_BUDDY_NFRAMES : ℕ := 1024

/-- One free list and its counter. -/
structure FreeArea where
  /-- Block addresses of the nodes, head first. -/
  freeList : List ℕ
  /-- Pointer stored behind the last node: zero, or a word never written. -/
  tail : ℕ
  /-- The separate node counter. -/
  numFree : ℕ
  deriving DecidableEq

/-- The allocator record. Bitmap words are addressed by order and word. -/
structure BuddyAlloc where
  /-- Bytes between the two limits given at creation. -/
  memSize : ℕ
  /-- Lower limit given at creation. -/
  memStart : ℕ
  /-- The free lists, by order. -/
  freeArea : ℕ → FreeArea
  /-- The bitmaps, by order. -/
  maps : ℕ → ℕ → BitVec 32

/-- A word and a bit of one order's bitmap. -/
structure FrameMapAddr where
  /-- Word index. -/
  frameMap : ℕ
  /-- Bit index. -/
  frame : ℕ
  deriving DecidableEq

/-- Bytes of a block, `PAGE_SIZE * (1 << order)`. -/
abbrev blockSize (order : ℕ) : ℕ := PAGE_SIZE*2^order

/-- Order serving a request; large requests get the highest one. -/
def getBuddyOrder (nframes : ℕ) : ℕ :=
  if MAX_BUDDY_NFRAMES<nframes then MAX_ORDER-1
  else ((List.range MAX_ORDER).find? fun order => nframes≤2^order).getD (MAX_ORDER-1)

/-- Test one bit of a bitmap word. -/
def isFrameFree (bitmap : BitVec 32) (frame : ℕ) : Bool := decide (bitmap &&& (1#32<<<frame)=0#32)

/-- Replace one free area. -/
def BuddyAlloc.setArea (buddy : BuddyAlloc) (order : ℕ) (area : FreeArea) : BuddyAlloc :=
  {buddy with freeArea := Function.update buddy.freeArea order area}

/-- Push a block on a free list. The list is never null, and the entry, an object of
a cache that is not null, is not either; so the two error codes are never given. -/
def insertBuddy (buddy : BuddyAlloc) (order addr : ℕ) : BuddyAlloc :=
  let area := buddy.freeArea order
  buddy.setArea order {area with freeList := addr::area.freeList,numFree := area.numFree+1}

/-- The test of `remove_free_frame`: the entry's block covers the address. -/
def covers (order addr entry : ℕ) : Bool :=
  decide (addr<wadd entry (blockSize order) ∧ entry≤addr)

/-- Unlink the first entry covering an address. Reaching the end of the list
follows its last pointer. -/
def removeFreeFrame (buddy : BuddyAlloc) (order addr : ℕ) : Option BuddyAlloc :=
  let area := buddy.freeArea order
  if area.numFree=0 then some buddy
  else if area.freeList.any (covers order addr) then
    some (buddy.setArea order
      {area with freeList := area.freeList.eraseP (covers order addr),numFree := area.numFree-1})
  else none

/-- Unlink the first entry. On an empty list only the counter moves, provided
its pointer is null. -/
def removeFreeHead (buddy : BuddyAlloc) (order : ℕ) : Option BuddyAlloc :=
  let area := buddy.freeArea order
  if area.numFree=0 then some buddy
  else match area.freeList with
    | _::rest => some (buddy.setArea order {area with freeList := rest,numFree := area.numFree-1})
    | [] => if area.tail=0 then some (buddy.setArea order {area with numFree := area.numFree-1})
      else none

/-- Word and bit of an address at an order. -/
def addrToMapId (order addr : ℕ) : FrameMapAddr :=
  let frameMap := addr/(PAGE_SIZE*MAP_SIZE*2^order)
  ⟨frameMap,(addr-frameMap*(PAGE_SIZE*MAP_SIZE*2^order))/(2^order*PAGE_SIZE)⟩

/-- Address of a word and bit at an order, in 32-bit arithmetic. -/
def mapToAddr (order : ℕ) (map : FrameMapAddr) : ℕ :=
  wadd (wmul (wmul (wmul map.frameMap MAP_SIZE) PAGE_SIZE) (2^order))
    (wmul (wmul map.frame PAGE_SIZE) (2^order))

/-- Replace one order's bitmap. -/
def BuddyAlloc.setMap (buddy : BuddyAlloc) (order : ℕ) (map : ℕ → BitVec 32) : BuddyAlloc :=
  {buddy with maps := Function.update buddy.maps order map}

/-- Clear the bit of an address. -/
def setFrameUnused (buddy : BuddyAlloc) (order addr : ℕ) : BuddyAlloc :=
  let map := addrToMapId order addr
  buddy.setMap order (clearBit (buddy.maps order) map.frameMap map.frame)

/-- Set the bit of an address. -/
def setFrameUsed (buddy : BuddyAlloc) (order addr : ℕ) : BuddyAlloc :=
  let map := addrToMapId order addr
  buddy.setMap order (setBit (buddy.maps order) map.frameMap map.frame)

/-- Split a block down to a target order: each level lists its upper half and
goes on with its lower half. Order zero has no level below it. Listing a half does
not fail, so the error code that would pass its failure on is never given. -/
def buddySlice (addr target : ℕ) : ℕ → BuddyAlloc → Option (BuddyAlloc×ℕ)
  | 0,_ => none
  | start+1,buddy =>
    let split := insertBuddy (setFrameUsed buddy (start+1) addr) start
      (wadd addr (blockSize (start+1)/2))
    if target<start then buddySlice addr target start split
    else some (setFrameUsed split target addr,addr)

/-- Return code, allocator and the addresses written, in order. -/
structure AllocResult where
  /-- Zero on success. -/
  ret : ℕ
  /-- The allocator afterwards. -/
  buddy : BuddyAlloc
  /-- Address written for each block obtained. -/
  addrs : List ℕ

/-- The search above the requested order, with the number of orders left. A
counter without a list is reset on the way. -/
def searchUp (order : ℕ) : ℕ → ℕ → BuddyAlloc → Option AllocResult
  | 0,_,buddy => some ⟨ENOMEM,buddy,[]⟩
  | left+1,i,buddy =>
    let area := buddy.freeArea i
    if area.numFree=0 then searchUp order left (i+1) buddy
    else match area.freeList with
      | [] => if area.tail=0 then
          searchUp order left (i+1) (buddy.setArea i {area with numFree := 0})
        else none
      | upper::_ => do
        let buddy ← removeFreeHead buddy i
        let (buddy,addr) ← buddySlice upper order i buddy
        return ⟨0,buddy,[addr]⟩

/-- Allocate one block for at most 1024 frames. -/
def buddyAllocFramesMaxOrder (buddy : BuddyAlloc) (nframes : ℕ) : Option AllocResult :=
  let order := getBuddyOrder nframes
  let area := buddy.freeArea order
  if area.numFree=0 then searchUp order (MAX_ORDER-(order+1)) (order+1) buddy
  else match area.freeList with
    | [] => none
    | free::_ => do
      let buddy ← removeFreeHead buddy order
      return ⟨0,setFrameUsed buddy order free,[free]⟩

/-- The loop of blocks for one request, with the number of rounds left. -/
def allocRounds (nframes : ℕ) : ℕ → ℕ → BuddyAlloc → List ℕ → Option AllocResult
  | 0,_,buddy,addrs => some ⟨0,buddy,addrs⟩
  | left+1,i,buddy,addrs => do
    let r ← buddyAllocFramesMaxOrder buddy (min (nframes-i*MAX_BUDDY_NFRAMES) MAX_BUDDY_NFRAMES)
    if r.ret≠0 then return ⟨r.ret,r.buddy,addrs++r.addrs⟩
    allocRounds nframes left (i+1) r.buddy (addrs++r.addrs)

/-- Allocate a request of any size through a pointer. -/
def buddyAllocFrames (buddy : BuddyAlloc) (addrs nframes : ℕ) : Option AllocResult :=
  if addrs=0 then some ⟨EINVAL,buddy,[]⟩
  else
    let repLimit := nframes/MAX_BUDDY_NFRAMES+(if nframes%MAX_BUDDY_NFRAMES=0 then 0 else 1)
    allocRounds nframes repLimit 0 buddy []

/-- Index of the neighbour that a bit coalesces with. -/
def buddyFrame (frame : ℕ) : ℕ := if frame%2=0 then frame+1 else frame-1

/-- Whether the neighbour of an address is marked free at an order. -/
def neighbourFree (buddy : BuddyAlloc) (order addr : ℕ) : Bool :=
  let map := addrToMapId order addr
  isFrameFree (buddy.maps order map.frameMap) (buddyFrame map.frame)

/-- Merge upwards while the neighbour is free, then list the address passed
down, whichever half it lies in. The fuel counts orders. -/
def coalesceLoop : ℕ → ℕ → ℕ → BuddyAlloc → Option BuddyAlloc
  | 0,_,_,_ => none
  | fuel+1,order,addr,buddy =>
    let map := addrToMapId order addr
    let cleared := setFrameUnused buddy order addr
    if order<MAX_ORDER-1 ∧ neighbourFree cleared order addr then do
      let buddy ← removeFreeFrame cleared order (mapToAddr order ⟨map.frameMap,buddyFrame map.frame⟩)
      coalesceLoop fuel (order+1) addr buddy
    else some (insertBuddy cleared order addr)

/-- Release a block known to be marked at an order. -/
def buddyCoalesce (buddy : BuddyAlloc) (order addr : ℕ) : Option BuddyAlloc :=
  coalesceLoop MAX_ORDER order addr buddy

/-- Climb to the first order whose bit is set; past the last order there is
no bitmap to read. -/
def freeFramesLoop (addr : ℕ) (buddy : BuddyAlloc) : ℕ → ℕ → Option BuddyAlloc
  | 0,_ => none
  | left+1,order =>
    let map := addrToMapId order addr
    if isFrameFree (buddy.maps order map.frameMap) map.frame then
      freeFramesLoop addr buddy left (order+1)
    else buddyCoalesce buddy order addr

/-- Release a block by its address and the size of its request. -/
def buddyFreeFrames (buddy : BuddyAlloc) (addr nframes : ℕ) : Option BuddyAlloc :=
  let order := getBuddyOrder nframes
  freeFramesLoop addr buddy (MAX_ORDER-order) order

/-- Words of all bitmaps for a memory size. -/
def getBuddyMapSize (memSize : ℕ) : ℕ :=
  ((List.range MAX_ORDER).map fun i =>
    memSize/(PAGE_SIZE*MAP_SIZE*2^i)+(if memSize%(PAGE_SIZE*MAP_SIZE*2^i)=0 then 0 else 1)).sum

/-- Word offset of an order's bitmap in the shared buffer: each order adds
its words divided once more by the size of a pointer. -/
def mapOffset (memSize order : ℕ) : ℕ :=
  ((List.range order).map fun i => memSize/(PAGE_SIZE*MAP_SIZE*2^i*4)).sum

/-- A new allocator over the whole blocks between two limits. The list node
created last keeps the word its memory held behind the address. -/
def buddyAllocCreate (memStart memLimit stale : ℕ) : Option BuddyAlloc :=
  if memLimit=0 then none
  else
    let memSize := wsub memLimit memStart
    let blocks := memSize/MAX_BUDDY_SIZE
    some {
      memSize := memSize
      memStart := memStart
      freeArea := Function.update (fun _ => ⟨[],0,0⟩) (MAX_ORDER-1)
        ⟨(List.range blocks).map fun i => wadd memStart (wmul i MAX_BUDDY_SIZE),
          if blocks=0 then 0 else stale,blocks⟩
      maps := fun _ _ => 0#32}

/-! ## Block numbers -/

/-- Blocks have a positive size. -/
theorem blockSize_pos (order : ℕ) : 0<blockSize order :=
  Nat.mul_pos (by norm_num) (Nat.two_pow_pos order)

/-- Word and bit of an address are its block number in flat form. -/
theorem addrToMapId_flat (order addr : ℕ) :
    32*(addrToMapId order addr).frameMap+(addrToMapId order addr).frame=addr/blockSize order ∧
      (addrToMapId order addr).frame<32 := by
  have hpos := blockSize_pos order
  have hword : PAGE_SIZE*MAP_SIZE*2^order=blockSize order*32 := by
    simp only [blockSize,MAP_SIZE]
    ring
  have hsize : 2^order*PAGE_SIZE=blockSize order := Nat.mul_comm _ _
  have hrem : addr-addr/(blockSize order*32)*(blockSize order*32)=addr%(blockSize order*32) := by
    rw [Nat.mul_comm (addr/_) _]
    exact (Nat.sub_eq_of_eq_add (Nat.mod_add_div addr _).symm)
  have hbit : addr%(blockSize order*32)/blockSize order=addr/blockSize order%32 :=
    Nat.mod_mul_right_div_self addr (blockSize order) 32
  have hquot : addr/(blockSize order*32)=addr/blockSize order/32 :=
    (Nat.div_div_eq_div_mul addr (blockSize order) 32).symm
  simp only [addrToMapId,hword,hsize,hrem,hbit]
  rw [hquot]
  exact ⟨Nat.div_add_mod _ _,Nat.mod_lt _ (by norm_num)⟩

/-- Word and bit lead back to the block number, as a machine word. -/
theorem mapToAddr_flat (order : ℕ) (map : FrameMapAddr) :
    mapToAddr order map=((32*map.frameMap+map.frame)*blockSize order)%2^32 := by
  simp only [mapToAddr,wadd,wmul,Nat.mod_mul_mod,Nat.mod_add_mod,Nat.add_mod_mod,
    MAP_SIZE,blockSize,PAGE_SIZE]
  congr 1
  ring

/-- The neighbour's bit stays within the word. -/
theorem buddyFrame_lt {frame : ℕ} (h : frame<32) : buddyFrame frame<32 := by
  unfold buddyFrame
  split <;> omega

/-- A bit is free when it is clear. -/
theorem isFrameFree_iff {bitmap : BitVec 32} {frame : ℕ} (h : frame<32) :
    isFrameFree bitmap frame=true ↔ bitmap.getLsbD frame=false := by
  rw [isFrameFree,decide_eq_true_iff,and_mask_eq_zero_iff _ h]

/-- Marking a block sets its bit and no other. -/
theorem bitAt_setFrameUsed (buddy : BuddyAlloc) (order addr k j : ℕ) :
    bitAt ((setFrameUsed buddy order addr).maps k) j=true ↔
      bitAt (buddy.maps k) j=true ∨ (k=order ∧ j=addr/blockSize order) := by
  obtain ⟨hflat,hlt⟩ := addrToMapId_flat order addr
  by_cases hk : k=order
  · subst hk
    simp only [setFrameUsed,BuddyAlloc.setMap,Function.update_self]
    rw [bitAt_setBit _ hlt,hflat]
    simp
  · simp [setFrameUsed,BuddyAlloc.setMap,hk]

/-- Unmarking a block clears its bit and no other. -/
theorem bitAt_setFrameUnused (buddy : BuddyAlloc) (order addr k j : ℕ) :
    bitAt ((setFrameUnused buddy order addr).maps k) j=true ↔
      bitAt (buddy.maps k) j=true ∧ ¬(k=order ∧ j=addr/blockSize order) := by
  obtain ⟨hflat,hlt⟩ := addrToMapId_flat order addr
  by_cases hk : k=order
  · subst hk
    simp only [setFrameUnused,BuddyAlloc.setMap,Function.update_self]
    rw [bitAt_clearBit _ hlt,hflat]
    simp
  · simp [setFrameUnused,BuddyAlloc.setMap,hk]

end XanaduOS.BuddyFrameAlloc
