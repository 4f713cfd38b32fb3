import XanaduOS.Agreements
import XanaduOS.BuddyFrameAlloc
import XanaduOS.BuddyRuns
import XanaduOS.PointerLists

/-!
# The buddy allocator in memory

The lists as nodes joined by pointers, the eleven bitmaps as words of one
buffer, and the nodes of all allocators from the same heap. A node that the
slab hands out holds arbitrary words. Following a null pointer, reading a
bitmap word outside the buffer and a walk of more steps than there are nodes
have no result. Seen through its pointers, an allocator is eleven lists of
addresses and the words of its buffer: that view decides what every operation
returns, and an operation writes nothing outside its own lists and words.
-/

namespace XanaduOS.BuddyMemory

open Word32 KernelDefs BuddyFrameAlloc BuddyRuns PointerLists Agreements

/-- `struct free_list`. -/
structure FreeList where
  /-- Next node. -/
  next : ℕ
  /-- Address of the block. -/
  addr : ℕ
  deriving DecidableEq

/-- `struct free_area`: the head of a list and its counter. -/
structure FreeHead where
  /-- First node. -/
  head : ℕ
  /-- Counter. -/
  numFree : ℕ
  deriving DecidableEq

/-- The memory that allocators use, by kind. -/
structure Memory where
  /-- List nodes, by address. -/
  node : ℕ → FreeList
  /-- Arrays of free areas, by address and order. -/
  area : ℕ → ℕ → FreeHead
  /-- Bitmap buffers, by address and word. -/
  buffer : ℕ → ℕ → BitVec 32
  /-- Nodes that the slabs have handed out. -/
  used : List ℕ
  /-- Requests to the slabs so far. -/
  calls : ℕ

/-- `struct buddy_alloc`. -/
structure BuddyRecord where
  /-- Bytes of the memory. -/
  memSize : ℕ
  /-- Start of the memory. -/
  memStart : ℕ
  /-- Cache of the list nodes. -/
  flSlab : ℕ
  /-- Array of free areas. -/
  freeArea : ℕ
  /-- Buffer of the bitmaps; the map of an order starts at its offset. -/
  maps : ℕ
  deriving DecidableEq

/-- What slabs do: the node handed out by a cache, and the words it holds. -/
structure Slab where
  /-- The node, for a cache, the number of requests so far and the nodes out. -/
  alloc : ℕ → ℕ → List ℕ → ℕ
  /-- The words left in it. -/
  stale : ℕ → ℕ → FreeList

/-- Slabs that never run out hand out nodes that are not in use. -/
def Slab.Supplies (slab : Slab) : Prop :=
  ∀ cache calls used,slab.alloc cache calls used≠0 ∧ slab.alloc cache calls used∉used

/-- Programs on the memory. -/
abbrev MemM (α : Type) : Type := StateT Memory Option α

/-! ## Primitive steps -/

/-- Take a node from a cache. -/
def slabAllocFromCache (slab : Slab) (cache : ℕ) : MemM ℕ := fun m =>
  let p := slab.alloc cache m.calls m.used
  if p=0 then some (0,{m with calls := m.calls+1})
  else some (p,{m with node := Function.update m.node p (slab.stale cache m.calls),
                       used := p::m.used,calls := m.calls+1})

/-- Give a node back. Its words stay. -/
def slabFree (p : ℕ) : MemM Unit := fun m => some ((),{m with used := m.used.erase p})

/-- Read through a node pointer. -/
def readNode (p : ℕ) : MemM FreeList := fun m => if p=0 then none else some (m.node p,m)

/-- Write through a node pointer. -/
def writeNode (p : ℕ) (n : FreeList) : MemM Unit := fun m =>
  if p=0 then none else some ((),{m with node := Function.update m.node p n})

/-- Read a free area. -/
def readArea (b : BuddyRecord) (order : ℕ) : MemM FreeHead := fun m =>
  some (m.area b.freeArea order,m)

/-- Write a free area. -/
def writeArea (b : BuddyRecord) (order : ℕ) (a : FreeHead) : MemM Unit := fun m =>
  some ((),{m with area := Function.update m.area b.freeArea
                    (Function.update (m.area b.freeArea) order a)})

/-- Bitmap word of an order and a word index in the shared buffer. -/
def mapIndex (b : BuddyRecord) (order frameMap : ℕ) : ℕ := mapOffset b.memSize order+frameMap

/-- Read a bitmap word. -/
def readMap (b : BuddyRecord) (order frameMap : ℕ) : MemM (BitVec 32) := fun m =>
  if mapIndex b order frameMap<getBuddyMapSize b.memSize then
    some (m.buffer b.maps (mapIndex b order frameMap),m)
  else none

/-- Write a bitmap word. -/
def writeMap (b : BuddyRecord) (order frameMap : ℕ) (w : BitVec 32) : MemM Unit := fun m =>
  if mapIndex b order frameMap<getBuddyMapSize b.memSize then
    some ((),{m with buffer := Function.update m.buffer b.maps
                      (Function.update (m.buffer b.maps) (mapIndex b order frameMap) w)})
  else none

/-! ## Operations -/

/-- Push a block on a free list. -/
def insertBuddy (slab : Slab) (b : BuddyRecord) (order addr : ℕ) : MemM ℕ := do
  let old ← readArea b order
  let p ← slabAllocFromCache slab b.flSlab
  writeArea b order {old with head := p}
  if p=0 then return ENOMEM
  writeNode p ⟨old.head,addr⟩
  writeArea b order ⟨p,old.numFree+1⟩
  return 0

/-- The walk for the first entry that covers an address, with the node before
it. The end of the list is followed. -/
def findLoop (order addr : ℕ) (m : Memory) : ℕ → Option ℕ → ℕ → Option (Option ℕ×ℕ)
  | 0,_,_ => none
  | fuel+1,prev,fl =>
    if fl=0 then none
    else if covers order addr (m.node fl).addr then some (prev,fl)
    else findLoop order addr m fuel (some fl) (m.node fl).next

/-- The walk over one free list. -/
def findFrame (b : BuddyRecord) (order addr : ℕ) : MemM (Option ℕ×ℕ) := fun m =>
  (findLoop order addr m (m.used.length+1) none (m.area b.freeArea order).head).map (·,m)

/-- Unlink the first entry that covers an address. -/
def removeFreeFrame (b : BuddyRecord) (order addr : ℕ) : MemM Unit := do
  let area ← readArea b order
  if area.numFree=0 then return ()
  let (prev,fl) ← findFrame b order addr
  let newNext := (← readNode fl).next
  slabFree fl
  if let some p := prev then
    let before ← readNode p
    writeNode p {before with next := newNext}
    writeArea b order {area with numFree := area.numFree-1}
  else
    writeArea b order ⟨newNext,area.numFree-1⟩

/-- Unlink the first entry. -/
def removeFreeHead (b : BuddyRecord) (order : ℕ) : MemM Unit := do
  let area ← readArea b order
  if area.numFree=0 then return ()
  let newNext ← if area.head≠0 then (·.next) <$> readNode area.head else pure 0
  slabFree area.head
  writeArea b order ⟨newNext,area.numFree-1⟩

/-- Unlink the first entry and read its block, which its node still holds. -/
def takeHead (b : BuddyRecord) (order : ℕ) : MemM ℕ := do
  let free := (← readArea b order).head
  removeFreeHead b order
  return (← readNode free).addr

/-- Clear the bit of an address. -/
def setFrameUnused (b : BuddyRecord) (order addr : ℕ) : MemM Unit := do
  let map := addrToMapId order addr
  let w ← readMap b order map.frameMap
  writeMap b order map.frameMap (w &&& ~~~(1#32<<<map.frame))

/-- Set the bit of an address. -/
def setFrameUsed (b : BuddyRecord) (order addr : ℕ) : MemM Unit := do
  let map := addrToMapId order addr
  let w ← readMap b order map.frameMap
  writeMap b order map.frameMap (w ||| (1#32<<<map.frame))

/-- Split a block down to a target order. -/
def buddySlice (slab : Slab) (b : BuddyRecord) (addr target : ℕ) : ℕ → MemM (ℕ×List ℕ)
  | 0 => failure
  | start+1 => do
    setFrameUsed b (start+1) addr
    let ret ← insertBuddy slab b start (wadd addr (blockSize (start+1)/2))
    if ret≠0 then return (1,[])
    if target<start then buddySlice slab b addr target start
    else
      setFrameUsed b target addr
      return (0,[addr])

/-- The search above the requested order, with the number of orders left. -/
def searchUp (slab : Slab) (b : BuddyRecord) (order : ℕ) : ℕ → ℕ → MemM (ℕ×List ℕ)
  | 0,_ => return (ENOMEM,[])
  | left+1,i => do
    let area ← readArea b i
    if area.numFree=0 then searchUp slab b order left (i+1)
    else if area.head=0 then
      writeArea b i {area with numFree := 0}
      searchUp slab b order left (i+1)
    else
      let upper ← takeHead b i
      buddySlice slab b upper order i

/-- Allocate one block for at most 1024 frames: return code and address. -/
def buddyAllocFramesMaxOrder (slab : Slab) (b : BuddyRecord) (nframes : ℕ) : MemM (ℕ×List ℕ) := do
  let order := getBuddyOrder nframes
  let area ← readArea b order
  if area.numFree≠0 then
    let free ← takeHead b order
    setFrameUsed b order free
    return (0,[free])
  searchUp slab b order (MAX_ORDER-(order+1)) (order+1)

/-- The loop of blocks for one request, with the number of rounds left. -/
def allocRounds (slab : Slab) (b : BuddyRecord) (nframes : ℕ) :
    ℕ → ℕ → List ℕ → MemM (ℕ×List ℕ)
  | 0,_,addrs => return (0,addrs)
  | left+1,i,addrs => do
    let r ← buddyAllocFramesMaxOrder slab b (min (nframes-i*MAX_BUDDY_NFRAMES) MAX_BUDDY_NFRAMES)
    if r.1≠0 then return (r.1,addrs++r.2)
    allocRounds slab b nframes left (i+1) (addrs++r.2)

/-- Allocate a request of any size through a pointer. -/
def buddyAllocFrames (slab : Slab) (b : BuddyRecord) (addrs nframes : ℕ) : MemM (ℕ×List ℕ) := do
  if addrs=0 then return (EINVAL,[])
  let repLimit := nframes/MAX_BUDDY_NFRAMES+(if nframes%MAX_BUDDY_NFRAMES=0 then 0 else 1)
  allocRounds slab b nframes repLimit 0 []

/-- Whether the neighbour of an address is marked free at an order. -/
def neighbourFree (b : BuddyRecord) (order addr : ℕ) : MemM Bool := do
  let map := addrToMapId order addr
  let w ← readMap b order map.frameMap
  return isFrameFree w (buddyFrame map.frame)

/-- Release a block known to be marked at an order. The fuel counts orders. -/
def buddyCoalesce (slab : Slab) (b : BuddyRecord) (addr : ℕ) : ℕ → ℕ → MemM Unit
  | 0,_ => failure
  | fuel+1,order => do
    let map := addrToMapId order addr
    setFrameUnused b order addr
    let merge ← if order<MAX_ORDER-1 then neighbourFree b order addr else pure false
    if merge then
      removeFreeFrame b order (mapToAddr order ⟨map.frameMap,buddyFrame map.frame⟩)
      buddyCoalesce slab b addr fuel (order+1)
    else
      let _ ← insertBuddy slab b order addr
      return ()

/-- Climb to the first order whose bit is set; past the last order there is
no bitmap to read. -/
def buddyFreeFramesRec (slab : Slab) (b : BuddyRecord) (addr : ℕ) : ℕ → ℕ → MemM Unit
  | 0,_ => failure
  | left+1,order => do
    let map := addrToMapId order addr
    let w ← readMap b order map.frameMap
    if isFrameFree w map.frame then buddyFreeFramesRec slab b addr left (order+1)
    else buddyCoalesce slab b addr MAX_ORDER order

/-- Release a block by its address and the size of its request. -/
def buddyFreeFrames (slab : Slab) (b : BuddyRecord) (addr nframes : ℕ) : MemM Unit :=
  buddyFreeFramesRec slab b addr (MAX_ORDER-getBuddyOrder nframes) (getBuddyOrder nframes)

/-- One call, with its return code and the addresses it writes. -/
def call (slab : Slab) (b : BuddyRecord) : BuddyOp → MemM (ℕ×List ℕ)
  | .allocFrames addrs nframes => buddyAllocFrames slab b addrs nframes
  | .freeFrames addr nframes => do
    buddyFreeFrames slab b addr nframes
    return (0,[])

/-! ## What an allocator shows -/

/-- An allocator without its pointers. -/
structure View where
  /-- Block addresses of each list. -/
  lists : ℕ → List ℕ
  /-- Words of the buffer. -/
  words : ℕ → BitVec 32

/-- A view with another list. -/
def View.setList (v : View) (order : ℕ) (l : List ℕ) : View :=
  {v with lists := Function.update v.lists order l}

/-- A view with another word. -/
def View.setWord (v : View) (i : ℕ) (w : BitVec 32) : View :=
  {v with words := Function.update v.words i w}

/-- An allocator in memory that shows a view, on nodes of its own. A closed
one ends its lists with null pointers. Whatever belongs to others is as it was
in the base memory: nodes of theirs, free areas and buffers. -/
structure Shown (closed : Prop) (base : Memory) (foreign : ℕ → Prop) (b : BuddyRecord)
    (m : Memory) (v : View) (ns : ℕ → List ℕ) : Prop where
  /-- Each head leads over the nodes of its list. -/
  leads : ∀ order<MAX_ORDER,∃ q,Leads (fun p => (m.node p).next)
    (m.area b.freeArea order).head (ns order) q ∧ (closed → q=0)
  /-- Counters count the nodes. -/
  count : ∀ order<MAX_ORDER,(m.area b.freeArea order).numFree=(ns order).length
  /-- Nodes are in use and no null pointers. -/
  used : ∀ order<MAX_ORDER,∀ p∈ns order,p∈m.used ∧ p≠0
  /-- No node is listed twice. -/
  nodup : ∀ order<MAX_ORDER,(ns order).Nodup
  /-- No node is in two lists. -/
  apart : ∀ i<MAX_ORDER,∀ j<MAX_ORDER,i≠j → ∀ p∈ns i,p∉ns j
  /-- Nodes do not belong to others. -/
  own : ∀ order<MAX_ORDER,∀ p∈ns order,¬foreign p
  /-- The nodes hold the blocks in view. -/
  addrs : ∀ order<MAX_ORDER,(ns order).map (fun p => (m.node p).addr)=v.lists order
  /-- The buffer holds the words in view. -/
  words : ∀ i<getBuddyMapSize b.memSize,m.buffer b.maps i=v.words i
  /-- Free areas of others are kept. -/
  area : ∀ a≠b.freeArea,m.area a=base.area a
  /-- Buffers of others are kept. -/
  buffer : ∀ a≠b.maps,m.buffer a=base.buffer a
  /-- Nodes of others are kept and stay in use. -/
  node : ∀ p,foreign p → p∈m.used ∧ m.node p=base.node p

/-- An allocator shows a view on some nodes. -/
def Shows (closed : Prop) (base : Memory) (foreign : ℕ → Prop) (b : BuddyRecord) (m : Memory)
    (v : View) : Prop := ∃ ns,Shown closed base foreign b m v ns

variable {closed : Prop} {base : Memory} {foreign : ℕ → Prop} {b : BuddyRecord} {m m' : Memory}
  {v : View} {ns : ℕ → List ℕ} {order addr : ℕ} {slab : Slab}

/-- Replacing one list leaves the others in view. -/
theorem Shown.relist (h : Shown closed base foreign b m v ns) (ho : order<MAX_ORDER)
    {a : FreeHead} {xs l : List ℕ}
    (harea : m'.area=Function.update m.area b.freeArea (Function.update (m.area b.freeArea) order a))
    (hbuffer : m'.buffer=m.buffer)
    (hrest : ∀ p∈m.used,p∉ns order → m'.node p=m.node p ∧ p∈m'.used)
    (hleads : ∃ q,Leads (fun p => (m'.node p).next) a.head xs q ∧ (closed → q=0))
    (hcount : a.numFree=xs.length) (hnodup : xs.Nodup)
    (hxs : ∀ p∈xs,(p∈m'.used ∧ p≠0) ∧ ¬foreign p ∧ ∀ j<MAX_ORDER,j≠order → p∉ns j)
    (haddr : xs.map (fun p => (m'.node p).addr)=l) :
    Shown closed base foreign b m' (v.setList order l) (Function.update ns order xs) := by
  have hother : ∀ j<MAX_ORDER,j≠order → ∀ p∈ns j,m'.node p=m.node p ∧ p∈m'.used :=
    fun j hj hne p hp => hrest p (h.used j hj p hp).1 (h.apart j hj order ho hne p hp)
  have hhead : ∀ j,m'.area b.freeArea j=if j=order then a else m.area b.freeArea j := by
    intro j
    rw [harea,Function.update_self,Function.update_apply]
  refine ⟨fun j hj => ?_,fun j hj => ?_,fun j hj => ?_,fun j hj => ?_,fun i hi j hj hne => ?_,
    fun j hj => ?_,fun j hj => ?_,fun i hi => ?_,fun c hc => ?_,fun c hc => ?_,fun p hp => ?_⟩
  · rw [hhead]
    by_cases hj' : j=order
    · subst hj'
      rw [if_pos rfl,Function.update_self]
      exact hleads
    · rw [if_neg hj',Function.update_of_ne hj']
      obtain ⟨q,hq,hclosed⟩ := h.leads j hj
      refine ⟨q,hq.congr fun p hp => ?_,hclosed⟩
      simp only [(hother j hj hj' p hp).1]
  · rw [hhead]
    by_cases hj' : j=order
    · subst hj'
      rw [if_pos rfl,Function.update_self]
      exact hcount
    · rw [if_neg hj',Function.update_of_ne hj']
      exact h.count j hj
  · by_cases hj' : j=order
    · subst hj'
      rw [Function.update_self]
      exact fun p hp => (hxs p hp).1
    · rw [Function.update_of_ne hj']
      exact fun p hp => ⟨(hother j hj hj' p hp).2,(h.used j hj p hp).2⟩
  · by_cases hj' : j=order
    · subst hj'
      rw [Function.update_self]
      exact hnodup
    · rw [Function.update_of_ne hj']
      exact h.nodup j hj
  · by_cases hi' : i=order
    · subst hi'
      rw [Function.update_self,Function.update_of_ne (Ne.symm hne)]
      exact fun p hp => (hxs p hp).2.2 j hj (Ne.symm hne)
    · rw [Function.update_of_ne hi']
      by_cases hj' : j=order
      · subst hj'
        rw [Function.update_self]
        exact fun p hp hpx => (hxs p hpx).2.2 i hi hne hp
      · rw [Function.update_of_ne hj']
        exact h.apart i hi j hj hne
  · by_cases hj' : j=order
    · subst hj'
      rw [Function.update_self]
      exact fun p hp => (hxs p hp).2.1
    · rw [Function.update_of_ne hj']
      exact h.own j hj
  · by_cases hj' : j=order
    · subst hj'
      simp only [View.setList,Function.update_self]
      exact haddr
    · simp only [View.setList,Function.update_of_ne hj']
      rw [←h.addrs j hj]
      exact List.map_congr_left fun p hp => by rw [(hother j hj hj' p hp).1]
  · rw [hbuffer]
    exact h.words i hi
  · rw [harea,Function.update_of_ne hc]
    exact h.area c hc
  · rw [hbuffer]
    exact h.buffer c hc
  · have hne : p∉ns order := fun hp' => h.own order ho p hp' hp
    obtain ⟨hnode,hused⟩ := hrest p (h.node p hp).1 hne
    exact ⟨hused,hnode.trans (h.node p hp).2⟩

/-! ## What the primitive steps do to the view -/

/-- A head with nodes behind it is the first of them, and the list starts with
its block. -/
theorem Shown.head (h : Shown closed base foreign b m v ns) (ho : order<MAX_ORDER) {a : ℕ}
    {rest : List ℕ} (hl : v.lists order=a::rest) :
    ∃ x xs,ns order=x::xs ∧ (m.area b.freeArea order).head=x ∧ x≠0 ∧ (m.node x).addr=a ∧
      xs.map (fun p => (m.node p).addr)=rest := by
  have haddrs := h.addrs order ho
  obtain ⟨q,hleads,-⟩ := h.leads order ho
  cases hns : ns order with
  | nil => simp [hns,hl] at haddrs
  | cons x xs =>
    rw [hns,hl,List.map_cons,List.cons.injEq] at haddrs
    rw [hns] at hleads
    exact ⟨x,xs,rfl,hleads.1,(h.used order ho x (hns▸List.mem_cons_self)).2,haddrs⟩

/-- Counters count the blocks in view. -/
theorem Shown.numFree (h : Shown closed base foreign b m v ns) (ho : order<MAX_ORDER) :
    (m.area b.freeArea order).numFree=(v.lists order).length := by
  rw [h.count order ho,←h.addrs order ho,List.length_map]

/-- Returning a value leaves the memory. -/
theorem pure_apply {σ α : Type} (a : α) (m : σ) :
    (pure a : StateT σ Option α) m=some (a,m) := rfl

/-- What pushing a block writes. -/
theorem insertBuddy_run {x : ℕ} (hx : slab.alloc b.flSlab m.calls m.used=x) (hne : x≠0) :
    ∃ m',insertBuddy slab b order addr m=some (0,m') ∧
      m'.node=Function.update m.node x ⟨(m.area b.freeArea order).head,addr⟩ ∧
      m'.area=Function.update m.area b.freeArea (Function.update (m.area b.freeArea) order
        ⟨x,(m.area b.freeArea order).numFree+1⟩) ∧
      m'.buffer=m.buffer ∧ m'.used=x::m.used := by
  simp [insertBuddy,readArea,writeArea,writeNode,slabAllocFromCache,bind,StateT.bind,pure_apply,
    hx,hne]

/-- Pushing a block puts it in front of its list. -/
theorem Shows.insertBuddy (hslab : slab.Supplies) (h : Shows closed base foreign b m v)
    (ho : order<MAX_ORDER) (addr : ℕ) :
    ∃ m',insertBuddy slab b order addr m=some (0,m') ∧
      Shows closed base foreign b m' (v.setList order (addr::v.lists order)) := by
  obtain ⟨ns,h⟩ := h
  obtain ⟨hne,hfresh⟩ := hslab b.flSlab m.calls m.used
  obtain ⟨q,hleads,hclosed⟩ := h.leads order ho
  obtain ⟨m',hrun,hnode,harea,hbuffer,hused⟩ := @insertBuddy_run b m order addr slab _ rfl hne
  generalize slab.alloc b.flSlab m.calls m.used=x at *
  have hother : ∀ p∈m.used,m'.node p=m.node p := by
    intro p hp
    rw [hnode]
    refine Function.update_of_ne ?_ _ _
    rintro rfl
    exact hfresh hp
  have hself : m'.node x=⟨(m.area b.freeArea order).head,addr⟩ := by
    rw [hnode,Function.update_self]
  have hnew : ∀ j<MAX_ORDER,x∉ns j := fun j hj hp => hfresh (h.used j hj x hp).1
  have hleads' : Leads (fun p => (m'.node p).next) x (x::ns order) q := by
    refine ⟨rfl,?_⟩
    simp only [hself]
    exact hleads.congr fun p hp => by rw [hother p (h.used order ho p hp).1]
  refine ⟨m',hrun,_,h.relist ho harea hbuffer (fun p hp _ => ⟨hother p hp,?_⟩)
    ⟨q,hleads',hclosed⟩ ?_ (List.nodup_cons.mpr ⟨hnew order ho,h.nodup order ho⟩) ?_ ?_⟩
  · rw [hused]
    exact List.mem_cons_of_mem x hp
  · rw [List.length_cons,h.count order ho]
  · intro p hp
    rw [hused]
    rcases List.mem_cons.mp hp with rfl|hp
    · exact ⟨⟨List.mem_cons_self,hne⟩,fun hf => hfresh (h.node p hf).1,fun j hj _ => hnew j hj⟩
    · obtain ⟨hu,hz⟩ := h.used order ho p hp
      exact ⟨⟨List.mem_cons_of_mem x hu,hz⟩,h.own order ho p hp,
        fun j hj hj' => h.apart order ho j hj (Ne.symm hj') p hp⟩
  · rw [List.map_cons,hself,←h.addrs order ho]
    congr 1
    exact List.map_congr_left fun p hp => by rw [hother p (h.used order ho p hp).1]

/-- What taking the first block writes. -/
theorem takeHead_run {x : ℕ} (hx : (m.area b.freeArea order).head=x) (hne : x≠0)
    (hn : (m.area b.freeArea order).numFree≠0) :
    ∃ m',takeHead b order m=some ((m.node x).addr,m') ∧ m'.node=m.node ∧
      m'.area=Function.update m.area b.freeArea (Function.update (m.area b.freeArea) order
        ⟨(m.node x).next,(m.area b.freeArea order).numFree-1⟩) ∧
      m'.buffer=m.buffer ∧ m'.used=m.used.erase x := by
  simp [takeHead,removeFreeHead,readArea,writeArea,readNode,slabFree,bind,StateT.bind,pure_apply,
    Functor.map,StateT.map,hx,hne,hn]

/-- Taking the first block returns it and leaves the others. -/
theorem Shows.takeHead (h : Shows closed base foreign b m v) (ho : order<MAX_ORDER) {a : ℕ}
    {rest : List ℕ} (hl : v.lists order=a::rest) :
    ∃ m',takeHead b order m=some (a,m') ∧
      Shows closed base foreign b m' (v.setList order rest) := by
  obtain ⟨ns,h⟩ := h
  obtain ⟨x,xs,hns,hhead,hne,haddr,haddrs⟩ := h.head ho hl
  obtain ⟨q,hleads,hclosed⟩ := h.leads order ho
  have hcount := h.count order ho
  have hnodup := h.nodup order ho
  rw [hns] at hleads hcount hnodup
  obtain ⟨hx,hnodup⟩ := List.nodup_cons.mp hnodup
  obtain ⟨m',hrun,hnode,harea,hbuffer,hused⟩ := @takeHead_run b m order x hhead hne
    (by rw [hcount]; exact Nat.succ_ne_zero _)
  rw [haddr] at hrun
  have herase : ∀ p∈m.used,p≠x → p∈m'.used := by
    intro p hp hpx
    rw [hused]
    exact (List.mem_erase_of_ne hpx).mpr hp
  refine ⟨m',hrun,_,h.relist ho harea hbuffer (fun p hp hpn => ⟨by rw [hnode],?_⟩)
    ⟨q,by rw [hnode]; exact hleads.2,hclosed⟩ ?_ hnodup (fun p hp => ?_) ?_⟩
  · exact herase p hp fun heq => hpn (hns▸heq▸List.mem_cons_self)
  · simp only [hcount,List.length_cons,Nat.add_sub_cancel]
  · have hp' : p∈ns order := hns▸List.mem_cons_of_mem x hp
    obtain ⟨hu,hz⟩ := h.used order ho p hp'
    exact ⟨⟨herase p hu fun heq => hx (heq▸hp),hz⟩,h.own order ho p hp',
      fun j hj hj' => h.apart order ho j hj (Ne.symm hj') p hp'⟩
  · rw [hnode]
    exact haddrs

/-- A bitmap word inside the buffer is read from the view. -/
theorem Shows.readMap (h : Shows closed base foreign b m v) (order frameMap : ℕ) :
    readMap b order frameMap m=
      if mapIndex b order frameMap<getBuddyMapSize b.memSize then
        some (v.words (mapIndex b order frameMap),m)
      else none := by
  obtain ⟨ns,h⟩ := h
  unfold BuddyMemory.readMap
  split
  · rename_i hi
    rw [h.words _ hi]
  · rfl

/-- A bitmap word inside the buffer is written to the view. -/
theorem Shows.writeMap (h : Shows closed base foreign b m v) {order frameMap : ℕ}
    (hi : mapIndex b order frameMap<getBuddyMapSize b.memSize) (w : BitVec 32) :
    ∃ m',writeMap b order frameMap w m=some ((),m') ∧
      Shows closed base foreign b m' (v.setWord (mapIndex b order frameMap) w) := by
  obtain ⟨ns,h⟩ := h
  refine ⟨_,if_pos hi,ns,{h with words := fun i hi' => ?_,buffer := fun a ha => ?_}⟩
  · simp only [Function.update_self,View.setWord,Function.update_apply]
    rw [h.words i hi']
  · simp only [Function.update_of_ne ha]
    exact h.buffer a ha

/-- The walk stops at the first entry that covers the address, with the node
before it. -/
theorem findLoop_found {fuel fl s : ℕ} {prev : Option ℕ} {pre post : List ℕ} {q : ℕ}
    (h : Leads (fun p => (m.node p).next) fl (pre++s::post) q) (hz : ∀ p∈pre++s::post,p≠0)
    (hfuel : pre.length<fuel) (hpre : ∀ p∈pre,covers order addr (m.node p).addr=false)
    (hs : covers order addr (m.node s).addr=true) :
    findLoop order addr m fuel prev fl=some (pre.getLast?.or prev,s) := by
  induction pre generalizing fuel fl prev with
  | nil =>
    obtain ⟨fuel,rfl⟩ := Nat.exists_eq_succ_of_ne_zero (Nat.ne_of_gt hfuel)
    obtain ⟨rfl,-⟩ := h
    rw [findLoop,if_neg (hz _ List.mem_cons_self),if_pos hs]
    rfl
  | cons x pre ih =>
    obtain ⟨fuel,rfl⟩ := Nat.exists_eq_succ_of_ne_zero (Nat.ne_of_gt (Nat.zero_lt_of_lt hfuel))
    obtain ⟨rfl,h⟩ := h
    rw [findLoop,if_neg (hz _ List.mem_cons_self),
      if_neg (by rw [hpre _ List.mem_cons_self]; decide),
      ih h (fun p hp => hz p (List.mem_cons_of_mem _ hp)) (Nat.lt_of_succ_lt_succ hfuel)
        fun p hp => hpre p (List.mem_cons_of_mem _ hp)]
    cases hlast : pre.getLast? <;> simp [List.getLast?_cons,hlast]

/-- Without such an entry the walk follows the null pointer at the end. -/
theorem findLoop_missing {fuel fl : ℕ} {prev : Option ℕ} {xs : List ℕ}
    (h : Leads (fun p => (m.node p).next) fl xs 0)
    (hxs : ∀ p∈xs,covers order addr (m.node p).addr=false) :
    findLoop order addr m fuel prev fl=none := by
  induction fuel generalizing fl prev xs with
  | zero => rfl
  | succ fuel ih =>
    rw [findLoop]
    cases xs with
    | nil => rw [if_pos (show fl=0 from h)]
    | cons x xs =>
      obtain ⟨rfl,h⟩ := h
      split
      · rfl
      · rw [if_neg (by rw [hxs _ List.mem_cons_self]; decide)]
        exact ih h fun p hp => hxs p (List.mem_cons_of_mem _ hp)

/-- What unlinking the first node writes. -/
theorem removeFreeFrame_first {s : ℕ} (hn : (m.area b.freeArea order).numFree≠0)
    (hfind : findLoop order addr m (m.used.length+1) none (m.area b.freeArea order).head=
      some (none,s)) (hs : s≠0) :
    ∃ m',removeFreeFrame b order addr m=some ((),m') ∧ m'.node=m.node ∧
      m'.area=Function.update m.area b.freeArea (Function.update (m.area b.freeArea) order
        ⟨(m.node s).next,(m.area b.freeArea order).numFree-1⟩) ∧
      m'.buffer=m.buffer ∧ m'.used=m.used.erase s := by
  simp [removeFreeFrame,findFrame,readArea,writeArea,readNode,slabFree,bind,StateT.bind,pure,
    hn,hfind,hs]

/-- What unlinking a node behind another one writes. -/
theorem removeFreeFrame_behind {a s : ℕ} (hn : (m.area b.freeArea order).numFree≠0)
    (hfind : findLoop order addr m (m.used.length+1) none (m.area b.freeArea order).head=
      some (some a,s)) (hs : s≠0) (ha : a≠0) :
    ∃ m',removeFreeFrame b order addr m=some ((),m') ∧
      m'.node=Function.update m.node a {m.node a with next := (m.node s).next} ∧
      m'.area=Function.update m.area b.freeArea (Function.update (m.area b.freeArea) order
        ⟨(m.area b.freeArea order).head,(m.area b.freeArea order).numFree-1⟩) ∧
      m'.buffer=m.buffer ∧ m'.used=m.used.erase s := by
  simp [removeFreeFrame,findFrame,readArea,writeArea,readNode,writeNode,slabFree,bind,
    StateT.bind,pure,hn,hfind,hs,ha]

/-- The nodes of a list are no more than the nodes in use. -/
theorem Shown.length_le (h : Shown closed base foreign b m v ns) (ho : order<MAX_ORDER) :
    (ns order).length ≤ m.used.length :=
  (List.subperm_of_subset (h.nodup order ho) fun p hp => (h.used order ho p hp).1).length_le

/-- What unlinking a node writes, wherever it stands: the list leads past the
node, and no block changes. -/
theorem removeFreeFrame_run {s q : ℕ} {pre post : List ℕ}
    (hn : (m.area b.freeArea order).numFree≠0)
    (hleads : Leads (fun p => (m.node p).next) (m.area b.freeArea order).head (pre++s::post) q)
    (hnodup : (pre++s::post).Nodup) (hz : ∀ p∈pre++s::post,p≠0)
    (hlength : pre.length < m.used.length+1)
    (hpre : ∀ p∈pre,covers order addr (m.node p).addr=false)
    (hs : covers order addr (m.node s).addr=true) :
    ∃ m' head,removeFreeFrame b order addr m=some ((),m') ∧
      m'.area=Function.update m.area b.freeArea (Function.update (m.area b.freeArea) order
        ⟨head,(m.area b.freeArea order).numFree-1⟩) ∧
      m'.buffer=m.buffer ∧ m'.used=m.used.erase s ∧
      Leads (fun p => (m'.node p).next) head (pre++post) q ∧
      (∀ p,(m'.node p).addr=(m.node p).addr) ∧
      ∀ p,p∉pre++s::post → m'.node p=m.node p := by
  have hfind := @findLoop_found m order addr (m.used.length+1) _ s none pre post q hleads hz
    hlength hpre hs
  have hs0 : s≠0 := hz s (List.mem_append_right _ List.mem_cons_self)
  rcases List.eq_nil_or_concat pre with rfl|⟨pre,a,rfl⟩
  · obtain ⟨m',hrun,hnode,harea,hbuffer,hused⟩ := removeFreeFrame_first hn hfind hs0
    refine ⟨m',_,hrun,harea,hbuffer,hused,?_,fun p => by rw [hnode],fun p _ => by rw [hnode]⟩
    rw [hnode]
    exact hleads.2
  · rw [List.concat_eq_append] at *
    have ha : a∈pre++[a]++s::post := by simp
    rw [List.getLast?_concat] at hfind
    obtain ⟨m',hrun,hnode,harea,hbuffer,hused⟩ := removeFreeFrame_behind hn hfind hs0 (hz a ha)
    have hnext : (fun p => (m'.node p).next)=
        Function.update (fun p => (m.node p).next) a (m.node s).next := by
      funext p
      rw [hnode,Function.update_apply,Function.update_apply]
      split <;> rfl
    refine ⟨m',_,hrun,harea,hbuffer,hused,?_,fun p => ?_,fun p hp => ?_⟩
    · rw [hnext]
      rw [List.append_assoc] at hleads hnodup ⊢
      exact hleads.bypass hnodup
    · rw [hnode,Function.update_apply]
      split
      · rename_i heq
        rw [heq]
      · rfl
    · rw [hnode]
      refine Function.update_of_ne ?_ _ _
      rintro rfl
      exact hp ha

/-- Unlinking an entry that covers the address takes the first one from its
list. -/
theorem Shows.removeFreeFrame (h : Shows closed base foreign b m v) (ho : order<MAX_ORDER)
    (hc : ∃ e∈v.lists order,covers order addr e=true) :
    ∃ m',removeFreeFrame b order addr m=some ((),m') ∧
      Shows closed base foreign b m'
        (v.setList order ((v.lists order).eraseP (covers order addr))) := by
  obtain ⟨ns,h⟩ := h
  obtain ⟨q,hleads,hclosed⟩ := h.leads order ho
  have hlength := h.length_le ho
  have hcount := h.count order ho
  have hnodup := h.nodup order ho
  have hlist := h.addrs order ho
  obtain ⟨e,he,hcov⟩ := hc
  rw [←hlist] at he
  obtain ⟨p,hp,rfl⟩ := List.mem_map.mp he
  obtain ⟨s,pre,post,hpre,hs,hns,herase⟩ :=
    @List.exists_of_eraseP _ (covers order addr∘fun p => (m.node p).addr) _ _ hp hcov
  have hview : (v.lists order).eraseP (covers order addr)=
      (pre++post).map fun p => (m.node p).addr := by
    rw [←hlist,List.eraseP_map,herase]
  rw [hns] at hleads hnodup hlength hcount
  rw [List.length_append,List.length_cons] at hlength hcount
  have hz : ∀ p∈pre++s::post,p≠0 := fun p hp => (h.used order ho p (hns▸hp)).2
  obtain ⟨m',head,hrun,harea,hbuffer,hused,hleads',haddr,hnode⟩ := @removeFreeFrame_run b m order
    addr s q pre post (by omega) hleads hnodup hz (by omega)
    (fun p hp => by simpa using hpre p hp) hs
  have hmiddle := List.nodup_middle.mp hnodup
  have hkeep : ∀ p∈pre++post,p∈ns order ∧ p≠s := by
    intro p hp
    refine ⟨hns▸?_,?_⟩
    · exact List.perm_middle.mem_iff.mpr (List.mem_cons_of_mem s hp)
    · rintro rfl
      exact (List.nodup_cons.mp hmiddle).1 hp
  have hin : ∀ p∈m.used,p≠s → p∈m'.used := by
    intro p hp hps
    rw [hused]
    exact (List.mem_erase_of_ne hps).mpr hp
  rw [hview]
  refine ⟨m',hrun,_,h.relist ho harea hbuffer (fun p hp hpn => ⟨hnode p (hns▸hpn),?_⟩)
    ⟨q,hleads',hclosed⟩ ?_ hmiddle.of_cons (fun p hp => ?_) ?_⟩
  · refine hin p hp ?_
    rintro rfl
    exact hpn (hns▸List.mem_append_right _ List.mem_cons_self)
  · simp only [List.length_append]
    omega
  · obtain ⟨hp',hps⟩ := hkeep p hp
    obtain ⟨hu,hp0⟩ := h.used order ho p hp'
    exact ⟨⟨hin p hu hps,hp0⟩,h.own order ho p hp',
      fun j hj hj' => h.apart order ho j hj (Ne.symm hj') p hp'⟩
  · exact List.map_congr_left fun p _ => haddr p

/-- With a counter of zero nothing is unlinked. -/
theorem Shows.removeFreeFrame_nil (h : Shows closed base foreign b m v) (ho : order<MAX_ORDER)
    (hl : v.lists order=[]) : BuddyMemory.removeFreeFrame b order addr m=some ((),m) := by
  obtain ⟨ns,h⟩ := h
  have hn : (m.area b.freeArea order).numFree=0 := by rw [h.numFree ho,hl]; rfl
  simp [BuddyMemory.removeFreeFrame,readArea,bind,StateT.bind,pure_apply,hn]

/-- On closed lists a walk without success has no result. -/
theorem Shows.removeFreeFrame_missing (h : Shows True base foreign b m v) (ho : order<MAX_ORDER)
    (hl : v.lists order≠[]) (hc : ∀ e∈v.lists order,covers order addr e=false) :
    BuddyMemory.removeFreeFrame b order addr m=none := by
  obtain ⟨ns,h⟩ := h
  have hn : (m.area b.freeArea order).numFree≠0 := by
    rw [h.numFree ho]
    exact fun hz => hl (List.length_eq_zero_iff.mp hz)
  obtain ⟨q,hleads,hclosed⟩ := h.leads order ho
  obtain rfl := hclosed trivial
  have hfind := @findLoop_missing m order addr (m.used.length+1) _ none _ hleads fun p hp =>
    hc _ (h.addrs order ho▸List.mem_map_of_mem hp)
  simp [BuddyMemory.removeFreeFrame,findFrame,readArea,bind,StateT.bind,hn,hfind]

end XanaduOS.BuddyMemory
