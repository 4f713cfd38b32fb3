import XanaduOS.Word32

/-!
# The slab caches

A cache keeps slabs of sixteen objects on three lists. Each slab begins with
its record and its base chunk; unaligned slabs hold their objects between the
chunk records, aligned ones in memory of their own. Records are kept in typed
maps by address: a slab's base chunk is the chunk sixteen bytes into it, and
the list heads are the slab records inside the cache. Following a null
pointer has no result, nor has a walk that does not end.
-/

namespace XanaduOS.SlabAllocator

open Word32

/-- Objects of one slab. -/
abbrev SLAB_CAPACITY : ℕ := 16

/-- Bytes of a chunk record. -/
abbrev chunkSize : ℕ := 20

/-- Bytes of a slab record, its base chunk included. -/
abbrev slabSize : ℕ := 40

/-- Bytes of a cache record, its list heads included. -/
abbrev cacheSize : ℕ := 136

/-- `struct slab_chunk`. -/
structure SlabChunk where
  /-- The chunk behind this one in memory. -/
  next : ℕ
  /-- The next free chunk of the slab. -/
  nextFree : ℕ
  /-- The previous free chunk; written, never read for a decision. -/
  prevFree : ℕ
  /-- The slab. -/
  slab : ℕ
  /-- The object. -/
  dataAddr : ℕ
  deriving DecidableEq

/-- `struct slab` without its base chunk. -/
structure Slab where
  /-- Distance between two objects. -/
  size : ℕ
  /-- Free chunks. -/
  numFree : ℕ
  /-- Next slab of the list. -/
  next : ℕ
  /-- Previous slab of the list, or the list head. -/
  prev : ℕ
  /-- First chunk. -/
  chunks : ℕ
  deriving DecidableEq

/-- `struct slab_cache` without its list heads. -/
structure SlabCache where
  /-- Next cache of the registry. -/
  next : ℕ
  /-- Previous cache of the registry. -/
  prev : ℕ
  /-- Bytes of an object. -/
  size : ℕ
  /-- Alignment of the objects, or zero. -/
  alignment : ℕ
  deriving DecidableEq

/-- Records by address, and the head of the registry. -/
structure SlabMem where
  /-- Slab records and list heads. -/
  slab : ℕ → Slab
  /-- Chunk records. -/
  chunk : ℕ → SlabChunk
  /-- Cache records. -/
  cache : ℕ → SlabCache
  /-- `caches`. -/
  caches : ℕ

/-- `slabs_free` of a cache. -/
abbrev slabsFree (cache : ℕ) : ℕ := cache+8

/-- `slabs_full` of a cache. -/
abbrev slabsFull (cache : ℕ) : ℕ := cache+48

/-- `slabs_partial` of a cache. -/
abbrev slabsPartial (cache : ℕ) : ℕ := cache+88

/-- `base_chunk` of a slab. -/
abbrev baseChunk (slab : ℕ) : ℕ := slab+16

/-- Rewrite one slab record. -/
def SlabMem.setSlab (m : SlabMem) (p : ℕ) (f : Slab → Slab) : SlabMem :=
  {m with slab := Function.update m.slab p (f (m.slab p))}

/-- Rewrite one chunk record. -/
def SlabMem.setChunk (m : SlabMem) (p : ℕ) (f : SlabChunk → SlabChunk) : SlabMem :=
  {m with chunk := Function.update m.chunk p (f (m.chunk p))}

/-- Rewrite one cache record. -/
def SlabMem.setCache (m : SlabMem) (p : ℕ) (f : SlabCache → SlabCache) : SlabMem :=
  {m with cache := Function.update m.cache p (f (m.cache p))}

/-- Slab records after rewriting one. -/
theorem setSlab_slab (m : SlabMem) (p y : ℕ) (f : Slab → Slab) :
    (m.setSlab p f).slab y=if y=p then f (m.slab p) else m.slab y := Function.update_apply ..

/-- Chunk records after rewriting one. -/
theorem setChunk_chunk (m : SlabMem) (p y : ℕ) (f : SlabChunk → SlabChunk) :
    (m.setChunk p f).chunk y=if y=p then f (m.chunk p) else m.chunk y := Function.update_apply ..

/-- Cache records after rewriting one. -/
theorem setCache_cache (m : SlabMem) (p y : ℕ) (f : SlabCache → SlabCache) :
    (m.setCache p f).cache y=if y=p then f (m.cache p) else m.cache y := Function.update_apply ..

/-- Slab writes keep the chunks. -/
@[simp] theorem setSlab_chunk (m : SlabMem) (p : ℕ) (f : Slab → Slab) :
    (m.setSlab p f).chunk=m.chunk := rfl

/-- Slab writes keep the caches. -/
@[simp] theorem setSlab_cache (m : SlabMem) (p : ℕ) (f : Slab → Slab) :
    (m.setSlab p f).cache=m.cache := rfl

/-- Chunk writes keep the slabs. -/
@[simp] theorem setChunk_slab (m : SlabMem) (p : ℕ) (f : SlabChunk → SlabChunk) :
    (m.setChunk p f).slab=m.slab := rfl

/-- Chunk writes keep the caches. -/
@[simp] theorem setChunk_cache (m : SlabMem) (p : ℕ) (f : SlabChunk → SlabChunk) :
    (m.setChunk p f).cache=m.cache := rfl

/-- Cache writes keep the slabs. -/
@[simp] theorem setCache_slab (m : SlabMem) (p : ℕ) (f : SlabCache → SlabCache) :
    (m.setCache p f).slab=m.slab := rfl

/-- Cache writes keep the chunks. -/
@[simp] theorem setCache_chunk (m : SlabMem) (p : ℕ) (f : SlabCache → SlabCache) :
    (m.setCache p f).chunk=m.chunk := rfl

/-- Slab writes keep the registry's head. -/
@[simp] theorem setSlab_caches (m : SlabMem) (p : ℕ) (f : Slab → Slab) :
    (m.setSlab p f).caches=m.caches := rfl

/-- Chunk writes keep the registry's head. -/
@[simp] theorem setChunk_caches (m : SlabMem) (p : ℕ) (f : SlabChunk → SlabChunk) :
    (m.setChunk p f).caches=m.caches := rfl

/-- Cache writes keep the registry's head. -/
@[simp] theorem setCache_caches (m : SlabMem) (p : ℕ) (f : SlabCache → SlabCache) :
    (m.setCache p f).caches=m.caches := rfl

/-- Unlink a slab from its list. Its callers ignore the error code that a
null slab gives. -/
def slabRemoveFromCache (m : SlabMem) (slab : ℕ) : Option SlabMem :=
  if slab=0 then some m
  else
    let next := (m.slab slab).next
    let m := if next≠0 then m.setSlab next fun s => {s with prev := (m.slab slab).prev} else m
    let prev := (m.slab slab).prev
    if prev=0 then none
    else some (m.setSlab prev fun s => {s with next := (m.slab slab).next})

/-- Push a slab behind a list head. -/
def slabInsertInCache (m : SlabMem) (slabList slab : ℕ) : SlabMem :=
  let next := (m.slab slabList).next
  let m := m.setSlab slabList fun s => {s with next := slab}
  let m := m.setSlab slab fun s => {s with prev := slabList,next := next}
  if next≠0 then m.setSlab next fun s => {s with prev := slab} else m

/-- Bytes asked of the heap for an unaligned slab, and for an aligned one if the
size is zero. -/
def slabRequest (size : ℕ) : ℕ :=
  wadd slabSize (wsub (wmul (SLAB_CAPACITY+1) (wadd size chunkSize)) size)

/-- Bytes asked of the heap for the objects of an aligned slab. -/
def slabDataSize (size : ℕ) : ℕ := wmul SLAB_CAPACITY size

/-- The loop that lays out the chunks, with the number of chunks left. The
pointer walked along is the slab's first-chunk field at index zero, then the
next field of the chunk before; `cur` is the value read through it. -/
def initChunks (align metaSize slab chunksAddr slabData : ℕ) :
    ℕ → ℕ → ℕ → ℕ → SlabMem → SlabMem
  | 0,_,_,_,m => m
  | left+1,i,cur,prevChunk,m =>
    let step := if align≠0 then chunkSize else metaSize
    let chunkAddr := wadd chunksAddr (wmul i step)
    let ch := if align≠0 ∨ cur=0 then chunkAddr else cur
    let m := if i=0 then m.setSlab slab fun s => {s with chunks := ch}
      else m.setChunk prevChunk fun c => {c with next := ch}
    let next := wadd chunkAddr step
    let m := m.setChunk ch fun _ => {
      next := next
      nextFree := next
      prevFree := prevChunk
      slab := slab
      dataAddr := if align≠0 then wadd slabData (wmul i metaSize) else wadd chunkAddr chunkSize}
    initChunks align metaSize slab chunksAddr slabData left (i+1) next ch m

/-- Lay out a new slab in memory from the heap and push it on the free list.
`newSlab` and `slabData` are the pointers the heap returns. -/
def slabAllocSlabAlign (m : SlabMem) (cache align newSlab slabData : ℕ) : SlabMem :=
  let size := (m.cache cache).size
  let metaSize := if align≠0 then size else wadd size chunkSize
  let chunksAddr := wadd newSlab slabSize
  let m := m.setSlab newSlab fun s => {s with chunks := chunksAddr}
  let m := initChunks align metaSize newSlab chunksAddr slabData SLAB_CAPACITY 0
    (m.slab newSlab).chunks (baseChunk newSlab) m
  let chunks := (m.slab newSlab).chunks
  let m := m.setSlab newSlab fun s =>
    {s with size := metaSize,numFree := SLAB_CAPACITY,next := 0,prev := 0}
  let m := m.setChunk (baseChunk newSlab) fun _ =>
    {next := chunks,nextFree := chunks,prevFree := 0,slab := newSlab,dataAddr := 0}
  slabInsertInCache m (slabsFree cache) newSlab

/-- Create a cache in zeroed memory from the heap, with one slab. -/
def slabCacheCreateAlign (m : SlabMem) (size alignment newCache newSlab slabData : ℕ) : SlabMem :=
  let nextCache := m.caches
  let zero : Slab := ⟨0,0,0,0,0⟩
  let m := {m with caches := newCache}
  let m := m.setSlab (slabsFree newCache) fun _ => zero
  let m := m.setSlab (slabsFull newCache) fun _ => zero
  let m := m.setSlab (slabsPartial newCache) fun _ => zero
  let m := m.setCache newCache fun _ => ⟨nextCache,0,0,0⟩
  let m := if nextCache≠0 then m.setCache nextCache fun c => {c with prev := newCache} else m
  let m := m.setCache newCache fun c =>
    {c with size := if alignment≠0 then roundUp size alignment else size,alignment := alignment}
  slabAllocSlabAlign m newCache alignment newSlab slabData

/-- Create a cache of unaligned objects. -/
def slabCacheCreate (m : SlabMem) (size newCache newSlab slabData : ℕ) : SlabMem :=
  slabCacheCreateAlign m size 0 newCache newSlab slabData

/-- Take the first free chunk of a slab off its chain and count it. -/
def popChunk (m : SlabMem) (slab : ℕ) : SlabMem :=
  let freeChunk := (m.chunk (baseChunk slab)).nextFree
  let follower := (m.chunk freeChunk).nextFree
  let m := if follower≠0 then
    m.setChunk follower fun c => {c with prevFree := (m.chunk freeChunk).prevFree} else m
  let m := m.setChunk (baseChunk slab) fun c => {c with nextFree := (m.chunk freeChunk).nextFree}
  m.setSlab slab fun s => {s with numFree := wsub s.numFree 1}

/-- Move a slab that lost a chunk, by its counter. The slab unlinked is the
head of the list that the counter speaks of. -/
def moveAfterAlloc (m : SlabMem) (cache slab : ℕ) : Option SlabMem :=
  if (m.slab slab).numFree=0 then do
    let m ← slabRemoveFromCache m (m.slab (slabsPartial cache)).next
    return slabInsertInCache m (slabsFull cache) slab
  else if (m.slab slab).numFree=SLAB_CAPACITY-1 then do
    let m ← slabRemoveFromCache m (m.slab (slabsFree cache)).next
    return slabInsertInCache m (slabsPartial cache) slab
  else some m

/-- Allocate an object. `newSlab` and `slabData` are the pointers the heap
returns if a new slab is needed. -/
def slabAllocFromCache (m : SlabMem) (cache newSlab slabData : ℕ) : Option (SlabMem×ℕ) :=
  if cache=0 then some (m,0)
  else
    let head := (m.slab (slabsPartial cache)).next
    let head := if head=0 then (m.slab (slabsFree cache)).next else head
    let m := if head=0 then slabAllocSlabAlign m cache (m.cache cache).alignment newSlab slabData
      else m
    let nonFull := if head=0 then (m.slab (slabsFree cache)).next else head
    let freeChunk := (m.chunk (baseChunk nonFull)).nextFree
    if nonFull=0 ∨ freeChunk=0 then none
    else do
      let freeAddr := (m.chunk freeChunk).dataAddr
      let m ← moveAfterAlloc (popChunk m nonFull) cache nonFull
      return (m,freeAddr)

/-- Whether an address lies among the objects of a slab. -/
def addrWithinSlab (m : SlabMem) (slab addr : ℕ) : Bool :=
  let slabDataAddr := (m.chunk (m.chunk (baseChunk slab)).next).dataAddr
  decide (slabDataAddr≤addr ∧
    addr<wadd slabDataAddr (wmul (m.slab slab).size SLAB_CAPACITY))

/-- The chunk of an object among the chunks from one on. -/
def findInChunks (m : SlabMem) (seekAddr : ℕ) : ℕ → ℕ → Option ℕ
  | 0,_ => none
  | fuel+1,chunk =>
    if chunk=0 then some 0
    else if (m.chunk chunk).dataAddr=seekAddr then some chunk
    else findInChunks m seekAddr fuel (m.chunk chunk).next

/-- The chunk of an object among the slabs of a list, or null. The search of
a slab starts at its second chunk. -/
def slabFindChunk (m : SlabMem) (seekAddr fuel : ℕ) : ℕ → ℕ → Option ℕ
  | 0,_ => none
  | left+1,slab =>
    if slab=0 then some 0
    else if addrWithinSlab m slab seekAddr then do
      let chunk ← findInChunks m seekAddr fuel (m.chunk (m.slab slab).chunks).next
      if chunk≠0 then return chunk
      slabFindChunk m seekAddr fuel left (m.slab slab).next
    else slabFindChunk m seekAddr fuel left (m.slab slab).next

/-- The walk of `slab_free` to the last free chunk before an address. -/
def insertionWalk (m : SlabMem) (chunk : ℕ) : ℕ → ℕ → Option ℕ
  | 0,_ => none
  | fuel+1,prevFree =>
    if prevFree=0 then none
    else if (m.chunk prevFree).nextFree<chunk then insertionWalk m chunk fuel (m.chunk prevFree).nextFree
    else some prevFree

/-- Put a chunk back on the chain of its slab, in address order. -/
def chainInsert (m : SlabMem) (chunk fuel : ℕ) : Option SlabMem :=
  let first := baseChunk (m.chunk chunk).slab
  let firstFree := (m.chunk first).nextFree
  if firstFree=0 ∨ chunk<firstFree then
    let m := m.setChunk chunk fun c => {c with nextFree := firstFree}
    some (m.setChunk first fun c => {c with nextFree := chunk})
  else do
    let prevFree ← insertionWalk m chunk fuel firstFree
    let m := m.setChunk chunk fun c => {c with nextFree := (m.chunk prevFree).nextFree}
    return m.setChunk prevFree fun c => {c with nextFree := chunk}

/-- Move a slab that gained a chunk, by its counter. -/
def moveAfterFree (m : SlabMem) (cache slab : ℕ) : Option SlabMem :=
  if (m.slab slab).numFree=1 then do
    let m ← slabRemoveFromCache m slab
    return slabInsertInCache m (slabsPartial cache) slab
  else if (m.slab slab).numFree=SLAB_CAPACITY then do
    let m ← slabRemoveFromCache m slab
    return slabInsertInCache m (slabsFree cache) slab
  else some m

/-- Release a chunk: count it, move its slab, put it back on the chain. -/
def freeChunk (m : SlabMem) (cache chunk fuel : ℕ) : Option SlabMem :=
  let slab := (m.chunk chunk).slab
  if slab=0 then none
  else do
    let m := m.setSlab slab fun s => {s with numFree := wadd s.numFree 1}
    let m ← moveAfterFree m cache slab
    chainInsert m chunk fuel

/-- Release an object. Walks over chunks and slabs end within the fuel or have
no result. -/
def slabFree (m : SlabMem) (cache obj fuel : ℕ) : Option SlabMem :=
  if obj=0 then some m
  else if (m.cache cache).alignment=0 then freeChunk m cache (wsub obj chunkSize) fuel
  else do
    let chunk ← slabFindChunk m obj fuel fuel (m.slab (slabsPartial cache)).next
    let chunk ← if chunk=0 then slabFindChunk m obj fuel fuel (m.slab (slabsFull cache)).next
      else some chunk
    if chunk=0 then return m
    freeChunk m cache chunk fuel

/-- Release the slabs of a list to the heap, and with each one the memory of its
objects where that lies apart: the pointers released, in order. A release
leaves the contents of what it releases. -/
def slabDestroySlab (m : SlabMem) (cache : ℕ) : ℕ → ℕ → Option (List ℕ)
  | 0,_ => none
  | fuel+1,slabs =>
    if slabs=0 then some []
    else do
      let freed ← slabDestroySlab m cache fuel (m.slab slabs).next
      if (m.cache cache).alignment≠0 then
        return slabs::(m.chunk (m.slab slabs).chunks).dataAddr::freed
      return slabs::freed

/-- Take a cache off the registry and release its slabs and itself: the records
afterwards, and the pointers released to the heap. -/
def slabCacheDestroy (m : SlabMem) (cache fuel : ℕ) : Option (SlabMem×List ℕ) :=
  let prev := (m.cache cache).prev
  let m := if prev≠0 then m.setCache prev fun c => {c with next := (m.cache cache).next} else m
  let next := (m.cache cache).next
  let m := if next≠0 then m.setCache next fun c => {c with prev := (m.cache cache).prev} else m
  do
    let free ← slabDestroySlab m cache fuel (m.slab (slabsFree cache)).next
    let part ← slabDestroySlab m cache fuel (m.slab (slabsPartial cache)).next
    let full ← slabDestroySlab m cache fuel (m.slab (slabsFull cache)).next
    return (m,free++part++full++[cache])

/-- The first cache for objects of a size from one on, or null. -/
def findCache (m : SlabMem) (size : ℕ) : ℕ → ℕ → Option ℕ
  | 0,_ => none
  | fuel+1,cache =>
    if cache=0 ∨ (m.cache cache).size=size then some cache
    else findCache m size fuel (m.cache cache).next

/-- Allocate an object of a size from the first cache of the registry for it. -/
def slabAlloc (m : SlabMem) (size newSlab slabData fuel : ℕ) : Option (SlabMem×ℕ) := do
  let cache ← findCache m size fuel m.caches
  slabAllocFromCache m cache newSlab slabData

end XanaduOS.SlabAllocator
