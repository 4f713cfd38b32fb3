import XanaduOS.KernelDefs

/-!
# The kernel heap

Blocks carry a header of 32 bytes and are chained twice: by address through
`next` and `prev`, and through `nextHole` for the search of a free block.
Headers are kept in a typed map by address, with any contents where no header
was written. The page mapper that backs a heap expansion is a parameter: it
takes its page tables from this heap, so it is a function of the heap. A panic,
a walk through a null pointer and a loop that does not end have no result.
-/

namespace XanaduOS.HeapAllocator

open Word32 KernelDefs

/-- Magic number of a block header. -/
abbrev BLOCK_HEADER_MAGIC_NUM : ℕ := 0x0BADBABA

/-- Distance of a block from the heap's end at which the heap is expanded. -/
abbrev MAP_CRITICAL_DIST : ℕ := 0x100000

/-- Alignment of `kmalloc`. -/
abbrev HEAP_ALIGN : ℕ := 16

/-- Bytes of a block header. -/
abbrev headerSize : ℕ := 32

/-- `struct block_header`. -/
structure BlockHeader where
  /-- Magic number while the header is in use. -/
  magicNum : ℕ
  /-- Next block by address. -/
  next : ℕ
  /-- Previous block by address. -/
  prev : ℕ
  /-- Next block of the search. -/
  nextHole : ℕ
  /-- Bytes of the block, header included. -/
  size : ℕ
  /-- Whether the block is free. -/
  isHole : Bool
  deriving DecidableEq

/-- The heap: its headers and its two limits. -/
structure Heap where
  /-- Headers by address. -/
  mem : ℕ → BlockHeader
  /-- `heap_base_addr`, the address of the first block. -/
  base : ℕ
  /-- `heap_end_addr`. -/
  endAddr : ℕ

/-- Rewrite one header. -/
def Heap.set (h : Heap) (p : ℕ) (f : BlockHeader → BlockHeader) : Heap :=
  {h with mem := Function.update h.mem p (f (h.mem p))}

/-- Headers after rewriting one. -/
theorem set_mem (h : Heap) (p y : ℕ) (f : BlockHeader → BlockHeader) :
    (h.set p f).mem y=if y=p then f (h.mem p) else h.mem y := Function.update_apply ..

/-- Rewriting a header keeps the first block. -/
@[simp] theorem set_base (h : Heap) (p : ℕ) (f : BlockHeader → BlockHeader) :
    (h.set p f).base=h.base := rfl

/-- Rewriting a header keeps the heap's end. -/
@[simp] theorem set_endAddr (h : Heap) (p : ℕ) (f : BlockHeader → BlockHeader) :
    (h.set p f).endAddr=h.endAddr := rfl

/-- The heap after `heap_init`: one hole from the base to the end. -/
def heapInit (mem : ℕ → BlockHeader) (heapBase mapLimit : ℕ) : Heap :=
  {mem := Function.update mem heapBase
    ⟨BLOCK_HEADER_MAGIC_NUM,0,0,0,wsub mapLimit heapBase,true⟩
   base := heapBase
   endAddr := mapLimit}

variable (mmapPages : Heap → ℕ → ℕ → Option (Heap×ℕ))

/-- Grow a block and the heap by one page table of memory and map page tables
behind the old end. -/
def expandHeap (h : Heap) (header ptNum : ℕ) : Option (Heap×ℕ) :=
  let prevEndAddr := h.endAddr
  let h := {h with endAddr := wadd h.endAddr (PT_SIZE*PAGE_SIZE)}
  let h := h.set header fun b => {b with size := wadd b.size (PT_SIZE*PAGE_SIZE)}
  mmapPages h prevEndAddr (wmul PT_SIZE ptNum)

/-- Pointers with all bits set count as null in `do_alloc`. -/
def nullIfAllOnes (p : ℕ) : ℕ := if p=0xFFFFFFFF then 0 else p

/-- The new hole behind an allocation. -/
def splitBlock (h : Heap) (header size dataBase : ℕ) : Heap :=
  let newBlock := wadd dataBase size
  let h := if (h.mem h.base).nextHole=0 ∨ (h.mem h.base).nextHole=header then
    h.set h.base fun b => {b with nextHole := newBlock} else h
  let h := h.set newBlock fun _ =>
    ⟨BLOCK_HEADER_MAGIC_NUM,0,header,0,wsub (wsub h.endAddr dataBase) size,true⟩
  let h := h.set newBlock fun b => {b with next := nullIfAllOnes (h.mem header).next}
  let h := h.set newBlock fun b => {b with nextHole := nullIfAllOnes (h.mem header).nextHole}
  h.set header fun b => {b with nextHole := newBlock,next := newBlock}

/-- Whether `do_alloc` splits a block. -/
def splits (h : Heap) (header size : ℕ) : Prop :=
  (h.mem header).next=0 ∨
    (wadd size (3*headerSize)≤(h.mem header).size ∧ (h.mem header).next≠0)

instance (h : Heap) (header size : ℕ) : Decidable (splits h header size) :=
  inferInstanceAs (Decidable (_ ∨ _))

/-- Take a block for an allocation, up to the check for the heap's end. -/
def takeBlock (h : Heap) (header size dataBase : ℕ) : Heap :=
  let h := if splits h header size then splitBlock h header size dataBase else h
  h.set header fun b => {b with isHole := false,size := wadd size headerSize}

/-- Allocate from a block. -/
def doAlloc (h : Heap) (header size dataBase : ℕ) : Option (Heap×ℕ) :=
  let h := takeBlock h header size dataBase
  if wsub h.endAddr MAP_CRITICAL_DIST<(h.mem header).next then do
    let (h,ret) ← expandHeap mmapPages h header 1
    if ret≠0 then none else return (h,dataBase)
  else return (h,dataBase)

/-- First payload address of a block. -/
def getDataBase (header : ℕ) : ℕ := wadd header headerSize

/-- Outcome of the search: a hole that fits, or the last block of the chain. -/
inductive SearchResult
  /-- A hole with room for the request. -/
  | found (header : ℕ)
  /-- The chain ended behind this block. -/
  | exhausted (lastHeader : ℕ)
  deriving DecidableEq

/-- The search loop of `kmalloc_align`, within a number of steps. -/
def searchHole (h : Heap) (alignedAllocSize alignment : ℕ) : ℕ → ℕ → ℕ → Option SearchResult
  | 0,_,_ => none
  | fuel+1,header,lastHeader =>
    if header=0 then some (.exhausted lastHeader)
    else
      let dataBase := roundUp (getDataBase header) alignment
      if (h.mem header).isHole ∧
          wadd alignedAllocSize (wsub dataBase header)≤(h.mem header).size then some (.found header)
      else searchHole h alignedAllocSize alignment fuel (h.mem header).nextHole header

/-- Alignment zero counts as one. -/
def effectiveAlignment (alignment : ℕ) : ℕ := if alignment=0 then 1 else alignment

/-- Allocate aligned memory. Behind an exhausted chain the payload address is
computed from the null pointer the search ended with. -/
def kmallocAlign (fuel : ℕ) (h : Heap) (siz alignment : ℕ) : Option (Heap×ℕ) :=
  if siz=0 then some (h,0)
  else do
    let alignment := effectiveAlignment alignment
    let alignedAllocSize := roundUp siz alignment
    match ← searchHole h alignedAllocSize alignment fuel h.base 0 with
    | .found header =>
      doAlloc mmapPages h header alignedAllocSize (roundUp (getDataBase header) alignment)
    | .exhausted lastHeader =>
      let heapExpandSize := wmul (divUp alignedAllocSize (PT_SIZE*PAGE_SIZE)) 2
      let (h,ret) ← expandHeap mmapPages h lastHeader heapExpandSize
      if ret≠0 then none else doAlloc mmapPages h lastHeader alignedAllocSize (getDataBase 0)

/-- Allocate memory of the heap's own alignment. -/
def kmalloc (fuel : ℕ) (h : Heap) (siz : ℕ) : Option (Heap×ℕ) :=
  kmallocAlign mmapPages fuel h siz HEAP_ALIGN

/-- The insertion walk of `kfree`, within a number of steps. -/
def insertionWalk (h : Heap) (header : ℕ) : ℕ → ℕ → Option ℕ
  | 0,_ => none
  | fuel+1,prevHole =>
    if prevHole=0 then none
    else if (h.mem prevHole).nextHole<header then
      insertionWalk h header fuel (h.mem prevHole).nextHole
    else some prevHole

/-- The block behind which a freed block goes on the chain. -/
def insertionPoint (fuel : ℕ) (h : Heap) (header : ℕ) : Option ℕ :=
  if header<(h.mem h.base).nextHole then some h.base else insertionWalk h header fuel h.base

/-- Link a freed block behind another one. -/
def linkHole (h : Heap) (prevHole header : ℕ) : Heap :=
  let h := h.set header fun b => {b with nextHole := (h.mem prevHole).nextHole}
  h.set prevHole fun b => {b with nextHole := header}

/-- Merge a freed block with the hole behind it. The back link rewritten is
the one of the block merged away. -/
def mergeNext (h : Heap) (header : ℕ) : Heap :=
  let next := (h.mem header).next
  if next≠0 ∧ (h.mem next).isHole then
    let h := h.set header fun b => {b with size := wadd b.size (h.mem next).size}
    let h := h.set header fun b => {b with nextHole := (h.mem next).nextHole}
    let h := h.set next fun b => {b with magicNum := 0}
    let h := if (h.mem next).next≠0 then h.set next fun b => {b with prev := header} else h
    h.set header fun b => {b with next := (h.mem next).next}
  else h

/-- Merge a freed block into the hole its back link names. -/
def mergePrev (h : Heap) (header : ℕ) : Heap :=
  let prev := (h.mem header).prev
  if prev≠0 ∧ (h.mem prev).isHole then
    let h := h.set prev fun b => {b with next := (h.mem header).next}
    let h := h.set prev fun b => {b with size := wadd b.size (h.mem header).size}
    let h := h.set prev fun b => {b with nextHole := (h.mem header).nextHole}
    let h := h.set header fun b => {b with magicNum := 0}
    let next := (h.mem header).next
    if next≠0 then h.set next fun b => {b with prev := (h.mem header).prev} else h
  else h

/-- Release memory. Pointers outside the heap and pointers without a header
in front are ignored. -/
def kfree (fuel : ℕ) (h : Heap) (addr : ℕ) : Option Heap :=
  if addr=0 then some h
  else if h.endAddr<addr ∨ addr<h.base then some h
  else
    let header := wsub addr headerSize
    if (h.mem header).magicNum≠BLOCK_HEADER_MAGIC_NUM then some h
    else do
      let h := h.set header fun b => {b with isHole := true}
      let prevHole ← insertionPoint fuel h header
      return mergePrev (mergeNext (linkHole h prevHole header) header) header

/-- Bytes of the block whose header lies in front of an address, zero where no
header of a block in use does. -/
def checkBlockSize (h : Heap) (addr : ℕ) : ℕ :=
  if addr=0 then 0
  else if h.endAddr<addr ∨ addr<h.base then 0
  else
    let header := wsub addr headerSize
    if (h.mem header).magicNum≠BLOCK_HEADER_MAGIC_NUM then 0
    else if (h.mem header).isHole then 0
    else (h.mem header).size

end XanaduOS.HeapAllocator
