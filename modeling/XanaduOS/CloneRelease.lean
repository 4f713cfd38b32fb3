import XanaduOS.AddressSpaces
import XanaduOS.HeapReleases
import XanaduOS.SlabRuns

/-!
# Releasing a copied page directory

A copy takes its two arrays from the heap, its tables from the slab cache for
pages, and a frame for each user page. The release hands both arrays to the
slab cache, which does not know them, and gives the heap the record alone. So
the arrays stay in use, and neither a table nor a frame comes back.
-/

namespace XanaduOS.CloneRelease

open Word32 BitWords KernelDefs Chains SlabAllocator HeapAllocator HeapRuns HeapReleases
open FrameAlloc PageTables AddressSpaces

/-- Address spaces with the allocators that directories are released to. -/
structure ReleaseState where
  /-- Directories, tables, frames and memory. -/
  clone : CloneState
  /-- The array of entries of a directory, the record's `page_tables`. -/
  pageTables : ℕ → ℕ
  /-- Its array of pointers, the record's `page_tables_virt`. -/
  pageTablesVirt : ℕ → ℕ
  /-- The slab caches. -/
  slab : SlabMem
  /-- `slab_cache`, for tables. -/
  slabCache : ℕ
  /-- The heap. -/
  heap : Heap

/-- Release a directory. -/
def freePd (s : ReleaseState) (pd fuel : ℕ) : Option ReleaseState :=
  if pd=0 then some s
  else do
    let slab ← slabFree s.slab s.slabCache (s.pageTables pd) fuel
    let slab ← slabFree slab s.slabCache (s.pageTablesVirt pd) fuel
    let heap ← kfree fuel s.heap pd
    return {s with slab := slab, heap := heap}

/-- An object is free in its slab. -/
def BackInSlab (m : SlabMem) (obj : ℕ) : Prop :=
  ∃ chunk,(m.chunk chunk).dataAddr=obj ∧ ∃ chain e,
    Path (SlabRuns.nextFreeOf m) (baseChunk (m.chunk chunk).slab) chain e ∧ chunk∈chain

/-- The block that held a payload is a hole. -/
def BackInHeap (h h' : Heap) (a : Alloc) : Prop := ∃ b,Holds h b a ∧ (h'.mem b).isHole=true

/-- The array of a directory's entries, as the heap handed it out. -/
def entryArray (r : ReleaseState) (pd : ℕ) : Alloc := ⟨r.pageTables pd,PAGE_SIZE⟩

/-- The array of its pointers. -/
def pointerArray (r : ReleaseState) (pd : ℕ) : Alloc := ⟨r.pageTablesVirt pd,PAGE_SIZE⟩

/-- A payload lies in a block in use, which is not the one in front of another
address. -/
structure OwnBlock (h : Heap) (a : Alloc) (addr : ℕ) : Prop where
  /-- A block holds the payload. -/
  held : ∃ b,Holds h b a
  /-- It is in use and is another one. -/
  own : ∀ b,Holds h b a → (h.mem b).isHole=false ∧ b≠wsub addr headerSize

/-- The state after a successful copy, with the arrays that the copy was given. -/
structure Cloned (s : CloneState) (pd newPd : ℕ) (r : ReleaseState) : Prop where
  /-- The copy succeeded. -/
  copied : clonePageDir s pd newPd=some (0,r.clone)
  /-- The array of entries. -/
  pageTables : r.pageTables newPd=s.map.paging.pages 0
  /-- The array of pointers. -/
  pageTablesVirt : r.pageTablesVirt newPd=s.map.paging.pages 1
  /-- The array of entries is in use and apart from the record. -/
  entryBlock : OwnBlock r.heap (entryArray r newPd) newPd
  /-- So is the array of pointers. -/
  pointerBlock : OwnBlock r.heap (pointerArray r newPd) newPd

/-- What a release of a copy should do. -/
structure Released (s : CloneState) (pd newPd : ℕ) (r u : ReleaseState) : Prop where
  /-- The frame of each user page is clear. -/
  frames : ∀ pde<PT_SIZE,∀ pte<PT_SIZE,UserPage s pd pde pte →
    bitAt u.clone.map.frames.frames (pageFrame r.clone newPd pde pte/PAGE_SIZE)=false
  /-- Each copied table is free in the slab cache. -/
  tables : ∀ pde<PT_SIZE,userPresent ((s.map.paging.dirs pd).pageTables pde)=true →
    BackInSlab u.slab ((r.clone.map.paging.dirs newPd).pageTablesVirt pde)
  /-- The array of entries is free in the heap. -/
  entryArray : BackInHeap r.heap u.heap (entryArray r newPd)
  /-- So is the array of pointers. -/
  pointerArray : BackInHeap r.heap u.heap (pointerArray r newPd)
  /-- The source's directory is as it was. -/
  ownEntries : u.clone.map.paging.dirs pd=r.clone.map.paging.dirs pd
  /-- So are its tables. -/
  ownTables : ∀ pde<PT_SIZE,∀ pte<PT_SIZE,tableEntry u.clone pd pde pte=tableEntry r.clone pd pde pte
  /-- So are the frames of its pages. -/
  ownFrames : ∀ pde<PT_SIZE,∀ pte<PT_SIZE,UserPage s pd pde pte →
    bitAt u.clone.map.frames.frames (pageFrame s pd pde pte/PAGE_SIZE)=
      bitAt r.clone.map.frames.frames (pageFrame s pd pde pte/PAGE_SIZE)

/-! ## What a release reaches -/

/-- A release to the heap marks the block in front of the address alone. -/
theorem kfree_isHole {h h' : Heap} {addr fuel b : ℕ} (hne : b≠wsub addr headerSize)
    (call : kfree fuel h addr=some h') : (h'.mem b).isHole=(h.mem b).isHole := by
  generalize heq : wsub addr headerSize=header at hne
  rcases HeapBlocks.kfree_cases heq call with ⟨hsame,-⟩|⟨pv,-,hfreed⟩
  · rw [hsame]
  · rw [hfreed,(mergePrev_mem _ _ b).1,(mergeNext_mem _ _ b).1]
    simp only [HeapBlocks.freeBlock,linkHole,set_mem,if_neg hne]
    grind

/-- A payload in another block stays in use. -/
theorem OwnBlock.not_back {h h' : Heap} {a : Alloc} {addr fuel : ℕ} (ha : OwnBlock h a addr)
    (call : kfree fuel h addr=some h') : ¬BackInHeap h h' a := by
  rintro ⟨b,hb,hhole⟩
  obtain ⟨hused,hne⟩ := ha.own b hb
  rw [kfree_isHole hne call,hused] at hhole
  cases hhole

variable {s : CloneState} {pd newPd fuel : ℕ} {r u : ReleaseState}

/-- What a release does: both arrays go to the slab cache, the record to the
heap, and directories, tables and frames stay. -/
theorem freePd_spec (hpd : pd≠0) (call : freePd r pd fuel=some u) :
    ∃ slab,slabFree r.slab r.slabCache (r.pageTables pd) fuel=some slab ∧
      slabFree slab r.slabCache (r.pageTablesVirt pd) fuel=some u.slab ∧
      kfree fuel r.heap pd=some u.heap ∧ u.clone=r.clone := by
  rw [freePd,if_neg hpd] at call
  obtain ⟨slab,hslab,call⟩ := Option.bind_eq_some_iff.mp call
  obtain ⟨slab',hslab',call⟩ := Option.bind_eq_some_iff.mp call
  obtain ⟨heap,hheap,call⟩ := Option.bind_eq_some_iff.mp call
  cases call
  exact ⟨slab,hslab,hslab',hheap,rfl⟩

/-- A copy goes to a directory that exists. -/
theorem Cloned.newPd_ne_zero (h : Cloned s pd newPd r) : newPd≠0 := by
  rintro rfl
  have hcopied := h.copied
  rw [clonePageDir,if_pos rfl] at hcopied
  cases hcopied

/-- The arrays of a released copy are not back in the heap. -/
theorem Cloned.arrays_kept (h : Cloned s pd newPd r) (call : freePd r newPd fuel=some u) :
    ¬BackInHeap r.heap u.heap (entryArray r newPd) ∧
      ¬BackInHeap r.heap u.heap (pointerArray r newPd) := by
  obtain ⟨_,_,_,hheap,_⟩ := freePd_spec h.newPd_ne_zero call
  exact ⟨h.entryBlock.not_back hheap,h.pointerBlock.not_back hheap⟩

/-- The frames of a released copy are as before the release. -/
theorem Cloned.frames_kept (h : Cloned s pd newPd r) (call : freePd r newPd fuel=some u) :
    u.clone.map.frames=r.clone.map.frames := by
  obtain ⟨_,_,_,_,hclone⟩ := freePd_spec h.newPd_ne_zero call
  rw [hclone]

/-- No copy is released. -/
theorem not_released (h : Cloned s pd newPd r) :
    ¬∃ fuel u,freePd r newPd fuel=some u ∧ Released s pd newPd r u := by
  rintro ⟨fuel,u,call,hreleased⟩
  exact (h.arrays_kept call).1 hreleased.entryArray

/-! ## A copy without user pages -/

/-- A directory without entries, and a heap that spaces its blocks. -/
def plainSource : CloneState :=
  let s := forkState 0
  s.setPaging {s.map.paging with
    dirs := fun _ => ⟨fun _ => 0,fun _ => 0⟩
    pages := fun i => 0xC0400000+0x2000*i}

/-- Three blocks in use, for the two arrays and the record, and a hole. -/
def copyHeap : Heap where
  mem := fun b =>
    if b=0xC03F0000 then ⟨BLOCK_HEADER_MAGIC_NUM,0xC0401010,0,0xC0700000,0x11010,false⟩
    else if b=0xC0401010 then ⟨BLOCK_HEADER_MAGIC_NUM,0xC05FFFE0,0xC03F0000,0,0x1FEFD0,false⟩
    else if b=0xC05FFFE0 then ⟨BLOCK_HEADER_MAGIC_NUM,0xC0700000,0xC0401010,0,0x100020,false⟩
    else ⟨BLOCK_HEADER_MAGIC_NUM,0,0xC05FFFE0,0,0x900000,true⟩
  base := 0xC03F0000
  endAddr := 0xC1000000

/-- The state after a copy of that directory. -/
def copiedState (t : CloneState) : ReleaseState where
  clone := t
  pageTables := fun _ => 0xC0400000
  pageTablesVirt := fun _ => 0xC0402000
  slab := ⟨fun _ => ⟨0,0,0,0,0⟩,fun _ => ⟨0,0,0,0,0⟩,fun _ => ⟨0,0,PAGE_SIZE,PAGE_SIZE⟩,0⟩
  slabCache := 0xC0100000
  heap := copyHeap

/-- Its blocks. -/
theorem copyHeap_chained {b : ℕ} (hb : Chained copyHeap b) :
    b=0xC03F0000 ∨ b=0xC0401010 ∨ b=0xC05FFFE0 ∨ b=0xC0700000 := by
  induction hb with
  | base => exact Or.inl rfl
  | next _ hn ih =>
    obtain rfl|rfl|rfl|rfl := ih
    · exact Or.inr (Or.inl rfl)
    · exact Or.inr (Or.inr (Or.inl rfl))
    · exact Or.inr (Or.inr (Or.inr rfl))
    · exact absurd rfl hn

/-- The block of the array of entries. -/
theorem copyHeap_entryArray : OwnBlock copyHeap ⟨0xC0400000,PAGE_SIZE⟩ 0xC0600000 := by
  refine ⟨⟨0xC03F0000,Chained.base,by unfold Inside; decide⟩,fun b hb => ?_⟩
  obtain ⟨hchained,hlo,hhi⟩ := hb
  obtain rfl|rfl|rfl|rfl := copyHeap_chained hchained
  all_goals
    revert hlo hhi
    decide

/-- The block of the array of pointers. -/
theorem copyHeap_pointerArray : OwnBlock copyHeap ⟨0xC0402000,PAGE_SIZE⟩ 0xC0600000 := by
  refine ⟨⟨0xC0401010,Chained.base.next (by decide),by unfold Inside; decide⟩,fun b hb => ?_⟩
  obtain ⟨hchained,hlo,hhi⟩ := hb
  obtain rfl|rfl|rfl|rfl := copyHeap_chained hchained
  all_goals
    revert hlo hhi
    decide

/-- The directory is copied. -/
theorem plainSource_cloned :
    ∃ t,Cloned plainSource 0xC0200000 0xC0600000 (copiedState t) := by
  obtain ⟨t,ht⟩ := @cloneDirLoop_returns plainSource.popArrays 0xC0200000 0xC0600000 (by norm_num)
    PT_SIZE 0 fun j _ _ => by
      change userPresent 0=false
      decide
  refine ⟨t,?_,rfl,rfl,copyHeap_entryArray,copyHeap_pointerArray⟩
  rw [clonePageDir,if_neg (by norm_num)]
  simp only
  rwa [if_neg (by decide),if_neg (by norm_num)]

/-- The copy of a directory without entries. -/
theorem not_released_plain : ∃ t,Cloned plainSource 0xC0200000 0xC0600000 (copiedState t) ∧
    ¬∃ fuel u,freePd (copiedState t) 0xC0600000 fuel=some u ∧
      Released plainSource 0xC0200000 0xC0600000 (copiedState t) u := by
  obtain ⟨t,ht⟩ := plainSource_cloned
  exact ⟨t,ht,not_released ht⟩

/-- Its arrays stay in use when it is released. -/
theorem released_counterexample :
    ¬∀ (s : CloneState) (pd newPd : ℕ) (r : ReleaseState),Cloned s pd newPd r →
      ∃ fuel u,freePd r newPd fuel=some u ∧ Released s pd newPd r u := by
  intro h
  obtain ⟨t,ht⟩ := plainSource_cloned
  obtain ⟨fuel,u,call,hreleased⟩ := h _ _ _ _ ht
  exact (ht.arrays_kept call).1 hreleased.entryArray

end XanaduOS.CloneRelease
