import XanaduOS.HeapMapping
import XanaduOS.HeapRequests

/-!
# Pages behind the kernel heap

The heap and the mapping of its pages need each other: a heap that grows asks
for mapped pages, and a mapping that misses a page table asks the heap for one.
The heap's part takes the page mapper as a parameter, the mapping's part the
pages that the heap returns. Here both are put together: a page mapper whose
calls are mappings with pages from the heap takes no more of them than page
tables, and writes nothing of the heap but these, as long as it is asked for
the pages of one table at most.
-/

namespace XanaduOS.HeapBacking

open Word32 KernelDefs HeapAllocator HeapBlocks HeapRuns HeapRequests FrameAlloc FrameGroups
open PageTables TableAllocation MemoryMapping PageFaults HeapMapping

/-- A record lies apart from a new page table, which is cleared, and from the
entries written through its pointer. -/
def ApartFrom (writes : List (ℕ×ℕ)) (p y : ℕ) : Prop :=
  (y+headerSize≤p ∨ p+PAGE_SIZE≤y) ∧
    ∀ j,(p,j)∈writes → y+headerSize≤p+4*j ∨ p+4*j+4≤y

/-- So many pages are taken from the heap for page tables, one after the other.
Records apart from a new table keep their contents; tables that were present
before lie where the heap keeps no records. -/
inductive PagesTaken (mapper : Heap → ℕ → ℕ → Option (Heap×ℕ)) (writes : List (ℕ×ℕ)) :
    (ℕ → ℕ) → ℕ → Heap → Heap → Prop
  /-- No page. -/
  | done (pages : ℕ → ℕ) (h : Heap) : PagesTaken mapper writes pages 0 h h
  /-- One page before the others. -/
  | page {pages : ℕ → ℕ} {n fuel : ℕ} {h h₁ h' : Heap} {mem : ℕ → BlockHeader}
      (call : kmallocAlign mapper fuel h PAGE_SIZE PAGE_SIZE=some (h₁,pages 0))
      (frame : ∀ y,ApartFrom writes (pages 0) y → mem y=h₁.mem y)
      (others : PagesTaken mapper writes (fun i => pages (i+1)) n {h₁ with mem := mem} h') :
      PagesTaken mapper writes pages (n+1) h h'

/-- The mapper's calls are mappings: each one is a run of `mmap_pages` in some
state of the paging code whose new pages, no two of them the same, the heap
returns. -/
def Backed (mapper : Heap → ℕ → ℕ → Option (Heap×ℕ)) : Prop :=
  ∀ {h h' : Heap} {addr npages ret : ℕ},mapper h addr npages=some (h',ret) →
    ∃ s r n,HeapMapping.mmapPages s addr npages=some r ∧ r.ret=ret ∧
      Function.Injective s.paging.pages ∧
      r.state.paging.pages=(fun i => s.paging.pages (i+n)) ∧
      PagesTaken mapper r.writes s.paging.pages n h h'

variable {s : FaultState} {r : MapPagesResult} {addr npages pde : ℕ}

/-! ## Pages that a mapping takes -/

/-- A request for one table takes one page at most. -/
theorem mapAllocNpt_pages {p : Paging} {pd q flags : ℕ} {m : NptResult}
    (h : mapAllocNpt p pd 1 q flags=some m) : ∃ n≤1,m.paging.pages=fun i => p.pages (i+n) := by
  rw [mapAllocNpt] at h
  split at h
  · cases h
    exact ⟨0,Nat.zero_le 1,rfl⟩
  simp only [mapAllocNptLoop] at h
  split at h
  · cases h
    exact ⟨0,Nat.zero_le 1,rfl⟩
  split at h
  · cases h
    exact ⟨0,Nat.zero_le 1,rfl⟩
  cases halloc : allocPt p flags with
  | none =>
    rw [halloc] at h
    contradiction
  | some new =>
    obtain ⟨newPt,newEntry,t⟩ := new
    have hpages : t.pages=fun i => p.pages (i+1) := by
      simp only [allocPt] at halloc
      split at halloc
      · contradiction
      · cases halloc
        rfl
    simp only [halloc] at h
    split at h <;> cases h <;> exact ⟨1,Nat.le_refl 1,hpages⟩

/-- Writing entries takes none. -/
theorem storeEntries_pages {p t : Paging} {place : ℕ×ℕ} {entries : List ℕ}
    (h : storeEntries p place entries=some t) : t.pages=p.pages := by
  rw [storeEntries] at h
  split at h
  · contradiction
  · cases h
    rfl

/-- A search finds no more entries than were asked for. -/
theorem findAllocNframes_length {a : FrameAllocator} {n p flags : ℕ} {f : FindResult} (hn : 0<n)
    (h : findAllocNframes a n p flags=some f) : f.addrs.length≤n := by
  rw [findAllocNframes] at h
  split at h
  · cases h
    exact Nat.zero_le n
  · have hlen : f.addrs.length=
        ((groupsPicked a.frames n a.framesNum 0 0).flatMap Group.frameIds).length := by
      rw [(findLoop_groups hn h).1,List.nil_append,List.length_flatMap,List.length_flatMap]
      refine congrArg List.sum (List.map_congr_left fun g _ => ?_)
      simp [setNallocAddrs,Group.frameIds]
    rcases findLoop_ret hn h with ⟨-,hret⟩|⟨-,hret⟩ <;> omega

/-- What the loop over tables takes and writes, whatever it returns: a page for
each table at most, and entries below the number of pages. -/
theorem mapPagesLoop_taken (left : ℕ) {i : ℕ} {writes : List (ℕ×ℕ)} (hn : 0<npages)
    (hwrites : ∀ w∈writes,w.2<npages)
    (h : mapPagesLoop pde 0 npages left i s writes=some r) :
    (∃ n≤left,r.state.paging.pages=fun j => s.paging.pages (j+n)) ∧
      ∀ w∈r.writes,w.2<npages := by
  induction left generalizing i s writes with
  | zero =>
    cases h
    exact ⟨⟨0,Nat.le_refl 0,rfl⟩,hwrites⟩
  | succ left ih =>
    rw [mapPagesLoop] at h
    split at h
    · cases h
      exact ⟨⟨0,Nat.zero_le _,rfl⟩,hwrites⟩
    cases hm : mapAllocNpt s.paging s.paging.curPd 1 (pde+i) (R_W ||| PRESENT) with
    | none => simp only [hm] at h; contradiction
    | some m =>
      obtain ⟨n,hn1,hpages⟩ := mapAllocNpt_pages hm
      simp only [hm] at h
      split at h
      · cases h
        exact ⟨⟨n,by omega,hpages⟩,hwrites⟩
      cases hf : findAllocNframes s.frames npages (m.pts.headD 0+4*0) (R_W ||| PRESENT) with
      | none => simp only [hf] at h; contradiction
      | some f =>
        simp only [hf] at h
        cases hstore : storeEntries m.paging (m.pts.headD 0,0) f.addrs with
        | none => simp only [hstore] at h; contradiction
        | some paging =>
          simp only [hstore] at h
          have hstored : paging.pages=fun j => s.paging.pages (j+n) :=
            (storeEntries_pages hstore).trans hpages
          have hall : ∀ w∈writes++(List.range f.addrs.length).map fun k => (m.pts.headD 0,0+k),
              w.2<npages := by
            intro w hw
            rcases List.mem_append.mp hw with hw|hw
            · exact hwrites w hw
            · obtain ⟨k,hk,rfl⟩ := List.mem_map.mp hw
              have hlen := findAllocNframes_length hn hf
              rw [List.mem_range] at hk
              simp only
              omega
          split at h
          · cases h
            exact ⟨⟨n,by omega,hstored⟩,hall⟩
          · obtain ⟨⟨n',hn',hpages'⟩,hinside⟩ := ih hall h
            refine ⟨⟨n'+n,by omega,?_⟩,hinside⟩
            rw [hpages',hstored]
            funext j
            exact congrArg s.paging.pages (Nat.add_assoc j n' n)

/-- What a mapping takes and writes, whatever it returns. -/
theorem mmapPages_taken (h : HeapMapping.mmapPages s addr npages=some r) :
    (∃ n≤divUp npages PT_SIZE,r.state.paging.pages=fun i => s.paging.pages (i+n)) ∧
      ∀ w∈r.writes,w.2<npages := by
  have hnone : r=⟨0,s,[]⟩ ∨ r=⟨EINVAL,s,[]⟩ →
      (∃ n≤divUp npages PT_SIZE,r.state.paging.pages=fun i => s.paging.pages (i+n)) ∧
        ∀ w∈r.writes,w.2<npages := by
    rintro (rfl|rfl) <;> exact ⟨⟨0,Nat.zero_le _,rfl⟩,fun w hw => by cases hw⟩
  simp only [HeapMapping.mmapPages,mapPages] at h
  split at h
  · exact hnone (Or.inr (Option.some.inj h).symm)
  · next hpte =>
    rw [not_not.mp hpte] at h
    rcases Nat.eq_zero_or_pos npages with rfl|hn
    · exact hnone (Or.inl (Option.some.inj h).symm)
    · exact mapPagesLoop_taken _ hn (fun w hw => by cases hw) h

/-! ## Page tables of the heap -/

variable {mapper : Heap → ℕ → ℕ → Option (Heap×ℕ)} {h h' : Heap}

/-- Fewer page tables are within a larger number. -/
theorem TableRequests.mono {n k : ℕ} (hreq : TableRequests mapper n h h') (hle : n≤k) :
    TableRequests mapper k h h' := by
  induction hreq generalizing k with
  | done n h => exact .done k h
  | table call frame others ih =>
    obtain ⟨k,rfl⟩ := Nat.exists_eq_add_of_lt hle
    exact .table call frame (ih (by omega))

/-- Pages taken for tables whose entries are written within them are page tables
of the heap. -/
theorem PagesTaken.requests {writes : List (ℕ×ℕ)} {pages : ℕ → ℕ} {n : ℕ}
    (hinside : ∀ w∈writes,w.2<PT_SIZE) (ht : PagesTaken mapper writes pages n h h') :
    TableRequests mapper n h h' := by
  induction ht with
  | done pages h => exact .done 0 h
  | page call frame others ih =>
    refine .table call (fun y hy => frame y ⟨hy,fun j hj => ?_⟩) ih
    have hlt := hinside _ hj
    simp only [PT_SIZE,PAGE_SIZE] at hlt hy ⊢
    omega

/-- A page mapper that is backed by mappings touches the heap only for page
tables when it is asked for the pages of one table at most. -/
theorem Backed.pageTables (hb : Backed mapper) : PageTables mapper := by
  intro h h' addr npages ret hfits call
  obtain ⟨s,r,n,hrun,-,hinj,hpages,htaken⟩ := hb call
  obtain ⟨⟨n',hn',hpages'⟩,hwrites⟩ := mmapPages_taken hrun
  -- the pages are different, so those left over tell how many were taken
  have heq : n=n' := by
    have hzero := congrFun (hpages.symm.trans hpages') 0
    simp only [Nat.zero_add] at hzero
    exact hinj hzero
  exact TableRequests.mono
    (htaken.requests fun w hw => Nat.lt_of_lt_of_le (hwrites w hw) hfits) (heq▸hn')

/-- A request that is served from a heap backed by mappings returns what its
caller relies on. -/
theorem Backed.resultSound (hb : Backed mapper) {t : HeapSystem} {siz alignment fuel p : ℕ}
    (ht : SystemValid t) (hsiz : siz≠0) (hd : alignment∣2^32)
    (hserved : Served t.heap siz alignment) (hp : p≠0)
    (call : kmallocAlign mapper fuel t.heap siz alignment=some (h',p)) :
    ResultSound t.heap siz alignment h' p :=
  SystemValid.resultSound hb.pageTables ht hsiz hd hserved hp call

/-- A mapper of two pages at the first address, whose table is present. -/
def pairMapper (h : Heap) (addr npages : ℕ) : Option (Heap×ℕ) :=
  if addr=0 ∧ npages=2 then some (h,0) else none

/-- It is backed by mapping the pages once more. -/
theorem pairMapper_backed : Backed pairMapper := by
  intro h h' addr npages ret call
  rw [pairMapper] at call
  split at call
  · next hpair =>
    obtain ⟨rfl,rfl⟩ := hpair
    cases call
    have hrun : ∃ first r,HeapMapping.mmapPages faultState 0 2=some first ∧
        HeapMapping.mmapPages first.state 0 2=some r ∧ r.ret=0 ∧
        r.state.paging.pages=first.state.paging.pages ∧
        first.state.paging.pages=fun i => faultState.paging.pages (i+1) :=
      ⟨_,_,rfl,rfl,rfl,rfl,rfl⟩
    obtain ⟨first,r,-,hr,hret,hkept,hpages⟩ := hrun
    refine ⟨first.state,r,0,hr,hret,fun i j heq => ?_,hkept,.done _ _⟩
    rw [hpages] at heq
    simp only [faultState,mappedDirectory,VADDR,PAGE_SIZE,PT_SIZE] at heq
    omega
  · contradiction

end XanaduOS.HeapBacking
