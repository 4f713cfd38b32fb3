import Mathlib.Data.List.GetD
import XanaduOS.BuddyBlocks
import XanaduOS.FrameAlloc
import XanaduOS.PageTables

/-!
# Mapping virtual pages

A mapping takes a virtual block from a buddy allocator, makes the table of the
block's first page present, and writes the entries of all pages through one
pointer into that table. So it maps what it returns, and writes nothing else,
exactly where the block served does not reach past the end of its table.
-/

namespace XanaduOS.MemoryMapping

open Word32 BitWords KernelDefs BuddyFrameAlloc BuddyBlocks FrameAlloc PageTables

/-- The paging state, the allocator of virtual blocks, and the frame bitmap. -/
structure MapState where
  /-- Directories and tables. -/
  paging : Paging
  /-- Allocator of virtual blocks. -/
  buddy : BuddyAlloc
  /-- Physical frames. -/
  frames : FrameAllocator

/-- Outcome of a request for a virtual block and its table. -/
structure TableResult where
  /-- Zero on success. -/
  ret : ℕ
  /-- The state afterwards. -/
  state : MapState
  /-- What was written through `virt_addr`. -/
  addrs : List ℕ
  /-- Table and index that `*pt_ptr` points to. -/
  pt : ℕ×ℕ

/-- Take a virtual block and make its table present. A request for no page
leaves the address unwritten, and one for more than a table of pages writes
behind it: neither has a result. -/
def knmmapTable (s : MapState) (pd pageNum flags : ℕ) : Option TableResult :=
  let ptNum := divUp pageNum PT_SIZE
  match buddyAllocFrames s.buddy 1 pageNum with
  | none => none
  | some r =>
    let s := {s with buddy := r.buddy}
    if r.ret≠0 then some ⟨r.ret,s,r.addrs,(0,0)⟩
    else
      match r.addrs with
      | [virtAddr] =>
        let (pde,pte) := getPdePte virtAddr
        match mapAllocNpt s.paging pd ptNum pde flags with
        | none => none
        | some m =>
          let s := {s with paging := m.paging}
          if m.ret≠0 then some ⟨m.ret,s,[virtAddr],(0,0)⟩
          else
            match m.pts with
            | [pt] => some ⟨0,s,[virtAddr],(pt,pte)⟩
            | _ => none
      | _ => none

/-- Write entries from a table's index on. The null page is not mapped. -/
def storeEntries (s : Paging) (pt : ℕ×ℕ) (entries : List ℕ) : Option Paging :=
  if pt.1=0 ∧ entries≠[] then none
  else some (s.setTable pt.1 fun j =>
    if pt.2≤j ∧ j<pt.2+entries.length then entries.getD (j-pt.2) 0 else s.tables pt.1 j)

/-- Outcome of a mapping. -/
structure MmapResult where
  /-- Zero on success. -/
  ret : ℕ
  /-- The state afterwards. -/
  state : MapState
  /-- What was written through `virt_addr`. -/
  addrs : List ℕ
  /-- Table and index of the first entry written. -/
  pt : ℕ×ℕ
  /-- The entries written from there on. -/
  entries : List ℕ

/-- The frames of a mapping: the given range, or any. The pointer is null where
the table is and the index is zero. -/
def takeFrames (s : FrameAllocator) (physAddr pageNum flags : ℕ) (pt : ℕ×ℕ) : Option FindResult :=
  if physAddr≠0 then some (allocNframes s.frames pageNum physAddr (pt.1+4*pt.2) flags)
  else findAllocNframes s pageNum (pt.1+4*pt.2) flags

/-- Map pages to a physical range, or to any frames. -/
def knmmap (s : MapState) (pd physAddr pageNum flags : ℕ) : Option MmapResult :=
  match knmmapTable s pd pageNum flags with
  | none => none
  | some r =>
    if r.ret≠0 then some ⟨r.ret,r.state,r.addrs,r.pt,[]⟩
    else
      match takeFrames r.state.frames physAddr pageNum flags r.pt with
      | none => none
      | some f =>
        match storeEntries r.state.paging r.pt f.addrs with
        | none => none
        | some paging =>
          let frames := {r.state.frames with frames := f.frames}
          some ⟨f.ret,⟨paging,r.state.buddy,frames⟩,r.addrs,r.pt,f.addrs⟩

/-- Give a virtual block back, make its pages not present, and release frames
numbered like the virtual range. -/
def knmunmapContiguous (s : MapState) (pd virtAddr pageNum : ℕ) : Option MapState :=
  match buddyFreeFrames s.buddy virtAddr pageNum with
  | none => none
  | some buddy =>
    let (pde,pte) := getPdePte virtAddr
    match unmapPages s.paging pd pde pte pageNum with
    | none => none
    | some paging =>
      let frames := deallocNframes s.frames.frames virtAddr pageNum
      some ⟨paging,buddy,{s.frames with frames := frames}⟩

/-! ## The block that serves a request -/

/-- The head of the first list in use, from an order on. -/
def firstBlock (buddy : BuddyAlloc) : ℕ → ℕ → Option ℕ
  | 0,_ => none
  | left+1,i =>
    if (buddy.freeArea i).numFree=0 then firstBlock buddy left (i+1)
    else
      match (buddy.freeArea i).freeList with
      | [] => firstBlock buddy left (i+1)
      | block::_ => some block

/-- The free block that a request is served from. -/
def servingBlock (buddy : BuddyAlloc) (nframes : ℕ) : Option ℕ :=
  firstBlock buddy (MAX_ORDER-getBuddyOrder nframes) (getBuddyOrder nframes)

variable {buddy : BuddyAlloc}

/-- Lists before the first order do not matter. -/
theorem firstBlock_setArea {left i k : ℕ} (hk : k < i) (area : FreeArea) :
    firstBlock (buddy.setArea k area) left i=firstBlock buddy left i := by
  induction left generalizing i with
  | zero => rfl
  | succ left ih =>
    have hne : i≠k := by omega
    simp only [firstBlock,BuddyAlloc.setArea,Function.update_of_ne hne]
    have hrest := ih (i:=i+1) (by omega)
    simp only [BuddyAlloc.setArea] at hrest
    rw [hrest]

/-- The first block is on a list. -/
theorem firstBlock_mem {left i block : ℕ} (h : firstBlock buddy left i=some block) :
    ∃ order,i≤order ∧ order < i+left ∧ block∈(buddy.freeArea order).freeList := by
  induction left generalizing i with
  | zero => cases h
  | succ left ih =>
    have hnext : firstBlock buddy left (i+1)=some block →
        ∃ order,i≤order ∧ order < i+(left+1) ∧ block∈(buddy.freeArea order).freeList := by
      intro hrest
      obtain ⟨order,hlo,hhi,hmem⟩ := ih hrest
      exact ⟨order,by omega,by omega,hmem⟩
    rw [firstBlock] at h
    split at h
    · exact hnext h
    · split at h
      · exact hnext h
      · rename_i head rest hlist
        cases h
        exact ⟨i,Nat.le_refl _,by omega,by rw [hlist]; exact List.mem_cons_self⟩

/-- Splitting returns the address that it was given. -/
theorem buddySlice_addr {addr target start a : ℕ} {buddy' : BuddyAlloc}
    (h : buddySlice addr target start buddy=some (buddy',a)) : a=addr := by
  induction start generalizing buddy with
  | zero => cases h
  | succ start ih =>
    rw [buddySlice] at h
    split at h
    · exact ih h
    · cases h
      rfl

/-- The search upwards hands out the first block that it meets. -/
theorem searchUp_serves {order left i : ℕ} {r : AllocResult}
    (h : searchUp order left i buddy=some r) (hret : r.ret=0) :
    ∃ block,r.addrs=[block] ∧ firstBlock buddy left i=some block := by
  induction left generalizing i buddy with
  | zero =>
    cases h
    contradiction
  | succ left ih =>
    simp only [searchUp] at h
    rw [firstBlock]
    split at h
    · rename_i hzero
      rw [if_pos hzero]
      exact ih h
    · rename_i hzero
      rw [if_neg hzero]
      cases hlist : (buddy.freeArea i).freeList with
      | nil =>
        simp only [hlist] at h
        split at h
        · obtain ⟨block,haddrs,hfirst⟩ := ih h
          rw [firstBlock_setArea (Nat.lt_succ_self i)] at hfirst
          exact ⟨block,haddrs,hfirst⟩
        · cases h
      | cons upper rest =>
        simp only [hlist] at h
        obtain ⟨taken,htake,h⟩ := Option.bind_eq_some_iff.mp h
        obtain ⟨split,hslice,h⟩ := Option.bind_eq_some_iff.mp h
        cases h
        exact ⟨split.2,rfl,by rw [buddySlice_addr hslice]⟩

/-- A successful request for up to a table of pages gets the serving block. -/
theorem buddyAllocFrames_serves {n : ℕ} {r : AllocResult} (h0 : 0<n) (h1 : n≤PT_SIZE)
    (h : buddyAllocFrames buddy 1 n=some r) (hret : r.ret=0) :
    ∃ block,r.addrs=[block] ∧ servingBlock buddy n=some block := by
  rw [buddyAllocFrames_eq Nat.one_ne_zero h0 h1] at h
  have horder := getBuddyOrder_lt n
  have hleft : MAX_ORDER-getBuddyOrder n=MAX_ORDER-(getBuddyOrder n+1)+1 := by omega
  rw [servingBlock,hleft,firstBlock]
  simp only [buddyAllocFramesMaxOrder] at h
  split at h
  · rename_i hzero
    rw [if_pos hzero]
    exact searchUp_serves h hret
  · rename_i hzero
    rw [if_neg hzero]
    cases hlist : (buddy.freeArea (getBuddyOrder n)).freeList with
    | nil =>
      simp only [hlist] at h
      cases h
    | cons free rest =>
      simp only [hlist] at h
      obtain ⟨taken,htake,h⟩ := Option.bind_eq_some_iff.mp h
      cases h
      exact ⟨free,rfl,rfl⟩

/-! ## What a successful mapping did -/

variable {s : MapState} {pd phys n flags : ℕ} {r : MmapResult}

/-- The stages of a successful request for a block and its table. -/
structure Taking (s : MapState) (pd n : ℕ) (q : TableResult) (virtAddr pt : ℕ) : Prop where
  /-- The block taken is the serving block. -/
  served : servingBlock s.buddy n=some virtAddr
  /-- The allocator handed it out. -/
  taken : buddyAllocFrames s.buddy 1 n=some ⟨0,q.state.buddy,[virtAddr]⟩
  /-- It was written through the pointer. -/
  addrs_eq : q.addrs=[virtAddr]
  /-- The directory is not null. -/
  directory : pd≠0
  /-- The table of its first page was made present. -/
  installed : Installed s.paging pd (getPdePte virtAddr).1 pt q.state.paging
  /-- Entries are to be written from its first page on. -/
  pt_eq : q.pt=(pt,(getPdePte virtAddr).2)
  /-- No frame was taken. -/
  frames_eq : q.state.frames=s.frames

/-- A successful request for up to a table of pages went through its stages. -/
theorem knmmapTable_taking {q : TableResult} (h0 : 0<n) (h1 : n≤PT_SIZE)
    (h : knmmapTable s pd n flags=some q) (hret : q.ret=0) :
    ∃ virtAddr pt,Taking s pd n q virtAddr pt := by
  have hnum : divUp n PT_SIZE=1 := divUp_eq_one h0 h1
  simp only [knmmapTable,hnum] at h
  split at h
  · cases h
  rename_i a ha
  split at h
  · rename_i hne
    cases h
    exact absurd hret hne
  rename_i haret
  have haret : a.ret=0 := not_not.mp haret
  obtain ⟨block,haddrs,hserved⟩ := buddyAllocFrames_serves h0 h1 ha haret
  simp only [haddrs] at h
  split at h
  · cases h
  rename_i m hm
  split at h
  · rename_i hne
    cases h
    exact absurd hret hne
  rename_i hmret
  obtain ⟨hpd,pt,hpts,hinstalled⟩ := mapAllocNpt_one hm (not_not.mp hmret)
  simp only [hpts] at h
  cases h
  refine ⟨block,pt,hserved,?_,rfl,hpd,hinstalled,rfl,rfl⟩
  obtain ⟨ret,after,written⟩ := a
  cases haret
  cases haddrs
  exact ha

/-- The stages of a successful mapping: the block, its table, the frames, and
the entries written. -/
structure Mapping (s : MapState) (pd phys n flags : ℕ) (r : MmapResult) (virtAddr pt : ℕ)
    (mid : Paging) (f : FindResult) : Prop where
  /-- The block taken is the serving block. -/
  served : servingBlock s.buddy n=some virtAddr
  /-- The allocator handed it out. -/
  taken : buddyAllocFrames s.buddy 1 n=some ⟨0,r.state.buddy,[virtAddr]⟩
  /-- It was written through the pointer. -/
  addrs_eq : r.addrs=[virtAddr]
  /-- The directory is not null. -/
  directory : pd≠0
  /-- The table of its first page was made present. -/
  installed : Installed s.paging pd (getPdePte virtAddr).1 pt mid
  /-- Entries are written from its first page on. -/
  pt_eq : r.pt=(pt,(getPdePte virtAddr).2)
  /-- Frames were found. -/
  found : takeFrames s.frames phys n flags (pt,(getPdePte virtAddr).2)=some f
  /-- The search succeeded. -/
  found_ret : f.ret=0
  /-- Its entries were written. -/
  entries_eq : r.entries=f.addrs
  /-- They went into the table. -/
  stored : storeEntries mid (pt,(getPdePte virtAddr).2) f.addrs=some r.state.paging
  /-- The bitmap is that of the search. -/
  frames_eq : r.state.frames.frames=f.frames

/-- A successful mapping of up to a table of pages went through its stages. -/
theorem knmmap_mapping (h0 : 0<n) (h1 : n≤PT_SIZE) (h : knmmap s pd phys n flags=some r)
    (hret : r.ret=0) : ∃ virtAddr pt mid f,Mapping s pd phys n flags r virtAddr pt mid f := by
  simp only [knmmap] at h
  split at h
  · cases h
  rename_i q hq
  split at h
  · rename_i hne
    cases h
    exact absurd hret hne
  rename_i hqret
  obtain ⟨virtAddr,pt,k⟩ := knmmapTable_taking h0 h1 hq (not_not.mp hqret)
  split at h
  · cases h
  rename_i f hf
  split at h
  · cases h
  rename_i paging hpaging
  rw [k.frames_eq,k.pt_eq] at hf
  rw [k.pt_eq] at hpaging
  cases h
  exact ⟨virtAddr,pt,q.state.paging,f,k.served,k.taken,k.addrs_eq,k.directory,k.installed,
    k.pt_eq,hf,hret,rfl,hpaging,rfl⟩

/-! ## Mapping a physical range -/

/-- Table and index of a page's entry. -/
def pageEntry (s : Paging) (pd virtAddr : ℕ) : ℕ×ℕ :=
  ((s.dirs pd).pageTablesVirt (getPdePte virtAddr).1,(getPdePte virtAddr).2)

/-- An entry of the table that is made for the first page of a block. -/
def NewEntry (s : Paging) (pd virtAddr pt j : ℕ) : Prop :=
  tabPresent ((s.dirs pd).pageTables (getPdePte virtAddr).1)=false ∧ pt=s.pages 0 ∧ j<PT_SIZE

/-- What a mapping to a physical range is for. -/
structure MapsRange (s : MapState) (pd phys n virtAddr : ℕ) (r : MmapResult) : Prop where
  /-- Every byte of the pages translates to its own in the range. -/
  translated : ∀ i<n,∀ off<PAGE_SIZE,
    toPhysAddr r.state.paging pd (wadd virtAddr (i*PAGE_SIZE+off))=wadd phys (i*PAGE_SIZE+off)
  /-- Every entry written is that of one of the pages. -/
  inside : ∀ i < r.entries.length,∃ k<n,
    (r.pt.1,r.pt.2+i)=pageEntry r.state.paging pd (wadd virtAddr (k*PAGE_SIZE))
  /-- Other entries are kept, and those of a new table are zero. -/
  others : ∀ pt j,(∀ k<n,(pt,j)≠pageEntry r.state.paging pd (wadd virtAddr (k*PAGE_SIZE))) →
    r.state.paging.tables pt j=s.paging.tables pt j ∨
      (NewEntry s.paging pd virtAddr pt j ∧ r.state.paging.tables pt j=0)

/-- Free blocks lie at multiples of their size behind the start, below the top
of the address space. -/
def BlocksPlaced (start : ℕ) (buddy : BuddyAlloc) : Prop :=
  ∀ order<MAX_ORDER,∀ block∈(buddy.freeArea order).freeList,
    start≤block ∧ blockSize order∣block-start ∧ block+blockSize order≤2^32

/-- The block that serves a request ends within the table of its first page. -/
def FitsTable (buddy : BuddyAlloc) (n : ℕ) : Prop :=
  ∀ block,servingBlock buddy n=some block → (getPdePte block).2+n≤PT_SIZE

variable {start : ℕ} {virtAddr pt : ℕ} {mid : Paging} {f : FindResult}

/-- Where the serving block lies. -/
theorem BlocksPlaced.serving (h : BlocksPlaced start buddy) {block : ℕ}
    (hb : servingBlock buddy n=some block) : ∃ order,getBuddyOrder n≤order ∧ order<MAX_ORDER ∧
      start≤block ∧ blockSize order∣block-start ∧ block+blockSize order≤2^32 := by
  obtain ⟨order,hlo,hhi,hmem⟩ := firstBlock_mem hb
  have horder := getBuddyOrder_lt n
  have hlt : order<MAX_ORDER := by omega
  exact ⟨order,hlo,hlt,h order hlt block hmem⟩

/-- The serving block starts at a page. -/
theorem BlocksPlaced.aligned (h : BlocksPlaced start buddy) (hstart : PAGE_SIZE∣start) {block : ℕ}
    (hb : servingBlock buddy n=some block) : PAGE_SIZE∣block ∧ block<2^32 := by
  obtain ⟨order,_,_,hle,hd,hend⟩ := h.serving hb
  have hpos := blockSize_pos order
  have hpage : PAGE_SIZE∣block-start := dvd_trans (Nat.dvd_mul_right _ _) hd
  refine ⟨?_,by omega⟩
  rw [←Nat.sub_add_cancel hle]
  exact Nat.dvd_add hpage hstart

/-- Blocks for up to `2^k` pages fit their tables in an allocator that starts
at a multiple of so many pages: every request of an allocator that starts at
a multiple of the highest block. -/
theorem BlocksPlaced.fitsTable {k : ℕ} (h : BlocksPlaced start buddy) (hk : k≤10)
    (hstart : blockSize k∣start) (hn : n≤2^k) : FitsTable buddy n := by
  intro block hb
  obtain ⟨order,hlo,hhi,hle,hd,_⟩ := h.serving hb
  have hpow : 2^k≤2^10 := Nat.pow_le_pow_right (by norm_num) hk
  have hfits : n≤2^order := (getBuddyOrder_isLeast (hn.trans hpow)).1.trans
    (Nat.pow_le_pow_right (by norm_num) hlo)
  have hn' : n≤2^min k order := by
    rcases le_total k order with hko|hko
    · rwa [min_eq_left hko]
    · rwa [min_eq_right hko]
  have hsize : ∀ m,min k order ≤ m → blockSize (min k order)∣blockSize m :=
    fun m hm => Nat.mul_dvd_mul_left _ (Nat.pow_dvd_pow 2 hm)
  have hblock : blockSize (min k order)∣block := by
    rw [←Nat.sub_add_cancel hle]
    exact Nat.dvd_add ((hsize order (min_le_right _ _)).trans hd)
      ((hsize k (min_le_left _ _)).trans hstart)
  obtain ⟨q,rfl⟩ := hblock
  have hpage : blockSize (min k order)*q/PAGE_SIZE=2^min k order*q := by
    rw [blockSize,Nat.mul_assoc,Nat.mul_div_cancel_left _ (by norm_num)]
  have htable : 2^min k order∣PT_SIZE :=
    Nat.pow_dvd_pow 2 ((min_le_left k order).trans hk)
  obtain ⟨w,hw⟩ := htable
  rw [getPdePte_eq,hpage]
  change 2^min k order*q%PT_SIZE+n≤PT_SIZE
  rw [hw,Nat.mul_mod_mul_left]
  have hlt : q%w<w := Nat.mod_lt q (Nat.pos_of_ne_zero fun hz => by simp [hz] at hw)
  calc 2^min k order*(q%w)+n≤2^min k order*(q%w)+2^min k order := Nat.add_le_add_left hn' _
    _=2^min k order*(q%w+1) := by ring
    _≤2^min k order*w := Nat.mul_le_mul_left _ hlt

/-- What a store of entries leaves. -/
theorem storeEntries_spec {p t : Paging} {at_ : ℕ×ℕ} {entries : List ℕ}
    (h : storeEntries p at_ entries=some t) : t.dirs=p.dirs ∧ (entries≠[] → at_.1≠0) ∧
      ∀ q j,t.tables q j=if q=at_.1 ∧ at_.2≤j ∧ j<at_.2+entries.length then
        entries.getD (j-at_.2) 0 else p.tables q j := by
  unfold storeEntries at h
  split at h
  · cases h
  rename_i hnull
  cases h
  refine ⟨rfl,fun hne hz => hnull ⟨hz,hne⟩,fun q j => ?_⟩
  by_cases hq : q=at_.1
  · subst hq
    simp [Paging.setTable]
  · simp [Paging.setTable,hq]

/-- A store of entries keeps the current directory. -/
theorem storeEntries_curPd {p t : Paging} {at_ : ℕ×ℕ} {entries : List ℕ}
    (h : storeEntries p at_ entries=some t) : t.curPd=p.curPd := by
  unfold storeEntries at h
  split at h
  · cases h
  · cases h
    rfl

/-- The table of the first page after a mapping. -/
theorem Mapping.reached (m : Mapping s pd phys n flags r virtAddr pt mid f) :
    (r.state.paging.dirs pd).pageTablesVirt=
      Function.update (s.paging.dirs pd).pageTablesVirt (getPdePte virtAddr).1 pt := by
  rw [(storeEntries_spec m.stored).1,m.installed.virt]

/-- The entry of a page of the first table after a mapping. -/
theorem Mapping.entry_within (m : Mapping s pd phys n flags r virtAddr pt mid f)
    (hd : PAGE_SIZE∣virtAddr) (hlt : virtAddr<2^32) {i off : ℕ}
    (hi : (getPdePte virtAddr).2+i<PT_SIZE) (ho : off<PAGE_SIZE) :
    wadd virtAddr (i*PAGE_SIZE+off)=virtAddr+(i*PAGE_SIZE+off) ∧
      pageEntry r.state.paging pd (wadd virtAddr (i*PAGE_SIZE+off))=
        (pt,(getPdePte virtAddr).2+i) := by
  have hspan := span_le (n:=i+1) hd hlt hi
  have hadd : wadd virtAddr (i*PAGE_SIZE+off)=virtAddr+(i*PAGE_SIZE+off) :=
    wadd_eq (by simp only [PAGE_SIZE] at hspan ho ⊢; omega)
  refine ⟨hadd,?_⟩
  rw [hadd,pageEntry,getPdePte_within hd hi ho,m.reached,Function.update_self]

/-- Entries that were not written are kept or belong to a new table. -/
theorem Mapping.kept (m : Mapping s pd phys n flags r virtAddr pt mid f) {p j : ℕ}
    (h : ¬(p=pt ∧ (getPdePte virtAddr).2≤j ∧ j<(getPdePte virtAddr).2+f.addrs.length)) :
    r.state.paging.tables p j=s.paging.tables p j ∨
      (NewEntry s.paging pd virtAddr p j ∧ r.state.paging.tables p j=0) := by
  have hstored := (storeEntries_spec m.stored).2.2 p j
  rw [if_neg h] at hstored
  rw [hstored]
  obtain ⟨_,_,htables⟩|⟨habsent,hpt,_,htables⟩ := m.installed.source
  · exact Or.inl (by rw [htables])
  · rw [htables]
    by_cases hp : p=pt
    · subst hp
      rw [Function.update_self]
      by_cases hj : j<PT_SIZE
      · exact Or.inr ⟨⟨habsent,hpt,hj⟩,if_pos hj⟩
      · exact Or.inl (if_neg hj)
    · exact Or.inl (by rw [Function.update_of_ne hp])

/-- A given range is always found, through a pointer that is not null. -/
theorem takeFrames_range {frames : FrameAllocator} {at_ : ℕ×ℕ} (hphys : phys≠0)
    (h : takeFrames frames phys n flags at_=some f) (hret : f.ret=0) :
    f.addrs=(List.range n).map fun i => wadd phys (wmul i PAGE_SIZE) ||| flags := by
  rw [takeFrames,if_pos hphys,allocNframes] at h
  split at h
  · cases h
    contradiction
  · cases h
    rfl

/-- Writes that stay among the entries of pages end within the first table. -/
theorem MapsRange.fitsTable (m : Mapping s pd phys n flags r virtAddr pt mid f) (h0 : 0<n)
    (hlen : f.addrs.length=n) (hmaps : MapsRange s pd phys n virtAddr r) : FitsTable s.buddy n := by
  intro block hb
  obtain rfl : virtAddr=block := by simpa [m.served] using hb
  obtain ⟨k,_,hk⟩ := hmaps.inside (n-1) (by rw [m.entries_eq,hlen]; omega)
  rw [m.pt_eq,pageEntry,Prod.mk.injEq] at hk
  have hindex := getPdePte_lt (wadd virtAddr (k*PAGE_SIZE))
  omega

/-- A successful mapping of a physical range does what it is for exactly when
the serving block fits its table. -/
theorem knmmap_mapsRange_iff (hstart : PAGE_SIZE∣start) (hplaced : BlocksPlaced start s.buddy)
    (hphys : PAGE_SIZE∣phys) (hpos : 0<phys) (h0 : 0<n) (h1 : n≤PT_SIZE)
    (hflags : flags<PAGE_SIZE) (h : knmmap s pd phys n flags=some r) (hret : r.ret=0) :
    (∃ virtAddr,r.addrs=[virtAddr] ∧ MapsRange s pd phys n virtAddr r) ↔ FitsTable s.buddy n := by
  obtain ⟨virtAddr,pt,mid,f,m⟩ := knmmap_mapping h0 h1 h hret
  obtain ⟨hd,hlt⟩ := hplaced.aligned hstart m.served
  have haddrs := takeFrames_range (Nat.ne_of_gt hpos) m.found m.found_ret
  have hlen : f.addrs.length=n := by rw [haddrs,List.length_map,List.length_range]
  constructor
  · rintro ⟨va,hva,hmaps⟩
    obtain rfl : virtAddr=va := by simpa [m.addrs_eq] using hva
    exact hmaps.fitsTable m h0 hlen
  · intro hfits
    have hfit := hfits virtAddr m.served
    have hentry : ∀ i<n,∀ off<PAGE_SIZE,
        wadd virtAddr (i*PAGE_SIZE+off)=virtAddr+(i*PAGE_SIZE+off) ∧
          pageEntry r.state.paging pd (wadd virtAddr (i*PAGE_SIZE+off))=
            (pt,(getPdePte virtAddr).2+i) :=
      fun i hi off ho => m.entry_within hd hlt (by omega) ho
    obtain ⟨_,hnonnull,htables⟩ := storeEntries_spec m.stored
    have hpt : pt≠0 := hnonnull fun hnil => by
      rw [hnil] at hlen
      exact absurd hlen (Nat.ne_of_lt h0)
    refine ⟨virtAddr,m.addrs_eq,fun i hi off ho => ?_,fun i hi => ?_,fun p j hother => ?_⟩
    · obtain ⟨hadd,hpage⟩ := hentry i hi off ho
      rw [pageEntry,Prod.mk.injEq] at hpage
      have hslot : pt=pt ∧ (getPdePte virtAddr).2≤(getPdePte virtAddr).2+i ∧
          (getPdePte virtAddr).2+i<(getPdePte virtAddr).2+f.addrs.length :=
        ⟨rfl,Nat.le_add_right _ _,by omega⟩
      have hget : f.addrs.getD i 0=wadd phys (wmul i PAGE_SIZE) ||| flags := by
        rw [haddrs,List.getD_eq_getElem _ _ (by simpa using hi),List.getElem_map,
          List.getElem_range]
      have hpage_dvd : PAGE_SIZE∣wadd phys (wmul i PAGE_SIZE) := by
        have hword : PAGE_SIZE∣2^32 := by norm_num
        have hmul : PAGE_SIZE∣wmul i PAGE_SIZE :=
          (Nat.dvd_mod_iff hword).mpr (Nat.dvd_mul_left _ _)
        exact (Nat.dvd_mod_iff hword).mpr (Nat.dvd_add hphys hmul)
      have hoff : wadd virtAddr (i*PAGE_SIZE+off)%PAGE_SIZE=off := by
        obtain ⟨q,rfl⟩ := hd
        rw [hadd,←Nat.add_assoc,Nat.mul_comm i,←Nat.mul_add,Nat.mul_add_mod,Nat.mod_eq_of_lt ho]
      rw [toPhysAddr_eq m.directory (by rw [hpage.1]; exact hpt),hpage.1,hpage.2,htables,
        if_pos hslot,Nat.add_sub_cancel_left,hget,getTabPureAddr_entry (wadd_lt _ _) hpage_dvd
        hflags,hoff]
      simp only [wadd,wmul,Nat.add_mod_mod,Nat.mod_add_mod]
      rw [Nat.add_assoc]
    · rw [m.entries_eq,hlen] at hi
      have hpage := (hentry i hi 0 (by norm_num)).2
      rw [Nat.add_zero] at hpage
      exact ⟨i,hi,by rw [m.pt_eq,hpage]⟩
    · refine m.kept fun hwritten => ?_
      obtain ⟨hp,hlo,hhi⟩ := hwritten
      refine hother (j-(getPdePte virtAddr).2) (by omega) ?_
      have hpage := (hentry (j-(getPdePte virtAddr).2) (by omega) 0 (by norm_num)).2
      rw [Nat.add_zero,Nat.add_sub_cancel' hlo] at hpage
      rw [hpage,hp]

/-- An empty directory, free frames, and an allocator with one block of the
highest order. -/
def emptyState (start : ℕ) : MapState where
  paging := {
    dirs := fun _ => ⟨fun _ => 0,fun _ => 0⟩
    tables := fun _ _ => 0
    curPd := 0xC0200000
    virtKernelAddr := VADDR
    pages := fun i => 0xC0400000+PAGE_SIZE*i}
  buddy := {
    memSize := MAX_BUDDY_SIZE
    memStart := start
    freeArea := Function.update (fun _ => ⟨[],0,0⟩) (MAX_ORDER-1) ⟨[start],0,1⟩
    maps := fun _ _ => 0#32}
  frames := ⟨fun _ => 0#32,1024,by norm_num⟩

/-- The only free block of that allocator. -/
theorem emptyState_free {order block : ℕ}
    (h : block∈((emptyState start).buddy.freeArea order).freeList) :
    order=MAX_ORDER-1 ∧ block=start := by
  by_cases ho : order=MAX_ORDER-1
  · subst ho
    simpa [emptyState] using h
  · simp only [emptyState,Function.update_of_ne ho,List.not_mem_nil] at h

/-- That block lies in the address space. -/
theorem blocksPlaced_emptyState (h : start+MAX_BUDDY_SIZE≤2^32) :
    BlocksPlaced start (emptyState start).buddy := by
  intro order _ block hblock
  obtain ⟨rfl,rfl⟩ := emptyState_free hblock
  exact ⟨Nat.le_refl _,by rw [Nat.sub_self]; exact Nat.dvd_zero _,h⟩

/-- The equivalence at two pages of an allocator whose blocks fit their tables. -/
theorem knmmap_mapsRange_iff_two : ∃ r,
    knmmap (emptyState 0xD0000000) 0xC0200000 0x400000 2 3=some r ∧ r.ret=0 ∧
      ((∃ virtAddr,r.addrs=[virtAddr] ∧
        MapsRange (emptyState 0xD0000000) 0xC0200000 0x400000 2 virtAddr r) ↔
        FitsTable (emptyState 0xD0000000).buddy 2) :=
  ⟨_,rfl,rfl,@knmmap_mapsRange_iff _ _ _ _ 3 _ 0xD0000000 (by norm_num)
    (blocksPlaced_emptyState (by norm_num)) (by norm_num) (by norm_num) (by norm_num)
    (by norm_num) (by norm_num) rfl rfl⟩

/-- No two free blocks overlap. -/
def BlocksApart (buddy : BuddyAlloc) : Prop :=
  ∀ order order' block block',block∈(buddy.freeArea order).freeList →
    block'∈(buddy.freeArea order').freeList → (order,block)≠(order',block') →
      block+blockSize order≤block' ∨ block'+blockSize order'≤block

/-- A single block overlaps no other. -/
theorem blocksApart_emptyState (start : ℕ) : BlocksApart (emptyState start).buddy := by
  intro order order' block block' hb hb' hne
  obtain ⟨rfl,rfl⟩ := emptyState_free hb
  obtain ⟨rfl,rfl⟩ := emptyState_free hb'
  exact absurd rfl hne

/-- An allocator that starts a quarter into a table serves 1024 pages from
there: entries are written behind the table. -/
theorem mapsRange_counterexample : ¬∀ (start : ℕ) (s : MapState) (pd phys n flags : ℕ)
    (r : MmapResult),start=0xD0000000 ∨ start=0x100000 → BlocksPlaced start s.buddy →
    BlocksApart s.buddy → PAGE_SIZE∣phys → 0<phys → 0<n → n≤PT_SIZE → flags<PAGE_SIZE →
    flags&&&PRESENT≠0 → knmmap s pd phys n flags=some r → r.ret=0 →
    ∃ virtAddr,r.addrs=[virtAddr] ∧ MapsRange s pd phys n virtAddr r := by
  intro h
  have hrun : ∃ r,knmmap (emptyState 0x100000) 0xC0200000 0x400000 1024 3=some r ∧ r.ret=0 :=
    ⟨_,rfl,rfl⟩
  obtain ⟨r,hr,hret⟩ := hrun
  obtain ⟨va,hva,hmaps⟩ := h 0x100000 _ _ _ _ _ r (Or.inr rfl)
    (blocksPlaced_emptyState (by norm_num)) (blocksApart_emptyState _) (by norm_num)
    (by norm_num) (by norm_num) (by norm_num) (by norm_num) (by decide) hr hret
  obtain ⟨virtAddr,pt,mid,f,m⟩ := knmmap_mapping (by norm_num) (by norm_num) hr hret
  have haddrs := takeFrames_range (by norm_num) m.found m.found_ret
  obtain rfl : virtAddr=va := by simpa [m.addrs_eq] using hva
  have hfits := hmaps.fitsTable m (by norm_num)
    (by rw [haddrs,List.length_map,List.length_range])
  exact absurd (hfits 0x100000 rfl) (by decide)

end XanaduOS.MemoryMapping
