import XanaduOS.KernelDefs

/-!
# Page directories and page tables

A directory keeps two arrays: its entries with their flags, and the pointers
through which its tables are reached. Tables are arrays named by pointer;
indices past the last entry stand for the memory behind a table. An access
through a null pointer has no result. The heap is a parameter: the pointers it
returns for new pages are a sequence kept in the state.
-/

namespace XanaduOS.PageTables

open Word32 KernelDefs

/-- Address of the kernel before it has read its own. -/
abbrev VADDR : ℕ := 0xC0000000

/-- The arrays of a page directory. -/
structure PageDir where
  /-- Entries with flags. -/
  pageTables : ℕ → ℕ
  /-- Pointers to the tables. -/
  pageTablesVirt : ℕ → ℕ

/-- Replace the entry of a table. -/
def PageDir.setEntry (dir : PageDir) (pde entry : ℕ) : PageDir :=
  {dir with pageTables := Function.update dir.pageTables pde entry}

/-- Replace the pointer of a table. -/
def PageDir.setVirt (dir : PageDir) (pde pt : ℕ) : PageDir :=
  {dir with pageTablesVirt := Function.update dir.pageTablesVirt pde pt}

/-- The globals and the memory of the paging code. -/
structure Paging where
  /-- Directories, by pointer. -/
  dirs : ℕ → PageDir
  /-- Entries of the tables, by pointer and index. -/
  tables : ℕ → ℕ → ℕ
  /-- The current directory. -/
  curPd : ℕ
  /-- Address of the kernel, zero before it is read. -/
  virtKernelAddr : ℕ
  /-- Pointers that the heap will return for pages. -/
  pages : ℕ → ℕ

/-- Replace the arrays of a directory. -/
def Paging.setDir (s : Paging) (pd : ℕ) (dir : PageDir) : Paging :=
  {s with dirs := Function.update s.dirs pd dir}

/-- Replace the entries of a table. -/
def Paging.setTable (s : Paging) (pt : ℕ) (entries : ℕ → ℕ) : Paging :=
  {s with tables := Function.update s.tables pt entries}

/-- Directory and table index of an address. -/
def getPdePte (addr : ℕ) : ℕ×ℕ := (addr>>>22,(addr>>>12)&&&0x3ff)

/-- The page address of an entry. -/
def getTabPureAddr (table : ℕ) : ℕ := table&&&0xFFFFF000

/-- The flags of an entry. -/
def getTabFlags (table : ℕ) : ℕ := table&&&0xfff

/-- Whether an entry is present. -/
def tabPresent (descriptor : ℕ) : Bool := decide (descriptor&&&PRESENT≠0)

/-- Drop the flag that the processor sets. -/
def clearAccessed (entry : ℕ) : ℕ := if entry&&&ACCESSED≠0 then entry&&&0xFFFFFFDF else entry

/-- Physical address behind a virtual one. Without a directory it is the
distance to the kernel; an address without a table is reported as zero. -/
def toPhysAddr (s : Paging) (pd virtAddr : ℕ) : ℕ :=
  let pageOffset := virtAddr&&&0xfff
  if pd=0 then wsub virtAddr (if s.virtKernelAddr≠0 then s.virtKernelAddr else VADDR)
  else
    let (pde,pte) := getPdePte virtAddr
    if (s.dirs pd).pageTablesVirt pde=0 then 0
    else wadd (getTabPureAddr (s.tables ((s.dirs pd).pageTablesVirt pde) pte)) pageOffset

/-- A new page table, its directory entry and the state. -/
def allocPt (s : Paging) (flags : ℕ) : Option (ℕ×ℕ×Paging) :=
  let newPt := s.pages 0
  let physAddr := toPhysAddr s s.curPd newPt
  if newPt=0 then none
  else
    let zeroed := s.setTable newPt fun j => if j<PT_SIZE then 0 else s.tables newPt j
    some (newPt,physAddr ||| flags,{zeroed with pages := fun i => s.pages (i+1)})

/-- Return code, state and the pointers written through `pt`, in order. -/
structure NptResult where
  /-- Zero on success. -/
  ret : ℕ
  /-- The state afterwards. -/
  paging : Paging
  /-- Pointers of the tables. -/
  pts : List ℕ

/-- The loop over the tables `pde+n, pde+n+1, ..`. A table that is present ends
it. The pointer kept for a new table is the first one written. -/
def mapAllocNptLoop (pd pde flags : ℕ) : ℕ → ℕ → Paging → List ℕ → Option NptResult
  | 0,_,s,pts => some ⟨0,s,pts⟩
  | left+1,n,s,pts =>
    let curPde := pde+n
    if PT_SIZE<curPde then some ⟨ENOMEM,s,pts⟩
    else
      let dir := s.dirs pd
      let entry := clearAccessed (dir.pageTables curPde)
      if tabPresent entry then
        some ⟨0,s.setDir pd (dir.setEntry curPde (entry ||| flags)),
          pts++[dir.pageTablesVirt curPde]⟩
      else
        match allocPt s flags with
        | none => none
        | some (newPt,newEntry,s) =>
          let dir := dir.setEntry curPde newEntry
          let pts := pts++[newPt]
          if newEntry=0 then some ⟨ENOMEM,s.setDir pd dir,pts⟩
          else mapAllocNptLoop pd pde flags left (n+1)
            (s.setDir pd (dir.setVirt curPde (pts.headD 0))) pts

/-- Make the tables of consecutive directory entries present. -/
def mapAllocNpt (s : Paging) (pd npt pde flags : ℕ) : Option NptResult :=
  if pd=0 then some ⟨EINVAL,s,[]⟩ else mapAllocNptLoop pd pde flags npt 0 s []

/-- Make one page not present. -/
def unmapPage (s : Paging) (pd pde pte : ℕ) : Option Paging :=
  let pt := (s.dirs pd).pageTablesVirt pde
  if pt=0 then none
  else some (s.setTable pt
    (Function.update (s.tables pt) pte (s.tables pt pte&&&0xFFFFFFFE)))

/-- The loop over pages, from page `i` on: `overflow` is what has been taken
off the index so far, one table's entries for each step to a next table. -/
def unmapPagesLoop (pd pte : ℕ) : ℕ → ℕ → ℕ → ℕ → Paging → Option Paging
  | 0,_,_,_,s => some s
  | left+1,i,pde,overflow,s =>
    let next := PT_SIZE≤pte+i-overflow
    let pde := if next then pde+1 else pde
    let overflow := if next then overflow+PT_SIZE else overflow
    if PT_SIZE≤pde then some s
    else
      match unmapPage s pd pde (pte+i-overflow) with
      | none => none
      | some s => unmapPagesLoop pd pte left (i+1) pde overflow s

/-- Make consecutive pages not present. -/
def unmapPages (s : Paging) (pd pde pte npages : ℕ) : Option Paging :=
  unmapPagesLoop pd pte npages 0 pde 0 s

/-! ## Entries and addresses -/

/-- The table index of an address is its page number within a table. -/
theorem getPdePte_eq (addr : ℕ) : getPdePte addr=(addr/2^22,addr/PAGE_SIZE%PT_SIZE) := by
  have hmask : (0x3ff : ℕ)=2^10-1 := by norm_num
  rw [getPdePte,Nat.shiftRight_eq_div_pow,Nat.shiftRight_eq_div_pow,hmask,
    Nat.and_two_pow_sub_one_eq_mod]

/-- A table index is one of a table. -/
theorem getPdePte_lt (addr : ℕ) : (getPdePte addr).2<PT_SIZE := by
  rw [getPdePte_eq]
  exact Nat.mod_lt _ (by norm_num)

/-- A directory index of a word is one of a directory. -/
theorem getPdePte_dir_lt {addr : ℕ} (h : addr<2^32) : (getPdePte addr).1<PT_SIZE := by
  rw [getPdePte_eq]
  simp only [PT_SIZE]
  omega

/-- Slot of a page some pages behind an address. -/
theorem getPdePte_add {addr : ℕ} (hd : PAGE_SIZE∣addr) (i : ℕ) {off : ℕ} (ho : off<PAGE_SIZE) :
    getPdePte (addr+(i*PAGE_SIZE+off))=((getPdePte addr).1+((getPdePte addr).2+i)/PT_SIZE,
      ((getPdePte addr).2+i)%PT_SIZE) := by
  obtain ⟨q,rfl⟩ := hd
  rw [getPdePte_eq,getPdePte_eq]
  simp only [PAGE_SIZE,PT_SIZE] at ho ⊢
  exact Prod.ext (by simp only; omega) (by simp only; omega)

/-- Pages that stay within a table have the table's slot and their own index. -/
theorem getPdePte_within {addr i off : ℕ} (hd : PAGE_SIZE∣addr)
    (hi : (getPdePte addr).2+i<PT_SIZE) (ho : off<PAGE_SIZE) :
    getPdePte (addr+(i*PAGE_SIZE+off))=((getPdePte addr).1,(getPdePte addr).2+i) := by
  rw [getPdePte_add hd i ho,Nat.div_eq_of_lt hi,Nat.mod_eq_of_lt hi,Nat.add_zero]

/-- Pages within one table end below the top of the address space. -/
theorem span_le {addr n : ℕ} (hd : PAGE_SIZE∣addr) (haddr : addr<2^32)
    (hn : (getPdePte addr).2+n≤PT_SIZE) : addr+n*PAGE_SIZE≤2^32 := by
  obtain ⟨q,rfl⟩ := hd
  rw [getPdePte_eq] at hn
  simp only [PAGE_SIZE,PT_SIZE] at haddr hn ⊢
  omega

/-- Flags are what is left of a word by pages. -/
theorem getTabFlags_eq (table : ℕ) : getTabFlags table=table%PAGE_SIZE := by
  have hmask : (0xfff : ℕ)=2^12-1 := by norm_num
  rw [getTabFlags,hmask,Nat.and_two_pow_sub_one_eq_mod]

/-- The page address of a word is its multiple of the page size. -/
theorem getTabPureAddr_eq {table : ℕ} (h : table<2^32) :
    getTabPureAddr table=table/PAGE_SIZE*PAGE_SIZE := by
  have hmask : (0xFFFFF000 : ℕ)=2^12*(2^20-1) := by norm_num
  have hsize : PAGE_SIZE=2^12 := by norm_num
  apply Nat.eq_of_testBit_eq
  intro i
  rw [getTabPureAddr,hmask,hsize,Nat.testBit_and,Nat.testBit_two_pow_mul,
    Nat.testBit_two_pow_sub_one,Nat.mul_comm,Nat.testBit_two_pow_mul,Nat.testBit_div_two_pow]
  by_cases hlow : 12 ≤ i
  · rw [Nat.sub_add_cancel hlow]
    by_cases hhigh : i<32
    · simp [hlow,show i-12<20 by omega]
    · have hz : table.testBit i=false := by
        apply Nat.testBit_lt_two_pow
        exact lt_of_lt_of_le h (Nat.pow_le_pow_right (by norm_num) (by omega))
      simp [hz]
  · simp [hlow]

/-- The page address of an entry is one, whatever the entry. -/
theorem getTabPureAddr_page (table : ℕ) :
    PAGE_SIZE∣getTabPureAddr table ∧ getTabPureAddr table<2^32 := by
  have hlt : getTabPureAddr table<2^32 := lt_of_le_of_lt Nat.and_le_right (by norm_num)
  have hword : getTabPureAddr table=getTabPureAddr (table%2^32) := by
    have hmod := Nat.and_mod_two_pow (a:=table) (b:=0xFFFFF000) (n:=32)
    exact (Nat.mod_eq_of_lt hlt).symm.trans hmod
  refine ⟨?_,hlt⟩
  rw [hword,getTabPureAddr_eq (Nat.mod_lt _ (by norm_num))]
  exact Nat.dvd_mul_left _ _

/-- An entry made of a page address and flags names that page. -/
theorem getTabPureAddr_entry {addr flags : ℕ} (haddr : addr<2^32) (hd : PAGE_SIZE∣addr)
    (hf : flags<PAGE_SIZE) : getTabPureAddr (addr ||| flags)=addr := by
  obtain ⟨page,rfl⟩ := hd
  have hlt : PAGE_SIZE*page ||| flags<2^32 :=
    Nat.or_lt_two_pow haddr (lt_trans hf (by norm_num))
  rw [getTabPureAddr_eq hlt,page_or_flags_div hf,Nat.mul_comm]

/-- Whether an entry is present does not depend on the processor's flag. -/
theorem tabPresent_clearAccessed (entry : ℕ) : tabPresent (clearAccessed entry)=tabPresent entry := by
  unfold clearAccessed
  split
  · rw [tabPresent,tabPresent,Nat.and_assoc,show (0xFFFFFFDF : ℕ)&&&PRESENT=PRESENT from rfl]
  · rfl

/-- An entry whose flag is dropped is not present. -/
theorem tabPresent_unmapped (entry : ℕ) : tabPresent (entry&&&0xFFFFFFFE)=false := by
  rw [tabPresent,Nat.and_assoc,show (0xFFFFFFFE : ℕ)&&&PRESENT=0 from rfl,Nat.and_zero]
  rfl

/-- Dropping the flag again changes nothing. -/
theorem unmapped_unmapped (entry : ℕ) : entry&&&0xFFFFFFFE&&&0xFFFFFFFE=entry&&&0xFFFFFFFE := by
  rw [Nat.and_assoc,Nat.and_self]

variable {s t : Paging} {pd pde pte flags : ℕ}

/-- An address translates through the entry of its page. -/
theorem toPhysAddr_eq (hpd : pd≠0) {virtAddr : ℕ}
    (hpt : (s.dirs pd).pageTablesVirt (getPdePte virtAddr).1≠0) :
    toPhysAddr s pd virtAddr=wadd (getTabPureAddr (s.tables
      ((s.dirs pd).pageTablesVirt (getPdePte virtAddr).1) (getPdePte virtAddr).2))
        (virtAddr%PAGE_SIZE) := by
  have hmask : virtAddr&&&0xfff=virtAddr%PAGE_SIZE := getTabFlags_eq virtAddr
  simp only [toPhysAddr,if_neg hpd,if_neg hpt,hmask]

/-- Addresses of one page translate alike. -/
theorem toPhysAddr_page (hpd : pd≠0) {page off : ℕ} (hd : PAGE_SIZE∣page) (ho : off<PAGE_SIZE) :
    toPhysAddr s pd (page+off)=if (s.dirs pd).pageTablesVirt (getPdePte page).1=0 then 0
      else getTabPureAddr (s.tables ((s.dirs pd).pageTablesVirt (getPdePte page).1)
        (getPdePte page).2)+off := by
  have hslot : getPdePte (page+off)=getPdePte page := by
    have hadd := getPdePte_add hd 0 ho
    have hlt := getPdePte_lt page
    rwa [Nat.zero_mul,Nat.zero_add,Nat.add_zero,Nat.div_eq_of_lt hlt,Nat.mod_eq_of_lt hlt,
      Nat.add_zero] at hadd
  have hoff : (page+off)%PAGE_SIZE=off := by
    obtain ⟨q,rfl⟩ := hd
    rw [Nat.mul_add_mod,Nat.mod_eq_of_lt ho]
  split
  · rename_i hnull
    simp only [toPhysAddr,if_neg hpd,hslot,if_pos hnull]
  · rename_i hnull
    rw [toPhysAddr_eq hpd (by rwa [hslot]),hslot,hoff]
    obtain ⟨hpage,hlt⟩ := getTabPureAddr_page (s.tables
      ((s.dirs pd).pageTablesVirt (getPdePte page).1) (getPdePte page).2)
    obtain ⟨q,hq⟩ := hpage
    rw [hq] at hlt ⊢
    simp only [PAGE_SIZE] at hlt ho ⊢
    exact wadd_eq (by omega)

/-! ## Tables made present -/

/-- A directory after the table of one entry was made present: the table it had,
or a new zeroed one. -/
structure Installed (s : Paging) (pd pde pt : ℕ) (t : Paging) : Prop where
  /-- The table is reached through its pointer. -/
  virt : (t.dirs pd).pageTablesVirt=Function.update (s.dirs pd).pageTablesVirt pde pt
  /-- Other directories are kept. -/
  others : ∀ dir≠pd,t.dirs dir=s.dirs dir
  /-- The current directory is kept. -/
  curPd_eq : t.curPd=s.curPd
  /-- Where the table comes from. -/
  source : (tabPresent ((s.dirs pd).pageTables pde)=true ∧ pt=(s.dirs pd).pageTablesVirt pde ∧
      t.tables=s.tables) ∨
    (tabPresent ((s.dirs pd).pageTables pde)=false ∧ pt=s.pages 0 ∧ pt≠0 ∧
      t.tables=Function.update s.tables pt fun j => if j<PT_SIZE then 0 else s.tables pt j)

/-- Tables that are neither replaced nor at the address of the new one are kept. -/
theorem Installed.keeps {pt q : ℕ} (h : Installed s pd pde pt t)
    (hq : q=pde → tabPresent ((s.dirs pd).pageTables pde)=true)
    (hnew : (s.dirs pd).pageTablesVirt q≠s.pages 0) :
    (t.dirs pd).pageTablesVirt q=(s.dirs pd).pageTablesVirt q ∧
      t.tables ((s.dirs pd).pageTablesVirt q)=s.tables ((s.dirs pd).pageTablesVirt q) := by
  rw [h.virt]
  obtain ⟨_,hpt,htables⟩|⟨habsent,hpt,_,htables⟩ := h.source
  · refine ⟨?_,by rw [htables]⟩
    by_cases heq : q=pde
    · rw [heq,Function.update_self,hpt]
    · rw [Function.update_of_ne heq]
  · have hne : q≠pde := fun heq => by simp [hq heq] at habsent
    rw [Function.update_of_ne hne,htables,Function.update_of_ne (by rwa [hpt])]
    exact ⟨rfl,rfl⟩

/-- A successful request for one table. -/
theorem mapAllocNpt_one {m : NptResult} (h : mapAllocNpt s pd 1 pde flags=some m)
    (hret : m.ret=0) : pd≠0 ∧ ∃ pt,m.pts=[pt] ∧ Installed s pd pde pt m.paging := by
  unfold mapAllocNpt at h
  split at h
  · cases h
    contradiction
  rename_i hpd
  refine ⟨hpd,?_⟩
  simp only [mapAllocNptLoop,Nat.add_zero,List.nil_append,List.headD_cons] at h
  split at h
  · cases h
    contradiction
  split at h
  · rename_i hpresent
    rw [tabPresent_clearAccessed] at hpresent
    cases h
    refine ⟨_,rfl,?_,fun dir hne => ?_,rfl,Or.inl ⟨hpresent,rfl,rfl⟩⟩
    · simp [Paging.setDir,PageDir.setEntry]
    · simp [Paging.setDir,hne]
  · rename_i habsent
    rw [Bool.not_eq_true,tabPresent_clearAccessed] at habsent
    unfold allocPt at h
    by_cases hnull : s.pages 0=0
    · simp [hnull] at h
    · simp only [if_neg hnull] at h
      split at h
      · cases h
        contradiction
      · cases h
        refine ⟨_,rfl,?_,fun dir hne => ?_,rfl,Or.inr ⟨habsent,rfl,hnull,rfl⟩⟩
        · simp [Paging.setDir,PageDir.setEntry,PageDir.setVirt]
        · simp [Paging.setDir,Paging.setTable,hne]

/-! ## Pages made not present -/

/-- The table entry of a page that a walk over pages from a slot on reaches
before it leaves the directory. -/
def Reached (s : Paging) (pd pde pte i pt j : ℕ) : Prop :=
  pde+(pte+i)/PT_SIZE<PT_SIZE ∧ pt=(s.dirs pd).pageTablesVirt (pde+(pte+i)/PT_SIZE) ∧
    j=(pte+i)%PT_SIZE

/-- The entries whose flag has been dropped by the pages `lo, .., hi-1`. -/
structure Unmapped (s : Paging) (pd pde pte lo top : ℕ) (t : Paging) : Prop where
  /-- Directories are kept. -/
  dirs_eq : t.dirs=s.dirs
  /-- Entries of the pages are not present. -/
  dropped : ∀ pt j i,lo ≤ i → i<top → Reached s pd pde pte i pt j →
    t.tables pt j=s.tables pt j&&&0xFFFFFFFE
  /-- Other entries are kept. -/
  kept : ∀ pt j,(∀ i,lo ≤ i → i<top → ¬Reached s pd pde pte i pt j) → t.tables pt j=s.tables pt j

/-- No page drops no flag. -/
theorem Unmapped.refl (lo : ℕ) : Unmapped s pd pde pte lo lo s :=
  ⟨rfl,fun _ _ _ hlo hhi => absurd hhi (not_lt_of_ge hlo),fun _ _ _ => rfl⟩

/-- One page more. -/
theorem Unmapped.cons {lo top : ℕ} {m : Paging} (hlt : lo<top)
    (hfirst : Unmapped s pd pde pte lo (lo+1) m) (hrest : Unmapped m pd pde pte (lo+1) top t) :
    Unmapped s pd pde pte lo top t := by
  have hreached : ∀ i pt j,Reached m pd pde pte i pt j ↔ Reached s pd pde pte i pt j := by
    intro i pt j
    rw [Reached,Reached,hfirst.dirs_eq]
  refine ⟨hrest.dirs_eq.trans hfirst.dirs_eq,fun pt j i hlo hhi hi => ?_,fun pt j hnone => ?_⟩
  · by_cases hagain : ∃ k,lo+1≤k ∧ k<top ∧ Reached s pd pde pte k pt j
    · obtain ⟨k,hk0,hk1,hk⟩ := hagain
      rw [hrest.dropped pt j k hk0 hk1 ((hreached k pt j).mpr hk)]
      by_cases hnow : Reached s pd pde pte lo pt j
      · rw [hfirst.dropped pt j lo (Nat.le_refl _) (Nat.lt_succ_self _) hnow,unmapped_unmapped]
      · rw [hfirst.kept pt j fun i h0 h1 => by rwa [show i=lo by omega]]
    · have hlater : ∀ k,lo+1≤k → k<top → ¬Reached m pd pde pte k pt j :=
        fun k h0 h1 hk => hagain ⟨k,h0,h1,(hreached k pt j).mp hk⟩
      have heq : i=lo := by
        by_contra hne
        exact hagain ⟨i,by omega,hhi,hi⟩
      rw [hrest.kept pt j hlater,hfirst.dropped pt j i hlo (by omega) hi]
  · rw [hrest.kept pt j fun i h0 h1 hi => hnone i (by omega) h1 ((hreached i pt j).mp hi),
      hfirst.kept pt j fun i h0 h1 => hnone i h0 (by omega)]

/-- One page. -/
theorem unmapped_unmapPage {i : ℕ} (hin : pde+(pte+i)/PT_SIZE<PT_SIZE)
    (h : unmapPage s pd (pde+(pte+i)/PT_SIZE) ((pte+i)%PT_SIZE)=some t) :
    Unmapped s pd pde pte i (i+1) t := by
  simp only [unmapPage] at h
  split at h
  · contradiction
  cases h
  refine ⟨rfl,fun pt j k hlo hhi hk => ?_,fun pt j hnone => ?_⟩
  · obtain rfl : k=i := by omega
    obtain ⟨_,rfl,rfl⟩ := hk
    simp [Paging.setTable]
  · by_cases hpt : pt=(s.dirs pd).pageTablesVirt (pde+(pte+i)/PT_SIZE)
    · have hj : j≠(pte+i)%PT_SIZE :=
        fun hj => hnone i (Nat.le_refl _) (Nat.lt_succ_self _) ⟨hin,hpt,hj⟩
      rw [hpt]
      simp [Paging.setTable,hj]
    · simp [Paging.setTable,hpt]

/-- The walk reaches the tables of all its pages in the directory. -/
def Walkable (s : Paging) (pd pde pte lo top : ℕ) : Prop :=
  ∀ i,lo ≤ i → i<top → pde+(pte+i)/PT_SIZE<PT_SIZE →
    (s.dirs pd).pageTablesVirt (pde+(pte+i)/PT_SIZE)≠0

/-- The walk from page `i` on ends where it can, with the flags of its pages
dropped. `q` counts the tables passed. -/
theorem unmapPagesLoop_spec (left : ℕ) {i q : ℕ} (hq : q≤(pte+i)/PT_SIZE)
    (hq' : (pte+i)/PT_SIZE≤q+1) :
    (Walkable s pd pde pte i (i+left) → ∃ t,
      unmapPagesLoop pd pte left i (pde+q) (q*PT_SIZE) s=some t) ∧
    ∀ t,unmapPagesLoop pd pte left i (pde+q) (q*PT_SIZE) s=some t →
      Walkable s pd pde pte i (i+left) ∧ Unmapped s pd pde pte i (i+left) t := by
  induction left generalizing s i q with
  | zero =>
    refine ⟨fun _ => ⟨s,rfl⟩,fun t h => ?_⟩
    cases h
    exact ⟨fun k hlo hhi => absurd hhi (not_lt_of_ge hlo),Unmapped.refl i⟩
  | succ left ih =>
    have hpde : (if PT_SIZE≤pte+i-q*PT_SIZE then pde+q+1 else pde+q)=pde+(pte+i)/PT_SIZE := by
      simp only [PT_SIZE] at hq hq' ⊢
      split <;> omega
    have hover : (if PT_SIZE≤pte+i-q*PT_SIZE then q*PT_SIZE+PT_SIZE else q*PT_SIZE)=
        (pte+i)/PT_SIZE*PT_SIZE := by
      simp only [PT_SIZE] at hq hq' ⊢
      split <;> omega
    have hindex : pte+i-(pte+i)/PT_SIZE*PT_SIZE=(pte+i)%PT_SIZE := by
      simp only [PT_SIZE]
      omega
    simp only [unmapPagesLoop,hpde,hover,hindex]
    by_cases hend : PT_SIZE≤pde+(pte+i)/PT_SIZE
    · have hout : ∀ k,i≤k → ¬pde+(pte+k)/PT_SIZE<PT_SIZE := by
        intro k hk
        have hmono : (pte+i)/PT_SIZE≤(pte+k)/PT_SIZE := Nat.div_le_div_right (by omega)
        omega
      rw [if_pos hend]
      refine ⟨fun _ => ⟨s,rfl⟩,fun t h => ?_⟩
      cases h
      exact ⟨fun k hk _ hin => absurd hin (hout k hk),rfl,
        fun _ _ k hk _ hreached => absurd hreached.1 (hout k hk),fun _ _ _ => rfl⟩
    · rw [if_neg hend]
      have hin := Nat.lt_of_not_le hend
      cases hpage : unmapPage s pd (pde+(pte+i)/PT_SIZE) ((pte+i)%PT_SIZE) with
      | none =>
        have hnull : (s.dirs pd).pageTablesVirt (pde+(pte+i)/PT_SIZE)=0 := by
          by_contra hne
          simp [unmapPage,hne] at hpage
        exact ⟨fun hwalk => absurd hnull (hwalk i (Nat.le_refl _) (by omega) hin),
          fun t h => by contradiction⟩
      | some m =>
        have hfirst := unmapped_unmapPage hin hpage
        have hne : (s.dirs pd).pageTablesVirt (pde+(pte+i)/PT_SIZE)≠0 := by
          intro hnull
          simp [unmapPage,hnull] at hpage
        have hwalk : Walkable s pd pde pte i (i+(left+1)) ↔
            Walkable m pd pde pte (i+1) (i+1+left) := by
          simp only [Walkable,hfirst.dirs_eq]
          constructor
          · intro h k hlo hhi
            exact h k (by omega) (by omega)
          · intro h k hlo hhi hk
            rcases hlo.eq_or_lt with rfl|hlt
            · exact hne
            · exact h k hlt (by omega) hk
        have hnext := ih (s:=m) (i:=i+1) (q:=(pte+i)/PT_SIZE)
          (Nat.div_le_div_right (by omega)) (by simp only [PT_SIZE]; omega)
        refine ⟨fun h => hnext.1 (hwalk.mp h),fun t h => ?_⟩
        obtain ⟨hw,hrest⟩ := hnext.2 t h
        rw [Nat.add_right_comm i 1 left,Nat.add_assoc] at hrest
        exact ⟨hwalk.mpr hw,hfirst.cons (by omega) hrest⟩

/-- Unmapping ends exactly when no table on the way is missing, with the flags
of all pages dropped. -/
theorem unmapPages_spec (hpte : pte<PT_SIZE) (npages : ℕ) :
    (Walkable s pd pde pte 0 npages → ∃ t,unmapPages s pd pde pte npages=some t) ∧
    ∀ t,unmapPages s pd pde pte npages=some t →
      Walkable s pd pde pte 0 npages ∧ Unmapped s pd pde pte 0 npages t := by
  have h := @unmapPagesLoop_spec s pd pde pte npages 0 0
    (Nat.zero_le _) (by simp only [PT_SIZE] at hpte ⊢; omega)
  simpa only [unmapPages,Nat.zero_add,Nat.zero_mul,Nat.add_zero] using h

end XanaduOS.PageTables
