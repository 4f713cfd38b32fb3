import XanaduOS.ByteMemory
import XanaduOS.MemoryMapping

/-!
# Copies of address spaces

Copying a page directory for a new task shares the tables that only the kernel
uses and makes new tables for the entries that are present and reachable from
user mode. Each user page of such a table gets a frame of its own, filled
through a temporary mapping. The directory entry of a new table is its bare
physical address: the flags are lost, so a copy carries what it should exactly
where there is no user page to carry.
-/

namespace XanaduOS.AddressSpaces

open Word32 KernelDefs BuddyFrameAlloc FrameAlloc PageTables MemoryMapping ByteMemory

/-- The mapping state with the kernel's allocator of virtual blocks, the bytes
of physical memory, and the slab cache that new tables come from. Tables and
directories are kept apart from the bytes. -/
structure CloneState where
  /-- Directories, tables, the kernel's allocator and the frames. -/
  map : MapState
  /-- Physical memory. -/
  mem : Bytes
  /-- Pointers that the slab cache will return. -/
  slabPages : ℕ → ℕ
  /-- The cache was created for pages at page boundaries. -/
  slabPages_dvd : ∀ i,PAGE_SIZE∣slabPages i

/-- Replace the directories and tables. -/
def CloneState.setPaging (s : CloneState) (paging : Paging) : CloneState :=
  {s with map := {s.map with paging := paging}}

/-- Address of a page of a table. -/
def getVirtAddr (pde pte : ℕ) : ℕ := wadd (wmul pde 0x400000) (wmul pte PAGE_SIZE)

/-- Whether an entry is present and reachable from user mode. -/
def userPresent (entry : ℕ) : Bool := decide (entry&&&USER≠0) && tabPresent entry

/-- Physical address of an access through the current directory. An access to a
page that is not present faults and has no result. -/
def access (s : Paging) (virtAddr : ℕ) : Option ℕ :=
  let (pde,pte) := getPdePte virtAddr
  let dir := s.dirs s.curPd
  if tabPresent (dir.pageTables pde) ∧ tabPresent (s.tables (dir.pageTablesVirt pde) pte) then
    some (toPhysAddr s s.curPd virtAddr)
  else none

/-- The loop over the bytes from `i` on. -/
def memcpyLoop (s : Paging) (dest copy : ℕ) : ℕ → ℕ → Bytes → Option Bytes
  | 0,_,mem => some mem
  | left+1,i,mem =>
    match access s (wadd dest i),access s (wadd copy i) with
    | some toByte,some fromByte =>
      memcpyLoop s dest copy left (i+1) (Function.update mem toByte (mem fromByte))
    | _,_ => none

/-- Copy bytes between virtual addresses. Through a null pointer nothing is
copied. -/
def memcpy (s : Paging) (mem : Bytes) (buf cpy len : ℕ) : Option Bytes :=
  if buf=0 ∨ cpy=0 then some mem else memcpyLoop s buf cpy len 0 mem

/-- Copy a page to a frame through a temporary mapping of the frame. -/
def copyPage (s : CloneState) (pd destPhys srcVirt : ℕ) : Option (ℕ×CloneState) :=
  match knmmap s.map pd destPhys 1 (R_W ||| PRESENT) with
  | none => none
  | some r =>
    if r.ret≠0 then some (1,{s with map := r.state})
    else
      let vMapAddr := r.addrs.headD 0
      match memcpy r.state.paging s.mem vMapAddr srcVirt PAGE_SIZE with
      | none => none
      | some mem =>
        match knmunmapContiguous r.state pd vMapAddr 1 with
        | none => none
        | some map => some (0,{s with map := map, mem := mem})

/-- The loop over the entries of a table. User pages get frames with the flags
of their entry and are copied; other entries are shared. -/
def cloneTableLoop (pd pde pt newPt : ℕ) : ℕ → ℕ → CloneState → Option (ℕ×CloneState)
  | 0,_,s => some (0,s)
  | left+1,i,s =>
    let entry := s.map.paging.tables pt i
    let flags := getTabFlags entry
    if userPresent entry then
      match findAllocNframes s.map.frames 1 (newPt+4*i) flags with
      | none => none
      | some f =>
        match storeEntries s.map.paging (newPt,i) f.addrs with
        | none => none
        | some paging =>
          let frames := {s.map.frames with frames := f.frames}
          let s := {s with map := {s.map with paging := paging, frames := frames}}
          if f.ret≠0 then some (ENOMEM,s)
          else
            let paddrNewPt := getTabPureAddr (s.map.paging.tables newPt i)
            match copyPage s pd paddrNewPt (getVirtAddr pde i) with
            | none => none
            | some (ret,s) =>
              if ret≠0 then some (1,s) else cloneTableLoop pd pde pt newPt left (i+1) s
    else
      let newTable := Function.update (s.map.paging.tables newPt) i entry
      cloneTableLoop pd pde pt newPt left (i+1)
        (s.setPaging (s.map.paging.setTable newPt newTable))

/-- Outcome of copying a table. -/
structure TableClone where
  /-- Zero on success. -/
  ret : ℕ
  /-- Pointer of the new table. -/
  newPt : ℕ
  /-- Physical address of the new table. -/
  newPtPhysAddr : ℕ
  /-- The state afterwards. -/
  state : CloneState

/-- The slab cache after it returned a page. -/
def CloneState.popSlab (s : CloneState) : CloneState :=
  {s with
    slabPages := fun i => s.slabPages (i+1), slabPages_dvd := fun i => s.slabPages_dvd (i+1)}

/-- Copy the table of a directory entry. -/
def clonePageTable (s : CloneState) (pd pde : ℕ) : Option TableClone :=
  let pt := (s.map.paging.dirs pd).pageTablesVirt pde
  let newPt := s.slabPages 0
  let newPtPhysAddr := toPhysAddr s.map.paging pd newPt
  let s := s.popSlab
  if newPt=0 then some ⟨EINVAL,newPt,newPtPhysAddr,s⟩
  else if pt=0 then none
  else
    match cloneTableLoop pd pde pt newPt PT_SIZE 0 s with
    | none => none
    | some (ret,s) => some ⟨ret,newPt,newPtPhysAddr,s⟩

/-- Drop the processor's flag of a directory entry. -/
def dropAccessed (s : CloneState) (pd pde : ℕ) : CloneState :=
  let dir := s.map.paging.dirs pd
  s.setPaging (s.map.paging.setDir pd (dir.setEntry pde (clearAccessed (dir.pageTables pde))))

/-- Write a directory entry in both arrays. -/
def putEntry (s : CloneState) (pd pde entry pt : ℕ) : CloneState :=
  s.setPaging (s.map.paging.setDir pd
    (((s.map.paging.dirs pd).setEntry pde entry).setVirt pde pt))

/-- The loop over the entries of a directory. -/
def cloneDirLoop (pd newPd : ℕ) : ℕ → ℕ → CloneState → Option (ℕ×CloneState)
  | 0,_,s => some (0,s)
  | left+1,i,s =>
    let s := dropAccessed s pd i
    let dir := s.map.paging.dirs pd
    if userPresent (dir.pageTables i) then
      match clonePageTable s pd i with
      | none => none
      | some c =>
        if c.ret≠0 then some (c.ret,c.state)
        else cloneDirLoop pd newPd left (i+1) (putEntry c.state newPd i c.newPtPhysAddr c.newPt)
    else
      cloneDirLoop pd newPd left (i+1)
        (putEntry s newPd i (dir.pageTables i) (dir.pageTablesVirt i))

/-- The heap after it returned two blocks. -/
def CloneState.popArrays (s : CloneState) : CloneState :=
  s.setPaging {s.map.paging with pages := fun i => s.map.paging.pages (i+2)}

/-- Copy a page directory. The heap provides the arrays of the new one. -/
def clonePageDir (s : CloneState) (pd newPd : ℕ) : Option (ℕ×CloneState) :=
  if newPd=0 then some (EINVAL,s)
  else
    let pageTables := s.map.paging.pages 0
    let pageTablesVirt := s.map.paging.pages 1
    let s := s.popArrays
    if pageTables=0 ∨ pageTablesVirt=0 then some (ENOMEM,s)
    else if pd=0 then none
    else cloneDirLoop pd newPd PT_SIZE 0 s

/-- Entry of a page. -/
def tableEntry (s : CloneState) (pd pde pte : ℕ) : ℕ :=
  s.map.paging.tables ((s.map.paging.dirs pd).pageTablesVirt pde) pte

/-- Frame of a page. -/
def pageFrame (s : CloneState) (pd pde pte : ℕ) : ℕ := getTabPureAddr (tableEntry s pd pde pte)

/-- A page that user mode reaches: both of its entries are present and for the user. -/
def UserPage (s : CloneState) (pd pde pte : ℕ) : Prop :=
  userPresent ((s.map.paging.dirs pd).pageTables pde)=true ∧
    userPresent (tableEntry s pd pde pte)=true

/-- What a copied address space should be. The copy drops the processor's flag
from the source's directory entries first. -/
structure Carries (s : CloneState) (pd newPd : ℕ) (t : CloneState) : Prop where
  /-- The directory entry of a user page has the flags of the source's. -/
  dirFlags : ∀ pde<PT_SIZE,∀ pte<PT_SIZE,UserPage s pd pde pte →
    getTabFlags ((t.map.paging.dirs newPd).pageTables pde)=
      getTabFlags (clearAccessed ((s.map.paging.dirs pd).pageTables pde))
  /-- The table entry of a user page has the flags of the source's. -/
  tableFlags : ∀ pde<PT_SIZE,∀ pte<PT_SIZE,UserPage s pd pde pte →
    getTabFlags (tableEntry t newPd pde pte)=getTabFlags (tableEntry s pd pde pte)
  /-- It has another frame than the source's. -/
  fresh : ∀ pde<PT_SIZE,∀ pte<PT_SIZE,UserPage s pd pde pte →
    pageFrame t newPd pde pte≠pageFrame s pd pde pte
  /-- It shares its frame with no other copied page. -/
  distinct : ∀ pde<PT_SIZE,∀ pte<PT_SIZE,UserPage s pd pde pte →
    ∀ pde'<PT_SIZE,∀ pte'<PT_SIZE,UserPage s pd pde' pte' → (pde,pte)≠(pde',pte') →
      pageFrame t newPd pde pte≠pageFrame t newPd pde' pte'
  /-- The frame holds the bytes of the source's page. -/
  contents : ∀ pde<PT_SIZE,∀ pte<PT_SIZE,UserPage s pd pde pte → ∀ off<PAGE_SIZE,
    t.mem (pageFrame t newPd pde pte+off)=s.mem (pageFrame s pd pde pte+off)
  /-- Entries that are not present ones for the user are the source's in both arrays. -/
  shared : ∀ pde<PT_SIZE,userPresent ((s.map.paging.dirs pd).pageTables pde)=false →
    (t.map.paging.dirs newPd).pageTables pde=
        clearAccessed ((s.map.paging.dirs pd).pageTables pde) ∧
      (t.map.paging.dirs newPd).pageTablesVirt pde=(s.map.paging.dirs pd).pageTablesVirt pde

/-! ## Entries for the user -/

/-- The processor's flag does not matter. -/
theorem userPresent_clearAccessed (entry : ℕ) :
    userPresent (clearAccessed entry)=userPresent entry := by
  rw [userPresent,tabPresent_clearAccessed,userPresent]
  unfold clearAccessed
  split
  · rw [Nat.and_assoc,show (0xFFFFFFDF : ℕ)&&&USER=USER from rfl]
  · rfl

/-- Further flags do not matter. -/
theorem userPresent_or {entry : ℕ} (h : userPresent entry=true) (flags : ℕ) :
    userPresent (entry ||| flags)=true := by
  simp only [userPresent,tabPresent,Bool.and_eq_true,decide_eq_true_iff,ne_eq,
    Nat.and_or_distrib_right,Nat.or_eq_zero_iff] at h ⊢
  exact ⟨fun hz => h.1 hz.1,fun hz => h.2 hz.1⟩

/-- An entry for the user has flags. -/
theorem getTabFlags_ne_zero {entry : ℕ} (h : userPresent entry=true) : getTabFlags entry≠0 := by
  intro hz
  simp only [userPresent,Bool.and_eq_true,decide_eq_true_iff] at h
  have huser : entry&&&USER=getTabFlags entry&&&USER := by
    rw [getTabFlags,Nat.and_assoc,show (0xfff : ℕ)&&&USER=USER from rfl]
  rw [huser,hz,Nat.zero_and] at h
  exact h.1 rfl

variable {s t : CloneState} {pd newPd : ℕ}

/-! ## What mappings leave of the directories -/

/-- Directories apart from one are kept, and its user entries stay user entries. -/
structure UserKept (pd : ℕ) (s t : Paging) : Prop where
  /-- Other directories are kept. -/
  others : ∀ dir≠pd,t.dirs dir=s.dirs dir
  /-- Entries for the user stay such. -/
  users : ∀ pde,userPresent ((s.dirs pd).pageTables pde)=true →
    userPresent ((t.dirs pd).pageTables pde)=true

/-- The same directories. -/
theorem UserKept.of_eq {s t : Paging} (h : t.dirs=s.dirs) : UserKept pd s t :=
  ⟨fun dir _ => by rw [h],fun pde hpde => by rwa [h]⟩

/-- One change after another. -/
theorem UserKept.trans {s t u : Paging} (h : UserKept pd s t) (h' : UserKept pd t u) :
    UserKept pd s u :=
  ⟨fun dir hne => (h'.others dir hne).trans (h.others dir hne),
    fun pde hpde => h'.users pde (h.users pde hpde)⟩

/-- Another entry in the directory. -/
theorem UserKept.setEntry {s : Paging} {dir : PageDir} {pde entry : ℕ}
    (hdir : dir.pageTables=Function.update (s.dirs pd).pageTables pde entry)
    (h : userPresent ((s.dirs pd).pageTables pde)=true → userPresent entry=true) :
    UserKept pd s (s.setDir pd dir) := by
  refine ⟨fun other hne => Function.update_of_ne hne _ _,fun q hq => ?_⟩
  simp only [Paging.setDir,Function.update_self,hdir]
  by_cases heq : q=pde
  · subst heq
    rw [Function.update_self]
    exact h hq
  · rwa [Function.update_of_ne heq]

/-- A new table leaves the directories. -/
theorem allocPt_dirs {s t : Paging} {flags newPt entry : ℕ}
    (h : allocPt s flags=some (newPt,entry,t)) : t.dirs=s.dirs := by
  simp only [allocPt] at h
  split at h
  · cases h
  · cases h
    rfl

/-- Making tables present. -/
theorem mapAllocNptLoop_userKept {pde flags left n : ℕ} {s : Paging} {pts : List ℕ} {m : NptResult}
    (h : mapAllocNptLoop pd pde flags left n s pts=some m) : UserKept pd s m.paging := by
  induction left generalizing n s pts with
  | zero =>
    cases h
    exact UserKept.of_eq rfl
  | succ left ih =>
    simp only [mapAllocNptLoop] at h
    split at h
    · cases h
      exact UserKept.of_eq rfl
    split at h
    · cases h
      refine UserKept.setEntry rfl fun huser => userPresent_or ?_ flags
      rwa [userPresent_clearAccessed]
    · rename_i habsent
      rw [tabPresent_clearAccessed] at habsent
      have hnot : userPresent ((s.dirs pd).pageTables (pde+n))≠true :=
        fun huser => habsent (Bool.and_eq_true_iff.mp huser).2
      split at h
      · cases h
      rename_i newPt newEntry u hu
      have hdirs := allocPt_dirs hu
      have hu := @UserKept.of_eq pd _ _ hdirs
      have hentry : (s.dirs pd).pageTables=(u.dirs pd).pageTables := by rw [hdirs]
      rw [hentry] at hnot
      split at h
      · cases h
        exact hu.trans (UserKept.setEntry (by rw [hdirs]; rfl) fun huser => absurd huser hnot)
      · exact hu.trans ((UserKept.setEntry (by rw [hdirs]; rfl)
          fun huser => absurd huser hnot).trans (ih h))

/-- Writing entries leaves the directories. -/
theorem storeEntries_dirs {s t : Paging} {pt : ℕ×ℕ} {entries : List ℕ}
    (h : storeEntries s pt entries=some t) : t.dirs=s.dirs := by
  unfold storeEntries at h
  split at h
  · cases h
  · cases h
    rfl

/-- Taking a block and making its table present. -/
theorem knmmapTable_userKept {s : MapState} {n flags : ℕ} {q : TableResult}
    (h : knmmapTable s pd n flags=some q) : UserKept pd s.paging q.state.paging := by
  simp only [knmmapTable] at h
  split at h
  · cases h
  split at h
  · cases h
    exact UserKept.of_eq rfl
  split at h
  · split at h
    · cases h
    rename_i m hm
    have hkept : UserKept pd s.paging m.paging := by
      unfold mapAllocNpt at hm
      split at hm
      · cases hm
        exact UserKept.of_eq rfl
      · exact mapAllocNptLoop_userKept hm
    split at h
    · cases h
      exact hkept
    · split at h
      · cases h
        exact hkept
      · cases h
  · cases h

/-- Mapping pages. -/
theorem knmmap_userKept {s : MapState} {phys n flags : ℕ} {r : MmapResult}
    (h : knmmap s pd phys n flags=some r) : UserKept pd s.paging r.state.paging := by
  simp only [knmmap] at h
  split at h
  · cases h
  rename_i q hq
  have hkept := knmmapTable_userKept hq
  split at h
  · cases h
    exact hkept
  split at h
  · cases h
  split at h
  · cases h
  rename_i paging hpaging
  cases h
  exact hkept.trans (UserKept.of_eq (storeEntries_dirs hpaging))

/-- Unmapping pages leaves the directories. -/
theorem knmunmapContiguous_dirs {s u : MapState} {virtAddr n : ℕ}
    (h : knmunmapContiguous s pd virtAddr n=some u) : u.paging.dirs=s.paging.dirs := by
  simp only [knmunmapContiguous] at h
  split at h
  · cases h
  split at h
  · cases h
  rename_i paging hpaging
  cases h
  exact (((unmapPages_spec (getPdePte_lt virtAddr) n).2 paging hpaging).2).dirs_eq

/-! ## What copying leaves of the directories -/

/-- Copying a page. -/
theorem copyPage_userKept {destPhys srcVirt ret : ℕ}
    (h : copyPage s pd destPhys srcVirt=some (ret,t)) :
    UserKept pd s.map.paging t.map.paging := by
  simp only [copyPage] at h
  split at h
  · cases h
  rename_i r hr
  have hkept := knmmap_userKept hr
  split at h
  · cases h
    exact hkept
  split at h
  · cases h
  split at h
  · cases h
  rename_i u hu
  cases h
  exact hkept.trans (UserKept.of_eq (knmunmapContiguous_dirs hu))

/-- Copying the entries of a table. -/
theorem cloneTableLoop_userKept {pde pt newPt left i ret : ℕ}
    (h : cloneTableLoop pd pde pt newPt left i s=some (ret,t)) :
    UserKept pd s.map.paging t.map.paging := by
  induction left generalizing i s with
  | zero =>
    cases h
    exact UserKept.of_eq rfl
  | succ left ih =>
    simp only [cloneTableLoop] at h
    split at h
    · split at h
      · cases h
      rename_i f hf
      split at h
      · cases h
      rename_i paging hpaging
      have hstored := @UserKept.of_eq pd _ _ (storeEntries_dirs hpaging)
      split at h
      · cases h
        exact hstored
      split at h
      · cases h
      rename_i code u hu
      have hcopied := hstored.trans (copyPage_userKept hu)
      split at h
      · cases h
        exact hcopied
      · exact hcopied.trans (ih h)
    · have hrest := ih h
      exact ⟨hrest.others,hrest.users⟩

/-- Copying a table. -/
theorem clonePageTable_userKept {pde : ℕ} {c : TableClone} (h : clonePageTable s pd pde=some c) :
    UserKept pd s.map.paging c.state.map.paging := by
  simp only [clonePageTable] at h
  split at h
  · cases h
    exact UserKept.of_eq rfl
  split at h
  · cases h
  split at h
  · cases h
  · rename_i ret u hu
    cases h
    have hrest := cloneTableLoop_userKept hu
    exact ⟨hrest.others,hrest.users⟩

/-! ## Copies without flags -/

/-- A page boundary translates to a page boundary. -/
theorem getTabFlags_toPhysAddr {s : Paging} (hpd : pd≠0) {page : ℕ} (hd : PAGE_SIZE∣page) :
    getTabFlags (toPhysAddr s pd page)=0 := by
  have hpage := @toPhysAddr_page s pd hpd page 0 hd (by norm_num)
  rw [Nat.add_zero] at hpage
  rw [hpage]
  split
  · rfl
  · rw [Nat.add_zero,getTabFlags_eq]
    exact Nat.mod_eq_zero_of_dvd (getTabPureAddr_page _).1

/-- The physical address of a new table has no flags. -/
theorem clonePageTable_bare (hpd : pd≠0) {pde : ℕ} {c : TableClone}
    (h : clonePageTable s pd pde=some c) : getTabFlags c.newPtPhysAddr=0 := by
  have hflags := @getTabFlags_toPhysAddr pd s.map.paging hpd _ (s.slabPages_dvd 0)
  simp only [clonePageTable] at h
  split at h
  · cases h
    exact hflags
  split at h
  · cases h
  split at h
  · cases h
  · cases h
    exact hflags

/-- Dropping the processor's flag. -/
theorem dropAccessed_userKept (pde : ℕ) :
    UserKept pd s.map.paging (dropAccessed s pd pde).map.paging :=
  UserKept.setEntry rfl fun huser => by rwa [userPresent_clearAccessed]

/-- The directory whose flag was dropped. -/
theorem dropAccessed_dir (s : CloneState) (pd pde : ℕ) :
    (dropAccessed s pd pde).map.paging.dirs pd=(s.map.paging.dirs pd).setEntry pde
      (clearAccessed ((s.map.paging.dirs pd).pageTables pde)) := Function.update_self _ _ _

/-- Its entries. -/
theorem dropAccessed_entry (s : CloneState) (pd i pde : ℕ) :
    ((dropAccessed s pd i).map.paging.dirs pd).pageTables pde=if pde=i then
      clearAccessed ((s.map.paging.dirs pd).pageTables i)
      else (s.map.paging.dirs pd).pageTables pde := by
  rw [dropAccessed_dir]
  exact Function.update_apply _ _ _ _

/-- Its pointers. -/
theorem dropAccessed_virt (s : CloneState) (pd i : ℕ) :
    ((dropAccessed s pd i).map.paging.dirs pd).pageTablesVirt=
      (s.map.paging.dirs pd).pageTablesVirt := by
  rw [dropAccessed_dir]
  rfl

/-- The entries of the directory that was written. -/
theorem putEntry_entry (s : CloneState) (pd i entry pt pde : ℕ) :
    ((putEntry s pd i entry pt).map.paging.dirs pd).pageTables pde=
      if pde=i then entry else (s.map.paging.dirs pd).pageTables pde := by
  simp only [putEntry,CloneState.setPaging,Paging.setDir,Function.update_self,PageDir.setVirt,
    PageDir.setEntry,Function.update_apply]

/-- Its pointers. -/
theorem putEntry_virt (s : CloneState) (pd i entry pt pde : ℕ) :
    ((putEntry s pd i entry pt).map.paging.dirs pd).pageTablesVirt pde=
      if pde=i then pt else (s.map.paging.dirs pd).pageTablesVirt pde := by
  simp only [putEntry,CloneState.setPaging,Paging.setDir,Function.update_self,PageDir.setVirt,
    PageDir.setEntry,Function.update_apply]

/-- Other directories. -/
theorem putEntry_other (s : CloneState) {pd dir : ℕ} (hne : dir≠pd) (pde entry pt : ℕ) :
    (putEntry s pd pde entry pt).map.paging.dirs dir=s.map.paging.dirs dir :=
  Function.update_of_ne hne _ _

/-- A step of a successful copy: a user entry gets its copied table, another one
is shared. -/
theorem cloneDirLoop_step {left i : ℕ} (h : cloneDirLoop pd newPd (left+1) i s=some (0,t)) :
    (userPresent ((s.map.paging.dirs pd).pageTables i)=true ∧
      ∃ c,clonePageTable (dropAccessed s pd i) pd i=some c ∧ c.ret=0 ∧
        cloneDirLoop pd newPd left (i+1)
          (putEntry c.state newPd i c.newPtPhysAddr c.newPt)=some (0,t)) ∨
    (userPresent ((s.map.paging.dirs pd).pageTables i)=false ∧
      cloneDirLoop pd newPd left (i+1) (putEntry (dropAccessed s pd i) newPd i
        (clearAccessed ((s.map.paging.dirs pd).pageTables i))
        ((s.map.paging.dirs pd).pageTablesVirt i))=some (0,t)) := by
  simp only [cloneDirLoop,dropAccessed_dir,PageDir.setEntry,Function.update_self,
    userPresent_clearAccessed] at h
  split at h
  · rename_i huser
    split at h
    · cases h
    rename_i c hc
    by_cases hret : c.ret=0
    · rw [if_neg (not_not_intro hret)] at h
      exact Or.inl ⟨huser,c,hc,hret,h⟩
    · rw [if_pos hret] at h
      exact absurd (Prod.mk.inj (Option.some.inj h)).1 hret
  · rename_i hother
    exact Or.inr ⟨Bool.not_eq_true _▸hother,h⟩

/-- A copy keeps the new directory's entries before `i`. -/
theorem cloneDirLoop_before (hne : newPd≠pd) {left i pde : ℕ} (hpde : pde < i)
    (h : cloneDirLoop pd newPd left i s=some (0,t)) :
    (t.map.paging.dirs newPd).pageTables pde=(s.map.paging.dirs newPd).pageTables pde ∧
      (t.map.paging.dirs newPd).pageTablesVirt pde=
        (s.map.paging.dirs newPd).pageTablesVirt pde := by
  induction left generalizing i s with
  | zero =>
    cases h
    exact ⟨rfl,rfl⟩
  | succ left ih =>
    have hdrop := @dropAccessed_userKept s pd i
    obtain ⟨_,c,hc,_,hrest⟩|⟨_,hrest⟩ := cloneDirLoop_step h
    · have hkept := (hdrop.trans (clonePageTable_userKept hc)).others newPd hne
      have hlater := ih (by omega) hrest
      rwa [putEntry_entry,putEntry_virt,if_neg hpde.ne,if_neg hpde.ne,hkept] at hlater
    · have hlater := ih (by omega) hrest
      rwa [putEntry_entry,putEntry_virt,if_neg hpde.ne,if_neg hpde.ne,
        hdrop.others newPd hne] at hlater

/-- A successful copy gives the user entries from `i` on no flags. -/
theorem cloneDirLoop_bare (hpd : pd≠0) (hne : newPd≠pd) {left i pde : ℕ}
    (h : cloneDirLoop pd newPd left i s=some (0,t)) (hlo : i≤pde) (hhi : pde < i+left)
    (huser : userPresent ((s.map.paging.dirs pd).pageTables pde)=true) :
    getTabFlags ((t.map.paging.dirs newPd).pageTables pde)=0 := by
  induction left generalizing i s with
  | zero => omega
  | succ left ih =>
    have hdrop := @dropAccessed_userKept s pd i
    obtain ⟨_,c,hc,_,hrest⟩|⟨hother,hrest⟩ := cloneDirLoop_step h
    · rcases hlo.eq_or_lt with rfl|hlt
      · rw [(cloneDirLoop_before hne (Nat.lt_succ_self i) hrest).1,putEntry_entry,if_pos rfl]
        exact clonePageTable_bare hpd hc
      · refine ih hrest hlt (by omega) ?_
        rw [putEntry_other _ (Ne.symm hne)]
        exact (hdrop.trans (clonePageTable_userKept hc)).users pde huser
    · have hgt : i≠pde := by
        rintro rfl
        rw [hother] at huser
        cases huser
      refine ih hrest (by omega) (by omega) ?_
      rw [putEntry_other _ (Ne.symm hne)]
      exact hdrop.users pde huser

/-- A successful copy of a directory goes through its entries. -/
theorem clonePageDir_loop (h : clonePageDir s pd newPd=some (0,t)) :
    pd≠0 ∧ cloneDirLoop pd newPd PT_SIZE 0 s.popArrays=some (0,t) := by
  simp only [clonePageDir] at h
  split at h
  · cases h
  split at h
  · cases h
  split at h
  · cases h
  · rename_i hpd
    exact ⟨hpd,h⟩

/-- A copy's directory entry has no flags where the source's is a present one for
the user. -/
theorem clonePageDir_bare (hne : newPd≠pd) (h : clonePageDir s pd newPd=some (0,t)) {pde : ℕ}
    (hpde : pde<PT_SIZE) (huser : userPresent ((s.map.paging.dirs pd).pageTables pde)=true) :
    getTabFlags ((t.map.paging.dirs newPd).pageTables pde)=0 := by
  obtain ⟨hpd,hloop⟩ := clonePageDir_loop h
  exact cloneDirLoop_bare hpd hne hloop (Nat.zero_le _) (by omega) huser

/-! ## Copies without user pages -/

/-- No page is reachable from user mode. -/
def NoUserPages (s : CloneState) (pd : ℕ) : Prop :=
  ∀ pde<PT_SIZE,∀ pte<PT_SIZE,¬UserPage s pd pde pte

/-- Entries of a table taken over from another one, from an index on. -/
def shareEntries (s : Paging) (pt newPt i left : ℕ) : Paging :=
  s.setTable newPt fun j => if i≤j ∧ j < i+left then s.tables pt j else s.tables newPt j

/-- A table without user pages is taken over. -/
theorem cloneTableLoop_plain {pde pt newPt left i : ℕ}
    (hplain : ∀ j,i≤j → j < i+left → userPresent (s.map.paging.tables pt j)=false) :
    cloneTableLoop pd pde pt newPt left i s=
      some (0,s.setPaging (shareEntries s.map.paging pt newPt i left)) := by
  induction left generalizing i s with
  | zero =>
    have hnone : ∀ j,¬(i≤j ∧ j < i+0) := fun j hj => absurd hj.2 (not_lt_of_ge hj.1)
    simp only [cloneTableLoop,shareEntries,CloneState.setPaging,Paging.setTable,if_neg (hnone _),
      Function.update_eq_self]
  | succ left ih =>
    have hfirst := hplain i (Nat.le_refl _) (by omega)
    have hstep : ∀ j,Function.update s.map.paging.tables newPt
        (Function.update (s.map.paging.tables newPt) i (s.map.paging.tables pt i)) pt j=
          s.map.paging.tables pt j := by
      intro j
      by_cases hpt : pt=newPt
      · subst hpt
        rw [Function.update_self,Function.update_eq_self]
      · rw [Function.update_of_ne hpt]
    simp only [cloneTableLoop,hfirst,Bool.false_eq_true,if_false]
    rw [ih fun j hlo hhi => ?_]
    · simp only [shareEntries,CloneState.setPaging,Paging.setTable,hstep,Function.update_self,
        Function.update_idem]
      have hentries : (fun j => if i+1≤j ∧ j < i+1+left then s.map.paging.tables pt j
          else Function.update (s.map.paging.tables newPt) i (s.map.paging.tables pt i) j)=
            fun j => if i≤j ∧ j < i+(left+1) then s.map.paging.tables pt j
              else s.map.paging.tables newPt j := by
        funext j
        rcases Nat.lt_trichotomy j i with hlt|rfl|hgt
        · rw [if_neg (by omega),if_neg (by omega),Function.update_of_ne hlt.ne]
        · rw [if_neg (by omega),if_pos (by omega),Function.update_self]
        · rw [Function.update_of_ne hgt.ne']
          exact if_congr (by omega) rfl rfl
      rw [hentries]
    · simp only [CloneState.setPaging,Paging.setTable,hstep]
      exact hplain j (by omega) (by omega)

/-- Copying a table of a directory without user pages. -/
theorem clonePageTable_plain {pde : ℕ} {c : TableClone} (hs : NoUserPages s pd) (hpde : pde<PT_SIZE)
    (huser : userPresent ((s.map.paging.dirs pd).pageTables pde)=true)
    (h : clonePageTable s pd pde=some c) (hret : c.ret=0) :
    c.state.map.paging.dirs=s.map.paging.dirs ∧ NoUserPages c.state pd := by
  have hplain : ∀ j,0≤j → j<0+PT_SIZE → userPresent (tableEntry s pd pde j)=false :=
    fun j _ hj => Bool.eq_false_iff.mpr fun hpage => hs pde hpde j (by omega) ⟨huser,hpage⟩
  simp only [clonePageTable] at h
  split at h
  · cases h
    cases hret
  split at h
  · cases h
  rw [@cloneTableLoop_plain s.popSlab pd pde _ _ PT_SIZE 0 hplain] at h
  cases h
  refine ⟨rfl,fun q hq j hj hpage => ?_⟩
  obtain ⟨hentry,hpage⟩ := hpage
  simp only [tableEntry,shareEntries,CloneState.setPaging,Paging.setTable,
    Function.update_apply] at hpage hentry
  split at hpage
  · dsimp only at hpage
    rw [if_pos (by omega)] at hpage
    exact hs pde hpde j hj ⟨huser,hpage⟩
  · exact hs q hq j hj ⟨hentry,hpage⟩

/-- Dropping the processor's flag makes no user page. -/
theorem NoUserPages.dropAccessed (hs : NoUserPages s pd) (i : ℕ) :
    NoUserPages (dropAccessed s pd i) pd := by
  intro pde hpde pte hpte hpage
  obtain ⟨hentry,hpage⟩ := hpage
  rw [tableEntry,dropAccessed_virt] at hpage
  refine hs pde hpde pte hpte ⟨?_,hpage⟩
  rw [dropAccessed_entry] at hentry
  split at hentry
  · rename_i heq
    rwa [heq,←userPresent_clearAccessed]
  · exact hentry

/-- Writing another directory makes no user page. -/
theorem NoUserPages.putEntry (hs : NoUserPages s pd) (hne : newPd≠pd) (i entry pt : ℕ) :
    NoUserPages (putEntry s newPd i entry pt) pd := by
  intro pde hpde pte hpte hpage
  obtain ⟨hentry,hpage⟩ := hpage
  rw [putEntry_other _ (Ne.symm hne)] at hentry
  rw [tableEntry,putEntry_other _ (Ne.symm hne)] at hpage
  exact hs pde hpde pte hpte ⟨hentry,hpage⟩

/-- A successful copy without user pages shares the other entries from `i` on. -/
theorem cloneDirLoop_shared (hne : newPd≠pd) {left i pde : ℕ} (hs : NoUserPages s pd)
    (hi : i+left≤PT_SIZE) (h : cloneDirLoop pd newPd left i s=some (0,t)) (hlo : i≤pde)
    (hhi : pde < i+left) (hother : userPresent ((s.map.paging.dirs pd).pageTables pde)=false) :
    (t.map.paging.dirs newPd).pageTables pde=
        clearAccessed ((s.map.paging.dirs pd).pageTables pde) ∧
      (t.map.paging.dirs newPd).pageTablesVirt pde=
        (s.map.paging.dirs pd).pageTablesVirt pde := by
  induction left generalizing i s with
  | zero => omega
  | succ left ih =>
    have hdrop := hs.dropAccessed i
    obtain ⟨huser,c,hc,hret,hrest⟩|⟨_,hrest⟩ := cloneDirLoop_step h
    · obtain ⟨hdirs,hclean⟩ := clonePageTable_plain hdrop (by omega)
        ((@dropAccessed_userKept s pd i).users i huser) hc hret
      have hgt : pde≠i := by
        rintro rfl
        rw [huser] at hother
        cases hother
      have hlater := ih (hclean.putEntry hne _ _ _) (by omega) hrest (by omega) (by omega)
      rw [putEntry_other _ (Ne.symm hne),hdirs,dropAccessed_entry,if_neg hgt,
        dropAccessed_virt] at hlater
      exact hlater hother
    · rcases hlo.eq_or_lt with rfl|hlt
      · have hbefore := cloneDirLoop_before hne (Nat.lt_succ_self i) hrest
        rwa [putEntry_entry,putEntry_virt,if_pos rfl,if_pos rfl] at hbefore
      · have hlater := ih (hdrop.putEntry hne _ _ _) (by omega) hrest hlt (by omega)
        rw [putEntry_other _ (Ne.symm hne),dropAccessed_entry,if_neg hlt.ne',
          dropAccessed_virt] at hlater
        exact hlater hother

/-- A successful copy of a directory carries its address space exactly when no
page is reachable from user mode. -/
theorem clonePageDir_carries_iff (hne : newPd≠pd) (h : clonePageDir s pd newPd=some (0,t)) :
    Carries s pd newPd t ↔ NoUserPages s pd := by
  constructor
  · intro hcarries pde hpde pte hpte hpage
    have hflags := hcarries.dirFlags pde hpde pte hpte hpage
    rw [clonePageDir_bare hne h hpde hpage.1] at hflags
    refine getTabFlags_ne_zero ?_ hflags.symm
    rw [userPresent_clearAccessed]
    exact hpage.1
  · intro hs
    obtain ⟨_,hloop⟩ := clonePageDir_loop h
    have hs' : NoUserPages s.popArrays pd := hs
    have hshared : ∀ pde<PT_SIZE,userPresent ((s.map.paging.dirs pd).pageTables pde)=false →
        (t.map.paging.dirs newPd).pageTables pde=
            clearAccessed ((s.map.paging.dirs pd).pageTables pde) ∧
          (t.map.paging.dirs newPd).pageTablesVirt pde=
            (s.map.paging.dirs pd).pageTablesVirt pde := by
      intro pde hpde hother
      have hhi : pde<0+PT_SIZE := by omega
      exact @cloneDirLoop_shared s.popArrays t pd newPd hne PT_SIZE 0 pde hs' (by omega) hloop
        (Nat.zero_le _) hhi hother
    exact {
      dirFlags := fun pde hpde pte hpte hpage => absurd hpage (hs pde hpde pte hpte)
      tableFlags := fun pde hpde pte hpte hpage => absurd hpage (hs pde hpde pte hpte)
      fresh := fun pde hpde pte hpte hpage => absurd hpage (hs pde hpde pte hpte)
      distinct := fun pde hpde pte hpte hpage => absurd hpage (hs pde hpde pte hpte)
      contents := fun pde hpde pte hpte hpage => absurd hpage (hs pde hpde pte hpte)
      shared := hshared}

/-! ## A page that is not carried -/

/-- A copy of a table goes on after some entries. -/
theorem cloneTableLoop_add {pde pt newPt k left i : ℕ} {u : CloneState}
    (h : cloneTableLoop pd pde pt newPt k i s=some (0,u)) :
    cloneTableLoop pd pde pt newPt (k+left) i s=
      cloneTableLoop pd pde pt newPt left (i+k) u := by
  induction k generalizing i s with
  | zero =>
    cases h
    rw [Nat.zero_add,Nat.add_zero]
  | succ k ih =>
    rw [Nat.add_right_comm k 1 left,show i+(k+1)=i+1+k by omega]
    simp only [cloneTableLoop] at h ⊢
    split at h
    · rename_i huser
      rw [if_pos huser]
      split at h
      · cases h
      rename_i f hf
      split at h
      · cases h
      rename_i paging hpaging
      split at h
      · cases h
      rename_i hret
      rw [if_neg hret]
      split at h
      · cases h
      rename_i code v hv
      split at h
      · cases h
      rename_i hcode
      rw [if_neg hcode]
      exact ih h
    · rename_i huser
      rw [if_neg huser]
      exact ih h

/-- A directory without entries for the user is copied. -/
theorem cloneDirLoop_returns (hne : newPd≠pd) {left i : ℕ}
    (hplain : ∀ j,i≤j → j < i+left →
      userPresent ((s.map.paging.dirs pd).pageTables j)=false) :
    ∃ t,cloneDirLoop pd newPd left i s=some (0,t) := by
  induction left generalizing i s with
  | zero => exact ⟨s,rfl⟩
  | succ left ih =>
    have hfirst : userPresent (((dropAccessed s pd i).map.paging.dirs pd).pageTables i)=false := by
      rw [dropAccessed_entry,if_pos rfl,userPresent_clearAccessed]
      exact hplain i (Nat.le_refl _) (by omega)
    simp only [cloneDirLoop,hfirst,Bool.false_eq_true,if_false]
    refine ih fun j hlo hhi => ?_
    rw [putEntry_other _ (Ne.symm hne),dropAccessed_entry,if_neg (by omega)]
    exact hplain j (by omega) (by omega)

/-- Pages behind a page boundary. -/
theorem dvd_page (i : ℕ) : PAGE_SIZE∣0xC0500000+PAGE_SIZE*i :=
  (Nat.dvd_add_right (by norm_num)).mpr (Nat.dvd_mul_right _ _)

/-- A current directory with a user table at its start, which maps one page, and
two tables of the kernel. -/
def forkState (page : ℕ) : CloneState where
  map := {
    paging := {
      dirs := fun _ => {
        pageTables := Function.update (Function.update (Function.update (fun _ => 0)
          832 0x302003) 769 0x301003) 0 0x300007
        pageTablesVirt := Function.update (Function.update (Function.update (fun _ => 0)
          832 0xC0302000) 769 0xC0301000) 0 0xC0300000}
      tables := Function.update (Function.update (fun _ _ => 0)
        0xC0301000 fun j => 0x400003+PAGE_SIZE*j) 0xC0300000 (Function.update (fun _ => 0) 1 page)
      curPd := 0xC0200000
      virtKernelAddr := VADDR
      pages := fun i => 0xC0400000+PAGE_SIZE*i}
    buddy := (emptyState 0xD0000000).buddy
    frames := {
      frames := fun i => if i<128 then 0xFFFFFFFF#32 else if i=128 then 1#32 else 0#32
      framesNum := 1024
      framesNum_lt := by decide}}
  mem := fun _ => 0#8
  slabPages := fun i => 0xC0500000+PAGE_SIZE*i
  slabPages_dvd := dvd_page

/-- What the first two entries of the user table leave behind: the page was
copied, and nothing else is for the user. -/
theorem forkState_page :
    (cloneTableLoop 0xC0200000 0 0xC0300000 0xC0500000 2 0
      (dropAccessed (forkState 0x1000007).popArrays 0xC0200000 0).popSlab).any (fun r =>
        decide (r.1=0) && (List.range PT_SIZE).all fun j =>
          !userPresent ((r.2.map.paging.dirs 0xC0200000).pageTables (j+1)) &&
          !userPresent (r.2.map.paging.tables 0xC0300000 (j+2)))=true := by
  decide +kernel

/-- A copy of a directory whose first entry alone is for the user. -/
theorem cloneDirLoop_first (hne : newPd≠pd) {k : ℕ} {u : CloneState}
    (huser : userPresent ((s.map.paging.dirs pd).pageTables 0)=true)
    (hslab : (dropAccessed s pd 0).slabPages 0≠0)
    (hpt : (s.map.paging.dirs pd).pageTablesVirt 0≠0)
    (hk : k≤PT_SIZE)
    (hu : cloneTableLoop pd 0 ((s.map.paging.dirs pd).pageTablesVirt 0)
      ((dropAccessed s pd 0).slabPages 0) k 0 (dropAccessed s pd 0).popSlab=some (0,u))
    (hentries : ∀ j,k≤j → j<PT_SIZE →
      userPresent (u.map.paging.tables ((s.map.paging.dirs pd).pageTablesVirt 0) j)=false)
    (hdirs : ∀ j,1≤j → j<PT_SIZE → userPresent ((u.map.paging.dirs pd).pageTables j)=false) :
    ∃ t,cloneDirLoop pd newPd PT_SIZE 0 s=some (0,t) := by
  have hfirst : userPresent (((dropAccessed s pd 0).map.paging.dirs pd).pageTables 0)=true := by
    rwa [dropAccessed_entry,if_pos rfl,userPresent_clearAccessed]
  have hsum : k+(PT_SIZE-k)=PT_SIZE := by omega
  have hrest := @cloneTableLoop_add _ _ _ _ _ _ (PT_SIZE-k) _ _ hu
  rw [hsum,cloneTableLoop_plain fun j hlo hhi => hentries j (by omega) (by omega)] at hrest
  have htable : ∃ c,clonePageTable (dropAccessed s pd 0) pd 0=some c ∧ c.ret=0 ∧
      c.state.map.paging.dirs=u.map.paging.dirs := by
    simp only [clonePageTable,dropAccessed_virt]
    rw [if_neg hslab,if_neg hpt,hrest]
    exact ⟨_,rfl,rfl,rfl⟩
  obtain ⟨c,hc,hret,hcdirs⟩ := htable
  have hsize : PT_SIZE=1023+1 := rfl
  rw [hsize,cloneDirLoop]
  simp only [hfirst,if_true,hc]
  rw [if_neg (not_not_intro hret)]
  refine cloneDirLoop_returns hne fun j hlo hhi => ?_
  rw [putEntry_other _ (Ne.symm hne),hcdirs]
  exact hdirs j (by omega) (by rw [hsize]; omega)

/-- The directory with one user page is copied. -/
theorem forkState_copied :
    ∃ t,clonePageDir (forkState 0x1000007) 0xC0200000 0xC0600000=some (0,t) := by
  obtain ⟨⟨ret,u⟩,hu,hplain⟩ := (Option.any_eq_true _ _).mp forkState_page
  simp only [Bool.and_eq_true,decide_eq_true_iff,List.all_eq_true,List.mem_range,
    Bool.not_eq_true'] at hplain
  obtain ⟨rfl,hplain⟩ := hplain
  rw [clonePageDir,if_neg (by norm_num)]
  simp only
  rw [if_neg (by decide),if_neg (by norm_num)]
  refine @cloneDirLoop_first (forkState 0x1000007).popArrays 0xC0200000 0xC0600000
    (by norm_num) 2 u (by decide) (by decide) (by decide) (by norm_num) hu
    (fun j hlo hhi => ?_) (fun j hlo hhi => ?_)
  · have hj := (hplain (j-2) (Nat.lt_of_le_of_lt (Nat.sub_le j 2) hhi)).2
    rwa [Nat.sub_add_cancel hlo] at hj
  · have hj := (hplain (j-1) (Nat.lt_of_le_of_lt (Nat.sub_le j 1) hhi)).1
    rwa [Nat.sub_add_cancel hlo] at hj

/-- One user page is copied without flags in its directory entry. -/
theorem copied_not_carried :
    ¬∀ (s t : CloneState) (pd newPd : ℕ),newPd≠pd → clonePageDir s pd newPd=some (0,t) →
      Carries s pd newPd t := by
  intro h
  obtain ⟨t,ht⟩ := forkState_copied
  have hcarries := h _ t _ _ (by norm_num) ht
  have hpage : UserPage (forkState 0x1000007) 0xC0200000 0 1 := by
    unfold UserPage
    decide
  have hflags := hcarries.dirFlags 0 (by norm_num) 1 (by norm_num) hpage
  rw [clonePageDir_bare (by norm_num) ht (by norm_num) hpage.1] at hflags
  exact absurd hflags (by decide)

/-- A copy of one user page. -/
theorem carries_forkState :
    ∃ t,clonePageDir (forkState 0x1000007) 0xC0200000 0xC0600000=some (0,t) ∧
      (Carries (forkState 0x1000007) 0xC0200000 0xC0600000 t ↔
        NoUserPages (forkState 0x1000007) 0xC0200000) := by
  obtain ⟨t,ht⟩ := forkState_copied
  exact ⟨t,ht,clonePageDir_carries_iff (by norm_num) ht⟩

end XanaduOS.AddressSpaces
