import XanaduOS.PageFaults
import XanaduOS.Runs

/-!
# Runs of page faults

A run begins with the tables of initialisation: four of them map the kernel's
memory page by page, and all frames behind it are marked. From then on each
fault makes its table if it is missing, and backs its page with a frame that
was free. Pages that translate keep their translation, no two pages share a
frame, and the directory names every table by its physical address. The search
for one frame looks at the first eight bits of each word only. When these are
all marked, faults leave their pages as they are.
-/

namespace XanaduOS.DemandPaging

open Word32 BitWords KernelDefs FrameAlloc FrameGroups PageTables MemoryMapping TableAllocation
  PageFaults

/-! ## The handler and initialisation -/

/-- The fault handler for an address and an error code. -/
def pageFault (s : FaultState) (faultAddr error : ℕ) : Option FaultState :=
  let (pde,pte) := getPdePte faultAddr
  if error^^^PRESENT≠0 then (nonPresentPageHanler s pde pte).map Prod.snd else some s

/-- Serve the faults of a list of addresses and error codes, in order. -/
def pageFaults (s : FaultState) (faults : List (ℕ×ℕ)) : Option FaultState :=
  faults.foldlM (fun s fault => pageFault s fault.1 fault.2) s

/-- Tables of the kernel's memory. -/
abbrev KERNEL_INIT_PT_COUNT : ℕ := 4

/-- Entry flag: the table is kept when the directory changes. -/
abbrev GLOBAL : ℕ := 256

/-- Mark the frame of an address and write its entry. -/
def allocFrame (s : FaultState) (addr : ℕ) (entry : ℕ×ℕ) (flags : ℕ) : Option FaultState :=
  let r := allocNframes s.frames.frames 1 addr (entry.1+4*entry.2) flags
  match storeEntries s.paging entry r.addrs with
  | none => none
  | some paging => some ⟨paging,{s.frames with frames := r.frames}⟩

/-- The loop over the pages of the kernel's memory, from page `i` on. -/
def kernelPagesLoop (kernelPageTable : ℕ) : ℕ → ℕ → FaultState → Option FaultState
  | 0,_,s => some s
  | left+1,i,s =>
    match allocFrame s (i*0x1000) (kernelPageTable+4*PT_SIZE*(i/PT_SIZE),i%PT_SIZE)
        (R_W ||| PRESENT) with
    | none => none
    | some s => kernelPagesLoop kernelPageTable left (i+1) s

/-- Enter one of the kernel's tables in the directory. -/
def kernelSlot (initPd kernelPageTable : ℕ) (s : Paging) (i : ℕ) : Paging :=
  let table := kernelPageTable+4*(PT_SIZE*i)
  let dir := s.dirs initPd
  s.setDir initPd ((dir.setEntry (768+i)
    (toPhysAddr s s.curPd table ||| PRESENT ||| R_W ||| GLOBAL)).setVirt (768+i) table)

/-- Make the entries of a directory writable. -/
def makeWritable (s : FaultState) (initPd : ℕ) : FaultState :=
  let entries := (s.paging.dirs initPd).pageTables
  let writable := fun i => if i<PT_SIZE then entries i ||| R_W else entries i
  {s with paging := s.paging.setDir initPd {s.paging.dirs initPd with pageTables := writable} }

/-- The tables of initialisation. The current directory is entered last. -/
def pageTablesInit (s : FaultState) (initPd kernelPageTable : ℕ) : Option FaultState :=
  match kernelPagesLoop kernelPageTable (KERNEL_INIT_PT_COUNT*PT_SIZE) 0
      (makeWritable s initPd) with
  | none => none
  | some s =>
    let paging := (List.range KERNEL_INIT_PT_COUNT).foldl (kernelSlot initPd kernelPageTable)
      s.paging
    some {s with paging := {paging with curPd := initPd}}

/-! ## What runs keep -/

/-- The first eight bits of every word are marked. -/
def Exhausted (s : FrameAllocator) : Prop :=
  ∀ w<s.framesNum,∀ j<8,bitAt s.frames (32*w+j)=true

/-- A word address whose page translates. -/
def Reached (s : Paging) (addr : ℕ) : Prop :=
  addr<2^32 ∧ translate s (getPdePte addr).1 (getPdePte addr).2≠none

/-- Slots of the current directory without a table. -/
def missingSlots (s : Paging) : Finset ℕ :=
  (Finset.range PT_SIZE).filter fun q => slotPresent s s.curPd q=false

/-- The heap's next `n` pages are distinct pages of mapped memory that are not
tables. -/
structure HeapReady (s : Paging) (n : ℕ) : Prop where
  /-- The pages are there. -/
  nonnull : ∀ i<n,s.pages i≠0
  /-- No page is handed out twice. -/
  apart : ∀ i<n,∀ j<n,s.pages i=s.pages j → i=j
  /-- No page is a table already. -/
  unused : ∀ i<n,∀ q<PT_SIZE,slotPresent s s.curPd q=true →
    (s.dirs s.curPd).pageTablesVirt q≠s.pages i
  /-- The pages translate. -/
  mapped : ∀ i<n,Reached s (s.pages i)
  /-- They begin at page addresses. -/
  aligned : ∀ i<n,PAGE_SIZE∣s.pages i

/-- The tables agree with the directory and with the bitmap, and the heap has a
page for every missing table. -/
structure Backed (s : FaultState) : Prop where
  /-- There is a directory. -/
  current : s.paging.curPd≠0
  /-- Tables of present slots are reached. -/
  pointers : ∀ q<PT_SIZE,slotPresent s.paging s.paging.curPd q=true →
    (s.paging.dirs s.paging.curPd).pageTablesVirt q≠0
  /-- Different slots have different tables. -/
  apart : ∀ q<PT_SIZE,∀ r<PT_SIZE,slotPresent s.paging s.paging.curPd q=true →
    slotPresent s.paging s.paging.curPd r=true →
    (s.paging.dirs s.paging.curPd).pageTablesVirt q=
      (s.paging.dirs s.paging.curPd).pageTablesVirt r → q=r
  /-- The entry of a slot has the physical address of its table. -/
  named : ∀ q<PT_SIZE,slotPresent s.paging s.paging.curPd q=true →
    Reached s.paging ((s.paging.dirs s.paging.curPd).pageTablesVirt q) ∧
    toPhysAddr s.paging s.paging.curPd ((s.paging.dirs s.paging.curPd).pageTablesVirt q)=
      getTabPureAddr ((s.paging.dirs s.paging.curPd).pageTables q)
  /-- Tables can be made for the missing slots. -/
  heap : HeapReady s.paging (missingSlots s.paging).card
  /-- The frame of a page is marked. -/
  used : ∀ q<PT_SIZE,∀ j<PT_SIZE,∀ entry,translate s.paging q j=some entry →
    bitAt s.frames.frames (getTabPureAddr entry/PAGE_SIZE)=true
  /-- No two pages share a frame. -/
  owned : ∀ q<PT_SIZE,∀ j<PT_SIZE,∀ r<PT_SIZE,∀ k<PT_SIZE,∀ entry other,
    translate s.paging q j=some entry → translate s.paging r k=some other →
    getTabPureAddr entry=getTabPureAddr other → q=r ∧ j=k

/-- What a run leaves of the state before it. -/
structure Keeps (s t : FaultState) : Prop where
  /-- The directory is the same. -/
  current : t.paging.curPd=s.paging.curPd
  /-- Present slots keep their entry and their table. -/
  slots : ∀ q<PT_SIZE,slotPresent s.paging s.paging.curPd q=true →
    (t.paging.dirs t.paging.curPd).pageTables q=(s.paging.dirs s.paging.curPd).pageTables q ∧
    (t.paging.dirs t.paging.curPd).pageTablesVirt q=
      (s.paging.dirs s.paging.curPd).pageTablesVirt q
  /-- Pages that translate keep their entry. -/
  pages : ∀ q<PT_SIZE,∀ j<PT_SIZE,∀ entry,translate s.paging q j=some entry →
    translate t.paging q j=some entry
  /-- The bitmap has the same words. -/
  words : t.frames.framesNum=s.frames.framesNum
  /-- Marked frames stay marked. -/
  marked : ∀ k,bitAt s.frames.frames k=true → bitAt t.frames.frames k=true

variable {s t u : FaultState} {pde pte : ℕ}

/-! ## The search for one frame -/

/-- A word offers a frame unless its first eight bits are marked. -/
theorem pickSlot_one (frames : FrameWords) (w : ℕ) :
    ∃ r,pickSlot frames w 1=some r ∧ (r=none → ∀ k<8,bitAt frames (32*w+k)=true) := by
  have hstarts : groupStarts 1=List.range 8 := by decide
  rcases @pickSlot_spec frames 1 w Nat.one_pos (by decide) with ⟨hpick,hnone⟩|⟨j,hpick,-⟩
  · refine ⟨none,hpick,fun _ k hk => hnone k ?_⟩
    rw [hstarts]
    exact List.mem_range.mpr hk
  · exact ⟨some j,hpick,fun h => by cases h⟩

/-- A search for one frame ends. It fails, without a change, where the first
eight bits of all words are marked. -/
theorem findLoop_ends {frames : FrameWords} {flags words i : ℕ} :
    ∃ f,findLoop 1 flags words i 0 frames []=some f ∧ (f.ret=0 ∨ f.frames=frames ∧ f.addrs=[] ∧
      ∀ w,i≤w → w < i+words → ∀ j<8,bitAt frames (32*w+j)=true) := by
  induction words generalizing i with
  | zero => exact ⟨_,rfl,Or.inr ⟨rfl,rfl,fun w hw hlt => absurd hlt (by omega)⟩⟩
  | succ words ih =>
    -- a word that offers nothing is skipped
    have hskip : findLoop 1 flags (words+1) i 0 frames []=findLoop 1 flags words (i+1) 0 frames [] →
        (∀ j<8,bitAt frames (32*i+j)=true) → ∃ f,findLoop 1 flags (words+1) i 0 frames []=some f ∧
          (f.ret=0 ∨ f.frames=frames ∧ f.addrs=[] ∧
            ∀ w,i≤w → w < i+(words+1) → ∀ j<8,bitAt frames (32*w+j)=true) := by
      intro hnext hbusy
      obtain ⟨f,hf,hret|⟨hframes,haddrs,hmarked⟩⟩ := @ih (i+1)
      · exact ⟨f,hnext.trans hf,Or.inl hret⟩
      · refine ⟨f,hnext.trans hf,Or.inr ⟨hframes,haddrs,fun w hw hlt => ?_⟩⟩
        rcases Nat.eq_or_lt_of_le hw with rfl|hlater
        · exact hbusy
        · exact hmarked w hlater (by omega)
    by_cases hfull : frames i=0xFFFFFFFF#32
    · refine hskip (by rw [findLoop,if_pos hfull]) fun j hj => ?_
      rw [bitAt_mul_add frames (by omega),hfull]
      interval_cases j <;> rfl
    · obtain ⟨r,hr,hmarked⟩ := pickSlot_one frames i
      cases r with
      | none =>
        refine hskip ?_ (hmarked rfl)
        rw [findLoop,if_neg hfull]
        simp only [findFrameInMap,Nat.sub_zero,show min 1 8=1 from rfl,hr]
      | some j =>
        refine ⟨⟨0,(setNframesUsed frames 1 i j).1,setNallocAddrs 1 i j flags⟩,?_,Or.inl rfl⟩
        rw [findLoop,if_neg hfull]
        simp only [findFrameInMap,Nat.sub_zero,show min 1 8=1 from rfl,hr]
        rfl

/-- Storing no entry changes nothing. -/
theorem storeEntries_nil (p : Paging) (entry : ℕ×ℕ) : storeEntries p entry []=some p := by
  have hnone : ∀ j,¬(entry.2≤j ∧ j<entry.2+([] : List ℕ).length) := by
    intro j h
    rw [List.length_nil] at h
    omega
  rw [storeEntries,if_neg fun h => h.2 rfl]
  simp only [if_neg (hnone _),Paging.setTable,Function.update_eq_self]

/-- Filling an entry with a frame, or leaving it for lack of frames. -/
theorem findAllocFrame_ends (s : FaultState) {entry : ℕ×ℕ} (h0 : entry.1≠0) (flags : ℕ) :
    (∃ t frame,findAllocFrame s entry flags=some (0,t) ∧ frame<32*s.frames.framesNum ∧
      bitAt s.frames.frames frame=false ∧
      (∀ k,bitAt t.frames.frames k=(bitAt s.frames.frames k || decide (k=frame))) ∧
      t.frames.framesNum=s.frames.framesNum ∧
      t.paging=s.paging.setTable entry.1 (Function.update (s.paging.tables entry.1) entry.2
        (PAGE_SIZE*frame ||| flags))) ∨
    (∃ ret,findAllocFrame s entry flags=some (ret,s)) ∧ Exhausted s.frames := by
  have hpointer : entry.1+4*entry.2≠0 := by omega
  obtain ⟨f,hf,hret|⟨hframes,haddrs,hmarked⟩⟩ :=
    @findLoop_ends s.frames.frames flags s.frames.framesNum 0
  · have hfind : findAllocNframes s.frames 1 (entry.1+4*entry.2) flags=some f := by
      rw [findAllocNframes,if_neg hpointer,hf]
    obtain ⟨t,frame,hfill,hlt,hfree,hbits,hpaging⟩ := findAllocFrame_spec h0 hfind hret
    refine Or.inl ⟨t,frame,hfill,hlt,hfree,hbits,?_,hpaging⟩
    simp only [findAllocFrame,hfind] at hfill
    split at hfill
    · cases hfill
    · rw [←(Prod.mk.inj (Option.some.inj hfill)).2]
  · refine Or.inr ⟨⟨f.ret,?_⟩,fun w hw => hmarked w (Nat.zero_le _) (by omega)⟩
    have hfind : findAllocNframes s.frames 1 (entry.1+4*entry.2) flags=some f := by
      rw [findAllocNframes,if_neg hpointer,hf]
    simp only [findAllocFrame,hfind,haddrs,storeEntries_nil,hframes]

/-! ## Addresses along a run -/

/-- A page that translates has a present slot. -/
theorem slot_of_translate {p : Paging} {q j entry : ℕ} (h : translate p q j=some entry) :
    slotPresent p p.curPd q=true ∧ p.tables ((p.dirs p.curPd).pageTablesVirt q) j=entry := by
  simp only [PageFaults.translate] at h
  split at h
  · rename_i hboth
    exact ⟨(Bool.and_eq_true_iff.mp hboth).1,Option.some.inj h⟩
  · cases h

/-- A reached address has the frame of its page's entry. -/
theorem toPhysAddr_translate {p : Paging} (hcur : p.curPd≠0) {addr entry : ℕ}
    (hpt : (p.dirs p.curPd).pageTablesVirt (getPdePte addr).1≠0)
    (h : translate p (getPdePte addr).1 (getPdePte addr).2=some entry) :
    toPhysAddr p p.curPd addr=wadd (getTabPureAddr entry) (addr%PAGE_SIZE) := by
  rw [toPhysAddr_eq hcur hpt,(slot_of_translate h).2]

/-- Every state keeps itself. -/
theorem Keeps.refl (s : FaultState) : Keeps s s :=
  ⟨rfl,fun _ _ _ => ⟨rfl,rfl⟩,fun _ _ _ _ _ h => h,rfl,fun _ h => h⟩

/-- Slots that are present stay present. -/
theorem Keeps.slot (h : Keeps s t) {q : ℕ} (hq : q<PT_SIZE)
    (hslot : slotPresent s.paging s.paging.curPd q=true) :
    slotPresent t.paging t.paging.curPd q=true := by
  rw [slotPresent,(h.slots q hq hslot).1]
  exact hslot

/-- What two runs keep in turn is kept. -/
theorem Keeps.trans (h : Keeps s t) (h' : Keeps t u) : Keeps s u := by
  refine ⟨h'.current.trans h.current,fun q hq hslot => ?_,fun q hq j hj entry he => ?_,
    h'.words.trans h.words,fun k hk => h'.marked k (h.marked k hk)⟩
  · obtain ⟨hentry,hvirt⟩ := h'.slots q hq (h.slot hq hslot)
    obtain ⟨hentry',hvirt'⟩ := h.slots q hq hslot
    exact ⟨hentry.trans hentry',hvirt.trans hvirt'⟩
  · exact h'.pages q hq j hj entry (h.pages q hq j hj entry he)

/-- A bitmap without frames for single requests stays so. -/
theorem Keeps.exhausted (h : Keeps s t) (hs : Exhausted s.frames) : Exhausted t.frames := by
  intro w hw j hj
  rw [h.words] at hw
  exact h.marked _ (hs w hw j hj)

/-- Reached addresses stay reached, at the same physical address. -/
theorem Keeps.reached (h : Keeps s t) (hs : Backed s) {addr : ℕ} (hr : Reached s.paging addr) :
    Reached t.paging addr ∧
      toPhysAddr t.paging t.paging.curPd addr=toPhysAddr s.paging s.paging.curPd addr := by
  obtain ⟨haddr,hpage⟩ := hr
  have hdir := getPdePte_dir_lt haddr
  have htab := getPdePte_lt addr
  obtain ⟨entry,he⟩ := Option.ne_none_iff_exists'.mp hpage
  have hkept := h.pages _ hdir _ htab entry he
  have hslot := (slot_of_translate he).1
  have hpt := hs.pointers _ hdir hslot
  have hpt' : (t.paging.dirs t.paging.curPd).pageTablesVirt (getPdePte addr).1≠0 := by
    rw [(h.slots _ hdir hslot).2]
    exact hpt
  refine ⟨⟨haddr,by rw [hkept]; exact Option.some_ne_none _⟩,?_⟩
  rw [toPhysAddr_translate (by rw [h.current]; exact hs.current) hpt' hkept,
    toPhysAddr_translate hs.current hpt he]

/-! ## One fault -/

/-- The state after a table was made for a missing slot. -/
def tableState (s : FaultState) (pde : ℕ) : FaultState :=
  {s with paging := madeTable s.paging s.paging.curPd pde (R_W ||| PRESENT) (s.paging.pages 0)}

/-- Entries and pointers of the directory after a table was made. -/
theorem tableState_slots (s : FaultState) (pde q : ℕ) :
    ((tableState s pde).paging.dirs (tableState s pde).paging.curPd).pageTables q=
      (if q=pde then toPhysAddr s.paging s.paging.curPd (s.paging.pages 0) ||| (R_W ||| PRESENT)
      else (s.paging.dirs s.paging.curPd).pageTables q) ∧
    ((tableState s pde).paging.dirs (tableState s pde).paging.curPd).pageTablesVirt q=
      if q=pde then s.paging.pages 0 else (s.paging.dirs s.paging.curPd).pageTablesVirt q := by
  have hcur : (tableState s pde).paging.curPd=s.paging.curPd := rfl
  have hentries := @entries_madeTable s.paging s.paging.curPd (R_W ||| PRESENT) pde
    (s.paging.pages 0)
  have hvirt := @virt_madeTable s.paging s.paging.curPd (R_W ||| PRESENT) pde (s.paging.pages 0)
  rw [hcur]
  refine ⟨(congrFun hentries q).trans ?_,(congrFun hvirt q).trans ?_⟩
  · rw [Function.update_apply]
  · rw [Function.update_apply]

/-- The new table's slot is present, the others are as before. -/
theorem tableState_present (s : FaultState) (pde q : ℕ) :
    slotPresent (tableState s pde).paging (tableState s pde).paging.curPd q=
      if q=pde then true else slotPresent s.paging s.paging.curPd q := by
  rw [slotPresent,(tableState_slots s pde q).1]
  by_cases hq : q=pde
  · rw [if_pos hq,if_pos hq]
    exact tabPresent_or _ (by decide)
  · rw [if_neg hq,if_neg hq]
    rfl

/-- A new table is one slot less to make. -/
theorem missing_tableState (hpde : pde<PT_SIZE)
    (hmiss : slotPresent s.paging s.paging.curPd pde=false) :
    (missingSlots s.paging).card=(missingSlots (tableState s pde).paging).card+1 := by
  have hmem : pde∈missingSlots s.paging :=
    Finset.mem_filter.mpr ⟨Finset.mem_range.mpr hpde,hmiss⟩
  have herase : missingSlots (tableState s pde).paging=(missingSlots s.paging).erase pde := by
    ext q
    simp only [missingSlots,Finset.mem_filter,Finset.mem_erase,Finset.mem_range,
      tableState_present]
    by_cases hq : q=pde
    · simp [hq]
    · simp [hq]
  rw [herase,Finset.card_erase_add_one hmem]

/-- No page translates differently for a new table. -/
theorem translate_tableState (h : Backed s) (hpde : pde<PT_SIZE)
    (hmiss : slotPresent s.paging s.paging.curPd pde=false) {q j : ℕ} (hq : q<PT_SIZE)
    (hj : j<PT_SIZE) : translate (tableState s pde).paging q j=translate s.paging q j := by
  have hcard := missing_tableState hpde hmiss
  simp only [PageFaults.translate]
  rw [tableState_present,(tableState_slots s pde q).2]
  by_cases hqp : q=pde
  · have hzero : (tableState s pde).paging.tables (s.paging.pages 0) j=0 := by
      simp [tableState,madeTable,Paging.setDir,Paging.setTable,hj]
    rw [if_pos hqp,if_pos hqp,hzero,hqp,hmiss]
    rfl
  · rw [if_neg hqp,if_neg hqp]
    cases hslot : slotPresent s.paging s.paging.curPd q with
    | false => rfl
    | true =>
      have hne := h.heap.unused 0 (by omega) q hq hslot
      have htable : (tableState s pde).paging.tables
          ((s.paging.dirs s.paging.curPd).pageTablesVirt q)=
          s.paging.tables ((s.paging.dirs s.paging.curPd).pageTablesVirt q) :=
        Function.update_of_ne hne _ _
      rw [htable]

/-- A new table keeps what a run keeps. -/
theorem keeps_tableState (h : Backed s) (hpde : pde<PT_SIZE)
    (hmiss : slotPresent s.paging s.paging.curPd pde=false) : Keeps s (tableState s pde) := by
  refine ⟨rfl,fun q hq hslot => ?_,fun q hq j hj entry he => ?_,rfl,fun k hk => hk⟩
  · have hne : q≠pde := by
      intro heq
      rw [heq,hmiss] at hslot
      cases hslot
    rw [(tableState_slots s pde q).1,(tableState_slots s pde q).2,if_neg hne,if_neg hne]
    exact ⟨rfl,rfl⟩
  · rw [translate_tableState h hpde hmiss hq hj]
    exact he

/-- The heap is ready for the slots that are left. -/
theorem heap_tableState (h : Backed s) (hpde : pde<PT_SIZE)
    (hmiss : slotPresent s.paging s.paging.curPd pde=false) :
    HeapReady (tableState s pde).paging (missingSlots (tableState s pde).paging).card := by
  have hcard := missing_tableState hpde hmiss
  have hpages : ∀ i,(tableState s pde).paging.pages i=s.paging.pages (i+1) := fun _ => rfl
  refine ⟨fun i hi => ?_,fun i hi j hj heq => ?_,fun i hi q hq hslot => ?_,fun i hi => ?_,
    fun i hi => ?_⟩
  · exact h.heap.nonnull (i+1) (by omega)
  · have := h.heap.apart (i+1) (by omega) (j+1) (by omega) heq
    omega
  · rw [tableState_present] at hslot
    rw [(tableState_slots s pde q).2,hpages]
    by_cases hqp : q=pde
    · rw [if_pos hqp]
      intro heq
      have := h.heap.apart 0 (by omega) (i+1) (by omega) heq
      omega
    · rw [if_neg hqp] at hslot ⊢
      exact h.heap.unused (i+1) (by omega) q hq hslot
  · exact ((keeps_tableState h hpde hmiss).reached h (h.heap.mapped (i+1) (by omega))).1
  · exact h.heap.aligned (i+1) (by omega)

/-- A page of the heap has the frame of its own entry. -/
theorem page_entry (h : Backed s) {page : ℕ} (hr : Reached s.paging page) (hd : PAGE_SIZE∣page) :
    getTabPureAddr (toPhysAddr s.paging s.paging.curPd page ||| (R_W ||| PRESENT))=
      toPhysAddr s.paging s.paging.curPd page := by
  obtain ⟨entry,he⟩ := Option.ne_none_iff_exists'.mp hr.2
  have hpt := h.pointers _ (getPdePte_dir_lt hr.1) (slot_of_translate he).1
  obtain ⟨hpure,hlt⟩ := getTabPureAddr_page entry
  have hphys := toPhysAddr_translate h.current hpt he
  rw [Nat.mod_eq_zero_of_dvd hd,wadd_eq (by rwa [Nat.add_zero]),Nat.add_zero] at hphys
  rw [hphys]
  exact getTabPureAddr_entry hlt hpure (by decide)

/-- A new table for a missing slot keeps the agreement. -/
theorem backed_tableState (h : Backed s) (hpde : pde<PT_SIZE)
    (hmiss : slotPresent s.paging s.paging.curPd pde=false) : Backed (tableState s pde) := by
  have hkeeps := keeps_tableState h hpde hmiss
  have hcard := missing_tableState hpde hmiss
  have hmapped := h.heap.mapped 0 (by omega)
  refine ⟨h.current,fun q hq hslot => ?_,fun q hq r hr hslot hslot' heq => ?_,fun q hq hslot => ?_,
    heap_tableState h hpde hmiss,fun q hq j hj entry he => ?_,
    fun q hq j hj r hr k hk entry other he ho => ?_⟩
  · rw [tableState_present] at hslot
    rw [(tableState_slots s pde q).2]
    by_cases hqp : q=pde
    · rw [if_pos hqp]
      exact h.heap.nonnull 0 (by omega)
    · rw [if_neg hqp] at hslot ⊢
      exact h.pointers q hq hslot
  · rw [tableState_present] at hslot hslot'
    rw [(tableState_slots s pde q).2,(tableState_slots s pde r).2] at heq
    by_cases hqp : q=pde
    · by_cases hrp : r=pde
      · exact hqp.trans hrp.symm
      · rw [if_pos hqp,if_neg hrp] at heq
        rw [if_neg hrp] at hslot'
        exact absurd heq.symm (h.heap.unused 0 (by omega) r hr hslot')
    · rw [if_neg hqp] at heq hslot
      by_cases hrp : r=pde
      · rw [if_pos hrp] at heq
        exact absurd heq (h.heap.unused 0 (by omega) q hq hslot)
      · rw [if_neg hrp] at heq hslot'
        exact h.apart q hq r hr hslot hslot' heq
  · rw [tableState_present] at hslot
    rw [(tableState_slots s pde q).1,(tableState_slots s pde q).2]
    by_cases hqp : q=pde
    · rw [if_pos hqp,if_pos hqp,page_entry h hmapped (h.heap.aligned 0 (by omega))]
      exact hkeeps.reached h hmapped
    · rw [if_neg hqp] at hslot
      rw [if_neg hqp,if_neg hqp]
      obtain ⟨hreached,hnamed⟩ := h.named q hq hslot
      obtain ⟨hreached',hphys⟩ := hkeeps.reached h hreached
      exact ⟨hreached',hphys.trans hnamed⟩
  · rw [translate_tableState h hpde hmiss hq hj] at he
    exact h.used q hq j hj entry he
  · rw [translate_tableState h hpde hmiss hq hj] at he
    rw [translate_tableState h hpde hmiss hr hk] at ho
    exact h.owned q hq j hj r hr k hk entry other he ho

/-- A page's entry filled with a frame that was free. -/
structure Filled (s : FaultState) (pde pte frame : ℕ) (t : FaultState) : Prop where
  /-- The frame was free. -/
  free : frame<32*s.frames.framesNum ∧ bitAt s.frames.frames frame=false
  /-- Its bit is the only one that changes. -/
  bits : ∀ k,bitAt t.frames.frames k=(bitAt s.frames.frames k || decide (k=frame))
  /-- The bitmap has the same words. -/
  words : t.frames.framesNum=s.frames.framesNum
  /-- The entry is the only one that changes. -/
  paging : t.paging=s.paging.setTable ((s.paging.dirs s.paging.curPd).pageTablesVirt pde)
    (Function.update (s.paging.tables ((s.paging.dirs s.paging.curPd).pageTablesVirt pde)) pte
      (PAGE_SIZE*frame ||| (R_W ||| PRESENT)))

variable {frame : ℕ}

/-- The filled page translates to its frame, all others as before. -/
theorem Filled.pageEntry (hf : Filled s pde pte frame t) (h : Backed s) (hpde : pde<PT_SIZE)
    (hslot : slotPresent s.paging s.paging.curPd pde=true) {q : ℕ} (hq : q<PT_SIZE) (j : ℕ) :
    translate t.paging q j=if q=pde ∧ j=pte then some (PAGE_SIZE*frame ||| (R_W ||| PRESENT))
      else translate s.paging q j := by
  have hnum := s.frames.framesNum_lt
  have hlt := hf.free.1
  obtain ⟨hpresent,_⟩ := @frameEntry frame (by omega)
  rw [hf.paging,translate_setTable,if_pos hpresent]
  refine if_congr ⟨?_,?_⟩ rfl rfl
  · intro hall
    exact ⟨h.apart q hq pde hpde hall.1 hslot hall.2.1,hall.2.2⟩
  · intro hboth
    rw [hboth.1]
    exact ⟨hslot,rfl,hboth.2⟩

/-- Filling a page that does not translate keeps what a run keeps. -/
theorem Filled.keeps (hf : Filled s pde pte frame t) (h : Backed s) (hpde : pde<PT_SIZE)
    (hslot : slotPresent s.paging s.paging.curPd pde=true)
    (habsent : translate s.paging pde pte=none) : Keeps s t := by
  refine ⟨by rw [hf.paging]; rfl,fun q _ _ => by rw [hf.paging]; exact ⟨rfl,rfl⟩,
    fun q hq j _ entry he => ?_,hf.words,fun k hk => by rw [hf.bits,hk,Bool.true_or]⟩
  rw [hf.pageEntry h hpde hslot hq,if_neg]
  · exact he
  · intro hboth
    rw [hboth.1,hboth.2,habsent] at he
    cases he

/-- Filling a page that does not translate keeps the agreement. -/
theorem Filled.backed (hf : Filled s pde pte frame t) (h : Backed s) (hpde : pde<PT_SIZE)
    (hslot : slotPresent s.paging s.paging.curPd pde=true)
    (habsent : translate s.paging pde pte=none) : Backed t := by
  have hkeeps := hf.keeps h hpde hslot habsent
  have htrans : ∀ q<PT_SIZE,∀ j,translate t.paging q j=if q=pde ∧ j=pte then
      some (PAGE_SIZE*frame ||| (R_W ||| PRESENT)) else translate s.paging q j :=
    fun q hq j => hf.pageEntry h hpde hslot hq j
  have hnum := s.frames.framesNum_lt
  have hlt := hf.free.1
  obtain ⟨_,hpure,_⟩ := @frameEntry frame (by omega)
  -- the new frame backs no page of the state before
  have hnew : ∀ q<PT_SIZE,∀ j<PT_SIZE,∀ entry,translate s.paging q j=some entry →
      getTabPureAddr entry≠PAGE_SIZE*frame := by
    intro q hq j hj entry he heq
    have hbit := h.used q hq j hj entry he
    rw [heq,Nat.mul_div_cancel_left _ (by norm_num),hf.free.2] at hbit
    cases hbit
  have hdirs : t.paging.dirs=s.paging.dirs := by rw [hf.paging]; rfl
  have hpages : t.paging.pages=s.paging.pages := by rw [hf.paging]; rfl
  have hpresent : ∀ q,slotPresent t.paging t.paging.curPd q=slotPresent s.paging s.paging.curPd q := by
    intro q
    rw [slotPresent,slotPresent,hdirs,hkeeps.current]
  have hmissing : missingSlots t.paging=missingSlots s.paging := by
    simp only [missingSlots,hpresent]
  refine ⟨by rw [hkeeps.current]; exact h.current,?_,?_,?_,?_,?_,?_⟩
  · intro q hq hq'
    rw [hpresent] at hq'
    rw [hdirs,hkeeps.current]
    exact h.pointers q hq hq'
  · intro q hq r hr hq' hr' heq
    rw [hpresent] at hq' hr'
    rw [hdirs,hkeeps.current] at heq
    exact h.apart q hq r hr hq' hr' heq
  · intro q hq hq'
    rw [hpresent] at hq'
    obtain ⟨hreached,hnamed⟩ := h.named q hq hq'
    obtain ⟨hreached',hphys⟩ := hkeeps.reached h hreached
    rw [(hkeeps.slots q hq hq').1,(hkeeps.slots q hq hq').2]
    exact ⟨hreached',hphys.trans hnamed⟩
  · rw [hmissing]
    refine ⟨fun i hi => ?_,fun i hi j hj heq => ?_,fun i hi q hq hq' => ?_,fun i hi => ?_,
      fun i hi => ?_⟩
    · rw [hpages]
      exact h.heap.nonnull i hi
    · rw [hpages] at heq
      exact h.heap.apart i hi j hj heq
    · rw [hpresent] at hq'
      rw [hdirs,hkeeps.current,hpages]
      exact h.heap.unused i hi q hq hq'
    · rw [hpages]
      exact (hkeeps.reached h (h.heap.mapped i hi)).1
    · rw [hpages]
      exact h.heap.aligned i hi
  · intro q hq j hj entry he
    rw [htrans q hq] at he
    by_cases hboth : q=pde ∧ j=pte
    · rw [if_pos hboth] at he
      rw [←Option.some.inj he,hpure,Nat.mul_div_cancel_left _ (by norm_num),hf.bits,
        decide_eq_true rfl,Bool.or_true]
    · rw [if_neg hboth] at he
      exact hkeeps.marked _ (h.used q hq j hj entry he)
  · intro q hq j hj r hr k hk entry other he ho heq
    rw [htrans q hq] at he
    rw [htrans r hr] at ho
    by_cases hboth : q=pde ∧ j=pte
    · rw [if_pos hboth] at he
      rw [←Option.some.inj he,hpure] at heq
      by_cases hother : r=pde ∧ k=pte
      · exact ⟨hboth.1.trans hother.1.symm,hboth.2.trans hother.2.symm⟩
      · rw [if_neg hother] at ho
        exact absurd heq.symm (hnew r hr k hk other ho)
    · rw [if_neg hboth] at he
      by_cases hother : r=pde ∧ k=pte
      · rw [if_pos hother] at ho
        rw [←Option.some.inj ho,hpure] at heq
        exact absurd heq (hnew q hq j hj entry he)
      · rw [if_neg hother] at ho
        exact h.owned q hq j hj r hr k hk entry other he ho heq

/-- What a fault leaves: its page translates unless there is no frame for it,
and no other page changes. -/
structure FaultServed (s : FaultState) (pde pte : ℕ) (t : FaultState) : Prop where
  /-- The agreement is kept. -/
  backed : Backed t
  /-- Earlier pages are kept. -/
  keeps : Keeps s t
  /-- The page translates, or no frame was left. -/
  page : translate t.paging pde pte≠none ∨ Exhausted t.frames
  /-- Other pages translate as before. -/
  others : ∀ q<PT_SIZE,∀ j<PT_SIZE,(q,j)≠(pde,pte) →
    translate t.paging q j=translate s.paging q j

/-- A page of a present slot that does not translate. -/
theorem fill_served (h : Backed s) (hpde : pde<PT_SIZE)
    (hslot : slotPresent s.paging s.paging.curPd pde=true)
    (habsent : translate s.paging pde pte=none) :
    ∃ ret t,findAllocFrame s ((s.paging.dirs s.paging.curPd).pageTablesVirt pde,pte)
      (R_W ||| PRESENT)=some (ret,t) ∧ FaultServed s pde pte t := by
  rcases @findAllocFrame_ends s ((s.paging.dirs s.paging.curPd).pageTablesVirt pde,pte)
      (h.pointers pde hpde hslot) (R_W ||| PRESENT) with
    ⟨t,frame,hfill,hlt,hfree,hbits,hwords,hpaging⟩|⟨⟨ret,hfail⟩,hexhausted⟩
  · have hf : Filled s pde pte frame t := ⟨⟨hlt,hfree⟩,hbits,hwords,hpaging⟩
    refine ⟨0,t,hfill,hf.backed h hpde hslot habsent,hf.keeps h hpde hslot habsent,Or.inl ?_,
      fun q hq j _ hne => ?_⟩
    · rw [hf.pageEntry h hpde hslot hpde,if_pos ⟨rfl,rfl⟩]
      exact Option.some_ne_none _
    · rw [hf.pageEntry h hpde hslot hq,if_neg]
      intro hboth
      exact hne (Prod.ext hboth.1 hboth.2)
  · exact ⟨ret,s,hfail,h,Keeps.refl s,Or.inr hexhausted,fun _ _ _ _ _ => rfl⟩

/-- Every fault is served. -/
theorem nonPresentPageHanler_served (h : Backed s) (hpde : pde<PT_SIZE) (hpte : pte<PT_SIZE) :
    ∃ ret t,nonPresentPageHanler s pde pte=some (ret,t) ∧ FaultServed s pde pte t := by
  cases hslot : slotPresent s.paging s.paging.curPd pde with
  | false =>
    have hcard := missing_tableState hpde hslot
    have hnull := h.heap.nonnull 0 (by omega)
    have hmap := mapAllocNpt_missing h.current (by decide : tabPresent (R_W ||| PRESENT)=true) hpde
      hnull hslot
    have hkeeps := keeps_tableState h hpde hslot
    have hmade : slotPresent (tableState s pde).paging (tableState s pde).paging.curPd pde=true := by
      rw [tableState_present,if_pos rfl]
    have hvirt : ((tableState s pde).paging.dirs (tableState s pde).paging.curPd).pageTablesVirt pde=
        s.paging.pages 0 := by
      rw [(tableState_slots s pde pde).2,if_pos rfl]
    have habsent : translate (tableState s pde).paging pde pte=none := by
      rw [translate_tableState h hpde hslot hpde hpte]
      simp only [PageFaults.translate,hslot]
      rfl
    obtain ⟨ret,t,hfill,hserved⟩ := fill_served (backed_tableState h hpde hslot) hpde hmade habsent
    have hraw : tabPresent ((s.paging.dirs s.paging.curPd).pageTables pde)=false := hslot
    have hrun : nonPresentPageHanler s pde pte=some (if ret≠0 then ret else 1,t) := by
      rw [hvirt] at hfill
      simp only [tableState] at hfill
      simp only [nonPresentPageHanler,if_pos hraw,hmap,List.headD_cons]
      rw [if_neg (by decide),hfill]
      by_cases hret : ret=0
      · simp [hret]
      · simp [hret]
    refine ⟨_,t,hrun,hserved.backed,hkeeps.trans hserved.keeps,hserved.page,
      fun q hq j hj hne => ?_⟩
    rw [hserved.others q hq j hj hne,translate_tableState h hpde hslot hq hj]
  | true =>
    have hraw : ¬tabPresent ((s.paging.dirs s.paging.curPd).pageTables pde)=false := by
      rw [Bool.not_eq_false]
      exact hslot
    have hpt := h.pointers pde hpde hslot
    cases hentry : tabPresent (s.paging.tables
        ((s.paging.dirs s.paging.curPd).pageTablesVirt pde) pte) with
    | true =>
      refine ⟨1,s,?_,h,Keeps.refl s,Or.inl ?_,fun _ _ _ _ _ => rfl⟩
      · simp only [nonPresentPageHanler,if_neg hraw,pagePresent,if_neg hpt,hentry]
      · simp only [PageFaults.translate,hslot,hentry,Bool.and_self,if_true]
        exact Option.some_ne_none _
    | false =>
      have habsent : translate s.paging pde pte=none := by
        simp only [PageFaults.translate,hentry,Bool.and_false]
        rfl
      obtain ⟨ret,t,hfill,hserved⟩ := fill_served h hpde hslot habsent
      refine ⟨1,t,?_,hserved⟩
      simp only [nonPresentPageHanler,if_neg hraw,pagePresent,if_neg hpt,hentry,hfill]

/-! ## Runs of faults -/

/-- What a list of faults leaves. A fault whose error code is that of a present
page is not served. -/
structure FaultsServed (s : FaultState) (faults : List (ℕ×ℕ)) (t : FaultState) : Prop where
  /-- The agreement is kept. -/
  backed : Backed t
  /-- Earlier pages are kept. -/
  keeps : Keeps s t
  /-- The pages at which faults were served translate, or no frame is left. -/
  pages : ∀ fault∈faults,fault.2≠PRESENT →
    translate t.paging (getPdePte fault.1).1 (getPdePte fault.1).2≠none ∨ Exhausted t.frames
  /-- Pages without a fault are as before. -/
  others : ∀ q<PT_SIZE,∀ j<PT_SIZE,(∀ fault∈faults,fault.2≠PRESENT → getPdePte fault.1≠(q,j)) →
    translate t.paging q j=translate s.paging q j

/-- Pages that translate in a state translate in every later one. -/
theorem Keeps.translates (h : Keeps s t) {q j : ℕ} (hq : q<PT_SIZE) (hj : j<PT_SIZE)
    (hpage : translate s.paging q j≠none) : translate t.paging q j≠none := by
  obtain ⟨entry,he⟩ := Option.ne_none_iff_exists'.mp hpage
  rw [h.pages q hq j hj entry he]
  exact Option.some_ne_none _

/-- Every list of faults is served. -/
theorem pageFaults_served {faults : List (ℕ×ℕ)} (h : Backed s)
    (haddr : ∀ fault∈faults,fault.1<2^32) :
    ∃ t,pageFaults s faults=some t ∧ FaultsServed s faults t := by
  induction faults generalizing s with
  | nil =>
    refine ⟨s,rfl,h,Keeps.refl s,fun fault hf => ?_,fun _ _ _ _ _ => rfl⟩
    cases hf
  | cons fault faults ih =>
    have hdir := getPdePte_dir_lt (haddr fault List.mem_cons_self)
    have htab := getPdePte_lt fault.1
    have hrest : ∀ other∈faults,other.1<2^32 := fun other ho => haddr other (List.mem_cons_of_mem _ ho)
    by_cases herr : fault.2=PRESENT
    · -- the fault of a present page leaves the state
      have hstep : pageFault s fault.1 fault.2=some s := by
        rw [pageFault,herr]
        rfl
      obtain ⟨t,ht,hserved⟩ := ih h hrest
      refine ⟨t,?_,hserved.backed,hserved.keeps,fun other ho hne => ?_,fun q hq j hj hnone => ?_⟩
      · rw [pageFaults,List.foldlM_cons,hstep]
        exact ht
      · rcases List.mem_cons.mp ho with rfl|hin
        · exact absurd herr hne
        · exact hserved.pages other hin hne
      · exact hserved.others q hq j hj fun other ho => hnone other (List.mem_cons_of_mem _ ho)
    · obtain ⟨ret,u,hrun,hfault⟩ := nonPresentPageHanler_served h hdir htab
      have hcode : fault.2^^^PRESENT≠0 := by
        intro hzero
        apply herr
        calc fault.2=(fault.2^^^PRESENT)^^^PRESENT := by
              rw [Nat.xor_assoc,Nat.xor_self,Nat.xor_zero]
          _=PRESENT := by rw [hzero,Nat.zero_xor]
      have hstep : pageFault s fault.1 fault.2=some u := by
        simp only [pageFault]
        rw [if_pos hcode,hrun]
        rfl
      obtain ⟨t,ht,hserved⟩ := ih hfault.backed hrest
      refine ⟨t,?_,hserved.backed,hfault.keeps.trans hserved.keeps,fun other ho hne => ?_,
        fun q hq j hj hnone => ?_⟩
      · rw [pageFaults,List.foldlM_cons,hstep]
        exact ht
      · rcases List.mem_cons.mp ho with rfl|hin
        · rcases hfault.page with hpage|hexhausted
          · exact Or.inl (hserved.keeps.translates hdir htab hpage)
          · exact Or.inr (hserved.keeps.exhausted hexhausted)
        · exact hserved.pages other hin hne
      · rw [hserved.others q hq j hj fun other ho => hnone other (List.mem_cons_of_mem _ ho)]
        refine hfault.others q hq j hj fun heq => ?_
        exact hnone fault List.mem_cons_self herr heq.symm

/-! ## The tables of initialisation -/

/-- One page of the kernel's memory. -/
theorem allocFrame_page {kernelPageTable : ℕ} (hnull : kernelPageTable≠0) {i : ℕ} (hi : i<2^20) :
    ∃ t,allocFrame s (i*0x1000) (kernelPageTable+4*PT_SIZE*(i/PT_SIZE),i%PT_SIZE)
      (R_W ||| PRESENT)=some t ∧ t.frames.framesNum=s.frames.framesNum ∧
      (∀ k,bitAt t.frames.frames k=(bitAt s.frames.frames k || decide (k=i))) ∧
      t.paging=s.paging.setTable (kernelPageTable+4*PT_SIZE*(i/PT_SIZE)) (Function.update
        (s.paging.tables (kernelPageTable+4*PT_SIZE*(i/PT_SIZE))) (i%PT_SIZE)
        (PAGE_SIZE*i ||| (R_W ||| PRESENT))) := by
  obtain ⟨hflat,hbit⟩ := getFrameMeta_flat (i*0x1000)
  have hframe : i*0x1000/PAGE_SIZE=i := Nat.mul_div_cancel i (by norm_num)
  have hpointer : kernelPageTable+4*PT_SIZE*(i/PT_SIZE)+4*(i%PT_SIZE)≠0 := by omega
  have hfirst : wadd (i*0x1000) (wmul 0 PAGE_SIZE)=PAGE_SIZE*i := by
    rw [wmul,Nat.zero_mul,Nat.zero_mod,wadd,Nat.add_zero,Nat.mod_eq_of_lt (by omega),Nat.mul_comm]
  have hstore : storeEntries s.paging (kernelPageTable+4*PT_SIZE*(i/PT_SIZE),i%PT_SIZE)
      [PAGE_SIZE*i ||| (R_W ||| PRESENT)]=some (s.paging.setTable
        (kernelPageTable+4*PT_SIZE*(i/PT_SIZE)) (Function.update
          (s.paging.tables (kernelPageTable+4*PT_SIZE*(i/PT_SIZE))) (i%PT_SIZE)
          (PAGE_SIZE*i ||| (R_W ||| PRESENT)))) := by
    rw [storeEntries,if_neg fun h => (by omega : kernelPageTable+4*PT_SIZE*(i/PT_SIZE)≠0) h.1]
    congr 2
    funext j
    by_cases hj : j=i%PT_SIZE
    · subst hj
      simp
    · rw [Function.update_of_ne hj,if_neg]
      rw [List.length_singleton]
      omega
  refine ⟨⟨_,{s.frames with frames := (setNframesUsed s.frames.frames 1
    (getFrameMeta (i*0x1000)).1 (getFrameMeta (i*0x1000)).2).1}⟩,?_,rfl,fun k => ?_,rfl⟩
  · simp only [allocFrame,allocNframes,if_neg hpointer,List.range_one,List.map_singleton,hfirst]
    simp only [hstore]
    rfl
  · rw [bitAt_setNframesUsed _ hbit (by norm_num),hflat,hframe]
    congr 1
    rw [decide_eq_decide]
    omega

/-- The loop maps the pages it visits to their own frames, and marks these. -/
theorem kernelPagesLoop_spec {kernelPageTable : ℕ} (hnull : kernelPageTable≠0) (left : ℕ) {i : ℕ}
    (hi : i+left≤2^20) :
    ∃ t,kernelPagesLoop kernelPageTable left i s=some t ∧
      t.paging={s.paging with tables := t.paging.tables} ∧
      t.frames.framesNum=s.frames.framesNum ∧
      (∀ k,bitAt t.frames.frames k=(bitAt s.frames.frames k || decide (i≤k ∧ k < i+left))) ∧
      ∀ q,∀ j<PT_SIZE,t.paging.tables (kernelPageTable+4*PT_SIZE*q) j=
        if i≤PT_SIZE*q+j ∧ PT_SIZE*q+j < i+left then PAGE_SIZE*(PT_SIZE*q+j) ||| (R_W ||| PRESENT)
        else s.paging.tables (kernelPageTable+4*PT_SIZE*q) j := by
  induction left generalizing i s with
  | zero =>
    refine ⟨s,rfl,rfl,rfl,fun k => ?_,fun q j _ => ?_⟩
    · rw [decide_eq_false (by omega),Bool.or_false]
    · rw [if_neg (by omega)]
  | succ left ih =>
    obtain ⟨u,hu,hwords,hbits,hpaging⟩ := @allocFrame_page s kernelPageTable hnull i (by omega)
    obtain ⟨t,ht,hrest,hwords',hbits',htables⟩ := @ih u (i+1) (by omega)
    refine ⟨t,?_,?_,hwords'.trans hwords,fun k => ?_,fun q j hj => ?_⟩
    · rw [kernelPagesLoop,hu]
      exact ht
    · rw [hrest,hpaging]
      rfl
    · rw [hbits',hbits,Bool.or_assoc,←Bool.decide_or]
      congr 1
      rw [decide_eq_decide]
      omega
    · rw [htables q j hj]
      by_cases hpage : PT_SIZE*q+j=i
      · -- the page of this round is not visited again
        have hq : i/PT_SIZE=q := by
          rw [←hpage,Nat.mul_add_div (by norm_num),Nat.div_eq_of_lt hj,Nat.add_zero]
        have hmod : i%PT_SIZE=j := by
          rw [←hpage,Nat.mul_add_mod,Nat.mod_eq_of_lt hj]
        rw [if_neg (by omega),if_pos (by omega),hpaging,hq,hmod,hpage]
        simp [Paging.setTable]
      · rw [hpaging]
        have hother : (s.paging.setTable (kernelPageTable+4*PT_SIZE*(i/PT_SIZE)) (Function.update
            (s.paging.tables (kernelPageTable+4*PT_SIZE*(i/PT_SIZE))) (i%PT_SIZE)
            (PAGE_SIZE*i ||| (R_W ||| PRESENT)))).tables (kernelPageTable+4*PT_SIZE*q) j=
            s.paging.tables (kernelPageTable+4*PT_SIZE*q) j := by
          by_cases hq : q=i/PT_SIZE
          · have hjm : j≠i%PT_SIZE := by
              intro heq
              exact hpage (by rw [heq,hq]; exact Nat.div_add_mod i PT_SIZE)
            subst hq
            simp [Paging.setTable,hjm]
          · have hne : kernelPageTable+4*PT_SIZE*q≠kernelPageTable+4*PT_SIZE*(i/PT_SIZE) := by
              simp only [PT_SIZE] at hq ⊢
              omega
            simp only [Paging.setTable,Function.update_of_ne hne]
        rw [hother]
        refine if_congr ?_ rfl rfl
        omega

/-- The state in which initialisation makes the tables: the directory's entries
are clear, the kernel's tables lie in its own memory, and so do the pages that
the heap will return. -/
structure BootState (s : FaultState) (initPd kernelPageTable : ℕ) : Prop where
  /-- There is no directory yet. -/
  current : s.paging.curPd=0
  /-- The kernel has read its address. -/
  address : s.paging.virtKernelAddr=VADDR
  /-- The directory is a static variable. -/
  directory : initPd≠0 ∧ ∀ q<PT_SIZE,(s.paging.dirs initPd).pageTables q=0
  /-- So are the tables, which begin at a page of the kernel's memory. -/
  tables : PAGE_SIZE∣kernelPageTable ∧ VADDR≤kernelPageTable ∧
    kernelPageTable+4*PT_SIZE*KERNEL_INIT_PT_COUNT≤VADDR+2^24
  /-- Pages of the heap begin at page addresses of the kernel's memory. -/
  heap : ∀ i<PT_SIZE,PAGE_SIZE∣s.paging.pages i ∧ VADDR ≤ s.paging.pages i ∧
    s.paging.pages i<VADDR+2^24
  /-- They are distinct. -/
  apart : ∀ i<PT_SIZE,∀ j<PT_SIZE,s.paging.pages i=s.paging.pages j → i=j
  /-- None is one of the kernel's tables. -/
  unused : ∀ i<PT_SIZE,∀ q<KERNEL_INIT_PT_COUNT,kernelPageTable+4*PT_SIZE*q≠s.paging.pages i

/-- What initialisation leaves: four slots with the kernel's tables, whose pages
are their own frames. -/
structure BootTables (s : FaultState) (initPd kernelPageTable : ℕ) (t : FaultState) : Prop where
  /-- The directory is current. -/
  current : t.paging.curPd=initPd
  /-- Entries of the directory. -/
  entries : ∀ q<PT_SIZE,(t.paging.dirs initPd).pageTables q=if 768≤q ∧ q<772 then
    wsub (kernelPageTable+4*PT_SIZE*(q-768)) VADDR ||| PRESENT ||| R_W ||| GLOBAL else R_W
  /-- Tables of the kernel's slots. -/
  virt : ∀ q,768≤q → q<772 →
    (t.paging.dirs initPd).pageTablesVirt q=kernelPageTable+4*PT_SIZE*(q-768)
  /-- Their entries. -/
  pages : ∀ q<KERNEL_INIT_PT_COUNT,∀ j<PT_SIZE,t.paging.tables (kernelPageTable+4*PT_SIZE*q) j=
    PAGE_SIZE*(PT_SIZE*q+j) ||| (R_W ||| PRESENT)
  /-- The heap is as before. -/
  heap : t.paging.pages=s.paging.pages
  /-- The kernel's frames are marked, and no others. -/
  bits : ∀ k,bitAt t.frames.frames k=
    (bitAt s.frames.frames k || decide (k<KERNEL_INIT_PT_COUNT*PT_SIZE))

variable {initPd kernelPageTable : ℕ}

/-- The first kernel slots, entered before there is a directory. -/
theorem kernelSlots_spec (hcur : s.paging.curPd=0) (hvirt : s.paging.virtKernelAddr=VADDR) (n : ℕ) :
    let p := (List.range n).foldl (kernelSlot initPd kernelPageTable) s.paging
    p={s.paging with dirs := p.dirs} ∧ ∀ q,
      (p.dirs initPd).pageTables q=(if 768≤q ∧ q<768+n then
        wsub (kernelPageTable+4*PT_SIZE*(q-768)) VADDR ||| PRESENT ||| R_W ||| GLOBAL
        else (s.paging.dirs initPd).pageTables q) ∧
      (p.dirs initPd).pageTablesVirt q=if 768≤q ∧ q<768+n then
        kernelPageTable+4*PT_SIZE*(q-768) else (s.paging.dirs initPd).pageTablesVirt q := by
  induction n with
  | zero =>
    refine ⟨rfl,fun q => ⟨?_,?_⟩⟩
    · rw [if_neg (by omega)]
      rfl
    · rw [if_neg (by omega)]
      rfl
  | succ n ih =>
    simp only [List.range_succ,List.foldl_append,List.foldl_cons,List.foldl_nil] at ih ⊢
    generalize hp : (List.range n).foldl (kernelSlot initPd kernelPageTable) s.paging=p at ih ⊢
    obtain ⟨hframe,hslots⟩ := ih
    have hphys : toPhysAddr p p.curPd (kernelPageTable+4*(PT_SIZE*n))=
        wsub (kernelPageTable+4*PT_SIZE*n) VADDR := by
      rw [hframe]
      simp only [toPhysAddr,hcur,hvirt,if_true,ne_eq,show ¬VADDR=0 by decide,not_false_eq_true]
      rw [Nat.mul_assoc]
    refine ⟨?_,fun q => ?_⟩
    · rw [kernelSlot,hframe]
      rfl
    · obtain ⟨hentry,htable⟩ := hslots q
      simp only [kernelSlot,Paging.setDir,Function.update_self,PageDir.setEntry,PageDir.setVirt,
        hphys]
      by_cases hq : q=768+n
      · rw [hq,Function.update_self,Function.update_self,if_pos (by omega),if_pos (by omega),
          Nat.add_sub_cancel_left,Nat.mul_assoc]
        exact ⟨rfl,rfl⟩
      · rw [Function.update_of_ne hq,Function.update_of_ne hq,hentry,htable]
        refine ⟨if_congr ?_ rfl rfl,if_congr ?_ rfl rfl⟩
        · omega
        · omega

/-- Initialisation makes its tables. -/
theorem pageTablesInit_tables (h : BootState s initPd kernelPageTable) :
    ∃ t,pageTablesInit s initPd kernelPageTable=some t ∧
      BootTables s initPd kernelPageTable t := by
  have hnull : kernelPageTable≠0 := by
    have hlo := h.tables.2.1
    rintro rfl
    exact absurd hlo (by decide)
  obtain ⟨u,hu,hframe,hwords,hbits,htables⟩ := @kernelPagesLoop_spec (makeWritable s initPd)
    kernelPageTable hnull (KERNEL_INIT_PT_COUNT*PT_SIZE) 0 (by norm_num)
  have hcur : u.paging.curPd=0 := by
    rw [hframe]
    exact h.current
  have hvirt : u.paging.virtKernelAddr=VADDR := by
    rw [hframe]
    exact h.address
  obtain ⟨hslots,hdir⟩ := @kernelSlots_spec u initPd kernelPageTable hcur hvirt
    KERNEL_INIT_PT_COUNT
  have hrun : pageTablesInit s initPd kernelPageTable=some {u with paging :=
      {(List.range KERNEL_INIT_PT_COUNT).foldl (kernelSlot initPd kernelPageTable) u.paging with
        curPd := initPd} } := by
    rw [pageTablesInit,hu]
  refine ⟨_,hrun,⟨rfl,fun q hq => ?_,fun q hlo hhi => ?_,fun q hq j hj => ?_,?_,fun k => ?_⟩⟩
  · refine (hdir q).1.trans (if_congr Iff.rfl rfl ?_)
    rw [hframe]
    simp only [makeWritable,Paging.setDir,Function.update_self,if_pos hq,h.directory.2 q hq,
      Nat.zero_or]
  · exact (hdir q).2.trans (if_pos ⟨hlo,hhi⟩)
  · have hsame : ((List.range KERNEL_INIT_PT_COUNT).foldl (kernelSlot initPd kernelPageTable)
        u.paging).tables=u.paging.tables := by rw [hslots]
    refine (congrFun (congrFun hsame _) j).trans ?_
    rw [htables q j hj,if_pos]
    simp only [PT_SIZE,KERNEL_INIT_PT_COUNT] at hq hj ⊢
    omega
  · have hsame : ((List.range KERNEL_INIT_PT_COUNT).foldl (kernelSlot initPd kernelPageTable)
        u.paging).pages=u.paging.pages := by rw [hslots]
    refine hsame.trans ?_
    rw [hframe]
    rfl
  · refine (hbits k).trans ?_
    congr 1
    rw [decide_eq_decide]
    omega

/-! ## The state after initialisation -/

/-- Slots of the kernel's addresses. -/
theorem kernel_slot (d : ℕ) :
    getPdePte (VADDR+d)=(768+d/2^22,d/PAGE_SIZE%PT_SIZE) := by
  rw [getPdePte_eq]
  simp only [VADDR,PAGE_SIZE,PT_SIZE]
  exact Prod.ext (by simp only; omega) (by simp only; omega)

/-- The present slots are the kernel's. -/
theorem BootTables.present (hb : BootTables s initPd kernelPageTable t) {q : ℕ} (hq : q<PT_SIZE) :
    slotPresent t.paging t.paging.curPd q=decide (768≤q ∧ q<772) := by
  rw [slotPresent,hb.current,hb.entries q hq]
  by_cases hk : 768≤q ∧ q<772
  · rw [if_pos hk,decide_eq_true hk,Nat.or_assoc,Nat.or_assoc]
    exact tabPresent_or _ (by decide)
  · rw [if_neg hk,decide_eq_false hk]
    rfl

/-- A page translates where it is one of the kernel's. -/
theorem BootTables.pageEntry (hb : BootTables s initPd kernelPageTable t) {q j : ℕ}
    (hq : q<PT_SIZE) (hj : j<PT_SIZE) : translate t.paging q j=if 768≤q ∧ q<772 then
      some (PAGE_SIZE*(PT_SIZE*(q-768)+j) ||| (R_W ||| PRESENT)) else none := by
  simp only [PageFaults.translate,hb.present hq]
  by_cases hk : 768≤q ∧ q<772
  · have hentry := hb.pages (q-768) (by simp only [KERNEL_INIT_PT_COUNT]; omega) j hj
    have hframe : PT_SIZE*(q-768)+j<2^20 := by
      simp only [PT_SIZE] at hj ⊢
      omega
    rw [hb.current,hb.virt q hk.1 hk.2,hentry,decide_eq_true hk,(frameEntry hframe).1,if_pos hk]
    rfl
  · rw [decide_eq_false hk,if_neg hk]
    rfl

/-- The kernel's addresses are reached at their distance from the kernel. -/
theorem BootTables.reached (h : BootState s initPd kernelPageTable)
    (hb : BootTables s initPd kernelPageTable t) {d : ℕ} (hd : d<2^24) :
    Reached t.paging (VADDR+d) ∧ toPhysAddr t.paging t.paging.curPd (VADDR+d)=d := by
  have hslot := kernel_slot d
  have hhi : 768+d/2^22<772 := by omega
  have hpage := hb.pageEntry (q:=768+d/2^22) (j:=d/PAGE_SIZE%PT_SIZE)
    (by simp only [PT_SIZE]; omega) (Nat.mod_lt _ (by norm_num))
  have hframe : PT_SIZE*(768+d/2^22-768)+d/PAGE_SIZE%PT_SIZE=d/PAGE_SIZE := by
    simp only [PT_SIZE,PAGE_SIZE]
    omega
  rw [if_pos ⟨by omega,hhi⟩,hframe] at hpage
  have hpt : (t.paging.dirs t.paging.curPd).pageTablesVirt (getPdePte (VADDR+d)).1≠0 := by
    rw [hslot,hb.current,hb.virt _ (by omega) hhi]
    have hlo := h.tables.2.1
    simp only [VADDR] at hlo
    omega
  have hfull : translate t.paging (getPdePte (VADDR+d)).1 (getPdePte (VADDR+d)).2=
      some (PAGE_SIZE*(d/PAGE_SIZE) ||| (R_W ||| PRESENT)) := by
    rw [hslot]
    exact hpage
  refine ⟨⟨by simp only [VADDR]; omega,by rw [hfull]; exact Option.some_ne_none _⟩,?_⟩
  have hcur : t.paging.curPd≠0 := by
    rw [hb.current]
    exact h.directory.1
  rw [toPhysAddr_translate hcur hpt hfull,
    (frameEntry (by simp only [PAGE_SIZE]; omega : d/PAGE_SIZE<2^20)).2.1,wadd]
  simp only [VADDR,PAGE_SIZE]
  omega

/-- The same for an address of the kernel's memory. -/
theorem BootTables.reached_at (h : BootState s initPd kernelPageTable)
    (hb : BootTables s initPd kernelPageTable t) {addr : ℕ} (hlo : VADDR≤addr)
    (hhi : addr<VADDR+2^24) : Reached t.paging addr ∧
      toPhysAddr t.paging t.paging.curPd addr=addr-VADDR := by
  have hd := @BootTables.reached s t initPd kernelPageTable h hb (addr-VADDR) (by omega)
  rw [Nat.add_sub_cancel' hlo] at hd
  exact hd

/-- Initialisation leaves four tables to be reached, the others to be made. -/
theorem BootTables.backed (h : BootState s initPd kernelPageTable)
    (hb : BootTables s initPd kernelPageTable t) : Backed t := by
  obtain ⟨hdvd,hlo,hhi⟩ := h.tables
  have hkernel : ∀ q<PT_SIZE,slotPresent t.paging t.paging.curPd q=true → 768≤q ∧ q<772 := by
    intro q hq hslot
    rw [hb.present hq] at hslot
    exact of_decide_eq_true hslot
  have hcard : (missingSlots t.paging).card≤PT_SIZE := by
    have hle := Finset.card_filter_le (Finset.range PT_SIZE)
      (fun q => slotPresent t.paging t.paging.curPd q=false)
    rwa [Finset.card_range] at hle
  have htable : ∀ q,q<772 → VADDR≤kernelPageTable+4*PT_SIZE*(q-768) ∧
      kernelPageTable+4*PT_SIZE*(q-768)<VADDR+2^24 := by
    intro q hq
    simp only [PT_SIZE,KERNEL_INIT_PT_COUNT,VADDR] at hlo hhi ⊢
    omega
  refine ⟨?_,fun q hq hslot => ?_,fun q hq r hr hslot hslot' heq => ?_,fun q hq hslot => ?_,?_,
    fun q hq j hj entry he => ?_,fun q hq j hj r hr k hk entry other he ho heq => ?_⟩
  · rw [hb.current]
    exact h.directory.1
  · obtain ⟨hq1,hq2⟩ := hkernel q hq hslot
    have hpos := (htable q hq2).1
    rw [hb.current,hb.virt q hq1 hq2]
    simp only [VADDR] at hpos
    omega
  · obtain ⟨hq1,hq2⟩ := hkernel q hq hslot
    obtain ⟨hr1,hr2⟩ := hkernel r hr hslot'
    rw [hb.current,hb.virt q hq1 hq2,hb.virt r hr1 hr2] at heq
    simp only [PT_SIZE] at heq
    omega
  · obtain ⟨hq1,hq2⟩ := hkernel q hq hslot
    obtain ⟨hpos,htop⟩ := htable q hq2
    obtain ⟨hreached,hphys⟩ := hb.reached_at h hpos htop
    have hvirt := hb.virt q hq1 hq2
    rw [←hb.current] at hvirt
    rw [hvirt]
    refine ⟨hreached,hphys.trans ?_⟩
    have hsub : wsub (kernelPageTable+4*PT_SIZE*(q-768)) VADDR=
        kernelPageTable+4*PT_SIZE*(q-768)-VADDR := by
      rw [wsub]
      simp only [VADDR,PT_SIZE] at hpos htop ⊢
      omega
    have hpage : PAGE_SIZE∣kernelPageTable+4*PT_SIZE*(q-768)-VADDR :=
      Nat.dvd_sub (Dvd.dvd.add hdvd (Dvd.dvd.mul_right (by decide) _)) (by decide)
    rw [hb.current,hb.entries q hq,if_pos ⟨hq1,hq2⟩,hsub,Nat.or_assoc,Nat.or_assoc]
    refine (getTabPureAddr_entry ?_ hpage (by decide)).symm
    simp only [VADDR] at htop
    omega
  · refine ⟨fun i hi => ?_,fun i hi j hj heq => ?_,fun i hi q hq hslot => ?_,fun i hi => ?_,
      fun i hi => ?_⟩
    · rw [hb.heap]
      have hpos := (h.heap i (by omega)).2.1
      simp only [VADDR] at hpos
      omega
    · rw [hb.heap] at heq
      exact h.apart i (by omega) j (by omega) heq
    · obtain ⟨hq1,hq2⟩ := hkernel q hq hslot
      rw [hb.heap,hb.current,hb.virt q hq1 hq2]
      exact h.unused i (by omega) (q-768) (by simp only [KERNEL_INIT_PT_COUNT]; omega)
    · rw [hb.heap]
      exact (hb.reached_at h (h.heap i (by omega)).2.1 (h.heap i (by omega)).2.2).1
    · rw [hb.heap]
      exact (h.heap i (by omega)).1
  · rw [hb.pageEntry hq hj] at he
    split at he
    · rename_i hk
      have hframe : PT_SIZE*(q-768)+j<KERNEL_INIT_PT_COUNT*PT_SIZE := by
        simp only [PT_SIZE,KERNEL_INIT_PT_COUNT] at hj ⊢
        omega
      rw [←Option.some.inj he,(frameEntry (lt_trans hframe (by norm_num))).2.1,
        Nat.mul_div_cancel_left _ (by norm_num),hb.bits,decide_eq_true hframe,Bool.or_true]
    · cases he
  · rw [hb.pageEntry hq hj] at he
    rw [hb.pageEntry hr hk] at ho
    split at he
    · rename_i hq'
      split at ho
      · rename_i hr'
        simp only [PT_SIZE] at hj hk he ho
        rw [←Option.some.inj he,←Option.some.inj ho,(frameEntry (by omega)).2.1,
          (frameEntry (by omega)).2.1] at heq
        simp only [PAGE_SIZE] at heq
        omega
      · cases ho
    · cases he

/-- A kernel of one MiB with its tables behind it and the heap behind these. -/
def bootState : FaultState where
  paging := ⟨fun _ => ⟨fun _ => 0,fun _ => 0⟩,fun _ _ => 0,0,VADDR,
    fun i => VADDR+0x200000+PAGE_SIZE*i⟩
  frames := ⟨fun _ => 0#32,1,oneWord_lt⟩

end XanaduOS.DemandPaging
