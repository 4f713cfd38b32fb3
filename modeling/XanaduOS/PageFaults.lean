import XanaduOS.FrameGroups
import XanaduOS.MemoryMapping
import XanaduOS.TableAllocation

/-!
# Demand paging

A fault at a page that is not present makes the page's table if it is missing,
and takes one frame for the page's entry. A new table belongs to its slot alone.
A table that was there may be the table of other slots as well, since a request
for several tables enters the first of them in every slot, and then the frame
appears at the pages of those slots too.
-/

namespace XanaduOS.PageFaults

open Word32 BitWords KernelDefs FrameAlloc FrameGroups PageTables MemoryMapping TableAllocation

/-- The paging state and the frame bitmap. -/
structure FaultState where
  /-- Directories and tables. -/
  paging : Paging
  /-- Physical frames. -/
  frames : FrameAllocator

/-- Whether a page's entry is present. It is read through the table's pointer. -/
def pagePresent (s : Paging) (pd pde pte : ℕ) : Option Bool :=
  let pt := (s.dirs pd).pageTablesVirt pde
  if pt=0 then none else some (tabPresent (s.tables pt pte))

/-- Find a frame for the entry at a table's index. -/
def findAllocFrame (s : FaultState) (entry : ℕ×ℕ) (flags : ℕ) : Option (ℕ×FaultState) :=
  match findAllocNframes s.frames 1 (entry.1+4*entry.2) flags with
  | none => none
  | some f =>
    match storeEntries s.paging entry f.addrs with
    | none => none
    | some paging => some (f.ret,⟨paging,{s.frames with frames := f.frames}⟩)

/-- Serve a fault in the current directory. -/
def nonPresentPageHanler (s : FaultState) (pde pte : ℕ) : Option (ℕ×FaultState) :=
  let curPd := s.paging.curPd
  if tabPresent ((s.paging.dirs curPd).pageTables pde)=false then
    match mapAllocNpt s.paging curPd 1 pde (R_W ||| PRESENT) with
    | none => none
    | some m =>
      let s := {s with paging := m.paging}
      if m.ret≠0 then some (m.ret,s)
      else
        match findAllocFrame s (m.pts.headD 0,pte) (R_W ||| PRESENT) with
        | none => none
        | some (ret,s) => if ret≠0 then some (ret,s) else some (1,s)
  else
    match pagePresent s.paging curPd pde pte with
    | none => none
    | some true => some (1,s)
    | some false =>
      match findAllocFrame s ((s.paging.dirs curPd).pageTablesVirt pde,pte) (R_W ||| PRESENT) with
      | none => none
      | some (_,s) => some (1,s)

/-- The entry that a page translates through, if its table and it are present. -/
def translate (s : Paging) (pde pte : ℕ) : Option ℕ :=
  let pt := (s.dirs s.curPd).pageTablesVirt pde
  if slotPresent s s.curPd pde && tabPresent (s.tables pt pte) then some (s.tables pt pte) else none

/-- No other present slot has the table of a present slot. -/
def TableUnshared (s : Paging) (pde : ℕ) : Prop :=
  slotPresent s s.curPd pde=true → ∀ q<PT_SIZE,q≠pde → slotPresent s s.curPd q=true →
    (s.dirs s.curPd).pageTablesVirt q≠(s.dirs s.curPd).pageTablesVirt pde

/-- What serving a fault leaves. -/
structure PageServed (s : FaultState) (pde pte : ℕ) (t : FaultState) : Prop where
  /-- The page is present, writable, and backed by a frame that was free; the
  bitmap has changed in the bit of this frame only. -/
  page : ∃ frame entry,frame<32*s.frames.framesNum ∧ translate t.paging pde pte=some entry ∧
    getTabPureAddr entry=PAGE_SIZE*frame ∧ entry&&&R_W=R_W ∧
    bitAt s.frames.frames frame=false ∧
    ∀ k,bitAt t.frames.frames k=(bitAt s.frames.frames k || decide (k=frame))
  /-- Every other page translates as before. -/
  others : ∀ q<PT_SIZE,∀ j<PT_SIZE,(q,j)≠(pde,pte) →
    translate t.paging q j=translate s.paging q j
  /-- A new table's slot is writable and names the table by its physical address. -/
  slot : slotPresent s.paging s.paging.curPd pde=false →
    (t.paging.dirs t.paging.curPd).pageTables pde&&&R_W=R_W ∧
    toPhysAddr t.paging t.paging.curPd ((t.paging.dirs t.paging.curPd).pageTablesVirt pde)=
      getTabPureAddr ((t.paging.dirs t.paging.curPd).pageTables pde)
  /-- Present slots are kept as they are. -/
  kept : ∀ q,slotPresent s.paging s.paging.curPd q=true →
    (t.paging.dirs t.paging.curPd).pageTables q=(s.paging.dirs s.paging.curPd).pageTables q ∧
    (t.paging.dirs t.paging.curPd).pageTablesVirt q=
      (s.paging.dirs s.paging.curPd).pageTablesVirt q

/-- What a fault leaves: a page without a translation is served, and where the
page was present already nothing changes. -/
structure FaultServed (s : FaultState) (pde pte : ℕ) (t : FaultState) : Prop where
  /-- A page without a translation gets a frame. -/
  absent : translate s.paging pde pte=none → PageServed s pde pte t
  /-- A page that is present is left alone, as is everything else. -/
  present : translate s.paging pde pte≠none → t=s

variable {pde pte : ℕ}

/-! ## One frame -/

/-- A search for one frame takes a free one. -/
theorem findLoop_one {flags words i : ℕ} {frames : FrameWords} {f : FindResult}
    (h : findLoop 1 flags words i 0 frames []=some f) (hret : f.ret=0) :
    ∃ frameMap j,frameMap < i+words ∧ j<32 ∧ isFrameFree frames frameMap j=true ∧
      f.frames=(setNframesUsed frames 1 frameMap j).1 ∧ f.addrs=setNallocAddrs 1 frameMap j flags := by
  induction words generalizing i with
  | zero =>
    cases h
    cases hret
  | succ words ih =>
    have hmin : min (1-0) 8=1 := by decide
    rcases findLoop_cases Nat.zero_lt_one h with ⟨hnext,_⟩|⟨j,hj,hfree,⟨_,rfl,_⟩|⟨hmore,_⟩⟩
    · obtain ⟨frameMap,j,hlt,hfound⟩ := ih hnext
      exact ⟨frameMap,j,by omega,hfound⟩
    · rw [hmin]
      exact ⟨i,j,by omega,hj,hfree,rfl,rfl⟩
    · omega

/-- The frame found is a clear bit of the bitmap, and the only one that is set. -/
theorem findAllocNframes_one {s : FrameAllocator} {p flags : ℕ} {f : FindResult} (hp : p≠0)
    (h : findAllocNframes s 1 p flags=some f) (hret : f.ret=0) :
    ∃ frame<32*s.framesNum,bitAt s.frames frame=false ∧ f.addrs=[PAGE_SIZE*frame ||| flags] ∧
      ∀ k,bitAt f.frames k=(bitAt s.frames k || decide (k=frame)) := by
  rw [findAllocNframes,if_neg hp] at h
  obtain ⟨frameMap,j,hlt,hj,hfree,hframes,haddrs⟩ := findLoop_one h hret
  have hnum := s.framesNum_lt
  refine ⟨32*frameMap+j,by omega,(isFrameFree_iff _ hj).mp hfree,?_,fun k => ?_⟩
  · rw [haddrs,setNallocAddrs,List.range_one,List.map_singleton,Nat.add_zero,
      frameMapToAddr_eq (by omega) (by omega)]
  · rw [hframes,bitAt_setNframesUsed _ hj (by norm_num)]
    congr 1
    rw [decide_eq_decide]
    omega

/-- Filling an entry with a frame. -/
theorem findAllocFrame_spec {s : FaultState} {entry : ℕ×ℕ} {flags : ℕ} {f : FindResult}
    (h0 : entry.1≠0) (h : findAllocNframes s.frames 1 (entry.1+4*entry.2) flags=some f)
    (hret : f.ret=0) :
    ∃ t frame,findAllocFrame s entry flags=some (0,t) ∧ frame<32*s.frames.framesNum ∧
      bitAt s.frames.frames frame=false ∧
      (∀ k,bitAt t.frames.frames k=(bitAt s.frames.frames k || decide (k=frame))) ∧
      t.paging=s.paging.setTable entry.1 (Function.update (s.paging.tables entry.1) entry.2
        (PAGE_SIZE*frame ||| flags)) := by
  obtain ⟨frame,hlt,hfree,haddrs,hbits⟩ := findAllocNframes_one (by omega) h hret
  have hstore : storeEntries s.paging entry f.addrs=some (s.paging.setTable entry.1
      (Function.update (s.paging.tables entry.1) entry.2 (PAGE_SIZE*frame ||| flags))) := by
    rw [storeEntries,if_neg fun hnull => h0 hnull.1,haddrs]
    congr 2
    funext j
    by_cases hj : j=entry.2
    · subst hj
      simp
    · rw [Function.update_of_ne hj,if_neg]
      rw [List.length_singleton]
      omega
  refine ⟨⟨s.paging.setTable entry.1 (Function.update (s.paging.tables entry.1) entry.2
    (PAGE_SIZE*frame ||| flags)),{s.frames with frames := f.frames}⟩,frame,?_,hlt,hfree,hbits,rfl⟩
  simp only [findAllocFrame,h,hstore,hret]

/-- A frame's entry is present, writable and names the frame. -/
theorem frameEntry {frame : ℕ} (h : frame<2^20) :
    tabPresent (PAGE_SIZE*frame ||| (R_W ||| PRESENT))=true ∧
      getTabPureAddr (PAGE_SIZE*frame ||| (R_W ||| PRESENT))=PAGE_SIZE*frame ∧
      (PAGE_SIZE*frame ||| (R_W ||| PRESENT))&&&R_W=R_W := by
  refine ⟨tabPresent_or _ (by decide),getTabPureAddr_entry ?_ (Nat.dvd_mul_right _ _) (by decide),?_⟩
  · simp only [PAGE_SIZE]
    omega
  · rw [Nat.or_comm R_W PRESENT,←Nat.or_assoc]
    exact or_and_flags _ _

/-! ## Serving a fault -/

/-- A page's translation after one entry of memory was written. -/
theorem translate_setTable {p : Paging} {pt at_ entry : ℕ} (q j : ℕ) :
    translate (p.setTable pt (Function.update (p.tables pt) at_ entry)) q j=
      if slotPresent p p.curPd q=true ∧ (p.dirs p.curPd).pageTablesVirt q=pt ∧ j=at_ then
        (if tabPresent entry then some entry else none)
      else translate p q j := by
  by_cases hpt : (p.dirs p.curPd).pageTablesVirt q=pt
  · by_cases hj : j=at_
    · subst hpt hj
      by_cases hslot : slotPresent p p.curPd q=true
      · simp only [hslot,and_self,if_true]
        simp only [slotPresent] at hslot
        simp [translate,Paging.setTable,slotPresent,hslot]
      · simp only [slotPresent] at hslot
        simp [translate,Paging.setTable,slotPresent,hslot]
    · simp [translate,Paging.setTable,slotPresent,hpt,hj]
  · simp [translate,Paging.setTable,slotPresent,hpt]

/-- A new table does not change what any page translates to. -/
theorem translate_madeTable {p : Paging} (hfresh : FreshPages p p.curPd)
    (hmiss : slotPresent p p.curPd pde=false) (flags q : ℕ) {j : ℕ} (hj : j<PT_SIZE) :
    translate (madeTable p p.curPd pde flags (p.pages 0)) q j=translate p q j := by
  have hcur : (madeTable p p.curPd pde flags (p.pages 0)).curPd=p.curPd := rfl
  simp only [translate,slotPresent,hcur,entries_madeTable,virt_madeTable]
  by_cases hq : q=pde
  · subst hq
    have hzero : (madeTable p p.curPd q flags (p.pages 0)).tables (p.pages 0) j=0 := by
      simp [madeTable,Paging.setDir,Paging.setTable,hj]
    have hnone : tabPresent 0=false := rfl
    rw [slotPresent] at hmiss
    simp only [Function.update_self,hzero,hnone,hmiss,Bool.and_false,Bool.false_and,
      Bool.false_eq_true,if_false]
  · have htable : (madeTable p p.curPd pde flags (p.pages 0)).tables
        ((p.dirs p.curPd).pageTablesVirt q)=p.tables ((p.dirs p.curPd).pageTablesVirt q) :=
      Function.update_of_ne (hfresh.unused 0 q).1 _ _
    rw [Function.update_of_ne hq,Function.update_of_ne hq,htable]
    rfl

/-- A request for the table of one missing slot. -/
theorem mapAllocNpt_missing {p : Paging} {pd flags : ℕ} (hpd : pd≠0) (hflags : tabPresent flags=true)
    (hpde : pde<PT_SIZE) (hnull : p.pages 0≠0) (hmiss : slotPresent p pd pde=false) :
    mapAllocNpt p pd 1 pde flags=
      some ⟨0,madeTable p pd pde flags (p.pages 0),[p.pages 0]⟩ := by
  rw [slotPresent,←tabPresent_clearAccessed] at hmiss
  have hentry := ne_zero_of_tabPresent (tabPresent_or (toPhysAddr p p.curPd (p.pages 0)) hflags)
  rw [mapAllocNpt,if_neg hpd,mapAllocNptLoop]
  simp only [Nat.add_zero,if_neg (Nat.not_lt_of_lt hpde),hmiss,allocPt,if_neg hnull,if_neg hentry]
  rfl

/-- Writes to a table that is not on the way do not change what an address
translates to. -/
theorem toPhysAddr_setTable {p : Paging} {c addr pt : ℕ} (entries : ℕ → ℕ)
    (h : (p.dirs c).pageTablesVirt (getPdePte addr).1≠pt) :
    toPhysAddr (p.setTable pt entries) c addr=toPhysAddr p c addr := by
  have htable : (p.setTable pt entries).tables ((p.dirs c).pageTablesVirt (getPdePte addr).1)=
      p.tables ((p.dirs c).pageTablesVirt (getPdePte addr).1) := Function.update_of_ne h _ _
  have hdirs : (p.setTable pt entries).dirs=p.dirs := rfl
  simp only [toPhysAddr,hdirs,htable]
  rfl

/-- A fault at a page of a missing table. -/
theorem missing_served {s : FaultState} (hcur : s.paging.curPd≠0) (hpde : pde<PT_SIZE)
    (hpte : pte<PT_SIZE) (hmiss : slotPresent s.paging s.paging.curPd pde=false)
    (hnull : s.paging.pages 0≠0) (hfresh : FreshPages s.paging s.paging.curPd)
    (hfind : ∀ p≠0,∃ f,findAllocNframes s.frames 1 p (R_W ||| PRESENT)=some f ∧ f.ret=0) :
    ∃ t,nonPresentPageHanler s pde pte=some (1,t) ∧ PageServed s pde pte t := by
  have hmap := mapAllocNpt_missing hcur (by decide : tabPresent (R_W ||| PRESENT)=true) hpde
    hnull hmiss
  have hserved := @made_served s.paging s.paging.curPd (R_W ||| PRESENT) pde (by decide)
    (by decide) hfresh hpde hmiss
  obtain ⟨f,hf,hret⟩ := hfind (s.paging.pages 0+4*pte) (by omega)
  obtain ⟨t,frame,hfill,hlt,hfree,hbits,hpaging⟩ := @findAllocFrame_spec
    ⟨madeTable s.paging s.paging.curPd pde (R_W ||| PRESENT) (s.paging.pages 0),s.frames⟩
    (s.paging.pages 0,pte) (R_W ||| PRESENT) f hnull hf hret
  have hnum := s.frames.framesNum_lt
  obtain ⟨hpresent,hpure,hwrite⟩ := @frameEntry frame (by simp only at hlt; omega)
  have hcurT : t.paging.curPd=s.paging.curPd := by rw [hpaging]; rfl
  have hdirsT : t.paging.dirs=(madeTable s.paging s.paging.curPd pde (R_W ||| PRESENT)
      (s.paging.pages 0)).dirs := by rw [hpaging]; rfl
  have hvirt := @virt_madeTable s.paging s.paging.curPd (R_W ||| PRESENT) pde (s.paging.pages 0)
  have hentries := @entries_madeTable s.paging s.paging.curPd (R_W ||| PRESENT) pde
    (s.paging.pages 0)
  have htrans : ∀ q j,j<PT_SIZE → translate t.paging q j=
      if q=pde ∧ j=pte then some (PAGE_SIZE*frame ||| (R_W ||| PRESENT))
      else translate s.paging q j := by
    intro q j hj
    rw [hpaging,translate_setTable,translate_madeTable hfresh hmiss _ q hj,if_pos hpresent]
    refine if_congr ⟨?_,?_⟩ rfl rfl
    · rintro ⟨-,hq,hjp⟩
      refine ⟨?_,hjp⟩
      by_contra hne
      change ((madeTable s.paging s.paging.curPd pde (R_W ||| PRESENT)
        (s.paging.pages 0)).dirs s.paging.curPd).pageTablesVirt q=s.paging.pages 0 at hq
      rw [hvirt,Function.update_of_ne hne] at hq
      exact (hfresh.unused 0 q).1 hq
    · rintro ⟨rfl,rfl⟩
      refine ⟨(hserved.present 0 (by decide)).1,?_,rfl⟩
      change ((madeTable s.paging s.paging.curPd q (R_W ||| PRESENT)
        (s.paging.pages 0)).dirs s.paging.curPd).pageTablesVirt q=s.paging.pages 0
      rw [hvirt,Function.update_self]
  refine ⟨t,?_,⟨frame,_,hlt,(htrans pde pte hpte).trans (if_pos ⟨rfl,rfl⟩),hpure,hwrite,hfree,hbits⟩,
    fun q _ j hj hother => ?_,fun _ => ?_,fun q hq => ?_⟩
  · have hraw : tabPresent ((s.paging.dirs s.paging.curPd).pageTables pde)=false := hmiss
    simp only [nonPresentPageHanler,if_pos hraw,hmap,List.headD_cons,hfill]
    rfl
  · rw [htrans q j hj,if_neg]
    rintro ⟨rfl,rfl⟩
    exact hother rfl
  · rw [hcurT,hdirsT]
    refine ⟨?_,?_⟩
    · rw [hentries,Function.update_self,Nat.or_comm R_W PRESENT,←Nat.or_assoc]
      exact or_and_flags _ _
    · rw [hpaging,toPhysAddr_setTable]
      · exact hserved.named 0 (by decide)
      · have hslot : (getPdePte (s.paging.pages 0)).1≠pde := by
          intro heq
          have hmapped := hfresh.mapped 0 hcur
          rw [heq,hmiss] at hmapped
          cases hmapped
        rw [hvirt,Function.update_self,Function.update_of_ne hslot]
        exact (hfresh.unused 0 _).1
  · have hne : q≠pde := by
      rintro rfl
      rw [hmiss] at hq
      cases hq
    rw [hcurT,hdirsT,hentries,hvirt,Function.update_of_ne hne,Function.update_of_ne hne]
    exact ⟨rfl,rfl⟩

/-- A fault at a page that is not present in its table is served exactly when no
other slot has the table. -/
theorem present_served_iff {s : FaultState} (hpte : pte<PT_SIZE)
    (hslot : slotPresent s.paging s.paging.curPd pde=true)
    (hpointer : (s.paging.dirs s.paging.curPd).pageTablesVirt pde≠0)
    (habsent : translate s.paging pde pte=none)
    (hfind : ∀ p≠0,∃ f,findAllocNframes s.frames 1 p (R_W ||| PRESENT)=some f ∧ f.ret=0) :
    ∃ t,nonPresentPageHanler s pde pte=some (1,t) ∧
      (PageServed s pde pte t ↔ TableUnshared s.paging pde) := by
  have hentry : tabPresent (s.paging.tables
      ((s.paging.dirs s.paging.curPd).pageTablesVirt pde) pte)=false := by
    cases hp : tabPresent (s.paging.tables
        ((s.paging.dirs s.paging.curPd).pageTablesVirt pde) pte) with
    | false => rfl
    | true =>
      simp only [translate,hslot,hp,Bool.and_self,if_true] at habsent
      cases habsent
  obtain ⟨f,hf,hret⟩ := hfind
    ((s.paging.dirs s.paging.curPd).pageTablesVirt pde+4*pte) (by omega)
  obtain ⟨t,frame,hfill,hlt,hfree,hbits,hpaging⟩ := @findAllocFrame_spec s
    ((s.paging.dirs s.paging.curPd).pageTablesVirt pde,pte) (R_W ||| PRESENT) f hpointer hf hret
  have hnum := s.frames.framesNum_lt
  obtain ⟨hpresent,hpure,hwrite⟩ := @frameEntry frame (by omega)
  have hdirsT : t.paging.dirs=s.paging.dirs := by rw [hpaging]; rfl
  have hcurT : t.paging.curPd=s.paging.curPd := by rw [hpaging]; rfl
  have htrans : ∀ q j,translate t.paging q j=
      if slotPresent s.paging s.paging.curPd q=true ∧
          (s.paging.dirs s.paging.curPd).pageTablesVirt q=
            (s.paging.dirs s.paging.curPd).pageTablesVirt pde ∧ j=pte then
        some (PAGE_SIZE*frame ||| (R_W ||| PRESENT))
      else translate s.paging q j := by
    intro q j
    rw [hpaging,translate_setTable,if_pos hpresent]
  refine ⟨t,?_,fun hserved _ q hq hne hqslot hshared => ?_,fun hunshared => ?_⟩
  · have hraw : ¬tabPresent ((s.paging.dirs s.paging.curPd).pageTables pde)=false := by
      rw [Bool.not_eq_false]
      exact hslot
    simp only [nonPresentPageHanler,if_neg hraw,pagePresent,if_neg hpointer,hentry,hfill]
  · -- The page at the same index of the other slot has got the frame as well.
    have hother := hserved.others q hq pte hpte fun heq => hne (congrArg Prod.fst heq)
    have hbefore : translate s.paging q pte=none := by
      simp only [translate,hshared,hentry,Bool.and_false,Bool.false_eq_true,if_false]
    rw [htrans,if_pos ⟨hqslot,hshared,rfl⟩,hbefore] at hother
    cases hother
  · refine ⟨⟨frame,_,hlt,?_,hpure,hwrite,hfree,hbits⟩,fun q hq j _ hother => ?_,fun hmiss => ?_,
      fun q _ => ?_⟩
    · rw [htrans,if_pos ⟨hslot,rfl,rfl⟩]
    · rw [htrans,if_neg]
      rintro ⟨hqslot,hvirt,rfl⟩
      exact hunshared hslot q hq (fun heq => hother (by rw [heq])) hqslot hvirt
    · rw [hslot] at hmiss
      cases hmiss
    · rw [hcurT,hdirsT]
      exact ⟨rfl,rfl⟩

/-- A directory with the kernel's slots only, whose pages are present, and a
bitmap of one word. -/
def faultState : FaultState where
  paging := {mappedDirectory with
    dirs := fun _ => ⟨fun q => if q<768 then 0 else PAGE_SIZE*(q+1) ||| 3,
      (mappedDirectory.dirs 1).pageTablesVirt⟩}
  frames := ⟨fun _ => 0#32,1,oneWord_lt⟩

/-- The heap's pages are fresh there. -/
theorem faultState_fresh : FreshPages faultState.paging 1 := by
  obtain ⟨hapart,hunused,-,haligned,hkernel⟩ := mappedDirectory_fresh
  refine ⟨hapart,hunused,fun i _ => ?_,haligned,hkernel⟩
  have hslot : ¬(getPdePte (faultState.paging.pages i)).1<768 := by
    rw [getPdePte_eq]
    simp only [faultState,mappedDirectory,VADDR,PAGE_SIZE,PT_SIZE]
    omega
  simp only [slotPresent,faultState] at hslot ⊢
  rw [if_neg hslot]
  exact tabPresent_or _ (by decide)

/-- The bitmap of that state has a free frame. -/
theorem faultState_finds (p : ℕ) (hp : p≠0) :
    ∃ f,findAllocNframes faultState.frames 1 p (R_W ||| PRESENT)=some f ∧ f.ret=0 := by
  rw [findAllocNframes,if_neg hp]
  exact ⟨_,rfl,rfl⟩

/-- The state after a request for the tables of the first two slots. -/
def twoSlots : FaultState := {faultState with
  paging := madeTable (madeTable faultState.paging 1 0 3 (faultState.paging.pages 0)) 1 1 3
    (faultState.paging.pages 0)}

end XanaduOS.PageFaults
