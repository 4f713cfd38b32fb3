import XanaduOS.PageTables

/-!
# Tables for consecutive directory slots

A directory keeps three arrays in step: entries, pointers to the tables, and
the pointers handed to the caller. The loop over slots returns at the first
table that is present already, and it enters the first new table as the pointer
of every slot. So a request for several slots ends well only where one missing
slot is followed by one present slot. A missing slot becomes present only by the
flags of the request. The bound test admits the slot behind the directory.
-/

namespace XanaduOS.TableAllocation

open Word32 KernelDefs PageTables

/-- The slots whose entries the loop over slots reads, in order. -/
def touchedLoop (pd pde flags : ℕ) : ℕ → ℕ → Paging → List ℕ → List ℕ
  | 0,_,_,_ => []
  | left+1,n,s,pts =>
    let curPde := pde+n
    if PT_SIZE<curPde then []
    else
      let dir := s.dirs pd
      let entry := clearAccessed (dir.pageTables curPde)
      if tabPresent entry then [curPde]
      else
        match allocPt s flags with
        | none => [curPde]
        | some (newPt,newEntry,s) =>
          let dir := dir.setEntry curPde newEntry
          let pts := pts++[newPt]
          if newEntry=0 then [curPde]
          else curPde::touchedLoop pd pde flags left (n+1)
            (s.setDir pd (dir.setVirt curPde (pts.headD 0))) pts

/-- The slots that a request for tables touches. -/
def touchedSlots (s : Paging) (pd npt pde flags : ℕ) : List ℕ :=
  if pd=0 then [] else touchedLoop pd pde flags npt 0 s []

/-- Whether the entry of a slot is present. -/
def slotPresent (s : Paging) (pd pde : ℕ) : Bool := tabPresent ((s.dirs pd).pageTables pde)

/-- Entries of present slots name their tables, which lie in mapped memory. -/
structure DirectoryValid (s : Paging) (pd : ℕ) : Prop where
  /-- The entry has the physical address of the table. -/
  named : ∀ q<PT_SIZE,slotPresent s pd q=true →
    toPhysAddr s s.curPd ((s.dirs pd).pageTablesVirt q)=getTabPureAddr ((s.dirs pd).pageTables q)
  /-- The table itself is reached through a present slot. -/
  reached : ∀ q<PT_SIZE,slotPresent s pd q=true → s.curPd≠0 →
    slotPresent s s.curPd (getPdePte ((s.dirs pd).pageTablesVirt q)).1=true

/-- The heap's next pages are pages of mapped memory that no directory uses. -/
structure FreshPages (s : Paging) (pd : ℕ) : Prop where
  /-- No page is handed out twice. -/
  apart : ∀ i j,i≠j → s.pages i≠s.pages j
  /-- No page is a table already. -/
  unused : ∀ i q,(s.dirs pd).pageTablesVirt q≠s.pages i ∧
    (s.dirs s.curPd).pageTablesVirt q≠s.pages i
  /-- Pages are reached through present slots. -/
  mapped : ∀ i,s.curPd≠0 → slotPresent s s.curPd (getPdePte (s.pages i)).1=true
  /-- Pages begin at page addresses. -/
  aligned : ∀ i,PAGE_SIZE∣s.pages i
  /-- So does the kernel. -/
  kernel : PAGE_SIZE∣s.virtKernelAddr

/-- What a successful request promises. -/
structure TablesMade (s : Paging) (pd npt pde flags : ℕ) (r : NptResult) : Prop where
  /-- The slots are slots of the directory. -/
  bound : pde+npt≤PT_SIZE
  /-- Each slot is present, with the flags asked for. -/
  present : ∀ i<npt,slotPresent r.paging pd (pde+i)=true ∧
    (r.paging.dirs pd).pageTables (pde+i)&&&flags=flags
  /-- The entry of each slot has the physical address of its table. -/
  named : ∀ i<npt,toPhysAddr r.paging r.paging.curPd ((r.paging.dirs pd).pageTablesVirt (pde+i))=
    getTabPureAddr ((r.paging.dirs pd).pageTables (pde+i))
  /-- The caller gets the table of each slot. -/
  written : ∀ i<npt,r.pts[i]?=some ((r.paging.dirs pd).pageTablesVirt (pde+i))
  /-- Tables that were present stay, with their contents. -/
  kept : ∀ i<npt,slotPresent s pd (pde+i)=true →
    (r.paging.dirs pd).pageTablesVirt (pde+i)=(s.dirs pd).pageTablesVirt (pde+i) ∧
    r.paging.tables ((s.dirs pd).pageTablesVirt (pde+i))=
      s.tables ((s.dirs pd).pageTablesVirt (pde+i))
  /-- New tables are all zero. -/
  zeroed : ∀ i<npt,slotPresent s pd (pde+i)=false → ∀ j<PT_SIZE,
    r.paging.tables ((r.paging.dirs pd).pageTablesVirt (pde+i)) j=0

/-- A request keeps its promise and touches no slot behind the directory. -/
structure WellServed (s : Paging) (pd npt pde flags : ℕ) (r : NptResult) : Prop where
  /-- The promise of a success. -/
  success : r.ret=0 → TablesMade s pd npt pde flags r
  /-- The slots touched are slots of the directory. -/
  inside : ∀ q∈touchedSlots s pd npt pde flags,q<PT_SIZE

/-- The slots for which one call does what it promises: one present slot, and
with the flag of presence one missing slot, alone or before a present one. -/
def SlotsMatch (s : Paging) (pd npt pde flags : ℕ) : Prop :=
  (npt=1 ∧ (tabPresent flags=true ∨ slotPresent s pd pde=true)) ∨
    (npt=2 ∧ tabPresent flags=true ∧ slotPresent s pd pde=false ∧
      slotPresent s pd (pde+1)=true)

/-- The requests that are well served: without a directory, past its end, or for
slots of it that match. -/
def Servable (s : Paging) (pd npt pde flags : ℕ) : Prop :=
  pd=0 ∨ PT_SIZE<pde ∨ (pde+npt≤PT_SIZE ∧ SlotsMatch s pd npt pde flags)

instance (s : Paging) (pd npt pde flags : ℕ) : Decidable (Servable s pd npt pde flags) :=
  inferInstanceAs (Decidable (_ ∨ _ ∨ _∧(_ ∨ _)))

variable {s : Paging} {pd npt pde flags q : ℕ} {r : NptResult}

/-! ## Entries with flags -/

/-- Page addresses of words joined bit by bit. -/
theorem getTabPureAddr_or (a b : ℕ) :
    getTabPureAddr (a ||| b)=getTabPureAddr a ||| getTabPureAddr b :=
  Nat.and_or_distrib_right a b 0xFFFFF000

/-- Flags and the processor's flag do not touch the page address of an entry. -/
theorem getTabPureAddr_flagged (entry : ℕ) (hf : flags<PAGE_SIZE) :
    getTabPureAddr (clearAccessed entry ||| flags)=getTabPureAddr entry := by
  have hflags : getTabPureAddr flags=0 := by
    rw [getTabPureAddr_eq (lt_trans hf (by norm_num)),Nat.div_eq_of_lt hf,Nat.zero_mul]
  have hclear : getTabPureAddr (clearAccessed entry)=getTabPureAddr entry := by
    unfold clearAccessed
    split
    · exact Nat.and_assoc entry 0xFFFFFFDF 0xFFFFF000
    · rfl
  rw [getTabPureAddr_or,hflags,Nat.or_zero,hclear]

/-- An entry joined with a present one is present. -/
theorem tabPresent_or (a : ℕ) {b : ℕ} (hb : tabPresent b=true) : tabPresent (a ||| b)=true := by
  simp only [tabPresent,decide_eq_true_eq,Nat.and_or_distrib_right] at hb ⊢
  exact fun h => hb (Nat.or_eq_zero_iff.mp h).2

/-- A present entry stays present under flags. -/
theorem tabPresent_flagged {a : ℕ} (ha : tabPresent a=true) (flags : ℕ) :
    tabPresent (clearAccessed a ||| flags)=true := by
  rw [Nat.or_comm]
  exact tabPresent_or flags ((tabPresent_clearAccessed a).trans ha)

/-- A page joined with flags is present only by the flags. -/
theorem tabPresent_page {page : ℕ} (hpage : PAGE_SIZE∣page) (flags : ℕ) :
    tabPresent (page ||| flags)=tabPresent flags := by
  have hlow : page&&&PRESENT=0 := by
    have hand : page&&&PRESENT=page%2 := Nat.and_one_is_mod page
    rw [hand]
    exact Nat.mod_eq_zero_of_dvd (dvd_trans (by decide) hpage)
  rw [tabPresent,tabPresent,Nat.and_or_distrib_right,hlow,Nat.zero_or]

/-- Flags joined to an entry are there. -/
theorem or_and_flags (a b : ℕ) : (a ||| b)&&&b=b := by
  apply Nat.eq_of_testBit_eq
  intro i
  simp only [Nat.testBit_and,Nat.testBit_or]
  cases a.testBit i <;> cases b.testBit i <;> rfl

/-- An entry that is present is not zero. -/
theorem ne_zero_of_tabPresent {a : ℕ} (h : tabPresent a=true) : a≠0 := by
  rintro rfl
  cases h

/-! ## One slot -/

/-- The state after a new table was made for a slot; `first` is the pointer
entered for it. -/
def madeTable (s : Paging) (pd q flags first : ℕ) : Paging :=
  ({s.setTable (s.pages 0) (fun j => if j<PT_SIZE then 0 else s.tables (s.pages 0) j) with
    pages := fun i => s.pages (i+1)} : Paging).setDir pd
    (((s.dirs pd).setEntry q (toPhysAddr s s.curPd (s.pages 0) ||| flags)).setVirt q first)

/-- The state after flags were added to a present slot. -/
def flaggedSlot (s : Paging) (pd q flags : ℕ) : Paging :=
  s.setDir pd ((s.dirs pd).setEntry q (clearAccessed ((s.dirs pd).pageTables q) ||| flags))

/-- Entries after a new table was made. -/
theorem entries_madeTable (first : ℕ) : ((madeTable s pd q flags first).dirs pd).pageTables=
    Function.update (s.dirs pd).pageTables q (toPhysAddr s s.curPd (s.pages 0) ||| flags) := by
  simp only [madeTable,Paging.setDir,Function.update_self]
  rfl

/-- Pointers after a new table was made. -/
theorem virt_madeTable (first : ℕ) : ((madeTable s pd q flags first).dirs pd).pageTablesVirt=
    Function.update (s.dirs pd).pageTablesVirt q first := by
  simp only [madeTable,Paging.setDir,Function.update_self]
  rfl

/-- Entries after flags were added to a slot. -/
theorem entries_flaggedSlot : ((flaggedSlot s pd q flags).dirs pd).pageTables=
    Function.update (s.dirs pd).pageTables q
      (clearAccessed ((s.dirs pd).pageTables q) ||| flags) := by
  simp only [flaggedSlot,Paging.setDir,Function.update_self]
  rfl

/-- Pointers after flags were added to a slot. -/
theorem virt_flaggedSlot : ((flaggedSlot s pd q flags).dirs pd).pageTablesVirt=
    (s.dirs pd).pageTablesVirt := by
  simp only [flaggedSlot,Paging.setDir,Function.update_self]
  rfl

/-- The loop ends at a present slot. -/
theorem loop_present (left : ℕ) {n : ℕ} {pts : List ℕ} (hn : pde+n≤PT_SIZE)
    (hp : slotPresent s pd (pde+n)=true) :
    mapAllocNptLoop pd pde flags (left+1) n s pts=some ⟨0,flaggedSlot s pd (pde+n) flags,
        pts++[(s.dirs pd).pageTablesVirt (pde+n)]⟩ ∧
      touchedLoop pd pde flags (left+1) n s pts=[pde+n] := by
  rw [slotPresent,←tabPresent_clearAccessed] at hp
  rw [mapAllocNptLoop,touchedLoop]
  simp only [if_neg (Nat.not_lt_of_le hn),if_pos hp]
  exact ⟨rfl,trivial⟩

/-- A request that begins at a present slot serves this slot only. -/
theorem mapAllocNpt_present (left : ℕ) (hpd : pd≠0) (hpde : pde≤PT_SIZE)
    (hp : slotPresent s pd pde=true) : mapAllocNpt s pd (left+1) pde flags=
      some ⟨0,flaggedSlot s pd pde flags,[(s.dirs pd).pageTablesVirt pde]⟩ := by
  rw [mapAllocNpt,if_neg hpd]
  exact (@loop_present s pd pde flags left 0 [] hpde hp).1

/-- The loop makes a table for a missing slot and goes on. -/
theorem loop_missing {left n : ℕ} {pts : List ℕ} (hflags : flags≠0)
    (hn : pde+n≤PT_SIZE) (hp : slotPresent s pd (pde+n)=false)
    (h : mapAllocNptLoop pd pde flags (left+1) n s pts=some r) :
    mapAllocNptLoop pd pde flags left (n+1)
        (madeTable s pd (pde+n) flags ((pts++[s.pages 0]).headD 0)) (pts++[s.pages 0])=some r ∧
      touchedLoop pd pde flags (left+1) n s pts=(pde+n)::touchedLoop pd pde flags left (n+1)
        (madeTable s pd (pde+n) flags ((pts++[s.pages 0]).headD 0)) (pts++[s.pages 0]) := by
  rw [slotPresent,←tabPresent_clearAccessed] at hp
  have hentry : toPhysAddr s s.curPd (s.pages 0) ||| flags≠0 :=
    fun h => hflags (Nat.or_eq_zero_iff.mp h).2
  rw [mapAllocNptLoop] at h
  rw [touchedLoop]
  simp only [if_neg (Nat.not_lt_of_le hn),hp,allocPt] at h ⊢
  by_cases hnull : s.pages 0=0
  · simp [hnull] at h
  · simp only [if_neg hnull,if_neg hentry] at h ⊢
    exact ⟨h,rfl⟩

/-- Flags on a slot do not change what addresses translate to. -/
theorem toPhysAddr_flaggedSlot (c addr : ℕ) :
    toPhysAddr (flaggedSlot s pd q flags) c addr=toPhysAddr s c addr := by
  have hvirt : ((flaggedSlot s pd q flags).dirs c).pageTablesVirt=(s.dirs c).pageTablesVirt := by
    by_cases hc : c=pd
    · subst hc
      simp [flaggedSlot,Paging.setDir,PageDir.setEntry]
    · simp [flaggedSlot,Paging.setDir,hc]
  simp only [toPhysAddr,hvirt]
  rfl

/-- A new table for a missing slot does not change what mapped addresses
translate to. -/
theorem toPhysAddr_madeTable {first addr : ℕ} (hfresh : FreshPages s pd)
    (hq : slotPresent s pd q=false)
    (haddr : s.curPd≠0 → slotPresent s s.curPd (getPdePte addr).1=true) :
    toPhysAddr (madeTable s pd q flags first) s.curPd addr=toPhysAddr s s.curPd addr := by
  by_cases hcur : s.curPd=0
  · simp only [toPhysAddr,hcur,if_true]
    rfl
  · have hslot := haddr hcur
    have hvirt : ((madeTable s pd q flags first).dirs s.curPd).pageTablesVirt (getPdePte addr).1=
        (s.dirs s.curPd).pageTablesVirt (getPdePte addr).1 := by
      by_cases hc : s.curPd=pd
      · have hne : (getPdePte addr).1≠q := by
          rintro heq
          rw [heq,hc,hq] at hslot
          cases hslot
        rw [hc]
        simp [madeTable,Paging.setDir,PageDir.setEntry,PageDir.setVirt,hne]
      · simp [madeTable,Paging.setDir,Paging.setTable,hc]
    have htable : (madeTable s pd q flags first).tables
        ((s.dirs s.curPd).pageTablesVirt (getPdePte addr).1)=
        s.tables ((s.dirs s.curPd).pageTablesVirt (getPdePte addr).1) :=
      Function.update_of_ne (hfresh.unused 0 _).2 _ _
    simp only [toPhysAddr,if_neg hcur,hvirt,htable]

/-- A page of the heap has a page as its physical address. -/
theorem page_phys (hfresh : FreshPages s pd) : PAGE_SIZE∣toPhysAddr s s.curPd (s.pages 0) ∧
    toPhysAddr s s.curPd (s.pages 0)<2^32 := by
  by_cases hcur : s.curPd=0
  · have hdvd := hfresh.aligned 0
    have hkernel := hfresh.kernel
    simp only [toPhysAddr,hcur,if_true]
    refine ⟨?_,wadd_lt _ _⟩
    split
    · simp only [wsub,PAGE_SIZE] at hdvd hkernel ⊢
      omega
    · simp only [wsub,PAGE_SIZE,VADDR] at hdvd hkernel ⊢
      omega
  · have hpage := @toPhysAddr_page s s.curPd hcur (s.pages 0) 0 (hfresh.aligned 0) (by norm_num)
    rw [Nat.add_zero,Nat.add_zero] at hpage
    rw [hpage]
    split
    · exact ⟨Nat.dvd_zero _,by norm_num⟩
    · exact getTabPureAddr_page _

/-! ## All slots -/

/-- The loop keeps the pointers written so far and the slots it has left behind,
pointers and entries. -/
theorem loop_behind (hflags : flags≠0) (left : ℕ) {n : ℕ} {pts : List ℕ}
    (h : mapAllocNptLoop pd pde flags left n s pts=some r) :
    pts<+:r.pts ∧ ∀ q<pde+n,
      (r.paging.dirs pd).pageTablesVirt q=(s.dirs pd).pageTablesVirt q ∧
      (r.paging.dirs pd).pageTables q=(s.dirs pd).pageTables q := by
  induction left generalizing n s pts with
  | zero =>
    cases h
    exact ⟨List.prefix_refl pts,fun _ _ => ⟨rfl,rfl⟩⟩
  | succ left ih =>
    by_cases hn : pde+n≤PT_SIZE
    · cases hp : slotPresent s pd (pde+n) with
      | true =>
        rw [(loop_present left hn hp).1] at h
        cases h
        refine ⟨List.prefix_append _ _,fun q hq => ?_⟩
        rw [virt_flaggedSlot,entries_flaggedSlot]
        exact ⟨rfl,Function.update_of_ne (Nat.ne_of_lt hq) _ _⟩
      | false =>
        obtain ⟨hwritten,hbehind⟩ := ih (loop_missing hflags hn hp h).1
        refine ⟨(List.prefix_append _ _).trans hwritten,fun q hq => ?_⟩
        obtain ⟨hvirt,hentry⟩ := hbehind q (by omega)
        rw [hvirt,hentry,virt_madeTable,entries_madeTable]
        exact ⟨Function.update_of_ne (Nat.ne_of_lt hq) _ _,
          Function.update_of_ne (Nat.ne_of_lt hq) _ _⟩
    · rw [mapAllocNptLoop] at h
      simp only [if_pos (Nat.lt_of_not_le hn)] at h
      cases h
      exact ⟨List.prefix_refl pts,fun _ _ => ⟨rfl,rfl⟩⟩

/-- Slots are touched from the loop's slot on, at most as many as are left. -/
theorem loop_touched (hflags : flags≠0) (left : ℕ) {n : ℕ} {pts : List ℕ}
    (h : mapAllocNptLoop pd pde flags left n s pts=some r) :
    ∀ q∈touchedLoop pd pde flags left n s pts,q<pde+n+left := by
  induction left generalizing n s pts with
  | zero =>
    intro q hq
    cases hq
  | succ left ih =>
    intro q hq
    by_cases hn : pde+n≤PT_SIZE
    · cases hp : slotPresent s pd (pde+n) with
      | true =>
        rw [(@loop_present s pd pde flags left n pts hn hp).2,List.mem_singleton] at hq
        omega
      | false =>
        obtain ⟨hrest,htouched⟩ := loop_missing hflags hn hp h
        rw [htouched] at hq
        rcases List.mem_cons.mp hq with rfl|hq
        · omega
        · have := ih hrest q hq
          omega
    · rw [touchedLoop] at hq
      simp only [if_pos (Nat.lt_of_not_le hn)] at hq
      cases hq

/-- A request that passes the end of the directory touches the slot behind it,
unless a present table has ended the loop before. -/
theorem loop_overrun (hflags : flags≠0) (left : ℕ) {n : ℕ} {pts : List ℕ}
    (hn : pde+n≤PT_SIZE) (hover : PT_SIZE<pde+n+left)
    (h : mapAllocNptLoop pd pde flags left n s pts=some r) :
    PT_SIZE∈touchedLoop pd pde flags left n s pts ∨ r.ret=0 := by
  induction left generalizing n s pts with
  | zero => omega
  | succ left ih =>
    cases hp : slotPresent s pd (pde+n) with
    | true =>
      rw [(loop_present left hn hp).1] at h
      cases h
      exact Or.inr rfl
    | false =>
      obtain ⟨hrest,htouched⟩ := loop_missing hflags hn hp h
      rw [htouched]
      rcases hn.eq_or_lt with heq|hlt
      · rw [heq]
        exact Or.inl List.mem_cons_self
      · exact (ih (n:=n+1) (by omega) (by omega) hrest).imp_left (List.mem_cons_of_mem _)

/-- A request for slots of the directory succeeds. -/
theorem loop_succeeds (hflags : flags≠0) (left : ℕ) {n : ℕ} {pts : List ℕ}
    (hn : pde+n+left≤PT_SIZE) (h : mapAllocNptLoop pd pde flags left n s pts=some r) :
    r.ret=0 := by
  induction left generalizing n s pts with
  | zero =>
    cases h
    rfl
  | succ left ih =>
    cases hp : slotPresent s pd (pde+n) with
    | true =>
      rw [(loop_present left (by omega) hp).1] at h
      cases h
      rfl
    | false => exact ih (by omega) (loop_missing hflags (by omega) hp h).1

/-- The slot of a new table is present only by the flags asked for. -/
theorem madeSlot_present (hflags : flags≠0) (hfresh : FreshPages s pd) (hpde : pde<PT_SIZE)
    (hnpt : 1≤npt) (hp : slotPresent s pd pde=false)
    (h : mapAllocNptLoop pd pde flags npt 0 s []=some r) :
    slotPresent r.paging pd pde=tabPresent flags := by
  obtain ⟨left,rfl⟩ := Nat.exists_eq_add_of_le' hnpt
  obtain ⟨hrest,-⟩ := @loop_missing s pd pde flags r left 0 [] hflags (Nat.le_of_lt hpde) hp h
  have hkept := ((loop_behind hflags left hrest).2 pde (by omega)).2
  rw [slotPresent,hkept,entries_madeTable,Nat.add_zero,Function.update_self]
  exact tabPresent_page (page_phys hfresh).1 flags

/-- More slots than one missing and one present break the promise. -/
theorem not_tablesMade (hflags : flags≠0) (hfresh : FreshPages s pd)
    (hpde : pde<PT_SIZE) (hnpt : 2≤npt)
    (hmix : ¬(npt=2 ∧ slotPresent s pd pde=false ∧ slotPresent s pd (pde+1)=true))
    (h : mapAllocNptLoop pd pde flags npt 0 s []=some r) :
    ¬TablesMade s pd npt pde flags r := by
  intro hmade
  obtain ⟨left,rfl⟩ := Nat.exists_eq_add_of_le' hnpt
  cases hp : slotPresent s pd pde with
  | true =>
    -- The loop has returned with one pointer written.
    rw [(@loop_present s pd pde flags (left+1) 0 [] (Nat.le_of_lt hpde) hp).1] at h
    cases h
    have hsecond := hmade.written 1 (by omega)
    cases hsecond
  | false =>
    obtain ⟨hrest,-⟩ := @loop_missing s pd pde flags r (left+1) 0 [] hflags
      (Nat.le_of_lt hpde) hp h
    change mapAllocNptLoop pd pde flags (left+1) 1 (madeTable s pd pde flags (s.pages 0))
      [s.pages 0]=some r at hrest
    have hother : slotPresent (madeTable s pd pde flags (s.pages 0)) pd (pde+1)=
        slotPresent s pd (pde+1) := by
      rw [slotPresent,entries_madeTable]
      exact congrArg tabPresent (Function.update_of_ne (by omega) _ _)
    cases hp1 : slotPresent s pd (pde+1) with
    | true =>
      -- Two pointers have been written, and there was a third to write.
      have hleft : left≠0 := fun h0 => hmix ⟨by omega,hp,hp1⟩
      rw [(loop_present left hpde (hother.trans hp1)).1] at hrest
      cases hrest
      have hthird := hmade.written 2 (by omega)
      cases hthird
    | false =>
      -- The second slot has the pointer of the first new table.
      obtain ⟨hrest2,-⟩ := loop_missing hflags hpde (hother.trans hp1) hrest
      obtain ⟨hwritten,hbehind⟩ := loop_behind hflags left hrest2
      have hvirt : (r.paging.dirs pd).pageTablesVirt (pde+1)=s.pages 0 := by
        rw [(hbehind (pde+1) (by omega)).1,virt_madeTable]
        exact Function.update_self ..
      have hsecond : r.pts[1]?=some (s.pages 1) := by
        obtain ⟨rest,hrest⟩ := hwritten
        rw [←hrest]
        rfl
      have hsame := hmade.written 1 (by omega)
      rw [hsecond,hvirt] at hsame
      exact hfresh.apart 1 0 (by norm_num) (Option.some.inj hsame)

/-! ## The requests that are well served -/

/-- Flags on a present slot, with the table it has. -/
theorem flagged_served (hf : flags<PAGE_SIZE) (hvalid : DirectoryValid s pd) (hq : q<PT_SIZE)
    (hp : slotPresent s pd q=true) :
    TablesMade s pd 1 q flags ⟨0,flaggedSlot s pd q flags,[(s.dirs pd).pageTablesVirt q]⟩ := by
  refine ⟨hq,fun i hi => ?_,fun i hi => ?_,fun i hi => ?_,fun i hi _ => ?_,fun i hi hout => ?_⟩
  all_goals obtain rfl : i=0 := by omega
  · rw [slotPresent,entries_flaggedSlot,Nat.add_zero,Function.update_self]
    exact ⟨tabPresent_flagged hp flags,or_and_flags _ _⟩
  · rw [toPhysAddr_flaggedSlot,virt_flaggedSlot,entries_flaggedSlot,Nat.add_zero,
      Function.update_self,getTabPureAddr_flagged _ hf]
    exact hvalid.named q hq hp
  · rw [virt_flaggedSlot]
    rfl
  · rw [virt_flaggedSlot]
    exact ⟨rfl,rfl⟩
  · rw [Nat.add_zero,hp] at hout
    cases hout

/-- A new table for a missing slot. -/
theorem made_served (hflags : tabPresent flags=true) (hf : flags<PAGE_SIZE)
    (hfresh : FreshPages s pd) (hq : q<PT_SIZE) (hp : slotPresent s pd q=false) :
    TablesMade s pd 1 q flags ⟨0,madeTable s pd q flags (s.pages 0),[s.pages 0]⟩ := by
  obtain ⟨hpage,hword⟩ := page_phys hfresh
  refine ⟨hq,fun i hi => ?_,fun i hi => ?_,fun i hi => ?_,fun i hi hin => ?_,fun i hi _ j hj => ?_⟩
  all_goals obtain rfl : i=0 := by omega
  · rw [slotPresent,entries_madeTable,Nat.add_zero,Function.update_self]
    exact ⟨tabPresent_or _ hflags,or_and_flags _ _⟩
  · rw [virt_madeTable,entries_madeTable,Nat.add_zero,Function.update_self,Function.update_self,
      getTabPureAddr_entry hword hpage hf]
    exact toPhysAddr_madeTable hfresh hp (hfresh.mapped 0)
  · rw [virt_madeTable,Nat.add_zero,Function.update_self]
    rfl
  · rw [Nat.add_zero,hp] at hin
    cases hin
  · rw [virt_madeTable,Nat.add_zero,Function.update_self]
    simp [madeTable,Paging.setDir,Paging.setTable,hj]

/-- A missing slot followed by a present one. -/
theorem pair_served (hflags : tabPresent flags=true) (hf : flags<PAGE_SIZE)
    (hvalid : DirectoryValid s pd) (hfresh : FreshPages s pd) (hq : q+2≤PT_SIZE)
    (hp : slotPresent s pd q=false) (hp1 : slotPresent s pd (q+1)=true) :
    TablesMade s pd 2 q flags ⟨0,flaggedSlot (madeTable s pd q flags (s.pages 0)) pd (q+1) flags,
      [s.pages 0,(s.dirs pd).pageTablesVirt (q+1)]⟩ := by
  have hfirst := made_served hflags hf hfresh (by omega) hp
  have hne : q+0≠q+1 := by omega
  have hne' : q+1≠q := by omega
  refine ⟨hq,fun i hi => ?_,fun i hi => ?_,fun i hi => ?_,fun i hi hin => ?_,fun i hi hout => ?_⟩
  all_goals obtain rfl|rfl : i=0 ∨ i=1 := by omega
  · have hslot := hfirst.present 0 (by norm_num)
    rw [slotPresent] at hslot ⊢
    rw [entries_flaggedSlot,Function.update_of_ne hne]
    exact hslot
  · rw [slotPresent,entries_flaggedSlot,Function.update_self]
    exact ⟨tabPresent_or _ hflags,or_and_flags _ _⟩
  · rw [toPhysAddr_flaggedSlot,virt_flaggedSlot,entries_flaggedSlot,
      Function.update_of_ne hne]
    exact hfirst.named 0 (by norm_num)
  · rw [toPhysAddr_flaggedSlot,virt_flaggedSlot,entries_flaggedSlot,Function.update_self,
      getTabPureAddr_flagged _ hf,virt_madeTable,entries_madeTable,Function.update_of_ne hne',
      Function.update_of_ne hne']
    exact (toPhysAddr_madeTable hfresh hp (hvalid.reached (q+1) hq hp1)).trans
      (hvalid.named (q+1) hq hp1)
  · rw [virt_flaggedSlot]
    exact hfirst.written 0 (by norm_num)
  · rw [virt_flaggedSlot,virt_madeTable,Function.update_of_ne hne']
    rfl
  · rw [Nat.add_zero,hp] at hin
    cases hin
  · rw [virt_flaggedSlot,virt_madeTable,Function.update_of_ne hne']
    exact ⟨rfl,Function.update_of_ne (hfresh.unused 0 (q+1)).1 _ _⟩
  · rw [virt_flaggedSlot]
    exact hfirst.zeroed 0 (by norm_num) hp
  · rw [hp1] at hout
    cases hout

/-- Requests for slots that match keep their promise. -/
theorem slotsMatch_made (hflags : flags≠0) (hf : flags<PAGE_SIZE) (hvalid : DirectoryValid s pd)
    (hfresh : FreshPages s pd) (hbound : pde+npt≤PT_SIZE) (hmatch : SlotsMatch s pd npt pde flags)
    (h : mapAllocNptLoop pd pde flags npt 0 s []=some r) : TablesMade s pd npt pde flags r := by
  rcases hmatch with ⟨rfl,hone⟩|⟨rfl,hflag,hp,hp1⟩
  · cases hp : slotPresent s pd pde with
    | true =>
      rw [(@loop_present s pd pde flags 0 0 [] (by omega) hp).1] at h
      cases h
      exact flagged_served hf hvalid hbound hp
    | false =>
      have hflag := hone.resolve_right (by rw [hp]; exact Bool.false_ne_true)
      obtain ⟨hrest,-⟩ := @loop_missing s pd pde flags r 0 0 [] hflags (by omega) hp h
      cases hrest
      exact made_served hflag hf hfresh hbound hp
  · obtain ⟨hrest,-⟩ := @loop_missing s pd pde flags r 1 0 [] hflags (by omega) hp h
    change mapAllocNptLoop pd pde flags 1 1 (madeTable s pd pde flags (s.pages 0))
      [s.pages 0]=some r at hrest
    have hother : slotPresent (madeTable s pd pde flags (s.pages 0)) pd (pde+1)=true := by
      rw [slotPresent,entries_madeTable]
      exact (congrArg tabPresent (Function.update_of_ne (by omega) _ _)).trans hp1
    rw [(loop_present 0 (by omega) hother).1,virt_madeTable] at hrest
    cases hrest
    have hpair := pair_served hflag hf hvalid hfresh hbound hp hp1
    have hvirt : Function.update (s.dirs pd).pageTablesVirt pde (s.pages 0) (pde+1)=
        (s.dirs pd).pageTablesVirt (pde+1) := Function.update_of_ne (by omega) _ _
    rw [hvirt]
    exact hpair

/-- Only requests for slots that match keep their promise. -/
theorem slotsMatch_of_made (hflags : flags≠0) (hfresh : FreshPages s pd) (hnpt : 1≤npt)
    (h : mapAllocNptLoop pd pde flags npt 0 s []=some r)
    (hmade : TablesMade s pd npt pde flags r) : SlotsMatch s pd npt pde flags := by
  have hbound := hmade.bound
  have hpde : pde<PT_SIZE := by omega
  have hflag : slotPresent s pd pde=false → tabPresent flags=true := fun hp =>
    (madeSlot_present hflags hfresh hpde hnpt hp h).symm.trans (hmade.present 0 hnpt).1
  rcases hnpt.eq_or_lt with rfl|htwo
  · refine Or.inl ⟨rfl,?_⟩
    cases hp : slotPresent s pd pde with
    | true => exact Or.inr rfl
    | false => exact Or.inl (hflag hp)
  · by_contra hmix
    refine not_tablesMade hflags hfresh hpde htwo (fun ⟨hnpt,hp,hp1⟩ => ?_) h hmade
    exact hmix (Or.inr ⟨hnpt,hflag hp,hp,hp1⟩)

/-- A request is well served exactly when it is without a directory, past its
end, for one present slot of it, or with the flag of presence for one missing
slot, alone or before a present one. -/
theorem mapAllocNpt_wellServed_iff (hnpt : 1≤npt) (hflags : flags≠0) (hf : flags<PAGE_SIZE)
    (hvalid : DirectoryValid s pd) (hfresh : FreshPages s pd)
    (h : mapAllocNpt s pd npt pde flags=some r) :
    WellServed s pd npt pde flags r ↔ Servable s pd npt pde flags := by
  unfold Servable
  rw [mapAllocNpt] at h
  by_cases hpd : pd=0
  · rw [if_pos hpd] at h
    cases h
    refine iff_of_true ⟨fun hret => absurd hret (Nat.succ_ne_zero _),fun q hq => ?_⟩ (Or.inl hpd)
    rw [touchedSlots,if_pos hpd] at hq
    cases hq
  rw [if_neg hpd] at h
  have htouched : touchedSlots s pd npt pde flags=touchedLoop pd pde flags npt 0 s [] := by
    rw [touchedSlots,if_neg hpd]
  rcases Nat.lt_or_ge PT_SIZE pde with hpast|hpde
  · obtain ⟨left,rfl⟩ := Nat.exists_eq_add_of_le' hnpt
    rw [mapAllocNptLoop] at h
    simp only [Nat.add_zero,if_pos hpast] at h
    cases h
    refine iff_of_true ⟨fun hret => absurd hret (Nat.succ_ne_zero _),fun q hq => ?_⟩
      (Or.inr (Or.inl hpast))
    rw [htouched,touchedLoop] at hq
    simp only [Nat.add_zero,if_pos hpast] at hq
    cases hq
  rw [or_iff_right hpd,or_iff_right (Nat.not_lt_of_le hpde)]
  constructor
  · intro hserved
    have hbound : pde+npt≤PT_SIZE := by
      by_contra hover
      rcases loop_overrun hflags npt hpde (Nat.lt_of_not_le hover) h with hmem|hret
      · exact absurd (hserved.inside PT_SIZE (htouched▸hmem)) (Nat.lt_irrefl _)
      · exact hover (hserved.success hret).bound
    exact ⟨hbound,slotsMatch_of_made hflags hfresh hnpt h
      (hserved.success (loop_succeeds hflags npt hbound h))⟩
  · rintro ⟨hbound,hmatch⟩
    refine ⟨fun _ => slotsMatch_made hflags hf hvalid hfresh hbound hmatch h,fun q hq => ?_⟩
    rw [htouched] at hq
    have := loop_touched hflags npt h q hq
    omega

/-- A directory in the last quarter of memory: the pages of slot 768 are the
tables of all slots, and the heap's pages lie behind them. -/
def mappedDirectory : Paging where
  dirs := fun _ => ⟨fun q => PAGE_SIZE*(q+1) ||| 3,
    fun q => if q<PT_SIZE then VADDR+PAGE_SIZE*q else 0⟩
  tables := fun _ j => PAGE_SIZE*(j+1) ||| 3
  curPd := 1
  virtKernelAddr := 0
  pages := fun i => VADDR+PAGE_SIZE*(PT_SIZE+i)

/-- All slots of that directory are present. -/
theorem mappedDirectory_present (pd q : ℕ) : slotPresent mappedDirectory pd q=true :=
  tabPresent_or _ (by decide)

/-- The entries of that directory name their tables. -/
theorem mappedDirectory_valid : DirectoryValid mappedDirectory 1 := by
  refine ⟨fun q hq _ => ?_,fun q _ _ _ => mappedDirectory_present _ _⟩
  have hvirt : ((mappedDirectory.dirs 1).pageTablesVirt q)=VADDR+PAGE_SIZE*q := if_pos hq
  have hdvd : PAGE_SIZE∣VADDR+PAGE_SIZE*q := Dvd.dvd.add (by decide) (Nat.dvd_mul_right _ _)
  have hslot : getPdePte (VADDR+PAGE_SIZE*q)=(768,q) := by
    rw [getPdePte_eq]
    simp only [VADDR,PAGE_SIZE,PT_SIZE] at hq ⊢
    exact Prod.ext (by simp only; omega) (by simp only; omega)
  have hpage := @toPhysAddr_page mappedDirectory 1 (by decide) (VADDR+PAGE_SIZE*q) 0 hdvd
    (by decide)
  have hnonnull : (mappedDirectory.dirs 1).pageTablesVirt 768≠0 := by decide
  rw [hslot,if_neg hnonnull,Nat.add_zero,Nat.add_zero] at hpage
  have hentry : mappedDirectory.tables ((mappedDirectory.dirs 1).pageTablesVirt 768) q=
      (mappedDirectory.dirs 1).pageTables q := rfl
  rw [hvirt,←hentry]
  exact hpage

/-- The heap's pages are fresh there. -/
theorem mappedDirectory_fresh : FreshPages mappedDirectory 1 := by
  have hunused : ∀ i q,(mappedDirectory.dirs 1).pageTablesVirt q≠mappedDirectory.pages i := by
    intro i q
    simp only [mappedDirectory,VADDR,PAGE_SIZE,PT_SIZE]
    split <;> omega
  refine ⟨fun i j hij heq => hij ?_,fun i q => ⟨hunused i q,hunused i q⟩,
    fun i _ => mappedDirectory_present _ _,fun i => ?_,Nat.dvd_zero _⟩
  · simp only [mappedDirectory,VADDR,PAGE_SIZE,PT_SIZE] at heq
    omega
  · have hpage : mappedDirectory.pages i=VADDR+PAGE_SIZE*(PT_SIZE+i) := rfl
    rw [hpage]
    exact Dvd.dvd.add (by decide) (Nat.dvd_mul_right _ _)

/-- One present slot. -/
theorem mapAllocNpt_wellServed_iff_present : ∃ r,mapAllocNpt mappedDirectory 1 1 0 3=some r ∧
    (WellServed mappedDirectory 1 1 0 3 r ↔ Servable mappedDirectory 1 1 0 3) := by
  have hrun := @mapAllocNpt_present mappedDirectory 1 0 3 0 (by decide) (by decide)
    (mappedDirectory_present 1 0)
  exact ⟨_,hrun,mapAllocNpt_wellServed_iff (by decide) (by decide) (by decide)
    mappedDirectory_valid mappedDirectory_fresh hrun⟩

/-- A request for two present slots returns after the first one. -/
theorem second_slot_unserved : ¬∀ (s : Paging) (pd npt pde flags : ℕ) (r : NptResult),1≤npt →
    flags≠0 → flags<PAGE_SIZE → DirectoryValid s pd → FreshPages s pd →
    mapAllocNpt s pd npt pde flags=some r → WellServed s pd npt pde flags r := by
  intro h
  have hrun := @mapAllocNpt_present mappedDirectory 1 0 3 1 (by decide) (by decide)
    (mappedDirectory_present 1 0)
  have hserved := h mappedDirectory 1 2 0 3 _ (by decide) (by decide) (by decide)
    mappedDirectory_valid mappedDirectory_fresh hrun
  have hsecond := (hserved.success rfl).written 1 (by decide)
  cases hsecond

end XanaduOS.TableAllocation
