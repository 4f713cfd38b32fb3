import XanaduOS.BuddyReturns
import XanaduOS.FrameGroups
import XanaduOS.FrameReserve
import XanaduOS.MemoryMapping

/-!
# Unmapping what was mapped

Unmapping gives the block back, makes its pages not present, and releases
frames. The frames released are those numbered like the virtual pages, not the
ones that the pages were mapped to. So the bitmap is restored exactly where no
frame with such a number was in use and every frame taken has such a number.
-/

namespace XanaduOS.Unmapping

open Word32 BitWords KernelDefs BuddyFrameAlloc BuddyBlocks BuddyReturns FrameAlloc FrameGroups
open FrameReserve PageTables MemoryMapping

/-- The page of an address is not present. -/
def PageAbsent (s : Paging) (pd virtAddr : ℕ) : Prop :=
  tabPresent (s.tables (pageEntry s pd virtAddr).1 (pageEntry s pd virtAddr).2)=false

/-- The state after mapping and unmapping, compared to the one before. -/
structure Undone (s : MapState) (pd n virtAddr : ℕ) (u : MapState) : Prop where
  /-- The same frames are in use. -/
  frames_eq : ∀ k,bitAt u.frames.frames k=bitAt s.frames.frames k
  /-- The pages are not present. -/
  absent : ∀ i<n,PageAbsent u.paging pd (wadd virtAddr (i*PAGE_SIZE))
  /-- Other entries are kept, and those of a new table are zero. -/
  others : ∀ pt j,j<PT_SIZE →
    (∀ i<n,(pt,j)≠pageEntry u.paging pd (wadd virtAddr (i*PAGE_SIZE))) →
      u.paging.tables pt j=s.paging.tables pt j ∨
        (NewEntry s.paging pd virtAddr pt j ∧ u.paging.tables pt j=0)

/-- The number of one of the pages of a virtual range. -/
def VirtualFrame (virtAddr n k : ℕ) : Prop :=
  ∃ i<n,k=wadd virtAddr (wmul PAGE_SIZE i)/PAGE_SIZE

/-- The frames of a mapping have a property: those of the rounds that start at the
given range, or those of the groups that the bitmap has for the request. -/
def FramesHave (s : FrameAllocator) (phys n : ℕ) (P : ℕ → Prop) : Prop :=
  if phys≠0 then ∀ i<n,P (walkFrame (phys/PAGE_SIZE) i) else GroupsHave s n P

/-- Counters count the lists. -/
def ListsCounted (buddy : BuddyAlloc) : Prop :=
  ∀ order<MAX_ORDER,(buddy.freeArea order).numFree=(buddy.freeArea order).freeList.length

/-- When mapping and unmapping a block restores the state before. -/
structure Undoable (s : MapState) (pd phys n virtAddr : ℕ) : Prop where
  /-- The allocator can take the block back that it hands out. -/
  returnable : Returnable s.buddy n virtAddr
  /-- The tables of all pages exist, or the first one will be made. -/
  reachable : ∀ i<n,
    (s.paging.dirs pd).pageTablesVirt (getPdePte (wadd virtAddr (i*PAGE_SIZE))).1≠0 ∨
      ((getPdePte (wadd virtAddr (i*PAGE_SIZE))).1=(getPdePte virtAddr).1 ∧
        tabPresent ((s.paging.dirs pd).pageTables (getPdePte virtAddr).1)=false)
  /-- No frame numbered like one of the pages is in use. -/
  unused : ∀ k,VirtualFrame virtAddr n k → bitAt s.frames.frames k=false
  /-- Every frame of the mapping is in use or numbered like one of the pages. -/
  covered : FramesHave s.frames phys n fun k =>
    bitAt s.frames.frames k=true ∨ VirtualFrame virtAddr n k

/-! ## Frames taken and released -/

/-- A search writes at most as many entries as were asked for. -/
theorem findLoop_length {n flags words i mapped : ℕ} {frames : FrameWords} {addrs : List ℕ}
    {r : FindResult} (hm : mapped≤n) (haddrs : addrs.length=mapped)
    (h : findLoop n flags words i mapped frames addrs=some r) : r.addrs.length≤n := by
  induction words generalizing i mapped frames addrs with
  | zero =>
    cases h
    exact haddrs▸hm
  | succ words ih =>
    simp only [findLoop] at h
    split at h
    · exact ih hm haddrs h
    · split at h
      · cases h
      · exact ih hm haddrs h
      · rename_i frames' new hnew
        have hlen : new.length=min (n-mapped) 8 := by
          simp only [findFrameInMap] at hnew
          split at hnew
          · cases hnew
          · cases hnew
          · cases hnew
            rw [setNallocAddrs,List.length_map,List.length_range]
        have hsum : (addrs++new).length=mapped+min (n-mapped) 8 := by
          rw [List.length_append,haddrs,hlen]
        split at h
        · cases h
          rw [hsum]
          omega
        · exact ih (by omega) hsum h

variable {s : MapState} {pd phys n flags start virtAddr pt : ℕ} {r : MmapResult} {mid : Paging}
  {f : FindResult}

/-- A search through a pointer that is not null sets the bits of the frames of the
mapping, and writes at most one entry for each page. -/
theorem takeFrames_spec {frames : FrameAllocator} {at_ : ℕ×ℕ} (h0 : 0<n) (hat : at_.1≠0)
    (h : takeFrames frames phys n flags at_=some f) : f.addrs.length≤n ∧
      ∃ taken : ℕ → Prop,(∀ k,bitAt f.frames k=true ↔ bitAt frames.frames k=true ∨ taken k) ∧
        ∀ P : ℕ → Prop,(∀ k,taken k → P k) ↔ FramesHave frames phys n P := by
  have hptr : at_.1+4*at_.2≠0 := by omega
  unfold takeFrames at h
  simp only [FramesHave]
  split at h
  · rename_i hphys
    cases h
    refine ⟨by rw [allocNframes,if_neg hptr]; simp,fun k => ∃ i<n,k=walkFrame (phys/PAGE_SIZE) i,
      fun k => bitAt_allocNframes frames.frames n phys flags hptr k,fun P => ?_⟩
    rw [if_pos hphys]
    constructor
    · exact fun hall i hi => hall _ ⟨i,hi,rfl⟩
    · rintro hall k ⟨i,hi,rfl⟩
      exact hall i hi
  · rename_i hphys
    rw [findAllocNframes,if_neg hptr] at h
    refine ⟨findLoop_length (Nat.zero_le n) rfl h,fun k => k∈framesPicked frames n,
      (findLoop_groups h0 h).2,fun P => ?_⟩
    rw [if_neg hphys]
    exact framesPicked_forall

/-- Releasing the frames numbered like the pages undoes what was taken exactly
when none of them was in use and they are all that was taken. -/
theorem deallocNframes_restores {before after : FrameWords} {taken : ℕ → Prop}
    (h : ∀ k,bitAt after k=true ↔ bitAt before k=true ∨ taken k) :
    (∀ k,bitAt (deallocNframes after virtAddr n) k=bitAt before k) ↔
      (∀ k,VirtualFrame virtAddr n k → bitAt before k=false) ∧
      ∀ k,taken k → bitAt before k=true ∨ VirtualFrame virtAddr n k := by
  have hbit : ∀ k,bitAt (deallocNframes after virtAddr n) k=true ↔
      (bitAt before k=true ∨ taken k) ∧ ¬VirtualFrame virtAddr n k := by
    intro k
    rw [bitAt_deallocNframes,Bool.and_eq_true,decide_eq_true_iff,h]
    simp only [VirtualFrame,not_exists,not_and]
  constructor
  · intro heq
    refine ⟨fun k hk => ?_,fun k hk => ?_⟩
    · rw [←heq k,←Bool.not_eq_true,hbit]
      exact fun hset => hset.2 hk
    · by_cases hv : VirtualFrame virtAddr n k
      · exact Or.inr hv
      · rw [←heq k]
        exact Or.inl ((hbit k).mpr ⟨Or.inr hk,hv⟩)
  · rintro ⟨hunused,hcovered⟩ k
    rw [Bool.eq_iff_iff,hbit]
    constructor
    · rintro ⟨hset|htaken,hv⟩
      · exact hset
      · exact (hcovered k htaken).resolve_right hv
    · intro hset
      refine ⟨Or.inl hset,fun hv => ?_⟩
      rw [hunused k hv] at hset
      cases hset

/-! ## Pages mapped and unmapped -/

/-- The pages of a serving block end below the top of the address space. -/
theorem serving_span (hplaced : BlocksPlaced start s.buddy) (h1 : n≤PT_SIZE)
    (hb : servingBlock s.buddy n=some virtAddr) : virtAddr+n*PAGE_SIZE≤2^32 := by
  obtain ⟨order,hlo,_,_,_,hend⟩ := hplaced.serving hb
  have hn : n≤2^order := (getBuddyOrder_isLeast h1).1.trans (Nat.pow_le_pow_right (by norm_num) hlo)
  have hsize : n*PAGE_SIZE≤blockSize order := by
    rw [Nat.mul_comm]
    exact Nat.mul_le_mul_left _ hn
  omega

/-- The slot of a page of a block. -/
theorem slot_eq (hd : PAGE_SIZE∣virtAddr) (hspan : virtAddr+n*PAGE_SIZE≤2^32) {i : ℕ}
    (hi : i<n) : getPdePte (wadd virtAddr (i*PAGE_SIZE))=
      ((getPdePte virtAddr).1+((getPdePte virtAddr).2+i)/PT_SIZE,
        ((getPdePte virtAddr).2+i)%PT_SIZE) ∧
      (getPdePte virtAddr).1+((getPdePte virtAddr).2+i)/PT_SIZE<PT_SIZE := by
  have hlt : virtAddr+i*PAGE_SIZE<2^32 := by
    simp only [PAGE_SIZE] at hspan ⊢
    omega
  have hslot := getPdePte_add hd i (by norm_num : 0<PAGE_SIZE)
  rw [Nat.add_zero] at hslot
  rw [wadd_eq hlt]
  refine ⟨hslot,?_⟩
  have hpde := congrArg Prod.fst hslot
  rw [getPdePte_eq (virtAddr+i*PAGE_SIZE)] at hpde
  simp only [PT_SIZE] at hpde ⊢
  omega

/-- After a mapping the tables of all pages can be walked exactly when they
existed before, or the first one was made. -/
theorem mapping_walkable_iff (m : Mapping s pd phys n flags r virtAddr pt mid f)
    (hd : PAGE_SIZE∣virtAddr) (hspan : virtAddr+n*PAGE_SIZE≤2^32) :
    Walkable r.state.paging pd (getPdePte virtAddr).1 (getPdePte virtAddr).2 0 n ↔
      ∀ i<n,(s.paging.dirs pd).pageTablesVirt (getPdePte (wadd virtAddr (i*PAGE_SIZE))).1≠0 ∨
        ((getPdePte (wadd virtAddr (i*PAGE_SIZE))).1=(getPdePte virtAddr).1 ∧
          tabPresent ((s.paging.dirs pd).pageTables (getPdePte virtAddr).1)=false) := by
  have hpage : ∀ i<n,(getPdePte virtAddr).1+((getPdePte virtAddr).2+i)/PT_SIZE<PT_SIZE :=
    fun i hi => (slot_eq hd hspan hi).2
  have hone : ∀ i<n,(Function.update (s.paging.dirs pd).pageTablesVirt (getPdePte virtAddr).1 pt
      (getPdePte (wadd virtAddr (i*PAGE_SIZE))).1≠0 ↔
      (s.paging.dirs pd).pageTablesVirt (getPdePte (wadd virtAddr (i*PAGE_SIZE))).1≠0 ∨
        ((getPdePte (wadd virtAddr (i*PAGE_SIZE))).1=(getPdePte virtAddr).1 ∧
          tabPresent ((s.paging.dirs pd).pageTables (getPdePte virtAddr).1)=false)) := by
    intro i _
    by_cases heq : (getPdePte (wadd virtAddr (i*PAGE_SIZE))).1=(getPdePte virtAddr).1
    · rw [heq,Function.update_self]
      obtain ⟨hpresent,hpt,_⟩|⟨habsent,_,hpt,_⟩ := m.installed.source
      · simp [hpresent,hpt]
      · simp [habsent,hpt]
    · rw [Function.update_of_ne heq]
      simp [heq]
  rw [Walkable,m.reached]
  constructor
  · intro h i hi
    rw [←hone i hi,(slot_eq hd hspan hi).1]
    exact h i (Nat.zero_le i) hi (hpage i hi)
  · intro h i _ hi _
    have hi' := (hone i hi).mpr (h i hi)
    rwa [(slot_eq hd hspan hi).1] at hi'

/-- Unmapping the pages of a mapping makes them not present and keeps the
entries that mapping kept. -/
theorem mapping_unmapped (m : Mapping s pd phys n flags r virtAddr pt mid f)
    (hd : PAGE_SIZE∣virtAddr) (hspan : virtAddr+n*PAGE_SIZE≤2^32) (hlen : f.addrs.length≤n)
    {u : Paging} (hu : Unmapped r.state.paging pd (getPdePte virtAddr).1 (getPdePte virtAddr).2
      0 n u) :
    (∀ i<n,PageAbsent u pd (wadd virtAddr (i*PAGE_SIZE))) ∧
      ∀ p j,j<PT_SIZE → (∀ i<n,(p,j)≠pageEntry u pd (wadd virtAddr (i*PAGE_SIZE))) →
        u.tables p j=s.paging.tables p j ∨
          (NewEntry s.paging pd virtAddr p j ∧ u.tables p j=0) := by
  have hreach : ∀ i<n,∀ p j,Reached r.state.paging pd (getPdePte virtAddr).1
      (getPdePte virtAddr).2 i p j ↔ (p,j)=pageEntry u pd (wadd virtAddr (i*PAGE_SIZE)) := by
    intro i hi p j
    obtain ⟨hslot,hlt⟩ := slot_eq hd hspan hi
    rw [pageEntry,hslot,hu.dirs_eq,Reached,Prod.mk.injEq]
    exact and_iff_right hlt
  constructor
  · intro i hi
    have hdrop := hu.dropped _ _ i (Nat.zero_le i) hi ((hreach i hi _ _).mpr rfl)
    exact (congrArg tabPresent hdrop).trans (tabPresent_unmapped _)
  · intro p j hj hother
    have hkept := hu.kept p j fun i _ hi hr => hother i hi ((hreach i hi p j).mp hr)
    rw [hkept]
    refine m.kept fun hwritten => ?_
    obtain ⟨hp,hlo,hhi⟩ := hwritten
    refine hother (j-(getPdePte virtAddr).2) (by omega) ?_
    have hi : j-(getPdePte virtAddr).2<n := by omega
    have hindex : (getPdePte virtAddr).2+(j-(getPdePte virtAddr).2)=j := Nat.add_sub_cancel' hlo
    rw [pageEntry,(slot_eq hd hspan hi).1,hu.dirs_eq,m.reached,hindex,Nat.div_eq_of_lt hj,
      Nat.mod_eq_of_lt hj,Nat.add_zero,Function.update_self,hp]

/-- A mapping followed by unmapping restores the state before exactly when the
block, the tables and the frame numbers allow it. -/
theorem knmunmapContiguous_undoes_iff (hstart : PAGE_SIZE∣start)
    (hplaced : BlocksPlaced start s.buddy) (hcounted : ListsCounted s.buddy) (h0 : 0<n)
    (h1 : n≤PT_SIZE)
    (h : knmmap s pd phys n flags=some r) (hret : r.ret=0) :
    (∃ virtAddr u,r.addrs=[virtAddr] ∧ knmunmapContiguous r.state pd virtAddr n=some u ∧
      Undone s pd n virtAddr u) ↔
    ∃ virtAddr,servingBlock s.buddy n=some virtAddr ∧ Undoable s pd phys n virtAddr := by
  obtain ⟨virtAddr,pt,mid,f,m⟩ := knmmap_mapping h0 h1 h hret
  obtain ⟨hd,hlt⟩ := hplaced.aligned hstart m.served
  have hspan := serving_span hplaced h1 m.served
  have hpte := getPdePte_lt virtAddr
  have hwalk := mapping_walkable_iff m hd hspan
  have hpages := @unmapPages_spec r.state.paging pd (getPdePte virtAddr).1 _ hpte n
  have hreturn := buddyFreeFrames_handed_iff hcounted
    (fun order ho block hblock => (hplaced order ho block hblock).2.2) h0 h1 m.taken rfl
  have hframes : pt≠0 → ((∀ k,bitAt (deallocNframes r.state.frames.frames virtAddr n) k=
      bitAt s.frames.frames k) ↔ (∀ k,VirtualFrame virtAddr n k → bitAt s.frames.frames k=false) ∧
        FramesHave s.frames phys n fun k =>
          bitAt s.frames.frames k=true ∨ VirtualFrame virtAddr n k) := by
    intro hpt
    obtain ⟨-,taken,hbits,hall⟩ := takeFrames_spec h0 hpt m.found
    rw [m.frames_eq,deallocNframes_restores hbits,hall]
  have hpt : Walkable r.state.paging pd (getPdePte virtAddr).1 (getPdePte virtAddr).2 0 n →
      pt≠0 := by
    intro hw
    have hfirst := hw 0 (Nat.zero_le 0) h0
    have hsame : (getPdePte virtAddr).1+((getPdePte virtAddr).2+0)/PT_SIZE=
        (getPdePte virtAddr).1 := by
      rw [Nat.add_zero,Nat.div_eq_of_lt hpte,Nat.add_zero]
    rw [hsame,m.reached,Function.update_self] at hfirst
    exact hfirst (by
      have hin := (slot_eq hd hspan h0).2
      rwa [hsame] at hin)
  constructor
  · rintro ⟨va,u,hva,hu,hundone⟩
    obtain rfl : virtAddr=va := by simpa [m.addrs_eq] using hva
    simp only [knmunmapContiguous] at hu
    split at hu
    · cases hu
    rename_i buddy hbuddy
    split at hu
    · cases hu
    rename_i paging hpaging
    cases hu
    have hw := (hpages.2 _ hpaging).1
    obtain ⟨hunused,hcovered⟩ := (hframes (hpt hw)).mp hundone.frames_eq
    exact ⟨virtAddr,m.served,hreturn.mp ⟨buddy,hbuddy⟩,hwalk.mp hw,hunused,hcovered⟩
  · rintro ⟨va,hva,hundoable⟩
    obtain rfl : virtAddr=va := by simpa [m.served] using hva
    have hw := hwalk.mpr hundoable.reachable
    obtain ⟨paging,hpaging⟩ := hpages.1 hw
    obtain ⟨buddy,hbuddy⟩ := hreturn.mpr hundoable.returnable
    have hlen := (takeFrames_spec h0 (hpt hw) m.found).1
    obtain ⟨habsent,hothers⟩ := mapping_unmapped m hd hspan hlen (hpages.2 _ hpaging).2
    have hu : knmunmapContiguous r.state pd virtAddr n=some ⟨paging,buddy,
        {r.state.frames with frames := deallocNframes r.state.frames.frames virtAddr n}⟩ := by
      simp only [knmunmapContiguous,hbuddy,hpaging]
    exact ⟨virtAddr,_,m.addrs_eq,hu,
      (hframes (hpt hw)).mpr ⟨hundoable.unused,hundoable.covered⟩,habsent,hothers⟩

/-- The one free block of that allocator is counted. -/
theorem listsCounted_emptyState (start : ℕ) : ListsCounted (emptyState start).buddy := by
  intro order _
  by_cases ho : order=MAX_ORDER-1
  · subst ho
    simp [emptyState]
  · simp only [emptyState,Function.update_of_ne ho,List.length_nil]

/-- One page mapped to the frame with its own number is undone. -/
theorem knmunmapContiguous_undoes_iff_page : ∃ r,
    knmmap (emptyState 0x400000) 0xC0200000 0x400000 1 3=some r ∧ r.ret=0 ∧
      ((∃ virtAddr u,r.addrs=[virtAddr] ∧
        knmunmapContiguous r.state 0xC0200000 virtAddr 1=some u ∧
          Undone (emptyState 0x400000) 0xC0200000 1 virtAddr u) ↔
        ∃ virtAddr,servingBlock (emptyState 0x400000).buddy 1=some virtAddr ∧
          Undoable (emptyState 0x400000) 0xC0200000 0x400000 1 virtAddr) :=
  ⟨_,rfl,rfl,@knmunmapContiguous_undoes_iff _ _ _ _ 3 0x400000 _ (by norm_num)
    (blocksPlaced_emptyState (by norm_num)) (listsCounted_emptyState _) (by norm_num)
    (by norm_num) rfl rfl⟩

/-- One page mapped to any frame by the kernel's allocator: frame 0 is taken and
frame 0xD0000 released. -/
theorem undone_counterexample : ¬∀ (start : ℕ) (s : MapState) (pd phys n flags : ℕ)
    (r : MmapResult),start=0xD0000000 ∨ start=0x100000 → BlocksPlaced start s.buddy →
    BlocksApart s.buddy → ListsCounted s.buddy → 0<n → n≤PT_SIZE →
    knmmap s pd phys n flags=some r → r.ret=0 →
    (∀ virtAddr,r.addrs=[virtAddr] →
      ∀ i<n,PageAbsent s.paging pd (wadd virtAddr (i*PAGE_SIZE))) →
    ∃ virtAddr u,r.addrs=[virtAddr] ∧ knmunmapContiguous r.state pd virtAddr n=some u ∧
      Undone s pd n virtAddr u := by
  intro h
  have hrun : ∃ r,knmmap (emptyState 0xD0000000) 0xC0200000 0 1 3=some r ∧ r.ret=0 ∧
      r.addrs=[0xD0000000] ∧ bitAt r.state.frames.frames 0=true := ⟨_,rfl,rfl,rfl,by decide⟩
  obtain ⟨r,hr,hret,haddrs,hbit⟩ := hrun
  obtain ⟨va,u,hva,hu,hundone⟩ := h 0xD0000000 _ _ _ _ _ r (Or.inl rfl)
    (blocksPlaced_emptyState (by norm_num)) (blocksApart_emptyState _)
    (listsCounted_emptyState _) (by norm_num) (by norm_num) hr hret
    (fun _ _ _ _ => by simp [PageAbsent,emptyState,tabPresent])
  obtain rfl : 0xD0000000=va := by simpa [haddrs] using hva
  have hframes := hundone.frames_eq 0
  simp only [knmunmapContiguous] at hu
  split at hu
  · cases hu
  split at hu
  · cases hu
  cases hu
  simp only [bitAt_deallocNframes,hbit] at hframes
  exact absurd hframes (by decide)

end XanaduOS.Unmapping
