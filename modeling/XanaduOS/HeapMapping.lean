import XanaduOS.FrameSearch
import XanaduOS.PageFaults

/-!
# Mapping pages for the heap

A range is mapped table by table, but each table's search for frames asks for
the frames of the whole range and writes them from the table's first entry on.
So a range of more pages than a table has entries is written past the ends of
its tables. Within one table the frames are fresh where the groups that the
bitmap has for the request are free as a whole.
-/

namespace XanaduOS.HeapMapping

open Word32 BitWords KernelDefs FrameAlloc FrameGroups FrameSearch PageTables MemoryMapping
open TableAllocation PageFaults

/-- Outcome of a mapping. -/
structure MapPagesResult where
  /-- Zero on success. -/
  ret : ℕ
  /-- The state afterwards. -/
  state : FaultState
  /-- Table pointers and indices of the entries written, in order. -/
  writes : List (ℕ×ℕ)

/-- The loop over the tables `pde+i, pde+i+1, ..`. -/
def mapPagesLoop (pde pte npages : ℕ) : ℕ → ℕ → FaultState → List (ℕ×ℕ) → Option MapPagesResult
  | 0,_,s,writes => some ⟨0,s,writes⟩
  | left+1,i,s,writes =>
    if PT_SIZE≤pde+i then some ⟨ENOMEM,s,writes⟩
    else
      match mapAllocNpt s.paging s.paging.curPd 1 (pde+i) (R_W ||| PRESENT) with
      | none => none
      | some m =>
        if m.ret≠0 then some ⟨m.ret,{s with paging := m.paging},writes⟩
        else
          let pt := m.pts.headD 0
          match findAllocNframes s.frames npages (pt+4*pte) (R_W ||| PRESENT) with
          | none => none
          | some f =>
            match storeEntries m.paging (pt,pte) f.addrs with
            | none => none
            | some paging =>
              let s := ⟨paging,{s.frames with frames := f.frames}⟩
              let writes := writes++(List.range f.addrs.length).map fun k => (pt,pte+k)
              if f.ret≠0 then some ⟨f.ret,s,writes⟩
              else mapPagesLoop pde pte npages left (i+1) s writes

/-- Map pages from a slot's first page on. -/
def mapPages (s : FaultState) (pde pte npages : ℕ) : Option MapPagesResult :=
  if pte≠0 then some ⟨EINVAL,s,[]⟩
  else mapPagesLoop pde pte npages (divUp npages PT_SIZE) 0 s []

/-- Map pages from an address on. -/
def mmapPages (s : FaultState) (addr npages : ℕ) : Option MapPagesResult :=
  let (pde,pte) := getPdePte addr
  mapPages s pde pte npages

/-- Table pointer and index of the entry of an address in the current directory. -/
def entryAt (s : Paging) (addr : ℕ) : ℕ×ℕ :=
  ((s.dirs s.curPd).pageTablesVirt (getPdePte addr).1,(getPdePte addr).2)

/-- The pages of a range, and no others, have fresh frames. -/
structure RangeMapped (s : FaultState) (addr npages : ℕ) (r : MapPagesResult) : Prop where
  /-- Each page is present and writable and has a frame of its own that was
  free; these are the frames that are taken. -/
  pages : ∃ taken : List ℕ,taken.length=npages ∧ taken.Nodup ∧
    (∀ k∈taken,k<32*s.frames.framesNum ∧ bitAt s.frames.frames k=false) ∧
    (∀ k,bitAt r.state.frames.frames k=true ↔ bitAt s.frames.frames k=true ∨ k∈taken) ∧
    ∀ i<npages,
      PageFaults.translate r.state.paging (getPdePte (addr+i*PAGE_SIZE)).1
          (getPdePte (addr+i*PAGE_SIZE)).2=
        some (PAGE_SIZE*taken.getD i 0 ||| (R_W ||| PRESENT)) ∧
      (r.state.paging.dirs r.state.paging.curPd).pageTables (getPdePte (addr+i*PAGE_SIZE)).1&&&
        (R_W ||| PRESENT)=R_W ||| PRESENT
  /-- No entry is written past the end of a table. -/
  inside : ∀ entry∈r.writes,entry.2<PT_SIZE
  /-- Other entries are kept, and those of a new table are zero. -/
  others : ∀ pt j,j<PT_SIZE →
    (∀ i<npages,(pt,j)≠entryAt r.state.paging (addr+i*PAGE_SIZE)) →
      r.state.paging.tables pt j=s.paging.tables pt j ∨
        (slotPresent s.paging s.paging.curPd (getPdePte addr).1=false ∧ pt=s.paging.pages 0 ∧
          r.state.paging.tables pt j=0)

/-- The range fits one table, and the groups that the bitmap has for it lie free
within the bitmap. -/
def Mappable (s : FaultState) (npages : ℕ) : Prop :=
  npages≤PT_SIZE ∧ GroupsHave s.frames npages fun k =>
    k<32*s.frames.framesNum ∧ bitAt s.frames.frames k=false

instance (s : FaultState) (npages : ℕ) : Decidable (Mappable s npages) :=
  inferInstanceAs (Decidable (_ ∧ _))

variable {s : FaultState} {addr npages pde pte : ℕ} {r : MapPagesResult}

/-! ## Entries of a search -/

/-- The entries of a group are those of its frames. -/
theorem setNallocAddrs_eq {n i j flags : ℕ} (hi : i+1<2^15) (hj : j<32) (hn : n≤8) :
    setNallocAddrs n i j flags=(Group.frameIds ⟨i,j,n⟩).map fun k => PAGE_SIZE*k ||| flags := by
  rw [setNallocAddrs,Group.frameIds,List.map_map]
  apply List.map_congr_left
  intro t ht
  have htn : t<n := List.mem_range.mp ht
  rw [Function.comp_apply,frameMapToAddr_eq hi (by omega),Group.first,Nat.add_assoc]

/-- A successful search writes the entries of the frames that it picks and
sets their bits; there are as many as were asked for. -/
theorem findAllocNframes_picked {a : FrameAllocator} {n p flags : ℕ} {f : FindResult} (hn : 0<n)
    (hp : p≠0) (h : findAllocNframes a n p flags=some f) (hret : f.ret=0) :
    f.addrs=(framesPicked a n).map (fun k => PAGE_SIZE*k ||| flags) ∧
      (framesPicked a n).length=n ∧
      ∀ k,bitAt f.frames k=true ↔ bitAt a.frames k=true ∨ k∈framesPicked a n := by
  rw [findAllocNframes,if_neg hp] at h
  obtain ⟨haddrs,hbits⟩ := findLoop_groups hn h
  have hlen : (framesPicked a n).length=n := by
    rcases findLoop_ret hn h with ⟨-,hlen⟩|⟨hfail,-⟩
    · rwa [Nat.zero_add] at hlen
    · rw [hret] at hfail
      cases hfail
  refine ⟨?_,hlen,hbits⟩
  rw [haddrs,List.nil_append,framesPicked,List.map_flatMap]
  apply List.flatMap_congr
  intro g hg
  obtain ⟨_,hlt,hj,_,h8,_⟩ := groupsPicked_mem hn hg
  have hw := a.framesNum_lt
  exact setNallocAddrs_eq (by omega) hj h8

/-! ## One table -/

/-- What one step of the loop over tables has done. -/
structure TableFilled (pde pte npages i : ℕ) (s : FaultState) (pt : ℕ) (m : NptResult)
    (f : FindResult) (paging : Paging) : Prop where
  /-- The table is one of the directory. -/
  slot : pde+i<PT_SIZE
  /-- The table was made present. -/
  made : mapAllocNpt s.paging s.paging.curPd 1 (pde+i) (R_W ||| PRESENT)=some m
  /-- So the request succeeded. -/
  made_ret : m.ret=0
  /-- Its pointer was handed out. -/
  pts_eq : m.pts=[pt]
  /-- Frames were searched. -/
  found : findAllocNframes s.frames npages (pt+4*pte) (R_W ||| PRESENT)=some f
  /-- So the search succeeded. -/
  found_ret : f.ret=0
  /-- The entries were written. -/
  stored : storeEntries m.paging (pt,pte) f.addrs=some paging

/-- A step of a loop that succeeds. -/
theorem mapPagesLoop_step {left i : ℕ} {writes : List (ℕ×ℕ)}
    (h : mapPagesLoop pde pte npages (left+1) i s writes=some r) (hret : r.ret=0) :
    ∃ pt m f paging,TableFilled pde pte npages i s pt m f paging ∧
      mapPagesLoop pde pte npages left (i+1) ⟨paging,{s.frames with frames := f.frames}⟩
        (writes++(List.range f.addrs.length).map fun k => (pt,pte+k))=some r := by
  rw [mapPagesLoop] at h
  by_cases hslot : PT_SIZE≤pde+i
  · rw [if_pos hslot] at h
    cases h
    cases hret
  rw [if_neg hslot] at h
  cases hm : mapAllocNpt s.paging s.paging.curPd 1 (pde+i) (R_W ||| PRESENT) with
  | none => simp only [hm] at h; cases h
  | some m =>
    simp only [hm] at h
    by_cases hmret : m.ret=0
    · obtain ⟨-,pt,hpts,-⟩ := mapAllocNpt_one hm hmret
      rw [if_neg (not_not_intro hmret),hpts] at h
      simp only [List.headD_cons] at h
      cases hf : findAllocNframes s.frames npages (pt+4*pte) (R_W ||| PRESENT) with
      | none => simp only [hf] at h; cases h
      | some f =>
        simp only [hf] at h
        cases hstore : storeEntries m.paging (pt,pte) f.addrs with
        | none => simp only [hstore] at h; cases h
        | some paging =>
          simp only [hstore] at h
          by_cases hfret : f.ret=0
          · rw [if_neg (not_not_intro hfret)] at h
            exact ⟨pt,m,f,paging,⟨Nat.lt_of_not_le hslot,hm,hmret,hpts,hf,hfret,hstore⟩,h⟩
          · rw [if_pos hfret] at h
            cases h
            exact absurd hret hfret
    · rw [if_pos hmret] at h
      cases h
      exact absurd hret hmret

/-- Entries written stay written. -/
theorem mapPagesLoop_writes (left : ℕ) {i : ℕ} {writes : List (ℕ×ℕ)}
    (h : mapPagesLoop pde pte npages left i s writes=some r) (hret : r.ret=0) :
    writes<+:r.writes := by
  induction left generalizing i s writes with
  | zero =>
    cases h
    exact List.prefix_refl writes
  | succ left ih =>
    obtain ⟨pt,m,f,paging,-,hrest⟩ := mapPagesLoop_step h hret
    exact (List.prefix_append _ _).trans (ih hrest)

/-- The entry of a slot after a request for its table. -/
theorem mapAllocNpt_one_entry {p : Paging} {pd flags q : ℕ} {m : NptResult}
    (hflags : tabPresent flags=true) (hq : q<PT_SIZE) (h : mapAllocNpt p pd 1 q flags=some m)
    (hret : m.ret=0) : slotPresent m.paging pd q=true ∧
      (m.paging.dirs pd).pageTables q&&&flags=flags ∧
      (slotPresent p pd q=true → m.pts=[(p.dirs pd).pageTablesVirt q]) := by
  rw [mapAllocNpt] at h
  by_cases hpd : pd=0
  · rw [if_pos hpd] at h
    cases h
    cases hret
  rw [if_neg hpd] at h
  cases hp : slotPresent p pd q with
  | true =>
    rw [(@loop_present p pd q flags 0 0 [] (Nat.le_of_lt hq) hp).1] at h
    cases h
    rw [slotPresent,entries_flaggedSlot,Nat.add_zero,Function.update_self]
    exact ⟨tabPresent_or _ hflags,or_and_flags _ _,fun _ => rfl⟩
  | false =>
    obtain ⟨hrest,-⟩ := @loop_missing p pd q flags m 0 0 []
      (ne_zero_of_tabPresent hflags) (Nat.le_of_lt hq) hp h
    cases hrest
    rw [slotPresent,entries_madeTable,Nat.add_zero,Function.update_self]
    exact ⟨tabPresent_or _ hflags,or_and_flags _ _,fun hin => by cases hin⟩

/-! ## Ranges -/

/-- The pointer of the table that a step fills is not null. -/
theorem TableFilled.pointer {i pt : ℕ} {m : NptResult} {f : FindResult} {paging : Paging}
    (hfill : TableFilled pde pte npages i s pt m f paging)
    (hpointer : slotPresent s.paging s.paging.curPd (pde+i)=true →
      (s.paging.dirs s.paging.curPd).pageTablesVirt (pde+i)≠0) : pt≠0 := by
  obtain ⟨-,pt',hpts,hinst⟩ := mapAllocNpt_one hfill.made hfill.made_ret
  rw [hfill.pts_eq] at hpts
  obtain rfl : pt=pt' := List.singleton_inj.mp hpts
  obtain ⟨hp,hpt,-⟩|⟨-,-,hpt,-⟩ := hinst.source
  · rw [hpt]
    exact hpointer hp
  · exact hpt

/-- A range of more pages than a table has entries is written past its end. -/
theorem overrun {left : ℕ} (hn : PT_SIZE<npages)
    (hpointer : slotPresent s.paging s.paging.curPd pde=true →
      (s.paging.dirs s.paging.curPd).pageTablesVirt pde≠0)
    (h : mapPagesLoop pde 0 npages (left+1) 0 s []=some r) (hret : r.ret=0) :
    ∃ entry∈r.writes,entry.2=PT_SIZE := by
  obtain ⟨pt,m,f,paging,hfill,hrest⟩ := mapPagesLoop_step h hret
  have hpt := hfill.pointer hpointer
  obtain ⟨haddrs,hlen,-⟩ := findAllocNframes_picked (by omega) (by omega) hfill.found
    hfill.found_ret
  refine ⟨(pt,PT_SIZE),(mapPagesLoop_writes left hrest hret).subset ?_,rfl⟩
  rw [List.nil_append,haddrs,List.length_map,hlen]
  exact List.mem_map.mpr ⟨PT_SIZE,List.mem_range.mpr hn,by rw [Nat.zero_add]⟩

/-- The frames that a range takes are free frames of the bitmap exactly when
those that the search picks are. -/
theorem picked_free {a : FrameAllocator} {after : FrameWords} {taken : List ℕ}
    (hnodup : taken.Nodup) (hlen : taken.length=(framesPicked a npages).length)
    (hn : 0<npages) (hfree : ∀ k∈taken,k<32*a.framesNum ∧ bitAt a.frames k=false)
    (htaken : ∀ k,bitAt after k=true ↔ bitAt a.frames k=true ∨ k∈taken)
    (hpicked : ∀ k,bitAt after k=true ↔ bitAt a.frames k=true ∨ k∈framesPicked a npages) :
    ∀ k∈framesPicked a npages,k<32*a.framesNum ∧ bitAt a.frames k=false := by
  have hnodup' : (framesPicked a npages).Nodup :=
    (groupsPicked_increasing hn).1.imp fun hlt => hlt.ne
  refine (card_newlySet_iff hnodup' hpicked).mp ?_
  rw [←hlen]
  exact (card_newlySet_iff hnodup htaken).mpr hfree

/-- Slots of the pages of an aligned range within one table. -/
theorem slot_within (hd : 2^22∣addr) {i : ℕ} (hi : i<PT_SIZE) :
    getPdePte (addr+i*PAGE_SIZE)=((getPdePte addr).1,i) ∧ (getPdePte addr).2=0 := by
  have hpage : PAGE_SIZE∣addr := Nat.dvd_trans (by decide) hd
  have hzero : (getPdePte addr).2=0 := by
    obtain ⟨q,rfl⟩ := hd
    rw [getPdePte_eq]
    simp only [PAGE_SIZE,PT_SIZE]
    omega
  have hwithin := @getPdePte_within addr i 0 hpage (by rw [hzero,Nat.zero_add]; exact hi)
    (by decide)
  rw [Nat.add_zero,hzero,Nat.zero_add] at hwithin
  exact ⟨hwithin,hzero⟩

/-- A range within one table, filled by one step. -/
theorem filled_mapped {pt : ℕ} {m : NptResult} {f : FindResult} {paging : Paging}
    (hd : 2^22∣addr) (hn : 0<npages)
    (hfill : TableFilled (getPdePte addr).1 0 npages 0 s pt m f paging) (hpt : pt≠0)
    (hmappable : Mappable s npages) :
    RangeMapped s addr npages ⟨0,⟨paging,{s.frames with frames := f.frames}⟩,
      (List.range f.addrs.length).map fun k => (pt,0+k)⟩ := by
  obtain ⟨hfits,hgroups⟩ := hmappable
  have hfree := framesPicked_forall.mpr hgroups
  obtain ⟨haddrs,hlen,hbits⟩ := findAllocNframes_picked hn (by omega) hfill.found hfill.found_ret
  obtain ⟨-,pt',hpts,hinst⟩ := mapAllocNpt_one hfill.made hfill.made_ret
  rw [hfill.pts_eq] at hpts
  obtain rfl : pt=pt' := List.singleton_inj.mp hpts
  obtain ⟨hslot,hflags,-⟩ := mapAllocNpt_one_entry (by decide) hfill.slot hfill.made hfill.made_ret
  obtain ⟨hdirs,-,htables⟩ := storeEntries_spec hfill.stored
  have hcur : paging.curPd=s.paging.curPd :=
    (storeEntries_curPd hfill.stored).trans hinst.curPd_eq
  have hvirt : (paging.dirs paging.curPd).pageTablesVirt (getPdePte addr).1=pt := by
    rw [hdirs,hcur,hinst.virt,Nat.add_zero,Function.update_self]
  have hcount : f.addrs.length=npages := by rw [haddrs,List.length_map,hlen]
  refine ⟨⟨framesPicked s.frames npages,hlen,?_,hfree,hbits,fun i hi => ?_⟩,fun entry he => ?_,
    fun p j hj hout => ?_⟩
  · exact (groupsPicked_increasing hn).1.imp fun hlt => hlt.ne
  · obtain ⟨hpage,-⟩ := slot_within hd (Nat.lt_of_lt_of_le hi hfits)
    have hentry : paging.tables pt i=
        PAGE_SIZE*(framesPicked s.frames npages).getD i 0 ||| (R_W ||| PRESENT) := by
      rw [htables,if_pos ⟨rfl,Nat.zero_le i,by rw [hcount]; omega⟩,haddrs,Nat.sub_zero]
      have hin : i<(framesPicked s.frames npages).length := by rw [hlen]; exact hi
      rw [List.getD_eq_getElem _ _ (by rw [List.length_map]; exact hin),List.getElem_map,
        List.getD_eq_getElem _ _ hin]
    rw [hpage]
    refine ⟨?_,?_⟩
    · have hpresent : slotPresent paging paging.curPd (getPdePte addr).1=true := by
        rw [slotPresent,hdirs,hcur]
        exact hslot
      have hon : tabPresent (PAGE_SIZE*(framesPicked s.frames npages).getD i 0 |||
          (R_W ||| PRESENT))=true := tabPresent_or _ (by decide)
      simp only [PageFaults.translate,hpresent,hvirt,hentry,hon,Bool.and_self,if_true]
    · simp only [hdirs,hcur]
      exact hflags
  · obtain ⟨k,hk,rfl⟩ := List.mem_map.mp he
    rw [List.mem_range,hcount] at hk
    simp only
    omega
  · have hnot : ¬(p=pt ∧ 0≤j ∧ j<0+f.addrs.length) := by
      rintro ⟨rfl,-,hlt⟩
      rw [Nat.zero_add,hcount] at hlt
      refine hout j hlt ?_
      rw [entryAt,(slot_within hd hj).1]
      simp only [hvirt]
    have hkept := htables p j
    rw [if_neg hnot] at hkept
    simp only [hkept]
    obtain ⟨_,_,hsame⟩|⟨habsent,hnew,_,hsame⟩ := hinst.source
    · exact Or.inl (by rw [hsame])
    · rw [hsame]
      by_cases hp : p=pt
      · subst hp
        rw [Function.update_self,if_pos hj]
        exact Or.inr ⟨habsent,hnew,rfl⟩
      · exact Or.inl (by rw [Function.update_of_ne hp])

/-- A bitmap in which frame 9 is in use. -/
def heldFrame : FaultState := ⟨faultState.paging,⟨fun _ => 0x200#32,1,oneWord_lt⟩⟩

end XanaduOS.HeapMapping
