import XanaduOS.InitialRamdisk
import XanaduOS.MemoryMapping

/-!
# Mapping a file of the initial ramdisk

A file is mapped from the page of its record on, and its contents start one
record behind the record. The number of pages is computed from the file's size
alone. So the mapping covers the file exactly where record and contents end
within as many pages as the contents alone would fill, unless the page behind
the block happens to be mapped to the right frame already.
-/

namespace XanaduOS.FileMapping

open Word32 KernelDefs BuddyFrameAlloc BuddyBlocks PageTables MemoryMapping InitialRamdisk

/-- `page_align_down`. -/
def pageAlignDown (num : ℕ) : ℕ := wsub num (num%PAGE_SIZE)

/-- Entries of consecutive pages. -/
def setAddrs (base size flags : ℕ) : List ℕ :=
  (List.range size).map fun i => wadd base (wmul i PAGE_SIZE) ||| flags

/-- Entries of a file's pages, and the distance of its contents from the first. -/
def initrdMmap (s : Paging) (rd : Initrd) (node : FsNode) (size flags : ℕ) : List ℕ×ℕ :=
  let rdNode := rd.nodes node.inode
  let startPaddr := pageAlignDown (toPhysAddr s s.curPd rdNode.header)
  (setAddrs startPaddr size flags,wsub rdNode.data (pageAlignDown rdNode.header))

/-- Outcome of mapping a file. -/
structure FsmmapResult where
  /-- Zero on success. -/
  ret : ℕ
  /-- The state afterwards. -/
  state : MapState
  /-- What was written through `virt_addr`. -/
  addrs : List ℕ
  /-- What was written through `off`. -/
  off : ℕ

/-- Map a file of the ramdisk through the current directory. -/
def kfsmmap (s : MapState) (rd : Initrd) (node : FsNode) (flags : ℕ) : Option FsmmapResult :=
  let npages := divUp node.size PAGE_SIZE
  match knmmapTable s s.paging.curPd npages flags with
  | none => none
  | some r =>
    if r.ret≠0 then some ⟨r.ret,r.state,r.addrs,0⟩
    else
      let (entries,off) := initrdMmap r.state.paging rd node npages flags
      match storeEntries r.state.paging r.pt entries with
      | none => none
      | some paging => some ⟨0,{r.state with paging := paging},r.addrs,off⟩

/-! ## What a mapping of a file covers -/

/-- A record and the contents behind it, mapped page by page to consecutive
physical pages. -/
structure RecordMapped (s : Paging) (header size phys : ℕ) : Prop where
  /-- Their tables are present. -/
  present : ∀ x<HEADER_SIZE+size,
    tabPresent ((s.dirs s.curPd).pageTables (getPdePte (header+x)).1)=true ∧
      (s.dirs s.curPd).pageTablesVirt (getPdePte (header+x)).1≠0
  /-- Their bytes have consecutive physical addresses. -/
  consecutive : ∀ x<HEADER_SIZE+size,toPhysAddr s s.curPd (header+x)=phys+x
  /-- They end below the top of the address space. -/
  virt_le : header+HEADER_SIZE+size≤2^32
  /-- So do their physical addresses. -/
  phys_le : phys+HEADER_SIZE+size≤2^32

/-- Every directory entry has a table of its own, and the heap's next page is
none of them. -/
structure OwnTables (s : Paging) (pd : ℕ) : Prop where
  /-- No table is shared. -/
  apart : ∀ p<PT_SIZE,∀ q<PT_SIZE,p≠q → (s.dirs pd).pageTablesVirt q≠0 →
    (s.dirs pd).pageTablesVirt q≠(s.dirs pd).pageTablesVirt p
  /-- New pages are not in use. -/
  fresh : ∀ p<PT_SIZE,(s.dirs pd).pageTablesVirt p≠s.pages 0

/-- Every byte of a file has, through its mapping, the physical address that it
had before. -/
def FileMapped (s : MapState) (data size virtAddr : ℕ) (r : FsmmapResult) : Prop :=
  ∀ k<size,toPhysAddr r.state.paging r.state.paging.curPd (wadd virtAddr (wadd r.off k))=
    toPhysAddr s.paging s.paging.curPd (data+k)

/-- Distance of the contents from the page of their record. -/
def contentsOffset (header : ℕ) : ℕ := header%PAGE_SIZE+HEADER_SIZE

/-- Physical page of a record. -/
def physPage (s : Paging) (header : ℕ) : ℕ :=
  toPhysAddr s s.curPd header/PAGE_SIZE*PAGE_SIZE

/-- The page behind the block is mapped to the page behind the frames, and not
through a table that is still to be made. -/
def BehindMapped (s : Paging) (header npages virtAddr : ℕ) : Prop :=
  ((getPdePte (wadd virtAddr (npages*PAGE_SIZE))).1=(getPdePte virtAddr).1 →
    tabPresent ((s.dirs s.curPd).pageTables (getPdePte virtAddr).1)=true) ∧
  toPhysAddr s s.curPd (wadd virtAddr (npages*PAGE_SIZE))=physPage s header+npages*PAGE_SIZE

/-- When a mapping covers a file. -/
structure Covers (s : Paging) (header size flags virtAddr : ℕ) : Prop where
  /-- The flags do not disturb the address of a page that holds contents. -/
  undisturbed : ∀ k<size,(contentsOffset header+k)/PAGE_SIZE<divUp size PAGE_SIZE →
    getTabPureAddr ((physPage s header+(contentsOffset header+k)/PAGE_SIZE*PAGE_SIZE) ||| flags)=
      physPage s header+(contentsOffset header+k)/PAGE_SIZE*PAGE_SIZE
  /-- The file ends within the block, or what is behind is mapped already. -/
  ends : contentsOffset header+size≤divUp size PAGE_SIZE*PAGE_SIZE ∨
    BehindMapped s header (divUp size PAGE_SIZE) virtAddr

variable {s : MapState} {rd : Initrd} {node : FsNode} {pd flags start header phys virtAddr pt : ℕ}
  {r : FsmmapResult} {q : TableResult} {size npages : ℕ}

/-- A successful mapping of a file went through its stages: the block and its
table, the physical address of the record, and the entries. -/
theorem kfsmmap_stages (h0 : 0<divUp node.size PAGE_SIZE)
    (h1 : divUp node.size PAGE_SIZE≤PT_SIZE) (h : kfsmmap s rd node flags=some r)
    (hret : r.ret=0) : ∃ q virtAddr pt,
      Taking s s.paging.curPd (divUp node.size PAGE_SIZE) q virtAddr pt ∧ r.addrs=[virtAddr] ∧
        r.off=wsub (rd.nodes node.inode).data (pageAlignDown (rd.nodes node.inode).header) ∧
        storeEntries q.state.paging (pt,(getPdePte virtAddr).2)
          (setAddrs (pageAlignDown (toPhysAddr q.state.paging q.state.paging.curPd
            (rd.nodes node.inode).header)) (divUp node.size PAGE_SIZE) flags)=
          some r.state.paging := by
  simp only [kfsmmap] at h
  split at h
  · cases h
  rename_i q hq
  split at h
  · rename_i hne
    cases h
    exact absurd hret hne
  rename_i hqret
  obtain ⟨virtAddr,pt,k⟩ := knmmapTable_taking h0 h1 hq (not_not.mp hqret)
  simp only [initrdMmap] at h
  split at h
  · cases h
  rename_i paging hpaging
  rw [k.pt_eq] at hpaging
  cases h
  exact ⟨q,virtAddr,pt,k,k.addrs_eq,rfl,hpaging⟩

/-- The physical address of a record lies at the record's place in its page. -/
theorem RecordMapped.offset (h : RecordMapped s.paging header size phys)
    (hpd : s.paging.curPd≠0) : phys%PAGE_SIZE=header%PAGE_SIZE := by
  have hpos : 0<HEADER_SIZE+size := by simp only [HEADER_SIZE]; omega
  have hfirst := h.consecutive 0 hpos
  have htable := (h.present 0 hpos).2
  rw [Nat.add_zero] at hfirst htable
  rw [toPhysAddr_eq hpd htable] at hfirst
  obtain ⟨hd,_⟩ := getTabPureAddr_page (s.paging.tables
    ((s.paging.dirs s.paging.curPd).pageTablesVirt (getPdePte header).1) (getPdePte header).2)
  obtain ⟨page,hpage⟩ := hd
  rw [hpage] at hfirst
  simp only [wadd,PAGE_SIZE] at hfirst ⊢
  omega

/-- A record is still mapped when the table of a block has been made present. -/
theorem RecordMapped.after (h : RecordMapped s.paging header size phys)
    (hown : OwnTables s.paging s.paging.curPd)
    (k : Taking s s.paging.curPd npages q virtAddr pt) :
    toPhysAddr q.state.paging q.state.paging.curPd header=phys := by
  have hpos : 0<HEADER_SIZE+size := by simp only [HEADER_SIZE]; omega
  have hfirst := h.consecutive 0 hpos
  obtain ⟨hpresent,htable⟩ := h.present 0 hpos
  rw [Nat.add_zero] at hfirst hpresent htable
  have hpde : (getPdePte header).1<PT_SIZE := by
    have hle := h.virt_le
    simp only [HEADER_SIZE] at hle
    exact getPdePte_dir_lt (by omega)
  obtain ⟨hvirt,htables⟩ := k.installed.keeps (fun heq => heq▸hpresent) (hown.fresh _ hpde)
  rw [toPhysAddr_eq k.directory htable] at hfirst
  rw [k.installed.curPd_eq,toPhysAddr_eq k.directory (by rwa [hvirt]),hvirt,htables]
  exact hfirst

/-- Where the contents of a file start in their block. -/
theorem contentsOffset_eq (h : header+HEADER_SIZE≤2^32) :
    wsub (wadd header HEADER_SIZE) (pageAlignDown header)=contentsOffset header := by
  have hlt : header<2^32 := by
    simp only [HEADER_SIZE] at h
    omega
  have hdown : pageAlignDown header=header-header%PAGE_SIZE :=
    wsub_eq (Nat.mod_le _ _) hlt
  rw [hdown]
  simp only [wsub,wadd,contentsOffset,PAGE_SIZE,HEADER_SIZE] at h ⊢
  omega

/-- A page of the block translates through the entry written for it. -/
theorem toPhysAddr_within {mid t : Paging} {base i off : ℕ}
    (hinstalled : Installed s.paging pd (getPdePte virtAddr).1 pt mid) (hpd : pd≠0)
    (hstored : storeEntries mid (pt,(getPdePte virtAddr).2) (setAddrs base npages flags)=some t)
    (hd : PAGE_SIZE∣virtAddr) (hlt : virtAddr<2^32)
    (hfits : (getPdePte virtAddr).2+npages≤PT_SIZE) (hi : i<npages) (ho : off<PAGE_SIZE) :
    toPhysAddr t pd (wadd virtAddr (i*PAGE_SIZE+off))=
      getTabPureAddr (wadd base (wmul i PAGE_SIZE) ||| flags)+off := by
  obtain ⟨hdirs,hnonnull,htables⟩ := storeEntries_spec hstored
  have hlen : (setAddrs base npages flags).length=npages := by
    rw [setAddrs,List.length_map,List.length_range]
  have hpt : pt≠0 := hnonnull (List.ne_nil_of_length_pos (by omega))
  have hspan := span_le hd hlt hfits
  have hadd : wadd virtAddr (i*PAGE_SIZE+off)=virtAddr+i*PAGE_SIZE+off := by
    rw [Nat.add_assoc]
    exact wadd_eq (by simp only [PAGE_SIZE] at hspan ho ⊢; omega)
  have hpage : PAGE_SIZE∣virtAddr+i*PAGE_SIZE := Nat.dvd_add hd (Nat.dvd_mul_left _ _)
  have hslot := getPdePte_within (i:=i) hd (by omega) (by norm_num : 0<PAGE_SIZE)
  rw [Nat.add_zero] at hslot
  have hget : (setAddrs base npages flags).getD i 0=wadd base (wmul i PAGE_SIZE) ||| flags := by
    rw [List.getD_eq_getElem _ _ (by rwa [hlen])]
    simp [setAddrs]
  rw [hadd,toPhysAddr_page hpd hpage ho,hslot,hdirs,hinstalled.virt,Function.update_self,
    if_neg hpt,htables,if_pos ⟨rfl,Nat.le_add_right _ _,by simp only [hlen]; omega⟩,
    Nat.add_sub_cancel_left,hget]

/-- The page behind the block translates as before, or through a zero entry of
a new table. -/
theorem toPhysAddr_behind {mid t : Paging} {base page off : ℕ}
    (hinstalled : Installed s.paging pd (getPdePte virtAddr).1 pt mid) (hpd : pd≠0)
    (hown : OwnTables s.paging pd)
    (hstored : storeEntries mid (pt,(getPdePte virtAddr).2) (setAddrs base npages flags)=some t)
    (hd : PAGE_SIZE∣virtAddr) (hlt : virtAddr<2^32)
    (hfits : (getPdePte virtAddr).2+npages≤PT_SIZE)
    (hpage : page=wadd virtAddr (npages*PAGE_SIZE)) (ho : off<PAGE_SIZE) :
    toPhysAddr t pd (page+off)=
      if (getPdePte page).1=(getPdePte virtAddr).1 ∧
        tabPresent ((s.paging.dirs pd).pageTables (getPdePte virtAddr).1)=false then off
      else if (s.paging.dirs pd).pageTablesVirt (getPdePte page).1=0 then 0
      else toPhysAddr s.paging pd page+off := by
  obtain ⟨hdirs,_,htables⟩ := storeEntries_spec hstored
  have hlen : (setAddrs base npages flags).length=npages := by
    rw [setAddrs,List.length_map,List.length_range]
  have hword : PAGE_SIZE∣2^32 := by norm_num
  have haligned : PAGE_SIZE∣page := by
    rw [hpage]
    exact (Nat.dvd_mod_iff hword).mpr (Nat.dvd_add hd (Nat.dvd_mul_left _ _))
  have hpagelt : page<2^32 := hpage▸wadd_lt _ _
  have hbefore := toPhysAddr_page (s:=s.paging) hpd haligned (by norm_num : 0<PAGE_SIZE)
  rw [Nat.add_zero,Nat.add_zero] at hbefore
  rw [toPhysAddr_page hpd haligned ho,hdirs,hinstalled.virt]
  by_cases hsame : (getPdePte page).1=(getPdePte virtAddr).1
  · -- The page lies right behind the entries written.
    have hindex : (getPdePte virtAddr).2+npages≤(getPdePte page).2 ∧ (getPdePte page).2<PT_SIZE := by
      obtain ⟨p,rfl⟩ := hd
      rw [getPdePte_eq,getPdePte_eq] at hsame
      rw [hpage] at hsame ⊢
      rw [getPdePte_eq] at hfits ⊢
      rw [getPdePte_eq]
      simp only [wadd,PAGE_SIZE,PT_SIZE] at hsame hfits hlt ⊢
      omega
    have hcell : t.tables pt (getPdePte page).2=mid.tables pt (getPdePte page).2 := by
      rw [htables,if_neg]
      rintro ⟨_,_,hhi⟩
      simp only [hlen] at hhi
      omega
    rw [hsame,Function.update_self,hcell]
    obtain ⟨hpresent,hpt,hmid⟩|⟨habsent,_,hpt,hmid⟩ := hinstalled.source
    · rw [hbefore,hsame,hpresent,hpt,hmid]
      split <;> simp [*]
    · rw [if_neg hpt,hmid,Function.update_self,if_pos hindex.2,if_pos ⟨rfl,habsent⟩]
      simp [getTabPureAddr]
  · have hold : ¬((getPdePte page).1=(getPdePte virtAddr).1 ∧
        tabPresent ((s.paging.dirs pd).pageTables (getPdePte virtAddr).1)=false) :=
      fun h => hsame h.1
    rw [Function.update_of_ne hsame,if_neg hold]
    by_cases hnull : (s.paging.dirs pd).pageTablesVirt (getPdePte page).1=0
    · rw [if_pos hnull,if_pos hnull]
    · have hother : (s.paging.dirs pd).pageTablesVirt (getPdePte page).1≠pt := by
        obtain ⟨_,hpt,_⟩|⟨_,hpt,_⟩ := hinstalled.source
        · rw [hpt]
          exact hown.apart _ (getPdePte_dir_lt hlt) _ (getPdePte_dir_lt hpagelt) (Ne.symm hsame) hnull
        · rw [hpt]
          exact hown.fresh _ (getPdePte_dir_lt hpagelt)
      obtain ⟨_,hkept⟩ := hinstalled.keeps (fun heq => absurd heq hsame)
        (hown.fresh _ (getPdePte_dir_lt hpagelt))
      rw [if_neg hnull,if_neg hnull,htables,if_neg fun h => hother h.1,hkept,hbefore,if_neg hnull]

/-- The page behind the block has the right frame exactly when it had it before. -/
theorem behind_iff {t : Paging} {page off : ℕ} (hpd : s.paging.curPd≠0) (h0 : 0<npages)
    (haligned : PAGE_SIZE∣page) (hpage : page=wadd virtAddr (npages*PAGE_SIZE))
    (ht : toPhysAddr t s.paging.curPd (page+off)=
      if (getPdePte page).1=(getPdePte virtAddr).1 ∧
        tabPresent ((s.paging.dirs s.paging.curPd).pageTables (getPdePte virtAddr).1)=false then off
      else if (s.paging.dirs s.paging.curPd).pageTablesVirt (getPdePte page).1=0 then 0
      else toPhysAddr s.paging s.paging.curPd page+off) :
    toPhysAddr t s.paging.curPd (page+off)=physPage s.paging header+npages*PAGE_SIZE+off ↔
      BehindMapped s.paging header npages virtAddr := by
  have hpos : 0<npages*PAGE_SIZE := Nat.mul_pos h0 (by norm_num)
  rw [ht,BehindMapped,←hpage]
  split
  · rename_i hnew
    refine ⟨fun h => by omega,fun h => ?_⟩
    rw [h.1 hnew.1] at hnew
    cases hnew.2
  · rename_i hold
    have hpresent : (getPdePte page).1=(getPdePte virtAddr).1 →
        tabPresent ((s.paging.dirs s.paging.curPd).pageTables (getPdePte virtAddr).1)=true :=
      fun heq => by
        by_contra hne
        exact hold ⟨heq,Bool.not_eq_true _ ▸ hne⟩
    split
    · rename_i hnull
      have hbefore := toPhysAddr_page (s:=s.paging) hpd haligned (by norm_num : 0<PAGE_SIZE)
      rw [Nat.add_zero,if_pos hnull] at hbefore
      rw [hbefore]
      exact ⟨fun h => by omega,fun h => by omega⟩
    · exact ⟨fun h => ⟨hpresent,Nat.add_right_cancel h⟩,fun h => by rw [h.2]⟩

/-- Whole pages behind a page boundary end at one. -/
theorem dvd_wadd_pages {va : ℕ} (hd : PAGE_SIZE∣va) (n : ℕ) : PAGE_SIZE∣wadd va (n*PAGE_SIZE) :=
  (Nat.dvd_mod_iff (by norm_num : PAGE_SIZE∣2^32)).mpr (Nat.dvd_add hd (Nat.dvd_mul_left _ _))

/-- An offset within a page behind whole pages does not wrap. -/
theorem wadd_page_add {va n o : ℕ} (hd : PAGE_SIZE∣va) (ho : o<PAGE_SIZE) :
    wadd va (n*PAGE_SIZE+o)=wadd va (n*PAGE_SIZE)+o := by
  obtain ⟨p,hp⟩ := dvd_wadd_pages hd n
  have hplt := wadd_lt va (n*PAGE_SIZE)
  rw [wadd,←Nat.add_assoc,←Nat.mod_add_mod]
  change wadd (wadd va (n*PAGE_SIZE)) o=_
  rw [hp] at hplt ⊢
  exact wadd_eq (by simp only [PAGE_SIZE] at hplt ho ⊢; omega)

/-- A file is covered when each of its bytes is: those in pages of the block
through the entry of the page, the others behind the block. -/
theorem covers_iff_bytes (hsize : 0<size) : Covers s.paging header size flags virtAddr ↔
    ∀ j<size,
      if (contentsOffset header+j)/PAGE_SIZE<divUp size PAGE_SIZE then
        getTabPureAddr ((physPage s.paging header+(contentsOffset header+j)/PAGE_SIZE*PAGE_SIZE)
          ||| flags)=physPage s.paging header+(contentsOffset header+j)/PAGE_SIZE*PAGE_SIZE
      else BehindMapped s.paging header (divUp size PAGE_SIZE) virtAddr := by
  constructor
  · intro hcovers j hj
    split
    · rename_i hin
      exact hcovers.undisturbed j hj hin
    · rename_i hout
      rw [Nat.not_lt,Nat.le_div_iff_mul_le (by norm_num)] at hout
      exact hcovers.ends.resolve_left (by omega)
  · intro hall
    refine ⟨fun j hj hin => ?_,?_⟩
    · have hone := hall j hj
      rwa [if_pos hin] at hone
    · by_cases hend : contentsOffset header+size≤divUp size PAGE_SIZE*PAGE_SIZE
      · exact Or.inl hend
      · have hlast := hall (size-1) (by omega)
        rw [if_neg (by
          rw [Nat.not_lt,Nat.le_div_iff_mul_le (by norm_num)]
          omega)] at hlast
        exact Or.inr hlast

/-- A successful mapping of a file whose block lies within one table covers the
file exactly when the flags leave the pages' addresses alone and the file ends
within the block, or what is behind the block is mapped already. -/
theorem kfsmmap_fileMapped_iff (hstart : PAGE_SIZE∣start) (hplaced : BlocksPlaced start s.buddy)
    (hserved : servingBlock s.buddy (divUp node.size PAGE_SIZE)=some virtAddr)
    (hfits : (getPdePte virtAddr).2+divUp node.size PAGE_SIZE≤PT_SIZE) (hsize : 0<node.size)
    (haligned : HEADER_SIZE∣header) (hheader : (rd.nodes node.inode).header=header)
    (hdata : (rd.nodes node.inode).data=wadd header HEADER_SIZE)
    (hmapped : RecordMapped s.paging header node.size phys)
    (hown : OwnTables s.paging s.paging.curPd) (h : kfsmmap s rd node flags=some r)
    (hret : r.ret=0) :
    (r.addrs=[virtAddr] ∧ FileMapped s (rd.nodes node.inode).data node.size virtAddr r) ↔
      Covers s.paging header node.size flags virtAddr := by
  have hcover : node.size≤divUp node.size PAGE_SIZE*PAGE_SIZE ∧
      0<divUp node.size PAGE_SIZE := by
    unfold divUp
    simp only [PAGE_SIZE]
    split <;> omega
  obtain ⟨hwhole,h0⟩ := hcover
  obtain ⟨q,va,pt,k,haddrs,hoff,hstored⟩ := kfsmmap_stages h0 (by omega) h hret
  obtain rfl : virtAddr=va := by simpa [hserved] using k.served
  obtain ⟨hd,hlt⟩ := hplaced.aligned hstart hserved
  have hplace := hmapped.offset k.directory
  have hvirt := hmapped.virt_le
  have hphys := hmapped.phys_le
  have hfirst := hmapped.consecutive 0 (by simp only [HEADER_SIZE]; omega)
  rw [Nat.add_zero,Nat.add_zero] at hfirst
  have hbase : pageAlignDown phys=physPage s.paging header := by
    rw [pageAlignDown,physPage,hfirst,
      wsub_eq (Nat.mod_le _ _) (by simp only [HEADER_SIZE] at hphys; omega)]
    simp only [PAGE_SIZE]
    omega
  have hdata' : wadd header HEADER_SIZE=header+HEADER_SIZE := wadd_eq (by omega)
  rw [hheader,hdata,contentsOffset_eq (by omega)] at hoff
  rw [hheader,hmapped.after hown k,hbase] at hstored
  have hcur : r.state.paging.curPd=s.paging.curPd :=
    (storeEntries_curPd hstored).trans k.installed.curPd_eq
  have hlow : contentsOffset header≤PAGE_SIZE := by
    obtain ⟨p,rfl⟩ := haligned
    simp only [contentsOffset,HEADER_SIZE,PAGE_SIZE]
    omega
  have hsum : phys+HEADER_SIZE=physPage s.paging header+contentsOffset header := by
    rw [physPage,hfirst,contentsOffset,←hplace]
    simp only [PAGE_SIZE]
    omega
  -- One byte: its page is one of the block, or the one right behind it.
  rw [and_iff_right haddrs,covers_iff_bytes hsize]
  refine forall₂_congr fun j hj => ?_
  have hright : toPhysAddr s.paging s.paging.curPd (header+HEADER_SIZE+j)=
      physPage s.paging header+(contentsOffset header+j) := by
    rw [Nat.add_assoc,hmapped.consecutive _ (by omega)]
    omega
  have hsplit : contentsOffset header+j=(contentsOffset header+j)/PAGE_SIZE*PAGE_SIZE+
      (contentsOffset header+j)%PAGE_SIZE := by
    rw [Nat.mul_comm]
    exact (Nat.div_add_mod _ _).symm
  have ho : (contentsOffset header+j)%PAGE_SIZE<PAGE_SIZE := Nat.mod_lt _ (by norm_num)
  have hdist : wadd r.off j=contentsOffset header+j := by
    rw [hoff]
    exact wadd_eq (by omega)
  rw [hcur,hdata,hdata',hright,hdist]
  generalize (contentsOffset header+j)/PAGE_SIZE=i at hsplit ⊢
  generalize (contentsOffset header+j)%PAGE_SIZE=o at hsplit ho ⊢
  rw [hsplit,←Nat.add_assoc]
  split
  · rename_i hi
    have hmul : wmul i PAGE_SIZE=i*PAGE_SIZE := wmul_eq (by omega)
    have hentry : wadd (physPage s.paging header) (i*PAGE_SIZE)=
        physPage s.paging header+i*PAGE_SIZE := wadd_eq (by omega)
    rw [toPhysAddr_within k.installed k.directory hstored hd hlt hfits hi ho,hmul,hentry]
    exact ⟨fun heq => Nat.add_right_cancel heq,fun heq => by rw [heq]⟩
  · rename_i hi
    obtain rfl : i=divUp node.size PAGE_SIZE := by
      simp only [PAGE_SIZE] at hsplit hi hwhole hlow ho ⊢
      omega
    have hbehind := toPhysAddr_behind k.installed k.directory hown hstored hd hlt hfits rfl ho
    rw [wadd_page_add hd ho]
    exact behind_iff k.directory h0 (dvd_wadd_pages hd _) rfl hbehind

/-- Flags below the page size disturb no page's address. -/
theorem covers_iff (hflags : flags<PAGE_SIZE) (hmapped : RecordMapped s.paging header size phys)
    (hpd : s.paging.curPd≠0) :
    Covers s.paging header size flags virtAddr ↔
      contentsOffset header+size≤divUp size PAGE_SIZE*PAGE_SIZE ∨
        BehindMapped s.paging header (divUp size PAGE_SIZE) virtAddr := by
  refine ⟨Covers.ends,fun hends => ⟨fun k hk _ => ?_,hends⟩⟩
  have hfirst := hmapped.consecutive 0 (by simp only [HEADER_SIZE]; omega)
  rw [Nat.add_zero,Nat.add_zero] at hfirst
  have hplace := hmapped.offset hpd
  have hphys := hmapped.phys_le
  have hdiv := Nat.div_mul_le_self (contentsOffset header+k) PAGE_SIZE
  have hsum : physPage s.paging header+contentsOffset header=phys+HEADER_SIZE := by
    rw [physPage,hfirst,contentsOffset,←hplace]
    simp only [PAGE_SIZE]
    omega
  exact getTabPureAddr_entry (by omega)
    (Nat.dvd_add (Nat.dvd_mul_left _ _) (Nat.dvd_mul_left _ _)) hflags

/-- A file of one page behind a record at the start of a page, in 4 MiB of
consecutively mapped memory. -/
def pageFile : FsNode := ⟨[],1,0,0,0,.file,PAGE_SIZE,.null⟩

/-- The ramdisk of that file. -/
def pageRamdisk : Initrd :=
  ⟨fun _ => ⟨0xC0400000,0xC0400200,PAGE_SIZE,0,0,0,0,.file⟩,2⟩

/-- The memory of that ramdisk. -/
def ramdiskState : MapState :=
  {emptyState 0xD0000000 with paging := {
    dirs := fun _ => ⟨fun pde => if pde=769 then 0x300003 else 0,
      fun pde => if pde=769 then 0xC0300000 else 0⟩
    tables := fun pt j => if pt=0xC0300000 then (0x400000+j*PAGE_SIZE) ||| 3 else 0
    curPd := 0xC0200000
    virtKernelAddr := VADDR
    pages := fun i => 0xC0800000+PAGE_SIZE*i}}

/-- A record in that memory. -/
theorem recordMapped_ramdiskState {size : ℕ} (h : HEADER_SIZE+size≤PT_SIZE*PAGE_SIZE) :
    RecordMapped ramdiskState.paging 0xC0400000 size 0x400000 := by
  have hslot : ∀ x<HEADER_SIZE+size,getPdePte (0xC0400000+x)=(769,x/PAGE_SIZE) := by
    intro x hx
    rw [getPdePte_eq]
    simp only [HEADER_SIZE,PAGE_SIZE,PT_SIZE] at h hx ⊢
    exact Prod.ext (by simp only; omega) (by simp only; omega)
  refine ⟨fun x hx => ?_,fun x hx => ?_,?_,?_⟩
  · rw [hslot x hx]
    change tabPresent ((ramdiskState.paging.dirs ramdiskState.paging.curPd).pageTables 769)=true ∧
      (ramdiskState.paging.dirs ramdiskState.paging.curPd).pageTablesVirt 769≠0
    decide
  · have hpage : PAGE_SIZE∣0x400000+x/PAGE_SIZE*PAGE_SIZE :=
      Nat.dvd_add (by norm_num) (Nat.dvd_mul_left _ _)
    have hlt : 0x400000+x/PAGE_SIZE*PAGE_SIZE<2^32 := by
      simp only [HEADER_SIZE,PAGE_SIZE,PT_SIZE] at h hx ⊢
      omega
    have hentry : ramdiskState.paging.tables 0xC0300000 (x/PAGE_SIZE)=
      (0x400000+x/PAGE_SIZE*PAGE_SIZE) ||| 3 := rfl
    have hvirt : (ramdiskState.paging.dirs ramdiskState.paging.curPd).pageTablesVirt 769=
      0xC0300000 := rfl
    rw [toPhysAddr_eq (by decide) (by rw [hslot x hx,hvirt]; norm_num),hslot x hx,hvirt,hentry,
      getTabPureAddr_entry hlt hpage (by norm_num)]
    simp only [wadd,HEADER_SIZE,PAGE_SIZE,PT_SIZE] at h hx hlt ⊢
    omega
  · simp only [HEADER_SIZE,PAGE_SIZE,PT_SIZE] at h ⊢
    omega
  · simp only [HEADER_SIZE,PAGE_SIZE,PT_SIZE] at h ⊢
    omega

/-- Its directory has one table. -/
theorem ownTables_ramdiskState : OwnTables ramdiskState.paging ramdiskState.paging.curPd := by
  have hvirt : ∀ p,(ramdiskState.paging.dirs ramdiskState.paging.curPd).pageTablesVirt p=
      if p=769 then 0xC0300000 else 0 := fun _ => rfl
  refine ⟨fun p _ q _ hne hq => ?_,fun p _ => ?_⟩
  · rw [hvirt] at hq ⊢
    rw [hvirt]
    have hq' : q=769 := by
      by_contra hout
      exact hq (if_neg hout)
    rw [if_pos hq',if_neg (by omega)]
    norm_num
  · rw [hvirt,show ramdiskState.paging.pages 0=0xC0800000 from rfl]
    split <;> norm_num

/-- The equivalence at that file. -/
theorem kfsmmap_fileMapped_iff_page : ∃ r,kfsmmap ramdiskState pageRamdisk pageFile 3=some r ∧
    r.ret=0 ∧ ((r.addrs=[0xD0000000] ∧ FileMapped ramdiskState 0xC0400200 PAGE_SIZE 0xD0000000 r) ↔
      Covers ramdiskState.paging 0xC0400000 PAGE_SIZE 3 0xD0000000) :=
  ⟨_,rfl,rfl,@kfsmmap_fileMapped_iff _ pageRamdisk pageFile _ 0xD0000000 _ 0x400000 _ _
    (by norm_num) (blocksPlaced_emptyState (by norm_num)) rfl (by decide)
    (by decide) (by norm_num) rfl rfl (recordMapped_ramdiskState (by decide))
    ownTables_ramdiskState rfl rfl⟩

/-- The last 512 bytes of that file are not mapped. -/
theorem fileMapped_counterexample : ¬∀ (start header phys virtAddr flags : ℕ) (s : MapState)
    (rd : Initrd) (node : FsNode) (r : FsmmapResult),PAGE_SIZE∣start →
    BlocksPlaced start s.buddy → BlocksApart s.buddy →
    servingBlock s.buddy (divUp node.size PAGE_SIZE)=some virtAddr →
    (getPdePte virtAddr).2+divUp node.size PAGE_SIZE≤PT_SIZE → 0<node.size →
    HEADER_SIZE∣header → (rd.nodes node.inode).header=header →
    (rd.nodes node.inode).data=wadd header HEADER_SIZE →
    RecordMapped s.paging header node.size phys → OwnTables s.paging s.paging.curPd →
    kfsmmap s rd node flags=some r → r.ret=0 →
    r.addrs=[virtAddr] ∧ FileMapped s (rd.nodes node.inode).data node.size virtAddr r := by
  intro h
  have hrun : ∃ r,kfsmmap ramdiskState pageRamdisk pageFile 3=some r ∧ r.ret=0 ∧
      toPhysAddr r.state.paging r.state.paging.curPd (wadd 0xD0000000 (wadd r.off 3584))=0 :=
    ⟨_,rfl,rfl,by decide +kernel⟩
  obtain ⟨r,hr,hret,hlast⟩ := hrun
  obtain ⟨_,hmapped⟩ := h 0xD0000000 0xC0400000 0x400000 0xD0000000 3 ramdiskState pageRamdisk
    pageFile r (by norm_num) (blocksPlaced_emptyState (by norm_num)) (blocksApart_emptyState _)
    rfl (by decide) (by decide) (by norm_num) rfl rfl (recordMapped_ramdiskState (by decide))
    ownTables_ramdiskState hr hret
  have hrecord := (@recordMapped_ramdiskState PAGE_SIZE (by decide)).consecutive 4096
    (by norm_num)
  have hbyte := hmapped 3584 (by decide)
  rw [hlast] at hbyte
  exact absurd (hbyte.trans hrecord) (by norm_num)

end XanaduOS.FileMapping
