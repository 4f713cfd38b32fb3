import XanaduOS.BuddyRuns
import XanaduOS.BuddyUndo
import XanaduOS.TightOwnership

/-!
# What the buddy allocator has free

From a new allocator on, as long as releases coalesce from lower halves only, the free
lists are a function of the live blocks: they hold the largest blocks without a live one.
So a request fails only when no block of its order is without a live one, and every state
reached is well formed.
-/

namespace XanaduOS.BuddyTightness

open Word32 BitWords KernelDefs BuddyFrameAlloc DyadicBlocks BuddyBlocks BuddySteps BuddyUndo
open BuddyRuns Runs TightOwnership

/-- Marks and listed blocks that the live blocks account for. -/
abbrev BuddyTight (start roots : ℕ) (buddy : BuddyAlloc) (live : Block → Prop) : Prop :=
  Tight (MAX_ORDER-1) (fun root => root < roots) (listed start buddy) live (marked start buddy)

/-- A block of the memory that the allocator manages. -/
abbrev OfMemory (roots : ℕ) (x : Block) : Prop :=
  OfDomain (MAX_ORDER-1) (fun root => root < roots) x

variable {start roots : ℕ} {buddy : BuddyAlloc} {live : Block → Prop}

/-- Tightness reads the live blocks as a set. -/
theorem BuddyTight.congr {live' : Block → Prop} (h : BuddyTight start roots buddy live)
    (hl : ∀ y,live y ↔ live' y) : BuddyTight start roots buddy live' := by
  rwa [←(funext fun y => propext (hl y) : live=live')]

/-! ## Requests -/

/-- Sizes up to the largest divide a start that the largest one divides. -/
theorem start_dvd {order : ℕ} (hstart : MAX_BUDDY_SIZE∣start) (ho : order<MAX_ORDER) :
    blockSize order∣start := by
  have hsize : MAX_BUDDY_SIZE=blockSize (MAX_ORDER-1) := by norm_num [blockSize]
  exact (blockSize_dvd (Nat.le_pred_of_lt ho)).trans (hsize▸hstart)

/-- Lists of the invariant are counted and aligned. -/
theorem listsAligned (h : BuddyInvariant start roots buddy live) (hstart : MAX_BUDDY_SIZE∣start) :
    ListsAligned buddy := by
  refine ⟨fun order _ => (h.area order).counted,fun order ho addr ha => ?_⟩
  obtain ⟨hle,hdvd⟩ := (h.area order).aligned addr ha
  obtain ⟨x,rfl,rfl⟩ := exists_block ⟨hle,hdvd⟩
  have hend := (h.inside (Or.inl ha)).2.2
  have hlimit := h.limit
  have hpos := blockSize_pos x.order
  refine ⟨by omega,?_⟩
  have hadd := (start_dvd hstart ho).add hdvd
  rwa [Nat.add_sub_cancel' hle] at hadd

/-- The bit that a block's address has at an order above is that of the block around it. -/
theorem blockAddr_div_above {z : Block} {order : ℕ} (hstart : blockSize order∣start)
    (ho : z.order≤order) : blockAddr start z/blockSize order=
      start/blockSize order+z.index/2^(order-z.order) := by
  have hsize : blockSize order=blockSize z.order*2^(order-z.order) := by
    simp only [blockSize]
    rw [Nat.mul_assoc,←pow_add,Nat.add_sub_cancel' ho]
  rw [blockAddr,Nat.add_div_of_dvd_right hstart,Nat.mul_comm z.index]
  conv_lhs => rw [hsize]
  rw [Nat.mul_div_mul_left _ _ (blockSize_pos _),←hsize]

/-- A block handed out from the head of a list keeps the state tight. -/
theorem BuddyTight.handed (h : BuddyTight start roots buddy live) (hstart : MAX_BUDDY_SIZE∣start)
    {x z : Block} {rest : List ℕ} {r : AllocResult} (hx : x.order<MAX_ORDER)
    (hlist : (buddy.freeArea x.order).freeList=blockAddr start x::rest) (ho : z.order≤x.order)
    (haddr : blockAddr start z=blockAddr start x)
    (hr : Handed buddy z.order x.order (blockAddr start x) rest r) :
    BuddyTight start roots r.buddy (fun y => live y ∨ y=z) := by
  have hbits : ∀ b,marked start r.buddy b ↔ marked start buddy b ∨ (z.order≤b.order ∧
      b.order≤x.order ∧ start/blockSize b.order+b.index=blockAddr start x/blockSize b.order) :=
    fun b => hr.bits _ _
  refine ⟨fun b hb => ?_,fun b hb => ?_,fun b hb hd hclear => ?_⟩
  · rcases (hbits b).mp hb with hb|⟨-,hle,-⟩
    · exact h.order b hb
    · exact hle.trans (Nat.le_pred_of_lt hx)
  · rcases (hbits b).mp hb with hb|⟨hlow,hhigh,hindex⟩
    · obtain ⟨c,hc,hin⟩ := h.holds b hb
      exact ⟨c,Or.inl hc,hin⟩
    · rw [←haddr,blockAddr_div_above (start_dvd hstart (hhigh.trans_lt hx)) hlow,
        Nat.add_left_cancel_iff] at hindex
      exact ⟨z,Or.inr rfl,hlow,hindex.symm⟩
  · rw [hbits,not_or] at hclear
    have hold := h.root b hb hd hclear.1
    by_cases htop : x.order=MAX_ORDER-1
    · have hbx : b.order=x.order := hb.trans htop.symm
      rw [listed,hbx,hr.removed]
      rw [listed,hbx,hlist] at hold
      refine (List.mem_cons.mp hold).resolve_left fun heq => hclear.2 ⟨hbx▸ho,hbx.le,?_⟩
      rw [←heq,blockAddr_div]
    · rw [listed,hr.kept b.order (Or.inr (by omega))]
      exact hold

/-- What a request does: with no block listed at its order or above it changes nothing,
else one more block is live and the state stays tight. -/
theorem BuddyTight.alloc (h : BuddyTight start roots buddy live)
    (hinv : BuddyInvariant start roots buddy live) (hstart : MAX_BUDDY_SIZE∣start)
    {addrs n : ℕ} (ha : addrs≠0) (h0 : 0<n) (h1 : n≤MAX_BUDDY_NFRAMES) :
    ∃ r,buddyAllocFrames buddy addrs n=some r ∧
      (r.ret=0 ↔ ∃ b,listed start buddy b ∧ getBuddyOrder n≤b.order) ∧
      (r.ret≠0 → r.buddy=buddy ∧ r.addrs=[]) ∧
      (r.ret=0 → ∃ z : Block,z.order=getBuddyOrder n ∧ r.addrs=[blockAddr start z] ∧
        BuddyTight start roots r.buddy (fun y => live y ∨ y=z)) := by
  have hlists := listsAligned hinv hstart
  rcases buddyAllocFrames_cases hlists ha h0 h1 with ⟨hall,hr⟩|⟨top,base,rest,r,hleast,hlist,hr,hh⟩
  · refine ⟨_,hr,iff_of_false (by norm_num) ?_,fun _ => ⟨rfl,rfl⟩,fun hret => absurd hret (by norm_num)⟩
    rintro ⟨b,hb,hle⟩
    rw [listed,hall b.order hle (hinv.inside (Or.inl hb)).1] at hb
    exact absurd hb List.not_mem_nil
  · obtain ⟨hlow,hhigh,-⟩ := hleast.1
    obtain ⟨x,rfl,rfl⟩ := exists_block ((hinv.area top).aligned base (by simp [hlist]))
    have hlisted : listed start buddy x := by simp [listed,hlist]
    refine ⟨r,hr,iff_of_true hh.ret_eq ⟨x,hlisted,hlow⟩,fun hret => absurd hh.ret_eq hret,
      fun _ => ⟨lowest x (getBuddyOrder n),rfl,?_,?_⟩⟩
    · rw [blockAddr_lowest hlow]
      exact hh.addrs_eq
    · exact h.handed hstart hhigh hlist hlow (blockAddr_lowest hlow) hh

/-! ## Releases -/

/-- A release that coalesces from lower halves keeps the state tight. -/
theorem BuddyTight.coalesce {fuel : ℕ} {x : Block} {buddy' : BuddyAlloc}
    (h : BuddyTight start roots buddy live) (hinv : BuddyInvariant start roots buddy live)
    (hstart : MAX_BUDDY_SIZE∣start) (hx : live x)
    (hwithin : MergesWithin start buddy x.order (blockAddr start x))
    (hloop : coalesceLoop fuel x.order (blockAddr start x) buddy=some buddy') :
    BuddyTight start roots buddy' (fun y => live y ∧ y≠x) := by
  induction fuel generalizing x buddy live with
  | zero => contradiction
  | succ fuel ih =>
    have hxo : x.order<MAX_ORDER := (hinv.inside (Or.inr hx)).1
    simp only [coalesceLoop] at hloop
    by_cases hmerge : x.order<MAX_ORDER-1 ∧
        neighbourFree (setFrameUnused buddy x.order (blockAddr start x)) x.order
          (blockAddr start x)=true
    · rw [if_pos hmerge] at hloop
      obtain ⟨ho,hfree⟩ := hmerge
      have hfree' := hfree
      rw [neighbourFree_setFrameUnused] at hfree'
      obtain ⟨hdvd,hparity⟩ := hwithin x.order le_rfl ho fun k hlow hhigh => by
        rwa [le_antisymm hhigh hlow]
      obtain ⟨-,merged,hremove,hmaps,-,hinv'⟩ := hinv.merge hx ho hdvd hfree
      have heven : x.index%2=0 := by
        have hbase := start_even hdvd
        rw [blockAddr_div] at hparity
        omega
      have haddr : blockAddr start x.parent=blockAddr start x := blockAddr_parent heven
      have hneighbour : ∀ k,neighbourFree merged k (blockAddr start x)=
          neighbourFree buddy k (blockAddr start x) := by
        intro k
        rw [neighbourFree_congr hmaps,neighbourFree_setFrameUnused]
      have hnext : MergesWithin start merged x.parent.order (blockAddr start x.parent) := by
        intro top hlow htop hall
        rw [haddr] at hall ⊢
        refine hwithin top (le_trans (Nat.le_succ _) hlow) htop fun k hk hktop => ?_
        rcases hk.lt_or_eq with hlt|rfl
        · rw [←hneighbour k]
          exact hall k hlt hktop
        · exact hfree'
      have htight : BuddyTight start roots merged (fun y => (live y ∧ y≠x) ∨ y=x.parent) := by
        refine h.merge ho (fun b hb hlisted => ?_) (fun _ => Iff.rfl) fun b => ?_
        · rw [listed,removeFreeFrame_freeArea hremove (by omega)]
          exact hlisted
        · rw [marked,hmaps]
          exact marked_setFrameUnused buddy x b
      rw [hremove,←haddr] at hloop
      refine (ih htight hinv' (Or.inr rfl) hnext hloop).congr fun y => ?_
      have hp : ¬live x.parent := by
        intro hl
        have heq := hinv.own.apart x x.parent (Or.inr hx) (Or.inr hl) x.within_parent
        exact x.parent_ne heq.symm
      constructor
      · rintro ⟨hl|hl,hne⟩
        · exact hl
        · exact absurd hl hne
      · exact fun hl => ⟨Or.inl hl,fun heq => hp (heq▸hl.1)⟩
    · rw [if_neg hmerge] at hloop
      obtain rfl := Option.some.inj hloop
      have hend : x.order=MAX_ORDER-1 ∨ marked start buddy x.sibling := by
        by_cases ho : x.order<MAX_ORDER-1
        · have hused : ¬neighbourFree (setFrameUnused buddy x.order (blockAddr start x)) x.order
              (blockAddr start x)=true := fun hfree => hmerge ⟨ho,hfree⟩
          rw [neighbourFree_iff _ x (start_dvd hstart (by omega)),not_not,
            marked_setFrameUnused] at hused
          exact Or.inr hused.1
        · exact Or.inl (by omega)
      exact h.give hend (listed_insertBuddy _ x) (fun _ => Iff.rfl) (marked_setFrameUnused buddy x)

/-- The release of a live block is a coalescing at its order. -/
theorem buddyFreeFrames_live (h : BuddyInvariant start roots buddy live) {x : Block} (hx : live x)
    (nframes : ℕ) (ho : x.order=getBuddyOrder nframes) :
    buddyFreeFrames buddy (blockAddr start x) nframes=
      buddyCoalesce buddy x.order (blockAddr start x) := by
  have hbit : bitAt (buddy.maps x.order) (blockAddr start x/blockSize x.order)=true := by
    rw [blockAddr_div]
    exact h.own.liveMark x hx
  obtain ⟨left,hleft⟩ : ∃ left,MAX_ORDER-x.order=left+1 :=
    ⟨MAX_ORDER-x.order-1,by have := (h.inside (Or.inr hx)).1; omega⟩
  rw [buddyFreeFrames,←ho]
  simp only [hleft,freeFramesLoop,isFrameFree_of_bitAt hbit,Bool.false_eq_true,if_false]

/-! ## Runs -/

/-- The allocator's invariant, and a tight state. -/
structure TightInvariant (start roots : ℕ) (s : BuddySystem) : Prop where
  /-- The blocks handed out are owned. -/
  system : SystemInvariant start roots s
  /-- They account for marks and free blocks. -/
  tight : BuddyTight start roots s.buddy (blocksOf start s.live)

/-- One more block handed out. -/
theorem blocksOf_cons {live : List LiveBlock} {z : Block} {nframes : ℕ}
    (ho : z.order=getBuddyOrder nframes) (y : Block) :
    blocksOf start (⟨blockAddr start z,nframes⟩::live) y ↔ blocksOf start live y ∨ y=z := by
  simp only [blocksOf,List.exists_mem_cons_iff,LiveBlock.block_eq ho]
  rw [or_comm,eq_comm]

/-- Blocks of a list without one entry. -/
theorem blocksOf_erase {s : BuddySystem} (h : SystemInvariant start roots s)
    {l : LiveBlock} (hl : l∈s.live) (y : Block) :
    blocksOf start (s.live.erase l) y ↔ blocksOf start s.live y ∧ y≠l.block start := by
  have hlive : s.live.Nodup := h.nodup.of_map _
  constructor
  · rintro ⟨m,hm,rfl⟩
    obtain ⟨hne,hm⟩ := hlive.mem_erase_iff.mp hm
    exact ⟨⟨m,hm,rfl⟩,fun heq => hne (List.inj_on_of_nodup_map h.nodup hm hl heq)⟩
  · rintro ⟨⟨m,hm,rfl⟩,hne⟩
    exact ⟨m,hlive.mem_erase_iff.mpr ⟨fun heq => hne (heq▸rfl),hm⟩,rfl⟩

/-- One call that coalesces from lower halves keeps the state tight. -/
theorem TightInvariant.step {s t : BuddySystem} {op : BuddyOp} (h : TightInvariant start roots s)
    (hstart : MAX_BUDDY_SIZE∣start) (hguard : LowerHalfFrees s op) (hstep : Steps step s op t) :
    TightInvariant start roots t := by
  refine ⟨h.system.step (hguard.within hstart) hstep,?_⟩
  cases op with
  | allocFrames addrs nframes =>
    simp only [Steps,BuddyRuns.step] at hstep
    split at hstep
    case isFalse => contradiction
    case isTrue hn =>
      by_cases ha : addrs=0
      · simp only [buddyAllocFrames,if_pos ha] at hstep
        cases hstep
        exact h.tight
      · obtain ⟨r,hr,-,hfail,hserve⟩ := h.tight.alloc h.system.buddy hstart ha hn.1 hn.2
        simp only [hr,Option.bind_eq_bind,Option.bind_some,Option.some.injEq] at hstep
        subst hstep
        by_cases hret : r.ret=0
        · obtain ⟨z,ho,haddrs,htight⟩ := hserve hret
          simp only [if_pos hret,haddrs,List.map_cons,List.map_nil,List.singleton_append]
          exact htight.congr fun y => (blocksOf_cons ho y).symm
        · simp only [if_neg hret,(hfail hret).1]
          exact h.tight
  | freeFrames addr nframes =>
    simp only [Steps,BuddyRuns.step] at hstep
    split at hstep
    case isFalse => contradiction
    case isTrue hmem =>
      have haddr : blockAddr start (LiveBlock.block start ⟨addr,nframes⟩)=addr :=
        LiveBlock.addr_eq (h.system.aligned _ hmem)
      have hlive : blocksOf start s.live (LiveBlock.block start ⟨addr,nframes⟩) := ⟨_,hmem,rfl⟩
      have hwithin := hguard.within hstart
      obtain ⟨buddy',hfree,-,-⟩ := h.system.free hmem hwithin
      simp only [hfree,Option.bind_eq_bind,Option.bind_some,Option.some.injEq] at hstep
      subst hstep
      have hloop := buddyFreeFrames_live h.system.buddy hlive nframes rfl
      rw [haddr,hfree] at hloop
      have htight := h.tight.coalesce h.system.buddy hstart hlive (by rw [haddr]; exact hwithin)
        (by rw [haddr]; exact hloop.symm)
      exact htight.congr fun y => (blocksOf_erase h.system hmem y).symm

/-- A new allocator is tight. -/
theorem buddyAllocCreate_tight {memStart memLimit stale : ℕ} (hle : memStart ≤ memLimit)
    (hlimit : memLimit<2^32) (h : buddyAllocCreate memStart memLimit stale=some buddy) :
    TightInvariant memStart ((memLimit-memStart)/MAX_BUDDY_SIZE) ⟨buddy,[]⟩ := by
  refine ⟨(buddyAllocCreate_invariant hle hlimit h).1,?_⟩
  rw [buddyAllocCreate] at h
  split at h
  · contradiction
  · simp only [wsub_eq hle hlimit,createdList_eq hle hlimit,Option.some.injEq] at h
    have hmark : ∀ x : Block,¬marked memStart buddy x := by
      intro x
      subst h
      simp [marked,bitAt]
    refine ⟨fun b hb => absurd hb (hmark b),fun b hb => absurd hb (hmark b),fun b ho hd _ => ?_⟩
    have hsize : blockSize (MAX_ORDER-1)=MAX_BUDDY_SIZE := by norm_num [blockSize]
    subst h
    simp only [listed,ho,Function.update_self]
    refine List.mem_map.mpr ⟨b.index,List.mem_range.mpr hd,?_⟩
    rw [blockAddr,ho,hsize]

/-- Along every run whose releases coalesce from lower halves the state is tight. -/
theorem run_tight {memStart memLimit stale : ℕ} (hstart : MAX_BUDDY_SIZE∣memStart)
    (hle : memStart ≤ memLimit) (hlimit : memLimit<2^32)
    (hcreate : buddyAllocCreate memStart memLimit stale=some buddy) {ops : List BuddyOp}
    {t : BuddySystem} (hrun : Run (Guarded (Steps step) LowerHalfFrees) ⟨buddy,[]⟩ ops t) :
    TightInvariant memStart ((memLimit-memStart)/MAX_BUDDY_SIZE) t :=
  hrun.guarded_invariant (fun hi hguard hstep => hi.step hstart hguard hstep)
    (buddyAllocCreate_tight hle hlimit hcreate)

/-! ## What the live blocks leave -/

/-- A block of the memory, by its addresses. -/
theorem ofMemory_iff {x : Block} (ho : x.order<MAX_ORDER) (start : ℕ) : OfMemory roots x ↔
    blockAddr start x+blockSize x.order ≤ start+roots*MAX_BUDDY_SIZE := by
  refine ⟨fun h => blockAddr_end_le h.1 h.2,fun h => ⟨Nat.le_pred_of_lt ho,?_⟩⟩
  have hsize : MAX_BUDDY_SIZE=2^(MAX_ORDER-1-x.order)*blockSize x.order := by
    have hpow : 2^(MAX_ORDER-1-x.order)*2^x.order=2^(MAX_ORDER-1) := by
      rw [←pow_add]
      congr 1
      omega
    rw [blockSize,Nat.mul_left_comm,hpow]
    norm_num
  rw [hsize,←Nat.mul_assoc,blockAddr,Nat.add_assoc,←Nat.succ_mul] at h
  have hle := Nat.le_of_mul_le_mul_right (Nat.le_of_add_le_add_left h) (blockSize_pos _)
  exact Nat.div_lt_of_lt_mul (by rw [Nat.mul_comm]; exact hle)

/-- A block without a live one is one whose addresses are apart from those of the live
blocks. -/
theorem TightInvariant.clear_iff {s : BuddySystem} (h : TightInvariant start roots s) (x : Block) :
    Clear (blocksOf start s.live) x ↔
      ∀ l∈s.live,RangesApart l.addr l.size (blockAddr start x) (blockSize x.order) := by
  have hapart : ∀ l∈s.live,(RangesApart l.addr l.size (blockAddr start x) (blockSize x.order) ↔
      ¬(l.block start).Within x ∧ ¬x.Within (l.block start)) := by
    intro l hl
    rw [←not_or,Block.nested_iff,not_not,←LiveBlock.addr_eq (h.system.aligned l hl)]
    change RangesApart _ (blockSize (l.block start).order) _ _ ↔ _
    simp only [RangesApart,blockAddr_first,blockSize,PAGE_SIZE]
    omega
  constructor
  · exact fun hx l hl => (hapart l hl).mpr (hx _ ⟨l,hl,rfl⟩)
  · rintro hx c ⟨l,hl,rfl⟩
    exact (hapart l hl).mp (hx l hl)

variable {memStart memLimit stale : ℕ} {ops : List BuddyOp} {t : BuddySystem}

/-- A run that takes a frame and releases it. -/
theorem exists_run_frame : ∃ buddy t,buddyAllocCreate 0x400000 0xC00000 0=some buddy ∧
    Run (Guarded (Steps step) LowerHalfFrees) ⟨buddy,[]⟩
      [.allocFrames 1 1,.freeFrames 0x400000 1] t := by
  have hobserve : ((buddyAllocCreate 0x400000 0xC00000 0).bind fun buddy =>
      (step ⟨buddy,[]⟩ (.allocFrames 1 1)).bind fun s => step s (.freeFrames 0x400000 1)).isSome := by
    decide
  obtain ⟨t,ht⟩ := Option.isSome_iff_exists.mp hobserve
  obtain ⟨buddy,hcreate,ht⟩ := Option.bind_eq_some_iff.mp ht
  obtain ⟨s,hs,ht⟩ := Option.bind_eq_some_iff.mp ht
  have hlower : LowerHalfFrees s (.freeFrames 0x400000 1) := by
    have heven : ∀ top<MAX_ORDER-1,0x400000/blockSize top%2=0 := by decide
    exact fun top _ htop _ => heven top htop
  exact ⟨buddy,t,hcreate,Run.cons ⟨trivial,hs⟩ (Run.cons ⟨hlower,ht⟩ (Run.nil t))⟩

end XanaduOS.BuddyTightness
