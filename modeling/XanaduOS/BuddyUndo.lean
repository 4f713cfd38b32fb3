import XanaduOS.BuddySteps

/-!
# Releasing undoes allocating

In a well-formed state the blocks that are free or live tile the memory, and
a bit is set for a block that is live or has been split. Then every half
listed by an allocation is found again by the release of its block: its bit
is clear, since nothing below a free block is marked. The merging stops at
the order of the block that was taken, since its buddy is not free and so its
bit is set.
-/

namespace XanaduOS.BuddyUndo

open Word32 BitWords KernelDefs BuddyFrameAlloc DyadicBlocks BuddyBlocks BuddySteps

/-- A block of the managed memory. -/
def Managed (roots : ℕ) (x : Block) : Prop := ∃ root < roots,x.Within ⟨MAX_ORDER-1,root⟩

/-- A free or live block. -/
def Owned (start : ℕ) (buddy : BuddyAlloc) (live : Block → Prop) (x : Block) : Prop :=
  listed start buddy x ∨ live x

/-- A block that has been split: a part of it is free or live. -/
def HasSplit (start : ℕ) (buddy : BuddyAlloc) (live : Block → Prop) (x : Block) : Prop :=
  ∃ y,Owned start buddy live y ∧ y.Within x ∧ y≠x

/-- Well-formed states, with the blocks that are live. -/
structure WellFormed (start roots : ℕ) (buddy : BuddyAlloc) (live : Block → Prop) : Prop where
  /-- The start is a multiple of the largest block. -/
  start_dvd : MAX_BUDDY_SIZE∣start
  /-- The memory ends below the last word. -/
  limit : start+roots*MAX_BUDDY_SIZE<2^32
  /-- The counter of a list is its length. -/
  counted : ∀ order<MAX_ORDER,
    (buddy.freeArea order).numFree=(buddy.freeArea order).freeList.length
  /-- Listed addresses are multiples of the block size, from the start on. -/
  aligned : ∀ order<MAX_ORDER,∀ addr∈(buddy.freeArea order).freeList,
    start≤addr ∧ blockSize order∣addr
  /-- No block is listed twice. -/
  nodup : ∀ order<MAX_ORDER,(buddy.freeArea order).freeList.Nodup
  /-- Free and live blocks lie in the memory. -/
  inside : ∀ x,x.order<MAX_ORDER → Owned start buddy live x → Managed roots x
  /-- Live blocks have an order. -/
  live_order : ∀ x,live x → x.order<MAX_ORDER
  /-- No block is free and live. -/
  notBoth : ∀ x,listed start buddy x → ¬live x
  /-- Different free or live blocks are not nested. -/
  apart : ∀ x y,x.order<MAX_ORDER → y.order<MAX_ORDER → Owned start buddy live x →
    Owned start buddy live y → x.Within y → x=y
  /-- Every smallest block lies within a free or live one. -/
  tiled : ∀ x,x.order=0 → Managed roots x →
    ∃ y,y.order<MAX_ORDER ∧ Owned start buddy live y ∧ x.Within y
  /-- A bit is set for a live block and for one that has been split. -/
  bits : ∀ x,Managed roots x → (marked start buddy x ↔ live x ∨ HasSplit start buddy live x)
  /-- Two buddies below the highest order are not both free. -/
  noPair : ∀ x,x.order<MAX_ORDER-1 → listed start buddy x → ¬listed start buddy x.sibling

variable {start roots : ℕ} {buddy buddy' base : BuddyAlloc} {live : Block → Prop} {x : Block}

/-- What lies within a block of the memory is of the memory. -/
theorem Managed.within {y : Block} (h : Managed roots x) (hy : y.Within x) : Managed roots y := by
  obtain ⟨root,hroot,hin⟩ := h
  exact ⟨root,hroot,hy.trans hin⟩

/-- Blocks of the memory end within it. -/
theorem Managed.end_le (h : Managed roots x) (start : ℕ) :
    blockAddr start x+blockSize x.order ≤ start+roots*MAX_BUDDY_SIZE := by
  obtain ⟨root,hroot,hle,hindex⟩ := h
  exact blockAddr_end_le hle (hindex.trans_lt hroot)

/-- The buddy of a block below the highest order is of the memory. -/
theorem Managed.sibling (h : Managed roots x) (ho : x.order<MAX_ORDER-1) :
    Managed roots x.sibling := by
  obtain ⟨root,hroot,hin⟩ := h
  have hne : x≠⟨MAX_ORDER-1,root⟩ := fun heq => ho.ne (congrArg Block.order heq)
  exact ⟨root,hroot,(x.sibling_parent▸x.sibling.within_parent).trans (hin.parent_within hne)⟩

/-! ## Bits of a well-formed state -/

/-- Nothing within a free block is marked. -/
theorem WellFormed.clear (h : WellFormed start roots buddy live) {y : Block}
    (ho : x.order<MAX_ORDER) (hx : listed start buddy x) (hy : y.Within x) :
    ¬marked start buddy y := by
  have hyo : y.order<MAX_ORDER := hy.1.trans_lt ho
  rw [h.bits y ((h.inside x ho (Or.inl hx)).within hy)]
  rintro (hlive|⟨z,hz,hzy,hne⟩)
  · obtain rfl := h.apart y x hyo ho (Or.inr hlive) (Or.inl hx) hy
    exact h.notBoth y hx hlive
  · obtain rfl := h.apart z x (hzy.1.trans_lt hyo) ho hz (Or.inl hx) (hzy.trans hy)
    exact hne (hzy.antisymm hy)

/-- The buddy of a free block is marked, since it is not free itself. -/
theorem WellFormed.sibling_marked (h : WellFormed start roots buddy live)
    (ho : x.order<MAX_ORDER-1) (hx : listed start buddy x) : marked start buddy x.sibling := by
  have hxo : x.order<MAX_ORDER := ho.trans_le (Nat.sub_le _ _)
  have hsib := (h.inside x hxo (Or.inl hx)).sibling ho
  let unit : Block := ⟨0,x.sibling.index*2^x.sibling.order⟩
  have hunit : unit.Within x.sibling :=
    ⟨Nat.zero_le _,Nat.mul_div_cancel _ (Nat.two_pow_pos _)⟩
  obtain ⟨y,hyo,hy,hin⟩ := h.tiled unit rfl (hsib.within hunit)
  rw [h.bits _ hsib]
  by_cases heq : y=x.sibling
  · subst heq
    exact Or.inl (hy.resolve_left (h.noPair x ho hx))
  · rcases hunit.comparable hin with hsy|hys
    · -- The block around the buddy would hold the free block too.
      have hparent := hsy.parent_within fun hs => heq hs.symm
      rw [x.sibling_parent] at hparent
      obtain rfl := h.apart x y hxo hyo (Or.inl hx) hy (x.within_parent.trans hparent)
      exact absurd hparent.1 (Nat.not_succ_le_self _)
    · exact Or.inr ⟨y,hy,hys,heq⟩

/-! ## The lowest parts of a block -/

/-- The part of an order at the same address. -/
def lowest (x : Block) (order : ℕ) : Block := ⟨order,x.index*2^(x.order-order)⟩

/-- The lowest parts start where the block does. -/
theorem blockAddr_lowest {order : ℕ} (ho : order≤x.order) :
    blockAddr start (lowest x order)=blockAddr start x := by
  have hpow : 2^x.order=2^(x.order-order)*2^order := by
    rw [←pow_add,Nat.sub_add_cancel ho]
  simp only [blockAddr,lowest,blockSize,hpow]
  ring

/-- The lowest parts lie within the block. -/
theorem lowest_within {order : ℕ} (ho : order≤x.order) : (lowest x order).Within x :=
  ⟨ho,Nat.mul_div_cancel _ (Nat.two_pow_pos _)⟩

/-- A proper lowest part is a lower half. -/
theorem lowest_even {order : ℕ} (ho : order<x.order) : (lowest x order).index%2=0 := by
  obtain ⟨k,hk⟩ : ∃ k,x.order-order=k+1 := ⟨x.order-order-1,by omega⟩
  simp only [lowest,hk,pow_succ,←Nat.mul_assoc]
  exact Nat.mul_mod_left _ 2

/-- The buddy of a proper lowest part lies within the block. -/
theorem lowest_sibling_within {order : ℕ} (ho : order<x.order) :
    (lowest x order).sibling.Within x := by
  have hne : lowest x order≠x := fun heq => ho.ne (congrArg Block.order heq)
  exact ((lowest x order).sibling_parent▸(lowest x order).sibling.within_parent).trans
    ((lowest_within ho.le).parent_within hne)

/-- The buddy of a proper lowest part is the next block of its order. -/
theorem blockAddr_lowest_sibling {order : ℕ} (ho : order<x.order) :
    blockAddr start (lowest x order).sibling=blockAddr start x+blockSize order := by
  have heven := lowest_even ho
  rw [←blockAddr_lowest ho.le,blockAddr,Block.sibling,if_pos heven,Nat.add_mul,Nat.one_mul,
    ←Nat.add_assoc]
  rfl

/-! ## Merging back -/

/-- Words are equal when their bits are. -/
theorem words_ext {a b : ℕ → BitVec 32} (h : ∀ i,bitAt a i=true ↔ bitAt b i=true) : a=b := by
  funext w
  refine BitVec.eq_of_getLsbD_eq fun i hi => ?_
  rw [←bitAt_mul_add a hi,←bitAt_mul_add b hi]
  exact Bool.eq_iff_iff.mpr (h _)

/-- Allocators are equal when sizes, lists and bits are. -/
theorem buddyAlloc_ext {a b : BuddyAlloc} (hsize : a.memSize=b.memSize)
    (hstart : a.memStart=b.memStart) (hareas : ∀ o,a.freeArea o=b.freeArea o)
    (hbits : ∀ o i,bitAt (a.maps o) i=true ↔ bitAt (b.maps o) i=true) : a=b := by
  obtain ⟨size,first,area,maps⟩ := a
  obtain rfl : size=b.memSize := hsize
  obtain rfl : first=b.memStart := hstart
  obtain rfl : area=b.freeArea := funext hareas
  obtain rfl : maps=b.maps := funext fun o => words_ext (hbits o)
  rfl

/-- Unmarking the block that was only marked restores the state. -/
theorem setFrameUnused_sliced (h : Sliced x.order x.order (blockAddr start x) base buddy)
    (hclear : ¬marked start base x) : setFrameUnused buddy x.order (blockAddr start x)=base := by
  refine buddyAlloc_ext h.memSize_eq h.memStart_eq (fun o => ?_) fun o i => ?_
  · exact h.kept o (lt_or_ge o x.order)
  · rw [bitAt_setFrameUnused,h.bits]
    constructor
    · rintro ⟨hbit|⟨hlow,hhigh,hi⟩,hne⟩
      · exact hbit
      · exact absurd ⟨le_antisymm hhigh hlow,le_antisymm hhigh hlow▸hi⟩ hne
    · refine fun hbit => ⟨Or.inl hbit,?_⟩
      rintro ⟨rfl,rfl⟩
      rw [blockAddr_div] at hbit
      exact hclear hbit

/-- Unmarking the base at the lowest order of a split and taking the half
listed there leaves the split from the next order. -/
theorem merge_sliced {order : ℕ} (ho : order<x.order)
    (h : Sliced order x.order (blockAddr start x) base buddy)
    (hclear : ¬marked start base (lowest x order))
    (hend : blockAddr start x+blockSize x.order<2^32) :
    ∃ buddy',removeFreeFrame (setFrameUnused buddy order (blockAddr start x)) order
        (blockAddr start x+blockSize order)=some buddy' ∧
      Sliced (order+1) x.order (blockAddr start x) base buddy' := by
  have hpos := blockSize_pos order
  have hdouble : blockSize order+blockSize order≤blockSize x.order := by
    rw [←blockSize_succ]
    exact Nat.mul_le_mul_left _ (Nat.pow_le_pow_right (by norm_num) ho)
  have harea := h.added order (Nat.le_refl _) ho
  have hcount : ((setFrameUnused buddy order (blockAddr start x)).freeArea order).numFree≠0 := by
    change (buddy.freeArea order).numFree≠0
    rw [harea]
    exact Nat.succ_ne_zero _
  have hlist : ((setFrameUnused buddy order (blockAddr start x)).freeArea order).freeList=
      (blockAddr start x+blockSize order)::(base.freeArea order).freeList := by
    change (buddy.freeArea order).freeList=_
    rw [harea]
  have hcovers : covers order (blockAddr start x+blockSize order)
      (blockAddr start x+blockSize order)=true := by
    rw [covers,decide_eq_true_iff,wadd_eq (by omega)]
    omega
  have hany : ((blockAddr start x+blockSize order)::(base.freeArea order).freeList).any
      (covers order (blockAddr start x+blockSize order))=true := by
    rw [List.any_cons,hcovers,Bool.true_or]
  simp only [removeFreeFrame,if_neg hcount,hlist,if_pos hany,List.eraseP_cons_of_pos hcovers]
  refine ⟨_,rfl,fun o hlow hhigh => ?_,fun o hother => ?_,fun o i => ?_,h.memSize_eq,h.memStart_eq⟩
  · have hne : o≠order := by omega
    simp only [BuddyAlloc.setArea,Function.update_of_ne hne]
    exact h.added o (by omega) hhigh
  · by_cases hne : o=order
    · subst hne
      simp only [BuddyAlloc.setArea,Function.update_self]
      change {buddy.freeArea o with
        freeList := (base.freeArea o).freeList,numFree := (buddy.freeArea o).numFree-1}=_
      rw [harea]
      rfl
    · simp only [BuddyAlloc.setArea,Function.update_of_ne hne]
      exact h.kept o (by omega)
  · change bitAt ((setFrameUnused buddy order (blockAddr start x)).maps o) i=true ↔ _
    rw [bitAt_setFrameUnused,h.bits]
    constructor
    · rintro ⟨hbit|⟨hlow,hhigh,hi⟩,hne⟩
      · exact Or.inl hbit
      · refine Or.inr ⟨Nat.lt_of_le_of_ne hlow ?_,hhigh,hi⟩
        rintro rfl
        exact hne ⟨rfl,hi⟩
    · rintro (hbit|⟨hlow,hhigh,hi⟩)
      · refine ⟨Or.inl hbit,?_⟩
        rintro ⟨rfl,rfl⟩
        have hindex := @blockAddr_div start (lowest x o)
        rw [blockAddr_lowest ho.le] at hindex
        rw [marked,←hindex] at hclear
        exact hclear hbit
      · exact ⟨Or.inr ⟨by omega,hhigh,hi⟩,by omega⟩

/-- Releasing the lowest part of a block just split merges it back and lists
the block. -/
theorem WellFormed.coalesce (h : WellFormed start roots buddy live) (ho : x.order<MAX_ORDER)
    (hx : listed start buddy x) (hend : blockAddr start x+blockSize x.order<2^32)
    {fuel order : ℕ} (hfuel : MAX_ORDER≤fuel+order) (hle : order≤x.order)
    (hsliced : Sliced order x.order (blockAddr start x) base buddy')
    (hmaps : base.maps=buddy.maps) :
    coalesceLoop fuel order (blockAddr start x) buddy'=
      some (insertBuddy base x.order (blockAddr start x)) := by
  have hmark : ∀ y,marked start base y ↔ marked start buddy y := fun y => by
    rw [marked,marked,hmaps]
  have hdvd : ∀ k<MAX_ORDER,blockSize k∣start := fun k hk =>
    (blockSize_dvd (Nat.le_of_lt_succ hk)).trans h.start_dvd
  induction fuel generalizing order buddy' with
  | zero => omega
  | succ fuel ih =>
    have hlow : order<MAX_ORDER := hle.trans_lt ho
    have hfirst : blockAddr start (lowest x order)=blockAddr start x := blockAddr_lowest hle
    simp only [coalesceLoop]
    rcases hle.lt_or_eq with hlt|rfl
    · have htop : order<MAX_ORDER-1 := by omega
      have hclear : ∀ {y : Block},y.Within x → ¬marked start base y := fun hy =>
        (hmark _).not.mpr (h.clear ho hx hy)
      have hfree : neighbourFree (setFrameUnused buddy' order (blockAddr start x)) order
          (blockAddr start x)=true := by
        rw [neighbourFree_setFrameUnused]
        have hiff := neighbourFree_iff buddy' (lowest x order) (hdvd (order+1) (by omega))
        rw [hfirst] at hiff
        refine hiff.mpr fun hm => ?_
        rcases (hsliced.bits _ _).mp hm with hbit|⟨-,-,hi⟩
        · exact hclear (lowest_sibling_within hlt) hbit
        · change _=blockAddr start x/blockSize (lowest x order).order at hi
          rw [←hfirst,blockAddr_div] at hi
          have hsib : (lowest x order).sibling.index=(lowest x order).index :=
            Nat.add_left_cancel hi
          exact (lowest x order).sibling_ne (Block.ext rfl hsib)
      have hfound : mapToAddr order ⟨(addrToMapId order (blockAddr start x)).frameMap,
          buddyFrame (addrToMapId order (blockAddr start x)).frame⟩=
            blockAddr start x+blockSize order := by
        have haddr := @mapToAddr_sibling start (lowest x order) (hdvd (order+1) (by omega))
        have hsize : blockSize order≤blockSize x.order :=
          Nat.le_of_dvd (blockSize_pos _) (blockSize_dvd hle)
        rw [hfirst,blockAddr_lowest_sibling hlt,Nat.mod_eq_of_lt (by omega)] at haddr
        exact haddr
      obtain ⟨merged,hremove,hnext⟩ := merge_sliced hlt hsliced (hclear (lowest_within hle)) hend
      rw [if_pos ⟨htop,hfree⟩,hfound,hremove]
      exact ih (by omega) hlt hnext
    · have hcleared := setFrameUnused_sliced hsliced
        ((hmark x).not.mpr (h.clear ho hx x.within_refl))
      have hstop : ¬(x.order<MAX_ORDER-1 ∧ neighbourFree
          (setFrameUnused buddy' x.order (blockAddr start x)) x.order (blockAddr start x)=true) := by
        rintro ⟨htop,hfree⟩
        rw [hcleared,neighbourFree_iff base x (hdvd (x.order+1) (by omega)),hmark] at hfree
        exact hfree (h.sibling_marked htop hx)
      rw [if_neg hstop,hcleared]

/-- Pushing the head that was taken restores the state. -/
theorem insertBuddy_taken {order addr : ℕ} {rest : List ℕ}
    (hcount : (buddy.freeArea order).numFree≠0)
    (hlist : (buddy.freeArea order).freeList=addr::rest) :
    insertBuddy (buddy.setArea order {buddy.freeArea order with
      freeList := rest,numFree := (buddy.freeArea order).numFree-1}) order addr=buddy := by
  have harea : {buddy.freeArea order with
      freeList := addr::rest,numFree := (buddy.freeArea order).numFree-1+1}=
        buddy.freeArea order := by
    rw [←hlist,Nat.sub_add_cancel (Nat.pos_of_ne_zero hcount)]
  simp only [insertBuddy,BuddyAlloc.setArea,Function.update_self,Function.update_idem]
  rw [harea,Function.update_eq_self]

/-- A listed address is that of a listed block. -/
theorem WellFormed.exists_listed (h : WellFormed start roots buddy live) {order addr : ℕ}
    (ho : order<MAX_ORDER) (ha : addr∈(buddy.freeArea order).freeList) :
    ∃ x : Block,x.order=order ∧ blockAddr start x=addr ∧ listed start buddy x := by
  obtain ⟨hle,hdvd⟩ := h.aligned order ho addr ha
  have hstart := (blockSize_dvd (Nat.le_of_lt_succ ho)).trans h.start_dvd
  obtain ⟨x,rfl,haddr⟩ := exists_block ⟨hle,Nat.dvd_sub hdvd hstart⟩
  exact ⟨x,rfl,haddr,by rw [listed,haddr]; exact ha⟩

/-- Listed blocks end below the last word. -/
theorem WellFormed.end_lt (h : WellFormed start roots buddy live) (ho : x.order<MAX_ORDER)
    (hx : listed start buddy x) : blockAddr start x+blockSize x.order<2^32 :=
  ((h.inside x ho (Or.inl hx)).end_le start).trans_lt h.limit

/-- Well-formed lists are counted and aligned. -/
theorem WellFormed.listsAligned (h : WellFormed start roots buddy live) : ListsAligned buddy := by
  refine ⟨h.counted,fun order ho addr ha => ⟨?_,(h.aligned order ho addr ha).2⟩⟩
  obtain ⟨x,rfl,rfl,hx⟩ := h.exists_listed ho ha
  exact (Nat.le_add_right _ _).trans_lt (h.end_lt ho hx)

/-- What a request did, seen from the state without the block taken. -/
theorem sliced_of_handed {order top addr : ℕ} {rest : List ℕ} {r : AllocResult}
    (h : Handed buddy order top addr rest r) :
    Sliced order top addr (buddy.setArea top {buddy.freeArea top with
      freeList := rest,numFree := (buddy.freeArea top).numFree-1}) r.buddy := by
  refine ⟨fun o hlow hhigh => ?_,fun o ho => ?_,h.bits,h.memSize_eq,h.memStart_eq⟩
  · rw [h.added o hlow hhigh]
    simp [BuddyAlloc.setArea,hhigh.ne]
  · by_cases hne : o=top
    · subst hne
      rw [h.removed]
      simp [BuddyAlloc.setArea]
    · rw [h.kept o (by omega)]
      simp [BuddyAlloc.setArea,hne]

/-- A set bit is not free. -/
theorem isFrameFree_of_bitAt {order addr : ℕ}
    (h : bitAt (buddy.maps order) (addr/blockSize order)=true) :
    isFrameFree (buddy.maps order (addrToMapId order addr).frameMap)
      (addrToMapId order addr).frame=false := by
  obtain ⟨hflat,hlt⟩ := addrToMapId_flat order addr
  rw [←hflat,bitAt_mul_add _ hlt] at h
  rw [Bool.eq_false_iff,ne_eq,isFrameFree_iff hlt,h]
  simp

/-- Releasing what one request was given restores the state before it. -/
theorem buddyFreeFrames_buddyAllocFrames (h : WellFormed start roots buddy live) {addrs n : ℕ}
    (ha : addrs≠0) (h0 : 0<n) (h1 : n≤MAX_BUDDY_NFRAMES) {r : AllocResult}
    (hr : buddyAllocFrames buddy addrs n=some r) (hret : r.ret=0) :
    ∃ addr,r.addrs=[addr] ∧ buddyFreeFrames r.buddy addr n=some buddy := by
  rcases buddyAllocFrames_cases h.listsAligned ha h0 h1 with
    ⟨-,hnone⟩|⟨top,addr,rest,r',hleast,hlist,hr',hhanded⟩
  · obtain rfl := Option.some.inj (hr.symm.trans hnone)
    contradiction
  · obtain rfl := Option.some.inj (hr.symm.trans hr')
    obtain ⟨hlow,hhigh,hused⟩ := hleast.1
    have hcount : (buddy.freeArea top).numFree≠0 := by
      rw [h.counted top hhigh,hlist]
      exact Nat.succ_ne_zero _
    obtain ⟨x,rfl,rfl,hx⟩ := h.exists_listed hhigh (hlist▸List.mem_cons_self)
    have hmerged := h.coalesce hhigh hx (h.end_lt hhigh hx) (Nat.le_add_right MAX_ORDER _) hlow
      (sliced_of_handed hhanded) rfl
    rw [insertBuddy_taken hcount hlist] at hmerged
    have hbit : bitAt (r.buddy.maps (getBuddyOrder n))
        (blockAddr start x/blockSize (getBuddyOrder n))=true :=
      (hhanded.bits _ _).mpr (Or.inr ⟨Nat.le_refl _,hlow,rfl⟩)
    obtain ⟨left,hleft⟩ : ∃ left,MAX_ORDER-getBuddyOrder n=left+1 :=
      ⟨MAX_ORDER-getBuddyOrder n-1,by have := getBuddyOrder_lt n; omega⟩
    refine ⟨_,hhanded.addrs_eq,?_⟩
    simp only [buddyFreeFrames,hleft,freeFramesLoop,isFrameFree_of_bitAt hbit,Bool.false_eq_true,
      if_false]
    exact hmerged

/-- The one block of the example is listed. -/
theorem listed_oneBlock {start : ℕ} : listed start (oneBlock start) x ↔ x=⟨MAX_ORDER-1,0⟩ := by
  rw [listed,oneBlock_freeList]
  constructor
  · intro hmem
    split at hmem
    · rename_i ho
      have haddr := List.mem_singleton.mp hmem
      have hindex : x.index*blockSize x.order=0 := Nat.add_left_cancel haddr
      refine Block.ext ho ?_
      exact (Nat.mul_eq_zero.mp hindex).resolve_right (blockSize_pos _).ne'
    · contradiction
  · rintro rfl
    simp [blockAddr]

/-- The state with one free block of the highest order and no live one is well
formed. -/
theorem wellFormed_oneBlock {start : ℕ} (hstart : MAX_BUDDY_SIZE∣start)
    (hlimit : start+MAX_BUDDY_SIZE<2^32) :
    WellFormed start 1 (oneBlock start) fun _ => False := by
  have howned : ∀ y,Owned start (oneBlock start) (fun _ => False) y → y=⟨MAX_ORDER-1,0⟩ :=
    fun y hy => listed_oneBlock.mp (hy.resolve_right id)
  refine ⟨hstart,by omega,fun order _ => oneBlock_counted _ _,?_,?_,?_,fun _ => False.elim,
    fun _ _ => id,?_,?_,?_,?_⟩
  · intro order _ addr ha
    rw [oneBlock_freeList] at ha
    split at ha
    · subst order
      obtain rfl := List.mem_singleton.mp ha
      exact ⟨Nat.le_refl _,hstart⟩
    · contradiction
  · intro order _
    rw [oneBlock_freeList]
    split
    · exact List.nodup_singleton _
    · exact List.nodup_nil
  · intro y _ hy
    obtain rfl := howned y hy
    exact ⟨0,Nat.one_pos,Block.within_refl _⟩
  · intro y z _ _ hy hz _
    rw [howned y hy,howned z hz]
  · rintro y - ⟨root,hroot,hin⟩
    obtain rfl : root=0 := by omega
    exact ⟨_,by norm_num,Or.inl (listed_oneBlock.mpr rfl),hin⟩
  · rintro y ⟨root,hroot,hin⟩
    have hclear : ¬marked start (oneBlock start) y := by simp [marked,oneBlock,bitAt]
    refine iff_of_false hclear ?_
    rintro (hlive|⟨z,hz,hzy,hne⟩)
    · exact hlive
    · obtain rfl := howned z hz
      exact hne (hzy.eq_of_order (le_antisymm hzy.1 hin.1))
  · intro y ho hy
    obtain rfl := listed_oneBlock.mp hy
    exact absurd ho (lt_irrefl _)

/-- Three frames taken from one block of the highest order and given back. -/
theorem buddyFreeFrames_oneBlock : ∃ r addr,buddyAllocFrames (oneBlock 0x400000) 1 3=some r ∧
    r.addrs=[addr] ∧ buddyFreeFrames r.buddy addr 3=some (oneBlock 0x400000) := by
  have hserved : (buddyAllocFrames (oneBlock 0x400000) 1 3).any (fun r => r.ret=0)=true := by
    decide
  obtain ⟨r,hr,hret⟩ := (Option.any_eq_true _ _).mp hserved
  obtain ⟨addr,haddrs,hfree⟩ := buddyFreeFrames_buddyAllocFrames
    (wellFormed_oneBlock (by norm_num) (by norm_num)) (by norm_num) (by norm_num) (by norm_num) hr
    (of_decide_eq_true hret)
  exact ⟨r,addr,hr,haddrs,hfree⟩

end XanaduOS.BuddyUndo
