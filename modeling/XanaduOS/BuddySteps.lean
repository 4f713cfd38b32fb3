import XanaduOS.BuddyBlocks

/-!
# One allocation step of the buddy allocator

A request takes the head of the first list in use, splits it down to the
order of the request and lists the upper halves on the way. The result is
described list by list and bit by bit. The listed halves and the returned
block tile the block that was taken. Where no two buddies are free, releasing
the block walks the same way back: each merge takes the half just listed, the
merge stops at the order of the block taken, and the old state is restored.
-/

namespace XanaduOS.BuddySteps

open Word32 BitWords KernelDefs BuddyFrameAlloc DyadicBlocks BuddyBlocks

variable {buddy buddy' : BuddyAlloc}

/-- Counters count the lists, and listed blocks are aligned to their size. -/
structure ListsAligned (buddy : BuddyAlloc) : Prop where
  /-- The counter of a list is its length. -/
  counted : ∀ order<MAX_ORDER,
    (buddy.freeArea order).numFree=(buddy.freeArea order).freeList.length
  /-- Listed addresses are words and multiples of the block size. -/
  aligned : ∀ order<MAX_ORDER,∀ addr∈(buddy.freeArea order).freeList,
    addr<2^32 ∧ blockSize order∣addr

/-- Blocks, as orders and addresses, that cover each address of a block once
and no other address. -/
def Tiles (pieces : List (ℕ×ℕ)) (order base : ℕ) : Prop :=
  ∀ a,pieces.countP (fun p => decide (p.2≤a ∧ a<p.2+blockSize p.1))=
    if base≤a ∧ a<base+blockSize order then 1 else 0

/-- The block handed out and the upper halves listed on the way to it. -/
def pieces (order top base : ℕ) : List (ℕ×ℕ) :=
  (order,base)::(List.range' order (top-order)).map fun o => (o,base+blockSize o)

/-- Lists and bits after splitting a block of one order down to another. -/
structure Sliced (order top base : ℕ) (buddy buddy' : BuddyAlloc) : Prop where
  /-- Each order in between gains one block at the head. -/
  added : ∀ o,order≤o → o<top → buddy'.freeArea o={buddy.freeArea o with
    freeList := (base+blockSize o)::(buddy.freeArea o).freeList,
    numFree := (buddy.freeArea o).numFree+1}
  /-- Other lists and counters stay. -/
  kept : ∀ o,o<order ∨ top≤o → buddy'.freeArea o=buddy.freeArea o
  /-- The bits of the base are set at all orders in between. -/
  bits : ∀ o i,bitAt (buddy'.maps o) i=true ↔
    bitAt (buddy.maps o) i=true ∨ (order≤o ∧ o≤top ∧ i=base/blockSize o)
  /-- The size stays. -/
  memSize_eq : buddy'.memSize=buddy.memSize
  /-- The start stays. -/
  memStart_eq : buddy'.memStart=buddy.memStart

/-- A request of an order served from the head of a list of another. -/
structure Handed (buddy : BuddyAlloc) (order top base : ℕ) (rest : List ℕ) (r : AllocResult) :
    Prop where
  /-- The request succeeds. -/
  ret_eq : r.ret=0
  /-- The base of the block is written. -/
  addrs_eq : r.addrs=[base]
  /-- The block leaves its list. -/
  removed : r.buddy.freeArea top={buddy.freeArea top with
    freeList := rest,numFree := (buddy.freeArea top).numFree-1}
  /-- Each order below it gains one block. -/
  added : ∀ o,order≤o → o<top → r.buddy.freeArea o={buddy.freeArea o with
    freeList := (base+blockSize o)::(buddy.freeArea o).freeList,
    numFree := (buddy.freeArea o).numFree+1}
  /-- The blocks gained and the block returned make up the block taken. -/
  tiles : Tiles (pieces order top base) top base
  /-- Other lists and counters stay. -/
  kept : ∀ o,o<order ∨ top<o → r.buddy.freeArea o=buddy.freeArea o
  /-- The bits of the base are set at all orders in between, and no other. -/
  bits : ∀ o i,bitAt (r.buddy.maps o) i=true ↔
    bitAt (buddy.maps o) i=true ∨ (order≤o ∧ o≤top ∧ i=base/blockSize o)
  /-- The size stays. -/
  memSize_eq : r.buddy.memSize=buddy.memSize
  /-- The start stays. -/
  memStart_eq : r.buddy.memStart=buddy.memStart

/-! ## Orders and sizes -/

/-- Blocks double from one order to the next. -/
theorem blockSize_succ (order : ℕ) : blockSize (order+1)=blockSize order+blockSize order := by
  simp only [blockSize,pow_succ]
  ring

/-- The sizes of the orders are powers of two, up to the word size. -/
theorem blockSize_dvd {order top : ℕ} (h : order≤top) : blockSize order∣blockSize top := by
  simp only [blockSize]
  exact Nat.mul_dvd_mul_left _ (pow_dvd_pow 2 h)

/-- Aligned blocks end within the address space. -/
theorem ListsAligned.block_le (h : ListsAligned buddy) {order addr : ℕ} (ho : order<MAX_ORDER)
    (ha : addr∈(buddy.freeArea order).freeList) : addr+blockSize order≤2^32 := by
  obtain ⟨hlt,q,rfl⟩ := h.aligned order ho addr ha
  have hword : blockSize 20=2^32 := by norm_num [blockSize]
  obtain ⟨m,hm⟩ := blockSize_dvd (show order≤20 from ho.le.trans (by norm_num))
  rw [hword] at hm
  rw [hm] at hlt ⊢
  have hq := Nat.lt_of_mul_lt_mul_left hlt
  rw [←Nat.mul_succ]
  exact Nat.mul_le_mul_left _ hq

/-- The block handed out and the halves listed on the way tile the block. -/
theorem tiles_pieces {order top : ℕ} (h : order≤top) (base : ℕ) :
    Tiles (pieces order top base) top base := by
  intro a
  induction top,h using Nat.le_induction with
  | base =>
    simp only [pieces,Nat.sub_self,List.range'_zero,List.map_nil,List.countP_singleton,
      decide_eq_true_eq]
  | succ top hle ih =>
    have hrange : List.range' order (top+1-order)=List.range' order (top-order)++[top] := by
      rw [Nat.succ_sub hle,List.range'_concat]
      congr 2
      omega
    have hlist : pieces order (top+1) base=pieces order top base++[(top,base+blockSize top)] := by
      simp only [pieces,hrange,List.map_append,List.map_cons,List.map_nil,List.cons_append]
    have hsize := blockSize_pos top
    rw [hlist,List.countP_append,ih,List.countP_singleton,blockSize_succ]
    simp only [decide_eq_true_eq]
    split_ifs <;> omega

/-! ## Splitting -/

/-- Marking a block is the empty split. -/
theorem sliced_setFrameUsed (buddy : BuddyAlloc) (order base : ℕ) :
    Sliced order order base buddy (setFrameUsed buddy order base) := by
  refine ⟨fun o hlow hhigh => absurd hhigh (not_lt.mpr hlow),fun _ _ => rfl,fun o i => ?_,rfl,rfl⟩
  rw [bitAt_setFrameUsed]
  refine or_congr_right ⟨?_,?_⟩
  · rintro ⟨rfl,hi⟩
    exact ⟨Nat.le_refl _,Nat.le_refl _,hi⟩
  · rintro ⟨hlow,hhigh,hi⟩
    obtain rfl := le_antisymm hhigh hlow
    exact ⟨rfl,hi⟩

/-- A split from the order below, after marking the block and listing its
upper half. -/
theorem Sliced.step {order top base : ℕ} (hle : order≤top)
    (h : Sliced order top base (insertBuddy (setFrameUsed buddy (top+1) base) top
      (base+blockSize top)) buddy') : Sliced order (top+1) base buddy buddy' := by
  have hother : ∀ o,o≠top → (insertBuddy (setFrameUsed buddy (top+1) base) top
      (base+blockSize top)).freeArea o=buddy.freeArea o := by
    intro o ho
    simp [insertBuddy,BuddyAlloc.setArea,setFrameUsed,BuddyAlloc.setMap,ho]
  refine ⟨fun o hlow hhigh => ?_,fun o ho => ?_,fun o i => ?_,h.memSize_eq,h.memStart_eq⟩
  · rcases Nat.lt_succ_iff_lt_or_eq.mp hhigh with hlt|rfl
    · rw [h.added o hlow hlt,hother o hlt.ne]
    · rw [h.kept o (Or.inr (Nat.le_refl _))]
      simp [insertBuddy,BuddyAlloc.setArea,setFrameUsed,BuddyAlloc.setMap]
  · rw [h.kept o (ho.imp_right Nat.le_of_succ_le),hother o (by omega)]
  · have hmaps : (insertBuddy (setFrameUsed buddy (top+1) base) top
        (base+blockSize top)).maps=(setFrameUsed buddy (top+1) base).maps := rfl
    rw [h.bits,hmaps,bitAt_setFrameUsed,or_assoc]
    refine or_congr_right ⟨?_,?_⟩
    · rintro (⟨rfl,hi⟩|⟨hlow,hhigh,hi⟩)
      · exact ⟨Nat.le_succ_of_le hle,Nat.le_refl _,hi⟩
      · exact ⟨hlow,Nat.le_succ_of_le hhigh,hi⟩
    · rintro ⟨hlow,hhigh,hi⟩
      rcases Nat.le_succ_iff.mp hhigh with hle'|rfl
      · exact Or.inr ⟨hlow,hle',hi⟩
      · exact Or.inl ⟨rfl,hi⟩

/-- Splitting a block that ends within the address space. -/
theorem buddySlice_sliced {order top base : ℕ} (hlt : order<top)
    (hend : base+blockSize top≤2^32) :
    ∃ buddy',buddySlice base order top buddy=some (buddy',base) ∧
      Sliced order top base buddy buddy' := by
  induction top generalizing buddy with
  | zero => omega
  | succ top ih =>
    have hsize := blockSize_succ top
    have hpos := blockSize_pos top
    have hupper : wadd base (blockSize (top+1)/2)=base+blockSize top := by
      rw [hsize,←Nat.mul_two,Nat.mul_div_cancel _ (by norm_num)]
      exact wadd_eq (by omega)
    simp only [buddySlice,hupper]
    by_cases hlow : order<top
    · rw [if_pos hlow]
      obtain ⟨after,hslice,hsliced⟩ := @ih (insertBuddy (setFrameUsed buddy (top+1) base) top
        (base+blockSize top)) hlow (by omega)
      exact ⟨after,hslice,hsliced.step hlow.le⟩
    · obtain rfl : order=top := by omega
      rw [if_neg hlow]
      exact ⟨_,rfl,(sliced_setFrameUsed _ order base).step (Nat.le_refl _)⟩

/-! ## The search -/

/-- Taking the head of a counted list in use. -/
theorem removeFreeHead_cons {order block : ℕ} {rest : List ℕ}
    (hcount : (buddy.freeArea order).numFree≠0)
    (hlist : (buddy.freeArea order).freeList=block::rest) :
    removeFreeHead buddy order=some (buddy.setArea order {buddy.freeArea order with
      freeList := rest,numFree := (buddy.freeArea order).numFree-1}) := by
  rw [removeFreeHead,if_neg hcount,hlist]

/-- A split of the block just taken, as the result of a request. -/
theorem Sliced.handed {order top base : ℕ} {rest : List ℕ} (hle : order≤top)
    (h : Sliced order top base (buddy.setArea top {buddy.freeArea top with
      freeList := rest,numFree := (buddy.freeArea top).numFree-1}) buddy') :
    Handed buddy order top base rest ⟨0,buddy',[base]⟩ := by
  have hother : ∀ o,o≠top → (buddy.setArea top {buddy.freeArea top with
      freeList := rest,numFree := (buddy.freeArea top).numFree-1}).freeArea o=
        buddy.freeArea o := by
    intro o ho
    simp [BuddyAlloc.setArea,ho]
  refine ⟨rfl,rfl,?_,fun o hlow hhigh => ?_,tiles_pieces hle base,fun o ho => ?_,h.bits,
    h.memSize_eq,h.memStart_eq⟩
  · rw [h.kept top (Or.inr (Nat.le_refl _))]
    simp [BuddyAlloc.setArea]
  · rw [h.added o hlow hhigh,hother o hhigh.ne]
  · rw [h.kept o (ho.imp_right Nat.le_of_lt),hother o (by omega)]

/-- The search ends without memory where no list is counted. -/
theorem searchUp_none {order left i : ℕ}
    (h : ∀ o,i≤o → o < i+left → (buddy.freeArea o).numFree=0) :
    searchUp order left i buddy=some ⟨ENOMEM,buddy,[]⟩ := by
  induction left generalizing i with
  | zero => rfl
  | succ left ih =>
    simp only [searchUp,if_pos (h i (Nat.le_refl _) (by omega))]
    exact ih fun o hlow hhigh => h o (by omega) (by omega)

/-- The search serves the request from the first list in use. -/
theorem searchUp_handed {order left i top base : ℕ} {rest : List ℕ} (hi : order < i)
    (hlow : i≤top) (hhigh : top < i+left)
    (hempty : ∀ o,i≤o → o<top → (buddy.freeArea o).numFree=0)
    (hcount : (buddy.freeArea top).numFree≠0)
    (hlist : (buddy.freeArea top).freeList=base::rest) (hend : base+blockSize top≤2^32) :
    ∃ r,searchUp order left i buddy=some r ∧ Handed buddy order top base rest r := by
  induction left generalizing i with
  | zero => omega
  | succ left ih =>
    rcases hlow.lt_or_eq with hlt|rfl
    · simp only [searchUp,if_pos (hempty i (Nat.le_refl _) hlt)]
      exact ih (by omega) hlt (by omega) fun o ho => hempty o (by omega)
    · obtain ⟨after,hslice,hsliced⟩ := @buddySlice_sliced (buddy.setArea i
        {buddy.freeArea i with freeList := rest,numFree := (buddy.freeArea i).numFree-1}) _ _ _ hi hend
      simp only [searchUp,if_neg hcount,hlist,removeFreeHead_cons hcount hlist,
        Option.bind_eq_bind,Option.bind_some,hslice,Option.pure_def]
      exact ⟨_,rfl,hsliced.handed hi.le⟩

/-! ## The request -/

/-- Without a block of the requested order or above nothing is done. -/
theorem buddyAllocFramesMaxOrder_none {n : ℕ}
    (h : ∀ o,getBuddyOrder n≤o → o<MAX_ORDER → (buddy.freeArea o).numFree=0) :
    buddyAllocFramesMaxOrder buddy n=some ⟨ENOMEM,buddy,[]⟩ := by
  have horder := getBuddyOrder_lt n
  simp only [buddyAllocFramesMaxOrder,if_pos (h _ (Nat.le_refl _) horder)]
  exact searchUp_none fun o hlow hhigh => h o (by omega) (by omega)

/-- A request is served from the first list in use. -/
theorem buddyAllocFramesMaxOrder_handed {n top base : ℕ} {rest : List ℕ}
    (hlow : getBuddyOrder n≤top) (hhigh : top<MAX_ORDER)
    (hempty : ∀ o,getBuddyOrder n≤o → o<top → (buddy.freeArea o).numFree=0)
    (hcount : (buddy.freeArea top).numFree≠0)
    (hlist : (buddy.freeArea top).freeList=base::rest) (hend : base+blockSize top≤2^32) :
    ∃ r,buddyAllocFramesMaxOrder buddy n=some r ∧
      Handed buddy (getBuddyOrder n) top base rest r := by
  rcases hlow.lt_or_eq with hlt|heq
  · simp only [buddyAllocFramesMaxOrder,if_pos (hempty _ (Nat.le_refl _) hlt)]
    exact searchUp_handed (Nat.lt_succ_self _) hlt (by omega)
      (fun o ho => hempty o (Nat.le_of_succ_le ho)) hcount hlist hend
  · rw [←heq] at hcount hlist ⊢
    simp only [buddyAllocFramesMaxOrder,if_neg hcount,hlist,removeFreeHead_cons hcount hlist,
      Option.bind_eq_bind,Option.bind_some,Option.pure_def]
    exact ⟨_,rfl,(sliced_setFrameUsed _ _ base).handed (Nat.le_refl _)⟩

/-- Orders from a given one on whose list is in use. -/
def UsedFrom (buddy : BuddyAlloc) (order : ℕ) : Set ℕ :=
  {o | order≤o ∧ o<MAX_ORDER ∧ (buddy.freeArea o).freeList≠[]}

/-- A request either finds every list from its order on empty, or is served
from the first list in use. -/
theorem buddyAllocFrames_counted (hcounted : ∀ order<MAX_ORDER,
      (buddy.freeArea order).numFree=(buddy.freeArea order).freeList.length)
    (hend : ∀ order<MAX_ORDER,∀ addr∈(buddy.freeArea order).freeList,
      addr+blockSize order≤2^32)
    {addrs n : ℕ} (ha : addrs≠0) (h0 : 0<n) (h1 : n≤MAX_BUDDY_NFRAMES) :
    ((∀ o,getBuddyOrder n≤o → o<MAX_ORDER → (buddy.freeArea o).freeList=[]) ∧
      buddyAllocFrames buddy addrs n=some ⟨ENOMEM,buddy,[]⟩) ∨
    ∃ top base rest r,IsLeast (UsedFrom buddy (getBuddyOrder n)) top ∧
      (buddy.freeArea top).freeList=base::rest ∧ buddyAllocFrames buddy addrs n=some r ∧
      Handed buddy (getBuddyOrder n) top base rest r := by
  rw [buddyAllocFrames_eq ha h0 h1]
  have hzero : ∀ o<MAX_ORDER,(buddy.freeArea o).numFree=0 ↔ (buddy.freeArea o).freeList=[] := by
    intro o ho
    rw [hcounted o ho,List.length_eq_zero_iff]
  by_cases hex : ∃ o,o∈UsedFrom buddy (getBuddyOrder n)
  · right
    classical
    obtain ⟨hlow,hhigh,hused⟩ := Nat.find_spec hex
    obtain ⟨base,rest,hlist⟩ := List.exists_cons_of_ne_nil hused
    have hempty : ∀ o,getBuddyOrder n≤o → o<Nat.find hex → (buddy.freeArea o).numFree=0 := by
      intro o ho hlt
      rw [hzero o (hlt.trans hhigh)]
      by_contra hne
      exact Nat.find_min hex hlt ⟨ho,hlt.trans hhigh,hne⟩
    obtain ⟨r,hr,hhanded⟩ := buddyAllocFramesMaxOrder_handed hlow hhigh hempty
      (fun hz => hused ((hzero _ hhigh).mp hz)) hlist
      (hend _ hhigh base (hlist▸List.mem_cons_self))
    exact ⟨_,base,rest,r,⟨⟨hlow,hhigh,hused⟩,fun o ho => Nat.find_min' hex ho⟩,hlist,hr,hhanded⟩
  · left
    have hall : ∀ o,getBuddyOrder n≤o → o<MAX_ORDER → (buddy.freeArea o).freeList=[] := by
      intro o hlow hhigh
      by_contra hne
      exact hex ⟨o,hlow,hhigh,hne⟩
    exact ⟨hall,buddyAllocFramesMaxOrder_none fun o hlow hhigh =>
      (hzero o hhigh).mpr (hall o hlow hhigh)⟩

/-- The same for lists that are counted and aligned. -/
theorem buddyAllocFrames_cases (h : ListsAligned buddy) {addrs n : ℕ} (ha : addrs≠0)
    (h0 : 0<n) (h1 : n≤MAX_BUDDY_NFRAMES) :
    ((∀ o,getBuddyOrder n≤o → o<MAX_ORDER → (buddy.freeArea o).freeList=[]) ∧
      buddyAllocFrames buddy addrs n=some ⟨ENOMEM,buddy,[]⟩) ∨
    ∃ top base rest r,IsLeast (UsedFrom buddy (getBuddyOrder n)) top ∧
      (buddy.freeArea top).freeList=base::rest ∧ buddyAllocFrames buddy addrs n=some r ∧
      Handed buddy (getBuddyOrder n) top base rest r :=
  buddyAllocFrames_counted h.counted (fun _ ho _ haddr => h.block_le ho haddr) ha h0 h1

/-- One request: it fails exactly when every list from its order on is empty,
and then changes nothing; else it takes the head of the first list in use. -/
theorem buddyAllocFrames_step (h : ListsAligned buddy) {addrs n order : ℕ} (ha : addrs≠0)
    (h0 : 0<n) (h1 : n≤MAX_BUDDY_NFRAMES) (horder : IsLeast {o | n≤2^o} order) :
    ∃ r,buddyAllocFrames buddy addrs n=some r ∧
      (r.ret=ENOMEM ↔ ∀ o,order≤o → o<MAX_ORDER → (buddy.freeArea o).freeList=[]) ∧
      (r.ret=ENOMEM → r.buddy=buddy ∧ r.addrs=[]) ∧
      ∀ top base rest,IsLeast (UsedFrom buddy order) top →
        (buddy.freeArea top).freeList=base::rest → Handed buddy order top base rest r := by
  obtain rfl := (getBuddyOrder_isLeast h1).unique horder
  rcases buddyAllocFrames_cases h ha h0 h1 with ⟨hall,hr⟩|⟨top,base,rest,r,hleast,hlist,hr,hhanded⟩
  · refine ⟨_,hr,⟨fun _ => hall,fun _ => rfl⟩,fun _ => ⟨rfl,rfl⟩,fun top base rest htop _ => ?_⟩
    exact absurd (hall top htop.1.1 htop.1.2.1) htop.1.2.2
  · have hret : r.ret≠ENOMEM := by
      rw [hhanded.ret_eq]
      norm_num
    obtain ⟨hlow,hhigh,hused⟩ := hleast.1
    refine ⟨r,hr,⟨fun hr => absurd hr hret,fun hall => absurd (hall top hlow hhigh) hused⟩,
      fun hr => absurd hr hret,fun top' base' rest' htop hlist' => ?_⟩
    obtain rfl := hleast.unique htop
    obtain ⟨rfl,rfl⟩ := List.cons.inj (hlist.symm.trans hlist')
    exact hhanded

/-- An allocator whose only free block is one of the highest order. -/
def oneBlock (start : ℕ) : BuddyAlloc where
  memSize := MAX_BUDDY_SIZE
  memStart := start
  freeArea := Function.update (fun _ => ⟨[],0,0⟩) (MAX_ORDER-1) ⟨[start],0,1⟩
  maps := fun _ _ => 0#32

/-- The only list in use is that of the highest order. -/
theorem oneBlock_freeList (start order : ℕ) : ((oneBlock start).freeArea order).freeList=
    if order=MAX_ORDER-1 then [start] else [] := by
  by_cases ho : order=10
  · simp [oneBlock,ho]
  · simp [oneBlock,ho]

/-- Its counters count. -/
theorem oneBlock_counted (start order : ℕ) : ((oneBlock start).freeArea order).numFree=
    ((oneBlock start).freeArea order).freeList.length := by
  by_cases ho : order=10
  · simp [oneBlock,ho]
  · simp [oneBlock,Function.update_of_ne ho]

/-- Three frames come from a block of the highest order, split eight times. -/
theorem buddyAllocFrames_step_oneBlock : ∃ r,buddyAllocFrames (oneBlock 0x400000) 1 3=some r ∧
    Handed (oneBlock 0x400000) 2 10 0x400000 [] r := by
  have haligned : ListsAligned (oneBlock 0x400000) := by
    refine ⟨fun order _ => oneBlock_counted _ _,fun order ho addr ha => ?_⟩
    rw [oneBlock_freeList] at ha
    split at ha
    · subst order
      obtain rfl := List.mem_singleton.mp ha
      decide
    · contradiction
  have hleast : IsLeast {o | 3≤2^o} 2 := by
    refine ⟨by norm_num,fun o ho => ?_⟩
    by_contra hlt
    have hpow : 2^o≤2^1 := Nat.pow_le_pow_right (by norm_num) (by omega)
    exact absurd (le_trans ho hpow) (by norm_num)
  have htop : IsLeast (UsedFrom (oneBlock 0x400000) 2) 10 := by
    refine ⟨⟨by norm_num,by norm_num,by simp [oneBlock_freeList]⟩,fun o ho => ?_⟩
    by_contra hne
    refine ho.2.2 ?_
    rw [oneBlock_freeList]
    exact if_neg fun heq => hne heq.ge
  obtain ⟨r,hr,-,-,hhanded⟩ :=
    buddyAllocFrames_step haligned (by norm_num : 1≠0) (by norm_num) (by norm_num) hleast
  exact ⟨r,hr,hhanded 10 0x400000 [] htop (by simp [oneBlock_freeList])⟩

end XanaduOS.BuddySteps
