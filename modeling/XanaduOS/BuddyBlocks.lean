import Mathlib.Algebra.BigOperators.Group.Finset.Basic
import Mathlib.Order.Bounds.Basic
import XanaduOS.BuddyFrameAlloc
import XanaduOS.DyadicBlocks

/-!
# Blocks of the buddy allocator

The free lists, the live blocks and the bitmaps form an ownership of dyadic
blocks, numbered from the start of the managed memory. Handing out a listed
block, splitting and releasing keep it. So does coalescing where a merge is of
a lower half with the neighbour that the bitmap names: this takes a start that
is a multiple of the merged block's size. Each of these moves also has its
effect on the number of free frames.
-/

namespace XanaduOS.BuddyBlocks

open Word32 BitWords KernelDefs BuddyFrameAlloc DyadicBlocks

/-- Address of a block, numbered from the start of the memory. -/
def blockAddr (start : ℕ) (x : Block) : ℕ := start+x.index*blockSize x.order

/-- A block on the free list of its order. -/
def listed (start : ℕ) (buddy : BuddyAlloc) (x : Block) : Prop :=
  blockAddr start x∈(buddy.freeArea x.order).freeList

/-- A block whose bit is set. Bits are numbered from address zero. -/
def marked (start : ℕ) (buddy : BuddyAlloc) (x : Block) : Prop :=
  bitAt (buddy.maps x.order) (start/blockSize x.order+x.index)=true

/-- A free list of whole blocks, each once, with a correct counter. -/
structure AreaValid (start order : ℕ) (area : FreeArea) : Prop where
  /-- Listed addresses are multiples of the block size behind the start. -/
  aligned : ∀ addr∈area.freeList,start≤addr ∧ blockSize order∣addr-start
  /-- No address is listed twice. -/
  nodup : area.freeList.Nodup
  /-- The counter counts. -/
  counted : area.numFree=area.freeList.length

/-- The free lists and bitmaps own the blocks of the highest order together
with the live blocks. -/
structure BuddyInvariant (start roots : ℕ) (buddy : BuddyAlloc) (live : Block → Prop) : Prop where
  /-- Lists, live blocks and bits agree. -/
  own : Ownership (MAX_ORDER-1) (fun root => root < roots) (listed start buddy) live
    (marked start buddy)
  /-- Every free area is valid. -/
  area : ∀ order,AreaValid start order (buddy.freeArea order)
  /-- The memory ends below the last word. -/
  limit : start+roots*MAX_BUDDY_SIZE<2^32

variable {start roots : ℕ} {buddy : BuddyAlloc} {live : Block → Prop}

/-- The bit of a block's address. -/
theorem blockAddr_div (x : Block) :
    blockAddr start x/blockSize x.order=start/blockSize x.order+x.index :=
  Nat.add_mul_div_right _ _ (blockSize_pos _)

/-- Order and address determine the block. -/
theorem blockAddr_inj {x y : Block} (ho : x.order=y.order)
    (h : blockAddr start x=blockAddr start y) : x=y := by
  refine Block.ext ho (Nat.add_left_cancel (n:=start/blockSize x.order) ?_)
  rw [←blockAddr_div x,h,ho,←blockAddr_div y]

/-- An aligned address is the address of a block. -/
theorem blockAddr_mk {order addr : ℕ} (h : start≤addr ∧ blockSize order∣addr-start) :
    blockAddr start ⟨order,(addr-start)/blockSize order⟩=addr := by
  rw [blockAddr,Nat.div_mul_cancel h.2,Nat.add_sub_cancel' h.1]

/-- An aligned address is the address of a block. -/
theorem exists_block {order addr : ℕ} (h : start≤addr ∧ blockSize order∣addr-start) :
    ∃ x : Block,x.order=order ∧ blockAddr start x=addr :=
  ⟨⟨order,(addr-start)/blockSize order⟩,rfl,blockAddr_mk h⟩

/-- Bytes of a block in units of the smallest one. -/
theorem blockAddr_first (x : Block) : blockAddr start x=start+PAGE_SIZE*x.first := by
  simp only [blockAddr,Block.first,blockSize]
  ring

/-- A block whose root is of the memory ends within the memory. -/
theorem blockAddr_end_le {x : Block} (ho : x.order≤10) (h : x.index/2^(10-x.order) < roots) :
    blockAddr start x+blockSize x.order ≤ start+roots*MAX_BUDDY_SIZE := by
  have hpos := Nat.two_pow_pos (10-x.order)
  have hsize : MAX_BUDDY_SIZE=2^(10-x.order)*blockSize x.order := by
    have hpow : 2^(10-x.order)*2^x.order=2^10 := by
      rw [←pow_add]
      congr 1
      omega
    calc MAX_BUDDY_SIZE=PAGE_SIZE*2^10 := by norm_num
      _=2^(10-x.order)*blockSize x.order := by rw [←hpow,blockSize]; ring
  rw [Nat.div_lt_iff_lt_mul hpos] at h
  rw [hsize,←Nat.mul_assoc,blockAddr,Nat.add_assoc,←Nat.succ_mul]
  exact Nat.add_le_add_left (Nat.mul_le_mul_right _ h) start

/-- Owned blocks lie within the managed memory. -/
theorem BuddyInvariant.inside (h : BuddyInvariant start roots buddy live) {x : Block}
    (hx : listed start buddy x ∨ live x) : x.order<MAX_ORDER ∧ start≤blockAddr start x ∧
      blockAddr start x+blockSize x.order ≤ start+roots*MAX_BUDDY_SIZE := by
  obtain ⟨ho,hroot⟩ := h.own.inside x hx
  exact ⟨Nat.lt_succ_of_le ho,Nat.le_add_right _ _,blockAddr_end_le ho hroot⟩

/-! ## List and bitmap updates -/

/-- Lists after replacing one area. -/
theorem listed_setArea (buddy : BuddyAlloc) (order : ℕ) (area : FreeArea) (x : Block) :
    listed start (buddy.setArea order area) x ↔
      (x.order=order ∧ blockAddr start x∈area.freeList) ∨ (x.order≠order ∧ listed start buddy x) := by
  by_cases ho : x.order=order
  · simp [listed,BuddyAlloc.setArea,ho]
  · simp [listed,BuddyAlloc.setArea,ho]

/-- Lists after a push. -/
theorem listed_insertBuddy (buddy : BuddyAlloc) (x y : Block) :
    listed start (insertBuddy buddy x.order (blockAddr start x)) y ↔ listed start buddy y ∨ y=x := by
  rw [insertBuddy,listed_setArea]
  by_cases ho : y.order=x.order
  · simp only [ho,true_and,List.mem_cons,ne_eq,not_true_eq_false,false_and,or_false,listed]
    rw [or_comm]
    refine or_congr_right ⟨blockAddr_inj ho,fun heq => heq▸rfl⟩
  · have hne : y≠x := fun heq => ho (heq▸rfl)
    simp [ho,hne]

/-- Bits after marking a block. -/
theorem marked_setFrameUsed (buddy : BuddyAlloc) (x y : Block) :
    marked start (setFrameUsed buddy x.order (blockAddr start x)) y ↔ marked start buddy y ∨ y=x := by
  rw [marked,bitAt_setFrameUsed,blockAddr_div,Block.ext_iff]
  refine or_congr_right (and_congr_right fun ho => ?_)
  rw [ho,Nat.add_left_cancel_iff]

/-- Bits after unmarking a block. -/
theorem marked_setFrameUnused (buddy : BuddyAlloc) (x y : Block) :
    marked start (setFrameUnused buddy x.order (blockAddr start x)) y ↔ marked start buddy y ∧ y≠x := by
  rw [marked,bitAt_setFrameUnused,blockAddr_div,ne_eq,Block.ext_iff]
  refine and_congr_right fun _ => not_congr (and_congr_right fun ho => ?_)
  rw [ho,Nat.add_left_cancel_iff]

/-- Within its list an entry covers a block's address only by being it. -/
theorem BuddyInvariant.covers_iff (h : BuddyInvariant start roots buddy live) {x : Block}
    {entry : ℕ} (he : entry∈(buddy.freeArea x.order).freeList) :
    covers x.order (blockAddr start x) entry=true ↔ entry=blockAddr start x := by
  obtain ⟨y,ho,rfl⟩ := exists_block ((h.area x.order).aligned entry he)
  have hpos := blockSize_pos x.order
  have hmem : listed start buddy y := by
    rw [listed,ho]
    exact he
  have hend := (h.inside (Or.inl hmem)).2.2
  have hlimit := h.limit
  rw [ho] at hend
  rw [covers,decide_eq_true_iff,wadd_eq (by omega)]
  constructor
  · rintro ⟨hlt,hle⟩
    simp only [blockAddr,ho] at hlt hle
    have h0 : x.index*blockSize x.order<(y.index+1)*blockSize x.order := by
      rw [Nat.succ_mul]
      omega
    have h1 := Nat.lt_of_mul_lt_mul_right h0
    have h2 := Nat.le_of_mul_le_mul_right (Nat.le_of_add_le_add_left hle) hpos
    rw [Block.ext ho (show y.index=x.index by omega)]
  · intro heq
    rw [heq]
    omega

/-- Replacing one area by a valid one keeps all valid. -/
theorem areaValid_setArea {buddy : BuddyAlloc}
    (h : ∀ order,AreaValid start order (buddy.freeArea order)) {order : ℕ}
    {area : FreeArea} (ha : AreaValid start order area) (k : ℕ) :
    AreaValid start k ((buddy.setArea order area).freeArea k) := by
  by_cases hk : k=order
  · subst hk
    simpa [BuddyAlloc.setArea] using ha
  · simpa [BuddyAlloc.setArea,hk] using h k

/-- Pushing an unlisted block keeps the area valid. -/
theorem AreaValid.push {x : Block} {area : FreeArea} (h : AreaValid start x.order area)
    (hx : blockAddr start x∉area.freeList) : AreaValid start x.order
      {area with freeList := blockAddr start x::area.freeList,numFree := area.numFree+1} := by
  refine ⟨fun addr ha => ?_,List.nodup_cons.mpr ⟨hx,h.nodup⟩,by simp [h.counted]⟩
  rcases List.mem_cons.mp ha with rfl|ha
  · refine ⟨Nat.le_add_right _ _,?_⟩
    rw [blockAddr,Nat.add_sub_cancel_left]
    exact Nat.dvd_mul_left _ _
  · exact h.aligned addr ha

/-- Removing an entry keeps the area valid. -/
theorem AreaValid.erase {order addr : ℕ} {area : FreeArea} (h : AreaValid start order area)
    (ha : addr∈area.freeList) : AreaValid start order
      {area with freeList := area.freeList.erase addr,numFree := area.numFree-1} := by
  refine ⟨fun entry he => h.aligned entry (List.mem_of_mem_erase he),h.nodup.erase addr,?_⟩
  simp only [List.length_erase_of_mem ha,h.counted]

/-- Lists after removing an entry from a valid area. -/
theorem listed_erase {x : Block} (h : AreaValid start x.order (buddy.freeArea x.order)) (y : Block) :
    listed start (buddy.setArea x.order {buddy.freeArea x.order with
      freeList := (buddy.freeArea x.order).freeList.erase (blockAddr start x),
      numFree := (buddy.freeArea x.order).numFree-1}) y ↔ listed start buddy y ∧ y≠x := by
  rw [listed_setArea]
  by_cases ho : y.order=x.order
  · simp only [ho,true_and,ne_eq,not_true_eq_false,false_and,or_false,h.nodup.mem_erase_iff,listed]
    rw [and_comm]
    exact and_congr_right fun _ => not_congr ⟨blockAddr_inj ho,fun heq => heq▸rfl⟩
  · have hne : y≠x := fun heq => ho (heq▸rfl)
    simp [ho,hne]

/-! ## Free frames -/

/-- Frames of the blocks that the counters count. -/
def freeFrames (buddy : BuddyAlloc) : ℕ :=
  ∑ order∈Finset.range MAX_ORDER,(buddy.freeArea order).numFree*2^order

/-- Free frames after replacing one area. -/
theorem freeFrames_setArea (buddy : BuddyAlloc) {order : ℕ} (ho : order<MAX_ORDER)
    (area : FreeArea) : freeFrames (buddy.setArea order area)+
      (buddy.freeArea order).numFree*2^order=freeFrames buddy+area.numFree*2^order := by
  have hmem : order∈Finset.range MAX_ORDER := Finset.mem_range.mpr ho
  rw [freeFrames,freeFrames,←Finset.add_sum_erase _ _ hmem,←Finset.add_sum_erase _ _ hmem]
  have hrest : ∀ k∈(Finset.range MAX_ORDER).erase order,
      ((buddy.setArea order area).freeArea k).numFree*2^k=(buddy.freeArea k).numFree*2^k := by
    intro k hk
    simp [BuddyAlloc.setArea,Finset.ne_of_mem_erase hk]
  have hself : ((buddy.setArea order area).freeArea order).numFree=area.numFree := by
    simp [BuddyAlloc.setArea]
  rw [Finset.sum_congr rfl hrest,hself]
  ring

/-- A push frees the frames of its block. -/
theorem freeFrames_insertBuddy (buddy : BuddyAlloc) {order : ℕ} (ho : order<MAX_ORDER)
    (addr : ℕ) : freeFrames (insertBuddy buddy order addr)=freeFrames buddy+2^order := by
  have hset := freeFrames_setArea buddy ho {buddy.freeArea order with
    freeList := addr::(buddy.freeArea order).freeList,numFree := (buddy.freeArea order).numFree+1}
  simp only [Nat.succ_mul] at hset
  rw [insertBuddy]
  omega

/-- Counting one block less takes its frames. -/
theorem freeFrames_pred (buddy : BuddyAlloc) {order : ℕ} (ho : order<MAX_ORDER)
    (hcount : (buddy.freeArea order).numFree≠0) (rest : List ℕ) :
    freeFrames (buddy.setArea order {buddy.freeArea order with
      freeList := rest,numFree := (buddy.freeArea order).numFree-1})+2^order=freeFrames buddy := by
  obtain ⟨n,hn⟩ := Nat.exists_eq_succ_of_ne_zero hcount
  have hset := freeFrames_setArea buddy ho {buddy.freeArea order with
    freeList := rest,numFree := (buddy.freeArea order).numFree-1}
  simp only [hn,Nat.succ_sub_one,Nat.succ_mul] at hset ⊢
  omega

/-- Removing an entry takes the frames of its block. -/
theorem freeFrames_erase {order addr : ℕ} (ho : order<MAX_ORDER)
    (ha : AreaValid start order (buddy.freeArea order))
    (hmem : addr∈(buddy.freeArea order).freeList) :
    freeFrames (buddy.setArea order {buddy.freeArea order with
      freeList := (buddy.freeArea order).freeList.erase addr,
      numFree := (buddy.freeArea order).numFree-1})+2^order=freeFrames buddy := by
  refine freeFrames_pred buddy ho ?_ _
  rw [ha.counted]
  exact (List.length_pos_of_mem hmem).ne'

/-- Marking a block leaves the counters. -/
@[simp] theorem freeFrames_setFrameUsed (buddy : BuddyAlloc) (order addr : ℕ) :
    freeFrames (setFrameUsed buddy order addr)=freeFrames buddy := rfl

/-- Unmarking a block leaves the counters. -/
@[simp] theorem freeFrames_setFrameUnused (buddy : BuddyAlloc) (order addr : ℕ) :
    freeFrames (setFrameUnused buddy order addr)=freeFrames buddy := rfl

/-- Slicing frees all of the block but its lowest part of the target order. -/
theorem freeFrames_buddySlice {addr target level : ℕ} {buddy' : BuddyAlloc} {a : ℕ}
    (hlevel : level<MAX_ORDER) (ht : target<level)
    (h : buddySlice addr target level buddy=some (buddy',a)) :
    freeFrames buddy'+2^target=freeFrames buddy+2^level := by
  induction level generalizing buddy with
  | zero => omega
  | succ level ih =>
    have hpush := freeFrames_insertBuddy (setFrameUsed buddy (level+1) addr)
      (Nat.lt_of_succ_lt hlevel) (wadd addr (blockSize (level+1)/2))
    rw [freeFrames_setFrameUsed] at hpush
    have hpow : 2^(level+1)=2^level+2^level := by ring
    rw [buddySlice] at h
    split at h
    case isTrue hlt =>
      have hslice := ih (Nat.lt_of_succ_lt hlevel) hlt h
      omega
    case isFalse hge =>
      obtain rfl : target=level := by omega
      obtain ⟨rfl,-⟩ := Prod.mk.inj (Option.some.inj h)
      rw [freeFrames_setFrameUsed]
      omega

/-! ## One move -/

/-- Taking the head of a list and marking it. -/
theorem BuddyInvariant.take (h : BuddyInvariant start roots buddy live) {x : Block} {rest : List ℕ}
    (hx : (buddy.freeArea x.order).freeList=blockAddr start x::rest) :
    ∃ buddy',removeFreeHead buddy x.order=some buddy' ∧
      BuddyInvariant start roots (setFrameUsed buddy' x.order (blockAddr start x))
        (fun y => live y ∨ y=x) := by
  have hmem : listed start buddy x := by simp [listed,hx]
  have hcount : (buddy.freeArea x.order).numFree≠0 := by simp [(h.area x.order).counted,hx]
  have herase : rest=(buddy.freeArea x.order).freeList.erase (blockAddr start x) := by simp [hx]
  refine ⟨_,by rw [removeFreeHead,if_neg hcount,hx],?_,?_,h.limit⟩
  · refine h.own.take hmem (fun y => ?_) (fun _ => Iff.rfl) (marked_setFrameUsed _ x)
    rw [herase]
    exact listed_erase (h.area x.order) y
  · rw [herase]
    exact areaValid_setArea h.area ((h.area x.order).erase hmem)

/-- Splitting a live block into its listed upper and live lower half. -/
theorem BuddyInvariant.split (h : BuddyInvariant start roots buddy live) {y : Block}
    (hy : live y.parent) : BuddyInvariant start roots
      (setFrameUsed (insertBuddy buddy y.order (blockAddr start y.sibling)) y.order (blockAddr start y))
      (fun z => (live z ∧ z≠y.parent) ∨ z=y) := by
  have hsib : blockAddr start y.sibling∉(buddy.freeArea y.order).freeList := by
    intro hmem
    have hin : y.sibling.Within y.parent := y.sibling_parent▸y.sibling.within_parent
    have heq := h.own.apart y.sibling y.parent (Or.inl hmem) (Or.inr hy) hin
    exact y.sibling.parent_ne (y.sibling_parent.trans heq.symm)
  refine ⟨?_,?_,h.limit⟩
  · exact h.own.split hy (listed_insertBuddy buddy y.sibling) (fun _ => Iff.rfl)
      (marked_setFrameUsed _ y)
  · exact areaValid_setArea h.area (AreaValid.push (x:=y.sibling) (h.area y.order) hsib)

/-- Bits of the smaller blocks of the pairs that a start is a multiple of. -/
theorem start_even {order : ℕ} (h : blockSize (order+1)∣start) : start/blockSize order%2=0 := by
  obtain ⟨c,rfl⟩ := h
  have hdouble : blockSize (order+1)*c=2*c*blockSize order := by
    rw [blockSize,blockSize,pow_succ]
    ring
  rw [hdouble,Nat.mul_div_cancel _ (blockSize_pos order)]
  exact Nat.mul_mod_right 2 c

/-- The bit that the neighbour's is found by. -/
theorem buddyFrame_sibling (x : Block) (hstart : blockSize (x.order+1)∣start) :
    32*(addrToMapId x.order (blockAddr start x)).frameMap+
      buddyFrame (addrToMapId x.order (blockAddr start x)).frame=
        start/blockSize x.order+x.sibling.index := by
  obtain ⟨hflat,hlt⟩ := addrToMapId_flat x.order (blockAddr start x)
  rw [blockAddr_div] at hflat
  have heven := start_even hstart
  simp only [buddyFrame,Block.sibling]
  split <;> split <;> omega

/-- Whether the neighbour's bit is clear. -/
theorem neighbourFree_iff (buddy : BuddyAlloc) (x : Block)
    (hstart : blockSize (x.order+1)∣start) :
    neighbourFree buddy x.order (blockAddr start x)=true ↔ ¬marked start buddy x.sibling := by
  obtain ⟨-,hlt⟩ := addrToMapId_flat x.order (blockAddr start x)
  have hsib : x.sibling.order=x.order := rfl
  rw [neighbourFree,isFrameFree_iff (buddyFrame_lt hlt),marked,hsib,←buddyFrame_sibling x hstart,
    bitAt_mul_add _ (buddyFrame_lt hlt),Bool.not_eq_true]

/-- The address the neighbour is searched by. -/
theorem mapToAddr_sibling (x : Block) (hstart : blockSize (x.order+1)∣start) : mapToAddr x.order
    ⟨(addrToMapId x.order (blockAddr start x)).frameMap,
      buddyFrame (addrToMapId x.order (blockAddr start x)).frame⟩=
        blockAddr start x.sibling%2^32 := by
  have hdvd : blockSize x.order∣start := by
    refine dvd_trans ?_ hstart
    exact Nat.mul_dvd_mul_left _ (pow_dvd_pow 2 (Nat.le_succ _))
  rw [mapToAddr_flat,buddyFrame_sibling x hstart,Nat.add_mul,Nat.div_mul_cancel hdvd]
  rfl

/-- Unlinking an entry leaves the other lists. -/
theorem removeFreeFrame_freeArea {buddy' : BuddyAlloc} {order addr k : ℕ}
    (h : removeFreeFrame buddy order addr=some buddy') (hk : k≠order) :
    buddy'.freeArea k=buddy.freeArea k := by
  simp only [removeFreeFrame] at h
  split at h
  · rw [Option.some.inj h]
  · split at h
    · obtain rfl := Option.some.inj h
      exact Function.update_of_ne hk _ _
    · contradiction

/-- Erasing by a test that only one entry can meet. -/
theorem eraseP_eq_erase {l : List ℕ} {p : ℕ → Bool} {a : ℕ} (h : ∀ e∈l,p e=true ↔ e=a) :
    l.eraseP p=l.erase a := by
  induction l with
  | nil => rfl
  | cons e l ih =>
    have hl := ih fun e he => h e (List.mem_cons_of_mem _ he)
    have he := h e List.mem_cons_self
    by_cases hea : e=a
    · rw [List.eraseP_cons_of_pos (he.mpr hea),hea,List.erase_cons_head]
    · rw [List.eraseP_cons_of_neg fun hp => hea (he.mp hp),hl,List.erase_cons_tail (by simpa using hea)]

/-- Unlinking a listed address that only its own entry covers. -/
theorem removeFreeFrame_eq (buddy : BuddyAlloc) {order addr : ℕ}
    (ha : AreaValid start order (buddy.freeArea order))
    (hmem : addr∈(buddy.freeArea order).freeList)
    (hcovers : ∀ e∈(buddy.freeArea order).freeList,covers order addr e=true ↔ e=addr) :
    removeFreeFrame buddy order addr=some (buddy.setArea order {buddy.freeArea order with
      freeList := (buddy.freeArea order).freeList.erase addr,
      numFree := (buddy.freeArea order).numFree-1}) := by
  have hcount : (buddy.freeArea order).numFree≠0 := by
    rw [ha.counted]
    exact (List.length_pos_of_mem hmem).ne'
  have hany : (buddy.freeArea order).freeList.any (covers order addr)=true :=
    List.any_eq_true.mpr ⟨addr,hmem,(hcovers addr hmem).mpr rfl⟩
  simp only [removeFreeFrame,if_neg hcount,if_pos hany,eraseP_eq_erase hcovers]

/-- Merging a live block with its free neighbour. -/
theorem BuddyInvariant.merge (h : BuddyInvariant start roots buddy live) {x : Block} (hx : live x)
    (ho : x.order<MAX_ORDER-1) (hstart : blockSize (x.order+1)∣start)
    (hfree : neighbourFree (setFrameUnused buddy x.order (blockAddr start x)) x.order
      (blockAddr start x)=true) :
    (∃ e∈(buddy.freeArea x.order).freeList,covers x.order (mapToAddr x.order
        ⟨(addrToMapId x.order (blockAddr start x)).frameMap,
          buddyFrame (addrToMapId x.order (blockAddr start x)).frame⟩) e=true) ∧
    ∃ buddy',removeFreeFrame (setFrameUnused buddy x.order (blockAddr start x)) x.order
        (mapToAddr x.order ⟨(addrToMapId x.order (blockAddr start x)).frameMap,
          buddyFrame (addrToMapId x.order (blockAddr start x)).frame⟩)=some buddy' ∧
      buddy'.maps=(setFrameUnused buddy x.order (blockAddr start x)).maps ∧
      freeFrames buddy'+2^x.order=freeFrames buddy ∧
      BuddyInvariant start roots buddy' (fun y => (live y ∧ y≠x) ∨ y=x.parent) := by
  rw [neighbourFree_iff _ x hstart,marked_setFrameUnused] at hfree
  have hclear : ¬marked start buddy x.sibling := fun hm => hfree ⟨hm,x.sibling_ne⟩
  obtain ⟨hsib,hown⟩ := h.own.merge hx ho hclear
    (fun y => listed_erase (x:=x.sibling) (h.area x.order) y) (fun _ => Iff.rfl)
    (marked_setFrameUnused buddy x)
  have hend := (h.inside (Or.inl hsib)).2.2
  have hlimit := h.limit
  have hpos := blockSize_pos x.sibling.order
  have haddr : blockAddr start x.sibling%2^32=blockAddr start x.sibling :=
    Nat.mod_eq_of_lt (by omega)
  have hcovers : ∀ e∈(buddy.freeArea x.order).freeList,
      covers x.order (blockAddr start x.sibling) e=true ↔ e=blockAddr start x.sibling :=
    fun e he => h.covers_iff (x:=x.sibling) he
  rw [mapToAddr_sibling x hstart,haddr]
  refine ⟨⟨_,hsib,(hcovers _ hsib).mpr rfl⟩,_,
    removeFreeFrame_eq (setFrameUnused buddy x.order (blockAddr start x)) (h.area x.order)
      hsib hcovers,rfl,?_,hown,?_,h.limit⟩
  · exact freeFrames_erase (Nat.lt_of_lt_of_le ho (Nat.sub_le _ _)) (h.area x.order) hsib
  · exact areaValid_setArea h.area ((h.area x.order).erase hsib)

/-- Giving a live block back to its list. -/
theorem BuddyInvariant.give (h : BuddyInvariant start roots buddy live) {x : Block} (hx : live x) :
    BuddyInvariant start roots
      (insertBuddy (setFrameUnused buddy x.order (blockAddr start x)) x.order (blockAddr start x))
      (fun y => live y ∧ y≠x) := by
  refine ⟨?_,?_,h.limit⟩
  · exact h.own.give hx (listed_insertBuddy _ x) (fun _ => Iff.rfl) (marked_setFrameUnused buddy x)
  · have harea : ∀ order,AreaValid start order
        ((setFrameUnused buddy x.order (blockAddr start x)).freeArea order) := h.area
    exact areaValid_setArea harea ((h.area x.order).push fun hmem => h.own.notBoth x hmem hx)

/-- The invariant reads the live blocks as a set. -/
theorem BuddyInvariant.congr {live' : Block → Prop} (h : BuddyInvariant start roots buddy live)
    (hl : ∀ y,live y ↔ live' y) : BuddyInvariant start roots buddy live' := by
  rwa [←(funext fun y => propext (hl y) : live=live')]

/-! ## Requests -/

/-- Outcome of a request: nothing changed, or one new block of the order is
live. -/
def Served (start roots : ℕ) (buddy : BuddyAlloc) (live : Block → Prop) (order : ℕ)
    (r : AllocResult) : Prop :=
  (r.ret≠0 ∧ r.addrs=[] ∧ r.buddy=buddy) ∨
    ∃ z : Block,r.ret=0 ∧ z.order=order ∧ r.addrs=[blockAddr start z] ∧ ¬live z ∧
      BuddyInvariant start roots r.buddy (fun y => live y ∨ y=z)

/-- A half at the same start has the same address. -/
theorem blockAddr_lower {x : Block} (ho : 0<x.order) : blockAddr start x.lower=blockAddr start x := by
  have hpow : 2^x.order=2*2^(x.order-1) := by
    rw [←pow_succ']
    congr 1
    omega
  simp only [blockAddr,Block.lower,blockSize,hpow]
  ring

/-- The other half starts half a block later. -/
theorem blockAddr_upper {x : Block} (ho : 0<x.order) :
    blockAddr start x.upper=blockAddr start x+blockSize x.order/2 := by
  have hpow : 2^x.order=2*2^(x.order-1) := by
    rw [←pow_succ']
    congr 1
    omega
  have hhalf : blockSize x.order/2=blockSize (x.order-1) := by
    rw [blockSize,hpow,Nat.mul_left_comm,Nat.mul_div_cancel_left _ (by norm_num)]
  rw [hhalf]
  simp only [blockAddr,Block.upper,blockSize,hpow]
  ring

/-- One level of slicing: the upper half is listed, the lower half becomes
the live block. -/
theorem BuddyInvariant.slice_step {x : Block} (ho : 0<x.order) (hx : ¬live x)
    (h : BuddyInvariant start roots buddy (fun y => live y ∨ y=x)) :
    ¬live x.lower ∧ BuddyInvariant start roots
      (setFrameUsed (insertBuddy buddy x.lower.order (wadd (blockAddr start x) (blockSize x.order/2)))
        x.lower.order (blockAddr start x.lower)) (fun y => live y ∨ y=x.lower) := by
  have hparent : x.lower.parent=x := Block.lower_parent ho
  have hlower : x.lower.Within x := by
    have hin := x.lower.within_parent
    rwa [hparent] at hin
  have hne : x.lower≠x := fun heq => x.lower.parent_ne (hparent.trans heq.symm)
  have hend := (h.inside (x:=x) (Or.inr (Or.inr rfl))).2.2
  have hlimit := h.limit
  have hsize := blockSize_pos x.order
  have hupper : wadd (blockAddr start x) (blockSize x.order/2)=blockAddr start x.lower.sibling := by
    rw [Block.lower_sibling,blockAddr_upper ho]
    exact wadd_eq (by omega)
  refine ⟨fun hl => hne (h.own.apart _ _ (Or.inr (Or.inl hl)) (Or.inr (Or.inr rfl)) hlower),?_⟩
  rw [hupper]
  refine (h.split (y:=x.lower) (Or.inr hparent)).congr fun y => ?_
  rw [hparent]
  constructor
  · rintro (⟨hl|hl,hyx⟩|hl)
    · exact Or.inl hl
    · exact absurd hl hyx
    · exact Or.inr hl
  · rintro (hl|hl)
    · exact Or.inl ⟨Or.inl hl,fun heq => hx (heq▸hl)⟩
    · exact Or.inr hl

/-- Slicing a live block leaves its lowest part of the target order live. -/
theorem BuddyInvariant.slice {level target : ℕ} {x : Block} (ho : x.order=level+1)
    (ht : target≤level) (hx : ¬live x)
    (h : BuddyInvariant start roots (setFrameUsed buddy (level+1) (blockAddr start x))
      (fun y => live y ∨ y=x)) :
    ∃ buddy' z,buddySlice (blockAddr start x) target (level+1) buddy=some (buddy',blockAddr start z) ∧
      z.order=target ∧ ¬live z ∧ BuddyInvariant start roots buddy' (fun y => live y ∨ y=z) := by
  have hlower : ∀ {k} {x : Block},x.order=k+1 → x.lower.order=k := by
    intro k x hk
    simp only [Block.lower]
    omega
  induction level generalizing x buddy with
  | zero =>
    obtain ⟨hnew,hstep⟩ := h.slice_step (by omega) hx
    obtain rfl : target=0 := by omega
    have haddr : blockAddr start x.lower=blockAddr start x := blockAddr_lower (by omega)
    rw [ho,hlower ho,haddr] at hstep
    refine ⟨_,x.lower,?_,hlower ho,hnew,hstep⟩
    rw [buddySlice,if_neg (by omega),haddr]
  | succ level ih =>
    obtain ⟨hnew,hstep⟩ := h.slice_step (by omega) hx
    have haddr : blockAddr start x.lower=blockAddr start x := blockAddr_lower (by omega)
    rw [ho,hlower ho] at hstep
    rw [buddySlice]
    by_cases hlt : target<level+1
    · rw [if_pos hlt,←haddr]
      rw [←haddr] at hstep
      exact ih (hlower ho) (by omega) hnew hstep
    · obtain rfl : target=level+1 := by omega
      refine ⟨_,x.lower,?_,hlower ho,hnew,hstep⟩
      rw [if_neg hlt,haddr]

/-- Searching upwards from an order serves a block of the requested one. -/
theorem BuddyInvariant.searchUp (h : BuddyInvariant start roots buddy live) {order : ℕ}
    (left i : ℕ) (hi : order < i) : ∃ r,searchUp order left i buddy=some r ∧ Served start roots buddy live order r := by
  induction left generalizing i with
  | zero => exact ⟨_,rfl,Or.inl ⟨by norm_num,rfl,rfl⟩⟩
  | succ left ih =>
    rw [BuddyFrameAlloc.searchUp]
    by_cases hz : (buddy.freeArea i).numFree=0
    · simp only [if_pos hz]
      exact ih (i+1) (by omega)
    · simp only [if_neg hz]
      cases hlist : (buddy.freeArea i).freeList with
      | nil =>
        rw [(h.area i).counted,hlist] at hz
        contradiction
      | cons upper rest =>
        obtain ⟨x,ho,haddr⟩ := exists_block ((h.area i).aligned upper (by simp [hlist]))
        subst ho
        rw [←haddr] at hlist ⊢
        obtain ⟨taken,htake,hinv⟩ := h.take hlist
        have hx : ¬live x := h.own.notBoth x (by simp [listed,hlist])
        obtain ⟨k,hk⟩ : ∃ k,x.order=k+1 := ⟨x.order-1,by omega⟩
        rw [hk] at hinv
        obtain ⟨buddy',z,hslice,hzo,hz,hinv'⟩ := hinv.slice hk (by omega : order≤k) hx
        refine ⟨⟨0,buddy',[blockAddr start z]⟩,?_,Or.inr ⟨z,rfl,hzo,rfl,hz,hinv'⟩⟩
        simp only [htake,Option.bind_eq_bind,Option.bind_some]
        rw [hk,hslice]
        rfl

/-- A request for at most 1024 frames. -/
theorem BuddyInvariant.allocMaxOrder (h : BuddyInvariant start roots buddy live) (nframes : ℕ) :
    ∃ r,buddyAllocFramesMaxOrder buddy nframes=some r ∧
      Served start roots buddy live (getBuddyOrder nframes) r := by
  simp only [buddyAllocFramesMaxOrder]
  by_cases hz : (buddy.freeArea (getBuddyOrder nframes)).numFree=0
  · rw [if_pos hz]
    exact h.searchUp _ _ (Nat.lt_succ_self _)
  · rw [if_neg hz]
    cases hlist : (buddy.freeArea (getBuddyOrder nframes)).freeList with
    | nil =>
      rw [(h.area _).counted,hlist] at hz
      contradiction
    | cons free rest =>
      obtain ⟨x,ho,haddr⟩ :=
        exists_block ((h.area (getBuddyOrder nframes)).aligned free (by simp [hlist]))
      rw [←ho,←haddr] at hlist
      obtain ⟨taken,htake,hinv⟩ := h.take hlist
      have hx : ¬live x := h.own.notBoth x (by simp [listed,hlist])
      rw [←ho,←haddr]
      refine ⟨⟨0,_,[blockAddr start x]⟩,?_,Or.inr ⟨x,rfl,rfl,rfl,hx,hinv⟩⟩
      simp only [htake,Option.bind_eq_bind,Option.bind_some]
      rfl

/-- A request of up to one block of the highest order is one round. -/
theorem buddyAllocFrames_eq {addrs n : ℕ} (ha : addrs≠0) (h0 : 0<n) (h1 : n≤MAX_BUDDY_NFRAMES) :
    buddyAllocFrames buddy addrs n=buddyAllocFramesMaxOrder buddy n := by
  have hrounds : n/MAX_BUDDY_NFRAMES+(if n%MAX_BUDDY_NFRAMES=0 then 0 else 1)=1 :=
    divUp_eq_one h0 h1
  have hmin : min (n-0*MAX_BUDDY_NFRAMES) MAX_BUDDY_NFRAMES=n := by
    rw [Nat.zero_mul,Nat.sub_zero,Nat.min_eq_left h1]
  simp only [buddyAllocFrames,if_neg ha,hrounds,allocRounds,hmin,List.nil_append,
    Option.bind_eq_bind]
  cases buddyAllocFramesMaxOrder buddy n with
  | none => rfl
  | some r =>
    obtain ⟨ret,after,written⟩ := r
    rw [Option.bind_some]
    by_cases hret : ret=0
    · subst hret
      rfl
    · rw [if_pos hret]
      rfl

/-- A request through a pointer. -/
theorem BuddyInvariant.alloc (h : BuddyInvariant start roots buddy live) {addrs nframes : ℕ}
    (ha : addrs≠0) (h0 : 0<nframes) (h1 : nframes≤MAX_BUDDY_NFRAMES) :
    ∃ r,buddyAllocFrames buddy addrs nframes=some r ∧
      Served start roots buddy live (getBuddyOrder nframes) r := by
  obtain ⟨r,hr,hserved⟩ := h.allocMaxOrder nframes
  exact ⟨r,(buddyAllocFrames_eq ha h0 h1).trans hr,hserved⟩

/-! ## Releases -/

/-- Whenever every neighbour from an order up to another is free, the block at
the latter is the lower half of a pair whose size divides the start. -/
def MergesWithin (start : ℕ) (buddy : BuddyAlloc) (order addr : ℕ) : Prop :=
  ∀ top,order≤top → top<MAX_ORDER-1 →
    (∀ k,order≤k → k≤top → neighbourFree buddy k addr=true) →
    blockSize (top+1)∣start ∧ addr/blockSize top%2=0

/-- A neighbour has another number. -/
theorem buddyFrame_ne (i : ℕ) : buddyFrame i≠i := by
  rw [buddyFrame]
  split <;> omega

/-- The number of a neighbour, word and bit joined. -/
theorem buddyFrame_flat (order addr : ℕ) :
    32*(addrToMapId order addr).frameMap+buddyFrame (addrToMapId order addr).frame=
      buddyFrame (addr/blockSize order) := by
  obtain ⟨hflat,-⟩ := addrToMapId_flat order addr
  rw [←hflat]
  simp only [buddyFrame]
  split <;> split <;> omega

/-- A neighbour is free when its bit is clear. -/
theorem neighbourFree_iff_bit (buddy : BuddyAlloc) (order addr : ℕ) :
    neighbourFree buddy order addr=true ↔
      ¬bitAt (buddy.maps order) (buddyFrame (addr/blockSize order))=true := by
  obtain ⟨-,hlt⟩ := addrToMapId_flat order addr
  rw [neighbourFree,isFrameFree_iff (buddyFrame_lt hlt),←buddyFrame_flat,
    bitAt_mul_add _ (buddyFrame_lt hlt),Bool.not_eq_true]

/-- Unmarking an address at one order keeps its neighbours' bits at all orders. -/
theorem neighbourFree_setFrameUnused (buddy : BuddyAlloc) (order addr k : ℕ) :
    neighbourFree (setFrameUnused buddy order addr) k addr=neighbourFree buddy k addr := by
  have hne := buddyFrame_ne (addr/blockSize k)
  rw [Bool.eq_iff_iff,neighbourFree_iff_bit,neighbourFree_iff_bit,bitAt_setFrameUnused]
  by_cases hk : k=order
  · subst hk
    simp [hne]
  · simp [hk]

/-- Neighbours' bits depend on the bitmaps only. -/
theorem neighbourFree_congr {buddy buddy' : BuddyAlloc} (h : buddy.maps=buddy'.maps) (k addr : ℕ) :
    neighbourFree buddy k addr=neighbourFree buddy' k addr := by
  simp only [neighbourFree,h]

/-- The parent of a lower half starts at the same address. -/
theorem blockAddr_parent {x : Block} (h : x.index%2=0) :
    blockAddr start x.parent=blockAddr start x := by
  obtain ⟨i,hi⟩ := Nat.dvd_of_mod_eq_zero h
  simp only [blockAddr,Block.parent,blockSize,hi,Nat.mul_div_cancel_left i (by norm_num : 0<2)]
  ring

/-- Every unlinking on the way up finds its counter null or an entry covering
the neighbour's address. The fuel counts orders. -/
def WalksStop : ℕ → ℕ → ℕ → BuddyAlloc → Prop
  | 0,_,_,_ => False
  | fuel+1,order,addr,buddy =>
    let map := addrToMapId order addr
    let cleared := setFrameUnused buddy order addr
    order<MAX_ORDER-1 ∧ neighbourFree cleared order addr=true →
      ((cleared.freeArea order).numFree=0 ∨ ∃ e∈(cleared.freeArea order).freeList,
        covers order (mapToAddr order ⟨map.frameMap,buddyFrame map.frame⟩) e=true) ∧
      ∀ buddy',removeFreeFrame cleared order
          (mapToAddr order ⟨map.frameMap,buddyFrame map.frame⟩)=some buddy' →
        WalksStop fuel (order+1) addr buddy'

/-- A release whose walks end at entries has a result. -/
theorem WalksStop.coalesceLoop {fuel order addr : ℕ} (h : WalksStop fuel order addr buddy) :
    ∃ buddy',BuddyFrameAlloc.coalesceLoop fuel order addr buddy=some buddy' := by
  induction fuel generalizing order buddy with
  | zero => exact absurd h id
  | succ fuel ih =>
    simp only [BuddyFrameAlloc.coalesceLoop]
    split
    case isFalse => exact ⟨_,rfl⟩
    case isTrue hmerge =>
      obtain ⟨hstops,hrest⟩ := h hmerge
      obtain ⟨merged,hremove⟩ : ∃ merged,removeFreeFrame (setFrameUnused buddy order addr) order
          (mapToAddr order ⟨(addrToMapId order addr).frameMap,
            buddyFrame (addrToMapId order addr).frame⟩)=some merged := by
        simp only [removeFreeFrame]
        split
        case isTrue => exact ⟨_,rfl⟩
        case isFalse hcount =>
          rw [if_pos (List.any_eq_true.mpr (hstops.resolve_left hcount))]
          exact ⟨_,rfl⟩
      rw [hremove]
      exact ih (hrest merged hremove)

/-- Coalescing from lower halves gives the block back. -/
theorem BuddyInvariant.coalesce {fuel : ℕ} {x : Block} (h : BuddyInvariant start roots buddy live)
    (hx : live x) (hfuel : MAX_ORDER≤fuel+x.order)
    (hwithin : MergesWithin start buddy x.order (blockAddr start x)) :
    WalksStop fuel x.order (blockAddr start x) buddy ∧
    ∃ buddy',coalesceLoop fuel x.order (blockAddr start x) buddy=some buddy' ∧
      freeFrames buddy'=freeFrames buddy+2^x.order ∧
      BuddyInvariant start roots buddy' (fun y => live y ∧ y≠x) := by
  induction fuel generalizing x buddy live with
  | zero =>
    have := (h.inside (Or.inr hx)).1
    omega
  | succ fuel ih =>
    simp only [coalesceLoop,WalksStop]
    by_cases hmerge : x.order<MAX_ORDER-1 ∧
        neighbourFree (setFrameUnused buddy x.order (blockAddr start x)) x.order
          (blockAddr start x)=true
    · rw [if_pos hmerge]
      obtain ⟨ho,hfree⟩ := hmerge
      have hfree' := hfree
      rw [neighbourFree_setFrameUnused] at hfree'
      obtain ⟨hstart,hparity⟩ := hwithin x.order le_rfl ho fun k hlow hhigh => by
        rwa [le_antisymm hhigh hlow]
      obtain ⟨hcovered,merged,hremove,hmaps,hframes,hinv⟩ := h.merge hx ho hstart hfree
      have hneighbour : ∀ k,neighbourFree merged k (blockAddr start x)=
          neighbourFree buddy k (blockAddr start x) := by
        intro k
        rw [neighbourFree_congr hmaps,neighbourFree_setFrameUnused]
      have heven : x.index%2=0 := by
        have hbase := start_even hstart
        rw [blockAddr_div] at hparity
        omega
      have haddr : blockAddr start x.parent=blockAddr start x := blockAddr_parent heven
      have hnext : MergesWithin start merged x.parent.order (blockAddr start x.parent) := by
        intro top hlow htop hall
        rw [haddr] at hall ⊢
        refine hwithin top (le_trans (Nat.le_succ _) hlow) htop fun k hk hktop => ?_
        rcases hk.lt_or_eq with hlt|rfl
        · rw [←hneighbour k]
          exact hall k hlt hktop
        · exact hfree'
      obtain ⟨hwalks,buddy',hloop,hcount,hinv'⟩ := ih hinv (Or.inr rfl)
        (by simp only [Block.parent]; omega) hnext
      rw [haddr] at hloop hwalks
      refine ⟨fun _ => ⟨Or.inr hcovered,fun b hb => ?_⟩,buddy',?_,?_,hinv'.congr fun y => ?_⟩
      · obtain rfl : merged=b := Option.some.inj (hremove.symm.trans hb)
        exact hwalks
      · rw [hremove]
        exact hloop
      · have hpow : 2^x.parent.order=2^x.order+2^x.order := by
          simp only [Block.parent]
          ring
        omega
      · have hp : ¬live x.parent := by
          intro hl
          have heq := h.own.apart x x.parent (Or.inr hx) (Or.inr hl) x.within_parent
          exact x.parent_ne heq.symm
        constructor
        · rintro ⟨hl|hl,hne⟩
          · exact hl
          · exact absurd hl hne
        · exact fun hl => ⟨Or.inl hl,fun heq => hp (heq▸hl.1)⟩
    · rw [if_neg hmerge]
      refine ⟨fun hm => absurd hm hmerge,_,rfl,?_,h.give hx⟩
      exact freeFrames_insertBuddy _ (h.inside (Or.inr hx)).1 _

/-- The order of a request is the least one whose blocks are large enough. -/
theorem getBuddyOrder_isLeast {n : ℕ} (h : n≤MAX_BUDDY_NFRAMES) :
    IsLeast {order | n≤2^order} (getBuddyOrder n) := by
  rw [getBuddyOrder,if_neg (not_lt.mpr h)]
  cases hfind : (List.range MAX_ORDER).find? fun order => decide (n≤2^order) with
  | none =>
    have htop := List.find?_eq_none.mp hfind 10 (by decide)
    exact absurd (decide_eq_true h) htop
  | some order =>
    obtain ⟨hfits,-,hless⟩ := List.find?_range_eq_some.mp hfind
    refine ⟨of_decide_eq_true hfits,fun o ho => ?_⟩
    by_contra hlt
    have hfails := hless o (not_le.mp hlt)
    rw [decide_eq_true (show n≤2^o from ho)] at hfails
    contradiction

/-- Requests of up to 1024 frames have an order. -/
theorem getBuddyOrder_lt (nframes : ℕ) : getBuddyOrder nframes<MAX_ORDER := by
  unfold getBuddyOrder
  split
  · norm_num
  · cases hfind : (List.range MAX_ORDER).find? fun order => decide (nframes≤2^order) with
    | none => norm_num
    | some order =>
      have hmem := List.mem_of_find?_eq_some hfind
      exact List.mem_range.mp hmem

/-- Releasing a live block by its address and a request of its order. -/
theorem BuddyInvariant.free (h : BuddyInvariant start roots buddy live) {x : Block} (hx : live x)
    (nframes : ℕ) (ho : x.order=getBuddyOrder nframes)
    (hwithin : MergesWithin start buddy x.order (blockAddr start x)) :
    ∃ buddy',buddyFreeFrames buddy (blockAddr start x) nframes=some buddy' ∧
      freeFrames buddy'=freeFrames buddy+2^x.order ∧
      BuddyInvariant start roots buddy' (fun y => live y ∧ y≠x) := by
  have hmark : marked start buddy x := h.own.liveMark x hx
  obtain ⟨hflat,hlt⟩ := addrToMapId_flat x.order (blockAddr start x)
  rw [blockAddr_div] at hflat
  have hused : isFrameFree (buddy.maps x.order (addrToMapId x.order (blockAddr start x)).frameMap)
      (addrToMapId x.order (blockAddr start x)).frame=false := by
    rw [marked,←hflat,bitAt_mul_add _ hlt] at hmark
    rw [Bool.eq_false_iff,ne_eq,isFrameFree_iff hlt,hmark]
    simp
  obtain ⟨-,buddy',hloop,hframes,hinv⟩ := h.coalesce hx (Nat.le_add_right _ _) hwithin
  refine ⟨buddy',?_,hframes,hinv⟩
  obtain ⟨left,hleft⟩ : ∃ left,MAX_ORDER-x.order=left+1 :=
    ⟨MAX_ORDER-x.order-1,by have := (h.inside (Or.inr hx)).1; omega⟩
  rw [buddyFreeFrames,←ho]
  simp only [hleft,freeFramesLoop,hused,Bool.false_eq_true,if_false]
  exact hloop

end XanaduOS.BuddyBlocks
