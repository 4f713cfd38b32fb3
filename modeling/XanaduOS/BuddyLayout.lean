import XanaduOS.BuddyFrameAlloc

/-!
# Where the buddy bitmaps lie in their buffer

All bitmaps share one buffer. The bit of a block is numbered from the
absolute address, its word is shifted by the order's offset, and the buffer
is sized from the memory size alone. In flat bit numbers each order uses one
interval. The intervals of the first two orders decide: where the second order
ends before the first one starts, each order ends before the one below it. No
range that holds a block of the highest order meets that condition.
-/

namespace XanaduOS.BuddyLayout

open Word32 KernelDefs BuddyFrameAlloc

/-- A size-aligned block between two limits. -/
def Inside (memStart memLimit order addr : ℕ) : Prop :=
  blockSize order∣addr ∧ memStart≤addr ∧ addr+blockSize order ≤ memLimit

/-- Buffer word of a block: `maps[order]` plus the word of its address. -/
def bufferWord (memSize order addr : ℕ) : ℕ :=
  mapOffset memSize order+(addrToMapId order addr).frameMap

/-- Bit of a block within its word. -/
def bufferBit (order addr : ℕ) : ℕ := (addrToMapId order addr).frame

/-- Every block has a word inside the buffer, and no other block of any order
has the same word and bit. -/
def LayoutSound (memStart memLimit : ℕ) : Prop :=
  (∀ order addr,order<MAX_ORDER → Inside memStart memLimit order addr →
    bufferWord (memLimit-memStart) order addr<getBuddyMapSize (memLimit-memStart)) ∧
  ∀ order addr order' addr',order<MAX_ORDER → order'<MAX_ORDER →
    Inside memStart memLimit order addr → Inside memStart memLimit order' addr' →
    bufferWord (memLimit-memStart) order addr=bufferWord (memLimit-memStart) order' addr' →
    bufferBit order addr=bufferBit order' addr' → order=order' ∧ addr=addr'

/-- First flat bit of an order: its offset and the first aligned block. -/
def bitLow (memStart memLimit order : ℕ) : ℕ :=
  32*mapOffset (memLimit-memStart) order+divUp memStart (blockSize order)

/-- Flat bit behind the last one of an order. -/
def bitHigh (memStart memLimit order : ℕ) : ℕ :=
  32*mapOffset (memLimit-memStart) order+memLimit/blockSize order

/-- The intervals of the orders that have a block end within the buffer and
are pairwise disjoint. -/
def BitRangesFit (memStart memLimit : ℕ) : Prop :=
  (∀ order<MAX_ORDER,bitLow memStart memLimit order<bitHigh memStart memLimit order →
    bitHigh memStart memLimit order≤32*getBuddyMapSize (memLimit-memStart)) ∧
  ∀ order<MAX_ORDER,∀ order'<order,
    bitLow memStart memLimit order<bitHigh memStart memLimit order →
    bitLow memStart memLimit order'<bitHigh memStart memLimit order' →
    bitHigh memStart memLimit order≤bitLow memStart memLimit order' ∨
      bitHigh memStart memLimit order'≤bitLow memStart memLimit order

/-- Words of the buffer: those of all orders, each rounded up. -/
def bufferWords (memSize : ℕ) : ℕ :=
  ((List.range 11).map fun order => divUp memSize (131072*2^order)).sum

/-- The range has no aligned page, or its pages have bits within the buffer and
those of its aligned blocks of 8 KiB, if it has any, end before them. -/
def PagesFit (memStart memLimit : ℕ) : Prop :=
  memLimit/4096≤divUp memStart 4096 ∨
    (memLimit/4096≤32*bufferWords (memLimit-memStart) ∧
      (memLimit/8192≤divUp memStart 8192 ∨
        32*((memLimit-memStart)/524288)+memLimit/8192≤divUp memStart 4096))

instance (memStart memLimit : ℕ) : Decidable (PagesFit memStart memLimit) :=
  inferInstanceAs (Decidable (_ ∨ _ ∧ (_ ∨ _)))

/-- Flat buffer bit of a block. -/
theorem bufferWord_flat (memSize order addr : ℕ) :
    32*bufferWord memSize order addr+bufferBit order addr=
      32*mapOffset memSize order+addr/blockSize order := by
  have h := (addrToMapId_flat order addr).1
  simp only [bufferWord,bufferBit]
  omega

/-- The blocks of an order are the flat bits of its interval. -/
theorem inside_iff {memStart memLimit order addr : ℕ} (hd : blockSize order∣addr) :
    Inside memStart memLimit order addr ↔
      bitLow memStart memLimit order≤
          32*mapOffset (memLimit-memStart) order+addr/blockSize order ∧
        32*mapOffset (memLimit-memStart) order+addr/blockSize order<
          bitHigh memStart memLimit order := by
  have hpos := blockSize_pos order
  obtain ⟨q,rfl⟩ := hd
  have hq : blockSize order*q/blockSize order=q := Nat.mul_div_cancel_left q hpos
  have hlow : divUp memStart (blockSize order)≤q ↔ memStart≤blockSize order*q := by
    rw [divUp_le_iff hpos,Nat.mul_comm]
  have hhigh : q < memLimit/blockSize order ↔ blockSize order*q+blockSize order ≤ memLimit := by
    rw [←Nat.succ_le_iff,Nat.le_div_iff_mul_le hpos,Nat.succ_mul,Nat.mul_comm q]
  simp only [Inside,bitLow,bitHigh,hq,Nat.add_le_add_iff_left,Nat.add_lt_add_iff_left,hlow,hhigh]
  exact ⟨fun h => h.2,fun h => ⟨Nat.dvd_mul_right _ _,h⟩⟩

/-- Every flat bit of an order's interval is the bit of one block inside. -/
theorem exists_inside {memStart memLimit order k : ℕ}
    (hlow : bitLow memStart memLimit order≤k) (hhigh : k<bitHigh memStart memLimit order) :
    ∃ addr,Inside memStart memLimit order addr ∧
      32*mapOffset (memLimit-memStart) order+addr/blockSize order=k := by
  have hq : blockSize order*(k-32*mapOffset (memLimit-memStart) order)/blockSize order=
      k-32*mapOffset (memLimit-memStart) order := Nat.mul_div_cancel_left _ (blockSize_pos order)
  have hoff : 32*mapOffset (memLimit-memStart) order≤k := by
    unfold bitLow at hlow
    omega
  have hk : 32*mapOffset (memLimit-memStart) order+
      blockSize order*(k-32*mapOffset (memLimit-memStart) order)/blockSize order=k := by
    rw [hq]
    omega
  exact ⟨_,(inside_iff (Nat.dvd_mul_right _ _)).mpr ⟨by rw [hk]; exact hlow,by rw [hk]; exact hhigh⟩,
    hk⟩

/-- The layout is sound exactly when the bit intervals of the orders fit the
buffer and are disjoint. -/
theorem layoutSound_iff_bitRangesFit {memStart memLimit : ℕ} :
    LayoutSound memStart memLimit ↔ BitRangesFit memStart memLimit := by
  constructor
  · rintro ⟨hword,hapart⟩
    constructor
    · intro order ho hne
      obtain ⟨addr,hin,hk⟩ := exists_inside (k:=bitHigh memStart memLimit order-1)
        (by omega) (by omega : bitHigh memStart memLimit order-1<bitHigh memStart memLimit order)
      have hlt := hword order addr ho hin
      have hflat := bufferWord_flat (memLimit-memStart) order addr
      have hbit : bufferBit order addr<32 := (addrToMapId_flat order addr).2
      omega
    · intro order ho order' ho' hne hne'
      by_contra hmeet
      push Not at hmeet
      obtain ⟨h0,h1⟩ := hmeet
      let k := max (bitLow memStart memLimit order) (bitLow memStart memLimit order')
      obtain ⟨addr,hin,hk⟩ := exists_inside (k:=k) (le_max_left _ _) (max_lt hne h0)
      obtain ⟨addr',hin',hk'⟩ := exists_inside (k:=k) (le_max_right _ _) (max_lt h1 hne')
      have hflat := bufferWord_flat (memLimit-memStart) order addr
      have hflat' := bufferWord_flat (memLimit-memStart) order' addr'
      have hbit : bufferBit order addr<32 := (addrToMapId_flat order addr).2
      have hbit' : bufferBit order' addr'<32 := (addrToMapId_flat order' addr').2
      have heq := hapart order addr order' addr' ho (by omega) hin hin' (by omega) (by omega)
      omega
  · rintro ⟨hfit,hapart⟩
    constructor
    · intro order addr ho hin
      obtain ⟨hlow,hhigh⟩ := (inside_iff hin.1).mp hin
      have hend := hfit order ho (by omega)
      have hflat := bufferWord_flat (memLimit-memStart) order addr
      omega
    · intro order addr order' addr' ho ho' hin hin' hw hb
      obtain ⟨hlow,hhigh⟩ := (inside_iff hin.1).mp hin
      obtain ⟨hlow',hhigh'⟩ := (inside_iff hin'.1).mp hin'
      have hflat := bufferWord_flat (memLimit-memStart) order addr
      have hflat' := bufferWord_flat (memLimit-memStart) order' addr'
      rcases lt_trichotomy order order' with hlt|rfl|hlt
      · have := hapart order' ho' order hlt (by omega) (by omega)
        omega
      · have hquot : addr/blockSize order=addr'/blockSize order := by omega
        refine ⟨rfl,?_⟩
        rw [←Nat.div_mul_cancel hin.1,hquot,Nat.div_mul_cancel hin'.1]
      · have := hapart order ho order' hlt (by omega) (by omega)
        omega

/-! ## The intervals of the orders -/

/-- The buffer has the words of all orders. -/
theorem getBuddyMapSize_eq (memSize : ℕ) : getBuddyMapSize memSize=bufferWords memSize := rfl

/-- The words of the buffer, order by order. -/
theorem bufferWords_eq (memSize : ℕ) : bufferWords memSize=
    divUp memSize 131072+(divUp memSize 262144+(divUp memSize 524288+(divUp memSize 1048576+
      (divUp memSize 2097152+(divUp memSize 4194304+(divUp memSize 8388608+
      (divUp memSize 16777216+(divUp memSize 33554432+(divUp memSize 67108864+
      divUp memSize 134217728))))))))) := by
  have hrange : List.range 11=[0,1,2,3,4,5,6,7,8,9,10] := by decide
  simp only [bufferWords,hrange,List.map_cons,List.map_nil,List.sum_cons,List.sum_nil]
  norm_num

/-- Blocks cover an amount with less than one block to spare. -/
theorem divUp_mul_le (num size : ℕ) : divUp num size*size≤num+size := by
  have hdiv := Nat.div_mul_le_self num size
  unfold divUp
  split
  · rw [Nat.add_zero]
    omega
  · rw [Nat.add_mul,Nat.one_mul]
    omega

/-- The offset grows by a quarter of an order's words. -/
theorem mapOffset_succ (memSize order : ℕ) :
    mapOffset memSize (order+1)=mapOffset memSize order+memSize/(524288*2^order) := by
  have hsize : PAGE_SIZE*MAP_SIZE*2^order*4=524288*2^order := by
    simp only [PAGE_SIZE,MAP_SIZE]
    ring
  rw [mapOffset,List.range_succ,List.map_append,List.sum_append,List.map_singleton,
    List.sum_singleton,hsize]
  rfl

/-- Blocks double from one order to the next. -/
theorem blockSize_double (order : ℕ) : blockSize (order+1)=blockSize order*2 := by
  rw [blockSize,blockSize,pow_succ,Nat.mul_assoc]

/-- The first aligned block of an order is at most twice as far as that of the next. -/
theorem divUp_double (memStart order : ℕ) :
    divUp memStart (blockSize order)≤2*divUp memStart (blockSize (order+1)) := by
  rw [divUp_le_iff (blockSize_pos order)]
  have hnext := (divUp_le_iff (blockSize_pos (order+1))).mp
    (Nat.le_refl (divUp memStart (blockSize (order+1))))
  rw [blockSize_double] at hnext ⊢
  calc memStart≤divUp memStart (blockSize order*2)*(blockSize order*2) := hnext
    _=2*divUp memStart (blockSize order*2)*blockSize order := by ring

/-- An order without a block has none above it. -/
theorem empty_succ {memStart memLimit order : ℕ}
    (h : memLimit/blockSize order≤divUp memStart (blockSize order)) :
    memLimit/blockSize (order+1)≤divUp memStart (blockSize (order+1)) := by
  have hhalf : memLimit/blockSize (order+1)=memLimit/blockSize order/2 := by
    rw [blockSize_double,Nat.div_div_eq_div_mul]
  have hdouble := divUp_double memStart order
  omega

/-- Where an order ends before the one below it starts, so does the next. -/
theorem before_succ {memSize memStart memLimit order : ℕ}
    (h : 32*(memSize/(524288*2^order))+memLimit/blockSize (order+1)≤
      divUp memStart (blockSize order)) :
    32*(memSize/(524288*2^(order+1)))+memLimit/blockSize (order+2)≤
      divUp memStart (blockSize (order+1)) := by
  have hwords : memSize/(524288*2^(order+1))=memSize/(524288*2^order)/2 := by
    rw [pow_succ,←Nat.mul_assoc,Nat.div_div_eq_div_mul]
  have hhalf : memLimit/blockSize (order+2)=memLimit/blockSize (order+1)/2 := by
    rw [blockSize_double (order+1),Nat.div_div_eq_div_mul]
  have hdouble := divUp_double memStart order
  omega

/-- An order has a block when its interval has a bit. -/
theorem bitLow_lt_iff {memStart memLimit order : ℕ} :
    bitLow memStart memLimit order<bitHigh memStart memLimit order ↔
      divUp memStart (blockSize order) < memLimit/blockSize order :=
  Nat.add_lt_add_iff_left

/-- Where an order has no block, no order above it has. -/
theorem empty_above {memStart memLimit order : ℕ}
    (h : memLimit/blockSize order≤divUp memStart (blockSize order)) {above : ℕ}
    (ha : order≤above) : ¬bitLow memStart memLimit above<bitHigh memStart memLimit above := by
  rw [bitLow_lt_iff,Nat.not_lt]
  induction above,ha using Nat.le_induction with
  | base => exact h
  | succ above _ ih => exact empty_succ ih

/-- Where the second order ends before the first starts, each order ends before
all below it, as long as they have blocks. -/
theorem above_before {memStart memLimit : ℕ}
    (h : 32*((memLimit-memStart)/524288)+memLimit/8192≤divUp memStart 4096) {order above : ℕ}
    (ha : order<above) (hne : bitLow memStart memLimit above<bitHigh memStart memLimit above) :
    bitHigh memStart memLimit above≤bitLow memStart memLimit order := by
  have hbefore : ∀ k,32*((memLimit-memStart)/(524288*2^k))+memLimit/blockSize (k+1)≤
      divUp memStart (blockSize k) := by
    intro k
    induction k with
    | zero => exact h
    | succ k ih => exact before_succ ih
  have hnext : ∀ k,bitHigh memStart memLimit (k+1)≤bitLow memStart memLimit k := by
    intro k
    have hk := hbefore k
    rw [bitHigh,bitLow,mapOffset_succ]
    omega
  have hsome : ∀ k≤above,bitLow memStart memLimit k<bitHigh memStart memLimit k := by
    intro k hk
    by_contra hempty
    rw [bitLow_lt_iff,Nat.not_lt] at hempty
    exact empty_above hempty hk hne
  induction above,ha using Nat.le_induction with
  | base => exact hnext order
  | succ above ha ih =>
    have hlow := hsome above (Nat.le_succ above)
    exact (hnext above).trans (hlow.le.trans
      (ih hlow fun k hk => hsome k (hk.trans (Nat.le_succ above))))

/-- Blocks of the first order are pages. -/
theorem blockSize_zero : blockSize 0=4096 := by norm_num [blockSize]

/-- Those of the second order are pairs of pages. -/
theorem blockSize_one : blockSize 1=8192 := by norm_num [blockSize]

/-- The pages' bits start at the buffer's first word. -/
theorem bitLow_zero (memStart memLimit : ℕ) :
    bitLow memStart memLimit 0=divUp memStart 4096 := by
  rw [bitLow,blockSize_zero]
  exact Nat.zero_add _

/-- They end with the last page in the range. -/
theorem bitHigh_zero (memStart memLimit : ℕ) : bitHigh memStart memLimit 0=memLimit/4096 := by
  rw [bitHigh,blockSize_zero]
  exact Nat.zero_add _

/-- The second order starts a quarter of the pages' words behind them. -/
theorem mapOffset_one (memSize : ℕ) : mapOffset memSize 1=memSize/524288 := by
  rw [mapOffset_succ,pow_zero,Nat.mul_one]
  exact Nat.zero_add _

/-- The intervals of the orders fit the buffer and are disjoint exactly when
those of the first two do. -/
theorem bitRangesFit_iff {memStart memLimit : ℕ} :
    BitRangesFit memStart memLimit ↔ PagesFit memStart memLimit := by
  unfold PagesFit
  rcases Nat.lt_or_ge (divUp memStart 4096) (memLimit/4096) with hpage|hnone
  · rw [or_iff_right (Nat.not_le_of_lt hpage)]
    have hfirst : bitLow memStart memLimit 0<bitHigh memStart memLimit 0 := by
      rw [bitLow_zero,bitHigh_zero]
      exact hpage
    constructor
    · rintro ⟨hfit,hapart⟩
      have hend := hfit 0 (by norm_num) hfirst
      rw [bitHigh_zero,getBuddyMapSize_eq] at hend
      refine ⟨hend,?_⟩
      by_contra hmeet
      rw [not_or,Nat.not_le,Nat.not_le] at hmeet
      obtain ⟨hblock,hlate⟩ := hmeet
      have hsecond := hapart 1 (by norm_num) 0 (by norm_num)
        (by rw [bitLow,bitHigh,mapOffset_one,blockSize_one]; omega) hfirst
      rw [bitLow_zero,bitHigh_zero,bitLow,bitHigh,mapOffset_one,blockSize_one] at hsecond
      -- The pages would end before the blocks of 8 KiB in a range this short.
      have hr0 := divUp_mul_le memStart 4096
      have hr1 := divUp_mul_le memStart 8192
      omega
    · rintro ⟨hend,hsecond⟩
      have hbelow : ∀ order above,order<above →
          bitLow memStart memLimit above<bitHigh memStart memLimit above →
          bitHigh memStart memLimit above≤bitLow memStart memLimit order := by
        intro order above ha hne
        rcases hsecond with hempty|hbefore
        · rw [←blockSize_one] at hempty
          exact absurd hne (empty_above hempty (by omega))
        · exact above_before hbefore ha hne
      refine ⟨fun order _ hne => ?_,fun order _ order' hlt hne _ =>
        Or.inl (hbelow order' order hlt hne)⟩
      rw [getBuddyMapSize_eq]
      rcases Nat.eq_zero_or_pos order with rfl|hpos
      · rw [bitHigh_zero]
        exact hend
      · have hzero := hbelow 0 order hpos hne
        rw [bitLow_zero] at hzero
        omega
  · rw [←blockSize_zero] at hnone
    have hempty : ∀ order,¬bitLow memStart memLimit order<bitHigh memStart memLimit order :=
      fun order => empty_above hnone (Nat.zero_le order)
    refine iff_of_true ⟨fun order _ hne => absurd hne (hempty order),
      fun order _ _ _ hne _ => absurd hne (hempty order)⟩ (Or.inl ?_)
    rw [blockSize_zero] at hnone
    exact hnone

/-- The layout is sound exactly for ranges without an aligned page, or whose pages
have bits within the buffer, behind those of their blocks of 8 KiB. -/
theorem layoutSound_iff {memStart memLimit : ℕ} :
    LayoutSound memStart memLimit ↔ PagesFit memStart memLimit :=
  layoutSound_iff_bitRangesFit.trans bitRangesFit_iff

/-- The buffer is at most twice the words of the first order, plus one word
for each order. -/
theorem bufferWords_le (memSize : ℕ) : 65536*bufferWords memSize ≤ memSize+65536*11 := by
  rw [bufferWords_eq]
  have h0 := divUp_mul_le memSize 131072
  have h1 := divUp_mul_le memSize 262144
  have h2 := divUp_mul_le memSize 524288
  have h3 := divUp_mul_le memSize 1048576
  have h4 := divUp_mul_le memSize 2097152
  have h5 := divUp_mul_le memSize 4194304
  have h6 := divUp_mul_le memSize 8388608
  have h7 := divUp_mul_le memSize 16777216
  have h8 := divUp_mul_le memSize 33554432
  have h9 := divUp_mul_le memSize 67108864
  have h10 := divUp_mul_le memSize 134217728
  linarith only [h0,h1,h2,h3,h4,h5,h6,h7,h8,h9,h10]

/-- A range that holds a block of the highest order has no sound layout: the bits
of its blocks of 8 KiB start among those of its pages, or the pages' bits pass the
end of the buffer. -/
theorem not_layoutSound_managed {memStart memLimit : ℕ}
    (h : memStart+MAX_BUDDY_SIZE ≤ memLimit) : ¬LayoutSound memStart memLimit := by
  rw [layoutSound_iff]
  obtain ⟨memSize,rfl⟩ := Nat.exists_eq_add_of_le (Nat.le_of_add_right_le h)
  have hlarge : 0x400000 ≤ memSize := Nat.le_of_add_le_add_left h
  have hwords := bufferWords_le memSize
  have hr0 := divUp_mul_le memStart 4096
  have hr1 := divUp_mul_le memStart 8192
  rw [PagesFit,Nat.add_sub_cancel_left]
  omega

/-- The first block of the kernel's range has its word beyond the buffer. -/
theorem not_layoutSound_kernel : ¬LayoutSound 0xD0000000 0xFFFFFFFF := by
  rintro ⟨hword,-⟩
  have hin : Inside 0xD0000000 0xFFFFFFFF 0 0xD0000000 := by
    norm_num [Inside,blockSize,PAGE_SIZE]
  have hlt := hword 0 0xD0000000 (by norm_num) hin
  have hused : bufferWord (0xFFFFFFFF-0xD0000000) 0 0xD0000000=26624 := by decide
  have hsize : getBuddyMapSize (0xFFFFFFFF-0xD0000000)=12282 := by
    rw [getBuddyMapSize_eq,bufferWords_eq]
    norm_num [divUp]
  omega

end XanaduOS.BuddyLayout
