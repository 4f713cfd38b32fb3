import XanaduOS.AddressSpaces
import XanaduOS.BuddyFrameAlloc
import XanaduOS.FrameGroups

/-!
# Conversions of addresses

A page, or a block of pages, has a number. The allocators split it into a word
and a bit, the page tables into a directory and a table index. Each conversion
is done on machine words; none of its products wraps, so splitting an address
and joining the parts rounds it down to its page or block.
-/

namespace XanaduOS.AddressConversions

open Word32 KernelDefs FrameAlloc BuddyFrameAlloc PageTables AddressSpaces

/-! ## Splitting and joining -/

/-- Two conversions between addresses and indices are inverse, at the size of a
page or block. -/
structure Inverse {ι : Type*} (number : ι → ℕ) (valid : ι → Prop) (size : ℕ)
    (split : ℕ → ι) (join : ι → ℕ) : Prop where
  /-- The index of an address is valid. -/
  valid_split : ∀ a<2^32,valid (split a)
  /-- Back from the index of an address, the address is rounded down. -/
  join_split : ∀ a<2^32,join (split a)=a-a%size
  /-- An index whose address fits in 32 bits is found again. -/
  split_join : ∀ i,valid i → number i*size<2^32 → split (join i)=i

/-- Conversions by number are inverse if valid indices have different numbers. -/
theorem inverse_of_number {ι : Type*} {number : ι → ℕ} {valid : ι → Prop} {size : ℕ}
    {split : ℕ → ι} {join : ι → ℕ} (hsize : 0<size)
    (hvalid : ∀ a<2^32,valid (split a)) (hsplit : ∀ a<2^32,number (split a)=a/size)
    (hjoin : ∀ i,valid i → number i*size<2^32 → join i=number i*size)
    (hinj : ∀ i j,valid i → valid j → number i=number j → i=j) :
    Inverse number valid size split join := by
  refine ⟨hvalid,fun a ha => ?_,fun i hi hfits => ?_⟩
  · have hfloor : a/size*size=a-a%size := by
      rw [Nat.mul_comm]
      exact (Nat.sub_eq_of_eq_add (Nat.div_add_mod a size).symm).symm
    have hfits : number (split a)*size<2^32 := by
      rw [hsplit a ha]
      exact (Nat.div_mul_le_self a size).trans_lt ha
    rw [hjoin _ (hvalid a ha) hfits,hsplit a ha,hfloor]
  · rw [hjoin i hi hfits]
    refine hinj _ _ (hvalid _ hfits) hi ?_
    rw [hsplit _ hfits,Nat.mul_div_cancel _ hsize]

/-! ## Conversions on machine words -/

/-- Word and bit of an address at an order, with every operation on machine words. -/
def addrToMapIdWords (order addr : ℕ) : FrameMapAddr :=
  let frameMap := addr/wmul (wmul PAGE_SIZE MAP_SIZE) (1<<<order)
  ⟨frameMap,wsub addr (wmul frameMap (wmul (wmul PAGE_SIZE MAP_SIZE) (1<<<order)))/
    wmul (1<<<order) PAGE_SIZE⟩

/-- Word and bit of a page, with every operation on machine words. -/
def getFrameMetaWords (addr : ℕ) : ℕ×ℕ :=
  let frameMap := addr/wmul PAGE_SIZE 32
  (frameMap,wsub addr (wmul (wmul frameMap PAGE_SIZE) 32)/PAGE_SIZE)

/-- Directory and table index of an address, kept in 16 bits. -/
def getPdePteWords (addr : ℕ) : ℕ×ℕ := (addr>>>22%2^16,((addr>>>12)&&&0x3ff)%2^16)

variable {order addr : ℕ}

/-- No operation of the buddy allocator's conversion wraps. -/
theorem addrToMapIdWords_eq (ho : order≤10) (ha : addr<2^32) :
    addrToMapIdWords order addr=addrToMapId order addr := by
  have hpow : 2^order≤2^10 := Nat.pow_le_pow_right (by norm_num) ho
  have hshift : 1<<<order=2^order := Nat.one_shiftLeft order
  have hword : wmul (wmul PAGE_SIZE MAP_SIZE) (1<<<order)=PAGE_SIZE*MAP_SIZE*2^order := by
    have hbase : wmul PAGE_SIZE MAP_SIZE=PAGE_SIZE*MAP_SIZE := wmul_eq (by norm_num)
    rw [hshift,hbase]
    exact wmul_eq ((Nat.mul_le_mul_left _ hpow).trans_lt (by norm_num))
  have hsize : wmul (1<<<order) PAGE_SIZE=2^order*PAGE_SIZE := by
    rw [hshift]
    exact wmul_eq ((Nat.mul_le_mul_right _ hpow).trans_lt (by norm_num))
  have hle : addr/(PAGE_SIZE*MAP_SIZE*2^order)*(PAGE_SIZE*MAP_SIZE*2^order)≤addr :=
    Nat.div_mul_le_self _ _
  rw [addrToMapIdWords,hword,hsize,wmul_eq (hle.trans_lt ha),wsub_eq hle ha]
  rfl

/-- No operation of the frame allocator's conversion wraps. -/
theorem getFrameMetaWords_eq (ha : addr<2^32) : getFrameMetaWords addr=getFrameMeta addr := by
  have hword : wmul PAGE_SIZE 32=PAGE_SIZE*32 := wmul_eq (by norm_num)
  have hle : addr/(PAGE_SIZE*32)*PAGE_SIZE*32≤addr := by
    rw [Nat.mul_assoc]
    exact Nat.div_mul_le_self _ _
  have hpage : addr/(PAGE_SIZE*32)*PAGE_SIZE<2^32 :=
    (Nat.le_mul_of_pos_right _ (by norm_num)).trans_lt (hle.trans_lt ha)
  rw [getFrameMetaWords,hword,wmul_eq hpage,wmul_eq (hle.trans_lt ha),wsub_eq hle ha]
  rfl

/-- Indices of page tables fit in 16 bits. -/
theorem getPdePteWords_eq (ha : addr<2^32) : getPdePteWords addr=getPdePte addr := by
  have hdir : (getPdePte addr).1<1024 := getPdePte_dir_lt ha
  have htab : (getPdePte addr).2<1024 := getPdePte_lt addr
  rw [getPdePteWords]
  refine Prod.ext ?_ ?_
  · exact Nat.mod_eq_of_lt (hdir.trans (by norm_num))
  · exact Nat.mod_eq_of_lt (htab.trans (by norm_num))

/-! ## The three encodings -/

/-- Number of a block from its word and bit. -/
def blockNumber (map : FrameMapAddr) : ℕ := 32*map.frameMap+map.frame

/-- Number of a frame from its word and bit. -/
def frameNumber (slot : ℕ×ℕ) : ℕ := 32*slot.1+slot.2

/-- Number of a page from its directory and table index. -/
def pageNumber (slot : ℕ×ℕ) : ℕ := PT_SIZE*slot.1+slot.2

/-- Conversions of the buddy allocator are inverse. -/
theorem buddy_inverse (ho : order≤10) :
    Inverse blockNumber (fun map => map.frame<32) (blockSize order) (addrToMapIdWords order)
      (mapToAddr order) := by
  refine inverse_of_number (blockSize_pos order) ?_ ?_ ?_ ?_
  · intro a ha
    rw [addrToMapIdWords_eq ho ha]
    exact (addrToMapId_flat order a).2
  · intro a ha
    rw [addrToMapIdWords_eq ho ha]
    exact (addrToMapId_flat order a).1
  · intro map _ hfits
    rw [mapToAddr_flat]
    exact Nat.mod_eq_of_lt hfits
  · rintro ⟨i,j⟩ ⟨k,l⟩ hj hl heq
    have hnum : 32*i+j=32*k+l := heq
    have hj' : j<32 := hj
    have hl' : l<32 := hl
    rw [FrameMapAddr.mk.injEq]
    exact ⟨by omega,by omega⟩

/-- Conversions of the frame allocator are inverse. -/
theorem frame_inverse :
    Inverse frameNumber (fun slot => slot.2<32) PAGE_SIZE getFrameMetaWords
      (fun slot => frameMapToAddr slot.1 slot.2) := by
  refine inverse_of_number (by norm_num) ?_ ?_ ?_ ?_
  · intro a ha
    rw [getFrameMetaWords_eq ha]
    exact (getFrameMeta_flat a).2
  · intro a ha
    rw [getFrameMetaWords_eq ha]
    exact (getFrameMeta_flat a).1
  · rintro ⟨i,j⟩ hj hfits
    have hsum : i*PAGE_SIZE*32+j*PAGE_SIZE=(32*i+j)*PAGE_SIZE := by ring
    have htop : i*PAGE_SIZE*32+j*PAGE_SIZE<2^32 := hsum.trans_lt hfits
    have hword : i*PAGE_SIZE*32<2^32 := (Nat.le_add_right _ _).trans_lt htop
    have hpage : i*PAGE_SIZE<2^32 := (Nat.le_mul_of_pos_right _ (by norm_num)).trans_lt hword
    have hbit : j*PAGE_SIZE<2^32 := (Nat.le_add_left _ _).trans_lt htop
    rw [frameMapToAddr,wmul_eq hpage,wmul_eq hword,wmul_eq hbit,wadd_eq htop]
    exact hsum
  · rintro ⟨i,j⟩ ⟨k,l⟩ hj hl heq
    have hnum : 32*i+j=32*k+l := heq
    exact Prod.ext (by omega) (by omega)

/-- Conversions of page tables are inverse. -/
theorem page_inverse :
    Inverse pageNumber (fun slot => slot.2<PT_SIZE) PAGE_SIZE getPdePteWords
      (fun slot => getVirtAddr slot.1 slot.2) := by
  refine inverse_of_number (by norm_num) ?_ ?_ ?_ ?_
  · intro a ha
    rw [getPdePteWords_eq ha]
    exact getPdePte_lt a
  · intro a ha
    rw [getPdePteWords_eq ha,getPdePte_eq,pageNumber]
    simp only [PT_SIZE,PAGE_SIZE]
    omega
  · rintro ⟨i,j⟩ hj hfits
    have hsum : i*0x400000+j*PAGE_SIZE=(PT_SIZE*i+j)*PAGE_SIZE := by ring
    have htop : i*0x400000+j*PAGE_SIZE<2^32 := hsum.trans_lt hfits
    have hdir : i*0x400000<2^32 := (Nat.le_add_right _ _).trans_lt htop
    have htab : j*PAGE_SIZE<2^32 := (Nat.le_add_left _ _).trans_lt htop
    rw [getVirtAddr,wmul_eq hdir,wmul_eq htab,wadd_eq htop]
    exact hsum
  · rintro ⟨i,j⟩ ⟨k,l⟩ hj hl heq
    have hnum : 1024*i+j=1024*k+l := heq
    have hj' : j<1024 := hj
    have hl' : l<1024 := hl
    exact Prod.ext (by omega) (by omega)

/-- The conversions of both allocators and of the page tables are inverse. -/
theorem conversions_inverse (order : ℕ) (ho : order≤10) :
    Inverse blockNumber (fun map => map.frame<32) (PAGE_SIZE*2^order) (addrToMapIdWords order)
      (mapToAddr order) ∧
    Inverse frameNumber (fun slot => slot.2<32) PAGE_SIZE getFrameMetaWords
      (fun slot => frameMapToAddr slot.1 slot.2) ∧
    Inverse pageNumber (fun slot => slot.2<PT_SIZE) PAGE_SIZE getPdePteWords
      (fun slot => getVirtAddr slot.1 slot.2) :=
  ⟨buddy_inverse ho,frame_inverse,page_inverse⟩

/-- The largest order. -/
theorem conversions_inverse_ten :
    Inverse blockNumber (fun map => map.frame<32) (PAGE_SIZE*2^10) (addrToMapIdWords 10)
      (mapToAddr 10) ∧
    Inverse frameNumber (fun slot => slot.2<32) PAGE_SIZE getFrameMetaWords
      (fun slot => frameMapToAddr slot.1 slot.2) ∧
    Inverse pageNumber (fun slot => slot.2<PT_SIZE) PAGE_SIZE getPdePteWords
      (fun slot => getVirtAddr slot.1 slot.2) :=
  conversions_inverse 10 (by norm_num)

end XanaduOS.AddressConversions
