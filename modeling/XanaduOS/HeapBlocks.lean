import XanaduOS.Chains
import XanaduOS.HeapAllocator

/-!
# Blocks of the kernel heap

Behind the first block, which is taken by the first allocation, the blocks
tile the heap in address order. The search chain visits some of them in the
same order, the last block among them, and leads from there back to the block
behind the first: it is a cycle. Blocks it leaves out are in use and still
point at their successor. A back link names the predecessor or the place of
a block merged away. Allocation, release and both merges keep this as long as
no block is split in the middle of the heap and none is linked twice.
-/

namespace XanaduOS.HeapBlocks

open Word32 HeapAllocator Chains

/-- Successor of a block. -/
def nextOf (h : Heap) (b : ℕ) : ℕ := (h.mem b).next

/-- Back link of a block. -/
def prevOf (h : Heap) (b : ℕ) : ℕ := (h.mem b).prev

/-- Search link of a block. -/
def holeOf (h : Heap) (b : ℕ) : ℕ := (h.mem b).nextHole

/-- End of a block's memory: its successor, or the heap's end. -/
def limitOf (h : Heap) (b : ℕ) : ℕ := if nextOf h b=0 then h.endAddr else nextOf h b

/-- A back link that names the predecessor or lies clear of every block. -/
def BackLink (h : Heap) (blocks : List ℕ) (b : ℕ) : Prop :=
  (prevOf h b∈blocks ∧ nextOf h (prevOf h b)=b) ∨
    (prevOf h b+headerSize≤b ∧
      ∀ x∈blocks,x+headerSize≤prevOf h b ∨ prevOf h b+headerSize≤x)

/-- A heap whose first block is in use, the other blocks, and those of them on
the search chain. -/
structure HeapValid (h : Heap) (rest holes : List ℕ) : Prop where
  /-- Blocks are chained up to a null pointer. -/
  chain : Path (nextOf h) h.base rest 0
  /-- Each lies behind the headers before it. -/
  apart : (h.base::rest).Pairwise fun a b => a+headerSize≤b
  /-- Sizes cover the header and end before the successor. -/
  room : ∀ b∈h.base::rest,headerSize≤(h.mem b).size ∧ b+(h.mem b).size≤limitOf h b
  /-- The heap ends within the address space. -/
  word : h.endAddr<2^32
  /-- The search chain leads through the holes back behind the first block. -/
  holeChain : Path (holeOf h) h.base holes (nextOf h h.base)
  /-- It visits blocks in address order. -/
  sublist : holes.Sublist rest
  /-- Blocks left out are in use and point at their successor. -/
  offChain : ∀ b∈rest,b∉holes → (h.mem b).isHole=false ∧ holeOf h b=nextOf h b
  /-- The last block is free. -/
  lastFree : ∀ b∈rest,nextOf h b=0 → (h.mem b).isHole=true
  /-- The first block is in use. -/
  baseUsed : (h.mem h.base).isHole=false
  /-- The first block has a successor. -/
  baseNext : nextOf h h.base≠0
  /-- Back links. -/
  back : ∀ b∈rest,BackLink h (h.base::rest) b

/-- A block in use, with the end of its memory. -/
def Busy (h : Heap) (rest : List ℕ) (b n : ℕ) : Prop :=
  b∈h.base::rest ∧ (h.mem b).isHole=false ∧ nextOf h b=n

variable {h h' : Heap} {rest holes : List ℕ}

/-! ## Address order -/

/-- Blocks around a block. -/
theorem HeapValid.around (hv : HeapValid h rest holes) {b : ℕ} (hb : b∈h.base::rest) :
    ∃ xs ys,h.base::rest=xs++b::ys ∧ Path (nextOf h) b ys 0 ∧
      (∀ x∈xs,x+headerSize≤b) ∧ ∀ y∈ys,b+headerSize≤y := by
  obtain ⟨xs,ys,heq,hpath⟩ := hv.chain.behind hb
  have hsorted := hv.apart
  rw [heq,List.pairwise_append,List.pairwise_cons] at hsorted
  exact ⟨xs,ys,heq,hpath,fun x hx => hsorted.2.2 x hx b List.mem_cons_self,hsorted.2.1.1⟩

/-- Different blocks do not share header bytes. -/
theorem HeapValid.disjoint (hv : HeapValid h rest holes) {b x : ℕ} (hb : b∈h.base::rest)
    (hx : x∈h.base::rest) (hne : x≠b) : x+headerSize≤b ∨ b+headerSize≤x := by
  obtain ⟨xs,ys,heq,-,hbefore,hbehind⟩ := hv.around hb
  rw [heq,List.mem_append,List.mem_cons] at hx
  rcases hx with hx|rfl|hx
  · exact Or.inl (hbefore x hx)
  · exact absurd rfl hne
  · exact Or.inr (hbehind x hx)

/-- A successor is a block behind the first. -/
theorem HeapValid.next_mem (hv : HeapValid h rest holes) {b : ℕ} (hb : b∈h.base::rest)
    (hn : nextOf h b≠0) : nextOf h b∈rest := (hv.chain.next_mem hb).resolve_right hn

/-- Nothing lies between a block and its successor. -/
theorem HeapValid.next_le (hv : HeapValid h rest holes) {b x : ℕ} (hb : b∈h.base::rest)
    (hx : x∈h.base::rest) (hlt : b<x) :
    nextOf h b≠0 ∧ b+headerSize≤nextOf h b ∧ nextOf h b≤x := by
  obtain ⟨xs,ys,heq,hpath,hbefore,hbehind⟩ := hv.around hb
  have hsorted := hv.apart
  rw [heq] at hx hsorted
  have hxys : x∈ys := by
    rcases List.mem_append.mp hx with hx|hx
    · have := hbefore x hx
      omega
    · exact (List.mem_cons.mp hx).resolve_left (by omega)
  cases ys with
  | nil => simp at hxys
  | cons y ys =>
    have hy : nextOf h b=y := hpath.1
    have hby := hbehind y List.mem_cons_self
    rw [hy]
    simp only [headerSize] at hby ⊢
    refine ⟨by omega,hby,?_⟩
    rcases List.mem_cons.mp hxys with rfl|hxys
    · exact Nat.le_refl _
    · rw [List.pairwise_append,List.pairwise_cons,List.pairwise_cons] at hsorted
      have := hsorted.2.1.2.1 x hxys
      omega

/-- A successor lies behind the header. -/
theorem HeapValid.lt_next (hv : HeapValid h rest holes) {b : ℕ} (hb : b∈h.base::rest)
    (hn : nextOf h b≠0) : b+headerSize≤nextOf h b := by
  obtain ⟨h0,h1⟩ := hv.room b hb
  rw [limitOf,if_neg hn] at h1
  omega

/-- Blocks behind the first lie behind its header. -/
theorem HeapValid.base_lt (hv : HeapValid h rest holes) {b : ℕ} (hb : b∈rest) :
    h.base+headerSize≤b := (List.pairwise_cons.mp hv.apart).1 b hb

/-- Blocks behind the first are not null. -/
theorem HeapValid.ne_zero (hv : HeapValid h rest holes) {b : ℕ} (hb : b∈rest) : b≠0 := by
  have := hv.base_lt hb
  simp only [headerSize] at this
  omega

/-- The first block is not listed again. -/
theorem HeapValid.base_notMem (hv : HeapValid h rest holes) : h.base∉rest := by
  intro hb
  have := hv.base_lt hb
  simp only [headerSize] at this
  omega

/-- No block is listed twice. -/
theorem HeapValid.nodup (hv : HeapValid h rest holes) : (h.base::rest).Nodup :=
  hv.apart.imp fun hle heq => by simp only [headerSize] at hle; omega

/-- The chain of holes with the first block is in address order. -/
theorem HeapValid.holes_apart (hv : HeapValid h rest holes) :
    (h.base::holes).Pairwise fun a b => a+headerSize≤b :=
  hv.apart.sublist (hv.sublist.cons_cons h.base)

/-- No hole is chained twice. -/
theorem HeapValid.holes_nodup (hv : HeapValid h rest holes) : (h.base::holes).Nodup :=
  hv.nodup.sublist (hv.sublist.cons_cons h.base)

/-- The last block. -/
theorem HeapValid.exists_last (hv : HeapValid h rest holes) {b : ℕ} (hb : b∈h.base::rest) :
    ∃ t∈rest,nextOf h t=0 ∧ b≤t := by
  have hne : rest≠[] := by
    rintro rfl
    exact hv.baseNext hv.chain
  have hlast : nextOf h (rest.getLast hne)=0 := by
    have hsplit : Path (nextOf h) h.base (rest++[]) 0 := by
      rw [List.append_nil]
      exact hv.chain
    have hend : nextOf h ((h.base::rest).getLast (by simp))=0 := hsplit.split.2
    rwa [List.getLast_cons hne] at hend
  refine ⟨rest.getLast hne,List.getLast_mem hne,hlast,?_⟩
  by_contra hlt
  exact (hv.next_le (List.mem_cons_of_mem _ (List.getLast_mem hne)) hb (by omega)).1 hlast

/-- Every block ends within the heap. -/
theorem HeapValid.inside (hv : HeapValid h rest holes) {b : ℕ} (hb : b∈h.base::rest) :
    b+(h.mem b).size≤h.endAddr := by
  have hroom := hv.room b hb
  by_cases hn : nextOf h b=0
  · rw [limitOf,if_pos hn] at hroom
    exact hroom.2
  · have hmem := hv.next_mem hb hn
    obtain ⟨t,ht,hend,hle⟩ := hv.exists_last (List.mem_cons_of_mem _ hmem)
    have hlast := hv.room t (List.mem_cons_of_mem _ ht)
    rw [limitOf,if_neg hn] at hroom
    rw [limitOf,if_pos hend] at hlast
    omega

/-- Holes are chained. -/
theorem HeapValid.mem_holes (hv : HeapValid h rest holes) {b : ℕ} (hb : b∈rest)
    (hh : (h.mem b).isHole=true) : b∈holes := by
  by_contra hno
  rw [(hv.offChain b hb hno).1] at hh
  contradiction

/-- Search links stay among the blocks behind the first. -/
theorem HeapValid.hole_mem (hv : HeapValid h rest holes) {b : ℕ} (hb : b∈h.base::rest) :
    holeOf h b∈rest := by
  have hfirst : nextOf h h.base∈rest := hv.next_mem List.mem_cons_self hv.baseNext
  by_cases hh : b∈h.base::holes
  · rcases hv.holeChain.next_mem hh with hmem|heq
    · exact hv.sublist.subset hmem
    · exact heq▸hfirst
  · have hrest : b∈rest := by
      refine (List.mem_cons.mp hb).resolve_left ?_
      rintro rfl
      exact hh List.mem_cons_self
    obtain ⟨hused,hnext⟩ := hv.offChain b hrest fun hmem => hh (List.mem_cons_of_mem _ hmem)
    rw [hnext]
    refine hv.next_mem hb fun hn => ?_
    rw [hv.lastFree b hrest hn] at hused
    contradiction

/-- Headers of the blocks decide, apart from their back links. -/
theorem HeapValid.congr (hv : HeapValid h rest holes) (hbase : h'.base=h.base)
    (hend : h'.endAddr=h.endAddr)
    (hmem : ∀ b∈h.base::rest,nextOf h' b=nextOf h b ∧ holeOf h' b=holeOf h b ∧
      (h'.mem b).size=(h.mem b).size ∧ (h'.mem b).isHole=(h.mem b).isHole)
    (hback : ∀ b∈rest,BackLink h' (h.base::rest) b) : HeapValid h' rest holes := by
  have hhead := hmem h.base List.mem_cons_self
  have hrest : ∀ b∈rest,_ := fun b hb => hmem b (List.mem_cons_of_mem _ hb)
  constructor
  case chain => exact hbase▸hv.chain.congr fun b hb => (hmem b hb).1
  case apart => exact hbase▸hv.apart
  case room =>
    intro b hb
    rw [hbase] at hb
    rw [limitOf,(hmem b hb).1,(hmem b hb).2.2.1,hend]
    exact hv.room b hb
  case word => exact hend▸hv.word
  case holeChain =>
    rw [hbase,hhead.1]
    exact hv.holeChain.congr fun b hb => (hmem b (hv.sublist.cons_cons _|>.subset hb)).2.1
  case sublist => exact hv.sublist
  case offChain =>
    intro b hb hno
    rw [(hrest b hb).2.2.2,(hrest b hb).2.1,(hrest b hb).1]
    exact hv.offChain b hb hno
  case lastFree =>
    intro b hb hn
    rw [(hrest b hb).1] at hn
    rw [(hrest b hb).2.2.2]
    exact hv.lastFree b hb hn
  case baseUsed => rw [hbase,hhead.2.2.2]; exact hv.baseUsed
  case baseNext => rw [hbase,hhead.1]; exact hv.baseNext
  case back => exact hbase▸hback

/-! ## Merging two holes -/

/-- A hole takes over the block behind it; other blocks keep their headers but
for the back link of the successor. -/
structure Absorbs (h h' : Heap) (s n : ℕ) : Prop where
  /-- The first block stays. -/
  base : h'.base=h.base
  /-- The heap's end stays. -/
  endAddr : h'.endAddr=h.endAddr
  /-- The successor is taken over. -/
  next : nextOf h' s=nextOf h n
  /-- The search link is taken over. -/
  hole : holeOf h' s=holeOf h n
  /-- The memory is taken over. -/
  size : (h'.mem s).size=(h.mem s).size+(h.mem n).size
  /-- The block is free. -/
  free : (h'.mem s).isHole=true
  /-- Other blocks. -/
  other : ∀ y,y≠s → y≠n → nextOf h' y=nextOf h y ∧ holeOf h' y=holeOf h y ∧
    (h'.mem y).size=(h.mem y).size ∧ (h'.mem y).isHole=(h.mem y).isHole
  /-- Back links. -/
  back : ∀ y,y≠n → prevOf h' y=prevOf h y ∨ (y=nextOf h n ∧ prevOf h' y=s)

/-- Erasing the node behind another one. -/
theorem erase_behind {xs ys : List ℕ} {s n : ℕ} (hnd : (xs++s::n::ys).Nodup) :
    (xs++s::n::ys).erase n=xs++s::ys := by
  have hxs : n∉xs := fun hmem =>
    (List.nodup_append'.mp hnd).2.2 hmem (by simp)
  have hs : s≠n := by
    rintro rfl
    exact (List.nodup_cons.mp (List.nodup_append'.mp hnd).2.1).1 List.mem_cons_self
  rw [List.erase_append_right _ hxs,List.erase_cons_tail (by simpa using hs),
    List.erase_cons_head]

/-- A hole and the block behind it on both chains. -/
theorem HeapValid.adjacent (hv : HeapValid h rest holes) {s n : ℕ} (hs : s∈rest)
    (hsfree : (h.mem s).isHole=true) (hn : nextOf h s=n) (hn0 : n≠0)
    (hnfree : (h.mem n).isHole=true) :
    (∃ xs ys,rest=xs++s::n::ys) ∧ ∃ xs ys,holes=xs++s::n::ys := by
  have hsb : s∈h.base::rest := List.mem_cons_of_mem _ hs
  have hnrest : n∈rest := hn▸hv.next_mem hsb (hn.symm▸hn0)
  have hlt : s+headerSize≤n := hn▸hv.lt_next hsb (hn.symm▸hn0)
  simp only [headerSize] at hlt
  constructor
  · obtain ⟨xs,ys,heq,hpath,-⟩ := hv.around hsb
    cases ys with
    | nil => exact absurd (hn.symm.trans hpath) hn0
    | cons y ys =>
      obtain rfl : n=y := hn.symm.trans hpath.1
      cases xs with
      | nil =>
        obtain ⟨rfl,-⟩ := List.cons.inj heq
        exact absurd hs hv.base_notMem
      | cons x xs =>
        obtain ⟨-,rfl⟩ := List.cons.inj heq
        exact ⟨xs,ys,rfl⟩
  · obtain ⟨xs,ys,rfl⟩ := List.append_of_mem (hv.mem_holes hs hsfree)
    have hsorted := (List.pairwise_cons.mp hv.holes_apart).2
    rw [List.pairwise_append,List.pairwise_cons] at hsorted
    have hnys : n∈ys := by
      rcases List.mem_append.mp (hv.mem_holes hnrest hnfree) with hmem|hmem
      · have := hsorted.2.2 n hmem s List.mem_cons_self
        simp only [headerSize] at this
        omega
      · exact (List.mem_cons.mp hmem).resolve_left (by omega)
    cases ys with
    | nil => simp at hnys
    | cons y ys =>
      have hy : y∈h.base::rest := List.mem_cons_of_mem _ (hv.sublist.subset (by simp))
      have hsy := hsorted.2.1.1 y List.mem_cons_self
      simp only [headerSize] at hsy
      have hle := (hv.next_le hsb hy (by omega)).2.2
      rw [hn] at hle
      rcases List.mem_cons.mp hnys with rfl|hnys
      · exact ⟨xs,ys,rfl⟩
      · have := (List.pairwise_cons.mp hsorted.2.1.2).1 n hnys
        simp only [headerSize] at this
        omega

/-- The blocks without one of them. -/
theorem HeapValid.mem_erase (hv : HeapValid h rest holes) {n : ℕ} (hn : n∈rest) {b : ℕ} :
    b∈h.base::rest.erase n ↔ b∈h.base::rest ∧ b≠n := by
  have hbasen : h.base≠n := fun heq => hv.base_notMem (heq▸hn)
  have hmem : b∈rest.erase n ↔ b≠n ∧ b∈rest := (List.nodup_cons.mp hv.nodup).2.mem_erase_iff
  rw [List.mem_cons,List.mem_cons,hmem]
  constructor
  · rintro (rfl|⟨hbn,hb⟩)
    · exact ⟨Or.inl rfl,hbasen⟩
    · exact ⟨Or.inr hb,hbn⟩
  · rintro ⟨rfl|hb,hbn⟩
    · exact Or.inl rfl
    · exact Or.inr ⟨hbn,hb⟩

/-- Back links after a merge. -/
theorem HeapValid.absorb_back (hv : HeapValid h rest holes) {s n : ℕ} (ha : Absorbs h h' s n)
    (hs : s∈rest) (hn : nextOf h s=n) (hn0 : n≠0) {y : ℕ} (hy : y∈rest) (hyn : y≠n) :
    BackLink h' (h.base::rest.erase n) y := by
  have hsb : s∈h.base::rest := List.mem_cons_of_mem _ hs
  have hnrest : n∈rest := hn▸hv.next_mem hsb (hn.symm▸hn0)
  have hnb : n∈h.base::rest := List.mem_cons_of_mem _ hnrest
  have hsn := hv.lt_next hsb (hn.symm▸hn0)
  rw [hn] at hsn
  simp only [headerSize] at hsn
  have hsub : ∀ x∈h.base::rest.erase n,x∈h.base::rest ∧ x≠n := fun x =>
    (hv.mem_erase hnrest).mp
  rcases ha.back y hyn with hprev|⟨rfl,hprev⟩
  · rw [BackLink,hprev]
    rcases hv.back y hy with ⟨hmem,hnext⟩|⟨hle,hclear⟩
    · by_cases hpn : prevOf h y=n
      -- the predecessor is merged away: its place is clear now
      · refine Or.inr ⟨?_,fun x hx => ?_⟩
        · rw [hpn] at hnext ⊢
          have := hv.lt_next hnb (hnext.symm▸hv.ne_zero hy)
          omega
        · rw [hpn]
          exact hv.disjoint hnb (hsub x hx).1 (hsub x hx).2
      · have hps : prevOf h y≠s := by
          intro heq
          rw [heq,hn] at hnext
          exact hyn hnext.symm
        exact Or.inl ⟨(hv.mem_erase hnrest).mpr ⟨hmem,hpn⟩,(ha.other _ hps hpn).1.trans hnext⟩
    · exact Or.inr ⟨hle,fun x hx => hclear x (hsub x hx).1⟩
  · rw [BackLink,hprev]
    exact Or.inl ⟨(hv.mem_erase hnrest).mpr ⟨hsb,by omega⟩,ha.next⟩

/-- Merging two holes leaves the blocks in use. -/
theorem HeapValid.absorb_busy (hv : HeapValid h rest holes) {s n : ℕ} (ha : Absorbs h h' s n)
    (hsfree : (h.mem s).isHole=true) (hnrest : n∈rest) (hnfree : (h.mem n).isHole=true) (b e : ℕ) :
    Busy h' (rest.erase n) b e ↔ Busy h rest b e := by
  unfold Busy
  rw [ha.base]
  constructor
  · rintro ⟨hb,hfree,hnext⟩
    obtain ⟨hb,hbn⟩ := (hv.mem_erase hnrest).mp hb
    have hbs : b≠s := by
      rintro rfl
      rw [ha.free] at hfree
      contradiction
    obtain ⟨hnext',-,-,hfree'⟩ := ha.other b hbs hbn
    exact ⟨hb,hfree'▸hfree,hnext'▸hnext⟩
  · rintro ⟨hb,hfree,hnext⟩
    have hbs : b≠s := by
      rintro rfl
      rw [hsfree] at hfree
      contradiction
    have hbn : b≠n := by
      rintro rfl
      rw [hnfree] at hfree
      contradiction
    obtain ⟨hnext',-,-,hfree'⟩ := ha.other b hbs hbn
    exact ⟨(hv.mem_erase hnrest).mpr ⟨hb,hbn⟩,hfree'.symm▸hfree,hnext'.symm▸hnext⟩

/-- The merged hole ends where the hole taken over did. -/
theorem HeapValid.absorb_room (hv : HeapValid h rest holes) {s n : ℕ} (ha : Absorbs h h' s n)
    (hs : s∈rest) (hn : nextOf h s=n) (hn0 : n≠0) {b : ℕ} (hb : b∈h.base::rest) (hbn : b≠n) :
    headerSize≤(h'.mem b).size ∧ b+(h'.mem b).size≤limitOf h' b := by
  have hsb : s∈h.base::rest := List.mem_cons_of_mem _ hs
  by_cases hbs : b=s
  · subst hbs
    have h0 := hv.room b hb
    have h1 := hv.room n (List.mem_cons_of_mem _ (hn▸hv.next_mem hsb (hn.symm▸hn0)))
    have hlim : limitOf h' b=limitOf h n := by rw [limitOf,limitOf,ha.next,ha.endAddr]
    rw [limitOf,if_neg (hn.symm▸hn0),hn] at h0
    rw [ha.size,hlim]
    omega
  · obtain ⟨hnext,-,hsize,-⟩ := ha.other b hbs hbn
    rw [limitOf,hnext,hsize,ha.endAddr]
    exact hv.room b hb

/-- Merging a hole with the hole behind it. -/
theorem HeapValid.absorb (hv : HeapValid h rest holes) {s n : ℕ} (ha : Absorbs h h' s n)
    (hs : s∈rest) (hsfree : (h.mem s).isHole=true) (hn : nextOf h s=n) (hn0 : n≠0)
    (hnfree : (h.mem n).isHole=true) :
    HeapValid h' (rest.erase n) (holes.erase n) ∧
      ∀ b e,Busy h' (rest.erase n) b e ↔ Busy h rest b e := by
  have hnrest : n∈rest := hn▸hv.next_mem (List.mem_cons_of_mem _ hs) (hn.symm▸hn0)
  have hnd := (List.nodup_cons.mp hv.nodup).2
  have hndh := (List.nodup_cons.mp hv.holes_nodup).2
  have hbaseKeep := ha.other h.base (fun heq => hv.base_notMem (heq▸hs))
    fun heq => hv.base_notMem (heq▸hnrest)
  obtain ⟨⟨xs,ys,hrest⟩,us,vs,hholes⟩ := hv.adjacent hs hsfree hn hn0 hnfree
  have herase : rest.erase n=xs++s::ys := hrest▸erase_behind (hrest▸hnd)
  have heraseh : holes.erase n=us++s::vs := hholes▸erase_behind (hholes▸hndh)
  have hmem : ∀ b,b∈rest.erase n ↔ b≠n ∧ b∈rest := fun b => hnd.mem_erase_iff
  refine ⟨?_,hv.absorb_busy ha hsfree hnrest hnfree⟩
  constructor
  case chain =>
    rw [ha.base,herase]
    refine Path.bypass (hrest▸hv.chain) (hrest▸hv.nodup) ha.next fun y _ hys hyn => ?_
    exact (ha.other y hys hyn).1
  case apart => exact ha.base▸hv.apart.sublist (List.erase_sublist.cons_cons _)
  case room =>
    intro b hb
    rw [ha.base] at hb
    obtain ⟨hb,hbn⟩ := (hv.mem_erase hnrest).mp hb
    exact hv.absorb_room ha hs hn hn0 hb hbn
  case word => exact ha.endAddr▸hv.word
  case holeChain =>
    rw [ha.base,heraseh,hbaseKeep.1]
    refine Path.bypass (hholes▸hv.holeChain) (hholes▸hv.holes_nodup) ha.hole
      fun y _ hys hyn => ?_
    exact (ha.other y hys hyn).2.1
  case sublist => exact hv.sublist.erase n
  case offChain =>
    intro b hb hno
    obtain ⟨hbn,hb⟩ := (hmem b).mp hb
    have hoff := hv.offChain b hb fun hmem' => hno (hndh.mem_erase_iff.mpr ⟨hbn,hmem'⟩)
    have hbs : b≠s := by
      rintro rfl
      rw [hsfree] at hoff
      exact absurd hoff.1 (by simp)
    obtain ⟨hnext,hhole,-,hfree⟩ := ha.other b hbs hbn
    rw [hfree,hhole,hnext]
    exact hoff
  case lastFree =>
    intro b hb hend
    obtain ⟨hbn,hb⟩ := (hmem b).mp hb
    by_cases hbs : b=s
    · exact hbs▸ha.free
    · obtain ⟨hnext,-,-,hfree⟩ := ha.other b hbs hbn
      rw [hfree]
      exact hv.lastFree b hb (hnext▸hend)
  case baseUsed => rw [ha.base,hbaseKeep.2.2.2]; exact hv.baseUsed
  case baseNext => rw [ha.base,hbaseKeep.1]; exact hv.baseNext
  case back =>
    intro b hb
    obtain ⟨hbn,hb⟩ := (hmem b).mp hb
    exact ha.base▸hv.absorb_back ha hs hn hn0 hb hbn

/-- What the merge with the next block does to the fields of the headers. -/
theorem mergeNext_spec {s : ℕ} (hn0 : nextOf h s≠0) (hfree : (h.mem (nextOf h s)).isHole=true)
    (hne : nextOf h s≠s) :
    (mergeNext h s).base=h.base ∧ (mergeNext h s).endAddr=h.endAddr ∧
      ∀ y,nextOf (mergeNext h s) y=(if y=s then nextOf h (nextOf h s) else nextOf h y) ∧
        holeOf (mergeNext h s) y=(if y=s then holeOf h (nextOf h s) else holeOf h y) ∧
        ((mergeNext h s).mem y).size=
          (if y=s then wadd (h.mem s).size (h.mem (nextOf h s)).size else (h.mem y).size) ∧
        ((mergeNext h s).mem y).isHole=(h.mem y).isHole ∧
        (y≠nextOf h s → prevOf (mergeNext h s) y=prevOf h y) := by
  simp only [nextOf] at hn0 hfree hne
  have hcond : (h.mem s).next≠0 ∧ (h.mem (h.mem s).next).isHole=true := ⟨hn0,hfree⟩
  simp only [mergeNext,if_pos hcond]
  split
  all_goals
    refine ⟨rfl,rfl,fun y => ?_⟩
    simp only [nextOf,holeOf,prevOf,set_mem] at *
    grind

/-- What the merge into the block before does to the fields of the headers. -/
theorem mergePrev_spec {s : ℕ} (hp0 : prevOf h s≠0) (hfree : (h.mem (prevOf h s)).isHole=true)
    (hne : prevOf h s≠s) :
    (mergePrev h s).base=h.base ∧ (mergePrev h s).endAddr=h.endAddr ∧
      ∀ y,nextOf (mergePrev h s) y=(if y=prevOf h s then nextOf h s else nextOf h y) ∧
        holeOf (mergePrev h s) y=(if y=prevOf h s then holeOf h s else holeOf h y) ∧
        ((mergePrev h s).mem y).size=
          (if y=prevOf h s then wadd (h.mem (prevOf h s)).size (h.mem s).size
            else (h.mem y).size) ∧
        ((mergePrev h s).mem y).isHole=(h.mem y).isHole ∧
        prevOf (mergePrev h s) y=
          (if y=nextOf h s ∧ nextOf h s≠0 then prevOf h s else prevOf h y) := by
  simp only [prevOf] at hp0 hfree hne
  have hcond : (h.mem s).prev≠0 ∧ (h.mem (h.mem s).prev).isHole=true := ⟨hp0,hfree⟩
  simp only [mergePrev,if_pos hcond]
  split
  all_goals
    refine ⟨rfl,rfl,fun y => ?_⟩
    simp only [nextOf,holeOf,prevOf,set_mem] at *
    grind

/-- A free block takes over the hole behind it. -/
theorem HeapValid.absorbs_mergeNext (hv : HeapValid h rest holes) {s : ℕ} (hs : s∈rest)
    (hsfree : (h.mem s).isHole=true) (hn0 : nextOf h s≠0)
    (hnfree : (h.mem (nextOf h s)).isHole=true) : Absorbs h (mergeNext h s) s (nextOf h s) := by
  have hsb : s∈h.base::rest := List.mem_cons_of_mem _ hs
  have hlt := hv.lt_next hsb hn0
  simp only [headerSize] at hlt
  have hnb : nextOf h s∈h.base::rest := List.mem_cons_of_mem _ (hv.next_mem hsb hn0)
  obtain ⟨hbase,hend,hfields⟩ := mergeNext_spec hn0 hnfree (by omega)
  have hsum : (h.mem s).size+(h.mem (nextOf h s)).size<2^32 := by
    have h0 := (hv.room s hsb).2
    have h1 := hv.inside hnb
    have h2 := hv.word
    rw [limitOf,if_neg hn0] at h0
    omega
  refine ⟨hbase,hend,?_,?_,?_,?_,fun y hys _ => ?_,fun y hyn => ?_⟩
  · exact ((hfields s).1).trans (if_pos rfl)
  · exact ((hfields s).2.1).trans (if_pos rfl)
  · rw [(hfields s).2.2.1,if_pos rfl,wadd_eq hsum]
  · rw [(hfields s).2.2.2.1,hsfree]
  · obtain ⟨h0,h1,h2,h3,-⟩ := hfields y
    rw [if_neg hys] at h0 h1 h2
    exact ⟨h0,h1,h2,h3⟩
  · exact Or.inl ((hfields y).2.2.2.2 hyn)

/-- A merge without a hole behind changes nothing. -/
theorem mergeNext_of_not {s : ℕ} (hcond : ¬(nextOf h s≠0 ∧ (h.mem (nextOf h s)).isHole=true)) :
    mergeNext h s=h := by
  simp only [nextOf] at hcond
  simp only [mergeNext,if_neg hcond]

/-- A free block merges with the block behind it, or nothing changes. -/
theorem HeapValid.after_mergeNext (hv : HeapValid h rest holes) {s : ℕ} (hs : s∈rest)
    (hsfree : (h.mem s).isHole=true) :
    ∃ rest' holes',HeapValid (mergeNext h s) rest' holes' ∧ s∈rest' ∧
      ((mergeNext h s).mem s).isHole=true ∧
      (∀ b e,Busy (mergeNext h s) rest' b e ↔ Busy h rest b e) ∧
      (∀ x∈rest',x∈rest) ∧ ∀ x∈rest,x ≤ s → x∈rest' := by
  by_cases hcond : nextOf h s≠0 ∧ (h.mem (nextOf h s)).isHole=true
  · obtain ⟨hn0,hnfree⟩ := hcond
    have hlt := hv.lt_next (List.mem_cons_of_mem _ hs) hn0
    simp only [headerSize] at hlt
    have habs := hv.absorbs_mergeNext hs hsfree hn0 hnfree
    obtain ⟨hv',hbusy⟩ := hv.absorb habs hs hsfree rfl hn0 hnfree
    have hmem : ∀ x,x∈rest.erase (nextOf h s) ↔ x≠nextOf h s ∧ x∈rest := fun x =>
      (List.nodup_cons.mp hv.nodup).2.mem_erase_iff
    refine ⟨_,_,hv',(hmem s).mpr ⟨by omega,hs⟩,habs.free,hbusy,fun x hx => ((hmem x).mp hx).2,
      fun x hx hle => (hmem x).mpr ⟨by omega,hx⟩⟩
  · have hsame := mergeNext_of_not hcond
    exact ⟨rest,holes,hsame.symm▸hv,hs,hsame.symm▸hsfree,fun b e => by rw [hsame],
      fun _ hx => hx,fun _ hx _ => hx⟩

/-- A hole in front takes over a free block. -/
theorem HeapValid.absorbs_mergePrev (hv : HeapValid h rest holes) {s : ℕ} (hs : s∈rest)
    (hp0 : prevOf h s≠0) (hpfree : (h.mem (prevOf h s)).isHole=true)
    (hpmem : prevOf h s∈h.base::rest) (hpnext : nextOf h (prevOf h s)=s) :
    prevOf h s∈rest ∧ Absorbs h (mergePrev h s) (prevOf h s) s := by
  have hs0 : s≠0 := hv.ne_zero hs
  have hlt := hv.lt_next hpmem (hpnext.symm▸hs0)
  rw [hpnext] at hlt
  simp only [headerSize] at hlt
  obtain ⟨hbase,hend,hfields⟩ := mergePrev_spec hp0 hpfree (by omega)
  have hprest : prevOf h s∈rest := by
    refine (List.mem_cons.mp hpmem).resolve_left fun heq => ?_
    rw [heq,hv.baseUsed] at hpfree
    contradiction
  have hsum : (h.mem (prevOf h s)).size+(h.mem s).size<2^32 := by
    have h0 := (hv.room _ hpmem).2
    have h1 := hv.inside (List.mem_cons_of_mem _ hs)
    have h2 := hv.word
    rw [limitOf,hpnext,if_neg hs0] at h0
    omega
  refine ⟨hprest,hbase,hend,?_,?_,?_,?_,fun y hys _ => ?_,fun y hyn => ?_⟩
  · exact ((hfields _).1).trans (if_pos rfl)
  · exact ((hfields _).2.1).trans (if_pos rfl)
  · rw [(hfields _).2.2.1,if_pos rfl,wadd_eq hsum]
  · rw [(hfields _).2.2.2.1,hpfree]
  · obtain ⟨h0,h1,h2,h3,-⟩ := hfields y
    rw [if_neg hys] at h0 h1 h2
    exact ⟨h0,h1,h2,h3⟩
  · rw [(hfields y).2.2.2.2]
    split
    case isTrue hy => exact Or.inr ⟨hy.1,rfl⟩
    case isFalse => exact Or.inl rfl

/-- A merge without a hole in front changes nothing. -/
theorem mergePrev_of_not {s : ℕ} (hcond : ¬(prevOf h s≠0 ∧ (h.mem (prevOf h s)).isHole=true)) :
    mergePrev h s=h := by
  simp only [prevOf] at hcond
  simp only [mergePrev,if_neg hcond]

/-- A back link that names no block: the merge changes only memory clear of the
blocks. -/
theorem HeapValid.mergePrev_clear (hv : HeapValid h rest holes) {s : ℕ} (hs : s∈rest)
    (hp0 : prevOf h s≠0) (hpfree : (h.mem (prevOf h s)).isHole=true)
    (hle : prevOf h s+headerSize ≤ s)
    (hclear : ∀ x∈h.base::rest,x+headerSize≤prevOf h s ∨ prevOf h s+headerSize≤x) :
    HeapValid (mergePrev h s) rest holes ∧ (mergePrev h s).base=h.base ∧
      ∀ b∈h.base::rest,nextOf (mergePrev h s) b=nextOf h b ∧
        ((mergePrev h s).mem b).size=(h.mem b).size ∧
        ((mergePrev h s).mem b).isHole=(h.mem b).isHole := by
  have hsb : s∈h.base::rest := List.mem_cons_of_mem _ hs
  simp only [headerSize] at hle hclear
  obtain ⟨hbase,hend,hfields⟩ := mergePrev_spec hp0 hpfree (by omega)
  have hoff : ∀ b∈h.base::rest,b≠prevOf h s := by
    intro b hb heq
    have := hclear b hb
    omega
  have hkeep : ∀ b∈h.base::rest,nextOf (mergePrev h s) b=nextOf h b ∧
      holeOf (mergePrev h s) b=holeOf h b ∧
      ((mergePrev h s).mem b).size=(h.mem b).size ∧
      ((mergePrev h s).mem b).isHole=(h.mem b).isHole := by
    intro b hb
    obtain ⟨h0,h1,h2,h3,-⟩ := hfields b
    rw [if_neg (hoff b hb)] at h0 h1 h2
    exact ⟨h0,h1,h2,h3⟩
  refine ⟨hv.congr hbase hend hkeep fun b hb => ?_,hbase,fun b hb => ?_⟩
  · rw [BackLink,(hfields b).2.2.2.2]
    split
    -- the block behind inherits the link to the clear place
    case isTrue hy =>
      have hlt := hv.lt_next hsb hy.2
      simp only [headerSize] at hlt ⊢
      exact Or.inr ⟨by omega,hclear⟩
    case isFalse =>
      rcases hv.back b hb with ⟨hmem,hnext⟩|hstale
      · exact Or.inl ⟨hmem,(hkeep _ hmem).1.trans hnext⟩
      · exact Or.inr hstale
  · exact ⟨(hkeep b hb).1,(hkeep b hb).2.2⟩

/-- A free block merges into the hole its back link names, if that is a block,
and stays a block itself otherwise. -/
theorem HeapValid.after_mergePrev (hv : HeapValid h rest holes) {s : ℕ} (hs : s∈rest)
    (hsfree : (h.mem s).isHole=true) :
    ∃ rest' holes',HeapValid (mergePrev h s) rest' holes' ∧
      (∀ b e,Busy (mergePrev h s) rest' b e ↔ Busy h rest b e) ∧
      if prevOf h s∈h.base::rest ∧ (h.mem (prevOf h s)).isHole=true then
        prevOf h s∈rest' ∧ Absorbs h (mergePrev h s) (prevOf h s) s
      else s∈rest' ∧ ((mergePrev h s).mem s).isHole=true ∧
        ((mergePrev h s).mem s).size=(h.mem s).size := by
  have hsb : s∈h.base::rest := List.mem_cons_of_mem _ hs
  by_cases hcond : prevOf h s≠0 ∧ (h.mem (prevOf h s)).isHole=true
  · obtain ⟨hp0,hpfree⟩ := hcond
    rcases hv.back s hs with ⟨hpmem,hpnext⟩|⟨hle,hclear⟩
    · obtain ⟨hprest,habs⟩ := hv.absorbs_mergePrev hs hp0 hpfree hpmem hpnext
      obtain ⟨hv',hbusy⟩ := hv.absorb habs hprest hpfree hpnext (hv.ne_zero hs) hsfree
      have hps : prevOf h s≠s := by
        have hlt := hv.lt_next hpmem (hpnext.symm▸hv.ne_zero hs)
        simp only [headerSize] at hlt
        omega
      refine ⟨_,_,hv',hbusy,?_⟩
      rw [if_pos ⟨hpmem,hpfree⟩]
      exact ⟨((List.nodup_cons.mp hv.nodup).2.mem_erase_iff).mpr ⟨hps,hprest⟩,habs⟩
    · obtain ⟨hv',hbase,hkeep⟩ := hv.mergePrev_clear hs hp0 hpfree hle hclear
      have hnot : ¬(prevOf h s∈h.base::rest ∧ (h.mem (prevOf h s)).isHole=true) := by
        rintro ⟨hmem,-⟩
        have := hclear _ hmem
        simp only [headerSize] at this
        omega
      refine ⟨rest,holes,hv',fun b e => ?_,?_⟩
      · unfold Busy
        rw [hbase]
        refine and_congr_right fun hb => ?_
        rw [(hkeep b hb).2.2,(hkeep b hb).1]
      · rw [if_neg hnot]
        exact ⟨hs,(hkeep s hsb).2.2.trans hsfree,(hkeep s hsb).2.1⟩
  · have hsame := mergePrev_of_not hcond
    have hnot : ¬(prevOf h s∈h.base::rest ∧ (h.mem (prevOf h s)).isHole=true) := by
      rintro ⟨hmem,hfree⟩
      have h0 : prevOf h s=0 := not_not.mp fun hne => hcond ⟨hne,hfree⟩
      rcases List.mem_cons.mp hmem with hbase|hrest
      · rw [hbase,hv.baseUsed] at hfree
        contradiction
      · exact hv.ne_zero hrest h0
    rw [hsame]
    refine ⟨rest,holes,hv,fun _ _ => Iff.rfl,?_⟩
    rw [if_neg hnot]
    exact ⟨hs,hsfree,rfl⟩

/-! ## Release -/

/-- Where the insertion walk stops on a chain with a node at or behind the
block: in front of the first such node. -/
theorem insertionWalk_spec {s pv a e fuel : ℕ} {xs : List ℕ} (hpath : Path (holeOf h) a xs e)
    (hend : ∃ x∈xs,s≤x) (hw : insertionWalk h s fuel a=some pv) :
    ∃ us d vs,xs=us++d::vs ∧ pv=(a::us).getLast (by simp) ∧ (∀ u∈us,u<s) ∧ s≤d := by
  induction xs generalizing a fuel with
  | nil => simp at hend
  | cons x xs ih =>
    cases fuel with
    | zero => simp [insertionWalk] at hw
    | succ fuel =>
      have hx : (h.mem a).nextHole=x := hpath.1
      simp only [insertionWalk,hx] at hw
      split at hw
      · simp at hw
      · split at hw
        case isTrue hlt =>
          have hend' : ∃ y∈xs,s≤y := by
            obtain ⟨y,hy,hle⟩ := hend
            rcases List.mem_cons.mp hy with rfl|hy
            · omega
            · exact ⟨y,hy,hle⟩
          obtain ⟨us,d,vs,rfl,hpv,hus,hd⟩ := ih hpath.2 hend' hw
          refine ⟨x::us,d,vs,rfl,?_,?_,hd⟩
          · rw [hpv,List.getLast_cons (by simp : x::us≠[])]
          · exact List.forall_mem_cons.mpr ⟨hlt,hus⟩
        case isFalse hge =>
          exact ⟨[],x,xs,rfl,(Option.some.inj hw).symm,by simp,by omega⟩

/-- The insertion point among the holes. -/
theorem HeapValid.insertionPoint_spec (hv : HeapValid h rest holes) {s pv fuel : ℕ}
    (hs : s∈h.base::rest) (hw : insertionPoint fuel h s=some pv) :
    ∃ us d vs,holes=us++d::vs ∧ pv=(h.base::us).getLast (by simp) ∧ (∀ u∈us,u<s) ∧ s≤d := by
  obtain ⟨t,ht,hlast,hle⟩ := hv.exists_last hs
  have hthole : t∈holes := hv.mem_holes ht (hv.lastFree t ht hlast)
  unfold insertionPoint at hw
  split at hw
  case isTrue hlt =>
    cases hholes : holes with
    | nil => simp [hholes] at hthole
    | cons d vs =>
      have hd : (h.mem h.base).nextHole=d := by
        have hpath := hv.holeChain
        rw [hholes] at hpath
        exact hpath.1
      exact ⟨[],d,vs,rfl,(Option.some.inj hw).symm,by simp,by omega⟩
  case isFalse => exact insertionWalk_spec hv.holeChain ⟨t,hthole,hle⟩ hw

/-- A block marked free and linked behind a hole. -/
def freeBlock (h : Heap) (pv s : ℕ) : Heap :=
  linkHole (h.set s fun b => {b with isHole := true}) pv s

/-- Fields of the headers after freeing a block and linking it. -/
theorem freeBlock_spec {s pv : ℕ} (hne : pv≠s) :
    ∀ y,nextOf (freeBlock h pv s) y=nextOf h y ∧
      prevOf (freeBlock h pv s) y=prevOf h y ∧
      holeOf (freeBlock h pv s) y=
        (if y=pv then s else if y=s then holeOf h pv else holeOf h y) ∧
      ((freeBlock h pv s).mem y).size=(h.mem y).size ∧
      ((freeBlock h pv s).mem y).isHole=
        (if y=s then true else (h.mem y).isHole) := by
  intro y
  simp only [freeBlock,linkHole,nextOf,prevOf,holeOf,set_mem]
  grind

/-- A block between two holes fits the search chain between them. -/
theorem HeapValid.linked_sublist {us vs : List ℕ} {d s : ℕ} (hv : HeapValid h rest (us++d::vs))
    (hs : s∈rest) (hus : ∀ u∈us,u<s) (hsd : s<d) :
    (us++s::d::vs).Sublist rest ∧ s∉us++d::vs := by
  have hholes : (us++d::vs).Pairwise (· < ·) :=
    (List.pairwise_cons.mp hv.holes_apart).2.imp fun hle => by
      simp only [headerSize] at hle
      omega
  have hrest : rest.Pairwise (· < ·) :=
    (List.pairwise_cons.mp hv.apart).2.imp fun hle => by
      simp only [headerSize] at hle
      omega
  have hsplit := List.pairwise_append.mp hholes
  have hbehind : ∀ y∈d::vs,s<y := by
    intro y hy
    rcases List.mem_cons.mp hy with rfl|hy
    · exact hsd
    · exact hsd.trans ((List.pairwise_cons.mp hsplit.2.1).1 y hy)
  have hsorted : (us++s::d::vs).Pairwise (· < ·) := by
    refine List.pairwise_append.mpr ⟨hsplit.1,List.pairwise_cons.mpr ⟨hbehind,hsplit.2.1⟩,
      fun u hu y hy => ?_⟩
    rcases List.mem_cons.mp hy with rfl|hy
    · exact hus u hu
    · exact hsplit.2.2 u hu y hy
  have hsubset : us++s::d::vs⊆rest := by
    intro y hy
    have hmem : y=s ∨ y∈us++d::vs := by
      simp only [List.mem_append,List.mem_cons] at hy ⊢
      tauto
    rcases hmem with rfl|hmem
    · exact hs
    · exact hv.sublist.subset hmem
  refine ⟨List.sublist_of_subperm_of_pairwise (hsorted.nodup.subperm hsubset) hsorted hrest,
    fun hmem => ?_⟩
  rcases List.mem_append.mp hmem with hmem|hmem
  · exact Nat.lt_irrefl s (hus s hmem)
  · exact Nat.lt_irrefl s (hbehind s hmem)

/-- Freeing a block that the search chain left out. -/
theorem HeapValid.link (hv : HeapValid h rest holes) {s pv fuel : ℕ} (hs : s∈rest)
    (hused : (h.mem s).isHole=false) (hw : insertionPoint fuel h s=some pv)
    (hne : holeOf h pv≠s) :
    ∃ holes',HeapValid (freeBlock h pv s) rest holes' ∧
      ∀ b e,Busy (freeBlock h pv s) rest b e ↔
        Busy h rest b e ∧ b≠s := by
  have hsb : s∈h.base::rest := List.mem_cons_of_mem _ hs
  obtain ⟨us,d,vs,rfl,hpv,hus,hd⟩ := hv.insertionPoint_spec hsb hw
  have hholes := hv.holeChain.split
  rw [←hpv] at hholes
  have hpvd : holeOf h pv=d := hholes.2.1
  have hsd : s<d := lt_of_le_of_ne hd fun heq => hne (hpvd.trans heq.symm)
  obtain ⟨hsublist,hsholes⟩ := hv.linked_sublist hs hus hsd
  have hpvmem : pv∈h.base::us := hpv▸List.getLast_mem _
  have hpvs : pv<s := by
    have hbs := hv.base_lt hs
    simp only [headerSize] at hbs
    rcases List.mem_cons.mp hpvmem with rfl|hmem
    · omega
    · exact hus pv hmem
  have hpvhole : pv∈h.base::(us++d::vs) := by
    rcases List.mem_cons.mp hpvmem with rfl|hmem
    · exact List.mem_cons_self
    · exact List.mem_cons_of_mem _ (List.mem_append_left _ hmem)
  have hbases : h.base≠s := fun heq => hv.base_notMem (heq▸hs)
  have hfields := freeBlock_spec (h:=h) (show pv≠s by omega)
  set g := freeBlock h pv s
  refine ⟨us++s::d::vs,?_,fun b e => ?_⟩
  · constructor
    case chain => exact hv.chain.congr fun y _ => (hfields y).1
    case apart => exact hv.apart
    case room =>
      intro b hb
      rw [limitOf,(hfields b).1,(hfields b).2.2.2.1]
      exact hv.room b hb
    case word => exact hv.word
    case holeChain =>
      change Path (holeOf g) h.base (us++s::d::vs) (nextOf g h.base)
      rw [(hfields h.base).1]
      refine hv.holeChain.splice hv.holes_nodup ?_ ?_ fun y hy hyne => ?_
      · rw [←hpv,(hfields pv).2.2.1,if_pos rfl]
      · rw [←hpv,(hfields s).2.2.1,if_neg (by omega),if_pos rfl]
      · have hys : y≠s := by
          rintro rfl
          rcases List.mem_cons.mp hy with rfl|hy
          · exact hv.base_notMem hs
          · exact hsholes hy
        rw [←hpv] at hyne
        rw [(hfields y).2.2.1,if_neg hyne,if_neg hys]
    case sublist => exact hsublist
    case offChain =>
      intro b hb hno
      have hbs : b≠s := fun heq => hno (by simp [heq])
      have hoff : b∉us++d::vs := fun hmem => hno (by
        simp only [List.mem_append,List.mem_cons] at hmem ⊢
        tauto)
      have hbpv : b≠pv := by
        rintro rfl
        rcases List.mem_cons.mp hpvhole with rfl|hmem
        · exact hv.base_notMem hb
        · exact hoff hmem
      rw [(hfields b).2.2.2.2,(hfields b).2.2.1,(hfields b).1,if_neg hbs,if_neg hbpv,if_neg hbs]
      exact hv.offChain b hb hoff
    case lastFree =>
      intro b hb hn
      rw [(hfields b).1] at hn
      rw [(hfields b).2.2.2.2]
      split
      case isTrue => rfl
      case isFalse => exact hv.lastFree b hb hn
    case baseUsed =>
      change (g.mem h.base).isHole=false
      rw [(hfields h.base).2.2.2.2,if_neg hbases]
      exact hv.baseUsed
    case baseNext =>
      change nextOf g h.base≠0
      rw [(hfields h.base).1]
      exact hv.baseNext
    case back =>
      intro b hb
      have hold := hv.back b hb
      rw [BackLink] at hold ⊢
      rw [(hfields b).2.1,(hfields (prevOf h b)).1]
      exact hold
  · change b∈h.base::rest ∧ (g.mem b).isHole=false ∧ nextOf g b=e ↔ _
    rw [(hfields b).2.2.2.2,(hfields b).1,Busy]
    by_cases hbs : b=s
    · simp [hbs]
    · simp [hbs]

/-- The insertion point depends on the search links alone. -/
theorem insertionPoint_set (h : Heap) (s fuel : ℕ) :
    insertionPoint fuel (h.set s fun b => {b with isHole := true}) s=insertionPoint fuel h s := by
  have hkeep : ∀ y,((h.set s fun b => {b with isHole := true}).mem y).nextHole=
      (h.mem y).nextHole := by
    intro y
    rw [set_mem]
    split
    case isTrue heq => rw [heq]
    case isFalse => rfl
  have hwalk : ∀ fuel a,insertionWalk (h.set s fun b => {b with isHole := true}) s fuel a=
      insertionWalk h s fuel a := by
    intro fuel
    induction fuel with
    | zero => intro a; rfl
    | succ fuel ih =>
      intro a
      simp only [insertionWalk,hkeep,ih]
  simp only [insertionPoint,set_base,hkeep,hwalk]

/-- A release is ignored, or links the block and merges it on both sides. -/
theorem kfree_cases {s addr fuel : ℕ} (haddr : wsub addr headerSize=s)
    (hf : kfree fuel h addr=some h') :
    (h'=h ∧ (addr=0 ∨ h.endAddr<addr ∨ addr<h.base ∨
      (h.mem s).magicNum≠BLOCK_HEADER_MAGIC_NUM)) ∨
    ∃ pv,insertionPoint fuel h s=some pv ∧ h'=mergePrev (mergeNext (freeBlock h pv s) s) s := by
  unfold HeapAllocator.kfree at hf
  simp only [haddr] at hf
  split at hf
  case isTrue h0 => exact Or.inl ⟨(Option.some.inj hf).symm,Or.inl h0⟩
  split at hf
  case isTrue hout =>
    refine Or.inl ⟨(Option.some.inj hf).symm,Or.inr ?_⟩
    rcases hout with hend|hbase
    · exact Or.inl hend
    · exact Or.inr (Or.inl hbase)
  split at hf
  case isTrue hm => exact Or.inl ⟨(Option.some.inj hf).symm,Or.inr (Or.inr (Or.inr hm))⟩
  rw [insertionPoint_set] at hf
  obtain ⟨pv,hpv,hres⟩ := Option.bind_eq_some_iff.mp hf
  exact Or.inr ⟨pv,hpv,(Option.some.inj hres).symm⟩

/-- A block freed is free. -/
theorem freeBlock_free (h : Heap) {s pv : ℕ} (hne : pv≠s) :
    ((freeBlock h pv s).mem s).isHole=true := (freeBlock_spec hne s).2.2.2.2.trans (if_pos rfl)

/-- A block that is freed goes behind another one. -/
theorem HeapValid.insertionPoint_ne (hv : HeapValid h rest holes) {s pv fuel : ℕ} (hs : s∈rest)
    (hw : insertionPoint fuel h s=some pv) : pv≠s := by
  obtain ⟨us,d,vs,-,hpv,hus,-⟩ := hv.insertionPoint_spec (List.mem_cons_of_mem _ hs) hw
  have hmem : pv∈h.base::us := hpv▸List.getLast_mem _
  rintro rfl
  rcases List.mem_cons.mp hmem with rfl|hmem
  · exact hv.base_notMem hs
  · exact Nat.lt_irrefl pv (hus pv hmem)

/-- Freeing a block in use that the search chain left out, merges included. -/
theorem HeapValid.kfree (hv : HeapValid h rest holes) {s addr fuel : ℕ}
    (haddr : wsub addr headerSize=s) (hs : s∈rest) (hused : (h.mem s).isHole=false)
    (hne : ∀ fuel pv,insertionPoint fuel h s=some pv → holeOf h pv≠s)
    (hf : kfree fuel h addr=some h') :
    h'=h ∨ ∃ rest' holes',HeapValid h' rest' holes' ∧
      ∀ b e,Busy h' rest' b e ↔ Busy h rest b e ∧ b≠s := by
  rcases kfree_cases haddr hf with ⟨hsame,-⟩|⟨pv,hpv,rfl⟩
  · exact Or.inl hsame
  right
  obtain ⟨holes₁,hv₁,hbusy₁⟩ := hv.link hs hused hpv (hne fuel pv hpv)
  have hsfree := freeBlock_free h (hv.insertionPoint_ne hs hpv)
  obtain ⟨rest₂,holes₂,hv₂,hs₂,hsfree₂,hbusy₂,-,-⟩ := hv₁.after_mergeNext hs hsfree
  obtain ⟨rest₃,holes₃,hv₃,hbusy₃,-⟩ := hv₂.after_mergePrev hs₂ hsfree₂
  exact ⟨rest₃,holes₃,hv₃,fun b e => (hbusy₃ b e).trans ((hbusy₂ b e).trans (hbusy₁ b e))⟩

/-! ## Allocation -/

/-- Search link of the hole behind an allocation from the last block. -/
def newLink (h : Heap) (s new : ℕ) : ℕ :=
  nullIfAllOnes (if s=h.base ∧ (holeOf h h.base=0 ∨ holeOf h h.base=s) then new else holeOf h s)

/-- Fields of the headers after an allocation that splits the block. -/
theorem takeBlock_splits_spec {s size dataBase new : ℕ} (hsplit : splits h s size)
    (hnew : wadd dataBase size=new) (hns : new≠s) (hnb : new≠h.base) :
    ∀ y,nextOf (takeBlock h s size dataBase) y=
        (if y=s then new else if y=new then nullIfAllOnes (nextOf h s) else nextOf h y) ∧
      holeOf (takeBlock h s size dataBase) y=
        (if y=s then new else if y=new then newLink h s new
          else if y=h.base ∧ (holeOf h h.base=0 ∨ holeOf h h.base=s) then new else holeOf h y) ∧
      ((takeBlock h s size dataBase).mem y).size=
        (if y=s then wadd size headerSize
          else if y=new then wsub (wsub h.endAddr dataBase) size else (h.mem y).size) ∧
      ((takeBlock h s size dataBase).mem y).isHole=
        (if y=s then false else if y=new then true else (h.mem y).isHole) ∧
      prevOf (takeBlock h s size dataBase) y=(if y=new then s else prevOf h y) := by
  -- the first block's search link is rewritten before the block's own is read
  obtain ⟨g,hg,hend,hmem⟩ : ∃ g,(if (h.mem h.base).nextHole=0 ∨ (h.mem h.base).nextHole=s then
      h.set h.base fun b => {b with nextHole := new} else h)=g ∧ g.endAddr=h.endAddr ∧
      ∀ y,nextOf g y=nextOf h y ∧ prevOf g y=prevOf h y ∧ (g.mem y).size=(h.mem y).size ∧
        (g.mem y).isHole=(h.mem y).isHole ∧
        holeOf g y=
          if y=h.base ∧ (holeOf h h.base=0 ∨ holeOf h h.base=s) then new else holeOf h y := by
    refine ⟨_,rfl,by split <;> rfl,fun y => ?_⟩
    simp only [nextOf,prevOf,holeOf]
    split
    case isTrue hhead =>
      rw [set_mem]
      by_cases hy : y=h.base
      · simp [hy,hhead]
      · simp [hy]
    case isFalse hhead => simp [hhead]
  intro y
  simp only [takeBlock,if_pos hsplit,splitBlock,hnew,hg]
  simp only [nextOf,prevOf,holeOf] at hmem ⊢
  rcases eq_or_ne y s with rfl|hys
  · simp [set_mem,hns.symm,(hmem y).2.1]
  rcases eq_or_ne y new with rfl|hyn
  · simp [set_mem,hys,hys.symm,(hmem s).1,(hmem s).2.2.2.2,hend,newLink,holeOf]
  · simp [set_mem,hys,hyn,hmem y]

/-- Fields of the headers after an allocation from the last block. -/
theorem takeBlock_split_spec {s size dataBase new : ℕ} (hn : nextOf h s=0)
    (hnew : wadd dataBase size=new) (hns : new≠s) (hnb : new≠h.base) :
    ∀ y,nextOf (takeBlock h s size dataBase) y=
        (if y=s then new else if y=new then 0 else nextOf h y) ∧
      holeOf (takeBlock h s size dataBase) y=
        (if y=s then new else if y=new then newLink h s new
          else if y=h.base ∧ (holeOf h h.base=0 ∨ holeOf h h.base=s) then new else holeOf h y) ∧
      ((takeBlock h s size dataBase).mem y).size=
        (if y=s then wadd size headerSize
          else if y=new then wsub (wsub h.endAddr dataBase) size else (h.mem y).size) ∧
      ((takeBlock h s size dataBase).mem y).isHole=
        (if y=s then false else if y=new then true else (h.mem y).isHole) ∧
      prevOf (takeBlock h s size dataBase) y=(if y=new then s else prevOf h y) := by
  have hnull : nullIfAllOnes (nextOf h s)=0 := by rw [hn]; rfl
  have hfields := takeBlock_splits_spec (Or.inl hn : splits h s size) hnew hns hnb
  rwa [hnull] at hfields

/-- A heap as it is before the first allocation: one hole. -/
structure HeapFresh (h : Heap) : Prop where
  /-- The first block is free. -/
  free : (h.mem h.base).isHole=true
  /-- It has no successor. -/
  next : nextOf h h.base=0
  /-- The search ends behind it. -/
  hole : holeOf h h.base=0
  /-- It is the whole heap. -/
  size : h.base+(h.mem h.base).size=h.endAddr
  /-- Its header fits. -/
  header : headerSize≤(h.mem h.base).size
  /-- The heap ends within the address space. -/
  word : h.endAddr<2^32

/-- Allocation moves neither limit of the heap. -/
theorem takeBlock_limits (h : Heap) (s size dataBase : ℕ) :
    (takeBlock h s size dataBase).base=h.base ∧
      (takeBlock h s size dataBase).endAddr=h.endAddr := by
  have hsplit : (splitBlock h s size dataBase).base=h.base ∧
      (splitBlock h s size dataBase).endAddr=h.endAddr := by
    simp only [splitBlock,set_base,set_endAddr]
    split <;> exact ⟨rfl,rfl⟩
  simp only [takeBlock,set_base,set_endAddr]
  split
  · exact hsplit
  · exact ⟨rfl,rfl⟩

/-- The first allocation. The hole behind it is on the search chain and leads
to itself. -/
theorem HeapFresh.allocate (hv : HeapFresh h) {size dataBase new : ℕ}
    (hdata : h.base+headerSize≤dataBase) (hnew : dataBase+size=new)
    (hend : new+headerSize≤h.endAddr) :
    HeapValid (takeBlock h h.base size dataBase) [new] [new] ∧
      ∀ b e,Busy (takeBlock h h.base size dataBase) [new] b e ↔ b=h.base ∧ e=new := by
  have hword := hv.word
  simp only [headerSize] at hdata hend
  have hne : new≠h.base := by omega
  have hlink : newLink h h.base new=new := by
    rw [newLink,if_pos ⟨rfl,Or.inl hv.hole⟩,nullIfAllOnes,if_neg (by omega)]
  have hfields := takeBlock_split_spec hv.next ((wadd_eq (by omega)).trans hnew) hne hne
  obtain ⟨hbase,hlimit⟩ := takeBlock_limits h h.base size dataBase
  set g := takeBlock h h.base size dataBase
  obtain ⟨hnextb,hholeb,hsizeb,hfreeb,-⟩ := hfields h.base
  obtain ⟨hnextn,hholen,hsizen,hfreen,hprevn⟩ := hfields new
  rw [if_pos rfl] at hnextb hholeb hsizeb hfreeb hprevn
  rw [if_neg hne,if_pos rfl] at hnextn hholen hsizen hfreen
  rw [wadd_eq (by simp only [headerSize]; omega)] at hsizeb
  rw [wsub_eq (by omega) hword,wsub_eq (by omega) (by omega)] at hsizen
  refine ⟨?_,fun b e => ?_⟩
  · constructor
    case chain => exact hbase▸⟨hnextb,hnextn⟩
    case apart =>
      rw [hbase]
      refine List.pairwise_pair.mpr ?_
      simp only [headerSize]
      omega
    case room =>
      rw [hbase]
      intro b hb
      simp only [headerSize] at hsizeb ⊢
      rcases List.mem_pair.mp hb with rfl|rfl
      · rw [limitOf,hnextb,if_neg (by omega),hsizeb]
        omega
      · rw [limitOf,if_pos hnextn,hsizen,hlimit]
        omega
    case word => exact hlimit.symm▸hword
    case holeChain =>
      rw [hbase,hnextb]
      exact ⟨hholeb,hholen.trans hlink⟩
    case sublist => exact List.Sublist.refl _
    case offChain => exact fun b hb hno => absurd hb hno
    case lastFree =>
      intro b hb _
      rw [List.mem_singleton.mp hb]
      exact hfreen
    case baseUsed => rw [hbase]; exact hfreeb
    case baseNext =>
      rw [hbase,hnextb]
      omega
    case back =>
      intro b hb
      rw [List.mem_singleton.mp hb,hbase]
      exact Or.inl ⟨hprevn.symm▸List.mem_cons_self,by rw [hprevn,hnextb]⟩
  · rw [Busy,hbase]
    constructor
    · rintro ⟨hb,hused,hnext⟩
      rcases List.mem_pair.mp hb with rfl|rfl
      · exact ⟨rfl,hnext.symm.trans hnextb⟩
      · rw [hfreen] at hused
        contradiction
    · rintro ⟨rfl,rfl⟩
      exact ⟨List.mem_cons_self,hfreeb,hnextb⟩

/-- Allocation of a whole hole. -/
theorem HeapValid.reuse (hv : HeapValid h rest holes) {s size : ℕ} (hs : s∈rest)
    (hfree : (h.mem s).isHole=true) (hn : nextOf h s≠0) (hheader : headerSize ≤ size)
    (hsize : size≤(h.mem s).size) :
    HeapValid (h.set s fun b => {b with isHole := false,size := size}) rest holes ∧
      ∀ b e,Busy (h.set s fun b => {b with isHole := false,size := size}) rest b e ↔
        Busy h rest b e ∨ (b=s ∧ e=nextOf h s) := by
  have hfields : ∀ y,nextOf (h.set s fun b => {b with isHole := false,size := size}) y=nextOf h y ∧
      holeOf (h.set s fun b => {b with isHole := false,size := size}) y=holeOf h y ∧
      prevOf (h.set s fun b => {b with isHole := false,size := size}) y=prevOf h y ∧
      ((h.set s fun b => {b with isHole := false,size := size}).mem y).size=
        (if y=s then size else (h.mem y).size) ∧
      ((h.set s fun b => {b with isHole := false,size := size}).mem y).isHole=
        (if y=s then false else (h.mem y).isHole) := by
    intro y
    simp only [nextOf,holeOf,prevOf,set_mem]
    grind
  have hbases : h.base≠s := fun heq => hv.base_notMem (heq▸hs)
  set g := h.set s fun b => {b with isHole := false,size := size}
  refine ⟨?_,fun b e => ?_⟩
  · constructor
    case chain => exact hv.chain.congr fun y _ => (hfields y).1
    case apart => exact hv.apart
    case room =>
      intro b hb
      have hold := hv.room b hb
      rw [limitOf,(hfields b).1,(hfields b).2.2.2.1]
      split
      case isTrue heq =>
        subst heq
        exact ⟨hheader,(Nat.add_le_add_left hsize b).trans hold.2⟩
      case isFalse => exact hold
    case word => exact hv.word
    case holeChain =>
      change Path (holeOf g) h.base holes (nextOf g h.base)
      rw [(hfields h.base).1]
      exact hv.holeChain.congr fun y _ => (hfields y).2.1
    case sublist => exact hv.sublist
    case offChain =>
      intro b hb hno
      have hbs : b≠s := fun heq => hno (heq▸hv.mem_holes hs hfree)
      rw [(hfields b).2.2.2.2,(hfields b).2.1,(hfields b).1,if_neg hbs]
      exact hv.offChain b hb hno
    case lastFree =>
      intro b hb hend
      rw [(hfields b).1] at hend
      have hbs : b≠s := fun heq => hn (heq▸hend)
      rw [(hfields b).2.2.2.2,if_neg hbs]
      exact hv.lastFree b hb hend
    case baseUsed =>
      change (g.mem h.base).isHole=false
      rw [(hfields h.base).2.2.2.2,if_neg hbases]
      exact hv.baseUsed
    case baseNext =>
      change nextOf g h.base≠0
      rw [(hfields h.base).1]
      exact hv.baseNext
    case back =>
      intro b hb
      have hold := hv.back b hb
      rw [BackLink] at hold ⊢
      rw [(hfields b).2.2.1,(hfields (prevOf h b)).1]
      exact hold
  · change b∈h.base::rest ∧ (g.mem b).isHole=false ∧ nextOf g b=e ↔ _
    rw [(hfields b).2.2.2.2,(hfields b).1,Busy]
    by_cases hbs : b=s
    · subst hbs
      simp [hs,hfree,eq_comm]
    · simp [hbs]

/-- Where the search chain leads with the last block. -/
theorem HeapValid.holes_last (hv : HeapValid h rest holes) {s : ℕ} (hs : s∈rest)
    (hlast : nextOf h s=0) : ∃ us,holes=us++[s] ∧ holeOf h s=nextOf h h.base := by
  obtain ⟨us,vs,rfl⟩ := List.append_of_mem (hv.mem_holes hs (hv.lastFree s hs hlast))
  cases vs with
  | nil => exact ⟨us,rfl,(path_append.mp hv.holeChain).2⟩
  | cons v vs =>
    have hsorted := (List.pairwise_append.mp (List.pairwise_cons.mp hv.holes_apart).2).2.1
    have hsv := (List.pairwise_cons.mp hsorted).1 v List.mem_cons_self
    simp only [headerSize] at hsv
    have hv0 : v∈rest := hv.sublist.subset (by simp)
    exact absurd hlast (hv.next_le (List.mem_cons_of_mem _ hs) (List.mem_cons_of_mem _ hv0)
      (by omega)).1

/-- The last block ends both chains. -/
theorem HeapValid.getLast_eq (hv : HeapValid h rest holes) {s : ℕ} (hs : s∈rest)
    (hlast : nextOf h s=0) : (h.base::rest).getLast (by simp)=s := by
  obtain ⟨xs,ys,heq,hpath,-⟩ := hv.around (List.mem_cons_of_mem _ hs)
  cases ys with
  | nil => simp only [heq,List.getLast_append_singleton]
  | cons y ys =>
    have hy : nextOf h s=y := hpath.1
    have hmem : y∈h.base::rest := by simp [heq]
    have hb := hv.room s (List.mem_cons_of_mem _ hs)
    rw [hlast] at hy
    subst hy
    rcases List.mem_cons.mp hmem with h0|h0
    · have hbase := hv.base_lt hs
      have hsorted := hv.apart
      rw [heq,List.pairwise_append,List.pairwise_cons] at hsorted
      have := hsorted.2.1.1 0 List.mem_cons_self
      simp only [headerSize] at this
      omega
    · exact absurd rfl (hv.ne_zero h0)

/-- No block lies behind the last one. -/
theorem HeapValid.le_last (hv : HeapValid h rest holes) {s b : ℕ} (hs : s∈rest)
    (hlast : nextOf h s=0) (hb : b∈h.base::rest) : b ≤ s := by
  by_contra hlt
  exact (hv.next_le (List.mem_cons_of_mem _ hs) hb (by omega)).1 hlast

/-- The headers after an allocation from the last block `s`, with `new` as the
new last block. -/
structure Extended (h g : Heap) (rest : List ℕ) (s new : ℕ) : Prop where
  /-- The first block. -/
  base_eq : g.base=h.base
  /-- The end of the heap. -/
  end_eq : g.endAddr=h.endAddr
  /-- The new block lies behind the others. -/
  behind : ∀ b∈h.base::rest,b+headerSize≤new
  /-- Other blocks keep their successor, size and state. -/
  kept : ∀ b∈h.base::rest,b≠s → nextOf g b=nextOf h b ∧ (g.mem b).size=(h.mem b).size ∧
    (g.mem b).isHole=(h.mem b).isHole
  /-- Search links are kept, except the first block's where it led to `s`. -/
  holeKept : ∀ b∈h.base::rest,b≠s →
    b≠h.base ∨ (holeOf h h.base≠0 ∧ holeOf h h.base≠s) → holeOf g b=holeOf h b
  /-- Back links are kept. -/
  prevKept : ∀ b∈h.base::rest,prevOf g b=prevOf h b
  /-- The first block's search link no longer leads to `s`. -/
  baseHole : holeOf h h.base=s → holeOf g h.base=new
  /-- The block taken leads to the new one. -/
  taken : nextOf g s=new ∧ holeOf g s=new ∧ (g.mem s).isHole=false
  /-- Its memory ends at the new block. -/
  takenRoom : headerSize≤(g.mem s).size ∧ s+(g.mem s).size≤new
  /-- The new block is the last one and free, and closes the search chain. -/
  added : nextOf g new=0 ∧ holeOf g new=nextOf h h.base ∧ prevOf g new=s ∧
    (g.mem new).isHole=true
  /-- Its memory ends with the heap. -/
  addedRoom : headerSize≤(g.mem new).size ∧ new+(g.mem new).size≤h.endAddr

/-- What an allocation from the last block writes. -/
theorem HeapValid.takeBlock_extended (hv : HeapValid h rest holes) {s size dataBase new : ℕ}
    (hs : s∈rest) (hlast : nextOf h s=0) (hdata : s+headerSize≤dataBase)
    (hnew : dataBase+size=new) (hend : new+headerSize≤h.endAddr) :
    Extended h (takeBlock h s size dataBase) rest s new := by
  have hword := hv.word
  have hsb : s∈h.base::rest := List.mem_cons_of_mem _ hs
  simp only [headerSize] at hdata hend
  have hbehind : ∀ b∈h.base::rest,b+headerSize≤new := by
    intro b hb
    have := hv.le_last hs hlast hb
    simp only [headerSize]
    omega
  have hoff : ∀ b∈h.base::rest,b≠new := by
    intro b hb heq
    have := hbehind b hb
    simp only [headerSize] at this
    omega
  have hbases : h.base≠s := fun heq => hv.base_notMem (heq▸hs)
  have hfirst : nextOf h h.base∈rest := hv.next_mem List.mem_cons_self hv.baseNext
  obtain ⟨us,hus,hloop⟩ := hv.holes_last hs hlast
  have hlink : newLink h s new=nextOf h h.base := by
    have h0 := hv.inside (List.mem_cons_of_mem _ hfirst)
    have h1 := (hv.room _ (List.mem_cons_of_mem _ hfirst)).1
    simp only [headerSize] at h1
    rw [newLink,if_neg fun hand => hbases hand.1.symm,hloop,nullIfAllOnes,if_neg (by omega)]
  have hfields := takeBlock_split_spec hlast ((wadd_eq (by omega)).trans hnew)
    (hoff s hsb).symm (hoff h.base List.mem_cons_self).symm
  obtain ⟨hbase,hlimit⟩ := takeBlock_limits h s size dataBase
  set g := takeBlock h s size dataBase
  obtain ⟨hnexts,hholes,hsizes,hfrees,-⟩ := hfields s
  obtain ⟨hnextn,hholen,hsizen,hfreen,hprevn⟩ := hfields new
  rw [if_pos rfl] at hnexts hholes hsizes hfrees hprevn
  rw [if_neg (hoff s hsb).symm,if_pos rfl] at hnextn hholen hsizen hfreen
  rw [wadd_eq (by simp only [headerSize]; omega)] at hsizes
  rw [wsub_eq (by omega) hword,wsub_eq (by omega) (by omega)] at hsizen
  refine ⟨hbase,hlimit,hbehind,fun b hb hbs => ?_,fun b hb hbs hor => ?_,fun b hb => ?_,
    fun hhead => ?_,⟨hnexts,hholes,hfrees⟩,?_,⟨hnextn,hholen.trans hlink,hprevn,hfreen⟩,?_⟩
  · obtain ⟨h0,-,h2,h3,-⟩ := hfields b
    rw [if_neg hbs,if_neg (hoff b hb)] at h0 h2 h3
    exact ⟨h0,h2,h3⟩
  · have h1 := (hfields b).2.1
    rw [if_neg hbs,if_neg (hoff b hb)] at h1
    exact h1.trans (if_neg (by tauto))
  · rw [(hfields b).2.2.2.2,if_neg (hoff b hb)]
  · rw [(hfields h.base).2.1,if_neg hbases,if_neg (hoff _ List.mem_cons_self),
      if_pos ⟨rfl,Or.inr hhead⟩]
  · rw [hsizes]
    simp only [headerSize]
    omega
  · rw [hsizen]
    simp only [headerSize]
    omega

/-- The search chain leads through the new block. The block taken stays on it
unless it was the only one there. -/
theorem HeapValid.extended_holes (hv : HeapValid h rest holes) {g : Heap} {s new : ℕ}
    (he : Extended h g rest s new) (hs : s∈rest) (hlast : nextOf h s=0) : ∃ holes',
      Path (holeOf g) h.base holes' (nextOf h h.base) ∧ holes'.Sublist (rest++[new]) ∧
      new∈holes' ∧ ∀ b∈rest,b∉holes' →
        (b=s ∨ b∉holes) ∧ (b≠h.base ∧ b≠s → holeOf g b=holeOf h b) := by
  obtain ⟨us,hus,-⟩ := hv.holes_last hs hlast
  have hpath := hv.holeChain
  cases us with
  | nil =>
    rw [List.nil_append] at hus
    rw [hus] at hpath
    refine ⟨[new],⟨he.baseHole hpath.1,he.added.2.1⟩,List.sublist_append_right _ _,
      List.mem_singleton_self _,fun b hb _ => ⟨?_,fun hne => ?_⟩⟩
    · rw [hus,List.mem_singleton]
      tauto
    · exact he.holeKept b (List.mem_cons_of_mem _ hb) hne.2 (Or.inl hne.1)
  | cons u us =>
    have hbaseHole : holeOf h h.base≠0 ∧ holeOf h h.base≠s := by
      rw [hus] at hpath
      have hu : u∈rest := hv.sublist.subset (by simp [hus])
      rw [show holeOf h h.base=u from hpath.1]
      refine ⟨hv.ne_zero hu,?_⟩
      have hnd := (List.nodup_cons.mp hv.holes_nodup).2
      rw [hus,List.cons_append] at hnd
      rintro rfl
      exact (List.nodup_cons.mp hnd).1 (by simp)
    have hlastHole : (h.base::holes).getLast (by simp)=s := by
      simp only [hus,←List.cons_append,List.getLast_append_singleton]
    refine ⟨holes++[new],?_,hv.sublist.append_right _,by simp,fun b hb hno => ⟨?_,?_⟩⟩
    · refine hpath.concat hv.holes_nodup ?_ he.added.2.1 fun y hy hys => ?_
      · rw [hlastHole,he.taken.2.1]
      · rw [hlastHole] at hys
        exact he.holeKept y (hv.sublist.cons_cons _|>.subset hy) hys (Or.inr hbaseHole)
    · exact Or.inr fun hmem => hno (List.mem_append_left _ hmem)
    · exact fun hne => he.holeKept b (List.mem_cons_of_mem _ hb) hne.2 (Or.inl hne.1)

/-- Sizes cover the header and end before the successor. -/
theorem HeapValid.extended_room (hv : HeapValid h rest holes) {g : Heap} {s new : ℕ}
    (he : Extended h g rest s new) : ∀ b∈h.base::(rest++[new]),
      headerSize≤(g.mem b).size ∧ b+(g.mem b).size≤limitOf g b := by
  rw [←List.cons_append]
  intro b hb
  rcases List.mem_append.mp hb with hb|hb
  · by_cases hbs : b=s
    · have hpos := he.behind b hb
      simp only [headerSize] at hpos
      rw [hbs,limitOf,he.taken.1,if_neg (by omega)]
      exact he.takenRoom
    · obtain ⟨hnext,hsize,-⟩ := he.kept b hb hbs
      have hold := hv.room b hb
      rw [limitOf] at hold ⊢
      rwa [hnext,hsize,he.end_eq]
  · rw [List.mem_singleton.mp hb,limitOf,if_pos he.added.1,he.end_eq]
    exact he.addedRoom

/-- Back links. -/
theorem HeapValid.extended_back (hv : HeapValid h rest holes) {g : Heap} {s new : ℕ}
    (he : Extended h g rest s new) (hs : s∈rest) (hlast : nextOf h s=0) :
    ∀ b∈rest++[new],BackLink g (h.base::(rest++[new])) b := by
  rw [←List.cons_append]
  intro b hb
  rcases List.mem_append.mp hb with hb|hb
  · rw [BackLink,he.prevKept b (List.mem_cons_of_mem _ hb)]
    rcases hv.back b hb with ⟨hmem,hnext⟩|⟨hle,hclear⟩
    · have hps : prevOf h b≠s := by
        intro heq
        rw [heq,hlast] at hnext
        exact hv.ne_zero hb hnext.symm
      exact Or.inl ⟨List.mem_append_left _ hmem,(he.kept _ hmem hps).1.trans hnext⟩
    · refine Or.inr ⟨hle,fun x hx => ?_⟩
      rcases List.mem_append.mp hx with hx|hx
      · exact hclear x hx
      · have := he.behind b (List.mem_cons_of_mem _ hb)
        simp only [headerSize] at hle this ⊢
        rw [List.mem_singleton.mp hx]
        omega
  · rw [List.mem_singleton.mp hb]
    refine Or.inl ⟨?_,by rw [he.added.2.2.1,he.taken.1]⟩
    rw [he.added.2.2.1]
    exact List.mem_append_left _ (List.mem_cons_of_mem _ hs)

/-- The block taken is in use, and the others in use stay so. -/
theorem HeapValid.extended_busy (hv : HeapValid h rest holes) {g : Heap} {s new : ℕ}
    (he : Extended h g rest s new) (hs : s∈rest) (hlast : nextOf h s=0) (b e : ℕ) :
    Busy g (rest++[new]) b e ↔ Busy h rest b e ∨ (b=s ∧ e=new) := by
  rw [Busy,he.base_eq,←List.cons_append]
  constructor
  · rintro ⟨hb,hused,hnext⟩
    rcases List.mem_append.mp hb with hb|hb
    · by_cases hbs : b=s
      · exact Or.inr ⟨hbs,by rw [←hnext,hbs,he.taken.1]⟩
      · obtain ⟨h0,-,h2⟩ := he.kept b hb hbs
        exact Or.inl ⟨hb,h2▸hused,h0▸hnext⟩
    · rw [List.mem_singleton.mp hb,he.added.2.2.2] at hused
      contradiction
  · rintro (⟨hb,hused,hnext⟩|⟨rfl,rfl⟩)
    · have hbs : b≠s := by
        rintro rfl
        rw [hv.lastFree b hs hlast] at hused
        contradiction
      obtain ⟨h0,-,h2⟩ := he.kept b hb hbs
      exact ⟨List.mem_append_left _ hb,h2.trans hused,h0.trans hnext⟩
    · exact ⟨List.mem_append_left _ (List.mem_cons_of_mem _ hs),he.taken.2.2,he.taken.1⟩

/-- Allocation from the last block. The block stays on the search chain unless
it was the only one there. -/
theorem HeapValid.extend (hv : HeapValid h rest holes) {s size dataBase new : ℕ} (hs : s∈rest)
    (hlast : nextOf h s=0) (hdata : s+headerSize≤dataBase) (hnew : dataBase+size=new)
    (hend : new+headerSize≤h.endAddr) :
    ∃ holes',HeapValid (takeBlock h s size dataBase) (rest++[new]) holes' ∧
      ∀ b e,Busy (takeBlock h s size dataBase) (rest++[new]) b e ↔
        Busy h rest b e ∨ (b=s ∧ e=new) := by
  have he := hv.takeBlock_extended hs hlast hdata hnew hend
  obtain ⟨holes',hholeChain,hsub,hnewmem,hkept⟩ := hv.extended_holes he hs hlast
  have hbases : h.base≠s := fun heq => hv.base_notMem (heq▸hs)
  obtain ⟨hbaseNext,-,hbaseUsed⟩ := he.kept h.base List.mem_cons_self hbases
  refine ⟨holes',?_,hv.extended_busy he hs hlast⟩
  constructor
  case chain =>
    rw [he.base_eq]
    refine hv.chain.concat hv.nodup ?_ he.added.1 fun y hy hys => ?_
    · rw [hv.getLast_eq hs hlast,he.taken.1]
    · rw [hv.getLast_eq hs hlast] at hys
      exact (he.kept y hy hys).1
  case apart =>
    rw [he.base_eq,←List.cons_append,List.pairwise_append]
    refine ⟨hv.apart,List.pairwise_singleton _ _,fun a ha b hb => ?_⟩
    rw [List.mem_singleton.mp hb]
    exact he.behind a ha
  case room =>
    rw [he.base_eq]
    exact hv.extended_room he
  case word => exact he.end_eq.symm▸hv.word
  case holeChain =>
    rw [he.base_eq,hbaseNext]
    exact hholeChain
  case sublist => exact hsub
  case offChain =>
    intro b hb hno
    rcases List.mem_append.mp hb with hb|hb
    · obtain ⟨hor,hsame⟩ := hkept b hb hno
      by_cases hbs : b=s
      · rw [hbs]
        exact ⟨he.taken.2.2,he.taken.2.1.trans he.taken.1.symm⟩
      · have hbb : b≠h.base := fun heq => hv.base_notMem (heq▸hb)
        obtain ⟨h0,-,h2⟩ := he.kept b (List.mem_cons_of_mem _ hb) hbs
        rw [h2,hsame ⟨hbb,hbs⟩,h0]
        exact hv.offChain b hb (hor.resolve_left hbs)
    · rw [List.mem_singleton.mp hb] at hno
      exact absurd hnewmem hno
  case lastFree =>
    intro b hb hlastb
    rcases List.mem_append.mp hb with hb|hb
    · by_cases hbs : b=s
      · have hpos := he.behind b (List.mem_cons_of_mem _ hb)
        simp only [headerSize] at hpos
        rw [hbs,he.taken.1] at hlastb
        omega
      · obtain ⟨h0,-,h2⟩ := he.kept b (List.mem_cons_of_mem _ hb) hbs
        rw [h2]
        exact hv.lastFree b hb (h0▸hlastb)
    · rw [List.mem_singleton.mp hb]
      exact he.added.2.2.2
  case baseUsed =>
    rw [he.base_eq,hbaseUsed]
    exact hv.baseUsed
  case baseNext =>
    rw [he.base_eq,hbaseNext]
    exact hv.baseNext
  case back =>
    rw [he.base_eq]
    exact hv.extended_back he hs hlast

/-- Allocation of a whole block rewrites one header. -/
theorem takeBlock_whole {s size dataBase : ℕ} (hsplit : ¬splits h s size)
    (hw : size+headerSize<2^32) : takeBlock h s size dataBase=
      h.set s fun b => {b with isHole := false,size := size+headerSize} := by
  simp only [takeBlock,if_neg hsplit]
  rw [wadd_eq hw]

/-- A request from a valid heap. -/
theorem HeapValid.serve (hv : HeapValid h rest holes) {s size dataBase : ℕ} (hs : s∈rest)
    (hfree : (h.mem s).isHole=true) (hdata : s+headerSize≤dataBase)
    (hroom : size+(dataBase-s)≤(h.mem s).size) (hw : nextOf h s=0 ∨ ¬splits h s size)
    (hend : nextOf h s=0 → dataBase+size+headerSize≤h.endAddr) :
    ∃ rest' holes' n,HeapValid (takeBlock h s size dataBase) rest' holes' ∧
      (∀ b e,Busy (takeBlock h s size dataBase) rest' b e ↔ Busy h rest b e ∨ (b=s ∧ e=n)) ∧
      dataBase+size≤n := by
  have hsb : s∈h.base::rest := List.mem_cons_of_mem _ hs
  by_cases hn : nextOf h s=0
  · obtain ⟨holes',hv',hbusy⟩ := hv.extend hs hn hdata rfl (hend hn)
    exact ⟨_,holes',_,hv',hbusy,Nat.le_refl _⟩
  · have hin := hv.inside hsb
    have hword := hv.word
    have hroom' := (hv.room s hsb).2
    rw [limitOf,if_neg hn] at hroom'
    simp only [headerSize] at hdata
    obtain ⟨hv',hbusy⟩ := hv.reuse hs hfree hn (Nat.le_add_left headerSize size)
      (by simp only [headerSize]; omega)
    rw [takeBlock_whole (hw.resolve_left hn) (by simp only [headerSize]; omega)]
    exact ⟨rest,holes,nextOf h s,hv',hbusy,by omega⟩

end XanaduOS.HeapBlocks
