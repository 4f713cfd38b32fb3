import XanaduOS.Chains
import XanaduOS.Runs
import XanaduOS.SlabAllocator

/-!
# Runs of an unaligned slab cache

A slab's free chunks form a chain in address order that ends at the record
behind the sixteenth chunk, which is never written. Its counter is the length
of the chain, and each of the three lists of a cache holds the slabs whose
counter it stands for. Allocation and release keep this for every order of
calls, whatever memory the heap returns for new slabs.
-/

namespace XanaduOS.SlabRuns

open Word32 SlabAllocator Chains Runs

/-- The three lists of a cache. -/
inductive ListKind
  /-- Slabs without a live object. -/
  | slabsFree
  /-- Slabs with live objects and free chunks. -/
  | slabsPartial
  /-- Slabs without a free chunk. -/
  | slabsFull
  deriving DecidableEq

/-- List head of a kind inside a cache. -/
def listHead (cache : ℕ) : ListKind → ℕ
  | .slabsFree => slabsFree cache
  | .slabsPartial => slabsPartial cache
  | .slabsFull => slabsFull cache

/-- Counters that a list stands for. -/
def Counts : ListKind → ℕ → Prop
  | .slabsFree,n => n=SLAB_CAPACITY
  | .slabsPartial,n => 1≤n ∧ n≤SLAB_CAPACITY-1
  | .slabsFull,n => n=0

/-- Bytes of a slab of unaligned objects, its closing chunk record included. -/
def slabBytes (size : ℕ) : ℕ := slabSize+SLAB_CAPACITY*(size+chunkSize)+chunkSize

/-- The bytes asked for are those of a slab, if their number is a machine word. -/
theorem slabRequest_eq {size : ℕ} (h : slabBytes size<2^32) : slabRequest size=slabBytes size := by
  simp only [slabBytes,slabSize,chunkSize,SLAB_CAPACITY] at h ⊢
  simp only [slabRequest,wadd,wsub,wmul,slabSize,chunkSize,SLAB_CAPACITY]
  omega

/-- Address of a chunk; the sixteenth index is the closing record. -/
def chunkAt (size slab i : ℕ) : ℕ := slab+slabSize+i*(size+chunkSize)

/-- Forward links of slabs. -/
def nextOf (m : SlabMem) (s : ℕ) : ℕ := (m.slab s).next

/-- Backward links of slabs. -/
def prevOf (m : SlabMem) (s : ℕ) : ℕ := (m.slab s).prev

/-- Links of free chunks. -/
def nextFreeOf (m : SlabMem) (c : ℕ) : ℕ := (m.chunk c).nextFree

/-- Memory the heap may return for a slab: the bytes asked of it lie within the
address space and share none with the cache or an earlier slab. -/
structure Fresh (cache size : ℕ) (slabs : List ℕ) (newSlab : ℕ) : Prop where
  /-- The pointer is not null. -/
  nonnull : newSlab≠0
  /-- The bytes end within the address space. -/
  fits : newSlab+slabRequest size≤2^32
  /-- The cache lies elsewhere. -/
  offCache : newSlab+slabRequest size≤cache ∨ cache+cacheSize≤newSlab
  /-- Earlier slabs lie elsewhere. -/
  offSlabs : ∀ s∈slabs,newSlab+slabRequest size ≤ s ∨ s+slabRequest size≤newSlab

/-- If the bytes of a slab are a machine word, fresh memory holds one. -/
theorem Fresh.whole {cache size newSlab : ℕ} {slabs : List ℕ} (h : Fresh cache size slabs newSlab)
    (hword : slabBytes size<2^32) : newSlab+slabBytes size≤2^32 ∧
      (newSlab+slabBytes size≤cache ∨ cache+cacheSize≤newSlab) ∧
      ∀ s∈slabs,newSlab+slabBytes size ≤ s ∨ s+slabBytes size≤newSlab := by
  rw [←slabRequest_eq hword]
  exact ⟨h.fits,h.offCache,h.offSlabs⟩

/-- No counter belongs to two lists. -/
theorem counts_inj {k k' : ListKind} {n : ℕ} (h : Counts k n) (h' : Counts k' n) : k=k' := by
  cases k <;> cases k' <;> simp only [Counts,SLAB_CAPACITY] at h h' <;> first | rfl | omega

/-- The list of a counter. -/
def kindOf (n : ℕ) : ListKind :=
  if n=0 then .slabsFull else if n=SLAB_CAPACITY then .slabsFree else .slabsPartial

/-- Every counter up to the capacity belongs to its list. -/
theorem counts_kindOf {n : ℕ} (h : n≤SLAB_CAPACITY) : Counts (kindOf n) n := by
  simp only [SLAB_CAPACITY] at h
  rw [kindOf]
  split
  case isTrue h0 => exact h0
  case isFalse h0 =>
    split
    case isTrue h16 => exact h16
    case isFalse h16 =>
      simp only [Counts,SLAB_CAPACITY] at h16 ⊢
      omega

/-- The chain of a slab's free chunks, given the live objects. -/
structure FreeChain (m : SlabMem) (size : ℕ) (live : List ℕ) (slab : ℕ) (chain : List ℕ) :
    Prop where
  /-- The chain leads from the base chunk to the closing record. -/
  path : Path (nextFreeOf m) (baseChunk slab) chain (chunkAt size slab SLAB_CAPACITY)
  /-- It is in address order. -/
  increasing : chain.Pairwise (· < ·)
  /-- It visits the chunks whose object is not live. -/
  mem_iff : ∀ c,c∈chain ↔ ∃ i<SLAB_CAPACITY,c=chunkAt size slab i ∧ c+chunkSize∉live

/-- A slab as the allocator keeps it. -/
structure SlabValid (m : SlabMem) (size : ℕ) (live : List ℕ) (slab : ℕ) : Prop where
  /-- The counter is the length of the free chain. -/
  chain : ∃ chain,FreeChain m size live slab chain ∧ (m.slab slab).numFree=chain.length
  /-- Chunks name their slab and their object. -/
  chunks : ∀ i<SLAB_CAPACITY,(m.chunk (chunkAt size slab i)).slab=slab ∧
    (m.chunk (chunkAt size slab i)).dataAddr=chunkAt size slab i+chunkSize

/-- Three linked lists without a common slab. -/
structure ListsValid (cache : ℕ) (m : SlabMem) (lists : ListKind → List ℕ) : Prop where
  /-- Each list is linked both ways from its head. -/
  linked : ∀ k,Linked 0 (nextOf m) (prevOf m) (listHead cache k) (lists k)
  /-- No slab is listed twice. -/
  nodup : ∀ k,(lists k).Nodup
  /-- No slab is on two lists. -/
  apart : ∀ k k' s,s∈lists k → s∈lists k' → k=k'
  /-- Slabs are not null and not list heads. -/
  node : ∀ k,∀ s∈lists k,s≠0 ∧ ∀ k',s≠listHead cache k'

/-- A cache, the slabs laid out for it and the objects handed out. -/
structure SlabSystem where
  /-- The records. -/
  mem : SlabMem
  /-- Slabs laid out so far. -/
  slabs : List ℕ
  /-- Objects handed out and not released since. -/
  live : List ℕ

variable {cache size : ℕ} {m m' : SlabMem} {lists : ListKind → List ℕ}

/-! ## Link updates -/

/-- Different lists have different heads. -/
theorem listHead_inj {k k' : ListKind} (h : listHead cache k=listHead cache k') : k=k' := by
  cases k <;> cases k' <;> simp [listHead] at h <;> rfl

/-- List heads are never null. -/
theorem listHead_ne_zero (k : ListKind) : listHead cache k≠0 := by
  cases k <;> simp [listHead]

/-- Unlinking a slab that has a predecessor. -/
theorem slabRemoveFromCache_spec {s : ℕ} (hs : s≠0) (hp : prevOf m s≠0) :
    ∃ m',slabRemoveFromCache m s=some m' ∧ m'.chunk=m.chunk ∧ m'.cache=m.cache ∧
      (∀ y,(m'.slab y).numFree=(m.slab y).numFree) ∧
      (∀ y,nextOf m' y=if y=prevOf m s then nextOf m s else nextOf m y) ∧
      ∀ y,prevOf m' y=if y=nextOf m s ∧ nextOf m s≠0 then prevOf m s else prevOf m y := by
  simp only [prevOf] at hp
  by_cases hn : (m.slab s).next=0
  · simp only [slabRemoveFromCache,if_neg hs,hn,ne_eq,not_true_eq_false,if_false,if_neg hp]
    refine ⟨_,rfl,rfl,rfl,fun y => ?_,fun y => ?_,fun y => ?_⟩
    all_goals
      simp only [nextOf,prevOf,setSlab_slab,hn]
      grind
  · have hprev : ((m.setSlab (m.slab s).next fun x => {x with prev := (m.slab s).prev}).slab s).prev=
        (m.slab s).prev := by
      rw [setSlab_slab]
      grind
    simp only [slabRemoveFromCache,if_neg hs,hn,ne_eq,not_false_eq_true,if_true,hprev,if_neg hp]
    refine ⟨_,rfl,rfl,rfl,fun y => ?_,fun y => ?_,fun y => ?_⟩
    all_goals
      simp only [nextOf,prevOf,setSlab_slab]
      grind

/-- Pushing a slab behind a head. -/
theorem slabInsertInCache_spec (m : SlabMem) (l s : ℕ) :
    (slabInsertInCache m l s).chunk=m.chunk ∧ (slabInsertInCache m l s).cache=m.cache ∧
      (∀ y,((slabInsertInCache m l s).slab y).numFree=(m.slab y).numFree) ∧
      (∀ y,nextOf (slabInsertInCache m l s) y=
        if y=s then nextOf m l else if y=l then s else nextOf m y) ∧
      ∀ y,prevOf (slabInsertInCache m l s) y=
        if y=nextOf m l ∧ nextOf m l≠0 then s else if y=s then l else prevOf m y := by
  by_cases hn : (m.slab l).next=0
  · simp only [slabInsertInCache,hn,ne_eq,not_true_eq_false,if_false]
    refine ⟨rfl,rfl,fun y => ?_,fun y => ?_,fun y => ?_⟩
    all_goals
      simp only [nextOf,prevOf,setSlab_slab,hn]
      grind
  · simp only [slabInsertInCache,hn,ne_eq,not_false_eq_true,if_true]
    refine ⟨rfl,rfl,fun y => ?_,fun y => ?_,fun y => ?_⟩
    all_goals
      simp only [nextOf,prevOf,setSlab_slab]
      grind

/-- Nodes of different lists differ, heads included. -/
theorem ListsValid.other (h : ListsValid cache m lists) {j k : ListKind} (hne : j≠k) {y : ℕ}
    (hy : y∈listHead cache j::lists j) : y∉listHead cache k::lists k := by
  intro hy'
  rcases List.mem_cons.mp hy with rfl|hj <;> rcases List.mem_cons.mp hy' with heq|hk
  · exact hne (listHead_inj heq)
  · exact (h.node k _ hk).2 j rfl
  · exact (h.node j _ hj).2 k heq
  · exact hne (h.apart j k y hj hk)

/-- Every list with its head is without repetition. -/
theorem ListsValid.nodup_head (h : ListsValid cache m lists) (k : ListKind) :
    (listHead cache k::lists k).Nodup :=
  List.nodup_cons.mpr ⟨fun hmem => (h.node k _ hmem).2 k rfl,h.nodup k⟩

/-- Null is on no list. -/
theorem ListsValid.null (h : ListsValid cache m lists) (k : ListKind) : 0∉lists k :=
  fun hmem => (h.node k 0 hmem).1 rfl

/-- Unlinking a listed slab. -/
theorem ListsValid.remove (h : ListsValid cache m lists) {k : ListKind} {s : ℕ} (hs : s∈lists k) :
    ∃ m',slabRemoveFromCache m s=some m' ∧ m'.chunk=m.chunk ∧ m'.cache=m.cache ∧
      (∀ y,(m'.slab y).numFree=(m.slab y).numFree) ∧
      ListsValid cache m' (Function.update lists k ((lists k).erase s)) := by
  obtain ⟨xs,ys,hsplit⟩ := List.append_of_mem hs
  have hnd := h.nodup_head k
  have hnull := h.null k
  have hlinked := h.linked k
  have herase : (lists k).erase s=xs++ys := by
    have hsx : s∉xs := by
      have hn := h.nodup k
      rw [hsplit,List.nodup_append'] at hn
      exact fun hx => hn.2.2 hx List.mem_cons_self
    rw [hsplit,List.erase_append_right _ hsx,List.erase_cons_head]
  rw [hsplit] at hnd hnull hlinked
  have hprev : prevOf m s∈listHead cache k::xs := by
    have hlast := (back_concat.mp (back_append.mp hlinked.back).1).2
    rw [hlast]
    exact List.getLast_mem _
  have hprevk : prevOf m s∈listHead cache k::lists k := by
    rw [hsplit,←List.cons_append]
    exact List.mem_append_left _ hprev
  have hnext : nextOf m s≠0 → nextOf m s∈lists k := by
    have hpath := (path_append.mp hlinked.path).2
    rw [hsplit]
    cases ys with
    | nil => exact fun hne => absurd hpath hne
    | cons y ys =>
      intro _
      rw [hpath.1]
      simp
  have hpne : prevOf m s≠0 := by
    rcases List.mem_cons.mp hprevk with heq|hmem
    · rw [heq]
      exact listHead_ne_zero k
    · exact (h.node k _ hmem).1
  have hsub : ∀ j,(Function.update lists k ((lists k).erase s) j).Sublist (lists j) := by
    intro j
    by_cases hj : j=k
    · subst hj
      rw [Function.update_self]
      exact List.erase_sublist
    · rw [Function.update_of_ne hj]
  obtain ⟨m',hm,hchunk,hcache,hfree,hn,hp⟩ := slabRemoveFromCache_spec (h.node k s hs).1 hpne
  refine ⟨m',hm,hchunk,hcache,hfree,?_,?_,?_,?_⟩
  · intro j
    by_cases hj : j=k
    · subst hj
      rw [Function.update_self,herase]
      refine hlinked.remove hnd hnull ?_ (fun y hy => ?_) (fun hne => ?_) fun y hy => ?_
      · rw [hn,if_pos rfl]
      · rw [hn,if_neg hy]
      · rw [hp,if_pos ⟨rfl,hne⟩]
      · rw [hp,if_neg fun hc => hy hc.1]
    · rw [Function.update_of_ne hj]
      refine (h.linked j).congr (fun y hy => ?_) fun y hy => ?_
      · rw [hn,if_neg]
        rintro rfl
        exact h.other hj hy hprevk
      · rw [hp,if_neg]
        rintro ⟨rfl,hne⟩
        exact h.other hj (List.mem_cons_of_mem _ hy) (List.mem_cons_of_mem _ (hnext hne))
  · exact fun j => (h.nodup j).sublist (hsub j)
  · exact fun j j' y hy hy' => h.apart j j' y ((hsub j).subset hy) ((hsub j').subset hy')
  · exact fun j y hy => h.node j y ((hsub j).subset hy)

/-- Pushing a slab that is on no list. -/
theorem ListsValid.insert (h : ListsValid cache m lists) (k : ListKind) {s : ℕ}
    (hs : ∀ j,s∉lists j) (h0 : s≠0) (hh : ∀ j,s≠listHead cache j) :
    ListsValid cache (slabInsertInCache m (listHead cache k) s)
      (Function.update lists k (s::lists k)) := by
  obtain ⟨-,-,-,hn,hp⟩ := slabInsertInCache_spec m (listHead cache k) s
  have hnext : nextOf m (listHead cache k)≠0 → nextOf m (listHead cache k)∈lists k := by
    have hpath := (h.linked k).path
    cases hlist : lists k with
    | nil =>
      rw [hlist] at hpath
      exact fun hne => absurd hpath hne
    | cons y ys =>
      rw [hlist] at hpath
      intro _
      rw [hpath.1]
      exact List.mem_cons_self
  have hys : ∀ j,∀ y∈lists j,y≠s := by
    rintro j y hy rfl
    exact hs j hy
  have hmem : ∀ {j y},y∈Function.update lists k (s::lists k) j → (j=k ∧ y=s) ∨ y∈lists j := by
    intro j y hy
    by_cases hj : j=k
    · subst hj
      rw [Function.update_self] at hy
      exact (List.mem_cons.mp hy).imp_left fun heq => ⟨rfl,heq⟩
    · rw [Function.update_of_ne hj] at hy
      exact Or.inr hy
  refine ⟨?_,?_,?_,?_⟩
  · intro j
    by_cases hj : j=k
    · subst hj
      rw [Function.update_self]
      have hnot : s∉listHead cache j::lists j := by
        rw [List.mem_cons]
        exact fun hc => hc.elim (hh j) (hs j)
      refine (h.linked j).insert (h.nodup_head j) hnot ?_ ?_ ?_ (fun hne => ?_) (fun y hy => ?_)
        (fun y hy hne => ?_) (h.null j)
      · rw [hn,if_neg (hh j).symm,if_pos rfl]
      · rw [hn,if_pos rfl]
      · rw [hp,if_neg,if_pos rfl]
        rintro ⟨heq,hne⟩
        exact hs j (heq▸hnext hne)
      · rw [hp,if_pos ⟨rfl,hne⟩]
      · rw [hn,if_neg (hys j y hy),if_neg ((h.node j y hy).2 j)]
      · rw [hp,if_neg fun hc => hne hc.1,if_neg (hys j y hy)]
    · rw [Function.update_of_ne hj]
      refine (h.linked j).congr (fun y hy => ?_) fun y hy => ?_
      · rw [hn,if_neg,if_neg]
        · rintro rfl
          exact h.other hj hy List.mem_cons_self
        · rintro rfl
          exact (List.mem_cons.mp hy).elim (hh j) (hs j)
      · rw [hp,if_neg,if_neg (hys j y hy)]
        rintro ⟨rfl,hne⟩
        exact h.other hj (List.mem_cons_of_mem _ hy) (List.mem_cons_of_mem _ (hnext hne))
  · intro j
    by_cases hj : j=k
    · subst hj
      rw [Function.update_self]
      exact List.nodup_cons.mpr ⟨hs j,h.nodup j⟩
    · rw [Function.update_of_ne hj]
      exact h.nodup j
  · intro j j' y hy hy'
    rcases hmem hy with ⟨hj,heq⟩|hold <;> rcases hmem hy' with ⟨hj',heq'⟩|hold'
    · rw [hj,hj']
    · exact absurd heq (hys j' y hold')
    · exact absurd heq' (hys j y hold)
    · exact h.apart j j' y hold hold'
  · intro j y hy
    rcases hmem hy with ⟨-,rfl⟩|hy
    · exact ⟨h0,hh⟩
    · exact h.node j y hy

/-- Lists are valid in every memory with the same links. -/
theorem ListsValid.congr (h : ListsValid cache m lists) (hn : ∀ y,nextOf m' y=nextOf m y)
    (hp : ∀ y,prevOf m' y=prevOf m y) : ListsValid cache m' lists :=
  ⟨fun k => (h.linked k).congr (fun y _ => hn y) fun y _ => hp y,h.nodup,h.apart,h.node⟩

/-- Lists after one slab went to the front of a list. -/
def moved (lists : ListKind → List ℕ) (s : ℕ) (k : ListKind) : ListKind → List ℕ :=
  fun j => if j=k then s::(lists j).erase s else (lists j).erase s

/-- Lists after one slab is where its counter asks for: it moves only to
another list. -/
def place (lists : ListKind → List ℕ) (s : ℕ) (k : ListKind) : ListKind → List ℕ :=
  if s∈lists k then lists else moved lists s k

/-- Members of the lists after one slab is placed. -/
theorem ListsValid.mem_place (h : ListsValid cache m lists) {k : ListKind} (k' : ListKind) {s : ℕ}
    (hs : s∈lists k) (j : ListKind) (y : ℕ) :
    y∈place lists s k' j ↔ (y≠s ∧ y∈lists j) ∨ (y=s ∧ j=k') := by
  rw [place]
  split
  case isTrue hin =>
    by_cases hy : y=s
    · subst hy
      simp only [ne_eq,not_true_eq_false,false_and,true_and,false_or]
      exact ⟨fun hj => h.apart _ _ _ hj hin,fun hj => hj▸hin⟩
    · simp [hy]
  case isFalse hout =>
    rw [moved]
    split
    case isTrue hj =>
      rw [List.mem_cons,(h.nodup j).mem_erase_iff]
      simp [hj,or_comm]
    case isFalse hj =>
      rw [(h.nodup j).mem_erase_iff]
      simp [hj]

/-- Unlinking a listed slab and pushing it on another list. -/
theorem ListsValid.move (h : ListsValid cache m lists) {k : ListKind} (k' : ListKind) {s : ℕ}
    (hs : s∈lists k) (hne : k'≠k) : ∃ removed,slabRemoveFromCache m s=some removed ∧
      (slabInsertInCache removed (listHead cache k') s).chunk=m.chunk ∧
      (slabInsertInCache removed (listHead cache k') s).cache=m.cache ∧
      (∀ y,((slabInsertInCache removed (listHead cache k') s).slab y).numFree=
        (m.slab y).numFree) ∧
      ListsValid cache (slabInsertInCache removed (listHead cache k') s) (place lists s k') := by
  obtain ⟨removed,hm,hchunk,hcache,hfree,hvalid⟩ := h.remove hs
  obtain ⟨hchunk',hcache',hfree',-,-⟩ := slabInsertInCache_spec removed (listHead cache k') s
  have hother : ∀ j,j≠k → s∉lists j := fun j hj hmem => hj (h.apart j k s hmem hs)
  have hgone : ∀ j,s∉Function.update lists k ((lists k).erase s) j := by
    intro j hmem
    by_cases hj : j=k
    · subst hj
      rw [Function.update_self] at hmem
      exact ((h.nodup j).mem_erase_iff.mp hmem).1 rfl
    · rw [Function.update_of_ne hj] at hmem
      exact hother j hj hmem
  have hinsert := hvalid.insert k' hgone (h.node k s hs).1 (h.node k s hs).2
  have hplace : place lists s k'=Function.update (Function.update lists k ((lists k).erase s)) k'
      (s::Function.update lists k ((lists k).erase s) k') := by
    rw [place,if_neg (hother k' hne)]
    funext j
    rw [moved,Function.update_of_ne hne]
    by_cases hj : j=k'
    · subst hj
      rw [if_pos rfl,Function.update_self,List.erase_of_not_mem (hother j hne)]
    · rw [if_neg hj,Function.update_of_ne hj]
      by_cases hjk : j=k
      · subst hjk
        rw [Function.update_self]
      · rw [Function.update_of_ne hjk,List.erase_of_not_mem (hother j hjk)]
  rw [hplace]
  exact ⟨removed,hm,hchunk'.trans hchunk,hcache'.trans hcache,
    fun y => (hfree' y).trans (hfree y),hinsert⟩

/-! ## Moves between the lists -/

/-- A slab that lost a chunk goes to the list of its counter, provided it was
the head of the list it came from. -/
theorem ListsValid.afterAlloc (h : ListsValid cache m lists) {k : ListKind} {s n : ℕ}
    (hs : nextOf m (listHead cache k)=s) (hmem : s∈lists k) (hn : Counts k (n+1))
    (hfree : (m.slab s).numFree=n) :
    ∃ m',moveAfterAlloc m cache s=some m' ∧ m'.chunk=m.chunk ∧ m'.cache=m.cache ∧
      (∀ y,(m'.slab y).numFree=(m.slab y).numFree) ∧
      ListsValid cache m' (place lists s (kindOf n)) := by
  simp only [moveAfterAlloc,hfree]
  cases k with
  | slabsFree =>
    obtain rfl : n=15 := Nat.succ.inj hn
    obtain ⟨removed,hm,hrest⟩ := h.move .slabsPartial hmem (by decide)
    have hhead : (m.slab (slabsFree cache)).next=s := hs
    rw [if_neg (by norm_num),if_pos (by norm_num),hhead,hm]
    exact ⟨_,rfl,hrest⟩
  | slabsPartial =>
    obtain ⟨-,hle⟩ := hn
    by_cases h0 : n=0
    · subst h0
      obtain ⟨removed,hm,hrest⟩ := h.move .slabsFull hmem (by decide)
      have hhead : (m.slab (slabsPartial cache)).next=s := hs
      rw [if_pos rfl,hhead,hm]
      exact ⟨_,rfl,hrest⟩
    · rw [if_neg h0,if_neg (by omega)]
      have hkind : kindOf n=.slabsPartial := by
        simp only [SLAB_CAPACITY] at hle
        rw [kindOf,if_neg h0,if_neg (by simp only [SLAB_CAPACITY]; omega)]
      rw [hkind,place,if_pos hmem]
      exact ⟨m,rfl,rfl,rfl,fun _ => rfl,h⟩
  | slabsFull => exact absurd hn (Nat.succ_ne_zero n)

/-- A slab that gained a chunk goes to the list of its counter. -/
theorem ListsValid.afterFree (h : ListsValid cache m lists) {k : ListKind} {s n : ℕ}
    (hmem : s∈lists k) (hn : Counts k n) (hlt : n<SLAB_CAPACITY)
    (hfree : (m.slab s).numFree=n+1) :
    ∃ m',moveAfterFree m cache s=some m' ∧ m'.chunk=m.chunk ∧ m'.cache=m.cache ∧
      (∀ y,(m'.slab y).numFree=(m.slab y).numFree) ∧
      ListsValid cache m' (place lists s (kindOf (n+1))) := by
  simp only [moveAfterFree,hfree]
  cases k with
  | slabsFree => exact absurd hn hlt.ne
  | slabsPartial =>
    obtain ⟨hge,hle⟩ := hn
    rw [if_neg (by omega)]
    by_cases h16 : n+1=SLAB_CAPACITY
    · obtain ⟨removed,hm,hrest⟩ := h.move .slabsFree hmem (by decide)
      rw [if_pos h16,hm,h16]
      exact ⟨_,rfl,hrest⟩
    · have hkind : kindOf (n+1)=.slabsPartial := by
        rw [kindOf,if_neg (Nat.succ_ne_zero n),if_neg h16]
      rw [if_neg h16,hkind,place,if_pos hmem]
      exact ⟨m,rfl,rfl,rfl,fun _ => rfl,h⟩
  | slabsFull =>
    obtain rfl : n=0 := hn
    obtain ⟨removed,hm,hrest⟩ := h.move .slabsPartial hmem (by decide)
    rw [if_pos rfl,hm]
    exact ⟨_,rfl,hrest⟩

/-! ## The free chain -/

/-- Taking the first free chunk off its chain. -/
theorem popChunk_spec (m : SlabMem) (s : ℕ) :
    (popChunk m s).cache=m.cache ∧ (∀ y,nextOf (popChunk m s) y=nextOf m y) ∧
      (∀ y,prevOf (popChunk m s) y=prevOf m y) ∧
      (∀ y,((popChunk m s).slab y).numFree=
        if y=s then wsub (m.slab s).numFree 1 else (m.slab y).numFree) ∧
      (∀ y,nextFreeOf (popChunk m s) y=
        if y=baseChunk s then nextFreeOf m (nextFreeOf m (baseChunk s)) else nextFreeOf m y) ∧
      ∀ y,((popChunk m s).chunk y).slab=(m.chunk y).slab ∧
        ((popChunk m s).chunk y).dataAddr=(m.chunk y).dataAddr := by
  by_cases hf : (m.chunk (m.chunk (baseChunk s)).nextFree).nextFree=0
  · simp only [popChunk,hf,ne_eq,not_true_eq_false,if_false]
    refine ⟨rfl,fun y => ?_,fun y => ?_,fun y => ?_,fun y => ?_,fun y => ?_⟩
    all_goals
      simp only [nextOf,prevOf,nextFreeOf,setSlab_slab,setSlab_chunk,setChunk_slab,setChunk_chunk]
      grind
  · simp only [popChunk,hf,ne_eq,not_false_eq_true,if_true]
    refine ⟨rfl,fun y => ?_,fun y => ?_,fun y => ?_,fun y => ?_,fun y => ?_⟩
    all_goals
      simp only [nextOf,prevOf,nextFreeOf,setSlab_slab,setSlab_chunk,setChunk_slab,setChunk_chunk]
      grind

/-- The walk ends at the last free chunk before an address. -/
theorem insertionWalk_spec (fuel : ℕ) {chunk b p : ℕ} {post : List ℕ}
    (hpath : Path (nextFreeOf m) p post b) (hinc : (p::post).Pairwise (· < ·)) (h0 : 0<p)
    (hp : p<chunk) (hb : chunk<b) (hnot : chunk∉post) (hfuel : post.length<fuel) :
    ∃ front q back,p::post=front++q::back ∧ insertionWalk m chunk fuel p=some q ∧
      (∀ y∈front++[q],y<chunk) ∧ ∀ y∈back,chunk<y := by
  induction post generalizing fuel p with
  | nil =>
    obtain ⟨fuel,rfl⟩ := Nat.exists_eq_succ_of_ne_zero (Nat.ne_of_gt hfuel)
    have hend : (m.chunk p).nextFree=b := hpath
    refine ⟨[],p,[],rfl,?_,by simpa using hp,by simp⟩
    rw [insertionWalk,if_neg h0.ne',hend,if_neg (by omega)]
  | cons y post ih =>
    obtain ⟨fuel,rfl⟩ := Nat.exists_eq_succ_of_ne_zero (Nat.ne_of_gt (Nat.zero_lt_of_lt hfuel))
    have hy : (m.chunk p).nextFree=y := hpath.1
    have hpy : p<y := (List.pairwise_cons.mp hinc).1 y List.mem_cons_self
    have hinc' := (List.pairwise_cons.mp hinc).2
    have hne : y≠chunk := fun heq => hnot (heq▸List.mem_cons_self)
    rw [insertionWalk,if_neg h0.ne',hy]
    by_cases hlt : y<chunk
    · rw [if_pos hlt]
      obtain ⟨front,q,back,hsplit,hwalk,hfront,hback⟩ := ih fuel hpath.2 hinc' (by omega) hlt
        (fun hmem => hnot (List.mem_cons_of_mem y hmem)) (by simpa using hfuel)
      refine ⟨p::front,q,back,by rw [hsplit,List.cons_append],hwalk,?_,hback⟩
      intro z hz
      rcases List.mem_cons.mp hz with rfl|hz
      · exact hp
      · exact hfront z hz
    · rw [if_neg hlt]
      refine ⟨[],p,y::post,rfl,rfl,by simpa using hp,fun z hz => ?_⟩
      rcases List.mem_cons.mp hz with rfl|hz
      · omega
      · have := (List.pairwise_cons.mp hinc').1 z hz
        omega

/-- Memory after linking a chunk behind another one. -/
def linkAfter (m : SlabMem) (p chunk : ℕ) : SlabMem :=
  (m.setChunk chunk fun c => {c with nextFree := (m.chunk p).nextFree}).setChunk p
    fun c => {c with nextFree := chunk}

/-- Links after linking a chunk behind another one. -/
theorem linkAfter_spec (m : SlabMem) {p chunk : ℕ} (hne : p≠chunk) :
    (linkAfter m p chunk).slab=m.slab ∧ (linkAfter m p chunk).cache=m.cache ∧
      (∀ y,nextFreeOf (linkAfter m p chunk) y=
        if y=p then chunk else if y=chunk then nextFreeOf m p else nextFreeOf m y) ∧
      ∀ y,((linkAfter m p chunk).chunk y).slab=(m.chunk y).slab ∧
        ((linkAfter m p chunk).chunk y).dataAddr=(m.chunk y).dataAddr := by
  refine ⟨rfl,rfl,fun y => ?_,fun y => ?_⟩
  all_goals
    simp only [linkAfter,nextFreeOf,setChunk_chunk]
    grind

/-- Putting a chunk back on a chain in address order. -/
theorem chainInsert_spec (chunk fuel : ℕ) {b : ℕ} {chain : List ℕ}
    (hpath : Path (nextFreeOf m) (baseChunk (m.chunk chunk).slab) chain b)
    (hinc : chain.Pairwise (· < ·)) (hbase : ∀ y∈chunk::chain,baseChunk (m.chunk chunk).slab<y)
    (hb : chunk<b) (hnot : chunk∉chain) (hfuel : chain.length<fuel) :
    ∃ m' front back,chainInsert m chunk fuel=some m' ∧ chain=front++back ∧
      (∀ y∈front,y<chunk) ∧ (∀ y∈back,chunk<y) ∧
      Path (nextFreeOf m') (baseChunk (m.chunk chunk).slab) (front++chunk::back) b ∧
      m'.slab=m.slab ∧ m'.cache=m.cache ∧
      (∀ y,y∉baseChunk (m.chunk chunk).slab::chunk::chain → nextFreeOf m' y=nextFreeOf m y) ∧
      ∀ y,(m'.chunk y).slab=(m.chunk y).slab ∧ (m'.chunk y).dataAddr=(m.chunk y).dataAddr := by
  generalize hbaseq : baseChunk (m.chunk chunk).slab=base at *
  have hbc := hbase chunk List.mem_cons_self
  have hnd : (base::chain).Nodup := by
    refine List.nodup_cons.mpr ⟨fun hmem => ?_,hinc.imp fun hlt => hlt.ne⟩
    exact absurd (hbase base (List.mem_cons_of_mem chunk hmem)) (lt_irrefl base)
  have hx : chunk∉base::chain := by
    rw [List.mem_cons]
    rintro (heq|hmem)
    · omega
    · exact hnot hmem
  obtain ⟨front,back,hsplit,hinsert,hfront,hback⟩ : ∃ front back,chain=front++back ∧
      chainInsert m chunk fuel=some (linkAfter m ((base::front).getLast (by simp)) chunk) ∧
      (∀ y∈front,y<chunk) ∧ ∀ y∈back,chunk<y := by
    simp only [chainInsert,hbaseq]
    cases chain with
    | nil =>
      have hend : (m.chunk base).nextFree=b := hpath
      exact ⟨[],[],rfl,by rw [hend,if_pos (Or.inr hb),←hend]; rfl,by simp,by simp⟩
    | cons p post =>
      have hp : (m.chunk base).nextFree=p := hpath.1
      have hbp : base<p := hbase p (by simp)
      rw [hp]
      by_cases hlt : chunk<p
      · refine ⟨[],p::post,rfl,by rw [if_pos (Or.inr hlt),←hp]; rfl,by simp,fun y hy => ?_⟩
        rcases List.mem_cons.mp hy with rfl|hy
        · exact hlt
        · exact hlt.trans ((List.pairwise_cons.mp hinc).1 y hy)
      · have hne : p≠chunk := fun heq => hnot (heq▸List.mem_cons_self)
        obtain ⟨front,q,back,hsplit,hwalk,hfront,hback⟩ := insertionWalk_spec fuel hpath.2
          hinc (by omega) (by omega) hb (fun hmem => hnot (List.mem_cons_of_mem p hmem))
          (Nat.lt_of_succ_lt hfuel)
        refine ⟨front++[q],back,by rw [hsplit,List.append_assoc,List.singleton_append],?_,hfront,
          hback⟩
        have hlast : (base::(front++[q])).getLast (by simp)=q := by simp
        rw [if_neg (by omega),hwalk,hlast]
        rfl
  have hmem : (base::front).getLast (by simp)∈base::chain := by
    rw [hsplit,←List.cons_append]
    exact List.mem_append_left _ (List.getLast_mem _)
  have hne : (base::front).getLast (by simp)≠chunk := fun heq => hx (heq▸hmem)
  obtain ⟨hslab,hcache,hlink,hsame⟩ := linkAfter_spec m hne
  refine ⟨_,front,back,hinsert,hsplit,hfront,hback,?_,hslab,hcache,fun y hy => ?_,hsame⟩
  · rw [hsplit] at hpath hnd hx
    refine hpath.splice hnd ?_ ?_ fun y hy hyl => ?_
    · rw [hlink,if_pos rfl]
    · rw [hlink,if_neg hne.symm,if_pos rfl]
    · rw [hlink,if_neg hyl,if_neg]
      rintro rfl
      exact hx hy
  · rw [hlink,if_neg,if_neg]
    · rintro rfl
      simp at hy
    · rintro rfl
      rcases List.mem_cons.mp hmem with heq|hin
      · refine hy ?_
        rw [heq]
        exact List.mem_cons_self
      · exact hy (List.mem_cons_of_mem _ (List.mem_cons_of_mem _ hin))

/-! ## Slabs in memory -/

/-- Chunks lie in order. -/
theorem chunkAt_lt (size slab : ℕ) {i j : ℕ} (h : i<j) : chunkAt size slab i<chunkAt size slab j := by
  have hmul := Nat.mul_lt_mul_of_pos_right h (Nat.add_pos_right size (by norm_num : 0<chunkSize))
  simp only [chunkAt]
  omega

/-- Chunk addresses determine the index. -/
theorem chunkAt_inj {slab i j : ℕ} (h : chunkAt size slab i=chunkAt size slab j) : i=j := by
  rcases lt_trichotomy i j with hlt|heq|hlt
  · exact absurd h (chunkAt_lt _ _ hlt).ne
  · exact heq
  · exact absurd h (chunkAt_lt _ _ hlt).ne'

/-- Chunk records lie within their slab, behind its record. -/
theorem chunkAt_within (size slab : ℕ) {i : ℕ} (h : i≤SLAB_CAPACITY) :
    slab+40≤chunkAt size slab i ∧ chunkAt size slab i+20 ≤ slab+slabBytes size := by
  have hmul := Nat.mul_le_mul_right (size+chunkSize) h
  simp only [chunkAt,slabBytes,slabSize,chunkSize] at hmul ⊢
  omega

/-- A slab is longer than its record. -/
theorem slabSize_lt (size : ℕ) : 40<slabBytes size := by
  simp only [slabBytes,slabSize,chunkSize]
  omega

/-- The base chunk lies within its slab, before the chunks. -/
theorem baseChunk_within (size slab : ℕ) :
    slab<baseChunk slab ∧ baseChunk slab<slab+40 ∧ baseChunk slab<slab+slabBytes size := by
  have := slabSize_lt size
  simp only [baseChunk]
  omega

/-- Chain nodes are chunks of the slab before the closing record. -/
theorem FreeChain.bounds {live chain : List ℕ} {slab c : ℕ} (h : FreeChain m size live slab chain)
    (hc : c∈chain) : slab+40≤c ∧ c<chunkAt size slab SLAB_CAPACITY ∧
      c+20 ≤ slab+slabBytes size := by
  obtain ⟨i,hi,rfl,-⟩ := (h.mem_iff c).mp hc
  obtain ⟨h0,h1⟩ := chunkAt_within size slab hi.le
  exact ⟨h0,chunkAt_lt _ _ hi,h1⟩

/-- Chunks of a slab as a list. -/
def chunksOf (size slab : ℕ) : List ℕ := (List.range SLAB_CAPACITY).map (chunkAt size slab)

/-- Chunks without repetition number at most sixteen. -/
theorem length_le_capacity (size slab : ℕ) {l : List ℕ} (hnd : l.Nodup)
    (hl : ∀ c∈l,∃ i<SLAB_CAPACITY,c=chunkAt size slab i) : l.length≤SLAB_CAPACITY := by
  have hsub : l⊆chunksOf size slab := by
    intro c hc
    obtain ⟨i,hi,rfl⟩ := hl c hc
    exact List.mem_map_of_mem (List.mem_range.mpr hi)
  have hlen := (hnd.subperm hsub).length_le
  simpa [chunksOf] using hlen

/-- A free chain has at most sixteen nodes. -/
theorem FreeChain.length_le {live chain : List ℕ} {slab : ℕ}
    (h : FreeChain m size live slab chain) : chain.length≤SLAB_CAPACITY := by
  refine length_le_capacity size slab (h.increasing.imp fun hlt => hlt.ne) fun c hc => ?_
  obtain ⟨i,hi,heq,-⟩ := (h.mem_iff c).mp hc
  exact ⟨i,hi,heq⟩

/-- A slab is untouched by changes elsewhere. -/
theorem SlabValid.frame {live live' : List ℕ} {slab : ℕ} (h : SlabValid m size live slab)
    (hlink : ∀ y,slab≤y → y<slab+slabBytes size → nextFreeOf m' y=nextFreeOf m y)
    (hname : ∀ y,slab≤y → y<slab+slabBytes size → (m'.chunk y).slab=(m.chunk y).slab ∧
      (m'.chunk y).dataAddr=(m.chunk y).dataAddr)
    (hn : (m'.slab slab).numFree=(m.slab slab).numFree)
    (hlive : ∀ i<SLAB_CAPACITY,chunkAt size slab i+chunkSize∈live' ↔
      chunkAt size slab i+chunkSize∈live) : SlabValid m' size live' slab := by
  obtain ⟨chain,hchain,hlen⟩ := h.chain
  refine ⟨⟨chain,⟨hchain.path.congr fun y hy => ?_,hchain.increasing,fun c => ?_⟩,hn.trans hlen⟩,
    fun i hi => ?_⟩
  · rcases List.mem_cons.mp hy with rfl|hy
    · obtain ⟨h0,-,h1⟩ := baseChunk_within size slab
      exact hlink _ h0.le h1
    · obtain ⟨h0,-,h1⟩ := hchain.bounds hy
      exact hlink y (by omega) (by omega)
  · rw [hchain.mem_iff]
    constructor
    · rintro ⟨i,hi,rfl,hout⟩
      exact ⟨i,hi,rfl,fun hin => hout ((hlive i hi).mp hin)⟩
    · rintro ⟨i,hi,rfl,hout⟩
      exact ⟨i,hi,rfl,fun hin => hout ((hlive i hi).mpr hin)⟩
  · obtain ⟨h0,h1⟩ := chunkAt_within size slab hi.le
    obtain ⟨hs,hd⟩ := hname (chunkAt size slab i) (by omega) (by omega)
    rw [hs,hd]
    exact h.chunks i hi

/-- The cache, its slabs and its live objects, as every call leaves them. -/
structure CacheInvariant (cache size : ℕ) (s : SlabSystem) (lists : ListKind → List ℕ) :
    Prop where
  /-- The three lists are linked. -/
  linked : ListsValid cache s.mem lists
  /-- Each slab is on the list of its counter. -/
  mem_iff : ∀ k slab,slab∈lists k ↔ slab∈s.slabs ∧ Counts k (s.mem.slab slab).numFree
  /-- Every slab is valid. -/
  valid : ∀ slab∈s.slabs,SlabValid s.mem size s.live slab
  /-- Slabs lie apart. -/
  apart : ∀ x∈s.slabs,∀ y∈s.slabs,x≠y → x+slabBytes size≤y ∨ y+slabBytes size≤x
  /-- Slabs lie within the address space and off the cache. -/
  inside : ∀ x∈s.slabs,x≠0 ∧ x+slabBytes size≤2^32 ∧
    (x+slabBytes size≤cache ∨ cache+cacheSize≤x)
  /-- Live objects are objects of the slabs. -/
  object : ∀ obj∈s.live,∃ slab∈s.slabs,∃ i<SLAB_CAPACITY,obj=chunkAt size slab i+chunkSize
  /-- No object is handed out twice. -/
  nodup : s.live.Nodup
  /-- The cache record says how objects are laid out. -/
  record : (s.mem.cache cache).size=size ∧ (s.mem.cache cache).alignment=0
  /-- The bytes of a slab are a machine word. -/
  word : slabBytes size<2^32

/-- An address within one slab is not within another. -/
theorem CacheInvariant.within_unique {s : SlabSystem} (h : CacheInvariant cache size s lists)
    {x y a : ℕ} (hx : x∈s.slabs) (hy : y∈s.slabs) (hax : x≤a ∧ a<x+slabBytes size)
    (hay : y≤a ∧ a<y+slabBytes size) : x=y := by
  by_contra hne
  have := h.apart x hx y hy hne
  omega

/-- Objects of different slabs differ. -/
theorem CacheInvariant.object_unique {s : SlabSystem} (h : CacheInvariant cache size s lists)
    {x y i j : ℕ} (hx : x∈s.slabs) (hy : y∈s.slabs) (hi : i<SLAB_CAPACITY) (hj : j<SLAB_CAPACITY)
    (heq : chunkAt size x i=chunkAt size y j) : x=y ∧ i=j := by
  obtain ⟨h0,h1⟩ := chunkAt_within size x hi.le
  obtain ⟨h2,h3⟩ := chunkAt_within size y hj.le
  have hxy := h.within_unique hx hy (a:=chunkAt size x i) (by omega) (by omega)
  subst hxy
  exact ⟨rfl,chunkAt_inj heq⟩

/-- The first chunk of a slab without a live object. -/
structure FirstFree (size : ℕ) (live : List ℕ) (slab i : ℕ) : Prop where
  /-- It is a chunk of the slab. -/
  lt : i<SLAB_CAPACITY
  /-- Its object is not live. -/
  free : chunkAt size slab i+chunkSize∉live
  /-- The objects before it are live. -/
  first : ∀ j < i,chunkAt size slab j+chunkSize∈live

/-- The first chunk of a free chain is the slab's first free one. -/
theorem FreeChain.first {live chain : List ℕ} {slab c : ℕ}
    (h : FreeChain m size live slab (c::chain)) :
    ∃ i,c=chunkAt size slab i ∧ FirstFree size live slab i := by
  obtain ⟨i,hi,hc,hout⟩ := (h.mem_iff c).mp List.mem_cons_self
  refine ⟨i,hc,hi,hc▸hout,fun j hj => ?_⟩
  by_contra hnot
  have hjc : chunkAt size slab j∈c::chain := (h.mem_iff _).mpr ⟨j,hj.trans hi,rfl,hnot⟩
  have hlt := chunkAt_lt size slab hj
  rcases List.mem_cons.mp hjc with heq|hmem
  · omega
  · have := (List.pairwise_cons.mp h.increasing).1 _ hmem
    omega

/-- The chain behind a chunk that is handed out. -/
theorem FreeChain.pop {live chain : List ℕ} {slab c : ℕ}
    (h : FreeChain m size live slab (c::chain))
    (hpath : Path (nextFreeOf m') (baseChunk slab) chain (chunkAt size slab SLAB_CAPACITY)) :
    FreeChain m' size ((c+chunkSize)::live) slab chain := by
  have hinc := List.pairwise_cons.mp h.increasing
  refine ⟨hpath,hinc.2,fun d => ⟨fun hd => ?_,?_⟩⟩
  · obtain ⟨j,hj,hdj,hdout⟩ := (h.mem_iff d).mp (List.mem_cons_of_mem c hd)
    refine ⟨j,hj,hdj,?_⟩
    rw [List.mem_cons]
    rintro (heq|hin)
    · have := hinc.1 d hd
      omega
    · exact hdout hin
  · rintro ⟨j,hj,hdj,hdout⟩
    have hmem := (h.mem_iff d).mpr ⟨j,hj,hdj,fun hin => hdout (List.mem_cons_of_mem _ hin)⟩
    rcases List.mem_cons.mp hmem with rfl|hd
    · exact absurd List.mem_cons_self hdout
    · exact hd

/-- The chain with a chunk that is released between its neighbours in address. -/
theorem FreeChain.insert {live front back : List ℕ} {slab i : ℕ}
    (h : FreeChain m size live slab (front++back)) (hlive : live.Nodup) (hi : i<SLAB_CAPACITY)
    (hfront : ∀ y∈front,y<chunkAt size slab i) (hback : ∀ y∈back,chunkAt size slab i<y)
    (hpath : Path (nextFreeOf m') (baseChunk slab) (front++chunkAt size slab i::back)
      (chunkAt size slab SLAB_CAPACITY)) :
    FreeChain m' size (live.erase (chunkAt size slab i+chunkSize)) slab
      (front++chunkAt size slab i::back) := by
  have hinc := List.pairwise_append.mp h.increasing
  refine ⟨hpath,List.pairwise_append.mpr
    ⟨hinc.1,List.pairwise_cons.mpr ⟨hback,hinc.2.1⟩,fun a ha b hb => ?_⟩,fun d => ?_⟩
  · rcases List.mem_cons.mp hb with rfl|hb
    · exact hfront a ha
    · exact hinc.2.2 a ha b hb
  · have hmem : d∈front++chunkAt size slab i::back ↔ d=chunkAt size slab i ∨ d∈front++back := by
      rw [List.mem_append,List.mem_cons,List.mem_append]
      exact or_left_comm
    rw [hmem,h.mem_iff]
    constructor
    · rintro (rfl|⟨j,hj,hdj,hdout⟩)
      · exact ⟨i,hi,rfl,fun hin => (hlive.mem_erase_iff.mp hin).1 rfl⟩
      · exact ⟨j,hj,hdj,fun hin => hdout (List.mem_of_mem_erase hin)⟩
    · rintro ⟨j,hj,hdj,hdout⟩
      by_cases hdc : d=chunkAt size slab i
      · exact Or.inl hdc
      · exact Or.inr ⟨j,hj,hdj,fun hin => hdout
          (hlive.mem_erase_iff.mpr ⟨fun heq => hdc (Nat.add_right_cancel heq),hin⟩)⟩

/-- A slab moves to the list of its new counter. -/
theorem CacheInvariant.mem_place_iff {s : SlabSystem} (h : CacheInvariant cache size s lists)
    {k : ListKind} {slab n : ℕ} (hmem : slab∈lists k) (hslab : slab∈s.slabs)
    (hn : (m'.slab slab).numFree=n) (hle : n≤SLAB_CAPACITY)
    (hnum : ∀ y,y≠slab → (m'.slab y).numFree=(s.mem.slab y).numFree) (j : ListKind) (y : ℕ) :
    y∈place lists slab (kindOf n) j ↔ y∈s.slabs ∧ Counts j (m'.slab y).numFree := by
  have hcount := counts_kindOf hle
  rw [h.linked.mem_place (kindOf n) hmem]
  by_cases hy : y=slab
  · subst hy
    simp only [ne_eq,not_true_eq_false,false_and,true_and,false_or,hn,hslab]
    exact ⟨fun hj => hj▸hcount,fun hj => counts_inj hj hcount⟩
  · simp only [ne_eq,hy,not_false_eq_true,true_and,false_and,or_false,hnum y hy]
    exact h.mem_iff j y

/-- A change within one slab and to one of its objects. -/
structure SlabChange (cache size : ℕ) (s : SlabSystem) (slab i : ℕ) (m' : SlabMem)
    (live' : List ℕ) : Prop where
  /-- Free links elsewhere. -/
  links : ∀ a,¬ (slab≤a ∧ a<slab+slabBytes size) → nextFreeOf m' a=nextFreeOf s.mem a
  /-- Chunks keep their slab and their object. -/
  names : ∀ a,(m'.chunk a).slab=(s.mem.chunk a).slab ∧
    (m'.chunk a).dataAddr=(s.mem.chunk a).dataAddr
  /-- Other slabs keep their counter. -/
  counters : ∀ y,y≠slab → (m'.slab y).numFree=(s.mem.slab y).numFree
  /-- Other objects stay handed out, or not. -/
  live : ∀ obj,obj≠chunkAt size slab i+chunkSize → (obj∈live' ↔ obj∈s.live)
  /-- The cache record. -/
  record : m'.cache cache=s.mem.cache cache

/-- Such a change leaves the other slabs valid. -/
theorem CacheInvariant.valid_elsewhere {s : SlabSystem} (h : CacheInvariant cache size s lists)
    {slab i : ℕ} {live' : List ℕ} (hslab : slab∈s.slabs) (hi : i<SLAB_CAPACITY)
    (hchange : SlabChange cache size s slab i m' live') {y : ℕ} (hy : y∈s.slabs) (hys : y≠slab) :
    SlabValid m' size live' y := by
  refine (h.valid y hy).frame (fun a h0 h1 => hchange.links a fun hin => ?_)
    (fun a _ _ => hchange.names a) (hchange.counters y hys) fun j hj => hchange.live _ fun heq => ?_
  · exact hys (h.within_unique hy hslab ⟨h0,h1⟩ hin)
  · exact hys (h.object_unique hy hslab hj hi (Nat.add_right_cancel heq)).1

/-- The invariant after such a change, with the slab's new chain and on the list of
its new counter. -/
theorem CacheInvariant.change {s : SlabSystem} (h : CacheInvariant cache size s lists)
    {k : ListKind} {slab i : ℕ} {live' chain : List ℕ} (hmem : slab∈lists k)
    (hslab : slab∈s.slabs) (hi : i<SLAB_CAPACITY)
    (hchange : SlabChange cache size s slab i m' live') (hnodup : live'.Nodup)
    (hchain : FreeChain m' size live' slab chain) (hlen : (m'.slab slab).numFree=chain.length)
    (hlinked : ListsValid cache m' (place lists slab (kindOf (m'.slab slab).numFree))) :
    CacheInvariant cache size ⟨m',s.slabs,live'⟩
      (place lists slab (kindOf (m'.slab slab).numFree)) := by
  have hle : (m'.slab slab).numFree≤SLAB_CAPACITY := hlen.trans_le hchain.length_le
  refine ⟨hlinked,h.mem_place_iff hmem hslab rfl hle hchange.counters,fun y hy => ?_,h.apart,
    h.inside,fun obj hobj => ?_,hnodup,?_,h.word⟩
  · by_cases hys : y=slab
    · subst hys
      refine ⟨⟨chain,hchain,hlen⟩,fun j hj => ?_⟩
      obtain ⟨h0,h1⟩ := hchange.names (chunkAt size y j)
      rw [h0,h1]
      exact (h.valid y hslab).chunks j hj
    · exact h.valid_elsewhere hslab hi hchange hy hys
  · by_cases hown : obj=chunkAt size slab i+chunkSize
    · exact ⟨slab,hslab,i,hi,hown⟩
    · exact h.object obj ((hchange.live obj hown).mp hobj)
  · rw [hchange.record]
    exact h.record

/-- Handing out the first free chunk of the head of a list. -/
theorem CacheInvariant.take {s : SlabSystem} (h : CacheInvariant cache size s lists) {k : ListKind}
    {slab : ℕ} (hk : k≠.slabsFull) (hmem : slab∈lists k)
    (hhead : nextOf s.mem (listHead cache k)=slab) :
    ∃ m' i,nextFreeOf s.mem (baseChunk slab)=chunkAt size slab i ∧
      moveAfterAlloc (popChunk s.mem slab) cache slab=some m' ∧ FirstFree size s.live slab i ∧
      (s.mem.chunk (chunkAt size slab i)).dataAddr=chunkAt size slab i+chunkSize ∧
      CacheInvariant cache size ⟨m',s.slabs,(chunkAt size slab i+chunkSize)::s.live⟩
        (place lists slab (kindOf (m'.slab slab).numFree)) := by
  obtain ⟨hslab,hcount⟩ := (h.mem_iff k slab).mp hmem
  obtain ⟨⟨chain,hchain,hlen⟩,hchunks⟩ := h.valid slab hslab
  obtain ⟨n,hn⟩ : ∃ n,(s.mem.slab slab).numFree=n+1 := by
    refine Nat.exists_eq_succ_of_ne_zero fun h0 => ?_
    rw [h0] at hcount
    cases k
    · exact absurd hcount (by norm_num [Counts])
    · exact absurd hcount.1 (by norm_num)
    · exact hk rfl
  obtain ⟨c,rest,rfl⟩ : ∃ c rest,chain=c::rest := by
    cases chain with
    | nil => simp [hn] at hlen
    | cons c rest => exact ⟨c,rest,rfl⟩
  obtain ⟨i,hc,hfirstFree⟩ := hchain.first
  have hi := hfirstFree.lt
  have hfirst : (s.mem.chunk (baseChunk slab)).nextFree=c := hchain.path.1
  obtain ⟨hcb,-,hce⟩ := hchain.bounds (c:=c) List.mem_cons_self
  obtain ⟨hcacheP,hnextP,hprevP,hfreeP,hlinkP,hnameP⟩ := popChunk_spec s.mem slab
  have hlt : n+1<2^32 := by
    have hle := hchain.length_le
    simp only [SLAB_CAPACITY] at hle
    omega
  have hpopped : ((popChunk s.mem slab).slab slab).numFree=n := by
    rw [hfreeP,if_pos rfl,hn,wsub_eq (by omega) hlt]
    rfl
  obtain ⟨m',hmove,hchunk,hcache,hfree,hvalid⟩ :=
    (h.linked.congr hnextP hprevP).afterAlloc ((hnextP _).trans hhead) hmem (hn▸hcount) hpopped
  have hnew : (m'.slab slab).numFree=n := by rw [hfree,hpopped]
  have hlink : ∀ y,nextFreeOf m' y=nextFreeOf (popChunk s.mem slab) y := by
    intro y
    rw [nextFreeOf,nextFreeOf,hchunk]
  refine ⟨m',i,hfirst.trans hc,hmove,hfirstFree,(hchunks i hi).2,?_⟩
  rw [←hc]
  refine h.change hmem hslab hi ⟨fun a hout => ?_,fun y => ?_,fun y hy => ?_,
    fun obj hobj => ?_,?_⟩ (List.nodup_cons.mpr ⟨hc▸hfirstFree.free,h.nodup⟩) (hchain.pop ?_) ?_
    (hnew.symm▸hvalid)
  · rw [hlink,hlinkP,if_neg]
    rintro rfl
    obtain ⟨h2,-,h3⟩ := baseChunk_within size slab
    exact hout ⟨h2.le,h3⟩
  · rw [hchunk]
    exact hnameP y
  · rw [hfree,hfreeP,if_neg hy]
  · rw [List.mem_cons,or_iff_right (hc▸hobj)]
  · rw [hcache,hcacheP]
  · refine hchain.path.2.start ?_ fun d hd => ?_
    · rw [hlink,hlinkP,if_pos rfl]
      exact congrArg (nextFreeOf s.mem) hfirst
    · rw [hlink,hlinkP,if_neg]
      rintro rfl
      have := hchain.bounds (List.mem_cons_of_mem c hd)
      have := baseChunk_within size slab
      omega
  · rw [hnew]
    rw [hn] at hlen
    exact Nat.succ.inj hlen

/-- A live object, its slab, its chunk and the chain it is missing from. -/
theorem CacheInvariant.live_chunk {s : SlabSystem} (h : CacheInvariant cache size s lists)
    {slab i : ℕ} (hslab : slab∈s.slabs) (hi : i<SLAB_CAPACITY)
    (ho : chunkAt size slab i+chunkSize∈s.live) :
    ∃ chain,wsub (chunkAt size slab i+chunkSize) chunkSize=chunkAt size slab i ∧
      (s.mem.chunk (chunkAt size slab i)).slab=slab ∧ FreeChain s.mem size s.live slab chain ∧
      (s.mem.slab slab).numFree=chain.length ∧ chunkAt size slab i∉chain ∧
      chain.length<SLAB_CAPACITY := by
  obtain ⟨⟨chain,hchain,hlen⟩,hchunks⟩ := h.valid slab hslab
  obtain ⟨-,hin⟩ := chunkAt_within size slab hi.le
  have hend := (h.inside slab hslab).2.1
  have hnot : chunkAt size slab i∉chain := by
    intro hmem
    obtain ⟨j,hj,hij,hout⟩ := (hchain.mem_iff _).mp hmem
    exact hout (hij▸ho)
  have hlt : (chunkAt size slab i::chain).length≤SLAB_CAPACITY := by
    refine length_le_capacity size slab
      (List.nodup_cons.mpr ⟨hnot,hchain.increasing.imp fun hlt => hlt.ne⟩) fun c hc => ?_
    rcases List.mem_cons.mp hc with rfl|hc
    · exact ⟨i,hi,rfl⟩
    · obtain ⟨j,hj,heq,-⟩ := (hchain.mem_iff c).mp hc
      exact ⟨j,hj,heq⟩
  refine ⟨chain,?_,(hchunks i hi).1,hchain,hlen,hnot,hlt⟩
  have hlast := chunkAt_lt size slab hi
  obtain ⟨-,hclose⟩ := chunkAt_within size slab (le_refl SLAB_CAPACITY)
  have hmul := Nat.mul_le_mul_right (size+chunkSize) (Nat.succ_le_of_lt hi)
  have hbound : chunkAt size slab i+chunkSize≤chunkAt size slab SLAB_CAPACITY := by
    simp only [chunkAt]
    rw [Nat.succ_mul] at hmul
    omega
  rw [wsub_eq (Nat.le_add_left _ _) (by omega),Nat.add_sub_cancel]

/-- Releasing a live object. -/
theorem CacheInvariant.give {s : SlabSystem} (h : CacheInvariant cache size s lists)
    {slab i fuel : ℕ} (hslab : slab∈s.slabs) (hi : i<SLAB_CAPACITY)
    (ho : chunkAt size slab i+chunkSize∈s.live) (hfuel : SLAB_CAPACITY<fuel) :
    ∃ m',slabFree s.mem cache (chunkAt size slab i+chunkSize) fuel=some m' ∧
      CacheInvariant cache size ⟨m',s.slabs,s.live.erase (chunkAt size slab i+chunkSize)⟩
        (place lists slab (kindOf (m'.slab slab).numFree)) := by
  obtain ⟨chain,hsub,hname,hchain,hlen,hnot,hlt⟩ := h.live_chunk hslab hi ho
  have hslab0 := (h.inside slab hslab).1
  generalize hobj : chunkAt size slab i+chunkSize=obj at *
  generalize hc : chunkAt size slab i=c at *
  have hk : Counts (kindOf (s.mem.slab slab).numFree) (s.mem.slab slab).numFree :=
    counts_kindOf (by omega)
  generalize kindOf (s.mem.slab slab).numFree=k at hk
  have hmem : slab∈lists k := (h.mem_iff k slab).mpr ⟨hslab,hk⟩
  let counted := s.mem.setSlab slab fun x => {x with numFree := wadd x.numFree 1}
  have hnextC : ∀ y,nextOf counted y=nextOf s.mem y := by
    intro y
    simp only [nextOf,counted,setSlab_slab]
    split <;> simp_all
  have hprevC : ∀ y,prevOf counted y=prevOf s.mem y := by
    intro y
    simp only [prevOf,counted,setSlab_slab]
    split <;> simp_all
  have hnumC : (counted.slab slab).numFree=chain.length+1 := by
    simp only [SLAB_CAPACITY] at hlt
    simp only [counted,setSlab_slab,if_true,hlen]
    exact wadd_eq (by omega)
  obtain ⟨moved,hmove,hchunk,hcache,hfree,hvalid⟩ :=
    (h.linked.congr hnextC hprevC).afterFree hmem (hlen▸hk) hlt hnumC
  have hmovedChunk : moved.chunk=s.mem.chunk := hchunk
  have hlinkM : ∀ y,nextFreeOf moved y=nextFreeOf s.mem y := by
    intro y
    rw [nextFreeOf,nextFreeOf,hmovedChunk]
  have hnameM : (moved.chunk c).slab=slab := by rw [hmovedChunk,hname]
  obtain ⟨hb0,hb1,hb2⟩ := baseChunk_within size slab
  obtain ⟨hc0,hc1⟩ := chunkAt_within size slab hi.le
  rw [hc] at hc0 hc1
  obtain ⟨m',front,back,hinsert,hsplit,hfront,hback,hpath,hslabs,hcaches,hlink,hsame⟩ :=
    chainInsert_spec (m:=moved) (b:=chunkAt size slab SLAB_CAPACITY) c fuel
      (by rw [hnameM]; exact hchain.path.congr fun y _ => hlinkM y) hchain.increasing
      (by
        rw [hnameM]
        intro y hy
        rcases List.mem_cons.mp hy with rfl|hy
        · omega
        · have := hchain.bounds hy
          omega)
      (hc▸chunkAt_lt _ _ hi) hnot (by omega)
  rw [hnameM] at hpath hlink
  have hnum : ∀ y,y≠slab → (m'.slab y).numFree=(s.mem.slab y).numFree := by
    intro y hy
    rw [hslabs,hfree]
    simp only [counted,setSlab_slab,if_neg hy]
  have hnumS : (m'.slab slab).numFree=chain.length+1 := by rw [hslabs,hfree,hnumC]
  refine ⟨m',?_,?_⟩
  · rw [slabFree,if_neg (by omega),if_pos h.record.2,hsub,freeChunk]
    simp only [hname,if_neg hslab0]
    change (moveAfterFree counted cache slab).bind _=_
    rw [hmove]
    exact hinsert
  rw [hsplit] at hchain
  subst hobj
  subst hc
  refine h.change hmem hslab hi ⟨fun a hout => ?_,fun y => ?_,hnum,fun o hne => ?_,?_⟩
    (h.nodup.erase _) (hchain.insert h.nodup hi hfront hback hpath) ?_
    ((hnumS▸hvalid).congr (fun y => ?_) fun y => ?_)
  · rw [hlink,hlinkM]
    intro hin
    refine hout ?_
    rcases List.mem_cons.mp hin with rfl|hin
    · exact ⟨hb0.le,hb2⟩
    · rcases List.mem_cons.mp hin with rfl|hin
      · constructor <;> omega
      · obtain ⟨h2,-,h3⟩ := hchain.bounds (hsplit▸hin)
        constructor <;> omega
  · rw [(hsame y).1,(hsame y).2,hmovedChunk]
    exact ⟨rfl,rfl⟩
  · rw [h.nodup.mem_erase_iff]
    exact ⟨fun hin => hin.2,fun hin => ⟨hne,hin⟩⟩
  · rw [hcaches,hcache]
    rfl
  · rw [hnumS,hsplit]
    simp only [List.length_append,List.length_cons]
    omega
  · rw [nextOf,nextOf,hslabs]
  · rw [prevOf,prevOf,hslabs]

/-! ## A new slab -/

/-- Chunks laid out from an index on, as far from each other as a chunk record and a
number of bytes behind it: each leads to the next one and names its slab and its
object. -/
structure ChunksLaid (behind : ℕ) (object : ℕ → ℕ) (slab i : ℕ) (m m' : SlabMem) : Prop where
  /-- Cache records. -/
  cache : m'.cache=m.cache
  /-- Other slab records. -/
  slabs : ∀ p,p≠slab → m'.slab p=m.slab p
  /-- The slab's first chunk. -/
  first : (m'.slab slab).chunks=chunkAt behind slab 0
  /-- The chunks. -/
  records : ∀ j,i≤j → j<SLAB_CAPACITY → ∃ prev,m'.chunk (chunkAt behind slab j)=
    ⟨chunkAt behind slab (j+1),chunkAt behind slab (j+1),prev,slab,object j⟩
  /-- Other chunk records. -/
  others : ∀ p,(∀ j,i≤j → j<SLAB_CAPACITY → p≠chunkAt behind slab j) → m'.chunk p=m.chunk p

/-- One more chunk in front. -/
theorem ChunksLaid.step {behind slab i : ℕ} {object : ℕ → ℕ} {laid : SlabMem} (prev : ℕ)
    (h : ChunksLaid behind object slab (i+1) laid m')
    (hcache : laid.cache=m.cache) (hslabs : ∀ p,p≠slab → laid.slab p=m.slab p)
    (hrecord : laid.chunk (chunkAt behind slab i)=
      ⟨chunkAt behind slab (i+1),chunkAt behind slab (i+1),prev,slab,object i⟩)
    (hothers : ∀ p,p≠chunkAt behind slab i → laid.chunk p=m.chunk p) (hi : i<SLAB_CAPACITY) :
    ChunksLaid behind object slab i m m' := by
  refine ⟨h.cache.trans hcache,fun p hp => (h.slabs p hp).trans (hslabs p hp),h.first,
    fun j hj hlt => ?_,fun p hp => ?_⟩
  · rcases hj.lt_or_eq with hij|rfl
    · exact h.records j hij hlt
    · refine ⟨prev,(h.others _ fun k hk _ heq => ?_).trans hrecord⟩
      have := chunkAt_inj heq
      omega
  · exact (h.others p fun j hj hlt => hp j (by omega) hlt).trans (hothers p (hp i le_rfl hi))

/-- The loop lays out the chunks from an index on. The chunk before the first of
them already leads there. -/
theorem initChunks_laid {align metaSize behind newSlab slabData : ℕ} {object : ℕ → ℕ}
    (hstep : (if align≠0 then chunkSize else metaSize)=behind+chunkSize)
    (hfits : newSlab+slabBytes behind≤2^32)
    (hobject : ∀ i<SLAB_CAPACITY,(if align≠0 then wadd slabData (wmul i metaSize)
      else wadd (chunkAt behind newSlab i) chunkSize)=object i) (left i prev : ℕ)
    (hi : i+left=SLAB_CAPACITY) (hfirst : (m.slab newSlab).chunks=chunkAt behind newSlab 0)
    (hprev : i≠0 → (m.chunk prev).next=chunkAt behind newSlab i) :
    ChunksLaid behind object newSlab i m (initChunks align metaSize newSlab (newSlab+slabSize)
      slabData left i (chunkAt behind newSlab i) prev m) := by
  induction left generalizing i prev m with
  | zero => exact ⟨rfl,fun _ _ => rfl,hfirst,fun j hj hlt => by omega,fun _ _ => rfl⟩
  | succ left ih =>
    have hlt : i<SLAB_CAPACITY := by omega
    have hend := chunkAt_within behind newSlab (show i+1≤SLAB_CAPACITY by omega)
    have hsucc : chunkAt behind newSlab (i+1)=chunkAt behind newSlab i+(behind+chunkSize) := by
      simp only [chunkAt]
      ring
    have haddr : wadd (newSlab+slabSize) (wmul i (behind+chunkSize))=chunkAt behind newSlab i := by
      have hval : newSlab+slabSize+i*(behind+chunkSize)=chunkAt behind newSlab i := rfl
      rw [wmul_eq (by omega),wadd_eq (by omega),hval]
    have hnext : wadd (chunkAt behind newSlab i) (behind+chunkSize)=
        chunkAt behind newSlab (i+1) := by
      rw [hsucc]
      exact wadd_eq (by omega)
    have hpos : chunkAt behind newSlab i≠0 := by
      have := (chunkAt_within behind newSlab hlt.le).1
      omega
    let linked := if i=0 then
        m.setSlab newSlab fun s => {s with chunks := chunkAt behind newSlab i}
      else m.setChunk prev fun c => {c with next := chunkAt behind newSlab i}
    let record : SlabChunk := ⟨chunkAt behind newSlab (i+1),chunkAt behind newSlab (i+1),prev,
      newSlab,object i⟩
    let laid := linked.setChunk (chunkAt behind newSlab i) fun _ => record
    have hrecord : laid.chunk (chunkAt behind newSlab i)=record := by
      simp only [laid,setChunk_chunk,if_true]
    have hothers : ∀ p,p≠chunkAt behind newSlab i → laid.chunk p=m.chunk p := by
      intro p hp
      simp only [laid,linked,setChunk_chunk,if_neg hp]
      split
      case isTrue => rfl
      case isFalse h0 =>
        rw [setChunk_chunk]
        split
        case isTrue heq => rw [heq,←hprev h0]
        case isFalse => rfl
    have hfirst' : (laid.slab newSlab).chunks=chunkAt behind newSlab 0 := by
      simp only [laid,linked,setChunk_slab]
      split
      case isTrue h0 => rw [setSlab_slab,if_pos rfl,h0]
      case isFalse => exact hfirst
    have hrest := ih (i+1) (chunkAt behind newSlab i) (m:=laid) (by omega) hfirst'
      fun _ => congrArg SlabChunk.next hrecord
    simp only [initChunks,hstep,haddr,hnext,hobject i hlt,hpos,or_false]
    have hcur : (if align≠0 then chunkAt behind newSlab i else chunkAt behind newSlab i)=
      chunkAt behind newSlab i := ite_self _
    rw [hcur]
    refine hrest.step prev ?_ (fun p hp => ?_) hrecord hothers hlt
    · simp only [laid,linked]
      split <;> rfl
    · simp only [laid,linked,setChunk_slab]
      split
      · rw [setSlab_slab,if_neg hp]
      · rfl

/-- A new slab, up to the push on the free list. -/
structure SlabBuilt (behind : ℕ) (object : ℕ → ℕ) (distance slab : ℕ) (m m' : SlabMem) :
    Prop where
  /-- Cache records. -/
  cache : m'.cache=m.cache
  /-- Other slab records. -/
  slabs : ∀ p,p≠slab → m'.slab p=m.slab p
  /-- The slab's record. -/
  record : m'.slab slab=⟨distance,SLAB_CAPACITY,0,0,chunkAt behind slab 0⟩
  /-- Its base chunk. -/
  base : m'.chunk (baseChunk slab)=⟨chunkAt behind slab 0,chunkAt behind slab 0,0,slab,0⟩
  /-- Its chunks. -/
  records : ∀ j<SLAB_CAPACITY,∃ prev,m'.chunk (chunkAt behind slab j)=
    ⟨chunkAt behind slab (j+1),chunkAt behind slab (j+1),prev,slab,object j⟩
  /-- Chunk records elsewhere. -/
  others : ∀ p,p<slab ∨ slab+slabBytes behind≤p → m'.chunk p=m.chunk p

/-- A new slab is built and then pushed on the free list. -/
theorem slabAllocSlabAlign_built (m : SlabMem) (cache align slabData : ℕ)
    {distance behind newSlab : ℕ} {object : ℕ → ℕ}
    (hsize : (if align≠0 then (m.cache cache).size
      else wadd (m.cache cache).size chunkSize)=distance)
    (hstep : (if align≠0 then chunkSize else distance)=behind+chunkSize)
    (hfits : newSlab+slabBytes behind≤2^32)
    (hobject : ∀ i<SLAB_CAPACITY,(if align≠0 then wadd slabData (wmul i distance)
      else wadd (chunkAt behind newSlab i) chunkSize)=object i) :
    ∃ built,slabAllocSlabAlign m cache align newSlab slabData=
        slabInsertInCache built (slabsFree cache) newSlab ∧
      SlabBuilt behind object distance newSlab m built := by
  obtain ⟨hb0,hb1,hb2⟩ := baseChunk_within behind newSlab
  have hbase : wadd newSlab slabSize=newSlab+slabSize := by
    have := slabSize_lt behind
    exact wadd_eq (show newSlab+40<2^32 by omega)
  have hzero : newSlab+slabSize=chunkAt behind newSlab 0 := by
    simp only [chunkAt]
    omega
  have hlaid := initChunks_laid (m:=m.setSlab newSlab fun s => {s with chunks := newSlab+slabSize})
    hstep hfits hobject SLAB_CAPACITY 0 (baseChunk newSlab) (Nat.zero_add _)
    (by rw [setSlab_slab,if_pos rfl,hzero]) fun h => absurd rfl h
  rw [←hzero] at hlaid
  generalize hdone : initChunks _ _ _ _ _ _ _ _ _ _=done at hlaid
  refine ⟨(done.setSlab newSlab fun s =>
      {s with size := distance,numFree := SLAB_CAPACITY,next := 0,prev := 0}).setChunk
    (baseChunk newSlab) fun _ => ⟨chunkAt behind newSlab 0,chunkAt behind newSlab 0,0,newSlab,0⟩,
    ?_,?_,fun p hp => ?_,?_,?_,fun j hj => ?_,fun p hp => ?_⟩
  · simp only [slabAllocSlabAlign,hsize,hbase,setSlab_slab,if_true,hdone,hlaid.first]
  · exact hlaid.cache
  · rw [setChunk_slab,setSlab_slab,if_neg hp,hlaid.slabs p hp,setSlab_slab,if_neg hp]
  · rw [setChunk_slab,setSlab_slab,if_pos rfl,hlaid.first]
  · rw [setChunk_chunk,if_pos rfl]
  · have hne : chunkAt behind newSlab j≠baseChunk newSlab := by
      have := (chunkAt_within behind newSlab hj.le).1
      omega
    rw [setChunk_chunk,if_neg hne]
    exact hlaid.records j (Nat.zero_le j) hj
  · rw [setChunk_chunk,if_neg (by omega)]
    refine hlaid.others p fun j _ hj heq => ?_
    have := chunkAt_within behind newSlab hj.le
    omega

/-- A new slab of unaligned objects. -/
theorem slabAllocSlabAlign_plain {newSlab : ℕ} (slabData : ℕ) (hsize : (m.cache cache).size=size)
    (hfits : newSlab+slabBytes size≤2^32) :
    ∃ built,slabAllocSlabAlign m cache 0 newSlab slabData=
        slabInsertInCache built (listHead cache .slabsFree) newSlab ∧
      SlabBuilt size (fun j => chunkAt size newSlab j+chunkSize) (size+chunkSize) newSlab m
        built := by
  have hlong : size+20<2^32 := by
    simp only [slabBytes,SLAB_CAPACITY] at hfits
    omega
  refine slabAllocSlabAlign_built m cache 0 slabData ?_ rfl hfits fun i hi => ?_
  · rw [if_neg (not_not.mpr rfl),hsize]
    exact wadd_eq hlong
  · rw [if_neg (not_not.mpr rfl)]
    have := (chunkAt_within size newSlab (show i+1≤SLAB_CAPACITY by omega)).2
    have := chunkAt_lt size newSlab (show i < i+1 by omega)
    exact wadd_eq (show chunkAt size newSlab i+20<2^32 by omega)

/-- Consecutive chunks form a path. -/
theorem path_chunks (size slab n i : ℕ) {a : ℕ} (ha : nextFreeOf m a=chunkAt size slab i)
    (hstep : ∀ j,i≤j → j < i+n → nextFreeOf m (chunkAt size slab j)=chunkAt size slab (j+1)) :
    Path (nextFreeOf m) a ((List.range' i n).map (chunkAt size slab)) (chunkAt size slab (i+n)) := by
  induction n generalizing i a with
  | zero => exact ha
  | succ n ih =>
    have hrest := ih (i+1) (hstep i le_rfl (by omega)) fun j hj hlt => hstep j (by omega) (by omega)
    rw [Nat.add_right_comm] at hrest
    exact ⟨ha,hrest⟩

/-- A slab whose chunks are linked in a row is valid if none of its objects is live. -/
theorem slabValid_row {live : List ℕ} {slab : ℕ}
    (hbase : nextFreeOf m (baseChunk slab)=chunkAt size slab 0)
    (hchunks : ∀ i<SLAB_CAPACITY,nextFreeOf m (chunkAt size slab i)=chunkAt size slab (i+1) ∧
      (m.chunk (chunkAt size slab i)).slab=slab ∧
      (m.chunk (chunkAt size slab i)).dataAddr=chunkAt size slab i+chunkSize)
    (hcount : (m.slab slab).numFree=SLAB_CAPACITY)
    (hlive : ∀ i<SLAB_CAPACITY,chunkAt size slab i+chunkSize∉live) :
    SlabValid m size live slab := by
  refine ⟨⟨chunksOf size slab,⟨?_,?_,fun c => ?_⟩,?_⟩,fun i hi => (hchunks i hi).2⟩
  · have hpath := path_chunks size slab SLAB_CAPACITY 0 hbase fun j _ hj =>
      (hchunks j (by omega)).1
    rw [Nat.zero_add,←List.range_eq_range'] at hpath
    exact hpath
  · exact List.pairwise_map.mpr (List.pairwise_lt_range.imp fun hlt => chunkAt_lt _ _ hlt)
  · simp only [chunksOf,List.mem_map,List.mem_range]
    constructor
    · rintro ⟨i,hi,rfl⟩
      exact ⟨i,hi,rfl,hlive i hi⟩
    · rintro ⟨i,hi,rfl,-⟩
      exact ⟨i,hi,rfl⟩
  · rw [hcount]
    simp [chunksOf]

/-- A fresh slab holds no live object. -/
theorem CacheInvariant.fresh_notMem {s : SlabSystem} (h : CacheInvariant cache size s lists)
    {newSlab : ℕ} (hfresh : Fresh cache size s.slabs newSlab) {i : ℕ} (hi : i<SLAB_CAPACITY) :
    chunkAt size newSlab i+chunkSize∉s.live := by
  intro hmem
  obtain ⟨slab,hs,j,hj,heq⟩ := h.object _ hmem
  obtain ⟨h0,h1⟩ := chunkAt_within size newSlab hi.le
  obtain ⟨h2,h3⟩ := chunkAt_within size slab hj.le
  have hsame := Nat.add_right_cancel heq
  have := (hfresh.whole h.word).2.2 slab hs
  omega

/-- Growing a cache by a fresh slab, which becomes the head of the free list. -/
theorem CacheInvariant.grow {s : SlabSystem} (h : CacheInvariant cache size s lists)
    {newSlab : ℕ} (slabData : ℕ) (hfresh : Fresh cache size s.slabs newSlab) :
    CacheInvariant cache size
        ⟨slabAllocSlabAlign s.mem cache 0 newSlab slabData,newSlab::s.slabs,s.live⟩
        (Function.update lists .slabsFree (newSlab::lists .slabsFree)) ∧
      nextOf (slabAllocSlabAlign s.mem cache 0 newSlab slabData) (listHead cache .slabsFree)=
        newSlab := by
  obtain ⟨hfits,hoffCache,hoffSlabs⟩ := hfresh.whole h.word
  obtain ⟨laid,hlaid,hbuilt⟩ := slabAllocSlabAlign_plain slabData h.record.1 hfits
  obtain ⟨hchunk',hcache',hfree',hnext',-⟩ :=
    slabInsertInCache_spec laid (listHead cache .slabsFree) newSlab
  have hbytes := slabSize_lt size
  have hnew : newSlab∉s.slabs := by
    intro hmem
    have := hoffSlabs newSlab hmem
    omega
  have hout : ∀ k,newSlab∉lists k := fun k hmem => hnew ((h.mem_iff k newSlab).mp hmem).1
  have hhead : ∀ k,newSlab≠listHead cache k := by
    intro k
    simp only [cacheSize] at hoffCache
    cases k <;> simp only [listHead,slabsFree,slabsPartial,slabsFull] <;> omega
  have hslabs : ∀ k,∀ y∈listHead cache k::lists k,laid.slab y=s.mem.slab y := by
    intro k y hy
    refine hbuilt.slabs y ?_
    rintro rfl
    exact (List.mem_cons.mp hy).elim (hhead k) (hout k)
  have hlinked : ListsValid cache laid lists := by
    refine ⟨fun k => (h.linked.linked k).congr (fun y hy => ?_) fun y hy => ?_,h.linked.nodup,
      h.linked.apart,h.linked.node⟩
    · rw [nextOf,nextOf,hslabs k y hy]
    · rw [prevOf,prevOf,hslabs k y (List.mem_cons_of_mem _ hy)]
  have hnum : ∀ y,((slabInsertInCache laid (listHead cache .slabsFree) newSlab).slab y).numFree=
      if y=newSlab then SLAB_CAPACITY else (s.mem.slab y).numFree := by
    intro y
    rw [hfree']
    split
    · rename_i hy
      rw [hy,hbuilt.record]
    · rename_i hy
      rw [hbuilt.slabs y hy]
  rw [hlaid]
  refine ⟨⟨hlinked.insert .slabsFree hout hfresh.nonnull hhead,fun k y => ?_,fun y hy => ?_,?_,?_,
    ?_,h.nodup,?_,h.word⟩,?_⟩
  · rw [hnum]
    by_cases hy : y=newSlab
    · subst hy
      rw [if_pos rfl]
      by_cases hk : k=.slabsFree
      · subst hk
        simp [Counts]
      · rw [Function.update_of_ne hk]
        refine ⟨fun hmem => absurd hmem (hout k),fun hc => absurd ?_ hk⟩
        exact counts_inj hc.2 rfl
    · rw [if_neg hy,List.mem_cons,or_iff_right hy,←h.mem_iff]
      by_cases hk : k=.slabsFree
      · subst hk
        rw [Function.update_self,List.mem_cons,or_iff_right hy]
      · rw [Function.update_of_ne hk]
  · rcases List.mem_cons.mp hy with rfl|hold
    · refine slabValid_row ?_ (fun i hi => ?_) ?_ fun i hi => h.fresh_notMem hfresh hi
      · rw [nextFreeOf,hchunk',hbuilt.base]
      · obtain ⟨prev,hrecord⟩ := hbuilt.records i hi
        rw [nextFreeOf,hchunk',hrecord]
        exact ⟨rfl,rfl,rfl⟩
      · rw [hnum,if_pos rfl]
    · have hne : y≠newSlab := fun heq => hnew (heq▸hold)
      have hoff := hoffSlabs y hold
      refine (h.valid y hold).frame (fun a h0 h1 => ?_) (fun a h0 h1 => ?_) ?_ fun _ _ => Iff.rfl
      · rw [nextFreeOf,hchunk',hbuilt.others a (by omega)]
        rfl
      · rw [hchunk',hbuilt.others a (by omega)]
        exact ⟨rfl,rfl⟩
      · rw [hnum,if_neg hne]
  · intro x hx y hy hxy
    rcases List.mem_cons.mp hx with rfl|hxold <;> rcases List.mem_cons.mp hy with rfl|hyold
    · exact absurd rfl hxy
    · exact hoffSlabs y hyold
    · exact (hoffSlabs x hxold).symm
    · exact h.apart x hxold y hyold hxy
  · intro x hx
    rcases List.mem_cons.mp hx with rfl|hx
    · exact ⟨hfresh.nonnull,hfits,hoffCache⟩
    · exact h.inside x hx
  · intro obj hobj
    obtain ⟨slab,hs,hrest⟩ := h.object obj hobj
    exact ⟨slab,List.mem_cons_of_mem _ hs,hrest⟩
  · rw [hcache',hbuilt.cache]
    exact h.record
  · rw [hnext',if_neg (hhead .slabsFree).symm,if_pos rfl]

/-! ## Calls -/

/-- Whether an allocation lays out a new slab. -/
def NeedsSlab (m : SlabMem) (cache : ℕ) : Prop :=
  (m.slab (slabsPartial cache)).next=0 ∧ (m.slab (slabsFree cache)).next=0

instance (m : SlabMem) (cache : ℕ) : Decidable (NeedsSlab m cache) :=
  inferInstanceAs (Decidable (_ ∧ _))

/-- Slabs after an allocation that may lay out a new one. -/
def slabsAfter (s : SlabSystem) (cache newSlab : ℕ) : List ℕ :=
  if NeedsSlab s.mem cache then newSlab::s.slabs else s.slabs

/-- Memory in which an allocation takes its object. -/
def grownMem (m : SlabMem) (cache newSlab slabData : ℕ) : SlabMem :=
  if NeedsSlab m cache then slabAllocSlabAlign m cache (m.cache cache).alignment newSlab slabData
  else m

/-- The slab whose pointer an allocation reads. -/
def allocSlab (m : SlabMem) (cache newSlab slabData : ℕ) : ℕ :=
  if (m.slab (slabsPartial cache)).next=0 then
    ((grownMem m cache newSlab slabData).slab (slabsFree cache)).next
  else (m.slab (slabsPartial cache)).next

/-- An allocation takes the first free chunk of that slab. -/
theorem slabAllocFromCache_eq (m : SlabMem) {cache : ℕ} (hcache : cache≠0)
    (newSlab slabData : ℕ) : slabAllocFromCache m cache newSlab slabData=
      let g := grownMem m cache newSlab slabData
      let slab := allocSlab m cache newSlab slabData
      let chunk := nextFreeOf g (baseChunk slab)
      if slab=0 ∨ chunk=0 then none
      else (moveAfterAlloc (popChunk g slab) cache slab).map fun m' =>
        (m',(g.chunk chunk).dataAddr) := by
  simp only [slabAllocFromCache,if_neg hcache,allocSlab,grownMem,NeedsSlab,nextFreeOf]
  by_cases hp : (m.slab (slabsPartial cache)).next=0
  · by_cases hf : (m.slab (slabsFree cache)).next=0
    · simp only [hp,hf,if_true,and_self]
      split
      · rfl
      · rw [Option.map_eq_bind]
        rfl
    · simp only [hp,hf,if_true,if_false,and_false]
      split
      · rfl
      · rw [Option.map_eq_bind]
        rfl
  · simp only [hp,if_false,false_and]
    split
    · rfl
    · rw [Option.map_eq_bind]
      rfl

/-- The slab that an allocation takes an object of. -/
def chosen (lists : ListKind → List ℕ) (newSlab : ℕ) : ℕ :=
  ((lists .slabsPartial++lists .slabsFree).head?).getD newSlab

/-- The lists in front of an allocation, with a new slab if it is needed. -/
def grownLists (lists : ListKind → List ℕ) (newSlab : ℕ) : ListKind → List ℕ :=
  if lists .slabsPartial=[] ∧ lists .slabsFree=[] then
    Function.update lists .slabsFree (newSlab::lists .slabsFree)
  else lists

/-- A list head points at the front of its list. -/
theorem ListsValid.head_eq (h : ListsValid cache m lists) (k : ListKind) :
    nextOf m (listHead cache k)=((lists k).head?).getD 0 := by
  have hpath := (h.linked k).path
  cases hlist : lists k with
  | nil =>
    rw [hlist] at hpath
    exact hpath
  | cons y ys =>
    rw [hlist] at hpath
    exact hpath.1

/-- A list head is null when its list is empty. -/
theorem ListsValid.head_eq_zero_iff (h : ListsValid cache m lists) (k : ListKind) :
    nextOf m (listHead cache k)=0 ↔ lists k=[] := by
  rw [h.head_eq k]
  have hnull := h.null k
  cases hlist : lists k with
  | nil => simp
  | cons y ys =>
    rw [hlist,List.mem_cons,not_or] at hnull
    simpa using Ne.symm hnull.1

/-- An allocation needs a new slab when no list but that of full slabs has one. -/
theorem ListsValid.needsSlab_iff (h : ListsValid cache m lists) :
    NeedsSlab m cache ↔ lists .slabsPartial=[] ∧ lists .slabsFree=[] :=
  and_congr (h.head_eq_zero_iff .slabsPartial) (h.head_eq_zero_iff .slabsFree)

/-- The pointer read is that of the slab chosen. -/
theorem ListsValid.allocSlab_eq (h : ListsValid cache m lists) {newSlab : ℕ} (slabData : ℕ)
    (hgrown : NeedsSlab m cache → nextOf (grownMem m cache newSlab slabData)
      (listHead cache .slabsFree)=newSlab) :
    allocSlab m cache newSlab slabData=chosen lists newSlab := by
  have hp : (m.slab (slabsPartial cache)).next=((lists .slabsPartial).head?).getD 0 :=
    h.head_eq .slabsPartial
  have hf : (m.slab (slabsFree cache)).next=((lists .slabsFree).head?).getD 0 :=
    h.head_eq .slabsFree
  rw [allocSlab,chosen]
  cases hpart : lists .slabsPartial with
  | cons slab rest =>
    rw [hpart] at hp
    have hne : (m.slab (slabsPartial cache)).next≠0 :=
      mt (h.head_eq_zero_iff .slabsPartial).mp (by simp [hpart])
    rw [if_neg hne,hp]
    rfl
  | nil =>
    have hp0 : (m.slab (slabsPartial cache)).next=0 :=
      (h.head_eq_zero_iff .slabsPartial).mpr hpart
    rw [if_pos hp0,List.nil_append]
    by_cases hneed : NeedsSlab m cache
    · rw [(h.needsSlab_iff.mp hneed).2]
      exact hgrown hneed
    · have hfree : lists .slabsFree≠[] := fun hf => hneed (h.needsSlab_iff.mpr ⟨hpart,hf⟩)
      rw [grownMem,if_neg hneed,hf]
      cases hlist : lists .slabsFree with
      | nil => exact absurd hlist hfree
      | cons slab rest => rfl

/-- The state in which an allocation takes its object. -/
theorem CacheInvariant.grown {s : SlabSystem} (h : CacheInvariant cache size s lists)
    {newSlab : ℕ} (slabData : ℕ)
    (hfresh : NeedsSlab s.mem cache → Fresh cache size s.slabs newSlab) :
    CacheInvariant cache size ⟨grownMem s.mem cache newSlab slabData,slabsAfter s cache newSlab,
        s.live⟩ (grownLists lists newSlab) ∧
      allocSlab s.mem cache newSlab slabData=chosen lists newSlab := by
  by_cases hneed : NeedsSlab s.mem cache
  · obtain ⟨hinv,hhead⟩ := h.grow slabData (hfresh hneed)
    have hmem : grownMem s.mem cache newSlab slabData=
        slabAllocSlabAlign s.mem cache 0 newSlab slabData := by
      rw [grownMem,if_pos hneed,h.record.2]
    rw [slabsAfter,if_pos hneed,grownLists,if_pos (h.linked.needsSlab_iff.mp hneed),hmem]
    exact ⟨hinv,h.linked.allocSlab_eq slabData fun _ => hmem▸hhead⟩
  · rw [grownMem,if_neg hneed,slabsAfter,if_neg hneed,grownLists,
      if_neg (mt h.linked.needsSlab_iff.mpr hneed)]
    exact ⟨h,h.linked.allocSlab_eq slabData fun hn => absurd hn hneed⟩

/-- The slab chosen is at the front of its list. -/
theorem chosen_front (lists : ListKind → List ℕ) (newSlab : ℕ) :
    ∃ k,k≠.slabsFull ∧ (grownLists lists newSlab k).head?=some (chosen lists newSlab) := by
  rw [chosen,grownLists]
  cases hpart : lists .slabsPartial with
  | cons y ys => exact ⟨.slabsPartial,by simp,by simp [hpart]⟩
  | nil =>
    cases hfree : lists .slabsFree with
    | cons y ys => exact ⟨.slabsFree,by simp,by simp [hfree]⟩
    | nil => exact ⟨.slabsFree,by simp,by simp⟩

/-- Allocating an object: the first free one of the slab chosen. -/
theorem CacheInvariant.alloc {s : SlabSystem} (h : CacheInvariant cache size s lists)
    (hcache : cache≠0) {newSlab : ℕ} (slabData : ℕ)
    (hfresh : NeedsSlab s.mem cache → Fresh cache size s.slabs newSlab) :
    ∃ m' i,slabAllocFromCache s.mem cache newSlab slabData=
        some (m',chunkAt size (chosen lists newSlab) i+chunkSize) ∧
      FirstFree size s.live (chosen lists newSlab) i ∧
      (allocSlab s.mem cache newSlab slabData=chosen lists newSlab ∧
        nextFreeOf (grownMem s.mem cache newSlab slabData) (baseChunk (chosen lists newSlab))=
          chunkAt size (chosen lists newSlab) i) ∧
      CacheInvariant cache size ⟨m',slabsAfter s cache newSlab,
          (chunkAt size (chosen lists newSlab) i+chunkSize)::s.live⟩
        (place (grownLists lists newSlab) (chosen lists newSlab)
          (kindOf (m'.slab (chosen lists newSlab)).numFree)) := by
  obtain ⟨hgrown,hslab⟩ := h.grown slabData hfresh
  obtain ⟨k,hk,hfront⟩ := chosen_front lists newSlab
  have hmem : chosen lists newSlab∈grownLists lists newSlab k := List.mem_of_mem_head? hfront
  have hhead : nextOf (grownMem s.mem cache newSlab slabData) (listHead cache k)=
      chosen lists newSlab := by
    have hh := hgrown.linked.head_eq k
    rwa [hfront] at hh
  obtain ⟨m',i,hchunk,hmove,hfirst,hdata,hinv⟩ := hgrown.take hk hmem hhead
  have hpos : chunkAt size (chosen lists newSlab) i≠0 := by
    simp only [chunkAt,slabSize]
    omega
  have hne := (hgrown.linked.node k _ hmem).1
  simp only at hchunk hmove hdata
  refine ⟨m',i,?_,hfirst,⟨hslab,hchunk⟩,hinv⟩
  rw [slabAllocFromCache_eq s.mem hcache]
  simp only [hslab,hchunk,hmove,hdata]
  rw [if_neg (not_or.mpr ⟨hne,hpos⟩)]
  rfl

/-! ## Runs -/

/-- Calls of a cache's clients. -/
inductive SlabOp
  /-- Allocate an object; the pointers are what the heap returns if the cache
  needs a new slab. -/
  | slabAllocFromCache (newSlab slabData : ℕ)
  /-- Release an object. -/
  | slabFree (obj : ℕ)

/-- One call. Walks get one step more than a slab has chunks. -/
def step (cache : ℕ) (s : SlabSystem) : SlabOp → Option SlabSystem
  | .slabAllocFromCache newSlab slabData =>
    (slabAllocFromCache s.mem cache newSlab slabData).map fun r =>
      ⟨r.1,slabsAfter s cache newSlab,r.2::s.live⟩
  | .slabFree obj =>
    (slabFree s.mem cache obj (SLAB_CAPACITY+1)).map fun m => ⟨m,s.slabs,s.live.erase obj⟩

/-- Memory for new slabs is fresh, and only live objects are released. -/
def Admissible (cache size : ℕ) (s : SlabSystem) : SlabOp → Prop
  | .slabAllocFromCache newSlab _ => NeedsSlab s.mem cache → Fresh cache size s.slabs newSlab
  | .slabFree obj => obj∈s.live

/-- Each slab is on exactly the list its counter asks for, and its free chain
visits its chunks without a live object, as many as it counts, in address
order before the closing record. -/
structure CacheWellFormed (cache size : ℕ) (s : SlabSystem) : Prop where
  /-- The lists. -/
  lists : ∃ lists : ListKind → List ℕ,
    (∀ k,Linked 0 (nextOf s.mem) (prevOf s.mem) (listHead cache k) (lists k) ∧ (lists k).Nodup) ∧
    (∀ k,∀ slab∈lists k,slab∈s.slabs ∧ Counts k (s.mem.slab slab).numFree) ∧
    ∀ slab∈s.slabs,∃! k,slab∈lists k
  /-- The chains. -/
  chains : ∀ slab∈s.slabs,∃ chain,FreeChain s.mem size s.live slab chain ∧
    chain.length=(s.mem.slab slab).numFree ∧ ∀ c∈chain,c<chunkAt size slab SLAB_CAPACITY

/-- Releasing an object puts its chunk before the first free one, or the walk
ends at a node of the chain. -/
def WalkEnds (m : SlabMem) (size : ℕ) (live : List ℕ) (obj fuel : ℕ) : Prop :=
  ∃ chain,FreeChain m size live (m.chunk (wsub obj chunkSize)).slab chain ∧
    (wsub obj chunkSize<nextFreeOf m (baseChunk (m.chunk (wsub obj chunkSize)).slab) ∨
      ∃ p∈chain,insertionWalk m (wsub obj chunkSize) fuel
        (nextFreeOf m (baseChunk (m.chunk (wsub obj chunkSize)).slab))=some p)

/-- The invariant states what clients see. -/
theorem CacheInvariant.wellFormed {s : SlabSystem} (h : CacheInvariant cache size s lists) :
    CacheWellFormed cache size s := by
  have hchains : ∀ slab∈s.slabs,∃ chain,FreeChain s.mem size s.live slab chain ∧
      chain.length=(s.mem.slab slab).numFree ∧ ∀ c∈chain,c<chunkAt size slab SLAB_CAPACITY := by
    intro slab hs
    obtain ⟨chain,hchain,hlen⟩ := (h.valid slab hs).chain
    exact ⟨chain,hchain,hlen.symm,fun c hc => (hchain.bounds hc).2.1⟩
  refine ⟨⟨lists,fun k => ⟨h.linked.linked k,h.linked.nodup k⟩,
    fun k slab hs => (h.mem_iff k slab).mp hs,fun slab hs => ?_⟩,hchains⟩
  obtain ⟨chain,hchain,hlen,-⟩ := hchains slab hs
  have hk := counts_kindOf (hlen▸hchain.length_le)
  exact ⟨_,(h.mem_iff _ slab).mpr ⟨hs,hk⟩,fun k' hk' => counts_inj ((h.mem_iff k' slab).mp hk').2 hk⟩

/-- The walk for a live object ends on the chain. -/
theorem CacheInvariant.walkEnds {s : SlabSystem} (h : CacheInvariant cache size s lists)
    {obj fuel : ℕ} (ho : obj∈s.live) (hfuel : SLAB_CAPACITY<fuel) :
    WalkEnds s.mem size s.live obj fuel := by
  obtain ⟨slab,hslab,i,hi,rfl⟩ := h.object obj ho
  obtain ⟨chain,hsub,hname,hchain,-,hnot,hlt⟩ := h.live_chunk hslab hi ho
  have hb := chunkAt_lt size slab hi
  rw [WalkEnds,hsub,hname]
  refine ⟨chain,hchain,?_⟩
  cases chain with
  | nil =>
    have hend : nextFreeOf s.mem (baseChunk slab)=_ := hchain.path
    exact Or.inl (hend▸hb)
  | cons p post =>
    have hp : nextFreeOf s.mem (baseChunk slab)=p := hchain.path.1
    rw [hp]
    by_cases hlt' : chunkAt size slab i<p
    · exact Or.inl hlt'
    · have hne : p≠chunkAt size slab i := fun heq => hnot (heq▸List.mem_cons_self)
      have hbound := hchain.bounds (c:=p) List.mem_cons_self
      obtain ⟨front,q,back,hsplit,hwalk,-,-⟩ := insertionWalk_spec fuel hchain.path.2
        hchain.increasing (by omega) (by omega) hb
        (fun hmem => hnot (List.mem_cons_of_mem p hmem)) (by simp at hlt; omega)
      refine Or.inr ⟨q,?_,hwalk⟩
      rw [hsplit]
      simp

/-- The invariant holds for some lists. -/
def Maintained (cache size : ℕ) (s : SlabSystem) : Prop :=
  ∃ lists,CacheInvariant cache size s lists

/-- One call keeps the invariant. -/
theorem Maintained.step {s t : SlabSystem} {op : SlabOp} (hcache : cache≠0)
    (hs : Maintained cache size s) (ha : Admissible cache size s op)
    (hstep : Steps (step cache) s op t) : Maintained cache size t := by
  obtain ⟨lists,h⟩ := hs
  cases op with
  | slabAllocFromCache newSlab slabData =>
    obtain ⟨m',i,halloc,-,-,hinv⟩ := h.alloc hcache slabData ha
    simp only [Steps,SlabRuns.step,halloc,Option.map_some,Option.some.injEq] at hstep
    exact ⟨_,hstep▸hinv⟩
  | slabFree obj =>
    obtain ⟨slab,hslab,i,hi,rfl⟩ := h.object obj ha
    obtain ⟨m',hfree,hinv⟩ := h.give hslab hi ha (Nat.lt_succ_self SLAB_CAPACITY)
    simp only [Steps,SlabRuns.step,hfree,Option.map_some,Option.some.injEq] at hstep
    exact ⟨_,hstep▸hinv⟩

/-- A new cache with its first slab. -/
def created (m : SlabMem) (size newCache newSlab slabData : ℕ) : SlabSystem :=
  ⟨slabCacheCreate m size newCache newSlab slabData,[newSlab],[]⟩

/-- A new cache is empty before its first slab is laid out. -/
theorem slabCacheCreateAlign_eq (m : SlabMem) (size alignment newCache newSlab slabData : ℕ) :
    ∃ zeroed,slabCacheCreateAlign m size alignment newCache newSlab slabData=
        slabAllocSlabAlign zeroed newCache alignment newSlab slabData ∧
      (zeroed.cache newCache).size=(if alignment≠0 then roundUp size alignment else size) ∧
      (zeroed.cache newCache).alignment=alignment ∧
      ∀ k,nextOf zeroed (listHead newCache k)=0 := by
  refine ⟨_,rfl,?_,?_,fun k => ?_⟩
  · simp [setCache_cache]
  · simp [setCache_cache]
  · cases k <;> split <;> simp [nextOf,listHead,setSlab_slab]

/-- The first slab of an empty cache. -/
theorem CacheInvariant.first {zeroed : SlabMem} (hnext : ∀ k,nextOf zeroed (listHead cache k)=0)
    (hrecord : (zeroed.cache cache).size=size ∧ (zeroed.cache cache).alignment=0) {newSlab : ℕ}
    (slabData : ℕ) (hword : slabBytes size<2^32) (hfresh : Fresh cache size [] newSlab) :
    CacheInvariant cache size ⟨slabAllocSlabAlign zeroed cache 0 newSlab slabData,[newSlab],[]⟩
      (Function.update (fun _ => []) .slabsFree [newSlab]) := by
  have hempty : CacheInvariant cache size ⟨zeroed,[],[]⟩ (fun _ => []) := by
    refine ⟨⟨fun k => ⟨hnext k,trivial⟩,by simp,by simp,by simp⟩,by simp,by simp,by simp,by simp,
      by simp,List.nodup_nil,hrecord,hword⟩
  exact (hempty.grow slabData hfresh).1

/-- Creation establishes the invariant. -/
theorem created_maintained {newSlab slabData : ℕ} (hword : slabBytes size<2^32)
    (hfresh : Fresh cache size [] newSlab) :
    Maintained cache size (created m size cache newSlab slabData) := by
  obtain ⟨zeroed,hcreate,hsize,halign,hnext⟩ :=
    slabCacheCreateAlign_eq m size 0 cache newSlab slabData
  rw [created,slabCacheCreate,hcreate]
  exact ⟨_,CacheInvariant.first hnext ⟨hsize,halign⟩ slabData hword hfresh⟩

/-- After every run from a new cache whose slabs have a machine word of bytes, the
cache is well formed, an allocation succeeds and returns no live object, and
releasing a live object succeeds with its walk ending on the chain. -/
theorem run_cacheWellFormed {newSlab slabData : ℕ} (hcache : cache≠0)
    (hword : slabBytes size<2^32) (hfresh : Fresh cache size [] newSlab) {ops : List SlabOp}
    {t : SlabSystem} (hrun : Run (Guarded (Steps (step cache)) (Admissible cache size))
      (created m size cache newSlab slabData) ops t) :
    CacheWellFormed cache size t ∧
    (∀ next data,(NeedsSlab t.mem cache → Fresh cache size t.slabs next) →
      ∃ m' obj,slabAllocFromCache t.mem cache next data=some (m',obj) ∧ obj∉t.live) ∧
    ∀ obj∈t.live,∀ fuel,SLAB_CAPACITY<fuel →
      WalkEnds t.mem size t.live obj fuel ∧ ∃ m',slabFree t.mem cache obj fuel=some m' := by
  have hreached : Maintained cache size t :=
    hrun.guarded_invariant (fun hi ha hstep => hi.step hcache ha hstep)
      (created_maintained hword hfresh)
  obtain ⟨lists,hinv⟩ := hreached
  refine ⟨hinv.wellFormed,fun next data hnext => ?_,fun obj ho fuel hfuel => ?_⟩
  · obtain ⟨m',i,halloc,hfirst,-⟩ := hinv.alloc hcache data hnext
    exact ⟨m',_,halloc,hfirst.free⟩
  · obtain ⟨slab,hslab,i,hi,rfl⟩ := hinv.object obj ho
    obtain ⟨m',hfree,-⟩ := hinv.give hslab hi ho hfuel
    exact ⟨hinv.walkEnds ho hfuel,m',hfree⟩

/-- One object taken from a cache of 8-byte objects and released. -/
theorem run_cacheWellFormed_object : ∃ t,Run (Guarded (Steps (step 0x1000)) (Admissible 0x1000 8))
    (created ⟨fun _ => ⟨0,0,0,0,0⟩,fun _ => ⟨0,0,0,0,0⟩,fun _ => ⟨0,0,0,0⟩,0⟩ 8 0x1000 0x2000 0)
      [.slabAllocFromCache 0 0,.slabFree 0x203C] t ∧ CacheWellFormed 0x1000 8 t := by
  let start := created ⟨fun _ => ⟨0,0,0,0,0⟩,fun _ => ⟨0,0,0,0,0⟩,fun _ => ⟨0,0,0,0⟩,0⟩
    8 0x1000 0x2000 0
  have hfresh : Fresh 0x1000 8 [] 0x2000 :=
    ⟨by decide,by decide,by decide,by simp⟩
  have hobserve : ((step 0x1000 start (.slabAllocFromCache 0 0)).bind fun s =>
      if 0x203C∈s.live then step 0x1000 s (.slabFree 0x203C) else none).isSome := by decide
  obtain ⟨t,ht⟩ := Option.isSome_iff_exists.mp hobserve
  obtain ⟨s,hs,ht⟩ := Option.bind_eq_some_iff.mp ht
  obtain ⟨hlive,ht⟩ := Option.ite_none_right_eq_some.mp ht
  have hneeds : ¬NeedsSlab start.mem 0x1000 := by decide
  have hrun : Run (Guarded (Steps (step 0x1000)) (Admissible 0x1000 8)) start
      [.slabAllocFromCache 0 0,.slabFree 0x203C] t :=
    Run.cons ⟨fun hn => absurd hn hneeds,hs⟩ (Run.cons ⟨hlive,ht⟩ (Run.nil t))
  exact ⟨t,hrun,(run_cacheWellFormed (by norm_num) (by decide) hfresh hrun).1⟩

/-- A new cache of objects of 1 GiB in zeroed memory. The heap is asked for 380
bytes for its slab, which lies at 0xC0400000. -/
def hugeCache : SlabSystem :=
  created ⟨fun _ => ⟨0,0,0,0,0⟩,fun _ => ⟨0,0,0,0,0⟩,fun _ => ⟨0,0,0,0⟩,0⟩ 0x40000000 0xC0401000
    0xC0400000 0

/-- The second free chunk of this slab lies below the first one. -/
theorem cacheWellFormed_counterexample : slabRequest 0x40000000=380 ∧
    Fresh 0xC0401000 0x40000000 [] 0xC0400000 ∧
    nextFreeOf hugeCache.mem (baseChunk 0xC0400000)=0xC0400028 ∧
    nextFreeOf hugeCache.mem 0xC0400028=0x0040003C ∧
    ¬CacheWellFormed 0xC0401000 0x40000000 hugeCache := by
  have hfirst : nextFreeOf hugeCache.mem (baseChunk 0xC0400000)=0xC0400028 := by decide
  have hsecond : nextFreeOf hugeCache.mem 0xC0400028=0x0040003C := by decide
  have hcount : (hugeCache.mem.slab 0xC0400000).numFree=16 := by decide
  refine ⟨by decide,⟨by decide,by decide,by decide,by simp⟩,hfirst,hsecond,fun h => ?_⟩
  obtain ⟨chain,hchain,hlen,-⟩ := h.chains 0xC0400000 List.mem_cons_self
  have hpath := hchain.path
  have hincreasing := hchain.increasing
  rw [hcount] at hlen
  match chain,hlen,hpath,hincreasing with
  | a::b::_,_,hpath,hincreasing =>
    have ha : nextFreeOf hugeCache.mem (baseChunk 0xC0400000)=a := hpath.1
    have hb : nextFreeOf hugeCache.mem a=b := hpath.2.1
    have hlt : a<b := List.rel_of_pairwise_cons hincreasing List.mem_cons_self
    rw [←ha,hfirst,hsecond] at hb
    omega

end XanaduOS.SlabRuns
