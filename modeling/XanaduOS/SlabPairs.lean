import XanaduOS.SlabAlignment

/-!
# Pairs of an aligned and an unaligned cache

Both caches of a pair follow the bookkeeping by numbers. In the aligned one a
released object is looked up among the slabs with live objects; the lookup
finds every object but the first of its slab, and a call that releases such an
object has no effect.
-/

namespace XanaduOS.SlabPairs

open Word32 SlabAllocator SlabRuns SlabNames SlabAlignment Chains Runs

variable {cache size align : ℕ} {m : SlabMem}

/-! ## The lookup -/

/-- An object lies among those of its slab only. -/
theorem addrWithinSlab_iff {slab addr : ℕ} (h : Laid size m slab)
    (hfits : dataOf m slab+SLAB_CAPACITY*size<2^32) :
    addrWithinSlab m slab addr=true ↔
      dataOf m slab≤addr ∧ addr<dataOf m slab+SLAB_CAPACITY*size := by
  have hend : wadd (dataOf m slab) (wmul size SLAB_CAPACITY)=
      dataOf m slab+SLAB_CAPACITY*size := by
    rw [Nat.mul_comm SLAB_CAPACITY] at hfits ⊢
    rw [wmul_eq (by omega),wadd_eq hfits]
  rw [addrWithinSlab,h.base,h.distance,decide_eq_true_iff]
  change dataOf m slab≤addr ∧ addr<wadd (dataOf m slab) (wmul size SLAB_CAPACITY) ↔ _
  rw [hend]

/-- The search among the chunks of a slab from one that is not behind the
object's. -/
theorem findInChunks_spec {slab : ℕ} (h : Laid size m slab) (hsize : size≠0) {i : ℕ}
    (hi : i<SLAB_CAPACITY) (fuel j : ℕ) (hj : j ≤ i) (hfuel : i-j<fuel) :
    findInChunks m (dataOf m slab+i*size) fuel (chunkAt 0 slab j)=some (chunkAt 0 slab i) := by
  have hne : ∀ k,chunkAt 0 slab k≠0 := by
    intro k
    simp only [chunkAt,slabSize]
    omega
  induction fuel generalizing j with
  | zero => omega
  | succ fuel ih =>
    rw [findInChunks,if_neg (hne j),h.object j (by omega)]
    rcases hj.lt_or_eq with hlt|rfl
    · have hmul := Nat.mul_lt_mul_of_pos_right hlt (Nat.pos_of_ne_zero hsize)
      rw [if_neg (by omega),h.next j (by omega)]
      exact ih (j+1) (by omega) (by omega)
    · rw [if_pos rfl]

/-- The search among the slabs of a list finds the chunk of an object that is
not the first of its slab, if the slab is listed. -/
theorem slabFindChunk_spec {slab i fuel : ℕ} {l : List ℕ} {a : ℕ}
    (hpath : Path (nextOf m) a l 0) (hnull : 0∉l)
    (hlaid : ∀ s∈l,Laid size m s ∧ dataOf m s+SLAB_CAPACITY*size<2^32)
    (hother : ∀ s∈l,s≠slab → ¬(dataOf m s≤dataOf m slab+i*size ∧
      dataOf m slab+i*size<dataOf m s+SLAB_CAPACITY*size))
    (hsize : size≠0) (hi : i<SLAB_CAPACITY) (hfirst : i≠0) (hfuel : SLAB_CAPACITY≤fuel)
    (left : ℕ) (hleft : l.length<left) :
    slabFindChunk m (dataOf m slab+i*size) fuel left (nextOf m a)=
      some (if slab∈l then chunkAt 0 slab i else 0) := by
  induction l generalizing a left with
  | nil =>
    cases left with
    | zero => exact absurd hleft (Nat.not_lt_zero _)
    | succ left =>
      have hend : nextOf m a=0 := hpath
      rw [slabFindChunk,hend]
      rfl
  | cons s rest ih =>
    obtain ⟨hnext,hrest⟩ := hpath
    obtain ⟨hs,hfits⟩ := hlaid s List.mem_cons_self
    rw [List.mem_cons,not_or] at hnull
    cases left with
    | zero => exact absurd hleft (Nat.not_lt_zero _)
    | succ left =>
      have htail := ih hrest hnull.2 (fun s hs => hlaid s (List.mem_cons_of_mem _ hs))
        (fun s hs => hother s (List.mem_cons_of_mem _ hs)) left (Nat.lt_of_succ_lt_succ hleft)
      rw [nextOf] at htail
      rw [slabFindChunk,hnext,if_neg (Ne.symm hnull.1)]
      by_cases heq : s=slab
      · subst heq
        have hmul := Nat.mul_lt_mul_of_pos_right hi (Nat.pos_of_ne_zero hsize)
        have hwithin : addrWithinSlab m s (dataOf m s+i*size)=true :=
          (addrWithinSlab_iff hs hfits).mpr (by omega)
        have hfind := findInChunks_spec hs hsize hi fuel 1 (by omega) (by omega)
        have hne : chunkAt 0 s i≠0 := by
          simp only [chunkAt,slabSize]
          omega
        rw [if_pos hwithin,hs.chunks,hs.next 0 (by decide),hfind,if_pos List.mem_cons_self]
        simp only [Option.bind_eq_bind,Option.bind_some,if_pos hne,Option.pure_def]
      · have hout : ¬addrWithinSlab m s (dataOf m slab+i*size)=true :=
          fun hin => hother s List.mem_cons_self heq ((addrWithinSlab_iff hs hfits).mp hin)
        rw [if_neg hout,htail]
        simp only [List.mem_cons,Ne.symm heq,false_or]

/-! ## Calls of an aligned cache -/

/-- Memory the heap may return for the objects of a slab: the bytes asked of it end
below the top of the address space and share none with the objects of an earlier
slab. -/
structure DataFresh (size : ℕ) (m : SlabMem) (slabs : List ℕ) (slabData : ℕ) : Prop where
  /-- The pointer is not null. -/
  nonnull : slabData≠0
  /-- The bytes end below the top of the address space. -/
  fits : slabData+slabDataSize size<2^32
  /-- Earlier objects lie elsewhere. -/
  off : ∀ x∈slabs,slabData+slabDataSize size≤dataOf m x ∨ dataOf m x+slabDataSize size ≤ slabData

/-- If the bytes of the objects are a machine word, fresh memory holds them. -/
theorem DataFresh.whole {slabs : List ℕ} {slabData : ℕ} (h : DataFresh size m slabs slabData)
    (hword : SLAB_CAPACITY*size<2^32) : slabData+SLAB_CAPACITY*size<2^32 ∧
      ∀ x∈slabs,slabData+SLAB_CAPACITY*size≤dataOf m x ∨
        dataOf m x+SLAB_CAPACITY*size ≤ slabData := by
  have hsame : slabDataSize size=SLAB_CAPACITY*size := wmul_eq hword
  rw [←hsame]
  exact ⟨h.fits,h.off⟩

/-- Slabs of an aligned cache, as laid out. -/
structure SlabsLaid (size : ℕ) (m : SlabMem) (slabs : List ℕ) : Prop where
  /-- Each slab. -/
  laid : ∀ x∈slabs,Laid size m x
  /-- Objects lie between null and the top of the address space. -/
  inside : ∀ x∈slabs,dataOf m x≠0 ∧ dataOf m x+SLAB_CAPACITY*size<2^32
  /-- Objects of different slabs lie apart. -/
  apart : ∀ x∈slabs,∀ y∈slabs,x≠y →
    dataOf m x+SLAB_CAPACITY*size≤dataOf m y ∨ dataOf m y+SLAB_CAPACITY*size≤dataOf m x

/-- Address of an object of an aligned cache, by number. -/
def alignedAt (size : ℕ) (m : SlabMem) (slabs : List ℕ) (p : ℕ×ℕ) : ℕ :=
  dataOf m (slabAt slabs p.1)+p.2*size

/-- An aligned cache that does what the bookkeeping says. Without its objects
it is an unaligned cache of objects without bytes. -/
structure AlignedNamed (cache size : ℕ) (s : SlabSystem) (n : Names) : Prop extends
    SlabsLaid size s.mem s.slabs where
  /-- The bookkeeping. -/
  shadow : ∃ sm,strip s.mem=strip sm ∧
    Named cache 0 ⟨sm,s.slabs,n.taken.map (objectAt 0 s.slabs)⟩ n
  /-- Live objects. -/
  live : s.live=n.taken.map (alignedAt size s.mem s.slabs)
  /-- The cache record says how objects are laid out. -/
  record : (s.mem.cache cache).size=size ∧ (s.mem.cache cache).alignment≠0
  /-- The bytes of a slab's objects are a machine word. -/
  word : SLAB_CAPACITY*size<2^32

variable {s : SlabSystem} {n : Names}

/-- Calls leave the slabs as they were laid out. -/
theorem SlabsLaid.congr {m' : SlabMem} {slabs : List ℕ} (h : SlabsLaid size m slabs)
    (hsame : ∀ x∈slabs,Laid size m' x ∧ dataOf m' x=dataOf m x) : SlabsLaid size m' slabs := by
  refine ⟨fun x hx => (hsame x hx).1,fun x hx => ?_,fun x hx y hy => ?_⟩
  · rw [(hsame x hx).2]
    exact h.inside x hx
  · rw [(hsame x hx).2,(hsame y hy).2]
    exact h.apart x hx y hy

/-- The slabs in which an allocation takes its object. -/
theorem AlignedNamed.grown (h : AlignedNamed cache size s n) {newSlab slabData : ℕ}
    (hfresh : NeedsSlab s.mem cache →
      Fresh cache 0 s.slabs newSlab ∧ DataFresh size s.mem s.slabs slabData) :
    SlabsLaid size (grownMem s.mem cache newSlab slabData) (slabsAfter s cache newSlab) ∧
    (∀ x∈s.slabs,dataOf (grownMem s.mem cache newSlab slabData) x=dataOf s.mem x) ∧
    (grownMem s.mem cache newSlab slabData).cache=s.mem.cache := by
  rw [grownMem,slabsAfter]
  split
  case isFalse => exact ⟨h.toSlabsLaid,fun _ _ => rfl,rfl⟩
  case isTrue hneed =>
    obtain ⟨hf,hd⟩ := hfresh hneed
    obtain ⟨hfits,-,hoffSlabs⟩ := hf.whole (by decide)
    obtain ⟨hdataFits,hdataOff⟩ := hd.whole h.word
    obtain ⟨m',hm,hcache,hnew,hdata,hslab,hchunk⟩ :=
      slabAllocSlabAlign_laid slabData h.record.2 h.record.1 hfits hdataFits
    rw [hm]
    have hold : ∀ x∈s.slabs,Laid size m' x ∧ dataOf m' x=dataOf s.mem x := by
      intro x hx
      have hoff := hoffSlabs x hx
      have hbytes := slabSize_lt 0
      refine (h.laid x hx).frame (hslab x (by omega)) fun p hp hp' => hchunk p (by omega)
    refine ⟨⟨?_,?_,?_⟩,fun x hx => (hold x hx).2,hcache⟩
    · rintro x (_|⟨_,hx⟩)
      · exact hnew
      · exact (hold x hx).1
    · rintro x (_|⟨_,hx⟩)
      · rw [hdata]
        exact ⟨hd.nonnull,hdataFits⟩
      · rw [(hold x hx).2]
        exact h.inside x hx
    · rintro x (_|⟨_,hx⟩) y (_|⟨_,hy⟩) hne
      · exact absurd rfl hne
      · rw [hdata,(hold y hy).2]
        exact hdataOff y hy
      · rw [hdata,(hold x hx).2]
        exact (hdataOff x hx).symm
      · rw [(hold x hx).2,(hold y hy).2]
        exact h.apart x hx y hy hne

/-- Links and counters are no part of the objects. -/
theorem strip_links {m' : SlabMem} (h : strip m=strip m') :
    nextOf m=nextOf m' ∧ nextFreeOf m=nextFreeOf m' ∧
      ∀ x,(m.slab x).numFree=(m'.slab x).numFree := by
  have hlinks : nextOf (strip m)=nextOf (strip m') ∧ nextFreeOf (strip m)=nextFreeOf (strip m') ∧
      ∀ x,((strip m).slab x).numFree=((strip m').slab x).numFree := by
    rw [h]
    exact ⟨rfl,rfl,fun _ => rfl⟩
  exact hlinks

/-- Growing commutes with leaving the objects out. -/
theorem strip_grownMem {sm : SlabMem} (hstrip : strip m=strip sm)
    (halign : (m.cache cache).alignment≠0)
    (hplain : (sm.cache cache).size=0 ∧ (sm.cache cache).alignment=0) (newSlab slabData : ℕ) :
    (NeedsSlab m cache ↔ NeedsSlab sm cache) ∧
    strip (grownMem m cache newSlab slabData)=strip (grownMem sm cache newSlab slabData) ∧
    allocSlab m cache newSlab slabData=allocSlab sm cache newSlab slabData := by
  have hnext : ∀ {x y : SlabMem},strip x=strip y → ∀ p,(x.slab p).next=(y.slab p).next :=
    fun hxy p => congrFun (strip_links hxy).1 p
  have hneed : NeedsSlab m cache ↔ NeedsSlab sm cache := by
    rw [NeedsSlab,NeedsSlab,hnext hstrip,hnext hstrip]
  have hgrown : strip (grownMem m cache newSlab slabData)=
      strip (grownMem sm cache newSlab slabData) := by
    rw [grownMem,grownMem]
    simp only [hneed]
    split
    · rw [hplain.2]
      exact strip_slabAllocSlabAlign halign hplain.1 newSlab slabData slabData hstrip
    · exact hstrip
  refine ⟨hneed,hgrown,?_⟩
  rw [allocSlab,allocSlab,hnext hstrip,hnext hgrown]

/-- An allocation does what the bookkeeping says. -/
theorem AlignedNamed.alloc (h : AlignedNamed cache size s n) (hcache : cache≠0)
    {newSlab slabData : ℕ} (hfresh : NeedsSlab s.mem cache →
      Fresh cache 0 s.slabs newSlab ∧ DataFresh size s.mem s.slabs slabData) :
    ∃ m',slabAllocFromCache s.mem cache newSlab slabData=
        some (m',alignedAt size m' (slabsAfter s cache newSlab) n.next) ∧
      AlignedNamed cache size ⟨m',slabsAfter s cache newSlab,
        alignedAt size m' (slabsAfter s cache newSlab) n.next::s.live⟩ n.alloc := by
  obtain ⟨hlaid,hdata,hgcache⟩ := h.grown hfresh
  obtain ⟨sm,hstrip,hnamed⟩ := h.shadow
  obtain ⟨hneed,hgrown,hslab⟩ :=
    strip_grownMem hstrip h.record.2 hnamed.invariant.record newSlab slabData
  have hslabs : slabsAfter ⟨sm,s.slabs,n.taken.map (objectAt 0 s.slabs)⟩ cache newSlab=
      slabsAfter s cache newSlab := by
    rw [slabsAfter,slabsAfter]
    simp only [hneed]
  obtain ⟨sm',halloc,⟨hchosen,hfirst⟩,hrange,hnamed'⟩ :=
    hnamed.alloc hcache slabData fun hn => (hfresh (hneed.mpr hn)).1
  simp only [hslabs] at halloc hchosen hfirst hnamed'
  set slabs := slabsAfter s cache newSlab
  set g := grownMem s.mem cache newSlab slabData
  set x := slabAt slabs n.next.1
  have hx : x∈slabs := slabAt_mem (hnamed'.count.symm▸hrange.1)
  rw [slabAllocFromCache_eq sm hcache] at halloc
  simp only [hchosen,hfirst] at halloc
  obtain ⟨hne,halloc⟩ := Option.ite_none_left_eq_some.mp halloc
  obtain ⟨sm'',hmove,heq⟩ := Option.map_eq_some_iff.mp halloc
  obtain rfl : sm''=sm' := (Prod.mk.inj heq).1
  obtain ⟨m',hm',hstrip'⟩ : ∃ m',moveAfterAlloc (popChunk g x) cache x=some m' ∧
      strip m'=strip sm'' := by
    refine Option.map_eq_some_iff.mp ?_
    rw [←strip_moveAfterAlloc,←strip_popChunk,hgrown,strip_popChunk,strip_moveAfterAlloc,hmove]
    rfl
  have hfixed : fixed m'=fixed g := (fixed_moveAfterAlloc hm').trans (fixed_popChunk g x)
  have hsame : ∀ y∈slabs,Laid size m' y ∧ dataOf m' y=dataOf g y :=
    fun y hy => (hlaid.laid y hy).congr hfixed
  have hcache' : m'.cache=s.mem.cache :=
    (congrArg SlabMem.cache hfixed : (fixed m').cache=(fixed g).cache).trans hgcache
  have hobject : (g.chunk (chunkAt 0 x n.next.2)).dataAddr=alignedAt size m' slabs n.next := by
    rw [(hlaid.laid x hx).object n.next.2 hrange.2,alignedAt,(hsame x hx).2]
  refine ⟨m',?_,hlaid.congr hsame,⟨sm'',hstrip',hnamed'.live▸hnamed'⟩,?_,?_,h.word⟩
  · rw [slabAllocFromCache_eq s.mem hcache]
    have hlink : nextFreeOf g (baseChunk x)=chunkAt 0 x n.next.2 :=
      (congrFun (strip_links hgrown).2.1 _).trans hfirst
    have hchoice : allocSlab s.mem cache newSlab slabData=x := hslab.trans hchosen
    change (if allocSlab s.mem cache newSlab slabData=0 ∨
      nextFreeOf g (baseChunk (allocSlab s.mem cache newSlab slabData))=0 then none else _)=_
    rw [hchoice,hlink,if_neg hne,hm',Option.map_some,hobject]
  · rw [h.live]
    refine congrArg (List.cons _) (List.map_congr_left fun p hp => ?_)
    have hp1 := (hnamed.bounds p hp).1
    have hat : slabAt slabs p.1=slabAt s.slabs p.1 := slabAt_slabsAfter s cache newSlab hp1
    have hold := slabAt_mem hp1
    have hmem : slabAt s.slabs p.1∈slabs :=
      hat▸slabAt_mem (hp1.trans_le (length_le_slabsAfter s cache newSlab))
    rw [alignedAt,alignedAt,hat,(hsame _ hmem).2,hdata _ hold]
  · rw [hcache']
    exact h.record

/-- Objects of different slabs lie apart. -/
theorem SlabsLaid.object_apart {slabs : List ℕ} (h : SlabsLaid size m slabs) (hsize : size≠0)
    {x y i : ℕ} (hx : x∈slabs) (hy : y∈slabs) (hne : y≠x) (hi : i<SLAB_CAPACITY) :
    ¬(dataOf m y≤dataOf m x+i*size ∧ dataOf m x+i*size<dataOf m y+SLAB_CAPACITY*size) := by
  have hmul := Nat.mul_lt_mul_of_pos_right hi (Nat.pos_of_ne_zero hsize)
  have := h.apart x hx y hy hne.symm
  omega

/-- Objects have one number. -/
theorem SlabsLaid.alignedAt_inj {slabs : List ℕ} (h : SlabsLaid size m slabs) (hsize : size≠0)
    (hnd : slabs.Nodup) {p q : ℕ×ℕ} (hp : p.1<slabs.length ∧ p.2<SLAB_CAPACITY)
    (hq : q.1<slabs.length ∧ q.2<SLAB_CAPACITY)
    (heq : alignedAt size m slabs p=alignedAt size m slabs q) : p=q := by
  rw [alignedAt,alignedAt] at heq
  have hslab : slabAt slabs p.1=slabAt slabs q.1 := by
    by_contra hne
    have hmul := Nat.mul_lt_mul_of_pos_right hp.2 (Nat.pos_of_ne_zero hsize)
    refine h.object_apart hsize (slabAt_mem hq.1) (slabAt_mem hp.1) hne hq.2 ?_
    omega
  rw [hslab] at heq
  exact Prod.ext (slabAt_inj hnd hp.1 hq.1 hslab)
    (Nat.eq_of_mul_eq_mul_right (Nat.pos_of_ne_zero hsize) (by omega))

/-- The lookup of a live object that is not the first of its slab. -/
theorem AlignedNamed.lookup (h : AlignedNamed cache size s n) (hsize : size≠0) {p : ℕ×ℕ}
    (hp : p∈n.taken) (hfirst : p.2≠0) {fuel : ℕ} (hfuel : SLAB_CAPACITY+s.slabs.length<fuel) :
    slabFree s.mem cache (alignedAt size s.mem s.slabs p) fuel=
      freeChunk s.mem cache (chunkAt 0 (slabAt s.slabs p.1) p.2) fuel := by
  obtain ⟨sm,hstrip,hnamed⟩ := h.shadow
  obtain ⟨hx,hi⟩ : p.1<s.slabs.length ∧ p.2<SLAB_CAPACITY := hnamed.bounds p hp
  have hmem := slabAt_mem hx
  have hfind : ∀ k,slabFindChunk s.mem (alignedAt size s.mem s.slabs p) fuel fuel
      (nextOf s.mem (listHead cache k))=
      some (if slabAt s.slabs p.1∈(n.lists k).map (slabAt s.slabs) then
        chunkAt 0 (slabAt s.slabs p.1) p.2 else 0) := by
    intro k
    have hin : ∀ y∈(n.lists k).map (slabAt s.slabs),y∈s.slabs :=
      fun y hy => ((hnamed.invariant.mem_iff k y).mp hy).1
    have hlength := ((hnamed.invariant.linked.nodup k).subperm hin).length_le
    have hpath := (hnamed.invariant.linked.linked k).path
    rw [←(strip_links hstrip).1] at hpath
    exact slabFindChunk_spec hpath (hnamed.invariant.linked.null k)
      (fun y hy => ⟨h.laid y (hin y hy),(h.inside y (hin y hy)).2⟩)
      (fun y hy hne => h.object_apart hsize hmem (hin y hy) hne hi) hsize hi hfirst (by omega)
      fuel (by omega)
  have hpart := hfind .slabsPartial
  have hfull := hfind .slabsFull
  simp only [nextOf,listHead] at hpart hfull
  have hobj : alignedAt size s.mem s.slabs p≠0 := by
    have := (h.inside _ hmem).1
    rw [alignedAt]
    omega
  have hne : chunkAt 0 (slabAt s.slabs p.1) p.2≠0 := by
    simp only [chunkAt,slabSize]
    omega
  obtain ⟨k,hk,hin⟩ := hnamed.listed_of_taken hp
  rw [slabFree,if_neg hobj,if_neg h.record.2,hpart]
  cases k with
  | slabsFree => exact absurd rfl hk
  | slabsPartial =>
    rw [if_pos hin]
    simp only [Option.bind_eq_bind,Option.bind_some,if_neg hne]
  | slabsFull =>
    have hout : slabAt s.slabs p.1∉(n.lists .slabsPartial).map (slabAt s.slabs) := fun hin' =>
      absurd (hnamed.invariant.linked.apart _ _ _ hin hin') (by decide)
    rw [if_neg hout,hfull,if_pos hin]
    simp only [Option.bind_eq_bind,Option.bind_some,if_true,if_neg hne]

/-- A release of a live object that is not the first of its slab does what the
bookkeeping says. -/
theorem AlignedNamed.free (h : AlignedNamed cache size s n) (hsize : size≠0) {p : ℕ×ℕ}
    (hp : p∈n.taken) (hfirst : p.2≠0) {fuel : ℕ} (hfuel : SLAB_CAPACITY+s.slabs.length<fuel) :
    ∃ m',slabFree s.mem cache (alignedAt size s.mem s.slabs p) fuel=some m' ∧
      AlignedNamed cache size
        ⟨m',s.slabs,s.live.erase (alignedAt size s.mem s.slabs p)⟩ (n.free p) := by
  rw [h.lookup hsize hp hfirst hfuel]
  obtain ⟨sm,hstrip,hnamed⟩ := h.shadow
  obtain ⟨hx,hi⟩ : p.1<s.slabs.length ∧ p.2<SLAB_CAPACITY := hnamed.bounds p hp
  obtain ⟨sm',hfree,hnamed'⟩ := @Named.free _ _ _ _ hnamed p hp fuel (by omega)
  have hinside := hnamed.invariant.inside (slabAt s.slabs p.1) (slabAt_mem hx)
  have hlow := (chunkAt_within 0 (slabAt s.slabs p.1) hi.le).1
  have hhigh := (chunkAt_within 0 (slabAt s.slabs p.1) (le_refl SLAB_CAPACITY)).2
  have hlt := chunkAt_lt 0 (slabAt s.slabs p.1) hi
  have hchunk : wsub (objectAt 0 s.slabs p) chunkSize=chunkAt 0 (slabAt s.slabs p.1) p.2 := by
    rw [objectAt,wsub_eq (Nat.le_add_left _ _) (by simp only [chunkSize]; omega)]
    exact Nat.add_sub_cancel _ _
  have hobj : objectAt 0 s.slabs p≠0 := by
    simp only [objectAt,chunkSize]
    omega
  simp only at hfree
  rw [slabFree,if_neg hobj,if_pos hnamed.invariant.record.2,hchunk] at hfree
  obtain ⟨m',hm',hstrip'⟩ : ∃ m',freeChunk s.mem cache (chunkAt 0 (slabAt s.slabs p.1) p.2) fuel=
      some m' ∧ strip m'=strip sm' := by
    refine Option.map_eq_some_iff.mp ?_
    rw [←strip_freeChunk,hstrip,strip_freeChunk,hfree]
    rfl
  have hfixed := fixed_freeChunk hm'
  have hsame : ∀ y∈s.slabs,Laid size m' y ∧ dataOf m' y=dataOf s.mem y :=
    fun y hy => (h.laid y hy).congr hfixed
  have hcache : m'.cache=s.mem.cache :=
    (congrArg SlabMem.cache hfixed : (fixed m').cache=(fixed s.mem).cache)
  refine ⟨m',hm',h.toSlabsLaid.congr hsame,⟨sm',hstrip',hnamed'.live▸hnamed'⟩,?_,?_,h.word⟩
  · rw [h.live,←map_erase_of_inj n.taken fun q hq heq =>
      h.toSlabsLaid.alignedAt_inj hsize hnamed.nodup (hnamed.bounds q hq) ⟨hx,hi⟩ heq]
    refine List.map_congr_left fun q hq => ?_
    have hq1 := slabAt_mem (hnamed.bounds q (List.mem_of_mem_erase hq)).1
    rw [alignedAt,alignedAt,(hsame _ hq1).2]
  · rw [hcache]
    exact h.record

/-- A new aligned cache does what the bookkeeping says. -/
theorem AlignedNamed.first (m : SlabMem) (halign : align≠0)
    (hword : SLAB_CAPACITY*roundUp size align<2^32) {newSlab slabData : ℕ}
    (hfresh : Fresh cache 0 [] newSlab) (hdata : DataFresh (roundUp size align) m [] slabData) :
    AlignedNamed cache (roundUp size align)
      ⟨slabCacheCreateAlign m size align cache newSlab slabData,[newSlab],[]⟩ Names.first := by
  obtain ⟨zeroed,hcreate,hsize,hal,hnext⟩ :=
    slabCacheCreateAlign_eq m size align cache newSlab slabData
  rw [if_pos halign] at hsize
  have hdataFits := (hdata.whole hword).1
  have hplain : slabBytes 0<2^32 := by decide
  obtain ⟨laid,hlaid,hcache,hnew,hobjects,-,-⟩ :=
    slabAllocSlabAlign_laid slabData halign hsize (hfresh.whole (by decide)).1 hdataFits
  let sm : SlabMem := {zeroed with cache := fun _ => ⟨0,0,0,0⟩}
  have hstrip : strip (slabAllocSlabAlign zeroed cache align newSlab slabData)=
      strip (slabAllocSlabAlign sm cache 0 newSlab slabData) :=
    strip_slabAllocSlabAlign halign rfl newSlab slabData slabData rfl
  rw [hcreate]
  rw [hlaid] at hstrip ⊢
  refine ⟨⟨?_,?_,?_⟩,⟨_,hstrip,Named.first sm hnext ⟨rfl,rfl⟩ slabData hplain hfresh⟩,
    rfl,?_,hword⟩
  · intro x hx
    rw [List.mem_singleton.mp hx]
    exact hnew
  · intro x hx
    rw [List.mem_singleton.mp hx,hobjects]
    exact ⟨hdata.nonnull,hdataFits⟩
  · intro x hx y hy hne
    exact absurd ((List.mem_singleton.mp hx).trans (List.mem_singleton.mp hy).symm) hne
  · rw [hcache]
    exact ⟨hsize,hal.symm▸halign⟩

/-! ## Runs of a pair -/

/-- An aligned and an unaligned cache. -/
structure CachePair where
  /-- The aligned cache. -/
  aligned : SlabSystem
  /-- The unaligned cache. -/
  plain : SlabSystem

/-- Calls made to both caches. -/
inductive PairOp
  /-- Allocate an object of each; the pointers are what the heap returns if a
  cache needs a new slab. -/
  | slabAllocFromCache (newSlab slabData newSlab' : ℕ)
  /-- Release the objects that one call handed out. -/
  | slabFree (obj obj' : ℕ)

/-- Objects that one call handed out. -/
def CachePair.live (t : CachePair) : List (ℕ×ℕ) := t.aligned.live.zip t.plain.live

/-- One call to both caches. Walks get one step more than a slab has chunks and
the aligned cache has slabs. -/
def pairStep (cache cache' : ℕ) (t : CachePair) : PairOp → Option CachePair
  | .slabAllocFromCache newSlab slabData newSlab' => do
    let r ← slabAllocFromCache t.aligned.mem cache newSlab slabData
    let r' ← slabAllocFromCache t.plain.mem cache' newSlab' 0
    return ⟨⟨r.1,slabsAfter t.aligned cache newSlab,r.2::t.aligned.live⟩,
      ⟨r'.1,slabsAfter t.plain cache' newSlab',r'.2::t.plain.live⟩⟩
  | .slabFree obj obj' => do
    let m ← slabFree t.aligned.mem cache obj (SLAB_CAPACITY+t.aligned.slabs.length+1)
    let m' ← slabFree t.plain.mem cache' obj' (SLAB_CAPACITY+1)
    return ⟨⟨m,t.aligned.slabs,t.aligned.live.erase obj⟩,
      ⟨m',t.plain.slabs,t.plain.live.erase obj'⟩⟩

/-- Memory for new slabs is fresh, and only live objects are released. -/
def Admissible (cache cache' alignedSize size : ℕ) (t : CachePair) : PairOp → Prop
  | .slabAllocFromCache newSlab slabData newSlab' =>
    (NeedsSlab t.aligned.mem cache → Fresh cache 0 t.aligned.slabs newSlab ∧
      DataFresh alignedSize t.aligned.mem t.aligned.slabs slabData) ∧
    (NeedsSlab t.plain.mem cache' → Fresh cache' size t.plain.slabs newSlab')
  | .slabFree obj obj' => (obj,obj')∈t.live

/-- The object released is not that of the first chunk of an aligned slab. -/
def Found (t : CachePair) : PairOp → Prop
  | .slabAllocFromCache _ _ _ => True
  | .slabFree obj _ => ∀ slab∈t.aligned.slabs,obj≠dataOf t.aligned.mem slab

/-- Both caches count the same in slabs of the same number, handed out objects
of the same slab number and chunk index at every call, and have the chunks of
no live object on the chains of free chunks. -/
structure Alike (alignedSize size : ℕ) (t : CachePair) : Prop where
  /-- Slabs. -/
  count : t.aligned.slabs.length=t.plain.slabs.length
  /-- Counters. -/
  counters : ∀ x<t.plain.slabs.length,(t.aligned.mem.slab (slabAt t.aligned.slabs x)).numFree=
    (t.plain.mem.slab (slabAt t.plain.slabs x)).numFree
  /-- Calls. -/
  calls : t.aligned.live.length=t.plain.live.length
  /-- Objects. -/
  objects : ∀ o∈t.live,∃ x<t.plain.slabs.length,∃ i<SLAB_CAPACITY,
    o=(alignedAt alignedSize t.aligned.mem t.aligned.slabs (x,i),objectAt size t.plain.slabs (x,i))
  /-- Chains. -/
  chains : ∀ x<t.plain.slabs.length,∃ free : List ℕ,
    Path (nextFreeOf t.aligned.mem) (baseChunk (slabAt t.aligned.slabs x))
      (free.map (chunkAt 0 (slabAt t.aligned.slabs x)))
      (chunkAt 0 (slabAt t.aligned.slabs x) SLAB_CAPACITY) ∧
    Path (nextFreeOf t.plain.mem) (baseChunk (slabAt t.plain.slabs x))
      (free.map (chunkAt size (slabAt t.plain.slabs x)))
      (chunkAt size (slabAt t.plain.slabs x) SLAB_CAPACITY) ∧
    ∀ i,i∈free ↔ i<SLAB_CAPACITY ∧ (alignedAt alignedSize t.aligned.mem t.aligned.slabs (x,i),
      objectAt size t.plain.slabs (x,i))∉t.live

/-- Both caches of a pair do what the same bookkeeping says. -/
def PairNamed (cache cache' alignedSize size : ℕ) (t : CachePair) : Prop :=
  ∃ n,AlignedNamed cache alignedSize t.aligned n ∧ Named cache' size t.plain n

variable {cache' alignedSize : ℕ} {t : CachePair}

/-- What the bookkeeping says of both caches. -/
theorem PairNamed.alike (hsize : alignedSize≠0) (h : PairNamed cache cache' alignedSize size t) :
    Alike alignedSize size t := by
  obtain ⟨n,ha,hp⟩ := h
  obtain ⟨sm,hstrip,hs⟩ := ha.shadow
  obtain ⟨-,hchain,hcounter⟩ := strip_links hstrip
  have hcount : t.aligned.slabs.length=t.plain.slabs.length := hs.count.trans hp.count.symm
  have hlive : t.live=n.taken.map fun q =>
      (alignedAt alignedSize t.aligned.mem t.aligned.slabs q,objectAt size t.plain.slabs q) := by
    rw [CachePair.live,ha.live,hp.live,List.zip_map']
  refine ⟨hcount,fun x hx => ?_,?_,fun o ho => ?_,fun x hx => ?_⟩
  · have hxa : x<t.aligned.slabs.length := hcount.symm▸hx
    rw [hcounter]
    exact (hs.toLiveNamed.chain hs.invariant hxa).2.trans
      (hp.toLiveNamed.chain hp.invariant hx).2.symm
  · rw [ha.live,hp.live,List.length_map,List.length_map]
  · rw [hlive] at ho
    obtain ⟨q,hq,rfl⟩ := List.mem_map.mp ho
    obtain ⟨hx,hi⟩ := hp.bounds q hq
    exact ⟨q.1,hx,q.2,hi,rfl⟩
  · have hxa : x<t.aligned.slabs.length := hcount.symm▸hx
    refine ⟨freeChunks n.taken x,?_,(hp.toLiveNamed.chain hp.invariant hx).1.path,fun i => ?_⟩
    · rw [hchain]
      exact (hs.toLiveNamed.chain hs.invariant hxa).1.path
    · rw [mem_freeChunks,hlive,List.mem_map]
      refine and_congr_right fun hi => not_congr ⟨fun hq => ⟨_,hq,rfl⟩,?_⟩
      rintro ⟨q,hq,heq⟩
      have hqx := ha.toSlabsLaid.alignedAt_inj hsize hs.nodup (hs.bounds q hq) (q:=(x,i)) ⟨hxa,hi⟩
        (Prod.mk.inj heq).1
      exact hqx▸hq

/-- An admissible call to both caches has a result and keeps to the
bookkeeping, unless it releases the first object of a slab. -/
theorem PairNamed.step (hcache : cache≠0) (hcache' : cache'≠0) (hsize : alignedSize≠0)
    (h : PairNamed cache cache' alignedSize size t) {op : PairOp}
    (ha : Admissible cache cache' alignedSize size t op) (hfound : Found t op) :
    ∃ t',pairStep cache cache' t op=some t' ∧ PairNamed cache cache' alignedSize size t' := by
  obtain ⟨n,haligned,hplain⟩ := h
  cases op with
  | slabAllocFromCache newSlab slabData newSlab' =>
    obtain ⟨m,halloc,hnamed⟩ := haligned.alloc hcache ha.1
    obtain ⟨m',halloc',-,-,hnamed'⟩ := hplain.alloc hcache' 0 ha.2
    refine ⟨⟨⟨m,_,_⟩,⟨m',_,_⟩⟩,?_,n.alloc,hnamed,hnamed'⟩
    rw [pairStep,halloc,halloc']
    rfl
  | slabFree obj obj' =>
    have hmem : (obj,obj')∈n.taken.map fun q =>
        (alignedAt alignedSize t.aligned.mem t.aligned.slabs q,objectAt size t.plain.slabs q) := by
      have ho : (obj,obj')∈t.live := ha
      rwa [CachePair.live,haligned.live,hplain.live,List.zip_map'] at ho
    obtain ⟨q,hq,heq⟩ := List.mem_map.mp hmem
    obtain ⟨rfl,rfl⟩ := Prod.mk.inj heq
    obtain ⟨sm,-,hs⟩ := haligned.shadow
    have hfirst : q.2≠0 := by
      intro h0
      refine hfound (slabAt t.aligned.slabs q.1) (slabAt_mem (hs.bounds q hq).1) ?_
      rw [alignedAt,h0,Nat.zero_mul,Nat.add_zero]
    obtain ⟨m,hfree,hnamed⟩ := haligned.free hsize hq hfirst (Nat.lt_succ_self _)
    obtain ⟨m',hfree',hnamed'⟩ := hplain.free hq (Nat.lt_succ_self SLAB_CAPACITY)
    refine ⟨⟨⟨m,_,_⟩,⟨m',_,_⟩⟩,?_,n.free q,hnamed,hnamed'⟩
    rw [pairStep,hfree,hfree']
    rfl

/-- A new pair of caches for objects of one size. -/
def createdPair (m m' : SlabMem) (size align cache cache' newSlab slabData newSlab' : ℕ) :
    CachePair :=
  ⟨⟨slabCacheCreateAlign m size align cache newSlab slabData,[newSlab],[]⟩,
    created m' size cache' newSlab' 0⟩

/-- After every run from new caches whose objects have bytes, whose slabs have a
machine word of bytes and that releases no object of a first chunk, both caches
are alike, and so are they after every further call. -/
theorem run_alike {m m' : SlabMem} {newSlab slabData newSlab' : ℕ} (hcache : cache≠0)
    (hcache' : cache'≠0) (halign : align≠0) (hsize : roundUp size align≠0)
    (hword : SLAB_CAPACITY*roundUp size align<2^32) (hword' : slabBytes size<2^32)
    (hfresh : Fresh cache 0 [] newSlab) (hdata : DataFresh (roundUp size align) m [] slabData)
    (hfresh' : Fresh cache' size [] newSlab') {ops : List PairOp}
    (hrun : Run (Guarded (Steps (pairStep cache cache')) fun t op =>
        Admissible cache cache' (roundUp size align) size t op ∧ Found t op)
      (createdPair m m' size align cache cache' newSlab slabData newSlab') ops t) :
    Alike (roundUp size align) size t ∧
    ∀ op,Admissible cache cache' (roundUp size align) size t op → Found t op →
      ∃ t',pairStep cache cache' t op=some t' ∧ Alike (roundUp size align) size t' := by
  have hcreated : PairNamed cache cache' (roundUp size align) size
      (createdPair m m' size align cache cache' newSlab slabData newSlab') := by
    obtain ⟨zeroed,hcreate,hsize',halign',hnext⟩ :=
      slabCacheCreateAlign_eq m' size 0 cache' newSlab' 0
    refine ⟨Names.first,AlignedNamed.first m halign hword hfresh hdata,?_⟩
    rw [createdPair,created,slabCacheCreate,hcreate]
    exact Named.first zeroed hnext ⟨hsize',halign'⟩ 0 hword' hfresh'
  have hreached : PairNamed cache cache' (roundUp size align) size t := by
    refine hrun.guarded_invariant (fun hi hg hstep => ?_) hcreated
    obtain ⟨t',hstep',hnamed⟩ := hi.step hcache hcache' hsize hg.1 hg.2
    rw [Steps,hstep'] at hstep
    exact Option.some.inj hstep▸hnamed
  refine ⟨hreached.alike hsize,fun op ha hfound => ?_⟩
  obtain ⟨t',hstep,hnamed⟩ := hreached.step hcache hcache' hsize ha hfound
  exact ⟨t',hstep,hnamed.alike hsize⟩

/-- New caches of 8-byte objects, one aligned to 16 bytes, in zeroed memory. -/
def samplePair : CachePair :=
  let zero : SlabMem := ⟨fun _ => ⟨0,0,0,0,0⟩,fun _ => ⟨0,0,0,0,0⟩,fun _ => ⟨0,0,0,0⟩,0⟩
  createdPair zero zero 8 16 0x1000 0x1000 0x2000 0x3000 0x2000

/-- Two objects of each cache, the second ones released. -/
theorem run_alike_sample : ∃ t,Run (Guarded (Steps (pairStep 0x1000 0x1000)) fun t op =>
      Admissible 0x1000 0x1000 (roundUp 8 16) 8 t op ∧ Found t op) samplePair
      [.slabAllocFromCache 0 0 0,.slabAllocFromCache 0 0 0,.slabFree 0x3010 0x2058] t ∧
    Alike (roundUp 8 16) 8 t := by
  have hobserve : (do
      let s ← pairStep 0x1000 0x1000 samplePair (.slabAllocFromCache 0 0 0)
      let u ← pairStep 0x1000 0x1000 s (.slabAllocFromCache 0 0 0)
      if ¬NeedsSlab s.aligned.mem 0x1000 ∧ ¬NeedsSlab s.plain.mem 0x1000 ∧ (0x3010,0x2058)∈u.live ∧
          ∀ slab∈u.aligned.slabs,0x3010≠dataOf u.aligned.mem slab then
        pairStep 0x1000 0x1000 u (.slabFree 0x3010 0x2058)
      else none).isSome := by decide
  obtain ⟨t,ht⟩ := Option.isSome_iff_exists.mp hobserve
  obtain ⟨s,hs,ht⟩ := Option.bind_eq_some_iff.mp ht
  obtain ⟨u,hu,ht⟩ := Option.bind_eq_some_iff.mp ht
  obtain ⟨⟨hna,hnp,hlive,hfound⟩,ht⟩ := Option.ite_none_right_eq_some.mp ht
  have hstart : ¬NeedsSlab samplePair.aligned.mem 0x1000 ∧ ¬NeedsSlab samplePair.plain.mem 0x1000 := by
    decide
  have hrun : Run (Guarded (Steps (pairStep 0x1000 0x1000)) fun t op =>
      Admissible 0x1000 0x1000 (roundUp 8 16) 8 t op ∧ Found t op) samplePair
      [.slabAllocFromCache 0 0 0,.slabAllocFromCache 0 0 0,.slabFree 0x3010 0x2058] t :=
    Run.cons ⟨⟨⟨fun hn => absurd hn hstart.1,fun hn => absurd hn hstart.2⟩,trivial⟩,hs⟩
      (Run.cons ⟨⟨⟨fun hn => absurd hn hna,fun hn => absurd hn hnp⟩,trivial⟩,hu⟩
        (Run.cons ⟨⟨hlive,hfound⟩,ht⟩ (Run.nil t)))
  have hfresh : Fresh 0x1000 0 [] 0x2000 := ⟨by decide,by decide,by decide,by simp⟩
  have hfresh' : Fresh 0x1000 8 [] 0x2000 := ⟨by decide,by decide,by decide,by simp⟩
  exact ⟨t,hrun,(run_alike (by norm_num) (by norm_num) (by norm_num) (by decide) (by decide)
    (by decide) hfresh ⟨by norm_num,by decide,by simp⟩ hfresh' hrun).1⟩

/-- Releasing the first object of a slab leaves the aligned cache as it was. -/
theorem alike_counterexample : ∃ t,Run (Guarded (Steps (pairStep 0x1000 0x1000))
      (Admissible 0x1000 0x1000 (roundUp 8 16) 8)) samplePair
      [.slabAllocFromCache 0 0 0,.slabFree 0x3000 0x203C] t ∧
    ¬Alike (roundUp 8 16) 8 t := by
  have hobserve : ((do
      let s ← pairStep 0x1000 0x1000 samplePair (.slabAllocFromCache 0 0 0)
      if (0x3000,0x203C)∈s.live then pairStep 0x1000 0x1000 s (.slabFree 0x3000 0x203C)
      else none).filter fun t : CachePair => t.plain.slabs.length=1 ∧
        (t.aligned.mem.slab (slabAt t.aligned.slabs 0)).numFree=15 ∧
        (t.plain.mem.slab (slabAt t.plain.slabs 0)).numFree=16).isSome := by decide
  obtain ⟨t,ht⟩ := Option.isSome_iff_exists.mp hobserve
  obtain ⟨ht,hcount⟩ := Option.filter_eq_some_iff.mp ht
  obtain ⟨s,hs,ht⟩ := Option.bind_eq_some_iff.mp ht
  obtain ⟨hlive,ht⟩ := Option.ite_none_right_eq_some.mp ht
  obtain ⟨hslabs,haligned,hplain⟩ := of_decide_eq_true hcount
  have hstart : ¬NeedsSlab samplePair.aligned.mem 0x1000 ∧ ¬NeedsSlab samplePair.plain.mem 0x1000 := by
    decide
  refine ⟨t,Run.cons ⟨⟨fun hn => absurd hn hstart.1,fun hn => absurd hn hstart.2⟩,hs⟩
    (Run.cons ⟨hlive,ht⟩ (Run.nil t)),fun h => ?_⟩
  have hsame := h.counters 0 (by omega)
  omega

end XanaduOS.SlabPairs
