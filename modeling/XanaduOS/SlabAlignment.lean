import XanaduOS.SlabNames

/-!
# Aligned caches beside unaligned ones

The records of an aligned slab lie as those of an unaligned slab whose objects
have no bytes; only the addresses of objects differ. Except where an object is
looked up, nothing depends on these addresses, so an aligned cache follows the
same bookkeeping. The lookup of a released object starts at the second chunk of
a slab: it finds every object but the first.
-/

namespace XanaduOS.SlabAlignment

open Word32 SlabAllocator SlabRuns SlabNames Chains Runs

/-! ## Memory without objects -/

/-- Memory without the places and sizes of objects, and without the registry. -/
def strip (m : SlabMem) : SlabMem :=
  {slab := fun p => {m.slab p with size := 0}
   chunk := fun p => {m.chunk p with dataAddr := 0}
   cache := fun _ => ⟨0,0,0,0⟩
   caches := 0}

variable {m m' : SlabMem}

/-- Slab writes that do not look at the size. -/
theorem strip_setSlab (m : SlabMem) (p : ℕ) {f : Slab → Slab}
    (hf : ∀ s : Slab,{f s with size := 0}=f {s with size := 0}) :
    strip (m.setSlab p f)=(strip m).setSlab p f := by
  simp only [strip,SlabMem.setSlab,SlabMem.mk.injEq,and_true]
  funext y
  by_cases hy : y=p
  · subst hy
    rw [Function.update_self,Function.update_self]
    exact hf _
  · rw [Function.update_of_ne hy,Function.update_of_ne hy]

/-- Chunk writes that do not look at the object. -/
theorem strip_setChunk (m : SlabMem) (p : ℕ) {f : SlabChunk → SlabChunk}
    (hf : ∀ c : SlabChunk,{f c with dataAddr := 0}=f {c with dataAddr := 0}) :
    strip (m.setChunk p f)=(strip m).setChunk p f := by
  simp only [strip,SlabMem.setChunk,SlabMem.mk.injEq,and_true,true_and]
  funext y
  by_cases hy : y=p
  · subst hy
    rw [Function.update_self,Function.update_self]
    exact hf _
  · rw [Function.update_of_ne hy,Function.update_of_ne hy]

/-- The same slab write, sizes apart, in the same memory, objects apart. -/
theorem strip_setSlab_congr (h : strip m=strip m') (p : ℕ) (f f' : Slab → Slab)
    (hf : {f (m.slab p) with size := 0}={f' (m'.slab p) with size := 0}) :
    strip (m.setSlab p f)=strip (m'.setSlab p f') := by
  have hslab : ∀ y,{m.slab y with size := 0}={m'.slab y with size := 0} :=
    fun y => congrFun (congrArg SlabMem.slab h) y
  have hchunk := congrArg SlabMem.chunk h
  simp only [strip] at hchunk
  simp only [strip,SlabMem.setSlab,SlabMem.mk.injEq,and_true,hchunk]
  funext y
  by_cases hy : y=p
  · subst hy
    rw [Function.update_self,Function.update_self]
    exact hf
  · rw [Function.update_of_ne hy,Function.update_of_ne hy]
    exact hslab y

/-- The same chunk write, objects apart, in the same memory, objects apart. -/
theorem strip_setChunk_congr (h : strip m=strip m') (p : ℕ) {f f' : SlabChunk → SlabChunk}
    (hf : {f (m.chunk p) with dataAddr := 0}={f' (m'.chunk p) with dataAddr := 0}) :
    strip (m.setChunk p f)=strip (m'.setChunk p f') := by
  have hchunk : ∀ y,{m.chunk y with dataAddr := 0}={m'.chunk y with dataAddr := 0} :=
    fun y => congrFun (congrArg SlabMem.chunk h) y
  have hslab := congrArg SlabMem.slab h
  simp only [strip] at hslab
  simp only [strip,SlabMem.setChunk,SlabMem.mk.injEq,and_true,hslab,true_and]
  funext y
  by_cases hy : y=p
  · subst hy
    rw [Function.update_self,Function.update_self]
    exact hf
  · rw [Function.update_of_ne hy,Function.update_of_ne hy]
    exact hchunk y

/-- Reading a slab, its size apart. -/
theorem strip_slab (m : SlabMem) (p : ℕ) : ((strip m).slab p).numFree=(m.slab p).numFree ∧
    ((strip m).slab p).next=(m.slab p).next ∧ ((strip m).slab p).prev=(m.slab p).prev ∧
    ((strip m).slab p).chunks=(m.slab p).chunks := ⟨rfl,rfl,rfl,rfl⟩

/-- Reading a chunk, its object apart. -/
theorem strip_chunk (m : SlabMem) (p : ℕ) : ((strip m).chunk p).next=(m.chunk p).next ∧
    ((strip m).chunk p).nextFree=(m.chunk p).nextFree ∧
    ((strip m).chunk p).prevFree=(m.chunk p).prevFree ∧
    ((strip m).chunk p).slab=(m.chunk p).slab := ⟨rfl,rfl,rfl,rfl⟩

/-- Unlinking a slab. -/
theorem strip_slabRemoveFromCache (m : SlabMem) (slab : ℕ) :
    slabRemoveFromCache (strip m) slab=(slabRemoveFromCache m slab).map strip := by
  simp (disch := intro _; rfl) only [slabRemoveFromCache,strip_slab,←strip_setSlab,
    ←apply_ite strip,apply_ite (Option.map strip),Option.map_some,Option.map_none]

/-- Pushing a slab. -/
theorem strip_slabInsertInCache (m : SlabMem) (slabList slab : ℕ) :
    slabInsertInCache (strip m) slabList slab=strip (slabInsertInCache m slabList slab) := by
  simp (disch := intro _; rfl) only [slabInsertInCache,strip_slab,←strip_setSlab,
    ←apply_ite strip]

/-- Taking a chunk. -/
theorem strip_popChunk (m : SlabMem) (slab : ℕ) :
    popChunk (strip m) slab=strip (popChunk m slab) := by
  simp (disch := intro _; rfl) only [popChunk,strip_chunk,←strip_setSlab,←strip_setChunk,
    ←apply_ite strip]

/-- Taking a slab off its list and pushing one on another. -/
theorem strip_removeInsert (m : SlabMem) (removed slabList slab : ℕ) :
    (do return slabInsertInCache (← slabRemoveFromCache (strip m) removed) slabList slab)=
      (do return slabInsertInCache (← slabRemoveFromCache m removed) slabList slab :
        Option SlabMem).map strip := by
  rw [strip_slabRemoveFromCache]
  cases slabRemoveFromCache m removed with
  | none => rfl
  | some m' => exact congrArg some (strip_slabInsertInCache m' slabList slab)

/-- Moving a slab that lost a chunk. -/
theorem strip_moveAfterAlloc (m : SlabMem) (cache slab : ℕ) :
    moveAfterAlloc (strip m) cache slab=(moveAfterAlloc m cache slab).map strip := by
  simp only [moveAfterAlloc,strip_slab]
  split
  · exact strip_removeInsert m _ _ slab
  · split
    · exact strip_removeInsert m _ _ slab
    · rfl

/-- Moving a slab that gained a chunk. -/
theorem strip_moveAfterFree (m : SlabMem) (cache slab : ℕ) :
    moveAfterFree (strip m) cache slab=(moveAfterFree m cache slab).map strip := by
  simp only [moveAfterFree,strip_slab]
  split
  · exact strip_removeInsert m slab _ slab
  · split
    · exact strip_removeInsert m slab _ slab
    · rfl

/-- Walking a chain. -/
theorem strip_insertionWalk (m : SlabMem) (chunk fuel prevFree : ℕ) :
    insertionWalk (strip m) chunk fuel prevFree=insertionWalk m chunk fuel prevFree := by
  induction fuel generalizing prevFree with
  | zero => rfl
  | succ fuel ih => simp only [insertionWalk,strip_chunk,ih]

/-- Putting a chunk back. -/
theorem strip_chainInsert (m : SlabMem) (chunk fuel : ℕ) :
    chainInsert (strip m) chunk fuel=(chainInsert m chunk fuel).map strip := by
  simp (disch := intro _; rfl) only [chainInsert,strip_chunk,strip_insertionWalk,←strip_setChunk]
  split
  · rfl
  · cases insertionWalk m chunk fuel (m.chunk (baseChunk (m.chunk chunk).slab)).nextFree with
    | none => rfl
    | some p =>
      simp only [Option.bind_eq_bind,Option.bind_some,Option.map_some,Option.pure_def]

/-- Releasing a chunk. -/
theorem strip_freeChunk (m : SlabMem) (cache chunk fuel : ℕ) :
    freeChunk (strip m) cache chunk fuel=(freeChunk m cache chunk fuel).map strip := by
  simp (disch := intro _; rfl) only [freeChunk,strip_chunk,←strip_setSlab]
  split
  · rfl
  · rw [strip_moveAfterFree]
    cases moveAfterFree (m.setSlab (m.chunk chunk).slab fun s =>
        {s with numFree := wadd s.numFree 1}) cache (m.chunk chunk).slab with
    | none => rfl
    | some m' => exact strip_chainInsert m' chunk fuel

/-- The chunks of an aligned slab lie as those of objects without bytes. -/
theorem strip_initChunks {align : ℕ} (halign : align≠0)
    (metaSize slab chunksAddr slabData slabData' left i cur prev : ℕ)
    (hcur : cur=wadd chunksAddr (wmul i chunkSize)) (h : strip m=strip m') :
    strip (initChunks align metaSize slab chunksAddr slabData left i cur prev m)=
      strip (initChunks 0 chunkSize slab chunksAddr slabData' left i cur prev m') := by
  induction left generalizing i cur prev m m' with
  | zero => exact h
  | succ left ih =>
    have hnext : wadd (wadd chunksAddr (wmul i chunkSize)) chunkSize=
        wadd chunksAddr (wmul (i+1) chunkSize) := by
      simp only [wadd,wmul,chunkSize]
      omega
    simp only [initChunks,ne_eq,not_true_eq_false,if_false,false_or,halign,not_false_eq_true,
      true_or,if_true,←hcur,ite_self]
    refine ih (i+1) _ _ (by rw [hcur,hnext]) (strip_setChunk_congr ?_ _ rfl)
    split
    · rw [strip_setSlab _ _ fun _ => rfl,strip_setSlab _ _ fun _ => rfl,h]
    · rw [strip_setChunk _ _ fun _ => rfl,strip_setChunk _ _ fun _ => rfl,h]

/-- A new aligned slab is laid out as one of objects without bytes. -/
theorem strip_slabAllocSlabAlign {cache align : ℕ} (halign : align≠0)
    (hsize : (m'.cache cache).size=0) (newSlab slabData slabData' : ℕ) (h : strip m=strip m') :
    strip (slabAllocSlabAlign m cache align newSlab slabData)=
      strip (slabAllocSlabAlign m' cache 0 newSlab slabData') := by
  have hmeta : wadd 0 chunkSize=chunkSize := rfl
  have hcur : wadd newSlab slabSize=wadd (wadd newSlab slabSize) (wmul 0 chunkSize) := by
    simp only [wadd,wmul]
    omega
  have hinit := strip_initChunks halign (m.cache cache).size newSlab (wadd newSlab slabSize)
    slabData slabData' SLAB_CAPACITY 0 (wadd newSlab slabSize) (baseChunk newSlab) hcur
    (strip_setSlab_congr h newSlab (fun s => {s with chunks := wadd newSlab slabSize})
      (fun s => {s with chunks := wadd newSlab slabSize}) (by
        have hs := congrFun (congrArg SlabMem.slab h) newSlab
        simp only [strip,Slab.mk.injEq,true_and] at hs ⊢
        exact ⟨hs.1,hs.2.1,hs.2.2.1,trivial⟩))
  simp only [slabAllocSlabAlign,ne_eq,halign,not_false_eq_true,if_true,not_true_eq_false,if_false,
    hsize,hmeta,setSlab_slab]
  revert hinit
  generalize initChunks align _ _ _ _ _ _ _ _ _=done
  generalize initChunks 0 _ _ _ _ _ _ _ _ _=done'
  intro hinit
  have hchunks : ((strip done).slab newSlab).chunks=((strip done').slab newSlab).chunks := by
    rw [hinit]
  simp only [strip_slab] at hchunks
  rw [←strip_slabInsertInCache,←strip_slabInsertInCache,hchunks]
  refine congrArg (slabInsertInCache · _ _) (strip_setChunk_congr ?_ _ rfl)
  refine strip_setSlab_congr hinit _ _ _ ?_
  simp only [hchunks]

/-! ## Fixed parts of the records -/

/-- What calls leave as a slab was laid out: where objects lie, and the order of
chunks in memory. -/
def fixed (m : SlabMem) : SlabMem :=
  {m with
   slab := fun p => {m.slab p with numFree := 0,next := 0,prev := 0}
   chunk := fun p => {m.chunk p with nextFree := 0,prevFree := 0}}

/-- Slab writes to links and counters. -/
theorem fixed_setSlab (m : SlabMem) (p : ℕ) {f : Slab → Slab}
    (hf : ∀ s : Slab,(f s).size=s.size ∧ (f s).chunks=s.chunks) :
    fixed (m.setSlab p f)=fixed m := by
  simp only [fixed,SlabMem.setSlab,SlabMem.mk.injEq,and_true]
  funext y
  by_cases hy : y=p
  · subst hy
    rw [Function.update_self,(hf _).1,(hf _).2]
  · rw [Function.update_of_ne hy]

/-- Chunk writes to links of free chunks. -/
theorem fixed_setChunk (m : SlabMem) (p : ℕ) {f : SlabChunk → SlabChunk}
    (hf : ∀ c : SlabChunk,(f c).next=c.next ∧ (f c).slab=c.slab ∧ (f c).dataAddr=c.dataAddr) :
    fixed (m.setChunk p f)=fixed m := by
  simp only [fixed,SlabMem.setChunk,SlabMem.mk.injEq,and_true,true_and]
  funext y
  by_cases hy : y=p
  · subst hy
    rw [Function.update_self,(hf _).1,(hf _).2.1,(hf _).2.2]
  · rw [Function.update_of_ne hy]

/-- Unlinking a slab. -/
theorem fixed_slabRemoveFromCache {slab : ℕ} (h : slabRemoveFromCache m slab=some m') :
    fixed m'=fixed m := by
  have hmap := congrArg (Option.map fixed) h
  simp (disch := intro _; exact ⟨rfl,rfl⟩) only [slabRemoveFromCache,apply_ite (Option.map fixed),
    Option.map_some,Option.map_none,fixed_setSlab,apply_ite fixed,ite_self] at hmap
  split at hmap
  · exact (Option.some.inj hmap).symm
  · exact (Option.some.inj (Option.ite_none_left_eq_some.mp hmap).2).symm

/-- Pushing a slab. -/
theorem fixed_slabInsertInCache (m : SlabMem) (slabList slab : ℕ) :
    fixed (slabInsertInCache m slabList slab)=fixed m := by
  simp (disch := intro _; exact ⟨rfl,rfl⟩) only [slabInsertInCache,fixed_setSlab,apply_ite fixed,
    ite_self]

/-- Taking a chunk. -/
theorem fixed_popChunk (m : SlabMem) (slab : ℕ) : fixed (popChunk m slab)=fixed m := by
  have hfree : ∀ {x : SlabMem} {p v : ℕ},
      fixed (x.setChunk p fun c => {c with nextFree := v})=fixed x :=
    fixed_setChunk _ _ fun _ => ⟨rfl,rfl,rfl⟩
  have hprev : ∀ {x : SlabMem} {p v : ℕ},
      fixed (x.setChunk p fun c => {c with prevFree := v})=fixed x :=
    fixed_setChunk _ _ fun _ => ⟨rfl,rfl,rfl⟩
  simp (disch := intro _; exact ⟨rfl,rfl⟩) only [popChunk,fixed_setSlab,hfree,hprev,
    apply_ite fixed,ite_self]

/-- Taking a slab off its list and pushing one on another. -/
theorem fixed_removeInsert {removed slabList slab : ℕ}
    (h : (do return slabInsertInCache (← slabRemoveFromCache m removed) slabList slab)=some m') :
    fixed m'=fixed m := by
  obtain ⟨rest,hr,hm⟩ := Option.bind_eq_some_iff.mp h
  rw [←Option.some.inj hm,fixed_slabInsertInCache,fixed_slabRemoveFromCache hr]

/-- Moving a slab that lost a chunk. -/
theorem fixed_moveAfterAlloc {cache slab : ℕ} (h : moveAfterAlloc m cache slab=some m') :
    fixed m'=fixed m := by
  rw [moveAfterAlloc] at h
  split at h
  · exact fixed_removeInsert h
  · split at h
    · exact fixed_removeInsert h
    · rw [Option.some.inj h]

/-- Moving a slab that gained a chunk. -/
theorem fixed_moveAfterFree {cache slab : ℕ} (h : moveAfterFree m cache slab=some m') :
    fixed m'=fixed m := by
  rw [moveAfterFree] at h
  split at h
  · exact fixed_removeInsert h
  · split at h
    · exact fixed_removeInsert h
    · rw [Option.some.inj h]

/-- Putting a chunk back. -/
theorem fixed_chainInsert {chunk fuel : ℕ} (h : chainInsert m chunk fuel=some m') :
    fixed m'=fixed m := by
  have hfree : ∀ {x : SlabMem} {p v : ℕ},
      fixed (x.setChunk p fun c => {c with nextFree := v})=fixed x :=
    fixed_setChunk _ _ fun _ => ⟨rfl,rfl,rfl⟩
  simp only [chainInsert] at h
  split at h
  · rw [←Option.some.inj h,hfree,hfree]
  · obtain ⟨p,-,hm⟩ := Option.bind_eq_some_iff.mp h
    rw [←Option.some.inj hm,hfree,hfree]

/-- Releasing a chunk. -/
theorem fixed_freeChunk {cache chunk fuel : ℕ} (h : freeChunk m cache chunk fuel=some m') :
    fixed m'=fixed m := by
  simp only [freeChunk] at h
  split at h
  · simp at h
  · obtain ⟨moved,hmove,hinsert⟩ := Option.bind_eq_some_iff.mp h
    rw [fixed_chainInsert hinsert,fixed_moveAfterFree hmove]
    exact fixed_setSlab _ _ fun _ => ⟨rfl,rfl⟩

/-! ## Aligned slabs -/

/-- Where the objects of an aligned slab begin. -/
def dataOf (m : SlabMem) (slab : ℕ) : ℕ := (m.chunk (chunkAt 0 slab 0)).dataAddr

/-- An aligned slab as it was laid out. -/
structure Laid (size : ℕ) (m : SlabMem) (slab : ℕ) : Prop where
  /-- Distance of objects. -/
  distance : (m.slab slab).size=size
  /-- The first chunk. -/
  chunks : (m.slab slab).chunks=chunkAt 0 slab 0
  /-- The base chunk leads to the first one. -/
  base : (m.chunk (baseChunk slab)).next=chunkAt 0 slab 0
  /-- Each chunk leads to the next one. -/
  next : ∀ i<SLAB_CAPACITY,(m.chunk (chunkAt 0 slab i)).next=chunkAt 0 slab (i+1)
  /-- Objects lie one behind the other. -/
  object : ∀ i<SLAB_CAPACITY,(m.chunk (chunkAt 0 slab i)).dataAddr=dataOf m slab+i*size

/-- Changes elsewhere leave a slab as it was laid out. -/
theorem Laid.frame {size slab : ℕ} (h : Laid size m slab)
    (hslab : (m'.slab slab).size=(m.slab slab).size ∧ (m'.slab slab).chunks=(m.slab slab).chunks)
    (hchunk : ∀ p,slab≤p → p<slab+slabBytes 0 → (m'.chunk p).next=(m.chunk p).next ∧
      (m'.chunk p).dataAddr=(m.chunk p).dataAddr) :
    Laid size m' slab ∧ dataOf m' slab=dataOf m slab := by
  have hrecord : ∀ i<SLAB_CAPACITY,(m'.chunk (chunkAt 0 slab i)).next=
      (m.chunk (chunkAt 0 slab i)).next ∧
      (m'.chunk (chunkAt 0 slab i)).dataAddr=(m.chunk (chunkAt 0 slab i)).dataAddr := by
    intro i hi
    obtain ⟨h0,h1⟩ := chunkAt_within 0 slab hi.le
    exact hchunk _ (by omega) (by omega)
  have hdata : dataOf m' slab=dataOf m slab := (hrecord 0 (by decide)).2
  obtain ⟨h0,-,h1⟩ := baseChunk_within 0 slab
  refine ⟨⟨hslab.1.trans h.distance,hslab.2.trans h.chunks,(hchunk _ h0.le h1).1.trans h.base,
    fun i hi => (hrecord i hi).1.trans (h.next i hi),fun i hi => ?_⟩,hdata⟩
  rw [(hrecord i hi).2,h.object i hi,hdata]

/-- Calls leave a slab as it was laid out. -/
theorem Laid.congr {size slab : ℕ} (h : Laid size m slab) (hfixed : fixed m'=fixed m) :
    Laid size m' slab ∧ dataOf m' slab=dataOf m slab := by
  have hslab : ∀ p,((fixed m').slab p).size=((fixed m).slab p).size ∧
      ((fixed m').slab p).chunks=((fixed m).slab p).chunks := by
    intro p
    rw [hfixed]
    exact ⟨rfl,rfl⟩
  have hchunk : ∀ p,((fixed m').chunk p).next=((fixed m).chunk p).next ∧
      ((fixed m').chunk p).dataAddr=((fixed m).chunk p).dataAddr := by
    intro p
    rw [hfixed]
    exact ⟨rfl,rfl⟩
  exact h.frame (hslab slab) fun p _ _ => hchunk p

/-- A slab as it was built, with its objects one behind the other. -/
theorem Laid.of_built {size slab slabData : ℕ}
    (h : SlabBuilt 0 (fun i => slabData+i*size) size slab m m') :
    Laid size m' slab ∧ dataOf m' slab=slabData := by
  have hdata : dataOf m' slab=slabData := by
    obtain ⟨prev,hrecord⟩ := h.records 0 (by decide)
    rw [dataOf,hrecord]
    exact (congrArg (slabData+·) (Nat.zero_mul size)).trans (Nat.add_zero _)
  refine ⟨⟨by rw [h.record],by rw [h.record],by rw [h.base],fun i hi => ?_,fun i hi => ?_⟩,hdata⟩
  · obtain ⟨prev,hrecord⟩ := h.records i hi
    rw [hrecord]
  · obtain ⟨prev,hrecord⟩ := h.records i hi
    rw [hrecord,hdata]

/-- A new aligned slab. -/
theorem slabAllocSlabAlign_laid (slabData : ℕ) {align : ℕ} (halign : align≠0)
    {cache size newSlab : ℕ}
    (hsize : (m.cache cache).size=size) (hfits : newSlab+slabBytes 0≤2^32)
    (hdata : slabData+SLAB_CAPACITY*size<2^32) :
    ∃ m',slabAllocSlabAlign m cache align newSlab slabData=m' ∧ m'.cache=m.cache ∧
      Laid size m' newSlab ∧ dataOf m' newSlab=slabData ∧
      (∀ p,p≠newSlab → (m'.slab p).size=(m.slab p).size ∧ (m'.slab p).chunks=(m.slab p).chunks) ∧
      ∀ p,p<newSlab ∨ newSlab+slabBytes 0≤p →
        (m'.chunk p).next=(m.chunk p).next ∧ (m'.chunk p).dataAddr=(m.chunk p).dataAddr := by
  obtain ⟨built,hgrown,hbuilt⟩ := slabAllocSlabAlign_built m cache align slabData
    ((if_pos halign).trans hsize) ((if_pos halign).trans (Nat.zero_add _).symm) hfits
    fun i hi => by
      have hmul := Nat.mul_le_mul_right size hi.le
      rw [if_pos halign,wmul_eq (by omega),wadd_eq (by omega)]
  obtain ⟨hlaid,hdataOf⟩ := Laid.of_built hbuilt
  obtain ⟨hlaid',hdata'⟩ := hlaid.congr (fixed_slabInsertInCache built (slabsFree cache) newSlab)
  obtain ⟨hchunk',hcache',-,-,-⟩ := slabInsertInCache_spec built (slabsFree cache) newSlab
  refine ⟨_,hgrown,hcache'.trans hbuilt.cache,hlaid',hdata'.trans hdataOf,fun p hp => ?_,
    fun p hp => ?_⟩
  · have hsame : ((fixed (slabInsertInCache built (slabsFree cache) newSlab)).slab p)=
        (fixed built).slab p := by rw [fixed_slabInsertInCache]
    simp only [fixed,Slab.mk.injEq,true_and] at hsame
    rw [hsame.1,hsame.2,hbuilt.slabs p hp]
    exact ⟨rfl,rfl⟩
  · rw [hchunk',hbuilt.others p hp]
    exact ⟨rfl,rfl⟩

end XanaduOS.SlabAlignment
