import XanaduOS.Runs
import XanaduOS.SlabRuns

/-!
# The registry of slab caches

A new cache becomes the first of a doubly linked list that a global pointer
leads to. A destroyed cache is taken out between its neighbours, but the global
pointer stays where it is. So the list holds the caches that exist exactly as
long as the first one is never destroyed; afterwards a search by object size
starts in memory that has been released.
-/

namespace XanaduOS.SlabRegistry

open Word32 Chains Runs SlabAllocator

/-- Memory that the heap gives to a new cache. -/
structure Grant where
  /-- The cache record. -/
  cache : ℕ
  /-- The first slab. -/
  slab : ℕ
  /-- Bytes of the slab with its chunks. -/
  slabLen : ℕ
  /-- Memory of aligned objects. -/
  slabData : ℕ
  deriving DecidableEq

/-- Bytes of a slab with its chunks, and with unaligned objects. -/
def slabLength (size alignment : ℕ) : ℕ :=
  if alignment≠0 then slabSize+(SLAB_CAPACITY+1)*chunkSize
  else slabSize+(SLAB_CAPACITY+1)*(size+chunkSize)-size

/-- Two blocks of memory, by address and length. -/
def Apart (b c : ℕ×ℕ) : Prop := b.1+b.2≤c.1 ∨ c.1+c.2≤b.1

instance (b c : ℕ×ℕ) : Decidable (Apart b c) := inferInstanceAs (Decidable (_ ∨ _))

/-- Blocks that hold the records of a cache. -/
def Grant.blocks (g : Grant) : List (ℕ×ℕ) := [(g.cache,cacheSize),(g.slab,g.slabLen)]

/-- The heap gives memory that is not in use. -/
def Fresh (live : List Grant) (g : Grant) : Prop :=
  g.cache≠0 ∧ g.slab≠0 ∧ Apart (g.cache,cacheSize) (g.slab,g.slabLen) ∧
    ∀ g'∈live,∀ b∈g.blocks,∀ c∈g'.blocks,Apart b c

instance (live : List Grant) (g : Grant) : Decidable (Fresh live g) :=
  inferInstanceAs (Decidable (_ ∧ _ ∧ _ ∧ _))

/-- The records, and the memory of the caches created and not destroyed. -/
structure Registry where
  /-- Records and the global pointer. -/
  mem : SlabMem
  /-- Caches that exist. -/
  live : List Grant

/-- Creations and destructions. An alignment of zero is that of
`slab_cache_create`. -/
inductive Op
  /-- Create a cache in memory from the heap. -/
  | create (size alignment : ℕ) (g : Grant)
  /-- Destroy a cache. -/
  | destroy (cache : ℕ)

/-- One operation. Caches destroyed are existing ones. -/
def step (fuel : ℕ) (s : Registry) : Op → Option Registry
  | .create size alignment g =>
    if Fresh s.live g ∧ g.slabLen=slabLength size alignment then
      some ⟨slabCacheCreateAlign s.mem size alignment g.cache g.slab g.slabData,g::s.live⟩
    else none
  | .destroy cache =>
    if cache∈s.live.map Grant.cache then
      (slabCacheDestroy s.mem cache fuel).map fun r =>
        ⟨r.1,s.live.filter fun g => g.cache≠cache⟩
    else none

/-- Before any cache is created. -/
def boot (mem : SlabMem) : Registry := ⟨{mem with caches := 0},[]⟩

/-- Caches that a search for objects of a size comes to. -/
inductive Searched (m : SlabMem) (size : ℕ) : ℕ → Prop
  /-- The first one. -/
  | first (h : m.caches≠0) : Searched m size m.caches
  /-- The one behind a cache for other objects. -/
  | next {cache : ℕ} (h : Searched m size cache) (hsize : (m.cache cache).size≠size)
      (hn : (m.cache cache).next≠0) : Searched m size (m.cache cache).next

/-- Forward links, with the global pointer behind the null pointer. -/
def links (m : SlabMem) : ℕ → ℕ := Function.update (fun p => (m.cache p).next) 0 m.caches

/-- A list of the existing caches, each once, linked both ways from the global
pointer on. -/
structure Listed (s : Registry) (order : List ℕ) : Prop where
  /-- Both links, from the global pointer to the null pointer. -/
  linked : Linked 0 (links s.mem) (fun p => (s.mem.cache p).prev) 0 order
  /-- No cache is listed twice, and none is null. -/
  nodup : (0::order).Nodup
  /-- The caches listed are the existing ones. -/
  live : ∀ p,p∈order ↔ p∈s.live.map Grant.cache

/-- What the users of the registry rely on. -/
structure Registered (fuel : ℕ) (s : Registry) : Prop where
  /-- The list holds the existing caches. -/
  listed : ∃ order,Listed s order
  /-- A search meets existing caches only. -/
  searched : ∀ size p,Searched s.mem size p → p∈s.live.map Grant.cache
  /-- A search ends. -/
  ends : ∀ size,∃ k p,findCache s.mem size k s.mem.caches=some p
  /-- Every existing cache can be destroyed. -/
  destroys : ∀ p∈s.live.map Grant.cache,∃ r,slabCacheDestroy s.mem p fuel=some r

/-- The cache destroyed, if one is, is not the first of the list. -/
def NotFirst (s : Registry) (op : Op) (_ : Registry) : Prop :=
  ∀ cache,op=.destroy cache → cache≠s.mem.caches

variable {s t : Registry} {m : SlabMem} {g : Grant} {order : List ℕ} {p size alignment fuel : ℕ}

/-! ## What the operations write -/

/-- Laying out chunks changes the record of one slab at most. -/
theorem initChunks_frame (align metaSize slab chunksAddr slabData left i cur prev : ℕ)
    (m : SlabMem) :
    (initChunks align metaSize slab chunksAddr slabData left i cur prev m).cache=m.cache ∧
    (initChunks align metaSize slab chunksAddr slabData left i cur prev m).caches=m.caches ∧
    ∀ y,y≠slab →
      (initChunks align metaSize slab chunksAddr slabData left i cur prev m).slab y=m.slab y := by
  induction left generalizing i cur prev m with
  | zero => exact ⟨rfl,rfl,fun _ _ => rfl⟩
  | succ left ih =>
    simp only [initChunks]
    obtain ⟨hcache,hcaches,hslab⟩ := ih (i+1) _ _ _
    refine ⟨hcache.trans ?_,hcaches.trans ?_,fun y hy => (hslab y hy).trans ?_⟩
    · split <;> rfl
    · split <;> rfl
    · split
      · rw [setChunk_slab,setSlab_slab,if_neg hy]
      · rfl

/-- A new slab is laid out and then pushed on the free list. -/
theorem slabAllocSlabAlign_frame (m : SlabMem) (cache align newSlab slabData : ℕ) :
    ∃ laid,slabAllocSlabAlign m cache align newSlab slabData=
        slabInsertInCache laid (slabsFree cache) newSlab ∧ laid.cache=m.cache ∧
      laid.caches=m.caches ∧ ∀ y,y≠newSlab → laid.slab y=m.slab y := by
  have hframe := initChunks_frame align
    (if align≠0 then (m.cache cache).size else wadd (m.cache cache).size chunkSize) newSlab
    (wadd newSlab slabSize) slabData SLAB_CAPACITY 0
    ((m.setSlab newSlab fun s => {s with chunks := wadd newSlab slabSize}).slab newSlab).chunks
    (baseChunk newSlab) (m.setSlab newSlab fun s => {s with chunks := wadd newSlab slabSize})
  simp only [slabAllocSlabAlign]
  generalize initChunks _ _ _ _ _ _ _ _ _ _=laid at hframe ⊢
  obtain ⟨hcache,hcaches,hslab⟩ := hframe
  refine ⟨_,rfl,hcache,hcaches,fun y hy => ?_⟩
  rw [setChunk_slab,setSlab_slab,if_neg hy,hslab y hy,setSlab_slab,if_neg hy]

/-- Cache records after rewriting the one behind a pointer that may be null. -/
theorem setCacheAt_cache (m : SlabMem) (p y : ℕ) (f : SlabCache → SlabCache) :
    (if p≠0 then m.setCache p f else m).cache y=
      if y=p ∧ p≠0 then f (m.cache y) else m.cache y := by
  by_cases hp : p=0
  · simp [hp]
  · rw [if_pos hp,setCache_cache]
    by_cases hy : y=p
    · rw [if_pos hy,if_pos ⟨hy,hp⟩,hy]
    · rw [if_neg hy,if_neg fun hand => hy hand.1]

/-- A cache is zeroed and put on the registry before its first slab is laid out. -/
theorem slabCacheCreateAlign_zeroed (m : SlabMem) (size alignment slab slabData : ℕ) {cache : ℕ}
    (hne : m.caches≠cache) :
    ∃ zeroed,slabCacheCreateAlign m size alignment cache slab slabData=
        slabAllocSlabAlign zeroed cache alignment slab slabData ∧ zeroed.caches=cache ∧
      (∀ y,(zeroed.cache y).next=if y=cache then m.caches else (m.cache y).next) ∧
      (∀ y,(zeroed.cache y).prev=if y=cache then 0
        else if y=m.caches ∧ m.caches≠0 then cache else (m.cache y).prev) ∧
      ∀ y,zeroed.slab y=if y=slabsFree cache ∨ y=slabsFull cache ∨ y=slabsPartial cache then
        ⟨0,0,0,0,0⟩ else m.slab y := by
  refine ⟨_,rfl,?_,fun y => ?_,fun y => ?_,fun y => ?_⟩
  · split <;> rfl
  · simp only [setCache_cache,setCacheAt_cache]
    by_cases hy : y=cache
    · simp [hy,hne.symm]
    · simp only [if_neg hy,setSlab_cache]
      split <;> rfl
  · simp only [setCache_cache,setCacheAt_cache]
    by_cases hy : y=cache
    · simp [hy,hne.symm]
    · simp only [if_neg hy,setSlab_cache]
      split <;> rfl
  · have hslab : ∀ x : SlabMem,(if m.caches≠0 then x.setCache m.caches fun c =>
        {c with prev := cache} else x).slab=x.slab := by
      intro x
      split <;> rfl
    simp only [setCache_slab,hslab,setSlab_slab]
    grind

/-- Pushing a slab on an empty list. -/
theorem slabInsertInCache_empty {l s : ℕ} (hnext : (m.slab l).next=0) (hne : l≠s) :
    (slabInsertInCache m l s).cache=m.cache ∧ (slabInsertInCache m l s).caches=m.caches ∧
      ((slabInsertInCache m l s).slab l).next=s ∧ ((slabInsertInCache m l s).slab s).next=0 ∧
      ∀ y,y≠l → y≠s → (slabInsertInCache m l s).slab y=m.slab y := by
  simp only [slabInsertInCache,hnext,ne_eq,not_true_eq_false,if_false]
  refine ⟨rfl,rfl,?_,?_,fun y hl hs => ?_⟩
  · rw [setSlab_slab,if_neg hne,setSlab_slab,if_pos rfl]
  · rw [setSlab_slab,if_pos rfl]
  · rw [setSlab_slab,if_neg hs,setSlab_slab,if_neg hl]

/-- Addresses of the slab records of a cache: its list heads and its slab. -/
def Grant.records (g : Grant) : List ℕ :=
  [slabsFree g.cache,slabsFull g.cache,slabsPartial g.cache,g.slab]

/-- A cache with one slab, which is free. -/
structure OneSlab (m : SlabMem) (g : Grant) : Prop where
  /-- The free list begins with the slab. -/
  free : (m.slab (slabsFree g.cache)).next=g.slab
  /-- It ends there. -/
  last : (m.slab g.slab).next=0
  /-- No slab is full. -/
  full : (m.slab (slabsFull g.cache)).next=0
  /-- None is partly free. -/
  part : (m.slab (slabsPartial g.cache)).next=0

/-- The records of a cache decide. -/
theorem OneSlab.congr {m' : SlabMem} (h : OneSlab m g) (heq : ∀ y∈g.records,m'.slab y=m.slab y) :
    OneSlab m' g := by
  simp only [Grant.records,List.forall_mem_cons,List.not_mem_nil,false_imp_iff,
    implies_true,and_true] at heq
  obtain ⟨hfree,hfull,hpart,hslab⟩ := heq
  exact ⟨(congrArg Slab.next hfree).trans h.free,(congrArg Slab.next hslab).trans h.last,
    (congrArg Slab.next hfull).trans h.full,(congrArg Slab.next hpart).trans h.part⟩

/-- A new cache becomes the first of the registry, with one slab. -/
theorem slabCacheCreateAlign_spec (m : SlabMem) (size alignment : ℕ)
    (hslab : g.slab∉[slabsFree g.cache,slabsFull g.cache,slabsPartial g.cache])
    (hne : m.caches≠g.cache) {t : SlabMem}
    (ht : t=slabCacheCreateAlign m size alignment g.cache g.slab g.slabData) :
    t.caches=g.cache ∧
      (∀ y,(t.cache y).next=if y=g.cache then m.caches else (m.cache y).next) ∧
      (∀ y,(t.cache y).prev=if y=g.cache then 0
        else if y=m.caches ∧ m.caches≠0 then g.cache else (m.cache y).prev) ∧
      OneSlab t g ∧ ∀ y∉g.records,t.slab y=m.slab y := by
  subst ht
  simp only [List.mem_cons,List.not_mem_nil,or_false,not_or] at hslab
  obtain ⟨hfree,hfull,hpart⟩ := hslab
  obtain ⟨zeroed,hcreate,hcaches,hnext,hprev,hrecords⟩ :=
    slabCacheCreateAlign_zeroed m size alignment g.slab g.slabData hne
  obtain ⟨laid,halloc,hlcache,hlcaches,hlslab⟩ :=
    slabAllocSlabAlign_frame zeroed g.cache alignment g.slab g.slabData
  have hhead : (laid.slab (slabsFree g.cache)).next=0 := by
    rw [hlslab _ (Ne.symm hfree),hrecords,if_pos (Or.inl rfl)]
  obtain ⟨hicache,hicaches,hi0,hi1,hislab⟩ := slabInsertInCache_empty hhead (Ne.symm hfree)
  rw [hcreate,halloc]
  refine ⟨hicaches.trans (hlcaches.trans hcaches),fun y => ?_,fun y => ?_,⟨hi0,hi1,?_,?_⟩,
    fun y hy => ?_⟩
  · rw [hicache,hlcache,hnext]
  · rw [hicache,hlcache,hprev]
  · rw [hislab _ (by simp) (Ne.symm hfull),hlslab _ (Ne.symm hfull),hrecords,if_pos (by simp)]
  · rw [hislab _ (by simp) (Ne.symm hpart),hlslab _ (Ne.symm hpart),hrecords,if_pos (by simp)]
  · simp only [Grant.records,List.mem_cons,List.not_mem_nil,or_false,not_or] at hy
    rw [hislab y hy.1 hy.2.2.2,hlslab y hy.2.2.2,hrecords,if_neg]
    exact fun hor => hor.elim hy.1 fun hor => hor.elim hy.2.1 hy.2.2.1

/-- Releasing a list of one slab. -/
theorem slabDestroySlab_one (m : SlabMem) (cache : ℕ) {slab fuel : ℕ}
    (hnext : (m.slab slab).next=0) (hfuel : 1<fuel) :
    ∃ freed,slabDestroySlab m cache fuel slab=some freed := by
  obtain ⟨k,rfl⟩ : ∃ k,fuel=k+2 := ⟨fuel-2,by omega⟩
  simp only [slabDestroySlab,hnext,if_true,Option.bind_eq_bind,Option.bind_some]
  split
  · exact ⟨_,rfl⟩
  · split <;> exact ⟨_,rfl⟩

/-- A cache's neighbours are joined. The global pointer is not written. -/
structure Unlinked (m : SlabMem) (p : ℕ) (m' : SlabMem) : Prop where
  /-- The global pointer. -/
  caches : m'.caches=m.caches
  /-- Forward links. -/
  next : ∀ y,(m'.cache y).next=if y=(m.cache p).prev ∧ (m.cache p).prev≠0 then (m.cache p).next
    else (m.cache y).next
  /-- Backward links. -/
  prev : ∀ y,(m'.cache y).prev=if y=(m.cache p).next ∧ (m.cache p).next≠0 then (m.cache p).prev
    else (m.cache y).prev

/-- Destroying a cache with one slab. -/
theorem slabCacheDestroy_spec (hone : OneSlab m g) (hself : (m.cache g.cache).prev≠g.cache)
    (hfuel : 1<fuel) :
    ∃ m' freed,slabCacheDestroy m g.cache fuel=some (m',freed) ∧ m'.slab=m.slab ∧
      Unlinked m g.cache m' := by
  let joined := if (m.cache g.cache).prev≠0 then
    m.setCache (m.cache g.cache).prev fun c => {c with next := (m.cache g.cache).next} else m
  have hjoined : ∀ y,joined.cache y=if y=(m.cache g.cache).prev ∧ (m.cache g.cache).prev≠0 then
      {m.cache y with next := (m.cache g.cache).next} else m.cache y :=
    fun y => setCacheAt_cache m _ y _
  have hself' : joined.cache g.cache=m.cache g.cache := by
    rw [hjoined,if_neg fun hand => hself hand.1.symm]
  let m' := if (m.cache g.cache).next≠0 then
    joined.setCache (m.cache g.cache).next fun c => {c with prev := (m.cache g.cache).prev}
    else joined
  have hslab : m'.slab=m.slab := by
    simp only [m',joined]
    split <;> split <;> rfl
  have hone' : OneSlab m' g := hone.congr fun y _ => by rw [hslab]
  obtain ⟨freed,hfreed⟩ := slabDestroySlab_one m' g.cache hone'.last hfuel
  have hnone : slabDestroySlab m' g.cache fuel 0=some [] := by
    obtain ⟨k,rfl⟩ : ∃ k,fuel=k+1 := ⟨fuel-1,by omega⟩
    rfl
  refine ⟨m',freed++[]++[]++[g.cache],?_,hslab,?_,fun y => ?_,fun y => ?_⟩
  · simp only [slabCacheDestroy]
    change (slabDestroySlab (if (joined.cache g.cache).next≠0 then joined.setCache
      (joined.cache g.cache).next fun c => {c with prev := (joined.cache g.cache).prev}
      else joined) _ _ _ >>= _)=_
    rw [hself']
    change (slabDestroySlab m' g.cache fuel (m'.slab (slabsFree g.cache)).next).bind _=_
    rw [hone'.free,hfreed]
    change (slabDestroySlab m' g.cache fuel (m'.slab (slabsPartial g.cache)).next).bind _=_
    rw [hone'.part,hnone]
    change (slabDestroySlab m' g.cache fuel (m'.slab (slabsFull g.cache)).next).bind _=_
    rw [hone'.full,hnone]
    rfl
  · simp only [m',joined]
    split <;> split <;> rfl
  · rw [setCacheAt_cache,hjoined]
    split_ifs <;> rfl
  · rw [setCacheAt_cache,hjoined]
    split_ifs <;> rfl

/-! ## The list -/

/-- A new cache's slab is none of its list heads. -/
theorem Fresh.own {live : List Grant} (h : Fresh live g) :
    g.slab∉[slabsFree g.cache,slabsFull g.cache,slabsPartial g.cache] := by
  have hapart := h.2.2.1
  simp only [Apart,cacheSize] at hapart
  simp only [List.mem_cons,List.not_mem_nil,or_false,not_or,slabsFree,slabsFull,slabsPartial]
  refine ⟨?_,?_,?_⟩ <;> omega

/-- A new cache's records are none of the others'. -/
theorem Fresh.records {live : List Grant} (h : Fresh live g) (hlen : 0<g.slabLen) {g' : Grant}
    (hg' : g'∈live) (hlen' : 0<g'.slabLen) :
    g'.cache≠g.cache ∧ ∀ y∈g'.records,y∉g.records := by
  have hapart := h.2.2.2 g' hg'
  simp only [Grant.blocks,Apart,cacheSize,List.forall_mem_cons,List.not_mem_nil,false_imp_iff,
    implies_true,and_true] at hapart
  obtain ⟨⟨hcc,hcs⟩,hsc,hss⟩ := hapart
  simp only [Grant.records,List.mem_cons,List.not_mem_nil,or_false,not_or,slabsFree,slabsFull,
    slabsPartial]
  exact ⟨by omega,fun y hy => by omega⟩

/-- An existing cache is not null. -/
theorem Listed.ne_zero (h : Listed s order) (hp : p∈order) : p≠0 := by
  rintro rfl
  exact (List.nodup_cons.mp h.nodup).1 hp

/-- Forward links of caches. -/
theorem links_of_ne (m : SlabMem) (hp : p≠0) : links m p=(m.cache p).next :=
  Function.update_of_ne hp _ _

/-- The forward link behind the null pointer. -/
theorem links_zero (m : SlabMem) : links m 0=m.caches := Function.update_self _ _ _

/-- The first cache of the list. -/
theorem Listed.head (h : Listed s (p::order)) : s.mem.caches=p := by
  have hfirst := h.linked.path.1
  rwa [links_zero] at hfirst

/-- The global pointer leads to a cache of the list, if it is not null. -/
theorem Listed.caches_mem (h : Listed s order) (hsome : s.mem.caches≠0) : s.mem.caches∈order := by
  have hfirst := h.linked.path.next_mem List.mem_cons_self
  rw [links_zero] at hfirst
  exact hfirst.resolve_right hsome

/-- The records of every existing cache. -/
def Kept (s : Registry) : Prop := ∀ g∈s.live,OneSlab s.mem g ∧ 0<g.slabLen

/-- Creating a cache. -/
theorem Listed.create (h : Listed s order) (hkept : Kept s) (hfresh : Fresh s.live g)
    (hlen : 0<g.slabLen) (ht : t=⟨slabCacheCreateAlign s.mem size alignment g.cache g.slab
      g.slabData,g::s.live⟩) : Listed t (g.cache::order) ∧ Kept t := by
  have hcache : g.cache≠0 := hfresh.1
  have hout : g.cache∉order := by
    intro hmem
    obtain ⟨g',hg',heq⟩ := List.mem_map.mp ((h.live _).mp hmem)
    exact (hfresh.records hlen hg' (hkept g' hg').2).1 heq
  have hne : s.mem.caches≠g.cache := by
    intro heq
    exact hout (heq▸h.caches_mem (heq▸hcache))
  obtain ⟨hcaches,hnext,hprev,hone,hslab⟩ := slabCacheCreateAlign_spec (t:=t.mem) s.mem size
    alignment hfresh.own hne (by rw [ht])
  have hlive : t.live=g::s.live := by rw [ht]
  have hother : ∀ y∈order,y≠g.cache := fun y hy heq => hout (heq▸hy)
  refine ⟨⟨?_,?_,fun y => ?_⟩,fun g' hg' => ?_⟩
  · refine h.linked.insert h.nodup ?_ ?_ ?_ ?_ ?_ (fun y hy => ?_) (fun y hy hy' => ?_)
      (List.nodup_cons.mp h.nodup).1
    · exact fun hmem => (List.mem_cons.mp hmem).elim hcache hout
    · exact (links_zero _).trans hcaches
    · rw [links_of_ne _ hcache,links_zero,hnext,if_pos rfl]
    · simp only [hprev,if_true]
    · rw [links_zero]
      intro hsome
      exact (hprev _).trans ((if_neg hne).trans (if_pos ⟨rfl,hsome⟩))
    · rw [links_of_ne _ (h.ne_zero hy),links_of_ne _ (h.ne_zero hy),hnext,if_neg (hother y hy)]
    · rw [links_zero] at hy'
      simp only [hprev,if_neg (hother y hy),if_neg fun hand : y=s.mem.caches ∧ _ => hy' hand.1]
  · rw [List.nodup_cons,List.mem_cons,List.nodup_cons,not_or]
    obtain ⟨hzero,hnd⟩ := List.nodup_cons.mp h.nodup
    exact ⟨⟨hcache.symm,hzero⟩,hout,hnd⟩
  · rw [hlive,List.map_cons,List.mem_cons,List.mem_cons,h.live]
  · rw [hlive] at hg'
    rcases List.mem_cons.mp hg' with rfl|hg'
    · exact ⟨hone,hlen⟩
    · obtain ⟨hone',hlen'⟩ := hkept g' hg'
      have hrec := (hfresh.records hlen hg' hlen').2
      exact ⟨hone'.congr fun y hy => hslab y (hrec y hy),hlen'⟩

/-- The step that creates a cache. -/
theorem Listed.create_step (h : Listed s order) (hkept : Kept s)
    (hstep : step fuel s (.create size alignment g)=some t) :
    Listed t (g.cache::order) ∧ Kept t := by
  obtain ⟨⟨hfresh,hlen⟩,ht⟩ := Option.ite_none_right_eq_some.mp hstep
  refine h.create hkept hfresh ?_ (Option.some.inj ht).symm
  rw [hlen,slabLength]
  simp only [slabSize,chunkSize,SLAB_CAPACITY]
  split <;> omega

/-- A listed cache's backward link, and that it does not lead to itself. -/
theorem Listed.around {front back : List ℕ} (h : Listed s (front++p::back)) :
    (s.mem.cache p).prev=(0::front).getLast (by simp) ∧ (s.mem.cache p).prev≠p ∧
      (s.mem.cache p).next≠p := by
  have hprev := (back_concat.mp (back_append.mp h.linked.back).1).2
  have hback := (path_append.mp h.linked.path).2
  have hp : p≠0 := h.ne_zero (by simp)
  have hnd := List.nodup_cons.mp h.nodup
  refine ⟨hprev,fun hself => ?_,fun hself => ?_⟩
  · rw [hself] at hprev
    have hmem : p∈0::front := hprev▸List.getLast_mem _
    rcases List.mem_cons.mp hmem with hzero|hmem
    · exact hp hzero
    · exact (List.nodup_append'.mp hnd.2).2.2 hmem List.mem_cons_self
  · rcases hback.next_mem List.mem_cons_self with hmem|hend
    · rw [links_of_ne _ hp,hself] at hmem
      exact (List.nodup_cons.mp (List.nodup_append'.mp hnd.2).2.1).1 hmem
    · rw [links_of_ne _ hp,hself] at hend
      exact hp hend

/-- Destroying an existing cache leaves the others' slabs as they were. -/
theorem Listed.destroyed (h : Listed s order) (hkept : Kept s) (hfuel : 1<fuel)
    (hp : p∈s.live.map Grant.cache) :
    ∃ t,step fuel s (.destroy p)=some t ∧ Kept t ∧ Unlinked s.mem p t.mem ∧
      ∀ y,y∈t.live.map Grant.cache ↔ y∈s.live.map Grant.cache ∧ y≠p := by
  obtain ⟨front,back,rfl⟩ := List.append_of_mem ((h.live p).mpr hp)
  obtain ⟨g,hg,rfl⟩ := List.mem_map.mp hp
  obtain ⟨m',freed,hdestroy,hslab,hun⟩ :=
    slabCacheDestroy_spec (hkept g hg).1 h.around.2.1 hfuel
  refine ⟨⟨m',s.live.filter fun g' => g'.cache≠g.cache⟩,?_,fun g' hg' => ?_,hun,fun y => ?_⟩
  · rw [step,if_pos hp,hdestroy]
    rfl
  · obtain ⟨hone,hlen⟩ := hkept g' (List.mem_of_mem_filter hg')
    exact ⟨hone.congr fun y _ => by rw [hslab],hlen⟩
  · simp only [List.mem_map,List.mem_filter,decide_eq_true_iff]
    constructor
    · rintro ⟨g',⟨hg',hne⟩,rfl⟩
      exact ⟨⟨g',hg',rfl⟩,hne⟩
    · rintro ⟨⟨g',hg',rfl⟩,hne⟩
      exact ⟨g',⟨hg',hne⟩,rfl⟩

/-- Destroying a cache that is not the first. -/
theorem Listed.destroy_behind {front back : List ℕ} {q : ℕ} (h : Listed s (q::front++p::back))
    (hun : Unlinked s.mem p t.mem)
    (hlive : ∀ y,y∈t.live.map Grant.cache ↔ y∈s.live.map Grant.cache ∧ y≠p) :
    Listed t (q::front++back) := by
  obtain ⟨hlast,-,-⟩ := h.around
  have hp : p≠0 := h.ne_zero (by simp)
  obtain ⟨hzero,hnd⟩ := List.nodup_cons.mp h.nodup
  have hsome : (s.mem.cache p).prev≠0 := by
    have hmem : (s.mem.cache p).prev∈q::front := by
      rw [hlast,List.getLast_cons (by simp)]
      exact List.getLast_mem _
    rintro heq
    exact hzero (heq▸List.mem_append_left _ hmem)
  refine ⟨h.linked.remove h.nodup hzero ?_ (fun y hy => ?_) (fun hn => ?_) (fun y hy => ?_),?_,
    fun y => ?_⟩
  · rw [links_of_ne _ hsome,links_of_ne _ hp,hun.next,if_pos ⟨rfl,hsome⟩]
  · by_cases hy0 : y=0
    · rw [hy0,links_zero,links_zero,hun.caches]
    · rw [links_of_ne _ hy0,links_of_ne _ hy0,hun.next,if_neg fun hand => hy hand.1]
  · rw [links_of_ne _ hp] at hn ⊢
    exact (hun.prev _).trans (if_pos ⟨rfl,hn⟩)
  · rw [links_of_ne _ hp] at hy
    simp only [hun.prev,if_neg fun hand : y=(s.mem.cache p).next ∧ _ => hy hand.1]
  · refine List.nodup_cons.mpr ⟨fun hmem => hzero ?_,?_⟩
    · rcases List.mem_append.mp hmem with hmem|hmem
      · exact List.mem_append_left _ hmem
      · exact List.mem_append_right _ (List.mem_cons_of_mem p hmem)
    · exact hnd.sublist ((List.sublist_cons_self p back).append_left _)
  · rw [hlive,←h.live,List.mem_append,List.mem_append,List.mem_cons (a:=y) (b:=p)]
    obtain ⟨-,hback,hapart⟩ := List.nodup_append'.mp hnd
    constructor
    · rintro (hy|hy)
      · exact ⟨Or.inl hy,fun heq => hapart hy (heq▸List.mem_cons_self)⟩
      · refine ⟨Or.inr (Or.inr hy),fun heq => (List.nodup_cons.mp hback).1 (heq▸hy)⟩
    · rintro ⟨hy|heq|hy,hne⟩
      · exact Or.inl hy
      · exact absurd heq hne
      · exact Or.inr hy

/-! ## Searches -/

/-- A search meets caches of the list only. -/
theorem Listed.searched (h : Listed s order) (hs : Searched s.mem size p) : p∈order := by
  induction hs with
  | first hsome => exact h.caches_mem hsome
  | next _ _ hn ih =>
    have hnext := h.linked.path.next_mem (List.mem_cons_of_mem 0 ih)
    rw [links_of_ne _ (h.ne_zero ih)] at hnext
    exact hnext.resolve_right hn

/-- A search along a path ends. -/
theorem findCache_ends {xs : List ℕ} (h : Path (fun p => (m.cache p).next) p xs 0) :
    ∃ k r,findCache m size k p=some r := by
  induction xs generalizing p with
  | nil =>
    by_cases hend : p=0 ∨ (m.cache p).size=size
    · exact ⟨1,p,by rw [findCache,if_pos hend]⟩
    · refine ⟨2,0,?_⟩
      have hnext : (m.cache p).next=0 := h
      rw [findCache,if_neg hend,hnext,findCache,if_pos (Or.inl rfl)]
  | cons x xs ih =>
    obtain ⟨k,r,hk⟩ := ih h.2
    by_cases hend : p=0 ∨ (m.cache p).size=size
    · exact ⟨1,p,by rw [findCache,if_pos hend]⟩
    · refine ⟨k+1,r,?_⟩
      have hnext : (m.cache p).next=x := h.1
      rw [findCache,if_neg hend,hnext,hk]

/-- A search of the list ends. -/
theorem Listed.ends (h : Listed s order) (size : ℕ) :
    ∃ k r,findCache s.mem size k s.mem.caches=some r := by
  cases order with
  | nil =>
    have hend := h.linked.path
    refine ⟨1,s.mem.caches,?_⟩
    rw [findCache,if_pos (Or.inl ((links_zero _).symm.trans hend))]
  | cons x xs =>
    rw [h.head]
    refine findCache_ends (h.linked.path.2.congr fun y hy => ?_)
    exact (links_of_ne _ (h.ne_zero hy)).symm

/-- A correct list is what users of the registry rely on. -/
theorem Listed.registered (h : Listed s order) (hkept : Kept s) (hfuel : 1<fuel) :
    Registered fuel s := by
  refine ⟨⟨order,h⟩,fun size p hp => (h.live p).mp (h.searched hp),h.ends,fun p hp => ?_⟩
  obtain ⟨t,ht,-⟩ := h.destroyed hkept hfuel hp
  rw [step,if_pos hp] at ht
  obtain ⟨r,hr,-⟩ := Option.map_eq_some_iff.mp ht
  exact ⟨r,hr⟩

/-! ## Steps and runs -/

/-- From a correct list a step leads to a registry that its users can rely on
exactly when it does not destroy the first cache. -/
theorem registered_iff {op : Op} (h : Listed s order) (hkept : Kept s) (hfuel : 1<fuel)
    (hstep : step fuel s op=some t) :
    (Registered fuel t ↔ NotFirst s op t) ∧
      (NotFirst s op t → Kept t ∧ ∃ order',Listed t order') := by
  cases op with
  | create size alignment g =>
    obtain ⟨hlisted,hkept'⟩ := h.create_step hkept hstep
    refine ⟨iff_of_true (hlisted.registered hkept' hfuel) (by simp [NotFirst]),
      fun _ => ⟨hkept',_,hlisted⟩⟩
  | destroy p =>
    have hp : p∈s.live.map Grant.cache := (Option.ite_none_right_eq_some.mp hstep).1
    obtain ⟨t',ht',hkept',hun,hlive⟩ := h.destroyed hkept hfuel hp
    obtain rfl : t=t' := Option.some.inj (hstep.symm.trans ht')
    obtain ⟨front,back,rfl⟩ := List.append_of_mem ((h.live p).mpr hp)
    cases front with
    | nil =>
      -- the global pointer is left with the cache destroyed
      have hhead : s.mem.caches=p := h.head
      have hfirst : ¬NotFirst s (.destroy p) t := fun hnot => hnot p rfl hhead.symm
      refine ⟨iff_of_false (fun hreg => ?_) hfirst,fun hnot => absurd hnot hfirst⟩
      obtain ⟨order',hlisted⟩ := hreg.listed
      have hcaches : t.mem.caches=p := hun.caches.trans hhead
      have hmem := hlisted.caches_mem (hcaches▸h.ne_zero (by simp))
      rw [hcaches] at hmem
      exact ((hlive p).mp ((hlisted.live p).mp hmem)).2 rfl
    | cons q front =>
      have hlisted := h.destroy_behind hun hlive
      have hnot : NotFirst s (.destroy p) t := by
        intro cache heq
        obtain rfl := Op.destroy.inj heq
        rw [List.cons_append] at h
        rw [h.head]
        rintro rfl
        exact (List.nodup_cons.mp (List.nodup_cons.mp h.nodup).2).1 (by simp)
      exact ⟨iff_of_true (hlisted.registered hkept' hfuel) hnot,fun _ => ⟨hkept',_,hlisted⟩⟩

/-- Before any cache is created the list is empty. -/
theorem listed_boot (mem : SlabMem) : Listed (boot mem) [] ∧ Kept (boot mem) :=
  ⟨⟨⟨links_zero _,trivial⟩,List.nodup_singleton 0,fun _ => Iff.rfl⟩,by simp [Kept,boot]⟩

/-- Memory for the first cache of a sample run. -/
def firstGrant : Grant := ⟨0x1000,0x2000,636,0⟩

/-- Memory for the second one. -/
def secondGrant : Grant := ⟨0x3000,0x4000,892,0⟩

/-- Memory without records. -/
def emptyMem : SlabMem := ⟨fun _ => ⟨0,0,0,0,0⟩,fun _ => ⟨0,0,0,0,0⟩,fun _ => ⟨0,0,0,0⟩,0⟩

end XanaduOS.SlabRegistry
