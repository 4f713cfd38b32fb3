import Mathlib.Data.List.GetD
import Mathlib.Data.List.Sort
import XanaduOS.SlabRuns

/-!
# Slabs and objects by number

What an unaligned cache does is a matter of the numbers of its slabs, in the
order they were laid out, and of its chunks: addresses decide nothing. The
bookkeeping by numbers is a machine of its own, and every cache follows it
whatever the size of its objects and wherever its slabs lie.
-/

namespace XanaduOS.SlabNames

open Word32 SlabAllocator SlabRuns

/-- A cache by numbers. -/
structure Names where
  /-- Slabs laid out. -/
  count : ℕ
  /-- The three lists. -/
  lists : ListKind → List ℕ
  /-- Live objects by slab and chunk, the latest first. -/
  taken : List (ℕ×ℕ)

/-- Chunks of a slab without a live object. -/
def freeChunks (taken : List (ℕ×ℕ)) (slab : ℕ) : List ℕ :=
  (List.range SLAB_CAPACITY).filter fun i => (slab,i)∉taken

/-- Where an allocation takes its object. -/
def Names.next (n : Names) : ℕ×ℕ :=
  (chosen n.lists n.count,((freeChunks n.taken (chosen n.lists n.count)).head?).getD 0)

/-- Bookkeeping of an allocation. -/
def Names.alloc (n : Names) : Names :=
  {count := if n.lists .slabsPartial=[] ∧ n.lists .slabsFree=[] then n.count+1 else n.count
   lists := place (grownLists n.lists n.count) n.next.1
     (kindOf (freeChunks (n.next::n.taken) n.next.1).length)
   taken := n.next::n.taken}

/-- Bookkeeping of a release. -/
def Names.free (n : Names) (p : ℕ×ℕ) : Names :=
  {n with
   lists := place n.lists p.1 (kindOf (freeChunks (n.taken.erase p) p.1).length)
   taken := n.taken.erase p}

/-- A new cache by numbers. -/
def Names.first : Names := ⟨1,Function.update (fun _ => []) .slabsFree [0],[]⟩

/-- Address of a slab, by number. -/
def slabAt (slabs : List ℕ) (x : ℕ) : ℕ := slabs.reverse.getD x 0

/-- Address of an object, by number. -/
def objectAt (size : ℕ) (slabs : List ℕ) (p : ℕ×ℕ) : ℕ :=
  chunkAt size (slabAt slabs p.1) p.2+chunkSize

/-- Live objects by number. -/
structure LiveNamed (size : ℕ) (s : SlabSystem) (taken : List (ℕ×ℕ)) : Prop where
  /-- Slabs are laid out once. -/
  nodup : s.slabs.Nodup
  /-- Numbers are in range. -/
  bounds : ∀ p∈taken,p.1<s.slabs.length ∧ p.2<SLAB_CAPACITY
  /-- The objects. -/
  live : s.live=taken.map (objectAt size s.slabs)

/-- A cache that does what the bookkeeping says. -/
structure Named (cache size : ℕ) (s : SlabSystem) (n : Names) : Prop extends
    LiveNamed size s n.taken where
  /-- The slabs. -/
  count : s.slabs.length=n.count
  /-- Numbers in the lists are in range. -/
  listed : ∀ k,∀ x∈n.lists k,x<n.count
  /-- The lists. -/
  invariant : CacheInvariant cache size s fun k => (n.lists k).map (slabAt s.slabs)

variable {cache size : ℕ} {s : SlabSystem} {n : Names}

/-! ## Numbers of slabs -/

/-- Numbered slabs are slabs. -/
theorem slabAt_mem {slabs : List ℕ} {x : ℕ} (h : x<slabs.length) : slabAt slabs x∈slabs := by
  rw [slabAt,List.getD_eq_getElem _ _ (by rwa [List.length_reverse])]
  exact List.mem_reverse.mp (List.getElem_mem _)

/-- Slabs have one number. -/
theorem slabAt_inj {slabs : List ℕ} (hnd : slabs.Nodup) {x y : ℕ} (hx : x<slabs.length)
    (hy : y<slabs.length) (h : slabAt slabs x=slabAt slabs y) : x=y := by
  rw [slabAt,slabAt,List.getD_eq_getElem _ _ (by rwa [List.length_reverse]),
    List.getD_eq_getElem _ _ (by rwa [List.length_reverse])] at h
  exact (List.nodup_reverse.mpr hnd).getElem_inj_iff.mp h

/-- A new slab leaves the numbers of the others. -/
theorem slabAt_cons {slabs : List ℕ} (new : ℕ) {x : ℕ} (h : x<slabs.length) :
    slabAt (new::slabs) x=slabAt slabs x := by
  rw [slabAt,List.reverse_cons,List.getD_append _ _ _ _ (by rwa [List.length_reverse])]
  rfl

/-- A new slab has the next number. -/
theorem slabAt_length (slabs : List ℕ) (new : ℕ) : slabAt (new::slabs) slabs.length=new := by
  rw [slabAt,List.reverse_cons,List.getD_append_right _ _ _ _ (by rw [List.length_reverse]),
    List.length_reverse,Nat.sub_self]
  rfl

/-- Objects have one number. -/
theorem CacheInvariant.objectAt_inj {lists : ListKind → List ℕ}
    (h : CacheInvariant cache size s lists) (hnd : s.slabs.Nodup) {p q : ℕ×ℕ}
    (hp : p.1<s.slabs.length ∧ p.2<SLAB_CAPACITY) (hq : q.1<s.slabs.length ∧ q.2<SLAB_CAPACITY)
    (heq : objectAt size s.slabs p=objectAt size s.slabs q) : p=q := by
  obtain ⟨hslab,hi⟩ := h.object_unique (slabAt_mem hp.1) (slabAt_mem hq.1) hp.2 hq.2
    (Nat.add_right_cancel heq)
  exact Prod.ext (slabAt_inj hnd hp.1 hq.1 hslab) hi

/-! ## Free chunks -/

/-- Membership among free chunks. -/
theorem mem_freeChunks {taken : List (ℕ×ℕ)} {slab i : ℕ} :
    i∈freeChunks taken slab ↔ i<SLAB_CAPACITY ∧ (slab,i)∉taken := by
  simp [freeChunks]

/-- Free chunks are in order. -/
theorem freeChunks_increasing (taken : List (ℕ×ℕ)) (slab : ℕ) :
    (freeChunks taken slab).Pairwise (· < ·) :=
  List.pairwise_lt_range.filter _

/-- Addresses of objects belong to their numbers. -/
theorem mem_objects {lists : ListKind → List ℕ} (hinv : CacheInvariant cache size s lists)
    (hnd : s.slabs.Nodup) {taken : List (ℕ×ℕ)}
    (hbounds : ∀ p∈taken,p.1<s.slabs.length ∧ p.2<SLAB_CAPACITY) {x i : ℕ}
    (hx : x<s.slabs.length) (hi : i<SLAB_CAPACITY) :
    chunkAt size (slabAt s.slabs x) i+chunkSize∈taken.map (objectAt size s.slabs) ↔
      (x,i)∈taken := by
  rw [List.mem_map]
  constructor
  · rintro ⟨p,hp,heq⟩
    have hpx := CacheInvariant.objectAt_inj hinv hnd (hbounds p hp) (q:=(x,i)) ⟨hx,hi⟩ heq
    exact hpx▸hp
  · intro hp
    exact ⟨(x,i),hp,rfl⟩

/-- Objects are live when their numbers are taken. -/
theorem LiveNamed.mem_live {lists : ListKind → List ℕ} {taken : List (ℕ×ℕ)}
    (h : LiveNamed size s taken) (hinv : CacheInvariant cache size s lists) {x i : ℕ}
    (hx : x<s.slabs.length) (hi : i<SLAB_CAPACITY) :
    chunkAt size (slabAt s.slabs x) i+chunkSize∈s.live ↔ (x,i)∈taken := by
  rw [h.live]
  exact mem_objects hinv h.nodup h.bounds hx hi

/-- The chain of a slab visits its free chunks in order, and its counter is
their number. -/
theorem LiveNamed.chain {lists : ListKind → List ℕ} {taken : List (ℕ×ℕ)}
    (h : LiveNamed size s taken) (hinv : CacheInvariant cache size s lists) {x : ℕ}
    (hx : x<s.slabs.length) :
    FreeChain s.mem size s.live (slabAt s.slabs x)
      ((freeChunks taken x).map (chunkAt size (slabAt s.slabs x))) ∧
    (s.mem.slab (slabAt s.slabs x)).numFree=(freeChunks taken x).length := by
  obtain ⟨chain,hchain,hlen⟩ := (hinv.valid _ (slabAt_mem hx)).chain
  have hsorted : ((freeChunks taken x).map (chunkAt size (slabAt s.slabs x))).Pairwise (· < ·) :=
    List.pairwise_map.mpr ((freeChunks_increasing taken x).imp fun hlt => chunkAt_lt _ _ hlt)
  have hmem : ∀ c,c∈chain ↔ c∈(freeChunks taken x).map (chunkAt size (slabAt s.slabs x)) := by
    intro c
    rw [hchain.mem_iff,List.mem_map]
    constructor
    · rintro ⟨i,hi,rfl,hout⟩
      exact ⟨i,mem_freeChunks.mpr ⟨hi,fun htaken => hout ((h.mem_live hinv hx hi).mpr htaken)⟩,rfl⟩
    · rintro ⟨i,hfree,rfl⟩
      obtain ⟨hi,hout⟩ := mem_freeChunks.mp hfree
      exact ⟨i,hi,rfl,fun hlive => hout ((h.mem_live hinv hx hi).mp hlive)⟩
  have hperm := (List.perm_ext_iff_of_nodup (hchain.increasing.imp fun hlt => hlt.ne)
    (hsorted.imp fun hlt => hlt.ne)).mpr hmem
  have heq := hperm.eq_of_pairwise (fun a b _ _ hab hba => absurd hba (Nat.lt_asymm hab))
    hchain.increasing hsorted
  rw [heq,List.length_map] at hlen
  exact ⟨heq▸hchain,hlen⟩

/-- The first free object of a slab is that of its first free chunk. -/
theorem head_freeChunks {taken : List (ℕ×ℕ)} {live : List ℕ} {slab x i : ℕ}
    (hlive : ∀ j<SLAB_CAPACITY,chunkAt size slab j+chunkSize∈live ↔ (x,j)∈taken)
    (hfirst : FirstFree size live slab i) : ((freeChunks taken x).head?).getD 0=i := by
  have hi : i∈freeChunks taken x := mem_freeChunks.mpr
    ⟨hfirst.lt,fun htaken => hfirst.free ((hlive i hfirst.lt).mpr htaken)⟩
  cases hfree : freeChunks taken x with
  | nil =>
    rw [hfree] at hi
    exact absurd hi (List.not_mem_nil)
  | cons j rest =>
    have hinc := freeChunks_increasing taken x
    rw [hfree] at hi hinc
    rcases List.mem_cons.mp hi with rfl|hmem
    · rfl
    · have hlt := (List.pairwise_cons.mp hinc).1 i hmem
      obtain ⟨hjc,hout⟩ := mem_freeChunks.mp (hfree▸List.mem_cons_self : j∈freeChunks taken x)
      exact absurd ((hlive j hjc).mp (hfirst.first j hlt)) hout

/-! ## The lists under renaming -/

/-- Erasing commutes with a renaming that is injective at the element. -/
theorem map_erase_of_inj {α β : Type*} [BEq α] [LawfulBEq α] [BEq β] [LawfulBEq β]
    {f : α → β} {x : α}
    (l : List α) (h : ∀ y∈l,f y=f x → y=x) : (l.erase x).map f=(l.map f).erase (f x) := by
  induction l with
  | nil => rfl
  | cons y l ih =>
    by_cases hy : y=x
    · subst hy
      simp
    · have hf : f y≠f x := fun heq => hy (h y List.mem_cons_self heq)
      rw [List.erase_cons_tail (by simpa using hy),List.map_cons,List.map_cons,
        List.erase_cons_tail (by simpa using hf),ih fun z hz => h z (List.mem_cons_of_mem y hz)]

/-- Placing commutes with a renaming that is injective at the slab. -/
theorem place_map (f : ℕ → ℕ) (lists : ListKind → List ℕ) {x : ℕ}
    (h : ∀ k,∀ y∈lists k,f y=f x → y=x) (k : ListKind) :
    place (fun j => (lists j).map f) (f x) k=fun j => (place lists x k j).map f := by
  have hmem : f x∈(lists k).map f ↔ x∈lists k := by
    rw [List.mem_map]
    constructor
    · rintro ⟨y,hy,heq⟩
      exact h k y hy heq▸hy
    · intro hx
      exact ⟨x,hx,rfl⟩
  rw [place,place]
  by_cases hx : x∈lists k
  · rw [if_pos hx,if_pos (hmem.mpr hx)]
  · rw [if_neg hx,if_neg (mt hmem.mp hx)]
    funext j
    rw [moved,moved,←map_erase_of_inj (lists j) (h j)]
    split <;> rfl

/-- The slab chosen under a renaming. -/
theorem chosen_map (f : ℕ → ℕ) (lists : ListKind → List ℕ) (x : ℕ) :
    chosen (fun j => (lists j).map f) (f x)=f (chosen lists x) := by
  rw [chosen,chosen,←List.map_append,List.head?_map,Option.getD_map]

/-- The lists in front of an allocation under a renaming. -/
theorem grownLists_map (f : ℕ → ℕ) (lists : ListKind → List ℕ) (x : ℕ) :
    grownLists (fun j => (lists j).map f) (f x)=fun j => (grownLists lists x j).map f := by
  rw [grownLists,grownLists]
  simp only [List.map_eq_nil_iff]
  split
  · funext j
    by_cases hj : j=.slabsFree
    · subst hj
      rw [Function.update_self,Function.update_self,List.map_cons]
    · rw [Function.update_of_ne hj,Function.update_of_ne hj]
  · rfl

/-- A new slab matters only when it is needed. -/
theorem chosen_congr (lists : ListKind → List ℕ) {new new' : ℕ}
    (h : lists .slabsPartial=[] ∧ lists .slabsFree=[] → new=new') :
    chosen lists new=chosen lists new' ∧ grownLists lists new=grownLists lists new' := by
  by_cases hnone : lists .slabsPartial=[] ∧ lists .slabsFree=[]
  · rw [h hnone]
    exact ⟨rfl,rfl⟩
  · rw [grownLists,grownLists,if_neg hnone,if_neg hnone]
    refine ⟨?_,rfl⟩
    rw [chosen,chosen]
    cases happ : lists .slabsPartial++lists .slabsFree with
    | nil => exact absurd (List.append_eq_nil_iff.mp happ) hnone
    | cons y ys => rfl

/-- Members of the lists in front of an allocation. -/
theorem mem_grownLists {lists : ListKind → List ℕ} {new y : ℕ} {k : ListKind}
    (h : y∈grownLists lists new k) :
    y∈lists k ∨ (y=new ∧ lists .slabsPartial=[] ∧ lists .slabsFree=[]) := by
  rw [grownLists] at h
  split at h
  case isTrue hnone =>
    by_cases hk : k=.slabsFree
    · subst hk
      rw [Function.update_self] at h
      exact (List.mem_cons.mp h).symm.imp_right fun heq => ⟨heq,hnone⟩
    · rw [Function.update_of_ne hk] at h
      exact Or.inl h
  case isFalse => exact Or.inl h

/-- Numbers in the lists in front of an allocation are in range behind it. -/
theorem Names.alloc_range (hlisted : ∀ k,∀ x∈n.lists k,x<n.count) {k : ListKind} {y : ℕ}
    (h : y∈grownLists n.lists n.count k) : y<n.alloc.count := by
  rw [Names.alloc]
  rcases mem_grownLists h with hold|⟨rfl,hnone⟩
  · split
    · exact Nat.lt_succ_of_lt (hlisted k y hold)
    · exact hlisted k y hold
  · rw [if_pos hnone]
    exact Nat.lt_succ_self _

/-- The slab chosen is in the lists in front of the allocation. -/
theorem chosen_mem (lists : ListKind → List ℕ) (new : ℕ) :
    ∃ k,chosen lists new∈grownLists lists new k := by
  rw [chosen,grownLists]
  cases hpart : lists .slabsPartial with
  | cons y ys => exact ⟨.slabsPartial,by simp [hpart]⟩
  | nil =>
    cases hfree : lists .slabsFree with
    | cons y ys => exact ⟨.slabsFree,by simp [hfree]⟩
    | nil => exact ⟨.slabsFree,by simp⟩

/-- Members after placing. -/
theorem mem_of_mem_place {lists : ListKind → List ℕ} {x y : ℕ} {k j : ListKind}
    (h : y∈place lists x k j) : y=x ∨ y∈lists j := by
  rw [place] at h
  split at h
  · exact Or.inr h
  · rw [moved] at h
    split at h
    · exact (List.mem_cons.mp h).imp_right List.mem_of_mem_erase
    · exact Or.inr (List.mem_of_mem_erase h)

/-! ## Calls -/

/-- A new cache does what the bookkeeping says. -/
theorem Named.first (zeroed : SlabMem) (hnext : ∀ k,nextOf zeroed (listHead cache k)=0)
    (hrecord : (zeroed.cache cache).size=size ∧ (zeroed.cache cache).alignment=0) {newSlab : ℕ}
    (slabData : ℕ) (hword : slabBytes size<2^32) (hfresh : Fresh cache size [] newSlab) :
    Named cache size ⟨slabAllocSlabAlign zeroed cache 0 newSlab slabData,[newSlab],[]⟩
      Names.first := by
  have hinv := CacheInvariant.first hnext hrecord slabData hword hfresh
  refine ⟨⟨List.nodup_singleton _,by simp [Names.first],rfl⟩,rfl,fun k x hx => ?_,?_⟩
  · cases k <;> simp [Names.first] at hx ⊢
    exact hx
  · have hlists : (fun k => (Names.first.lists k).map (slabAt [newSlab]))=
        Function.update (fun _ => []) .slabsFree [newSlab] := by
      funext k
      cases k <;> rfl
    rw [hlists]
    exact hinv

/-- A slab with a live object is among the partial or the full ones. -/
theorem Named.listed_of_taken (h : Named cache size s n) {p : ℕ×ℕ} (hp : p∈n.taken) :
    ∃ k,k≠.slabsFree ∧ slabAt s.slabs p.1∈(n.lists k).map (slabAt s.slabs) := by
  obtain ⟨hx,hi⟩ := h.bounds p hp
  obtain ⟨-,hcount⟩ := h.toLiveNamed.chain h.invariant hx
  have hlt : (freeChunks n.taken p.1).length<SLAB_CAPACITY := by
    have hfilter : (freeChunks n.taken p.1).length<(List.range SLAB_CAPACITY).length :=
      List.length_filter_lt_length_iff_exists.mpr ⟨p.2,List.mem_range.mpr hi,by simpa using hp⟩
    rwa [List.length_range] at hfilter
  have hk := counts_kindOf hlt.le
  refine ⟨kindOf (freeChunks n.taken p.1).length,fun hfree => ?_,
    (h.invariant.mem_iff _ _).mpr ⟨slabAt_mem hx,hcount▸hk⟩⟩
  rw [hfree] at hk
  exact hlt.ne hk

/-- An allocation needs a slab when the bookkeeping says so. -/
theorem Named.needsSlab_iff (h : Named cache size s n) :
    NeedsSlab s.mem cache ↔ n.lists .slabsPartial=[] ∧ n.lists .slabsFree=[] := by
  rw [h.invariant.linked.needsSlab_iff,List.map_eq_nil_iff,List.map_eq_nil_iff]

/-- An allocation leaves the numbers of the slabs before it. -/
theorem slabAt_slabsAfter (s : SlabSystem) (cache newSlab : ℕ) {x : ℕ}
    (hx : x<s.slabs.length) : slabAt (slabsAfter s cache newSlab) x=slabAt s.slabs x := by
  rw [slabsAfter]
  split
  · exact slabAt_cons newSlab hx
  · rfl

/-- An allocation gives no slab back. -/
theorem length_le_slabsAfter (s : SlabSystem) (cache newSlab : ℕ) :
    s.slabs.length≤(slabsAfter s cache newSlab).length := by
  rw [slabsAfter]
  split
  · exact Nat.le_succ _
  · exact le_rfl

/-- A slab that is new differs from the slabs before it. -/
theorem slabsAfter_nodup {newSlab : ℕ} (hword : slabBytes size<2^32) (hnd : s.slabs.Nodup)
    (hfresh : NeedsSlab s.mem cache → Fresh cache size s.slabs newSlab) :
    (slabsAfter s cache newSlab).Nodup := by
  rw [slabsAfter]
  split
  case isTrue hneed =>
    refine List.nodup_cons.mpr ⟨fun hmem => ?_,hnd⟩
    have hoff := ((hfresh hneed).whole hword).2.2 newSlab hmem
    have hbytes := slabSize_lt size
    omega
  case isFalse => exact hnd

/-- The bookkeeping counts the slabs after an allocation. -/
theorem Named.count_alloc (h : Named cache size s n) (newSlab : ℕ) :
    (slabsAfter s cache newSlab).length=n.alloc.count := by
  have hneed := h.needsSlab_iff
  rw [slabsAfter,Names.alloc]
  by_cases hn : NeedsSlab s.mem cache
  · rw [if_pos hn,if_pos (hneed.mp hn),List.length_cons,h.count]
  · rw [if_neg hn,if_neg (mt hneed.mpr hn),h.count]

/-- An allocation does what the bookkeeping says. -/
theorem Named.alloc (h : Named cache size s n) (hcache : cache≠0) {newSlab : ℕ} (slabData : ℕ)
    (hfresh : NeedsSlab s.mem cache → Fresh cache size s.slabs newSlab) :
    ∃ m',slabAllocFromCache s.mem cache newSlab slabData=
        some (m',objectAt size (slabsAfter s cache newSlab) n.next) ∧
      (allocSlab s.mem cache newSlab slabData=slabAt (slabsAfter s cache newSlab) n.next.1 ∧
        nextFreeOf (grownMem s.mem cache newSlab slabData)
            (baseChunk (slabAt (slabsAfter s cache newSlab) n.next.1))=
          chunkAt size (slabAt (slabsAfter s cache newSlab) n.next.1) n.next.2) ∧
      (n.next.1<n.alloc.count ∧ n.next.2<SLAB_CAPACITY) ∧
      Named cache size ⟨m',slabsAfter s cache newSlab,
        objectAt size (slabsAfter s cache newSlab) n.next::s.live⟩ n.alloc := by
  set slabs := slabsAfter s cache newSlab with hslabs
  have hneed := h.needsSlab_iff
  have hcount : slabs.length=n.alloc.count := h.count_alloc newSlab
  have hsame : ∀ x<n.count,slabAt slabs x=slabAt s.slabs x :=
    fun x hx => slabAt_slabsAfter s cache newSlab (h.count▸hx)
  have hlists : (fun k => (n.lists k).map (slabAt s.slabs))=fun k => (n.lists k).map (slabAt slabs) := by
    funext k
    exact List.map_congr_left fun x hx => (hsame x (h.listed k x hx)).symm
  have hnodup : slabs.Nodup := slabsAfter_nodup h.invariant.word h.nodup hfresh
  have hnew : n.lists .slabsPartial=[] ∧ n.lists .slabsFree=[] → newSlab=slabAt slabs n.count := by
    intro hnone
    rw [hslabs,slabsAfter,if_pos (hneed.mpr hnone),←h.count,slabAt_length]
  have hinv₀ := h.invariant
  rw [hlists] at hinv₀
  obtain ⟨hchosen,hgrown⟩ := chosen_congr (fun k => (n.lists k).map (slabAt slabs))
    (fun hnone => hnew (hnone.imp List.map_eq_nil_iff.mp List.map_eq_nil_iff.mp))
  rw [chosen_map] at hchosen
  rw [grownLists_map] at hgrown
  obtain ⟨m',i,halloc,hfirst,hchunk,hinv⟩ := hinv₀.alloc hcache slabData hfresh
  rw [hchosen] at halloc hfirst hchunk hinv
  rw [hgrown,←hslabs] at hinv
  have hx : chosen n.lists n.count<slabs.length := by
    obtain ⟨k,hk⟩ := chosen_mem n.lists n.count
    exact hcount▸Names.alloc_range h.listed hk
  have hbounds : ∀ p∈n.taken,p.1<slabs.length ∧ p.2<SLAB_CAPACITY := by
    intro p hp
    obtain ⟨h1,h2⟩ := h.bounds p hp
    exact ⟨h1.trans_le (length_le_slabsAfter s cache newSlab),h2⟩
  have hlive : s.live=n.taken.map (objectAt size slabs) := by
    rw [h.live]
    refine List.map_congr_left fun p hp => ?_
    rw [objectAt,objectAt,hsame p.1 (h.count▸(h.bounds p hp).1)]
  have hi : n.next.2=i := by
    refine head_freeChunks (fun j hj => ?_) hfirst
    rw [hlive]
    exact mem_objects hinv hnodup hbounds hx hj
  have hnext : n.next=(chosen n.lists n.count,i) := Prod.ext rfl hi
  have hnamed : LiveNamed size ⟨m',slabs,objectAt size slabs n.next::s.live⟩ n.alloc.taken := by
    refine ⟨hnodup,fun p hp => ?_,?_⟩
    · rcases List.mem_cons.mp hp with rfl|hold
      · rw [hnext]
        exact ⟨hx,hfirst.lt⟩
      · exact hbounds p hold
    · rw [hlive]
      rfl
  rw [hnext] at hnamed ⊢
  refine ⟨m',halloc,hchunk,⟨hcount▸hx,hfirst.lt⟩,hnamed,hcount,fun k y hy => ?_,?_⟩
  · rcases mem_of_mem_place hy with rfl|hold
    · rw [hnext]
      exact hcount▸hx
    · exact Names.alloc_range h.listed hold
  · have hnum := (hnamed.chain hinv hx).2
    have hplace := place_map (slabAt slabs) (grownLists n.lists n.count)
      (x:=chosen n.lists n.count) (fun k y hy heq => slabAt_inj hnodup
        (hcount.symm▸Names.alloc_range h.listed hy) hx heq)
      (kindOf (freeChunks n.alloc.taken (chosen n.lists n.count)).length)
    simp only at hnum
    rw [hnum,hplace] at hinv
    simp only [Names.alloc,hnext]
    simp only [Names.alloc,hnext] at hinv
    exact hinv

/-- A release of a live object does what the bookkeeping says. -/
theorem Named.free (h : Named cache size s n) {p : ℕ×ℕ} (hp : p∈n.taken) {fuel : ℕ}
    (hfuel : SLAB_CAPACITY<fuel) :
    ∃ m',slabFree s.mem cache (objectAt size s.slabs p) fuel=some m' ∧
      Named cache size ⟨m',s.slabs,s.live.erase (objectAt size s.slabs p)⟩ (n.free p) := by
  obtain ⟨hx,hi⟩ := h.bounds p hp
  have hlive : objectAt size s.slabs p∈s.live := by
    rw [h.live]
    exact List.mem_map_of_mem hp
  obtain ⟨m',hfree,hinv⟩ := h.invariant.give (slabAt_mem hx) hi hlive hfuel
  have hnamed : LiveNamed size ⟨m',s.slabs,s.live.erase (objectAt size s.slabs p)⟩
      (n.taken.erase p) := by
    refine ⟨h.nodup,fun q hq => h.bounds q (List.mem_of_mem_erase hq),?_⟩
    rw [h.live]
    exact (map_erase_of_inj n.taken fun q hq heq =>
      CacheInvariant.objectAt_inj h.invariant h.nodup (h.bounds q hq) ⟨hx,hi⟩ heq).symm
  refine ⟨m',hfree,hnamed,h.count,fun k y hy => ?_,?_⟩
  · rcases mem_of_mem_place hy with rfl|hold
    · exact h.count▸hx
    · exact h.listed k y hold
  · have hnum := (hnamed.chain hinv hx).2
    have hplace := place_map (slabAt s.slabs) n.lists (x:=p.1)
      (fun k y hy heq => slabAt_inj h.nodup (h.count.symm▸h.listed k y hy) hx heq)
      (kindOf (freeChunks (n.taken.erase p) p.1).length)
    simp only at hnum
    rw [hnum,hplace] at hinv
    exact hinv

end XanaduOS.SlabNames
