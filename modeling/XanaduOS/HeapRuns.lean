import XanaduOS.HeapBlocks
import XanaduOS.Runs

/-!
# Runs of the kernel heap

Callers allocate, release what they hold and write to it. Live payloads lie
in blocks in use, one in each, so they share no byte with each other or with
a header that a search can reach. This is kept as long as a request is met
from a whole hole away from the heap's end and a released block is not on the
search chain already. The search chain itself is a cycle from the first
allocation on.
-/

namespace XanaduOS.HeapRuns

open Word32 HeapAllocator Chains Runs HeapBlocks

/-- An allocation held by a caller. -/
structure Alloc where
  /-- Address returned. -/
  addr : ℕ
  /-- Bytes requested. -/
  size : ℕ
  deriving DecidableEq

/-- The heap and what callers hold. -/
structure HeapSystem where
  /-- The heap. -/
  heap : Heap
  /-- Allocations not released yet. -/
  live : List Alloc

/-- What callers do. -/
inductive HeapOp
  /-- Request memory. -/
  | kmallocAlign (siz alignment : ℕ)
  /-- Release an allocation. -/
  | kfree (a : Alloc)
  /-- Write to memory that is held. -/
  | clientWrite

/-- Headers a walk from the first block can reach. -/
inductive Reachable (h : Heap) : ℕ → Prop
  /-- The first block. -/
  | base : Reachable h h.base
  /-- Through `next`. -/
  | next {b : ℕ} (hb : Reachable h b) (hn : nextOf h b≠0) : Reachable h (nextOf h b)
  /-- Through `nextHole`. -/
  | nextHole {b : ℕ} (hb : Reachable h b) (hn : holeOf h b≠0) : Reachable h (holeOf h b)

variable (mmapPages : Heap → ℕ → ℕ → Option (Heap×ℕ))

/-- One step. Loops run within any number of iterations that suffices. A write
leaves alone every record that shares no byte with a live payload; the contents
of a record that overlaps a header without being it are not tracked. -/
inductive Step : HeapSystem → HeapOp → HeapSystem → Prop
  /-- A request; an empty one holds nothing. -/
  | kmallocAlign {s : HeapSystem} {fuel siz alignment p : ℕ} {h : Heap}
      (call : kmallocAlign mmapPages fuel s.heap siz alignment=some (h,p)) :
      Step s (.kmallocAlign siz alignment) ⟨h,if siz=0 then s.live else ⟨p,siz⟩::s.live⟩
  /-- A release. -/
  | kfree {s : HeapSystem} {fuel : ℕ} {a : Alloc} {h : Heap} (held : a∈s.live)
      (call : kfree fuel s.heap a.addr=some h) : Step s (.kfree a) ⟨h,s.live.erase a⟩
  /-- A write. -/
  | clientWrite {s : HeapSystem} {mem : ℕ → BlockHeader}
      (frame : ∀ y,(∀ a∈s.live,y+headerSize≤a.addr ∨ a.addr+a.size≤y) →
        (∀ b,Reachable s.heap b → y≠b → y+headerSize≤b ∨ b+headerSize≤y) →
        mem y=s.heap.mem y) :
      Step s .clientWrite ⟨{s.heap with mem := mem},s.live⟩

/-- The system after `heap_init`. -/
def initial (mem : ℕ → BlockHeader) (heapBase mapLimit : ℕ) : HeapSystem :=
  ⟨heapInit mem heapBase mapLimit,[]⟩

/-- Live payloads share no byte with each other or with a reachable header. -/
structure HeapSafe (s : HeapSystem) : Prop where
  /-- Payloads are disjoint. -/
  payloads : s.live.Pairwise fun a b => a.addr+a.size≤b.addr ∨ b.addr+b.size≤a.addr
  /-- Payloads avoid headers. -/
  headers : ∀ a∈s.live,∀ b,Reachable s.heap b → a.addr+a.size≤b ∨ b+headerSize≤a.addr

/-- A request met from a block without wrap-around, without a split in the
middle of the heap and away from the heap's end. -/
structure Fits (h : Heap) (header siz alignment : ℕ) : Prop where
  /-- Rounding the size does not wrap. -/
  size : siz ≤ roundUp siz alignment
  /-- Rounding the payload address does not wrap. -/
  data : header+headerSize ≤ roundUp (getDataBase header) alignment
  /-- The bytes needed are a word. -/
  sum : roundUp siz alignment+(roundUp (getDataBase header) alignment-header)<2^32
  /-- A block with a successor is not split. -/
  whole : nextOf h header=0 ∨ ¬splits h header (roundUp siz alignment)
  /-- The block behind the payload keeps its distance from the heap's end. -/
  distant : (if nextOf h header=0 then
      roundUp (getDataBase header) alignment+roundUp siz alignment else nextOf h header)+
    MAP_CRITICAL_DIST≤h.endAddr

/-- Steps that meet no defect. Every request is empty or finds a block it fits.
Every pointer released has no header in front, or the header of a block behind
the first that the insertion walk does not find on the chain already. -/
def Guard (s : HeapSystem) : HeapOp → Prop
  | .kmallocAlign siz alignment => siz=0 ∨ ∀ fuel r,
      searchHole s.heap (roundUp siz (effectiveAlignment alignment))
        (effectiveAlignment alignment) fuel s.heap.base 0=some r →
      ∃ header,r=.found header ∧ Fits s.heap header siz (effectiveAlignment alignment)
  | .kfree a => (s.heap.mem (wsub a.addr headerSize)).magicNum≠BLOCK_HEADER_MAGIC_NUM ∨
      (Reachable s.heap (wsub a.addr headerSize) ∧ wsub a.addr headerSize≠s.heap.base ∧
        ∀ fuel pv,insertionPoint fuel s.heap (wsub a.addr headerSize)=some pv →
          holeOf s.heap pv≠wsub a.addr headerSize)
  | .clientWrite => True

/-! ## Payloads in busy blocks -/

/-- A payload behind a block's header and in front of the block's end. -/
def Inside (b n : ℕ) (a : Alloc) : Prop := b+headerSize≤a.addr ∧ a.addr+a.size≤n

/-- Payloads lie in busy blocks, one in each. -/
structure Carries (busy : ℕ → ℕ → Prop) (live : List Alloc) : Prop where
  /-- Every payload lies in a busy block. -/
  held : ∀ a∈live,∃ b n,busy b n ∧ Inside b n a
  /-- No block holds two. -/
  alone : live.Pairwise fun a a' => ∀ b n,busy b n → Inside b n a → ¬Inside b n a'

/-- Blocks that end before the next one starts. -/
def Gapped (busy : ℕ → ℕ → Prop) : Prop :=
  ∀ ⦃b n b' n'⦄,busy b n → busy b' n' → b<b' → n≤b'

variable {busy busy' : ℕ → ℕ → Prop} {live : List Alloc} {a : Alloc}

/-- A payload lies in one block only. -/
theorem Gapped.unique (hg : Gapped busy) {b n b' n' : ℕ} (hb : busy b n) (hb' : busy b' n')
    (ha : Inside b n a) (ha' : Inside b' n' a) : b=b' := by
  simp only [Inside,headerSize] at ha ha'
  rcases Nat.lt_trichotomy b b' with hlt|heq|hlt
  · have := hg hb hb' hlt
    omega
  · exact heq
  · have := hg hb' hb hlt
    omega

/-- A new payload in a new busy block. -/
theorem Carries.add (hc : Carries busy live) {s n : ℕ} (hg : Gapped busy')
    (hbusy : ∀ b e,busy' b e ↔ busy b e ∨ (b=s ∧ e=n)) (hnew : ∀ e,¬busy s e)
    (ha : Inside s n a) : Carries busy' (a::live) := by
  have hs : busy' s n := (hbusy s n).mpr (Or.inr ⟨rfl,rfl⟩)
  have hold : ∀ a'∈live,∀ b e,busy' b e → Inside b e a' → b≠s := by
    rintro a' ha' b e hb hin rfl
    obtain ⟨b₀,e₀,hb₀,hin₀⟩ := hc.held a' ha'
    obtain rfl := hg.unique hb ((hbusy _ _).mpr (Or.inl hb₀)) hin hin₀
    exact hnew e₀ hb₀
  constructor
  case held =>
    intro a' ha'
    rcases List.mem_cons.mp ha' with rfl|ha'
    · exact ⟨s,n,hs,ha⟩
    · obtain ⟨b,e,hb,hin⟩ := hc.held a' ha'
      exact ⟨b,e,(hbusy b e).mpr (Or.inl hb),hin⟩
  case alone =>
    refine List.pairwise_cons.mpr ⟨fun a' ha' b e hb hin hin' => ?_,?_⟩
    · exact hold a' ha' b e hb hin' (hg.unique hb hs hin ha)
    · refine hc.alone.imp_of_mem fun {a₁ a₂} h₁ _ halone b e hb hin => ?_
      rcases (hbusy b e).mp hb with hb|⟨rfl,-⟩
      · exact halone b e hb hin
      · exact absurd rfl (hold a₁ h₁ b e hb hin)

/-- A payload leaves with its block. -/
theorem Carries.remove (hc : Carries busy live) {s n : ℕ}
    (hbusy : ∀ b e,busy' b e ↔ busy b e ∧ b≠s) (hs : busy s n) (hmem : a∈live)
    (ha : Inside s n a) (hend : ∀ e,busy s e → e=n) : Carries busy' (live.erase a) := by
  have hapart := (List.perm_cons_erase hmem).pairwise_iff
    (fun {a₁ a₂} halone b e hb hin hin' => halone b e hb hin' hin) |>.mp hc.alone
  constructor
  case held =>
    intro a' ha'
    obtain ⟨b,e,hb,hin⟩ := hc.held a' (List.mem_of_mem_erase ha')
    refine ⟨b,e,(hbusy b e).mpr ⟨hb,?_⟩,hin⟩
    rintro rfl
    obtain rfl := hend e hb
    exact (List.pairwise_cons.mp hapart).1 a' ha' b e hs ha hin
  case alone =>
    refine (hc.alone.sublist List.erase_sublist).imp fun halone b e hb => ?_
    exact halone b e ((hbusy b e).mp hb).1

/-- Forgetting a payload. -/
theorem Carries.forget (hc : Carries busy live) (a : Alloc) : Carries busy (live.erase a) :=
  ⟨fun a' ha' => hc.held a' (List.mem_of_mem_erase ha'),hc.alone.sublist List.erase_sublist⟩

/-! ## The heap carries its payloads -/

variable {h : Heap} {rest holes : List ℕ} {mmapPages : Heap → ℕ → ℕ → Option (Heap×ℕ)}

/-- Blocks in use end before the next block starts. -/
theorem busy_le (hv : HeapValid h rest holes) {b n x : ℕ} (hb : Busy h rest b n)
    (hx : x∈h.base::rest) (hlt : b<x) : n≤x := by
  obtain ⟨hmem,-,rfl⟩ := hb
  exact (hv.next_le hmem hx hlt).2.2

/-- Blocks in use are gapped. -/
theorem busy_gapped (hv : HeapValid h rest holes) : Gapped (Busy h rest) :=
  fun _ _ _ _ hb hb' hlt => busy_le hv hb hb'.1 hlt

/-- Payloads avoid the headers of all blocks. -/
theorem Carries.clear (hv : HeapValid h rest holes) (hc : Carries (Busy h rest) live)
    (ha : a∈live) {x : ℕ} (hx : x∈h.base::rest) : a.addr+a.size≤x ∨ x+headerSize≤a.addr := by
  obtain ⟨b,n,hb,hin⟩ := hc.held a ha
  simp only [Inside,headerSize] at hin ⊢
  rcases Nat.lt_or_ge b x with hlt|hge
  · have := busy_le hv hb hx hlt
    omega
  · omega

/-- Reachable headers are those of the blocks. -/
theorem reachable_mem (hv : HeapValid h rest holes) {b : ℕ} (hb : Reachable h b) :
    b∈h.base::rest := by
  induction hb with
  | base => exact List.mem_cons_self
  | next _ hn ih => exact List.mem_cons_of_mem _ (hv.next_mem ih hn)
  | nextHole _ _ ih => exact List.mem_cons_of_mem _ (hv.hole_mem ih)

/-- Before the first allocation only the first header is reachable. -/
theorem reachable_fresh (hv : HeapFresh h) {b : ℕ} (hb : Reachable h b) : b=h.base := by
  induction hb with
  | base => rfl
  | next _ hn ih =>
    rw [ih,hv.next] at hn
    exact absurd rfl hn
  | nextHole _ hn ih =>
    rw [ih,hv.hole] at hn
    exact absurd rfl hn

/-- Before the first allocation. -/
def Fresh (s : HeapSystem) : Prop := HeapFresh s.heap ∧ s.live=[]

/-- From the first allocation on. -/
def Grown (s : HeapSystem) : Prop :=
  ∃ rest holes,HeapValid s.heap rest holes ∧ Carries (Busy s.heap rest) s.live

/-- The heap before the first allocation, or one that carries the payloads. -/
def SystemValid (s : HeapSystem) : Prop := Fresh s ∨ Grown s

/-- Payloads in blocks of their own are disjoint. -/
theorem SystemValid.heapSafe {s : HeapSystem} (hs : SystemValid s) : HeapSafe s := by
  rcases hs with ⟨-,hlive⟩|⟨rest,holes,hv,hc⟩
  · exact ⟨by simp [hlive],by simp [hlive]⟩
  · constructor
    case payloads =>
      refine hc.alone.imp_of_mem fun {a a'} ha ha' halone => ?_
      obtain ⟨b,n,hb,hin⟩ := hc.held a ha
      obtain ⟨b',n',hb',hin'⟩ := hc.held a' ha'
      have hne : b≠b' := by
        rintro rfl
        obtain rfl : n=n' := hb.2.2.symm.trans hb'.2.2
        exact halone b n hb hin hin'
      simp only [Inside] at hin hin'
      rcases Nat.lt_or_gt_of_ne hne with hlt|hlt
      · have := busy_gapped hv hb hb' hlt
        omega
      · have := busy_gapped hv hb' hb hlt
        omega
    case headers =>
      exact fun a ha b hb => hc.clear hv ha (reachable_mem hv hb)

/-! ## Requests -/

/-- The search returns a free block with room from any set of blocks that the
search links do not leave. -/
theorem searchHole_found (blocks : ℕ → Prop) {size alignment fuel header last s : ℕ}
    (hlinks : ∀ b,blocks b → holeOf h b≠0 → blocks (holeOf h b))
    (hheader : header≠0 → blocks header)
    (hf : searchHole h size alignment fuel header last=some (.found s)) :
    blocks s ∧ (h.mem s).isHole=true ∧
      wadd size (wsub (roundUp (getDataBase s) alignment) s)≤(h.mem s).size := by
  induction fuel generalizing header last with
  | zero => simp [searchHole] at hf
  | succ fuel ih =>
    simp only [searchHole] at hf
    split at hf
    · simp at hf
    case isFalse h0 =>
      split at hf
      case isTrue hfit =>
        obtain rfl : header=s := by simpa using hf
        exact ⟨hheader h0,hfit⟩
      case isFalse => exact ih (hlinks header (hheader h0)) hf

/-- Successor of a block after an allocation from it. -/
theorem takeBlock_next {s size dataBase : ℕ} (hw : nextOf h s=0 ∨ ¬splits h s size) :
    nextOf (takeBlock h s size dataBase) s=
      if nextOf h s=0 then wadd dataBase size else nextOf h s := by
  by_cases hn : nextOf h s=0
  · have hsplit : splits h s size := Or.inl hn
    rw [if_pos hn]
    simp [takeBlock,if_pos hsplit,splitBlock,nextOf,set_mem]
  · have hsplit := hw.resolve_left hn
    rw [if_neg hn]
    simp [takeBlock,if_neg hsplit,nextOf,set_mem]

/-- A request that fits is met without growing the heap. -/
theorem kmallocAlign_eq {fuel siz alignment p : ℕ} {h' : Heap} (hword : h.endAddr<2^32)
    (hsiz : siz≠0)
    (hg : ∀ fuel r,searchHole h (roundUp siz (effectiveAlignment alignment))
        (effectiveAlignment alignment) fuel h.base 0=some r →
      ∃ header,r=.found header ∧ Fits h header siz (effectiveAlignment alignment))
    (call : kmallocAlign mmapPages fuel h siz alignment=some (h',p)) :
    ∃ s,searchHole h (roundUp siz (effectiveAlignment alignment))
        (effectiveAlignment alignment) fuel h.base 0=some (.found s) ∧
      Fits h s siz (effectiveAlignment alignment) ∧
      p=roundUp (getDataBase s) (effectiveAlignment alignment) ∧
      h'=takeBlock h s (roundUp siz (effectiveAlignment alignment)) p := by
  simp only [kmallocAlign,if_neg hsiz] at call
  obtain ⟨r,hr,call⟩ := Option.bind_eq_some_iff.mp call
  obtain ⟨s,rfl,hfit⟩ := hg fuel r hr
  have hdistant := hfit.distant
  have hnear : ¬wsub h.endAddr MAP_CRITICAL_DIST <
      nextOf (takeBlock h s (roundUp siz (effectiveAlignment alignment))
        (roundUp (getDataBase s) (effectiveAlignment alignment))) s := by
    simp only [MAP_CRITICAL_DIST] at hdistant ⊢
    rw [takeBlock_next hfit.whole,wsub_eq (by omega) hword]
    by_cases hn : nextOf h s=0
    · rw [if_pos hn] at hdistant ⊢
      rw [wadd_eq (by omega)]
      omega
    · rw [if_neg hn] at hdistant ⊢
      omega
  simp only [nextOf] at hnear
  simp only [doAlloc,(takeBlock_limits ..).2,if_neg hnear] at call
  obtain ⟨rfl,rfl⟩ := Prod.mk.inj (Option.some.inj call)
  exact ⟨s,hr,hfit,rfl,rfl⟩

/-- An empty request changes nothing. -/
theorem kmallocAlign_zero {fuel alignment p : ℕ} {h' : Heap}
    (call : kmallocAlign mmapPages fuel h 0 alignment=some (h',p)) : h'=h := by
  simp only [kmallocAlign,if_true] at call
  exact (Prod.mk.inj (Option.some.inj call)).1.symm

/-- The first request is met from the first block. -/
theorem HeapFresh.chosen (hv : HeapFresh h) {fuel siz alignment p : ℕ} {h' : Heap} (hsiz : siz≠0)
    (hg : ∀ fuel r,searchHole h (roundUp siz (effectiveAlignment alignment))
        (effectiveAlignment alignment) fuel h.base 0=some r →
      ∃ header,r=.found header ∧ Fits h header siz (effectiveAlignment alignment))
    (call : kmallocAlign mmapPages fuel h siz alignment=some (h',p)) :
    searchHole h (roundUp siz (effectiveAlignment alignment))
        (effectiveAlignment alignment) fuel h.base 0=some (.found h.base) ∧
      Fits h h.base siz (effectiveAlignment alignment) ∧
      p=roundUp (getDataBase h.base) (effectiveAlignment alignment) ∧
      h'=takeBlock h h.base (roundUp siz (effectiveAlignment alignment)) p ∧
      p+roundUp siz (effectiveAlignment alignment)+headerSize≤h.endAddr := by
  obtain ⟨b,hb,hfit,rfl,rfl⟩ := kmallocAlign_eq hv.word hsiz hg call
  obtain ⟨rfl,-,-⟩ := searchHole_found (fun b => b=h.base)
    (by rintro b rfl hb; exact absurd hv.hole hb) (fun _ => rfl) hb
  have hdistant := hfit.distant
  rw [if_pos hv.next] at hdistant
  refine ⟨hb,hfit,rfl,rfl,?_⟩
  simp only [MAP_CRITICAL_DIST,headerSize] at hdistant ⊢
  omega

/-- Later requests are met from a free block behind the first. -/
theorem HeapValid.chosen (hv : HeapValid h rest holes) {fuel siz alignment p : ℕ} {h' : Heap}
    (hsiz : siz≠0)
    (hg : ∀ fuel r,searchHole h (roundUp siz (effectiveAlignment alignment))
        (effectiveAlignment alignment) fuel h.base 0=some r →
      ∃ header,r=.found header ∧ Fits h header siz (effectiveAlignment alignment))
    (call : kmallocAlign mmapPages fuel h siz alignment=some (h',p)) :
    ∃ b∈rest,(h.mem b).isHole=true ∧
      searchHole h (roundUp siz (effectiveAlignment alignment))
        (effectiveAlignment alignment) fuel h.base 0=some (.found b) ∧
      Fits h b siz (effectiveAlignment alignment) ∧
      roundUp siz (effectiveAlignment alignment)+(p-b)≤(h.mem b).size ∧
      p=roundUp (getDataBase b) (effectiveAlignment alignment) ∧
      h'=takeBlock h b (roundUp siz (effectiveAlignment alignment)) p ∧
      (nextOf h b=0 → p+roundUp siz (effectiveAlignment alignment)+headerSize≤h.endAddr) := by
  obtain ⟨b,hb,hfit,rfl,rfl⟩ := kmallocAlign_eq hv.word hsiz hg call
  obtain ⟨hmem,hfree,hroom⟩ := searchHole_found (fun b => b∈h.base::rest)
    (fun b hb _ => List.mem_cons_of_mem _ (hv.hole_mem hb))
    (fun _ => List.mem_cons_self) hb
  have hbrest : b∈rest := by
    refine (List.mem_cons.mp hmem).resolve_left ?_
    rintro rfl
    rw [hv.baseUsed] at hfree
    contradiction
  have hdata := hfit.data
  simp only [headerSize] at hdata
  have hle : b ≤ roundUp (getDataBase b) (effectiveAlignment alignment) := by omega
  rw [wsub_eq hle (roundUp_lt _ _),wadd_eq hfit.sum] at hroom
  refine ⟨b,hbrest,hfree,hb,hfit,hroom,rfl,rfl,fun h0 => ?_⟩
  have hdistant := hfit.distant
  rw [if_pos h0] at hdistant
  simp only [MAP_CRITICAL_DIST,headerSize] at hdistant ⊢
  omega

/-- Other requests hold a payload in a block of its own. -/
theorem SystemValid.kmallocAlign {s : HeapSystem} (hs : SystemValid s) {fuel siz alignment p : ℕ}
    {h' : Heap} (hsiz : siz≠0) (hg : Guard s (.kmallocAlign siz alignment))
    (call : kmallocAlign mmapPages fuel s.heap siz alignment=some (h',p)) :
    Grown ⟨h',⟨p,siz⟩::s.live⟩ := by
  have hgfit := hg.resolve_left hsiz
  rcases hs with ⟨hv,hlive⟩|⟨rest,holes,hv,hc⟩
  · obtain ⟨-,hfit,rfl,rfl,hend⟩ := HeapFresh.chosen hv hsiz hgfit call
    obtain ⟨hv',hbusy⟩ := hv.allocate hfit.data rfl hend
    refine ⟨_,_,hv',?_⟩
    rw [hlive]
    have hempty : Carries (fun _ _ => False) [] := ⟨by simp,List.Pairwise.nil⟩
    refine hempty.add (busy_gapped hv') (fun b e => ?_) (fun _ => id)
      ⟨hfit.data,Nat.add_le_add_left hfit.size _⟩
    rw [hbusy,false_or]
  · obtain ⟨b,hb,hfree,-,hfit,hroom,rfl,rfl,hend⟩ := HeapValid.chosen hv hsiz hgfit call
    obtain ⟨rest',holes',n,hv',hbusy,hn⟩ := hv.serve hb hfree hfit.data hroom hfit.whole hend
    refine ⟨rest',holes',hv',hc.add (busy_gapped hv') hbusy ?_
      ⟨hfit.data,(Nat.add_le_add_left hfit.size _).trans hn⟩⟩
    rintro e ⟨-,hused,-⟩
    rw [hfree] at hused
    contradiction

/-! ## Releases and writes -/

/-- A pointer without a header in front is ignored. -/
theorem kfree_of_magic {fuel addr : ℕ} {h' : Heap}
    (hm : (h.mem (wsub addr headerSize)).magicNum≠BLOCK_HEADER_MAGIC_NUM)
    (call : kfree fuel h addr=some h') : h'=h := by
  unfold HeapAllocator.kfree at call
  simp only [if_pos hm] at call
  split at call
  · exact (Option.some.inj call).symm
  split at call
  · exact (Option.some.inj call).symm
  · exact (Option.some.inj call).symm

/-- A live payload whose address has a block's header in front is the one of
that block. -/
theorem Carries.header (hv : HeapValid h rest holes) (hc : Carries (Busy h rest) live)
    (ha : a∈live) (hmem : wsub a.addr headerSize∈rest) :
    ∃ n,Busy h rest (wsub a.addr headerSize) n ∧ Inside (wsub a.addr headerSize) n a ∧
      a.addr≤h.endAddr ∧ wsub a.addr headerSize+headerSize=a.addr := by
  obtain ⟨b,n,hb,hin⟩ := hc.held a ha
  have hin' := hin
  simp only [Inside,headerSize] at hin'
  have hbn := hv.inside hb.1
  have hroom := hv.room b hb.1
  have hword := hv.word
  have hn0 : nextOf h b≠0 := by
    rw [hb.2.2]
    omega
  have hnmem := hv.next_mem hb.1 hn0
  have hnend := hv.inside (List.mem_cons_of_mem _ hnmem)
  rw [hb.2.2] at hnend
  have haddr : wsub a.addr headerSize=a.addr-32 := wsub_eq (show 32≤a.addr by omega) (by omega)
  have heq : wsub a.addr headerSize=b := by
    rw [haddr] at hmem ⊢
    by_contra hne'
    have := busy_le hv hb (List.mem_cons_of_mem _ hmem) (by omega)
    omega
  refine ⟨n,heq.symm▸hb,heq.symm▸hin,by omega,?_⟩
  rw [haddr]
  exact Nat.sub_add_cancel (by omega)

/-- Releases keep payloads in blocks of their own. -/
theorem SystemValid.kfree {s : HeapSystem} (hs : SystemValid s) {fuel : ℕ} {h' : Heap}
    (hg : Guard s (.kfree a)) (ha : a∈s.live) (call : kfree fuel s.heap a.addr=some h') :
    Grown ⟨h',s.live.erase a⟩ := by
  rcases hs with ⟨-,hlive⟩|⟨rest,holes,hv,hc⟩
  · simp [hlive] at ha
  · rcases hg with hm|⟨hreach,hbase,hne⟩
    · obtain rfl := kfree_of_magic hm call
      exact ⟨rest,holes,hv,hc.forget a⟩
    · have hmem : wsub a.addr headerSize∈rest :=
        (List.mem_cons.mp (reachable_mem hv hreach)).resolve_left hbase
      obtain ⟨n,hb,hin,-,-⟩ := hc.header hv ha hmem
      rcases hv.kfree rfl hmem hb.2.1 hne call with rfl|⟨rest₁,holes₁,hv₁,hbusy⟩
      · exact ⟨rest,holes,hv,hc.forget a⟩
      · refine ⟨rest₁,holes₁,hv₁,hc.remove hbusy hb ha hin ?_⟩
        exact fun e he => he.2.2.symm.trans hb.2.2

/-- Writes before the first allocation. -/
theorem Fresh.clientWrite {s : HeapSystem} (hs : Fresh s) {mem : ℕ → BlockHeader}
    (frame : ∀ y,(∀ a∈s.live,y+headerSize≤a.addr ∨ a.addr+a.size≤y) →
      (∀ b,Reachable s.heap b → y≠b → y+headerSize≤b ∨ b+headerSize≤y) →
      mem y=s.heap.mem y) : Fresh ⟨{s.heap with mem := mem},s.live⟩ := by
  obtain ⟨hv,hlive⟩ := hs
  have hbase : mem s.heap.base=s.heap.mem s.heap.base :=
    frame _ (by simp [hlive]) fun b hb hne => absurd (reachable_fresh hv hb).symm hne
  refine ⟨⟨?_,?_,?_,?_,?_,hv.word⟩,hlive⟩
  all_goals simp only [nextOf,holeOf,hbase]
  exacts [hv.free,hv.next,hv.hole,hv.size,hv.header]

/-- Writes keep the headers of the blocks. -/
theorem clientWrite_keeps {s : HeapSystem} (hv : HeapValid s.heap rest holes)
    (hc : Carries (Busy s.heap rest) s.live) {mem : ℕ → BlockHeader}
    (frame : ∀ y,(∀ a∈s.live,y+headerSize≤a.addr ∨ a.addr+a.size≤y) →
      (∀ b,Reachable s.heap b → y≠b → y+headerSize≤b ∨ b+headerSize≤y) →
      mem y=s.heap.mem y) : ∀ b∈s.heap.base::rest,mem b=s.heap.mem b := fun b hb =>
  frame b (fun _ ha => (hc.clear hv ha hb).symm) fun _ hx hne =>
    hv.disjoint (reachable_mem hv hx) hb hne

/-- Writes to held memory. -/
theorem Grown.clientWrite {s : HeapSystem} (hs : Grown s) {mem : ℕ → BlockHeader}
    (frame : ∀ y,(∀ a∈s.live,y+headerSize≤a.addr ∨ a.addr+a.size≤y) →
      (∀ b,Reachable s.heap b → y≠b → y+headerSize≤b ∨ b+headerSize≤y) →
      mem y=s.heap.mem y) : Grown ⟨{s.heap with mem := mem},s.live⟩ := by
  obtain ⟨rest,holes,hv,hc⟩ := hs
  have hkeep := clientWrite_keeps hv hc frame
  have hback : ∀ b∈rest,BackLink {s.heap with mem := mem} (s.heap.base::rest) b := by
    intro b hb
    have hold := hv.back b hb
    simp only [BackLink,prevOf,nextOf] at hold ⊢
    rw [hkeep b (List.mem_cons_of_mem _ hb)]
    rcases hold with ⟨hmem,hnext⟩|hstale
    · exact Or.inl ⟨hmem,by rw [hkeep _ hmem]; exact hnext⟩
    · exact Or.inr hstale
  have hv' : HeapValid {s.heap with mem := mem} rest holes := by
    refine hv.congr rfl rfl (fun b hb => ?_) hback
    simp only [nextOf,holeOf,hkeep b hb]
    trivial
  have hbusy : Busy {s.heap with mem := mem} rest=Busy s.heap rest := by
    funext b e
    refine propext (and_congr_right fun hb => ?_)
    change (mem b).isHole=false ∧ (mem b).next=e ↔ _
    rw [hkeep b hb]
    rfl
  exact ⟨rest,holes,hv',hbusy.symm▸hc⟩

/-! ## Whole runs -/

/-- Steps that request no memory. -/
def Idle : HeapOp → Prop
  | .kmallocAlign siz _ => siz=0
  | .kfree _ => True
  | .clientWrite => True

/-- Steps that request no memory leave the heap fresh. -/
theorem Fresh.step {s t : HeapSystem} {op : HeapOp} (hs : Fresh s) (he : Idle op)
    (hstep : Step mmapPages s op t) : Fresh t := by
  cases hstep with
  | kmallocAlign call =>
    obtain rfl : _=0 := he
    rw [kmallocAlign_zero call,if_pos rfl]
    exact hs
  | kfree held call => simp [hs.2] at held
  | clientWrite frame => exact hs.clientWrite frame

/-- Steps that meet no defect keep a grown heap, and the first request grows a
fresh one. -/
theorem SystemValid.grown {s t : HeapSystem} {op : HeapOp} (hs : SystemValid s)
    (hor : Grown s ∨ ¬Idle op) (hg : Guard s op) (hstep : Step mmapPages s op t) : Grown t := by
  cases hstep with
  | @kmallocAlign _ siz _ _ _ call =>
    by_cases hsiz : siz=0
    · subst hsiz
      rw [kmallocAlign_zero call,if_pos rfl]
      exact hor.resolve_right fun hne => hne rfl
    · rw [if_neg hsiz]
      exact hs.kmallocAlign hsiz hg call
  | kfree held call => exact hs.kfree hg held call
  | clientWrite frame => exact (hor.resolve_right fun hne => hne trivial).clientWrite frame

/-- Steps that meet no defect keep the system valid. -/
theorem SystemValid.step {s t : HeapSystem} {op : HeapOp} (hs : SystemValid s)
    (hg : Guard s op) (hstep : Step mmapPages s op t) : SystemValid t := by
  by_cases hor : Grown s ∨ ¬Idle op
  · exact Or.inr (hs.grown hor hg hstep)
  · rw [not_or,not_not] at hor
    exact Or.inl ((hs.resolve_right hor.1).step hor.2 hstep)

/-- The heap starts out fresh. -/
theorem heapInit_fresh (mem : ℕ → BlockHeader) {heapBase mapLimit : ℕ}
    (hsize : heapBase+headerSize ≤ mapLimit) (hword : mapLimit<2^32) :
    HeapFresh (heapInit mem heapBase mapLimit) := by
  simp only [headerSize] at hsize
  have hsub : wsub mapLimit heapBase=mapLimit-heapBase := wsub_eq (by omega) hword
  refine ⟨?_,?_,?_,?_,?_,hword⟩
  all_goals simp only [heapInit,nextOf,holeOf,Function.update_self,hsub,headerSize]
  all_goals omega

/-- After `heap_init` the system is fresh. -/
theorem initial_fresh (mem : ℕ → BlockHeader) {heapBase mapLimit : ℕ}
    (hsize : heapBase+headerSize ≤ mapLimit) (hword : mapLimit<2^32) :
    Fresh (initial mem heapBase mapLimit) := ⟨heapInit_fresh mem hsize hword,rfl⟩

/-- In every run whose steps all meet the condition, live payloads share no
byte with each other or with a reachable header. -/
theorem run_heapSafe {mem : ℕ → BlockHeader} {heapBase mapLimit : ℕ}
    (hsize : heapBase+headerSize ≤ mapLimit) (hword : mapLimit<2^32) {ops : List HeapOp}
    {t : HeapSystem}
    (hrun : Run (Guarded (Step mmapPages) Guard) (initial mem heapBase mapLimit) ops t) :
    HeapSafe t := by
  refine SystemValid.heapSafe (Run.guarded_invariant ?_ hrun ?_)
  · exact fun hs hg hstep => hs.step hg hstep
  · exact Or.inl (initial_fresh mem hsize hword)

/-! ## Runs that can be computed -/

/-- One step with a bound on loop iterations; a write changes nothing. -/
def exec (mmapPages : Heap → ℕ → ℕ → Option (Heap×ℕ)) (fuel : ℕ) (s : HeapSystem) :
    HeapOp → Option HeapSystem
  | .kmallocAlign siz alignment =>
    (kmallocAlign mmapPages fuel s.heap siz alignment).map fun r =>
      ⟨r.1,if siz=0 then s.live else ⟨r.2,siz⟩::s.live⟩
  | .kfree a =>
    if a∈s.live then (kfree fuel s.heap a.addr).map fun h => ⟨h,s.live.erase a⟩ else none
  | .clientWrite => some s

/-- A computed step is a step. -/
theorem exec_step {fuel : ℕ} {s t : HeapSystem} {op : HeapOp}
    (h : exec mmapPages fuel s op=some t) : Step mmapPages s op t := by
  cases op with
  | kmallocAlign siz alignment =>
    obtain ⟨⟨h',p⟩,hcall,rfl⟩ := Option.map_eq_some_iff.mp h
    exact Step.kmallocAlign hcall
  | kfree a =>
    simp only [exec] at h
    split at h
    case isTrue ha =>
      obtain ⟨h',hcall,rfl⟩ := Option.map_eq_some_iff.mp h
      exact Step.kfree ha hcall
    case isFalse => contradiction
  | clientWrite =>
    obtain rfl : s=t := Option.some.inj h
    exact Step.clientWrite fun y _ _ => rfl

/-- A computed run is a run. -/
theorem exec_run {fuel : ℕ} {s t : HeapSystem} {ops : List HeapOp}
    (h : ops.foldlM (exec mmapPages fuel) s=some t) : Run (Step mmapPages) s ops t :=
  (Run.of_foldlM h).mono exec_step

/-- The search has one result, however long it may run. -/
theorem searchHole_unique {size alignment fuel fuel' header last : ℕ} {r r' : SearchResult}
    (hr : searchHole h size alignment fuel header last=some r)
    (hr' : searchHole h size alignment fuel' header last=some r') : r=r' := by
  induction fuel generalizing fuel' header last with
  | zero => simp [searchHole] at hr
  | succ fuel ih =>
    cases fuel' with
    | zero => simp [searchHole] at hr'
    | succ fuel' =>
      simp only [searchHole] at hr hr'
      split at hr
      case isTrue h0 =>
        rw [if_pos h0] at hr'
        exact Option.some.inj (hr.symm.trans hr')
      case isFalse h0 =>
        rw [if_neg h0] at hr'
        split at hr
        case isTrue hfit =>
          rw [if_pos hfit] at hr'
          exact Option.some.inj (hr.symm.trans hr')
        case isFalse hfit =>
          rw [if_neg hfit] at hr'
          exact ih hr hr'

/-- Memory of zero bytes. -/
def zeroMem (_ : ℕ) : BlockHeader := ⟨0,0,0,0,0,false⟩

/-- A page mapper with no memory left. -/
def noPages (_ : Heap) (_ _ : ℕ) : Option (Heap×ℕ) := none

/-- A heap of twelve mebibytes. -/
def sample : HeapSystem := initial zeroMem 0xC0400000 0xC1000000

/-- A stale header inside a payload: the first block is released, so it merges
with the hole behind it but keeps the hole's link to itself, and is allocated
again with more bytes. -/
theorem heapSafe_counterexample :
    ¬∀ (mmapPages : Heap → ℕ → ℕ → Option (Heap×ℕ)) (mem : ℕ → BlockHeader)
      (heapBase mapLimit : ℕ) (ops : List HeapOp) (t : HeapSystem),
      heapBase+headerSize ≤ mapLimit → mapLimit<2^32 →
      Run (Step mmapPages) (initial mem heapBase mapLimit) ops t → HeapSafe t := by
  intro hclaim
  obtain ⟨t,ht,hfacts⟩ : ∃ t,([HeapOp.kmallocAlign 48 16,.kfree ⟨0xC0400020,48⟩,
      .kmallocAlign 200 16].foldlM (exec noPages 1) sample)=some t ∧
      (t.live,t.heap.base,holeOf t.heap 0xC0400000,holeOf t.heap 0xC04000F0)=
        ([⟨0xC0400020,200⟩],0xC0400000,0xC04000F0,0xC0400050) :=
    Option.map_eq_some_iff.mp (by decide)
  simp only [Prod.mk.injEq] at hfacts
  obtain ⟨hlive,hbase,hfirst,hsecond⟩ := hfacts
  have h0 : Reachable t.heap 0xC0400000 := hbase▸Reachable.base
  have h1 : Reachable t.heap 0xC04000F0 := hfirst▸Reachable.nextHole h0 (by rw [hfirst]; decide)
  have h2 : Reachable t.heap 0xC0400050 :=
    hsecond▸Reachable.nextHole h1 (by rw [hsecond]; decide)
  have hsafe := hclaim noPages zeroMem 0xC0400000 0xC1000000 _ t (by decide) (by decide)
    (exec_run ht)
  have hclash := hsafe.headers ⟨0xC0400020,200⟩ (by rw [hlive]; exact List.mem_cons_self) _ h2
  revert hclash
  decide

/-- Two requests and the release of the second, and the blocks they meet. -/
theorem sample_release : ∃ s₁ s₂ s₃ : HeapSystem,
    (Guard sample (.kmallocAlign 48 16) ∧ Step noPages sample (.kmallocAlign 48 16) s₁) ∧
    (Guard s₁ (.kmallocAlign 48 16) ∧ Step noPages s₁ (.kmallocAlign 48 16) s₂) ∧
    (Guard s₂ (.kfree ⟨0xC0400070,48⟩) ∧ Step noPages s₂ (.kfree ⟨0xC0400070,48⟩) s₃) ∧
    (searchHole s₁.heap 48 16 2 s₁.heap.base 0=some (.found 0xC0400050) ∧
      nextOf s₁.heap 0xC0400050=0) ∧
    (nextOf s₂.heap 0xC0400050=0xC04000A0 ∧ nextOf s₂.heap 0xC04000A0=0) ∧
    s₃.live=[⟨0xC0400020,48⟩] ∧ (s₂.heap.mem 0xC0400050).magicNum=BLOCK_HEADER_MAGIC_NUM ∧
    (s₂.heap.mem (prevOf s₂.heap 0xC0400050)).isHole=false := by
  have hrun : (do
      let s₁ ← exec noPages 2 sample (.kmallocAlign 48 16)
      let s₂ ← exec noPages 2 s₁ (.kmallocAlign 48 16)
      let s₃ ← exec noPages 2 s₂ (.kfree ⟨0xC0400070,48⟩)
      return (searchHole s₁.heap 48 16 2 s₁.heap.base 0,
        [nextOf s₁.heap 0xC0400050,s₁.heap.endAddr,s₂.heap.base,nextOf s₂.heap 0xC0400000,
          holeOf s₂.heap 0xC0400000,nextOf s₂.heap 0xC0400050,nextOf s₂.heap 0xC04000A0,
          (s₂.heap.mem 0xC0400050).magicNum],
        (s₂.heap.mem (prevOf s₂.heap 0xC0400050)).isHole,s₃.live))=
      some (some (.found 0xC0400050),[0,0xC1000000,0xC0400000,0xC0400050,0xC04000A0,
        0xC04000A0,0,BLOCK_HEADER_MAGIC_NUM],false,[⟨0xC0400020,48⟩]) := by decide
  obtain ⟨s₁,h₁,hrun⟩ := Option.bind_eq_some_iff.mp hrun
  obtain ⟨s₂,h₂,hrun⟩ := Option.bind_eq_some_iff.mp hrun
  obtain ⟨s₃,h₃,hfacts⟩ := Option.bind_eq_some_iff.mp hrun
  simp only [Option.pure_def,Option.some.injEq,Prod.mk.injEq,List.cons.injEq,and_true] at hfacts
  obtain ⟨hsearch,⟨hnext,hend,hbase,hfirst,hhole,hsecond,hlast,hmagic⟩,hprev,hlive⟩ := hfacts
  have hg₁ : Guard sample (.kmallocAlign 48 16) := by
    refine Or.inr fun fuel r hr => ⟨0xC0400000,?_,⟨by decide,by decide,by decide,Or.inl (by decide),
      by decide⟩⟩
    exact searchHole_unique hr (by decide : searchHole sample.heap 48 16 1 sample.heap.base 0=_)
  have hg₂ : Guard s₁ (.kmallocAlign 48 16) := by
    refine Or.inr fun fuel r hr => ⟨0xC0400050,searchHole_unique hr hsearch,
      ⟨by decide,by decide,by decide,Or.inl hnext,?_⟩⟩
    rw [if_pos hnext,hend]
    decide
  have hg₃ : Guard s₂ (.kfree ⟨0xC0400070,48⟩) := by
    have hreach : Reachable s₂.heap 0xC0400050 :=
      hfirst▸Reachable.next (hbase▸Reachable.base) (by rw [hfirst]; decide)
    refine Or.inr ⟨hreach,by rw [hbase]; decide,fun fuel pv hpv => ?_⟩
    have hlt : wsub 0xC0400070 headerSize<(s₂.heap.mem s₂.heap.base).nextHole := by
      rw [hbase]
      exact (by decide : wsub 0xC0400070 headerSize<0xC04000A0).trans_eq hhole.symm
    rw [insertionPoint,if_pos hlt] at hpv
    obtain rfl := Option.some.inj hpv
    rw [hbase,hhole]
    decide
  exact ⟨s₁,s₂,s₃,⟨hg₁,exec_step h₁⟩,⟨hg₂,exec_step h₂⟩,⟨hg₃,exec_step h₃⟩,⟨hsearch,hnext⟩,
    ⟨hsecond,hlast⟩,hlive,hmagic,hprev⟩

/-- Two requests and the release of the second meet the condition. -/
theorem run_heapSafe_release : ∃ t,Run (Guarded (Step noPages) Guard) sample
      [.kmallocAlign 48 16,.kmallocAlign 48 16,.kfree ⟨0xC0400070,48⟩] t ∧
    t.live=[⟨0xC0400020,48⟩] ∧ HeapSafe t := by
  obtain ⟨s₁,s₂,s₃,h₁,h₂,h₃,-,-,hlive,-⟩ := sample_release
  have hrun : Run (Guarded (Step noPages) Guard) sample
      [.kmallocAlign 48 16,.kmallocAlign 48 16,.kfree ⟨0xC0400070,48⟩] s₃ :=
    Run.cons h₁ (Run.cons h₂ (Run.cons h₃ (Run.nil s₃)))
  exact ⟨s₃,hrun,hlive,run_heapSafe (by decide) (by decide) hrun⟩

/-! ## Ends of the search chain -/

/-- The search chain ends, so do all searches, and every live pointer can be
released. -/
structure ChainSound (s : HeapSystem) : Prop where
  /-- The chain is without a cycle and ends with a null pointer. -/
  ended : ∃ holes,Path (holeOf s.heap) s.heap.base holes 0 ∧ (s.heap.base::holes).Nodup
  /-- The search of `kmalloc_align` ends. -/
  searchEnds : ∀ siz alignment,∃ fuel r,searchHole s.heap (roundUp siz (effectiveAlignment alignment))
    (effectiveAlignment alignment) fuel s.heap.base 0=some r
  /-- The insertion walk of `kfree` ends at a block. -/
  walkEnds : ∀ a∈s.live,∃ fuel h',kfree fuel s.heap a.addr=some h'

/-- Before the first allocation the chain is the first block. -/
theorem Fresh.chainSound {s : HeapSystem} (hs : Fresh s) : ChainSound s := by
  obtain ⟨hv,hlive⟩ := hs
  refine ⟨⟨[],hv.hole,List.nodup_singleton _⟩,fun siz alignment => ⟨2,?_⟩,by simp [hlive]⟩
  have hnull : (s.heap.mem s.heap.base).nextHole=0 := hv.hole
  simp only [searchHole,hnull,if_true]
  split
  · exact ⟨_,rfl⟩
  split
  · exact ⟨_,rfl⟩
  · exact ⟨_,rfl⟩

/-- From the first allocation on the chain has no end. -/
theorem Grown.not_ended {s : HeapSystem} (hs : Grown s) (holes : List ℕ) :
    ¬Path (holeOf s.heap) s.heap.base holes 0 := by
  obtain ⟨rest,_,hv,-⟩ := hs
  suffices hpath : ∀ (xs : List ℕ) (b : ℕ),b∈s.heap.base::rest → ¬Path (holeOf s.heap) b xs 0 from
    hpath holes _ List.mem_cons_self
  intro xs
  induction xs with
  | nil => exact fun b hb hend => hv.ne_zero (hv.hole_mem hb) hend
  | cons x xs ih =>
    exact fun b hb hpath => ih x (hpath.1▸List.mem_cons_of_mem _ (hv.hole_mem hb)) hpath.2

/-- A run with a request ends in a grown heap. -/
theorem run_grown {s t : HeapSystem} {ops : List HeapOp}
    (hrun : Run (Guarded (Step mmapPages) Guard) s ops t) (hs : SystemValid s)
    (hor : Grown s ∨ ∃ op∈ops,¬Idle op) : Grown t := by
  induction hrun with
  | nil s => exact hor.resolve_right (by simp)
  | cons head _ ih =>
    refine ih (hs.step head.1 head.2) ?_
    rcases hor with hgrown|⟨op,hop,hne⟩
    · exact Or.inl (hs.grown (Or.inl hgrown) head.1 head.2)
    · rcases List.mem_cons.mp hop with rfl|hop
      · exact Or.inl (hs.grown (Or.inr hne) head.1 head.2)
      · exact Or.inr ⟨op,hop,hne⟩

/-- A run that requests no memory leaves the heap fresh. -/
theorem run_fresh {s t : HeapSystem} {ops : List HeapOp} (hrun : Run (Step mmapPages) s ops t)
    (hs : Fresh s) (he : ∀ op∈ops,Idle op) : Fresh t := by
  induction hrun with
  | nil s => exact hs
  | cons head _ ih =>
    exact ih (hs.step (he _ List.mem_cons_self) head) fun op hop =>
      he op (List.mem_cons_of_mem _ hop)

/-- The search chain ends in every run that requests no memory, and in no run
that requests some and meets no other defect. -/
theorem run_chainSound (mmapPages : Heap → ℕ → ℕ → Option (Heap×ℕ)) (mem : ℕ → BlockHeader)
    {heapBase mapLimit : ℕ} (hsize : heapBase+headerSize ≤ mapLimit) (hword : mapLimit<2^32) :
    (∀ ops t,Run (Step mmapPages) (initial mem heapBase mapLimit) ops t →
      (∀ op∈ops,Idle op) → ChainSound t) ∧
    ∀ ops t,Run (Guarded (Step mmapPages) Guard) (initial mem heapBase mapLimit) ops t →
      ChainSound t → ∀ op∈ops,Idle op := by
  have hfresh := initial_fresh mem hsize hword
  refine ⟨fun ops t hrun he => (run_fresh hrun hfresh he).chainSound,
    fun ops t hrun hsound op hop => ?_⟩
  by_contra hne
  obtain ⟨holes,hpath,-⟩ := hsound.ended
  exact (run_grown hrun (Or.inl hfresh) (Or.inr ⟨op,hop,hne⟩)).not_ended holes hpath

/-- The chain ends after a request for no bytes and a write, and not after a request
for some. -/
theorem run_chainSound_requests :
    (∃ t,Run (Step noPages) sample [.kmallocAlign 0 16,.clientWrite] t ∧ ChainSound t) ∧
    ∃ t,Run (Guarded (Step noPages) Guard) sample [.kmallocAlign 48 16] t ∧ ¬ChainSound t := by
  constructor
  · obtain ⟨t,ht⟩ := Option.isSome_iff_exists.mp (by decide :
      ([HeapOp.kmallocAlign 0 16,.clientWrite].foldlM (exec noPages 1) sample).isSome)
    have hrun := exec_run ht
    refine ⟨t,hrun,(run_chainSound noPages zeroMem (by decide) (by decide)).1 _ t hrun ?_⟩
    simp [Idle]
  · obtain ⟨t,_,_,h,-⟩ := sample_release
    have hrun : Run (Guarded (Step noPages) Guard) sample [.kmallocAlign 48 16] t :=
      Run.cons h (Run.nil t)
    refine ⟨t,hrun,fun hsound => ?_⟩
    have hidle := (run_chainSound noPages zeroMem (by decide) (by decide)).2 _ t hrun hsound
    exact absurd (hidle _ List.mem_cons_self) (by simp [Idle])

/-- After one request the chain runs from the first block to the hole behind it
and from there to itself. -/
theorem chainSound_counterexample :
    ¬∀ (mmapPages : Heap → ℕ → ℕ → Option (Heap×ℕ)) (mem : ℕ → BlockHeader)
      (heapBase mapLimit : ℕ) (ops : List HeapOp) (t : HeapSystem),
      heapBase+headerSize ≤ mapLimit → mapLimit<2^32 →
      Run (Step mmapPages) (initial mem heapBase mapLimit) ops t → ChainSound t := by
  intro hclaim
  obtain ⟨t,ht,hfacts⟩ : ∃ t,([HeapOp.kmallocAlign 16 16].foldlM (exec noPages 1) sample)=some t ∧
      (t.heap.base,holeOf t.heap 0xC0400000,holeOf t.heap 0xC0400030)=
        (0xC0400000,0xC0400030,0xC0400030) := Option.map_eq_some_iff.mp (by decide)
  simp only [Prod.mk.injEq] at hfacts
  obtain ⟨hbase,hfirst,hself⟩ := hfacts
  have hsound := hclaim noPages zeroMem 0xC0400000 0xC1000000 _ t (by decide) (by decide)
    (exec_run ht)
  obtain ⟨holes,hpath,hnd⟩ := hsound.ended
  rw [hbase] at hpath
  cases holes with
  | nil =>
    have hend : holeOf t.heap 0xC0400000=0 := hpath
    rw [hfirst] at hend
    contradiction
  | cons x xs =>
    obtain rfl : 0xC0400030=x := hfirst.symm.trans hpath.1
    cases xs with
    | nil =>
      have hend : holeOf t.heap 0xC0400030=0 := hpath.2
      rw [hself] at hend
      contradiction
    | cons y ys =>
      obtain rfl : 0xC0400030=y := hself.symm.trans hpath.2.1
      simp at hnd

end XanaduOS.HeapRuns
