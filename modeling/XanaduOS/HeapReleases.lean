import XanaduOS.HeapRuns

/-!
# Releases to the kernel heap

A release looks for the header 32 bytes in front of the address and trusts the
magic number it finds there. Padding in front of an aligned payload moves the
payload away from its header, and a merge with a stale back link clears the
magic number of a block that stays. Where the magic number is found, the bytes
of the block become a hole, alone or with the holes on both sides, as long as
the hole in front reaches up to the block.
-/

namespace XanaduOS.HeapReleases

open Word32 KernelDefs HeapAllocator Chains Runs HeapBlocks HeapRuns

/-- Blocks a walk along `next` meets. -/
inductive Chained (h : Heap) : ℕ → Prop
  /-- The first block. -/
  | base : Chained h h.base
  /-- The next one. -/
  | next {b : ℕ} (hb : Chained h b) (hn : nextOf h b≠0) : Chained h (nextOf h b)

/-- The block that holds a payload. -/
def Holds (h : Heap) (b : ℕ) (a : Alloc) : Prop := Chained h b ∧ Inside b (nextOf h b) a

/-- The memory of a block lies within a hole after a release. -/
def Freed (h h' : Heap) (b : ℕ) : Prop :=
  ∃ q,Chained h' q ∧ (h'.mem q).isHole=true ∧ q≤b ∧ b+(h.mem b).size≤q+(h'.mem q).size

/-- What a caller relies on when it releases a payload. -/
structure FreeSound (s : HeapSystem) (a : Alloc) : Prop where
  /-- The size found covers the bytes asked for. -/
  size : a.size≤checkBlockSize s.heap a.addr
  /-- The release returns. -/
  returns : ∃ fuel h',kfree fuel s.heap a.addr=some h'
  /-- The block that held the payload belongs to a hole. -/
  freed : ∀ fuel h',kfree fuel s.heap a.addr=some h' → ∃ b,Holds s.heap b a ∧ Freed s.heap h' b
  /-- Blocks that hold other payloads stay in use. -/
  others : ∀ fuel h',kfree fuel s.heap a.addr=some h' → ∀ a'∈s.live.erase a,
    ∃ b,Holds h' b a' ∧ (h'.mem b).isHole=false

/-- Bytes of the hole behind a block, zero where no hole is. -/
def holeBehind (h : Heap) (header : ℕ) : ℕ :=
  if nextOf h header≠0 ∧ (h.mem (nextOf h header)).isHole=true then
    (h.mem (nextOf h header)).size else 0

/-- A hole in front that the block is merged with makes up, with the hole
behind, for what lies between it and the block. -/
def Covered (h : Heap) (header : ℕ) : Prop :=
  Chained h (prevOf h header) → (h.mem (prevOf h header)).isHole=true →
    header≤prevOf h header+(h.mem (prevOf h header)).size+holeBehind h header

variable {h h' : Heap} {rest holes : List ℕ} {a : Alloc}

/-! ## The chain of blocks -/

/-- Blocks of a path are met by the walk. -/
theorem chained_of_path {b : ℕ} {xs : List ℕ} (hpath : Path (nextOf h) b xs 0) (h0 : 0∉xs)
    (hb : Chained h b) {x : ℕ} (hx : x∈b::xs) : Chained h x := by
  induction xs generalizing b with
  | nil => exact List.mem_singleton.mp hx▸hb
  | cons y ys ih =>
    rcases List.mem_cons.mp hx with rfl|hx
    · exact hb
    · have hy : nextOf h b=y := hpath.1
      have hy0 : y≠0 := fun heq => h0 (heq▸List.mem_cons_self)
      refine ih hpath.2 (fun hmem => h0 (List.mem_cons_of_mem y hmem)) ?_ hx
      exact hy▸hb.next (hy.symm▸hy0)

/-- In a valid heap the walk meets the blocks and nothing else. -/
theorem chained_iff (hv : HeapValid h rest holes) {b : ℕ} : Chained h b ↔ b∈h.base::rest := by
  constructor
  · intro hb
    induction hb with
    | base => exact List.mem_cons_self
    | next _ hn ih => exact List.mem_cons_of_mem _ (hv.next_mem ih hn)
  · exact chained_of_path hv.chain (fun h0 => hv.ne_zero h0 rfl) Chained.base

/-! ## Sizes of blocks in use -/

/-- Blocks in use are as large as the bytes asked for and a header. -/
def Sized (s : HeapSystem) : Prop :=
  ∀ a∈s.live,∀ b n,Chained s.heap b → (s.heap.mem b).isHole=false → nextOf s.heap b=n →
    Inside b n a → a.size+headerSize≤(s.heap.mem b).size

/-- An allocation leaves the size of other blocks in use. -/
theorem takeBlock_size {s size dataBase y : ℕ} (hys : y≠s)
    (hused : ((takeBlock h s size dataBase).mem y).isHole=false) :
    ((takeBlock h s size dataBase).mem y).size=(h.mem y).size := by
  by_cases hsplit : splits h s size
  · by_cases hnew : y=wadd dataBase size
    · -- the new block is free
      subst hnew
      simp [takeBlock,if_pos hsplit,splitBlock,set_mem,hys] at hused
    · simp only [takeBlock,if_pos hsplit,splitBlock]
      split
      all_goals simp only [set_mem,if_neg hys,if_neg hnew]
      split
      case isTrue heq => rw [heq]
      case isFalse => rfl
  · simp only [takeBlock,if_neg hsplit,set_mem,if_neg hys]

/-- A merge with the next block changes the size of that block alone and marks
none. -/
theorem mergeNext_mem (h : Heap) (s y : ℕ) :
    ((mergeNext h s).mem y).isHole=(h.mem y).isHole ∧
      (y≠s → ((mergeNext h s).mem y).size=(h.mem y).size) := by
  simp only [mergeNext]
  split_ifs
  all_goals
    simp only [set_mem]
    grind

/-- A merge into the block in front changes the size of a hole and marks none. -/
theorem mergePrev_mem (h : Heap) (s y : ℕ) :
    ((mergePrev h s).mem y).isHole=(h.mem y).isHole ∧
      ((h.mem y).isHole=false → ((mergePrev h s).mem y).size=(h.mem y).size) := by
  simp only [mergePrev]
  split_ifs
  all_goals
    simp only [set_mem]
    grind

/-- A release leaves the size of other blocks in use. -/
theorem kfree_size {s addr fuel y : ℕ} (haddr : wsub addr headerSize=s)
    (hne : ∀ pv,insertionPoint fuel h s=some pv → pv≠s) (hys : y≠s)
    (hused : (h.mem y).isHole=false) (call : kfree fuel h addr=some h') :
    (h'.mem y).size=(h.mem y).size := by
  rcases kfree_cases haddr call with ⟨rfl,-⟩|⟨pv,hpv,rfl⟩
  · rfl
  · obtain ⟨-,-,-,hsize,hfree⟩ := freeBlock_spec (h:=h) (hne pv hpv) y
    rw [if_neg hys] at hfree
    obtain ⟨hnextFree,hnextSize⟩ := mergeNext_mem (freeBlock h pv s) s y
    rw [(mergePrev_mem _ s y).2 (by rw [hnextFree,hfree,hused]),hnextSize hys,hsize]

variable {mmapPages : Heap → ℕ → ℕ → Option (Heap×ℕ)} {s t : HeapSystem}

/-- What the sizes of blocks in use say, for the blocks of a valid heap. -/
theorem sized_iff (hv : HeapValid s.heap rest holes) : Sized s ↔
    ∀ a∈s.live,∀ b n,Busy s.heap rest b n → Inside b n a → a.size+headerSize≤(s.heap.mem b).size := by
  constructor
  · exact fun hs a ha b n hb hin => hs a ha b n ((chained_iff hv).mpr hb.1) hb.2.1 hb.2.2 hin
  · exact fun hs a ha b n hb hused hn hin => hs a ha b n ⟨(chained_iff hv).mp hb,hused,hn⟩ hin

/-- The size of a block taken. -/
theorem takeBlock_taken (h : Heap) (s : ℕ) {size dataBase : ℕ} (hw : size+headerSize<2^32) :
    ((takeBlock h s size dataBase).mem s).size=size+headerSize := by
  simp only [takeBlock,set_mem,if_true]
  exact wadd_eq hw

/-- The bytes needed leave room for a header. -/
theorem Fits.header_lt {b siz alignment : ℕ} (hfit : Fits h b siz alignment) :
    roundUp siz alignment+headerSize<2^32 := by
  have hdata := hfit.data
  have hsum := hfit.sum
  simp only [headerSize] at hdata ⊢
  omega

/-- Requests keep the sizes of blocks in use. -/
theorem Sized.request (hz : Sized s) (hs : SystemValid s) {fuel siz alignment p : ℕ} (hsiz : siz≠0)
    (hg : Guard s (.kmallocAlign siz alignment))
    (call : kmallocAlign mmapPages fuel s.heap siz alignment=some (h',p)) :
    Sized ⟨h',⟨p,siz⟩::s.live⟩ := by
  have hgfit := hg.resolve_left hsiz
  rcases hs with ⟨hv,hlive⟩|⟨rest,holes,hv,hc⟩
  · obtain ⟨-,hfit,rfl,rfl,hend⟩ := HeapFresh.chosen hv hsiz hgfit call
    obtain ⟨hv',hbusy⟩ := hv.allocate hfit.data rfl hend
    refine (sized_iff hv').mpr fun a ha b n hb _ => ?_
    obtain ⟨rfl,-⟩ := (hbusy b n).mp hb
    rw [hlive,List.mem_singleton] at ha
    rw [ha,takeBlock_taken _ _ (Fits.header_lt hfit)]
    exact Nat.add_le_add_right hfit.size _
  · obtain ⟨b,hb,hfree,-,hfit,hroom,rfl,rfl,hend⟩ := HeapValid.chosen hv hsiz hgfit call
    obtain ⟨rest',holes',n,hv',hbusy,hn⟩ := hv.serve hb hfree hfit.data hroom hfit.whole hend
    have hold := (sized_iff hv).mp hz
    have hnew : Inside b n ⟨roundUp (getDataBase b) (effectiveAlignment alignment),siz⟩ :=
      ⟨hfit.data,(Nat.add_le_add_left hfit.size _).trans hn⟩
    have htaken := (hbusy b n).mpr (Or.inr ⟨rfl,rfl⟩)
    have hapart : ∀ e,¬Busy s.heap rest b e := by
      rintro e ⟨-,hused,-⟩
      rw [hfree] at hused
      contradiction
    refine (sized_iff hv').mpr fun a ha x e hx hin => ?_
    rcases List.mem_cons.mp ha with rfl|hlive
    · obtain rfl := (busy_gapped hv').unique hx htaken hin hnew
      rw [takeBlock_taken _ _ (Fits.header_lt hfit)]
      exact Nat.add_le_add_right hfit.size _
    · rcases (hbusy x e).mp hx with hx'|⟨rfl,rfl⟩
      · have hxb : x≠b := by
          rintro rfl
          exact hapart e hx'
        rw [takeBlock_size hxb hx.2.1]
        exact hold a hlive x e hx' hin
      · -- the payload would lie in the block taken and in its own
        obtain ⟨y,m,hy,hyin⟩ := hc.held a hlive
        obtain rfl := (busy_gapped hv').unique hx ((hbusy y m).mpr (Or.inl hy)) hin hyin
        exact absurd hy (hapart m)

/-- Releases keep the sizes of blocks in use. -/
theorem Sized.release (hz : Sized s) (hs : SystemValid s) {fuel : ℕ} (hg : Guard s (.kfree a))
    (ha : a∈s.live) (call : kfree fuel s.heap a.addr=some h') : Sized ⟨h',s.live.erase a⟩ := by
  rcases hs with ⟨-,hlive⟩|⟨rest,holes,hv,hc⟩
  · simp [hlive] at ha
  have hold := (sized_iff hv).mp hz
  have hsame : Sized ⟨s.heap,s.live.erase a⟩ := fun a' ha' => hz a' (List.mem_of_mem_erase ha')
  rcases hg with hm|⟨hreach,hbase,hne⟩
  · obtain rfl := kfree_of_magic hm call
    exact hsame
  · have hmem : wsub a.addr headerSize∈rest :=
      (List.mem_cons.mp (reachable_mem hv hreach)).resolve_left hbase
    obtain ⟨n,hb,-⟩ := hc.header hv ha hmem
    rcases hv.kfree rfl hmem hb.2.1 hne call with rfl|⟨rest',holes',hv',hbusy⟩
    · exact hsame
    · refine (sized_iff hv').mpr fun a' ha' x e hx hin => ?_
      obtain ⟨hx',hxs⟩ := (hbusy x e).mp hx
      change _≤(h'.mem x).size
      rw [kfree_size rfl (fun pv hpv => hv.insertionPoint_ne hmem hpv) hxs hx'.2.1 call]
      exact hold a' (List.mem_of_mem_erase ha') x e hx' hin

/-- Writes keep the sizes of blocks in use. -/
theorem Sized.clientWrite (hz : Sized s) (hs : SystemValid s) {mem : ℕ → BlockHeader}
    (frame : ∀ y,(∀ a∈s.live,y+headerSize≤a.addr ∨ a.addr+a.size≤y) →
      (∀ b,Reachable s.heap b → y≠b → y+headerSize≤b ∨ b+headerSize≤y) →
      mem y=s.heap.mem y) : Sized ⟨{s.heap with mem := mem},s.live⟩ := by
  rcases hs with ⟨-,hlive⟩|⟨rest,holes,hv,hc⟩
  · intro a ha
    simp [hlive] at ha
  have hkeep := clientWrite_keeps hv hc frame
  have hchained : ∀ b,Chained {s.heap with mem := mem} b → b∈s.heap.base::rest := by
    intro b hb
    induction hb with
    | base => exact List.mem_cons_self
    | next _ hn ih =>
      simp only [nextOf,hkeep _ ih] at hn ⊢
      exact List.mem_cons_of_mem _ (hv.next_mem ih hn)
  intro a ha b n hb hused hn hin
  have hmem := hchained b hb
  simp only [nextOf,hkeep b hmem] at hused hn ⊢
  exact (sized_iff hv).mp hz a ha b n ⟨hmem,hused,hn⟩ hin

/-- A merge with the next block keeps the first one. -/
theorem mergeNext_base (h : Heap) (s : ℕ) : (mergeNext h s).base=h.base := by
  simp only [mergeNext]
  split_ifs <;> rfl

/-- A merge into the block in front keeps the first one. -/
theorem mergePrev_base (h : Heap) (s : ℕ) : (mergePrev h s).base=h.base := by
  simp only [mergePrev]
  split_ifs <;> rfl

/-- A release keeps the first block. -/
theorem kfree_base {addr fuel : ℕ} (call : kfree fuel h addr=some h') : h'.base=h.base := by
  rcases kfree_cases (s:=wsub addr headerSize) rfl call with ⟨heq,-⟩|⟨pv,-,heq⟩
  · rw [heq]
  · rw [heq,mergePrev_base,mergeNext_base]
    rfl

/-- A request that is met starts its search at a block. -/
theorem base_ne_of_found {size alignment fuel r : ℕ}
    (hf : searchHole h size alignment fuel h.base 0=some (.found r)) : h.base≠0 := by
  intro h0
  cases fuel with
  | zero => simp [searchHole] at hf
  | succ fuel => simp [searchHole,h0] at hf

/-- The heap ends within the address space. -/
theorem SystemValid.word (hs : SystemValid s) : s.heap.endAddr<2^32 := by
  rcases hs with ⟨hv,-⟩|⟨_,_,hv,-⟩
  · exact hv.word
  · exact hv.word

/-- A system that keeps payloads apart in blocks of their sizes. -/
structure SizedSystem (s : HeapSystem) : Prop where
  /-- Payloads are kept apart. -/
  valid : SystemValid s
  /-- Blocks have their sizes. -/
  sized : Sized s
  /-- Where payloads are held the first block is not null. -/
  base : s.live≠[] → s.heap.base≠0

/-- Steps that meet no defect keep payloads apart in blocks of their sizes. -/
theorem SizedSystem.step (hs : SizedSystem s) {op : HeapOp} (hg : Guard s op)
    (hstep : Step mmapPages s op t) : SizedSystem t := by
  refine ⟨hs.valid.step hg hstep,?_,?_⟩
  case refine_1 =>
    cases hstep with
    | @kmallocAlign _ siz _ _ _ call =>
      by_cases hsiz : siz=0
      · subst hsiz
        rw [kmallocAlign_zero call,if_pos rfl]
        exact hs.sized
      · rw [if_neg hsiz]
        exact hs.sized.request hs.valid hsiz hg call
    | kfree held call => exact hs.sized.release hs.valid hg held call
    | clientWrite frame => exact hs.sized.clientWrite hs.valid frame
  case refine_2 =>
    intro hne
    cases hstep with
    | @kmallocAlign _ siz _ _ _ call =>
      by_cases hsiz : siz=0
      · subst hsiz
        rw [kmallocAlign_zero call]
        exact hs.base (by simpa using hne)
      · obtain ⟨b,hb,-,-,hheap⟩ := kmallocAlign_eq (SystemValid.word hs.valid) hsiz
          (hg.resolve_left hsiz) call
        rw [hheap,(takeBlock_limits ..).1]
        exact base_ne_of_found hb
    | kfree held call =>
      rw [kfree_base call]
      exact hs.base (List.ne_nil_of_mem held)
    | clientWrite frame => exact hs.base hne

/-! ## What becomes of a block -/

/-- A merge with the next block adds the hole behind. -/
theorem mergeNext_size (hv : HeapValid h rest holes) {s : ℕ} (hs : s∈rest)
    (hsfree : (h.mem s).isHole=true) :
    ((mergeNext h s).mem s).size=(h.mem s).size+holeBehind h s ∧
      prevOf (mergeNext h s) s=prevOf h s := by
  rw [holeBehind]
  by_cases hcond : nextOf h s≠0 ∧ (h.mem (nextOf h s)).isHole=true
  · have hlt := hv.lt_next (List.mem_cons_of_mem _ hs) hcond.1
    simp only [headerSize] at hlt
    rw [if_pos hcond]
    refine ⟨(hv.absorbs_mergeNext hs hsfree hcond.1 hcond.2).size,?_⟩
    exact ((mergeNext_spec hcond.1 hcond.2 (by omega)).2.2 s).2.2.2.2 (by omega)
  · rw [if_neg hcond,mergeNext_of_not hcond]
    exact ⟨rfl,rfl⟩

/-- A back link leads to an address in front of the block. -/
theorem prevOf_lt (hv : HeapValid h rest holes) {s : ℕ} (hs : s∈rest) :
    prevOf h s+headerSize ≤ s := by
  rcases hv.back s hs with ⟨hmem,hnext⟩|⟨hle,-⟩
  · have hlt := hv.lt_next hmem (hnext.symm▸hv.ne_zero hs)
    rwa [hnext] at hlt
  · exact hle

/-- Freeing a block keeps the hole behind it. -/
theorem holeBehind_freeBlock (hv : HeapValid h rest holes) {s pv : ℕ} (hs : s∈rest)
    (hne : pv≠s) : holeBehind (freeBlock h pv s) s=holeBehind h s := by
  have hfields := freeBlock_spec (h:=h) hne
  by_cases hn : nextOf h s=0
  · simp only [holeBehind,(hfields s).1,hn,ne_eq,not_true_eq_false,false_and,if_false]
  · have hlt := hv.lt_next (List.mem_cons_of_mem _ hs) hn
    simp only [headerSize] at hlt
    simp only [holeBehind,(hfields s).1,(hfields (nextOf h s)).2.2.2.1,
      (hfields (nextOf h s)).2.2.2.2,if_neg (show nextOf h s≠s by omega)]

/-- A release turns the block into a hole, together with the hole behind and
with the hole in front that its back link names. -/
theorem released (hv : HeapValid h rest holes) {s pv fuel : ℕ} (hs : s∈rest)
    (hused : (h.mem s).isHole=false) (hpv : insertionPoint fuel h s=some pv)
    (hne : holeOf h pv≠s) {g : Heap} (hg : g=mergePrev (mergeNext (freeBlock h pv s) s) s) :
    ∃ rest' holes',HeapValid g rest' holes' ∧
      (∀ b e,Busy g rest' b e ↔ Busy h rest b e ∧ b≠s) ∧
      ∃ q∈rest',(g.mem q).isHole=true ∧ q ≤ s ∧ (nextOf g q=0 ∨ s<nextOf g q) ∧
        (Chained h (prevOf h s) ∧ (h.mem (prevOf h s)).isHole=true → q=prevOf h s ∧
          (g.mem q).size=(h.mem (prevOf h s)).size+((h.mem s).size+holeBehind h s)) ∧
        (¬(Chained h (prevOf h s) ∧ (h.mem (prevOf h s)).isHole=true) → q=s ∧
          (g.mem q).size=(h.mem s).size+holeBehind h s) := by
  subst hg
  have hpvs := hv.insertionPoint_ne hs hpv
  obtain ⟨holes₁,hv₁,hbusy₁⟩ := hv.link hs hused hpv hne
  have hsfree := freeBlock_free h hpvs
  have hfields := freeBlock_spec (h:=h) hpvs
  obtain ⟨hsize₂,hprev₂⟩ := mergeNext_size hv₁ hs hsfree
  rw [(hfields s).2.2.2.1,holeBehind_freeBlock hv hs hpvs] at hsize₂
  rw [(hfields s).2.1] at hprev₂
  obtain ⟨rest₂,holes₂,hv₂,hs₂,hsfree₂,hbusy₂,hsub,hsup⟩ := hv₁.after_mergeNext hs hsfree
  obtain ⟨rest₃,holes₃,hv₃,hbusy₃,hmerged⟩ := hv₂.after_mergePrev hs₂ hsfree₂
  have hbase₂ : (mergeNext (freeBlock h pv s) s).base=h.base := mergeNext_base _ s
  have hlt := prevOf_lt hv hs
  simp only [headerSize] at hlt
  have hps : prevOf h s≠s := by omega
  obtain ⟨hfreep,hsizep⟩ := mergeNext_mem (freeBlock h pv s) s (prevOf h s)
  rw [(hfields _).2.2.2.2,if_neg hps] at hfreep
  have hsizep := (hsizep hps).trans (hfields _).2.2.2.1
  have hcond : (prevOf h s∈h.base::rest₂ ∧
        ((mergeNext (freeBlock h pv s) s).mem (prevOf h s)).isHole=true) ↔
      Chained h (prevOf h s) ∧ (h.mem (prevOf h s)).isHole=true := by
    rw [chained_iff hv,hfreep,List.mem_cons,List.mem_cons]
    refine and_congr_left fun _ => or_congr_right ⟨hsub _,fun hmem => hsup _ hmem (by omega)⟩
  rw [hprev₂,hbase₂,hsize₂] at hmerged
  refine ⟨rest₃,holes₃,hv₃,
    fun b e => (hbusy₃ b e).trans ((hbusy₂ b e).trans (hbusy₁ b e)),?_⟩
  by_cases hif : Chained h (prevOf h s) ∧ (h.mem (prevOf h s)).isHole=true
  · rw [if_pos (hcond.mpr hif)] at hmerged
    obtain ⟨hmem,habs⟩ := hmerged
    refine ⟨prevOf h s,hmem,habs.free,by omega,?_,fun _ => ⟨rfl,?_⟩,fun hnot => absurd hif hnot⟩
    · rw [habs.next]
      by_cases hn : nextOf (mergeNext (freeBlock h pv s) s) s=0
      · exact Or.inl hn
      · have hltn := hv₂.lt_next (List.mem_cons_of_mem _ hs₂) hn
        simp only [headerSize] at hltn
        exact Or.inr (by omega)
    · rw [habs.size,hsizep,hsize₂]
  · rw [if_neg (mt hcond.mp hif)] at hmerged
    obtain ⟨hmem,hfree,hsize⟩ := hmerged
    refine ⟨s,hmem,hfree,Nat.le_refl _,?_,fun hand => absurd hand hif,fun _ => ⟨rfl,hsize⟩⟩
    by_cases hn : nextOf (mergePrev (mergeNext (freeBlock h pv s) s) s) s=0
    · exact Or.inl hn
    · have hltn := hv₃.lt_next (List.mem_cons_of_mem _ hmem) hn
      simp only [headerSize] at hltn
      exact Or.inr (by omega)

/-- The insertion walk of a release ends where some hole lies behind the block. -/
theorem insertionWalk_ends {s b e : ℕ} {xs : List ℕ} (hpath : Path (holeOf h) b xs e)
    (hne : ∀ x∈b::xs,x≠0) (hend : ∃ x∈xs,s≤x) : ∃ fuel pv,insertionWalk h s fuel b=some pv := by
  induction xs generalizing b with
  | nil => simp at hend
  | cons x xs ih =>
    have hx : (h.mem b).nextHole=x := hpath.1
    by_cases hlt : x<s
    · have hbehind : ∃ y∈xs,s≤y := by
        obtain ⟨y,hy,hle⟩ := hend
        rcases List.mem_cons.mp hy with rfl|hy
        · omega
        · exact ⟨y,hy,hle⟩
      obtain ⟨fuel,pv,hw⟩ := ih hpath.2 (fun y hy => hne y (List.mem_cons_of_mem b hy)) hbehind
      refine ⟨fuel+1,pv,?_⟩
      rw [insertionWalk,if_neg (hne b List.mem_cons_self),hx,if_pos hlt,hw]
    · refine ⟨1,b,?_⟩
      rw [insertionWalk,if_neg (hne b List.mem_cons_self),hx,if_neg hlt]

/-- A block finds its place on the search chain. -/
theorem insertionPoint_ends (hv : HeapValid h rest holes) (h0 : h.base≠0) {s : ℕ} (hs : s∈rest) :
    ∃ fuel pv,insertionPoint fuel h s=some pv := by
  obtain ⟨t,ht,hlast,hle⟩ := hv.exists_last (List.mem_cons_of_mem _ hs)
  have hwalk := insertionWalk_ends hv.holeChain (fun x hx => ?_)
    ⟨t,hv.mem_holes ht (hv.lastFree t ht hlast),hle⟩
  · obtain ⟨fuel,pv,hw⟩ := hwalk
    by_cases hlt : s<(h.mem h.base).nextHole
    · exact ⟨fuel,h.base,if_pos hlt⟩
    · exact ⟨fuel,pv,(if_neg hlt).trans hw⟩
  · rcases List.mem_cons.mp hx with rfl|hx
    · exact h0
    · exact hv.ne_zero (hv.sublist.subset hx)

/-- Which releases turn the whole block into a hole. -/
theorem freed_iff (hv : HeapValid h rest holes) {s pv fuel : ℕ} (hs : s∈rest)
    (hused : (h.mem s).isHole=false) (hpv : insertionPoint fuel h s=some pv)
    (hne : holeOf h pv≠s) {g : Heap} (hg : g=mergePrev (mergeNext (freeBlock h pv s) s) s) :
    Freed h g s ↔ Covered h s := by
  obtain ⟨rest',holes',hv',-,q,hq,hqfree,hqle,hqnext,hfront,halone⟩ :=
    released hv hs hused hpv hne hg
  have hqb : q∈g.base::rest' := List.mem_cons_of_mem _ hq
  have hroom := (hv.room s (List.mem_cons_of_mem _ hs)).1
  simp only [headerSize] at hroom
  constructor
  · rintro ⟨x,hx,-,hxle,hcover⟩ hchain hpfree
    obtain ⟨hqp,hsize⟩ := hfront ⟨hchain,hpfree⟩
    have hxb := (chained_iff hv').mp hx
    have hxq : x=q := by
      rcases Nat.lt_trichotomy x q with hlt|heq|hlt
      · obtain ⟨hn,-,hle⟩ := hv'.next_le hxb hqb hlt
        have hlimit := (hv'.room x hxb).2
        rw [limitOf,if_neg hn] at hlimit
        omega
      · exact heq
      · obtain ⟨hn,-,hle⟩ := hv'.next_le hqb hxb hlt
        omega
    rw [hxq,hsize,hqp] at hcover
    omega
  · intro hcovered
    refine ⟨q,(chained_iff hv').mpr hqb,hqfree,hqle,?_⟩
    by_cases hif : Chained h (prevOf h s) ∧ (h.mem (prevOf h s)).isHole=true
    · obtain ⟨hqp,hsize⟩ := hfront hif
      have hreach := hcovered hif.1 hif.2
      rw [hsize,hqp]
      omega
    · obtain ⟨hqs,hsize⟩ := halone hif
      rw [hsize,hqs]
      omega

/-! ## Releases of payloads -/

/-- A payload is held by one block, which is in use. -/
theorem holds_unique (hv : HeapValid h rest holes) {b b' n : ℕ} (hb : Holds h b a)
    (hb' : Busy h rest b' n) (hin : Inside b' n a) : b=b' := by
  obtain ⟨hchain,hlo,hhi⟩ := hb
  obtain ⟨hmem,-,hnext⟩ := hb'
  obtain ⟨hlo',hhi'⟩ := hin
  have hbmem := (chained_iff hv).mp hchain
  simp only [headerSize] at hlo hlo'
  rcases Nat.lt_trichotomy b b' with hlt|heq|hlt
  · have := (hv.next_le hbmem hmem hlt).2.2
    omega
  · exact heq
  · have := (hv.next_le hmem hbmem hlt).2.2
    omega

/-- A block in use lies within no hole. -/
theorem not_freed (hv : HeapValid h rest holes) {b n : ℕ} (hb : Busy h rest b n) :
    ¬Freed h h b := by
  rintro ⟨q,hq,hqfree,hle,hcover⟩
  have hqmem := (chained_iff hv).mp hq
  have hqb : q≠b := by
    rintro rfl
    rw [hb.2.1] at hqfree
    contradiction
  have hroom := (hv.room b hb.1).1
  have hlimit := (hv.room q hqmem).2
  obtain ⟨hn,-,hnext⟩ := hv.next_le hqmem hb.1 (by omega)
  rw [limitOf,if_neg hn] at hlimit
  simp only [headerSize] at hroom
  omega

/-- The size found in front of a payload. -/
theorem checkBlockSize_eq {addr : ℕ} (h0 : addr≠0) (hlo : h.base≤addr) (hhi : addr≤h.endAddr)
    (hm : (h.mem (wsub addr headerSize)).magicNum=BLOCK_HEADER_MAGIC_NUM)
    (hused : (h.mem (wsub addr headerSize)).isHole=false) :
    checkBlockSize h addr=(h.mem (wsub addr headerSize)).size := by
  have hin : ¬(h.endAddr<addr ∨ addr<h.base) := by omega
  simp only [checkBlockSize,if_neg h0,if_neg hin,hm,hused,ne_eq,not_true_eq_false,if_false,
    Bool.false_eq_true]

/-- A release with a header in front links the block and merges it. -/
theorem kfree_eq {addr fuel s pv : ℕ} (haddr : wsub addr headerSize=s) (h0 : addr≠0)
    (hlo : h.base≤addr) (hhi : addr≤h.endAddr)
    (hm : (h.mem s).magicNum=BLOCK_HEADER_MAGIC_NUM) (hpv : insertionPoint fuel h s=some pv) :
    kfree fuel h addr=some (mergePrev (mergeNext (freeBlock h pv s) s) s) := by
  have hin : ¬(h.endAddr<addr ∨ addr<h.base) := by omega
  have hmagic : ¬(h.mem s).magicNum≠BLOCK_HEADER_MAGIC_NUM := not_not.mpr hm
  simp only [HeapAllocator.kfree,haddr,if_neg h0,if_neg hin,if_neg hmagic,insertionPoint_set,hpv]
  rfl

/-- Among the releases that meet no defect of the search chain, those that give
the caller what it relies on find the header in front of the payload and are
not merged with a hole that falls short. -/
theorem freeSound_iff (ht : SizedSystem t) (ha : a∈t.live) (hg : Guard t (.kfree a)) :
    FreeSound t a ↔
      (t.heap.mem (wsub a.addr headerSize)).magicNum=BLOCK_HEADER_MAGIC_NUM ∧
        Covered t.heap (wsub a.addr headerSize) := by
  have h0 := ht.base (List.ne_nil_of_mem ha)
  rcases ht.valid with ⟨-,hlive⟩|⟨rest,holes,hv,hc⟩
  · simp [hlive] at ha
  by_cases hm : (t.heap.mem (wsub a.addr headerSize)).magicNum≠BLOCK_HEADER_MAGIC_NUM
  · -- the release is ignored, and the block stays in use
    refine iff_of_false (fun hsound => ?_) fun hand => hm hand.1
    obtain ⟨fuel,h',call⟩ := hsound.returns
    obtain ⟨b,hb,hfreed⟩ := hsound.freed fuel h' call
    obtain rfl := kfree_of_magic hm call
    obtain ⟨b',n,hbusy,hin⟩ := hc.held a ha
    obtain rfl := holds_unique hv hb hbusy hin
    exact not_freed hv hbusy hfreed
  · obtain ⟨hreach,hbase,hne⟩ := hg.resolve_left hm
    rw [not_not] at hm
    rw [and_iff_right hm]
    obtain ⟨s,hs⟩ : ∃ s,wsub a.addr headerSize=s := ⟨_,rfl⟩
    rw [hs] at hreach hbase hne hm ⊢
    have hmem : s∈rest := (List.mem_cons.mp (reachable_mem hv hreach)).resolve_left hbase
    obtain ⟨n,hb,hin,hend,haddr⟩ := hc.header hv ha (hs.symm▸hmem)
    rw [hs] at hb hin haddr
    have hlo := hv.base_lt hmem
    simp only [headerSize] at hlo haddr
    have hcases : ∀ {fuel h'},kfree fuel t.heap a.addr=some h' →
        ∃ pv,insertionPoint fuel t.heap s=some pv ∧
          h'=mergePrev (mergeNext (freeBlock t.heap pv s) s) s := by
      intro fuel h' call
      refine (kfree_cases hs call).resolve_left fun hand => ?_
      rcases hand.2 with hz|hout|hout|hno
      · omega
      · omega
      · omega
      · exact hno hm
    have hholds : Holds t.heap s a := ⟨(chained_iff hv).mpr hb.1,hb.2.2.symm▸hin⟩
    obtain ⟨fuel₀,pv₀,hpv₀⟩ := insertionPoint_ends hv h0 hmem
    have hcall := kfree_eq hs (by omega) (by omega) hend hm hpv₀
    constructor
    · intro hsound
      obtain ⟨b,hbHolds,hfreed⟩ := hsound.freed fuel₀ _ hcall
      obtain rfl := holds_unique hv hbHolds hb hin
      exact (freed_iff hv hmem hb.2.1 hpv₀ (hne fuel₀ pv₀ hpv₀) rfl).mp hfreed
    · intro hcovered
      constructor
      case size =>
        have hsized := (sized_iff hv).mp ht.sized a ha s n hb hin
        rw [checkBlockSize_eq (by omega) (by omega) hend (hs.symm▸hm) (hs.symm▸hb.2.1),hs]
        exact (Nat.le_add_right _ _).trans hsized
      case returns => exact ⟨fuel₀,_,hcall⟩
      case freed =>
        intro fuel h' call
        obtain ⟨pv,hpv,hg'⟩ := hcases call
        exact ⟨s,hholds,(freed_iff hv hmem hb.2.1 hpv (hne fuel pv hpv) hg').mpr hcovered⟩
      case others =>
        intro fuel h' call a' ha'
        obtain ⟨pv,hpv,hg'⟩ := hcases call
        obtain ⟨rest',holes',hv',hbusy,-⟩ := released hv hmem hb.2.1 hpv (hne fuel pv hpv) hg'
        have hc' := hc.remove hbusy hb ha hin fun e he => he.2.2.symm.trans hb.2.2
        obtain ⟨b,m,hbm,hbin⟩ := hc'.held a' ha'
        exact ⟨b,⟨(chained_iff hv').mpr hbm.1,hbm.2.2.symm▸hbin⟩,hbm.2.1⟩

/-- No payload with padding in front gets what it is released for. -/
theorem FreeSound.unpadded (ht : SizedSystem t) (ha : a∈t.live) (hg : Guard t (.kfree a))
    (hsound : FreeSound t a) : ∃ b,Holds t.heap b a ∧ b+headerSize=a.addr := by
  have hm := ((freeSound_iff ht ha hg).mp hsound).1
  rcases ht.valid with ⟨-,hlive⟩|⟨rest,holes,hv,hc⟩
  · simp [hlive] at ha
  obtain ⟨hreach,hbase,-⟩ := hg.resolve_left (not_not.mpr hm)
  have hmem := (List.mem_cons.mp (reachable_mem hv hreach)).resolve_left hbase
  obtain ⟨n,hb,hin,-,haddr⟩ := hc.header hv ha hmem
  exact ⟨_,⟨(chained_iff hv).mpr hb.1,hb.2.2.symm▸hin⟩,haddr⟩

/-! ## Runs -/

/-- After every run whose steps meet no defect, a release that meets none either
gives the caller what it relies on exactly where it finds the header in front
of the payload and no hole that falls short. -/
theorem run_freeSound_iff {mem : ℕ → BlockHeader} {heapBase mapLimit : ℕ}
    (hsize : heapBase+headerSize ≤ mapLimit) (hword : mapLimit<2^32) {ops : List HeapOp}
    (hrun : Run (Guarded (Step mmapPages) Guard) (initial mem heapBase mapLimit) ops t)
    (ha : a∈t.live) (hg : Guard t (.kfree a)) :
    FreeSound t a ↔
      (t.heap.mem (wsub a.addr headerSize)).magicNum=BLOCK_HEADER_MAGIC_NUM ∧
        Covered t.heap (wsub a.addr headerSize) := by
  refine freeSound_iff (Run.guarded_invariant ?_ hrun ?_) ha hg
  · exact fun hs hg hstep => hs.step hg hstep
  · refine ⟨Or.inl (initial_fresh mem hsize hword),?_,fun hne => absurd rfl hne⟩
    intro a ha
    simp [initial] at ha

/-- The second of two payloads is released. -/
theorem run_freeSound_release : ∃ t,Run (Guarded (Step noPages) Guard) sample
      [.kmallocAlign 48 16,.kmallocAlign 48 16] t ∧ ⟨0xC0400070,48⟩∈t.live ∧
    FreeSound t ⟨0xC0400070,48⟩ := by
  obtain ⟨s₁,s₂,s₃,h₁,h₂,⟨hg,hfree⟩,-,-,-,hmagic,hprev⟩ := sample_release
  have hheld : ⟨0xC0400070,48⟩∈s₂.live := by
    cases hfree with
    | kfree held _ => exact held
  have hrun : Run (Guarded (Step noPages) Guard) sample
      [.kmallocAlign 48 16,.kmallocAlign 48 16] s₂ := Run.cons h₁ (Run.cons h₂ (Run.nil s₂))
  refine ⟨s₂,hrun,hheld,(run_freeSound_iff (by decide) (by decide) hrun hheld hg).mpr
    ⟨hmagic,fun _ hpfree => ?_⟩⟩
  exact absurd hpfree (by rw [show wsub 0xC0400070 headerSize=0xC0400050 by decide,hprev]; decide)

/-- Padding in front of a page-aligned payload: the header is not found. -/
theorem freeSound_counterexample :
    ¬∀ (mmapPages : Heap → ℕ → ℕ → Option (Heap×ℕ)) (mem : ℕ → BlockHeader)
      (heapBase mapLimit : ℕ) (ops : List HeapOp) (t : HeapSystem) (a : Alloc),
      heapBase+headerSize ≤ mapLimit → mapLimit<2^32 →
      Run (Step mmapPages) (initial mem heapBase mapLimit) ops t → a∈t.live → FreeSound t a := by
  intro hclaim
  obtain ⟨t,ht,hfacts⟩ : ∃ t,([HeapOp.kmallocAlign 4096 4096].foldlM (exec noPages 1) sample)=
      some t ∧ (t.live,checkBlockSize t.heap 0xC0401000)=([⟨0xC0401000,4096⟩],0) :=
    Option.map_eq_some_iff.mp (by decide)
  obtain ⟨hlive,hsize⟩ := Prod.mk.inj hfacts
  have hsound := hclaim noPages zeroMem 0xC0400000 0xC1000000 _ t ⟨0xC0401000,4096⟩ (by decide)
    (by decide) (exec_run ht) (by rw [hlive]; exact List.mem_cons_self)
  have hcover := hsound.size
  rw [hsize] at hcover
  revert hcover
  decide

end XanaduOS.HeapReleases
