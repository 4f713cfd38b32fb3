import XanaduOS.HeapRuns

/-!
# Tiling of the kernel heap

Blocks tile the heap when each ends where its successor starts and back links
name predecessors. Among the steps that keep payloads apart, those that keep
the tiling are exactly the ones without padding in front of a payload, without
a hole larger than the allocation it is used for, and without a merge whose
successor keeps a back link to the block merged away.
-/

namespace XanaduOS.HeapTiling

open Word32 HeapAllocator Chains Runs HeapBlocks HeapRuns

/-- The successor of a block points back at it. -/
def Backed (h : Heap) (b : ℕ) : Prop := nextOf h b≠0 → prevOf h (nextOf h b)=b

/-- A block that ends where the next one starts, or at the heap's end, and
whose successor points back at it. -/
def Exact (h : Heap) (b : ℕ) : Prop := b+(h.mem b).size=limitOf h b ∧ Backed h b

/-- Blocks in address order that tile the heap. -/
structure Tiles (h : Heap) (rest : List ℕ) : Prop where
  /-- Blocks are chained up to a null pointer. -/
  chain : Path (nextOf h) h.base rest 0
  /-- They are in address order. -/
  ascending : (h.base::rest).Pairwise (· < ·)
  /-- Each meets its neighbour. -/
  exact_ : ∀ b∈h.base::rest,Exact h b

/-- A heap tiled by its blocks. -/
def Tiled (h : Heap) : Prop := ∃ rest,Tiles h rest

variable {h g : Heap} {rest holes : List ℕ}

/-- Nothing between a block and the heap's end is lost. -/
theorem covers_from {b x : ℕ} (hpath : Path (nextOf h) b rest 0)
    (hexact : ∀ y∈b::rest,Exact h y) (hlo : b≤x) (hhi : x<h.endAddr) (hne : 0∉rest) :
    ∃ y∈b::rest,y≤x ∧ x<y+(h.mem y).size := by
  induction rest generalizing b with
  | nil =>
    have hend : nextOf h b=0 := hpath
    have hsize := (hexact b List.mem_cons_self).1
    rw [limitOf,if_pos hend] at hsize
    exact ⟨b,List.mem_cons_self,hlo,by omega⟩
  | cons y rest ih =>
    have hnext : nextOf h b=y := hpath.1
    have hsize := (hexact b List.mem_cons_self).1
    have hy : y≠0 := by
      rintro rfl
      exact hne List.mem_cons_self
    rw [limitOf,hnext,if_neg hy] at hsize
    rcases Nat.lt_or_ge x y with hlt|hge
    · exact ⟨b,List.mem_cons_self,hlo,by omega⟩
    · obtain ⟨z,hz,hin⟩ := ih hpath.2 (fun z hz => hexact z (List.mem_cons_of_mem b hz)) hge
        fun hmem => hne (List.mem_cons_of_mem y hmem)
      exact ⟨z,List.mem_cons_of_mem b hz,hin⟩

/-- A block behind the first is not null. -/
theorem Tiles.zero_notMem (ht : Tiles h rest) : 0∉rest := fun h0 =>
  absurd ((List.pairwise_cons.mp ht.ascending).1 0 h0) (Nat.not_lt_zero _)

/-- Every address of the heap lies in a block. -/
theorem Tiles.covers (ht : Tiles h rest) {x : ℕ} (hlo : h.base≤x) (hhi : x<h.endAddr) :
    ∃ b∈h.base::rest,b≤x ∧ x<b+(h.mem b).size :=
  covers_from ht.chain ht.exact_ hlo hhi ht.zero_notMem

/-- The blocks of a valid heap are those that have to tile it. -/
theorem tiled_iff (hv : HeapValid h rest holes) : Tiled h ↔ ∀ b∈h.base::rest,Exact h b := by
  constructor
  · rintro ⟨rest',ht⟩
    obtain rfl := ht.chain.unique hv.chain ht.zero_notMem fun h0 => hv.ne_zero h0 rfl
    exact ht.exact_
  · intro hexact
    refine ⟨rest,hv.chain,hv.apart.imp fun hle => ?_,hexact⟩
    simp only [headerSize] at hle
    omega

/-- Only the headers of the blocks count. -/
theorem Exact.congr {b : ℕ} (hx : Exact h b) (hend : g.endAddr=h.endAddr)
    (hnext : nextOf g b=nextOf h b) (hsize : (g.mem b).size=(h.mem b).size)
    (hprev : nextOf h b≠0 → prevOf g (nextOf h b)=prevOf h (nextOf h b)) : Exact g b := by
  rw [Exact,Backed,limitOf,hnext,hsize,hend]
  exact ⟨hx.1,fun hn => (hprev hn).trans (hx.2 hn)⟩

/-! ## Allocation -/

/-- An allocation from the last block tiles when nothing lies between the
header and the payload. -/
theorem exact_split_iff (blocks : List ℕ) {s size dataBase new : ℕ} (hs : s∈blocks)
    (hlast : nextOf h s=0) (hexact : ∀ b∈blocks,Exact h b)
    (hclosed : ∀ b∈blocks,nextOf h b≠0 → nextOf h b∈blocks) (hoff : ∀ b∈blocks,new≠b)
    (hbase : h.base∈blocks) (hdata : s+headerSize≤dataBase) (hnew : dataBase+size=new)
    (hend : new+headerSize≤h.endAddr) (hword : h.endAddr<2^32) :
    (∀ b∈blocks++[new],Exact (takeBlock h s size dataBase) b) ↔ dataBase=s+headerSize := by
  simp only [headerSize] at hdata hend ⊢
  have hfields := takeBlock_split_spec hlast ((wadd_eq (by omega)).trans hnew) (hoff s hs)
    (hoff h.base hbase)
  have hlimit := (takeBlock_limits h s size dataBase).2
  set g := takeBlock h s size dataBase
  obtain ⟨hnexts,-,hsizes,-,-⟩ := hfields s
  obtain ⟨hnextn,-,hsizen,-,hprevn⟩ := hfields new
  rw [if_pos rfl] at hnexts hsizes hprevn
  rw [if_neg (hoff s hs),if_pos rfl] at hnextn hsizen
  rw [wadd_eq (by simp only [headerSize]; omega)] at hsizes
  rw [wsub_eq (by omega) hword,wsub_eq (by omega) (by omega)] at hsizen
  simp only [headerSize] at hsizes
  constructor
  · intro hall
    have htile := (hall s (List.mem_append_left _ hs)).1
    rw [limitOf,hnexts,if_neg (by omega),hsizes] at htile
    omega
  · intro hdense b hb
    rcases List.mem_append.mp hb with hb|hb
    · by_cases hbs : b=s
      · rw [hbs,Exact,Backed,limitOf,hnexts,if_neg (by omega),hsizes]
        exact ⟨by omega,fun _ => hprevn⟩
      · obtain ⟨hnext,-,hsize,-,-⟩ := hfields b
        rw [if_neg hbs,if_neg (hoff b hb).symm] at hnext hsize
        refine (hexact b hb).congr hlimit hnext hsize fun hn => ?_
        rw [(hfields (nextOf h b)).2.2.2.2,if_neg (hoff _ (hclosed b hb hn)).symm]
    · rw [List.mem_singleton.mp hb,Exact,Backed,limitOf,hnextn,if_pos rfl,hsizen,hlimit]
      exact ⟨by omega,fun hn => absurd rfl hn⟩

/-- A hole used whole tiles when the allocation is as large as the hole. -/
theorem exact_reuse_iff {blocks : List ℕ} {s size : ℕ} (hs : s∈blocks)
    (hexact : ∀ b∈blocks,Exact h b) :
    (∀ b∈blocks,Exact (h.set s fun b => {b with isHole := false,size := size}) b) ↔
      size=(h.mem s).size := by
  have hfields : ∀ y,nextOf (h.set s fun b => {b with isHole := false,size := size}) y=nextOf h y ∧
      prevOf (h.set s fun b => {b with isHole := false,size := size}) y=prevOf h y ∧
      ((h.set s fun b => {b with isHole := false,size := size}).mem y).size=
        (if y=s then size else (h.mem y).size) := by
    intro y
    simp only [nextOf,prevOf,set_mem]
    grind
  constructor
  · intro hall
    have hnew := (hall s hs).1
    have hold := (hexact s hs).1
    rw [limitOf,(hfields s).1,(hfields s).2.2,if_pos rfl,set_endAddr] at hnew
    rw [limitOf] at hold
    omega
  · intro hsize b hb
    refine (hexact b hb).congr rfl (hfields b).1 ?_ fun _ => (hfields _).2.1
    rw [(hfields b).2.2]
    split
    case isTrue heq => rw [hsize,heq]
    case isFalse => rfl

/-! ## Release -/

/-- Blocks with one successor are one block. -/
theorem next_injective (hv : HeapValid h rest holes) {a b : ℕ} (ha : a∈h.base::rest)
    (hb : b∈h.base::rest) (heq : nextOf h a=nextOf h b) (hn : nextOf h b≠0) : a=b := by
  have hlta := hv.lt_next ha (heq▸hn)
  have hltb := hv.lt_next hb hn
  simp only [headerSize] at hlta hltb
  rcases Nat.lt_trichotomy a b with hlt|heq'|hlt
  · have := (hv.next_le ha hb hlt).2.2
    omega
  · exact heq'
  · have := (hv.next_le hb ha hlt).2.2
    omega

/-- A block behind the first has a predecessor. -/
theorem exists_prev (hv : HeapValid h rest holes) {s : ℕ} (hs : s∈rest) :
    ∃ p∈h.base::rest,nextOf h p=s := by
  obtain ⟨xs,ys,rfl⟩ := List.append_of_mem hs
  have hlast := (path_append.mp hv.chain).1
  rw [←List.append_nil xs] at hlast
  refine ⟨(h.base::xs).getLast (by simp),?_,hlast.split.2⟩
  rw [←List.cons_append]
  exact List.mem_append_left _ (List.getLast_mem _)

/-- A hole that takes over its successor ends where the successor did. -/
theorem sized_absorb {s n : ℕ} (ha : Absorbs h g s n) (hn : nextOf h s=n) (hn0 : n≠0)
    (hs : s∈h.base::rest) (hnmem : n∈h.base::rest)
    (hsized : ∀ b∈h.base::rest,b+(h.mem b).size=limitOf h b) {b : ℕ} (hb : b∈h.base::rest)
    (hbn : b≠n) : b+(g.mem b).size=limitOf g b := by
  by_cases hbs : b=s
  · have h0 := hsized s hs
    have h1 := hsized n hnmem
    rw [limitOf,hn,if_neg hn0] at h0
    rw [hbs,ha.size,limitOf,ha.next,ha.endAddr]
    rw [limitOf] at h1
    omega
  · obtain ⟨hnext,-,hsize,-⟩ := ha.other b hbs hbn
    rw [limitOf,hnext,hsize,ha.endAddr]
    exact hsized b hb

/-- The hole behind a block has a successor. -/
def Strands (h : Heap) (s : ℕ) : Prop :=
  nextOf h s≠0 ∧ (h.mem (nextOf h s)).isHole=true ∧ nextOf h (nextOf h s)≠0

/-- The merge with the next block. Its successor keeps a back link to the
block merged away. -/
theorem after_mergeNext (hv : HeapValid h rest holes) {s : ℕ} (hs : s∈rest)
    (hsfree : (h.mem s).isHole=true) (hexact : ∀ b∈h.base::rest,Exact h b) :
    ∃ rest' holes',HeapValid (mergeNext h s) rest' holes' ∧ s∈rest' ∧
      ((mergeNext h s).mem s).isHole=true ∧
      (∀ b∈(mergeNext h s).base::rest',
        b+((mergeNext h s).mem b).size=limitOf (mergeNext h s) b) ∧
      (∀ b∈(mergeNext h s).base::rest',b≠s → Backed (mergeNext h s) b) ∧
      (Backed (mergeNext h s) s ↔ ¬Strands h s) ∧
      (∀ b∈h.base::rest,b≠nextOf h s → prevOf (mergeNext h s) b=prevOf h b) ∧
      ∀ b,((mergeNext h s).mem b).isHole=(h.mem b).isHole := by
  have hsb : s∈h.base::rest := List.mem_cons_of_mem _ hs
  by_cases hcond : nextOf h s≠0 ∧ (h.mem (nextOf h s)).isHole=true
  · obtain ⟨hn0,hnfree⟩ := hcond
    have hlt := hv.lt_next hsb hn0
    simp only [headerSize] at hlt
    have hnrest := hv.next_mem hsb hn0
    have hnb : nextOf h s∈h.base::rest := List.mem_cons_of_mem _ hnrest
    have habs := hv.absorbs_mergeNext hs hsfree hn0 hnfree
    obtain ⟨-,-,hfields⟩ := mergeNext_spec hn0 hnfree (by omega)
    have hmem : ∀ b∈h.base::rest.erase (nextOf h s),b∈h.base::rest ∧ b≠nextOf h s := fun b =>
      (hv.mem_erase hnrest).mp
    refine ⟨_,_,(hv.absorb habs hs hsfree rfl hn0 hnfree).1,?_,habs.free,?_,?_,?_,?_,?_⟩
    · exact ((List.nodup_cons.mp hv.nodup).2.mem_erase_iff).mpr ⟨by omega,hs⟩
    · rw [habs.base]
      intro b hb
      exact sized_absorb habs rfl hn0 hsb hnb (fun y hy => (hexact y hy).1) (hmem b hb).1
        (hmem b hb).2
    · rw [habs.base]
      intro b hb hbs
      obtain ⟨hb,hbn⟩ := hmem b hb
      rw [Backed,(habs.other b hbs hbn).1]
      intro hnb'
      rw [(hfields _).2.2.2.2]
      · exact (hexact b hb).2 hnb'
      · exact fun heq => hbs (next_injective hv hb hsb heq hn0)
    · rw [Backed,habs.next,Strands]
      constructor
      · rintro hback ⟨-,-,hnn⟩
        have hltn := hv.lt_next hnb hnn
        simp only [headerSize] at hltn
        have hstale := hback hnn
        rw [(hfields _).2.2.2.2 (by omega),(hexact _ hnb).2 hnn] at hstale
        omega
      · exact fun hstay hnn => absurd ⟨hn0,hnfree,hnn⟩ hstay
    · exact fun b _ hbn => (hfields b).2.2.2.2 hbn
    · exact fun b => (hfields b).2.2.2.1
  · have hsame := mergeNext_of_not hcond
    rw [hsame]
    refine ⟨rest,holes,hv,hs,hsfree,fun b hb => (hexact b hb).1,fun b hb _ => (hexact b hb).2,
      iff_of_true (hexact s hsb).2 ?_,fun _ _ _ => rfl,fun _ => rfl⟩
    exact fun hstrands => hcond ⟨hstrands.1,hstrands.2.1⟩

/-- The merge into the block before. It renews the back link of the successor. -/
theorem after_mergePrev (hv : HeapValid h rest holes) {s : ℕ} (hs : s∈rest)
    (hsfree : (h.mem s).isHole=true) (hsized : ∀ b∈h.base::rest,b+(h.mem b).size=limitOf h b)
    (hbacked : ∀ b∈h.base::rest,b≠s → Backed h b) :
    Tiled (mergePrev h s) ↔
      Backed h s ∨ (prevOf h s≠0 ∧ (h.mem (prevOf h s)).isHole=true) := by
  have hsb : s∈h.base::rest := List.mem_cons_of_mem _ hs
  have hs0 := hv.ne_zero hs
  obtain ⟨p,hp,hpnext⟩ := exists_prev hv hs
  have hlt := hv.lt_next hp (hpnext.symm▸hs0)
  rw [hpnext] at hlt
  simp only [headerSize] at hlt
  have hprev : prevOf h s=p := by
    have := hbacked p hp (by omega) (hpnext.symm▸hs0)
    rwa [hpnext] at this
  by_cases hcond : prevOf h s≠0 ∧ (h.mem (prevOf h s)).isHole=true
  · refine iff_of_true ?_ (Or.inr hcond)
    obtain ⟨hp0,hpfree⟩ := hcond
    obtain ⟨hprest,habs⟩ := hv.absorbs_mergePrev hs hp0 hpfree (hprev.symm▸hp)
      (hprev.symm▸hpnext)
    obtain ⟨-,-,hfields⟩ := mergePrev_spec hp0 hpfree (by omega)
    rw [hprev] at hprest habs hfields hpfree
    refine (tiled_iff (hv.absorb habs hprest hpfree hpnext hs0 hsfree).1).mpr fun b hb => ?_
    rw [habs.base] at hb
    obtain ⟨hb,hbs⟩ := (hv.mem_erase hs).mp hb
    refine ⟨sized_absorb habs hpnext hs0 hp hsb hsized hb hbs,?_⟩
    by_cases hbp : b=p
    · rw [hbp,Backed,habs.next]
      exact fun hn => (hfields _).2.2.2.2.trans (if_pos ⟨rfl,hn⟩)
    · rw [Backed,(habs.other b hbp hbs).1]
      intro hn
      rw [(hfields _).2.2.2.2,if_neg]
      · exact hbacked b hb hbs hn
      · exact fun hand => hbs (next_injective hv hb hsb hand.1 hand.2)
  · rw [mergePrev_of_not hcond,tiled_iff hv]
    constructor
    · exact fun hexact => Or.inl (hexact s hsb).2
    · intro hor b hb
      refine ⟨hsized b hb,?_⟩
      by_cases hbs : b=s
      · exact hbs▸hor.resolve_right hcond
      · exact hbacked b hb hbs

/-- Freeing a block tiles unless the block behind the hole behind it keeps a
back link to that hole: then a hole in front has to renew it. -/
theorem tiled_free_iff (hv : HeapValid h rest holes) {s pv fuel : ℕ} (hs : s∈rest)
    (hused : (h.mem s).isHole=false) (hw : insertionPoint fuel h s=some pv)
    (hne : holeOf h pv≠s) (hexact : ∀ b∈h.base::rest,Exact h b) :
    Tiled (mergePrev (mergeNext (freeBlock h pv s) s) s) ↔
      ¬Strands h s ∨ (prevOf h s≠0 ∧ (h.mem (prevOf h s)).isHole=true) := by
  have hsb : s∈h.base::rest := List.mem_cons_of_mem _ hs
  have hpvs := hv.insertionPoint_ne hs hw
  obtain ⟨holes₁,hv₁,-⟩ := hv.link hs hused hw hne
  have hfields := freeBlock_spec (h:=h) hpvs
  have hexact₁ : ∀ b∈h.base::rest,Exact (freeBlock h pv s) b := fun b hb =>
    (hexact b hb).congr rfl (hfields b).1 (hfields b).2.2.2.1 fun _ => (hfields _).2.1
  obtain ⟨rest₂,holes₂,hv₂,hs₂,hsfree₂,hsized,hbacked,hstrands,hprev,hhole⟩ :=
    after_mergeNext hv₁ hs (freeBlock_free h hpvs) hexact₁
  have hnext : nextOf h s≠s := by
    intro heq
    have := hv.lt_next hsb (heq.symm▸hv.ne_zero hs)
    simp only [headerSize] at this
    omega
  obtain ⟨p,hp,hpnext⟩ := exists_prev hv hs
  have hpback : prevOf h s=p := by
    have := (hexact p hp).2 (hpnext.symm▸hv.ne_zero hs)
    rwa [hpnext] at this
  have hps : p≠s := fun heq => hnext (heq▸hpnext)
  have hsame : Strands (freeBlock h pv s) s ↔ Strands h s := by
    rw [Strands,Strands,(hfields s).1,(hfields (nextOf h s)).1,(hfields (nextOf h s)).2.2.2.2,
      if_neg hnext]
  have hprevs : prevOf (mergeNext (freeBlock h pv s) s) s=p := by
    rw [hprev s hsb (by rw [(hfields s).1]; exact hnext.symm),(hfields s).2.1,hpback]
  rw [after_mergePrev hv₂ hs₂ hsfree₂ hsized hbacked,hstrands,hsame,hprevs,hhole,
    (hfields p).2.2.2.2,if_neg hps,hpback]

/-! ## Runs -/

/-- An allocation that leaves nothing over: without padding from the last
block, of all bytes from another one. -/
def Dense (h : Heap) (header size dataBase : ℕ) : Prop :=
  if nextOf h header=0 then dataBase=header+headerSize
  else size+headerSize=(h.mem header).size

instance (h : Heap) (header size dataBase : ℕ) : Decidable (Dense h header size dataBase) :=
  inferInstanceAs (Decidable (if nextOf h header=0 then dataBase=header+headerSize
    else size+headerSize=(h.mem header).size))

/-- Steps that leave nothing over and no back link behind. -/
def Tight (s : HeapSystem) : HeapOp → Prop
  | .kmallocAlign siz alignment => siz=0 ∨ ∀ fuel header,
      searchHole s.heap (roundUp siz (effectiveAlignment alignment))
        (effectiveAlignment alignment) fuel s.heap.base 0=some (.found header) →
      Dense s.heap header (roundUp siz (effectiveAlignment alignment))
        (roundUp (getDataBase header) (effectiveAlignment alignment))
  | .kfree a => (s.heap.mem (wsub a.addr headerSize)).magicNum≠BLOCK_HEADER_MAGIC_NUM ∨
      ¬Strands s.heap (wsub a.addr headerSize) ∨
      (prevOf s.heap (wsub a.addr headerSize)≠0 ∧
        (s.heap.mem (prevOf s.heap (wsub a.addr headerSize))).isHole=true)
  | .clientWrite => True

variable {mmapPages : Heap → ℕ → ℕ → Option (Heap×ℕ)} {s t : HeapSystem}

/-- The search decides on the block that has to be used up. -/
theorem tight_request_iff {fuel siz alignment b : ℕ} (hsiz : siz≠0)
    (hb : searchHole s.heap (roundUp siz (effectiveAlignment alignment))
      (effectiveAlignment alignment) fuel s.heap.base 0=some (.found b)) :
    Tight s (.kmallocAlign siz alignment) ↔
      Dense s.heap b (roundUp siz (effectiveAlignment alignment))
        (roundUp (getDataBase b) (effectiveAlignment alignment)) := by
  constructor
  · exact fun htight => htight.resolve_left hsiz fuel b hb
  · refine fun hdense => Or.inr fun fuel' b' hb' => ?_
    obtain rfl : b=b' := by simpa using searchHole_unique hb hb'
    exact hdense

/-- Which requests keep the tiling. -/
theorem tiled_request_iff (hs : SystemValid s) (ht : Tiled s.heap) {fuel siz alignment p : ℕ}
    {h' : Heap} (hsiz : siz≠0) (hg : Guard s (.kmallocAlign siz alignment))
    (call : kmallocAlign mmapPages fuel s.heap siz alignment=some (h',p)) :
    Tiled h' ↔ Tight s (.kmallocAlign siz alignment) := by
  have hgfit := hg.resolve_left hsiz
  rcases hs with ⟨hv,-⟩|⟨rest,holes,hv,-⟩
  · obtain ⟨hb,hfit,rfl,rfl,hend⟩ := HeapFresh.chosen hv hsiz hgfit call
    rw [tight_request_iff hsiz hb,Dense,if_pos hv.next,
      tiled_iff (hv.allocate hfit.data rfl hend).1,(takeBlock_limits ..).1]
    have hdata := hfit.data
    simp only [headerSize] at hdata
    refine exact_split_iff [s.heap.base] List.mem_cons_self hv.next ?_ ?_ ?_
      List.mem_cons_self hfit.data rfl hend hv.word
    · intro b hb
      rw [List.mem_singleton.mp hb,Exact,Backed,limitOf,if_pos hv.next]
      exact ⟨hv.size,fun hn => absurd hv.next hn⟩
    · intro b hb hn
      rw [List.mem_singleton.mp hb] at hn
      exact absurd hv.next hn
    · intro b hb
      rw [List.mem_singleton.mp hb]
      omega
  · obtain ⟨b,hb,hfree,hfound,hfit,hroom,rfl,rfl,hend⟩ := HeapValid.chosen hv hsiz hgfit call
    have hexact := (tiled_iff hv).mp ht
    have hdata := hfit.data
    have hbmem : b∈s.heap.base::rest := List.mem_cons_of_mem _ hb
    rw [tight_request_iff hsiz hfound,Dense]
    simp only [headerSize] at hdata
    split
    case isTrue hlast =>
      obtain ⟨holes',hv',-⟩ := hv.extend hb hlast hfit.data rfl (hend hlast)
      rw [tiled_iff hv',(takeBlock_limits ..).1,←List.cons_append]
      refine exact_split_iff _ hbmem hlast hexact
        (fun x hx hn => List.mem_cons_of_mem _ (hv.next_mem hx hn)) (fun x hx => ?_)
        List.mem_cons_self hfit.data rfl (hend hlast) hv.word
      have := hv.le_last hb hlast hx
      omega
    case isFalse hn =>
      have hin := hv.inside hbmem
      have hword := hv.word
      have hfits : roundUp siz (effectiveAlignment alignment)+headerSize≤(s.heap.mem b).size := by
        simp only [headerSize]
        omega
      have hv' := (hv.reuse hb hfree hn (Nat.le_add_left headerSize _) hfits).1
      rw [takeBlock_whole (hfit.whole.resolve_left hn) (by simp only [headerSize]; omega),
        tiled_iff hv']
      exact exact_reuse_iff hbmem hexact

/-- Which releases keep the tiling. -/
theorem tiled_release_iff (hs : SystemValid s) (ht : Tiled s.heap) {fuel : ℕ} {a : Alloc}
    {h' : Heap} (hg : Guard s (.kfree a)) (ha : a∈s.live)
    (call : kfree fuel s.heap a.addr=some h') : Tiled h' ↔ Tight s (.kfree a) := by
  rcases hs with ⟨-,hlive⟩|⟨rest,holes,hv,hc⟩
  · simp [hlive] at ha
  by_cases hm : (s.heap.mem (wsub a.addr headerSize)).magicNum≠BLOCK_HEADER_MAGIC_NUM
  · obtain rfl := kfree_of_magic hm call
    exact iff_of_true ht (Or.inl hm)
  obtain ⟨hreach,hbase,hne⟩ := hg.resolve_left hm
  have hmem : wsub a.addr headerSize∈rest :=
    (List.mem_cons.mp (reachable_mem hv hreach)).resolve_left hbase
  obtain ⟨n,hb,-,hle,haddr⟩ := hc.header hv ha hmem
  have hlo := hv.base_lt hmem
  simp only [headerSize] at hlo haddr
  rcases kfree_cases (s:=wsub a.addr headerSize) rfl call with ⟨-,h0|hend|hfront|hm'⟩|⟨pv,hpv,heq⟩
  · omega
  · omega
  · omega
  · exact absurd hm' hm
  · rw [heq,tiled_free_iff hv hmem hb.2.1 hpv (hne fuel pv hpv) ((tiled_iff hv).mp ht)]
    exact (or_iff_right hm).symm

/-- Writes to held memory keep the tiling. -/
theorem tiled_clientWrite (hs : SystemValid s) (ht : Tiled s.heap) {mem : ℕ → BlockHeader}
    (frame : ∀ y,(∀ a∈s.live,y+headerSize≤a.addr ∨ a.addr+a.size≤y) →
      (∀ b,Reachable s.heap b → y≠b → y+headerSize≤b ∨ b+headerSize≤y) →
      mem y=s.heap.mem y) : Tiled {s.heap with mem := mem} := by
  suffices hkeep : ∀ rest,Tiles s.heap rest → (∀ b∈s.heap.base::rest,mem b=s.heap.mem b) →
      Tiles {s.heap with mem := mem} rest by
    obtain ⟨rest,htiles⟩ := ht
    refine ⟨rest,hkeep rest htiles ?_⟩
    rcases hs with ⟨hv,hlive⟩|⟨rest',holes,hv,hc⟩
    · have hrest : rest=[] := htiles.chain.unique (show Path _ _ [] 0 from hv.next)
        htiles.zero_notMem (by simp)
      intro b hb
      rw [hrest,List.mem_singleton] at hb
      exact frame b (by simp [hlive]) fun x hx hne =>
        absurd (hb.trans (reachable_fresh hv hx).symm) hne
    · obtain rfl := htiles.chain.unique hv.chain htiles.zero_notMem fun h0 => hv.ne_zero h0 rfl
      exact clientWrite_keeps hv hc frame
  intro rest htiles hkeep
  refine ⟨htiles.chain.congr fun b hb => ?_,htiles.ascending,fun b hb => ?_⟩
  · simp only [nextOf,hkeep b hb]
  · refine (htiles.exact_ b hb).congr rfl ?_ ?_ fun hn => ?_
    · simp only [nextOf,hkeep b hb]
    · simp only [hkeep b hb]
    · have hnext := (htiles.chain.next_mem hb).resolve_right hn
      simp only [prevOf,hkeep _ (List.mem_cons_of_mem _ hnext)]

/-- Of the steps that keep payloads apart, those that leave nothing over keep
the tiling and the others break it. -/
theorem step_tiled_iff (hs : SystemValid s) (ht : Tiled s.heap) {op : HeapOp} (hg : Guard s op)
    (hstep : Step mmapPages s op t) : Tiled t.heap ↔ Tight s op := by
  cases hstep with
  | @kmallocAlign _ siz _ _ _ call =>
    by_cases hsiz : siz=0
    · subst hsiz
      rw [kmallocAlign_zero call]
      exact iff_of_true ht (Or.inl rfl)
    · exact tiled_request_iff hs ht hsiz hg call
  | kfree held call => exact tiled_release_iff hs ht hg held call
  | clientWrite frame => exact iff_of_true (tiled_clientWrite hs ht frame) trivial

/-- Steps that keep payloads apart and leave nothing over. -/
def TilingGuard (s : HeapSystem) (op : HeapOp) : Prop := Guard s op ∧ Tight s op

/-- The first hole is the whole heap. -/
theorem heapInit_tiled (hv : HeapFresh h) : Tiled h := by
  refine ⟨[],hv.next,List.pairwise_singleton _ _,fun b hb => ?_⟩
  rw [List.mem_singleton.mp hb,Exact,Backed,limitOf,if_pos hv.next]
  exact ⟨hv.size,fun hn => absurd hv.next hn⟩

/-- A system that keeps payloads apart in a heap tiled by its blocks. -/
structure TiledSystem (s : HeapSystem) : Prop where
  /-- Payloads are kept apart. -/
  valid : SystemValid s
  /-- Blocks tile the heap. -/
  tiled : Tiled s.heap

/-- Steps that meet the condition keep the tiling. -/
theorem TiledSystem.step (hs : TiledSystem s) {op : HeapOp} (hg : TilingGuard s op)
    (hstep : Step mmapPages s op t) : TiledSystem t :=
  ⟨hs.valid.step hg.1 hstep,(step_tiled_iff hs.valid hs.tiled hg.1 hstep).mpr hg.2⟩

/-- In every run whose steps all meet the condition, the blocks tile the heap. -/
theorem run_tiled {mem : ℕ → BlockHeader} {heapBase mapLimit : ℕ}
    (hsize : heapBase+headerSize ≤ mapLimit) (hword : mapLimit<2^32) {ops : List HeapOp}
    (hrun : Run (Guarded (Step mmapPages) TilingGuard) (initial mem heapBase mapLimit) ops t) :
    Tiled t.heap := by
  have hfresh := initial_fresh mem hsize hword
  refine TiledSystem.tiled (Run.guarded_invariant ?_ hrun ?_)
  · exact fun hs hg hstep => hs.step hg hstep
  · exact ⟨Or.inl hfresh,heapInit_tiled hfresh.1⟩

/-- Two requests without padding and the release of the last block in use. -/
theorem run_tiled_release : ∃ t,
    Run (Guarded (Step noPages) fun s op => Guard s op ∧ Tight s op) sample
      [.kmallocAlign 48 16,.kmallocAlign 48 16,.kfree ⟨0xC0400070,48⟩] t ∧
    t.live=[⟨0xC0400020,48⟩] ∧ Tiled t.heap := by
  obtain ⟨s₁,s₂,s₃,h₁,h₂,h₃,⟨hsearch,hnext⟩,⟨hsecond,hlast⟩,hlive,-⟩ := sample_release
  have hfirst : searchHole sample.heap 48 16 1 sample.heap.base 0=some (.found 0xC0400000) := by
    decide
  have ht₁ : Tight sample (.kmallocAlign 48 16) :=
    (tight_request_iff (by decide) hfirst).mpr (by decide)
  have ht₂ : Tight s₁ (.kmallocAlign 48 16) := by
    refine (tight_request_iff (by decide) hsearch).mpr ?_
    rw [Dense,if_pos hnext]
    decide
  have ht₃ : Tight s₂ (.kfree ⟨0xC0400070,48⟩) := by
    refine Or.inr (Or.inl fun hstrands => hstrands.2.2 ?_)
    change nextOf s₂.heap (nextOf s₂.heap 0xC0400050)=0
    rw [hsecond,hlast]
  have hrun : Run (Guarded (Step noPages) fun s op => Guard s op ∧ Tight s op) sample
      [.kmallocAlign 48 16,.kmallocAlign 48 16,.kfree ⟨0xC0400070,48⟩] s₃ :=
    Run.cons ⟨⟨h₁.1,ht₁⟩,h₁.2⟩
      (Run.cons ⟨⟨h₂.1,ht₂⟩,h₂.2⟩ (Run.cons ⟨⟨h₃.1,ht₃⟩,h₃.2⟩ (Run.nil s₃)))
  exact ⟨s₃,hrun,hlive,run_tiled (by decide) (by decide) hrun⟩

/-- A request with a page's alignment: the first block's size leaves out the
bytes in front of the payload. -/
theorem tiled_counterexample :
    ¬∀ (mmapPages : Heap → ℕ → ℕ → Option (Heap×ℕ)) (mem : ℕ → BlockHeader)
      (heapBase mapLimit : ℕ) (ops : List HeapOp) (t : HeapSystem),
      heapBase+headerSize ≤ mapLimit → mapLimit<2^32 →
      Run (Step mmapPages) (initial mem heapBase mapLimit) ops t → Tiled t.heap := by
  intro hclaim
  obtain ⟨t,ht,hfacts⟩ : ∃ t,([HeapOp.kmallocAlign 16 4096].foldlM (exec noPages 1) sample)=some t ∧
      (t.heap.base,nextOf t.heap 0xC0400000,(t.heap.mem 0xC0400000).size)=
        (0xC0400000,0xC0402000,0x1020) := Option.map_eq_some_iff.mp (by decide)
  simp only [Prod.mk.injEq] at hfacts
  obtain ⟨hbase,hnext,hsize⟩ := hfacts
  obtain ⟨rest,htiles⟩ := hclaim noPages zeroMem 0xC0400000 0xC1000000 _ t (by decide) (by decide)
    (exec_run ht)
  have hmeets := (htiles.exact_ _ List.mem_cons_self).1
  rw [hbase,limitOf,hnext,hsize,if_neg (by decide)] at hmeets
  revert hmeets
  decide

end XanaduOS.HeapTiling
