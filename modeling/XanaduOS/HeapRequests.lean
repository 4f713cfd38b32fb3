import XanaduOS.HeapRuns

/-!
# Requests to the kernel heap

What a request returns: an aligned address in front of which a header fits,
behind which the bytes asked for fit, and no header outside the heap. Behind
the last block a new header is placed, and close to the heap's end the heap is
grown first; the page mapper then takes at most one page table from the same
heap. The address is right as long as the search ends at a block, neither the
size nor the bytes needed wrap around, and the heap's end does not either.
-/

namespace XanaduOS.HeapRequests

open Word32 KernelDefs HeapAllocator Chains Runs HeapBlocks HeapRuns

/-! ## Page tables -/

section Mapper

variable (mmapPages : Heap → ℕ → ℕ → Option (Heap×ℕ))

/-- Page tables taken from the heap, at most so many. Their entries are written
in the memory that was returned. -/
inductive TableRequests : ℕ → Heap → Heap → Prop
  /-- The tables present suffice. -/
  | done (n : ℕ) (h : Heap) : TableRequests n h h
  /-- One table, cleared and filled, before the others. -/
  | table {n fuel p : ℕ} {h h₁ h' : Heap} {mem : ℕ → BlockHeader}
      (call : kmallocAlign mmapPages fuel h PAGE_SIZE PAGE_SIZE=some (h₁,p))
      (frame : ∀ y,y+headerSize≤p ∨ p+PAGE_SIZE≤y → mem y=h₁.mem y)
      (others : TableRequests n {h₁ with mem := mem} h') : TableRequests (n+1) h h'

/-- A page mapper that, asked for the pages of one table at most, touches the heap
only for page tables, one for each table of pages. -/
def PageTables : Prop :=
  ∀ {h h' : Heap} {addr npages ret : ℕ},npages≤PT_SIZE → mmapPages h addr npages=some (h',ret) →
    TableRequests mmapPages (divUp npages PT_SIZE) h h'

end Mapper

/-- What a caller relies on when a request returns an address. -/
structure ResultSound (h : Heap) (siz alignment : ℕ) (h' : Heap) (p : ℕ) : Prop where
  /-- The address is aligned. -/
  aligned : alignment∣p
  /-- A header lies between the heap's base and the address. -/
  behind : h.base+headerSize≤p
  /-- The bytes asked for end within the heap, as it is after the request. -/
  inside : p+siz≤h'.endAddr
  /-- They end within the address space. -/
  word : p+siz<2^32
  /-- Headers written lie within the heap: other records are left alone. -/
  headers : ∀ y,h'.mem y≠h.mem y → h.base≤y ∧ y+headerSize≤h'.endAddr

/-- A request served from a block without wrap-around of its size or of the
bytes needed. -/
structure Placed (h : Heap) (header siz alignment : ℕ) : Prop where
  /-- Rounding the size does not wrap. -/
  size : siz ≤ roundUp siz alignment
  /-- The bytes needed are a word. -/
  sum : roundUp siz alignment+(roundUp (getDataBase header) alignment-header)<2^32

/-- The successor of a block after an allocation from it. -/
def successor (h : Heap) (header size dataBase : ℕ) : ℕ :=
  if splits h header size then wadd dataBase size else nextOf h header

/-- The heap's end leaves room: to grow where the successor is close to it, for
the header of a new hole elsewhere. -/
def Roomy (h : Heap) (header size dataBase : ℕ) : Prop :=
  if wsub h.endAddr MAP_CRITICAL_DIST<successor h header size dataBase then
    h.endAddr+PT_SIZE*PAGE_SIZE<2^32
  else splits h header size → dataBase+size+headerSize≤h.endAddr

instance (h : Heap) (header size dataBase : ℕ) : Decidable (Roomy h header size dataBase) :=
  inferInstanceAs (Decidable (if wsub h.endAddr MAP_CRITICAL_DIST<successor h header size dataBase
    then h.endAddr+PT_SIZE*PAGE_SIZE<2^32
    else splits h header size → dataBase+size+headerSize≤h.endAddr))

/-- The search ends at this block. -/
def Chosen (h : Heap) (siz alignment header : ℕ) : Prop :=
  ∃ fuel,searchHole h (roundUp siz alignment) alignment fuel h.base 0=some (.found header)

variable {mmapPages : Heap → ℕ → ℕ → Option (Heap×ℕ)} {h h' g : Heap} {blocks : ℕ → Prop}
  {siz size alignment dataBase s p top fuel : ℕ}

/-! ## Allocation from a block -/

/-- The successor is what the block's header names. -/
theorem takeBlock_successor (h : Heap) (s size dataBase : ℕ) :
    nextOf (takeBlock h s size dataBase) s=successor h s size dataBase := by
  rw [successor]
  split
  case isTrue hsplit => simp [takeBlock,if_pos hsplit,splitBlock,nextOf,set_mem]
  case isFalse hsplit => simp [takeBlock,if_neg hsplit,nextOf,set_mem]

/-- An allocation writes the block's header and, where it splits the block, the
new header and the first one. -/
theorem takeBlock_frame {y : ℕ} (hy : (takeBlock h s size dataBase).mem y≠h.mem y) :
    y=s ∨ (splits h s size ∧ (y=h.base ∨ y=wadd dataBase size)) := by
  by_contra hnot
  rw [not_or,not_and,not_or] at hnot
  refine hy ?_
  by_cases hsplit : splits h s size
  · obtain ⟨hbase,hnew⟩ := hnot.2 hsplit
    simp only [takeBlock,if_pos hsplit,splitBlock]
    split
    · simp only [set_mem,if_neg hnot.1,if_neg hbase,if_neg hnew]
    · simp only [set_mem,if_neg hnot.1,if_neg hnew]
  · simp only [takeBlock,if_neg hsplit,set_mem,if_neg hnot.1]

/-- The heap after it was grown behind a block. -/
def grownHeap (h : Heap) (header : ℕ) : Heap :=
  {h with endAddr := wadd h.endAddr (PT_SIZE*PAGE_SIZE)}.set header fun b =>
    {b with size := wadd b.size (PT_SIZE*PAGE_SIZE)}

/-- An allocation returns the payload address. Close to the heap's end the
heap is grown. -/
theorem doAlloc_cases (call : doAlloc mmapPages h s size dataBase=some (h',p)) :
    p=dataBase ∧
      ((¬wsub h.endAddr MAP_CRITICAL_DIST<successor h s size dataBase ∧
          h'=takeBlock h s size dataBase) ∨
        (wsub h.endAddr MAP_CRITICAL_DIST<successor h s size dataBase ∧
          mmapPages (grownHeap (takeBlock h s size dataBase) s) h.endAddr PT_SIZE=some (h',0))) := by
  have hnext := takeBlock_successor h s size dataBase
  have hend := (takeBlock_limits h s size dataBase).2
  simp only [nextOf] at hnext
  simp only [doAlloc,hnext,hend] at call
  by_cases hnear : wsub h.endAddr MAP_CRITICAL_DIST<successor h s size dataBase
  · rw [if_pos hnear] at call
    obtain ⟨⟨h₁,ret⟩,hexpand,call⟩ := Option.bind_eq_some_iff.mp call
    by_cases hret : ret=0
    · simp only [hret,ne_eq,not_true_eq_false,if_false] at call
      obtain ⟨rfl,rfl⟩ := Prod.mk.inj (Option.some.inj call)
      refine ⟨rfl,Or.inr ⟨hnear,?_⟩⟩
      have hpages : wmul PT_SIZE 1=PT_SIZE := by decide
      simp only [expandHeap,hpages,hend,hret] at hexpand
      rw [grownHeap,hend]
      exact hexpand
    · simp only [ne_eq,hret,not_false_eq_true,if_true] at call
      contradiction
  · rw [if_neg hnear] at call
    obtain ⟨rfl,rfl⟩ := Prod.mk.inj (Option.some.inj call)
    exact ⟨rfl,Or.inl ⟨hnear,rfl⟩⟩

/-! ## Blocks a search meets -/

/-- Blocks that a search does not leave. Those free end below a bound, and so
do all successors. Only the first block of a heap that served no request ends
the search. -/
structure Searched (h : Heap) (blocks : ℕ → Prop) (top : ℕ) : Prop where
  /-- The search starts at one of them. -/
  base : blocks h.base
  /-- Search links stay among them. -/
  links : ∀ b,blocks b → holeOf h b≠0 → blocks (holeOf h b)
  /-- Where the search ends it is at the first block, and none has a successor. -/
  ends : ∀ b,blocks b → holeOf h b=0 → b=h.base ∧ ∀ c,blocks c → nextOf h c=0
  /-- None lies in front of the first one. -/
  above : ∀ b,blocks b → h.base≤b
  /-- Headers end within the address space. -/
  header : ∀ b,blocks b → b+headerSize<2^32
  /-- Free blocks end below the bound. -/
  holes : ∀ b,blocks b → (h.mem b).isHole=true → b+(h.mem b).size≤top
  /-- Successors lie below the bound. -/
  next : ∀ b,blocks b → nextOf h b≤top

/-- The blocks of a heap that meets no defect. -/
theorem SystemValid.searched {s : HeapSystem} (hs : SystemValid s) :
    s.heap.endAddr<2^32 ∧ ∃ blocks,Searched s.heap blocks s.heap.endAddr := by
  rcases hs with ⟨hv,-⟩|⟨rest,holes,hv,-⟩
  · have hsize := hv.size
    have hheader := hv.header
    have hword := hv.word
    refine ⟨hword,fun b => b=s.heap.base,rfl,?_,?_,?_,?_,?_,?_⟩
    · rintro b rfl hne
      exact absurd hv.hole hne
    · rintro b rfl -
      refine ⟨rfl,?_⟩
      rintro c rfl
      exact hv.next
    · rintro b rfl
      exact Nat.le_refl _
    · rintro b rfl
      omega
    · rintro b rfl -
      exact hsize.le
    · rintro b rfl
      rw [hv.next]
      exact Nat.zero_le _
  · have hword := hv.word
    refine ⟨hword,fun b => b∈s.heap.base::rest,List.mem_cons_self,?_,?_,?_,?_,?_,?_⟩
    · exact fun b hb _ => List.mem_cons_of_mem _ (hv.hole_mem hb)
    · exact fun b hb h0 => absurd h0 (hv.ne_zero (hv.hole_mem hb))
    · intro b hb
      rcases List.mem_cons.mp hb with rfl|hb
      · exact Nat.le_refl _
      · have := hv.base_lt hb
        omega
    · intro b hb
      have hin := hv.inside hb
      have hroom := (hv.room b hb).1
      omega
    · exact fun b hb _ => hv.inside hb
    · intro b hb
      by_cases h0 : nextOf s.heap b=0
      · rw [h0]
        exact Nat.zero_le _
      · have hin := hv.inside (List.mem_cons_of_mem _ (hv.next_mem hb h0))
        omega

/-- A search starts at a block. -/
theorem Chosen.base_ne (hc : Chosen h siz alignment s) : h.base≠0 := by
  obtain ⟨fuel,hf⟩ := hc
  intro h0
  cases fuel with
  | zero => simp [searchHole] at hf
  | succ fuel => simp [searchHole,h0] at hf

/-- The block chosen holds the bytes needed, at an aligned address behind its
header. -/
theorem Searched.chosen (hl : Searched h blocks top) (hd : alignment∣2^32)
    (hc : Chosen h siz alignment s)
    (hne : roundUp (getDataBase s) alignment≠0)
    (hsum : roundUp siz alignment+(roundUp (getDataBase s) alignment-s)<2^32) :
    blocks s ∧ (h.mem s).isHole=true ∧ alignment∣roundUp (getDataBase s) alignment ∧
      s+headerSize ≤ roundUp (getDataBase s) alignment ∧
      roundUp (getDataBase s) alignment+roundUp siz alignment≤top := by
  obtain ⟨fuel,hf⟩ := hc
  obtain ⟨hs,hfree,hfit⟩ := searchHole_found blocks hl.links (fun _ => hl.base) hf
  have hheader := hl.header s hs
  have hdata : getDataBase s=s+headerSize := wadd_eq hheader
  have hlt : getDataBase s<2^32 := wadd_lt _ _
  obtain ⟨hdvd,hle,-⟩ := (roundUp_of_dvd hd hlt).resolve_left fun hand => hne hand.1
  have hend := hl.holes s hs hfree
  simp only [headerSize] at hdata hheader ⊢
  rw [wsub_eq (by omega) (roundUp_lt _ _),wadd_eq hsum] at hfit
  exact ⟨hs,hfree,hdvd,by omega,by omega⟩

/-- A search that stays among blocks ends at one. -/
theorem searchHole_closed {header last : ℕ} {r : SearchResult}
    (hlinks : ∀ b,blocks b → blocks (holeOf h b)) (hne : ∀ b,blocks b → b≠0)
    (hheader : blocks header)
    (hf : searchHole h size alignment fuel header last=some r) : ∃ s,r=.found s := by
  induction fuel generalizing header last with
  | zero => simp [searchHole] at hf
  | succ fuel ih =>
    simp only [searchHole,if_neg (hne header hheader)] at hf
    split at hf
    case isTrue => exact ⟨header,(Option.some.inj hf).symm⟩
    case isFalse => exact ih (hlinks header hheader) hf

/-! ## Growing the heap -/

/-- A link that is not all ones is kept. -/
theorem nullIfAllOnes_eq {x : ℕ} (hx : x+headerSize<2^32) : nullIfAllOnes x=x := by
  simp only [headerSize] at hx
  rw [nullIfAllOnes,if_neg (by omega)]

/-- The search link of the new hole leads to a block or to itself. -/
theorem Searched.newLink_mem (hl : Searched h blocks top) (hs : blocks s) {new : ℕ} (hnew0 : new≠0)
    (hnew : new+headerSize<2^32) :
    (blocks (newLink h s new) ∨ newLink h s new=new) ∧ newLink h s new≠0 := by
  rw [newLink]
  split
  case isTrue =>
    rw [nullIfAllOnes_eq hnew]
    exact ⟨Or.inr rfl,hnew0⟩
  case isFalse hnot =>
    have hhole : holeOf h s≠0 := by
      intro hzero
      obtain ⟨rfl,-⟩ := hl.ends s hs hzero
      exact hnot ⟨rfl,Or.inl hzero⟩
    have hmem := hl.links s hs hhole
    rw [nullIfAllOnes_eq (hl.header _ hmem)]
    exact ⟨Or.inl hmem,hhole⟩

/-- After an allocation that splits a block, no search comes to an end. -/
theorem Searched.split (hl : Searched h blocks h.endAddr) (hword : h.endAddr<2^32) (hs : blocks s)
    (hdata : s+headerSize≤dataBase) (hfit : dataBase+size≤h.endAddr)
    (hnew : dataBase+size+headerSize<2^32) (hsplit : splits h s size) :
    Searched (takeBlock h s size dataBase) (fun b => blocks b ∨ b=dataBase+size) h.endAddr ∧
      ∀ b,(blocks b ∨ b=dataBase+size) → holeOf (takeBlock h s size dataBase) b≠0 := by
  have hsbase := hl.above s hs
  obtain ⟨hbase,-⟩ := takeBlock_limits h s size dataBase
  simp only [headerSize] at hdata
  obtain ⟨new,hnewEq⟩ : ∃ new,dataBase+size=new := ⟨_,rfl⟩
  rw [hnewEq] at hfit hnew ⊢
  have hfields := takeBlock_splits_spec hsplit ((wadd_eq (by omega)).trans hnewEq)
    (show new≠s by omega) (show new≠h.base by omega)
  obtain ⟨hlink,hlink0⟩ := hl.newLink_mem hs (show new≠0 by omega) hnew
  set g := takeBlock h s size dataBase
  have hhole0 : ∀ b,(blocks b ∨ b=new) → holeOf g b≠0 := by
    intro b hb
    rw [(hfields b).2.1]
    split_ifs with h1 h2 h3
    · omega
    · exact hlink0
    · omega
    · intro hzero
      obtain ⟨rfl,-⟩ := hl.ends b (hb.resolve_right h2) hzero
      exact h3 ⟨rfl,Or.inl hzero⟩
  refine ⟨?_,hhole0⟩
  constructor
  case base => exact hbase.symm▸Or.inl hl.base
  case links =>
    intro b hb hne
    rw [(hfields b).2.1] at hne ⊢
    split_ifs at hne ⊢ with h1 h2 h3
    · exact Or.inr rfl
    · exact hlink
    · exact Or.inr rfl
    · exact Or.inl (hl.links b (hb.resolve_right h2) hne)
  case ends => exact fun b hb hzero => absurd hzero (hhole0 b hb)
  case above =>
    rintro b (hb|rfl)
    · exact hbase.symm▸hl.above b hb
    · omega
  case header =>
    rintro b (hb|rfl)
    · exact hl.header b hb
    · exact hnew
  case holes =>
    intro b hb hfree
    rw [(hfields b).2.2.2.1] at hfree
    rw [(hfields b).2.2.1]
    split_ifs at hfree ⊢ with h1 h2
    · rw [h2,wsub_eq (by omega) hword,wsub_eq (by omega) (by omega)]
      omega
    · exact hl.holes b (hb.resolve_right h2) hfree
  case next =>
    intro b hb
    rw [(hfields b).1]
    have hnext := hl.next s hs
    split_ifs with h1 h2
    · exact hfit
    · rw [nullIfAllOnes]
      split <;> omega
    · exact hl.next b (hb.resolve_right h2)

/-- An allocation of a whole block leaves the links. -/
theorem Searched.whole (hl : Searched h blocks h.endAddr) (hs : blocks s)
    (hsplit : ¬splits h s size) : Searched (takeBlock h s size dataBase) blocks h.endAddr ∧
      ∀ b,blocks b → holeOf (takeBlock h s size dataBase) b≠0 := by
  obtain ⟨hbase,-⟩ := takeBlock_limits h s size dataBase
  have hfields : ∀ y,nextOf (takeBlock h s size dataBase) y=nextOf h y ∧
      holeOf (takeBlock h s size dataBase) y=holeOf h y ∧
      (y≠s → (takeBlock h s size dataBase).mem y=h.mem y) ∧
      ((takeBlock h s size dataBase).mem s).isHole=false := by
    intro y
    simp only [takeBlock,if_neg hsplit,nextOf,holeOf,set_mem]
    grind
  have hhole0 : ∀ b,blocks b → holeOf h b≠0 := by
    intro b hb hzero
    exact hsplit (Or.inl ((hl.ends b hb hzero).2 s hs))
  refine ⟨?_,fun b hb => (hfields b).2.1▸hhole0 b hb⟩
  constructor
  case base => exact hbase.symm▸hl.base
  case links => exact fun b hb _ => (hfields b).2.1▸hl.links b hb (hhole0 b hb)
  case ends => exact fun b hb hzero => absurd ((hfields b).2.1▸hzero) (hhole0 b hb)
  case above => exact fun b hb => hbase.symm▸hl.above b hb
  case header => exact hl.header
  case holes =>
    intro b hb hfree
    have hbs : b≠s := by
      rintro rfl
      rw [(hfields b).2.2.2] at hfree
      contradiction
    rw [(hfields b).2.2.1 hbs] at hfree ⊢
    exact hl.holes b hb hfree
  case next => exact fun b hb => (hfields b).1▸hl.next b hb

/-- An allocation, the new hole behind it among the blocks. -/
theorem Searched.take (hl : Searched h blocks h.endAddr) (hword : h.endAddr<2^32) (hs : blocks s)
    (hdata : s+headerSize≤dataBase) (hfit : dataBase+size≤h.endAddr)
    (hnew : dataBase+size+headerSize<2^32) :
    ∃ blocks',Searched (takeBlock h s size dataBase) blocks' h.endAddr ∧
      ∀ b,blocks' b → holeOf (takeBlock h s size dataBase) b≠0 := by
  by_cases hsplit : splits h s size
  · exact ⟨_,hl.split hword hs hdata hfit hnew hsplit⟩
  · exact ⟨_,hl.whole hs hsplit⟩

/-- Growing the heap behind a block in use leaves the links. -/
theorem Searched.grow (hl : Searched g blocks top) (hused : (g.mem s).isHole=false)
    (hhole0 : ∀ b,blocks b → holeOf g b≠0) : Searched (grownHeap g s) blocks top ∧
      ∀ b,blocks b → holeOf (grownHeap g s) b≠0 := by
  have hfields : ∀ y,nextOf (grownHeap g s) y=nextOf g y ∧
      holeOf (grownHeap g s) y=holeOf g y ∧
      ((grownHeap g s).mem y).isHole=(g.mem y).isHole ∧
      (y≠s → ((grownHeap g s).mem y).size=(g.mem y).size) := by
    intro y
    simp only [grownHeap,nextOf,holeOf,set_mem]
    grind
  refine ⟨?_,fun b hb => (hfields b).2.1▸hhole0 b hb⟩
  constructor
  case base => exact hl.base
  case links => exact fun b hb _ => (hfields b).2.1▸hl.links b hb (hhole0 b hb)
  case ends => exact fun b hb hzero => absurd ((hfields b).2.1▸hzero) (hhole0 b hb)
  case above => exact hl.above
  case header => exact hl.header
  case holes =>
    intro b hb hfree
    rw [(hfields b).2.2.1] at hfree
    have hbs : b≠s := by
      rintro rfl
      rw [hused] at hfree
      contradiction
    rw [(hfields b).2.2.2 hbs]
    exact hl.holes b hb hfree
  case next => exact fun b hb => (hfields b).1▸hl.next b hb

/-- A page table taken from the heap grown: it lies below the old end, and the
heap is not grown again. -/
theorem Searched.pageTable (hl : Searched g blocks top) (hhole0 : ∀ b,blocks b → holeOf g b≠0)
    (h0 : g.base≠0) (hend : top+PT_SIZE*PAGE_SIZE=g.endAddr) (hword : g.endAddr<2^32)
    (call : kmallocAlign mmapPages fuel g PAGE_SIZE PAGE_SIZE=some (h',p)) :
    h'.endAddr=g.endAddr ∧ g.base+headerSize≤p ∧ p+PAGE_SIZE≤top ∧
      ∀ y,h'.mem y≠g.mem y → g.base≤y ∧ y≤top := by
  have hpage : effectiveAlignment PAGE_SIZE=PAGE_SIZE := by decide
  have hround : roundUp PAGE_SIZE PAGE_SIZE=PAGE_SIZE := by decide
  simp only [kmallocAlign,if_neg (show ¬PAGE_SIZE=0 by decide),hpage,hround] at call
  obtain ⟨r,hr,call⟩ := Option.bind_eq_some_iff.mp call
  obtain ⟨s,rfl⟩ := searchHole_closed (fun b hb => hl.links b hb (hhole0 b hb))
    (fun b hb => by have := hl.above b hb; omega) hl.base hr
  obtain ⟨hs,hfree,-⟩ := searchHole_found blocks hl.links (fun _ => hl.base) hr
  have hstop := hl.holes s hs hfree
  have hsbase := hl.above s hs
  have hdata : getDataBase s=s+headerSize := wadd_eq (hl.header s hs)
  have haddr := @roundUp_eq (getDataBase s) PAGE_SIZE (by decide)
    (by simp only [PAGE_SIZE,PT_SIZE,headerSize] at *; omega)
  simp only [PAGE_SIZE,PT_SIZE,headerSize] at hdata haddr hend
  obtain ⟨-,-,-,hbehind,hfit⟩ := @Searched.chosen _ _ PAGE_SIZE PAGE_SIZE _ _ hl (by decide)
    ⟨fuel,by rw [hround]; exact hr⟩
    (by simp only [PAGE_SIZE]; split at haddr <;> omega)
    (by rw [hround]; simp only [PAGE_SIZE]; split at haddr <;> omega)
  obtain ⟨hp,hcases⟩ := doAlloc_cases call
  rw [←hp] at hbehind hfit hcases
  rw [hround] at hfit
  simp only [PAGE_SIZE,headerSize] at hbehind hfit ⊢
  have hnew : wadd p PAGE_SIZE=p+4096 := wadd_eq (by simp only [PAGE_SIZE]; omega)
  have hnext : successor g s PAGE_SIZE p≤top := by
    rw [successor,hnew]
    split
    · exact hfit
    · exact hl.next s hs
  obtain ⟨-,rfl⟩ := hcases.resolve_right fun hand => by
    have hnear := hand.1
    rw [MAP_CRITICAL_DIST,wsub_eq (by omega) hword] at hnear
    omega
  refine ⟨(takeBlock_limits ..).2,by omega,hfit,fun y hy => ?_⟩
  rcases takeBlock_frame hy with heq|⟨-,heq|heq⟩
  · omega
  · omega
  · rw [hnew] at heq
    omega

/-- A page mapper that is asked for one table of pages takes at most one page
table. -/
theorem Searched.mapped (htables : PageTables mmapPages) (hl : Searched g blocks top)
    (hhole0 : ∀ b,blocks b → holeOf g b≠0) (h0 : g.base≠0)
    (hend : top+PT_SIZE*PAGE_SIZE=g.endAddr) (hword : g.endAddr<2^32) {addr ret : ℕ}
    (call : mmapPages g addr PT_SIZE=some (h',ret)) :
    h'.endAddr=g.endAddr ∧ ∀ y,h'.mem y≠g.mem y → g.base≤y ∧ y≤top := by
  have hone : divUp PT_SIZE PT_SIZE=0+1 := by decide
  have hrequests := htables le_rfl call
  rw [hone] at hrequests
  cases hrequests with
  | done => exact ⟨rfl,fun y hy => absurd rfl hy⟩
  | @table _ _ q _ h₁ _ mem call frame others =>
    obtain ⟨hlimit,hbehind,hfit,hframe⟩ := hl.pageTable hhole0 h0 hend hword call
    cases others
    refine ⟨hlimit,fun y hy => ?_⟩
    by_cases hout : y+headerSize≤q ∨ q+PAGE_SIZE≤y
    · exact hframe y ((frame y hout).symm.trans_ne hy)
    · simp only [headerSize,PAGE_SIZE] at hout hbehind hfit
      omega

/-! ## Results -/

/-- A request served at a block, without wrap-around and with room at the
heap's end. -/
def Served (h : Heap) (siz alignment : ℕ) : Prop :=
  ∃ header,Chosen h siz alignment header ∧ Placed h header siz alignment ∧
    Roomy h header (roundUp siz alignment) (roundUp (getDataBase header) alignment)

/-- A divisor of the modulus is an alignment. -/
theorem effectiveAlignment_of_dvd (hd : alignment∣2^32) : effectiveAlignment alignment=alignment :=
  if_neg (Nat.pos_of_dvd_of_pos hd (by decide)).ne'

/-- A request allocates from the block its search chooses. -/
theorem kmallocAlign_chosen (hsiz : siz≠0) (hd : alignment∣2^32) (hc : Chosen h siz alignment s)
    (call : kmallocAlign mmapPages fuel h siz alignment=some (h',p)) :
    doAlloc mmapPages h s (roundUp siz alignment) (roundUp (getDataBase s) alignment)=
      some (h',p) := by
  simp only [kmallocAlign,if_neg hsiz,effectiveAlignment_of_dvd hd] at call
  obtain ⟨r,hr,call⟩ := Option.bind_eq_some_iff.mp call
  obtain ⟨fuel',hf⟩ := hc
  obtain rfl := searchHole_unique hr hf
  exact call

/-- A block taken is in use. -/
theorem takeBlock_used (h : Heap) (s size dataBase : ℕ) :
    ((takeBlock h s size dataBase).mem s).isHole=false := by
  simp only [takeBlock,set_mem,if_true]

/-- Headers written by an allocation that grows the heap. -/
theorem grownHeap_frame {y : ℕ} (hy : (grownHeap (takeBlock h s size dataBase) s).mem y≠h.mem y) :
    y=s ∨ (splits h s size ∧ (y=h.base ∨ y=wadd dataBase size)) := by
  by_cases hys : y=s
  · exact Or.inl hys
  · refine takeBlock_frame ?_
    simpa only [grownHeap,set_mem,if_neg hys] using hy

/-- An allocation that grows the heap writes within the heap as it is then. -/
theorem Searched.doAlloc_grown (htables : PageTables mmapPages) (hl : Searched h blocks h.endAddr)
    (h0 : h.base≠0) (hs : blocks s) (hdata : s+headerSize≤dataBase)
    (hfit : dataBase+size≤h.endAddr) (hgrow : h.endAddr+PT_SIZE*PAGE_SIZE<2^32)
    (call : mmapPages (grownHeap (takeBlock h s size dataBase) s) h.endAddr PT_SIZE=some (h',0)) :
    h'.endAddr=h.endAddr+PT_SIZE*PAGE_SIZE ∧
      ∀ y,h'.mem y≠h.mem y → h.base≤y ∧ y+headerSize≤h'.endAddr := by
  obtain ⟨hbase,hend⟩ := takeBlock_limits h s size dataBase
  have hsbase := hl.above s hs
  have hwide : h.endAddr+headerSize<2^32 := by
    simp only [PT_SIZE,PAGE_SIZE,headerSize] at hgrow ⊢
    omega
  obtain ⟨blocks',hl',hhole0⟩ := hl.take (Nat.lt_of_add_right_lt hwide) hs hdata hfit
    (by omega)
  obtain ⟨hl₂,hhole₂⟩ := hl'.grow (takeBlock_used h s size dataBase) hhole0
  obtain ⟨hbase₂,hlimit⟩ : (grownHeap (takeBlock h s size dataBase) s).base=h.base ∧
      (grownHeap (takeBlock h s size dataBase) s).endAddr=h.endAddr+PT_SIZE*PAGE_SIZE := by
    simp only [grownHeap,set_base,set_endAddr,hbase,hend,wadd_eq hgrow,and_self]
  obtain ⟨hlimit',hframe⟩ := hl₂.mapped htables hhole₂ (by rwa [hbase₂]) hlimit.symm
    (by rwa [hlimit]) call
  rw [hlimit] at hlimit'
  refine ⟨hlimit',fun y hy => ?_⟩
  rw [hlimit']
  simp only [PT_SIZE,PAGE_SIZE,headerSize] at hdata ⊢
  by_cases hsame : h'.mem y=(grownHeap (takeBlock h s size dataBase) s).mem y
  · rw [hsame] at hy
    rcases grownHeap_frame hy with heq|⟨-,heq|heq⟩
    · omega
    · omega
    · rw [wadd_eq (by omega)] at heq
      omega
  · obtain ⟨hlo,hhi⟩ := hframe y hsame
    rw [hbase₂] at hlo
    omega

/-- A request that is served returns what its caller relies on. -/
theorem SystemValid.resultSound (htables : PageTables mmapPages) {s : HeapSystem}
    (hs : SystemValid s) (hsiz : siz≠0) (hd : alignment∣2^32)
    (hserved : Served s.heap siz alignment) (hp : p≠0)
    (call : kmallocAlign mmapPages fuel s.heap siz alignment=some (h',p)) :
    ResultSound s.heap siz alignment h' p := by
  obtain ⟨hword,blocks,hl⟩ := SystemValid.searched hs
  obtain ⟨b,hc,hplaced,hroomy⟩ := hserved
  have h0 := hc.base_ne
  obtain ⟨hpdata,hcases⟩ := doAlloc_cases (kmallocAlign_chosen hsiz hd hc call)
  rw [←hpdata] at hcases hroomy
  obtain ⟨hb,-,hdvd,hbehind,hfit⟩ := hl.chosen hd hc (hpdata▸hp) hplaced.sum
  rw [←hpdata] at hdvd hbehind hfit
  have hsize := hplaced.size
  have hbbase := hl.above b hb
  suffices hafter : s.heap.endAddr≤h'.endAddr ∧
      ∀ y,h'.mem y≠s.heap.mem y → s.heap.base≤y ∧ y+headerSize≤h'.endAddr by
    refine ⟨hdvd,?_,?_,?_,hafter.2⟩
    · omega
    · exact (by omega : p+siz ≤ s.heap.endAddr).trans hafter.1
    · omega
  rcases hcases with ⟨hnear,rfl⟩|⟨hnear,hgrown⟩
  · rw [Roomy,if_neg hnear] at hroomy
    rw [(takeBlock_limits ..).2]
    refine ⟨Nat.le_refl _,fun y hy => ?_⟩
    rcases takeBlock_frame hy with rfl|⟨hsplit,heq|heq⟩
    · omega
    · omega
    · have hlimit := hroomy hsplit
      rw [wadd_eq (by omega)] at heq
      omega
  · rw [Roomy,if_pos hnear] at hroomy
    obtain ⟨hlimit,hframe⟩ := hl.doAlloc_grown htables h0 hb hbehind hfit hroomy hgrown
    exact ⟨by rw [hlimit]; exact Nat.le_add_right _ _,hframe⟩

/-- Behind a search that came to no block the address is computed from the null
pointer. -/
theorem kmallocAlign_exhausted (hsiz : siz≠0) (hd : alignment∣2^32) {fuel' last : ℕ}
    (hf : searchHole h (roundUp siz alignment) alignment fuel' h.base 0=some (.exhausted last))
    (call : kmallocAlign mmapPages fuel h siz alignment=some (h',p)) : p=headerSize := by
  simp only [kmallocAlign,if_neg hsiz,effectiveAlignment_of_dvd hd] at call
  obtain ⟨r,hr,call⟩ := Option.bind_eq_some_iff.mp call
  obtain rfl := searchHole_unique hr hf
  obtain ⟨⟨h₁,ret⟩,-,call⟩ := Option.bind_eq_some_iff.mp call
  by_cases hret : ret=0
  · simp only [hret,ne_eq,not_true_eq_false,if_false] at call
    exact (doAlloc_cases call).1
  · simp only [ne_eq,hret,not_false_eq_true,if_true] at call
    contradiction

/-- Only a request placed at a block returns what its caller relies on. -/
theorem SystemValid.placed {s : HeapSystem} (hs : SystemValid s) (hsiz : siz≠0) (hlt : siz<2^32)
    (hd : alignment∣2^32) (h0 : s.heap.base≠0) (hp : p≠0)
    (call : kmallocAlign mmapPages fuel s.heap siz alignment=some (h',p))
    (hsound : ResultSound s.heap siz alignment h' p) :
    ∃ header,Chosen s.heap siz alignment header ∧ Placed s.heap header siz alignment := by
  obtain ⟨-,blocks,hl⟩ := SystemValid.searched hs
  obtain ⟨r,hr⟩ : ∃ r,searchHole s.heap (roundUp siz alignment) alignment fuel s.heap.base 0=
      some r := by
    simp only [kmallocAlign,if_neg hsiz,effectiveAlignment_of_dvd hd] at call
    obtain ⟨r,hr,-⟩ := Option.bind_eq_some_iff.mp call
    exact ⟨r,hr⟩
  have hbehind := hsound.behind
  have hword := hsound.word
  cases r with
  | exhausted last =>
    have hnull := kmallocAlign_exhausted hsiz hd hr call
    omega
  | found b =>
    obtain ⟨hpdata,-⟩ := doAlloc_cases (kmallocAlign_chosen hsiz hd ⟨fuel,hr⟩ call)
    obtain ⟨hb,-,-⟩ := searchHole_found blocks hl.links (fun _ => hl.base) hr
    have hbbase := hl.above b hb
    have hpage := Nat.le_of_dvd (Nat.pos_of_ne_zero hp) hsound.aligned
    have hsize : siz ≤ roundUp siz alignment ∧ roundUp siz alignment<siz+alignment ∧
        alignment∣roundUp siz alignment := by
      rcases roundUp_of_dvd hd hlt with ⟨-,hover⟩|⟨hdvd,hle,hupper⟩
      · omega
      · exact ⟨hle,hupper,hdvd⟩
    refine ⟨b,⟨fuel,hr⟩,hsize.1,?_⟩
    rw [←hpdata]
    by_contra hover
    -- the end of the payload is a multiple too, so it lies a whole multiple too far
    have hfar := Nat.le_of_dvd (by omega)
      (Nat.dvd_sub (Nat.dvd_add hsound.aligned hsize.2.2) hd)
    omega

/-- After every run whose steps meet no defect, a request that is served
returns what its caller relies on; every request that does so was placed at a
block without wrap-around. -/
theorem run_resultSound (htables : PageTables mmapPages) {mem : ℕ → BlockHeader}
    {heapBase mapLimit : ℕ} (hsize : heapBase+headerSize ≤ mapLimit) (hword : mapLimit<2^32)
    {ops : List HeapOp} {s : HeapSystem}
    (hrun : Run (Guarded (Step mmapPages) Guard) (initial mem heapBase mapLimit) ops s)
    {k : ℕ} (hsiz : siz≠0) (hlt : siz<2^32) (hk : k<32) (hp : p≠0)
    (call : kmallocAlign mmapPages fuel s.heap siz (2^k)=some (h',p)) :
    (Served s.heap siz (2^k) → ResultSound s.heap siz (2^k) h' p) ∧
      (s.heap.base≠0 → ResultSound s.heap siz (2^k) h' p →
        ∃ header,Chosen s.heap siz (2^k) header ∧ Placed s.heap header siz (2^k)) := by
  have hd : 2^k∣2^32 := Nat.pow_dvd_pow 2 (by omega)
  have hs : SystemValid s := Run.guarded_invariant (fun hs hg hstep => hs.step hg hstep) hrun
    (Or.inl (initial_fresh mem hsize hword))
  exact ⟨fun hserved => SystemValid.resultSound htables hs hsiz hd hserved hp call,
    fun h0 hsound => SystemValid.placed hs hsiz hlt hd h0 hp call hsound⟩

/-- A page mapper that finds all its page tables present. -/
def tablesPresent (h : Heap) (_ _ : ℕ) : Option (Heap×ℕ) := some (h,0)

/-- It takes no page table. -/
theorem tablesPresent_pageTables : PageTables tablesPresent := by
  intro h h' addr npages ret _ call
  obtain ⟨rfl,-⟩ := Prod.mk.inj (Option.some.inj call)
  exact TableRequests.done _ _

/-- A request that ends close to the heap's end: the heap is grown. -/
theorem run_resultSound_grown : ∃ (h' : Heap) (p : ℕ),
    kmallocAlign tablesPresent 1 sample.heap 0xB80000 (2^4)=some (h',p) ∧
    p=0xC0400020 ∧ h'.endAddr=0xC1400000 ∧ ResultSound sample.heap 0xB80000 (2^4) h' p := by
  obtain ⟨⟨h',p⟩,call,hfacts⟩ : ∃ r,
      kmallocAlign tablesPresent 1 sample.heap 0xB80000 (2^4)=some r ∧
        (r.2,r.1.endAddr)=(0xC0400020,0xC1400000) := Option.map_eq_some_iff.mp (by decide)
  obtain ⟨rfl,hend⟩ := Prod.mk.inj hfacts
  refine ⟨h',0xC0400020,call,rfl,hend,(run_resultSound tablesPresent_pageTables (by decide)
    (by decide) (Run.nil sample) (by decide) (by decide) (by decide) (by decide) call).1 ?_⟩
  exact ⟨0xC0400000,⟨1,by decide⟩,⟨by decide,by decide⟩,by decide⟩

/-- Rounding the size wraps around: the last sizes get an empty block. -/
theorem resultSound_counterexample :
    ¬∀ (mmapPages : Heap → ℕ → ℕ → Option (Heap×ℕ)) (mem : ℕ → BlockHeader)
      (heapBase mapLimit : ℕ) (ops : List HeapOp) (s : HeapSystem) (fuel siz k p : ℕ) (h' : Heap),
      PageTables mmapPages → heapBase+headerSize ≤ mapLimit → mapLimit<2^32 →
      Run (Step mmapPages) (initial mem heapBase mapLimit) ops s → siz≠0 → siz<2^32 → k<32 →
      p≠0 → kmallocAlign mmapPages fuel s.heap siz (2^k)=some (h',p) →
      ResultSound s.heap siz (2^k) h' p := by
  intro hclaim
  obtain ⟨⟨h',p⟩,call,hp⟩ : ∃ r,
      kmallocAlign tablesPresent 1 sample.heap 0xFFFFFFFF (2^4)=some r ∧ r.2=0xC0400020 :=
    Option.map_eq_some_iff.mp (by decide)
  subst hp
  have hsound := hclaim tablesPresent zeroMem 0xC0400000 0xC1000000 [] sample 1 0xFFFFFFFF 4 _ h'
    tablesPresent_pageTables (by decide) (by decide) (Run.nil sample) (by decide) (by decide)
    (by decide) (by decide) call
  exact absurd hsound.word (by decide)

end XanaduOS.HeapRequests
