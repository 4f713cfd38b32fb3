import XanaduOS.BuddySteps

/-!
# Taking back a block just handed out

A release merges its block upwards while the neighbours' bits are clear, and at
each merge it looks for an entry that covers the neighbour. Below the order of
the list that served the request the only entry is the half listed by the
request itself. From that order on the entries are those of the state before.
So whether the walks of a release end can be read off the lists and bits before
the request.
-/

namespace XanaduOS.BuddyReturns

open Word32 BitWords KernelDefs BuddyFrameAlloc BuddyBlocks BuddySteps

/-- The address that the neighbour of a block is searched by. -/
def neighbourAddr (order addr : ℕ) : ℕ :=
  mapToAddr order ⟨(addrToMapId order addr).frameMap,buddyFrame (addrToMapId order addr).frame⟩

/-- The search for a neighbour ends: the list is not counted, or an entry covers
the neighbour. -/
def WalkEnds (buddy : BuddyAlloc) (order addr : ℕ) : Prop :=
  (buddy.freeArea order).numFree=0 ∨
    ∃ e∈(buddy.freeArea order).freeList,covers order (neighbourAddr order addr) e=true

/-- The neighbours of a block are free at all orders from one to another. -/
def NeighboursFree (buddy : BuddyAlloc) (order top addr : ℕ) : Prop :=
  ∀ k,order≤k → k≤top → neighbourFree buddy k addr=true

/-- Entries of a list after the block at the head of a list of order `top` was
split: the upper half below that order, the other entries from it on. -/
def listAfter (buddy : BuddyAlloc) (top base order : ℕ) : List ℕ :=
  if order<top then [base+blockSize order]
  else if order=top then (buddy.freeArea order).freeList.tail
  else (buddy.freeArea order).freeList

/-- The block that serves a request can be taken back: at every order up to which
its neighbours are free, the list that remains is empty or covers the neighbour. -/
def Returnable (buddy : BuddyAlloc) (n base : ℕ) : Prop :=
  ∀ top,IsLeast (UsedFrom buddy (getBuddyOrder n)) top →
    ∀ order,getBuddyOrder n≤order → order<MAX_ORDER-1 →
      NeighboursFree buddy (getBuddyOrder n) order base →
      listAfter buddy top base order=[] ∨
        ∃ e∈listAfter buddy top base order,covers order (neighbourAddr order base) e=true

variable {buddy buddy' : BuddyAlloc} {order addr : ℕ}

/-- An entry is unlinked exactly when the search for it ends. -/
theorem removeFreeFrame_isSome_iff :
    (∃ b,removeFreeFrame buddy order (neighbourAddr order addr)=some b) ↔
      WalkEnds buddy order addr := by
  rw [WalkEnds,←List.any_eq_true]
  simp only [removeFreeFrame]
  by_cases hcount : (buddy.freeArea order).numFree=0
  · rw [if_pos hcount]
    exact iff_of_true ⟨_,rfl⟩ (Or.inl hcount)
  · rw [if_neg hcount,or_iff_right hcount]
    by_cases hany : (buddy.freeArea order).freeList.any (covers order (neighbourAddr order addr))=true
    · rw [if_pos hany]
      exact iff_of_true ⟨_,rfl⟩ hany
    · rw [if_neg hany]
      refine iff_of_false (fun hsome => ?_) hany
      obtain ⟨b,h⟩ := hsome
      cases h

/-- Unlinking changes no bitmap. -/
theorem removeFreeFrame_maps (h : removeFreeFrame buddy order addr=some buddy') :
    buddy'.maps=buddy.maps := by
  simp only [removeFreeFrame] at h
  split at h
  · rw [Option.some.inj h]
  · split at h
    · obtain rfl := Option.some.inj h
      rfl
    · cases h

/-- A merge that finds its neighbour leaves the bits of the neighbours and the
searches at other orders as they were before the release. -/
theorem merge_kept {merged : BuddyAlloc}
    (h : removeFreeFrame (setFrameUnused buddy order addr) order (neighbourAddr order addr)=
      some merged) :
    (∀ k,neighbourFree merged k addr=neighbourFree buddy k addr) ∧
      ∀ k,k≠order → (WalkEnds merged k addr ↔ WalkEnds buddy k addr) := by
  refine ⟨fun k => ?_,fun k hk => ?_⟩
  · exact (neighbourFree_congr (removeFreeFrame_maps h) k addr).trans
      (neighbourFree_setFrameUnused buddy order addr k)
  · rw [WalkEnds,removeFreeFrame_freeArea h hk]
    rfl

/-- A release has a result exactly when the searches of all its merges end. -/
theorem coalesceLoop_isSome_iff {fuel : ℕ} (hfuel : MAX_ORDER≤fuel+order) (ho : order<MAX_ORDER) :
    (∃ b,coalesceLoop fuel order addr buddy=some b) ↔
      ∀ top,order≤top → top<MAX_ORDER-1 → NeighboursFree buddy order top addr →
        WalkEnds buddy top addr := by
  induction fuel generalizing order buddy with
  | zero => omega
  | succ fuel ih =>
    have hcleared : ∀ k,neighbourFree (setFrameUnused buddy order addr) k addr=
        neighbourFree buddy k addr := neighbourFree_setFrameUnused buddy order addr
    simp only [coalesceLoop]
    by_cases hmerge : order<MAX_ORDER-1 ∧
        neighbourFree (setFrameUnused buddy order addr) order addr=true
    · rw [if_pos hmerge]
      obtain ⟨hlt,hfree⟩ := hmerge
      rw [hcleared] at hfree
      have hhere : WalkEnds (setFrameUnused buddy order addr) order addr ↔
          WalkEnds buddy order addr := Iff.rfl
      rw [←neighbourAddr]
      by_cases hends : WalkEnds buddy order addr
      · obtain ⟨merged,hremove⟩ := removeFreeFrame_isSome_iff.mpr (hhere.mpr hends)
        obtain ⟨hfree',hlist⟩ := merge_kept hremove
        rw [hremove,Option.bind_eq_bind,Option.bind_some,ih (by omega) (by omega)]
        constructor
        · intro hrest top hlow htop hall
          rcases Nat.eq_or_lt_of_le hlow with rfl|hlater
          · exact hends
          · refine (hlist top (by omega)).mp (hrest top hlater htop fun k hk hktop => ?_)
            rw [hfree']
            exact hall k (by omega) hktop
        · intro hall top hlow htop hrest
          refine (hlist top (by omega)).mpr (hall top (by omega) htop fun k hk hktop => ?_)
          rcases Nat.eq_or_lt_of_le hk with rfl|hlater
          · exact hfree
          · rw [←hfree']
            exact hrest k hlater hktop
      · have hnone : ¬∃ b,removeFreeFrame (setFrameUnused buddy order addr) order
            (neighbourAddr order addr)=some b := fun h =>
          hends (hhere.mp (removeFreeFrame_isSome_iff.mp h))
        refine iff_of_false (fun hsome => ?_) fun hall => ?_
        · obtain ⟨b,hb⟩ := hsome
          obtain ⟨merged,hremove,-⟩ := Option.bind_eq_some_iff.mp hb
          exact hnone ⟨merged,hremove⟩
        · refine hends (hall order le_rfl hlt fun k hk hktop => ?_)
          rw [le_antisymm hktop hk]
          exact hfree
    · rw [if_neg hmerge]
      refine iff_of_true ⟨_,rfl⟩ fun top hlow htop hall => ?_
      refine absurd ⟨by omega,?_⟩ hmerge
      rw [hcleared]
      exact hall order le_rfl hlow

/-- What a request handed out of a list leaves beside the block: the neighbours'
bits of before. -/
theorem neighbourFree_handed {top base n : ℕ} {rest : List ℕ} {r : AllocResult}
    (h : Handed buddy n top base rest r) (k : ℕ) :
    neighbourFree r.buddy k base=neighbourFree buddy k base := by
  rw [Bool.eq_iff_iff,neighbourFree_iff_bit,neighbourFree_iff_bit,h.bits]
  simp [buddyFrame_ne]

/-- The bit of a block handed out is set at the order of its request. -/
theorem isFrameFree_handed {top base n : ℕ} {rest : List ℕ} {r : AllocResult}
    (h : Handed buddy n top base rest r) (hle : n≤top) :
    isFrameFree (r.buddy.maps n (addrToMapId n base).frameMap) (addrToMapId n base).frame=
      false := by
  have hbit := (h.bits n (base/blockSize n)).mpr (Or.inr ⟨le_rfl,hle,rfl⟩)
  obtain ⟨hflat,hlt⟩ := addrToMapId_flat n base
  rw [←hflat,bitAt_mul_add _ hlt] at hbit
  rw [Bool.eq_false_iff,ne_eq,isFrameFree_iff hlt,hbit]
  decide

/-- A search behind a request finds its neighbour among the entries that the
request leaves. -/
theorem walkEnds_handed {top base n k : ℕ} {rest : List ℕ} {r : AllocResult}
    (h : Handed buddy n top base rest r) (hleast : IsLeast (UsedFrom buddy n) top)
    (hlist : (buddy.freeArea top).freeList=base::rest)
    (hcounted : (buddy.freeArea k).numFree=(buddy.freeArea k).freeList.length)
    (hk : n≤k) (hmax : k<MAX_ORDER) : WalkEnds r.buddy k base ↔
      (listAfter buddy top base k=[] ∨
        ∃ e∈listAfter buddy top base k,covers k (neighbourAddr k base) e=true) := by
  rw [WalkEnds,listAfter]
  rcases Nat.lt_trichotomy k top with hlt|rfl|hgt
  · have hempty : (buddy.freeArea k).freeList=[] := by
      by_contra hne
      exact absurd (hleast.2 ⟨hk,hmax,hne⟩) (Nat.not_le_of_lt hlt)
    rw [h.added k hk hlt,if_pos hlt,hempty]
    simp
  · rw [h.removed,if_neg (Nat.lt_irrefl _),if_pos rfl,hlist,hcounted,hlist]
    simp
  · rw [h.kept k (Or.inr hgt),if_neg (Nat.not_lt_of_lt hgt),if_neg hgt.ne',hcounted,
      List.length_eq_zero_iff]

/-- A block that a request was just handed can be taken back exactly when the
lists and bits before the request allow it. -/
theorem buddyFreeFrames_handed_iff (hcounted : ∀ order<MAX_ORDER,
      (buddy.freeArea order).numFree=(buddy.freeArea order).freeList.length)
    (hend : ∀ order<MAX_ORDER,∀ addr∈(buddy.freeArea order).freeList,addr+blockSize order≤2^32)
    {n base : ℕ} {r : AllocResult} (h0 : 0<n) (h1 : n≤MAX_BUDDY_NFRAMES)
    (hr : buddyAllocFrames buddy 1 n=some r) (haddrs : r.addrs=[base]) :
    (∃ b,buddyFreeFrames r.buddy base n=some b) ↔ Returnable buddy n base := by
  rcases buddyAllocFrames_counted hcounted hend Nat.one_ne_zero h0 h1 with
    ⟨-,hnone⟩|⟨top,head,rest,r',hleast,hlist,hr',hhanded⟩
  · obtain rfl := Option.some.inj (hr.symm.trans hnone)
    cases haddrs
  obtain rfl := Option.some.inj (hr.symm.trans hr')
  obtain rfl : head=base := List.singleton_inj.mp (hhanded.addrs_eq.symm.trans haddrs)
  obtain ⟨hlow,hhigh,hused⟩ := hleast.1
  have horder := getBuddyOrder_lt n
  obtain ⟨left,hleft⟩ : ∃ left,MAX_ORDER-getBuddyOrder n=left+1 :=
    ⟨MAX_ORDER-getBuddyOrder n-1,by omega⟩
  have hwalk := fun k hk hmax => walkEnds_handed hhanded hleast hlist (hcounted k hmax) hk hmax
  -- The release starts at the order of the request, whose bit was set.
  simp only [buddyFreeFrames,hleft,freeFramesLoop,isFrameFree_handed hhanded hlow,
    Bool.false_eq_true,if_false,buddyCoalesce]
  rw [coalesceLoop_isSome_iff (Nat.le_add_right _ _) horder]
  constructor
  · intro hall top' htop' order ho hmax hneighbours
    obtain rfl := hleast.unique htop'
    refine (hwalk order ho (by omega)).mp (hall order ho hmax fun k hk hle => ?_)
    rw [neighbourFree_handed hhanded]
    exact hneighbours k hk hle
  · intro hreturn order ho hmax hneighbours
    refine (hwalk order ho (by omega)).mpr (hreturn top hleast order ho hmax fun k hk hle => ?_)
    rw [←neighbourFree_handed hhanded]
    exact hneighbours k hk hle

end XanaduOS.BuddyReturns
