import XanaduOS.MemoryMapping
import XanaduOS.TableAllocation

/-!
# Mappings that fail

A mapping takes a virtual block, then a table, then frames, and gives nothing
back when a later stage fails. Every block handed out leaves fewer frames on
the free lists, so a failed mapping leaves the state as it was exactly where
the allocator had no block to begin with.
-/

namespace XanaduOS.MappingFailures

open Word32 BitWords KernelDefs BuddyFrameAlloc BuddyBlocks PageTables MemoryMapping
open TableAllocation

/-- The physical page that a page of a directory is mapped to, if it is present. -/
def pageTarget (s : Paging) (pd pde pte : ℕ) : Option ℕ :=
  let pt := (s.dirs pd).pageTablesVirt pde
  if slotPresent s pd pde && tabPresent (s.tables pt pte) then
    some (getTabPureAddr (s.tables pt pte))
  else none

/-- Blocks, frames and pages are as they were. -/
structure Untouched (s t : MapState) : Prop where
  /-- The free lists hold the same blocks in the same order. -/
  lists : ∀ order,(t.buddy.freeArea order).freeList=(s.buddy.freeArea order).freeList
  /-- The same blocks are marked. -/
  bits : t.buddy.maps=s.buddy.maps
  /-- The same frames are in use. -/
  frames : ∀ k,bitAt t.frames.frames k=bitAt s.frames.frames k
  /-- Every page of every directory has the same presence and target. -/
  pages : ∀ pd pde pte,pageTarget t.paging pd pde pte=pageTarget s.paging pd pde pte

/-- The allocator with each counter set to the length of its list. -/
def recount (buddy : BuddyAlloc) : BuddyAlloc :=
  {buddy with freeArea := fun order =>
    {buddy.freeArea order with numFree := (buddy.freeArea order).freeList.length}}

/-- Frames of the blocks on the free lists, whatever the counters say. -/
def listedFrames (buddy : BuddyAlloc) : ℕ := freeFrames (recount buddy)

variable {buddy buddy' : BuddyAlloc} {order addr : ℕ}

/-! ## Frames on the lists -/

/-- Replacing an area, recounted. -/
theorem recount_setArea (area : FreeArea) : recount (buddy.setArea order area)=
    (recount buddy).setArea order {area with numFree := area.freeList.length} := by
  simp only [recount,BuddyAlloc.setArea]
  congr 1
  funext k
  by_cases hk : k=order
  · subst hk
    simp only [Function.update_self]
  · simp only [Function.update_of_ne hk]

/-- A push, recounted. -/
theorem recount_insertBuddy :
    recount (insertBuddy buddy order addr)=insertBuddy (recount buddy) order addr :=
  recount_setArea _

/-- Slicing does not look at the counters. -/
theorem recount_buddySlice {target level a : ℕ}
    (h : buddySlice addr target level buddy=some (buddy',a)) :
    buddySlice addr target level (recount buddy)=some (recount buddy',a) := by
  induction level generalizing buddy with
  | zero => cases h
  | succ level ih =>
    rw [buddySlice] at h ⊢
    have hpush : insertBuddy (setFrameUsed (recount buddy) (level+1) addr) level
        (wadd addr (blockSize (level+1)/2))=recount (insertBuddy
          (setFrameUsed buddy (level+1) addr) level (wadd addr (blockSize (level+1)/2))) :=
      (@recount_insertBuddy (setFrameUsed buddy (level+1) addr) level _).symm
    rw [hpush]
    split at h
    case isTrue hlt =>
      rw [if_pos hlt]
      exact ih h
    case isFalse hge =>
      rw [if_neg hge]
      cases h
      rfl

/-- Frames of lists are known from the lists. -/
theorem listedFrames_congr
    (h : ∀ order,(buddy'.freeArea order).freeList=(buddy.freeArea order).freeList) :
    listedFrames buddy'=listedFrames buddy := by
  simp only [listedFrames,freeFrames,recount,h]

/-- Taking the head of a list takes the frames of its block. -/
theorem listedFrames_head {area : FreeArea} {block : ℕ} {rest : List ℕ} (ho : order<MAX_ORDER)
    (hlist : (buddy.freeArea order).freeList=block::rest) (hrest : area.freeList=rest) :
    listedFrames (buddy.setArea order area)+2^order=listedFrames buddy := by
  have hcount : ((recount buddy).freeArea order).numFree≠0 := by
    simp only [recount,hlist,List.length_cons]
    exact Nat.succ_ne_zero _
  have hpred := freeFrames_pred (recount buddy) ho hcount rest
  have hset := freeFrames_setArea (recount buddy) ho {area with numFree := area.freeList.length}
  have hset' := freeFrames_setArea (recount buddy) ho {(recount buddy).freeArea order with
    freeList := rest,numFree := ((recount buddy).freeArea order).numFree-1}
  have hlen : ((recount buddy).freeArea order).numFree-1=rest.length := by
    simp only [recount,hlist,List.length_cons]
    omega
  simp only [hlen] at hpred hset'
  simp only [hrest] at hset
  rw [listedFrames,listedFrames,recount_setArea,hrest]
  omega

/-! ## Blocks taken -/

/-- What a search for a block does: it takes the frames of the order, or it
has met no block and leaves lists and bits. -/
structure Searched (buddy : BuddyAlloc) (order : ℕ) (block : Option ℕ) (r : AllocResult) :
    Prop where
  /-- It succeeds exactly when there is a block. -/
  served : r.ret=0 ↔ block≠none
  /-- A block's frames are gone from the lists. -/
  taken : r.ret=0 → listedFrames r.buddy+2^order=listedFrames buddy
  /-- Without a block the lists stay. -/
  lists : r.ret≠0 → ∀ k,(r.buddy.freeArea k).freeList=(buddy.freeArea k).freeList
  /-- Without a block the bits stay. -/
  bits : r.ret≠0 → r.buddy.maps=buddy.maps

/-- The search above the requested order. -/
theorem searchUp_searched {left i : ℕ} {r : AllocResult} (hi : order < i)
    (hleft : i+left=MAX_ORDER) (h : searchUp order left i buddy=some r) :
    Searched buddy order (firstBlock buddy left i) r := by
  induction left generalizing i buddy with
  | zero =>
    cases h
    exact ⟨by simp [firstBlock],fun hret => absurd hret (Nat.succ_ne_zero _),fun _ _ => rfl,
      fun _ => rfl⟩
  | succ left ih =>
    have hlt : i<MAX_ORDER := by omega
    simp only [searchUp] at h
    rw [firstBlock]
    by_cases hz : (buddy.freeArea i).numFree=0
    · rw [if_pos hz] at h ⊢
      exact ih (by omega) (by omega) h
    · rw [if_neg hz] at h ⊢
      cases hlist : (buddy.freeArea i).freeList with
      | nil =>
        simp only [hlist] at h ⊢
        by_cases htail : (buddy.freeArea i).tail=0
        · rw [if_pos htail] at h
          have hsame : ∀ k,((buddy.setArea i ⟨[],(buddy.freeArea i).tail,0⟩).freeArea k).freeList=
              (buddy.freeArea k).freeList := by
            intro k
            by_cases hk : k=i
            · subst hk
              simp [BuddyAlloc.setArea,hlist]
            · simp [BuddyAlloc.setArea,hk]
          have hrest := ih (by omega) (by omega) h
          rw [firstBlock_setArea (Nat.lt_succ_self i)] at hrest
          refine ⟨hrest.served,fun hret => ?_,fun hret k => (hrest.lists hret k).trans ?_,hrest.bits⟩
          · rw [hrest.taken hret]
            exact listedFrames_congr hsame
          · exact hsame k
        · rw [if_neg htail] at h
          cases h
      | cons upper rest =>
        simp only [hlist] at h ⊢
        obtain ⟨taken,htake,h⟩ := Option.bind_eq_some_iff.mp h
        obtain ⟨⟨sliced,addr⟩,hslice,h⟩ := Option.bind_eq_some_iff.mp h
        cases h
        simp only [removeFreeHead,if_neg hz,hlist,Option.some.injEq] at htake
        have hhead := @listedFrames_head buddy i {buddy.freeArea i with
          freeList := rest,numFree := (buddy.freeArea i).numFree-1} upper rest hlt hlist rfl
        have hframes := freeFrames_buddySlice hlt hi (recount_buddySlice hslice)
        rw [htake] at hhead
        change listedFrames sliced+2^order=listedFrames taken+2^i at hframes
        refine ⟨by simp,fun _ => ?_,fun hret => absurd rfl hret,fun hret => absurd rfl hret⟩
        simp only
        omega

/-- A request for one block. -/
theorem allocMaxOrder_searched {nframes : ℕ} {r : AllocResult}
    (h : buddyAllocFramesMaxOrder buddy nframes=some r) :
    Searched buddy (getBuddyOrder nframes) (servingBlock buddy nframes) r := by
  have horder := getBuddyOrder_lt nframes
  have hleft : MAX_ORDER-getBuddyOrder nframes=MAX_ORDER-(getBuddyOrder nframes+1)+1 := by omega
  rw [servingBlock,hleft,firstBlock]
  simp only [buddyAllocFramesMaxOrder] at h
  by_cases hz : (buddy.freeArea (getBuddyOrder nframes)).numFree=0
  · rw [if_pos hz] at h ⊢
    exact searchUp_searched (Nat.lt_succ_self _) (by omega) h
  · rw [if_neg hz] at h ⊢
    cases hlist : (buddy.freeArea (getBuddyOrder nframes)).freeList with
    | nil =>
      simp only [hlist] at h
      cases h
    | cons free rest =>
      simp only [hlist] at h ⊢
      obtain ⟨taken,htake,h⟩ := Option.bind_eq_some_iff.mp h
      cases h
      simp only [removeFreeHead,if_neg hz,hlist,Option.some.injEq] at htake
      have hhead := @listedFrames_head buddy _ {buddy.freeArea (getBuddyOrder nframes) with
        freeList := rest,numFree := (buddy.freeArea (getBuddyOrder nframes)).numFree-1} free rest
        horder hlist rfl
      rw [htake] at hhead
      refine ⟨by simp,fun _ => ?_,fun hret => absurd rfl hret,fun hret => absurd rfl hret⟩
      have hused : listedFrames (setFrameUsed taken (getBuddyOrder nframes) free)=
          listedFrames taken := listedFrames_congr fun _ => rfl
      rw [hused]
      exact hhead

/-- Rounds leave no more frames on the lists than there were. -/
theorem allocRounds_le {nframes left i : ℕ} {acc : List ℕ} {r : AllocResult}
    (h : allocRounds nframes left i buddy acc=some r) :
    listedFrames r.buddy≤listedFrames buddy := by
  induction left generalizing i buddy acc with
  | zero =>
    cases h
    exact Nat.le_refl _
  | succ left ih =>
    rw [allocRounds] at h
    obtain ⟨first,hfirst,h⟩ := Option.bind_eq_some_iff.mp h
    have hsearched := allocMaxOrder_searched hfirst
    by_cases hret : first.ret=0
    · rw [if_neg (not_not_intro hret)] at h
      refine (ih h).trans ?_
      rw [←hsearched.taken hret]
      exact Nat.le_add_right _ _
    · rw [if_pos hret] at h
      cases h
      exact (listedFrames_congr (hsearched.lists hret)).le

/-- A request leaves fewer frames on the lists, or it has met no block and left
lists and bits. -/
theorem buddyAllocFrames_searched {n : ℕ} {r : AllocResult} (h0 : 0<n)
    (h : buddyAllocFrames buddy 1 n=some r) :
    (servingBlock buddy n≠none → listedFrames r.buddy<listedFrames buddy) ∧
    (servingBlock buddy n=none → r.ret≠0 ∧
      (∀ k,(r.buddy.freeArea k).freeList=(buddy.freeArea k).freeList) ∧
      r.buddy.maps=buddy.maps) := by
  have horder : getBuddyOrder (min (n-0*MAX_BUDDY_NFRAMES) MAX_BUDDY_NFRAMES)=getBuddyOrder n := by
    rw [Nat.zero_mul,Nat.sub_zero]
    rcases Nat.le_total n MAX_BUDDY_NFRAMES with hle|hge
    · rw [Nat.min_eq_left hle]
    · rw [Nat.min_eq_right hge]
      rcases hge.eq_or_lt with heq|hlt
      · rw [heq]
      · rw [getBuddyOrder,getBuddyOrder,if_pos hlt]
        decide
  have hserving : servingBlock buddy (min (n-0*MAX_BUDDY_NFRAMES) MAX_BUDDY_NFRAMES)=
      servingBlock buddy n := by rw [servingBlock,servingBlock,horder]
  have hrounds : ∃ left,n/MAX_BUDDY_NFRAMES+(if n%MAX_BUDDY_NFRAMES=0 then 0 else 1)=left+1 := by
    refine Nat.exists_eq_succ_of_ne_zero ?_
    simp only [MAX_BUDDY_NFRAMES]
    split <;> omega
  obtain ⟨left,hleft⟩ := hrounds
  simp only [buddyAllocFrames,if_neg Nat.one_ne_zero,hleft,allocRounds] at h
  obtain ⟨first,hfirst,h⟩ := Option.bind_eq_some_iff.mp h
  have hsearched := allocMaxOrder_searched hfirst
  rw [hserving,horder] at hsearched
  by_cases hret : first.ret=0
  · rw [if_neg (not_not_intro hret)] at h
    have hrest := allocRounds_le h
    have htaken := hsearched.taken hret
    have hpos := Nat.two_pow_pos (getBuddyOrder n)
    exact ⟨fun _ => by omega,fun hnone => absurd hnone (hsearched.served.mp hret)⟩
  · rw [if_pos hret] at h
    cases h
    exact ⟨fun hsome => absurd (hsearched.served.mpr hsome) hret,
      fun _ => ⟨hret,hsearched.lists hret,hsearched.bits hret⟩⟩

/-! ## Failed mappings -/

variable {s : MapState} {pd phys n flags : ℕ} {r : MmapResult}

/-- The allocator after a mapping is the one after its request for a block. A
request that fails ends the mapping. -/
theorem knmmap_stages (h : knmmap s pd phys n flags=some r) :
    ∃ a,buddyAllocFrames s.buddy 1 n=some a ∧ r.state.buddy=a.buddy ∧
      (a.ret≠0 → r.ret=a.ret ∧ r.state.paging=s.paging ∧ r.state.frames=s.frames) := by
  rw [knmmap] at h
  cases hq : knmmapTable s pd n flags with
  | none => simp only [hq] at h; cases h
  | some q =>
    simp only [hq] at h
    have hbuddy : r.state.buddy=q.state.buddy ∧ (q.ret≠0 → r.ret=q.ret ∧ r.state=q.state) := by
      by_cases hret : q.ret=0
      · rw [if_neg (not_not_intro hret)] at h
        split at h
        · cases h
        · split at h
          · cases h
          · cases h
            exact ⟨rfl,fun hne => absurd hret hne⟩
      · rw [if_pos hret] at h
        cases h
        exact ⟨rfl,fun _ => ⟨rfl,rfl⟩⟩
    simp only [knmmapTable] at hq
    cases ha : buddyAllocFrames s.buddy 1 n with
    | none => simp only [ha] at hq; cases hq
    | some a =>
      simp only [ha] at hq
      refine ⟨a,rfl,?_,fun hret => ?_⟩
      · rw [hbuddy.1]
        split at hq
        · cases hq
          rfl
        · split at hq
          · split at hq
            · cases hq
            · split at hq
              · cases hq
                rfl
              · split at hq
                · cases hq
                  rfl
                · cases hq
          · cases hq
      · rw [if_pos hret] at hq
        cases hq
        obtain ⟨hr,hstate⟩ := hbuddy.2 hret
        exact ⟨hr,by rw [hstate],by rw [hstate]⟩

/-- A failed mapping leaves blocks, frames and pages as they were exactly when
the allocator has no block that could serve it. -/
theorem knmmap_untouched_iff (h : knmmap s pd phys n flags=some r) :
    r.ret≠0 → (Untouched s r.state ↔ servingBlock s.buddy n=none) := by
  intro _
  obtain ⟨a,ha,hbuddy,hfailed⟩ := knmmap_stages h
  have h0 : 0<n := by
    by_contra hzero
    obtain rfl : n=0 := by omega
    simp [knmmap,knmmapTable,buddyAllocFrames,allocRounds] at h
  obtain ⟨hless,hsame⟩ := buddyAllocFrames_searched h0 ha
  constructor
  · intro huntouched
    by_contra hsome
    have hlisted := listedFrames_congr huntouched.lists
    rw [hbuddy] at hlisted
    exact absurd hlisted (hless hsome).ne
  · intro hnone
    obtain ⟨haret,hlists,hbits⟩ := hsame hnone
    obtain ⟨-,hpaging,hframes⟩ := hfailed haret
    refine ⟨fun order => ?_,?_,fun k => by rw [hframes],fun _ _ _ => by rw [hpaging]⟩
    · rw [hbuddy,hlists order]
    · rw [hbuddy,hbits]

/-- A free block, and no free frame. -/
def noFrames : MapState :=
  {emptyState 0xD0000000 with frames := ⟨fun _ => 0xFFFFFFFF#32,1,FrameAlloc.oneWord_lt⟩}

/-- One page without a free frame. -/
theorem knmmap_untouched_iff_noFrames : ∃ r,knmmap noFrames 0xC0200000 0 1 3=some r ∧
    (Untouched noFrames r.state ↔ servingBlock noFrames.buddy 1=none) := by
  have hrun : ∃ r,knmmap noFrames 0xC0200000 0 1 3=some r ∧ r.ret≠0 := ⟨_,rfl,by decide⟩
  obtain ⟨r,hr,hret⟩ := hrun
  exact ⟨r,hr,knmmap_untouched_iff hr hret⟩

/-- When no frame is found the block stays taken. -/
theorem block_stays_taken : ¬∀ (s : MapState) (pd phys n flags : ℕ) (r : MmapResult),
    knmmap s pd phys n flags=some r → r.ret≠0 → Untouched s r.state := by
  intro h
  have hrun : ∃ r,knmmap noFrames 0xC0200000 0 1 3=some r ∧ r.ret≠0 ∧
      (r.state.buddy.freeArea 10).freeList=[] := ⟨_,rfl,by decide,rfl⟩
  obtain ⟨r,hr,hret,hlist⟩ := hrun
  have hsame := (h noFrames _ _ _ _ r hr hret).lists 10
  rw [hlist] at hsame
  cases hsame

end XanaduOS.MappingFailures
