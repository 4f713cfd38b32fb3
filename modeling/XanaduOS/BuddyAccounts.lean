import XanaduOS.BuddyRuns

/-!
# Accounts of the buddy allocator

A request of more frames than the largest block has is served by a loop of
requests for single blocks. If a later one fails, the blocks obtained before
stay marked and no caller has them; and a release takes one address, so the
blocks behind it stay marked as well. Free frames and frames held add up to the
frames of the memory as long as neither happens and merges go up from lower
halves.
-/

namespace XanaduOS.BuddyAccounts

open KernelDefs BuddyFrameAlloc BuddyBlocks BuddyRuns DyadicBlocks Runs

/-- Frames asked for in one round of a request. -/
def roundFrames (nframes i : ℕ) : ℕ := min (nframes-i*MAX_BUDDY_NFRAMES) MAX_BUDDY_NFRAMES

/-- Rounds of a request. -/
def rounds (nframes : ℕ) : ℕ :=
  nframes/MAX_BUDDY_NFRAMES+(if nframes%MAX_BUDDY_NFRAMES=0 then 0 else 1)

/-- Blocks handed out from a round on. -/
def pieces (nframes : ℕ) : ℕ → List ℕ → List LiveBlock
  | _,[] => []
  | i,addr::rest => ⟨addr,roundFrames nframes i⟩::pieces nframes (i+1) rest

/-- Frames of blocks handed out. -/
def framesOf (live : List LiveBlock) : ℕ := (live.map fun l => 2^getBuddyOrder l.nframes).sum

/-- A successful request, not yet released. -/
structure Allocation where
  /-- Address of each block. -/
  addrs : List ℕ
  /-- Frames requested. -/
  nframes : ℕ
  deriving DecidableEq

/-- Blocks behind a request. -/
def Allocation.blocks (a : Allocation) : List LiveBlock := pieces a.nframes 0 a.addrs

/-- The allocator together with the requests served and not yet released. -/
structure AllocSystem where
  /-- The allocator. -/
  buddy : BuddyAlloc
  /-- Requests. -/
  live : List Allocation

/-- All blocks handed out. -/
def AllocSystem.blocks (s : AllocSystem) : List LiveBlock := s.live.flatMap Allocation.blocks

/-- Frames held by requests. -/
def AllocSystem.heldFrames (s : AllocSystem) : ℕ :=
  (s.live.map fun a => framesOf a.blocks).sum

/-- One call. A release names a request by its first address and its size. -/
def step (s : AllocSystem) : BuddyOp → Option AllocSystem
  | .allocFrames addrs nframes => do
    let r ← buddyAllocFrames s.buddy addrs nframes
    some ⟨r.buddy,if r.ret=0 then ⟨r.addrs,nframes⟩::s.live else s.live⟩
  | .freeFrames addr nframes => do
    let a ← s.live.find? fun a => a.addrs.head?=some addr ∧ a.nframes=nframes
    let buddy ← buddyFreeFrames s.buddy addr nframes
    some ⟨buddy,s.live.erase a⟩

/-- The calls that clients make. -/
def InDomain (s : AllocSystem) : BuddyOp → Prop
  | .allocFrames _ _ => True
  | .freeFrames addr nframes => ∃ a∈s.live,a.addrs.head?=some addr ∧ a.nframes=nframes

/-- A request of one block, or one that has no first block, or one for which
there are enough blocks. -/
def Whole (buddy : BuddyAlloc) (nframes : ℕ) : Prop :=
  nframes≤MAX_BUDDY_NFRAMES ∨ (buddy.freeArea (MAX_ORDER-1)).numFree=0 ∨
  nframes/MAX_BUDDY_NFRAMES≤(buddy.freeArea (MAX_ORDER-1)).numFree ∧
    (nframes%MAX_BUDDY_NFRAMES=0 ∨
      nframes/MAX_BUDDY_NFRAMES<(buddy.freeArea (MAX_ORDER-1)).numFree ∨
      ∃ order,getBuddyOrder (nframes%MAX_BUDDY_NFRAMES)≤order ∧ order<MAX_ORDER-1 ∧
        (buddy.freeArea order).numFree≠0)

/-- Requests are served as a whole or not at all, and releases are of requests
of one block and coalesce from lower halves only. -/
def Conserves (s : AllocSystem) : BuddyOp → Prop
  | .allocFrames _ nframes => Whole s.buddy nframes
  | .freeFrames addr nframes =>
    nframes≤MAX_BUDDY_NFRAMES ∧ MergesFromLower s.buddy (getBuddyOrder nframes) addr

variable {start roots : ℕ} {buddy : BuddyAlloc} {live live' : List LiveBlock}

/-! ## One block -/

/-- The order of live blocks does not matter. -/
theorem SystemInvariant.perm (h : SystemInvariant start roots ⟨buddy,live⟩)
    (hperm : live.Perm live') : SystemInvariant start roots ⟨buddy,live'⟩ := by
  refine ⟨h.buddy.congr fun y => ?_,fun l hl => h.aligned l (hperm.mem_iff.mpr hl),
    (hperm.map _).nodup_iff.mp h.nodup⟩
  simp only [blocksOf,hperm.mem_iff]

/-- A successful search takes the frames of the requested order; a failed one
has seen empty lists only. -/
theorem searchUp_frames {order left i : ℕ} {r : AllocResult}
    (hcount : ∀ k,(buddy.freeArea k).numFree=(buddy.freeArea k).freeList.length)
    (hi : order < i) (hleft : i+left=MAX_ORDER) (h : searchUp order left i buddy=some r) :
    (r.ret=0 → freeFrames r.buddy+2^order=freeFrames buddy) ∧
    (r.ret≠0 → ∀ k,i≤k → k<MAX_ORDER → (buddy.freeArea k).numFree=0) := by
  induction left generalizing i with
  | zero =>
    obtain rfl := Option.some.inj h
    exact ⟨fun h0 => absurd h0 (by norm_num),fun _ k hk hlt => by omega⟩
  | succ left ih =>
    rw [searchUp] at h
    by_cases hz : (buddy.freeArea i).numFree=0
    · simp only [if_pos hz] at h
      obtain ⟨hserved,hfailed⟩ := ih (by omega) (by omega) h
      refine ⟨hserved,fun hret k hk hlt => ?_⟩
      rcases hk.lt_or_eq with hik|rfl
      · exact hfailed hret k hik hlt
      · exact hz
    · simp only [if_neg hz] at h
      cases hlist : (buddy.freeArea i).freeList with
      | nil =>
        rw [hcount,hlist] at hz
        exact absurd rfl hz
      | cons upper rest =>
        simp only [hlist] at h
        obtain ⟨taken,htake,h⟩ := Option.bind_eq_some_iff.mp h
        obtain ⟨⟨sliced,addr⟩,hslice,h⟩ := Option.bind_eq_some_iff.mp h
        obtain rfl := Option.some.inj h
        refine ⟨fun _ => ?_,fun hret => absurd rfl hret⟩
        have hlt : i<MAX_ORDER := by omega
        have hpred := freeFrames_pred buddy hlt hz rest
        have hframes := freeFrames_buddySlice hlt hi hslice
        simp only [removeFreeHead,if_neg hz,hlist,Option.some.injEq] at htake
        rw [htake] at hpred
        simp only
        omega

/-- A request of one block, successful or not. -/
theorem allocMaxOrder_frames {nframes : ℕ} {r : AllocResult}
    (hcount : ∀ k,(buddy.freeArea k).numFree=(buddy.freeArea k).freeList.length)
    (h : buddyAllocFramesMaxOrder buddy nframes=some r) :
    (r.ret=0 → freeFrames r.buddy+2^getBuddyOrder nframes=freeFrames buddy) ∧
    (r.ret≠0 → ∀ k,getBuddyOrder nframes≤k → k<MAX_ORDER → (buddy.freeArea k).numFree=0) := by
  have horder := getBuddyOrder_lt nframes
  simp only [buddyAllocFramesMaxOrder] at h
  by_cases hz : (buddy.freeArea (getBuddyOrder nframes)).numFree=0
  · rw [if_pos hz] at h
    obtain ⟨hserved,hfailed⟩ := searchUp_frames hcount (Nat.lt_succ_self _) (by omega) h
    refine ⟨hserved,fun hret k hk hlt => ?_⟩
    rcases hk.lt_or_eq with hik|rfl
    · exact hfailed hret k hik hlt
    · exact hz
  · rw [if_neg hz] at h
    cases hlist : (buddy.freeArea (getBuddyOrder nframes)).freeList with
    | nil =>
      rw [hcount,hlist] at hz
      exact absurd rfl hz
    | cons free rest =>
      simp only [hlist] at h
      obtain ⟨taken,htake,h⟩ := Option.bind_eq_some_iff.mp h
      obtain rfl := Option.some.inj h
      refine ⟨fun _ => ?_,fun hret => absurd rfl hret⟩
      simp only [removeFreeHead,if_neg hz,hlist,Option.some.injEq] at htake
      rw [freeFrames_setFrameUsed,←htake]
      exact freeFrames_pred buddy horder hz rest

/-- A request of a whole block of the highest order takes it from its list and
leaves the others. -/
theorem allocMaxOrder_whole {r : AllocResult}
    (hcount : ∀ k,(buddy.freeArea k).numFree=(buddy.freeArea k).freeList.length)
    (hne : (buddy.freeArea (MAX_ORDER-1)).numFree≠0)
    (h : buddyAllocFramesMaxOrder buddy MAX_BUDDY_NFRAMES=some r) :
    r.ret=0 ∧ (r.buddy.freeArea (MAX_ORDER-1)).numFree+1=
        (buddy.freeArea (MAX_ORDER-1)).numFree ∧
      ∀ k,k≠MAX_ORDER-1 → r.buddy.freeArea k=buddy.freeArea k := by
  have horder : getBuddyOrder MAX_BUDDY_NFRAMES=MAX_ORDER-1 := by decide
  simp only [buddyAllocFramesMaxOrder,horder] at h
  rw [if_neg hne] at h
  cases hlist : (buddy.freeArea (MAX_ORDER-1)).freeList with
  | nil =>
    rw [hcount,hlist] at hne
    exact absurd rfl hne
  | cons free rest =>
    simp only [hlist] at h
    obtain ⟨taken,htake,h⟩ := Option.bind_eq_some_iff.mp h
    obtain rfl := Option.some.inj h
    simp only [removeFreeHead,if_neg hne,hlist,Option.some.injEq] at htake
    subst htake
    refine ⟨rfl,?_,fun k hk => ?_⟩
    · simp only [setFrameUsed,BuddyAlloc.setMap,BuddyAlloc.setArea,Function.update_self]
      omega
    · simp only [setFrameUsed,BuddyAlloc.setMap,BuddyAlloc.setArea,Function.update_of_ne hk]

/-! ## Requests -/

/-- Rounds of a request take blocks until one fails. -/
theorem SystemInvariant.serve {nframes : ℕ} (left i : ℕ) (acc : List ℕ)
    (h : SystemInvariant start roots ⟨buddy,live⟩) :
    ∃ r new,allocRounds nframes left i buddy acc=some r ∧ r.addrs=acc++new ∧
      (r.ret=0 → new.length=left) ∧ (r.ret≠0 → new.length<left) ∧
      freeFrames r.buddy+framesOf (pieces nframes i new)=freeFrames buddy ∧
      SystemInvariant start roots ⟨r.buddy,pieces nframes i new++live⟩ := by
  induction left generalizing i acc buddy live with
  | zero =>
    exact ⟨_,[],rfl,(List.append_nil _).symm,fun _ => rfl,fun hne => absurd rfl hne,rfl,h⟩
  | succ left ih =>
    obtain ⟨r,hr,hserved⟩ := h.buddy.allocMaxOrder (roundFrames nframes i)
    have hframes : r.ret=0 → freeFrames r.buddy+2^getBuddyOrder (roundFrames nframes i)=
        freeFrames buddy := (allocMaxOrder_frames (fun k => (h.buddy.area k).counted) hr).1
    rw [roundFrames] at hr
    rcases hserved with ⟨hret,haddrs,hsame⟩|⟨z,hret,ho,haddrs,hz,hinv⟩
    · refine ⟨⟨r.ret,r.buddy,acc++r.addrs⟩,[],?_,?_,fun h0 => absurd h0 hret,
        fun _ => Nat.succ_pos left,?_,?_⟩
      · simp only [allocRounds,hr,Option.bind_eq_bind,Option.bind_some,if_pos hret]
        rfl
      · rw [haddrs]
      · rw [hsame]
        rfl
      · rw [hsame]
        exact h
    · obtain ⟨r',new,hrounds,haddrs',hall,hsome,hsum,hinv'⟩ :=
        ih (i+1) (acc++r.addrs) (h.hand ho hz hinv)
      refine ⟨r',blockAddr start z::new,?_,?_,fun h0 => congrArg Nat.succ (hall h0),
        fun h0 => Nat.succ_lt_succ (hsome h0),?_,SystemInvariant.perm hinv' List.perm_middle⟩
      · simp only [allocRounds,hr,Option.bind_eq_bind,Option.bind_some,hret,ne_eq,
          not_true_eq_false,if_false]
        exact hrounds
      · rw [haddrs',haddrs,List.append_assoc,List.singleton_append]
      · have htaken := hframes hret
        simp only [pieces,framesOf,List.map_cons,List.sum_cons] at hsum ⊢
        omega

/-- With enough blocks every round of a request succeeds. -/
theorem SystemInvariant.serve_succeeds {nframes : ℕ} (left i : ℕ) (acc : List ℕ)
    (h : SystemInvariant start roots ⟨buddy,live⟩) (hrounds : i+left=rounds nframes)
    (hwhole : nframes/MAX_BUDDY_NFRAMES ≤ i+(buddy.freeArea (MAX_ORDER-1)).numFree)
    (hrest : nframes%MAX_BUDDY_NFRAMES=0 ∨
      nframes/MAX_BUDDY_NFRAMES < i+(buddy.freeArea (MAX_ORDER-1)).numFree ∨
      ∃ order,getBuddyOrder (nframes%MAX_BUDDY_NFRAMES)≤order ∧ order<MAX_ORDER-1 ∧
        (buddy.freeArea order).numFree≠0) :
    ∃ r,allocRounds nframes left i buddy acc=some r ∧ r.ret=0 := by
  induction left generalizing i acc buddy live with
  | zero => exact ⟨_,rfl,rfl⟩
  | succ left ih =>
    have hcount : ∀ k,(buddy.freeArea k).numFree=(buddy.freeArea k).freeList.length :=
      fun k => (h.buddy.area k).counted
    have hdiv := Nat.div_add_mod nframes MAX_BUDDY_NFRAMES
    have hmod := Nat.mod_lt nframes (by norm_num : 0<MAX_BUDDY_NFRAMES)
    simp only [rounds,MAX_BUDDY_NFRAMES] at hrounds hdiv hmod hwhole hrest
    obtain ⟨r,hr,hserved⟩ := h.buddy.allocMaxOrder (roundFrames nframes i)
    have hfailed := (allocMaxOrder_frames hcount hr).2
    by_cases hfull : i<nframes/1024
    · have hround : roundFrames nframes i=MAX_BUDDY_NFRAMES := by
        simp only [roundFrames,MAX_BUDDY_NFRAMES]
        omega
      have hne : (buddy.freeArea (MAX_ORDER-1)).numFree≠0 := by omega
      have hround' := hround
      rw [roundFrames] at hround'
      rw [hround] at hr hserved
      obtain ⟨hret,hpred,hsame⟩ := allocMaxOrder_whole hcount hne hr
      obtain ⟨hbad,-⟩|⟨z,-,ho,-,hz,hinv⟩ := hserved
      · exact absurd hret hbad
      · have hwhole' : nframes/1024 ≤ i+1+(r.buddy.freeArea (MAX_ORDER-1)).numFree := by omega
        have hrest' : nframes%1024=0 ∨
            nframes/1024 < i+1+(r.buddy.freeArea (MAX_ORDER-1)).numFree ∨
            ∃ order,getBuddyOrder (nframes%1024)≤order ∧ order<MAX_ORDER-1 ∧
              (r.buddy.freeArea order).numFree≠0 := by
          refine hrest.imp_right (Or.imp (fun hlt => by omega) ?_)
          rintro ⟨order,hlow,hhigh,hfree⟩
          exact ⟨order,hlow,hhigh,by rwa [hsame order hhigh.ne]⟩
        have hleft : i+1+left=rounds nframes := by
          simp only [rounds,MAX_BUDDY_NFRAMES]
          omega
        obtain ⟨r',hr',hret'⟩ := ih (i+1) (acc++r.addrs) (h.hand ho hz hinv) hleft hwhole' hrest'
        refine ⟨r',?_,hret'⟩
        simp only [allocRounds,hround',hr,Option.bind_eq_bind,Option.bind_some,hret,ne_eq,
          not_true_eq_false,if_false]
        exact hr'
    · have hlast : left=0 ∧ i=nframes/1024 ∧ nframes%1024≠0 := by
        split at hrounds <;> omega
      obtain ⟨rfl,hi,hpos⟩ := hlast
      have hround : roundFrames nframes i=nframes%1024 := by
        simp only [roundFrames,MAX_BUDDY_NFRAMES]
        omega
      have hret : r.ret=0 := by
        by_contra hbad
        rw [hround] at hfailed
        have horder := getBuddyOrder_lt (nframes%1024)
        have htop := hfailed hbad (MAX_ORDER-1) (by simp only [MAX_ORDER] at horder ⊢; omega)
          (by norm_num)
        rcases hrest with h0|hlt|⟨order,hlow,hhigh,hfree⟩
        · exact hpos h0
        · omega
        · exact hfree (hfailed hbad order hlow (by simp only [MAX_ORDER] at hhigh ⊢; omega))
      have hr' := hr
      rw [roundFrames] at hr'
      refine ⟨⟨0,r.buddy,acc++r.addrs⟩,?_,rfl⟩
      simp only [allocRounds,hr',Option.bind_eq_bind,Option.bind_some,hret,ne_eq,
        not_true_eq_false,if_false]

/-- A request that fails has taken no block, if it is served as a whole or not
at all. -/
theorem Whole.takes_nothing {nframes : ℕ} {r : AllocResult} {new : List ℕ}
    (hwhole : Whole buddy nframes) (h : SystemInvariant start roots ⟨buddy,live⟩)
    (hr : allocRounds nframes (rounds nframes) 0 buddy []=some r) (haddrs : r.addrs=[]++new)
    (hsome : r.ret≠0 → new.length < rounds nframes) (hret : r.ret≠0) : new=[] := by
  rcases hwhole with hone|hempty|⟨henough,hrest⟩
  · have hlen := hsome hret
    simp only [rounds,MAX_BUDDY_NFRAMES] at hlen hone
    refine List.length_eq_zero_iff.mp ?_
    split at hlen <;> omega
  · by_cases hone : nframes≤MAX_BUDDY_NFRAMES
    · have hlen := hsome hret
      simp only [rounds,MAX_BUDDY_NFRAMES] at hlen hone
      refine List.length_eq_zero_iff.mp ?_
      split at hlen <;> omega
    · have hround : min (nframes-0*MAX_BUDDY_NFRAMES) MAX_BUDDY_NFRAMES=MAX_BUDDY_NFRAMES := by
        simp only [MAX_BUDDY_NFRAMES] at hone ⊢
        omega
      have hfail : buddyAllocFramesMaxOrder buddy MAX_BUDDY_NFRAMES=some ⟨ENOMEM,buddy,[]⟩ := by
        have horder : getBuddyOrder MAX_BUDDY_NFRAMES=MAX_ORDER-1 := by decide
        simp only [buddyAllocFramesMaxOrder,horder]
        rw [if_pos hempty]
        rfl
      obtain ⟨left,hleft⟩ : ∃ left,rounds nframes=left+1 :=
        Nat.exists_eq_succ_of_ne_zero (by
          simp only [rounds,MAX_BUDDY_NFRAMES] at hone ⊢
          omega)
      rw [hleft] at hr
      simp only [allocRounds,hround,hfail,Option.bind_eq_bind,Option.bind_some] at hr
      obtain rfl := Option.some.inj hr
      exact (List.append_eq_nil_iff.mp haddrs.symm).2
  · obtain ⟨r',hr',hret'⟩ := SystemInvariant.serve_succeeds (rounds nframes) 0 [] h
      (Nat.zero_add _) (by omega) (by simpa only [Nat.zero_add] using hrest)
    rw [hr] at hr'
    exact absurd ((congrArg AllocResult.ret (Option.some.inj hr')).trans hret') hret

/-! ## Runs -/

/-- The blocks handed out are sound, each request has its blocks, and free and
held frames add up to a total. -/
structure Accounted (start roots total : ℕ) (s : AllocSystem) : Prop where
  /-- Blocks. -/
  system : SystemInvariant start roots ⟨s.buddy,s.blocks⟩
  /-- Requests. -/
  served : ∀ a∈s.live,a.addrs.length=rounds a.nframes
  /-- Frames. -/
  sum : freeFrames s.buddy+s.heldFrames=total

variable {total : ℕ} {s : AllocSystem}

/-- A request keeps the accounts. -/
theorem Accounted.alloc (h : Accounted start roots total s) (addrs : ℕ) {nframes : ℕ}
    (hwhole : Whole s.buddy nframes) :
    ∃ t,step s (.allocFrames addrs nframes)=some t ∧ Accounted start roots total t := by
  by_cases ha : addrs=0
  · refine ⟨s,?_,h⟩
    simp only [step,buddyAllocFrames,if_pos ha]
    rfl
  · obtain ⟨r,new,hr,haddrs,hall,hsome,hframes,hinv⟩ :=
      @SystemInvariant.serve start roots _ _ nframes (rounds nframes) 0 [] h.system
    have hstep : step s (.allocFrames addrs nframes)=
        some ⟨r.buddy,if r.ret=0 then ⟨r.addrs,nframes⟩::s.live else s.live⟩ := by
      simp only [step,buddyAllocFrames,if_neg ha]
      rw [←rounds,hr]
      rfl
    refine ⟨_,hstep,?_⟩
    have hsum := h.sum
    rw [List.nil_append] at haddrs
    by_cases hret : r.ret=0
    · rw [if_pos hret,haddrs]
      refine ⟨hinv,fun a ha => ?_,?_⟩
      · rcases List.mem_cons.mp ha with rfl|ha
        · exact hall hret
        · exact h.served a ha
      · simp only [AllocSystem.heldFrames,List.map_cons,List.sum_cons] at hsum hframes ⊢
        rw [←hsum,←hframes,Allocation.blocks]
        exact (Nat.add_assoc _ _ _).symm
    · obtain rfl := hwhole.takes_nothing h.system hr (haddrs.trans (List.nil_append _).symm)
        hsome hret
      rw [if_neg hret]
      refine ⟨hinv,h.served,?_⟩
      rw [←hsum]
      exact congrArg (· + s.heldFrames) hframes

/-- Releasing a request of one block keeps the accounts. -/
theorem Accounted.free (h : Accounted start roots total s) {addr nframes : ℕ}
    (hdom : InDomain s (.freeFrames addr nframes)) (hone : nframes≤MAX_BUDDY_NFRAMES)
    (hwithin : MergesWithin start s.buddy (getBuddyOrder nframes) addr) :
    ∃ t,step s (.freeFrames addr nframes)=some t ∧ Accounted start roots total t := by
  obtain ⟨a,hfind⟩ : ∃ a,s.live.find? (fun a =>
      decide (a.addrs.head?=some addr ∧ a.nframes=nframes))=some a := by
    refine Option.isSome_iff_exists.mp (List.find?_isSome.mpr ?_)
    obtain ⟨a,hmem,ha⟩ := hdom
    exact ⟨a,hmem,decide_eq_true ha⟩
  have hmem := List.mem_of_find?_eq_some hfind
  have hnames := List.find?_some hfind
  obtain ⟨hhead,rfl⟩ := of_decide_eq_true hnames
  have hround : roundFrames a.nframes 0=a.nframes := by
    simp only [roundFrames,MAX_BUDDY_NFRAMES] at hone ⊢
    omega
  have hblocks : a.blocks=[⟨addr,a.nframes⟩] := by
    have hlen := h.served a hmem
    have hrounds : rounds a.nframes≤1 := by
      simp only [rounds,MAX_BUDDY_NFRAMES] at hone ⊢
      split <;> omega
    rw [Allocation.blocks]
    cases haddrs : a.addrs with
    | nil =>
      rw [haddrs] at hhead
      contradiction
    | cons first rest =>
      rw [haddrs] at hhead hlen
      obtain rfl := Option.some.inj hhead
      obtain rfl : rest=[] := List.length_eq_zero_iff.mp (by simp at hlen; omega)
      simp only [pieces,hround]
  have hlive : ⟨addr,a.nframes⟩∈s.blocks :=
    List.mem_flatMap.mpr ⟨a,hmem,hblocks▸List.mem_singleton_self _⟩
  obtain ⟨buddy',hfree,hframes,hinv⟩ := h.system.free hlive hwithin
  have hperm := List.perm_cons_erase hmem
  refine ⟨⟨buddy',s.live.erase a⟩,?_,SystemInvariant.perm hinv ?_,
    fun b hb => h.served b (List.mem_of_mem_erase hb),?_⟩
  · simp only at hfree
    simp only [step,hfind,Option.bind_eq_bind,Option.bind_some,hfree]
  · have hflat : s.blocks.Perm (⟨addr,a.nframes⟩::(s.live.erase a).flatMap Allocation.blocks) := by
      have := hperm.flatMap_right Allocation.blocks
      rwa [List.flatMap_cons,hblocks] at this
    have herase := hflat.erase ⟨addr,a.nframes⟩
    rwa [List.erase_cons_head] at herase
  · have hsum := h.sum
    have hheld := (hperm.map fun a => framesOf a.blocks).sum_eq
    simp only [AllocSystem.heldFrames,List.map_cons,List.sum_cons,hblocks,framesOf,List.map_nil,
      List.sum_nil] at hsum hheld hframes ⊢
    omega

/-- Along every run from a new allocator whose requests are served as a whole or
not at all and whose releases are of one block each and coalesce from lower
halves only, free and held frames add up to the frames at the beginning, and
every further such call has a result that keeps this. -/
theorem run_conserves {memStart memLimit stale : ℕ} (hstart : MAX_BUDDY_SIZE∣memStart)
    (hle : memStart ≤ memLimit) (hlimit : memLimit<2^32)
    (hcreate : buddyAllocCreate memStart memLimit stale=some buddy) {ops : List BuddyOp}
    {t : AllocSystem} (hrun : Run (Guarded (Steps step) fun s op => InDomain s op ∧ Conserves s op)
      ⟨buddy,[]⟩ ops t) :
    freeFrames t.buddy+t.heldFrames=freeFrames buddy ∧
    ∀ op,InDomain t op → Conserves t op → ∃ t',step t op=some t' ∧
      freeFrames t'.buddy+t'.heldFrames=freeFrames buddy := by
  have hstep : ∀ {s : AllocSystem} {op : BuddyOp},
      Accounted memStart ((memLimit-memStart)/MAX_BUDDY_SIZE) (freeFrames buddy) s →
      InDomain s op → Conserves s op → ∃ t,step s op=some t ∧
        Accounted memStart ((memLimit-memStart)/MAX_BUDDY_SIZE) (freeFrames buddy) t := by
    intro s op h hdom hop
    cases op with
    | allocFrames addrs nframes => exact h.alloc addrs hop
    | freeFrames addr nframes =>
      exact h.free hdom hop.1 (@LowerHalfFrees.within memStart ⟨s.buddy,[]⟩
        (.freeFrames addr nframes) hstart hop.2)
  have hcreated : Accounted memStart ((memLimit-memStart)/MAX_BUDDY_SIZE) (freeFrames buddy)
      ⟨buddy,[]⟩ :=
    ⟨(buddyAllocCreate_invariant hle hlimit hcreate).1,by simp,rfl⟩
  have hreached := hrun.guarded_invariant (fun hi hg htaken => by
    obtain ⟨u,hu,hinv⟩ := hstep hi hg.1 hg.2
    exact Option.some.inj (hu.symm.trans htaken)▸hinv) hcreated
  refine ⟨hreached.sum,fun op hdom hop => ?_⟩
  obtain ⟨u,hu,hinv⟩ := hstep hreached hdom hop
  exact ⟨u,hu,hinv.sum⟩

/-- A request of two blocks, and a frame taken and released behind them. -/
theorem run_conserves_sample : ∃ buddy t,buddyAllocCreate 0x400000 0xC00000 0=some buddy ∧
    Run (Guarded (Steps step) fun s op => InDomain s op ∧ Conserves s op) ⟨buddy,[]⟩
      [.allocFrames 1 1500,.allocFrames 1 1,.freeFrames 0xA00000 1] t ∧
    freeFrames t.buddy+t.heldFrames=freeFrames buddy := by
  have hobserve : ((buddyAllocCreate 0x400000 0xC00000 0).bind fun buddy =>
      if 1500/MAX_BUDDY_NFRAMES<(buddy.freeArea (MAX_ORDER-1)).numFree then
        (step ⟨buddy,[]⟩ (.allocFrames 1 1500)).bind fun s =>
        (step s (.allocFrames 1 1)).bind fun u =>
        if (∃ a∈u.live,a.addrs.head?=some 0xA00000 ∧ a.nframes=1) ∧
            neighbourFree u.buddy 9 0xA00000=false then step u (.freeFrames 0xA00000 1) else none
      else none).isSome := by decide
  obtain ⟨t,ht⟩ := Option.isSome_iff_exists.mp hobserve
  obtain ⟨buddy,hcreate,ht⟩ := Option.bind_eq_some_iff.mp ht
  obtain ⟨henough,ht⟩ := Option.ite_none_right_eq_some.mp ht
  obtain ⟨s,hs,ht⟩ := Option.bind_eq_some_iff.mp ht
  obtain ⟨u,hu,ht⟩ := Option.bind_eq_some_iff.mp ht
  obtain ⟨⟨hdom,hused⟩,ht⟩ := Option.ite_none_right_eq_some.mp ht
  have hlower : MergesFromLower u.buddy (getBuddyOrder 1) 0xA00000 := by
    intro top hlow htop hall
    have horder : getBuddyOrder 1=0 := by decide
    rw [horder] at hall
    have hlt : top<9 := by
      by_contra hge
      rw [hall 9 (by norm_num) (by omega)] at hused
      contradiction
    have heven : ∀ k<9,0xA00000/blockSize k%2=0 := by decide
    exact heven top hlt
  have hrun : Run (Guarded (Steps step) fun s op => InDomain s op ∧ Conserves s op) ⟨buddy,[]⟩
      [.allocFrames 1 1500,.allocFrames 1 1,.freeFrames 0xA00000 1] t :=
    Run.cons ⟨⟨trivial,Or.inr (Or.inr ⟨henough.le,Or.inr (Or.inl henough)⟩)⟩,hs⟩
      (Run.cons ⟨⟨trivial,Or.inl (by norm_num)⟩,hu⟩
        (Run.cons ⟨⟨hdom,by norm_num,hlower⟩,ht⟩ (Run.nil t)))
  exact ⟨buddy,t,hcreate,hrun,(run_conserves (by norm_num) (by norm_num) (by norm_num) hcreate
    hrun).1⟩

/-- A request for two blocks of the highest order where there is one fails and
keeps the first. -/
theorem conserves_counterexample : ¬∀ (memStart memLimit stale : ℕ) (buddy : BuddyAlloc)
    (ops : List BuddyOp) (t : AllocSystem),MAX_BUDDY_SIZE∣memStart → memStart ≤ memLimit →
    memLimit<2^32 → buddyAllocCreate memStart memLimit stale=some buddy →
    Run (Steps step) ⟨buddy,[]⟩ ops t → freeFrames t.buddy+t.heldFrames=freeFrames buddy := by
  intro hall
  have hobserve : ((buddyAllocCreate 0x400000 0x800000 0).bind fun buddy =>
      (step ⟨buddy,[]⟩ (.allocFrames 1 2048)).map fun t =>
        (freeFrames t.buddy+t.heldFrames,freeFrames buddy))=some (0,1024) := by decide
  obtain ⟨buddy,hcreate,hobserve⟩ := Option.bind_eq_some_iff.mp hobserve
  obtain ⟨t,hstep,hstate⟩ := Option.map_eq_some_iff.mp hobserve
  have hsum := hall 0x400000 0x800000 0 buddy [.allocFrames 1 2048] t (by norm_num) (by norm_num)
    (by norm_num) hcreate (Run.cons hstep (Run.nil t))
  rw [(Prod.mk.inj hstate).1,(Prod.mk.inj hstate).2] at hsum
  contradiction

end XanaduOS.BuddyAccounts
