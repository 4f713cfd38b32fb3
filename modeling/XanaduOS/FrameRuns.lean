import XanaduOS.FrameGroups
import XanaduOS.Runs

/-!
# When the frame search hands out only free frames

Live frames keep their bits along any run of searches and releases. So a call
that succeeds hands out frames that are free and not live exactly when the
frames of its request are free in the bitmap before it: the groups of eight in
words whose frame 24 is free, and the last group.
-/

namespace XanaduOS.FrameRuns

open Word32 BitWords KernelDefs FrameAlloc FrameGroups Runs

/-- The allocator together with the frames handed out and not yet released. -/
structure FrameSystem where
  /-- The bitmap. -/
  alloc : FrameAllocator
  /-- Frames named by successful calls and not released since. -/
  live : Finset ℕ

/-- Calls of the allocator's clients. -/
inductive FrameOp
  /-- Request any frames, writing the entries at a pointer. -/
  | findAllocNframes (nframes allocAddrs flags : ℕ)
  /-- Release the frame of one entry. -/
  | deallocFrame (addr : ℕ)
  /-- Release the frames of an address range. -/
  | deallocNframes (addr nframes : ℕ)

/-- Frame numbers of an address range. -/
def rangeFrames (addr nframes : ℕ) : Finset ℕ :=
  (Finset.range nframes).image fun i => wadd addr (wmul PAGE_SIZE i)/PAGE_SIZE

/-- One call. A search that fails keeps the bits it set; a release is made
on live frames only. -/
inductive Step : FrameSystem → FrameOp → FrameSystem → Prop
  | found {s : FrameSystem} {n p flags : ℕ} {r : FindResult} (hn : 0<n) (hp : p≠0)
      (hf : flags<PAGE_SIZE) (h : findAllocNframes s.alloc n p flags=some r) (hr : r.ret=0) :
      Step s (.findAllocNframes n p flags)
        ⟨{s.alloc with frames := r.frames},s.live ∪ (framesNamed r.addrs).toFinset⟩
  | notFound {s : FrameSystem} {n p flags : ℕ} {r : FindResult} (hn : 0<n) (hp : p≠0)
      (hf : flags<PAGE_SIZE) (h : findAllocNframes s.alloc n p flags=some r) (hr : r.ret≠0) :
      Step s (.findAllocNframes n p flags) ⟨{s.alloc with frames := r.frames},s.live⟩
  | deallocFrame {s : FrameSystem} {addr : ℕ} (hlive : addr/PAGE_SIZE∈s.live) :
      Step s (.deallocFrame addr)
        ⟨{s.alloc with frames := deallocFrame s.alloc.frames addr},s.live.erase (addr/PAGE_SIZE)⟩
  | deallocNframes {s : FrameSystem} {addr n : ℕ} (hlive : rangeFrames addr n⊆s.live) :
      Step s (.deallocNframes addr n)
        ⟨{s.alloc with frames := deallocNframes s.alloc.frames addr n},
          s.live \ rangeFrames addr n⟩

/-- Live frames are marked used. -/
def LiveMarked (s : FrameSystem) : Prop := ∀ k∈s.live,bitAt s.alloc.frames k=true

/-- Every call keeps the live frames marked: searches only set bits, and a
release clears just the frames that stop being live. -/
theorem Step.liveMarked {s t : FrameSystem} {op : FrameOp} (hs : LiveMarked s)
    (h : Step s op t) : LiveMarked t := by
  cases h with
  | found hn hp hf h hr =>
    intro k hk
    refine ((findAllocNframes_frames hn hp hf h).2 k).mpr ?_
    rcases Finset.mem_union.mp hk with hold|hnew
    · exact Or.inl (hs k hold)
    · exact Or.inr (List.mem_toFinset.mp hnew)
  | notFound hn hp hf h hr =>
    intro k hk
    exact ((findAllocNframes_frames hn hp hf h).2 k).mpr (Or.inl (hs k hk))
  | deallocFrame hlive =>
    intro k hk
    obtain ⟨hne,hold⟩ := Finset.mem_erase.mp hk
    simp [bitAt_deallocFrame,hs k hold,hne]
  | deallocNframes hlive =>
    intro k hk
    obtain ⟨hold,hout⟩ := Finset.mem_sdiff.mp hk
    rw [bitAt_deallocNframes,hs k hold,Bool.true_and,decide_eq_true_iff]
    rintro i hi rfl
    exact hout (Finset.mem_image_of_mem _ (Finset.mem_range.mpr hi))

/-- A successful call hands out frames that were free, pairwise distinct and
not live. -/
def HandsOutFree (s : FrameSystem) (r : FindResult) : Prop :=
  r.ret=0 → (∀ k∈framesNamed r.addrs,bitAt s.alloc.frames k=false ∧ k∉s.live) ∧
    (framesNamed r.addrs).Nodup

/-- Along every run that starts with no live frame, a call hands out only free
frames exactly when the bitmap has no groups for its request, or free ones. -/
theorem run_handsOutFree_iff {s t : FrameSystem} {ops : List FrameOp} (hs : s.live=∅)
    (hrun : Run Step s ops t) {n p flags : ℕ} {r : FindResult} (hn : 0<n) (hp : p≠0)
    (hf : flags<PAGE_SIZE) (h : findAllocNframes t.alloc n p flags=some r) :
    HandsOutFree t r ↔ (Offered t.alloc n → GroupsFree t.alloc n) := by
  have hlive : LiveMarked t := by
    refine hrun.invariant (fun hi hstep => hstep.liveMarked hi) ?_
    intro k hk
    simp [hs] at hk
  rw [HandsOutFree,findAllocNframes_ret_iff hn hp h,←framesNamed_clear_iff hn hp hf h]
  refine imp_congr_right fun _ => ⟨fun hfree k hk => (hfree.1 k hk).1,fun hclear => ?_⟩
  refine ⟨fun k hk => ⟨hclear k hk,fun hmem => ?_⟩,framesNamed_nodup hn hp hf h⟩
  have hset := hlive k hmem
  rw [hclear k hk] at hset
  cases hset

/-- One bitmap word, all frames free, none live. -/
def oneWord : FrameSystem := ⟨⟨fun _ => 0#32,1,by norm_num⟩,∅⟩

/-- Frames 8 and 9 taken by one request for two frames. -/
def pairTaken : FrameSystem :=
  ⟨⟨(setNframesUsed (fun _ => 0#32) 2 0 8).1,1,by norm_num⟩,{8,9}⟩

/-- Frame 8 released, frame 9 still live. -/
def pairHalfReleased : FrameSystem :=
  ⟨⟨deallocFrame pairTaken.alloc.frames 0x8003,1,by norm_num⟩,{9}⟩

/-- The run that takes a pair and releases its first frame. -/
theorem pair_run : Run Step oneWord [.findAllocNframes 2 1 3,.deallocFrame 0x8003]
    pairHalfReleased := by
  have htake : Step oneWord (.findAllocNframes 2 1 3) pairTaken :=
    Step.found (r:=⟨0,(setNframesUsed (fun _ => 0#32) 2 0 8).1,[0x8003,0x9003]⟩)
      (by norm_num) (by norm_num) (by norm_num) rfl rfl
  have hrelease : Step pairTaken (.deallocFrame 0x8003) pairHalfReleased :=
    Step.deallocFrame (by decide)
  exact Run.cons htake (Run.cons hrelease (Run.nil _))

/-- Searches do hand out live frames: after the first frame of a pair is
released, the next request for two frames takes the pair again. -/
theorem handsOutFree_counterexample : ¬∀ (s t : FrameSystem) (ops : List FrameOp)
    (n p flags : ℕ) (r : FindResult),s.live=∅ → Run Step s ops t → 0<n → p≠0 →
    flags<PAGE_SIZE → findAllocNframes t.alloc n p flags=some r → HandsOutFree t r := by
  intro hall
  have hfree := hall oneWord pairHalfReleased _ 2 1 3
    ⟨0,(setNframesUsed pairHalfReleased.alloc.frames 2 0 8).1,[0x8003,0x9003]⟩ rfl pair_run
    (by norm_num) (by norm_num) (by norm_num) rfl rfl
  exact (hfree.1 9 (by decide)).2 (by decide)

/-- The condition decides the second request of that run: groups are offered, but
not free ones. -/
theorem run_handsOutFree_iff_pair : ∃ ops r,Run Step oneWord ops pairHalfReleased ∧
    findAllocNframes pairHalfReleased.alloc 2 1 3=some r ∧ (HandsOutFree pairHalfReleased r ↔
      (Offered pairHalfReleased.alloc 2 → GroupsFree pairHalfReleased.alloc 2)) ∧
    Offered pairHalfReleased.alloc 2 ∧ ¬GroupsFree pairHalfReleased.alloc 2 :=
  ⟨_,_,pair_run,rfl,run_handsOutFree_iff (s:=oneWord) rfl pair_run (p:=1) (by norm_num)
    (by norm_num) (by norm_num : 3<PAGE_SIZE) rfl,by decide,by decide⟩

end XanaduOS.FrameRuns
