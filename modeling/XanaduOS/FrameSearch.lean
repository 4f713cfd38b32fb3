import XanaduOS.FrameGroups

/-!
# Searches for frames, whole or not at all

A request is served in groups of up to eight frames. A search that runs out of
words has failed, but the groups it took stay marked; and a group is taken as a
whole when its first frame is free. So a search takes all of its frames or none
exactly where the bitmap does not offer even the first group, or offers groups
for the whole request that lie free within it.
-/

namespace XanaduOS.FrameSearch

open Word32 BitWords KernelDefs FrameAlloc FrameGroups

/-- Bits of the bitmap that went from clear to set. -/
def newlySet (s : FrameAllocator) (after : FrameWords) : Finset ℕ :=
  (Finset.range (32*s.framesNum)).filter fun k => bitAt s.frames k=false ∧ bitAt after k=true

/-- A failed search changes no bit; a successful one writes as many entries and
sets as many bits as were asked for. -/
structure AllOrNothing (s : FrameAllocator) (n : ℕ) (r : FindResult) : Prop where
  /-- Nothing happens on failure. -/
  failed : r.ret=ENOMEM → ∀ k,bitAt r.frames k=bitAt s.frames k
  /-- Everything is there on success. -/
  found : r.ret=0 → r.addrs.length=n ∧ (newlySet s r.frames).card=n

/-- No word offers the first group of the request, or the bitmap has groups for
all of it, which lie free within the bitmap. Through a null pointer nothing is
written. -/
def WholeOrNone (s : FrameAllocator) (n p : ℕ) : Prop :=
  if p=0 then n=0
  else n=0 ∨ (∀ w<s.framesNum,NoStart s.frames w (min n 8)) ∨
    (Offered s n ∧ GroupsHave s n fun k => k<32*s.framesNum ∧ bitAt s.frames k=false)

instance (s : FrameAllocator) (n p : ℕ) : Decidable (WholeOrNone s n p) := by
  unfold WholeOrNone
  infer_instance

variable {s : FrameAllocator} {n p flags : ℕ} {r : FindResult}

/-- A search for no frame changes nothing. -/
theorem findLoop_zero {words i : ℕ} {frames : FrameWords} {addrs : List ℕ}
    (h : findLoop 0 flags words i 0 frames addrs=some r) :
    r.frames=frames ∧ r.addrs=addrs ∧ (r.ret=0 ∨ r.ret=ENOMEM) := by
  induction words generalizing i with
  | zero =>
    cases h
    exact ⟨rfl,rfl,Or.inr rfl⟩
  | succ words ih =>
    simp only [findLoop] at h
    split at h
    · exact ih h
    · split at h
      · cases h
      · exact ih h
      · rename_i frames' new hnew
        simp only [findFrameInMap,Nat.zero_sub,Nat.zero_min] at hnew
        split at hnew
        · cases hnew
        · cases hnew
        · cases hnew
          cases h
          exact ⟨rfl,List.append_nil _,Or.inl rfl⟩

/-- The entries of the groups are as many as their frames. -/
theorem entries_length (groups : List Group) (flags : ℕ) :
    (groups.flatMap fun g => setNallocAddrs g.nframes g.frameMap g.frame flags).length=
      (groups.flatMap Group.frameIds).length := by
  rw [List.length_flatMap,List.length_flatMap]
  simp only [setNallocAddrs,Group.frameIds,List.length_map,List.length_range]

/-- A group has a frame that was free. -/
theorem framesPicked_free (hn : 0<n) (hne : framesPicked s n≠[]) :
    ∃ k∈framesPicked s n,bitAt s.frames k=false := by
  obtain ⟨k,hk⟩ := List.exists_mem_of_ne_nil _ hne
  obtain ⟨g,hg,_⟩ := List.mem_flatMap.mp hk
  obtain ⟨_,_,hframe,hpos,_,hfree⟩ := groupsPicked_mem hn hg
  refine ⟨g.first,List.mem_flatMap.mpr ⟨g,hg,?_⟩,(isFrameFree_iff s.frames hframe).mp hfree⟩
  exact Group.mem_frameIds.mpr ⟨Nat.le_refl _,by omega⟩

/-- No frame is picked exactly when no word offers the first group. -/
theorem framesPicked_eq_nil_iff (hn : 0<n) :
    framesPicked s n=[] ↔ ∀ w<s.framesNum,NoStart s.frames w (min n 8) := by
  have hnil : framesPicked s n=[] ↔ groupsPicked s.frames n s.framesNum 0 0=[] := by
    refine ⟨fun hflat => List.eq_nil_iff_forall_not_mem.mpr fun g hg => ?_,fun hgroups => ?_⟩
    · obtain ⟨_,_,_,hpos,_⟩ := groupsPicked_mem hn hg
      have hmem : g.first∈framesPicked s n :=
        List.mem_flatMap.mpr ⟨g,hg,Group.mem_frameIds.mpr ⟨Nat.le_refl _,by omega⟩⟩
      rw [hflat] at hmem
      cases hmem
    · rw [framesPicked,hgroups]
      rfl
  rw [hnil,groupsPicked_eq_nil_iff hn]
  simp only [Nat.zero_le,Nat.zero_add,forall_true_left]

/-- Groups for the whole request begin with a first group. -/
theorem offered_start (hn : 0<n) (h : Offered s n) :
    ¬∀ w<s.framesNum,NoStart s.frames w (min n 8) := by
  intro hnone
  have hlen := (framesPicked_length hn).mpr h
  rw [(framesPicked_eq_nil_iff hn).mpr hnone] at hlen
  exact absurd hlen (Nat.ne_of_lt hn)

/-- Without a change no bit was set. -/
theorem newlySet_self (s : FrameAllocator) : newlySet s s.frames=∅ := by
  refine Finset.filter_eq_empty_iff.mpr fun k _ hk => ?_
  rw [hk.1] at hk
  cases hk.2

/-- As many bits are set as there are frames exactly when all of them were
clear bits of the bitmap. -/
theorem card_newlySet_iff {after : FrameWords} {picked : List ℕ} (hnodup : picked.Nodup)
    (hbits : ∀ k,bitAt after k=true ↔ bitAt s.frames k=true ∨ k∈picked) :
    (newlySet s after).card=picked.length ↔
      ∀ k∈picked,k<32*s.framesNum ∧ bitAt s.frames k=false := by
  have hset : newlySet s after=
      picked.toFinset.filter fun k => k<32*s.framesNum ∧ bitAt s.frames k=false := by
    ext k
    simp only [newlySet,Finset.mem_filter,Finset.mem_range,List.mem_toFinset,hbits]
    constructor
    · rintro ⟨hlt,hclear,hset|hpicked⟩
      · rw [hclear] at hset
        cases hset
      · exact ⟨hpicked,hlt,hclear⟩
    · rintro ⟨hpicked,hlt,hclear⟩
      exact ⟨hlt,hclear,Or.inr hpicked⟩
  rw [hset,←List.toFinset_card_of_nodup hnodup,Finset.card_filter_eq_iff]
  simp only [List.mem_toFinset]

/-- A search takes all of its frames or none exactly when no word offers the first
group, or the bitmap has groups for the whole request that lie free within it. -/
theorem findAllocNframes_allOrNothing_iff (h : findAllocNframes s n p flags=some r) :
    AllOrNothing s n r ↔ WholeOrNone s n p := by
  unfold WholeOrNone
  by_cases hp : p=0
  · rw [if_pos hp]
    rw [findAllocNframes,if_pos hp] at h
    cases h
    refine ⟨fun hall => (hall.found rfl).1.symm,fun hn => ⟨fun _ _ => rfl,fun _ => ?_⟩⟩
    rw [hn,newlySet_self]
    exact ⟨rfl,rfl⟩
  rw [if_neg hp]
  rcases Nat.eq_zero_or_pos n with rfl|hn
  · rw [findAllocNframes,if_neg hp] at h
    obtain ⟨hframes,haddrs,_⟩ := findLoop_zero h
    refine iff_of_true ⟨fun _ k => ?_,fun _ => ?_⟩ (Or.inl rfl)
    · rw [hframes]
    · rw [haddrs,hframes,newlySet_self]
      exact ⟨rfl,rfl⟩
  have hreturn := findAllocNframes_ret_iff hn hp h
  rw [findAllocNframes,if_neg hp] at h
  obtain ⟨haddrs,hbits⟩ := findLoop_groups hn h
  change ∀ k,_ ↔ _ ∨ k∈framesPicked s n at hbits
  have hnodup : (framesPicked s n).Nodup :=
    (groupsPicked_increasing hn).1.imp fun hlt => hlt.ne
  rw [or_iff_right (Nat.ne_of_gt hn)]
  by_cases hoffered : Offered s n
  · -- The search succeeds.
    have hret := hreturn.mpr hoffered
    have hlen := (framesPicked_length hn).mpr hoffered
    have hwritten : r.addrs.length=n := by
      rw [haddrs,List.nil_append,entries_length]
      exact hlen
    rw [or_iff_right (offered_start hn hoffered),and_iff_right hoffered,←framesPicked_forall,
      ←card_newlySet_iff hnodup hbits,hlen]
    refine ⟨fun hall => (hall.found hret).2,fun hcard => ⟨fun hfail => ?_,fun _ => ?_⟩⟩
    · rw [hret] at hfail
      cases hfail
    · exact ⟨hwritten,hcard⟩
  · -- The search fails, and the groups it took stay marked.
    have hret : r.ret=ENOMEM := by
      rcases findLoop_ret hn h with ⟨hret,-⟩|⟨hret,-⟩
      · exact absurd (hreturn.mp hret) hoffered
      · exact hret
    rw [or_iff_left fun hfree => hoffered hfree.1,←framesPicked_eq_nil_iff hn]
    refine ⟨fun hall => ?_,fun hnone => ⟨fun _ k => ?_,fun hfound => ?_⟩⟩
    · by_contra hne
      obtain ⟨k,hk,hclear⟩ := framesPicked_free hn hne
      have hsame := hall.failed hret k
      rw [hclear,(hbits k).mpr (Or.inr hk)] at hsame
      cases hsame
    · rw [Bool.eq_iff_iff,hbits,hnone]
      simp
    · rw [hret] at hfound
      cases hfound

/-- One word with all frames free. -/
def clearWord : FrameAllocator := ⟨fun _ => 0#32,1,oneWord_lt⟩

/-- A request of nine frames in one word. -/
theorem allOrNothing_clearWord : ∃ r,findAllocNframes clearWord 9 0x1000 3=some r ∧
    (AllOrNothing clearWord 9 r ↔ WholeOrNone clearWord 9 0x1000) :=
  ⟨_,rfl,@findAllocNframes_allOrNothing_iff clearWord 9 0x1000 3 _ rfl⟩

/-- The first eight of nine frames stay marked when the ninth is not found. -/
theorem piece_left_behind : ¬∀ (s : FrameAllocator) (n p flags : ℕ) (r : FindResult),
    findAllocNframes s n p flags=some r → AllOrNothing s n r := by
  intro h
  have hrun : ∃ r,findAllocNframes clearWord 9 0x1000 3=some r ∧ r.ret=ENOMEM ∧
      bitAt r.frames 24=true := ⟨_,rfl,rfl,by decide⟩
  obtain ⟨r,hr,hret,hset⟩ := hrun
  have hsame := (h clearWord 9 0x1000 3 r hr).failed hret 24
  rw [hset] at hsame
  exact absurd hsame (by decide)

end XanaduOS.FrameSearch
