import Mathlib.Logic.Function.Iterate
import Mathlib.Order.WithBot
import XanaduOS.FrameSearch

/-!
# The frame search, step by step

The search is a loop over the words of the bitmap with a loop over the slots of
a word inside. It is run here one test at a time. No word has a second turn.
The inner loop moves on by the size of the piece that is asked for, so a
request of no frame stays where it is: it ends exactly where the first word
with a free frame in its low byte has its first frame free.
-/

namespace XanaduOS.SearchSteps

open Word32 BitWords KernelDefs FrameAlloc FrameGroups

/-- Where a search stands. -/
inductive SearchPoint
  /-- Before the turn of a word. -/
  | outer (i mapped : ℕ) (frames : FrameWords) (addrs : List ℕ)
  /-- Before the test of a slot. -/
  | inner (i mapped : ℕ) (frames : FrameWords) (addrs : List ℕ) (j : ℕ)
  /-- Returned. -/
  | returned (r : FindResult)

/-- The next point of a search for `n` frames. -/
def step (n flags framesNum : ℕ) : SearchPoint → SearchPoint
  | .outer i mapped frames addrs =>
    if i<framesNum then
      if frames i=0xFFFFFFFF#32 then .outer (i+1) mapped frames addrs
      else
        let mask := getFrameSubmapMask (min (n-mapped) 8)
        if frames i &&& mask.1=mask.1 then .outer (i+1) mapped frames addrs
        else .inner i mapped frames addrs (8*mask.2)
    else .returned ⟨ENOMEM,frames,addrs⟩
  | .inner i mapped frames addrs j =>
    let curNof := min (n-mapped) 8
    if j<8*((getFrameSubmapMask curNof).2+1) then
      if isFrameFree frames i j then
        let frames := (setNframesUsed frames curNof i j).1
        let addrs := addrs++setNallocAddrs curNof i j flags
        if n ≤ mapped+curNof then .returned ⟨0,frames,addrs⟩
        else .outer (i+1) (mapped+curNof) frames addrs
      else .inner i mapped frames addrs (j+curNof)
    else .outer (i+1) mapped frames addrs
  | .returned r => .returned r

/-- The point after some steps of a search. -/
def pointAt (n flags framesNum : ℕ) (frames : FrameWords) (k : ℕ) : SearchPoint :=
  (step n flags framesNum)^[k] (.outer 0 0 frames [])

/-- The search returns, gives no word a second turn, and moves on in the inner loop. -/
structure Ends (n flags framesNum : ℕ) (frames : FrameWords) : Prop where
  /-- It returns. -/
  returns : ∃ k r,pointAt n flags framesNum frames k=.returned r
  /-- Words have their turns in order, each at most once. -/
  once : ∀ {k l i mapped i' mapped' : ℕ} {f f' : FrameWords} {addrs addrs' : List ℕ},k<l →
    pointAt n flags framesNum frames k=.outer i mapped f addrs →
    pointAt n flags framesNum frames l=.outer i' mapped' f' addrs' → i < i'
  /-- From one slot the inner loop goes to a later one. -/
  progress : ∀ {k i mapped j i' mapped' j' : ℕ} {f f' : FrameWords} {addrs addrs' : List ℕ},
    pointAt n flags framesNum frames k=.inner i mapped f addrs j →
    pointAt n flags framesNum frames (k+1)=.inner i' mapped' f' addrs' j' → j<j'

/-- The first word that has a free frame in its low byte has its first frame free. -/
def FirstFrameFree (framesNum : ℕ) (frames : FrameWords) : Prop :=
  ∀ i<framesNum,(∀ i' < i,frames i' &&& 0xFF#32=0xFF#32) → frames i &&& 0xFF#32≠0xFF#32 →
    isFrameFree frames i 0=true

variable {n flags framesNum : ℕ} {frames : FrameWords}

/-! ## Turns -/

/-- Words and slots in the order in which a search comes to them. -/
def turn : SearchPoint → WithTop ℕ
  | .outer i _ _ _ => WithTop.some (2*i)
  | .inner i _ _ _ _ => WithTop.some (2*i+1)
  | .returned _ => ⊤

/-- No step goes back. -/
theorem turn_le_step (p : SearchPoint) : turn p≤turn (step n flags framesNum p) := by
  cases p with
  | outer i mapped f addrs =>
    simp only [step]
    split
    · split
      · exact WithTop.coe_le_coe.mpr (by omega)
      · split
        · exact WithTop.coe_le_coe.mpr (by omega)
        · exact WithTop.coe_le_coe.mpr (by omega)
    · exact le_top
  | inner i mapped f addrs j =>
    simp only [step]
    split
    · split
      · split
        · exact le_top
        · exact WithTop.coe_le_coe.mpr (by omega)
      · exact le_rfl
    · exact WithTop.coe_le_coe.mpr (by omega)
  | returned r => exact le_rfl

/-- After the turn of a word the search is behind it. -/
theorem outer_lt_step (i mapped : ℕ) (f : FrameWords) (addrs : List ℕ) :
    WithTop.some (2*i)<turn (step n flags framesNum (.outer i mapped f addrs)) := by
  simp only [step]
  split
  · split
    · exact WithTop.coe_lt_coe.mpr (by omega)
    · split
      · exact WithTop.coe_lt_coe.mpr (by omega)
      · exact WithTop.coe_lt_coe.mpr (by omega)
  · exact WithTop.coe_lt_top _

/-- The point after one more step. -/
theorem pointAt_succ (k : ℕ) : pointAt n flags framesNum frames (k+1)=
    step n flags framesNum (pointAt n flags framesNum frames k) :=
  Function.iterate_succ_apply' _ _ _

/-- Turns come in order. -/
theorem turn_mono {k l : ℕ} (h : k≤l) :
    turn (pointAt n flags framesNum frames k)≤turn (pointAt n flags framesNum frames l) := by
  induction l, h using Nat.le_induction with
  | base => exact le_rfl
  | succ l _ ih =>
    rw [pointAt_succ]
    exact ih.trans (turn_le_step _)

/-- No word has a second turn. -/
theorem turns_once {k l i mapped i' mapped' : ℕ} {f f' : FrameWords} {addrs addrs' : List ℕ}
    (hlt : k<l) (hk : pointAt n flags framesNum frames k=.outer i mapped f addrs)
    (hl : pointAt n flags framesNum frames l=.outer i' mapped' f' addrs') : i < i' := by
  have hmono := @turn_mono n flags framesNum frames _ _ (Nat.succ_le_of_lt hlt)
  rw [Nat.succ_eq_add_one,pointAt_succ,hk,hl] at hmono
  have hturn := (outer_lt_step i mapped f addrs).trans_le hmono
  have := WithTop.coe_lt_coe.mp hturn
  omega

/-! ## Progress -/

/-- A point that steps to itself is where the search stays. -/
theorem pointAt_stuck {k l : ℕ} {p : SearchPoint} (hk : pointAt n flags framesNum frames k=p)
    (hp : step n flags framesNum p=p) (hl : k≤l) : pointAt n flags framesNum frames l=p := by
  induction l, hl using Nat.le_induction with
  | base => exact hk
  | succ l _ ih => rw [pointAt_succ,ih,hp]

/-- From a slot the inner loop moves on by the size of the piece. -/
theorem inner_step {i mapped j i' mapped' j' : ℕ} {f f' : FrameWords} {addrs addrs' : List ℕ}
    (h : step n flags framesNum (.inner i mapped f addrs j)=.inner i' mapped' f' addrs' j') :
    i=i' ∧ mapped=mapped' ∧ f=f' ∧ addrs=addrs' ∧ j'=j+min (n-mapped) 8 := by
  simp only [step] at h
  split at h
  · split at h
    · split at h
      · cases h
      · cases h
    · cases h
      exact ⟨rfl,rfl,rfl,rfl,rfl⟩
  · cases h

/-- A search that returns makes progress in its inner loops: a slot that it
does not leave it never leaves. -/
theorem progress_of_returns {m k i mapped j i' mapped' j' : ℕ} {r : FindResult}
    {f f' : FrameWords} {addrs addrs' : List ℕ}
    (hr : pointAt n flags framesNum frames m=.returned r)
    (hk : pointAt n flags framesNum frames k=.inner i mapped f addrs j)
    (hk' : pointAt n flags framesNum frames (k+1)=.inner i' mapped' f' addrs' j') : j<j' := by
  have hstep := hk'
  rw [pointAt_succ,hk] at hstep
  obtain ⟨rfl,rfl,rfl,rfl,rfl⟩ := inner_step hstep
  by_contra hstay
  have hzero : min (n-mapped) 8=0 := by omega
  rw [hzero,Nat.add_zero] at hstep
  rcases Nat.le_total k m with hkm|hmk
  · have hm := pointAt_stuck hk hstep hkm
    rw [hr] at hm
    cases hm
  · have hm := pointAt_stuck hr rfl hmk
    rw [hk] at hm
    cases hm

/-- A search ends well exactly when it returns. -/
theorem ends_iff_returns : Ends n flags framesNum frames ↔
    ∃ k r,pointAt n flags framesNum frames k=.returned r :=
  ⟨Ends.returns,fun ⟨k,r,hr⟩ => ⟨⟨k,r,hr⟩,turns_once,progress_of_returns hr⟩⟩

/-! ## Running the two loops -/

/-- Steps after one another. -/
theorem reach_trans {p q t : SearchPoint} (hp : ∃ k,(step n flags framesNum)^[k] p=q)
    (hq : ∃ k,(step n flags framesNum)^[k] q=t) : ∃ k,(step n flags framesNum)^[k] p=t := by
  obtain ⟨k,rfl⟩ := hp
  obtain ⟨l,rfl⟩ := hq
  exact ⟨l+k,Function.iterate_add_apply _ _ _ _⟩

/-- One step. -/
theorem reach_step {p q : SearchPoint} (h : step n flags framesNum p=q) :
    ∃ k,(step n flags framesNum)^[k] p=q := ⟨1,h⟩

/-- The inner loop stands at the slot that the scan finds. -/
theorem reach_found {i mapped fuel j r : ℕ} {addrs : List ℕ}
    (h : scanField frames i (min (n-mapped) 8)
      (8*((getFrameSubmapMask (min (n-mapped) 8)).2+1)) fuel j=some (some r)) :
    ∃ k,(step n flags framesNum)^[k] (.inner i mapped frames addrs j)=
      .inner i mapped frames addrs r := by
  induction fuel generalizing j with
  | zero => cases h
  | succ fuel ih =>
    simp only [scanField] at h
    split at h
    · rename_i hj
      split at h
      · cases h
        exact ⟨0,rfl⟩
      · rename_i hused
        refine reach_trans (reach_step ?_) (ih h)
        simp only [step]
        rw [if_pos hj,if_neg hused]
    · cases h

/-- The inner loop leaves a word in which the scan finds nothing. -/
theorem reach_none {i mapped fuel j : ℕ} {addrs : List ℕ}
    (h : scanField frames i (min (n-mapped) 8)
      (8*((getFrameSubmapMask (min (n-mapped) 8)).2+1)) fuel j=some none) :
    ∃ k,(step n flags framesNum)^[k] (.inner i mapped frames addrs j)=
      .outer (i+1) mapped frames addrs := by
  induction fuel generalizing j with
  | zero => cases h
  | succ fuel ih =>
    simp only [scanField] at h
    split at h
    · rename_i hj
      split at h
      · cases h
      · rename_i hused
        refine reach_trans (reach_step ?_) (ih h)
        simp only [step]
        rw [if_pos hj,if_neg hused]
    · rename_i hj
      refine reach_step ?_
      simp only [step]
      rw [if_neg hj]

/-- A scan that finds a slot stops inside its field, at a free bit. -/
theorem scanField_found {f : FrameWords} {i c limit fuel j found : ℕ}
    (h : scanField f i c limit fuel j=some (some found)) :
    found<limit ∧ isFrameFree f i found=true := by
  induction fuel generalizing j with
  | zero => cases h
  | succ fuel ih =>
    rw [scanField] at h
    split at h
    · rename_i hlt
      split at h
      · rename_i hfree
        cases h
        exact ⟨hlt,hfree⟩
      · exact ih h
    · cases h

/-- The loops run as the functions of the source compute. -/
theorem reach_findLoop {words i mapped : ℕ} {f : FrameWords} {addrs : List ℕ} {r : FindResult}
    (hi : i+words=framesNum) (h : findLoop n flags words i mapped f addrs=some r) :
    ∃ k,(step n flags framesNum)^[k] (.outer i mapped f addrs)=.returned r := by
  induction words generalizing i mapped f addrs with
  | zero =>
    cases h
    refine reach_step ?_
    simp only [step]
    rw [if_neg (by omega)]
  | succ words ih =>
    have hlt : i<framesNum := by omega
    rw [findLoop] at h
    split at h
    · rename_i hfull
      refine reach_trans (reach_step ?_) (ih (by omega) h)
      simp only [step]
      rw [if_pos hlt,if_pos hfull]
    · rename_i hfull
      simp only [findFrameInMap,pickSlot] at h
      by_cases hmask : f i &&& (getFrameSubmapMask (min (n-mapped) 8)).1=
          (getFrameSubmapMask (min (n-mapped) 8)).1
      · rw [if_pos hmask] at h
        refine reach_trans (reach_step ?_) (ih (by omega) h)
        simp only [step]
        rw [if_pos hlt,if_neg hfull,if_pos hmask]
      · rw [if_neg hmask] at h
        have hin : ∃ k,(step n flags framesNum)^[k] (.outer i mapped f addrs)=
            .inner i mapped f addrs (8*(getFrameSubmapMask (min (n-mapped) 8)).2) := by
          refine reach_step ?_
          simp only [step]
          rw [if_pos hlt,if_neg hfull,if_neg hmask]
        cases hscan : scanField f i (min (n-mapped) 8)
            (8*((getFrameSubmapMask (min (n-mapped) 8)).2+1)) 9
            (8*(getFrameSubmapMask (min (n-mapped) 8)).2) with
        | none => simp [hscan] at h
        | some found =>
          cases found with
          | none =>
            simp only [hscan] at h
            exact reach_trans hin (reach_trans (reach_none hscan) (ih (by omega) h))
          | some j =>
            simp only [hscan] at h
            obtain ⟨hj,hfree⟩ := scanField_found hscan
            refine reach_trans hin (reach_trans (reach_found hscan) ?_)
            by_cases hlast : n ≤ mapped+min (n-mapped) 8
            · rw [if_pos hlast] at h
              cases h
              refine reach_step ?_
              simp only [step]
              rw [if_pos hj,if_pos hfree,if_pos hlast]
            · rw [if_neg hlast] at h
              refine reach_trans (reach_step ?_) (ih (by omega) h)
              simp only [step]
              rw [if_pos hj,if_pos hfree,if_neg hlast]

/-- A search for at least one frame has a result. -/
theorem findLoop_ends {words i mapped : ℕ} {f : FrameWords} {addrs : List ℕ} (hm : mapped<n) :
    ∃ r,findLoop n flags words i mapped f addrs=some r := by
  induction words generalizing i mapped f addrs with
  | zero => exact ⟨_,rfl⟩
  | succ words ih =>
    rw [findLoop]
    split
    · exact ih hm
    · rcases @pickSlot_spec f (min (n-mapped) 8) i (by omega) (Nat.min_le_right _ _) with
        ⟨hpick,-⟩|⟨j,hpick,-⟩
      · simp only [findFrameInMap,hpick]
        exact ih hm
      · simp only [findFrameInMap,hpick]
        split
        · exact ⟨_,rfl⟩
        · exact ih (by omega)

/-! ## Requests of no frame -/

/-- The turn of a word in a search for no frame. -/
theorem zero_outer (i : ℕ) (f : FrameWords) (addrs : List ℕ) :
    step 0 flags framesNum (.outer i 0 f addrs)=
      if i<framesNum then
        if f i &&& 0xFF#32=0xFF#32 then .outer (i+1) 0 f addrs else .inner i 0 f addrs 0
      else .returned ⟨ENOMEM,f,addrs⟩ := by
  have hmask : getFrameSubmapMask (min (0-0) 8)=(0xFF#32,0) := by decide
  simp only [step,hmask]
  by_cases hi : i<framesNum
  · rw [if_pos hi,if_pos hi]
    by_cases hfull : f i=0xFFFFFFFF#32
    · have hlow : f i &&& 0xFF#32=0xFF#32 := by
        rw [hfull]
        decide
      rw [if_pos hfull,if_pos hlow]
    · rw [if_neg hfull]
  · rw [if_neg hi,if_neg hi]

/-- A slot of a search for no frame: the first one, or none ever. -/
theorem zero_inner (i : ℕ) (f : FrameWords) (addrs : List ℕ) :
    step 0 flags framesNum (.inner i 0 f addrs 0)=
      if isFrameFree f i 0=true then .returned ⟨0,f,addrs⟩ else .inner i 0 f addrs 0 := by
  have hmask : getFrameSubmapMask (min (0-0) 8)=(0xFF#32,0) := by decide
  simp only [step,hmask]
  rw [if_pos (by decide)]
  split
  · rw [if_pos (by decide)]
    simp only [setNframesUsed,setNallocAddrs,Nat.zero_min,Nat.sub_self,groupWalk,List.foldl_nil,
      List.range_zero,List.map_nil,List.append_nil]
  · rfl

/-- Words with a full low byte are passed over. -/
theorem zero_passes {i : ℕ} (hi : i≤framesNum)
    (hfull : ∀ i' < i,frames i' &&& 0xFF#32=0xFF#32) :
    pointAt 0 flags framesNum frames i=.outer i 0 frames [] := by
  induction i with
  | zero => rfl
  | succ i ih =>
    rw [pointAt_succ,ih (by omega) fun i' hi' => hfull i' (by omega),zero_outer,
      if_pos (by omega),if_pos (hfull i (by omega))]

/-- A search for no frame returns exactly where its first slot is free. -/
theorem zero_returns_iff : (∃ k r,pointAt 0 flags framesNum frames k=.returned r) ↔
    FirstFrameFree framesNum frames := by
  constructor
  · rintro ⟨k,r,hr⟩ i hi hfull hlow
    by_contra hused
    have hat := @zero_passes flags framesNum frames i (Nat.le_of_lt hi) hfull
    have hin : pointAt 0 flags framesNum frames (i+1)=.inner i 0 frames [] 0 := by
      rw [pointAt_succ,hat,zero_outer,if_pos hi,if_neg hlow]
    have hstuck : step 0 flags framesNum (.inner i 0 frames [] 0)=.inner i 0 frames [] 0 := by
      rw [zero_inner,if_neg hused]
    have hlate := pointAt_stuck hin hstuck (Nat.le_add_left (i+1) k)
    rw [pointAt_stuck hr rfl (Nat.le_add_right k (i+1))] at hlate
    cases hlate
  · intro hfirst
    by_cases hall : ∀ i<framesNum,frames i &&& 0xFF#32=0xFF#32
    · refine ⟨framesNum+1,⟨ENOMEM,frames,[]⟩,?_⟩
      rw [pointAt_succ,zero_passes (Nat.le_refl _) hall,zero_outer,if_neg (Nat.lt_irrefl _)]
    · have hex : ∃ i,i<framesNum ∧ frames i &&& 0xFF#32≠0xFF#32 := by
        simpa only [not_forall,exists_prop] using hall
      obtain ⟨hi,hlow⟩ := Nat.find_spec hex
      have hfull : ∀ i'<Nat.find hex,frames i' &&& 0xFF#32=0xFF#32 := by
        intro i' hi'
        by_contra hne
        exact Nat.find_min hex hi' ⟨by omega,hne⟩
      refine ⟨Nat.find hex+1+1,⟨0,frames,[]⟩,?_⟩
      rw [pointAt_succ,pointAt_succ,zero_passes (Nat.le_of_lt hi) hfull,zero_outer,if_pos hi,
        if_neg hlow,zero_inner,if_pos (hfirst _ hi hfull hlow)]

/-- A search returns, with at most one turn for each word and with progress in
each inner loop, exactly when it is for at least one frame or the first word
with a free frame in its low byte has its first frame free. -/
theorem ends_iff (n flags framesNum : ℕ) (frames : FrameWords) :
    Ends n flags framesNum frames ↔ n≠0 ∨ FirstFrameFree framesNum frames := by
  rw [ends_iff_returns]
  rcases Nat.eq_zero_or_pos n with rfl|hn
  · rw [zero_returns_iff]
    exact ⟨Or.inr,fun h => h.resolve_left fun hne => hne rfl⟩
  · refine ⟨fun _ => Or.inl (by omega),fun _ => ?_⟩
    obtain ⟨r,hr⟩ := @findLoop_ends n flags framesNum 0 0 frames [] hn
    obtain ⟨k,hk⟩ := reach_findLoop (Nat.zero_add _) hr
    exact ⟨k,r,hk⟩

/-- A request of no frame does not return from a word whose frame 0 is used. -/
theorem noFrame_never_returns : ¬∀ (n flags framesNum : ℕ) (frames : FrameWords),
    Ends n flags framesNum frames := by
  intro h
  obtain ⟨k,r,hr⟩ := (h 0 3 1 fun _ => 1#32).returns
  have hin : pointAt 0 3 1 (fun _ => 1#32) 1=.inner 0 0 (fun _ => 1#32) [] 0 := rfl
  have hlate := pointAt_stuck hin rfl (Nat.le_add_left 1 k)
  rw [pointAt_stuck hr rfl (Nat.le_add_right k 1)] at hlate
  cases hlate

end XanaduOS.SearchSteps
