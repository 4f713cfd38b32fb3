import XanaduOS.FrameAlloc

/-!
# Reserving a physical range

The marking loop carries a start bit, an offset and a word index. Its first
32 rounds mark consecutive frames wherever they start. From then on the round
number alone passes the word length, so every further round goes to the next
word and marks its first frame. A range is reserved exactly when each frame
on which the loop and the range differ was marked before.
-/

namespace XanaduOS.FrameReserve

open Word32 BitWords KernelDefs FrameAlloc

/-- The frame marked in a round of the loop. -/
def walkFrame (first i : ℕ) : ℕ := if i<32 then first+i else 32*((first+31)/32+(i-31))

/-- A frame of a range that the loop passes over, or one outside that it marks. -/
def Misplaced (first n k : ℕ) : Prop :=
  ¬((∃ i<n,k=walkFrame first i) ↔ first≤k ∧ k<first+n)

/-- A range is reserved: its bits are set and no other, its entries are
written, and releasing it clears its bits and no other. -/
structure Reserved (frames : FrameWords) (addr n flags : ℕ) (r : FindResult) : Prop where
  /-- The bits of the range are set. -/
  marked : ∀ k,bitAt r.frames k=
    (bitAt frames k || decide (addr/PAGE_SIZE≤k ∧ k<addr/PAGE_SIZE+n))
  /-- The addresses of the range are written, with the flags. -/
  written : r.addrs=(List.range n).map fun i => (addr+i*PAGE_SIZE) ||| flags
  /-- A release clears the bits of the range. -/
  released : ∀ k,bitAt (deallocNframes r.frames addr n) k=
    (bitAt r.frames k && !decide (addr/PAGE_SIZE≤k ∧ k<addr/PAGE_SIZE+n))

variable {n addr flags : ℕ} {frames : FrameWords}

/-! ## The rounds of the loop -/

/-- Past the word length each round starts a new word. -/
theorem groupWalk_late (n : ℕ) {i : ℕ} (frameMap overflow : ℕ) (hi : 32 ≤ i) :
    groupWalk n i frameMap 0 overflow=
      (List.range' i n).map fun t => (frameMap+1+(t-i),0) := by
  induction n generalizing i frameMap overflow with
  | zero => rfl
  | succ n ih =>
    rw [groupWalk,if_pos (by omega),ih (frameMap+1) i (by omega),List.range'_succ,List.map_cons]
    congr 1
    · exact Prod.ext (by simp) (by simp)
    · refine List.map_congr_left fun t ht => ?_
      have hlow := (List.mem_range'_1.mp ht).1
      exact Prod.ext (by simp only; omega) rfl

/-- From the first bit of a word on, the word is left at the word length. -/
theorem groupWalk_aligned (n : ℕ) {i : ℕ} (frameMap overflow : ℕ) (hi : i≤32) :
    groupWalk n i frameMap 0 overflow=(List.range' i n).map fun t =>
      if t<32 then (frameMap,t-overflow) else (frameMap+1+(t-32),0) := by
  induction n generalizing i with
  | zero => rfl
  | succ n ih =>
    rcases hi.lt_or_eq with hlt|rfl
    · rw [groupWalk,if_neg (by omega),ih (by omega),List.range'_succ,List.map_cons,if_pos hlt,
        Nat.zero_add]
    · rw [groupWalk_late _ _ _ (Nat.le_refl _)]
      refine List.map_congr_left fun t ht => ?_
      rw [if_neg (by have := (List.mem_range'_1.mp ht).1; omega)]

/-- From a bit inside a word on, the word is left at its end and the next one
at the word length. -/
theorem groupWalk_inside (n : ℕ) {i frame : ℕ} (frameMap : ℕ) (h0 : 0<frame)
    (hf : frame<32) (hi : frame+i≤32) :
    groupWalk n i frameMap frame 0=(List.range' i n).map fun t =>
      if frame+t<32 then (frameMap,frame+t) else
        if t<32 then (frameMap+1,t-(32-frame)) else (frameMap+2+(t-32),0) := by
  induction n generalizing i with
  | zero => rfl
  | succ n ih =>
    rw [groupWalk,List.range'_succ,List.map_cons]
    rcases hi.lt_or_eq with hlt|heq
    · rw [if_neg (by omega),ih (by omega),if_pos hlt,Nat.sub_zero]
    · rw [if_pos (by omega),groupWalk_aligned n _ _ (by omega : i+1≤32)]
      congr 1
      · rw [if_neg (by omega),if_pos (by omega)]
        exact Prod.ext rfl (by simp only; omega)
      · refine List.map_congr_left fun t ht => ?_
        have hlow := (List.mem_range'_1.mp ht).1
        have hover : i=32-frame := by omega
        rw [if_neg (show ¬frame+t<32 by omega),hover]

/-- The rounds of the loop in flat frame numbers. -/
theorem groupWalk_walkFrame (n : ℕ) {frameMap frame : ℕ} (hf : frame<32) :
    ((groupWalk n 0 frameMap frame 0).map fun slot => 32*slot.1+slot.2)=
      (List.range n).map (walkFrame (32*frameMap+frame)) := by
  rcases Nat.eq_zero_or_pos frame with rfl|h0
  · rw [groupWalk_aligned n _ _ (Nat.zero_le _),List.map_map,List.range_eq_range']
    refine List.map_congr_left fun t _ => ?_
    simp only [Function.comp,walkFrame]
    split_ifs
    · simp
    · simp only
      omega
  · rw [groupWalk_inside n _ h0 hf (by omega),List.map_map,List.range_eq_range']
    refine List.map_congr_left fun t _ => ?_
    simp only [Function.comp,walkFrame]
    split_ifs <;> simp only <;> omega

/-- Every round marks a bit of a word. -/
theorem groupWalk_bit (n : ℕ) {frameMap frame : ℕ} (hf : frame<32) :
    ∀ slot∈groupWalk n 0 frameMap frame 0,slot.2<32 := by
  intro slot hslot
  rcases Nat.eq_zero_or_pos frame with rfl|h0
  · rw [groupWalk_aligned n _ _ (Nat.zero_le _),List.mem_map] at hslot
    obtain ⟨t,-,rfl⟩ := hslot
    split_ifs <;> simp only <;> omega
  · rw [groupWalk_inside n _ h0 hf (by omega),List.mem_map] at hslot
    obtain ⟨t,-,rfl⟩ := hslot
    split_ifs <;> simp only <;> omega

/-- The loop marks the frames of its rounds and no other. -/
theorem bitAt_setNframesUsed_walk (frames : FrameWords) (n : ℕ) {frameMap frame : ℕ}
    (hf : frame<32) (k : ℕ) : bitAt (setNframesUsed frames n frameMap frame).1 k=true ↔
      bitAt frames k=true ∨ ∃ i<n,k=walkFrame (32*frameMap+frame) i := by
  rw [setNframesUsed,bitAt_foldl_setFrameUsed _ (groupWalk_bit n hf),groupWalk_walkFrame n hf,
    Bool.or_eq_true,decide_eq_true_iff,List.mem_map]
  refine or_congr_right ⟨?_,?_⟩
  · rintro ⟨i,hi,rfl⟩
    exact ⟨i,List.mem_range.mp hi,rfl⟩
  · rintro ⟨i,hi,rfl⟩
    exact ⟨i,List.mem_range.mpr hi,rfl⟩

/-- Reserving marks the frames of the rounds that start at the address. -/
theorem bitAt_allocNframes (frames : FrameWords) (n addr flags : ℕ) {out : ℕ} (hout : out≠0)
    (k : ℕ) : bitAt (allocNframes frames n addr out flags).frames k=true ↔
      bitAt frames k=true ∨ ∃ i<n,k=walkFrame (addr/PAGE_SIZE) i := by
  obtain ⟨hflat,hlt⟩ := getFrameMeta_flat addr
  simp only [allocNframes,if_neg hout]
  rw [bitAt_setNframesUsed_walk _ _ hlt,hflat]

/-! ## Ranges -/

/-- The loop marks the range and nothing else exactly for ranges of up to a
word's length, and of one frame more where the range starts a word. -/
theorem misplaced_none_iff {first : ℕ} :
    (∀ k,¬Misplaced first n k) ↔ n≤32 ∨ (first%32=0 ∧ n=33) := by
  simp only [Misplaced,not_not]
  constructor
  · intro h
    by_contra hlong
    have hout : ∀ k,first+32≤k → k<first+n → k%32=0 := by
      intro k hlow hhigh
      obtain ⟨i,-,rfl⟩ := (h k).mpr ⟨by omega,hhigh⟩
      simp only [walkFrame] at hlow ⊢
      split_ifs at hlow ⊢ <;> omega
    have h0 := hout (first+32) (Nat.le_refl _) (by omega)
    by_cases hn : n=33
    · omega
    · have h1 := hout (first+33) (by omega) (by omega)
      omega
  · intro hn k
    constructor
    · rintro ⟨i,hi,rfl⟩
      simp only [walkFrame]
      split_ifs <;> omega
    · rintro ⟨hlow,hhigh⟩
      refine ⟨k-first,by omega,?_⟩
      simp only [walkFrame]
      split_ifs <;> omega

/-- The page numbers of a range within the bitmap are consecutive. -/
theorem range_page {framesNum i : ℕ} (hlt : framesNum<2^15)
    (hin : addr/PAGE_SIZE+n≤32*framesNum) (hi : i<n) :
    wadd addr (wmul PAGE_SIZE i)=addr+i*PAGE_SIZE ∧
      (addr+i*PAGE_SIZE)/PAGE_SIZE=addr/PAGE_SIZE+i := by
  simp only [wadd,wmul,PAGE_SIZE] at hin ⊢
  omega

/-- Releasing a range within the bitmap clears its bits and no other. -/
theorem bitAt_deallocNframes_range {framesNum : ℕ} (hlt : framesNum<2^15)
    (hin : addr/PAGE_SIZE+n≤32*framesNum) (k : ℕ) : bitAt (deallocNframes frames addr n) k=
      (bitAt frames k && !decide (addr/PAGE_SIZE≤k ∧ k<addr/PAGE_SIZE+n)) := by
  rw [bitAt_deallocNframes,←decide_not,Bool.and_eq_decide,Bool.and_eq_decide]
  simp only [decide_eq_true_eq]
  refine decide_eq_decide.mpr (and_congr_right fun _ => ?_)
  constructor
  · rintro h ⟨hlow,hhigh⟩
    obtain ⟨haddr,hpage⟩ := range_page hlt hin (by omega : k-addr/PAGE_SIZE<n)
    refine h (k-addr/PAGE_SIZE) (by omega) ?_
    rw [haddr,hpage,Nat.add_sub_cancel' hlow]
  · rintro h i hi rfl
    obtain ⟨haddr,hpage⟩ := range_page hlt hin hi
    rw [haddr,hpage] at h
    exact h ⟨by omega,by omega⟩

/-- A range of the bitmap is reserved exactly when every frame that the loop
misplaces was marked before. -/
theorem allocNframes_reserved_iff {s : FrameAllocator} {out : ℕ}
    (hin : addr/PAGE_SIZE+n≤32*s.framesNum) (hout : out≠0) :
    Reserved s.frames addr n flags (allocNframes s.frames n addr out flags) ↔
      ∀ k,Misplaced (addr/PAGE_SIZE) n k → bitAt s.frames k=true := by
  have hbits := bitAt_allocNframes s.frames n addr flags hout
  constructor
  · intro h k hk
    by_contra hclear
    refine hk ?_
    have hmarked := h.marked k
    rw [Bool.eq_iff_iff,hbits k,Bool.or_eq_true,decide_eq_true_iff] at hmarked
    rwa [or_iff_right hclear,or_iff_right hclear] at hmarked
  · intro h
    refine ⟨fun k => ?_,?_,bitAt_deallocNframes_range s.framesNum_lt hin⟩
    · rw [Bool.eq_iff_iff,hbits k,Bool.or_eq_true,decide_eq_true_iff]
      by_cases hk : Misplaced (addr/PAGE_SIZE) n k
      · simp only [h k hk,true_or]
      · exact or_congr_right (not_not.mp hk)
    · simp only [allocNframes,if_neg hout]
      refine List.map_congr_left fun i hi => ?_
      have haddr := (range_page s.framesNum_lt hin (List.mem_range.mp hi)).1
      rw [show wmul i PAGE_SIZE=wmul PAGE_SIZE i by rw [wmul,wmul,Nat.mul_comm],haddr]

/-- Four words of free frames. -/
def fourWords : FrameAllocator := ⟨fun _ => 0#32,4,by norm_num⟩

/-- A range of 33 frames that starts a word is reserved. -/
theorem allocNframes_reserved_iff_word :
    Reserved fourWords.frames 0x20000 33 3 (allocNframes fourWords.frames 33 0x20000 1 3) :=
  (allocNframes_reserved_iff (by decide) (by norm_num)).mpr fun k hk =>
    absurd hk (misplaced_none_iff.mpr (Or.inr ⟨by norm_num,rfl⟩) k)

/-- Of 34 frames from address zero on, the last is passed over. -/
theorem reserved_counterexample : ¬∀ (s : FrameAllocator) (addr n out flags : ℕ),
    PAGE_SIZE∣addr → addr/PAGE_SIZE+n≤32*s.framesNum → out≠0 →
    Reserved s.frames addr n flags (allocNframes s.frames n addr out flags) := by
  intro h
  have hmarked := (h fourWords 0 34 1 3 (by decide) (by decide) (by decide)).marked 33
  have hpassed : bitAt (allocNframes fourWords.frames 34 0 1 3).frames 33=false := by
    decide +kernel
  rw [hpassed] at hmarked
  exact absurd hmarked (by decide)

end XanaduOS.FrameReserve
