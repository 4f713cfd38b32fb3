import XanaduOS.BitWords
import XanaduOS.KernelDefs

/-!
# The physical frame bitmap

One bit per physical frame, 32 frames a word. Each request size up to eight
has its own eight-bit field of every word and its own stride in that field.
The search tests the first bit of a group and then takes the whole group;
groups that start near the end of a word continue in the next word. Frame
addresses come back as page-table entries carrying the requested flags.
-/

namespace XanaduOS.FrameAlloc

open Word32 BitWords KernelDefs

/-- Words of the bitmap; indices past the last one stand for the memory
behind the buffer. -/
abbrev FrameWords := ℕ → BitVec 32

/-- The globals `frames` and `frames_num`. -/
structure FrameAllocator where
  /-- The bitmap words, bit set for a used frame. -/
  frames : FrameWords
  /-- Number of words the search visits. -/
  framesNum : ℕ
  /-- The word count is a 32-bit memory size divided by 2^17. -/
  framesNum_lt : framesNum<2^15

/-- One word is within the bound. -/
theorem oneWord_lt : 1<2^15 := by decide

/-- Test one bit of one word. -/
def isFrameFree (frames : FrameWords) (frameMap frame : ℕ) : Bool :=
  decide (frames frameMap &&& (1#32<<<frame)=0#32)

/-- The (word,bit) pairs visited by the loop that `is_free_nframes`,
`set_nframes_used` and `alloc_nframes` share: `i` counts frames, and
`overflow` holds the value of `i` at the last word change. -/
def groupWalk : ℕ → ℕ → ℕ → ℕ → ℕ → List (ℕ×ℕ)
  | 0,_,_,_,_ => []
  | n+1,i,frameMap,frame,overflow =>
    if 32≤frame+i then
      (frameMap+1,0+i-i)::groupWalk n (i+1) (frameMap+1) 0 i
    else
      (frameMap,frame+i-overflow)::groupWalk n (i+1) frameMap frame overflow

/-- Whether every frame of a group is free. The search never calls it. -/
def isFreeNframes (frames : FrameWords) (nframes frameMap frame : ℕ) : Bool :=
  (groupWalk nframes 0 frameMap frame 0).all fun slot => isFrameFree frames slot.1 slot.2

/-- Mark one frame; a frame already marked is reported and left alone. -/
def setFrameUsed (frames : FrameWords) (frameMap frame : ℕ) : FrameWords×ℕ :=
  if frames frameMap &&& (1#32<<<frame)≠0#32 then (frames,EINVAL)
  else (setBit frames frameMap frame,0)

/-- Mark a whole group, collecting the reports. -/
def setNframesUsed (frames : FrameWords) (nframes frameMap frame : ℕ) : FrameWords×ℕ :=
  (groupWalk nframes 0 frameMap frame 0).foldl
    (fun acc slot =>
      let next := setFrameUsed acc.1 slot.1 slot.2
      (next.1,acc.2 ||| next.2))
    (frames,0)

/-- Word and bit of a physical address. -/
def getFrameMeta (addr : ℕ) : ℕ×ℕ :=
  let frameMap := addr/(PAGE_SIZE*32)
  (frameMap,(addr-frameMap*PAGE_SIZE*32)/PAGE_SIZE)

/-- Physical address of a word and bit, in 32-bit arithmetic. -/
def frameMapToAddr (frameMap frame : ℕ) : ℕ :=
  wadd (wmul (wmul frameMap PAGE_SIZE) 32) (wmul frame PAGE_SIZE)

/-- The eight-bit field of a request size and its index; sizes above eight
get the last field with the index one past it. -/
def getFrameSubmapMask (nframes : ℕ) : BitVec 32×ℕ :=
  match (List.range 4).find? fun buddy => nframes≤1<<<buddy with
  | some buddy => (0xFF#32<<<(buddy*8),buddy)
  | none => (0xFF#32<<<(3*8),4)

/-- Result of a search: return code, bitmap and the entries written. -/
structure FindResult where
  /-- Zero on success. -/
  ret : ℕ
  /-- The bitmap afterwards. -/
  frames : FrameWords
  /-- The entries written through `alloc_addrs`, from index 0. -/
  addrs : List ℕ

/-- Reserve a given physical range. The reports of the marking loop are
ignored, and the entries are written from the address alone. -/
def allocNframes (frames : FrameWords) (nframes addr allocAddrs flags : ℕ) : FindResult :=
  if allocAddrs=0 then ⟨1,frames,[]⟩
  else
    let slot := getFrameMeta addr
    ⟨0,(setNframesUsed frames nframes slot.1 slot.2).1,
      (List.range nframes).map fun i => wadd addr (wmul i PAGE_SIZE) ||| flags⟩

/-- Entries of a found group. -/
def setNallocAddrs (nframes frameMap frame flags : ℕ) : List ℕ :=
  (List.range nframes).map fun i => frameMapToAddr frameMap (frame+i) ||| flags

/-- The inner loop of `find_frame_in_map`: step through the field by the
request size until a free first bit. Running out of fuel is a loop that
never ends, which only a request of no frames can be. -/
def scanField (frames : FrameWords) (frameMap nframes limit : ℕ) : ℕ → ℕ → Option (Option ℕ)
  | 0,_ => none
  | fuel+1,j =>
    if j<limit then
      if isFrameFree frames frameMap j then some (some j)
      else scanField frames frameMap nframes limit fuel (j+nframes)
    else some none

/-- The slot `find_frame_in_map` settles on: none in a full field. -/
def pickSlot (frames : FrameWords) (frameMap nframes : ℕ) : Option (Option ℕ) :=
  let mask := getFrameSubmapMask nframes
  if frames frameMap &&& mask.1=mask.1 then some none
  else scanField frames frameMap nframes (8*(mask.2+1)) 9 (8*mask.2)

/-- Take one group of one word, or report that there is none. -/
def findFrameInMap (frames : FrameWords) (frameMap nframes flags : ℕ) :
    Option (Option (FrameWords×List ℕ)) :=
  match pickSlot frames frameMap nframes with
  | none => none
  | some none => some none
  | some (some j) =>
    some (some ((setNframesUsed frames nframes frameMap j).1,
      setNallocAddrs nframes frameMap j flags))

/-- The outer loop over the words `i, i+1, ..`, with `mapped` frames found. -/
def findLoop (nframes flags : ℕ) : ℕ → ℕ → ℕ → FrameWords → List ℕ → Option FindResult
  | 0,_,_,frames,addrs => some ⟨ENOMEM,frames,addrs⟩
  | words+1,i,mapped,frames,addrs =>
    if frames i=0xFFFFFFFF#32 then findLoop nframes flags words (i+1) mapped frames addrs
    else
      let curNof := min (nframes-mapped) 8
      match findFrameInMap frames i curNof flags with
      | none => none
      | some none => findLoop nframes flags words (i+1) mapped frames addrs
      | some (some (frames',new)) =>
        if nframes ≤ mapped+curNof then some ⟨0,frames',addrs++new⟩
        else findLoop nframes flags words (i+1) (mapped+curNof) frames' (addrs++new)

/-- Find and take any frames. -/
def findAllocNframes (s : FrameAllocator) (nframes allocAddrs flags : ℕ) : Option FindResult :=
  if allocAddrs=0 then some ⟨0,s.frames,[]⟩
  else findLoop nframes flags s.framesNum 0 0 s.frames []

/-- Release one frame; the flag bits of the address are dropped first. -/
def deallocFrame (frames : FrameWords) (addr : ℕ) : FrameWords :=
  let slot := getFrameMeta (addr-addr%PAGE_SIZE)
  clearBit frames slot.1 slot.2

/-- Release the frames of a contiguous address range. -/
def deallocNframes (frames : FrameWords) (addr nframes : ℕ) : FrameWords :=
  (List.range nframes).foldl (fun acc i => deallocFrame acc (wadd addr (wmul PAGE_SIZE i))) frames

/-! ## Single words and groups -/

/-- The free test reads the flat bit. -/
theorem isFrameFree_iff (frames : FrameWords) {frameMap frame : ℕ} (hf : frame<32) :
    isFrameFree frames frameMap frame=true ↔ bitAt frames (32*frameMap+frame)=false := by
  rw [isFrameFree,decide_eq_true_iff,and_mask_eq_zero_iff _ hf,bitAt_mul_add _ hf]

/-- After the word change the walk stays in the new word. -/
theorem groupWalk_after (n i frameMap overflow : ℕ) (hi : i+n≤32) :
    groupWalk n i frameMap 0 overflow=(List.range' i n).map fun t => (frameMap,t-overflow) := by
  induction n generalizing i with
  | zero => rfl
  | succ n ih =>
    have hlt : ¬32≤0+i := by omega
    rw [groupWalk,if_neg hlt,ih (i+1) (by omega),Nat.zero_add,List.range'_succ,List.map_cons]

/-- Up to 32 frames, the walk visits consecutive flat positions. -/
theorem groupWalk_before (n i frameMap frame : ℕ) (hf : frame<32) (hi : i≤32-frame)
    (hn : i+n≤32) :
    groupWalk n i frameMap frame 0=(List.range' i n).map fun t =>
      ((32*frameMap+frame+t)/32,(32*frameMap+frame+t)%32) := by
  induction n generalizing i with
  | zero => rfl
  | succ n ih =>
    rw [List.range'_succ,List.map_cons]
    by_cases hover : 32≤frame+i
    · simp only [groupWalk,if_pos hover]
      rw [groupWalk_after n (i+1) (frameMap+1) i (by omega)]
      congr 1
      · exact Prod.ext (by simp only; omega) (by simp only; omega)
      · apply List.map_congr_left
        intro t ht
        obtain ⟨h0,h1⟩ := List.mem_range'_1.mp ht
        exact Prod.ext (by simp only; omega) (by simp only; omega)
    · simp only [groupWalk,if_neg hover]
      rw [ih (i+1) (by omega) (by omega)]
      congr 1
      exact Prod.ext (by simp only; omega) (by simp only; omega)

/-- A group of at most 32 frames is the flat interval starting at its slot. -/
theorem groupWalk_eq {n frameMap frame : ℕ} (hf : frame<32) (hn : n≤32) :
    groupWalk n 0 frameMap frame 0=(List.range n).map fun t =>
      ((32*frameMap+frame+t)/32,(32*frameMap+frame+t)%32) := by
  rw [groupWalk_before n 0 frameMap frame hf (Nat.zero_le _) (by omega),List.range_eq_range']

/-- A group is free exactly when its flat interval is clear. -/
theorem isFreeNframes_iff (frames : FrameWords) {n frameMap frame : ℕ} (hf : frame<32)
    (hn : n≤32) :
    isFreeNframes frames n frameMap frame=true ↔
      ∀ t<n,bitAt frames (32*frameMap+frame+t)=false := by
  have hflat : ∀ t,32*((32*frameMap+frame+t)/32)+(32*frameMap+frame+t)%32=
      32*frameMap+frame+t := fun t => Nat.div_add_mod _ _
  simp only [isFreeNframes,groupWalk_eq hf hn,List.all_map,List.all_eq_true,List.mem_range,
    Function.comp]
  refine forall₂_congr fun t _ => ?_
  rw [isFrameFree_iff frames (Nat.mod_lt _ (by norm_num)),hflat]

/-- Marking one frame sets its bit, whether or not it was set. -/
theorem bitAt_setFrameUsed (frames : FrameWords) {frameMap frame : ℕ} (hf : frame<32) (k : ℕ) :
    bitAt (setFrameUsed frames frameMap frame).1 k=
      (bitAt frames k || decide (k=32*frameMap+frame)) := by
  unfold setFrameUsed
  split
  · rename_i hset
    have hb : bitAt frames (32*frameMap+frame)=true := by
      rw [bitAt_mul_add _ hf]
      exact (Bool.eq_true_of_not_eq_false fun h => hset ((and_mask_eq_zero_iff _ hf).mpr h))
    by_cases hk : k=32*frameMap+frame
    · simp [hk,hb]
    · simp [hk]
  · exact bitAt_setBit frames hf k

/-- Marking a list of slots sets exactly the bits of those slots. -/
theorem bitAt_foldl_setFrameUsed (slots : List (ℕ×ℕ)) (hs : ∀ slot∈slots,slot.2<32)
    (acc : FrameWords×ℕ) (k : ℕ) :
    bitAt (slots.foldl (fun acc slot =>
        ((setFrameUsed acc.1 slot.1 slot.2).1,acc.2 ||| (setFrameUsed acc.1 slot.1 slot.2).2))
      acc).1 k=(bitAt acc.1 k || decide (k∈slots.map fun slot => 32*slot.1+slot.2)) := by
  induction slots generalizing acc with
  | nil => simp
  | cons slot slots ih =>
    rw [List.foldl_cons,ih (fun s h => hs s (List.mem_cons_of_mem _ h)),
      bitAt_setFrameUsed _ (hs slot List.mem_cons_self)]
    simp only [List.map_cons,List.mem_cons,Bool.decide_or,Bool.or_assoc]

/-- Taking a group of at most 32 frames sets exactly its flat interval. -/
theorem bitAt_setNframesUsed (frames : FrameWords) {n frameMap frame : ℕ} (hf : frame<32)
    (hn : n≤32) (k : ℕ) :
    bitAt (setNframesUsed frames n frameMap frame).1 k=
      (bitAt frames k || decide (32*frameMap+frame≤k ∧ k<32*frameMap+frame+n)) := by
  rw [setNframesUsed,bitAt_foldl_setFrameUsed]
  · congr 1
    rw [groupWalk_eq hf hn,List.map_map,decide_eq_decide,List.mem_map]
    simp only [Function.comp,Nat.div_add_mod,List.mem_range]
    constructor
    · rintro ⟨t,ht,rfl⟩
      omega
    · intro h
      exact ⟨k-(32*frameMap+frame),by omega,by omega⟩
  · intro slot hs
    rw [groupWalk_eq hf hn,List.mem_map] at hs
    obtain ⟨t,_,rfl⟩ := hs
    exact Nat.mod_lt _ (by norm_num)

/-- The word and bit of an address are its page number in flat form. -/
theorem getFrameMeta_flat (addr : ℕ) :
    32*(getFrameMeta addr).1+(getFrameMeta addr).2=addr/PAGE_SIZE ∧ (getFrameMeta addr).2<32 := by
  simp only [getFrameMeta,PAGE_SIZE]
  omega

/-- Releasing an address clears exactly the bit of its page number. -/
theorem bitAt_deallocFrame (frames : FrameWords) (addr k : ℕ) :
    bitAt (deallocFrame frames addr) k=(bitAt frames k && decide (k≠addr/PAGE_SIZE)) := by
  have hpage : (addr-addr%PAGE_SIZE)/PAGE_SIZE=addr/PAGE_SIZE := by
    simp only [PAGE_SIZE]
    omega
  obtain ⟨hslot,hlt⟩ := getFrameMeta_flat (addr-addr%PAGE_SIZE)
  change bitAt (clearBit frames (getFrameMeta (addr-addr%PAGE_SIZE)).1
    (getFrameMeta (addr-addr%PAGE_SIZE)).2) k=_
  rw [bitAt_clearBit _ hlt,hslot,hpage]

/-- Releasing a range clears exactly the page numbers of its addresses. -/
theorem bitAt_deallocNframes (frames : FrameWords) (addr n k : ℕ) :
    bitAt (deallocNframes frames addr n) k=(bitAt frames k &&
      decide (∀ i<n,k≠wadd addr (wmul PAGE_SIZE i)/PAGE_SIZE)) := by
  unfold deallocNframes
  induction n with
  | zero => simp
  | succ n ih =>
    rw [List.range_succ,List.foldl_append,List.foldl_cons,List.foldl_nil,bitAt_deallocFrame,ih,
      Bool.and_assoc,←Bool.decide_and]
    congr 1
    rw [decide_eq_decide]
    constructor
    · rintro ⟨h,hn⟩ i hi
      rcases Nat.lt_succ_iff_lt_or_eq.mp hi with hlt|rfl
      · exact h i hlt
      · exact hn
    · intro h
      exact ⟨fun i hi => h i (by omega),h n (by omega)⟩

end XanaduOS.FrameAlloc
