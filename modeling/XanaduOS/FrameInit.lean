import XanaduOS.ByteMemory
import XanaduOS.FrameAlloc

/-!
# The buffer of the frame bitmap

Initialisation divides the memory size by the bytes that one word of bits
stands for, and keeps the quotient as the number of words. It requests and
clears that number divided once more by the bits of a word, as bytes. The
search visits every word. So the words lie in the buffer exactly where there
is no word at all.
-/

namespace XanaduOS.FrameInit

open Word32 KernelDefs FrameAlloc ByteMemory

/-- What initialisation leaves. -/
structure InitResult where
  /-- Zero on success. -/
  ret : ℕ
  /-- Address of the buffer, null when there is none. -/
  base : ℕ
  /-- Bytes requested for the buffer. -/
  bytes : ℕ
  /-- The memory afterwards. -/
  mem : Bytes
  /-- The bitmap that the search works on. -/
  alloc : FrameAllocator

/-- Number of words of the bitmap. -/
def wordCount (pmemLimit : ℕ) : ℕ := pmemLimit/(PAGE_SIZE*32)

/-- Obtain and clear the bitmap of a memory size. The heap is a parameter. -/
def frameAllocInit (kmalloc : Bytes → ℕ → Bytes×ℕ) (mem : Bytes) (pmemLimit : ℕ)
    (hlimit : pmemLimit<2^32) : InitResult :=
  let framesNum := wordCount pmemLimit
  let bytes := framesNum/32
  let (mem,frames) := kmalloc mem bytes
  let mem := memset mem frames 0#8 bytes
  {ret := if frames=0 then ENOMEM else 0
   base := frames
   bytes := bytes
   mem := mem
   alloc := ⟨fun i => wordAt mem (wadd frames (wmul 4 i)),framesNum,
     Nat.div_lt_of_lt_mul (by omega)⟩}

/-- Words read or written by a search, in order, from a word on. -/
def wordsTouched (nframes : ℕ) : ℕ → ℕ → ℕ → FrameWords → List ℕ
  | 0,_,_,_ => []
  | words+1,i,mapped,frames =>
    if frames i=0xFFFFFFFF#32 then i::wordsTouched nframes words (i+1) mapped frames
    else
      let curNof := min (nframes-mapped) 8
      match pickSlot frames i curNof with
      | some (some j) =>
        i::((groupWalk curNof 0 i j 0).map Prod.fst++
          if nframes ≤ mapped+curNof then []
          else wordsTouched nframes words (i+1) (mapped+curNof)
            (setNframesUsed frames curNof i j).1)
      | _ => i::wordsTouched nframes words (i+1) mapped frames

/-- Arguments of one search. -/
structure FindCall where
  /-- Number of frames. -/
  nframes : ℕ
  /-- Pointer to the entries. -/
  allocAddrs : ℕ
  /-- Flags of the entries. -/
  flags : ℕ

/-- Words touched by a run of searches. A search that does not end is the last. -/
def runTouched : List FindCall → FrameAllocator → List ℕ
  | [],_ => []
  | call::calls,s =>
    (if call.allocAddrs=0 then [] else wordsTouched call.nframes s.framesNum 0 0 s.frames)++
      match findAllocNframes s call.nframes call.allocAddrs call.flags with
      | none => []
      | some r => runTouched calls {s with frames := r.frames}

/-- The buffer holds the bitmap. -/
structure StorageSound (r : InitResult) : Prop where
  /-- Every word that a search can touch lies in the buffer. -/
  inside : ∀ i < r.alloc.framesNum,4*i+4 ≤ r.bytes
  /-- Every bit of these words is clear. -/
  clear : ∀ i < r.alloc.framesNum,r.alloc.frames i=0#32
  /-- No run of searches touches a word outside the buffer. -/
  runs : ∀ calls,∀ i∈runTouched calls r.alloc,4*i+4 ≤ r.bytes

/-- Without words a run of searches touches nothing. -/
theorem runTouched_empty (calls : List FindCall) {s : FrameAllocator} (hs : s.framesNum=0) :
    runTouched calls s=[] := by
  induction calls generalizing s with
  | nil => rfl
  | cons call calls ih =>
    have hnone : (if call.allocAddrs=0 then [] else
        wordsTouched call.nframes s.framesNum 0 0 s.frames)=[] := by
      rw [hs]
      split <;> rfl
    rw [runTouched,hnone,List.nil_append]
    split
    · rfl
    · exact ih hs

/-- What lies in the buffer is cleared. -/
theorem frames_inside (kmalloc : Bytes → ℕ → Bytes×ℕ) (mem : Bytes) {pmemLimit i : ℕ}
    (hlimit : pmemLimit<2^32) (hi : 4*i+4≤(frameAllocInit kmalloc mem pmemLimit hlimit).bytes) :
    (frameAllocInit kmalloc mem pmemLimit hlimit).alloc.frames i=0#32 := by
  have hword : wadd (kmalloc mem (wordCount pmemLimit/32)).2 (wmul 4 i)=
      wadd (kmalloc mem (wordCount pmemLimit/32)).2 (4*i) := by
    simp only [wadd,wmul,Nat.add_mod_mod]
  change wordAt _ (wadd (kmalloc mem (wordCount pmemLimit/32)).2 (wmul 4 i))=0#32
  rw [hword]
  exact wordAt_memset_zero _ _ hi

/-- The buffer holds the bitmap exactly when there is less memory than one
word of the bitmap stands for. -/
theorem frameAllocInit_sound_iff (kmalloc : Bytes → ℕ → Bytes×ℕ) (mem : Bytes) {pmemLimit : ℕ}
    (hlimit : pmemLimit<2^32) :
    StorageSound (frameAllocInit kmalloc mem pmemLimit hlimit) ↔ pmemLimit<131072 := by
  have hwords : (frameAllocInit kmalloc mem pmemLimit hlimit).alloc.framesNum=
      wordCount pmemLimit := rfl
  have hbytes : (frameAllocInit kmalloc mem pmemLimit hlimit).bytes=wordCount pmemLimit/32 := rfl
  have hnone : wordCount pmemLimit=0 ↔ pmemLimit<131072 := by
    rw [wordCount,Nat.div_eq_zero_iff_lt (by norm_num)]
    norm_num
  rw [←hnone]
  constructor
  · intro h
    by_contra hsome
    have hlast := h.inside (wordCount pmemLimit-1) (by omega)
    omega
  · intro hzero
    have hempty : (frameAllocInit kmalloc mem pmemLimit hlimit).alloc.framesNum=0 :=
      hwords.trans hzero
    have hinside : ∀ i<(frameAllocInit kmalloc mem pmemLimit hlimit).alloc.framesNum,
        4*i+4≤(frameAllocInit kmalloc mem pmemLimit hlimit).bytes := by
      intro i hi
      omega
    refine ⟨hinside,fun i hi => frames_inside kmalloc mem hlimit (hinside i hi),
      fun calls i hi => ?_⟩
    rw [runTouched_empty calls hempty] at hi
    contradiction

/-- Below one word's worth of memory, with a heap that hands out one address. -/
theorem frameAllocInit_sound_iff_small :
    StorageSound (frameAllocInit (fun mem _ => (mem,0x100000)) (fun _ => 0xFF#8) 0x10000
      (by decide)) ↔ 0x10000<131072 :=
  frameAllocInit_sound_iff _ _ (by decide)

/-- For 128 MiB the buffer has 32 bytes, and the search visits 1024 words. -/
theorem storageSound_counterexample : ¬∀ (kmalloc : Bytes → ℕ → Bytes×ℕ) (mem : Bytes)
    (pmemLimit : ℕ) (hlimit : pmemLimit<2^32),
    StorageSound (frameAllocInit kmalloc mem pmemLimit hlimit) := by
  intro h
  have hlast := (h (fun mem _ => (mem,0x100000)) (fun _ => 0#8) 0x8000000 (by norm_num)).inside 1023
    (by decide)
  exact absurd hlast (by decide)

end XanaduOS.FrameInit
