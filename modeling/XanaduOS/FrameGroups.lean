import XanaduOS.FrameAlloc

/-!
# The frames that a search picks

A request is served in groups of eight frames and a last group of the frames
that remain. A group of eight is the last field of a word and is picked where
frame 24 of the word is free. The last group starts at the first free one of
the starts of its size, in the first word behind the others that has one. So
the frames that a search takes can be read off the bitmap before the call.
-/

namespace XanaduOS.FrameGroups

open Word32 BitWords KernelDefs FrameAlloc

/-- A group of consecutive frames, named by the word and bit it starts at. -/
structure Group where
  /-- Word of the first frame. -/
  frameMap : ℕ
  /-- Bit of the first frame. -/
  frame : ℕ
  /-- Number of frames. -/
  nframes : ℕ

/-- Flat number of the first frame of a group. -/
def Group.first (g : Group) : ℕ := 32*g.frameMap+g.frame

/-- Flat numbers of all frames of a group. -/
def Group.frameIds (g : Group) : List ℕ := (List.range g.nframes).map fun t => g.first+t

/-- The groups a search picks by their first bits, all read in one bitmap. -/
def groupsPicked (frames : FrameWords) (nframes : ℕ) : ℕ → ℕ → ℕ → List Group
  | 0,_,_ => []
  | words+1,i,mapped =>
    if frames i=0xFFFFFFFF#32 then groupsPicked frames nframes words (i+1) mapped
    else
      let curNof := min (nframes-mapped) 8
      match pickSlot frames i curNof with
      | some (some j) =>
        ⟨i,j,curNof⟩::if nframes ≤ mapped+curNof then []
          else groupsPicked frames nframes words (i+1) (mapped+curNof)
      | _ => groupsPicked frames nframes words (i+1) mapped

/-! ## The groups of a request, read off the bitmap -/

/-- Bits of a word at which a group may start: the strides in its field. -/
def groupStarts (nframes : ℕ) : List ℕ :=
  List.range' (8*(getFrameSubmapMask nframes).2) ((nframes+7)/nframes) nframes

/-- A word offers a group from a bit on: the first clear one of its starts. -/
def StartsAt (frames : FrameWords) (frameMap nframes frame : ℕ) : Prop :=
  frame∈groupStarts nframes ∧ bitAt frames (32*frameMap+frame)=false ∧
    ∀ j∈groupStarts nframes,j<frame → bitAt frames (32*frameMap+j)=true

/-- A word offers no group: its starts are all set. -/
def NoStart (frames : FrameWords) (frameMap nframes : ℕ) : Prop :=
  ∀ j∈groupStarts nframes,bitAt frames (32*frameMap+j)=true

/-- Number of groups of eight before the last group of a request. -/
def fullGroups (nframes : ℕ) : ℕ := (nframes-1)/8

/-- Number of frames of the last group. -/
def lastSize (nframes : ℕ) : ℕ := nframes-8*fullGroups nframes

/-- Number of words before a word whose frame 24 is free. -/
def fullBefore (frames : FrameWords) (frameMap : ℕ) : ℕ :=
  (List.range frameMap).countP fun w => !bitAt frames (32*w+24)

/-- The last group of a request starts at a word and bit: in the first word
behind the groups of eight that offers it. -/
def LastGroup (s : FrameAllocator) (nframes frameMap frame : ℕ) : Prop :=
  fullGroups nframes≤fullBefore s.frames frameMap ∧
    StartsAt s.frames frameMap (lastSize nframes) frame ∧
    ∀ w<frameMap,fullGroups nframes≤fullBefore s.frames w → NoStart s.frames w (lastSize nframes)

/-- The frames of a request have a property: the eight from bit 24 on in each of
the first words whose frame 24 is free, and those of the last group. -/
def GroupsHave (s : FrameAllocator) (nframes : ℕ) (P : ℕ → Prop) : Prop :=
  (∀ w<s.framesNum,fullBefore s.frames w<fullGroups nframes →
    bitAt s.frames (32*w+24)=false → ∀ t<8,P (32*w+24+t)) ∧
  ∀ w<s.framesNum,∀ j∈groupStarts (lastSize nframes),LastGroup s nframes w j →
    ∀ t<lastSize nframes,P (32*w+j+t)

/-- The bitmap has groups for the whole request. -/
def Offered (s : FrameAllocator) (nframes : ℕ) : Prop :=
  ∃ w<s.framesNum,∃ j∈groupStarts (lastSize nframes),LastGroup s nframes w j

/-- The frames of a request are all free. -/
def GroupsFree (s : FrameAllocator) (nframes : ℕ) : Prop :=
  GroupsHave s nframes fun k => bitAt s.frames k=false

instance (frames : FrameWords) (frameMap nframes frame : ℕ) :
    Decidable (StartsAt frames frameMap nframes frame) := inferInstanceAs (Decidable (_ ∧ _))

instance (frames : FrameWords) (frameMap nframes : ℕ) :
    Decidable (NoStart frames frameMap nframes) :=
  inferInstanceAs (Decidable (∀ j∈groupStarts nframes,bitAt frames (32*frameMap+j)=true))

instance (s : FrameAllocator) (nframes frameMap frame : ℕ) :
    Decidable (LastGroup s nframes frameMap frame) := inferInstanceAs (Decidable (_ ∧ _ ∧ _))

instance (s : FrameAllocator) (nframes : ℕ) : Decidable (Offered s nframes) :=
  inferInstanceAs (Decidable (∃ w<s.framesNum,∃ j∈groupStarts (lastSize nframes),
    LastGroup s nframes w j))

instance (s : FrameAllocator) (nframes : ℕ) (P : ℕ → Prop) [DecidablePred P] :
    Decidable (GroupsHave s nframes P) := inferInstanceAs (Decidable (_ ∧ _))

instance (s : FrameAllocator) (nframes : ℕ) : Decidable (GroupsFree s nframes) :=
  inferInstanceAs (Decidable (GroupsHave s nframes fun k => bitAt s.frames k=false))

variable {frames : FrameWords} {n : ℕ}

/-! ## The slot of one word -/

/-- The scan stops at the first free one of its strides, or finds none free. -/
theorem scanField_spec {frameMap limit len fuel j : ℕ} (hlimit : limit≤j+n*len)
    (hin : ∀ t<len,j+n*t<limit) (hfuel : len<fuel) :
    (scanField frames frameMap n limit fuel j=some none ∧
      ∀ k∈List.range' j len n,isFrameFree frames frameMap k=false) ∨
    ∃ r∈List.range' j len n,scanField frames frameMap n limit fuel j=some (some r) ∧
      isFrameFree frames frameMap r=true ∧
      ∀ k∈List.range' j len n,k < r → isFrameFree frames frameMap k=false := by
  induction len generalizing j fuel with
  | zero =>
    obtain ⟨fuel,rfl⟩ := Nat.exists_eq_add_of_lt hfuel
    refine Or.inl ⟨?_,fun k hk => by cases hk⟩
    rw [Nat.zero_add,scanField,if_neg (by omega)]
  | succ len ih =>
    obtain ⟨fuel,rfl⟩ : ∃ left,fuel=left+1 := ⟨fuel-1,by omega⟩
    have hj : j<limit := hin 0 (Nat.succ_pos len)
    rw [scanField,if_pos hj,List.range'_succ]
    cases hfree : isFrameFree frames frameMap j with
    | true =>
      refine Or.inr ⟨j,List.mem_cons_self,rfl,hfree,fun k hk hlt => ?_⟩
      rcases List.mem_cons.mp hk with rfl|hk
      · exact absurd hlt (Nat.lt_irrefl _)
      · obtain ⟨t,-,rfl⟩ := List.mem_range'.mp hk
        omega
    | false =>
      have hrest := @ih fuel (j+n) (by rw [Nat.mul_succ] at hlimit; omega)
        (fun t ht => by have := hin (t+1) (by omega); rw [Nat.mul_succ] at this; omega) (by omega)
      have hcons : ∀ {P : ℕ → Prop},(∀ k∈List.range' (j+n) len n,P k →
          isFrameFree frames frameMap k=false) →
          ∀ k∈j::List.range' (j+n) len n,P k → isFrameFree frames frameMap k=false := by
        intro P hset k hk hP
        rcases List.mem_cons.mp hk with rfl|hk
        · exact hfree
        · exact hset k hk hP
      rcases hrest with ⟨hscan,hset⟩|⟨r,hr,hscan,hrfree,hset⟩
      · exact Or.inl ⟨hscan,fun k hk => hcons (P:=fun _ => True) (fun k hk _ => hset k hk) k hk trivial⟩
      · exact Or.inr ⟨r,List.mem_cons_of_mem _ hr,hscan,hrfree,hcons hset⟩

/-- The starts of a group lie in the eight bits of its field, and reach their end. -/
theorem groupStarts_field (h0 : 0<n) (h8 : n≤8) : (getFrameSubmapMask n).2<4 ∧
    (getFrameSubmapMask n).1=0xFF#32<<<(8*(getFrameSubmapMask n).2) ∧
    8≤n*((n+7)/n) ∧ (n+7)/n≤8 ∧ ∀ t<(n+7)/n,n*t<8 := by
  interval_cases n <;> decide

/-- The starts of a group are bits of its word, and a group of eight has the one
start 24. -/
theorem groupStarts_bit (h0 : 0<n) (h8 : n≤8) {j : ℕ} (hj : j∈groupStarts n) :
    j<32 ∧ (n=8 → j=24) := by
  obtain ⟨hfield,-,-,-,hlt⟩ := groupStarts_field h0 h8
  obtain ⟨t,ht,rfl⟩ := List.mem_range'.mp hj
  have := hlt t ht
  refine ⟨by omega,fun hn => ?_⟩
  subst hn
  have hone : (getFrameSubmapMask 8).2=3 := by decide
  omega

/-- A set bit is a frame that is not free. -/
theorem isFrameFree_eq_false (frames : FrameWords) {frameMap frame : ℕ} (hf : frame<32) :
    isFrameFree frames frameMap frame=false ↔ bitAt frames (32*frameMap+frame)=true := by
  rw [←Bool.not_eq_true,isFrameFree_iff frames hf,Bool.not_eq_false]

/-- A word whose field is full has the starts of the field set. -/
theorem noStart_of_full {frameMap : ℕ} (h0 : 0<n) (h8 : n≤8)
    (hfull : frames frameMap&&&(getFrameSubmapMask n).1=(getFrameSubmapMask n).1) :
    NoStart frames frameMap n := by
  intro j hj
  obtain ⟨hfield,hmask,-,-,hlt⟩ := groupStarts_field h0 h8
  obtain ⟨hbit,-⟩ := groupStarts_bit h0 h8 hj
  obtain ⟨t,ht,rfl⟩ := List.mem_range'.mp hj
  have hin := hlt t ht
  have hset : ((getFrameSubmapMask n).1).getLsbD (8*(getFrameSubmapMask n).2+n*t)=true := by
    rw [hmask,BitVec.getLsbD_shiftLeft]
    generalize n*t=k at hin hbit ⊢
    generalize (getFrameSubmapMask n).2=b at hfield hbit ⊢
    have hones : (0xFF#32).getLsbD k=true := by
      interval_cases k <;> rfl
    rw [Nat.add_sub_cancel_left,hones]
    simp [hbit]
  have hand : (frames frameMap&&&(getFrameSubmapMask n).1).getLsbD
      (8*(getFrameSubmapMask n).2+n*t)=true := by rw [hfull,hset]
  rw [BitVec.getLsbD_and,Bool.and_eq_true] at hand
  rw [bitAt_mul_add frames hbit]
  exact hand.1

/-- The slot picked in a word is the first clear start. -/
theorem pickSlot_spec (frameMap : ℕ) (h0 : 0<n) (h8 : n≤8) :
    (pickSlot frames frameMap n=some none ∧ NoStart frames frameMap n) ∨
    ∃ j,pickSlot frames frameMap n=some (some j) ∧ StartsAt frames frameMap n j := by
  unfold pickSlot
  simp only
  by_cases hfull : frames frameMap&&&(getFrameSubmapMask n).1=(getFrameSubmapMask n).1
  · exact Or.inl ⟨if_pos hfull,noStart_of_full h0 h8 hfull⟩
  rw [if_neg hfull]
  obtain ⟨-,-,hreach,hcount,hlt⟩ := groupStarts_field h0 h8
  have hset : ∀ j∈groupStarts n,isFrameFree frames frameMap j=false →
      bitAt frames (32*frameMap+j)=true := fun j hj =>
    (isFrameFree_eq_false frames (groupStarts_bit h0 h8 hj).1).mp
  rcases @scanField_spec frames n frameMap (8*((getFrameSubmapMask n).2+1)) ((n+7)/n) 9
    (8*(getFrameSubmapMask n).2) (by omega) (fun t ht => by have := hlt t ht; omega) (by omega) with
    ⟨hscan,hnone⟩|⟨j,hj,hscan,hfree,hbefore⟩
  · exact Or.inl ⟨hscan,fun j hj => hset j hj (hnone j hj)⟩
  · exact Or.inr ⟨j,hscan,hj,(isFrameFree_iff frames (groupStarts_bit h0 h8 hj).1).mp hfree,
      fun k hk hlt => hset k hk (hbefore k hk hlt)⟩

/-- The bit is a free one of its word; a full group starts at bit 24. -/
theorem StartsAt.found {frameMap j : ℕ} (h0 : 0<n) (h8 : n≤8) (h : StartsAt frames frameMap n j) :
    j<32 ∧ isFrameFree frames frameMap j=true ∧ (n=8 → j=24) := by
  obtain ⟨hbit,hlast⟩ := groupStarts_bit h0 h8 h.1
  exact ⟨hbit,(isFrameFree_iff frames hbit).mpr h.2.1,hlast⟩

/-- A word offers a group from one bit on at most. -/
theorem StartsAt.unique {frameMap j k : ℕ} (hj : StartsAt frames frameMap n j)
    (hk : StartsAt frames frameMap n k) : j=k := by
  rcases Nat.lt_trichotomy j k with hlt|heq|hlt
  · have hclear := hj.2.1
    rw [hk.2.2 j hj.1 hlt] at hclear
    cases hclear
  · exact heq
  · have hclear := hk.2.1
    rw [hj.2.2 k hk.1 hlt] at hclear
    cases hclear

/-- A word that offers a group has a clear start. -/
theorem StartsAt.not_noStart {frameMap j : ℕ} (hj : StartsAt frames frameMap n j) :
    ¬NoStart frames frameMap n := by
  intro hnone
  have hclear := hj.2.1
  rw [hnone j hj.1] at hclear
  cases hclear

/-- The picked slot is a free bit of its word; a full group starts at bit 24. -/
theorem pickSlot_found {frameMap j : ℕ} (h0 : 0<n) (h8 : n≤8)
    (h : pickSlot frames frameMap n=some (some j)) :
    j<32 ∧ isFrameFree frames frameMap j=true ∧ (n=8 → j=24) := by
  rcases pickSlot_spec frameMap h0 h8 with ⟨hpick,-⟩|⟨k,hpick,hstart⟩
  · rw [hpick] at h
    cases h
  · rw [hpick] at h
    cases h
    exact hstart.found h0 h8

/-- The slot depends on its own word only. -/
theorem pickSlot_congr {frames frames' : FrameWords} {i : ℕ} (h : frames i=frames' i) (n : ℕ) :
    pickSlot frames i n=pickSlot frames' i n := by
  have hfree : ∀ j,isFrameFree frames i j=isFrameFree frames' i j := by
    intro j
    simp only [isFrameFree,h]
  have hscan : ∀ limit fuel j,
      scanField frames i n limit fuel j=scanField frames' i n limit fuel j := by
    intro limit fuel
    induction fuel with
    | zero => intro j; rfl
    | succ fuel ih => intro j; simp only [scanField,hfree,ih]
  simp only [pickSlot,h,hscan]

/-! ## The picked groups -/

/-- A word is passed over, or a group of it is picked. -/
theorem groupsPicked_step {words i mapped : ℕ} (hm : mapped<n) :
    (NoStart frames i (min (n-mapped) 8) ∧
      groupsPicked frames n (words+1) i mapped=groupsPicked frames n words (i+1) mapped) ∨
    ∃ j,StartsAt frames i (min (n-mapped) 8) j ∧
      groupsPicked frames n (words+1) i mapped=⟨i,j,min (n-mapped) 8⟩::
        if n ≤ mapped+min (n-mapped) 8 then []
        else groupsPicked frames n words (i+1) (mapped+min (n-mapped) 8) := by
  have h0 : 0 < min (n-mapped) 8 := by omega
  have h8 : min (n-mapped) 8≤8 := Nat.min_le_right _ _
  rw [groupsPicked]
  by_cases hfull : frames i=0xFFFFFFFF#32
  · refine Or.inl ⟨fun j hj => ?_,if_pos hfull⟩
    have hbit := (groupStarts_bit h0 h8 hj).1
    rw [bitAt_mul_add frames hbit,hfull]
    interval_cases j <;> rfl
  · simp only [if_neg hfull]
    rcases pickSlot_spec i h0 h8 with ⟨hpick,hnone⟩|⟨j,hpick,hstart⟩
    · rw [hpick]
      exact Or.inl ⟨hnone,rfl⟩
    · rw [hpick]
      exact Or.inr ⟨j,hstart,rfl⟩

/-- Picking from word `i` on reads no earlier word. -/
theorem groupsPicked_congr {frames frames' : FrameWords} (n words i mapped : ℕ)
    (h : ∀ j,i≤j → frames j=frames' j) :
    groupsPicked frames n words i mapped=groupsPicked frames' n words i mapped := by
  induction words generalizing i mapped with
  | zero => rfl
  | succ words ih =>
    have hnext : ∀ m,groupsPicked frames n words (i+1) m=groupsPicked frames' n words (i+1) m :=
      fun m => ih (i+1) m fun j hj => h j (by omega)
    simp only [groupsPicked,h i le_rfl,pickSlot_congr (h i le_rfl),hnext]

/-- Every picked group starts at a free bit of a visited word and has one to
eight frames. -/
theorem groupsPicked_mem {words i mapped : ℕ} (hm : mapped<n) {g : Group}
    (hg : g∈groupsPicked frames n words i mapped) :
    i≤g.frameMap ∧ g.frameMap < i+words ∧ g.frame<32 ∧ 0<g.nframes ∧ g.nframes≤8 ∧
      isFrameFree frames g.frameMap g.frame=true := by
  induction words generalizing i mapped with
  | zero => cases hg
  | succ words ih =>
    have hwiden : ∀ {m},m<n → g∈groupsPicked frames n words (i+1) m → i≤g.frameMap ∧
        g.frameMap < i+(words+1) ∧ g.frame<32 ∧ 0<g.nframes ∧ g.nframes≤8 ∧
        isFrameFree frames g.frameMap g.frame=true := by
      intro m hlt hmem
      obtain ⟨h0,h1,h2⟩ := ih hlt hmem
      exact ⟨by omega,by omega,h2⟩
    rcases groupsPicked_step hm with ⟨-,heq⟩|⟨j,hstart,heq⟩
    · rw [heq] at hg
      exact hwiden hm hg
    · obtain ⟨h32,hfree,-⟩ := hstart.found (by omega) (by omega)
      rw [heq] at hg
      rcases List.mem_cons.mp hg with rfl|hg
      · exact ⟨le_rfl,by simp only; omega,h32,by simp only; omega,by simp only; omega,hfree⟩
      · split at hg
        · cases hg
        · exact hwiden (by omega) hg

/-- A frame lies in a group exactly when it lies in its flat interval. -/
theorem Group.mem_frameIds {g : Group} {k : ℕ} :
    k∈g.frameIds ↔ g.first≤k ∧ k<g.first+g.nframes := by
  simp only [Group.frameIds,List.mem_map,List.mem_range]
  constructor
  · rintro ⟨t,ht,rfl⟩
    omega
  · intro h
    exact ⟨k-g.first,by omega,by omega⟩

/-- The frames of the picked groups increase strictly from word `i` on: only
the last group can cross into the next word, and it ends the search. -/
theorem groupsPicked_increasing {words i mapped : ℕ} (hm : mapped<n) :
    ((groupsPicked frames n words i mapped).flatMap Group.frameIds).Pairwise (· < ·) ∧
      ∀ k∈(groupsPicked frames n words i mapped).flatMap Group.frameIds,32*i≤k := by
  induction words generalizing i mapped with
  | zero => simp [groupsPicked]
  | succ words ih =>
    have hself : ∀ (first m : ℕ),((List.range m).map fun t => first+t).Pairwise (· < ·) := by
      intro first m
      exact List.pairwise_map.mpr (List.pairwise_lt_range.imp fun h => Nat.add_lt_add_left h first)
    rcases @groupsPicked_step frames n words i mapped hm with ⟨-,heq⟩|⟨j,hstart,heq⟩
    · rw [heq]
      obtain ⟨hp,hk⟩ := ih (i:=i+1) hm
      exact ⟨hp,fun k h => by have := hk k h; omega⟩
    · obtain ⟨h32,-,h24⟩ := hstart.found (by omega) (by omega)
      rw [heq]
      split
      · simp only [List.flatMap_cons,List.flatMap_nil,List.append_nil]
        refine ⟨hself _ _,fun k h => ?_⟩
        have := (Group.mem_frameIds.mp h).1
        simp only [Group.first] at this
        omega
      · rename_i hmore
        have h8 : min (n-mapped) 8=8 := by omega
        obtain ⟨hp,hk⟩ := ih (i:=i+1) (by omega : mapped+min (n-mapped) 8<n)
        rw [List.flatMap_cons]
        constructor
        · refine List.pairwise_append.mpr ⟨hself _ _,hp,fun a ha b hb => ?_⟩
          have hlow := hk b hb
          have hhigh := (Group.mem_frameIds.mp ha).2
          simp only [Group.first,h24 h8] at hhigh
          omega
        · intro k h
          rcases List.mem_append.mp h with ha|hb
          · have := (Group.mem_frameIds.mp ha).1
            simp only [Group.first] at this
            omega
          · have := hk k hb
            omega

/-! ## The search takes the picked groups -/

/-- Taking a full group at bit 24 touches no other word. -/
theorem setNframesUsed_other {frames : FrameWords} {i j : ℕ} (hij : j≠i) :
    (setNframesUsed frames 8 i 24).1 j=frames j := by
  apply BitVec.eq_of_getLsbD_eq
  intro b hb
  rw [←bitAt_mul_add _ hb,←bitAt_mul_add _ hb,bitAt_setNframesUsed _ (by norm_num) (by norm_num)]
  have hout : ¬(32*i+24≤32*j+b ∧ 32*j+b<32*i+24+8) := by omega
  simp [hout]

/-- One iteration of the search skips a word, takes the last group from it, or
takes a group and goes on in the words behind it, which are as they were. -/
theorem findLoop_cases {n flags words i mapped : ℕ} {frames : FrameWords} {addrs : List ℕ}
    {r : FindResult} (hm : mapped<n)
    (h : findLoop n flags (words+1) i mapped frames addrs=some r) :
    (findLoop n flags words (i+1) mapped frames addrs=some r ∧
      groupsPicked frames n (words+1) i mapped=groupsPicked frames n words (i+1) mapped) ∨
    ∃ j<32,isFrameFree frames i j=true ∧
      ((n ≤ mapped+min (n-mapped) 8 ∧
        r=⟨0,(setNframesUsed frames (min (n-mapped) 8) i j).1,
          addrs++setNallocAddrs (min (n-mapped) 8) i j flags⟩ ∧
        groupsPicked frames n (words+1) i mapped=[⟨i,j,min (n-mapped) 8⟩]) ∨
      (mapped+min (n-mapped) 8<n ∧
        findLoop n flags words (i+1) (mapped+min (n-mapped) 8)
          (setNframesUsed frames (min (n-mapped) 8) i j).1
          (addrs++setNallocAddrs (min (n-mapped) 8) i j flags)=some r ∧
        groupsPicked frames n (words+1) i mapped=⟨i,j,min (n-mapped) 8⟩::
          groupsPicked (setNframesUsed frames (min (n-mapped) 8) i j).1 n words (i+1)
            (mapped+min (n-mapped) 8))) := by
  rw [findLoop] at h
  rw [groupsPicked]
  split at h
  · rename_i hfull
    exact Or.inl ⟨h,if_pos hfull⟩
  · rename_i hfull
    rw [if_neg hfull]
    simp only [findFrameInMap] at h ⊢
    cases hpick : pickSlot frames i (min (n-mapped) 8) with
    | none => simp [hpick] at h
    | some slot =>
      cases slot with
      | none =>
        simp only [hpick] at h
        exact Or.inl ⟨h,rfl⟩
      | some j =>
        obtain ⟨h32,hfree,h24⟩ := pickSlot_found (by omega) (by omega) hpick
        simp only [hpick] at h ⊢
        refine Or.inr ⟨j,h32,hfree,?_⟩
        split at h
        · rename_i hlast
          rw [if_pos hlast]
          exact Or.inl ⟨hlast,(Option.some.inj h).symm,rfl⟩
        · rename_i hmore
          have h8 : min (n-mapped) 8=8 := by omega
          have hsame : groupsPicked (setNframesUsed frames (min (n-mapped) 8) i j).1 n words
              (i+1) (mapped+min (n-mapped) 8)=
              groupsPicked frames n words (i+1) (mapped+min (n-mapped) 8) := by
            apply groupsPicked_congr
            intro w hw
            rw [h8,h24 h8]
            exact setNframesUsed_other (by omega)
          rw [if_neg hmore,hsame]
          exact Or.inr ⟨by omega,h,rfl⟩

/-- Taking a group sets the bits of its frames. -/
theorem bitAt_setNframesUsed_group (frames : FrameWords) {i j n : ℕ} (hj : j<32) (hn : n≤8)
    (k : ℕ) : bitAt (setNframesUsed frames n i j).1 k=true ↔
      bitAt frames k=true ∨ k∈Group.frameIds ⟨i,j,n⟩ := by
  rw [bitAt_setNframesUsed frames hj (by omega),Group.mem_frameIds]
  simp [Group.first]

/-- The search writes the entries of the picked groups in order and sets
exactly their bits, whatever it returns. -/
theorem findLoop_groups {n flags words i mapped : ℕ} {frames : FrameWords} {addrs : List ℕ}
    {r : FindResult} (hm : mapped<n)
    (h : findLoop n flags words i mapped frames addrs=some r) :
    r.addrs=addrs++(groupsPicked frames n words i mapped).flatMap
        (fun g => setNallocAddrs g.nframes g.frameMap g.frame flags) ∧
      ∀ k,bitAt r.frames k=true ↔ bitAt frames k=true ∨
        k∈(groupsPicked frames n words i mapped).flatMap Group.frameIds := by
  induction words generalizing i mapped frames addrs with
  | zero =>
    cases h
    simp [groupsPicked]
  | succ words ih =>
    rcases findLoop_cases hm h with ⟨hnext,hgroups⟩|⟨j,hj,_,⟨_,rfl,hgroups⟩|⟨hmore,hnext,hgroups⟩⟩
    · rw [hgroups]
      exact ih hm hnext
    · rw [hgroups]
      refine ⟨by simp,fun k => ?_⟩
      simpa using bitAt_setNframesUsed_group frames hj (Nat.min_le_right _ _) k
    · obtain ⟨ha,hb⟩ := ih hmore hnext
      rw [hgroups]
      refine ⟨by rw [ha,List.flatMap_cons,List.append_assoc],fun k => ?_⟩
      rw [hb k,bitAt_setNframesUsed_group frames hj (Nat.min_le_right _ _),List.flatMap_cons,
        List.mem_append,or_assoc]

/-- The address of a frame: the word count keeps even the frames of the next
word below 2^32. -/
theorem frameMapToAddr_eq {i j : ℕ} (hi : i+1<2^15) (hj : j<64) :
    frameMapToAddr i j=PAGE_SIZE*(32*i+j) := by
  simp only [frameMapToAddr,PAGE_SIZE]
  rw [wmul_eq (by omega : i*4096<2^32),wmul_eq (by omega : i*4096*32<2^32),
    wmul_eq (by omega : j*4096<2^32),wadd_eq (by omega)]
  ring

/-- An entry of a found group names its frame: the flags stay below one page. -/
theorem setNallocAddrs_frames {n i j flags : ℕ} (hi : i+1<2^15) (hj : j<32) (hn : n≤8)
    (hf : flags<PAGE_SIZE) :
    (setNallocAddrs n i j flags).map (·/PAGE_SIZE)=Group.frameIds ⟨i,j,n⟩ := by
  rw [setNallocAddrs,List.map_map,Group.frameIds]
  apply List.map_congr_left
  intro t ht
  have htn : t<n := List.mem_range.mp ht
  rw [Function.comp_apply,frameMapToAddr_eq hi (by omega),page_or_flags_div hf,Group.first,
    Nat.add_assoc]

/-- Frames named by the entries of a call. -/
def framesNamed (addrs : List ℕ) : List ℕ := addrs.map (·/PAGE_SIZE)

/-- A call names exactly the frames of the picked groups, and afterwards the
used bits are the old ones and those. -/
theorem findAllocNframes_frames {s : FrameAllocator} {n p flags : ℕ} {r : FindResult} (hn : 0<n)
    (hp : p≠0) (hf : flags<PAGE_SIZE) (h : findAllocNframes s n p flags=some r) :
    framesNamed r.addrs=(groupsPicked s.frames n s.framesNum 0 0).flatMap Group.frameIds ∧
      ∀ k,bitAt r.frames k=true ↔ bitAt s.frames k=true ∨ k∈framesNamed r.addrs := by
  rw [findAllocNframes,if_neg hp] at h
  obtain ⟨ha,hb⟩ := findLoop_groups hn h
  have hnames : framesNamed r.addrs=
      (groupsPicked s.frames n s.framesNum 0 0).flatMap Group.frameIds := by
    rw [framesNamed,ha,List.nil_append,List.map_flatMap]
    apply List.flatMap_congr
    intro g hg
    obtain ⟨_,hlt,hj,_,h8,_⟩ := groupsPicked_mem hn hg
    have hw := s.framesNum_lt
    exact setNallocAddrs_frames (by omega) hj h8 hf
  exact ⟨hnames,fun k => by rw [hb k,hnames]⟩

/-- No call names a frame twice. -/
theorem framesNamed_nodup {s : FrameAllocator} {n p flags : ℕ} {r : FindResult} (hn : 0<n)
    (hp : p≠0) (hf : flags<PAGE_SIZE) (h : findAllocNframes s n p flags=some r) :
    (framesNamed r.addrs).Nodup := by
  rw [(findAllocNframes_frames hn hp hf h).1]
  exact (groupsPicked_increasing hn).1.imp fun hlt => hlt.ne

/-- A search succeeds exactly when the picked groups reach the request. -/
theorem findLoop_ret {flags words i mapped : ℕ} {frames : FrameWords} {addrs : List ℕ}
    {r : FindResult} (hm : mapped<n)
    (h : findLoop n flags words i mapped frames addrs=some r) :
    (r.ret=0 ∧ mapped+((groupsPicked frames n words i mapped).flatMap Group.frameIds).length=n) ∨
    (r.ret=ENOMEM ∧
      mapped+((groupsPicked frames n words i mapped).flatMap Group.frameIds).length<n) := by
  induction words generalizing i mapped frames addrs with
  | zero =>
    cases h
    exact Or.inr ⟨rfl,hm⟩
  | succ words ih =>
    have hlen : ∀ j,(Group.frameIds ⟨i,j,min (n-mapped) 8⟩).length=min (n-mapped) 8 := by
      intro j
      rw [Group.frameIds,List.length_map,List.length_range]
    rcases findLoop_cases hm h with
      ⟨hnext,hgroups⟩|⟨j,_,_,⟨hlast,rfl,hgroups⟩|⟨hmore,hnext,hgroups⟩⟩
    · rw [hgroups]
      exact ih hm hnext
    · rw [hgroups,List.flatMap_cons,List.length_append,hlen]
      exact Or.inl ⟨rfl,by simp only [List.flatMap_nil,List.length_nil]; omega⟩
    · have hrest := ih hmore hnext
      rw [hgroups,List.flatMap_cons,List.length_append,hlen]
      omega

/-! ## The picked groups, read off the bitmap -/

/-- Frames of the groups that the words offer, in order. -/
def framesPicked (s : FrameAllocator) (n : ℕ) : List ℕ :=
  (groupsPicked s.frames n s.framesNum 0 0).flatMap Group.frameIds

/-- Number of frames found when the search comes to a word. -/
def mappedBefore (frames : FrameWords) (n frameMap : ℕ) : ℕ :=
  8*min (fullBefore frames frameMap) (fullGroups n)

/-- A group of eight is picked in a word of a range. -/
def FullFrom (frames : FrameWords) (n i words w : ℕ) : Prop :=
  i≤w ∧ w < i+words ∧ fullBefore frames w<fullGroups n ∧ bitAt frames (32*w+24)=false

/-- The last group is picked in a word of a range, and in no earlier one. -/
def LastFrom (frames : FrameWords) (n i words w j : ℕ) : Prop :=
  i≤w ∧ w < i+words ∧ fullGroups n≤fullBefore frames w ∧ StartsAt frames w (lastSize n) j ∧
    ∀ v,i≤v → v<w → fullGroups n≤fullBefore frames v → NoStart frames v (lastSize n)

/-- A word counts as full group for the words behind it where its frame 24 is free. -/
theorem fullBefore_succ (frames : FrameWords) (i : ℕ) : fullBefore frames (i+1)=
    fullBefore frames i+if bitAt frames (32*i+24)=false then 1 else 0 := by
  rw [fullBefore,List.range_succ,List.countP_append,fullBefore,List.countP_singleton]
  cases bitAt frames (32*i+24) <;> rfl

/-- Later words have more full groups before them. -/
theorem fullBefore_mono {i j : ℕ} (hij : i≤j) : fullBefore frames i≤fullBefore frames j :=
  (List.range_sublist.mpr hij).countP_le

/-- The search starts with no frame. -/
theorem mappedBefore_zero (frames : FrameWords) (n : ℕ) : mappedBefore frames n 0=0 := by
  simp only [mappedBefore,fullBefore,List.range_zero,List.countP_nil,Nat.zero_min]

/-- A word whose frame 24 is in use adds no frames. -/
theorem mappedBefore_set {i : ℕ} (hset : bitAt frames (32*i+24)=true) :
    mappedBefore frames n (i+1)=mappedBefore frames n i := by
  rw [mappedBefore,fullBefore_succ,hset]
  rfl

/-- A word whose frame 24 is free adds a full group while there are any. -/
theorem mappedBefore_clear {i : ℕ} (hlt : fullBefore frames i<fullGroups n)
    (hclear : bitAt frames (32*i+24)=false) :
    mappedBefore frames n (i+1)=mappedBefore frames n i+8 := by
  rw [mappedBefore,fullBefore_succ,hclear,mappedBefore]
  simp only [if_true]
  omega

/-- Behind the full groups no word adds another. -/
theorem mappedBefore_behind {i : ℕ} (hge : fullGroups n≤fullBefore frames i) :
    mappedBefore frames n (i+1)=mappedBefore frames n i := by
  have hmono := @fullBefore_mono frames i (i+1) (Nat.le_succ i)
  rw [mappedBefore,mappedBefore,min_eq_right hge,min_eq_right (hge.trans hmono)]

/-- What the search does with one word. -/
theorem groupsPicked_cases (hn : 0<n) (words i : ℕ) :
    (fullBefore frames i<fullGroups n ∧ bitAt frames (32*i+24)=true ∧
      groupsPicked frames n (words+1) i (mappedBefore frames n i)=
        groupsPicked frames n words (i+1) (mappedBefore frames n (i+1))) ∨
    (fullBefore frames i<fullGroups n ∧ bitAt frames (32*i+24)=false ∧
      groupsPicked frames n (words+1) i (mappedBefore frames n i)=
        ⟨i,24,8⟩::groupsPicked frames n words (i+1) (mappedBefore frames n (i+1))) ∨
    (fullGroups n≤fullBefore frames i ∧ NoStart frames i (lastSize n) ∧
      groupsPicked frames n (words+1) i (mappedBefore frames n i)=
        groupsPicked frames n words (i+1) (mappedBefore frames n (i+1))) ∨
    (fullGroups n≤fullBefore frames i ∧ ∃ j,StartsAt frames i (lastSize n) j ∧
      groupsPicked frames n (words+1) i (mappedBefore frames n i)=[⟨i,j,lastSize n⟩]) := by
  have hmapped : mappedBefore frames n i<n := by
    simp only [mappedBefore,fullGroups]
    omega
  have hstep := @groupsPicked_step frames n words i (mappedBefore frames n i) hmapped
  rcases Nat.lt_or_ge (fullBefore frames i) (fullGroups n) with hlt|hge
  · -- More than eight frames are left.
    have h8 : min (n-mappedBefore frames n i) 8=8 := by
      simp only [mappedBefore,fullGroups] at hlt ⊢
      omega
    have hmore : ¬n ≤ mappedBefore frames n i+8 := by
      simp only [mappedBefore,fullGroups] at hlt ⊢
      omega
    have hstart : groupStarts 8=[24] := by decide
    rw [h8] at hstep
    rcases hstep with ⟨hnone,heq⟩|⟨j,hj,heq⟩
    · have hset := hnone 24 (by rw [hstart]; exact List.mem_singleton_self 24)
      exact Or.inl ⟨hlt,hset,heq.trans (by rw [mappedBefore_set hset])⟩
    · have hone : j=24 := List.mem_singleton.mp (hstart▸hj.1)
      subst hone
      have hclear := hj.2.1
      rw [if_neg hmore,←mappedBefore_clear hlt hclear] at heq
      exact Or.inr (Or.inl ⟨hlt,hclear,heq⟩)
  · -- The last group is left.
    have hsize : min (n-mappedBefore frames n i) 8=lastSize n := by
      simp only [mappedBefore,lastSize,fullGroups] at hge ⊢
      omega
    have hlast : n ≤ mappedBefore frames n i+lastSize n := by
      simp only [mappedBefore,lastSize,fullGroups] at hge ⊢
      omega
    rw [hsize] at hstep
    rw [mappedBefore_behind hge]
    rcases hstep with ⟨hnone,heq⟩|⟨j,hj,heq⟩
    · exact Or.inr (Or.inr (Or.inl ⟨hge,hnone,heq⟩))
    · rw [if_pos hlast] at heq
      exact Or.inr (Or.inr (Or.inr ⟨hge,j,hj,heq⟩))

/-- A word without a full group is passed over. -/
theorem fullFrom_skip {i words w : ℕ}
    (h : fullGroups n≤fullBefore frames i ∨ bitAt frames (32*i+24)=true) :
    FullFrom frames n i (words+1) w ↔ FullFrom frames n (i+1) words w := by
  constructor
  · rintro ⟨hi,hlt,hbefore,hclear⟩
    refine ⟨Nat.lt_of_le_of_ne hi ?_,by omega,hbefore,hclear⟩
    rintro rfl
    rcases h with hge|hset
    · omega
    · rw [hset] at hclear
      cases hclear
  · rintro ⟨hi,hlt,hrest⟩
    exact ⟨by omega,by omega,hrest⟩

/-- So is a word that does not offer the last group. -/
theorem lastFrom_skip {i words w j : ℕ}
    (h : fullBefore frames i<fullGroups n ∨ NoStart frames i (lastSize n)) :
    LastFrom frames n i (words+1) w j ↔ LastFrom frames n (i+1) words w j := by
  constructor
  · rintro ⟨hi,hlt,hbefore,hstart,hfirst⟩
    refine ⟨Nat.lt_of_le_of_ne hi ?_,by omega,hbefore,hstart,fun v hv => hfirst v (by omega)⟩
    rintro rfl
    rcases h with hless|hnone
    · omega
    · exact hstart.not_noStart hnone
  · rintro ⟨hi,hlt,hbefore,hstart,hfirst⟩
    refine ⟨by omega,by omega,hbefore,hstart,fun v hv hvw hge => ?_⟩
    rcases Nat.eq_or_lt_of_le hv with rfl|hlater
    · exact h.resolve_left (by omega)
    · exact hfirst v hlater hvw hge

/-- A word that offers the last group ends the search. -/
theorem lastFrom_here {i words w j k : ℕ} (hge : fullGroups n≤fullBefore frames i)
    (hk : StartsAt frames i (lastSize n) k) :
    LastFrom frames n i (words+1) w j ↔ w=i ∧ j=k := by
  constructor
  · rintro ⟨hi,-,-,hstart,hfirst⟩
    rcases Nat.eq_or_lt_of_le hi with rfl|hlater
    · exact ⟨rfl,hstart.unique hk⟩
    · exact absurd (hfirst i le_rfl hlater hge) hk.not_noStart
  · rintro ⟨rfl,rfl⟩
    exact ⟨le_rfl,by omega,hge,hk,fun v hv hvw => absurd hvw (by omega)⟩

/-- Behind the full groups there is none any more. -/
theorem not_fullFrom {i words w : ℕ} (hge : fullGroups n≤fullBefore frames i) :
    ¬FullFrom frames n i words w := fun hfull =>
  absurd (hge.trans (fullBefore_mono hfull.1)) (Nat.not_le_of_lt hfull.2.2.1)

/-- The groups picked from a word on are the full groups and the last group. -/
theorem mem_groupsPicked_iff (hn : 0<n) (words i : ℕ) {g : Group} :
    g∈groupsPicked frames n words i (mappedBefore frames n i) ↔
      (∃ w,FullFrom frames n i words w ∧ g=⟨w,24,8⟩) ∨
      ∃ w j,LastFrom frames n i words w j ∧ g=⟨w,j,lastSize n⟩ := by
  induction words generalizing i with
  | zero =>
    refine iff_of_false (fun hg => by cases hg) ?_
    rintro (⟨w,⟨hi,hlt,-⟩,-⟩|⟨w,j,⟨hi,hlt,-⟩,-⟩)
    · omega
    · omega
  | succ words ih =>
    rcases @groupsPicked_cases frames n hn words i with
      ⟨hlt,hset,heq⟩|⟨hlt,hclear,heq⟩|⟨hge,hnone,heq⟩|⟨hge,k,hk,heq⟩
    · rw [heq,ih (i+1)]
      simp only [fullFrom_skip (Or.inr hset),lastFrom_skip (Or.inl hlt)]
    · rw [heq,List.mem_cons,ih (i+1),←or_assoc]
      simp only [lastFrom_skip (Or.inl hlt)]
      refine or_congr_left ⟨?_,?_⟩
      · rintro (rfl|⟨w,⟨hi,hw,hrest⟩,hg⟩)
        · exact ⟨i,⟨le_rfl,by omega,hlt,hclear⟩,rfl⟩
        · exact ⟨w,⟨by omega,by omega,hrest⟩,hg⟩
      · rintro ⟨w,⟨hi,hw,hrest⟩,hg⟩
        rcases Nat.eq_or_lt_of_le hi with rfl|hlater
        · exact Or.inl hg
        · exact Or.inr ⟨w,⟨hlater,by omega,hrest⟩,hg⟩
    · rw [heq,ih (i+1)]
      simp only [fullFrom_skip (Or.inl hge),lastFrom_skip (Or.inr hnone)]
    · rw [heq,List.mem_singleton]
      simp only [lastFrom_here hge hk,not_fullFrom hge,false_and,exists_false,false_or]
      constructor
      · rintro rfl
        exact ⟨i,k,⟨rfl,rfl⟩,rfl⟩
      · rintro ⟨w,j,⟨rfl,rfl⟩,hg⟩
        exact hg

/-- The groups reach the request exactly when there is a last one. -/
theorem groupsPicked_length (hn : 0<n) (words i : ℕ) :
    mappedBefore frames n i+((groupsPicked frames n words i (mappedBefore frames n i)).flatMap
      Group.frameIds).length=n ↔ ∃ w j,LastFrom frames n i words w j := by
  induction words generalizing i with
  | zero =>
    refine iff_of_false ?_ ?_
    · simp only [groupsPicked,List.flatMap_nil,List.length_nil,mappedBefore,fullGroups]
      omega
    · rintro ⟨w,j,hi,hlt,-⟩
      omega
  | succ words ih =>
    have hlen : ∀ g : Group,g.frameIds.length=g.nframes := fun g => by
      rw [Group.frameIds,List.length_map,List.length_range]
    rcases @groupsPicked_cases frames n hn words i with
      ⟨hlt,hset,heq⟩|⟨hlt,hclear,heq⟩|⟨hge,hnone,heq⟩|⟨hge,k,hk,heq⟩
    · rw [heq,←mappedBefore_set hset,ih (i+1)]
      simp only [lastFrom_skip (Or.inl hlt)]
    · rw [heq,List.flatMap_cons,List.length_append,hlen,←Nat.add_assoc,
        ←mappedBefore_clear hlt hclear,ih (i+1)]
      simp only [lastFrom_skip (Or.inl hlt)]
    · rw [heq,←mappedBefore_behind hge,ih (i+1)]
      simp only [lastFrom_skip (Or.inr hnone)]
    · rw [heq,List.flatMap_cons,List.flatMap_nil,List.append_nil,hlen,mappedBefore,
        min_eq_right hge]
      refine iff_of_true ?_ ⟨i,k,(lastFrom_here hge hk).mpr ⟨rfl,rfl⟩⟩
      simp only [lastSize,fullGroups]
      omega

/-- No word offers the first group of a request exactly when no group is picked. -/
theorem groupsPicked_eq_nil_iff (hn : 0<n) (words i : ℕ) :
    groupsPicked frames n words i 0=[] ↔ ∀ w,i≤w → w < i+words → NoStart frames w (min n 8) := by
  induction words generalizing i with
  | zero => exact iff_of_true rfl fun w hi hlt => absurd hlt (by omega)
  | succ words ih =>
    rcases @groupsPicked_step frames n words i 0 hn with ⟨hnone,heq⟩|⟨j,hj,heq⟩
    · rw [heq,ih (i+1)]
      refine ⟨fun hrest w hi hlt => ?_,fun hall w hi hlt => hall w (by omega) (by omega)⟩
      rcases Nat.eq_or_lt_of_le hi with rfl|hlater
      · exact hnone
      · exact hrest w hlater (by omega)
    · rw [heq]
      exact iff_of_false (List.cons_ne_nil _ _) fun hall =>
        hj.not_noStart (hall i le_rfl (by omega))

/-- A search for no frame picks none. -/
theorem groupsPicked_zero (frames : FrameWords) (words i : ℕ) :
    (groupsPicked frames 0 words i 0).flatMap Group.frameIds=[] := by
  induction words generalizing i with
  | zero => rfl
  | succ words ih =>
    simp only [groupsPicked,Nat.zero_sub,Nat.zero_min]
    split
    · exact ih (i+1)
    · split
      · rw [if_pos (Nat.zero_le _)]
        rfl
      · exact ih (i+1)

variable {s : FrameAllocator} {P : ℕ → Prop}

/-- From the first word on, the last group is the one of the bitmap. -/
theorem lastFrom_zero_iff {w j : ℕ} : LastFrom s.frames n 0 s.framesNum w j ↔
    w<s.framesNum ∧ LastGroup s n w j := by
  simp only [LastFrom,LastGroup,Nat.zero_le,true_and,Nat.zero_add,forall_true_left]

/-- The picked groups reach the request exactly when the bitmap has groups for it. -/
theorem framesPicked_length (hn : 0<n) :
    (framesPicked s n).length=n ↔ Offered s n := by
  have hlen := @groupsPicked_length s.frames n hn s.framesNum 0
  rw [mappedBefore_zero,Nat.zero_add] at hlen
  rw [framesPicked,hlen]
  simp only [lastFrom_zero_iff]
  constructor
  · rintro ⟨w,j,hw,hlast⟩
    exact ⟨w,hw,j,hlast.2.1.1,hlast⟩
  · rintro ⟨w,hw,j,-,hlast⟩
    exact ⟨w,j,hw,hlast⟩

/-- A search succeeds exactly when the bitmap has groups for the whole request. -/
theorem findAllocNframes_ret_iff {p flags : ℕ} {r : FindResult} (hn : 0<n) (hp : p≠0)
    (h : findAllocNframes s n p flags=some r) : r.ret=0 ↔ Offered s n := by
  rw [findAllocNframes,if_neg hp] at h
  rw [←framesPicked_length hn,framesPicked]
  rcases findLoop_ret hn h with ⟨hret,hlen⟩|⟨hret,hlen⟩
  · rw [Nat.zero_add] at hlen
    exact iff_of_true hret hlen
  · rw [Nat.zero_add] at hlen
    exact iff_of_false (by rw [hret]; decide) (Nat.ne_of_lt hlen)

/-- A property of all frames that a search picks is a property of the frames
that the request is for, as the bitmap has them. -/
theorem framesPicked_forall : (∀ k∈framesPicked s n,P k) ↔ GroupsHave s n P := by
  rcases Nat.eq_zero_or_pos n with rfl|hn
  · rw [framesPicked,groupsPicked_zero]
    refine iff_of_true (fun k hk => by cases hk) ⟨fun w _ hlt => absurd hlt (Nat.not_lt_zero _),
      fun w _ j _ _ t ht => absurd ht (Nat.not_lt_zero _)⟩
  have hmem : ∀ g,g∈groupsPicked s.frames n s.framesNum 0 0 ↔
      (∃ w,FullFrom s.frames n 0 s.framesNum w ∧ g=⟨w,24,8⟩) ∨
      ∃ w j,LastFrom s.frames n 0 s.framesNum w j ∧ g=⟨w,j,lastSize n⟩ := fun g =>
    mappedBefore_zero s.frames n▸@mem_groupsPicked_iff s.frames n hn s.framesNum 0 g
  have hids : ∀ g : Group,(∀ k∈g.frameIds,P k) ↔ ∀ t<g.nframes,P (32*g.frameMap+g.frame+t) := by
    intro g
    simp only [Group.frameIds,Group.first,List.forall_mem_map,List.mem_range]
  have hgroups : (∀ k∈framesPicked s n,P k) ↔
      ∀ g∈groupsPicked s.frames n s.framesNum 0 0,∀ k∈g.frameIds,P k := by
    simp only [framesPicked,List.mem_flatMap]
    exact ⟨fun h g hg k hk => h k ⟨g,hg,hk⟩,fun h k ⟨g,hg,hk⟩ => h g hg k hk⟩
  rw [hgroups]
  simp only [hmem,hids]
  constructor
  · intro h
    refine ⟨fun w hw hbefore hclear => ?_,fun w hw j _ hlast => ?_⟩
    · exact h ⟨w,24,8⟩ (Or.inl ⟨w,⟨Nat.zero_le w,by rwa [Nat.zero_add],hbefore,hclear⟩,rfl⟩)
    · exact h ⟨w,j,lastSize n⟩ (Or.inr ⟨w,j,lastFrom_zero_iff.mpr ⟨hw,hlast⟩,rfl⟩)
  · rintro ⟨hfull,hlast⟩ g (⟨w,⟨-,hw,hbefore,hclear⟩,rfl⟩|⟨w,j,hfrom,rfl⟩)
    · rw [Nat.zero_add] at hw
      exact hfull w hw hbefore hclear
    · obtain ⟨hw,hgroup⟩ := lastFrom_zero_iff.mp hfrom
      exact hlast w hw j hgroup.2.1.1 hgroup

/-- The frames that a call names were all free before exactly when the frames of
the request were. -/
theorem framesNamed_clear_iff {p flags : ℕ} {r : FindResult} (hn : 0<n) (hp : p≠0)
    (hf : flags<PAGE_SIZE) (h : findAllocNframes s n p flags=some r) :
    (∀ k∈framesNamed r.addrs,bitAt s.frames k=false) ↔ GroupsFree s n := by
  rw [(findAllocNframes_frames hn hp hf h).1]
  exact framesPicked_forall

end XanaduOS.FrameGroups
