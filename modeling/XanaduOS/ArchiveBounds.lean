import XanaduOS.InitrdLoading

/-!
# The parser on images of any bytes

The parser knows neither the length of an image nor a bound on the sizes it
finds. It goes from a record to the one behind it until a record has no name,
and levels of the recursion come and go without moving. So it stays inside the
image exactly where the records lead forward through it to a record without a
name.
-/

namespace XanaduOS.ArchiveBounds

open Word32 Slibc InitialRamdisk InitrdListing InitrdLoading

variable (mem : ℕ → Char) (stale : ℕ → InitrdNode)

/-- Records that the parser looks at, in order. -/
def headersRead : ℕ → ℕ → ℕ → ℕ → ℕ → ParseState → List ℕ
  | 0,_,_,_,_,_ => []
  | fuel+1,parentEnt,header,depth,subEntNum,st =>
    header::
      if charAt (nameField mem header) 0=NUL then []
      else
        let nextAddr := nextHeader mem header st.nextAddr
        if st.i%2=1 then
          let fnameLen := strnlen (nameField mem header) 100
          let fileDepth := getFileDepth (nameField mem header) fnameLen
          if depth<fileDepth then
            headersRead fuel (st.entries.length-1) header fileDepth 0 st++
              match tarParseRec mem stale fuel (st.entries.length-1) header fileDepth 0 st with
              | none => []
              | some st => headersRead fuel parentEnt st.nextAddr depth subEntNum st
          else if fileDepth<depth then []
          else
            let entry := newEntry mem (stale st.entries.length) header fnameLen
            headersRead fuel parentEnt nextAddr depth (subEntNum+1)
              ⟨st.entries++[entry],nextAddr,st.i+1⟩
        else
          headersRead fuel parentEnt nextAddr depth subEntNum
            {st with nextAddr := nextAddr,i := st.i+1}

/-- Records looked at when an archive is parsed. -/
def archiveHeaders (rootHeader initrdAddr fuel : ℕ) : List ℕ :=
  let root := {stale 0 with type := .dir,header := rootHeader}
  headersRead mem stale fuel 0 initrdAddr 1 0 ⟨[root],initrdAddr,2⟩

/-- What parsing an image should be like, whatever its bytes. -/
structure Bounded (rootHeader initrdAddr len : ℕ) : Prop where
  /-- The parser ends. -/
  ends : ∃ fuel r,tarParse mem stale rootHeader initrdAddr fuel=some r
  /-- Records looked at are wholly inside the image. -/
  inside : ∀ fuel,∀ h∈archiveHeaders mem stale rootHeader initrdAddr fuel,
    initrdAddr≤h ∧ h+HEADER_SIZE ≤ initrdAddr+len
  /-- From each of them but the last the parser advances by a record at least. -/
  advances : ∀ fuel,∀ h∈archiveHeaders mem stale rootHeader initrdAddr fuel,¬Ended mem h →
    h+HEADER_SIZE ≤ recordBehind mem h

/-- Records below a limit that lead forward to one without a name. -/
inductive Terminated (limit : ℕ) : ℕ → Prop
  /-- A record without a name. -/
  | ended {h : ℕ} (hin : h+HEADER_SIZE≤limit) (hend : Ended mem h) : Terminated limit h
  /-- A record with one behind it. -/
  | behind {h : ℕ} (hin : h+HEADER_SIZE≤limit) (hnot : ¬Ended mem h)
      (hadvance : h+HEADER_SIZE ≤ recordBehind mem h)
      (hrest : Terminated limit (recordBehind mem h)) : Terminated limit h

/-- Records passed on the way from one to another. -/
inductive Passes (P : ℕ → Prop) : ℕ → ℕ → Prop
  /-- No record. -/
  | refl (h : ℕ) : Passes P h h
  /-- One more. -/
  | step {h e : ℕ} (hnot : ¬Ended mem h) (hp : P h) (hrest : Passes P (recordBehind mem h) e) :
      Passes P h e

variable {mem stale} {limit : ℕ}

/-- Records passed with a property have every weaker one. -/
theorem Passes.mono {P Q : ℕ → Prop} (hPQ : ∀ h,P h → Q h) {h e : ℕ} (hp : Passes mem P h e) :
    Passes mem Q h e := by
  induction hp with
  | refl h => exact Passes.refl h
  | step hnot hp _ ih => exact Passes.step hnot (hPQ _ hp) ih

/-- One way after another. -/
theorem Passes.trans {P : ℕ → Prop} {h e e' : ℕ} (hp : Passes mem P h e)
    (hp' : Passes mem P e e') : Passes mem P h e' := by
  induction hp with
  | refl h => exact hp'
  | step hnot hp _ ih => exact Passes.step hnot hp (ih hp')

/-! ## What the parser looks at -/

/-- A property that goes over to the record behind holds of all records looked
at and of the one a level stops at. -/
theorem headersRead_invariant {P : ℕ → Prop}
    (hP : ∀ h,P h → ¬Ended mem h → P (recordBehind mem h)) {fuel parentEnt depth sub : ℕ}
    {s : ParseState} (h : P s.nextAddr) :
    (∀ a∈headersRead mem stale fuel parentEnt s.nextAddr depth sub s,P a) ∧
      ∀ res,tarParseRec mem stale fuel parentEnt s.nextAddr depth sub s=some res →
        P res.nextAddr := by
  induction fuel generalizing parentEnt depth sub s with
  | zero => simp [headersRead,tarParseRec]
  | succ fuel ih =>
    simp only [headersRead,tarParseRec,List.forall_mem_cons]
    split
    case isTrue hend => simp [finishParent,h]
    case isFalse hend =>
      have hnext : P (recordBehind mem s.nextAddr) := hP _ h hend
      split
      case isTrue hodd =>
        split
        case isTrue hdeep =>
          obtain ⟨hread,hres⟩ := @ih (s.entries.length-1)
            (getFileDepth (nameField mem s.nextAddr) (strnlen (nameField mem s.nextAddr) 100))
            0 s h
          refine ⟨⟨h,fun a ha => ?_⟩,fun res hrun => ?_⟩
          · rcases List.mem_append.mp ha with ha|ha
            · exact hread a ha
            · split at ha
              · cases ha
              · rename_i s' hs'
                exact (ih (hres s' hs')).1 a ha
          · obtain ⟨s',hs',hrun⟩ := Option.bind_eq_some_iff.mp hrun
            exact (ih (hres s' hs')).2 res hrun
        case isFalse hdeep =>
          split
          case isTrue hshallow => simp [finishParent,h]
          case isFalse hshallow =>
            obtain ⟨hread,hres⟩ := @ih parentEnt depth (sub+1) ⟨s.entries++
              [newEntry mem (stale s.entries.length) s.nextAddr
                (strnlen (nameField mem s.nextAddr) 100)],recordBehind mem s.nextAddr,s.i+1⟩
              hnext
            exact ⟨⟨h,hread⟩,hres⟩
      case isFalse hodd =>
        obtain ⟨hread,hres⟩ := @ih parentEnt depth sub
          {s with nextAddr := recordBehind mem s.nextAddr,i := s.i+1} hnext
        exact ⟨⟨h,hread⟩,hres⟩

/-- A level that ends has looked at every record on the way to the one it stops
at, which has no name or lies less deep. -/
theorem headersRead_passes {fuel parentEnt depth sub : ℕ} {s res : ParseState}
    (h : tarParseRec mem stale fuel parentEnt s.nextAddr depth sub s=some res) :
    Passes mem (· ∈ headersRead mem stale fuel parentEnt s.nextAddr depth sub s)
        s.nextAddr res.nextAddr ∧
      res.nextAddr∈headersRead mem stale fuel parentEnt s.nextAddr depth sub s ∧
      (Ended mem res.nextAddr ∨ depthAt mem res.nextAddr<depth) := by
  induction fuel generalizing parentEnt depth sub s res with
  | zero => cases h
  | succ fuel ih =>
    simp only [headersRead,tarParseRec] at h ⊢
    split at h
    case isTrue hend =>
      cases h
      exact ⟨Passes.refl _,List.mem_cons_self,Or.inl hend⟩
    case isFalse hend =>
      rw [if_neg hend]
      -- the level goes on behind this record
      have hgo : ∀ {sub : ℕ} {u : ParseState},u.nextAddr=recordBehind mem s.nextAddr →
          tarParseRec mem stale fuel parentEnt u.nextAddr depth sub u=some res →
          Passes mem (· ∈ s.nextAddr::headersRead mem stale fuel parentEnt u.nextAddr depth sub u)
              s.nextAddr res.nextAddr ∧
            res.nextAddr∈s.nextAddr::headersRead mem stale fuel parentEnt u.nextAddr depth sub u ∧
            (Ended mem res.nextAddr ∨ depthAt mem res.nextAddr<depth) := by
        intro sub u hu hrun
        obtain ⟨hpass,hmem,hstop⟩ := ih hrun
        rw [hu] at hpass
        exact ⟨Passes.step hend List.mem_cons_self
          (hpass.mono fun a ha => List.mem_cons_of_mem _ (hu▸ha)),
          List.mem_cons_of_mem _ hmem,hstop⟩
      split at h
      case isTrue hodd =>
        rw [if_pos hodd]
        split at h
        case isTrue hdeep =>
          rw [if_pos hdeep]
          obtain ⟨s',hs',hrun⟩ := Option.bind_eq_some_iff.mp h
          obtain ⟨hpass,-,-⟩ := ih hs'
          obtain ⟨hpass',hmem,hstop⟩ := ih hrun
          simp only [hs']
          refine ⟨(hpass.mono fun a ha => ?_).trans (hpass'.mono fun a ha => ?_),?_,hstop⟩
          · exact List.mem_cons_of_mem _ (List.mem_append_left _ ha)
          · exact List.mem_cons_of_mem _ (List.mem_append_right _ ha)
          · exact List.mem_cons_of_mem _ (List.mem_append_right _ hmem)
        case isFalse hdeep =>
          rw [if_neg hdeep]
          split at h
          case isTrue hshallow =>
            cases h
            exact ⟨Passes.refl _,List.mem_cons_self,Or.inr hshallow⟩
          case isFalse hshallow =>
            rw [if_neg hshallow]
            exact @hgo (sub+1) ⟨_,recordBehind mem s.nextAddr,_⟩ rfl h
      case isFalse hodd =>
        rw [if_neg hodd]
        exact @hgo sub ⟨_,recordBehind mem s.nextAddr,_⟩ rfl h

/-! ## Records that lead to an end -/

/-- Records that lead to an end stay inside, and the next one does too. -/
theorem Terminated.spec {h : ℕ} (ht : Terminated mem limit h) : h+HEADER_SIZE≤limit ∧
    (¬Ended mem h →
      h+HEADER_SIZE ≤ recordBehind mem h ∧ Terminated mem limit (recordBehind mem h)) := by
  cases ht with
  | ended hin hend => exact ⟨hin,fun hnot => absurd hend hnot⟩
  | behind hin _ hadvance hrest => exact ⟨hin,fun _ => ⟨hadvance,hrest⟩⟩

/-- All records that a level looks at lead to an end, and none lies in front of
where it began. -/
theorem Terminated.read {first : ℕ} {s : ParseState} (ht : Terminated mem limit s.nextAddr)
    (hfirst : first ≤ s.nextAddr) (fuel parentEnt depth sub : ℕ) :
    (∀ a∈headersRead mem stale fuel parentEnt s.nextAddr depth sub s,
      Terminated mem limit a ∧ first≤a) ∧
    ∀ res,tarParseRec mem stale fuel parentEnt s.nextAddr depth sub s=some res →
      Terminated mem limit res.nextAddr ∧ first ≤ res.nextAddr := by
  refine headersRead_invariant (P:=fun a => Terminated mem limit a ∧ first≤a)
    (fun a ha hnot => ?_) ⟨ht,hfirst⟩
  obtain ⟨hadvance,hnext⟩ := ha.1.spec.2 hnot
  exact ⟨hnext,ha.2.trans ((Nat.le_add_right _ _).trans hadvance)⟩

/-- The way to a record without a name, inside and forward, leads to an end. -/
theorem Passes.terminated {P : ℕ → Prop} {h e : ℕ} (hp : Passes mem P h e)
    (hin : ∀ h,P h → h+HEADER_SIZE≤limit)
    (hadvance : ∀ h,P h → ¬Ended mem h → h+HEADER_SIZE ≤ recordBehind mem h)
    (he : P e) (hend : Ended mem e) : Terminated mem limit h := by
  induction hp with
  | refl h => exact .ended (hin h he) hend
  | step hnot hp _ ih => exact .behind (hin _ hp) hnot (hadvance _ hp hnot) (ih he hend)

/-- The parser ends where the records lead to an end. The induction is on the
bytes left: a level below takes the record it was entered for at least. -/
theorem Terminated.parses (n : ℕ) : ∀ (parentEnt depth sub : ℕ) (st : ParseState),
    limit-st.nextAddr≤n → Terminated mem limit st.nextAddr →
      ∃ res,Parses mem stale parentEnt depth sub st res := by
  induction n with
  | zero =>
    intro parentEnt depth sub st hn ht
    have hin := ht.spec.1
    simp only [HEADER_SIZE] at hin
    omega
  | succ n ih =>
    intro parentEnt depth sub st hn ht
    obtain ⟨hin,hbehind⟩ := ht.spec
    by_cases hend : Ended mem st.nextAddr
    · exact ⟨_,Parses.ended hend⟩
    obtain ⟨hadvance,hrest⟩ := hbehind hend
    simp only [HEADER_SIZE] at hin hadvance
    have hless : limit-recordBehind mem st.nextAddr≤n := by omega
    rcases Nat.mod_two_eq_zero_or_one st.i with heven|hodd
    · obtain ⟨res,hp⟩ := ih parentEnt depth sub
        ⟨st.entries,recordBehind mem st.nextAddr,st.i+1⟩ hless hrest
      exact ⟨res,Parses.attributes hend heven hp⟩
    -- a level at the record's own depth takes it and goes on
    have htake : ∀ parentEnt sub,∃ res,
        Parses mem stale parentEnt (depthAt mem st.nextAddr) sub st res ∧
        Terminated mem limit res.nextAddr ∧ recordBehind mem st.nextAddr ≤ res.nextAddr := by
      intro parentEnt sub
      obtain ⟨res,fuel,hrun⟩ := ih parentEnt (depthAt mem st.nextAddr) (sub+1)
        ⟨st.entries++[entryAt mem (stale st.entries.length) st.nextAddr],
          recordBehind mem st.nextAddr,st.i+1⟩ hless hrest
      exact ⟨res,Parses.level hend hodd rfl ⟨fuel,hrun⟩,
        (hrest.read (Nat.le_refl _) fuel parentEnt _ _).2 res hrun⟩
    rcases Nat.lt_trichotomy (depthAt mem st.nextAddr) depth with hlt|heq|hgt
    · exact ⟨_,Parses.shallow hend hodd hlt⟩
    · obtain ⟨res,hp,-⟩ := htake parentEnt sub
      exact ⟨res,heq▸hp⟩
    · obtain ⟨st',hp,ht',hle⟩ := htake (st.entries.length-1) 0
      obtain ⟨res,hp'⟩ := ih parentEnt depth sub st' (by omega) ht'
      exact ⟨res,Parses.deeper hend hodd hgt hp hp'⟩

/-- Parsing an image ends, inside it and going forward, exactly when its records
lead forward through it to one without a name. -/
theorem bounded_iff (mem : ℕ → Char) (stale : ℕ → InitrdNode) (rootHeader initrdAddr len : ℕ) :
    Bounded mem stale rootHeader initrdAddr len ↔
      Terminated mem (initrdAddr+len) initrdAddr := by
  constructor
  · rintro ⟨⟨fuel,r,hparse⟩,hinside,hadvances⟩
    obtain ⟨res,hrun,-⟩ := Option.bind_eq_some_iff.mp hparse
    obtain ⟨hpass,hmem,hstop⟩ := headersRead_passes (s:=⟨_,initrdAddr,2⟩) hrun
    -- no record lies less deep than the root
    have hend : Ended mem res.nextAddr := by
      refine hstop.resolve_right fun hlt => ?_
      rw [depthAt,getFileDepth] at hlt
      omega
    exact hpass.terminated (fun h hh => (hinside fuel h hh).2) (fun h hh => hadvances fuel h hh)
      hmem hend
  · intro ht
    have hread : ∀ fuel,∀ h∈archiveHeaders mem stale rootHeader initrdAddr fuel,
        Terminated mem (initrdAddr+len) h ∧ initrdAddr≤h := fun fuel =>
      (Terminated.read (s:=⟨_,initrdAddr,2⟩) ht (Nat.le_refl _) fuel 0 1 0).1
    refine ⟨?_,fun fuel h hh => ⟨(hread fuel h hh).2,(hread fuel h hh).1.spec.1⟩,
      fun fuel h hh hnot => ((hread fuel h hh).1.spec.2 hnot).1⟩
    obtain ⟨res,fuel,hrun⟩ := Terminated.parses (initrdAddr+len-initrdAddr) 0 1 0
      ⟨[{stale 0 with type := .dir,header := rootHeader}],initrdAddr,2⟩ (Nat.le_refl _) ht
    exact ⟨fuel,_,Option.bind_eq_some_iff.mpr ⟨res,hrun,rfl⟩⟩

/-- The sample image without its closing record: the parser looks for a record
behind the last one. -/
theorem bounded_counterexample :
    ¬∀ (mem : ℕ → Char) (stale : ℕ → InitrdNode) (rootHeader initrdAddr len : ℕ),
      Bounded mem stale rootHeader initrdAddr len := by
  intro h
  have hinside := (h imageMem zeroNode 0x10000 0 3072).inside 8 3072
  exact absurd (hinside (by decide +kernel)).2 (by decide)

end XanaduOS.ArchiveBounds
