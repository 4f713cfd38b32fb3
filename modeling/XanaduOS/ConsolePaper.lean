import XanaduOS.TextConsole

/-!
# The console as a window on a sheet of paper

Without scrolling, printing would fill an endless sheet of lines of 80 cells. The
screen is a window of 25 lines on that sheet: as long as its calls stay inside the
arrays, the cells, the output buffer and the attributes are those of the window,
and nothing is written behind it.
-/

namespace XanaduOS.ConsolePaper

open Runs Word32 TextConsole
open Keyboard (KBD_DEL)

/-! ## The sheet -/

/-- A sheet of lines of 80 cells, without an end. -/
structure Paper where
  /-- Character codes, zero for an empty cell. -/
  symbol : ℕ → ℕ
  /-- Whether a cell is not deletable. -/
  kept : ℕ → Bool
  /-- The position. -/
  pos : ℕ

/-- Write a symbol. -/
def Paper.put (p : Paper) (c : ℕ) : Paper :=
  {p with symbol := Function.update p.symbol p.pos c,pos := p.pos+1}

/-- Go to the start of the next line. -/
def Paper.newline (p : Paper) : Paper := {p with pos := p.pos-p.pos%80+80}

/-- Take back the cell in front, unless it is not deletable. -/
def Paper.delete (p : Paper) : Paper :=
  if p.kept (p.pos-1)=true then p
  else {p with symbol := Function.update p.symbol (p.pos-1) 0,pos := p.pos-1}

/-- Set the attribute of the cell at the position. -/
def Paper.mark (p : Paper) (attr : Bool) : Paper :=
  {p with kept := Function.update p.kept p.pos attr}

/-- Write a character: null and return do nothing, a tab is four spaces. -/
def Paper.print (p : Paper) (symbol : ℕ) : Paper :=
  if symbol=0 then p
  else if symbol=13 then p
  else if symbol=10 then p.newline
  else if symbol=9 then (fun p => p.put 32)^[4] p
  else if symbol=KBD_DEL then p.delete
  else p.put symbol

/-- A call of the console on the sheet. -/
def Paper.apply (p : Paper) : Call → Paper
  | .printChar _ symbol _ _ => p.print symbol
  | .putc c => p.print c
  | .putcAttrs symbol attr => (p.mark attr).print symbol
  | .newline => p.newline
  | .deleteChar => p.delete
  | .lastWrittenBuf => p

/-- The empty sheet. -/
def emptyPaper : Paper := ⟨fun _ => 0,fun _ => false,0⟩

/-- The screen shows the lines of a sheet from a line on; the sheet is empty behind
them. -/
structure Shows (top : ℕ) (st : Console) (p : Paper) : Prop where
  /-- The positions agree. -/
  pos : 80*top+st.fbPos=p.pos
  /-- The position is on the screen. -/
  onScreen : st.fbPos<VGA_SIZE
  /-- Video memory. -/
  cells : ∀ i<VGA_SIZE,(st.frameBuf (i : ℕ)).symbol=p.symbol (80*top+i)
  /-- The output buffer. -/
  out : ∀ i<VGA_SIZE,st.fbOut (i : ℕ)=p.symbol (80*top+i)
  /-- Attributes. -/
  attrs : ∀ i<VGA_SIZE,st.frameBufAttrs (i : ℕ)=p.kept (80*top+i)
  /-- Nothing stands behind the screen. -/
  blank : ∀ i,80*top+VGA_SIZE ≤ i → p.symbol i=0 ∧ p.kept i=false

/-- Calls that stay inside the arrays. Characters are printed at the position. -/
def Proper (st : Console) (call : Call) : Prop :=
  Fits st call ∧ ∀ offset symbol fg bg,call=.printChar offset symbol fg bg → offset=0

/-! ## Scrolling -/

/-- Cells, output buffer and attributes after the first cells have moved up. -/
structure Moved (st : Console) (n : ℕ) (st' : Console) : Prop where
  /-- Video memory. -/
  cells : ∀ i : ℕ,st'.frameBuf i=if i<n then st.frameBuf (i+80 : ℕ) else st.frameBuf i
  /-- The output buffer. -/
  out : ∀ i : ℕ,st'.fbOut i=if i<n then (st.frameBuf (i+80 : ℕ)).symbol else st.fbOut i
  /-- Attributes. -/
  attrs : ∀ i : ℕ,st'.frameBufAttrs i=
    if i<n then st.frameBufAttrs (i+80 : ℕ) else st.frameBufAttrs i
  /-- The position. -/
  pos : st'.fbPos=st.fbPos

/-- A cell is written. -/
theorem update_natCast {α : Type*} (f : ℤ → α) (n i : ℕ) (x : α) :
    Function.update f (n : ℤ) x (i : ℤ)=if i=n then x else f i := by
  rw [Function.update_apply]
  simp only [Nat.cast_inj]

/-- Moving cells up one after the other. -/
theorem moved_cells (st : Console) (n : ℕ) :
    Moved st n ((List.range' 80 n).foldl scrollCell st) := by
  induction n with
  | zero => exact ⟨fun i => rfl,fun i => rfl,fun i => rfl,rfl⟩
  | succ n ih =>
    rw [List.range'_concat,List.foldl_concat]
    generalize (List.range' 80 n).foldl scrollCell st=st' at ih ⊢
    have hfrom : ((80+1*n : ℕ) : ℤ)=((n+80 : ℕ) : ℤ) := by push_cast; ring
    have hto : ((n+80 : ℕ) : ℤ)-80=(n : ℤ) := by push_cast; ring
    have hcell : st'.frameBuf (n+80 : ℕ)=st.frameBuf (n+80 : ℕ) := by
      rw [ih.cells,if_neg (by omega)]
    have hattr : st'.frameBufAttrs (n+80 : ℕ)=st.frameBufAttrs (n+80 : ℕ) := by
      rw [ih.attrs,if_neg (by omega)]
    have hstep : ∀ i,i<n+1 ↔ i=n ∨ i<n := fun i => by omega
    constructor
    · intro i
      simp only [scrollCell,writeAttr,writeFb,use,hfrom,hto,update_natCast,hcell,ih.cells i,hstep i]
      split <;> simp_all
    · intro i
      simp only [scrollCell,writeAttr,writeFb,use,hfrom,hto,update_natCast,hcell,ih.out i,hstep i]
      split <;> simp_all
    · intro i
      simp only [scrollCell,writeAttr,writeFb,use,hfrom,hto,update_natCast,hattr,ih.attrs i,hstep i]
      split <;> simp_all
    · exact ih.pos

/-- Cells, output buffer and attributes after cells from one on have been cleared. -/
structure Cleared (st : Console) (start n : ℕ) (st' : Console) : Prop where
  /-- Video memory. -/
  cells : ∀ i : ℕ,st'.frameBuf i=if start ≤ i ∧ i<start+n then ⟨0,0,0⟩ else st.frameBuf i
  /-- The output buffer. -/
  out : ∀ i : ℕ,st'.fbOut i=if start ≤ i ∧ i<start+n then 0 else st.fbOut i
  /-- Attributes. -/
  attrs : ∀ i : ℕ,st'.frameBufAttrs i=
    if start ≤ i ∧ i<start+n then false else st.frameBufAttrs i
  /-- The position. -/
  pos : st'.fbPos=st.fbPos

/-- Clearing cells one after the other. -/
theorem cleared_cells (st : Console) (start n : ℕ) :
    Cleared st start n ((List.range' start n).foldl clearCell st) := by
  induction n with
  | zero =>
    have hnone : ∀ i,¬(start ≤ i ∧ i<start+0) := fun i => by omega
    exact ⟨fun i => by rw [if_neg (hnone i)]; rfl,fun i => by rw [if_neg (hnone i)]; rfl,
      fun i => by rw [if_neg (hnone i)]; rfl,rfl⟩
  | succ n ih =>
    rw [List.range'_concat,List.foldl_concat,Nat.one_mul]
    generalize (List.range' start n).foldl clearCell st=st' at ih ⊢
    have hstep : ∀ i,(start ≤ i ∧ i<start+(n+1)) ↔ i=start+n ∨ (start ≤ i ∧ i<start+n) :=
      fun i => by omega
    constructor
    · intro i
      simp only [clearCell,writeAttr,writeFb,use,update_natCast,ih.cells i,hstep i]
      by_cases hi : i=start+n <;> simp [hi]
    · intro i
      simp only [clearCell,writeAttr,writeFb,use,update_natCast,ih.out i,hstep i]
      by_cases hi : i=start+n <;> simp [hi]
    · intro i
      simp only [clearCell,writeAttr,writeFb,use,update_natCast,ih.attrs i,hstep i]
      by_cases hi : i=start+n <;> simp [hi]
    · exact ih.pos

/-- Scrolling moves the screen up by a line and empties the last one. -/
theorem scroll_moved (st : Console) (i : ℕ) (hi : i<VGA_SIZE) :
    (scroll st).frameBuf i=
      (if i+80<VGA_SIZE then st.frameBuf (i+80 : ℕ) else ⟨0,0,0⟩) ∧
    (scroll st).fbOut i=
      (if i+80<VGA_SIZE then (st.frameBuf (i+80 : ℕ)).symbol else 0) ∧
    (scroll st).frameBufAttrs i=
      (if i+80<VGA_SIZE then st.frameBufAttrs (i+80 : ℕ) else false) := by
  have hmoved := moved_cells st (VGA_SIZE-80)
  have hcleared := cleared_cells ((List.range' 80 (VGA_SIZE-80)).foldl scrollCell st)
    (VGA_SIZE-80) 80
  have hlast : (VGA_SIZE-80 ≤ i ∧ i<VGA_SIZE-80+80) ↔ ¬i+80<VGA_SIZE := by
    simp only [VGA_SIZE] at hi ⊢
    omega
  have hfirst : i<VGA_SIZE-80 ↔ i+80<VGA_SIZE := by
    simp only [VGA_SIZE]
    omega
  refine ⟨?_,?_,?_⟩
  · refine (hcleared.cells i).trans ?_
    rw [hmoved.cells i]
    by_cases h : i+80<VGA_SIZE <;> simp only [hlast,hfirst,h] <;> rfl
  · refine (hcleared.out i).trans ?_
    rw [hmoved.out i]
    by_cases h : i+80<VGA_SIZE <;> simp only [hlast,hfirst,h] <;> rfl
  · refine (hcleared.attrs i).trans ?_
    rw [hmoved.attrs i]
    by_cases h : i+80<VGA_SIZE <;> simp only [hlast,hfirst,h] <;> rfl

/-! ## One call -/

/-- Writing a cell of a window and the cell of the sheet under it. -/
theorem update_agrees {α β : Type*} {v : α → β} {f : ℤ → α} {g : ℕ → β} {base n : ℕ}
    (h : ∀ i<n,v (f (i : ℕ))=g (base+i)) (k : ℕ) (x : α) {i : ℕ} (hi : i<n) :
    v (Function.update f (k : ℤ) x (i : ℕ))=Function.update g (base+k) (v x) (base+i) := by
  rw [update_natCast,Function.update_apply]
  by_cases hik : i=k
  · rw [if_pos hik,if_pos (by omega)]
  · rw [if_neg hik,if_neg (by omega)]
    exact h i hi

variable {top : ℕ} {st : Console} {p : Paper}

/-- Moving the position beyond the last line scrolls. -/
theorem Shows.newline (h : Shows top st p) : ∃ top',Shows top' (fbNewline st) p.newline := by
  have hpos := h.onScreen
  have hline : u16 (st.fbPos-st.fbPos%80+80)=st.fbPos-st.fbPos%80+80 := by
    simp only [u16,VGA_SIZE] at *
    omega
  have hpaper : p.newline.pos=80*top+(st.fbPos-st.fbPos%80+80) := by
    simp only [Paper.newline,←h.pos]
    omega
  simp only [fbNewline,setFbPos_fbPos,hline]
  split
  · rename_i hend
    have hpos' : (scroll (setFbPos st (st.fbPos-st.fbPos%80+80))).fbPos=VGA_SIZE-80 := by
      rw [(scroll_spec _).2,setFbPos_fbPos,hline]
      simp only [u16,VGA_SIZE] at *
      omega
    have hat : ∀ i,80*(top+1)+i=80*top+(i+80) := fun i => by omega
    have hbehind : ∀ i,¬i+80<VGA_SIZE → p.symbol (80*top+(i+80))=0 ∧
        p.kept (80*top+(i+80))=false := fun i hi => h.blank _ (by omega)
    refine ⟨top+1,?_,?_,?_,?_,?_,fun i hi => h.blank i (by omega)⟩
    · rw [hpos',hpaper]
      simp only [VGA_SIZE] at *
      omega
    · rw [hpos']
      norm_num
    · intro i hi
      rw [(scroll_moved _ i hi).1,hat]
      split
      · rename_i hlow
        exact h.cells _ hlow
      · rename_i hhigh
        exact (hbehind i hhigh).1.symm
    · intro i hi
      rw [(scroll_moved _ i hi).2.1,hat]
      split
      · rename_i hlow
        exact h.cells _ hlow
      · rename_i hhigh
        exact (hbehind i hhigh).1.symm
    · intro i hi
      rw [(scroll_moved _ i hi).2.2,hat]
      split
      · rename_i hlow
        exact h.attrs _ hlow
      · rename_i hhigh
        exact (hbehind i hhigh).2.symm
  · rename_i hend
    refine ⟨top,?_,?_,h.cells,h.out,h.attrs,h.blank⟩
    · rw [setFbPos_fbPos,hline,hpaper]
    · rw [setFbPos_fbPos,hline]
      exact Nat.not_le.mp hend

/-- Emptying a cell that is empty already. -/
theorem Shows.empty (h : Shows top st p) {i : ℕ} (hi : i<VGA_SIZE)
    (hzero : (st.frameBuf i).symbol=0) {pixel : Pixel} (hpixel : pixel.symbol=0) :
    Shows top (writeFb st i pixel) p := by
  have hsame : Function.update p.symbol (80*top+i) 0=p.symbol := by
    rw [←hzero,h.cells i hi,Function.update_eq_self]
  have hcells := fun k (hk : k<VGA_SIZE) => update_agrees h.cells i pixel hk
  have hout := fun k (hk : k<VGA_SIZE) => update_agrees (v:=id) h.out i pixel.symbol hk
  simp only [hpixel,hsame,id] at hcells hout
  exact ⟨h.pos,h.onScreen,hcells,by simpa only [writeFb,use,hpixel] using hout,h.attrs,h.blank⟩

/-- Printing a symbol in front of the last cell. -/
theorem Shows.put (h : Shows top st p) (hnext : st.fbPos+1<VGA_SIZE) (pixel : Pixel) :
    Shows top (printSymbol st 0 pixel) (p.put pixel.symbol) := by
  have hpos := h.pos
  have hhere : ¬VGA_SIZE≤u16 (st.fbPos+0) := by
    simp only [u16,VGA_SIZE] at *
    omega
  have hmove : u16 (0+1+st.fbPos)=st.fbPos+1 := by
    simp only [u16,VGA_SIZE] at *
    omega
  have hput : Shows top (use (setFbPos (writeFb st st.fbPos pixel) (0+1+st.fbPos))
      (st.fbPos+1 : ℕ)) (p.put pixel.symbol) := by
    refine ⟨?_,?_,fun i hi => ?_,fun i hi => ?_,h.attrs,fun i hi => ⟨?_,(h.blank i hi).2⟩⟩
    · simp only [use,setFbPos,writeFb,hmove,Paper.put]
      omega
    · simp only [use,setFbPos,writeFb,hmove]
      exact hnext
    · rw [Paper.put,←hpos]
      exact update_agrees h.cells st.fbPos pixel hi
    · rw [Paper.put,←hpos]
      exact update_agrees (v:=id) h.out st.fbPos pixel.symbol hi
    · simp only [Paper.put]
      rw [Function.update_of_ne (by omega)]
      exact (h.blank i hi).1
  -- the cell behind is looked at, and emptied when it is empty
  have hprint : printSymbol st 0 pixel=
      let next := use (setFbPos (writeFb st st.fbPos pixel) (0+1+st.fbPos)) (st.fbPos+1 : ℕ)
      if (next.frameBuf (st.fbPos+1 : ℕ)).symbol=0 then
        writeFb next (st.fbPos+1 : ℕ) {pixel with symbol := 0} else next := by
    simp only [printSymbol,if_neg hhere,setFbPos,writeFb,use,hmove]
  rw [hprint]
  simp only
  split
  · rename_i hzero
    exact hput.empty hnext hzero rfl
  · exact hput

/-- Printing spaces. -/
theorem Shows.spaces (h : Shows top st p) (n : ℕ) (hnext : st.fbPos+n<VGA_SIZE) :
    Shows top ((fun st => printSymbol st 0 space)^[n] st) ((fun p => p.put 32)^[n] p) := by
  induction n with
  | zero => exact h
  | succ n ih =>
    have hbefore := ih (by omega)
    rw [Function.iterate_succ_apply',Function.iterate_succ_apply']
    refine hbefore.put ?_ space
    have hpos : ∀ n,((fun p : Paper => p.put 32)^[n] p).pos=p.pos+n := by
      intro n
      induction n with
      | zero => rfl
      | succ n ih =>
        rw [Function.iterate_succ_apply',Paper.put,ih]
        rfl
    have hafter := hbefore.pos
    rw [hpos] at hafter
    have := h.pos
    omega

/-- Taking back a cell. -/
theorem Shows.delete (h : Shows top st p) (hpos : 0<st.fbPos) :
    Shows top (fbDeleteChar st) p.delete := by
  have hon := h.onScreen
  have habs := h.pos
  have hcast : (st.fbPos : ℤ)-1=((st.fbPos-1 : ℕ) : ℤ) := by omega
  have hback : u16 (st.fbPos+2^16-1)=st.fbPos-1 := by
    simp only [u16,VGA_SIZE] at *
    omega
  have hat : p.pos-1=80*top+(st.fbPos-1) := by omega
  have hattr : st.frameBufAttrs ((st.fbPos : ℤ)-1)=p.kept (80*top+(st.fbPos-1)) := by
    rw [hcast,h.attrs _ (by omega)]
  rw [Paper.delete,hat]
  by_cases hkept : p.kept (80*top+(st.fbPos-1))=true
  · rw [if_pos hkept]
    simp only [fbDeleteChar,use,hattr,if_pos hkept]
    exact ⟨h.pos,h.onScreen,h.cells,h.out,h.attrs,h.blank⟩
  · rw [if_neg hkept]
    simp only [fbDeleteChar,use,hattr,if_neg hkept,setFbPos,writeFb,hback]
    refine ⟨rfl,(Nat.sub_le _ _).trans_lt hon,fun i hi => ?_,fun i hi => ?_,h.attrs,
      fun i hi => ⟨?_,(h.blank i hi).2⟩⟩
    · exact update_agrees h.cells (st.fbPos-1)
        {st.frameBuf (st.fbPos-1 : ℕ) with symbol := 0} hi
    · exact update_agrees (v:=id) h.out (st.fbPos-1) 0 hi
    · simp only
      rw [Function.update_of_ne (by omega)]
      exact (h.blank i hi).1

/-- Setting an attribute. -/
theorem Shows.mark (h : Shows top st p) (attr : Bool) :
    Shows top (writeAttr st st.fbPos attr) (p.mark attr) := by
  have hon := h.onScreen
  have habs := h.pos
  refine ⟨h.pos,h.onScreen,h.cells,h.out,fun i hi => ?_,fun i hi => ⟨(h.blank i hi).1,?_⟩⟩
  · rw [Paper.mark,←habs]
    exact update_agrees (v:=id) h.attrs st.fbPos attr hi
  · simp only [Paper.mark]
    rw [Function.update_of_ne (by omega)]
    exact (h.blank i hi).2

/-- Printing a character. -/
theorem Shows.print (h : Shows top st p) {symbol : ℕ} (hfits : PrintFits st 0 symbol)
    (fg bg : ℕ) : ∃ top',Shows top' (fbPrintChar st 0 symbol fg bg) (p.print symbol) := by
  rw [fbPrintChar,Paper.print]
  rw [PrintFits] at hfits
  by_cases hnull : symbol=0
  · rw [if_pos hnull,if_pos hnull]
    exact ⟨top,h⟩
  by_cases hreturn : symbol=13
  · rw [if_neg hnull,if_neg hnull,if_pos hreturn,if_pos hreturn]
    exact ⟨top,h⟩
  by_cases hline : symbol=10
  · rw [if_neg hnull,if_neg hnull,if_neg hreturn,if_neg hreturn,if_pos hline,if_pos hline]
    exact h.newline
  rw [if_neg hnull,if_neg hnull,if_neg hreturn,if_neg hreturn,if_neg hline,if_neg hline]
  rw [if_neg (not_or.mpr ⟨hnull,not_or.mpr ⟨hreturn,hline⟩⟩)] at hfits
  by_cases htab : symbol=9
  · rw [if_pos htab] at hfits
    rw [if_pos htab,if_pos htab]
    exact ⟨top,h.spaces 4 hfits⟩
  rw [if_neg htab] at hfits
  rw [if_neg htab,if_neg htab]
  by_cases hdel : symbol=KBD_DEL
  · rw [if_pos hdel] at hfits
    rw [if_pos hdel,if_pos hdel]
    exact ⟨top,h.delete hfits⟩
  · rw [if_neg hdel] at hfits
    rw [if_neg hdel,if_neg hdel]
    refine ⟨top,h.put ?_ ⟨symbol,fg,bg⟩⟩
    have hon := h.onScreen
    have hhere : u16 (st.fbPos+0)<VGA_SIZE := by
      simp only [u16,VGA_SIZE] at *
      omega
    rw [NextFits,if_pos hhere] at hfits
    simp only [u16,VGA_SIZE] at *
    omega

/-- A call that stays inside the arrays does on the screen what it does on the sheet. -/
theorem Shows.apply (h : Shows top st p) {call : Call} (hcall : Proper st call) :
    ∃ top',Shows top' (TextConsole.apply st call) (p.apply call) := by
  obtain ⟨hfits,hoffset⟩ := hcall
  cases call with
  | printChar offset symbol fg bg =>
    obtain rfl := hoffset offset symbol fg bg rfl
    exact h.print hfits fg bg
  | putc c => exact h.print hfits FB_WHITE FB_BLACK
  | putcAttrs symbol attr => exact (h.mark attr).print hfits FB_WHITE FB_BLACK
  | newline => exact h.newline
  | deleteChar => exact ⟨top,h.delete hfits⟩
  | lastWrittenBuf => exact ⟨top,h.pos,h.onScreen,h.cells,h.out,h.attrs,h.blank⟩

/-! ## Runs -/

/-- A cleared screen shows the empty sheet. -/
theorem shows_clear (st : Console) : Shows 0 (fbClear st) emptyPaper := by
  have hin : ∀ i<VGA_SIZE,0≤(i : ℤ) ∧ (i : ℤ)<VGA_SIZE :=
    fun i hi => ⟨Int.natCast_nonneg i,Int.ofNat_lt.mpr hi⟩
  refine ⟨rfl,by norm_num [fbClear],fun i hi => ?_,fun i hi => ?_,fun i hi => ?_,
    fun i _ => ⟨rfl,rfl⟩⟩
  · simp only [fbClear,if_pos (hin i hi),emptyPaper]
  · simp only [fbClear,if_pos (hin i hi),emptyPaper]
  · simp only [fbClear,if_pos (hin i hi),emptyPaper]

/-- After the screen is cleared, in every run of calls that stay inside the arrays the
screen shows a window of what the calls write on an endless sheet. -/
theorem run_shows (st : Console) (calls : List Call)
    (h : Along TextConsole.apply Proper (fbClear st) calls) :
    ∃ top,Shows top (calls.foldl TextConsole.apply (fbClear st))
      (calls.foldl Paper.apply emptyPaper) := by
  have hfrom : ∀ {top : ℕ} {st : Console} {p : Paper},Shows top st p →
      Along TextConsole.apply Proper st calls →
      ∃ top',Shows top' (calls.foldl TextConsole.apply st) (calls.foldl Paper.apply p) := by
    clear h
    induction calls with
    | nil => exact fun hshows _ => ⟨_,hshows⟩
    | cons call calls ih =>
      rintro top st p hshows ⟨hcall,hrest⟩
      obtain ⟨top',hnext⟩ := hshows.apply hcall
      exact ih hnext hrest
  exact hfrom (shows_clear st) h

/-- A console before it is cleared. -/
def blankConsole : Console := ⟨0,fun _ => ⟨0,0,0⟩,fun _ => false,fun _ => 0,[]⟩

/-- A letter and a new line on a cleared screen. -/
theorem run_shows_line :
    ∃ top,Shows top ([Call.putc 97,.newline].foldl TextConsole.apply (fbClear blankConsole))
      ([Call.putc 97,.newline].foldl Paper.apply emptyPaper) :=
  run_shows blankConsole _ ⟨⟨by simp [Fits,PrintFits,NextFits,fbClear,u16],by simp⟩,
    ⟨trivial,by simp⟩,trivial⟩

end XanaduOS.ConsolePaper
