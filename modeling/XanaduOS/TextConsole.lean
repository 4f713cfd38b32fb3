import XanaduOS.Keyboard
import XanaduOS.Runs
import XanaduOS.Word32

/-!
# The text console

A 16-bit position moves over 25 lines of 80 cells. Printing scrolls when the
cell to print lies behind the screen, prints, moves on, and then looks at the
next cell, which may lie behind the screen. Deleting looks at the cell before
the position, which may lie before the screen. Every index used is logged, so
that the bounds of a run can be read off its last state.
-/

namespace XanaduOS.TextConsole

open Runs Word32
open Keyboard (KBD_DEL)

/-- Cells of the screen. -/
abbrev VGA_SIZE : ℕ := 2000

/-- Foreground of plain text. -/
abbrev FB_WHITE : ℕ := 15

/-- Background of plain text. -/
abbrev FB_BLACK : ℕ := 0

/-- One cell of video memory. -/
structure Pixel where
  /-- Character code. -/
  symbol : ℕ
  /-- Foreground colour. -/
  fg : ℕ
  /-- Background colour. -/
  bg : ℕ
  deriving DecidableEq

/-- The console: position, video memory, attributes, and the output buffer.
Arrays go on before and behind the screen, as memory does. -/
structure Console where
  /-- The position. -/
  fbPos : ℕ
  /-- Video memory. -/
  frameBuf : ℤ → Pixel
  /-- Whether a cell is not deletable. -/
  frameBufAttrs : ℤ → Bool
  /-- The output buffer. -/
  fbOut : ℤ → ℕ
  /-- Indices used so far, latest first. -/
  used : List ℤ

/-- A 16-bit value. -/
def u16 (x : ℕ) : ℕ := x%2^16

/-- Log an index. -/
def use (st : Console) (i : ℤ) : Console := {st with used := i::st.used}

/-- Write a cell of video memory and of the output buffer. -/
def writeFb (st : Console) (i : ℤ) (pixel : Pixel) : Console :=
  use {st with
    frameBuf := Function.update st.frameBuf i pixel
    fbOut := Function.update st.fbOut i pixel.symbol} i

/-- Write an attribute. -/
def writeAttr (st : Console) (i : ℤ) (attr : Bool) : Console :=
  use {st with frameBufAttrs := Function.update st.frameBufAttrs i attr} i

/-- Move the position. -/
def setFbPos (st : Console) (newPos : ℕ) : Console := {st with fbPos := u16 newPos}

/-- Move one cell up by a line. -/
def scrollCell (st : Console) (i : ℕ) : Console :=
  let st := writeFb (use st i) (i-80) (st.frameBuf i)
  writeAttr (use st i) (i-80) (st.frameBufAttrs i)

/-- Clear one cell of the last line. -/
def clearCell (st : Console) (i : ℕ) : Console :=
  writeAttr (writeFb st i ⟨0,0,0⟩) i false

/-- Move the screen up by a line. The position wraps below zero. -/
def scroll (st : Console) : Console :=
  let st := (List.range' 80 (VGA_SIZE-80)).foldl scrollCell st
  let st := (List.range' (VGA_SIZE-80) 80).foldl clearCell st
  setFbPos st (st.fbPos+2^16-80)

/-- Print an ordinary symbol, and blank the next cell when it is empty. -/
def printSymbol (st : Console) (offset : ℕ) (pixel : Pixel) : Console :=
  let st := if VGA_SIZE≤u16 (st.fbPos+offset) then scroll st else st
  let st := writeFb st st.fbPos pixel
  let st := setFbPos st (offset+1+st.fbPos)
  let st := use st st.fbPos
  if (st.frameBuf st.fbPos).symbol=0 then writeFb st st.fbPos {pixel with symbol := 0} else st

/-- Go to the start of the next line. -/
def fbNewline (st : Console) : Console :=
  let st := setFbPos st (st.fbPos-st.fbPos%80+80)
  if VGA_SIZE ≤ st.fbPos then scroll st else st

/-- Delete the cell before the position, unless it is not deletable. -/
def fbDeleteChar (st : Console) : Console :=
  let st := use st (st.fbPos-1)
  if st.frameBufAttrs (st.fbPos-1)=true then st
  else
    let st := setFbPos st (st.fbPos+2^16-1)
    let st := use st st.fbPos
    writeFb st st.fbPos {st.frameBuf st.fbPos with symbol := 0}

/-- A plain space. -/
def space : Pixel := ⟨32,FB_WHITE,FB_BLACK⟩

/-- Print a character: null and return do nothing, a tab is four spaces. -/
def fbPrintChar (st : Console) (offset symbol foreground background : ℕ) : Console :=
  if symbol=0 then st
  else if symbol=13 then st
  else if symbol=10 then fbNewline st
  else if symbol=9 then (fun st => printSymbol st 0 space)^[4] st
  else if symbol=KBD_DEL then fbDeleteChar st
  else printSymbol st offset ⟨symbol,foreground,background⟩

/-- Print a character in plain colours. -/
def fbPutc (st : Console) (c : ℕ) : Console := fbPrintChar st 0 c FB_WHITE FB_BLACK

/-- Print a character and set the attribute of its cell. -/
def fbPutcAttrs (st : Console) (symbol : ℕ) (attr : Bool) : Console :=
  fbPutc (writeAttr st st.fbPos attr) symbol

/-- Look backwards for a cell that is not deletable, with the cells looked at.
Past the first cell there is no result. -/
def scanBack (attrs : ℤ → Bool) : ℕ → Option ℕ×List ℤ
  | 0 => if attrs 0=true then (some 0,[0]) else (none,[0])
  | i+1 =>
    if attrs (i+1)=true then (some (i+1),[(i+1 : ℤ)])
    else
      let r := scanBack attrs i
      (r.1,r.2++[(i+1 : ℤ)])

/-- What was written since the last cell that is not deletable: its offset in
the output buffer and its length. -/
def fbLastWrittenBuf (st : Console) : Console×Option (ℕ×ℕ) :=
  let r := scanBack st.frameBufAttrs st.fbPos
  ({st with used := r.2++st.used},r.1.map fun i => (i+1,wsub (wsub st.fbPos i) 1))

/-- Clear the screen. -/
def fbClear (st : Console) : Console :=
  {st with
    fbPos := 0
    frameBuf := fun i => if 0 ≤ i ∧ i<VGA_SIZE then ⟨0,0,0⟩ else st.frameBuf i
    frameBufAttrs := fun i => if 0 ≤ i ∧ i<VGA_SIZE then false else st.frameBufAttrs i
    fbOut := fun i => if 0 ≤ i ∧ i<VGA_SIZE then 0 else st.fbOut i
    used := []}

/-- Calls of the console. -/
inductive Call
  /-- Print a character at an offset. -/
  | printChar (offset symbol foreground background : ℕ)
  /-- Print a plain character. -/
  | putc (c : ℕ)
  /-- Print a character with an attribute. -/
  | putcAttrs (symbol : ℕ) (attr : Bool)
  /-- Go to the next line. -/
  | newline
  /-- Delete a character. -/
  | deleteChar
  /-- Read back what was written. -/
  | lastWrittenBuf

/-- One call. -/
def apply (st : Console) : Call → Console
  | .printChar offset symbol foreground background =>
    fbPrintChar st offset symbol foreground background
  | .putc c => fbPutc st c
  | .putcAttrs symbol attr => fbPutcAttrs st symbol attr
  | .newline => fbNewline st
  | .deleteChar => fbDeleteChar st
  | .lastWrittenBuf => (fbLastWrittenBuf st).1

/-- An index of the screen. -/
def OnScreen (i : ℤ) : Prop := 0 ≤ i ∧ i<VGA_SIZE

/-- Every index used so far is of the screen. -/
def Inside (st : Console) : Prop := ∀ i∈st.used,OnScreen i

/-- A call uses indices of the screen only, and a scan backwards ends. -/
structure InBounds (st : Console) (call : Call) : Prop where
  /-- Indices used. -/
  inside : Inside (apply st call)
  /-- The scan. -/
  ends : call=.lastWrittenBuf → (fbLastWrittenBuf st).2.isSome

/-- The cell looked at after printing an ordinary symbol is of the screen, and
so is the cell printed. -/
def NextFits (pos offset : ℕ) : Prop :=
  if u16 (pos+offset)<VGA_SIZE then u16 (offset+1+pos)<VGA_SIZE
  else 80≤pos ∧ u16 (offset+1+(pos-80))<VGA_SIZE

/-- The cells that printing a character uses are of the screen. -/
def PrintFits (st : Console) (offset symbol : ℕ) : Prop :=
  if symbol=0 ∨ symbol=13 ∨ symbol=10 then True
  else if symbol=9 then st.fbPos+4<VGA_SIZE
  else if symbol=KBD_DEL then 0<st.fbPos
  else NextFits st.fbPos offset

/-- The cells that a call uses are of the screen. -/
def Fits (st : Console) : Call → Prop
  | .printChar offset symbol _ _ => PrintFits st offset symbol
  | .putc c => PrintFits st 0 c
  | .putcAttrs symbol _ => PrintFits st 0 symbol
  | .newline => True
  | .deleteChar => 0<st.fbPos
  | .lastWrittenBuf => ∃ i ≤ st.fbPos,st.frameBufAttrs i=true

/-! ## Logs and positions -/

variable {st : Console}

/-- Indices after logging one more. -/
theorem inside_use (st : Console) (i : ℤ) : Inside (use st i) ↔ OnScreen i ∧ Inside st :=
  List.forall_mem_cons

/-- Indices after writing a cell. -/
theorem inside_writeFb (st : Console) (i : ℤ) (pixel : Pixel) :
    Inside (writeFb st i pixel) ↔ OnScreen i ∧ Inside st :=
  List.forall_mem_cons

/-- Indices after writing an attribute. -/
theorem inside_writeAttr (st : Console) (i : ℤ) (attr : Bool) :
    Inside (writeAttr st i attr) ↔ OnScreen i ∧ Inside st :=
  List.forall_mem_cons

/-- Moving the position uses no index. -/
theorem inside_setFbPos (st : Console) (newPos : ℕ) :
    Inside (setFbPos st newPos) ↔ Inside st := Iff.rfl

/-- The position after moving it. -/
theorem setFbPos_fbPos (st : Console) (newPos : ℕ) : (setFbPos st newPos).fbPos=u16 newPos := rfl

/-- A natural number is an index of the screen when it is below its size. -/
theorem onScreen_natCast {i : ℕ} : OnScreen i ↔ i<VGA_SIZE := by
  simp only [OnScreen,Nat.cast_lt]
  exact and_iff_right (Int.natCast_nonneg i)

/-- Steps over cells that log indices of the screen and keep the position. -/
theorem foldl_cells {f : Console → ℕ → Console} {cells : List ℕ}
    (hf : ∀ st,∀ i∈cells,(Inside (f st i) ↔ Inside st) ∧ (f st i).fbPos=st.fbPos) (st : Console) :
    (Inside (cells.foldl f st) ↔ Inside st) ∧ (cells.foldl f st).fbPos=st.fbPos := by
  induction cells generalizing st with
  | nil => exact ⟨Iff.rfl,rfl⟩
  | cons i cells ih =>
    obtain ⟨hinside,hpos⟩ := hf st i List.mem_cons_self
    obtain ⟨hinside',hpos'⟩ := ih (fun st k hk => hf st k (List.mem_cons_of_mem _ hk)) (f st i)
    exact ⟨hinside'.trans hinside,hpos'.trans hpos⟩

/-- Scrolling uses cells of the screen, and moves the position up by a line. -/
theorem scroll_spec (st : Console) :
    (Inside (scroll st) ↔ Inside st) ∧ (scroll st).fbPos=u16 (st.fbPos+2^16-80) := by
  have hup : ∀ st,∀ i∈List.range' 80 (VGA_SIZE-80),
      (Inside (scrollCell st i) ↔ Inside st) ∧ (scrollCell st i).fbPos=st.fbPos := by
    intro st i hi
    obtain ⟨hlow,hhigh⟩ := List.mem_range'_1.mp hi
    have hto : OnScreen ((i : ℤ)-80) := by
      simp only [OnScreen,VGA_SIZE] at hhigh ⊢
      omega
    have hfrom : OnScreen (i : ℤ) := onScreen_natCast.mpr (by simp only [VGA_SIZE] at *; omega)
    refine ⟨?_,rfl⟩
    rw [scrollCell,inside_writeAttr,inside_use,inside_writeFb,inside_use]
    simp only [hto,hfrom,true_and]
  have hlast : ∀ st,∀ i∈List.range' (VGA_SIZE-80) 80,
      (Inside (clearCell st i) ↔ Inside st) ∧ (clearCell st i).fbPos=st.fbPos := by
    intro st i hi
    have hhigh := (List.mem_range'_1.mp hi).2
    have hon : OnScreen (i : ℤ) := onScreen_natCast.mpr (by simp only [VGA_SIZE] at *; omega)
    refine ⟨?_,rfl⟩
    rw [clearCell,inside_writeAttr,inside_writeFb]
    simp only [hon,true_and]
  obtain ⟨hinside,hpos⟩ := foldl_cells hup st
  obtain ⟨hinside',hpos'⟩ := foldl_cells hlast ((List.range' 80 (VGA_SIZE-80)).foldl scrollCell st)
  rw [scroll]
  refine ⟨?_,?_⟩
  · rw [inside_setFbPos,hinside',hinside]
  · rw [setFbPos_fbPos,hpos',hpos]

/-- The cell that an ordinary symbol is printed to. -/
def printedAt (pos offset : ℕ) : ℕ :=
  if VGA_SIZE≤u16 (pos+offset) then u16 (pos+2^16-80) else pos

/-- Printing an ordinary symbol uses its cell and the cell it moves on to. -/
theorem printSymbol_spec (st : Console) (offset : ℕ) (pixel : Pixel) :
    (Inside (printSymbol st offset pixel) ↔ Inside st ∧ printedAt st.fbPos offset<VGA_SIZE ∧
      u16 (offset+1+printedAt st.fbPos offset)<VGA_SIZE) ∧
    (printSymbol st offset pixel).fbPos=u16 (offset+1+printedAt st.fbPos offset) := by
  obtain ⟨before,hinside,hpos,hprint⟩ : ∃ before,(Inside before ↔ Inside st) ∧
      before.fbPos=printedAt st.fbPos offset ∧
      printSymbol st offset pixel=
        let next := use (setFbPos (writeFb before before.fbPos pixel) (offset+1+before.fbPos))
          (u16 (offset+1+before.fbPos))
        if (next.frameBuf next.fbPos).symbol=0 then
          writeFb next next.fbPos {pixel with symbol := 0} else next := by
    by_cases hscroll : VGA_SIZE≤u16 (st.fbPos+offset)
    · refine ⟨scroll st,(scroll_spec st).1,?_,?_⟩
      · rw [(scroll_spec st).2,printedAt,if_pos hscroll]
      · simp only [printSymbol,if_pos hscroll]
        rfl
    · refine ⟨st,Iff.rfl,?_,?_⟩
      · rw [printedAt,if_neg hscroll]
      · simp only [printSymbol,if_neg hscroll]
        rfl
  rw [hprint,←hpos,←hinside]
  have hnext : Inside (use (setFbPos (writeFb before before.fbPos pixel) (offset+1+before.fbPos))
      (u16 (offset+1+before.fbPos))) ↔ Inside before ∧ before.fbPos<VGA_SIZE ∧
        u16 (offset+1+before.fbPos)<VGA_SIZE := by
    rw [inside_use,onScreen_natCast]
    change _ ∧ Inside (writeFb before before.fbPos pixel) ↔ _
    rw [inside_writeFb,onScreen_natCast]
    tauto
  simp only
  split
  · refine ⟨?_,rfl⟩
    rw [inside_writeFb,hnext]
    change OnScreen (u16 (offset+1+before.fbPos) : ℕ) ∧ _ ↔ _
    rw [onScreen_natCast]
    tauto
  · exact ⟨hnext,rfl⟩

/-! ## One call -/

/-- The position is on the screen, and only the screen was used. -/
def Valid (st : Console) : Prop := st.fbPos<VGA_SIZE ∧ Inside st

/-- Only the screen was used exactly under a condition, and under it the
position is on the screen. -/
def Bounded (st : Console) (condition : Prop) : Prop :=
  (Inside st ↔ condition) ∧ (condition → st.fbPos<VGA_SIZE)

/-- The cells of an ordinary symbol, from a position on the screen. -/
theorem nextFits_iff {pos : ℕ} (hpos : pos<VGA_SIZE) (offset : ℕ) : NextFits pos offset ↔
    printedAt pos offset<VGA_SIZE ∧ u16 (offset+1+printedAt pos offset)<VGA_SIZE := by
  rw [NextFits,printedAt]
  by_cases hon : u16 (pos+offset)<VGA_SIZE
  · rw [if_pos hon,if_neg (not_le.mpr hon)]
    exact (and_iff_right hpos).symm
  · rw [if_neg hon,if_pos (not_lt.mp hon)]
    have hline : u16 (pos+2^16-80)<VGA_SIZE ↔ 80≤pos := by
      simp only [u16,VGA_SIZE] at *
      omega
    rw [hline]
    refine and_congr_right fun hlow => ?_
    have hup : u16 (pos+2^16-80)=pos-80 := by
      simp only [u16,VGA_SIZE] at *
      omega
    rw [hup]

/-- Printing an ordinary symbol. -/
theorem printSymbol_bounded (h : Valid st) (offset : ℕ) (pixel : Pixel) :
    Bounded (printSymbol st offset pixel) (NextFits st.fbPos offset) := by
  obtain ⟨hinside,hpos⟩ := printSymbol_spec st offset pixel
  refine ⟨?_,fun hfits => ?_⟩
  · rw [hinside,nextFits_iff h.1,and_iff_right h.2]
  · rw [hpos]
    exact ((nextFits_iff h.1 offset).mp hfits).2

/-- Printing a space moves on by one cell. -/
theorem printSymbol_space (hpos : st.fbPos<VGA_SIZE) :
    (Inside (printSymbol st 0 space) ↔ Inside st ∧ st.fbPos+1<VGA_SIZE) ∧
      (printSymbol st 0 space).fbPos=st.fbPos+1 := by
  have hhere : u16 (st.fbPos+0)<VGA_SIZE := by
    simp only [u16,VGA_SIZE] at *
    omega
  have hat : printedAt st.fbPos 0=st.fbPos := by rw [printedAt,if_neg (not_le.mpr hhere)]
  have hnext : u16 (0+1+st.fbPos)=st.fbPos+1 := by
    simp only [u16,VGA_SIZE] at *
    omega
  obtain ⟨hinside,hafter⟩ := printSymbol_spec st 0 space
  rw [hat,hnext] at hinside hafter
  exact ⟨by rw [hinside,and_iff_right hpos],hafter⟩

/-- Printing spaces moves on by one cell each. -/
theorem printSpaces_spec (h : Valid st) (n : ℕ) :
    (Inside ((fun st => printSymbol st 0 space)^[n] st) ↔ st.fbPos+n<VGA_SIZE) ∧
      (st.fbPos+n<VGA_SIZE → ((fun st => printSymbol st 0 space)^[n] st).fbPos=st.fbPos+n) := by
  induction n with
  | zero => exact ⟨iff_of_true h.2 h.1,fun _ => rfl⟩
  | succ n ih =>
    obtain ⟨hinside,hpos⟩ := ih
    rw [Function.iterate_succ_apply']
    by_cases hfits : st.fbPos+n<VGA_SIZE
    · have hnow := hpos hfits
      have hstep := @printSymbol_space ((fun st => printSymbol st 0 space)^[n] st)
        (by rw [hnow]; exact hfits)
      rw [hnow] at hstep
      refine ⟨?_,fun _ => hstep.2⟩
      rw [hstep.1,and_iff_right (hinside.mpr hfits),Nat.add_assoc]
    · refine ⟨iff_of_false (fun hin => hfits (hinside.mp ?_)) (by omega),fun hnext => by omega⟩
      exact ((printSymbol_spec _ 0 space).1.mp hin).1

/-- Going to the next line. -/
theorem fbNewline_bounded (h : Valid st) : Bounded (fbNewline st) True := by
  obtain ⟨hpos,hinside⟩ := h
  have hline : u16 (st.fbPos-st.fbPos%80+80)=st.fbPos-st.fbPos%80+80 := by
    simp only [u16,VGA_SIZE] at *
    omega
  simp only [fbNewline,setFbPos_fbPos,hline]
  split
  · rename_i hend
    obtain ⟨hscroll,hup⟩ := scroll_spec (setFbPos st (st.fbPos-st.fbPos%80+80))
    refine ⟨iff_of_true (hscroll.mpr hinside) trivial,fun _ => ?_⟩
    rw [hup,setFbPos_fbPos,hline]
    simp only [u16,VGA_SIZE] at *
    omega
  · rename_i hend
    refine ⟨iff_of_true hinside trivial,fun _ => ?_⟩
    rw [setFbPos_fbPos,hline]
    exact not_le.mp hend

/-- Deleting a character. -/
theorem fbDeleteChar_bounded (h : Valid st) : Bounded (fbDeleteChar st) (0<st.fbPos) := by
  obtain ⟨hpos,hinside⟩ := h
  have hbefore : OnScreen ((st.fbPos : ℤ)-1) ↔ 0<st.fbPos := by
    simp only [OnScreen,VGA_SIZE] at *
    omega
  have hback : 0<st.fbPos → u16 (st.fbPos+2^16-1)<VGA_SIZE := by
    intro hlow
    simp only [u16,VGA_SIZE] at *
    omega
  by_cases hkept : st.frameBufAttrs ((st.fbPos : ℤ)-1)=true
  · have hdelete : fbDeleteChar st=use st (st.fbPos-1) := by
      rw [fbDeleteChar]
      exact if_pos hkept
    rw [hdelete]
    refine ⟨?_,fun _ => hpos⟩
    rw [inside_use,hbefore,and_iff_left hinside]
  · obtain ⟨pixel,hdelete⟩ : ∃ pixel,fbDeleteChar st=
        writeFb (use (setFbPos (use st (st.fbPos-1)) (st.fbPos+2^16-1)) (u16 (st.fbPos+2^16-1)))
          (u16 (st.fbPos+2^16-1)) pixel := by
      rw [fbDeleteChar]
      exact ⟨_,if_neg hkept⟩
    rw [hdelete]
    refine ⟨?_,fun hlow => hback hlow⟩
    rw [inside_writeFb,inside_use,inside_setFbPos,inside_use,hbefore,onScreen_natCast,
      and_iff_left hinside]
    exact ⟨fun hall => hall.2.2,fun hlow => ⟨hback hlow,hback hlow,hlow⟩⟩

/-- Printing a character. -/
theorem fbPrintChar_bounded (h : Valid st) (offset symbol foreground background : ℕ) :
    Bounded (fbPrintChar st offset symbol foreground background) (PrintFits st offset symbol) := by
  have hnothing : Bounded st True := ⟨iff_of_true h.2 trivial,fun _ => h.1⟩
  rw [fbPrintChar,PrintFits]
  by_cases hnull : symbol=0
  · rw [if_pos hnull,if_pos (Or.inl hnull)]
    exact hnothing
  by_cases hreturn : symbol=13
  · rw [if_neg hnull,if_pos hreturn,if_pos (Or.inr (Or.inl hreturn))]
    exact hnothing
  by_cases hline : symbol=10
  · rw [if_neg hnull,if_neg hreturn,if_pos hline,if_pos (Or.inr (Or.inr hline))]
    exact fbNewline_bounded h
  have hother : ¬(symbol=0 ∨ symbol=13 ∨ symbol=10) := by tauto
  rw [if_neg hnull,if_neg hreturn,if_neg hline,if_neg hother]
  by_cases htab : symbol=9
  · rw [if_pos htab,if_pos htab]
    obtain ⟨hinside,hpos⟩ := printSpaces_spec h 4
    exact ⟨hinside,fun hfits => (hpos hfits).trans_lt hfits⟩
  rw [if_neg htab,if_neg htab]
  by_cases hdel : symbol=KBD_DEL
  · rw [if_pos hdel,if_pos hdel]
    exact fbDeleteChar_bounded h
  · rw [if_neg hdel,if_neg hdel]
    exact printSymbol_bounded h offset _

/-- A scan backwards looks at cells from the first one to the position, and
ends exactly when one of them is not deletable. -/
theorem scanBack_spec (attrs : ℤ → Bool) (pos : ℕ) :
    (∀ i∈(scanBack attrs pos).2,0 ≤ i ∧ i≤pos) ∧
      ((scanBack attrs pos).1.isSome ↔ ∃ i≤pos,attrs i=true) := by
  induction pos with
  | zero =>
    rw [scanBack]
    split
    · rename_i hkept
      exact ⟨by simp,iff_of_true rfl ⟨0,Nat.le_refl _,hkept⟩⟩
    · rename_i hnone
      refine ⟨by simp,iff_of_false (by simp) ?_⟩
      rintro ⟨i,hi,hkept⟩
      obtain rfl := Nat.le_zero.mp hi
      exact hnone hkept
  | succ pos ih =>
    obtain ⟨hcells,hends⟩ := ih
    rw [scanBack]
    split
    · rename_i hkept
      refine ⟨?_,iff_of_true rfl ⟨pos+1,Nat.le_refl _,hkept⟩⟩
      intro i hi
      obtain rfl := List.mem_singleton.mp hi
      push_cast
      omega
    · rename_i hnone
      refine ⟨fun i hi => ?_,hends.trans ?_⟩
      · rcases List.mem_append.mp hi with hi|hi
        · have := hcells i hi
          push_cast
          omega
        · obtain rfl := List.mem_singleton.mp hi
          push_cast
          omega
      · constructor
        · rintro ⟨i,hi,hkept⟩
          exact ⟨i,Nat.le_succ_of_le hi,hkept⟩
        · rintro ⟨i,hi,hkept⟩
          rcases Nat.le_succ_iff.mp hi with hle|rfl
          · exact ⟨i,hle,hkept⟩
          · exact absurd hkept hnone

/-- From a position on the screen a call keeps to the screen exactly when its
cells fit, and then the position stays on the screen. -/
theorem inBounds_iff (st : Console) (call : Call) (h : Valid st) :
    (InBounds st call ↔ Fits st call) ∧ (Fits st call → Valid (apply st call)) := by
  have hplain : ∀ {condition : Prop},call≠.lastWrittenBuf → Bounded (apply st call) condition →
      (InBounds st call ↔ condition) ∧ (condition → Valid (apply st call)) := by
    rintro condition hcall ⟨hinside,hpos⟩
    refine ⟨⟨fun hin => hinside.mp hin.inside,fun hfits => ⟨hinside.mpr hfits,?_⟩⟩,
      fun hfits => ⟨hpos hfits,hinside.mpr hfits⟩⟩
    exact fun heq => absurd heq hcall
  cases call with
  | printChar offset symbol foreground background =>
    exact hplain (by simp) (fbPrintChar_bounded h offset symbol foreground background)
  | putc c => exact hplain (by simp) (fbPrintChar_bounded h 0 c FB_WHITE FB_BLACK)
  | putcAttrs symbol attr =>
    have hattr : Valid (writeAttr st st.fbPos attr) :=
      ⟨h.1,(inside_writeAttr st st.fbPos attr).mpr ⟨onScreen_natCast.mpr h.1,h.2⟩⟩
    exact hplain (by simp) (fbPrintChar_bounded hattr 0 symbol FB_WHITE FB_BLACK)
  | newline => exact hplain (by simp) (fbNewline_bounded h)
  | deleteChar => exact hplain (by simp) (fbDeleteChar_bounded h)
  | lastWrittenBuf =>
    obtain ⟨hcells,hends⟩ := scanBack_spec st.frameBufAttrs st.fbPos
    have hinside : Inside (apply st .lastWrittenBuf) := by
      intro i hi
      rcases List.mem_append.mp hi with hi|hi
      · have hpos := h.1
        have := hcells i hi
        simp only [OnScreen,VGA_SIZE] at *
        omega
      · exact h.2 i hi
    have hresult : (fbLastWrittenBuf st).2.isSome ↔ ∃ i ≤ st.fbPos,st.frameBufAttrs i=true := by
      rw [←hends]
      simp only [fbLastWrittenBuf,Option.isSome_map]
    exact ⟨⟨fun hin => hresult.mp (hin.ends rfl),fun hfits => ⟨hinside,fun _ => hresult.mpr hfits⟩⟩,
      fun _ => ⟨h.1,hinside⟩⟩

/-! ## Runs -/

/-- After the screen is cleared, a run of calls keeps to the screen exactly
when the cells of each call fit. -/
theorem run_withinCells_iff (st : Console) (calls : List Call) :
    Along apply InBounds (fbClear st) calls ↔ Along apply Fits (fbClear st) calls := by
  have hclear : Valid (fbClear st) := ⟨by norm_num [fbClear],fun i hi => absurd hi (by simp [fbClear])⟩
  exact along_iff (fun st call h => (inBounds_iff st call h).1)
    (fun st call h => (inBounds_iff st call h).2) hclear calls

/-- Deleting on a cleared screen looks at the cell before it, and moves the
position to the end of the 16-bit range. -/
theorem withinCells_counterexample : ¬∀ (st : Console) (calls : List Call),
    Along apply InBounds (fbClear st) calls := by
  intro h
  have hdelete := (h ⟨0,fun _ => ⟨0,0,0⟩,fun _ => false,fun _ => 0,[]⟩ [.deleteChar]).1.inside
    65535 (by decide)
  exact absurd hdelete.2 (by norm_num)

end XanaduOS.TextConsole
