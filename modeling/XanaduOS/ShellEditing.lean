import XanaduOS.ConsolePaper

/-!
# The shell as a line editor

The shell is a receiver of keys. It prints what is typed on the console, with a prompt
that is not deletable in front of each line, and finds the line again by looking back
for the prompt. The arrow up saves the line and takes it back, the arrow down puts the
saved one in its place. As long as lines fit on the screen, the screen shows the line of
an editor that knows nothing of cells and attributes.
-/

namespace XanaduOS.ShellEditing

open Word32 TextConsole ConsolePaper
open Keyboard (untilNull untilNull_eq KBD_DEL UP_ARROW DOWN_ARROW)

/-- Characters of a command. -/
abbrev CMD_SIZE : ℕ := 1024

/-- The console and the arrays of the shell. -/
structure Shell where
  /-- The console. -/
  console : Console
  /-- The last command, never written. -/
  lastCmd : ℕ → ℕ
  /-- The saved line. -/
  curCmd : ℕ → ℕ

/-- The characters of the prompt. -/
def promptText : List ℕ := [115,108,97,118,111,115,62,32]

/-- Print characters with an attribute. -/
def fbPrintAttrs (st : Console) (msg : List ℕ) (attr : Bool) : Console :=
  msg.foldl (fun st c => fbPutcAttrs st c attr) st

/-- Print characters. -/
def fbPrintBlack (st : Console) (msg : List ℕ) : Console := msg.foldl fbPutc st

/-- Delete characters. Their number has 16 bits. -/
def fbDeleteLast (st : Console) (len : ℕ) : Console := fbDeleteChar^[u16 len] st

/-- Print the prompt. -/
def shellPrompt (st : Console) : Console := fbPrintAttrs st promptText true

/-- Clear the screen and print the prompt. -/
def shellStart (st : Console) : Shell := ⟨shellPrompt (fbClear st),fun _ => 0,fun _ => 0⟩

/-- Receive a key. Behind the arrays there is nothing to copy to and no string to print. -/
def readStream (sh : Shell) (c : ℕ) : Option Shell :=
  if c=UP_ARROW then do
    let (cmd,len) ← (fbLastWrittenBuf sh.console).2
    let st := (fbLastWrittenBuf sh.console).1
    if CMD_SIZE<len then none
    else do
      let curCmd := fun k => if k<len then st.fbOut (cmd+k : ℕ) else sh.curCmd k
      let text ← untilNull sh.lastCmd CMD_SIZE 0
      some {sh with console := fbPrintBlack (fbDeleteLast st len) text,curCmd := curCmd}
  else if c=DOWN_ARROW then do
    let (_,len) ← (fbLastWrittenBuf sh.console).2
    let st := (fbLastWrittenBuf sh.console).1
    let text ← untilNull sh.curCmd CMD_SIZE 0
    some {sh with console := fbPrintBlack (fbDeleteLast st len) text}
  else
    let st := fbPutc sh.console (c%2^8)
    some {sh with console := if c=10 then shellPrompt st else st}

/-! ## The editor -/

/-- A line behind a prompt, and a saved line. -/
structure Editor where
  /-- The cell of the screen at which the prompt starts. -/
  row : ℕ
  /-- The line. -/
  line : List ℕ
  /-- The saved line. -/
  saved : List ℕ

/-- The editor of a cleared screen. -/
def Editor.start : Editor := ⟨0,[],[]⟩

/-- The cell at which the next line of the screen starts. The last line scrolls. -/
def nextRow (pos : ℕ) : ℕ :=
  if VGA_SIZE≤pos-pos%80+80 then VGA_SIZE-80 else pos-pos%80+80

/-- A key: the arrows save and restore the line, a tab is four spaces, return does
nothing. A shorter line is saved over the front of a longer one. -/
def Editor.key (e : Editor) (c : ℕ) : Editor :=
  if c=UP_ARROW then {e with line := [],saved := e.line++e.saved.drop e.line.length}
  else if c=DOWN_ARROW then {e with line := e.saved}
  else if c=0 ∨ c=13 then e
  else if c=10 then {e with row := nextRow (e.row+8+e.line.length),line := []}
  else if c=9 then {e with line := e.line++[32,32,32,32]}
  else if c=KBD_DEL then {e with line := e.line.dropLast}
  else {e with line := e.line++[c]}

/-- The line ends on the screen, and a saved line leaves a null behind it in its array. -/
structure Editor.Fits (e : Editor) : Prop where
  /-- The line and the cell behind it. -/
  line : e.row+8+e.line.length<VGA_SIZE
  /-- The saved line. -/
  saved : e.saved.length<CMD_SIZE

/-- A key of the table that leaves an editor that fits. -/
def Editor.Accepts (e : Editor) (c : ℕ) : Prop :=
  (c<2^8 ∨ c=UP_ARROW ∨ c=DOWN_ARROW) ∧ (e.key c).Fits

/-- Characters that are printed as they are. -/
def Ordinary (c : ℕ) : Prop := c≠0 ∧ c≠13 ∧ c≠10 ∧ c≠9 ∧ c≠KBD_DEL

instance (c : ℕ) : Decidable (Ordinary c) := inferInstanceAs (Decidable (_ ∧ _))

/-- What the screen shows of an editor: the prompt and the line behind it, read back from
the console as it is. -/
structure Displays (sh : Shell) (e : Editor) : Prop where
  /-- Only the screen was used. -/
  inside : Inside sh.console
  /-- The position is behind the line. -/
  pos : sh.console.fbPos=e.row+8+e.line.length
  /-- The prompt and the line, and nothing behind them. -/
  cells : ∀ k,e.row+k<VGA_SIZE →
    (sh.console.frameBuf (e.row+k : ℕ)).symbol=(promptText++e.line).getD k 0
  /-- The line that the console gives back. -/
  written : (fbLastWrittenBuf sh.console).2=some (e.row+8,e.line.length)
  /-- Its characters. -/
  out : ∀ k<e.line.length,sh.console.fbOut (e.row+8+k : ℕ)=e.line.getD k 0

/-! ## Characters of lists -/

/-- A list with one more character. -/
theorem getD_concat (text : List ℕ) (c k : ℕ) :
    (text++[c]).getD k 0=if k=text.length then c else text.getD k 0 := by
  rcases Nat.lt_trichotomy k text.length with hlt|rfl|hgt
  · rw [if_neg hlt.ne,List.getD_append _ _ _ _ hlt]
  · rw [if_pos rfl,List.getD_append_right _ _ _ _ le_rfl,Nat.sub_self]
    rfl
  · rw [if_neg hgt.ne',List.getD_eq_default _ _ hgt.le,List.getD_eq_default]
    rw [List.length_append,List.length_singleton]
    exact hgt

/-- A list written over the front of another. -/
theorem getD_over (line saved : List ℕ) (k : ℕ) :
    (line++saved.drop line.length).getD k 0=
      if k<line.length then line.getD k 0 else saved.getD k 0 := by
  by_cases hk : k<line.length
  · rw [if_pos hk,List.getD_append _ _ _ _ hk]
  · rw [if_neg hk,List.getD_append_right _ _ _ _ (Nat.not_lt.mp hk)]
    simp only [List.getD_eq_getElem?_getD,List.getElem?_drop,Nat.add_sub_cancel' (Nat.not_lt.mp hk)]

/-! ## The sheet -/

/-- Nothing stands from the position on. -/
def Fresh (p : Paper) : Prop := ∀ i,p.pos ≤ i → p.symbol i=0 ∧ p.kept i=false

/-- Text from a cell to the position, the first cells of it not deletable, and nothing
behind. -/
structure Carries (p : Paper) (base front : ℕ) (text : List ℕ) : Prop where
  /-- The position. -/
  pos : p.pos=base+text.length
  /-- The text. -/
  symbol : ∀ k,p.symbol (base+k)=text.getD k 0
  /-- Its front. -/
  kept : ∀ k,p.kept (base+k)=decide (k<front)

variable {p : Paper} {base front : ℕ} {text : List ℕ}

/-- The empty text. -/
theorem Fresh.carries (h : Fresh p) : Carries p p.pos 0 [] :=
  ⟨rfl,fun _ => (h _ (Nat.le_add_right _ _)).1,fun _ => (h _ (Nat.le_add_right _ _)).2⟩

/-- A character more. -/
theorem Carries.put (h : Carries p base front text) (c : ℕ) :
    Carries (p.put c) base front (text++[c]) := by
  refine ⟨?_,fun k => ?_,h.kept⟩
  · rw [Paper.put,h.pos,List.length_append]
    rfl
  · simp only [Paper.put]
    rw [getD_concat,Function.update_apply,h.pos,h.symbol]
    exact if_congr (by omega) rfl rfl

/-- A character more that is not deletable. -/
theorem Carries.mark (h : Carries p base text.length text) (c : ℕ) :
    Carries ((p.mark true).put c) base (text++[c]).length (text++[c]) := by
  have hput := h.put c
  refine ⟨hput.pos,hput.symbol,fun k => ?_⟩
  simp only [Paper.put,Paper.mark]
  rw [Function.update_apply,h.pos,h.kept,List.length_append,List.length_singleton]
  by_cases hk : k=text.length
  · simp [hk]
  · rw [if_neg (by omega)]
    exact decide_eq_decide.mpr (by omega)

/-- The last character is taken back. -/
theorem Carries.delete {c : ℕ} (h : Carries p base front (text++[c])) (hfront : front≤text.length) :
    Carries p.delete base front text := by
  have hlast : p.pos-1=base+text.length := by
    rw [h.pos,List.length_append,List.length_singleton]
    omega
  have hfree : ¬p.kept (base+text.length)=true := by
    rw [h.kept,decide_eq_true_eq]
    omega
  rw [Paper.delete,hlast,if_neg hfree]
  refine ⟨rfl,fun k => ?_,h.kept⟩
  simp only
  rw [Function.update_apply,h.symbol,getD_concat]
  by_cases hk : k=text.length
  · rw [if_pos (by omega),hk,List.getD_eq_default _ _ le_rfl]
  · rw [if_neg (by omega),if_neg hk]

/-- The front is not taken back. -/
theorem Carries.delete_front (h : Carries p base text.length text) (htext : text≠[]) :
    p.delete=p := by
  have hpos := List.length_pos_of_ne_nil htext
  have hlast : p.pos-1=base+(text.length-1) := by
    rw [h.pos]
    omega
  rw [Paper.delete,hlast,if_pos]
  rw [h.kept,decide_eq_true_eq]
  omega

/-- The next line is fresh. -/
theorem Carries.newline (h : Carries p base front text) (hfront : front≤text.length) :
    Fresh p.newline := by
  intro i hi
  simp only [Paper.newline] at hi ⊢
  have hpos := h.pos
  obtain ⟨k,rfl⟩ : ∃ k,i=base+k := ⟨i-base,by omega⟩
  rw [h.symbol,h.kept]
  exact ⟨List.getD_eq_default _ _ (by omega),decide_eq_false (by omega)⟩

/-! ## The console -/

/-- The screen shows a sheet, and only the screen was used. -/
structure On (top : ℕ) (st : Console) (p : Paper) : Prop where
  /-- Indices used. -/
  valid : Valid st
  /-- The window. -/
  shown : Shows top st p

variable {top : ℕ} {st : Console}

/-- A character that is printed as it is. -/
theorem On.symbol (h : On top st p) {c : ℕ} (hc : Ordinary c) (hnext : st.fbPos+1<VGA_SIZE) :
    On top (fbPutc st c) (p.put c) := by
  obtain ⟨hnull,hreturn,hline,htab,hdel⟩ := hc
  have hhere : u16 (st.fbPos+0)<VGA_SIZE := by
    simp only [u16,VGA_SIZE] at *
    omega
  have hfits : NextFits st.fbPos 0 := by
    rw [NextFits,if_pos hhere]
    simp only [u16,VGA_SIZE] at *
    omega
  refine ⟨(inBounds_iff st (.putc c) h.valid).2 ?_,?_⟩
  · rw [Fits,PrintFits,if_neg (by tauto),if_neg htab,if_neg hdel]
    exact hfits
  · rw [fbPutc,fbPrintChar,if_neg hnull,if_neg hreturn,if_neg hline,if_neg htab,if_neg hdel]
    exact h.shown.put hnext ⟨c,FB_WHITE,FB_BLACK⟩

/-- A character that is not deletable. -/
theorem On.symbolKept (h : On top st p) {c : ℕ} (hc : Ordinary c) (hnext : st.fbPos+1<VGA_SIZE) :
    On top (fbPutcAttrs st c true) ((p.mark true).put c) := by
  have hmark : On top (writeAttr st st.fbPos true) (p.mark true) :=
    ⟨⟨h.valid.1,(inside_writeAttr st st.fbPos true).mpr
      ⟨onScreen_natCast.mpr h.valid.1,h.valid.2⟩⟩,h.shown.mark true⟩
  exact hmark.symbol hc hnext

/-- A tab. -/
theorem On.tab (h : On top st p) (hnext : st.fbPos+4<VGA_SIZE) :
    On top (fbPutc st 9) ((fun p => p.put 32)^[4] p) := by
  refine ⟨(inBounds_iff st (.putc 9) h.valid).2 ?_,?_⟩
  · rw [Fits,PrintFits,if_neg (by decide),if_pos rfl]
    exact hnext
  · rw [fbPutc,fbPrintChar,if_neg (by decide),if_neg (by decide),if_neg (by decide),if_pos rfl]
    exact h.shown.spaces 4 hnext

/-- A character is taken back. -/
theorem On.delete (h : On top st p) (hpos : 0<st.fbPos) : On top (fbDeleteChar st) p.delete :=
  ⟨(inBounds_iff st .deleteChar h.valid).2 hpos,h.shown.delete hpos⟩

/-- The next line, after scrolling if need be. -/
theorem On.newline (h : On top st p) : ∃ top',On top' (fbNewline st) p.newline ∧
    (fbNewline st).fbPos=nextRow st.fbPos := by
  obtain ⟨top',hshown⟩ := h.shown.newline
  refine ⟨top',⟨(inBounds_iff st .newline h.valid).2 trivial,hshown⟩,?_⟩
  have hpos := h.valid.1
  have hline : u16 (st.fbPos-st.fbPos%80+80)=st.fbPos-st.fbPos%80+80 := by
    simp only [u16,VGA_SIZE] at *
    omega
  simp only [fbNewline,setFbPos_fbPos,hline,nextRow]
  split
  · rw [(scroll_spec _).2,setFbPos_fbPos,hline]
    simp only [u16,VGA_SIZE] at *
    omega
  · rw [setFbPos_fbPos,hline]

/-- Text that is not deletable, on a fresh sheet. -/
theorem On.printKept (h : On top st p) (hfresh : Fresh p) {text : List ℕ}
    (htext : ∀ c∈text,Ordinary c) (hroom : st.fbPos+text.length<VGA_SIZE) :
    ∃ p',On top (fbPrintAttrs st text true) p' ∧ Carries p' p.pos text.length text := by
  induction text using List.reverseRecOn with
  | nil => exact ⟨p,h,hfresh.carries⟩
  | append_singleton text c ih =>
    rw [List.forall_mem_append,List.forall_mem_singleton] at htext
    rw [List.length_append,List.length_singleton] at hroom
    obtain ⟨p',hon,hcarries⟩ := ih htext.1 (by omega)
    rw [fbPrintAttrs,List.foldl_concat]
    refine ⟨_,hon.symbolKept htext.2 ?_,hcarries.mark c⟩
    have hbefore := h.shown.pos
    have hafter := hon.shown.pos
    rw [hcarries.pos] at hafter
    omega

/-- Looking back finds the last cell that is not deletable. -/
theorem scanBack_last {attrs : ℤ → Bool} {n m : ℕ} (hkept : attrs n=true)
    (hfree : ∀ i,n < i → i≤n+m → attrs (i : ℕ)=false) : (scanBack attrs (n+m)).1=some n := by
  induction m with
  | zero =>
    cases n with
    | zero =>
      rw [Nat.add_zero,scanBack,if_pos (show attrs 0=true from hkept)]
    | succ n =>
      rw [Nat.add_zero,scanBack,if_pos (show attrs ((n : ℤ)+1)=true by exact_mod_cast hkept)]
  | succ m ih =>
    have hhere : ¬attrs ((n+m : ℕ)+1)=true := by
      have := hfree (n+m+1) (by omega) (by omega)
      push_cast at this ⊢
      rw [this]
      exact Bool.false_ne_true
    rw [←Nat.add_assoc,scanBack,if_neg hhere]
    exact ih fun i hlow hhigh => hfree i hlow (by omega)

/-- Printing a new line goes to the next line. -/
theorem fbPutc_line (st : Console) : fbPutc st 10=fbNewline st := by
  rw [fbPutc,fbPrintChar,if_neg (by decide),if_neg (by decide),if_pos rfl]

/-- Printing the delete key deletes. -/
theorem fbPutc_delete (st : Console) : fbPutc st KBD_DEL=fbDeleteChar st := by
  rw [fbPutc,fbPrintChar,if_neg (by decide),if_neg (by decide),if_neg (by decide),
    if_neg (by decide),if_pos rfl]

/-! ## The line on the console -/

/-- The prompt and a line stand on the screen from a cell on. -/
def Holds (st : Console) (row : ℕ) (line : List ℕ) : Prop :=
  ∃ top p,On top st p ∧ Carries p (80*top+row) 8 (promptText++line)

variable {row : ℕ} {line : List ℕ}

/-- The prompt has eight characters. -/
theorem length_prompt (line : List ℕ) : (promptText++line).length=8+line.length :=
  List.length_append

/-- The position is behind the line. -/
theorem Holds.pos (h : Holds st row line) : st.fbPos=row+8+line.length := by
  obtain ⟨top,p,hon,hcarries⟩ := h
  have hpos := hon.shown.pos
  rw [hcarries.pos,length_prompt] at hpos
  omega

/-- A prompt on a fresh sheet. -/
theorem On.prompt (h : On top st p) (hfresh : Fresh p) (hroom : st.fbPos+8<VGA_SIZE) :
    Holds (shellPrompt st) st.fbPos [] := by
  have hprompt : ∀ c∈promptText,Ordinary c := by decide
  obtain ⟨p',hon,hcarries⟩ := h.printKept hfresh hprompt hroom
  rw [←h.shown.pos] at hcarries
  exact ⟨top,p',hon,hcarries⟩

/-- A character is typed. -/
theorem Holds.symbol (h : Holds st row line) {c : ℕ} (hc : Ordinary c)
    (hroom : row+8+line.length+1<VGA_SIZE) : Holds (fbPutc st c) row (line++[c]) := by
  have hpos := h.pos
  obtain ⟨top,p,hon,hcarries⟩ := h
  have hput := hcarries.put c
  rw [List.append_assoc] at hput
  exact ⟨top,_,hon.symbol hc (by omega),hput⟩

/-- Text is printed. -/
theorem Holds.print (h : Holds st row line) {text : List ℕ} (htext : ∀ c∈text,Ordinary c)
    (hroom : row+8+line.length+text.length<VGA_SIZE) :
    Holds (fbPrintBlack st text) row (line++text) := by
  induction text using List.reverseRecOn with
  | nil =>
    rw [List.append_nil]
    exact h
  | append_singleton text c ih =>
    rw [List.forall_mem_append,List.forall_mem_singleton] at htext
    rw [List.length_append,List.length_singleton] at hroom
    rw [fbPrintBlack,List.foldl_concat,←List.append_assoc]
    refine (ih htext.1 (by omega)).symbol htext.2 ?_
    rw [List.length_append]
    omega

/-- A tab is typed. -/
theorem Holds.tab (h : Holds st row line) (hroom : row+8+line.length+4<VGA_SIZE) :
    Holds (fbPutc st 9) row (line++[32,32,32,32]) := by
  have hpos := h.pos
  obtain ⟨top,p,hon,hcarries⟩ := h
  have hput := (((hcarries.put 32).put 32).put 32).put 32
  simp only [List.append_assoc] at hput
  exact ⟨top,_,hon.tab (by omega),hput⟩

/-- The last character of the line is taken back, and nothing of the prompt. -/
theorem Holds.delete (h : Holds st row line) : Holds (fbDeleteChar st) row line.dropLast := by
  have hpos := h.pos
  obtain ⟨top,p,hon,hcarries⟩ := h
  refine ⟨top,p.delete,hon.delete (by omega),?_⟩
  rcases line.eq_nil_or_concat with rfl|⟨line,c,rfl⟩
  · rw [List.append_nil] at hcarries
    have hfront : Carries p (80*top+row) promptText.length promptText := hcarries
    rw [hfront.delete_front (List.cons_ne_nil _ _),List.dropLast_nil,List.append_nil]
    exact hcarries
  · rw [List.concat_eq_append,←List.append_assoc] at hcarries
    rw [List.concat_eq_append,List.dropLast_concat]
    refine hcarries.delete ?_
    rw [length_prompt]
    omega

/-- The whole line is taken back. -/
theorem Holds.deleteAll (h : Holds st row line) : Holds (fbDeleteChar^[line.length] st) row [] := by
  induction line using List.reverseRecOn generalizing st with
  | nil => exact h
  | append_singleton line c ih =>
    rw [List.length_append,List.length_singleton,Function.iterate_succ_apply]
    have hlast := h.delete
    rw [List.dropLast_concat] at hlast
    exact ih hlast

/-- The next line has a prompt. -/
theorem Holds.newline (h : Holds st row line) :
    Holds (shellPrompt (fbNewline st)) (nextRow (row+8+line.length)) [] := by
  have hpos := h.pos
  obtain ⟨top,p,hon,hcarries⟩ := h
  obtain ⟨top',hon',hrow⟩ := hon.newline
  have hfresh : Fresh p.newline := hcarries.newline (by rw [length_prompt]; omega)
  rw [←hpos,←hrow]
  refine hon'.prompt hfresh ?_
  have := hon.valid.1
  rw [hrow,nextRow]
  simp only [VGA_SIZE] at *
  split <;> omega

/-- What the console gives back is the line. -/
theorem Holds.read (h : Holds st row line) : Holds (fbLastWrittenBuf st).1 row line ∧
    (fbLastWrittenBuf st).2=some (row+8,line.length) ∧
    ∀ k<line.length,(fbLastWrittenBuf st).1.fbOut (row+8+k : ℕ)=line.getD k 0 := by
  have hpos := h.pos
  obtain ⟨top,p,hon,hcarries⟩ := h
  have hscreen := hon.valid.1
  have hattrs : ∀ k,row+k<VGA_SIZE → st.frameBufAttrs (row+k : ℕ)=decide (k<8) := by
    intro k hk
    rw [hon.shown.attrs _ hk,←Nat.add_assoc,hcarries.kept]
  have hkept : st.frameBufAttrs (row+7 : ℕ)=true := hattrs 7 (by omega)
  have hfree : ∀ i,row+7 < i → i ≤ row+7+(1+line.length) → st.frameBufAttrs (i : ℕ)=false := by
    intro i hlow hhigh
    obtain ⟨k,rfl⟩ : ∃ k,i=row+k := ⟨i-row,by omega⟩
    rw [hattrs k (by omega)]
    exact decide_eq_false (by omega)
  refine ⟨⟨top,p,?_,hcarries⟩,?_,fun k hk => ?_⟩
  · have hread := hon.shown
    exact ⟨(inBounds_iff st .lastWrittenBuf hon.valid).2 ⟨row+7,by omega,hkept⟩,
      hread.pos,hread.onScreen,hread.cells,hread.out,hread.attrs,hread.blank⟩
  · have hscan := scanBack_last hkept hfree
    rw [←Nat.add_assoc,←show st.fbPos=row+7+1+line.length by omega] at hscan
    have hback : wsub st.fbPos (row+7)=1+line.length := by
      simp only [VGA_SIZE] at hscreen
      rw [wsub_eq (by omega) (by omega)]
      omega
    have hlen : wsub (wsub st.fbPos (row+7)) 1=line.length := by
      simp only [VGA_SIZE] at hscreen
      rw [hback,wsub_eq (by omega) (by omega)]
      omega
    simp only [fbLastWrittenBuf,hscan,Option.map_some,hlen]
  · change st.fbOut (row+8+k : ℕ)=_
    rw [hon.shown.out _ (by omega),←Nat.add_assoc,←Nat.add_assoc,Nat.add_assoc _ 8,
      hcarries.symbol,List.getD_append_right _ _ _ _ (Nat.le_add_right 8 k)]
    exact congrArg (fun i => line.getD i 0) (Nat.add_sub_cancel_left 8 k)

/-- The whole line is taken back after it was read. -/
theorem Holds.clear (h : Holds st row line) :
    Holds (fbDeleteLast (fbLastWrittenBuf st).1 line.length) row [] := by
  have hpos := h.pos
  have hread := h.read.1
  obtain ⟨top,p,hon,-⟩ := h
  have hlen : u16 line.length=line.length := by
    have := hon.valid.1
    simp only [u16,VGA_SIZE] at *
    omega
  rw [fbDeleteLast,hlen]
  exact hread.deleteAll

/-! ## Sessions -/

/-- The screen holds the line of an editor that fits, and the arrays hold its saved line
and no last command. -/
structure Sees (sh : Shell) (e : Editor) : Prop where
  /-- The screen. -/
  holds : Holds sh.console e.row e.line
  /-- The editor. -/
  fits : e.Fits
  /-- The line was typed. -/
  line : ∀ c∈e.line,Ordinary c
  /-- The saved line was typed. -/
  saved : ∀ c∈e.saved,Ordinary c
  /-- The saved line. -/
  curCmd : ∀ k<CMD_SIZE,sh.curCmd k=e.saved.getD k 0
  /-- No last command. -/
  lastCmd : ∀ k,sh.lastCmd k=0

variable {sh : Shell} {e : Editor}

/-- Another line on the console. -/
theorem Sees.console (h : Sees sh e) {st : Console} {row : ℕ} {line : List ℕ}
    (hholds : Holds st row line) (hfits : Editor.Fits ⟨row,line,e.saved⟩)
    (hline : ∀ c∈line,Ordinary c) : Sees {sh with console := st} ⟨row,line,e.saved⟩ :=
  ⟨hholds,hfits,hline,h.saved,h.curCmd,h.lastCmd⟩

/-- The arrow up saves the line. -/
theorem Sees.up (h : Sees sh e) (hfits : (e.key UP_ARROW).Fits) :
    ∃ sh',readStream sh UP_ARROW=some sh' ∧ Sees sh' (e.key UP_ARROW) := by
  obtain ⟨-,hwritten,hout⟩ := h.holds.read
  have hclear := h.holds.clear
  have hline : e.line.length<CMD_SIZE := by
    have := hfits.saved
    rw [Editor.key,if_pos rfl] at this
    simp only [List.length_append] at this
    omega
  have hlast : untilNull sh.lastCmd CMD_SIZE 0=some [] :=
    untilNull_eq (fun k _ => h.lastCmd k) (by simp) le_rfl (by simp)
  have hread : readStream sh UP_ARROW=some {sh with
      console := fbDeleteLast (fbLastWrittenBuf sh.console).1 e.line.length
      curCmd := fun k => if k<e.line.length then
        (fbLastWrittenBuf sh.console).1.fbOut (e.row+8+k : ℕ) else sh.curCmd k} := by
    rw [readStream,if_pos rfl,hwritten]
    simp only [Option.bind_eq_bind,Option.bind_some,if_neg (Nat.not_lt.mpr hline.le),hlast]
    rfl
  refine ⟨_,hread,?_,hfits,?_,?_,?_,h.lastCmd⟩
  all_goals rw [Editor.key,if_pos rfl]
  · exact hclear
  · simp
  · intro c hc
    rcases List.mem_append.mp hc with hc|hc
    · exact h.line c hc
    · exact h.saved c (List.mem_of_mem_drop hc)
  · intro k hk
    simp only [getD_over]
    exact if_ctx_congr Iff.rfl (fun hlt => hout k hlt) fun _ => h.curCmd k hk

/-- The arrow down restores the saved line. -/
theorem Sees.down (h : Sees sh e) (hfits : (e.key DOWN_ARROW).Fits) :
    ∃ sh',readStream sh DOWN_ARROW=some sh' ∧ Sees sh' (e.key DOWN_ARROW) := by
  have hwritten := h.holds.read.2.1
  have hsaved : untilNull sh.curCmd CMD_SIZE 0=some e.saved :=
    untilNull_eq (fun k hk => h.curCmd k (by omega)) (fun c hc => (h.saved c hc).1)
      (Nat.zero_le _) (h.fits.saved.trans_eq (Nat.zero_add _).symm)
  have hkey : e.key DOWN_ARROW={e with line := e.saved} := by
    rw [Editor.key,if_neg (by decide),if_pos rfl]
  rw [hkey] at hfits ⊢
  have hread : readStream sh DOWN_ARROW=some {sh with
      console := fbPrintBlack (fbDeleteLast (fbLastWrittenBuf sh.console).1 e.line.length)
        e.saved} := by
    rw [readStream,if_neg (by decide),if_pos rfl,hwritten]
    simp only [Option.bind_eq_bind,Option.bind_some,hsaved]
  exact ⟨_,hread,h.console (h.holds.clear.print h.saved hfits.line) hfits h.saved⟩

/-- A character changes the line as the editor does. -/
theorem Sees.char (h : Sees sh e) {c : ℕ} (hc : c<2^8) (hfits : (e.key c).Fits) :
    ∃ sh',readStream sh c=some sh' ∧ Sees sh' (e.key c) := by
  have hup : c≠UP_ARROW := by
    rintro rfl
    exact absurd hc (by decide)
  have hdown : c≠DOWN_ARROW := by
    rintro rfl
    exact absurd hc (by decide)
  have hread : readStream sh c=some {sh with
      console := if c=10 then shellPrompt (fbPutc sh.console c) else fbPutc sh.console c} := by
    rw [readStream,if_neg hup,if_neg hdown,Nat.mod_eq_of_lt hc]
  refine ⟨_,hread,?_⟩
  rw [Editor.key,if_neg hup,if_neg hdown] at hfits ⊢
  by_cases hnothing : c=0 ∨ c=13
  · have hputc : fbPutc sh.console c=sh.console := by
      rcases hnothing with rfl|rfl <;> rfl
    rw [if_pos hnothing,if_neg (by omega),hputc]
    exact h
  rw [if_neg hnothing] at hfits ⊢
  by_cases hline : c=10
  · rw [if_pos hline] at hfits ⊢
    rw [if_pos hline,hline,fbPutc_line]
    exact h.console h.holds.newline hfits (by simp)
  rw [if_neg hline] at hfits ⊢
  rw [if_neg hline]
  by_cases htab : c=9
  · rw [if_pos htab] at hfits ⊢
    rw [htab]
    have hroom := hfits.line
    rw [List.length_append] at hroom
    exact h.console (h.holds.tab hroom) hfits (List.forall_mem_append.mpr ⟨h.line,by decide⟩)
  rw [if_neg htab] at hfits ⊢
  by_cases hdel : c=KBD_DEL
  · rw [if_pos hdel] at hfits ⊢
    rw [hdel,fbPutc_delete]
    exact h.console h.holds.delete hfits fun c hc => h.line c (List.mem_of_mem_dropLast hc)
  · rw [if_neg hdel] at hfits ⊢
    have hordinary : Ordinary c := ⟨by tauto,by tauto,hline,htab,hdel⟩
    have hroom := hfits.line
    rw [List.length_append] at hroom
    exact h.console (h.holds.symbol hordinary hroom) hfits
      (List.forall_mem_append.mpr ⟨h.line,List.forall_mem_singleton.mpr hordinary⟩)

/-- A key does to the shell what it does to the editor. -/
theorem Sees.key (h : Sees sh e) {c : ℕ} (hc : e.Accepts c) :
    ∃ sh',readStream sh c=some sh' ∧ Sees sh' (e.key c) := by
  obtain ⟨hcode|rfl|rfl,hfits⟩ := hc
  · exact h.char hcode hfits
  · exact h.up hfits
  · exact h.down hfits

/-- Behind a prompt at the start of the screen, with empty arrays. -/
theorem Holds.start (h : Holds st 0 []) : Sees ⟨st,fun _ => 0,fun _ => 0⟩ ⟨0,[],[]⟩ :=
  ⟨h,⟨by decide,by decide⟩,by simp,by simp,fun _ _ => rfl,fun _ => rfl⟩

/-- The shell starts with an empty line. -/
theorem shellStart_sees (st : Console) : Sees (shellStart st) Editor.start := by
  have hclear : On 0 (fbClear st) emptyPaper :=
    ⟨⟨by norm_num [fbClear],fun i hi => absurd hi (by simp [fbClear])⟩,shows_clear st⟩
  have hfresh : Fresh emptyPaper := fun i _ => ⟨rfl,rfl⟩
  exact (hclear.prompt hfresh (show 0+8<VGA_SIZE by decide)).start

/-- What the screen shows of the editor that the shell sees. -/
theorem Sees.displays (h : Sees sh e) : Displays sh e := by
  obtain ⟨-,hwritten,hout⟩ := h.holds.read
  refine ⟨?_,h.holds.pos,fun k hk => ?_,hwritten,hout⟩
  · obtain ⟨top,p,hon,-⟩ := h.holds
    exact hon.valid.2
  · obtain ⟨top,p,hon,hcarries⟩ := h.holds
    rw [hon.shown.cells _ hk,←Nat.add_assoc,hcarries.symbol]

/-- A session of keys that the editor accepts does to the shell what it does to the
editor. -/
theorem Sees.session (h : Sees sh e) {keys : List ℕ}
    (hkeys : Runs.Along Editor.key Editor.Accepts e keys) :
    ∃ sh',keys.foldlM readStream sh=some sh' ∧ Sees sh' (keys.foldl Editor.key e) := by
  induction keys generalizing sh e with
  | nil => exact ⟨sh,rfl,h⟩
  | cons c keys ih =>
    obtain ⟨hc,hrest⟩ := hkeys
    obtain ⟨sh',hstep,hsees⟩ := h.key hc
    obtain ⟨sh'',hrun,hsees'⟩ := ih hsees hrest
    refine ⟨sh'',?_,hsees'⟩
    rw [List.foldlM_cons,hstep]
    exact hrun

/-- Once the shell is added to the receivers of the keyboard, among others, it is called
with the keys that interrupts bring; as long as lines fit, the screen then shows the
editor's prompt and line behind each other, and the console gives the line back. -/
theorem typed_displays (behind : ℕ → ℕ) (st : Console) {f : ℕ} {before after : List Keyboard.Event}
    (hnull : ∀ g∈Keyboard.added (before++.addReceiver f::after),g≠0)
    (hroom : (Keyboard.added (before++.addReceiver f::after)).length<Keyboard.KBD_INT_REC_NUM)
    (hbefore : f∉Keyboard.added before) (hafter : f∉Keyboard.added after)
    (hkeys : Runs.Along Editor.key Editor.Accepts Editor.start (Keyboard.keys behind after)) :
    ∃ k sh,(before++.addReceiver f::after).foldlM (Keyboard.apply behind) Keyboard.kbdStart=some k ∧
      (Keyboard.keysOf f k.calls).foldlM readStream (shellStart st)=some sh ∧
      Displays sh ((Keyboard.keys behind after).foldl Editor.key Editor.start) := by
  obtain ⟨k,hrun,-,-,hcalls⟩ := Keyboard.kbdStart_registered.run behind hnull
    ((Nat.zero_add _).trans_lt hroom)
  obtain ⟨sh,hsession,hsees⟩ := (shellStart_sees st).session hkeys
  have hof : Keyboard.keysOf f k.calls=Keyboard.keys behind after := by
    have hnone : (Keyboard.keys behind before).flatMap (List.replicate (([] : List ℕ).count f))=[] :=
      List.flatMap_eq_nil_iff.mpr fun _ _ => rfl
    have hcount : (Keyboard.added before++[f]).count f=1 := by
      rw [List.count_append,List.count_eq_zero_of_not_mem hbefore,List.count_singleton_self]
    rw [hcalls,Keyboard.deliveries_append,Keyboard.deliveries]
    change Keyboard.keysOf f (Keyboard.deliveries behind [] before++
      Keyboard.deliveries behind (Keyboard.added before++[f]) after)=_
    rw [Keyboard.keysOf_append,Keyboard.keysOf_deliveries behind [] hbefore,
      Keyboard.keysOf_deliveries behind _ hafter,hnone,hcount,List.nil_append]
    exact List.flatMap_singleton' _
  exact ⟨k,sh,hrun,by rw [hof]; exact hsession,hsees.displays⟩

/-- Two letters, the second of them deleted. -/
theorem typed_displays_letters : ∃ k sh,
    ([]++Keyboard.Event.addReceiver 7::[.interrupt 1 30,.interrupt 1 48,.interrupt 1 83]).foldlM
      (Keyboard.apply fun _ => 0) Keyboard.kbdStart=some k ∧
    (Keyboard.keysOf 7 k.calls).foldlM readStream (shellStart blankConsole)=some sh ∧
    Displays sh ⟨0,[97],[]⟩ :=
  typed_displays (fun _ => 0) blankConsole (by decide) (by decide) (by decide) (by decide)
    ⟨⟨by decide,by decide,by decide⟩,⟨by decide,by decide,by decide⟩,
      ⟨by decide,by decide,by decide⟩,trivial⟩

end XanaduOS.ShellEditing
