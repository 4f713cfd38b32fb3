import XanaduOS.DigitWriters
import XanaduOS.TextConsole

/-!
# Formatted printing

A format is scanned once. A percent sign raises a flag; the next character
lowers it and selects how the next argument is printed. Numbers are written
into a local buffer, strings are printed up to their null character.

What is printed is the list of characters given to the console, each at offset
zero and in the caller's colours. A string is printed with a 16-bit index, so
its loop may never end; the number of its iterations is bounded by a fuel.
-/

namespace XanaduOS.Printf

open Word32 Slibc Numerals DigitWriters TextConsole

/-- Size of the local buffers. -/
abbrev NUM_SIZE : ℕ := 16

/-- An argument. -/
inductive Arg
  /-- A pointer to a string. -/
  | str (chars : List Char)
  /-- A machine word. -/
  | word (n : BitVec 32)

/-- The loop of printing a string, from an index. -/
def fbPrintFrom (msg : List Char) : ℕ → ℕ → Option (List Char)
  | 0,_ => none
  | fuel+1,i =>
    if charAt msg i=NUL then some []
    else do
      let rest ← fbPrintFrom msg fuel (u16 (i+1))
      some (charAt msg i::rest)

/-- Print a string. -/
def fbPrint (fuel : ℕ) (msg : List Char) : Option (List Char) := fbPrintFrom msg fuel 0

/-- Print a number of characters from an address on, up to a null character. -/
def fbNprint (mem : ℕ → Char) (msg : ℕ) : ℕ → List Char
  | 0 => []
  | siz+1 => if mem msg=NUL then [] else mem msg::fbNprint mem (wadd msg 1) siz

/-- Print a decimal number. -/
def fbPrintNumColor (stack : ℕ → Char) (num : BitVec 32) : List Char :=
  let w := printNumRec num.toNat 1 ⟨stack,[]⟩ NUM_SIZE
  fbNprint w.str.mem w.ret w.mul

/-- Print a hexadecimal number. -/
def fbPrintHexColor (stack : ℕ → Char) (num : BitVec 32) : List Char :=
  let w := printHexRec num.toNat 1 ⟨stack,[]⟩ NUM_SIZE
  fbNprint w.str.mem w.ret w.mul

/-- Print the next argument as a character selects, with the arguments left.
Other characters print nothing; an argument of another type is not defined. -/
def conversion (fuel : ℕ) (stack : ℕ → Char) (c : Char) (args : List Arg) :
    Option (List Char×List Arg) :=
  if c= 's' then
    match args with
    | .str chars::args => (fbPrint fuel chars).map fun out => (out,args)
    | _ => none
  else if c= 'd' then
    match args with
    -- the value is passed on as an unsigned number
    | .word num::args => some (fbPrintNumColor stack num,args)
    | _ => none
  else if c= 'u' then
    match args with
    | .word unum::args => some (fbPrintNumColor stack unum,args)
    | _ => none
  else if c= 'x' then
    match args with
    | .word hex::args => some (fbPrintHexColor stack hex,args)
    | _ => none
  else if c= 'p' then
    match args with
    | .word ptr::args => some (fbPrintHexColor stack ptr,args)
    | _ => none
  else some ([],args)

/-- Scan a format, with the flag and the arguments left. -/
def fbVprintfColor (fuel : ℕ) (stack : ℕ → Char) :
    List Char → Bool → List Arg → Option (List Char)
  | [],_,_ => some []
  | c::msg,formatChar,args =>
    if c= '%' then fbVprintfColor fuel stack msg true args
    else if formatChar=true then do
      let (out,args) ← conversion fuel stack c args
      let rest ← fbVprintfColor fuel stack msg false args
      some (out++rest)
    else do
      let rest ← fbVprintfColor fuel stack msg false args
      some (c::rest)

/-! ## Formats with their arguments -/

/-- A piece of a format with its argument. -/
inductive Item
  /-- A character that stands for itself. -/
  | lit (c : Char) (h : c≠ '%' ∧ c≠NUL)
  /-- A string. -/
  | str (s : CString)
  /-- A signed number. -/
  | int (n : BitVec 32)
  /-- An unsigned number. -/
  | uint (n : BitVec 32)
  /-- A hexadecimal number. -/
  | hex (n : BitVec 32)
  /-- A pointer. -/
  | ptr (n : BitVec 32)

/-- Characters of a piece in the format. -/
def Item.format : Item → List Char
  | .lit c _ => [c]
  | .str _ => ['%','s']
  | .int _ => ['%','d']
  | .uint _ => ['%','u']
  | .hex _ => ['%','x']
  | .ptr _ => ['%','p']

/-- Argument of a piece. -/
def Item.arg : Item → List Arg
  | .lit _ _ => []
  | .str s => [.str s.chars]
  | .int n => [.word n]
  | .uint n => [.word n]
  | .hex n => [.word n]
  | .ptr n => [.word n]

/-- The text of a signed number. -/
def signed (z : ℤ) : List Char := if z<0 then '-'::decimal z.natAbs else decimal z.natAbs

/-- What a piece stands for. -/
def Item.expansion : Item → List Char
  | .lit c _ => [c]
  | .str s => s.chars
  | .int n => signed n.toInt
  | .uint n => decimal n.toNat
  | .hex n => hexadecimal n.toNat
  | .ptr n => hexadecimal n.toNat

/-- Run of the scanner over the pieces of a format. -/
def run (fuel : ℕ) (stack : ℕ → Char) (items : List Item) : Option (List Char) :=
  fbVprintfColor fuel stack (items.flatMap Item.format) false (items.flatMap Item.arg)

/-- A format is printed, with its arguments, as a text: the loops end and the
characters given to the console are those of the text. -/
def Prints (items : List Item) (text : List Char) : Prop :=
  ∃ fuel,∀ more,fuel ≤ more → ∀ stack,run more stack items=some text

/-- Pieces printed as they should be: signed numbers that are not negative, and
strings that a 16-bit index can count. -/
def Item.Plain : Item → Prop
  | .int n => 0≤n.toInt
  | .str s => s.chars.length<2^16
  | _ => True

/-! ## Strings -/

/-- A string counted by the index ends if there is fuel for its characters. -/
theorem fbPrintFrom_short {msg : List Char} (h : NUL∉msg) (hlen : msg.length<2^16) (fuel : ℕ)
    {i : ℕ} (hi : i ≤ msg.length) :
    fbPrintFrom msg fuel i=if msg.length-i<fuel then some (msg.drop i) else none := by
  induction fuel generalizing i with
  | zero => rfl
  | succ fuel ih =>
    rw [fbPrintFrom]
    rcases hi.lt_or_eq with hlt|rfl
    · have hc : charAt msg i=msg[i] := List.getD_eq_getElem _ _ hlt
      have hne : charAt msg i≠NUL := fun heq => h (heq▸hc▸List.getElem_mem hlt)
      have hnext : u16 (i+1)=i+1 := Nat.mod_eq_of_lt (by omega)
      rw [if_neg hne,hnext,ih hlt,hc,List.drop_eq_getElem_cons hlt]
      by_cases hfuel : msg.length-(i+1)<fuel
      · rw [if_pos hfuel,if_pos (by omega)]
        rfl
      · rw [if_neg hfuel,if_neg (by omega)]
        rfl
    · have hc : charAt msg msg.length=NUL := List.getD_eq_default _ _ le_rfl
      rw [if_pos hc,if_pos (by omega),List.drop_length]

/-- The index never reaches the end of a longer string. -/
theorem fbPrintFrom_long {msg : List Char} (h : NUL∉msg) (hlen : 2^16 ≤ msg.length) (fuel : ℕ)
    {i : ℕ} (hi : i<2^16) : fbPrintFrom msg fuel i=none := by
  induction fuel generalizing i with
  | zero => rfl
  | succ fuel ih =>
    have hlt : i < msg.length := hi.trans_le hlen
    have hc : charAt msg i=msg[i] := List.getD_eq_getElem _ _ hlt
    have hne : charAt msg i≠NUL := fun heq => h (heq▸hc▸List.getElem_mem hlt)
    have hnext : u16 (i+1)<2^16 := Nat.mod_lt _ (by norm_num)
    rw [fbPrintFrom,if_neg hne,ih hnext]
    rfl

/-- What printing a string gives, when it ends. -/
theorem fbPrint_some {fuel : ℕ} {s : CString} {out : List Char}
    (h : fbPrint fuel s.chars=some out) : out=s.chars ∧ s.chars.length<2^16 := by
  rcases Nat.lt_or_ge s.chars.length (2^16) with hlen|hlen
  · rw [fbPrint,fbPrintFrom_short s.plain hlen fuel (Nat.zero_le _)] at h
    split at h
    · exact ⟨(Option.some.inj h).symm,hlen⟩
    · cases h
  · rw [fbPrint,fbPrintFrom_long s.plain hlen fuel (by norm_num)] at h
    cases h

/-- A string that the index can count is printed with fuel for every index. -/
theorem fbPrint_short {fuel : ℕ} {s : CString} (hlen : s.chars.length<2^16)
    (hfuel : 2^16≤fuel) : fbPrint fuel s.chars=some s.chars := by
  rw [fbPrint,fbPrintFrom_short s.plain hlen fuel (Nat.zero_le _),if_pos (by omega)]
  rfl

/-! ## Numbers -/

/-- A text in memory is printed up to its length. -/
theorem fbNprint_text {mem : ℕ → Char} {msg : ℕ} {text : List Char} (h : NUL∉text)
    (hfit : msg+text.length<2^32)
    (hmem : ∀ k (hk : k<text.length),mem (msg+k)=text.get ⟨k,hk⟩) :
    fbNprint mem msg text.length=text := by
  induction text generalizing msg with
  | nil => rfl
  | cons c text ih =>
    rw [List.mem_cons,not_or] at h
    rw [List.length_cons] at hfit
    have hc : mem msg=c := hmem 0 (Nat.succ_pos _)
    have hnext : wadd msg 1=msg+1 := wadd_eq (by omega)
    have htail : ∀ k (hk : k<text.length),mem (msg+1+k)=text.get ⟨k,hk⟩ := by
      intro k hk
      have hk' := hmem (k+1) (Nat.succ_lt_succ hk)
      rw [←Nat.add_assoc,Nat.add_right_comm] at hk'
      exact hk'
    rw [List.length_cons,fbNprint,hc,if_neg (Ne.symm h.1),hnext,ih h.2 (by omega) htail]

/-- The text that stands in a local buffer is printed. -/
theorem fbNprint_stands {w : Written} {stack : Buffer} {text : List Char} (h : NUL∉text)
    (hw : Stands w stack NUM_SIZE text) : fbNprint w.str.mem w.ret w.mul=text := by
  have hends := hw.ends
  rw [hw.count] at hends ⊢
  refine fbNprint_text h ?_ hw.bytes
  have hsize : w.ret+text.length+1=16 := hends
  omega

/-- Decimal numbers are printed as unsigned numbers. -/
theorem fbPrintNumColor_eq (stack : ℕ → Char) (num : BitVec 32) :
    fbPrintNumColor stack num=decimal num.toNat := by
  have hlen : (decimal num.toNat).length≤10 := decimal_length_le num.isLt
  have hplain : NUL∉decimal num.toNat := fun hc =>
    (ne_of_mem_numeral (by norm_num) (by norm_num) hc).1 rfl
  rw [fbPrintNumColor,printNumRec_eq _ num.isLt (by norm_num) (by unfold NUM_SIZE; omega)]
  exact fbNprint_stands hplain (written_stands _ (by unfold NUM_SIZE; omega))

/-- Hexadecimal numbers are printed with their prefix. -/
theorem fbPrintHexColor_eq (stack : ℕ → Char) (num : BitVec 32) :
    fbPrintHexColor stack num=hexadecimal num.toNat := by
  have hlen : (hexadecimal num.toNat).length≤10 := hexadecimal_length_le num.isLt
  have hplain : NUL∉hexadecimal num.toNat := by
    intro hc
    rw [hexadecimal,List.mem_cons,List.mem_cons] at hc
    rcases hc with hc|hc|hc
    · exact absurd hc (by decide)
    · exact absurd hc (by decide)
    · exact (ne_of_mem_numeral (by norm_num) le_rfl hc).1 rfl
  rw [fbPrintHexColor,printHexRec_eq _ num.isLt (by norm_num) (by unfold NUM_SIZE; omega)]
  exact fbNprint_stands hplain (written_stands _ (by unfold NUM_SIZE; omega))

/-! ## One piece and whole formats -/

/-- What a piece prints. -/
def Item.printed (fuel : ℕ) : Item → Option (List Char)
  | .lit c _ => some [c]
  | .str s => fbPrint fuel s.chars
  | .int n => some (decimal n.toNat)
  | .uint n => some (decimal n.toNat)
  | .hex n => some (hexadecimal n.toNat)
  | .ptr n => some (hexadecimal n.toNat)

/-- A percent sign makes the next character select a conversion. -/
theorem fbVprintfColor_percent (fuel : ℕ) (stack : ℕ → Char) {c : Char} (hc : c≠ '%')
    (msg : List Char) (args : List Arg) :
    fbVprintfColor fuel stack ('%'::c::msg) false args=
      (conversion fuel stack c args).bind fun r =>
        (fbVprintfColor fuel stack msg false r.2).map fun rest => r.1++rest := by
  rw [fbVprintfColor,if_pos rfl,fbVprintfColor,if_neg hc,if_pos rfl]
  simp only [Option.map_eq_bind]
  rfl

/-- Another character is printed. -/
theorem fbVprintfColor_lit (fuel : ℕ) (stack : ℕ → Char) {c : Char} (hc : c≠ '%')
    (msg : List Char) (args : List Arg) :
    fbVprintfColor fuel stack (c::msg) false args=
      (fbVprintfColor fuel stack msg false args).map fun rest => c::rest := by
  rw [fbVprintfColor,if_neg hc,if_neg Bool.false_ne_true,Option.map_eq_bind]
  rfl

/-- The scanner handles one piece after the other. -/
theorem fbVprintfColor_item (fuel : ℕ) (stack : ℕ → Char) (item : Item) (msg : List Char)
    (args : List Arg) :
    fbVprintfColor fuel stack (item.format++msg) false (item.arg++args)=
      (item.printed fuel).bind fun out =>
        (fbVprintfColor fuel stack msg false args).map fun rest => out++rest := by
  cases item with
  | lit c h => exact fbVprintfColor_lit fuel stack h.1 msg args
  | str s =>
    refine (fbVprintfColor_percent fuel stack (by decide) msg (.str s.chars::args)).trans ?_
    simp [conversion,Item.printed,Option.bind_map]
  | int n =>
    refine (fbVprintfColor_percent fuel stack (by decide) msg (.word n::args)).trans ?_
    simp [conversion,Item.printed,fbPrintNumColor_eq]
  | uint n =>
    refine (fbVprintfColor_percent fuel stack (by decide) msg (.word n::args)).trans ?_
    simp [conversion,Item.printed,fbPrintNumColor_eq]
  | hex n =>
    refine (fbVprintfColor_percent fuel stack (by decide) msg (.word n::args)).trans ?_
    simp [conversion,Item.printed,fbPrintHexColor_eq]
  | ptr n =>
    refine (fbVprintfColor_percent fuel stack (by decide) msg (.word n::args)).trans ?_
    simp [conversion,Item.printed,fbPrintHexColor_eq]

/-- A run handles the first piece, then the others. -/
theorem run_cons (fuel : ℕ) (stack : ℕ → Char) (item : Item) (items : List Item) :
    run fuel stack (item::items)=
      (item.printed fuel).bind fun out =>
        (run fuel stack items).map fun rest => out++rest := by
  rw [run,List.flatMap_cons,List.flatMap_cons,fbVprintfColor_item]
  rfl

/-- A number that is not negative is its own unsigned value. -/
theorem signed_of_nonneg {n : BitVec 32} (h : 0≤n.toInt) : signed n.toInt=decimal n.toNat := by
  have hnat : n.toInt.natAbs=n.toNat := by
    have hn : n.toNat<2^32 := n.isLt
    have hcond : n.toInt=if 2*n.toNat<2^32 then (n.toNat : ℤ) else n.toNat-2^32 :=
      BitVec.toInt_eq_toNat_cond n
    split at hcond <;> omega
  rw [signed,if_neg (by omega),hnat]

/-- A plain piece prints what it stands for. -/
theorem printed_plain {fuel : ℕ} {item : Item} (h : item.Plain) (hfuel : 2^16≤fuel) :
    item.printed fuel=some item.expansion := by
  cases item with
  | lit c hc => rfl
  | str s => exact fbPrint_short h hfuel
  | int n => rw [Item.printed,Item.expansion,signed_of_nonneg h]
  | uint n => rfl
  | hex n => rfl
  | ptr n => rfl

/-- A run over plain pieces prints what they stand for. -/
theorem run_plain {fuel : ℕ} (stack : ℕ → Char) {items : List Item}
    (h : ∀ item∈items,item.Plain) (hfuel : 2^16≤fuel) :
    run fuel stack items=some (items.flatMap Item.expansion) := by
  induction items with
  | nil => rfl
  | cons item items ih =>
    rw [List.forall_mem_cons] at h
    rw [run_cons,printed_plain h.1 hfuel,ih h.2]
    rfl

/-- A piece followed by a text that prints as it should, with the other text, is
plain, and the texts agree. -/
theorem plain_of_printed {fuel : ℕ} {item : Item} {out rest text : List Char}
    (h : item.printed fuel=some out) (heq : out++rest=item.expansion++text) :
    item.Plain ∧ rest=text := by
  cases item with
  | lit c hc =>
    obtain rfl : [c]=out := Option.some.inj h
    exact ⟨trivial,(List.append_right_inj _).mp heq⟩
  | str s =>
    obtain ⟨rfl,hlen⟩ := fbPrint_some h
    exact ⟨hlen,(List.append_right_inj _).mp heq⟩
  | int n =>
    obtain rfl : decimal n.toNat=out := Option.some.inj h
    rcases lt_or_ge n.toInt 0 with hneg|hpos
    · -- a sign is expected where a digit stands
      have hne : decimal n.toNat≠[] := numeral_ne_nil digitChar 10 n.toNat
      rw [Item.expansion,signed,if_pos hneg,List.cons_append] at heq
      have hhead : (decimal n.toNat).head hne= '-' := by
        have hsome := congrArg List.head? heq
        rw [List.head?_append_of_ne_nil _ hne,List.head?_cons,List.head?_eq_some_head hne] at hsome
        exact Option.some.inj hsome
      have hmem : '-'∈decimal n.toNat := hhead▸List.head_mem hne
      exact absurd rfl (ne_of_mem_numeral (by norm_num) (by norm_num) hmem).2
    · rw [Item.expansion,signed_of_nonneg hpos] at heq
      exact ⟨hpos,(List.append_right_inj _).mp heq⟩
  | uint n =>
    obtain rfl : decimal n.toNat=out := Option.some.inj h
    exact ⟨trivial,(List.append_right_inj _).mp heq⟩
  | hex n =>
    obtain rfl : hexadecimal n.toNat=out := Option.some.inj h
    exact ⟨trivial,(List.append_right_inj _).mp heq⟩
  | ptr n =>
    obtain rfl : hexadecimal n.toNat=out := Option.some.inj h
    exact ⟨trivial,(List.append_right_inj _).mp heq⟩

/-- Every piece of a run that prints as it should is plain. -/
theorem plain_of_run {fuel : ℕ} {stack : ℕ → Char} {items : List Item}
    (h : run fuel stack items=some (items.flatMap Item.expansion)) :
    ∀ item∈items,item.Plain := by
  induction items with
  | nil => simp
  | cons item items ih =>
    rw [run_cons,Option.bind_eq_some_iff] at h
    obtain ⟨out,hout,hrest⟩ := h
    obtain ⟨rest,hrun,heq⟩ := Option.map_eq_some_iff.mp hrest
    rw [List.flatMap_cons] at heq
    obtain ⟨hplain,rfl⟩ := plain_of_printed hout heq
    exact List.forall_mem_cons.mpr ⟨hplain,ih hrun⟩

/-- A format is printed as it reads if no signed number is negative and no string
is longer than a 16-bit index can count, and not otherwise. -/
theorem prints_expansion_iff (items : List Item) :
    Prints items (items.flatMap Item.expansion) ↔ ∀ item∈items,item.Plain := by
  constructor
  · rintro ⟨fuel,h⟩
    exact plain_of_run (h fuel le_rfl fun _ => NUL)
  · intro h
    exact ⟨2^16,fun more hmore stack => run_plain stack h hmore⟩

/-- Minus one is not printed with its sign. -/
theorem not_prints_minus_one :
    ¬Prints [.int (-1#32)] ([Item.int (-1#32)].flatMap Item.expansion) := by
  rintro ⟨fuel,h⟩
  have hplain : 0≤BitVec.toInt (-1#32) :=
    plain_of_run (h fuel le_rfl fun _ => NUL) _ (List.mem_singleton_self _)
  exact absurd hplain (by decide)

end XanaduOS.Printf
