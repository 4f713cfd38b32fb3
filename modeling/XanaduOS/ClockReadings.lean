import XanaduOS.DateFormat
import XanaduOS.DevicePrograms

/-!
# Reading the clock

The clock is read through a pair of ports, one for the register and one for its
value, behind a wait for the end of an update. The kernel shows the time of day
when it starts. On a clock that counts in binary-coded decimals and whose
updates end, the text shown is made of the digits that the clock gave.
-/

namespace XanaduOS.ClockReadings

open Word32 Slibc Numerals DigitWriters DateFormat DevicePrograms

/-! ## The text of a format -/

/-- The text for a character of a format. -/
def text (timeMode : ℕ) (x : Reading) : List Char :=
  match number timeMode x with
  | some (num,true) => if (decimal num).length=1 then '0'::decimal num else decimal num
  | some (num,false) => decimal num
  | none => [x.char]

/-- A buffer starts with a text. -/
def Reads (buf : Buffer) (str : List Char) : Prop :=
  ∀ k (hk : k<str.length),buf.mem k=str.get ⟨k,hk⟩

section

variable {timeMode size pos num : ℕ} {pad : Bool} {x : Reading} {st : Formatting}

/-- Bytes of a copy. -/
theorem copyTo_mem (buf : Buffer) (mem : ℕ → Char) {str cpy len : ℕ} (hstr : str+len<2^32)
    (hcpy : cpy+len<2^32) (i : ℕ) : (copyTo buf str mem cpy len).mem i=
      if str ≤ i ∧ i<str+len then mem (cpy+(i-str)) else buf.mem i := by
  induction len with
  | zero => exact (if_neg (by omega)).symm
  | succ len ih =>
    have hto : wadd str len=str+len := wadd_eq (by omega)
    have hfrom : wadd cpy len=cpy+len := wadd_eq (by omega)
    have ih := ih (by omega) (by omega)
    rw [copyTo,hto,hfrom]
    by_cases hi : i=str+len
    · rw [hi,Buffer.put_self,if_pos (by omega),Nat.add_sub_cancel_left]
    · rw [Buffer.put_of_ne _ _ hi,ih]
      exact if_congr (by omega) rfl rfl

/-- A number that is not padded is its own text. -/
theorem text_copy (hx : number timeMode x=some (num,pad))
    (hpad : pad=true → (decimal num).length≠1) : text timeMode x=decimal num := by
  rw [text,hx]
  cases pad with
  | false => rfl
  | true => exact if_neg (hpad rfl)

/-- A digit is padded by a zero. -/
theorem text_pad (hx : number timeMode x=some (num,true)) (hone : (decimal num).length=1) :
    text timeMode x= '0'::decimal num := by
  rw [text,hx]
  exact if_pos hone

/-- The text for a character is as long as its width. -/
theorem text_length (timeMode : ℕ) (x : Reading) :
    (text timeMode x).length=width timeMode x := by
  rcases hx : number timeMode x with _|⟨num,pad⟩
  · rw [text,width,hx]
    rfl
  · by_cases hpad : pad=true → (decimal num).length≠1
    · rw [text_copy hx hpad,width_copy hx hpad]
    · push Not at hpad
      obtain ⟨rfl,hone⟩ := hpad
      rw [text_pad hx hone,width_pad hx hone,List.length_cons,hone]

/-- An iteration with room keeps the text in front and puts its own behind. -/
theorem formatChar_text (h : Good size pos st) (hsize : size<2^32)
    (hfits : Fits timeMode size x) (hroom : Room timeMode size pos x) :
    (∀ i<pos,(formatChar timeMode size x st).buf.mem i=st.buf.mem i) ∧
      ∀ k (hk : k<(text timeMode x).length),
        (formatChar timeMode size x st).buf.mem (pos+k)=(text timeMode x).get ⟨k,hk⟩ := by
  have hwidth := hroom.1
  rcases hx : number timeMode x with _|⟨num,pad⟩
  · have htext : text timeMode x=[x.char] := by rw [text,hx]
    rw [formatChar_plain hx,h.position]
    refine ⟨fun i hi => Buffer.put_of_ne _ _ hi.ne,fun k hk => ?_⟩
    rw [List.get_of_eq htext ⟨k,hk⟩]
    obtain rfl : k=0 := by
      rw [htext,List.length_singleton] at hk
      omega
    exact Buffer.put_self _ _ _
  · obtain ⟨hfit,hlocal⟩ := hfits num pad hx
    have hw := itoa_stands (localBuf x) (number_lt hx) hfit hsize
    have hends := hw.ends
    rw [hw.count] at hends
    by_cases hpad : pad=true → (decimal num).length≠1
    · rw [width_copy hx hpad] at hwidth
      rw [formatChar_number hx,putNumber_copy hw.count hpad,h.position]
      have hcopied := fun i => copyTo_mem st.buf (itoa num (localBuf x) size 10).str.mem
        (by omega : pos+(decimal num).length<2^32)
        (by omega : (itoa num (localBuf x) size 10).ret+(decimal num).length<2^32) i
      refine ⟨fun i hi => (hcopied i).trans (if_neg (by omega)),fun k hk => ?_⟩
      have hk' : k<(decimal num).length := by rwa [text_copy hx hpad] at hk
      rw [List.get_of_eq (text_copy hx hpad) ⟨k,hk⟩,hcopied,if_pos (by omega),
        Nat.add_sub_cancel_left]
      exact hw.bytes k hk'
    · push Not at hpad
      obtain ⟨rfl,hone⟩ := hpad
      have hroom3 := hroom.2 ⟨num,hx,hone⟩
      rw [width_pad hx hone] at hroom3
      have hsecond : wadd pos 1=pos+1 := wadd_eq (by omega)
      rw [formatChar_number hx,putNumber_pad (hw.count.trans hone),h.position,hsecond]
      have hcopied := fun i => copyTo_mem (st.buf.put pos '0')
        (itoa num (localBuf x) size 10).str.mem (by omega : pos+1+2<2^32)
        (by omega : (itoa num (localBuf x) size 10).ret+2<2^32) i
      refine ⟨fun i hi => ?_,fun k hk => ?_⟩
      · rw [hcopied,if_neg (by omega),Buffer.put_of_ne _ _ hi.ne]
      · rw [List.get_of_eq (text_pad hx hone) ⟨k,hk⟩]
        rw [text_pad hx hone,List.length_cons,hone] at hk
        obtain rfl|rfl : k=0 ∨ k=1 := by omega
        · rw [hcopied,if_neg (by omega)]
          exact Buffer.put_self _ _ _
        · rw [hcopied,if_pos (by omega),Nat.sub_self]
          exact hw.bytes 0 (by omega)

/-- Texts behind a text that a buffer starts with. -/
theorem Reads.append {buf buf' : Buffer} {str more : List Char} (h : Reads buf str)
    (hkeep : ∀ i<str.length,buf'.mem i=buf.mem i)
    (hmore : ∀ k (hk : k < more.length),buf'.mem (str.length+k)=more.get ⟨k,hk⟩) :
    Reads buf' (str++more) := by
  intro k hk
  by_cases hlt : k<str.length
  · rw [hkeep k hlt,h k hlt]
    simp [hlt]
  · have hsplit : str.length+(k-str.length)=k := by omega
    have hlen : k-str.length < more.length := by
      rw [List.length_append] at hk
      omega
    have hbyte := hmore _ hlen
    rw [hsplit] at hbyte
    rw [hbyte]
    simp [List.getElem_append_right (Nat.not_lt.mp hlt)]

/-- A run with room writes the text of its format, and a null character
behind it. -/
theorem formatFrom_reads {str : List Char} (format : List Reading)
    (h : Good size str.length st) (hreads : Reads st.buf str)
    (hend : st.buf.mem str.length=NUL) (hsize : size≤LOCAL_SIZE)
    (hfits : ∀ x∈format,Fits timeMode size x)
    (hroom : str.length+textLength timeMode format<size) :
    Reads (formatFrom timeMode size format st).buf (str++format.flatMap (text timeMode)) ∧
      (formatFrom timeMode size format st).buf.mem
        (str++format.flatMap (text timeMode)).length=NUL := by
  have hword : size<2^32 := hsize.trans_lt (by norm_num)
  induction format generalizing st str with
  | nil =>
    rw [List.flatMap_nil,List.append_nil]
    exact ⟨hreads,hend⟩
  | cons x format ih =>
    have htext : textLength timeMode (x::format)=
        width timeMode x+textLength timeMode format := by
      rw [textLength,List.map_cons,List.sum_cons]
      rfl
    have hx : Fits timeMode size x := hfits x List.mem_cons_self
    have hroomx : Room timeMode size str.length x := ⟨by omega,fun _ => by omega⟩
    obtain ⟨hkeep,hmore⟩ := formatChar_text h hword hx hroomx
    obtain ⟨hgood,hnul⟩ := step_good h hword hx hroomx
    have hlen : (str++text timeMode x).length=str.length+width timeMode x := by
      rw [List.length_append,text_length]
    rw [←hlen] at hgood hnul
    rw [List.flatMap_cons,←List.append_assoc]
    exact ih hgood (hreads.append hkeep hmore)
      ((hnul (by omega)).mpr fun _ => Or.inl hsize)
      (fun y hy => hfits y (List.mem_cons_of_mem x hy)) (by omega)

end

/-! ## The registers -/

/-- Port of the register's number. -/
abbrev CMOS_COMMAND_PORT : ℕ := 0x70

/-- Port of its value. -/
abbrev CMOS_DATA_PORT : ℕ := 0x71

/-- Register of the seconds. -/
abbrev CMOS_SECONDS : BitVec 8 := 0x00#8

/-- Register of the minutes. -/
abbrev CMOS_MINUTES : BitVec 8 := 0x02#8

/-- Register of the hours. -/
abbrev CMOS_HOURS : BitVec 8 := 0x04#8

/-- Register of the day. -/
abbrev CMOS_DAY_OF_MONTH : BitVec 8 := 0x07#8

/-- Register of the month. -/
abbrev CMOS_MONTH : BitVec 8 := 0x08#8

/-- Register of the year. -/
abbrev CMOS_YEAR : BitVec 8 := 0x09#8

/-- Register of the updates. -/
abbrev CMOS_STAT_A : BitVec 8 := 0x0A#8

/-- Register of the mode. -/
abbrev CMOS_STAT_B : BitVec 8 := 0x0B#8

/-- The clock is being updated. -/
abbrev UPDATING : BitVec 8 := 0x80#8

/-- Select a register. -/
def cmosSelectReg (reg : BitVec 8) : PortProg Unit := do
  outb CMOS_COMMAND_PORT reg
  sleepMs 50

/-- Read the selected register. -/
def cmosReadData : PortProg (BitVec 8) := inb CMOS_DATA_PORT

/-- Read the status until no update is going on. Nothing bounds the loop; the
fuel does. -/
def rtcWaitLoop : ℕ → PortProg Bool
  | 0 => pure false
  | fuel+1 => do
    let stat ← cmosReadData
    if stat &&& UPDATING≠0#8 then do
      cmosSelectReg CMOS_STAT_A
      rtcWaitLoop fuel
    else pure true

/-- The byte of a register behind the wait. -/
def rtcByte (fuel : ℕ) (reg : BitVec 8) : PortProg (Option (BitVec 8)) := do
  cmosSelectReg CMOS_STAT_A
  let idle ← rtcWaitLoop fuel
  if idle=true then do
    cmosSelectReg reg
    let value ← cmosReadData
    return some value
  else return none

/-- The byte of the day, which is not waited for. -/
def rtcDayByte : PortProg (Option (BitVec 8)) := do
  cmosSelectReg CMOS_DAY_OF_MONTH
  let value ← cmosReadData
  return some value

/-- The register that a character is read from behind the wait. -/
def waitedReg (c : Char) : Option (BitVec 8) :=
  if c= 'h' then some CMOS_HOURS
  else if c= 's' then some CMOS_SECONDS
  else if c= 'm' then some CMOS_MINUTES
  else if c= 'y' then some CMOS_YEAR
  else if c= 'M' then some CMOS_MONTH
  else none

/-- The byte for a character; one that stands for itself reads none. -/
def charByte (fuel : ℕ) (c : Char) : PortProg (Option (BitVec 8)) :=
  match waitedReg c with
  | some reg => rtcByte fuel reg
  | none => if c= 'd' then rtcDayByte else pure (some 0#8)

/-- A character of a format, with the memory around the local buffer. -/
structure Symbol where
  /-- The character. -/
  char : Char
  /-- It is not the end of the format. -/
  plain : char≠NUL
  /-- Memory around the local buffer. -/
  stack : ℕ → Char

/-- A character with its byte. -/
def Symbol.reading (x : Symbol) (value : BitVec 8) : Reading :=
  ⟨x.char,x.plain,value.toNat,value.isLt,x.stack⟩

/-- The loop over a format, reading the clock as it goes. -/
def getDateTimeLoop (fuel timeMode size : ℕ) :
    List Symbol → Formatting → PortProg (Option Formatting)
  | [],st => pure (some st)
  | x::format,st => do
    let value ← charByte fuel x.char
    match value with
    | none => pure none
    | some value =>
      getDateTimeLoop fuel timeMode size format (formatChar timeMode size (x.reading value) st)

/-- The format of the time of day, with the memory that each turn meets. -/
def timeFormat (stack : ℕ → ℕ → Char) : List Symbol :=
  [⟨'h',by decide,stack 0⟩,⟨':',by decide,stack 1⟩,⟨'m',by decide,stack 2⟩,
    ⟨':',by decide,stack 3⟩,⟨'s',by decide,stack 4⟩]

/-- Bytes of the buffer for the time of day. -/
abbrev DATE_SIZE : ℕ := 16

/-- Read the mode and format the time of day. -/
def rtcInit (fuel : ℕ) (stack : ℕ → ℕ → Char) (mem : ℕ → Char) :
    PortProg (Option Formatting) := do
  cmosSelectReg CMOS_STAT_B
  let timeMode ← cmosReadData
  getDateTimeLoop fuel timeMode.toNat DATE_SIZE (timeFormat stack)
    ⟨memset ⟨mem,[]⟩ DATE_SIZE,0,[]⟩

/-! ## The clock -/

/-- Both digits of a byte are decimal. -/
def Bcd (v : BitVec 8) : Prop := v.toNat/16<10 ∧ v.toNat%16<10

instance (v : BitVec 8) : Decidable (Bcd v) := inferInstanceAs (Decidable (_ ∧ _))

/-- The digits of a byte. -/
def bcdText (v : BitVec 8) : List Char := [digitChar (v.toNat/16),digitChar (v.toNat%16)]

/-- Registers that updates change. -/
def Timed (reg : BitVec 8) : Prop :=
  reg∈[CMOS_SECONDS,CMOS_MINUTES,CMOS_HOURS,CMOS_MONTH,CMOS_YEAR]

instance (reg : BitVec 8) : Decidable (Timed reg) := inferInstanceAs (Decidable (_∈_))

/-- What is known of the clock. -/
structure Chip where
  /-- The register selected. -/
  selected : Option (BitVec 8)
  /-- No update was going on at the last look, and nothing was read since. -/
  settled : Bool
  /-- Looks in a row that saw an update. -/
  flags : ℕ
  /-- Registers read and their bytes, the last one first. -/
  seen : List (BitVec 8×BitVec 8)

/-- The clock's protocol. A register is selected before it is read, one that
updates change is read behind a look that saw none. The clock counts in
binary-coded decimals, and so many looks in a row see the end of an update. -/
def clock (n : ℕ) : Protocol PortCmd PortCmd.Answer Chip where
  allowed s
    | .outb port _ => port=CMOS_COMMAND_PORT
    | .inb port => port=CMOS_DATA_PORT ∧
      ∃ reg,s.selected=some reg ∧ (Timed reg → s.settled=true)
    | .sleepMs _ => True
    | _ => False
  answered s
    | .inb _,v => ∀ reg,s.selected=some reg →
      (reg=CMOS_STAT_A → v &&& UPDATING≠0#8 → s.flags<n) ∧
        (reg=CMOS_STAT_B → v=2#8) ∧ (Timed reg → Bcd v)
    | _,_ => True
  next s
    | .outb _ data,_ => {s with selected := some data}
    | .inb _,v =>
      match s.selected with
      | none => s
      | some reg =>
        if reg=CMOS_STAT_A then
          if v &&& UPDATING≠0#8 then {s with settled := false,flags := s.flags+1}
          else {s with settled := true,flags := 0}
        else {s with settled := false,seen := (reg,v)::s.seen}
    | _,_ => s

section

variable {n fuel : ℕ} {s : Chip} {reg : BitVec 8} {β : Type}

/-- Selecting a register. -/
theorem safe_select {f : Unit → PortProg β} {post : β → Chip → Prop}
    (hf : Safe (clock n) (f ()) {s with selected := some reg} post) :
    Safe (clock n) (cmosSelectReg reg>>=f) s post := by
  refine safe_bind.mpr (safe_outb.mpr ⟨rfl,fun _ => ?_⟩)
  exact ⟨trivial,fun _ _ => hf⟩

/-- Reading the selected register, but the one of the updates. -/
theorem safe_readData {f : BitVec 8 → PortProg β} {post : β → Chip → Prop}
    (hselected : s.selected=some reg) (hreg : reg≠CMOS_STAT_A)
    (hsettled : Timed reg → s.settled=true)
    (hf : ∀ v,(reg=CMOS_STAT_B → v=2#8) → (Timed reg → Bcd v) →
      Safe (clock n) (f v) ⟨some reg,false,s.flags,(reg,v)::s.seen⟩ post) :
    Safe (clock n) (cmosReadData>>=f) s post := by
  refine safe_inb.mpr ⟨⟨rfl,reg,hselected,hsettled⟩,fun v hv => ?_⟩
  obtain ⟨-,hmode,hbcd⟩ := hv reg hselected
  have hnext : (clock n).next s (.inb CMOS_DATA_PORT) v=
      ⟨some reg,false,s.flags,(reg,v)::s.seen⟩ := by
    simp only [clock,hselected,if_neg hreg]
  rw [hnext]
  exact hf v hmode hbcd

/-- A look at the updates. -/
theorem safe_look {f : BitVec 8 → PortProg β} {post : β → Chip → Prop}
    (hselected : s.selected=some CMOS_STAT_A)
    (hbusy : ∀ v,v &&& UPDATING≠0#8 → s.flags<n →
      Safe (clock n) (f v) {s with settled := false,flags := s.flags+1} post)
    (hidle : ∀ v,v &&& UPDATING=0#8 →
      Safe (clock n) (f v) {s with settled := true,flags := 0} post) :
    Safe (clock n) (cmosReadData>>=f) s post := by
  refine safe_inb.mpr ⟨⟨rfl,_,hselected,fun htimed => ?_⟩,fun v hv => ?_⟩
  · exact absurd htimed (by decide)
  · by_cases hflag : v &&& UPDATING=0#8
    · have hnext : (clock n).next s (.inb CMOS_DATA_PORT) v=
          {s with settled := true,flags := 0} := by
        simp only [clock,hselected,if_true,if_neg (not_not_intro hflag)]
      rw [hnext]
      exact hidle v hflag
    · have hnext : (clock n).next s (.inb CMOS_DATA_PORT) v=
          {s with settled := false,flags := s.flags+1} := by
        simp only [clock,hselected,if_true,if_pos hflag]
      rw [hnext]
      exact hbusy v hflag ((hv _ hselected).1 rfl hflag)

/-- The wait ends behind a look that saw no update. -/
theorem safe_rtcWaitLoop (hselected : s.selected=some CMOS_STAT_A) (hle : s.flags≤n)
    (hfuel : n<s.flags+fuel) : Safe (clock n) (rtcWaitLoop fuel) s fun idle t =>
      idle=true ∧ t=⟨some CMOS_STAT_A,true,0,s.seen⟩ := by
  induction fuel generalizing s with
  | zero => omega
  | succ fuel ih =>
    refine safe_look hselected (fun v hv hlt => ?_) (fun v hv => ?_)
    · rw [if_pos hv]
      refine safe_select (ih rfl ?_ ?_)
      · exact hlt
      · change n<s.flags+1+fuel
        omega
    · rw [if_neg (not_not_intro hv)]
      exact ⟨rfl,by rw [←hselected]⟩

/-- The byte of a register behind the wait. -/
theorem safe_rtcByte (hreg : Timed reg) (hle : s.flags≤n) (hfuel : n<fuel) :
    Safe (clock n) (rtcByte fuel reg) s fun r t =>
      ∃ v,r=some v ∧ Bcd v ∧ t=⟨some reg,false,0,(reg,v)::s.seen⟩ := by
  have hne : reg≠CMOS_STAT_A := by
    rintro rfl
    exact absurd hreg (by decide)
  have hwait := @safe_rtcWaitLoop n fuel {s with selected := some CMOS_STAT_A} rfl hle
    (Nat.lt_add_left _ hfuel)
  refine safe_select (hwait.bind fun idle t ht => ?_)
  obtain ⟨rfl,rfl⟩ := ht
  rw [if_pos rfl]
  refine safe_select (safe_readData rfl hne (fun _ => rfl) fun v _ hbcd => ?_)
  exact ⟨v,rfl,hbcd hreg,rfl⟩

/-- The register read for a character, with its byte. -/
def charRead (c : Char) (v : BitVec 8) : List (BitVec 8×BitVec 8) :=
  match waitedReg c with
  | some reg => [(reg,v)]
  | none => if c= 'd' then [(CMOS_DAY_OF_MONTH,v)] else []

/-- The registers read behind the wait are those that updates change. -/
theorem waitedReg_timed {c : Char} (h : waitedReg c=some reg) : Timed reg := by
  unfold waitedReg at h
  split_ifs at h <;> cases h <;> decide

/-- The byte for a character. -/
theorem safe_charByte (c : Char) (hle : s.flags≤n) (hfuel : n<fuel) :
    Safe (clock n) (charByte fuel c) s fun r t => ∃ v,r=some v ∧
      (∀ reg,waitedReg c=some reg → Bcd v) ∧ t.flags≤n ∧
      t.seen.reverse=s.seen.reverse++charRead c v := by
  unfold charByte
  rcases hc : waitedReg c with _|reg
  · by_cases hd : c= 'd'
    · simp only [if_pos hd]
      refine safe_select (safe_readData rfl (by decide) (fun ht => absurd ht (by decide))
        fun v _ _ => ?_)
      have hread : charRead c v=[(CMOS_DAY_OF_MONTH,v)] := by
        rw [charRead,hc]
        exact if_pos hd
      exact ⟨v,rfl,fun _ hreg => absurd hreg (by simp),hle,by simp [hread]⟩
    · simp only [if_neg hd]
      have hread : charRead c 0#8=[] := by
        rw [charRead,hc]
        exact if_neg hd
      exact ⟨0#8,rfl,fun _ hreg => absurd hreg (by simp),hle,by simp [hread]⟩
  · refine (safe_rtcByte (waitedReg_timed hc) hle hfuel).mono fun r t ht => ?_
    obtain ⟨v,rfl,hbcd,rfl⟩ := ht
    refine ⟨v,rfl,fun _ _ => hbcd,Nat.zero_le n,?_⟩
    simp [charRead,hc]

/-- A format is written with the bytes that the clock gave, in order. -/
theorem safe_getDateTimeLoop (timeMode size : ℕ) (format : List Symbol) (st : Formatting)
    (hle : s.flags≤n) (hfuel : n<fuel) :
    Safe (clock n) (getDateTimeLoop fuel timeMode size format st) s fun r t =>
      ∃ vs,List.Forall₂ (fun x v => ∀ reg,waitedReg (Symbol.char x)=some reg → Bcd v) format vs ∧
        r=some (formatFrom timeMode size (List.zipWith Symbol.reading format vs) st) ∧
        t.seen.reverse=s.seen.reverse++
          (List.zipWith (fun x v => charRead (Symbol.char x) v) format vs).flatten := by
  induction format generalizing s st with
  | nil => exact ⟨[],.nil,rfl,(List.append_nil _).symm⟩
  | cons x format ih =>
    refine (safe_charByte x.char hle hfuel).bind fun r t ht => ?_
    obtain ⟨v,rfl,hbcd,hflags,hseen⟩ := ht
    refine (ih (formatChar timeMode size (x.reading v) st) hflags).mono fun r u hu => ?_
    obtain ⟨vs,hvs,rfl,hseen'⟩ := hu
    refine ⟨v::vs,.cons hbcd hvs,rfl,?_⟩
    rw [hseen',hseen,List.append_assoc]
    rfl

end

/-! ## The time of day -/

/-- A byte in binary-coded decimals is decoded. -/
theorem rtcGetVal_bcd : ∀ v : BitVec 8,Bcd v →
    rtcGetVal BCD_MODE v.toNat=10*(v.toNat/16)+v.toNat%16 := by
  decide +kernel

/-- Two digits, the first of which may be a padding zero. -/
theorem decimal_two {d e : ℕ} (hd : d<10) (he : e<10) :
    decimal (10*d+e)=if d=0 then [digitChar e] else [digitChar d,digitChar e] := by
  rw [decimal]
  by_cases h0 : d=0
  · rw [if_pos h0,h0,numeral_of_lt _ (by omega)]
    simp
  · rw [if_neg h0,numeral_of_le _ (by decide) (by omega),
      show (10*d+e)/10=d by omega,show (10*d+e)%10=e by omega,numeral_of_lt _ hd]
    rfl

/-- The text of a padded number is the digits of its byte. -/
theorem text_bcd {x : Reading} {v : BitVec 8}
    (hx : number BCD_MODE x=some (rtcGetVal BCD_MODE v.toNat,true)) (hv : Bcd v) :
    text BCD_MODE x=bcdText v := by
  have hdecimal := decimal_two hv.1 hv.2
  rw [rtcGetVal_bcd v hv] at hx
  by_cases h0 : v.toNat/16=0
  · rw [if_pos h0] at hdecimal
    rw [text_pad hx (by rw [hdecimal]; rfl),hdecimal,bcdText,h0]
    rfl
  · rw [if_neg h0] at hdecimal
    rw [text_copy hx (by rw [hdecimal]; simp),hdecimal]
    rfl

/-- The text of the time of day. -/
def timeText (hour minute second : BitVec 8) : List Char :=
  bcdText hour++ ':'::bcdText minute++ ':'::bcdText second

/-- Before the clock is read. -/
def unread : Chip := ⟨none,false,0,[]⟩

/-- The time of day in the buffer. -/
structure Shown (hour minute second : BitVec 8) (st : Formatting) : Prop where
  /-- The digits of the clock. -/
  reads : Reads st.buf (timeText hour minute second)
  /-- The end of the text. -/
  ended : st.buf.mem (timeText hour minute second).length=NUL
  /-- Nothing was written outside. -/
  safe : DateFormat.Safe DATE_SIZE st

/-- Formatting the time of day. -/
theorem shown_timeFormat (stack : ℕ → ℕ → Char) (mem : ℕ → Char)
    {hour minute second colon colon' : BitVec 8} (hh : Bcd hour) (hm : Bcd minute)
    (hs : Bcd second) : Shown hour minute second (formatFrom BCD_MODE DATE_SIZE
      (List.zipWith Symbol.reading (timeFormat stack) [hour,colon,minute,colon',second])
      ⟨memset ⟨mem,[]⟩ DATE_SIZE,0,[]⟩) := by
  generalize hformat : List.zipWith Symbol.reading (timeFormat stack)
    [hour,colon,minute,colon',second]=format
  have htext : format.flatMap (text BCD_MODE)=timeText hour minute second := by
    subst hformat
    have hcolon : ∀ (x : Symbol) (v : BitVec 8),x.char= ':' →
        text BCD_MODE (x.reading v)=[':'] := by
      intro x v hx
      have hnumber : number BCD_MODE (x.reading v)=none := by simp [number,Symbol.reading,hx]
      rw [text,hnumber]
      simp [Symbol.reading,hx]
    have hdigits : ∀ (x : Symbol) (v : BitVec 8),Bcd v → x.char= 'h' ∨ x.char= 's' ∨ x.char= 'm' →
        text BCD_MODE (x.reading v)=bcdText v := by
      intro x v hv hx
      exact text_bcd (if_pos hx) hv
    simp only [timeFormat,List.zipWith_cons_cons,List.zipWith_nil_left,List.flatMap_cons,
      List.flatMap_nil,List.append_nil]
    rw [hdigits ⟨'h',_,stack 0⟩ hour hh (.inl rfl),hcolon ⟨':',_,stack 1⟩ colon rfl,
      hdigits ⟨'m',_,stack 2⟩ minute hm (.inr (.inr rfl)),hcolon ⟨':',_,stack 3⟩ colon' rfl,
      hdigits ⟨'s',_,stack 4⟩ second hs (.inr (.inl rfl))]
    rfl
  have hlength : textLength BCD_MODE format=8 := by
    have hsum : textLength BCD_MODE format=(format.flatMap (text BCD_MODE)).length := by
      rw [List.length_flatMap,textLength]
      simp only [text_length]
    rw [hsum,htext]
    rfl
  have hfits : ∀ x∈format,Fits BCD_MODE DATE_SIZE x := by
    intro x _ num pad hx
    have hle : (decimal num).length≤10 :=
      decimal_length_le ((number_lt hx).trans (by norm_num))
    exact ⟨hle.trans_lt (by decide),by decide⟩
  have hgood := good_start mem DATE_SIZE
  have hnul : (memset ⟨mem,[]⟩ DATE_SIZE).mem 0=NUL := by
    rw [memset_mem]
    rfl
  obtain ⟨hreads,hend⟩ := @formatFrom_reads BCD_MODE DATE_SIZE _ [] format hgood
    (fun k hk => absurd hk (Nat.not_lt_zero k)) hnul (by decide) hfits (by rw [hlength]; decide)
  rw [List.nil_append,htext] at hreads hend
  have hsafe := @safe_formatFrom BCD_MODE DATE_SIZE 0 _ (by decide) (by decide) format True hgood
    fun _ => by simp [hnul]
  rw [Nat.zero_add,hlength] at hsafe
  exact ⟨hreads,hend,hsafe.mpr ⟨hfits,by decide,fun heq => absurd heq (by decide)⟩⟩

/-- On a clock that counts in binary-coded decimals, the time shown is made of
the digits that the clock gave, each register read behind an update. -/
theorem rtcInit_shows {n fuel : ℕ} (hfuel : n<fuel) (stack : ℕ → ℕ → Char) (mem : ℕ → Char)
    {es : List (Exchange PortCmd PortCmd.Answer)} {q : PortProg (Option Formatting)}
    (h : Talk (rtcInit fuel stack mem) es q) (honest : (clock n).Honest unread es) :
    (clock n).Lawful unread es ∧ ∀ r,q=.done r → ∃ st hour minute second,r=some st ∧
      ((clock n).after unread es).seen.reverse=[(CMOS_STAT_B,2#8),(CMOS_HOURS,hour),
        (CMOS_MINUTES,minute),(CMOS_SECONDS,second)] ∧ Shown hour minute second st := by
  have hsafe : DevicePrograms.Safe (clock n) (rtcInit fuel stack mem) unread fun r t =>
      ∃ st hour minute second,r=some st ∧
        t.seen.reverse=[(CMOS_STAT_B,2#8),(CMOS_HOURS,hour),(CMOS_MINUTES,minute),
          (CMOS_SECONDS,second)] ∧ Shown hour minute second st := by
    refine safe_select (safe_readData rfl (by decide) (fun ht => absurd ht (by decide))
      fun v hmode _ => ?_)
    obtain rfl := hmode rfl
    refine (safe_getDateTimeLoop _ _ _ _ (Nat.zero_le n) hfuel).mono fun r t ht => ?_
    obtain ⟨vs,hvs,rfl,hseen⟩ := ht
    obtain _|⟨hhour,_|⟨-,_|⟨hminute,_|⟨-,_|⟨hsecond,_|_⟩⟩⟩⟩⟩ := hvs
    exact ⟨_,_,_,_,rfl,hseen,shown_timeFormat stack mem (hhour _ rfl) (hminute _ rfl)
      (hsecond _ rfl)⟩
  obtain ⟨hlawful,hrest⟩ := hsafe.talk h honest
  refine ⟨hlawful,fun r hr => ?_⟩
  rw [hr] at hrest
  exact hrest

/-- A clock that stands at 12:34:56 and shows an update at every first look. -/
def standing (s : Chip) : (c : PortCmd) → c.Answer :=
  answering (if s.selected=some CMOS_STAT_A then (if s.flags=0 then UPDATING else 0#8)
    else if s.selected=some CMOS_HOURS then 0x12#8
    else if s.selected=some CMOS_MINUTES then 0x34#8
    else if s.selected=some CMOS_SECONDS then 0x56#8
    else 2#8)

/-- The time that a standing clock shows. -/
theorem rtcInit_shows_standing : ∃ es st hour minute second,
    Talk (rtcInit 2 (fun _ _ => 'x') fun _ => 'x') es (.done (some st)) ∧
      Shown hour minute second st := by
  have honest : ∀ s c,(clock 1).answered s c (standing s c) := by
    intro s c
    cases c with
    | inb port =>
      intro reg hreg
      refine ⟨?_,?_,?_⟩
      · rintro rfl hflag
        by_contra hle
        have hflags : s.flags≠0 := by omega
        simp [standing,answering,hreg,hflags] at hflag
      · rintro rfl
        simp only [standing,answering,hreg,Option.some.injEq]
        rw [if_neg (by decide),if_neg (by decide),if_neg (by decide),if_neg (by decide)]
      · intro htimed
        simp only [standing,answering,hreg,Option.some.injEq]
        have hne : reg≠CMOS_STAT_A := by
          rintro rfl
          exact absurd htimed (by decide)
        rw [if_neg hne]
        split_ifs <;> decide
    | outb port data => trivial
    | sleepMs delay => trivial
    | sleepUs delay => trivial
    | ticks => trivial
  have htalk := talk_play (m:=clock 1) standing (rtcInit 2 (fun _ _ => 'x') fun _ => 'x') unread
  obtain ⟨-,hend⟩ := rtcInit_shows (by decide : 1<2) _ _ htalk (honest_play honest _ _)
  obtain ⟨st,hour,minute,second,hst,-,hshown⟩ := hend _ rfl
  rw [hst] at htalk
  exact ⟨_,st,hour,minute,second,htalk,hshown⟩

end XanaduOS.ClockReadings
