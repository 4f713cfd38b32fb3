import XanaduOS.DigitWriters

/-!
# Dates

A format is replaced character by character: some characters stand for a number
of the clock, the others for themselves. A number is written into a local buffer
of 16 bytes, at a place that depends on the caller's size, and copied; numbers of
the time of day are padded to two digits.
-/

namespace XanaduOS.DateFormat

open Word32 Slibc Numerals DigitWriters

/-- Size of the local buffer. -/
abbrev LOCAL_SIZE : ℕ := 16

/-- Mode in which the clock counts in binary-coded decimals. -/
abbrev BCD_MODE : ℕ := 2

/-- What one iteration of the format meets. -/
structure Reading where
  /-- The character of the format. -/
  char : Char
  /-- It is not the end of the format. -/
  plain : char≠NUL
  /-- The byte of the clock. -/
  value : ℕ
  /-- A byte. -/
  value_lt : value<256
  /-- Memory around the local buffer. -/
  stack : ℕ → Char

/-- A value of the clock. -/
def rtcGetVal (timeMode value : ℕ) : ℕ :=
  if timeMode=BCD_MODE then
    ((value&&&0xF0)>>>1+(value&&&0xF0)>>>3+(value&&&0xf))%2^8
  else value

/-- The day of the month, as it is. -/
def rtcGetDayOfMonth (value : ℕ) : ℕ := value

/-- The year. -/
def rtcGetYear (timeMode value : ℕ) : ℕ := (2000+rtcGetVal timeMode value)%2^16

/-- Fill a buffer with null characters. -/
def memset (buf : Buffer) : ℕ → Buffer
  | 0 => buf
  | siz+1 => (memset buf siz).put siz NUL

/-- Copy a number of characters between buffers. -/
def copyTo (buf : Buffer) (str : ℕ) (mem : ℕ → Char) (cpy : ℕ) : ℕ → Buffer
  | 0 => buf
  | len+1 => (copyTo buf str mem cpy len).put (wadd str len) (mem (wadd cpy len))

/-- A number on its way to the buffer of the caller. -/
structure Copied where
  /-- The caller's buffer. -/
  buf : Buffer
  /-- The number of characters. -/
  charsWrote : ℕ

/-- Copy a number with at least two digits. -/
def getTimeStr (mem : ℕ → Char) (res : ℕ) (buf : Buffer) (curBufPos charsWrote : ℕ) :
    Copied :=
  if charsWrote=1 then
    let buf := buf.put curBufPos '0'
    let curBufPos := wadd curBufPos 1
    let charsWrote := wadd charsWrote 1
    ⟨copyTo buf curBufPos mem res charsWrote,charsWrote⟩
  else ⟨copyTo buf curBufPos mem res charsWrote,charsWrote⟩

/-- The loop over the format. -/
structure Formatting where
  /-- The caller's buffer. -/
  buf : Buffer
  /-- The position in it. -/
  curBufPos : ℕ
  /-- Offsets written in local buffers. -/
  locals : List ℕ

/-- The local buffer, filled with null characters. -/
def localBuf (x : Reading) : Buffer := memset ⟨x.stack,[]⟩ LOCAL_SIZE

/-- Write a number and copy it. -/
def putNumber (size : ℕ) (x : Reading) (num : ℕ) (pad : Bool) (st : Formatting) : Formatting :=
  let res := itoa num (localBuf x) size 10
  let copied :=
    if pad=true then getTimeStr res.str.mem res.ret st.buf st.curBufPos res.mul
    else ⟨copyTo st.buf st.curBufPos res.str.mem res.ret res.mul,res.mul⟩
  ⟨copied.buf,wadd st.curBufPos copied.charsWrote,res.str.writes++st.locals⟩

/-- One iteration. -/
def formatChar (timeMode size : ℕ) (x : Reading) (st : Formatting) : Formatting :=
  if x.char= 'h' then putNumber size x (rtcGetVal timeMode x.value) true st
  else if x.char= 's' then putNumber size x (rtcGetVal timeMode x.value) true st
  else if x.char= 'm' then putNumber size x (rtcGetVal timeMode x.value) true st
  else if x.char= 'y' then putNumber size x (rtcGetYear timeMode x.value) false st
  else if x.char= 'd' then putNumber size x (rtcGetDayOfMonth x.value) false st
  else if x.char= 'M' then putNumber size x (rtcGetVal timeMode x.value) false st
  else ⟨st.buf.put st.curBufPos x.char,wadd st.curBufPos 1,
    (localBuf x).writes++st.locals⟩

/-- Format a date into a buffer. -/
def getDateTime (timeMode : ℕ) (format : List Reading) (mem : ℕ → Char) (size : ℕ) :
    Formatting :=
  format.foldl (fun st x => formatChar timeMode size x st) ⟨memset ⟨mem,[]⟩ size,0,[]⟩

/-- Writes stay in both buffers, and there is an end of the text. -/
structure Safe (size : ℕ) (st : Formatting) : Prop where
  /-- Offsets in the caller's buffer. -/
  buf : ∀ i∈st.buf.writes,i<size
  /-- Offsets in local buffers. -/
  locals : ∀ i∈st.locals,i<LOCAL_SIZE
  /-- The null character. -/
  ended : ∃ i<size,st.buf.mem i=NUL

/-! ## Numbers of a format -/

/-- The number that a character stands for, and whether it is padded. -/
def number (timeMode : ℕ) (x : Reading) : Option (ℕ×Bool) :=
  if x.char= 'h' ∨ x.char= 's' ∨ x.char= 'm' then some (rtcGetVal timeMode x.value,true)
  else if x.char= 'y' then some (rtcGetYear timeMode x.value,false)
  else if x.char= 'd' then some (rtcGetDayOfMonth x.value,false)
  else if x.char= 'M' then some (rtcGetVal timeMode x.value,false)
  else none

/-- Length of the text for a character. -/
def width (timeMode : ℕ) (x : Reading) : ℕ :=
  match number timeMode x with
  | some (num,true) => max 2 (decimal num).length
  | some (num,false) => (decimal num).length
  | none => 1

/-- A padded number of one digit. -/
def Short (timeMode : ℕ) (x : Reading) : Prop :=
  ∃ num,number timeMode x=some (num,true) ∧ (decimal num).length=1

/-- A number can be written into the local buffer as the caller's size asks. -/
def Fits (timeMode size : ℕ) (x : Reading) : Prop :=
  ∀ num pad,number timeMode x=some (num,pad) → (decimal num).length<size ∧ size≤LOCAL_SIZE+1

/-- The byte copied behind a padded digit is null. -/
def Closed (timeMode size : ℕ) (x : Reading) : Prop :=
  Short timeMode x → size≤LOCAL_SIZE ∨ x.stack LOCAL_SIZE=NUL

/-- Numbers of the clock are small. -/
theorem number_lt {timeMode num : ℕ} {pad : Bool} {x : Reading}
    (h : number timeMode x=some (num,pad)) : num<2^16 := by
  have hvalue := x.value_lt
  have hval : rtcGetVal timeMode x.value<256 := by
    unfold rtcGetVal
    split
    · exact Nat.mod_lt _ (by norm_num)
    · exact hvalue
  have hyear : rtcGetYear timeMode x.value<2^16 := Nat.mod_lt _ (by norm_num)
  have hday : rtcGetDayOfMonth x.value<256 := hvalue
  unfold number at h
  split at h
  · cases h
    omega
  · split at h
    · cases h
      exact hyear
    · split at h
      · cases h
        omega
      · split at h
        · cases h
          omega
        · cases h

/-- An iteration writes the number of its character. -/
theorem formatChar_number {timeMode num : ℕ} {pad : Bool} {x : Reading}
    (h : number timeMode x=some (num,pad)) (size : ℕ) (st : Formatting) :
    formatChar timeMode size x st=putNumber size x num pad st := by
  unfold number at h
  unfold formatChar
  grind

/-- Another character stands for itself. -/
theorem formatChar_plain {timeMode : ℕ} {x : Reading} (h : number timeMode x=none) (size : ℕ)
    (st : Formatting) :
    formatChar timeMode size x st=
      ⟨st.buf.put st.curBufPos x.char,wadd st.curBufPos 1,(localBuf x).writes++st.locals⟩ := by
  unfold number at h
  unfold formatChar
  grind

/-! ## Buffers -/

/-- A buffer filled with null characters. -/
theorem memset_mem (buf : Buffer) (siz i : ℕ) :
    (memset buf siz).mem i=if i<siz then NUL else buf.mem i := by
  induction siz with
  | zero => rfl
  | succ siz ih =>
    rw [memset]
    rcases Nat.lt_trichotomy i siz with hlt|rfl|hlt
    · rw [Buffer.put_of_ne _ _ hlt.ne,ih,if_pos hlt,if_pos (by omega)]
    · rw [Buffer.put_self,if_pos (Nat.lt_succ_self i)]
    · rw [Buffer.put_of_ne _ _ hlt.ne',ih,if_neg (by omega),if_neg (by omega)]

/-- Offsets filled. -/
theorem mem_memset (buf : Buffer) (siz i : ℕ) :
    i∈(memset buf siz).writes ↔ i<siz ∨ i∈buf.writes := by
  induction siz with
  | zero => simp [memset]
  | succ siz ih =>
    rw [memset,Buffer.put,List.mem_cons,ih,Nat.lt_succ_iff_lt_or_eq,←or_assoc,
      or_comm (a:=i=siz)]

/-- What has been written stays in the log. -/
theorem subset_copyTo (buf : Buffer) (str : ℕ) (mem : ℕ → Char) (cpy len : ℕ) :
    buf.writes⊆(copyTo buf str mem cpy len).writes := by
  induction len with
  | zero => exact List.Subset.refl _
  | succ len ih => exact fun i hi => List.mem_cons_of_mem _ (ih hi)

/-- Each character is copied one byte further behind, into the buffer or not. -/
theorem mem_copyTo (buf : Buffer) (str : ℕ) (mem : ℕ → Char) (cpy : ℕ) {len k : ℕ}
    (hk : k<len) : wadd str k∈(copyTo buf str mem cpy len).writes := by
  induction len with
  | zero => omega
  | succ len ih =>
    rcases Nat.lt_succ_iff_lt_or_eq.mp hk with hlt|rfl
    · exact List.mem_cons_of_mem _ (ih hlt)
    · exact List.mem_cons_self

/-- Padding keeps the log as well. -/
theorem subset_getTimeStr (mem : ℕ → Char) (res : ℕ) (buf : Buffer) (curBufPos charsWrote : ℕ) :
    buf.writes⊆(getTimeStr mem res buf curBufPos charsWrote).buf.writes := by
  unfold getTimeStr
  split
  · exact fun i hi => subset_copyTo _ _ _ _ _ (List.mem_cons_of_mem _ hi)
  · exact subset_copyTo _ _ _ _ _

/-- Bytes behind a copy stay. -/
theorem copyTo_behind (buf : Buffer) (mem : ℕ → Char) {str cpy len i : ℕ} (hstr : str+len<2^32)
    (hi : str+len ≤ i) : (copyTo buf str mem cpy len).mem i=buf.mem i := by
  induction len with
  | zero => rfl
  | succ len ih =>
    have hto : wadd str len=str+len := wadd_eq (by omega)
    rw [copyTo,hto,Buffer.put_of_ne _ _ (by omega),ih (by omega) (by omega)]

/-- Two characters copied. -/
theorem copyTo_two (buf : Buffer) (mem : ℕ → Char) {str cpy : ℕ} (hstr : str+1<2^32)
    (hcpy : cpy+1<2^32) :
    copyTo buf str mem cpy 2=(buf.put str (mem cpy)).put (str+1) (mem (cpy+1)) := by
  have hto : wadd str 0=str := wadd_eq (by omega)
  have hfrom : wadd cpy 0=cpy := wadd_eq (by omega)
  have hto' : wadd str 1=str+1 := wadd_eq hstr
  have hfrom' : wadd cpy 1=cpy+1 := wadd_eq hcpy
  simp only [copyTo,hto,hfrom,hto',hfrom']

/-- A buffer holds a text up to a position, and null characters behind the byte
there. -/
structure Filled (size pos : ℕ) (buf : Buffer) : Prop where
  /-- The text is within the buffer. -/
  le : pos ≤ size
  /-- Nothing is written outside. -/
  writes : ∀ i∈buf.writes,i<size
  /-- Characters of the text. -/
  text : ∀ i<pos,buf.mem i≠NUL
  /-- The rest. -/
  rest : ∀ i,pos < i → i<size → buf.mem i=NUL

section

variable {size pos : ℕ} {buf : Buffer}

/-- One more character. -/
theorem Filled.put (h : Filled size pos buf) (hlt : pos<size) {c : Char} (hc : c≠NUL) :
    Filled size (pos+1) (buf.put pos c) := by
  refine ⟨hlt,?_,?_,?_⟩
  · intro i hi
    rcases List.mem_cons.mp hi with rfl|hi
    · exact hlt
    · exact h.writes i hi
  · intro i hi
    rcases Nat.lt_succ_iff_lt_or_eq.mp hi with hi|rfl
    · rw [Buffer.put_of_ne _ _ hi.ne]
      exact h.text i hi
    · rw [Buffer.put_self]
      exact hc
  · intro i hlo hhi
    rw [Buffer.put_of_ne _ _ (by omega)]
    exact h.rest i (by omega) hhi

/-- The byte behind the text is free. -/
theorem Filled.put_end (h : Filled size pos buf) (hlt : pos<size) (c : Char) :
    Filled size pos (buf.put pos c) := by
  refine ⟨h.le,?_,?_,?_⟩
  · intro i hi
    rcases List.mem_cons.mp hi with rfl|hi
    · exact hlt
    · exact h.writes i hi
  · intro i hi
    rw [Buffer.put_of_ne _ _ (by omega)]
    exact h.text i hi
  · intro i hlo hhi
    rw [Buffer.put_of_ne _ _ (by omega)]
    exact h.rest i hlo hhi

/-- More characters. -/
theorem Filled.copyTo (h : Filled size pos buf) (hsize : size<2^32) {mem : ℕ → Char}
    {cpy len : ℕ} (hcpy : cpy+len<2^32) (hfit : pos+len ≤ size)
    (htext : ∀ k<len,mem (cpy+k)≠NUL) :
    Filled size (pos+len) (copyTo buf pos mem cpy len) := by
  induction len with
  | zero => exact h
  | succ len ih =>
    have hto : wadd pos len=pos+len := wadd_eq (by omega)
    have hfrom : wadd cpy len=cpy+len := wadd_eq (by omega)
    rw [DateFormat.copyTo,hto,hfrom]
    exact (ih (by omega) (by omega) fun k hk => htext k (by omega)).put (by omega)
      (htext len (by omega))

end

/-! ## One iteration -/

/-- Bytes of the local buffer. -/
theorem localBuf_mem (x : Reading) (i : ℕ) :
    (localBuf x).mem i=if i<LOCAL_SIZE then NUL else x.stack i := memset_mem _ _ i

/-- Filling the local buffer stays inside. -/
theorem mem_localBuf (x : Reading) (i : ℕ) : i∈(localBuf x).writes ↔ i<LOCAL_SIZE := by
  rw [localBuf,mem_memset]
  simp

/-- The loop is at a position and has stayed inside both buffers. -/
structure Good (size pos : ℕ) (st : Formatting) : Prop where
  /-- The position. -/
  position : st.curBufPos=pos
  /-- The caller's buffer. -/
  filled : Filled size pos st.buf
  /-- Local buffers. -/
  locals : ∀ i∈st.locals,i<LOCAL_SIZE

/-- Something was written outside. -/
def Bad (size : ℕ) (st : Formatting) : Prop :=
  (∃ i∈st.buf.writes,size ≤ i) ∨ ∃ i∈st.locals,LOCAL_SIZE ≤ i

/-- There is room for the text of a character, and for the byte copied behind a
padded digit. -/
def Room (timeMode size pos : ℕ) (x : Reading) : Prop :=
  pos+width timeMode x ≤ size ∧ (Short timeMode x → pos+width timeMode x<size)

section

variable {timeMode size pos num : ℕ} {pad : Bool} {x : Reading} {st : Formatting}

/-- A number that fits stands at the end of the local buffer. -/
theorem itoa_stands (buf : Buffer) (hnum : num<2^16) (hfit : (decimal num).length<size)
    (hsize : size<2^32) : Stands (itoa num buf size 10) buf size (decimal num) := by
  rw [itoa,printNumRec_eq buf (by omega) hsize (by omega)]
  exact written_stands buf hfit

/-- The digits of a number are not null. -/
theorem itoa_digits {buf : Buffer} (h : Stands (itoa num buf size 10) buf size (decimal num)) :
    ∀ k<(decimal num).length,
      (itoa num buf size 10).str.mem ((itoa num buf size 10).ret+k)≠NUL := by
  intro k hk
  rw [h.bytes k hk]
  exact (ne_of_mem_numeral (by norm_num) (by norm_num) (List.get_mem _ _)).1

/-- Writing a number that fits stays in the local buffer. -/
theorem itoa_locals (hst : ∀ i∈st.locals,i<LOCAL_SIZE)
    (h : Stands (itoa num (localBuf x) size 10) (localBuf x) size (decimal num))
    (hsize : size≤LOCAL_SIZE+1) :
    ∀ i∈(itoa num (localBuf x) size 10).str.writes++st.locals,i<LOCAL_SIZE := by
  intro i hi
  rcases List.mem_append.mp hi with hi|hi
  · rcases h.writes i hi with hi|⟨-,hi⟩
    · exact (mem_localBuf x i).mp hi
    · exact Nat.lt_of_succ_lt_succ (hi.trans_le hsize)
  · exact hst i hi

/-- A number that is not padded is copied. -/
theorem putNumber_copy (hmul : (itoa num (localBuf x) size 10).mul=(decimal num).length)
    (h : pad=true → (decimal num).length≠1) :
    putNumber size x num pad st=
      ⟨copyTo st.buf st.curBufPos (itoa num (localBuf x) size 10).str.mem
        (itoa num (localBuf x) size 10).ret (decimal num).length,
        wadd st.curBufPos (decimal num).length,
        (itoa num (localBuf x) size 10).str.writes++st.locals⟩ := by
  cases pad with
  | false => simp only [putNumber,hmul,Bool.false_eq_true,if_false]
  | true => simp only [putNumber,getTimeStr,hmul,if_true,if_neg (h rfl)]

/-- A digit is padded, and copied with the byte behind it. -/
theorem putNumber_pad (hmul : (itoa num (localBuf x) size 10).mul=1) :
    putNumber size x num true st=
      ⟨copyTo (st.buf.put st.curBufPos '0') (wadd st.curBufPos 1)
        (itoa num (localBuf x) size 10).str.mem (itoa num (localBuf x) size 10).ret 2,
        wadd st.curBufPos 2,(itoa num (localBuf x) size 10).str.writes++st.locals⟩ := by
  have htwo : wadd 1 1=2 := by decide
  simp only [putNumber,getTimeStr,hmul,if_true,htwo]

/-- A character that stands for itself. -/
theorem good_plain (h : Good size pos st) (hsize : size<2^32) (hx : number timeMode x=none)
    (hroom : pos<size) : Good size (pos+1) (formatChar timeMode size x st) := by
  rw [formatChar_plain hx,h.position]
  refine ⟨wadd_eq (by omega),h.filled.put hroom x.plain,?_⟩
  intro i hi
  rcases List.mem_append.mp hi with hi|hi
  · exact (mem_localBuf x i).mp hi
  · exact h.locals i hi

/-- A number that is not padded. -/
theorem good_copy (h : Good size pos st) (hsize : size≤LOCAL_SIZE+1)
    (hx : number timeMode x=some (num,pad)) (hpad : pad=true → (decimal num).length≠1)
    (hfit : (decimal num).length<size) (hroom : pos+(decimal num).length ≤ size) :
    Good size (pos+(decimal num).length) (formatChar timeMode size x st) := by
  have hword : size<2^32 := hsize.trans_lt (by norm_num)
  have hw := itoa_stands (localBuf x) (number_lt hx) hfit hword
  have hends := hw.ends
  rw [formatChar_number hx,putNumber_copy hw.count hpad,h.position]
  rw [hw.count] at hends
  exact ⟨wadd_eq (by omega),
    h.filled.copyTo hword (by omega) hroom (itoa_digits hw),itoa_locals h.locals hw hsize⟩

/-- A padded digit, with the byte behind it. -/
theorem good_pad (h : Good size pos st) (hsize : size≤LOCAL_SIZE+1)
    (hx : number timeMode x=some (num,true)) (hone : (decimal num).length=1)
    (hroom : pos+3 ≤ size) :
    Good size (pos+2) (formatChar timeMode size x st) ∧
      (formatChar timeMode size x st).buf.mem (pos+2)=(localBuf x).mem (size-1) := by
  have hword : size<2^32 := hsize.trans_lt (by norm_num)
  have hw := itoa_stands (localBuf x) (number_lt hx) (hone.trans_lt (by omega)) hword
  have hends := hw.ends
  have hdigit := itoa_digits hw 0 (by omega)
  have hbehind := hw.frame (size-1) (Or.inr (by omega))
  rw [hw.count,hone] at hends
  have hmul : (itoa num (localBuf x) size 10).mul=1 := hw.count.trans hone
  have hlast : (itoa num (localBuf x) size 10).ret+1=size-1 := by omega
  have hsecond : wadd st.curBufPos 1=pos+1 := by
    rw [h.position]
    exact wadd_eq (by omega)
  rw [formatChar_number hx,putNumber_pad hmul,hsecond,h.position,
    copyTo_two _ _ (by omega) (by omega),hlast]
  refine ⟨⟨wadd_eq (by omega),?_,itoa_locals h.locals hw hsize⟩,?_⟩
  · exact ((h.filled.put (by omega) (by decide)).put (by omega) hdigit).put_end (by omega) _
  · rw [Buffer.put_self,hbehind]

/-- A number has a digit. -/
theorem decimal_length_pos (num : ℕ) : 0<(decimal num).length :=
  List.length_pos_iff.mpr (numeral_ne_nil digitChar 10 num)

/-- Width of a number that is not padded. -/
theorem width_copy (hx : number timeMode x=some (num,pad))
    (hpad : pad=true → (decimal num).length≠1) : width timeMode x=(decimal num).length := by
  have hpos := decimal_length_pos num
  rw [width,hx]
  cases pad with
  | false => rfl
  | true =>
    have hne := hpad rfl
    exact max_eq_right (by omega)

/-- Width of a padded digit. -/
theorem width_pad (hx : number timeMode x=some (num,true)) (hone : (decimal num).length=1) :
    width timeMode x=2 := by
  rw [width,hx]
  exact max_eq_left (by omega)

/-- A character that stands for itself is not short. -/
theorem not_short_plain (hx : number timeMode x=none) : ¬Short timeMode x := by
  rintro ⟨num,hsome,-⟩
  rw [hx] at hsome
  cases hsome

/-- A number that is not padded is not short. -/
theorem not_short (hx : number timeMode x=some (num,pad))
    (hpad : pad=true → (decimal num).length≠1) : ¬Short timeMode x := by
  rintro ⟨num',hx',hone⟩
  rw [hx,Option.some.injEq,Prod.mk.injEq] at hx'
  exact hpad hx'.2 (hx'.1▸hone)

/-- An iteration with room goes on. The byte behind its text is null unless it was
copied from behind the local buffer. -/
theorem step_good (h : Good size pos st) (hsize : size<2^32) (hfits : Fits timeMode size x)
    (hroom : Room timeMode size pos x) :
    Good size (pos+width timeMode x) (formatChar timeMode size x st) ∧
      (pos+width timeMode x<size →
        ((formatChar timeMode size x st).buf.mem (pos+width timeMode x)=NUL ↔
          Closed timeMode size x)) := by
  obtain ⟨hwidth,hshort⟩ := hroom
  rcases hx : number timeMode x with _|⟨num,pad⟩
  · have hone : width timeMode x=1 := by rw [width,hx]
    have hnot : ¬Short timeMode x := not_short_plain hx
    rw [hone] at hwidth ⊢
    refine ⟨good_plain h hsize hx (by omega),fun hlt => ?_⟩
    rw [formatChar_plain hx,h.position,Buffer.put_of_ne _ _ (by omega),
      h.filled.rest _ (by omega) hlt]
    exact iff_of_true rfl fun hs => absurd hs hnot
  · obtain ⟨hfit,hle⟩ := hfits num pad hx
    by_cases hpad : pad=true → (decimal num).length≠1
    · rw [width_copy hx hpad] at hwidth ⊢
      have hpos := decimal_length_pos num
      have hw := itoa_stands (localBuf x) (number_lt hx) hfit hsize
      refine ⟨good_copy h hle hx hpad hfit hwidth,fun hlt => ?_⟩
      rw [formatChar_number hx,putNumber_copy hw.count hpad,h.position,
        copyTo_behind _ _ (by omega) le_rfl,h.filled.rest _ (by omega) hlt]
      exact iff_of_true rfl fun hs => absurd hs (not_short hx hpad)
    · push Not at hpad
      obtain ⟨rfl,hone⟩ := hpad
      have hpads : Short timeMode x := ⟨num,hx,hone⟩
      have hlt := hshort hpads
      rw [width_pad hx hone] at hlt ⊢
      obtain ⟨hgood,hbehind⟩ := good_pad h hle hx hone (by omega)
      refine ⟨hgood,fun _ => ?_⟩
      rw [hbehind,localBuf_mem]
      split
      · exact iff_of_true rfl fun _ => Or.inl (by omega)
      · rename_i hge
        have hseventeen : size=LOCAL_SIZE+1 := by
          have h16 : LOCAL_SIZE=16 := rfl
          omega
        rw [hseventeen,Nat.add_sub_cancel]
        exact ⟨fun hnul _ => Or.inr hnul,fun hclosed => (hclosed hpads).resolve_left (by omega)⟩

/-- A number that does not fit is written outside the local buffer. -/
theorem bad_number (hsize : size<2^32) (hpos : 0<size) (hx : number timeMode x=some (num,pad))
    (hnot : ¬((decimal num).length<size ∧ size≤LOCAL_SIZE+1)) :
    Bad size (formatChar timeMode size x st) := by
  have hlen := decimal_length_pos num
  have hshort : (decimal num).length≤10 :=
    decimal_length_le ((number_lt hx).trans (by norm_num))
  have hwrites : ∀ k<(decimal num).length,
      wsub (wsub size (1+k)) 1∈(formatChar timeMode size x st).locals := by
    intro k hk
    rw [formatChar_number hx]
    exact List.mem_append_left _ (mem_printNumRec (localBuf x) (by omega) hk)
  have h16 : LOCAL_SIZE=16 := rfl
  rcases Nat.lt_or_ge (decimal num).length size with hfit|hlong
  · -- the last digit is written in front of the last byte of the caller
    refine Or.inr ⟨_,hwrites 0 hlen,?_⟩
    rw [wsub_wsub hsize (by omega)]
    omega
  · -- the digits reach below the local buffer
    refine Or.inr ⟨_,hwrites (size-1) (by omega),?_⟩
    have hall : wsub size (1+(size-1))=0 := by
      rw [wsub_eq (by omega) hsize]
      omega
    rw [hall]
    decide

/-- The byte behind the caller's buffer is written when a text reaches it. -/
theorem bad_room (h : Good size pos st) (hsize : size<2^32) (hfits : Fits timeMode size x)
    (hnot : ¬Room timeMode size pos x) : size∈(formatChar timeMode size x st).buf.writes := by
  have hle := h.filled.le
  rcases hx : number timeMode x with _|⟨num,pad⟩
  · have hone : width timeMode x=1 := by rw [width,hx]
    have hshort : ¬Short timeMode x := not_short_plain hx
    have hfull : pos=size := by
      by_contra hne
      exact hnot ⟨by omega,fun hs => absurd hs hshort⟩
    rw [formatChar_plain hx,h.position,hfull]
    exact List.mem_cons_self
  · obtain ⟨hfit,hlocal⟩ := hfits num pad hx
    have hw := itoa_stands (localBuf x) (number_lt hx) hfit hsize
    have h16 : LOCAL_SIZE=16 := rfl
    by_cases hpad : pad=true → (decimal num).length≠1
    · have hlong : size<pos+(decimal num).length := by
        by_contra hle'
        rw [←width_copy hx hpad] at hle'
        exact hnot ⟨by omega,fun hs => absurd hs (not_short hx hpad)⟩
      have hat : wadd pos (size-pos)=size := by
        rw [wadd_eq (by omega)]
        omega
      rw [formatChar_number hx,putNumber_copy hw.count hpad,h.position]
      have hreach : size-pos<(decimal num).length := by omega
      have hmem := mem_copyTo st.buf pos (itoa num (localBuf x) size 10).str.mem
        (itoa num (localBuf x) size 10).ret hreach
      rwa [hat] at hmem
    · push Not at hpad
      obtain ⟨rfl,hone⟩ := hpad
      have hlong : size≤pos+2 := by
        by_contra hlt
        rw [←width_pad hx hone] at hlt
        exact hnot ⟨by omega,fun _ => by omega⟩
      rw [formatChar_number hx,putNumber_pad (hw.count.trans hone),h.position]
      rcases hle.lt_or_eq with hlt|heq
      · have hat : wadd (wadd pos 1) (size-pos-1)=size := by
          rw [wadd_eq (by omega : pos+1<2^32),wadd_eq (by omega)]
          omega
        have hreach : size-pos-1<2 := by omega
        have hmem := mem_copyTo (st.buf.put pos '0') (wadd pos 1)
          (itoa num (localBuf x) size 10).str.mem (itoa num (localBuf x) size 10).ret hreach
        rwa [hat] at hmem
      · refine subset_copyTo _ _ _ _ _ ?_
        rw [heq]
        exact List.mem_cons_self

/-- An iteration without room writes outside. -/
theorem step_bad (h : Good size pos st) (hpos : 0<size) (hsize : size<2^32)
    (hnot : ¬(Fits timeMode size x ∧ Room timeMode size pos x)) :
    Bad size (formatChar timeMode size x st) := by
  by_cases hfits : Fits timeMode size x
  · have hroom : ¬Room timeMode size pos x := fun hroom => hnot ⟨hfits,hroom⟩
    exact Or.inl ⟨size,bad_room h hsize hfits hroom,le_rfl⟩
  · unfold Fits at hfits
    push Not at hfits
    obtain ⟨num,pad,hx,hlong⟩ := hfits
    exact bad_number hsize hpos hx fun hfit => absurd hfit.2 (Nat.not_le.mpr (hlong hfit.1))

/-- What was written outside stays in the log. -/
theorem bad_formatChar (h : Bad size st) : Bad size (formatChar timeMode size x st) := by
  have hlogs : st.buf.writes⊆(formatChar timeMode size x st).buf.writes ∧
      st.locals⊆(formatChar timeMode size x st).locals := by
    rcases hx : number timeMode x with _|⟨num,pad⟩
    · rw [formatChar_plain hx]
      exact ⟨List.subset_cons_self _ _,List.subset_append_right _ _⟩
    · rw [formatChar_number hx]
      refine ⟨?_,List.subset_append_right _ _⟩
      cases pad with
      | false => exact subset_copyTo _ _ _ _ _
      | true => exact subset_getTimeStr _ _ _ _ _
  rcases h with ⟨i,hi,hle⟩|⟨i,hi,hle⟩
  · exact Or.inl ⟨i,hlogs.1 hi,hle⟩
  · exact Or.inr ⟨i,hlogs.2 hi,hle⟩

end

/-! ## Whole formats -/

/-- Length of the text for a format. -/
def textLength (timeMode : ℕ) (format : List Reading) : ℕ := (format.map (width timeMode)).sum

/-- Numbers fit in the local buffer, the text and its end fit in the caller's, and
if they fill it, the byte behind the text is null. -/
structure WithinBounds (timeMode size : ℕ) (format : List Reading) : Prop where
  /-- Numbers. -/
  fits : ∀ x∈format,Fits timeMode size x
  /-- The text. -/
  short : textLength timeMode format<size
  /-- The end. -/
  closed : textLength timeMode format+1=size → ∀ x∈format.getLast?,Closed timeMode size x

/-- The loop from a position. -/
def formatFrom (timeMode size : ℕ) (format : List Reading) (st : Formatting) : Formatting :=
  format.foldl (fun st x => formatChar timeMode size x st) st

section

variable {timeMode size pos : ℕ} {st : Formatting}

/-- A run that has written outside is not safe. -/
theorem not_safe_of_bad (h : Bad size st) : ¬Safe size st := by
  rintro ⟨hbuf,hlocals,-⟩
  rcases h with ⟨i,hi,hle⟩|⟨i,hi,hle⟩
  · exact absurd (hbuf i hi) (Nat.not_lt.mpr hle)
  · exact absurd (hlocals i hi) (Nat.not_lt.mpr hle)

/-- What was written outside stays in the log of a run. -/
theorem bad_formatFrom (format : List Reading) (h : Bad size st) :
    Bad size (formatFrom timeMode size format st) := by
  induction format generalizing st with
  | nil => exact h
  | cons x format ih => exact ih (bad_formatChar h)

/-- At the end, the loop is safe if there is a null character behind the text. -/
theorem safe_iff_of_good (h : Good size pos st) :
    Safe size st ↔ pos<size ∧ (pos+1=size → st.buf.mem pos=NUL) := by
  constructor
  · rintro ⟨-,-,i,hi,hnul⟩
    have hle : pos ≤ i := by
      by_contra hlt
      exact h.filled.text i (Nat.not_le.mp hlt) hnul
    refine ⟨hle.trans_lt hi,fun heq => ?_⟩
    obtain rfl : pos=i := by omega
    exact hnul
  · rintro ⟨hlt,hend⟩
    refine ⟨h.filled.writes,h.locals,?_⟩
    by_cases heq : pos+1=size
    · exact ⟨pos,hlt,hend heq⟩
    · exact ⟨pos+1,by omega,h.filled.rest _ (by omega) (by omega)⟩

/-- The last character of a format that is not empty. -/
theorem closed_cons (x : Reading) (format : List Reading) :
    (if format=[] then Closed timeMode size x else ∀ y∈format.getLast?,Closed timeMode size y) ↔
      ∀ y∈(x::format).getLast?,Closed timeMode size y := by
  cases format with
  | nil => simp
  | cons y format => simp [List.getLast?_cons_cons]

/-- A run is safe if numbers fit, and text and end fit behind the position. -/
theorem safe_formatFrom (hpos : 0<size) (hsize : size<2^32) (format : List Reading)
    {last : Prop} (h : Good size pos st) (hlast : pos<size → (st.buf.mem pos=NUL ↔ last)) :
    Safe size (formatFrom timeMode size format st) ↔
      (∀ x∈format,Fits timeMode size x) ∧ pos+textLength timeMode format<size ∧
        (pos+textLength timeMode format+1=size →
          if format=[] then last else ∀ x∈format.getLast?,Closed timeMode size x) := by
  induction format generalizing pos st last with
  | nil =>
    have htext : pos+textLength timeMode []=pos := rfl
    rw [formatFrom,List.foldl_nil,safe_iff_of_good h,htext,if_pos rfl]
    refine ⟨fun ⟨hlt,hend⟩ => ⟨by simp,hlt,fun heq => (hlast hlt).mp (hend heq)⟩,?_⟩
    exact fun ⟨_,hlt,hend⟩ => ⟨hlt,fun heq => (hlast hlt).mpr (hend heq)⟩
  | cons x format ih =>
    have hnext : formatFrom timeMode size (x::format) st=
        formatFrom timeMode size format (formatChar timeMode size x st) := rfl
    have htext : pos+textLength timeMode (x::format)=
        pos+width timeMode x+textLength timeMode format := by
      rw [textLength,List.map_cons,List.sum_cons,Nat.add_assoc]
      rfl
    rw [hnext,htext,List.forall_mem_cons,if_neg (List.cons_ne_nil _ _),←closed_cons]
    by_cases hok : Fits timeMode size x ∧ Room timeMode size pos x
    · obtain ⟨hgood,hend⟩ := step_good h hsize hok.1 hok.2
      rw [ih hgood hend,and_iff_right hok.1]
    · refine iff_of_false (not_safe_of_bad (bad_formatFrom format (step_bad h hpos hsize hok))) ?_
      rintro ⟨⟨hfits,-⟩,hlt,-⟩
      exact hok ⟨hfits,by omega,fun _ => by omega⟩

end

/-- Before the first character, the buffer is null. -/
theorem good_start (mem : ℕ → Char) (size : ℕ) :
    Good size 0 ⟨memset ⟨mem,[]⟩ size,0,[]⟩ := by
  refine ⟨rfl,⟨Nat.zero_le _,?_,?_,?_⟩,?_⟩
  · intro i hi
    rw [mem_memset] at hi
    simpa using hi
  · intro i hi
    exact absurd hi (Nat.not_lt_zero i)
  · intro i _ hlt
    rw [memset_mem,if_pos hlt]
  · simp

/-- Formatting a date is safe if and only if numbers fit in the local buffer and text
and end fit in the caller's. -/
theorem safe_iff_withinBounds (timeMode : ℕ) (format : List Reading) (mem : ℕ → Char) (size : ℕ)
    (hpos : 0<size) (hsize : size<2^32) :
    Safe size (getDateTime timeMode format mem size) ↔ WithinBounds timeMode size format := by
  have hstart : 0<size → ((memset ⟨mem,[]⟩ size).mem 0=NUL ↔ True) := by
    intro hlt
    rw [memset_mem,if_pos hlt]
    simp
  have hrun := @safe_formatFrom timeMode size 0 _ hpos hsize format _ (good_start mem size) hstart
  rw [Nat.zero_add] at hrun
  rw [getDateTime]
  refine hrun.trans ?_
  constructor
  · rintro ⟨hfits,hshort,hclosed⟩
    refine ⟨hfits,hshort,fun heq => ?_⟩
    have hend := hclosed heq
    split at hend
    · rename_i hnil
      rw [hnil]
      simp
    · exact hend
  · rintro ⟨hfits,hshort,hclosed⟩
    refine ⟨hfits,hshort,fun heq => ?_⟩
    split
    · trivial
    · exact hclosed heq

/-- A character with a byte of the clock, in memory that is null. -/
def reading (x : Char×ℕ) : Option Reading :=
  if h : x.1≠NUL ∧ x.2<256 then some ⟨x.1,h.1,x.2,h.2,fun _ => NUL⟩ else none

/-- The time of day, 12:34:56. -/
def timeOfDay : List Reading :=
  [('h',12),(':',0),('m',34),(':',0),('s',56)].filterMap reading

/-- The time of day in a buffer of 16 bytes. -/
theorem safe_iff_withinBounds_timeOfDay :
    Safe 16 (getDateTime 0 timeOfDay (fun _ => NUL) 16) ↔ WithinBounds 0 16 timeOfDay :=
  safe_iff_withinBounds 0 timeOfDay (fun _ => NUL) 16 (by decide) (by decide)

/-- The time of day is written past a buffer of 6 bytes. -/
theorem not_safe_timeOfDay : ¬Safe 6 (getDateTime 0 timeOfDay (fun _ => NUL) 6) := by
  intro h
  have hwritten : 6∈(getDateTime 0 timeOfDay (fun _ => NUL) 6).buf.writes := by decide +kernel
  exact absurd (h.buf 6 hwritten) (by decide)

end XanaduOS.DateFormat
