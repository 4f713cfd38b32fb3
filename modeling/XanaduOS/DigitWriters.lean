import Mathlib.Data.List.GetD
import XanaduOS.Numerals
import XanaduOS.Slibc

/-!
# Digit writers

A number is written backwards into a buffer, its last digit in front of the
last byte. The writers divide by the base until one digit is left; the
hexadecimal writer then puts the prefix in front. A count passed by reference
tells how many bytes have been written.
-/

namespace XanaduOS.DigitWriters

open Word32 Slibc Numerals

/-- Conversion to a character keeps the low byte. -/
def toChar (n : ℕ) : Char := Char.ofNat (n%2^8)

/-- A buffer with the offsets written so far, the last one first. -/
structure Buffer where
  /-- The bytes. -/
  mem : ℕ → Char
  /-- The log. -/
  writes : List ℕ

/-- Write a byte. -/
def Buffer.put (b : Buffer) (i : ℕ) (c : Char) : Buffer :=
  ⟨Function.update b.mem i c,i::b.writes⟩

/-- The byte written. -/
theorem Buffer.put_self (b : Buffer) (i : ℕ) (c : Char) : (b.put i c).mem i=c := by
  simp [Buffer.put]

/-- The other bytes. -/
theorem Buffer.put_of_ne (b : Buffer) {i j : ℕ} (c : Char) (h : j≠i) :
    (b.put i c).mem j=b.mem j := by
  simp [Buffer.put,h]

/-- What a writer leaves behind. -/
structure Written where
  /-- The buffer. -/
  str : Buffer
  /-- The count. -/
  mul : ℕ
  /-- Offset of the returned pointer in the buffer. -/
  ret : ℕ

/-- Write a decimal number. -/
def printNumRec (num mul : ℕ) (str : Buffer) (siz : ℕ) : Written :=
  if 10≤num then
    let div := num/10
    let c := toChar (wadd (wsub num (wmul div 10)) 48)
    printNumRec div (wadd mul 1) (str.put (wsub (wsub siz mul) 1) c) siz
  else
    let c := toChar (wadd num 48)
    ⟨str.put (wsub (wsub siz mul) 1) c,mul,wsub (wsub siz mul) 1⟩
termination_by num

/-- Write a number; the radix is not read. -/
def itoa (num : ℕ) (buf : Buffer) (siz _radix : ℕ) : Written := printNumRec num 1 buf siz

/-- Character of a hexadecimal digit. -/
def decToHex (num : ℕ) : Char :=
  if 10≤num then toChar (wadd (wadd num 48) 7) else toChar (wadd num 48)

/-- Write a hexadecimal number and its prefix. -/
def printHexRec (num mul : ℕ) (str : Buffer) (siz : ℕ) : Written :=
  if 16≤num then
    let div := num/16
    let c := decToHex (wsub num (wmul div 16))
    printHexRec div (wadd mul 1) (str.put (wsub (wsub siz mul) 1) c) siz
  else
    let c := decToHex num
    let str := str.put (wsub (wsub siz mul) 1) c
    let str := str.put (wsub (wsub siz mul) 2) 'x'
    let str := str.put (wsub (wsub siz mul) 3) '0'
    let mul := wadd mul 2
    ⟨str,mul,wsub (wsub siz mul) 1⟩
termination_by num

/-- Decimal digits and upper-case letters. -/
def digitChar (d : ℕ) : Char := "0123456789ABCDEF".toList.getD d NUL

/-- The text of a decimal number. -/
def decimal (num : ℕ) : List Char := numeral digitChar 10 num

/-- The text of a hexadecimal number, with its prefix. -/
def hexadecimal (num : ℕ) : List Char := '0':: 'x'::numeral digitChar 16 num

/-- A text stands in front of the last byte of a buffer, the pointer and the
count delimit it, and the rest of the buffer is as before. -/
structure Stands (w : Written) (str : Buffer) (siz : ℕ) (text : List Char) : Prop where
  /-- The count. -/
  count : w.mul=text.length
  /-- The text ends in front of the last byte. -/
  ends : w.ret+w.mul+1=siz
  /-- Bytes of the text. -/
  bytes : ∀ k (hk : k<text.length),w.str.mem (w.ret+k)=text.get ⟨k,hk⟩
  /-- Other bytes. -/
  frame : ∀ i,i<w.ret ∨ siz ≤ i+1 → w.str.mem i=str.mem i
  /-- Only bytes of the text are written. -/
  writes : ∀ i∈w.str.writes,i∈str.writes ∨ (w.ret ≤ i ∧ i+1<siz)

/-! ## What one division leaves -/

/-- What a writer has in hand is the last digit. -/
theorem wsub_wmul_div (num base : ℕ) (hnum : num<2^32) :
    wsub num (wmul (num/base) base)=num%base := by
  have hle : num/base*base≤num := Nat.div_mul_le_self num base
  rw [wmul_eq (by omega),wsub_eq hle hnum,Nat.mod_eq_sub_div_mul]

/-- Characters of decimal digits. -/
theorem toChar_digit {d : ℕ} (hd : d<10) : toChar (wadd d 48)=digitChar d := by
  interval_cases d <;> decide

/-- Characters of hexadecimal digits. -/
theorem decToHex_digit {d : ℕ} (hd : d<16) : decToHex d=digitChar d := by
  interval_cases d <;> decide

/-- Characters of numerals are neither null nor a sign. -/
theorem digitChar_ne {d : ℕ} (hd : d<16) : digitChar d≠NUL ∧ digitChar d≠ '-' := by
  interval_cases d <;> decide

/-- Characters of a numeral in a base up to sixteen. -/
theorem ne_of_mem_numeral {b n : ℕ} {c : Char} (hb : 1<b) (hle : b≤16)
    (hc : c∈numeral digitChar b n) : c≠NUL ∧ c≠ '-' := by
  obtain ⟨ds,hds,htext⟩ := numeral_digits digitChar hb n
  rw [htext,List.mem_map] at hc
  obtain ⟨d,hd,rfl⟩ := hc
  exact digitChar_ne ((hds.below d hd).trans_le hle)

/-- A text can be copied with its last character first. -/
theorem strcpy_concat (mem : ℕ → Char) (str : ℕ) (cpy : List Char) (c : Char) :
    strcpy (Function.update mem (str+cpy.length) c) str cpy=strcpy mem str (cpy++[c]) := by
  induction cpy generalizing mem str with
  | nil => rfl
  | cons d cpy ih =>
    have hnext : str+(cpy.length+1)=str+1+cpy.length := by omega
    rw [List.cons_append,strcpy,strcpy,←ih,List.length_cons,hnext,
      Function.update_comm (by omega)]

/-- A text copied in front of what is already written. -/
def written (str : Buffer) (siz mul : ℕ) (text : List Char) : Written :=
  let start := siz-mul-text.length
  ⟨⟨strcpy str.mem start text,List.range' start text.length++str.writes⟩,
    mul+text.length-1,start⟩

/-- Offset of a byte counted from the end of the buffer. -/
theorem wsub_wsub {siz mul k : ℕ} (hsiz : siz<2^32) (h : mul+k ≤ siz) :
    wsub (wsub siz mul) k=siz-mul-k := by
  rw [wsub_eq (by omega) hsiz,wsub_eq (by omega) (by omega)]

/-- Writing one character first extends the text at its end. -/
theorem written_concat {siz mul : ℕ} (str : Buffer) {text : List Char} {c : Char}
    (hsiz : siz<2^32) (h : mul+(text++[c]).length ≤ siz) :
    written (str.put (wsub (wsub siz mul) 1) c) siz (wadd mul 1) text=
      written str siz mul (text++[c]) := by
  rw [List.length_append,List.length_singleton] at h
  have hmul : wadd mul 1=mul+1 := wadd_eq (by omega)
  have hat : wsub (wsub siz mul) 1=siz-(mul+1)-text.length+text.length := by
    rw [wsub_wsub hsiz (by omega)]
    omega
  have hstart : siz-(mul+1)-text.length=siz-mul-(text.length+1) := by omega
  have hcount : mul+1+text.length-1=mul+(text.length+1)-1 := by omega
  simp only [written,Buffer.put,hmul,hat,strcpy_concat,List.length_append,List.length_singleton,
    hstart,hcount,List.range'_concat,Nat.one_mul,List.append_assoc,List.singleton_append]

/-- A decimal number is copied in front of what is already written. -/
theorem printNumRec_eq {num mul siz : ℕ} (str : Buffer) (hnum : num<2^32) (hsiz : siz<2^32)
    (h : mul+(decimal num).length ≤ siz) :
    printNumRec num mul str siz=written str siz mul (decimal num) := by
  fun_induction printNumRec num mul str siz with
  | case1 num mul str hmore div c ih =>
    have hlast : decimal num=decimal div++[digitChar (num%10)] :=
      numeral_of_le digitChar (by norm_num) hmore
    have hc : c=digitChar (num%10) := by
      have hlt : num%10<10 := Nat.mod_lt num (by norm_num)
      rw [←toChar_digit hlt,←wsub_wmul_div num 10 hnum]
    have hdiv : div<2^32 := (Nat.div_le_self num 10).trans_lt hnum
    rw [hlast] at h ⊢
    have hmul : wadd mul 1+(decimal div).length ≤ siz := by
      rw [List.length_append,List.length_singleton] at h
      rw [wadd_eq (by omega)]
      omega
    rw [ih hdiv hmul,hc,written_concat str hsiz h]
  | case2 num mul str hmore c =>
    have hone : decimal num=[digitChar num] := numeral_of_lt digitChar (by omega)
    have hc : c=digitChar num := toChar_digit (by omega)
    rw [hone] at h ⊢
    have hat : wsub (wsub siz mul) 1=siz-mul-1 := wsub_wsub hsiz h
    rw [hc,hat]
    rfl

/-- The prefix of a hexadecimal number. -/
theorem written_prefix {siz mul : ℕ} (str : Buffer) (hsiz : siz<2^32) (h : mul+3 ≤ siz) :
    Written.mk ((str.put (wsub (wsub siz mul) 2) 'x').put (wsub (wsub siz mul) 3) '0')
      (wadd mul 2) (wsub (wsub siz (wadd mul 2)) 1)=written str siz (wadd mul 1) ['0','x'] := by
  have hsecond : siz-mul-2=siz-(mul+1)-2+1 := by omega
  have hfirst : siz-mul-3=siz-(mul+1)-2 := by omega
  have hret : siz-(mul+2)-1=siz-(mul+1)-2 := by omega
  rw [wsub_wsub hsiz (by omega),wsub_wsub hsiz h,wadd_eq (by omega),wadd_eq (by omega),
    wsub_wsub hsiz (by omega),hsecond,hfirst,hret,Buffer.put,Buffer.put,
    Function.update_comm (by omega)]
  rfl

/-- A hexadecimal number and its prefix are copied in front of what is already
written. -/
theorem printHexRec_eq {num mul siz : ℕ} (str : Buffer) (hnum : num<2^32) (hsiz : siz<2^32)
    (h : mul+(hexadecimal num).length ≤ siz) :
    printHexRec num mul str siz=written str siz mul (hexadecimal num) := by
  fun_induction printHexRec num mul str siz with
  | case1 num mul str hmore div c ih =>
    have hlast : hexadecimal num=hexadecimal div++[digitChar (num%16)] := by
      rw [hexadecimal,numeral_of_le digitChar (by norm_num) hmore]
      rfl
    have hc : c=digitChar (num%16) := by
      have hlt : num%16<16 := Nat.mod_lt num (by norm_num)
      rw [←decToHex_digit hlt,←wsub_wmul_div num 16 hnum]
    have hdiv : div<2^32 := (Nat.div_le_self num 16).trans_lt hnum
    rw [hlast] at h ⊢
    have hmul : wadd mul 1+(hexadecimal div).length ≤ siz := by
      rw [List.length_append,List.length_singleton] at h
      rw [wadd_eq (by omega)]
      omega
    rw [ih hdiv hmul,hc,written_concat str hsiz h]
  | case2 num mul str hmore c str1 str2 str3 mul2 =>
    have hone : hexadecimal num=['0','x']++[digitChar num] := by
      rw [hexadecimal,numeral_of_lt digitChar (by omega)]
      rfl
    have hc : c=digitChar num := decToHex_digit (by omega)
    rw [hone] at h ⊢
    rw [←written_concat str hsiz h,←hc]
    exact written_prefix str1 hsiz h

/-- What has been written stays in the log. -/
theorem subset_printNumRec {num mul siz : ℕ} (str : Buffer) :
    str.writes⊆(printNumRec num mul str siz).str.writes := by
  fun_induction printNumRec num mul str siz with
  | case1 num mul str hmore div c =>
    rename_i ih
    exact fun i hi => ih (List.mem_cons_of_mem _ hi)
  | case2 num mul str hmore => exact List.subset_cons_self _ _

/-- Each digit is written one byte further in front, into the buffer or not. -/
theorem mem_printNumRec {num mul siz : ℕ} (str : Buffer)
    (h : mul+(decimal num).length≤2^32) {k : ℕ} (hk : k<(decimal num).length) :
    wsub (wsub siz (mul+k)) 1∈(printNumRec num mul str siz).str.writes := by
  fun_induction printNumRec num mul str siz generalizing k with
  | case1 num mul str hmore div c =>
    rename_i ih
    have hlast : decimal num=decimal div++[digitChar (num%10)] :=
      numeral_of_le digitChar (by norm_num) hmore
    have hpos : 0<(decimal div).length :=
      List.length_pos_iff.mpr (numeral_ne_nil digitChar 10 div)
    rw [hlast,List.length_append,List.length_singleton] at h hk
    cases k with
    | zero => exact subset_printNumRec _ List.mem_cons_self
    | succ k =>
      have hmul : wadd mul 1=mul+1 := wadd_eq (by omega)
      have hmem := ih (k:=k) (by omega) (by omega)
      have hnext : wadd mul 1+k=mul+(k+1) := by omega
      rwa [hnext] at hmem
  | case2 num mul str hmore =>
    have hone : decimal num=[digitChar num] := numeral_of_lt digitChar (by omega)
    rw [hone,List.length_singleton,Nat.lt_one_iff] at hk
    rw [hk]
    exact List.mem_cons_self

/-- A text copied in front of the last byte stands there. -/
theorem written_stands {siz : ℕ} (str : Buffer) {text : List Char}
    (h : text.length<siz) : Stands (written str siz 1 text) str siz text := by
  have hret : (written str siz 1 text).ret=siz-1-text.length := rfl
  have hmul : (written str siz 1 text).mul=1+text.length-1 := rfl
  have hmem : (written str siz 1 text).str.mem=strcpy str.mem (siz-1-text.length) text := rfl
  have hlog : (written str siz 1 text).str.writes=
      List.range' (siz-1-text.length) text.length++str.writes := rfl
  constructor
  · omega
  · omega
  · intro k hk
    rw [hret,hmem,strcpy_apply,if_pos (by omega),Nat.add_sub_cancel_left,charAt,
      List.getD_eq_getElem _ _ hk]
    rfl
  · intro i hi
    rw [hret] at hi
    rw [hmem,strcpy_apply,if_neg (by omega)]
  · intro i hi
    rw [hlog,List.mem_append,List.mem_range'_1] at hi
    rw [hret]
    rcases hi with hi|hi
    · exact Or.inr ⟨by omega,by omega⟩
    · exact Or.inl hi

/-- A 32-bit number has at most ten decimal digits. -/
theorem decimal_length_le {num : ℕ} (h : num<2^32) : (decimal num).length≤10 :=
  numeral_length_le digitChar (by norm_num) (by norm_num) (h.trans (by norm_num))

/-- A 32-bit number has at most eight hexadecimal digits, besides the prefix. -/
theorem hexadecimal_length_le {num : ℕ} (h : num<2^32) : (hexadecimal num).length≤10 :=
  Nat.add_le_add_right
    (numeral_length_le digitChar (by norm_num) (k:=8) (by norm_num) (h.trans_eq (by norm_num))) 2

/-- Both writers leave the digits of the number, without a leading zero, in front
of the last byte, delimited by the pointer and the count, and change nothing
else. -/
theorem digits_delimited (num siz : ℕ) (str : Buffer) (hnum : num<2^32) (hlo : 12 ≤ siz)
    (hsiz : siz<2^32) :
    (∃ ds,Digits 10 num ds ∧ Stands (printNumRec num 1 str siz) str siz (ds.map digitChar)) ∧
    (∃ ds,Digits 16 num ds ∧
      Stands (printHexRec num 1 str siz) str siz ('0':: 'x'::ds.map digitChar)) := by
  constructor
  · obtain ⟨ds,hds,htext⟩ := numeral_digits digitChar (b:=10) (by norm_num) num
    have hlen : (decimal num).length≤10 := decimal_length_le hnum
    refine ⟨ds,hds,?_⟩
    rw [printNumRec_eq str hnum hsiz (by omega),←htext]
    exact written_stands str (by omega)
  · obtain ⟨ds,hds,htext⟩ := numeral_digits digitChar (b:=16) (by norm_num) num
    have hlen : (hexadecimal num).length≤10 := hexadecimal_length_le hnum
    refine ⟨ds,hds,?_⟩
    rw [printHexRec_eq str hnum hsiz (by omega),←htext]
    exact written_stands str (by omega)

/-- The largest number in a local buffer of the console. -/
theorem digits_delimited_max :
    (∃ ds,Digits 10 4294967295 ds ∧
      Stands (printNumRec 4294967295 1 ⟨fun _ => NUL,[]⟩ 16) ⟨fun _ => NUL,[]⟩ 16
        (ds.map digitChar)) ∧
    (∃ ds,Digits 16 4294967295 ds ∧
      Stands (printHexRec 4294967295 1 ⟨fun _ => NUL,[]⟩ 16) ⟨fun _ => NUL,[]⟩ 16
        ('0':: 'x'::ds.map digitChar)) :=
  digits_delimited 4294967295 16 ⟨fun _ => NUL,[]⟩ (by norm_num) (by norm_num) (by norm_num)

end XanaduOS.DigitWriters
