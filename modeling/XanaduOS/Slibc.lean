import XanaduOS.Word32

/-!
# String functions of the kernel library

A string is a list of characters, followed by null characters. Comparison and
length stop at a bound; conversion of numbers reads twelve characters from the
last to the first and skips null characters.
-/

namespace XanaduOS.Slibc

open Word32

/-- The null character. -/
abbrev NUL : Char := Char.ofNat 0

/-- Character at an offset. -/
def charAt (str : List Char) (i : ℕ) : Char := str.getD i NUL

/-- A character as a signed byte. -/
def schar (c : Char) : ℤ := if c.toNat<2^7 then c.toNat else c.toNat-2^8

/-- A character as a machine word, with its sign extended. -/
def charWord (c : Char) : ℕ := (schar c%2^32).toNat

/-- Characters below 128 are their codes. -/
theorem charWord_eq {c : Char} (h : c.toNat<2^7) : charWord c=c.toNat := by
  rw [charWord,schar,if_pos h]
  omega

/-- The bytes of a string in memory, without the null character at its end. -/
structure CString where
  /-- The characters. -/
  chars : List Char
  /-- None of them is null. -/
  plain : NUL∉chars
  /-- Each of them is a byte. -/
  bytes : ∀ c∈chars,c.toNat<2^8
  /-- They fit in memory with the null character. -/
  short : chars.length+1<2^32

/-- Length of a string, up to a bound. -/
def strnlen : List Char → ℕ → ℕ
  | _,0 => 0
  | [],_ => 0
  | c::str,len+1 => if c=NUL then 0 else strnlen str len+1

/-- Compare two strings up to a length: zero when equal. -/
def strneq : List Char → List Char → ℕ → ℕ
  | _,_,0 => 0
  | str,cmp,len+1 =>
    if str.headD NUL=NUL ∧ cmp.headD NUL=NUL then 0
    else if str.headD NUL≠cmp.headD NUL then 1
    else strneq str.tail cmp.tail len

/-- The conversion loop, from the number of characters left. -/
def atoiFrom (str : List Char) (radix : ℕ) : ℕ → ℕ → ℕ → ℕ
  | 0,_,res => res
  | i+1,order,res =>
    if charAt str i=NUL then atoiFrom str radix i order res
    else atoiFrom str radix i (wmul order radix)
      (wadd res (wmul (wsub (charWord (charAt str i)) 48) order))

/-- Convert twelve characters; the length passed by callers is not read. -/
def atoi (str : List Char) (radix : ℕ) : ℕ := atoiFrom str radix 12 1 0

/-- Copy characters to an address. -/
def strcpy (mem : ℕ → Char) (str : ℕ) : List Char → ℕ → Char
  | [] => mem
  | c::cpy => strcpy (Function.update mem str c) (str+1) cpy

/-- A copy changes its target only. -/
theorem strcpy_apply (mem : ℕ → Char) (str : ℕ) (cpy : List Char) (i : ℕ) :
    strcpy mem str cpy i=if str ≤ i ∧ i-str<cpy.length then charAt cpy (i-str) else mem i := by
  induction cpy generalizing mem str with
  | nil => simp [strcpy]
  | cons c cpy ih =>
    rw [strcpy,ih,Function.update_apply,List.length_cons]
    rcases Nat.lt_trichotomy i str with hlt|rfl|hlt
    · rw [if_neg (by omega),if_neg (by omega),if_neg (by omega)]
    · rw [if_neg (by omega),if_pos rfl,if_pos (by omega),Nat.sub_self]
      rfl
    · obtain ⟨k,rfl⟩ : ∃ k,i=str+1+k := ⟨i-(str+1),by omega⟩
      have hk : str+1+k-str=k+1 := by omega
      rw [Nat.add_sub_cancel_left,hk]
      by_cases hlen : k<cpy.length
      · rw [if_pos (by omega),if_pos (by omega)]
        rfl
      · rw [if_neg (by omega),if_neg (by omega),if_neg (by omega)]

/-- Length of a text without null characters. -/
theorem strnlen_text {str : List Char} (h : NUL∉str) (len : ℕ) (rest : List Char)
    (hrest : rest.headD NUL=NUL) : strnlen (str++rest) len=min str.length len := by
  induction str generalizing len with
  | nil =>
    cases len with
    | zero => cases rest <;> rfl
    | succ len =>
      cases rest with
      | nil => rfl
      | cons c rest =>
        have hc : c=NUL := hrest
        simp [strnlen,hc]
  | cons c str ih =>
    rw [List.mem_cons,not_or] at h
    cases len with
    | zero => rfl
    | succ len =>
      rw [List.cons_append,strnlen,if_neg (Ne.symm h.1),ih h.2,List.length_cons,
        Nat.succ_min_succ]

/-- Comparison up to the length of the second text tests for a prefix. -/
theorem strneq_eq_zero {cmp : List Char} (h : NUL∉cmp) (str rest : List Char) :
    strneq str (cmp++rest) cmp.length=0 ↔ cmp<+:str := by
  induction cmp generalizing str with
  | nil => simp [strneq]
  | cons c cmp ih =>
    rw [List.mem_cons,not_or] at h
    cases str with
    | nil =>
      have hc : NUL≠c := h.1
      simp [strneq,hc,hc.symm]
    | cons d str =>
      rw [List.cons_prefix_cons]
      by_cases hdc : d=c
      · simp [strneq,hdc,Ne.symm h.1,ih h.2]
      · have hcd : c≠d := Ne.symm hdc
        simp [strneq,hdc,hcd,Ne.symm h.1]

/-- A character missing from the first text makes the comparison fail. -/
theorem strneq_ne_zero {str cmp : List Char} {c : Char} (hc : c∉str) (hnul : c≠NUL)
    (hcmp : NUL∉cmp) (rest : List Char) : strneq str (cmp++c::rest) (cmp.length+1)≠0 := by
  have hnone : NUL∉cmp++[c] := by simp [hcmp,hnul.symm]
  have hpre := strneq_eq_zero hnone str rest
  rw [List.append_assoc,List.singleton_append,List.length_append,List.length_singleton] at hpre
  rw [ne_eq,hpre]
  intro hpre
  exact hc (hpre.subset (by simp))

end XanaduOS.Slibc
