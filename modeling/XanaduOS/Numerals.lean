import Mathlib.Data.Nat.Digits.Lemmas
import Mathlib.Tactic

/-!
# Numerals

A number is written in a base with its most significant digit first and one
symbol for each digit. Zero is written with a single digit; no other numeral
begins with the digit zero.
-/

namespace XanaduOS.Numerals

/-- Digits of a number, most significant first. -/
structure Digits (b n : ℕ) (ds : List ℕ) : Prop where
  /-- Every digit is below the base. -/
  below : ∀ d∈ds,d<b
  /-- The value. -/
  value : Nat.ofDigits b ds.reverse=n
  /-- There is a digit. -/
  nonempty : ds≠[]
  /-- Only zero itself begins with a zero. -/
  leading : ds.head?=some 0 → ds=[0]

/-- A number written with a symbol for each digit. -/
def numeral {α : Type*} (digit : ℕ → α) (b n : ℕ) : List α :=
  if n=0 then [digit 0] else (Nat.digits b n).reverse.map digit

variable {α : Type*} (digit : ℕ → α) {b n : ℕ}

/-- A number below the base has one digit. -/
theorem numeral_of_lt (hn : n<b) : numeral digit b n=[digit n] := by
  rw [numeral]
  split
  · rename_i h0
    rw [h0]
  · rename_i h0
    rw [Nat.digits_of_lt b n h0 hn]
    rfl

/-- Another number is its quotient by the base, followed by the remainder. -/
theorem numeral_of_le (hb : 1<b) (hn : b≤n) :
    numeral digit b n=numeral digit b (n/b)++[digit (n%b)] := by
  have hquot : n/b≠0 := (Nat.div_pos hn (by omega)).ne'
  rw [numeral,numeral,if_neg (by omega),if_neg hquot,Nat.digits_def' hb (by omega),
    List.reverse_cons,List.map_append]
  rfl

/-- A numeral is not empty. -/
theorem numeral_ne_nil (b n : ℕ) : numeral digit b n≠[] := by
  rw [numeral]
  split
  · exact List.cons_ne_nil _ _
  · rename_i h0
    have hdigits : Nat.digits b n≠[] := Nat.digits_ne_nil_iff_ne_zero.mpr h0
    simpa using hdigits

/-- A numeral has no more digits than the powers of the base allow. -/
theorem numeral_length_le {k : ℕ} (hb : 1<b) (hk : 0<k) (hn : n<b^k) :
    (numeral digit b n).length≤k := by
  rw [numeral]
  split
  · exact hk
  · rw [List.length_map,List.length_reverse]
    exact (Nat.digits_length_le_iff hb n).mpr hn

/-- A numeral spells the digits of its number. -/
theorem numeral_digits (hb : 1<b) (n : ℕ) :
    ∃ ds,Digits b n ds ∧ numeral digit b n=ds.map digit := by
  by_cases h0 : n=0
  · refine ⟨[0],⟨?_,?_,List.cons_ne_nil _ _,fun _ => rfl⟩,?_⟩
    · intro d hd
      rw [List.mem_singleton] at hd
      omega
    · rw [h0]
      rfl
    · rw [numeral,if_pos h0]
      rfl
  · have hne : Nat.digits b n≠[] := Nat.digits_ne_nil_iff_ne_zero.mpr h0
    refine ⟨(Nat.digits b n).reverse,⟨?_,?_,?_,?_⟩,?_⟩
    · intro d hd
      exact Nat.digits_lt_base hb (List.mem_reverse.mp hd)
    · rw [List.reverse_reverse,Nat.ofDigits_digits]
    · exact fun h => hne (List.reverse_eq_nil_iff.mp h)
    · intro hzero
      rw [List.head?_reverse,List.getLast?_eq_getLast_of_ne_nil hne] at hzero
      exact absurd (Option.some.inj hzero) (Nat.getLast_digit_ne_zero b h0)
    · rw [numeral,if_neg h0]

end XanaduOS.Numerals
