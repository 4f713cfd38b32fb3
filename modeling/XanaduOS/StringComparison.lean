import Mathlib.Algebra.BigOperators.Intervals
import Mathlib.Algebra.Order.BigOperators.Group.Finset
import Mathlib.Data.List.GetD
import XanaduOS.Slibc

/-!
# Comparing strings

One function adds up the differences of the bytes through the end of the
shorter string; the other stops at the first bytes that differ. A character is
a signed byte, a sum is a signed 32-bit integer.

A sum of differences can cancel the first one. The sum has the right sign when
the differences behind the first differing byte do not outweigh it.
-/

namespace XanaduOS.StringComparison

open Slibc

/-- Signed addition of machine words. -/
def sadd (a b : ℤ) : ℤ := Int.bmod (a+b) (2^32)

/-- The loop of the comparison, from the sum so far. -/
def strcmpFrom (diff : ℤ) : List Char → List Char → ℤ
  | [],cmp => sadd diff (schar NUL-schar (cmp.headD NUL))
  | c::str,cmp =>
    let diff := sadd diff (schar c-schar (cmp.headD NUL))
    if c=NUL ∨ cmp.headD NUL=NUL then diff else strcmpFrom diff str cmp.tail

/-- Compare two strings; a null pointer differs from everything. -/
def strcmp : Option (List Char) → Option (List Char) → ℤ
  | some str,some cmp => strcmpFrom 0 str cmp
  | _,_ => -1

/-- Difference of the bytes at an offset. -/
def difference (a b : List Char) (i : ℕ) : ℤ := schar (charAt a i)-schar (charAt b i)

/-- The first bytes that differ. -/
structure FirstDiffers (a b : List Char) (i : ℕ) : Prop where
  /-- Bytes in front agree. -/
  agree : ∀ j < i,charAt a j=charAt b j
  /-- The bytes differ. -/
  differ : charAt a i≠charAt b i

/-- Comparison tells equal strings apart from different ones, and gives different
strings the sign of their first differing bytes; comparison up to a length tells
whether the strings agree that far. -/
structure Compares (a b : List Char) : Prop where
  /-- Zero is for equal strings. -/
  zero : strcmp (some a) (some b)=0 ↔ a=b
  /-- The sign. -/
  sign : ∀ i,FirstDiffers a b i →
    (strcmp (some a) (some b)).sign=(difference a b i).sign
  /-- Comparison up to a length. -/
  upTo : ∀ len,strneq a b len=0 ↔ a.take len=b.take len
  /-- Both comparisons agree when the length is above both strings. -/
  both : ∀ len,a.length<len → b.length<len →
    (strneq a b len=0 ↔ strcmp (some a) (some b)=0)

/-- The 32-bit sum of the differences behind an offset, through the end of the
shorter string. -/
def behind (a b : List Char) (i : ℕ) : ℤ :=
  Int.bmod (∑ j∈Finset.Ioc i (min a.length b.length),difference a b j) (2^32)

/-- The differences behind the first one neither cancel it nor outweigh it, and do not
overflow with it. -/
def KeepsSign (a b : List Char) : Prop :=
  ∀ i,FirstDiffers a b i →
    (0<difference a b i →
      -difference a b i<behind a b i ∧ behind a b i<2^31-difference a b i) ∧
    (difference a b i<0 →
      -2^31-difference a b i≤behind a b i ∧ behind a b i < -difference a b i)

/-! ## Comparison up to a length -/

/-- Comparison up to a length tells whether the strings agree that far. -/
theorem strneq_eq_zero_iff {a b : List Char} (ha : NUL∉a) (hb : NUL∉b) (len : ℕ) :
    strneq a b len=0 ↔ a.take len=b.take len := by
  induction len generalizing a b with
  | zero => simp [strneq]
  | succ len ih =>
    cases a with
    | nil =>
      cases b with
      | nil => simp [strneq]
      | cons d b =>
        have hd : NUL≠d := fun h => hb (h▸List.mem_cons_self)
        simp [strneq,hd,hd.symm]
    | cons c a =>
      have hc : NUL≠c := fun h => ha (h▸List.mem_cons_self)
      cases b with
      | nil => simp [strneq,hc.symm]
      | cons d b =>
        have hstep := ih (fun h => ha (List.mem_cons_of_mem c h))
          fun h => hb (List.mem_cons_of_mem d h)
        by_cases hcd : c=d
        · simp [strneq,hcd,hcd▸hc.symm,hstep]
        · simp [strneq,hcd,hc.symm]

/-! ## The sum of differences -/

/-- The loop adds the differences through the end of the shorter string. -/
theorem strcmpFrom_eq {a b : List Char} (ha : NUL∉a) (hb : NUL∉b) (diff : ℤ) :
    strcmpFrom diff a b=
      sadd diff (∑ j∈Finset.range (min a.length b.length+1),difference a b j) := by
  induction a generalizing b diff with
  | nil =>
    rw [List.length_nil,Nat.zero_min,Finset.sum_range_one,strcmpFrom,difference]
    cases b <;> rfl
  | cons c a ih =>
    have hc : c≠NUL := fun h => ha (h▸List.mem_cons_self)
    cases b with
    | nil =>
      have hends : c=NUL ∨ [].headD NUL=NUL := Or.inr rfl
      rw [List.length_nil,Nat.min_zero,Finset.sum_range_one,strcmpFrom,if_pos hends]
      rfl
    | cons d b =>
      have hd : d≠NUL := fun h => hb (h▸List.mem_cons_self)
      have hstep := ih (b:=b) (fun h => ha (List.mem_cons_of_mem c h))
        (fun h => hb (List.mem_cons_of_mem d h)) (sadd diff (schar c-schar d))
      have hnot : ¬(c=NUL ∨ (d::b).headD NUL=NUL) := not_or.mpr ⟨hc,hd⟩
      rw [strcmpFrom,if_neg hnot,List.length_cons,List.length_cons,Nat.succ_min_succ,
        Finset.sum_range_succ']
      refine hstep.trans ?_
      rw [sadd,sadd,sadd,Int.bmod_add_bmod]
      congr 1
      have hshift : ∀ j,difference (c::a) (d::b) (j+1)=difference a b j := fun _ => rfl
      have hzero : difference (c::a) (d::b) 0=schar c-schar d := rfl
      simp only [hshift,hzero]
      ring

/-- Signed bytes of different characters differ. -/
theorem schar_injective {c d : Char} (hc : c.toNat<2^8) (hd : d.toNat<2^8)
    (h : schar c=schar d) : c=d := by
  have hnat : c.toNat=d.toNat := by
    unfold schar at h
    split at h <;> split at h <;> omega
  exact Char.toNat_inj.mp hnat

/-- Characters of a string, and the null characters behind it, are bytes. -/
theorem charAt_lt (s : CString) (i : ℕ) : (charAt s.chars i).toNat<2^8 := by
  rcases Nat.lt_or_ge i s.chars.length with hlt|hge
  · rw [charAt,List.getD_eq_getElem _ _ hlt]
    exact s.bytes _ (List.getElem_mem hlt)
  · rw [charAt,List.getD_eq_default _ _ hge]
    decide

/-- The null character is found behind the string only. -/
theorem charAt_eq_nul_iff (s : CString) (i : ℕ) : charAt s.chars i=NUL ↔ s.chars.length ≤ i := by
  constructor
  · intro h
    by_contra hlt
    rw [charAt,List.getD_eq_getElem _ _ (Nat.not_le.mp hlt)] at h
    exact s.plain (h▸List.getElem_mem _)
  · exact fun h => List.getD_eq_default _ _ h

/-! ## The first bytes that differ -/

section

variable {a b : CString} {i : ℕ}

/-- Bytes that differ are not both behind their strings. -/
theorem FirstDiffers.le_length (h : FirstDiffers a.chars b.chars i) :
    i ≤ min a.chars.length b.chars.length := by
  rw [Nat.le_min]
  by_contra hnot
  have hends : ∃ j < i,charAt a.chars j=NUL := by
    rcases not_and_or.mp hnot with hlt|hlt
    · exact ⟨_,Nat.not_le.mp hlt,(charAt_eq_nul_iff a _).mpr le_rfl⟩
    · have hj := Nat.not_le.mp hlt
      exact ⟨_,hj,(h.agree _ hj).trans ((charAt_eq_nul_iff b _).mpr le_rfl)⟩
  obtain ⟨j,hj,hnul⟩ := hends
  have ha : a.chars.length ≤ i := ((charAt_eq_nul_iff a j).mp hnul).trans hj.le
  have hb : b.chars.length ≤ i :=
    ((charAt_eq_nul_iff b j).mp ((h.agree j hj).symm.trans hnul)).trans hj.le
  exact h.differ (((charAt_eq_nul_iff a i).mpr ha).trans ((charAt_eq_nul_iff b i).mpr hb).symm)

/-- Different strings have first bytes that differ. -/
theorem exists_firstDiffers (h : a.chars≠b.chars) : ∃ i,FirstDiffers a.chars b.chars i := by
  have hex : ∃ i,charAt a.chars i≠charAt b.chars i := by
    by_contra hnot
    push Not at hnot
    have hlen : a.chars.length=b.chars.length := by
      apply Nat.le_antisymm
      · rw [←charAt_eq_nul_iff a,hnot,charAt_eq_nul_iff b]
      · rw [←charAt_eq_nul_iff b,←hnot,charAt_eq_nul_iff a]
    refine h (List.ext_getElem hlen fun j ha hb => ?_)
    have hj := hnot j
    rwa [charAt,charAt,List.getD_eq_getElem _ _ ha,List.getD_eq_getElem _ _ hb] at hj
  exact ⟨Nat.find hex,fun j hj => not_not.mp (Nat.find_min hex hj),Nat.find_spec hex⟩

/-- Equal strings have none. -/
theorem FirstDiffers.ne (h : FirstDiffers a.chars b.chars i) : a.chars≠b.chars := by
  intro heq
  exact h.differ (by rw [heq])

/-- The first difference is not zero. -/
theorem FirstDiffers.difference_ne (h : FirstDiffers a.chars b.chars i) :
    difference a.chars b.chars i≠0 := by
  intro hzero
  exact h.differ (schar_injective (charAt_lt a i) (charAt_lt b i) (sub_eq_zero.mp hzero))

/-- A difference of bytes is small. -/
theorem difference_bounds (a b : CString) (i : ℕ) :
    -2^8<difference a.chars b.chars i ∧ difference a.chars b.chars i<2^8 := by
  have hschar : ∀ s : CString,-2^7 ≤ schar (charAt s.chars i) ∧ schar (charAt s.chars i)<2^7 := by
    intro s
    have hbyte := charAt_lt s i
    unfold schar
    split <;> omega
  have ha := hschar a
  have hb := hschar b
  unfold difference
  omega

/-- Comparison gives the first difference and the differences behind it. -/
theorem strcmp_eq (h : FirstDiffers a.chars b.chars i) :
    strcmp (some a.chars) (some b.chars)=
      sadd (difference a.chars b.chars i) (behind a.chars b.chars i) := by
  have hle := h.le_length
  have hfront : ∑ j∈Finset.range i,difference a.chars b.chars j=0 := by
    refine Finset.sum_eq_zero fun j hj => ?_
    rw [difference,h.agree j (Finset.mem_range.mp hj),sub_self]
  have hsum : ∑ j∈Finset.range (min a.chars.length b.chars.length+1),
      difference a.chars b.chars j=difference a.chars b.chars i+
        ∑ j∈Finset.Ioc i (min a.chars.length b.chars.length),difference a.chars b.chars j := by
    have hIoc : Finset.Ioc i (min a.chars.length b.chars.length)=
        Finset.Ico (i+1) (min a.chars.length b.chars.length+1) := by
      ext j
      simp only [Finset.mem_Ioc,Finset.mem_Ico]
      omega
    rw [←Finset.sum_range_add_sum_Ico _ (Nat.le_succ_of_le hle),hfront,zero_add,hIoc,
      Finset.sum_eq_sum_Ico_succ_bot (Nat.lt_succ_of_le hle)]
  rw [strcmp,strcmpFrom_eq a.plain b.plain,hsum,behind]
  simp only [sadd,zero_add,Int.add_bmod_bmod]

/-- A sum has the sign of a small first part if the rest does not outweigh it and does
not overflow with it. -/
theorem sign_sadd_iff {d r : ℤ} (hne : d≠0) (hlo : -2^8<d) (hhi : d<2^8)
    (hrlo : -2^31 ≤ r) (hrhi : r<2^31) :
    (sadd d r).sign=d.sign ↔
      (0<d → -d < r ∧ r<2^31-d) ∧ (d<0 → -2^31-d ≤ r ∧ r < -d) := by
  have hsum : sadd d r=if (d+r)%2^32<2^31 then (d+r)%2^32 else (d+r)%2^32-2^32 := by
    rw [sadd,Int.bmod_def]
    rfl
  rcases lt_or_gt_of_ne hne with hneg|hpos
  · rw [Int.sign_eq_neg_one_of_neg hneg,Int.sign_eq_neg_one_iff_neg,hsum]
    split <;> omega
  · rw [Int.sign_eq_one_of_pos hpos,Int.sign_eq_one_iff_pos,hsum]
    split <;> omega

/-- Comparison gives different strings the sign of their first difference if the
differences behind it do not outweigh it. -/
theorem keepsSign_iff (a b : CString) :
    KeepsSign a.chars b.chars ↔ ∀ i,FirstDiffers a.chars b.chars i →
      (strcmp (some a.chars) (some b.chars)).sign=(difference a.chars b.chars i).sign := by
  refine forall_congr' fun i => imp_congr_right fun hi => ?_
  obtain ⟨hlo,hhi⟩ := difference_bounds a b i
  have hrlo : -2^31≤behind a.chars b.chars i := Int.le_bmod (by norm_num)
  have hrhi : behind a.chars b.chars i<2^31 := Int.bmod_lt (by norm_num)
  rw [strcmp_eq hi]
  exact (sign_sadd_iff hi.difference_ne hlo hhi hrlo hrhi).symm

/-- Equal strings compare as equal. -/
theorem strcmp_self (a : CString) : strcmp (some a.chars) (some a.chars)=0 := by
  have hsum : ∑ j∈Finset.range (min a.chars.length a.chars.length+1),
      difference a.chars a.chars j=0 := Finset.sum_eq_zero fun j _ => sub_self _
  rw [strcmp,strcmpFrom_eq a.plain a.plain,hsum]
  rfl

/-- Comparison decides equality if it gives different strings the sign of their first
difference. -/
theorem strcmp_eq_zero_iff (h : ∀ i,FirstDiffers a.chars b.chars i →
      (strcmp (some a.chars) (some b.chars)).sign=(difference a.chars b.chars i).sign) :
    strcmp (some a.chars) (some b.chars)=0 ↔ a.chars=b.chars := by
  constructor
  · intro hzero
    by_contra hne
    obtain ⟨i,hi⟩ := exists_firstDiffers hne
    have hsign := h i hi
    rw [hzero,Int.sign_zero] at hsign
    exact hi.difference_ne (Int.sign_eq_zero_iff_zero.mp hsign.symm)
  · intro heq
    rw [←heq]
    exact strcmp_self a

/-- String comparison is right if and only if the differences behind the first
differing byte do not outweigh it. -/
theorem compares_iff_keepsSign (a b : CString) :
    Compares a.chars b.chars ↔ KeepsSign a.chars b.chars := by
  rw [keepsSign_iff]
  constructor
  · exact Compares.sign
  · intro hsign
    refine ⟨strcmp_eq_zero_iff hsign,hsign,strneq_eq_zero_iff a.plain b.plain,?_⟩
    intro len ha hb
    rw [strneq_eq_zero_iff a.plain b.plain,List.take_of_length_le ha.le,
      List.take_of_length_le hb.le,strcmp_eq_zero_iff hsign]

end

/-- Two differences that cancel. -/
theorem not_compares_swapped : ¬Compares ['a','b'] ['b','a'] := by
  intro h
  have hzero : strcmp (some ['a','b']) (some ['b','a'])=0 := by decide
  exact absurd (h.zero.mp hzero) (by decide)

end XanaduOS.StringComparison
