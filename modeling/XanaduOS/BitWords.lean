import Mathlib.Tactic

/-!
# Bit arrays stored in machine words

A bit array of unbounded length is kept in words of an arbitrary width. The
only mutations are setting and clearing one bit of one word; both are exact
on the flat bit numbering word-index times width plus bit-index.
-/

namespace XanaduOS.BitWords

variable {w : ℕ}

/-- Bit `k` of the array, in the flat numbering of all words. -/
def bitAt (words : ℕ → BitVec w) (k : ℕ) : Bool := (words (k/w)).getLsbD (k%w)

/-- `words[i] |= 1 << b`. -/
def setBit (words : ℕ → BitVec w) (i b : ℕ) : ℕ → BitVec w :=
  Function.update words i (words i ||| (1#w<<<b))

/-- `words[i] &= ~(1 << b)`. -/
def clearBit (words : ℕ → BitVec w) (i b : ℕ) : ℕ → BitVec w :=
  Function.update words i (words i &&& ~~~(1#w<<<b))

/-- The one-bit mask has exactly its own bit. -/
theorem mask_getLsbD {b : ℕ} (hb : b<w) (j : ℕ) :
    (1#w<<<b).getLsbD j=decide (b=j) := by
  have h := BitVec.getLsbD_twoPow (w:=w) b j
  rw [BitVec.twoPow_eq] at h
  simpa [hb] using h

/-- The flat index determines the word and the bit. -/
theorem index_eq_iff {i b : ℕ} (hb : b<w) (k : ℕ) : (k/w=i ∧ b=k%w) ↔ k=w*i+b := by
  constructor
  · rintro ⟨rfl,rfl⟩
    exact (Nat.div_add_mod k w).symm
  · rintro rfl
    have h0 : 0<w := by omega
    refine ⟨?_,?_⟩
    · rw [Nat.mul_add_div h0,Nat.div_eq_of_lt hb,Nat.add_zero]
    · rw [Nat.mul_add_mod,Nat.mod_eq_of_lt hb]

/-- A flat index built from a word and a bit reads that bit of that word. -/
theorem bitAt_mul_add (words : ℕ → BitVec w) {i b : ℕ} (hb : b<w) :
    bitAt words (w*i+b)=(words i).getLsbD b := by
  obtain ⟨hi,hb'⟩ := (index_eq_iff (i:=i) hb (w*i+b)).mpr rfl
  rw [bitAt,hi,←hb']

/-- Setting one bit adds exactly that bit. -/
theorem bitAt_setBit (words : ℕ → BitVec w) {i b : ℕ} (hb : b<w) (k : ℕ) :
    bitAt (setBit words i b) k=(bitAt words k || decide (k=w*i+b)) := by
  by_cases hi : k/w=i
  · have hk : (b=k%w) ↔ k=w*i+b := by rw [←index_eq_iff hb k]; simp [hi]
    simp [bitAt,setBit,hi,mask_getLsbD hb,hk]
  · have hk : k≠w*i+b := fun h => hi ((index_eq_iff hb k).mpr h).1
    simp [bitAt,setBit,Function.update_of_ne hi,hk]

/-- Clearing one bit removes exactly that bit. -/
theorem bitAt_clearBit (words : ℕ → BitVec w) {i b : ℕ} (hb : b<w) (k : ℕ) :
    bitAt (clearBit words i b) k=(bitAt words k && decide (k≠w*i+b)) := by
  have h0 : 0<w := by omega
  by_cases hi : k/w=i
  · have hk : (b=k%w) ↔ k=w*i+b := by rw [←index_eq_iff hb k]; simp [hi]
    have hlt : k%w<w := Nat.mod_lt k h0
    simp only [bitAt,clearBit,hi,Function.update_self,BitVec.getLsbD_and,BitVec.getLsbD_not,
      mask_getLsbD hb,hk,hlt,decide_true,Bool.true_and,ne_eq,decide_not]
  · have hk : k≠w*i+b := fun h => hi ((index_eq_iff hb k).mpr h).1
    simp [bitAt,clearBit,Function.update_of_ne hi,hk]

/-- A masked word is zero exactly when the bit is clear. -/
theorem and_mask_eq_zero_iff (x : BitVec w) {b : ℕ} (hb : b<w) :
    x&&&(1#w<<<b)=0#w ↔ x.getLsbD b=false := by
  constructor
  · intro h
    have hz := congrArg (fun y => y.getLsbD b) h
    simpa [mask_getLsbD hb] using hz
  · intro h
    apply BitVec.eq_of_getLsbD_eq
    intro j _
    rw [BitVec.getLsbD_and,mask_getLsbD hb,BitVec.getLsbD_zero]
    by_cases hj : b=j
    · subst hj
      simp [h]
    · simp [hj]

end XanaduOS.BitWords
