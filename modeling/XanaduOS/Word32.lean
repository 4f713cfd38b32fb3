import Mathlib.Tactic

/-!
# Unsigned 32-bit arithmetic on naturals

Machine words are naturals below 2^32. Every operation reduces its result,
so wrap-around is visible in the definitions; the range lemmas remove the
reduction wherever a bound is known. Rounding to a multiple is stated for an
arbitrary modulus, not only for powers of two.
-/

namespace XanaduOS.Word32

/-- Unsigned addition, wrapping modulo 2^32. -/
def wadd (a b : ℕ) : ℕ := (a+b)%2^32

/-- Unsigned subtraction, wrapping modulo 2^32. -/
def wsub (a b : ℕ) : ℕ := (a+(2^32-b%2^32))%2^32

/-- Unsigned multiplication, wrapping modulo 2^32. -/
def wmul (a b : ℕ) : ℕ := (a*b)%2^32

/-- Every sum is a machine word. -/
theorem wadd_lt (a b : ℕ) : wadd a b<2^32 := Nat.mod_lt _ (by norm_num)

/-- Sums below the modulus are exact. -/
theorem wadd_eq {a b : ℕ} (h : a+b<2^32) : wadd a b=a+b := Nat.mod_eq_of_lt h

/-- Differences of ordered words are exact. -/
theorem wsub_eq {a b : ℕ} (h : b≤a) (ha : a<2^32) : wsub a b=a-b := by
  unfold wsub
  omega

/-- Products below the modulus are exact. -/
theorem wmul_eq {a b : ℕ} (h : a*b<2^32) : wmul a b=a*b := Nat.mod_eq_of_lt h

/-- Round up to a multiple: drop the remainder, then add one multiple when
the remainder was not zero. Both operations wrap. -/
def roundUp (num multiple : ℕ) : ℕ :=
  wadd (wsub num (num%multiple)) (if num%multiple=0 then 0 else multiple)

/-- Every rounded value is a machine word. -/
theorem roundUp_lt (num multiple : ℕ) : roundUp num multiple<2^32 := wadd_lt _ _

/-- Number of blocks of a given size that cover an amount. -/
def divUp (num size : ℕ) : ℕ := num/size+(if num%size=0 then 0 else 1)

/-- A quotient rounded up is the least number of blocks. -/
theorem divUp_le_iff {num size k : ℕ} (hsize : 0<size) : divUp num size≤k ↔ num≤k*size := by
  have hnum : num/size*size+num%size=num := Nat.div_add_mod' num size
  have hmod : num%size<size := Nat.mod_lt num hsize
  unfold divUp
  split
  · rename_i h0
    rw [Nat.add_zero,←Nat.mul_le_mul_right_iff hsize]
    omega
  · constructor
    · intro hle
      have hmul := Nat.mul_le_mul_right size hle
      rw [Nat.add_mul,Nat.one_mul] at hmul
      omega
    · intro hle
      by_contra hlt
      have hmul : k*size≤num/size*size := Nat.mul_le_mul_right size (by omega)
      omega

/-- Without wrap-around, rounding up is the exact integer rounding. -/
theorem roundUp_eq {num multiple : ℕ} (h0 : 0 < multiple) (h : num+multiple≤2^32) :
    roundUp num multiple=num-num%multiple+(if num%multiple=0 then 0 else multiple) := by
  have hle : num%multiple≤num := Nat.mod_le num multiple
  have hlt : num%multiple < multiple := Nat.mod_lt num h0
  unfold roundUp
  rw [wsub_eq hle (by omega)]
  apply wadd_eq
  split <;> omega

/-- Rounding a word up to a divisor of the modulus gives the next multiple, or
zero where that is the modulus itself. -/
theorem roundUp_of_dvd {num multiple : ℕ} (hd : multiple∣2^32) (hn : num<2^32) :
    (roundUp num multiple=0 ∧ 2^32<num+multiple) ∨ (multiple∣roundUp num multiple ∧
      num ≤ roundUp num multiple ∧ roundUp num multiple<num+multiple) := by
  have hpos : 0 < multiple := Nat.pos_of_dvd_of_pos hd (by decide)
  have hlt : num%multiple < multiple := Nat.mod_lt num hpos
  have hle : num%multiple≤num := Nat.mod_le num multiple
  have hfloor : multiple∣num-num%multiple := Nat.dvd_sub_mod num
  rw [roundUp,wsub_eq hle hn]
  by_cases h0 : num%multiple=0
  · rw [if_pos h0,wadd_eq (by omega)]
    exact Or.inr ⟨hfloor,by omega,by omega⟩
  · rw [if_neg h0]
    have hceil : multiple∣num-num%multiple+multiple := Nat.dvd_add_self_right.mpr hfloor
    rcases Nat.lt_or_ge (num-num%multiple+multiple) (2^32) with hword|hover
    · rw [wadd_eq hword]
      exact Or.inr ⟨hceil,by omega,by omega⟩
    · -- the amount rounded down is a multiple below the modulus
      have hstep := Nat.le_of_dvd (by omega) (Nat.dvd_sub hd hfloor)
      have heq : num-num%multiple+multiple=2^32 := by omega
      exact Or.inl ⟨by rw [wadd,heq,Nat.mod_self],by omega⟩

/-- A nonempty amount within one block needs one block. -/
theorem divUp_eq_one {num size : ℕ} (h0 : 0<num) (h : num ≤ size) : divUp num size=1 := by
  unfold divUp
  rcases h.lt_or_eq with hl|rfl
  · rw [Nat.div_eq_of_lt hl,Nat.mod_eq_of_lt hl,if_neg (by omega)]
  · rw [Nat.div_self h0,Nat.mod_self,if_pos rfl]

end XanaduOS.Word32
