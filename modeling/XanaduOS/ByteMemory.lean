import Mathlib.Tactic
import XanaduOS.Word32

/-!
# Bytes and words of memory

Memory is a byte for each address. A word is read from four bytes, least
significant first. Addresses wrap at the word size.
-/

namespace XanaduOS.ByteMemory

open Word32

/-- Contents of the memory. -/
abbrev Bytes : Type := ℕ → BitVec 8

/-- The 32-bit word at an address. -/
def wordAt (mem : Bytes) (p : ℕ) : BitVec 32 :=
  mem (wadd p 3) ++ (mem (wadd p 2) ++ (mem (wadd p 1) ++ mem (wadd p 0)))

/-- Fill a number of bytes from an address on. -/
def memset (mem : Bytes) (buf : ℕ) (val : BitVec 8) : ℕ → Bytes
  | 0 => mem
  | siz+1 => Function.update (memset mem buf val siz) (wadd buf siz) val

/-- A filled byte. -/
theorem memset_inside (mem : Bytes) (buf : ℕ) (val : BitVec 8) {siz i : ℕ} (hi : i<siz) :
    memset mem buf val siz (wadd buf i)=val := by
  induction siz with
  | zero => omega
  | succ siz ih =>
    rw [memset,Function.update_apply]
    split
    · rfl
    · rename_i hne
      exact ih (Nat.lt_of_le_of_ne (Nat.le_of_lt_succ hi) fun heq => hne (heq▸rfl))

/-- A word all of whose bytes are filled with zeros. -/
theorem wordAt_memset_zero (mem : Bytes) (buf : ℕ) {siz i : ℕ} (hi : i+4 ≤ siz) :
    wordAt (memset mem buf 0#8 siz) (wadd buf i)=0#32 := by
  have hbyte : ∀ k<4,memset mem buf 0#8 siz (wadd (wadd buf i) k)=0#8 := by
    intro k hk
    have haddr : wadd (wadd buf i) k=wadd buf (i+k) := by
      simp only [wadd]
      omega
    rw [haddr]
    exact memset_inside mem buf 0#8 (by omega)
  rw [wordAt,hbyte 3 (by norm_num),hbyte 2 (by norm_num),hbyte 1 (by norm_num),
    hbyte 0 (by norm_num)]
  rfl

end XanaduOS.ByteMemory
