import XanaduOS.Word32

/-!
# Constants shared by the memory managers

Page geometry and flag bits of the paging header, and the error codes of the
error header. Addresses, sizes and table entries are machine words.
-/

namespace XanaduOS.KernelDefs

open Word32

/-- Bytes of one page. -/
abbrev PAGE_SIZE : ℕ := 4096

/-- Entries of one page table or page directory. -/
abbrev PT_SIZE : ℕ := 1024

/-- Return code of an invalid argument. -/
abbrev EINVAL : ℕ := 2

/-- Return code of an allocation that found no memory. -/
abbrev ENOMEM : ℕ := 3

/-- Entry flag: the page or table is present. -/
abbrev PRESENT : ℕ := 1

/-- Entry flag: the page or table is writable. -/
abbrev R_W : ℕ := 2

/-- Entry flag: the page or table is reachable from user mode. -/
abbrev USER : ℕ := 4

/-- Entry flag set by the processor on access. -/
abbrev ACCESSED : ℕ := 32

/-- A flag word below one page does not disturb a page number. -/
theorem page_or_flags_div {flags : ℕ} (hf : flags<PAGE_SIZE) (page : ℕ) :
    (PAGE_SIZE*page ||| flags)/PAGE_SIZE=page := by
  have hlt : flags<2^12 := hf
  have ho : 2^12*page+flags=2^12*page ||| flags := Nat.two_pow_add_eq_or_of_lt hlt page
  change (2^12*page ||| flags)/2^12=page
  rw [←ho,Nat.mul_add_div (by norm_num),Nat.div_eq_of_lt hlt,Nat.add_zero]

end XanaduOS.KernelDefs
