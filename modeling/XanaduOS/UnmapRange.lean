import XanaduOS.PageTables

/-!
# Ranges of pages made not present

Pages are numbered through the whole directory, one table after the other. The
loop over a range keeps a 16-bit directory index and an offset that becomes
more negative by a table's entries at each table boundary; the offset is a
machine word added to an unsigned counter. It never comes near the end of a
word, since the loop stops at the end of the directory.
-/

namespace XanaduOS.UnmapRange

open Word32 KernelDefs PageTables

/-- The loop over pages as the machine runs it: `i` and `overflow` are words,
the indices of a page are taken to 16 bits. -/
def unmapPagesWords (pd pte : ℕ) : ℕ → ℕ → ℕ → ℕ → Paging → Option Paging
  | 0,_,_,_,s => some s
  | left+1,i,pde,overflow,s =>
    let next := PT_SIZE≤wadd (wadd pte overflow) i
    let overflow := if next then wsub overflow PT_SIZE else overflow
    let pde := if next then (pde+1)%2^16 else pde
    if PT_SIZE≤pde then some s
    else
      match unmapPage s pd pde (wadd (wadd overflow pte) i%2^16) with
      | none => none
      | some s => unmapPagesWords pd pte left (wadd i 1) pde overflow s

/-- Make consecutive pages not present, in machine arithmetic. -/
def unmapPagesMachine (s : Paging) (pd pde pte npages : ℕ) : Option Paging :=
  unmapPagesWords pd pte npages 0 pde 0 s

/-- Table pointer and index of the entry of a page, by its number. -/
def entryOf (s : Paging) (pd page : ℕ) : ℕ×ℕ :=
  ((s.dirs pd).pageTablesVirt (page/PT_SIZE),page%PT_SIZE)

/-- A page of a range, below the end of the directory. -/
def InRange (pde pte npages page : ℕ) : Prop :=
  ∃ i<npages,page=pde*PT_SIZE+pte+i ∧ page<PT_SIZE*PT_SIZE

/-- The pages of a range are not present, and nothing else has changed. -/
structure RangeUnmapped (s : Paging) (pd pde pte npages : ℕ) (t : Paging) : Prop where
  /-- Directories are kept, entries and pointers. -/
  dirs_eq : t.dirs=s.dirs
  /-- No page of the range is present. -/
  absent : ∀ page,InRange pde pte npages page →
    (t.tables (entryOf s pd page).1 (entryOf s pd page).2).testBit 0=false
  /-- The other bits of their entries are kept. -/
  bits : ∀ page,InRange pde pte npages page → ∀ b<32,b≠0 →
    (t.tables (entryOf s pd page).1 (entryOf s pd page).2).testBit b=
      (s.tables (entryOf s pd page).1 (entryOf s pd page).2).testBit b
  /-- Other entries are kept. -/
  others : ∀ pt j,(∀ page,InRange pde pte npages page → (pt,j)≠entryOf s pd page) →
    t.tables pt j=s.tables pt j

variable {s t : Paging} {pd pde pte npages : ℕ}

/-! ## Machine words -/

/-- A counter behind an offset of some whole tables. -/
theorem offset_add {q i : ℕ} (hlo : q*PT_SIZE≤pte+i)
    (hhi : pte+i≤q*PT_SIZE+PT_SIZE) :
    wadd (wadd pte (wsub 0 (q*PT_SIZE))) i=pte+i-q*PT_SIZE ∧
      wadd (wadd (wsub 0 (q*PT_SIZE)) pte) i=pte+i-q*PT_SIZE := by
  simp only [wadd,wsub,PT_SIZE] at hlo hhi ⊢
  omega

/-- One table more is taken off the offset. -/
theorem offset_next (q : ℕ) :
    wsub (wsub 0 (q*PT_SIZE)) PT_SIZE=wsub 0 ((q+1)*PT_SIZE) := by
  simp only [wsub,PT_SIZE]
  omega

/-- A counter past a table's end is at the start of the next one. -/
theorem offset_cross {q i : ℕ} (heq : pte+i=(q+1)*PT_SIZE) :
    wadd (wadd (wsub 0 ((q+1)*PT_SIZE)) pte) i=0 := by
  simp only [wadd,wsub,PT_SIZE] at heq ⊢
  omega

/-- The loop in machine words takes the steps of the loop over numbers. -/
theorem unmapPagesWords_eq (left : ℕ) {i q : ℕ} (hin : pde+q<PT_SIZE) (hlo : q*PT_SIZE≤pte+i)
    (hhi : pte+i≤q*PT_SIZE+PT_SIZE) :
    unmapPagesWords pd pte left i (pde+q) (wsub 0 (q*PT_SIZE)) s=
      unmapPagesLoop pd pte left i (pde+q) (q*PT_SIZE) s := by
  induction left generalizing s i q with
  | zero => rfl
  | succ left ih =>
    have hq : q<PT_SIZE := Nat.lt_of_le_of_lt (Nat.le_add_left q pde) hin
    obtain ⟨htest,hindex⟩ := offset_add hlo hhi
    have hi : wadd i 1=i+1 := by
      simp only [PT_SIZE] at hq hhi
      exact wadd_eq (by omega)
    simp only [unmapPagesWords,unmapPagesLoop,htest,hi]
    by_cases hnext : PT_SIZE≤pte+i-q*PT_SIZE
    · have heq : pte+i=(q+1)*PT_SIZE := by
        simp only [PT_SIZE] at hlo hhi hnext ⊢
        omega
      have hpde : (pde+(q+1))%2^16=pde+(q+1) := by
        simp only [PT_SIZE] at hin
        omega
      have hzero : pte+i-(q*PT_SIZE+PT_SIZE)=0 := by
        simp only [PT_SIZE] at heq ⊢
        omega
      simp only [if_pos hnext,offset_next,offset_cross heq,hzero,Nat.zero_mod,Nat.add_assoc pde q 1,
        hpde]
      by_cases hend : PT_SIZE≤pde+(q+1)
      · rw [if_pos hend,if_pos hend]
      · rw [if_neg hend,if_neg hend]
        cases unmapPage s pd (pde+(q+1)) 0 with
        | none => rfl
        | some u =>
          have hover : q*PT_SIZE+PT_SIZE=(q+1)*PT_SIZE := (Nat.succ_mul q PT_SIZE).symm
          rw [hover]
          have hlo' : (q+1)*PT_SIZE≤pte+(i+1) := heq▸Nat.add_le_add_left (Nat.le_succ i) pte
          have hhi' : pte+(i+1)≤(q+1)*PT_SIZE+PT_SIZE := by
            simp only [PT_SIZE] at heq ⊢
            omega
          exact @ih u (i+1) (q+1) (Nat.lt_of_not_le hend) hlo' hhi'
    · have hsmall : (pte+i-q*PT_SIZE)%2^16=pte+i-q*PT_SIZE := by
        simp only [PT_SIZE] at hnext ⊢
        omega
      simp only [if_neg hnext,hindex,hsmall,if_neg (Nat.not_le_of_lt hin)]
      cases unmapPage s pd (pde+q) (pte+i-q*PT_SIZE) with
      | none => rfl
      | some u => exact ih hin (by omega) (by omega)

/-- Machine arithmetic makes no difference. -/
theorem unmapPagesMachine_eq (hpde : pde<PT_SIZE) (hpte : pte<PT_SIZE) :
    unmapPagesMachine s pd pde pte npages=unmapPages s pd pde pte npages := by
  have hloop := @unmapPagesWords_eq s pd pde pte npages 0 0 hpde (by omega) (by omega)
  rw [Nat.zero_mul] at hloop
  exact hloop

/-! ## Ranges -/

/-- The page behind a walk's index. -/
theorem page_slot (i : ℕ) : (pde*PT_SIZE+pte+i)/PT_SIZE=pde+(pte+i)/PT_SIZE ∧
    (pde*PT_SIZE+pte+i)%PT_SIZE=(pte+i)%PT_SIZE := by
  simp only [PT_SIZE]
  omega

/-- Walks reach the entries of the pages of their range. -/
theorem reached_iff {pt j : ℕ} : (∃ i<npages,Reached s pd pde pte i pt j) ↔
    ∃ page,InRange pde pte npages page ∧ (pt,j)=entryOf s pd page := by
  constructor
  · rintro ⟨i,hi,hin,rfl,rfl⟩
    obtain ⟨hslot,hindex⟩ := @page_slot pde pte i
    refine ⟨pde*PT_SIZE+pte+i,⟨i,hi,rfl,?_⟩,?_⟩
    · simp only [PT_SIZE] at hin ⊢
      omega
    · rw [entryOf,hslot,hindex]
  · rintro ⟨page,⟨i,hi,rfl,hlt⟩,heq⟩
    obtain ⟨hslot,hindex⟩ := @page_slot pde pte i
    rw [entryOf,hslot,hindex] at heq
    obtain ⟨rfl,rfl⟩ := Prod.mk.inj heq
    refine ⟨i,hi,?_,rfl,rfl⟩
    simp only [PT_SIZE] at hlt ⊢
    omega

/-- An entry without its first flag, bit by bit. -/
theorem testBit_unmapped (entry : ℕ) {b : ℕ} (hb : b<32) :
    (entry&&&0xFFFFFFFE).testBit b=(decide (b≠0) && entry.testBit b) := by
  have hmask : (0xFFFFFFFE : ℕ).testBit b=decide (b≠0) := by
    interval_cases b <;> rfl
  rw [Nat.testBit_and,hmask,Bool.and_comm]

/-- What a walk drops is what its range asks for. -/
theorem rangeUnmapped_of_unmapped (h : Unmapped s pd pde pte 0 npages t) :
    RangeUnmapped s pd pde pte npages t := by
  have hdrop : ∀ page,InRange pde pte npages page →
      t.tables (entryOf s pd page).1 (entryOf s pd page).2=
        s.tables (entryOf s pd page).1 (entryOf s pd page).2&&&0xFFFFFFFE := by
    intro page hpage
    obtain ⟨i,hi,hreached⟩ := reached_iff.mpr ⟨page,hpage,rfl⟩
    exact h.dropped _ _ i (Nat.zero_le _) hi hreached
  refine ⟨h.dirs_eq,fun page hpage => ?_,fun page hpage b hb hne => ?_,fun pt j hout => ?_⟩
  · rw [hdrop page hpage,testBit_unmapped _ (by norm_num)]
    rfl
  · rw [hdrop page hpage,testBit_unmapped _ hb,decide_eq_true hne,Bool.true_and]
  · refine h.kept pt j fun i _ hi hreached => ?_
    obtain ⟨page,hpage,heq⟩ := reached_iff.mp ⟨i,hi,hreached⟩
    exact hout page hpage heq

/-- Unmapping a range whose tables exist makes exactly its pages below the end
of the directory not present, whatever it crosses. -/
theorem unmapPagesMachine_rangeUnmapped (s : Paging) (pd : ℕ) {pde pte : ℕ} (hpde : pde<PT_SIZE)
    (hpte : pte<PT_SIZE) (npages : ℕ)
    (htables : ∀ page,InRange pde pte npages page → (entryOf s pd page).1≠0) :
    ∃ t,unmapPagesMachine s pd pde pte npages=some t ∧ RangeUnmapped s pd pde pte npages t := by
  obtain ⟨hends,hspec⟩ := @unmapPages_spec s pd pde pte hpte npages
  have hwalk : Walkable s pd pde pte 0 npages := by
    intro i _ hi hin
    obtain ⟨page,hpage,heq⟩ := reached_iff.mp ⟨i,hi,hin,rfl,rfl⟩
    rw [(Prod.mk.inj heq).1]
    exact htables page hpage
  obtain ⟨t,ht⟩ := hends hwalk
  rw [unmapPagesMachine_eq hpde hpte]
  exact ⟨t,ht,rangeUnmapped_of_unmapped (hspec t ht).2⟩

/-- A directory whose slots have tables of their own, all pages present. -/
def fullDirectory : Paging where
  dirs := fun _ => ⟨fun _ => 0,fun pde => pde+1⟩
  tables := fun _ _ => 3
  curPd := 1
  virtKernelAddr := 0
  pages := fun _ => 0

/-- Three pages from the last but one page of the directory on. -/
theorem unmapPagesMachine_rangeUnmapped_end :
    ∃ t,unmapPagesMachine fullDirectory 1 1023 1022 3=some t ∧
      RangeUnmapped fullDirectory 1 1023 1022 3 t :=
  unmapPagesMachine_rangeUnmapped fullDirectory 1 (by decide) (by decide) 3
    fun _ _ => Nat.succ_ne_zero _

end XanaduOS.UnmapRange
