import Mathlib.Data.BitVec
import Mathlib.Data.List.GetD
import Mathlib.Tactic

/-!
# A stack of machine words

A stack is an address and the words of a memory. Words are pushed below the
address and read back from it upwards. Four bytes a word, 2^30 words reach all
the way round the address space: what is pushed is read back as long as it is
not longer than that, and the words that a stack pointer does not pass keep
their values.
-/

namespace XanaduOS.StackMachine

/-- A machine word. -/
abbrev Word := BitVec 32

/-- An address and the words of a memory, by address. -/
structure Stack where
  /-- Address of the last word pushed. -/
  top : Word
  /-- Words of the memory. -/
  words : Word → Word

/-- Push a word. -/
def Stack.push (s : Stack) (word : Word) : Stack :=
  ⟨s.top-4,Function.update s.words (s.top-4) word⟩

/-- Push words, the first one first. -/
def Stack.pushAll (s : Stack) : List Word → Stack
  | [] => s
  | word::rest => (s.push word).pushAll rest

/-- The word some words above the address. -/
def Stack.peek (s : Stack) (i : ℕ) : Word := s.words (s.top+4*BitVec.ofNat 32 i)

/-- Move the address up by some words. -/
def Stack.drop (s : Stack) (n : ℕ) : Stack := {s with top := s.top+4*BitVec.ofNat 32 n}

/-- The words from the address upwards. -/
def Stack.frame (s : Stack) (n : ℕ) : List Word := (List.range n).map s.peek

/-- Replace words that begin some words above the address. -/
def Stack.poke (s : Stack) (n : ℕ) (words : List Word) : Stack :=
  {s with words := fun addr =>
    let off := (addr-s.top).toNat
    if off%4=0 ∧ n≤off/4 ∧ off/4<n+words.length then words.getD (off/4-n) 0 else s.words addr}

/-- The same address, and the same words except for some right below it. -/
structure Stack.Keeps (below : ℕ) (s t : Stack) : Prop where
  /-- The address. -/
  top : t.top=s.top
  /-- Words that are not among those right below the address. -/
  words : ∀ i,i+below<2^30 → t.peek i=s.peek i

variable {s t u : Stack}

/-! ## Words pushed -/

/-- The word pushed last is at the address. -/
theorem Stack.peek_push_zero (s : Stack) (word : Word) : (s.push word).peek 0=word := by
  have hzero : s.top-4+4*BitVec.ofNat 32 0=s.top-4 := by bv_omega
  rw [Stack.peek,Stack.push,hzero]
  exact Function.update_self ..

/-- The other words have moved up by one. -/
theorem Stack.peek_push_succ (s : Stack) (word : Word) {i : ℕ} (hi : i+1<2^30) :
    (s.push word).peek (i+1)=s.peek i := by
  have hsame : s.top-4+4*BitVec.ofNat 32 (i+1)=s.top+4*BitVec.ofNat 32 i := by bv_omega
  have hne : s.top+4*BitVec.ofNat 32 i≠s.top-4 := by bv_omega
  have hread : (s.push word).peek (i+1)=Function.update s.words (s.top-4) word
      (s.top+4*BitVec.ofNat 32 i) := congrArg (Function.update s.words (s.top-4) word) hsame
  rw [hread,Function.update_of_ne hne]
  rfl

/-- Words are read above what was dropped. -/
theorem Stack.peek_drop (s : Stack) (n i : ℕ) : (s.drop n).peek i=s.peek (n+i) := by
  have hsame : s.top+4*BitVec.ofNat 32 n+4*BitVec.ofNat 32 i=s.top+4*BitVec.ofNat 32 (n+i) := by
    bv_omega
  exact congrArg s.words hsame

/-- Dropping twice. -/
theorem Stack.drop_drop (s : Stack) (n k : ℕ) : (s.drop n).drop k=s.drop (n+k) := by
  have hsame : s.top+4*BitVec.ofNat 32 n+4*BitVec.ofNat 32 k=s.top+4*BitVec.ofNat 32 (n+k) := by
    bv_omega
  simp only [Stack.drop,hsame]

/-- The address after words were pushed. -/
theorem Stack.top_pushAll (s : Stack) (pushed : List Word) :
    (s.pushAll pushed).top=s.top-4*BitVec.ofNat 32 pushed.length := by
  induction pushed generalizing s with
  | nil =>
    rw [Stack.pushAll,List.length_nil]
    bv_omega
  | cons word rest ih =>
    have hsame : s.top-4-4*BitVec.ofNat 32 rest.length=s.top-4*BitVec.ofNat 32 (rest.length+1) := by
      bv_omega
    exact (ih (s.push word)).trans hsame

/-- Words pushed are read back from the last to the first, and above them the
words that were there. -/
theorem Stack.peek_pushAll (s : Stack) {pushed : List Word} {i : ℕ} (hi : i<2^30) :
    (s.pushAll pushed).peek i=
      if i<pushed.length then pushed.reverse.getD i 0 else s.peek (i-pushed.length) := by
  induction pushed generalizing s with
  | nil => rfl
  | cons word rest ih =>
    rw [Stack.pushAll,ih,List.length_cons,List.reverse_cons]
    rcases Nat.lt_trichotomy i rest.length with hlt|heq|hgt
    · rw [if_pos hlt,if_pos (by omega),List.getD_append _ _ _ _ (by rwa [List.length_reverse])]
    · rw [if_neg (by omega),if_pos (by omega),heq,Nat.sub_self,Stack.peek_push_zero,
        List.getD_append_right _ _ _ _ (by rw [List.length_reverse]),List.length_reverse,
        Nat.sub_self]
      rfl
    · have hsucc : i-rest.length=i-(rest.length+1)+1 := by omega
      rw [if_neg (by omega),if_neg (by omega),hsucc,Stack.peek_push_succ _ _ (by omega)]

/-! ## Words kept -/

/-- A stack keeps itself. -/
theorem Stack.Keeps.refl (s : Stack) : s.Keeps 0 s := ⟨rfl,fun _ _ => rfl⟩

/-- Fewer words below the address may change. -/
theorem Stack.Keeps.mono {n k : ℕ} (h : s.Keeps n t) (hle : n≤k) : s.Keeps k t :=
  ⟨h.top,fun i hi => h.words i (by omega)⟩

/-- Changes below one address add up. -/
theorem Stack.Keeps.trans {n : ℕ} (h : s.Keeps n t) (h' : t.Keeps n u) : s.Keeps n u :=
  ⟨h'.top.trans h.top,fun i hi => (h'.words i hi).trans (h.words i hi)⟩

/-- What happens below words that were pushed and are dropped again. -/
theorem Stack.Keeps.pushed {n : ℕ} {words : List Word} (h : (s.pushAll words).Keeps n t) :
    s.Keeps (words.length+n) (t.drop words.length) := by
  refine ⟨?_,fun i hi => ?_⟩
  · rw [Stack.drop,h.top,Stack.top_pushAll]
    simp only
    ring
  · rw [Stack.peek_drop,h.words _ (by omega),Stack.peek_pushAll _ (by omega),if_neg (by omega),
      Nat.add_sub_cancel_left]

/-- Words are read as they were replaced. -/
theorem Stack.peek_poke (s : Stack) (n : ℕ) (words : List Word) {i : ℕ} (hi : i<2^30) :
    (s.poke n words).peek i=
      if n ≤ i ∧ i<n+words.length then words.getD (i-n) 0 else s.peek i := by
  have hoff : (s.top+4*BitVec.ofNat 32 i-s.top).toNat=4*i := by bv_omega
  have hindex : 4*i/4=i := Nat.mul_div_cancel_left i (by norm_num)
  simp only [Stack.peek,Stack.poke,hoff,hindex,Nat.mul_mod_right,true_and]

end XanaduOS.StackMachine
