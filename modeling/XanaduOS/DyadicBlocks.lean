import Mathlib.Tactic

/-!
# Ownership of dyadic blocks

A block is an order and an index; its parent halves the index. Blocks are
either nested or apart. A set of free blocks, a set of live blocks and one
mark for each block form an ownership when owned blocks are apart, marks
agree with the two sets, all blocks above an owned one are marked and all
below it are not. Four moves keep it: taking a free block, splitting a live
one, merging a live one with its free sibling, and giving a live one back.
-/

namespace XanaduOS.DyadicBlocks

/-- A block of `2^order` units at a multiple of its size. -/
@[ext] structure Block where
  /-- Binary logarithm of the size. -/
  order : ℕ
  /-- Position in multiples of the size. -/
  index : ℕ
  deriving DecidableEq

/-- The block of the next order holding this one. -/
def Block.parent (b : Block) : Block := ⟨b.order+1,b.index/2⟩

/-- The other block of the same parent. -/
def Block.sibling (b : Block) : Block :=
  ⟨b.order,if b.index%2=0 then b.index+1 else b.index-1⟩

/-- The half of a block at the same start. -/
def Block.lower (b : Block) : Block := ⟨b.order-1,2*b.index⟩

/-- The other half of a block. -/
def Block.upper (b : Block) : Block := ⟨b.order-1,2*b.index+1⟩

/-- First unit of a block. -/
def Block.first (b : Block) : ℕ := b.index*2^b.order

/-- Nesting, including equality. -/
def Block.Within (b c : Block) : Prop :=
  b.order≤c.order ∧ b.index/2^(c.order-b.order)=c.index

variable {b c d : Block}

/-- Every block lies within itself. -/
theorem Block.within_refl (b : Block) : b.Within b := by
  simp [Block.Within]

/-- Nesting is transitive. -/
theorem Block.Within.trans (h : b.Within c) (h' : c.Within d) : b.Within d := by
  obtain ⟨h0,h1⟩ := h
  obtain ⟨h2,h3⟩ := h'
  refine ⟨h0.trans h2,?_⟩
  rw [←h3,←h1,Nat.div_div_eq_div_mul,←pow_add]
  congr 2
  omega

/-- Blocks of one order are nested only when equal. -/
theorem Block.Within.eq_of_order (h : b.Within c) (ho : b.order=c.order) : b=c := by
  obtain ⟨_,h1⟩ := h
  rw [ho,Nat.sub_self,pow_zero,Nat.div_one] at h1
  exact Block.ext ho h1

/-- Mutual nesting is equality. -/
theorem Block.Within.antisymm (h : b.Within c) (h' : c.Within b) : b=c :=
  h.eq_of_order (le_antisymm h.1 h'.1)

/-- Two blocks around a third are nested. -/
theorem Block.Within.comparable (h : b.Within c) (h' : b.Within d) :
    c.Within d ∨ d.Within c := by
  obtain ⟨h0,h1⟩ := h
  obtain ⟨h2,h3⟩ := h'
  rcases le_total c.order d.order with hle|hle
  · refine Or.inl ⟨hle,?_⟩
    rw [←h3,←h1,Nat.div_div_eq_div_mul,←pow_add]
    congr 2
    omega
  · refine Or.inr ⟨hle,?_⟩
    rw [←h3,←h1,Nat.div_div_eq_div_mul,←pow_add]
    congr 2
    omega

/-- Blocks lie within their parents. -/
theorem Block.within_parent (b : Block) : b.Within b.parent := by
  refine ⟨Nat.le_succ _,?_⟩
  simp [Block.parent]

/-- What properly holds a block holds its parent. -/
theorem Block.Within.parent_within (h : b.Within c) (hne : b≠c) : b.parent.Within c := by
  have hlt : b.order<c.order := lt_of_le_of_ne h.1 fun ho => hne (h.eq_of_order ho)
  refine ⟨hlt,?_⟩
  rw [←h.2]
  simp only [Block.parent]
  rw [Nat.div_div_eq_div_mul,←pow_succ']
  congr 2
  omega

/-- Siblings share the parent. -/
theorem Block.sibling_parent (b : Block) : b.sibling.parent=b.parent := by
  simp only [Block.sibling,Block.parent,Block.mk.injEq,true_and]
  split <;> omega

/-- No block is its own sibling. -/
theorem Block.sibling_ne (b : Block) : b.sibling≠b := by
  intro h
  have hi := congrArg Block.index h
  simp only [Block.sibling] at hi
  split at hi <;> omega

/-- No block is its own parent. -/
theorem Block.parent_ne (b : Block) : b.parent≠b := by
  intro h
  have ho := congrArg Block.order h
  simp [Block.parent] at ho

/-- Two different blocks with one parent are siblings. -/
theorem Block.eq_sibling (h : b.parent=c.parent) (hne : b≠c) : b=c.sibling := by
  obtain ⟨ho,hi⟩ := Block.mk.inj h
  have hio : b.index≠c.index := fun heq => hne (Block.ext (by omega) heq)
  have hord : b.order=c.order := by omega
  refine Block.ext hord ?_
  simp only [Block.sibling]
  split <;> omega

/-- A block within a parent is the parent or lies within one of its halves. -/
theorem Block.Within.parent_cases (h : b.Within c.parent) :
    b=c.parent ∨ b.Within c ∨ b.Within c.sibling := by
  by_cases ho : b.order=c.parent.order
  · exact Or.inl (h.eq_of_order ho)
  · have hle : b.order≤c.order := by
      have := h.1
      simp only [Block.parent] at this ho
      omega
    let e : Block := ⟨c.order,b.index/2^(c.order-b.order)⟩
    have hbe : b.Within e := ⟨hle,rfl⟩
    have hparent : e.parent=c.parent := by
      have hq := h.2
      simp only [Block.parent] at hq
      refine Block.ext rfl ?_
      simp only [Block.parent]
      rw [←hq,Nat.div_div_eq_div_mul,←pow_succ]
      congr 2
      omega
    by_cases he : e=c
    · exact Or.inr (Or.inl (he▸hbe))
    · exact Or.inr (Or.inr (Block.eq_sibling hparent he▸hbe))

/-- Both halves have the block as parent. -/
theorem Block.lower_parent (h : 0<b.order) : b.lower.parent=b := by
  refine Block.ext ?_ ?_
  · simp only [Block.lower,Block.parent]
    omega
  · simp only [Block.lower,Block.parent]
    omega

/-- The two halves are siblings. -/
theorem Block.lower_sibling (b : Block) : b.lower.sibling=b.upper := by
  simp [Block.lower,Block.upper,Block.sibling]

/-- Blocks that are not nested share no unit. -/
theorem Block.disjoint_of_not_within (h : ¬b.Within c) (h' : ¬c.Within b) :
    b.first+2^b.order≤c.first ∨ c.first+2^c.order≤b.first := by
  have hwlog : ∀ {x y : Block},x.order≤y.order → ¬x.Within y →
      x.first+2^x.order≤y.first ∨ y.first+2^y.order≤x.first := by
    intro x y hle hn
    obtain ⟨k,hk⟩ := Nat.exists_eq_add_of_le hle
    have hne : x.index/2^k≠y.index := fun heq => hn ⟨hle,by rw [hk,Nat.add_sub_cancel_left]; exact heq⟩
    have hpow : 2^y.order=2^k*2^x.order := by rw [hk,pow_add,Nat.mul_comm]
    simp only [Block.first,hpow]
    rcases Nat.lt_or_gt_of_ne hne with hlt|hlt
    · left
      rw [Nat.div_lt_iff_lt_mul (Nat.two_pow_pos k)] at hlt
      calc x.index*2^x.order+2^x.order=(x.index+1)*2^x.order := by ring
        _≤(y.index*2^k)*2^x.order := Nat.mul_le_mul_right _ hlt
        _=y.index*(2^k*2^x.order) := by ring
    · right
      have hge := (Nat.le_div_iff_mul_le (Nat.two_pow_pos k)).mp (Nat.succ_le_of_lt hlt)
      calc y.index*(2^k*2^x.order)+2^k*2^x.order=((y.index+1)*2^k)*2^x.order := by ring
        _≤x.index*2^x.order := Nat.mul_le_mul_right _ hge
  rcases le_total b.order c.order with hle|hle
  · exact hwlog hle h
  · exact (hwlog hle h').symm

/-- A block within another starts and ends within it. -/
theorem Block.Within.units (h : b.Within c) :
    c.first≤b.first ∧ b.first+2^b.order≤c.first+2^c.order := by
  obtain ⟨k,hk⟩ := Nat.exists_eq_add_of_le h.1
  have hindex := h.2
  rw [hk,Nat.add_sub_cancel_left] at hindex
  have hpow : 2^c.order=2^k*2^b.order := by rw [hk,pow_add,Nat.mul_comm]
  have hlow : c.index*2^k≤b.index := hindex▸Nat.div_mul_le_self _ _
  have hhigh : b.index+1≤(c.index+1)*2^k := by
    rw [←hindex]
    exact Nat.lt_mul_of_div_lt (Nat.lt_succ_self _) (Nat.two_pow_pos k)
  simp only [Block.first,hpow]
  constructor
  · calc c.index*(2^k*2^b.order)=c.index*2^k*2^b.order := by ring
      _≤b.index*2^b.order := Nat.mul_le_mul_right _ hlow
  · calc b.index*2^b.order+2^b.order=(b.index+1)*2^b.order := by ring
      _≤(c.index+1)*2^k*2^b.order := Nat.mul_le_mul_right _ hhigh
      _=c.index*(2^k*2^b.order)+2^k*2^b.order := by ring

/-- Blocks are nested exactly when they share a unit. -/
theorem Block.nested_iff : (b.Within c ∨ c.Within b) ↔
    ¬(b.first+2^b.order≤c.first ∨ c.first+2^c.order≤b.first) := by
  have hb := Nat.two_pow_pos b.order
  have hc := Nat.two_pow_pos c.order
  constructor
  · rintro (h|h)
    · have := h.units
      omega
    · have := h.units
      omega
  · intro h
    by_contra hn
    rw [not_or] at hn
    exact h (Block.disjoint_of_not_within hn.1 hn.2)

/-! ## Ownership -/

/-- Free blocks, live blocks and marks that agree. The roots of all owned
blocks lie in a domain of indices of the highest order. -/
structure Ownership (top : ℕ) (dom : ℕ → Prop) (free live mark : Block → Prop) : Prop where
  /-- Owned blocks have an order and a root in the domain. -/
  inside : ∀ b,free b ∨ live b → b.order≤top ∧ dom (b.index/2^(top-b.order))
  /-- Owned blocks are not properly nested. -/
  apart : ∀ b c,free b ∨ live b → free c ∨ live c → b.Within c → b=c
  /-- No block is free and live. -/
  notBoth : ∀ b,free b → ¬live b
  /-- Free blocks are not marked. -/
  freeClear : ∀ b,free b → ¬mark b
  /-- Live blocks are marked. -/
  liveMark : ∀ b,live b → mark b
  /-- Blocks above an owned block are marked. -/
  aboveMark : ∀ b c,free b ∨ live b → b.Within c → b≠c → c.order≤top → mark c
  /-- Blocks below an owned block are not marked. -/
  belowClear : ∀ b c,free c ∨ live c → b.Within c → b≠c → ¬mark b
  /-- An unmarked half of a split block is free. -/
  halfFree : ∀ b,b.order<top → mark b.parent → ¬live b.parent → ¬mark b → free b

variable {top : ℕ} {dom : ℕ → Prop} {free live mark free' live' mark' : Block → Prop}

/-- Taking a free block and marking it. -/
theorem Ownership.take (h : Ownership top dom free live mark) {x : Block} (hx : free x)
    (hf : ∀ b,free' b ↔ free b ∧ b≠x) (hl : ∀ b,live' b ↔ live b ∨ b=x)
    (hm : ∀ b,mark' b ↔ mark b ∨ b=x) : Ownership top dom free' live' mark' := by
  have howned : ∀ b,free' b ∨ live' b → free b ∨ live b := by
    intro b hb
    rw [hf,hl] at hb
    rcases hb with hb|hb|rfl
    · exact Or.inl hb.1
    · exact Or.inr hb
    · exact Or.inl hx
  refine ⟨fun b hb => h.inside b (howned b hb),
    fun b c hb hc => h.apart b c (howned b hb) (howned c hc),?_,?_,?_,?_,?_,?_⟩
  · intro b hb
    rw [hf] at hb
    rw [hl]
    rintro (hlive|heq)
    · exact h.notBoth b hb.1 hlive
    · exact hb.2 heq
  · intro b hb
    rw [hf] at hb
    rw [hm]
    rintro (hmark|heq)
    · exact h.freeClear b hb.1 hmark
    · exact hb.2 heq
  · intro b hb
    rw [hl] at hb
    rw [hm]
    exact hb.imp_left (h.liveMark b)
  · intro b c hb hbc hne ho
    rw [hm]
    exact Or.inl (h.aboveMark b c (howned b hb) hbc hne ho)
  · intro b c hc hbc hne hmark
    rcases (hm b).mp hmark with hmark|rfl
    · exact h.belowClear b c (howned c hc) hbc hne hmark
    · exact hne (h.apart b c (Or.inl hx) (howned c hc) hbc)
  · intro b ho hp hlive hclear
    rw [hm] at hp hclear
    rw [hl] at hlive
    have hold := h.halfFree b ho (hp.resolve_right fun heq => hlive (Or.inr heq))
      (fun hl => hlive (Or.inl hl)) fun hmark => hclear (Or.inl hmark)
    exact (hf b).mpr ⟨hold,fun heq => hclear (Or.inr heq)⟩

/-- Giving a live block back and clearing its mark. -/
theorem Ownership.give (h : Ownership top dom free live mark) {x : Block} (hx : live x)
    (hf : ∀ b,free' b ↔ free b ∨ b=x) (hl : ∀ b,live' b ↔ live b ∧ b≠x)
    (hm : ∀ b,mark' b ↔ mark b ∧ b≠x) : Ownership top dom free' live' mark' := by
  have howned : ∀ b,free' b ∨ live' b → free b ∨ live b := by
    intro b hb
    rw [hf,hl] at hb
    rcases hb with (hb|rfl)|hb
    · exact Or.inl hb
    · exact Or.inr hx
    · exact Or.inr hb.1
  refine ⟨fun b hb => h.inside b (howned b hb),
    fun b c hb hc => h.apart b c (howned b hb) (howned c hc),?_,?_,?_,?_,?_,?_⟩
  · intro b hb
    rw [hf] at hb
    rw [hl]
    rintro ⟨hlive,hne⟩
    exact h.notBoth b (hb.resolve_right hne) hlive
  · intro b hb
    rw [hf] at hb
    rw [hm]
    rintro ⟨hmark,hne⟩
    exact h.freeClear b (hb.resolve_right hne) hmark
  · intro b hb
    rw [hl] at hb
    rw [hm]
    exact ⟨h.liveMark b hb.1,hb.2⟩
  · intro b c hb hbc hne ho
    rw [hm]
    refine ⟨h.aboveMark b c (howned b hb) hbc hne ho,fun heq => hne ?_⟩
    exact h.apart b c (howned b hb) (Or.inr (heq▸hx)) hbc
  · intro b c hc hbc hne hmark
    exact h.belowClear b c (howned c hc) hbc hne ((hm b).mp hmark).1
  · intro b ho hp hlive hclear
    rw [hm] at hp hclear
    rw [hl] at hlive
    rw [hf]
    by_cases heq : b=x
    · exact Or.inr heq
    · exact Or.inl (h.halfFree b ho hp.1 (fun hl => hlive ⟨hl,hp.2⟩) fun hmark => hclear ⟨hmark,heq⟩)

/-- A block below an owned one is apart from every other owned block. -/
theorem Ownership.apart_below (h : Ownership top dom free live mark) {x z : Block}
    (hx : free x ∨ live x) (hz : z.Within x) (hb : free b ∨ live b) (hne : b≠x) :
    ¬z.Within b ∧ ¬b.Within z := by
  constructor
  · intro hzb
    rcases hzb.comparable hz with hbx|hxb
    · exact hne (h.apart b x hb hx hbx)
    · exact hne (h.apart x b hx hb hxb).symm
  · intro hbz
    exact hne (h.apart b x hb hx (hbz.trans hz))

/-- The root of an owned block, as a block around it. -/
theorem Ownership.within_root (h : Ownership top dom free live mark) {x : Block}
    (hx : free x ∨ live x) : ∃ root : Block,root.order=top ∧ x.Within root ∧ dom root.index :=
  ⟨⟨top,x.index/2^(top-x.order)⟩,rfl,⟨(h.inside x hx).1,rfl⟩,(h.inside x hx).2⟩

/-- A block within a root of the domain has an order and that root. -/
theorem inside_of_within {root : Block} (ho : root.order=top) (hb : b.Within root)
    (hd : dom root.index) : b.order≤top ∧ dom (b.index/2^(top-b.order)) := by
  subst ho
  exact ⟨hb.1,hb.2.symm▸hd⟩

/-! ### Halves of a live block -/

section

variable {y z : Block}

/-- A half of a block lies within it. -/
theorem Block.half_within (hz : z.parent=y.parent) : z.Within y.parent :=
  hz▸z.within_parent

/-- A half of a block is not the block. -/
theorem Block.half_ne (hz : z.parent=y.parent) : z≠y.parent :=
  fun heq => z.parent_ne (hz.trans heq.symm)

/-- Halves of a block are nested only when equal. -/
theorem Block.half_eq (hy : b.parent=y.parent) (hz : z.parent=y.parent) (h : b.Within z) : b=z := by
  obtain ⟨ho,_⟩ := Block.mk.inj (hy.trans hz.symm)
  exact h.eq_of_order (Nat.succ.inj ho)

/-- A half of a live block has an order and a root in the domain. -/
theorem Ownership.half_inside (h : Ownership top dom free live mark) (hx : live y.parent)
    (hz : z.parent=y.parent) : z.order≤top ∧ dom (z.index/2^(top-z.order)) := by
  obtain ⟨root,ho,hw,hd⟩ := h.within_root (Or.inr hx)
  exact inside_of_within ho ((Block.half_within hz).trans hw) hd

/-- It is apart from every other owned block. -/
theorem Ownership.half_apart (h : Ownership top dom free live mark) (hx : live y.parent)
    (hz : z.parent=y.parent) (hb : free b ∨ live b) (hne : b≠y.parent) :
    ¬z.Within b ∧ ¬b.Within z := h.apart_below (Or.inr hx) (Block.half_within hz) hb hne

/-- It is not marked, nor is what lies within it. -/
theorem Ownership.half_clear (h : Ownership top dom free live mark) (hx : live y.parent)
    (hz : z.parent=y.parent) (hb : b.Within z) : ¬mark b := by
  refine h.belowClear b y.parent (Or.inr hx) (hb.trans (Block.half_within hz)) ?_
  intro heq
  exact Block.half_ne hz ((Block.half_within hz).antisymm (heq▸hb))

/-- What properly holds it is marked. -/
theorem Ownership.half_above (h : Ownership top dom free live mark) (hx : live y.parent)
    (hz : z.parent=y.parent) (hc : z.Within c) (hne : z≠c) (ho : c.order≤top) : mark c := by
  have hpc : y.parent.Within c := hz▸hc.parent_within hne
  by_cases hpe : y.parent=c
  · exact hpe▸h.liveMark _ hx
  · exact h.aboveMark _ c (Or.inr hx) hpc hpe ho

end

/-- Splitting a live block: its upper half becomes free, its lower half live
and marked. -/
theorem Ownership.split (h : Ownership top dom free live mark) {y : Block} (hx : live y.parent)
    (hf : ∀ b,free' b ↔ free b ∨ b=y.sibling)
    (hl : ∀ b,live' b ↔ (live b ∧ b≠y.parent) ∨ b=y) (hm : ∀ b,mark' b ↔ mark b ∨ b=y) :
    Ownership top dom free' live' mark' := by
  have hcases : ∀ b,free' b ∨ live' b →
      ((free b ∨ live b) ∧ b≠y.parent) ∨ b.parent=y.parent := by
    intro b hb
    rw [hf,hl] at hb
    rcases hb with (hb|rfl)|hb|rfl
    · exact Or.inl ⟨Or.inl hb,fun heq => h.notBoth b hb (heq▸hx)⟩
    · exact Or.inr y.sibling_parent
    · exact Or.inl ⟨Or.inr hb.1,hb.2⟩
    · exact Or.inr rfl
  have hyne : y≠y.parent := y.parent_ne.symm
  have hold : ¬(free y ∨ live y) := fun hy => (h.half_apart hx rfl hy hyne).1 y.within_refl
  refine ⟨?_,?_,?_,?_,?_,?_,?_,?_⟩
  · intro b hb
    rcases hcases b hb with ⟨hbo,_⟩|hhalf
    · exact h.inside b hbo
    · exact h.half_inside hx hhalf
  · intro b c hb hc hbc
    rcases hcases b hb with ⟨hbo,hbn⟩|hbhalf
    · rcases hcases c hc with ⟨hco,_⟩|hchalf
      · exact h.apart b c hbo hco hbc
      · exact absurd hbc (h.half_apart hx hchalf hbo hbn).2
    · rcases hcases c hc with ⟨hco,hcn⟩|hchalf
      · exact absurd hbc (h.half_apart hx hbhalf hco hcn).1
      · exact Block.half_eq hbhalf hchalf hbc
  · intro b hb
    rw [hf] at hb
    rw [hl]
    rcases hb with hb|rfl
    · rintro (⟨hlive,_⟩|rfl)
      · exact h.notBoth b hb hlive
      · exact hold (Or.inl hb)
    · rintro (⟨hlive,hne⟩|heq)
      · exact (h.half_apart hx y.sibling_parent (Or.inr hlive) hne).1 (Block.within_refl _)
      · exact y.sibling_ne heq
  · intro b hb
    rw [hf] at hb
    rw [hm]
    rcases hb with hb|rfl
    · rintro (hmark|rfl)
      · exact h.freeClear b hb hmark
      · exact hold (Or.inl hb)
    · rintro (hmark|heq)
      · exact h.half_clear hx y.sibling_parent (Block.within_refl _) hmark
      · exact y.sibling_ne heq
  · intro b hb
    rw [hl] at hb
    rw [hm]
    exact hb.imp_left fun hold => h.liveMark b hold.1
  · intro b c hb hbc hne ho
    rw [hm]
    rcases hcases b hb with ⟨hbo,_⟩|hhalf
    · exact Or.inl (h.aboveMark b c hbo hbc hne ho)
    · exact Or.inl (h.half_above hx hhalf hbc hne ho)
  · intro b c hc hbc hne hmark
    rcases (hm b).mp hmark with hmark|rfl
    · rcases hcases c hc with ⟨hco,_⟩|hhalf
      · exact h.belowClear b c hco hbc hne hmark
      · exact h.half_clear hx hhalf hbc hmark
    · rcases hcases c hc with ⟨hco,hcn⟩|hhalf
      · exact (h.half_apart hx rfl hco hcn).1 hbc
      · exact hne (Block.half_eq rfl hhalf hbc)
  · intro b ho hp hlive hclearb
    rw [hm] at hp hclearb
    rw [hl] at hlive
    rw [hf]
    by_cases hby : b.parent=y.parent
    · have hbne : b≠y := fun heq => hclearb (Or.inr heq)
      exact Or.inr (Block.eq_sibling hby hbne)
    · have hpy : b.parent≠y := fun heq => hlive (Or.inr heq)
      refine Or.inl (h.halfFree b ho (hp.resolve_right hpy) ?_ fun hmark => hclearb (Or.inl hmark))
      exact fun hl => hlive (Or.inl ⟨hl,hby⟩)

/-- Merging a live block with its unmarked sibling: the parent becomes live. -/
theorem Ownership.merge (h : Ownership top dom free live mark) {x : Block} (hx : live x)
    (ho : x.order<top) (hs : ¬mark x.sibling) (hf : ∀ b,free' b ↔ free b ∧ b≠x.sibling)
    (hl : ∀ b,live' b ↔ (live b ∧ b≠x) ∨ b=x.parent) (hm : ∀ b,mark' b ↔ mark b ∧ b≠x) :
    free x.sibling ∧ Ownership top dom free' live' mark' := by
  have hxp : x.Within x.parent := x.within_parent
  have hxpne : x≠x.parent := x.parent_ne.symm
  have hmp : mark x.parent := h.aboveMark x x.parent (Or.inr hx) hxp hxpne ho
  have hnotp : ¬(free x.parent ∨ live x.parent) :=
    fun hp => hxpne (h.apart x x.parent (Or.inr hx) hp hxp)
  have hsfree : free x.sibling := by
    refine h.halfFree x.sibling ho ?_ ?_ hs
    · rwa [x.sibling_parent]
    · rw [x.sibling_parent]
      exact fun hp => hnotp (Or.inr hp)
  have hcases : ∀ b,free' b ∨ live' b →
      ((free b ∨ live b) ∧ b≠x ∧ b≠x.sibling) ∨ b=x.parent := by
    intro b hb
    rw [hf,hl] at hb
    rcases hb with hb|hb|rfl
    · exact Or.inl ⟨Or.inl hb.1,fun heq => h.notBoth b hb.1 (heq▸hx),hb.2⟩
    · exact Or.inl ⟨Or.inr hb.1,hb.2,fun heq => h.notBoth b (heq▸hsfree) hb.1⟩
    · exact Or.inr rfl
  refine ⟨hsfree,⟨?_,?_,?_,?_,?_,?_,?_,?_⟩⟩
  · intro b hb
    rcases hcases b hb with hold|rfl
    · exact h.inside b hold.1
    · obtain ⟨root,hr,hw,hd⟩ := h.within_root (Or.inr hx)
      exact inside_of_within hr (hw.parent_within fun heq => by rw [heq] at ho; omega) hd
  · intro b c hb hc hbc
    rcases hcases b hb with ⟨hbo,hbx,hbs⟩|rfl <;> rcases hcases c hc with ⟨hco,hcx,hcs⟩|rfl
    · exact h.apart b c hbo hco hbc
    · rcases hbc.parent_cases with heq|hin|hin
      · exact heq
      · exact absurd (h.apart b x hbo (Or.inr hx) hin) hbx
      · exact absurd (h.apart b _ hbo (Or.inl hsfree) hin) hbs
    · exact absurd (h.apart x c (Or.inr hx) hco (hxp.trans hbc)).symm hcx
    · rfl
  · intro b hb
    rw [hf] at hb
    rw [hl]
    rintro (hlive|rfl)
    · exact h.notBoth b hb.1 hlive.1
    · exact hnotp (Or.inl hb.1)
  · intro b hb
    rw [hf] at hb
    rw [hm]
    exact fun hmark => h.freeClear b hb.1 hmark.1
  · intro b hb
    rw [hl] at hb
    rw [hm]
    rcases hb with hb|rfl
    · exact ⟨h.liveMark b hb.1,hb.2⟩
    · exact ⟨hmp,hxpne.symm⟩
  · intro b c hb hbc hne hoc
    rw [hm]
    rcases hcases b hb with ⟨hbo,hbx,_⟩|rfl
    · refine ⟨h.aboveMark b c hbo hbc hne hoc,fun heq => hbx ?_⟩
      exact h.apart b x hbo (Or.inr hx) (heq▸hbc)
    · have hxc : x≠c := fun heq => hxpne (hxp.antisymm (heq▸hbc))
      exact ⟨h.aboveMark x c (Or.inr hx) (hxp.trans hbc) hxc hoc,hxc.symm⟩
  · intro b c hc hbc hne hmark
    obtain ⟨hmark,hbx⟩ := (hm b).mp hmark
    rcases hcases c hc with ⟨hco,_⟩|rfl
    · exact h.belowClear b c hco hbc hne hmark
    · rcases hbc.parent_cases with heq|hin|hin
      · exact hne heq
      · exact h.belowClear b x (Or.inr hx) hin hbx hmark
      · by_cases hbs : b=x.sibling
        · exact hs (hbs▸hmark)
        · exact h.belowClear b _ (Or.inl hsfree) hin hbs hmark
  · intro b hob hp hlive hclear
    rw [hm] at hp hclear
    rw [hl] at hlive
    have hbp : b.parent≠x.parent := fun heq => hlive (Or.inr heq)
    have hbx : b≠x := fun heq => hbp (heq▸rfl)
    have hbs : b≠x.sibling := fun heq => hbp (heq▸x.sibling_parent)
    refine (hf b).mpr ⟨h.halfFree b hob hp.1 ?_ fun hmark => hclear ⟨hmark,hbx⟩,hbs⟩
    exact fun hl => hlive (Or.inl ⟨hl,hp.2⟩)

end XanaduOS.DyadicBlocks
