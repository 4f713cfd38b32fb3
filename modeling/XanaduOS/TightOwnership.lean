import XanaduOS.DyadicBlocks

/-!
# Tight ownership of dyadic blocks

An ownership is tight when each mark has a live block under it and unmarked blocks of
the highest order are free. The four moves keep it; giving back takes a block whose
sibling is marked. Free blocks of a tight ownership are those without a live block in
them whose sibling has one, so they depend on the live blocks alone, and there is a free
block of an order or above whenever some block of the order has no live one in it.
-/

namespace XanaduOS.TightOwnership

open DyadicBlocks

variable {top : ℕ} {dom : ℕ → Prop} {free live mark free' live' mark' : Block → Prop}
variable {b c x y : Block}

/-- Marks and free blocks that live blocks account for. -/
structure Tight (top : ℕ) (dom : ℕ → Prop) (free live mark : Block → Prop) : Prop where
  /-- Marked blocks have an order. -/
  order : ∀ b,mark b → b.order≤top
  /-- A marked block holds a live one. -/
  holds : ∀ b,mark b → ∃ c,live c ∧ c.Within b
  /-- An unmarked block of the highest order is free. -/
  root : ∀ b,b.order=top → dom b.index → ¬mark b → free b

/-- No live block lies in a block or around it. -/
def Clear (live : Block → Prop) (b : Block) : Prop := ∀ c,live c → ¬c.Within b ∧ ¬b.Within c

/-- A block of the domain. -/
def OfDomain (top : ℕ) (dom : ℕ → Prop) (b : Block) : Prop :=
  b.order≤top ∧ dom (b.index/2^(top-b.order))

/-! ## Moves -/

/-- Taking a free block. -/
theorem Tight.take (h : Tight top dom free live mark) (hx : x.order≤top)
    (hf : ∀ b,free' b ↔ free b ∧ b≠x) (hl : ∀ b,live' b ↔ live b ∨ b=x)
    (hm : ∀ b,mark' b ↔ mark b ∨ b=x) : Tight top dom free' live' mark' := by
  refine ⟨fun b hb => ?_,fun b hb => ?_,fun b ho hd hb => ?_⟩
  · rcases (hm b).mp hb with hb|rfl
    · exact h.order b hb
    · exact hx
  · rcases (hm b).mp hb with hb|rfl
    · obtain ⟨c,hc,hin⟩ := h.holds b hb
      exact ⟨c,(hl c).mpr (Or.inl hc),hin⟩
    · exact ⟨b,(hl b).mpr (Or.inr rfl),b.within_refl⟩
  · rw [hm,not_or] at hb
    exact (hf b).mpr ⟨h.root b ho hd hb.1,hb.2⟩

/-- Splitting a live block. -/
theorem Tight.split (h : Tight top dom free live mark) (hy : y.order≤top)
    (hf : ∀ b,free' b ↔ free b ∨ b=y.sibling)
    (hl : ∀ b,live' b ↔ (live b ∧ b≠y.parent) ∨ b=y) (hm : ∀ b,mark' b ↔ mark b ∨ b=y) :
    Tight top dom free' live' mark' := by
  have hlive : live' y := (hl y).mpr (Or.inr rfl)
  refine ⟨fun b hb => ?_,fun b hb => ?_,fun b ho hd hb => ?_⟩
  · rcases (hm b).mp hb with hb|rfl
    · exact h.order b hb
    · exact hy
  · rcases (hm b).mp hb with hb|rfl
    · obtain ⟨c,hc,hin⟩ := h.holds b hb
      by_cases heq : c=y.parent
      · subst heq
        exact ⟨y,hlive,y.within_parent.trans hin⟩
      · exact ⟨c,(hl c).mpr (Or.inl ⟨hc,heq⟩),hin⟩
    · exact ⟨b,hlive,b.within_refl⟩
  · rw [hm,not_or] at hb
    exact (hf b).mpr (Or.inl (h.root b ho hd hb.1))

/-- Merging a live block with its free sibling. -/
theorem Tight.merge (h : Tight top dom free live mark) (hx : x.order<top)
    (hf : ∀ b,b.order=top → free b → free' b)
    (hl : ∀ b,live' b ↔ (live b ∧ b≠x) ∨ b=x.parent) (hm : ∀ b,mark' b ↔ mark b ∧ b≠x) :
    Tight top dom free' live' mark' := by
  refine ⟨fun b hb => h.order b ((hm b).mp hb).1,fun b hb => ?_,fun b ho hd hb => ?_⟩
  · obtain ⟨hmark,hne⟩ := (hm b).mp hb
    obtain ⟨c,hc,hin⟩ := h.holds b hmark
    by_cases heq : c=x
    · subst heq
      exact ⟨c.parent,(hl _).mpr (Or.inr rfl),hin.parent_within hne.symm⟩
    · exact ⟨c,(hl c).mpr (Or.inl ⟨hc,heq⟩),hin⟩
  · have hbx : b≠x := fun heq => hx.ne (heq▸ho)
    have hclear : ¬mark b := fun hmark => hb ((hm b).mpr ⟨hmark,hbx⟩)
    exact hf b ho (h.root b ho hd hclear)

/-- Giving a live block back, when its sibling is marked or it has none. -/
theorem Tight.give (h : Tight top dom free live mark) (hx : x.order=top ∨ mark x.sibling)
    (hf : ∀ b,free' b ↔ free b ∨ b=x) (hl : ∀ b,live' b ↔ live b ∧ b≠x)
    (hm : ∀ b,mark' b ↔ mark b ∧ b≠x) : Tight top dom free' live' mark' := by
  refine ⟨fun b hb => h.order b ((hm b).mp hb).1,fun b hb => ?_,fun b ho hd hb => ?_⟩
  · obtain ⟨hmark,hne⟩ := (hm b).mp hb
    obtain ⟨c,hc,hin⟩ := h.holds b hmark
    by_cases heq : c=x
    · subst heq
      have hparent := hin.parent_within hne.symm
      -- something else under the mark is live: it lies in the sibling
      rcases hx with htop|hsib
      · have hle := h.order b hmark
        have hup : c.order+1≤b.order := hparent.1
        omega
      · obtain ⟨z,hz,hzin⟩ := h.holds _ hsib
        have hzb : z.Within b := hzin.trans ((c.sibling_parent▸c.sibling.within_parent).trans hparent)
        refine ⟨z,(hl z).mpr ⟨hz,fun heq => ?_⟩,hzb⟩
        subst heq
        exact z.sibling_ne (hzin.eq_of_order rfl).symm
    · exact ⟨c,(hl c).mpr ⟨hc,heq⟩,hin⟩
  · rw [hf]
    by_cases heq : b=x
    · exact Or.inr heq
    · exact Or.inl (h.root b ho hd fun hmark => hb ((hm b).mpr ⟨hmark,heq⟩))

/-! ## What is free -/

/-- A free block is clear. -/
theorem clear_of_free (h : Ownership top dom free live mark) (hb : free b) : Clear live b := by
  intro c hc
  have hne : b≠c := fun heq => h.notBoth b hb (heq▸hc)
  exact ⟨fun hin => hne (h.apart c b (Or.inr hc) (Or.inl hb) hin).symm,
    fun hin => hne (h.apart b c (Or.inl hb) (Or.inr hc) hin)⟩

/-- A block with a live one in its sibling and none in itself. -/
theorem not_clear_sibling (hb : Clear live b) (hs : ¬Clear live b.sibling) :
    ∃ c,live c ∧ c.Within b.sibling := by
  simp only [Clear,not_forall,not_and_or,not_not] at hs
  obtain ⟨c,hc,hin|hin⟩ := hs
  · exact ⟨c,hc,hin⟩
  · by_cases heq : b.sibling=c
    · exact ⟨c,hc,heq▸c.within_refl⟩
    · have hparent := hin.parent_within heq
      rw [b.sibling_parent] at hparent
      exact absurd (b.within_parent.trans hparent) (hb c hc).2

/-- The parent of two clear blocks is clear. -/
theorem Clear.parent (hb : Clear live b) (hs : Clear live b.sibling) : Clear live b.parent := by
  refine fun c hc => ⟨fun hin => ?_,fun hin => (hb c hc).2 (b.within_parent.trans hin)⟩
  rcases hin.parent_cases with rfl|hin|hin
  · exact (hb _ hc).2 b.within_parent
  · exact (hb c hc).1 hin
  · exact (hs c hc).1 hin

/-- What lies in a clear block is clear. -/
theorem Clear.within (hb : Clear live b) (hin : c.Within b) : Clear live c := by
  refine fun z hz => ⟨fun hzc => (hb z hz).1 (hzc.trans hin),fun hcz => ?_⟩
  rcases hin.comparable hcz with hbz|hzb
  · exact (hb z hz).2 hbz
  · exact (hb z hz).1 hzb

variable (h : Ownership top dom free live mark) (ht : Tight top dom free live mark)

include h ht

/-- Free blocks are the clear blocks of the domain whose sibling is not clear. -/
theorem Tight.free_iff : free b ↔
    OfDomain top dom b ∧ Clear live b ∧ (b.order=top ∨ ¬Clear live b.sibling) := by
  constructor
  · intro hb
    refine ⟨h.inside b (Or.inl hb),clear_of_free h hb,?_⟩
    rcases (h.inside b (Or.inl hb)).1.lt_or_eq with hlt|heq
    · right
      intro hs
      have hmark := h.aboveMark b b.parent (Or.inl hb) b.within_parent b.parent_ne.symm hlt
      obtain ⟨c,hc,hin⟩ := ht.holds _ hmark
      exact ((clear_of_free h hb).parent hs c hc).1 hin
    · exact Or.inl heq
  · rintro ⟨⟨ho,hd⟩,hclear,hb⟩
    have hunmarked : ¬mark b := by
      intro hmark
      obtain ⟨c,hc,hin⟩ := ht.holds b hmark
      exact (hclear c hc).1 hin
    by_cases htop : b.order=top
    · rw [htop,Nat.sub_self,pow_zero,Nat.div_one] at hd
      exact ht.root b htop hd hunmarked
    · obtain ⟨c,hc,hin⟩ := not_clear_sibling hclear (hb.resolve_left htop)
      have hcp : c.Within b.parent := hin.trans (b.sibling_parent▸b.sibling.within_parent)
      have hne : c≠b.parent := by
        rintro rfl
        exact absurd hin.1 (Nat.not_succ_le_self _)
      have hlt : b.order<top := lt_of_le_of_ne ho htop
      refine h.halfFree b hlt (h.aboveMark c _ (Or.inr hc) hcp hne hlt) (fun hp => ?_) hunmarked
      exact (hclear _ hp).2 b.within_parent

/-- A clear block lies in a free one. -/
theorem Tight.within_free (hdom : OfDomain top dom b) (hclear : Clear live b) :
    ∃ c,free c ∧ b.Within c := by
  obtain ⟨n,hn⟩ : ∃ n,b.order+n=top := ⟨top-b.order,Nat.add_sub_cancel' hdom.1⟩
  -- climb while the sibling is clear as well
  induction n generalizing b with
  | zero => exact ⟨b,(ht.free_iff h).mpr ⟨hdom,hclear,Or.inl hn⟩,b.within_refl⟩
  | succ n ih =>
    by_cases hs : Clear live b.sibling
    · have hn' : b.parent.order+n=top := by
        simp only [Block.parent]
        omega
      have hpow : 2^(top-b.order)=2*2^(top-b.parent.order) := by
        rw [←pow_succ']
        congr 1
        omega
      have hdom' : dom (b.parent.index/2^(top-b.parent.order)) := by
        have hroot := hdom.2
        rw [hpow,←Nat.div_div_eq_div_mul] at hroot
        exact hroot
      obtain ⟨c,hc,hin⟩ := ih ⟨by omega,hdom'⟩ (hclear.parent hs) hn'
      exact ⟨c,hc,b.within_parent.trans hin⟩
    · exact ⟨b,(ht.free_iff h).mpr ⟨hdom,hclear,Or.inr hs⟩,b.within_refl⟩

/-- There is a free block of an order or above exactly when some block of the order is
clear. -/
theorem Tight.exists_free_iff {order : ℕ} :
    (∃ b,free b ∧ order≤b.order) ↔ ∃ b,b.order=order ∧ OfDomain top dom b ∧ Clear live b := by
  constructor
  · rintro ⟨b,hb,ho⟩
    have hin : Block.Within ⟨order,b.index*2^(b.order-order)⟩ b :=
      ⟨ho,Nat.mul_div_cancel _ (Nat.two_pow_pos _)⟩
    obtain ⟨root,hr,hw,hd⟩ := h.within_root (Or.inl hb)
    exact ⟨_,rfl,inside_of_within hr (hin.trans hw) hd,(clear_of_free h hb).within hin⟩
  · rintro ⟨b,rfl,hdom,hclear⟩
    obtain ⟨c,hc,hin⟩ := ht.within_free h hdom hclear
    exact ⟨c,hc,hin.1⟩

end XanaduOS.TightOwnership
