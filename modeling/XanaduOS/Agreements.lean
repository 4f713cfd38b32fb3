import Mathlib.Tactic

/-!
# Programs that agree from related states

Two programs with a state and possible failure agree for a relation between
their states when every result of the first is a result of the second, with
related states afterwards. Agreement is closed under sequencing and branching
on a value, so two runs are compared by comparing their primitive steps.
-/

namespace XanaduOS.Agreements

variable {σ α β : Type}

/-- Whenever the first program has a result from a related state, the second
has the same one and the states are related again. -/
def Agree (R : σ → σ → Prop) (x y : StateT σ Option α) : Prop :=
  ∀ s t,R s t → ∀ a s',x s=some (a,s') → ∃ t',y t=some (a,t') ∧ R s' t'

variable {R : σ → σ → Prop}

/-- Returning a value. -/
theorem Agree.pure (a : α) : Agree R (pure a) (pure a) := by
  intro s t hst b s' h
  obtain ⟨rfl,rfl⟩ := Prod.mk.inj (Option.some.inj h)
  exact ⟨t,rfl,hst⟩

/-- One program after another. -/
theorem Agree.bind {x y : StateT σ Option α} {f g : α → StateT σ Option β} (h : Agree R x y)
    (hf : ∀ a,Agree R (f a) (g a)) : Agree R (x >>= f) (y >>= g) := by
  intro s t hst b u hx
  obtain ⟨⟨a,s'⟩,hfirst,hrest⟩ := Option.bind_eq_some_iff.mp hx
  obtain ⟨t',hsecond,hst'⟩ := h s t hst a s' hfirst
  obtain ⟨u',hu,hrel⟩ := hf a s' t' hst' b u hrest
  exact ⟨u',Option.bind_eq_some_iff.mpr ⟨(a,t'),hsecond,hu⟩,hrel⟩

/-- Branching on the same condition. -/
theorem Agree.ite {c : Prop} [Decidable c] {x x' y y' : StateT σ Option α} (h : Agree R x y)
    (h' : Agree R x' y') : Agree R (if c then x else x') (if c then y else y') := by
  split
  · exact h
  · exact h'

/-- A program without results agrees with any. -/
theorem Agree.failure {x y : StateT σ Option α} (h : ∀ s,x s=none) : Agree R x y := by
  intro s t _ a s' hx
  rw [h s] at hx
  simp at hx

/-- One program after another, for every item of a list. -/
theorem Agree.mapM {f g : α → StateT σ Option β} (h : ∀ a,Agree R (f a) (g a)) (l : List α) :
    Agree R (l.mapM f) (l.mapM g) := by
  induction l with
  | nil => exact Agree.pure []
  | cons a l ih =>
    rw [List.mapM_cons,List.mapM_cons]
    exact (h a).bind fun b => ih.bind fun bs => Agree.pure (b::bs)

end XanaduOS.Agreements
