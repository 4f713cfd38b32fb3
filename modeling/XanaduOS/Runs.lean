import Mathlib.Tactic

/-!
# Finite runs of a labelled step relation

A run is a list of labels, each taken by one step. An invariant preserved by
one step holds after every run. Restricting each step by a condition on the
state before it gives the guarded runs used where a property holds only along
runs that avoid some branch.
-/

namespace XanaduOS.Runs

variable {σ α : Type*}

/-- States joined by a list of labelled steps, first label first. -/
inductive Run (step : σ → α → σ → Prop) : σ → List α → σ → Prop
  | nil (s : σ) : Run step s [] s
  | cons {s t u : σ} {a : α} {as : List α} (head : step s a t) (tail : Run step t as u) :
      Run step s (a::as) u

/-- Steps whose label is admitted by the state before them. -/
def Guarded (step : σ → α → σ → Prop) (guard : σ → α → Prop) (s : σ) (a : α) (t : σ) : Prop :=
  guard s a ∧ step s a t

variable {step : σ → α → σ → Prop}

/-- What one step preserves, a run preserves. -/
theorem Run.invariant {inv : σ → Prop} (hstep : ∀ {s a t}, inv s → step s a t → inv t)
    {s t : σ} {as : List α} (hrun : Run step s as t) (hs : inv s) : inv t := by
  induction hrun with
  | nil s => exact hs
  | cons head _ ih => exact ih (hstep hs head)

/-- A guarded run preserves what every admitted step preserves. -/
theorem Run.guarded_invariant {inv : σ → Prop} {guard : σ → α → Prop}
    (hstep : ∀ {s a t}, inv s → guard s a → step s a t → inv t)
    {s t : σ} {as : List α} (hrun : Run (Guarded step guard) s as t) (hs : inv s) : inv t := by
  refine Run.invariant ?_ hrun hs
  intro s a t hi hg
  exact hstep hi hg.1 hg.2

/-- A run whose labels are admitted in every state is guarded. -/
theorem Run.guarded {guard : σ → α → Prop} {s t : σ} {as : List α} (h : Run step s as t)
    (hguard : ∀ a∈as,∀ u,guard u a) : Run (Guarded step guard) s as t := by
  induction h with
  | nil s => exact Run.nil s
  | cons head _ ih =>
    exact Run.cons ⟨hguard _ List.mem_cons_self _,head⟩
      (ih fun a ha => hguard a (List.mem_cons_of_mem _ ha))

/-- Runs compose. -/
theorem Run.append {s t u : σ} {as bs : List α} (h : Run step s as t) (h' : Run step t bs u) :
    Run step s (as++bs) u := by
  induction h with
  | nil s => exact h'
  | cons head _ ih => exact Run.cons head (ih h')

/-- A run takes steps of any larger relation. -/
theorem Run.mono {step' : σ → α → σ → Prop} (hstep : ∀ {s a t},step s a t → step' s a t)
    {s t : σ} {as : List α} (h : Run step s as t) : Run step' s as t := by
  induction h with
  | nil s => exact Run.nil s
  | cons head _ ih => exact Run.cons (hstep head) ih

/-- The relation of a step function. -/
def Steps (step : σ → α → Option σ) (s : σ) (a : α) (t : σ) : Prop := step s a=some t

/-- Folding a step function over a list of labels is a run. -/
theorem Run.of_foldlM {step : σ → α → Option σ} {s t : σ} {as : List α}
    (h : as.foldlM step s=some t) : Run (Steps step) s as t := by
  induction as generalizing s with
  | nil =>
    obtain rfl : s=t := Option.some.inj h
    exact Run.nil s
  | cons a as ih =>
    rw [List.foldlM_cons] at h
    obtain ⟨u,hu,hrest⟩ := Option.bind_eq_some_iff.mp h
    exact Run.cons hu (ih hrest)

/-! ## Runs of a function -/

/-- A property of each state and label along a run of a function. -/
def Along (apply : σ → α → σ) (p : σ → α → Prop) : σ → List α → Prop
  | _,[] => True
  | s,a::as => p s a ∧ Along apply p (apply s a) as

/-- Two properties agree along every run when they agree wherever an invariant
holds and one of them preserves it. -/
theorem along_iff {apply : σ → α → σ} {p q : σ → α → Prop} {inv : σ → Prop}
    (hiff : ∀ s a,inv s → (p s a ↔ q s a)) (hstep : ∀ s a,inv s → q s a → inv (apply s a))
    {s : σ} (hs : inv s) (as : List α) : Along apply p s as ↔ Along apply q s as := by
  induction as generalizing s with
  | nil => exact Iff.rfl
  | cons a as ih =>
    rw [Along,Along,hiff s a hs]
    exact and_congr_right fun ha => ih (hstep s a hs ha)

/-- A property of each step that is taken along a list of labels. -/
def AlongSteps (step : σ → α → Option σ) (p : σ → α → σ → Prop) : σ → List α → Prop
  | _,[] => True
  | s,a::as => ∀ t,step s a=some t → p s a t ∧ AlongSteps step p t as

/-- Two properties of steps agree along every run when they agree wherever an
invariant holds and one of them preserves it. -/
theorem alongSteps_iff {step : σ → α → Option σ} {p q : σ → α → σ → Prop} {inv : σ → Prop}
    (hiff : ∀ s a t,inv s → step s a=some t → (p s a t ↔ q s a t))
    (hstep : ∀ s a t,inv s → step s a=some t → q s a t → inv t) {s : σ} (hs : inv s)
    (as : List α) : AlongSteps step p s as ↔ AlongSteps step q s as := by
  induction as generalizing s with
  | nil => exact Iff.rfl
  | cons a as ih =>
    rw [AlongSteps,AlongSteps]
    refine forall₂_congr fun t ht => ?_
    rw [hiff s a t hs ht]
    exact and_congr_right fun hq => ih (hstep s a t hs ht hq)

end XanaduOS.Runs
