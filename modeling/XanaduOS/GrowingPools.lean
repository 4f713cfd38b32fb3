import Mathlib.Algebra.Order.Floor.Div
import Mathlib.Tactic

/-!
# Pools that grow when they are full

A pool hands out items of blocks of one capacity and takes them back. It gets a
block only for an item that its blocks have no room for, and gives none back.
So it has as many blocks as the most items out at a time need.
-/

namespace XanaduOS.GrowingPools

/-- Items out, and blocks. -/
structure Pool where
  /-- Items out. -/
  live : ℕ
  /-- Blocks. -/
  blocks : ℕ

/-- What is done with a pool. -/
inductive Event
  /-- An item is handed out. -/
  | take
  /-- An item is taken back. -/
  | give

/-- Items out after an event. -/
def Event.after (n : ℕ) : Event → ℕ
  | .take => n+1
  | .give => n-1

/-- One event. -/
def Pool.step (capacity : ℕ) (p : Pool) (e : Event) : Pool where
  live := e.after p.live
  blocks :=
    match e with
    | .take => if p.live=capacity*p.blocks then p.blocks+1 else p.blocks
    | .give => p.blocks

/-- The most items out at a time. -/
def peak : ℕ → List Event → ℕ
  | n,[] => n
  | n,e::events => max n (peak (e.after n) events)

/-- The peak is not below the start. -/
theorem le_peak (n : ℕ) (events : List Event) : n≤peak n events := by
  cases events with
  | nil => exact le_rfl
  | cons e events => exact le_max_left _ _

variable {capacity : ℕ}

/-- Items out fit into the blocks after each event. -/
theorem Pool.step_fits (hcap : 0<capacity) {p : Pool} (h : p.live≤capacity*p.blocks)
    (e : Event) : (p.step capacity e).live≤capacity*(p.step capacity e).blocks := by
  cases e with
  | give => exact (Nat.sub_le _ _).trans h
  | take =>
    simp only [Pool.step,Event.after]
    by_cases hfull : p.live=capacity*p.blocks
    · rw [if_pos hfull,hfull,Nat.mul_succ]
      omega
    · rw [if_neg hfull]
      omega

/-- Some blocks suffice for a run exactly when they suffice at its start and for
the peak. The induction is on the events. -/
theorem Pool.run_blocks_le_iff (hcap : 0<capacity) (events : List Event) {p : Pool}
    (h : p.live≤capacity*p.blocks) (c : ℕ) :
    (events.foldl (Pool.step capacity) p).blocks≤c ↔
      p.blocks≤c ∧ peak p.live events≤capacity*c := by
  induction events generalizing p with
  | nil =>
    have hle : p.blocks≤c → p.live≤capacity*c := fun hc => h.trans (Nat.mul_le_mul_left _ hc)
    exact ⟨fun hc => ⟨hc,hle hc⟩,And.left⟩
  | cons e events ih =>
    have hle : p.blocks≤c → p.live≤capacity*c := fun hc => h.trans (Nat.mul_le_mul_left _ hc)
    rw [List.foldl_cons,ih (Pool.step_fits hcap h e),peak,max_le_iff]
    cases e with
    | give => exact ⟨fun ⟨hc,hpeak⟩ => ⟨hc,hle hc,hpeak⟩,fun ⟨hc,_,hpeak⟩ => ⟨hc,hpeak⟩⟩
    | take =>
      simp only [Pool.step,Event.after]
      by_cases hfull : p.live=capacity*p.blocks
      · -- the block is needed: the item was out above the capacity
        rw [if_pos hfull]
        refine ⟨fun ⟨hc,hpeak⟩ => ⟨(Nat.le_succ _).trans hc,hle ((Nat.le_succ _).trans hc),hpeak⟩,
          fun ⟨_,_,hpeak⟩ => ⟨?_,hpeak⟩⟩
        have hmore : capacity*p.blocks<capacity*c := by
          have := le_peak (p.live+1) events
          omega
        exact Nat.lt_of_mul_lt_mul_left hmore
      · rw [if_neg hfull]
        exact ⟨fun ⟨hc,hpeak⟩ => ⟨hc,hle hc,hpeak⟩,fun ⟨hc,_,hpeak⟩ => ⟨hc,hpeak⟩⟩

/-- After a run the blocks are those of the start, or as many as the peak needs. -/
theorem Pool.run_blocks (hcap : 0<capacity) (events : List Event) {p : Pool}
    (h : p.live≤capacity*p.blocks) : (events.foldl (Pool.step capacity) p).blocks=
      max p.blocks (peak p.live events ⌈/⌉ capacity) := by
  refine eq_of_forall_ge_iff fun c => ?_
  rw [Pool.run_blocks_le_iff hcap events h,max_le_iff,ceilDiv_le_iff_le_mul hcap]

/-- The items out after a run. -/
theorem Pool.run_live (events : List Event) (p : Pool) :
    (events.foldl (Pool.step capacity) p).live=events.foldl Event.after p.live := by
  induction events generalizing p with
  | nil => rfl
  | cons e events ih => exact ih _

end XanaduOS.GrowingPools
