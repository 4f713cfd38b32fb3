import Mathlib.Tactic

/-!
# Lists read off from a pointer

A pointer leads over a list of nodes to another pointer when it names the
first node and each node's field names the next. What stands behind the last
node need not be a node: the list may be cut short of an end marker.
-/

namespace XanaduOS.PointerLists

variable {α : Type*} {next next' : α → α} {p q r : α} {xs ys : List α}

/-- Following the field from a pointer visits the list and arrives at `q`. -/
def Leads (next : α → α) : α → List α → α → Prop
  | p,[],q => p=q
  | p,x::xs,q => p=x ∧ Leads next (next x) xs q

/-- A pointer leads over two lists in turn. -/
theorem leads_append : Leads next p (xs++ys) q ↔ ∃ r,Leads next p xs r ∧ Leads next r ys q := by
  induction xs generalizing p with
  | nil => exact ⟨fun h => ⟨p,rfl,h⟩,fun ⟨_,hr,h⟩ => hr▸h⟩
  | cons x xs ih =>
    simp only [List.cons_append,Leads,ih]
    exact ⟨fun ⟨hx,r,h⟩ => ⟨r,⟨hx,h.1⟩,h.2⟩,fun ⟨r,⟨hx,h⟩,h'⟩ => ⟨hx,r,h,h'⟩⟩

/-- Only the fields of the listed nodes matter. -/
theorem Leads.congr (h : Leads next p xs q) (heq : ∀ x∈xs,next' x=next x) :
    Leads next' p xs q := by
  induction xs generalizing p with
  | nil => exact h
  | cons x xs ih =>
    refine ⟨h.1,?_⟩
    rw [heq x List.mem_cons_self]
    exact ih h.2 fun y hy => heq y (List.mem_cons_of_mem x hy)

/-- Unlinking a node from the one before it. -/
theorem Leads.bypass [DecidableEq α] {a s : α} (h : Leads next p (xs++a::s::ys) q)
    (hnd : (xs++a::s::ys).Nodup) :
    Leads (Function.update next a (next s)) p (xs++a::ys) q := by
  obtain ⟨r,hfront,rfl,hs,hback⟩ := leads_append.mp h
  obtain ⟨-,hright,hapart⟩ := List.nodup_append.mp hnd
  obtain ⟨ha,hright⟩ := List.nodup_cons.mp hright
  refine leads_append.mpr ⟨_,hfront.congr fun x hx => ?_,rfl,?_⟩
  · exact Function.update_of_ne (hapart x hx _ List.mem_cons_self) _ _
  · rw [Function.update_self]
    refine hback.congr fun x hx => Function.update_of_ne ?_ _ _
    rintro rfl
    exact ha (List.mem_cons_of_mem s hx)

/-- The nodes met in a number of steps from a pointer. -/
def nodesFrom (next : α → α) : ℕ → α → List α
  | 0,_ => []
  | n+1,p => p::nodesFrom next n (next p)

/-- A pointer that leads over a list meets its nodes. -/
theorem Leads.nodesFrom_eq (h : Leads next p xs q) : nodesFrom next xs.length p=xs := by
  induction xs generalizing p with
  | nil => rfl
  | cons x xs ih =>
    obtain ⟨rfl,h⟩ := h
    rw [List.length_cons,nodesFrom,ih h]

end XanaduOS.PointerLists
