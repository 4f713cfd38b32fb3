import Mathlib.Tactic

/-!
# Linked chains in a pointer map

A path follows one pointer field from a node through a list of nodes to an
end. A doubly linked list adds the backward field. Edits are described by
what they do to the two fields, so the same rules serve every record that
carries such links.
-/

namespace XanaduOS.Chains

variable {α : Type*} {next next' prev prev' : α → α}

/-- Following `next` from a node visits the list and arrives at the end. -/
def Path (next : α → α) : α → List α → α → Prop
  | a,[],b => next a=b
  | a,x::xs,b => next a=x ∧ Path next x xs b

/-- Every listed node points back at the one before it. -/
def Back (prev : α → α) : α → List α → Prop
  | _,[] => True
  | a,x::xs => prev x=a ∧ Back prev x xs

/-- A path through a node is a path to it and a path from it. -/
theorem path_append {a x b : α} {xs ys : List α} :
    Path next a (xs++x::ys) b ↔ Path next a xs x ∧ Path next x ys b := by
  induction xs generalizing a with
  | nil => rfl
  | cons y xs ih =>
    simp only [List.cons_append,Path,ih]
    rw [and_assoc]

/-- Backward links through a node. -/
theorem back_append {a x : α} {xs ys : List α} :
    Back prev a (xs++x::ys) ↔ Back prev a (xs++[x]) ∧ Back prev x ys := by
  induction xs generalizing a with
  | nil => simp [Back]
  | cons y xs ih =>
    simp only [List.cons_append,Back,ih]
    rw [and_assoc]

/-- Backward links up to a last node. -/
theorem back_concat {a x : α} {xs : List α} :
    Back prev a (xs++[x]) ↔ Back prev a xs ∧ prev x=(a::xs).getLast (by simp) := by
  induction xs generalizing a with
  | nil => simp [Back]
  | cons y xs ih =>
    simp only [List.cons_append,Back,ih]
    rw [and_assoc,List.getLast_cons (by simp : y::xs≠[])]

/-- A path reads the field of its start and of its nodes. -/
theorem Path.congr {a b : α} {xs : List α} (h : Path next a xs b)
    (heq : ∀ y∈a::xs,next' y=next y) : Path next' a xs b := by
  induction xs generalizing a with
  | nil => exact (heq a List.mem_cons_self).trans h
  | cons x xs ih =>
    exact ⟨(heq a List.mem_cons_self).trans h.1,
      ih h.2 fun y hy => heq y (List.mem_cons_of_mem a hy)⟩

/-- Backward links read the field of the nodes. -/
theorem Back.congr {a : α} {xs : List α} (h : Back prev a xs)
    (heq : ∀ y∈xs,prev' y=prev y) : Back prev' a xs := by
  induction xs generalizing a with
  | nil => trivial
  | cons x xs ih =>
    exact ⟨(heq x List.mem_cons_self).trans h.1,
      ih h.2 fun y hy => heq y (List.mem_cons_of_mem x hy)⟩

/-- Redirecting the last pointer moves the end of a path. -/
theorem Path.redirect {a b c : α} {xs : List α} (h : Path next a xs b)
    (hlast : next' ((a::xs).getLast (by simp))=c)
    (hn : ∀ y∈(a::xs).dropLast,next' y=next y) : Path next' a xs c := by
  induction xs generalizing a with
  | nil => exact hlast
  | cons x xs ih =>
    rw [List.dropLast_cons_of_ne_nil (by simp)] at hn
    exact ⟨(hn a List.mem_cons_self).trans h.1,
      ih h.2 hlast fun y hy => hn y (List.mem_cons_of_mem a hy)⟩

/-- In a list without repetition only the last place holds the last node. -/
theorem ne_getLast_of_mem_dropLast {l : List α} (hnd : l.Nodup) {y : α} (hy : y∈l.dropLast) :
    y≠l.getLast (fun h => by simp [h] at hy) := by
  have hne : l≠[] := fun h => by simp [h] at hy
  rw [←List.dropLast_append_getLast hne,List.nodup_append'] at hnd
  intro heq
  exact hnd.2.2 hy (heq▸List.mem_singleton_self _)

/-- A path from another start with the same pointer. -/
theorem Path.start {a b c : α} {xs : List α} (h : Path next a xs b) (hc : next' c=next a)
    (hn : ∀ y∈xs,next' y=next y) : Path next' c xs b := by
  cases xs with
  | nil => exact hc.trans h
  | cons x xs => exact ⟨hc.trans h.1,h.2.congr hn⟩

/-- A path over two lists passes the last node of the first. -/
theorem Path.split {a b : α} {xs ys : List α} (h : Path next a (xs++ys) b) :
    Path next a xs (next ((a::xs).getLast (by simp))) ∧
      Path next ((a::xs).getLast (by simp)) ys b := by
  induction xs generalizing a with
  | nil => exact ⟨rfl,h⟩
  | cons x xs ih =>
    obtain ⟨h0,h1⟩ := ih h.2
    exact ⟨⟨h.1,h0⟩,h1⟩

/-- Putting a node between two parts of a path. -/
theorem Path.splice {a b x : α} {xs ys : List α} (h : Path next a (xs++ys) b)
    (hnd : (a::(xs++ys)).Nodup) (hat : next' ((a::xs).getLast (by simp))=x)
    (hx : next' x=next ((a::xs).getLast (by simp)))
    (hn : ∀ y∈a::(xs++ys),y≠(a::xs).getLast (by simp) → next' y=next y) :
    Path next' a (xs++x::ys) b := by
  obtain ⟨hfront,hback⟩ := h.split
  rw [←List.cons_append,List.nodup_append'] at hnd
  refine path_append.mpr ⟨hfront.redirect hat fun y hy => ?_,hback.start hx fun y hy => ?_⟩
  · refine hn y ?_ (ne_getLast_of_mem_dropLast hnd.1 hy)
    rw [←List.cons_append]
    exact List.mem_append_left _ (List.mem_of_mem_dropLast hy)
  · refine hn y (List.mem_cons_of_mem a (List.mem_append_right xs hy)) ?_
    rintro rfl
    exact hnd.2.2 (List.getLast_mem _) hy

/-- Putting a node at the end of a path. -/
theorem Path.concat {a b x : α} {xs : List α} (h : Path next a xs b) (hnd : (a::xs).Nodup)
    (hat : next' ((a::xs).getLast (by simp))=x) (hx : next' x=b)
    (hn : ∀ y∈a::xs,y≠(a::xs).getLast (by simp) → next' y=next y) :
    Path next' a (xs++[x]) b := by
  refine path_append.mpr ⟨h.redirect hat fun y hy => ?_,hx⟩
  exact hn y (List.mem_of_mem_dropLast hy) (ne_getLast_of_mem_dropLast hnd hy)

/-- Leaving out the node behind another one. -/
theorem Path.bypass {a b s x : α} {xs ys : List α} (h : Path next a (xs++s::x::ys) b)
    (hnd : (a::(xs++s::x::ys)).Nodup) (hs : next' s=next x)
    (hn : ∀ y∈a::(xs++s::x::ys),y≠s → y≠x → next' y=next y) : Path next' a (xs++s::ys) b := by
  obtain ⟨hfront,hback⟩ := path_append.mp h
  rw [←List.cons_append,List.nodup_append'] at hnd
  obtain ⟨-,htail,hdisj⟩ := hnd
  obtain ⟨hsx,hx⟩ := List.nodup_cons.mp htail
  have hxy := (List.nodup_cons.mp hx).1
  refine path_append.mpr ⟨hfront.congr fun y hy => hn y ?_ ?_ ?_,
    hback.2.start hs fun y hy => hn y ?_ ?_ ?_⟩
  · rw [←List.cons_append]
    exact List.mem_append_left _ hy
  · rintro rfl
    exact hdisj hy List.mem_cons_self
  · rintro rfl
    exact hdisj hy (List.mem_cons_of_mem s List.mem_cons_self)
  · simp [hy]
  · rintro rfl
    exact hsx (List.mem_cons_of_mem x hy)
  · rintro rfl
    exact hxy hy

/-- What lies behind a node of a path. -/
theorem Path.behind {a b x : α} {xs : List α} (h : Path next a xs b) (hx : x∈a::xs) :
    ∃ ys zs,a::xs=ys++x::zs ∧ Path next x zs b := by
  induction xs generalizing a with
  | nil =>
    obtain rfl := List.mem_singleton.mp hx
    exact ⟨[],[],rfl,h⟩
  | cons y xs ih =>
    rcases List.mem_cons.mp hx with rfl|hx
    · exact ⟨[],y::xs,rfl,h⟩
    · obtain ⟨ys,zs,heq,hpath⟩ := ih h.2 hx
      exact ⟨a::ys,zs,by rw [heq,List.cons_append],hpath⟩

/-- Every pointer on a path leads to a node of it or to its end. -/
theorem Path.next_mem {a b x : α} {xs : List α} (h : Path next a xs b) (hx : x∈a::xs) :
    next x∈xs ∨ next x=b := by
  obtain ⟨ys,zs,heq,hpath⟩ := h.behind hx
  cases zs with
  | nil => exact Or.inr hpath
  | cons z zs =>
    rw [hpath.1]
    cases ys with
    | nil =>
      obtain ⟨-,rfl⟩ := List.cons.inj heq
      exact Or.inl List.mem_cons_self
    | cons y ys =>
      obtain ⟨-,rfl⟩ := List.cons.inj heq
      exact Or.inl (by simp)

/-- Two paths from one node to an end that neither visits are equal. -/
theorem Path.unique {a b : α} {xs ys : List α} (hx : Path next a xs b) (hy : Path next a ys b)
    (hbx : b∉xs) (hby : b∉ys) : xs=ys := by
  induction xs generalizing a ys with
  | nil =>
    cases ys with
    | nil => rfl
    | cons y ys =>
      have heq : y=b := hy.1.symm.trans hx
      exact absurd (heq▸List.mem_cons_self) hby
  | cons x xs ih =>
    cases ys with
    | nil =>
      have heq : x=b := hx.1.symm.trans hy
      exact absurd (heq▸List.mem_cons_self) hbx
    | cons y ys =>
      obtain rfl : x=y := hx.1.symm.trans hy.1
      rw [ih hx.2 hy.2 (fun h => hbx (List.mem_cons_of_mem _ h))
        fun h => hby (List.mem_cons_of_mem _ h)]

/-! ## Doubly linked lists -/

/-- A list behind a head node, linked both ways and ended by a null value. -/
structure Linked (null : α) (next prev : α → α) (head : α) (xs : List α) : Prop where
  /-- Forward links. -/
  path : Path next head xs null
  /-- Backward links. -/
  back : Back prev head xs

variable {null : α}

/-- The links of other nodes do not matter. -/
theorem Linked.congr {head : α} {xs : List α} (h : Linked null next prev head xs)
    (hn : ∀ y∈head::xs,next' y=next y) (hp : ∀ y∈xs,prev' y=prev y) :
    Linked null next' prev' head xs := ⟨h.path.congr hn,h.back.congr hp⟩

/-- Pushing a new node behind the head. -/
theorem Linked.insert {head s : α} {xs : List α} (h : Linked null next prev head xs)
    (hnd : (head::xs).Nodup) (hs : s∉head::xs) (hhead : next' head=s) (hnext : next' s=next head)
    (hprev : prev' s=head) (hfirst : next head≠null → prev' (next head)=s)
    (hn : ∀ y∈xs,next' y=next y) (hp : ∀ y∈xs,y≠next head → prev' y=prev y)
    (hnull : null∉xs) : Linked null next' prev' head (s::xs) := by
  cases xs with
  | nil => exact ⟨⟨hhead,hnext.trans h.path⟩,⟨hprev,trivial⟩⟩
  | cons x xs =>
    have hx : next head=x := h.path.1
    have hxn : x≠null := fun heq => hnull (heq▸List.mem_cons_self)
    have hndx := (List.nodup_cons.mp (List.nodup_cons.mp hnd).2).1
    refine ⟨⟨hhead,hnext.trans hx,h.path.2.congr hn⟩,hprev,?_,?_⟩
    · rw [←hx]
      exact hfirst (hx▸hxn)
    · refine h.back.2.congr fun y hy => hp y (List.mem_cons_of_mem x hy) fun heq => hndx ?_
      rwa [heq,hx] at hy

/-- Unlinking a node from its two neighbours. -/
theorem Linked.remove {head s : α} {xs ys : List α} (h : Linked null next prev head (xs++s::ys))
    (hnd : (head::(xs++s::ys)).Nodup) (hnull : null∉xs++s::ys)
    (hat : next' (prev s)=next s) (hn : ∀ y,y≠prev s → next' y=next y)
    (hafter : next s≠null → prev' (next s)=prev s)
    (hp : ∀ y,y≠next s → prev' y=prev y) : Linked null next' prev' head (xs++ys) := by
  obtain ⟨hpath,hpath'⟩ := path_append.mp h.path
  obtain ⟨hback,hback'⟩ := back_append.mp h.back
  obtain ⟨hfront,hlast⟩ := back_concat.mp hback
  have hapart : (head::xs).Nodup ∧ ∀ y∈head::xs,y∉s::ys := by
    rw [←List.cons_append,List.nodup_append'] at hnd
    exact ⟨hnd.1,fun y hy hy' => hnd.2.2 hy hy'⟩
  have hforward : Path next' head xs (next s) := by
    refine hpath.redirect (hlast▸hat) fun y hy => hn y ?_
    rw [hlast]
    exact ne_getLast_of_mem_dropLast hapart.1 hy
  have hmem : prev s∈head::xs := hlast▸List.getLast_mem _
  cases ys with
  | nil =>
    have hend : next s=null := hpath'
    rw [List.append_nil]
    refine ⟨hend▸hforward,hfront.congr fun y hy => hp y ?_⟩
    rintro rfl
    exact hnull (hend▸List.mem_append_left _ hy)
  | cons y ys =>
    have hy : next s=y := hpath'.1
    have hyn : y≠null := fun heq => hnull (heq▸by simp)
    have hyprev : prev' y=prev s := hy▸hafter (hy.symm▸hyn)
    have hnd' : (y::ys).Nodup := by
      have hsub := (List.nodup_cons.mp hnd).2
      exact (List.nodup_cons.mp (List.nodup_append'.mp hsub).2.1).2
    refine ⟨path_append.mpr ⟨hy▸hforward,hpath'.2.congr fun z hz => hn z ?_⟩,
      back_append.mpr ⟨back_concat.mpr ⟨hfront.congr fun z hz => hp z ?_,hyprev.trans hlast⟩,
        hback'.2.congr fun z hz => hp z ?_⟩⟩
    · rintro rfl
      exact hapart.2 _ hmem (List.mem_cons_of_mem s hz)
    · rintro rfl
      refine hapart.2 (next s) (List.mem_cons_of_mem head hz) ?_
      rw [hy]
      simp
    · rintro rfl
      rw [hy] at hz
      exact (List.nodup_cons.mp hnd').1 hz

end XanaduOS.Chains
