import Mathlib.Tactic

/-!
# Ordered forests in preorder

A forest is a list of leaves and of branches with a forest inside, each
carrying a label. Its entries are numbered in preorder from a given first
number: an entry comes before what is inside it, and what is inside comes
before the next entry. A walk takes one entry for each item of a list.
-/

namespace XanaduOS.Forests

variable {α β : Type*}

/-- Labelled leaves and branches in order. -/
inductive Forest (α : Type*)
  /-- No entry. -/
  | nil
  /-- A leaf in front of further entries. -/
  | leaf (label : α) (rest : Forest α)
  /-- A branch in front of further entries. -/
  | branch (label : α) (inside rest : Forest α)
  deriving DecidableEq

namespace Forest

/-- Entries at all levels. -/
def size : Forest α → ℕ
  | nil => 0
  | leaf _ rest => 1+rest.size
  | branch _ inside rest => 1+inside.size+rest.size

/-- Entries of the top level. -/
def count : Forest α → ℕ
  | nil => 0
  | leaf _ rest => 1+rest.count
  | branch _ _ rest => 1+rest.count

/-- Numbers of the top level's entries. -/
def numbers : Forest α → ℕ → List ℕ
  | nil,_ => []
  | leaf _ rest,i => i::rest.numbers (i+1)
  | branch _ inside rest,i => i::rest.numbers (i+1+inside.size)

/-- A branch with this number and this forest inside, at any level. -/
def HasBranch : Forest α → ℕ → ℕ → Forest α → Prop
  | nil,_,_,_ => False
  | leaf _ rest,i,n,s => rest.HasBranch (i+1) n s
  | branch _ inside rest,i,n,s => (n=i ∧ s=inside) ∨ inside.HasBranch (i+1) n s ∨
      rest.HasBranch (i+1+inside.size) n s

/-- A leaf with this number, at any level. -/
def HasLeaf : Forest α → ℕ → ℕ → Prop
  | nil,_,_ => False
  | leaf _ rest,i,n => n=i ∨ rest.HasLeaf (i+1) n
  | branch _ inside rest,i,n => inside.HasLeaf (i+1) n ∨ rest.HasLeaf (i+1+inside.size) n

/-- No entry has anything inside. -/
def Flat : Forest α → Prop
  | nil => True
  | leaf _ rest => rest.Flat
  | branch _ inside rest => inside=nil ∧ rest.Flat

/-- The top level is no larger than the whole. -/
theorem count_le_size (s : Forest α) : s.count ≤ s.size := by
  induction s with
  | nil => exact Nat.le_refl 0
  | leaf _ rest ih => exact Nat.add_le_add_left ih 1
  | branch _ inside rest _ ih =>
    simp only [count,size]
    omega

/-- A branch inside a branch. -/
theorem HasBranch.trans {s t u : Forest α} {i n k : ℕ} (h : s.HasBranch i n t)
    (h' : t.HasBranch (n+1) k u) : s.HasBranch i k u := by
  induction s generalizing i with
  | nil => exact h.elim
  | leaf _ rest ih => exact ih h
  | branch _ inside rest ihi ihr =>
    rcases h with ⟨rfl,rfl⟩|h|h
    · exact Or.inr (Or.inl h')
    · exact Or.inr (Or.inl (ihi h))
    · exact Or.inr (Or.inr (ihr h))

/-- Leaves are numbered within the forest's range. -/
theorem HasLeaf.range {s : Forest α} {i n : ℕ} (h : s.HasLeaf i n) : i≤n ∧ n < i+s.size := by
  induction s generalizing i with
  | nil => exact h.elim
  | leaf _ rest ih =>
    rw [size]
    rcases h with rfl|h
    · omega
    · have := ih h
      omega
  | branch _ inside rest ihi ihr =>
    rw [size]
    rcases h with h|h
    · have := ihi h
      omega
    · have := ihr h
      omega

/-- Only the empty forest has size zero. -/
theorem size_eq_zero {s : Forest α} : s.size=0 ↔ s=nil := by
  cases s with
  | nil => simp [size]
  | leaf _ rest => simp [size]
  | branch _ inside rest => simp [size]

/-- The top level is everything exactly in flat forests. -/
theorem count_eq_size {s : Forest α} : s.count=s.size ↔ s.Flat := by
  induction s with
  | nil => simp [count,size,Flat]
  | leaf _ rest ih => simp only [count,size,Flat,←ih,Nat.add_left_cancel_iff]
  | branch _ inside rest _ ih =>
    have hle := count_le_size rest
    simp only [count,size,Flat,←ih,←size_eq_zero]
    omega

/-! ## Entries behind a number -/

/-- One forest behind another. -/
def append : Forest α → Forest α → Forest α
  | nil,t => t
  | leaf label rest,t => leaf label (rest.append t)
  | branch label inside rest,t => branch label inside (rest.append t)

/-- The forest without its first entries; what is inside a skipped branch comes
up to its level. -/
def skip : ℕ → Forest α → Forest α
  | 0,s => s
  | _+1,nil => nil
  | k+1,leaf _ rest => rest.skip k
  | k+1,branch _ inside rest => (inside.append rest).skip k

/-- Entries of both. -/
@[simp] theorem size_append (s t : Forest α) : (s.append t).size=s.size+t.size := by
  induction s with
  | nil => simp [append,size]
  | leaf _ rest ih =>
    rw [append,size,size,ih]
    omega
  | branch _ inside rest _ ih =>
    rw [append,size,size,ih]
    omega

/-- Nothing behind. -/
theorem append_nil (s : Forest α) : s.append nil=s := by
  induction s with
  | nil => rfl
  | leaf _ rest ih => rw [append,ih]
  | branch _ inside rest _ ih => rw [append,ih]

/-- Three forests in a row. -/
theorem append_assoc (s t u : Forest α) : (s.append t).append u=s.append (t.append u) := by
  induction s with
  | nil => rfl
  | leaf _ rest ih => rw [append,append,append,ih]
  | branch _ inside rest _ ih => rw [append,append,append,ih]

/-- Entries that are left. -/
@[simp] theorem size_skip (k : ℕ) (s : Forest α) : (s.skip k).size=s.size-k := by
  induction k generalizing s with
  | zero => rfl
  | succ k ih =>
    cases s with
    | nil => simp [skip,size]
    | leaf _ rest =>
      rw [skip,ih,size]
      omega
    | branch _ inside rest =>
      rw [skip,ih,size_append,size]
      omega

/-- Skipping inside the first of two forests. -/
theorem skip_append {k : ℕ} {s : Forest α} (h : k ≤ s.size) (t : Forest α) :
    (s.append t).skip k=(s.skip k).append t := by
  induction k generalizing s with
  | zero => rfl
  | succ k ih =>
    cases s with
    | nil => simp [size] at h
    | leaf _ rest =>
      rw [size] at h
      exact ih (by omega)
    | branch _ inside rest =>
      rw [size] at h
      rw [append,skip,skip,←append_assoc]
      exact ih (by rw [size_append]; omega)

/-- Skipping twice. -/
theorem skip_add (j k : ℕ) (s : Forest α) : s.skip (j+k)=(s.skip j).skip k := by
  induction j generalizing s with
  | zero => rw [Nat.zero_add,skip]
  | succ j ih =>
    rw [Nat.add_right_comm]
    cases s with
    | nil => cases k <;> rfl
    | leaf _ rest => exact ih rest
    | branch _ inside rest => exact ih (inside.append rest)

/-- Behind the first of two forests comes the second. -/
theorem skip_size (s t : Forest α) : (s.append t).skip s.size=t := by
  have hnil : s.skip s.size=nil := size_eq_zero.mp (by rw [size_skip,Nat.sub_self])
  rw [skip_append (Nat.le_refl _),hnil,append]

/-- Branches of two forests. -/
theorem hasBranch_append {s t u : Forest α} {i n : ℕ} :
    (s.append t).HasBranch i n u ↔ s.HasBranch i n u ∨ t.HasBranch (i+s.size) n u := by
  induction s generalizing i with
  | nil => simp [append,HasBranch,size]
  | leaf _ rest ih =>
    rw [append,HasBranch,HasBranch,ih,size,Nat.add_assoc]
  | branch _ inside rest _ ih =>
    rw [append,HasBranch,HasBranch,ih,size,
      (by omega : i+1+inside.size+rest.size=i+(1+inside.size+rest.size))]
    tauto

/-- Branches that are left. -/
theorem HasBranch.of_skip {k : ℕ} {s u : Forest α} {i n : ℕ}
    (h : (s.skip k).HasBranch (i+k) n u) : s.HasBranch i n u := by
  induction k generalizing s i with
  | zero => exact h
  | succ k ih =>
    rw [(by omega : i+(k+1)=i+1+k)] at h
    cases s with
    | nil => exact h.elim
    | leaf _ rest => exact ih (i:=i+1) h
    | branch _ inside rest => exact Or.inr (hasBranch_append.mp (ih (i:=i+1) h))

/-- Branches and what is inside are numbered within the forest's range. -/
theorem HasBranch.range {s u : Forest α} {i n : ℕ} (h : s.HasBranch i n u) :
    i≤n ∧ n+1+u.size ≤ i+s.size := by
  induction s generalizing i with
  | nil => exact h.elim
  | leaf _ rest ih =>
    have := ih h
    rw [size]
    omega
  | branch _ inside rest ihi ihr =>
    rw [size]
    rcases h with ⟨rfl,rfl⟩|h|h
    · omega
    · have := ihi h
      omega
    · have := ihr h
      omega

/-- A branch's contents come first behind it. -/
theorem HasBranch.skip_eq {s u : Forest α} {i n : ℕ} (h : s.HasBranch i n u) :
    ∃ t,s.skip (n+1-i)=u.append t := by
  induction s generalizing i with
  | nil => exact h.elim
  | leaf _ rest ih =>
    obtain ⟨t,ht⟩ := ih h
    have hrange := HasBranch.range h
    rw [(by omega : n+1-i=n+1-(i+1)+1)]
    exact ⟨t,ht⟩
  | branch _ inside rest ihi ihr =>
    rcases h with ⟨rfl,rfl⟩|h|h
    · rw [Nat.add_sub_cancel_left]
      exact ⟨rest,rfl⟩
    · obtain ⟨t,ht⟩ := ihi h
      have hrange := h.range
      refine ⟨t.append rest,?_⟩
      rw [(by omega : n+1-i=n+1-(i+1)+1),skip,skip_append (by omega),ht,append_assoc]
    · obtain ⟨t,ht⟩ := ihr h
      have hrange := h.range
      refine ⟨t,?_⟩
      rw [(by omega : n+1-i=inside.size+(n+1-(i+1+inside.size))+1),skip,skip_add,skip_size,ht]

/-! ## Walks -/

/-- The first entry of the top level that is accepted, with what is inside. -/
def pick (accepts : α → Bool → Bool) : Forest α → ℕ → Option (ℕ×Forest α)
  | nil,_ => none
  | leaf label rest,i => if accepts label false then some (i,nil) else rest.pick accepts (i+1)
  | branch label inside rest,i =>
    if accepts label true then some (i,inside) else rest.pick accepts (i+1+inside.size)

/-- Take one entry for each item, starting inside a numbered entry. -/
def walk (accepts : β → α → Bool → Bool) : ℕ → Forest α → List β → Option ℕ
  | n,_,[] => some n
  | n,s,p::ps =>
    match s.pick (accepts p) (n+1) with
    | none => none
    | some (m,inside) => walk accepts m inside ps

/-- A picked entry and what is inside lie in the forest's range. -/
theorem pick_range {accepts : α → Bool → Bool} {s t : Forest α} {i m : ℕ}
    (h : s.pick accepts i=some (m,t)) : i ≤ m ∧ m+1+t.size ≤ i+s.size := by
  induction s generalizing i with
  | nil => simp [pick] at h
  | leaf _ rest ih =>
    simp only [pick] at h
    split at h
    · obtain ⟨rfl,rfl⟩ := Prod.mk.inj (Option.some.inj h)
      simp only [size]
      omega
    · have := ih h
      simp only [size]
      omega
  | branch _ inside rest _ ih =>
    simp only [pick] at h
    split at h
    · obtain ⟨rfl,rfl⟩ := Prod.mk.inj (Option.some.inj h)
      simp only [size]
      omega
    · have := ih h
      simp only [size]
      omega

/-- Two picks name the same entry or entries with disjoint ranges. -/
theorem pick_apart {accepts accepts' : α → Bool → Bool} {s t t' : Forest α} {i m m' : ℕ}
    (h : s.pick accepts i=some (m,t)) (h' : s.pick accepts' i=some (m',t')) :
    (m=m' ∧ t=t') ∨ m+t.size < m' ∨ m'+t'.size < m := by
  induction s generalizing i with
  | nil => simp [pick] at h
  | leaf _ rest ih =>
    simp only [pick] at h h'
    split at h <;> split at h'
    · exact Or.inl (Prod.mk.inj (Option.some.inj (h.symm.trans h')))
    · obtain ⟨rfl,rfl⟩ := Prod.mk.inj (Option.some.inj h)
      have := pick_range h'
      exact Or.inr (Or.inl (by simp only [size]; omega))
    · obtain ⟨rfl,rfl⟩ := Prod.mk.inj (Option.some.inj h')
      have := pick_range h
      exact Or.inr (Or.inr (by simp only [size]; omega))
    · exact ih h h'
  | branch _ inside rest _ ih =>
    simp only [pick] at h h'
    split at h <;> split at h'
    · exact Or.inl (Prod.mk.inj (Option.some.inj (h.symm.trans h')))
    · obtain ⟨rfl,rfl⟩ := Prod.mk.inj (Option.some.inj h)
      have := pick_range h'
      exact Or.inr (Or.inl (by omega))
    · obtain ⟨rfl,rfl⟩ := Prod.mk.inj (Option.some.inj h')
      have := pick_range h
      exact Or.inr (Or.inr (by omega))
    · exact ih h h'

/-- A walk ends in the range it starts in, and elsewhere than it starts if it
takes a step. -/
theorem walk_range {accepts : β → α → Bool → Bool} {ps : List β} {n x : ℕ} {s : Forest α}
    (h : walk accepts n s ps=some x) : n≤x ∧ x≤n+s.size ∧ (ps≠[] → n<x) := by
  induction ps generalizing n s with
  | nil =>
    obtain rfl := Option.some.inj h
    simp
  | cons p ps ih =>
    simp only [walk] at h
    split at h
    · contradiction
    case h_2 m inside hp =>
      have hr := pick_range hp
      have hw := ih h
      refine ⟨by omega,by omega,fun _ => by omega⟩

/-- A walk's first step. -/
theorem walk_cons (accepts : β → α → Bool → Bool) (n : ℕ) (s : Forest α) (p : β) (ps : List β) :
    walk accepts n s (p::ps)=
      (s.pick (accepts p) (n+1)).bind fun r => walk accepts r.1 r.2 ps := by
  rw [walk]
  cases s.pick (accepts p) (n+1) <;> rfl

/-! ## Two walks -/

/-- The first entry of the top level that is accepted: its label, whether it is a
branch, and what is inside. -/
def find (accepts : α → Bool → Bool) : Forest α → Option (α×Bool×Forest α)
  | nil => none
  | leaf label rest => if accepts label false then some (label,false,nil) else rest.find accepts
  | branch label inside rest =>
    if accepts label true then some (label,true,inside) else rest.find accepts

/-- Whether some item has no entry on the way down through first entries. -/
def misses (accepts : β → α → Bool → Bool) : Forest α → List β → Bool
  | _,[] => false
  | s,p::ps => (s.find (accepts p)).all fun r => misses accepts r.2.2 ps

/-- Where nothing is accepted, nothing is picked by a narrower choice. -/
theorem pick_eq_none {accepts narrow : α → Bool → Bool} {s : Forest α}
    (hnarrow : ∀ label b,narrow label b=true → accepts label b=true)
    (h : s.find accepts=none) (i : ℕ) : s.pick narrow i=none := by
  induction s generalizing i with
  | nil => rfl
  | leaf name rest ih =>
    rw [find] at h
    split at h
    · contradiction
    · next hno => rw [pick,if_neg fun hyes => hno (hnarrow _ _ hyes),ih h]
  | branch name inside rest _ ih =>
    rw [find] at h
    split at h
    · contradiction
    · next hno => rw [pick,if_neg fun hyes => hno (hnarrow _ _ hyes),ih h]

/-- The first accepted entry is the one picked. -/
theorem pick_of_find {accepts : α → Bool → Bool} {s t : Forest α} {label : α} {b : Bool}
    (h : s.find accepts=some (label,b,t)) (i : ℕ) : ∃ m,s.pick accepts i=some (m,t) := by
  induction s generalizing i with
  | nil => simp [find] at h
  | leaf name rest ih =>
    rw [find] at h
    split at h
    · next hyes =>
      simp only [Option.some.injEq,Prod.mk.injEq] at h
      exact ⟨i,by rw [pick,if_pos hyes,h.2.2]⟩
    · next hno =>
      rw [pick,if_neg hno]
      exact ih h _
  | branch name inside rest _ ih =>
    rw [find] at h
    split at h
    · next hyes =>
      simp only [Option.some.injEq,Prod.mk.injEq] at h
      exact ⟨i,by rw [pick,if_pos hyes,h.2.2]⟩
    · next hno =>
      rw [pick,if_neg hno]
      exact ih h _

/-- The first accepted entry is accepted. -/
theorem accepts_of_find {accepts : α → Bool → Bool} {s t : Forest α} {label : α} {b : Bool}
    (h : s.find accepts=some (label,b,t)) : accepts label b=true := by
  induction s with
  | nil => simp [find] at h
  | leaf name rest ih =>
    rw [find] at h
    split at h
    · next hyes =>
      simp only [Option.some.injEq,Prod.mk.injEq] at h
      rwa [←h.1,←h.2.1]
    · exact ih h
  | branch name inside rest _ ih =>
    rw [find] at h
    split at h
    · next hyes =>
      simp only [Option.some.injEq,Prod.mk.injEq] at h
      rwa [←h.1,←h.2.1]
    · exact ih h

/-- A way down misses an item exactly when the walk has no result. -/
theorem misses_iff (accepts : β → α → Bool → Bool) (n : ℕ) (s : Forest α) (ps : List β) :
    misses accepts s ps=true ↔ walk accepts n s ps=none := by
  induction ps generalizing n s with
  | nil => simp [misses,walk]
  | cons p ps ih =>
    rw [misses,walk_cons]
    cases hfind : s.find (accepts p) with
    | none => simp [pick_eq_none (fun _ _ h => h) hfind]
    | some r =>
      obtain ⟨m,hpick⟩ := pick_of_find hfind (n+1)
      rw [hpick]
      exact ih m r.2.2

/-- The narrow pick is the same exactly when the first entry is accepted narrowly. -/
theorem pick_narrow_iff {accepts narrow : α → Bool → Bool} {s t : Forest α} {label : α} {b : Bool}
    (hnarrow : ∀ label b,narrow label b=true → accepts label b=true)
    (h : s.find accepts=some (label,b,t)) (i : ℕ) :
    s.pick narrow i=s.pick accepts i ↔ narrow label b=true := by
  induction s generalizing i with
  | nil => simp [find] at h
  | leaf name rest ih =>
    rw [find] at h
    split at h
    · next hyes =>
      simp only [Option.some.injEq,Prod.mk.injEq] at h
      obtain ⟨rfl,rfl,rfl⟩ := h
      rw [pick,pick,if_pos hyes]
      by_cases hin : narrow name false=true
      · simp [hin]
      · rw [if_neg hin]
        refine iff_of_false (fun heq => ?_) hin
        have := pick_range heq
        omega
    · next hno =>
      rw [pick,pick,if_neg hno,if_neg fun hyes => hno (hnarrow _ _ hyes)]
      exact ih h _
  | branch name inside rest _ ih =>
    rw [find] at h
    split at h
    · next hyes =>
      simp only [Option.some.injEq,Prod.mk.injEq] at h
      obtain ⟨rfl,rfl,rfl⟩ := h
      rw [pick,pick,if_pos hyes]
      by_cases hin : narrow name true=true
      · simp [hin]
      · rw [if_neg hin]
        refine iff_of_false (fun heq => ?_) hin
        have := pick_range heq
        omega
    · next hno =>
      rw [pick,pick,if_neg hno,if_neg fun hyes => hno (hnarrow _ _ hyes)]
      exact ih h _

/-- Walks that start with different entries have one result only if they have
none. -/
theorem walk_eq_of_pick_ne {accepts accepts' : β → α → Bool → Bool} {s : Forest α} {n : ℕ}
    {p q : β} {ps qs : List β}
    (hne : s.pick (accepts p) (n+1)≠s.pick (accepts' q) (n+1)) :
    walk accepts n s (p::ps)=walk accepts' n s (q::qs) ↔
      walk accepts n s (p::ps)=none ∧ walk accepts' n s (q::qs)=none := by
  refine ⟨fun heq => ?_,fun hboth => hboth.1.trans hboth.2.symm⟩
  cases hx : walk accepts n s (p::ps) with
  | none => exact ⟨rfl,heq.symm.trans hx⟩
  | some x =>
    have hy := heq.symm.trans hx
    rw [walk_cons] at hx hy
    obtain ⟨⟨m,t⟩,hp,hw⟩ := Option.bind_eq_some_iff.mp hx
    obtain ⟨⟨m',t'⟩,hq,hw'⟩ := Option.bind_eq_some_iff.mp hy
    have hr := walk_range hw
    have hr' := walk_range hw'
    dsimp only at hr hr'
    rcases pick_apart hp hq with ⟨rfl,rfl⟩|hlt|hlt
    · exact absurd (hp.trans hq.symm) hne
    · omega
    · omega

/-! ## Entries in preorder -/

/-- Labels of all entries, and whether each one is a branch. -/
def entries : Forest α → List (α×Bool)
  | nil => []
  | leaf label rest => (label,false)::rest.entries
  | branch label inside rest => (label,true)::(inside.entries++rest.entries)

/-- The same forest with other labels. -/
def map (g : α → β) : Forest α → Forest β
  | nil => nil
  | leaf label rest => leaf (g label) (rest.map g)
  | branch label inside rest => branch (g label) (inside.map g) (rest.map g)

/-- The number of the first entry that is accepted, for entries from a number on. -/
def first (accepts : α → Bool → Bool) (ents : List (α×Bool)) (i : ℕ) : Option ℕ :=
  (ents.findIdx? fun e => accepts e.1 e.2).map (i+·)

/-- Whether a walk down from an entry is straight in a forest numbered from one: at
each step the second acceptance comes, among all entries behind, first to the
entry that the walk takes, or to none if the walk takes none. -/
def straight (accepts accepts' : β → α → Bool → Bool) (f : Forest α) :
    ℕ → Forest α → List β → Bool
  | _,_,[] => true
  | n,s,p::ps =>
    decide (first (accepts' p) (f.entries.drop n) (n+1)=(s.pick (accepts p) (n+1)).map Prod.fst) &&
      (s.pick (accepts p) (n+1)).all fun r => straight accepts accepts' f r.1 r.2 ps

/-- One entry for each number. -/
theorem length_entries (s : Forest α) : s.entries.length=s.size := by
  induction s with
  | nil => rfl
  | leaf _ rest ih => rw [entries,List.length_cons,ih,size,Nat.add_comm]
  | branch _ inside rest ihi ihr =>
    rw [entries,List.length_cons,List.length_append,ihi,ihr,size]
    omega

/-- Other labels change nothing else. -/
theorem size_map (g : α → β) (s : Forest α) : (s.map g).size=s.size := by
  induction s with
  | nil => rfl
  | leaf _ rest ih => rw [map,size,size,ih]
  | branch _ inside rest ihi ihr => rw [map,size,size,ihi,ihr]

/-- Entries of the top level are numbered within the forest's range. -/
theorem range_of_mem_numbers {s : Forest α} {i m : ℕ} (h : m∈s.numbers i) :
    i ≤ m ∧ m < i+s.size := by
  induction s generalizing i with
  | nil => cases h
  | leaf _ rest ih =>
    rw [size]
    rcases List.mem_cons.mp h with rfl|h
    · omega
    · have := ih h
      omega
  | branch _ inside rest _ ih =>
    rw [size]
    rcases List.mem_cons.mp h with rfl|h
    · omega
    · have := ih h
      omega

/-- What is picked by an acceptance that no leaf meets is a branch. -/
theorem HasBranch.of_pick {p : α → Bool → Bool} (hleaf : ∀ label,p label false=false)
    {s t : Forest α} {i m : ℕ} (h : s.pick p i=some (m,t)) : s.HasBranch i m t := by
  induction s generalizing i with
  | nil => simp [pick] at h
  | leaf label rest ih =>
    rw [pick,if_neg (by simp [hleaf])] at h
    exact ih h
  | branch label inside rest _ ih =>
    rw [pick] at h
    split at h
    · obtain ⟨rfl,rfl⟩ := Prod.mk.inj (Option.some.inj h)
      exact Or.inl ⟨rfl,rfl⟩
    · exact Or.inr (Or.inr (ih h))

/-- What is picked is an entry of the top level. -/
theorem mem_numbers_of_pick {p : α → Bool → Bool} {s t : Forest α} {i m : ℕ}
    (h : s.pick p i=some (m,t)) : m∈s.numbers i := by
  induction s generalizing i with
  | nil => simp [pick] at h
  | leaf label rest ih =>
    rw [pick] at h
    split at h
    · obtain ⟨rfl,rfl⟩ := Prod.mk.inj (Option.some.inj h)
      exact List.mem_cons_self
    · exact List.mem_cons_of_mem _ (ih h)
  | branch label inside rest _ ih =>
    rw [pick] at h
    split at h
    · obtain ⟨rfl,rfl⟩ := Prod.mk.inj (Option.some.inj h)
      exact List.mem_cons_self
    · exact List.mem_cons_of_mem _ (ih h)

/-- The first entry accepted, and the entries in front of it. -/
theorem first_eq_some {p : α → Bool → Bool} {ents : List (α×Bool)} {i m : ℕ}
    (h : first p ents i=some m) : ∃ k,m=i+k ∧ (∃ e,ents[k]?=some e ∧ p e.1 e.2=true) ∧
      ∀ j<k,∀ e,ents[j]?=some e → p e.1 e.2=false := by
  obtain ⟨k,hk,rfl⟩ := Option.map_eq_some_iff.mp h
  obtain ⟨hlt,haccept,hfront⟩ := List.findIdx?_eq_some_iff_getElem.mp hk
  refine ⟨k,rfl,⟨_,List.getElem?_eq_getElem hlt,haccept⟩,fun j hj e he => ?_⟩
  obtain ⟨hj',rfl⟩ := List.getElem?_eq_some_iff.mp he
  exact Bool.eq_false_iff.mpr (hfront j hj)

/-- No entry is accepted. -/
theorem first_eq_none {p : α → Bool → Bool} {ents : List (α×Bool)} {i : ℕ}
    (h : first p ents i=none) {j : ℕ} {e : α×Bool} (he : ents[j]?=some e) : p e.1 e.2=false :=
  List.findIdx?_eq_none_iff.mp (Option.map_eq_none_iff.mp h) e (List.mem_of_getElem? he)

end Forest

end XanaduOS.Forests
