import XanaduOS.AddressSpaces
import XanaduOS.BuddyClone
import XanaduOS.TaskList

/-!
# Forks that fail

A fork takes a record from the task slab, copies the current task to it,
numbers it and copies the address space. Copying reports its failures, and the
fork drops the report: it goes on to the allocator of virtual blocks and
returns zero. So it is sound exactly where nothing fails.
-/

namespace XanaduOS.ForkFailures

open KernelDefs BuddyMemory BuddyClone AddressSpaces
open TaskList (Procs)

/-- `enum task_state`. -/
inductive TaskState
  /-- Not started. -/
  | empty
  /-- On the processor. -/
  | running
  /-- Waiting for the processor. -/
  | idle
  /-- Not used any more. -/
  | dead
  deriving DecidableEq

/-- What a fork reads and writes. -/
structure ForkState where
  /-- Numbers and links of the tasks, and the globals. -/
  procs : Procs
  /-- Directory of a task. -/
  pd : ℕ → ℕ
  /-- State of a task. -/
  state : ℕ → TaskState
  /-- Allocator of a task's virtual blocks. -/
  buddy : ℕ → BuddyRecord
  /-- Address spaces. -/
  clone : CloneState
  /-- Memory of the allocators of virtual blocks. -/
  memory : Memory
  /-- Records that the task slab has handed out. -/
  taken : List ℕ

/-- What the allocators return during a fork. -/
structure ForkGrant where
  /-- The record of the task slab, or null. -/
  newTask : ℕ
  /-- The record of the new directory, or null. -/
  newPd : ℕ
  /-- The memory of the new allocator of virtual blocks. -/
  buddy : Grant

/-- Copy the record of the current task, but for its number and its links. -/
def copyRecord (s : ForkState) (newTask : ℕ) : ForkState :=
  let cur := s.procs.curTask
  {s with
    pd := Function.update s.pd newTask (s.pd cur)
    state := Function.update s.state newTask (s.state cur)
    buddy := Function.update s.buddy newTask (s.buddy cur)}

/-- Make a record a copy of the current task. The number and the links are
copied with the record, which stays as copied when the directory is missing. A
null record faults when the directory is stored. -/
def forkTask (s : ForkState) (newTask newPd : ℕ) : Option (ℕ×ForkState) :=
  if newTask=0 then none
  else
    let cur := s.procs.curTask
    let s := copyRecord s newTask
    let s := {s with pd := Function.update s.pd newTask newPd}
    if newPd=0 then
      some (ENOMEM,{s with procs := s.procs.set newTask fun _ => s.procs.tasks cur})
    else
      let s := {s with
        state := Function.update s.state newTask .idle
        procs := TaskList.forkTask s.procs newTask}
      match clonePageDir s.clone s.clone.map.paging.curPd newPd with
      | none => none
      | some (ret,clone) => some (ret,{s with clone := clone})

/-- The task slab after a request. -/
def ForkState.take (s : ForkState) (newTask : ℕ) : ForkState :=
  if newTask=0 then s else {s with taken := newTask::s.taken}

variable (slab : Slab)

/-- Fork the current task. -/
def fork (s : ForkState) (g : ForkGrant) : Option (ℕ×ForkState) :=
  match forkTask (s.take g.newTask) g.newTask g.newPd with
  | none => none
  | some (_,s) =>
    match buddyAllocClone slab g.buddy (s.buddy s.procs.curTask) s.memory with
    | none => none
    | some (buddy,memory) =>
      some (0,{s with buddy := Function.update s.buddy g.newTask buddy, memory := memory})

/-- Something fails inside a fork. -/
inductive FailurePoint (s : ForkState) (g : ForkGrant) : Prop
  /-- The task slab is empty. -/
  | task (h : g.newTask=0)
  /-- There is no record for the directory. -/
  | directory (h : g.newPd=0)
  /-- The copy of the address space stops at an entry. -/
  | entry {code : ℕ} {t : CloneState} (hcode : code≠0)
      (h : clonePageDir s.clone s.clone.map.paging.curPd g.newPd=some (code,t))

/-- What a failed fork leaves: the counters, the list of tasks with the
neighbours' records, and the task slab are as before. -/
structure Undone (s : ForkState) (g : ForkGrant) (r : ForkState) : Prop where
  /-- Last number of a kernel task. -/
  lastKernelTid : r.procs.lastKernelTid=s.procs.lastKernelTid
  /-- Last number of a user task. -/
  lastUserTid : r.procs.lastUserTid=s.procs.lastUserTid
  /-- Head of the list. -/
  taskList : r.procs.taskList=s.procs.taskList
  /-- Tasks other than the one given back. -/
  tasks : ∀ p≠g.newTask,r.procs.tasks p=s.procs.tasks p
  /-- The record was given back. -/
  taken : r.taken=s.taken

/-- What a successful fork provides. -/
structure Complete (s : ForkState) (g : ForkGrant) (r : ForkState) : Prop where
  /-- The task has the new directory. -/
  pd : r.pd g.newTask=g.newPd
  /-- Every entry of the directory was copied. -/
  copied : clonePageDir s.clone s.clone.map.paging.curPd g.newPd=some (0,r.clone)
  /-- The task's allocator is a clone of the current task's. -/
  buddy : buddyAllocClone slab g.buddy (s.buddy s.procs.curTask) s.memory=
    some (r.buddy g.newTask,r.memory)
  /-- It has memory of its own. -/
  own : (r.buddy g.newTask).flSlab=g.buddy.flSlab ∧
    (r.buddy g.newTask).freeArea=g.buddy.freeArea ∧ (r.buddy g.newTask).maps=g.buddy.maps

/-- What a caller of fork relies on. -/
structure ForkSound (s : ForkState) (g : ForkGrant) : Prop where
  /-- A failure is reported and undone. -/
  reports : FailurePoint s g → ∃ code r,fork slab s g=some (code,r) ∧ code≠0 ∧ Undone s g r
  /-- Zero stands for a complete task. -/
  complete : ∀ r,fork slab s g=some (0,r) → Complete slab s g r

variable {slab} {s r : ForkState} {g : ForkGrant}

/-- The allocator that a clone returns lies in the memory granted. -/
theorem buddyAllocClone_own {grant : Grant} {copy b : BuddyRecord} {m m' : Memory}
    (h : buddyAllocClone slab grant copy m=some (b,m')) :
    b.flSlab=grant.flSlab ∧ b.freeArea=grant.freeArea ∧ b.maps=grant.maps := by
  obtain ⟨⟨_,u⟩,_,h⟩ := Option.bind_eq_some_iff.mp h
  obtain ⟨rfl,-⟩ := Prod.mk.inj (Option.some.inj h)
  exact ⟨rfl,rfl,rfl⟩

/-- A fork that returns has been through its three parts, and returns zero
whatever the first one said. -/
theorem fork_spec {code : ℕ} (h : fork slab s g=some (code,r)) :
    code=0 ∧ ∃ ret u buddy memory,forkTask (s.take g.newTask) g.newTask g.newPd=some (ret,u) ∧
      buddyAllocClone slab g.buddy (u.buddy u.procs.curTask) u.memory=some (buddy,memory) ∧
      r={u with buddy := Function.update u.buddy g.newTask buddy, memory := memory} := by
  simp only [fork] at h
  split at h
  · cases h
  rename_i ret u hu
  split at h
  · cases h
  rename_i buddy memory hclone
  cases h
  exact ⟨rfl,ret,u,buddy,memory,hu,hclone,rfl⟩

/-- A request to the task slab changes nothing else. -/
theorem take_spec (s : ForkState) (p : ℕ) : (s.take p).procs=s.procs ∧ (s.take p).pd=s.pd ∧
    (s.take p).buddy=s.buddy ∧ (s.take p).clone=s.clone ∧ (s.take p).memory=s.memory := by
  unfold ForkState.take
  split <;> exact ⟨rfl,rfl,rfl,rfl,rfl⟩

/-- A copied record has its directory; the allocators' memory and the current
task's allocator stay. -/
theorem forkTask_spec {newTask newPd ret : ℕ} {u : ForkState}
    (h : forkTask s newTask newPd=some (ret,u)) :
    u.pd newTask=newPd ∧ u.procs.curTask=s.procs.curTask ∧
      u.buddy s.procs.curTask=s.buddy s.procs.curTask ∧ u.memory=s.memory := by
  have hbuddy : (copyRecord s newTask).buddy s.procs.curTask=s.buddy s.procs.curTask := by
    simp only [copyRecord,Function.update_apply]
    split <;> rfl
  simp only [forkTask] at h
  split at h
  · cases h
  split at h
  · cases h
    exact ⟨Function.update_self _ _ _,rfl,hbuddy,rfl⟩
  split at h
  · cases h
  · cases h
    refine ⟨Function.update_self _ _ _,?_,hbuddy,rfl⟩
    simp only [TaskList.forkTask]
    split <;> rfl

/-- A record is copied without a failure when the address space is copied
completely. -/
theorem forkTask_copied {newTask newPd ret : ℕ} {u : ForkState}
    (h : forkTask s newTask newPd=some (ret,u)) (hpd : newPd≠0) :
    clonePageDir s.clone s.clone.map.paging.curPd newPd=some (ret,u.clone) := by
  simp only [forkTask] at h
  rw [if_neg hpd] at h
  split at h
  · cases h
  split at h
  · cases h
  rename_i code t ht
  cases h
  exact ht

/-- A fork is sound exactly when nothing fails inside it. -/
theorem forkSound_iff (slab : Slab) (s : ForkState) (g : ForkGrant) :
    ForkSound slab s g ↔ ¬FailurePoint s g := by
  constructor
  · intro hsound hfailure
    obtain ⟨code,r,hfork,hcode,-⟩ := hsound.reports hfailure
    exact hcode (fork_spec hfork).1
  · refine fun hnone => ⟨fun hfailure => absurd hfailure hnone,fun r hfork => ?_⟩
    obtain ⟨-,ret,u,buddy,memory,hrecord,hclone,rfl⟩ := fork_spec hfork
    obtain ⟨hprocs,-,htake,hspace,hmemory⟩ := take_spec s g.newTask
    obtain ⟨hpd,hcur,hbuddy,hmem⟩ := forkTask_spec hrecord
    have hcopied := forkTask_copied hrecord fun h0 => hnone (.directory h0)
    rw [hspace] at hcopied
    have hret : ret=0 := by_contra fun hret => hnone (.entry hret hcopied)
    rw [hcur,hbuddy,hmem,hprocs,htake,hmemory] at hclone
    refine ⟨hpd,hret▸hcopied,?_,?_⟩
    · simp only [Function.update_self]
      exact hclone
    · simp only [Function.update_self]
      exact buddyAllocClone_own hclone

/-- A current kernel task, whose allocator has one block. -/
def kernelTask : ForkState where
  procs := ⟨fun _ => ⟨0,0,0⟩,0xC0400000,0xC0400000,0,1000,[0xC0400000],false⟩
  pd := fun _ => 0xC0200000
  state := fun _ => .running
  buddy := fun _ => oneBlock
  clone := forkState 0x1000007
  memory := oneBlockMemory
  taken := [0xC0400000]

/-- Without a record for the directory the fork returns zero. -/
theorem forkSound_counterexample :
    ¬∀ (slab : Slab) (s : ForkState) (g : ForkGrant),ForkSound slab s g := by
  intro h
  have hsound := h garbageSlab kernelTask ⟨0xC0500000,0,⟨2,2,2⟩⟩
  obtain ⟨code,r,hfork,hcode,-⟩ := hsound.reports (.directory rfl)
  exact hcode (fork_spec hfork).1

end XanaduOS.ForkFailures
