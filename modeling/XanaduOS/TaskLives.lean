import XanaduOS.ForkFailures
import XanaduOS.Runs

/-!
# The lives of tasks

The kernel makes a task of itself and copies it to the first user task, which
is put on the list of tasks and entered. From then on the first user task is
the current one: the scheduler marks new tasks and switches to none, a fork
lists no copy, and the first exit ends in the kernel's idle loop. So user mode
is entered once, no copy ever runs, and no record is given back.
-/

namespace XanaduOS.TaskLives

open Word32 KernelDefs BuddyMemory Chains Runs
open ForkFailures (ForkState ForkGrant TaskState)
open TaskList (Procs links set_tasks)

/-- Return code for a missing file. -/
abbrev ENOENT : ℤ := 4

/-- The part of a task's record that says what the task runs. -/
structure Image where
  /-- Where the task is entered. -/
  eip : ℕ
  /-- Its stack pointer at the entry. -/
  esp : ℕ
  /-- The array of its mapped pages. -/
  mapAddr : ℕ
  /-- Length of the array. -/
  mapPageNum : ℕ
  /-- The file it executes. -/
  execNode : ℕ

/-- Tasks, and what becomes of them. -/
structure ProcState where
  /-- Numbers, links, states and address spaces of the tasks. -/
  tasks : ForkState
  /-- What each task runs. -/
  image : ℕ → Image
  /-- `ready_schedule`. -/
  readySchedule : Bool
  /-- Entries to user mode, the last one first: where, and on which stack. -/
  entries : List (ℕ×ℕ)
  /-- Tasks released, the last one first. -/
  freed : List ℕ

/-- Replace the list of tasks and the numbers. -/
def ProcState.setProcs (s : ProcState) (procs : Procs) : ProcState :=
  {s with tasks := {s.tasks with procs := procs}}

/-- The processor loops or the kernel has panicked. -/
def ProcState.halt (s : ProcState) : ProcState :=
  s.setProcs {s.tasks.procs with halted := true}

/-- Make a directory the current one. -/
def switchPageDir (s : ProcState) (pd : ℕ) : ProcState :=
  let paging := s.tasks.clone.map.paging
  {s with tasks := {s.tasks with clone := s.tasks.clone.setPaging {paging with curPd := pd}}}

/-- A mapped executable. -/
structure Loaded where
  /-- Bytes of the file. -/
  size : ℕ
  /-- The array for the mapped pages. -/
  mapAddr : ℕ
  /-- The first mapped page. -/
  userAddr : ℕ
  /-- Where the file starts in it. -/
  dataOff : ℕ
  /-- The entry that the file's header names. -/
  entry : ℕ
  /-- The first page of the stack. -/
  userEsp : ℕ

/-- Pages of the user stack. -/
abbrev USER_STACK_SIZE : ℕ := 4

/-- Round up to whole pages. -/
def pageAlignUp (num : ℕ) : ℕ :=
  wadd (num-num%PAGE_SIZE) (if num%PAGE_SIZE≠0 then PAGE_SIZE else 0)

/-- Where an executable is entered. -/
def Loaded.userEntry (e : Loaded) : ℕ :=
  wadd (wadd (wadd e.userAddr e.dataOff) e.entry) PAGE_SIZE

/-- The top of its stack. -/
def Loaded.stack (e : Loaded) : ℕ := wadd e.userEsp ((USER_STACK_SIZE-1)*0x1000)

/-- Note what a task runs. -/
def loadElf (s : ProcState) (task : ℕ) (e : Loaded) : ProcState :=
  let image : Image := ⟨e.userEntry,e.stack,e.mapAddr,pageAlignUp e.size,(s.image task).execNode⟩
  {s with image := Function.update s.image task image}

/-- Enter a user task. -/
def runUserTask (s : ProcState) (task : ℕ) : ProcState :=
  {s.setProcs {s.tasks.procs with curTask := task} with
    entries := ((s.image task).eip,(s.image task).esp)::s.entries}

/-- Go on with a task. The kernel's own loops. -/
def switchTask (s : ProcState) (task : ℕ) : ProcState :=
  let s := switchPageDir s (s.tasks.pd task)
  if 1000≤(s.tasks.procs.tasks task).id then runUserTask s task else s.halt

/-- Mark the tasks that are new, from one on. -/
def scheduleLoop : ℕ → ℕ → ProcState → Option ProcState
  | 0,_,_ => none
  | fuel+1,task,s =>
    if task=0 then some s
    else
      let s := if s.tasks.state task=.empty then
          {s with
            tasks := {s.tasks with state := Function.update s.tasks.state task .running}
            readySchedule := true}
        else s
      scheduleLoop fuel (s.tasks.procs.tasks task).next s

/-- The scheduler, registered as a callback of the timer. It returns behind its
first loop. -/
def schedule (fuel : ℕ) (s : ProcState) : Option ProcState :=
  scheduleLoop fuel s.tasks.procs.taskList s

/-- What the kernel starts with: the records that the task slab returns, and
the first user task's executable, when it could be mapped. -/
structure Boot where
  /-- The kernel task. -/
  kernelTask : ℕ
  /-- A null record is not checked for. -/
  kernelTask_ne : kernelTask≠0
  /-- `kernel_pd`. -/
  kernelPd : ℕ
  /-- `kern_buddy`. -/
  kernBuddy : BuddyRecord
  /-- Address of the idle loop. -/
  kern : ℕ
  /-- The first user task. -/
  initTask : ℕ
  /-- The slab hands out a record once. -/
  initTask_ne : initTask≠kernelTask
  /-- Its directory. -/
  initPd : ℕ
  /-- Its file. -/
  execNode : ℕ
  /-- Its allocator of virtual blocks. -/
  userBuddy : BuddyRecord
  /-- Its executable. -/
  loaded : Option Loaded

/-- Make the kernel a task. -/
def multiprocInit (s : ProcState) (b : Boot) : ProcState :=
  let tasks := s.tasks.take b.kernelTask
  {s with
    tasks := {tasks with
      procs := TaskList.multiprocInit tasks.procs b.kernelTask
      pd := Function.update tasks.pd b.kernelTask b.kernelPd
      state := Function.update tasks.state b.kernelTask .running
      buddy := Function.update tasks.buddy b.kernelTask b.kernBuddy}
    image := Function.update s.image b.kernelTask {s.image b.kernelTask with eip := b.kern}}

/-- Make a copy of the current task the first user task, and list it. -/
def listInit (s : ProcState) (u : ForkState) (b : Boot) : ProcState :=
  let procs := u.procs.set b.initTask fun t => {t with id := u.procs.lastUserTid}
  {s with
    tasks := {u with
      procs := TaskList.doublyLlInsert procs b.initTask
      state := Function.update u.state b.initTask .empty
      buddy := Function.update u.buddy b.initTask b.userBuddy}
    image := Function.update s.image b.initTask
      {s.image s.tasks.procs.curTask with execNode := b.execNode}}

/-- Copy the kernel task to the first user task, list it and enter it. The
kernel panics without the copy and without the executable. -/
def spawnInit (s : ProcState) (b : Boot) : Option ProcState :=
  match ForkFailures.forkTask (s.tasks.take b.initTask) b.initTask b.initPd with
  | none => none
  | some (ret,u) =>
    if ret≠0 then none
    else
      let s := listInit s u b
      let task := s.tasks.procs.taskList
      let s := switchPageDir s (s.tasks.pd task)
      b.loaded.map fun e => switchTask (loadElf s task e) task

/-- Fork the current task. The copy runs what the current task runs. -/
def fork (slab : Slab) (s : ProcState) (g : ForkGrant) : Option (ℕ×ProcState) :=
  (ForkFailures.fork slab s.tasks g).map fun r => (r.1,{s with
    tasks := r.2
    image := Function.update s.image g.newTask (s.image s.tasks.procs.curTask)})

/-- Name another file for the current task. The file is a parameter, null when
there is none, and so is what the reset leaves of the virtual blocks. -/
def execve (s : ProcState) (node : ℕ) (memory : Memory) : ℤ×ProcState :=
  if node=0 then (-ENOENT,s)
  else
    let cur := s.tasks.procs.curTask
    (0,{s with
      tasks := {s.tasks with memory := memory,state := Function.update s.tasks.state cur .empty}
      image := Function.update s.image cur {s.image cur with execNode := node}})

variable (freeTask : ProcState → ℕ → ProcState)

/-- The current task exits. Releasing it is a parameter, with a note of the
task. -/
def exit (s : ProcState) : ProcState :=
  let cur := s.tasks.procs.curTask
  let s := s.setProcs (TaskList.doublyLlRemove s.tasks.procs cur)
  let list := s.tasks.procs.taskList
  if list=0 then s.halt
  else if (s.tasks.procs.tasks list).next=0 then s.halt
  else switchTask {freeTask s cur with freed := cur::s.freed} list

/-- What may happen after the start. The timer's handler returns before it comes
to its callbacks, so no tick happens in the kernel as it stands. -/
inductive Event
  /-- The scheduler is called. -/
  | tick
  /-- The current task forks. -/
  | fork (g : ForkGrant)
  /-- It executes a file. -/
  | execve (node : ℕ) (memory : Memory)
  /-- It exits. -/
  | exit

/-- One event. The slab returns a record that is not in use. -/
inductive Step (slab : Slab) : ProcState → Event → ProcState → Prop
  /-- The scheduler returns. -/
  | tick {s t : ProcState} {fuel : ℕ} (h : schedule fuel s=some t) : Step slab s .tick t
  /-- A fork returns. -/
  | fork {s t : ProcState} {g : ForkGrant} {code : ℕ} (hrun : s.tasks.procs.halted=false)
      (hfresh : g.newTask∉s.tasks.taken) (h : fork slab s g=some (code,t)) :
      Step slab s (.fork g) t
  /-- An execve returns. -/
  | execve {s : ProcState} {node : ℕ} {memory : Memory} (hrun : s.tasks.procs.halted=false) :
      Step slab s (.execve node memory) (execve s node memory).2
  /-- An exit. -/
  | exit {s : ProcState} (hrun : s.tasks.procs.halted=false) : Step slab s .exit (exit freeTask s)

/-- Before any task. The records hold anything. -/
structure PowerOn (s : ProcState) : Prop where
  /-- No task is listed. -/
  taskList : s.tasks.procs.taskList=0
  /-- No task lives. -/
  live : s.tasks.procs.live=[]
  /-- The kernel runs. -/
  running : s.tasks.procs.halted=false
  /-- The slab is untouched. -/
  taken : s.tasks.taken=[]
  /-- User mode was never entered. -/
  entries : s.entries=[]
  /-- Nothing was released. -/
  freed : s.freed=[]

/-- Start the tasks. -/
def start (s : ProcState) (b : Boot) : Option ProcState := spawnInit (multiprocInit s b) b

/-- The records of a fork. -/
def Event.grant : Event → Option ForkGrant
  | .fork g => some g
  | _ => none

/-- The records of the forks among some events, in their order. -/
def forks (events : List Event) : List ForkGrant := events.filterMap Event.grant

/-- The copies among them that have a directory. -/
def copies (events : List Event) : List ForkGrant := (forks events).filter (·.newPd≠0)

/-- A task's record says that it runs an executable. -/
structure Executes (e : Loaded) (i : Image) : Prop where
  /-- It is entered where the executable is. -/
  eip : i.eip=e.userEntry
  /-- On the executable's stack. -/
  esp : i.esp=e.stack
  /-- Its pages are the executable's. -/
  mapAddr : i.mapAddr=e.mapAddr
  /-- As many as the file needs. -/
  mapPageNum : i.mapPageNum=pageAlignUp e.size

/-- The first user task is listed before the kernel task until it exits, and
the kernel task alone after. -/
def listedTasks (b : Boot) (s : ProcState) : List ℕ :=
  if s.tasks.procs.halted then [b.kernelTask] else [b.initTask,b.kernelTask]

/-- The tasks after a start and some events. -/
structure Lives (b : Boot) (e : Loaded) (events : List Event) (s : ProcState) : Prop where
  /-- The first user task is the current one. -/
  current : s.tasks.procs.curTask=b.initTask
  /-- It has a record. -/
  initTask_ne : b.initTask≠0
  /-- The list holds the two tasks only. -/
  listed : Linked 0 (links s.tasks.procs) (fun p => (s.tasks.procs.tasks p).prev) 0
    (listedTasks b s)
  /-- The kernel loops from the first exit on. -/
  halted : s.tasks.procs.halted=true ↔ Event.exit∈events
  /-- The first user task has the first user number. -/
  first : (s.tasks.procs.tasks b.initTask).id=1000
  /-- The records in use are those of the copies and of the two tasks. -/
  taken : s.tasks.taken=((forks events).map ForkGrant.newTask).reverse++[b.initTask,b.kernelTask]
  /-- No record is in use twice. -/
  nodup : s.tasks.taken.Nodup
  /-- The copies with a directory have the numbers behind it, in order. -/
  numbered : (copies events).map (fun g => (s.tasks.procs.tasks g.newTask).id)=
    List.range' 1001 (copies events).length
  /-- The last number. -/
  lastUserTid : s.tasks.procs.lastUserTid=1000+(copies events).length
  /-- A copy with a directory waits. -/
  waiting : ∀ g∈copies events,s.tasks.state g.newTask=.idle
  /-- A copy without a directory has the first task's number. -/
  unnumbered : ∀ g∈forks events,g.newPd=0 → (s.tasks.procs.tasks g.newTask).id=1000
  /-- Every user task runs the first executable. -/
  images : ∀ p∈b.initTask::(forks events).map ForkGrant.newTask,Executes e (s.image p)
  /-- User mode was entered once, by the first user task. -/
  entries : s.entries=[(e.userEntry,e.stack)]
  /-- No task was released. -/
  freed : s.freed=[]

variable {freeTask : ProcState → ℕ → ProcState} {slab : Slab} {s t : ProcState} {b : Boot}
variable {e : Loaded} {events : List Event}

/-! ## What the operations write -/

/-- The scheduler rewrites the states of new tasks. -/
structure Scheduled (s t : ProcState) : Prop where
  /-- Numbers and links. -/
  procs : t.tasks.procs=s.tasks.procs
  /-- Records in use. -/
  taken : t.tasks.taken=s.tasks.taken
  /-- A task that waits goes on waiting. -/
  waiting : ∀ p,s.tasks.state p=.idle → t.tasks.state p=.idle
  /-- What the tasks run. -/
  image : t.image=s.image
  /-- Entries to user mode. -/
  entries : t.entries=s.entries
  /-- Tasks released. -/
  freed : t.freed=s.freed

/-- The scheduler's loop marks tasks and does nothing else. -/
theorem scheduleLoop_spec {fuel task : ℕ} (h : scheduleLoop fuel task s=some t) :
    Scheduled s t := by
  induction fuel generalizing task s with
  | zero => cases h
  | succ fuel ih =>
    rw [scheduleLoop] at h
    by_cases htask : task=0
    · rw [if_pos htask] at h
      obtain rfl := Option.some.inj h
      exact ⟨rfl,rfl,fun _ hp => hp,rfl,rfl,rfl⟩
    rw [if_neg htask] at h
    by_cases hnew : s.tasks.state task=.empty
    · simp only [if_pos hnew] at h
      obtain ⟨hprocs,htaken,hwaiting,himage,hentries,hfreed⟩ := ih h
      refine ⟨hprocs,htaken,fun p hp => hwaiting p ?_,himage,hentries,hfreed⟩
      have hne : p≠task := fun heq => by
        rw [heq,hnew] at hp
        cases hp
      exact (Function.update_of_ne hne _ _).trans hp
    · simp only [if_neg hnew] at h
      exact ih h

/-- The scheduler's loop ends behind the last task. -/
theorem scheduleLoop_ends {procs : Procs} {a : ℕ} {xs : List ℕ} {fuel : ℕ}
    (hxs : ∀ p∈xs,p≠0) (hpath : Path (links procs) a xs 0) (hfuel : xs.length<fuel)
    (hs : s.tasks.procs=procs) : ∃ t,scheduleLoop fuel (links procs a) s=some t := by
  induction xs generalizing a fuel s with
  | nil =>
    obtain ⟨fuel,rfl⟩ := Nat.exists_eq_succ_of_ne_zero (Nat.ne_of_gt hfuel)
    have hend : links procs a=0 := hpath
    exact ⟨s,by rw [scheduleLoop,if_pos hend]⟩
  | cons x xs ih =>
    obtain ⟨fuel,rfl⟩ := Nat.exists_eq_succ_of_ne_zero (Nat.ne_of_gt (Nat.zero_lt_of_lt hfuel))
    obtain ⟨hx,hrest⟩ := hpath
    have hx0 : x≠0 := hxs x List.mem_cons_self
    rw [hx,scheduleLoop,if_neg hx0]
    have hnext : ∀ u : ProcState,u.tasks.procs=procs → ∃ t,
        scheduleLoop fuel (u.tasks.procs.tasks x).next u=some t := by
      intro u hu
      rw [hu,←TaskList.links_of_ne procs hx0]
      exact ih (fun p hp => hxs p (List.mem_cons_of_mem x hp)) hrest
        (Nat.lt_of_succ_lt_succ hfuel) hu
    refine hnext _ ?_
    split
    · exact hs
    · exact hs

/-- A fork takes a record, copies the current task to it and numbers the copy
when there is a directory. -/
structure Forked (s t : ProcState) (g : ForkGrant) : Prop where
  /-- There is a record. -/
  newTask : g.newTask≠0
  /-- It is in use. -/
  taken : t.tasks.taken=g.newTask::s.tasks.taken
  /-- A copy with a directory is numbered. -/
  numbered : g.newPd≠0 → t.tasks.procs=TaskList.forkTask s.tasks.procs g.newTask
  /-- It waits. -/
  waiting : g.newPd≠0 → t.tasks.state g.newTask=.idle
  /-- A copy without one stays as it is copied. -/
  unnumbered : g.newPd=0 → t.tasks.procs=
    s.tasks.procs.set g.newTask fun _ => s.tasks.procs.tasks s.tasks.procs.curTask
  /-- The other tasks keep their states. -/
  state : ∀ p≠g.newTask,t.tasks.state p=s.tasks.state p
  /-- The copy runs what the current task runs. -/
  image : t.image=Function.update s.image g.newTask (s.image s.tasks.procs.curTask)
  /-- Entries to user mode. -/
  entries : t.entries=s.entries
  /-- Tasks released. -/
  freed : t.freed=s.freed

/-- What copying a record does to the tasks. -/
theorem forkTask_record {r u : ForkState} {newTask newPd ret : ℕ}
    (h : ForkFailures.forkTask r newTask newPd=some (ret,u)) :
    newTask≠0 ∧ u.taken=r.taken ∧
      (newPd≠0 → u.procs=TaskList.forkTask r.procs newTask ∧ u.state newTask=.idle) ∧
      (newPd=0 → u.procs=r.procs.set newTask fun _ => r.procs.tasks r.procs.curTask) ∧
      ∀ p≠newTask,u.state p=r.state p := by
  simp only [ForkFailures.forkTask] at h
  split at h
  · cases h
  rename_i htask
  split at h
  · rename_i hpd
    cases h
    exact ⟨htask,rfl,fun hne => absurd hpd hne,fun _ => rfl,
      fun p hp => Function.update_of_ne hp _ _⟩
  · rename_i hpd
    split at h
    · cases h
    cases h
    refine ⟨htask,rfl,fun _ => ⟨rfl,Function.update_self _ _ _⟩,fun heq => absurd heq hpd,
      fun p hp => ?_⟩
    exact (Function.update_of_ne hp _ _).trans (Function.update_of_ne hp _ _)

/-- A fork that returns. -/
theorem fork_spec {g : ForkGrant} {code : ℕ} (h : fork slab s g=some (code,t)) :
    Forked s t g := by
  obtain ⟨⟨_,r⟩,hfork,heq⟩ := Option.map_eq_some_iff.mp h
  obtain ⟨-,rfl⟩ := Prod.mk.inj heq
  obtain ⟨-,ret,u,_,_,hcopy,-,rfl⟩ := ForkFailures.fork_spec hfork
  obtain ⟨hne,htaken,hnumbered,hunnumbered,hstate⟩ := forkTask_record hcopy
  have hprocs := (ForkFailures.take_spec s.tasks g.newTask).1
  have htake : s.tasks.take g.newTask={s.tasks with taken := g.newTask::s.tasks.taken} :=
    if_neg hne
  rw [htake] at htaken hnumbered hunnumbered hstate
  exact ⟨hne,htaken,fun hpd => (hnumbered hpd).1,fun hpd => (hnumbered hpd).2,hunnumbered,
    hstate,rfl,rfl,rfl⟩

/-- A fork changes neither the other tasks nor what is listed and current. -/
theorem Forked.others {g : ForkGrant} (h : Forked s t g) :
    (∀ p≠g.newTask,t.tasks.procs.tasks p=s.tasks.procs.tasks p) ∧
      t.tasks.procs.taskList=s.tasks.procs.taskList ∧
      t.tasks.procs.curTask=s.tasks.procs.curTask ∧
      t.tasks.procs.halted=s.tasks.procs.halted := by
  by_cases hpd : g.newPd=0
  · rw [h.unnumbered hpd]
    exact ⟨fun p hp => Function.update_of_ne hp _ _,rfl,rfl,rfl⟩
  · rw [h.numbered hpd]
    obtain ⟨htasks,hlist,-⟩ := TaskList.forkTask_spec s.tasks.procs g.newTask
    refine ⟨htasks,hlist,?_,?_⟩
    · simp only [TaskList.forkTask]
      split <;> rfl
    · simp only [TaskList.forkTask]
      split <;> rfl

/-- Copying the current task keeps the number that the new one is chosen by. -/
theorem copied_id (procs : Procs) (newTask : ℕ) :
    ((procs.set newTask fun _ => procs.tasks procs.curTask).tasks
      (procs.set newTask fun _ => procs.tasks procs.curTask).curTask).id=
      (procs.tasks procs.curTask).id := by
  simp only [set_tasks]
  split <;> rfl

/-- The copy of a user task has the next user number. -/
theorem forkTask_user {procs : Procs} {newTask : ℕ}
    (huser : 1000≤(procs.tasks procs.curTask).id) :
    ((TaskList.forkTask procs newTask).tasks newTask).id=procs.lastUserTid+1 ∧
      (TaskList.forkTask procs newTask).lastUserTid=procs.lastUserTid+1 := by
  rw [TaskList.forkTask,if_pos ((copied_id procs newTask).symm▸huser)]
  simp [Procs.set]

/-- The copy of a kernel task leaves the user numbers. -/
theorem forkTask_kernel {procs : Procs} {newTask : ℕ}
    (hkernel : (procs.tasks procs.curTask).id<1000) :
    (TaskList.forkTask procs newTask).lastUserTid=procs.lastUserTid ∧
      (TaskList.forkTask procs newTask).halted=procs.halted := by
  rw [TaskList.forkTask,if_neg ((copied_id procs newTask).symm▸hkernel.not_ge)]
  exact ⟨rfl,rfl⟩

/-- The number of a copy, and the last number. -/
theorem Forked.number {g : ForkGrant} (h : Forked s t g) {n : ℕ}
    (huser : (s.tasks.procs.tasks s.tasks.procs.curTask).id=1000)
    (hlast : s.tasks.procs.lastUserTid=n) :
    (t.tasks.procs.tasks g.newTask).id=(if g.newPd=0 then 1000 else n+1) ∧
      t.tasks.procs.lastUserTid=if g.newPd=0 then n else n+1 := by
  by_cases hpd : g.newPd=0
  · rw [if_pos hpd,if_pos hpd,h.unnumbered hpd]
    exact ⟨(congrArg TaskList.Task.id (Function.update_self _ _ _)).trans huser,hlast⟩
  · rw [if_neg hpd,if_neg hpd,h.numbered hpd,←hlast]
    exact forkTask_user huser.ge

/-! ## Events -/

/-- One more event. -/
theorem forks_concat (events : List Event) (ev : Event) :
    forks (events++[ev])=forks events++ev.grant.toList := by
  rw [forks,forks,List.filterMap_append]
  cases ev <;> rfl

/-- The copies with one more fork. -/
theorem copies_concat (events : List Event) (g : ForkGrant) :
    copies (events++[.fork g])=if g.newPd=0 then copies events else copies events++[g] := by
  rw [copies,forks_concat,List.filter_append]
  by_cases hpd : g.newPd=0
  · simp [copies,Event.grant,hpd]
  · simp [copies,Event.grant,hpd]

/-- The copies when the same forks happened. -/
theorem copies_congr {events' : List Event} (h : forks events'=forks events) :
    copies events'=copies events := by
  rw [copies,copies,h]

/-- A record of a fork is neither of the two tasks'. -/
theorem Lives.fork_ne (h : Lives b e events s) {g : ForkGrant} (hg : g∈forks events) :
    g.newTask≠b.initTask ∧ g.newTask≠b.kernelTask := by
  have hnd := h.nodup
  rw [h.taken] at hnd
  have hapart := (List.nodup_append'.mp hnd).2.2
  have hmem : g.newTask∈((forks events).map ForkGrant.newTask).reverse :=
    List.mem_reverse.mpr (List.mem_map_of_mem hg)
  constructor
  · intro heq
    exact hapart hmem (by rw [heq]; exact List.mem_cons_self)
  · intro heq
    exact hapart hmem (by rw [heq]; simp)

/-- An event that is no fork and no exit, and keeps numbers, links and
executables. -/
theorem Lives.congr (h : Lives b e events s) {events' : List Event}
    (hforks : forks events'=forks events) (hexit : Event.exit∈events' ↔ Event.exit∈events)
    (hprocs : t.tasks.procs=s.tasks.procs) (htaken : t.tasks.taken=s.tasks.taken)
    (hwaiting : ∀ g∈copies events,s.tasks.state g.newTask=.idle → t.tasks.state g.newTask=.idle)
    (himages : ∀ p,Executes e (s.image p) → Executes e (t.image p))
    (hentries : t.entries=s.entries) (hfreed : t.freed=s.freed) : Lives b e events' t where
  current := by rw [hprocs]; exact h.current
  initTask_ne := h.initTask_ne
  listed := by
    rw [listedTasks,hprocs]
    exact h.listed
  halted := by rw [hprocs,hexit]; exact h.halted
  first := by rw [hprocs]; exact h.first
  taken := by rw [htaken,hforks]; exact h.taken
  nodup := by rw [htaken]; exact h.nodup
  numbered := by rw [hprocs,copies_congr hforks]; exact h.numbered
  lastUserTid := by rw [hprocs,copies_congr hforks]; exact h.lastUserTid
  waiting := by
    rw [copies_congr hforks]
    exact fun g hg => hwaiting g hg (h.waiting g hg)
  unnumbered := by rw [hprocs,hforks]; exact h.unnumbered
  images := by
    rw [hforks]
    exact fun p hp => himages p (h.images p hp)
  entries := hentries.trans h.entries
  freed := hfreed.trans h.freed

/-- The scheduler keeps everything but the states of new tasks. -/
theorem Lives.tick (h : Lives b e events s) {fuel : ℕ} (hcall : schedule fuel s=some t) :
    Lives b e (events++[.tick]) t := by
  obtain ⟨hprocs,htaken,hwaiting,himage,hentries,hfreed⟩ := scheduleLoop_spec hcall
  refine h.congr ?_ ?_ hprocs htaken (fun g _ hg => hwaiting _ hg) (fun p hp => ?_) hentries hfreed
  · rw [forks_concat]
    exact List.append_nil _
  · simp
  · rw [himage]
    exact hp

/-- The scheduler returns. -/
theorem Lives.ticks (h : Lives b e events s) : ∃ t,schedule 3 s=some t := by
  have hlength : (listedTasks b s).length<3 := by
    unfold listedTasks
    split <;> simp
  have hnull : ∀ p∈listedTasks b s,p≠0 := by
    have hkernel := b.kernelTask_ne
    have hinit := h.initTask_ne
    unfold listedTasks
    split <;> simp [hkernel,hinit]
  obtain ⟨t,ht⟩ := scheduleLoop_ends hnull h.listed.path hlength rfl
  rw [TaskList.links_zero] at ht
  exact ⟨t,ht⟩

/-- Naming another file keeps everything else that is known of the tasks. -/
theorem Lives.execve (h : Lives b e events s) (node : ℕ) (memory : Memory) :
    Lives b e (events++[.execve node memory]) (execve s node memory).2 := by
  have hforks : forks (events++[.execve node memory])=forks events := by
    rw [forks_concat]
    exact List.append_nil _
  have hexit : Event.exit∈events++[.execve node memory] ↔ Event.exit∈events := by simp
  unfold TaskLives.execve
  split
  · exact h.congr hforks hexit rfl rfl (fun _ _ hg => hg) (fun _ hp => hp) rfl rfl
  · refine h.congr hforks hexit rfl rfl (fun g hg hidle => ?_) (fun p hp => ?_) rfl rfl
    · have hne : g.newTask≠s.tasks.procs.curTask := by
        rw [h.current]
        exact (h.fork_ne (List.mem_filter.mp hg).1).1
      exact (Function.update_of_ne hne _ _).trans hidle
    · by_cases hcur : p=s.tasks.procs.curTask
      · subst hcur
        simp only [Function.update_self]
        exact ⟨hp.eip,hp.esp,hp.mapAddr,hp.mapPageNum⟩
      · simp only [Function.update_of_ne hcur]
        exact hp

/-- A new record is none of those in use. -/
theorem Lives.fresh (h : Lives b e events s) {p : ℕ} (hp : p∉s.tasks.taken) :
    p≠b.initTask ∧ p≠b.kernelTask ∧ ∀ g∈forks events,g.newTask≠p := by
  have hne : ∀ q∈s.tasks.taken,q≠p := fun q hq heq => hp (heq▸hq)
  rw [h.taken] at hne
  exact ⟨(hne _ (by simp)).symm,(hne _ (by simp)).symm,fun g hg => hne _ (List.mem_append_left _
    (List.mem_reverse.mpr (List.mem_map_of_mem hg)))⟩

/-- A fork lists no copy. -/
theorem Lives.fork_listed (h : Lives b e events s) {g : ForkGrant} (hfork : Forked s t g)
    (hfresh : g.newTask∉s.tasks.taken) :
    Linked 0 (links t.tasks.procs) (fun p => (t.tasks.procs.tasks p).prev) 0
      (listedTasks b t) := by
  obtain ⟨htasks,hlist,-,hhalted⟩ := hfork.others
  obtain ⟨hinit,hkernel,-⟩ := h.fresh hfresh
  have hapart : ∀ p∈listedTasks b s,p≠0 ∧ p≠g.newTask := by
    have hkernel0 := b.kernelTask_ne
    have hinit0 := h.initTask_ne
    unfold listedTasks
    split <;> simp [hkernel0,hinit0,hkernel.symm,hinit.symm]
  have hlisted : listedTasks b t=listedTasks b s := by rw [listedTasks,hhalted]; rfl
  rw [hlisted]
  refine h.listed.congr (fun y hy => ?_) fun y hy => ?_
  · rcases List.mem_cons.mp hy with rfl|hy
    · rw [TaskList.links_zero,TaskList.links_zero,hlist]
    · obtain ⟨hy0,hyne⟩ := hapart y hy
      rw [TaskList.links_of_ne _ hy0,TaskList.links_of_ne _ hy0,htasks y hyne]
  · simp only [htasks y (hapart y hy).2]

/-- A fork numbers a copy that has a directory, and lets it wait. -/
theorem Lives.fork_numbered (h : Lives b e events s) {g : ForkGrant} (hfork : Forked s t g)
    (hfresh : g.newTask∉s.tasks.taken) :
    (copies (events++[.fork g])).map (fun g => (t.tasks.procs.tasks g.newTask).id)=
        List.range' 1001 (copies (events++[.fork g])).length ∧
      t.tasks.procs.lastUserTid=1000+(copies (events++[.fork g])).length ∧
      ∀ g'∈copies (events++[.fork g]),t.tasks.state g'.newTask=.idle := by
  obtain ⟨-,-,hold⟩ := h.fresh hfresh
  obtain ⟨hid,hlast⟩ := hfork.number ((congrArg (fun p => (s.tasks.procs.tasks p).id)
    h.current).trans h.first) h.lastUserTid
  have hids : (copies events).map (fun g' => (t.tasks.procs.tasks g'.newTask).id)=
      List.range' 1001 (copies events).length := by
    rw [←h.numbered]
    refine List.map_congr_left fun g' hg' => ?_
    rw [hfork.others.1 _ (hold g' (List.mem_filter.mp hg').1)]
  have hwaiting : ∀ g'∈copies events,t.tasks.state g'.newTask=.idle := by
    intro g' hg'
    rw [hfork.state _ (hold g' (List.mem_filter.mp hg').1)]
    exact h.waiting g' hg'
  rw [copies_concat]
  by_cases hpd : g.newPd=0
  · rw [if_pos hpd] at hlast ⊢
    exact ⟨hids,hlast,hwaiting⟩
  · rw [if_neg hpd] at hid hlast ⊢
    refine ⟨?_,?_,fun g' hg' => ?_⟩
    · rw [List.map_append,hids,List.map_singleton,hid,List.length_append,List.length_singleton,
        List.range'_1_concat]
      congr 2
      omega
    · rw [hlast,List.length_append,List.length_singleton,Nat.add_assoc]
    · rcases List.mem_append.mp hg' with hg'|hg'
      · exact hwaiting g' hg'
      · rw [List.mem_singleton.mp hg']
        exact hfork.waiting hpd

/-- What a fork keeps. -/
theorem Lives.fork (h : Lives b e events s) {g : ForkGrant} {code : ℕ}
    (hfresh : g.newTask∉s.tasks.taken) (hcall : fork slab s g=some (code,t)) :
    Lives b e (events++[.fork g]) t := by
  have hfork := fork_spec hcall
  obtain ⟨htasks,-,hcur,hhalted⟩ := hfork.others
  obtain ⟨hinit,-,hold⟩ := h.fresh hfresh
  obtain ⟨hnumbered,hlast,hwaiting⟩ := h.fork_numbered hfork hfresh
  have hforks : forks (events++[.fork g])=forks events++[g] := forks_concat _ _
  refine ⟨hcur.trans h.current,h.initTask_ne,h.fork_listed hfork hfresh,?_,?_,?_,?_,hnumbered,
    hlast,hwaiting,?_,?_,hfork.entries.trans h.entries,hfork.freed.trans h.freed⟩
  · rw [hhalted,h.halted]
    simp
  · rw [htasks _ hinit.symm]
    exact h.first
  · rw [hforks,hfork.taken,h.taken]
    simp
  · rw [hfork.taken]
    exact List.nodup_cons.mpr ⟨hfresh,h.nodup⟩
  · intro g' hg' hpd
    rw [hforks,List.mem_append,List.mem_singleton] at hg'
    rcases hg' with hg'|rfl
    · rw [htasks _ (hold g' hg')]
      exact h.unnumbered g' hg' hpd
    · have hid := (hfork.number ((congrArg (fun p => (s.tasks.procs.tasks p).id)
        h.current).trans h.first) h.lastUserTid).1
      rwa [if_pos hpd] at hid
  · intro p hp
    rw [hfork.image]
    by_cases hnew : p=g.newTask
    · rw [hnew,Function.update_self,h.current]
      exact h.images _ List.mem_cons_self
    · rw [Function.update_of_ne hnew]
      rw [hforks,List.map_append,List.map_singleton,List.mem_cons,List.mem_append,
        List.mem_singleton] at hp
      exact h.images p (List.mem_cons.mpr (hp.imp_right fun hp => hp.resolve_right hnew))

/-- Taking a task from the list keeps the numbers. -/
theorem doublyLlRemove_numbers (procs : Procs) (member p : ℕ) :
    ((TaskList.doublyLlRemove procs member).tasks p).id=(procs.tasks p).id ∧
      (TaskList.doublyLlRemove procs member).curTask=procs.curTask ∧
      (TaskList.doublyLlRemove procs member).lastUserTid=procs.lastUserTid := by
  refine ⟨?_,?_,?_⟩
  · simp only [TaskList.doublyLlRemove,TaskList.setAt_tasks]
    split_ifs <;> rfl
  · simp only [TaskList.doublyLlRemove,Procs.setAt]
    split_ifs <;> rfl
  · simp only [TaskList.doublyLlRemove,Procs.setAt]
    split_ifs <;> rfl

/-- Without the first user task the list holds the kernel task. -/
theorem Lives.removed (h : Lives b e events s) (hrun : s.tasks.procs.halted=false) :
    Linked 0 (links (TaskList.doublyLlRemove s.tasks.procs b.initTask))
      (fun p => ((TaskList.doublyLlRemove s.tasks.procs b.initTask).tasks p).prev) 0
      [b.kernelTask] := by
  have hlisted := h.listed
  rw [listedTasks,hrun] at hlisted
  obtain ⟨⟨hfirst,hnext,hlast⟩,hprev,-,-⟩ := hlisted
  rw [TaskList.links_of_ne _ h.initTask_ne] at hnext
  have hlast := (TaskList.links_of_ne _ b.kernelTask_ne).symm.trans hlast
  obtain ⟨htnext,htprev,htlist,-⟩ := @TaskList.doublyLlRemove_spec s.tasks.procs b.initTask
    (by rw [hnext]; exact b.initTask_ne.symm)
  refine ⟨⟨?_,?_⟩,?_,trivial⟩
  · rw [TaskList.links_zero,htlist,hnext]
  · refine (TaskList.links_of_ne _ b.kernelTask_ne).trans ((htnext _).trans ?_)
    rw [if_neg fun hne => hne.2 hprev,hlast]
  · refine (htprev _).trans ?_
    rw [hnext,if_pos ⟨rfl,b.kernelTask_ne⟩]
    exact hprev

/-- The first exit ends in the kernel's idle loop. -/
theorem Lives.exit_eq (h : Lives b e events s) (hrun : s.tasks.procs.halted=false) :
    exit freeTask s=(s.setProcs (TaskList.doublyLlRemove s.tasks.procs b.initTask)).halt := by
  obtain ⟨hfirst,hlast⟩ := (h.removed hrun).path
  rw [TaskList.links_zero] at hfirst
  have hlast := (TaskList.links_of_ne _ b.kernelTask_ne).symm.trans hlast
  simp only [exit,ProcState.setProcs,h.current,hfirst,if_neg b.kernelTask_ne,if_pos hlast]

/-- What the first exit keeps. -/
theorem Lives.exit (h : Lives b e events s) (hrun : s.tasks.procs.halted=false) :
    Lives b e (events++[.exit]) (exit freeTask s) := by
  have hforks : forks (events++[.exit])=forks events := by
    rw [forks_concat]
    exact List.append_nil _
  obtain ⟨-,hcur,hlast⟩ := doublyLlRemove_numbers s.tasks.procs b.initTask 0
  have hid : ∀ p,((TaskList.doublyLlRemove s.tasks.procs b.initTask).tasks p).id=
      (s.tasks.procs.tasks p).id := fun p =>
    (doublyLlRemove_numbers s.tasks.procs b.initTask p).1
  rw [h.exit_eq hrun]
  exact {
    current := hcur.trans h.current
    initTask_ne := h.initTask_ne
    listed := h.removed hrun
    halted := iff_of_true rfl (by simp)
    first := (hid _).trans h.first
    taken := by rw [hforks]; exact h.taken
    nodup := h.nodup
    numbered := by
      rw [copies_congr hforks,←h.numbered]
      exact List.map_congr_left fun g _ => hid g.newTask
    lastUserTid := by rw [copies_congr hforks]; exact hlast.trans h.lastUserTid
    waiting := by rw [copies_congr hforks]; exact h.waiting
    unnumbered := by
      rw [hforks]
      exact fun g hg hpd => (hid g.newTask).trans (h.unnumbered g hg hpd)
    images := by rw [hforks]; exact h.images
    entries := h.entries
    freed := h.freed}

/-- What one event keeps. -/
theorem Lives.step {ev : Event} (h : Lives b e events s) (hstep : Step freeTask slab s ev t) :
    Lives b e (events++[ev]) t := by
  cases hstep with
  | tick hcall => exact h.tick hcall
  | fork hrun hfresh hcall => exact h.fork hfresh hcall
  | execve hrun => exact h.execve _ _
  | exit hrun => exact h.exit hrun

/-- What a list of events keeps. -/
theorem Lives.run {more : List Event} (h : Lives b e events s)
    (hrun : Run (Step freeTask slab) s more t) : Lives b e (events++more) t := by
  induction hrun generalizing events with
  | nil s => simpa using h
  | cons head _ ih =>
    have hnext := ih (h.step head)
    rwa [List.append_assoc] at hnext

/-! ## The start -/

/-- Only a copy with a directory succeeds. -/
theorem forkTask_newPd {r u : ForkState} {newTask newPd : ℕ}
    (h : ForkFailures.forkTask r newTask newPd=some (0,u)) : newPd≠0 := by
  intro hpd
  simp only [ForkFailures.forkTask,hpd,if_true] at h
  split at h <;> cases h

/-- The tasks' list after the start. -/
theorem start_listed {procs : Procs} (hlist : procs.taskList=0) (hlive : procs.live=[])
    (b : Boot) (hinit : b.initTask≠0) :
    let p := TaskList.multiprocInit procs b.kernelTask
    let q := (TaskList.forkTask p b.initTask).set b.initTask fun t =>
      {t with id := (TaskList.forkTask p b.initTask).lastUserTid}
    Linked 0 (links (TaskList.doublyLlInsert q b.initTask))
      (fun x => ((TaskList.doublyLlInsert q b.initTask).tasks x).prev) 0
      [b.initTask,b.kernelTask] := by
  intro p q
  have hempty : TaskList.Lists procs [] :=
    ⟨⟨(TaskList.links_zero _).trans hlist,trivial⟩,List.nodup_singleton 0,fun x => by rw [hlive]⟩
  have hkernel := hempty.multiprocInit (p:=b.kernelTask) ⟨b.kernelTask_ne,by rw [hlive]; simp⟩
  have hfirst := hkernel.spawnInit (p:=b.initTask) ⟨hinit,by
    rw [←hkernel.live]
    simpa using b.initTask_ne⟩
  obtain ⟨htasks,hhead,-⟩ := TaskList.switchTask_spec
    {TaskList.doublyLlInsert q b.initTask with live := b.initTask::q.live}
    (TaskList.doublyLlInsert q b.initTask).taskList
  have hlinks : links (TaskList.spawnInit p b.initTask)=
      links (TaskList.doublyLlInsert q b.initTask) := by
    unfold links
    rw [show (TaskList.spawnInit p b.initTask).tasks=_ from htasks,
      show (TaskList.spawnInit p b.initTask).taskList=_ from hhead]
  have hlinked := hfirst.linked
  rwa [hlinks,show (TaskList.spawnInit p b.initTask).tasks=_ from htasks] at hlinked

/-- Putting a task on the list keeps the numbers. -/
theorem doublyLlInsert_numbers (procs : Procs) (member p : ℕ) :
    ((TaskList.doublyLlInsert procs member).tasks p).id=(procs.tasks p).id ∧
      (TaskList.doublyLlInsert procs member).lastUserTid=procs.lastUserTid ∧
      (TaskList.doublyLlInsert procs member).curTask=procs.curTask ∧
      (TaskList.doublyLlInsert procs member).halted=procs.halted := by
  refine ⟨?_,?_,?_,?_⟩
  · simp only [TaskList.doublyLlInsert,set_tasks,TaskList.setAt_tasks]
    split_ifs <;> rfl
  · simp only [TaskList.doublyLlInsert,Procs.setAt]
    split <;> rfl
  · simp only [TaskList.doublyLlInsert,Procs.setAt]
    split <;> rfl
  · simp only [TaskList.doublyLlInsert,Procs.setAt]
    split <;> rfl

/-- The first user task gets the first user number. -/
theorem start_numbers (procs : Procs) (b : Boot) :
    let p := TaskList.multiprocInit procs b.kernelTask
    (TaskList.forkTask p b.initTask).lastUserTid=1000 ∧
      (TaskList.forkTask p b.initTask).halted=procs.halted := by
  intro p
  let made := Procs.set {procs with curTask := b.kernelTask,lastKernelTid := 0,lastUserTid := 1000}
    b.kernelTask fun t => {t with id := 0}
  obtain ⟨hid,hlast,hcur,hhalted⟩ := doublyLlInsert_numbers made b.kernelTask b.kernelTask
  have hkernel : (p.tasks p.curTask).id=0 := by
    rw [show p.curTask=b.kernelTask from hcur,show (p.tasks b.kernelTask).id=_ from hid]
    simp [made,Procs.set]
  obtain ⟨htid,hrunning⟩ := @forkTask_kernel p b.initTask (hkernel.trans_lt (by decide))
  exact ⟨htid.trans hlast,hrunning.trans hhalted⟩

/-- Loading and entering a user task. -/
theorem switchTask_loaded (s : ProcState) {task : ℕ} (e : Loaded) (pd : ℕ)
    (huser : 1000≤(s.tasks.procs.tasks task).id) :
    let t := switchTask (loadElf (switchPageDir s pd) task e) task
    t.tasks.procs={s.tasks.procs with curTask := task} ∧ t.tasks.taken=s.tasks.taken ∧
      Executes e (t.image task) ∧ t.entries=(e.userEntry,e.stack)::s.entries ∧
      t.freed=s.freed := by
  intro t
  have ht : t=runUserTask (switchPageDir (loadElf (switchPageDir s pd) task e)
      ((loadElf (switchPageDir s pd) task e).tasks.pd task)) task := if_pos huser
  have himage : t.image task=
      ⟨e.userEntry,e.stack,e.mapAddr,pageAlignUp e.size,(s.image task).execNode⟩ := by
    rw [ht]
    exact Function.update_self _ _ _
  refine ⟨by rw [ht]; rfl,by rw [ht]; rfl,?_,?_,by rw [ht]; rfl⟩
  · rw [himage]
    exact ⟨rfl,rfl,rfl,rfl⟩
  · rw [ht]
    simp only [runUserTask,switchPageDir,loadElf,Function.update_self]

/-- A copy with a directory and a copied address space succeeds. -/
theorem forkTask_copies {r : ForkState} {newTask newPd : ℕ} {u : AddressSpaces.CloneState}
    (hne : newTask≠0) (hpd : newPd≠0)
    (h : AddressSpaces.clonePageDir r.clone r.clone.map.paging.curPd newPd=some (0,u)) :
    ∃ v,ForkFailures.forkTask r newTask newPd=some (0,v) := by
  have hrecord : AddressSpaces.clonePageDir (ForkFailures.copyRecord r newTask).clone
      (ForkFailures.copyRecord r newTask).clone.map.paging.curPd newPd=some (0,u) := h
  simp only [ForkFailures.forkTask,if_neg hne,if_neg hpd]
  rw [hrecord]
  exact ⟨_,rfl⟩

/-- The tasks after the start. -/
theorem lives_start (hon : PowerOn s) (h : start s b=some t) :
    ∃ e,b.loaded=some e ∧ Lives b e [] t := by
  rw [start,spawnInit] at h
  split at h
  · cases h
  rename_i ret u hcopy
  split at h
  · cases h
  rename_i hret
  obtain rfl : ret=0 := of_not_not hret
  obtain ⟨e,he,rfl⟩ := Option.map_eq_some_iff.mp h
  obtain ⟨hne,htaken,hnumbered,-,-⟩ := forkTask_record hcopy
  have hprocs := (hnumbered (forkTask_newPd hcopy)).1
  have hkernel : s.tasks.take b.kernelTask=
      {s.tasks with taken := b.kernelTask::s.tasks.taken} := if_neg b.kernelTask_ne
  have hinit : (multiprocInit s b).tasks.take b.initTask={(multiprocInit s b).tasks with
      taken := b.initTask::(multiprocInit s b).tasks.taken} := if_neg hne
  rw [hinit] at htaken hprocs
  have hprocs : u.procs=
      TaskList.forkTask (TaskList.multiprocInit s.tasks.procs b.kernelTask) b.initTask := by
    rw [hprocs]
    simp only [multiprocInit,hkernel]
  have htaken : u.taken=[b.initTask,b.kernelTask] := by
    rw [htaken]
    simp only [multiprocInit,hkernel,hon.taken]
  have hlisted := start_listed hon.taskList hon.live b hne
  obtain ⟨htid,hrunning⟩ := start_numbers s.tasks.procs b
  simp only [←hprocs] at hlisted htid hrunning
  obtain ⟨hid,hlast,-,hhalted⟩ := doublyLlInsert_numbers
    (u.procs.set b.initTask fun t => {t with id := u.procs.lastUserTid}) b.initTask b.initTask
  have hhead := (TaskList.doublyLlInsert_globals
    (u.procs.set b.initTask fun t => {t with id := u.procs.lastUserTid}) b.initTask).1
  have hid := hid.trans (congrArg TaskList.Task.id (Function.update_self _ _ _))
  have huser : ((listInit (multiprocInit s b) u b).tasks.procs.tasks b.initTask).id=1000 :=
    hid.trans htid
  obtain ⟨htprocs,httaken,himage,hentries,hfreed⟩ := switchTask_loaded _ e
    ((listInit (multiprocInit s b) u b).tasks.pd b.initTask) huser.ge
  refine ⟨e,he,?_⟩
  rw [show (listInit (multiprocInit s b) u b).tasks.procs.taskList=b.initTask from hhead]
  generalize switchTask _ b.initTask=t at htprocs httaken himage hentries hfreed ⊢
  have htaken : t.tasks.taken=[b.initTask,b.kernelTask] := httaken.trans htaken
  have hnot : t.tasks.procs.halted=false := by
    rw [htprocs]
    exact hhalted.trans (hrunning.trans hon.running)
  exact {
    current := by rw [htprocs]
    initTask_ne := hne
    listed := by
      rw [listedTasks,hnot,htprocs]
      exact hlisted
    halted := iff_of_false (by rw [hnot]; decide) List.not_mem_nil
    first := by rw [htprocs]; exact huser
    taken := htaken
    nodup := by simp [htaken,b.initTask_ne]
    numbered := rfl
    lastUserTid := by rw [htprocs]; exact hlast.trans htid
    waiting := by simp [copies,forks]
    unnumbered := by simp [forks]
    images := by
      intro p hp
      rw [List.mem_singleton.mp hp]
      exact himage
    entries := hentries.trans (congrArg _ hon.entries)
    freed := hfreed.trans hon.freed}

/-- In every run after the start the first user task stays the current one and
the kernel task the only other one listed, copies are numbered and wait, user
mode was entered once, no task was released, and the first exit stops the
kernel; the scheduler returns whenever it is called. -/
theorem run_lives {s₀ s₁ : ProcState} (hon : PowerOn s₀) (hstart : start s₀ b=some s₁)
    (hrun : Run (Step freeTask slab) s₁ events s) :
    ∃ e,b.loaded=some e ∧ Lives b e events s ∧ ∃ t,schedule 3 s=some t := by
  obtain ⟨e,he,hlives⟩ := lives_start hon hstart
  have hend := hlives.run hrun
  exact ⟨e,he,hend,hend.ticks⟩

/-- A kernel whose directory has a user page, before any task. -/
def poweredOn : ProcState where
  tasks := {
    procs := ⟨fun _ => ⟨7,7,7⟩,0,0,0,0,[],false⟩
    pd := fun _ => 0
    state := fun _ => .dead
    buddy := fun _ => BuddyClone.oneBlock
    clone := AddressSpaces.forkState 0x1000007
    memory := BuddyClone.oneBlockMemory
    taken := []}
  image := fun _ => ⟨0,0,0,0,0⟩
  readySchedule := false
  entries := []
  freed := []

/-- A start with an executable of two pages. -/
def twoPages : Boot where
  kernelTask := 0xC0700000
  kernelTask_ne := by decide
  kernelPd := 0xC0200000
  kernBuddy := BuddyClone.oneBlock
  kern := 0xC0100000
  initTask := 0xC0700080
  initTask_ne := by decide
  initPd := 0xC0600000
  execNode := 0xC0800000
  userBuddy := BuddyClone.oneBlock
  loaded := some ⟨0x1800,0xC0900000,0x40000000,0x200,0x54,0x40400000⟩

/-- The kernel starts, the timer ticks and the first user task exits. -/
theorem run_lives_exit : ∃ s₁ s,start poweredOn twoPages=some s₁ ∧
    Run (Step (fun s _ => s) BuddyClone.garbageSlab) s₁ [.tick,.exit] s ∧
    s.tasks.procs.halted=true ∧ s.entries=[(0x40001254,0x40403000)] := by
  have hon : PowerOn poweredOn := ⟨rfl,rfl,rfl,rfl,rfl,rfl⟩
  obtain ⟨u,hcopied⟩ := AddressSpaces.forkState_copied
  obtain ⟨v,hcopy⟩ := @forkTask_copies
    ((multiprocInit poweredOn twoPages).tasks.take twoPages.initTask) twoPages.initTask
    twoPages.initPd u (by decide) (by decide) hcopied
  obtain ⟨s₁,hstart⟩ : ∃ s₁,start poweredOn twoPages=some s₁ :=
    ⟨_,by rw [start,spawnInit,hcopy]; rfl⟩
  obtain ⟨e,he,hlives⟩ := lives_start hon hstart
  obtain ⟨t,ht⟩ := hlives.ticks
  have hrunning : t.tasks.procs.halted=false := by
    rw [←Bool.not_eq_true,(hlives.tick ht).halted]
    simp
  have hrun : Run (Step (fun s _ => s) BuddyClone.garbageSlab) _ [.tick,.exit] _ :=
    .cons (.tick ht) (.cons (.exit hrunning) (.nil _))
  obtain ⟨e',he',hend,-⟩ := run_lives hon hstart hrun
  obtain rfl := Option.some.inj he'
  exact ⟨_,_,hstart,hrun,hend.halted.mpr (by simp),hend.entries⟩

end XanaduOS.TaskLives
