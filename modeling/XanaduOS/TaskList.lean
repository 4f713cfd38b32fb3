import XanaduOS.Chains
import XanaduOS.Runs

/-!
# The list of tasks

Tasks are put at the head of a doubly linked list. A fork copies a task with
its links and does not put the copy on the list. Leaving the list joins the
two neighbours and then makes the next task the head, whichever place was
left. So the list holds the live tasks exactly as long as no task forks and
only the head exits.
-/

namespace XanaduOS.TaskList

open Chains Runs

/-- The fields of a task that the list and the scheduler use. -/
structure Task where
  /-- Task number; user tasks are numbered from 1000 on. -/
  id : ℕ
  /-- Next task. -/
  next : ℕ
  /-- Previous task. -/
  prev : ℕ

/-- The tasks, by address, with the globals, and the tasks that live. -/
structure Procs where
  /-- Memory of the tasks. -/
  tasks : ℕ → Task
  /-- `task_list`. -/
  taskList : ℕ
  /-- `cur_task`. -/
  curTask : ℕ
  /-- Last number of a kernel task. -/
  lastKernelTid : ℕ
  /-- Last number of a user task. -/
  lastUserTid : ℕ
  /-- Tasks created that have not exited. -/
  live : List ℕ
  /-- Whether the kernel has stopped. -/
  halted : Bool

/-- Rewrite a task. -/
def Procs.set (s : Procs) (p : ℕ) (f : Task → Task) : Procs :=
  {s with tasks := Function.update s.tasks p (f (s.tasks p))}

/-- Rewrite a task behind a pointer that may be null. -/
def Procs.setAt (s : Procs) (p : ℕ) (f : Task → Task) : Procs := if p≠0 then s.set p f else s

/-- Put a task at the head of the list. -/
def doublyLlInsert (s : Procs) (member : ℕ) : Procs :=
  let next := s.taskList
  let s := {s with taskList := member}
  let s := s.set member fun t => {t with next := next}
  let s := s.setAt (s.tasks member).next fun t => {t with prev := member}
  s.set member fun t => {t with prev := 0}

/-- Take a task from the list. -/
def doublyLlRemove (s : Procs) (member : ℕ) : Procs :=
  let s := s.setAt (s.tasks member).next fun t => {t with prev := (s.tasks member).prev}
  let s := s.setAt (s.tasks member).prev fun t => {t with next := (s.tasks member).next}
  {s with taskList := (s.tasks member).next}

/-- Copy the current task to a new one and number it. -/
def forkTask (s : Procs) (newTask : ℕ) : Procs :=
  let s := s.set newTask fun _ => s.tasks s.curTask
  if 1000≤(s.tasks s.curTask).id then
    let s := s.set newTask fun t => {t with id := s.lastUserTid+1}
    {s with lastUserTid := s.lastUserTid+1}
  else
    let s := s.set newTask fun t => {t with id := s.lastKernelTid+1}
    {s with lastKernelTid := s.lastKernelTid+1}

/-- Go on with a task. A kernel task does not become the current one. -/
def switchTask (s : Procs) (task : ℕ) : Procs :=
  if 1000≤(s.tasks task).id then {s with curTask := task} else s

/-- Create the kernel task. -/
def multiprocInit (s : Procs) (newTask : ℕ) : Procs :=
  let s := {s with curTask := newTask,lastKernelTid := 0,lastUserTid := 1000}
  let s := s.set newTask fun t => {t with id := 0}
  {doublyLlInsert s newTask with live := newTask::s.live}

/-- Create the first user task and go on with it. -/
def spawnInit (s : Procs) (newTask : ℕ) : Procs :=
  let s := forkTask s newTask
  let s := s.set newTask fun t => {t with id := s.lastUserTid}
  let s := {doublyLlInsert s newTask with live := newTask::s.live}
  switchTask s s.taskList

/-- A successful fork. -/
def fork (s : Procs) (newTask : ℕ) : Procs :=
  {forkTask s newTask with live := newTask::s.live}

/-- The current task exits. The kernel stops when no task is left, and when
only one is. -/
def exit (s : Procs) : Procs :=
  let s := {doublyLlRemove s s.curTask with live := s.live.filter (·≠s.curTask)}
  if s.taskList=0 then {s with halted := true}
  else if (s.tasks s.taskList).next=0 then {s with halted := true}
  else switchTask s s.taskList

/-- Creations, forks and exits. A new task's address comes from the slab; the
current task may be any live one. -/
inductive Op
  /-- Create the kernel task. -/
  | multiprocInit (newTask : ℕ)
  /-- Create the first user task, as a copy of a current one. -/
  | spawnInit (cur newTask : ℕ)
  /-- Fork a current task. -/
  | fork (cur newTask : ℕ)
  /-- A current task exits. -/
  | exit (cur : ℕ)

/-- An address for a new task. -/
def Fresh (s : Procs) (p : ℕ) : Prop := p≠0 ∧ p∉s.live

instance (s : Procs) (p : ℕ) : Decidable (Fresh s p) := inferInstanceAs (Decidable (_ ∧ _))

/-- One operation. -/
def step (s : Procs) (op : Op) : Option Procs :=
  if s.halted=true then none
  else
    match op with
    | .multiprocInit newTask => if Fresh s newTask then some (multiprocInit s newTask) else none
    | .spawnInit cur newTask =>
      if cur∈s.live ∧ Fresh s newTask then some (spawnInit {s with curTask := cur} newTask)
      else none
    | .fork cur newTask =>
      if cur∈s.live ∧ Fresh s newTask then some (fork {s with curTask := cur} newTask) else none
    | .exit cur => if cur∈s.live then some (exit {s with curTask := cur}) else none

/-- Forward links, with the list's head behind the null pointer. -/
def links (s : Procs) : ℕ → ℕ := Function.update (fun p => (s.tasks p).next) 0 s.taskList

/-- The list holds the live tasks, each once, linked both ways. -/
structure Lists (s : Procs) (order : List ℕ) : Prop where
  /-- Both links, from the head to the null pointer. -/
  linked : Linked 0 (links s) (fun p => (s.tasks p).prev) 0 order
  /-- No task is listed twice, and none is null. -/
  nodup : (0::order).Nodup
  /-- The tasks listed are the live ones. -/
  live : ∀ p,p∈order ↔ p∈s.live

/-- The live tasks are listed before and after a step, those of both in the
same order. -/
def StepSound (s : Procs) (_ : Op) (t : Procs) : Prop :=
  ∃ order order',Lists s order ∧ Lists t order' ∧
    order'.filter (·∈order)=order.filter (·∈order')

/-- No fork, and no exit but the head's. -/
def HeadExits (s : Procs) (op : Op) (_ : Procs) : Prop :=
  (∀ cur newTask,op≠.fork cur newTask) ∧ ∀ cur,op=.exit cur → cur=s.taskList

/-- Before any task is created. -/
def boot (tasks : ℕ → Task) : Procs := ⟨tasks,0,0,0,0,[],false⟩

/-! ## What the operations write -/

variable {s t : Procs} {order : List ℕ} {p : ℕ}

/-- Tasks after rewriting one. -/
theorem set_tasks (s : Procs) (p y : ℕ) (f : Task → Task) :
    (s.set p f).tasks y=if y=p then f (s.tasks y) else s.tasks y := by
  simp only [Procs.set,Function.update_apply]
  split
  · rename_i hy
    rw [hy]
  · rfl

/-- Tasks after rewriting one behind a pointer. -/
theorem setAt_tasks (s : Procs) (p y : ℕ) (f : Task → Task) :
    (s.setAt p f).tasks y=if y=p ∧ p≠0 then f (s.tasks y) else s.tasks y := by
  by_cases hp : p=0
  · simp [Procs.setAt,hp]
  · simp [Procs.setAt,hp,set_tasks]

/-- Rewriting tasks keeps the globals. -/
@[simp] theorem setAt_taskList (s : Procs) (p : ℕ) (f : Task → Task) :
    (s.setAt p f).taskList=s.taskList := by
  unfold Procs.setAt
  split <;> rfl

/-- Rewriting tasks creates none. -/
@[simp] theorem setAt_live (s : Procs) (p : ℕ) (f : Task → Task) :
    (s.setAt p f).live=s.live := by
  unfold Procs.setAt
  split <;> rfl

/-- Putting a task on the list rewrites its links and one backward link. -/
theorem doublyLlInsert_tasks (s : Procs) {member : ℕ} (hne : s.taskList≠member) (y : ℕ) :
    ((doublyLlInsert s member).tasks y).next=
        (if y=member then s.taskList else (s.tasks y).next) ∧
      ((doublyLlInsert s member).tasks y).prev=
        if y=member then 0
        else if y=s.taskList ∧ s.taskList≠0 then member else (s.tasks y).prev := by
  simp only [doublyLlInsert,set_tasks,setAt_tasks,if_true]
  by_cases hy : y=member
  · subst hy
    simp [hne.symm]
  · simp only [if_neg hy]
    split <;> exact ⟨rfl,rfl⟩

/-- Putting a task on the list makes it the head. -/
theorem doublyLlInsert_globals (s : Procs) (member : ℕ) :
    (doublyLlInsert s member).taskList=member ∧ (doublyLlInsert s member).live=s.live := by
  simp [doublyLlInsert,Procs.set]

/-- Taking a task from the list joins its neighbours, and makes the next task
the head. -/
theorem doublyLlRemove_spec (s : Procs) {member : ℕ} (hnext : (s.tasks member).next≠member) :
    (∀ y,((doublyLlRemove s member).tasks y).next=
      if y=(s.tasks member).prev ∧ (s.tasks member).prev≠0 then (s.tasks member).next
      else (s.tasks y).next) ∧
    (∀ y,((doublyLlRemove s member).tasks y).prev=
      if y=(s.tasks member).next ∧ (s.tasks member).next≠0 then (s.tasks member).prev
      else (s.tasks y).prev) ∧
    (doublyLlRemove s member).taskList=(s.tasks member).next ∧
    (doublyLlRemove s member).live=s.live := by
  have hself : ¬(member=(s.tasks member).next ∧ (s.tasks member).next≠0) :=
    fun h => hnext h.1.symm
  simp only [doublyLlRemove,setAt_tasks,setAt_live,if_neg hself]
  refine ⟨fun y => ?_,fun y => ?_,?_,trivial⟩
  · split_ifs <;> rfl
  · split_ifs <;> rfl
  · split_ifs <;> rfl

/-- A copy of the current task changes no other task. -/
theorem forkTask_spec (s : Procs) (newTask : ℕ) :
    (∀ y,y≠newTask → (forkTask s newTask).tasks y=s.tasks y) ∧
      (forkTask s newTask).taskList=s.taskList ∧ (forkTask s newTask).live=s.live := by
  simp only [forkTask]
  split
  · exact ⟨fun y hy => by simp [set_tasks,hy],rfl,rfl⟩
  · exact ⟨fun y hy => by simp [set_tasks,hy],rfl,rfl⟩

/-- Going on with a task changes the current one at most. -/
theorem switchTask_spec (s : Procs) (task : ℕ) : (switchTask s task).tasks=s.tasks ∧
    (switchTask s task).taskList=s.taskList ∧ (switchTask s task).live=s.live := by
  unfold switchTask
  split <;> exact ⟨rfl,rfl,rfl⟩

/-! ## The list -/

/-- A live task is not null. -/
theorem Lists.ne_zero (h : Lists s order) (hp : p∈order) : p≠0 := by
  rintro rfl
  exact (List.nodup_cons.mp h.nodup).1 hp

/-- Forward links of tasks. -/
theorem links_of_ne (s : Procs) (hp : p≠0) : links s p=(s.tasks p).next :=
  Function.update_of_ne hp _ _

/-- The forward link behind the null pointer. -/
theorem links_zero (s : Procs) : links s 0=s.taskList := Function.update_self _ _ _

/-- The links of the live tasks decide what is listed. -/
theorem Lists.congr (h : Lists s order) (hlist : t.taskList=s.taskList)
    (hlive : ∀ y,y∈t.live ↔ y∈s.live) (htasks : ∀ y∈order,t.tasks y=s.tasks y) :
    Lists t order := by
  refine ⟨h.linked.congr (fun y hy => ?_) fun y hy => ?_,h.nodup,fun y => ?_⟩
  · rcases List.mem_cons.mp hy with rfl|hy
    · rw [links_zero,links_zero,hlist]
    · rw [links_of_ne t (h.ne_zero hy),links_of_ne s (h.ne_zero hy),htasks y hy]
  · simp only [htasks y hy]
  · rw [h.live,hlive]

/-- What follows the links to the null pointer is the list. -/
theorem Lists.unique {xs : List ℕ} (h : Lists s order) (hpath : Path (links s) 0 xs 0)
    (hxs : 0∉xs) : order=xs :=
  h.linked.path.unique hpath (List.nodup_cons.mp h.nodup).1 hxs

/-- The head of the list. -/
theorem Lists.head (h : Lists s (p::order)) : s.taskList=p := by
  have hfirst := h.linked.path.1
  rwa [links_zero] at hfirst

/-- Putting a new task on the list. -/
theorem Lists.insert (h : Lists s order) (hp : Fresh s p) :
    Lists {doublyLlInsert s p with live := p::s.live} (p::order) := by
  obtain ⟨hnull,hnew⟩ := hp
  have hout : p∉order := fun hmem => hnew ((h.live p).mp hmem)
  have hhead : s.taskList≠p := by
    rintro rfl
    cases order with
    | nil =>
      have hend := h.linked.path
      exact hnull ((links_zero s).symm.trans hend)
    | cons x xs => exact hout (h.head▸List.mem_cons_self)
  have htasks := doublyLlInsert_tasks s hhead
  have hlist := (doublyLlInsert_globals s p).1
  have hother : ∀ y∈order,y≠p := fun y hy heq => hout (heq▸hy)
  refine ⟨?_,?_,fun y => ?_⟩
  · refine h.linked.insert h.nodup ?_ ?_ ?_ ?_ ?_ (fun y hy => ?_) (fun y hy hne => ?_)
      (List.nodup_cons.mp h.nodup).1
    · exact fun hmem => (List.mem_cons.mp hmem).elim hnull hout
    · exact (links_zero _).trans hlist
    · rw [links_of_ne _ hnull,links_zero]
      exact (htasks p).1.trans (if_pos rfl)
    · exact (htasks p).2.trans (if_pos rfl)
    · rw [links_zero]
      intro hsome
      exact (htasks s.taskList).2.trans ((if_neg hhead).trans (if_pos ⟨rfl,hsome⟩))
    · rw [links_of_ne _ (h.ne_zero hy),links_of_ne _ (h.ne_zero hy)]
      exact (htasks y).1.trans (if_neg (hother y hy))
    · rw [links_zero] at hne
      exact (htasks y).2.trans ((if_neg (hother y hy)).trans (if_neg fun hy' => hne hy'.1))
  · rw [List.nodup_cons,List.mem_cons,List.nodup_cons,not_or]
    obtain ⟨hzero,hnd⟩ := List.nodup_cons.mp h.nodup
    exact ⟨⟨hnull.symm,hzero⟩,hout,hnd⟩
  · rw [List.mem_cons,List.mem_cons,h.live]

/-- What an exit leaves. -/
theorem exit_spec (s : Procs) : (exit s).tasks=(doublyLlRemove s s.curTask).tasks ∧
    (exit s).taskList=(doublyLlRemove s s.curTask).taskList ∧
    (exit s).live=s.live.filter (·≠s.curTask) := by
  simp only [exit]
  split
  · exact ⟨rfl,rfl,rfl⟩
  · split
    · exact ⟨rfl,rfl,rfl⟩
    · obtain ⟨htasks,hlist,hlive⟩ := switchTask_spec
        {doublyLlRemove s s.curTask with live := s.live.filter (·≠s.curTask)}
        (doublyLlRemove s s.curTask).taskList
      exact ⟨htasks,hlist,hlive⟩

/-- A listed task's forward path, and where its backward link leads. -/
theorem Lists.around {front back : List ℕ} (h : Lists s (front++p::back)) :
    Path (links s) p back 0 ∧ (s.tasks p).prev=(0::front).getLast (by simp) ∧
      (s.tasks p).next≠p := by
  have hback := (path_append.mp h.linked.path).2
  have hp : p≠0 := h.ne_zero (by simp)
  have hnd := (List.nodup_append'.mp (List.nodup_cons.mp h.nodup).2).2.1
  refine ⟨hback,(back_concat.mp (back_append.mp h.linked.back).1).2,fun hself => ?_⟩
  rcases hback.next_mem List.mem_cons_self with hmem|hend
  · rw [links_of_ne s hp,hself] at hmem
    exact (List.nodup_cons.mp hnd).1 hmem
  · rw [links_of_ne s hp,hself] at hend
    exact hp hend

/-- When the head exits, the others stay listed. -/
theorem Lists.exit_head (h : Lists s (p::order)) : Lists (exit {s with curTask := p}) order := by
  have hfirst : Lists s ([]++p::order) := h
  obtain ⟨-,hprev,hself⟩ := hfirst.around
  have hprev : (s.tasks p).prev=0 := hprev
  have hp : p≠0 := h.ne_zero List.mem_cons_self
  obtain ⟨hzero,hnd⟩ := List.nodup_cons.mp h.nodup
  obtain ⟨htasks,hlist,hlive⟩ := exit_spec {s with curTask := p}
  obtain ⟨hnext',hprev',hhead',-⟩ := @doublyLlRemove_spec {s with curTask := p} p hself
  refine ⟨hfirst.linked.remove h.nodup hzero ?_ (fun y hy => ?_) (fun hsome => ?_)
    (fun y hy => ?_),?_,fun y => ?_⟩
  · rw [hprev,links_zero,links_of_ne s hp,hlist]
    exact hhead'
  · rw [hprev] at hy
    rw [links_of_ne _ hy,links_of_ne _ hy,htasks,hnext']
    exact if_neg fun hy' => hy'.2 hprev
  · rw [links_of_ne s hp] at hsome ⊢
    simp only [htasks]
    exact (hprev' _).trans (if_pos ⟨rfl,hsome⟩)
  · rw [links_of_ne s hp] at hy
    simp only [htasks]
    exact (hprev' y).trans (if_neg fun hy' => hy hy'.1)
  · refine List.nodup_cons.mpr ⟨fun hmem => hzero (List.mem_cons_of_mem p hmem),?_⟩
    exact (List.nodup_cons.mp hnd).2
  · rw [hlive,List.mem_filter,←h.live,List.mem_cons,decide_eq_true_iff]
    constructor
    · intro hy
      refine ⟨Or.inr hy,?_⟩
      rintro rfl
      exact (List.nodup_cons.mp hnd).1 hy
    · rintro ⟨heq|hy,hne⟩
      · exact absurd heq hne
      · exact hy

/-- When another task exits, the list goes on behind it only. -/
theorem Lists.exit_behind {x : ℕ} {front back : List ℕ} (h : Lists s (x::front++p::back)) :
    Path (links (exit {s with curTask := p})) 0 back 0 ∧
      x∈(exit {s with curTask := p}).live ∧ x∉back := by
  obtain ⟨hback,hprev,hself⟩ := h.around
  have hp : p≠0 := h.ne_zero (by simp)
  obtain ⟨hzero,hnd⟩ := List.nodup_cons.mp h.nodup
  obtain ⟨-,hrest,hapart⟩ := List.nodup_append'.mp hnd
  have hx : ∀ y∈p::back,y≠x := fun y hy heq => hapart List.mem_cons_self (heq▸hy)
  have hmem : (s.tasks p).prev∈x::front := by
    rw [hprev,List.getLast_cons (by simp)]
    exact List.getLast_mem _
  obtain ⟨htasks,hlist,hlive⟩ := exit_spec {s with curTask := p}
  obtain ⟨hnext',-,hhead',-⟩ := @doublyLlRemove_spec {s with curTask := p} p hself
  refine ⟨hback.start ?_ fun y hy => ?_,?_,fun hmem => hx x (List.mem_cons_of_mem p hmem) rfl⟩
  · rw [links_zero,links_of_ne s hp,hlist]
    exact hhead'
  · have hy0 : y≠0 := fun heq => hzero (heq▸by simp [hy])
    rw [links_of_ne _ hy0,links_of_ne _ hy0,htasks,hnext']
    exact if_neg fun hy' => hapart (hy'.1▸hmem) (List.mem_cons_of_mem p hy)
  · rw [hlive,List.mem_filter,←h.live,decide_eq_true_iff]
    exact ⟨by simp,(hx p List.mem_cons_self).symm⟩

/-! ## Steps and runs -/

/-- Creating the kernel task. -/
theorem Lists.multiprocInit (h : Lists s order) (hp : Fresh s p) :
    Lists (TaskList.multiprocInit s p) (p::order) := by
  have hout : ∀ y∈order,y≠p := fun y hy heq => hp.2 ((h.live p).mp (heq▸hy))
  refine Lists.insert (h.congr rfl (fun _ => Iff.rfl) fun y hy => ?_) hp
  exact (set_tasks _ p y _).trans (if_neg (hout y hy))

/-- Creating the first user task. -/
theorem Lists.spawnInit (h : Lists s order) (hp : Fresh s p) :
    Lists (TaskList.spawnInit s p) (p::order) := by
  have hout : ∀ y∈order,y≠p := fun y hy heq => hp.2 ((h.live p).mp (heq▸hy))
  obtain ⟨htasks,hlist,hlive⟩ := forkTask_spec s p
  let named := (forkTask s p).set p fun t => {t with id := (forkTask s p).lastUserTid}
  have hnamed : Lists named order := by
    refine h.congr hlist (fun y => ?_) fun y hy => ?_
    · change y∈(forkTask s p).live ↔ _
      rw [hlive]
    · rw [show named.tasks y=(forkTask s p).tasks y from
        (set_tasks _ p y _).trans (if_neg (hout y hy)),htasks y (hout y hy)]
  have hfresh : Fresh named p := ⟨hp.1,by rw [show named.live=s.live from hlive]; exact hp.2⟩
  have hinsert := hnamed.insert hfresh
  obtain ⟨htasks',hlist',hlive'⟩ := switchTask_spec
    {doublyLlInsert named p with live := p::named.live} (doublyLlInsert named p).taskList
  exact hinsert.congr hlist' (fun y => by rw [TaskList.spawnInit,hlive'])
    fun y _ => congrFun htasks' y

/-- A fork keeps the path of the list. -/
theorem Lists.fork_path (h : Lists s order) (hp : Fresh s p) :
    Path (links (fork s p)) 0 order 0 := by
  obtain ⟨htasks,hlist,-⟩ := forkTask_spec s p
  refine h.linked.path.congr fun y hy => ?_
  rcases List.mem_cons.mp hy with rfl|hy
  · rw [links_zero,links_zero]
    exact hlist
  · have hne : y≠p := fun heq => hp.2 ((h.live p).mp (heq▸hy))
    rw [links_of_ne _ (h.ne_zero hy),links_of_ne _ (h.ne_zero hy)]
    exact congrArg Task.next (htasks y hne)

/-- Order of the tasks that two lists share, where one is the other's tail. -/
theorem filter_tail (hp : p∉order) :
    (p::order).filter (·∈order)=order.filter (·∈p::order) := by
  rw [List.filter_cons_of_neg (by simpa using hp)]
  exact List.filter_congr fun y hy => by simp [hy]

/-- From a correct list a step keeps the list correct and ordered exactly when
it is no fork and no exit but the head's. -/
theorem stepSound_iff {op : Op} (h : Lists s order) (hstep : step s op=some t) :
    StepSound s op t ↔ HeadExits s op t := by
  have hnull : ∀ {u : Procs} {xs : List ℕ},Lists u xs → 0∉xs := fun hu =>
    (List.nodup_cons.mp hu.nodup).1
  have hcreated : ∀ {newTask : ℕ},Fresh s newTask → Lists t (newTask::order) → StepSound s op t :=
    fun hp ht => ⟨order,_,h,ht,filter_tail fun hmem => hp.2 ((h.live _).mp hmem)⟩
  simp only [step] at hstep
  split at hstep
  · cases hstep
  cases op with
  | multiprocInit newTask =>
    obtain ⟨hp,ht⟩ := Option.ite_none_right_eq_some.mp hstep
    obtain rfl := Option.some.inj ht
    exact iff_of_true (hcreated hp (h.multiprocInit hp)) ⟨by simp,by simp⟩
  | spawnInit cur newTask =>
    obtain ⟨⟨-,hp⟩,ht⟩ := Option.ite_none_right_eq_some.mp hstep
    obtain rfl := Option.some.inj ht
    have hcur : Lists {s with curTask := cur} order :=
      h.congr rfl (fun _ => Iff.rfl) fun _ _ => rfl
    exact iff_of_true (hcreated hp (hcur.spawnInit hp)) ⟨by simp,by simp⟩
  | fork cur newTask =>
    obtain ⟨⟨-,hp⟩,ht⟩ := Option.ite_none_right_eq_some.mp hstep
    obtain rfl := Option.some.inj ht
    have hcur : Lists {s with curTask := cur} order :=
      h.congr rfl (fun _ => Iff.rfl) fun _ _ => rfl
    refine iff_of_false ?_ fun hok => hok.1 cur newTask rfl
    rintro ⟨-,after,-,hafter,-⟩
    obtain rfl := hafter.unique (hcur.fork_path hp) (hnull h)
    exact hp.2 ((h.live _).mp ((hafter.live newTask).mpr List.mem_cons_self))
  | exit cur =>
    obtain ⟨hcur,ht⟩ := Option.ite_none_right_eq_some.mp hstep
    obtain rfl := Option.some.inj ht
    obtain ⟨front,back,rfl⟩ := List.append_of_mem ((h.live cur).mpr hcur)
    cases front with
    | nil =>
      have hhead : cur=s.taskList := h.head.symm
      have hout := (List.nodup_cons.mp (List.nodup_cons.mp h.nodup).2).1
      refine iff_of_true ⟨_,back,h,h.exit_head,(filter_tail hout).symm⟩ ⟨by simp,?_⟩
      intro cur' heq
      obtain rfl := Op.exit.inj heq
      exact hhead
    | cons x front =>
      obtain ⟨hpath,hlive,hout⟩ := h.exit_behind
      have hhead : s.taskList=x := h.head
      refine iff_of_false ?_ fun hok => ?_
      · rintro ⟨-,after,-,hafter,-⟩
        have hzero : 0∉back := fun hmem => hnull h (by simp [hmem])
        obtain rfl := hafter.unique hpath hzero
        exact hout ((hafter.live x).mpr hlive)
      · have hcurx : cur=x := (hok.2 cur rfl).trans hhead
        have hnd := (List.nodup_cons.mp h.nodup).2
        rw [List.cons_append,hcurx] at hnd
        exact (List.nodup_cons.mp hnd).1 (by simp)

/-- Along every run of creations, forks and exits the list holds the live
tasks in order exactly as long as no task forks and only the head exits. -/
theorem run_stepSound_iff (tasks : ℕ → Task) (ops : List Op) :
    AlongSteps step StepSound (boot tasks) ops ↔ AlongSteps step HeadExits (boot tasks) ops := by
  have hboot : Lists (boot tasks) [] :=
    ⟨⟨links_zero _,trivial⟩,List.nodup_singleton 0,fun p => Iff.rfl⟩
  have hiff : ∀ s op t,(∃ order,Lists s order) → step s op=some t →
      (StepSound s op t ↔ HeadExits s op t) := by
    rintro s op t ⟨order,h⟩ hstep
    exact stepSound_iff h hstep
  have hkeep : ∀ s op t,(∃ order,Lists s order) → step s op=some t → HeadExits s op t →
      ∃ order,Lists t order := by
    rintro s op t hs hstep hok
    obtain ⟨-,order',-,h',-⟩ := (hiff s op t hs hstep).mpr hok
    exact ⟨order',h'⟩
  exact alongSteps_iff hiff hkeep ⟨[],hboot⟩ ops

/-- The kernel task forks, and the new task is on no list. -/
theorem stepSound_counterexample : ¬∀ (tasks : ℕ → Task) (ops : List Op),
    AlongSteps step StepSound (boot tasks) ops := by
  intro h
  have hrun := h (fun _ => ⟨0,0,0⟩) [.multiprocInit 0x1000,.fork 0x1000 0x2000]
  obtain ⟨-,hrest⟩ := hrun _ rfl
  obtain ⟨hfork,-⟩ := hrest _ rfl
  obtain ⟨order,-,hbefore,-,-⟩ := id hfork
  exact ((stepSound_iff hbefore rfl).mp hfork).1 0x1000 0x2000 rfl

end XanaduOS.TaskList
