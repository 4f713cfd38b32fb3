import XanaduOS.WordMemory

/-!
# The gate of system calls

The gate's wrapper finds a frame through its caller's register: a number, a
count, and that many arguments. It pushes the arguments from the last to the
first in a loop that tests its counter only after a push, calls the dispatcher,
and gives the stack back by the count that it reads again. The dispatcher calls
what memory holds at the number's place in the table, without a test. Frame,
table and stack lie in one memory, and the stack is a page of the kernel's data;
what a called address does is a parameter.
-/

namespace XanaduOS.SyscallGate

open WordMemory

/-- Handlers of system calls. -/
inductive Handler
  /-- `sys_read_v`. -/
  | sysRead
  /-- `sys_write_v`. -/
  | sysWrite
  /-- `sys_fork_v`. -/
  | sysFork
  /-- `sys_execve_v`. -/
  | sysExecve
  /-- `sys_exit_v`. -/
  | sysExit
  deriving DecidableEq

/-- `syscall_table`: handlers at 0, 1, 2, 59 and 60, and null pointers between. -/
def syscallTable : List (Option Handler) :=
  [some .sysRead,some .sysWrite,some .sysFork]++List.replicate 56 none++
    [some .sysExecve,some .sysExit]

/-- `KERNEL_INT_STACK_SIZE`. -/
abbrev KERNEL_INT_STACK_SIZE : ℕ := 0x1000

/-- Addresses that the linker chooses, and what the code at an address does. -/
structure Kernel where
  /-- Address of `syscall_table`. -/
  table : Word
  /-- Addresses of the handlers. -/
  handler : Handler → Word
  /-- `kernel_int_stack_end`. -/
  stackEnd : Word
  /-- Address behind the wrapper's call of the dispatcher. -/
  after : Word
  /-- A call to an address with the address of its arguments: the result and the
  memory, unless the call does not return. -/
  call : Word → Word → Memory → Option (Word×Memory)

/-- `kernel_int_stack_start`. -/
def Kernel.stackStart (k : Kernel) : Word := k.stackEnd-BitVec.ofNat 32 KERNEL_INT_STACK_SIZE

/-- What the linker puts into an entry of the table. -/
def Kernel.tableWord (k : Kernel) : Option Handler → Word
  | some h => k.handler h
  | none => 0

/-- Calls made by the dispatcher, and its result. -/
structure Exec where
  /-- Addresses called. -/
  calls : List Word
  /-- Result and memory. -/
  result : Option (Word×Memory)

/-- The dispatcher. -/
def syscallExec (k : Kernel) (num args : Word) (memory : Memory) : Exec :=
  let entry := load memory (k.table+4*num)
  {calls := [entry]
   result := k.call entry args memory}

/-- Registers and memory. -/
structure Cpu where
  /-- Register. -/
  eax : Word
  /-- Register. -/
  ebx : Word
  /-- Register. -/
  ecx : Word
  /-- Register. -/
  edx : Word
  /-- Register. -/
  edi : Word
  /-- Stack pointer. -/
  esp : Word
  /-- Bytes of the memory. -/
  memory : Memory

/-- Push a word. -/
def push (c : Cpu) (word : Word) : Cpu :=
  {c with esp := c.esp-4,memory := store c.memory (c.esp-4) word}

/-- The argument that the counter names. -/
def argument (c : Cpu) : Word := load c.memory (c.ebx+c.edi*4+4)

/-- Push it and count down. -/
def pushArgument (c : Cpu) : Cpu := {push c (argument c) with edi := c.edi-1}

/-- The loop that pushes arguments, with the words it pushed. -/
def scallPushArgs (c : Cpu) : Cpu×List Word :=
  if _hlast : (pushArgument c).edi=0 then (pushArgument c,[argument c])
  else ((scallPushArgs (pushArgument c)).1,argument c::(scallPushArgs (pushArgument c)).2)
termination_by (c.edi-1).toNat
decreasing_by
  all_goals
    simp only [pushArgument] at *
    bv_omega

/-- What a run of the wrapper shows. -/
structure Gate where
  /-- Arguments pushed, in order. -/
  args : List Word
  /-- Addresses called. -/
  calls : List Word
  /-- Stack pointer behind the saved registers. -/
  saved : Word
  /-- The dispatcher's result, and the stack pointer when the saved registers are
  popped. -/
  returned : Option (Word×Word)

/-- The end of the wrapper: give the stack back. -/
def scallReturn (c : Cpu) (ret : Word) (memory : Memory) : Cpu :=
  let c := {c with eax := ret,memory := memory}
  let c := {c with esp := c.esp+4}
  let c := push c c.eax
  let args := load c.memory (c.ebx+4)
  let c := {c with eax := 4*args,edx := args>>>30}
  let c := {c with esp := c.esp+c.eax}
  {c with eax := load c.memory c.esp,esp := c.esp+4}

/-- The wrapper. -/
def scallWrapper (k : Kernel) (c : Cpu) : Gate :=
  let c := push c c.edx
  let c := push c c.ecx
  let c := push c c.ebx
  let saved := c.esp
  let c := {c with edx := load c.memory (c.esp+8)}
  let c := {c with ecx := load c.memory (c.edx+12)}
  let c := {c with ebx := c.ecx+7*4+4}
  let c := {c with edi := load c.memory (c.ebx+4)}
  let r := scallPushArgs c
  let c := push r.1 (load r.1.memory r.1.ebx)
  -- the call pushes the address it returns to, and the return pops it
  let called := push c k.after
  let e := syscallExec k (load called.memory (called.esp+4)) (called.esp+8) called.memory
  {args := r.2
   calls := e.calls
   saved := saved
   returned := e.result.map fun res => (res.1,(scallReturn c res.1 res.2).esp)}

/-! ## What the gate promises -/

/-- The frame that the wrapper finds. -/
def frame (c : Cpu) : Word := load c.memory (c.edx+12)+7*4+4

/-- Number in the frame. -/
def number (c : Cpu) : Word := load c.memory (frame c)

/-- Count of arguments in the frame. -/
def count (c : Cpu) : Word := load c.memory (frame c+4)

/-- Arguments in the frame, from the last to the first. -/
def argWords (c : Cpu) : List Word :=
  (List.range (count c).toNat).map fun i => load c.memory (frame c+(count c-BitVec.ofNat 32 i)*4+4)

/-- The handler defined for a number. -/
def handlerOf (num : Word) : Option Handler := syscallTable[num.toNat]?.join

/-- Exactly the frame's arguments are pushed, the stack pointer is back when the
saved registers are popped, and the only call is that of the number's handler;
a number without one makes no call and has a negative result. -/
def Sound (k : Kernel) (c : Cpu) : Prop :=
  (scallWrapper k c).args=argWords c ∧
  (∀ ret esp,(scallWrapper k c).returned=some (ret,esp) → esp=(scallWrapper k c).saved) ∧
  (∀ h,handlerOf (number c)=some h → (scallWrapper k c).calls=[k.handler h]) ∧
  (handlerOf (number c)=none → (scallWrapper k c).calls=[] ∧
    ∀ ret esp,(scallWrapper k c).returned=some (ret,esp) → ret.msb=true)

/-- Bytes of the interrupt stack below the stack pointer. -/
def stackRoom (k : Kernel) (c : Cpu) : ℕ := (c.esp-k.stackStart).toNat

/-- The kernel as it is linked, entered on its interrupt stack. -/
structure Linked (k : Kernel) (c : Cpu) : Prop where
  /-- The table holds the handlers' addresses. -/
  table : ∀ i<61,load c.memory (k.table+BitVec.ofNat 32 (4*i))=
    k.tableWord (syscallTable.getD i none)
  /-- It lies apart from the stack. -/
  apart : Outside k.stackStart KERNEL_INT_STACK_SIZE k.table (4*61)
  /-- The stack pointer is in the stack. -/
  top : stackRoom k c≤KERNEL_INT_STACK_SIZE

/-- What the wrapper pushes has room, apart from what it reads. -/
structure Fits (k : Kernel) (c : Cpu) : Prop where
  /-- Room for three registers, the arguments, the number and the address that the
  call returns to. -/
  room : 4*((count c).toNat+5) ≤ stackRoom k c
  /-- The frame's pointer. -/
  pointer : Outside k.stackStart (stackRoom k c) (c.edx+12) 4
  /-- The frame: number, count and arguments. -/
  frame : Outside k.stackStart (stackRoom k c) (frame c) (4*((count c).toNat+2))

/-- Memory with what the wrapper pushes. -/
def gateMemory (k : Kernel) (c : Cpu) : Memory :=
  storeBelow c.memory c.esp ([c.edx,c.ecx,c.ebx]++argWords c++[number c,k.after])

/-- The handler called leaves the frame's count, as far as it counts bytes. -/
def CountKept (k : Kernel) (c : Cpu) : Prop :=
  ∀ h,handlerOf (number c)=some h → ∀ ret memory,
    k.call (k.handler h) (c.esp-12-4*count c) (gateMemory k c)=some (ret,memory) →
    4*load memory (frame c+4)=4*count c

/-! ## The loop -/

/-- The loop pushes as many words as its counter takes to come back to zero, one
below the other. -/
theorem scallPushArgs_stack {n : ℕ} (hn : 0<n) (hle : n≤2^32) {c : Cpu}
    (hedi : c.edi=BitVec.ofNat 32 n) :
    (scallPushArgs c).2.length=n ∧ (scallPushArgs c).1.esp=c.esp-4*BitVec.ofNat 32 n ∧
      (scallPushArgs c).1.ebx=c.ebx ∧
      (scallPushArgs c).1.memory=storeBelow c.memory c.esp (scallPushArgs c).2 := by
  induction n generalizing c with
  | zero => exact absurd hn (Nat.lt_irrefl 0)
  | succ n ih =>
    have hnext : (pushArgument c).edi=BitVec.ofNat 32 n := by
      simp only [pushArgument,hedi]
      bv_omega
    rw [scallPushArgs]
    by_cases h : n=0
    · subst h
      rw [dif_pos (show (pushArgument c).edi=0 from hnext)]
      refine ⟨rfl,?_,rfl,rfl⟩
      simp [pushArgument,push]
    · have hne : (pushArgument c).edi≠0 := by
        rw [hnext]
        bv_omega
      rw [dif_neg hne]
      obtain ⟨hlen,hesp,hebx,hmem⟩ := ih (Nat.pos_of_ne_zero h) (by omega) hnext
      have hsucc : BitVec.ofNat 32 (n+1)=BitVec.ofNat 32 n+1 := BitVec.ofNat_add n 1
      refine ⟨congrArg (·+1) hlen,?_,hebx,hmem⟩
      rw [hesp,hsucc]
      simp only [pushArgument,push]
      ring

variable {k : Kernel} {c : Cpu} {low : Word} {size : ℕ} {m : Memory}

/-- Words pushed in a range apart from the frame are the frame's. -/
theorem scallPushArgs_args {n : ℕ} (hn : 0<n) (hle : n<2^32) {c : Cpu}
    (hedi : c.edi=BitVec.ofNat 32 n) (hagree : Agrees low size m c.memory)
    (hroom : 4*n≤(c.esp-low).toNat) (htop : (c.esp-low).toNat ≤ size)
    (hout : ∀ i≤n,Outside low size (c.ebx+BitVec.ofNat 32 i*4+4) 4) :
    (scallPushArgs c).2=
      (List.range n).map fun i => load m (c.ebx+(BitVec.ofNat 32 n-BitVec.ofNat 32 i)*4+4) := by
  induction n generalizing c with
  | zero => exact absurd hn (Nat.lt_irrefl 0)
  | succ n ih =>
    have hnext : (pushArgument c).edi=BitVec.ofNat 32 n := by
      simp only [pushArgument,hedi]
      bv_omega
    have harg : argument c=load m (c.ebx+BitVec.ofNat 32 (n+1)*4+4) := by
      rw [argument,hedi]
      exact hagree.load (hout _ (Nat.le_refl _))
    have hdown : (c.esp-4-low).toNat+4=(c.esp-low).toNat := by bv_omega
    rw [scallPushArgs]
    by_cases h : n=0
    · subst h
      rw [dif_pos (show (pushArgument c).edi=0 from hnext),harg]
      simp
    · have hne : (pushArgument c).edi≠0 := by
        rw [hnext]
        bv_omega
      have hargs := ih (Nat.pos_of_ne_zero h) (by omega) hnext
        (hagree.store (a:=c.esp-4) (by omega)) (show 4*n≤(c.esp-4-low).toNat by omega)
        (show (c.esp-4-low).toNat ≤ size by omega) fun i hi => hout i (by omega)
      rw [dif_neg hne,hargs,List.range_succ_eq_map,List.map_cons,List.map_map]
      refine congrArg₂ List.cons (by rw [harg]; simp) (List.map_congr_left fun i _ => ?_)
      have hi : BitVec.ofNat 32 n-BitVec.ofNat 32 i=
          BitVec.ofNat 32 (n+1)-BitVec.ofNat 32 (i+1) := by bv_omega
      simp only [Function.comp_apply,Nat.succ_eq_add_one,←hi]
      rfl

/-- The loop pushes at least one word. -/
theorem scallPushArgs_ne_nil (c : Cpu) : (scallPushArgs c).2≠[] := by
  rw [scallPushArgs]
  split <;> exact List.cons_ne_nil _ _

/-! ## The wrapper -/

/-- The state in which the wrapper enters its loop. -/
def loopStart (c : Cpu) : Cpu :=
  let c := push (push (push c c.edx) c.ecx) c.ebx
  let c := {c with edx := load c.memory (c.esp+8)}
  let c := {c with ecx := load c.memory (c.edx+12)}
  let c := {c with ebx := c.ecx+7*4+4}
  {c with edi := load c.memory (c.ebx+4)}

/-- Words of a frame that fits. -/
theorem fits_word (h : Fits k c) {i : ℕ} (hi : i<(count c).toNat+2) :
    Outside k.stackStart (stackRoom k c) (frame c+BitVec.ofNat 32 (4*i)) 4 :=
  h.frame.word (by omega)

/-- The wrapper enters its loop with the frame that its caller left. -/
theorem loopStart_frame (h : Fits k c) : (loopStart c).ebx=frame c ∧ (loopStart c).edi=count c ∧
    (loopStart c).esp=c.esp-12 ∧
    (loopStart c).memory=storeBelow c.memory c.esp [c.edx,c.ecx,c.ebx] := by
  have hroom := h.room
  have hkept : Agrees k.stackStart (stackRoom k c) c.memory
      (storeBelow c.memory c.esp [c.edx,c.ecx,c.ebx]) :=
    (Agrees.refl _).storeBelow (by
      simp only [List.length_cons,List.length_nil,stackRoom] at hroom ⊢
      omega) (Nat.le_refl _)
  have hmem : (push (push (push c c.edx) c.ecx) c.ebx).memory=
      storeBelow c.memory c.esp [c.edx,c.ecx,c.ebx] := rfl
  have hesp : (push (push (push c c.edx) c.ecx) c.ebx).esp=c.esp-12 := by
    simp only [push]
    ring
  have hedx : load (storeBelow c.memory c.esp [c.edx,c.ecx,c.ebx]) (c.esp-12+8)=c.edx := by
    have hslot : c.esp-12+8=c.esp-4 := by ring
    rw [hslot,storeBelow,storeBelow,storeBelow,storeBelow,
      load_store_of_apart (by bv_omega) (by bv_omega),
      load_store_of_apart (by bv_omega) (by bv_omega),load_store]
  have hword := fits_word h (i:=1) (by omega)
  simp only [loopStart,hmem,hesp,hedx,hkept.load h.pointer]
  exact ⟨rfl,hkept.load hword,trivial,trivial⟩

/-- What the loop pushes, started by the wrapper, and what it leaves. -/
theorem loopStart_args (h : Fits k c) (hcount : count c≠0) :
    (scallPushArgs (loopStart c)).2=argWords c ∧
      (scallPushArgs (loopStart c)).1.esp=c.esp-12-4*count c ∧
      (scallPushArgs (loopStart c)).1.ebx=frame c ∧
      (scallPushArgs (loopStart c)).1.memory=
        storeBelow c.memory c.esp ([c.edx,c.ecx,c.ebx]++argWords c) := by
  obtain ⟨hebx,hedi,hesp,hmem⟩ := loopStart_frame h
  have hroom := h.room
  have hn : count c=BitVec.ofNat 32 (count c).toNat := by
    rw [BitVec.ofNat_toNat,BitVec.setWidth_eq]
  have hpos : 0<(count c).toNat := by bv_omega
  have hdown : (c.esp-12-k.stackStart).toNat+12=stackRoom k c := by
    rw [stackRoom] at hroom ⊢
    bv_omega
  have hagree : Agrees k.stackStart (stackRoom k c) c.memory (loopStart c).memory := by
    rw [hmem]
    refine (Agrees.refl _).storeBelow ?_ (Nat.le_refl _)
    simp only [List.length_cons,List.length_nil]
    change 12 ≤ stackRoom k c
    omega
  obtain ⟨-,hesp',hebx',hmem'⟩ := scallPushArgs_stack hpos (count c).isLt.le (hedi.trans hn)
  have hargs := scallPushArgs_args hpos (count c).isLt (hedi.trans hn) hagree
    (by rw [hesp]; omega) (by rw [hesp]; omega) fun i hi => by
      have haddr : (loopStart c).ebx+BitVec.ofNat 32 i*4+4=
          frame c+BitVec.ofNat 32 (4*(i+1)) := by
        rw [hebx]
        bv_omega
      rw [haddr]
      exact fits_word h (by omega)
  rw [hebx,←hn] at hargs
  refine ⟨hargs,?_,hebx'.trans hebx,?_⟩
  · rw [hesp',hesp,←hn]
  · rw [hmem',hmem,hesp,storeBelow_append,hargs]
    rfl

/-- The stack pointer that the wrapper comes back with: the count, read once more
from what the handler left. -/
theorem scallReturn_esp (h : Fits k c) {r : Cpu} (hesp : r.esp=c.esp-12-4*count c)
    (hebx : r.ebx=frame c) (ret : Word) (memory : Memory) :
    (scallReturn (push r (number c)) ret memory).esp=
      c.esp-12-4*count c+4*load memory (frame c+4) := by
  have hroom := h.room
  have hdown : (c.esp-12-4*count c-4-k.stackStart).toNat+4 ≤ stackRoom k c := by
    rw [stackRoom] at hroom ⊢
    bv_omega
  have hkept : Agrees k.stackStart (stackRoom k c) memory
      (store memory (r.esp-4+4-4) ret) := by
    refine (Agrees.refl _).store ?_
    have hslot : c.esp-12-4*count c-4+4-4=c.esp-12-4*count c-4 := by ring
    rw [hesp,hslot]
    exact hdown
  have hkeep := hkept.load (fits_word h (i:=1) (by omega))
  change load (store memory (r.esp-4+4-4) ret) (frame c+4)=_ at hkeep
  simp only [scallReturn,push]
  rw [hebx,hkeep,hesp]
  change _=c.esp-12-4*count c+4*load memory (frame c+BitVec.ofNat 32 (4*1))
  ring

/-- What a run of the wrapper shows, where what it pushes fits. -/
theorem scallWrapper_spec (h : Fits k c) (hcount : count c≠0) :
    (scallWrapper k c).args=argWords c ∧
    (scallWrapper k c).calls=[load (gateMemory k c) (k.table+4*number c)] ∧
    (scallWrapper k c).saved=c.esp-12 ∧
    (scallWrapper k c).returned=
      (k.call (load (gateMemory k c) (k.table+4*number c)) (c.esp-12-4*count c)
        (gateMemory k c)).map fun res => (res.1,c.esp-12-4*count c+4*load res.2 (frame c+4)) := by
  obtain ⟨hargs,hesp,hebx,hmem⟩ := loopStart_args h hcount
  have hroom := h.room
  have hlen : (argWords c).length=(count c).toNat := by simp [argWords]
  have hagree : Agrees k.stackStart (stackRoom k c) c.memory
      (storeBelow c.memory c.esp ([c.edx,c.ecx,c.ebx]++argWords c)) := by
    refine (Agrees.refl _).storeBelow ?_ (Nat.le_refl _)
    simp only [List.length_append,List.length_cons,List.length_nil,hlen]
    change 4*(3+(count c).toNat) ≤ stackRoom k c
    omega
  set r := scallPushArgs (loopStart c) with hr
  have hnumber : load r.1.memory r.1.ebx=number c := by
    have hword := fits_word h (i:=0) (by omega)
    rw [Nat.mul_zero,BitVec.add_zero] at hword
    rw [hmem,hebx,hagree.load hword,number]
  have hgate : (push (push r.1 (number c)) k.after).memory=gateMemory k c := by
    have hbelow : c.esp-4*BitVec.ofNat 32 ([c.edx,c.ecx,c.ebx]++argWords c).length=r.1.esp := by
      rw [hesp,List.length_append,hlen]
      change c.esp-4*BitVec.ofNat 32 (3+(count c).toNat)=_
      bv_omega
    rw [gateMemory,storeBelow_append,hbelow,←hmem]
    rfl
  have hread : load (gateMemory k c) (r.1.esp-4-4+4)=number c := by
    have hslot : r.1.esp-4-4+4=r.1.esp-4 := by ring
    rw [←hgate,hslot]
    simp only [push]
    rw [load_store_of_apart (by bv_omega) (by bv_omega),load_store]
  have hptr : r.1.esp-4-4+8=c.esp-12-4*count c := by
    rw [hesp]
    ring
  have hreturn := fun res : Word×Memory => scallReturn_esp h hesp hebx res.1 res.2
  have hwrapper : scallWrapper k c=
      let called := push (push r.1 (load r.1.memory r.1.ebx)) k.after
      let e := syscallExec k (load called.memory (called.esp+4)) (called.esp+8) called.memory
      {args := r.2
       calls := e.calls
       saved := c.esp-4-4-4
       returned := e.result.map fun res =>
         (res.1,(scallReturn (push r.1 (load r.1.memory r.1.ebx)) res.1 res.2).esp)} := rfl
  have hcalled : (push (push r.1 (number c)) k.after).esp=r.1.esp-4-4 := rfl
  rw [hwrapper,hnumber]
  simp only [syscallExec,hgate,hcalled,hread,hptr,hreturn]
  refine ⟨hargs,trivial,?_,trivial⟩
  ring

/-! ## Frames that the gate serves -/

/-- Numbers of the handlers in the table. -/
theorem handlerOf_isSome_iff (num : Word) :
    (handlerOf num).isSome=true ↔ num∈[0,1,2,59,60] := by
  have htable : ∀ i<61,(syscallTable[i]?.join).isSome=true ↔ i∈[0,1,2,59,60] := by decide
  have hmem : num∈[0,1,2,59,60] ↔ num.toNat∈[0,1,2,59,60] := by
    simp only [List.mem_cons,List.not_mem_nil,or_false]
    bv_omega
  rw [handlerOf,hmem]
  by_cases h : num.toNat<61
  · exact htable _ h
  · rw [List.getElem?_eq_none (show syscallTable.length≤num.toNat by
      rw [show syscallTable.length=61 from rfl]; omega)]
    simp only [List.mem_cons,List.not_mem_nil,or_false]
    simp
    omega

/-- What the wrapper pushes leaves the handlers in the table. -/
theorem table_handler (hlinked : Linked k c) (h : Fits k c) {f : Handler}
    (hf : handlerOf (number c)=some f) :
    load (gateMemory k c) (k.table+4*number c)=k.handler f := by
  have hroom := h.room
  have hentry : syscallTable[(number c).toNat]?=some (some f) := Option.join_eq_some_iff.mp hf
  obtain ⟨hlt,-⟩ := List.getElem?_eq_some_iff.mp hentry
  change (number c).toNat<61 at hlt
  have haddr : k.table+4*number c=k.table+BitVec.ofNat 32 (4*(number c).toNat) := by bv_omega
  have hagree : Agrees k.stackStart (stackRoom k c) c.memory (gateMemory k c) := by
    refine (Agrees.refl _).storeBelow ?_ (Nat.le_refl _)
    simp only [List.length_append,List.length_cons,List.length_nil,argWords,List.length_map,
      List.length_range]
    change 4*(3+(count c).toNat+2) ≤ stackRoom k c
    omega
  rw [haddr,hagree.load ((hlinked.apart.word (by omega)).mono hlinked.top),hlinked.table _ hlt,
    List.getD_eq_getElem?_getD,hentry]
  rfl

/-- A frame that is served has an argument. -/
theorem count_ne_zero (h : (scallWrapper k c).args=argWords c) : count c≠0 := by
  intro hzero
  rw [argWords,hzero] at h
  exact scallPushArgs_ne_nil _ h

/-- A call is made for every number. -/
theorem calls_ne_nil (k : Kernel) (c : Cpu) : (scallWrapper k c).calls≠[] := List.cons_ne_nil _ _

/-- The gate serves no frame without arguments or with a number that is not in
the table. A frame that fits is served exactly when its count is not zero, its
number is in the table, and the handler leaves the count in the frame. -/
theorem sound_iff (k : Kernel) (c : Cpu) (hlinked : Linked k c) :
    (Sound k c → count c≠0 ∧ number c∈[0,1,2,59,60]) ∧
    (Fits k c → (Sound k c ↔ count c≠0 ∧ number c∈[0,1,2,59,60] ∧ CountKept k c)) := by
  have hneeds : Sound k c → count c≠0 ∧ number c∈[0,1,2,59,60] := by
    intro h
    refine ⟨count_ne_zero h.1,(handlerOf_isSome_iff _).mp (Option.ne_none_iff_isSome.mp ?_)⟩
    exact fun hnone => calls_ne_nil k c (h.2.2.2 hnone).1
  refine ⟨hneeds,fun hfits => ⟨fun h => ?_,?_⟩⟩
  · obtain ⟨hcount,hnum⟩ := hneeds h
    obtain ⟨-,-,hsaved,hreturned⟩ := scallWrapper_spec hfits hcount
    refine ⟨hcount,hnum,fun f hf ret memory hcall => ?_⟩
    rw [table_handler hlinked hfits hf,hcall] at hreturned
    have hesp := h.2.1 ret _ hreturned
    rw [hsaved] at hesp
    linear_combination hesp
  · rintro ⟨hcount,hnum,hkept⟩
    obtain ⟨hargs,hcalls,hsaved,hreturned⟩ := scallWrapper_spec hfits hcount
    obtain ⟨f,hf⟩ := Option.isSome_iff_exists.mp ((handlerOf_isSome_iff _).mpr hnum)
    rw [table_handler hlinked hfits hf] at hcalls hreturned
    refine ⟨hargs,fun ret esp hret => ?_,fun f' hf' => ?_,fun hnone => ?_⟩
    · rw [hreturned] at hret
      obtain ⟨⟨ret',memory⟩,hcall,heq⟩ := Option.map_eq_some_iff.mp hret
      obtain ⟨-,rfl⟩ := Prod.mk.inj heq
      rw [hkept f hf ret' memory hcall,hsaved]
      ring
    · obtain rfl := Option.some.inj (hf.symm.trans hf')
      exact hcalls
    · rw [hf] at hnone
      contradiction

/-- A kernel whose handlers leave memory alone, and whose `sys_exit` does not
return. -/
def sampleKernel : Kernel where
  table := 0xC0120000
  handler h := match h with
    | .sysRead => 0xC0100100
    | .sysWrite => 0xC0100200
    | .sysFork => 0xC0100300
    | .sysExecve => 0xC0100400
    | .sysExit => 0xC0100500
  stackEnd := 0xC0131000
  after := 0xC0100080
  call target _ memory := if target=0xC0100500 then none else some (0,memory)

/-- Its table, and a frame with a number, a count and an argument. -/
def sampleMemory (num count : Word) : Memory :=
  [(0xC0120000,0xC0100100),(0xC0120004,0xC0100200),(0xC0120008,0xC0100300),
    (0xC01200EC,0xC0100400),(0xC01200F0,0xC0100500),(0xC0130FEC,0x8000),(0x8020,num),
    (0x8024,count),(0x8028,7)].foldl (fun m e => store m e.1 e.2) fun _ => 0

/-- The wrapper's caller on the interrupt stack. -/
def sampleCpu (num count : Word) : Cpu := ⟨0,0,0,0xC0130FE0,0,0xC0130FD0,sampleMemory num count⟩

/-- The table is linked, whatever frame it is. -/
theorem sample_linked : Linked sampleKernel (sampleCpu 0 0) ∧ Linked sampleKernel (sampleCpu 60 1) :=
  ⟨⟨by decide +kernel,by decide +kernel,by decide +kernel⟩,
    ⟨by decide +kernel,by decide +kernel,by decide +kernel⟩⟩

/-- Leaving a process through the gate. -/
theorem sound_iff_exit : Sound sampleKernel (sampleCpu 60 1) := by
  refine ((sound_iff sampleKernel (sampleCpu 60 1) sample_linked.2).2
    ⟨by decide +kernel,by decide +kernel,by decide +kernel⟩).mpr
    ⟨by decide +kernel,by decide +kernel,fun f hf ret memory hcall => ?_⟩
  obtain rfl := Option.some.inj ((by decide +kernel :
    handlerOf (number (sampleCpu 60 1))=some .sysExit).symm.trans hf)
  contradiction

/-- A frame without arguments has the loop push every word there is. -/
theorem sound_counterexample : ¬∀ (k : Kernel) (c : Cpu),Linked k c → Fits k c → Sound k c := by
  intro hclaim
  have hs := hclaim sampleKernel (sampleCpu 0 0) sample_linked.1
    ⟨by decide +kernel,by decide +kernel,by decide +kernel⟩
  exact count_ne_zero hs.1 (by decide +kernel)

end XanaduOS.SyscallGate
