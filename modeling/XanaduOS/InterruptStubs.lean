import XanaduOS.StackMachine

/-!
# Entry and exit of interrupts

The processor pushes what it needs to come back, and for some exceptions an
error code. A stub for each number pushes a zero in its place where there is
none, and the number. The common part pushes all registers, one of them once
more as the first argument, calls the C function, and takes everything down
again. The function finds its second argument in place on the stack, so what
handlers write through the pointer to the registers is what the interrupted
program gets back.
-/

namespace XanaduOS.InterruptStubs

open StackMachine

/-- `struct x86_cpu_state`, in the order in which all registers are pushed. -/
structure X86CpuState where
  /-- Register. -/
  edi : Word
  /-- Register. -/
  esi : Word
  /-- Register. -/
  ebp : Word
  /-- Stack pointer before the registers were pushed. -/
  esp : Word
  /-- Register. -/
  ebx : Word
  /-- Register. -/
  edx : Word
  /-- Register. -/
  ecx : Word
  /-- Register. -/
  eax : Word
  deriving DecidableEq

/-- Words of the structure, from its address upwards. -/
def X86CpuState.toWords (st : X86CpuState) : List Word :=
  [st.edi,st.esi,st.ebp,st.esp,st.ebx,st.edx,st.ecx,st.eax]

/-- The structure at the words of an address. -/
def cpuStateAt (word : ℕ → Word) : X86CpuState :=
  ⟨word 0,word 1,word 2,word 3,word 4,word 5,word 6,word 7⟩

/-- `struct isr_full_stack`. -/
structure IsrFullStack where
  /-- All registers. -/
  cpuSt : X86CpuState
  /-- Number of the interrupt. -/
  intNum : Word
  /-- Error code, or zero. -/
  errorCode : Word
  /-- Address to return to. -/
  eip : Word
  /-- Segment to return to. -/
  cs : Word
  /-- Flags to return with. -/
  eflags : Word
  deriving DecidableEq

/-- The structure at the words of an address. -/
def fullStackAt (word : ℕ → Word) : IsrFullStack :=
  ⟨cpuStateAt word,word 8,word 9,word 10,word 11,word 12⟩

/-- The processor. The address of the stack is `esp`, its words are the memory. -/
structure Cpu where
  /-- Register. -/
  eax : Word
  /-- Register. -/
  ebx : Word
  /-- Register. -/
  ecx : Word
  /-- Register. -/
  edx : Word
  /-- Register. -/
  ebp : Word
  /-- Register. -/
  esi : Word
  /-- Register. -/
  edi : Word
  /-- The stack. -/
  stack : Stack
  /-- Instruction pointer. -/
  eip : Word
  /-- Code segment; its low bits are the privilege level. -/
  cs : Word
  /-- Stack segment. -/
  ss : Word
  /-- Flags. -/
  eflags : Word

/-- Fields of the task state that a change of privilege reads. -/
structure Tss where
  /-- Stack pointer. -/
  esp0 : Word
  /-- Stack segment. -/
  ss0 : Word

/-- The flag by which interrupts are enabled. -/
abbrev INT_FLAG : Word := 0x200

/-- Whether a segment belongs to an outer privilege level. -/
def outer (cs : Word) : Bool := decide (cs&&&3≠0)

/-- The stack on which an interrupt is delivered. -/
def kernelStack (tss : Tss) (c : Cpu) : Stack :=
  if outer c.cs then (⟨tss.esp0,c.stack.words⟩ : Stack).pushAll [c.ss,c.stack.top] else c.stack

/-- What the processor does through an interrupt gate, before the stub. -/
def deliver (tss : Tss) (error : Option Word) (c : Cpu) : Cpu :=
  {c with
    stack := (kernelStack tss c).pushAll ([c.eflags,c.cs,c.eip]++error.toList)
    cs := 8
    ss := if outer c.cs then tss.ss0 else c.ss
    eflags := c.eflags&&&~~~INT_FLAG}

/-- Instructions of the stubs. -/
inductive Instr
  /-- Disable interrupts. -/
  | cli
  /-- Enable interrupts. -/
  | sti
  /-- Push a constant. -/
  | pushDword (word : Word)
  /-- Push all registers. -/
  | pushad
  /-- Push one register. -/
  | pushEcx
  /-- Call the C function. -/
  | callIsr
  /-- Give back words of the stack. -/
  | addEsp (words : ℕ)
  /-- Pop all registers but the stack pointer. -/
  | popad
  /-- Return to the interrupted program. -/
  | iret

/-- A compiled C function: what the source says of it, and what the calling
convention leaves open. Besides its frame it uses some words below the stack. -/
structure Callee (κ : Type) where
  /-- The function: the kernel and the registers in its argument afterwards. -/
  isrX86 : κ → Word → IsrFullStack → κ×X86CpuState
  /-- Words that it uses below its return address. -/
  depth : ℕ
  /-- What it leaves there. -/
  scratch : κ → Stack → Stack
  /-- It keeps the other words. -/
  scratch_keeps : ∀ k s,Stack.Keeps depth s (scratch k s)
  /-- Registers and flags that it need not keep. -/
  clobber : κ → Cpu → Cpu
  /-- The return address. -/
  back : Word

variable {κ : Type}

/-- The registers that a C function keeps, after a call. -/
def afterCall (f : Callee κ) (k : κ) (c : Cpu) : Cpu :=
  let free := f.clobber k c
  {c with eax := free.eax,ecx := free.ecx,edx := free.edx,eflags := free.eflags}

/-- Execute one instruction. -/
def exec (f : Callee κ) : Instr → κ×Cpu → κ×Cpu
  | .cli,(k,c) => (k,{c with eflags := c.eflags&&&~~~INT_FLAG})
  | .sti,(k,c) => (k,{c with eflags := c.eflags ||| INT_FLAG})
  | .pushDword word,(k,c) => (k,{c with stack := c.stack.push word})
  | .pushad,(k,c) => (k,{c with
      stack := c.stack.pushAll [c.eax,c.ecx,c.edx,c.ebx,c.stack.top,c.ebp,c.esi,c.edi]})
  | .pushEcx,(k,c) => (k,{c with stack := c.stack.push c.ecx})
  | .callIsr,(k,c) =>
    let (k',st) := f.isrX86 k (c.stack.peek 0) (fullStackAt (c.stack.drop 1).peek)
    let used := f.scratch k ((c.stack.poke 1 st.toWords).push f.back)
    (k',{afterCall f k c with stack := used.drop 1})
  | .addEsp words,(k,c) => (k,{c with stack := c.stack.drop words})
  | .popad,(k,c) =>
    let st := cpuStateAt c.stack.peek
    (k,{c with edi := st.edi,esi := st.esi,ebp := st.ebp,ebx := st.ebx,edx := st.edx
               ecx := st.ecx,eax := st.eax,stack := c.stack.drop 8})
  | .iret,(k,c) =>
    let back := {c with eip := c.stack.peek 0,cs := c.stack.peek 1,eflags := c.stack.peek 2
                        stack := c.stack.drop 3}
    if outer back.cs then
      (k,{back with ss := back.stack.peek 1,stack := ⟨back.stack.peek 0,back.stack.words⟩})
    else (k,back)

/-- Execute instructions in order. -/
def run (f : Callee κ) (code : List Instr) (s : κ×Cpu) : κ×Cpu :=
  code.foldl (fun s i => exec f i s) s

/-- `common_isr`. -/
def commonIsr : List Instr := [.pushad,.pushEcx,.callIsr,.addEsp 1,.popad,.addEsp 2,.sti,.iret]

/-- A stub for an interrupt without error code. -/
def isrNoErrorCode (n : ℕ) : List Instr :=
  [.cli,.pushDword 0,.pushDword (BitVec.ofNat 32 n)]++commonIsr

/-- A stub for an exception with error code. -/
def isrErrorCode (n : ℕ) : List Instr := [.cli,.pushDword (BitVec.ofNat 32 n)]++commonIsr

/-- Numbers whose stubs expect an error code. -/
def errorCodes : List ℕ := [8,10,11,12,13,14,17,30]

/-- The stubs of `isr_table`. -/
def isrTable (n : ℕ) : List Instr := if n∈errorCodes then isrErrorCode n else isrNoErrorCode n

/-- An interrupt from its delivery to the return of its stub. -/
def interrupt (f : Callee κ) (tss : Tss) (n : ℕ) (error : Option Word) (s : κ×Cpu) : κ×Cpu :=
  run f (isrTable n) (s.1,deliver tss error s.2)

/-! ## The frame -/

/-- The frame that the C function gets. -/
def isrFrame (tss : Tss) (n : ℕ) (error : Option Word) (c : Cpu) : IsrFullStack where
  cpuSt := ⟨c.edi,c.esi,c.ebp,(kernelStack tss c).top-20,c.ebx,c.edx,c.ecx,c.eax⟩
  intNum := BitVec.ofNat 32 n
  errorCode := error.getD 0
  eip := c.eip
  cs := c.cs
  eflags := c.eflags

/-- Words of the frame, in the order in which they are pushed: those of the
processor, those of the stub, all registers and the first argument. -/
def pushedWords (tss : Tss) (n : ℕ) (error : Option Word) (c : Cpu) : List Word :=
  [c.eflags,c.cs,c.eip,error.getD 0,BitVec.ofNat 32 n,c.eax,c.ecx,c.edx,c.ebx,
    (kernelStack tss c).top-20,c.ebp,c.esi,c.edi,c.ecx]

variable {f : Callee κ} {tss : Tss} {n : ℕ} {error : Option Word} {k : κ} {c : Cpu}

/-- Code runs one part behind the other. -/
theorem run_append (f : Callee κ) (first rest : List Instr) (s : κ×Cpu) :
    run f (first++rest) s=run f rest (run f first s) := List.foldl_append ..

/-- The stubs push the number, behind a zero or the processor's error code. -/
theorem stub_pushes (hkind : error.isSome=decide (n∈errorCodes)) :
    ∃ flags,interrupt f tss n error (k,c)=run f commonIsr (k,{c with
      stack := (kernelStack tss c).pushAll [c.eflags,c.cs,c.eip,error.getD 0,BitVec.ofNat 32 n]
      cs := 8,ss := if outer c.cs then tss.ss0 else c.ss,eflags := flags}) := by
  refine ⟨c.eflags&&&~~~INT_FLAG&&&~~~INT_FLAG,?_⟩
  cases error with
  | none =>
    have hn : n∉errorCodes := of_decide_eq_false hkind.symm
    rw [interrupt,isrTable,if_neg hn,isrNoErrorCode,run_append]
    rfl
  | some code =>
    have hn : n∈errorCodes := of_decide_eq_true hkind.symm
    rw [interrupt,isrTable,if_pos hn,isrErrorCode,run_append]
    rfl

/-- An interrupt whose stub expects an error code exactly where the processor
pushed one reaches the call with the frame on the stack. -/
theorem stub_frame (hkind : error.isSome=decide (n∈errorCodes)) :
    ∃ flags,interrupt f tss n error (k,c)=run f [.callIsr,.addEsp 1,.popad,.addEsp 2,.sti,.iret]
      (k,{c with stack := (kernelStack tss c).pushAll (pushedWords tss n error c),cs := 8
                 ss := if outer c.cs then tss.ss0 else c.ss,eflags := flags}) := by
  obtain ⟨flags,hpush⟩ := @stub_pushes κ f tss n error k c hkind
  have htop : ((kernelStack tss c).pushAll
      [c.eflags,c.cs,c.eip,error.getD 0,BitVec.ofNat 32 n]).top=(kernelStack tss c).top-20 :=
    Stack.top_pushAll _ _
  have hcode : commonIsr=[.pushad,.pushEcx]++[.callIsr,.addEsp 1,.popad,.addEsp 2,.sti,.iret] := rfl
  refine ⟨flags,hpush.trans ?_⟩
  rw [hcode,run_append,pushedWords,←htop]
  rfl

/-- The stack after the call: the registers in the frame are those that the
function left, the words above are as they were pushed. -/
theorem call_stack (f : Callee κ) (k : κ) (s : Stack) (st : X86CpuState) :
    let used := (f.scratch k ((s.poke 1 st.toWords).push f.back)).drop 1
    used.top=s.top ∧ ∀ i,i+(1+f.depth)<2^30 →
      used.peek i=if 1 ≤ i ∧ i<9 then st.toWords.getD (i-1) 0 else s.peek i := by
  have hkeeps := @Stack.Keeps.pushed (s.poke 1 st.toWords) _ f.depth [f.back]
    (f.scratch_keeps k ((s.poke 1 st.toWords).push f.back))
  exact ⟨hkeeps.top,fun i hi =>
    (hkeeps.words i hi).trans (Stack.peek_poke s 1 st.toWords (by omega))⟩

/-- What the function gets for its second argument. -/
theorem frame_fullStack (tss : Tss) (n : ℕ) (error : Option Word) (c : Cpu) (above : Stack) :
    (above.pushAll (pushedWords tss n error c)).peek 0=c.ecx ∧
      fullStackAt (((above.pushAll (pushedWords tss n error c)).drop 1).peek)=
        isrFrame tss n error c := by
  have hpeek : ∀ i<14,(above.pushAll (pushedWords tss n error c)).peek i=
      (pushedWords tss n error c).reverse.getD i 0 := by
    intro i hi
    rw [Stack.peek_pushAll _ (by omega),if_pos]
    exact hi
  refine ⟨hpeek 0 (by norm_num),?_⟩
  simp only [fullStackAt,cpuStateAt,Stack.peek_drop]
  rw [hpeek _ (by norm_num),hpeek _ (by norm_num),hpeek _ (by norm_num),hpeek _ (by norm_num),
    hpeek _ (by norm_num),hpeek _ (by norm_num),hpeek _ (by norm_num),hpeek _ (by norm_num),
    hpeek _ (by norm_num),hpeek _ (by norm_num),hpeek _ (by norm_num),hpeek _ (by norm_num),
    hpeek _ (by norm_num)]
  rfl

/-! ## The return -/

/-- The words that the end of the stub reads. -/
structure TakenDown (d c' : Cpu) : Prop where
  /-- Registers, above the first argument. -/
  registers : c'.edi=d.stack.peek 1 ∧ c'.esi=d.stack.peek 2 ∧ c'.ebp=d.stack.peek 3 ∧
    c'.ebx=d.stack.peek 5 ∧ c'.edx=d.stack.peek 6 ∧ c'.ecx=d.stack.peek 7 ∧ c'.eax=d.stack.peek 8
  /-- What the processor had pushed, above the number and the error code. -/
  place : c'.eip=d.stack.peek 11 ∧ c'.cs=d.stack.peek 12 ∧ c'.eflags=d.stack.peek 13
  /-- The stack of an outer program is in the last two words. -/
  stack : (outer (d.stack.peek 12)=true ∧ c'.ss=d.stack.peek 15 ∧ c'.stack.top=d.stack.peek 14) ∨
    (outer (d.stack.peek 12)=false ∧ c'.ss=d.ss ∧ c'.stack.top=(d.stack.drop 14).top)
  /-- Nothing is written. -/
  words : c'.stack.words=d.stack.words

/-- The end of the stub. -/
theorem takenDown (f : Callee κ) (k : κ) (d : Cpu) :
    (run f [.addEsp 1,.popad,.addEsp 2,.sti,.iret] (k,d)).1=k ∧
      TakenDown d (run f [.addEsp 1,.popad,.addEsp 2,.sti,.iret] (k,d)).2 := by
  simp only [run,List.foldl_cons,List.foldl_nil,exec,cpuStateAt,Stack.peek_drop,Stack.drop_drop]
  by_cases hout : outer (d.stack.peek 12)=true
  · rw [if_pos hout]
    exact ⟨rfl,⟨rfl,rfl,rfl,rfl,rfl,rfl,rfl⟩,⟨rfl,rfl,rfl⟩,Or.inl ⟨hout,rfl,rfl⟩,rfl⟩
  · rw [if_neg hout]
    exact ⟨rfl,⟨rfl,rfl,rfl,rfl,rfl,rfl,rfl⟩,⟨rfl,rfl,rfl⟩,
      Or.inr ⟨Bool.eq_false_of_not_eq_true hout,rfl,rfl⟩,rfl⟩

/-- What an interrupt leaves of the processor, when handlers left the registers
`st` in its frame. -/
structure Returned (tss : Tss) (depth : ℕ) (c : Cpu) (st : X86CpuState) (c' : Cpu) : Prop where
  /-- The program goes on where it was interrupted. -/
  place : c'.eip=c.eip ∧ c'.cs=c.cs ∧ c'.eflags=c.eflags
  /-- On its own stack. -/
  stack : c'.ss=c.ss ∧ c'.stack.top=c.stack.top
  /-- With the registers of the frame. -/
  registers : c'.edi=st.edi ∧ c'.esi=st.esi ∧ c'.ebp=st.ebp ∧ c'.ebx=st.ebx ∧ c'.edx=st.edx ∧
    c'.ecx=st.ecx ∧ c'.eax=st.eax
  /-- Words of the memory are kept, but for those right below the stack on which
  the interrupt was delivered. -/
  memory : (kernelStack tss c).Keeps (15+depth) ⟨(kernelStack tss c).top,c'.stack.words⟩

/-- An interrupt whose stub expects an error code exactly where the processor
pushed one calls the function once, with the frame, and gives the registers
that it leaves there back to the interrupted program. -/
theorem interrupt_spec (hkind : error.isSome=decide (n∈errorCodes)) (hdepth : f.depth<2^20) :
    (interrupt f tss n error (k,c)).1=(f.isrX86 k c.ecx (isrFrame tss n error c)).1 ∧
      Returned tss f.depth c (f.isrX86 k c.ecx (isrFrame tss n error c)).2
        (interrupt f tss n error (k,c)).2 := by
  obtain ⟨flags,hrun⟩ := @stub_frame κ f tss n error k c hkind
  obtain ⟨harg,hframe⟩ := frame_fullStack tss n error c (kernelStack tss c)
  have hlen : (pushedWords tss n error c).length=14 := rfl
  have hbase : ∀ i<2^20,((kernelStack tss c).pushAll (pushedWords tss n error c)).peek i=
      if i<14 then (pushedWords tss n error c).reverse.getD i 0
      else (kernelStack tss c).peek (i-14) := by
    intro i hi
    rw [Stack.peek_pushAll _ (by omega),hlen]
  have htops : (((kernelStack tss c).pushAll (pushedWords tss n error c)).drop 14).top=
      (kernelStack tss c).top :=
    (@Stack.Keeps.pushed _ _ 0 (pushedWords tss n error c) (Stack.Keeps.refl _)).top
  generalize hs : (kernelStack tss c).pushAll (pushedWords tss n error c)=s at *
  generalize hres : f.isrX86 k c.ecx (isrFrame tss n error c)=res
  obtain ⟨htop,hpeek⟩ := call_stack f k s res.2
  generalize hused : (f.scratch k ((s.poke 1 res.2.toWords).push f.back)).drop 1=used at htop hpeek
  -- after the call
  obtain ⟨d,hd,hdstack,hdss⟩ : ∃ d : Cpu,exec f .callIsr (k,{c with
      stack := s,cs := 8,ss := if outer c.cs then tss.ss0 else c.ss,eflags := flags})=(res.1,d) ∧
      d.stack=used ∧ d.ss=if outer c.cs then tss.ss0 else c.ss := by
    simp only [exec,harg,hframe,hres]
    exact ⟨_,rfl,hused,rfl⟩
  have htail : interrupt f tss n error (k,c)=
      run f [.addEsp 1,.popad,.addEsp 2,.sti,.iret] (res.1,d) := by
    rw [hrun,←hd]
    rfl
  obtain ⟨hk,hdown⟩ := takenDown f res.1 d
  rw [←htail] at hk hdown
  have hregs : ∀ i,1 ≤ i → i<9 → d.stack.peek i=res.2.toWords.getD (i-1) 0 := by
    intro i hlo hhi
    rw [hdstack,hpeek i (by omega),if_pos ⟨hlo,hhi⟩]
  have hplace : ∀ i,9 ≤ i → i<14 →
      d.stack.peek i=(pushedWords tss n error c).reverse.getD i 0 := by
    intro i hlo hhi
    rw [hdstack,hpeek i (by omega),if_neg (by omega),hbase i (by omega),if_pos hhi]
  have habove : ∀ i,i+(15+f.depth)<2^30 → d.stack.peek (14+i)=(kernelStack tss c).peek i := by
    intro i hi
    rw [hdstack,hpeek (14+i) (by omega),if_neg (by omega),←hs,Stack.peek_pushAll _ (by omega),
      hlen,if_neg (by omega),Nat.add_sub_cancel_left]
  have hcs : d.stack.peek 12=c.cs := hplace 12 (by norm_num) (by norm_num)
  have hsame : (⟨(kernelStack tss c).top,d.stack.words⟩ : Stack)=d.stack.drop 14 := by
    rw [←htops,hdstack]
    simp only [Stack.drop,htop]
  refine ⟨hk,⟨hdown.place.1.trans (hplace 11 (by norm_num) (by norm_num)),hdown.place.2.1.trans hcs,
    hdown.place.2.2.trans (hplace 13 (by norm_num) (by norm_num))⟩,?_,?_,?_⟩
  · rcases hdown.stack with ⟨hout,hss,hesp⟩|⟨hin,hss,hesp⟩
    · rw [hcs] at hout
      have hstack : kernelStack tss c=
          (⟨tss.esp0,c.stack.words⟩ : Stack).pushAll [c.ss,c.stack.top] := if_pos hout
      have hlast : d.stack.peek 15=(kernelStack tss c).peek 1 := habove 1 (by omega)
      have hfirst : d.stack.peek 14=(kernelStack tss c).peek 0 := habove 0 (by omega)
      rw [hss,hesp,hlast,hfirst,hstack,Stack.peek_pushAll _ (by norm_num),
        Stack.peek_pushAll _ (by norm_num)]
      exact ⟨rfl,rfl⟩
    · rw [hcs] at hin
      have hno : ¬outer c.cs=true := by
        rw [hin]
        exact Bool.false_ne_true
      have hstack : kernelStack tss c=c.stack := if_neg hno
      rw [if_neg hno] at hdss
      rw [hss,hesp,hdss,←hsame,hstack]
      exact ⟨rfl,rfl⟩
  · obtain ⟨hedi,hesi,hebp,hebx,hedx,hecx,heax⟩ := hdown.registers
    exact ⟨hedi.trans (hregs 1 (by norm_num) (by norm_num)),
      hesi.trans (hregs 2 (by norm_num) (by norm_num)),
      hebp.trans (hregs 3 (by norm_num) (by norm_num)),
      hebx.trans (hregs 5 (by norm_num) (by norm_num)),
      hedx.trans (hregs 6 (by norm_num) (by norm_num)),
      hecx.trans (hregs 7 (by norm_num) (by norm_num)),
      heax.trans (hregs 8 (by norm_num) (by norm_num))⟩
  · rw [hdown.words,hsame]
    refine ⟨?_,fun i hi => ?_⟩
    · rw [←hsame]
    · rw [Stack.peek_drop]
      exact habove i (by omega)

end XanaduOS.InterruptStubs
