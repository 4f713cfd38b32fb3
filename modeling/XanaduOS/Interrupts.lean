import XanaduOS.InterruptStubs
import XanaduOS.PicMasks
import XanaduOS.Runs

/-!
# Runs of interrupts

Initialisation fills all gates but the last one, and registers the handlers of
exceptions. Afterwards handlers are registered, and programs are interrupted:
by lines of the controllers, by exceptions and by instructions. Ends of
interrupts are written before the handler is called, for every interrupt alike.
So no line is in service while a handler runs, and the surplus ends find
nothing to end. What a handler does to the rest of the kernel is a parameter.
-/

namespace XanaduOS.Interrupts

open Runs StackMachine InterruptStubs PicMasks

/-! ## Gates and controllers -/

/-- `struct idt_entry`. -/
structure IdtEntry where
  /-- Low half of the stub's address. -/
  isrLow : BitVec 16
  /-- Code segment. -/
  cs : BitVec 16
  /-- Unused. -/
  reserved : BitVec 8
  /-- Present bit, privilege level and type. -/
  attributes : BitVec 8
  /-- High half of the stub's address. -/
  isrHigh : BitVec 16

/-- Attributes of a gate: present, an interrupt gate. -/
abbrev IDTD_DEFAULT : BitVec 8 := 0x8E

/-- Attribute: reached from the outermost privilege level. -/
abbrev IDTD_RING3 : BitVec 8 := 0x60

/-- The stub that the processor finds through a gate. -/
def IdtEntry.isr (e : IdtEntry) : Word := e.isrHigh.setWidth 32<<<16 ||| e.isrLow.setWidth 32

/-- Whether a gate is present. -/
def IdtEntry.present (e : IdtEntry) : Bool := e.attributes.getLsbD 7

/-- The outermost level from which instructions reach a gate. -/
def IdtEntry.dpl (e : IdtEntry) : BitVec 8 := (e.attributes>>>5)&&&3

/-- Lines that the controllers have in service. -/
structure InService where
  /-- Lines of the master. -/
  master : BitVec 8
  /-- Lines of the slave. -/
  slave : BitVec 8
  deriving DecidableEq

/-- No line is in service. -/
def InService.clear : InService := ⟨0,0⟩

/-- The controllers hand a line to the processor. One of the slave's goes
through the master. -/
def InService.accept (s : InService) (irq : ℕ) : InService :=
  if 8 ≤ irq then ⟨s.master ||| SLAVE_PIN_IR,s.slave ||| (1#8<<<(irq-8))⟩
  else ⟨s.master ||| (1#8<<<irq),s.slave⟩

/-- A request that was withdrawn before it was handed over. The slave's goes
through the master. -/
def InService.spurious (s : InService) (fromSlave : Bool) : InService :=
  if fromSlave then {s with master := s.master ||| SLAVE_PIN_IR} else s

/-- What a controller does at an end of interrupt: the line of the highest
priority is no longer in service. -/
def endLowest (lines : BitVec 8) : BitVec 8 := lines&&&(lines-1)

/-- `pic_eoi`. -/
def picEoi (s : InService) (intId : Word) : InService :=
  let intId : BitVec 8 := intId.setWidth 8
  let s := if PIC2_REMAP ≤ intId then {s with slave := endLowest s.slave} else s
  {s with master := endLowest s.master}

/-! ## The interrupt code -/

/-- `struct isr_handler_args`, the pointer to the registers apart. -/
structure IsrHandlerArgs where
  /-- Number of the interrupt. -/
  intId : Word
  /-- Error code. -/
  error : Word
  /-- Segment of the interrupted program. -/
  cs : Word
  /-- First argument of the C function. -/
  esp : Word
  /-- Place of the interrupted program. -/
  eip : Word
  deriving DecidableEq

/-- Handlers that the kernel itself registers first, and others. -/
inductive Handler (H : Type)
  /-- `void_handler`. -/
  | voidHandler
  /-- `invalid_opcode`. -/
  | invalidOpcode
  /-- `spurious_handler`. -/
  | spuriousHandler
  /-- `invalid_tss_handler`. -/
  | invalidTssHandler
  /-- `gp_fault`. -/
  | gpFault
  /-- A handler of a driver or of another part of the kernel. -/
  | other (h : H)
  deriving DecidableEq

/-- A call made by the C function. -/
structure Call (H : Type) where
  /-- What was called, unless it is the null pointer. -/
  handler : Option (Handler H)
  /-- Its argument. -/
  args : IsrHandlerArgs
  /-- Lines in service at the time of the call. -/
  inService : InService
  deriving DecidableEq

/-- The globals of the interrupt code, the controllers, and the calls so far. -/
structure IntState (H ρ : Type) where
  /-- `idt`. -/
  idt : ℕ → IdtEntry
  /-- `isr_handlers`. -/
  isrHandlers : ℕ → Option (Handler H)
  /-- Masks of the controllers. -/
  pic : Pic
  /-- Lines in service. -/
  inService : InService
  /-- Calls of handlers, in order. -/
  calls : List (Call H)
  /-- The rest of the kernel. -/
  rest : ρ

/-- What the interrupt code relies on. -/
structure Kernel (H ρ : Type) where
  /-- `isr_table`. -/
  isrTable : ℕ → Word
  /-- The instructions at an address. -/
  code : Word → List Instr
  /-- The addresses are those of the stubs. -/
  code_isr : ∀ n<256,code (isrTable n)=InterruptStubs.isrTable n
  /-- What a call does to the rest of the kernel and to the registers. -/
  serve : Option (Handler H) → IsrHandlerArgs → X86CpuState → ρ → ρ×X86CpuState
  /-- Masks that the controllers hold at first. -/
  masks : BitVec 8×BitVec 8

variable {H ρ : Type}

/-- `idt_set_entry`. -/
def idtSetEntry (s : IntState H ρ) (idtId : ℕ) (isr : Word) (flags : BitVec 8) : IntState H ρ :=
  let entry : IdtEntry := {
    isrLow := isr.setWidth 16
    isrHigh := (isr>>>16).setWidth 16
    cs := 0x08
    attributes := flags
    reserved := 0}
  {s with idt := Function.update s.idt idtId entry}

/-- `add_isr_handler`. -/
def addIsrHandler (k : Kernel H ρ) (s : IntState H ρ) (intNum : ℕ) (handler : Handler H)
    (flags : BitVec 8) : IntState H ρ :=
  let s := {s with isrHandlers := Function.update s.isrHandlers intNum (some handler)}
  if flags≠0 then idtSetEntry s intNum (k.isrTable intNum) (flags ||| IDTD_DEFAULT) else s

/-- `add_irq_handler`. -/
def addIrqHandler (s : IntState H ρ) (irqNum : ℕ) (handler : Handler H) : IntState H ρ :=
  {s with isrHandlers := Function.update s.isrHandlers (PIC1_REMAP.toNat+irqNum) (some handler)
          pic := picUnmask s.pic irqNum}

/-- `exception_handlers_init`. -/
def exceptionHandlersInit (k : Kernel H ρ) (s : IntState H ρ) : IntState H ρ :=
  let s := addIsrHandler k s 6 .invalidOpcode 0
  let s := addIsrHandler k s 7 .spuriousHandler 0
  let s := addIsrHandler k s 10 .invalidTssHandler 0
  addIsrHandler k s 13 .gpFault 0

/-- The loop that fills gates. -/
def fillGates (k : Kernel H ρ) (s : IntState H ρ) (count : ℕ) : IntState H ρ :=
  (List.range count).foldl (fun s i =>
    let s := idtSetEntry s i (k.isrTable i) IDTD_DEFAULT
    {s with isrHandlers := Function.update s.isrHandlers i (some .voidHandler)}) s

/-- `idt_init`. Setting up the controllers ends all service. -/
def idtInit (k : Kernel H ρ) (s : IntState H ρ) : IntState H ρ :=
  let s := fillGates k s 255
  exceptionHandlersInit k {s with pic := picInit k.masks.1 k.masks.2 0 false s.pic
                                  inService := .clear}

/-- `isr_x86`. -/
def isrX86 (k : Kernel H ρ) (s : IntState H ρ) (esp : Word) (isr : IsrFullStack) :
    IntState H ρ×X86CpuState :=
  let s := {s with inService := picEoi s.inService isr.intNum}
  let args : IsrHandlerArgs := ⟨isr.intNum,isr.errorCode,isr.cs,esp,isr.eip⟩
  let handler := s.isrHandlers isr.intNum.toNat
  let (rest,st) := k.serve handler args isr.cpuSt s.rest
  ({s with calls := s.calls++[⟨handler,args,s.inService⟩],rest := rest},st)

/-- The compiled function: what the calling convention leaves open is taken
from another one. -/
def callee (k : Kernel H ρ) (f : Callee (IntState H ρ)) : Callee (IntState H ρ) :=
  {f with isrX86 := isrX86 k}

/-- What happens after initialisation. -/
inductive Event (H : Type)
  /-- `add_irq_handler` for a line. -/
  | addIrq (irq : Fin 16) (handler : Handler H)
  /-- `add_isr_handler` for a number. -/
  | addIsr (intNum : Fin 256) (handler : Handler H) (flags : BitVec 8)
  /-- A line interrupts a program. -/
  | line (irq : Fin 16) (c : Cpu)
  /-- A withdrawn request interrupts a program. -/
  | withdrawn (fromSlave : Bool) (c : Cpu)
  /-- An exception interrupts a program. -/
  | exception (intNum : Fin 32) (error : Option Word) (c : Cpu)
  /-- A program interrupts itself. -/
  | instruction (intNum : Fin 256) (c : Cpu)

/-- An interrupt on its way: number, error code and program. -/
structure Arrival where
  /-- Number. -/
  intNum : ℕ
  /-- Error code pushed by the processor. -/
  error : Option Word
  /-- The program. -/
  cpu : Cpu
  /-- The outermost level that may come this way. -/
  level : BitVec 8

/-- The interrupt that an event brings. Only instructions are checked for the
privilege level of the program. -/
def Event.arrival : Event H → Option Arrival
  | .addIrq _ _ => none
  | .addIsr _ _ _ => none
  | .line irq c => some ⟨PIC1_REMAP.toNat+irq,none,c,0⟩
  | .withdrawn fromSlave c => some ⟨if fromSlave then 0x2F else 0x27,none,c,0⟩
  | .exception intNum error c => some ⟨intNum,error,c,0⟩
  | .instruction intNum c => some ⟨intNum,none,c,(c.cs&&&3).setWidth 8⟩

/-- The state when an event's interrupt is delivered. -/
def prepare (k : Kernel H ρ) (s : IntState H ρ) : Event H → IntState H ρ
  | .addIrq irq handler => addIrqHandler s irq handler
  | .addIsr intNum handler flags => addIsrHandler k s intNum handler flags
  | .line irq _ => {s with inService := s.inService.accept irq}
  | .withdrawn fromSlave _ => {s with inService := s.inService.spurious fromSlave}
  | .exception _ _ _ => s
  | .instruction _ _ => s

/-- Deliver an interrupt through its gate. Where there is none, or the level is
not admitted, an exception follows, which is an event of its own. -/
def enter (k : Kernel H ρ) (f : Callee (IntState H ρ)) (tss : Tss) (s : IntState H ρ)
    (a : Arrival) : IntState H ρ×Option Cpu :=
  let gate := s.idt a.intNum
  if gate.present=true ∧ a.level≤gate.dpl then
    let (s,c) := run (callee k f) (k.code gate.isr) (s,deliver tss a.error a.cpu)
    (s,some c)
  else (s,none)

/-- One event, and the interrupted program when it goes on. -/
def step (k : Kernel H ρ) (f : Callee (IntState H ρ)) (tss : Tss) (s : IntState H ρ)
    (e : Event H) : IntState H ρ×Option Cpu :=
  let s := prepare k s e
  match e.arrival with
  | none => (s,none)
  | some a => enter k f tss s a

/-- The state after events, in order. -/
def runAll (k : Kernel H ρ) (f : Callee (IntState H ρ)) (tss : Tss) (s : IntState H ρ)
    (events : List (Event H)) : IntState H ρ :=
  events.foldl (fun s e => (step k f tss s e).1) s

/-! ## What runs promise -/

/-- The handler that an event registers for a number. -/
def registration (n : ℕ) : Event H → Option (Handler H)
  | .addIrq irq handler => if n=PIC1_REMAP.toNat+irq then some handler else none
  | .addIsr intNum handler _ => if n=intNum then some handler else none
  | _ => none

/-- The flags that an event gives to a number's gate. -/
def gateFlags (n : ℕ) : Event H → Option (BitVec 8)
  | .addIsr intNum _ flags => if n=intNum ∧ flags≠0 then some flags else none
  | _ => none

/-- The handler of a number after initialisation. -/
def firstHandler (n : ℕ) : Option (Handler H) :=
  if n=13 then some .gpFault
  else if n=10 then some .invalidTssHandler
  else if n=7 then some .spuriousHandler
  else if n=6 then some .invalidOpcode
  else if n<255 then some .voidHandler
  else none

/-- The handler registered last for a number. -/
def registered (before : List (Event H)) (n : ℕ) : Option (Handler H) :=
  (before.reverse.findSome? (registration n)).or (firstHandler n)

/-- Attributes of a number's gate: those given last. -/
def gateAttributes (before : List (Event H)) (n : ℕ) : Option (BitVec 8) :=
  ((before.reverse.findSome? (gateFlags n)).map (· ||| IDTD_DEFAULT)).or
    (if n<255 then some IDTD_DEFAULT else none)

/-- Whether a number's gate admits an interrupt. -/
def admitted (before : List (Event H)) (a : Arrival) : Bool :=
  match gateAttributes before a.intNum with
  | none => false
  | some attributes => decide (a.level≤(attributes>>>5)&&&3)

/-- The argument of the handler that serves an interrupt. -/
def argsOf (a : Arrival) : IsrHandlerArgs :=
  ⟨BitVec.ofNat 32 a.intNum,a.error.getD 0,a.cpu.cs,a.cpu.ecx,a.cpu.eip⟩

/-- The call that serves an event. -/
def callFor (before : List (Event H)) (e : Event H) : Option (Call H) :=
  match e.arrival with
  | none => none
  | some a => if admitted before a then some ⟨registered before a.intNum,argsOf a,.clear⟩ else none

/-- The calls that serve events, each by what was registered before it. -/
def callsFor (before : List (Event H)) : List (Event H) → List (Call H)
  | [] => []
  | e::events => (callFor before e).toList++callsFor (before++[e]) events

/-- If an event's interrupt is admitted, the processor pushes an error code exactly
where the stub expects one. -/
def Event.Matched (before : List (Event H)) (e : Event H) : Prop :=
  ∀ a,e.arrival=some a → admitted before a=true →
    a.error.isSome=decide (a.intNum∈errorCodes)

/-- The events behind a history do so. -/
def Matching (before events : List (Event H)) : Prop :=
  Along (fun before e => before++[e]) Event.Matched before events

/-- Before initialisation: the last number has no gate and no handler, and no
handler was called. -/
structure Blank (s : IntState H ρ) : Prop where
  /-- No gate. -/
  gate : (s.idt 255).present=false
  /-- No handler. -/
  handler : s.isrHandlers 255=none
  /-- No call. -/
  calls : s.calls=[]

/-- The state after a history of events. -/
structure Follows (k : Kernel H ρ) (before : List (Event H)) (s : IntState H ρ) : Prop where
  /-- Handlers are those registered last. -/
  handlers : ∀ n<256,s.isrHandlers n=registered before n
  /-- Gates lead to their stubs, with the attributes given last. -/
  gates : ∀ n<256,∀ attributes,gateAttributes before n=some attributes →
    (s.idt n).isr=k.isrTable n ∧ (s.idt n).cs=8 ∧ (s.idt n).attributes=attributes
  /-- The other gates are not present. -/
  missing : ∀ n<256,gateAttributes before n=none → (s.idt n).present=false
  /-- No line is in service. -/
  idle : s.inService=.clear
  /-- Handlers were called for each interrupt that was admitted, once and in
  order. -/
  calls : s.calls=callsFor [] before

variable {k : Kernel H ρ} {f : Callee (IntState H ρ)} {tss : Tss} {s : IntState H ρ}
  {before : List (Event H)} {e : Event H} {a : Arrival}

/-! ## Gates and ends of interrupts -/

/-- A gate leads to the stub whose address was entered. -/
theorem isr_split (isr : Word) : (((isr>>>16).setWidth 16).setWidth 32<<<16 |||
    (isr.setWidth 16).setWidth 32 : Word)=isr := by
  apply BitVec.eq_of_getLsbD_eq
  intro i hi
  by_cases hlow : i<16
  · simp [hlow,hi]
  · have hhigh : i-16<16 := by omega
    simp [hlow,hhigh,hi,Nat.add_sub_cancel' (Nat.le_of_not_lt hlow)]

/-- Gates that were given attributes are present. -/
theorem attributes_present (flags : BitVec 8) : (flags ||| IDTD_DEFAULT).getLsbD 7=true := by
  rw [BitVec.getLsbD_or]
  exact Bool.or_true _

/-- A line that is handed over is ended by the number that it interrupts with. -/
theorem picEoi_accept (irq : Fin 16) :
    picEoi (InService.clear.accept irq) (BitVec.ofNat 32 (PIC1_REMAP.toNat+irq))=.clear := by
  revert irq
  decide

/-- So is the slave's way through the master. -/
theorem picEoi_spurious (fromSlave : Bool) : picEoi (InService.clear.spurious fromSlave)
    (BitVec.ofNat 32 (if fromSlave then 0x2F else 0x27))=.clear := by
  revert fromSlave
  decide

/-- Where no line is in service there is nothing to end. -/
theorem picEoi_clear (intId : Word) : picEoi .clear intId=.clear := by
  have hzero : endLowest 0=0 := by decide
  simp only [picEoi,InService.clear,hzero]
  split <;> rfl

/-! ## Histories -/

/-- The latest registration is in force. -/
theorem registered_snoc (n : ℕ) : registered (before++[e]) n=
    (registration n e).or (registered before n) := by
  rw [registered,List.reverse_append,List.reverse_singleton,List.singleton_append,
    List.findSome?_cons]
  cases registration n e with
  | none => rfl
  | some h => rfl

/-- So are the latest attributes. -/
theorem gateAttributes_snoc (n : ℕ) : gateAttributes (before++[e]) n=
    ((gateFlags n e).map (· ||| IDTD_DEFAULT)).or (gateAttributes before n) := by
  rw [gateAttributes,List.reverse_append,List.reverse_singleton,List.singleton_append,
    List.findSome?_cons]
  cases gateFlags n e with
  | none => rfl
  | some h => rfl

/-- The calls of a history, one event longer. -/
theorem callsFor_snoc (events : List (Event H)) : callsFor before (events++[e])=
    callsFor before events++(callFor (before++events) e).toList := by
  induction events generalizing before with
  | nil =>
    rw [List.nil_append,callsFor,callsFor,callsFor,List.append_nil,List.append_nil,List.nil_append]
  | cons first events ih =>
    rw [List.cons_append,callsFor,callsFor,ih,List.append_assoc,List.append_assoc,
      List.singleton_append]

/-! ## Initialisation -/

/-- The loop fills the gates up to a number. -/
theorem fillGates_upto (k : Kernel H ρ) (s : IntState H ρ) (m : ℕ) :
    let t := (List.range m).foldl (fun s i =>
      let s := idtSetEntry s i (k.isrTable i) IDTD_DEFAULT
      {s with isrHandlers := Function.update s.isrHandlers i (some .voidHandler)}) s
    (∀ n < m,t.isrHandlers n=some .voidHandler ∧ (t.idt n).isr=k.isrTable n ∧ (t.idt n).cs=8 ∧
      (t.idt n).attributes=IDTD_DEFAULT) ∧
    (∀ n,m≤n → t.isrHandlers n=s.isrHandlers n ∧ t.idt n=s.idt n) ∧ t.calls=s.calls := by
  induction m with
  | zero => exact ⟨fun n hn => absurd hn (Nat.not_lt_zero n),fun n _ => ⟨rfl,rfl⟩,rfl⟩
  | succ m ih =>
    simp only [List.range_succ,List.foldl_append,List.foldl_cons,List.foldl_nil] at ih ⊢
    obtain ⟨hdone,hrest,hcalls⟩ := ih
    refine ⟨fun n hn => ?_,fun n hn => ?_,hcalls⟩
    · by_cases hnm : n=m
      · subst hnm
        simp only [idtSetEntry,Function.update_self]
        exact ⟨trivial,isr_split _,trivial,trivial⟩
      · simp only [idtSetEntry,Function.update_of_ne hnm]
        exact hdone n (by omega)
    · simp only [idtSetEntry,Function.update_of_ne (show n≠m by omega)]
      exact hrest n (by omega)

/-- A registration without flags leaves the gates. -/
theorem addIsrHandler_plain (k : Kernel H ρ) (s : IntState H ρ) (n : ℕ) (h : Handler H) :
    addIsrHandler k s n h 0=
      {s with isrHandlers := Function.update s.isrHandlers n (some h)} := rfl

/-- Initialisation leaves the state of an empty history. -/
theorem idtInit_follows (h : Blank s) : Follows k [] (idtInit k s) := by
  obtain ⟨hdone,hrest,hcalls⟩ := fillGates_upto k s 255
  obtain ⟨hlast,hgate⟩ := hrest 255 (Nat.le_refl _)
  have hidt : (idtInit k s).idt=(fillGates k s 255).idt := by
    simp only [idtInit,exceptionHandlersInit,addIsrHandler_plain]
  have hlog : (idtInit k s).calls=(fillGates k s 255).calls := by
    simp only [idtInit,exceptionHandlersInit,addIsrHandler_plain]
  have hidle : (idtInit k s).inService=.clear := by
    simp only [idtInit,exceptionHandlersInit,addIsrHandler_plain]
  have hattr : ∀ n,gateAttributes ([] : List (Event H)) n=
      if n<255 then some IDTD_DEFAULT else none := fun _ => rfl
  refine ⟨fun n hn => ?_,fun n hn attributes hattributes => ?_,fun n hn hnone => ?_,hidle,
    hlog.trans (hcalls.trans h.calls)⟩
  · have hhandlers : (idtInit k s).isrHandlers=Function.update (Function.update (Function.update
        (Function.update (fillGates k s 255).isrHandlers 6 (some .invalidOpcode)) 7
          (some .spuriousHandler)) 10 (some .invalidTssHandler)) 13 (some .gpFault) := by
      simp only [idtInit,exceptionHandlersInit,addIsrHandler_plain]
    have hfill : (fillGates k s 255).isrHandlers n=if n<255 then some .voidHandler else none := by
      by_cases hlt : n<255
      · rw [if_pos hlt]
        exact (hdone n hlt).1
      · obtain rfl : n=255 := by omega
        exact hlast.trans h.handler
    rw [hhandlers,registered]
    simp only [List.reverse_nil,List.findSome?_nil,Option.none_or,firstHandler,
      Function.update_apply,hfill]
  · rw [hattr] at hattributes
    split at hattributes
    · rename_i hlt
      cases hattributes
      rw [hidt]
      exact (hdone n hlt).2
    · cases hattributes
  · rw [hattr] at hnone
    split at hnone
    · cases hnone
    · obtain rfl : n=255 := by omega
      rw [hidt]
      exact (congrArg IdtEntry.present hgate).trans h.gate

/-! ## One event -/

/-- Attributes in force are those of a present gate. -/
theorem gateAttributes_present {n : ℕ} {attributes : BitVec 8}
    (h : gateAttributes before n=some attributes) : attributes.getLsbD 7=true := by
  rw [gateAttributes] at h
  cases hflags : before.reverse.findSome? (gateFlags n) with
  | none =>
    rw [hflags,Option.map_none,Option.none_or] at h
    split at h
    · cases h
      decide
    · cases h
  | some flags =>
    rw [hflags,Option.map_some,Option.some_or] at h
    cases h
    exact attributes_present flags

/-- Numbers below the last one have gates. -/
theorem gateAttributes_isSome {n : ℕ} (hn : n<255) : gateAttributes before n≠none := by
  rw [gateAttributes,if_pos hn]
  cases before.reverse.findSome? (gateFlags n) with
  | none => exact Option.some_ne_none _
  | some flags => exact Option.some_ne_none _

/-- An interrupt enters the kernel exactly where the history admits it. -/
theorem Follows.admits (h : Follows k before s) (hn : a.intNum<256) :
    ((s.idt a.intNum).present=true ∧ a.level≤(s.idt a.intNum).dpl) ↔ admitted before a=true := by
  rw [admitted]
  cases hattr : gateAttributes before a.intNum with
  | none =>
    simp only [h.missing _ hn hattr,Bool.false_eq_true,false_and]
  | some attributes =>
    have hsame := (h.gates _ hn _ hattr).2.2
    have hpresent : (s.idt a.intNum).present=true := by
      rw [IdtEntry.present,hsame]
      exact gateAttributes_present hattr
    simp only [hpresent,true_and,IdtEntry.dpl,hsame,decide_eq_true_eq]

/-- An interrupt that is admitted calls its handler, and the program goes on. -/
theorem Follows.entered (h : Follows k before s) (hn : a.intNum<256)
    (hlet : admitted before a=true) (hkind : a.error.isSome=decide (a.intNum∈errorCodes))
    (hdepth : f.depth<2^20) (lines : InService) :
    let r := isrX86 k {s with inService := lines} a.cpu.ecx (isrFrame tss a.intNum a.error a.cpu)
    ∃ c,enter k f tss {s with inService := lines} a=(r.1,some c) ∧
      Returned tss f.depth a.cpu r.2 c := by
  obtain ⟨hpresent,hlevel⟩ := (h.admits hn).mpr hlet
  have hattr : gateAttributes before a.intNum≠none := by
    intro hnone
    rw [admitted,hnone] at hlet
    cases hlet
  obtain ⟨attributes,hsome⟩ := Option.ne_none_iff_exists'.mp hattr
  have hcode : k.code (s.idt a.intNum).isr=InterruptStubs.isrTable a.intNum := by
    rw [(h.gates _ hn _ hsome).1]
    exact k.code_isr _ hn
  obtain ⟨hstate,hreturned⟩ := @interrupt_spec _ (callee k f) tss a.intNum a.error
    {s with inService := lines} a.cpu hkind hdepth
  refine ⟨_,?_,hreturned⟩
  rw [enter]
  simp only [if_pos (And.intro hpresent hlevel),hcode]
  exact Prod.ext hstate rfl

/-- The state after the C function. -/
theorem isrX86_state (k : Kernel H ρ) (s : IntState H ρ) (hn : a.intNum<256) :
    (isrX86 k s a.cpu.ecx (isrFrame tss a.intNum a.error a.cpu)).1={s with
      inService := picEoi s.inService (BitVec.ofNat 32 a.intNum)
      calls := s.calls++[⟨s.isrHandlers a.intNum,argsOf a,
        picEoi s.inService (BitVec.ofNat 32 a.intNum)⟩]
      rest := (k.serve (s.isrHandlers a.intNum) (argsOf a)
        (isrFrame tss a.intNum a.error a.cpu).cpuSt s.rest).1} := by
  have hnum : (BitVec.ofNat 32 a.intNum).toNat=a.intNum := by
    rw [BitVec.toNat_ofNat,Nat.mod_eq_of_lt (by omega)]
  simp only [isrX86,isrFrame,hnum]
  rfl

/-- An interrupt on its way, whose lines the number ends. -/
theorem Follows.arrived (h : Follows k before s) (hn : a.intNum<256) (harr : e.arrival=some a)
    (hkind : admitted before a=true → a.error.isSome=decide (a.intNum∈errorCodes))
    (hdepth : f.depth<2^20) {lines : InService} (hlines : picEoi lines (BitVec.ofNat 32 a.intNum)=.clear)
    (hidle : admitted before a=false → lines=.clear) :
    Follows k (before++[e]) (enter k f tss {s with inService := lines} a).1 := by
  have hreg : ∀ n,registration n e=none ∧ gateFlags n e=none := by
    intro n
    cases e with
    | addIrq => cases harr
    | addIsr => cases harr
    | line => exact ⟨rfl,rfl⟩
    | withdrawn => exact ⟨rfl,rfl⟩
    | exception => exact ⟨rfl,rfl⟩
    | instruction => exact ⟨rfl,rfl⟩
  have hhandlers : ∀ n,registered (before++[e]) n=registered before n := by
    intro n
    rw [registered_snoc,(hreg n).1,Option.none_or]
  have hgates : ∀ n,gateAttributes (before++[e]) n=gateAttributes before n := by
    intro n
    rw [gateAttributes_snoc,(hreg n).2,Option.map_none,Option.none_or]
  have hcall : callsFor [] (before++[e])=callsFor [] before++(if admitted before a then
      [⟨registered before a.intNum,argsOf a,.clear⟩] else []) := by
    rw [callsFor_snoc,callFor,harr,List.nil_append]
    simp only
    split <;> rfl
  cases hlet : admitted before a with
  | true =>
    obtain ⟨c,henter,_⟩ := @Follows.entered H ρ k f tss s before a h hn hlet (hkind hlet) hdepth lines
    rw [henter,isrX86_state k _ hn]
    refine ⟨fun n hn' => ?_,fun n hn' attributes hattr => ?_,fun n hn' hnone => ?_,hlines,?_⟩
    · rw [hhandlers]
      exact h.handlers n hn'
    · rw [hgates] at hattr
      exact h.gates n hn' attributes hattr
    · rw [hgates] at hnone
      exact h.missing n hn' hnone
    · rw [hcall,if_pos hlet,←h.calls,←h.handlers _ hn]
      simp only [hlines]
  | false =>
    have hno : ¬((s.idt a.intNum).present=true ∧ a.level≤(s.idt a.intNum).dpl) := by
      rw [h.admits hn,hlet]
      exact Bool.false_ne_true
    have henter : enter k f tss {s with inService := lines} a=({s with inService := lines},none) :=
      if_neg hno
    rw [henter]
    refine ⟨fun n hn' => ?_,fun n hn' attributes hattr => ?_,fun n hn' hnone => ?_,hidle hlet,?_⟩
    · rw [hhandlers]
      exact h.handlers n hn'
    · rw [hgates] at hattr
      exact h.gates n hn' attributes hattr
    · rw [hgates] at hnone
      exact h.missing n hn' hnone
    · rw [hcall,hlet]
      exact h.calls.trans (List.append_nil _).symm

/-- A number of an event is one of the table's. -/
theorem arrival_lt (harr : e.arrival=some a) : a.intNum<256 := by
  cases e with
  | addIrq => cases harr
  | addIsr => cases harr
  | line irq c =>
    cases harr
    have hbase : PIC1_REMAP.toNat=32 := rfl
    have hirq := irq.isLt
    simp only [hbase]
    omega
  | withdrawn fromSlave c =>
    cases harr
    cases fromSlave with
    | false => exact (by decide : 0x27<256)
    | true => exact (by decide : 0x2F<256)
  | exception intNum error c =>
    cases harr
    exact lt_trans intNum.isLt (by decide)
  | instruction intNum c =>
    cases harr
    exact intNum.isLt

/-- Interrupts of the controllers are always admitted. -/
theorem admitted_level_zero (hn : a.intNum<255) (hlevel : a.level=0) :
    admitted before a=true := by
  rw [admitted]
  cases hattr : gateAttributes before a.intNum with
  | none => exact absurd hattr (gateAttributes_isSome hn)
  | some attributes =>
    rw [hlevel]
    exact decide_eq_true (BitVec.le_def.mpr (Nat.zero_le _))

/-- A handler registered for a line. -/
theorem Follows.addIrq (h : Follows k before s) (irq : Fin 16) (handler : Handler H) :
    Follows k (before++[.addIrq irq handler]) (addIrqHandler s irq handler) := by
  have hplain : ∀ n,gateFlags n (.addIrq irq handler)=none := fun _ => rfl
  refine ⟨fun n hn => ?_,fun n hn attributes hattr => ?_,fun n hn hnone => ?_,h.idle,?_⟩
  · rw [registered_snoc,registration,addIrqHandler]
    simp only [Function.update_apply]
    split
    · rfl
    · exact h.handlers n hn
  · rw [gateAttributes_snoc,hplain,Option.map_none,Option.none_or] at hattr
    exact h.gates n hn attributes hattr
  · rw [gateAttributes_snoc,hplain,Option.map_none,Option.none_or] at hnone
    exact h.missing n hn hnone
  · rw [callsFor_snoc]
    exact h.calls.trans (List.append_nil _).symm

/-- A handler registered for a number, with the flags of its gate. -/
theorem Follows.addIsr (h : Follows k before s) (intNum : Fin 256) (handler : Handler H)
    (flags : BitVec 8) :
    Follows k (before++[.addIsr intNum handler flags]) (addIsrHandler k s intNum handler flags) := by
  have hhandlers : (addIsrHandler k s intNum handler flags).isrHandlers=
      Function.update s.isrHandlers intNum (some handler) := by
    rw [addIsrHandler]
    split <;> rfl
  have hrest : (addIsrHandler k s intNum handler flags).inService=s.inService ∧
      (addIsrHandler k s intNum handler flags).calls=s.calls := by
    rw [addIsrHandler]
    split <;> exact ⟨rfl,rfl⟩
  have hother : ∀ n : ℕ,¬(n=intNum ∧ flags≠0) →
      (addIsrHandler k s intNum handler flags).idt n=s.idt n := by
    intro n hne
    rw [addIsrHandler]
    split
    · rename_i hflags
      exact Function.update_of_ne (fun heq => hne ⟨heq,hflags⟩) _ _
    · rfl
  refine ⟨fun n hn => ?_,fun n hn attributes hattr => ?_,fun n hn hnone => ?_,
    hrest.1.trans h.idle,?_⟩
  · rw [registered_snoc,registration,hhandlers,Function.update_apply]
    split
    · rfl
    · exact h.handlers n hn
  · rw [gateAttributes_snoc,gateFlags] at hattr
    by_cases hthis : n=intNum ∧ flags≠0
    · rw [if_pos hthis] at hattr
      cases hattr
      obtain ⟨rfl,hflags⟩ := hthis
      have hgate : (addIsrHandler k s intNum handler flags).idt intNum=
          (idtSetEntry s intNum (k.isrTable intNum) (flags ||| IDTD_DEFAULT)).idt intNum := by
        rw [addIsrHandler,if_pos hflags]
        rfl
      rw [hgate]
      simp only [idtSetEntry,Function.update_self]
      exact ⟨isr_split _,trivial,trivial⟩
    · rw [if_neg hthis] at hattr
      rw [hother n hthis]
      exact h.gates n hn attributes hattr
  · rw [gateAttributes_snoc,gateFlags] at hnone
    by_cases hthis : n=intNum ∧ flags≠0
    · rw [if_pos hthis] at hnone
      cases hnone
    · rw [if_neg hthis] at hnone
      rw [hother n hthis]
      exact h.missing n hn hnone
  · rw [callsFor_snoc,hrest.2]
    exact h.calls.trans (List.append_nil _).symm

/-- Every event follows the history. -/
theorem Follows.step (h : Follows k before s) (hmatch : e.Matched before) (hdepth : f.depth<2^20) :
    Follows k (before++[e]) (step k f tss s e).1 := by
  have hidle : s={s with inService := .clear} := by
    rw [←h.idle]
  cases e with
  | addIrq irq handler => exact h.addIrq irq handler
  | addIsr intNum handler flags => exact h.addIsr intNum handler flags
  | line irq c =>
    have hbase : PIC1_REMAP.toNat=32 := rfl
    have hirq := irq.isLt
    refine h.arrived (@arrival_lt H (.line irq c) _ rfl) rfl (hmatch _ rfl) hdepth ?_ fun hno => ?_
    · rw [h.idle]
      exact picEoi_accept irq
    · have hyes := @admitted_level_zero H before
        ⟨PIC1_REMAP.toNat+irq,none,c,0⟩ (by simp only [hbase]; omega) rfl
      rw [hyes] at hno
      cases hno
  | withdrawn fromSlave c =>
    refine h.arrived (@arrival_lt H (.withdrawn fromSlave c) _ rfl) rfl (hmatch _ rfl) hdepth ?_
      fun hno => ?_
    · rw [h.idle]
      exact picEoi_spurious fromSlave
    · have hlt : (if fromSlave then 0x2F else 0x27)<255 := by
        cases fromSlave <;> decide
      have hyes := @admitted_level_zero H before ⟨if fromSlave then 0x2F else 0x27,none,c,0⟩ hlt rfl
      rw [hyes] at hno
      cases hno
  | exception intNum error c =>
    have hrun := @Follows.arrived H ρ k f tss s before (.exception intNum error c) _ h
      (@arrival_lt H (.exception intNum error c) _ rfl) rfl (hmatch _ rfl) hdepth .clear (picEoi_clear _)
      fun _ => rfl
    rw [←hidle] at hrun
    exact hrun
  | instruction intNum c =>
    have hrun := @Follows.arrived H ρ k f tss s before (.instruction intNum c) _ h
      (@arrival_lt H (.instruction intNum c) _ rfl) rfl (hmatch _ rfl) hdepth .clear (picEoi_clear _)
      fun _ => rfl
    rw [←hidle] at hrun
    exact hrun

/-! ## Runs -/

/-- Every run follows its history. -/
theorem runAll_follows (h : Follows k before s) (events : List (Event H))
    (hmatch : Matching before events) (hdepth : f.depth<2^20) :
    Follows k (before++events) (runAll k f tss s events) := by
  induction events generalizing before s with
  | nil =>
    rw [List.append_nil]
    exact h
  | cons e events ih =>
    obtain ⟨hfirst,hbehind⟩ := hmatch
    have hrest := ih (@Follows.step H ρ k f tss s before e h hfirst hdepth) hbehind
    rw [List.append_assoc,List.singleton_append] at hrest
    exact hrest

/-- What serves an interrupt that a history admits. -/
structure Resumed (k : Kernel H ρ) (tss : Tss) (depth : ℕ) (before : List (Event H)) (a : Arrival)
    (s t : IntState H ρ) (c : Cpu) : Prop where
  /-- The handler registered last has worked on the rest of the kernel. -/
  rest : t.rest=(k.serve (registered before a.intNum) (argsOf a)
    (isrFrame tss a.intNum a.error a.cpu).cpuSt s.rest).1
  /-- The program goes on with the registers that it left. -/
  program : Returned tss depth a.cpu (k.serve (registered before a.intNum) (argsOf a)
    (isrFrame tss a.intNum a.error a.cpu).cpuSt s.rest).2 c

/-- The state in which an event's interrupt arrives. -/
theorem prepare_arrival (k : Kernel H ρ) (s : IntState H ρ) (harr : e.arrival=some a) :
    ∃ lines,prepare k s e={s with inService := lines} := by
  cases e with
  | addIrq => cases harr
  | addIsr => cases harr
  | line => exact ⟨_,rfl⟩
  | withdrawn => exact ⟨_,rfl⟩
  | exception => exact ⟨s.inService,rfl⟩
  | instruction => exact ⟨s.inService,rfl⟩

/-- A kernel whose stubs lie at multiples of sixteen, and whose handlers count
their calls in a register. -/
def countingKernel : Kernel Unit ℕ where
  isrTable n := BitVec.ofNat 32 (16*n)
  code addr := InterruptStubs.isrTable (addr.toNat/16)
  code_isr n hn := by
    rw [BitVec.toNat_ofNat,Nat.mod_eq_of_lt (by omega),Nat.mul_div_cancel_left n (by norm_num)]
  serve _ _ st rest := (rest+1,{st with eax := BitVec.ofNat 32 rest})
  masks := (0,0)

/-- A compiled function that leaves the words below its frame. -/
def leafCallee : Callee (IntState Unit ℕ) :=
  ⟨fun s _ isr => (s,isr.cpuSt),16,fun _ s => s,fun _ _ => ⟨rfl,fun _ _ => rfl⟩,fun _ c => c,0⟩

/-- The static variables, and controllers with clear masks. -/
def blankState : IntState Unit ℕ :=
  ⟨fun _ => ⟨0,0,0,0,0⟩,fun _ => none,⟨0,fun _ => 0⟩,⟨0,0⟩,[],0⟩

/-- A program of the outermost level. -/
def userProgram : Cpu :=
  ⟨1,2,3,4,5,6,7,⟨0x2000,fun _ => 0⟩,0x1000,0x1B,0x23,0x202⟩

/-- The gate of system calls, a line and a system call. -/
def userEvents : List (Event Unit) :=
  [.addIsr 0x80 (.other ()) (IDTD_RING3 ||| IDTD_DEFAULT),.line 0 userProgram,
    .instruction 0x80 userProgram]

/-- The processor pushes no error code in these events. -/
theorem userEvents_matched : Matching [] userEvents := by
  refine ⟨fun a harr _ => ?_,fun a harr _ => ?_,fun a harr _ => ?_,trivial⟩
  · cases harr
  · cases harr
    decide
  · cases harr
    decide

/-- In every run after initialisation each interrupt that is admitted calls the
handler registered last for its number, once, in order, with the frame of its
program and no line in service; gates lead to their stubs with the attributes
given last. -/
theorem run_follows (h : Blank s) (events : List (Event H)) (hmatch : Matching [] events)
    (hdepth : f.depth<2^20) : Follows k events (runAll k f tss (idtInit k s) events) :=
  runAll_follows (idtInit_follows h) events hmatch hdepth

/-- The line's handler and that of the system call are called. -/
theorem run_follows_user : Follows countingKernel userEvents
    (runAll countingKernel leafCallee ⟨0x9000,0x10⟩ (idtInit countingKernel blankState)
      userEvents) :=
  run_follows ⟨by decide,rfl,rfl⟩ userEvents userEvents_matched (by decide)

/-- After every run a program that is interrupted goes on where it was, on its
own stack, with the registers that the handler left in the frame. -/
theorem run_resumes (h : Blank s) (events : List (Event H)) (hmatch : Matching [] events)
    (hdepth : f.depth<2^20) (harr : e.arrival=some a) (hkind : e.Matched events)
    (hlet : admitted events a=true) :
    ∃ c,(step k f tss (runAll k f tss (idtInit k s) events) e).2=some c ∧
      Resumed k tss f.depth events a (runAll k f tss (idtInit k s) events)
        (step k f tss (runAll k f tss (idtInit k s) events) e).1 c := by
  have hfollows := @runAll_follows H ρ k f tss _ [] (idtInit_follows h) events hmatch hdepth
  rw [List.nil_append] at hfollows
  have hn := arrival_lt harr
  generalize runAll k f tss (idtInit k s) events=t at *
  obtain ⟨lines,hprepare⟩ := prepare_arrival k t harr
  obtain ⟨c,henter,hreturned⟩ :=
    @Follows.entered H ρ k f tss t events a hfollows hn hlet (hkind a harr hlet) hdepth lines
  have hstep : step k f tss t e=enter k f tss {t with inService := lines} a := by
    rw [step,hprepare]
    simp only [harr]
  have hnum : (BitVec.ofNat 32 a.intNum).toNat=a.intNum := by
    rw [BitVec.toNat_ofNat,Nat.mod_eq_of_lt (by omega)]
  rw [hstep,henter]
  refine ⟨c,rfl,?_,?_⟩
  · rw [isrX86_state k _ hn]
    simp only [hfollows.handlers _ hn]
  · rw [←hfollows.handlers _ hn]
    have hserve : (isrX86 k {t with inService := lines} a.cpu.ecx
        (isrFrame tss a.intNum a.error a.cpu)).2=(k.serve (t.isrHandlers a.intNum) (argsOf a)
        (isrFrame tss a.intNum a.error a.cpu).cpuSt t.rest).2 := by
      simp only [isrX86,isrFrame,hnum]
      rfl
    rw [←hserve]
    exact hreturned

/-- The program goes on after its next system call. -/
theorem run_resumes_user :
    ∃ c,(step countingKernel leafCallee ⟨0x9000,0x10⟩ (runAll countingKernel leafCallee
        ⟨0x9000,0x10⟩ (idtInit countingKernel blankState) userEvents)
        (.instruction 0x80 userProgram)).2=some c ∧
      Resumed countingKernel ⟨0x9000,0x10⟩ 16 userEvents ⟨0x80,none,userProgram,3⟩
        (runAll countingKernel leafCallee ⟨0x9000,0x10⟩ (idtInit countingKernel blankState)
          userEvents)
        (step countingKernel leafCallee ⟨0x9000,0x10⟩ (runAll countingKernel leafCallee
          ⟨0x9000,0x10⟩ (idtInit countingKernel blankState) userEvents)
          (.instruction 0x80 userProgram)).1 c :=
  run_resumes ⟨by decide,rfl,rfl⟩ userEvents userEvents_matched (by decide) rfl
    (fun a harr _ => by cases harr; decide) (by decide)

end XanaduOS.Interrupts
