import XanaduOS.ClockReadings

/-!
# Setting up the floppy controller

Bytes go to and from the controller through one port, and the driver looks at
the controller's status before each. Every wait gives up after a time. So
whatever the controller answers, the setup ends, touches the data port only
behind a look that found the controller ready for a byte, and fails: the last
step of the setup never reports a success.
-/

namespace XanaduOS.FloppyDriver

open DevicePrograms ClockReadings

/-- Offset of the motor and reset register. -/
abbrev FLOPPY_DIGITAL_OUT_REG : ℕ := 2

/-- Offset of the status register. -/
abbrev FLOPPY_MAIN_STATUS_REG : ℕ := 4

/-- Offset of the data port. -/
abbrev FLOPPY_DATA_FIFO : ℕ := 5

/-- Offset of the speed register. -/
abbrev FLOPPY_CONFIG_REG : ℕ := 7

/-- Milliseconds of a wait. -/
abbrev TIMEOUT_MS : ℕ := 30000

/-- Speed of most drives. -/
abbrev FLOPPY_500KBPS : BitVec 8 := 0#8

/-- Speed of the largest drives. -/
abbrev FLOPPY_1MBPS : BitVec 8 := 3#8

/-- Command that sets the drive's timing. -/
abbrev CMD_SPECIFY : ℕ := 3

/-- Command that moves to the first cylinder. -/
abbrev CMD_RECALIBRATE : BitVec 8 := 7#8

/-- Command that asks for the interrupt's cause. -/
abbrev CMD_SENSE_INTERRUPT : BitVec 8 := 8#8

/-- Type of the largest drives. -/
abbrev FLOPPY_2_88MB_3_5 : ℕ := 5

/-- The controller is ready for a byte. -/
abbrev MSR_RQM : BitVec 8 := 0x80#8

/-- The controller has a byte to give. -/
abbrev MSR_DIO : BitVec 8 := 0x40#8

/-- The controller may interrupt. -/
abbrev DOR_IRQ : BitVec 8 := 0x08#8

/-- The controller is not held in reset. -/
abbrev DOR_RESET : BitVec 8 := 0x04#8

/-- A wait was given up. -/
abbrev FLOPPY_TIMEOUT : ℤ := -1

/-- The controller was not ready. -/
abbrev FLOPPY_FAULT : ℤ := -2

/-- Base of the controller's ports. -/
abbrev floppyBase : ℕ := 0x3F0

/-- The drive, which nothing changes. -/
abbrev floppyDrive : BitVec 8 := 0#8

/-- A status allows a byte to be written. -/
def takesByte (msr : BitVec 8) : Bool := ¬(msr &&& MSR_RQM=0#8 ∨ msr &&& MSR_DIO≠0#8)

/-- Look at the status until it allows a byte, until time is up. -/
def floppyWaitLoop (base ticks : ℕ) (msr : BitVec 8) : PortProg ℕ :=
  if takesByte msr=true then pure 0
  else inb (base+FLOPPY_MAIN_STATUS_REG)>>=fun msr =>
    if h : TIMEOUT_MS≤ticks+10 then pure 1
    else sleepMs 10>>=fun _ => floppyWaitLoop base (ticks+10) msr
termination_by TIMEOUT_MS-ticks

/-- Wait until the controller takes a byte. -/
def floppyWait (base : ℕ) : PortProg ℕ := do
  let msr ← inb (base+FLOPPY_MAIN_STATUS_REG)
  floppyWaitLoop base 0 msr

/-- Read a byte of a result, behind the same wait. -/
def floppyRead (base : ℕ) : PortProg ℤ := do
  let late ← floppyWait base
  if late≠0 then return FLOPPY_TIMEOUT
  else do
    let data ← inb (base+FLOPPY_DATA_FIFO)
    return data.toNat

/-- Write the parameters of a command. -/
def writeParams (base : ℕ) : List (BitVec 8) → PortProg ℤ
  | [] => pure 0
  | arg::args => do
    let late ← floppyWait base
    if late≠0 then return FLOPPY_TIMEOUT
    else do
      outb (base+FLOPPY_DATA_FIFO) arg
      writeParams base args

/-- Write a command with its parameters, as many as the caller says. -/
def floppyWriteCmd (base : ℕ) (cmd : BitVec 8) (args : List (BitVec 8)) : PortProg ℤ := do
  let msr ← inb (base+FLOPPY_MAIN_STATUS_REG)
  if takesByte msr≠true then return FLOPPY_FAULT
  else do
    outb (base+FLOPPY_DATA_FIFO) cmd
    writeParams base args

/-- Wait for the interrupt's counter to move, until time is up. -/
def irqWaitLoop (initTick timeoutTick : ℕ) : PortProg ℤ :=
  readTicks>>=fun tick =>
    if tick≠initTick then pure 0
    else sleepMs 10>>=fun _ =>
      if h : TIMEOUT_MS<timeoutTick+10 then pure FLOPPY_TIMEOUT
      else irqWaitLoop initTick (timeoutTick+10)
termination_by TIMEOUT_MS-timeoutTick

/-- Wait for the controller's interrupt. -/
def floppyIrqWait (initTick : ℕ) : PortProg ℤ := irqWaitLoop initTick 0

/-- Ask for the interrupt's cause. -/
def floppySenseInterrupt (base : ℕ) : PortProg ℤ := do
  let ret ← floppyWriteCmd base CMD_SENSE_INTERRUPT []
  if ret≠0 then return ret
  else do
    let val ← floppyRead base
    if val<0 then return val
    else do
      let lh ← floppyRead base
      if lh<0 then return lh
      else return lh*256+val

/-- Switch the drive's motor. -/
def floppyMotor (base : ℕ) (drive motorOn : BitVec 8) : PortProg Unit := do
  let motor := (1#8<<<drive.toNat &&& motorOn<<<drive.toNat)<<<4
  outb (base+FLOPPY_DIGITAL_OUT_REG) (DOR_IRQ ||| DOR_RESET ||| (drive &&& 3#8) ||| motor)
  sleepMs 1000

/-- The end of one try to move to the first cylinder. Whatever the controller
says of it, another try follows. -/
def checkTrack (base irqTick : ℕ) : PortProg Unit := do
  let late ← floppyIrqWait irqTick
  if late≠0 then return ()
  else do
    let sense ← floppySenseInterrupt base
    if sense=FLOPPY_TIMEOUT then return ()
    else do
      let usense := BitVec.ofInt 16 sense
      let st1 := (usense>>>8).setWidth 8
      let cyl := usense.setWidth 8
      if st1 &&& (0xC0#8 ||| floppyDrive)≠(0xC0#8 ||| floppyDrive) then return ()
      else if cyl=0#8 then floppyMotor base floppyDrive 0#8
      else return ()

/-- The tries left. -/
def calibrateLoop (base : ℕ) : ℕ → PortProg ℤ
  | 0 => do
    floppyMotor base floppyDrive 0#8
    return 1
  | tries+1 => do
    let irqTick ← readTicks
    let ret ← floppyWriteCmd base CMD_RECALIBRATE [floppyDrive]
    if ret≠0 then return -1
    else do
      checkTrack base irqTick
      calibrateLoop base tries

/-- Move to the first cylinder. -/
def floppyCalibrate (base : ℕ) : PortProg ℤ := do
  floppyMotor base floppyDrive 1#8
  calibrateLoop base 3

/-- Parameters written with the timing command: the command's own number is
taken for their count, so that all but one come from the stack. -/
def specifyParams (stack : ℕ → BitVec 8) : List (BitVec 8) :=
  0x02#8::(List.range (0xDF-1)).map stack

/-- Reset the controller and set up the drive. The speed and the timing are
written behind other bases than the controller's. -/
def floppyReset (base floppyType : ℕ) (stack : ℕ → BitVec 8) : PortProg ℤ := do
  let _ ← inb (base+FLOPPY_DIGITAL_OUT_REG)
  sleepUs 100
  outb (base+FLOPPY_DIGITAL_OUT_REG) 0#8
  sleepMs 5
  outb (base+FLOPPY_DIGITAL_OUT_REG) (DOR_IRQ ||| DOR_RESET)
  let sense ← floppySenseInterrupt base
  if sense= -1 then return -1
  else do
    let speed := if floppyType=FLOPPY_2_88MB_3_5 then FLOPPY_1MBPS else FLOPPY_500KBPS
    let ret ← floppyWriteCmd (base+FLOPPY_CONFIG_REG) speed []
    if ret= -1 then return -1
    else do
      let ret ← floppyWriteCmd (base+CMD_SPECIFY) 2#8 (specifyParams stack)
      if ret= -1 then return -1
      else do
        let ret ← floppyCalibrate base
        if ret≠0 then return -1 else return 0

/-- The type of the drive, from the clock's memory: the slave's type replaces
the master's. -/
def floppyDetect : PortProg ℕ := do
  cmosSelectReg 0x10#8
  let dtypes ← cmosReadData
  let floppyType := if dtypes>>>4≠0#8 then (dtypes>>>4).toNat else 0
  return if dtypes &&& 0x0F#8≠0#8 then (dtypes &&& 0x0F#8).toNat else floppyType

/-- Set up the controller. The code of the reset says whether it failed. -/
def floppyInit (stack : ℕ → BitVec 8) : PortProg ℤ := do
  let floppyType ← floppyDetect
  floppyReset floppyBase floppyType stack

/-- The bases that the driver uses. -/
def bases : List ℕ := [floppyBase,floppyBase+FLOPPY_CONFIG_REG,floppyBase+CMD_SPECIFY]

/-- The status was looked at and allows a byte at a data port, since when only
time has passed. -/
structure Fdc where
  /-- The base of the data port. -/
  ready : Option ℕ

/-- The controller's protocol: data ports are touched behind a look that found
their controller ready to take a byte. -/
def fifo : Protocol PortCmd PortCmd.Answer Fdc where
  allowed s
    | .inb port => port=CMOS_DATA_PORT ∨ port=floppyBase+FLOPPY_DIGITAL_OUT_REG ∨
      (∃ base∈bases,port=base+FLOPPY_MAIN_STATUS_REG) ∨
      ∃ base∈bases,port=base+FLOPPY_DATA_FIFO ∧ s.ready=some base
    | .outb port _ => port=CMOS_COMMAND_PORT ∨ port=floppyBase+FLOPPY_DIGITAL_OUT_REG ∨
      ∃ base∈bases,port=base+FLOPPY_DATA_FIFO ∧ s.ready=some base
    | _ => True
  answered _ _ _ := True
  next s
    | .inb port,msr =>
      ⟨if FLOPPY_MAIN_STATUS_REG≤port ∧ port-FLOPPY_MAIN_STATUS_REG∈bases ∧
          takesByte msr=true then some (port-FLOPPY_MAIN_STATUS_REG) else none⟩
    | .outb _ _,_ => ⟨none⟩
    | _,_ => s

section

variable {β : Type} {s : Fdc} {base : ℕ} {post : β → Fdc → Prop}

/-- A look at the status. -/
theorem safe_status {f : BitVec 8 → PortProg β} (hbase : base∈bases)
    (hf : ∀ msr,Safe fifo (f msr) ⟨if takesByte msr=true then some base else none⟩ post) :
    Safe fifo (inb (base+FLOPPY_MAIN_STATUS_REG)>>=f) s post := by
  refine safe_inb.mpr ⟨.inr (.inr (.inl ⟨base,hbase,rfl⟩)),fun msr _ => ?_⟩
  have hnext : fifo.next s (.inb (base+FLOPPY_MAIN_STATUS_REG)) msr=
      ⟨if takesByte msr=true then some base else none⟩ := by
    simp only [fifo,Nat.le_add_left,Nat.add_sub_cancel,hbase,true_and]
  rw [hnext]
  exact hf msr

/-- A byte to a data port. -/
theorem safe_data {f : Unit → PortProg β} {data : BitVec 8} (hbase : base∈bases)
    (hready : s.ready=some base) (hf : Safe fifo (f ()) ⟨none⟩ post) :
    Safe fifo (outb (base+FLOPPY_DATA_FIFO) data>>=f) s post :=
  safe_outb.mpr ⟨.inr (.inr ⟨base,hbase,rfl,hready⟩),fun _ => hf⟩

/-- The wait says zero only behind a look that allows a byte. -/
theorem safe_floppyWaitLoop (hbase : base∈bases) (ticks : ℕ) (msr : BitVec 8)
    (hs : s.ready=if takesByte msr=true then some base else none) :
    Safe fifo (floppyWaitLoop base ticks msr) s fun late t => late=0 → t.ready=some base := by
  induction ticks, msr using floppyWaitLoop.induct generalizing s with
  | case1 ticks msr htakes =>
    rw [floppyWaitLoop,if_pos htakes]
    exact fun _ => hs.trans (if_pos htakes)
  | case2 ticks msr hbusy ih =>
    rw [floppyWaitLoop,if_neg hbusy]
    refine safe_status hbase fun msr => ?_
    split
    · exact fun hlate => absurd hlate one_ne_zero
    · rename_i hleft
      exact safe_sleepMs.mpr ⟨trivial,fun _ => ih msr hleft rfl⟩

/-- The wait for a byte's turn. -/
theorem safe_floppyWait (hbase : base∈bases) (s : Fdc) :
    Safe fifo (floppyWait base) s fun late t => late=0 → t.ready=some base :=
  safe_status hbase fun msr => safe_floppyWaitLoop hbase 0 msr rfl

/-- Reading a byte of a result. -/
theorem safe_floppyRead (hbase : base∈bases) (s : Fdc) :
    Safe fifo (floppyRead base) s fun _ _ => True := by
  refine (safe_floppyWait hbase s).bind fun late t ht => ?_
  by_cases hlate : late=0
  · rw [if_neg (not_not_intro hlate)]
    exact safe_inb.mpr ⟨.inr (.inr (.inr ⟨base,hbase,rfl,ht hlate⟩)),fun _ _ => trivial⟩
  · rw [if_pos hlate]
    trivial

/-- Writing parameters. -/
theorem safe_writeParams (hbase : base∈bases) (args : List (BitVec 8)) (s : Fdc) :
    Safe fifo (writeParams base args) s fun _ _ => True := by
  induction args generalizing s with
  | nil => trivial
  | cons arg args ih =>
    refine (safe_floppyWait hbase s).bind fun late t ht => ?_
    by_cases hlate : late=0
    · rw [if_neg (not_not_intro hlate)]
      exact safe_data hbase (ht hlate) (ih _)
    · rw [if_pos hlate]
      trivial

/-- Writing a command. -/
theorem safe_floppyWriteCmd (hbase : base∈bases) (cmd : BitVec 8) (args : List (BitVec 8))
    (s : Fdc) : Safe fifo (floppyWriteCmd base cmd args) s fun _ _ => True := by
  refine safe_status hbase fun msr => ?_
  by_cases htakes : takesByte msr=true
  · rw [if_neg (not_not_intro htakes)]
    exact safe_data hbase (if_pos htakes) (safe_writeParams hbase args _)
  · rw [if_pos htakes]
    trivial

/-- Waiting for the interrupt touches no port. -/
theorem safe_irqWaitLoop (initTick timeoutTick : ℕ) (s : Fdc) :
    Safe fifo (irqWaitLoop initTick timeoutTick) s fun _ _ => True := by
  induction timeoutTick using irqWaitLoop.induct with
  | case1 timeoutTick ih =>
    rw [irqWaitLoop]
    refine safe_readTicks.mpr ⟨trivial,fun tick _ => ?_⟩
    split
    · trivial
    · refine safe_sleepMs.mpr ⟨trivial,fun _ => ?_⟩
      split
      · trivial
      · rename_i hleft
        exact ih hleft

/-- Asking for the interrupt's cause. -/
theorem safe_floppySenseInterrupt (hbase : base∈bases) (s : Fdc) :
    Safe fifo (floppySenseInterrupt base) s fun _ _ => True := by
  refine (safe_floppyWriteCmd hbase _ [] s).bind fun ret t _ => ?_
  split
  · trivial
  · refine (safe_floppyRead hbase t).bind fun val u _ => ?_
    split
    · trivial
    · refine (safe_floppyRead hbase u).bind fun lh w _ => ?_
      split <;> trivial

/-- Switching the motor. -/
theorem safe_floppyMotor (drive motorOn : BitVec 8) (s : Fdc) :
    Safe fifo (floppyMotor floppyBase drive motorOn) s fun _ _ => True :=
  safe_outb.mpr ⟨.inr (.inl rfl),fun _ => ⟨trivial,fun _ _ => trivial⟩⟩

/-- The controller's base is one of the driver's. -/
theorem floppyBase_mem : floppyBase∈bases := List.mem_cons_self

/-- The end of a try. -/
theorem safe_checkTrack (irqTick : ℕ) (s : Fdc) :
    Safe fifo (checkTrack floppyBase irqTick) s fun _ _ => True := by
  refine (safe_irqWaitLoop irqTick 0 s).bind fun late t _ => ?_
  split
  · trivial
  · refine (safe_floppySenseInterrupt floppyBase_mem t).bind fun sense u _ => ?_
    split
    · trivial
    · dsimp only
      split
      · trivial
      · split
        · exact safe_floppyMotor _ _ u
        · trivial

/-- The calibration never says that it succeeded. -/
theorem safe_calibrateLoop (tries : ℕ) (s : Fdc) :
    Safe fifo (calibrateLoop floppyBase tries) s fun r _ => r≠0 := by
  induction tries generalizing s with
  | zero => exact (safe_floppyMotor _ _ s).bind fun _ _ _ => one_ne_zero
  | succ tries ih =>
    refine safe_readTicks.mpr ⟨trivial,fun irqTick _ => ?_⟩
    refine (safe_floppyWriteCmd floppyBase_mem _ _ _).bind fun ret t _ => ?_
    split
    · exact neg_ne_zero.mpr one_ne_zero
    · exact (safe_checkTrack irqTick t).bind fun _ u _ => ih u

/-- A reset fails. -/
theorem safe_floppyReset (floppyType : ℕ) (stack : ℕ → BitVec 8) (s : Fdc) :
    Safe fifo (floppyReset floppyBase floppyType stack) s fun r _ => r= -1 := by
  refine safe_inb.mpr ⟨.inr (.inl rfl),fun _ _ => ?_⟩
  refine ⟨trivial,fun _ _ => safe_outb.mpr ⟨.inr (.inl rfl),fun _ => ?_⟩⟩
  refine safe_sleepMs.mpr ⟨trivial,fun _ => safe_outb.mpr ⟨.inr (.inl rfl),fun _ => ?_⟩⟩
  refine (safe_floppySenseInterrupt floppyBase_mem _).bind fun sense t _ => ?_
  split
  · rfl
  · have hconfig : floppyBase+FLOPPY_CONFIG_REG∈bases := by simp [bases]
    have hspecify : floppyBase+CMD_SPECIFY∈bases := by simp [bases]
    refine (safe_floppyWriteCmd hconfig _ [] t).bind fun ret u _ => ?_
    split
    · rfl
    · refine (safe_floppyWriteCmd hspecify _ _ u).bind fun ret v _ => ?_
      split
      · rfl
      · refine Safe.bind ((safe_floppyMotor _ _ v).bind fun _ w _ => safe_calibrateLoop 3 w) ?_
        intro ret w hret
        rw [if_pos hret]
        rfl

/-- The setup fails. -/
theorem safe_floppyInit (stack : ℕ → BitVec 8) (s : Fdc) :
    Safe fifo (floppyInit stack) s fun r _ => r= -1 := by
  have hdetect : Safe fifo floppyDetect s fun _ _ => True := by
    refine safe_bind.mpr (safe_outb.mpr ⟨.inl rfl,fun _ => ⟨trivial,fun _ _ => ?_⟩⟩)
    exact safe_inb.mpr ⟨.inl rfl,fun _ _ => trivial⟩
  exact hdetect.bind fun floppyType t _ => safe_floppyReset floppyType stack t

end

/-! ## Time -/

section

variable {access ms base : ℕ}

/-- A wait that has gone on for some time. -/
theorem within_floppyWaitLoop (k ticks : ℕ) (msr : BitVec 8) (hk : TIMEOUT_MS≤ticks+10*(k+1)) :
    Within (weigh access ms) ((access+ms*10)*(k+1)) (floppyWaitLoop base ticks msr) := by
  induction k generalizing ticks msr with
  | zero =>
    rw [floppyWaitLoop]
    split
    · trivial
    · refine (within_inb (n:=ms*10) fun msr => ?_).mono (by omega)
      trivial
  | succ k ih =>
    rw [floppyWaitLoop]
    split
    · trivial
    · refine (within_inb (n:=(access+ms*10)*(k+1)+ms*10) fun msr => ?_).mono (by
        rw [Nat.mul_succ _ (k+1)]
        omega)
      split
      · trivial
      · exact within_sleepMs (ih (ticks+10) msr (by omega))

/-- Accesses and time of a wait. -/
abbrev waitCost (access ms : ℕ) : ℕ := (access+ms*10)*3000+access

/-- A wait for a byte's turn. -/
theorem within_floppyWait : Within (weigh access ms) (waitCost access ms) (floppyWait base) :=
  within_inb fun msr => within_floppyWaitLoop 2999 0 msr (by decide)

/-- Reading a byte of a result. -/
theorem within_floppyRead :
    Within (weigh access ms) (waitCost access ms+access) (floppyRead base) := by
  refine within_floppyWait.bind fun late => ?_
  split
  · trivial
  · exact ⟨le_rfl,fun _ => trivial⟩

/-- Writing parameters. -/
theorem within_writeParams (args : List (BitVec 8)) :
    Within (weigh access ms) (args.length*(waitCost access ms+access)) (writeParams base args) := by
  induction args with
  | nil => trivial
  | cons arg args ih =>
    rw [List.length_cons,Nat.succ_mul,Nat.add_comm,Nat.add_assoc]
    refine within_floppyWait.bind fun late => ?_
    split
    · trivial
    · rw [Nat.add_comm]
      exact within_outb ih

/-- Writing a command. -/
theorem within_floppyWriteCmd (cmd : BitVec 8) (args : List (BitVec 8)) :
    Within (weigh access ms) (args.length*(waitCost access ms+access)+access+access)
      (floppyWriteCmd base cmd args) := by
  refine within_inb fun msr => ?_
  split
  · trivial
  · exact within_outb (within_writeParams args)

/-- Waiting for the interrupt. -/
theorem within_irqWaitLoop (k initTick timeoutTick : ℕ)
    (hk : TIMEOUT_MS<timeoutTick+10*(k+1)) :
    Within (weigh access ms) (ms*10*(k+1)) (irqWaitLoop initTick timeoutTick) := by
  induction k generalizing timeoutTick with
  | zero =>
    rw [irqWaitLoop]
    refine within_readTicks fun tick => ?_
    split
    · trivial
    · refine (within_sleepMs (n:=0) ?_).mono (by omega)
      trivial
  | succ k ih =>
    rw [irqWaitLoop]
    refine within_readTicks fun tick => ?_
    split
    · trivial
    · rw [Nat.mul_succ]
      refine within_sleepMs ?_
      split
      · trivial
      · exact ih _ (by omega)

/-- Asking for the interrupt's cause. -/
theorem within_floppySenseInterrupt : Within (weigh access ms)
    (2*access+2*(waitCost access ms+access)) (floppySenseInterrupt base) := by
  have hcmd := @within_floppyWriteCmd access ms base CMD_SENSE_INTERRUPT []
  rw [List.length_nil,Nat.zero_mul,Nat.zero_add,←Nat.two_mul] at hcmd
  refine hcmd.bind fun ret => ?_
  split
  · trivial
  · rw [Nat.two_mul]
    refine within_floppyRead.bind fun val => ?_
    split
    · trivial
    · refine within_floppyRead.bind_free fun lh => ?_
      split <;> trivial

/-- Switching the motor. -/
theorem within_floppyMotor (drive motorOn : BitVec 8) :
    Within (weigh access ms) (ms*1000+access) (floppyMotor base drive motorOn) :=
  within_outb (@within_sleep access ms 1000)

/-- Accesses and time of the end of a try. -/
abbrev checkCost (access ms : ℕ) : ℕ :=
  ms*10*3001+(2*access+2*(waitCost access ms+access)+(ms*1000+access))

/-- The end of a try. -/
theorem within_checkTrack (irqTick : ℕ) :
    Within (weigh access ms) (checkCost access ms) (checkTrack base irqTick) := by
  refine (within_irqWaitLoop 3000 irqTick 0 (by decide)).bind fun late => ?_
  split
  · trivial
  · refine within_floppySenseInterrupt.bind fun sense => ?_
    split
    · trivial
    · dsimp only
      split
      · trivial
      · split
        · exact within_floppyMotor _ _
        · trivial

/-- Accesses and time of a try. -/
abbrev tryCost (access ms : ℕ) : ℕ :=
  [floppyDrive].length*(waitCost access ms+access)+access+access+checkCost access ms

/-- The calibration. -/
theorem within_calibrateLoop (tries : ℕ) : Within (weigh access ms)
    (tries*tryCost access ms+(ms*1000+access)) (calibrateLoop base tries) := by
  induction tries with
  | zero =>
    rw [Nat.zero_mul,Nat.zero_add]
    exact (within_floppyMotor _ _).bind_free fun _ => trivial
  | succ tries ih =>
    rw [Nat.succ_mul,Nat.add_comm (tries*_),Nat.add_assoc,Nat.add_assoc]
    have hcmd := @within_floppyWriteCmd access ms base CMD_RECALIBRATE [floppyDrive]
    refine within_readTicks fun irqTick => hcmd.bind fun ret => ?_
    split
    · trivial
    · exact (within_checkTrack irqTick).bind fun _ => ih

/-- Accesses and time of the calibration, behind the motor's start. -/
abbrev calibrateCost (access ms : ℕ) : ℕ :=
  ms*1000+access+(3*tryCost access ms+(ms*1000+access))

/-- Accesses and time of the steps behind the reset itself. -/
abbrev stepsCost (access ms : ℕ) : ℕ :=
  2*access+2*(waitCost access ms+access)+(0*(waitCost access ms+access)+access+access+
    (0xDF*(waitCost access ms+access)+access+access+calibrateCost access ms))

/-- A reset. -/
theorem within_floppyReset (floppyType : ℕ) (stack : ℕ → BitVec 8) : Within (weigh access ms)
    (stepsCost access ms+access+ms*5+access+access) (floppyReset base floppyType stack) := by
  have hlength : (specifyParams stack).length=0xDF := by simp [specifyParams]
  have hspecify := @within_floppyWriteCmd access ms (base+CMD_SPECIFY) 2#8 (specifyParams stack)
  rw [hlength] at hspecify
  refine within_inb fun _ => within_sleepUs (within_outb (within_sleepMs (within_outb ?_)))
  refine within_floppySenseInterrupt.bind fun sense => ?_
  split
  · trivial
  · dsimp only
    refine (within_floppyWriteCmd _ []).bind fun ret => ?_
    split
    · trivial
    · refine hspecify.bind fun ret => ?_
      split
      · trivial
      · refine ((within_floppyMotor _ _).bind fun _ => within_calibrateLoop 3).bind_free
          fun ret => ?_
        split <;> trivial

/-- Accesses and time of the setup. -/
theorem within_floppyInit (stack : ℕ → BitVec 8) : Within (weigh access ms)
    (ms*50+access+access+(stepsCost access ms+access+ms*5+access+access))
    (floppyInit stack) := by
  have hdetect : Within (weigh access ms) (ms*50+access+access) floppyDetect := by
    have hselect : Within (weigh access ms) (ms*50+access) (cmosSelectReg 0x10#8) :=
      within_outb (@within_sleep access ms 50)
    refine hselect.bind fun _ => ?_
    exact ⟨le_rfl,fun _ => trivial⟩
  exact hdetect.bind fun floppyType => within_floppyReset floppyType stack

end

/-- Whatever the controller answers, whenever it interrupts and whatever stands
on the stack, the setup touches the data ports only behind a look that allows a
byte, ends within a bounded number of accesses and a bounded time asleep, and
fails. -/
theorem floppyInit_talks {stack : ℕ → BitVec 8} {es : List (Exchange PortCmd PortCmd.Answer)}
    {q : PortProg ℤ} (h : Talk (floppyInit stack) es q) :
    fifo.Lawful ⟨none⟩ es ∧ (es.map fun e => portCost e.1).sum≤702496 ∧
      (es.map fun e => sleepCost e.1).sum≤7115085 ∧ ∀ r,q=.done r → r= -1 := by
  obtain ⟨hlawful,hrest⟩ := (safe_floppyInit stack ⟨none⟩).talk h
    (honest_of_forall (fun _ _ _ => trivial) _ es)
  have hports := (@within_floppyInit 1 0 stack).talk h
  have hsleep := (@within_floppyInit 0 1 stack).talk h
  refine ⟨hlawful,hports.trans (by decide),hsleep.trans (by decide),fun r hr => ?_⟩
  rw [hr] at hrest
  exact hrest

/-- A controller that takes every byte and interrupts at once. -/
theorem floppyInit_talks_ready : ∃ es,Talk (floppyInit fun _ => 0#8) es (.done (-1)) ∧
    fifo.Lawful ⟨none⟩ es := by
  have htalk := talk_play (m:=fifo) (fun _ => answering MSR_RQM) (floppyInit fun _ => 0#8) ⟨none⟩
  obtain ⟨hlawful,-,-,hend⟩ := floppyInit_talks htalk
  rw [hend _ rfl] at htalk
  exact ⟨_,htalk,hlawful⟩

end XanaduOS.FloppyDriver
