import XanaduOS.DevicePrograms

/-!
# Setting up the PS/2 controller

The driver waits before each access of the controller: for a free input buffer
before a write, for a byte before a read. It gives up waiting after a number of
polls and makes the access anyway. So whatever the controller answers, the
setup ends, keeps to the controller's handshake but for the waits it gave up,
and writes its commands in one order.
-/

namespace XanaduOS.Ps2Controller

open DevicePrograms

/-- Port of the commands and of the status. -/
abbrev PS2_COMMAND_PORT : ℕ := 0x64

/-- Port of the data. -/
abbrev PS2_DATA_PORT : ℕ := 0x60

/-- Command: enable the auxiliary device. -/
abbrev PS2_ENABLE_AUX : BitVec 8 := 0xA8#8

/-- Command: read the configuration. -/
abbrev PS2_GET_COMPAQ_STAT : BitVec 8 := 0x20#8

/-- Command: write the configuration. -/
abbrev PS2_SET_COMPAQ_STAT : BitVec 8 := 0x60#8

/-- Command: the next byte is for the mouse. -/
abbrev PS2_WRITE_AUX : BitVec 8 := 0xD4#8

/-- For the mouse: the default settings. -/
abbrev PS2_SET_DEFAULTS : BitVec 8 := 0xF6#8

/-- For the mouse: report movements. -/
abbrev PS2_ENABLE_STREAMING : BitVec 8 := 0xF4#8

/-- Polls of one wait. -/
abbrev TIME_OUT : ℕ := 100000

/-- The status allows an access: a read, for type zero, or a write. -/
def ready (aType : ℕ) (stat : BitVec 8) : Bool :=
  if aType=0 then stat &&& 1#8 = 1#8 else stat &&& 2#8 = 0#8

/-- Poll the status until it allows an access, for a number of times. -/
def mouseWaitLoop (aType : ℕ) : ℕ → PortProg Unit
  | 0 => pure ()
  | timeOut+1 => do
    let stat ← inb PS2_COMMAND_PORT
    if ready aType stat=true then pure () else mouseWaitLoop aType timeOut

/-- Wait for an access. -/
def mouseWait (aType : ℕ) : PortProg Unit := mouseWaitLoop aType TIME_OUT

/-- The configuration with the mouse's interrupt on and its clock running. -/
def compaqStat (stat : BitVec 8) : BitVec 8 := (stat ||| 2#8) &&& ~~~0x20#8

/-- Set up the controller and the mouse. -/
def ps2Init : PortProg ℕ := do
  mouseWait 1
  outb PS2_COMMAND_PORT PS2_ENABLE_AUX
  mouseWait 1
  outb PS2_COMMAND_PORT PS2_GET_COMPAQ_STAT
  mouseWait 0
  let stat ← inb PS2_DATA_PORT
  mouseWait 1
  outb PS2_COMMAND_PORT PS2_SET_COMPAQ_STAT
  mouseWait 1
  outb PS2_DATA_PORT (compaqStat stat)
  mouseWait 1
  outb PS2_COMMAND_PORT PS2_WRITE_AUX
  mouseWait 1
  outb PS2_DATA_PORT PS2_SET_DEFAULTS
  mouseWait 0
  let _ ← inb PS2_DATA_PORT
  mouseWait 1
  outb PS2_COMMAND_PORT PS2_WRITE_AUX
  mouseWait 1
  outb PS2_DATA_PORT PS2_ENABLE_STREAMING
  mouseWait 0
  let _ ← inb PS2_DATA_PORT
  return 0

/-- What the driver knows of the controller. -/
structure Link where
  /-- The last status read since the last access. -/
  status : Option (BitVec 8)
  /-- Status reads since the last access. -/
  polls : ℕ
  /-- Writes, the last one first. -/
  written : List (ℕ×BitVec 8)
  /-- Bytes read, the last one first. -/
  received : List (BitVec 8)

/-- An access may be made: the last status allows it, or a whole wait was in
vain. -/
def Link.Open (s : Link) (aType : ℕ) : Prop :=
  (∃ stat,s.status=some stat ∧ ready aType stat=true) ∨ TIME_OUT ≤ s.polls

/-- The controller's handshake. -/
def handshake : Protocol PortCmd PortCmd.Answer Link where
  allowed s
    | .inb port => port=PS2_COMMAND_PORT ∨ port=PS2_DATA_PORT ∧ s.Open 0
    | .outb port _ => (port=PS2_COMMAND_PORT ∨ port=PS2_DATA_PORT) ∧ s.Open 1
    | _ => False
  answered _ _ _ := True
  next s
    | .inb port,stat =>
      if port=PS2_COMMAND_PORT then {s with status := some stat,polls := s.polls+1}
      else ⟨none,0,s.written,stat::s.received⟩
    | .outb port data,_ => ⟨none,0,(port,data)::s.written,s.received⟩
    | _,_ => s

/-- Before the setup. -/
def fresh : Link := ⟨none,0,[],[]⟩

variable {s : Link} {aType : ℕ}

/-- A wait ends with the access open, and makes none. -/
theorem safe_mouseWaitLoop (timeOut : ℕ) (hpolls : TIME_OUT ≤ s.polls+timeOut) :
    Safe handshake (mouseWaitLoop aType timeOut) s fun _ t =>
      t.Open aType ∧ t.written=s.written ∧ t.received=s.received := by
  induction timeOut generalizing s with
  | zero => exact ⟨.inr hpolls,rfl,rfl⟩
  | succ timeOut ih =>
    refine safe_inb.mpr ⟨.inl rfl,fun stat _ => ?_⟩
    by_cases hready : ready aType stat=true
    · rw [if_pos hready]
      exact ⟨.inl ⟨stat,rfl,hready⟩,rfl,rfl⟩
    · rw [if_neg hready]
      refine ih ?_
      change TIME_OUT ≤ s.polls+1+timeOut
      omega

/-- A wait before an access. -/
theorem safe_mouseWait (s : Link) (aType : ℕ) : Safe handshake (mouseWait aType) s fun _ t =>
    t.Open aType ∧ t.written=s.written ∧ t.received=s.received :=
  safe_mouseWaitLoop TIME_OUT (Nat.le_add_left _ _)

/-- A command or a byte after a wait. -/
theorem safe_write {port : ℕ} {data : BitVec 8} {f : Unit → PortProg ℕ} {post : ℕ → Link → Prop}
    (hport : port=PS2_COMMAND_PORT ∨ port=PS2_DATA_PORT)
    (hf : Safe handshake (f ()) ⟨none,0,(port,data)::s.written,s.received⟩ post) :
    Safe handshake (mouseWait 1>>=fun _ => outb port data>>=f) s post := by
  refine (safe_mouseWait s 1).bind fun _ t ht => safe_outb.mpr ⟨⟨hport,ht.1⟩,fun _ => ?_⟩
  rw [←ht.2.1,←ht.2.2] at hf
  exact hf

/-- A byte after a wait. -/
theorem safe_read {f : BitVec 8 → PortProg ℕ} {post : ℕ → Link → Prop}
    (hf : ∀ v,Safe handshake (f v) ⟨none,0,s.written,v::s.received⟩ post) :
    Safe handshake (mouseWait 0>>=fun _ => inb PS2_DATA_PORT>>=f) s post := by
  refine (safe_mouseWait s 0).bind fun _ t ht => safe_inb.mpr ⟨.inr ⟨rfl,ht.1⟩,fun v _ => ?_⟩
  have hv := hf v
  rw [←ht.2.1,←ht.2.2] at hv
  exact hv

/-- The commands of a setup, in order. -/
def setupWrites (stat : BitVec 8) : List (ℕ×BitVec 8) :=
  [(PS2_COMMAND_PORT,PS2_ENABLE_AUX),(PS2_COMMAND_PORT,PS2_GET_COMPAQ_STAT),
    (PS2_COMMAND_PORT,PS2_SET_COMPAQ_STAT),(PS2_DATA_PORT,compaqStat stat),
    (PS2_COMMAND_PORT,PS2_WRITE_AUX),(PS2_DATA_PORT,PS2_SET_DEFAULTS),
    (PS2_COMMAND_PORT,PS2_WRITE_AUX),(PS2_DATA_PORT,PS2_ENABLE_STREAMING)]

/-- The setup keeps to the handshake and gives its commands in order. The
first byte read is the configuration that is changed. -/
theorem safe_ps2Init : Safe handshake ps2Init fresh fun r t => r=0 ∧
    ∃ stat ack ack',t.received.reverse=[stat,ack,ack'] ∧
      t.written.reverse=setupWrites stat := by
  refine safe_write (.inl rfl) (safe_write (.inl rfl) (safe_read fun stat => ?_))
  refine safe_write (.inl rfl) (safe_write (.inr rfl) ?_)
  refine safe_write (.inl rfl) (safe_write (.inr rfl) (safe_read fun ack => ?_))
  refine safe_write (.inl rfl) (safe_write (.inr rfl) (safe_read fun ack' => ?_))
  exact ⟨rfl,stat,ack,ack',rfl,rfl⟩

/-- Port accesses of a wait. -/
theorem within_mouseWaitLoop (aType timeOut : ℕ) :
    Within portCost timeOut (mouseWaitLoop aType timeOut) := by
  induction timeOut with
  | zero => trivial
  | succ timeOut ih =>
    refine within_inb fun stat => ?_
    split
    · trivial
    · exact ih

/-- Port accesses of a write with its wait. -/
theorem within_write {n port : ℕ} {data : BitVec 8} {f : Unit → PortProg ℕ}
    (h : Within portCost n (f ())) :
    Within portCost (TIME_OUT+(n+1)) (mouseWait 1>>=fun _ => outb port data>>=f) :=
  (within_mouseWaitLoop 1 TIME_OUT).bind fun _ => within_outb h

/-- Port accesses of a read with its wait. -/
theorem within_read {n port : ℕ} {f : BitVec 8 → PortProg ℕ} (h : ∀ v,Within portCost n (f v)) :
    Within portCost (TIME_OUT+(n+1)) (mouseWait 0>>=fun _ => inb port>>=f) :=
  (within_mouseWaitLoop 0 TIME_OUT).bind fun _ => within_inb h

/-- Port accesses of the setup: eleven waits and the accesses behind them. -/
theorem within_ps2Init : Within portCost (11*(TIME_OUT+1)) ps2Init := by
  have hend : Within portCost 0 (pure 0 : PortProg ℕ) := trivial
  have hsetup : Within portCost _ ps2Init :=
    within_write (within_write (within_read fun _ => within_write (within_write (within_write
      (within_write (within_read fun _ => within_write (within_write (within_read
        fun _ => hend))))))))
  exact hsetup.mono (by norm_num)

/-- Whatever the controller answers, the setup keeps to the handshake, makes a
bounded number of accesses, and when it ends it has written its commands in
order, with the configuration that it was told but for the mouse's two bits. -/
theorem ps2Init_talks {es : List (Exchange PortCmd PortCmd.Answer)} {q : PortProg ℕ}
    (h : Talk ps2Init es q) : handshake.Lawful fresh es ∧
      (es.map fun e => portCost e.1).sum≤11*(TIME_OUT+1) ∧
      ∀ r,q=.done r → r=0 ∧ ∃ stat ack ack',
        (handshake.after fresh es).received.reverse=[stat,ack,ack'] ∧
        (handshake.after fresh es).written.reverse=setupWrites stat := by
  obtain ⟨hlawful,hrest⟩ := safe_ps2Init.talk h (honest_of_forall (fun _ _ _ => trivial) fresh es)
  refine ⟨hlawful,within_ps2Init.talk h,fun r hr => ?_⟩
  rw [hr] at hrest
  exact hrest

/-- A controller whose every status says that there is a byte. -/
theorem ps2Init_talks_ready : ∃ es,Talk ps2Init es (.done 0) ∧ handshake.Lawful fresh es ∧
    (es.map fun e => portCost e.1).sum≤1100011 := by
  have htalk := talk_play (m:=handshake) (fun _ => answering 1#8) ps2Init fresh
  obtain ⟨hlawful,hcost,hend⟩ := ps2Init_talks htalk
  obtain ⟨hr,-⟩ := hend _ rfl
  rw [hr] at htalk
  exact ⟨_,htalk,hlawful,hcost⟩

end XanaduOS.Ps2Controller
