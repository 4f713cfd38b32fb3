import Mathlib.Data.List.GetD
import XanaduOS.Runs
import XanaduOS.Slibc

/-!
# The serial port's output queue

A call queues its buffer behind the bytes that are still pending, sends the
buffer's first byte itself, and counts it as the next pending one. Interrupts
send the pending bytes. A call is split at its statements, so that interrupts
also come between them. The bytes leave in order when every call finds nothing
pending, or its first byte next, and is not interrupted by a sending before its
own.
-/

namespace XanaduOS.SerialQueue

open Runs Slibc

/-- Bytes of a buffer. -/
abbrev BUF_SIZE : ℕ := 1024

/-- The driver's buffers and what it put on the port. -/
structure Serial where
  /-- `write_buf`. -/
  writeBuf : ℕ → Char
  /-- `read_buf`. -/
  readBuf : ℕ → Char
  /-- Bytes queued. -/
  writePos : ℕ
  /-- Bytes received. -/
  readPos : ℕ
  /-- Bytes counted as sent. -/
  curPos : ℕ
  /-- Bytes put on the port, in order. -/
  sent : List Char

/-- Put a byte on the port. -/
def serialSend (st : Serial) (data : Char) : Serial := {st with sent := st.sent++[data]}

/-- Queue a buffer: the copy that a call makes first. -/
def copyBuf (st : Serial) (buf : List Char) : Serial :=
  {st with writeBuf := strcpy st.writeBuf st.writePos buf}

/-- Count a byte as sent. -/
def advance (st : Serial) : Serial := {st with curPos := st.curPos+1}

/-- Move the end of the queue. -/
def enqueue (st : Serial) (buf : List Char) : Serial :=
  {st with writePos := st.writePos+buf.length}

/-- Queue a buffer and send its first byte when the line is free. -/
def serialWrite (st : Serial) (buf : List Char) : Serial :=
  serialSend (enqueue (advance (copyBuf st buf)) buf) (charAt buf 0)

/-- Send a pending byte on a free line, and take a byte that has come in. -/
def serialInterrupt (st : Serial) (txFree : Bool) (rx : Option Char) : Serial :=
  let st :=
    if txFree ∧ st.curPos≠st.writePos then
      let st := advance st
      serialSend st (st.writeBuf (st.curPos-1))
    else st
  match rx with
  | none => st
  | some data =>
    let st := {st with readPos := st.readPos+1}
    {st with readBuf := Function.update st.readBuf (st.readPos-1) data}

/-- How far a call has come. -/
inductive Phase
  /-- No call is running. -/
  | idle
  /-- The buffer has been copied. -/
  | copied (buf : List Char)
  /-- Its first byte has been counted. -/
  | counted (buf : List Char)
  /-- The end of the queue has been moved; the call waits for the line. -/
  | queued (buf : List Char)

/-- The driver, possibly in the middle of a call. -/
structure Machine where
  /-- Buffers and port. -/
  port : Serial
  /-- The call that is running. -/
  phase : Phase

/-- Statements of a call, and interrupts. -/
inductive Event
  /-- A call copies its buffer. -/
  | copy (buf : List Char)
  /-- It counts the first byte. -/
  | count
  /-- It moves the end of the queue. -/
  | queue
  /-- It finds the line free and sends the first byte. -/
  | send
  /-- An interrupt. -/
  | interrupt (txFree : Bool) (rx : Option Char)

/-- One statement or interrupt. Buffers are not empty and fit the queue. -/
def step (m : Machine) : Event → Option Machine
  | .copy buf =>
    match m.phase with
    | .idle =>
      if buf≠[] ∧ m.port.writePos+buf.length≤BUF_SIZE then some ⟨copyBuf m.port buf,.copied buf⟩
      else none
    | _ => none
  | .count =>
    match m.phase with
    | .copied buf => some ⟨advance m.port,.counted buf⟩
    | _ => none
  | .queue =>
    match m.phase with
    | .counted buf => some ⟨enqueue m.port buf,.queued buf⟩
    | _ => none
  | .send =>
    match m.phase with
    | .queued buf => some ⟨serialSend m.port (charAt buf 0),.idle⟩
    | _ => none
  | .interrupt txFree rx => some ⟨serialInterrupt m.port txFree rx,m.phase⟩

/-- Nothing queued and nothing sent. -/
def start (writeBuf readBuf : ℕ → Char) : Machine := ⟨⟨writeBuf,readBuf,0,0,0,[]⟩,.idle⟩

/-- Bytes passed by an event. -/
def passedBy : Event → List Char
  | .copy buf => buf
  | .count => []
  | .queue => []
  | .send => []
  | .interrupt _ _ => []

/-- Bytes passed by calls, in order. -/
def passed (events : List Event) : List Char := events.flatMap passedBy

/-- An interrupt has nothing to send. -/
def Quiet (st : Serial) (txFree : Bool) : Prop := txFree=true → st.curPos=st.writePos

/-- No interrupt sends between the count of a call's first byte and its own
sending. -/
def Undisturbed (m : Machine) : Event → Prop
  | .interrupt txFree _ =>
    match m.phase with
    | .idle => True
    | .copied _ => True
    | .counted _ => Quiet m.port txFree
    | .queued _ => Quiet m.port txFree
  | _ => True

/-- A call counts its first byte when nothing is pending, or when that byte is
the one pending next. -/
def Next (m : Machine) : Event → Prop
  | .count =>
    match m.phase with
    | .copied buf => m.port.curPos=m.port.writePos ∨ charAt buf 0=m.port.writeBuf m.port.curPos
    | _ => True
  | _ => True

/-! ## Order of the bytes -/

/-- Where the cursors are, by phase. -/
def Placed (st : Serial) (bytes : List Char) : Phase → Prop
  | .idle => st.curPos=st.sent.length ∧ st.sent.length ≤ st.writePos ∧ st.writePos=bytes.length
  | .copied buf => st.curPos=st.sent.length ∧ st.sent.length ≤ st.writePos ∧ buf≠[] ∧
      ∃ front,bytes=front++buf ∧ front.length=st.writePos
  | .counted buf => st.curPos=st.sent.length+1 ∧ st.sent.length ≤ st.writePos ∧ buf≠[] ∧
      st.writePos+buf.length=bytes.length
  | .queued _ => st.curPos=st.sent.length+1 ∧ st.sent.length<st.writePos ∧
      st.writePos=bytes.length

/-- The queue holds the bytes passed. -/
structure Queued (m : Machine) (bytes : List Char) : Prop where
  /-- Contents of the buffer. -/
  buffer : ∀ i<bytes.length,m.port.writeBuf i=charAt bytes i
  /-- The cursors. -/
  placed : Placed m.port bytes m.phase

/-- A call's own byte is the next one to send. -/
def OwnNext (st : Serial) (bytes : List Char) : Phase → Prop
  | .idle => True
  | .copied _ => True
  | .counted buf => charAt buf 0=charAt bytes st.sent.length
  | .queued buf => charAt buf 0=charAt bytes st.sent.length

/-- The bytes sent are the first ones passed. -/
def InOrder (m : Machine) (bytes : List Char) : Prop :=
  m.port.sent=bytes.take m.port.sent.length ∧ OwnNext m.port bytes m.phase

/-- What an event does: the queue holds what is passed, and the order is kept
exactly when a condition holds. -/
def Keeps (m m' : Machine) (bytes bytes' : List Char) (condition : Prop) : Prop :=
  Queued m' bytes' ∧ (InOrder m' bytes' ↔ InOrder m bytes ∧ condition)

/-- A byte put on the port is in order when it is the next one. -/
theorem send_inOrder_iff {st : Serial} {bytes : List Char} (h : st.sent.length<bytes.length)
    (data : Char) :
    (serialSend st data).sent=bytes.take (serialSend st data).sent.length ↔
      st.sent=bytes.take st.sent.length ∧ data=charAt bytes st.sent.length := by
  have htake : bytes.take (st.sent.length+1)=
      bytes.take st.sent.length++[charAt bytes st.sent.length] := by
    rw [charAt,List.getD_eq_getElem _ _ h,List.take_succ_eq_append_getElem h]
  simp only [serialSend,List.length_append,List.length_singleton]
  rw [htake]
  constructor
  · intro heq
    obtain ⟨hsent,hdata⟩ := List.append_inj' heq rfl
    exact ⟨hsent,List.singleton_inj.mp hdata⟩
  · rintro ⟨hsent,hdata⟩
    rw [←hsent,hdata]

variable {bytes : List Char} {st : Serial} {buf : List Char} {phase : Phase}

/-- Copying a buffer queues its bytes behind the others. -/
theorem Queued.copy (h : Queued ⟨st,.idle⟩ bytes) (hbuf : buf≠[]) :
    Keeps ⟨st,.idle⟩ ⟨copyBuf st buf,.copied buf⟩ bytes (bytes++buf) True := by
  obtain ⟨hcur,hle,hend⟩ := h.placed
  simp only at hcur hle hend
  refine ⟨⟨?_,hcur,hle,hbuf,bytes,rfl,hend.symm⟩,?_⟩
  · intro i hi
    rw [List.length_append] at hi
    simp only [copyBuf]
    rw [strcpy_apply,hend]
    by_cases hlt : i<bytes.length
    · rw [if_neg (by omega),h.buffer i hlt,charAt,charAt,List.getD_append _ _ _ _ hlt]
    · rw [if_pos (by omega),charAt,charAt,List.getD_append_right _ _ _ _ (by omega)]
  · simp only [InOrder,OwnNext,copyBuf,and_true]
    rw [List.take_append_of_le_length (by omega)]

/-- Counting the first byte of a buffer keeps the order when it is next. -/
theorem Queued.count (h : Queued ⟨st,.copied buf⟩ bytes) :
    Keeps ⟨st,.copied buf⟩ ⟨advance st,.counted buf⟩ bytes bytes
      (Next ⟨st,.copied buf⟩ .count) := by
  obtain ⟨hcur,hle,hbuf,front,rfl,hfront⟩ := h.placed
  simp only at hcur hle hfront
  have hpos : 0<buf.length := List.length_pos_iff.mpr hbuf
  refine ⟨⟨h.buffer,congrArg (· + 1) hcur,hle,hbuf,?_⟩,?_⟩
  · rw [List.length_append,hfront]
    rfl
  · have hown : charAt buf 0=charAt (front++buf) st.sent.length ↔
        Next ⟨st,.copied buf⟩ .count := by
      rw [←hcur]
      by_cases hend : st.curPos=st.writePos
      · refine iff_of_true ?_ (Or.inl hend)
        rw [hend,←hfront,charAt,charAt,List.getD_append_right _ _ _ _ (Nat.le_refl _),Nat.sub_self]
      · rw [←h.buffer st.curPos (by rw [List.length_append]; omega)]
        exact ⟨Or.inr,fun hnext => hnext.resolve_left hend⟩
    simp only [InOrder,OwnNext,advance,and_true]
    rw [hown]

/-- Moving the end of the queue. -/
theorem Queued.queue (h : Queued ⟨st,.counted buf⟩ bytes) :
    Keeps ⟨st,.counted buf⟩ ⟨enqueue st buf,.queued buf⟩ bytes bytes True := by
  obtain ⟨hcur,hle,hbuf,hlen⟩ := h.placed
  have hpos : 0<buf.length := List.length_pos_iff.mpr hbuf
  refine ⟨⟨h.buffer,hcur,?_,hlen⟩,iff_of_eq (and_true _).symm⟩
  simp only [enqueue] at hle ⊢
  omega

/-- Sending the first byte. -/
theorem Queued.send (h : Queued ⟨st,.queued buf⟩ bytes) :
    Keeps ⟨st,.queued buf⟩ ⟨serialSend st (charAt buf 0),.idle⟩ bytes bytes True := by
  obtain ⟨hcur,hlt,hlen⟩ := h.placed
  simp only at hcur hlt hlen
  refine ⟨⟨h.buffer,?_⟩,?_⟩
  · simp only [Placed,serialSend,List.length_append,List.length_singleton]
    exact ⟨hcur,hlt,hlen⟩
  · simp only [InOrder,OwnNext,and_true]
    exact send_inOrder_iff (by omega) _

/-- An interrupt in front of or behind a call sends the next byte. -/
theorem Queued.transmit (h : Queued ⟨st,phase⟩ bytes)
    (hphase : phase=.idle ∨ ∃ buf,phase=.copied buf) (hne : st.curPos≠st.writePos) :
    Keeps ⟨st,phase⟩ ⟨serialSend (advance st) (st.writeBuf st.curPos),phase⟩ bytes bytes True := by
  have hcursor : st.curPos=st.sent.length ∧ st.sent.length<st.writePos ∧
      st.writePos≤bytes.length := by
    rcases hphase with rfl|⟨buf,rfl⟩
    · obtain ⟨hcur,hle,hend⟩ := h.placed
      simp only at hcur hle hend
      omega
    · obtain ⟨hcur,hle,-,front,rfl,hfront⟩ := h.placed
      simp only at hcur hle hfront
      rw [List.length_append]
      omega
  obtain ⟨hcur,hlt,hend⟩ := hcursor
  have hown : ∀ {st : Serial},OwnNext st bytes phase := by
    rcases hphase with rfl|⟨buf,rfl⟩ <;> exact trivial
  refine ⟨⟨h.buffer,?_⟩,?_⟩
  · have hplaced := h.placed
    rcases hphase with rfl|⟨buf,rfl⟩
    · simp only [Placed,serialSend,advance,List.length_append,List.length_singleton] at hplaced ⊢
      exact ⟨by rw [hcur],hlt,hplaced.2.2⟩
    · simp only [Placed,serialSend,advance,List.length_append,List.length_singleton] at hplaced ⊢
      exact ⟨by rw [hcur],hlt,hplaced.2.2⟩
  · have hdata : st.writeBuf st.curPos=charAt bytes st.sent.length := by
      rw [hcur]
      exact h.buffer _ (by omega)
    simp only [InOrder,hown,and_true]
    have hadvance : (advance st).sent.length<bytes.length := by
      simp only [advance]
      omega
    refine (send_inOrder_iff hadvance _).trans ?_
    simp only [advance,hdata,and_true]

/-- An interrupt that does not send in the middle of a call keeps the order. -/
theorem Queued.interrupt (h : Queued ⟨st,phase⟩ bytes) {txFree : Bool} {rx : Option Char}
    (hquiet : Undisturbed ⟨st,phase⟩ (.interrupt txFree rx)) :
    Keeps ⟨st,phase⟩ ⟨serialInterrupt st txFree rx,phase⟩ bytes bytes True := by
  have hsend : Keeps ⟨st,phase⟩ ⟨if txFree ∧ st.curPos≠st.writePos then
      serialSend (advance st) (st.writeBuf st.curPos) else st,phase⟩ bytes bytes True := by
    split
    case isFalse => exact ⟨h,iff_of_eq (and_true _).symm⟩
    case isTrue hfree =>
      cases phase with
      | idle => exact h.transmit (Or.inl rfl) hfree.2
      | copied buf => exact h.transmit (Or.inr ⟨buf,rfl⟩) hfree.2
      | counted buf => exact absurd (hquiet hfree.1) hfree.2
      | queued buf => exact absurd (hquiet hfree.1) hfree.2
  cases rx with
  | none => exact hsend
  | some data => exact ⟨⟨hsend.1.buffer,hsend.1.placed⟩,hsend.2⟩

/-- One event keeps the order exactly when a call's byte is next. -/
theorem Queued.step {m m' : Machine} (h : Queued m bytes) {e : Event} (hquiet : Undisturbed m e)
    (hstep : step m e=some m') : Keeps m m' bytes (bytes++passedBy e) (Next m e) := by
  obtain ⟨st,phase⟩ := m
  cases e with
  | copy buf =>
    cases phase <;> simp only [SerialQueue.step,reduceCtorEq] at hstep
    split at hstep
    case isTrue hfit =>
      obtain rfl := Option.some.inj hstep
      exact h.copy hfit.1
    case isFalse => simp at hstep
  | count =>
    cases phase <;> simp only [SerialQueue.step,reduceCtorEq,Option.some.injEq] at hstep
    subst hstep
    rw [passedBy,List.append_nil]
    exact h.count
  | queue =>
    cases phase <;> simp only [SerialQueue.step,reduceCtorEq,Option.some.injEq] at hstep
    subst hstep
    rw [passedBy,List.append_nil]
    exact h.queue
  | send =>
    cases phase <;> simp only [SerialQueue.step,reduceCtorEq,Option.some.injEq] at hstep
    subst hstep
    rw [passedBy,List.append_nil]
    exact h.send
  | interrupt txFree rx =>
    obtain rfl := Option.some.inj hstep
    rw [passedBy,List.append_nil]
    exact h.interrupt hquiet

/-- A run keeps the order exactly when every call's byte is next. -/
theorem Queued.run {m m' : Machine} {events : List Event}
    (hrun : Run (Guarded (Steps SerialQueue.step) Undisturbed) m events m')
    (h : Queued m bytes) :
    Keeps m m' bytes (bytes++passed events)
      (Run (Guarded (Steps SerialQueue.step) Next) m events m') := by
  induction hrun generalizing bytes with
  | nil m =>
    rw [passed,List.flatMap_nil,List.append_nil]
    exact ⟨h,by simp [Run.nil m]⟩
  | cons head tail ih =>
    obtain ⟨hq,hstep⟩ := h.step head.1 head.2
    obtain ⟨hq',hrest⟩ := ih hq
    rw [passed,List.flatMap_cons,←List.append_assoc]
    refine ⟨hq',hrest.trans ?_⟩
    rw [hstep,and_assoc]
    refine and_congr_right fun _ => ?_
    constructor
    · intro hnext
      exact Run.cons ⟨hnext.1,head.2⟩ hnext.2
    · intro hnext
      cases hnext with
      | cons head' tail' =>
        obtain rfl := Option.some.inj (head.2.symm.trans head'.2)
        exact ⟨head'.1,tail'⟩

/-- Nothing is sent before anything is passed. -/
theorem start_queued (writeBuf readBuf : ℕ → Char) :
    Queued (start writeBuf readBuf) [] ∧ InOrder (start writeBuf readBuf) [] :=
  ⟨⟨by simp,rfl,Nat.le_refl 0,rfl⟩,rfl,trivial⟩

/-! ## Calls and interrupts -/

/-- A call that is not interrupted. -/
theorem serialWrite_run (st : Serial) {buf : List Char} (hbuf : buf≠[])
    (hfit : st.writePos+buf.length≤BUF_SIZE) :
    Run (Guarded (Steps step) Undisturbed) ⟨st,.idle⟩ [.copy buf,.count,.queue,.send]
      ⟨serialWrite st buf,.idle⟩ := by
  have hcopy : step ⟨st,.idle⟩ (.copy buf)=some ⟨copyBuf st buf,.copied buf⟩ :=
    if_pos ⟨hbuf,hfit⟩
  exact Run.cons ⟨trivial,hcopy⟩ (Run.cons ⟨trivial,rfl⟩ (Run.cons ⟨trivial,rfl⟩
    (Run.cons ⟨trivial,rfl⟩ (Run.nil _))))

/-- An interrupt between calls. -/
theorem interrupt_run (st : Serial) (txFree : Bool) (rx : Option Char) :
    Run (Guarded (Steps step) Undisturbed) ⟨st,.idle⟩ [.interrupt txFree rx]
      ⟨serialInterrupt st txFree rx,.idle⟩ :=
  Run.cons ⟨trivial,rfl⟩ (Run.nil _)

/-- Interrupts on a free line drain the queue. -/
theorem drain_run (n : ℕ) (st : Serial) (h : st.writePos=st.curPos+n) :
    ∃ st',Run (Guarded (Steps step) Undisturbed) ⟨st,.idle⟩
      (List.replicate n (.interrupt true none)) ⟨st',.idle⟩ ∧ st'.curPos=st'.writePos := by
  induction n generalizing st with
  | zero => exact ⟨st,Run.nil _,by omega⟩
  | succ n ih =>
    obtain ⟨st',hrun,hend⟩ := ih (serialInterrupt st true none) (by
      simp only [serialInterrupt]
      rw [if_pos ⟨trivial,by omega⟩]
      simp only [serialSend,advance]
      omega)
    exact ⟨st',(interrupt_run st true none).append hrun,hend⟩

/-- In every run where no interrupt sends in the middle of a call: once the queue
has drained, the bytes sent are the buffers passed, in order, exactly when
every call found nothing pending or its first byte pending next. -/
theorem run_sent_iff {writeBuf readBuf : ℕ → Char} {events : List Event} {m : Machine}
    (hrun : Run (Guarded (Steps step) Undisturbed) (start writeBuf readBuf) events m)
    (hidle : m.phase=.idle) (hdrained : m.port.curPos=m.port.writePos) :
    m.port.sent=passed events ↔
      Run (Guarded (Steps step) Next) (start writeBuf readBuf) events m := by
  obtain ⟨hstart,horder⟩ := start_queued writeBuf readBuf
  obtain ⟨hq,hiff⟩ := hstart.run hrun
  rw [List.nil_append] at hq hiff
  obtain ⟨st,phase⟩ := m
  obtain rfl := hidle
  obtain ⟨hcur,-,hend⟩ := hq.placed
  simp only at hcur hend hdrained ⊢
  have htake : (passed events).take st.sent.length=passed events := by
    rw [←hcur,hdrained,hend,List.take_length]
  simp only [InOrder,OwnNext,and_true,htake] at hiff
  rw [hiff]
  exact and_iff_right horder

/-- Two buffers of two bytes, each sent by its call and one interrupt. -/
def twoBuffers : List Event :=
  ([.copy ['a','b'],.count,.queue,.send]++[.interrupt true none])++
    ([.copy ['c','d'],.count,.queue,.send]++[.interrupt true none])

/-- The bytes leave in order exactly when both calls found the queue as they should. -/
theorem run_sent_iff_buffers : ∃ m,
    Run (Guarded (Steps step) Undisturbed) (start (fun _ => NUL) fun _ => NUL) twoBuffers m ∧
    m.port.writePos=4 ∧ m.port.sent=['a','b','c','d'] ∧ (m.port.sent=passed twoBuffers ↔
      Run (Guarded (Steps step) Next) (start (fun _ => NUL) fun _ => NUL) twoBuffers m) := by
  have hfirst := (serialWrite_run (start (fun _ => NUL) fun _ => NUL).port
    (show ['a','b']≠[] by decide) (by decide)).append (interrupt_run _ true none)
  have hrun := hfirst.append
    ((serialWrite_run _ (show ['c','d']≠[] by decide) (by decide)).append (interrupt_run _ true none))
  exact ⟨_,hrun,rfl,by decide,run_sent_iff hrun rfl rfl⟩

/-- A second buffer queued while a byte of the first is pending: that byte is
never sent and the second buffer's first byte is sent twice. -/
theorem sent_counterexample :
    ¬∀ (writeBuf readBuf : ℕ → Char) (events : List Event) (m : Machine),
      Run (Guarded (Steps step) Undisturbed) (start writeBuf readBuf) events m →
      m.phase=.idle → m.port.curPos=m.port.writePos → m.port.sent=passed events := by
  intro hclaim
  have hwrites := (serialWrite_run (start (fun _ => NUL) fun _ => NUL).port
    (show ['a','b']≠[] by decide) (by decide)).append
      (serialWrite_run _ (show ['c','d']≠[] by decide) (by decide))
  have hrun := (hwrites.append (interrupt_run _ true none)).append (interrupt_run _ true none)
  exact absurd (hclaim _ _ _ _ hrun rfl rfl) (by decide)

end XanaduOS.SerialQueue
