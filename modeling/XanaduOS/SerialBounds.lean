import XanaduOS.SerialQueue

/-!
# Bounds of the serial port's buffers

No cursor ever moves back. So the buffers are kept to exactly as long as all
bytes passed fit the output buffer, all bytes received fit the input buffer,
and a call without bytes, which still counts one as sent, finds one pending.
-/

namespace XanaduOS.SerialBounds

open Runs SerialQueue

/-- Calls and interrupts. -/
inductive Call
  /-- Queue a buffer. -/
  | write (buf : List Char)
  /-- An interrupt, with the line status and the byte received. -/
  | interrupt (txFree : Bool) (rx : Option Char)

/-- One call or interrupt. -/
def apply (st : Serial) : Call → Serial
  | .write buf => serialWrite st buf
  | .interrupt txFree rx => serialInterrupt st txFree rx

/-- Indices of `write_buf` used by a call or interrupt. -/
def writeBufIndices (st : Serial) : Call → List ℕ
  | .write buf => (List.range buf.length).map (st.writePos+·)
  | .interrupt txFree _ => if txFree ∧ st.curPos≠st.writePos then [st.curPos] else []

/-- Indices of `read_buf` used by a call or interrupt. -/
def readBufIndices (st : Serial) : Call → List ℕ
  | .write _ => []
  | .interrupt _ rx => if rx.isSome then [st.readPos] else []

/-- The buffers are kept to, and the cursor of sent bytes stays behind the end
of the queue. -/
structure InBounds (st : Serial) (call : Call) : Prop where
  /-- Indices of the output buffer. -/
  write : ∀ i∈writeBufIndices st call,i<BUF_SIZE
  /-- Indices of the input buffer. -/
  read : ∀ i∈readBufIndices st call,i<BUF_SIZE
  /-- The cursor of sent bytes. -/
  behind : (apply st call).curPos≤(apply st call).writePos

/-- There is room for what is passed or received, and a call without bytes
finds one pending. -/
def HasRoom (st : Serial) : Call → Prop
  | .write buf => st.writePos+buf.length≤BUF_SIZE ∧ (buf=[] → st.curPos<st.writePos)
  | .interrupt _ rx => rx.isSome → st.readPos<BUF_SIZE

/-- The cursors are ordered and within the buffers. -/
def Ordered (st : Serial) : Prop :=
  st.curPos ≤ st.writePos ∧ st.writePos≤BUF_SIZE ∧ st.readPos≤BUF_SIZE

/-! ## One call or interrupt -/

/-- What an interrupt does, with the sending first. -/
theorem serialInterrupt_eq (st : Serial) (txFree : Bool) (rx : Option Char) :
    serialInterrupt st txFree rx=
      let sent := if txFree ∧ st.curPos≠st.writePos then
        serialSend (advance st) (st.writeBuf st.curPos) else st
      rx.elim sent fun data => {sent with
        readPos := sent.readPos+1,readBuf := Function.update sent.readBuf sent.readPos data} := by
  cases rx <;> rfl

/-- Only the indices listed are written in the output buffer. -/
theorem writeBuf_apply (st : Serial) {call : Call} {i : ℕ} (hi : i∉writeBufIndices st call) :
    (apply st call).writeBuf i=st.writeBuf i := by
  cases call with
  | write buf =>
    refine (Slibc.strcpy_apply _ _ _ _).trans (if_neg ?_)
    rintro ⟨hle,hlt⟩
    exact hi (List.mem_map.mpr ⟨i-st.writePos,List.mem_range.mpr hlt,Nat.add_sub_cancel' hle⟩)
  | interrupt txFree rx =>
    rw [apply,serialInterrupt_eq]
    by_cases hsend : txFree=true ∧ st.curPos≠st.writePos
    · cases rx <;> simp [hsend,serialSend,advance]
    · cases rx <;> simp [hsend]

/-- Only the indices listed are written in the input buffer. -/
theorem readBuf_apply (st : Serial) {call : Call} {i : ℕ} (hi : i∉readBufIndices st call) :
    (apply st call).readBuf i=st.readBuf i := by
  cases call with
  | write buf => rfl
  | interrupt txFree rx =>
    rw [apply,serialInterrupt_eq]
    cases rx with
    | none =>
      by_cases hsend : txFree=true ∧ st.curPos≠st.writePos
      · simp [hsend,serialSend,advance]
      · simp [hsend]
    | some data =>
      have hne : i≠st.readPos := fun heq => hi (by simp [readBufIndices,heq])
      by_cases hsend : txFree=true ∧ st.curPos≠st.writePos
      · simp [hsend,serialSend,advance,hne]
      · simp [hsend,hne]

/-- The cursors after an interrupt. -/
theorem serialInterrupt_cursors (st : Serial) (txFree : Bool) (rx : Option Char) :
    (serialInterrupt st txFree rx).curPos=
      (if txFree ∧ st.curPos≠st.writePos then st.curPos+1 else st.curPos) ∧
    (serialInterrupt st txFree rx).writePos=st.writePos ∧
    (serialInterrupt st txFree rx).readPos=
      (if rx.isSome then st.readPos+1 else st.readPos) := by
  rw [serialInterrupt_eq]
  by_cases hsend : txFree=true ∧ st.curPos≠st.writePos
  · cases rx <;> simp [hsend,serialSend,advance]
  · cases rx <;> simp [hsend]

/-- With ordered cursors a call or interrupt keeps to the buffers exactly when
there is room. -/
theorem inBounds_iff (st : Serial) (call : Call) (h : Ordered st) :
    InBounds st call ↔ HasRoom st call := by
  obtain ⟨hcur,hwrite,hread⟩ := h
  cases call with
  | write buf =>
    have hempty : buf=[] ↔ buf.length=0 := List.length_eq_zero_iff.symm
    constructor
    · rintro ⟨hindices,-,hbehind⟩
      change st.curPos+1 ≤ st.writePos+buf.length at hbehind
      refine ⟨?_,fun hnil => ?_⟩
      · rcases Nat.eq_zero_or_pos buf.length with hzero|hpos
        · omega
        · have hlast := hindices (st.writePos+(buf.length-1))
            (List.mem_map.mpr ⟨_,List.mem_range.mpr (by omega),rfl⟩)
          omega
      · rw [hempty.mp hnil] at hbehind
        exact hbehind
    · rintro ⟨hroom,hpending⟩
      refine ⟨fun i hi => ?_,fun i hi => absurd hi List.not_mem_nil,?_⟩
      · obtain ⟨k,hk,rfl⟩ := List.mem_map.mp hi
        have := List.mem_range.mp hk
        omega
      · change st.curPos+1 ≤ st.writePos+buf.length
        rcases Nat.eq_zero_or_pos buf.length with hzero|hpos
        · have := hpending (hempty.mpr hzero)
          omega
        · omega
  | interrupt txFree rx =>
    obtain ⟨hcur',hwrite',-⟩ := serialInterrupt_cursors st txFree rx
    constructor
    · intro hbounds hsome
      exact hbounds.read st.readPos (by simp [readBufIndices,hsome])
    · intro hroom
      refine ⟨fun i hi => ?_,fun i hi => ?_,?_⟩
      · simp only [writeBufIndices] at hi
        split at hi
        · rename_i hsend
          obtain rfl := List.mem_singleton.mp hi
          have := hsend.2
          omega
        · contradiction
      · simp only [readBufIndices] at hi
        split at hi
        · rename_i hsome
          obtain rfl := List.mem_singleton.mp hi
          exact hroom hsome
        · contradiction
      · simp only [apply]
        rw [hcur',hwrite']
        split
        · rename_i hsend
          have := hsend.2
          omega
        · exact hcur

/-- With room the cursors stay ordered. -/
theorem HasRoom.ordered {st : Serial} {call : Call} (h : Ordered st) (hroom : HasRoom st call) :
    Ordered (apply st call) := by
  have hbehind := ((inBounds_iff st call h).mpr hroom).behind
  obtain ⟨-,hwrite,hread⟩ := h
  cases call with
  | write buf => exact ⟨hbehind,hroom.1,hread⟩
  | interrupt txFree rx =>
    obtain ⟨-,hwrite',hread'⟩ := serialInterrupt_cursors st txFree rx
    refine ⟨hbehind,?_,?_⟩
    · simp only [apply]
      rw [hwrite']
      exact hwrite
    · simp only [apply]
      rw [hread']
      split
      · rename_i hsome
        exact hroom hsome
      · exact hread

/-! ## Runs -/

/-- A run of calls and interrupts keeps to the buffers exactly when each of
them finds room. -/
theorem run_inBounds_iff (writeBuf readBuf : ℕ → Char) (calls : List Call) :
    Along apply InBounds (start writeBuf readBuf).port calls ↔
      Along apply HasRoom (start writeBuf readBuf).port calls :=
  along_iff inBounds_iff (fun _ _ => HasRoom.ordered)
    ⟨Nat.le_refl _,Nat.zero_le _,Nat.zero_le _⟩ calls

/-- One byte more than the buffer is written behind it. -/
theorem inBounds_counterexample : ¬∀ (writeBuf readBuf : ℕ → Char) (calls : List Call),
    Along apply InBounds (start writeBuf readBuf).port calls := by
  intro h
  have hlast := (h (fun _ => Slibc.NUL) (fun _ => Slibc.NUL)
    [.write (List.replicate 1025 'a')]).1.write 1024
      (List.mem_map.mpr ⟨1024,List.mem_range.mpr (by rw [List.length_replicate]; norm_num),rfl⟩)
  exact absurd hlast (by norm_num)

end XanaduOS.SerialBounds
