import Mathlib.Tactic

/-!
# Masks of the interrupt controllers

Two controllers of eight lines each take a mask byte at their data ports. The
driver keeps one cached word for both, cuts it to a byte at every update, and
writes the same byte to whichever controller the line belongs to. A line of one
controller therefore shares its bit with the same line of the other.
-/

namespace XanaduOS.PicMasks

/-- Command port of the master. -/
abbrev PIC1_COMMAND : ℕ := 0x20

/-- Data port of the master. -/
abbrev PIC1_DATA : ℕ := 0x21

/-- Command port of the slave. -/
abbrev PIC2_COMMAND : ℕ := 0xA0

/-- Data port of the slave. -/
abbrev PIC2_DATA : ℕ := 0xA1

/-- First interrupt of the master. -/
abbrev PIC1_REMAP : BitVec 8 := 0x20

/-- First interrupt of the slave. -/
abbrev PIC2_REMAP : BitVec 8 := 0x28

/-- First initialisation word: one more word follows, in cascade. -/
abbrev ICW1 : BitVec 8 := 0x11

/-- Line of the master that the slave is connected to. -/
abbrev SLAVE_PIN_IR : BitVec 8 := 0x04

/-- The slave's identity. -/
abbrev SLAVE_ID : BitVec 8 := 0x02

/-- Fourth initialisation word. -/
abbrev X8086_MODE : BitVec 8 := 0x01

/-- Its bit for automatic ends of interrupts. -/
abbrev AUTO_EOI : BitVec 8 := 0x02

/-- The driver's word and what it last wrote to each port. -/
structure Pic where
  /-- `cached_mask`. -/
  cachedMask : BitVec 16
  /-- Byte last written to a port. -/
  ports : ℕ → BitVec 8

/-- Write a byte to a port. -/
def outb (st : Pic) (port : ℕ) (value : BitVec 8) : Pic :=
  {st with ports := Function.update st.ports port value}

/-- Move the interrupts of both controllers, keeping the masks read before. -/
def picRemap (masterMask slaveMask : BitVec 8) (autoEoi : Bool) (st : Pic) : Pic :=
  let st := outb st PIC1_COMMAND ICW1
  let st := outb st PIC2_COMMAND ICW1
  let st := outb st PIC1_DATA PIC1_REMAP
  let st := outb st PIC2_DATA PIC2_REMAP
  let st := outb st PIC1_DATA SLAVE_PIN_IR
  let st := outb st PIC2_DATA SLAVE_ID
  let icw4 := if autoEoi then X8086_MODE ||| AUTO_EOI else X8086_MODE
  let st := outb st PIC1_DATA icw4
  let st := outb st PIC2_DATA icw4
  let st := outb st PIC1_DATA masterMask
  outb st PIC2_DATA slaveMask

/-- Change a line's bit of the cached word and write it to the line's
controller. -/
def picChange (change : BitVec 32 → BitVec 32 → BitVec 32) (st : Pic) (irq : ℕ) : Pic :=
  let port := if 8 ≤ irq then PIC2_DATA else PIC1_DATA
  let irq := if 8 ≤ irq then irq-8 else irq
  let value : BitVec 8 := (change (st.cachedMask.setWidth 32) (1#32<<<irq)).setWidth 8
  outb {st with cachedMask := value.setWidth 16} port value

/-- Mask a line. -/
def picMask (st : Pic) (irq : ℕ) : Pic := picChange (fun mask line => mask ||| line) st irq

/-- Unmask a line. -/
def picUnmask (st : Pic) (irq : ℕ) : Pic := picChange (fun mask line => mask &&& ~~~line) st irq

/-- Set both masks. -/
def picMaskSet (st : Pic) (mask : BitVec 16) : Pic :=
  let st := {st with cachedMask := mask}
  outb (outb st PIC1_DATA (mask.setWidth 8)) PIC2_DATA ((mask>>>8).setWidth 8)

/-- Set both masks to the complement, the cached word apart. -/
def picMaskClear (st : Pic) (mask : BitVec 16) : Pic :=
  let st := {st with cachedMask := mask}
  outb (outb st PIC1_DATA (~~~mask.setWidth 8)) PIC2_DATA (~~~(mask>>>8).setWidth 8)

/-- Mask every line. -/
def picMaskAll (st : Pic) : Pic := picMaskSet st 0xFFFF

/-- Set up both controllers. -/
def picInit (masterMask slaveMask : BitVec 8) (mask : BitVec 16) (autoEoi : Bool) (st : Pic) :
    Pic :=
  let st := picMaskAll (picRemap masterMask slaveMask autoEoi st)
  if mask≠0 then picMaskClear st mask else st

/-- Operations on masks, each on a line of the sixteen. -/
inductive MaskOp
  /-- `pic_mask`. -/
  | mask (irq : Fin 16)
  /-- `pic_unmask`. -/
  | unmask (irq : Fin 16)
  /-- `pic_mask_all`. -/
  | maskAll

/-- The driver's step. -/
def step (st : Pic) : MaskOp → Pic
  | .mask irq => picMask st irq
  | .unmask irq => picUnmask st irq
  | .maskAll => picMaskAll st

/-- State after a history of operations, the latest first. -/
def after (start : Pic) : List MaskOp → Pic
  | [] => start
  | op::past => step (after start past) op

/-! ## The masks asked for -/

/-- What the last operation on any of some lines asked for. All lines are masked
to begin with. -/
def lastMasked (concerns : ℕ → Prop) [DecidablePred concerns] : List MaskOp → Bool
  | [] => true
  | .mask irq::past => if concerns irq then true else lastMasked concerns past
  | .unmask irq::past => if concerns irq then false else lastMasked concerns past
  | .maskAll::_ => true

/-- The last operation on a line masked it. -/
def masked (h : List MaskOp) (irq : ℕ) : Bool := lastMasked (· = irq) h

/-- The last operation on a line of either controller masked it. -/
def lineMasked (h : List MaskOp) (j : ℕ) : Bool := lastMasked (fun irq => irq%8=j) h

/-- The bytes at both data ports are those of the mask asked for. -/
def Shown (st : Pic) (h : List MaskOp) : Prop := ∀ j<8,
  (st.ports PIC1_DATA).getLsbD j=masked h j ∧ (st.ports PIC2_DATA).getLsbD j=masked h (8+j)

/-- For every other line of this line's controller, the last change of the line's
number on either controller was to what the last one on this controller was. -/
def Apart (past : List MaskOp) (irq : ℕ) : Prop :=
  ∀ j<8,j≠irq%8 → lineMasked past j=masked past (8*(irq/8)+j)

/-- So it was when a line of a controller was last changed, unless every line has
been masked since. -/
def ChangedApart (controller : ℕ) : List MaskOp → Prop
  | [] => True
  | .mask irq::past => if irq/8=controller then Apart past irq else ChangedApart controller past
  | .unmask irq::past => if irq/8=controller then Apart past irq else ChangedApart controller past
  | .maskAll::_ => True

/-! ## What a step writes -/

/-- Data port of a controller. -/
def dataPort (controller : ℕ) : ℕ := if controller=0 then PIC1_DATA else PIC2_DATA

/-- A change that gives a line's bit one value and keeps the others. -/
def Assigns (change : BitVec 32 → BitVec 32 → BitVec 32) (value : Bool) : Prop :=
  ∀ mask line j,j<32 →
    (change mask line).getLsbD j=if line.getLsbD j then value else mask.getLsbD j

/-- Masking sets a bit. -/
theorem assigns_mask : Assigns (fun mask line => mask ||| line) true := by
  intro mask line j _
  rw [BitVec.getLsbD_or]
  cases line.getLsbD j <;> simp

/-- Unmasking clears a bit. -/
theorem assigns_unmask : Assigns (fun mask line => mask &&& ~~~line) false := by
  intro mask line j hj
  rw [BitVec.getLsbD_and,BitVec.getLsbD_not]
  cases line.getLsbD j <;> simp [hj]

/-- A line's place in its controller. -/
theorem line_eq {irq : ℕ} (h : irq<16) : (if 8 ≤ irq then irq-8 else irq)=irq%8 := by
  split <;> omega

/-- A change leaves the line's bit and the other cached ones in the cached word. -/
theorem picChange_cachedMask {change : BitVec 32 → BitVec 32 → BitVec 32} {value : Bool}
    (hc : Assigns change value) (st : Pic) {irq : ℕ} (hirq : irq<16) {j : ℕ} (hj : j<8) :
    (picChange change st irq).cachedMask.getLsbD j=
      if irq%8=j then value else st.cachedMask.getLsbD j := by
  have hbit : (1#32<<<(irq%8)).getLsbD j=decide (irq%8=j) := by
    have hlt : irq%8<32 := by omega
    have h := BitVec.getLsbD_twoPow (w:=32) (irq%8) j
    rw [BitVec.twoPow_eq] at h
    simpa [hlt] using h
  simp only [picChange,outb,line_eq hirq,BitVec.getLsbD_setWidth]
  rw [hc _ _ j (by omega),hbit,BitVec.getLsbD_setWidth]
  simp [hj,show j<16 by omega,show j<32 by omega]

/-- A change writes the cached bits to the line's controller and nothing to the
other. -/
theorem picChange_ports (change : BitVec 32 → BitVec 32 → BitVec 32) (st : Pic) {irq : ℕ}
    (hirq : irq<16) {controller : ℕ} (hcontroller : controller<2) :
    (picChange change st irq).ports (dataPort controller)=
      if irq/8=controller then (picChange change st irq).cachedMask.setWidth 8
      else st.ports (dataPort controller) := by
  have hport : (if 8 ≤ irq then PIC2_DATA else PIC1_DATA)=dataPort (irq/8) := by
    rw [dataPort]
    split <;> split <;> first | rfl | omega
  have hword : (picChange change st irq).ports (dataPort controller)=
      Function.update st.ports (dataPort (irq/8))
        ((picChange change st irq).cachedMask.setWidth 8) (dataPort controller) := by
    rw [←hport]
    simp only [picChange,outb]
    rw [BitVec.setWidth_setWidth_of_le _ (by decide),BitVec.setWidth_eq]
  rw [hword]
  by_cases h : irq/8=controller
  · rw [if_pos h,h,Function.update_self]
  · rw [if_neg h,Function.update_of_ne]
    simp only [dataPort]
    split <;> split <;> first | omega | decide

/-- Every line is masked at both ports and in the cached word. -/
structure AllMasked (st : Pic) : Prop where
  /-- The cached word. -/
  cached : st.cachedMask=0xFFFF
  /-- The bytes at both ports. -/
  port : ∀ controller,st.ports (dataPort controller)=0xFF

/-- Masking every line. -/
theorem picMaskAll_allMasked (st : Pic) : AllMasked (picMaskAll st) := by
  refine ⟨rfl,?_⟩
  intro controller
  simp only [picMaskAll,picMaskSet,outb,dataPort]
  split
  · rw [Function.update_of_ne (by decide),Function.update_self]
    rfl
  · rw [Function.update_self]
    rfl

/-- Setting up with no mask masks every line. -/
theorem picInit_allMasked (masterMask slaveMask : BitVec 8) (autoEoi : Bool) (st : Pic) :
    AllMasked (picInit masterMask slaveMask 0 autoEoi st) := by
  rw [picInit,if_neg (by simp)]
  exact picMaskAll_allMasked _

/-! ## Histories -/

variable {start : Pic}

/-- The cached word has, for each line, the last change on either controller. -/
theorem after_cachedMask (hstart : AllMasked start) (h : List MaskOp) {j : ℕ} (hj : j<8) :
    (after start h).cachedMask.getLsbD j=lineMasked h j := by
  have hall : ∀ {st},AllMasked st → st.cachedMask.getLsbD j=true := by
    intro st hst
    rw [hst.cached]
    interval_cases j <;> rfl
  induction h with
  | nil => exact hall hstart
  | cons op past ih =>
    cases op with
    | mask irq =>
      rw [after,step,picMask,picChange_cachedMask assigns_mask _ irq.isLt hj,ih]
      rfl
    | unmask irq =>
      rw [after,step,picUnmask,picChange_cachedMask assigns_unmask _ irq.isLt hj,ih]
      rfl
    | maskAll => exact hall (picMaskAll_allMasked _)

/-- A change shows the mask asked for exactly when it comes apart from changes
of the other controller. -/
theorem change_shown_iff {change : BitVec 32 → BitVec 32 → BitVec 32} {value : Bool}
    (hc : Assigns change value) {st : Pic} {past : List MaskOp}
    (hcached : ∀ j<8,st.cachedMask.getLsbD j=lineMasked past j) {irq : ℕ} (hirq : irq<16) :
    (∀ j<8,((picChange change st irq).ports (dataPort (irq/8))).getLsbD j=
      if irq=8*(irq/8)+j then value else masked past (8*(irq/8)+j)) ↔ Apart past irq := by
  have hbyte : ∀ j<8,((picChange change st irq).ports (dataPort (irq/8))).getLsbD j=
      if irq%8=j then value else lineMasked past j := by
    intro j hj
    rw [picChange_ports change st hirq (show irq/8<2 by omega),if_pos rfl,BitVec.getLsbD_setWidth,
      picChange_cachedMask hc st hirq hj,hcached j hj]
    simp [hj]
  have hline : ∀ j<8,irq=8*(irq/8)+j ↔ irq%8=j := by
    intro j hj
    omega
  constructor
  · intro h j hj hne
    have hj' := h j hj
    rwa [hbyte j hj,if_neg (Ne.symm hne),if_neg (mt (hline j hj).mp (Ne.symm hne))] at hj'
  · intro h j hj
    rw [hbyte j hj]
    by_cases he : irq%8=j
    · rw [if_pos he,if_pos ((hline j hj).mpr he)]
    · rw [if_neg he,if_neg (mt (hline j hj).mp he)]
      exact h j hj (Ne.symm he)

/-- A change on one controller does not touch the other. -/
theorem change_other (change : BitVec 32 → BitVec 32 → BitVec 32) (st : Pic)
    {irq controller j : ℕ}
    (hirq : irq<16) (hcontroller : controller<2) (hne : irq/8≠controller) (hj : j<8) :
    (picChange change st irq).ports (dataPort controller)=st.ports (dataPort controller) ∧
      irq≠8*controller+j := by
  refine ⟨?_,by omega⟩
  rw [picChange_ports change st hirq hcontroller,if_neg hne]

/-- A controller's byte is the one asked for exactly when its last change came
apart from changes of the other controller. -/
theorem controller_shown_iff (hstart : AllMasked start) (h : List MaskOp) (controller : ℕ)
    (hcontroller : controller<2) :
    (∀ j<8,((after start h).ports (dataPort controller)).getLsbD j=masked h (8*controller+j)) ↔
      ChangedApart controller h := by
  have hall : ∀ {st},AllMasked st → ∀ j<8,(st.ports (dataPort controller)).getLsbD j=true := by
    intro st hst j hj
    rw [hst.port]
    interval_cases j <;> rfl
  induction h with
  | nil => exact iff_of_true (hall hstart) trivial
  | cons op past ih =>
    -- both kinds of change go through the same two cases
    have hchange : ∀ {change : BitVec 32 → BitVec 32 → BitVec 32} {value : Bool},
        Assigns change value → ∀ irq : Fin 16,
        ((∀ j<8,((picChange change (after start past) irq).ports (dataPort controller)).getLsbD j=
          if irq.val=8*controller+j then value else masked past (8*controller+j)) ↔
          if irq.val/8=controller then Apart past irq else ChangedApart controller past) := by
      intro change value hc irq
      by_cases he : irq.val/8=controller
      · subst he
        rw [if_pos rfl]
        exact change_shown_iff hc (fun j hj => after_cachedMask hstart past hj) irq.isLt
      · rw [if_neg he]
        refine Iff.trans ?_ ih
        refine forall₂_congr fun j hj => ?_
        obtain ⟨hport,hline⟩ := change_other change (after start past) irq.isLt
          hcontroller he hj
        rw [hport,if_neg hline]
    cases op with
    | mask irq => exact hchange assigns_mask irq
    | unmask irq => exact hchange assigns_unmask irq
    | maskAll => exact iff_of_true (hall (picMaskAll_allMasked _)) trivial

/-- After any history both bytes are those of the mask asked for exactly when
each controller's last change came apart from changes of the other. -/
theorem shown_iff (masterMask slaveMask : BitVec 8) (autoEoi : Bool) (st : Pic)
    (h : List MaskOp) :
    Shown (after (picInit masterMask slaveMask 0 autoEoi st) h) h ↔
      ChangedApart 0 h ∧ ChangedApart 1 h := by
  have hstart := picInit_allMasked masterMask slaveMask autoEoi st
  rw [←controller_shown_iff hstart h 0 (by decide),←controller_shown_iff hstart h 1 (by decide)]
  constructor
  · intro hs
    refine ⟨fun j hj => ?_,fun j hj => (hs j hj).2⟩
    rw [Nat.mul_zero,Nat.zero_add]
    exact (hs j hj).1
  · intro hs j hj
    refine ⟨?_,hs.2 j hj⟩
    have hmaster := hs.1 j hj
    rwa [Nat.mul_zero,Nat.zero_add] at hmaster

/-- Unmasking a line of the master and then one of the slave also unmasks the
slave's line of the master's number. -/
theorem shown_counterexample :
    ¬∀ (masterMask slaveMask : BitVec 8) (autoEoi : Bool) (st : Pic) (h : List MaskOp),
      Shown (after (picInit masterMask slaveMask 0 autoEoi st) h) h := by
  intro hclaim
  have hs := hclaim 0 0 false ⟨0,fun _ => 0⟩ [.unmask 8,.unmask 1]
  have hstart := picInit_allMasked 0 0 false ⟨0,fun _ => 0⟩
  have hapart : Apart [.unmask 1] 8 :=
    (controller_shown_iff hstart [.unmask 8,.unmask 1] 1 (by decide)).mp
      fun j hj => (hs j hj).2
  exact absurd (hapart 1 (by decide) (by decide)) (by decide)

end XanaduOS.PicMasks
