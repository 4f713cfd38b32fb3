import XanaduOS.InitrdLoading

/-!
# Numbers of an archive record

The number parser reads twelve characters from wherever a field begins and
skips the null ones. The fields for mode, owner and group have eight, so up to
four digits of the field behind are read as the last digits of the number. It
comes out right when that field is empty, and otherwise only by a coincidence
modulo the machine's word.
-/

namespace XanaduOS.HeaderNumbers

open Word32 Slibc InitialRamdisk InitrdListing InitrdLoading

variable {mem : ℕ → Char} {header : ℕ}

/-- A field holds octal digits followed by null characters. -/
def OctalField (mem : ℕ → Char) (header offset width : ℕ) (digits : List Char) : Prop :=
  IsOctal digits ∧
    field mem header offset width=digits++List.replicate (width-digits.length) NUL

instance (mem : ℕ → Char) (header offset width : ℕ) (digits : List Char) :
    Decidable (OctalField mem header offset width digits) := inferInstanceAs (Decidable (_ ∧ _))

/-- The digits of a record whose number fields are well formed. -/
structure NumberFields (mem : ℕ → Char) (header : ℕ) where
  /-- Digits of `mode`. -/
  mode : List Char
  /-- Digits of `uid`. -/
  uid : List Char
  /-- Digits of `gid`. -/
  gid : List Char
  /-- Digits of `size`. -/
  size : List Char
  /-- The field `mode`. -/
  modeField : OctalField mem header 100 8 mode
  /-- The field `uid`. -/
  uidField : OctalField mem header 108 8 uid
  /-- The field `gid`. -/
  gidField : OctalField mem header 116 8 gid
  /-- The field `size`. -/
  sizeField : OctalField mem header 124 12 size
  /-- The size is a positive integer of the machine. -/
  size_lt : octal size<2^31

/-- The numbers stored for a record are those of its fields. -/
structure NumbersSound (f : NumberFields mem header) (e : InitrdNode) : Prop where
  /-- Permission bits. -/
  mode : e.mode=octal f.mode
  /-- Owner. -/
  uid : e.uid=octal f.uid
  /-- Group. -/
  gid : e.gid=octal f.gid
  /-- Bytes of the contents. -/
  size : e.size=octal f.size

/-- The digits that a number takes over from the field behind it: none, or such
that a multiple of 2^32 is added. -/
def Harmless (digits behind : List Char) : Prop :=
  2^32∣octal digits*(8^(behind.take 4).length-1)+octal (behind.take 4)

instance (digits behind : List Char) : Decidable (Harmless digits behind) :=
  inferInstanceAs (Decidable (_ ∣ _))

/-! ## Values of digits -/

/-- Value of digits behind others. -/
theorem octal_append (digits behind : List Char) :
    octal (digits++behind)=octal digits*8^behind.length+octal behind := by
  induction behind using List.reverseRecOn with
  | nil => simp [octal]
  | append_singleton behind c ih =>
    rw [←List.append_assoc,octal_concat,octal_concat,ih,List.length_append,List.length_singleton,
      Nat.pow_succ]
    ring

/-- Bound on a value. -/
theorem octal_lt {digits : List Char} (h : IsOctal digits) : octal digits<8^digits.length := by
  induction digits using List.reverseRecOn with
  | nil => decide
  | append_singleton digits c ih =>
    have hc := h c (by simp)
    have := ih fun d hd => h d (List.mem_append_left _ hd)
    rw [octal_concat,List.length_append,List.length_singleton,Nat.pow_succ]
    omega

/-! ## Fields side by side -/

/-- A field is followed by the one behind it. -/
theorem field_append (mem : ℕ → Char) (header offset width behind : ℕ) :
    field mem header offset (width+behind)=
      field mem header offset width++field mem header (offset+width) behind := by
  simp only [field,List.range_add,List.map_append,List.map_map]
  congr 1
  refine List.map_congr_left fun k _ => ?_
  simp only [Function.comp_apply,Nat.add_assoc]

/-- The front of a field. -/
theorem field_take (mem : ℕ → Char) (header offset : ℕ) {width k : ℕ} (hk : k≤width) :
    field mem header offset k=(field mem header offset width).take k := by
  obtain ⟨rest,rfl⟩ := Nat.exists_eq_add_of_le hk
  rw [field_append,List.take_left' (by simp [field])]

/-- Digits of an octal field are no more than its width. -/
theorem OctalField.length_le {offset width : ℕ} {digits : List Char}
    (h : OctalField mem header offset width digits) : digits.length≤width := by
  have hlen := congrArg List.length h.2
  rw [List.length_append,List.length_replicate,field,List.length_map,List.length_range] at hlen
  omega

/-- The digits in the front of an octal field. -/
theorem OctalField.digitsOf_take {offset width : ℕ} {digits : List Char}
    (h : OctalField mem header offset width digits) (k : ℕ) :
    digitsOf ((field mem header offset width).take k)=digits.take k := by
  rw [h.2,List.take_append,List.take_replicate,digitsOf,List.filter_append]
  have hoct : IsOctal (digits.take k) := fun c hc => h.1 c (List.mem_of_mem_take hc)
  exact (congrArg₂ (· ++ ·) (digitsOf_eq hoct) (digitsOf_replicate _)).trans (List.append_nil _)

/-- The digits read for a field of eight characters: its own and the first four
of the field behind it. -/
theorem digitsOf_window {offset width : ℕ} {digits behind : List Char} (hwidth : 4≤width)
    (h : OctalField mem header offset 8 digits)
    (hbehind : OctalField mem header (offset+8) width behind) :
    digitsOf (field mem header offset 12)=digits++behind.take 4 := by
  have hlen : (field mem header offset 8).length≤8 := by simp [field]
  rw [field_append mem header offset 8 4,field_take mem header (offset+8) hwidth,digitsOf,
    List.filter_append]
  refine congrArg₂ (· ++ ·) ?_ (hbehind.digitsOf_take 4)
  have hown := h.digitsOf_take 8
  rwa [List.take_of_length_le hlen,List.take_of_length_le h.length_le] at hown

/-- A number read from a field of eight characters is the field's own exactly
when the digits behind do no harm. -/
theorem atoi_eq_iff {offset width : ℕ} {digits behind : List Char} (hwidth : 4≤width)
    (h : OctalField mem header offset 8 digits)
    (hbehind : OctalField mem header (offset+8) width behind) :
    atoi (field mem header offset 12) 8=octal digits ↔ Harmless digits behind := by
  have hwindow := digitsOf_window hwidth h hbehind
  have hoct : IsOctal (digitsOf (field mem header offset 12)) := by
    rw [hwindow]
    intro c hc
    rcases List.mem_append.mp hc with hc|hc
    · exact h.1 c hc
    · exact hbehind.1 c (List.mem_of_mem_take hc)
  have hmod := atoi_modEq hoct (by simp [field])
  rw [hwindow,octal_append] at hmod
  have hlt : octal digits<2^32 :=
    (octal_lt h.1).trans_le ((Nat.pow_le_pow_right (by norm_num) h.length_le).trans (by norm_num))
  have hres : atoi (field mem header offset 12) 8<2^32 := atoiFrom_lt _ _ _ _ (by norm_num)
  -- what is added to the field's own value
  have hsum : octal digits*8^(behind.take 4).length+octal (behind.take 4)=
      octal digits+(octal digits*(8^(behind.take 4).length-1)+octal (behind.take 4)) := by
    have hpos : 0<8^(behind.take 4).length := Nat.pow_pos (by norm_num)
    rw [Nat.mul_sub,Nat.mul_one,←Nat.add_assoc,
      Nat.add_sub_cancel' (Nat.le_mul_of_pos_right _ hpos)]
  rw [hsum] at hmod
  constructor
  · intro heq
    rw [heq] at hmod
    exact (Nat.modEq_zero_iff_dvd).mp (Nat.ModEq.add_left_cancel' (octal digits) hmod).symm
  · intro hdvd
    have hown := hmod.trans ((Nat.modEq_zero_iff_dvd.mpr hdvd).add_left (octal digits))
    exact hown.eq_of_lt_of_lt hres hlt

/-- The numbers stored for a record are those of its fields exactly when the
digits that spill over from the fields for owner, group and size do no harm. -/
theorem numbersSound_iff (f : NumberFields mem header) (stale : InitrdNode) (fnameLen : ℕ) :
    NumbersSound f (newEntry mem stale header fnameLen) ↔
      Harmless f.mode f.uid ∧ Harmless f.uid f.gid ∧ Harmless f.gid f.size := by
  have hmode := atoi_eq_iff (by norm_num) f.modeField f.uidField
  have huid := atoi_eq_iff (by norm_num) f.uidField f.gidField
  have hgid := atoi_eq_iff (by norm_num) f.gidField f.sizeField
  constructor
  · intro h
    exact ⟨hmode.mp h.mode,huid.mp h.uid,hgid.mp h.gid⟩
  · rintro ⟨h₁,h₂,h₃⟩
    have hsize : SizeField mem header (octal f.size) := ⟨f.size,f.sizeField.1,rfl,f.sizeField.2⟩
    exact ⟨hmode.mpr h₁,huid.mpr h₂,hgid.mpr h₃,hsize.fileSize_eq f.size_lt⟩

/-- Text of a record for a file of three bytes with mode 644, owner and group. -/
def headerText : List Char :=
  'f'::List.replicate 99 NUL++['6','4','4']++List.replicate 5 NUL++
    ['1','7','5','0']++List.replicate 4 NUL++['1','7','5','0']++List.replicate 4 NUL++
      ['3']++List.replicate 11 NUL

/-- Its digits. -/
def headerFields : NumberFields (charAt headerText) 0 where
  mode := ['6','4','4']
  uid := ['1','7','5','0']
  gid := ['1','7','5','0']
  size := ['3']
  modeField := by decide +kernel
  uidField := by decide +kernel
  gidField := by decide +kernel
  sizeField := by decide +kernel
  size_lt := by decide

/-- The mode of that record is read with the digits of the owner behind it. -/
theorem numbersSound_counterexample :
    ¬∀ (mem : ℕ → Char) (header : ℕ) (f : NumberFields mem header) (stale : InitrdNode)
      (fnameLen : ℕ),NumbersSound f (newEntry mem stale header fnameLen) := by
  intro h
  have hmode := (h _ _ headerFields ⟨0,0,0,0,0,0,0,.file⟩ 1).mode
  have hharm := (atoi_eq_iff (by norm_num) headerFields.modeField headerFields.uidField).mp hmode
  exact absurd hharm (by decide +kernel)

end XanaduOS.HeaderNumbers
