import Mathlib.Tactic

/-!
# Addresses of configuration registers

A register of a PCI device is selected by one word on the address port, in which
bus, device, function and offset have a place each. The masks of the first three
are narrower than their ranges, so locations that agree below the masks share an
address.
-/

namespace XanaduOS.ConfigAddresses

/-- The address port. -/
abbrev CONFIG_ADDRESS : ℕ := 0xCF8

/-- The data port. -/
abbrev CONFIG_DATA : ℕ := 0xCFC

/-- Accesses to ports. -/
inductive PortAccess
  /-- Write a word. -/
  | outl (port val : ℕ)
  /-- Read a word. -/
  | inl (port : ℕ)
  deriving DecidableEq

/-- Write a register. -/
def pciWriteReg (bus device function regOffset data : ℕ) : List PortAccess :=
  let address := 1<<<31
    ||| regOffset
    ||| (bus &&& 0xF)<<<16
    ||| (device &&& 0xF)<<<11
    ||| (function &&& 0x3)<<<8
  [.outl CONFIG_ADDRESS address,.outl CONFIG_DATA data]

/-- Read a register; the value is what the last access reads. -/
def pciReadReg (bus device function regOffset : ℕ) : List PortAccess :=
  let address := 1<<<31
    ||| regOffset
    ||| (bus &&& 0xF)<<<16
    ||| (device &&& 0xF)<<<11
    ||| (function &&& 0x3)<<<8
  [.outl CONFIG_ADDRESS address,.inl CONFIG_DATA]

/-- The second half of the slots of a bus reads the registers of the first half. -/
theorem pciReadReg_slot (bus dev function regOffset : ℕ) :
    pciReadReg bus (dev+16) function regOffset=pciReadReg bus dev function regOffset := by
  have hmask : ∀ n,n &&& 0xF=n%16 := fun n => Nat.and_two_pow_sub_one_eq_mod n 4
  rw [pciReadReg,pciReadReg,hmask dev,hmask (dev+16),Nat.add_mod_right]

/-- A register of a device. -/
@[ext]
structure Location where
  /-- The bus. -/
  bus : ℕ
  /-- The device. -/
  device : ℕ
  /-- The function. -/
  function : ℕ
  /-- The register offset. -/
  reg : ℕ
  /-- There are 256 buses. -/
  bus_lt : bus<256
  /-- A bus has 32 devices. -/
  device_lt : device<32
  /-- A device has 8 functions. -/
  function_lt : function<8
  /-- A function has 256 bytes of registers. -/
  reg_lt : reg<256
  /-- A register has 4 bytes. -/
  aligned : 4∣reg

/-- Words put on the address port. -/
def addresses : List PortAccess → List ℕ
  | [] => []
  | .outl port val::rest => if port=CONFIG_ADDRESS then val::addresses rest else addresses rest
  | .inl _::rest => addresses rest

namespace Location

/-- Accesses that read a location. -/
def read (l : Location) : List PortAccess := pciReadReg l.bus l.device l.function l.reg

/-- Accesses that write a location. -/
def write (l : Location) (data : ℕ) : List PortAccess :=
  pciWriteReg l.bus l.device l.function l.reg data

/-- Different locations have different addresses, the same for reading and writing. -/
structure Unambiguous (l m : Location) : Prop where
  /-- Addresses read from. -/
  read : l≠m → addresses l.read≠addresses m.read
  /-- Addresses written to. -/
  write : ∀ data data',l≠m → addresses (l.write data)≠addresses (m.write data')
  /-- Reading and writing agree. -/
  agree : ∀ data,addresses (l.write data)=addresses l.read

/-- Locations agree below the masks. -/
structure Masked (l m : Location) : Prop where
  /-- Four bits of the bus. -/
  bus : l.bus%16=m.bus%16
  /-- Four bits of the device. -/
  device : l.device%16=m.device%16
  /-- Two bits of the function. -/
  function : l.function%4=m.function%4
  /-- The register. -/
  reg : l.reg=m.reg

/-- The address of a location, in parts. -/
def address (l : Location) : ℕ :=
  2^31+(2^16*(l.bus%16)+(2^11*(l.device%16)+(2^8*(l.function%4)+l.reg)))

/-- The parts do not overlap. -/
theorem or_eq_address (l : Location) :
    1<<<31 ||| l.reg ||| (l.bus &&& 0xF)<<<16 ||| (l.device &&& 0xF)<<<11 |||
      (l.function &&& 0x3)<<<8=l.address := by
  have hreg := l.reg_lt
  have hbus : l.bus &&& 0xF=l.bus%16 := Nat.and_two_pow_sub_one_eq_mod l.bus 4
  have hdevice : l.device &&& 0xF=l.device%16 := Nat.and_two_pow_sub_one_eq_mod l.device 4
  have hfunction : l.function &&& 0x3=l.function%4 := Nat.and_two_pow_sub_one_eq_mod l.function 2
  rw [hbus,hdevice,hfunction,address,←Nat.mul_one (2^31),
    Nat.two_pow_add_eq_or_of_lt (by omega),Nat.two_pow_add_eq_or_of_lt (by omega),
    Nat.two_pow_add_eq_or_of_lt (by omega),Nat.two_pow_add_eq_or_of_lt (by omega)]
  rw [Nat.shiftLeft_eq,Nat.shiftLeft_eq,Nat.shiftLeft_eq,Nat.shiftLeft_eq]
  ac_rfl

/-- A read puts the address of its location on the port. -/
theorem addresses_read (l : Location) : addresses l.read=[l.address] := by
  have h := l.or_eq_address
  simp only [read,pciReadReg,addresses,if_true,h]

/-- A write puts the address of its location on the port. -/
theorem addresses_write (l : Location) (data : ℕ) : addresses (l.write data)=[l.address] := by
  have h := l.or_eq_address
  have hport : CONFIG_DATA≠CONFIG_ADDRESS := by decide
  simp only [write,pciWriteReg,addresses,if_true,if_neg hport,h]

/-- Locations share an address if and only if they agree below the masks. -/
theorem address_eq_iff (l m : Location) : l.address=m.address ↔ Masked l m := by
  have hl := l.reg_lt
  have hm := m.reg_lt
  constructor
  · intro h
    rw [address,address] at h
    exact ⟨by omega,by omega,by omega,by omega⟩
  · rintro ⟨hbus,hdevice,hfunction,hreg⟩
    rw [address,address,hbus,hdevice,hfunction,hreg]

/-- Two locations are told apart if and only if they are the same or differ below the
masks. -/
theorem unambiguous_iff (l m : Location) : Unambiguous l m ↔ l=m ∨ ¬Masked l m := by
  constructor
  · intro h
    rw [or_iff_not_imp_left]
    intro hne hmasked
    have heq := (address_eq_iff l m).mpr hmasked
    exact h.read hne (by rw [addresses_read,addresses_read,heq])
  · intro h
    have hne : l≠m → l.address≠m.address := by
      intro hlm heq
      exact h.elim hlm fun hmasked => hmasked ((address_eq_iff l m).mp heq)
    refine ⟨?_,?_,fun data => ?_⟩
    · intro hlm
      rw [addresses_read,addresses_read,ne_eq,List.singleton_inj]
      exact hne hlm
    · intro data data' hlm
      rw [addresses_write,addresses_write,ne_eq,List.singleton_inj]
      exact hne hlm
    · rw [addresses_write,addresses_read]

/-- The identification of a device on the first bus. -/
def idOf (device : ℕ) (h : device<32) : Location :=
  ⟨0,device,0,0,by decide,h,by decide,by decide,by decide⟩

/-- Slot 16 of the first bus is selected by the address of slot 0. -/
theorem not_unambiguous_slots : ¬Unambiguous (idOf 0 (by decide)) (idOf 16 (by decide)) := by
  intro h
  have hne : idOf 0 (by decide)≠idOf 16 (by decide) := by
    intro heq
    exact absurd (congrArg device heq) (by decide)
  exact h.read hne (by decide)

end Location

end XanaduOS.ConfigAddresses
