-- PCI configuration space behind its two ports, as pci.c uses it: the address
-- goes to one port, and the other one reads and writes the register there.
import Salsola.Lib.Register

open words

namespace salsola.pci

abbrev u8 := BitVec 8

abbrev u16 := BitVec 16

abbrev u32 := BitVec 32

/-! ## The hardware -/

/-- The registers of a device, by their numbers. -/
abbrev Device := Nat → Register 32

/-- What answers at a bus, a slot, and a function. -/
abbrev Space := Nat → Nat → Nat → Option Device

/-- The fields of an address word: bus, slot, function, and register. -/
structure Place where
  bus : Nat
  slot : Nat
  func : Nat
  register : Nat
deriving DecidableEq

/-- Bit 31 enables the access. -/
def decode (address : u32) : Option Place :=
  if address.getLsbD 31 then
    some {
      bus := ((address >>> 16) &&& 0xFF).toNat
      slot := ((address >>> 11) &&& 0x1F).toNat
      func := ((address >>> 8) &&& 0x7).toNat
      register := ((address >>> 2) &&& 0x3F).toNat }
  else none

def Space.register (space : Space) (address : u32) : Option (Register 32) := do
  let place ← decode address
  let dev ← space place.bus place.slot place.func
  return dev place.register

/-- Where nothing answers, all bits read as ones. -/
def Space.read (space : Space) (address : u32) : u32 :=
  match space.register address with
  | some r => r.value
  | none => BitVec.allOnes 32

/-- Replace one register of one device. -/
def Space.set (space : Space) (place : Place) (r : Register 32) : Space :=
  fun bus slot func =>
    if bus = place.bus ∧ slot = place.slot ∧ func = place.func then
      (space bus slot func).map fun dev register =>
        if register = place.register then r else dev register
    else space bus slot func

def Space.write (space : Space) (address value : u32) : Space :=
  match decode address, space.register address with
  | some place, some r => space.set place (r.write value)
  | _, _ => space

def CONFIG_ADDRESS : u16 := 0xCF8

def CONFIG_DATA : u16 := 0xCFC

structure Ports where
  /-- What was written to `CONFIG_ADDRESS` last. -/
  config_address : u32
  space : Space

def outl (ports : Ports) (port : u16) (value : u32) : Ports :=
  if port = CONFIG_ADDRESS then { ports with config_address := value }
  else if port = CONFIG_DATA then
    { ports with space := ports.space.write ports.config_address value }
  else ports

def inl (ports : Ports) (port : u16) : u32 :=
  if port = CONFIG_ADDRESS then ports.config_address
  else if port = CONFIG_DATA then ports.space.read ports.config_address
  else BitVec.allOnes 32

/-! ## The driver -/

structure pci_device where
  vendor : u16
  device : u16
  bus : u8
  slot : u8
  header_type : u8
deriving DecidableEq

def PCI_BAR_MEM : u8 := 1

def PCI_BAR_IO : u8 := 2

structure pci_base_address_register where
  address : u32
  size : u32
  type : u8
deriving DecidableEq

/-- The address word of both accesses. No field is masked but the offset. -/
def config_word (device : pci_device) (func offset : u8) : u32 :=
  let lbus := device.bus.setWidth 32
  let lslot := device.slot.setWidth 32
  let lfunc := func.setWidth 32
  (lbus <<< 16) ||| (lslot <<< 11) ||| (lfunc <<< 8) ||| ((offset &&& 0xFC).setWidth 32) |||
    0x80000000

def pci_config_write32 (ports : Ports) (device : pci_device) (func offset : u8) (data : u32) :
    Ports :=
  let address := config_word device func offset
  let ports := outl ports CONFIG_ADDRESS address
  outl ports CONFIG_DATA data

def pci_config_read32 (ports : Ports) (device : pci_device) (func offset : u8) : u32 × Ports :=
  let address := config_word device func offset
  let ports := outl ports CONFIG_ADDRESS address
  (inl ports CONFIG_DATA, ports)

def pci_get_bar (ports : Ports) (device : pci_device) (bar_index : u8)
    (bar : pci_base_address_register) : Bool × pci_base_address_register × Ports :=
  if bar_index > 5 then (false, bar, ports)
  else
    let offset := 0x10 + bar_index * 4
    let (physical_bar, ports) := pci_config_read32 ports device 0 offset
    let type := if physical_bar &&& 0x1 ≠ 0 then PCI_BAR_IO else PCI_BAR_MEM
    let original_bar := physical_bar
    let physical_bar := physical_bar &&& 0xFFFFFFF0
    let ports := pci_config_write32 ports device 0 offset 0xFFFFFFFF
    let (bar_result, ports) := pci_config_read32 ports device 0 offset
    let bar_result := bar_result &&& ~~~0xF
    let bar_result := ~~~bar_result
    let bar_result := bar_result + 1
    let ports := pci_config_write32 ports device 0 offset original_bar
    (true, { address := physical_bar, size := bar_result, type }, ports)

/-- The slots of one bus. The device structure keeps the last place that was tried. -/
def pci_devices_by_id_slots (class_id subclass_id bus : u8) :
    List u8 → Ports → pci_device → Bool × pci_device × Ports
  | [], ports, device => (false, device, ports)
  | slot :: slots, ports, device =>
    let device := { device with bus, slot }
    let (info, ports) := pci_config_read32 ports device 0 0x8
    let class_info : u16 := (info >>> 16).setWidth 16
    let h_classcode := (class_info &&& 0xFF00) >>> 8
    let h_subclass := class_info &&& 0x00FF
    if h_classcode ≠ class_id.setWidth 16 then
      pci_devices_by_id_slots class_id subclass_id bus slots ports device
    else if h_subclass ≠ subclass_id.setWidth 16 then
      pci_devices_by_id_slots class_id subclass_id bus slots ports device
    else
      let (device_vendor, ports) := pci_config_read32 ports device 0 0
      let device := {
        device with
        vendor := (device_vendor &&& 0xFFFF).setWidth 16
        device := (device_vendor >>> 16).setWidth 16 }
      let (BIST_headertype_latencytimer_cachesize, ports) := pci_config_read32 ports device 0 0xC
      let header_type : u8 := (BIST_headertype_latencytimer_cachesize >>> 16).setWidth 8
      (true, { device with header_type := header_type &&& 0xFF }, ports)

def pci_devices_by_id_buses (class_id subclass_id : u8) :
    List u8 → Ports → pci_device → Bool × pci_device × Ports
  | [], ports, device => (false, device, ports)
  | bus :: buses, ports, device =>
    -- `for (u8 slot = 0; slot < 255; slot++)`
    match pci_devices_by_id_slots class_id subclass_id bus ((List.range 255).map (BitVec.ofNat 8))
      ports device with
    | (true, device, ports) => (true, device, ports)
    | (false, device, ports) => pci_devices_by_id_buses class_id subclass_id buses ports device

/-- `for (u8 bus = 0; bus < 255; bus++)` -/
def pci_devices_by_id (ports : Ports) (class_id subclass_id : u8) (pci_device : pci_device) :
    Bool × pci.pci_device × Ports :=
  pci_devices_by_id_buses class_id subclass_id ((List.range 255).map (BitVec.ofNat 8)) ports
    pci_device

/-! ## Reads and writes of registers -/

variable {ports : Ports} {device : pci_device} {func offset : u8} {space : Space} {address : u32}
  {r : Register 32}

@[simp]
theorem pci_config_read32_eq :
    pci_config_read32 ports device func offset =
      (ports.space.read (config_word device func offset),
        { ports with config_address := config_word device func offset }) := rfl

@[simp]
theorem pci_config_write32_eq (data : u32) :
    pci_config_write32 ports device func offset data =
      { config_address := config_word device func offset
        space := ports.space.write (config_word device func offset) data } := rfl

theorem Space.read_of_register (h : space.register address = some r) :
    space.read address = r.value := by
  unfold Space.read
  rw [h]

/-- A register answers at its place. -/
theorem Space.register_eq_some_iff :
    space.register address = some r ↔ ∃ place dev, decode address = some place ∧
      space place.bus place.slot place.func = some dev ∧ dev place.register = r := by
  unfold Space.register
  cases decode address with
  | none => simp
  | some place =>
    cases hdev : space place.bus place.slot place.func with
    | none => simp [hdev]
    | some dev => simp [hdev]

/-- After a write the register has taken the bits that stick. -/
theorem Space.register_write (h : space.register address = some r) (value : u32) :
    (space.write address value).register address = some (r.write value) := by
  obtain ⟨place, dev, hplace, hdev, hr⟩ := Space.register_eq_some_iff.mp h
  apply Space.register_eq_some_iff.mpr
  refine ⟨place, fun n => if n = place.register then r.write value else dev n, hplace, ?_, ?_⟩
  · unfold Space.write Space.set
    rw [hplace, h]
    simp [hdev]
  · simp

/-- Two writes, of which the second one puts the old value back, change nothing. -/
theorem Space.write_write_back (h : space.register address = some r) (value : u32) :
    (space.write address value).write address r.value = space := by
  have hwritten := Space.register_write h value
  obtain ⟨place, dev, hplace, hdev, hr⟩ := Space.register_eq_some_iff.mp h
  unfold Space.write at hwritten ⊢
  rw [hplace, h] at hwritten ⊢
  dsimp only at hwritten ⊢
  rw [hwritten]
  dsimp only
  rw [Register.write_back]
  funext bus slot func
  unfold Space.set
  by_cases hhere : bus = place.bus ∧ slot = place.slot ∧ func = place.func
  · obtain ⟨rfl, rfl, rfl⟩ := hhere
    have hsame : (fun register => if register = place.register then r
        else if register = place.register then r.write value else dev register) = dev := by
      funext register
      split_ifs with hregister
      · rw [hregister, hr]
      · rfl
    simp [hdev, hsame]
  · simp [hhere]

end salsola.pci
