-- The AHCI driver, as ahci.c computes it: the registers of a port, the command
-- headers and tables that the device reads, and the waits for the device.
import Salsola.Machine
import Salsola.Pci

open salsola.pci

namespace salsola.ahci

/-! ## What the device reads -/

structure HBA_PRDT_ENTRY where
  dba : u32
  dbau : u32
  /-- One less than the number of bytes. -/
  dbc : BitVec 22
  i : BitVec 1
deriving DecidableEq

structure FIS_REG_H2D where
  fis_type : u8
  c : BitVec 1
  command : u8
  lba0 : u8
  lba1 : u8
  lba2 : u8
  device : u8
  lba3 : u8
  lba4 : u8
  lba5 : u8
  countl : u8
  counth : u8
deriving DecidableEq

structure HBA_CMD_TBL where
  cfis : FIS_REG_H2D
  prdt_entry : Nat → HBA_PRDT_ENTRY

structure HBA_CMD_HEADER where
  /-- The length of the FIS in words. -/
  cfl : BitVec 5
  w : BitVec 1
  /-- The number of descriptors in the table. -/
  prdtl : u16
  ctba : u32
  ctbau : u32
deriving DecidableEq

structure HBA_PORT where
  clb : u32
  clbu : u32
  fb : u32
  fbu : u32
  is : u32
  cmd : u32
  tfd : u32
  sact : u32
  ci : u32
deriving DecidableEq

/-- The registers of one port, and the memory that is shared with the device, by virtual
addresses. -/
structure Hba where
  port : HBA_PORT
  headers : Nat → HBA_CMD_HEADER
  tables : Nat → HBA_CMD_TBL
  /-- The commands that were issued, with their tables. -/
  issued : List (HBA_CMD_HEADER × HBA_CMD_TBL)

/-- The translations that the driver calls. -/
structure Translation where
  virtual_to_physical : Nat → Nat
  physical_to_virtual : Nat → Nat
  mmu_physical_to_virtual : Nat → Nat

/-- The translation goes by pages: a page has a frame below 4 GiB, or there is none, and the
result is `NULL`. -/
structure Paging (tr : Translation) (frame_of : Nat → Option Nat) : Prop where
  translates : ∀ a, tr.virtual_to_physical a =
    ((frame_of (a / 0x1000)).map (· * 0x1000 + a % 0x1000)).getD 0
  small : ∀ n f, frame_of n = some f → f < 0x100000

/-- What the device makes of its registers between two looks of the driver at them. -/
abbrev Device := HBA_PORT → HBA_PORT

/-! ## Port setup -/

def num_prdt : u16 := 8

/-- `for (; port->cmd & mask;) ;` -/
def wait_clear (device : Device) (mask : u32) : Nat → HBA_PORT → Result HBA_PORT
  | 0, port => if port.cmd &&& mask = 0 then .ok port else .error .spin
  | fuel + 1, port =>
    if port.cmd &&& mask = 0 then .ok port else wait_clear device mask fuel (device port)

def ahci_start_command_execution (device : Device) (fuel : Nat) (port : HBA_PORT) :
    Result HBA_PORT := do
  let port ← wait_clear device ((1 : u32) <<< 14) fuel port
  let port := { port with cmd := port.cmd ||| ((4 : u32) <<< 0) }
  .ok { port with cmd := port.cmd ||| ((1 : u32) <<< 0) }

/-- The loop tests two bits, and both must be clear at one look. -/
def ahci_stop_command_execution (device : Device) (fuel : Nat) (port : HBA_PORT) :
    Result HBA_PORT :=
  let port := { port with cmd := port.cmd &&& ~~~((1 : u32) <<< 0) }
  let port := { port with cmd := port.cmd &&& ~~~((1 : u32) <<< 4) }
  wait_clear device (((1 : u32) <<< 14) ||| ((1 : u32) <<< 15)) fuel port

def SIZEOF_HEADER : Nat := 32

/-- The loop over the 32 command headers. -/
def write_headers (virt_clb_address : Nat) (command_table_array : u32)
    (headers : Nat → HBA_CMD_HEADER) : Nat → (Nat → HBA_CMD_HEADER)
  | 0 => headers
  | i + 1 =>
    let headers := write_headers virt_clb_address command_table_array headers i
    let a := virt_clb_address + SIZEOF_HEADER * i
    Function.update headers a { headers a with
      prdtl := num_prdt
      ctba := command_table_array + BitVec.ofNat 32 i * 256
      ctbau := 0 }

/-- The three addresses are virtual ones, cut to 32 bits. -/
def ahci_set_base (tr : Translation) (device : Device) (fuel : Nat) (hba : Hba)
    (virt_clb_address virt_fb_address virt_command_table_array : u32) : Result Hba := do
  let clb_address := BitVec.ofNat 32 (tr.virtual_to_physical virt_clb_address.toNat)
  let fb_address := BitVec.ofNat 32 (tr.virtual_to_physical virt_fb_address.toNat)
  let command_table_array :=
    BitVec.ofNat 32 (tr.virtual_to_physical virt_command_table_array.toNat)
  let port ← ahci_stop_command_execution device fuel hba.port
  assert (0 = clb_address &&& 0x3FF)
  assert (0 = fb_address &&& 0xFF)
  let port := { port with
    clb := clb_address &&& ~~~0x3FF, clbu := 0, fb := fb_address, fbu := 0 }
  let headers := write_headers virt_clb_address.toNat command_table_array hba.headers 32
  let port ← ahci_start_command_execution device fuel port
  .ok { hba with port, headers }

def no_fis : FIS_REG_H2D := ⟨0, 0, 0, 0, 0, 0, 0, 0, 0, 0, 0, 0⟩

/-- `memset` of the headers and the tables in a block. -/
def Hba.clear (hba : Hba) (address size : Nat) : Hba :=
  { hba with
    headers := fun a =>
      if address ≤ a ∧ a < address + size then ⟨0, 0, 0, 0, 0⟩ else hba.headers a
    tables := fun a =>
      if address ≤ a ∧ a < address + size then ⟨no_fis, fun _ => ⟨0, 0, 0, 0⟩⟩
      else hba.tables a }

/-- `clb`, `fb`, and `tables` are what the three calls of `kmalloc_align` give. -/
def ahci_sata_setup (tr : Translation) (device : Device) (fuel : Nat) (hba : Hba)
    (clb fb tables : Nat) : Result Hba :=
  let clb_address := BitVec.ofNat 32 clb
  let fb_address := BitVec.ofNat 32 fb
  let command_table_array := BitVec.ofNat 32 tables
  let hba := hba.clear clb_address.toNat 1024
  let hba := hba.clear fb_address.toNat 256
  let hba := hba.clear command_table_array.toNat (256 * 32)
  ahci_set_base tr device fuel hba clb_address fb_address command_table_array

/-! ## Commands -/

/-- The slot, and an error. -/
def get_free_command_slot (cap : u32) (port : HBA_PORT) : u8 × u8 :=
  let num_slots := (cap >>> 8) &&& 0x1F
  let slots := port.sact ||| port.ci
  match (List.range num_slots.toNat).find? fun i => decide ((slots >>> i) &&& 1 = 0) with
  | some i => (BitVec.ofNat 8 i, 0)
  | none => (0, 1)

/-- `do { .. } while (err);` -/
def wait_free_slot (device : Device) (cap : u32) : Nat → HBA_PORT → Result (u8 × HBA_PORT)
  | 0, _ => .error .spin
  | fuel + 1, port =>
    match get_free_command_slot cap port with
    | (command_slot, err) =>
      if err = 0 then .ok (command_slot, port) else wait_free_slot device cap fuel (device port)

def ATA_CMD_READ_DMA_EX : u8 := 0x25

def ATA_CMD_WRITE_DMA_EX : u8 := 0x35

def FIS_TYPE_REG_H2D : u8 := 0x27

/-- `memset` over the table with `prdtl` descriptors. -/
def clear_table (cmdtbl : HBA_CMD_TBL) (prdtl : Nat) : HBA_CMD_TBL where
  cfis := no_fis
  prdt_entry := fun i => if i < prdtl then ⟨0, 0, 0, 0⟩ else cmdtbl.prdt_entry i

/-- Fill one descriptor; the upper half of its address stays. -/
def set_prdt (cmdtbl : HBA_CMD_TBL) (i : Nat) (dba : u32) (dbc : u32) : HBA_CMD_TBL :=
  { cmdtbl with
    prdt_entry := Function.update cmdtbl.prdt_entry i
      { cmdtbl.prdt_entry i with dba, dbc := dbc.setWidth 22, i := 1 } }

/-- The descriptors of 16 sectors each: the turns that are left, and what the turns change. -/
def fill_prdt (tr : Translation) :
    Nat → Nat → HBA_CMD_TBL → Nat → u32 → Nat × HBA_CMD_TBL × Nat × u32
  | 0, i, cmdtbl, buffer, count => (i, cmdtbl, buffer, count)
  | left + 1, i, cmdtbl, buffer, count =>
    let dba := BitVec.ofNat 32 (tr.virtual_to_physical buffer)
    let cmdtbl := set_prdt cmdtbl i dba (8 * 1024 - 1)
    fill_prdt tr left (i + 1) cmdtbl (buffer + 2 * (4 * 1024)) (count - 16)

/-- The header of a command. -/
def fill_header (cmdheader : HBA_CMD_HEADER) (count : u32) (is_write : u8) : HBA_CMD_HEADER :=
  { cmdheader with
    w := is_write.setWidth 1
    cfl := 20 / 4
    prdtl := ((count - 1) / 16 + 1).setWidth 16 }

/-- The table of a command: the descriptors, and the FIS with what is left of `count` behind
them. -/
def fill_table (tr : Translation) (cmdtbl : HBA_CMD_TBL) (prdtl : Nat) (startl starth count : u32)
    (buffer : Nat) (is_write : u8) : HBA_CMD_TBL :=
  let cmdtbl := clear_table cmdtbl prdtl
  let (i, cmdtbl, buffer, count) := fill_prdt tr (prdtl - 1) 0 cmdtbl buffer count
  let dba := BitVec.ofNat 32 (tr.virtual_to_physical buffer)
  let cmdtbl := set_prdt cmdtbl i dba (count * 512 - 1)
  { cmdtbl with
    cfis := {
      fis_type := FIS_TYPE_REG_H2D
      c := 1
      command := if is_write ≠ 0 then ATA_CMD_WRITE_DMA_EX else ATA_CMD_READ_DMA_EX
      lba0 := startl.setWidth 8
      lba1 := (startl >>> 8).setWidth 8
      lba2 := (startl >>> 16).setWidth 8
      device := (1 : u8) <<< 6
      lba3 := (startl >>> 24).setWidth 8
      lba4 := starth.setWidth 8
      lba5 := (starth >>> 8).setWidth 8
      countl := (count &&& 0xFF).setWidth 8
      counth := ((count >>> 8) &&& 0xFF).setWidth 8 } }

def ATA_DEV_BUSY : u32 := 0x80

def ATA_DEV_DRQ : u32 := 0x08

def HBA_PxIS_TFES : u32 := (1 : u32) <<< 30

/-- The spins that are left until the port counts as hung, which the first result says. -/
def wait_not_busy (device : Device) : Nat → HBA_PORT → Bool × HBA_PORT
  | 0, port => (true, port)
  | left + 1, port =>
    if port.tfd &&& (ATA_DEV_BUSY ||| ATA_DEV_DRQ) ≠ 0 then
      wait_not_busy device left (device port)
    else (false, port)

/-- The first result says that the command failed. -/
def wait_done (device : Device) (bit : u32) : Nat → HBA_PORT → Result (Bool × HBA_PORT)
  | 0, _ => .error .spin
  | fuel + 1, port =>
    if port.ci &&& bit = 0 then .ok (false, port)
    else if port.is &&& HBA_PxIS_TFES ≠ 0 then .ok (true, port)
    else wait_done device bit fuel (device port)

/-- `cap` is a register of the controller. A one that is written to `is` clears its bit. -/
def ahci_perform_command (tr : Translation) (device : Device) (cap : u32) (fuel : Nat) (hba : Hba)
    (startl starth count : u32) (buffer : Nat) (is_write : u8) : Result (u8 × Hba) := do
  assert (count ≤ num_prdt.setWidth 32)
  let port := { hba.port with is := hba.port.is &&& ~~~(-1) }
  let (command_slot, port) ← wait_free_slot device cap fuel port
  let a := tr.mmu_physical_to_virtual port.clb.toNat + SIZEOF_HEADER * command_slot.toNat
  let cmdheader := fill_header (hba.headers a) count is_write
  let b := tr.physical_to_virtual cmdheader.ctba.toNat
  let cmdtbl :=
    fill_table tr (hba.tables b) cmdheader.prdtl.toNat startl starth count buffer is_write
  let hba := { hba with
    headers := Function.update hba.headers a cmdheader
    tables := Function.update hba.tables b cmdtbl }
  match wait_not_busy device 10000 port with
  | (true, port) => .ok (0, { hba with port })
  | (false, port) => do
    let bit := (1 : u32) <<< command_slot.toNat
    let hba := { hba with issued := hba.issued ++ [(cmdheader, cmdtbl)] }
    let (failed, port) ← wait_done device bit fuel { port with ci := bit }
    if failed ∨ port.is &&& HBA_PxIS_TFES ≠ 0 then .ok (0, { hba with port })
    else .ok (1, { hba with port })

end salsola.ahci
