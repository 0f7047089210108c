-- The setup of a port: its addresses lose their upper halves, and the bit that
-- lets the device write what it receives is never set.
import Salsola.Ahci
import Mathlib.Logic.Function.Iterate

open outcome salsola.pci

namespace salsola.ahci

variable {tr : Translation} {device : Device} {fuel : Nat} {hba hba' : Hba} {port port' : HBA_PORT}
  {mask : u32} {clb fb tables : Nat}

/-- ST and FRE: the driver starts the device with them. -/
def START_BITS : u32 := 0x11

/-- CR and FR: the device says with them that it runs. -/
def RUN_BITS : u32 := 0xC000

/-- The device changes only its own bits of the command register, and none of its base addresses,
and it stops some time after it is told to. -/
structure Obeys (device : Device) : Prop where
  command : ∀ port, (device port).cmd &&& ~~~RUN_BITS = port.cmd &&& ~~~RUN_BITS
  bases : ∀ port, (device port).clb = port.clb ∧ (device port).fb = port.fb
  stops : ∀ port, port.cmd &&& START_BITS = 0 → ∃ n, (device^[n] port).cmd &&& RUN_BITS = 0

/-! ## Waits -/

/-- The registers that the driver waits with, as far as the device leaves them alone. -/
structure Same (port port' : HBA_PORT) : Prop where
  command : port'.cmd &&& ~~~RUN_BITS = port.cmd &&& ~~~RUN_BITS
  clb : port'.clb = port.clb
  fb : port'.fb = port.fb

theorem wait_clear.spec (hobeys : Obeys device) (fuel : Nat) (mask : u32) (port : HBA_PORT) :
    Spec (wait_clear device mask fuel port) (· = .spin)
      (fun port' => Same port port' ∧ port'.cmd &&& mask = 0) := by
  induction fuel generalizing port with
  | zero =>
    unfold wait_clear
    split_ifs with hmask
    · exact ⟨⟨rfl, rfl, rfl⟩, hmask⟩
    · rfl
  | succ fuel ih =>
    unfold wait_clear
    split_ifs with hmask
    · exact ⟨⟨rfl, rfl, rfl⟩, hmask⟩
    · apply spec_post (ih (device port))
      rintro port' ⟨hsame, hclear⟩
      exact ⟨⟨hsame.command.trans (hobeys.command port), hsame.clb.trans (hobeys.bases port).1,
        hsame.fb.trans (hobeys.bases port).2⟩, hclear⟩

/-- A device that was told to stop lets the wait end. -/
theorem wait_clear_returns {n : Nat} (hn : (device^[n] port).cmd &&& mask = 0) :
    ∃ port', wait_clear device mask n port = .ok port' := by
  induction n generalizing port with
  | zero => exact ⟨port, if_pos hn⟩
  | succ n ih =>
    unfold wait_clear
    split_ifs with hmask
    · exact ⟨port, rfl⟩
    · exact ih hn

theorem wait_clear_at_once (hmask : port.cmd &&& mask = 0) (fuel : Nat) :
    wait_clear device mask fuel port = .ok port := by
  cases fuel <;> exact if_pos hmask

/-- The stop clears ST and FRE. -/
theorem ahci_stop_command_execution.spec (hobeys : Obeys device) (fuel : Nat) (port : HBA_PORT) :
    Spec (ahci_stop_command_execution device fuel port) (· = .spin)
      (fun port' => port'.cmd &&& ~~~RUN_BITS = port.cmd &&& ~~~START_BITS &&& ~~~RUN_BITS ∧
        port'.cmd &&& RUN_BITS = 0) := by
  have hbits : ~~~((1 : u32) <<< 0) &&& ~~~((1 : u32) <<< 4) = ~~~START_BITS := by decide
  have hmask : ((1 : u32) <<< 14) ||| ((1 : u32) <<< 15) = RUN_BITS := by decide
  unfold ahci_stop_command_execution
  rw [hmask]
  apply spec_post (wait_clear.spec hobeys fuel _ _)
  rintro port' ⟨hsame, hclear⟩
  refine ⟨?_, hclear⟩
  rw [hsame.command, ← hbits, ← BitVec.and_assoc]

/-- The start sets ST, and bit 2 in the place of FRE. -/
theorem ahci_start_command_execution.spec (hobeys : Obeys device) (fuel : Nat) (port : HBA_PORT) :
    Spec (ahci_start_command_execution device fuel port) (· = .spin)
      (fun port' => port'.cmd &&& ~~~RUN_BITS = (port.cmd ||| 0x5) &&& ~~~RUN_BITS ∧
        port'.clb = port.clb ∧ port'.fb = port.fb) := by
  have hbits : ((4 : u32) <<< 0) ||| ((1 : u32) <<< 0) = 0x5 := by decide
  unfold ahci_start_command_execution
  refine spec_bind (wait_clear.spec hobeys fuel _ port) fun waited hwaited => ?_
  refine ⟨?_, hwaited.1.clb, hwaited.1.fb⟩
  dsimp only
  rw [BitVec.or_assoc, hbits, BitVec.and_or_distrib_right, hwaited.1.command,
    ← BitVec.and_or_distrib_right]

/-! ## Headers -/

/-- The headers point at tables of 256 bytes, one behind the other. -/
theorem write_headers_eq (virt_clb_address : Nat) (command_table_array : u32)
    (headers : Nat → HBA_CMD_HEADER) (n : Nat) {i : Nat} (hi : i < n) :
    (write_headers virt_clb_address command_table_array headers n
        (virt_clb_address + SIZEOF_HEADER * i)).ctba =
      command_table_array + BitVec.ofNat 32 i * 256 := by
  induction n with
  | zero => omega
  | succ n ih =>
    unfold write_headers
    dsimp only
    by_cases hlast : i = n
    · rw [hlast, Function.update_self]
    · have hother : virt_clb_address + SIZEOF_HEADER * i ≠
          virt_clb_address + SIZEOF_HEADER * n := by
        unfold SIZEOF_HEADER
        omega
      rw [Function.update_of_ne hother]
      exact ih (by omega)

/-! ## Setup -/

/-- What the driver makes of a port: it translates the lower halves of the addresses. -/
structure Programmed (tr : Translation) (clb fb tables : Nat) (before after : Hba) : Prop where
  list : after.port.clb = BitVec.ofNat 32 (tr.virtual_to_physical (clb % 2 ^ 32)) &&& ~~~0x3FF
  received : after.port.fb = BitVec.ofNat 32 (tr.virtual_to_physical (fb % 2 ^ 32))
  headers : ∀ i < 32, (after.headers (clb % 2 ^ 32 + SIZEOF_HEADER * i)).ctba =
    BitVec.ofNat 32 (tr.virtual_to_physical (tables % 2 ^ 32)) + BitVec.ofNat 32 i * 256
  command : after.port.cmd &&& ~~~RUN_BITS =
    (before.port.cmd &&& ~~~START_BITS ||| 0x5) &&& ~~~RUN_BITS

theorem ahci_sata_setup.spec (hobeys : Obeys device)
    (h : ahci_sata_setup tr device fuel hba clb fb tables = .ok hba') :
    Programmed tr clb fb tables hba hba' := by
  unfold ahci_sata_setup ahci_set_base at h
  simp only [BitVec.toNat_ofNat] at h
  obtain ⟨stopped, hstop, h⟩ := bind_eq_ok.mp h
  obtain ⟨-, -, h⟩ := bind_eq_ok.mp h
  obtain ⟨-, -, h⟩ := bind_eq_ok.mp h
  obtain ⟨started, hstart, h⟩ := bind_eq_ok.mp h
  obtain rfl := Except.ok.inj h
  obtain ⟨hcommand, hclb, hfb⟩ :=
    spec_of_ok (ahci_start_command_execution.spec hobeys fuel _) hstart
  have hstopped := (spec_of_ok (ahci_stop_command_execution.spec hobeys fuel _) hstop).1
  refine ⟨hclb, hfb, fun i hi => write_headers_eq _ _ _ 32 hi, ?_⟩
  dsimp only at hcommand ⊢
  rw [hcommand, BitVec.and_or_distrib_right, hstopped, ← BitVec.and_or_distrib_right]
  rfl

theorem ahci_stop_command_execution_returns (hobeys : Obeys device) (port : HBA_PORT) :
    ∃ fuel port', ahci_stop_command_execution device fuel port = .ok port' := by
  have hstart : ~~~((1 : u32) <<< 0) &&& (~~~((1 : u32) <<< 4) &&& START_BITS) = 0 := by decide
  have hmask : ((1 : u32) <<< 14) ||| ((1 : u32) <<< 15) = RUN_BITS := by decide
  obtain ⟨n, hn⟩ := hobeys.stops
    { port with cmd := port.cmd &&& ~~~((1 : u32) <<< 0) &&& ~~~((1 : u32) <<< 4) } (by
      dsimp only
      rw [BitVec.and_assoc, BitVec.and_assoc, hstart]
      exact BitVec.and_zero)
  unfold ahci_stop_command_execution
  rw [hmask]
  exact ⟨n, wait_clear_returns hn⟩

theorem ahci_start_command_execution_returns (hclear : port.cmd &&& RUN_BITS = 0) (fuel : Nat) :
    ∃ port', ahci_start_command_execution device fuel port = .ok port' := by
  have hmask : (1 : u32) <<< 14 = RUN_BITS &&& ((1 : u32) <<< 14) := by decide
  have hclear14 : port.cmd &&& ((1 : u32) <<< 14) = 0 := by
    rw [hmask, ← BitVec.and_assoc, hclear]
    exact BitVec.zero_and
  unfold ahci_start_command_execution
  rw [wait_clear_at_once hclear14]
  exact ⟨_, rfl⟩

/-- With its addresses aligned and time enough, the setup returns. -/
theorem ahci_sata_setup_returns (hobeys : Obeys device) (tr : Translation) (hba : Hba)
    (clb fb tables : Nat)
    (hclb : 0 = BitVec.ofNat 32 (tr.virtual_to_physical (clb % 2 ^ 32)) &&& 0x3FF)
    (hfb : 0 = BitVec.ofNat 32 (tr.virtual_to_physical (fb % 2 ^ 32)) &&& 0xFF) :
    ∃ fuel hba', ahci_sata_setup tr device fuel hba clb fb tables = .ok hba' := by
  obtain ⟨fuel, stopped, hstop⟩ := ahci_stop_command_execution_returns hobeys hba.port
  have hclear := (spec_of_ok (ahci_stop_command_execution.spec hobeys fuel _) hstop).2
  refine ⟨fuel, ?_⟩
  unfold ahci_sata_setup ahci_set_base
  simp only [BitVec.toNat_ofNat, assert_of hclb, assert_of hfb, ok_bind]
  rw [show (((hba.clear (clb % 2 ^ 32) 1024).clear (fb % 2 ^ 32) 256).clear (tables % 2 ^ 32)
    (256 * 32)).port = hba.port from rfl, hstop]
  rw [ok_bind]
  obtain ⟨started, hstart⟩ : ∃ port', ahci_start_command_execution device fuel { stopped with
      clb := BitVec.ofNat 32 (tr.virtual_to_physical (clb % 2 ^ 32)) &&& ~~~0x3FF, clbu := 0
      fb := BitVec.ofNat 32 (tr.virtual_to_physical (fb % 2 ^ 32)), fbu := 0 } = .ok port' := by
    apply ahci_start_command_execution_returns
    exact hclear
  rw [hstart]
  exact ⟨_, rfl⟩

/-! ## The result -/

/-- The port is set up: the device finds the command list, the block that it writes what it
receives to, and the 32 tables, and it is started. -/
structure SetUp (tr : Translation) (clb fb tables : Nat) (before after : Hba) : Prop where
  list : after.port.clb.toNat = tr.virtual_to_physical clb
  received : after.port.fb.toNat = tr.virtual_to_physical fb
  headers : ∀ i < 32, (after.headers (clb + SIZEOF_HEADER * i)).ctba.toNat =
    tr.virtual_to_physical tables + 256 * i
  command : after.port.cmd &&& ~~~RUN_BITS = (before.port.cmd ||| START_BITS) &&& ~~~RUN_BITS

/-- FRE stays clear, wherever the blocks are and whatever the register held: no port is ever set
up. -/
theorem no_port_is_ever_set_up (hobeys : Obeys device) (tr : Translation) (hba : Hba)
    (clb fb tables : Nat) :
    ¬ ∃ fuel hba', ahci_sata_setup tr device fuel hba clb fb tables = .ok hba' ∧
      SetUp tr clb fb tables hba hba' := by
  rintro ⟨fuel, hba', hreturns, hsetup⟩
  have hcommand := hsetup.command
  rw [(ahci_sata_setup.spec hobeys hreturns).command] at hcommand
  have hstart4 : START_BITS.getLsbD 4 = true := by decide
  have hrun4 : RUN_BITS.getLsbD 4 = false := by decide
  have hfive4 : (0x5 : u32).getLsbD 4 = false := by decide
  have hbit := congrArg (fun x => BitVec.getLsbD x 4) hcommand
  simp only [BitVec.getLsbD_and, BitVec.getLsbD_or, BitVec.getLsbD_not, hstart4, hrun4,
    hfive4] at hbit
  simp at hbit

/-- A device that stops at once. -/
def prompt : Device := fun port => { port with cmd := port.cmd &&& ~~~RUN_BITS }

theorem prompt_obeys : Obeys prompt where
  command port := by
    unfold prompt
    rw [BitVec.and_assoc, BitVec.and_self]
  bases _ := ⟨rfl, rfl⟩
  stops port _ := by
    have hnone : ~~~RUN_BITS &&& RUN_BITS = 0 := by decide
    refine ⟨1, ?_⟩
    rw [Function.iterate_one]
    unfold prompt
    rw [BitVec.and_assoc, hnone]
    exact BitVec.and_zero

/-- All memory is zero, and so are the registers. -/
def idle : Hba where
  port := ⟨0, 0, 0, 0, 0, 0, 0, 0, 0⟩
  headers := fun _ => ⟨0, 0, 0, 0, 0⟩
  tables := fun _ => ⟨no_fis, fun _ => ⟨0, 0, 0, 0⟩⟩
  issued := []

/-- The window of the kernel is mapped in order. -/
def linear : Translation where
  virtual_to_physical := fun a => a % 2 ^ 30
  physical_to_virtual := fun a => 0xFFFFFF8000000000 + a
  mmu_physical_to_virtual := fun a => 0xFFFFFF8000000000 + a

theorem linear_paging : Paging linear (fun n => some (n % 2 ^ 18)) where
  translates a := by
    unfold linear
    simp only [Option.map_some, Option.getD_some]
    omega
  small n f hf := by
    obtain rfl := Option.some.inj hf
    omega

theorem the_prompt_port_is_not_set_up :
    ¬ ∃ fuel hba', ahci_sata_setup linear prompt fuel idle 0xFFFFFF8000201000
        0xFFFFFF8000202000 0xFFFFFF8000203000 = .ok hba' ∧
      SetUp linear 0xFFFFFF8000201000 0xFFFFFF8000202000 0xFFFFFF8000203000 idle hba' :=
  no_port_is_ever_set_up prompt_obeys linear idle _ _ _

/-- Three pages behind one another, and the port still cannot receive. -/
theorem a_port_that_cannot_receive :
    ¬ ∀ (tr : Translation) (frame_of : Nat → Option Nat) (device : Device) (hba : Hba)
      (clb fb tables : Nat), Paging tr frame_of → Obeys device →
      clb % 0x1000 = 0 → fb % 0x1000 = 0 → tables % 0x1000 = 0 →
      ∃ fuel hba', ahci_sata_setup tr device fuel hba clb fb tables = .ok hba' ∧
        SetUp tr clb fb tables hba hba' := by
  intro h
  obtain ⟨fuel, hba', hreturns, hsetup⟩ := h linear _ prompt idle 0xFFFFFF8000201000
    0xFFFFFF8000202000 0xFFFFFF8000203000 linear_paging prompt_obeys (by decide) (by decide)
    (by decide)
  have hcommand := hsetup.command
  rw [(ahci_sata_setup.spec prompt_obeys hreturns).command] at hcommand
  revert hcommand
  decide

end salsola.ahci
