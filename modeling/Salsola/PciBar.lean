-- The size of a BAR: the driver takes four information bits off whatever comes
-- back, also where an I/O BAR has two.
import Salsola.Pci

open words

namespace salsola.pci

variable {ports : Ports} {device : pci_device} {bar_index : u8} {r : Register 32} {io : Bool}
  {k : Nat} {base : u32} {bar : pci_base_address_register}

/-- The read-only type bits of a BAR: two for I/O, four for memory. -/
def type_bits (io : Bool) : Nat := if io then 2 else 4

/-- A BAR that obeys the rules: a window of `2 ^ k` addresses at a base that is a multiple of its
size, with read-only type bits of which the lowest one says whether it is I/O. -/
structure IsBar (r : Register 32) (io : Bool) (k : Nat) (base : u32) : Prop where
  big : type_bits io ≤ k
  small : k ≤ 31
  writable : r.writable = ~~~low_ones 32 k
  aligned : 2 ^ k ∣ base.toNat
  value : ∃ low : u32, r.value = base ||| low ∧ low.toNat < 2 ^ type_bits io ∧
    low.getLsbD 0 = io

/-- The word that selects a BAR of a device. -/
def bar_word (device : pci_device) (bar_index : u8) : u32 :=
  config_word device 0 (0x10 + bar_index * 4)

/-- What the driver reports of a register: its masks are those of memory. -/
def reported (r : Register 32) : pci_base_address_register where
  address := r.value &&& ~~~low_ones 32 4
  size := ~~~((r.write (BitVec.allOnes 32)).value &&& ~~~low_ones 32 4) + 1
  type := if r.value.getLsbD 0 then PCI_BAR_IO else PCI_BAR_MEM

theorem low_bit (x : u32) : x &&& 0x1 ≠ 0 ↔ x.getLsbD 0 = true := by
  rw [show (0x1 : u32) = 1#32 from rfl, BitVec.and_one_eq_setWidth_ofBool_getLsbD]
  cases x.getLsbD 0 <;> decide

/-- The register answers, is sized, and gets its old value back. -/
theorem pci_get_bar_eq (hindex : bar_index ≤ 5)
    (hr : ports.space.register (bar_word device bar_index) = some r) :
    pci_get_bar ports device bar_index bar =
      (true, reported r, { ports with config_address := bar_word device bar_index }) := by
  have hmask : (0xFFFFFFF0 : u32) = ~~~low_ones 32 4 ∧ ~~~(0xF : u32) = ~~~low_ones 32 4 ∧
      (0xFFFFFFFF : u32) = BitVec.allOnes 32 := by decide
  have hread := Space.read_of_register hr
  have hwritten := Space.read_of_register (Space.register_write hr (BitVec.allOnes 32))
  have hback := Space.write_write_back hr (BitVec.allOnes 32)
  have hword : config_word device 0 (0x10 + bar_index * 4) = bar_word device bar_index := rfl
  have hsmall : ¬ bar_index > 5 := by
    simp only [gt_iff_lt, BitVec.not_lt]
    exact hindex
  unfold pci_get_bar reported
  rw [if_neg hsmall]
  simp only [pci_config_read32_eq, pci_config_write32_eq, hmask, hword, hread, hwritten, hback,
    low_bit]

/-- The size is the window's, unless that is below 16. -/
theorem reported_size (h : IsBar r io k base) :
    (reported r).size = BitVec.ofNat 32 (2 ^ max k 4) := by
  obtain ⟨low, hvalue, hlow, -⟩ := h.value
  have hwindow : r.Window 4 k := by
    refine ⟨h.writable, ?_⟩
    intro i hi hik
    have hbits : type_bits io ≤ i := by
      unfold type_bits
      split_ifs <;> omega
    rw [hvalue, BitVec.getLsbD_or, low_bits_of_dvd h.aligned hik, high_bits_of_lt hlow hbits]
    rfl
  exact hwindow.sizing

theorem reported_type (h : IsBar r io k base) :
    (reported r).type = if io then PCI_BAR_IO else PCI_BAR_MEM := by
  obtain ⟨low, hvalue, -, hbit⟩ := h.value
  have hk : 0 < k := by
    have hbig := h.big
    unfold type_bits at hbig
    split_ifs at hbig <;> omega
  have hzero : r.value.getLsbD 0 = io := by
    rw [hvalue, BitVec.getLsbD_or, low_bits_of_dvd h.aligned hk, hbit]
    rfl
  unfold reported
  simp only [hzero]

theorem reported_address (h : IsBar r io k base) (hk : 4 ≤ k) : (reported r).address = base := by
  obtain ⟨low, hvalue, hlow, -⟩ := h.value
  have hbase : 2 ^ 4 ∣ base.toNat := (Nat.pow_dvd_pow 2 hk).trans h.aligned
  have hlow4 : low.toNat < 2 ^ 4 := by
    apply Nat.lt_of_lt_of_le hlow
    unfold type_bits
    split_ifs <;> decide
  unfold reported
  dsimp only
  rw [hvalue]
  exact base_of_masked hbase hlow4

theorem size_eq_iff (hk : k ≤ 31) : (BitVec.ofNat 32 (2 ^ max k 4)).toNat = 2 ^ k ↔ 4 ≤ k := by
  have hlt : 2 ^ max k 4 < 2 ^ 32 := Nat.pow_lt_pow_right (by decide) (by omega)
  rw [BitVec.toNat_ofNat, Nat.mod_eq_of_lt hlt, Nat.pow_right_inj (le_refl 2)]
  omega

/-- The driver reports the BAR as it is, and leaves it as it was, exactly when it is a memory BAR,
or an I/O BAR with at least 16 ports. -/
theorem a_bar_is_reported_iff (hindex : bar_index ≤ 5)
    (hr : ports.space.register (bar_word device bar_index) = some r) (h : IsBar r io k base) :
    (∃ bar' ports', pci_get_bar ports device bar_index bar = (true, bar', ports') ∧
      bar'.type = (if io then PCI_BAR_IO else PCI_BAR_MEM) ∧ bar'.address = base ∧
      bar'.size.toNat = 2 ^ k ∧ ports'.space = ports.space) ↔
    (io = true → 4 ≤ k) := by
  rw [pci_get_bar_eq hindex hr]
  constructor
  · rintro ⟨bar', ports', heq, -, -, hsize, -⟩ -
    obtain ⟨-, heq⟩ := Prod.mk.inj heq
    obtain ⟨rfl, -⟩ := Prod.mk.inj heq
    rw [reported_size h] at hsize
    exact (size_eq_iff h.small).mp hsize
  · intro hio
    have hk : 4 ≤ k := by
      cases io with
      | true => exact hio rfl
      | false => exact h.big
    refine ⟨_, _, rfl, reported_type h, reported_address h hk, ?_, rfl⟩
    rw [reported_size h]
    exact (size_eq_iff h.small).mpr hk

/-- Every device has this register everywhere. -/
def uniform (r : Register 32) : Ports where
  config_address := 0
  space := fun _ _ _ => some fun _ => r

/-- 4 KiB of memory at `0xFEBF1000`. -/
def a_memory_bar : Register 32 := { value := 0xFEBF1000, writable := ~~~low_ones 32 12 }

theorem a_memory_bar_obeys : IsBar a_memory_bar false 12 0xFEBF1000 := by
  refine ⟨by decide, by decide, rfl, by decide, 0, by decide, by decide, by decide⟩

theorem a_memory_bar_is_reported :
    ∃ bar' ports', pci_get_bar (uniform a_memory_bar) ⟨0x8086, 0x2922, 0, 31, 0⟩ 5 ⟨0, 0, 0⟩ =
        (true, bar', ports') ∧
      bar'.type = PCI_BAR_MEM ∧ bar'.address = 0xFEBF1000 ∧
      bar'.size.toNat = 2 ^ 12 ∧ ports'.space = (uniform a_memory_bar).space :=
  (a_bar_is_reported_iff (by decide) rfl a_memory_bar_obeys).mpr (fun _ => by decide)

/-- Four ports at `0xC000`. -/
def an_io_bar : Register 32 := { value := 0xC001, writable := ~~~low_ones 32 2 }

theorem an_io_bar_obeys : IsBar an_io_bar true 2 0xC000 := by
  refine ⟨by decide, by decide, rfl, by decide, 1, by decide, by decide, by decide⟩

/-- Of four ports the driver makes sixteen. -/
theorem four_ports_count_as_sixteen :
    ¬ ∀ (ports : Ports) (device : pci_device) (bar_index : u8) (r : Register 32) (io : Bool)
      (k : Nat) (base : u32) (bar : pci_base_address_register), bar_index ≤ 5 →
      ports.space.register (bar_word device bar_index) = some r → IsBar r io k base →
      ∃ bar' ports', pci_get_bar ports device bar_index bar = (true, bar', ports') ∧
        bar'.type = (if io then PCI_BAR_IO else PCI_BAR_MEM) ∧ bar'.address = base ∧
        bar'.size.toNat = 2 ^ k ∧ ports'.space = ports.space := by
  intro h
  have hindex : (4 : u8) ≤ 5 := by decide
  have hr : (uniform an_io_bar).space.register (bar_word ⟨0x8086, 0x2922, 0, 31, 0⟩ 4) =
      some an_io_bar := rfl
  obtain ⟨bar', ports', heq, -, -, hsize, -⟩ := h (uniform an_io_bar) ⟨0x8086, 0x2922, 0, 31, 0⟩ 4
    an_io_bar true 2 0xC000 ⟨0, 0, 0⟩ hindex hr an_io_bar_obeys
  rw [pci_get_bar_eq hindex hr] at heq
  obtain ⟨-, heq⟩ := Prod.mk.inj heq
  obtain ⟨rfl, -⟩ := Prod.mk.inj heq
  revert hsize
  decide

end salsola.pci
