-- Where the registers of a device are mapped: the kernel maps whole pages, and the
-- driver takes the start of the first one for the start of the BAR.
import Salsola.PciBar
import Salsola.MmuFree

open salsola.pci salsola.mmu outcome

namespace salsola.ahci

/-- The call of `ahci_init` that maps a BAR. -/
def map_bar (fuel : Nat) (s : Mmu) (bar : pci_base_address_register) : Result (Nat × Mmu) :=
  mmu_map_frames fuel s bar.address.toNat bar.size.toNat

/-- A BAR is mapped where the driver looks for it exactly when it starts at a page. This holds of
page tables that are sound, as those are that `mmu_init`, `mmu_update_stack` and all calls leave. -/
theorem a_bar_is_mapped_in_place_iff {W : Nat} {dirs : List Nat} {s : Mmu} (hs : Sound W dirs s)
    (bar : pci_base_address_register) {k : Nat} (hsize : bar.size.toNat = 2 ^ k) (fuel v : Nat)
    (s' : Mmu) (hcall : map_bar fuel s bar = .ok (v, s')) :
    (∀ off, off < bar.size.toNat →
      mmu_virtual_to_physical s' (v + off) = some (bar.address.toNat + off)) ↔
    bar.address.toNat % PAGE_SIZE = 0 := by
  obtain ⟨c, rfl, hshown⟩ := spec_of_ok (mmu_map_frames.spec hs fuel _ _) hcall
  have hpages : bar.size.toNat ≤ turns bar.size.toNat * 0x1000 := by
    unfold turns
    omega
  unfold PAGE_SIZE
  constructor
  · intro h
    have hpos : 0 < bar.size.toNat := hsize ▸ Nat.two_pow_pos k
    have hstart := h 0 hpos
    rw [hshown.translates (by omega)] at hstart
    have hsame := Option.some.inj hstart
    unfold page_base at hsame
    omega
  · intro haligned off hoff
    rw [hshown.translates (by omega)]
    unfold page_base
    congr 1
    omega

theorem a_bar_is_mapped_in_place_at_the_start :
    ∃ s v s', mmu_init WINDOW small_boot = .ok s ∧
      map_bar WINDOW s ⟨0xFEBF1000, 0x1000, PCI_BAR_MEM⟩ = .ok (v, s') ∧
      ∀ off, off < (0x1000 : u32).toNat →
        mmu_virtual_to_physical s' (v + off) = some ((0xFEBF1000 : u32).toNat + off) := by
  obtain ⟨s, hinit, hw, hmaps, -⟩ := small_boot_starts
  obtain ⟨v, s', hcall⟩ := hmaps (0xFEBF1000 : u32).toNat (0x1000 : u32).toNat (by decide)
    (by decide)
  have hsize : (0x1000 : u32).toNat = 2 ^ 12 := by decide
  exact ⟨s, v, s', hinit, hcall, (a_bar_is_mapped_in_place_iff hw.held.sound
    ⟨0xFEBF1000, 0x1000, PCI_BAR_MEM⟩ hsize WINDOW v s' hcall).mpr (by decide)⟩

/-- The registers of a device with 256 bytes of them in the middle of a page are looked for at the
start of the page. -/
theorem a_bar_inside_a_page_is_missed :
    ¬ ∀ (boot : Boot) (w : World) (_ : Reachable boot w) (bar : pci_base_address_register)
      (k : Nat), bar.type = PCI_BAR_MEM → bar.address.toNat % 16 = 0 → 4 ≤ k →
      bar.size.toNat = 2 ^ k →
      ∀ fuel v s', map_bar fuel w.state bar = .ok (v, s') →
      ∀ off, off < bar.size.toNat →
        mmu_virtual_to_physical s' (v + off) = some (bar.address.toNat + off) := by
  intro h
  obtain ⟨s, -, hw, hmaps, -⟩ := small_boot_starts
  obtain ⟨v, s', hcall⟩ := hmaps (0xFEBF1100 : u32).toNat (0x100 : u32).toNat (by decide)
    (by decide)
  have hstart := h small_boot _ hw ⟨0xFEBF1100, 0x100, PCI_BAR_MEM⟩ 8 rfl (by decide) (by decide)
    (by decide) WINDOW v s' hcall 0 (by decide)
  obtain ⟨c, rfl, hshown⟩ := spec_of_ok (mmu_map_frames.spec hw.held.sound WINDOW _ _) hcall
  rw [hshown.translates (by decide)] at hstart
  have hsame := Option.some.inj hstart
  revert hsame
  decide

end salsola.ahci
