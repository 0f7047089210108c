-- What an AHCI command describes: one descriptor for the whole buffer, also
-- where its two pages have frames that do not follow each other.
import Salsola.AhciSetup
import Salsola.MmuRuns
import Mathlib.Tactic.IntervalCases

open outcome salsola.pci

namespace salsola.ahci

variable {tr : Translation} {frame_of : Nat → Option Nat} {device : Device} {cap : u32}
  {fuel : Nat} {hba hba' : Hba} {startl starth count : u32} {buffer n : Nat} {is_write : u8}
  {cmdheader : HBA_CMD_HEADER} {cmdtbl : HBA_CMD_TBL}

/-! ## What a command says -/

/-- The physical bytes of a descriptor. -/
def HBA_PRDT_ENTRY.bytes (entry : HBA_PRDT_ENTRY) : List Nat :=
  (List.range (entry.dbc.toNat + 1)).map (entry.dba.toNat + 2 ^ 32 * entry.dbau.toNat + ·)

/-- The physical bytes of all descriptors of a command, in order. -/
def transferred (cmdheader : HBA_CMD_HEADER) (cmdtbl : HBA_CMD_TBL) : List Nat :=
  (List.range cmdheader.prdtl.toNat).flatMap fun i => (cmdtbl.prdt_entry i).bytes

def FIS_REG_H2D.lba (fis : FIS_REG_H2D) : Nat :=
  fis.lba0.toNat + 2 ^ 8 * fis.lba1.toNat + 2 ^ 16 * fis.lba2.toNat + 2 ^ 24 * fis.lba3.toNat +
    2 ^ 32 * fis.lba4.toNat + 2 ^ 40 * fis.lba5.toNat

/-- A count of 0 stands for 65536 sectors. -/
def FIS_REG_H2D.sectors (fis : FIS_REG_H2D) : Nat :=
  let count := fis.countl.toNat + 2 ^ 8 * fis.counth.toNat
  if count = 0 then 0x10000 else count

/-- The physical address of a mapped byte. -/
def physical (frame_of : Nat → Option Nat) (a : Nat) : Nat :=
  (frame_of (a / 0x1000)).getD 0 * 0x1000 + a % 0x1000

/-- The command moves the bytes of the buffer, and names the sectors. -/
structure Describes (frame_of : Nat → Option Nat) (startl starth count : u32) (buffer : Nat)
    (cmdheader : HBA_CMD_HEADER) (cmdtbl : HBA_CMD_TBL) : Prop where
  bytes : transferred cmdheader cmdtbl =
    (List.range (512 * count.toNat)).map fun i => physical frame_of (buffer + i)
  lba : cmdtbl.cfis.lba = starth.toNat * 2 ^ 32 + startl.toNat
  sectors : 512 * cmdtbl.cfis.sectors = (transferred cmdheader cmdtbl).length

/-! ## The command that is filled in -/

/-- The FIS names the first sector. -/
theorem fill_table_lba (hstarth : starth.toNat < 2 ^ 16) (prdtl : Nat) :
    (fill_table tr cmdtbl prdtl startl starth count buffer is_write).cfis.lba =
      starth.toNat * 2 ^ 32 + startl.toNat := by
  unfold fill_table FIS_REG_H2D.lba
  dsimp only
  simp only [BitVec.toNat_setWidth, BitVec.toNat_ushiftRight, Nat.shiftRight_eq_div_pow]
  omega

/-- A count that passes the assertion is a small number. -/
theorem count_cases (hcount : count ≤ num_prdt.setWidth 32) :
    ∃ k ≤ 8, count = BitVec.ofNat 32 k := by
  refine ⟨count.toNat, hcount, ?_⟩
  rw [BitVec.ofNat_toNat, BitVec.setWidth_eq]

/-- It has one descriptor, but 0 has none. -/
theorem fill_header_prdtl (hcount : count ≤ num_prdt.setWidth 32) :
    (fill_header cmdheader count is_write).prdtl.toNat = if count = 0 then 0 else 1 := by
  obtain ⟨k, hk, rfl⟩ := count_cases hcount
  unfold fill_header
  clear hcount
  dsimp only
  interval_cases k <;> decide

/-- No descriptor takes anything off the count. -/
theorem fill_table_sectors (hcount : count ≤ num_prdt.setWidth 32) {prdtl : Nat}
    (hprdtl : prdtl ≤ 1) :
    (fill_table tr cmdtbl prdtl startl starth count buffer is_write).cfis.sectors =
      if count = 0 then 0x10000 else count.toNat := by
  have hnone : prdtl - 1 = 0 := by omega
  obtain ⟨k, hk, rfl⟩ := count_cases hcount
  unfold fill_table FIS_REG_H2D.sectors
  rw [hnone]
  clear hcount
  dsimp only [fill_prdt]
  interval_cases k <;> decide

/-- The one descriptor. -/
theorem fill_table_entry :
    (fill_table tr cmdtbl 1 startl starth count buffer is_write).prdt_entry 0 = {
      dba := BitVec.ofNat 32 (tr.virtual_to_physical buffer)
      dbau := 0
      dbc := (count * 512 - 1).setWidth 22
      i := 1 } := by
  unfold fill_table set_prdt clear_table
  simp [fill_prdt]

theorem dbc_count (hcount : count ≤ num_prdt.setWidth 32) (hpos : count ≠ 0) :
    ((count * 512 - 1).setWidth 22 : BitVec 22).toNat + 1 = 512 * count.toNat := by
  obtain ⟨k, hk, rfl⟩ := count_cases hcount
  clear hcount
  interval_cases k
  · exact absurd rfl hpos
  all_goals decide

/-! ## Pages that follow each other -/

/-- The frame that the MMU shows at a page. -/
def mmu_frame_of (s : mmu.Mmu) (n : Nat) : Option Nat :=
  (mmu.mmu_virtual_to_physical s (n * 0x1000)).map (· / 0x1000)

theorem page_of_translation {s : mmu.Mmu} {a p : Nat} (ha : a % 0x1000 = 0)
    (hp : mmu.mmu_virtual_to_physical s a = some p) : p % 0x1000 = 0 := by
  unfold mmu.mmu_virtual_to_physical at hp
  dsimp only at hp
  split_ifs at hp
  rw [← Option.some.inj hp, mmu.and_low, ha, Nat.or_zero]
  unfold mmu.page_base
  omega

/-- `mmu_virtual_to_physical` goes by pages. -/
theorem mmu_paging (s : mmu.Mmu) (physical_to_virtual mmu_physical_to_virtual : Nat → Nat)
    (hsmall : ∀ n f, mmu_frame_of s n = some f → f < 0x100000) :
    Paging {
      virtual_to_physical := fun a => (mmu.mmu_virtual_to_physical s a).getD 0
      physical_to_virtual, mmu_physical_to_virtual } (mmu_frame_of s) where
  translates a := by
    have hpage : a / 0x1000 * 0x1000 % 0x1000 = 0 := by omega
    have hlow := mmu.translate_low s hpage (Nat.mod_lt a (by decide : 0 < 0x1000))
    rw [show a / 0x1000 * 0x1000 + a % 0x1000 = a by omega] at hlow
    unfold mmu_frame_of
    dsimp only
    rw [hlow]
    cases hp : mmu.mmu_virtual_to_physical s (a / 0x1000 * 0x1000) with
    | none => rfl
    | some p =>
      have hzero := page_of_translation hpage hp
      simp only [Option.map_some, Option.getD_some]
      omega
  small := hsmall

/-- Where the buffer reaches into a second page, that page has the next frame. -/
def Follows (frame_of : Nat → Option Nat) (buffer n : Nat) : Prop :=
  ∀ f g, frame_of (buffer / 0x1000) = some f → frame_of (buffer / 0x1000 + 1) = some g →
    0x1000 < buffer % 0x1000 + n → g = f + 1

/-- A mapped buffer of at most a page is one physical range exactly when its pages follow each
other. -/
theorem follows_iff (hn : n ≤ 0x1000)
    (hmapped : ∀ i < n, (frame_of ((buffer + i) / 0x1000)).isSome) :
    (∀ i < n, physical frame_of buffer + i = physical frame_of (buffer + i)) ↔
      Follows frame_of buffer n := by
  unfold physical Follows
  constructor
  · intro h f g hf hg hlong
    have hi := h (0x1000 - buffer % 0x1000) (by omega)
    rw [show (buffer + (0x1000 - buffer % 0x1000)) / 0x1000 = buffer / 0x1000 + 1 by omega,
      show (buffer + (0x1000 - buffer % 0x1000)) % 0x1000 = 0 by omega, hf, hg] at hi
    simp only [Option.getD_some] at hi
    omega
  · intro h i hi
    obtain ⟨f, hf⟩ := Option.isSome_iff_exists.mp (hmapped 0 (by omega))
    rw [Nat.add_zero] at hf
    by_cases hpage : buffer % 0x1000 + i < 0x1000
    · rw [show (buffer + i) / 0x1000 = buffer / 0x1000 by omega]
      omega
    · obtain ⟨g, hg⟩ := Option.isSome_iff_exists.mp (hmapped i hi)
      rw [show (buffer + i) / 0x1000 = buffer / 0x1000 + 1 by omega] at hg ⊢
      have hnext := h f g hf hg (by omega)
      rw [hf, hg, hnext]
      simp only [Option.getD_some]
      omega

/-- The command that is filled in describes the transfer exactly when it has a sector, and the
buffer is one physical range. -/
theorem fill_describes_iff (hpaging : Paging tr frame_of) (hstarth : starth.toNat < 2 ^ 16)
    (hcount : count ≤ num_prdt.setWidth 32)
    (hmapped : ∀ i < 512 * count.toNat, (frame_of ((buffer + i) / 0x1000)).isSome) :
    Describes frame_of startl starth count buffer (fill_header cmdheader count is_write)
        (fill_table tr cmdtbl (fill_header cmdheader count is_write).prdtl.toNat startl starth
          count buffer is_write) ↔
      count ≠ 0 ∧ Follows frame_of buffer (512 * count.toNat) := by
  have hprdtl : (fill_header cmdheader count is_write).prdtl.toNat = if count = 0 then 0 else 1 :=
    fill_header_prdtl hcount
  by_cases hzero : count = 0
  · rw [if_pos hzero] at hprdtl
    constructor
    · intro h
      have hsectors := h.sectors
      rw [hprdtl, fill_table_sectors hcount (by omega), if_pos hzero] at hsectors
      unfold transferred at hsectors
      rw [hprdtl] at hsectors
      cases hsectors
    · rintro ⟨hpos, -⟩
      exact absurd hzero hpos
  · rw [if_neg hzero] at hprdtl
    have hpos : 0 < 512 * count.toNat := by
      have hne : count.toNat ≠ 0 := fun h => hzero (BitVec.eq_of_toNat_eq h)
      omega
    have hpage : 512 * count.toNat ≤ 0x1000 := by
      have hle : count.toNat ≤ 8 := hcount
      omega
    have hdba : (BitVec.ofNat 32 (tr.virtual_to_physical buffer)).toNat =
        physical frame_of buffer := by
      obtain ⟨f, hf⟩ := Option.isSome_iff_exists.mp (hmapped 0 hpos)
      rw [Nat.add_zero] at hf
      have hsmall := hpaging.small _ f hf
      unfold physical
      rw [hpaging.translates, hf, BitVec.toNat_ofNat]
      simp only [Option.map_some, Option.getD_some]
      omega
    have hbytes : transferred (fill_header cmdheader count is_write)
        (fill_table tr cmdtbl 1 startl starth count buffer is_write) =
          (List.range (512 * count.toNat)).map (physical frame_of buffer + ·) := by
      unfold transferred HBA_PRDT_ENTRY.bytes
      rw [hprdtl, List.range_one, List.flatMap_singleton, fill_table_entry]
      dsimp only
      have hnone : (0 : u32).toNat = 0 := by decide
      rw [dbc_count hcount hzero, hdba, hnone, Nat.mul_zero, Nat.add_zero]
    rw [hprdtl, ← follows_iff hpage hmapped]
    constructor
    · intro h
      refine ⟨hzero, fun i hi => ?_⟩
      have hsame := h.bytes
      rw [hbytes] at hsame
      exact List.map_inj_left.mp hsame i (List.mem_range.mpr hi)
    · rintro ⟨-, hrange⟩
      refine ⟨?_, fill_table_lba hstarth 1, ?_⟩
      · rw [hbytes]
        exact List.map_inj_left.mpr fun i hi => hrange i (List.mem_range.mp hi)
      · rw [hbytes, fill_table_sectors hcount (Nat.le_refl 1), if_neg hzero, List.length_map,
          List.length_range]

/-! ## The command that is issued -/

/-- A call issues at most one command: the one that it filled in. -/
theorem ahci_perform_command.spec {rc : u8}
    (h : ahci_perform_command tr device cap fuel hba startl starth count buffer is_write =
      .ok (rc, hba')) :
    hba'.issued = hba.issued ∨ ∃ cmdheader cmdtbl, hba'.issued = hba.issued ++
      [(fill_header cmdheader count is_write,
        fill_table tr cmdtbl (fill_header cmdheader count is_write).prdtl.toNat startl starth
          count buffer is_write)] := by
  unfold ahci_perform_command at h
  obtain ⟨-, -, h⟩ := bind_eq_ok.mp h
  obtain ⟨⟨command_slot, port⟩, -, h⟩ := bind_eq_ok.mp h
  dsimp only at h
  cases hbusy : wait_not_busy device 10000 port with
  | mk hung port1 =>
    rw [hbusy] at h
    cases hung with
    | true =>
      obtain ⟨-, rfl⟩ := Prod.mk.inj (Except.ok.inj h)
      exact .inl rfl
    | false =>
      obtain ⟨⟨failed, port2⟩, -, h⟩ := bind_eq_ok.mp h
      dsimp only at h
      split_ifs at h
      · obtain ⟨-, rfl⟩ := Prod.mk.inj (Except.ok.inj h)
        exact .inr ⟨_, _, rfl⟩
      · obtain ⟨-, rfl⟩ := Prod.mk.inj (Except.ok.inj h)
        exact .inr ⟨_, _, rfl⟩

/-- A device that has finished a command when it is looked at again. -/
def eager : Device := fun port => { port with ci := 0 }

theorem wait_not_busy_ready {port : HBA_PORT}
    (h : port.tfd &&& (ATA_DEV_BUSY ||| ATA_DEV_DRQ) = 0) (left : Nat) :
    wait_not_busy device (left + 1) port = (false, port) := if_neg (not_not.mpr h)

/-- To the eager device a command is issued. -/
theorem eager_issues (tr : Translation) (startl starth : u32) (buffer : Nat)
    (hcount : count ≤ num_prdt.setWidth 32) :
    ∃ rc hba' cmdheader cmdtbl,
      ahci_perform_command tr eager 0x100 2 idle startl starth count buffer 0 = .ok (rc, hba') ∧
      hba'.issued = idle.issued ++ [(fill_header cmdheader count 0,
        fill_table tr cmdtbl (fill_header cmdheader count 0).prdtl.toNat startl starth count
          buffer 0)] := by
  have hslot : wait_free_slot eager 0x100 2 { idle.port with is := idle.port.is &&& ~~~(-1) } =
      .ok (0, idle.port) := rfl
  have hbusy : wait_not_busy eager 10000 idle.port = (false, idle.port) :=
    wait_not_busy_ready (by decide) 9999
  have hdone : wait_done eager 1 2 { idle.port with ci := 1 } = .ok (false, idle.port) := rfl
  unfold ahci_perform_command
  rw [assert_of hcount, ok_bind]
  dsimp only
  rw [hslot, ok_bind]
  dsimp only
  rw [hbusy]
  dsimp only
  rw [show (1 : u32) <<< (0 : u8).toNat = 1 from rfl, hdone, ok_bind]
  refine ⟨1, _, _, _, rfl, rfl⟩

/-! ## The result -/

/-- Whatever a call issues describes the transfer that was asked for, exactly when that has a
sector, and the second page of the buffer, if it reaches one, has the next frame. -/
theorem commands_describe_the_transfer_iff (hpaging : Paging tr frame_of)
    (hstarth : starth.toNat < 2 ^ 16) (hcount : count ≤ num_prdt.setWidth 32)
    (hmapped : ∀ i < 512 * count.toNat, (frame_of ((buffer + i) / 0x1000)).isSome) :
    (∀ device cap fuel hba is_write rc hba' cmdheader cmdtbl,
      ahci_perform_command tr device cap fuel hba startl starth count buffer is_write =
        .ok (rc, hba') → hba'.issued = hba.issued ++ [(cmdheader, cmdtbl)] →
      Describes frame_of startl starth count buffer cmdheader cmdtbl) ↔
    count ≠ 0 ∧ Follows frame_of buffer (512 * count.toNat) := by
  constructor
  · intro h
    obtain ⟨rc, hba', cmdheader, cmdtbl, hreturns, hissued⟩ :=
      eager_issues tr startl starth buffer hcount
    apply (fill_describes_iff hpaging hstarth hcount hmapped).mp
    exact h _ _ _ _ _ _ _ _ _ hreturns hissued
  · intro hfollows device cap fuel hba is_write rc hba' cmdheader cmdtbl hreturns hissued
    obtain hnone | ⟨header, table, hone⟩ := ahci_perform_command.spec hreturns
    · rw [hnone] at hissued
      have hlength := congrArg List.length hissued
      rw [List.length_append, List.length_singleton] at hlength
      omega
    · rw [hone] at hissued
      obtain ⟨rfl, rfl⟩ := Prod.mk.inj (List.cons.inj (List.append_cancel_left hissued)).1
      exact (fill_describes_iff hpaging hstarth hcount hmapped).mpr hfollows

/-- Eight sectors that reach into a second page, which has the next frame. The eager device gets
the command. -/
theorem linear_commands_describe_the_transfer : ∃ rc hba' cmdheader cmdtbl,
    ahci_perform_command linear eager 0x100 2 idle 0x80 0 8 0xFFFFFF8000301E00 0 =
      .ok (rc, hba') ∧
    hba'.issued = idle.issued ++ [(cmdheader, cmdtbl)] ∧
    Describes (fun n => some (n % 2 ^ 18)) 0x80 0 8 0xFFFFFF8000301E00 cmdheader cmdtbl := by
  have hfollows : Follows (fun n => some (n % 2 ^ 18)) 0xFFFFFF8000301E00
      (512 * (8 : u32).toNat) := by
    intro f g hf hg _
    cases hf
    cases hg
    decide
  obtain ⟨rc, hba', cmdheader, cmdtbl, hreturns, hissued⟩ :=
    eager_issues linear 0x80 0 0xFFFFFF8000301E00 (show (8 : u32) ≤ num_prdt.setWidth 32 by decide)
  exact ⟨rc, hba', _, _, hreturns, hissued, (commands_describe_the_transfer_iff linear_paging
    (by decide) (by decide) fun _ _ => rfl).mpr ⟨by decide, hfollows⟩ _ _ _ _ _ _ _ _ _ hreturns
    hissued⟩

/-- Each page has the frame before that of the page before it. -/
def backwards : Translation where
  virtual_to_physical := fun a => (2 ^ 18 - 1 - a / 0x1000 % 2 ^ 18) * 0x1000 + a % 0x1000
  physical_to_virtual := id
  mmu_physical_to_virtual := id

theorem backwards_paging : Paging backwards (fun n => some (2 ^ 18 - 1 - n % 2 ^ 18)) where
  translates _ := rfl
  small n f hf := by
    obtain rfl := Option.some.inj hf
    omega

/-- Two sectors across the end of a page: the second one goes to a frame that is not of the
buffer. -/
theorem a_transfer_that_leaves_the_buffer :
    ¬ ∀ (tr : Translation) (frame_of : Nat → Option Nat) (startl starth count : u32)
      (buffer : Nat), Paging tr frame_of → starth.toNat < 2 ^ 16 →
      count ≤ num_prdt.setWidth 32 → buffer % 2 = 0 →
      (∀ i < 512 * count.toNat, (frame_of ((buffer + i) / 0x1000)).isSome) →
      ∀ device cap fuel hba is_write rc hba' cmdheader cmdtbl,
        ahci_perform_command tr device cap fuel hba startl starth count buffer is_write =
          .ok (rc, hba') → hba'.issued = hba.issued ++ [(cmdheader, cmdtbl)] →
        Describes frame_of startl starth count buffer cmdheader cmdtbl := by
  intro h
  have hcount : (2 : u32) ≤ num_prdt.setWidth 32 := by decide
  have hall := h backwards _ 0 0 2 0x1E00 backwards_paging (by decide) hcount (by decide)
    fun _ _ => rfl
  obtain ⟨rc, hba', cmdheader, cmdtbl, hreturns, hissued⟩ :=
    eager_issues backwards 0 0 0x1E00 hcount
  have hdescribes := hall _ _ _ _ _ _ _ _ _ hreturns hissued
  have hfollows := ((fill_describes_iff backwards_paging (by decide) hcount fun _ _ => rfl).mp
    hdescribes).2 _ _ rfl rfl (by decide)
  revert hfollows
  decide

end salsola.ahci
