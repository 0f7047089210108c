-- A disk behind the port: what the commands of the driver make of its sectors and of the memory,
-- and that a sector is read back as it was written.
import Salsola.AhciCommands
import Salsola.Lib.Memory

open outcome salsola.pci memory

namespace salsola.ahci

def ahci_raw_write (tr : Translation) (device : Device) (cap : u32) (fuel : Nat) (hba : Hba)
    (startl starth count : u32) (inbuffer : Nat) : Result (u8 × Hba) :=
  ahci_perform_command tr device cap fuel hba startl starth count inbuffer 1

def ahci_raw_read (tr : Translation) (device : Device) (cap : u32) (fuel : Nat) (hba : Hba)
    (startl starth count : u32) (outbuffer : Nat) : Result (u8 × Hba) :=
  ahci_perform_command tr device cap fuel hba startl starth count outbuffer 0

/-! ## The disk -/

/-- The port, the memory by physical addresses, and the bytes of the disk, sector by sector. -/
structure Drive where
  hba : Hba
  memory : Mem
  disk : Mem

/-- The device moves the first sectors of a command, byte by byte. The header and the FIS must
agree on the direction. -/
def Drive.execute (w : Drive) (sectors : Nat) (cmdheader : HBA_CMD_HEADER)
    (cmdtbl : HBA_CMD_TBL) : Drive :=
  let addresses := (transferred cmdheader cmdtbl).take (512 * sectors)
  let places := (List.range addresses.length).map (512 * cmdtbl.cfis.lba + ·)
  if cmdheader.w = 1 ∧ cmdtbl.cfis.command = ATA_CMD_WRITE_DMA_EX then
    { w with disk := moved w.memory w.disk (addresses.zip places) }
  else if cmdheader.w = 0 ∧ cmdtbl.cfis.command = ATA_CMD_READ_DMA_EX then
    { w with memory := moved w.disk w.memory (places.zip addresses) }
  else w

/-- A call of `ahci_raw_write` or `ahci_raw_read`, with the page tables and what the device
answers: the looks at its registers, and how many sectors of a command it has moved that fails.
The command list, the command tables and the received FIS are in memory too: the call writes
the bytes of a header and a table there, and the device those of its answer. -/
structure Request where
  is_write : Bool
  startl : u32
  starth : u32
  count : u32
  buffer : Nat
  tr : Translation
  device : Device
  fuel : Nat
  sectors : Nat
  filled : Nat → Option UInt8
  received : Nat → Option UInt8

inductive Event
  | request (r : Request)
  /-- The kernel stores a byte. -/
  | store (a : Nat) (v : UInt8)

def Request.call (r : Request) (cap : u32) (hba : Hba) : Result (u8 × Hba) :=
  if r.is_write then ahci_raw_write r.tr r.device cap r.fuel hba r.startl r.starth r.count r.buffer
  else ahci_raw_read r.tr r.device cap r.fuel hba r.startl r.starth r.count r.buffer

/-- The drive when the call has filled in its command. -/
def Drive.filled (w : Drive) (r : Request) : Drive :=
  { w with memory := overlay w.memory r.filled }

/-- The drive when the device has answered. -/
def Drive.answered (w : Drive) (r : Request) (hba : Hba) : Drive :=
  { w with hba, memory := overlay w.memory r.received }

/-- The call, and what the device does with the commands that were issued in it. -/
def Drive.request (cap : u32) (w : Drive) (r : Request) : Result (u8 × Drive) := do
  let (rc, hba) ← r.call cap w.hba
  let carry_out := fun (w : Drive) (c : HBA_CMD_HEADER × HBA_CMD_TBL) =>
    w.execute (if rc = 1 then c.2.cfis.sectors else r.sectors) c.1 c.2
  let done := (hba.issued.drop w.hba.issued.length).foldl carry_out (w.filled r)
  .ok (rc, done.answered r hba)

def Drive.step (cap : u32) (w : Drive) : Event → Result Drive
  | .request r => do
    let (_, w) ← w.request cap r
    .ok w
  | .store a v => .ok { w with memory := Function.update w.memory a v }

/-! ## Requests -/

/-- The number of the first sector. -/
def Request.lba (r : Request) : Nat := r.starth.toNat * 2 ^ 32 + r.startl.toNat

def Request.Covers (r : Request) (n : Nat) : Prop := r.lba ≤ n ∧ n < r.lba + r.count.toNat

/-- The physical address of the byte `i` of the buffer. -/
def Request.address (r : Request) (i : Nat) : Nat := r.tr.virtual_to_physical (r.buffer + i)

/-- The buffer is mapped, and its second page, if it reaches one, has the next frame. -/
structure Request.Allowed (r : Request) (frame_of : Nat → Option Nat) : Prop where
  paging : Paging r.tr frame_of
  starth : r.starth.toNat < 2 ^ 16
  count : r.count ≠ 0
  mapped : ∀ i < 512 * r.count.toNat, (frame_of ((r.buffer + i) / 0x1000)).isSome
  follows : Follows frame_of r.buffer (512 * r.count.toNat)

/-- The command that the driver fills in. -/
def Request.header (r : Request) (cmdheader : HBA_CMD_HEADER) : HBA_CMD_HEADER :=
  fill_header cmdheader r.count (if r.is_write then 1 else 0)

def Request.table (r : Request) (cmdheader : HBA_CMD_HEADER) (cmdtbl : HBA_CMD_TBL) :
    HBA_CMD_TBL :=
  fill_table r.tr cmdtbl (r.header cmdheader).prdtl.toNat r.startl r.starth r.count r.buffer
    (if r.is_write then 1 else 0)

/-- What the command list, the command tables and the received FIS take of memory, the call and
the device alone write, and no byte of a transfer is in it. -/
structure Request.Apart (structures : Nat → Prop) (r : Request) : Prop where
  filled : ∀ a, ¬ structures a → r.filled a = none
  received : ∀ a, ¬ structures a → r.received a = none
  transfer : ∀ cmdheader cmdtbl,
    ∀ a ∈ transferred (r.header cmdheader) (r.table cmdheader cmdtbl), ¬ structures a

/-- A write goes to other sectors than `n`. Reads may be of any kind. -/
def Event.Spares (structures : Nat → Prop) (n : Nat) : Event → Prop
  | .request r => r.Apart structures ∧
    (r.is_write = true → (∃ frame_of, r.Allowed frame_of) ∧ ¬ r.Covers n)
  | .store a _ => ¬ structures a

variable {cap : u32} {w w' : Drive} {r : Request} {rc : u8} {frame_of : Nat → Option Nat}
  {structures : Nat → Prop} {n k : Nat}

/-- The byte `i` of the buffer has the frame of its page. -/
theorem Request.Allowed.physical (h : r.Allowed frame_of) {i : Nat}
    (hi : i < 512 * r.count.toNat) : physical frame_of (r.buffer + i) = r.address i := by
  obtain ⟨f, hf⟩ := Option.isSome_iff_exists.mp (h.mapped i hi)
  unfold ahci.physical Request.address
  rw [h.paging.translates, hf]
  rfl

theorem Request.Allowed.positive (h : r.Allowed frame_of) : 0 < r.count.toNat := by
  have hne : r.count.toNat ≠ 0 := fun hzero => h.count (BitVec.eq_of_toNat_eq hzero)
  omega

/-- The buffer is one physical range. -/
theorem Request.Allowed.range (h : r.Allowed frame_of) (hcount : r.count ≤ num_prdt.setWidth 32)
    {i : Nat} (hi : i < 512 * r.count.toNat) : r.address i = r.address 0 + i := by
  have hle : r.count.toNat ≤ 8 := hcount
  have hpos := h.positive
  have hrange := (follows_iff (by omega) h.mapped).mpr h.follows
  rw [← h.physical hi, ← h.physical (by omega), Nat.add_zero]
  exact (hrange i hi).symm

/-! ## One request -/

/-- The first `k` bytes of the transfer have gone from the buffer to the disk, or back. -/
structure Moved (r : Request) (k : Nat) (w w' : Drive) : Prop where
  disk : w'.disk = if r.is_write then
    blit w.memory w.disk (r.address 0) (512 * r.lba) k else w.disk
  memory : w'.memory = if r.is_write then w.memory
    else blit w.disk w.memory (512 * r.lba) (r.address 0) k

/-- Nothing was issued. -/
theorem moved_nothing (r : Request) (w : Drive) : Moved r 0 w w where
  disk := by rw [blit_zero, ite_self]
  memory := by rw [blit_zero, ite_self]

theorem Request.Allowed.describes (h : r.Allowed frame_of)
    (hcount : r.count ≤ num_prdt.setWidth 32) (cmdheader : HBA_CMD_HEADER)
    (cmdtbl : HBA_CMD_TBL) :
    Describes frame_of r.startl r.starth r.count r.buffer (r.header cmdheader)
      (r.table cmdheader cmdtbl) :=
  (fill_describes_iff h.paging h.starth hcount h.mapped).mpr ⟨h.count, h.follows⟩

/-- The bytes that the device moves first, and where they are on the disk. -/
theorem Request.Allowed.addresses (h : r.Allowed frame_of)
    (hcount : r.count ≤ num_prdt.setWidth 32) (cmdheader : HBA_CMD_HEADER) (cmdtbl : HBA_CMD_TBL)
    (n : Nat) :
    (transferred (r.header cmdheader) (r.table cmdheader cmdtbl)).take n =
      (List.range (min n (512 * r.count.toNat))).map (r.address 0 + ·) := by
  have hbytes : transferred (r.header cmdheader) (r.table cmdheader cmdtbl) =
      (List.range (512 * r.count.toNat)).map (r.address 0 + ·) := by
    rw [(h.describes hcount cmdheader cmdtbl).bytes]
    refine List.map_congr_left fun i hi => ?_
    rw [List.mem_range] at hi
    rw [h.physical hi, h.range hcount hi]
  rw [hbytes, ← List.map_take, List.take_range]

/-- The header and the FIS agree on the direction. -/
theorem Request.direction (r : Request) (cmdheader : HBA_CMD_HEADER) (cmdtbl : HBA_CMD_TBL) :
    (r.header cmdheader).w = (if r.is_write then 1 else 0) ∧
    (r.table cmdheader cmdtbl).cfis.command =
      if r.is_write then ATA_CMD_WRITE_DMA_EX else ATA_CMD_READ_DMA_EX := by
  unfold Request.table Request.header fill_header fill_table
  cases r.is_write <;> exact ⟨rfl, rfl⟩

theorem Drive.execute_moves (w : Drive) (h : r.Allowed frame_of)
    (hcount : r.count ≤ num_prdt.setWidth 32) (sectors : Nat) (cmdheader : HBA_CMD_HEADER)
    (cmdtbl : HBA_CMD_TBL) :
    Moved r (min (512 * sectors) (512 * r.count.toNat)) w
      (w.execute sectors (r.header cmdheader) (r.table cmdheader cmdtbl)) := by
  have hlba : (r.table cmdheader cmdtbl).cfis.lba = r.lba :=
    (h.describes hcount cmdheader cmdtbl).lba
  obtain ⟨hw, hcommand⟩ := r.direction cmdheader cmdtbl
  unfold Drive.execute
  dsimp only
  rw [h.addresses hcount, List.length_map, List.length_range, hlba, hw, hcommand, List.zip_map',
    List.zip_map', moved_block, moved_block]
  cases hdir : r.is_write with
  | true =>
    rw [if_pos (by decide)]
    exact ⟨by rw [if_pos hdir], by rw [if_pos hdir]⟩
  | false =>
    rw [if_neg (by decide), if_pos (by decide)]
    exact ⟨by simp [hdir], by simp [hdir]⟩

/-- A call that returns has passed the assertion on the count. -/
theorem ahci_perform_command.count {tr : Translation} {device : Device} {fuel : Nat}
    {hba hba' : Hba} {startl starth count : u32} {buffer : Nat} {is_write : u8}
    (h : ahci_perform_command tr device cap fuel hba startl starth count buffer is_write =
      .ok (rc, hba')) : count ≤ num_prdt.setWidth 32 := by
  by_contra hlarge
  unfold ahci_perform_command at h
  rw [assert_fails hlarge] at h
  cases h

/-- A call that succeeds has issued its command. -/
theorem ahci_perform_command.issues {tr : Translation} {device : Device} {fuel : Nat}
    {hba hba' : Hba} {startl starth count : u32} {buffer : Nat} {is_write : u8}
    (h : ahci_perform_command tr device cap fuel hba startl starth count buffer is_write =
      .ok (1, hba')) : hba'.issued ≠ hba.issued := by
  unfold ahci_perform_command at h
  obtain ⟨-, -, h⟩ := bind_eq_ok.mp h
  obtain ⟨⟨command_slot, port⟩, -, h⟩ := bind_eq_ok.mp h
  dsimp only at h
  cases hbusy : wait_not_busy device 10000 port with
  | mk hung port1 =>
    rw [hbusy] at h
    cases hung with
    | true =>
      obtain ⟨hone, -⟩ := Prod.mk.inj (Except.ok.inj h)
      cases hone
    | false =>
      obtain ⟨⟨failed, port2⟩, -, h⟩ := bind_eq_ok.mp h
      dsimp only at h
      split_ifs at h
      · obtain ⟨hone, -⟩ := Prod.mk.inj (Except.ok.inj h)
        cases hone
      · obtain ⟨-, rfl⟩ := Prod.mk.inj (Except.ok.inj h)
        simp

/-- Nothing was issued, or the one command that the driver filled in. -/
theorem Drive.request_cases (h : w.request cap r = .ok (rc, w')) :
    r.count ≤ num_prdt.setWidth 32 ∧ ∃ hba, (rc ≠ 1 ∧ w' = (w.filled r).answered r hba) ∨
      ∃ cmdheader cmdtbl, w' = ((w.filled r).execute
        (if rc = 1 then (r.table cmdheader cmdtbl).cfis.sectors else r.sectors)
        (r.header cmdheader) (r.table cmdheader cmdtbl)).answered r hba := by
  obtain ⟨⟨rc', hba⟩, hcall, h⟩ := bind_eq_ok.mp h
  obtain ⟨rfl, rfl⟩ := Prod.mk.inj (Except.ok.inj h)
  have hperform : ahci_perform_command r.tr r.device cap r.fuel w.hba r.startl r.starth r.count
      r.buffer (if r.is_write then 1 else 0) = .ok (rc', hba) := by
    rw [← hcall]
    unfold Request.call
    cases r.is_write <;> rfl
  refine ⟨ahci_perform_command.count hperform, hba, ?_⟩
  obtain hnone | ⟨cmdheader, cmdtbl, hone⟩ := ahci_perform_command.spec hperform
  · refine .inl ⟨?_, ?_⟩
    · rintro rfl
      exact ahci_perform_command.issues hperform hnone
    · rw [hnone, List.drop_length]
      rfl
  · refine .inr ⟨cmdheader, cmdtbl, ?_⟩
    rw [hone, List.drop_left]
    rfl

/-- What a request does: all of its transfer, or a part of it when it fails. -/
theorem Drive.request.spec (hall : r.Allowed frame_of) (h : w.request cap r = .ok (rc, w')) :
    ∃ k ≤ 512 * r.count.toNat, (rc = 1 → k = 512 * r.count.toNat) ∧
      ∃ done hba, Moved r k (w.filled r) done ∧ w' = done.answered r hba := by
  obtain ⟨hcount, hba, ⟨hfailed, rfl⟩ | ⟨cmdheader, cmdtbl, rfl⟩⟩ := Drive.request_cases h
  · exact ⟨0, Nat.zero_le _, fun hrc => absurd hrc hfailed, _, hba, moved_nothing r _, rfl⟩
  · have hmoved := (w.filled r).execute_moves hall hcount (if rc = 1 then
      (r.table cmdheader cmdtbl).cfis.sectors else r.sectors) cmdheader cmdtbl
    refine ⟨_, Nat.min_le_right _ _, fun hrc => ?_, _, hba, hmoved, rfl⟩
    have hsectors := (hall.describes hcount cmdheader cmdtbl).sectors
    rw [(hall.describes hcount cmdheader cmdtbl).bytes, List.length_map, List.length_range]
      at hsectors
    rw [if_pos hrc]
    exact Nat.min_eq_right hsectors.ge

/-- A read leaves the disk as it is, whatever its buffer. -/
theorem Drive.request_read (hread : r.is_write = false) (h : w.request cap r = .ok (rc, w')) :
    w'.disk = w.disk := by
  obtain ⟨-, hba, ⟨-, rfl⟩ | ⟨cmdheader, cmdtbl, rfl⟩⟩ := Drive.request_cases h
  · rfl
  · obtain ⟨hw, hcommand⟩ := r.direction cmdheader cmdtbl
    unfold Drive.answered Drive.execute
    dsimp only
    rw [hw, hcommand, hread, if_neg (by decide), if_pos (by decide)]
    rfl

/-- No byte of the buffer is in the structures of the port. -/
theorem Request.Allowed.apart (h : r.Allowed frame_of) (ha : r.Apart structures)
    (hcount : r.count ≤ num_prdt.setWidth 32) {i : Nat} (hi : i < 512 * r.count.toNat) :
    ¬ structures (r.address i) := by
  refine ha.transfer ⟨0, 0, 0, 0, 0⟩ ⟨no_fis, fun _ => ⟨0, 0, 0, 0⟩⟩ _ ?_
  rw [(h.describes hcount _ _).bytes, ← h.physical hi]
  exact List.mem_map_of_mem (List.mem_range.mpr hi)

/-! ## Runs -/

/-- A write of other sectors. -/
theorem Moved.disk_outside (h : Moved r k (w.filled r) w') (hk : k ≤ 512 * r.count.toNat)
    (hwrite : r.is_write = true) (hout : ¬ r.Covers n) {i : Nat} (hi : i < 512) :
    w'.disk (512 * n + i) = w.disk (512 * n + i) := by
  unfold Request.Covers at hout
  rw [h.disk, if_pos hwrite]
  exact blit_outside _ _ (by omega)

/-- A sector stays as it is when no request writes it. -/
theorem Event.Spares.step {e : Event} (h : e.Spares structures n)
    (hstep : w.step cap e = .ok w') {i : Nat} (hi : i < 512) :
    w'.disk (512 * n + i) = w.disk (512 * n + i) := by
  cases e with
  | request r =>
    obtain ⟨⟨rc, w1⟩, hrequest, hstep⟩ := bind_eq_ok.mp hstep
    obtain rfl := Except.ok.inj hstep
    cases hdir : r.is_write with
    | true =>
      obtain ⟨⟨frame_of, hall⟩, hout⟩ := h.2 hdir
      obtain ⟨k, hk, -, done, hba, hmoved, rfl⟩ := Drive.request.spec hall hrequest
      exact hmoved.disk_outside hk hdir hout hi
    | false => rw [Drive.request_read hdir hrequest]
  | store a v =>
    obtain rfl := Except.ok.inj hstep
    rfl

/-- Events that spare a sector, one after the other. -/
abbrev SparingRun (cap : u32) (structures : Nat → Prop) (n : Nat) (w : Drive) : Drive → Prop :=
  Reach (· = w) (fun _ e => e.Spares structures n) (Drive.step cap)

theorem SparingRun.disk (h : SparingRun cap structures n w w') {i : Nat} (hi : i < 512) :
    w'.disk (512 * n + i) = w.disk (512 * n + i) := by
  refine h.invariant (fun w' => w'.disk (512 * n + i) = w.disk (512 * n + i)) ?_ ?_
  · rintro _ rfl
    rfl
  · intro w1 e w2 hkept hspares hstep
    exact (hspares.step hstep hi).trans hkept

/-- A sector that was written, and spared since then, is read back as the bytes that the buffer
had, whatever else the read and the write move. The read changes no other byte of memory, but in
the structures of the port, and nothing on the disk. -/
theorem a_sector_is_read_back_as_it_was_written {put get : Request} {frame_of' : Nat → Option Nat}
    {w0 w1 w2 w3 : Drive} (hput : put.Allowed frame_of) (hget : get.Allowed frame_of')
    (hwrite : put.is_write = true) (hread : get.is_write = false)
    (hput_apart : put.Apart structures) (hget_apart : get.Apart structures) (hn : put.Covers n)
    (hn' : get.Covers n) (h1 : w0.request cap put = .ok (1, w1))
    (h2 : SparingRun cap structures n w1 w2) (h3 : w2.request cap get = .ok (1, w3)) :
    (∀ i < 512, w3.memory (get.address (512 * (n - get.lba) + i)) =
      w0.memory (put.address (512 * (n - put.lba) + i))) ∧
    (∀ a, ¬ structures a → (∀ i < 512 * get.count.toNat, a ≠ get.address i) →
      w3.memory a = w2.memory a) ∧
    w3.disk = w2.disk := by
  have hdisk3 := Drive.request_read hread h3
  obtain ⟨hcount1, -⟩ := Drive.request_cases h1
  obtain ⟨hcount3, -⟩ := Drive.request_cases h3
  obtain ⟨k1, -, hwhole1, done1, hba1, hmoved1, rfl⟩ := Drive.request.spec hput h1
  obtain ⟨k3, -, hwhole3, done3, hba3, hmoved3, rfl⟩ := Drive.request.spec hget h3
  obtain rfl := hwhole1 rfl
  obtain rfl := hwhole3 rfl
  have hmemory := hmoved3.memory
  have hdisk := hmoved1.disk
  rw [hread, if_neg Bool.false_ne_true] at hmemory
  rw [if_pos hwrite] at hdisk
  refine ⟨fun i hi => ?_, fun a ha hout => ?_, hdisk3⟩
  · have hput' : 512 * (n - put.lba) + i < 512 * put.count.toNat := by
      unfold Request.Covers at hn
      omega
    have hget' : 512 * (n - get.lba) + i < 512 * get.count.toNat := by
      unfold Request.Covers at hn'
      omega
    have hput_out := hput.apart hput_apart hcount1 hput'
    have hget_out := hget.apart hget_apart hcount3 hget'
    calc (done3.answered get hba3).memory (get.address (512 * (n - get.lba) + i))
      _ = done3.memory (get.address (512 * (n - get.lba) + i)) :=
        overlay_outside _ (hget_apart.received _ hget_out)
      _ = w2.disk (512 * get.lba + (512 * (n - get.lba) + i)) := by
        rw [hmemory, hget.range hcount3 hget', blit_at _ _ _ _ hget']
        rfl
      _ = w2.disk (512 * n + i) := by
        congr 1
        have hle := hn'.1
        omega
      _ = done1.disk (512 * n + i) := h2.disk hi
      _ = done1.disk (512 * put.lba + (512 * (n - put.lba) + i)) := by
        congr 1
        have hle := hn.1
        omega
      _ = (w0.filled put).memory (put.address (512 * (n - put.lba) + i)) := by
        rw [hdisk, blit_at _ _ _ _ hput', hput.range hcount1 hput']
      _ = w0.memory (put.address (512 * (n - put.lba) + i)) :=
        overlay_outside _ (hput_apart.filled _ hput_out)
  · calc (done3.answered get hba3).memory a
      _ = done3.memory a := overlay_outside _ (hget_apart.received a ha)
      _ = (w2.filled get).memory a := by
        rw [hmemory]
        apply blit_outside
        by_contra hin
        apply hout (a - get.address 0) (by omega)
        rw [hget.range hcount3 (by omega)]
        omega
      _ = w2.memory a := overlay_outside _ (hget_apart.filled a ha)

/-! ## A round trip -/

/-- The eager device carries a command out. -/
theorem eager_succeeds (w : Drive) (hport : w.hba.port = idle.port) (hdevice : r.device = eager)
    (hfuel : r.fuel = 2) (hcount : r.count ≤ num_prdt.setWidth 32) :
    ∃ w', w.request 0x100 r = .ok (1, w') ∧ w'.hba.port = idle.port := by
  obtain ⟨hba, hperform, hport'⟩ : ∃ hba, ahci_perform_command r.tr eager 0x100 2 w.hba r.startl
      r.starth r.count r.buffer (if r.is_write then 1 else 0) = .ok (1, hba) ∧
      hba.port = idle.port := by
    have hslot : wait_free_slot eager 0x100 2 { idle.port with is := idle.port.is &&& ~~~(-1) } =
        .ok (0, idle.port) := rfl
    have hbusy : wait_not_busy eager 10000 idle.port = (false, idle.port) :=
      wait_not_busy_ready (by decide) 9999
    have hdone : wait_done eager 1 2 { idle.port with ci := 1 } = .ok (false, idle.port) := rfl
    unfold ahci_perform_command
    rw [assert_of hcount, ok_bind]
    dsimp only
    rw [hport, hslot, ok_bind]
    dsimp only
    rw [hbusy]
    dsimp only
    rw [show (1 : u32) <<< (0 : u8).toNat = 1 from rfl, hdone, ok_bind]
    exact ⟨_, rfl, rfl⟩
  have hcall : r.call 0x100 w.hba = .ok (1, hba) := by
    unfold Request.call
    rw [← hperform, hdevice, hfuel]
    cases r.is_write <;> rfl
  unfold Drive.request
  rw [hcall, ok_bind]
  exact ⟨_, rfl, hport'⟩

/-- The command list, the received FIS and the command tables of the small port. -/
def port_structures (a : Nat) : Prop := 0x10000 ≤ a ∧ a < 0x14000

/-- Two sectors from a buffer across the end of a page. -/
def two_sectors : Request where
  is_write := true
  startl := 0x80
  starth := 0
  count := 2
  buffer := 0xFFFFFF8000301E00
  tr := linear
  device := eager
  fuel := 2
  sectors := 0
  filled := fun a => if 0x10000 ≤ a ∧ a < 0x10020 then some 5 else none
  received := fun a => if 0x11000 ≤ a ∧ a < 0x11100 then some 0x34 else none

def second_sector : Request :=
  { two_sectors with is_write := false, startl := 0x81, count := 1, buffer := 0xFFFFFF8000400000 }

theorem linear_allowed (hr : r.tr = linear) (hstarth : r.starth = 0) (hcount : r.count ≠ 0)
    (hbuffer : r.buffer % 0x40000000 + 0x2000 < 0x40000000) :
    r.Allowed (fun n => some (n % 2 ^ 18)) where
  paging := hr ▸ linear_paging
  starth := by
    rw [hstarth]
    decide
  count := hcount
  mapped _ _ := rfl
  follows f g hf hg _ := by
    obtain rfl := Option.some.inj hf
    obtain rfl := Option.some.inj hg
    omega

theorem two_sectors_allowed : two_sectors.Allowed (fun n => some (n % 2 ^ 18)) :=
  linear_allowed rfl rfl (by decide) (by decide)

theorem second_sector_allowed : second_sector.Allowed (fun n => some (n % 2 ^ 18)) :=
  linear_allowed rfl rfl (by decide) (by decide)

theorem small_apart (h : r.Allowed frame_of) (hcount : r.count ≤ num_prdt.setWidth 32)
    (hfilled : r.filled = two_sectors.filled) (hreceived : r.received = two_sectors.received)
    (haddress : ∀ i < 512 * r.count.toNat, 0x14000 ≤ r.address i) : r.Apart port_structures where
  filled a ha := by
    unfold port_structures at ha
    rw [hfilled]
    exact if_neg (by omega)
  received a ha := by
    unfold port_structures at ha
    rw [hreceived]
    exact if_neg (by omega)
  transfer cmdheader cmdtbl a ha hin := by
    rw [(h.describes hcount cmdheader cmdtbl).bytes, List.mem_map] at ha
    obtain ⟨i, hi, rfl⟩ := ha
    rw [List.mem_range] at hi
    have hlow := haddress i hi
    rw [h.physical hi] at hin
    exact absurd hin.2 (by omega)

/-- Addresses behind the base of the kernel are those of its first GiB. -/
theorem linear_address (hr : r.tr = linear) (i : Nat) :
    r.address i = (r.buffer + i) % 2 ^ 30 := by
  unfold Request.address
  rw [hr]
  rfl

theorem two_sectors_apart : two_sectors.Apart port_structures := by
  refine small_apart two_sectors_allowed (by decide) rfl rfl fun i hi => ?_
  have hlt : i < 1024 := hi
  rw [linear_address rfl]
  show 0x14000 ≤ (0xFFFFFF8000301E00 + i) % 2 ^ 30
  omega

theorem second_sector_apart : second_sector.Apart port_structures := by
  refine small_apart second_sector_allowed (by decide) rfl rfl fun i hi => ?_
  have hlt : i < 512 := hi
  rw [linear_address rfl]
  show 0x14000 ≤ (0xFFFFFF8000400000 + i) % 2 ^ 30
  omega

/-- A memory in which each byte tells its address. -/
def numbered : Drive where
  hba := idle
  memory := fun a => UInt8.ofNat a
  disk := fun _ => 0

/-- The second one of two sectors is read back, after a store to the buffer, which stays. -/
theorem a_sector_is_read_back_as_it_was_written_after_a_store :
    ∃ w1 w2 w3, numbered.request 0x100 two_sectors = .ok (1, w1) ∧
      w1.step 0x100 (.store 0x302000 7) = .ok w2 ∧
      w2.request 0x100 second_sector = .ok (1, w3) ∧
      (∀ i < 512, w3.memory (0x400000 + i) = UInt8.ofNat (0x302000 + i)) ∧
      w3.memory 0x302000 = 7 ∧ w3.disk = w2.disk := by
  obtain ⟨w1, h1, hport1⟩ := eager_succeeds (r := two_sectors) numbered rfl rfl rfl (by decide)
  have hstep : w1.step 0x100 (.store 0x302000 7) =
      .ok { w1 with memory := Function.update w1.memory 0x302000 7 } := rfl
  obtain ⟨w3, h3, -⟩ := eager_succeeds (r := second_sector)
    { w1 with memory := Function.update w1.memory 0x302000 7 } hport1 rfl rfl (by decide)
  have hout : ¬ port_structures 0x302000 := by
    unfold port_structures
    decide
  have hrun : SparingRun 0x100 port_structures 0x81 w1 { w1 with
      memory := Function.update w1.memory 0x302000 7 } :=
    .next (.start rfl) (i := .store 0x302000 7) hout hstep
  obtain ⟨hback, hrest, hdisk⟩ := a_sector_is_read_back_as_it_was_written two_sectors_allowed
    second_sector_allowed rfl rfl two_sectors_apart second_sector_apart
    ⟨by decide, by decide⟩ ⟨by decide, by decide⟩ h1 hrun h3
  refine ⟨w1, _, w3, h1, hstep, h3, fun i hi => ?_, ?_, hdisk⟩
  · have hput : two_sectors.address (512 * (0x81 - two_sectors.lba) + i) = 0x302000 + i := by
      rw [linear_address rfl]
      show (0xFFFFFF8000301E00 + (512 * (0x81 - 0x80) + i)) % 2 ^ 30 = 0x302000 + i
      omega
    have hget : second_sector.address (512 * (0x81 - second_sector.lba) + i) = 0x400000 + i := by
      rw [linear_address rfl]
      show (0xFFFFFF8000400000 + (512 * (0x81 - 0x81) + i)) % 2 ^ 30 = 0x400000 + i
      omega
    have hsame := hback i hi
    rw [hput, hget] at hsame
    exact hsame
  · have hkept := hrest 0x302000 hout fun i hi => by
      have hlt : i < 512 := hi
      rw [linear_address rfl]
      show 0x302000 ≠ (0xFFFFFF8000400000 + i) % 2 ^ 30
      omega
    rw [hkept]
    exact Function.update_self (0x302000 : Nat) (7 : UInt8) w1.memory

end salsola.ahci
