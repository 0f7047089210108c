-- The interrupt table and the two interrupt controllers, as idt.c sets them up: the remap,
-- the masks of the 16 lines, and the handlers.
import Mathlib.Data.List.Induction
import Mathlib.Logic.Function.Basic

namespace salsola.irq

abbrev u8 := BitVec 8

abbrev u16 := BitVec 16

abbrev u32 := BitVec 32

abbrev u64 := BitVec 64

/-! ## The controllers -/

/-- What a write to the data port means: a mask, or one of the words of an initialization. -/
inductive Await
  | mask
  | icw2
  | icw3
  | icw4
deriving DecidableEq

structure Pic where
  await : Await
  /-- The vector of the first line. -/
  offset : u8
  /-- The line of the slave, or for the slave itself its number. -/
  cascade : u8
  mode : u8
  /-- A set bit keeps its line from the CPU. -/
  mask : u8
deriving DecidableEq

def ICW1_ICW4 : u8 := 0x01
def ICW1_INIT : u8 := 0x10
def ICW4_8086 : u8 := 0x01

/-- A write to the command port. The first word of an initialization clears the mask; other
commands keep it. -/
def Pic.command (p : Pic) (v : u8) : Pic :=
  if v &&& ICW1_INIT ≠ 0 then { p with await := .icw2, mask := 0 } else p

/-- A write to the data port. -/
def Pic.data (p : Pic) (v : u8) : Pic :=
  match p.await with
  | .mask => { p with mask := v }
  | .icw2 => { p with await := .icw3, offset := v }
  | .icw3 => { p with await := .icw4, cascade := v }
  | .icw4 => { p with await := .mask, mode := v }

structure Pics where
  master : Pic
  slave : Pic
deriving DecidableEq

def MASTER_PIC_COMMAND_PORT : u16 := 0x20
def MASTER_PIC_DATA_PORT : u16 := 0x21
def SLAVE_PIC_COMMAND_PORT : u16 := 0xA0
def SLAVE_PIC_DATA_PORT : u16 := 0xA1

def outb (p : Pics) (port : u16) (v : u8) : Pics :=
  if port = MASTER_PIC_COMMAND_PORT then { p with master := p.master.command v }
  else if port = MASTER_PIC_DATA_PORT then { p with master := p.master.data v }
  else if port = SLAVE_PIC_COMMAND_PORT then { p with slave := p.slave.command v }
  else if port = SLAVE_PIC_DATA_PORT then { p with slave := p.slave.data v }
  else p

/-- The data ports give the masks. -/
def inb (p : Pics) (port : u16) : u8 :=
  if port = MASTER_PIC_DATA_PORT then p.master.mask
  else if port = SLAVE_PIC_DATA_PORT then p.slave.mask
  else 0

def io_wait (p : Pics) : Pics := outb p 0x80 0

def pic_remap (p : Pics) (offset : u8) : Pics :=
  let a1 := inb p MASTER_PIC_DATA_PORT
  let a2 := inb p SLAVE_PIC_DATA_PORT
  let p := io_wait (outb p MASTER_PIC_COMMAND_PORT (ICW1_INIT ||| ICW1_ICW4))
  let p := io_wait (outb p SLAVE_PIC_COMMAND_PORT (ICW1_INIT ||| ICW1_ICW4))
  let p := io_wait (outb p MASTER_PIC_DATA_PORT offset)
  let p := io_wait (outb p SLAVE_PIC_DATA_PORT (offset + 0x8))
  let p := io_wait (outb p MASTER_PIC_DATA_PORT 4)
  let p := io_wait (outb p SLAVE_PIC_DATA_PORT 2)
  let p := io_wait (outb p MASTER_PIC_DATA_PORT ICW4_8086)
  let p := io_wait (outb p SLAVE_PIC_DATA_PORT ICW4_8086)
  let p := outb p MASTER_PIC_DATA_PORT a1
  outb p SLAVE_PIC_DATA_PORT a2

/-- `1 << irq_line` on 32 bits; the CPU takes the count modulo 32. -/
def line_bit (irq_line : u8) : u32 := (1 : u32) <<< (irq_line.toNat % 32)

def mask_port (irq_line : u8) : u16 :=
  if irq_line < 8 then MASTER_PIC_DATA_PORT else SLAVE_PIC_DATA_PORT

def irq_set_mask (p : Pics) (irq_line : u8) : Pics :=
  let port := mask_port irq_line
  let irq_line := if 8 ≤ irq_line then irq_line - 8 else irq_line
  let value := ((inb p port).setWidth 32 ||| line_bit irq_line).setWidth 8
  outb p port value

def irq_clear_mask (p : Pics) (irq_line : u8) : Pics :=
  let port := mask_port irq_line
  let irq_line := if 8 ≤ irq_line then irq_line - 8 else irq_line
  let value := ((inb p port).setWidth 32 &&& ~~~line_bit irq_line).setWidth 8
  outb p port value

/-! ## The table -/

structure idtr where
  limit : u16
  base : u64
deriving DecidableEq

structure interrupt_descriptor where
  address_low : u16
  selector : u16
  ist : u8
  flags : u8
  address_mid : u16
  address_high : u32
  reserved : u32
deriving DecidableEq

structure State where
  pics : Pics
  idt : u8 → interrupt_descriptor
  list_of_handlers : u8 → u64
  idt_reg : idtr
  /-- The CPU takes interrupts. -/
  enabled : Bool

/-- The addresses of the program. -/
structure Image where
  idt : u64
  isr_list : u8 → u64
  page_fault : u64

def set_idt_entry (s : State) (vector : u8) (handler : u64) (dpl : u8) : State :=
  let entry := { s.idt vector with
    address_low := (handler &&& 0xFFFF).setWidth 16
    address_mid := ((handler >>> 16) &&& 0xFFFF).setWidth 16
    address_high := (handler >>> 32).setWidth 32
    selector := 0x8
    flags := (0b1110 : u8) ||| ((dpl &&& 0b11) <<< 5) ||| ((1 : u8) <<< 7)
    ist := 0 }
  { s with idt := Function.update s.idt vector entry }

def load_idt (s : State) (idt_addr : u64) : State :=
  { s with idt_reg := { limit := 0xFFF, base := idt_addr } }

def handler_install (img : Image) (s : State) (num : u8) (handler : u64) : State :=
  let s := if 0x20 ≤ num then { s with pics := irq_clear_mask s.pics (num - 0x20) } else s
  let s := set_idt_entry s num (img.isr_list num) 0
  { s with list_of_handlers := Function.update s.list_of_handlers num handler }

/-- `for (int i = 0; i < n; i++)` over the lines. -/
def mask_lines (p : Pics) : Nat → Pics
  | 0 => p
  | n + 1 => irq_set_mask (mask_lines p n) (BitVec.ofNat 8 n)

def idt_init (img : Image) (s : State) : State :=
  let s := { s with list_of_handlers := fun _ => 0 }
  let s := { s with pics := mask_lines (pic_remap s.pics 0x20) 0x10 }
  let s := handler_install img s 0x0E img.page_fault
  let s := load_idt s img.idt
  { s with enabled := true }

/-- A vector and a handler for each call of `handler_install`. -/
abbrev Calls := List (u8 × u64)

/-- The state after `idt_init` and some calls of `handler_install`. -/
def after (img : Image) (s : State) (calls : Calls) : State :=
  calls.foldl (fun s c => handler_install img s c.1 c.2) (idt_init img s)

/-! ## What the lines should do -/

/-- Some call installed a handler for the vector. -/
def Installed (calls : Calls) (num : Nat) : Prop := ∃ c ∈ calls, c.1.toNat = num

/-- An interrupt of the line reaches the CPU. A line of the slave goes through line 2 of the
master. -/
def Deliverable (p : Pics) (i : Nat) : Prop :=
  if i < 8 then p.master.mask.getLsbD i = false
  else p.slave.mask.getLsbD (i - 8) = false ∧ p.master.mask.getLsbD 2 = false

/-- A line of the slave has a handler. -/
def SlaveInstalled (calls : Calls) : Prop := ∃ i, 8 ≤ i ∧ i < 16 ∧ Installed calls (0x20 + i)

/-- The lines with a handler can be delivered, and no others. Line 2 may also be open for the
slave. The vectors of no line change no mask. -/
structure Delivers (img : Image) (s : State) (calls : Calls) : Prop where
  lines : ∀ i, i < 16 → i ≠ 2 →
    (Deliverable (after img s calls).pics i ↔ Installed calls (0x20 + i))
  cascade : Installed calls 0x22 → Deliverable (after img s calls).pics 2
  opened : Deliverable (after img s calls).pics 2 → Installed calls 0x22 ∨ SlaveInstalled calls
  others : ∀ l c r, calls = l ++ c :: r → ¬ (0x20 ≤ c.1.toNat ∧ c.1.toNat < 0x30) →
    (after img s (l ++ [c])).pics.master.mask = (after img s l).pics.master.mask ∧
      (after img s (l ++ [c])).pics.slave.mask = (after img s l).pics.slave.mask

variable {img : Image} {s : State} {p : Pics} {calls : Calls} {i k : Nat}

/-! ## The masks -/

/-- Both controllers take a write to the data port for a mask. -/
def Ready (p : Pics) : Prop := p.master.await = .mask ∧ p.slave.await = .mask

theorem Pic.data_mask {q : Pic} (h : q.await = .mask) (v : u8) :
    q.data v = { q with mask := v } := by
  obtain ⟨await, offset, cascade, mode, mask⟩ := q
  obtain rfl : await = .mask := h
  rfl

theorem outb_master (h : Ready p) (v : u8) :
    outb p MASTER_PIC_DATA_PORT v = { p with master := { p.master with mask := v } } := by
  unfold outb
  rw [if_neg (by decide), if_pos rfl, Pic.data_mask h.1]

theorem outb_slave (h : Ready p) (v : u8) :
    outb p SLAVE_PIC_DATA_PORT v = { p with slave := { p.slave with mask := v } } := by
  unfold outb
  rw [if_neg (by decide), if_neg (by decide), if_neg (by decide), if_pos rfl, Pic.data_mask h.2]

/-- The line of a controller that a number stands for, and none from 8 on. -/
def place (line : u8) : Nat := (if 8 ≤ line then line - 8 else line).toNat % 32

theorem line_bit_getLsbD (line : u8) (k : Nat) :
    (line_bit line).getLsbD k = decide (k = line.toNat % 32) := by
  unfold line_bit
  rw [BitVec.getLsbD_shiftLeft]
  by_cases hlt : k < line.toNat % 32
  · simp [hlt, Nat.ne_of_lt hlt]
  · by_cases heq : k = line.toNat % 32
    · simp [heq, Nat.mod_lt]
    · have hpos : k - line.toNat % 32 ≠ 0 := by omega
      simp [hlt, heq, hpos]

theorem clear_getLsbD (m line : u8) (hk : k < 8) :
    ((m.setWidth 32 &&& ~~~line_bit line).setWidth 8).getLsbD k =
      (m.getLsbD k && !decide (k = line.toNat % 32)) := by
  have h32 : k < 32 := by omega
  simp only [BitVec.getLsbD_setWidth, BitVec.getLsbD_and, BitVec.getLsbD_not,
    line_bit_getLsbD line k, hk, h32, decide_true, Bool.true_and]

theorem set_getLsbD (m line : u8) (hk : k < 8) :
    ((m.setWidth 32 ||| line_bit line).setWidth 8).getLsbD k =
      (m.getLsbD k || decide (k = line.toNat % 32)) := by
  have h32 : k < 32 := by omega
  simp only [BitVec.getLsbD_setWidth, BitVec.getLsbD_or, line_bit_getLsbD line k, hk, h32,
    decide_true, Bool.true_and]

/-- What a change of one line does: bits of one controller get `f` of what they were. -/
structure Changed (p p' : Pics) (line : u8) (f : Bool → Bool → Bool) : Prop where
  ready : Ready p'
  master : ∀ k, k < 8 → p'.master.mask.getLsbD k =
    if line < 8 then f (p.master.mask.getLsbD k) (decide (k = place line))
    else p.master.mask.getLsbD k
  slave : ∀ k, k < 8 → p'.slave.mask.getLsbD k =
    if line < 8 then p.slave.mask.getLsbD k
    else f (p.slave.mask.getLsbD k) (decide (k = place line))

/-- A write of a mask that was computed bit by bit. -/
theorem changed_of_outb (h : Ready p) (line : u8) (f : Bool → Bool → Bool) (g : u8 → u8)
    (hg : ∀ m k, k < 8 → (g m).getLsbD k = f (m.getLsbD k) (decide (k = place line))) :
    Changed p (outb p (mask_port line) (g (inb p (mask_port line)))) line f := by
  unfold mask_port
  by_cases hlt : line < 8
  · rw [if_pos hlt, outb_master h]
    refine ⟨h, fun k hk => ?_, fun k hk => ?_⟩
    · rw [if_pos hlt]
      exact hg p.master.mask k hk
    · rw [if_pos hlt]
  · rw [if_neg hlt, outb_slave h]
    refine ⟨h, fun k hk => ?_, fun k hk => ?_⟩
    · rw [if_neg hlt]
    · rw [if_neg hlt]
      exact hg p.slave.mask k hk

theorem irq_clear_mask.spec (h : Ready p) (line : u8) :
    Changed p (irq_clear_mask p line) line (fun b same => b && !same) :=
  changed_of_outb h line _
    (fun m => (m.setWidth 32 &&& ~~~line_bit (if 8 ≤ line then line - 8 else line)).setWidth 8)
    (fun m _ hk => clear_getLsbD m _ hk)

theorem irq_set_mask.spec (h : Ready p) (line : u8) :
    Changed p (irq_set_mask p line) line (fun b same => b || same) :=
  changed_of_outb h line _
    (fun m => (m.setWidth 32 ||| line_bit (if 8 ≤ line then line - 8 else line)).setWidth 8)
    (fun m _ hk => set_getLsbD m _ hk)

/-! ## idt_init -/

theorem pic_remap_ready (p : Pics) (offset : u8) : Ready (pic_remap p offset) := by
  obtain ⟨⟨a1, o1, c1, m1, k1⟩, ⟨a2, o2, c2, m2, k2⟩⟩ := p
  exact ⟨rfl, rfl⟩

/-- The lines below `n` are masked. -/
theorem mask_lines.spec (h : Ready p) (n : Nat) (hn : n ≤ 16) :
    Ready (mask_lines p n) ∧
      (∀ k, k < 8 → k < n → (mask_lines p n).master.mask.getLsbD k = true) ∧
      ∀ k, k < 8 → k + 8 < n → (mask_lines p n).slave.mask.getLsbD k = true := by
  induction n with
  | zero => exact ⟨h, fun _ _ hk => absurd hk (Nat.not_lt_zero _),
      fun _ _ hk => absurd hk (Nat.not_lt_zero _)⟩
  | succ n ih =>
    obtain ⟨hready, hmaster, hslave⟩ := ih (by omega)
    have hline : (BitVec.ofNat 8 n).toNat = n := by
      rw [BitVec.toNat_ofNat]
      exact Nat.mod_eq_of_lt (by omega)
    have hchanged := irq_set_mask.spec hready (BitVec.ofNat 8 n)
    have hlt : BitVec.ofNat 8 n < 8 ↔ n < 8 := by
      rw [BitVec.lt_def, hline]
      rfl
    have hplace : place (BitVec.ofNat 8 n) = if n < 8 then n else n - 8 := by
      unfold place
      by_cases h8 : n < 8
      · have hnot : ¬ (8 : u8) ≤ BitVec.ofNat 8 n := by
          rw [BitVec.le_def, hline]
          show ¬ 8 ≤ n
          omega
        rw [if_neg hnot, if_pos h8, hline]
        omega
      · have hle : (8 : u8) ≤ BitVec.ofNat 8 n := by
          rw [BitVec.le_def, hline]
          show 8 ≤ n
          omega
        rw [if_pos hle, if_neg h8, BitVec.toNat_sub_of_le hle, hline]
        show (n - 8) % 32 = n - 8
        omega
    refine ⟨hchanged.ready, fun k hk hkn => ?_, fun k hk hkn => ?_⟩
    · rw [mask_lines, hchanged.master k hk, hplace]
      by_cases h8 : n < 8
      · rw [if_pos (hlt.mpr h8), if_pos h8]
        by_cases heq : k = n
        · simp [heq]
        · rw [hmaster k hk (by omega), Bool.true_or]
      · rw [if_neg (fun hc => h8 (hlt.mp hc))]
        exact hmaster k hk (by omega)
    · have h8 : ¬ n < 8 := by omega
      rw [mask_lines, hchanged.slave k hk, hplace, if_neg (fun hc => h8 (hlt.mp hc)), if_neg h8]
      by_cases heq : k = n - 8
      · simp [heq]
      · rw [hslave k hk (by omega), Bool.true_or]

/-- After `idt_init` all lines are masked, from any state of the controllers. -/
theorem idt_init.spec (img : Image) (s : State) :
    Ready (idt_init img s).pics ∧
      ∀ k, k < 8 → (idt_init img s).pics.master.mask.getLsbD k = true ∧
        (idt_init img s).pics.slave.mask.getLsbD k = true := by
  obtain ⟨hready, hmaster, hslave⟩ :=
    mask_lines.spec (pic_remap_ready s.pics 0x20) 0x10 (Nat.le_refl _)
  have hpics : (idt_init img s).pics = mask_lines (pic_remap s.pics 0x20) 0x10 := rfl
  rw [hpics]
  exact ⟨hready, fun k hk => ⟨hmaster k hk (by omega), hslave k hk (by omega)⟩⟩

/-! ## Runs of handler_install -/

/-- A handler for the vector clears bit `k` of the slave. -/
def ClearsSlave (num : u8) (k : Nat) : Prop := 0x28 ≤ num.toNat ∧ (num.toNat - 0x28) % 32 = k

instance (num : u8) (k : Nat) : Decidable (ClearsSlave num k) := by
  unfold ClearsSlave
  infer_instance

theorem handler_install.spec (img : Image) (h : Ready s.pics) (num : u8) (handler : u64) :
    Ready (handler_install img s num handler).pics ∧
      ∀ k, k < 8 →
        (handler_install img s num handler).pics.master.mask.getLsbD k =
          (s.pics.master.mask.getLsbD k && !decide (num.toNat = 0x20 + k)) ∧
        (handler_install img s num handler).pics.slave.mask.getLsbD k =
          (s.pics.slave.mask.getLsbD k && !decide (ClearsSlave num k)) := by
  have hpics : (handler_install img s num handler).pics =
      if 0x20 ≤ num then irq_clear_mask s.pics (num - 0x20) else s.pics := by
    unfold handler_install set_idt_entry
    dsimp only
    split <;> rfl
  rw [hpics]
  by_cases h20 : (0x20 : u8) ≤ num
  · have hnat : 0x20 ≤ num.toNat := BitVec.le_def.mp h20
    have hline : (num - 0x20).toNat = num.toNat - 0x20 := BitVec.toNat_sub_of_le h20
    have hchanged := irq_clear_mask.spec h (num - 0x20)
    have hlt : num - 0x20 < 8 ↔ num.toNat < 0x28 := by
      rw [BitVec.lt_def, hline]
      show num.toNat - 0x20 < 8 ↔ _
      omega
    rw [if_pos h20]
    refine ⟨hchanged.ready, fun k hk => ?_⟩
    rw [hchanged.master k hk, hchanged.slave k hk]
    by_cases h8 : num.toNat < 0x28
    · have hnot : ¬ (8 : u8) ≤ num - 0x20 := by
        rw [BitVec.le_def, hline]
        show ¬ 8 ≤ num.toNat - 0x20
        omega
      have hplace : k = place (num - 0x20) ↔ num.toNat = 0x20 + k := by
        unfold place
        rw [if_neg hnot, hline]
        omega
      have hdec : decide (k = place (num - 0x20)) = decide (num.toNat = 0x20 + k) :=
        decide_eq_decide.mpr hplace
      have hslave : ¬ ClearsSlave num k := by
        rintro ⟨hle, -⟩
        omega
      rw [if_pos (hlt.mpr h8), if_pos (hlt.mpr h8), hdec]
      simp [hslave]
    · have hle : (8 : u8) ≤ num - 0x20 := by
        rw [BitVec.le_def, hline]
        show 8 ≤ num.toNat - 0x20
        omega
      have hplace : k = place (num - 0x20) ↔ ClearsSlave num k := by
        unfold place ClearsSlave
        rw [if_pos hle, BitVec.toNat_sub_of_le hle, hline]
        show k = (num.toNat - 0x20 - 8) % 32 ↔ _
        omega
      have hdec : decide (k = place (num - 0x20)) = decide (ClearsSlave num k) :=
        decide_eq_decide.mpr hplace
      have hmaster : num.toNat ≠ 0x20 + k := by omega
      rw [if_neg (fun hc => h8 (hlt.mp hc)), if_neg (fun hc => h8 (hlt.mp hc)), hdec]
      simp [hmaster]
  · have hnat : ¬ 0x20 ≤ num.toNat := fun hc => h20 (BitVec.le_def.mpr hc)
    have hmaster : ∀ k, num.toNat ≠ 0x20 + k := by
      intro k
      omega
    have hslave : ∀ k, ¬ ClearsSlave num k := by
      rintro k ⟨hle, -⟩
      omega
    rw [if_neg h20]
    exact ⟨h, fun k _ => by simp [hmaster k, hslave k]⟩

theorem after_concat (img : Image) (s : State) (l : Calls) (c : u8 × u64) :
    after img s (l ++ [c]) = handler_install img (after img s l) c.1 c.2 := by
  unfold after
  rw [List.foldl_append]
  rfl

theorem installed_concat {l : Calls} {c : u8 × u64} {n : Nat} :
    Installed (l ++ [c]) n ↔ Installed l n ∨ c.1.toNat = n := by
  unfold Installed
  simp only [List.mem_append, List.mem_singleton]
  constructor
  · rintro ⟨d, hd | rfl, hn⟩
    · exact Or.inl ⟨d, hd, hn⟩
    · exact Or.inr hn
  · rintro (⟨d, hd, hn⟩ | hn)
    · exact ⟨d, Or.inl hd, hn⟩
    · exact ⟨c, Or.inr rfl, hn⟩

/-- The masks after any run: the calls so far decide each bit. -/
theorem after_masks (img : Image) (s : State) (calls : Calls) :
    Ready (after img s calls).pics ∧ ∀ k, k < 8 →
      ((after img s calls).pics.master.mask.getLsbD k = false ↔ Installed calls (0x20 + k)) ∧
      ((after img s calls).pics.slave.mask.getLsbD k = false ↔
        ∃ c ∈ calls, ClearsSlave c.1 k) := by
  induction calls using List.reverseRecOn with
  | nil =>
    obtain ⟨hready, hset⟩ := idt_init.spec img s
    refine ⟨hready, fun k hk => ?_⟩
    obtain ⟨hmaster, hslave⟩ := hset k hk
    have hafter : after img s [] = idt_init img s := rfl
    rw [hafter, hmaster, hslave]
    simp [Installed]
  | append_singleton l c ih =>
    obtain ⟨hready, hbits⟩ := ih
    obtain ⟨hready', hchanged⟩ := handler_install.spec img hready c.1 c.2
    rw [after_concat]
    refine ⟨hready', fun k hk => ?_⟩
    obtain ⟨hmaster, hslave⟩ := hchanged k hk
    obtain ⟨hm, hs⟩ := hbits k hk
    constructor
    · rw [hmaster, Bool.and_eq_false_iff, hm, installed_concat]
      simp
    · rw [hslave, Bool.and_eq_false_iff, hs]
      simp only [Bool.not_eq_false', decide_eq_true_eq, List.mem_append, List.mem_singleton]
      constructor
      · rintro (⟨d, hd, hc⟩ | hc)
        · exact ⟨d, Or.inl hd, hc⟩
        · exact ⟨c, Or.inr rfl, hc⟩
      · rintro ⟨d, hd | rfl, hc⟩
        · exact Or.inl ⟨d, hd, hc⟩
        · exact Or.inr hc

/-! ## The table after a run -/

/-- The address of the three parts of an entry. -/
def interrupt_descriptor.address (e : interrupt_descriptor) : u64 :=
  (e.address_high.setWidth 64 <<< 32) ||| (e.address_mid.setWidth 64 <<< 16) |||
    e.address_low.setWidth 64

/-- The parts give the address back. -/
theorem set_idt_entry_address (s : State) (vector : u8) (handler : u64) (dpl : u8) :
    ((set_idt_entry s vector handler dpl).idt vector).address = handler := by
  unfold set_idt_entry interrupt_descriptor.address
  dsimp only
  rw [Function.update_self]
  apply BitVec.eq_of_getLsbD_eq
  intro i hi
  have hmask : (0xFFFF : u64) = BitVec.ofNat 64 (2 ^ 16 - 1) := rfl
  simp only [BitVec.getLsbD_or, BitVec.getLsbD_shiftLeft, BitVec.getLsbD_setWidth,
    BitVec.getLsbD_and, BitVec.getLsbD_ushiftRight, hmask, BitVec.getLsbD_ofNat,
    Nat.testBit_two_pow_sub_one]
  by_cases h16 : i < 16
  · simp [h16, hi, show i < 32 by omega]
  · by_cases h32 : i < 32
    · simp [h16, h32, hi, show i - 16 < 16 by omega, show 16 + (i - 16) = i by omega,
        show i - 16 < 64 by omega]
    · simp [h16, h32, hi, show ¬ i - 16 < 16 by omega, show i - 32 < 32 by omega,
        show i - 32 < 64 by omega, show 32 + (i - 32) = i by omega]

/-- The entry of a vector leads to its stub, for the kernel alone, and the last handler that was
installed is the one that is called. -/
theorem after_entry (img : Image) (s : State) (l r : Calls) (num : u8) (handler : u64)
    (hr : ∀ c ∈ r, c.1 ≠ num) :
    ((after img s (l ++ (num, handler) :: r)).idt num).address = img.isr_list num ∧
      ((after img s (l ++ (num, handler) :: r)).idt num).flags = 0x8E ∧
      (after img s (l ++ (num, handler) :: r)).list_of_handlers num = handler := by
  induction r using List.reverseRecOn with
  | nil =>
    rw [after_concat]
    refine ⟨set_idt_entry_address _ num _ 0, ?_, Function.update_self _ _ _⟩
    unfold handler_install set_idt_entry
    dsimp only
    rw [Function.update_self]
    rfl
  | append_singleton r c ih =>
    have hne : num ≠ c.1 := (hr c (by simp)).symm
    have hother : ∀ s : State, (handler_install img s c.1 c.2).idt num = s.idt num ∧
        (handler_install img s c.1 c.2).list_of_handlers num = s.list_of_handlers num := by
      intro s
      unfold handler_install set_idt_entry
      dsimp only
      rw [Function.update_of_ne hne, Function.update_of_ne hne]
      split <;> exact ⟨rfl, rfl⟩
    rw [← List.cons_append, ← List.append_assoc, after_concat, (hother _).1, (hother _).2]
    exact ih (fun d hd => hr d (List.mem_append_left _ hd))

/-! ## Lines and handlers -/

/-- The condition on the calls: a line of the slave comes with vector 0x22, and a vector above the
lines that runs into a bit of the slave comes after the vector of that bit. -/
structure Sound (calls : Calls) : Prop where
  cascade : SlaveInstalled calls → Installed calls 0x22
  before : ∀ l c r, calls = l ++ c :: r → 0x30 ≤ c.1.toNat → (c.1.toNat - 0x28) % 32 < 8 →
    Installed l (0x28 + (c.1.toNat - 0x28) % 32)

theorem Installed.mono {l : Calls} {n : Nat} (h : Installed l n) (hsub : ∀ c ∈ l, c ∈ calls) :
    Installed calls n := by
  obtain ⟨c, hc, hn⟩ := h
  exact ⟨c, hsub c hc, hn⟩

theorem Installed.clears {l : Calls} (h : Installed l (0x28 + k)) (hk : k < 8) :
    ∃ c ∈ l, ClearsSlave c.1 k := by
  obtain ⟨c, hc, hn⟩ := h
  exact ⟨c, hc, by omega, by omega⟩

/-- In a sound run the bits of the slave belong to its own lines. -/
theorem Sound.clears_iff (h : Sound calls) (hk : k < 8) :
    (∃ c ∈ calls, ClearsSlave c.1 k) ↔ Installed calls (0x28 + k) := by
  constructor
  · rintro ⟨c, hc, hle, hmod⟩
    by_cases h30 : c.1.toNat < 0x30
    · exact ⟨c, hc, by omega⟩
    · obtain ⟨l, r, hl⟩ := List.append_of_mem hc
      have hbefore := h.before l c r hl (by omega) (by omega)
      rw [hmod] at hbefore
      exact hbefore.mono (fun d hd => by rw [hl]; exact List.mem_append_left _ hd)
  · exact fun hin => hin.clears hk

theorem deliverable_master (img : Image) (s : State) (calls : Calls) (hi : i < 8) :
    Deliverable (after img s calls).pics i ↔ Installed calls (0x20 + i) := by
  unfold Deliverable
  rw [if_pos hi]
  exact ((after_masks img s calls).2 i hi).1

theorem deliverable_slave (img : Image) (s : State) (calls : Calls) (h8 : 8 ≤ i) (hi : i < 16) :
    Deliverable (after img s calls).pics i ↔
      (∃ c ∈ calls, ClearsSlave c.1 (i - 8)) ∧ Installed calls 0x22 := by
  unfold Deliverable
  rw [if_neg (by omega)]
  exact and_congr ((after_masks img s calls).2 (i - 8) (by omega)).2
    ((after_masks img s calls).2 2 (by omega)).1

/-- Two masks with the same clear bits are the same. -/
theorem mask_ext {m m' : u8} (h : ∀ k, k < 8 → (m.getLsbD k = false ↔ m'.getLsbD k = false)) :
    m = m' := by
  apply BitVec.eq_of_getLsbD_eq
  intro k hk
  have hiff := h k hk
  cases hm : m.getLsbD k with
  | false => exact (hiff.mp hm).symm
  | true =>
    cases hm' : m'.getLsbD k with
    | false => rw [hiff.mpr hm'] at hm; cases hm
    | true => rfl

/-- A call for another vector keeps the mask of the master. -/
theorem other_keeps_master (img : Image) (s : State) (l : Calls) (c : u8 × u64)
    (hc : ¬ (0x20 ≤ c.1.toNat ∧ c.1.toNat < 0x30)) :
    (after img s (l ++ [c])).pics.master.mask = (after img s l).pics.master.mask := by
  apply mask_ext
  intro k hk
  rw [((after_masks img s (l ++ [c])).2 k hk).1, ((after_masks img s l).2 k hk).1,
    installed_concat]
  constructor
  · rintro (h | h)
    · exact h
    · omega
  · exact Or.inl

/-- In a sound run, a call for another vector finds the bits clear that it clears. -/
theorem Sound.keeps_slave (h : Sound calls) (img : Image) (s : State) {l r : Calls} {c : u8 × u64}
    (hl : calls = l ++ c :: r) (hc : ¬ (0x20 ≤ c.1.toNat ∧ c.1.toNat < 0x30)) :
    (after img s (l ++ [c])).pics.slave.mask = (after img s l).pics.slave.mask := by
  apply mask_ext
  intro k hk
  rw [((after_masks img s (l ++ [c])).2 k hk).2, ((after_masks img s l).2 k hk).2]
  simp only [List.mem_append, List.mem_singleton]
  constructor
  · rintro ⟨d, hd | rfl, hclears⟩
    · exact ⟨d, hd, hclears⟩
    · obtain ⟨hle, hmod⟩ := hclears
      have hbefore := h.before l d r hl (by omega) (by omega)
      rw [hmod] at hbefore
      exact hbefore.clears hk
  · rintro ⟨d, hd, hclears⟩
    exact ⟨d, Or.inl hd, hclears⟩

/-- The first call that clears a bit of the slave is for the line of the bit, when other calls
change no mask. -/
theorem Delivers.before (h : Delivers img s calls) (l : Calls) : ∀ c r, calls = l ++ c :: r →
    0x30 ≤ c.1.toNat → (c.1.toNat - 0x28) % 32 < 8 →
    Installed l (0x28 + (c.1.toNat - 0x28) % 32) := by
  induction hn : l.length using Nat.strongRecOn generalizing l with
  | _ n ih =>
    intro c r hl hle hk
    obtain ⟨-, hsame⟩ := h.others l c r hl (by omega)
    have hclear : (after img s (l ++ [c])).pics.slave.mask.getLsbD ((c.1.toNat - 0x28) % 32) =
        false := by
      apply ((after_masks img s (l ++ [c])).2 _ hk).2.mpr
      exact ⟨c, List.mem_append_right _ (List.mem_singleton_self c), by omega, rfl⟩
    rw [hsame] at hclear
    obtain ⟨d, hd, hdle, hdk⟩ := ((after_masks img s l).2 _ hk).2.mp hclear
    by_cases h30 : d.1.toNat < 0x30
    · exact ⟨d, hd, by omega⟩
    · obtain ⟨l1, l2, hl1⟩ := List.append_of_mem hd
      have hlen : l1.length < n := by
        rw [← hn, hl1, List.length_append, List.length_cons]
        omega
      have hd1 := ih l1.length hlen l1 rfl d (l2 ++ c :: r)
        (by rw [hl, hl1, List.append_assoc, List.cons_append]) (by omega) (by omega)
      rw [hdk] at hd1
      exact hd1.mono (fun e he => by rw [hl1]; exact List.mem_append_left _ he)

/-- The lines with handlers are delivered, and no others, in exactly the runs that install vector
0x22 with each line of the slave and no early vector above the lines. -/
theorem installed_lines_are_delivered_iff (img : Image) (s : State) (calls : Calls) :
    Delivers img s calls ↔ Sound calls := by
  constructor
  · intro h
    refine ⟨?_, fun l => h.before l⟩
    rintro ⟨i, h8, hi, hin⟩
    have hdel := (h.lines i hi (by omega)).mpr hin
    exact ((deliverable_slave img s calls h8 hi).mp hdel).2
  · intro h
    have hline2 := deliverable_master img s calls (show 2 < 8 by decide)
    refine ⟨fun i hi hne => ?_, hline2.mpr, fun hdel => Or.inl (hline2.mp hdel),
      fun l c r hl hc => ⟨other_keeps_master img s l c hc, h.keeps_slave img s hl hc⟩⟩
    by_cases h8 : i < 8
    · exact deliverable_master img s calls h8
    · have h8' : 8 ≤ i := by omega
      have hplace : 0x28 + (i - 8) = 0x20 + i := by omega
      rw [deliverable_slave img s calls h8' hi, h.clears_iff (by omega), hplace]
      constructor
      · exact And.left
      · exact fun hin => ⟨hin, h.cascade ⟨i, h8', hi, hin⟩⟩

/-- The addresses do not matter. -/
def no_image : Image where
  idt := 0
  isr_list := fun _ => 0
  page_fault := 0

/-- The controllers as the firmware leaves them, and an empty table. -/
def cold : State where
  pics := { master := ⟨.mask, 8, 4, 1, 0xB8⟩, slave := ⟨.mask, 0x70, 2, 1, 0x8E⟩ }
  idt := fun _ => ⟨0, 0, 0, 0, 0, 0, 0⟩
  list_of_handlers := fun _ => 0
  idt_reg := ⟨0, 0⟩
  enabled := false

/-- With a handler for the mouse alone, its line waits behind line 2. -/
theorem the_mouse_is_not_delivered : ¬ Delivers no_image cold [(0x2C, 0x1000)] := by
  intro h
  have hin : Installed [((0x2C : u8), (0x1000 : u64))] (0x20 + 12) :=
    ⟨(0x2C, 0x1000), List.mem_singleton_self _, rfl⟩
  have hdel := (h.lines 12 (by decide) (by decide)).mpr hin
  obtain ⟨-, c, hc, hnum⟩ := (deliverable_slave no_image cold _ (by decide) (by decide)).mp hdel
  rw [List.mem_singleton.mp hc] at hnum
  revert hnum
  decide

/-- A handler for vector 0x48 opens line 0 of the slave, from any state. -/
theorem vector_0x48_opens_a_line (img : Image) (s : State) (handler : u64) :
    ¬ Delivers img s [(0x48, handler)] := by
  intro h
  obtain ⟨c, hc, -⟩ := h.before [] (0x48, handler) [] rfl
    (show 0x30 ≤ (0x48 : u8).toNat by decide) (show ((0x48 : u8).toNat - 0x28) % 32 < 8 by decide)
  cases hc

end salsola.irq
