-- The keyboard on its interrupt line: keys come at any time, the controllers interrupt the CPU,
-- and the parts of `ps2_keyboard_init` and of the handler have the devices at work in between.
import Salsola.Idt
import Salsola.KeyboardDecoding

open outcome ring salsola.ringbuffer

namespace salsola.irq

open keyboard (Keyboard EVENT_SIZE keyboard_handler ps2_keyboard_init Shows recorded recordings)

/-! ## The controllers at work -/

/-- The lines of a controller that ask for an interrupt, and the lines that are served. -/
structure Requests where
  irr : u8
  isr : u8
deriving DecidableEq

def Requests.raise (r : Requests) (i : Nat) : Requests :=
  { r with irr := r.irr ||| BitVec.twoPow 8 i }

/-- The first line that asks and is not masked. A line that is served keeps out itself and the
lines behind it. -/
def Requests.asks (r : Requests) (mask : u8) : Option Nat :=
  match (List.range 8).find? fun i => r.irr.getLsbD i && !mask.getLsbD i with
  | none => none
  | some i => if ∀ j ≤ i, r.isr.getLsbD j = false then some i else none

/-- The CPU takes the interrupt of a line. -/
def Requests.take (r : Requests) (i : Nat) : Requests where
  irr := r.irr &&& ~~~BitVec.twoPow 8 i
  isr := r.isr ||| BitVec.twoPow 8 i

/-- The first line that is served is not served any more. -/
def Requests.eoi (r : Requests) : Requests := { r with isr := r.isr &&& (r.isr - 1) }

/-! ## The machine -/

/-- Where the CPU is: in the kernel, or in one of the parts of `keyboard_handler`. -/
inductive Stage
  | running
  /-- The port is read next. -/
  | entered
  /-- The controller is told next. -/
  | got (c : UInt8)
  /-- The byte is decoded next. -/
  | told (c : UInt8)
deriving DecidableEq

/-- How far the kernel is in `ps2_keyboard_init`. -/
inductive Setup
  | before
  /-- The buffer is there, and `handler_install` has cleared the mask of the line. -/
  | cleared
  /-- The table has the entry of the vector. -/
  | gated
  | installed
deriving DecidableEq

structure Machine where
  kernel : State
  master : Requests
  slave : Requests
  driver : Keyboard
  setup : Setup
  /-- The byte that waits in the port of the keyboard. -/
  output : Option UInt8
  stage : Stage
  /-- The bytes that came to the port, oldest first. -/
  typed : List UInt8
  /-- The bytes that were decoded, oldest first, each with the byte behind the tables. -/
  handled : List (UInt8 × UInt8)

structure Program extends Image where
  keyboard_handler : u64
  /-- A function has an address. -/
  not_null : keyboard_handler ≠ 0

/-- The line that the controllers interrupt the CPU for. The slave asks on line 2 of the
master. -/
def Machine.asks (m : Machine) : Option Nat :=
  let slave := m.slave.asks m.kernel.pics.slave.mask
  let master := if slave.isSome then m.master.raise 2 else m.master
  match master.asks m.kernel.pics.master.mask with
  | none => none
  | some i => if i = 2 then slave.map (8 + ·) else some i

/-- The controllers give the vector of a line. -/
def Machine.accept (m : Machine) (line : Nat) : u8 × Machine :=
  if line < 8 then
    (m.kernel.pics.master.offset + BitVec.ofNat 8 line, { m with master := m.master.take line })
  else
    (m.kernel.pics.slave.offset + BitVec.ofNat 8 (line - 8),
      { m with master := (m.master.raise 2).take 2, slave := m.slave.take (line - 8) })

def Machine.enable (m : Machine) (enabled : Bool) : Machine :=
  { m with kernel := { m.kernel with enabled } }

/-- The CPU takes an interrupt: the table leads it to the stub of the vector, and
`interrupt_dispatch` calls the handler. -/
def Machine.take (prog : Program) (m : Machine) (line : Nat) : Result Machine :=
  let (vector, m) := m.accept line
  let entry := m.kernel.idt vector
  if entry.flags.getLsbD 7 = false ∨ entry.address ≠ prog.isr_list vector then .error .fault
  else
    let handler := m.kernel.list_of_handlers vector
    -- without a handler there is a note, and the interrupt is over
    if handler = 0 then .ok m
    else if handler = prog.keyboard_handler then .ok { m.enable false with stage := .entered }
    -- `page_fault`
    else .error .spin

def EOI : u8 := 0x20

/-- A write to a port of the controllers. -/
def Machine.outb (m : Machine) (port : u16) (v : u8) : Machine :=
  let m := { m with kernel := { m.kernel with pics := irq.outb m.kernel.pics port v } }
  if v ≠ EOI then m
  else if port = MASTER_PIC_COMMAND_PORT then { m with master := m.master.eoi }
  else if port = SLAVE_PIC_COMMAND_PORT then { m with slave := m.slave.eoi }
  else m

/-- The next part of `keyboard_handler`. When no byte waits, the port gives the `stale` one. -/
def Machine.go (m : Machine) (stale behind : UInt8) : Result Machine :=
  match m.stage with
  | .running => .ok m
  | .entered => .ok { m with stage := .got (m.output.getD stale), output := none }
  | .got c => .ok { m.outb 0x20 0x20 with stage := .told c }
  | .told c => do
    let driver ← keyboard_handler m.driver c behind
    .ok { m.enable true with driver, stage := .running, handled := m.handled ++ [(c, behind)] }

def State.clear_mask (s : State) : State :=
  { s with pics := irq_clear_mask s.pics (0x21 - 0x20) }

def State.set_entry (prog : Program) (s : State) : State :=
  set_idt_entry s 0x21 (prog.isr_list 0x21) 0

def State.set_handler (prog : Program) (s : State) : State :=
  { s with list_of_handlers := Function.update s.list_of_handlers 0x21 prog.keyboard_handler }

/-- The three parts of `handler_install`. -/
theorem handler_install_parts (prog : Program) (s : State) :
    handler_install prog.toImage s 0x21 prog.keyboard_handler =
      (s.clear_mask.set_entry prog).set_handler prog := rfl

/-- The parts that are done. -/
def Setup.index : Setup → Nat
  | .before => 0
  | .cleared => 1
  | .gated => 2
  | .installed => 3

inductive Event
  /-- A byte comes to the port of the keyboard, and its line rises. -/
  | key (c : UInt8)
  /-- The line of another device rises. -/
  | raise (line : Nat)
  /-- `assert(ps2_keyboard_init())` begins, with what `kmalloc` gives, and clears the mask. -/
  | clear_mask (block : Option (List UInt8))
  | set_entry
  | set_handler
  | take (line : Nat)
  | go (stale behind : UInt8)
  /-- The kernel reads an event to a buffer. -/
  | read (dest : List UInt8)

def Machine.step (prog : Program) (m : Machine) : Event → Result Machine
  | .key c =>
    .ok { m with output := some c, master := m.master.raise 1, typed := m.typed ++ [c] }
  | .raise line =>
    if line < 8 then .ok { m with master := m.master.raise line }
    else .ok { m with slave := m.slave.raise (line - 8) }
  -- the CPU takes interrupts between the parts of `handler_install`
  | .clear_mask block => do
    let (made, driver) := ps2_keyboard_init block
    assert made
    .ok { m with driver, kernel := m.kernel.clear_mask, setup := .cleared }
  | .set_entry => .ok { m with kernel := m.kernel.set_entry prog, setup := .gated }
  | .set_handler => .ok { m with kernel := m.kernel.set_handler prog, setup := .installed }
  | .take line => m.take prog line
  | .go stale behind => m.go stale behind
  | .read dest => do
    let (keyboard_buffer, _, _) ← ringbuffer_read m.driver.keyboard_buffer (some dest) EVENT_SIZE
    .ok { m with driver := { m.driver with keyboard_buffer } }

/-- The keyboard has its handler. -/
def Machine.Installed (m : Machine) : Prop := m.kernel.list_of_handlers 0x21 ≠ 0

/-- The port takes a byte when it is empty, and the CPU an interrupt when it runs the kernel, and
the kernel lets interrupts in. -/
def Machine.allowed (m : Machine) : Event → Prop
  | .key _ => m.output = none
  | .raise line => line < 16 ∧ line ≠ 1 ∧ line ≠ 2
  | .clear_mask block => m.stage = .running ∧ m.setup = .before ∧
    ∃ bytes : List UInt8, block = some bytes ∧ bytes.length = 384
  | .set_entry => m.stage = .running ∧ m.setup = .cleared
  | .set_handler => m.stage = .running ∧ m.setup = .gated
  | .take line => m.stage = .running ∧ m.kernel.enabled = true ∧ m.asks = some line
  | .go _ _ => m.stage ≠ .running
  | .read dest => m.stage = .running ∧ m.Installed ∧ EVENT_SIZE.toNat ≤ dest.length

/-- The table before `idt_init` has no entry. -/
def Blank (s : State) : Prop := ∀ vector, (s.idt vector).flags = 0

/-- Behind `idt_init`. The first word of an initialization drops what the lines asked for, and the
line of a byte that waits rises no more. -/
def starts (prog : Program) (waiting : Option UInt8) (m : Machine) : Prop :=
  (∃ s, Blank s ∧ m.kernel = idt_init prog.toImage s) ∧ m.master = ⟨0, 0⟩ ∧ m.slave = ⟨0, 0⟩ ∧
    m.setup = .before ∧ m.output = waiting ∧ m.stage = .running ∧ m.typed = waiting.toList ∧
    m.handled = []

/-- The machines that events reach. A byte may wait when the controllers are set up. -/
abbrev Reachable (prog : Program) (waiting : Option UInt8) : Machine → Prop :=
  Reach (starts prog waiting) Machine.allowed (Machine.step prog)

/-- The machines that events reach when no byte comes before the keyboard has its handler. -/
abbrev Punctual (prog : Program) : Machine → Prop :=
  Reach (starts prog none) (fun m e => m.allowed e ∧ ∀ c, e = .key c → m.Installed)
    (Machine.step prog)

variable {prog : Program} {s : State} {p : Pics} {m m' : Machine} {r : Requests} {mask : u8}
  {setup : Setup} {i j k line : Nat} {c : UInt8}

/-! ## One controller -/

theorem raise_irr (r : Requests) (hi : i < 8) :
    (r.raise i).irr.getLsbD j = (r.irr.getLsbD j || decide (i = j)) := by
  unfold Requests.raise
  dsimp only
  rw [BitVec.getLsbD_or, BitVec.getLsbD_twoPow, decide_eq_true hi, Bool.true_and]

theorem take_irr (r : Requests) (hi : i < 8) : (r.take i).irr.getLsbD i = false := by
  unfold Requests.take
  dsimp only
  rw [BitVec.getLsbD_and, BitVec.getLsbD_not, BitVec.getLsbD_twoPow]
  simp [hi]

theorem Requests.asks_some (h : r.asks mask = some i) :
    i < 8 ∧ r.irr.getLsbD i = true ∧ mask.getLsbD i = false ∧
      ∀ j ≤ i, r.isr.getLsbD j = false := by
  unfold Requests.asks at h
  split at h
  · cases h
  · rename_i i' hfind
    split_ifs at h with hfree
    obtain rfl := Option.some.inj h
    rw [List.find?_range_eq_some] at hfind
    obtain ⟨hask, hmem, -⟩ := hfind
    rw [Bool.and_eq_true, Bool.not_eq_true'] at hask
    exact ⟨List.mem_range.mp hmem, hask.1, hask.2, hfree⟩

/-- The only line that is not masked asks when nothing is served. -/
theorem Requests.asks_of_open (hi : i < 8) (hirr : r.irr.getLsbD i = true)
    (hopen : ∀ j, j < 8 → (mask.getLsbD j = false ↔ j = i)) (hisr : r.isr = 0) :
    r.asks mask = some i := by
  have hfind : (List.range 8).find? (fun i => r.irr.getLsbD i && !mask.getLsbD i) = some i := by
    rw [List.find?_range_eq_some]
    refine ⟨?_, List.mem_range.mpr hi, fun j hj => ?_⟩
    · rw [hirr, (hopen i hi).mpr rfl]
      rfl
    · have hmasked : mask.getLsbD j = true := by
        rw [← Bool.not_eq_false, hopen j (by omega)]
        omega
      rw [hmasked, Bool.not_true, Bool.and_false]
      rfl
  unfold Requests.asks
  rw [hfind]
  dsimp only
  rw [hisr]
  exact if_pos fun j _ => BitVec.getLsbD_zero

/-! ## What the kernel has set up -/

/-- The tables and the controllers in the parts of `ps2_keyboard_init`. -/
def Setup.kernel (prog : Program) (s : State) : Setup → State
  | .before => idt_init prog.toImage s
  | .cleared => (idt_init prog.toImage s).clear_mask
  | .gated => (idt_init prog.toImage s).clear_mask.set_entry prog
  | .installed => ((idt_init prog.toImage s).clear_mask.set_entry prog).set_handler prog

/-- The tables and the controllers are those that the kernel has set up, and the CPU takes
interrupts while it runs the kernel. -/
def Wired (prog : Program) (s : State) (m : Machine) : Prop :=
  m.kernel = { m.setup.kernel prog s with enabled := decide (m.stage = .running) }

/-- The calls of `handler_install` that the masks are those of. -/
def Setup.calls (prog : Program) (setup : Setup) : Calls :=
  if setup = .before then [] else [(0x21, prog.keyboard_handler)]

/-- The masks change with the first part alone. -/
theorem Setup.kernel_pics (prog : Program) (s : State) (setup : Setup) :
    (setup.kernel prog s).pics = (after prog.toImage s (setup.calls prog)).pics := by
  have hin : (Setup.installed.kernel prog s).pics =
      (after prog.toImage s [(0x21, prog.keyboard_handler)]).pics := rfl
  cases setup with
  | before => rfl
  | cleared => exact hin
  | gated => exact hin
  | installed => exact hin

theorem installed_calls {n : Nat} :
    irq.Installed (setup.calls prog) n ↔ setup ≠ .before ∧ n = 0x21 := by
  unfold irq.Installed Setup.calls
  by_cases hbefore : setup = .before
  · simp [hbefore]
  · rw [if_neg hbefore]
    simp only [List.mem_singleton, exists_eq_left]
    rw [and_iff_right hbefore]
    exact eq_comm

theorem Wired.pics (h : Wired prog s m) :
    m.kernel.pics = (after prog.toImage s (m.setup.calls prog)).pics := by
  rw [h]
  exact Setup.kernel_pics prog s m.setup

theorem Wired.master (h : Wired prog s m) (hk : k < 8) :
    m.kernel.pics.master.mask.getLsbD k = false ↔ m.setup ≠ .before ∧ k = 1 := by
  rw [h.pics, ((after_masks prog.toImage s _).2 k hk).1, installed_calls]
  exact and_congr_right fun _ => by omega

theorem Wired.slave (h : Wired prog s m) (hk : k < 8) :
    m.kernel.pics.slave.mask.getLsbD k = true := by
  rw [h.pics, ← Bool.not_eq_false, ((after_masks prog.toImage s _).2 k hk).2]
  rintro ⟨d, hd, hle, -⟩
  have hin : irq.Installed (m.setup.calls prog) d.1.toNat := ⟨d, hd, rfl⟩
  obtain ⟨-, hnum⟩ := installed_calls.mp hin
  omega

theorem outb_data_offset (h : Ready p) (line v : u8) :
    (outb p (mask_port line) v).master.offset = p.master.offset := by
  unfold mask_port
  split_ifs
  · rw [outb_master h]
  · rw [outb_slave h]

theorem mask_lines_offset (h : Ready p) {n : Nat} (hn : n ≤ 16) :
    (mask_lines p n).master.offset = p.master.offset := by
  induction n with
  | zero => rfl
  | succ n ih =>
    have hready := (mask_lines.spec h n (by omega)).1
    exact (outb_data_offset hready _ _).trans (ih (by omega))

/-- The lines of the master begin at the vector 0x20. -/
theorem after_offset (img : Image) (s : State) (calls : Calls) :
    (after img s calls).pics.master.offset = 0x20 := by
  induction calls using List.reverseRecOn with
  | nil => exact mask_lines_offset (pic_remap_ready s.pics 0x20) (Nat.le_refl _)
  | append_singleton l c ih =>
    have hready := (after_masks img s l).1
    rw [after_concat]
    unfold handler_install set_idt_entry
    dsimp only
    split_ifs
    · exact (outb_data_offset hready _ _).trans ih
    · exact ih

theorem Wired.handler (h : Wired prog s m) :
    m.kernel.list_of_handlers 0x21 =
      if m.setup = .installed then prog.keyboard_handler else 0 := by
  rw [h]
  cases m.setup <;> rfl

theorem Wired.installed (h : Wired prog s m) : m.Installed ↔ m.setup = .installed := by
  unfold Machine.Installed
  rw [h.handler]
  split_ifs with hin
  · exact iff_of_true prog.not_null hin
  · exact iff_of_false (fun hne => hne rfl) hin

/-- All lines of the slave are masked. -/
theorem Wired.slave_asks (h : Wired prog s m) :
    m.slave.asks m.kernel.pics.slave.mask = none := by
  cases hs : m.slave.asks m.kernel.pics.slave.mask with
  | none => rfl
  | some i =>
    obtain ⟨hi, -, hopen, -⟩ := Requests.asks_some hs
    rw [h.slave hi] at hopen
    cases hopen

/-- The only line that is not masked is the one of the keyboard. -/
theorem Wired.asks_some (h : Wired prog s m) (hask : m.asks = some line) :
    line = 1 ∧ m.setup ≠ .before ∧ m.master.irr.getLsbD 1 = true := by
  unfold Machine.asks at hask
  dsimp only at hask
  rw [h.slave_asks] at hask
  split at hask
  · cases hask
  · rename_i i hi
    obtain ⟨hlt, hirr, hopen, -⟩ := Requests.asks_some hi
    obtain ⟨hsetup, rfl⟩ := (h.master hlt).mp hopen
    exact ⟨(Option.some.inj hask).symm, hsetup, hirr⟩

theorem Wired.asks_one (h : Wired prog s m) (hsetup : m.setup ≠ .before)
    (hirr : m.master.irr.getLsbD 1 = true) (hisr : m.master.isr = 0) : m.asks = some 1 := by
  have hmaster := Requests.asks_of_open (show 1 < 8 by decide) hirr
    (fun j hj => (h.master hj).trans (and_iff_right hsetup)) hisr
  unfold Machine.asks
  dsimp only
  rw [h.slave_asks]
  dsimp only [Option.isSome_none]
  rw [if_neg Bool.false_ne_true, hmaster]
  rfl

/-- The entry of the keyboard, from the second part of `handler_install` on. -/
theorem Wired.entry (h : Wired prog s m) (hsetup : m.setup = .gated ∨ m.setup = .installed) :
    ¬ ((m.kernel.idt 0x21).flags.getLsbD 7 = false ∨
      (m.kernel.idt 0x21).address ≠ prog.isr_list 0x21) := by
  obtain ⟨haddress, hflags, -⟩ :=
    after_entry prog.toImage s [] [] 0x21 prog.keyboard_handler (by simp)
  have hidt : m.kernel.idt = (after prog.toImage s [(0x21, prog.keyboard_handler)]).idt := by
    rw [h]
    rcases hsetup with hgated | hin
    · rw [hgated]
      rfl
    · rw [hin]
      rfl
  rw [hidt]
  rintro (hoff | hwild)
  · rw [List.nil_append] at hflags
    rw [hflags] at hoff
    revert hoff
    decide
  · exact hwild haddress

/-- Before that the gate is absent. -/
theorem Wired.absent (h : Wired prog s m) (hblank : Blank s)
    (hsetup : m.setup = .before ∨ m.setup = .cleared) :
    (m.kernel.idt 0x21).flags.getLsbD 7 = false := by
  have hidt : (m.kernel.idt 0x21).flags = (s.idt 0x21).flags := by
    rw [h]
    rcases hsetup with hbefore | hcleared
    · rw [hbefore]
      rfl
    · rw [hcleared]
      rfl
  rw [hidt, hblank]
  rfl

theorem Wired.vector (h : Wired prog s m) :
    m.kernel.pics.master.offset + BitVec.ofNat 8 1 = 0x21 := by
  rw [h.pics, after_offset]
  rfl

/-- The interrupt of the keyboard leads to its handler. -/
theorem Wired.take_one (h : Wired prog s m) (hin : m.setup = .installed) : m.take prog 1 =
    .ok { m.enable false with stage := .entered, master := m.master.take 1 } := by
  have hhandler := h.handler
  rw [if_pos hin] at hhandler
  unfold Machine.take Machine.accept
  rw [if_pos (by decide : 1 < 8)]
  dsimp only
  rw [h.vector, if_neg (h.entry (.inr hin)), hhandler, if_neg prog.not_null, if_pos rfl]
  rfl

/-- With the entry alone there is a note, and the controller is never told. -/
theorem Wired.take_gated (h : Wired prog s m) (hgated : m.setup = .gated) :
    m.take prog 1 = .ok { m with master := m.master.take 1 } := by
  have hhandler := h.handler
  rw [if_neg (by rw [hgated]; decide)] at hhandler
  unfold Machine.take Machine.accept
  rw [if_pos (by decide : 1 < 8)]
  dsimp only
  rw [h.vector, if_neg (h.entry (.inl hgated)), hhandler, if_pos rfl]

/-- With the mask cleared alone the gate is absent. -/
theorem Wired.take_cleared (h : Wired prog s m) (hblank : Blank s)
    (hcleared : m.setup = .cleared) : m.take prog 1 = .error .fault := by
  unfold Machine.take Machine.accept
  rw [if_pos (by decide : 1 < 8)]
  dsimp only
  rw [h.vector, if_pos (.inl (h.absent hblank (.inr hcleared)))]

end salsola.irq
