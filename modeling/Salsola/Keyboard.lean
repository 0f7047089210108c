-- The keyboard driver, as ps2_keyboard.c computes it: the interrupt handler
-- turns scan codes into events and queues them in a ring buffer.
import Salsola.Ringbuffer

open salsola.ringbuffer

namespace salsola.keyboard

structure key_event where
  c : UInt8
  /-- Shift is bit 0, alt is bit 1, ctrl is bit 2. -/
  mode : UInt8
  /-- 0 pressed, 1 released. -/
  release : UInt8
deriving DecidableEq, Repr

/-- The bytes of an event in memory. -/
def key_event.bytes (ev : key_event) : List UInt8 := [ev.c, ev.mode, ev.release]

/-- `sizeof(struct key_event)`. -/
def EVENT_SIZE : UInt32 := 3

def ascii (chars : String) : List UInt8 := chars.toList.map fun ch => UInt8.ofNat ch.toNat

def ascii_table : List UInt8 :=
  ascii "e\x1b1234567890-=\x08\tqwertyuiop[]\nCasdfghjkl;'`D\\zxcvbnm,./UUU "

def capital_ascii_table : List UInt8 :=
  ascii "e\x1b!@#$%^&*()_+\x08\tQWERTYUIOP\x7b\x7d\nCASDFGHJKL:\"~D|ZXCVBNM<>?UUU "

/-- The variables of the driver. -/
structure Keyboard where
  is_shift_down : Bool
  is_alt_down : Bool
  is_ctrl_down : Bool
  keyboard_buffer : Ringbuffer

/-- The comparison lets the key behind the last one through, and reads the byte `behind` the
table. -/
def keyboard_to_ascii (behind : UInt8) (key : UInt16) (capital : Bool) : UInt8 :=
  if (key &&& 0xFF).toNat > ascii_table.length then UInt8.ofNat 'U'.toNat
  else if capital then capital_ascii_table.getD (key &&& 0xFF).toNat behind
  else ascii_table.getD (key &&& 0xFF).toNat behind

/-- The handler up to its write: the flags, and the event, unless the key is a modifier. -/
def keyboard_event (kb : Keyboard) (c : UInt16) (behind : UInt8) : Keyboard × Option key_event :=
  let released := c &&& 0x80 ≠ 0
  let key := if released then (c &&& ~~~0x80) &&& 0xFF else c &&& 0xFF
  if key = 0x2A ∨ key = 0x36 then ({ kb with is_shift_down := !released }, none)
  else if key = 0x38 then ({ kb with is_alt_down := !released }, none)
  else if key = 0x1D then ({ kb with is_ctrl_down := !released }, none)
  else
    let a := keyboard_to_ascii behind ((c &&& ~~~0x80) &&& 0xFF) kb.is_shift_down
    let mode := kb.is_shift_down.toUInt8 <<< 0 ||| kb.is_alt_down.toUInt8 <<< 1 |||
      kb.is_ctrl_down.toUInt8 <<< 2
    (kb, some { c := a, mode, release := if released then 1 else 0 })

/-- `scancode` is what `inb` reads from the port. The result of the write is dropped. -/
def keyboard_handler (kb : Keyboard) (scancode behind : UInt8) : Result Keyboard :=
  match keyboard_event kb scancode.toUInt16 behind with
  | (kb, none) => .ok kb
  | (kb, some ev) => do
    let (keyboard_buffer, _) ← ringbuffer_write kb.keyboard_buffer ev.bytes EVENT_SIZE
    .ok { kb with keyboard_buffer }

/-- `block` is what `kmalloc` gives to `ringbuffer_init`. -/
def ps2_keyboard_init (block : Option (List UInt8)) : Bool × Keyboard :=
  let (made, keyboard_buffer) := ringbuffer_init block (EVENT_SIZE * 128)
  (made, { is_shift_down := false, is_alt_down := false, is_ctrl_down := false, keyboard_buffer })

end salsola.keyboard
