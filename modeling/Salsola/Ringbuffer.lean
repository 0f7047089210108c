-- The ring buffer, as ringbuffer.c computes it.
import Salsola.Machine

namespace salsola.ringbuffer

structure Ringbuffer where
  /-- The block that `buffer` points at. -/
  buffer : List UInt8
  buffer_size : UInt32
  read_ptr : UInt32
  write_ptr : UInt32
deriving DecidableEq

/-- `block` is what `kmalloc(buffer_size)` gives, `none` for NULL. -/
def ringbuffer_init (block : Option (List UInt8)) (buffer_size : UInt32) : Bool × Ringbuffer :=
  match block with
  | none => (false, { buffer := [], buffer_size := 0, read_ptr := 0, write_ptr := 0 })
  | some buffer => (true, { buffer, buffer_size, read_ptr := 0, write_ptr := 0 })

def ringbuffer_used (rb : Ringbuffer) : UInt32 :=
  if rb.write_ptr < rb.read_ptr then
    let c := rb.buffer_size - rb.read_ptr
    c + rb.write_ptr
  else rb.write_ptr - rb.read_ptr

def ringbuffer_capacity (rb : Ringbuffer) : UInt32 := rb.buffer_size - 1

def ringbuffer_unused (rb : Ringbuffer) : UInt32 := ringbuffer_capacity rb - ringbuffer_used rb

/-- `buffer_left` of one turn of the loop of `ringbuffer_write`. -/
def buffer_left (rb : Ringbuffer) : UInt32 :=
  if rb.read_ptr ≤ rb.write_ptr then
    let left := rb.buffer_size - rb.write_ptr
    if 0 = rb.read_ptr ∧ 0 < left then left - 1 else left
  else rb.read_ptr - rb.write_ptr - 1

def ringbuffer_write_loop : Nat → Ringbuffer → List UInt8 → UInt32 → Result (Ringbuffer × UInt32)
  | 0, _, _, _ => .error .spin
  | fuel + 1, rb, buffer, len =>
    if 0 < len then
      if 0 = buffer_left rb then .ok (rb, len)
      else do
        let write_len := min32 (min32 len (buffer_left rb)) (rb.buffer_size - rb.write_ptr)
        let cells ← copy_in rb.buffer rb.write_ptr.toNat buffer write_len.toNat
        let write_ptr ← mod32 (rb.write_ptr + write_len) rb.buffer_size
        ringbuffer_write_loop fuel { rb with buffer := cells, write_ptr }
          (buffer.drop write_len.toNat) (len - write_len)
    else .ok (rb, len)

/-- `buffer` holds the bytes of the caller from the pointer on. Each turn of the loop
writes a byte at least, so a loop that ends does so within `len + 1` turns. -/
def ringbuffer_write (rb : Ringbuffer) (buffer : List UInt8) (len : UInt32) :
    Result (Ringbuffer × UInt32) := do
  let (rb, left) ← ringbuffer_write_loop (len.toNat + 1) rb buffer len
  .ok (rb, len - left)

/-- `read_len` of one turn of the loop of `ringbuffer_read`, before the cut to `len`. -/
def read_left (rb : Ringbuffer) : UInt32 :=
  if rb.write_ptr ≤ rb.read_ptr then rb.buffer_size - rb.read_ptr else rb.write_ptr - rb.read_ptr

/-- `if (buffer) memcpy(buffer, src, n)`, with `buffer` moved on by `pos`. `none` is NULL. -/
def deliver (buffer : Option (List UInt8)) (pos : Nat) (src : List UInt8) (n : Nat) :
    Result (Option (List UInt8)) :=
  match buffer with
  | none => .ok none
  | some dest => do
    let dest ← copy_in dest pos src n
    .ok (some dest)

/-- `pos` is how far the pointer `buffer` has moved. -/
def ringbuffer_read_loop : Nat → Ringbuffer → Option (List UInt8) → Nat → UInt32 →
    Result (Ringbuffer × Option (List UInt8) × UInt32)
  | 0, _, _, _, _ => .error .spin
  | fuel + 1, rb, buffer, pos, len =>
    if 0 < len then
      if rb.read_ptr = rb.write_ptr then .ok (rb, buffer, len)
      else do
        let read_len := min32 len (read_left rb)
        let buffer ← deliver buffer pos (rb.buffer.drop rb.read_ptr.toNat) read_len.toNat
        let read_ptr ← mod32 (rb.read_ptr + read_len) rb.buffer_size
        ringbuffer_read_loop fuel { rb with read_ptr } buffer (pos + read_len.toNat)
          (len - read_len)
    else .ok (rb, buffer, len)

/-- `buffer` is the buffer of the caller, and `none` is NULL. -/
def ringbuffer_read (rb : Ringbuffer) (buffer : Option (List UInt8)) (len : UInt32) :
    Result (Ringbuffer × Option (List UInt8) × UInt32) := do
  let (rb, buffer, left) ← ringbuffer_read_loop (len.toNat + 1) rb buffer 0 len
  .ok (rb, buffer, len - left)

def ringbuffer_isempty (rb : Ringbuffer) : Bool := rb.write_ptr = rb.read_ptr

/-! ## Calls one after the other -/

inductive Call
  | write (buffer : List UInt8) (len : UInt32)
  | read (buffer : Option (List UInt8)) (len : UInt32)

/-- The buffer of the caller has room for `len` bytes. -/
def Call.InBounds : Call → Prop
  | .write buffer len => len.toNat ≤ buffer.length
  | .read buffer len => ∀ dest, buffer = some dest → len.toNat ≤ dest.length

/-- What a call gives back: its count, and the buffer that a read filled. -/
structure Answer where
  count : UInt32
  buffer : Option (List UInt8)
deriving DecidableEq

def call (rb : Ringbuffer) : Call → Result (Ringbuffer × Answer)
  | .write buffer len => do
    let (rb, count) ← ringbuffer_write rb buffer len
    .ok (rb, { count, buffer := none })
  | .read buffer len => do
    let (rb, buffer, count) ← ringbuffer_read rb buffer len
    .ok (rb, { count, buffer })

def calls (rb : Ringbuffer) : List Call → Result (Ringbuffer × List Answer)
  | [] => .ok (rb, [])
  | c :: cs => do
    let (rb, answer) ← call rb c
    let (rb, answers) ← calls rb cs
    .ok (rb, answer :: answers)

end salsola.ringbuffer
