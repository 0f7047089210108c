-- The heap, as kmalloc.c computes it: the headers lie in the memory of bytes
-- that they describe. `ksbrk` is a parameter: what it gives is up to the page
-- tables, and it depends on what it gave before.
import Salsola.Machine
import Salsola.StringC
import Salsola.Prng

open memory

namespace salsola.heap

def NEW_ALLOC_SIZE : Nat := 0x40000
def IS_FREE : Nat := 1
def IS_FINAL : Nat := 2
def MAGIC : Nat := 0xdde51ab9410268b1

/-- `sizeof(MallocHeader)`: `magic` at 0, `size` at 8, `flags` at 12 and `n` at 16. -/
def HEADER : Nat := 24

def u32 (n : Nat) : Nat := n % 2 ^ 32
def u64 (n : Nat) : Nat := n % 2 ^ 64

/-- `a - b` on 64 bits. -/
def sub64 (a b : Nat) : Nat := (a + 2 ^ 64 - b % 2 ^ 64) % 2 ^ 64

/-- Turns of a loop and depth of a recursion before they count as endless. -/
def FUEL : Nat := 2 ^ 32

/-- An address and a length. -/
abbrev Region := Nat × Nat

structure Heap where
  mem : Mem
  head : Nat
  final : Nat
  total_heap_size : Nat
  seed : Seed
  /-- What `ksbrk` gave so far, newest first. -/
  regions : List Region

/-! ## The fields of a header -/

def Heap.magic (h : Heap) (a : Nat) : Nat := read h.mem a 8
def Heap.size (h : Heap) (a : Nat) : Nat := read h.mem (a + 8) 4
def Heap.flags (h : Heap) (a : Nat) : Nat := read h.mem (a + 12) 1
def Heap.next (h : Heap) (a : Nat) : Nat := read h.mem (a + 16) 8

def Heap.set_magic (h : Heap) (a v : Nat) : Heap := { h with mem := write h.mem a 8 v }
def Heap.set_size (h : Heap) (a v : Nat) : Heap := { h with mem := write h.mem (a + 8) 4 v }
def Heap.set_flags (h : Heap) (a v : Nat) : Heap := { h with mem := write h.mem (a + 12) 1 v }
def Heap.set_next (h : Heap) (a v : Nat) : Heap := { h with mem := write h.mem (a + 16) 8 v }

/-- `prng_get_pseudorandom(p, len)` -/
def Heap.fill (h : Heap) (p len : Nat) : Heap :=
  let (mem, seed) := prng_get_pseudorandom h.mem h.seed p len
  { h with mem, seed }

def align_up (address alignment : Nat) : Nat :=
  if address % alignment = 0 then address else address - address % alignment + alignment

def delta_page (a : Nat) : Nat := 0x1000 - a % 0x1000

/-! ## Growth -/

/-- What `ksbrk` gives for a length, after the regions it gave so far: `none` when it does
not come back, and `some 0` for NULL. -/
abbrev Sbrk := List Region → Nat → Option Nat

/-- A call of `ksbrk`. It fills a new region with pseudorandom bytes. -/
def call_ksbrk (ksbrk : Sbrk) (h : Heap) (length : Nat) : Result (Nat × Heap) :=
  match ksbrk h.regions length with
  | none => .error .ksbrk
  | some p =>
    if p = 0 then .ok (0, h)
    else
      let h := h.fill p (align_up length 0x1000)
      .ok (p, { h with regions := (p, length) :: h.regions })

def kmalloc_init (ksbrk : Sbrk) (h : Heap) : Result (Bool × Heap) := do
  let (p, h) ← call_ksbrk ksbrk h NEW_ALLOC_SIZE
  if p = 0 then .ok (false, { h with head := 0 })
  else
    let h := { h with
      head := p
      total_heap_size := u32 (h.total_heap_size + (NEW_ALLOC_SIZE - HEADER)) }
    let h := h.set_magic p MAGIC
    let h := h.set_size p (NEW_ALLOC_SIZE - HEADER)
    let h := h.set_flags p (IS_FREE ||| IS_FINAL)
    let h := h.set_next p 0
    .ok (true, { h with final := p })

/-- The length that `add_heap_memory` asks for. -/
def allocation_size (min_desired : Nat) : Nat :=
  let min_desired := u64 (min_desired + HEADER)
  let allocation_size := max min_desired NEW_ALLOC_SIZE
  let allocation_size := u64 (allocation_size + delta_page allocation_size)
  u64 (allocation_size + NEW_ALLOC_SIZE)

/-- The part of `add_heap_memory` behind the growth: the new region at `p` joins the last
block, or gets a header of its own. -/
def add_region (h : Heap) (p allocation_size : Nat) : Result (Bool × Heap) :=
  if h.final = 0 then .error .fault
  else if IS_FREE &&& h.flags h.final ≠ 0 ∧ p = u64 (h.final + HEADER + h.size h.final) then
    .ok (true, h.set_size h.final (u32 (h.size h.final + sub64 allocation_size HEADER)))
  else
    let h := h.set_size p (u32 (sub64 allocation_size HEADER))
    let h := h.set_flags p (IS_FREE ||| IS_FINAL)
    let h := h.set_next p 0
    let h := h.set_magic p MAGIC
    let h := h.set_next h.final p
    .ok (true, { h with final := p })

def add_heap_memory (ksbrk : Sbrk) (h : Heap) (min_desired : Nat) : Result (Bool × Heap) := do
  let allocation_size := allocation_size min_desired
  let (p, h) ← call_ksbrk ksbrk h allocation_size
  if p = 0 then .ok (false, h)
  else
    let h := { h with
      total_heap_size := u32 (h.total_heap_size + sub64 allocation_size HEADER) }
    add_region h p allocation_size

/-! ## The list of headers -/

def next_header (h : Heap) (a : Nat) : Result Nat := do
  assert (h.magic a = MAGIC)
  if h.next a ≠ 0 then do
    assert (h.magic (h.next a) = MAGIC)
    .ok (h.next a)
  else .ok 0

def next_close_header (h : Heap) (a : Nat) : Result Nat := do
  assert (a ≠ 0)
  if h.flags a &&& IS_FINAL ≠ 0 then .ok 0 else next_header h a

def merge_headers (h : Heap) (b : Nat) : Result (Bool × Heap) := do
  if h.flags b &&& IS_FREE = 0 then .ok (false, h)
  else
    let n ← next_close_header h b
    if n = 0 then .ok (false, h)
    else if h.flags n &&& IS_FREE = 0 then .ok (false, h)
    else
      let h := h.set_size b (u32 (h.size b + h.size n))
      let h := h.set_flags b (h.flags b ||| (h.flags n &&& IS_FINAL))
      let h := h.set_next b (h.next n)
      .ok (true, if n = h.final then { h with final := b } else h)

/-- `for (; merge_headers(p););` -/
def merge_all : Nat → Heap → Nat → Result Heap
  | 0, _, _ => .error .spin
  | fuel + 1, h, p => do
    let (merged, h) ← merge_headers h p
    if merged then merge_all fuel h p else .ok h

/-- The loop of `find_free_entry`, from the header `p` on. -/
def find_loop (required_size : Nat) : Nat → Heap → Nat → Result (Nat × Heap)
  | 0, _, _ => .error .spin
  | fuel + 1, h, p =>
    if p = 0 then .ok (0, h)
    else do
      assert (h.magic p = MAGIC)
      if h.flags p &&& IS_FREE = 0 then do
        let p ← next_header h p
        find_loop required_size fuel h p
      else if h.size p < required_size then do
        let h ← merge_all FUEL h p
        if required_size ≤ h.size p then .ok (p, h)
        else do
          let p ← next_header h p
          find_loop required_size fuel h p
      else .ok (p, h)

def find_free_entry (ksbrk : Sbrk) (h : Heap) (s : Nat) : Result (Nat × Heap) := do
  let s := u32 (s + HEADER)
  if h.head = 0 then do
    let (ok, h) ← kmalloc_init ksbrk h
    if ok then find_loop s FUEL h h.head else .ok (0, h)
  else find_loop s FUEL h h.head

/-! ## The calls of the clients -/

/-- The part of `int_kmalloc` after the search: `n` bytes of the free entry go to the
caller, and a new header behind them takes the rest. -/
def split_entry (h : Heap) (free_entry n : Nat) : Result (Nat × Heap) := do
  let rc := u64 (free_entry + HEADER)
  let new_entry := u64 (rc + n)
  let h := h.set_flags new_entry (h.flags free_entry)
  let h := h.set_next new_entry (h.next free_entry)
  let h := h.set_size new_entry (u32 (sub64 (sub64 (h.size free_entry) n) HEADER))
  let h := h.set_magic new_entry MAGIC
  let h := if free_entry = h.final then { h with final := new_entry } else h
  let (_, h) ← merge_headers h new_entry
  let h := h.set_size free_entry (u32 n)
  let h := h.set_flags free_entry 0
  let h := h.set_next free_entry new_entry
  let h := h.set_magic free_entry MAGIC
  .ok (rc, h)

/-- `int_kmalloc`, with the call of `kmalloc` after a growth written out. -/
def int_kmalloc (ksbrk : Sbrk) : Nat → Heap → Nat → Result (Nat × Heap)
  | 0, _, _ => .error .spin
  | fuel + 1, h, s => do
    let (free_entry, h) ← find_free_entry ksbrk h (u32 s)
    if free_entry = 0 then do
      let (ok, h) ← add_heap_memory ksbrk h s
      if ok then do
        let (rc, h) ← int_kmalloc ksbrk fuel h s
        if rc = 0 then .ok (0, h) else .ok (rc, h.fill rc s)
      else .ok (0, h)
    else split_entry h free_entry s

def kmalloc (ksbrk : Sbrk) (h : Heap) (s : Nat) : Result (Nat × Heap) := do
  let (rc, h) ← int_kmalloc ksbrk FUEL h s
  if rc = 0 then .ok (0, h) else .ok (rc, h.fill rc s)

def kfree (h : Heap) (p : Nat) : Result Heap := do
  if p = 0 then .ok h
  else
    let a := sub64 p HEADER
    assert (h.magic a = MAGIC)
    assert (h.flags a &&& IS_FREE = 0)
    let h := h.fill p (h.size a)
    let h := h.set_flags a (h.flags a ||| IS_FREE)
    let (_, h) ← merge_headers h a
    .ok h

def get_mem_size (h : Heap) (ptr : Nat) : Nat :=
  if ptr = 0 then 0 else h.size (sub64 ptr HEADER)

def krealloc (ksbrk : Sbrk) (h : Heap) (ptr size : Nat) : Result (Nat × Heap) := do
  if ptr = 0 then kmalloc ksbrk h size
  else
    let l := get_mem_size h ptr
    if l = size then .ok (ptr, h)
    else if size < l then .ok (ptr, h.set_size (sub64 ptr HEADER) (u32 size))
    else
      let (rc, h) ← kmalloc ksbrk h size
      if rc = 0 then .ok (0, h)
      else
        let to_copy := min l size
        let h := { h with mem := memcpy h.mem rc ptr to_copy }
        let h ← kfree h ptr
        .ok (rc, h)

def MUL_NO_OVERFLOW : Nat := 2 ^ 32
def SIZE_MAX : Nat := 2 ^ 64 - 1

/-- The test of the array allocators that turns a call down. -/
def overflows (nmemb size : Nat) : Bool :=
  (MUL_NO_OVERFLOW ≤ nmemb ∨ MUL_NO_OVERFLOW ≤ size) ∧ 0 < nmemb ∧ SIZE_MAX / nmemb < size

def kreallocarray (ksbrk : Sbrk) (h : Heap) (ptr nmemb size : Nat) : Result (Nat × Heap) :=
  if overflows nmemb size then .ok (0, h) else krealloc ksbrk h ptr (u64 (nmemb * size))

def kallocarray (ksbrk : Sbrk) (h : Heap) (nmemb size : Nat) : Result (Nat × Heap) :=
  kreallocarray ksbrk h 0 nmemb size

def kcalloc (ksbrk : Sbrk) (h : Heap) (nelem elsize : Nat) : Result (Nat × Heap) := do
  if overflows nelem elsize then .ok (0, h)
  else
    let (rc, h) ← int_kmalloc ksbrk FUEL h (u64 (nelem * elsize))
    if rc = 0 then .ok (0, h)
    else .ok (rc, { h with mem := memset h.mem rc 0 (u64 (nelem * elsize)) })

def krecalloc (ksbrk : Sbrk) (h : Heap) (ptr nelem elsize : Nat) : Result (Nat × Heap) := do
  if overflows nelem elsize then .ok (0, h)
  else if ptr = 0 then kcalloc ksbrk h nelem elsize
  else
    let new_size := u64 (nelem * elsize)
    let (rc, h) ← int_kmalloc ksbrk FUEL h new_size
    if rc = 0 then .ok (0, h)
    else
      let l := get_mem_size h ptr
      let to_copy := min l new_size
      let h := { h with mem := memset h.mem rc 0 new_size }
      let h := { h with mem := memcpy h.mem rc ptr to_copy }
      let h ← kfree h ptr
      .ok (rc, h)

end salsola.heap
