-- The bitmap of physical frames, as mmu.c computes it.
import Salsola.Machine

namespace salsola.mmu

def PAGE_SIZE : Nat := 0x1000

def NUM_OF_FRAMES : Nat := 256

/-- The array `frames`: its words 0 to 255. -/
abbrev Frames := Nat → BitVec 64

/-- `1 << offset` as the target computes it: `1` is an `int`, the shift takes the count
modulo 32, and the result is sign-extended to 64 bits. -/
def shift_one (offset : Nat) : BitVec 64 := ((1#32) <<< (offset % 32)).signExtend 64

def Frames.set (frames : Frames) (index : Nat) (word : BitVec 64) : Frames :=
  fun i => if i = index then word else frames i

def set_frame (frames : Frames) (address : Nat) (state : Bool) : Bool × Frames :=
  let a := address / 0x1000
  let index := a / 64
  if NUM_OF_FRAMES ≤ index then (false, frames)
  else
    let offset := a % 64
    if state then (true, frames.set index (frames index ||| shift_one offset))
    else (true, frames.set index (frames index &&& ~~~ shift_one offset))

/-- The loops of `get_frame` stop at a run with the address `rc`, or go on with `left`
and `rc`. -/
inductive Search
  | found (rc : Nat)
  | going (left rc : Nat)

/-- The loop over the offsets `j`, with `todo` of the 64 to go. -/
def scan_word (frames : Frames) (count i : Nat) : Nat → Nat → Nat → Search
  | 0, left, rc => .going left rc
  | todo + 1, left, rc =>
    let j := 64 - (todo + 1)
    if frames i &&& shift_one j ≠ 0 then scan_word frames count i todo count rc
    else
      let rc := if left = count then (i * 64 + j) * 0x1000 else rc
      let left := left - 1
      if 0 = left then .found rc else scan_word frames count i todo left rc

/-- The loop over the words `i`, with `todo` of the 256 to go. -/
def scan_words (frames : Frames) (count : Nat) : Nat → Nat → Nat → Option Nat
  | 0, _, _ => none
  | todo + 1, left, rc =>
    let i := NUM_OF_FRAMES - (todo + 1)
    if BitVec.allOnes 64 = frames i then scan_words frames count todo count rc
    else
      match scan_word frames count i 64 left rc with
      | .found rc => some rc
      | .going left rc => scan_words frames count todo left rc

/-- The loop that marks `count` frames from `ptr` on. -/
def mark_frames (frames : Frames) (ptr : Nat) : Nat → Frames
  | 0 => frames
  | count + 1 => mark_frames (set_frame frames ptr true).2 (ptr + PAGE_SIZE) count

def get_frame (frames : Frames) (allocate : Bool) (count : Nat) : Result (Nat × Frames) := do
  assert (0 ≠ count)
  match scan_words frames count NUM_OF_FRAMES count 0 with
  | none => .error .assert
  | some rc => .ok (rc, if allocate then mark_frames frames rc count else frames)

/-- The ranges of frames that `get_frame(true, count)` hands out, call after call. A call
whose assert fires never returns, and hands out nothing. -/
def hand_out (frames : Frames) : List Nat → List (Nat × Nat)
  | [] => []
  | count :: counts =>
    match get_frame frames true count with
    | .ok (rc, frames) => (rc / PAGE_SIZE, count) :: hand_out frames counts
    | .error _ => hand_out frames counts

end salsola.mmu
