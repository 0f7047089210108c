-- kprintf.c: the scanner of the format strings, its conversions, and the
-- writer of ksnprintf. A C string is the list of its bytes up to the NUL.
import Salsola.Lib.Scan
import Mathlib.Algebra.Group.Int.Defs
import Mathlib.Algebra.Group.Nat.Defs

open scanner

namespace salsola.kprintf

abbrev Str := List UInt8

def char (c : Char) : UInt8 := UInt8.ofNat c.toNat

def chars (s : String) : Str := s.toList.map char

/-- `n` as an `int`. -/
def to_int (n : Int) : Int := n.bmod (2 ^ 32)

/-- `n` as a `long long`. -/
def to_long_long (n : Int) : Int := n.bmod (2 ^ 64)

/-! ## Arguments -/

/-- The types that the conversions ask `va_arg` for. -/
inductive CType
  | int
  | unsigned_int
  | u32
  | long_long
  | unsigned_long_long
  | u64
  | char_ptr
deriving DecidableEq

def CType.Value : CType → Type
  | .int | .unsigned_int | .u32 => UInt32
  | .long_long | .unsigned_long_long | .u64 => UInt64
  | .char_ptr => Option Str

/-- What a caller passes: 32 bits, 64 bits, or a string that may be NULL. -/
inductive Arg
  | word (v : UInt32)
  | long (v : UInt64)
  | str (s : Option Str)

/-- An argument, read at a type of its own size. -/
def Arg.as : Arg → (t : CType) → Option t.Value
  | .word v, .int => some v
  | .word v, .unsigned_int => some v
  | .word v, .u32 => some v
  | .long v, .long_long => some v
  | .long v, .unsigned_long_long => some v
  | .long v, .u64 => some v
  | .str s, .char_ptr => some s
  | _, _ => none

/-- What stops a call: a failed `assert`, or a `va_arg` that the arguments do not fit. -/
inductive Trap
  | assert
  | va_arg
deriving DecidableEq

/-- The writer's state, the arguments that are left, and the types read so far. -/
structure Env (σ : Type) where
  ctx : σ
  args : List Arg
  reads : List CType

abbrev Print (σ : Type) := EStateM Trap (Env σ)

variable {σ : Type}

def must (p : Prop) [Decidable p] : Print σ Unit := if p then pure () else throw .assert

def va_arg (t : CType) : Print σ t.Value := fun e =>
  let e := { e with reads := e.reads ++ [t] }
  match e.args with
  | [] => .error .va_arg e
  | arg :: args =>
    match arg.as t with
    | none => .error .va_arg e
    | some v => .ok v { e with args }

/-! ## Writing -/

section

variable (write : σ → UInt8 → σ)

/-- Writes the characters one by one. -/
def put (cs : Str) : Print σ Unit := fun e => .ok () { e with ctx := cs.foldl write e.ctx }

/-- The end of `print_num` and `print_unum`: `str` holds the characters from the last one on. -/
def print_str (str : Str) (width : Int) (zero_padding right_padding : Bool) : Print σ Int := do
  let t := if zero_padding then char '0' else char ' '
  let pad := List.replicate (to_int (width - str.length)).toNat t
  if !right_padding then put write pad
  put write str.reverse
  if right_padding then put write pad
  pure (to_int (pad.length + str.length))

/-- `char_set[n % base]` for each digit, from the last one on. -/
def digits (char_set : Int → UInt8) (base : Int) : Nat → Int → Str
  | 0, _ => []
  | i + 1, n => if n = 0 then [] else char_set (n.tmod base) :: digits char_set base i (n.tdiv base)

def print_unum (n : UInt64) (base : Int) (char_set : Int → UInt8) (width : Int)
    (zero_padding right_padding : Bool) : Print σ Int :=
  let str := if n = 0 then [char_set 0] else digits char_set base 32 n.toNat
  print_str write str width zero_padding right_padding

def print_num (n : Int) (base : Int) (char_set : Int → UInt8) (width : Int)
    (zero_padding right_padding : Bool) : Print σ Int :=
  let is_signed := n < 0
  let n := if is_signed then to_long_long (n * -1) else n
  let str := if n = 0 then [char_set 0] else digits char_set base 32 n
  let str := if is_signed then str ++ [char '-'] else str
  print_str write str width zero_padding right_padding

/-- The characters of `cs` by their index, with what stands around them in memory. -/
def char_set (cs : Str) (around : Int → UInt8) (i : Int) : UInt8 :=
  if 0 ≤ i then cs.getD i.toNat (around i) else around i

variable (around : Int → UInt8)

def print_int (n : Int) (width : Int) (zero_padding right_padding : Bool) : Print σ Int :=
  print_num write n 10 (char_set (chars "0123456789") around) width zero_padding right_padding

def print_uhex (n : UInt64) (width : Int) (zero_padding right_padding : Bool) : Print σ Int :=
  print_unum write n 16 (char_set (chars "0123456789abcdef") around) width zero_padding
    right_padding

def print_octal (n : Int) (width : Int) (zero_padding right_padding : Bool) : Print σ Int :=
  print_num write n 8 (char_set (chars "012345678") around) width zero_padding right_padding

/-- The characters of `s` up to the precision. `bl` counts down to 0 from any `int`. -/
def shown (s : Str) (precision : Int) : Str :=
  if precision = -1 then s else s.take (precision % 2 ^ 32).toNat

/-- Gives what it adds to `rc`. -/
def print_string (s : Str) (width : Int) (right_padding : Bool) (precision : Int) :
    Print σ Int := do
  let pad := List.replicate (to_int (width - to_int s.length)).toNat (char ' ')
  if !right_padding then
    if width ≠ 0 then must (precision = -1)
    put write pad
  put write (shown s precision)
  if right_padding then
    must (precision = -1)
    put write pad
  pure (to_int ((shown s precision).length + pad.length))

end

/-! ## The scanner -/

/-- The loop of `parse_precision` at `s`, `i` characters from the start: the number, and how many
characters lie up to and with the one that the pointer is left at. -/
def parse_loop : Nat → Int → Str → Print σ (Int × Nat)
  | i, rc, [] => pure (rc, i + 1)
  | i, rc, c :: s =>
    if c = char '*' then do
      must (i = 0)
      pure (-1, 1)
    else if ¬ (char '0' ≤ c ∧ c ≤ char '9') then pure (rc, i)
    else parse_loop (i + 1) (to_int (to_int (rc * 10) + (c - char '0').toNat)) s

def parse_precision (s : Str) : Print σ (Int × Nat) := parse_loop 0 0 s

/-- The labels of the switch of `vkcprintf`. -/
inductive Case
  | period
  | zero
  | minus
  | digit
  | l
  | d
  | u
  | s
  | x
  | o
  | percent
  | c
  | default
deriving DecidableEq

def case_of (c : UInt8) : Case :=
  if c = char '.' then .period
  else if c = char '0' then .zero
  else if c = char '-' then .minus
  else if char '1' ≤ c ∧ c ≤ char '9' then .digit
  else if c = char 'l' then .l
  else if c = char 'i' ∨ c = char 'd' then .d
  else if c = char 'u' then .u
  else if c = char 's' then .s
  else if c = char 'p' ∨ c = char 'x' then .x
  else if c = char 'o' then .o
  else if c = char '%' then .percent
  else if c = char 'c' then .c
  else .default

/-- The variables of `vkcprintf`. `width` is `prefix`. -/
structure Vars where
  rc : Int
  width : Int
  long_level : Nat
  zero_padding : Bool
  right_padding : Bool
  cont : Bool
  precision : Int
deriving DecidableEq

def start : Vars where
  rc := 0
  width := 0
  long_level := 0
  zero_padding := false
  right_padding := false
  cont := false
  precision := -1

section

variable (write : σ → UInt8 → σ) (around : Int → UInt8)

/-- A conversion that is done, and has written `n` characters. -/
def Vars.done (v : Vars) (n : Int) : Vars :=
  { v with rc := to_int (v.rc + n), cont := false }

/-- An `int` with a precision is padded with zeros, on the left. -/
def Vars.precise (v : Vars) : Vars :=
  if v.precision ≠ -1 then
    { v with zero_padding := true, width := v.precision, right_padding := false }
  else v

/-- The switch of `vkcprintf` at `c`, in front of `rest`. -/
def directive (v : Vars) (c : UInt8) (rest : Str) : Print σ (Vars × Nat) :=
  match case_of c with
  | .period => do
    must (rest ≠ [])
    let (precision, k) ← parse_precision rest
    must (k ≤ rest.length)
    if precision = -1 then
      let a ← va_arg .int
      pure ({ v with precision := to_int a.toNat, cont := true }, k)
    else pure ({ v with precision, cont := true }, k)
  | .zero =>
    let width := to_int (v.width * 10)
    pure ({ v with width, zero_padding := v.zero_padding || width = 0, cont := true }, 0)
  | .minus => do
    must (v.width = 0)
    pure ({ v with right_padding := true, cont := true }, 0)
  | .digit =>
    let width := to_int (to_int (v.width * 10) + (c - char '0').toNat)
    pure ({ v with width, cont := true }, 0)
  | .l => do
    must (v.long_level + 1 ≤ 2)
    pure ({ v with long_level := v.long_level + 1 }, 0)
  | .d =>
    let v := v.precise
    if v.long_level = 2 ∨ v.long_level = 1 then do
      let a ← va_arg .long_long
      let n ← print_int write around (to_long_long a.toNat) v.width v.zero_padding v.right_padding
      pure ({ v.done n with long_level := 0 }, 0)
    else do
      let a ← va_arg .int
      let n ← print_int write around (to_int a.toNat) v.width v.zero_padding v.right_padding
      pure ({ v.done n with long_level := 0 }, 0)
  | .u => do
    must (v.precision = -1)
    if v.long_level = 2 ∨ v.long_level = 1 then
      let a ← va_arg .unsigned_long_long
      let n ← print_int write around (to_long_long a.toNat) v.width v.zero_padding v.right_padding
      pure (v.done n, 0)
    else
      let a ← va_arg .unsigned_int
      let n ← print_int write around a.toNat v.width v.zero_padding v.right_padding
      pure (v.done n, 0)
  | .s => do
    must (v.zero_padding = false)
    let a ← va_arg .char_ptr
    let n ← print_string write (a.getD (chars "(NULL)")) v.width v.right_padding v.precision
    pure (v.done n, 0)
  | .x => do
    must (v.precision = -1)
    let a ← va_arg .u64
    let n ← print_uhex write around a v.width v.zero_padding v.right_padding
    pure (v.done n, 0)
  | .o => do
    must (v.precision = -1)
    let a ← va_arg .u32
    let n ← print_octal write around a.toNat v.width v.zero_padding v.right_padding
    pure (v.done n, 0)
  | .percent => do
    put write [char '%']
    pure (v.done 1, 0)
  | .c => do
    let a ← va_arg .int
    put write [a.toUInt8]
    pure (v.done 1, 0)
  | .default => throw .assert

/-- After a conversion the flags are as at the start. -/
def Vars.close (v : Vars) : Vars :=
  if v.cont then v
  else { v with width := 0, zero_padding := false, right_padding := false, precision := -1 }

/-- One turn of the loop of `vkcprintf`. -/
def turn (v : Vars) (c : UInt8) (rest : Str) : Print σ (Vars × Nat) :=
  if v.cont = false ∧ c ≠ char '%' then do
    put write [c]
    pure ({ v with rc := to_int (v.rc + 1) }, 0)
  else if v.cont = false then pure ({ v with cont := true }, 0)
  else do
    let (v, k) ← directive write around v c rest
    pure (v.close, k)

/-- The loop of `vkcprintf`. -/
def vkcprintf_loop (fmt : Str) : Print σ Vars := scan (turn write around) start 0 fmt

def vkcprintf (fmt : Str) : Print σ Int := do
  let v ← vkcprintf_loop write around fmt
  pure v.rc

end

/-! ## ksnprintf -/

/-- `struct sn_context`, with the bytes from the start of the buffer on. -/
structure SnContext where
  buffer : Nat → UInt8
  /-- `out`, as the distance from the start of the buffer. -/
  out : Nat
  size : Int
  /-- The start and the length of each range of bytes that was written. -/
  written : List (Nat × Nat)

/-- `memcpy` of `k` bytes to the buffer. Behind the character stand the bytes of `behind`. -/
def SnContext.memcpy (ctx : SnContext) (behind : Nat → UInt8) (c : UInt8) (k : Nat) : SnContext :=
  { ctx with
    buffer := fun i =>
      if ctx.out ≤ i ∧ i < ctx.out + k then
        if i = ctx.out then c else behind (i - ctx.out)
      else ctx.buffer i
    written := (ctx.out, k) :: ctx.written }

/-- `sn_write` of one character. `k` is a `size_t`. -/
def sn_write (behind : Nat → UInt8) (ctx : SnContext) (c : UInt8) : SnContext :=
  let k := (min 1 ctx.size % 2 ^ 64).toNat
  let ctx := ctx.memcpy behind c k
  let ctx := { ctx with out := ctx.out + k, size := to_int (ctx.size - k) }
  { ctx with
    buffer := Function.update ctx.buffer ctx.out 0
    written := (ctx.out, 1) :: ctx.written }

/-- The context that `ksnprintf` makes. -/
def sn_start (buffer : Nat → UInt8) (size : Int) : SnContext where
  buffer
  out := 0
  size
  written := []

/-- `ksnprintf`, from a buffer with the bytes of `buffer`. -/
def ksnprintf (around : Int → UInt8) (behind : Nat → UInt8) (buffer : Nat → UInt8) (size : UInt64)
    (format : Str) (args : List Arg) : EStateM.Result Trap (Env SnContext) Int :=
  vkcprintf (sn_write behind) around format
    { ctx := sn_start buffer (to_int size.toNat), args, reads := [] }

end salsola.kprintf
