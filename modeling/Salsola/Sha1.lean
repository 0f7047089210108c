-- sha1.c: the hash function of the kernel, as it takes a message in pieces.
import Salsola.Machine

namespace salsola

/-! ## Words and bytes -/

/-- The `u32` at `block + off` of a little-endian machine. -/
def load32 (block : List UInt8) (off : Nat) : UInt32 :=
  (block.getD off 0).toUInt32 ||| (block.getD (off + 1) 0).toUInt32 <<< 8 |||
    (block.getD (off + 2) 0).toUInt32 <<< 16 ||| (block.getD (off + 3) 0).toUInt32 <<< 24

/-- The bytes of a `u32` in the memory of a little-endian machine. -/
def bytes32 (x : UInt32) : List UInt8 :=
  [x.toUInt8, (x >>> 8).toUInt8, (x >>> 16).toUInt8, (x >>> 24).toUInt8]

namespace sha1

/-- The array `h` of the context. -/
structure Hash where
  h0 : UInt32
  h1 : UInt32
  h2 : UInt32
  h3 : UInt32
  h4 : UInt32
deriving DecidableEq, Repr

def BLOCK_BYTES : Nat := 64

def SHA1_LEN : Nat := 20

structure SHA1_CTX where
  h : Hash
  block : List UInt8
  active_len : Nat
  len : Nat
deriving DecidableEq, Repr

def SHA1_Init : SHA1_CTX where
  h := ⟨0x67452301, 0xefcdab89, 0x98badcfe, 0x10325476, 0xc3d2e1f0⟩
  block := List.replicate BLOCK_BYTES 0
  active_len := 0
  len := 0

def reverse_32 (value : UInt32) : UInt32 :=
  ((value &&& 0x000000FF) <<< 24) ||| ((value &&& 0x0000FF00) <<< 8) |||
    ((value &&& 0x00FF0000) >>> 8) ||| ((value &&& 0xFF000000) >>> 24)

/-! ## One block -/

def sha1_f (t : Nat) (x y z : UInt32) : UInt32 :=
  if t ≤ 19 then (x &&& y) ^^^ (~~~x &&& z)
  else if t ≤ 39 ∨ 60 ≤ t then x ^^^ y ^^^ z
  else if t ≤ 59 then (x &&& y) ^^^ (x &&& z) ^^^ (y &&& z)
  else 0

def sha1_get_k (t : Nat) : UInt32 :=
  if t ≤ 19 then 0x5a827999
  else if t ≤ 39 then 0x6ed9eba1
  else if t ≤ 59 then 0x8f1bbcdc
  else if t ≤ 79 then 0xca62c1d6
  else 0

def ROTL (value shift : UInt32) : UInt32 :=
  let rotated := value <<< shift
  let did_overflow := value >>> (32 - shift)
  rotated ||| did_overflow

/-- The loop that appends `n` words to `W`. -/
def schedule_loop (W : List UInt32) : Nat → List UInt32
  | 0 => W
  | n + 1 =>
    let t := W.length
    let x := W.getD (t - 3) 0 ^^^ W.getD (t - 8) 0 ^^^ W.getD (t - 14) 0 ^^^ W.getD (t - 16) 0
    schedule_loop (W ++ [ROTL x 1]) n

/-- One turn of the loop over the working variables `a` to `e`. -/
def add_block_round (W : List UInt32) : Hash → Nat → Hash
  | ⟨a, b, c, d, e⟩, t =>
    let T := ROTL a 5 + sha1_f t b c d + e + sha1_get_k t + W.getD t 0
    ⟨T, a, ROTL b 30, c, d⟩

/-- The new hash, and the block, whose words are reversed in place. -/
def add_block (h : Hash) (block : List UInt8) : Hash × List UInt8 :=
  let M := (List.range 16).map fun i => reverse_32 (load32 block (4 * i))
  let W := schedule_loop M 64
  let v := (List.range 80).foldl (add_block_round W) h
  (⟨v.h0 + h.h0, v.h1 + h.h1, v.h2 + h.h2, v.h3 + h.h3, v.h4 + h.h4⟩, M.flatMap bytes32)

/-! ## The last blocks -/

def ARRAY_NUM (loc : Nat) : Nat := loc / 8 + if loc % 8 = 0 then 0 else 1

/-- The contents of `block`, for `M` with `active_l` bits and a message of `l` bits. -/
def pad_sha1_message (M : List UInt8) (l active_l : Nat) : Result (List UInt8) := do
  let block := List.replicate (1024 / 8) 0
  let block ← copy_in block 0 M (active_l / 8)
  let block ← copy_in block (ARRAY_NUM active_l) [(1 : UInt8) <<< 7] 1
  let rest := (active_l + 1) % 512
  let k := if rest < 448 then 448 - rest else 512 - rest + 448
  let block ← copy_in block (ARRAY_NUM active_l + 2) (List.replicate (k / 8) 0) (k / 8)
  let final_32bit_block := active_l / 8 + k / 8 + 1
  let block ← copy_in block final_32bit_block (bytes32 (reverse_32 (UInt32.ofNat (l >>> 32)))) 4
  copy_in block (final_32bit_block + 4)
    (bytes32 (reverse_32 (UInt32.ofNat (l &&& 0xFFFFFFFF)))) 4

/-- The context that is left, and `message_digest`. -/
def SHA1_Final (ctx : SHA1_CTX) : Result (SHA1_CTX × List UInt8) := do
  let block ← pad_sha1_message ctx.block (ctx.len * 8 % 2 ^ 64) (ctx.active_len * 8 % 2 ^ 64)
  let (h, first) := add_block ctx.h (block.take BLOCK_BYTES)
  let block := first ++ block.drop BLOCK_BYTES
  let h :=
    if 448 ≤ (ctx.active_len * 8 + 1) % 512 then (add_block h (block.drop BLOCK_BYTES)).1 else h
  let h : Hash :=
    ⟨reverse_32 h.h0, reverse_32 h.h1, reverse_32 h.h2, reverse_32 h.h3, reverse_32 h.h4⟩
  .ok ({ ctx with h }, bytes32 h.h0 ++ bytes32 h.h1 ++ bytes32 h.h2 ++ bytes32 h.h3 ++ bytes32 h.h4)

/-! ## A piece of the message -/

/-- The loop of `SHA1_Update`, with `fuel` turns at most. -/
def SHA1_Update_loop (ctx : SHA1_CTX) (data : List UInt8) : Nat → Result SHA1_CTX
  | 0 => .error .spin
  | fuel + 1 =>
    let len := data.length
    if len = 0 then .ok ctx
    else do
      let write_len :=
        if (ctx.active_len + len) % 2 ^ 64 > BLOCK_BYTES
        then (BLOCK_BYTES + 2 ^ 64 - ctx.active_len) % 2 ^ 64
        else len
      let block ← copy_in ctx.block ctx.active_len data write_len
      let ctx := { ctx with
        block
        len := (ctx.len + write_len) % 2 ^ 64
        active_len := (ctx.active_len + write_len) % 2 ^ 64 }
      if BLOCK_BYTES ≠ ctx.active_len then .ok ctx
      else
        let (h, _) := add_block ctx.h ctx.block
        -- `add_block` leaves reversed words in the block, and `memset` clears it
        let ctx := { ctx with h, block := List.replicate BLOCK_BYTES 0, active_len := 0 }
        SHA1_Update_loop ctx (data.drop write_len) fuel

/-- Each turn but the first takes a byte at least. -/
def SHA1_Update (ctx : SHA1_CTX) (data : List UInt8) : Result SHA1_CTX :=
  SHA1_Update_loop ctx data (data.length + 2)

end sha1

end salsola
