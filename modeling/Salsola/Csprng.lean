-- csprng.c and chacha20.c: the generator draws blocks from ChaCha20, and hashes
-- entropy into a pool, from which it takes new keys.
import Salsola.Sha1

open salsola.sha1

namespace salsola

/-! ## chacha20.c -/

namespace chacha20

def ROTL (a b : UInt32) : UInt32 := (a <<< b) ||| (a >>> (32 - b))

/-- The `QR` macro, on the words `a` to `d` of `x`. -/
def QR (x : List UInt32) (a b c d : Nat) : List UInt32 :=
  let (va, vb, vc, vd) := (x.getD a 0, x.getD b 0, x.getD c 0, x.getD d 0)
  let va := va + vb
  let vd := ROTL (vd ^^^ va) 16
  let vc := vc + vd
  let vb := ROTL (vb ^^^ vc) 12
  let va := va + vb
  let vd := ROTL (vd ^^^ va) 8
  let vc := vc + vd
  let vb := ROTL (vb ^^^ vc) 7
  (((x.set a va).set b vb).set c vc).set d vd

/-- Two of the rounds. -/
def double_round (x : List UInt32) : List UInt32 :=
  let x := QR x 0 4 8 12
  let x := QR x 1 5 9 13
  let x := QR x 2 6 10 14
  let x := QR x 3 7 11 15
  let x := QR x 0 5 10 15
  let x := QR x 1 6 11 12
  let x := QR x 2 7 8 13
  QR x 3 4 9 14

def ROUNDS : Nat := 20

def rounds (x : List UInt32) : Nat → List UInt32
  | 0 => x
  | n + 1 => rounds (double_round x) n

def chacha_block (input : List UInt32) : List UInt32 :=
  let x := rounds input (ROUNDS / 2)
  (List.range 16).map fun i => x.getD i 0 + input.getD i 0

def KEY : Nat := 4

def KEY_SIZE : Nat := 8 * 4

def COUNT : Nat := 12

def COUNT_MAX : UInt32 := 0xFFFFFFFF

def NONCE : Nat := 13

def NONCE_SIZE : Nat := 2 * 4

def BLOCK_SIZE : Nat := 16 * 4

end chacha20

/-! ## csprng.c -/

namespace csprng

open chacha20

/-- What the laws speak about. -/
inductive Event
  /-- `chacha_block` ran with this counter. -/
  | block (count : UInt32)
  /-- The key words of `internal_chacha_block` were written. -/
  | key
  /-- `mix_chacha` took its key and nonce from bytes of these blocks. -/
  | mix (blocks : List Nat)
  /-- `add_hash_pool` ran. -/
  | reseed
deriving DecidableEq, Repr

/-- A random byte, with the number of the block that it comes from. -/
structure Byte where
  val : UInt8
  block : Nat
deriving DecidableEq, Repr

structure State where
  internal_chacha_block : List UInt32
  hash_pool : SHA1_CTX
  hash_pool_size : Nat
  entropy_fast_state : UInt64
  /-- What happened so far, the latest first. Nothing reads it. -/
  log : List Event

/-- The values that the variables start with. -/
def initial : State where
  internal_chacha_block :=
    [0x61707865, 0x3320646e, 0x79622d32, 0x6b206574, 0, 0, 0, 0, 0, 0, 0, 0, 0, 0, 0, 0]
  hash_pool := ⟨⟨0, 0, 0, 0, 0⟩, List.replicate BLOCK_BYTES 0, 0, 0⟩
  hash_pool_size := 0
  entropy_fast_state := 0
  log := []

/-- The number of calls of `chacha_block` so far. -/
def calls : List Event → Nat
  | [] => 0
  | .block _ :: log => calls log + 1
  | _ :: log => calls log

def State.count (s : State) : UInt32 := s.internal_chacha_block.getD COUNT 0

def State.set_count (s : State) (c : UInt32) : State :=
  { s with internal_chacha_block := s.internal_chacha_block.set COUNT c }

/-- `memcpy` of `n` words to the word `i` of `internal_chacha_block`. -/
def State.set_words (s : State) (i n : Nat) (src : List UInt8) : State :=
  { s with internal_chacha_block :=
      ring.overwrite s.internal_chacha_block i ((List.range n).map fun j => load32 src (4 * j)) }

def State.add (s : State) (e : Event) : State := { s with log := e :: s.log }

/-- `chacha_block(rand_data, internal_chacha_block)`. -/
def State.draw (s : State) : List Byte × State :=
  let rand_data := ((chacha_block s.internal_chacha_block).flatMap bytes32).map fun val =>
    { val, block := calls s.log }
  (rand_data, s.add (.block s.count))

/-- The loop of `csprng_get_random`: the bytes that it copies to `buffer`. -/
def get_random_loop (mix_chacha : State → Result State) (s : State) (len : Nat) :
    Result (List Byte × State) :=
  if len = 0 then .ok ([], s)
  else do
    let s ← if s.count = COUNT_MAX - 1 then mix_chacha (s.set_count (s.count + 1)) else .ok s
    let read_len := if BLOCK_SIZE < len then BLOCK_SIZE else len
    let (rand_data, s) := s.draw
    let s := s.set_count (s.count + 1)
    let (rest, s) ← get_random_loop mix_chacha s (len - read_len)
    .ok (rand_data.take read_len ++ rest, s)
termination_by len
decreasing_by
  unfold BLOCK_SIZE
  split <;> omega

def mix_with (get_random : State → Nat → Result (List Byte × State)) (s : State) :
    Result State := do
  let (rand_data, s) ← get_random s BLOCK_SIZE
  let bytes := rand_data.map Byte.val
  let s := s.set_words KEY (KEY_SIZE / 4) bytes
  let s := s.add .key
  let s := s.set_words NONCE (NONCE_SIZE / 4) (bytes.drop KEY_SIZE)
  let s := s.add (.mix (rand_data.map Byte.block))
  .ok (s.set_count 0)

/-- `csprng_get_random` and `mix_chacha` call each other: `depth` calls deep at most. -/
def csprng_get_random : Nat → State → Nat → Result (List Byte × State)
  | 0 => fun _ _ => .error .spin
  | depth + 1 => get_random_loop (mix_with (csprng_get_random depth))

def mix_chacha (depth : Nat) (s : State) : Result State := mix_with (csprng_get_random depth) s

def HASH_LEN : Nat := SHA1_LEN

/-- The loop that mixes the hash into the key. `i % KEY_SIZE` is `i % 8 * sizeof(u32)`, since the
macro has no parentheses. -/
def xor_hash (new_chacha_key hash_buffer : List UInt8) : List UInt8 :=
  (List.range HASH_LEN).foldl (fun key i =>
    key.set (i % 8 * 4) (key.getD (i % 8 * 4) 0 ^^^ hash_buffer.getD i 0)) new_chacha_key

def add_hash_pool (depth : Nat) (s : State) : Result State := do
  let s := s.add .reseed
  let (new_chacha_key, s) ← csprng_get_random depth s KEY_SIZE
  -- `SHA1_Init` overwrites what `SHA1_Final` leaves in the pool
  let (_, hash_buffer) ← SHA1_Final s.hash_pool
  let new_chacha_key := xor_hash (new_chacha_key.map Byte.val) hash_buffer
  let hash_pool ← SHA1_Update SHA1_Init hash_buffer
  let (block, s) ← csprng_get_random depth s BLOCK_SIZE
  let hash_pool ← SHA1_Update hash_pool (block.map Byte.val)
  let s := { s with hash_pool }
  let s := s.set_words KEY (KEY_SIZE / 4) new_chacha_key
  let s := s.add .key
  mix_chacha depth s

/-- The next `entropy_fast_state`. -/
def xorshift64 (x : UInt64) : UInt64 :=
  let x := x ^^^ (x <<< 13)
  let x := x ^^^ (x >>> 7)
  x ^^^ (x <<< 17)

/-- The bytes of a `u64` in the memory of a little-endian machine. -/
def bytes64 (x : UInt64) : List UInt8 :=
  (List.range 8).map fun i => (x >>> UInt64.ofNat (8 * i)).toUInt8

def csprng_add_entropy (depth : Nat) (s : State) (buffer : List UInt8) : Result State := do
  let hash_pool ← SHA1_Update s.hash_pool (bytes64 s.entropy_fast_state)
  let s := { s with hash_pool, entropy_fast_state := xorshift64 s.entropy_fast_state }
  let hash_pool ← SHA1_Update s.hash_pool buffer
  let s := { s with hash_pool, hash_pool_size := (s.hash_pool_size + buffer.length) % 2 ^ 32 }
  if HASH_LEN * 2 ≤ s.hash_pool_size then add_hash_pool depth s else .ok s

/-- The loop of `csprng_add_entropy_fast`, from the byte `i` on. -/
def add_entropy_fast_loop (x : UInt64) (i : Nat) : List UInt8 → UInt64
  | [] => x
  | b :: buffer =>
    let x := x ^^^ (b.toUInt64 <<< UInt64.ofNat (8 * (i % 8)))
    let x := if i % 8 = 0 then xorshift64 x else x
    add_entropy_fast_loop x (i + 1) buffer

def csprng_add_entropy_fast (s : State) (buffer : List UInt8) : State :=
  { s with entropy_fast_state := xorshift64 (add_entropy_fast_loop s.entropy_fast_state 0 buffer) }

def csprng_init (s : State) : State := { s with hash_pool := SHA1_Init }

end csprng

end salsola
