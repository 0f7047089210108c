-- SHA-1 as FIPS 180-4 states it, for messages of whole bytes: the padding
-- (5.1.1), the parsing (5.2.1) and the hash computation (6.1.2).
import Salsola.Lib.Streaming
import Mathlib.Algebra.Group.Nat.Defs

open streaming

namespace fips

/-! ## The functions and constants of section 4 -/

def Ch (x y z : UInt32) : UInt32 := (x &&& y) ^^^ (~~~x &&& z)

def Parity (x y z : UInt32) : UInt32 := x ^^^ y ^^^ z

def Maj (x y z : UInt32) : UInt32 := (x &&& y) ^^^ (x &&& z) ^^^ (y &&& z)

def f (t : Nat) : UInt32 → UInt32 → UInt32 → UInt32 :=
  if t < 20 then Ch else if t < 40 then Parity else if t < 60 then Maj else Parity

def K (t : Nat) : UInt32 :=
  if t < 20 then 0x5a827999 else if t < 40 then 0x6ed9eba1
  else if t < 60 then 0x8f1bbcdc else 0xca62c1d6

def rotl (n x : UInt32) : UInt32 := (x <<< n) ||| (x >>> (32 - n))

/-! ## Padding -/

/-- The zero bytes behind the byte `0x80`: with them, and with the eight bytes of the length, the
message ends at the end of a block. -/
def zeros (n : Nat) : Nat := (119 - n % 64) % 64

theorem zeros_fill (n : Nat) : (n + 1 + zeros n + 8) % 64 = 0 := by
  unfold zeros
  omega

/-- No fewer zeros do. -/
theorem zeros_least (n k : Nat) (h : (n + 1 + k + 8) % 64 = 0) : zeros n ≤ k := by
  unfold zeros
  omega

/-- A number as eight bytes, highest first. -/
def bytes64 (n : Nat) : List UInt8 := (List.range 8).map fun i => UInt8.ofNat (n / 256 ^ (7 - i))

/-- What stands behind a message of `n` bytes. -/
def tail (n : Nat) : List UInt8 := 0x80 :: List.replicate (zeros n) 0 ++ bytes64 (8 * n)

def pad (m : List UInt8) : List UInt8 := m ++ tail m.length

/-! ## Hash computation -/

structure Hash where
  a : UInt32
  b : UInt32
  c : UInt32
  d : UInt32
  e : UInt32

def H0 : Hash := ⟨0x67452301, 0xefcdab89, 0x98badcfe, 0x10325476, 0xc3d2e1f0⟩

/-- The word `t` of a block, highest byte first. -/
def word (block : List UInt8) (t : Nat) : UInt32 :=
  (block.getD (4 * t) 0).toUInt32 <<< 24 ||| (block.getD (4 * t + 1) 0).toUInt32 <<< 16 |||
    (block.getD (4 * t + 2) 0).toUInt32 <<< 8 ||| (block.getD (4 * t + 3) 0).toUInt32

/-- The message schedule. -/
def W (block : List UInt8) (t : Nat) : UInt32 :=
  if t < 16 then word block t
  else rotl 1 (W block (t - 3) ^^^ W block (t - 8) ^^^ W block (t - 14) ^^^ W block (t - 16))
termination_by t

def round (block : List UInt8) : Hash → Nat → Hash
  | ⟨a, b, c, d, e⟩, t => ⟨rotl 5 a + f t b c d + e + K t + W block t, a, rotl 30 b, c, d⟩

def compress (h : Hash) (block : List UInt8) : Hash :=
  let v := (List.range 80).foldl (round block) h
  ⟨v.a + h.a, v.b + h.b, v.c + h.c, v.d + h.d, v.e + h.e⟩

/-- A word as four bytes, highest first. -/
def bytes (x : UInt32) : List UInt8 :=
  [(x >>> 24).toUInt8, (x >>> 16).toUInt8, (x >>> 8).toUInt8, x.toUInt8]

def Hash.digest (h : Hash) : List UInt8 :=
  bytes h.a ++ bytes h.b ++ bytes h.c ++ bytes h.d ++ bytes h.e

/-- The SHA-1 digest of a message. -/
def SHA1 (m : List UInt8) : List UInt8 := (absorb 64 compress H0 (pad m)).digest

/-! ## The blocks of a padded message -/

theorem digest_length (h : Hash) : h.digest.length = 20 := rfl

theorem bytes64_length (n : Nat) : (bytes64 n).length = 8 := by
  simp [bytes64]

theorem tail_length (n : Nat) : (tail n).length = 1 + zeros n + 8 := by
  simp only [tail, List.length_append, List.length_cons, List.length_replicate, bytes64_length]
  omega

/-- A padded message, from its full blocks and from what stands behind them. -/
theorem absorb_pad (h : Hash) (m : List UInt8) : absorb 64 compress h (pad m) =
    absorb 64 compress (absorb 64 compress h m) (rest 64 m ++ tail m.length) := by
  unfold pad
  rw [absorb_append (by decide)]

theorem last_length (m : List UInt8) : (rest 64 m ++ tail m.length).length =
    if m.length % 64 < 56 then 64 else 128 := by
  rw [List.length_append, rest_length, tail_length]
  unfold zeros
  split <;> omega

theorem absorb_one {h : Hash} {xs : List UInt8} (hlen : xs.length = 64) :
    absorb 64 compress h xs = compress h xs := absorb_block (by decide) hlen

theorem absorb_two {h : Hash} {xs : List UInt8} (hlen : xs.length = 128) :
    absorb 64 compress h xs = compress (compress h (xs.take 64)) (xs.drop 64) := by
  have hsplit : xs = xs.take 64 ++ xs.drop 64 := (List.take_append_drop 64 xs).symm
  have htake : (xs.take 64).length = 64 := by simp [hlen]
  have hdrop : (xs.drop 64).length = 64 := by simp [hlen]
  conv_lhs => rw [hsplit]
  rw [absorb_append (by decide), rest_block (by decide) htake, List.nil_append,
    absorb_one htake, absorb_one hdrop]

end fips
