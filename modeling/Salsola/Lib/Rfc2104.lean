-- HMAC as RFC 2104 states it, over any hash function `H` with blocks of `B` bytes.
import Mathlib.Data.List.Basic

namespace rfc2104

variable {H : List UInt8 → List UInt8} {B : Nat} {key : List UInt8}

def ipad : UInt8 := 0x36

def opad : UInt8 := 0x5c

/-- A key that is longer than a block is hashed first. -/
def short_key (H : List UInt8 → List UInt8) (B : Nat) (key : List UInt8) : List UInt8 :=
  if B < key.length then H key else key

/-- The key with zeros behind it, up to the size of a block. -/
def block_key (B : Nat) (key : List UInt8) : List UInt8 :=
  key ++ List.replicate (B - key.length) 0

/-- The key of one block, with each byte xored with `pad`. -/
def padded (H : List UInt8 → List UInt8) (B : Nat) (key : List UInt8) (pad : UInt8) : List UInt8 :=
  (block_key B (short_key H B key)).map (· ^^^ pad)

/-- H(K XOR opad, H(K XOR ipad, text)) -/
def HMAC (H : List UInt8 → List UInt8) (B : Nat) (key text : List UInt8) : List UInt8 :=
  H (padded H B key opad ++ H (padded H B key ipad ++ text))

/-- A block that is filled with `pad`, once the key was xored into it. -/
theorem block_key_xor (pad : UInt8) :
    (block_key B key).map (· ^^^ pad) =
      key.map (pad ^^^ ·) ++ List.replicate (B - key.length) pad := by
  simp [block_key, UInt8.xor_comm]

theorem padded_length (hH : ∀ m, (H m).length ≤ B) (key : List UInt8) (pad : UInt8) :
    (padded H B key pad).length = B := by
  have hshort : (short_key H B key).length ≤ B := by
    unfold short_key
    split
    · exact hH key
    · omega
  unfold padded block_key
  rw [List.length_map, List.length_append, List.length_replicate]
  omega

end rfc2104
