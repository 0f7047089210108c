-- The pseudorandom generator, as prng.c and xoshiro256plusplus.c compute it.
import Salsola.Lib.Memory

open memory

namespace salsola

/-- The array `seed`. -/
structure Seed where
  s0 : UInt64
  s1 : UInt64
  s2 : UInt64
  s3 : UInt64
deriving DecidableEq

def rotl (x k : UInt64) : UInt64 := (x <<< k) ||| (x >>> (64 - k))

def xoshiro_256_pp (s : Seed) : UInt64 × Seed :=
  let result := rotl (s.s0 + s.s3) 23 + s.s0
  let t := s.s1 <<< 17
  let s2 := s.s2 ^^^ s.s0
  let s3 := s.s3 ^^^ s.s1
  let s1 := s.s1 ^^^ s2
  let s0 := s.s0 ^^^ s3
  let s2 := s2 ^^^ t
  let s3 := rotl s3 45
  (result, { s0, s1, s2, s3 })

/-- The loop that writes `k` words. -/
def prng_words (m : Mem) (seed : Seed) (buffer : Nat) : Nat → Mem × Seed
  | 0 => (m, seed)
  | k + 1 =>
    let (x, seed) := xoshiro_256_pp seed
    prng_words (write m buffer 8 x.toNat) seed (buffer + 8) k

/-- The loop that writes the last `k` bytes. -/
def prng_bytes (m : Mem) (seed : Seed) (buffer : Nat) : Nat → Mem × Seed
  | 0 => (m, seed)
  | k + 1 =>
    let (x, seed) := xoshiro_256_pp seed
    prng_bytes (write m buffer 1 (x &&& 0xFF).toNat) seed (buffer + 1) k

def prng_get_pseudorandom (m : Mem) (seed : Seed) (buffer len : Nat) : Mem × Seed :=
  let (m, seed) := prng_words m seed buffer (len / 8)
  prng_bytes m seed (buffer + len / 8 * 8) (len % 8)

/-! ## It writes its buffer and nothing else -/

theorem prng_words_outside (m : Mem) (seed : Seed) (buffer k x : Nat)
    (h : x < buffer ∨ buffer + k * 8 ≤ x) : (prng_words m seed buffer k).1 x = m x := by
  induction k generalizing m seed buffer with
  | zero => rfl
  | succ k ih =>
    unfold prng_words
    rw [ih _ _ _ (by omega), write_outside _ _ _ (by omega)]

theorem prng_bytes_outside (m : Mem) (seed : Seed) (buffer k x : Nat)
    (h : x < buffer ∨ buffer + k ≤ x) : (prng_bytes m seed buffer k).1 x = m x := by
  induction k generalizing m seed buffer with
  | zero => rfl
  | succ k ih =>
    unfold prng_bytes
    rw [ih _ _ _ (by omega), write_outside _ _ _ (by omega)]

theorem prng_outside (m : Mem) (seed : Seed) (buffer len x : Nat)
    (h : x < buffer ∨ buffer + len ≤ x) : (prng_get_pseudorandom m seed buffer len).1 x = m x := by
  unfold prng_get_pseudorandom
  simp only
  rw [prng_bytes_outside _ _ _ _ _ (by omega), prng_words_outside _ _ _ _ _ (by omega)]

end salsola
