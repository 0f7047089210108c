-- What every part of the kernel shares: the reasons why a call never
-- returns, `assert`, and copies between two buffers.
import Salsola.Lib.Outcome
import Salsola.Lib.Ring

namespace salsola

/-- Why a call never returns. -/
inductive Halt
  /-- An `assert` fails, and `aFailed` loops. -/
  | assert
  /-- The CPU faults: a division by zero, or an access outside of its object. -/
  | fault
  /-- A loop or a recursion has no end. -/
  | spin
  /-- `ksbrk` does not come back. -/
  | ksbrk
deriving DecidableEq, Repr

abbrev Result (α : Type) := Except Halt α

/-- The `assert` macro of assert.h. -/
def assert (expr : Prop) [Decidable expr] : Result Unit :=
  if expr then .ok () else .error .assert

theorem assert_of {expr : Prop} [Decidable expr] (h : expr) : assert expr = .ok () := if_pos h

theorem assert_fails {expr : Prop} [Decidable expr] (h : ¬ expr) : assert expr = .error .assert :=
  if_neg h

-- a proof says why an assertion holds: it is never found by evaluation of the memory
attribute [irreducible] assert

/-- The `min` macro of math.h, on `u32`. -/
def min32 (a b : UInt32) : UInt32 := if a < b then a else b

@[simp] theorem min32_toNat (a b : UInt32) : (min32 a b).toNat = min a.toNat b.toNat := by
  unfold min32
  split
  · rename_i h
    have : a.toNat < b.toNat := h
    omega
  · rename_i h
    have : ¬ a.toNat < b.toNat := h
    omega

/-- `a % b` on `u32`. A zero divisor faults. -/
def mod32 (a b : UInt32) : Result UInt32 :=
  if b = 0 then .error .fault else .ok (a % b)

/-- `memcpy(dest + off, src, n)` between two buffers. An access past the end of
either buffer faults. -/
def copy_in (dest : List UInt8) (off : Nat) (src : List UInt8) (n : Nat) : Result (List UInt8) :=
  if off + n ≤ dest.length ∧ n ≤ src.length then .ok (ring.overwrite dest off (src.take n))
  else .error .fault

end salsola
