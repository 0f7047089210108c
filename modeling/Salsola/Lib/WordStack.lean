-- A stack of 64-bit words that grows down, in a memory whose addresses wrap around.
-- What stands on it is a row of words from the stack pointer on.
import Mathlib.Algebra.Group.Nat.Defs
import Mathlib.Logic.Function.Basic
import Mathlib.Data.List.Basic

namespace wordstack

/-- The 8 bytes from each address on. A stack uses addresses that are 8 bytes apart. -/
abbrev Words := UInt64 → UInt64

/-- The address of the `i`th word from `a` on. -/
def slot (a : UInt64) (i : Nat) : UInt64 := a + 8 * UInt64.ofNat i

/-- The words `vs` stand in a row from `a` on. -/
def Row (mem : Words) (a : UInt64) (vs : List UInt64) : Prop :=
  ∀ i (h : i < vs.length), mem (slot a i) = vs[i]

variable {mem mem' : Words} {a v : UInt64} {vs : List UInt64}

theorem slot_zero (a : UInt64) : slot a 0 = a := by
  unfold slot
  simp

theorem slot_sub_succ (a : UInt64) (i : Nat) : slot (a - 8) (i + 1) = slot a i := by
  unfold slot
  rw [UInt64.ofNat_add]
  grind

theorem slot_add (a : UInt64) (i : Nat) : slot (a + 8) i = slot a (i + 1) := by
  unfold slot
  rw [UInt64.ofNat_add]
  grind

/-- A slot of a stack is not the one below its top. -/
theorem slot_ne (a : UInt64) {i : Nat} (hi : i + 1 < 2 ^ 61) : slot a i ≠ a - 8 := by
  intro heq
  have hzero : 8 * UInt64.ofNat (i + 1) = 0 := by
    rw [← slot_sub_succ, slot] at heq
    grind
  have hnat := congrArg UInt64.toNat hzero
  rw [UInt64.toNat_mul, UInt64.toNat_ofNat'] at hnat
  simp only [UInt64.reduceToNat] at hnat
  omega

theorem row_nil (mem : Words) (a : UInt64) : Row mem a [] := fun _ h => absurd h (Nat.not_lt_zero _)

/-- A push puts a word in front of the row. -/
theorem Row.push (h : Row mem a vs) (hlen : vs.length < 2 ^ 61) (v : UInt64) :
    Row (Function.update mem (a - 8) v) (a - 8) (v :: vs) := by
  intro i hi
  cases i with
  | zero =>
    rw [slot_zero, Function.update_self]
    rfl
  | succ i =>
    rw [List.length_cons] at hi
    rw [slot_sub_succ, Function.update_of_ne (slot_ne a (by omega))]
    exact h i (by omega)

theorem Row.head (h : Row mem a (v :: vs)) : mem a = v := by
  have hzero := h 0 (by simp)
  rw [slot_zero] at hzero
  exact hzero

/-- A pop takes the first word off the row. -/
theorem Row.tail (h : Row mem a (v :: vs)) : Row mem (a + 8) vs := by
  intro i hi
  rw [slot_add]
  exact h (i + 1) (by rw [List.length_cons]; omega)

/-- A row stays when its words stay. -/
theorem Row.congr (h : Row mem a vs)
    (hkeep : ∀ i, i < vs.length → mem' (slot a i) = mem (slot a i)) : Row mem' a vs := by
  intro i hi
  rw [hkeep i hi]
  exact h i hi

end wordstack
