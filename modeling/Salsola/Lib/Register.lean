-- Hardware registers of which only some bits take a write, and how the size
-- of a naturally aligned window is found: write ones, read back, invert.
import Mathlib.Algebra.Group.Nat.Defs
import Mathlib.Algebra.Order.Group.Nat
import Mathlib.Data.Nat.Bitwise

namespace words

variable {w k m n : Nat}

/-! ## Masks -/

/-- The word whose lowest `k` bits are set. -/
def low_ones (w k : Nat) : BitVec w := BitVec.ofNat w (2 ^ k - 1)

@[simp]
theorem getLsbD_low_ones (i : Nat) :
    (low_ones w k).getLsbD i = (decide (i < w) && decide (i < k)) := by
  unfold low_ones
  rw [BitVec.getLsbD_ofNat, Nat.testBit_two_pow_sub_one]

theorem low_ones_succ : low_ones w k + 1 = BitVec.ofNat w (2 ^ k) := by
  have hpow : 2 ^ k - 1 + 1 = 2 ^ k := Nat.sub_add_cancel Nat.one_le_two_pow
  unfold low_ones
  rw [show (1 : BitVec w) = BitVec.ofNat w 1 from rfl, ← BitVec.ofNat_add, hpow]

/-- A multiple of `2 ^ k` has none of the lowest `k` bits. -/
theorem low_bits_of_dvd {x : BitVec w} (h : 2 ^ k ∣ x.toNat) {i : Nat} (hi : i < k) :
    x.getLsbD i = false := by
  obtain ⟨c, hc⟩ := h
  rw [← BitVec.testBit_toNat, hc, Nat.testBit_two_pow_mul]
  simp [Nat.not_le.mpr hi]

/-- A word below `2 ^ m` has none of the bits from `m` on. -/
theorem high_bits_of_lt {x : BitVec w} (h : x.toNat < 2 ^ m) {i : Nat} (hi : m ≤ i) :
    x.getLsbD i = false := by
  rw [← BitVec.testBit_toNat]
  exact Nat.testBit_lt_two_pow (Nat.lt_of_lt_of_le h (Nat.pow_le_pow_right Nat.two_pos hi))

/-! ## Registers -/

structure Register (w : Nat) where
  value : BitVec w
  /-- The bits that take a write. The others are read-only. -/
  writable : BitVec w
deriving DecidableEq

def Register.write (r : Register w) (v : BitVec w) : Register w :=
  { r with value := (r.value &&& ~~~r.writable) ||| (v &&& r.writable) }

variable {r : Register w}

/-- A write can be undone by a write of the old value. -/
theorem Register.write_back (r : Register w) (v : BitVec w) :
    (r.write v).write r.value = r := by
  obtain ⟨value, writable⟩ := r
  have hvalue : ((value &&& ~~~writable ||| v &&& writable) &&& ~~~writable) |||
      (value &&& writable) = value := by
    apply BitVec.eq_of_getLsbD_eq
    intro i hi
    simp only [BitVec.getLsbD_or, BitVec.getLsbD_and, BitVec.getLsbD_not, hi, decide_true,
      Bool.true_and]
    cases value.getLsbD i <;> cases writable.getLsbD i <;> simp
  unfold Register.write
  dsimp only
  rw [hvalue]

/-- A window of `2 ^ k` addresses: the bits below its size are read-only, and those of them from
`m` on are zero. -/
structure Register.Window (r : Register w) (m k : Nat) : Prop where
  writable : r.writable = ~~~low_ones w k
  zero : ∀ i, m ≤ i → i < k → r.value.getLsbD i = false

/-- What comes back of ones, without the `m` lowest bits, names the size, unless the size is
below `2 ^ m`. -/
theorem Register.Window.sizing (h : r.Window m k) :
    ~~~((r.write (BitVec.allOnes w)).value &&& ~~~low_ones w m) + 1 =
      BitVec.ofNat w (2 ^ max k m) := by
  have hones : ~~~((r.write (BitVec.allOnes w)).value &&& ~~~low_ones w m) =
      low_ones w (max k m) := by
    apply BitVec.eq_of_getLsbD_eq
    intro i hi
    unfold Register.write
    rw [h.writable]
    simp only [BitVec.getLsbD_not, BitVec.getLsbD_and, BitVec.getLsbD_or, BitVec.getLsbD_allOnes,
      getLsbD_low_ones, hi, decide_true, Bool.true_and]
    by_cases hk : i < k
    · by_cases hm : i < m
      · simp [hk, hm]
      · simp [hk, hm, h.zero i (Nat.le_of_not_lt hm) hk]
    · by_cases hm : i < m <;> simp [hk, hm]
  rw [hones, low_ones_succ]

/-- The mask takes the read-only bits off the base. -/
theorem base_of_masked {base low : BitVec w} (hbase : 2 ^ m ∣ base.toNat)
    (hlow : low.toNat < 2 ^ m) : (base ||| low) &&& ~~~low_ones w m = base := by
  apply BitVec.eq_of_getLsbD_eq
  intro i hi
  simp only [BitVec.getLsbD_and, BitVec.getLsbD_or, BitVec.getLsbD_not, getLsbD_low_ones, hi,
    decide_true, Bool.true_and]
  by_cases hm : i < m
  · simp [hm, low_bits_of_dvd hbase hm]
  · simp [hm, high_bits_of_lt hlow (Nat.le_of_not_lt hm)]

end words
