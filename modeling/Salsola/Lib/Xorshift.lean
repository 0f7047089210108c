-- Words under shifts and exclusive or: a step `x ^^^ (x <<< k)` or
-- `x ^^^ (x >>> k)` loses nothing, a step that loses nothing comes back, and
-- bytes that are shifted to different places can be told apart again.
import Mathlib.Data.Nat.Notation
import Mathlib.Data.Fintype.EquivFin
import Mathlib.Dynamics.PeriodicPts.Lemmas

namespace words

variable {w k : Nat}

/-! ## Shifts -/

def step_left (k : Nat) (x : BitVec w) : BitVec w := x ^^^ (x <<< k)

def step_right (k : Nat) (x : BitVec w) : BitVec w := x ^^^ (x >>> k)

theorem step_left_xor (k : Nat) (x y : BitVec w) :
    step_left k (x ^^^ y) = step_left k x ^^^ step_left k y := by
  unfold step_left
  rw [BitVec.shiftLeft_xor_distrib]
  ac_rfl

theorem step_right_xor (k : Nat) (x y : BitVec w) :
    step_right k (x ^^^ y) = step_right k x ^^^ step_right k y := by
  unfold step_right
  rw [BitVec.ushiftRight_xor_distrib]
  ac_rfl

/-- Bit `i` of the step depends on bit `i` and on a lower bit. -/
theorem step_left_injective (hk : 0 < k) :
    Function.Injective (step_left k : BitVec w → BitVec w) := by
  intro x y hxy
  unfold step_left at hxy
  have hbit : ∀ i, x.getLsbD i = y.getLsbD i := by
    intro i
    induction i using Nat.strong_induction_on with
    | _ i ih =>
      have hi := congrArg (fun z => BitVec.getLsbD z i) hxy
      simp only [BitVec.getLsbD_xor, BitVec.getLsbD_shiftLeft] at hi
      by_cases hlow : i < k
      · simpa [hlow] using hi
      · rw [ih (i - k) (by omega)] at hi
        exact Bool.xor_left_inj.mp hi
  exact BitVec.eq_of_getLsbD_eq fun i _ => hbit i

/-- Bit `i` of the step depends on bit `i` and on a higher bit. -/
theorem step_right_injective (hk : 0 < k) :
    Function.Injective (step_right k : BitVec w → BitVec w) := by
  intro x y hxy
  unfold step_right at hxy
  have hbit : ∀ n i, w - i ≤ n → x.getLsbD i = y.getLsbD i := by
    intro n
    induction n with
    | zero =>
      intro i hi
      rw [BitVec.getLsbD_of_ge x i (by omega), BitVec.getLsbD_of_ge y i (by omega)]
    | succ n ih =>
      intro i hi
      by_cases hout : w ≤ i
      · rw [BitVec.getLsbD_of_ge x i hout, BitVec.getLsbD_of_ge y i hout]
      · have hi' := congrArg (fun z => BitVec.getLsbD z i) hxy
        simp only [BitVec.getLsbD_xor, BitVec.getLsbD_ushiftRight] at hi'
        rw [ih (k + i) (by omega)] at hi'
        exact Bool.xor_left_inj.mp hi'
  exact BitVec.eq_of_getLsbD_eq fun i _ => hbit w i (Nat.sub_le w i)

/-- A rotation moves each bit to a place of its own. -/
theorem rotate_injective (hk : k ≤ w) :
    Function.Injective fun x : BitVec w => (x <<< k) ||| (x >>> (w - k)) := by
  intro x y hxy
  apply BitVec.eq_of_getLsbD_eq
  intro j hj
  by_cases hlow : j < w - k
  · have hbit := congrArg (fun z => BitVec.getLsbD z (j + k)) hxy
    simp only [BitVec.getLsbD_or, BitVec.getLsbD_shiftLeft, BitVec.getLsbD_ushiftRight] at hbit
    rw [BitVec.getLsbD_of_ge x (w - k + (j + k)) (by omega),
      BitVec.getLsbD_of_ge y (w - k + (j + k)) (by omega)] at hbit
    simpa [show j + k < w by omega] using hbit
  · have hbit := congrArg (fun z => BitVec.getLsbD z (j - (w - k))) hxy
    simp only [BitVec.getLsbD_or, BitVec.getLsbD_shiftLeft, BitVec.getLsbD_ushiftRight] at hbit
    rw [show w - k + (j - (w - k)) = j by omega] at hbit
    simpa [show j - (w - k) < k by omega] using hbit

/-! ## Steps of a finite machine -/

/-- When a step loses nothing, a state comes back after any number of steps. -/
theorem iterate_returns {α : Type} [Finite α] {f : α → α} (hf : Function.Injective f) (n : Nat)
    (x : α) : ∃ j, f^[j] (f^[n] x) = x := by
  obtain ⟨p, hp, hperiod⟩ := Function.mem_periodicPts.mp (hf.mem_periodicPts x)
  refine ⟨p * n - n, ?_⟩
  rw [← Function.iterate_add_apply, Nat.sub_add_cancel (Nat.le_mul_of_pos_left n hp)]
  exact (hperiod.mul_const n).eq

/-! ## Bytes in their places -/

/-- The bytes from place `i` on, each at its place of the word. -/
def placed (w : Nat) (i : Nat) : List (BitVec 8) → BitVec w
  | [] => 0
  | b :: bs => (b.setWidth w <<< (8 * i)) ^^^ placed w (i + 1) bs

/-- The places below the first one are empty. -/
theorem placed_below (i : Nat) (bs : List (BitVec 8)) {j : Nat} (hj : j < 8 * i) :
    (placed w i bs).getLsbD j = false := by
  induction bs generalizing i with
  | nil =>
    unfold placed
    exact BitVec.getLsbD_zero
  | cons b bs ih =>
    unfold placed
    rw [BitVec.getLsbD_xor, ih (i + 1) (by omega), BitVec.getLsbD_shiftLeft]
    simp [hj]

/-- The first byte stands at its place. -/
theorem placed_first (i : Nat) (b : BitVec 8) (bs : List (BitVec 8)) {j : Nat} (hj : j < 8)
    (hw : 8 * i + 8 ≤ w) : (placed w i (b :: bs)).getLsbD (8 * i + j) = b.getLsbD j := by
  unfold placed
  rw [BitVec.getLsbD_xor, placed_below (i + 1) bs (by omega), BitVec.getLsbD_shiftLeft,
    BitVec.getLsbD_setWidth]
  simp only [show 8 * i + j - 8 * i = j by omega, show 8 * i + j < w by omega,
    show j < w by omega, show ¬ 8 * i + j < 8 * i by omega, decide_true, decide_false]
  simp

/-- As long as the places fit into the word, different bytes make different words. -/
theorem placed_injective (i : Nat) {bs cs : List (BitVec 8)} (hlen : bs.length = cs.length)
    (hw : 8 * (i + bs.length) ≤ w) (h : placed w i bs = placed w i cs) : bs = cs := by
  induction bs generalizing i cs with
  | nil =>
    rw [List.length_nil] at hlen
    exact (List.length_eq_zero_iff.mp hlen.symm).symm
  | cons b bs ih =>
    cases cs with
    | nil => cases hlen
    | cons c cs =>
      rw [List.length_cons] at hw
      have hfit : 8 * i + 8 ≤ w := by omega
      have hbc : b = c := by
        apply BitVec.eq_of_getLsbD_eq
        intro j hj
        rw [← placed_first i b bs hj hfit, h, placed_first i c cs hj hfit]
      subst hbc
      unfold placed at h
      rw [ih (i + 1) (Nat.succ.inj hlen) (by omega) ((BitVec.xor_right_inj _).mp h)]

end words
