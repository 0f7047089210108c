-- Numerals: the digits of a number in a base, the most significant one first.
-- The number 0 has one digit, and no other number starts with a 0.
import Mathlib.Data.Nat.Digits.Lemmas

namespace numeral

variable {b n k d : Nat}

/-- The digits of `n` in the base `b`. -/
def places (b n : Nat) : List Nat := if n = 0 then [0] else (Nat.digits b n).reverse

theorem places_zero (b : Nat) : places b 0 = [0] := rfl

theorem places_of_ne (h : n ≠ 0) : places b n = (Nat.digits b n).reverse := if_neg h

theorem places_lt (hb : 1 < b) (hd : d ∈ places b n) : d < b := by
  by_cases hn : n = 0
  · rw [hn, places_zero, List.mem_singleton] at hd
    omega
  · rw [places_of_ne hn, List.mem_reverse] at hd
    exact Nat.digits_lt_base hb hd

/-- The digits say which number it is. -/
theorem ofDigits_places (b n : Nat) : Nat.ofDigits b (places b n).reverse = n := by
  by_cases hn : n = 0
  · rw [hn, places_zero]
    simp
  · rw [places_of_ne hn, List.reverse_reverse, Nat.ofDigits_digits]

/-- There is no leading zero. -/
theorem head_places (hn : n ≠ 0) : (places b n).head? ≠ some 0 := by
  have hne : Nat.digits b n ≠ [] := Nat.digits_ne_nil_iff_ne_zero.mpr hn
  rw [places_of_ne hn, List.head?_reverse, List.getLast?_eq_some_getLast hne]
  exact fun h => Nat.getLast_digit_ne_zero b hn (Option.some.inj h)

theorem places_ne_nil (b n : Nat) : places b n ≠ [] := by
  by_cases hn : n = 0
  · rw [hn, places_zero]
    exact List.cons_ne_nil _ _
  · rw [places_of_ne hn]
    intro h
    exact Nat.digits_ne_nil_iff_ne_zero.mpr hn (List.reverse_eq_nil_iff.mp h)

theorem length_places_pos (b n : Nat) : 0 < (places b n).length :=
  List.length_pos_iff.mpr (places_ne_nil b n)

/-- `k` digits are enough for the numbers below `b ^ k`. -/
theorem length_places_le (hb : 1 < b) (hk : 0 < k) : (places b n).length ≤ k ↔ n < b ^ k := by
  by_cases hn : n = 0
  · rw [hn, places_zero]
    exact iff_of_true hk (Nat.pow_pos (by omega))
  · rw [places_of_ne hn, List.length_reverse]
    exact Nat.digits_length_le_iff hb n

/-- The last digit, behind the digits of the rest. -/
theorem places_step (hb : 1 < b) (hn : b ≤ n) : places b n = places b (n / b) ++ [n % b] := by
  have hdiv : n / b ≠ 0 := by
    have := Nat.div_pos hn (by omega)
    omega
  rw [places_of_ne (by omega), places_of_ne hdiv, Nat.digits_def' hb (by omega),
    List.reverse_cons]

theorem places_digit (hn : n < b) : places b n = [n] := by
  by_cases h0 : n = 0
  · rw [h0, places_zero]
  · rw [places_of_ne h0, Nat.digits_of_lt b n h0 hn, List.reverse_singleton]

end numeral
