-- The fast entropy mixer of csprng.c: each input maps the 64 bits of its state
-- one to one, and eight bytes or fewer never go the way of other ones.
import Salsola.Csprng
import Salsola.Lib.Xorshift

open words

namespace salsola.csprng

variable {x y : UInt64} {i : Nat} {buffer buffer' : List UInt8}

/-! ## xorshift64 -/

theorem xorshift64_steps (x : UInt64) :
    (xorshift64 x).toBitVec = step_left 17 (step_right 7 (step_left 13 x.toBitVec)) := by
  unfold xorshift64 step_left step_right
  simp

theorem xorshift64_injective : Function.Injective xorshift64 := by
  intro x y hxy
  have h := congrArg UInt64.toBitVec hxy
  rw [xorshift64_steps, xorshift64_steps] at h
  have h1 := step_left_injective (Nat.succ_pos 16) h
  have h2 := step_right_injective (Nat.succ_pos 6) h1
  exact UInt64.toBitVec_inj.mp (step_left_injective (Nat.succ_pos 12) h2)

/-- The step is linear. -/
theorem xorshift64_xor (x y : UInt64) :
    xorshift64 (x ^^^ y) = xorshift64 x ^^^ xorshift64 y := by
  apply UInt64.toBitVec_inj.mp
  rw [UInt64.toBitVec_xor, xorshift64_steps, xorshift64_steps, xorshift64_steps,
    UInt64.toBitVec_xor, step_left_xor, step_right_xor, step_left_xor]

/-- A byte that went in at the lowest place leaves its trace in the low byte. -/
theorem low_byte_of_step (d : UInt8) (hd : (xorshift64 d.toUInt64).toUInt8 = 0) : d = 0 := by
  have hall : ∀ n : Fin 256, (xorshift64 (UInt8.ofNat n.val).toUInt64).toUInt8 = 0 → n = 0 := by
    decide +kernel
  have hn := hall ⟨d.toNat, d.toNat_lt⟩ (by simpa using hd)
  apply UInt8.toNat_inj.mp
  exact congrArg Fin.val hn

/-- A map of the states that loses nothing reaches every state. -/
theorem bijective_word {f : UInt64 → UInt64} (hf : Function.Injective f) :
    Function.Bijective f := by
  have hfin : Finite UInt64 :=
    Finite.of_injective (fun x => x.toBitVec.toFin) fun _ _ h =>
      UInt64.toBitVec_inj.mp (BitVec.toFin_inj.mp h)
  exact Finite.injective_iff_bijective.mp hf

/-! ## The loop -/

/-- Each input maps the states one to one. -/
theorem add_entropy_fast_loop_injective (i : Nat) (buffer : List UInt8) :
    Function.Injective (fun x => add_entropy_fast_loop x i buffer) := by
  induction buffer generalizing i with
  | nil => exact fun _ _ h => h
  | cons b buffer ih =>
    intro x y h
    have hstep := ih (i + 1) h
    by_cases hi : i % 8 = 0
    · rw [if_pos hi, if_pos hi] at hstep
      exact (UInt64.xor_left_inj _).mp (xorshift64_injective hstep)
    · rw [if_neg hi, if_neg hi] at hstep
      exact (UInt64.xor_left_inj _).mp hstep

/-- Behind the first byte, up to the eighth, the bytes only go to their places. -/
theorem add_entropy_fast_loop_rest (x : UInt64) (hi : 0 < i) (hlen : i + buffer.length ≤ 8) :
    (add_entropy_fast_loop x i buffer).toBitVec =
      x.toBitVec ^^^ placed 64 i (buffer.map UInt8.toBitVec) := by
  induction buffer generalizing x i with
  | nil =>
    unfold add_entropy_fast_loop
    simp [placed]
  | cons b buffer ih =>
    rw [List.length_cons] at hlen
    have hmod : i % 8 = i := Nat.mod_eq_of_lt (by omega)
    have hplace : (UInt64.ofNat (8 * i)).toBitVec % 64 = BitVec.ofNat 64 (8 * i) := by
      apply BitVec.eq_of_toNat_eq
      simp
      omega
    unfold add_entropy_fast_loop
    dsimp only
    rw [hmod, if_neg (by omega), ih _ (Nat.succ_pos i) (by omega), UInt64.toBitVec_xor,
      UInt64.toBitVec_shiftLeft, hplace, List.map_cons, placed, BitVec.xor_assoc,
      UInt8.toBitVec_toUInt64, BitVec.shiftLeft_eq', BitVec.toNat_ofNat,
      Nat.mod_eq_of_lt (by omega)]

theorem low_byte_of_placed (bs : List (BitVec 8)) : (placed 64 1 bs).setWidth 8 = 0 := by
  apply BitVec.eq_of_getLsbD_eq
  intro j hj
  rw [BitVec.getLsbD_setWidth, placed_below 1 bs (by omega)]
  simp

/-- Two bytes that differ send a state to different low bytes, and the bytes behind them do
not reach there. -/
theorem first_byte_of_loop {b c : UInt8} (x : UInt64) (hb : buffer.length ≤ 7)
    (hc : buffer'.length ≤ 7)
    (h : add_entropy_fast_loop x 0 (b :: buffer) = add_entropy_fast_loop x 0 (c :: buffer')) :
    b = c := by
  unfold add_entropy_fast_loop at h
  dsimp only at h
  have hzero : UInt64.ofNat (8 * (0 % 8)) = 0 := rfl
  rw [if_pos (Nat.zero_mod 8), if_pos (Nat.zero_mod 8), hzero, UInt64.shiftLeft_zero,
    UInt64.shiftLeft_zero] at h
  have hbits := congrArg UInt64.toBitVec h
  rw [add_entropy_fast_loop_rest _ Nat.one_pos (by omega),
    add_entropy_fast_loop_rest _ Nat.one_pos (by omega)] at hbits
  have hlow := congrArg (BitVec.setWidth 8) hbits
  rw [BitVec.setWidth_xor, BitVec.setWidth_xor, low_byte_of_placed, low_byte_of_placed,
    xorshift64_xor, xorshift64_xor, UInt64.toBitVec_xor, UInt64.toBitVec_xor,
    BitVec.setWidth_xor, BitVec.setWidth_xor] at hlow
  have hsame := (BitVec.xor_right_inj _).mp ((BitVec.xor_left_inj _).mp hlow)
  have hzero : (xorshift64 (b ^^^ c).toUInt64).toUInt8 = 0 := by
    apply UInt8.toBitVec_inj.mp
    rw [UInt8.toUInt64_xor, xorshift64_xor, UInt64.toBitVec_toUInt8, UInt64.toBitVec_xor,
      BitVec.setWidth_xor, hsame, BitVec.xor_self]
    rfl
  exact UInt8.xor_eq_zero_iff.mp (low_byte_of_step _ hzero)

/-- Up to eight bytes: different bytes send each state to different states. -/
theorem add_entropy_fast_loop_apart (x : UInt64) (hlen : buffer.length = buffer'.length)
    (hshort : buffer.length ≤ 8)
    (h : add_entropy_fast_loop x 0 buffer = add_entropy_fast_loop x 0 buffer') :
    buffer = buffer' := by
  cases buffer with
  | nil => exact (List.length_eq_zero_iff.mp hlen.symm).symm
  | cons b buffer =>
    cases buffer' with
    | nil => cases hlen
    | cons c buffer' =>
      rw [List.length_cons] at hshort
      have htail : buffer.length = buffer'.length := Nat.succ.inj hlen
      have hbc := first_byte_of_loop x (by omega) (by omega) h
      subst hbc
      have hbits := congrArg UInt64.toBitVec h
      unfold add_entropy_fast_loop at hbits
      rw [add_entropy_fast_loop_rest _ Nat.one_pos (by omega),
        add_entropy_fast_loop_rest _ Nat.one_pos (by omega)] at hbits
      have hplaced := (BitVec.xor_right_inj _).mp hbits
      have hmap := placed_injective 1 (by rw [List.length_map, List.length_map, htail])
        (by rw [List.length_map]; omega) hplaced
      have hrest := List.map_injective_iff.mpr (fun _ _ => UInt8.toBitVec_inj.mp) hmap
      rw [hrest]

/-! ## The law -/

/-- The fast mixer loses nothing: for each input, different states stay different and each
state is reached, and from each state, different inputs of one length up to eight bytes lead to
different states. -/
theorem the_fast_mixer_loses_nothing :
    (∀ (s : State) (buffer : List UInt8), Function.Bijective fun x =>
      (csprng_add_entropy_fast { s with entropy_fast_state := x } buffer).entropy_fast_state) ∧
    ∀ (s : State) (buffer buffer' : List UInt8), buffer.length = buffer'.length →
      buffer.length ≤ 8 → buffer ≠ buffer' →
      (csprng_add_entropy_fast s buffer).entropy_fast_state ≠
        (csprng_add_entropy_fast s buffer').entropy_fast_state := by
  constructor
  · intro s buffer
    apply bijective_word
    intro x y h
    exact add_entropy_fast_loop_injective 0 buffer (xorshift64_injective h)
  · intro s buffer buffer' hlen hshort hne h
    exact hne (add_entropy_fast_loop_apart _ hlen hshort (xorshift64_injective h))

theorem the_fast_mixer_tells_two_bytes_apart :
    (csprng_add_entropy_fast initial [1]).entropy_fast_state ≠
      (csprng_add_entropy_fast initial [2]).entropy_fast_state :=
  the_fast_mixer_loses_nothing.2 initial [1] [2] rfl (by decide) (by decide)

end salsola.csprng
