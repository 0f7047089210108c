-- A fold over the full blocks of a message, with what is left behind the last
-- one. A message that comes in pieces is folded piece by piece: only the items
-- behind the last full block are kept between two pieces.
import Mathlib.Data.List.Basic

namespace streaming

variable {σ α : Type} {B : Nat} {f : σ → List α → σ} {s : σ} {xs ys : List α}

/-! ## The blocks of a message -/

/-- The state after the first `n` blocks. -/
def blocks (B : Nat) (f : σ → List α → σ) (s : σ) (xs : List α) : Nat → σ
  | 0 => s
  | n + 1 => blocks B f (f s (xs.take B)) (xs.drop B) n

/-- The state after all full blocks. -/
def absorb (B : Nat) (f : σ → List α → σ) (s : σ) (xs : List α) : σ :=
  blocks B f s xs (xs.length / B)

/-- The items behind the last full block. -/
def rest (B : Nat) (xs : List α) : List α := xs.drop (xs.length / B * B)

theorem blocks_succ (n : Nat) :
    blocks B f s xs (n + 1) = blocks B f (f s (xs.take B)) (xs.drop B) n := rfl

theorem blocks_append (n : Nat) (h : n * B ≤ xs.length) (m : Nat) :
    blocks B f s (xs ++ ys) (n + m) = blocks B f (blocks B f s xs n) (xs.drop (n * B) ++ ys) m := by
  induction n generalizing s xs with
  | zero => simp [blocks]
  | succ n ih =>
    have hmul : (n + 1) * B = B + n * B := by rw [Nat.add_mul, Nat.one_mul, Nat.add_comm]
    rw [hmul] at h
    have hlen : n * B ≤ (xs.drop B).length := by
      rw [List.length_drop]
      omega
    rw [Nat.add_right_comm, blocks_succ, blocks_succ, List.take_append_of_le_length (by omega),
      List.drop_append_of_le_length (by omega), ih hlen, List.drop_drop, hmul]

/-- The second piece is folded behind what the first one left. -/
theorem absorb_append (hB : 0 < B) :
    absorb B f s (xs ++ ys) = absorb B f (absorb B f s xs) (rest B xs ++ ys) := by
  have hle : xs.length / B * B ≤ xs.length := Nat.div_mul_le_self _ _
  have hsplit : (xs ++ ys).length / B = xs.length / B + (rest B xs ++ ys).length / B := by
    have hsum : (xs ++ ys).length = (rest B xs ++ ys).length + B * (xs.length / B) := by
      simp only [rest, List.length_append, List.length_drop]
      rw [Nat.mul_comm B]
      omega
    rw [hsum, Nat.add_mul_div_left _ _ hB, Nat.add_comm]
  unfold absorb
  rw [hsplit, blocks_append _ hle]
  rfl

theorem rest_append (hB : 0 < B) : rest B (xs ++ ys) = rest B (rest B xs ++ ys) := by
  have hle : xs.length / B * B ≤ xs.length := Nat.div_mul_le_self _ _
  have hsum : (xs ++ ys).length = (rest B xs ++ ys).length + B * (xs.length / B) := by
    simp only [rest, List.length_append, List.length_drop]
    rw [Nat.mul_comm B]
    omega
  have hdrop : (xs ++ ys).drop (xs.length / B * B) = rest B xs ++ ys := by
    rw [List.drop_append_of_le_length hle]
    rfl
  conv_lhs => unfold rest
  rw [hsum, Nat.add_mul_div_left _ _ hB, Nat.add_comm, Nat.add_mul, ← List.drop_drop, hdrop]
  rfl

@[simp] theorem absorb_nil : absorb B f s [] = s := by
  simp [absorb, blocks]

@[simp] theorem rest_nil : rest B ([] : List α) = [] := by
  simp [rest]

theorem rest_length (B : Nat) (xs : List α) : (rest B xs).length = xs.length % B := by
  have hdiv := Nat.div_add_mod xs.length B
  rw [Nat.mul_comm] at hdiv
  simp only [rest, List.length_drop]
  omega

/-- Less than a block stays. -/
theorem absorb_small (h : xs.length < B) : absorb B f s xs = s := by
  unfold absorb
  rw [Nat.div_eq_of_lt h]
  rfl

theorem rest_small (h : xs.length < B) : rest B xs = xs := by
  unfold rest
  rw [Nat.div_eq_of_lt h, Nat.zero_mul, List.drop_zero]

/-- A block is folded at once. -/
theorem absorb_block (hB : 0 < B) (h : xs.length = B) : absorb B f s xs = f s xs := by
  have htake : xs.take B = xs := List.take_of_length_le (by omega)
  unfold absorb
  rw [h, Nat.div_self hB]
  simp only [blocks, htake]

theorem rest_block (hB : 0 < B) (h : xs.length = B) : rest B xs = [] := by
  unfold rest
  rw [h, Nat.div_self hB, Nat.one_mul, ← h, List.drop_length]

/-! ## A message in pieces -/

/-- The state `s` and the items `kept` stand for the message `m`, from the state `s0` on. -/
structure Stands (B : Nat) (f : σ → List α → σ) (s0 : σ) (m : List α) (s : σ) (kept : List α) :
    Prop where
  state : s = absorb B f s0 m
  kept : kept = rest B m

variable {s0 : σ} {m kept : List α}

theorem stands_nil : Stands B f s [] s [] := ⟨absorb_nil.symm, rest_nil.symm⟩

/-- A piece that does not fill the block is kept. -/
theorem Stands.keep (h : Stands B f s0 m s kept) (hB : 0 < B) (hlt : kept.length + xs.length < B) :
    Stands B f s0 (m ++ xs) s (kept ++ xs) := by
  have hlt' : (kept ++ xs).length < B := by rw [List.length_append]; exact hlt
  constructor
  · rw [absorb_append hB, ← h.kept, ← h.state, absorb_small hlt']
  · rw [rest_append hB, ← h.kept, rest_small hlt']

/-- A piece that fills the block is folded with what was kept. -/
theorem Stands.fill (h : Stands B f s0 m s kept) (hB : 0 < B) (heq : kept.length + xs.length = B) :
    Stands B f s0 (m ++ xs) (f s (kept ++ xs)) [] := by
  have heq' : (kept ++ xs).length = B := by rw [List.length_append]; exact heq
  constructor
  · rw [absorb_append hB, ← h.kept, ← h.state, absorb_block hB heq']
  · rw [rest_append hB, ← h.kept, rest_block hB heq']

end streaming
