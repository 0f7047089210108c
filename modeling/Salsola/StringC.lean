-- `memcpy` and `memset`, as string.c computes them, on a memory of bytes.
import Salsola.Lib.Memory

open memory

namespace salsola

/-- One of the loops of `memcpy`: `k` turns, each of which copies `w` bytes at once. -/
def copy_chunks (w : Nat) (m : Mem) (d s : Nat) : Nat → Mem
  | 0 => m
  | k + 1 => copy_chunks w (write m d w (read m s w)) (d + w) (s + w) k

/-- The loops run with 8, 4, 2 and 1 bytes. Each one takes what the one before it left. -/
def memcpy (m : Mem) (dest src n : Nat) : Mem :=
  let m := copy_chunks 8 m dest src (n / 8)
  let done := n / 8 * 8
  let n := n % 8
  let m := copy_chunks 4 m (dest + done) (src + done) (n / 4)
  let done := done + n / 4 * 4
  let n := n % 4
  let m := copy_chunks 2 m (dest + done) (src + done) (n / 2)
  let done := done + n / 2 * 2
  let n := n % 2
  copy_chunks 1 m (dest + done) (src + done) n

def memset (m : Mem) (s : Nat) (c : UInt8) : Nat → Mem
  | 0 => m
  | n + 1 => memset (write m s 1 c.toNat) (s + 1) c n

/-! ## What they do -/

/-- The memory after a copy of `n` bytes, byte by byte. -/
def Copied (m m' : Mem) (d s n : Nat) : Prop :=
  (∀ i, i < n → m' (d + i) = m (s + i)) ∧ ∀ x, x < d ∨ d + n ≤ x → m' x = m x

theorem copied_zero (m : Mem) (d s : Nat) : Copied m m d s 0 :=
  ⟨fun _ h => absurd h (Nat.not_lt_zero _), fun _ _ => rfl⟩

/-- A copy that goes on where another ended is one copy, when the first one left the
source of the second alone. -/
theorem Copied.append {m m1 m2 : Mem} {d s n k : Nat} (h : Copied m m1 d s n)
    (h' : Copied m1 m2 (d + n) (s + n) k) (hd : d ≤ s ∨ s + (n + k) ≤ d) :
    Copied m m2 d s (n + k) := by
  constructor
  · intro i hi
    by_cases hin : i < n
    · rw [h'.2 (d + i) (by omega), h.1 i hin]
    · obtain ⟨j, rfl⟩ : ∃ j, i = n + j := ⟨i - n, by omega⟩
      rw [← Nat.add_assoc, h'.1 j (by omega), ← Nat.add_assoc]
      exact h.2 _ (by omega)
  · intro x hx
    rw [h'.2 x (by omega), h.2 x (by omega)]

theorem copy_chunks_copied (w k : Nat) (m : Mem) (d s : Nat) (hd : d ≤ s ∨ s + k * w ≤ d) :
    Copied m (copy_chunks w m d s k) d s (k * w) := by
  induction k generalizing m d s with
  | zero =>
    rw [Nat.zero_mul]
    exact copied_zero m d s
  | succ k ih =>
    have hmul : (k + 1) * w = w + k * w := by ring
    rw [hmul] at hd ⊢
    refine Copied.append ⟨fun i hi => write_read m m d s w i hi, fun x hx => ?_⟩
      (ih _ (d + w) (s + w) (by omega)) hd
    exact write_outside m _ x (by omega)

/-- `memcpy` copies byte by byte, when the two ranges are apart or `dest` comes first. -/
theorem memcpy_copied (m : Mem) (dest src n : Nat) (hd : dest ≤ src ∨ src + n ≤ dest) :
    Copied m (memcpy m dest src n) dest src n := by
  unfold memcpy
  simp only
  have h8 := copy_chunks_copied 8 (n / 8) m dest src (by omega)
  generalize copy_chunks 8 m dest src (n / 8) = m8 at *
  have h4 := h8.append (copy_chunks_copied 4 (n % 8 / 4) m8 (dest + n / 8 * 8)
    (src + n / 8 * 8) (by omega)) (by omega)
  generalize copy_chunks 4 m8 (dest + n / 8 * 8) (src + n / 8 * 8) (n % 8 / 4) = m4 at *
  have h2 := h4.append (copy_chunks_copied 2 (n % 8 % 4 / 2) m4 _ _ (by omega)) (by omega)
  generalize copy_chunks 2 m4 (dest + (n / 8 * 8 + n % 8 / 4 * 4))
    (src + (n / 8 * 8 + n % 8 / 4 * 4)) (n % 8 % 4 / 2) = m2 at *
  have h1 := h2.append (copy_chunks_copied 1 (n % 8 % 4 % 2) m2 _ _ (by omega)) (by omega)
  have hn : n / 8 * 8 + n % 8 / 4 * 4 + n % 8 % 4 / 2 * 2 + n % 8 % 4 % 2 * 1 = n := by omega
  rw [hn] at h1
  exact h1

theorem memset_byte (m : Mem) (s : Nat) (c : UInt8) (n x : Nat) :
    memset m s c n x = if s ≤ x ∧ x < s + n then c else m x := by
  induction n generalizing m s with
  | zero => simp only [memset]; rw [if_neg (by omega)]
  | succ n ih =>
    unfold memset
    rw [ih]
    by_cases hin : s + 1 ≤ x ∧ x < s + 1 + n
    · rw [if_pos hin, if_pos (by omega)]
    · rw [if_neg hin]
      by_cases hx : x = s
      · subst hx
        rw [if_pos (by omega)]
        unfold write
        rw [if_pos (by omega)]
        simp
      · rw [if_neg (by omega), write_outside _ _ _ (by omega)]

/-! ## The loops as the source writes them -/

/-- The loop that copies `w` bytes a turn: it hands on its two pointers and what is left of
the length. -/
def copy_loop (w : Nat) (m : Mem) (d s n : Nat) : Mem × Nat × Nat × Nat :=
  if 0 < w ∧ w ≤ n then copy_loop w (write m d w (read m s w)) (d + w) (s + w) (n - w)
  else (m, d, s, n)
termination_by n

/-- `memcpy` with its pointers and with what it returns. -/
def memcpy_call (m : Mem) (dest src n : Nat) : Mem × Nat :=
  let (m, d, s, n) := copy_loop 8 m dest src n
  let (m, d, s, n) := copy_loop 4 m d s n
  let (m, d, s, n) := copy_loop 2 m d s n
  let (m, _, _, _) := copy_loop 1 m d s n
  (m, dest)

/-- A copy that moves one byte a turn. -/
def copy_bytes (m : Mem) (d s : Nat) : Nat → Mem
  | 0 => m
  | n + 1 => copy_bytes (Function.update m d (m s)) (d + 1) (s + 1) n

theorem copy_loop_eq (w : Nat) (hw : 0 < w) (m : Mem) (d s n : Nat) :
    copy_loop w m d s n =
      (copy_chunks w m d s (n / w), d + n / w * w, s + n / w * w, n % w) := by
  induction n using Nat.strong_induction_on generalizing m d s with
  | _ n ih =>
    unfold copy_loop
    by_cases hn : w ≤ n
    · obtain ⟨k, rfl⟩ : ∃ k, n = k + w := ⟨n - w, by omega⟩
      rw [if_pos ⟨hw, hn⟩, Nat.add_sub_cancel, ih k (by omega), Nat.add_div_right k hw,
        Nat.add_mod_right, Nat.succ_mul]
      simp only [copy_chunks, Nat.add_assoc, Nat.add_comm w]
    · rw [if_neg (fun hc => hn hc.2), Nat.div_eq_of_lt (by omega), Nat.mod_eq_of_lt (by omega)]
      simp [copy_chunks]

theorem memcpy_call_eq (m : Mem) (dest src n : Nat) :
    memcpy_call m dest src n = (memcpy m dest src n, dest) := by
  unfold memcpy_call memcpy
  simp only [copy_loop_eq 8 (by decide), copy_loop_eq 4 (by decide), copy_loop_eq 2 (by decide),
    copy_loop_eq 1 (by decide), Nat.div_one, Nat.add_assoc]

theorem copy_bytes_copied (m : Mem) (d s n : Nat) (hd : d ≤ s ∨ s + n ≤ d) :
    Copied m (copy_bytes m d s n) d s n := by
  induction n generalizing m d s with
  | zero => exact copied_zero m d s
  | succ n ih =>
    have hone : Copied m (Function.update m d (m s)) d s 1 := by
      refine ⟨fun i hi => ?_, fun x hx => Function.update_of_ne (by omega) _ _⟩
      obtain rfl : i = 0 := by omega
      exact Function.update_self d (m s) m
    have hrest : Copied (Function.update m d (m s)) (copy_bytes m d s (n + 1)) (d + 1) (s + 1) n :=
      ih _ (d + 1) (s + 1) (by omega)
    rw [Nat.add_comm n 1] at hd hrest ⊢
    exact hone.append hrest hd

/-- What a copy leaves is determined. -/
theorem Copied.unique {m m1 m2 : Mem} {d s n : Nat} (h1 : Copied m m1 d s n)
    (h2 : Copied m m2 d s n) : m1 = m2 := by
  funext x
  by_cases hx : d ≤ x ∧ x < d + n
  · obtain ⟨i, rfl⟩ : ∃ i, x = d + i := ⟨x - d, by omega⟩
    rw [h1.1 i (by omega), h2.1 i (by omega)]
  · rw [h1.2 x (by omega), h2.2 x (by omega)]

/-- `memcpy` does what a copy byte by byte does, when the two ranges are apart or `dest`
is not behind `src`, and it gives `dest` back. -/
theorem memcpy_is_a_copy_of_bytes (m : Mem) (dest src n : Nat)
    (hd : dest ≤ src ∨ dest + n ≤ src ∨ src + n ≤ dest) :
    ∃ m', memcpy_call m dest src n = (m', dest) ∧ m' = copy_bytes m dest src n ∧
      (∀ i, i < n → m' (dest + i) = m (src + i)) ∧
      ∀ x, x < dest ∨ dest + n ≤ x → m' x = m x := by
  have hd : dest ≤ src ∨ src + n ≤ dest := by omega
  have hcopied := memcpy_copied m dest src n hd
  refine ⟨memcpy m dest src n, memcpy_call_eq m dest src n, ?_, hcopied.1, hcopied.2⟩
  exact hcopied.unique (copy_bytes_copied m dest src n hd)

/-- Thirteen bytes that move down by three: each of the loops runs, on ranges that overlap. -/
theorem memcpy_is_a_copy_of_bytes_that_overlap :
    ∃ m', memcpy_call (fun x => UInt8.ofNat x) 0x1000 0x1003 13 = (m', 0x1000) ∧
      ∀ i, i < 13 → m' (0x1000 + i) = UInt8.ofNat (0x1003 + i) := by
  obtain ⟨m', heq, -, hbytes, -⟩ :=
    memcpy_is_a_copy_of_bytes (fun x => UInt8.ofNat x) 0x1000 0x1003 13 (Or.inl (by decide))
  exact ⟨m', heq, hbytes⟩

end salsola
