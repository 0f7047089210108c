-- A memory of bytes, with numbers in little-endian order.
import Mathlib.Data.Nat.Init
import Mathlib.Logic.Function.Basic
import Mathlib.Tactic.Ring

namespace memory

/-- The byte at each address. -/
abbrev Mem := Nat → UInt8

variable {m m' : Mem} {a b n k lo hi : Nat}

/-- The number in the `n` bytes from `a` on, lowest byte first. -/
def read (m : Mem) (a : Nat) : Nat → Nat
  | 0 => 0
  | n + 1 => (m a).toNat + 256 * read m (a + 1) n

/-- The `n` bytes from `a` on take the number `v`, lowest byte first. -/
def write (m : Mem) (a n v : Nat) : Mem :=
  fun x => if a ≤ x ∧ x < a + n then UInt8.ofNat (v / 256 ^ (x - a)) else m x

/-- Two memories hold the same bytes from `lo` up to `hi`. -/
def Agree (m m' : Mem) (lo hi : Nat) : Prop := ∀ x, lo ≤ x → x < hi → m' x = m x

theorem agree_refl (m : Mem) (lo hi : Nat) : Agree m m lo hi := fun _ _ _ => rfl

theorem Agree.trans {m'' : Mem} (h : Agree m m' lo hi) (h' : Agree m' m'' lo hi) :
    Agree m m'' lo hi := fun x h1 h2 => (h' x h1 h2).trans (h x h1 h2)

theorem Agree.sub {lo' hi' : Nat} (h : Agree m m' lo hi) (hlo : lo ≤ lo') (hhi : hi' ≤ hi) :
    Agree m m' lo' hi' := fun x h1 h2 => h x (by omega) (by omega)

theorem write_outside (m : Mem) (v x : Nat) (h : x < a ∨ a + n ≤ x) : write m a n v x = m x :=
  if_neg (by omega)

theorem agree_write (m : Mem) (v : Nat) (h : hi ≤ a ∨ a + n ≤ lo) :
    Agree m (write m a n v) lo hi := fun x h1 h2 => write_outside m v x (by omega)

theorem read_congr (h : Agree m m' a (a + n)) : read m' a n = read m a n := by
  induction n generalizing a with
  | zero => rfl
  | succ n ih =>
    unfold read
    rw [h a (le_refl a) (by omega), ih (fun x h1 h2 => h x (by omega) (by omega))]

theorem read_lt (m : Mem) (a n : Nat) : read m a n < 256 ^ n := by
  induction n generalizing a with
  | zero => simp [read]
  | succ n ih =>
    have hb : (m a).toNat < 256 := (m a).toNat_lt
    have hr := ih (a + 1)
    unfold read
    rw [Nat.pow_succ]
    omega

theorem read_write_other (m : Mem) (v : Nat) (h : b + k ≤ a ∨ a + n ≤ b) :
    read (write m a n v) b k = read m b k :=
  read_congr (agree_write m v h)

/-- Bytes that a number filled give the number back. -/
theorem read_of_bytes (v : Nat)
    (h : ∀ i, i < n → m (a + i) = UInt8.ofNat (v / 256 ^ i)) : read m a n = v % 256 ^ n := by
  induction n generalizing a v with
  | zero => simp [read, Nat.mod_one]
  | succ n ih =>
    have h0 : m a = UInt8.ofNat v := by simpa using h 0 (by omega)
    have hrest : read m (a + 1) n = v / 256 % 256 ^ n := by
      apply ih
      intro i hi
      have := h (i + 1) (by omega)
      rw [show a + 1 + i = a + (i + 1) by omega, this, Nat.div_div_eq_div_mul, Nat.pow_succ,
        Nat.mul_comm]
    have hbyte : (UInt8.ofNat v).toNat = v % 256 := by simp
    unfold read
    rw [h0, hrest, hbyte, Nat.pow_succ, Nat.mul_comm (256 ^ n) 256, Nat.mod_mul]

theorem read_write_self (m : Mem) (a n v : Nat) (h : v < 256 ^ n) :
    read (write m a n v) a n = v := by
  rw [read_of_bytes v, Nat.mod_eq_of_lt h]
  intro i hi
  unfold write
  rw [if_pos (by omega), Nat.add_sub_cancel_left]

/-- A number that is read and written elsewhere takes its bytes along. -/
theorem write_read (m m' : Mem) (a b n i : Nat) (hi : i < n) :
    write m a n (read m' b n) (a + i) = m' (b + i) := by
  have hdigit : ∀ (n b i : Nat), i < n → read m' b n / 256 ^ i % 256 = (m' (b + i)).toNat := by
    intro n
    induction n with
    | zero => omega
    | succ n ih =>
      intro b i hi
      have hb : (m' b).toNat < 256 := (m' b).toNat_lt
      cases i with
      | zero =>
        unfold read
        simp only [Nat.pow_zero, Nat.div_one, Nat.add_zero]
        omega
      | succ i =>
        unfold read
        rw [Nat.pow_succ, Nat.mul_comm (256 ^ i), ← Nat.div_div_eq_div_mul,
          show ((m' b).toNat + 256 * read m' (b + 1) n) / 256 = read m' (b + 1) n by omega,
          ih (b + 1) i (by omega), show b + 1 + i = b + (i + 1) by omega]
  unfold write
  rw [if_pos (by omega), Nat.add_sub_cancel_left]
  apply UInt8.toNat_inj.mp
  rw [← hdigit n b i hi]
  simp

/-! ## Blocks -/

/-- Bytes go from places in one memory to places in another, one after the other. -/
def moved (src dst : Mem) (places : List (Nat × Nat)) : Mem :=
  places.foldl (fun dst p => Function.update dst p.2 (src p.1)) dst

/-- The `n` bytes of one memory from `a` on stand in another from `b` on. -/
def blit (src dst : Mem) (a b n : Nat) : Mem :=
  fun x => if b ≤ x ∧ x < b + n then src (a + (x - b)) else dst x

theorem blit_zero (src dst : Mem) (a b : Nat) : blit src dst a b 0 = dst :=
  funext fun _ => if_neg (by omega)

theorem blit_at (src dst : Mem) (a b : Nat) {n i : Nat} (hi : i < n) :
    blit src dst a b n (b + i) = src (a + i) := by
  unfold blit
  rw [if_pos (by omega), Nat.add_sub_cancel_left]

theorem blit_outside (src dst : Mem) {a b n x : Nat} (h : x < b ∨ b + n ≤ x) :
    blit src dst a b n x = dst x := if_neg (by omega)

/-- Byte by byte, a block is moved. -/
theorem moved_block (src dst : Mem) (a b n : Nat) :
    moved src dst ((List.range n).map fun i => (a + i, b + i)) = blit src dst a b n := by
  induction n with
  | zero => exact (blit_zero src dst a b).symm
  | succ n ih =>
    unfold moved at ih ⊢
    rw [List.range_succ, List.map_append, List.foldl_append, ih]
    funext x
    show Function.update (blit src dst a b n) (b + n) (src (a + n)) x = _
    by_cases hx : x = b + n
    · rw [hx, Function.update_self, blit_at src dst a b (Nat.lt_succ_self n)]
    · rw [Function.update_of_ne hx]
      unfold blit
      by_cases hin : b ≤ x ∧ x < b + n
      · rw [if_pos hin, if_pos (by omega)]
      · rw [if_neg hin, if_neg (by omega)]

/-- Some bytes get new values. -/
def overlay (m : Mem) (bytes : Nat → Option UInt8) : Mem := fun a => (bytes a).getD (m a)

theorem overlay_outside (m : Mem) {bytes : Nat → Option UInt8} {a : Nat} (h : bytes a = none) :
    overlay m bytes a = m a := by
  unfold overlay
  rw [h]
  rfl

end memory
