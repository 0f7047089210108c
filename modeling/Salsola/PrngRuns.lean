-- Runs of the pseudorandom generator: `prng_init` gives it a seed, and no run of calls loses
-- anything of the seed, or makes it everywhere zero.
import Salsola.Prng
import Salsola.CsprngStream
import Salsola.Lib.Xorshift
import Mathlib.Data.Finite.Prod

open memory words outcome

namespace salsola

variable {depth : Nat}

/-! ## prng_init -/

/-- The array over 32 bytes, each word with its lowest byte first. -/
def Seed.of_bytes (bytes : List UInt8) : Seed :=
  let word := fun i => UInt64.ofNat (read (fun a => bytes.getD a 0) (8 * i) 8)
  { s0 := word 0, s1 := word 1, s2 := word 2, s3 := word 3 }

def prng_init (depth : Nat) (s : csprng.State) : Result (Seed × csprng.State) := do
  let (bytes, s) ← csprng.csprng_get_random depth s 32
  .ok (Seed.of_bytes (bytes.map csprng.Byte.val), s)

/-- The state that the generator never leaves. -/
def Seed.zero : Seed := { s0 := 0, s1 := 0, s2 := 0, s3 := 0 }

theorem Seed.eq_of_words {s t : Seed} (h0 : s.s0 = t.s0) (h1 : s.s1 = t.s1) (h2 : s.s2 = t.s2)
    (h3 : s.s3 = t.s3) : s = t := by
  cases s
  cases t
  cases h0
  cases h1
  cases h2
  cases h3
  rfl

/-! ## One step -/

def Seed.next (seed : Seed) : Seed := (xoshiro_256_pp seed).2

theorem Seed.next_zero : Seed.zero.next = Seed.zero := by decide

theorem rotl_injective : Function.Injective fun x => rotl x 45 := by
  intro x y hxy
  exact UInt64.toBitVec_inj.mp (rotate_injective (w := 64) (k := 45) (by decide)
    (congrArg UInt64.toBitVec hxy))

/-- `s[1] ^ (s[1] << 17)` is what the new second and third words differ by. -/
theorem Seed.next_step (seed : Seed) :
    (seed.next.s1 ^^^ seed.next.s2).toBitVec = step_left 17 seed.s1.toBitVec := by
  unfold Seed.next xoshiro_256_pp step_left
  dsimp only
  rw [UInt64.xor_assoc, ← UInt64.xor_assoc (seed.s2 ^^^ seed.s0), UInt64.xor_self,
    UInt64.zero_xor]
  rfl

theorem Seed.next_injective : Function.Injective Seed.next := by
  intro s t hst
  have h1 : s.s1 = t.s1 := by
    have hstep := s.next_step
    rw [hst, t.next_step] at hstep
    exact (UInt64.toBitVec_inj.mp (step_left_injective (Nat.succ_pos 16) hstep)).symm
  have hu : s.s3 ^^^ s.s1 = t.s3 ^^^ t.s1 := rotl_injective (congrArg Seed.s3 hst)
  have h0 : s.s0 = t.s0 := by
    have hs0 : s.s0 ^^^ (s.s3 ^^^ s.s1) = t.s0 ^^^ (t.s3 ^^^ t.s1) := congrArg Seed.s0 hst
    rw [hu] at hs0
    exact (UInt64.xor_left_inj _).mp hs0
  have h3 : s.s3 = t.s3 := by
    rw [h1] at hu
    exact (UInt64.xor_left_inj _).mp hu
  have h2 : s.s2 = t.s2 := by
    have hs1 : s.s1 ^^^ (s.s2 ^^^ s.s0) = t.s1 ^^^ (t.s2 ^^^ t.s0) := congrArg Seed.s1 hst
    rw [h1, h0] at hs1
    exact (UInt64.xor_left_inj _).mp ((UInt64.xor_right_inj _).mp hs1)
  exact Seed.eq_of_words h0 h1 h2 h3

instance : Finite Seed :=
  Finite.of_injective
    (fun s => (s.s0.toBitVec.toFin, s.s1.toBitVec.toFin, s.s2.toBitVec.toFin, s.s3.toBitVec.toFin))
    fun s t h => by
      simp only [Prod.mk.injEq, BitVec.toFin_inj, UInt64.toBitVec_inj] at h
      exact Seed.eq_of_words h.1 h.2.1 h.2.2.1 h.2.2.2

/-! ## Calls -/

/-- The number of steps in a call: one for a word, and one for each byte behind the words. -/
def prng_steps (len : Nat) : Nat := len / 8 + len % 8

theorem prng_words_seed (m : Mem) (seed : Seed) (buffer k : Nat) :
    (prng_words m seed buffer k).2 = Seed.next^[k] seed := by
  induction k generalizing m seed buffer with
  | zero => rfl
  | succ k ih =>
    rw [prng_words, Function.iterate_succ_apply]
    exact ih _ _ _

theorem prng_bytes_seed (m : Mem) (seed : Seed) (buffer k : Nat) :
    (prng_bytes m seed buffer k).2 = Seed.next^[k] seed := by
  induction k generalizing m seed buffer with
  | zero => rfl
  | succ k ih =>
    rw [prng_bytes, Function.iterate_succ_apply]
    exact ih _ _ _

theorem prng_seed (m : Mem) (seed : Seed) (buffer len : Nat) :
    (prng_get_pseudorandom m seed buffer len).2 = Seed.next^[prng_steps len] seed := by
  unfold prng_get_pseudorandom prng_steps
  dsimp only
  rw [prng_bytes_seed, prng_words_seed, ← Function.iterate_add_apply, Nat.add_comm]

/-- Calls one after the other, each with its buffer and its length. -/
def prng_calls (m : Mem) (seed : Seed) (calls : List (Nat × Nat)) : Mem × Seed :=
  calls.foldl (fun w call => prng_get_pseudorandom w.1 w.2 call.1 call.2) (m, seed)

/-- The steps in a run. -/
def run_steps (calls : List (Nat × Nat)) : Nat := (calls.map fun call => prng_steps call.2).sum

theorem prng_calls_seed (m : Mem) (seed : Seed) (calls : List (Nat × Nat)) :
    (prng_calls m seed calls).2 = Seed.next^[run_steps calls] seed := by
  unfold prng_calls run_steps
  induction calls generalizing m seed with
  | nil => rfl
  | cons call calls ih =>
    rw [List.foldl_cons, List.map_cons, List.sum_cons, Nat.add_comm, Function.iterate_add_apply,
      ← prng_seed m seed call.1 call.2]
    exact ih _ _

/-- Calls for one word each take one step each. -/
theorem run_steps_words {calls : List (Nat × Nat)} (hcalls : ∀ call ∈ calls, call.2 = 8) :
    run_steps calls = calls.length := by
  induction calls with
  | nil => rfl
  | cons call calls ih =>
    have hcall : prng_steps call.2 = 1 := by
      rw [hcalls call (List.mem_cons_self ..)]
      rfl
    have hrest := ih fun c hc => hcalls c (List.mem_cons_of_mem _ hc)
    unfold run_steps at hrest ⊢
    rw [List.map_cons, List.sum_cons, List.length_cons, hcall, hrest, Nat.add_comm]

/-! ## The seed of the kernel -/

/-- The kernel boots with a seed that is not everywhere zero. -/
theorem prng_init_alive (hdepth : 2 ≤ depth) :
    ∃ seed s, prng_init depth (csprng.csprng_init csprng.initial) = .ok (seed, s) ∧
      seed ≠ Seed.zero := by
  obtain ⟨bytes, s, hrandom, hbytes, -⟩ :=
    csprng.csprng_get_random_shows csprng.shows_initial hdepth 32
  have hseed : Seed.of_bytes (csprng.Generator.initial.random 32).1 ≠ Seed.zero := by
    decide +kernel
  refine ⟨Seed.of_bytes (bytes.map csprng.Byte.val), s, ?_, hbytes ▸ hseed⟩
  unfold prng_init
  rw [hrandom, ok_bind]

end salsola
