-- Runs of the generator: callers take random bytes and add entropy, in any
-- order and of any length.
import Salsola.CsprngLaws

open outcome salsola.sha1 salsola.chacha20

namespace salsola.csprng

structure World where
  state : State
  /-- The bytes that were copied to the buffers of the callers. -/
  given : List Byte
  /-- The sizes that `csprng_add_entropy` was called with, the latest first, and whether
  `add_hash_pool` ran. -/
  history : List (Nat × Bool)

inductive Call
  | get_random (len : Nat)
  | add_entropy (buffer : List UInt8)
  | add_entropy_fast (buffer : List UInt8)

def World.step (depth : Nat) (w : World) : Call → Result World
  | .get_random len => do
    let (bytes, s) ← csprng_get_random depth w.state len
    .ok { w with state := s, given := w.given ++ bytes }
  | .add_entropy buffer => do
    let s ← csprng_add_entropy depth w.state buffer
    let ran := decide (reseeds w.state.log < reseeds s.log)
    .ok { w with state := s, history := (buffer.length, ran) :: w.history }
  | .add_entropy_fast buffer =>
    .ok { w with state := csprng_add_entropy_fast w.state buffer }

/-- A size is a `u64`. -/
def Call.Allowed : Call → Prop
  | .add_entropy buffer => buffer.length < 2 ^ 64
  | _ => True

/-- The variables have the values that they start with, or `csprng_init` was called. -/
def Starts (w : World) : Prop :=
  (w.state = initial ∨ w.state = csprng_init initial) ∧ w.given = [] ∧ w.history = []

/-- The worlds that calls reach, which call each other `depth` deep at most. -/
abbrev Run (depth : Nat) : World → Prop :=
  Reach Starts (fun _ c => c.Allowed) (World.step depth)

/-- The sum of all sizes. -/
def total : List (Nat × Bool) → Nat
  | [] => 0
  | (n, _) :: history => total history + n

/-- Each run of `add_hash_pool` was one for the counter. -/
def Counted : List (Nat × Bool) → Prop
  | [] => True
  | (n, ran) :: history =>
    (ran = true ↔ HASH_LEN * 2 ≤ (total history + n) % 2 ^ 32) ∧ Counted history

structure World.Good (w : World) : Prop where
  state : csprng.Good w.state
  given : ∀ b ∈ w.given, b.block < calls w.state.log ∧ b.block ∉ mixed w.state.log
  size : w.state.hash_pool_size = total w.history % 2 ^ 32
  counted : Counted w.history

variable {w w' : World} {c : Call} {depth : Nat} {bytes : List Byte} {s' : State}

/-! ## One step -/

theorem good_start (h : Starts w) : w.Good := by
  obtain ⟨hstate, hgiven, hhistory⟩ := h
  have hinitial : csprng.Good initial :=
    ⟨⟨⟨rfl, ⟨_, [], ⟨rfl, by decide, rfl, streaming.stands_nil⟩⟩, trivial,
    by simp [initial, mixed]⟩,
      by simp [initial, used]⟩, by decide⟩
  refine ⟨?_, by simp [hgiven], ?_, by simp [hhistory, Counted]⟩
  · rcases hstate with hs | hs
    · rw [hs]
      exact hinitial
    · rw [hs]
      exact hinitial.with_pool ⟨_, _, holds_init⟩
  · rcases hstate with hs | hs <;> simp [hs, hhistory, total, initial, csprng_init]

/-- What was given stays apart from what becomes a key. -/
theorem World.Good.given_draws (h : w.Good) (hd : Draws w.state.log s'.log bytes) :
    ∀ b ∈ w.given ++ bytes, b.block < calls s'.log ∧ b.block ∉ mixed s'.log := by
  intro b hb
  rcases List.mem_append.mp hb with hold | hnew
  · obtain ⟨hlt, hnot⟩ := h.given b hold
    refine ⟨hlt.trans_le hd.calls, ?_⟩
    intro hmix
    rcases hd.mixed _ hmix with hmix | hmix
    · exact hnot hmix
    · omega
  · exact (hd.fresh b hnew).2

/-- A call for random bytes returns. -/
theorem World.Good.get_random (h : w.Good) (hdepth : 2 ≤ depth) (len : Nat) :
    ∃ w', w.step depth (.get_random len) = .ok w' ∧ w'.Good := by
  obtain ⟨bytes, s', hs', -, hgives⟩ := csprng_get_random.spec h.state hdepth len
  refine ⟨{ w with state := s', given := w.given ++ bytes }, ?_, ?_⟩
  · simp only [World.step, hs', ok_bind]
  · exact ⟨hgives.good, h.given_draws hgives.draws, hgives.size.trans h.size, h.counted⟩

theorem World.Good.add_entropy (h : w.Good) (hdepth : 2 ≤ depth) (buffer : List UInt8)
    (hu64 : buffer.length < 2 ^ 64) :
    Spec (w.step depth (.add_entropy buffer))
      (fun e => e = .fault ∧ 2 ^ 64 < buffer.length + 64) World.Good := by
  refine spec_bind (csprng_add_entropy.spec h.state hdepth buffer hu64) ?_
  rintro s' ⟨hgood, hdraws, hsize, hreseeds⟩
  rw [h.size, Nat.mod_add_mod] at hsize hreseeds
  have hgiven := h.given_draws hdraws
  rw [List.append_nil] at hgiven
  refine ⟨hgood, hgiven, hsize, ?_, h.counted⟩
  rw [decide_eq_true_iff]
  split at hreseeds <;> omega

theorem World.Good.add_entropy_fast (h : w.Good) (buffer : List UInt8) :
    Spec (w.step depth (.add_entropy_fast buffer)) (· = .fault) World.Good :=
  ⟨⟨⟨⟨h.state.words, h.state.pool, h.state.unique, h.state.mixed⟩, h.state.below⟩, h.state.count⟩,
    h.given, h.size, h.counted⟩

theorem World.Good.step (h : w.Good) (hdepth : 2 ≤ depth) (ha : c.Allowed) :
    Spec (w.step depth c) (· = .fault) World.Good := by
  cases c with
  | get_random len =>
    obtain ⟨w', hw', hgood⟩ := h.get_random hdepth len
    rw [hw']
    exact hgood
  | add_entropy buffer =>
    exact spec_mono (h.add_entropy hdepth buffer ha) (fun _ he => he.1) (fun _ hw => hw)
  | add_entropy_fast buffer => exact h.add_entropy_fast buffer

theorem Run.good (h : Run depth w) (hdepth : 2 ≤ depth) : w.Good :=
  h.invariant World.Good (fun _ => good_start)
    (fun _ _ _ hw ha hs => spec_of_ok (hw.step hdepth ha) hs)

/-! ## The counters -/

/-- Between two blocks with one counter the key is written. No byte of a block that becomes a key
goes to a caller. A call for random bytes returns, and no call recurses without end. -/
theorem no_key_serves_a_counter_twice (hdepth : 2 ≤ depth) (h : Run depth w) :
    (∀ front mid back count,
      w.state.log = front ++ .block count :: mid ++ .block count :: back → .key ∈ mid) ∧
    (∀ b ∈ w.given, b.block ∉ mixed w.state.log) ∧
    (∀ len, ∃ w', w.step depth (.get_random len) = .ok w') ∧
    ∀ c : Call, c.Allowed → w.step depth c ≠ .error .spin := by
  have hgood := h.good hdepth
  refine ⟨?_, fun b hb => (hgood.given b hb).2, ?_, ?_⟩
  · intro front mid back count hlog
    exact hgood.state.unique.key_between hlog
  · intro len
    obtain ⟨w', hw', -⟩ := hgood.get_random hdepth len
    exact ⟨w', hw'⟩
  · intro c hc hspin
    have hfault := spec_of_error (hgood.step hdepth hc) hspin
    cases hfault

/-- A world in which a caller took 100 bytes. -/
theorem no_key_serves_a_counter_twice_after_100_bytes :
    ∃ w, Run 2 w ∧ w.given.length = 100 ∧
      (∀ front mid back count,
        w.state.log = front ++ .block count :: mid ++ .block count :: back → .key ∈ mid) ∧
      (∀ b ∈ w.given, b.block ∉ mixed w.state.log) ∧
      (∀ len, ∃ w', w.step 2 (.get_random len) = .ok w') ∧
      ∀ c : Call, c.Allowed → w.step 2 c ≠ .error .spin := by
  let w0 : World := { state := csprng_init initial, given := [], history := [] }
  have h0 : Starts w0 := ⟨.inr rfl, rfl, rfl⟩
  obtain ⟨bytes, s', hs', hlen, -⟩ :=
    csprng_get_random.spec (good_start h0).state (Nat.le_refl 2) 100
  let w1 : World := { w0 with state := s', given := bytes }
  have hstep : w0.step 2 (.get_random 100) = .ok w1 := by
    simp only [World.step, hs', ok_bind]
    rfl
  have h1 : Run 2 w1 := .next (.start h0) (i := .get_random 100) trivial hstep
  exact ⟨w1, h1, hlen, no_key_serves_a_counter_twice (Nat.le_refl 2) h1⟩

/-! ## The reseeds -/

/-- The bytes that were added since `add_hash_pool` ran. -/
def since : List (Nat × Bool) → Nat
  | [] => 0
  | (n, ran) :: history => if ran then 0 else since history + n

/-- `add_hash_pool` ran exactly at the calls with a full pool: at least 40 bytes since it last
ran. -/
def Reseeded : List (Nat × Bool) → Prop
  | [] => True
  | (n, ran) :: history => (ran = true ↔ HASH_LEN * 2 ≤ since history + n) ∧ Reseeded history

/-- The bytes in a pool that is drained as soon as it is full. Only the sizes matter. -/
def level : List (Nat × Bool) → Nat
  | [] => 0
  | (n, _) :: history => if HASH_LEN * 2 ≤ level history + n then 0 else level history + n

/-- The sum of all sizes, modulo `2 ^ 32`, has been at least 40 exactly at the calls that fill a
pool. Only the sizes matter. -/
def Steady : List (Nat × Bool) → Prop
  | [] => True
  | (n, _) :: history =>
    (HASH_LEN * 2 ≤ (total history + n) % 2 ^ 32 ↔ HASH_LEN * 2 ≤ level history + n) ∧
      Steady history

theorem Reseeded.since_eq {history : List (Nat × Bool)} (h : Reseeded history) :
    since history = level history := by
  induction history with
  | nil => rfl
  | cons call history ih =>
    obtain ⟨n, ran⟩ := call
    obtain ⟨hran, hrest⟩ := h
    unfold since level
    rw [← ih hrest]
    by_cases hfull : HASH_LEN * 2 ≤ since history + n
    · rw [if_pos (hran.mpr hfull), if_pos hfull]
    · rw [if_neg (fun hr => hfull (hran.mp hr)), if_neg hfull]

/-- The counter is never set back, so it tells a full pool only for some sizes. -/
theorem Counted.reseeded_iff {history : List (Nat × Bool)} (h : Counted history) :
    Reseeded history ↔ Steady history := by
  induction history with
  | nil => exact Iff.rfl
  | cons call history ih =>
    obtain ⟨n, ran⟩ := call
    obtain ⟨hran, hrest⟩ := h
    constructor
    · rintro ⟨hright, hreseeded⟩
      refine ⟨?_, (ih hrest).mp hreseeded⟩
      rw [← hran, hright, hreseeded.since_eq]
    · rintro ⟨hfull, hsteady⟩
      have hreseeded := (ih hrest).mpr hsteady
      refine ⟨?_, hreseeded⟩
      rw [hran, hfull, hreseeded.since_eq]

/-- A call that brings a few bytes returns. -/
theorem World.Good.adds (h : w.Good) (hdepth : 2 ≤ depth) (buffer : List UInt8)
    (hlen : buffer.length + 64 ≤ 2 ^ 64) :
    ∃ w' ran, w.step depth (.add_entropy buffer) = .ok w' ∧
      w'.history = (buffer.length, ran) :: w.history := by
  have hspec := csprng_add_entropy.spec h.state hdepth buffer (by omega)
  have hreturns : Spec _ (fun _ => False) _ := spec_mono hspec (by omega) (fun _ hp => hp)
  obtain ⟨s', hs', -⟩ := spec_returns hreturns
  have hstep : w.step depth (.add_entropy buffer) = .ok { w with
      state := s'
      history := (buffer.length, decide (reseeds w.state.log < reseeds s'.log)) :: w.history } := by
    simp only [World.step, hs', ok_bind]
  exact ⟨_, _, hstep, rfl⟩

/-- The run of a call with 40 bytes and a call with one byte. -/
theorem forty_bytes_and_one : ∃ w, Run 2 w ∧ w.history = [(1, true), (40, true)] := by
  let w0 : World := { state := csprng_init initial, given := [], history := [] }
  have h0 : Run 2 w0 := .start ⟨.inr rfl, rfl, rfl⟩
  have hallowed : ∀ n, n ≤ 40 → (Call.add_entropy (List.replicate n 0)).Allowed := by
    intro n hn
    have hlen : (List.replicate n (0 : UInt8)).length = n := List.length_replicate
    exact Nat.lt_of_le_of_lt (hlen.trans_le hn) (by decide)
  obtain ⟨w1, ran1, hw1, hhistory1⟩ := (h0.good (Nat.le_refl 2)).adds (Nat.le_refl 2)
    (List.replicate 40 0) (by rw [List.length_replicate]; decide)
  have h1 : Run 2 w1 := .next h0 (hallowed 40 (by decide)) hw1
  obtain ⟨w2, ran2, hw2, hhistory2⟩ := (h1.good (Nat.le_refl 2)).adds (Nat.le_refl 2)
    (List.replicate 1 0) (by rw [List.length_replicate]; decide)
  have h2 : Run 2 w2 := .next h1 (hallowed 1 (by decide)) hw2
  have hhistory : w2.history = [(1, ran2), (40, ran1)] := by
    rw [hhistory2, hhistory1]
    rfl
  have hcounted := (h2.good (Nat.le_refl 2)).counted
  rw [hhistory] at hcounted
  obtain ⟨hran2, hran1, -⟩ := hcounted
  refine ⟨w2, h2, ?_⟩
  rw [hhistory, hran2.mpr (Nat.le_of_ble_eq_true rfl), hran1.mpr (Nat.le_of_ble_eq_true rfl)]

/-- In any run, the generator is reseeded only and always from a full pool exactly when the sum of
the sizes tells a full pool. -/
theorem reseeds_come_from_full_pools_iff_the_sizes_are_steady (hdepth : 2 ≤ depth)
    (h : Run depth w) : Reseeded w.history ↔ Steady w.history :=
  (h.good hdepth).counted.reseeded_iff

/-- The run of 40 bytes and one byte is not steady, and its last reseed comes too early. -/
theorem reseeds_come_from_full_pools_iff_the_sizes_are_steady_in_a_run :
    ∃ w, Run 2 w ∧ w.history = [(1, true), (40, true)] ∧
      (Reseeded w.history ↔ Steady w.history) := by
  obtain ⟨w, hrun, hhistory⟩ := forty_bytes_and_one
  exact ⟨w, hrun, hhistory,
    reseeds_come_from_full_pools_iff_the_sizes_are_steady (Nat.le_refl 2) hrun⟩

/-- One more byte reseeds the generator, when 40 bytes have. -/
theorem one_byte_reseeds : ∃ w, Run 2 w ∧ ¬ Reseeded w.history := by
  obtain ⟨w, hrun, hhistory⟩ := forty_bytes_and_one
  refine ⟨w, hrun, ?_⟩
  rw [hhistory]
  rintro ⟨hlast, -⟩
  exact absurd (hlast.mp rfl) (by decide)

end salsola.csprng
