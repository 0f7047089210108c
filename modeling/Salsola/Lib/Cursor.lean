-- Programs that read an array by positions, against programs that are given the elements.
-- A walk notes each position that it reads, so that its reads can be bounded, and it says so
-- when its fuel does not last.
import Salsola.Lib.Scan

open scanner

namespace cursor

/-- A state, and the positions that were read so far. -/
structure Watch (σ : Type) where
  state : σ
  seen : List Nat

/-- What stops a walk: an error of the program, or a loop that has no end. -/
inductive Stop (ε : Type)
  | error (e : ε)
  | spin
deriving DecidableEq

abbrev Walk (ε σ : Type) := EStateM (Stop ε) (Watch σ)

variable {ε σ α β γ δ κ : Type}

/-- Reads the element at `s`. -/
def peek (m : Nat → κ) (s : Nat) : Walk ε σ κ := fun w =>
  .ok (m s) { w with seen := w.seen ++ [s] }

/-- A part that reads nothing of the array. -/
def lift (p : EStateM ε σ α) : Walk ε σ α := fun w =>
  match p w.state with
  | .ok a s => .ok a { w with state := s }
  | .error e s => .error (.error e) { w with state := s }

/-- The result of a program as that of a walk. -/
def watched (f : α → β) (seen : List Nat) :
    EStateM.Result ε σ α → EStateM.Result (Stop ε) (Watch σ) β
  | .ok a s => .ok (f a) ⟨s, seen⟩
  | .error e s => .error (.error e) ⟨s, seen⟩

/-- The walk does what the program does, and reads no position past `n`. -/
def Tracks (n : Nat) (f : α → β) (p : EStateM ε σ α) (q : Walk ε σ β) : Prop :=
  ∀ s seen, ∃ more, (∀ x ∈ more, x ≤ n) ∧ q ⟨s, seen⟩ = watched f (seen ++ more) (p s)

variable {n i : Nat} {f : α → β} {p : EStateM ε σ α} {q : Walk ε σ β} {m : Nat → κ}

theorem tracks_pure {a : α} {b : β} (h : b = f a) :
    Tracks n f (pure a : EStateM ε σ α) (pure b) := by
  intro s seen
  rw [h]
  exact ⟨[], by simp, by rw [List.append_nil]; rfl⟩

theorem tracks_lift (n : Nat) (p : EStateM ε σ α) : Tracks n id p (lift p) := by
  intro s seen
  refine ⟨[], by simp, ?_⟩
  rw [List.append_nil]
  unfold lift watched
  dsimp only
  cases p s <;> rfl

/-- A read in front, within the bound. -/
theorem Tracks.peek {g : κ → Walk ε σ β} (hi : i ≤ n) (h : Tracks n f p (g (m i))) :
    Tracks n f p (cursor.peek m i >>= g) := by
  intro s seen
  obtain ⟨more, hmore, heq⟩ := h s (seen ++ [i])
  refine ⟨i :: more, ?_, ?_⟩
  · rw [List.forall_mem_cons]
    exact ⟨hi, hmore⟩
  · rw [List.append_cons, ← heq]
    rfl

/-- Only what the program gives has to be followed. -/
theorem Tracks.bind {g : γ → δ} {k : α → EStateM ε σ γ} {k' : β → Walk ε σ δ} (h : Tracks n f p q)
    (hk : ∀ a s s', p s = .ok a s' → Tracks n g (k a) (k' (f a))) :
    Tracks n g (p >>= k) (q >>= k') := by
  intro s seen
  obtain ⟨more, hmore, heq⟩ := h s seen
  rw [run_bind, run_bind, heq]
  cases hp : p s with
  | ok a s1 =>
    obtain ⟨more', hmore', heq'⟩ := hk a s s1 hp s1 (seen ++ more)
    refine ⟨more ++ more', ?_, ?_⟩
    · intro x hx
      rcases List.mem_append.mp hx with hx | hx
      · exact hmore x hx
      · exact hmore' x hx
    · rw [← List.append_assoc]
      exact heq'
  | error e s1 => exact ⟨more, hmore, rfl⟩

/-! ## Strings -/

/-- The elements from `i` up to `n`. -/
def text (m : Nat → κ) (i n : Nat) : List κ := (List.range' i (n - i)).map m

theorem text_end (m : Nat → κ) (n : Nat) : text m n n = [] := by
  unfold text
  rw [Nat.sub_self]
  rfl

theorem text_cons (m : Nat → κ) (h : i < n) : text m i n = m i :: text m (i + 1) n := by
  unfold text
  obtain ⟨k, rfl⟩ : ∃ k, n = i + (k + 1) := ⟨n - i - 1, by omega⟩
  rw [Nat.add_sub_cancel_left, show i + (k + 1) - (i + 1) = k by omega, List.range'_succ,
    List.map_cons]

theorem text_length (m : Nat → κ) (i n : Nat) : (text m i n).length = n - i := by
  unfold text
  rw [List.length_map, List.length_range']

theorem text_drop (m : Nat → κ) (i k n : Nat) : (text m i n).drop k = text m (i + k) n := by
  unfold text
  rw [← List.map_drop, List.drop_range', Nat.mul_one, show n - i - k = n - (i + k) by omega]

end cursor
