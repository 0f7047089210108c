-- Programs with a state that an error keeps, and scanners: programs that go
-- over a list, where one turn may look at the elements behind its own one and
-- take some of them along.
import Mathlib.Data.Nat.Init
import Mathlib.Tactic.Common

namespace scanner

variable {ε σ τ α β γ δ : Type} {p : EStateM ε σ α} {q : EStateM ε τ β} {s s' : σ} {a : α} {e : ε}

/-! ## Programs -/

theorem run_bind (p : EStateM ε σ α) (f : α → EStateM ε σ γ) (s : σ) : (p >>= f) s =
    match p s with
    | .ok a s' => f a s'
    | .error e s' => .error e s' := rfl

theorem run_bind_ok {f : α → EStateM ε σ γ} (h : p s = .ok a s') : (p >>= f) s = f a s' := by
  rw [run_bind, h]

theorem run_bind_error {f : α → EStateM ε σ γ} (h : p s = .error e s') :
    (p >>= f) s = .error e s' := by
  rw [run_bind, h]

theorem bind_eq_ok {f : α → EStateM ε σ γ} {c : γ} :
    (p >>= f) s = .ok c s' ↔ ∃ a s1, p s = .ok a s1 ∧ f a s1 = .ok c s' := by
  rw [run_bind]
  constructor
  · intro h
    cases hp : p s with
    | ok a s1 =>
      rw [hp] at h
      exact ⟨a, s1, rfl, h⟩
    | error e s1 =>
      rw [hp] at h
      cases h
  · rintro ⟨a, s1, hp, hf⟩
    rw [hp]
    exact hf

/-- The state at the end, by a return or by an error. -/
def last : EStateM.Result ε σ α → σ
  | .ok _ s => s
  | .error _ s => s

/-- What comes back, or the error. -/
def value : EStateM.Result ε σ α → Except ε α
  | .ok a _ => .ok a
  | .error e _ => .error e

/-- The values and the states of a result, mapped. -/
def carry (φ : σ → τ) (ψ : α → β) : EStateM.Result ε σ α → EStateM.Result ε τ β
  | .ok a s => .ok (ψ a) (φ s)
  | .error e s => .error e (φ s)

@[simp] theorem last_carry (φ : σ → τ) (ψ : α → β) (r : EStateM.Result ε σ α) :
    last (carry φ ψ r) = φ (last r) := by
  cases r <;> rfl

@[simp] theorem value_carry (φ : σ → τ) (ψ : α → β) (r : EStateM.Result ε σ α) :
    value (carry φ ψ r) = (value r).map ψ := by
  cases r <;> rfl

/-- The program `q` does on mapped states what `p` does on the states, and gives mapped values. -/
def Carries (φ : σ → τ) (ψ : α → β) (p : EStateM ε σ α) (q : EStateM ε τ β) : Prop :=
  ∀ s, q (φ s) = carry φ ψ (p s)

theorem carries_pure (φ : σ → τ) {ψ : α → β} {a : α} {b : β} (h : b = ψ a) :
    Carries φ ψ (pure a : EStateM ε σ α) (pure b) := by
  intro s
  rw [h]
  rfl

theorem carries_same (φ : σ → τ) (a : α) :
    Carries φ id (pure a : EStateM ε σ α) (pure a) := fun _ => rfl

theorem carries_throw (φ : σ → τ) (ψ : α → β) (e : ε) :
    Carries φ ψ (throw e : EStateM ε σ α) (throw e) := fun _ => rfl

theorem carries_refl (p : EStateM ε σ α) : Carries id id p p := by
  intro s
  unfold carry
  dsimp only [id]
  cases p s <;> rfl

theorem Carries.bind {φ : σ → τ} {ψ : α → β} {χ : γ → δ} {f : α → EStateM ε σ γ}
    {g : β → EStateM ε τ δ} (h : Carries φ ψ p q) (hf : ∀ a, Carries φ χ (f a) (g (ψ a))) :
    Carries φ χ (p >>= f) (q >>= g) := by
  intro s
  rw [run_bind, run_bind, h s]
  cases p s with
  | ok a s' => exact hf a s'
  | error e s' => rfl

/-- Whatever the program returns has the property. -/
def Gives (P : α → Prop) (p : EStateM ε σ α) : Prop := ∀ s a s', p s = .ok a s' → P a

theorem gives_pure {P : α → Prop} (h : P a) : Gives P (pure a : EStateM ε σ α) := by
  intro s a' s' heq
  cases heq
  exact h

theorem gives_throw (P : α → Prop) (e : ε) : Gives P (throw e : EStateM ε σ α) := by
  intro s a s' heq
  cases heq

theorem gives_bind {P : γ → Prop} {f : α → EStateM ε σ γ} (h : ∀ a, Gives P (f a)) :
    Gives P (p >>= f) := by
  intro s c s' heq
  obtain ⟨a, s1, -, hf⟩ := bind_eq_ok.mp heq
  exact h a s1 c s' hf

theorem ok_of_value {r : EStateM.Result ε σ α} (h : value r = .ok a) : r = .ok a (last r) := by
  cases r with
  | ok a' s' =>
    cases h
    rfl
  | error e s' => cases h

/-- A program that ends with an error makes what begins with it end so. -/
theorem value_bind_error {f : α → EStateM ε σ γ} (h : value (p s) = .error e) :
    value ((p >>= f) s) = .error e := by
  rw [run_bind]
  cases hp : p s with
  | ok a s' =>
    rw [hp] at h
    cases h
  | error e' s' =>
    rw [hp] at h
    exact Except.error.inj h ▸ rfl

/-- What the program does when it ends well, it also does on the mapped state. -/
def Stable (φ : σ → σ) (p : EStateM ε σ α) : Prop :=
  ∀ s a s', p s = .ok a s' → p (φ s) = .ok a (φ s')

theorem stable_pure (φ : σ → σ) (a : α) : Stable φ (pure a : EStateM ε σ α) := by
  intro s a' s' heq
  cases heq
  rfl

theorem stable_throw (φ : σ → σ) (e : ε) : Stable φ (throw e : EStateM ε σ α) := by
  intro s a s' heq
  cases heq

theorem Stable.bind {φ : σ → σ} {f : α → EStateM ε σ γ} (h : Stable φ p)
    (hf : ∀ a, Stable φ (f a)) : Stable φ (p >>= f) := by
  intro s c s' heq
  obtain ⟨a, s1, hp, hfa⟩ := bind_eq_ok.mp heq
  rw [run_bind_ok (h s a s1 hp)]
  exact hf a s1 c s' hfa

/-! ## Scanners -/

/-- Runs `turn` over a list, with the number of elements that it takes along behind its own one. -/
def scan (turn : σ → α → List α → EStateM ε τ (σ × Nat)) : σ → Nat → List α → EStateM ε τ σ
  | v, _, [] => pure v
  | v, k + 1, _ :: cs => scan turn v k cs
  | v, 0, c :: cs => do
    let (v, k) ← turn v c cs
    scan turn v k cs

variable {turn : σ → α → List α → EStateM ε τ (σ × Nat)} {v v' : σ} {t t' : τ} {k : Nat}
  {c : α} {cs ds : List α}

@[simp] theorem scan_nil : scan turn v k [] = pure v := by
  cases k <;> rfl

@[simp] theorem scan_skip : scan turn v (k + 1) (c :: cs) = scan turn v k cs := rfl

theorem scan_cons :
    scan turn v 0 (c :: cs) = turn v c cs >>= fun (v, k) => scan turn v k cs := rfl

theorem scan_ok (h : turn v c cs t = .ok (v', k) t') :
    scan turn v 0 (c :: cs) t = scan turn v' k cs t' := run_bind_ok h

theorem scan_error (h : turn v c cs t = .error e t') :
    scan turn v 0 (c :: cs) t = .error e t' := run_bind_error h

/-- A turn that ends well takes along only what is there, and sees no more of the list. -/
def Local (turn : σ → α → List α → EStateM ε τ (σ × Nat)) : Prop :=
  ∀ v c cs ds t v' k t', turn v c cs t = .ok (v', k) t' →
    turn v c (cs ++ ds) t = .ok (v', k) t' ∧ k ≤ cs.length

/-- A scan that ends well goes on with what stands behind the list. -/
theorem Local.scan_append (h : Local turn) (ds : List α) (hk : k ≤ cs.length)
    (hscan : scan turn v k cs t = .ok v' t') :
    scan turn v k (cs ++ ds) t = scan turn v' 0 ds t' := by
  induction cs generalizing v k t with
  | nil =>
    obtain rfl : k = 0 := Nat.le_zero.mp hk
    rw [scan_nil] at hscan
    cases hscan
    rfl
  | cons c cs ih =>
    cases k with
    | succ k => exact ih (Nat.le_of_succ_le_succ hk) hscan
    | zero =>
      rw [scan_cons] at hscan
      obtain ⟨⟨v1, k1⟩, t1, hturn, hrest⟩ := bind_eq_ok.mp hscan
      obtain ⟨hmore, hk1⟩ := h v c cs ds t v1 k1 t1 hturn
      rw [List.cons_append, scan_ok hmore]
      exact ih hk1 hrest

/-- The turns lead from the first variables, list and state to the second ones. -/
inductive Reaches (turn : σ → α → List α → EStateM ε τ (σ × Nat)) :
    σ → List α → τ → σ → List α → τ → Prop
  | refl (v : σ) (cs : List α) (t : τ) : Reaches turn v cs t v cs t
  | turn {v v1 v' : σ} {c : α} {cs ds : List α} {t t1 t' : τ} {k : Nat}
      (h : turn v c cs t = .ok (v1, k) t1) (hrest : Reaches turn v1 (cs.drop k) t1 v' ds t') :
      Reaches turn v (c :: cs) t v' ds t'

theorem scan_drop (v : σ) (k : Nat) (cs : List α) :
    scan turn v k cs = scan turn v 0 (cs.drop k) := by
  induction cs generalizing k with
  | nil =>
    rw [List.drop_nil, scan_nil, scan_nil]
  | cons c cs ih =>
    cases k with
    | zero => rfl
    | succ k => exact ih k

/-- The scan goes on from where its turns lead. -/
theorem Reaches.scan (h : Reaches turn v cs t v' ds t') :
    scan turn v 0 cs t = scan turn v' 0 ds t' := by
  induction h with
  | refl => rfl
  | turn hturn _ ih => rw [scan_ok hturn, scan_drop, ih]

theorem Reaches.trans {v'' : σ} {es : List α} {t'' : τ} (h : Reaches turn v cs t v' ds t')
    (h' : Reaches turn v' ds t' v'' es t'') : Reaches turn v cs t v'' es t'' := by
  induction h with
  | refl => exact h'
  | turn hturn _ ih => exact .turn hturn (ih h')

theorem reaches_one {k : Nat} (h : turn v c cs t = .ok (v', k) t') :
    Reaches turn v (c :: cs) t v' (cs.drop k) t' := .turn h (.refl _ _ _)

/-- What each turn keeps of the variables holds wherever the turns lead. -/
theorem Reaches.keeps {P : σ → Prop} (h : Reaches turn v cs t v' ds t')
    (hturn : ∀ v c cs, P v → Gives (fun r : σ × Nat => P r.1) (turn v c cs)) (hv : P v) : P v' := by
  induction h with
  | refl => exact hv
  | turn h _ ih => exact ih (hturn _ _ _ hv _ _ _ h)

/-- A scan with mapped turns is the mapped scan. -/
theorem carries_scan {τ' σ' : Type} {turn' : σ' → α → List α → EStateM ε τ' (σ' × Nat)}
    {φ : τ → τ'} {ψ : σ → σ'}
    (h : ∀ v c cs, Carries φ (fun r : σ × Nat => (ψ r.1, r.2)) (turn v c cs) (turn' (ψ v) c cs))
    (v : σ) (k : Nat) (cs : List α) :
    Carries φ ψ (scan turn v k cs) (scan turn' (ψ v) k cs) := by
  induction cs generalizing v k with
  | nil =>
    rw [scan_nil, scan_nil]
    exact carries_pure φ rfl
  | cons c cs ih =>
    cases k with
    | succ k => exact ih v k
    | zero =>
      rw [scan_cons, scan_cons]
      exact (h v c cs).bind (fun r => ih r.1 r.2)

theorem stable_scan {φ : τ → τ} (h : ∀ v c cs, Stable φ (turn v c cs)) (v : σ) (k : Nat)
    (cs : List α) : Stable φ (scan turn v k cs) := by
  induction cs generalizing v k with
  | nil =>
    rw [scan_nil]
    exact stable_pure φ v
  | cons c cs ih =>
    cases k with
    | succ k => exact ih v k
    | zero =>
      rw [scan_cons]
      exact (h v c cs).bind fun r => ih r.1 r.2

/-- What each turn keeps of the variables, the scan keeps. -/
theorem scan_keeps {P : σ → Prop}
    (h : ∀ v c cs, P v → Gives (fun r : σ × Nat => P r.1) (turn v c cs)) (hv : P v) (k : Nat)
    (cs : List α) : Gives P (scan turn v k cs) := by
  induction cs generalizing v k with
  | nil =>
    rw [scan_nil]
    exact gives_pure hv
  | cons c cs ih =>
    cases k with
    | succ k => exact ih hv k
    | zero =>
      intro t v' t' heq
      rw [scan_cons] at heq
      obtain ⟨⟨v1, k1⟩, t1, hturn, hrest⟩ := bind_eq_ok.mp heq
      exact ih (h v c cs hv t (v1, k1) t1 hturn) k1 t1 v' t' hrest

end scanner
