-- Outcomes of a call: a value, or the reason why the call never returns.
-- The triple `Spec` over them, with the rules for `do` blocks, and the runs
-- of a machine whose steps have outcomes.
import Mathlib.Data.List.Basic

namespace outcome

variable {ε α β σ ι : Type}

/-! ## Triples -/

/-- A call that returns gives a value with `post`, and a call that never
returns stops for a reason with `halts`. -/
def Spec (x : Except ε α) (halts : ε → Prop) (post : α → Prop) : Prop :=
  match x with
  | .ok a => post a
  | .error e => halts e

@[simp] theorem spec_ok (a : α) (halts : ε → Prop) (post : α → Prop) :
    Spec (.ok a) halts post ↔ post a := Iff.rfl

@[simp] theorem spec_pure (a : α) (halts : ε → Prop) (post : α → Prop) :
    Spec (pure a) halts post ↔ post a := Iff.rfl

@[simp] theorem spec_error (e : ε) (halts : ε → Prop) (post : α → Prop) :
    Spec (.error e) halts post ↔ halts e := Iff.rfl

@[simp] theorem ok_bind (a : α) (f : α → Except ε β) : (Except.ok a >>= f) = f a := rfl

@[simp] theorem error_bind (e : ε) (f : α → Except ε β) :
    ((Except.error e : Except ε α) >>= f) = .error e := rfl

theorem spec_mono {x : Except ε α} {halts halts' : ε → Prop} {post post' : α → Prop}
    (h : Spec x halts post) (he : ∀ e, halts e → halts' e) (ha : ∀ a, post a → post' a) :
    Spec x halts' post' := by
  cases x with
  | ok a => exact ha a h
  | error e => exact he e h

theorem spec_post {x : Except ε α} {halts : ε → Prop} {post post' : α → Prop}
    (h : Spec x halts post) (ha : ∀ a, post a → post' a) : Spec x halts post' :=
  spec_mono h (fun _ he => he) ha

theorem spec_bind {x : Except ε α} {f : α → Except ε β} {halts : ε → Prop} {mid : α → Prop}
    {post : β → Prop} (h : Spec x halts mid) (hf : ∀ a, mid a → Spec (f a) halts post) :
    Spec (x >>= f) halts post := by
  cases x with
  | ok a => exact hf a h
  | error e => exact h

/-- What comes behind a call that never returns does not matter. -/
theorem spec_bind_never {x : Except ε α} {f : α → Except ε β} {halts : ε → Prop}
    {post : β → Prop} (h : Spec x halts (fun _ => False)) : Spec (x >>= f) halts post :=
  spec_bind h (fun _ hf => hf.elim)

theorem spec_and {x : Except ε α} {halts : ε → Prop} {post post' : α → Prop}
    (h : Spec x halts post) (h' : Spec x halts post') :
    Spec x halts (fun a => post a ∧ post' a) := by
  cases x with
  | ok a => exact ⟨h, h'⟩
  | error e => exact h

theorem spec_of_ok {x : Except ε α} {halts : ε → Prop} {post : α → Prop} {a : α}
    (h : Spec x halts post) (hx : x = .ok a) : post a := by
  subst hx; exact h

theorem spec_of_error {x : Except ε α} {halts : ε → Prop} {post : α → Prop} {e : ε}
    (h : Spec x halts post) (hx : x = .error e) : halts e := by
  subst hx; exact h

/-- A call that stops for no reason returns. -/
theorem spec_returns {x : Except ε α} {post : α → Prop} (h : Spec x (fun _ => False) post) :
    ∃ a, x = .ok a ∧ post a := by
  cases x with
  | ok a => exact ⟨a, rfl, h⟩
  | error e => exact h.elim

theorem bind_eq_ok {x : Except ε α} {f : α → Except ε β} {b : β} :
    (x >>= f) = .ok b ↔ ∃ a, x = .ok a ∧ f a = .ok b := by
  cases x with
  | ok a => simp
  | error e => simp

/-! ## Two calls -/

/-- When `x` returns, so does `y`, and their values are related. -/
def Mirrors (R : α → β → Prop) (x : Except ε α) (y : Except ε β) : Prop :=
  ∀ a, x = .ok a → ∃ b, y = .ok b ∧ R a b

theorem mirrors_ok {R : α → β → Prop} {a : α} {b : β} (h : R a b) :
    Mirrors R (.ok a : Except ε α) (.ok b) := by
  rintro _ ⟨⟩
  exact ⟨b, rfl, h⟩

theorem mirrors_error {R : α → β → Prop} {e : ε} {y : Except ε β} :
    Mirrors R (.error e : Except ε α) y := by
  rintro _ ⟨⟩

theorem mirrors_refl (x : Except ε α) : Mirrors Eq x x := fun a hx => ⟨a, hx, rfl⟩

theorem Mirrors.bind {R : α → β → Prop} {Q : σ → ι → Prop} {x : Except ε α} {y : Except ε β}
    {f : α → Except ε σ} {g : β → Except ε ι} (h : Mirrors R x y)
    (hf : ∀ a b, R a b → Mirrors Q (f a) (g b)) : Mirrors Q (x >>= f) (y >>= g) := by
  intro c hc
  obtain ⟨a, hx, hfa⟩ := bind_eq_ok.mp hc
  obtain ⟨b, hy, hab⟩ := h a hx
  obtain ⟨d, hgb, hcd⟩ := hf a b hab c hfa
  exact ⟨d, bind_eq_ok.mpr ⟨b, hy, hgb⟩, hcd⟩

theorem mirrors_ite {R : α → β → Prop} {p : Prop} [Decidable p] {x x' : Except ε α}
    {y y' : Except ε β} (h : p → Mirrors R x y) (h' : ¬ p → Mirrors R x' y') :
    Mirrors R (if p then x else x') (if p then y else y') := by
  by_cases hp : p
  · rw [if_pos hp, if_pos hp]
    exact h hp
  · rw [if_neg hp, if_neg hp]
    exact h' hp

/-! ## Runs -/

/-- The states that a machine reaches: from a start state, by steps that are
allowed and that return. -/
inductive Reach (start : σ → Prop) (allowed : σ → ι → Prop) (step : σ → ι → Except ε σ) :
    σ → Prop
  | start {s : σ} : start s → Reach start allowed step s
  | next {s s' : σ} {i : ι} : Reach start allowed step s → allowed s i → step s i = .ok s' →
      Reach start allowed step s'

/-- The states after each of some steps in a row. -/
def trace (step : σ → ι → Except ε σ) (s : σ) : List ι → Except ε (List σ)
  | [] => .ok []
  | i :: is => do
    let s' ← step s i
    let rest ← trace step s' is
    .ok (s' :: rest)

/-- What holds at the start and is kept by each step holds in each state of a run. -/
theorem Reach.invariant {start : σ → Prop} {allowed : σ → ι → Prop} {step : σ → ι → Except ε σ}
    (inv : σ → Prop) (h0 : ∀ s, start s → inv s)
    (hstep : ∀ s i s', inv s → allowed s i → step s i = .ok s' → inv s') {s : σ}
    (h : Reach start allowed step s) : inv s := by
  induction h with
  | start hs => exact h0 _ hs
  | next _ ha hs ih => exact hstep _ _ _ ih ha hs

/-- A run of allowed steps is a run of steps that a weaker rule allows. -/
theorem Reach.weaken {start : σ → Prop} {allowed allowed' : σ → ι → Prop}
    {step : σ → ι → Except ε σ} (hall : ∀ s i, allowed s i → allowed' s i) {s : σ}
    (h : Reach start allowed step s) : Reach start allowed' step s := by
  induction h with
  | start hs => exact .start hs
  | next _ ha hs ih => exact .next ih (hall _ _ ha) hs

/-- A run goes on where another one ended. -/
theorem Reach.trans {start : σ → Prop} {allowed : σ → ι → Prop} {step : σ → ι → Except ε σ}
    {s s' : σ} (h : Reach start allowed step s) (h' : Reach (· = s) allowed step s') :
    Reach start allowed step s' := by
  induction h' with
  | start hs => exact hs ▸ h
  | next _ ha hs ih => exact .next ih ha hs

end outcome
