-- What a call of vkcprintf does not depend on: the writer, what was written
-- and read before, and the count so far. And a scan of two formats in a row.
import Salsola.Kprintf

open scanner

namespace salsola.kprintf

variable {σ τ : Type} {write : σ → UInt8 → σ} {write' : τ → UInt8 → τ} {h : σ → τ}
  {rs : List CType} {around : Int → UInt8} {v v' : Vars} {n : Int}

/-! ## Counts -/

theorem to_int_add_left (a b : Int) : to_int (to_int a + b) = to_int (a + b) := by
  unfold to_int
  exact Int.bmod_add_bmod

theorem to_int_add_right (a b : Int) : to_int (a + to_int b) = to_int (a + b) := by
  unfold to_int
  exact Int.add_bmod_bmod

/-- The variables, with `n` characters written before. -/
def Vars.shift (n : Int) (v : Vars) : Vars := { v with rc := to_int (n + v.rc) }

@[simp] theorem shift_long_level (v : Vars) (n : Int) :
    (v.shift n).long_level = v.long_level := rfl

@[simp] theorem shift_cont (v : Vars) (n : Int) : (v.shift n).cont = v.cont := rfl

@[simp] theorem shift_width (v : Vars) (n : Int) : (v.shift n).width = v.width := rfl

@[simp] theorem shift_zero_padding (v : Vars) (n : Int) :
    (v.shift n).zero_padding = v.zero_padding := rfl

theorem shift_done (v : Vars) (n k : Int) : (v.shift n).done k = (v.done k).shift n := by
  unfold Vars.shift Vars.done
  simp only [to_int_add_left, to_int_add_right, Int.add_assoc]

theorem shift_close (v : Vars) (n : Int) : (v.shift n).close = v.close.shift n := by
  unfold Vars.close Vars.shift
  split <;> rfl

theorem shift_precise (v : Vars) (n : Int) : (v.shift n).precise = v.precise.shift n := by
  unfold Vars.precise Vars.shift
  split <;> rfl

/-! ## Other writers -/

/-- The environment of another writer, with the types `rs` read before. -/
def Env.map (h : σ → τ) (rs : List CType) (e : Env σ) : Env τ where
  ctx := h e.ctx
  args := e.args
  reads := rs ++ e.reads

/-- `h` takes the writer of `σ` to that of `τ`. -/
def Writes (write : σ → UInt8 → σ) (write' : τ → UInt8 → τ) (h : σ → τ) : Prop :=
  ∀ s c, h (write s c) = write' (h s) c

theorem carries_must {α β : Type} {φ : Env σ → Env τ} {ψ : α → β} {p : Prop} [Decidable p]
    {f : Unit → Print σ α} {g : Unit → Print τ β} (hf : Carries φ ψ (f ()) (g ())) :
    Carries φ ψ (must p >>= f) (must p >>= g) := by
  unfold must
  split
  · exact hf
  · exact fun _ => rfl

theorem carries_va_arg (h : σ → τ) (rs : List CType) (t : CType) :
    Carries (Env.map h rs) id (va_arg t) (va_arg t) := by
  intro e
  unfold va_arg Env.map
  dsimp only
  cases e.args with
  | nil =>
    rw [List.append_assoc]
    rfl
  | cons arg args =>
    dsimp only
    rw [List.append_assoc]
    cases arg.as t with
    | none => rfl
    | some v => rfl

theorem carries_put (hh : Writes write write' h) (cs : Str) :
    Carries (Env.map h rs) id (put write cs) (put write' cs) := by
  intro e
  have hfold : ∀ s, h (cs.foldl write s) = cs.foldl write' (h s) := by
    induction cs with
    | nil => exact fun _ => rfl
    | cons c cs ih =>
      intro s
      rw [List.foldl_cons, List.foldl_cons, ih, hh]
  unfold put Env.map
  dsimp only
  rw [← hfold]
  rfl

theorem carries_print_str (hh : Writes write write' h) (str : Str) (width : Int)
    (zero_padding right_padding : Bool) :
    Carries (Env.map h rs) id (print_str write str width zero_padding right_padding)
      (print_str write' str width zero_padding right_padding) := by
  unfold print_str
  cases right_padding with
  | false =>
    apply (carries_put hh _).bind
    intro _
    apply (carries_put hh _).bind
    intro _
    exact carries_same _ _
  | true =>
    apply (carries_put hh _).bind
    intro _
    apply (carries_put hh _).bind
    intro _
    exact carries_same _ _

theorem carries_print_num (hh : Writes write write' h) (n base : Int) (char_set : Int → UInt8)
    (width : Int) (zero_padding right_padding : Bool) :
    Carries (Env.map h rs) id (print_num write n base char_set width zero_padding right_padding)
      (print_num write' n base char_set width zero_padding right_padding) :=
  carries_print_str hh _ _ _ _

theorem carries_print_unum (hh : Writes write write' h) (n : UInt64) (base : Int)
    (char_set : Int → UInt8) (width : Int) (zero_padding right_padding : Bool) :
    Carries (Env.map h rs) id (print_unum write n base char_set width zero_padding right_padding)
      (print_unum write' n base char_set width zero_padding right_padding) :=
  carries_print_str hh _ _ _ _

theorem carries_print_string (hh : Writes write write' h) (s : Str) (width : Int)
    (right_padding : Bool) (precision : Int) :
    Carries (Env.map h rs) id (print_string write s width right_padding precision)
      (print_string write' s width right_padding precision) := by
  unfold print_string
  cases right_padding with
  | false =>
    by_cases hwidth : width ≠ 0
    · simp only [Bool.not_false, if_true, if_pos hwidth]
      apply carries_must
      apply (carries_put hh _).bind
      intro _
      apply (carries_put hh _).bind
      intro _
      exact carries_same _ _
    · simp only [Bool.not_false, if_true, if_neg hwidth]
      apply (carries_put hh _).bind
      intro _
      apply (carries_put hh _).bind
      intro _
      exact carries_same _ _
  | true =>
    apply (carries_put hh _).bind
    intro _
    apply carries_must
    apply (carries_put hh _).bind
    intro _
    exact carries_same _ _

theorem carries_parse_loop (φ : Env σ → Env τ) (i : Nat) (rc : Int) (s : Str) :
    Carries φ id (parse_loop i rc s) (parse_loop i rc s) := by
  induction s generalizing i rc with
  | nil => exact carries_same φ _
  | cons c s ih =>
    unfold parse_loop
    split
    · exact carries_must (carries_same φ _)
    · split
      · exact carries_same φ _
      · exact ih _ _

/-- A turn with another writer, after `n` characters and after the types `rs`. -/
abbrev Shifts (h : σ → τ) (rs : List CType) (n : Int) :
    Print σ (Vars × Nat) → Print τ (Vars × Nat) → Prop :=
  Carries (Env.map h rs) (fun r => (r.1.shift n, r.2))

/-- A conversion of an argument adds the characters that it writes. -/
theorem shifts_done {t : CType} {f : t.Value → Print σ Int} {g : t.Value → Print τ Int}
    (hf : ∀ a, Carries (Env.map h rs) id (f a) (g a)) (v : Vars) (n : Int) (close : Vars → Vars)
    (hclose : ∀ v : Vars, close (v.shift n) = (close v).shift n) :
    Shifts h rs n
      (do
        let a ← va_arg t
        let k ← f a
        pure (close (v.done k), 0))
      (do
        let a ← va_arg t
        let k ← g a
        pure (close ((v.shift n).done k), 0)) := by
  apply (carries_va_arg h rs t).bind
  intro a
  apply (hf a).bind
  intro k
  apply carries_pure
  rw [id, shift_done, hclose]

theorem shifts_directive (hh : Writes write write' h) (rs : List CType) (n : Int) (v : Vars)
    (c : UInt8) (rest : Str) :
    Shifts h rs n (directive write around v c rest)
      (directive write' around (v.shift n) c rest) := by
  have hint : ∀ a width zero_padding right_padding, Carries (Env.map h rs) id
      (print_int write around a width zero_padding right_padding)
      (print_int write' around a width zero_padding right_padding) :=
    fun _ _ _ _ => carries_print_num hh _ _ _ _ _ _
  unfold directive
  cases case_of c with
  | period =>
    apply carries_must
    apply (carries_parse_loop _ _ _ _).bind
    rintro ⟨precision, k⟩
    apply carries_must
    split
    · apply (carries_va_arg h rs .int).bind
      intro a
      apply carries_pure
      simp only [Vars.shift, id]
    · exact carries_pure _ rfl
  | zero =>
    dsimp only
    rw [shift_width, shift_zero_padding]
    apply carries_pure
    simp only [Vars.shift]
  | minus =>
    apply carries_must
    exact carries_pure _ rfl
  | digit => exact carries_pure _ rfl
  | l =>
    apply carries_must
    exact carries_pure _ rfl
  | d =>
    dsimp only
    rw [shift_precise, shift_long_level]
    by_cases hlong : v.precise.long_level = 2 ∨ v.precise.long_level = 1
    · rw [if_pos hlong, if_pos hlong]
      exact shifts_done (fun a => hint _ _ _ _) v.precise n (fun v => { v with long_level := 0 })
        (fun _ => rfl)
    · rw [if_neg hlong, if_neg hlong]
      exact shifts_done (fun a => hint _ _ _ _) v.precise n (fun v => { v with long_level := 0 })
        (fun _ => rfl)
  | u =>
    apply carries_must
    rw [shift_long_level]
    by_cases hlong : v.long_level = 2 ∨ v.long_level = 1
    · rw [if_pos hlong, if_pos hlong]
      exact shifts_done (fun a => hint _ _ _ _) v n id (fun _ => rfl)
    · rw [if_neg hlong, if_neg hlong]
      exact shifts_done (fun a => hint _ _ _ _) v n id (fun _ => rfl)
  | s =>
    apply carries_must
    exact shifts_done (fun a => carries_print_string hh _ _ _ _) v n id (fun _ => rfl)
  | x =>
    apply carries_must
    exact shifts_done (fun a => carries_print_unum hh _ _ _ _ _ _) v n id (fun _ => rfl)
  | o =>
    apply carries_must
    exact shifts_done (fun a => carries_print_num hh _ _ _ _ _ _) v n id (fun _ => rfl)
  | percent =>
    apply (carries_put hh _).bind
    intro _
    apply carries_pure
    rw [shift_done]
  | c =>
    apply (carries_va_arg h rs .int).bind
    intro a
    apply (carries_put hh _).bind
    intro _
    apply carries_pure
    rw [shift_done]
  | default => exact carries_throw _ _ _

theorem shifts_turn (hh : Writes write write' h) (rs : List CType) (n : Int) (v : Vars) (c : UInt8)
    (rest : Str) :
    Shifts h rs n (turn write around v c rest) (turn write' around (v.shift n) c rest) := by
  unfold turn
  rw [shift_cont]
  by_cases hplain : v.cont = false ∧ c ≠ char '%'
  · rw [if_pos hplain, if_pos hplain]
    apply (carries_put hh _).bind
    intro _
    apply carries_pure
    simp only [Vars.shift, to_int_add_left, to_int_add_right, Int.add_assoc]
  · rw [if_neg hplain, if_neg hplain]
    by_cases hopen : v.cont = false
    · rw [if_pos hopen, if_pos hopen]
      exact carries_pure _ rfl
    · rw [if_neg hopen, if_neg hopen]
      apply (shifts_directive hh rs n v c rest).bind
      rintro ⟨v', k⟩
      apply carries_pure
      rw [shift_close]

/-- A scan with another writer, after `n` characters and after the types `rs`. -/
theorem shifts_scan (around : Int → UInt8) (hh : Writes write write' h) (rs : List CType) (n : Int)
    (v : Vars) (k : Nat) (cs : Str) :
    Carries (Env.map h rs) (Vars.shift n) (scan (turn write around) v k cs)
      (scan (turn write' around) (v.shift n) k cs) :=
  carries_scan (fun v c cs => shifts_turn hh rs n v c cs) v k cs

/-! ## Formats in a row -/

/-- `parse_precision` sees no more than the character that ends the number. -/
theorem parse_loop_append {i k : Nat} {rc precision : Int} {s ds : Str} {e e' : Env σ}
    (h : parse_loop i rc s e = .ok (precision, k) e') (hk : k ≤ i + s.length) :
    parse_loop i rc (s ++ ds) e = .ok (precision, k) e' := by
  induction s generalizing i rc with
  | nil =>
    cases h
    rw [List.length_nil] at hk
    omega
  | cons c s ih =>
    rw [List.cons_append]
    unfold parse_loop at h ⊢
    split at h
    · rename_i hstar
      rw [if_pos hstar]
      exact h
    · rename_i hstar
      rw [if_neg hstar]
      split at h
      · rename_i hdigit
        rw [if_pos hdigit]
        exact h
      · rename_i hdigit
        rw [if_neg hdigit]
        rw [List.length_cons] at hk
        exact ih h (by omega)

/-- Only a period looks at the characters behind it. -/
theorem directive_plain (write : σ → UInt8 → σ) (around : Int → UInt8) {c : UInt8}
    (hc : case_of c ≠ .period) (v : Vars) (cs ds : Str) :
    directive write around v c (cs ++ ds) = directive write around v c cs ∧
      Gives (fun r => r.2 = 0) (directive write around v c cs) := by
  unfold directive
  cases hcase : case_of c with
  | period => exact absurd hcase hc
  | zero => exact ⟨rfl, gives_pure rfl⟩
  | minus => exact ⟨rfl, gives_bind fun _ => gives_pure rfl⟩
  | digit => exact ⟨rfl, gives_pure rfl⟩
  | l => exact ⟨rfl, gives_bind fun _ => gives_pure rfl⟩
  | d =>
    refine ⟨rfl, ?_⟩
    dsimp only
    split
    · exact gives_bind fun _ => gives_bind fun _ => gives_pure rfl
    · exact gives_bind fun _ => gives_bind fun _ => gives_pure rfl
  | u =>
    refine ⟨rfl, gives_bind fun _ => ?_⟩
    split
    · exact gives_bind fun _ => gives_bind fun _ => gives_pure rfl
    · exact gives_bind fun _ => gives_bind fun _ => gives_pure rfl
  | s => exact ⟨rfl, gives_bind fun _ => gives_bind fun _ => gives_bind fun _ => gives_pure rfl⟩
  | x => exact ⟨rfl, gives_bind fun _ => gives_bind fun _ => gives_bind fun _ => gives_pure rfl⟩
  | o => exact ⟨rfl, gives_bind fun _ => gives_bind fun _ => gives_bind fun _ => gives_pure rfl⟩
  | percent => exact ⟨rfl, gives_bind fun _ => gives_pure rfl⟩
  | c => exact ⟨rfl, gives_bind fun _ => gives_bind fun _ => gives_pure rfl⟩
  | default => exact ⟨rfl, gives_throw _ _⟩

theorem must_of {p : Prop} [Decidable p] (hp : p) (e : Env σ) : must p e = .ok () e := by
  unfold must
  rw [if_pos hp]
  rfl

theorem must_fails {p : Prop} [Decidable p] (hp : ¬ p) (e : Env σ) :
    must p e = .error .assert e := by
  unfold must
  rw [if_neg hp]
  rfl

theorem must_eq_ok {p : Prop} [Decidable p] {e e' : Env σ} {u : Unit} :
    must p e = .ok u e' ↔ p ∧ e' = e := by
  by_cases hp : p
  · rw [must_of hp]
    constructor
    · intro h
      cases h
      exact ⟨hp, rfl⟩
    · rintro ⟨-, rfl⟩
      rfl
  · rw [must_fails hp]
    constructor
    · intro h
      cases h
    · rintro ⟨h, -⟩
      exact absurd h hp

theorem directive_append {c : UInt8} {cs : Str} (ds : Str) {k : Nat} {e e' : Env σ}
    (h : directive write around v c cs e = .ok (v', k) e') :
    directive write around v c (cs ++ ds) e = .ok (v', k) e' ∧ k ≤ cs.length := by
  by_cases hc : case_of c = .period
  · unfold directive at h ⊢
    rw [hc] at h ⊢
    dsimp only at h ⊢
    obtain ⟨_, e1, hmust1, h1⟩ := bind_eq_ok.mp h
    obtain ⟨hne, he1⟩ := must_eq_ok.mp hmust1
    obtain ⟨⟨precision, k1⟩, e2, hparse, h2⟩ := bind_eq_ok.mp h1
    obtain ⟨_, e3, hmust2, h3⟩ := bind_eq_ok.mp h2
    obtain ⟨hk, he3⟩ := must_eq_ok.mp hmust2
    have hk1 : k1 ≤ cs.length := hk
    rw [he1] at hparse
    rw [he3] at h3
    have hgives : k = k1 := by
      dsimp only at h3
      split at h3
      · obtain ⟨a, e4, -, h4⟩ := bind_eq_ok.mp h3
        cases h4
        rfl
      · cases h3
        rfl
    have hne' : cs ++ ds ≠ [] := fun hnil => hne (List.append_eq_nil_iff.mp hnil).1
    have hk' : k1 ≤ (cs ++ ds).length := by
      rw [List.length_append]
      omega
    have hparse' : parse_precision (cs ++ ds) e = .ok (precision, k1) e2 :=
      parse_loop_append hparse (by omega)
    refine ⟨?_, by omega⟩
    rw [run_bind_ok (must_of hne' e), run_bind_ok hparse', run_bind_ok (must_of hk' e2)]
    exact h3
  · obtain ⟨hsame, hgives⟩ := directive_plain write around hc v cs ds
    have hk : k = 0 := hgives _ _ _ h
    exact ⟨hsame.symm ▸ h, by omega⟩

theorem local_turn : Local (turn write around) := by
  intro v c cs ds e v' k e' h
  unfold turn at h ⊢
  split at h
  · rename_i hplain
    rw [if_pos hplain]
    cases h
    exact ⟨rfl, Nat.zero_le _⟩
  · rename_i hplain
    rw [if_neg hplain]
    split at h
    · rename_i hopen
      rw [if_pos hopen]
      cases h
      exact ⟨rfl, Nat.zero_le _⟩
    · rename_i hopen
      rw [if_neg hopen]
      obtain ⟨⟨v1, k1⟩, e1, hdir, h⟩ := bind_eq_ok.mp h
      cases h
      obtain ⟨hmore, hk⟩ := directive_append ds hdir
      exact ⟨run_bind_ok hmore, hk⟩

end salsola.kprintf
