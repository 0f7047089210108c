-- Two formats in a row: what the first one leaves behind, and when the second
-- one does what it does on its own.
import Salsola.KprintfBuffer

open scanner

namespace salsola.kprintf

variable {σ : Type} {write : σ → UInt8 → σ} {around : Int → UInt8} {v v' : Vars} {k : Nat}
  {f g cs : Str} {A B : List Arg} {e e' : Env Str}

/-! ## Arguments that come later -/

/-- The environment with more arguments behind the others. -/
def Env.more (B : List Arg) (e : Env σ) : Env σ := { e with args := e.args ++ B }

theorem stable_must (p : Prop) [Decidable p] :
    Stable (Env.more B) (must p : Print σ Unit) := by
  intro e a e' h
  obtain ⟨hp, rfl⟩ := must_eq_ok.mp h
  exact must_of hp _

theorem stable_va_arg (t : CType) : Stable (Env.more B) (va_arg t : Print σ t.Value) := by
  intro e a e' h
  unfold va_arg Env.more at *
  dsimp only at h ⊢
  cases hargs : e.args with
  | nil =>
    rw [hargs] at h
    cases h
  | cons arg args =>
    rw [hargs] at h
    dsimp only at h
    rw [List.cons_append]
    dsimp only
    cases harg : arg.as t with
    | none =>
      rw [harg] at h
      cases h
    | some w =>
      rw [harg] at h
      cases h
      rfl

theorem stable_put (cs : Str) : Stable (Env.more B) (put write cs) := by
  intro e a e' h
  cases h
  rfl

theorem stable_print_str (str : Str) (width : Int) (zero_padding right_padding : Bool) :
    Stable (Env.more B) (print_str write str width zero_padding right_padding) := by
  unfold print_str
  cases right_padding with
  | false =>
    apply (stable_put _).bind
    intro _
    apply (stable_put _).bind
    intro _
    exact stable_pure _ _
  | true =>
    apply (stable_put _).bind
    intro _
    apply (stable_put _).bind
    intro _
    exact stable_pure _ _

theorem stable_print_int (n : Int) (width : Int) (zero_padding right_padding : Bool) :
    Stable (Env.more B) (print_int write around n width zero_padding right_padding) :=
  stable_print_str _ _ _ _

theorem stable_print_string (s : Str) (width : Int) (right_padding : Bool) (precision : Int) :
    Stable (Env.more B) (print_string write s width right_padding precision) := by
  have hleft : ∀ pad : Str, Stable (Env.more B) (do
      put write pad
      put write (shown s precision)
      pure (to_int ((shown s precision).length + pad.length))) := by
    intro pad
    apply (stable_put _).bind
    intro _
    apply (stable_put _).bind
    intro _
    exact stable_pure _ _
  unfold print_string
  cases right_padding with
  | false =>
    by_cases hwidth : width ≠ 0
    · simp only [Bool.not_false, if_true, if_pos hwidth]
      exact (stable_must _).bind fun _ => hleft _
    · simp only [Bool.not_false, if_true, if_neg hwidth]
      exact hleft _
  | true =>
    apply (stable_put _).bind
    intro _
    apply (stable_must _).bind
    intro _
    apply (stable_put _).bind
    intro _
    exact stable_pure _ _

theorem stable_parse_loop (i : Nat) (rc : Int) (s : Str) :
    Stable (Env.more B) (parse_loop i rc s : Print σ (Int × Nat)) := by
  induction s generalizing i rc with
  | nil => exact stable_pure _ _
  | cons c s ih =>
    unfold parse_loop
    split
    · exact (stable_must _).bind fun _ => stable_pure _ _
    · split
      · exact stable_pure _ _
      · exact ih _ _

/-- A conversion of an argument does not see the arguments behind it. -/
theorem stable_done {t : CType} {f : t.Value → Print σ Int} {g : Int → Vars × Nat}
    (hf : ∀ a, Stable (Env.more B) (f a)) :
    Stable (Env.more B) (do
      let a ← va_arg t
      let n ← f a
      pure (g n)) := by
  apply (stable_va_arg t).bind
  intro a
  apply (hf a).bind
  intro n
  exact stable_pure _ _

theorem stable_directive (v : Vars) (c : UInt8) (rest : Str) :
    Stable (Env.more B) (directive write around v c rest) := by
  unfold directive
  cases case_of c with
  | period =>
    apply (stable_must _).bind
    intro _
    apply (stable_parse_loop _ _ _).bind
    rintro ⟨precision, k⟩
    apply (stable_must _).bind
    intro _
    split
    · exact (stable_va_arg _).bind fun _ => stable_pure _ _
    · exact stable_pure _ _
  | zero => exact stable_pure _ _
  | minus => exact (stable_must _).bind fun _ => stable_pure _ _
  | digit => exact stable_pure _ _
  | l => exact (stable_must _).bind fun _ => stable_pure _ _
  | d =>
    dsimp only
    split
    · exact stable_done fun _ => stable_print_int _ _ _ _
    · exact stable_done fun _ => stable_print_int _ _ _ _
  | u =>
    apply (stable_must _).bind
    intro _
    split
    · exact stable_done fun _ => stable_print_int _ _ _ _
    · exact stable_done fun _ => stable_print_int _ _ _ _
  | s => exact (stable_must _).bind fun _ => stable_done fun _ => stable_print_string _ _ _ _
  | x => exact (stable_must _).bind fun _ => stable_done fun _ => stable_print_str _ _ _ _
  | o => exact (stable_must _).bind fun _ => stable_done fun _ => stable_print_str _ _ _ _
  | percent => exact (stable_put _).bind fun _ => stable_pure _ _
  | c =>
    apply (stable_va_arg _).bind
    intro _
    exact (stable_put _).bind fun _ => stable_pure _ _
  | default => exact stable_throw _ _

theorem stable_turn (v : Vars) (c : UInt8) (rest : Str) :
    Stable (Env.more B) (turn write around v c rest) := by
  unfold turn
  split
  · exact (stable_put _).bind fun _ => stable_pure _ _
  · split
    · exact stable_pure _ _
    · exact (stable_directive v c rest).bind fun _ => stable_pure _ _

/-! ## What a format leaves behind -/

/-- Between two directives the flags are as at the start, but for the long level. -/
structure Rests (v : Vars) : Prop where
  width : v.cont = false → v.width = 0
  zero_padding : v.cont = false → v.zero_padding = false
  right_padding : v.cont = false → v.right_padding = false
  precision : v.cont = false → v.precision = -1
  level : v.long_level ≤ 2

theorem rests_start : Rests start :=
  ⟨fun _ => rfl, fun _ => rfl, fun _ => rfl, fun _ => rfl, Nat.zero_le 2⟩

theorem rests_close (h : v.long_level ≤ 2) : Rests v.close := by
  unfold Vars.close
  by_cases hcont : v.cont
  · rw [if_pos hcont]
    have hfalse : v.cont ≠ false := by
      intro h
      rw [h] at hcont
      cases hcont
    exact ⟨fun h => absurd h hfalse, fun h => absurd h hfalse, fun h => absurd h hfalse,
      fun h => absurd h hfalse, h⟩
  · rw [if_neg hcont]
    exact ⟨fun _ => rfl, fun _ => rfl, fun _ => rfl, fun _ => rfl, h⟩

theorem gives_must {α : Type} {P : α → Prop} {p : Prop} [Decidable p] {q : Unit → Print σ α}
    (h : p → Gives P (q ())) : Gives P (must p >>= q) := by
  intro e a e' heq
  obtain ⟨_, e1, hmust, hq⟩ := bind_eq_ok.mp heq
  obtain ⟨hp, rfl⟩ := must_eq_ok.mp hmust
  exact h hp _ _ _ hq

theorem precise_long_level (v : Vars) : v.precise.long_level = v.long_level := by
  unfold Vars.precise
  split <;> rfl

/-- The `assert` of `l` bounds the long level. -/
theorem directive_level (h : v.long_level ≤ 2) (c : UInt8) (rest : Str) :
    Gives (fun r : Vars × Nat => r.1.long_level ≤ 2) (directive write around v c rest) := by
  unfold directive
  cases case_of c with
  | period =>
    refine gives_bind fun _ => gives_bind ?_
    rintro ⟨precision, k⟩
    refine gives_bind fun _ => ?_
    split
    · exact gives_bind fun _ => gives_pure h
    · exact gives_pure h
  | zero => exact gives_pure h
  | minus => exact gives_bind fun _ => gives_pure h
  | digit => exact gives_pure h
  | l => exact gives_must fun hlevel => gives_pure hlevel
  | d =>
    dsimp only
    split
    · exact gives_bind fun _ => gives_bind fun _ => gives_pure (Nat.zero_le 2)
    · exact gives_bind fun _ => gives_bind fun _ => gives_pure (Nat.zero_le 2)
  | u =>
    refine gives_bind fun _ => ?_
    split
    · exact gives_bind fun _ => gives_bind fun _ => gives_pure h
    · exact gives_bind fun _ => gives_bind fun _ => gives_pure h
  | s => exact gives_bind fun _ => gives_bind fun _ => gives_bind fun _ => gives_pure h
  | x => exact gives_bind fun _ => gives_bind fun _ => gives_bind fun _ => gives_pure h
  | o => exact gives_bind fun _ => gives_bind fun _ => gives_bind fun _ => gives_pure h
  | percent => exact gives_bind fun _ => gives_pure h
  | c => exact gives_bind fun _ => gives_bind fun _ => gives_pure h
  | default => exact gives_throw _ _

theorem Rests.turn (h : Rests v) (c : UInt8) (rest : Str) :
    Gives (fun r : Vars × Nat => Rests r.1) (turn write around v c rest) := by
  unfold kprintf.turn
  split
  · refine gives_bind fun _ => gives_pure ?_
    exact ⟨h.width, h.zero_padding, h.right_padding, h.precision, h.level⟩
  · split
    · refine gives_pure ⟨?_, ?_, ?_, ?_, h.level⟩
      · exact fun h => Bool.noConfusion h
      · exact fun h => Bool.noConfusion h
      · exact fun h => Bool.noConfusion h
      · exact fun h => Bool.noConfusion h
    · intro e r e' heq
      obtain ⟨⟨w, j⟩, e1, hdir, hclose⟩ := bind_eq_ok.mp heq
      cases hclose
      exact rests_close (directive_level h.level c rest e (w, j) _ hdir)

/-- The variables, with `extra` levels more. -/
def Vars.raise (extra : Nat) (v : Vars) : Vars := { v with long_level := v.long_level + extra }

/-- A format without an open directive leaves its count and its long level. -/
theorem Rests.eq_raise (h : Rests v) (hcont : v.cont = false) (hrc : to_int v.rc = v.rc) :
    v = (start.raise v.long_level).shift v.rc := by
  have hwidth := h.width hcont
  have hzero := h.zero_padding hcont
  have hright := h.right_padding hcont
  have hprecision := h.precision hcont
  cases v
  dsimp only at *
  unfold Vars.shift Vars.raise start
  dsimp only
  rw [Int.add_zero, Nat.zero_add, hrc, hwidth, hzero, hright, hprecision, hcont]

/-! ## More levels -/

/-- A turn with `extra` levels more. -/
abbrev Raises (extra : Nat) : Print Str (Vars × Nat) → Print Str (Vars × Nat) → Prop :=
  Carries id (fun r => (r.1.raise extra, r.2))

theorem raises_bind {α : Type} {extra : Nat} {p : Print Str α} {f g : α → Print Str (Vars × Nat)}
    (h : ∀ a, Raises extra (f a) (g a)) : Raises extra (p >>= f) (p >>= g) :=
  (carries_refl p).bind h

theorem raise_close (extra : Nat) (v : Vars) : (v.raise extra).close = v.close.raise extra := by
  unfold Vars.close Vars.raise
  split <;> rfl

/-- Only `l`, `d` and `u` look at the long level. -/
theorem raises_directive (around : Int → UInt8) {extra : Nat} {c : UInt8}
    (hl : case_of c = .l → v.long_level + 1 + extra ≤ 2) (hd : case_of c ≠ .d)
    (hu : case_of c = .u → v.precision = -1 → v.long_level ≠ 0)
    (hlevel : v.long_level + extra ≤ 2) (rest : Str) :
    Raises extra (directive log around v c rest) (directive log around (v.raise extra) c rest) := by
  unfold directive
  cases hc : case_of c with
  | period =>
    apply raises_bind
    intro _
    apply raises_bind
    rintro ⟨precision, k⟩
    apply raises_bind
    intro _
    split
    · refine raises_bind fun _ => carries_pure id ?_
      simp only [Vars.raise]
    · exact carries_pure id rfl
  | zero => exact carries_pure id rfl
  | minus => exact raises_bind fun _ => carries_pure id rfl
  | digit => exact carries_pure id rfl
  | l =>
    have hown : v.long_level + 1 ≤ 2 := by
      have := hl hc
      omega
    have hraised : (v.raise extra).long_level + 1 ≤ 2 := by
      have := hl hc
      unfold Vars.raise
      dsimp only
      omega
    intro e
    dsimp only
    rw [run_bind_ok (must_of hown e), run_bind_ok (must_of hraised (id e))]
    unfold Vars.raise
    dsimp only
    rw [Nat.add_right_comm]
    rfl
  | d => exact absurd hc hd
  | u =>
    by_cases hprecision : v.precision = -1
    · have hown : v.long_level = 2 ∨ v.long_level = 1 := by
        have := hu hc hprecision
        omega
      have hraised : (v.raise extra).long_level = 2 ∨ (v.raise extra).long_level = 1 := by
        have := hu hc hprecision
        unfold Vars.raise
        dsimp only
        omega
      dsimp only
      rw [if_pos hown, if_pos hraised]
      exact raises_bind fun _ => raises_bind fun _ => raises_bind fun _ => carries_pure id rfl
    · intro e
      dsimp only
      have hraised : ¬ (v.raise extra).precision = -1 := hprecision
      rw [run_bind_error (must_fails hprecision e), run_bind_error (must_fails hraised (id e))]
      rfl
  | s => exact raises_bind fun _ => raises_bind fun _ => raises_bind fun _ => carries_pure id rfl
  | x => exact raises_bind fun _ => raises_bind fun _ => raises_bind fun _ => carries_pure id rfl
  | o => exact raises_bind fun _ => raises_bind fun _ => raises_bind fun _ => carries_pure id rfl
  | percent => exact raises_bind fun _ => carries_pure id rfl
  | c => exact raises_bind fun _ => raises_bind fun _ => carries_pure id rfl
  | default => exact carries_throw _ _ _

theorem raises_turn {extra : Nat} {c : UInt8}
    (hl : v.cont = true → case_of c = .l → v.long_level + 1 + extra ≤ 2)
    (hd : v.cont = true → case_of c ≠ .d)
    (hu : v.cont = true → case_of c = .u → v.precision = -1 → v.long_level ≠ 0)
    (hlevel : v.long_level + extra ≤ 2) (rest : Str) :
    Raises extra (turn log around v c rest) (turn log around (v.raise extra) c rest) := by
  have hcont : (v.raise extra).cont = v.cont := rfl
  unfold turn
  rw [hcont]
  by_cases hplain : v.cont = false ∧ c ≠ char '%'
  · rw [if_pos hplain, if_pos hplain]
    exact raises_bind fun _ => carries_pure id rfl
  · rw [if_neg hplain, if_neg hplain]
    by_cases hopen : v.cont = false
    · rw [if_pos hopen, if_pos hopen]
      exact carries_pure id rfl
    · rw [if_neg hopen, if_neg hopen]
      have htrue : v.cont = true := by simpa using hopen
      have hdir := raises_directive around (hl htrue) (hd htrue) (hu htrue) hlevel rest
      apply hdir.bind
      rintro ⟨w, j⟩
      apply carries_pure
      dsimp only
      rw [raise_close]

/-- At the `assert` of `l` the levels count together. -/
theorem turn_raise_l {extra : Nat} {c : UInt8} (hcont : v.cont = true) (hc : case_of c = .l)
    (hlevel : 2 < v.long_level + 1 + extra) (rest : Str) (e : Env Str) :
    turn log around (v.raise extra) c rest e = .error .assert e := by
  have hmany : ¬ (v.raise extra).long_level + 1 ≤ 2 := by
    unfold Vars.raise
    dsimp only
    omega
  have hopen : (v.raise extra).cont ≠ false := by
    rw [show (v.raise extra).cont = true from hcont]
    exact Bool.noConfusion
  unfold turn directive
  rw [if_neg (fun h => hopen h.1), if_neg hopen, hc]
  exact run_bind_error (run_bind_error (must_fails hmany e))

theorem raise_precise (extra : Nat) (v : Vars) :
    (v.raise extra).precise = v.precise.raise extra := by
  unfold Vars.precise Vars.raise
  split <;> rfl

/-- With a long level of its own, a `d` takes the others with it. -/
theorem turn_raise_d (around : Int → UInt8) {extra : Nat} {c : UInt8} (hcont : v.cont = true)
    (hc : case_of c = .d) (hown : v.long_level ≠ 0) (hlevel : v.long_level + extra ≤ 2)
    (rest : Str) : turn log around (v.raise extra) c rest = turn log around v c rest := by
  have hlong : v.precise.long_level = 2 ∨ v.precise.long_level = 1 := by
    rw [precise_long_level]
    omega
  have hraised :
      (v.precise.raise extra).long_level = 2 ∨ (v.precise.raise extra).long_level = 1 := by
    unfold Vars.raise
    dsimp only
    rw [precise_long_level]
    omega
  have hsame : (v.raise extra).cont = v.cont := rfl
  unfold turn directive
  rw [hsame, hcont, hc]
  dsimp only
  rw [raise_precise, if_pos hlong, if_pos hraised]
  rfl

/-- An argument that fits a type of one size does not fit one of the other. -/
theorem va_arg_other {t t' : CType} (hsize : ∀ arg : Arg, arg.as t' = none ∨ arg.as t = none)
    (e : Env Str) (h : value (va_arg t e) ≠ .error .va_arg) :
    value (va_arg t' e) = .error .va_arg := by
  unfold va_arg at h ⊢
  dsimp only at h ⊢
  cases hargs : e.args with
  | nil => rfl
  | cons arg args =>
    rw [hargs] at h
    dsimp only at h ⊢
    rcases hsize arg with hother | hown
    · rw [hother]
      rfl
    · rw [hown] at h
      exact absurd rfl h

theorem int_or_long_long (arg : Arg) : arg.as .long_long = none ∨ arg.as .int = none := by
  cases arg with
  | word v => exact .inl rfl
  | long v => exact .inr rfl
  | str s => exact .inl rfl

theorem unsigned_int_or_long_long (arg : Arg) :
    arg.as .unsigned_long_long = none ∨ arg.as .unsigned_int = none := by
  cases arg with
  | word v => exact .inl rfl
  | long v => exact .inr rfl
  | str s => exact .inl rfl

/-- What `d` and `u` ask for: 32 bits on their own, and 64 bits behind a long level. -/
theorem directive_other {extra : Nat} {c : UInt8} (hc : case_of c = .d ∨ case_of c = .u)
    (hprecision : case_of c = .u → v.precision = -1) (hown : v.long_level = 0) (hextra : extra ≠ 0)
    (hlevel : v.long_level + extra ≤ 2) (rest : Str) (e : Env Str)
    (h : value (directive log around v c rest e) ≠ .error .va_arg) :
    value (directive log around (v.raise extra) c rest e) = .error .va_arg := by
  have hshort : ¬ (v.long_level = 2 ∨ v.long_level = 1) := by omega
  have hlong : (v.raise extra).long_level = 2 ∨ (v.raise extra).long_level = 1 := by
    unfold Vars.raise
    dsimp only
    omega
  unfold directive at h ⊢
  rcases hc with hc | hc
  · rw [hc] at h ⊢
    dsimp only at h ⊢
    rw [precise_long_level] at h ⊢
    rw [if_neg hshort] at h
    rw [if_pos hlong]
    apply value_bind_error
    apply va_arg_other int_or_long_long
    exact fun hint => h (value_bind_error hint)
  · have hown := hprecision hc
    have hraised : (v.raise extra).precision = -1 := hown
    rw [hc] at h ⊢
    dsimp only at h ⊢
    rw [run_bind_ok (must_of hown e), if_neg hshort] at h
    rw [run_bind_ok (must_of hraised e), if_pos hlong]
    apply value_bind_error
    apply va_arg_other unsigned_int_or_long_long
    exact fun hint => h (value_bind_error hint)

theorem turn_other {extra : Nat} {c : UInt8} (hcont : v.cont = true)
    (hc : case_of c = .d ∨ case_of c = .u) (hprecision : case_of c = .u → v.precision = -1)
    (hown : v.long_level = 0) (hextra : extra ≠ 0) (hlevel : v.long_level + extra ≤ 2) (rest : Str)
    (e : Env Str) (h : value (turn log around v c rest e) ≠ .error .va_arg) :
    value (turn log around (v.raise extra) c rest e) = .error .va_arg := by
  have hsame : (v.raise extra).cont = v.cont := rfl
  unfold turn at h ⊢
  rw [hsame]
  rw [hcont] at h ⊢
  apply value_bind_error
  apply directive_other hc hprecision hown hextra hlevel
  exact fun hdir => h (value_bind_error hdir)

/-! ## The second format -/

/-- The run ends with an `assert`, and has written and read nothing since `e`. -/
def Stops (e : Env Str) (r : EStateM.Result Trap (Env Str) Vars) : Prop :=
  value r = .error .assert ∧ (last r).ctx = e.ctx ∧ (last r).reads = e.reads

/-- What its own run of the second format must do at `l`, `d` and `u`, where the first one has
left `extra` levels. At `l` the levels count together up to 2, or else the run stops there. At `d`
and `u` it has a level of its own. A `d` ends this. -/
def Tolerates (around : Int → UInt8) (extra : Nat) : Vars → Nat → Str → Env Str → Prop
  | _, _, [], _ => True
  | v, k + 1, _ :: cs, e => Tolerates around extra v k cs e
  | v, 0, c :: cs, e =>
    if v.cont = true ∧ case_of c = .l ∧ 2 < v.long_level + 1 + extra then
      Stops e (scan (turn log around) v 0 (c :: cs) e)
    else if v.cont = true ∧ case_of c = .d then v.long_level ≠ 0
    else
      (v.cont = true → case_of c = .u → v.precision = -1 → v.long_level ≠ 0) ∧
        match turn log around v c cs e with
        | .ok (v, k) e => Tolerates around extra v k cs e
        | .error _ _ => True

/-- The second run writes, reads and ends as the first one. -/
structure Alike (r r' : EStateM.Result Trap (Env Str) Vars) : Prop where
  writes : (last r').ctx = (last r).ctx
  reads : (last r').reads = (last r).reads
  ends : (value r').map (fun _ => ()) = (value r).map (fun _ => ())

theorem Alike.refl (r : EStateM.Result Trap (Env Str) Vars) : Alike r r := ⟨rfl, rfl, rfl⟩

theorem map_eq_error {α : Type} {r : Except Trap α} {t : Trap} :
    r.map (fun _ => ()) = .error t ↔ r = .error t := by
  cases r with
  | ok a =>
    constructor
    · intro h
      cases h
    · intro h
      cases h
  | error t' =>
    constructor
    · intro h
      cases h
      rfl
    · intro h
      cases h
      rfl

theorem alike_assert (r : EStateM.Result Trap (Env Str) Vars) (e : Env Str) :
    Alike r (.error .assert e) ↔ Stops e r := by
  constructor
  · intro h
    exact ⟨map_eq_error.mp h.ends.symm, h.writes.symm, h.reads.symm⟩
  · rintro ⟨hvalue, hwrites, hreads⟩
    exact ⟨hwrites.symm, hreads.symm, (map_eq_error.mpr hvalue).symm⟩

theorem not_alike {r r' : EStateM.Result Trap (Env Str) Vars} (h : value r ≠ .error .va_arg)
    (h' : value r' = .error .va_arg) : ¬ Alike r r' := by
  intro halike
  have hends := halike.ends
  rw [map_eq_error.mpr h'] at hends
  exact h (map_eq_error.mp hends.symm)

theorem turn_level (h : v.long_level ≤ 2) (c : UInt8) (rest : Str) :
    Gives (fun r : Vars × Nat => r.1.long_level ≤ 2) (turn write around v c rest) := by
  unfold turn
  split
  · exact gives_bind fun _ => gives_pure h
  · split
    · exact gives_pure h
    · intro e r e' heq
      obtain ⟨⟨w, j⟩, e1, hdir, hclose⟩ := bind_eq_ok.mp heq
      cases hclose
      exact (rests_close (directive_level h c rest e (w, j) _ hdir)).level

/-- With `extra` levels more a run is like its own one exactly when it tolerates them. -/
theorem alike_iff_tolerates {extra : Nat} (hextra : extra ≠ 0) (hlevel : v.long_level + extra ≤ 2)
    (hfits : value (scan (turn log around) v k g e) ≠ .error .va_arg) :
    Alike (scan (turn log around) v k g e) (scan (turn log around) (v.raise extra) k g e) ↔
      Tolerates around extra v k g e := by
  induction g generalizing v k e with
  | nil =>
    rw [scan_nil, scan_nil]
    exact iff_of_true ⟨rfl, rfl, rfl⟩ trivial
  | cons c cs ih =>
    cases k with
    | succ k => exact ih hlevel hfits
    | zero =>
      have hturn : value (turn log around v c cs e) ≠ .error .va_arg :=
        fun h => hfits (value_bind_error h)
      unfold Tolerates
      by_cases hl : v.cont = true ∧ case_of c = .l ∧ 2 < v.long_level + 1 + extra
      · rw [if_pos hl, scan_error (turn_raise_l hl.1 hl.2.1 hl.2.2 cs e)]
        exact alike_assert _ e
      · rw [if_neg hl]
        by_cases hd : v.cont = true ∧ case_of c = .d
        · rw [if_pos hd]
          by_cases hown : v.long_level = 0
          · have hother := turn_other hd.1 (.inl hd.2) (fun hu => by rw [hd.2] at hu; cases hu) hown
              hextra hlevel cs e hturn
            exact iff_of_false (not_alike hfits (value_bind_error hother)) (fun h => h hown)
          · have hsame := turn_raise_d around hd.1 hd.2 hown hlevel cs
            rw [scan_cons, scan_cons, hsame]
            exact iff_of_true (Alike.refl _) hown
        · rw [if_neg hd]
          by_cases hu : v.cont = true → case_of c = .u → v.precision = -1 → v.long_level ≠ 0
          · have hmany : v.cont = true → case_of c = .l → v.long_level + 1 + extra ≤ 2 :=
              fun h hc => Nat.not_lt.mp fun hlt => hl ⟨h, hc, hlt⟩
            have hraise : turn log around (v.raise extra) c cs e =
                carry id (fun r => (r.1.raise extra, r.2)) (turn log around v c cs e) :=
              raises_turn hmany (fun h hc => hd ⟨h, hc⟩) hu hlevel cs e
            rw [and_iff_right hu]
            cases hown : turn log around v c cs e with
            | error t e1 =>
              rw [hown] at hraise
              rw [scan_error hown, scan_error hraise]
              exact iff_of_true (Alike.refl _) trivial
            | ok r e1 =>
              obtain ⟨w, j⟩ := r
              rw [hown] at hraise
              rw [scan_ok hown] at hfits ⊢
              rw [scan_ok hraise]
              have hsum : w.long_level + extra ≤ 2 :=
                turn_level (v := v.raise extra) hlevel c cs _ _ _ hraise
              exact ih hsum hfits
          · simp only [not_forall, not_not, exists_prop] at hu
            obtain ⟨hcont, hc, hprecision, hown⟩ := hu
            have hother := turn_other hcont (.inr hc) (fun _ => hprecision) hown hextra hlevel cs e
              hturn
            exact iff_of_false (not_alike hfits (value_bind_error hother))
              (fun h => h.1 hcont hc hprecision hown)

/-! ## Two formats in a row -/

theorem last_printed (around : Int → UInt8) (fmt : Str) (args : List Arg) :
    last (printed around fmt args) =
      last (vkcprintf_loop log around fmt { ctx := [], args, reads := [] }) := by
  unfold printed vkcprintf
  rw [run_bind]
  cases vkcprintf_loop log around fmt { ctx := [], args, reads := [] } <;> rfl

theorem value_printed (around : Int → UInt8) (fmt : Str) (args : List Arg) :
    value (printed around fmt args) =
      (value (vkcprintf_loop log around fmt { ctx := [], args, reads := [] })).map Vars.rc := by
  unfold printed vkcprintf
  rw [run_bind]
  cases vkcprintf_loop log around fmt { ctx := [], args, reads := [] } <;> rfl

/-- The two formats in a row do what the first one does on its arguments, and then what the second
one does on the others. The sum of the counts is an `int`. -/
structure Independent (around : Int → UInt8) (f g : Str) (A B : List Arg) : Prop where
  emits : (last (printed around (f ++ g) (A ++ B))).ctx =
    (last (printed around f A)).ctx ++ (last (printed around g B)).ctx
  reads : (last (printed around (f ++ g) (A ++ B))).reads =
    (last (printed around f A)).reads ++ (last (printed around g B)).reads
  asserts : value (printed around (f ++ g) (A ++ B)) = .error .assert ↔
    value (printed around g B) = .error .assert
  returns : ∀ m n, value (printed around f A) = .ok m → value (printed around g B) = .ok n →
    value (printed around (f ++ g) (A ++ B)) = .ok (to_int (m + n))

/-- The second format runs with the long level that the first one leaves. -/
theorem loop_append
    (hf : vkcprintf_loop log around f { ctx := [], args := A, reads := [] } = .ok v e)
    (hcont : v.cont = false) (hargs : e.args = []) :
    vkcprintf_loop log around (f ++ g) { ctx := [], args := A ++ B, reads := [] } =
      carry (Env.map (e.ctx ++ ·) e.reads) (Vars.shift v.rc)
        (scan (turn log around) (start.raise v.long_level) 0 g
          { ctx := [], args := B, reads := [] }) := by
  have hrests : Rests v := scan_keeps (fun _ _ _ h => h.turn _ _) rests_start 0 f _ _ _ hf
  obtain ⟨ds, -, hcount⟩ := counts_scan (v := start) rfl 0 f _ _ _ hf
  have hrc : to_int v.rc = v.rc := by
    rw [hcount]
    unfold to_int
    exact Int.bmod_bmod
  have hmore : scan (turn log around) start 0 f { ctx := [], args := A ++ B, reads := [] } =
      .ok v (e.more B) :=
    stable_scan (fun v c cs => stable_turn (B := B) v c cs) start 0 f _ _ _ hf
  have henv : e.more B = Env.map (e.ctx ++ ·) e.reads { ctx := [], args := B, reads := [] } := by
    unfold Env.more Env.map
    dsimp only
    rw [hargs, List.nil_append, List.append_nil, List.append_nil]
  have hwrites : Writes log log (e.ctx ++ ·) := fun s c => (List.append_assoc e.ctx s [c]).symm
  have happend := local_turn.scan_append g (Nat.zero_le _) hmore
  unfold vkcprintf_loop
  rw [happend, henv]
  have hshift := shifts_scan around hwrites e.reads v.rc (start.raise v.long_level) 0 g
    { ctx := [], args := B, reads := [] }
  rw [← hrests.eq_raise hcont hrc] at hshift
  exact hshift

theorem map_rc_eq_error {r : Except Trap Vars} {t : Trap} :
    r.map Vars.rc = .error t ↔ r = .error t := by
  cases r with
  | ok w =>
    constructor
    · intro h
      cases h
    · intro h
      cases h
  | error t' =>
    constructor
    · intro h
      cases h
      rfl
    · intro h
      cases h
      rfl

/-- The count at the end of a run is that of what it wrote. -/
theorem count_of_ok {w : Vars} (hv : v.rc = 0)
    (h : scan (turn log around) v 0 g { ctx := [], args := B, reads := [] } = .ok w e) :
    w.rc = to_int e.ctx.length := by
  have hrc : to_int v.rc = v.rc := by
    rw [hv]
    rfl
  obtain ⟨cs, hcs, hcount⟩ := counts_scan hrc 0 g _ _ _ h
  rw [hcount, hv, hcs, Int.zero_add]
  rfl

/-- The formats are independent when the second one does not see the level that is left. -/
theorem independent_iff_alike
    (hf : vkcprintf_loop log around f { ctx := [], args := A, reads := [] } = .ok v e)
    (hcont : v.cont = false) (hargs : e.args = [])
    (hfits : value (printed around g B) ≠ .error .va_arg) :
    Independent around f g A B ↔
      Alike (vkcprintf_loop log around g { ctx := [], args := B, reads := [] })
        (scan (turn log around) (start.raise v.long_level) 0 g
          { ctx := [], args := B, reads := [] }) := by
  have hboth := loop_append (g := g) (B := B) hf hcont hargs
  have hlast : last (printed around f A) = e := by
    rw [last_printed, hf]
    rfl
  have hvalue : value (printed around f A) = .ok v.rc := by
    rw [value_printed, hf]
    rfl
  rw [value_printed] at hfits
  generalize hr' : scan (turn log around) (start.raise v.long_level) 0 g
    { ctx := [], args := B, reads := [] } = r' at hboth ⊢
  generalize hr : vkcprintf_loop log around g { ctx := [], args := B, reads := [] } = r at hfits ⊢
  constructor
  · intro h
    have hemits := h.emits
    have hreads := h.reads
    have hasserts := h.asserts
    have hreturns := h.returns
    rw [last_printed, hboth, last_carry, hlast, last_printed, hr] at hemits hreads
    rw [value_printed, hboth, value_carry, value_printed, hr] at hasserts
    refine ⟨List.append_cancel_left hemits, List.append_cancel_left hreads, ?_⟩
    cases r with
    | ok w e1 =>
      have hsum := hreturns v.rc w.rc hvalue (by rw [value_printed, hr]; rfl)
      rw [value_printed, hboth, value_carry] at hsum
      cases r' with
      | ok w' e2 => rfl
      | error t e2 => cases hsum
    | error t e1 =>
      cases t with
      | va_arg => exact absurd rfl hfits
      | assert =>
        have hassert := hasserts.mpr rfl
        cases r' with
        | ok w' e2 => cases hassert
        | error t e2 =>
          cases hassert
          rfl
  · intro h
    constructor
    · rw [last_printed, hboth, last_carry, hlast, last_printed, hr, ← h.writes]
      rfl
    · rw [last_printed, hboth, last_carry, hlast, last_printed, hr, ← h.reads]
      rfl
    · rw [value_printed, hboth, value_carry, value_printed, hr, map_rc_eq_error, map_rc_eq_error,
        ← map_eq_error, ← map_eq_error (r := value r), ← h.ends]
      cases r' <;> rfl
    · intro m n hm hn
      rw [hvalue] at hm
      cases hm
      rw [value_printed, hr] at hn
      rw [value_printed, hboth, value_carry]
      cases r with
      | error t e1 => cases hn
      | ok w e1 =>
        cases hn
        cases r' with
        | error t e2 => cases h.ends
        | ok w' e2 =>
          have hsame : w'.rc = w.rc := by
            have hlength : e2.ctx = e1.ctx := h.writes
            rw [count_of_ok rfl hr', count_of_ok rfl hr, hlength]
          show Except.ok (to_int (v.rc + w'.rc)) = _
          rw [hsame]

/-- For each two formats and their arguments, where the first one runs to its end and leaves no
directive open, the two in a row are independent exactly when the first one leaves no long level,
or the second one tolerates it. -/
theorem formats_are_independent_iff_the_level_is_tolerated
    (hf : vkcprintf_loop log around f { ctx := [], args := A, reads := [] } = .ok v e)
    (hcont : v.cont = false) (hargs : e.args = [])
    (hfits : value (printed around g B) ≠ .error .va_arg) :
    Independent around f g A B ↔
      v.long_level = 0 ∨
        Tolerates around v.long_level start 0 g { ctx := [], args := B, reads := [] } := by
  rw [independent_iff_alike hf hcont hargs hfits]
  by_cases hlevel : v.long_level = 0
  · rw [hlevel]
    exact iff_of_true (Alike.refl _) (.inl rfl)
  · have hrests : Rests v := scan_keeps (fun _ _ _ h => h.turn _ _) rests_start 0 f _ _ _ hf
    have hsum : start.long_level + v.long_level ≤ 2 := (Nat.zero_add _).symm ▸ hrests.level
    have hgiven : value (vkcprintf_loop log around g { ctx := [], args := B, reads := [] }) ≠
        .error .va_arg := by
      intro h
      apply hfits
      rw [value_printed, h]
      rfl
    rw [or_iff_right hlevel]
    exact alike_iff_tolerates hlevel hsum hgiven

theorem two_longs_are_independent :
    Independent (fun _ => 0) [37, 108, 117] [37, 108, 117] [.long 1] [.long 2] :=
  (formats_are_independent_iff_the_level_is_tolerated
    (v := { start with rc := 1, long_level := 1 }) (ok_of_value (by decide)) rfl
    (List.isEmpty_iff.mp (by decide)) (by decide)).mpr
    (.inr ⟨by decide, by decide, by decide, trivial⟩)

/-- The levels of the first two conversions are left, and the third one stops at the `assert`. -/
theorem a_third_long_is_not_independent :
    value (vkcprintf_loop log (fun _ => 0) [37, 108, 117, 37, 108, 117]
        ⟨[], [.long 1, .long 2], []⟩) = .ok { start with rc := 2, long_level := 2 } ∧
      (last (vkcprintf_loop log (fun _ => 0) [37, 108, 117, 37, 108, 117]
        ⟨[], [.long 1, .long 2], []⟩)).args = [] ∧
      value (printed (fun _ => 0) [37, 108, 117] [.long 3]) = .ok 1 ∧
      ¬ Independent (fun _ => 0) [37, 108, 117, 37, 108, 117] [37, 108, 117] [.long 1, .long 2]
        [.long 3] := by
  refine ⟨by decide, List.isEmpty_iff.mp (by decide), by decide, ?_⟩
  intro h
  have hassert : value (printed (fun _ => 0) [37, 108, 117] [.long 3]) = .error .assert :=
    h.asserts.mp (by decide)
  exact absurd hassert (by decide)

end salsola.kprintf
