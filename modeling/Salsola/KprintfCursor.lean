-- The scanner of vkcprintf with its cursor: it moves forward and, in parse_precision, back.
-- It stays inside the string, ends, and does what the scanner of the list of characters does.
import Salsola.Lib.Cursor
import Salsola.KprintfLaws

open scanner cursor

namespace salsola.kprintf

abbrev Walk (σ : Type) := cursor.Walk Trap (Env σ)

variable {σ : Type}

section

variable (write : σ → UInt8 → σ) (around : Int → UInt8) (m : Nat → UInt8)

/-- The loop of `parse_precision` at `s`, in turn `i`: the number, and where `*fmt` stands then. -/
def parse_walk (fmt : Nat) : Nat → Nat → Int → Nat → Walk σ (Int × Nat)
  | 0, _, _, _ => throw .spin
  | fuel + 1, i, rc, s => do
    let c ← peek m s
    if c = 0 then pure (rc, s)
    else if c = char '*' then do
      lift (must (i = 0))
      pure (-1, fmt)
    else if ¬ (char '0' ≤ c ∧ c ≤ char '9') then pure (rc, s - 1)
    else parse_walk fmt fuel (i + 1) (to_int (to_int (rc * 10) + (c - char '0').toNat)) (s + 1)

/-- The switch of `vkcprintf` at `s`. Only a period moves the cursor. -/
def directive_walk (fuel : Nat) (v : Vars) (c : UInt8) (s : Nat) : Walk σ (Vars × Nat) :=
  if case_of c = .period then do
    let c ← peek m (s + 1)
    lift (must (c ≠ 0))
    let (precision, s) ← parse_walk m (s + 1) fuel 0 0 (s + 1)
    let c ← peek m s
    lift (must (c ≠ 0))
    if precision = -1 then do
      let a ← lift (va_arg .int)
      pure ({ v with precision := to_int a.toNat, cont := true }, s)
    else pure ({ v with precision, cont := true }, s)
  else do
    let (v, _) ← lift (directive write around v c [])
    pure (v, s)

/-- One turn of the loop of `vkcprintf` at `s`, and where the cursor stands then. -/
def turn_walk (fuel : Nat) (v : Vars) (s : Nat) : Walk σ (Vars × Nat) := do
  let c ← peek m s
  if v.cont = false ∧ c ≠ char '%' then do
    lift (put write [c])
    pure ({ v with rc := to_int (v.rc + 1) }, s)
  else if v.cont = false then pure ({ v with cont := true }, s)
  else do
    let (v, s) ← directive_walk write around m fuel v c s
    pure (v.close, s)

/-- `for (; *s; s++)` -/
def loop_walk (bound : Nat) : Nat → Vars → Nat → Walk σ Vars
  | 0, _, _ => throw .spin
  | fuel + 1, v, s => do
    let c ← peek m s
    if c = 0 then pure v
    else do
      let (v, s) ← turn_walk write around m bound v s
      loop_walk bound fuel v (s + 1)

/-- `vkcprintf` on the bytes of `m`, with `fuel` turns for each loop. -/
def vkcprintf_walk (fuel : Nat) : Walk σ Int := do
  let v ← loop_walk write around m fuel fuel start 0
  pure v.rc

end

/-! ## The walk and the scan -/

/-- The format ends at `n`, with its first NUL. -/
structure Terminated (m : Nat → UInt8) (n : Nat) : Prop where
  nul : m n = 0
  chars : ∀ i, i < n → m i ≠ 0

variable {write : σ → UInt8 → σ} {around : Int → UInt8} {m : Nat → UInt8} {n s i fuel : Nat}
  {v : Vars} {e e' : Env σ}

theorem Terminated.nul_iff (h : Terminated m n) (hs : s ≤ n) : m s = 0 ↔ s = n := by
  constructor
  · intro h0
    by_contra hne
    exact h.chars s (by omega) h0
  · rintro rfl
    exact h.nul

theorem tracks_must {α β : Type} {f : α → β} {p q : Prop} [Decidable p] [Decidable q] (hpq : p ↔ q)
    {k : Unit → Print σ α} {k' : Unit → Walk σ β} (h : p → Tracks n f (k ()) (k' ())) :
    Tracks n f (must p >>= k) (lift (must q) >>= k') := by
  intro s seen
  by_cases hp : p
  · have hlift : lift (must q : Print σ Unit) ⟨s, seen⟩ = .ok () ⟨s, seen⟩ := by
      unfold lift
      rw [must_of (hpq.mp hp)]
    rw [run_bind_ok (must_of hp s), run_bind_ok hlift]
    exact h hp s seen
  · have hlift : lift (must q : Print σ Unit) ⟨s, seen⟩ = .error (.error .assert) ⟨s, seen⟩ := by
      unfold lift
      rw [must_fails (fun hq => hp (hpq.mpr hq))]
    rw [run_bind_error (must_fails hp s), run_bind_error hlift]
    exact ⟨[], by simp, by rw [List.append_nil]; rfl⟩

/-- `parse_precision` leaves its pointer at the last of the characters that it counts. -/
theorem parse_walk_tracks (σ : Type) (hm : Terminated m n) {fmt : Nat} (hpos : 0 < fmt)
    (hfuel : n - s < fuel) (hs : s ≤ n) (hi : fmt + i = s) (rc : Int) :
    Tracks n (fun r : Int × Nat => (r.1, fmt + r.2 - 1))
      (parse_loop i rc (text m s n) : Print σ (Int × Nat)) (parse_walk m fmt fuel i rc s) := by
  induction fuel generalizing i rc s with
  | zero => omega
  | succ fuel ih =>
    unfold parse_walk
    apply Tracks.peek hs
    by_cases hend : s = n
    · rw [hend, text_end, if_pos hm.nul]
      unfold parse_loop
      refine tracks_pure (Prod.ext rfl ?_)
      show n = fmt + (i + 1) - 1
      omega
    · have hlt : s < n := by omega
      rw [text_cons m hlt, if_neg (hm.chars s hlt)]
      unfold parse_loop
      by_cases hstar : m s = char '*'
      · rw [if_pos hstar, if_pos hstar]
        exact tracks_must Iff.rfl fun _ => tracks_pure rfl
      · rw [if_neg hstar, if_neg hstar]
        by_cases hdigit : ¬ (char '0' ≤ m s ∧ m s ≤ char '9')
        · rw [if_pos hdigit, if_pos hdigit]
          refine tracks_pure (Prod.ext rfl ?_)
          show s - 1 = fmt + i - 1
          omega
        · rw [if_neg hdigit, if_neg hdigit]
          exact ih (by omega) (by omega) (by omega) _

/-- What `parse_precision` counts goes no further than the NUL. -/
theorem parse_loop_le {i k : Nat} {rc x : Int} {cs : Str}
    (h : parse_loop i rc cs e = .ok (x, k) e') : k ≤ i + cs.length + 1 := by
  induction cs generalizing i rc with
  | nil =>
    cases h
    exact Nat.le_refl _
  | cons c cs ih =>
    unfold parse_loop at h
    rw [List.length_cons]
    split at h
    · obtain ⟨_, e1, -, hpure⟩ := bind_eq_ok.mp h
      cases hpure
      omega
    · split at h
      · cases h
        omega
      · have := ih h
        omega

theorem directive_walk_tracks (write : σ → UInt8 → σ) (around : Int → UInt8) (hm : Terminated m n)
    (hs : s < n) (hfuel : n < fuel) (v : Vars) :
    Tracks n (fun r : Vars × Nat => (r.1, s + r.2))
      (directive write around v (m s) (text m (s + 1) n))
      (directive_walk write around m fuel v (m s) s) := by
  unfold directive_walk
  by_cases hc : case_of (m s) = .period
  · rw [if_pos hc]
    unfold directive
    rw [hc]
    dsimp only
    apply Tracks.peek (by omega)
    have hbehind : text m (s + 1) n ≠ [] ↔ m (s + 1) ≠ 0 := by
      rw [Ne, Ne, hm.nul_iff (by omega), ← List.length_eq_zero_iff, text_length]
      omega
    refine tracks_must hbehind fun _ => ?_
    apply (parse_walk_tracks σ hm (Nat.succ_pos s) (by omega) (by omega) rfl 0).bind
    rintro ⟨precision, k⟩ e e' hparse
    have hk := parse_loop_le hparse
    rw [text_length] at hk
    dsimp only
    have hcursor : s + 1 + k - 1 = s + k := by omega
    rw [hcursor]
    apply Tracks.peek (by omega)
    have hinside : k ≤ (text m (s + 1) n).length ↔ m (s + k) ≠ 0 := by
      rw [Ne, hm.nul_iff (by omega), text_length]
      omega
    refine tracks_must hinside fun _ => ?_
    by_cases hp : precision = -1
    · rw [if_pos hp, if_pos hp]
      apply (tracks_lift n _).bind
      intro a _ _ _
      exact tracks_pure rfl
    · rw [if_neg hp, if_neg hp]
      exact tracks_pure rfl
  · rw [if_neg hc]
    obtain ⟨hsame, hgives⟩ := directive_plain write around hc v [] (text m (s + 1) n)
    rw [List.nil_append] at hsame
    rw [hsame]
    have htracks : Tracks n (fun r : Vars × Nat => (r.1, s + r.2))
        (directive write around v (m s) [] >>= pure)
        (lift (directive write around v (m s) []) >>= fun r => pure (r.1, s)) := by
      apply (tracks_lift n _).bind
      rintro ⟨v', k⟩ e e' heq
      obtain rfl : k = 0 := hgives _ _ _ heq
      exact tracks_pure rfl
    rw [bind_pure] at htracks
    exact htracks

theorem turn_walk_tracks (write : σ → UInt8 → σ) (around : Int → UInt8) (hm : Terminated m n)
    (hs : s < n) (hfuel : n < fuel) (v : Vars) :
    Tracks n (fun r : Vars × Nat => (r.1, s + r.2))
      (turn write around v (m s) (text m (s + 1) n)) (turn_walk write around m fuel v s) := by
  unfold turn turn_walk
  apply Tracks.peek (by omega)
  by_cases hplain : v.cont = false ∧ m s ≠ char '%'
  · rw [if_pos hplain, if_pos hplain]
    apply (tracks_lift n _).bind
    intro _ _ _ _
    exact tracks_pure rfl
  · rw [if_neg hplain, if_neg hplain]
    by_cases hopen : v.cont = false
    · rw [if_pos hopen, if_pos hopen]
      exact tracks_pure rfl
    · rw [if_neg hopen, if_neg hopen]
      apply (directive_walk_tracks write around hm hs hfuel v).bind
      rintro ⟨v', k⟩ _ _ _
      exact tracks_pure rfl

/-- The walk from `s` on. Each turn moves the cursor forward, so there are no more turns than
characters. -/
theorem loop_walk_tracks (write : σ → UInt8 → σ) (around : Int → UInt8) (hm : Terminated m n)
    {bound : Nat} (hbound : n < bound) (hfuel : n - s < fuel) (hs : s ≤ n) (v : Vars) :
    Tracks n id (scan (turn write around) v 0 (text m s n))
      (loop_walk write around m bound fuel v s) := by
  induction fuel generalizing s v with
  | zero => omega
  | succ fuel ih =>
    unfold loop_walk
    apply Tracks.peek hs
    by_cases hend : s = n
    · rw [hend, text_end, if_pos hm.nul, scan_nil]
      exact tracks_pure rfl
    · have hlt : s < n := by omega
      rw [text_cons m hlt, if_neg (hm.chars s hlt), scan_cons]
      apply (turn_walk_tracks write around hm hlt hbound v).bind
      rintro ⟨v', k⟩ e e' hturn
      have hk := (local_turn v (m s) (text m (s + 1) n) [] e v' k e' hturn).2
      rw [text_length] at hk
      dsimp only
      rw [scan_drop, text_drop, show s + 1 + k = s + k + 1 by omega]
      exact ih (by omega) (by omega) v'

/-- `vkcprintf` ends, reads no position past the NUL, and does what it does on the list of the
characters. -/
theorem vkcprintf_walk_eq (write : σ → UInt8 → σ) (around : Int → UInt8) (hm : Terminated m n)
    (hfuel : n < fuel) (e : Env σ) :
    ∃ seen : List Nat, (∀ x ∈ seen, x ≤ n) ∧
      vkcprintf_walk write around m fuel ⟨e, []⟩ =
        watched id seen (vkcprintf write around (text m 0 n) e) := by
  have htracks : Tracks n id (vkcprintf write around (text m 0 n))
      (vkcprintf_walk write around m fuel) := by
    apply (loop_walk_tracks write around hm hfuel (by omega) (Nat.zero_le n) start).bind
    intro v _ _ _
    exact tracks_pure rfl
  exact htracks e []

/-! ## Where the walk comes by -/

/-- The turns of `vkcprintf` lead from the first variables, cursor and state to the second ones. -/
inductive Visits (write : σ → UInt8 → σ) (around : Int → UInt8) (m : Nat → UInt8) (bound : Nat) :
    Vars → Nat → Watch (Env σ) → Vars → Nat → Watch (Env σ) → Prop
  | refl (v : Vars) (s : Nat) (w : Watch (Env σ)) : Visits write around m bound v s w v s w
  | turn {v v1 v' : Vars} {s s1 s' : Nat} {w w1 w' : Watch (Env σ)} (hs : m s ≠ 0)
      (h : turn_walk write around m bound v s w = .ok (v1, s1) w1)
      (hrest : Visits write around m bound v1 (s1 + 1) w1 v' s' w') :
      Visits write around m bound v s w v' s' w'

/-- One turn of the walk is one of the scan, and it goes forward. -/
theorem turn_walk_ok (write : σ → UInt8 → σ) (around : Int → UInt8) (hm : Terminated m n)
    (hs : s < n) (hfuel : n < fuel) {v v1 : Vars} {s1 : Nat} {w w1 : Watch (Env σ)}
    (h : turn_walk write around m fuel v s w = .ok (v1, s1) w1) :
    ∃ k, turn write around v (m s) (text m (s + 1) n) w.state = .ok (v1, k) w1.state ∧
      s1 = s + k ∧ s1 < n := by
  obtain ⟨state, seen⟩ := w
  obtain ⟨more, -, heq⟩ := turn_walk_tracks write around hm hs hfuel v state seen
  rw [h] at heq
  cases hturn : turn write around v (m s) (text m (s + 1) n) state with
  | error t e1 =>
    rw [hturn] at heq
    cases heq
  | ok r e1 =>
    obtain ⟨v2, k⟩ := r
    rw [hturn] at heq
    have hk := (local_turn v (m s) (text m (s + 1) n) [] state v2 k e1 hturn).2
    rw [text_length] at hk
    cases heq
    exact ⟨k, rfl, rfl, by omega⟩

theorem Visits.trans {bound : Nat} {v v' v'' : Vars} {s s' s'' : Nat} {w w' w'' : Watch (Env σ)}
    (h : Visits write around m bound v s w v' s' w')
    (h' : Visits write around m bound v' s' w' v'' s'' w'') :
    Visits write around m bound v s w v'' s'' w'' := by
  induction h with
  | refl => exact h'
  | turn hs h _ ih => exact .turn hs h (ih h')

theorem Visits.reaches {bound : Nat} {v v' : Vars} {s s' : Nat} {w w' : Watch (Env σ)}
    (h : Visits write around m bound v s w v' s' w') (hm : Terminated m n) (hbound : n < bound)
    (hs : s ≤ n) :
    s' ≤ n ∧
      Reaches (kprintf.turn write around) v (text m s n) w.state v' (text m s' n) w'.state := by
  induction h with
  | refl => exact ⟨hs, .refl _ _ _⟩
  | @turn v v1 _ s s1 _ w w1 _ hchar h _ ih =>
    have hlt : s < n := by
      rcases Nat.lt_or_eq_of_le hs with hlt | heq
      · exact hlt
      · exact absurd ((hm.nul_iff hs).mpr heq) hchar
    obtain ⟨k, hturn, rfl, hk⟩ := turn_walk_ok write around hm hlt hbound h
    obtain ⟨hend, hrest⟩ := ih hk
    refine ⟨hend, ?_⟩
    rw [text_cons m hlt]
    refine .turn hturn ?_
    rw [text_drop, show s + 1 + k = s + k + 1 by omega]
    exact hrest

theorem visits_of_reaches {bound : Nat} {v v' : Vars} {cs ds : Str}
    (h : Reaches (turn write around) v cs e v' ds e') (hm : Terminated m n) (hbound : n < bound)
    (hs : s ≤ n) (hcs : cs = text m s n) (seen : List Nat) :
    ∃ s' seen', s' ≤ n ∧ ds = text m s' n ∧
      Visits write around m bound v s ⟨e, seen⟩ v' s' ⟨e', seen'⟩ := by
  induction h generalizing s seen with
  | refl => exact ⟨s, seen, hs, hcs, .refl _ _ _⟩
  | @turn v0 v1 _ c cs _ e0 e1 _ k hturn _ ih =>
    have hlt : s < n := by
      rcases Nat.lt_or_eq_of_le hs with hlt | heq
      · exact hlt
      · rw [heq, text_end] at hcs
        cases hcs
    rw [text_cons m hlt] at hcs
    obtain ⟨rfl, rfl⟩ := List.cons.inj hcs
    obtain ⟨more, -, heq⟩ := turn_walk_tracks write around hm hlt hbound v0 e0 seen
    rw [hturn] at heq
    have hk := (local_turn v0 (m s) (text m (s + 1) n) [] e0 v1 k e1 hturn).2
    rw [text_length] at hk
    obtain ⟨s', seen', hle, hds, hvisits⟩ := ih (s := s + k + 1) (by omega)
      (by rw [text_drop, show s + 1 + k = s + k + 1 by omega]) (seen ++ more)
    exact ⟨s', seen', hle, hds, .turn (hm.chars s hlt) heq hvisits⟩

end salsola.kprintf
