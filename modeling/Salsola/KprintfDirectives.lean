-- One directive of a format, from its percent sign to its conversion: what the
-- scanner makes of the flags, the width, the precision and the length.
import Salsola.KprintfBuffer
import Salsola.KprintfNumbers

open scanner numeral

namespace salsola.kprintf

variable {σ : Type} {write : σ → UInt8 → σ} {around : Int → UInt8} {v : Vars} {cs flags : Str}
  {e : Env σ} {w d k : Nat} {ds : List Nat}

/-! ## The text of a directive -/

def digit (d : Nat) : UInt8 := UInt8.ofNat (48 + d)

/-- The decimal numeral of `n`. -/
def decimal (n : Nat) : Str := (places 10 n).map digit

/-- `-` and `0`, in any order, any number of times. -/
def IsFlags (flags : Str) : Prop := ∀ c ∈ flags, c = char '-' ∨ c = char '0'

/-- A width of 0 is not written. -/
def width_text (w : Nat) : Str := if w = 0 then [] else decimal w

/-- A directive with flags and a width: `level` times the letter `l`, then the conversion. -/
def directive_text (flags : Str) (w level : Nat) (conversion : UInt8) : Str :=
  char '%' :: (flags ++ (width_text w ++ (List.replicate level (char 'l') ++ [conversion])))

/-- A directive with a precision of these digits. -/
def precise_text (ds : List Nat) (level : Nat) (conversion : UInt8) : Str :=
  char '%' :: char '.' :: (ds.map digit ++ (List.replicate level (char 'l') ++ [conversion]))

/-- A directive with a precision that is an argument. -/
def star_text (level : Nat) (conversion : UInt8) : Str :=
  char '%' :: char '.' :: char '*' :: (List.replicate level (char 'l') ++ [conversion])

/-! ## Turns -/

/-- The turns at a directive that goes on. -/
theorem turn_cont {e' : Env σ} (hv : v.cont = true) {c : UInt8} {w : Vars}
    (h : directive write around v c cs e = .ok (w, k) e') (hw : w.cont = true) :
    turn write around v c cs e = .ok (w, k) e' := by
  unfold turn
  rw [if_neg (by rw [hv]; simp), if_neg (by rw [hv]; simp), run_bind_ok h]
  unfold Vars.close
  dsimp only
  rw [if_pos hw]
  rfl

theorem reaches_percent (hv : v.cont = false) (cs : Str) (e : Env σ) :
    Reaches (turn write around) v (char '%' :: cs) e { v with cont := true } cs e := by
  refine reaches_one (k := 0) ?_
  unfold turn
  rw [if_neg (fun hc => hc.2 rfl), if_pos hv]
  rfl

theorem scan_percent (cs : Str) (e : Env σ) :
    scan (turn write around) start 0 (char '%' :: cs) e =
      scan (turn write around) { start with cont := true } 0 cs e := (reaches_percent rfl cs e).scan

theorem reaches_minus (hv : v.cont = true) (hw : v.width = 0) (cs : Str) (e : Env σ) :
    Reaches (turn write around) v (char '-' :: cs) e { v with right_padding := true } cs e := by
  have hcont : ({ v with right_padding := true } : Vars) =
      { v with right_padding := true, cont := true } := by rw [← hv]
  have hdir : directive write around v (char '-') cs e =
      .ok ({ v with right_padding := true, cont := true }, 0) e := run_bind_ok (must_of hw e)
  rw [hcont]
  exact reaches_one (turn_cont hv hdir rfl)

theorem reaches_zero (hv : v.cont = true) (cs : Str) (e : Env σ) :
    Reaches (turn write around) v (char '0' :: cs) e { v with
      width := to_int (v.width * 10)
      zero_padding := v.zero_padding || to_int (v.width * 10) = 0 } cs e := by
  have hcont : ({ v with
      width := to_int (v.width * 10)
      zero_padding := v.zero_padding || to_int (v.width * 10) = 0 } : Vars) = { v with
      width := to_int (v.width * 10)
      zero_padding := v.zero_padding || to_int (v.width * 10) = 0
      cont := true } := by rw [← hv]
  have hdir : directive write around v (char '0') cs e = .ok ({ v with
      width := to_int (v.width * 10)
      zero_padding := v.zero_padding || to_int (v.width * 10) = 0
      cont := true }, 0) e := rfl
  rw [hcont]
  exact reaches_one (turn_cont hv hdir rfl)

theorem reaches_flags (hf : IsFlags flags) (hv : v.cont = true) (hw : v.width = 0) (cs : Str)
    (e : Env σ) :
    Reaches (turn write around) v (flags ++ cs) e { v with
      zero_padding := v.zero_padding || char '0' ∈ flags
      right_padding := v.right_padding || char '-' ∈ flags } cs e := by
  induction flags generalizing v with
  | nil =>
    have hsame : ({ v with
        zero_padding := v.zero_padding || char '0' ∈ ([] : Str)
        right_padding := v.right_padding || char '-' ∈ ([] : Str) } : Vars) = v := by simp
    rw [hsame]
    exact .refl _ _ _
  | cons c flags ih =>
    have htail : IsFlags flags := fun c hc => hf c (List.mem_cons_of_mem _ hc)
    rw [List.cons_append]
    rcases hf c List.mem_cons_self with rfl | rfl
    · have hrest := ih (v := { v with right_padding := true }) htail hv hw
      have hminus : (char '0' ∈ char '-' :: flags) = (char '0' ∈ flags) := by
        rw [List.mem_cons, eq_false (by decide : ¬ char '0' = char '-'), false_or]
      refine (reaches_minus hv hw _ e).trans ?_
      simpa [hminus] using hrest
    · have hzero : to_int (v.width * 10) = 0 := by
        rw [hw]
        rfl
      have hrest := ih (v := { v with width := 0, zero_padding := v.zero_padding || (0 : Int) = 0 })
        htail hv rfl
      have hminus : (char '-' ∈ char '0' :: flags) = (char '-' ∈ flags) := by
        rw [List.mem_cons, eq_false (by decide : ¬ char '-' = char '0'), false_or]
      refine (reaches_zero hv _ e).trans ?_
      rw [hzero]
      simpa [hminus, hw] using hrest

theorem scan_flags (hf : IsFlags flags) (hv : v.cont = true) (hw : v.width = 0) (cs : Str)
    (e : Env σ) :
    scan (turn write around) v 0 (flags ++ cs) e =
      scan (turn write around) { v with
        zero_padding := v.zero_padding || char '0' ∈ flags
        right_padding := v.right_padding || char '-' ∈ flags } 0 cs e :=
  (reaches_flags hf hv hw cs e).scan

/-! ## Digits -/

theorem case_of_digit (hd : d < 10) :
    case_of (digit d) = if d = 0 then .zero else .digit := by
  revert d
  decide

theorem digit_value (hd : d < 10) : (digit d - char '0').toNat = d := by
  revert d
  decide

/-- A digit of the width, which makes it `x`. -/
theorem reaches_digit (write : σ → UInt8 → σ) (around : Int → UInt8) {x y : Int}
    (hv : v.cont = true) (hd : d < 10) (hy : v.width = y) (hx : to_int (y * 10 + d) = x) (cs : Str)
    (e : Env σ) :
    Reaches (turn write around) v (digit d :: cs) e { v with
      width := x
      zero_padding := v.zero_padding || (d = 0 && x = 0) } cs e := by
  subst hx hy
  by_cases h0 : d = 0
  · subst h0
    have hchar : digit 0 = char '0' := by decide
    have hzero : Reaches (turn write around) v (char '0' :: cs) e { v with
        width := to_int (v.width * 10)
        zero_padding := v.zero_padding || to_int (v.width * 10) = 0 } cs e := reaches_zero hv cs e
    rw [hchar]
    simpa using hzero
  · have hdir : directive write around v (digit d) cs e = .ok ({ v with
        width := to_int (v.width * 10 + d)
        zero_padding := v.zero_padding || (d = 0 && to_int (v.width * 10 + d) = 0) }, 0) e := by
      unfold directive
      rw [case_of_digit hd, if_neg h0]
      dsimp only
      rw [digit_value hd, to_int_add_left, ← hv, decide_eq_false h0, Bool.false_and,
        Bool.or_false]
      rfl
    exact reaches_one (turn_cont hv hdir hv)

theorem decimal_step (h : 10 ≤ w) : decimal w = decimal (w / 10) ++ [digit (w % 10)] := by
  unfold decimal
  rw [places_step (by decide) h, List.map_append]
  rfl

theorem decimal_digit (h : w < 10) : decimal w = [digit w] := by
  unfold decimal
  rw [places_digit h]
  rfl

/-- The width is read as an `int`. Below 2^32 no part of it is taken for the flag `0`. -/
theorem reaches_width (hv : v.cont = true) (hw : v.width = 0) (hpos : 0 < w) (cs : Str)
    (e : Env σ) :
    ∃ z : Bool, Reaches (turn write around) v (decimal w ++ cs) e
        { v with width := to_int w, zero_padding := z } cs e ∧
      (w < 2 ^ 32 → z = v.zero_padding) := by
  induction w using Nat.strong_induction_on generalizing cs with
  | _ w ih =>
    by_cases hlt : w < 10
    · have hvalue : to_int (0 * 10 + w) = to_int w := by
        rw [Int.zero_mul, Int.zero_add]
      rw [decimal_digit hlt]
      refine ⟨_, reaches_digit _ _ hv hlt hw hvalue cs e, fun _ => ?_⟩
      rw [decide_eq_false (by omega : ¬ w = 0), Bool.false_and, Bool.or_false]
    · obtain ⟨z, hrest, hz⟩ := ih (w / 10) (by omega) (by omega) (digit (w % 10) :: cs)
      have hvalue : to_int (to_int (w / 10 : Nat) * 10 + (w % 10 : Nat)) = to_int w := by
        unfold to_int Int.bmod
        dsimp only
        split <;> split <;> omega
      rw [decimal_step (by omega), List.append_assoc, List.singleton_append]
      obtain ⟨u, hu⟩ : ∃ u, u = { v with width := to_int (w / 10 : Nat), zero_padding := z } :=
        ⟨_, rfl⟩
      have hucont : u.cont = true := by rw [hu, hv]
      have huwidth : u.width = to_int (w / 10 : Nat) := by rw [hu]
      rw [← hu] at hrest
      have hstep := reaches_digit write around hucont
        (Nat.mod_lt w (by decide)) huwidth hvalue cs e
      refine ⟨u.zero_padding || (w % 10 = 0 && to_int w = 0), ?_, ?_⟩
      · refine hrest.trans ?_
        rw [hu] at hstep ⊢
        exact hstep
      · intro hsmall
        have hne : ¬ to_int w = 0 := by
          unfold to_int Int.bmod
          dsimp only
          split <;> omega
        rw [hu, hz (by omega), decide_eq_false hne, Bool.and_false, Bool.or_false]

/-- No width is like a width of 0. -/
theorem reaches_width_text (write : σ → UInt8 → σ) (around : Int → UInt8) (hv : v.cont = true)
    (hw : v.width = 0) (w : Nat) (cs : Str) (e : Env σ) :
    ∃ z : Bool, Reaches (turn write around) v (width_text w ++ cs) e
        { v with width := to_int w, zero_padding := z } cs e ∧
      (w < 2 ^ 32 → z = v.zero_padding) := by
  unfold width_text
  by_cases h0 : w = 0
  · refine ⟨v.zero_padding, ?_, fun _ => rfl⟩
    have hzero : to_int (0 : Nat) = v.width := hw.symm
    rw [if_pos h0, h0, hzero]
    exact .refl _ _ _
  · rw [if_neg h0]
    exact reaches_width hv hw (Nat.pos_of_ne_zero h0) cs e

theorem scan_width_text (write : σ → UInt8 → σ) (around : Int → UInt8) (hv : v.cont = true)
    (hw : v.width = 0) (w : Nat) (cs : Str) (e : Env σ) :
    ∃ z : Bool, scan (turn write around) v 0 (width_text w ++ cs) e =
        scan (turn write around) { v with width := to_int w, zero_padding := z } 0 cs e ∧
      (w < 2 ^ 32 → z = v.zero_padding) := by
  obtain ⟨z, hreach, hz⟩ := reaches_width_text write around hv hw w cs e
  exact ⟨z, hreach.scan, hz⟩

/-! ## Lengths and precisions -/

theorem reaches_level (hv : v.cont = true) (level : Nat) (hl : v.long_level + level ≤ 2) (cs : Str)
    (e : Env σ) :
    Reaches (turn write around) v (List.replicate level (char 'l') ++ cs) e
      { v with long_level := v.long_level + level } cs e := by
  induction level generalizing v with
  | zero => exact .refl _ _ _
  | succ level ih =>
    have hdir : directive write around v (char 'l')
        (List.replicate level (char 'l') ++ cs) e =
          .ok ({ v with long_level := v.long_level + 1 }, 0) e :=
      run_bind_ok (must_of (by omega : v.long_level + 1 ≤ 2) e)
    rw [List.replicate_succ, List.cons_append]
    refine (reaches_one (turn_cont hv hdir hv)).trans ?_
    have hrest := ih (v := { v with long_level := v.long_level + 1 }) hv (by
      show v.long_level + 1 + level ≤ 2
      omega)
    dsimp only at hrest
    rw [Nat.add_assoc, Nat.add_comm 1 level] at hrest
    exact hrest

theorem scan_level (hv : v.cont = true) (level : Nat) (hl : v.long_level + level ≤ 2) (cs : Str)
    (e : Env σ) :
    scan (turn write around) v 0 (List.replicate level (char 'l') ++ cs) e =
      scan (turn write around) { v with long_level := v.long_level + level } 0 cs e :=
  (reaches_level hv level hl cs e).scan

/-- The number that the digits write. -/
def number (ds : List Nat) : Nat := Nat.ofDigits 10 ds.reverse

theorem number_append (ds : List Nat) (d : Nat) : number (ds ++ [d]) = number ds * 10 + d := by
  unfold number
  rw [List.reverse_append, List.reverse_singleton, List.singleton_append, Nat.ofDigits_cons]
  ring

/-- Neither a digit nor a star. -/
def Ends (c : UInt8) : Prop := c ≠ char '*' ∧ ¬ (char '0' ≤ c ∧ c ≤ char '9')

instance (c : UInt8) : Decidable (Ends c) := by unfold Ends; infer_instance

theorem digit_goes_on (hd : d < 10) :
    digit d ≠ char '*' ∧ char '0' ≤ digit d ∧ digit d ≤ char '9' := by
  revert d
  decide

/-- `parse_precision` reads the digits as an `int`, and stops in front of the first other
character. -/
theorem parse_loop_digits {c : UInt8} (hc : Ends c) (ds before : List Nat) (hds : ∀ d ∈ ds, d < 10)
    (cs : Str) (e : Env σ) :
    parse_loop before.length (to_int (number before)) (ds.map digit ++ c :: cs) e =
      .ok (to_int (number (before ++ ds)), (before ++ ds).length) e := by
  induction ds generalizing before with
  | nil =>
    rw [List.map_nil, List.nil_append, List.append_nil]
    unfold parse_loop
    rw [if_neg hc.1, if_pos hc.2]
    rfl
  | cons d ds ih =>
    rw [List.forall_mem_cons] at hds
    obtain ⟨hstar, hlow, hhigh⟩ := digit_goes_on hds.1
    have hvalue : to_int (to_int (to_int (number before) * 10) + d) =
        to_int (number (before ++ [d])) := by
      rw [number_append, to_int_add_left]
      unfold to_int Int.bmod
      dsimp only
      split <;> split <;> omega
    rw [List.map_cons, List.cons_append]
    unfold parse_loop
    rw [if_neg hstar, if_neg (not_not.mpr ⟨hlow, hhigh⟩), digit_value hds.1, hvalue,
      show before.length + 1 = (before ++ [d]).length by simp, ih (before ++ [d]) hds.2,
      List.append_assoc, List.singleton_append]

theorem scan_along (k : Nat) (ds cs : Str) (hk : ds.length = k) :
    scan (turn write around) v k (ds ++ cs) e = scan (turn write around) v 0 cs e := by
  induction ds generalizing k with
  | nil =>
    subst hk
    rfl
  | cons d ds ih =>
    subst hk
    exact ih ds.length rfl

theorem parse_precision_digits {c : UInt8} (hc : Ends c) (ds : List Nat)
    (hds : ∀ d ∈ ds, d < 10) (cs : Str) (e : Env σ) :
    parse_precision (ds.map digit ++ c :: cs) e =
      .ok (to_int (number ds), (ds.map digit).length) e := by
  rw [List.length_map]
  exact parse_loop_digits hc ds [] hds cs e

/-- A precision that `parse_precision` reads, unless it becomes -1 as an `int`. -/
theorem reaches_precision (hv : v.cont = true) {c : UInt8} (hc : Ends c) (ds : List Nat)
    (hds : ∀ d ∈ ds, d < 10) (hp : to_int (number ds) ≠ -1) (cs : Str) (e : Env σ) :
    Reaches (turn write around) v (char '.' :: (ds.map digit ++ c :: cs)) e
      { v with precision := to_int (number ds) } (c :: cs) e := by
  have hdir : directive write around v (char '.') (ds.map digit ++ c :: cs) e =
      .ok ({ v with precision := to_int (number ds) }, (ds.map digit).length) e := by
    unfold directive
    rw [show case_of (char '.') = .period by decide]
    dsimp only
    rw [run_bind_ok (must_of (by simp) e), run_bind_ok (parse_precision_digits hc ds hds cs e)]
    dsimp only
    rw [run_bind_ok (must_of (by simp) e), if_neg hp, ← hv]
    rfl
  have hreach := reaches_one (turn_cont hv hdir hv)
  rw [List.drop_left] at hreach
  exact hreach

theorem scan_precision (hv : v.cont = true) {c : UInt8} (hc : Ends c) (ds : List Nat)
    (hds : ∀ d ∈ ds, d < 10) (hp : to_int (number ds) ≠ -1) (cs : Str) (e : Env σ) :
    scan (turn write around) v 0 (char '.' :: (ds.map digit ++ c :: cs)) e =
      scan (turn write around) { v with precision := to_int (number ds) } 0 (c :: cs) e :=
  (reaches_precision hv hc ds hds hp cs e).scan

/-- A precision that becomes -1 as an `int` is taken for a star: it reads an argument. -/
theorem scan_precision_lost (hv : v.cont = true) {c : UInt8} (hc : Ends c) (ds : List Nat)
    (hds : ∀ d ∈ ds, d < 10) (hp : to_int (number ds) = -1) (cs : Str) (e : Env σ) :
    scan (turn write around) v 0 (char '.' :: (ds.map digit ++ c :: cs)) e =
      match va_arg .int e with
      | .ok a e' =>
        scan (turn write around) { v with precision := to_int (UInt32.toNat a) } 0 (c :: cs) e'
      | .error t e' => .error t e' := by
  have hdir : directive write around v (char '.') (ds.map digit ++ c :: cs) e =
      (va_arg .int >>= fun a => pure ({ v with
        precision := to_int (UInt32.toNat a) }, (ds.map digit).length)) e := by
    unfold directive
    rw [show case_of (char '.') = .period by decide]
    dsimp only
    rw [run_bind_ok (must_of (by simp) e), run_bind_ok (parse_precision_digits hc ds hds cs e)]
    dsimp only
    rw [run_bind_ok (must_of (by simp) e), if_pos hp, ← hv]
  cases hread : va_arg .int e with
  | ok a e' =>
    rw [run_bind_ok hread] at hdir
    dsimp only
    rw [scan_ok (turn_cont hv hdir hv)]
    exact scan_along _ _ _ rfl
  | error trap e' =>
    rw [run_bind_error hread] at hdir
    have hturn : turn write around v (char '.') (ds.map digit ++ c :: cs) e = .error trap e' := by
      unfold turn
      rw [if_neg (by rw [hv]; simp), if_neg (by rw [hv]; simp), run_bind_error hdir]
    exact scan_error hturn

/-- A precision that is an argument. -/
theorem reaches_star (hv : v.cont = true) (a : UInt32) (args : List Arg)
    (he : e.args = .word a :: args) (cs : Str) :
    Reaches (turn write around) v (char '.' :: char '*' :: cs) e
      { v with precision := to_int a.toNat } cs
      { e with args, reads := e.reads ++ [.int] } := by
  have hparse : parse_precision (char '*' :: cs) e = .ok (-1, 1) e := by
    unfold parse_precision parse_loop
    rw [if_pos rfl]
    exact run_bind_ok (must_of rfl e)
  have hread : va_arg .int e = .ok a { e with args, reads := e.reads ++ [.int] } := by
    unfold va_arg
    rw [he]
    rfl
  have hdir : directive write around v (char '.') (char '*' :: cs) e =
      .ok ({ v with precision := to_int a.toNat }, 1)
        { e with args, reads := e.reads ++ [.int] } := by
    unfold directive
    rw [show case_of (char '.') = .period by decide]
    dsimp only
    rw [run_bind_ok (must_of (by simp) e), run_bind_ok hparse]
    dsimp only
    rw [run_bind_ok (must_of (by simp) e), if_pos rfl, run_bind_ok hread, ← hv]
    rfl
  exact reaches_one (turn_cont hv hdir hv)

theorem scan_star (hv : v.cont = true) (a : UInt32) (args : List Arg)
    (he : e.args = .word a :: args) (cs : Str) :
    scan (turn write around) v 0 (char '.' :: char '*' :: cs) e =
      scan (turn write around) { v with precision := to_int a.toNat } 0 cs
        { e with args, reads := e.reads ++ [.int] } := (reaches_star hv a args he cs).scan

end salsola.kprintf
