-- The conversions of integers: what %d, %i and %u print, against the numerals
-- and the padding that the C standard asks for.
import Salsola.KprintfDirectives

open scanner numeral

namespace salsola.kprintf

variable {σ : Type} {write : σ → UInt8 → σ} {around : Int → UInt8} {v : Vars} {flags fmt : Str}
  {args : List Arg} {arg : Arg} {e e' : Env σ} {n : Int} {w p level : Nat} {conv : UInt8}

/-! ## What the C standard asks for -/

def sign (n : Int) : Str := if n < 0 then [char '-'] else []

/-- A number with flags and a width: `-` puts it on the left, and overrides `0`, which puts zeros
between the sign and the digits. -/
def conversion (flags : Str) (w : Nat) (n : Int) : Str :=
  let digits := decimal n.natAbs
  let pad := w - (sign n ++ digits).length
  if char '-' ∈ flags then sign n ++ digits ++ List.replicate pad (char ' ')
  else if char '0' ∈ flags then sign n ++ List.replicate pad (char '0') ++ digits
  else List.replicate pad (char ' ') ++ sign n ++ digits

/-- A number with a precision: at least that many digits, and none for 0 with a precision of 0. -/
def precise_conversion (p : Nat) (n : Int) : Str :=
  let digits := if p = 0 ∧ n = 0 then [] else decimal n.natAbs
  sign n ++ List.replicate (p - digits.length) (char '0') ++ digits

/-- The number of the argument for `%d`, `%ld` and `%lld`. -/
def signed (level : Nat) : Arg → Option Int
  | .word a => if level = 0 then some (to_int a.toNat) else none
  | .long a => if level = 1 ∨ level = 2 then some (to_long_long a.toNat) else none
  | .str _ => none

/-- The number of the argument for `%u`, `%lu` and `%llu`. -/
def unsigned (level : Nat) : Arg → Option Nat
  | .word a => if level = 0 then some a.toNat else none
  | .long a => if level = 1 ∨ level = 2 then some a.toNat else none
  | .str _ => none

/-- The text is printed, whatever stands around the digit table in memory. -/
def Prints (fmt : Str) (args : List Arg) (text : Str) : Prop :=
  ∀ around, ∃ n reads, printed around fmt args = .ok n { ctx := text, args := [], reads }

/-! ## The number printers -/

/-- What `print_num` has in `str` for a number, in the order of the output. -/
def num_text (around : Int → UInt8) (n : Int) : Str :=
  let cs := char_set (chars "0123456789") around
  let m := if n < 0 then to_long_long (n * -1) else n
  let str := if m = 0 then [cs 0] else digits cs 10 32 m
  (if n < 0 then str ++ [char '-'] else str).reverse

theorem print_int_eq (n width : Int) (zero_padding right_padding : Bool) (e : Env σ) :
    print_int write around n width zero_padding right_padding e =
      .ok (to_int (missing width (num_text around n) + (num_text around n).length)) { e with
        ctx := (padded zero_padding right_padding (missing width (num_text around n))
          (num_text around n)).foldl write e.ctx } :=
  print_str_eq _ _ _ _ _

theorem decimal_table (around : Int → UInt8) (n : Nat) :
    spelled (char_set (chars "0123456789") around) (places 10 n) = decimal n := by
  apply List.map_congr_left
  intro d hd
  have hlt := places_lt (by decide) hd
  interval_cases d <;> rfl

/-- But for the lowest one, a number is printed as its sign and its digits. -/
theorem num_text_eq (around : Int → UInt8) (hlow : -2 ^ 63 < n) (hhigh : n < 2 ^ 64) :
    num_text around n = sign n ++ decimal n.natAbs := by
  have hn : n.natAbs < 10 ^ 32 := by omega
  have hstr := str_eq (char_set (chars "0123456789") around) (by decide : 1 < 10) hn
  rw [decimal_table] at hstr
  unfold num_text sign
  by_cases hneg : n < 0
  · have hm : to_long_long (n * -1) = (n.natAbs : Int) := by
      unfold to_long_long Int.bmod
      dsimp only
      split <;> omega
    simp only [if_pos hneg, hm]
    rw [List.reverse_append, List.reverse_singleton]
    exact congrArg (char '-' :: ·) hstr
  · have hm : n = (n.natAbs : Int) := by omega
    simp only [if_neg hneg]
    rw [List.nil_append, ← hstr, ← hm]
    rfl

/-- The lowest number stays negative, and its digits are looked up in front of the table. -/
theorem num_text_lowest (around : Int → UInt8) (hn : n = -2 ^ 63) :
    around (-8) ∈ num_text around n := by
  rw [hn]
  have hm : to_long_long (-2 ^ 63 * -1) = -2 ^ 63 := by decide
  unfold num_text
  simp only [hm]
  rw [if_pos (by decide), if_neg (by decide), List.mem_reverse, List.mem_append]
  left
  unfold digits
  rw [if_neg (by decide)]
  exact List.mem_cons_self

/-- A negative number has its sign. -/
theorem sign_mem_num_text (around : Int → UInt8) (hn : n < 0) : char '-' ∈ num_text around n := by
  unfold num_text
  simp only [if_pos hn]
  rw [List.mem_reverse, List.mem_append]
  exact Or.inr (List.mem_singleton.mpr rfl)

/-! ## The end of a directive -/

theorem va_arg_eq {t : CType} {a : t.Value} {rest : List Arg} (h : arg.as t = some a)
    (hargs : e.args = arg :: rest) :
    va_arg t e = .ok a { e with args := rest, reads := e.reads ++ [t] } := by
  unfold va_arg
  rw [hargs]
  dsimp only
  rw [h]

/-- The environment behind the output of a number. -/
def Env.after (write : σ → UInt8 → σ) (around : Int → UInt8) (e : Env σ) (v : Vars) (n : Int)
    (rest : List Arg) (t : CType) : Env σ where
  ctx := (padded v.zero_padding v.right_padding (missing v.width (num_text around n))
    (num_text around n)).foldl write e.ctx
  args := rest
  reads := e.reads ++ [t]

theorem directive_d (hconv : case_of conv = .d) (hs : signed v.long_level arg = some n)
    {rest : List Arg} (hargs : e.args = arg :: rest) :
    ∃ u t, directive write around v conv [] e =
      .ok (u, 0) (e.after write around v.precise n rest t) := by
  have hlevel : v.precise.long_level = v.long_level := by
    unfold Vars.precise
    split <;> rfl
  unfold directive
  rw [hconv]
  dsimp only
  rw [hlevel]
  cases arg with
  | word a =>
    obtain ⟨hl, hn⟩ := Option.ite_none_right_eq_some.mp hs
    obtain rfl := Option.some.inj hn
    rw [hl, if_neg (by decide), run_bind_ok (va_arg_eq (t := .int) rfl hargs),
      run_bind_ok (print_int_eq _ _ _ _ _)]
    exact ⟨_, _, rfl⟩
  | long a =>
    obtain ⟨hl, hn⟩ := Option.ite_none_right_eq_some.mp hs
    obtain rfl := Option.some.inj hn
    rw [if_pos hl.symm, run_bind_ok (va_arg_eq (t := .long_long) rfl hargs),
      run_bind_ok (print_int_eq _ _ _ _ _)]
    exact ⟨_, _, rfl⟩
  | str s => cases hs

/-- Without an argument there is no number. -/
theorem turn_d_without (hconv : case_of conv = .d) (hargs : e.args = []) (hv : v.cont = true)
    (r : Vars × Nat) (e' : Env σ) : turn write around v conv [] e ≠ .ok r e' := by
  intro h
  have hread : ∀ t, va_arg t e = .error .va_arg { e with reads := e.reads ++ [t] } := by
    intro t
    unfold va_arg
    rw [hargs]
  unfold turn at h
  rw [if_neg (by rw [hv]; simp), if_neg (by rw [hv]; simp)] at h
  obtain ⟨r1, e1, hdir, -⟩ := bind_eq_ok.mp h
  unfold directive at hdir
  rw [hconv] at hdir
  dsimp only at hdir
  split at hdir
  · rw [run_bind_error (hread _)] at hdir
    cases hdir
  · rw [run_bind_error (hread _)] at hdir
    cases hdir

theorem end_d (around : Int → UInt8) (hconv : case_of conv = .d)
    (hs : signed level arg = some n) (v : Vars) (e : Env Str) (hv : v.long_level = level)
    (hargs : e.args = [arg]) :
    ∃ u t, directive log around v conv [] e = .ok (u, 0) (e.after log around v.precise n [] t) :=
  directive_d hconv (hv ▸ hs) hargs

theorem end_d_plain (around : Int → UInt8) (hconv : case_of conv = .d)
    (hs : signed level arg = some n) (v : Vars) (e : Env Str) (hv : v.long_level = level)
    (hp : v.precision = -1) (hargs : e.args = [arg]) :
    ∃ u t, directive log around v conv [] e = .ok (u, 0) (e.after log around v n [] t) := by
  have hplain : v.precise = v := if_neg (not_not.mpr hp)
  have h := end_d around hconv hs v e hv hargs
  rw [hplain] at h
  exact h

/-- `%u` goes through a `long long` as well. -/
theorem directive_u (hconv : case_of conv = .u) (hp : v.precision = -1)
    (hs : unsigned v.long_level arg = some w) {rest : List Arg} (hargs : e.args = arg :: rest) :
    ∃ u t, directive write around v conv [] e =
      .ok (u, 0) (e.after write around v (to_long_long w) rest t) := by
  unfold directive
  rw [hconv]
  dsimp only
  rw [run_bind_ok (must_of hp e)]
  cases arg with
  | word a =>
    obtain ⟨hl, hn⟩ := Option.ite_none_right_eq_some.mp hs
    obtain rfl := Option.some.inj hn
    have hword : to_long_long a.toNat = a.toNat := by
      have := a.toNat_lt
      unfold to_long_long Int.bmod
      dsimp only
      split <;> omega
    rw [hl, if_neg (by decide), run_bind_ok (va_arg_eq (t := .unsigned_int) rfl hargs), hword,
      run_bind_ok (print_int_eq _ _ _ _ _)]
    exact ⟨_, _, rfl⟩
  | long a =>
    obtain ⟨hl, hn⟩ := Option.ite_none_right_eq_some.mp hs
    obtain rfl := Option.some.inj hn
    rw [if_pos hl.symm, run_bind_ok (va_arg_eq (t := .unsigned_long_long) rfl hargs),
      run_bind_ok (print_int_eq _ _ _ _ _)]
    exact ⟨_, _, rfl⟩
  | str s => cases hs

/-- The format ends with the conversion. -/
theorem printed_of_scan {u : Vars} {e e' : Env Str} (hv : v.cont = true)
    (hscan : scan (turn log around) start 0 fmt { ctx := [], args, reads := [] } =
      scan (turn log around) v 0 [conv] e)
    (hdir : directive log around v conv [] e = .ok (u, 0) e') :
    ∃ k, printed around fmt args = .ok k e' := by
  have hturn : turn log around v conv [] e = .ok (u.close, 0) e' := by
    unfold turn
    rw [if_neg (by rw [hv]; simp), if_neg (by rw [hv]; simp), run_bind_ok hdir]
    rfl
  rw [scan_ok hturn, scan_nil] at hscan
  exact ⟨u.close.rc, run_bind_ok hscan⟩

/-- With flags and a width: the width is an `int`, and below 2^32 the flags are those of the
format. -/
theorem printed_width (around : Int → UInt8) (hf : IsFlags flags) (hl : level ≤ 2)
    (hend : ∀ (v : Vars) (e : Env Str), v.long_level = level → v.precision = -1 →
      e.args = [arg] → ∃ u t, directive log around v conv [] e =
        .ok (u, 0) (e.after log around v n [] t)) (w : Nat) :
    ∃ z k t, printed around (directive_text flags w level conv) [arg] = .ok k {
        ctx := padded z (char '-' ∈ flags) (missing (to_int w) (num_text around n))
          (num_text around n)
        args := []
        reads := [t] } ∧
      (w < 2 ^ 32 → z = decide (char '0' ∈ flags)) := by
  obtain ⟨v1, hv1⟩ : ∃ v1 : Vars, v1 = { start with
    cont := true
    zero_padding := false || decide (char '0' ∈ flags)
    right_padding := false || decide (char '-' ∈ flags) } := ⟨_, rfl⟩
  obtain ⟨z, hwidth, hz⟩ := scan_width_text (v := v1) log around
    (by rw [hv1]) (by rw [hv1]; rfl) w (List.replicate level (char 'l') ++ [conv])
    { ctx := [], args := [arg], reads := [] }
  obtain ⟨v2, hv2⟩ : ∃ v2 : Vars, v2 = { v1 with width := to_int w, zero_padding := z } := ⟨_, rfl⟩
  have hcont : v2.cont = true := by rw [hv2, hv1]
  have hzero : v2.long_level = 0 := by rw [hv2, hv1]; rfl
  have hprecision : v2.precision = -1 := by rw [hv2, hv1]; rfl
  have hpadding : v2.zero_padding = z := by rw [hv2]
  have hright : v2.right_padding = decide (char '-' ∈ flags) := by rw [hv2, hv1]; simp
  have hint : v2.width = to_int w := by rw [hv2]
  rw [← hv2] at hwidth
  have hscan : scan (turn log around) start 0 (directive_text flags w level conv)
      { ctx := [], args := [arg], reads := [] } =
      scan (turn log around) { v2 with long_level := v2.long_level + level } 0 [conv]
        { ctx := [], args := [arg], reads := [] } := by
    unfold directive_text
    rw [scan_percent, scan_flags hf rfl rfl]
    refine Eq.trans ?_ (hwidth.trans ?_)
    · rw [hv1]
      rfl
    · rw [scan_level hcont level (by omega)]
  obtain ⟨u, t, hdir⟩ := hend { v2 with long_level := v2.long_level + level }
    { ctx := [], args := [arg], reads := [] } (by dsimp only; omega) hprecision rfl
  obtain ⟨k, hk⟩ := printed_of_scan (v := { v2 with long_level := v2.long_level + level })
    hcont hscan hdir
  refine ⟨z, k, t, ?_, ?_⟩
  · rw [hk]
    unfold Env.after
    dsimp only
    rw [foldl_log, List.nil_append, List.nil_append, hpadding, hright, hint]
  · intro hw
    rw [hz hw, hv1]
    rfl

/-! ## Padding -/

theorem missing_lt (width : Int) (text : Str) : missing width text < 2 ^ 31 := by
  unfold missing to_int Int.bmod
  dsimp only
  split <;> omega

/-- The padding of a width that is read as an `int`, as long as it is an `int` itself. -/
theorem missing_width {text : Str} (hlen : text.length ≤ 32) (hw : w < 2 ^ 31 + text.length) :
    missing (to_int w) text = w - text.length := by
  unfold missing to_int Int.bmod
  dsimp only
  split <;> split <;> omega

theorem length_conversion (flags : Str) (w : Nat) (n : Int) :
    (conversion flags w n).length = max w (sign n ++ decimal n.natAbs).length := by
  unfold conversion
  dsimp only
  split
  · simp only [List.length_append, List.length_replicate]
    omega
  · split <;> simp only [List.length_append, List.length_replicate] <;> omega

theorem length_sign (n : Int) : (sign n).length ≤ 1 := by
  unfold sign
  split <;> decide

theorem length_decimal {m k : Nat} (hk : 0 < k) : (decimal m).length ≤ k ↔ m < 10 ^ k := by
  unfold decimal
  rw [List.length_map]
  exact length_places_le (by decide) hk

/-- The digits start with a digit, which is no minus sign. -/
theorem decimal_cons (m : Nat) : ∃ d ds, decimal m = digit d :: ds ∧ d < 10 := by
  unfold decimal
  cases hplaces : places 10 m with
  | nil => exact absurd hplaces (places_ne_nil 10 m)
  | cons d ds =>
    have hd : d ∈ places 10 m := by
      rw [hplaces]
      exact List.mem_cons_self
    exact ⟨d, ds.map digit, rfl, places_lt (by decide) hd⟩

/-- Padding that starts with `a` where the other text starts with `b`. -/
theorem head_ne {a b : UInt8} {s s' : Str} (hab : a ≠ b) : a :: s ≠ b :: s' :=
  fun h => hab (List.cons.inj h).1

theorem replicate_pos (hk : 0 < w) (c : UInt8) :
    List.replicate w c = c :: List.replicate (w - 1) c := by
  obtain ⟨k, rfl⟩ : ∃ k, w = k + 1 := ⟨w - 1, by omega⟩
  rfl

/-- When the padding of the code is that of the standard: there is none, or it is made of blanks,
or of zeros in front of a number without a sign. -/
theorem padded_iff (flags : Str) (w : Nat) (n : Int) :
    padded (char '0' ∈ flags) (char '-' ∈ flags) (w - (sign n ++ decimal n.natAbs).length)
        (sign n ++ decimal n.natAbs) = conversion flags w n ↔
      w ≤ (sign n ++ decimal n.natAbs).length ∨ char '0' ∉ flags ∨
        (0 ≤ n ∧ char '-' ∉ flags) := by
  obtain ⟨pad, hpad⟩ : ∃ pad, pad = w - (sign n ++ decimal n.natAbs).length := ⟨_, rfl⟩
  have hfull : w ≤ (sign n ++ decimal n.natAbs).length ↔ pad = 0 := by omega
  have hblank : char '0' ≠ char ' ' := by decide
  unfold padded conversion
  dsimp only
  rw [hfull, ← hpad]
  by_cases h0 : pad = 0
  · rw [h0]
    simp
  · by_cases hminus : char '-' ∈ flags
    · by_cases hzero : char '0' ∈ flags
      · simp only [hminus, hzero, decide_true, if_true, h0, false_or, not_true, and_false]
        rw [List.append_right_inj, List.replicate_right_inj h0]
        simp [hblank]
      · simp [hminus, hzero]
    · by_cases hzero : char '0' ∈ flags
      · by_cases hneg : n < 0
        · have hchar : char '0' ≠ char '-' := by decide
          have hne : char '0' :: (List.replicate (pad - 1) (char '0') ++
              (char '-' :: decimal n.natAbs)) ≠
                char '-' :: (List.replicate pad (char '0') ++ decimal n.natAbs) :=
            head_ne hchar
          have hsign : sign n = [char '-'] := if_pos hneg
          simp only [hminus, hzero, hsign, decide_true, decide_false, if_true, if_false,
            Bool.false_eq_true, h0, false_or, not_true]
          rw [replicate_pos (Nat.pos_of_ne_zero h0)] at hne ⊢
          exact iff_of_false hne (fun h => absurd h.1 (by omega))
        · have hsign : sign n = [] := if_neg hneg
          simp [hsign, hminus, hzero, show 0 ≤ n by omega]
      · simp [hminus, hzero]

theorem mem_padded {text : Str} {c : UInt8} (h : c ∈ text) (z r : Bool) (pad : Nat) :
    c ∈ padded z r pad text := by
  unfold padded
  dsimp only
  cases r with
  | true => exact List.mem_append_left _ h
  | false => exact List.mem_append_right _ h

/-- The characters that a number may be printed with. -/
def Numeric (n : Int) (c : UInt8) : Prop :=
  c = char ' ' ∨ (n < 0 ∧ c = char '-') ∨ ∃ d, d < 10 ∧ c = digit d

theorem Numeric.ne_zero {c : UInt8} (h : Numeric n c) : c ≠ 0 := by
  rcases h with rfl | ⟨-, rfl⟩ | ⟨d, hd, rfl⟩
  · decide
  · decide
  · revert d
    decide

theorem Numeric.no_minus {c : UInt8} (h : Numeric n c) (hn : 0 ≤ n) : c ≠ char '-' := by
  rcases h with rfl | ⟨hneg, -⟩ | ⟨d, hd, rfl⟩
  · decide
  · omega
  · revert d
    decide

theorem numeric_sign {c : UInt8} (h : c ∈ sign n) : Numeric n c := by
  unfold sign at h
  split at h
  · rename_i hneg
    exact Or.inr (Or.inl ⟨hneg, List.mem_singleton.mp h⟩)
  · cases h

theorem numeric_decimal {c : UInt8} {m : Nat} (h : c ∈ decimal m) : Numeric n c := by
  unfold decimal at h
  obtain ⟨d, hd, rfl⟩ := List.mem_map.mp h
  exact Or.inr (Or.inr ⟨d, places_lt (by decide) hd, rfl⟩)

theorem numeric_blank {c : UInt8} (h : c ∈ List.replicate w (char ' ')) : Numeric n c :=
  Or.inl (List.mem_replicate.mp h).2

theorem numeric_zero {c : UInt8} (h : c ∈ List.replicate w (char '0')) : Numeric n c :=
  Or.inr (Or.inr ⟨0, by decide, (List.mem_replicate.mp h).2⟩)

theorem numeric_conversion {c : UInt8} (h : c ∈ conversion flags w n) : Numeric n c := by
  unfold conversion at h
  dsimp only at h
  split at h
  · rcases List.mem_append.mp h with h | h
    · exact (List.mem_append.mp h).elim numeric_sign numeric_decimal
    · exact numeric_blank h
  · split at h
    · rcases List.mem_append.mp h with h | h
      · exact (List.mem_append.mp h).elim numeric_sign numeric_zero
      · exact numeric_decimal h
    · rcases List.mem_append.mp h with h | h
      · exact (List.mem_append.mp h).elim numeric_blank numeric_sign
      · exact numeric_decimal h

theorem numeric_precise_conversion {c : UInt8} (h : c ∈ precise_conversion p n) : Numeric n c := by
  unfold precise_conversion at h
  dsimp only at h
  rcases List.mem_append.mp h with h | h
  · exact (List.mem_append.mp h).elim numeric_sign numeric_zero
  · split at h
    · cases h
    · exact numeric_decimal h

/-! ## Flags and a width -/

/-- The number of characters of a number without padding. -/
def size (n : Int) : Nat := (sign n ++ decimal n.natAbs).length

theorem size_le (hlow : -2 ^ 63 ≤ n) (hhigh : n < 2 ^ 64) : size n ≤ 32 := by
  have hdecimal : (decimal n.natAbs).length ≤ 31 := (length_decimal (by decide)).mpr (by omega)
  have hsign := length_sign n
  unfold size
  rw [List.length_append]
  omega

/-- What is printed is what is asked for, as long as the padding is an `int` and no zeros come
in front of a sign or behind the digits. -/
theorem prints_width_iff (hf : IsFlags flags) (hl : level ≤ 2) (hlow : -2 ^ 63 < n)
    (hhigh : n < 2 ^ 64)
    (hend : ∀ (around : Int → UInt8) (v : Vars) (e : Env Str), v.long_level = level →
      v.precision = -1 → e.args = [arg] → ∃ u t, directive log around v conv [] e =
        .ok (u, 0) (e.after log around v n [] t)) (w : Nat) :
    Prints (directive_text flags w level conv) [arg] (conversion flags w n) ↔
      w < 2 ^ 31 + size n ∧
        (w ≤ size n ∨ char '0' ∉ flags ∨ (0 ≤ n ∧ char '-' ∉ flags)) := by
  have hsize := size_le (by omega : -2 ^ 63 ≤ n) hhigh
  unfold size at hsize ⊢
  rw [← padded_iff flags w n]
  have hlen := length_conversion flags w n
  constructor
  · intro h
    obtain ⟨z, k, t, hout, hz⟩ := printed_width (fun _ => 0) hf hl (hend _) w
    obtain ⟨k', reads, hprints⟩ := h (fun _ => 0)
    rw [hprints, num_text_eq _ hlow hhigh] at hout
    have htext := congrArg Env.ctx (EStateM.Result.ok.inj hout).2
    dsimp only at htext
    have hmissing := missing_lt (to_int w) (sign n ++ decimal n.natAbs)
    have hlen' := congrArg List.length htext
    rw [length_padded, hlen] at hlen'
    have hw : w < 2 ^ 31 + (sign n ++ decimal n.natAbs).length := by omega
    refine ⟨hw, ?_⟩
    rw [hz (by omega), missing_width hsize hw] at htext
    exact htext.symm
  · rintro ⟨hw, htext⟩ around
    obtain ⟨z, k, t, hout, hz⟩ := printed_width around hf hl (hend _) w
    rw [num_text_eq _ hlow hhigh, hz (by omega), missing_width hsize hw, htext] at hout
    exact ⟨k, [t], hout⟩

/-! ## A precision -/

/-- What a precision makes of a number: -1 is none, and any other one pads with zeros. -/
def precise_output (precision : Int) (text : Str) : Str :=
  if precision = -1 then text else padded true false (missing precision text) text

theorem length_digits (cs : Int → UInt8) (base : Int) (fuel : Nat) (m : Int) :
    (digits cs base fuel m).length ≤ fuel := by
  induction fuel generalizing m with
  | zero => exact Nat.le_refl 0
  | succ fuel ih =>
    unfold digits
    split
    · exact Nat.zero_le _
    · exact Nat.succ_le_succ (ih _)

theorem length_num_text (around : Int → UInt8) (n : Int) : (num_text around n).length ≤ 33 := by
  have hdigits := fun m => length_digits (char_set (chars "0123456789") around) 10 32 m
  unfold num_text
  dsimp only
  rw [List.length_reverse]
  split
  · rw [List.length_append]
    split
    · exact Nat.le_of_ble_eq_true rfl
    · exact Nat.succ_le_succ (hdigits _)
  · split
    · exact Nat.le_of_ble_eq_true rfl
    · exact Nat.le_succ_of_le (hdigits _)

/-- Behind the precision `%d` prints the number with it. -/
theorem printed_precise (hl : level ≤ 2)
    (hend : ∀ (v : Vars) (e : Env Str), v.long_level = level → e.args = [arg] →
      ∃ u t, directive log around v conv [] e = .ok (u, 0) (e.after log around v.precise n [] t))
    {precision : Int} {e : Env Str} (hctx : e.ctx = []) (hargs : e.args = [arg])
    (hscan : scan (turn log around) start 0 fmt { ctx := [], args, reads := [] } =
      scan (turn log around) { start with cont := true, precision } 0
        (List.replicate level (char 'l') ++ [conv]) e) :
    ∃ k reads, printed around fmt args = .ok k {
      ctx := precise_output precision (num_text around n)
      args := []
      reads } := by
  obtain ⟨v, hv⟩ : ∃ v : Vars, v = { start with cont := true, precision, long_level := level } :=
    ⟨_, rfl⟩
  have hlevel : scan (turn log around) { start with cont := true, precision } 0
      (List.replicate level (char 'l') ++ [conv]) e = scan (turn log around) v 0 [conv] e := by
    rw [scan_level rfl level (by show 0 + level ≤ 2; omega), hv]
    show scan _ { start with cont := true, precision, long_level := 0 + level } _ _ _ = _
    rw [Nat.zero_add]
  obtain ⟨u, t, hdir⟩ := hend v e (by rw [hv]) hargs
  obtain ⟨k, hk⟩ := printed_of_scan (by rw [hv]) (hscan.trans hlevel) hdir
  refine ⟨k, e.reads ++ [t], ?_⟩
  rw [hk]
  unfold Env.after precise_output
  rw [foldl_log, hctx, List.nil_append]
  by_cases hp : precision = -1
  · have hnone : missing 0 (num_text around n) = 0 := by
      have := length_num_text around n
      unfold missing to_int Int.bmod
      dsimp only
      split <;> omega
    have hplain : v.precise = v := by
      unfold Vars.precise
      rw [hv]
      exact if_neg (not_not.mpr hp)
    have hwidth : v.width = 0 := by
      rw [hv]
      rfl
    have hleft : v.right_padding = false := by
      rw [hv]
      rfl
    rw [if_pos hp, hplain, hwidth, hnone, hleft]
    unfold padded
    simp
  · have hpadded : v.precise = { v with
        zero_padding := true, width := precision, right_padding := false } := by
      unfold Vars.precise
      rw [hv]
      exact if_pos hp
    rw [if_neg hp, hpadded]

/-- The characters behind a precision: `l`, or the conversion. -/
theorem ends_behind (hconv : Ends conv) (level : Nat) :
    ∃ c cs, List.replicate level (char 'l') ++ [conv] = c :: cs ∧ Ends c := by
  cases level with
  | zero => exact ⟨conv, [], rfl, hconv⟩
  | succ level => exact ⟨_, _, rfl, by decide⟩

/-- With this precision the number is printed as it is asked for: no zeros come in front of a
sign, 0 has a digit, and the padding is an `int`. -/
def PrecisionHolds (p : Nat) (n : Int) : Prop :=
  if n < 0 then p ≤ (decimal n.natAbs).length
  else p < 2 ^ 31 + (decimal n.natAbs).length ∧ ¬ (p = 0 ∧ n = 0)

theorem size_of_neg (hn : n < 0) : size n = (decimal n.natAbs).length + 1 := by
  unfold size sign
  rw [if_pos hn]
  rfl

theorem size_of_nonneg (hn : ¬ n < 0) : size n = (decimal n.natAbs).length := by
  unfold size sign
  rw [if_neg hn]
  rfl

theorem decimal_pos (m : Nat) : 0 < (decimal m).length := by
  obtain ⟨d, ds, h, -⟩ := decimal_cons m
  rw [h]
  exact Nat.succ_pos _

theorem precise_output_iff (hsize : size n ≤ 32) (hp : to_int p ≠ -1) :
    precise_output (to_int p) (sign n ++ decimal n.natAbs) = precise_conversion p n ↔
      PrecisionHolds p n := by
  have hlt := missing_lt (to_int p) (sign n ++ decimal n.natAbs)
  have hint : p < 2 ^ 31 + size n →
      missing (to_int p) (sign n ++ decimal n.natAbs) = p - size n := by
    unfold size at hsize ⊢
    exact missing_width hsize
  have hpos := decimal_pos n.natAbs
  unfold precise_output precise_conversion PrecisionHolds padded
  dsimp only
  rw [if_neg hp, if_pos rfl, if_neg Bool.false_ne_true]
  generalize missing (to_int p) (sign n ++ decimal n.natAbs) = m at hlt hint
  by_cases hneg : n < 0
  · rw [size_of_neg hneg] at hint
    have hsign : sign n = [char '-'] := if_pos hneg
    rw [if_pos hneg, if_neg (by omega : ¬ (p = 0 ∧ n = 0)), hsign]
    constructor
    · intro h
      by_cases hm : m = 0
      · have hlen := congrArg List.length h
        simp only [List.length_append, List.length_replicate] at hlen
        omega
      · have hne : char '0' ≠ char '-' := by decide
        rw [replicate_pos (Nat.pos_of_ne_zero hm), List.cons_append, List.append_assoc,
          List.singleton_append] at h
        exact absurd h (head_ne hne)
    · intro hle
      rw [hint (by omega), show p - ((decimal n.natAbs).length + 1) = 0 by omega,
        show p - (decimal n.natAbs).length = 0 by omega]
      rfl
  · rw [size_of_nonneg hneg] at hint
    have hsign : sign n = [] := if_neg hneg
    rw [if_neg hneg, hsign]
    constructor
    · intro h
      have hlen := congrArg List.length h
      by_cases hzero : p = 0 ∧ n = 0
      · rw [if_pos hzero] at hlen
        simp only [List.length_append, List.length_replicate, List.length_nil] at hlen
        omega
      · rw [if_neg hzero] at hlen
        simp only [List.length_append, List.length_replicate, List.length_nil] at hlen
        exact ⟨by omega, hzero⟩
    · rintro ⟨hlt, hzero⟩
      rw [hint hlt, if_neg hzero, List.nil_append, List.nil_append]

/-- A negative precision is as none, as long as the padding is an `int`. -/
theorem negative_output_iff {precision : Int} (hlow : -2 ^ 31 ≤ precision) (hneg : precision < 0)
    (hsize : size n ≤ 32) :
    precise_output precision (sign n ++ decimal n.natAbs) = conversion [] 0 n ↔
      -2 ^ 31 + (size n : Int) ≤ precision := by
  have hplain : conversion [] 0 n = sign n ++ decimal n.natAbs := by
    unfold conversion
    simp
  have hmissing : missing precision (sign n ++ decimal n.natAbs) = 0 ↔
      -2 ^ 31 + (size n : Int) ≤ precision := by
    unfold missing size to_int Int.bmod
    unfold size at hsize
    dsimp only
    split <;> omega
  rw [hplain, ← hmissing]
  unfold precise_output
  by_cases hp : precision = -1
  · rw [if_pos hp, hmissing]
    exact iff_of_true rfl (by omega)
  · rw [if_neg hp]
    constructor
    · intro h
      have hlen := congrArg List.length h
      rw [length_padded] at hlen
      omega
    · intro h
      rw [h]
      rfl

theorem mem_precise_output {text : Str} {c : UInt8} (h : c ∈ text) (precision : Int) :
    c ∈ precise_output precision text := by
  unfold precise_output
  split
  · exact h
  · exact mem_padded h _ _ _

/-- Behind a precision, what is printed is the output. -/
theorem prints_precise_iff {text : Str} {precision : Int} (hlow : -2 ^ 63 < n) (hhigh : n < 2 ^ 64)
    (h : ∀ around, ∃ k reads, printed around fmt args = .ok k {
      ctx := precise_output precision (num_text around n)
      args := []
      reads }) :
    Prints fmt args text ↔ precise_output precision (sign n ++ decimal n.natAbs) = text := by
  constructor
  · intro hprints
    obtain ⟨k, reads, hout⟩ := h (fun _ => 0)
    obtain ⟨k', reads', hout'⟩ := hprints (fun _ => 0)
    rw [hout', num_text_eq _ hlow hhigh] at hout
    exact (congrArg Env.ctx (EStateM.Result.ok.inj hout).2).symm
  · intro heq around
    obtain ⟨k, reads, hout⟩ := h around
    rw [num_text_eq _ hlow hhigh, heq] at hout
    exact ⟨k, reads, hout⟩

/-! ## The laws -/

theorem signed_bounds (hs : signed level arg = some n) :
    level ≤ 2 ∧ -2 ^ 63 ≤ n ∧ n < 2 ^ 63 := by
  cases arg with
  | word a =>
    obtain ⟨hl, hn⟩ := Option.ite_none_right_eq_some.mp hs
    have hvalue := Option.some.inj hn
    unfold to_int Int.bmod at hvalue
    dsimp only at hvalue
    split at hvalue <;> omega
  | long a =>
    obtain ⟨hl, hn⟩ := Option.ite_none_right_eq_some.mp hs
    have hvalue := Option.some.inj hn
    unfold to_long_long Int.bmod at hvalue
    dsimp only at hvalue
    split at hvalue <;> omega
  | str s => cases hs

/-- A text with a character from in front of the digit table is not the one that is asked for. -/
theorem lowest_not_printed {text out : Str} {k : Int} {reads : List CType}
    (hplain : ∀ c ∈ text, Numeric n c)
    (hout : printed (fun _ => 0) fmt args = .ok k { ctx := out, args := [], reads })
    (hzero : (0 : UInt8) ∈ out) : ¬ Prints fmt args text := by
  intro h
  obtain ⟨k', reads', hout'⟩ := h (fun _ => 0)
  rw [hout'] at hout
  have htext := congrArg Env.ctx (EStateM.Result.ok.inj hout).2
  dsimp only at htext
  rw [← htext] at hzero
  exact (hplain 0 hzero).ne_zero rfl

theorem lost_not_held (hn : n.natAbs < 10 ^ 31) (hp : to_int p = -1) :
    ¬ PrecisionHolds p n := by
  have hlen := (length_decimal (by decide : 0 < 31)).mpr hn
  have hlarge : 2 ^ 32 ≤ p + 1 := by
    unfold to_int Int.bmod at hp
    dsimp only at hp
    split at hp <;> omega
  unfold PrecisionHolds
  split
  · omega
  · rintro ⟨h, -⟩
    omega

/-- A precision that is taken for a star leaves no argument for the number. -/
theorem lost_not_printed (hconv : case_of conv = .d) (hends : Ends conv) (hl : level ≤ 2)
    (hs : signed level arg = some n) {ds : List Nat} (hds : ∀ d ∈ ds, d < 10)
    (hp : to_int (number ds) = -1) (around : Int → UInt8) (k : Int) (e : Env Str) :
    printed around (precise_text ds level conv) [arg] ≠ .ok k e := by
  intro h
  obtain ⟨c, cs, hcs, hc⟩ := ends_behind hends level
  obtain ⟨u, e1, hscan, -⟩ := bind_eq_ok.mp h
  unfold vkcprintf_loop precise_text at hscan
  rw [hcs, scan_percent, scan_precision_lost rfl hc ds hds hp] at hscan
  cases arg with
  | word a =>
    rw [va_arg_eq (t := .int) (a := a) rfl rfl] at hscan
    dsimp only at hscan
    rw [← hcs, scan_level rfl level (by show 0 + level ≤ 2; omega)] at hscan
    obtain ⟨⟨v, k⟩, e2, hturn, -⟩ := bind_eq_ok.mp hscan
    exact turn_d_without hconv rfl rfl _ _ hturn
  | long a =>
    cases hscan
  | str s => cases hs

/-- The padding of `%d` and `%i` with flags and a width is as it is asked for: there is none, or
it is no zeros, or it is zeros in front of a number without a sign. -/
def WidthHolds (flags : Str) (w : Nat) (n : Int) : Prop :=
  w < 2 ^ 31 + size n ∧ (w ≤ size n ∨ char '0' ∉ flags ∨ (0 ≤ n ∧ char '-' ∉ flags))

/-- `%d` and `%i` print what the C standard asks for exactly when the number is not the lowest
one and no zeros come in front of a sign or behind the digits, 0 has its digit, and the padding
is an `int`. This is so with flags and a width, with a precision, and with a precision that is an
argument. -/
theorem signed_conversions_are_those_of_c_iff
    (hconv : conv = char 'd' ∨ conv = char 'i') (hs : signed level arg = some n) :
    (∀ (flags : Str) (w : Nat), IsFlags flags →
      (Prints (directive_text flags w level conv) [arg] (conversion flags w n) ↔
        n ≠ -2 ^ 63 ∧ WidthHolds flags w n)) ∧
    (∀ ds : List Nat, (∀ d ∈ ds, d < 10) →
      (Prints (precise_text ds level conv) [arg] (precise_conversion (number ds) n) ↔
        n ≠ -2 ^ 63 ∧ PrecisionHolds (number ds) n)) ∧
    ∀ a : UInt32, if 0 ≤ to_int a.toNat then
        (Prints (star_text level conv) [.word a, arg]
          (precise_conversion (to_int a.toNat).toNat n) ↔
          n ≠ -2 ^ 63 ∧ PrecisionHolds (to_int a.toNat).toNat n)
      else
        (Prints (star_text level conv) [.word a, arg] (conversion [] 0 n) ↔
          n ≠ -2 ^ 63 ∧ -2 ^ 31 + (size n : Int) ≤ to_int a.toNat) := by
  obtain ⟨hl, hlow, hhigh⟩ := signed_bounds hs
  have hcase : case_of conv = .d := by
    rcases hconv with rfl | rfl <;> decide
  have hends : Ends conv := by
    rcases hconv with rfl | rfl <;> decide
  have hend := fun around => end_d around hcase hs
  have hwidth := fun around => end_d_plain around hcase hs
  have hzero : n = -2 ^ 63 → (0 : UInt8) ∈ num_text (fun _ => 0) n := num_text_lowest fun _ => 0
  refine ⟨fun flags w hf => ?_, fun ds hds => ?_, fun a => ?_⟩
  · by_cases hn : n = -2 ^ 63
    · obtain ⟨z, k, t, hout, -⟩ := printed_width (fun _ => 0) hf hl (hwidth _) w
      exact iff_of_false (lowest_not_printed (fun _ => numeric_conversion) hout
        (mem_padded (hzero hn) _ _ _)) (fun h => h.1 hn)
    · rw [prints_width_iff hf hl (by omega) (by omega) hwidth w]
      exact (and_iff_right hn).symm
  · by_cases hp : to_int (number ds) = -1
    · refine iff_of_false (fun h => ?_) (fun h => lost_not_held (by omega) hp h.2)
      obtain ⟨k, reads, hout⟩ := h (fun _ => 0)
      exact lost_not_printed hcase hends hl hs hds hp _ _ _ hout
    · obtain ⟨c, cs, hcs, hc⟩ := ends_behind hends level
      have hout : ∀ around, ∃ k reads, printed around (precise_text ds level conv) [arg] = .ok k {
          ctx := precise_output (to_int (number ds)) (num_text around n)
          args := []
          reads } := by
        intro around
        refine printed_precise (e := { ctx := [], args := [arg], reads := [] }) hl (hend around) rfl
          rfl ?_
        unfold precise_text
        rw [hcs, scan_percent, scan_precision rfl hc ds hds hp]
      by_cases hn : n = -2 ^ 63
      · obtain ⟨k, reads, hout⟩ := hout (fun _ => 0)
        exact iff_of_false (lowest_not_printed (fun _ => numeric_precise_conversion) hout
          (mem_precise_output (hzero hn) _)) (fun h => h.1 hn)
      · rw [prints_precise_iff (by omega) (by omega) hout,
          precise_output_iff (size_le hlow (by omega)) hp]
        exact (and_iff_right hn).symm
  · have hrange : -2 ^ 31 ≤ to_int a.toNat ∧ to_int a.toNat < 2 ^ 31 := by
      unfold to_int Int.bmod
      dsimp only
      split <;> omega
    have hout : ∀ around, ∃ k reads, printed around (star_text level conv) [.word a, arg] =
        .ok k {
          ctx := precise_output (to_int a.toNat) (num_text around n)
          args := []
          reads } := by
      intro around
      refine printed_precise (e := { ctx := [], args := [arg], reads := [.int] }) hl (hend around)
        rfl rfl ?_
      unfold star_text
      rw [scan_percent, scan_star rfl a [arg] rfl]
      rfl
    generalize to_int a.toNat = precision at *
    obtain ⟨k, reads, hzero_out⟩ := hout (fun _ => 0)
    split
    · rename_i hpos
      obtain ⟨p, rfl⟩ : ∃ p : Nat, precision = p := ⟨precision.toNat, by omega⟩
      have hint : to_int p = p := to_int_length.mpr (by omega)
      by_cases hn : n = -2 ^ 63
      · exact iff_of_false (lowest_not_printed (fun _ => numeric_precise_conversion) hzero_out
          (mem_precise_output (hzero hn) _)) (fun h => h.1 hn)
      · have hiff := precise_output_iff (p := p) (size_le hlow (by omega)) (by omega)
        rw [hint] at hiff
        rw [prints_precise_iff (by omega) (by omega) hout, Int.toNat_natCast, hiff]
        exact (and_iff_right hn).symm
    · by_cases hn : n = -2 ^ 63
      · exact iff_of_false (lowest_not_printed (fun _ => numeric_conversion) hzero_out
          (mem_precise_output (hzero hn) _)) (fun h => h.1 hn)
      · rw [prints_precise_iff (by omega) (by omega) hout,
          negative_output_iff hrange.1 (by omega) (size_le hlow (by omega))]
        exact (and_iff_right hn).symm

theorem a_plain_number_is_printed : Prints (chars "%5d") [.word 0xFFFFFFD6] (chars "  -42") := by
  have hs : signed 0 (.word 0xFFFFFFD6) = some (-42) := by decide
  have hiff := (signed_conversions_are_those_of_c_iff (Or.inl rfl) hs).1 [] 5
    (fun _ h => absurd h List.not_mem_nil)
  rw [show directive_text [] 5 0 (char 'd') = chars "%5d" by decide,
    show conversion [] 5 (-42) = chars "  -42" by decide] at hiff
  exact hiff.mpr ⟨by decide, by decide, Or.inr (Or.inl List.not_mem_nil)⟩

/-- With the flag `0`, -42 comes out as 00-42. -/
theorem zeros_come_in_front_of_the_sign :
    ¬ Prints (chars "%05d") [.word 0xFFFFFFD6] (chars "-0042") := by
  have hs : signed 0 (.word 0xFFFFFFD6) = some (-42) := by decide
  have hf : IsFlags [char '0'] := fun c hc => Or.inr (List.mem_singleton.mp hc)
  have hd : case_of (char 'd') = .d := by decide
  have hiff := prints_width_iff hf (by decide) (by decide) (by decide)
    (fun around => end_d_plain around hd hs) 5
  rw [show directive_text [char '0'] 5 0 (char 'd') = chars "%05d" by decide,
    show conversion [char '0'] 5 (-42) = chars "-0042" by decide] at hiff
  intro h
  rcases (hiff.mp h).2 with hw | hzero | ⟨hn, -⟩
  · exact absurd hw (by decide)
  · exact hzero (List.mem_singleton.mpr rfl)
  · exact absurd hn (by decide)

/-! ## %u -/

theorem end_u (around : Int → UInt8) (hu : unsigned level arg = some w) (v : Vars) (e : Env Str)
    (hv : v.long_level = level) (hp : v.precision = -1) (hargs : e.args = [arg]) :
    ∃ u t, directive log around v (char 'u') [] e =
      .ok (u, 0) (e.after log around v (to_long_long w) [] t) :=
  directive_u (by decide) hp (hv ▸ hu) hargs

theorem unsigned_bounds (hu : unsigned level arg = some w) : level ≤ 2 ∧ w < 2 ^ 64 := by
  cases arg with
  | word a =>
    obtain ⟨hl, hn⟩ := Option.ite_none_right_eq_some.mp hu
    have hvalue := Option.some.inj hn
    have := a.toNat_lt
    omega
  | long a =>
    obtain ⟨hl, hn⟩ := Option.ite_none_right_eq_some.mp hu
    have hvalue := Option.some.inj hn
    have := a.toNat_lt
    omega
  | str s => cases hu

/-- With a number from 2^63 on, the output has a minus sign. -/
theorem large_not_printed (hf : IsFlags flags) {m : Nat} (hu : unsigned level arg = some m)
    (hm : 2 ^ 63 ≤ m) (w : Nat) :
    ¬ Prints (directive_text flags w level (char 'u')) [arg] (conversion flags w m) := by
  obtain ⟨hl, hlt⟩ := unsigned_bounds hu
  have hneg : to_long_long m < 0 := by
    unfold to_long_long Int.bmod
    dsimp only
    split <;> omega
  obtain ⟨z, k, t, hout, -⟩ := printed_width (fun _ => 0) hf hl (end_u _ hu) w
  intro h
  obtain ⟨k', reads, hprints⟩ := h (fun _ => 0)
  rw [hprints] at hout
  have htext := congrArg Env.ctx (EStateM.Result.ok.inj hout).2
  dsimp only at htext
  have hmem := mem_padded (sign_mem_num_text (fun _ => 0) hneg) z (char '-' ∈ flags)
    (missing (to_int w) (num_text (fun _ => 0) (to_long_long m)))
  rw [← htext] at hmem
  exact (numeric_conversion hmem).no_minus (Int.natCast_nonneg m) rfl

/-- `%u`, `%lu` and `%llu` print the unsigned number, with blanks or zeros on the left, exactly
when it is below 2^63, and the padding is an `int`. -/
theorem unsigned_conversions_print_the_number_iff (flags : Str) (hf : ∀ c ∈ flags, c = char '0')
    (w level : Nat) (arg : Arg) (m : Nat) (hu : unsigned level arg = some m) :
    Prints (directive_text flags w level (char 'u')) [arg] (conversion flags w m) ↔
      m < 2 ^ 63 ∧ w < 2 ^ 31 + (decimal m).length := by
  obtain ⟨hl, hlt⟩ := unsigned_bounds hu
  have hflags : IsFlags flags := fun c hc => Or.inr (hf c hc)
  have hminus : char '-' ∉ flags := fun h => absurd (hf _ h) (by decide)
  by_cases hm : m < 2 ^ 63
  · have hvalue : to_long_long m = m := by
      unfold to_long_long Int.bmod
      dsimp only
      split <;> omega
    have hend := fun around => end_u around hu
    rw [hvalue] at hend
    have hsize : size m = (decimal m).length := size_of_nonneg (by omega)
    rw [prints_width_iff hflags hl (by omega) (by omega) hend w, hsize]
    constructor
    · rintro ⟨hw, -⟩
      exact ⟨hm, hw⟩
    · rintro ⟨-, hw⟩
      exact ⟨hw, Or.inr (Or.inr ⟨Int.natCast_nonneg m, hminus⟩)⟩
  · exact iff_of_false (large_not_printed hflags hu (by omega) w) (fun h => hm h.1)

theorem a_small_unsigned_number_is_printed :
    Prints (chars "%05lu") [.long 42] (chars "00042") := by
  have hiff := unsigned_conversions_print_the_number_iff [char '0']
    (fun _ h => List.mem_singleton.mp h) 5 1 (.long 42) 42 rfl
  rw [show directive_text [char '0'] 5 1 (char 'u') = chars "%05lu" by decide,
    show conversion [char '0'] 5 (42 : Nat) = chars "00042" by decide] at hiff
  exact hiff.mpr ⟨by decide, by decide⟩

/-- The largest unsigned number comes out as -1. -/
theorem the_largest_number_has_a_sign :
    ¬ Prints (chars "%lu") [.long 0xFFFFFFFFFFFFFFFF] (chars "18446744073709551615") := by
  have hf : IsFlags [] := fun _ h => absurd h List.not_mem_nil
  have hu : unsigned 1 (.long 0xFFFFFFFFFFFFFFFF) = some 0xFFFFFFFFFFFFFFFF := rfl
  have hlarge := large_not_printed hf hu (by decide) 0
  rw [show directive_text [] 0 1 (char 'u') = chars "%lu" by decide,
    show conversion [] 0 (0xFFFFFFFFFFFFFFFF : Nat) =
      chars "18446744073709551615" by decide] at hlarge
  exact hlarge

end salsola.kprintf
