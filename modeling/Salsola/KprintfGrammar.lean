-- Each directive of a format is read by its grammar: the flags, the width and the precision
-- that the conversion gets are those that are written.
import Salsola.KprintfCursor
import Salsola.KprintfDirectives
import Salsola.KprintfOrder

open scanner cursor

namespace salsola.kprintf

variable {σ : Type} {write : σ → UInt8 → σ} {around : Int → UInt8} {m : Nat → UInt8}
  {n s fuel : Nat} {v : Vars} {e e' : Env σ} {p : Int}

/-! ## What is written -/

/-- The precision of a directive, as it is written. -/
inductive Precision
  | absent
  | digits (ds : List Nat)
  | star

def Precision.text : Precision → Str
  | .absent => []
  | .digits ds => char '.' :: ds.map digit
  | .star => [char '.', char '*']

/-- Its digits are digits, and their number fits an `int`. -/
def Precision.Fits : Precision → Prop
  | .digits ds => (∀ d ∈ ds, d < 10) ∧ number ds < 2 ^ 31
  | _ => True

/-- A star takes the next argument. -/
def Precision.Reads (precision : Precision) (e : Env σ) (p : Int) (e' : Env σ) : Prop :=
  match precision with
  | .absent => p = -1 ∧ e' = e
  | .digits ds => p = number ds ∧ e' = e
  | .star => ∃ a args, e.args = .word a :: args ∧ p = to_int a.toNat ∧
      e' = { e with args, reads := e.reads ++ [.int] }

/-- The conversions of the switch. -/
def IsConversion (c : UInt8) : Prop := case_of c ∈ [.d, .u, .s, .x, .o, .percent, .c]

instance (c : UInt8) : Decidable (IsConversion c) := by
  unfold IsConversion
  infer_instance

/-- A directive in the order of the grammar. Without a width, `width` is 0. -/
structure Written where
  minus : Bool
  zero : Bool
  width : Nat
  precision : Precision
  /-- How many times the letter `l` stands there. -/
  level : Nat
  conversion : UInt8
  width_fits : width < 2 ^ 31
  precision_fits : precision.Fits
  level_le : level ≤ 2
  is_conversion : IsConversion conversion

def Written.flags (d : Written) : Str :=
  (if d.minus then [char '-'] else []) ++ if d.zero then [char '0'] else []

/-- The text of the directive up to its conversion. -/
def Written.text (d : Written) : Str :=
  char '%' :: (d.flags ++ (width_text d.width ++ (d.precision.text ++
    List.replicate d.level (char 'l'))))

/-! ## From the percent sign to the conversion -/

theorem Written.is_flags (d : Written) : IsFlags d.flags := by
  intro c hc
  unfold Written.flags at hc
  rcases List.mem_append.mp hc with hc | hc
  · left
    split at hc
    · exact List.mem_singleton.mp hc
    · cases hc
  · right
    split at hc
    · exact List.mem_singleton.mp hc
    · cases hc

theorem Written.zero_mem (d : Written) : decide (char '0' ∈ d.flags) = d.zero := by
  unfold Written.flags
  cases d.minus <;> cases d.zero <;> decide

theorem Written.minus_mem (d : Written) : decide (char '-' ∈ d.flags) = d.minus := by
  unfold Written.flags
  cases d.minus <;> cases d.zero <;> decide

theorem case_of_low {c : UInt8} (hlow : char '0' ≤ c) (hhigh : c ≤ char '9') :
    case_of c = .zero ∨ case_of c = .digit := by
  have hle : 48 ≤ c.toNat := UInt8.le_iff_toNat_le.mp hlow
  have hge : c.toNat ≤ 57 := UInt8.le_iff_toNat_le.mp hhigh
  have hc : c = digit (c.toNat - 48) := by
    unfold digit
    rw [Nat.add_sub_cancel' hle, UInt8.ofNat_toNat]
  rw [hc, case_of_digit (by omega)]
  split
  · exact .inl rfl
  · exact .inr rfl

theorem IsConversion.ends {c : UInt8} (h : IsConversion c) : Ends c := by
  constructor
  · rintro rfl
    revert h
    decide
  · rintro ⟨hlow, hhigh⟩
    unfold IsConversion at h
    rcases case_of_low hlow hhigh with hcase | hcase
    · rw [hcase] at h
      revert h
      decide
    · rw [hcase] at h
      revert h
      decide

/-- Behind the precision stands a character that ends it. -/
theorem Written.behind (d : Written) (rest : Str) :
    ∃ c cs, List.replicate d.level (char 'l') ++ d.conversion :: rest = c :: cs ∧ Ends c := by
  cases hl : d.level with
  | zero => exact ⟨d.conversion, rest, rfl, d.is_conversion.ends⟩
  | succ k => exact ⟨char 'l', List.replicate k (char 'l') ++ d.conversion :: rest, rfl, by decide⟩

theorem to_int_small {k : Nat} (h : k < 2 ^ 31) : to_int k = k := by
  unfold to_int Int.bmod
  dsimp only
  split <;> omega

theorem reaches_precision_text (d : Written) (hv : v.cont = true) (hp : v.precision = -1)
    (hreads : d.precision.Reads e p e') {cs rest : Str}
    (hcs : cs = List.replicate d.level (char 'l') ++ d.conversion :: rest) :
    Reaches (turn write around) v (d.precision.text ++ cs) e { v with precision := p } cs e' := by
  obtain ⟨c, cs', hbehind, hends⟩ := d.behind rest
  have hfits := d.precision_fits
  rw [← hcs] at hbehind
  cases hprec : d.precision with
  | absent =>
    rw [hprec] at hreads
    obtain ⟨rfl, rfl⟩ := hreads
    have hsame : ({ v with precision := -1 } : Vars) = v := by
      cases v
      cases hp
      rfl
    rw [hsame]
    exact .refl _ _ _
  | digits ds =>
    rw [hprec] at hreads hfits
    obtain ⟨rfl, rfl⟩ := hreads
    obtain ⟨hds, hlt⟩ := hfits
    have hint := to_int_small hlt
    have hne : to_int (number ds) ≠ -1 := by
      rw [hint]
      omega
    have hreach : Reaches (turn write around) v _ _ _ _ _ :=
      reaches_precision hv hends ds hds hne cs' e'
    rw [← hbehind] at hreach
    rw [← hint]
    exact hreach
  | star =>
    rw [hprec] at hreads
    obtain ⟨a, args, hargs, hvalue, henv⟩ := hreads
    rw [hvalue, henv]
    exact reaches_star hv a args hargs cs

/-- The variables at the letters `l`. -/
def Written.set (d : Written) (v : Vars) (p : Int) : Vars :=
  { v with
    cont := true
    right_padding := d.minus
    zero_padding := d.zero
    width := d.width
    precision := p }

/-- The scanner gets to the letters `l` with what is written before them. -/
theorem reaches_length (d : Written) (hv : v.cont = false) (hrests : Rests v)
    (hreads : d.precision.Reads e p e') (rest : Str) :
    Reaches (turn write around) v (d.text ++ d.conversion :: rest) e (d.set v p)
      (List.replicate d.level (char 'l') ++ d.conversion :: rest) e' := by
  obtain ⟨cs, hcs⟩ : ∃ cs, cs = List.replicate d.level (char 'l') ++ d.conversion :: rest :=
    ⟨_, rfl⟩
  have htext : d.text ++ d.conversion :: rest =
      char '%' :: (d.flags ++ (width_text d.width ++ (d.precision.text ++ cs))) := by
    rw [hcs]
    unfold Written.text
    simp only [List.cons_append, List.append_assoc]
  rw [htext, ← hcs]
  obtain ⟨v1, hv1⟩ : ∃ v1 : Vars, v1 = { v with
    cont := true, right_padding := d.minus, zero_padding := d.zero } := ⟨_, rfl⟩
  have hflags : Reaches (turn write around) v
      (char '%' :: (d.flags ++ (width_text d.width ++ (d.precision.text ++ cs)))) e v1
      (width_text d.width ++ (d.precision.text ++ cs)) e := by
    refine (reaches_percent hv _ e).trans ?_
    have hreach : Reaches (turn write around) { v with cont := true } _ _ _ _ _ :=
      reaches_flags (v := { v with cont := true }) d.is_flags rfl (hrests.width hv)
        (width_text d.width ++ (d.precision.text ++ cs)) e
    have hzero : (v.zero_padding || decide (char '0' ∈ d.flags)) = d.zero := by
      rw [d.zero_mem, hrests.zero_padding hv, Bool.false_or]
    have hminus : (v.right_padding || decide (char '-' ∈ d.flags)) = d.minus := by
      rw [d.minus_mem, hrests.right_padding hv, Bool.false_or]
    rw [hv1, ← hzero, ← hminus]
    exact hreach
  obtain ⟨z, hwidth, hz⟩ := reaches_width_text (v := v1) write around (by rw [hv1])
    (by rw [hv1]; exact hrests.width hv) d.width (d.precision.text ++ cs) e
  have hsmall := d.width_fits
  rw [hz (by omega), to_int_small hsmall] at hwidth
  have hprecision : Reaches (turn write around) { v1 with width := d.width } _ _ _ _ _ :=
    reaches_precision_text d (by rw [hv1]) (by rw [hv1]; exact hrests.precision hv) hreads hcs
  refine hflags.trans (hwidth.trans ?_)
  rw [hv1] at hprecision ⊢
  exact hprecision

/-- The scanner gets to the conversion. -/
theorem reaches_conversion (d : Written) (hv : v.cont = false) (hrests : Rests v)
    (hreads : d.precision.Reads e p e') (hlevel : v.long_level + d.level ≤ 2) (rest : Str) :
    Reaches (turn write around) v (d.text ++ d.conversion :: rest) e
      { d.set v p with long_level := v.long_level + d.level } (d.conversion :: rest) e' := by
  refine (reaches_length d hv hrests hreads rest).trans ?_
  exact reaches_level (v := d.set v p) rfl d.level hlevel (d.conversion :: rest) e'

/-- With a third letter `l` an `assert` fails. -/
theorem level_fails (write : σ → UInt8 → σ) (around : Int → UInt8) (hv : v.cont = true)
    (hle : v.long_level ≤ 2) {level : Nat} (hlevel : 2 < v.long_level + level) (cs : Str)
    (e : Env σ) :
    value (scan (turn write around) v 0 (List.replicate level (char 'l') ++ cs) e) =
      .error .assert := by
  obtain ⟨more, rfl⟩ : ∃ more, level = (2 - v.long_level) + (more + 1) :=
    ⟨level - (2 - v.long_level) - 1, by omega⟩
  rw [List.replicate_add, List.append_assoc, List.replicate_succ, List.cons_append,
    scan_level hv (2 - v.long_level) (by omega), Nat.add_sub_cancel' hle, scan_cons]
  apply value_bind_error
  unfold turn
  rw [if_neg (by rw [hv]; simp), if_neg (by rw [hv]; simp)]
  apply value_bind_error
  exact value_bind_error rfl

theorem directive_fails (write : σ → UInt8 → σ) (around : Int → UInt8) (d : Written)
    (hv : v.cont = false) (hrests : Rests v) (hreads : d.precision.Reads e p e')
    (hlevel : 2 < v.long_level + d.level) (rest : Str) :
    value (scan (turn write around) v 0 (d.text ++ d.conversion :: rest) e) = .error .assert := by
  rw [(reaches_length d hv hrests hreads rest).scan]
  exact level_fails (v := d.set v p) write around rfl hrests.level hlevel (d.conversion :: rest) e'

/-! ## In the string -/

/-- What is in force at the conversion is what is written. -/
structure Written.Sets (d : Written) (p : Int) (v : Vars) : Prop where
  cont : v.cont = true
  right_padding : v.right_padding = d.minus
  zero_padding : v.zero_padding = d.zero
  width : v.width = d.width
  precision : v.precision = p

variable {seen : List Nat} {w : Watch (Env σ)} {e0 : Env σ} {post : Str}

theorem Visits.rests (h : Visits write around m fuel start 0 ⟨e0, seen⟩ v s w)
    (hm : Terminated m n) (hfuel : n < fuel) : Rests v :=
  (h.reaches hm hfuel (Nat.zero_le n)).2.keeps (fun _ c cs hrests => hrests.turn c cs) rests_start

/-- The walk gets to the conversion of a directive that it gets to. -/
theorem Visits.conversion (h : Visits write around m fuel start 0 ⟨e0, seen⟩ v s w)
    (hm : Terminated m n) (hfuel : n < fuel) (d : Written) (hv : v.cont = false)
    (htext : text m s n = d.text ++ d.conversion :: post) (hreads : d.precision.Reads w.state p e')
    (hlevel : v.long_level + d.level ≤ 2) :
    ∃ v' w', Visits write around m fuel start 0 ⟨e0, seen⟩ v' (s + d.text.length) w' ∧
      m (s + d.text.length) = d.conversion ∧ d.Sets p v' ∧ w'.state = e' := by
  have hs := (h.reaches hm hfuel (Nat.zero_le n)).1
  have hreach : Reaches (kprintf.turn write around) v _ _ _ _ _ :=
    reaches_conversion d hv (h.rests hm hfuel) hreads hlevel post
  obtain ⟨s', seen', hs', hpost, hvisits⟩ :=
    visits_of_reaches hreach hm hfuel hs htext.symm w.seen
  have hlength := text_length m s n
  have hlength' := text_length m s' n
  rw [htext, List.length_append, List.length_cons] at hlength
  rw [← hpost, List.length_cons] at hlength'
  obtain rfl : s' = s + d.text.length := by omega
  rw [text_cons m (by omega)] at hpost
  exact ⟨_, _, h.trans hvisits, (List.cons.inj hpost).1.symm, ⟨rfl, rfl, rfl, rfl, rfl⟩, rfl⟩

/-- A walk that gets to a directive with too many letters `l` is stopped there. -/
theorem Visits.assert (h : Visits write around m fuel start 0 ⟨e0, []⟩ v s w)
    (hm : Terminated m n) (hfuel : n < fuel) (d : Written) (hv : v.cont = false)
    (htext : text m s n = d.text ++ d.conversion :: post) (hreads : d.precision.Reads w.state p e')
    (hlevel : 2 < v.long_level + d.level) :
    value (vkcprintf_walk write around m fuel ⟨e0, []⟩) = .error (.error .assert) := by
  obtain ⟨hs, hreach⟩ := h.reaches hm hfuel (Nat.zero_le n)
  have hfails : value (vkcprintf write around (text m 0 n) e0) = .error .assert := by
    apply value_bind_error
    unfold vkcprintf_loop
    rw [hreach.scan, htext]
    exact directive_fails write around d hv (h.rests hm hfuel) hreads hlevel post
  obtain ⟨seen, -, heq⟩ := vkcprintf_walk_eq write around hm hfuel e0
  rw [heq]
  cases hresult : vkcprintf write around (text m 0 n) e0 with
  | ok rc e1 =>
    rw [hresult] at hfails
    cases hfails
  | error t e1 =>
    rw [hresult] at hfails
    cases hfails
    rfl

/-- The scanner of `vkcprintf` ends, stays inside the string, goes forward, and gets to the
conversion of each directive with what is written before it, unless the letters `l` are too
many for the `assert`. -/
theorem directives_are_read_as_written (write : σ → UInt8 → σ) (around : Int → UInt8)
    (hm : Terminated m n) (hfuel : n < fuel) (e0 : Env σ) :
    (∃ seen, (∀ x ∈ seen, x ≤ n) ∧ vkcprintf_walk write around m fuel ⟨e0, []⟩ =
      watched id seen (vkcprintf write around (text m 0 n) e0)) ∧
    ∀ v s w, Visits write around m fuel start 0 ⟨e0, []⟩ v s w →
      s ≤ n ∧
      (∀ v1 s1 w1, m s ≠ 0 → turn_walk write around m fuel v s w = .ok (v1, s1) w1 →
        s ≤ s1 ∧ s1 < n) ∧
      ∀ (d : Written) (post : Str) (p : Int) (e' : Env σ), v.cont = false →
        text m s n = d.text ++ d.conversion :: post → d.precision.Reads w.state p e' →
        if v.long_level + d.level ≤ 2 then
          ∃ v' w', Visits write around m fuel start 0 ⟨e0, []⟩ v' (s + d.text.length) w' ∧
            m (s + d.text.length) = d.conversion ∧ d.Sets p v' ∧ w'.state = e'
        else value (vkcprintf_walk write around m fuel ⟨e0, []⟩) = .error (.error .assert) := by
  refine ⟨vkcprintf_walk_eq write around hm hfuel e0, fun v s w h => ?_⟩
  obtain ⟨hs, -⟩ := h.reaches hm hfuel (Nat.zero_le n)
  refine ⟨hs, fun v1 s1 w1 hchar hturn => ?_, fun d post p e' hv htext hreads => ?_⟩
  · have hlt : s < n := by
      have hne : s ≠ n := fun heq => hchar ((hm.nul_iff hs).mpr heq)
      omega
    obtain ⟨k, -, rfl, hk⟩ := turn_walk_ok write around hm hlt hfuel hturn
    exact ⟨Nat.le_add_right s k, hk⟩
  · split
    · next hlevel => exact h.conversion hm hfuel d hv htext hreads hlevel
    · next hlevel => exact h.assert hm hfuel d hv htext hreads (Nat.lt_of_not_le hlevel)

/-- `%-05.3ld` -/
def every_part : Written where
  minus := true
  zero := true
  width := 5
  precision := .digits [3]
  level := 1
  conversion := 100
  width_fits := by decide
  precision_fits := ⟨by decide, by decide⟩
  level_le := by decide
  is_conversion := by decide

theorem every_part_is_read_as_written :
    ∃ v' w', Visits log (fun _ => 0) (fun i => [37, 45, 48, 53, 46, 51, 108, 100].getD i 0) 9
        start 0 ⟨⟨[], [.long 7], []⟩, []⟩ v' 7 w' ∧
      every_part.Sets 3 v' ∧ w'.state = ⟨[], [.long 7], []⟩ := by
  have hm : Terminated (fun i => [37, 45, 48, 53, 46, 51, 108, 100].getD i 0) 8 :=
    ⟨by decide, by decide⟩
  have hwidth : width_text every_part.width = [53] := by
    unfold width_text
    rw [if_neg (by decide), decimal_digit (by decide)]
    rfl
  have htext : every_part.text = [37, 45, 48, 53, 46, 51, 108] := by
    unfold Written.text
    rw [hwidth]
    decide
  have hlevel : start.long_level + every_part.level ≤ 2 := by decide
  have hread := ((directives_are_read_as_written log (fun _ => 0) hm (by decide : 8 < 9)
    ⟨[], [.long 7], []⟩).2 start 0 _ (.refl _ _ _)).2.2 every_part [] 3 ⟨[], [.long 7], []⟩ rfl
    (by rw [htext]; decide) ⟨by decide, rfl⟩
  rw [if_pos hlevel, htext] at hread
  obtain ⟨v', w', hvisits, -, hsets, hstate⟩ := hread
  exact ⟨v', w', hvisits, hsets, hstate⟩

end salsola.kprintf
