-- What the keyboard driver makes of a whole stream of scan codes, against a
-- reference that remembers every byte: the two shift keys share one flag.
import Salsola.KeyboardRuns
import Mathlib.Data.List.Induction

open outcome ring salsola.ringbuffer

namespace salsola.keyboard

variable {kb kb' : Keyboard} {b behind : UInt8} {seen codes : List UInt8} {q : Fifo UInt8 383}

/-! ## The reference -/

/-- The 7 bits of a scan code that name the key. -/
def code (b : UInt8) : UInt8 := b &&& 0x7F

/-- Bit 7 says that the key was released. -/
def released (b : UInt8) : Bool := 0x80 ≤ b

/-- The shift keys, alt, and ctrl. They make no events. -/
def Modifier (b : UInt8) : Prop := code b = 0x2A ∨ code b = 0x36 ∨ code b = 0x38 ∨ code b = 0x1D

instance (b : UInt8) : Decidable (Modifier b) := by unfold Modifier; infer_instance

/-- The last byte seen for one of the keys was a press. -/
def last_pressed (keys : List UInt8) (seen : List UInt8) : Bool :=
  seen.foldl (fun down b => if code b ∈ keys then !released b else down) false

/-- A shift key is held: its own last byte was a press. -/
def shift_held (seen : List UInt8) : Bool :=
  last_pressed [0x2A] seen || last_pressed [0x36] seen

/-- The character of a key. -/
def character (capital : Bool) (key : UInt8) : UInt8 :=
  (if capital then capital_ascii_table else ascii_table).getD key.toNat (UInt8.ofNat 'U'.toNat)

def mode (shift alt ctrl : Bool) : UInt8 :=
  shift.toUInt8 <<< 0 ||| alt.toUInt8 <<< 1 ||| ctrl.toUInt8 <<< 2

/-- The event of a byte, after the bytes `seen`. -/
def reference (seen : List UInt8) (b : UInt8) : Option key_event :=
  if Modifier b then none
  else some {
    c := character (shift_held seen) (code b)
    mode := mode (shift_held seen) (last_pressed [0x38] seen) (last_pressed [0x1D] seen)
    release := b >>> 7 }

def references (seen : List UInt8) : List UInt8 → List key_event
  | [] => []
  | b :: codes => (reference seen b).toList ++ references (seen ++ [b]) codes

/-- The handler runs for each byte of a stream. With each byte comes the byte that lies behind the
tables in memory. -/
def deliver (kb : Keyboard) : List (UInt8 × UInt8) → Result (List key_event × Keyboard)
  | [] => .ok ([], kb)
  | (scancode, behind) :: presses => do
    let event := (keyboard_event kb scancode.toUInt16 behind).2
    let kb ← keyboard_handler kb scancode behind
    let (events, kb) ← deliver kb presses
    .ok (event.toList ++ events, kb)

/-! ## One byte -/

theorem last_pressed_append (keys seen : List UInt8) (b : UInt8) :
    last_pressed keys (seen ++ [b]) =
      if code b ∈ keys then !released b else last_pressed keys seen := by
  unfold last_pressed
  rw [List.foldl_append]
  rfl

/-- A fact about all bytes, from their numbers. -/
theorem all_bytes {P : UInt8 → Prop} (h : ∀ n : Fin 256, P (UInt8.ofNat n.val)) (b : UInt8) :
    P b := by
  have hb := h ⟨b.toNat, b.toNat_lt⟩
  rw [UInt8.ofNat_toNat] at hb
  exact hb

/-- What the handler takes out of a byte. -/
theorem key_of_byte (b : UInt8) :
    (if released b then (code b).toUInt16 else b.toUInt16 &&& 0xFF) = (code b).toUInt16 ∧
      (b.toUInt16 &&& ~~~0x80) &&& 0xFF = (code b).toUInt16 ∧
      (b.toUInt16 &&& 0x80 ≠ 0 ↔ released b = true) ∧
      (if released b = true then (1 : UInt8) else 0) = b >>> 7 ∧ (code b).toNat < 128 := by
  revert b
  apply all_bytes
  decide +kernel

theorem code_eq (k : UInt8) : (code b).toUInt16 = k.toUInt16 ↔ code b = k := UInt8.toUInt16_inj

/-- The flags of the driver after a byte. -/
def flags (kb : Keyboard) (b : UInt8) : Keyboard :=
  if code b = 0x2A ∨ code b = 0x36 then { kb with is_shift_down := !released b }
  else if code b = 0x38 then { kb with is_alt_down := !released b }
  else if code b = 0x1D then { kb with is_ctrl_down := !released b }
  else kb

theorem keyboard_event_eq (kb : Keyboard) (b behind : UInt8) :
    keyboard_event kb b.toUInt16 behind = (flags kb b,
      if Modifier b then none
      else some {
        c := keyboard_to_ascii behind (code b).toUInt16 kb.is_shift_down
        mode := mode kb.is_shift_down kb.is_alt_down kb.is_ctrl_down
        release := b >>> 7 }) := by
  obtain ⟨hkey, hascii, hreleased, hrelease, -⟩ := key_of_byte b
  have h1 : (code b).toUInt16 = 0x2A ↔ code b = 0x2A := code_eq 0x2A
  have h2 : (code b).toUInt16 = 0x36 ↔ code b = 0x36 := code_eq 0x36
  have h3 : (code b).toUInt16 = 0x38 ↔ code b = 0x38 := code_eq 0x38
  have h4 : (code b).toUInt16 = 0x1D ↔ code b = 0x1D := code_eq 0x1D
  have hmodifier : Modifier b ↔
      (code b = 0x2A ∨ code b = 0x36) ∨ code b = 0x38 ∨ code b = 0x1D := by
    unfold Modifier
    exact or_assoc.symm
  unfold keyboard_event flags
  simp only [hreleased, hascii, hkey, h1, h2, h3, h4, hrelease, Bool.decide_eq_true]
  by_cases hshift : code b = 0x2A ∨ code b = 0x36
  · rw [if_pos hshift, if_pos hshift, if_pos (hmodifier.mpr (.inl hshift))]
  · rw [if_neg hshift, if_neg hshift]
    by_cases halt : code b = 0x38
    · rw [if_pos halt, if_pos halt, if_pos (hmodifier.mpr (.inr (.inl halt)))]
    · rw [if_neg halt, if_neg halt]
      by_cases hctrl : code b = 0x1D
      · rw [if_pos hctrl, if_pos hctrl, if_pos (hmodifier.mpr (.inr (.inr hctrl)))]
      · have hnone : ¬ Modifier b := fun h => (hmodifier.mp h).elim hshift (·.elim halt hctrl)
        rw [if_neg hctrl, if_neg hctrl, if_neg hnone]
        rfl

/-- The tables have the same keys, and only the key behind the last one is looked up outside. -/
theorem keyboard_to_ascii_eq (behind : UInt8) (capital : Bool) {k : UInt8} (hk : k.toNat < 128) :
    keyboard_to_ascii behind k.toUInt16 capital =
      if k = 0x3A then behind else character capital k := by
  have hlow : (k.toUInt16 &&& 0xFF).toNat = k.toNat := by
    revert k
    apply all_bytes
    decide +kernel
  have hlen : ascii_table.length = 58 ∧ capital_ascii_table.length = 58 := by decide
  have hkey : k = 0x3A ↔ k.toNat = 58 := by
    rw [← UInt8.toNat_inj]
    rfl
  unfold keyboard_to_ascii character
  rw [hlow, hlen.1]
  by_cases hbehind : k = 0x3A
  · have hnat : k.toNat = 58 := hkey.mp hbehind
    rw [if_neg (by omega), if_pos hbehind]
    cases capital <;> simp [hnat, List.getD_eq_getElem?_getD, hlen]
  · rw [if_neg hbehind]
    have hnat : k.toNat ≠ 58 := fun h => hbehind (hkey.mpr h)
    by_cases hpast : 58 < k.toNat
    · rw [if_pos hpast]
      cases capital <;> simp [List.getD_eq_getElem?_getD, hlen, Nat.le_of_lt hpast]
    · rw [if_neg hpast]
      have hin : k.toNat < 58 := by omega
      cases capital <;> simp [List.getD_eq_getElem?_getD, hlen, hin]

/-! ## The driver against the reference -/

/-- The flags of the driver say which of the keys that share a flag was last pressed. -/
structure Shows (kb : Keyboard) (seen : List UInt8) : Prop where
  shift : kb.is_shift_down = last_pressed [0x2A, 0x36] seen
  alt : kb.is_alt_down = last_pressed [0x38] seen
  ctrl : kb.is_ctrl_down = last_pressed [0x1D] seen

theorem Shows.step (h : Shows kb seen) (b : UInt8) : Shows (flags kb b) (seen ++ [b]) := by
  have halt : code b = 0x2A ∨ code b = 0x36 → code b ≠ 0x38 ∧ code b ≠ 0x1D := by
    rintro (hb | hb) <;> rw [hb] <;> decide
  have hctrl : code b = 0x38 → code b ≠ 0x1D := by
    intro hb
    rw [hb]
    decide
  unfold flags
  split_ifs with h1 h2 h3
  · refine ⟨?_, ?_, ?_⟩ <;> simp [last_pressed_append, h1, halt h1, h.alt, h.ctrl]
  · refine ⟨?_, ?_, ?_⟩ <;> simp [last_pressed_append, h2, h.shift, h.ctrl]
  · refine ⟨?_, ?_, ?_⟩ <;> simp [last_pressed_append, h3, h.shift, h.alt]
  · refine ⟨?_, ?_, ?_⟩ <;> simp [last_pressed_append, h1, h2, h3, h.shift, h.alt, h.ctrl]

/-- The event that the driver makes of a byte: a release of one shift key hides the other, and the
key behind the last one reads behind the tables. -/
def recorded (seen : List UInt8) (b behind : UInt8) : Option key_event :=
  if Modifier b then none
  else some {
    c := if code b = 0x3A then behind
      else character (last_pressed [0x2A, 0x36] seen) (code b)
    mode := mode (last_pressed [0x2A, 0x36] seen) (last_pressed [0x38] seen)
      (last_pressed [0x1D] seen)
    release := b >>> 7 }

def recordings (seen : List UInt8) : List (UInt8 × UInt8) → List key_event
  | [] => []
  | (b, behind) :: presses => (recorded seen b behind).toList ++ recordings (seen ++ [b]) presses

theorem Shows.event (h : Shows kb seen) (b behind : UInt8) :
    keyboard_event kb b.toUInt16 behind = (flags kb b, recorded seen b behind) := by
  have hcode := (key_of_byte b).2.2.2.2
  rw [keyboard_event_eq, keyboard_to_ascii_eq behind kb.is_shift_down hcode, h.shift, h.alt, h.ctrl]
  rfl

/-- The handler returns, and keeps the flags and the ring buffer. -/
theorem keyboard_handler_keeps (h : Shows kb seen) (hkeeps : Keeps kb.keyboard_buffer q)
    (b behind : UInt8) :
    ∃ kb', ∃ q' : Fifo UInt8 383, keyboard_handler kb b behind = .ok kb' ∧
      Keeps kb'.keyboard_buffer q' ∧ Shows kb' (seen ++ [b]) := by
  have hbuffer := keyboard_event_buffer kb b.toUInt16 behind
  have hshows := h.step b
  unfold keyboard_handler
  rw [h.event] at hbuffer ⊢
  have hkeeps : Keeps (flags kb b).keyboard_buffer q := by
    rw [show (flags kb b).keyboard_buffer = kb.keyboard_buffer from hbuffer]
    exact hkeeps
  cases recorded seen b behind with
  | none => exact ⟨_, q, rfl, hkeeps, hshows⟩
  | some ev =>
    obtain ⟨⟨rb, count⟩, hwrite, hwritten, -, -⟩ :=
      spec_returns (ringbuffer_write.spec ev.bytes EVENT_SIZE hkeeps (Nat.le_refl 3))
    refine ⟨{ flags kb b with keyboard_buffer := rb }, q.push ev.bytes, ?_, hwritten, ?_⟩
    · simp [hwrite]
    · exact ⟨hshows.shift, hshows.alt, hshows.ctrl⟩

/-- The driver takes any stream. -/
theorem deliver_eq (presses : List (UInt8 × UInt8)) (h : Shows kb seen)
    (hkeeps : Keeps kb.keyboard_buffer q) :
    ∃ kb', deliver kb presses = .ok (recordings seen presses, kb') := by
  induction presses generalizing kb seen q with
  | nil => exact ⟨kb, rfl⟩
  | cons press presses ih =>
    obtain ⟨b, behind⟩ := press
    obtain ⟨kb1, q1, hhandler, hkeeps1, hshows1⟩ := keyboard_handler_keeps h hkeeps b behind
    obtain ⟨kb', hrest⟩ := ih hshows1 hkeeps1
    refine ⟨kb', ?_⟩
    rw [deliver, hhandler, h.event]
    simp [hrest, recordings]

/-- At first no key is held. -/
theorem starts_released {block : List UInt8} (hblock : block.length = 384)
    (hinit : ps2_keyboard_init (some block) = (true, kb)) :
    Shows kb [] ∧ ∃ q : Fifo UInt8 383, Keeps kb.keyboard_buffer q := by
  have hkb := (Prod.mk.inj hinit).2
  refine ⟨?_, Fifo.empty, ?_⟩
  · subst hkb
    exact ⟨rfl, rfl, rfl⟩
  · subst hkb
    exact keeps_init block 384 (by decide) hblock

/-! ## When the two agree -/

/-- A byte that makes an event is not the code behind the tables, and comes while the last byte of
a shift key was a press, if a shift key is held. -/
def Plain (seen : List UInt8) (b : UInt8) : Prop :=
  ¬ Modifier b → code b ≠ 0x3A ∧ (shift_held seen = true → last_pressed [0x2A, 0x36] seen = true)

/-- The shared flag never shows a shift that is not held. -/
theorem shift_held_of_last_pressed (h : last_pressed [0x2A, 0x36] seen = true) :
    shift_held seen = true := by
  induction seen using List.reverseRecOn with
  | nil => exact h
  | append_singleton seen b ih =>
    unfold shift_held
    rw [last_pressed_append] at h
    rw [last_pressed_append, last_pressed_append]
    by_cases hleft : code b = 0x2A
    · simp_all
    · by_cases hright : code b = 0x36
      · simp_all
      · have hold := ih (by simpa [hleft, hright] using h)
        simpa [hleft, hright, shift_held] using hold

theorem mode_shift {s s' alt ctrl : Bool} (h : mode s alt ctrl = mode s' alt ctrl) : s = s' := by
  revert s s' alt ctrl
  decide

theorem recorded_eq_reference_iff :
    (∀ behind, recorded seen b behind = reference seen b) ↔ Plain seen b := by
  unfold recorded reference Plain
  by_cases hmodifier : Modifier b
  · simp [hmodifier]
  · simp only [hmodifier, if_false, not_false_eq_true, forall_const, Option.some.injEq,
      key_event.mk.injEq, and_true]
    constructor
    · intro h
      have hshift := mode_shift (h 0).2
      refine ⟨?_, fun hheld => hshift.trans hheld⟩
      intro hcode
      have h0 := (h 0).1
      rw [if_pos hcode, hcode] at h0
      have h1 : character (shift_held seen) 0x3A ≠ 0 := by
        cases shift_held seen <;> decide
      exact h1 h0.symm
    · rintro ⟨hcode, hheld⟩ behind
      have hshift : last_pressed [0x2A, 0x36] seen = shift_held seen :=
        Bool.eq_iff_iff.mpr ⟨shift_held_of_last_pressed, hheld⟩
      rw [if_neg hcode, hshift]
      exact ⟨rfl, rfl⟩

/-- Two events that are both there or both missing can be compared one by one. -/
theorem append_toList_inj {α : Type} {a a' : Option α} {l l' : List α}
    (hsome : a.isSome = a'.isSome) :
    a.toList ++ l = a'.toList ++ l' ↔ a = a' ∧ l = l' := by
  cases a <;> cases a' <;> simp_all

theorem recorded_isSome (seen : List UInt8) (b behind : UInt8) :
    (recorded seen b behind).isSome = (reference seen b).isSome := by
  unfold recorded reference
  split_ifs <;> rfl

/-- The bytes of a stream, each after those before it. -/
def PlainAll (seen : List UInt8) : List UInt8 → Prop
  | [] => True
  | b :: codes => Plain seen b ∧ PlainAll (seen ++ [b]) codes

theorem recordings_eq_references_iff :
    (∀ presses, presses.map Prod.fst = codes → recordings seen presses = references seen codes) ↔
      PlainAll seen codes := by
  induction codes generalizing seen with
  | nil => simp [recordings, references, PlainAll]
  | cons b codes ih =>
    rw [PlainAll, ← ih, ← recorded_eq_reference_iff]
    constructor
    · intro h
      have hsplit : ∀ behind presses, presses.map Prod.fst = codes →
          recorded seen b behind = reference seen b ∧
            recordings (seen ++ [b]) presses = references (seen ++ [b]) codes := by
        intro behind presses hpresses
        apply (append_toList_inj (recorded_isSome seen b behind)).mp
        exact h ((b, behind) :: presses) (by rw [List.map_cons, hpresses])
      refine ⟨fun behind => ?_, fun presses hpresses => (hsplit 0 presses hpresses).2⟩
      exact (hsplit behind (codes.map fun b => (b, 0)) (by simp [Function.comp_def])).1
    · rintro ⟨hhead, htail⟩ presses hpresses
      obtain _ | ⟨⟨b', behind⟩, presses⟩ := presses
      · cases hpresses
      · obtain ⟨rfl, hrest⟩ := List.cons.inj hpresses
        apply (append_toList_inj (recorded_isSome seen b' behind)).mpr
        exact ⟨hhead behind, htail presses hrest⟩

theorem plainAll_iff :
    PlainAll seen codes ↔
      ∀ before b after, codes = before ++ b :: after → Plain (seen ++ before) b := by
  induction codes generalizing seen with
  | nil => simp [PlainAll]
  | cons b codes ih =>
    rw [PlainAll, ih]
    constructor
    · rintro ⟨hhead, htail⟩ before b' after heq
      obtain _ | ⟨b0, before⟩ := before
      · obtain ⟨rfl, -⟩ := List.cons.inj heq
        rw [List.append_nil]
        exact hhead
      · obtain ⟨rfl, hrest⟩ := List.cons.inj heq
        have hplain := htail before b' after hrest
        rw [List.append_assoc] at hplain
        exact hplain
    · intro h
      constructor
      · have hplain := h [] b codes rfl
        rw [List.append_nil] at hplain
        exact hplain
      · intro before b' after heq
        have hplain := h (b :: before) b' after (by rw [heq, List.cons_append])
        rw [List.append_assoc]
        exact hplain

/-! ## The result -/

/-- The driver makes the events of the reference, whatever lies behind its tables, exactly when
each key that makes an event has a place in the tables, and comes with no shift key held or with
a press as the last byte of the shift keys. -/
theorem keys_are_decoded_iff {block : List UInt8} (hblock : block.length = 384)
    (hinit : ps2_keyboard_init (some block) = (true, kb)) (codes : List UInt8) :
    (∀ presses, presses.map Prod.fst = codes →
      ∃ kb', deliver kb presses = .ok (references [] codes, kb')) ↔
    ∀ before b after, codes = before ++ b :: after → ¬ Modifier b →
      code b ≠ 0x3A ∧
        (shift_held before = true → last_pressed [0x2A, 0x36] before = true) := by
  obtain ⟨hshows, q, hkeeps⟩ := starts_released hblock hinit
  have hplain : (∀ before b after, codes = before ++ b :: after → Plain ([] ++ before) b) ↔ _ :=
    plainAll_iff.symm.trans recordings_eq_references_iff.symm
  refine Iff.trans ?_ hplain.symm
  have hdeliver : ∀ presses, (∃ kb', deliver kb presses = .ok (references [] codes, kb')) ↔
      recordings [] presses = references [] codes := by
    intro presses
    obtain ⟨kb', hkb'⟩ := deliver_eq presses hshows hkeeps
    rw [hkb']
    constructor
    · rintro ⟨kb1, hkb1⟩
      exact (Prod.mk.inj (Except.ok.inj hkb1)).1
    · intro heq
      exact ⟨kb', by rw [heq]⟩
  simp only [hdeliver]

/-- A key with the left shift held, and the same key with ctrl held. -/
theorem keys_are_decoded_with_modifiers_held :
    ∃ kb', deliver (ps2_keyboard_init (some (List.replicate 384 0))).2
      ([0x2A, 0x1E, 0xAA, 0x1D, 0x1E, 0x9E, 0x9D].map fun b => (b, 0)) = .ok (
        [{ c := 65, mode := 1, release := 0 }, { c := 97, mode := 4, release := 0 },
          { c := 97, mode := 4, release := 1 }], kb') := by
  have hplain : PlainAll [] [0x2A, 0x1E, 0xAA, 0x1D, 0x1E, 0x9E, 0x9D] := by
    simp only [PlainAll, Plain]
    decide
  have hevents : references [] [0x2A, 0x1E, 0xAA, 0x1D, 0x1E, 0x9E, 0x9D] =
      [{ c := 65, mode := 1, release := 0 }, { c := 97, mode := 4, release := 0 },
        { c := 97, mode := 4, release := 1 }] := by
    decide
  rw [← hevents]
  have hdecoded := (keys_are_decoded_iff
    (List.length_replicate : (List.replicate 384 (0 : UInt8)).length = 384) rfl _).mpr
    (fun before b after heq hb => plainAll_iff.mp hplain before b after heq hb)
  exact hdecoded _ rfl

/-- Both shift keys go down, the left one comes up, and the right one is forgotten: the key makes
a small letter. -/
theorem the_other_shift_is_forgotten :
    ¬ ∀ (codes block : List UInt8) (kb : Keyboard), block.length = 384 →
      ps2_keyboard_init (some block) = (true, kb) →
      ∀ presses, presses.map Prod.fst = codes →
        ∃ kb', deliver kb presses = .ok (references [] codes, kb') := by
  intro h
  obtain ⟨hshows, q, hkeeps⟩ :=
    starts_released (List.length_replicate : (List.replicate 384 (0 : UInt8)).length = 384) rfl
  obtain ⟨kb', hkb'⟩ := h [0x2A, 0x36, 0xAA, 0x1E] _ _ List.length_replicate rfl
    [(0x2A, 0), (0x36, 0), (0xAA, 0), (0x1E, 0)] rfl
  obtain ⟨kb1, hkb1⟩ := deliver_eq [(0x2A, 0), (0x36, 0), (0xAA, 0), (0x1E, 0)] hshows hkeeps
  have heq := (Prod.mk.inj (Except.ok.inj (hkb1.symm.trans hkb'))).1
  revert heq
  decide

end salsola.keyboard
