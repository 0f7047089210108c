-- Runs of the keyboard: interrupts and reads of one event each, in any order.
-- The events stay whole as long as none comes while 127 are queued.
import Salsola.Keyboard
import Salsola.RingbufferLaws

open outcome ring salsola.ringbuffer

namespace salsola.keyboard

structure World where
  driver : Keyboard
  /-- The events that the handler made, oldest first. -/
  generated : List key_event
  /-- What the reads gave that gave any bytes, oldest first. -/
  taken : List (List UInt8)

inductive Call
  /-- An interrupt. -/
  | press (scancode behind : UInt8)
  /-- The consumer reads an event to its buffer. -/
  | read (dest : List UInt8)

def World.step (w : World) : Call → Result World
  | .press scancode behind => do
    let driver ← keyboard_handler w.driver scancode behind
    let event := (keyboard_event w.driver scancode.toUInt16 behind).2
    .ok { w with driver, generated := w.generated ++ event.toList }
  | .read dest => do
    let (rb, dest, count) ← ringbuffer_read w.driver.keyboard_buffer (some dest) EVENT_SIZE
    .ok { w with
      driver := { w.driver with keyboard_buffer := rb }
      taken := if count = 0 then w.taken else w.taken ++ [(dest.getD []).take count.toNat] }

/-- The buffer of the consumer has room for an event. -/
def World.Allows (_ : World) : Call → Prop
  | .press _ _ => True
  | .read dest => EVENT_SIZE.toNat ≤ dest.length

/-- `ps2_keyboard_init` got its block, and nothing was pressed yet. -/
def Starts (w : World) : Prop :=
  (∃ block : List UInt8, block.length = 384 ∧
    ps2_keyboard_init (some block) = (true, w.driver)) ∧ w.generated = [] ∧ w.taken = []

/-- The worlds that interrupts and reads reach. -/
abbrev Run : World → Prop := Reach Starts World.Allows World.step

/-- The queue is made of whole events, each read gave nothing or a whole event, and the events
that were read, with those in the queue behind them, are some of the events that were made, in
their order. -/
def World.Framed (w : World) : Prop :=
  ∃ out queued : List key_event,
    contents w.driver.keyboard_buffer = queued.flatMap key_event.bytes ∧
    w.taken = out.map key_event.bytes ∧ (out ++ queued).Sublist w.generated

/-- An interrupt that makes an event finds room for it: fewer than 127 events are queued. -/
def World.Fits (w : World) : Call → Prop
  | .press scancode behind =>
    (keyboard_event w.driver scancode.toUInt16 behind).2 = none ∨
      (contents w.driver.keyboard_buffer).length < 127 * 3
  | .read _ => True

/-- The worlds that interrupts which find room and reads reach. -/
abbrev FittingRun : World → Prop :=
  Reach Starts (fun w c => w.Allows c ∧ w.Fits c) World.step

/-! ## One step -/

variable {w w' : World} {c : Call} {scancode behind : UInt8} {q : Fifo UInt8 383}
  {dest : List UInt8}
  {kb : Keyboard} {ev : key_event} {out queued : List key_event}

/-- The ring buffer holds the events `queued`, behind the events `out` that were read. -/
structure World.Good (w : World) (q : Fifo UInt8 383) (out queued : List key_event) : Prop where
  keeps : Keeps w.driver.keyboard_buffer q
  queue : q.items = queued.flatMap key_event.bytes
  taken : w.taken = out.map key_event.bytes
  generated : w.generated = out ++ queued

theorem flatMap_bytes_length (events : List key_event) :
    (events.flatMap key_event.bytes).length = 3 * events.length := by
  induction events with
  | nil => rfl
  | cons ev events ih =>
    rw [List.flatMap_cons, List.length_append, ih, List.length_cons]
    have hev : ev.bytes.length = 3 := rfl
    omega

theorem World.Good.framed (h : w.Good q out queued) : w.Framed := by
  refine ⟨out, queued, ?_, h.taken, ?_⟩
  · rw [h.keeps.contents, h.queue]
  · rw [h.generated]

theorem World.Good.length (h : w.Good q out queued) : q.items.length = 3 * queued.length := by
  rw [h.queue, flatMap_bytes_length]

theorem good_start (h : Starts w) : w.Good Fifo.empty [] [] := by
  obtain ⟨⟨block, hblock, hinit⟩, hgenerated, htaken⟩ := h
  have hkeyboard := (Prod.mk.inj hinit).2
  refine ⟨?_, rfl, htaken, hgenerated⟩
  rw [← hkeyboard]
  exact keeps_init block 384 (by decide) hblock

/-- The flags are no part of the queue. -/
theorem keyboard_event_buffer (kb : Keyboard) (c : UInt16) (behind : UInt8) :
    (keyboard_event kb c behind).1.keyboard_buffer = kb.keyboard_buffer := by
  unfold keyboard_event
  dsimp only
  split_ifs <;> rfl

/-- A key that makes no event changes the flags only. -/
theorem World.Good.modifier (h : w.Good q out queued)
    (hnone : (keyboard_event w.driver scancode.toUInt16 behind).2 = none) :
    ∃ w', w.step (.press scancode behind) = .ok w' ∧ w'.Good q out queued := by
  have hbuffer := keyboard_event_buffer w.driver scancode.toUInt16 behind
  obtain ⟨kb, hkb⟩ : ∃ kb, keyboard_event w.driver scancode.toUInt16 behind = (kb, none) :=
    ⟨_, Prod.ext rfl hnone⟩
  rw [hkb] at hbuffer
  refine ⟨{ w with driver := kb }, ?_, ?_⟩
  · simp [World.step, keyboard_handler, hkb]
  · refine ⟨?_, h.queue, h.taken, h.generated⟩
    rw [show kb.keyboard_buffer = w.driver.keyboard_buffer from hbuffer]
    exact h.keeps

/-- A key that makes an event queues as many of its bytes as fit. -/
theorem World.Good.event (h : w.Good q out queued)
    (hsome : (keyboard_event w.driver scancode.toUInt16 behind).2 = some ev) :
    ∃ w', w.step (.press scancode behind) = .ok w' ∧
      Keeps w'.driver.keyboard_buffer (q.push ev.bytes) ∧ w'.taken = w.taken ∧
      w'.generated = w.generated ++ [ev] := by
  have hbuffer := keyboard_event_buffer w.driver scancode.toUInt16 behind
  obtain ⟨kb, hkb⟩ : ∃ kb, keyboard_event w.driver scancode.toUInt16 behind = (kb, some ev) :=
    ⟨_, Prod.ext rfl hsome⟩
  rw [hkb] at hbuffer
  obtain ⟨⟨rb, count⟩, hwrite, hkeeps, -, -⟩ :=
    spec_returns (ringbuffer_write.spec ev.bytes EVENT_SIZE h.keeps (Nat.le_refl 3))
  refine ⟨{ w with
    driver := { kb with keyboard_buffer := rb }, generated := w.generated ++ [ev] },
    ?_, hkeeps, rfl, rfl⟩
  simp only [World.step, keyboard_handler, hkb]
  rw [show kb.keyboard_buffer = w.driver.keyboard_buffer from hbuffer, hwrite]
  rfl

/-- An event that finds room is queued whole. -/
theorem World.Good.whole (h : w.Good q out queued)
    (hsome : (keyboard_event w.driver scancode.toUInt16 behind).2 = some ev)
    (hroom : q.items.length < 127 * 3) :
    ∃ w' q', w.step (.press scancode behind) = .ok w' ∧ w'.Good q' out (queued ++ [ev]) := by
  obtain ⟨w', hw', hkeeps, htaken, hgenerated⟩ := h.event hsome
  have hwhole : ev.bytes.take q.room = ev.bytes := by
    apply List.take_of_length_le
    have := q.room_add_length
    have hbytes : ev.bytes.length = 3 := rfl
    omega
  refine ⟨w', q.push ev.bytes, hw', hkeeps, ?_, ?_, ?_⟩
  · rw [Fifo.push_items, hwhole, h.queue, List.flatMap_append, List.flatMap_singleton]
  · rw [htaken, h.taken]
  · rw [hgenerated, h.generated, List.append_assoc]

/-- An event that finds no room is torn: two of its bytes are queued. -/
theorem World.Good.torn (h : w.Good q out queued)
    (hsome : (keyboard_event w.driver scancode.toUInt16 behind).2 = some ev)
    (hfull : 127 * 3 ≤ q.items.length) :
    ∃ w', w.step (.press scancode behind) = .ok w' ∧ ¬ w'.Framed := by
  obtain ⟨w', hw', hkeeps, -, -⟩ := h.event hsome
  refine ⟨w', hw', ?_⟩
  rintro ⟨out', queued', hqueue, -, -⟩
  have hlast : (q.push ev.bytes).items.length = 383 := by
    have := h.length
    have := q.room_add_length
    have hbytes : ev.bytes.length = 3 := rfl
    rw [Fifo.push_items, List.length_append, List.length_take]
    omega
  have hthree := congrArg List.length hqueue
  rw [hkeeps.contents, flatMap_bytes_length, hlast] at hthree
  omega

/-- An interrupt keeps the events whole exactly when it fits. -/
theorem World.Good.press (h : w.Good q out queued)
    (hs : w.step (.press scancode behind) = .ok w') :
    (w.Fits (.press scancode behind) ∧ ∃ q' queued', w'.Good q' out queued') ∨
      (¬ w.Fits (.press scancode behind) ∧ ¬ w'.Framed) := by
  have hcontents := h.keeps.contents
  cases hev : (keyboard_event w.driver scancode.toUInt16 behind).2 with
  | none =>
    obtain ⟨w1, hw1, hgood⟩ := h.modifier hev
    rw [hw1] at hs
    cases hs
    exact .inl ⟨.inl hev, q, queued, hgood⟩
  | some ev =>
    have hfits : w.Fits (.press scancode behind) ↔ q.items.length < 127 * 3 := by
      simp [World.Fits, hev, hcontents]
    by_cases hroom : q.items.length < 127 * 3
    · obtain ⟨w1, q', hw1, hgood⟩ := h.whole hev hroom
      rw [hw1] at hs
      cases hs
      exact .inl ⟨hfits.mpr hroom, q', queued ++ [ev], hgood⟩
    · obtain ⟨w1, hw1, htorn⟩ := h.torn hev (Nat.le_of_not_lt hroom)
      rw [hw1] at hs
      cases hs
      exact .inr ⟨fun hf => hroom (hfits.mp hf), htorn⟩

/-- A read takes the oldest event, if there is one. -/
theorem World.Good.read (h : w.Good q out queued) (hdest : EVENT_SIZE.toNat ≤ dest.length)
    (hs : w.step (.read dest) = .ok w') : ∃ q' out' queued', w'.Good q' out' queued' := by
  obtain ⟨⟨rb, got, count⟩, hread, hkeeps, -, hgot, hcount⟩ :=
    spec_returns (ringbuffer_read.spec (some dest) EVENT_SIZE h.keeps (by simpa using hdest))
  simp only [World.step, hread, ok_bind] at hs
  cases hs
  cases queued with
  | nil =>
    have hempty : q.items = [] := h.queue
    rw [hempty] at hcount
    have hzero : count = 0 := UInt32.toNat_inj.mp hcount
    refine ⟨q.pop 3, out, [], hkeeps, ?_, ?_, h.generated⟩
    · rw [Fifo.pop_items, hempty]
      rfl
    · rw [hzero, if_pos rfl]
      exact h.taken
  | cons ev queued =>
    have hqueue : q.items = ev.bytes ++ queued.flatMap key_event.bytes := by
      rw [h.queue, List.flatMap_cons]
    have hbytes : ev.bytes.length = 3 := rfl
    have htake : q.items.take EVENT_SIZE.toNat = ev.bytes := by
      rw [hqueue]
      exact List.take_left' hbytes
    have hdrop : q.items.drop EVENT_SIZE.toNat = queued.flatMap key_event.bytes := by
      rw [hqueue]
      exact List.drop_left' hbytes
    have hthree : count.toNat = 3 := by
      dsimp only at hcount
      rw [hcount, hqueue, List.length_append, hbytes]
      exact Nat.min_eq_left (Nat.le_add_right 3 _)
    have hfilled : (got.getD []).take 3 = ev.bytes := by
      dsimp only at hgot
      rw [hgot, htake]
      exact List.take_left' hbytes
    refine ⟨q.pop 3, out ++ [ev], queued, hkeeps, hdrop, ?_, ?_⟩
    · have hne : count ≠ 0 := by
        rintro rfl
        cases hthree
      rw [if_neg hne, hthree, hfilled, h.taken, List.map_append]
      rfl
    · rw [h.generated, List.append_assoc]
      rfl

theorem FittingRun.good (h : FittingRun w) : ∃ q out queued, w.Good q out queued := by
  refine h.invariant (fun w => ∃ q out queued, World.Good w q out queued) ?_ ?_
  · intro w hw
    exact ⟨_, _, _, good_start hw⟩
  · rintro w c w' ⟨q, out, queued, hgood⟩ ⟨hallowed, hfits⟩ hs
    cases c with
    | press scancode behind =>
      rcases hgood.press hs with ⟨-, q', queued', hgood'⟩ | ⟨hno, -⟩
      · exact ⟨q', out, queued', hgood'⟩
      · exact absurd hfits hno
    | read dest => exact hgood.read hallowed hs

/-! ## Whole runs -/

/-- The key "a" makes an event. -/
theorem a_makes_an_event (kb : Keyboard) :
    ∃ ev, (keyboard_event kb (0x1E : UInt8).toUInt16 0).2 = some ev := ⟨_, rfl⟩

/-- `n` presses of the key "a", with no read between them. -/
theorem presses (n : Nat) (hn : n ≤ 127) :
    ∃ w q queued, FittingRun w ∧ w.Good q [] queued ∧ queued.length = n := by
  induction n with
  | zero =>
    let w0 : World := {
      driver := (ps2_keyboard_init (some (List.replicate 384 0))).2, generated := [], taken := [] }
    have h0 : Starts w0 := ⟨⟨List.replicate 384 0, List.length_replicate, rfl⟩, rfl, rfl⟩
    exact ⟨w0, Fifo.empty, [], .start h0, good_start h0, rfl⟩
  | succ n ih =>
    obtain ⟨w, q, queued, hrun, hgood, hlen⟩ := ih (by omega)
    obtain ⟨ev, hev⟩ := a_makes_an_event w.driver
    have hroom : q.items.length < 127 * 3 := by
      rw [hgood.length]
      omega
    obtain ⟨w', q', hw', hgood'⟩ := hgood.whole hev hroom
    have hfits : w.Fits (.press 0x1E 0) := .inr (by rw [hgood.keeps.contents]; exact hroom)
    refine ⟨w', q', queued ++ [ev],
    .next hrun (i := .press 0x1E 0) ⟨trivial, hfits⟩ hw', hgood', ?_⟩
    rw [List.length_append, hlen]
    rfl

/-- While each event finds room, the events are whole, and a step leaves them whole exactly when
it makes no event that finds no room. -/
theorem events_stay_whole_iff_they_find_room (h : FittingRun w) :
    w.Framed ∧ ∀ c w', w.Allows c → w.step c = .ok w' → (w'.Framed ↔ w.Fits c) := by
  obtain ⟨q, out, queued, hgood⟩ := h.good
  refine ⟨hgood.framed, ?_⟩
  intro c w' hallowed hs
  cases c with
  | press scancode behind =>
    rcases hgood.press hs with ⟨hfits, q', queued', hgood'⟩ | ⟨hno, htorn⟩
    · exact ⟨fun _ => hfits, fun _ => hgood'.framed⟩
    · exact ⟨fun hw => absurd hw htorn, fun hfits => absurd hfits hno⟩
  | read dest =>
    obtain ⟨q', out', queued', hgood'⟩ := hgood.read hallowed hs
    exact ⟨fun _ => trivial, fun _ => hgood'.framed⟩

/-- Three presses of the key "a". -/
theorem events_stay_whole_iff_they_find_room_after_three :
    ∃ w, FittingRun w ∧ w.generated.length = 3 ∧ w.Framed ∧
      ∀ c w', w.Allows c → w.step c = .ok w' → (w'.Framed ↔ w.Fits c) := by
  obtain ⟨w, q, queued, hrun, hgood, hlen⟩ := presses 3 (by decide)
  refine ⟨w, hrun, ?_, events_stay_whole_iff_they_find_room hrun⟩
  rw [hgood.generated, List.nil_append, hlen]

/-- 128 presses of the key "a" with no read between them tear the last event. -/
theorem the_last_of_128_events_is_torn :
    ∃ w, Run w ∧ w.generated.length = 128 ∧ ¬ w.Framed := by
  obtain ⟨w, q, queued, hrun, hgood, hlen⟩ := presses 127 (Nat.le_refl _)
  obtain ⟨ev, hev⟩ := a_makes_an_event w.driver
  obtain ⟨w', hw', htorn⟩ := hgood.torn hev (by rw [hgood.length, hlen])
  obtain ⟨w1, hw1, -, -, hgenerated⟩ := hgood.event hev
  rw [hw'] at hw1
  cases hw1
  have hrun' : Run w' := .next (hrun.weaken fun _ _ ha => ha.1) (i := .press 0x1E 0) trivial hw'
  refine ⟨w', hrun', ?_, htorn⟩
  rw [hgenerated, hgood.generated, List.length_append, List.nil_append, hlen]
  rfl

end salsola.keyboard
