-- Keys on the interrupt line: each one is handled once and in order, when none comes before the
-- keyboard has its handler.
import Salsola.KeyboardLine

open outcome ring salsola.ringbuffer

namespace salsola.irq

open keyboard (Keyboard EVENT_SIZE keyboard_handler ps2_keyboard_init Shows recorded recordings)

variable {prog : Program} {s : State} {p : Pics} {m m' : Machine} {r : Requests} {line : Nat}
  {c : UInt8}

/-! ## The driver -/

/-- The driver has come here in a run of its own, with these bytes. -/
def Driven (driver : Keyboard) (handled : List (UInt8 × UInt8)) : Prop :=
  ∃ w : keyboard.World, ∃ q : Fifo UInt8 383, keyboard.Run w ∧ w.driver = driver ∧
    w.generated = recordings [] handled ∧ Keeps driver.keyboard_buffer q ∧
    Shows driver (handled.map Prod.fst)

theorem recordings_append (seen : List UInt8) (presses : List (UInt8 × UInt8)) (b behind : UInt8) :
    recordings seen (presses ++ [(b, behind)]) = recordings seen presses ++
      (recorded (seen ++ presses.map Prod.fst) b behind).toList := by
  induction presses generalizing seen with
  | nil => simp [recordings]
  | cons press presses ih =>
    obtain ⟨b', behind'⟩ := press
    simp [recordings, ih]

theorem driven_init {bytes : List UInt8} (hbytes : bytes.length = 384) :
    ∃ driver, ps2_keyboard_init (some bytes) = (true, driver) ∧ Driven driver [] := by
  obtain ⟨driver, hinit⟩ : ∃ driver, ps2_keyboard_init (some bytes) = (true, driver) := ⟨_, rfl⟩
  obtain ⟨hshows, q, hkeeps⟩ := keyboard.starts_released hbytes hinit
  exact ⟨driver, hinit, { driver, generated := [], taken := [] }, q,
    .start ⟨⟨bytes, hbytes, hinit⟩, rfl, rfl⟩, rfl, rfl, hkeeps, hshows⟩

theorem Driven.press {driver : Keyboard} {handled : List (UInt8 × UInt8)}
    (h : Driven driver handled) (c behind : UInt8) :
    ∃ driver', keyboard_handler driver c behind = .ok driver' ∧
      Driven driver' (handled ++ [(c, behind)]) := by
  obtain ⟨w, q, hrun, rfl, hgenerated, hkeeps, hshows⟩ := h
  obtain ⟨driver', q', hhandler, hkeeps', hshows'⟩ :=
    keyboard.keyboard_handler_keeps hshows hkeeps c behind
  have hstep : w.step (.press c behind) = .ok { w with
      driver := driver'
      generated := w.generated ++ (recorded (handled.map Prod.fst) c behind).toList } := by
    unfold keyboard.World.step
    dsimp only
    rw [hhandler, ok_bind, hshows.event]
  refine ⟨driver', hhandler, _, q', .next hrun (i := .press c behind) trivial hstep, rfl, ?_,
    hkeeps', ?_⟩
  · dsimp only
    rw [hgenerated, recordings_append, List.nil_append]
  · rw [List.map_append]
    exact hshows'

theorem Driven.read {driver : Keyboard} {handled : List (UInt8 × UInt8)} {dest : List UInt8}
    (h : Driven driver handled) (hdest : EVENT_SIZE.toNat ≤ dest.length) :
    ∃ rb got count, ringbuffer_read driver.keyboard_buffer (some dest) EVENT_SIZE =
        .ok (rb, got, count) ∧ Driven { driver with keyboard_buffer := rb } handled := by
  obtain ⟨w, q, hrun, rfl, hgenerated, hkeeps, hshows⟩ := h
  obtain ⟨⟨rb, got, count⟩, hread, hkeeps', -, -, -⟩ :=
    spec_returns (ringbuffer_read.spec (some dest) EVENT_SIZE hkeeps (by simpa using hdest))
  have hstep : ∃ taken, w.step (.read dest) = .ok { w with
      driver := { w.driver with keyboard_buffer := rb }, taken } := by
    unfold keyboard.World.step
    dsimp only
    rw [hread]
    exact ⟨_, rfl⟩
  obtain ⟨taken, hstep⟩ := hstep
  exact ⟨rb, got, count, hread, _, _, .next hrun (i := .read dest) hdest hstep, rfl, hgenerated,
    hkeeps', hshows.shift, hshows.alt, hshows.ctrl⟩

/-! ## The invariant -/

/-- The lines of the master that are served. -/
def Stage.served : Stage → u8
  | .entered | .got _ => BitVec.twoPow 8 1
  | .running | .told _ => 0

/-- The byte that the handler has read. -/
def Stage.held : Stage → List UInt8
  | .got c | .told c => [c]
  | .running | .entered => []

/-- No byte waited when the controllers were set up, and none was taken without a handler: one
that waits in the port has its line raised, until the CPU takes the interrupt. -/
structure Machine.Good (prog : Program) (s : State) (m : Machine) : Prop where
  wired : Wired prog s m
  blank : Blank s
  slave : m.slave.isr = 0
  served : m.master.isr = m.stage.served
  waits : m.master.irr.getLsbD 1 = (m.output.isSome && decide (m.stage ≠ .entered))
  entered : m.stage = .entered → m.output.isSome = true
  order : m.typed = m.handled.map Prod.fst ++ m.stage.held ++ m.output.toList
  early : m.setup ≠ .installed → m.stage = .running ∧ m.handled = []
  driven : m.setup ≠ .before → Driven m.driver m.handled

/-- The line of a byte that waits rises no more: the byte waited when the controllers were set up,
or the CPU took its interrupt without a handler. -/
structure Machine.Silent (prog : Program) (s : State) (c : UInt8) (m : Machine) : Prop where
  wired : Wired prog s m
  output : m.output = some c
  irr : m.master.irr.getLsbD 1 = false
  stage : m.stage = .running
  typed : m.typed = [c]
  handled : m.handled = []
  driven : m.setup ≠ .before → Driven m.driver []

theorem starts_good (h : starts prog none m) : ∃ s, m.Good prog s := by
  obtain ⟨⟨s, hblank, hkernel⟩, hmaster, hslave, hsetup, houtput, hstage, htyped, hhandled⟩ := h
  refine ⟨s, ?_, hblank, ?_, ?_, ?_, ?_, ?_, ?_, ?_⟩
  · unfold Wired
    rw [hkernel, hstage, hsetup]
    rfl
  · rw [hslave]
  · rw [hmaster, hstage]
    rfl
  · rw [hmaster, houtput]
    rfl
  · rw [hstage]
    exact fun h => nomatch h
  · rw [htyped, hhandled, hstage, houtput]
    rfl
  · exact fun _ => ⟨hstage, hhandled⟩
  · exact fun hne => absurd hsetup hne

theorem Machine.Good.installed_of (h : m.Good prog s) (hstage : m.stage ≠ .running) :
    m.setup = .installed := by
  by_contra hne
  exact hstage (h.early hne).1

theorem Machine.Good.key (h : m.Good prog s) (hempty : m.output = none) :
    ∃ m', m.step prog (.key c) = .ok m' ∧ m'.Good prog s := by
  have hstage : m.stage ≠ .entered := by
    intro hent
    have hsome := h.entered hent
    rw [hempty] at hsome
    cases hsome
  refine ⟨_, rfl, h.wired, h.blank, h.slave, h.served, ?_, fun hent => absurd hent hstage, ?_,
    h.early, h.driven⟩
  · dsimp only
    rw [raise_irr _ (by decide : 1 < 8)]
    simp [hstage]
  · dsimp only
    rw [h.order, hempty]
    simp

theorem Machine.Good.raise (h : m.Good prog s) (hline : line ≠ 1) :
    ∃ m', m.step prog (.raise line) = .ok m' ∧ m'.Good prog s := by
  unfold Machine.step
  dsimp only
  split_ifs with hlt
  · refine ⟨_, rfl, h.wired, h.blank, h.slave, h.served, ?_, h.entered, h.order, h.early,
      h.driven⟩
    dsimp only
    rw [raise_irr _ hlt, decide_eq_false hline, Bool.or_false]
    exact h.waits
  · exact ⟨_, rfl, h.wired, h.blank, h.slave, h.served, h.waits, h.entered, h.order, h.early,
      h.driven⟩

/-- The first part of `ps2_keyboard_init` opens the line. -/
theorem Wired.clear_mask (h : Wired prog s m) (hsetup : m.setup = .before) (driver : Keyboard) :
    Wired prog s { m with driver, kernel := m.kernel.clear_mask, setup := .cleared } := by
  unfold Wired at h ⊢
  dsimp only
  rw [h, hsetup]
  rfl

theorem Wired.set_entry (h : Wired prog s m) (hsetup : m.setup = .cleared) :
    Wired prog s { m with kernel := m.kernel.set_entry prog, setup := .gated } := by
  unfold Wired at h ⊢
  dsimp only
  rw [h, hsetup]
  rfl

theorem Wired.set_handler (h : Wired prog s m) (hsetup : m.setup = .gated) :
    Wired prog s { m with kernel := m.kernel.set_handler prog, setup := .installed } := by
  unfold Wired at h ⊢
  dsimp only
  rw [h, hsetup]
  rfl

theorem Machine.step_clear_mask {bytes : List UInt8} {driver : Keyboard}
    (hinit : ps2_keyboard_init (some bytes) = (true, driver)) :
    m.step prog (.clear_mask (some bytes)) =
      .ok { m with driver, kernel := m.kernel.clear_mask, setup := .cleared } := by
  unfold Machine.step
  dsimp only
  rw [hinit]
  dsimp only
  rw [assert_of rfl, ok_bind]

theorem Machine.Good.clear_mask {bytes : List UInt8} (h : m.Good prog s)
    (hsetup : m.setup = .before) (hbytes : bytes.length = 384) :
    ∃ m', m.step prog (.clear_mask (some bytes)) = .ok m' ∧ m'.Good prog s ∧
      m'.setup = .cleared ∧ m'.output = m.output ∧ m'.typed = m.typed := by
  obtain ⟨driver, hinit, hdriven⟩ := driven_init hbytes
  obtain ⟨hstage, hhandled⟩ := h.early (by rw [hsetup]; decide)
  refine ⟨_, Machine.step_clear_mask hinit, ⟨h.wired.clear_mask hsetup driver, h.blank, h.slave,
    h.served, h.waits, h.entered, h.order, fun _ => ⟨hstage, hhandled⟩, fun _ => ?_⟩, rfl, rfl,
    rfl⟩
  dsimp only
  rw [hhandled]
  exact hdriven

theorem Machine.Good.set_entry (h : m.Good prog s) (hsetup : m.setup = .cleared) :
    ∃ m', m.step prog .set_entry = .ok m' ∧ m'.Good prog s ∧ m'.setup = .gated ∧
      m'.output = m.output ∧ m'.typed = m.typed :=
  ⟨_, rfl, ⟨h.wired.set_entry hsetup, h.blank, h.slave, h.served, h.waits, h.entered, h.order,
    fun _ => h.early (by rw [hsetup]; decide), fun _ => h.driven (by rw [hsetup]; decide)⟩,
    rfl, rfl, rfl⟩

theorem Machine.Good.set_handler (h : m.Good prog s) (hsetup : m.setup = .gated) :
    ∃ m', m.step prog .set_handler = .ok m' ∧ m'.Good prog s ∧ m'.setup = .installed ∧
      m'.output = m.output ∧ m'.typed = m.typed :=
  ⟨_, rfl, ⟨h.wired.set_handler hsetup, h.blank, h.slave, h.served, h.waits, h.entered, h.order,
    fun hne => absurd rfl hne, fun _ => h.driven (by rw [hsetup]; decide)⟩, rfl, rfl, rfl⟩

/-- The line asks for the byte that waits. -/
theorem Machine.Good.asks_some (h : m.Good prog s) (hask : m.asks = some line) :
    line = 1 ∧ m.setup ≠ .before ∧ m.output.isSome = true := by
  obtain ⟨hline, hsetup, hirr⟩ := h.wired.asks_some hask
  have hwaits := h.waits
  rw [hirr] at hwaits
  exact ⟨hline, hsetup, (Bool.and_eq_true_iff.mp hwaits.symm).1⟩

/-- What an interrupt does behind `ps2_keyboard_init`. -/
theorem Machine.Good.take (h : m.Good prog s) (hstage : m.stage = .running)
    (hin : m.setup = .installed) (hask : m.asks = some line) :
    ∃ m', m.step prog (.take line) = .ok m' ∧ m'.Good prog s ∧ m'.stage = .entered ∧
      m'.setup = .installed ∧ m'.typed = m.typed := by
  obtain ⟨rfl, -, houtput⟩ := h.asks_some hask
  have hserved := h.served
  rw [hstage] at hserved
  refine ⟨_, h.wired.take_one hin, ⟨?_, h.blank, h.slave, ?_, ?_, fun _ => houtput, ?_,
    fun hne => absurd hin hne, h.driven⟩, rfl, hin, rfl⟩
  · have hwired := h.wired
    unfold Wired at hwired ⊢
    unfold Machine.enable
    dsimp only
    rw [hwired]
    rfl
  · show m.master.isr ||| BitVec.twoPow 8 1 = _
    rw [hserved]
    rfl
  · show (m.master.take 1).irr.getLsbD 1 = _
    rw [take_irr _ (by decide : 1 < 8)]
    simp
  · show m.typed = m.handled.map Prod.fst ++ [] ++ m.output.toList
    rw [h.order, hstage]
    rfl

/-- An interrupt without a handler: the byte stays in the port. -/
theorem Machine.Good.take_gated (h : m.Good prog s) (hgated : m.setup = .gated)
    (hask : m.asks = some line) :
    ∃ m' c, m.step prog (.take line) = .ok m' ∧ m'.Silent prog s c := by
  obtain ⟨hstage, hhandled⟩ := h.early (by rw [hgated]; decide)
  obtain ⟨rfl, -, houtput⟩ := h.asks_some hask
  obtain ⟨c, hc⟩ := Option.isSome_iff_exists.mp houtput
  refine ⟨_, c, h.wired.take_gated hgated, ?_, hc, take_irr _ (by decide), hstage, ?_, hhandled,
    fun hsetup => hhandled ▸ h.driven hsetup⟩
  · exact h.wired
  · show m.typed = [c]
    rw [h.order, hstage, hhandled, hc]
    rfl

theorem outb_eoi (p : Pics) : outb p 0x20 0x20 = p := by
  unfold outb
  rw [if_pos (show (0x20 : u16) = MASTER_PIC_COMMAND_PORT from rfl)]
  unfold Pic.command
  rw [if_neg (by decide)]

theorem Machine.outb_eoi (m : Machine) :
    m.outb 0x20 0x20 = { m with master := m.master.eoi } := by
  unfold Machine.outb
  dsimp only
  rw [irq.outb_eoi]
  rfl

theorem Machine.Good.go (h : m.Good prog s) (hstage : m.stage ≠ .running)
    (stale behind : UInt8) :
    ∃ m', m.step prog (.go stale behind) = .ok m' ∧ m'.Good prog s ∧ m'.setup = m.setup ∧
      m'.typed = m.typed ∧ match m.stage with
      | .running | .told _ => m'.stage = .running ∧ m'.output = m.output
      | .entered => ∃ c, m'.stage = .got c ∧ m'.output = none
      | .got c => m'.stage = .told c ∧ m'.output = m.output := by
  have hin := h.installed_of hstage
  have hwired := h.wired
  have hserved := h.served
  have hwaits := h.waits
  have horder := h.order
  unfold Wired at hwired
  cases hcase : m.stage with
  | running => exact absurd hcase hstage
  | entered =>
    obtain ⟨c, hc⟩ := Option.isSome_iff_exists.mp (h.entered hcase)
    rw [hcase] at hwired hserved hwaits horder
    refine ⟨{ m with stage := .got (m.output.getD stale), output := none }, ?_,
      ⟨?_, h.blank, h.slave, hserved, ?_, (fun h => nomatch h), ?_, fun hne => absurd hin hne,
        h.driven⟩, rfl, rfl, _, rfl, rfl⟩
    · unfold Machine.step Machine.go
      dsimp only
      rw [hcase]
    · exact hwired
    · dsimp only
      rw [hwaits]
      simp
    · dsimp only
      rw [horder, hc]
      simp [Stage.held]
  | got c =>
    rw [hcase] at hwired hserved hwaits horder
    refine ⟨{ m with master := m.master.eoi, stage := .told c }, ?_,
      ⟨?_, h.blank, h.slave, ?_, ?_, (fun h => nomatch h), ?_, fun hne => absurd hin hne,
        h.driven⟩, rfl, rfl, rfl, rfl⟩
    · unfold Machine.step Machine.go
      dsimp only
      rw [hcase]
      dsimp only
      rw [Machine.outb_eoi]
    · exact hwired
    · show m.master.isr &&& (m.master.isr - 1) = 0
      rw [hserved]
      show BitVec.twoPow 8 1 &&& (BitVec.twoPow 8 1 - 1) = 0#8
      decide
    · show m.master.irr.getLsbD 1 = _
      rw [hwaits]
      simp
    · exact horder
  | told c =>
    obtain ⟨driver, hhandler, hdriven⟩ := (h.driven (by rw [hin]; decide)).press c behind
    rw [hcase] at hwired hserved hwaits horder
    refine ⟨{ m.enable true with
      driver, stage := .running, handled := m.handled ++ [(c, behind)] }, ?_,
      ⟨?_, h.blank, h.slave, hserved, ?_, (fun h => nomatch h), ?_, fun hne => absurd hin hne,
        fun _ => hdriven⟩, rfl, rfl, rfl, rfl⟩
    · unfold Machine.step Machine.go
      dsimp only
      rw [hcase]
      dsimp only
      rw [hhandler, ok_bind]
    · unfold Wired Machine.enable
      dsimp only
      rw [hwired]
      rfl
    · show m.master.irr.getLsbD 1 = _
      rw [hwaits]
      simp [Machine.enable]
    · show m.typed = _
      rw [horder]
      simp [Stage.held, Machine.enable]

theorem Machine.Good.read {dest : List UInt8} (h : m.Good prog s) (hin : m.Installed)
    (hdest : EVENT_SIZE.toNat ≤ dest.length) :
    ∃ m', m.step prog (.read dest) = .ok m' ∧ m'.Good prog s := by
  have hsetup := h.wired.installed.mp hin
  obtain ⟨rb, got, count, hread, hdriven⟩ :=
    (h.driven (by rw [hsetup]; decide)).read hdest
  refine ⟨{ m with driver := { m.driver with keyboard_buffer := rb } }, ?_, h.wired, h.blank,
    h.slave, h.served, h.waits, h.entered, h.order, h.early, fun _ => hdriven⟩
  unfold Machine.step
  dsimp only
  rw [hread]
  rfl

/-- Every event that may come is served, and keeps the invariant, but for an interrupt that is
taken before the handler is there. -/
theorem Machine.Good.step {event : Event} (h : m.Good prog s) (hall : m.allowed event) :
    (∃ m', m.step prog event = .ok m' ∧ m'.Good prog s) ∨
      (event = .take 1 ∧ m.setup = .gated ∧
        ∃ m' c, m.step prog event = .ok m' ∧ m'.Silent prog s c) ∨
      (event = .take 1 ∧ m.setup = .cleared ∧ m.step prog event = .error .fault) := by
  cases event with
  | key c =>
    obtain ⟨m', hstep, hgood⟩ := h.key hall
    exact .inl ⟨m', hstep, hgood⟩
  | raise line =>
    obtain ⟨m', hstep, hgood⟩ := h.raise hall.2.1
    exact .inl ⟨m', hstep, hgood⟩
  | clear_mask block =>
    obtain ⟨-, hsetup, bytes, rfl, hbytes⟩ := hall
    obtain ⟨m', hstep, hgood, -⟩ := h.clear_mask hsetup hbytes
    exact .inl ⟨m', hstep, hgood⟩
  | set_entry =>
    obtain ⟨m', hstep, hgood, -⟩ := h.set_entry hall.2
    exact .inl ⟨m', hstep, hgood⟩
  | set_handler =>
    obtain ⟨m', hstep, hgood, -⟩ := h.set_handler hall.2
    exact .inl ⟨m', hstep, hgood⟩
  | take line =>
    obtain ⟨hstage, -, hask⟩ := hall
    obtain ⟨hline, hbefore, -⟩ := h.asks_some hask
    cases hsetup : m.setup with
    | before => exact absurd hsetup hbefore
    | cleared =>
      subst hline
      exact .inr (.inr ⟨rfl, rfl, h.wired.take_cleared h.blank hsetup⟩)
    | gated =>
      subst hline
      exact .inr (.inl ⟨rfl, rfl, h.take_gated hsetup hask⟩)
    | installed =>
      obtain ⟨m', hstep, hgood, -⟩ := h.take hstage hsetup hask
      exact .inl ⟨m', hstep, hgood⟩
  | go stale behind =>
    obtain ⟨m', hstep, hgood, -⟩ := h.go hall stale behind
    exact .inl ⟨m', hstep, hgood⟩
  | read dest =>
    obtain ⟨m', hstep, hgood⟩ := h.read hall.2.1 hall.2.2
    exact .inl ⟨m', hstep, hgood⟩

/-! ## A byte that comes too early -/

theorem starts_silent (h : starts prog (some c) m) : ∃ s, m.Silent prog s c := by
  obtain ⟨⟨s, -, hkernel⟩, hmaster, -, hsetup, houtput, hstage, htyped, hhandled⟩ := h
  refine ⟨s, ?_, houtput, ?_, hstage, htyped, hhandled, fun hne => absurd hsetup hne⟩
  · unfold Wired
    rw [hkernel, hstage, hsetup]
    rfl
  · rw [hmaster]
    rfl

theorem Machine.Silent.asks (h : m.Silent prog s c) : m.asks = none := by
  cases hask : m.asks with
  | none => rfl
  | some line =>
    obtain ⟨-, -, hirr⟩ := h.wired.asks_some hask
    rw [h.irr] at hirr
    cases hirr

/-- No further byte comes, nothing else raises the line, and every event is served. -/
theorem Machine.Silent.step {event : Event} (h : m.Silent prog s c) (hall : m.allowed event) :
    ∃ m', m.step prog event = .ok m' ∧ m'.Silent prog s c := by
  cases event with
  | key c' =>
    rw [Machine.allowed, h.output] at hall
    cases hall
  | raise line =>
    unfold Machine.step
    dsimp only
    split_ifs with hlt
    · refine ⟨_, rfl, h.wired, h.output, ?_, h.stage, h.typed, h.handled, h.driven⟩
      dsimp only
      rw [raise_irr _ hlt, h.irr, decide_eq_false hall.2.1]
      rfl
    · exact ⟨_, rfl, h.wired, h.output, h.irr, h.stage, h.typed, h.handled, h.driven⟩
  | clear_mask block =>
    obtain ⟨-, hsetup, bytes, rfl, hbytes⟩ := hall
    obtain ⟨driver, hinit, hdriven⟩ := driven_init hbytes
    exact ⟨_, Machine.step_clear_mask hinit, h.wired.clear_mask hsetup driver, h.output, h.irr,
      h.stage, h.typed, h.handled, fun _ => hdriven⟩
  | set_entry =>
    exact ⟨_, rfl, h.wired.set_entry hall.2, h.output, h.irr, h.stage, h.typed, h.handled,
      fun _ => h.driven (by rw [hall.2]; decide)⟩
  | set_handler =>
    exact ⟨_, rfl, h.wired.set_handler hall.2, h.output, h.irr, h.stage, h.typed, h.handled,
      fun _ => h.driven (by rw [hall.2]; decide)⟩
  | take line =>
    rw [Machine.allowed, h.asks] at hall
    cases hall.2.2
  | go stale behind => exact absurd h.stage hall
  | read dest =>
    have hsetup := h.wired.installed.mp hall.2.1
    obtain ⟨rb, got, count, hread, hdriven⟩ :=
      (h.driven (by rw [hsetup]; decide)).read hall.2.2
    refine ⟨{ m with driver := { m.driver with keyboard_buffer := rb } }, ?_, h.wired, h.output,
      h.irr, h.stage, h.typed, h.handled, fun _ => hdriven⟩
    unfold Machine.step
    dsimp only
    rw [hread]
    rfl

theorem Reachable.silent (h : Reachable prog (some c) m) : ∃ s, m.Silent prog s c := by
  refine h.invariant (fun m => ∃ s, Machine.Silent prog s c m) (fun _ => starts_silent) ?_
  rintro m event m' ⟨s, hsilent⟩ hall hstep
  obtain ⟨m1, hstep1, hsilent1⟩ := hsilent.step hall
  rw [hstep1] at hstep
  obtain rfl := Except.ok.inj hstep
  exact ⟨s, hsilent1⟩

/-- Only a byte that comes is new, and the kernel does not go back in `ps2_keyboard_init`. -/
theorem Machine.step_goes_on {event : Event} (hall : m.allowed event)
    (hstep : m.step prog event = .ok m') :
    ((∀ c, event ≠ .key c) → m'.typed = m.typed) ∧ m.setup.index ≤ m'.setup.index := by
  cases event with
  | key c =>
    cases hstep
    exact ⟨fun hne => absurd rfl (hne c), Nat.le_refl _⟩
  | raise line =>
    unfold Machine.step at hstep
    dsimp only at hstep
    split_ifs at hstep <;> cases hstep <;> exact ⟨fun _ => rfl, Nat.le_refl _⟩
  | clear_mask block =>
    obtain ⟨-, -, hstep⟩ := bind_eq_ok.mp hstep
    cases hstep
    rw [hall.2.1]
    exact ⟨fun _ => rfl, Nat.zero_le _⟩
  | set_entry =>
    cases hstep
    rw [hall.2]
    exact ⟨fun _ => rfl, Nat.le_succ 1⟩
  | set_handler =>
    cases hstep
    rw [hall.2]
    exact ⟨fun _ => rfl, Nat.le_succ 2⟩
  | take line =>
    unfold Machine.step Machine.take Machine.accept at hstep
    dsimp only at hstep
    split_ifs at hstep <;> cases hstep <;> exact ⟨fun _ => rfl, Nat.le_refl _⟩
  | go stale behind =>
    unfold Machine.step Machine.go at hstep
    dsimp only at hstep
    split at hstep
    · cases hstep
      exact ⟨fun _ => rfl, Nat.le_refl _⟩
    · cases hstep
      exact ⟨fun _ => rfl, Nat.le_refl _⟩
    · rw [Machine.outb_eoi] at hstep
      cases hstep
      exact ⟨fun _ => rfl, Nat.le_refl _⟩
    · obtain ⟨driver, -, hstep⟩ := bind_eq_ok.mp hstep
      cases hstep
      exact ⟨fun _ => rfl, Nat.le_refl _⟩
  | read dest =>
    obtain ⟨⟨rb, got, count⟩, -, hstep⟩ := bind_eq_ok.mp hstep
    cases hstep
    exact ⟨fun _ => rfl, Nat.le_refl _⟩

/-- A byte that no handler took was taken behind the second part of `handler_install`. -/
theorem Reachable.good (h : Reachable prog none m) :
    ∃ s, m.Good prog s ∨ ∃ c, m.Silent prog s c ∧ 2 ≤ m.setup.index := by
  refine h.invariant (fun m => ∃ s, Machine.Good prog s m ∨
    ∃ c, Machine.Silent prog s c m ∧ 2 ≤ m.setup.index) ?_ ?_
  · intro m hm
    obtain ⟨s, hgood⟩ := starts_good hm
    exact ⟨s, .inl hgood⟩
  · rintro m event m' ⟨s, hgood | ⟨c, hsilent, hindex⟩⟩ hall hstep
    · obtain ⟨-, hle⟩ := Machine.step_goes_on hall hstep
      obtain ⟨m1, hstep1, hgood1⟩ | ⟨-, hgated, m1, c, hstep1, hsilent⟩ | ⟨-, -, hfault⟩ :=
        hgood.step hall
      · rw [hstep1] at hstep
        obtain rfl := Except.ok.inj hstep
        exact ⟨s, .inl hgood1⟩
      · rw [hstep1] at hstep
        obtain rfl := Except.ok.inj hstep
        rw [hgated] at hle
        exact ⟨s, .inr ⟨c, hsilent, hle⟩⟩
      · rw [hfault] at hstep
        cases hstep
    · obtain ⟨-, hle⟩ := Machine.step_goes_on hall hstep
      obtain ⟨m1, hstep1, hsilent1⟩ := hsilent.step hall
      rw [hstep1] at hstep
      obtain rfl := Except.ok.inj hstep
      exact ⟨s, .inr ⟨c, hsilent1, hindex.trans hle⟩⟩

/-- No byte came before the handler, so no interrupt was taken without it. -/
structure Machine.Prompt (prog : Program) (s : State) (m : Machine) : Prop where
  good : m.Good prog s
  none_yet : m.setup ≠ .installed → m.typed = []

/-- When no byte came, no line asks. -/
theorem Machine.Good.take_typed (h : m.Good prog s) (hall : m.allowed (.take line)) :
    m.typed ≠ [] := by
  obtain ⟨-, -, houtput⟩ := h.asks_some hall.2.2
  obtain ⟨c, hc⟩ := Option.isSome_iff_exists.mp houtput
  rw [h.order, hc]
  simp

/-- Without an early byte every event is served. -/
theorem Machine.Prompt.returns {event : Event} (h : m.Prompt prog s) (hall : m.allowed event) :
    ∃ m', m.step prog event = .ok m' ∧ m'.Good prog s := by
  obtain hgood | ⟨rfl, hsetup, -⟩ | ⟨rfl, hsetup, -⟩ := h.good.step hall
  · exact hgood
  · exact absurd (h.none_yet (by rw [hsetup]; decide)) (h.good.take_typed hall)
  · exact absurd (h.none_yet (by rw [hsetup]; decide)) (h.good.take_typed hall)

theorem Machine.Prompt.step {event : Event} (h : m.Prompt prog s) (hall : m.allowed event)
    (hkey : ∀ c, event = .key c → m.Installed) (hstep : m.step prog event = .ok m') :
    m'.Prompt prog s := by
  obtain ⟨m1, hstep1, hgood⟩ := h.returns hall
  rw [hstep1] at hstep
  obtain rfl := Except.ok.inj hstep
  obtain ⟨htyped, hle⟩ := Machine.step_goes_on hall hstep1
  refine ⟨hgood, fun hne => ?_⟩
  have hnot : m.setup ≠ .installed := by
    intro hin
    rw [hin] at hle
    revert hne hle
    cases m1.setup <;> decide
  rw [htyped fun c hc => hnot (h.good.wired.installed.mp (hkey c hc))]
  exact h.none_yet hnot

theorem Punctual.prompt (h : Punctual prog m) : ∃ s, m.Prompt prog s := by
  refine h.invariant (fun m => ∃ s, Machine.Prompt prog s m) ?_ ?_
  · intro m hm
    obtain ⟨s, hgood⟩ := starts_good hm
    exact ⟨s, hgood, fun _ => hm.2.2.2.2.2.2.1⟩
  · rintro m event m' ⟨s, hprompt⟩ ⟨hall, hkey⟩ hstep
    exact ⟨s, hprompt.step hall hkey hstep⟩

/-! ## The CPU alone -/

/-- Nothing comes from the devices. -/
def OnCpu (m : Machine) (event : Event) : Prop :=
  m.allowed event ∧
    ((∃ line, event = .take line) ∨ ∃ stale behind, event = .go stale behind)

abbrev CpuRun (prog : Program) (m : Machine) : Machine → Prop :=
  Reach (· = m) OnCpu (Machine.step prog)

/-- One part of the handler. -/
theorem CpuRun.go {stale behind : UInt8} (hstage : m.stage ≠ .running)
    (hstep : m.step prog (.go stale behind) = .ok m') : CpuRun prog m m' :=
  .next (.start rfl) (i := .go stale behind) ⟨hstage, .inr ⟨stale, behind, rfl⟩⟩ hstep

theorem Machine.Good.returns_told (h : m.Good prog s) (hcase : m.stage = .told c) :
    ∃ m', CpuRun prog m m' ∧ m'.Good prog s ∧ m'.setup = m.setup ∧ m'.typed = m.typed ∧
      m'.stage = .running ∧ m'.output = m.output := by
  have hne : m.stage ≠ .running := by simp [hcase]
  obtain ⟨m', hstep, hgood, hsetup, htyped, hnext⟩ := h.go hne 0 0
  rw [hcase] at hnext
  exact ⟨m', .go hne hstep, hgood, hsetup, htyped, hnext⟩

theorem Machine.Good.returns_got (h : m.Good prog s) (hcase : m.stage = .got c) :
    ∃ m', CpuRun prog m m' ∧ m'.Good prog s ∧ m'.setup = m.setup ∧ m'.typed = m.typed ∧
      m'.stage = .running ∧ m'.output = m.output := by
  have hne : m.stage ≠ .running := by simp [hcase]
  obtain ⟨m1, hstep, hgood, hsetup, htyped, hnext⟩ := h.go hne 0 0
  rw [hcase] at hnext
  obtain ⟨m', hrun, hgood', hsetup', htyped', hstage', houtput'⟩ := hgood.returns_told hnext.1
  exact ⟨m', (CpuRun.go hne hstep).trans hrun, hgood', hsetup'.trans hsetup,
    htyped'.trans htyped, hstage', houtput'.trans hnext.2⟩

/-- The handler reads the byte that waits, and comes back. -/
theorem Machine.Good.returns_entered (h : m.Good prog s) (hcase : m.stage = .entered) :
    ∃ m', CpuRun prog m m' ∧ m'.Good prog s ∧ m'.setup = m.setup ∧ m'.typed = m.typed ∧
      m'.stage = .running ∧ m'.output = none := by
  have hne : m.stage ≠ .running := by simp [hcase]
  obtain ⟨m1, hstep, hgood, hsetup, htyped, hnext⟩ := h.go hne 0 0
  rw [hcase] at hnext
  obtain ⟨c, hstage, houtput⟩ := hnext
  obtain ⟨m', hrun, hgood', hsetup', htyped', hstage', houtput'⟩ := hgood.returns_got hstage
  exact ⟨m', (CpuRun.go hne hstep).trans hrun, hgood', hsetup'.trans hsetup,
    htyped'.trans htyped, hstage', houtput'.trans houtput⟩

theorem Machine.Good.returns (h : m.Good prog s) :
    ∃ m', CpuRun prog m m' ∧ m'.Good prog s ∧ m'.setup = m.setup ∧ m'.typed = m.typed ∧
      m'.stage = .running := by
  cases hcase : m.stage with
  | running => exact ⟨m, .start rfl, h, rfl, rfl, hcase⟩
  | entered =>
    obtain ⟨m', hrun, hgood, hsetup, htyped, hstage, -⟩ := h.returns_entered hcase
    exact ⟨m', hrun, hgood, hsetup, htyped, hstage⟩
  | got c =>
    obtain ⟨m', hrun, hgood, hsetup, htyped, hstage, -⟩ := h.returns_got hcase
    exact ⟨m', hrun, hgood, hsetup, htyped, hstage⟩
  | told c =>
    obtain ⟨m', hrun, hgood, hsetup, htyped, hstage, -⟩ := h.returns_told hcase
    exact ⟨m', hrun, hgood, hsetup, htyped, hstage⟩

/-- When the port is empty and the kernel runs, every byte was handled. -/
theorem Machine.Good.all_handled (h : m.Good prog s) (hstage : m.stage = .running)
    (houtput : m.output = none) : m.handled.map Prod.fst = m.typed := by
  rw [h.order, hstage, houtput]
  simp [Stage.held]

/-- The line of a byte that waits asks, when the kernel runs behind the first part of
`ps2_keyboard_init`. -/
theorem Machine.Good.asks_one (h : m.Good prog s) (hsetup : m.setup ≠ .before)
    (hstage : m.stage = .running) (houtput : m.output = some c) :
    m.allowed (.take 1) := by
  have hwaits := h.waits
  have hserved := h.served
  rw [houtput, hstage] at hwaits
  rw [hstage] at hserved
  refine ⟨hstage, ?_, h.wired.asks_one hsetup hwaits hserved⟩
  rw [h.wired, hstage]
  rfl

/-- The CPU handles what came, if it is left alone. -/
theorem Machine.Good.drains (h : m.Good prog s) (hin : m.setup = .installed) :
    ∃ m', CpuRun prog m m' ∧ m'.handled.map Prod.fst = m.typed := by
  obtain ⟨m1, hrun1, hgood1, hsetup1, htyped1, hstage1⟩ := h.returns
  have hin1 : m1.setup = .installed := hsetup1.trans hin
  cases houtput : m1.output with
  | none =>
    refine ⟨m1, hrun1, ?_⟩
    rw [hgood1.all_handled hstage1 houtput, htyped1]
  | some c =>
    have hall := hgood1.asks_one (by rw [hin1]; decide) hstage1 houtput
    obtain ⟨m2, hstep2, hgood2, hstage2, -, htyped2⟩ := hgood1.take hstage1 hin1 hall.2.2
    obtain ⟨m3, hrun3, hgood3, -, htyped3, hstage3, houtput3⟩ := hgood2.returns_entered hstage2
    have hrun2 : CpuRun prog m m2 := .next hrun1 (i := .take 1) ⟨hall, .inl ⟨1, rfl⟩⟩ hstep2
    refine ⟨m3, hrun2.trans hrun3, ?_⟩
    rw [hgood3.all_handled hstage3 houtput3, htyped3, htyped2, htyped1]

/-! ## The keys -/

/-- Each byte that came is handled once, in order: what is not yet handled is in the hands of the
handler, or waits in the port. Only the keyboard interrupts, no interrupt stays open behind its
handler, and the CPU alone handles all that came. The driver is that of a run over the bytes that
were handled. -/
structure Serves (prog : Program) (m : Machine) : Prop where
  order : m.typed = m.handled.map Prod.fst ++ m.stage.held ++ m.output.toList
  lines : ∀ line, m.asks = some line → line = 1 ∧ m.output.isSome = true
  finished : m.stage = .running → m.master.isr = 0 ∧ m.slave.isr = 0
  drains : m.Installed → ∃ m', CpuRun prog m m' ∧ m'.handled.map Prod.fst = m.typed
  driver : m.Installed → ∃ w, keyboard.Run w ∧ w.driver = m.driver ∧
    w.generated = recordings [] m.handled

/-- One byte came, no line asks for it, and no further one ever comes or is handled. -/
structure Lost (prog : Program) (m : Machine) : Prop where
  typed : ∃ c, m.typed = [c] ∧ m.output = some c
  asks : m.asks = none
  stays : ∀ m', Reach (· = m) Machine.allowed (Machine.step prog) m' →
    m'.typed = m.typed ∧ m'.handled = []

theorem Machine.Good.serves (h : m.Good prog s) : Serves prog m where
  order := h.order
  lines _ hask := ⟨(h.asks_some hask).1, (h.asks_some hask).2.2⟩
  finished hstage := by
    have hserved := h.served
    rw [hstage] at hserved
    exact ⟨hserved, h.slave⟩
  drains hin := h.drains (h.wired.installed.mp hin)
  driver hin := by
    obtain ⟨w, q, hrun, hdriver, hgenerated, -⟩ :=
      h.driven (by rw [h.wired.installed.mp hin]; decide)
    exact ⟨w, hrun, hdriver, hgenerated⟩

theorem Machine.Silent.stays (h : m.Silent prog s c)
    (hrun : Reach (· = m) Machine.allowed (Machine.step prog) m') : m'.Silent prog s c := by
  refine hrun.invariant (Machine.Silent prog s c) ?_ ?_
  · rintro _ rfl
    exact h
  · intro m1 event m2 hsilent hall hstep
    obtain ⟨m3, hstep3, hsilent3⟩ := hsilent.step hall
    rw [hstep3] at hstep
    obtain rfl := Except.ok.inj hstep
    exact hsilent3

theorem Machine.Silent.lost (h : m.Silent prog s c) : Lost prog m :=
  ⟨⟨c, h.typed, h.output⟩, h.asks, fun _ hrun =>
    ⟨(h.stays hrun).typed.trans h.typed.symm, (h.stays hrun).handled⟩⟩

/-- An early byte, at the time when the mask is cleared and the gate is absent. -/
theorem Machine.Good.faults (h : m.Good prog s) (hsetup : m.setup = .cleared)
    (htyped : m.typed ≠ []) :
    m.allowed (.take 1) ∧ m.step prog (.take 1) = .error .fault := by
  obtain ⟨hstage, hhandled⟩ := h.early (by rw [hsetup]; decide)
  have horder := h.order
  rw [hstage, hhandled] at horder
  cases houtput : m.output with
  | none =>
    rw [houtput] at horder
    exact absurd horder htyped
  | some c =>
    exact ⟨h.asks_one (by rw [hsetup]; decide) hstage houtput,
      h.wired.take_cleared h.blank hsetup⟩

/-- The addresses do not matter, but that the handler has one. -/
def no_program : Program := { no_image with keyboard_handler := 0x1000, not_null := by decide }

/-- Behind `idt_init`, with nobody at the keyboard. -/
def quiet (prog : Program) (s : State) (driver : Keyboard) : Machine where
  kernel := idt_init prog.toImage s
  master := ⟨0, 0⟩
  slave := ⟨0, 0⟩
  driver := driver
  setup := .before
  output := none
  stage := .running
  typed := []
  handled := []

theorem quiet_starts (driver : Keyboard) : starts no_program none (quiet no_program cold driver) :=
  ⟨⟨cold, fun _ => rfl, rfl⟩, rfl, rfl, rfl, rfl, rfl, rfl, rfl⟩

/-- The three parts of `ps2_keyboard_init`, with nobody at the keyboard. -/
theorem quiet_installs (driver : Keyboard) :
    ∃ m, Punctual no_program m ∧ m.Installed ∧ m.output = none ∧ m.typed = [] := by
  obtain ⟨s, hgood⟩ := starts_good (quiet_starts driver)
  have hbytes : (List.replicate 384 (0 : UInt8)).length = 384 := List.length_replicate
  obtain ⟨m1, hstep1, hgood1, hsetup1, houtput1, htyped1⟩ := hgood.clear_mask rfl hbytes
  obtain ⟨m2, hstep2, hgood2, hsetup2, houtput2, htyped2⟩ := hgood1.set_entry hsetup1
  obtain ⟨m3, hstep3, hgood3, hsetup3, houtput3, htyped3⟩ := hgood2.set_handler hsetup2
  have hstage1 := (hgood1.early (by rw [hsetup1]; decide)).1
  have hstage2 := (hgood2.early (by rw [hsetup2]; decide)).1
  refine ⟨m3, ?_, hgood3.wired.installed.mpr hsetup3, ?_, ?_⟩
  · refine .next (.next (.next (.start (quiet_starts driver)) (i := .clear_mask _) ⟨⟨rfl, rfl, _,
      rfl, hbytes⟩, fun _ h => nomatch h⟩ hstep1) (i := .set_entry) ⟨⟨hstage1, hsetup1⟩,
      fun _ h => nomatch h⟩ hstep2) (i := .set_handler) ⟨⟨hstage2, hsetup2⟩,
      fun _ h => nomatch h⟩ hstep3
  · rw [houtput3, houtput2, houtput1]
    rfl
  · rw [htyped3, htyped2, htyped1]
    rfl

end salsola.irq
