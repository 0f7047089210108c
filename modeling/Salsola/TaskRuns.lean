-- Runs of the scheduler: tasks are created and switched to in any order. The run
-- queue holds each task once, and a round of switches runs each task once.
import Salsola.Task
import Salsola.Lib.Turns

open outcome turns

namespace salsola.sched

structure World where
  state : State
  /-- The task that `task_init` made. -/
  initial : UInt64
  /-- The tasks that `task_create` made, newest first. -/
  created : List UInt64

/-- All tasks, newest first. -/
def World.made (w : World) : List UInt64 := w.created ++ [w.initial]

inductive Call
  /-- The current task calls `task_create`. -/
  | create (a : Answers)
  /-- The current task calls `task_legacy_switch`. -/
  | switch (cpu : Saved)

def World.step (w : World) : Call → Result World
  | .create a => do
    let (s, _) ← task_create w.state a
    .ok { w with
      state := s
      created := if a.kmalloc = NULL then w.created else a.kmalloc :: w.created }
  | .switch cpu => .ok { w with state := task_legacy_switch w.state cpu }

/-- `kmalloc` fails or gives a block that no task lies in. -/
def World.Allows (w : World) : Call → Prop
  | .create a => a.kmalloc ∉ w.made
  | .switch _ => True

/-- A world as `task_init` leaves it. -/
def Starts (w : World) : Prop :=
  w.created = [] ∧ ∃ s directory, task_init s w.initial directory = (w.state, true)

/-- The worlds that calls reach. -/
abbrev Run : World → Prop := Reach Starts World.Allows World.step

/-- The link of a task. -/
def State.link (s : State) (p : UInt64) : UInt64 := (s.tasks p).next

/-- The run queue holds the tasks, each of them once, and the current task is one of them. -/
structure World.Good (w : World) : Prop where
  chain : Chain w.state.link NULL w.state.task_head w.made
  nodup : w.made.Nodup
  current : w.state.task_current ∈ w.made

variable {s : State} {w w' : World} {p : UInt64} {r : task} {a : Answers} {cpu : Saved} {c : Call}

/-! ## The links -/

@[simp] theorem store_task_head : (s.store p r).task_head = s.task_head := rfl

@[simp] theorem store_task_current : (s.store p r).task_current = s.task_current := rfl

/-- A store that keeps the link of its task keeps all links. -/
theorem link_store (h : r.next = s.link p) : (s.store p r).link = s.link := by
  funext q
  unfold State.link State.store
  by_cases hq : q = p
  · rw [hq]
    simpa [State.link] using h
  · simp [hq]

theorem link_store_next (s : State) (p t : UInt64) :
    (s.store p { s.tasks p with next := t }).link = Function.update s.link p t := by
  funext q
  unfold State.link State.store
  by_cases hq : q = p
  · rw [hq]
    simp
  · simp [hq]

theorem link_store_tcb (s : State) (p : UInt64) (t : tcb) :
    (s.store p { s.tasks p with tcb := t }).link = s.link := link_store rfl

theorem task_create_directory.link (s : State) (task : UInt64) (a : Answers) :
    (task_create_directory s task a).link = s.link := by
  unfold task_create_directory
  rw [link_store_tcb]
  exact link_store rfl

/-- `weird_switch` keeps the links and the two variables. -/
theorem weird_switch.spec (s : State) (task : UInt64) (a : Answers) :
    (weird_switch s task a).1.link = s.link ∧
    (weird_switch s task a).1.task_head = s.task_head ∧
    (weird_switch s task a).1.task_current = s.task_current := by
  refine ⟨?_, rfl, rfl⟩
  unfold weird_switch
  rw [link_store_tcb]
  exact task_create_directory.link s task a

/-- A switch keeps the links and the head, and makes the task current. -/
theorem task_switch.spec (s : State) (task : UInt64) (cpu : Saved) :
    (task_switch s task cpu).link = s.link ∧
    (task_switch s task cpu).task_head = s.task_head ∧
    (task_switch s task cpu).task_current = task := by
  refine ⟨?_, rfl, rfl⟩
  unfold task_switch switch_to_task
  rw [link_store_tcb, link_store_tcb]
  rfl

/-- The next task is a turn of the queue. -/
theorem task_next_eq (s : State) (task : UInt64) :
    task_next s task = turn s.link NULL s.task_head task := rfl

theorem task_legacy_switch.spec (s : State) (cpu : Saved) :
    (task_legacy_switch s cpu).link = s.link ∧
    (task_legacy_switch s cpu).task_head = s.task_head ∧
    (task_legacy_switch s cpu).task_current = turn s.link NULL s.task_head s.task_current := by
  unfold task_legacy_switch
  rw [task_next_eq]
  exact task_switch.spec _ _ _

/-- A creation that gets a block puts it in front of the queue. -/
theorem task_create.spec (hcur : s.task_current ≠ NULL) (hp : a.kmalloc ≠ NULL) :
    ∃ s' b, task_create s a = .ok (s', b) ∧
      s'.link = Function.update s.link a.kmalloc s.task_head ∧
      s'.task_head = a.kmalloc ∧ s'.task_current = s.task_current := by
  unfold task_create
  simp only [assert_of hcur, ok_bind, if_neg hp]
  obtain ⟨hlink, hhead, hcurrent⟩ := weird_switch.spec
    { s.store a.kmalloc { s.tasks a.kmalloc with next := s.task_head } with
      task_head := a.kmalloc } a.kmalloc a
  refine ⟨_, _, rfl, hlink.trans ?_, hhead, hcurrent⟩
  exact link_store_next s a.kmalloc s.task_head

/-- A creation without a block changes nothing. -/
theorem task_create_fails (hcur : s.task_current ≠ NULL) (hp : a.kmalloc = NULL) :
    task_create s a = .ok (s, false) := by
  unfold task_create
  simp only [assert_of hcur, ok_bind, if_pos hp]

/-! ## One step -/

theorem good_start (h : Starts w) : w.Good := by
  obtain ⟨hcreated, s, directory, hinit⟩ := h
  have hmade : w.made = [w.initial] := by simp [World.made, hcreated]
  unfold task_init at hinit
  dsimp only at hinit
  split at hinit
  · cases (Prod.mk.inj hinit).2
  · rename_i hp
    obtain ⟨hs, -⟩ := Prod.mk.inj hinit
    have hhead : w.state.task_head = w.initial := by rw [← hs]; rfl
    have hcurrent : w.state.task_current = w.initial := by rw [← hs]; rfl
    have hlink : w.state.link w.initial = NULL := by
      rw [← hs]
      simp [State.link, State.store]
    refine ⟨?_, ?_, ?_⟩
    · rw [hmade, hhead]
      exact ⟨rfl, hp, hlink⟩
    · rw [hmade]
      apply List.nodup_singleton
    · rw [hmade, hcurrent]
      apply List.mem_singleton_self

theorem World.Good.current_ne (h : w.Good) : w.state.task_current ≠ NULL :=
  h.chain.ne_null h.current

theorem World.Good.create (h : w.Good) (ha : a.kmalloc ∉ w.made)
    (hs : w.step (.create a) = .ok w') : w'.Good := by
  unfold World.step at hs
  by_cases hp : a.kmalloc = NULL
  · simp only [task_create_fails h.current_ne hp, ok_bind, if_pos hp] at hs
    cases hs
    exact ⟨h.chain, h.nodup, h.current⟩
  · obtain ⟨s', b, hcreate, hlink, hhead, hcurrent⟩ := task_create.spec h.current_ne hp
    simp only [hcreate, ok_bind, if_neg hp] at hs
    cases hs
    refine ⟨?_, ?_, ?_⟩
    · show Chain s'.link NULL s'.task_head (a.kmalloc :: w.made)
      rw [hlink, hhead]
      -- the queue does not go through the block, so its links stay
      have hold : Chain (Function.update w.state.link a.kmalloc w.state.task_head) NULL
          w.state.task_head w.made := by
        apply h.chain.congr
        intro q hq
        apply Function.update_of_ne
        intro heq
        exact ha (heq ▸ hq)
      exact hold.push hp (Function.update_self _ _ _)
    · exact List.nodup_cons.mpr ⟨ha, h.nodup⟩
    · show s'.task_current ∈ a.kmalloc :: w.made
      rw [hcurrent]
      exact List.mem_cons_of_mem _ h.current

/-- A switch changes neither the queue nor its tasks, and makes the next task current. -/
theorem World.Good.switch (h : w.Good) (hs : w.step (.switch cpu) = .ok w') :
    w'.Good ∧ w'.made = w.made ∧ w'.state.link = w.state.link ∧
      w'.state.task_head = w.state.task_head ∧
      w'.state.task_current = turn w.state.link NULL w.state.task_head w.state.task_current := by
  cases hs
  obtain ⟨hlink, hhead, hcurrent⟩ := task_legacy_switch.spec w.state cpu
  refine ⟨⟨?_, h.nodup, ?_⟩, rfl, hlink, hhead, hcurrent⟩
  · show Chain (task_legacy_switch w.state cpu).link NULL _ w.made
    rw [hlink, hhead]
    exact h.chain
  · show (task_legacy_switch w.state cpu).task_current ∈ w.made
    rw [hcurrent]
    exact h.chain.turn_mem h.current

theorem World.Good.step (h : w.Good) (ha : w.Allows c) (hs : w.step c = .ok w') : w'.Good := by
  cases c with
  | create a => exact h.create ha hs
  | switch cpu => exact (h.switch hs).1

theorem Run.good (h : Run w) : w.Good :=
  h.invariant World.Good (fun _ => good_start) (fun _ _ _ hw ha hs => hw.step ha hs)

/-! ## A round of switches -/

/-- Switches in a row make current what as many turns visit, and create nothing. -/
theorem World.Good.switches (h : w.Good) (cpus : List Saved) :
    ∃ ws, trace World.step w (cpus.map .switch) = .ok ws ∧ (∀ w' ∈ ws, w'.made = w.made) ∧
      ws.map (fun w' => w'.state.task_current) =
        visits w.state.link NULL w.state.task_head w.state.task_current cpus.length := by
  induction cpus generalizing w with
  | nil => exact ⟨[], rfl, by simp, rfl⟩
  | cons cpu cpus ih =>
    obtain ⟨hgood, hmade, hlink, hhead, hcurrent⟩ :=
      h.switch (rfl : w.step (.switch cpu) = .ok { w with state := task_legacy_switch w.state cpu })
    obtain ⟨ws, hws, hsame, hvisits⟩ := ih hgood
    refine ⟨{ w with state := task_legacy_switch w.state cpu } :: ws, ?_, ?_, ?_⟩
    · simp only [List.map_cons, trace, World.step, ok_bind, hws]
    · intro w' hw'
      rcases List.mem_cons.mp hw' with heq | hmem
      · rw [heq]
        exact hmade
      · rw [hsame w' hmem]
        exact hmade
    · rw [List.map_cons, hvisits, hlink, hhead, hcurrent, List.length_cons]
      unfold visits
      rw [List.range_succ_eq_map, List.map_cons, List.map_map]
      rfl

/-- After any calls the run queue ends in NULL and holds the initial task and the created tasks,
each once, with the current task among them. As many switches in a row as there are tasks make
each task current once, the one that was current at the start last. -/
theorem the_run_queue_holds_each_task_once (h : Run w) :
    Chain w.state.link NULL w.state.task_head w.made ∧ w.made.Nodup ∧
    w.state.task_current ∈ w.made ∧
    ∀ cpus : List Saved, cpus.length = w.made.length →
      ∃ ws, trace World.step w (cpus.map .switch) = .ok ws ∧ (∀ w' ∈ ws, w'.made = w.made) ∧
        (ws.map fun w' => w'.state.task_current).Perm w.made ∧
        (ws.map fun w' => w'.state.task_current).getLast? = some w.state.task_current := by
  have hgood := h.good
  refine ⟨hgood.chain, hgood.nodup, hgood.current, ?_⟩
  intro cpus hlen
  obtain ⟨ws, hws, hsame, hvisits⟩ := hgood.switches cpus
  rw [hlen] at hvisits
  refine ⟨ws, hws, hsame, ?_, ?_⟩
  · rw [hvisits]
    exact hgood.chain.visits_perm hgood.current
  · rw [hvisits]
    exact hgood.chain.visits_getLast hgood.current

/-- The initial task of a fresh world creates a task at 8192 after it got the block 4096. -/
theorem the_run_queue_holds_each_task_once_after_a_fork :
    ∃ w, Run w ∧ w.made = [8192, 4096] ∧ (∀ cpus : List Saved, cpus.length = 2 →
      ∃ ws, trace World.step w (cpus.map .switch) = .ok ws ∧
        (ws.map fun w' => w'.state.task_current).Perm [8192, 4096]) := by
  let zero : State := { tasks := fun _ => ⟨⟨0, 0, 0⟩, 0, 0⟩, task_head := 0, task_current := 0 }
  let w0 : World := { state := (task_init zero 4096 0).1, initial := 4096, created := [] }
  let a : Answers := { kmalloc := 8192, directory := 12288, physical := 16384, rsp := 20480 }
  have h0 : Run w0 := .start ⟨rfl, zero, 0, rfl⟩
  have hcur : w0.state.task_current ≠ NULL := by decide
  obtain ⟨s', b, hcreate, -⟩ := task_create.spec (a := a) hcur (by decide)
  let w1 : World := { state := s', initial := 4096, created := [8192] }
  have hstep : w0.step (.create a) = .ok w1 := by
    simp only [World.step, hcreate, ok_bind]
    rfl
  have hfresh : w0.Allows (.create a) := by
    unfold World.Allows
    decide
  have h1 : Run w1 := .next h0 hfresh hstep
  refine ⟨w1, h1, rfl, fun cpus hlen => ?_⟩
  obtain ⟨ws, hws, -, hperm, -⟩ := (the_run_queue_holds_each_task_once h1).2.2.2 cpus hlen
  exact ⟨ws, hws, hperm⟩

end salsola.sched
