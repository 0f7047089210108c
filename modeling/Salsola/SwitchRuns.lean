-- Runs of tasks on one CPU: the current task computes, creates tasks and
-- switches. A task gets back from its switch what it had, except for `rbp`.
import Salsola.Machine
import Salsola.Switch

open outcome memory x86

namespace salsola.asm

/-- What a C function must find again when a call returns. -/
structure Context where
  rbx : UInt64
  rbp : UInt64
  r12 : UInt64
  r13 : UInt64
  r14 : UInt64
  r15 : UInt64
  rsp : UInt64
  cr3 : UInt64
deriving DecidableEq

def context (m : Machine) : Context where
  rbx := m.regs .rbx
  rbp := m.regs .rbp
  r12 := m.regs .r12
  r13 := m.regs .r13
  r14 := m.regs .r14
  r15 := m.regs .r15
  rsp := m.regs .rsp
  cr3 := m.cr3

/-- The context of the caller. The call has pushed the return address. -/
def at_call (m : Machine) : Context := { context m with rsp := m.regs .rsp + 8 }

/-- A return of a task from its call of `switch_to_task`. -/
structure Return where
  /-- At the call of the task. -/
  before : Context
  /-- At the return. -/
  after : Context
  /-- `rbp` of the task that switched back, at its call. -/
  rbp : UInt64

structure World where
  m : Machine
  current : UInt64
  tasks : List UInt64
  /-- The context of a task at its last call of `switch_to_task`. -/
  called : UInt64 → Option Context
  returns : List Return

inductive Call
  /-- The current task computes, and leaves the machine so. -/
  | compute (m : Machine)
  /-- The current task calls `task_create`, which makes `task`. -/
  | create (task : UInt64) (m : Machine)
  /-- The current task has called `switch_to_task`. -/
  | switch (task : UInt64)

/-- The world after the current task has switched to `task`, and left the machine at `m`. -/
def World.switched (w : World) (task : UInt64) (m : Machine) : World :=
  let called := Function.update w.called w.current (some (at_call w.m))
  let back := (called task).map fun before => { before, after := context m, rbp := w.m.regs .rbp }
  { w with m, current := task, called, returns := back.toList ++ w.returns }

def World.step (text : UInt64) (clone : Machine → Machine) (w : World) : Call → Result World
  | .compute m => .ok { w with m }
  | .create task m => .ok { w with m, tasks := task :: w.tasks }
  | .switch task =>
    match Setup.run (setup text clone) w.m with
    | none => .error .fault
    | some m => .ok (w.switched task m)

/-- Two blocks of a `struct task` do not overlap. -/
def Apart (p q : UInt64) : Prop := p.toNat + 40 ≤ q.toNat ∨ q.toNat + 40 ≤ p.toNat

/-- The directory of a task: the one of the CPU, or the one in the tcb. -/
def World.directory (w : World) (p : UInt64) : UInt64 :=
  if p = w.current then w.m.cr3 else word w.m.shared (p.toNat + 8)

/-- What the current task may do to the machine: anything to the registers, to its own memory and
to the shared memory, but nothing to a tcb, to another directory or to `cr3`. -/
structure World.Computes (w : World) (m : Machine) : Prop where
  cr3 : m.cr3 = w.m.cr3
  tcbs : ∀ p ∈ w.tasks, Agree w.m.shared m.shared p.toNat (p.toNat + 24)

def World.Allows (text : UInt64) (clone : Machine → Machine) (w : World) : Call → Prop
  | .compute m => w.Computes m ∧ ∀ d, d ≠ w.m.cr3 → m.own d = w.m.own d
  -- the block and the directory are new, and the memory of the directory is filled
  | .create task m => w.Computes m ∧ Shared task ∧ (∀ p ∈ w.tasks, Apart task p) ∧
    (∀ p ∈ w.tasks, word m.shared (task.toNat + 8) ≠ w.directory p) ∧
    ∀ d, d ≠ w.m.cr3 → d ≠ word m.shared (task.toNat + 8) → m.own d = w.m.own d
  -- the stack lies in the memory of the task
  | .switch task => task ∈ w.tasks ∧ w.m.rip = (setup text clone).at SWITCH_TO_TASK ∧
    w.m.regs .rdi = w.current ∧ w.m.regs .rsi = task ∧ 40 ≤ (w.m.regs .rsp).toNat ∧
    (w.m.regs .rsp).toNat + 8 ≤ KERNEL_VMA

/-- `task_init` made the first task. -/
def Starts (w : World) : Prop :=
  w.tasks = [w.current] ∧ Shared w.current ∧ (∀ p, w.called p = none) ∧ w.returns = []

/-- The worlds that computations, creations and switches reach. -/
abbrev Run (text : UInt64) (clone : Machine → Machine) : World → Prop :=
  Reach Starts (World.Allows text clone) (World.step text clone)

variable {text : UInt64} {clone : Machine → Machine} {w w' : World} {c : Call} {m m' : Machine}
  {p task : UInt64} {ctx : Context}

/-! ## The invariant -/

/-- Where `switch_to_task` left the context of a task. -/
def Parked (m : Machine) (p : UInt64) (ctx : Context) : Prop :=
  ∃ ra, (word m.shared p.toNat).toNat + 48 = ctx.rsp.toNat ∧ ctx.rsp.toNat ≤ KERNEL_VMA ∧
    word m.shared (p.toNat + 8) = ctx.cr3 ∧
    Stacked (m.own ctx.cr3) (word m.shared p.toNat).toNat
      [ctx.r15, ctx.r14, ctx.r13, ctx.r12, ctx.rbx, ra]

structure World.Good (w : World) : Prop where
  current : w.current ∈ w.tasks
  shared : ∀ p ∈ w.tasks, Shared p
  apart : ∀ p ∈ w.tasks, ∀ q ∈ w.tasks, p ≠ q → Apart p q
  directories : ∀ p ∈ w.tasks, ∀ q ∈ w.tasks, w.directory p = w.directory q → p = q
  called : ∀ p, p ∉ w.tasks → w.called p = none
  parked : ∀ p ∈ w.tasks, p ≠ w.current → ∀ ctx, w.called p = some ctx → Parked w.m p ctx
  returns : ∀ r ∈ w.returns, r.after = { r.before with rbp := r.rbp }

theorem Parked.congr (h : Parked m p ctx) (htcb : Agree m.shared m'.shared p.toNat (p.toNat + 24))
    (hown : m'.own ctx.cr3 = m.own ctx.cr3) : Parked m' p ctx := by
  obtain ⟨ra, hsp, hroom, hcr3, hstack⟩ := h
  have hword : word m'.shared p.toNat = word m.shared p.toNat :=
    word_congr (htcb.sub (by omega) (by omega))
  have hword8 : word m'.shared (p.toNat + 8) = word m.shared (p.toNat + 8) :=
    word_congr (htcb.sub (by omega) (by omega))
  refine ⟨ra, ?_, hroom, ?_, ?_⟩
  · rw [hword]
    exact hsp
  · rw [hword8]
    exact hcr3
  · rw [hword, hown]
    exact hstack

/-- A parked task lies in the directory that its tcb names. -/
theorem World.Good.parked_directory (h : w.Good) (hp : p ∈ w.tasks) (hne : p ≠ w.current)
    (hctx : w.called p = some ctx) : ctx.cr3 = w.directory p ∧ ctx.cr3 ≠ w.m.cr3 := by
  obtain ⟨ra, -, -, hcr3, -⟩ := h.parked p hp hne ctx hctx
  have hdir : w.directory p = ctx.cr3 := by
    unfold World.directory
    rw [if_neg hne, hcr3]
  refine ⟨hdir.symm, ?_⟩
  intro heq
  have hcurrent : w.directory w.current = w.m.cr3 := by
    unfold World.directory
    rw [if_pos rfl]
  exact hne (h.directories p hp w.current h.current (by rw [hdir, hcurrent, heq]))

theorem good_start (h : Starts w) : w.Good := by
  obtain ⟨htasks, hshared, hcalled, hreturns⟩ := h
  have honly : ∀ p, p ∈ w.tasks ↔ p = w.current := by
    intro p
    rw [htasks]
    exact List.mem_singleton
  refine ⟨(honly _).mpr rfl, ?_, ?_, ?_, fun p _ => hcalled p, ?_, ?_⟩
  · intro p hp
    rw [(honly p).mp hp]
    exact hshared
  · intro p hp q hq hne
    exact absurd (((honly p).mp hp).trans ((honly q).mp hq).symm) hne
  · intro p hp q hq _
    rw [(honly p).mp hp, (honly q).mp hq]
  · intro p hp hne
    exact absurd ((honly p).mp hp) hne
  · intro r hr
    rw [hreturns] at hr
    cases hr

/-! ## One step -/

theorem World.Computes.directory (h : w.Computes m) (hp : p ∈ w.tasks) :
    World.directory { w with m } p = w.directory p := by
  unfold World.directory
  dsimp only
  rw [h.cr3, word_congr ((h.tcbs p hp).sub (by omega) (by omega))]

theorem World.Good.compute (h : w.Good) (hm : w.Computes m)
    (hown : ∀ d, d ≠ w.m.cr3 → m.own d = w.m.own d) : World.Good { w with m } := by
  refine ⟨h.current, h.shared, h.apart, ?_, h.called, ?_, h.returns⟩
  · intro p hp q hq heq
    rw [hm.directory hp, hm.directory hq] at heq
    exact h.directories p hp q hq heq
  · intro p hp hne ctx hctx
    apply (h.parked p hp hne ctx hctx).congr (hm.tcbs p hp)
    exact hown _ (h.parked_directory hp hne hctx).2

/-- A new task has a directory of its own, and was never switched from. -/
theorem World.Good.create (h : w.Good) (hm : w.Computes m) (hshared : Shared task)
    (hapart : ∀ p ∈ w.tasks, Apart task p)
    (hnew : ∀ p ∈ w.tasks, word m.shared (task.toNat + 8) ≠ w.directory p)
    (hown : ∀ d, d ≠ w.m.cr3 → d ≠ word m.shared (task.toNat + 8) → m.own d = w.m.own d) :
    World.Good { w with m, tasks := task :: w.tasks } := by
  have hfresh : task ∉ w.tasks := by
    intro hmem
    have := hapart task hmem
    unfold Apart at this
    omega
  have hold : ∀ p ∈ w.tasks, World.directory { w with m, tasks := task :: w.tasks } p =
      w.directory p := fun p hp => hm.directory hp
  have htask : World.directory { w with m, tasks := task :: w.tasks } task =
      word m.shared (task.toNat + 8) := by
    unfold World.directory
    exact if_neg (fun heq : task = w.current => hfresh (heq ▸ h.current))
  refine ⟨List.mem_cons_of_mem _ h.current, ?_, ?_, ?_, ?_, ?_, h.returns⟩
  · intro p hp
    rcases List.mem_cons.mp hp with rfl | hp
    · exact hshared
    · exact h.shared p hp
  · intro p hp q hq hne
    rcases List.mem_cons.mp hp with rfl | hp' <;> rcases List.mem_cons.mp hq with rfl | hq'
    · exact absurd rfl hne
    · exact hapart q hq'
    · exact (hapart p hp').symm
    · exact h.apart p hp' q hq' hne
  · intro p hp q hq heq
    rcases List.mem_cons.mp hp with rfl | hp' <;> rcases List.mem_cons.mp hq with rfl | hq'
    · rfl
    · rw [htask, hold q hq'] at heq
      exact absurd heq (hnew q hq')
    · rw [htask, hold p hp'] at heq
      exact absurd heq.symm (hnew p hp')
    · rw [hold p hp', hold q hq'] at heq
      exact h.directories p hp' q hq' heq
  · intro p hp
    exact h.called p (fun hmem => hp (List.mem_cons_of_mem _ hmem))
  · intro p hp hne ctx hctx
    rcases List.mem_cons.mp hp with rfl | hp
    · rw [h.called p hfresh] at hctx
      cases hctx
    · obtain ⟨hdir, hcr3⟩ := h.parked_directory hp hne hctx
      apply (h.parked p hp hne ctx hctx).congr (hm.tcbs p hp)
      exact hown _ hcr3 (by rw [hdir]; exact fun heq => hnew p hp heq.symm)

/-- The tcb of the old task after its switch. -/
theorem saved_self (mem : Mem) (old rsp cr3 : UInt64) :
    word (saved mem old rsp cr3) old.toNat = rsp ∧
    word (saved mem old rsp cr3) (old.toNat + 8) = cr3 := by
  unfold saved
  rw [word_write_other _ _ (.inl (Nat.le_refl _)), word_write_self, word_write_self]
  exact ⟨rfl, rfl⟩

/-- A task that is not switched from keeps its tcb. -/
theorem agree_saved (mem : Mem) {old p : UInt64} (rsp cr3 : UInt64) (h : Apart old p) :
    Agree mem (saved mem old rsp cr3) p.toNat (p.toNat + 24) := by
  unfold Apart at h
  unfold saved
  exact (agree_write mem _ (by omega)).trans (agree_write _ _ (by omega))

/-- After a switch, each task that called it is parked, the old one too. -/
theorem World.Good.parks (h : w.Good) (hs : Switched w.m m) (hrdi : w.m.regs .rdi = w.current)
    (hroom : 40 ≤ (w.m.regs .rsp).toNat) (hsp : (w.m.regs .rsp).toNat + 8 ≤ KERNEL_VMA)
    (hp : p ∈ w.tasks)
    (hctx : Function.update w.called w.current (some (at_call w.m)) p = some ctx) :
    Parked m p ctx := by
  obtain ⟨mem, hown, hstack, hkeep⟩ := hs.own
  have hshared := hs.shared
  rw [hrdi] at hshared
  by_cases hcurrent : p = w.current
  · subst hcurrent
    rw [Function.update_self] at hctx
    cases hctx
    have hle : (40 : UInt64) ≤ w.m.regs .rsp := UInt64.le_iff_toNat_le.mpr hroom
    have hlow : (w.m.regs .rsp - 40).toNat = (w.m.regs .rsp).toNat - 40 :=
      UInt64.toNat_sub_of_le _ _ hle
    have hhigh : (w.m.regs .rsp + 8).toNat = (w.m.regs .rsp).toNat + 8 := by
      rw [UInt64.toNat_add]
      exact Nat.mod_eq_of_lt (Nat.lt_of_le_of_lt hsp (by decide))
    obtain ⟨hword, hword8⟩ := saved_self w.m.shared w.current (w.m.regs .rsp - 40) w.m.cr3
    rw [← hshared] at hword hword8
    refine ⟨word mem (w.m.regs .rsp).toNat, ?_, ?_, hword8, ?_⟩
    · rw [hword, hlow]
      show _ = (w.m.regs .rsp + 8).toNat
      omega
    · show (w.m.regs .rsp + 8).toNat ≤ _
      omega
    · rw [hword, hlow, hown]
      show Stacked (Function.update w.m.own w.m.cr3 mem w.m.cr3) _ _
      rw [Function.update_self]
      have hra : Stacked mem ((w.m.regs .rsp).toNat - 40 + 8 * 5)
          [word mem (w.m.regs .rsp).toNat] :=
        stacked_cons.mpr ⟨congrArg (word mem) (by omega), trivial⟩
      exact stacked_append.mpr ⟨hstack, hra⟩
  · rw [Function.update_of_ne hcurrent] at hctx
    have hne := (h.parked_directory hp hcurrent hctx).2
    apply (h.parked p hp hcurrent ctx hctx).congr
    · rw [hshared]
      exact agree_saved _ _ _ (h.apart _ h.current _ hp (fun heq => hcurrent heq.symm))
    · rw [hown, Function.update_of_ne hne]

/-- A parked task that is switched to has its context, with `rbp` of the task before it. -/
theorem Parked.resumes (h : Parked m' task ctx) (hs : Switched m m') (hrsi : m.regs .rsi = task) :
    context m' = { ctx with rbp := m.regs .rbp } := by
  obtain ⟨ra, hsp, hroom, hcr3, hstack⟩ := h
  have hdir : m'.cr3 = ctx.cr3 := by rw [hs.cr3, hrsi, hcr3]
  rw [← hdir] at hstack
  obtain ⟨hend, hregs, -⟩ := hs.resumes (word m'.shared task.toNat)
    [ctx.r15, ctx.r14, ctx.r13, ctx.r12, ctx.rbx] ra (by rw [hrsi]) (by omega) rfl hstack
  have hrsp : m'.regs .rsp = ctx.rsp := UInt64.toNat_inj.mp (hend.trans hsp)
  simp only [SAVED, List.reverse_cons, List.reverse_nil, List.nil_append, List.cons_append,
    List.map_cons, List.map_nil, List.cons.injEq, and_true] at hregs
  obtain ⟨h15, h14, h13, h12, hbx⟩ := hregs
  unfold context
  rw [h15, h14, h13, h12, hbx, hrsp, hdir, hs.rbp]

/-- A switch moves no task to another directory. -/
theorem World.Good.saved_directory (h : w.Good) (hs : Switched w.m m)
    (hrdi : w.m.regs .rdi = w.current) (hp : p ∈ w.tasks) :
    word m.shared (p.toNat + 8) = w.directory p := by
  have hshared := hs.shared
  rw [hrdi] at hshared
  unfold World.directory
  rw [hshared]
  by_cases hcurrent : p = w.current
  · rw [if_pos hcurrent, hcurrent]
    exact (saved_self _ _ _ _).2
  · rw [if_neg hcurrent]
    have hagree := agree_saved w.m.shared (w.m.regs .rsp - 40) w.m.cr3
      (h.apart _ h.current _ hp (fun heq => hcurrent heq.symm))
    exact word_congr (hagree.sub (by omega) (by omega))

/-- A switch returns to a task that called it with what this task had, but for `rbp`. -/
theorem World.Good.switch (h : w.Good) (ha : w.Allows text clone (.switch task)) :
    ∃ m, w.step text clone (.switch task) = .ok (w.switched task m) ∧ Switched w.m m ∧
      (w.switched task m).Good := by
  obtain ⟨htask, hrip, hrdi, hrsi, hroom, hsp⟩ := ha
  obtain ⟨m, hrun, hs⟩ := switch_to_task.spec hrip (by rw [hrdi]; exact h.shared _ h.current)
    (by rw [hrsi]; exact h.shared _ htask) hroom (by omega)
  have hparks := fun p (hp : p ∈ w.tasks) ctx hctx =>
    (h.parks hs hrdi hroom hsp hp hctx : Parked m p ctx)
  refine ⟨m, by unfold World.step; rw [hrun], hs, htask, h.shared, h.apart, ?_, ?_, ?_, ?_⟩
  · have hdir : ∀ p ∈ w.tasks, (if p = task then m.cr3 else word m.shared (p.toNat + 8)) =
        w.directory p := by
      intro p hp
      rw [← h.saved_directory hs hrdi hp]
      split
      · rename_i heq
        rw [hs.cr3, hrsi, heq]
      · rfl
    intro p hp q hq heq
    exact h.directories p hp q hq ((hdir p hp).symm.trans (heq.trans (hdir q hq)))
  · intro p hp
    have hne : p ≠ w.current := fun heq => hp (heq ▸ h.current)
    exact (Function.update_of_ne hne _ _).trans (h.called p hp)
  · intro p hp _ ctx hctx
    exact hparks p hp ctx hctx
  · intro r hr
    rcases List.mem_append.mp hr with hback | hold
    · obtain ⟨before, hbefore, rfl⟩ := Option.map_eq_some_iff.mp (Option.mem_toList.mp hback)
      exact (hparks task htask before hbefore).resumes hs hrsi
    · exact h.returns r hold

theorem World.Good.step (h : w.Good) (ha : w.Allows text clone c)
    (hs : w.step text clone c = .ok w') : w'.Good := by
  cases c with
  | compute m =>
    cases hs
    exact h.compute ha.1 ha.2
  | create task m =>
    cases hs
    exact h.create ha.1 ha.2.1 ha.2.2.1 ha.2.2.2.1 ha.2.2.2.2
  | switch task =>
    obtain ⟨m, hw1, -, hgood⟩ := h.switch ha
    rw [hw1] at hs
    cases hs
    exact hgood

theorem Run.good (h : Run text clone w) : w.Good :=
  h.invariant World.Good (fun _ => good_start) (fun _ _ _ hw ha hs => hw.step ha hs)

/-! ## Whole runs -/

/-- In any run, each return of a task from its switch finds the registers, the stack pointer and
the directory of the call, exactly when each task that switches back has `rbp` of the task that it
switches to. -/
theorem switches_are_invisible_iff_rbp_agrees (h : Run text clone w) :
    (∀ r ∈ w.returns, r.after = r.before) ↔ ∀ r ∈ w.returns, r.rbp = r.before.rbp := by
  have hreturns := h.good.returns
  constructor
  · intro hsame r hr
    have hafter := hsame r hr
    rw [hreturns r hr] at hafter
    exact congrArg Context.rbp hafter
  · intro hrbp r hr
    rw [hreturns r hr, hrbp r hr]

/-- A machine at a call of `switch_to_task`. -/
def switching (text : UInt64) (m : Machine) (old task rbp : UInt64) : Machine where
  regs := fun
    | .rdi => old
    | .rsi => task
    | .rbp => rbp
    | .rsp => 4096
    | _ => 0
  cr3 := m.cr3
  rip := text + 22
  zf := false
  shared := m.shared
  own := m.own

/-- The first task, with a task at `0xffffff8000000400` to come whose directory is 1. -/
def first (text : UInt64) : World where
  m := {
    regs := fun _ => 0
    cr3 := 0
    rip := text
    zf := false
    shared := write (fun _ => 0) 0xffffff8000000408 8 1
    own := fun _ _ => 0
  }
  current := 0xffffff8000000000
  tasks := [0xffffff8000000000]
  called := fun _ => none
  returns := []

/-- The current task may call `switch_to_task` with any value in `rbp`. -/
theorem Run.leave (h : Run text clone w) (htask : task ∈ w.tasks) (rbp : UInt64) :
    ∃ m, Run text clone
      (World.switched { w with m := switching text w.m w.current task rbp } task m) := by
  have hcompute : Run text clone { w with m := switching text w.m w.current task rbp } := by
    have hallows : w.Allows text clone (.compute (switching text w.m w.current task rbp)) :=
      ⟨⟨rfl, fun p _ => agree_refl _ _ _⟩, fun _ _ => rfl⟩
    exact Reach.next h hallows rfl
  have hallows : World.Allows text clone
      { w with m := switching text w.m w.current task rbp } (.switch task) :=
    ⟨htask, rfl, rfl, rfl, (by decide : 40 ≤ (4096 : UInt64).toNat),
      (by decide : (4096 : UInt64).toNat + 8 ≤ KERNEL_VMA)⟩
  obtain ⟨m, hstep, -, -⟩ := (Run.good hcompute).switch hallows
  exact ⟨m, Reach.next hcompute hallows hstep⟩

/-- The first task creates a second one and switches to it, and the second one switches back. -/
theorem there_and_back (text : UInt64) (clone : Machine → Machine) (rbp rbp' : UInt64) :
    ∃ w r, Run text clone w ∧ w.returns = [r] ∧ r.before.rbp = rbp ∧ r.rbp = rbp' := by
  have hshared : Shared 0xffffff8000000000 ∧ Shared 0xffffff8000000400 := by
    unfold Shared
    decide
  have hstart : Run text clone (first text) :=
    Reach.start ⟨rfl, hshared.1, fun _ => rfl, rfl⟩
  have hcreate : Run text clone
      { first text with tasks := [0xffffff8000000400, 0xffffff8000000000] } := by
    have hallows : (first text).Allows text clone (.create 0xffffff8000000400 (first text).m) := by
      refine ⟨⟨rfl, fun p _ => agree_refl _ _ _⟩, hshared.2, ?_, ?_, fun _ _ _ => rfl⟩
      · intro p hp
        rw [List.mem_singleton.mp hp]
        exact .inr (by decide)
      · intro p hp
        rw [List.mem_singleton.mp hp]
        have hword : word (first text).m.shared (0xffffff8000000400 + 8) = 1 :=
          word_write_self (fun _ => 0) _ 1
        exact ne_of_eq_of_ne hword (by decide : (1 : UInt64) ≠ 0)
    exact Reach.next hstart hallows rfl
  obtain ⟨m, hthere⟩ := Run.leave hcreate (List.mem_cons_self (a := 0xffffff8000000400)) rbp
  obtain ⟨m', hback⟩ := Run.leave hthere
    (List.mem_cons_of_mem _ (List.mem_cons_self (a := 0xffffff8000000000))) rbp'
  exact ⟨_, _, hback, rfl, rfl, rfl⟩

/-- A task whose `rbp` the other one happens to have gets its context back. -/
theorem switches_are_invisible_iff_rbp_agrees_there_and_back :
    ∃ w, Run 0 id w ∧ w.returns.length = 1 ∧ ∀ r ∈ w.returns, r.after = r.before := by
  obtain ⟨w, r, hrun, hreturns, hbefore, hrbp⟩ := there_and_back 0 id 7 7
  refine ⟨w, hrun, by rw [hreturns]; rfl, ?_⟩
  apply (switches_are_invisible_iff_rbp_agrees hrun).mpr
  intro r' hr'
  rw [hreturns, List.mem_singleton] at hr'
  rw [hr', hrbp, hbefore]

/-- A task that calls with 1 in `rbp` comes back with the 2 of the other one. -/
theorem rbp_is_lost :
    ¬ ∀ w, Run 0 id w → ∀ r ∈ w.returns, r.after = r.before := by
  intro hall
  obtain ⟨w, r, hrun, hreturns, hbefore, hrbp⟩ := there_and_back 0 id 1 2
  have hmem : r ∈ w.returns := by
    rw [hreturns]
    exact List.mem_cons_self
  have hsame := hall w hrun r hmem
  rw [(Run.good hrun).returns r hmem] at hsame
  have hvalues := congrArg Context.rbp hsame
  rw [hrbp, hbefore] at hvalues
  exact absurd hvalues (by decide : (2 : UInt64) ≠ 1)

end salsola.asm
