-- Tasks on the page tables and the heap: a `struct task` is a block of `kmalloc`, and its directory
-- is a clone of the one of its parent. Each task has an address space of its own, as the pointers
-- of its directory lead.
import Salsola.KernelRuns
import Salsola.TaskRuns

open memory blocks outcome runs

namespace salsola.kernel

open mmu (Mmu Boot Spaces Request Spaced window page_entry hardware_walk InDevice root)
open sched (NULL Saved Answers)

/-! ## The machine -/

/-- `kmalloc`, when the heap is called now. -/
def Kernel.kmalloc (k : Kernel) (fuel s : Nat) : Result (Nat × Kernel) := do
  let (rc, now) ← heap.kmalloc (k.sbrk fuel) k.world.now s
  let k ← k.after fuel (k.world.gave now 0 rc s)
  .ok (rc, k)

/-- `sizeof(struct task)` -/
def SIZEOF_TASK : Nat := 40

structure Tasks where
  memory : Kernel
  queue : sched.World
  /-- CR3 of the CPU. -/
  cr3 : Nat

inductive TaskEvent
  | memory (event : Event)
  /-- The current task calls `task_create`, and `weird_switch2` has the stack pointer `rsp`. -/
  | create (fuel : Nat) (rsp : UInt64)
  /-- The current task calls `task_legacy_switch`. -/
  | switch (rsp : UInt64)

/-- `mmu_clone_directory` in `task_create_directory` -/
def Tasks.clone (t : Tasks) (fuel : Nat) (memory : Kernel) : Result (Nat × Kernel) := do
  let parent := t.queue.state.tasks t.queue.state.task_current
  let (directory, state) ←
    mmu.mmu_clone_directory fuel memory.spaces.state parent.directory.toNat
  let spaces := { memory.spaces with state, dirs := directory :: memory.spaces.dirs }
  .ok (directory, { memory with spaces })

def Tasks.step (t : Tasks) : TaskEvent → Result Tasks
  | .memory event => do
    let memory ← t.memory.step event
    .ok { t with memory }
  | .create fuel rsp => do
    let (block, memory) ← t.memory.kmalloc fuel SIZEOF_TASK
    if block = 0 then
      let queue ← t.queue.step (.create ⟨0, 0, 0, 0⟩)
      .ok { t with memory, queue }
    else
      let (directory, memory) ← t.clone fuel memory
      let physical := (memory.spaces.state.directories directory).physical
      let queue ← t.queue.step (.create
        { kmalloc := UInt64.ofNat block, directory := UInt64.ofNat directory,
          physical := UInt64.ofNat physical, rsp })
      .ok { t with memory, queue }
  | .switch rsp => do
    let queue ← t.queue.step (.switch { rsp, cr3 := UInt64.ofNat t.cr3 })
    .ok { t with queue, cr3 := (queue.state.tasks queue.state.task_current).tcb.cr3.toNat }

/-- Nobody sets a directory, and nobody but the scheduler touches a `struct task`. -/
def Tasks.allowed (t : Tasks) : TaskEvent → Prop
  | .memory event => t.memory.allowed event ∧ (∀ d, event ≠ .request (.set d)) ∧
    ∀ fuel c, event = .call fuel c → ∀ p ∈ t.queue.made, c.arg ≠ p.toNat ∧
      ∀ x v, c = .store x v → x < p.toNat ∨ p.toNat + SIZEOF_TASK ≤ x
  | .create _ _ => True
  | .switch _ => True

/-- `task_init` has made the first task. -/
def Tasks.starts (boot : Boot) (t : Tasks) : Prop :=
  ∃ k fuel block s, Kernel.Reachable boot k ∧ k.kmalloc fuel SIZEOF_TASK = .ok (block, t.memory) ∧
    t.queue.created = [] ∧ t.queue.initial = UInt64.ofNat block ∧
    sched.task_init s t.queue.initial (UInt64.ofNat t.memory.spaces.state.active_directory) =
      (t.queue.state, true) ∧
    t.cr3 = (t.memory.spaces.state.directories t.memory.spaces.state.active_directory).physical

abbrev Tasks.Reachable (boot : Boot) : Tasks → Prop :=
  Reach (Tasks.starts boot) Tasks.allowed Tasks.step

variable {k k' : Kernel} {boot : Boot} {t t' : Tasks} {event : TaskEvent}
variable {fuel s block : Nat} {p q : UInt64}

/-! ## A block for a task -/

theorem Kernel.Good.kmalloc {rc : Nat} {now : heap.Heap} (h : k.Good boot) (hs : s < heap.LIMIT)
    (hcall : heap.kmalloc (k.sbrk fuel) k.world.now s = .ok (rc, now)) :
    ∃ k', k.kmalloc fuel s = .ok (rc, k') ∧ k.step (.call fuel (.kmalloc s)) = .ok k' ∧
      k'.Good boot ∧ Followed k fuel (k.world.gave now 0 rc s) k' := by
  have hallowed : k.allowed (.call fuel (.kmalloc s)) := hs
  have hworld : k.world.step (k.sbrk fuel) (.kmalloc s) = .ok (k.world.gave now 0 rc s) := by
    unfold heap.World.step
    dsimp only
    rw [hcall]
    rfl
  obtain ⟨k', hstep, hgood, hfollowed⟩ := h.call hallowed hworld
  refine ⟨k', ?_, hstep, hgood, hfollowed⟩
  have hafter : k.after fuel (k.world.gave now 0 rc s) = .ok k' := by
    unfold Kernel.step at hstep
    dsimp only at hstep
    rw [hworld, ok_bind] at hstep
    exact hstep
  unfold Kernel.kmalloc
  rw [hcall, ok_bind]
  dsimp only
  rw [hafter]
  rfl

theorem Kernel.kmalloc.spec (h : k.Good boot) (hs : s < heap.LIMIT) :
    Spec (k.kmalloc fuel s) (· = .ksbrk) (fun r =>
      k.step (.call fuel (.kmalloc s)) = .ok r.2 ∧ r.1 ≠ 0 ∧ r.1 + s ≤ 2 ^ 64 ∧
        k.world.live r.1 = none ∧ r.2.world.live r.1 = some s) := by
  obtain ⟨arenas, hg⟩ := h.laid.laid
  have hspec := heap.kmalloc.spec (h.fresh fuel) hg hs
  cases hcall : heap.kmalloc (k.sbrk fuel) k.world.now s with
  | error e =>
    rw [hcall] at hspec
    unfold Kernel.kmalloc
    rw [hcall]
    exact hspec
  | ok r =>
    obtain ⟨rc, now⟩ := r
    rw [hcall] at hspec
    obtain ⟨bs', hserved, -⟩ := hspec
    obtain ⟨k', hkmalloc, hstep, -, hfollowed⟩ := h.kmalloc hs hcall
    obtain ⟨u, hrc, hsize, hmem, -, hap⟩ := hserved.alloc.block_mem
    have hfresh : k.world.live rc = none := by
      cases hlive : k.world.live rc with
      | none => rfl
      | some n =>
        obtain ⟨c, hc, heq, -⟩ := (h.laid.live rc n).mp hlive
        have := hap c hc
        rw [heap.header_eq] at *
        omega
    rw [hkmalloc]
    refine ⟨hstep, hserved.nonzero, ?_, hfresh, ?_⟩
    · obtain ⟨arenas', hg'⟩ := hserved.alloc.good
      have := (hg'.spot (mem_usedBlocks.mp hmem).1).2
      dsimp only
      omega
    · change k'.live rc = some s
      rw [hfollowed.live, heap.gave_eq hserved.nonzero]
      exact Function.update_self ..

/-! ## What the scheduler writes -/

/-- A creation writes to its block only. -/
theorem task_create_tasks {s s' : sched.State} {r : Bool} {answers : Answers}
    (h : sched.task_create s answers = .ok (s', r)) (hp : answers.kmalloc ≠ NULL) :
    (∀ p, p ≠ answers.kmalloc → s'.tasks p = s.tasks p) ∧
      (s'.tasks answers.kmalloc).directory = answers.directory ∧
      (s'.tasks answers.kmalloc).tcb.cr3 = answers.physical ∧
      s'.task_current = s.task_current := by
  unfold sched.task_create at h
  obtain ⟨-, -, h⟩ := bind_eq_ok.mp h
  rw [if_neg hp] at h
  unfold sched.weird_switch sched.task_create_directory sched.State.store at h
  cases h
  refine ⟨fun p hne => ?_, ?_, ?_, rfl⟩
  · simp [hne]
  · simp
  · simp

/-- A switch writes to the tcb of the current task only. -/
theorem task_legacy_switch_tasks (s : sched.State) (cpu : Saved) :
    (∀ p, ((sched.task_legacy_switch s cpu).tasks p).directory = (s.tasks p).directory) ∧
      ∀ p, ((sched.task_legacy_switch s cpu).tasks p).tcb.cr3 =
        if p = s.task_current then cpu.cr3 else (s.tasks p).tcb.cr3 := by
  unfold sched.task_legacy_switch sched.task_switch sched.switch_to_task sched.State.store
  dsimp only
  refine ⟨fun p => ?_, fun p => ?_⟩
  · by_cases hp : p = s.task_current
    · subst hp
      simp
    · simp [hp]
  · by_cases hp : p = s.task_current
    · subst hp
      simp
    · simp [hp]

/-! ## The invariant -/

def Tasks.directory (t : Tasks) (p : UInt64) : Nat := (t.queue.state.tasks p).directory.toNat

/-- CR3, when the task runs. -/
def Tasks.cr3_of (t : Tasks) (p : UInt64) : Nat :=
  if p = t.queue.state.task_current then t.cr3 else (t.queue.state.tasks p).tcb.cr3.toNat

structure Tasks.Good (boot : Boot) (t : Tasks) : Prop where
  memory : t.memory.Good boot
  queue : t.queue.Good
  blocks : ∀ p ∈ t.queue.made, t.memory.world.live p.toNat = some SIZEOF_TASK
  directory : ∀ p ∈ t.queue.made, t.directory p ∈ t.memory.spaces.dirs
  own : ∀ p ∈ t.queue.made, ∀ q ∈ t.queue.made, t.directory p = t.directory q → p = q
  cr3 : ∀ p ∈ t.queue.made,
    t.cr3_of p = (t.memory.spaces.state.directories (t.directory p)).physical
  active : t.memory.spaces.state.active_directory = t.directory t.queue.initial

/-- Memory that keeps the directories and the blocks. -/
theorem Tasks.Good.keeps (h : t.Good boot) (hk : k.Good boot)
    (hdirs : ∀ d ∈ t.memory.spaces.dirs, d ∈ k.spaces.dirs ∧
      k.spaces.state.directories d = t.memory.spaces.state.directories d)
    (hactive : k.spaces.state.active_directory = t.memory.spaces.state.active_directory)
    (hblocks : ∀ p ∈ t.queue.made, k.world.live p.toNat = some SIZEOF_TASK) :
    Tasks.Good boot { t with memory := k } where
  memory := hk
  queue := h.queue
  blocks := hblocks
  directory p hp := (hdirs _ (h.directory p hp)).1
  own := h.own
  cr3 p hp := by
    refine (h.cr3 p hp).trans ?_
    exact congrArg mmu.Directory.physical (hdirs _ (h.directory p hp)).2.symm
  active := hactive.trans h.active

theorem Tasks.Good.null (h : t.Good boot) (hp : p ∈ t.queue.made) : p.toNat ≠ 0 := by
  intro h0
  exact h.queue.chain.ne_null hp (UInt64.toNat_inj.mp h0)

/-- The memory behind a `kmalloc` for a task. -/
theorem Tasks.Good.kmalloc (h : t.Good boot)
    (hcall : t.memory.kmalloc fuel SIZEOF_TASK = .ok (block, k)) :
    Tasks.Good boot { t with memory := k } ∧ block ≠ 0 ∧ block < 2 ^ 64 ∧
      UInt64.ofNat block ∉ t.queue.made ∧ k.world.live block = some SIZEOF_TASK := by
  obtain ⟨hstep, hne, htop, hfresh, hlive⟩ :=
    spec_of_ok (Kernel.kmalloc.spec h.memory (by decide)) hcall
  dsimp only at hstep hne htop hfresh hlive
  have hallowed : t.memory.allowed (.call fuel (.kmalloc SIZEOF_TASK)) := by
    show SIZEOF_TASK < heap.LIMIT
    decide
  obtain ⟨hdirs, hactive, hkept⟩ := h.memory.step_keeps hallowed hstep
  have hlt : block < 2 ^ 64 := by
    unfold SIZEOF_TASK at htop
    omega
  refine ⟨h.keeps (h.memory.step hallowed hstep) hdirs (hactive (by simp)) ?_, hne, hlt, ?_, hlive⟩
  · intro p hp
    refine hkept _ _ (h.blocks p hp) ?_
    rintro _ _ heq
    cases heq
    exact h.null hp
  · intro hmem
    have hblock := h.blocks _ hmem
    rw [UInt64.toNat_ofNat_of_lt' hlt, hfresh] at hblock
    cases hblock

/-! ## Runs -/

theorem task_init_directory {s s' : sched.State} {d : UInt64}
    (h : sched.task_init s p d = (s', true)) :
    (s'.tasks p).directory = d ∧ s'.task_current = p := by
  unfold sched.task_init sched.State.store at h
  dsimp only at h
  split at h
  · cases h
  · cases h
    simp

theorem Tasks.starts.good (h : Tasks.starts boot t) : t.Good boot := by
  obtain ⟨k, fuel, block, s, hk, hcall, hcreated, hinitial, hinit, hcr3⟩ := h
  have hgood := hk.good
  obtain ⟨hstep, -, htop, -, hlive⟩ := spec_of_ok (Kernel.kmalloc.spec hgood (by decide)) hcall
  have hallowed : k.allowed (.call fuel (.kmalloc SIZEOF_TASK)) := by
    show SIZEOF_TASK < heap.LIMIT
    decide
  have hmemory := hgood.step hallowed hstep
  have hlt : block < 2 ^ 64 := by
    unfold SIZEOF_TASK at htop
    dsimp only at htop
    omega
  have hsound := hmemory.spaced.sound
  obtain ⟨hdir, hcurrent⟩ := task_init_directory hinit
  have hmade : t.queue.made = [t.queue.initial] := by
    unfold sched.World.made
    rw [hcreated]
    rfl
  have hd : t.directory t.queue.initial = t.memory.spaces.state.active_directory := by
    unfold Tasks.directory
    rw [hdir]
    exact UInt64.toNat_ofNat_of_lt' (hsound.directory_lt hsound.active).1
  refine ⟨hmemory, sched.good_start ⟨hcreated, s, _, hinit⟩, ?_, ?_, ?_, ?_, hd.symm⟩
  all_goals rw [hmade]
  · intro p hp
    rw [List.mem_singleton.mp hp, hinitial, UInt64.toNat_ofNat_of_lt' hlt]
    exact hlive
  · intro p hp
    rw [List.mem_singleton.mp hp, hd]
    exact hsound.active
  · intro p hp q hq _
    exact (List.mem_singleton.mp hp).trans (List.mem_singleton.mp hq).symm
  · intro p hp
    unfold Tasks.cr3_of
    rw [List.mem_singleton.mp hp, hd, hcurrent, if_pos rfl]
    exact hcr3

/-- `task_create` puts a task on a new directory in front of the queue. -/
theorem Tasks.Good.create {rsp : UInt64} (h : t.Good boot)
    (hstep : t.step (.create fuel rsp) = .ok t') : t'.Good boot := by
  obtain ⟨⟨block, k⟩, hcall, hstep⟩ := bind_eq_ok.mp hstep
  obtain ⟨hg, hne, hlt, hnew, hlive⟩ := h.kmalloc hcall
  dsimp only at hstep
  rw [if_neg hne] at hstep
  obtain ⟨⟨d, k'⟩, hcloned, hstep⟩ := bind_eq_ok.mp hstep
  obtain ⟨⟨d1, state⟩, hclone, heq⟩ := bind_eq_ok.mp hcloned
  cases heq
  obtain ⟨queue, hqueue, heq⟩ := bind_eq_ok.mp hstep
  cases heq
  obtain ⟨⟨s', r⟩, hcreate, heq⟩ := bind_eq_ok.mp hqueue
  -- the clone is a request to the page tables
  have hparent := hg.directory _ hg.queue.current
  have hrequest := Spaces.step_clone hclone
  have hallowed : k.spaces.allowed (.clone fuel (t.directory t.queue.state.task_current)) := hparent
  have hk' := hg.memory.request ⟨hallowed, by simp⟩ hrequest
  obtain ⟨hdirs, hactive⟩ := Spaces.step_directories hg.memory.spaced hallowed hrequest
  have hg' := hg.keeps hk' hdirs (hactive (by simp)) hg.blocks
  have hd : d ∉ k.spaces.dirs := (spec_of_ok (mmu.mmu_clone_directory.spec
    hg.memory.spaced.sound hg.memory.spaced.backed hparent fuel) hclone).new
  obtain ⟨hdlt, hplt⟩ := hk'.spaced.sound.directory_lt List.mem_cons_self
  -- the queue has one more task, and the others are as they were
  have hnull : UInt64.ofNat block ≠ NULL := by
    intro h0
    have := congrArg UInt64.toNat h0
    rw [UInt64.toNat_ofNat_of_lt' hlt] at this
    exact hne this
  obtain ⟨hothers, hdir, hcr3, hcurrent⟩ := task_create_tasks hcreate hnull
  have hgood : queue.Good := h.queue.create hnew hqueue
  dsimp only at heq hdir hcr3 hothers
  rw [if_neg hnull] at heq
  cases heq
  have hmember : ∀ p ∈ t.queue.made, s'.tasks p = t.queue.state.tasks p := by
    intro p hp
    refine hothers p ?_
    rintro rfl
    exact hnew hp
  have hne' : UInt64.ofNat block ≠ s'.task_current := by
    rw [hcurrent]
    rintro heq
    exact hnew (heq ▸ h.queue.current)
  have hdnew : (s'.tasks (UInt64.ofNat block)).directory.toNat = d := by
    rw [hdir]
    exact UInt64.toNat_ofNat_of_lt' hdlt
  have hcases : ∀ p, p ∈ UInt64.ofNat block :: t.queue.made →
      p = UInt64.ofNat block ∨ p ∈ t.queue.made := fun p => List.mem_cons.mp
  refine ⟨hk', hgood, ?_, ?_, ?_, ?_, ?_⟩
  · intro p hp
    rcases hcases p hp with rfl | hp
    · rw [UInt64.toNat_ofNat_of_lt' hlt]
      exact hlive
    · exact hg.blocks p hp
  · intro p hp
    unfold Tasks.directory
    rcases hcases p hp with rfl | hp
    · rw [hdnew]
      exact List.mem_cons_self
    · rw [hmember p hp]
      exact hg'.directory p hp
  · intro p hp q hq
    unfold Tasks.directory
    rcases hcases p hp with rfl | hp <;> rcases hcases q hq with rfl | hq
    · exact fun _ => rfl
    · rw [hdnew, hmember q hq]
      exact fun heq => absurd (heq ▸ hg.directory q hq) hd
    · rw [hdnew, hmember p hp]
      exact fun heq => absurd (heq ▸ hg.directory p hp) hd
    · rw [hmember p hp, hmember q hq]
      exact hg.own p hp q hq
  · intro p hp
    unfold Tasks.directory Tasks.cr3_of
    dsimp only
    rcases hcases p hp with rfl | hp
    · rw [if_neg hne', hcr3, hdnew]
      exact UInt64.toNat_ofNat_of_lt' hplt
    · rw [hmember p hp, hcurrent]
      exact hg'.cr3 p hp
  · refine hg'.active.trans ?_
    unfold Tasks.directory
    rw [hmember _ (List.mem_append_right _ (List.mem_singleton_self _))]

/-- `task_legacy_switch` goes to the address space of the next task. -/
theorem Tasks.Good.switch {rsp : UInt64} (h : t.Good boot)
    (hstep : t.step (.switch rsp) = .ok t') : t'.Good boot := by
  obtain ⟨queue, hqueue, heq⟩ := bind_eq_ok.mp hstep
  cases heq
  obtain ⟨hgood, hmade, -⟩ := h.queue.switch hqueue
  cases hqueue
  obtain ⟨hdirs, hcr3s⟩ :=
    task_legacy_switch_tasks t.queue.state { rsp, cr3 := UInt64.ofNat t.cr3 }
  have hsound := h.memory.spaced.sound
  have hlt : t.cr3 < 2 ^ 64 := by
    have heq := h.cr3 _ h.queue.current
    unfold Tasks.cr3_of at heq
    rw [if_pos rfl] at heq
    rw [heq]
    exact (hsound.directory_lt (h.directory _ h.queue.current)).2
  have hcr3 : ∀ p, ((sched.task_legacy_switch t.queue.state
      { rsp, cr3 := UInt64.ofNat t.cr3 }).tasks p).tcb.cr3.toNat = t.cr3_of p := by
    intro p
    rw [hcr3s]
    unfold Tasks.cr3_of
    split
    · exact UInt64.toNat_ofNat_of_lt' hlt
    · rfl
  have hdir : ∀ p, ((sched.task_legacy_switch t.queue.state
      { rsp, cr3 := UInt64.ofNat t.cr3 }).tasks p).directory.toNat = t.directory p :=
    fun p => congrArg UInt64.toNat (hdirs p)
  refine ⟨h.memory, hgood, h.blocks, ?_, ?_, ?_, ?_⟩
  · intro p hp
    unfold Tasks.directory
    rw [hdir]
    exact h.directory p hp
  · intro p hp q hq
    unfold Tasks.directory
    rw [hdir, hdir]
    exact h.own p hp q hq
  · intro p hp
    unfold Tasks.directory Tasks.cr3_of
    dsimp only
    rw [hdir, hcr3, hcr3]
    split
    · rename_i heq
      rw [← heq]
      exact h.cr3 p hp
    · exact h.cr3 p hp
  · unfold Tasks.directory
    rw [hdir]
    exact h.active

theorem Tasks.Good.step (h : t.Good boot) (hall : t.allowed event) (hstep : t.step event = .ok t') :
    t'.Good boot := by
  cases event with
  | memory event =>
    obtain ⟨k, hk, heq⟩ := bind_eq_ok.mp hstep
    cases heq
    obtain ⟨hallowed, hset, htouch⟩ := hall
    obtain ⟨hdirs, hactive, hkept⟩ := h.memory.step_keeps hallowed hk
    refine h.keeps (h.memory.step hallowed hk) hdirs (hactive hset) (fun p hp => ?_)
    exact hkept _ _ (h.blocks p hp) (fun fuel c heq h0 => (htouch fuel c heq p hp).1 h0.symm)
  | create fuel rsp => exact h.create hstep
  | switch rsp => exact h.switch hstep

theorem Tasks.Reachable.good (ht : Tasks.Reachable boot t) : t.Good boot :=
  ht.invariant (Tasks.Good boot) (fun _ hs => hs.good)
    (fun _ _ _ h hall hstep => h.step hall hstep)

/-- In every run of `task_create`, `task_legacy_switch`, calls of the heap and requests to the page
tables, in any order, each task is a block of the heap and has a directory of its own. CR3 is the
PML4T of the directory of the current task, and each other task finds the one of its own
directory in its tcb. Below the slot 511 no two tasks have a page on one frame, as the pointers
of their directories lead, and for the CPU when the entries of the tables name the tables that
their pointers lead to. The page tables that the calls of mmu.c work on are those of the first
task, whichever task runs. -/
theorem each_task_has_an_address_space_of_its_own (boot : Boot) (t : Tasks)
    (ht : Tasks.Reachable boot t) :
    (t.queue.state.task_current ∈ t.queue.made ∧ t.queue.made.Nodup ∧
      ∀ p ∈ t.queue.made, t.memory.world.live p.toNat = some SIZEOF_TASK) ∧
    (∀ p ∈ t.queue.made, ∀ q ∈ t.queue.made, t.directory p = t.directory q → p = q) ∧
    (∀ p ∈ t.queue.made, t.directory p ∈ t.memory.spaces.dirs ∧
      t.memory.spaces.state.placed (t.cr3_of p) =
        some (root t.memory.spaces.state (t.directory p))) ∧
    (∀ p ∈ t.queue.made, ∀ q ∈ t.queue.made, ∀ a b e e',
      ¬ InDevice t.memory.spaces.live a → ¬ InDevice t.memory.spaces.live b →
      mmu.pml4t_index a ≠ 511 →
      page_entry t.memory.spaces.state (t.directory p) a = some e →
      page_entry t.memory.spaces.state (t.directory q) b = some e' → e / 0x1000 = e' / 0x1000 →
      p = q ∧ a % 2 ^ 48 / 0x1000 = b % 2 ^ 48 / 0x1000) ∧
    (mmu.Agreed t.memory.spaces.state → ∀ p ∈ t.queue.made, ∀ q ∈ t.queue.made, ∀ a b x y,
      ¬ InDevice t.memory.spaces.live a → ¬ InDevice t.memory.spaces.live b →
      mmu.pml4t_index a ≠ 511 →
      hardware_walk t.memory.spaces.state (t.cr3_of p) a = some x →
      hardware_walk t.memory.spaces.state (t.cr3_of q) b = some y → x / 0x1000 = y / 0x1000 →
      p = q ∧ a % 2 ^ 48 / 0x1000 = b % 2 ^ 48 / 0x1000) ∧
    t.memory.spaces.state.active_directory = t.directory t.queue.initial := by
  have hgood := ht.good
  have hspaced := hgood.memory.spaced
  have hroots : ∀ p ∈ t.queue.made, t.memory.spaces.state.placed (t.cr3_of p) =
      some (root t.memory.spaces.state (t.directory p)) := by
    intro p hp
    rw [hgood.cr3 p hp]
    exact (hspaced.sound.roots _ (hgood.directory p hp)).2.2
  have hunique : ∀ p ∈ t.queue.made, ∀ q ∈ t.queue.made, ∀ a b e e',
      ¬ InDevice t.memory.spaces.live a → ¬ InDevice t.memory.spaces.live b →
      mmu.pml4t_index a ≠ 511 →
      page_entry t.memory.spaces.state (t.directory p) a = some e →
      page_entry t.memory.spaces.state (t.directory q) b = some e' → e / 0x1000 = e' / 0x1000 →
      p = q ∧ a % 2 ^ 48 / 0x1000 = b % 2 ^ 48 / 0x1000 := by
    intro p hp q hq a b e e' hna hnb ha hpage hpage' hsame
    obtain ⟨hpages, -, hspace⟩ := hspaced.page_unique (hgood.directory p hp)
      (hgood.directory q hq) hna hnb hpage hpage' hsame
    exact ⟨hgood.own p hp q hq (hspace.resolve_left ha), hpages⟩
  refine ⟨⟨hgood.queue.current, hgood.queue.nodup, hgood.blocks⟩, hgood.own,
    fun p hp => ⟨hgood.directory p hp, hroots p hp⟩, hunique, ?_, hgood.active⟩
  intro hagreed p hp q hq a b x y hna hnb ha hx hy hsame
  -- the CPU starts at the PML4T of the directory, and follows the pointers from there
  have hpage := hroots p hp
  have hpage' := hroots q hq
  rw [hgood.cr3 p hp] at hx hpage
  rw [hgood.cr3 q hq] at hy hpage'
  rw [mmu.walk_entry hpage (hagreed.named _ _)] at hx
  rw [mmu.walk_entry hpage' (hagreed.named _ _)] at hy
  obtain ⟨e, he, rfl⟩ := Option.map_eq_some_iff.mp hx
  obtain ⟨e', he', rfl⟩ := Option.map_eq_some_iff.mp hy
  refine hunique p hp q hq a b e e' hna hnb ha he he' ?_
  unfold mmu.page_base at hsame
  omega

/-! ## A fork on the roomy machine -/

/-- With room for the block, `kmalloc` leaves the page tables alone. -/
theorem kmalloc_with_room {arenas : List Arena} {bs : List Block} (h : k.Good boot)
    (hg : heap.Good k.world.now arenas bs) (hs : s < heap.LIMIT)
    (hroom : Room (s + heap.HEADER) bs) : ∃ rc k' bs', k.kmalloc fuel s = .ok (rc, k') ∧
      (∃ ram seed, k'.spaces = { k.spaces with state := k.spaces.state.bytes ram seed }) ∧
      k'.Good boot ∧ (∃ arenas', heap.Good k'.world.now arenas' bs') ∧
      (heap.Tidy (s + heap.HEADER) bs → ∃ l b r, bs = l ++ b :: r ∧ b.free = true ∧
        bs' = l ++ b.used s :: b.rest heap.HEADER s :: r) := by
  obtain ⟨rc, now, bs', hcall, hserved, htidy⟩ := heap.kmalloc_room (k.sbrk fuel) hg hs hroom
  have hregs : (k.world.gave now 0 rc s).now.regions = k.regions :=
    heap.kmalloc_room_regions hg hs hroom hcall
  obtain ⟨k', hkmalloc, -, hgood, hfollowed⟩ := h.kmalloc hs hcall
  obtain ⟨arenas', hg'⟩ := hserved.alloc.good
  have hgood' : heap.Good k'.world.now arenas' bs' :=
    hg'.congr hfollowed.mem hfollowed.head hfollowed.final hfollowed.regions
  exact ⟨rc, k', bs', hkmalloc, hfollowed.none hregs, hgood, ⟨arenas', hgood'⟩, htidy⟩

/-- The only block serves two requests. -/
theorem room_for_two {rc : Nat} {l r : List Block} {b : Block}
    (hl : [heap.whole rc heap.NEW_ALLOC_SIZE 0] = l ++ b :: r) (hb : b.free = true) :
    Room (SIZEOF_TASK + heap.HEADER)
      (l ++ b.used SIZEOF_TASK :: b.rest heap.HEADER SIZEOF_TASK :: r) := by
  have hmem : b ∈ [heap.whole rc heap.NEW_ALLOC_SIZE 0] := by
    rw [hl]
    simp
  refine ⟨b.rest heap.HEADER SIZEOF_TASK, by simp, hb, ?_⟩
  rw [List.mem_singleton.mp hmem]
  show SIZEOF_TASK + heap.HEADER ≤
    heap.NEW_ALLOC_SIZE - heap.HEADER - SIZEOF_TASK - heap.HEADER
  decide

/-- A kernel whose heap has one block serves two tasks. -/
theorem kmalloc_for_two {rc : Nat} {arenas : List Arena} (fuel : Nat) (h : k.Good boot)
    (hg : heap.Good k.world.now arenas [heap.whole rc heap.NEW_ALLOC_SIZE 0]) :
    ∃ block k' block' k'', k.kmalloc fuel SIZEOF_TASK = .ok (block, k') ∧
      k'.kmalloc fuel SIZEOF_TASK = .ok (block', k'') ∧ k'.spaces.dirs = k.spaces.dirs ∧
      ∃ ram seed, k''.spaces = { k.spaces with state := k.spaces.state.bytes ram seed } := by
  have hroom : Room (SIZEOF_TASK + heap.HEADER) [heap.whole rc heap.NEW_ALLOC_SIZE 0] :=
    ⟨_, List.mem_singleton_self _, rfl, by
      show SIZEOF_TASK + heap.HEADER ≤ heap.NEW_ALLOC_SIZE - heap.HEADER
      decide⟩
  obtain ⟨block, k', bs, hcall, ⟨ram, seed, hspaces⟩, h', ⟨arenas', hg'⟩, htidy⟩ :=
    kmalloc_with_room h hg (by decide) hroom
  obtain ⟨l, b, r, hl, hb, rfl⟩ := htidy (heap.boot_tidy _ rc)
  obtain ⟨block', k'', -, hcall', ⟨ram', seed', hspaces'⟩, -⟩ :=
    kmalloc_with_room h' hg' (by decide) (room_for_two hl hb)
  refine ⟨block, k', block', k'', hcall, hcall', by rw [hspaces], ram', seed', ?_⟩
  rw [hspaces', hspaces]
  rfl

/-- The variables of task.c before `task_init`. -/
def no_tasks : sched.State where
  tasks := fun _ => ⟨⟨0, 0, 0⟩, 0, 0⟩
  task_head := NULL
  task_current := NULL

/-- The first task, in a block of the kernel `k`. -/
def Tasks.first (k : Kernel) (block : Nat) : Tasks where
  memory := k
  queue :=
    { state := (sched.task_init no_tasks (UInt64.ofNat block)
        (UInt64.ofNat k.spaces.state.active_directory)).1
      initial := UInt64.ofNat block
      created := [] }
  cr3 := (k.spaces.state.directories k.spaces.state.active_directory).physical

theorem first_starts (hk : Kernel.Reachable boot k)
    (hcall : k.kmalloc fuel SIZEOF_TASK = .ok (block, k')) :
    Tasks.starts boot (Tasks.first k' block) := by
  obtain ⟨-, hne, htop, -⟩ := spec_of_ok (Kernel.kmalloc.spec hk.good (by decide)) hcall
  have hlt : block < 2 ^ 64 := by
    unfold SIZEOF_TASK at htop
    dsimp only at htop
    omega
  have hnull : UInt64.ofNat block ≠ NULL := by
    intro h0
    have := congrArg UInt64.toNat h0
    rw [UInt64.toNat_ofNat_of_lt' hlt] at this
    exact hne this
  have hinit : (sched.task_init no_tasks (UInt64.ofNat block)
      (UInt64.ofNat k'.spaces.state.active_directory)).2 = true := by
    unfold sched.task_init
    dsimp only
    rw [if_neg hnull]
  exact ⟨k, fuel, block, no_tasks, hk, hcall, rfl, rfl, Prod.ext rfl hinit, rfl⟩

/-- A fork on the roomy machine. -/
theorem roomy_boot_forks : ∃ t t', Tasks.starts roomy_boot t ∧
    t.step (.create 24 0) = .ok t' ∧ t'.queue.created ≠ [] := by
  obtain ⟨s, rc, s', hinit, hksbrk, d, cloned, hclone⟩ := roomy_boot_calls
  obtain ⟨k, -, hreach, ⟨ram, seed, hspaces⟩, hg⟩ := first_region hinit hksbrk
  obtain ⟨block, k', block', k'', hcall, hcall', hdirs, ram', seed', hspaces'⟩ :=
    kmalloc_for_two 24 hreach.good hg
  obtain ⟨t, ht⟩ : ∃ t, t = Tasks.first k' block := ⟨_, rfl⟩
  have hstarts : Tasks.starts roomy_boot t := ht ▸ first_starts hreach hcall
  have hgood := hstarts.good
  have hmemory : t.memory = k' := by rw [ht]; rfl
  rw [← hmemory] at hcall'
  obtain ⟨hg2, hne, hlt, -⟩ := hgood.kmalloc hcall'
  -- the parent runs in the directory that boot.s made
  have hparent : t.directory t.queue.state.task_current = roomy_boot.orig_active_directory := by
    have hmem := hgood.directory _ hgood.queue.current
    rw [hmemory, hdirs, hspaces] at hmem
    exact List.mem_singleton.mp hmem
  have hnull : UInt64.ofNat block' ≠ NULL := by
    intro h0
    have := congrArg UInt64.toNat h0
    rw [UInt64.toNat_ofNat_of_lt' hlt] at this
    exact hne this
  -- the bytes of the heap are no matter for the clone
  have halike : mmu.Alike s' k''.spaces.state := ⟨ram', seed', by rw [hspaces', hspaces]; rfl⟩
  obtain ⟨⟨d', cloned'⟩, hclone', -⟩ :=
    mmu.clone_directory_mirrors halike 24 roomy_boot.orig_active_directory _ hclone
  have hcloned : t.clone 24 k'' = .ok (d', { k'' with spaces :=
      { k''.spaces with state := cloned', dirs := d' :: k''.spaces.dirs } }) := by
    unfold Tasks.directory at hparent
    unfold Tasks.clone
    dsimp only
    rw [hparent, hclone']
    rfl
  obtain ⟨answers, hanswers⟩ : ∃ answers : Answers, answers =
    { kmalloc := UInt64.ofNat block', directory := UInt64.ofNat d',
      physical := UInt64.ofNat (cloned'.directories d').physical, rsp := 0 } := ⟨_, rfl⟩
  have hblock : answers.kmalloc ≠ NULL := by rw [hanswers]; exact hnull
  obtain ⟨made, b, hcreate, -⟩ := sched.task_create.spec hgood.queue.current_ne hblock
  have hqueue : t.queue.step (.create answers) =
      .ok { t.queue with state := made, created := answers.kmalloc :: t.queue.created } := by
    unfold sched.World.step
    dsimp only
    rw [hcreate, ok_bind]
    dsimp only
    rw [if_neg hblock]
  have hstep : t.step (.create 24 0) = .ok
      { memory := { k'' with spaces :=
          { k''.spaces with state := cloned', dirs := d' :: k''.spaces.dirs } },
        queue := { t.queue with state := made, created := answers.kmalloc :: t.queue.created },
        cr3 := t.cr3 } := by
    unfold Tasks.step
    dsimp only
    rw [hcall', ok_bind]
    dsimp only
    rw [if_neg hne, hcloned, ok_bind]
    dsimp only
    rw [← hanswers, hqueue]
    rfl
  exact ⟨t, _, hstarts, hstep, List.cons_ne_nil answers.kmalloc t.queue.created⟩

/-- After the fork there are two tasks, with two directories, and the parent runs. -/
theorem each_task_has_an_address_space_of_its_own_after_a_fork : ∃ t t',
    Tasks.starts roomy_boot t ∧ t.step (.create 24 0) = .ok t' ∧ ∃ child ∈ t'.queue.made,
      child ≠ t'.queue.initial ∧ t'.directory child ≠ t'.directory t'.queue.initial ∧
      t'.memory.spaces.state.active_directory = t'.directory t'.queue.initial := by
  obtain ⟨t, t', hstarts, hstep, hcreated⟩ := roomy_boot_forks
  have hallowed : t.allowed (.create 24 0) := trivial
  obtain ⟨⟨-, hnodup, -⟩, hown, -, -, -, hactive⟩ :=
    each_task_has_an_address_space_of_its_own roomy_boot t' (.next (.start hstarts) hallowed hstep)
  obtain ⟨child, hchild⟩ := List.exists_mem_of_ne_nil _ hcreated
  have hmem : child ∈ t'.queue.made := List.mem_append_left _ hchild
  have hinitial : t'.queue.initial ∈ t'.queue.made :=
    List.mem_append_right _ (List.mem_singleton_self _)
  have hne : child ≠ t'.queue.initial := by
    rintro heq
    unfold sched.World.made at hnodup
    exact (List.nodup_append.mp hnodup).2.2 _ hchild _ (List.mem_singleton_self _) heq
  exact ⟨t, t', hstarts, hstep, child, hmem, hne,
    fun heq => hne (hown _ hmem _ hinitial heq), hactive⟩

end salsola.kernel
