-- task.c: the run queue of the kernel. The tasks are a list behind
-- `task_head`, and a switch goes to the task behind the current one.
import Mathlib.Logic.Function.Basic
import Salsola.Machine

namespace salsola.sched

/-- What the assembly code saves of a task that does not run. -/
structure tcb where
  rsp : UInt64
  cr3 : UInt64
  rsp0 : UInt64
deriving DecidableEq, Repr

structure task where
  tcb : tcb
  directory : UInt64
  next : UInt64
deriving DecidableEq, Repr

def NULL : UInt64 := 0

/-- The tasks at their addresses, and the variables of task.c. -/
structure State where
  tasks : UInt64 → task
  task_head : UInt64
  task_current : UInt64

/-- A store to the task at `p`. -/
def State.store (s : State) (p : UInt64) (t : task) : State :=
  { s with tasks := Function.update s.tasks p t }

/-- What the calls inside a `task_create` answer: the block that `kmalloc` gives, the directory
that `mmu_clone_directory` makes with its physical address, and the stack pointer that
`weird_switch2` has while it runs in the copy. -/
structure Answers where
  kmalloc : UInt64
  directory : UInt64
  physical : UInt64
  rsp : UInt64
deriving DecidableEq, Repr

/-- The registers that `switch_to_task` saves in the tcb. -/
structure Saved where
  rsp : UInt64
  cr3 : UInt64
deriving DecidableEq, Repr

/-- `kmalloc` and `mmu_get_active_directory` give `block` and `directory`. -/
def task_init (s : State) (block directory : UInt64) : State × Bool :=
  let s := { s with task_head := block }
  if s.task_head = NULL then (s, false)
  else
    let s := s.store s.task_head { s.tasks s.task_head with next := NULL }
    let s := s.store s.task_head { s.tasks s.task_head with directory := directory }
    let s := { s with task_current := s.task_head }
    (s, true)

def task_create_directory (s : State) (task : UInt64) (a : Answers) : State :=
  let s := s.store task { s.tasks task with directory := a.directory }
  s.store task { s.tasks task with tcb := { (s.tasks task).tcb with cr3 := a.physical } }

/-- What `weird_switch` of task_switch.s does to the tasks, and its result for the parent. -/
def weird_switch (s : State) (task : UInt64) (a : Answers) : State × Bool :=
  let s := task_create_directory s task a
  (s.store task { s.tasks task with tcb := { (s.tasks task).tcb with rsp := a.rsp } }, false)

def task_create (s : State) (a : Answers) : Result (State × Bool) := do
  let parent := s.task_current
  assert (parent ≠ NULL)
  let task := a.kmalloc
  if task = NULL then .ok (s, false)
  else
    let s := s.store task { s.tasks task with next := s.task_head }
    let s := { s with task_head := task }
    .ok (weird_switch s task a)

/-- What `switch_to_task` of task_switch.s does to the tasks. -/
def switch_to_task (s : State) (old : UInt64) (cpu : Saved) : State :=
  let s := s.store old { s.tasks old with tcb := { (s.tasks old).tcb with rsp := cpu.rsp } }
  s.store old { s.tasks old with tcb := { (s.tasks old).tcb with cr3 := cpu.cr3 } }

def task_switch (s : State) (task : UInt64) (cpu : Saved) : State :=
  let old := s.task_current
  let s := { s with task_current := task }
  switch_to_task s old cpu

def task_next (s : State) (task : UInt64) : UInt64 :=
  let task := (s.tasks task).next
  if task = NULL then s.task_head else task

def task_legacy_switch (s : State) (cpu : Saved) : State :=
  let new_task := task_next s s.task_current
  task_switch s new_task cpu

def task_fork (s : State) (a : Answers) : Result (State × Bool) := task_create s a

end salsola.sched
