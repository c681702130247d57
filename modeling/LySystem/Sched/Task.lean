import LySystem.Lib.Libc
import LySystem.Mem.Heap

/-!
# Tasks

`kernel/sched/task.c` and `msleep` of `kernel/IRQ/timer.c`: the task table, the creation
and the end of tasks, and the scheduler.  The table is indexed by C's `int`, so a negative
index is expressible.
-/

namespace Sched

def MAX_TASK_COUNT : ℕ := 128

def MAX_TASK_NAME : ℕ := 32

inductive TaskState where
  | TASK_EMPTY
  | TASK_RUNNING
  | TASK_WAITING
  | TASK_BLOCKED
  | TASK_SLEEPING
  | TASK_ZOMBIE
deriving DecidableEq, Repr

open TaskState

structure Task where
  pid : ℤ
  ppid : ℤ
  name : Memory
  state : TaskState
  priority : ℤ
  ExitCode : ℤ
  rsp : ℕ
  kstack : ℕ
  msleep : ℕ

/-- A task whose bytes are all zero. -/
def Task.zero : Task := ⟨0, 0, fun _ => 0, TASK_EMPTY, 0, 0, 0, 0, 0⟩

end Sched

open Sched

/-- The variables of the scheduler, and the memory that holds the stacks. -/
structure Sched where
  TaskTable : ℤ → Task
  TaskCount : ℤ
  CurrentTaskPID : ℤ
  scheduler_started : Bool
  mem : Memory

namespace Sched

open TaskState

/-- What the scheduler uses of the rest of the kernel: the heap, and the addresses of two
labels of its code. -/
structure Kernel where
  kmalloc : Memory → ℕ → ℕ × Memory
  kfree : Memory → ℕ → Memory
  thread_starter : ℕ
  child_return : ℕ

/-- The kernel with the heap at `heap_start`, whose walks take at most `n` rounds. -/
def heapKernel (n heap_start thread_starter child_return : ℕ) : Kernel where
  kmalloc m request := (Heap.kmalloc n m heap_start request).getD (0, m)
  kfree m ptr := (Heap.kfree n m heap_start ptr).getD m
  thread_starter := thread_starter
  child_return := child_return

/-- The entry `i` of the table changed by `f`. -/
def edit (s : Sched) (i : ℤ) (f : Task → Task) : Sched :=
  { s with TaskTable := Function.update s.TaskTable i (f (s.TaskTable i)) }

def sched_init (s : Sched) : Sched :=
  let s := { s with TaskTable := fun i =>
    if 0 ≤ i ∧ i < MAX_TASK_COUNT then Task.zero else s.TaskTable i }
  let s := s.edit 0 fun t =>
    { t with
      pid := 0
      state := TASK_RUNNING
      name := CString.strncpy t.name (CString.literal "kernel_idle") MAX_TASK_NAME
      priority := 0
      kstack := 0 }
  { s with CurrentTaskPID := 0, TaskCount := 1, scheduler_started := true }

/-! ### Creation -/

/-- The first empty entry of the table. -/
def emptySlot (s : Sched) : Option ℕ :=
  Loop.firstSome (fun i => if (s.TaskTable i).state = TASK_EMPTY then some i else none) 0
    MAX_TASK_COUNT

/-- The words stored one after the other below the stack pointer: `*--stack_ptr = w`. -/
def push (words : List ℕ) (s : ℕ × Memory) : ℕ × Memory :=
  words.foldl (fun s w => (sub64 s.1 8, s.2.store (sub64 s.1 8) 8 w)) s

/-- The value returned and the state afterwards. -/
def CreateTask (K : Kernel) (s : Sched) (name : Memory) (task : ℕ) (ppid : ℤ) : ℤ × Sched :=
  if MAX_TASK_COUNT ≤ s.TaskCount then (-1, s)
  else
    match s.emptySlot with
    | none => (-1, s)
    | some id =>
        let s := s.edit id fun t =>
          { t with
            pid := id
            ppid := ppid
            state := TASK_WAITING
            priority := 1
            name := CString.strncpy t.name name (MAX_TASK_NAME - 1) }
        let (kstack, mem) := K.kmalloc s.mem 4096
        let s := { s.edit id fun t => { t with kstack := kstack } with mem := mem }
        if kstack = 0 then (-ENOMEM, s)
        else
          let top := u64 (kstack + 4096)
          -- The second word is the pointer it is stored at, plus 8.
          let (stack_ptr, mem) := push
            [0x10, u64 (sub64 top 16 + 8), 0x202, 0x08, task, K.thread_starter, 0, 0, 0, 0, 0, 0]
            (top, s.mem)
          let s := { s.edit id fun t => { t with rsp := stack_ptr } with mem := mem }
          (id, { s with TaskCount := s.TaskCount + 1 })

/-- `current_rsp` is the stack pointer of the caller. -/
def TaskFork (K : Kernel) (s : Sched) (current_rsp : ℕ) : ℤ × Sched :=
  match s.emptySlot with
  | none => (-1, s)
  | some id =>
      let s := s.edit id fun t => { t with pid := id }
      let parent := s.TaskTable s.CurrentTaskPID
      let s := s.edit id fun t =>
        { t with
          ppid := parent.pid
          state := TASK_WAITING
          priority := parent.priority
          name := CString.strncpy t.name parent.name (MAX_TASK_NAME - 1) }
      let (kstack, mem) := K.kmalloc s.mem 4096
      let s := { s.edit id fun t => { t with kstack := kstack } with mem := mem }
      if kstack = 0 then (-ENOMEM, s)
      else
        let parent_kstack := (s.TaskTable s.CurrentTaskPID).kstack
        let mem := s.mem.copy kstack (s.mem.drop parent_kstack) 4096
        let offset := sub64 kstack parent_kstack
        let child_rsp_val := u64 (current_rsp + offset)
        let (sp, mem) := push [K.child_return, 0, 0, 0, 0, 0, 0] (child_rsp_val, mem)
        let s := { s.edit id fun t => { t with rsp := sp } with mem := mem }
        (id, { s with TaskCount := s.TaskCount + 1 })

/-! ### The scheduler -/

/-- What a round of the first loop of `Schedule` makes of a sleeper. -/
def Schedule.wake (t : Task) : Task :=
  let t := if 0 < t.msleep then { t with msleep := t.msleep - 1 } else t
  if t.msleep = 0 then { t with state := TASK_WAITING } else t

/-- One round of the first loop of `Schedule`: a zombie is reaped, a sleeper counts down. -/
def Schedule.settle (K : Kernel) (s : Sched) (i : ℕ) : Sched :=
  let t := s.TaskTable i
  if 0 < i ∧ t.state = TASK_ZOMBIE then
    let mem := if t.kstack ≠ 0 then K.kfree s.mem t.kstack else s.mem
    { s.edit i fun _ => Task.zero with TaskCount := s.TaskCount - 1, mem := mem }
  else if t.state = TASK_SLEEPING then s.edit i Schedule.wake
  else s

/-- The highest priority of a waiting task, -1 when none is waiting. -/
def Schedule.max_priority (s : Sched) : ℤ :=
  (List.range MAX_TASK_COUNT).foldl
    (fun m i =>
      let t := s.TaskTable i
      if t.state = TASK_WAITING ∧ m < t.priority then t.priority else m)
    (-1)

/-- The first waiting task of the highest priority, searched from the one after the current
task on, -1 when there is none. -/
def Schedule.next_pid (s : Sched) : ℤ :=
  let max_priority := Schedule.max_priority s
  if max_priority ≠ -1 then
    let candidate (i : ℕ) : Option ℤ :=
      let idx := (s.CurrentTaskPID + i).tmod MAX_TASK_COUNT
      let t := s.TaskTable idx
      if t.state = TASK_WAITING ∧ t.priority = max_priority then some idx else none
    (Loop.firstSome candidate 1 MAX_TASK_COUNT).getD (-1)
  else -1

/-- The switch from the current task to `next_pid`; `rsp` is the stack pointer `switch_to`
saves. -/
def Schedule.switch (s : Sched) (rsp : ℕ) (next_pid : ℤ) : Sched × Option ℕ :=
  if next_pid = s.CurrentTaskPID then (s, none)
  else
    let prev := s.CurrentTaskPID
    let s := s.edit prev fun t =>
      if t.state = TASK_RUNNING then { t with state := TASK_WAITING } else t
    let s := s.edit next_pid fun t => { t with state := TASK_RUNNING }
    let s := { s with CurrentTaskPID := next_pid }
    let s := s.edit prev fun t => { t with rsp := rsp }
    (s, some (s.TaskTable next_pid).rsp)

/-- The state after `Schedule`, and the stack pointer `switch_to` loads when it is called. -/
def Schedule (K : Kernel) (s : Sched) (rsp : ℕ) : Sched × Option ℕ :=
  if s.scheduler_started = false then (s, none)
  else
    let s := (List.range MAX_TASK_COUNT).foldl (Schedule.settle K) s
    let next_pid := Schedule.next_pid s
    if next_pid = -1 then
      if (s.TaskTable s.CurrentTaskPID).state = TASK_RUNNING then (s, none)
      else Schedule.switch s rsp 0
    else Schedule.switch s rsp next_pid

/-! ### The end of a task -/

/-- The value returned, `none` when the function does not return to its caller, and the
state when it returns or gives up the processor. -/
def ExitTask (K : Kernel) (s : Sched) (rsp : ℕ) (ExitCode : ℤ) : Option ℤ × Sched :=
  if s.CurrentTaskPID = 0 then (some (-EACCES), s)
  else
    let s := s.edit s.CurrentTaskPID fun t =>
      { t with state := TASK_ZOMBIE, ExitCode := ExitCode }
    (none, (Schedule K s rsp).1)

@[inherit_doc ExitTask]
def KillTask (K : Kernel) (s : Sched) (rsp : ℕ) (pid : ℤ) : Option ℤ × Sched :=
  if pid ≤ 0 ∨ MAX_TASK_COUNT ≤ pid then (some (-EACCES), s)
  else if (s.TaskTable pid).state = TASK_EMPTY then (some (-ESRCH), s)
  else
    let kill (s : Sched) : Sched :=
      s.edit pid fun t => { t with state := TASK_ZOMBIE, ExitCode := -1 }
    if pid = s.CurrentTaskPID then
      match ExitTask K s rsp (-1) with
      | (none, s) => (none, s)
      | (some _, s) => (some 0, kill s)
    else (some 0, kill s)

/-! ### Sleeping -/

def msleep (K : Kernel) (s : Sched) (rsp ms : ℕ) : Sched :=
  if ms = 0 then s
  else
    let s := s.edit s.CurrentTaskPID fun t =>
      { t with msleep := ms / 10, state := TASK_SLEEPING }
    (Schedule K s rsp).1

end Sched
