import LySystem.Sched.Task
import Mathlib.Tactic.Use

/-!
# The creation of tasks

What `CreateTask` and `TaskFork` do to the table.  Both fill the first empty entry, and both
fill it before they know whether there is a stack for the task.
-/

namespace Sched

open TaskState

/-! ### Entries -/

section

variable (s : Sched) (i j : ℤ) (f g : Task → Task)

@[simp]
theorem edit_TaskTable :
  (s.edit i f).TaskTable = Function.update s.TaskTable i (f (s.TaskTable i))
  := rfl

@[simp]
theorem edit_CurrentTaskPID :
  (s.edit i f).CurrentTaskPID = s.CurrentTaskPID
  := rfl

@[simp]
theorem edit_TaskCount :
  (s.edit i f).TaskCount = s.TaskCount
  := rfl

@[simp]
theorem edit_scheduler_started :
  (s.edit i f).scheduler_started = s.scheduler_started
  := rfl

@[simp]
theorem edit_mem :
  (s.edit i f).mem = s.mem
  := rfl

end

theorem emptySlot_eq_some {s : Sched} {id : ℕ} (h : s.emptySlot = some id) :
  id < MAX_TASK_COUNT ∧ (s.TaskTable id).state = TASK_EMPTY
  := by
  obtain ⟨i, -, hlt, hi, -⟩ := Loop.firstSome_eq_some.mp h
  split_ifs at hi with hstate
  obtain rfl := Option.some.inj hi
  rw [Nat.zero_add] at hlt
  use hlt, hstate

theorem emptySlot_eq_none {s : Sched} :
  s.emptySlot = none ↔ ∀ i < MAX_TASK_COUNT, (s.TaskTable i).state ≠ TASK_EMPTY
  := by
  rw [emptySlot, Loop.firstSome_eq_none]
  constructor
  · intro h i hi hstate
    have := h i (Nat.zero_le i) (by omega)
    rw [if_pos hstate] at this
    cases this
  · intro h i _ hi
    apply if_neg
    apply h i (by omega)

/-! ### The two calls -/

/-- A call that creates a task: the arguments of `CreateTask`, or the stack pointer of the
caller of `TaskFork`. -/
inductive Creation where
  | CreateTask (name : Memory) (task : ℕ) (ppid : ℤ)
  | TaskFork (current_rsp : ℕ)

def create (K : Kernel) (s : Sched) : Creation → ℤ × Sched
  | .CreateTask name task ppid => CreateTask K s name task ppid
  | .TaskFork current_rsp => TaskFork K s current_rsp

/-- The call is refused before anything is written. -/
def Refused (s : Sched) : Creation → Prop
  | .CreateTask .. => MAX_TASK_COUNT ≤ s.TaskCount ∨ s.emptySlot = none
  | .TaskFork _ => s.emptySlot = none

/-- The first empty entry `id` has been filled by a waiting task; nothing else has changed
in the table. -/
structure Filled (s s' : Sched) (id : ℕ) : Prop where
  slot : s.emptySlot = some id
  table : ∀ j : ℤ, j ≠ id → s'.TaskTable j = s.TaskTable j
  pid : (s'.TaskTable id).pid = id
  state : (s'.TaskTable id).state = TASK_WAITING
  current : s'.CurrentTaskPID = s.CurrentTaskPID
  started : s'.scheduler_started = s.scheduler_started

theorem create_refused {K : Kernel} {s : Sched} {c : Creation} (h : Refused s c) :
  create K s c = (-1, s)
  := by
  cases c with
  | CreateTask name task ppid =>
      rw [create, CreateTask]
      split_ifs with hfull
      · rfl
      · rw [h.resolve_left hfull]
  | TaskFork current_rsp =>
      rw [create, TaskFork, h]

/-- The entry is filled whether there is a stack or not. -/
theorem create_filled {K : Kernel} {s : Sched} {c : Creation} (h : ¬ Refused s c) :
  ∃ id, Filled s (create K s c).2 id ∧
    ((create K s c).2.TaskTable id).kstack = (K.kmalloc s.mem 4096).1
  := by
  cases c with
  | CreateTask name task ppid =>
      obtain ⟨hroom, hslot⟩ := not_or.mp h
      obtain ⟨id, hid⟩ := Option.ne_none_iff_exists'.mp hslot
      use id
      rw [create, CreateTask, if_neg hroom, hid]
      dsimp only
      split_ifs
      all_goals
        refine ⟨⟨hid, ?_, ?_, ?_, rfl, rfl⟩, ?_⟩
        · intro j hj
          simp [Function.update_of_ne hj]
        all_goals simp
  | TaskFork current_rsp =>
      obtain ⟨id, hid⟩ := Option.ne_none_iff_exists'.mp h
      use id
      rw [create, TaskFork, hid]
      dsimp only
      split_ifs
      all_goals
        refine ⟨⟨hid, ?_, ?_, ?_, rfl, rfl⟩, ?_⟩
        · intro j hj
          simp [Function.update_of_ne hj]
        all_goals simp

/-- The value returned and the counter tell whether there was a stack. -/
theorem create_outcome {K : Kernel} {s : Sched} {c : Creation} (h : ¬ Refused s c) :
  ((K.kmalloc s.mem 4096).1 = 0 ∧ (create K s c).1 = -ENOMEM ∧
      (create K s c).2.TaskCount = s.TaskCount) ∨
    ((K.kmalloc s.mem 4096).1 ≠ 0 ∧ 0 ≤ (create K s c).1 ∧
      (create K s c).2.TaskCount = s.TaskCount + 1)
  := by
  cases c with
  | CreateTask name task ppid =>
      obtain ⟨hroom, hslot⟩ := not_or.mp h
      obtain ⟨id, hid⟩ := Option.ne_none_iff_exists'.mp hslot
      rw [create, CreateTask, if_neg hroom, hid]
      dsimp only
      split_ifs with hk
      · left
        exact ⟨hk, rfl, rfl⟩
      · right
        exact ⟨hk, Int.natCast_nonneg id, rfl⟩
  | TaskFork current_rsp =>
      obtain ⟨id, hid⟩ := Option.ne_none_iff_exists'.mp h
      rw [create, TaskFork, hid]
      dsimp only
      split_ifs with hk
      · left
        exact ⟨hk, rfl, rfl⟩
      · right
        exact ⟨hk, Int.natCast_nonneg id, rfl⟩

theorem create_fst {K : Kernel} {s : Sched} {c : Creation} (h : ¬ Refused s c) :
  (create K s c).1 < 0 ↔ (K.kmalloc s.mem 4096).1 = 0
  := by
  rcases create_outcome (K := K) h with ⟨hk, hret, -⟩ | ⟨hk, hret, -⟩
  · rw [hret]
    exact iff_of_true (by decide) hk
  · exact iff_of_false (not_lt.mpr hret) hk

/-- A task created has priority 1, or that of the task that forks. -/
theorem create_priority {K : Kernel} {s : Sched} {c : Creation} {id : ℕ}
    (h : Filled s (create K s c).2 id) :
  ((create K s c).2.TaskTable id).priority = 1 ∨
    ((create K s c).2.TaskTable id).priority = (s.TaskTable s.CurrentTaskPID).priority
  := by
  have hstate := h.state
  have hempty := (emptySlot_eq_some h.slot).2
  cases c with
  | CreateTask name task ppid =>
      left
      rw [create, CreateTask] at hstate ⊢
      by_cases hroom : MAX_TASK_COUNT ≤ s.TaskCount
      · rw [if_pos hroom, hempty] at hstate
        cases hstate
      · rw [if_neg hroom, h.slot]
        dsimp only
        split_ifs <;> simp
  | TaskFork current_rsp =>
      right
      rw [create, TaskFork, h.slot]
      dsimp only
      split_ifs
      all_goals
        by_cases hcur : s.CurrentTaskPID = id
        · simp [hcur]
        · simp [Function.update_of_ne hcur]

end Sched
