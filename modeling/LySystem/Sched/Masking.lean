import LySystem.Sched.OwnStack
import LySystem.Sched.Starts
import LySystem.Sched.Wakeup

/-!
# Interrupts that stay off

The interrupt flag, along the `cli` and `sti` of the scheduler, the gates of the interrupts and
`switch_to`, which does not save it.  A task that comes back from `msleep` goes on with the flag of
the task that called `Schedule`: with interrupts off, unless that was in an `msleep` as well, and
then the timer is silent until the task calls the scheduler again.
-/

namespace Cpu

/-- The flag IF. -/
def enabled (c : Cpu) : Bool := c.rflags.getLsbD 9

end Cpu

namespace Sched

open TaskState Transition

/-- Where a task goes on that does not have the processor. -/
inductive Point where
  | thread_starter
  | child_return
  /-- The flag is that of the task when it was interrupted. -/
  | irq0_handler (enabled : Bool)
  /-- Behind the call of `Schedule` in one of the functions of the scheduler. -/
  | called

/-- Whether interrupts are on when a task goes on that was switched to with `enabled`: an `iretq`
takes the flag from the stack, `child_return` begins with `sti`, and a return keeps it. -/
def Point.resume (enabled : Bool) : Point → Bool
  | thread_starter => (0x202 : BitVec 64).getLsbD 9
  | child_return => true
  | irq0_handler saved => saved
  | called => enabled

/-! ### The flag in the assembly -/

theorem enabled_interrupt (c : Cpu) (cs target : BitVec 64) :
  (c.interrupt cs target).enabled = false
  := by
  rw [Cpu.interrupt, Cpu.enabled, BitVec.getLsbD_and, BitVec.getLsbD_not]
  simp

theorem enabled_switch_to (c : Cpu) :
  (c.run switch_to).enabled = Point.called.resume c.enabled
  := rfl

theorem Begun.enabled {task : BitVec 64} {kstack : ℕ} {d : Cpu} (h : Begun task kstack d) (b : Bool) :
  d.enabled = Point.thread_starter.resume b
  := by
  rw [Cpu.enabled, h.rflags]
  rfl

theorem Resumed.enabled {hi : ℕ} {c d : Cpu} (h : Resumed hi c d) (b : Bool) :
  d.enabled = (Point.irq0_handler c.enabled).resume b
  := by
  rw [Cpu.enabled, h.rflags]
  rfl

/-! ### The flag in the scheduler -/

/-- The scheduler and the timer, the flag, and where each task goes on. -/
structure Machine where
  timer : Timer
  enabled : Bool
  point : ℤ → Point

/-- The flag when an operation comes back that did not call `Schedule`. -/
def flagBack (enabled : Bool) : Op → Bool
  | .create (.CreateTask ..) => enabled
  | .create (.TaskFork _) => true
  | .KillTask _ pid => if pid ≤ 0 ∨ MAX_TASK_COUNT ≤ pid then enabled else true
  | .ExitTask .. => true -- of the idle task
  | .msleep .. => enabled
  | .Schedule _ => enabled

/-- The flag when an operation calls `Schedule`. -/
def flagCall (enabled : Bool) : Op → Bool
  | .KillTask .. => false
  | .ExitTask .. => false
  | .msleep .. => true
  | .Schedule _ => enabled
  | .create _ => enabled

/-- Where a new task starts. -/
def Creation.point : Creation → Point
  | .CreateTask .. => .thread_starter
  | .TaskFork _ => .child_return

namespace Machine

/-- After a call of `Schedule` with the flag `enabled`, from which the caller goes on at `own`. -/
def leave (s : Machine) (timer : Timer) (enabled : Bool) (own : Point) : Machine :=
  let point := Function.update s.point s.timer.sched.CurrentTaskPID own
  ⟨timer, (point timer.sched.CurrentTaskPID).resume enabled, point⟩

/-- Where the tasks go on when an operation has come back that did not call `Schedule`. -/
def points (K : Kernel) (s : Machine) : Op → ℤ → Point
  | .create c =>
      let id := (create K s.timer.sched c).1
      if id < 0 then s.point else Function.update s.point id c.point
  | _ => s.point

def perform (K : Kernel) (s : Machine) (e : Event) : Machine :=
  let timer := s.timer.perform K e
  match e with
  | .timer_callback _ => s.leave timer false (.irq0_handler s.enabled)
  | .call op =>
      match Schedule.call s.timer.sched op with
      | some _ => s.leave timer (flagCall s.enabled op) .called
      | none => ⟨timer, flagBack s.enabled op, s.points K op⟩

/-- The timer interrupts when interrupts are on; the functions that call `Schedule` are `msleep` and
those that end a task; and there is memory for the stacks. -/
def Possible (s : Machine) : Kernel × Event → Prop
  | (_, .timer_callback _) => s.enabled = true
  | (_, .call (.Schedule _)) => False
  | (K, .call op) => Supplied s.timer.sched (K, op)

def Step (s : Machine) (l : Kernel × Event) (t : Machine) : Prop :=
  s.Possible l ∧ t = s.perform l.1 l.2

/-- `sched_init` is called with interrupts on. -/
def start (s : Timer) : Machine :=
  ⟨{ s with sched := s.sched.sched_init }, true, fun _ => .thread_starter⟩

/-- The current task. -/
def current (s : Machine) : ℤ := s.timer.sched.CurrentTaskPID

/-- The task `p` has called `msleep`, and neither had the processor since nor was killed. -/
def OnLeave (s₀ : Machine) (ls : List (Kernel × Event)) (s : Machine) (p : ℤ) : Prop :=
  ∃ ls₁ a K rsp ms ls₂, ls = ls₁ ++ (K, .call (.msleep rsp ms)) :: ls₂ ∧ Run Step s₀ ls₁ a ∧
    a.current = p ∧ ms ≠ 0 ∧
    Run (Restrict Step fun s l => Apart p s.timer l) (a.perform K (.call (.msleep rsp ms))) ls₂ s ∧
    s.current ≠ p

/-- The current task does nothing for which the scheduler turns interrupts on. -/
def Quiet : Event → Prop
  | .call (.create (.CreateTask ..)) => True
  | .call (.KillTask _ pid) => pid ≤ 0 ∨ MAX_TASK_COUNT ≤ pid
  | .call (.msleep _ ms) => ms = 0
  | _ => False

/-- The current task came back from `msleep` when the timer interrupted another task, or another task
ended, and has been quiet since. -/
def Stranded (s₀ : Machine) (ls : List (Kernel × Event)) (s : Machine) : Prop :=
  ∃ ls₁ t l ls₂, ls = ls₁ ++ l :: ls₂ ∧ Run Step s₀ ls₁ t ∧ OnLeave s₀ ls₁ t s.current ∧
    t.Possible l ∧ (∀ rsp ms, l.2 ≠ .call (.msleep rsp ms)) ∧
    (t.perform l.1 l.2).current = s.current ∧
    Run (Restrict Step fun _ l => Quiet l.2) (t.perform l.1 l.2) ls₂ s

end Machine

end Sched
