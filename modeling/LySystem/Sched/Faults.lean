import LySystem.Sched.OwnStack
import LySystem.Sched.Sleep

/-!
# Faults

The handlers of the exceptions in `kernel/IRQ/traps.c`: a fault of the idle task is a panic, and
that of another one ends the task.  A task that has ended does not run again before its entry is
given to another one.
-/

namespace Sched

open TaskState Transition

/-- The exceptions that have a handler. -/
inductive Fault where
  | divide_by_zero
  | general_protection
  | page

def divide_by_zero_handler (K : Kernel) (s : Sched) (rsp : ℕ) : Except String Sched :=
  if s.CurrentTaskPID = 0 then .error "Divide By Zero in idle thread."
  else .ok (ExitTask K s rsp (-1)).2

/-- What both handlers do that kill the task: `Schedule` comes after `KillTask` if that returns. -/
def kill_current (K : Kernel) (s : Sched) (rsp : ℕ) (message : String) : Except String Sched :=
  if s.CurrentTaskPID = 0 then .error message
  else
    match KillTask K s rsp s.CurrentTaskPID with
    | (none, s) => .ok s
    | (some _, s) => .ok (Schedule K s rsp).1

def general_protection_handler (K : Kernel) (s : Sched) (rsp : ℕ) : Except String Sched :=
  kill_current K s rsp "General Protection Fault in idle thread."

def page_handler (K : Kernel) (s : Sched) (rsp : ℕ) : Except String Sched :=
  kill_current K s rsp "Page Fault in idle thread."

def Fault.handle (K : Kernel) (s : Sched) (rsp : ℕ) : Fault → Except String Sched
  | divide_by_zero => divide_by_zero_handler K s rsp
  | general_protection => general_protection_handler K s rsp
  | page => page_handler K s rsp

/-- An operation, or a fault of the current task. -/
inductive Action where
  | op (o : Op)
  | fault (f : Fault) (rsp : ℕ)

def Action.perform (K : Kernel) (s : Sched) : Action → Except String Sched
  | op o => .ok (Sched.perform K s o)
  | fault f rsp => f.handle K s rsp

/-- Nothing happens behind a panic. -/
def ActionStep (s : Sched) (l : Kernel × Action) (t : Sched) : Prop :=
  l.2.perform l.1 s = .ok t

variable {K : Kernel} {s t : Sched} {i : ℤ}

/-! ### The end of a task -/

/-- The current task is marked and gives up the processor. -/
def give_up (K : Kernel) (s : Sched) (rsp : ℕ) : Sched :=
  (Schedule K (s.edit s.CurrentTaskPID fun t => { t with state := TASK_ZOMBIE, ExitCode := -1 })
    rsp).1

/-- A fault of the idle task is a panic, and every other one ends the task. -/
theorem handle_eq (h : Valid s) (K : Kernel) (rsp : ℕ) (f : Fault) :
  if s.CurrentTaskPID = 0 then ∃ message, f.handle K s rsp = .error message
  else f.handle K s rsp = .ok (give_up K s rsp)
  := by
  split_ifs with hzero
  · cases f with
    | divide_by_zero => exact ⟨_, if_pos hzero⟩
    | general_protection => exact ⟨_, if_pos hzero⟩
    | page => exact ⟨_, if_pos hzero⟩
  · have hexit : (ExitTask K s rsp (-1)).2 = give_up K s rsp := by
      rw [ExitTask, if_neg hzero]
      rfl
    have hkill : ∀ message, kill_current K s rsp message = .ok (give_up K s rsp) := by
      intro message
      obtain ⟨hlow, hhigh⟩ := h.current
      rw [kill_current, if_neg hzero, KillTask, if_neg (by omega), if_neg h.occupied]
      dsimp only
      rw [if_pos rfl, ExitTask, if_neg hzero]
      rfl
    cases f with
    | divide_by_zero =>
        rw [Fault.handle, divide_by_zero_handler, if_neg hzero, hexit]
    | general_protection => exact hkill _
    | page => exact hkill _

/-- The task has ended, and the processor is not with it. -/
def Ended (i : ℤ) (s : Sched) : Prop := i ≠ s.CurrentTaskPID ∧ Dead (s.TaskTable i)

/-- `Schedule` does not go to a dead entry, and leaves it if it is the current one. -/
theorem Dead.schedule_ended (h : Consistent s) (K : Kernel) (rsp : ℕ) (hi : Index i) (hzero : i ≠ 0)
    (hdead : Dead (s.TaskTable i)) :
  Ended i (Schedule K s rsp).1
  := by
  have hne : i ≠ (Schedule K s rsp).1.CurrentTaskPID := by
    have hs := h.settle K
    have hpos : 0 < i := lt_of_le_of_ne hi.1 hzero.symm
    have hentry := settle_entry K s hi
    have hempty : (Schedule.settled i (s.TaskTable i)).state = TASK_EMPTY := by
      rw [Schedule.settled]
      rcases hdead with hdead | hdead
      · simp [hdead]
      · simp [hdead, hpos, Task.zero]
    rw [Schedule, if_neg (by simp [h.started])]
    dsimp only
    generalize (List.range MAX_TASK_COUNT).foldl (Schedule.settle K) s = s' at hs hentry
    rw [← hentry] at hempty
    split_ifs with hnone hrun
    · rintro rfl
      rw [hempty] at hrun
      cases hrun
    · rw [switch_CurrentTaskPID]
      exact hzero
    · rw [switch_CurrentTaskPID]
      rintro rfl
      have hwaiting := ((next_pid_eq hs.current).resolve_left hnone).2
      rw [hempty] at hwaiting
      cases hwaiting
  exact ⟨hne, hdead.schedule h K rsp hi hzero hne⟩

theorem consistent_marked (h : Valid s) (hzero : s.CurrentTaskPID ≠ 0) {f : Task → Task}
    (hf : ∀ t, (f t).pid = t.pid ∧ (f t).kstack = t.kstack)
    (hstate : ∀ t, (f t).state = TASK_ZOMBIE) :
  Consistent (s.edit s.CurrentTaskPID f)
  := h.toConsistent.edit TASK_ZOMBIE hstate (edit_kept hf h.occupied) (by simp)
    fun heq => absurd heq hzero

/-- Marking itself is the end of a task. -/
theorem give_up_ended (h : Valid s) (hzero : s.CurrentTaskPID ≠ 0) (K : Kernel) (rsp : ℕ) :
  Valid (give_up K s rsp) ∧ Ended s.CurrentTaskPID (give_up K s rsp)
  := by
  have hmarked := consistent_marked h hzero
    (f := fun t => { t with state := TASK_ZOMBIE, ExitCode := -1 }) (fun _ => ⟨rfl, rfl⟩)
    fun _ => rfl
  refine ⟨(hmarked.schedule K rsp).1, ?_⟩
  apply Dead.schedule_ended hmarked K rsp h.current hzero
  right
  simp

/-! ### What has ended -/

theorem Ended.give_up (h : Ended i s) (hvalid : Valid s) (hi : Index i) (hzero : i ≠ 0)
    (hidle : s.CurrentTaskPID ≠ 0) (rsp : ℕ) :
  Ended i (give_up K s rsp)
  := by
  have hmarked := consistent_marked hvalid hidle
    (f := fun t => { t with state := TASK_ZOMBIE, ExitCode := -1 }) (fun _ => ⟨rfl, rfl⟩)
    fun _ => rfl
  apply Dead.schedule_ended hmarked K rsp hi hzero
  rw [edit_TaskTable, Function.update_of_ne h.1]
  exact h.2

/-- No task is created in the entry. -/
def Untaken (i : ℤ) (s : Sched) (l : Kernel × Action) : Prop :=
  ∀ c, l.2 = .op (.create c) → ¬ Refused s c → ∀ id, s.emptySlot = some id → (id : ℤ) ≠ i

/-- An operation leaves what has ended as it is. -/
theorem Ended.perform (h : Ended i s) (hvalid : Valid s) (hi : Index i) (hzero : i ≠ 0) {o : Op}
    (huntaken : Untaken i s (K, .op o)) :
  Ended i (perform K s o)
  := by
  by_cases hcreate : ∃ c, o = .create c
  · obtain ⟨c, rfl⟩ := hcreate
    by_cases hrefused : Refused s c
    · rw [Sched.perform, create_refused hrefused]
      exact h
    · obtain ⟨id, hfilled, -⟩ := create_filled (K := K) hrefused
      have hne := huntaken c rfl hrefused id hfilled.slot
      rw [Sched.perform, Ended, hfilled.current, hfilled.table i (Ne.symm hne)]
      exact h
  · cases hcall : Schedule.call s o with
    | none =>
        rcases perform_uncalled K hcall (not_exists.mp hcreate) with
          heq | ⟨-, pid, -, -, -, -, heq⟩
        · rw [heq]
          exact h
        · rw [heq]
          refine ⟨h.1, ?_⟩
          by_cases hpid : i = pid
          · right
            rw [hpid, edit_TaskTable, Function.update_self]
          · rw [edit_TaskTable, Function.update_of_ne hpid]
            exact h.2
    | some r =>
        obtain ⟨s', rsp⟩ := r
        rw [perform_call K hcall]
        apply Dead.schedule_ended (hvalid.call hcall).1 K rsp hi hzero
        rcases call_eq hcall with rfl | ⟨f, rfl, -⟩
        · exact h.2
        · rw [edit_TaskTable, Function.update_of_ne h.1]
          exact h.2

/-- So does a fault. -/
theorem Ended.step (h : Ended i s) (hvalid : Valid s) (hi : Index i) (hzero : i ≠ 0)
    {l : Kernel × Action} (huntaken : Untaken i s l) (hstep : ActionStep s l t) :
  Ended i t
  := by
  obtain ⟨K, o | ⟨f, rsp⟩⟩ := l
  · obtain rfl := Except.ok.inj hstep
    exact h.perform hvalid hi hzero huntaken
  · have hhandle := handle_eq hvalid K rsp f
    rw [ActionStep, Action.perform] at hstep
    split_ifs at hhandle with hidle
    · obtain ⟨message, hpanic⟩ := hhandle
      rw [hpanic] at hstep
      cases hstep
    · rw [hhandle] at hstep
      obtain rfl := Except.ok.inj hstep
      exact h.give_up hvalid hi hzero hidle rsp

/-- Operations and faults keep the table valid. -/
theorem Valid.actionStep (h : Valid s) {l : Kernel × Action} (hstep : ActionStep s l t) :
  Valid t
  := by
  obtain ⟨K, o | ⟨f, rsp⟩⟩ := l
  · obtain rfl := Except.ok.inj hstep
    exact (h.perform K o).1
  · have hhandle := handle_eq h K rsp f
    rw [ActionStep, Action.perform] at hstep
    split_ifs at hhandle with hidle
    · obtain ⟨message, hpanic⟩ := hhandle
      rw [hpanic] at hstep
      cases hstep
    · rw [hhandle] at hstep
      obtain rfl := Except.ok.inj hstep
      exact (give_up_ended h hidle K rsp).1

/-! ### Runs -/

/-- A heap with a single page, which is given again and again. -/
def onePageKernel : Kernel := ⟨fun m _ => (0x1000, m), fun m _ => m, 0, 0⟩

theorem sched_init_reaches_valid {s₀ : Sched} {ls : List (Kernel × Action)}
    (h : Run ActionStep s₀.sched_init ls s) :
  Valid s
  := h.invariant (I := Valid) (fun _ _ _ hs hstep => hs.actionStep hstep) (sched_init_valid s₀)

/-- What ends the task in entry `i`: it exits, another task kills it, or it faults. -/
def Ends (i : ℤ) (s : Sched) : Action → Prop
  | .op (.ExitTask _ _) => s.CurrentTaskPID = i
  | .op (.KillTask _ pid) => pid = i ∧ (s.TaskTable i).state ≠ TASK_EMPTY
  | .op _ => False
  | .fault _ _ => s.CurrentTaskPID = i

/-- What ends a task leaves it ended, and without a panic. -/
theorem Valid.ends (h : Valid s) (hi : Index i) (hzero : i ≠ 0) (K : Kernel) {a : Action}
    (hends : Ends i s a) :
  ∃ t, ActionStep s (K, a) t ∧ Ended i t
  := by
  cases a with
  | fault f rsp =>
      obtain rfl : s.CurrentTaskPID = i := hends
      have hhandle := handle_eq h K rsp f
      rw [if_neg hzero] at hhandle
      exact ⟨_, hhandle, (give_up_ended h hzero K rsp).2⟩
  | op o =>
      refine ⟨_, rfl, ?_⟩
      have hpos : 0 < i := lt_of_le_of_ne hi.1 hzero.symm
      cases o with
      | ExitTask rsp ExitCode =>
          obtain rfl : s.CurrentTaskPID = i := hends
          have hmarked := consistent_marked h hzero
            (f := fun t => { t with state := TASK_ZOMBIE, ExitCode := ExitCode })
            (fun _ => ⟨rfl, rfl⟩) fun _ => rfl
          rw [Sched.perform, ExitTask, if_neg hzero]
          apply Dead.schedule_ended hmarked K rsp hi hzero
          right
          simp
      | KillTask rsp pid =>
          obtain ⟨rfl, hused⟩ := hends
          have hlt := hi.2
          by_cases hcur : pid = s.CurrentTaskPID
          · have hcall : Schedule.call s (.KillTask rsp pid) = some (s.edit s.CurrentTaskPID fun t =>
                { t with state := TASK_ZOMBIE, ExitCode := -1 }, rsp) :=
              if_pos ⟨hpos, hlt, hused, hcur⟩
            rw [perform_call K hcall, hcur]
            exact (give_up_ended h (hcur ▸ hzero) K rsp).2
          · obtain ⟨hcurrent, hdead, -⟩ := killTask_other K rsp hi hzero hcur
            refine ⟨?_, hdead⟩
            rw [hcurrent]
            exact hcur
      | create c => exact absurd hends id
      | msleep rsp ms => exact absurd hends id
      | Schedule rsp => exact absurd hends id

/-- A task that exits, is killed or faults does so without a panic, and never has the processor
again, whatever happens, until a task is created in its entry. -/
theorem ended_never_runs {s₀ : Sched} {ls : List (Kernel × Action)}
    (h : Run ActionStep s₀.sched_init ls s) (hi : Index i) (hzero : i ≠ 0) (K : Kernel) {a : Action}
    (hends : Ends i s a) :
  ∃ t, ActionStep s (K, a) t ∧ ∀ ls' u,
    Run (fun s l t => Untaken i s l ∧ ActionStep s l t) t ls' u → u.CurrentTaskPID ≠ i
  := by
  have hvalid := sched_init_reaches_valid h
  obtain ⟨t, hstep, hended⟩ := hvalid.ends hi hzero K hends
  refine ⟨t, hstep, ?_⟩
  intro ls' u hrun
  have hlast := hrun.invariant (I := fun s => Valid s ∧ Ended i s) ?_
    ⟨hvalid.actionStep hstep, hended⟩
  · exact Ne.symm hlast.2.1
  · rintro s l t ⟨hs, he⟩ ⟨huntaken, hl⟩
    exact ⟨hs.actionStep hl, he.step hs hi hzero huntaken hl⟩

/-- The first task is killed by the idle task. -/
theorem ended_never_runs_killed :
  ∃ t, ActionStep (perform onePageKernel reset.sched_init
      (.create (.CreateTask (fun _ => 0) 0x5000 0))) (onePageKernel, .op (.KillTask 0 1)) t ∧
    ∀ ls' u, Run (fun s l t => Untaken 1 s l ∧ ActionStep s l t) t ls' u → u.CurrentTaskPID ≠ 1
  := by
  have hrun : Run ActionStep reset.sched_init
      [(onePageKernel, .op (.create (.CreateTask (fun _ => 0) 0x5000 0)))]
      (perform onePageKernel reset.sched_init (.create (.CreateTask (fun _ => 0) 0x5000 0))) :=
    Run.cons rfl (Run.nil _)
  exact ended_never_runs hrun ⟨by decide, by decide⟩ (by decide) onePageKernel ⟨rfl, by decide⟩

/-! ### The other tasks -/

theorem settled_alive {j : ℤ} {t : Task} (hzombie : t.state ≠ TASK_ZOMBIE) :
  ∃ st m, Schedule.settled j t = { t with state := st, msleep := m } ∧
    (st = TASK_EMPTY ↔ t.state = TASK_EMPTY) ∧ st ≠ TASK_ZOMBIE
  := by
  rw [Schedule.settled, if_neg fun hreaped => hzombie hreaped.2]
  split_ifs with hsleep
  · have hstate := wake_state t
    have hmsleep := wake_msleep t
    have hwake : ∃ st m, Schedule.wake t = { t with state := st, msleep := m } := by
      rw [Schedule.wake]
      split_ifs
      · exact ⟨_, _, rfl⟩
      · exact ⟨_, _, rfl⟩
      · exact ⟨_, _, rfl⟩
      · exact ⟨_, _, rfl⟩
    obtain ⟨st, m, heq⟩ := hwake
    have hst : (Schedule.wake t).state = st := by rw [heq]
    refine ⟨st, m, heq, ?_⟩
    rw [← hst, hstate]
    split_ifs
    · simp [hsleep]
    · simp [hsleep]
  · exact ⟨t.state, t.msleep, rfl, Iff.rfl, hzombie⟩

/-- In any state that is reached, a fault is a panic exactly if the idle task is the current one.
Otherwise the task ends, and every other task keeps its entry but for its state, its stack pointer
and the time it sleeps; none of them ends. -/
theorem fault_isolated {s₀ : Sched} {ls : List (Kernel × Action)}
    (h : Run ActionStep s₀.sched_init ls s) (K : Kernel) (rsp : ℕ) (f : Fault) :
  ((∃ message, f.handle K s rsp = .error message) ↔ s.CurrentTaskPID = 0) ∧
    (s.CurrentTaskPID ≠ 0 → ∃ t, f.handle K s rsp = .ok t ∧ Ended s.CurrentTaskPID t ∧
      ∀ j, Index j → j ≠ s.CurrentTaskPID → (s.TaskTable j).state ≠ TASK_ZOMBIE →
        ∃ st r m, t.TaskTable j = { s.TaskTable j with state := st, rsp := r, msleep := m } ∧
          (st = TASK_EMPTY ↔ (s.TaskTable j).state = TASK_EMPTY) ∧ st ≠ TASK_ZOMBIE)
  := by
  have hvalid := sched_init_reaches_valid h
  have hhandle := handle_eq hvalid K rsp f
  by_cases hzero : s.CurrentTaskPID = 0
  · rw [if_pos hzero] at hhandle
    exact ⟨iff_of_true hhandle hzero, fun hne => absurd hzero hne⟩
  rw [if_neg hzero] at hhandle
  refine ⟨iff_of_false ?_ hzero, ?_⟩
  · rintro ⟨message, hpanic⟩
    rw [hhandle] at hpanic
    cases hpanic
  intro _
  obtain ⟨hvalid', hended⟩ := give_up_ended hvalid hzero K rsp
  refine ⟨_, hhandle, hended, ?_⟩
  intro j hj hne halive
  have hmarked := consistent_marked hvalid hzero
    (f := fun t => { t with state := TASK_ZOMBIE, ExitCode := -1 }) (fun _ => ⟨rfl, rfl⟩)
    fun _ => rfl
  rw [give_up] at hvalid' ⊢
  generalize hs' : (s.edit s.CurrentTaskPID fun t =>
    { t with state := TASK_ZOMBIE, ExitCode := -1 }) = s' at hmarked hvalid' ⊢
  have hsame : s'.TaskTable j = s.TaskTable j := by
    rw [← hs', edit_TaskTable, Function.update_of_ne hne]
  have hcur : s'.CurrentTaskPID = s.CurrentTaskPID := by
    rw [← hs', edit_CurrentTaskPID]
  obtain ⟨st, r, hentry⟩ := schedule_entry hmarked.started K rsp hj
  obtain ⟨st', m, hsettled, hempty, hzombie⟩ := settled_alive (j := j) halive
  rw [hsame, hsettled] at hentry
  have hst : ((Schedule K s' rsp).1.TaskTable j).state = st := by rw [hentry]
  refine ⟨st, r, m, hentry, ?_, ?_⟩
  · by_cases hnext : j = (Schedule K s' rsp).1.CurrentTaskPID
    · have hoccupied := hvalid'.occupied
      rw [← hnext, hst] at hoccupied
      have hkept := (hmarked.schedule K rsp).2 j hj (by rw [hst]; exact hoccupied)
      rw [hsame] at hkept
      exact iff_of_false hoccupied hkept.1
    · have hstate := schedule_state hmarked.started K rsp hj hnext
      rw [hst, hcur, if_neg (fun hand => hne hand.1), hsame, hsettled] at hstate
      rw [hstate]
      exact hempty
  · rw [← hst]
    exact schedule_no_zombie hmarked K rsp hj

/-- A page fault before there is another task. -/
theorem fault_isolated_idle :
  ∃ message, Fault.page.handle onePageKernel reset.sched_init 0 = .error message
  := (fault_isolated (Run.nil reset.sched_init) onePageKernel 0 .page).1.mpr rfl

end Sched
