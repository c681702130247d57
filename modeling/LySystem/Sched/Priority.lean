import LySystem.Machine.Loop
import LySystem.Sched.Reachable

/-!
# The choice of the next task

`Schedule` gives the processor to a waiting task of the highest priority.  The task that was
running does not take part in the choice, unless there is no other.
-/

namespace Sched

open TaskState Transition

/-- The task waits for the processor, or is a sleeper that the next round wakes. -/
def Ready (t : Task) : Prop :=
  t.state = TASK_WAITING ∨ t.state = TASK_SLEEPING ∧ t.msleep ≤ 1

/-- When `Schedule` is called in `s`, the task of entry `i` is waiting once the sleepers are
woken, or it is the current task and runs. -/
def Runnable (s : Sched) (i : ℤ) : Prop :=
  Index i ∧ ((Schedule.settled i (s.TaskTable i)).state = TASK_WAITING ∨
    i = s.CurrentTaskPID ∧ (s.TaskTable i).state = TASK_RUNNING)

/-- `Schedule`, called in `s`, leaves the processor to a task of the highest priority. -/
def Prior (K : Kernel) (s : Sched) (rsp : ℕ) : Prop :=
  let s' := (Schedule K s rsp).1
  ∀ i, Runnable s i → (s.TaskTable i).priority ≤ (s'.TaskTable s'.CurrentTaskPID).priority

/-- If the current task runs and a task is ready, then one is ready whose priority is not
lower. -/
def Unsurpassed (s : Sched) : Prop :=
  (s.TaskTable s.CurrentTaskPID).state = TASK_RUNNING →
    (∃ i, Index i ∧ Ready (s.TaskTable i)) →
      ∃ i, Index i ∧ Ready (s.TaskTable i) ∧
        (s.TaskTable s.CurrentTaskPID).priority ≤ (s.TaskTable i).priority

/-- No task has a negative priority. -/
def NonNegative (s : Sched) : Prop :=
  ∀ i, Index i → 0 ≤ (s.TaskTable i).priority

/-! ### What a step does to the priorities -/

theorem settled_waiting (i : ℤ) (t : Task) :
  (Schedule.settled i t).state = TASK_WAITING ↔ Ready t
  := by
  rw [Ready, Schedule.settled]
  by_cases hzombie : 0 < i ∧ t.state = TASK_ZOMBIE
  · simp [hzombie, Task.zero]
  · rw [if_neg hzombie]
    by_cases hsleep : t.state = TASK_SLEEPING
    · rw [if_pos hsleep, wake_state]
      simp [hsleep]
    · simp [hsleep]

/-- An entry that is not reaped keeps its priority. -/
theorem settled_priority {i : ℤ} {t : Task} :
  (Schedule.settled i t).priority = t.priority ∨
    (Schedule.settled i t).state = TASK_EMPTY ∧ (Schedule.settled i t).priority = 0
  := by
  rw [Schedule.settled, Schedule.wake]
  split_ifs <;> simp [Task.zero]

/-- Apart from its state and its saved stack pointer, an entry is after `Schedule` what the
first loop makes of it. -/
theorem schedule_entry {s : Sched} (h : s.scheduler_started = true) (K : Kernel) (rsp : ℕ) {i : ℤ}
    (hi : Index i) :
  ∃ st r, (Schedule K s rsp).1.TaskTable i =
    { Schedule.settled i (s.TaskTable i) with state := st, rsp := r }
  := by
  rw [Schedule, if_neg (by simp [h])]
  dsimp only
  rw [← settle_entry K s hi]
  generalize (List.range MAX_TASK_COUNT).foldl (Schedule.settle K) s = s'
  split_ifs
  · exact ⟨(s'.TaskTable i).state, (s'.TaskTable i).rsp, rfl⟩
  · apply switch_entry
  · apply switch_entry

theorem schedule_priority {s : Sched} (h : s.scheduler_started = true) (K : Kernel) (rsp : ℕ)
    {i : ℤ} (hi : Index i) :
  ((Schedule K s rsp).1.TaskTable i).priority =
    (Schedule.settled i (s.TaskTable i)).priority
  := by
  obtain ⟨st, r, heq⟩ := schedule_entry h K rsp hi
  rw [heq]

/-- The state of an entry that `Schedule` does not go to. -/
theorem schedule_state {s : Sched} (h : s.scheduler_started = true) (K : Kernel) (rsp : ℕ) {i : ℤ}
    (hi : Index i) (hne : i ≠ (Schedule K s rsp).1.CurrentTaskPID) :
  ((Schedule K s rsp).1.TaskTable i).state =
    if i = s.CurrentTaskPID ∧ (Schedule.settled i (s.TaskTable i)).state = TASK_RUNNING
    then TASK_WAITING else (Schedule.settled i (s.TaskTable i)).state
  := by
  obtain ⟨-, hcur, -⟩ := foldl_settle K s MAX_TASK_COUNT
  rw [← settle_entry K s hi]
  rw [Schedule, if_neg (by simp [h])] at hne ⊢
  dsimp only at hne ⊢
  generalize (List.range MAX_TASK_COUNT).foldl (Schedule.settle K) s = s' at hcur hne ⊢
  have hswitch : ∀ next, i ≠ (Schedule.switch s' rsp next).1.CurrentTaskPID →
      ((Schedule.switch s' rsp next).1.TaskTable i).state =
        if i = s.CurrentTaskPID ∧ (s'.TaskTable i).state = TASK_RUNNING then TASK_WAITING
        else (s'.TaskTable i).state := by
    intro next hnext
    rw [switch_CurrentTaskPID] at hnext
    by_cases heq : next = s'.CurrentTaskPID
    · rw [Schedule.switch, if_pos heq, if_neg]
      rw [← hcur, ← heq]
      exact fun hn => hnext hn.1
    · rw [switch_state heq, if_neg hnext, hcur]
  by_cases hnone : Schedule.next_pid s' = -1
  · rw [if_pos hnone] at hne ⊢
    by_cases hrun : (s'.TaskTable s'.CurrentTaskPID).state = TASK_RUNNING
    · rw [if_pos hrun] at hne ⊢
      rw [if_neg]
      exact fun hn => hne (hn.1.trans hcur.symm)
    · rw [if_neg hrun] at hne ⊢
      apply hswitch 0 hne
  · rw [if_neg hnone] at hne ⊢
    apply hswitch _ hne

theorem NonNegative.call {s s' : Sched} {op : Op} {rsp : ℕ} (h : NonNegative s)
    (hcall : Schedule.call s op = some (s', rsp)) :
  NonNegative s'
  := by
  rcases call_eq hcall with rfl | ⟨f, rfl, hf, -⟩
  · apply h
  · intro i hi
    by_cases hcur : i = s.CurrentTaskPID
    · simpa [hcur, (hf _).2.2] using h _ (hcur ▸ hi)
    · simpa [hcur] using h i hi

theorem NonNegative.perform {s : Sched} (h : NonNegative s) (hvalid : Valid s) (K : Kernel)
    (op : Op) :
  NonNegative (perform K s op)
  := by
  by_cases hcreate : ∃ c, op = .create c
  · obtain ⟨c, rfl⟩ := hcreate
    rw [Sched.perform]
    by_cases href : Refused s c
    · rw [create_refused href]
      apply h
    · obtain ⟨id, hf, -⟩ := create_filled (K := K) href
      intro i hi
      by_cases heq : i = id
      · rw [heq]
        rcases create_priority hf with hp | hp
        · rw [hp]
          decide
        · rw [hp]
          apply h _ hvalid.current
      · rw [hf.table i heq]
        apply h i hi
  · -- What is not reaped keeps its priority.
    intro i hi
    cases hcall : Schedule.call s op with
    | none =>
        rcases perform_uncalled K hcall (not_exists.mp hcreate) with heq | ⟨-, pid, -, -, -, -, heq⟩
        · rw [heq]
          apply h i hi
        · rw [heq]
          by_cases hp : i = pid
          · simpa [hp] using h i hi
          · simpa [hp] using h i hi
    | some r =>
        obtain ⟨s', rsp⟩ := r
        rw [perform_call K hcall, schedule_priority (hvalid.call hcall).1.started K rsp hi]
        rcases settled_priority (i := i) (t := s'.TaskTable i) with hp | ⟨-, hp⟩
        · rw [hp]
          apply h.call hcall i hi
        · rw [hp]

/-! ### The choice -/

/-- The indices of the table, in order. -/
def indices : List ℤ := (List.range MAX_TASK_COUNT).map Nat.cast

theorem mem_indices {i : ℤ} :
  i ∈ indices ↔ Index i
  := by
  rw [indices, List.mem_map]
  constructor
  · rintro ⟨n, hn, rfl⟩
    exact ⟨Int.natCast_nonneg n, Nat.cast_lt.mpr (List.mem_range.mp hn)⟩
  · rintro ⟨hlo, hhi⟩
    lift i to ℕ using hlo
    exact ⟨i, List.mem_range.mpr (Nat.cast_lt.mp hhi), rfl⟩

theorem max_priority_eq (s : Sched) :
  Schedule.max_priority s =
    Loop.scanMax (fun i => (s.TaskTable i).state = TASK_WAITING)
      (fun i => (s.TaskTable i).priority) indices (-1)
  := by
  simp only [Schedule.max_priority, Loop.scanMax, indices, List.map_eq_flatMap,
    List.bind_eq_flatMap, List.pure_def]

theorem le_max_priority {s : Sched} {i : ℤ} (hi : Index i)
    (hwaiting : (s.TaskTable i).state = TASK_WAITING) :
  (s.TaskTable i).priority ≤ Schedule.max_priority s
  := by
  rw [max_priority_eq]
  exact Loop.le_scanMax (v := fun i => (s.TaskTable i).priority) (mem_indices.mpr hi) hwaiting

/-- The search from the entry after the current one meets every entry. -/
theorem search_meets {c i : ℤ} (hc : Index c) (hi : Index i) :
  ∃ n : ℕ, 1 ≤ n ∧ n < 1 + MAX_TASK_COUNT ∧ (c + n).tmod MAX_TASK_COUNT = i
  := by
  obtain ⟨hclo, hchi⟩ := hc
  obtain ⟨hilo, hihi⟩ := hi
  have hmax : (MAX_TASK_COUNT : ℤ) = 128 := rfl
  have hmax' : MAX_TASK_COUNT = 128 := rfl
  by_cases hlt : c < i
  · refine ⟨(i - c).toNat, by omega, by omega, ?_⟩
    rw [Int.tmod_eq_emod_of_nonneg (by omega), hmax]
    omega
  · refine ⟨(i - c + 128).toNat, by omega, by omega, ?_⟩
    rw [Int.tmod_eq_emod_of_nonneg (by omega), hmax]
    omega

/-- When a task waits, the one chosen has the highest priority of those that wait. -/
theorem next_pid_max {s : Sched} (hcur : Index s.CurrentTaskPID) (hpriority : NonNegative s)
    {i : ℤ} (hi : Index i) (hwaiting : (s.TaskTable i).state = TASK_WAITING) :
  Schedule.next_pid s ≠ -1 ∧
    (s.TaskTable (Schedule.next_pid s)).priority = Schedule.max_priority s
  := by
  have hmax : Schedule.max_priority s ≠ -1 := by
    have hle := le_max_priority hi hwaiting
    have hnonneg := hpriority i hi
    omega
  -- The greatest priority is that of a waiting task, which the search meets.
  obtain ⟨j, hj, hjwaiting, hjmax⟩ := (Loop.scanMax_eq indices (-1)).resolve_left
    (max_priority_eq s ▸ hmax)
  rw [← max_priority_eq] at hjmax
  obtain ⟨n, hlo, hhi, hn⟩ := search_meets hcur (mem_indices.mp hj)
  rw [Schedule.next_pid]
  dsimp only
  rw [if_pos hmax]
  cases hfirst : Loop.firstSome (fun i : ℕ =>
      if (s.TaskTable ((s.CurrentTaskPID + i).tmod MAX_TASK_COUNT)).state = TASK_WAITING ∧
        (s.TaskTable ((s.CurrentTaskPID + i).tmod MAX_TASK_COUNT)).priority =
          Schedule.max_priority s
      then some ((s.CurrentTaskPID + i).tmod MAX_TASK_COUNT) else none) 1 MAX_TASK_COUNT with
  | none =>
      have hnone := Loop.firstSome_eq_none.mp hfirst n hlo hhi
      rw [hn, if_pos ⟨hjwaiting, hjmax⟩] at hnone
      cases hnone
  | some idx =>
      obtain ⟨k, -, -, hk, -⟩ := Loop.firstSome_eq_some.mp hfirst
      split_ifs at hk with hfound
      obtain rfl := Option.some.inj hk
      refine ⟨?_, hfound.2⟩
      rw [Option.getD_some, Int.tmod_eq_emod_of_nonneg (by have := hcur.1; omega)]
      have hmod := Int.emod_nonneg (s.CurrentTaskPID + k) (b := MAX_TASK_COUNT) (by decide)
      omega

theorem next_pid_none {s : Sched} (h : ∀ i, Index i → (s.TaskTable i).state ≠ TASK_WAITING)
    (hcur : Index s.CurrentTaskPID) :
  Schedule.next_pid s = -1
  := by
  by_contra hne
  obtain ⟨hindex, hwaiting⟩ := (next_pid_eq hcur).resolve_left hne
  exact h _ hindex hwaiting

theorem ready_priority {i : ℤ} {t : Task} (h : Ready t) :
  (Schedule.settled i t).priority = t.priority
  := by
  rcases settled_priority (i := i) (t := t) with heq | ⟨hempty, -⟩
  · exact heq
  · rw [(settled_waiting i t).mpr h] at hempty
    cases hempty

theorem NonNegative.settle {s : Sched} (h : NonNegative s) (K : Kernel) :
  NonNegative ((List.range MAX_TASK_COUNT).foldl (Schedule.settle K) s)
  := by
  intro i hi
  rw [settle_entry K s hi]
  rcases settled_priority (i := i) (t := s.TaskTable i) with heq | ⟨-, heq⟩
  · rw [heq]
    apply h i hi
  · rw [heq]

/-- When a task is ready, `Schedule` goes to one of the highest priority of those ready. -/
theorem schedule_ready {s : Sched} (h : Consistent s) (hpriority : NonNegative s) (K : Kernel)
    (rsp : ℕ) {i : ℤ} (hi : Index i) (hready : Ready (s.TaskTable i)) :
  let c := (Schedule K s rsp).1.CurrentTaskPID
  Index c ∧ Ready (s.TaskTable c) ∧ (s.TaskTable i).priority ≤ (s.TaskTable c).priority
  := by
  have hs := h.settle K
  have hp := hpriority.settle K
  have hentry := fun j (hj : Index j) => settle_entry K s hj
  rw [Schedule, if_neg (by simp [h.started])]
  dsimp only
  generalize (List.range MAX_TASK_COUNT).foldl (Schedule.settle K) s = s' at hs hp hentry
  have hwaiting : (s'.TaskTable i).state = TASK_WAITING := by
    rw [hentry i hi, settled_waiting]
    exact hready
  obtain ⟨hne, hmax⟩ := next_pid_max hs.current hp hi hwaiting
  obtain ⟨hindex, hnext⟩ := (next_pid_eq hs.current).resolve_left hne
  have hle := le_max_priority hi hwaiting
  rw [if_neg hne, switch_CurrentTaskPID]
  rw [hentry _ hindex, settled_waiting] at hnext
  rw [← hmax, hentry i hi, hentry _ hindex, ready_priority hready, ready_priority hnext] at hle
  exact ⟨hindex, hnext, hle⟩

/-- When no task is ready, `Schedule` goes on with the current task if that runs, and goes to
entry 0 otherwise. -/
theorem schedule_unready {s : Sched} (h : Consistent s) (K : Kernel) (rsp : ℕ)
    (hnone : ∀ i, Index i → ¬ Ready (s.TaskTable i)) :
  (Schedule K s rsp).1.CurrentTaskPID =
    if (s.TaskTable s.CurrentTaskPID).state = TASK_RUNNING then s.CurrentTaskPID else 0
  := by
  obtain ⟨-, hcur, -⟩ := foldl_settle K s MAX_TASK_COUNT
  have hs := h.settle K
  have hentry := fun j (hj : Index j) => settle_entry K s hj
  rw [Schedule, if_neg (by simp [h.started])]
  dsimp only
  generalize (List.range MAX_TASK_COUNT).foldl (Schedule.settle K) s = s' at hs hcur hentry
  have hnext : Schedule.next_pid s' = -1 := by
    apply next_pid_none _ hs.current
    intro i hi
    rw [hentry i hi, Ne, settled_waiting]
    exact hnone i hi
  have hrun : (s'.TaskTable s'.CurrentTaskPID).state = TASK_RUNNING ↔
      (s.TaskTable s.CurrentTaskPID).state = TASK_RUNNING := by
    rw [hentry _ hs.current, hcur]
    rcases settled_eq s.CurrentTaskPID (s.TaskTable s.CurrentTaskPID) with
      ⟨-, hz, heq⟩ | ⟨-, -, heq | ⟨hsleep, heq⟩⟩
    · simp [hz, heq]
    · rw [heq]
    · simp [hsleep, heq]
  rw [if_pos hnext, ← hcur]
  simp only [← hrun, hcur]
  split_ifs
  · exact hcur
  · apply switch_CurrentTaskPID

/-! ### Reachable states -/

theorem reachable_nonNegative {s₀ s : Sched} {ls : List (Kernel × Op)}
    (h : Run Step s₀.sched_init ls s) :
  Valid s ∧ NonNegative s
  := by
  apply h.invariant (I := fun s => Valid s ∧ NonNegative s)
  · rintro s l t ⟨hvalid, hp⟩ hstep
    rw [hstep]
    exact ⟨(hvalid.perform l.1 l.2).1, hp.perform hvalid l.1 l.2⟩
  · refine ⟨sched_init_valid s₀, ?_⟩
    rintro i ⟨hlo, hhi⟩
    by_cases hne : i = 0
    · simp [sched_init, hne]
    · simp [sched_init, Function.update_of_ne hne, hlo, hhi, Task.zero]

/-- `Schedule`, called by any operation in a reachable state, leaves the processor to a task of
the highest priority exactly when the running task is not surpassed: it does not run any more,
no task is ready, or one that is has at least its priority. -/
theorem schedule_prior {s₀ s s' : Sched} {ls : List (Kernel × Op)} {op : Op} {rsp : ℕ}
    (h : Run Step s₀.sched_init ls s) (hcall : Schedule.call s op = some (s', rsp)) (K : Kernel) :
  Prior K s' rsp ↔ Unsurpassed s'
  := by
  obtain ⟨hvalid, hnonneg⟩ := reachable_nonNegative h
  have hs' := (hvalid.call hcall).1
  have hp := hnonneg.call hcall
  rw [Prior]
  by_cases hsome : ∃ i, Index i ∧ Ready (s'.TaskTable i)
  · obtain ⟨i, hi, hready⟩ := hsome
    have hchoice := fun j hj hr => schedule_ready hs' hp K rsp (i := j) hj hr
    dsimp only at hchoice
    obtain ⟨hc, hcready, -⟩ := hchoice i hi hready
    rw [schedule_priority hs'.started K rsp hc, ready_priority hcready]
    constructor
    · intro hprior hrun _
      exact ⟨_, hc, hcready, hprior _ ⟨hs'.current, Or.inr ⟨rfl, hrun⟩⟩⟩
    · rintro hle j ⟨hj, hw | ⟨rfl, hrun⟩⟩
      · exact (hchoice j hj ((settled_waiting j _).mp hw)).2.2
      · obtain ⟨k, hk, hkready, hle⟩ := hle hrun ⟨i, hi, hready⟩
        exact hle.trans (hchoice k hk hkready).2.2
  · have hnone : ∀ i, Index i → ¬ Ready (s'.TaskTable i) := by
      intro i hi hready
      exact hsome ⟨i, hi, hready⟩
    apply iff_of_true
    · rintro i ⟨hi, hw | ⟨rfl, hrun⟩⟩
      · exact absurd ((settled_waiting i _).mp hw) (hnone i hi)
      · rw [schedule_unready hs' K rsp hnone, if_pos hrun,
          schedule_priority hs'.started K rsp hi, Schedule.settled]
        simp [hrun]
    · intro _ hready
      exact absurd hready hsome

/-- With one task besides the idle one, both ready to run, the task runs and gives way to the
idle one. -/
theorem schedule_surpassed :
  let K : Kernel := ⟨fun m _ => (0x1000, m), fun m _ => m, 0, 0⟩
  ∃ s, Run Step reset.sched_init
      [(K, .create (.CreateTask (fun _ => 0) 0 0)), (K, .Schedule 0)] s ∧
    s.CurrentTaskPID = 1 ∧ (s.TaskTable 1).state = TASK_RUNNING ∧
    (Schedule K s 0).1.CurrentTaskPID = 0 ∧
    (s.TaskTable 0).priority < (s.TaskTable 1).priority ∧ ¬ Prior K s 0
  := by
  intro K
  refine ⟨_, Run.cons rfl (Run.cons rfl (Run.nil _)), by decide +kernel, by decide +kernel,
    by decide +kernel, by decide +kernel, ?_⟩
  intro hprior
  have hle := hprior 1 ⟨⟨by decide, by decide⟩, Or.inr ⟨by decide +kernel, by decide +kernel⟩⟩
  revert hle
  decide +kernel

/-- The task sleeps, and the idle one gets the processor. -/
theorem schedule_prior_msleep :
  let K : Kernel := ⟨fun m _ => (0x1000, m), fun m _ => m, 0, 0⟩
  ∃ s s', Run Step reset.sched_init
      [(K, .create (.CreateTask (fun _ => 0) 0 0)), (K, .Schedule 0)] s ∧
    Schedule.call s (.msleep 0 20) = some (s', 0) ∧ Prior K s' 0
  := by
  intro K
  refine ⟨_, _, Run.cons rfl (Run.cons rfl (Run.nil _)), rfl, ?_⟩
  apply (schedule_prior (Run.cons rfl (Run.cons rfl (Run.nil _)))
    (show Schedule.call _ (.msleep 0 20) = some (_, 0) from rfl) K).mpr
  intro hrun
  exfalso
  revert hrun
  decide +kernel

end Sched
