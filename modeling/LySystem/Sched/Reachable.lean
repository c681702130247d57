import LySystem.Machine.Transition
import LySystem.Sched.Creation

/-!
# Reachable states of the scheduler

What holds of the task table after any sequence of operations, whatever `kmalloc` answers.
-/

namespace Sched

open TaskState Transition

/-- The operations, each with the stack pointer of the task that performs it where the
operation looks at it. -/
inductive Op where
  | create (c : Creation)
  | KillTask (rsp : ℕ) (pid : ℤ)
  | ExitTask (rsp : ℕ) (ExitCode : ℤ)
  | msleep (rsp ms : ℕ)
  | Schedule (rsp : ℕ)

def perform (K : Kernel) (s : Sched) : Op → Sched
  | .create c => (create K s c).2
  | .KillTask rsp pid => (KillTask K s rsp pid).2
  | .ExitTask rsp ExitCode => (ExitTask K s rsp ExitCode).2
  | .msleep rsp ms => msleep K s rsp ms
  | .Schedule rsp => (Schedule K s rsp).1

/-- One operation. The kernel around the scheduler may be another one at each step, so that
`kmalloc` may answer anything. -/
def Step (s : Sched) (l : Kernel × Op) (t : Sched) : Prop :=
  t = perform l.1 s l.2

/-- An index of the table. -/
def Index (i : ℤ) : Prop := 0 ≤ i ∧ i < MAX_TASK_COUNT

theorem index_zero :
  Index 0
  := ⟨le_rfl, Nat.cast_pos.mpr (by decide)⟩

/-- What holds of the table at any time. -/
structure Consistent (s : Sched) : Prop where
  started : s.scheduler_started = true
  current : Index s.CurrentTaskPID
  idle : (s.TaskTable 0).state ≠ TASK_EMPTY ∧ (s.TaskTable 0).state ≠ TASK_ZOMBIE
  running : ∀ i, Index i → (s.TaskTable i).state = TASK_RUNNING → i = s.CurrentTaskPID
  pid : ∀ i, Index i → (s.TaskTable i).state ≠ TASK_EMPTY → (s.TaskTable i).pid = i

/-- What holds between operations: the current task has an entry besides. -/
structure Valid (s : Sched) : Prop extends Consistent s where
  occupied : (s.TaskTable s.CurrentTaskPID).state ≠ TASK_EMPTY

/-- The entries in use in `s'` were in use in `s`, with the same number and stack. -/
def Kept (s s' : Sched) : Prop :=
  ∀ i, Index i → (s'.TaskTable i).state ≠ TASK_EMPTY →
    (s.TaskTable i).state ≠ TASK_EMPTY ∧ (s'.TaskTable i).pid = (s.TaskTable i).pid ∧
      (s'.TaskTable i).kstack = (s.TaskTable i).kstack

theorem Kept.refl (s : Sched) :
  Kept s s
  := fun _ _ h => ⟨h, rfl, rfl⟩

theorem Kept.trans {s s' s'' : Sched} (h : Kept s s') (h' : Kept s' s'') :
  Kept s s''
  := by
  intro i hi hused
  obtain ⟨hused', hpid', hkstack'⟩ := h' i hi hused
  obtain ⟨hused'', hpid, hkstack⟩ := h i hi hused'
  exact ⟨hused'', hpid'.trans hpid, hkstack'.trans hkstack⟩

theorem Kept.pid {s s' : Sched} (h : Kept s s')
    (hs : ∀ i, Index i → (s.TaskTable i).state ≠ TASK_EMPTY → (s.TaskTable i).pid = i) (i : ℤ)
    (hi : Index i) (hused : (s'.TaskTable i).state ≠ TASK_EMPTY) :
  (s'.TaskTable i).pid = i
  := by
  obtain ⟨hused', hpid, -⟩ := h i hi hused
  rw [hpid, hs i hi hused']

theorem sched_init_empty (s : Sched) {i : ℤ} (hi : Index i) (hne : i ≠ 0) :
  (s.sched_init.TaskTable i).state = TASK_EMPTY
  := by
  obtain ⟨hlo, hhi⟩ := hi
  simp [sched_init, Function.update_of_ne hne, hlo, hhi, Task.zero]

theorem sched_init_valid (s : Sched) :
  Valid s.sched_init
  := by
  refine ⟨⟨rfl, ?_, ?_, ?_, ?_⟩, ?_⟩
  · apply index_zero
  · simp [sched_init]
  · intro i hi hrun
    by_contra hne
    rw [sched_init_empty s hi hne] at hrun
    cases hrun
  · intro i hi hstate
    by_cases hne : i = 0
    · subst hne
      simp [sched_init]
    · apply absurd (sched_init_empty s hi hne) hstate
  · simp [sched_init]

/-! ### Creation -/

theorem Valid.create {s : Sched} (h : Valid s) (K : Kernel) (c : Creation) :
  Valid (create K s c).2
  := by
  by_cases href : Refused s c
  · rw [create_refused href]
    apply h
  · obtain ⟨id, hf, -⟩ := create_filled (K := K) href
    obtain ⟨hlt, hempty⟩ := emptySlot_eq_some hf.slot
    -- The filled entry was empty, so it is neither the current one nor entry 0.
    have hcur : s.CurrentTaskPID ≠ id := by
      intro heq
      apply h.occupied
      rw [heq, hempty]
    have hzero : (0 : ℤ) ≠ id := by
      intro heq
      apply h.idle.1
      rw [heq, hempty]
    refine ⟨⟨hf.started.trans h.started, ?_, ?_, ?_, ?_⟩, ?_⟩
    · rw [hf.current]
      apply h.current
    · rw [hf.table 0 hzero]
      apply h.idle
    · intro i hi hrun
      by_cases heq : i = id
      · rw [heq, hf.state] at hrun
        cases hrun
      · rw [hf.table i heq] at hrun
        rw [hf.current, h.running i hi hrun]
    · intro i hi hstate
      by_cases heq : i = id
      · rw [heq, hf.pid]
      · rw [hf.table i heq] at hstate ⊢
        apply h.pid i hi hstate
    · rw [hf.current, hf.table _ hcur]
      apply h.occupied

/-! ### The scheduler -/

/-- What the first loop of `Schedule` makes of the entry `i`. -/
def Schedule.settled (i : ℤ) (t : Task) : Task :=
  if 0 < i ∧ t.state = TASK_ZOMBIE then Task.zero
  else if t.state = TASK_SLEEPING then Schedule.wake t
  else t

theorem settle_eq (K : Kernel) (s : Sched) (i : ℕ) :
  (Schedule.settle K s i).TaskTable =
      Function.update s.TaskTable i (Schedule.settled i (s.TaskTable i)) ∧
    (Schedule.settle K s i).CurrentTaskPID = s.CurrentTaskPID ∧
    (Schedule.settle K s i).scheduler_started = s.scheduler_started
  := by
  rw [Schedule.settle, Schedule.settled]
  dsimp only
  simp only [Nat.cast_pos]
  split_ifs <;> simp

/-- The first loop settles each entry. -/
theorem foldl_settle (K : Kernel) (s : Sched) (n : ℕ) :
  let s' := (List.range n).foldl (Schedule.settle K) s
  (∀ i : ℤ, s'.TaskTable i =
      if 0 ≤ i ∧ i < n then Schedule.settled i (s.TaskTable i) else s.TaskTable i) ∧
    s'.CurrentTaskPID = s.CurrentTaskPID ∧ s'.scheduler_started = s.scheduler_started
  := by
  induction n with
  | zero =>
      refine ⟨?_, rfl, rfl⟩
      intro i
      rw [if_neg (by omega)]
      rfl
  | succ n ih =>
      obtain ⟨htable, hcur, hstarted⟩ := ih
      obtain ⟨htable', hcur', hstarted'⟩ :=
        settle_eq K ((List.range n).foldl (Schedule.settle K) s) n
      simp only [List.range_succ, List.foldl_append, List.foldl_cons, List.foldl_nil]
      refine ⟨?_, hcur'.trans hcur, hstarted'.trans hstarted⟩
      intro i
      rw [htable']
      by_cases hi : i = n
      · subst hi
        rw [Function.update_self, htable, if_neg (by omega), if_pos (by omega)]
      · rw [Function.update_of_ne hi, htable]
        congr 1
        apply propext
        omega

theorem settle_entry (K : Kernel) (s : Sched) {i : ℤ} (hi : Index i) :
  ((List.range MAX_TASK_COUNT).foldl (Schedule.settle K) s).TaskTable i =
    Schedule.settled i (s.TaskTable i)
  := by
  rw [(foldl_settle K s MAX_TASK_COUNT).1]
  apply if_pos hi

theorem wake_eq (t : Task) :
  (Schedule.wake t).pid = t.pid ∧ (Schedule.wake t).kstack = t.kstack ∧
    ((Schedule.wake t).state = t.state ∨ (Schedule.wake t).state = TASK_WAITING)
  := by
  rw [Schedule.wake]
  split_ifs <;> simp

theorem wake_msleep (t : Task) :
  (Schedule.wake t).msleep = t.msleep - 1
  := by
  rw [Schedule.wake]
  by_cases hpos : 0 < t.msleep
  · rw [if_pos hpos]
    split_ifs <;> rfl
  · rw [if_neg hpos]
    split_ifs
    · dsimp only
      omega
    · omega

theorem wake_state (t : Task) :
  (Schedule.wake t).state = if t.msleep ≤ 1 then TASK_WAITING else t.state
  := by
  rw [Schedule.wake]
  by_cases hpos : 0 < t.msleep
  · rw [if_pos hpos]
    dsimp only
    by_cases hle : t.msleep ≤ 1
    · rw [if_pos hle, if_pos (by omega)]
    · rw [if_neg hle, if_neg (by omega)]
  · rw [if_neg hpos, if_pos (by omega), if_pos (by omega)]

/-- Settling an entry empties it when it is a zombie, and otherwise leaves its state or makes
a sleeper waiting. -/
theorem settled_eq (i : ℤ) (t : Task) :
  (0 < i ∧ t.state = TASK_ZOMBIE ∧ (Schedule.settled i t).state = TASK_EMPTY) ∨
    ((Schedule.settled i t).pid = t.pid ∧ (Schedule.settled i t).kstack = t.kstack ∧
      ((Schedule.settled i t).state = t.state ∨
        t.state = TASK_SLEEPING ∧ (Schedule.settled i t).state = TASK_WAITING))
  := by
  rw [Schedule.settled]
  split_ifs with hzombie hsleep
  · left
    exact ⟨hzombie.1, hzombie.2, rfl⟩
  · right
    obtain ⟨hpid, hkstack, hstate⟩ := wake_eq t
    exact ⟨hpid, hkstack, hstate.imp id fun hw => ⟨hsleep, hw⟩⟩
  · right
    exact ⟨rfl, rfl, Or.inl rfl⟩

/-- An entry in use after it is settled was so before, with the same saved stack pointer. -/
theorem settled_rsp {i : ℤ} {t : Task} (hempty : (Schedule.settled i t).state ≠ TASK_EMPTY)
    (hzombie : (Schedule.settled i t).state ≠ TASK_ZOMBIE) :
  t.state ≠ TASK_EMPTY ∧ t.state ≠ TASK_ZOMBIE ∧ (Schedule.settled i t).rsp = t.rsp
  := by
  rw [Schedule.settled] at *
  split_ifs at * with hreaped hsleep
  · exact absurd rfl hempty
  · refine ⟨by simp [hsleep], by simp [hsleep], ?_⟩
    rw [Schedule.wake]
    split_ifs <;> rfl
  · exact ⟨hempty, hzombie, rfl⟩

theorem settle_kept (K : Kernel) (s : Sched) :
  Kept s ((List.range MAX_TASK_COUNT).foldl (Schedule.settle K) s)
  := by
  intro i hi hused
  rw [settle_entry K s hi] at hused ⊢
  rcases settled_eq i (s.TaskTable i) with ⟨-, -, heq⟩ | ⟨hpid, hkstack, heq | ⟨hsleep, -⟩⟩
  · exact absurd heq hused
  · rw [heq] at hused
    exact ⟨hused, hpid, hkstack⟩
  · refine ⟨?_, hpid, hkstack⟩
    rw [hsleep]
    simp

theorem Consistent.settle {s : Sched} (h : Consistent s) (K : Kernel) :
  Consistent ((List.range MAX_TASK_COUNT).foldl (Schedule.settle K) s)
  := by
  obtain ⟨-, hcur, hstarted⟩ := foldl_settle K s MAX_TASK_COUNT
  refine ⟨hstarted.trans h.started, ?_, ?_, ?_, (settle_kept K s).pid h.pid⟩
  · rw [hcur]
    apply h.current
  · rw [settle_entry K s index_zero]
    obtain ⟨hempty, hzombie⟩ := h.idle
    rcases settled_eq 0 (s.TaskTable 0) with ⟨hlt, -⟩ | ⟨-, -, heq | ⟨-, heq⟩⟩
    · omega
    · rw [heq]
      exact ⟨hempty, hzombie⟩
    · rw [heq]
      simp
  · intro i hi hrun
    rw [settle_entry K s hi] at hrun
    rw [hcur]
    apply h.running i hi
    rcases settled_eq i (s.TaskTable i) with ⟨-, -, heq⟩ | ⟨-, -, heq | ⟨-, heq⟩⟩
    · rw [heq] at hrun
      cases hrun
    · rw [← heq, hrun]
    · rw [heq] at hrun
      cases hrun

/-- The task found is waiting. -/
theorem next_pid_eq {s : Sched} (h : Index s.CurrentTaskPID) :
  Schedule.next_pid s = -1 ∨
    Index (Schedule.next_pid s) ∧ (s.TaskTable (Schedule.next_pid s)).state = TASK_WAITING
  := by
  rw [Schedule.next_pid]
  dsimp only
  split_ifs with hmax
  · cases hfirst : Loop.firstSome (fun i : ℕ =>
        if (s.TaskTable ((s.CurrentTaskPID + i).tmod MAX_TASK_COUNT)).state = TASK_WAITING ∧
          (s.TaskTable ((s.CurrentTaskPID + i).tmod MAX_TASK_COUNT)).priority =
            Schedule.max_priority s
        then some ((s.CurrentTaskPID + i).tmod MAX_TASK_COUNT) else none) 1 MAX_TASK_COUNT with
    | none =>
        left
        rfl
    | some idx =>
        right
        obtain ⟨i, -, -, hi, -⟩ := Loop.firstSome_eq_some.mp hfirst
        split_ifs at hi with hwaiting
        obtain rfl := Option.some.inj hi
        refine ⟨?_, hwaiting.1⟩
        have hnonneg : 0 ≤ s.CurrentTaskPID + i := by
          have := h.1
          omega
        rw [Option.getD_some, Int.tmod_eq_emod_of_nonneg hnonneg]
        exact ⟨Int.emod_nonneg _ (by decide), Int.emod_lt_of_pos _ (by decide)⟩
  · left
    rfl

theorem switch_state {s : Sched} {rsp : ℕ} {next i : ℤ} (hne : next ≠ s.CurrentTaskPID) :
  ((Schedule.switch s rsp next).1.TaskTable i).state =
    if i = next then TASK_RUNNING
    else if i = s.CurrentTaskPID ∧ (s.TaskTable i).state = TASK_RUNNING then TASK_WAITING
    else (s.TaskTable i).state
  := by
  rw [Schedule.switch, if_neg hne]
  by_cases hnext : i = next
  · subst hnext
    simp [Function.update_of_ne hne]
  · by_cases hcur : i = s.CurrentTaskPID
    · subst hcur
      simp only [edit_TaskTable, Function.update_self, Function.update_of_ne hnext, if_neg hnext,
        true_and]
      split_ifs <;> simp
    · simp [hnext, hcur]

theorem switch_CurrentTaskPID (s : Sched) (rsp : ℕ) (next : ℤ) :
  (Schedule.switch s rsp next).1.CurrentTaskPID = next
  := by
  rw [Schedule.switch]
  split_ifs with heq
  · exact heq.symm
  · rfl

/-- `switch_to` saves the stack pointer in the entry of the task it leaves. -/
theorem switch_rsp {s : Sched} {rsp : ℕ} {next i : ℤ} (hne : next ≠ s.CurrentTaskPID) :
  ((Schedule.switch s rsp next).1.TaskTable i).rsp =
    if i = s.CurrentTaskPID then rsp else (s.TaskTable i).rsp
  := by
  rw [Schedule.switch, if_neg hne]
  by_cases hcur : i = s.CurrentTaskPID
  · subst hcur
    simp
  · by_cases hnext : i = next
    · subst hnext
      simp [hne]
    · simp [hnext, hcur]

/-- The stack pointer loaded is that of the task the processor goes to. -/
theorem switch_snd {s : Sched} {rsp : ℕ} {next : ℤ} (hne : next ≠ s.CurrentTaskPID) :
  (Schedule.switch s rsp next).2 = some (s.TaskTable next).rsp
  := by
  have hrsp : ((Schedule.switch s rsp next).1.TaskTable next).rsp = (s.TaskTable next).rsp := by
    rw [switch_rsp hne, if_neg hne]
  rw [← hrsp, Schedule.switch, if_neg hne]

/-- A switch changes states and saved stack pointers only. -/
theorem switch_entry (s : Sched) (rsp : ℕ) (next i : ℤ) :
  ∃ st r, (Schedule.switch s rsp next).1.TaskTable i = { s.TaskTable i with state := st, rsp := r }
  := by
  rw [Schedule.switch]
  split_ifs with hne
  · exact ⟨(s.TaskTable i).state, (s.TaskTable i).rsp, rfl⟩
  · by_cases hnext : i = next
    · subst hnext
      use TASK_RUNNING, (s.TaskTable i).rsp
      simp [Function.update_of_ne hne]
    · by_cases hcur : i = s.CurrentTaskPID
      · subst hcur
        simp only [edit_TaskTable, Function.update_self, Function.update_of_ne hnext]
        split_ifs
        · use TASK_WAITING, rsp
        · use (s.TaskTable s.CurrentTaskPID).state, rsp
      · use (s.TaskTable i).state, (s.TaskTable i).rsp
        simp [hnext, hcur]

theorem switch_kept {s : Sched} (rsp : ℕ) {next : ℤ}
    (hused : (s.TaskTable next).state ≠ TASK_EMPTY) :
  Kept s (Schedule.switch s rsp next).1
  := by
  intro i hi hused'
  constructor
  · by_cases hne : next = s.CurrentTaskPID
    · rw [Schedule.switch, if_pos hne] at hused'
      apply hused'
    · rw [switch_state hne] at hused'
      split_ifs at hused' with hin hic
      · rw [hin]
        apply hused
      · rw [hic.2]
        simp
      · apply hused'
  · obtain ⟨st, r, heq⟩ := switch_entry s rsp next i
    rw [heq]
    exact ⟨rfl, rfl⟩

/-- A switch to an entry in use makes it the current task, and the running one. -/
theorem Consistent.switch {s : Sched} (h : Consistent s) (rsp : ℕ) {next : ℤ} (hnext : Index next)
    (hused : (s.TaskTable next).state ≠ TASK_EMPTY) :
  Valid (Schedule.switch s rsp next).1
  := by
  have hpid := (switch_kept rsp hused).pid h.pid
  by_cases hne : next = s.CurrentTaskPID
  · rw [Schedule.switch, if_pos hne]
    use h
    rw [← hne]
    apply hused
  · have hcur := switch_CurrentTaskPID s rsp next
    have hstarted : (Schedule.switch s rsp next).1.scheduler_started = s.scheduler_started := by
      rw [Schedule.switch, if_neg hne]
      rfl
    refine ⟨⟨hstarted.trans h.started, ?_, ?_, ?_, hpid⟩, ?_⟩
    · rw [hcur]
      apply hnext
    · rw [switch_state hne]
      split_ifs <;> simp [h.idle]
    · intro i hi hrun
      rw [hcur]
      rw [switch_state hne] at hrun
      split_ifs at hrun with hin hic
      · apply hin
      · have heq := h.running i hi hrun
        exact absurd ⟨heq, hrun⟩ hic
    · rw [hcur, switch_state hne, if_pos rfl]
      simp

theorem Consistent.schedule {s : Sched} (h : Consistent s) (K : Kernel) (rsp : ℕ) :
  Valid (Schedule K s rsp).1 ∧ Kept s (Schedule K s rsp).1
  := by
  rw [Schedule, if_neg (by simp [h.started])]
  dsimp only
  have hs := h.settle K
  have hkept := settle_kept K s
  generalize (List.range MAX_TASK_COUNT).foldl (Schedule.settle K) s = s' at hs hkept
  split_ifs with hnone hrun
  · refine ⟨⟨hs, ?_⟩, hkept⟩
    rw [hrun]
    simp
  · exact ⟨hs.switch rsp index_zero hs.idle.1, hkept.trans (switch_kept rsp hs.idle.1)⟩
  · obtain ⟨hindex, hwaiting⟩ := (next_pid_eq hs.current).resolve_left hnone
    have hused : (s'.TaskTable (Schedule.next_pid s')).state ≠ TASK_EMPTY := by
      rw [hwaiting]
      simp
    exact ⟨hs.switch rsp hindex hused, hkept.trans (switch_kept rsp hused)⟩

/-- When `switch_to` is called, it is for a task in use other than the current one. -/
theorem Consistent.switched {s : Sched} (h : Consistent s) {K : Kernel} {rsp r : ℕ}
    (hr : (Schedule K s rsp).2 = some r) :
  let s' := (List.range MAX_TASK_COUNT).foldl (Schedule.settle K) s
  ∃ next, Index next ∧ next ≠ s.CurrentTaskPID ∧ (s'.TaskTable next).state ≠ TASK_EMPTY ∧
    (s'.TaskTable next).state ≠ TASK_ZOMBIE ∧ Schedule K s rsp = Schedule.switch s' rsp next
  := by
  obtain ⟨-, hcur, -⟩ := foldl_settle K s MAX_TASK_COUNT
  have hs := h.settle K
  rw [Schedule, if_neg (by simp [h.started])] at hr ⊢
  dsimp only at hr ⊢
  rw [← hcur]
  generalize (List.range MAX_TASK_COUNT).foldl (Schedule.settle K) s = s' at hr hs
  have hne : ∀ next, (Schedule.switch s' rsp next).2 = some r → next ≠ s'.CurrentTaskPID := by
    rintro next hswitch rfl
    rw [Schedule.switch, if_pos rfl] at hswitch
    cases hswitch
  by_cases hnone : Schedule.next_pid s' = -1
  · rw [if_pos hnone] at hr ⊢
    by_cases hrun : (s'.TaskTable s'.CurrentTaskPID).state = TASK_RUNNING
    · rw [if_pos hrun] at hr
      cases hr
    · rw [if_neg hrun] at hr ⊢
      exact ⟨0, index_zero, hne 0 hr, hs.idle.1, hs.idle.2, rfl⟩
  · rw [if_neg hnone] at hr ⊢
    obtain ⟨hindex, hwaiting⟩ := (next_pid_eq hs.current).resolve_left hnone
    refine ⟨_, hindex, hne _ hr, ?_, ?_, rfl⟩
    · simp [hwaiting]
    · simp [hwaiting]

/-! ### The end of a task -/

theorem edit_kept {s : Sched} {i : ℤ} {f : Task → Task}
    (hf : ∀ t, (f t).pid = t.pid ∧ (f t).kstack = t.kstack)
    (hused : (s.TaskTable i).state ≠ TASK_EMPTY) :
  Kept s (s.edit i f)
  := by
  intro j hj hused'
  by_cases heq : j = i
  · subst heq
    rw [edit_TaskTable, Function.update_self]
    exact ⟨hused, hf _⟩
  · rw [edit_TaskTable, Function.update_of_ne heq] at hused' ⊢
    exact ⟨hused', rfl, rfl⟩

/-- A change of one entry that keeps it in use, does not make it run, keeps its number, and
does not make a zombie of entry 0. -/
theorem Consistent.edit {s : Sched} (h : Consistent s) {i : ℤ} {f : Task → Task} (st : TaskState)
    (hf : ∀ t, (f t).state = st) (hkept : Kept s (s.edit i f))
    (hst : st ≠ TASK_EMPTY ∧ st ≠ TASK_RUNNING) (hidle : i = 0 → st ≠ TASK_ZOMBIE) :
  Consistent (s.edit i f)
  := by
  refine ⟨h.started, h.current, ?_, ?_, hkept.pid h.pid⟩
  · by_cases heq : (0 : ℤ) = i
    · rw [edit_TaskTable, heq, Function.update_self, hf]
      exact ⟨hst.1, hidle heq.symm⟩
    · rw [edit_TaskTable, Function.update_of_ne heq]
      apply h.idle
  · intro j hj hrun
    by_cases heq : j = i
    · rw [edit_TaskTable, heq, Function.update_self, hf] at hrun
      exact absurd hrun hst.2
    · rw [edit_TaskTable, Function.update_of_ne heq] at hrun
      apply h.running j hj hrun

/-! ### The calls of `Schedule` -/

/-- The call of `Schedule` an operation makes, if it makes one: the state it is called in,
and the stack pointer. -/
def Schedule.call (s : Sched) : Op → Option (Sched × ℕ)
  | .create _ => none
  | .KillTask rsp pid =>
      if 0 < pid ∧ pid < MAX_TASK_COUNT ∧ (s.TaskTable pid).state ≠ TASK_EMPTY ∧
        pid = s.CurrentTaskPID
      then some (s.edit s.CurrentTaskPID fun t =>
        { t with state := TASK_ZOMBIE, ExitCode := -1 }, rsp)
      else none
  | .ExitTask rsp ExitCode =>
      if s.CurrentTaskPID = 0 then none
      else some (s.edit s.CurrentTaskPID fun t =>
        { t with state := TASK_ZOMBIE, ExitCode := ExitCode }, rsp)
  | .msleep rsp ms =>
      if ms = 0 then none
      else some (s.edit s.CurrentTaskPID fun t =>
        { t with msleep := ms / 10, state := TASK_SLEEPING }, rsp)
  | .Schedule rsp => some (s, rsp)

/-- `Schedule` is the last that an operation calls. -/
theorem perform_call {s s' : Sched} {op : Op} {rsp : ℕ} (K : Kernel)
    (h : Schedule.call s op = some (s', rsp)) :
  perform K s op = (Schedule K s' rsp).1
  := by
  cases op with
  | create c => cases h
  | KillTask rsp' pid =>
      rw [Schedule.call] at h
      split_ifs at h with hself
      obtain ⟨hlo, hhi, hused, hcur⟩ := hself
      cases h
      rw [perform, KillTask, if_neg (by omega), if_neg hused]
      dsimp only
      rw [if_pos hcur, ExitTask, if_neg (by omega)]
  | ExitTask rsp' ExitCode =>
      rw [Schedule.call] at h
      split_ifs at h with hzero
      cases h
      rw [perform, ExitTask, if_neg hzero]
  | msleep rsp' ms =>
      rw [Schedule.call] at h
      split_ifs at h with hms
      cases h
      rw [perform, msleep, if_neg hms]
  | Schedule rsp' =>
      cases h
      rfl

/-- An operation that does not call `Schedule` creates a task, marks another task, or does
nothing. -/
theorem perform_uncalled {s : Sched} {op : Op} (K : Kernel) (h : Schedule.call s op = none)
    (hcreate : ∀ c, op ≠ .create c) :
  perform K s op = s ∨
    ∃ rsp pid, op = .KillTask rsp pid ∧ 0 < pid ∧ (s.TaskTable pid).state ≠ TASK_EMPTY ∧
      pid ≠ s.CurrentTaskPID ∧ perform K s op =
        s.edit pid fun t => { t with state := TASK_ZOMBIE, ExitCode := -1 }
  := by
  cases op with
  | create c => exact absurd rfl (hcreate c)
  | KillTask rsp pid =>
      rw [perform, KillTask]
      split_ifs with hrange hempty hcur
      · left
        rfl
      · left
        rfl
      · rw [Schedule.call, if_pos ⟨by omega, by omega, hempty, hcur⟩] at h
        cases h
      · right
        use rsp, pid, rfl, by omega, hempty, hcur
  | ExitTask rsp ExitCode =>
      left
      rw [Schedule.call] at h
      split_ifs at h with hzero
      rw [perform, ExitTask, if_pos hzero]
  | msleep rsp ms =>
      left
      rw [Schedule.call] at h
      split_ifs at h with hms
      rw [perform, msleep, if_pos hms]
  | Schedule rsp => cases h

/-- A call of `Schedule` comes with the table as it was, or with the current task marked as a
sleeper or a zombie. -/
theorem call_eq {s s' : Sched} {op : Op} {rsp : ℕ} (h : Schedule.call s op = some (s', rsp)) :
  s' = s ∨ ∃ f : Task → Task, s' = s.edit s.CurrentTaskPID f ∧
    (∀ t, (f t).pid = t.pid ∧ (f t).kstack = t.kstack ∧ (f t).priority = t.priority) ∧
    ((∀ t, (f t).state = TASK_SLEEPING) ∨
      s.CurrentTaskPID ≠ 0 ∧ ∀ t, (f t).state = TASK_ZOMBIE)
  := by
  cases op with
  | create c => cases h
  | KillTask rsp' pid =>
      rw [Schedule.call] at h
      split_ifs at h with hself
      cases h
      right
      refine ⟨_, rfl, fun _ => ⟨rfl, rfl, rfl⟩, Or.inr ⟨by omega, fun _ => rfl⟩⟩
  | ExitTask rsp' ExitCode =>
      rw [Schedule.call] at h
      split_ifs at h with hzero
      cases h
      right
      refine ⟨_, rfl, fun _ => ⟨rfl, rfl, rfl⟩, Or.inr ⟨hzero, fun _ => rfl⟩⟩
  | msleep rsp' ms =>
      rw [Schedule.call] at h
      split_ifs at h with hms
      cases h
      right
      refine ⟨_, rfl, fun _ => ⟨rfl, rfl, rfl⟩, Or.inl fun _ => rfl⟩
  | Schedule rsp' =>
      cases h
      left
      rfl

/-- The state in which `Schedule` is called. -/
theorem Valid.call {s s' : Sched} {op : Op} {rsp : ℕ} (h : Valid s)
    (hcall : Schedule.call s op = some (s', rsp)) :
  Consistent s' ∧ Kept s s'
  := by
  rcases call_eq hcall with rfl | ⟨f, rfl, hf, hstate⟩
  · exact ⟨h.toConsistent, Kept.refl s'⟩
  · have hkept := edit_kept (fun t => ⟨(hf t).1, (hf t).2.1⟩) h.occupied
    refine ⟨?_, hkept⟩
    rcases hstate with hstate | ⟨hzero, hstate⟩
    · apply h.toConsistent.edit TASK_SLEEPING hstate hkept (by simp) (by simp)
    · apply h.toConsistent.edit TASK_ZOMBIE hstate hkept (by simp)
      intro heq
      exact absurd heq hzero

/-- A task that another one kills is marked. -/
theorem Valid.kill {s : Sched} (h : Valid s) {pid : ℤ} (hpos : 0 < pid)
    (hused : (s.TaskTable pid).state ≠ TASK_EMPTY) (hcur : pid ≠ s.CurrentTaskPID) :
  Valid (s.edit pid fun t => { t with state := TASK_ZOMBIE, ExitCode := -1 }) ∧
    Kept s (s.edit pid fun t => { t with state := TASK_ZOMBIE, ExitCode := -1 })
  := by
  have hkept : Kept s (s.edit pid fun t => { t with state := TASK_ZOMBIE, ExitCode := -1 }) :=
    edit_kept (fun _ => ⟨rfl, rfl⟩) hused
  refine ⟨⟨h.toConsistent.edit TASK_ZOMBIE (fun _ => rfl) hkept (by simp) (by omega), ?_⟩, hkept⟩
  dsimp only [edit_TaskTable, edit_CurrentTaskPID]
  rw [Function.update_of_ne (Ne.symm hcur)]
  apply h.occupied

/-! ### Runs -/

/-- An operation keeps the table valid; unless it creates a task, it takes no entry into
use. -/
theorem Valid.perform {s : Sched} (h : Valid s) (K : Kernel) (op : Op) :
  Valid (perform K s op) ∧ ((∀ c, op ≠ .create c) → Kept s (perform K s op))
  := by
  by_cases hcreate : ∃ c, op = .create c
  · obtain ⟨c, rfl⟩ := hcreate
    exact ⟨h.create K c, fun hne => absurd rfl (hne c)⟩
  · suffices hsuff : Valid (Sched.perform K s op) ∧ Kept s (Sched.perform K s op) from
      hsuff.imp id fun hkept _ => hkept
    cases hcall : Schedule.call s op with
    | none =>
        rcases perform_uncalled K hcall (not_exists.mp hcreate) with
          heq | ⟨-, pid, -, hpos, hused, hcur, heq⟩
        · rw [heq]
          exact ⟨h, Kept.refl s⟩
        · rw [heq]
          exact h.kill hpos hused hcur
    | some r =>
        obtain ⟨hs, hkept⟩ := h.call hcall
        obtain ⟨hvalid, hkept'⟩ := hs.schedule K r.2
        rw [perform_call K hcall]
        exact ⟨hvalid, hkept.trans hkept'⟩

/-- Any sequence of operations can be performed. -/
theorem run_total (s : Sched) (ls : List (Kernel × Op)) :
  ∃ t, Run Step s ls t
  := by
  induction ls generalizing s with
  | nil =>
      use s
      apply Run.nil
  | cons l ls ih =>
      obtain ⟨t, h⟩ := ih (perform l.1 s l.2)
      use t
      apply Run.cons rfl h

/-- Every state reached from `sched_init` is valid. -/
theorem reachable_valid {s₀ s : Sched} {ls : List (Kernel × Op)}
    (h : Run Step s₀.sched_init ls s) :
  Valid s
  := by
  apply h.invariant (I := Valid)
  · intro s l t hs hstep
    rw [hstep]
    apply (hs.perform l.1 l.2).1
  · apply sched_init_valid

/-- The scheduler before `sched_init`, with an empty memory. -/
def reset : Sched := ⟨fun _ => Task.zero, 0, -1, false, fun _ => 0⟩

/-- A task is created with a stack, takes the processor, fails to fork for want of a stack,
sleeps, and kills itself once it runs again. -/
theorem reachable_valid_task :
  ∃ s, Run Step reset.sched_init
      [(⟨fun m _ => (0x1000, m), fun m _ => m, 0, 0⟩, .create (.CreateTask (fun _ => 0) 0 0)),
        (heapKernel 1 0 0 0, .Schedule 0),
        (heapKernel 1 0 0 0, .create (.TaskFork 0)),
        (heapKernel 1 0 0 0, .msleep 0 20),
        (heapKernel 1 0 0 0, .Schedule 0),
        (heapKernel 1 0 0 0, .KillTask 0 1)] s ∧ Valid s
  := by
  obtain ⟨s, hrun⟩ := run_total reset.sched_init _
  use s, hrun
  apply reachable_valid hrun

/-! ### Creation that fails -/

/-- A call that creates a task leaves the table as it was, if it fails. -/
def FailsCleanly (K : Kernel) (s : Sched) (c : Creation) : Prop :=
  (create K s c).1 < 0 →
    (create K s c).2.TaskTable = s.TaskTable ∧ (create K s c).2.TaskCount = s.TaskCount

/-- Every entry in use, other than that of the kernel itself, has a stack. -/
def Stacked (s : Sched) : Prop :=
  ∀ i, Index i → i ≠ 0 → (s.TaskTable i).state ≠ TASK_EMPTY → (s.TaskTable i).kstack ≠ 0

/-- The operation is not a creation that finds an entry and no memory for the stack. -/
def Supplied (s : Sched) (l : Kernel × Op) : Prop :=
  ∀ c, l.2 = .create c → Refused s c ∨ (l.1.kmalloc s.mem 4096).1 ≠ 0

/-- A creation fails cleanly exactly when it is refused or there is memory for the stack. -/
theorem failsCleanly_iff (K : Kernel) (s : Sched) (c : Creation) :
  FailsCleanly K s c ↔ Refused s c ∨ (K.kmalloc s.mem 4096).1 ≠ 0
  := by
  by_cases href : Refused s c
  · simp [FailsCleanly, create_refused href, href]
  · have hfst := create_fst (K := K) href
    simp only [href, false_or]
    constructor
    · intro hclean hnull
      obtain ⟨id, hf, -⟩ := create_filled (K := K) href
      have htable := (hclean (hfst.mpr hnull)).1
      have hempty := (emptySlot_eq_some hf.slot).2
      have hstate := hf.state
      rw [htable, hempty] at hstate
      cases hstate
    · intro hstack hneg
      exact absurd (hfst.mp hneg) hstack

theorem Stacked.step {s t : Sched} {l : Kernel × Op} (hvalid : Valid s) (h : Stacked s)
    (hsupplied : Supplied s l) (hstep : Step s l t) :
  Stacked t
  := by
  obtain ⟨K, op⟩ := l
  rw [hstep]
  by_cases hcreate : ∃ c, op = .create c
  · obtain ⟨c, rfl⟩ := hcreate
    by_cases href : Refused s c
    · rw [perform, create_refused href]
      apply h
    · obtain ⟨id, hf, hkstack⟩ := create_filled (K := K) href
      intro i hi hne hused
      rw [perform] at hused ⊢
      by_cases heq : i = id
      · rw [heq, hkstack]
        apply (hsupplied c rfl).resolve_left href
      · rw [hf.table i heq] at hused ⊢
        apply h i hi hne hused
  · have hkept := (hvalid.perform K op).2 (not_exists.mp hcreate)
    intro i hi hne hused
    obtain ⟨hused', -, hkstack⟩ := hkept i hi hused
    rw [hkstack]
    apply h i hi hne hused'

/-- A creation fails cleanly exactly when it is refused or there is memory for the stack. In a
run whose creations all are, every entry in use has a stack. -/
theorem create_clean (s : Sched) :
  (∀ K c, FailsCleanly K s c ↔ Refused s c ∨ (K.kmalloc s.mem 4096).1 ≠ 0) ∧
    ∀ s₀ ls, Run (Restrict Step Supplied) (sched_init s₀) ls s → Stacked s
  := by
  refine ⟨fun K c => failsCleanly_iff K s c, ?_⟩
  intro s₀ ls hrun
  have hinv : Valid s ∧ Stacked s := by
    apply hrun.invariant (I := fun s => Valid s ∧ Stacked s)
    · rintro s l t ⟨hvalid, hstacked⟩ ⟨hsupplied, hstep⟩
      refine ⟨?_, hstacked.step hvalid hsupplied hstep⟩
      rw [hstep]
      apply (hvalid.perform l.1 l.2).1
    · refine ⟨sched_init_valid s₀, ?_⟩
      intro i hi hne hused
      exact absurd (sched_init_empty s₀ hi hne) hused
  apply hinv.2

/-- The scheduler just started, with a heap of one page at 4096. -/
def onePage : Sched :=
  sched_init { reset with mem := Heap.heap_init.firstHeader (fun _ => 0) 4096 8192 }

/-- A task whose stack does not fit in the heap of one page stays in the table, waiting, with
neither stack nor saved stack pointer, and `Schedule` switches to it. -/
theorem create_unclean :
  let K := heapKernel 2 4096 0 0
  let r := create K onePage (.CreateTask (fun _ => 0) 0 0)
  r.1 = -ENOMEM ∧ ¬ FailsCleanly K onePage (.CreateTask (fun _ => 0) 0 0) ∧
    (r.2.TaskTable 1).state = TASK_WAITING ∧ (r.2.TaskTable 1).kstack = 0 ∧
    (Schedule K r.2 0).1.CurrentTaskPID = 1 ∧ (Schedule K r.2 0).2 = some 0
  := by
  have hstate : ((create (heapKernel 2 4096 0 0) onePage
      (.CreateTask (fun _ => 0) 0 0)).2.TaskTable 1).state = TASK_WAITING := by decide +kernel
  refine ⟨by decide +kernel, ?_, hstate, by decide +kernel, by decide +kernel, by decide +kernel⟩
  intro hclean
  have htable := (hclean (by decide +kernel)).1
  rw [htable] at hstate
  revert hstate
  decide +kernel

/-- The same task with a stack. -/
theorem create_clean_stack :
  ∃ s, Run (Restrict Step Supplied) reset.sched_init
      [(⟨fun m _ => (0x1000, m), fun m _ => m, 0, 0⟩, .create (.CreateTask (fun _ => 0) 0 0))] s ∧
    Stacked s
  := by
  refine ⟨_, Run.cons ⟨?_, rfl⟩ (Run.nil _), (create_clean _).2 reset _ (Run.cons ⟨?_, rfl⟩ (Run.nil _))⟩
  all_goals
    intro c _
    right
    decide

end Sched
