import LySystem.Sched.Priority
import LySystem.Sched.Stacks

/-!
# The stack the scheduler runs on

`Schedule` reaps every zombie it finds, and it may find the task on whose stack it runs: that
of `ExitTask`, which marks itself a zombie and calls `Schedule`.
-/

namespace Sched

open TaskState Transition

/-- What `kmalloc` gives for a stack, if anything, is no block in use. -/
def Provided (a : Account) (l : Kernel × Op) : Prop :=
  ∀ b ∈ allocates l.1 a.sched l.2, b ≠ 0 → ¬ a.Live b

/-- The operation ends the current task: it is its `ExitTask`, or it kills it. -/
def EndsCurrent (s : Sched) (op : Op) : Prop :=
  s.CurrentTaskPID ≠ 0 ∧
    ((∃ rsp ExitCode, op = .ExitTask rsp ExitCode) ∨ ∃ rsp, op = .KillTask rsp s.CurrentTaskPID)

/-- The stack of the current task, 0 for a task without one. -/
def ownStack (s : Sched) : ℕ := (s.TaskTable s.CurrentTaskPID).kstack

/-- The current task has not ended, and every stack of the table is a block in use, and the stack
of one task only. -/
structure Owned (a : Account) : Prop where
  valid : Valid a.sched
  idle : (a.sched.TaskTable 0).kstack = 0
  alive : (a.sched.TaskTable a.sched.CurrentTaskPID).state ≠ TASK_ZOMBIE
  live : ∀ i b, b ≠ 0 → Holds a.sched i b → a.Live b
  distinct : ∀ i j b, b ≠ 0 → Holds a.sched i b → Holds a.sched j b → i = j
  count : ∀ b, b ≠ 0 → a.freed.count b ≤ a.allocated.count b ∧
    a.allocated.count b ≤ a.freed.count b + 1

/-! ### What is freed -/

/-- A zombie is gone after `Schedule`. -/
theorem schedule_reaped {s : Sched} (h : Consistent s) (K : Kernel) (rsp : ℕ) {i : ℤ}
    (hi : Index i) (hpos : 0 < i) (hzombie : (s.TaskTable i).state = TASK_ZOMBIE) :
  ((Schedule K s rsp).1.TaskTable i).state = TASK_EMPTY
  := by
  have hempty : (Schedule.settled i (s.TaskTable i)).state = TASK_EMPTY := by
    rw [Schedule.settled, if_pos ⟨hpos, hzombie⟩]
    rfl
  have hs := h.settle K
  have hentry := settle_entry K s hi
  rw [Schedule, if_neg (by simp [h.started])]
  dsimp only
  generalize (List.range MAX_TASK_COUNT).foldl (Schedule.settle K) s = s' at hs hentry
  rw [← hentry] at hempty
  have hswitch : ∀ next, (s'.TaskTable next).state ≠ TASK_EMPTY →
      ((Schedule.switch s' rsp next).1.TaskTable i).state = TASK_EMPTY := by
    intro next hnext
    by_contra hused
    exact (switch_kept rsp hnext i hi hused).1 hempty
  split_ifs with hnone
  · exact hempty
  · exact hswitch 0 hs.idle.1
  · apply hswitch
    rw [((next_pid_eq hs.current).resolve_left hnone).2]
    simp

/-- `Schedule` leaves no zombie behind. -/
theorem schedule_no_zombie {s : Sched} (h : Consistent s) (K : Kernel) (rsp : ℕ) {i : ℤ}
    (hi : Index i) :
  ((Schedule K s rsp).1.TaskTable i).state ≠ TASK_ZOMBIE
  := by
  have hs := h.settle K
  have hsettled : (((List.range MAX_TASK_COUNT).foldl (Schedule.settle K) s).TaskTable i).state ≠
      TASK_ZOMBIE := by
    by_cases hzero : i = 0
    · rw [hzero]
      exact hs.idle.2
    · have hpos : 0 < i := by
        have := hi.1
        omega
      rw [settle_entry K s hi]
      rcases settled_eq i (s.TaskTable i) with ⟨-, -, heq⟩ | ⟨-, -, heq | ⟨-, heq⟩⟩
      · simp [heq]
      · intro hzombie
        rw [Schedule.settled, if_pos ⟨hpos, heq.symm.trans hzombie⟩] at hzombie
        cases hzombie
      · simp [heq]
  rw [Schedule, if_neg (by simp [h.started])]
  dsimp only
  generalize (List.range MAX_TASK_COUNT).foldl (Schedule.settle K) s = s' at hs hsettled
  have hswitch : ∀ next,
      ((Schedule.switch s' rsp next).1.TaskTable i).state ≠ TASK_ZOMBIE := by
    intro next
    by_cases hne : next = s'.CurrentTaskPID
    · rw [Schedule.switch, if_pos hne]
      exact hsettled
    · rw [switch_state hne]
      split_ifs
      · simp
      · simp
      · exact hsettled
  split_ifs
  · exact hsettled
  · exact hswitch 0
  · exact hswitch _

theorem mem_reap {s : Sched} {i : ℕ} {b : ℕ} :
  b ∈ Schedule.reap s i ↔
    0 < i ∧ (s.TaskTable i).state = TASK_ZOMBIE ∧ b ≠ 0 ∧ (s.TaskTable i).kstack = b
  := by
  rw [Schedule.reap]
  split_ifs with h
  · rw [List.mem_singleton]
    constructor
    · rintro rfl
      exact ⟨h.1, h.2.1, h.2.2, rfl⟩
    · rintro ⟨-, -, -, rfl⟩
      rfl
  · simp only [List.not_mem_nil, false_iff]
    rintro ⟨hpos, hzombie, hne, rfl⟩
    exact h ⟨hpos, hzombie, hne⟩

/-- The blocks an operation frees are the stacks of the zombies its call of `Schedule` finds. -/
theorem mem_frees {s s' : Sched} {op : Op} {rsp b : ℕ} (hcall : Schedule.call s op = some (s', rsp)) :
  b ∈ frees s op ↔ b ≠ 0 ∧ ∃ i, Holds s' i b ∧ (s'.TaskTable i).state = TASK_ZOMBIE
  := by
  rw [frees, hcall]
  simp only [List.mem_flatMap, List.mem_range, mem_reap]
  constructor
  · rintro ⟨n, hn, hpos, hzombie, hne, heq⟩
    exact ⟨hne, n, ⟨index_cast hn, by omega, by simp [hzombie], heq⟩, hzombie⟩
  · rintro ⟨hne, i, ⟨⟨hlo, hhi⟩, hi, -, heq⟩, hzombie⟩
    lift i to ℕ using hlo
    exact ⟨i, by omega, by omega, hzombie, hne, heq⟩

theorem Holds.kept {s s' : Sched} {i : ℤ} {b : ℕ} (h : Holds s' i b) (hkept : Kept s s') :
  Holds s i b
  := by
  obtain ⟨hi, hne, hused, heq⟩ := h
  obtain ⟨hold, -, hkstack⟩ := hkept i hi hused
  exact ⟨hi, hne, hold, hkstack.symm.trans heq⟩

/-- A block that is freed was the stack of a task, which is gone afterwards. -/
theorem frees_reaped {s : Sched} (h : Valid s) (K : Kernel) {op : Op} {b : ℕ} (hb : b ∈ frees s op) :
  b ≠ 0 ∧ ∃ i, Holds s i b ∧ ((perform K s op).TaskTable i).state = TASK_EMPTY
  := by
  cases hcall : Schedule.call s op with
  | none =>
      rw [frees, hcall] at hb
      cases hb
  | some r =>
      obtain ⟨s', rsp⟩ := r
      obtain ⟨hs', hkept⟩ := h.call hcall
      obtain ⟨hne, i, hholds, hzombie⟩ := (mem_frees hcall).mp hb
      refine ⟨hne, i, hholds.kept hkept, ?_⟩
      obtain ⟨hi, hi0, -⟩ := hholds
      rw [perform_call K hcall]
      apply schedule_reaped hs' K rsp hi _ hzombie
      have := hi.1
      omega

/-- With distinct stacks, an operation frees each block once. -/
theorem frees_nodup {s : Sched} (h : Valid s)
    (hdistinct : ∀ i j b, b ≠ 0 → Holds s i b → Holds s j b → i = j) (op : Op) :
  (frees s op).Nodup
  := by
  cases hcall : Schedule.call s op with
  | none =>
      rw [frees, hcall]
      exact List.nodup_nil
  | some r =>
      obtain ⟨s', rsp⟩ := r
      obtain ⟨-, hkept⟩ := h.call hcall
      rw [frees, hcall, List.nodup_flatMap]
      constructor
      · intro i _
        rw [Schedule.reap]
        split_ifs
        · exact List.nodup_singleton _
        · exact List.nodup_nil
      · apply List.Pairwise.imp_of_mem _ List.pairwise_lt_range
        intro i j hi hj hij b hbi hbj
        rw [mem_reap] at hbi hbj
        obtain ⟨hpos, hzombie, hne, heq⟩ := hbi
        obtain ⟨hpos', hzombie', -, heq'⟩ := hbj
        have hholds : Holds s' i b :=
          ⟨index_cast (List.mem_range.mp hi), by omega, by simp [hzombie], heq⟩
        have hholds' : Holds s' j b :=
          ⟨index_cast (List.mem_range.mp hj), by omega, by simp [hzombie'], heq'⟩
        have := hdistinct i j b hne (hholds.kept hkept) (hholds'.kept hkept)
        omega

/-! ### Runs -/

/-- A stack of the new table is one of the old table, or the new one. -/
theorem Filled.holds {s s' : Sched} {id new : ℕ} (hf : Filled s s' id)
    (hkstack : (s'.TaskTable id).kstack = new) {i : ℤ} {b : ℕ} (h : Holds s' i b) :
  i = id ∧ b = new ∨ i ≠ id ∧ Holds s i b
  := by
  obtain ⟨hi, hne, hused, heq⟩ := h
  by_cases hid : i = id
  · left
    subst hid
    exact ⟨rfl, heq.symm.trans hkstack⟩
  · right
    refine ⟨hid, hi, hne, ?_, ?_⟩
    · rw [← hf.table i hid]
      exact hused
    · rw [← hf.table i hid]
      exact heq

/-- A creation keeps the account. -/
theorem Owned.create {a : Account} (h : Owned a) (K : Kernel) (c : Creation)
    (hprovided : Provided a (K, .create c)) :
  Owned (a.perform (K, .create c))
  := by
  have hvalid := (h.valid.perform K (.create c)).1
  have hfreed : (a.perform (K, .create c)).freed = a.freed := List.append_nil _
  by_cases href : Refused a.sched c
  · have hsame : a.perform (K, .create c) = a := by
      rw [Account.perform, Sched.perform, create_refused href, allocates_refused href]
      simp [frees, Schedule.call]
    rw [hsame]
    exact h
  · obtain ⟨id, hf, hkstack⟩ := create_filled (K := K) href
    have hallocated : (a.perform (K, .create c)).allocated =
        a.allocated ++ [(K.kmalloc a.sched.mem 4096).1] := by
      rw [Account.perform, allocates_create href]
    have hnew : (K.kmalloc a.sched.mem 4096).1 ≠ 0 → ¬ a.Live (K.kmalloc a.sched.mem 4096).1 := by
      apply hprovided
      rw [allocates_create href]
      exact List.mem_singleton_self _
    generalize (K.kmalloc a.sched.mem 4096).1 = new at hkstack hallocated hnew
    have hold : ∀ i b, Holds (a.perform (K, .create c)).sched i b →
        i = id ∧ b = new ∨ i ≠ id ∧ Holds a.sched i b :=
      fun i b => hf.holds hkstack
    have hcount : ∀ b, (a.perform (K, .create c)).allocated.count b =
        a.allocated.count b + if new = b then 1 else 0 := by
      intro b
      rw [hallocated, List.count_append, List.count_singleton]
      simp
    have hslot := (emptySlot_eq_some hf.slot).2
    refine ⟨hvalid, ?_, ?_, ?_, ?_, ?_⟩
    · have hzero : (0 : ℤ) ≠ id := by
        intro heq
        apply h.valid.idle.1
        rw [heq, hslot]
      rw [Account.perform, Sched.perform, hf.table 0 hzero]
      exact h.idle
    · have hcur : a.sched.CurrentTaskPID ≠ id := by
        intro heq
        apply h.valid.occupied
        rw [heq, hslot]
      rw [Account.perform, Sched.perform, hf.current, hf.table _ hcur]
      exact h.alive
    · intro i b hb hholds
      rw [Account.Live, hfreed, hcount]
      rcases hold i b hholds with ⟨-, rfl⟩ | ⟨-, hholds⟩
      · have := (h.count b hb).1
        rw [if_pos rfl]
        omega
      · have := h.live i b hb hholds
        rw [Account.Live] at this
        omega
    · intro i j b hb hi hj
      rcases hold i b hi with ⟨rfl, rfl⟩ | ⟨-, hi⟩ <;> rcases hold j b hj with ⟨hjid, hjb⟩ | ⟨-, hj⟩
      · exact hjid.symm
      · exact absurd (h.live j _ hb hj) (hnew hb)
      · rw [hjb] at hi hb
        exact absurd (h.live i _ hb hi) (hnew hb)
      · exact h.distinct i j b hb hi hj
    · intro b hb
      obtain ⟨hle, hlt⟩ := h.count b hb
      rw [hfreed, hcount]
      split_ifs with hnewb
      · subst hnewb
        have := hnew hb
        rw [Account.Live] at this
        omega
      · omega

/-- An operation that creates no task keeps the account. -/
theorem Owned.other {a : Account} (h : Owned a) (K : Kernel) {op : Op}
    (hother : ∀ c, op ≠ .create c) :
  Owned (a.perform (K, op))
  := by
  obtain ⟨hvalid, hkept⟩ := h.valid.perform K op
  have hallocated : (a.perform (K, op)).allocated = a.allocated := by
    rw [Account.perform, allocates_other hother, List.append_nil]
  have hcount : ∀ b, (a.perform (K, op)).freed.count b =
      a.freed.count b + (frees a.sched op).count b :=
    fun b => List.count_append
  have honce := fun b => List.nodup_iff_count_le_one.mp (frees_nodup h.valid h.distinct op) b
  refine ⟨hvalid, ?_, ?_, ?_, ?_, ?_⟩
  · obtain ⟨-, -, hkstack⟩ := hkept hother 0 index_zero hvalid.idle.1
    exact hkstack.trans h.idle
  · dsimp only [Account.perform]
    cases hcall : Schedule.call a.sched op with
    | none =>
        rcases perform_uncalled K hcall hother with heq | ⟨-, pid, -, -, -, hpid, heq⟩
        · rw [heq]
          exact h.alive
        · rw [heq, edit_CurrentTaskPID, edit_TaskTable, Function.update_of_ne hpid.symm]
          exact h.alive
    | some r =>
        obtain ⟨s', rsp⟩ := r
        rw [perform_call K hcall]
        have hs' := (h.valid.call hcall).1
        exact schedule_no_zombie hs' K rsp (hs'.schedule K rsp).1.current
  · intro i b hb hholds
    have hheld := hholds.kept (hkept hother)
    -- What is still held is not freed: the task that held what is freed is gone.
    have hnot : b ∉ frees a.sched op := by
      intro hmem
      obtain ⟨-, j, hj, hempty⟩ := frees_reaped h.valid K hmem
      obtain rfl := h.distinct i j b hb hheld hj
      exact hholds.2.2.1 hempty
    have hlive := h.live i b hb hheld
    rw [Account.Live, hallocated, hcount, List.count_eq_zero_of_not_mem hnot]
    exact hlive
  · intro i j b hb hi hj
    exact h.distinct i j b hb (hi.kept (hkept hother)) (hj.kept (hkept hother))
  · intro b hb
    obtain ⟨hle, hlt⟩ := h.count b hb
    rw [hallocated, hcount]
    by_cases hmem : b ∈ frees a.sched op
    · obtain ⟨-, i, hi, -⟩ := frees_reaped h.valid K hmem
      have hlive := h.live i b hb hi
      have hle' := honce b
      rw [Account.Live] at hlive
      omega
    · rw [List.count_eq_zero_of_not_mem hmem]
      omega

theorem Owned.step {a a' : Account} {l : Kernel × Op} (h : Owned a) (hprovided : Provided a l)
    (hstep : Account.Step a l a') :
  Owned a'
  := by
  obtain ⟨K, op⟩ := l
  rw [hstep]
  by_cases hcreate : ∃ c, op = .create c
  · obtain ⟨c, rfl⟩ := hcreate
    exact h.create K c hprovided
  · exact h.other K (not_exists.mp hcreate)

theorem start_owned (s : Sched) :
  Owned (Account.start s)
  := by
  have hnone : ∀ i b, ¬ Holds s.sched_init i b := by
    rintro i b ⟨hi, hne, hused, -⟩
    exact hused (sched_init_empty s hi hne)
  refine ⟨sched_init_valid s, ?_, ?_, ?_, ?_, ?_⟩
  · simp [Account.start, sched_init]
  · simp [Account.start, sched_init]
  · intro i b _ hholds
    exact absurd hholds (hnone i b)
  · intro i j b _ hholds
    exact absurd hholds (hnone i b)
  · intro b _
    simp [Account.start]

theorem run_owned {s₀ : Sched} {ls : List (Kernel × Op)} {a : Account}
    (h : Run (Restrict Account.Step Provided) (Account.start s₀) ls a) :
  Owned a
  := by
  apply h.invariant (I := Owned)
  · rintro a l a' ha ⟨hprovided, hstep⟩
    exact ha.step hprovided hstep
  · apply start_owned

/-! ### Every call of `Schedule` -/

/-- The current task when `Schedule` is called is a zombie exactly when the operation ends it. -/
theorem call_zombie {s s' : Sched} {op : Op} {rsp : ℕ}
    (halive : (s.TaskTable s.CurrentTaskPID).state ≠ TASK_ZOMBIE)
    (hcall : Schedule.call s op = some (s', rsp)) :
  (s'.TaskTable s'.CurrentTaskPID).state = TASK_ZOMBIE ↔ EndsCurrent s op
  := by
  rw [EndsCurrent]
  cases op with
  | create c => cases hcall
  | KillTask rsp' pid =>
      rw [Schedule.call] at hcall
      split_ifs at hcall with hself
      obtain ⟨hpos, -, -, rfl⟩ := hself
      cases hcall
      apply iff_of_true
      · simp
      · exact ⟨by omega, Or.inr ⟨_, rfl⟩⟩
  | ExitTask rsp' ExitCode =>
      rw [Schedule.call] at hcall
      split_ifs at hcall with hzero
      cases hcall
      apply iff_of_true
      · simp
      · exact ⟨hzero, Or.inl ⟨_, ExitCode, rfl⟩⟩
  | msleep rsp' ms =>
      rw [Schedule.call] at hcall
      split_ifs at hcall
      cases hcall
      apply iff_of_false
      · simp
      · simp
  | Schedule rsp' =>
      cases hcall
      apply iff_of_false halive
      simp

/-- On the way to its call of `Schedule` an operation changes neither the current task nor its
stack. -/
theorem call_ownStack {s s' : Sched} {op : Op} {rsp : ℕ}
    (hcall : Schedule.call s op = some (s', rsp)) :
  s'.CurrentTaskPID = s.CurrentTaskPID ∧ ownStack s' = ownStack s
  := by
  rcases call_eq hcall with rfl | ⟨f, rfl, hf, -⟩
  · exact ⟨rfl, rfl⟩
  · refine ⟨rfl, ?_⟩
    rw [ownStack, ownStack, edit_CurrentTaskPID, edit_TaskTable, Function.update_self, (hf _).2.1]

/-- `Schedule`, called by any operation in any reachable state, leaves the stack it runs on
alone, and in use, exactly when the operation does not end the current task, or that task has no
stack. -/
theorem own_stack_kept {s₀ : Sched} {ls : List (Kernel × Op)} {a : Account}
    (h : Run (Restrict Account.Step Provided) (Account.start s₀) ls a) {op : Op} {s' : Sched}
    {rsp : ℕ} (hcall : Schedule.call a.sched op = some (s', rsp)) (K : Kernel) :
  (Schedule K s' rsp).1.mem = (frees a.sched op).foldl K.kfree s'.mem ∧
    (ownStack s' ∉ frees a.sched op ∧
        (ownStack s' ≠ 0 → (a.perform (K, op)).Live (ownStack s')) ↔
      ¬ (EndsCurrent a.sched op ∧ ownStack a.sched ≠ 0))
  := by
  have ha := run_owned h
  obtain ⟨hs', hkept⟩ := ha.valid.call hcall
  obtain ⟨hcur, hown⟩ := call_ownStack hcall
  have hmem : (Schedule K s' rsp).1.mem = (frees a.sched op).foldl K.kfree s'.mem := by
    rw [Schedule_mem rsp hs'.started, frees, hcall]
  refine ⟨hmem, ?_⟩
  have hother : ∀ c, op ≠ .create c := by
    rintro c rfl
    cases hcall
  have hallocated : (a.perform (K, op)).allocated = a.allocated := by
    rw [Account.perform, allocates_other hother, List.append_nil]
  have hcount : ∀ b, (a.perform (K, op)).freed.count b =
      a.freed.count b + (frees a.sched op).count b :=
    fun b => List.count_append
  -- A task with a stack is not the idle one.
  have hholds : ownStack s' ≠ 0 → Holds a.sched a.sched.CurrentTaskPID (ownStack s') := by
    intro hne
    refine ⟨ha.valid.current, ?_, ha.valid.occupied, hown.symm⟩
    intro hzero
    apply hne
    rw [hown, ownStack, hzero, ha.idle]
  -- The stack is freed if the current task is a zombie, since it is no other task's.
  have hfreed : ownStack s' ∈ frees a.sched op ↔
      EndsCurrent a.sched op ∧ ownStack a.sched ≠ 0 := by
    rw [mem_frees hcall, ← call_zombie ha.alive hcall, hown]
    constructor
    · rintro ⟨hne, i, hi, hzombie⟩
      have heq := ha.distinct _ _ _ hne (hown ▸ hholds (hown ▸ hne)) (hi.kept hkept)
      rw [hcur, heq]
      exact ⟨hzombie, hne⟩
    · rintro ⟨hzombie, hne⟩
      obtain ⟨hindex, hzero, -, hkstack⟩ := hholds (hown ▸ hne)
      refine ⟨hne, s'.CurrentTaskPID, ⟨hs'.current, ?_, ?_, hown⟩, hzombie⟩
      · rw [hcur]
        exact hzero
      · simp [hzombie]
  constructor
  · rintro ⟨hnot, -⟩ hends
    exact hnot (hfreed.mpr hends)
  · intro hnot
    have hmem' := mt hfreed.mp hnot
    refine ⟨hmem', ?_⟩
    intro hne
    have hlive := ha.live _ _ hne (hholds hne)
    rw [Account.Live, hallocated, hcount, List.count_eq_zero_of_not_mem hmem']
    exact hlive

/-- A kernel whose heap has one block for a stack. -/
def oneStack : Kernel := ⟨fun m _ => (0x1000, m), fun m _ => m, 0, 0⟩

/-- A task has been created and has taken the processor. -/
def firstTask : Account :=
  ((Account.start reset).perform (oneStack, .create (.CreateTask (fun _ => 0) 0 0))).perform
    (oneStack, .Schedule 0)

theorem firstTask_reached :
  Run (Restrict Account.Step Provided) (Account.start reset)
    [(oneStack, .create (.CreateTask (fun _ => 0) 0 0)), (oneStack, .Schedule 0)] firstTask
  := by
  refine Run.cons ⟨?_, rfl⟩ (Run.cons ⟨?_, rfl⟩ (Run.nil _))
  all_goals
    unfold Provided Account.Live
    decide +kernel

/-- A tick of the timer leaves the stack of the task alone. -/
theorem own_stack_kept_tick :
  ownStack firstTask.sched ∉ frees firstTask.sched (.Schedule 0x1F00)
  := by
  have hkept := own_stack_kept firstTask_reached
    (show Schedule.call firstTask.sched (.Schedule 0x1F00) = _ from rfl) oneStack
  refine (hkept.2.mpr ?_).1
  rintro ⟨⟨-, ⟨_, _, hop⟩ | ⟨_, hop⟩⟩, -⟩
  · cases hop
  · cases hop

/-- The stack of the task is freed while it runs on it when it ends itself. -/
theorem own_stack_freed :
  Run (Restrict Account.Step Provided) (Account.start reset)
      [(oneStack, .create (.CreateTask (fun _ => 0) 0 0)), (oneStack, .Schedule 0)] firstTask ∧
    ∃ s', Schedule.call firstTask.sched (.ExitTask 0x1F00 0) = some (s', 0x1F00) ∧
      ownStack s' = 0x1000 ∧ 0x1000 ∈ frees firstTask.sched (.ExitTask 0x1F00 0) ∧
      ¬ (firstTask.perform (oneStack, .ExitTask 0x1F00 0)).Live 0x1000
  := by
  have hcur : firstTask.sched.CurrentTaskPID ≠ 0 := by decide +kernel
  refine ⟨firstTask_reached, firstTask.sched.edit firstTask.sched.CurrentTaskPID fun t =>
    { t with state := TASK_ZOMBIE, ExitCode := 0 }, ?_, ?_, ?_, ?_⟩
  · rw [Schedule.call, if_neg hcur]
  · decide +kernel
  · decide +kernel
  · unfold Account.Live
    decide +kernel

end Sched
