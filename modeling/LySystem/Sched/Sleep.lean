import LySystem.Sched.Priority

/-!
# Sleeping

`kernel/IRQ/timer.c`, and `timer_callback` of `kernel/IRQ/traps.c`.  `msleep` sets a countdown
in units of the timer, but every call of `Schedule` lowers it, whether the timer makes it or
not.
-/

namespace Sched

open TaskState Transition

/-- The scheduler, and the ticks since the start. -/
structure Timer where
  sched : Sched
  ticks : ℕ

def timer_callback (K : Kernel) (s : Timer) (rsp : ℕ) : Timer where
  sched := (Schedule K s.sched rsp).1
  ticks := u64 (s.ticks + 1)

/-- The timer interrupts, with the stack pointer of the task it interrupts, or a task performs an
operation. -/
inductive Event where
  | timer_callback (rsp : ℕ)
  | call (op : Op)

def Timer.perform (K : Kernel) (s : Timer) : Event → Timer
  | .timer_callback rsp => timer_callback K s rsp
  | .call op => { s with sched := Sched.perform K s.sched op }

/-- What the event is for the scheduler. -/
def Event.op : Event → Op
  | .timer_callback rsp => .Schedule rsp
  | .call op => op

theorem Timer.perform_sched (K : Kernel) (s : Timer) (e : Event) :
  (s.perform K e).sched = Sched.perform K s.sched e.op
  := by
  cases e with
  | timer_callback rsp => rfl
  | call op => rfl

def Timer.Step (s : Timer) (l : Kernel × Event) (t : Timer) : Prop := t = s.perform l.1 l.2

/-- The number of ticks in a run. -/
def tickCount (ls : List (Kernel × Event)) : ℕ :=
  ls.countP fun l => match l.2 with
    | .timer_callback _ => true
    | .call _ => false

/-- The task `p` is not killed. -/
def Spares (p : ℤ) (op : Op) : Prop := ∀ rsp, op ≠ .KillTask rsp p

@[inherit_doc Spares]
def EventSpares (p : ℤ) (e : Event) : Prop := ∀ rsp, e ≠ .call (.KillTask rsp p)

/-- The current task, when it calls `msleep(ms)`, gets the processor back after `ms / 10` ticks at
the earliest, whatever happens until then, unless it is killed. -/
def Undisturbed (s : Timer) (ms : ℕ) : Prop :=
  let p := s.sched.CurrentTaskPID
  ∀ K rsp ls t,
    Run (Restrict Timer.Step fun _ l => EventSpares p l.2)
        (s.perform K (.call (.msleep rsp ms))) ls t →
      t.sched.CurrentTaskPID = p → ms / 10 ≤ tickCount ls

/-! ### Entries that cannot be chosen -/

/-- The entry is empty, or will be at the next call of `Schedule`. -/
def Dead (t : Task) : Prop := t.state = TASK_EMPTY ∨ t.state = TASK_ZOMBIE

/-- The task waits or sleeps. -/
def Dormant (t : Task) : Prop := t.state = TASK_WAITING ∨ t.state = TASK_SLEEPING

theorem Dead.not_ready {t : Task} (h : Dead t) :
  ¬ Ready t
  := by
  rintro (hw | ⟨hs, -⟩)
  · rcases h with h | h
    · simp [hw] at h
    · simp [hw] at h
  · rcases h with h | h
    · simp [hs] at h
    · simp [hs] at h

theorem Dead.schedule {s : Sched} (h : Consistent s) (K : Kernel) (rsp : ℕ) {i : ℤ} (hi : Index i)
    (hzero : i ≠ 0) (hdead : Dead (s.TaskTable i))
    (hne : i ≠ (Schedule K s rsp).1.CurrentTaskPID) :
  Dead ((Schedule K s rsp).1.TaskTable i)
  := by
  have hpos : 0 < i := lt_of_le_of_ne hi.1 hzero.symm
  have hempty : (Schedule.settled i (s.TaskTable i)).state = TASK_EMPTY := by
    rw [Schedule.settled]
    rcases hdead with hdead | hdead
    · simp [hdead]
    · simp [hdead, hpos, Task.zero]
  left
  rw [schedule_state h.started K rsp hi hne, hempty, if_neg]
  simp

theorem Dormant.schedule {s : Sched} (h : Consistent s) (K : Kernel) (rsp : ℕ) {i : ℤ}
    (hi : Index i) (hdormant : Dormant (s.TaskTable i))
    (hne : i ≠ (Schedule K s rsp).1.CurrentTaskPID) :
  Dormant ((Schedule K s rsp).1.TaskTable i) ∧
    ((Schedule K s rsp).1.TaskTable i).msleep =
      (Schedule.settled i (s.TaskTable i)).msleep
  := by
  constructor
  · have hsettled : Dormant (Schedule.settled i (s.TaskTable i)) := by
      rcases hdormant with hw | hs
      · left
        rw [settled_waiting]
        left
        exact hw
      · rw [Dormant, Schedule.settled, if_neg (by simp [hs]), if_pos hs, wake_state]
        split_ifs
        · left
          rfl
        · right
          exact hs
    rw [Dormant, schedule_state h.started K rsp hi hne, if_neg]
    · exact hsettled
    · rintro ⟨-, hrun⟩
      rcases hsettled with hw | hs
      · simp [hrun] at hw
      · simp [hrun] at hs
  · obtain ⟨st, r, heq⟩ := schedule_entry h.started K rsp hi
    rw [heq]

/-- With two entries left that can be chosen, `Schedule` goes to one of the two, unless the current
task runs. -/
theorem schedule_cornered {s : Sched} {p : ℤ} (h : Consistent s) (hnonneg : NonNegative s) (K : Kernel)
    (rsp : ℕ) (hdead : ∀ i, Index i → i ≠ 0 → i ≠ p → Dead (s.TaskTable i))
    (hrun : (s.TaskTable s.CurrentTaskPID).state ≠ TASK_RUNNING) :
  (Schedule K s rsp).1.CurrentTaskPID = 0 ∨ (Schedule K s rsp).1.CurrentTaskPID = p
  := by
  by_cases hsome : ∃ i, Index i ∧ Ready (s.TaskTable i)
  · obtain ⟨i, hi, hready⟩ := hsome
    obtain ⟨hc, hcready, -⟩ := schedule_ready h hnonneg K rsp hi hready
    by_contra hnone
    obtain ⟨hzero, hp⟩ := not_or.mp hnone
    exact (hdead _ hc hzero hp).not_ready hcready
  · left
    rw [schedule_unready h K rsp, if_neg hrun]
    intro i hi hready
    exact hsome ⟨i, hi, hready⟩

/-! ### The other tasks bring a sleeper back -/

/-- From `s` operations that do not kill `p` lead to `t`. -/
def Leads (p : ℤ) (s t : Sched) : Prop :=
  ∃ ls, Run (Restrict Step fun _ l => Spares p l.2) s ls t

theorem Leads.step {p : ℤ} {s t : Sched} (K : Kernel) {op : Op} (hop : Spares p op)
    (h : Leads p (perform K s op) t) :
  Leads p s t
  := by
  obtain ⟨ls, hrun⟩ := h
  have hstep : Restrict Step (fun _ l => Spares p l.2) s (K, op) (perform K s op) := ⟨hop, rfl⟩
  use (K, op) :: ls
  apply Run.cons hstep hrun

theorem Leads.refl (p : ℤ) (s : Sched) :
  Leads p s s
  := ⟨[], Run.nil s⟩

theorem Leads.trans {p : ℤ} {s t u : Sched} (h : Leads p s t) (h' : Leads p t u) :
  Leads p s u
  := by
  obtain ⟨ls, hrun⟩ := h
  obtain ⟨ls', hrun'⟩ := h'
  use ls ++ ls'
  apply hrun.append hrun'

theorem Leads.keeps {p : ℤ} {s t : Sched} (h : Leads p s t) (hs : Valid s ∧ NonNegative s) :
  Valid t ∧ NonNegative t
  := by
  obtain ⟨ls, hrun⟩ := h
  apply hrun.invariant (I := fun s => Valid s ∧ NonNegative s) _ hs
  rintro s l t ⟨hvalid, hp⟩ ⟨-, hstep⟩
  rw [hstep]
  exact ⟨(hvalid.perform l.1 l.2).1, hp.perform hvalid l.1 l.2⟩

/-- The current task kills a task in entry `i`, if there is one. -/
theorem killTask_other (K : Kernel) {s : Sched} (rsp : ℕ) {i : ℤ} (hi : Index i) (hzero : i ≠ 0)
    (hcur : i ≠ s.CurrentTaskPID) :
  (perform K s (.KillTask rsp i)).CurrentTaskPID = s.CurrentTaskPID ∧
    Dead ((perform K s (.KillTask rsp i)).TaskTable i) ∧
    ∀ j ≠ i, (perform K s (.KillTask rsp i)).TaskTable j = s.TaskTable j
  := by
  have hpos : 0 < i := lt_of_le_of_ne hi.1 hzero.symm
  have hlt := hi.2
  rw [perform, KillTask, if_neg (by omega)]
  by_cases hempty : (s.TaskTable i).state = TASK_EMPTY
  · rw [if_pos hempty]
    exact ⟨rfl, Or.inl hempty, fun _ _ => rfl⟩
  · rw [if_neg hempty, if_neg hcur]
    refine ⟨rfl, Or.inr ?_, ?_⟩
    · simp
    · intro j hj
      simp [hj]

/-- The current task kills others one after the other. -/
theorem killTask_all (K : Kernel) {p : ℤ} (l : List ℤ) (s : Sched)
    (hl : ∀ i ∈ l, Index i ∧ i ≠ 0 ∧ i ≠ s.CurrentTaskPID ∧ i ≠ p) :
  ∃ t, Leads p s t ∧ t.CurrentTaskPID = s.CurrentTaskPID ∧
    (∀ i ∈ l, Dead (t.TaskTable i)) ∧ ∀ i, i ∉ l → t.TaskTable i = s.TaskTable i
  := by
  induction l generalizing s with
  | nil =>
      use s, Leads.refl p s, rfl
      simp
  | cons i l ih =>
      obtain ⟨hi, hzero, hcur, hp⟩ := hl i List.mem_cons_self
      obtain ⟨hcurrent, hkilled, hother⟩ := killTask_other K 0 hi hzero hcur
      obtain ⟨t, hleads, ht, hdead, hkept⟩ := ih (perform K s (.KillTask 0 i)) (by
        intro j hj
        rw [hcurrent]
        exact hl j (List.mem_cons_of_mem i hj))
      refine ⟨t, hleads.step K ?_, ht.trans hcurrent, ?_, ?_⟩
      · rintro rsp ⟨⟩
        exact hp rfl
      · intro j hj
        by_cases hmem : j ∈ l
        · exact hdead j hmem
        · obtain rfl := (List.mem_cons.mp hj).resolve_right hmem
          rw [hkept j hmem]
          exact hkilled
      · intro j hj
        obtain ⟨hne, hmem⟩ := not_or.mp (mt List.mem_cons.mpr hj)
        rw [hkept j hmem, hother j hne]

/-- Only `p` and entry 0 can be chosen, and entry 0 has the processor. -/
structure Alone (p : ℤ) (s : Sched) : Prop where
  holds : Valid s ∧ NonNegative s
  current : s.CurrentTaskPID = 0
  index : Index p
  ne_zero : p ≠ 0
  dormant : Dormant (s.TaskTable p)
  dead : ∀ i, Index i → i ≠ 0 → i ≠ p → Dead (s.TaskTable i)

/-- The current task gives up the processor, when it is the last besides `p` and entry 0 that could
be chosen. -/
theorem Alone.of_halt {p : ℤ} {s : Sched} {op : Op} {f : Task → Task} {rsp : ℕ} (K : Kernel)
    (hs : Valid s ∧ NonNegative s)
    (hcall : Schedule.call s op = some (s.edit s.CurrentTaskPID f, rsp))
    (hhalt : (f (s.TaskTable s.CurrentTaskPID)).state ≠ TASK_RUNNING) (hp : Index p)
    (hcur : p ≠ s.CurrentTaskPID) (hdormant : Dormant (s.TaskTable p))
    (hdead : ∀ i, Index i → i ≠ 0 → i ≠ p → Dead ((s.edit s.CurrentTaskPID f).TaskTable i)) :
  (perform K s op).CurrentTaskPID = p ∨
    Alone p (perform K s op) ∧ ((perform K s op).TaskTable p).msleep =
      (Schedule.settled p (s.TaskTable p)).msleep
  := by
  obtain ⟨hvalid, hnonneg⟩ := hs
  have hcons := (hvalid.call hcall).1
  have hchoice := schedule_cornered hcons (hnonneg.call hcall) K rsp hdead (by simpa using hhalt)
  have hkeeps : Valid (perform K s op) ∧ NonNegative (perform K s op) :=
    ⟨(hvalid.perform K op).1, hnonneg.perform hvalid K op⟩
  have heq : (s.edit s.CurrentTaskPID f).TaskTable p = s.TaskTable p := by
    simp [hcur]
  rw [perform_call K hcall] at hkeeps ⊢
  by_cases hne : p = (Schedule K (s.edit s.CurrentTaskPID f) rsp).1.CurrentTaskPID
  · left
    exact hne.symm
  · right
    have hzero := hchoice.resolve_right (Ne.symm hne)
    obtain ⟨hdormant', hmsleep⟩ := Dormant.schedule hcons K rsp hp (heq ▸ hdormant) hne
    refine ⟨⟨hkeeps, hzero, hp, ?_, hdormant', ?_⟩, ?_⟩
    · rw [hzero] at hne
      exact hne
    · intro i hi hi0 hip
      apply Dead.schedule hcons K rsp hi hi0 (hdead i hi hi0 hip)
      rw [hzero]
      exact hi0
    · rw [hmsleep, heq]

/-- Entry 0 goes to sleep for a thousand ticks, which brings `p` back or takes one tick from its
countdown. -/
theorem Alone.nap {p : ℤ} {s : Sched} (h : Alone p s) (K : Kernel) :
  (perform K s (.msleep 0 10000)).CurrentTaskPID = p ∨
    Alone p (perform K s (.msleep 0 10000)) ∧ 1 < (s.TaskTable p).msleep ∧
      ((perform K s (.msleep 0 10000)).TaskTable p).msleep = (s.TaskTable p).msleep - 1
  := by
  have hcall : Schedule.call s (.msleep 0 10000) = some (s.edit s.CurrentTaskPID fun t =>
      { t with msleep := 1000, state := TASK_SLEEPING }, 0) := rfl
  have hcur : p ≠ s.CurrentTaskPID := by
    rw [h.current]
    exact h.ne_zero
  rcases Alone.of_halt K h.holds hcall (by simp) h.index hcur h.dormant (by
      intro i hi hi0 hip
      simpa [h.current, hi0] using h.dead i hi hi0 hip) with hback | ⟨halone, hmsleep⟩
  · left
    exact hback
  · right
    have hunready : ¬ Ready (s.TaskTable p) := by
      intro hready
      -- `Schedule` would have gone to a task that is ready, and entry 0 is not.
      obtain ⟨-, hzero, -⟩ := schedule_ready (h.holds.1.call hcall).1 (h.holds.2.call hcall) K 0
        h.index (by simpa [hcur] using hready)
      rw [← perform_call K hcall, halone.current] at hzero
      simp [h.current, Ready] at hzero
    have hsleep := h.dormant.resolve_left (fun hw => hunready (Or.inl hw))
    refine ⟨halone, ?_, ?_⟩
    · by_contra hshort
      exact hunready (Or.inr ⟨hsleep, by omega⟩)
    · rw [hmsleep, Schedule.settled, if_neg (by simp [hsleep]), if_pos hsleep, wake_msleep]

/-- Entry 0 alone can bring a sleeper back. -/
theorem Alone.leads {p : ℤ} {s : Sched} (h : Alone p s) (K : Kernel) {n : ℕ}
    (hn : (s.TaskTable p).msleep ≤ n) :
  ∃ t, Leads p s t ∧ t.CurrentTaskPID = p
  := by
  have hop : Spares p (.msleep 0 10000) := by
    rintro rsp ⟨⟩
  induction n generalizing s with
  | zero =>
      rcases h.nap K with hback | ⟨-, hlong, -⟩
      · exact ⟨_, Leads.step K hop (Leads.refl p _), hback⟩
      · omega
  | succ n ih =>
      rcases h.nap K with hback | ⟨halone, hlong, hmsleep⟩
      · exact ⟨_, Leads.step K hop (Leads.refl p _), hback⟩
      · obtain ⟨t, hleads, ht⟩ := ih halone (by omega)
        exact ⟨t, hleads.step K hop, ht⟩

/-- Whoever has the processor, the tasks besides `p` can bring `p` back. -/
theorem leads_back {p : ℤ} {s : Sched} (K : Kernel) (hs : Valid s ∧ NonNegative s) (hp : Index p)
    (hcur : p ≠ s.CurrentTaskPID) (hdormant : Dormant (s.TaskTable p)) :
  ∃ t, Leads p s t ∧ t.CurrentTaskPID = p
  := by
  -- The current task kills all others but `p` and entry 0.
  obtain ⟨t, hleads, ht, hdead, hkept⟩ := killTask_all K (p := p)
    (indices.filter fun i => i ≠ 0 ∧ i ≠ s.CurrentTaskPID ∧ i ≠ p) s (by
      intro i hi
      obtain ⟨hi, hne⟩ := List.mem_filter.mp hi
      exact ⟨mem_indices.mp hi, by simpa using hne⟩)
  have hholds := hleads.keeps hs
  have htp : t.TaskTable p = s.TaskTable p := by
    apply hkept
    simp
  rw [← ht] at hcur
  rw [← htp] at hdormant
  have hdead' : ∀ i, Index i → i ≠ 0 → i ≠ t.CurrentTaskPID → i ≠ p → Dead (t.TaskTable i) := by
    intro i hi hi0 hic hip
    apply hdead
    rw [List.mem_filter, mem_indices]
    exact ⟨hi, by simpa [← ht] using ⟨hi0, hic, hip⟩⟩
  have hback : ∃ u, Leads p t u ∧ u.CurrentTaskPID = p := by
    by_cases hzero : t.CurrentTaskPID = 0
    · apply Alone.leads ⟨hholds, hzero, hp, hzero ▸ hcur, hdormant, _⟩ K le_rfl
      intro i hi hi0 hip
      exact hdead' i hi hi0 (by rw [hzero]; exact hi0) hip
    · -- The current task exits.
      have hcall : Schedule.call t (.ExitTask 0 0) = some (t.edit t.CurrentTaskPID fun t =>
          { t with state := TASK_ZOMBIE, ExitCode := 0 }, 0) := if_neg hzero
      have hop : Spares p (.ExitTask 0 0) := by
        rintro rsp ⟨⟩
      rcases Alone.of_halt K hholds hcall (by simp) hp hcur hdormant (by
          intro i hi hi0 hip
          by_cases hic : i = t.CurrentTaskPID
          · right
            simp [hic]
          · simpa [hic] using hdead' i hi hi0 hic hip) with hback | ⟨halone, -⟩
      · exact ⟨_, Leads.step K hop (Leads.refl p _), hback⟩
      · obtain ⟨u, hu, heq⟩ := halone.leads K le_rfl
        exact ⟨u, hu.step K hop, heq⟩
  obtain ⟨u, hu, heq⟩ := hback
  exact ⟨u, hleads.trans hu, heq⟩

/-! ### When a sleeper sleeps long enough -/

theorem reachable_timer {s₀ s : Timer} {ls : List (Kernel × Event)}
    (h : Run Timer.Step { s₀ with sched := s₀.sched.sched_init } ls s) :
  Valid s.sched ∧ NonNegative s.sched
  := by
  apply h.invariant (I := fun s => Valid s.sched ∧ NonNegative s.sched)
  · rintro s ⟨K, e⟩ t ⟨hvalid, hp⟩ hstep
    rw [hstep, Timer.perform_sched]
    exact ⟨(hvalid.perform K e.op).1, hp.perform hvalid K e.op⟩
  · exact reachable_nonNegative (Run.nil _)

/-- Operations are events without ticks. -/
theorem Leads.events {p : ℤ} {s t : Sched} (h : Leads p s t) (ticks : ℕ) :
  ∃ ls, Run (Restrict Timer.Step fun _ l => EventSpares p l.2) ⟨s, ticks⟩ ls ⟨t, ticks⟩ ∧
    tickCount ls = 0
  := by
  obtain ⟨ls, hrun⟩ := h
  have hstep : ∀ (s : Sched) (l : Kernel × Op) (t : Sched) (s' : Timer),
      Restrict Step (fun _ l => Spares p l.2) s l t → s' = ⟨s, ticks⟩ →
        ∃ t', Restrict Timer.Step (fun _ l => EventSpares p l.2) s' (l.1, Event.call l.2) t' ∧
          t' = ⟨t, ticks⟩ := by
    rintro s l t _ ⟨hop, rfl⟩ rfl
    refine ⟨_, ⟨?_, rfl⟩, rfl⟩
    rintro rsp hkill
    exact hop rsp (Event.call.inj hkill)
  obtain ⟨t', hrun', rfl⟩ := hrun.map _ hstep rfl
  refine ⟨_, hrun', ?_⟩
  rw [tickCount, List.countP_eq_zero]
  intro l hl
  obtain ⟨l', -, rfl⟩ := List.mem_map.mp hl
  simp

/-- In every reachable state: a sleeper is left alone for `ms / 10` ticks, whatever the other tasks
do, exactly when `ms / 10` is zero. -/
theorem msleep_undisturbed {s₀ s : Timer} {ls : List (Kernel × Event)}
    (h : Run Timer.Step { s₀ with sched := s₀.sched.sched_init } ls s) (ms : ℕ) :
  Undisturbed s ms ↔ ms < 10
  := by
  constructor
  · intro hundisturbed
    by_contra hms
    have hs := reachable_timer h
    have hcall : Schedule.call s.sched (.msleep 0 ms) = some (s.sched.edit s.sched.CurrentTaskPID
        fun t => { t with msleep := ms / 10, state := TASK_SLEEPING }, 0) := if_neg (by omega)
    let K := heapKernel 1 0 0 0
    have hback : ∃ t, Leads s.sched.CurrentTaskPID (perform K s.sched (.msleep 0 ms)) t ∧
        t.CurrentTaskPID = s.sched.CurrentTaskPID := by
      by_cases hcur : s.sched.CurrentTaskPID = (perform K s.sched (.msleep 0 ms)).CurrentTaskPID
      · exact ⟨_, Leads.refl _ _, hcur.symm⟩
      · apply leads_back K _ hs.1.current hcur
        · rw [perform_call K hcall] at hcur ⊢
          apply (Dormant.schedule (hs.1.call hcall).1 K 0 hs.1.current _ hcur).1
          right
          simp
        · exact ⟨(hs.1.perform K _).1, hs.2.perform hs.1 K _⟩
    obtain ⟨t, hleads, ht⟩ := hback
    obtain ⟨ls', hrun, hcount⟩ := hleads.events s.ticks
    have hle := hundisturbed K 0 ls' _ hrun ht
    omega
  · intro hms K rsp ls' t _ _
    omega

/-- With two tasks, the one that runs calls `msleep(20)` and the idle one `msleep(10)`, and the first
runs again before the timer has interrupted at all. -/
theorem msleep_disturbed :
  let K : Kernel := ⟨fun m _ => (0x1000, m), fun m _ => m, 0, 0⟩
  ∃ s, Run Timer.Step ⟨reset.sched_init, 0⟩
      [(K, .call (.create (.CreateTask (fun _ => 0) 0 0))), (K, .timer_callback 0)] s ∧
    s.sched.CurrentTaskPID = 1 ∧
    (s.perform K (.call (.msleep 0 20))).sched.CurrentTaskPID = 0 ∧
    ((s.perform K (.call (.msleep 0 20))).perform K (.call (.msleep 0 10))).sched.CurrentTaskPID = 1 ∧
    ¬ Undisturbed s 20
  := by
  intro K
  refine ⟨_, Run.cons rfl (Run.cons rfl (Run.nil _)), by decide +kernel, by decide +kernel,
    by decide +kernel, ?_⟩
  intro hundisturbed
  have hle := hundisturbed K 0 [(K, .call (.msleep 0 10))] _
    (Run.cons ⟨by rintro rsp ⟨⟩, rfl⟩ (Run.nil _)) (by decide +kernel)
  revert hle
  decide

/-- A short sleep. -/
theorem msleep_undisturbed_five :
  let K : Kernel := ⟨fun m _ => (0x1000, m), fun m _ => m, 0, 0⟩
  ∃ s, Run Timer.Step ⟨reset.sched_init, 0⟩
      [(K, .call (.create (.CreateTask (fun _ => 0) 0 0))), (K, .timer_callback 0)] s ∧
    (Undisturbed s 5 ↔ 5 < 10)
  := by
  intro K
  refine ⟨_, Run.cons rfl (Run.cons rfl (Run.nil _)), ?_⟩
  exact @msleep_undisturbed ⟨reset, 0⟩ _ _ (Run.cons rfl (Run.cons rfl (Run.nil _))) 5

/-! ### What a sleeper can rely on -/

/-- The number of calls of `Schedule` in a run from `s`. -/
def scheduleCount (s : Timer) : List (Kernel × Event) → ℕ
  | [] => 0
  | l :: ls =>
      (if (Schedule.call s.sched l.2.op).isSome then 1 else 0) +
        scheduleCount (s.perform l.1 l.2) ls

/-- The task `p` does not have the processor, and sleeps for `n` calls of `Schedule` more. -/
structure Asleep (p : ℤ) (n : ℕ) (s : Sched) : Prop where
  holds : Valid s ∧ NonNegative s
  current : s.CurrentTaskPID ≠ p
  state : (s.TaskTable p).state = TASK_SLEEPING
  msleep : n ≤ (s.TaskTable p).msleep

/-- A call of `Schedule` takes one from the countdown of a sleeper, unless that ends. -/
theorem schedule_asleep {p : ℤ} {n : ℕ} {s : Sched} (h : Consistent s) (hnonneg : NonNegative s)
    (K : Kernel) (rsp : ℕ) (hp : Index p) (hzero : p ≠ 0)
    (hstate : (s.TaskTable p).state = TASK_SLEEPING) (hn : n + 1 < (s.TaskTable p).msleep) :
  (Schedule K s rsp).1.CurrentTaskPID ≠ p ∧
    ((Schedule K s rsp).1.TaskTable p).state = TASK_SLEEPING ∧
    n + 1 ≤ ((Schedule K s rsp).1.TaskTable p).msleep
  := by
  have hunready : ¬ Ready (s.TaskTable p) := by
    rintro (hw | ⟨-, hle⟩)
    · simp [hstate] at hw
    · omega
  have hne : (Schedule K s rsp).1.CurrentTaskPID ≠ p := by
    by_cases hsome : ∃ i, Index i ∧ Ready (s.TaskTable i)
    · obtain ⟨i, hi, hready⟩ := hsome
      intro heq
      apply hunready
      rw [← heq]
      exact (schedule_ready h hnonneg K rsp hi hready).2.1
    · rw [schedule_unready h K rsp (fun i hi hready => hsome ⟨i, hi, hready⟩)]
      split_ifs with hrun
      · rintro heq
        rw [heq, hstate] at hrun
        cases hrun
      · exact hzero.symm
  obtain ⟨-, hmsleep⟩ := Dormant.schedule h K rsp hp (Or.inr hstate) hne.symm
  have hwake : Schedule.settled p (s.TaskTable p) = Schedule.wake (s.TaskTable p) := by
    rw [Schedule.settled, if_neg (by simp [hstate]), if_pos hstate]
  have hlong : ¬ (s.TaskTable p).msleep ≤ 1 := by
    omega
  refine ⟨hne, ?_, ?_⟩
  · rw [schedule_state h.started K rsp hp hne.symm, hwake, wake_state, if_neg hlong]
    simp [hstate]
  · rw [hmsleep, hwake, wake_msleep]
    omega

/-- Whatever happens to the others, a sleeper sleeps on, and loses one of its countdown for a call
of `Schedule`. -/
theorem Asleep.step {p : ℤ} {n : ℕ} {s : Sched} (h : Asleep p (n + 1) s) (hp : Index p)
    (hzero : p ≠ 0) (K : Kernel) {op : Op} (hop : Spares p op)
    (hn : (Schedule.call s op).isSome → 0 < n) :
  Asleep p (if (Schedule.call s op).isSome then n else n + 1) (perform K s op)
  := by
  obtain ⟨hvalid, hnonneg⟩ := h.holds
  have hholds : Valid (perform K s op) ∧ NonNegative (perform K s op) :=
    ⟨(hvalid.perform K op).1, hnonneg.perform hvalid K op⟩
  cases hcall : Schedule.call s op with
  | none =>
      rw [if_neg (by simp)]
      -- The entry is not written.
      have hkept : (perform K s op).TaskTable p = s.TaskTable p ∧
          (perform K s op).CurrentTaskPID = s.CurrentTaskPID := by
        by_cases hcreate : ∃ c, op = .create c
        · obtain ⟨c, rfl⟩ := hcreate
          rw [perform]
          by_cases href : Refused s c
          · rw [create_refused href]
            exact ⟨rfl, rfl⟩
          · obtain ⟨id, hf, -⟩ := create_filled (K := K) href
            refine ⟨hf.table p ?_, hf.current⟩
            rintro rfl
            have hempty := (emptySlot_eq_some hf.slot).2
            rw [h.state] at hempty
            cases hempty
        · rcases perform_uncalled K hcall (not_exists.mp hcreate) with
            heq | ⟨rsp, pid, rfl, -, -, -, heq⟩
          · rw [heq]
            exact ⟨rfl, rfl⟩
          · rw [heq]
            refine ⟨?_, rfl⟩
            have hne : p ≠ pid := by
              rintro rfl
              exact hop rsp rfl
            simp [hne]
      obtain ⟨htable, hcurrent⟩ := hkept
      refine ⟨hholds, ?_, ?_, ?_⟩
      · rw [hcurrent]
        apply h.current
      · rw [htable]
        apply h.state
      · rw [htable]
        apply h.msleep
  | some r =>
      obtain ⟨s', rsp⟩ := r
      rw [if_pos (by simp)]
      have htable : s'.TaskTable p = s.TaskTable p := by
        rcases call_eq hcall with rfl | ⟨f, rfl, -⟩
        · rfl
        · simp [h.current.symm]
      obtain ⟨m, rfl⟩ : ∃ m, n = m + 1 := ⟨n - 1, by have := hn (by simp [hcall]); omega⟩
      have hmsleep := h.msleep
      obtain ⟨hne, hstate, hle⟩ := schedule_asleep (n := m) (hvalid.call hcall).1 (hnonneg.call hcall)
        K rsp hp hzero (by rw [htable, h.state]) (by rw [htable]; omega)
      rw [← perform_call K hcall] at hne hstate hle
      exact ⟨hholds, hne, hstate, hle⟩

theorem Asleep.run {p : ℤ} {n : ℕ} {s t : Timer} {ls : List (Kernel × Event)} (hp : Index p)
    (hzero : p ≠ 0) (h : Asleep p n s.sched)
    (hrun : Run (Restrict Timer.Step fun _ l => EventSpares p l.2) s ls t)
    (ht : t.sched.CurrentTaskPID = p) :
  n ≤ scheduleCount s ls
  := by
  induction hrun generalizing n with
  | nil s => exact absurd ht h.current
  | cons hstep _ ih =>
      rename_i s t u l ls _
      obtain ⟨hspares, rfl⟩ := hstep
      have hop : Spares p l.2.op := by
        rintro rsp heq
        obtain ⟨K, _ | op⟩ := l
        · cases heq
        · exact hspares rsp (congrArg _ heq)
      rw [scheduleCount]
      cases n with
      | zero => apply Nat.zero_le
      | succ n =>
          by_cases hlast : (Schedule.call s.sched l.2.op).isSome ∧ n = 0
          · rw [if_pos hlast.1]
            omega
          · have hnext := h.step hp hzero l.1 hop (by
              intro hsome
              by_contra hn
              exact hlast ⟨hsome, by omega⟩)
            rw [← Timer.perform_sched] at hnext
            have hle := ih hnext ht
            split_ifs at hle ⊢
            · omega
            · omega

/-- A task other than that of the kernel itself, when it calls `msleep(ms)`, gets the processor back
after `ms / 10` calls of `Schedule` at the earliest, that of `msleep` included. -/
theorem msleep_schedules {s₀ s t : Timer} {ls ls' : List (Kernel × Event)} {K : Kernel} {rsp ms : ℕ}
    (h : Run Timer.Step { s₀ with sched := s₀.sched.sched_init } ls s)
    (hzero : s.sched.CurrentTaskPID ≠ 0)
    (hrun : Run (Restrict Timer.Step fun _ l => EventSpares s.sched.CurrentTaskPID l.2)
      (s.perform K (.call (.msleep rsp ms))) ls' t)
    (ht : t.sched.CurrentTaskPID = s.sched.CurrentTaskPID) :
  ms / 10 ≤ 1 + scheduleCount (s.perform K (.call (.msleep rsp ms))) ls'
  := by
  obtain ⟨hvalid, hnonneg⟩ := reachable_timer h
  by_cases hms : ms / 10 ≤ 1
  · omega
  · have hcall : Schedule.call s.sched (.msleep rsp ms) = some (s.sched.edit s.sched.CurrentTaskPID
        fun t => { t with msleep := ms / 10, state := TASK_SLEEPING }, rsp) := if_neg (by omega)
    obtain ⟨hne, hstate, hle⟩ := schedule_asleep (n := ms / 10 - 2) (hvalid.call hcall).1
      (hnonneg.call hcall) K rsp hvalid.current hzero (by simp) (by simp; omega)
    rw [← perform_call K hcall] at hne hstate hle
    have hasleep : Asleep s.sched.CurrentTaskPID (ms / 10 - 2 + 1)
        (s.perform K (.call (.msleep rsp ms))).sched :=
      ⟨⟨(hvalid.perform K (.msleep rsp ms)).1, hnonneg.perform hvalid K (.msleep rsp ms)⟩, hne,
        hstate, hle⟩
    have hcount := hasleep.run hvalid.current hzero hrun ht
    omega

end Sched
