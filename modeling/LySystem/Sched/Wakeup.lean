import LySystem.Sched.Sleep

/-!
# When a sleeper wakes

`msleep` and `sleep` of `kernel/IRQ/timer.c`.  As long as a task is away, its entry counts the calls
of `Schedule`, whoever makes them, and the task wakes at the one that its countdown names: not
before, and not later.
-/

namespace Sched

open TaskState Transition

/-- The seconds are of type `uint32_t`, and so is their product with 1000. -/
def sleep (K : Kernel) (s : Sched) (rsp sec : ℕ) : Sched := msleep K s rsp (u32 (sec * 1000))

variable {p : ℤ} {d n : ℕ} {s t : Sched} {K : Kernel}

/-- What does not call `Schedule` leaves an entry in use as it is, unless it kills its task. -/
theorem uncalled_kept {op : Op} (hcall : Schedule.call s op = none) (hspares : Spares p op)
    (hused : (s.TaskTable p).state ≠ TASK_EMPTY) :
  (perform K s op).TaskTable p = s.TaskTable p ∧
    (perform K s op).CurrentTaskPID = s.CurrentTaskPID
  := by
  by_cases hcreate : ∃ c, op = .create c
  · obtain ⟨c, rfl⟩ := hcreate
    rw [perform]
    by_cases href : Refused s c
    · rw [create_refused href]
      exact ⟨rfl, rfl⟩
    · obtain ⟨id, hf, -⟩ := create_filled (K := K) href
      refine ⟨hf.table p ?_, hf.current⟩
      rintro rfl
      exact hused (emptySlot_eq_some hf.slot).2
  · rcases perform_uncalled K hcall (not_exists.mp hcreate) with
      heq | ⟨rsp, pid, rfl, -, -, -, heq⟩
    · rw [heq]
      exact ⟨rfl, rfl⟩
    · have hne : p ≠ pid := by
        rintro rfl
        exact hspares rsp rfl
      rw [heq]
      exact ⟨by simp [hne], rfl⟩

/-- The task `p` does not have the processor, and `n` calls of `Schedule` were made since it set its
countdown to `d`. -/
structure Away (p : ℤ) (d n : ℕ) (s : Sched) : Prop where
  valid : Valid s
  index : Index p
  current : s.CurrentTaskPID ≠ p
  state : (s.TaskTable p).state = if n < d then TASK_SLEEPING else TASK_WAITING
  msleep : (s.TaskTable p).msleep = d - n

theorem Away.dormant (h : Away p d n s) :
  Dormant (s.TaskTable p)
  := by
  rw [Dormant, h.state]
  split_ifs
  · right
    rfl
  · left
    rfl

theorem Away.used (h : Away p d n s) :
  (s.TaskTable p).state ≠ TASK_EMPTY
  := by
  rw [h.state]
  split_ifs
  · decide
  · decide

/-- A call of `Schedule` counts a sleeper down, and wakes it at the last one. -/
theorem settled_counts {t : Task}
    (hstate : t.state = if n < d ∨ n = 0 then TASK_SLEEPING else TASK_WAITING)
    (hmsleep : t.msleep = d - n) :
  (Schedule.settled p t).state = (if n + 1 < d then TASK_SLEEPING else TASK_WAITING) ∧
    (Schedule.settled p t).msleep = d - (n + 1)
  := by
  by_cases hsleeps : n < d ∨ n = 0
  · rw [if_pos hsleeps] at hstate
    have hwake : Schedule.settled p t = Schedule.wake t := by
      rw [Schedule.settled, if_neg (by simp [hstate]), if_pos hstate]
    rw [hwake, wake_state, wake_msleep, hmsleep, hstate]
    constructor
    · by_cases hlast : d - n ≤ 1
      · rw [if_pos hlast, if_neg (by omega)]
      · rw [if_neg hlast, if_pos (by omega)]
    · omega
  · rw [if_neg hsleeps] at hstate
    have hsame : Schedule.settled p t = t := by
      rw [Schedule.settled, if_neg (by simp [hstate]), if_neg (by simp [hstate])]
    rw [hsame, hstate, hmsleep, if_neg (by omega)]
    exact ⟨rfl, by omega⟩

/-- The entry of a task that sets its countdown, or has set it, after a call of `Schedule`. -/
theorem schedule_counts (h : Consistent s) (hp : Index p) (rsp : ℕ)
    (hstate : (s.TaskTable p).state = if n < d ∨ n = 0 then TASK_SLEEPING else TASK_WAITING)
    (hmsleep : (s.TaskTable p).msleep = d - n)
    (hne : (Schedule K s rsp).1.CurrentTaskPID ≠ p) :
  Away p d (n + 1) (Schedule K s rsp).1
  := by
  obtain ⟨hsettled, hcount⟩ := settled_counts (p := p) hstate hmsleep
  obtain ⟨st, r, hentry⟩ := schedule_entry h.started K rsp hp
  refine ⟨(h.schedule K rsp).1, hp, hne, ?_, ?_⟩
  · rw [schedule_state h.started K rsp hp hne.symm, hsettled, if_neg]
    rintro ⟨-, hrun⟩
    split_ifs at hrun
  · rw [hentry]
    exact hcount

/-- An operation of another task is counted if it calls `Schedule`, and changes nothing else. -/
theorem Away.step (h : Away p d (n + 1) s) {op : Op} (hspares : Spares p op)
    (hne : (perform K s op).CurrentTaskPID ≠ p) :
  Away p d (n + 1 + if (Schedule.call s op).isSome then 1 else 0) (perform K s op)
  := by
  cases hcall : Schedule.call s op with
  | none =>
      obtain ⟨htable, -⟩ := uncalled_kept (K := K) hcall hspares h.used
      refine ⟨(h.valid.perform K op).1, h.index, hne, ?_, ?_⟩
      · rw [htable]
        apply h.state
      · rw [htable]
        apply h.msleep
  | some r =>
      obtain ⟨s', rsp⟩ := r
      rw [perform_call K hcall] at hne ⊢
      -- Only the entry of the current task is marked before the call.
      have htable : s'.TaskTable p = s.TaskTable p := by
        rcases call_eq hcall with rfl | ⟨f, rfl, -⟩
        · rfl
        · simp [h.current.symm]
      apply schedule_counts (h.valid.call hcall).1 h.index rsp _ _ hne
      · rw [htable, h.state]
        simp
      · rw [htable]
        apply h.msleep

/-- The task `p` does not have the processor, and is not killed. -/
def Apart (p : ℤ) (s : Timer) (l : Kernel × Event) : Prop :=
  s.sched.CurrentTaskPID ≠ p ∧ EventSpares p l.2

theorem EventSpares.op {e : Event} (h : EventSpares p e) :
  Spares p e.op
  := by
  rintro rsp heq
  cases e with
  | timer_callback rsp' => cases heq
  | call op => exact h rsp (congrArg _ heq)

/-- Every call of `Schedule` is counted. -/
theorem Away.run {s t : Timer} {ls : List (Kernel × Event)} (h : Away p d (n + 1) s.sched)
    (hrun : Run (Restrict Timer.Step (Apart p)) s ls t) (hne : t.sched.CurrentTaskPID ≠ p) :
  Away p d (n + 1 + scheduleCount s ls) t.sched
  := by
  induction hrun generalizing n with
  | nil s => exact h
  | cons hstep hrest ih =>
      rename_i s t u l ls
      obtain ⟨⟨-, hspares⟩, rfl⟩ := hstep
      have hnext : (perform l.1 s.sched l.2.op).CurrentTaskPID ≠ p := by
        rw [← Timer.perform_sched]
        cases hrest with
        | nil s => exact hne
        | cons hstep' _ => exact hstep'.1.1
      have haway := h.step hspares.op hnext
      rw [← Timer.perform_sched, Nat.add_right_comm] at haway
      have hdone := ih haway hne
      rw [scheduleCount]
      convert hdone using 1
      omega

/-- The interrupts of the timer are among the calls of `Schedule`. -/
theorem tickCount_le (s : Timer) (ls : List (Kernel × Event)) :
  tickCount ls ≤ scheduleCount s ls
  := by
  induction ls generalizing s with
  | nil => apply Nat.zero_le
  | cons l ls ih =>
      obtain ⟨K, e⟩ := l
      have hle := ih (s.perform K e)
      rw [tickCount, List.countP_cons, ← tickCount, scheduleCount]
      cases e with
      | timer_callback rsp =>
          have hcalls : Schedule.call s.sched (Event.timer_callback rsp).op = some (s.sched, rsp) := rfl
          rw [hcalls, if_pos rfl]
          change tickCount ls + 1 ≤ 1 + scheduleCount (s.perform K (.timer_callback rsp)) ls
          omega
      | call op =>
          dsimp only
          rw [if_neg (by decide)]
          omega

/-- In any state that is reached, when the current task calls `msleep(ms)`, its entry says at any
later time, until the task gets the processor back or is killed, whether `ms / 10` calls of
`Schedule` have been made, that of `msleep` included: it sleeps before, and waits from then on. So
it does not sleep longer than `ms / 10` interrupts of the timer. -/
theorem msleep_wakes {s₀ s t : Timer} {ls ls' : List (Kernel × Event)} {K : Kernel} {rsp ms : ℕ}
    (h : Run Timer.Step { s₀ with sched := s₀.sched.sched_init } ls s) (hms : ms ≠ 0)
    (hrun : Run (Restrict Timer.Step (Apart s.sched.CurrentTaskPID))
      (s.perform K (.call (.msleep rsp ms))) ls' t)
    (hne : t.sched.CurrentTaskPID ≠ s.sched.CurrentTaskPID) :
  let p := s.sched.CurrentTaskPID
  let calls := 1 + scheduleCount (s.perform K (.call (.msleep rsp ms))) ls'
  (t.sched.TaskTable p).state = (if calls < ms / 10 then TASK_SLEEPING else TASK_WAITING) ∧
    (t.sched.TaskTable p).msleep = ms / 10 - calls ∧
    (ms / 10 ≤ tickCount ls' → (t.sched.TaskTable p).state = TASK_WAITING)
  := by
  obtain ⟨hvalid, -⟩ := reachable_timer h
  have hcall : Schedule.call s.sched (.msleep rsp ms) = some (s.sched.edit s.sched.CurrentTaskPID
      fun t => { t with msleep := ms / 10, state := TASK_SLEEPING }, rsp) := if_neg hms
  have hfirst : (s.perform K (.call (.msleep rsp ms))).sched.CurrentTaskPID ≠
      s.sched.CurrentTaskPID := by
    cases hrun with
    | nil s => exact hne
    | cons hstep _ => exact hstep.1.1
  have haway : Away s.sched.CurrentTaskPID (ms / 10) (0 + 1)
      (s.perform K (.call (.msleep rsp ms))).sched := by
    rw [Timer.perform_sched] at hfirst ⊢
    rw [Event.op, perform_call K hcall] at hfirst ⊢
    apply schedule_counts (hvalid.call hcall).1 hvalid.current rsp _ _ hfirst
    · simp
    · simp
  have hdone := haway.run hrun hne
  rw [Nat.zero_add] at hdone
  dsimp only
  refine ⟨hdone.state, hdone.msleep, ?_⟩
  intro hticks
  have := tickCount_le (s.perform K (.call (.msleep rsp ms))) ls'
  rw [hdone.state, if_neg (by omega)]

/-- A sleep of 30 milliseconds, after one interrupt of the timer. -/
theorem msleep_wakes_thirty :
  let K : Kernel := ⟨fun m _ => (0x1000, m), fun m _ => m, 0, 0⟩
  ∃ s, Run Timer.Step ⟨reset.sched_init, 0⟩
      [(K, .call (.create (.CreateTask (fun _ => 0) 0 0))), (K, .timer_callback 0)] s ∧
    (((s.perform K (.call (.msleep 0 30))).perform K (.timer_callback 0)).sched.TaskTable
      s.sched.CurrentTaskPID).state = TASK_SLEEPING
  := by
  intro K
  have hsleeps : ∀ s, Run Timer.Step ⟨reset.sched_init, 0⟩
      [(K, .call (.create (.CreateTask (fun _ => 0) 0 0))), (K, .timer_callback 0)] s →
      (s.perform K (.call (.msleep 0 30))).sched.CurrentTaskPID ≠ s.sched.CurrentTaskPID →
      ((s.perform K (.call (.msleep 0 30))).perform K (.timer_callback 0)).sched.CurrentTaskPID ≠
        s.sched.CurrentTaskPID →
      (((s.perform K (.call (.msleep 0 30))).perform K (.timer_callback 0)).sched.TaskTable
        s.sched.CurrentTaskPID).state = TASK_SLEEPING := by
    intro s hs hleft hne
    obtain ⟨hstate, -, -⟩ := @msleep_wakes ⟨reset, 0⟩ s _ _ [(K, .timer_callback 0)] K 0 30 hs
      (by decide) (Run.cons ⟨⟨hleft, by rintro rsp ⟨⟩⟩, rfl⟩ (Run.nil _)) hne
    exact hstate
  refine ⟨_, Run.cons rfl (Run.cons rfl (Run.nil _)), ?_⟩
  exact hsleeps _ (Run.cons rfl (Run.cons rfl (Run.nil _))) (by decide +kernel) (by decide +kernel)

end Sched
