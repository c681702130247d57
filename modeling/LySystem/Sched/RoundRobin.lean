import LySystem.Machine.Cycle
import LySystem.Sched.Priority

/-!
# Tasks that take turns

While the running task has the highest priority and others share it, the calls of `Schedule`
give the processor to each of them in turn: the search for the next task starts after the
current one and wraps around at the end of the table.
-/

namespace Sched

open TaskState

/-- The entries, in the order of the table, whose tasks wait or run with the priority of the
current task. -/
def contenders (s : Sched) : List ℤ :=
  indices.filter fun i =>
    let t := s.TaskTable i
    (t.state = TASK_WAITING ∨ t.state = TASK_RUNNING) ∧
      t.priority = (s.TaskTable s.CurrentTaskPID).priority

/-- The state after `k` calls of `Schedule`, the call `j` with the stack pointer `rsp j`. -/
def rounds (K : ℕ → Kernel) (rsp : ℕ → ℕ) (s : Sched) : ℕ → Sched
  | 0 => s
  | k + 1 => (Schedule (K k) (rounds K rsp s k) (rsp k)).1

/-- The running task is one of the entries `l`, all those that wait or run with the highest
priority. -/
structure Rotating (l : List ℤ) (p : ℤ) (s : Sched) : Prop where
  consistent : Consistent s
  quiet : ∀ i, Index i → (s.TaskTable i).state ≠ TASK_ZOMBIE ∧ (s.TaskTable i).state ≠ TASK_SLEEPING
  running : (s.TaskTable s.CurrentTaskPID).state = TASK_RUNNING
  members : ∀ i, i ∈ l ↔ Index i ∧
    ((s.TaskTable i).state = TASK_WAITING ∨ (s.TaskTable i).state = TASK_RUNNING) ∧
      (s.TaskTable i).priority = p
  current : s.CurrentTaskPID ∈ l
  highest : ∀ i, Index i → (s.TaskTable i).state = TASK_WAITING → (s.TaskTable i).priority ≤ p

/-- The entries of `s'` are those of `s`, except for the saved stack pointers and, in `l`, the
states. -/
def Turned (l : List ℤ) (s s' : Sched) : Prop :=
  ∀ i, ∃ st r, s'.TaskTable i = { s.TaskTable i with state := st, rsp := r } ∧
    (i ∉ l → st = (s.TaskTable i).state)

theorem Turned.refl (l : List ℤ) (s : Sched) :
  Turned l s s
  := by
  intro i
  exact ⟨(s.TaskTable i).state, (s.TaskTable i).rsp, rfl, fun _ => rfl⟩

theorem Turned.trans {l : List ℤ} {s s' s'' : Sched} (h : Turned l s s') (h' : Turned l s' s'') :
  Turned l s s''
  := by
  intro i
  obtain ⟨st, r, heq, hst⟩ := h i
  obtain ⟨st', r', heq', hst'⟩ := h' i
  refine ⟨st', r', ?_, ?_⟩
  · rw [heq', heq]
  · intro hi
    rw [hst' hi, heq]
    exact hst hi

/-! ### One call -/

/-- Without zombies and sleepers the first loop of `Schedule` does nothing. -/
theorem settle_quiet (K : Kernel) {s : Sched}
    (hquiet : ∀ i, Index i → (s.TaskTable i).state ≠ TASK_ZOMBIE ∧
      (s.TaskTable i).state ≠ TASK_SLEEPING) :
  (List.range MAX_TASK_COUNT).foldl (Schedule.settle K) s = s
  := by
  have hfold : ∀ n ≤ MAX_TASK_COUNT, (List.range n).foldl (Schedule.settle K) s = s := by
    intro n
    induction n with
    | zero =>
        intro _
        rfl
    | succ n ih =>
        intro hn
        obtain ⟨hzombie, hsleep⟩ := hquiet n ⟨Int.natCast_nonneg n, by exact_mod_cast hn⟩
        rw [List.range_succ, List.foldl_append, ih (by omega), List.foldl_cons, List.foldl_nil,
          Schedule.settle]
        simp [hzombie, hsleep]
  exact hfold _ le_rfl

/-- The search finds the first entry from the current one on that waits with the highest
priority. -/
theorem next_pid_first {s : Sched} {d : ℕ} (hcur : Index s.CurrentTaskPID) (hlo : 1 ≤ d)
    (hhi : (d : ℤ) ≤ MAX_TASK_COUNT) (hmax : Schedule.max_priority s ≠ -1)
    (hwaiting : (s.TaskTable ((s.CurrentTaskPID + d) % MAX_TASK_COUNT)).state = TASK_WAITING ∧
      (s.TaskTable ((s.CurrentTaskPID + d) % MAX_TASK_COUNT)).priority = Schedule.max_priority s)
    (hfirst : ∀ j : ℕ, 1 ≤ j → j < d →
      ¬ ((s.TaskTable ((s.CurrentTaskPID + j) % MAX_TASK_COUNT)).state = TASK_WAITING ∧
        (s.TaskTable ((s.CurrentTaskPID + j) % MAX_TASK_COUNT)).priority =
          Schedule.max_priority s)) :
  Schedule.next_pid s = (s.CurrentTaskPID + d) % MAX_TASK_COUNT
  := by
  have hmod : ∀ j : ℕ, (s.CurrentTaskPID + j).tmod MAX_TASK_COUNT =
      (s.CurrentTaskPID + j) % MAX_TASK_COUNT := by
    intro j
    rw [Int.tmod_eq_emod_of_nonneg]
    have := hcur.1
    omega
  rw [Schedule.next_pid]
  simp only [hmod]
  rw [if_pos hmax, Loop.firstSome_eq_some.mpr, Option.getD_some]
  refine ⟨d, hlo, by omega, if_pos hwaiting, ?_⟩
  intro j hj hjd
  exact if_neg (hfirst j hj hjd)

section

variable {l : List ℤ} {p : ℤ} {s : Sched}

/-- A contender that is not the current task waits. -/
theorem Rotating.waiting (h : Rotating l p s) {i : ℤ} (hi : i ∈ l) (hne : i ≠ s.CurrentTaskPID) :
  (s.TaskTable i).state = TASK_WAITING
  := by
  obtain ⟨hindex, hstate, -⟩ := (h.members i).mp hi
  exact hstate.resolve_right fun hrun => hne (h.consistent.running i hindex hrun)

/-- The highest priority of a waiting task is that of the contenders. -/
theorem Rotating.max_priority (h : Rotating l p s) {i : ℤ} (hi : i ∈ l)
    (hne : i ≠ s.CurrentTaskPID) (hp : 0 ≤ p) :
  Schedule.max_priority s = p
  := by
  obtain ⟨hindex, -, hpriority⟩ := (h.members i).mp hi
  have hle := le_max_priority hindex (h.waiting hi hne)
  rw [hpriority] at hle
  apply le_antisymm _ hle
  rcases Loop.scanMax_eq (p := fun i => (s.TaskTable i).state = TASK_WAITING)
    (v := fun i => (s.TaskTable i).priority) indices (-1) with heq | ⟨j, hj, hjwaiting, heq⟩
  · rw [← max_priority_eq] at heq
    omega
  · rw [← max_priority_eq] at heq
    rw [← heq]
    exact h.highest j (mem_indices.mp hj) hjwaiting

/-- The next place of the list, around its end, is another one. -/
theorem next_place {a n : ℕ} (hn : 2 ≤ n) (ha : a < n) :
  (a + 1) % n ≠ a
  := by
  by_cases hlast : a + 1 < n
  · rw [Nat.mod_eq_of_lt hlast]
    omega
  · rw [show a + 1 = n by omega, Nat.mod_self]
    omega

/-- The task found is the contender after the current one. -/
theorem Rotating.next_pid (h : Rotating l p s) (hl : l.Pairwise (· < ·)) (hp : 0 ≤ p)
    (hn : 2 ≤ l.length) {a : ℕ} (ha : l[a]? = some s.CurrentTaskPID) :
  ∃ next, l[(a + 1) % l.length]? = some next ∧ next ≠ s.CurrentTaskPID ∧
    Schedule.next_pid s = next
  := by
  have hindices : ∀ i ∈ l, 0 ≤ i ∧ i < (MAX_TASK_COUNT : ℤ) := fun i hi => ((h.members i).mp hi).1
  obtain ⟨hlt, hget⟩ := List.getElem?_eq_some_iff.mp ha
  obtain ⟨d, hlo, hhi, hnext, hbetween⟩ := Cycle.first_met hl hindices hlt
  rw [hget] at hnext hbetween
  generalize heq : (s.CurrentTaskPID + d) % (MAX_TASK_COUNT : ℤ) = next at hnext
  have hmem : next ∈ l := List.mem_of_getElem? hnext
  -- Two contenders at different places are different entries.
  have hne : next ≠ s.CurrentTaskPID := by
    intro hcur
    obtain ⟨hlt', hget'⟩ := List.getElem?_eq_some_iff.mp hnext
    have hnodup : l.Nodup := hl.imp (fun h => h.ne)
    apply next_place hn hlt
    apply (List.Nodup.getElem_inj_iff hnodup).mp
    rw [hget', hget, hcur]
  have hmax := h.max_priority hmem hne hp
  obtain ⟨-, -, hpriority⟩ := (h.members next).mp hmem
  refine ⟨next, hnext, hne, ?_⟩
  rw [← heq]
  apply next_pid_first h.consistent.current hlo hhi
  · omega
  · rw [heq, hmax]
    exact ⟨h.waiting hmem hne, hpriority⟩
  · rintro j hj hjd ⟨hwaiting, hprio⟩
    apply hbetween j hj hjd
    rw [h.members]
    exact ⟨⟨Int.emod_nonneg _ (by decide), Int.emod_lt_of_pos _ (by decide)⟩,
      Or.inl hwaiting, hprio.trans hmax⟩

/-- A switch from one contender to another keeps the rotation. -/
theorem Rotating.switch (h : Rotating l p s) {next : ℤ} (hmem : next ∈ l)
    (hne : next ≠ s.CurrentTaskPID) (rsp : ℕ) :
  Rotating l p (Schedule.switch s rsp next).1 ∧ Turned l s (Schedule.switch s rsp next).1
  := by
  have hnext := h.waiting hmem hne
  have hvalid := h.consistent.switch rsp ((h.members next).mp hmem).1 (by simp [hnext])
  have hcurrent := switch_CurrentTaskPID s rsp next
  have hstate : ∀ i, ((Schedule.switch s rsp next).1.TaskTable i).state =
      if i = next then TASK_RUNNING
      else if i = s.CurrentTaskPID ∧ (s.TaskTable i).state = TASK_RUNNING then TASK_WAITING
      else (s.TaskTable i).state :=
    fun i => switch_state hne
  have hentry := fun i => switch_entry s rsp next i
  generalize (Schedule.switch s rsp next).1 = s' at hvalid hcurrent hstate hentry
  have hprio : ∀ i, (s'.TaskTable i).priority = (s.TaskTable i).priority := by
    intro i
    obtain ⟨st, r, heq⟩ := hentry i
    rw [heq]
  refine ⟨⟨hvalid.toConsistent, ?_, ?_, ?_, ?_, ?_⟩, ?_⟩
  · intro i hi
    rw [hstate]
    split_ifs
    · simp
    · simp
    · exact h.quiet i hi
  · rw [hcurrent, hstate, if_pos rfl]
  · intro i
    rw [h.members, hprio, hstate]
    split_ifs with hin hic
    · simp [hin, hnext]
    · simp [hic.2]
    · rfl
  · rw [hcurrent]
    exact hmem
  · intro i hi
    rw [hprio, hstate]
    split_ifs with hin hic
    · intro hfalse
      cases hfalse
    · intro _
      rw [hic.1]
      exact ((h.members _).mp h.current).2.2.le
    · exact h.highest i hi
  · intro i
    obtain ⟨st, r, heq⟩ := hentry i
    refine ⟨st, r, heq, ?_⟩
    intro hi
    have hst := hstate i
    rw [heq, if_neg, if_neg] at hst
    · exact hst
    · rintro ⟨rfl, -⟩
      exact hi h.current
    · rintro rfl
      exact hi hmem

/-- `Schedule` gives the processor to the contender after the current one. -/
theorem Rotating.schedule (h : Rotating l p s) (hl : l.Pairwise (· < ·)) (hp : 0 ≤ p)
    (hn : 2 ≤ l.length) {a : ℕ} (ha : l[a]? = some s.CurrentTaskPID) (K : Kernel) (rsp : ℕ) :
  Rotating l p (Schedule K s rsp).1 ∧ Turned l s (Schedule K s rsp).1 ∧
    l[(a + 1) % l.length]? = some (Schedule K s rsp).1.CurrentTaskPID
  := by
  obtain ⟨next, hnext, hne, hfound⟩ := h.next_pid hl hp hn ha
  have hmem : next ∈ l := List.mem_of_getElem? hnext
  have hswitch : (Schedule K s rsp).1 = (Schedule.switch s rsp next).1 := by
    have hindex := ((h.members next).mp hmem).1
    rw [Schedule, if_neg (by simp [h.consistent.started])]
    dsimp only
    rw [settle_quiet K h.quiet, hfound, if_neg (by have := hindex.1; omega)]
  rw [hswitch, switch_CurrentTaskPID]
  obtain ⟨hrotating, hturned⟩ := h.switch hmem hne rsp
  exact ⟨hrotating, hturned, hnext⟩

/-! ### Runs -/

/-- The state of an entry depends on the current task only. -/
theorem Rotating.state_eq {s' : Sched} (h : Rotating l p s) (h' : Rotating l p s')
    (hturned : Turned l s s') {i : ℤ} :
  (s'.TaskTable i).state = if i = s'.CurrentTaskPID then TASK_RUNNING
    else if i = s.CurrentTaskPID then TASK_WAITING else (s.TaskTable i).state
  := by
  split_ifs with hin hic
  · rw [hin, h'.running]
  · apply h'.waiting _ hin
    rw [hic]
    exact h.current
  · by_cases hi : i ∈ l
    · rw [h'.waiting hi hin, h.waiting hi hic]
    · obtain ⟨st, r, heq, hst⟩ := hturned i
      rw [heq]
      exact hst hi

/-- After `k` calls the current task is `k` places further on. -/
theorem Rotating.rounds (h : Rotating l p s) (hl : l.Pairwise (· < ·)) (hp : 0 ≤ p)
    (hn : 2 ≤ l.length) {a : ℕ} (ha : l[a]? = some s.CurrentTaskPID) (K : ℕ → Kernel) (rsp : ℕ → ℕ)
    (k : ℕ) :
  Rotating l p (Sched.rounds K rsp s k) ∧ Turned l s (Sched.rounds K rsp s k) ∧
    l[(a + k) % l.length]? = some (Sched.rounds K rsp s k).CurrentTaskPID
  := by
  induction k with
  | zero =>
      obtain ⟨hlt, -⟩ := List.getElem?_eq_some_iff.mp ha
      rw [Nat.add_zero, Nat.mod_eq_of_lt hlt]
      exact ⟨h, Turned.refl l s, ha⟩
  | succ k ih =>
      obtain ⟨hrotating, hturned, hplace⟩ := ih
      obtain ⟨hrotating', hturned', hplace'⟩ :=
        hrotating.schedule hl hp hn hplace (K k) (rsp k)
      rw [Nat.mod_add_mod, Nat.add_assoc] at hplace'
      exact ⟨hrotating', hturned.trans hturned', hplace'⟩

end

theorem contenders_increasing (s : Sched) :
  (contenders s).Pairwise (· < ·)
  := by
  apply List.Pairwise.filter
  rw [indices, List.pairwise_map]
  apply List.pairwise_lt_range.imp
  intro i j hij
  exact_mod_cast hij

/-- Take a state without zombies and sleepers whose current task runs, at the highest priority of
all tasks that wait or run, and shares it with others.  Each call of `Schedule` gives the
processor to the next of those tasks in the order of the table; each of them has it once in as
many calls as there are tasks, after which the table is what it was, but for the saved stack
pointers; and no task of lower priority runs. -/
theorem round_robin {s : Sched} (h : Consistent s) (hpriority : NonNegative s)
    (hquiet : ∀ i, Index i → (s.TaskTable i).state ≠ TASK_ZOMBIE ∧
      (s.TaskTable i).state ≠ TASK_SLEEPING)
    (hrun : (s.TaskTable s.CurrentTaskPID).state = TASK_RUNNING)
    (hmax : ∀ i, Index i →
      ((s.TaskTable i).state = TASK_WAITING ∨ (s.TaskTable i).state = TASK_RUNNING) →
        (s.TaskTable i).priority ≤ (s.TaskTable s.CurrentTaskPID).priority)
    (hn : 2 ≤ (contenders s).length) (K : ℕ → Kernel) (rsp : ℕ → ℕ) :
  let n := (contenders s).length
  let after := rounds K rsp s
  (∃ a, ∀ k, (contenders s)[(a + k) % n]? = some (after k).CurrentTaskPID) ∧
    (∀ k, ∀ i ∈ contenders s, ∃! j, j < n ∧ (after (k + 1 + j)).CurrentTaskPID = i) ∧
    (∀ k, (after (k + n)).CurrentTaskPID = (after k).CurrentTaskPID ∧
      ∀ i, { (after (k + n)).TaskTable i with rsp := 0 } = { (after k).TaskTable i with rsp := 0 }) ∧
    ∀ k i, Index i → ((after k).TaskTable i).state = TASK_RUNNING →
      i = (after k).CurrentTaskPID ∧
        ((after k).TaskTable i).priority = (s.TaskTable s.CurrentTaskPID).priority
  := by
  have hl := contenders_increasing s
  have hmem : ∀ i, i ∈ contenders s ↔ Index i ∧
      ((s.TaskTable i).state = TASK_WAITING ∨ (s.TaskTable i).state = TASK_RUNNING) ∧
        (s.TaskTable i).priority = (s.TaskTable s.CurrentTaskPID).priority := by
    intro i
    rw [contenders, List.mem_filter, mem_indices, decide_eq_true_eq]
  have hcurrent : s.CurrentTaskPID ∈ contenders s :=
    (hmem _).mpr ⟨h.current, Or.inr hrun, rfl⟩
  have hrotating : Rotating (contenders s) (s.TaskTable s.CurrentTaskPID).priority s :=
    ⟨h, hquiet, hrun, hmem, hcurrent, fun i hi hwaiting => hmax i hi (Or.inl hwaiting)⟩
  obtain ⟨a, ha⟩ := List.mem_iff_getElem?.mp hcurrent
  have hrounds := hrotating.rounds hl (hpriority _ h.current) hn ha K rsp
  generalize contenders s = l at hl hmem hn hrotating hrounds
  dsimp only
  have hplace := fun k => (hrounds k).2.2
  refine ⟨⟨a, hplace⟩, ?_, ?_, ?_⟩
  · intro k i hi
    exact Cycle.existsUnique_visit (hl.imp fun h => h.ne) hplace (k + 1) hi
  · intro k
    have hsame := Cycle.visit_add_length hplace k
    refine ⟨hsame, ?_⟩
    intro i
    obtain ⟨hrotating₁, hturned₁, -⟩ := hrounds k
    obtain ⟨hrotating₂, hturned₂, -⟩ := hrounds (k + l.length)
    have hstate : ((rounds K rsp s (k + l.length)).TaskTable i).state =
        ((rounds K rsp s k).TaskTable i).state := by
      rw [hrotating.state_eq hrotating₂ hturned₂, hrotating.state_eq hrotating₁ hturned₁, hsame]
    obtain ⟨st₁, r₁, heq₁, -⟩ := hturned₁ i
    obtain ⟨st₂, r₂, heq₂, -⟩ := hturned₂ i
    rw [heq₁, heq₂] at hstate
    dsimp only at hstate
    rw [heq₁, heq₂, hstate]
  · intro k i hi hrunning
    obtain ⟨hrotating', hturned, -⟩ := hrounds k
    have heq := hrotating'.consistent.running i hi hrunning
    refine ⟨heq, ?_⟩
    rw [heq]
    exact ((hrotating'.members _).mp hrotating'.current).2.2

/-- The idle task and a child it has forked, of the same priority. -/
theorem round_robin_fork :
  let K : Kernel := ⟨fun m _ => (0x1000, m), fun m _ => m, 0, 0⟩
  let s := perform K reset.sched_init (.create (.TaskFork 0x2000))
  (contenders s).length = 2 ∧ (rounds (fun _ => K) (fun _ => 0) s 6).CurrentTaskPID = s.CurrentTaskPID
  := by
  intro K s
  have hreach : Transition.Run Step reset.sched_init [(K, .create (.TaskFork 0x2000))] s :=
    Transition.Run.cons rfl (Transition.Run.nil _)
  obtain ⟨hvalid, hnonneg⟩ := reachable_nonNegative hreach
  have hall : ∀ n < MAX_TASK_COUNT,
      ((s.TaskTable (n : ℕ)).state ≠ TASK_ZOMBIE ∧ (s.TaskTable (n : ℕ)).state ≠ TASK_SLEEPING) ∧
        (s.TaskTable (n : ℕ)).priority ≤ (s.TaskTable s.CurrentTaskPID).priority := by
    decide +kernel
  have hindex : ∀ i, Index i → ∃ n : ℕ, n < MAX_TASK_COUNT ∧ i = n := by
    rintro i ⟨hlo, hhi⟩
    lift i to ℕ using hlo
    exact ⟨i, Nat.cast_lt.mp hhi, rfl⟩
  have hlength : (contenders s).length = 2 := by decide +kernel
  obtain ⟨-, -, hsame, -⟩ := round_robin hvalid.toConsistent hnonneg
    (by
      intro i hi
      obtain ⟨n, hn, rfl⟩ := hindex i hi
      exact (hall n hn).1)
    (by decide +kernel)
    (by
      intro i hi _
      obtain ⟨n, hn, rfl⟩ := hindex i hi
      exact (hall n hn).2)
    hlength.ge (fun _ => K) (fun _ => 0)
  rw [hlength] at hsame
  refine ⟨hlength, ?_⟩
  rw [(hsame 4).1, (hsame 2).1, (hsame 0).1]
  rfl

end Sched
