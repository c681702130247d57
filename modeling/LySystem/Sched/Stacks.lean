import LySystem.Sched.Reachable
import Mathlib.Algebra.BigOperators.Ring.Finset

/-!
# The stacks of the tasks

Each task but the kernel itself has a stack of its own, allocated when the task is created
and freed when `Schedule` reaps it.  Over a run this is an account of the blocks allocated
and the blocks freed, to be balanced against the table.
-/

namespace Sched

open TaskState Transition

/-! ### The account -/

/-- The stack freed in the round `i` of the first loop of `Schedule`. -/
def Schedule.reap (s : Sched) (i : ℕ) : List ℕ :=
  let t := s.TaskTable i
  if 0 < i ∧ t.state = TASK_ZOMBIE ∧ t.kstack ≠ 0 then [t.kstack] else []

/-- The stacks an operation passes to `kfree`, in order. -/
def frees (s : Sched) (op : Op) : List ℕ :=
  match Schedule.call s op with
  | some (s', _) => (List.range MAX_TASK_COUNT).flatMap (Schedule.reap s')
  | none => []

/-- The stacks an operation obtains from `kmalloc`. -/
def allocates (K : Kernel) (s : Sched) : Op → List ℕ
  | .create (.CreateTask ..) =>
      if MAX_TASK_COUNT ≤ s.TaskCount ∨ s.emptySlot = none then [] else [(K.kmalloc s.mem 4096).1]
  | .create (.TaskFork _) => if s.emptySlot = none then [] else [(K.kmalloc s.mem 4096).1]
  | _ => []

/-- The scheduler, with the stacks allocated and the stacks freed since the start. -/
structure Account where
  sched : Sched
  allocated : List ℕ
  freed : List ℕ

/-- The block is allocated and not yet freed. -/
def Account.Live (a : Account) (b : ℕ) : Prop := a.freed.count b < a.allocated.count b

def Account.start (s : Sched) : Account := ⟨s.sched_init, [], []⟩

def Account.perform (a : Account) (l : Kernel × Op) : Account where
  sched := Sched.perform l.1 a.sched l.2
  allocated := a.allocated ++ allocates l.1 a.sched l.2
  freed := a.freed ++ frees a.sched l.2

def Account.Step (a : Account) (l : Kernel × Op) (a' : Account) : Prop := a' = a.perform l

/-- A stack that is asked for is given, and is no block in use. -/
def Fresh (a : Account) (l : Kernel × Op) : Prop :=
  ∀ b ∈ allocates l.1 a.sched l.2, b ≠ 0 ∧ ¬ a.Live b

/-- The entry `i`, not that of the kernel itself, is occupied by a task with the stack `b`. -/
def Holds (s : Sched) (i : ℤ) (b : ℕ) : Prop :=
  Index i ∧ i ≠ 0 ∧ (s.TaskTable i).state ≠ TASK_EMPTY ∧ (s.TaskTable i).kstack = b

/-- The number of occupied entries. -/
def occupied (s : Sched) : ℕ :=
  ((Finset.range MAX_TASK_COUNT).filter fun i : ℕ => (s.TaskTable i).state ≠ TASK_EMPTY).card

/-- What an entry adds to the stacks of the occupied entries. -/
def stackOf (i : ℕ) (t : Task) : Multiset ℕ :=
  if 0 < i ∧ t.state ≠ TASK_EMPTY then {t.kstack} else 0

/-! ### Totals over the table -/

theorem index_cast {i : ℕ} (h : i < MAX_TASK_COUNT) :
  Index i
  := ⟨Int.natCast_nonneg i, Nat.cast_lt.mpr h⟩

section

variable {M : Type*} [AddCommMonoid M] {w : ℕ → Task → M} {s s' : Sched}

def total (w : ℕ → Task → M) (s : Sched) : M :=
  ∑ i ∈ Finset.range MAX_TASK_COUNT, w i (s.TaskTable i)

theorem total_congr (h : ∀ i < MAX_TASK_COUNT, w i (s'.TaskTable i) = w i (s.TaskTable i)) :
  total w s' = total w s
  := by
  apply Finset.sum_congr rfl
  intro i hi
  apply h i (Finset.mem_range.mp hi)

/-- The total when a single entry changes, and counted for nothing before. -/
theorem total_filled {id : ℕ} (hid : id < MAX_TASK_COUNT) (hzero : w id (s.TaskTable id) = 0)
    (h : ∀ j : ℤ, j ≠ id → s'.TaskTable j = s.TaskTable j) :
  total w s' = w id (s'.TaskTable id) + total w s
  := by
  have hmem := Finset.mem_range.mpr hid
  rw [total, total, ← Finset.add_sum_erase _ _ hmem, ← Finset.add_sum_erase _ _ hmem, hzero,
    zero_add]
  congr 1
  apply Finset.sum_congr rfl
  intro j hj
  rw [h j (Nat.cast_injective.ne (Finset.ne_of_mem_erase hj))]

end

theorem occupied_eq (s : Sched) :
  (occupied s : ℤ) = total (fun _ t => if t.state ≠ TASK_EMPTY then 1 else 0) s
  := by
  rw [occupied, Finset.natCast_card_filter, total]

/-- The block `b` is the stack of as many occupied entries as hold it. -/
theorem count_stacks (s : Sched) (b : ℕ) :
  (total stackOf s).count b =
    ((Finset.range MAX_TASK_COUNT).filter fun i : ℕ =>
      0 < i ∧ (s.TaskTable i).state ≠ TASK_EMPTY ∧ (s.TaskTable i).kstack = b).card
  := by
  rw [total, Multiset.count_sum', Finset.card_filter]
  apply Finset.sum_congr rfl
  intro i _
  rw [stackOf]
  by_cases h : 0 < i ∧ (s.TaskTable i).state ≠ TASK_EMPTY
  · simp [h, Multiset.count_singleton, eq_comm]
  · rw [if_neg h, Multiset.count_zero, if_neg]
    rintro ⟨hpos, hused, -⟩
    exact h ⟨hpos, hused⟩

/-! ### Balance -/

/-- From `s` to `s'` the counter has followed the entries, and the stacks that left the table
are those freed. -/
structure Balanced (s s' : Sched) (freed : List ℕ) : Prop where
  count : s'.TaskCount + occupied s = s.TaskCount + occupied s'
  blocks : total stackOf s = total stackOf s' + freed

theorem Balanced.trans {s s' s'' : Sched} {freed freed' : List ℕ} (h : Balanced s s' freed)
    (h' : Balanced s' s'' freed') :
  Balanced s s'' (freed ++ freed')
  := by
  obtain ⟨hcount, hstacks⟩ := h
  obtain ⟨hcount', hstacks'⟩ := h'
  constructor
  · omega
  · rw [hstacks, hstacks', ← Multiset.coe_add, add_assoc, add_comm (freed : Multiset ℕ)]

/-- The same entries are occupied, with the same stacks. -/
theorem Balanced.same {s s' : Sched} (hcount : s'.TaskCount = s.TaskCount) (hkept : Kept s s')
    (hused : ∀ i, Index i → (s.TaskTable i).state ≠ TASK_EMPTY →
      (s'.TaskTable i).state ≠ TASK_EMPTY) :
  Balanced s s' []
  := by
  have hiff : ∀ i < MAX_TASK_COUNT,
      (s.TaskTable i).state ≠ TASK_EMPTY ↔ (s'.TaskTable i).state ≠ TASK_EMPTY := by
    intro i hi
    exact ⟨hused i (index_cast hi), fun h => (hkept i (index_cast hi) h).1⟩
  constructor
  · rw [hcount, occupied_eq, occupied_eq]
    congr 1
    apply total_congr
    intro i hi
    simp only [hiff i hi]
  · rw [Multiset.coe_nil, add_zero]
    apply total_congr
    intro i hi
    rw [stackOf, stackOf]
    by_cases h : (s'.TaskTable i).state ≠ TASK_EMPTY
    · rw [(hkept i (index_cast hi) h).2.2]
      simp only [hiff i hi]
    · rw [if_neg (fun hn => h ((hiff i hi).mp hn.2)), if_neg (fun hn => h hn.2)]

/-- A change of one entry that keeps it occupied. -/
theorem Balanced.edit {s : Sched} {i : ℤ} {f : Task → Task}
    (hf : ∀ t, (f t).pid = t.pid ∧ (f t).kstack = t.kstack)
    (hstate : ∀ t, (f t).state ≠ TASK_EMPTY) (hused : (s.TaskTable i).state ≠ TASK_EMPTY) :
  Balanced s (s.edit i f) []
  := by
  refine @Balanced.same s (s.edit i f) rfl (edit_kept hf hused) ?_
  intro j _ hj
  by_cases heq : j = i
  · rw [edit_TaskTable, heq, Function.update_self]
    apply hstate
  · rw [edit_TaskTable, Function.update_of_ne heq]
    apply hj

/-! ### The scheduler -/

/-- The first loop of `Schedule` decrements the counter for each zombie, and frees its
stack. -/
theorem foldl_settle_account (K : Kernel) (s : Sched) (n : ℕ) :
  let s' := (List.range n).foldl (Schedule.settle K) s
  s'.TaskCount +
      (∑ i ∈ Finset.range n, if 0 < i ∧ (s.TaskTable i).state = TASK_ZOMBIE then 1 else 0) =
        s.TaskCount ∧
    s'.mem = ((List.range n).flatMap (Schedule.reap s)).foldl K.kfree s.mem
  := by
  induction n with
  | zero => exact ⟨add_zero _, rfl⟩
  | succ n ih =>
      -- The round `n` finds the entry as it was at the start.
      have hentry : ((List.range n).foldl (Schedule.settle K) s).TaskTable n = s.TaskTable n := by
        rw [(foldl_settle K s n).1, if_neg (by omega)]
      obtain ⟨hcount, hmem⟩ := ih
      simp only [List.range_succ, List.foldl_append, List.foldl_cons, List.foldl_nil,
        List.flatMap_append, List.flatMap_cons, List.flatMap_nil, List.append_nil,
        Finset.sum_range_succ]
      rw [Schedule.settle, Schedule.reap]
      simp only [hentry]
      generalize (List.range n).foldl (Schedule.settle K) s = s' at hcount hmem ⊢
      by_cases hzombie : 0 < n ∧ (s.TaskTable n).state = TASK_ZOMBIE
      · rw [if_pos hzombie, if_pos hzombie, ← hmem]
        constructor
        · dsimp only
          omega
        · by_cases hk : (s.TaskTable n).kstack = 0
          · simp [hk, hmem]
          · simp [hk, hzombie, hmem]
      · rw [if_neg hzombie, if_neg hzombie, add_zero]
        have hnot : ¬ (0 < n ∧ (s.TaskTable n).state = TASK_ZOMBIE ∧ (s.TaskTable n).kstack ≠ 0) := by
          rintro ⟨hpos, hstate, -⟩
          exact hzombie ⟨hpos, hstate⟩
        rw [if_neg hnot, List.foldl_nil]
        split_ifs
        · exact ⟨hcount, hmem⟩
        · exact ⟨hcount, hmem⟩

theorem coe_flatMap_range (f : ℕ → List ℕ) (n : ℕ) :
  (((List.range n).flatMap f : List ℕ) : Multiset ℕ) =
    ∑ i ∈ Finset.range n, (f i : Multiset ℕ)
  := by
  induction n with
  | zero => rfl
  | succ n ih =>
      rw [List.range_succ, List.flatMap_append, List.flatMap_singleton, ← Multiset.coe_add, ih,
        Finset.sum_range_succ]

/-- A round of the first loop frees an entry or keeps it occupied. -/
theorem settled_occupied {i : ℤ} {t : Task} (h : ¬ (0 < i ∧ t.state = TASK_ZOMBIE)) :
  ((Schedule.settled i t).state ≠ TASK_EMPTY ↔ t.state ≠ TASK_EMPTY) ∧
    (Schedule.settled i t).kstack = t.kstack
  := by
  rcases settled_eq i t with ⟨hpos, hz, -⟩ | ⟨-, hkstack, heq | ⟨hsleep, heq⟩⟩
  · exact absurd ⟨hpos, hz⟩ h
  · rw [heq]
    exact ⟨Iff.rfl, hkstack⟩
  · rw [hsleep, heq]
    exact ⟨by simp, hkstack⟩

/-- The first loop of `Schedule`. -/
theorem Balanced.settle {s : Sched} (K : Kernel) (h : Stacked s) :
  Balanced s ((List.range MAX_TASK_COUNT).foldl (Schedule.settle K) s)
    ((List.range MAX_TASK_COUNT).flatMap (Schedule.reap s))
  := by
  have hcount := (foldl_settle_account K s MAX_TASK_COUNT).1
  have hentry : ∀ i < MAX_TASK_COUNT,
      ((List.range MAX_TASK_COUNT).foldl (Schedule.settle K) s).TaskTable i =
        Schedule.settled i (s.TaskTable i) := by
    intro i hi
    exact settle_entry K s (index_cast hi)
  generalize (List.range MAX_TASK_COUNT).foldl (Schedule.settle K) s = s' at hcount hentry
  constructor
  · rw [← hcount, occupied_eq, occupied_eq, add_assoc, total, total, ← Finset.sum_add_distrib]
    congr 1
    apply Finset.sum_congr rfl
    intro i hi
    rw [hentry i (Finset.mem_range.mp hi)]
    by_cases hzombie : 0 < i ∧ (s.TaskTable i).state = TASK_ZOMBIE
    · simp [Schedule.settled, hzombie, Task.zero]
    · rw [if_neg hzombie, zero_add]
      have hnot : ¬ (0 < (i : ℤ) ∧ (s.TaskTable i).state = TASK_ZOMBIE) := mod_cast hzombie
      simp only [(settled_occupied hnot).1]
  · rw [coe_flatMap_range, total, total, ← Finset.sum_add_distrib]
    apply Finset.sum_congr rfl
    intro i hi
    rw [hentry i (Finset.mem_range.mp hi), stackOf, stackOf, Schedule.reap]
    by_cases hzombie : 0 < i ∧ (s.TaskTable i).state = TASK_ZOMBIE
    · have hk : (s.TaskTable i).kstack ≠ 0 := by
        apply h i (index_cast (Finset.mem_range.mp hi))
        · exact Nat.cast_ne_zero.mpr (Nat.pos_iff_ne_zero.mp hzombie.1)
        · simp [hzombie.2]
      simp [Schedule.settled, hzombie, hk, Task.zero]
    · have hnot : ¬ (0 < i ∧ (s.TaskTable i).state = TASK_ZOMBIE ∧ (s.TaskTable i).kstack ≠ 0) := by
        rintro ⟨hpos, hstate, -⟩
        exact hzombie ⟨hpos, hstate⟩
      obtain ⟨hused, hkstack⟩ := settled_occupied (i := i) (t := s.TaskTable i) (mod_cast hzombie)
      simp only [hused, hkstack, if_neg hnot, Multiset.coe_nil, add_zero]

theorem Balanced.switch {s : Sched} (rsp : ℕ) {next : ℤ}
    (hused : (s.TaskTable next).state ≠ TASK_EMPTY) :
  Balanced s (Schedule.switch s rsp next).1 []
  := by
  apply Balanced.same _ (switch_kept rsp hused)
  · intro i _ hi
    by_cases hne : next = s.CurrentTaskPID
    · rw [Schedule.switch, if_pos hne]
      apply hi
    · rw [switch_state hne]
      split_ifs <;> simp [hi]
  · rw [Schedule.switch]
    split_ifs <;> rfl

/-- What `Schedule` frees is what its first loop frees. -/
theorem Balanced.schedule {s : Sched} (K : Kernel) (rsp : ℕ) (h : Consistent s)
    (hstacked : Stacked s) :
  Balanced s (Schedule K s rsp).1 ((List.range MAX_TASK_COUNT).flatMap (Schedule.reap s))
  := by
  rw [Schedule, if_neg (by simp [h.started])]
  dsimp only
  have hs := h.settle K
  have hsettle := Balanced.settle K hstacked
  generalize (List.range MAX_TASK_COUNT).foldl (Schedule.settle K) s = s' at hs hsettle
  split_ifs with hnone hrun
  · apply hsettle
  · simpa using hsettle.trans (Balanced.switch rsp hs.idle.1)
  · have hused : (s'.TaskTable (Schedule.next_pid s')).state ≠ TASK_EMPTY := by
      rw [((next_pid_eq hs.current).resolve_left hnone).2]
      simp
    simpa using hsettle.trans (Balanced.switch rsp hused)

theorem Schedule_mem {K : Kernel} {s : Sched} (rsp : ℕ) (h : s.scheduler_started = true) :
  (Schedule K s rsp).1.mem =
    ((List.range MAX_TASK_COUNT).flatMap (Schedule.reap s)).foldl K.kfree s.mem
  := by
  rw [← (foldl_settle_account K s MAX_TASK_COUNT).2, Schedule, if_neg (by simp [h])]
  dsimp only
  generalize (List.range MAX_TASK_COUNT).foldl (Schedule.settle K) s = s'
  split_ifs
  · rfl
  · rw [Schedule.switch]
    split_ifs <;> rfl
  · rw [Schedule.switch]
    split_ifs <;> rfl

/-! ### Operations -/

/-- On the way to its call of `Schedule` an operation neither frees nor moves a stack. -/
theorem Stacked.call {s s' : Sched} {op : Op} {rsp : ℕ} (hstacked : Stacked s) (h : Valid s)
    (hcall : Schedule.call s op = some (s', rsp)) :
  Stacked s' ∧ Balanced s s' []
  := by
  rcases call_eq hcall with rfl | ⟨f, rfl, hf, hstate⟩
  · exact ⟨hstacked, Balanced.same rfl (Kept.refl s') (fun _ _ h => h)⟩
  · have hkept := fun t => (⟨(hf t).1, (hf t).2.1⟩ : (f t).pid = t.pid ∧ (f t).kstack = t.kstack)
    have hused : ∀ t, (f t).state ≠ TASK_EMPTY := by
      intro t
      rcases hstate with hstate | ⟨-, hstate⟩
      · simp [hstate]
      · simp [hstate]
    refine ⟨?_, Balanced.edit hkept hused h.occupied⟩
    intro i hi hne hi'
    obtain ⟨hold, -, heq⟩ := edit_kept hkept h.occupied i hi hi'
    rw [heq]
    apply hstacked i hi hne hold

/-- An operation that creates no task passes exactly the stacks `frees` to `kfree`. -/
theorem perform_mem {s : Sched} (h : Valid s) (K : Kernel) {op : Op} (hcreate : ∀ c, op ≠ .create c) :
  (perform K s op).mem = (frees s op).foldl K.kfree s.mem
  := by
  rw [frees]
  cases hcall : Schedule.call s op with
  | none =>
      rcases perform_uncalled K hcall hcreate with heq | ⟨-, pid, -, -, -, -, heq⟩
      · rw [heq]
        rfl
      · rw [heq]
        rfl
  | some r =>
      obtain ⟨s', rsp⟩ := r
      rw [perform_call K hcall, Schedule_mem rsp (h.call hcall).1.started]
      dsimp only
      rcases call_eq hcall with rfl | ⟨f, rfl, -⟩
      · rfl
      · rfl

theorem Balanced.perform {s : Sched} (h : Valid s) (hstacked : Stacked s) (K : Kernel) {op : Op}
    (hcreate : ∀ c, op ≠ .create c) :
  Balanced s (perform K s op) (frees s op)
  := by
  rw [frees]
  cases hcall : Schedule.call s op with
  | none =>
      rcases perform_uncalled K hcall hcreate with heq | ⟨-, pid, -, -, hused, -, heq⟩
      · rw [heq]
        apply Balanced.same rfl (Kept.refl s) (fun _ _ h => h)
      · rw [heq]
        refine Balanced.edit ?_ ?_ hused
        · exact fun _ => ⟨rfl, rfl⟩
        · simp
  | some r =>
      obtain ⟨s', rsp⟩ := r
      obtain ⟨hstacked', hbal⟩ := hstacked.call h hcall
      rw [perform_call K hcall]
      simpa using hbal.trans (Balanced.schedule K rsp (h.call hcall).1 hstacked')

/-! ### Creation -/

theorem allocates_refused {K : Kernel} {s : Sched} {c : Creation} (h : Refused s c) :
  allocates K s (.create c) = []
  := by
  cases c with
  | CreateTask name task ppid => exact if_pos h
  | TaskFork current_rsp => exact if_pos h

theorem allocates_create {K : Kernel} {s : Sched} {c : Creation} (h : ¬ Refused s c) :
  allocates K s (.create c) = [(K.kmalloc s.mem 4096).1]
  := by
  cases c with
  | CreateTask name task ppid => exact if_neg h
  | TaskFork current_rsp => exact if_neg h

theorem allocates_other {K : Kernel} {s : Sched} {op : Op} (h : ∀ c, op ≠ .create c) :
  allocates K s op = []
  := by
  cases op with
  | create c => exact absurd rfl (h c)
  | KillTask => rfl
  | ExitTask => rfl
  | msleep => rfl
  | Schedule => rfl

/-- A creation that finds an entry and a stack. -/
theorem create_balance {K : Kernel} {s : Sched} {c : Creation} (hvalid : Valid s)
    (h : ¬ Refused s c) (hk : (K.kmalloc s.mem 4096).1 ≠ 0) :
  (create K s c).2.TaskCount + occupied s = s.TaskCount + occupied (create K s c).2 ∧
    total stackOf (create K s c).2 = (K.kmalloc s.mem 4096).1 ::ₘ total stackOf s
  := by
  obtain ⟨id, hf, hkstack⟩ := create_filled (K := K) h
  obtain ⟨hlt, hempty⟩ := emptySlot_eq_some hf.slot
  have hpos : 0 < id := by
    rw [Nat.pos_iff_ne_zero]
    rintro rfl
    exact hvalid.idle.1 hempty
  constructor
  · rcases create_outcome (K := K) h with ⟨hnull, -⟩ | ⟨-, -, hcount⟩
    · exact absurd hnull hk
    · rw [hcount, occupied_eq, occupied_eq, total_filled hlt (by simp [hempty]) hf.table]
      simp [hf.state, add_assoc]
  · rw [total_filled hlt (by simp [stackOf, hempty]) hf.table]
    simp [stackOf, hpos, hf.state, hkstack, Multiset.singleton_add]

/-! ### Runs -/

/-- The account agrees with the table. -/
structure Accounted (a : Account) : Prop where
  valid : Valid a.sched
  stacked : Stacked a.sched
  count : a.sched.TaskCount = occupied a.sched
  blocks : (a.allocated : Multiset ℕ) = total stackOf a.sched + a.freed
  distinct : (total stackOf a.sched).Nodup

theorem Accounted.count_eq {a : Account} (h : Accounted a) (b : ℕ) :
  a.allocated.count b = (total stackOf a.sched).count b + a.freed.count b
  := by
  rw [← Multiset.coe_count, h.blocks, Multiset.count_add, Multiset.coe_count]

theorem Accounted.live_iff {a : Account} (h : Accounted a) (b : ℕ) :
  a.Live b ↔ b ∈ total stackOf a.sched
  := by
  rw [Account.Live, h.count_eq, ← Multiset.count_pos]
  omega

theorem Fresh.supplied {a : Account} {l : Kernel × Op} (h : Fresh a l) :
  Supplied a.sched l
  := by
  rintro c heq
  by_cases href : Refused a.sched c
  · left
    exact href
  · right
    apply (h _ _).1
    rw [heq, allocates_create href]
    simp

theorem Accounted.step {a a' : Account} {l : Kernel × Op} (h : Accounted a) (hfresh : Fresh a l)
    (hstep : Account.Step a l a') :
  Accounted a'
  := by
  obtain ⟨K, op⟩ := l
  have hvalid : Valid (perform K a.sched op) := (h.valid.perform K op).1
  have hstacked : Stacked (perform K a.sched op) :=
    h.stacked.step h.valid hfresh.supplied rfl
  rw [hstep]
  by_cases hcreate : ∃ c, op = .create c
  · obtain ⟨c, rfl⟩ := hcreate
    have hfrees : frees a.sched (.create c) = [] := rfl
    by_cases href : Refused a.sched c
    · refine ⟨hvalid, hstacked, ?_, ?_, ?_⟩
      all_goals
        dsimp only [Account.perform, perform]
        rw [create_refused href]
      · apply h.count
      · rw [allocates_refused href, hfrees, List.append_nil, List.append_nil, h.blocks]
      · apply h.distinct
    · rw [Fresh, allocates_create href] at hfresh
      obtain ⟨hne, hfree⟩ := hfresh _ (List.mem_singleton_self _)
      obtain ⟨hcount, hblocks⟩ := create_balance h.valid href hne
      refine ⟨hvalid, hstacked, ?_, ?_, ?_⟩
      · have hbefore := h.count
        dsimp only [Account.perform, perform] at hcount ⊢
        omega
      · dsimp only [Account.perform, perform]
        rw [allocates_create href, hfrees, List.append_nil, hblocks, ← Multiset.coe_add, h.blocks,
          Multiset.coe_singleton, add_comm, Multiset.singleton_add, Multiset.cons_add]
      · dsimp only [Account.perform, perform]
        rw [hblocks, Multiset.nodup_cons, ← h.live_iff]
        exact ⟨hfree, h.distinct⟩
  · have hother := not_exists.mp hcreate
    obtain ⟨hcount, hblocks⟩ := Balanced.perform h.valid h.stacked K hother
    refine ⟨hvalid, hstacked, ?_, ?_, ?_⟩
    · have hbefore := h.count
      dsimp only [Account.perform]
      omega
    · dsimp only [Account.perform]
      rw [allocates_other hother, List.append_nil, h.blocks, hblocks, ← Multiset.coe_add,
        add_assoc, add_comm (frees a.sched op : Multiset ℕ)]
    · apply Multiset.nodup_of_le _ h.distinct
      rw [hblocks]
      apply Multiset.le_add_right

theorem start_accounted (s : Sched) :
  Accounted (Account.start s)
  := by
  have hstacks : total stackOf s.sched_init = 0 := by
    apply Finset.sum_eq_zero
    intro i hi
    apply if_neg
    rintro ⟨hpos, hused⟩
    exact hused (sched_init_empty s (index_cast (Finset.mem_range.mp hi)) (by omega))
  refine ⟨sched_init_valid s, ?_, ?_, ?_, ?_⟩
  · intro i hi hne hused
    exact absurd (sched_init_empty s hi hne) hused
  · have hzero : ((Finset.range MAX_TASK_COUNT).filter fun i : ℕ =>
        (s.sched_init.TaskTable i).state ≠ TASK_EMPTY) = {0} := by
      ext i
      rw [Finset.mem_filter, Finset.mem_singleton, Finset.mem_range]
      constructor
      · rintro ⟨hi, hused⟩
        by_contra hne
        exact hused (sched_init_empty s (index_cast hi) (by omega))
      · rintro rfl
        exact ⟨by decide, (sched_init_valid s).idle.1⟩
    rw [Account.start, occupied, hzero]
    rfl
  · rw [Account.start, hstacks]
    rfl
  · rw [Account.start, hstacks]
    exact Multiset.nodup_zero

theorem run_accounted {s₀ : Sched} {ls : List (Kernel × Op)} {a : Account}
    (h : Run (Restrict Account.Step Fresh) (Account.start s₀) ls a) :
  Accounted a
  := by
  apply h.invariant (I := Accounted)
  · rintro a l a' ha ⟨hfresh, hstep⟩
    exact ha.step hfresh hstep
  · apply start_accounted

/-- The stacks of the table, entry by entry. -/
theorem mem_stacks {s : Sched} {b : ℕ} :
  b ∈ total stackOf s ↔ ∃ i, Holds s i b
  := by
  rw [← Multiset.count_pos, count_stacks, Finset.card_pos]
  constructor
  · rintro ⟨i, hi⟩
    obtain ⟨hi, hpos, hused, heq⟩ := Finset.mem_filter.mp hi
    exact ⟨i, index_cast (Finset.mem_range.mp hi), by omega, hused, heq⟩
  · rintro ⟨i, ⟨hlo, hhi⟩, hne, hused, heq⟩
    lift i to ℕ using hlo
    use i
    rw [Finset.mem_filter, Finset.mem_range]
    exact ⟨by omega, by omega, hused, heq⟩

theorem holds_unique {s : Sched} (h : (total stackOf s).Nodup) {i j : ℤ} {b : ℕ}
    (hi : Holds s i b) (hj : Holds s j b) :
  i = j
  := by
  obtain ⟨⟨hlo, hhi⟩, hne, hused, heq⟩ := hi
  obtain ⟨⟨hlo', hhi'⟩, hne', hused', heq'⟩ := hj
  lift i to ℕ using hlo
  lift j to ℕ using hlo'
  have hle := Multiset.nodup_iff_count_le_one.mp h b
  rw [count_stacks, Finset.card_le_one] at hle
  rw [Nat.cast_inj]
  apply hle
  · rw [Finset.mem_filter, Finset.mem_range]
    exact ⟨by omega, by omega, hused, heq⟩
  · rw [Finset.mem_filter, Finset.mem_range]
    exact ⟨by omega, by omega, hused', heq'⟩

/-- The counter reaches its bound when the table is full. -/
theorem occupied_eq_max (s : Sched) :
  occupied s = MAX_TASK_COUNT ↔ s.emptySlot = none
  := by
  have hiff : occupied s = (Finset.range MAX_TASK_COUNT).card ↔
      ∀ i ∈ Finset.range MAX_TASK_COUNT, (s.TaskTable i).state ≠ TASK_EMPTY :=
    Finset.card_filter_eq_iff
  rw [Finset.card_range] at hiff
  rw [hiff, emptySlot_eq_none]
  simp only [Finset.mem_range]

theorem Accounted.refused_iff {a : Account} (h : Accounted a) (c : Creation) :
  Refused a.sched c ↔ a.sched.emptySlot = none
  := by
  cases c with
  | CreateTask name task ppid =>
      rw [Refused, ← occupied_eq_max, h.count]
      have hle : occupied a.sched ≤ MAX_TASK_COUNT := by
        apply (Finset.card_filter_le _ _).trans_eq
        apply Finset.card_range
      omega
  | TaskFork current_rsp => rfl

theorem Accounted.create_eq {a : Account} (h : Accounted a) (K : Kernel) (c : Creation) :
  (create K a.sched c).1 = -1 ↔ ∀ i, Index i → (a.sched.TaskTable i).state ≠ TASK_EMPTY
  := by
  have hfull : a.sched.emptySlot = none ↔
      ∀ i, Index i → (a.sched.TaskTable i).state ≠ TASK_EMPTY := by
    rw [emptySlot_eq_none]
    constructor
    · rintro hall i ⟨hlo, hhi⟩
      lift i to ℕ using hlo
      exact hall i (by omega)
    · intro hall i hi
      exact hall i (index_cast hi)
  rw [← hfull, ← h.refused_iff c]
  by_cases href : Refused a.sched c
  · rw [create_refused href]
    exact iff_of_true rfl href
  · apply iff_of_false _ href
    rcases create_outcome (K := K) href with ⟨-, heq, -⟩ | ⟨-, hle, -⟩
    · rw [heq]
      decide
    · omega

/-- In a run whose stacks are all given, and fresh, the counter counts the occupied entries,
a creation returns -1 exactly when the table is full, the stacks of the occupied entries are
the blocks allocated and not yet freed, all distinct, and no block is freed more often than
it has been allocated, nor allocated twice without having been freed. The blocks freed are
what the operations pass to `kfree`. -/
theorem stacks_accounted {s₀ : Sched} {ls : List (Kernel × Op)} {a : Account}
    (h : Run (Restrict Account.Step Fresh) (Account.start s₀) ls a) :
  a.sched.TaskCount = occupied a.sched ∧
    (∀ K c, (create K a.sched c).1 = -1 ↔
      ∀ i, Index i → (a.sched.TaskTable i).state ≠ TASK_EMPTY) ∧
    (∀ b, a.Live b ↔ ∃ i, Holds a.sched i b) ∧
    (∀ i j b, Holds a.sched i b → Holds a.sched j b → i = j) ∧
    (∀ b, a.freed.count b ≤ a.allocated.count b ∧
      a.allocated.count b ≤ a.freed.count b + 1) ∧
    ∀ K op, (∀ c, op ≠ .create c) →
      (perform K a.sched op).mem = (frees a.sched op).foldl K.kfree a.sched.mem
  := by
  have ha := run_accounted h
  refine ⟨ha.count, ha.create_eq, ?_, ?_, ?_, ?_⟩
  · intro b
    rw [ha.live_iff, mem_stacks]
  · intro i j b hi hj
    exact holds_unique ha.distinct hi hj
  · intro b
    have hle := Multiset.nodup_iff_count_le_one.mp ha.distinct b
    rw [ha.count_eq]
    omega
  · intro K op hcreate
    exact perform_mem ha.valid K hcreate

/-- A task kills itself, the next one gets its entry and its stack, and is killed twice before
it is reaped. -/
theorem stacks_accounted_reuse :
  let K : Kernel := ⟨fun m _ => (0x1000, m), fun m _ => m, 0, 0⟩
  ∃ a, Run (Restrict Account.Step Fresh) (Account.start reset)
      [(K, .create (.CreateTask (fun _ => 0) 0 0)), (K, .Schedule 0), (K, .KillTask 0 1),
        (K, .create (.TaskFork 0)), (K, .KillTask 0 1), (K, .KillTask 0 1), (K, .Schedule 0)] a ∧
    a.freed = [0x1000, 0x1000] ∧ a.sched.TaskCount = occupied a.sched ∧
    (∀ b, a.Live b ↔ ∃ i, Holds a.sched i b)
  := by
  intro K
  have hrun : ∃ a, Run (Restrict Account.Step Fresh) (Account.start reset)
      [(K, .create (.CreateTask (fun _ => 0) 0 0)), (K, .Schedule 0), (K, .KillTask 0 1),
        (K, .create (.TaskFork 0)), (K, .KillTask 0 1), (K, .KillTask 0 1), (K, .Schedule 0)] a ∧
      a.freed = [0x1000, 0x1000] := by
    refine ⟨_, Run.cons ⟨?_, rfl⟩ <| Run.cons ⟨?_, rfl⟩ <| Run.cons ⟨?_, rfl⟩ <|
      Run.cons ⟨?_, rfl⟩ <| Run.cons ⟨?_, rfl⟩ <| Run.cons ⟨?_, rfl⟩ <|
      Run.cons ⟨?_, rfl⟩ <| Run.nil _, by decide +kernel⟩
    all_goals
      unfold Fresh Account.Live
      decide +kernel
  obtain ⟨a, hrun, hfreed⟩ := hrun
  have ha := stacks_accounted hrun
  exact ⟨a, hrun, hfreed, ha.1, ha.2.2.1⟩

end Sched
