import LySystem.Sched.Reachable
import LySystem.Sched.Switch

/-!
# The first switch to a task

`CreateTask` and `TaskFork` write by hand what `switch_to` takes off a stack.  No task has run on
the new stack then, so what the first `switch_to` to the new task loads is what was written.
-/

namespace Sched

open Cpu TaskState Transition

/-! ### The words on a new stack -/

theorem word_store_nat (m : Memory) (a w : ℕ) :
  (m.store a 8 w).word a = BitVec.ofNat 64 w
  := by
  rw [Memory.word, Memory.load_store]
  apply BitVec.eq_of_toNat_eq
  rw [BitVec.toNat_ofNat, BitVec.toNat_ofNat, Nat.mod_mod_of_dvd _ (by decide)]

/-- The words are below `top`, the first one uppermost. -/
theorem push_spec (ws : List ℕ) {top : ℕ} {m : Memory} (hlen : 8 * ws.length ≤ top)
    (htop : top < 2 ^ 64) :
  (push ws (top, m)).1 + 8 * ws.length = top ∧
    Below (ws.map (BitVec.ofNat 64)) top (push ws (top, m)).2 ∧
    ∀ x, x < (push ws (top, m)).1 ∨ top ≤ x → (push ws (top, m)).2 x = m x
  := by
  induction ws using List.reverseRecOn with
  | nil =>
      refine ⟨rfl, ?_, fun _ _ => rfl⟩
      intro k hk
      cases hk
  | append_singleton ws w ih =>
      rw [List.length_append, List.length_singleton] at hlen
      obtain ⟨hsp, hbelow, hmem⟩ := ih (by omega)
      have hpush : push (ws ++ [w]) (top, m) =
          (sub64 (push ws (top, m)).1 8,
            (push ws (top, m)).2.store (sub64 (push ws (top, m)).1 8) 8 w) := by
        rw [push, List.foldl_append]
        rfl
      rw [hpush]
      generalize push ws (top, m) = r at hsp hbelow hmem
      obtain ⟨a, m'⟩ := r
      dsimp only at hsp hbelow hmem ⊢
      rw [sub64_of_le (by omega) (by omega), List.length_append, List.length_singleton]
      refine ⟨by omega, ?_, ?_⟩
      · intro k hk
        rw [List.length_map, List.length_append, List.length_singleton] at hk
        by_cases hlast : k = ws.length
        · subst hlast
          rw [show top - 8 * (ws.length + 1) = a - 8 by omega, word_store_nat]
          simp
        · have hk' : k < (ws.map (BitVec.ofNat 64)).length := by
            rw [List.length_map]
            omega
          have hagree : Memory.AgreeOn a top m' (m'.store (a - 8) 8 w) := by
            apply Memory.AgreeOn.store
            omega
          simp only [List.map_append, List.getElem_append_left hk', ← hbelow k hk']
          apply hagree.word
          · rw [List.length_map] at hk'
            omega
          · omega
      · intro x hx
        rw [Memory.store_outside _ _ (by omega), hmem x (by omega)]

/-! ### Up to the first switch -/

/-- The task of the entry `id` is there and has not ended, and another one is the current task. -/
def Unvisited (id : ℤ) (s : Sched) : Prop :=
  Index id ∧ id ≠ s.CurrentTaskPID ∧ (s.TaskTable id).state ≠ TASK_EMPTY ∧
    (s.TaskTable id).state ≠ TASK_ZOMBIE

/-- After `s`, the first call of `switch_to` for the entry `id` gets the stack pointer `r`. -/
def FirstSwitch (id : ℤ) (s : Sched) (r : ℕ) : Prop :=
  ∃ ls t op t' rsp K, Run (Restrict Step fun s _ => Unvisited id s) s ls t ∧ Unvisited id t ∧
    Schedule.call t op = some (t', rsp) ∧ (Schedule K t' rsp).1.CurrentTaskPID = id ∧
    (Schedule K t' rsp).2 = some r

section

variable {id : ℤ} {s : Sched}

theorem settled_unvisited (h : Unvisited id s) :
  (Schedule.settled id (s.TaskTable id)).rsp = (s.TaskTable id).rsp
  := by
  rw [Schedule.settled, if_neg (fun hz => h.2.2.2 hz.2), Schedule.wake]
  split_ifs <;> rfl

/-- `Schedule` writes the saved stack pointer of the task it leaves only. -/
theorem schedule_rsp (h : Unvisited id s) (K : Kernel) (rsp : ℕ) :
  ((Schedule K s rsp).1.TaskTable id).rsp = (s.TaskTable id).rsp
  := by
  obtain ⟨-, hcur, -⟩ := foldl_settle K s MAX_TASK_COUNT
  have hentry := settle_entry K s h.1
  by_cases hstopped : s.scheduler_started = false
  · rw [Schedule, if_pos hstopped]
  rw [Schedule, if_neg hstopped]
  dsimp only
  rw [← settled_unvisited h, ← hentry]
  generalize (List.range MAX_TASK_COUNT).foldl (Schedule.settle K) s = s' at hcur hentry
  have hswitch : ∀ next,
      ((Schedule.switch s' rsp next).1.TaskTable id).rsp = (s'.TaskTable id).rsp := by
    intro next
    by_cases hne : next = s'.CurrentTaskPID
    · rw [Schedule.switch, if_pos hne]
    · rw [switch_rsp hne, if_neg]
      rw [hcur]
      exact h.2.1
  split_ifs
  · rfl
  · exact hswitch 0
  · exact hswitch _

/-- Where `Schedule` goes to another task, it loads the stack pointer saved for it. -/
theorem schedule_loads (h : Unvisited id s) {K : Kernel} {rsp r : ℕ}
    (hto : (Schedule K s rsp).1.CurrentTaskPID = id) (hr : (Schedule K s rsp).2 = some r) :
  r = (s.TaskTable id).rsp
  := by
  have hentry := settle_entry K s h.1
  rw [← settled_unvisited h, ← hentry]
  by_cases hstopped : s.scheduler_started = false
  · rw [Schedule, if_pos hstopped] at hr
    cases hr
  rw [Schedule, if_neg hstopped] at hto hr
  dsimp only at hto hr
  generalize (List.range MAX_TASK_COUNT).foldl (Schedule.settle K) s = s' at hto hr
  have hswitch : ∀ next, (Schedule.switch s' rsp next).1.CurrentTaskPID = id →
      (Schedule.switch s' rsp next).2 = some r → r = (s'.TaskTable id).rsp := by
    intro next hnext hloaded
    rw [switch_CurrentTaskPID] at hnext
    subst hnext
    by_cases hne : next = s'.CurrentTaskPID
    · rw [Schedule.switch, if_pos hne] at hloaded
      cases hloaded
    · rw [switch_snd hne, Option.some.injEq] at hloaded
      exact hloaded.symm
  by_cases hnone : Schedule.next_pid s' = -1
  · rw [if_pos hnone] at hto hr
    by_cases hrun : (s'.TaskTable s'.CurrentTaskPID).state = TASK_RUNNING
    · rw [if_pos hrun] at hr
      cases hr
    · rw [if_neg hrun] at hto hr
      exact hswitch 0 hto hr
  · rw [if_neg hnone] at hto hr
    exact hswitch _ hto hr

/-- On the way to its call of `Schedule` an operation writes the entry of the current task
only. -/
theorem Unvisited.call {s' : Sched} {op : Op} {rsp : ℕ} (h : Unvisited id s)
    (hcall : Schedule.call s op = some (s', rsp)) :
  Unvisited id s' ∧ s'.TaskTable id = s.TaskTable id
  := by
  obtain ⟨hindex, hcur, hstate⟩ := h
  rcases call_eq hcall with rfl | ⟨f, rfl, -⟩
  · exact ⟨⟨hindex, hcur, hstate⟩, rfl⟩
  · have hsame : (s.edit s.CurrentTaskPID f).TaskTable id = s.TaskTable id := by
      rw [edit_TaskTable, Function.update_of_ne hcur]
    refine ⟨⟨hindex, hcur, ?_⟩, hsame⟩
    rw [hsame]
    exact hstate

/-- No operation writes the saved stack pointer of a task that is not the current one. -/
theorem perform_rsp (h : Unvisited id s) (K : Kernel) (op : Op) :
  ((perform K s op).TaskTable id).rsp = (s.TaskTable id).rsp
  := by
  by_cases hcreate : ∃ c, op = .create c
  · obtain ⟨c, rfl⟩ := hcreate
    rw [perform]
    by_cases href : Refused s c
    · rw [create_refused href]
    · obtain ⟨new, hf, -⟩ := create_filled (K := K) href
      rw [hf.table]
      rintro rfl
      exact h.2.2.1 (emptySlot_eq_some hf.slot).2
  · cases hcall : Schedule.call s op with
    | none =>
        rcases perform_uncalled K hcall (not_exists.mp hcreate) with heq | ⟨-, pid, -, -, -, -, heq⟩
        · rw [heq]
        · rw [heq, edit_TaskTable]
          by_cases hpid : id = pid
          · rw [hpid, Function.update_self]
          · rw [Function.update_of_ne hpid]
    | some r =>
        obtain ⟨s', rsp⟩ := r
        obtain ⟨h', hsame⟩ := h.call hcall
        rw [perform_call K hcall, schedule_rsp h', hsame]

/-- The first switch to a task loads the stack pointer it was created with. -/
theorem FirstSwitch.rsp {r : ℕ} (h : FirstSwitch id s r) :
  r = (s.TaskTable id).rsp
  := by
  obtain ⟨ls, t, op, t', rsp, K, hrun, ht, hcall, hto, hr⟩ := h
  have hkept : (t.TaskTable id).rsp = (s.TaskTable id).rsp := by
    apply hrun.invariant (I := fun t => (t.TaskTable id).rsp = (s.TaskTable id).rsp) _ rfl
    rintro s₁ l s₂ heq ⟨hunvisited, hstep⟩
    rw [hstep, perform_rsp hunvisited, heq]
  obtain ⟨ht', hsame⟩ := ht.call hcall
  rw [schedule_loads ht' hto hr, hsame, hkept]

end

/-! ### What `switch_to` makes of the words -/

/-- `switch_to`, called with `c`, writes nothing from `lo` to `hi`: neither what it pushes nor the
stack pointer it saves lies there. -/
structure Clear (lo hi : ℕ) (c : Cpu) : Prop where
  room : 48 ≤ c.sp
  slot : (c.reg .rdi).toNat + 8 ≤ c.sp - 48 ∨ c.sp ≤ (c.reg .rdi).toNat
  pushes : hi ≤ c.sp - 48 ∨ c.sp ≤ lo
  saved : hi ≤ (c.reg .rdi).toNat ∨ (c.reg .rdi).toNat + 8 ≤ lo

theorem Clear.agree {lo hi : ℕ} {c : Cpu} (h : Clear lo hi c) :
  Memory.AgreeOn lo hi c.mem (c.run switch_to).mem
  := by
  obtain ⟨-, -, -, hmem⟩ := switch_to_left h.room h.slot
  have hpushes := h.pushes
  have hsaved := h.saved
  rw [mem_switch_to]
  intro x hlo hhi
  apply hmem x
  · omega
  · omega

/-- Six zeros below an address make `switch_to` go to that address with its registers zero. -/
theorem switch_to_fresh {c : Cpu} {a : ℕ} {target : BitVec 64} (hclear : Clear (a - 56) a c)
    (hlo : 56 ≤ a) (hhi : a < 2 ^ 64) (hrsi : c.reg .rsi = BitVec.ofNat 64 (a - 56))
    (hbelow : Below [target, 0, 0, 0, 0, 0, 0] a c.mem) :
  (c.run switch_to).rip = target ∧ (c.run switch_to).reg .rsp = BitVec.ofNat 64 a ∧
    ∀ r ∈ switchRegs, (c.run switch_to).reg r = 0
  := by
  -- A processor that would have pushed the zeros.
  let e : Cpu := { c with reg := fun r => if r = .rsp then BitVec.ofNat 64 (a - 8) else 0 }
  have hesp : e.sp = a - 8 := by
    change (BitVec.ofNat 64 (a - 8)).toNat = _
    rw [BitVec.toNat_ofNat, Nat.mod_eq_of_lt (by omega)]
  have hbelow' := hbelow.agree hclear.agree (by simp; omega) le_rfl
  obtain ⟨hrip, hrsp, hregs⟩ := switch_to_enters (e := e) hclear.room hclear.slot
    (by
      rw [hrsi]
      change _ = BitVec.ofNat 64 (a - 8) - 48
      bv_omega)
    (by omega)
    (by
      rw [hesp]
      intro k hk
      have hk' : k < 6 := hk
      have hword := hbelow' (k + 1) (by simp; omega)
      rw [show a - 8 - 8 * (k + 1) = a - 8 * (k + 1 + 1) by omega, hword]
      interval_cases k <;> rfl)
  refine ⟨?_, ?_, ?_⟩
  · rw [hrip, hesp]
    exact hbelow' 0 (by simp)
  · rw [hrsp]
    change BitVec.ofNat 64 (a - 8) + 8 = _
    bv_omega
  · intro r hr
    rw [hregs r hr]
    apply if_neg
    rintro rfl
    revert hr
    decide

end Sched
