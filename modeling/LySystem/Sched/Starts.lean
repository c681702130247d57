import LySystem.Sched.FirstSwitch

/-!
# How a task starts

The stack that `CreateTask` prepares leads through `switch_to` to the `iretq` at the start of
`thread_starter`, and from there into the function of the task.  No word of it leads back.
-/

namespace Sched

open Cpu

/-- `thread_starter` up to the start of the task. -/
def thread_starter : List Instr := [.iretq]

/-- The function at `task` starts in kernel mode with interrupts on, on the stack at `kstack`. -/
structure Begun (task : BitVec 64) (kstack : ℕ) (d : Cpu) : Prop where
  rip : d.rip = task
  cs : d.cs = 0x08
  ss : d.ss = 0x10
  rflags : d.rflags = 0x202
  sp : kstack ≤ d.sp ∧ d.sp + 8 ≤ kstack + 4096

/-- A function entered with `d` returns, if it returns, to `next`. -/
def ReturnsTo (next : BitVec 64) (d : Cpu) : Prop := ∀ e, Preserved d e → e.rip = next

/-- A function may do nothing but return. -/
theorem preserved_ret (d : Cpu) :
  Preserved d (d.exec .ret)
  := by
  refine ⟨rfl, ?_, ?_⟩
  · rw [exec, setReg]
    dsimp only
    rw [Function.update_self]
  · intro r hr
    rw [exec, setReg]
    dsimp only
    rw [Function.update_of_ne]
    rintro rfl
    revert hr
    decide

/-- A function goes back to the word at its stack pointer. -/
theorem returnsTo_iff (next : BitVec 64) (d : Cpu) :
  ReturnsTo next d ↔ d.mem.word d.sp = next
  := by
  constructor
  · intro h
    have hret := h _ (preserved_ret d)
    exact hret
  · rintro rfl e he
    exact he.rip

/-- A creation that succeeds has found an entry and a stack. -/
theorem create_succeeded {K : Kernel} {s : Sched} {c : Creation} (h : 0 ≤ (create K s c).1) :
  ¬ Refused s c ∧ (K.kmalloc s.mem 4096).1 ≠ 0
  := by
  have href : ¬ Refused s c := by
    intro href
    rw [create_refused href] at h
    dsimp only at h
    omega
  refine ⟨href, ?_⟩
  intro hk
  have := (create_fst (K := K) href).mpr hk
  omega

/-! ### `CreateTask` -/

/-- The words of a new stack, from its top down. -/
def CreateTask.words (K : Kernel) (top task : ℕ) : List ℕ :=
  [0x10, u64 (sub64 top 16 + 8), 0x202, 0x08, task, K.thread_starter, 0, 0, 0, 0, 0, 0]

/-- A task that `CreateTask` creates has the block that `kmalloc` gives as its stack, with the
words at its top. -/
theorem CreateTask_created {K : Kernel} {s : Sched} {name : Memory} {task : ℕ} {ppid : ℤ}
    (h : 0 ≤ (CreateTask K s name task ppid).1) :
  let s' := (CreateTask K s name task ppid).2
  let t := s'.TaskTable (CreateTask K s name task ppid).1
  let top := u64 (t.kstack + 4096)
  let r := push (CreateTask.words K top task) (top, (K.kmalloc s.mem 4096).2)
  t.kstack = (K.kmalloc s.mem 4096).1 ∧ t.rsp = r.1 ∧ s'.mem = r.2
  := by
  obtain ⟨href, hk⟩ := create_succeeded (c := .CreateTask name task ppid) h
  obtain ⟨hroom, hslot⟩ := not_or.mp href
  obtain ⟨id, hid⟩ := Option.ne_none_iff_exists'.mp hslot
  rw [CreateTask, if_neg hroom, hid]
  dsimp only
  rw [if_neg (by simpa using hk)]
  simp [CreateTask.words]

section

variable {K : Kernel} {s : Sched} {name : Memory} {task r : ℕ} {ppid : ℤ} {c : Cpu}

/-- From the first switch to a task on, the words that `CreateTask` wrote are used one after the
other: six registers, the address of `thread_starter`, and the frame of its `iretq`.  The stack
pointer in the frame is that of the last word. -/
theorem created_started (hcreated : 0 ≤ (CreateTask K s name task ppid).1)
    (hfirst : FirstSwitch (CreateTask K s name task ppid).1 (CreateTask K s name task ppid).2 r)
    (hrsi : c.reg .rsi = BitVec.ofNat 64 r) {kstack : ℕ}
    (hkstack : ((CreateTask K s name task ppid).2.TaskTable
      (CreateTask K s name task ppid).1).kstack = kstack)
    (hblock : kstack + 4096 < 2 ^ 64)
    (hmem : Memory.AgreeOn kstack (kstack + 4096) (CreateTask K s name task ppid).2.mem c.mem)
    (hclear : Clear kstack (kstack + 4096) c) :
  let d := (c.run switch_to).run thread_starter
  (c.run switch_to).rip = BitVec.ofNat 64 K.thread_starter ∧ Begun (BitVec.ofNat 64 task) kstack d ∧
    d.mem.word d.sp = 0x10
  := by
  obtain ⟨-, hrsp, hnew⟩ := CreateTask_created hcreated
  rw [hkstack, u64_of_lt hblock] at hrsp hnew
  obtain rfl := hfirst.rsp
  rw [hrsp] at hrsi
  rw [hnew] at hmem
  obtain ⟨hsp, hbelow, -⟩ := push_spec (CreateTask.words K (kstack + 4096) task)
    (m := (K.kmalloc s.mem 4096).2) (by simp [CreateTask.words]) hblock
  generalize push (CreateTask.words K (kstack + 4096) task)
    (kstack + 4096, (K.kmalloc s.mem 4096).2) = p at hrsi hmem hsp hbelow
  -- A processor whose frame is the one written.
  let e : Cpu := {
    reg := fun _ => BitVec.ofNat 64 (kstack + 4096 - 8)
    rip := BitVec.ofNat 64 task
    cs := 0x08
    ss := 0x10
    rflags := 0x202
    mem := c.mem }
  have hlist : (CreateTask.words K (kstack + 4096) task).map (BitVec.ofNat 64) =
      e.frame ++ [BitVec.ofNat 64 K.thread_starter, 0, 0, 0, 0, 0, 0] := by
    rw [CreateTask.words, sub64_of_le (by omega) hblock, u64_of_lt (by omega),
      show kstack + 4096 - 16 + 8 = kstack + 4096 - 8 by omega]
    rfl
  have hlen : (CreateTask.words K (kstack + 4096) task).length = 12 := rfl
  have hlen' : e.frame.length = 5 := rfl
  rw [hlen] at hsp
  rw [hlist] at hbelow
  have hwords := hbelow.agree hmem (by rw [← hlist, List.length_map, hlen]; omega) le_rfl
  have hwords' := hwords.agree hclear.agree (by rw [← hlist, List.length_map, hlen]; omega) le_rfl
  obtain ⟨-, hregs⟩ := hwords.append
  obtain ⟨hframe, -⟩ := hwords'.append
  rw [hlen'] at hregs
  obtain ⟨hrip, hrsp', -⟩ := switch_to_fresh (c := c)
    ⟨hclear.room, hclear.slot, by have := hclear.pushes; omega, by have := hclear.saved; omega⟩
    (by omega) (by omega) (by rw [hrsi]; congr 1; omega) hregs
  generalize c.run switch_to = f at hrip hrsp' hframe
  have hfsp : f.sp + 40 = kstack + 4096 := by
    rw [Cpu.sp, hrsp', BitVec.toNat_ofNat, Nat.mod_eq_of_lt (by omega)]
    omega
  obtain ⟨herip, hecs, herflags, hess, hersp, -, hemem⟩ :=
    exec_iretq (c := e) (d := f) (by rw [hfsp]; exact hframe) (by omega)
  dsimp only [thread_starter, run_cons, run_nil]
  generalize f.exec .iretq = d at *
  have hdsp : d.sp = kstack + 4096 - 8 := by
    rw [Cpu.sp, hersp]
    change (BitVec.ofNat 64 (kstack + 4096 - 8)).toNat = _
    rw [BitVec.toNat_ofNat, Nat.mod_eq_of_lt (by omega)]
  refine ⟨hrip, ⟨herip, hecs, hess, herflags, ?_⟩, ?_⟩
  · omega
  · rw [hemem, hdsp]
    exact hframe 0 (by rw [hlen']; omega)

end

/-- A kernel with one block for a stack, whose `thread_starter` is at 0x100000. -/
def smallKernel : Kernel := ⟨fun m _ => (0x1000, m), fun m _ => m, 0x100000, 0x100100⟩

/-- The idle task has created a task with its function at 0x200000. -/
def created : ℤ × Sched := CreateTask smallKernel reset.sched_init (fun _ => 0) 0x200000 0

/-- The idle task calls `switch_to` for the new task, on a stack that ends at 0x8000. -/
def callsSwitch (rsi : BitVec 64) (mem : Memory) : Cpu where
  reg r := if r = .rsi then rsi else if r = .rdi then 0x9000 else if r = .rsp then 0x7000 else 0
  rip := 0
  cs := 0x08
  ss := 0x10
  rflags := 0x202
  mem := mem

theorem callsSwitch_mem (rsi : BitVec 64) (mem : Memory) :
  (callsSwitch rsi mem).mem = mem
  := rfl

theorem callsSwitch_clear (rsi : BitVec 64) (mem : Memory) {hi : ℕ} (hhi : hi ≤ 0x6000) (lo : ℕ) :
  Clear lo hi (callsSwitch rsi mem)
  := by
  have hsp : (callsSwitch rsi mem).sp = 0x7000 := rfl
  have hrdi : ((callsSwitch rsi mem).reg .rdi).toNat = 0x9000 := rfl
  refine ⟨?_, ?_, ?_, ?_⟩
  all_goals omega

theorem created_first :
  FirstSwitch created.1 created.2 0x1FA0
  := by
  refine ⟨[], created.2, .Schedule 0, created.2, 0, smallKernel, Transition.Run.nil _, ?_, rfl, ?_, ?_⟩
  · unfold Unvisited Index
    decide +kernel
  · decide +kernel
  · decide +kernel

/-- A task that `TaskFork` creates has the block that `kmalloc` gives as its stack, with a copy of
the stack of the current task and, below the place of the stack pointer in it, seven words. -/
theorem TaskFork_created {K : Kernel} {s : Sched} {current_rsp : ℕ}
    (h : 0 ≤ (TaskFork K s current_rsp).1)
    (hparent : (s.TaskTable s.CurrentTaskPID).state ≠ TaskState.TASK_EMPTY) :
  let s' := (TaskFork K s current_rsp).2
  let t := s'.TaskTable (TaskFork K s current_rsp).1
  let parent_kstack := (s.TaskTable s.CurrentTaskPID).kstack
  let mem := (K.kmalloc s.mem 4096).2
  let r := push [K.child_return, 0, 0, 0, 0, 0, 0]
    (u64 (current_rsp + sub64 t.kstack parent_kstack),
      mem.copy t.kstack (mem.drop parent_kstack) 4096)
  t.kstack = (K.kmalloc s.mem 4096).1 ∧ t.rsp = r.1 ∧ s'.mem = r.2
  := by
  obtain ⟨hslot, hk⟩ := create_succeeded (c := .TaskFork current_rsp) h
  obtain ⟨id, hid⟩ := Option.ne_none_iff_exists'.mp hslot
  have hne : s.CurrentTaskPID ≠ id := by
    intro heq
    apply hparent
    rw [heq]
    exact (emptySlot_eq_some hid).2
  rw [TaskFork, hid]
  dsimp only
  rw [if_neg (by simpa using hk)]
  simp [Function.update_of_ne hne]

/-- The registers besides the stack and frame pointers that a function preserves. -/
def forkedRegs : List Reg := [.rbx, .r12, .r13, .r14, .r15]

/-- The processor goes on at `child_return` as it was with `p`, on a stack `offset` bytes
further. -/
structure Forked (child_return offset : BitVec 64) (p f : Cpu) : Prop where
  rip : f.rip = child_return
  saved : ∀ r ∈ forkedRegs, f.reg r = p.reg r
  rsp : f.reg .rsp = p.reg .rsp + offset
  rbp : f.reg .rbp = p.reg .rbp + offset

section

variable {K : Kernel} {s : Sched} {r : ℕ} {p c : Cpu}

/-- At the first switch to a child of `TaskFork`, called with the processor `p`, it goes on at
`child_return` with the stack pointer moved to its own stack and the other registers zero. -/
theorem forked_started (hcreated : 0 ≤ (TaskFork K s p.sp).1)
    (hparent : (s.TaskTable s.CurrentTaskPID).state ≠ TaskState.TASK_EMPTY)
    (hfirst : FirstSwitch (TaskFork K s p.sp).1 (TaskFork K s p.sp).2 r)
    (hrsi : c.reg .rsi = BitVec.ofNat 64 r) {kstack offset : ℕ}
    (hkstack : ((TaskFork K s p.sp).2.TaskTable (TaskFork K s p.sp).1).kstack = kstack)
    (hoffset : sub64 kstack (s.TaskTable s.CurrentTaskPID).kstack = offset)
    (hlow : 56 ≤ u64 (p.sp + offset))
    (hmem : Memory.AgreeOn (u64 (p.sp + offset) - 56) (u64 (p.sp + offset))
      (TaskFork K s p.sp).2.mem c.mem)
    (hclear : Clear (u64 (p.sp + offset) - 56) (u64 (p.sp + offset)) c) :
  let f := c.run switch_to
  f.rip = BitVec.ofNat 64 K.child_return ∧ f.reg .rsp = p.reg .rsp + BitVec.ofNat 64 offset ∧
    ∀ r ∈ switchRegs, f.reg r = 0
  := by
  obtain ⟨-, hrsp, hnew⟩ := TaskFork_created hcreated hparent
  rw [hkstack, hoffset] at hrsp hnew
  obtain rfl := hfirst.rsp
  rw [hrsp] at hrsi
  rw [hnew] at hmem
  have htop : u64 (p.sp + offset) < 2 ^ 64 := Nat.mod_lt _ (by decide)
  have hsum : BitVec.ofNat 64 (u64 (p.sp + offset)) = p.reg .rsp + BitVec.ofNat 64 offset := by
    apply BitVec.eq_of_toNat_eq
    rw [BitVec.toNat_ofNat, BitVec.toNat_add, BitVec.toNat_ofNat, Nat.add_mod_mod,
      Nat.mod_eq_of_lt htop]
    rfl
  rw [← hsum]
  generalize u64 (p.sp + offset) = a at hlow htop hclear hrsi hmem
  obtain ⟨hsp, hbelow, -⟩ := push_spec [K.child_return, 0, 0, 0, 0, 0, 0]
    (m := (K.kmalloc s.mem 4096).2.copy kstack
      ((K.kmalloc s.mem 4096).2.drop (s.TaskTable s.CurrentTaskPID).kstack) 4096) hlow htop
  generalize push [K.child_return, 0, 0, 0, 0, 0, 0] (a, _) = q at hrsi hmem hsp hbelow
  have hlen : [K.child_return, 0, 0, 0, 0, 0, 0].length = 7 := rfl
  rw [hlen] at hsp
  have hwords := hbelow.agree hmem (by rw [List.length_map, hlen]; omega) le_rfl
  exact switch_to_fresh hclear hlow htop (by rw [hrsi]; congr 1; omega) hwords

/-- The stack of the child is, from its stack pointer on, a copy of that of its parent. -/
theorem forked_copy (hcreated : 0 ≤ (TaskFork K s p.sp).1)
    (hparent : (s.TaskTable s.CurrentTaskPID).state ≠ TaskState.TASK_EMPTY) {kstack offset : ℕ}
    (hkstack : ((TaskFork K s p.sp).2.TaskTable (TaskFork K s p.sp).1).kstack = kstack)
    (hoffset : sub64 kstack (s.TaskTable s.CurrentTaskPID).kstack = offset)
    (hlow : 56 ≤ u64 (p.sp + offset)) {i : ℕ} (hi : i < 4096)
    (habove : u64 (p.sp + offset) ≤ kstack + i) :
  (TaskFork K s p.sp).2.mem (kstack + i) =
    (K.kmalloc s.mem 4096).2 ((s.TaskTable s.CurrentTaskPID).kstack + i)
  := by
  obtain ⟨-, -, hnew⟩ := TaskFork_created hcreated hparent
  rw [hkstack, hoffset] at hnew
  obtain ⟨-, -, hmem⟩ := push_spec [K.child_return, 0, 0, 0, 0, 0, 0]
    (m := (K.kmalloc s.mem 4096).2.copy kstack
      ((K.kmalloc s.mem 4096).2.drop (s.TaskTable s.CurrentTaskPID).kstack) 4096) hlow
    (Nat.mod_lt _ (by decide))
  rw [hnew, hmem _ (Or.inr habove), Memory.copy, Memory.splice_inside _ _ hi, Memory.drop]

end

/-- The task created has the processor. -/
def forking : Sched := (Schedule smallKernel created.2 0x7F00).1

/-- Another block is left for a stack. -/
def nextKernel : Kernel := ⟨fun m _ => (0x3000, m), fun m _ => m, 0x100000, 0x100100⟩

/-- The task calls `TaskFork` with the value `w` in its registers, and its frame pointer at
`rbp`. -/
def caller (w rbp : BitVec 64) : Cpu where
  reg r := if r = .rsp then 0x1F00 else if r = .rbp then rbp else w
  rip := 0
  cs := 0x08
  ss := 0x10
  rflags := 0x202
  mem := forking.mem

theorem caller_sp (w rbp : BitVec 64) :
  (caller w rbp).sp = 0x1F00
  := rfl

theorem forked_first (w rbp : BitVec 64) :
  let r := TaskFork nextKernel forking (caller w rbp).sp
  0 ≤ r.1 ∧ (forking.TaskTable forking.CurrentTaskPID).state ≠ TaskState.TASK_EMPTY ∧
    FirstSwitch r.1 r.2 0x3EC8 ∧ (r.2.TaskTable r.1).kstack = 0x3000 ∧
    sub64 0x3000 (forking.TaskTable forking.CurrentTaskPID).kstack = 0x2000
  := by
  rw [caller_sp]
  refine ⟨?_, ?_, ⟨[], _, .Schedule 0, _, 0, nextKernel, Transition.Run.nil _, ?_, rfl, ?_, ?_⟩, ?_, ?_⟩
  · decide +kernel
  · decide +kernel
  · unfold Unvisited Index
    decide +kernel
  · decide +kernel
  · decide +kernel
  · decide +kernel
  · decide +kernel

end Sched
