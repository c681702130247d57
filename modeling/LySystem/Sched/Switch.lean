import LySystem.Machine.Cpu

/-!
# The assembly of a context switch

`switch_to` of `kernel/sched/switch.asm` and `irq0_handler` of `kernel/IRQ/irq.asm`: what they
leave on the stack of the task they leave, and what they bring back from it.
-/

namespace Sched

open Cpu

def switch_to : List Instr :=
  [.push .rbp, .push .rbx, .push .r12, .push .r13, .push .r14, .push .r15,
    .movTo .rdi .rsp,
    .mov .rsp .rsi,
    .pop .r15, .pop .r14, .pop .r13, .pop .r12, .pop .rbx, .pop .rbp,
    .ret]

/-- `next` is the address of the instruction after the call. -/
def irq0_handler (timer_callback next : BitVec 64) : List Instr :=
  [.push .r15, .push .r14, .push .r13, .push .r12, .push .r11, .push .r10, .push .r9, .push .r8,
    .push .rbp, .push .rdi, .push .rsi, .push .rdx, .push .rcx, .push .rbx, .push .rax,
    .mov .rdi .rsp,
    .mov .rbp .rsp,
    .and .rsp (-16),
    .call timer_callback next,
    .mov .rsp .rbp,
    .pop .rax, .pop .rbx, .pop .rcx, .pop .rdx, .pop .rsi, .pop .rdi, .pop .rbp,
    .pop .r8, .pop .r9, .pop .r10, .pop .r11, .pop .r12, .pop .r13, .pop .r14, .pop .r15,
    .iretq]

/-! ### Calls -/

/-- The registers that a function preserves, besides the stack pointer. -/
def calleeSaved : List Reg := [.rbx, .rbp, .r12, .r13, .r14, .r15]

/-- A function entered with `c` has returned with `d`: to the return address, and with the
registers it preserves. -/
structure Preserved (c d : Cpu) : Prop where
  rip : d.rip = c.mem.word c.sp
  rsp : d.reg .rsp = c.reg .rsp + 8
  saved : ∀ r ∈ calleeSaved, d.reg r = c.reg r

/-- The frames of the callers, up to `hi`, are as they were besides. -/
structure Returned (hi : ℕ) (c d : Cpu) : Prop extends Preserved c d where
  mem : Memory.AgreeOn (c.sp + 8) hi c.mem d.mem

/-- What was interrupted with `c` goes on with `d` as if nothing had happened. -/
structure Resumed (hi : ℕ) (c d : Cpu) : Prop where
  rip : d.rip = c.rip
  cs : d.cs = c.cs
  ss : d.ss = c.ss
  rflags : d.rflags = c.rflags
  reg : ∀ r, d.reg r = c.reg r
  mem : Memory.AgreeOn c.sp hi c.mem d.mem

/-! ### `switch_to` -/

/-- The registers `switch_to` pushes. -/
def switchRegs : List Reg := [.rbp, .rbx, .r12, .r13, .r14, .r15]

/-- `switch_to` up to the change of stacks. -/
def switch_to.save : List Instr := switchRegs.map .push ++ [.movTo .rdi .rsp, .mov .rsp .rsi]

theorem switch_to_eq :
  switch_to = switch_to.save ++ (switchRegs.reverse.map .pop ++ [.ret])
  := rfl

/-- The task that called `switch_to` with `c` can be resumed from the memory `m`, where `slot`
holds its stack pointer and its stack reaches up to `hi`. -/
structure Suspended (slot hi : ℕ) (c : Cpu) (m : Memory) : Prop where
  room : 48 ≤ c.sp ∧ c.sp + 8 ≤ hi ∧ hi ≤ 2 ^ 64
  slot : m.word slot = c.reg .rsp - 48
  below : Below (switchRegs.map c.reg) c.sp m
  mem : Memory.AgreeOn c.sp hi c.mem m

theorem Suspended.agree {slot hi lo : ℕ} {c : Cpu} {m m' : Memory} (h : Suspended slot hi c m)
    (hlo : lo + 48 ≤ c.sp) (hstack : Memory.AgreeOn lo hi m m')
    (hslot : Memory.AgreeOn slot (slot + 8) m m') :
  Suspended slot hi c m'
  := by
  obtain ⟨hroom, hword, hbelow, hmem⟩ := h
  refine ⟨hroom, ?_, ?_, ?_⟩
  · rw [hslot.word le_rfl le_rfl, hword]
  · apply hbelow.agree hstack
    · exact hlo
    · omega
  · apply hmem.trans (hstack.mono (by omega) le_rfl)

/-- What `switch_to` has done when it changes stacks. -/
structure Left (c d : Cpu) : Prop where
  rsp : d.reg .rsp = c.reg .rsi
  slot : d.mem.word (c.reg .rdi).toNat = c.reg .rsp - 48
  below : Below (switchRegs.map c.reg) c.sp d.mem
  mem : ∀ x, x < c.sp - 48 ∨ c.sp ≤ x →
    x < (c.reg .rdi).toNat ∨ (c.reg .rdi).toNat + 8 ≤ x → d.mem x = c.mem x

theorem switch_to_left {c : Cpu} (hroom : 48 ≤ c.sp)
    (hslot : (c.reg .rdi).toNat + 8 ≤ c.sp - 48 ∨ c.sp ≤ (c.reg .rdi).toNat) :
  Left c (c.run switch_to.save)
  := by
  obtain ⟨hsp, hreg, hbelow, hmem⟩ : Pushed (switchRegs.map c.reg) c
      ((switchRegs.map c.reg).foldl pushWord c) := pushed_foldl hroom
  rw [switch_to.save, run_append, run_push (by decide)]
  generalize (switchRegs.map c.reg).foldl pushWord c = d at hsp hreg hbelow hmem
  have hlen : (switchRegs.map c.reg).length = 6 := rfl
  have hrsp : d.reg .rsp = c.reg .rsp - 48 := by
    apply BitVec.eq_of_toNat_eq
    change d.sp = _
    rw [BitVec.toNat_sub_of_le (by rw [BitVec.le_def]; exact hroom)]
    change d.sp = c.sp - 48
    omega
  have hrdi : d.reg .rdi = c.reg .rdi := hreg _ (by decide)
  have hmem' : (d.run [.movTo .rdi .rsp, .mov .rsp .rsi]).mem =
      d.mem.store (c.reg .rdi).toNat 8 (c.reg .rsp - 48).toNat := by
    rw [← hrdi, ← hrsp]
    rfl
  refine ⟨?_, ?_, ?_, ?_⟩
  · exact hreg _ (by decide)
  · rw [hmem', Memory.word_store]
  · have hagree : Memory.AgreeOn (c.sp - 48) c.sp d.mem
        (d.mem.store (c.reg .rdi).toNat 8 (c.reg .rsp - 48).toNat) := by
      apply Memory.AgreeOn.store
      omega
    rw [hmem']
    exact hbelow.agree hagree (by omega) le_rfl
  · intro x hx hx'
    rw [hmem', Memory.store_outside _ _ hx', hmem x (by omega)]

theorem mem_switch_to (c : Cpu) :
  (c.run switch_to).mem = (c.run switch_to.save).mem
  := by
  rw [switch_to_eq, run_append, run_append]
  generalize c.run switch_to.save = d
  have hpop := mem_run_pop d switchRegs.reverse
  generalize d.run (switchRegs.reverse.map .pop) = u at hpop ⊢
  exact hpop

/-- The task that `switch_to` leaves is suspended. -/
theorem switch_to_suspended {c : Cpu} {hi : ℕ} (hroom : 48 ≤ c.sp ∧ c.sp + 8 ≤ hi ∧ hi ≤ 2 ^ 64)
    (hslot : (c.reg .rdi).toNat + 8 ≤ c.sp - 48 ∨ hi ≤ (c.reg .rdi).toNat) :
  Suspended (c.reg .rdi).toNat hi c (c.run switch_to).mem
  := by
  obtain ⟨-, hword, hbelow, hmem⟩ := switch_to_left hroom.1 (by omega)
  rw [mem_switch_to]
  refine ⟨hroom, hword, hbelow, ?_⟩
  intro x hlo hhi
  apply hmem x (Or.inr hlo)
  omega

/-- `switch_to` takes the registers off the stack whose pointer it is given, as they were when
`e` pushed them, and goes to the address above them. -/
theorem switch_to_enters {c e : Cpu} (hroom : 48 ≤ c.sp)
    (hslot : (c.reg .rdi).toNat + 8 ≤ c.sp - 48 ∨ c.sp ≤ (c.reg .rdi).toNat)
    (hrsi : c.reg .rsi = e.reg .rsp - 48) (hlo : 48 ≤ e.sp)
    (hbelow : Below (switchRegs.map e.reg) e.sp (c.run switch_to).mem) :
  (c.run switch_to).rip = (c.run switch_to).mem.word e.sp ∧
    (c.run switch_to).reg .rsp = e.reg .rsp + 8 ∧
    ∀ r ∈ switchRegs, (c.run switch_to).reg r = e.reg r
  := by
  obtain ⟨hrsp, -, -, -⟩ := switch_to_left hroom hslot
  have hmem := mem_switch_to c
  rw [hmem] at hbelow
  rw [hrsi] at hrsp
  rw [switch_to_eq, run_append, run_append] at hmem ⊢
  generalize c.run switch_to.save = d at hrsp hbelow hmem
  have hsp : d.sp = e.sp - 48 := by
    rw [Cpu.sp, hrsp, BitVec.toNat_sub_of_le (by rw [BitVec.le_def]; exact hlo)]
    rfl
  obtain ⟨hrsp', hregs, -, hpopped⟩ := run_pop (c := e) (d := d) (by decide)
    (show d.sp + 8 * switchRegs.length = e.sp by rw [hsp]; change _ + 48 = _; omega) hbelow
  generalize d.run (switchRegs.reverse.map .pop) = u at hrsp' hregs hpopped hmem
  have husp : u.sp = e.sp := by
    rw [Cpu.sp, hrsp', Cpu.sp]
  refine ⟨?_, ?_, ?_⟩
  · rw [hmem, ← hpopped, ← husp]
    rfl
  · change (u.setReg .rsp (u.reg .rsp + 8)).reg .rsp = _
    rw [setReg]
    dsimp only
    rw [Function.update_self, hrsp']
  · intro r hr
    have hne : r ≠ .rsp := by
      rintro rfl
      revert hr
      decide
    change (u.setReg .rsp (u.reg .rsp + 8)).reg r = _
    rw [setReg]
    dsimp only
    rw [Function.update_of_ne hne, hregs r hr]

/-- The task whose stack pointer `switch_to` is given returns from the `switch_to` it called. -/
theorem switch_to_returned {c e : Cpu} {slot hi : ℕ} (hroom : 48 ≤ c.sp)
    (hslot : (c.reg .rdi).toNat + 8 ≤ c.sp - 48 ∨ c.sp ≤ (c.reg .rdi).toNat)
    (hrsi : c.reg .rsi = e.reg .rsp - 48) (h : Suspended slot hi e (c.run switch_to).mem) :
  Returned hi e (c.run switch_to)
  := by
  obtain ⟨⟨hlo, hhi, htop⟩, -, hbelow, hmem⟩ := h
  obtain ⟨hrip, hrsp, hregs⟩ := switch_to_enters hroom hslot hrsi hlo hbelow
  refine ⟨⟨?_, hrsp, ?_⟩, hmem.mono (by omega) le_rfl⟩
  · rw [hrip]
    exact hmem.word le_rfl hhi
  · intro r hr
    apply hregs
    revert r
    decide

/-! ### `irq0_handler` -/

/-- The registers `irq0_handler` pushes. -/
def irq0Regs : List Reg :=
  [.r15, .r14, .r13, .r12, .r11, .r10, .r9, .r8, .rbp, .rdi, .rsi, .rdx, .rcx, .rbx, .rax]

/-- `irq0_handler` up to the call of `timer_callback`. -/
def irq0_handler.enter (timer_callback next : BitVec 64) : List Instr :=
  irq0Regs.map .push ++
    [.mov .rdi .rsp, .mov .rbp .rsp, .and .rsp (-16), .call timer_callback next]

/-- `irq0_handler` from there on. -/
def irq0_handler.leave : List Instr := .mov .rsp .rbp :: irq0Regs.reverse.map .pop ++ [.iretq]

theorem irq0_handler_eq (timer_callback next : BitVec 64) :
  irq0_handler timer_callback next =
    irq0_handler.enter timer_callback next ++ irq0_handler.leave
  := rfl

theorem mem_irq0Regs {r : Reg} (hr : r ≠ .rsp) :
  r ∈ irq0Regs
  := by
  cases r with
  | rsp => exact absurd rfl hr
  | _ => decide

/-- What `irq0_handler` has done, and the interrupt before it, when `timer_callback` is entered
with `d`. -/
structure Entered (c d : Cpu) : Prop where
  sp : d.sp + 168 = maskLow 4 c.sp
  rbp : (d.reg .rbp).toNat = d.sp + 8
  regs : Below (irq0Regs.map c.reg) (d.sp + 128) d.mem
  frame : Below c.frame (d.sp + 168) d.mem
  mem : ∀ x, x < d.sp ∨ d.sp + 168 ≤ x → d.mem x = c.mem x

theorem irq0_handler_entered {c : Cpu} (cs target timer_callback next : BitVec 64)
    (hroom : 168 ≤ maskLow 4 c.sp) :
  Entered c ((c.interrupt cs target).run (irq0_handler.enter timer_callback next))
  := by
  obtain ⟨hsp, hreg, hframe, hmem⟩ := interrupt_spec cs target (show 40 ≤ maskLow 4 c.sp by omega)
  generalize c.interrupt cs target = i at hsp hreg hframe hmem
  have hregs : irq0Regs.map i.reg = irq0Regs.map c.reg := by
    apply List.map_congr_left
    intro r hr
    apply hreg
    rintro rfl
    revert hr
    decide
  have hlen : (irq0Regs.map c.reg).length = 15 := rfl
  obtain ⟨hsp', hreg', hbelow, hmem'⟩ : Pushed (irq0Regs.map c.reg) i
      ((irq0Regs.map c.reg).foldl pushWord i) := pushed_foldl (by omega)
  rw [irq0_handler.enter, run_append, run_push (by decide), hregs]
  generalize (irq0Regs.map c.reg).foldl pushWord i = p at hsp' hreg' hbelow hmem'
  -- The stack is aligned already, so that `and` changes nothing.
  have halign : maskLow 4 p.sp = p.sp := by
    rw [maskLow] at *
    omega
  obtain ⟨a, hasp, harbp, hamem, harun⟩ : ∃ a : Cpu, a.sp = p.sp ∧ a.reg .rbp = p.reg .rsp ∧
      a.mem = p.mem ∧ p.run [.mov .rdi .rsp, .mov .rbp .rsp, .and .rsp (-16),
        .call timer_callback next] = a.exec (.call timer_callback next) := by
    refine ⟨((p.exec (.mov .rdi .rsp)).exec (.mov .rbp .rsp)).exec (.and .rsp (-16)), ?_, ?_, rfl,
      rfl⟩
    · apply Eq.trans _ halign
      exact toNat_align (p.reg .rsp)
    · simp [exec, setReg]
  rw [harun]
  have hroom' : 8 ≤ a.sp := by
    omega
  have hdsp : (a.exec (.call timer_callback next)).sp = p.sp - 8 := by
    rw [← hasp]
    exact sp_pushWord next hroom'
  have hdmem : ∀ x, x < p.sp - 8 ∨ p.sp ≤ x →
      (a.exec (.call timer_callback next)).mem x = p.mem x := by
    intro x hx
    rw [← hasp] at hx
    rw [← hamem]
    exact mem_pushWord next hroom' hx
  have hagree : Memory.AgreeOn p.sp (p.sp + 160) p.mem (a.exec (.call timer_callback next)).mem :=
    fun x hlo _ => hdmem x (Or.inr hlo)
  refine ⟨?_, ?_, ?_, ?_, ?_⟩
  · omega
  · have hrbp : (a.exec (.call timer_callback next)).reg .rbp = a.reg .rbp :=
      reg_pushWord (c := a) (r := .rbp) next (by decide)
    rw [hrbp, harbp, hdsp]
    change p.sp = _
    omega
  · rw [hdsp, show p.sp - 8 + 128 = i.sp by omega]
    exact hbelow.agree hagree (by omega) (by omega)
  · rw [hdsp, show p.sp - 8 + 168 = i.sp + 40 by omega]
    have hkeep : Memory.AgreeOn i.sp (i.sp + 40) i.mem p.mem :=
      fun x hlo _ => hmem' x (Or.inr hlo)
    have hflen : c.frame.length = 5 := rfl
    apply (hframe.agree hkeep (by omega) le_rfl).agree hagree
    · omega
    · omega
  · intro x hx
    rw [hdsp] at hx
    rw [hdmem x (by omega), hmem' x (by omega), hmem x (by omega)]

theorem mem_leave (e : Cpu) :
  (e.run irq0_handler.leave).mem = e.mem
  := by
  have hmov : (e.exec (.mov .rsp .rbp)).mem = e.mem := rfl
  rw [irq0_handler.leave, List.cons_append, run_cons, run_append, ← hmov]
  generalize e.exec (.mov .rsp .rbp) = d
  have hpop := mem_run_pop d irq0Regs.reverse
  generalize d.run (irq0Regs.reverse.map .pop) = u at hpop ⊢
  exact hpop

/-- When `timer_callback` returns to `irq0_handler`, what was interrupted goes on. -/
theorem irq0_handler_resumed {c d e : Cpu} {hi : ℕ} (h : Entered c d) (hreturned : Returned hi d e)
    (hhi : c.sp ≤ hi) (htop : hi ≤ 2 ^ 64) :
  Resumed hi c (e.run irq0_handler.leave)
  := by
  obtain ⟨hsp, hrbp, hregs, hframe, hmem⟩ := h
  have hagree := hreturned.mem
  have hmask : maskLow 4 c.sp ≤ c.sp := by
    rw [maskLow]
    omega
  -- The registers are popped as from a stack pointer above them.
  let i := c.setReg .rsp (BitVec.ofNat 64 (d.sp + 128))
  have hisp : i.sp = d.sp + 128 := by
    change (Function.update c.reg .rsp (BitVec.ofNat 64 (d.sp + 128)) .rsp).toNat = _
    rw [Function.update_self, BitVec.toNat_ofNat, Nat.mod_eq_of_lt (by omega)]
  have hireg : ∀ r, r ≠ .rsp → i.reg r = c.reg r :=
    fun r hr => Function.update_of_ne hr _ _
  have himap : irq0Regs.map i.reg = irq0Regs.map c.reg := by
    apply List.map_congr_left
    intro r hr
    apply hireg
    rintro rfl
    revert hr
    decide
  have hesp : (e.exec (.mov .rsp .rbp)).sp = d.sp + 8 := by
    change (Function.update e.reg .rsp (e.reg .rbp) .rsp).toNat = _
    rw [Function.update_self, hreturned.saved .rbp (by decide), hrbp]
  have hlen : (irq0Regs.map c.reg).length = 15 := rfl
  have hflen : c.frame.length = 5 := rfl
  have hpopped : Popped irq0Regs i (e.exec (.mov .rsp .rbp))
      ((e.exec (.mov .rsp .rbp)).run (irq0Regs.reverse.map .pop)) := by
    apply run_pop (by decide)
    · rw [hesp, hisp]
      change d.sp + 8 + 120 = _
      omega
    · rw [himap, hisp]
      exact hregs.agree hagree (by omega) (by omega)
  have hrun : e.run irq0_handler.leave =
      ((e.exec (.mov .rsp .rbp)).run (irq0Regs.reverse.map .pop)).exec .iretq := by
    rw [irq0_handler.leave, List.cons_append, run_cons, run_append, run_cons, run_nil]
  rw [hrun]
  generalize (e.exec (.mov .rsp .rbp)).run (irq0Regs.reverse.map .pop) = u at hpopped
  obtain ⟨hursp, hureg, -, humem⟩ := hpopped
  have husp : u.sp = d.sp + 128 := by
    rw [Cpu.sp, hursp, ← hisp, Cpu.sp]
  have humem' : u.mem = e.mem := humem
  have huframe : Below c.frame (u.sp + 40) u.mem := by
    rw [husp, humem']
    exact hframe.agree hagree (by omega) (by omega)
  obtain ⟨hrip, hcs, hrflags, hss, hrsp, hother, hkeep⟩ := exec_iretq huframe (by omega)
  refine ⟨hrip, hcs, hss, hrflags, ?_, ?_⟩
  · intro r
    by_cases hr : r = .rsp
    · rw [hr, hrsp]
    · rw [hother r hr, hureg r (mem_irq0Regs hr), hireg r hr]
  · intro x hlo hhi
    rw [hkeep, humem', hagree x (by omega) hhi, hmem x (by omega)]

end Sched
