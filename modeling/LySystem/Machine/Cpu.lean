import LySystem.Machine.Bytes
import Mathlib.Data.List.Induction

/-!
# A processor with a stack

The registers and the memory of an x86-64 processor, and the instructions that move words
between them.  Routines without jumps are lists of instructions.  A routine that pushes
registers is undone by one that pops them in the opposite order, from whatever memory holds
the words pushed.  The flags that instructions set are left out.
-/

inductive Reg where
  | rax | rbx | rcx | rdx | rsi | rdi | rbp | rsp
  | r8 | r9 | r10 | r11 | r12 | r13 | r14 | r15
deriving DecidableEq

/-- The instruction pointer is kept where control is transferred only. -/
structure Cpu where
  reg : Reg → BitVec 64
  rip : BitVec 64
  cs : BitVec 64
  ss : BitVec 64
  rflags : BitVec 64
  mem : Memory

/-- The word in the eight bytes from `a` on. -/
def Memory.word (m : Memory) (a : ℕ) : BitVec 64 := BitVec.ofNat 64 (m.load a 8)

inductive Instr where
  | push (r : Reg)
  | pop (r : Reg)
  | mov (dst src : Reg)
  /-- `mov [base], src` -/
  | movTo (base src : Reg)
  /-- `and r, mask` -/
  | and (r : Reg) (mask : BitVec 64)
  /-- A call of the routine at `target` from the instruction before `next`. -/
  | call (target next : BitVec 64)
  | ret
  | iretq

namespace Cpu

/-- The address in the stack pointer. -/
def sp (c : Cpu) : ℕ := (c.reg .rsp).toNat

def setReg (c : Cpu) (r : Reg) (w : BitVec 64) : Cpu :=
  { c with reg := Function.update c.reg r w }

def pushWord (c : Cpu) (w : BitVec 64) : Cpu :=
  let a := c.reg .rsp - 8
  { c.setReg .rsp a with mem := c.mem.store a.toNat 8 w.toNat }

def exec (c : Cpu) : Instr → Cpu
  | .push r => c.pushWord (c.reg r)
  | .pop r => (c.setReg .rsp (c.reg .rsp + 8)).setReg r (c.mem.word c.sp)
  | .mov dst src => c.setReg dst (c.reg src)
  | .movTo base src => { c with mem := c.mem.store (c.reg base).toNat 8 (c.reg src).toNat }
  | .and r mask => c.setReg r (c.reg r &&& mask)
  | .call target next => { c.pushWord next with rip := target }
  | .ret => { c.setReg .rsp (c.reg .rsp + 8) with rip := c.mem.word c.sp }
  | .iretq =>
      { c.setReg .rsp (c.mem.word (c.reg .rsp + 24).toNat) with
        rip := c.mem.word c.sp
        cs := c.mem.word (c.reg .rsp + 8).toNat
        rflags := c.mem.word (c.reg .rsp + 16).toNat
        ss := c.mem.word (c.reg .rsp + 32).toNat }

def run (c : Cpu) (is : List Instr) : Cpu := is.foldl exec c

/-- The words an interrupt pushes, in order. -/
def frame (c : Cpu) : List (BitVec 64) := [c.ss, c.reg .rsp, c.rflags, c.cs, c.rip]

/-- An interrupt through a gate with the selector `cs` and the handler at `target`: the stack
pointer is aligned, the state is pushed, and interrupts are turned off. -/
def interrupt (c : Cpu) (cs target : BitVec 64) : Cpu :=
  let aligned := c.setReg .rsp (c.reg .rsp &&& ~~~15#64)
  { c.frame.foldl pushWord aligned with
    rip := target
    cs := cs
    rflags := c.rflags &&& ~~~0x200#64 }

end Cpu

/-! ### Words in memory -/

namespace Memory

theorem word_store (m : Memory) (a : ℕ) (w : BitVec 64) :
  (m.store a 8 w.toNat).word a = w
  := by
  rw [word, load_store, Nat.mod_eq_of_lt (by simpa using w.isLt), BitVec.ofNat_toNat,
    BitVec.setWidth_eq]

theorem AgreeOn.word {lo hi a : ℕ} {m m' : Memory} (h : AgreeOn lo hi m m') (hlo : lo ≤ a)
    (hhi : a + 8 ≤ hi) :
  m'.word a = m.word a
  := by
  rw [Memory.word, h.load hlo hhi, Memory.word]

end Memory

namespace Cpu

variable {c d e : Cpu} {rs : List Reg}

theorem run_nil (c : Cpu) :
  c.run [] = c
  := rfl

theorem run_cons (c : Cpu) (i : Instr) (is : List Instr) :
  c.run (i :: is) = (c.exec i).run is
  := rfl

theorem run_append (c : Cpu) (is js : List Instr) :
  c.run (is ++ js) = (c.run is).run js
  := List.foldl_append

theorem toNat_sub_eight {a : BitVec 64} (h : 8 ≤ a.toNat) :
  (a - 8).toNat = a.toNat - 8
  := by
  bv_omega

theorem and_not_add_and (a m : BitVec 64) :
  (a &&& ~~~m) + (a &&& m) = a
  := by
  rw [BitVec.add_eq_or_of_and_eq_zero]
  · ext i hi
    simp only [BitVec.getElem_or, BitVec.getElem_and, BitVec.getElem_not]
    cases a[i] <;> cases m[i] <;> rfl
  · ext i hi
    simp only [BitVec.getElem_and, BitVec.getElem_not, BitVec.getElem_zero]
    cases a[i] <;> cases m[i] <;> rfl

/-- Clearing the low four bits aligns to 16. -/
theorem toNat_align (a : BitVec 64) :
  (a &&& ~~~15#64).toNat = maskLow 4 a.toNat
  := by
  have hsum := and_not_add_and a 15#64
  have hlow : (a &&& 15#64).toNat = a.toNat % 16 := by
    rw [BitVec.toNat_and]
    exact Nat.and_two_pow_sub_one_eq_mod a.toNat 4
  have hle : a &&& 15#64 ≤ a := by
    rw [BitVec.le_def, hlow]
    omega
  rw [eq_comm, ← BitVec.sub_eq_iff_eq_add] at hsum
  rw [← hsum, BitVec.toNat_sub_of_le hle, hlow, maskLow]
  omega

theorem toNat_add_small {a : BitVec 64} {n : ℕ} (h : a.toNat + n < 2 ^ 64) :
  (a + BitVec.ofNat 64 n).toNat = a.toNat + n
  := by
  rw [BitVec.toNat_add, BitVec.toNat_ofNat, Nat.add_mod_mod, Nat.mod_eq_of_lt h]

/-! ### Pushing words -/

/-- The memory `m` holds the words `ws` below the address `a`, the first one uppermost. -/
def Below (ws : List (BitVec 64)) (a : ℕ) (m : Memory) : Prop :=
  ∀ k (hk : k < ws.length), m.word (a - 8 * (k + 1)) = ws[k]

/-- Words one after the other are two groups of words, the second one below the first. -/
theorem Below.append {ws vs : List (BitVec 64)} {a : ℕ} {m : Memory} (h : Below (ws ++ vs) a m) :
  Below ws a m ∧ Below vs (a - 8 * ws.length) m
  := by
  constructor
  · intro k hk
    rw [h k (by rw [List.length_append]; omega), List.getElem_append_left hk]
  · intro k hk
    have hword := h (ws.length + k) (by rw [List.length_append]; omega)
    rw [show a - 8 * ws.length - 8 * (k + 1) = a - 8 * (ws.length + k + 1) by omega, hword,
      List.getElem_append_right (by omega)]
    congr 1
    omega

theorem Below.agree {ws : List (BitVec 64)} {a lo hi : ℕ} {m m' : Memory} (h : Below ws a m)
    (hagree : Memory.AgreeOn lo hi m m') (hlo : lo + 8 * ws.length ≤ a) (hhi : a ≤ hi) :
  Below ws a m'
  := by
  intro k hk
  rw [hagree.word (by omega) (by omega)]
  apply h k hk

section

variable (w : BitVec 64) (h : 8 ≤ c.sp)

include h

theorem sp_pushWord :
  (c.pushWord w).sp = c.sp - 8
  := by
  rw [Cpu.sp, pushWord, setReg]
  dsimp only
  rw [Function.update_self, toNat_sub_eight h, Cpu.sp]

theorem word_pushWord :
  (c.pushWord w).mem.word (c.sp - 8) = w
  := by
  rw [pushWord]
  dsimp only
  rw [toNat_sub_eight h]
  apply Memory.word_store

theorem mem_pushWord {x : ℕ} (hx : x < c.sp - 8 ∨ c.sp ≤ x) :
  (c.pushWord w).mem x = c.mem x
  := by
  rw [pushWord]
  dsimp only
  rw [toNat_sub_eight h]
  apply Memory.store_outside
  change x < c.sp - 8 ∨ c.sp - 8 + 8 ≤ x
  omega

end

theorem reg_pushWord (w : BitVec 64) {r : Reg} (hr : r ≠ .rsp) :
  (c.pushWord w).reg r = c.reg r
  := Function.update_of_ne hr _ _

/-- What pushing the words `ws` makes of `c`. -/
structure Pushed (ws : List (BitVec 64)) (c d : Cpu) : Prop where
  sp : d.sp + 8 * ws.length = c.sp
  reg : ∀ r, r ≠ .rsp → d.reg r = c.reg r
  below : Below ws c.sp d.mem
  mem : ∀ x, x < d.sp ∨ c.sp ≤ x → d.mem x = c.mem x

theorem pushed_foldl {ws : List (BitVec 64)} (hlen : 8 * ws.length ≤ c.sp) :
  Pushed ws c (ws.foldl pushWord c)
  := by
  induction ws using List.reverseRecOn with
  | nil =>
      refine ⟨rfl, fun _ _ => rfl, ?_, fun _ _ => rfl⟩
      intro k hk
      cases hk
  | append_singleton ws w ih =>
      rw [List.length_append, List.length_singleton] at hlen
      have hpushed := ih (by omega)
      rw [List.foldl_append, List.foldl_cons, List.foldl_nil]
      generalize ws.foldl pushWord c = d at hpushed
      obtain ⟨hsp, hreg, hbelow, hmem⟩ := hpushed
      have hroom : 8 ≤ d.sp := by
        omega
      have hsp' := sp_pushWord w hroom
      refine ⟨?_, ?_, ?_, ?_⟩
      · rw [hsp', List.length_append, List.length_singleton]
        omega
      · intro r hr
        rw [reg_pushWord w hr, hreg r hr]
      · intro k hk
        rw [List.length_append, List.length_singleton] at hk
        by_cases hlast : k = ws.length
        · subst hlast
          rw [show c.sp - 8 * (ws.length + 1) = d.sp - 8 by omega, word_pushWord w hroom]
          simp
        · have hk' : k < ws.length := by
            omega
          have hagree : Memory.AgreeOn d.sp c.sp d.mem (d.pushWord w).mem :=
            fun x hlo _ => mem_pushWord w hroom (Or.inr hlo)
          rw [List.getElem_append_left hk', ← hbelow k hk']
          apply hagree.word
          · omega
          · omega
      · intro x hx
        rw [hsp'] at hx
        rw [mem_pushWord w hroom (by omega), hmem x (by omega)]

/-! ### Pushing and popping registers -/

/-- Registers pushed one after the other are pushed as they are at the start. -/
theorem run_push (hrs : .rsp ∉ rs) :
  c.run (rs.map .push) = (rs.map c.reg).foldl pushWord c
  := by
  induction rs generalizing c with
  | nil => rfl
  | cons r rs ih =>
      obtain ⟨hr, hrs⟩ := not_or.mp (mt List.mem_cons.mpr hrs)
      have hkeep : rs.map (c.pushWord (c.reg r)).reg = rs.map c.reg := by
        apply List.map_congr_left
        intro q hq
        apply reg_pushWord
        rintro rfl
        exact hrs hq
      rw [List.map_cons, List.map_cons, List.foldl_cons, ← hkeep, ← ih hrs]
      rfl

theorem mem_run_pop (d : Cpu) (rs : List Reg) :
  (d.run (rs.map .pop)).mem = d.mem
  := by
  induction rs generalizing d with
  | nil => rfl
  | cons r rs ih => exact ih (d.exec (.pop r))

/-- What popping the registers `rs` of `c`, the last one first, makes of `d`. -/
structure Popped (rs : List Reg) (c d e : Cpu) : Prop where
  rsp : e.reg .rsp = c.reg .rsp
  reg : ∀ r ∈ rs, e.reg r = c.reg r
  other : ∀ r, r ∉ rs → r ≠ .rsp → e.reg r = d.reg r
  mem : e.mem = d.mem

theorem run_pop (hrs : .rsp ∉ rs) (hsp : d.sp + 8 * rs.length = c.sp)
    (hbelow : Below (rs.map c.reg) c.sp d.mem) :
  Popped rs c d (d.run (rs.reverse.map .pop))
  := by
  induction rs using List.reverseRecOn generalizing d with
  | nil =>
      refine ⟨?_, ?_, fun _ _ _ => rfl, rfl⟩
      · apply BitVec.eq_of_toNat_eq
        exact hsp
      · intro r hr
        cases hr
  | append_singleton rs r ih =>
      rw [List.length_append, List.length_singleton] at hsp
      obtain ⟨hrs', hr⟩ : .rsp ∉ rs ∧ r ≠ .rsp := by
        simpa [not_or, eq_comm] using hrs
      have hword : d.mem.word d.sp = c.reg r := by
        have hlast := hbelow rs.length (by simp)
        rw [show c.sp - 8 * (rs.length + 1) = d.sp by omega] at hlast
        simpa using hlast
      have hlt : c.sp < 2 ^ 64 := (c.reg .rsp).isLt
      have hsp' : (d.exec (.pop r)).sp = d.sp + 8 := by
        rw [Cpu.sp, exec, setReg, setReg]
        dsimp only
        rw [Function.update_of_ne hr.symm, Function.update_self]
        apply toNat_add_small
        change d.sp + 8 < 2 ^ 64
        omega
      have hpopped : Popped rs c (d.exec (.pop r)) ((d.exec (.pop r)).run (rs.reverse.map .pop)) := by
        apply ih hrs' (by omega)
        intro k hk
        have hkeep := hbelow k (by rw [List.map_append, List.length_append]; omega)
        simp only [List.map_append, List.getElem_append_left hk] at hkeep
        exact hkeep
      rw [List.reverse_append, List.reverse_singleton, List.singleton_append, List.map_cons]
      change Popped (rs ++ [r]) c d ((d.exec (.pop r)).run (rs.reverse.map .pop))
      have hexec : ∀ q, q ≠ .rsp → q ≠ r → (d.exec (.pop r)).reg q = d.reg q := by
        intro q hq hqr
        rw [exec, setReg, setReg]
        dsimp only
        rw [Function.update_of_ne hqr, Function.update_of_ne hq]
      refine ⟨hpopped.rsp, ?_, ?_, hpopped.mem⟩
      · intro q hq
        by_cases hmem : q ∈ rs
        · exact hpopped.reg q hmem
        · obtain rfl : q = r := by
            simpa [hmem] using hq
          rw [hpopped.other q hmem hr, exec, setReg]
          dsimp only
          rw [Function.update_self, hword]
      · intro q hq hq'
        obtain ⟨hmem, hne⟩ : q ∉ rs ∧ q ≠ r := by
          simpa [not_or] using hq
        rw [hpopped.other q hmem hq', hexec q hq' hne]

/-! ### Interrupts -/

/-- What an interrupt makes of `c`. -/
structure Interrupted (c d : Cpu) : Prop where
  sp : d.sp + 40 = maskLow 4 c.sp
  reg : ∀ r, r ≠ .rsp → d.reg r = c.reg r
  below : Below c.frame (d.sp + 40) d.mem
  mem : ∀ x, x < d.sp ∨ d.sp + 40 ≤ x → d.mem x = c.mem x

theorem interrupt_spec (cs target : BitVec 64) (h : 40 ≤ maskLow 4 c.sp) :
  Interrupted c (c.interrupt cs target)
  := by
  have halign : (c.setReg .rsp (c.reg .rsp &&& ~~~15#64)).sp = maskLow 4 c.sp := by
    rw [Cpu.sp, setReg]
    dsimp only
    rw [Function.update_self, toNat_align, Cpu.sp]
  obtain ⟨hsp, hreg, hbelow, hmem⟩ : Pushed c.frame (c.setReg .rsp (c.reg .rsp &&& ~~~15#64))
      (c.frame.foldl pushWord (c.setReg .rsp (c.reg .rsp &&& ~~~15#64))) := by
    apply pushed_foldl
    rw [halign]
    exact h
  rw [halign] at hsp hbelow hmem
  refine ⟨hsp, ?_, ?_, ?_⟩
  · intro r hr
    rw [← Function.update_of_ne hr (c.reg .rsp &&& ~~~15#64) c.reg]
    exact hreg r hr
  · rw [← hsp] at hbelow
    exact hbelow
  · intro x hx
    rw [← hsp] at hmem
    exact hmem x hx

/-- Returning from an interrupt whose frame is at the stack pointer. -/
theorem exec_iretq (h : Below c.frame (d.sp + 40) d.mem) (hsp : d.sp + 40 ≤ 2 ^ 64) :
  let e := d.exec .iretq
  e.rip = c.rip ∧ e.cs = c.cs ∧ e.rflags = c.rflags ∧ e.ss = c.ss ∧ e.reg .rsp = c.reg .rsp ∧
    (∀ r, r ≠ .rsp → e.reg r = d.reg r) ∧ e.mem = d.mem
  := by
  have haddr : ∀ n < 40, (d.reg .rsp + BitVec.ofNat 64 n).toNat = d.sp + n := by
    intro n hn
    apply toNat_add_small
    change d.sp + n < 2 ^ 64
    omega
  refine ⟨?_, ?_, ?_, ?_, ?_, ?_, rfl⟩
  · apply Eq.trans _ (h 4 (by simp [frame]))
    rw [show d.sp + 40 - 8 * (4 + 1) = d.sp by omega]
    rfl
  · apply Eq.trans _ (h 3 (by simp [frame]))
    rw [show d.sp + 40 - 8 * (3 + 1) = d.sp + 8 by omega, ← haddr 8 (by omega)]
    rfl
  · apply Eq.trans _ (h 2 (by simp [frame]))
    rw [show d.sp + 40 - 8 * (2 + 1) = d.sp + 16 by omega, ← haddr 16 (by omega)]
    rfl
  · apply Eq.trans _ (h 0 (by simp [frame]))
    rw [show d.sp + 40 - 8 * (0 + 1) = d.sp + 32 by omega, ← haddr 32 (by omega)]
    rfl
  · apply Eq.trans _ (h 1 (by simp [frame]))
    rw [show d.sp + 40 - 8 * (1 + 1) = d.sp + 24 by omega, ← haddr 24 (by omega)]
    rfl
  · intro r hr
    exact Function.update_of_ne hr _ _

end Cpu
