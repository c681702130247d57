import LySystem.Machine.Transition
import LySystem.Sched.Reachable
import LySystem.Sched.Switch

/-!
# Tasks that take turns

Tasks with a stack each share the processor.  The one that runs is interrupted by the timer,
calls `switch_to`, from its own code or from that of the interrupt, and returns from
`irq0_handler`.  The assembly is run as it is.  It is not interrupted itself, nor is `Schedule`
between its choice of a task and the call of `switch_to`.  Of compiled code nothing is known
but that it writes its own stack, below the frames of its callers, and memory that is neither a
stack nor a saved stack pointer, and that it preserves what a function has to, as long as what
it calls does so and what interrupts it leaves no trace.
-/

namespace Contexts

open Cpu Sched TaskState Transition

variable {ι : Type*}

/-! ### The system -/

/-- Where things are: the stack of each task, and the field `rsp` of its entry. -/
structure Layout (ι : Type*) where
  lo : ι → ℕ
  hi : ι → ℕ
  slot : ι → ℕ
  top : ∀ i, hi i ≤ 2 ^ 64
  stacks_apart : ∀ i j, i ≠ j → hi i ≤ lo j ∨ hi j ≤ lo i
  slots_apart : ∀ i j, i ≠ j → slot i + 8 ≤ slot j ∨ slot j + 8 ≤ slot i
  apart : ∀ i j, slot i + 8 ≤ lo j ∨ hi j ≤ slot i
  kernel_cs : BitVec 64
  irq0_handler : BitVec 64
  timer_callback : BitVec 64
  /-- The instruction after the call of `timer_callback`. -/
  next : BitVec 64

/-- An interrupt not yet returned from: what was interrupted, and whether all that its code
called since, and all that interrupted it, came back as it has to. -/
structure Handler where
  interrupted : Cpu
  sound : Prop

/-- The processor, the task that runs, for each task the interrupts not yet returned from, the
last one first, and for each task that was switched out the processor when it called
`switch_to`. -/
structure System (ι : Type*) where
  cpu : Cpu
  current : ι
  handlers : ι → List Handler
  saved : ι → Option Cpu

/-- No task has been interrupted or switched out yet. -/
def Started (s : System ι) : Prop :=
  (∀ i, s.handlers i = []) ∧ ∀ i, s.saved i = none

/-- The innermost handler learns `P` of what it called, or of what interrupted it. -/
def note (P : Prop) : List Handler → List Handler
  | [] => []
  | h :: hs => { h with sound := h.sound ∧ P } :: hs

variable (L : Layout ι)

/-- The processor at the entry of `timer_callback`, after an interrupt of `c`. -/
def Layout.enter (c : Cpu) : Cpu :=
  (c.interrupt L.kernel_cs L.irq0_handler).run (irq0_handler.enter L.timer_callback L.next)

/-- Where the frame of `irq0_handler` begins. -/
def Layout.base (h : Handler) : ℕ := (L.enter h.interrupted).sp + 8

/-- What the task `p` writes. -/
structure Layout.Writes (p : ι) (m m' : Memory) : Prop where
  others : ∀ i, i ≠ p → Memory.AgreeOn (L.lo i) (L.hi i) m m'
  slots : ∀ i, Memory.AgreeOn (L.slot i) (L.slot i + 8) m m'

/-- Code of the task `p` that runs for a sound handler keeps the frames of its callers. -/
def Layout.Keeps (p : ι) (hs : List Handler) (m m' : Memory) : Prop :=
  ∀ h ∈ hs.head?, h.sound → Memory.AgreeOn (L.base h) (L.hi p) m m'

/-- Code that runs for a sound handler has its stack pointer below the frames of its callers. -/
def Layout.Inside (hs : List Handler) (c : Cpu) : Prop :=
  ∀ h ∈ hs.head?, h.sound → c.sp ≤ L.base h

/-- The code of a task runs, the timer interrupts a task that has not returned from `depth`
interrupts yet, `switch_to` is called, or a task returns from an interrupt and is left with
`depth` others. -/
inductive Event (ι : Type*) where
  | run (p : ι)
  | timer (p : ι) (depth : ℕ)
  | switch (p q : ι)
  | iret (p : ι) (depth : ℕ)

/-! ### Frames -/

variable {L}

theorem Layout.Writes.refl (p : ι) (m : Memory) :
  L.Writes p m m
  := ⟨fun _ _ => Memory.AgreeOn.refl _ _ m, fun _ => Memory.AgreeOn.refl _ _ m⟩

/-- What changes memory on its own stack only is what a task does. -/
theorem Layout.Writes.of_stack {p : ι} {lo hi : ℕ} {m m' : Memory}
    (h : ∀ x, x < lo ∨ hi ≤ x → m' x = m x) (hlo : L.lo p ≤ lo) (hhi : hi ≤ L.hi p) :
  L.Writes p m m'
  := by
  constructor
  · intro i hi' x hx hx'
    apply h
    have := L.stacks_apart i p hi'
    omega
  · intro i x hx hx'
    apply h
    have := L.apart i p
    omega

/-- The interrupts of the task `p` not yet returned from, with the memory `m`: all of them sound,
one inside the frame of the other. -/
def Layout.Nested (L : Layout ι) (p : ι) : List Handler → Memory → Prop
  | [], _ => True
  | h :: hs, m =>
      h.sound ∧ L.lo p + 168 ≤ maskLow 4 h.interrupted.sp ∧ h.interrupted.sp ≤ L.hi p ∧
        Memory.AgreeOn (L.base h) (L.hi p) (L.enter h.interrupted).mem m ∧
        (∀ h' ∈ hs.head?, h.interrupted.sp ≤ L.base h') ∧ L.Nested p hs h.interrupted.mem

theorem entered {p : ι} {c : Cpu} (h : L.lo p + 168 ≤ maskLow 4 c.sp) :
  Entered c (L.enter c)
  := irq0_handler_entered _ _ _ _ (by omega)

theorem Layout.Nested.agree {p : ι} {hs : List Handler} {m m' : Memory} (h : L.Nested p hs m)
    (hagree : ∀ h ∈ hs.head?, Memory.AgreeOn (L.base h) (L.hi p) m m') :
  L.Nested p hs m'
  := by
  cases hs with
  | nil => trivial
  | cons h' hs =>
      obtain ⟨hsound, hlo, hhi, hmem, hinside, hnested⟩ := h
      exact ⟨hsound, hlo, hhi, hmem.trans (hagree h' rfl), hinside, hnested⟩

/-- Nothing else but the stack of the task matters. -/
theorem Layout.Nested.of_stack {p : ι} {hs : List Handler} {m m' : Memory} (h : L.Nested p hs m)
    (hagree : Memory.AgreeOn (L.lo p) (L.hi p) m m') :
  L.Nested p hs m'
  := by
  apply h.agree
  rintro h' hmem
  cases hs with
  | nil => cases hmem
  | cons h'' hs =>
      obtain rfl := Option.some.inj hmem
      have hsp := (entered h.2.1).sp
      apply hagree.mono _ le_rfl
      have := h.2.1
      rw [Layout.base]
      omega

theorem Layout.Nested.note {p : ι} {hs : List Handler} {m : Memory} {P : Prop}
    (h : L.Nested p hs m) (hP : P) :
  L.Nested p (note P hs) m
  := by
  cases hs with
  | nil => trivial
  | cons h' hs =>
      obtain ⟨hsound, hrest⟩ := h
      exact ⟨⟨hsound, hP⟩, hrest⟩

/-- The innermost handler is sound. -/
theorem Layout.Nested.sound {p : ι} {hs : List Handler} {m : Memory} (h : L.Nested p hs m) :
  ∀ h' ∈ hs.head?, h'.sound
  := by
  cases hs with
  | nil =>
      rintro _ ⟨⟩
  | cons h' hs =>
      rintro _ ⟨⟩
      exact h.1

/-! ### The invariant -/

/-- Every task can be resumed from every point at which it was left. -/
structure Inv (L : Layout ι) (s : System ι) : Prop where
  nested : ∀ i, L.Nested i (s.handlers i) s.cpu.mem
  saved : ∀ i c, s.saved i = some c →
    L.lo i + 48 ≤ c.sp ∧ Suspended (L.slot i) (L.hi i) c s.cpu.mem
  current : s.saved s.current = none

variable {s : System ι}

theorem Started.inv (h : Started s) :
  Inv L s
  := by
  obtain ⟨hhandlers, hsaved⟩ := h
  refine ⟨?_, ?_, hsaved _⟩
  · intro i
    rw [hhandlers i]
    trivial
  · intro i c hc
    rw [hsaved i] at hc
    cases hc

/-- The tasks that do not run are left as they are. -/
structure Layout.Apart (L : Layout ι) (p : ι) (m m' : Memory) : Prop where
  others : ∀ i, i ≠ p → Memory.AgreeOn (L.lo i) (L.hi i) m m'
  slots : ∀ i, i ≠ p → Memory.AgreeOn (L.slot i) (L.slot i + 8) m m'

theorem Layout.Writes.apart {p : ι} {m m' : Memory} (h : L.Writes p m m') :
  L.Apart p m m'
  := ⟨h.others, fun i _ => h.slots i⟩

theorem Inv.nested_apart {i : ι} {m : Memory} (h : Inv L s) (hm : L.Apart s.current s.cpu.mem m)
    (hi : i ≠ s.current) :
  L.Nested i (s.handlers i) m
  := (h.nested i).of_stack (hm.others i hi)

theorem Inv.saved_apart {i : ι} {c : Cpu} {m : Memory} (h : Inv L s)
    (hm : L.Apart s.current s.cpu.mem m) (hc : s.saved i = some c) :
  L.lo i + 48 ≤ c.sp ∧ Suspended (L.slot i) (L.hi i) c m
  := by
  have hi : i ≠ s.current := by
    rintro rfl
    rw [h.current] at hc
    cases hc
  obtain ⟨hlo, hsuspended⟩ := h.saved i c hc
  exact ⟨hlo, hsuspended.agree hlo (hm.others i hi) (hm.slots i hi)⟩

/-- Code that runs for a handler leaves what the handler goes back to. -/
theorem Inv.keeps {m : Memory} (h : Inv L s)
    (hkeeps : L.Keeps s.current (s.handlers s.current) s.cpu.mem m) :
  L.Nested s.current (s.handlers s.current) m
  := by
  apply (h.nested s.current).agree
  intro h' hmem
  exact hkeeps h' hmem ((h.nested s.current).sound h' hmem)

/-! ### What the assembly does -/

theorem switch_left {p : ι} {c : Cpu} (hslot : (c.reg .rdi).toNat = L.slot p)
    (hlo : L.lo p + 48 ≤ c.sp) (hhi : c.sp + 8 ≤ L.hi p) :
  Left c (c.run switch_to.save)
  := by
  have hapart := L.apart p p
  apply switch_to_left
  · omega
  · omega

theorem mem_switch {p : ι} {c : Cpu} (hslot : (c.reg .rdi).toNat = L.slot p)
    (hlo : L.lo p + 48 ≤ c.sp) (hhi : c.sp + 8 ≤ L.hi p) {x : ℕ}
    (hx : x < c.sp - 48 ∨ c.sp ≤ x) (hx' : x < L.slot p ∨ L.slot p + 8 ≤ x) :
  (c.run switch_to).mem x = c.mem x
  := by
  rw [mem_switch_to]
  apply (switch_left hslot hlo hhi).mem x hx
  rw [hslot]
  exact hx'

theorem switch_apart {p : ι} {c : Cpu} (hslot : (c.reg .rdi).toNat = L.slot p)
    (hlo : L.lo p + 48 ≤ c.sp) (hhi : c.sp + 8 ≤ L.hi p) :
  L.Apart p c.mem (c.run switch_to).mem
  := by
  constructor
  · intro i hi x hx hx'
    have hstacks := L.stacks_apart i p hi
    have hslots := L.apart p i
    apply mem_switch hslot hlo hhi
    · omega
    · omega
  · intro i hi x hx hx'
    have hstacks := L.apart i p
    have hslots := L.slots_apart i p hi
    apply mem_switch hslot hlo hhi
    · omega
    · omega

/-- The stack pointer saved is that below the registers pushed. -/
theorem slot_switch {p : ι} {c : Cpu} (hslot : (c.reg .rdi).toNat = L.slot p)
    (hlo : L.lo p + 48 ≤ c.sp) (hhi : c.sp + 8 ≤ L.hi p) :
  (c.run switch_to).mem.word (L.slot p) = BitVec.ofNat 64 (c.sp - 48)
  := by
  rw [mem_switch_to, ← hslot, (switch_left hslot hlo hhi).slot]
  rw [Cpu.sp] at *
  bv_omega

/-- The task that was switched out with `c` returns from `switch_to`. -/
theorem Inv.returned {q : ι} {c : Cpu} (h : Inv L s) (hc : s.saved q = some c)
    (hrdi : (s.cpu.reg .rdi).toNat = L.slot s.current)
    (hrsi : s.cpu.reg .rsi = s.cpu.mem.word (L.slot q)) (hlo : L.lo s.current + 48 ≤ s.cpu.sp)
    (hhi : s.cpu.sp + 8 ≤ L.hi s.current) :
  Returned (L.hi q) c (s.cpu.run switch_to)
  := by
  have hslot := L.apart s.current s.current
  obtain ⟨-, hsuspended⟩ := h.saved_apart (switch_apart hrdi hlo hhi) hc
  apply switch_to_returned _ _ _ hsuspended
  · omega
  · omega
  · rw [hrsi, (h.saved q c hc).2.slot]

/-- An interrupt writes below the stack pointer only. -/
theorem enter_apart {p : ι} {c : Cpu} (hlo : L.lo p + 168 ≤ maskLow 4 c.sp)
    (hhi : c.sp ≤ L.hi p) :
  L.Apart p c.mem (L.enter c).mem
  := by
  obtain ⟨hsp, -, -, -, hmem⟩ := entered hlo
  have hmask : maskLow 4 c.sp ≤ c.sp := by
    rw [maskLow]
    omega
  exact (Layout.Writes.of_stack hmem (by omega) (by omega)).apart

/-- When `timer_callback` returns, what was interrupted goes on. -/
theorem Inv.resumed {h' : Handler} {hs : List Handler} {c : Cpu} (h : Inv L s)
    (hhandlers : s.handlers s.current = h' :: hs)
    (hkeeps : L.Keeps s.current (h' :: hs) s.cpu.mem c.mem)
    (hpreserved : h'.sound → Preserved (L.enter h'.interrupted) c) :
  Resumed (L.hi s.current) h'.interrupted (c.run irq0_handler.leave)
  := by
  have hnested := h.nested s.current
  rw [hhandlers] at hnested
  obtain ⟨hsound, hlo, hhi, hmem, -, -⟩ := hnested
  have hagree := hmem.trans (hkeeps h' rfl hsound)
  exact irq0_handler_resumed (entered hlo) ⟨hpreserved hsound, hagree⟩ hhi (L.top s.current)

/-! ### Pending interrupts -/

/-- What the task `i` was interrupted from and has not returned to yet, the last one first. -/
def System.interrupted (s : System ι) (i : ι) : List Cpu :=
  (s.handlers i).map Handler.interrupted

/-- The task `p` has not returned yet from the interrupt of `c`, within which it has returned
from all but `d` others. -/
def Pending (s : System ι) (p : ι) (d : ℕ) (c : Cpu) : Prop :=
  ∃ outer, c :: outer <:+ s.interrupted p ∧ outer.length = d

theorem map_note (P : Prop) (hs : List Handler) :
  (note P hs).map Handler.interrupted = hs.map Handler.interrupted
  := by
  cases hs <;> rfl

/-- What a return from an interrupt goes back to. -/
theorem Pending.interrupted {d : ℕ} {c : Cpu} {h : Handler} {hs : List Handler}
    (hc : Pending s s.current d c) (hhandlers : s.handlers s.current = h :: hs)
    (hd : hs.length = d) :
  h.interrupted = c
  := by
  obtain ⟨outer, hsuffix, hlen⟩ := hc
  rw [System.interrupted, hhandlers, List.map_cons] at hsuffix
  obtain heq | hsuffix := List.suffix_cons_iff.mp hsuffix
  · exact (List.cons.inj heq).1.symm
  · have hle := hsuffix.length_le
    rw [List.length_cons, List.length_map] at hle
    omega

/-! ### Steps -/

variable (L)

variable [DecidableEq ι]

def System.timer (s : System ι) : System ι where
  cpu := L.enter s.cpu
  current := s.current
  handlers := Function.update s.handlers s.current (⟨s.cpu, True⟩ :: s.handlers s.current)
  saved := s.saved

/-- A task that is switched to for the first time has not called `switch_to`, and starts with
what its stack holds. -/
def System.switch (s : System ι) (q : ι) : System ι where
  cpu := s.cpu.run switch_to
  current := q
  handlers :=
    match s.saved q with
    | none => s.handlers
    | some c => Function.update s.handlers q
        (note (Returned (L.hi q) c (s.cpu.run switch_to)) (s.handlers q))
  saved := Function.update (Function.update s.saved q none) s.current (some s.cpu)

/-- `timer_callback` has returned with `c`, for the handler `h` inside `hs`. -/
def System.iret (s : System ι) (h : Handler) (hs : List Handler) (c : Cpu) : System ι where
  cpu := c.run irq0_handler.leave
  current := s.current
  handlers := Function.update s.handlers s.current
    (note (Resumed (L.hi s.current) h.interrupted (c.run irq0_handler.leave)) hs)
  saved := s.saved

inductive Step : System ι → Event ι → System ι → Prop
  /-- Compiled code runs. -/
  | run {s : System ι} {c : Cpu} :
      L.Writes s.current s.cpu.mem c.mem →
      L.Keeps s.current (s.handlers s.current) s.cpu.mem c.mem →
      Step s (.run s.current) { s with cpu := c }
  /-- The timer interrupts compiled code. There is room on the stack for what is pushed. -/
  | timer {s : System ι} :
      L.lo s.current + 168 ≤ maskLow 4 s.cpu.sp → s.cpu.sp ≤ L.hi s.current →
      L.Inside (s.handlers s.current) s.cpu →
      Step s (.timer s.current (s.handlers s.current).length) (s.timer L)
  /-- `Schedule` calls `switch_to(&prev->rsp, next->rsp)`. There is room on the stack. -/
  | switch {s : System ι} {q : ι} :
      q ≠ s.current →
      (s.cpu.reg .rdi).toNat = L.slot s.current → s.cpu.reg .rsi = s.cpu.mem.word (L.slot q) →
      L.lo s.current + 48 ≤ s.cpu.sp → s.cpu.sp + 8 ≤ L.hi s.current →
      L.Inside (s.handlers s.current) s.cpu →
      Step s (.switch s.current q) (s.switch L q)
  /-- `timer_callback` returns to `irq0_handler`, which returns from the interrupt. -/
  | iret {s : System ι} {h : Handler} {hs : List Handler} {c : Cpu} :
      s.handlers s.current = h :: hs → L.Writes s.current s.cpu.mem c.mem →
      L.Keeps s.current (h :: hs) s.cpu.mem c.mem →
      (h.sound → Preserved (L.enter h.interrupted) c) →
      Step s (.iret s.current hs.length) (s.iret L h hs c)

variable {L}

variable {t u : System ι} {es : List (Event ι)}

/-! ### What a switch does to the tasks -/

theorem saved_switch_current (q : ι) :
  (s.switch L q).saved s.current = some s.cpu
  := Function.update_self _ _ _

theorem saved_switch_target {q : ι} (hq : q ≠ s.current) :
  (s.switch L q).saved q = none
  := by
  rw [System.switch]
  dsimp only
  rw [Function.update_of_ne hq, Function.update_self]

theorem saved_switch_other {q i : ι} (hi : i ≠ s.current) (hi' : i ≠ q) :
  (s.switch L q).saved i = s.saved i
  := by
  rw [System.switch]
  dsimp only
  rw [Function.update_of_ne hi, Function.update_of_ne hi']

/-- The handlers of the task that is switched to learn of its return, nothing else changes. -/
theorem handlers_switch (q i : ι) :
  (s.switch L q).handlers i = s.handlers i ∨
    ∃ c, i = q ∧ s.saved q = some c ∧
      (s.switch L q).handlers i = note (Returned (L.hi q) c (s.cpu.run switch_to)) (s.handlers i)
  := by
  rw [System.switch]
  cases hc : s.saved q with
  | none => exact Or.inl rfl
  | some c =>
      by_cases hi : i = q
      · right
        refine ⟨c, hi, rfl, ?_⟩
        rw [hi]
        exact Function.update_self _ _ _
      · left
        exact Function.update_of_ne hi _ _

/-! ### The invariant along a step -/

/-- Only the task that runs has changed. -/
theorem Inv.step_current {m : Memory} {hs : List Handler} (h : Inv L s)
    (hm : L.Apart s.current s.cpu.mem m) (hnested : L.Nested s.current hs m) (i : ι) :
  L.Nested i (Function.update s.handlers s.current hs i) m
  := by
  by_cases hi : i = s.current
  · rw [hi, Function.update_self]
    exact hnested
  · rw [Function.update_of_ne hi]
    exact h.nested_apart hm hi

theorem Inv.run {c : Cpu} (h : Inv L s) (hwrites : L.Writes s.current s.cpu.mem c.mem)
    (hkeeps : L.Keeps s.current (s.handlers s.current) s.cpu.mem c.mem) :
  Inv L { s with cpu := c }
  := by
  refine ⟨?_, fun i c' hc => h.saved_apart hwrites.apart hc, h.current⟩
  intro i
  by_cases hi : i = s.current
  · rw [hi]
    exact h.keeps hkeeps
  · exact h.nested_apart hwrites.apart hi

theorem Inv.timer (h : Inv L s) (hlo : L.lo s.current + 168 ≤ maskLow 4 s.cpu.sp)
    (hhi : s.cpu.sp ≤ L.hi s.current) (hinside : L.Inside (s.handlers s.current) s.cpu) :
  Inv L (s.timer L)
  := by
  have hapart := enter_apart hlo hhi
  refine ⟨?_, fun i c hc => h.saved_apart hapart hc, h.current⟩
  apply h.step_current hapart
  have hnested := h.nested s.current
  refine ⟨trivial, hlo, hhi, Memory.AgreeOn.refl _ _ _, ?_, hnested⟩
  intro h' hmem
  exact hinside h' hmem (hnested.sound h' hmem)

theorem Inv.switch {q : ι} (h : Inv L s) (hq : q ≠ s.current)
    (hrdi : (s.cpu.reg .rdi).toNat = L.slot s.current)
    (hrsi : s.cpu.reg .rsi = s.cpu.mem.word (L.slot q)) (hlo : L.lo s.current + 48 ≤ s.cpu.sp)
    (hhi : s.cpu.sp + 8 ≤ L.hi s.current)
    (hinside : L.Inside (s.handlers s.current) s.cpu) :
  Inv L (s.switch L q)
  := by
  have hapart := switch_apart hrdi hlo hhi
  have hslot := L.apart s.current s.current
  have htop := L.top s.current
  have hnested : ∀ i, L.Nested i (s.handlers i) (s.cpu.run switch_to).mem := by
    intro i
    by_cases hi : i = s.current
    · rw [hi]
      apply (h.nested s.current).agree
      intro h' hmem x hx hx'
      have hsp := hinside h' hmem ((h.nested s.current).sound h' hmem)
      apply mem_switch hrdi hlo hhi
      · omega
      · omega
    · exact h.nested_apart hapart hi
  refine ⟨?_, ?_, saved_switch_target hq⟩
  · intro i
    obtain heq | ⟨c, rfl, hc, heq⟩ := handlers_switch (L := L) (s := s) q i
    · rw [heq]
      exact hnested i
    · rw [heq]
      exact (hnested i).note (h.returned hc hrdi hrsi hlo hhi)
  · intro i c hc
    by_cases hi : i = s.current
    · rw [hi] at hc ⊢
      rw [saved_switch_current] at hc
      obtain rfl := Option.some.inj hc
      refine ⟨hlo, ?_⟩
      rw [← hrdi]
      apply switch_to_suspended
      · omega
      · omega
    · by_cases hi' : i = q
      · rw [hi', saved_switch_target hq] at hc
        cases hc
      · rw [saved_switch_other hi hi'] at hc
        exact h.saved_apart hapart hc

theorem Inv.iret {h' : Handler} {hs : List Handler} {c : Cpu} (h : Inv L s)
    (hhandlers : s.handlers s.current = h' :: hs) (hwrites : L.Writes s.current s.cpu.mem c.mem)
    (hkeeps : L.Keeps s.current (h' :: hs) s.cpu.mem c.mem)
    (hpreserved : h'.sound → Preserved (L.enter h'.interrupted) c) :
  Inv L (s.iret L h' hs c)
  := by
  have hresumed := h.resumed hhandlers hkeeps hpreserved
  have hapart : L.Apart s.current s.cpu.mem (c.run irq0_handler.leave).mem := by
    rw [mem_leave]
    exact hwrites.apart
  refine ⟨?_, fun i c' hc => h.saved_apart hapart hc, h.current⟩
  apply h.step_current hapart
  have hnested := h.nested s.current
  rw [hhandlers] at hnested
  obtain ⟨-, -, -, -, hinside, hrest⟩ := hnested
  apply Layout.Nested.note _ hresumed
  apply hrest.agree
  intro h'' hmem
  exact hresumed.mem.mono (hinside h'' hmem) le_rfl

theorem Inv.step {e : Event ι} (h : Inv L s) (hstep : Step L s e t) :
  Inv L t
  := by
  cases hstep with
  | run hwrites hkeeps => exact h.run hwrites hkeeps
  | timer hlo hhi hinside => exact h.timer hlo hhi hinside
  | switch hq hrdi hrsi hlo hhi hinside => exact h.switch hq hrdi hrsi hlo hhi hinside
  | iret hhandlers hwrites hkeeps hpreserved => exact h.iret hhandlers hwrites hkeeps hpreserved

theorem Inv.invariant {es : List (Event ι)} (h : Inv L s) (hrun : Run (Step L) s es t) :
  Inv L t
  := hrun.invariant (fun _ _ _ => Inv.step) h

/-! ### What is pending along a run -/

theorem interrupted_timer :
  (s.timer L).interrupted s.current = s.cpu :: s.interrupted s.current
  := by
  rw [System.interrupted, System.timer]
  dsimp only
  rw [Function.update_self]
  rfl

theorem interrupted_switch (q i : ι) :
  (s.switch L q).interrupted i = s.interrupted i
  := by
  rw [System.interrupted, System.interrupted]
  obtain heq | ⟨c, -, -, heq⟩ := handlers_switch (L := L) (s := s) q i
  · rw [heq]
  · rw [heq, map_note]

/-- A task that was switched out stays so until it is switched to. -/
theorem saved_step {p : ι} {c : Cpu} {e : Event ι} (h : Inv L s) (hc : s.saved p = some c)
    (he : ∀ x, e ≠ .switch x p) (hstep : Step L s e t) :
  t.saved p = some c
  := by
  cases hstep with
  | run => exact hc
  | timer => exact hc
  | iret => exact hc
  | switch =>
      have hcurrent : p ≠ s.current := by
        rintro rfl
        rw [h.current] at hc
        cases hc
      rw [saved_switch_other hcurrent, hc]
      rintro rfl
      exact he _ rfl

theorem saved_run {p : ι} {c : Cpu} {es : List (Event ι)} (h : Inv L s) (hc : s.saved p = some c)
    (hrun : Run (Step L) s es t) (hes : ∀ x, .switch x p ∉ es) :
  t.saved p = some c
  := by
  apply (hrun.invariant_mem (I := fun s => Inv L s ∧ s.saved p = some c) _ ⟨h, hc⟩).2
  rintro s e t he ⟨hinv, hc⟩ hstep
  refine ⟨hinv.step hstep, saved_step hinv hc ?_ hstep⟩
  rintro x rfl
  exact hes x he

/-- An interrupt stays pending until the task returns from it. -/
theorem Pending.step {p : ι} {d : ℕ} {c : Cpu} {e : Event ι} (hc : Pending s p d c)
    (he : e ≠ .iret p d) (hstep : Step L s e t) :
  Pending t p d c
  := by
  obtain ⟨outer, hsuffix, hlen⟩ := hc
  refine ⟨outer, ?_, hlen⟩
  cases hstep with
  | run => exact hsuffix
  | timer =>
      by_cases hp : p = s.current
      · subst hp
        rw [interrupted_timer]
        exact hsuffix.trans (List.suffix_cons _ _)
      · rw [System.interrupted, System.timer]
        dsimp only
        rw [Function.update_of_ne hp]
        exact hsuffix
  | switch =>
      rw [interrupted_switch]
      exact hsuffix
  | iret hhandlers =>
      rw [System.interrupted, System.iret]
      dsimp only
      by_cases hp : p = s.current
      · subst hp
        rw [Function.update_self, map_note]
        rw [System.interrupted, hhandlers, List.map_cons] at hsuffix
        obtain heq | hsuffix := List.suffix_cons_iff.mp hsuffix
        · obtain ⟨-, rfl⟩ := List.cons.inj heq
          rw [List.length_map] at hlen
          exact absurd (by rw [hlen]) he
        · exact hsuffix
      · rw [Function.update_of_ne hp]
        exact hsuffix

theorem Pending.run {p : ι} {d : ℕ} {c : Cpu} {es : List (Event ι)} (hc : Pending s p d c)
    (hrun : Run (Step L) s es t) (hes : .iret p d ∉ es) :
  Pending t p d c
  := by
  apply hrun.invariant_mem _ hc
  intro s e t he hc hstep
  apply hc.step _ hstep
  rintro rfl
  exact hes he

/-! ### Every run -/

theorem Step.iret_inv {p : ι} {d : ℕ} {c : Cpu} (h : Inv L s) (hc : Pending s p d c)
    (hstep : Step L s (.iret p d) t) :
  Resumed (L.hi p) c t.cpu
  := by
  cases hstep with
  | iret hhandlers hwrites hkeeps hpreserved =>
      rw [← hc.interrupted hhandlers rfl]
      exact h.resumed hhandlers hkeeps hpreserved

theorem Step.switch_inv {p r : ι} {c : Cpu} (h : Inv L s) (hc : s.saved p = some c)
    (hstep : Step L s (.switch r p) t) :
  Returned (L.hi p) c t.cpu
  := by
  cases hstep with
  | switch _ hrdi hrsi hlo hhi => exact h.returned hc hrdi hrsi hlo hhi

/-- The memory of `t` holds the saved stack pointers of the table of `s`. -/
structure Layout.Table (L : Layout (Fin MAX_TASK_COUNT)) (s : Sched)
    (t : System (Fin MAX_TASK_COUNT)) : Prop where
  current : s.CurrentTaskPID = t.current
  slots : ∀ i : Fin MAX_TASK_COUNT, (s.TaskTable i).state ≠ TASK_EMPTY →
    (s.TaskTable i).state ≠ TASK_ZOMBIE →
      t.cpu.mem.word (L.slot i) = BitVec.ofNat 64 (s.TaskTable i).rsp

/-- Where `Schedule` calls `switch_to`, the processor goes to the task that becomes the current
one, and the table is again in memory. -/
theorem schedule_switch {L : Layout (Fin MAX_TASK_COUNT)} {K : Kernel} {s : Sched}
    {t : System (Fin MAX_TASK_COUNT)} {r : ℕ} (h : Consistent s) (ht : L.Table s t)
    (hr : (Schedule K s (t.cpu.sp - 48)).2 = some r)
    (hrdi : (t.cpu.reg .rdi).toNat = L.slot t.current)
    (hrsi : t.cpu.reg .rsi = BitVec.ofNat 64 r)
    (hlo : L.lo t.current + 48 ≤ t.cpu.sp) (hhi : t.cpu.sp + 8 ≤ L.hi t.current)
    (hinside : L.Inside (t.handlers t.current) t.cpu) :
  ∃ q, Step L t (.switch t.current q) (t.switch L q) ∧
    L.Table (Schedule K s (t.cpu.sp - 48)).1 (t.switch L q)
  := by
  obtain ⟨next, ⟨hnonneg, hlt⟩, hne, hempty, hzombie, heq⟩ := h.switched hr
  obtain ⟨-, hcur, -⟩ := foldl_settle K s MAX_TASK_COUNT
  have hentry := fun i : Fin MAX_TASK_COUNT =>
    settle_entry K s (show Index i from ⟨by omega, by omega⟩)
  rw [heq] at hr ⊢
  generalize (List.range MAX_TASK_COUNT).foldl (Schedule.settle K) s = s' at *
  -- The saved stack pointers that the first loop leaves are those in memory.
  have hslots : ∀ i : Fin MAX_TASK_COUNT, (s'.TaskTable i).state ≠ TASK_EMPTY →
      (s'.TaskTable i).state ≠ TASK_ZOMBIE →
        t.cpu.mem.word (L.slot i) = BitVec.ofNat 64 (s'.TaskTable i).rsp := by
    intro i hempty hzombie
    rw [hentry] at hempty hzombie ⊢
    obtain ⟨hempty', hzombie', hrsp⟩ := settled_rsp hempty hzombie
    rw [hrsp, ht.slots i hempty' hzombie']
  obtain ⟨q, rfl⟩ : ∃ q : Fin MAX_TASK_COUNT, (q : ℤ) = next :=
    ⟨⟨next.toNat, by omega⟩, Int.toNat_of_nonneg hnonneg⟩
  rw [← hcur] at hne
  have hq : q ≠ t.current := by
    rintro rfl
    exact hne (hcur.trans ht.current).symm
  rw [switch_snd hne] at hr
  obtain rfl := Option.some.inj hr
  refine ⟨q, Step.switch hq hrdi ?_ hlo hhi hinside, switch_CurrentTaskPID _ _ _, ?_⟩
  · rw [hrsi, hslots q hempty hzombie]
  · intro i hempty' hzombie'
    rw [switch_state hne] at hempty' hzombie'
    rw [switch_rsp hne]
    by_cases hi : i = t.current
    · rw [if_pos (by rw [hi, hcur, ht.current]), hi]
      exact slot_switch hrdi hlo hhi
    · have hi' : (i : ℤ) ≠ s'.CurrentTaskPID := by
        rw [hcur, ht.current]
        omega
      rw [if_neg hi']
      apply Eq.trans (((switch_apart hrdi hlo hhi).slots i hi).word le_rfl le_rfl)
      by_cases hiq : i = q
      · rw [hiq]
        exact hslots q hempty hzombie
      · rw [if_neg (by omega), if_neg (fun hn => hi' hn.1)] at hempty' hzombie'
        exact hslots i hempty' hzombie'

/-! ### Two tasks -/

/-- Two tasks with a page of stack each. -/
def pair : Layout Bool where
  lo i := if i then 8192 else 4096
  hi i := if i then 12288 else 8192
  slot i := if i then 264 else 256
  top := by decide
  stacks_apart := by decide
  slots_apart := by decide
  apart := by decide
  kernel_cs := 8
  irq0_handler := 0x1000
  timer_callback := 0x1100
  next := 0x1040

/-- The first task runs, the second has not been switched to yet. -/
def pair.start : System Bool where
  cpu :=
    { reg := fun r => if r = .rsp then 8120 else 7
      rip := 0x1200
      cs := 8
      ss := 16
      rflags := 0x202
      mem := Memory.store (fun _ => 0) 264 8 12000 }
  current := false
  handlers := fun _ => []
  saved := fun _ => none

/-- The task that runs is about to call `switch_to` for the other one. -/
def pair.call (s : System Bool) : System Bool :=
  { s with
    cpu := (s.cpu.setReg .rdi (BitVec.ofNat 64 (pair.slot s.current))).setReg .rsi
      (s.cpu.mem.word (pair.slot !s.current)) }

theorem pair.call_step (s : System Bool) :
  Step pair s (.run s.current) (pair.call s)
  := Step.run (Layout.Writes.refl _ _) (fun _ _ _ => Memory.AgreeOn.refl _ _ _)

theorem pair.switch_step {s : System Bool} (hlo : pair.lo s.current + 48 ≤ s.cpu.sp)
    (hhi : s.cpu.sp + 8 ≤ pair.hi s.current) (hinside : pair.Inside (s.handlers s.current) s.cpu) :
  Step pair (pair.call s) (.switch s.current !s.current) ((pair.call s).switch pair !s.current)
  := by
  refine Step.switch ?_ ?_ rfl hlo hhi hinside
  · exact Bool.not_ne_self s.current
  · change (BitVec.ofNat 64 (pair.slot s.current)).toNat = pair.slot s.current
    cases s.current <;> decide

def pair.interrupted : System Bool := pair.start.timer pair

def pair.switched : System Bool := (pair.call pair.interrupted).switch pair true

def pair.back : System Bool := (pair.call pair.switched).switch pair false

theorem pair.sp_interrupted :
  pair.interrupted.cpu.sp = 7944
  := by decide +kernel

theorem pair.sp_switched :
  pair.switched.cpu.sp = 12056
  := by decide +kernel

theorem pair.timer_step :
  Step pair pair.start (.timer false 0) pair.interrupted
  := by
  refine Step.timer (L := pair) (s := pair.start) ?_ ?_ ?_
  · decide +kernel
  · decide +kernel
  · rintro _ ⟨⟩

theorem pair.leave_step :
  Step pair (pair.call pair.interrupted) (.switch false true) pair.switched
  := by
  apply pair.switch_step
  · rw [pair.sp_interrupted]
    decide
  · rw [pair.sp_interrupted]
    decide
  · rintro h ⟨⟩ -
    exact Nat.le_add_right _ _

theorem pair.back_step :
  Step pair (pair.call pair.switched) (.switch true false) pair.back
  := by
  apply pair.switch_step
  · rw [pair.sp_switched]
    decide
  · rw [pair.sp_switched]
    decide
  · rintro _ ⟨⟩

/-- The handler in the first task, when it runs again. -/
def pair.handler : Handler where
  interrupted := pair.start.cpu
  sound := True ∧ Returned 8192 (pair.call pair.interrupted).cpu pair.back.cpu

def pair.resumed : System Bool := pair.back.iret pair pair.handler [] pair.back.cpu

theorem pair.iret_step :
  Step pair pair.back (.iret false 0) pair.resumed
  := by
  have hhandlers : pair.back.handlers pair.back.current = [pair.handler] := rfl
  refine Step.iret hhandlers (Layout.Writes.refl _ _) (fun _ _ _ => Memory.AgreeOn.refl _ _ _) ?_
  rintro ⟨-, hreturned⟩
  refine ⟨hreturned.rip, hreturned.rsp, ?_⟩
  intro r hr
  rw [hreturned.saved r hr]
  have hrdi : r ≠ .rdi := by
    rintro rfl
    revert hr
    decide
  have hrsi : r ≠ .rsi := by
    rintro rfl
    revert hr
    decide
  apply Eq.trans (Function.update_of_ne hrsi _ _)
  exact Function.update_of_ne hrdi _ _

end Contexts
