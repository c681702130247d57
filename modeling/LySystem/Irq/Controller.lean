import LySystem.Irq.Gates
import LySystem.Keyboard.Scancode
import LySystem.Machine.Pic

/-!
# The interrupts of the devices

`pic_remap`, `irq_init` and `traps_init` of `kernel/IRQ/traps.c`, as far as they concern the
interrupt controllers and the table of gates, and what the handlers write to the controllers.  A
handler runs with interrupts disabled, but devices may request interrupts between any two of its
accesses.  Interrupts that are requested meanwhile are served afterwards, those of the lines that
come first before the others, and none of them is lost.
-/

namespace Irq

open Pic

/-! ### Initialisation -/

def pic_remap : List (ℕ × Byte) :=
  [(0x20, 0x11), (0xA0, 0x11), (0x21, 0x20), (0xA1, 0x28), (0x21, 0x04), (0xA1, 0x02), (0x21, 0x01),
    (0xA1, 0x01), (0x21, 0x00), (0xA1, 0x00)]

/-- The addresses of the handlers. -/
structure Handlers where
  divide_by_zero_handler : ℕ
  general_protection_handler : ℕ
  page_handler : ℕ
  syscall_interrupt_handler : ℕ
  irq0_handler : ℕ
  keyboard_handler : ℕ
  sci_handler : ℕ
  mouse_handler : ℕ
  ide_handler : ℕ

/-- The gates `irq_init` sets. -/
def irq_init.gates (H : Handlers) : List Call :=
  [⟨32, H.irq0_handler, 0⟩, ⟨33, H.keyboard_handler, 0⟩, ⟨41, H.sci_handler, 0⟩,
    ⟨44, H.mouse_handler, 0⟩, ⟨46, H.ide_handler, 0⟩, ⟨47, H.ide_handler, 0⟩]

/-- The controllers `irq_init` leaves.  What it does to the ports of the keyboard controller does not
concern them. -/
def irq_init.pics (p : Pair) : Pair :=
  let p := pic_remap.foldl (fun p w => p.outb w.1 w.2) p
  p.outb 0xA1 (p.inb 0xA1 &&& ~~~((1 : Byte) <<< 1))

/-- The gates `traps_init` sets. -/
def traps_init.gates (H : Handlers) : List Call :=
  [⟨0, H.divide_by_zero_handler, 0⟩, ⟨13, H.general_protection_handler, 0⟩, ⟨14, H.page_handler, 0⟩,
    ⟨0x80, H.syscall_interrupt_handler, 3⟩] ++ irq_init.gates H

def traps_init.table (H : Handlers) (idt_table : ℕ) (m : Memory) : Memory :=
  (traps_init.gates H).foldl (Call.run idt_table) m

/-! ### The handlers -/

/-- The bytes the keyboard driver writes to ports. -/
def ports (calls : List Keyboard.Call) : List (ℕ × Byte) :=
  calls.filterMap fun
    | .outb port val => some (port.toNat, val)
    | _ => none

/-- The bytes a handler writes to ports, and the keyboard driver afterwards; `scancode` is the byte
the keyboard has to read. -/
def writes (H : Handlers) (d : Keyboard.State) (scancode : Byte) (handler : ℕ) :
    Option (List (ℕ × Byte) × Keyboard.State) :=
  if handler = H.irq0_handler then some ([(0x20, 0x20)], d) -- `timer_callback`
  else if handler = H.keyboard_handler then
    let d' := Keyboard.keyboard_handler d scancode
    some (ports (d'.calls.drop d.calls.length), d')
  else if handler = H.sci_handler then some ([(0xA0, 0x20), (0x20, 0x20)], d)
  else if handler = H.mouse_handler then some ([(0xA0, 0x20), (0x20, 0x20)], d)
  else if handler = H.ide_handler then some ([(0xA0, 0x20), (0x20, 0x20)], d)
  else none

/-- The controllers, the keyboard driver, what the handler that runs has still to write, the vectors
taken, and whether the processor found no handler for one. -/
structure System where
  pics : Pair
  driver : Keyboard.State
  todo : List (ℕ × Byte)
  taken : List Byte
  faulted : Bool

/-- A device requests an interrupt, the processor takes one if there is one and no handler runs, or
the handler does its next access. -/
inductive Event where
  | raise (line : ℕ)
  | take (scancode : Byte)
  | access

def System.step (H : Handlers) (idt_table : ℕ) (m : Memory) (s : System) : Event → System
  | .raise line => { s with pics := s.pics.raise line }
  | .access =>
      match s.todo with
      | [] => s
      | w :: todo => { s with pics := s.pics.outb w.1 w.2, todo := todo }
  | .take scancode =>
      if s.todo ≠ [] then s
      else
        match s.pics.acknowledge with
        | none => s
        | some (v, pics) =>
            match (gate idt_table m v.toNat).bind fun g => writes H s.driver scancode g.offset with
            | none => { s with pics := pics, taken := s.taken ++ [v], faulted := true }
            | some (todo, driver) => ⟨pics, driver, todo, s.taken ++ [v], s.faulted⟩

/-- The state after `traps_init`. -/
def System.start (p : Pair) (d : Keyboard.State) : System := ⟨irq_init.pics p, d, [], [], false⟩

/-! ### Lines that wait -/

/-- The lines in the order in which they are served. -/
def order : List ℕ := [0, 1] ++ [8, 9, 10, 11, 12, 13, 14, 15] ++ [3, 4, 5, 6, 7]

/-- The lines that wait, and those that were served. -/
structure Queue where
  waiting : ℕ → Bool
  served : List ℕ

/-- A line waits from its request to its turn; `idle` tells whether no handler runs. -/
def Queue.step (q : Queue) (idle : Bool) : Event → Queue
  | .raise line => { q with waiting := Function.update q.waiting line true }
  | .access => q
  | .take _ =>
      match if idle then order.find? q.waiting else none with
      | none => q
      | some line => ⟨Function.update q.waiting line false, q.served ++ [line]⟩

/-- The lines that have a handler. -/
def lines : List ℕ := [0, 1, 9, 12, 14, 15]

/-! ### The controllers -/

/-- Nothing is masked, the vectors are those from 32 on, and the second controller is at line 2. -/
structure Programmed (p : Pair) : Prop where
  master_masked : p.master.masked = 0
  slave_masked : p.slave.masked = 0
  master_base : p.master.base = 0x20
  slave_base : p.slave.base = 0x28
  master_wiring : p.master.wiring = 0x04
  slave_wiring : p.slave.wiring = 0x02
  cascade : p.master.requested 2 = false

/-- No line is in service. -/
structure Idle (p : Pair) : Prop extends Programmed p where
  master_serving : p.master.serving = fun _ => false
  slave_serving : p.slave.serving = fun _ => false

/-- The lines that are requested. -/
def asked (p : Pair) (line : ℕ) : Bool :=
  if line < 8 then p.master.requested line else p.slave.requested (line - 8)

/-- The byte is the end of an interrupt, or it is for another device. -/
def Harmless (w : ℕ × Byte) : Prop :=
  w.2 = 0x20 ∧ (w.1 = 0x20 ∨ w.1 = 0xA0) ∨
    w.1 ≠ 0x20 ∧ w.1 ≠ 0x21 ∧ w.1 ≠ 0xA0 ∧ w.1 ≠ 0xA1

def outbs (p : Pair) (ws : List (ℕ × Byte)) : Pair := ws.foldl (fun p w => p.outb w.1 w.2) p

variable {p : Pair} {w : ℕ × Byte} {c : Chip}

/-- After `irq_init` no line is in service, and none is requested, whatever was before. -/
theorem irq_init_idle (p : Pair) :
  Idle (irq_init.pics p) ∧ asked (irq_init.pics p) = fun _ => false
  := by
  have hmask : (0 : Byte) &&& ~~~((1 : Byte) <<< 1) = 0 := by decide
  refine ⟨⟨⟨rfl, hmask, rfl, rfl, rfl, rfl, rfl⟩, rfl, rfl⟩, ?_⟩
  funext line
  rw [asked]
  exact ite_self _

/-- The end of an interrupt changes the lines in service only. -/
theorem command_end (c : Chip) :
  c.command 0x20 = { c with
    serving := match c.first with
      | some n => Function.update c.serving n false
      | none => c.serving }
  := by
  rw [Chip.command, if_neg (by decide), if_pos rfl]
  cases c.first <;> rfl

theorem Harmless.cases (h : Harmless w) :
  (∀ p : Pair, p.outb w.1 w.2 = { p with master := p.master.command 0x20 }) ∨
    (∀ p : Pair, p.outb w.1 w.2 = { p with slave := p.slave.command 0x20 }) ∨
    ∀ p : Pair, p.outb w.1 w.2 = p
  := by
  obtain ⟨port, v⟩ := w
  rcases h with ⟨hv, hport | hport⟩ | ⟨h20, h21, hA0, hA1⟩
  · left
    intro p
    dsimp only at hv hport ⊢
    rw [hv, hport, Pair.outb, if_pos rfl]
  · right
    left
    intro p
    dsimp only at hv hport ⊢
    rw [hv, hport, Pair.outb, if_neg (by decide), if_neg (by decide), if_pos rfl]
  · right
    right
    intro p
    rw [Pair.outb, if_neg h20, if_neg h21, if_neg hA0, if_neg hA1]

/-- A request and the end of an interrupt do not affect each other. -/
theorem Harmless.raise_outb (h : Harmless w) (p : Pair) (line : ℕ) :
  (p.raise line).outb w.1 w.2 = (p.outb w.1 w.2).raise line
  := by
  rcases h.cases with heq | heq | heq
  all_goals rw [heq, heq]
  · rw [Pair.raise, Pair.raise]
    split_ifs
    · rw [command_end, command_end]
      rfl
    · rfl
  · rw [Pair.raise, Pair.raise]
    split_ifs
    · rfl
    · rw [command_end, command_end]
      rfl

theorem Harmless.asked_outb (h : Harmless w) (p : Pair) :
  asked (p.outb w.1 w.2) = asked p
  := by
  rcases h.cases with heq | heq | heq
  all_goals rw [heq]
  · rw [command_end]
    rfl
  · rw [command_end]
    rfl

theorem outbs_raise {ws : List (ℕ × Byte)} (h : ∀ w ∈ ws, Harmless w) (p : Pair) (line : ℕ) :
  outbs (p.raise line) ws = (outbs p ws).raise line
  := by
  induction ws generalizing p with
  | nil => rfl
  | cons w ws ih =>
      rw [outbs, outbs, List.foldl_cons, List.foldl_cons,
        (h w List.mem_cons_self).raise_outb]
      exact ih (fun w hw => h w (List.mem_cons_of_mem _ hw)) _

theorem asked_raise (p : Pair) (line : ℕ) :
  asked (p.raise line) = Function.update (asked p) line true
  := by
  funext n
  by_cases hn : n = line
  · subst hn
    rw [Function.update_self, asked, Pair.raise]
    split_ifs
    · exact Function.update_self ..
    · exact Function.update_self ..
  · rw [Function.update_of_ne hn, asked, asked, Pair.raise]
    split_ifs
    · exact Function.update_of_ne hn ..
    · rfl
    · rfl
    · exact Function.update_of_ne (by omega) ..

theorem Idle.raise (h : Idle p) {line : ℕ} (hline : line ≠ 2) :
  Idle (p.raise line)
  := by
  obtain ⟨⟨hmm, hsm, hmb, hsb, hmw, hsw, hcascade⟩, hms, hss⟩ := h
  rw [Pair.raise]
  split_ifs
  · refine ⟨⟨hmm, hsm, hmb, hsb, hmw, hsw, ?_⟩, hms, hss⟩
    exact (Function.update_of_ne (Ne.symm hline) ..).trans hcascade
  · exact ⟨⟨hmm, hsm, hmb, hsb, hmw, hsw, hcascade⟩, hms, hss⟩

/-! ### Taking an interrupt -/

/-- When no line is in service and none is masked, the first request is presented. -/
theorem presented_eq (hmasked : c.masked = 0) (hserving : c.serving = fun _ => false)
    (r : ℕ → Bool) :
  c.presented r = (List.range 8).find? r
  := by
  rw [Chip.presented]
  congr 1
  funext n
  have hserved : c.servedUpTo n = false := by
    rw [Chip.servedUpTo, hserving]
    simp
  have hbit : (0 : Byte).getLsbD n = false := BitVec.getLsbD_zero
  rw [hmasked, hserved, hbit, Bool.not_false, Bool.and_true, Bool.and_true]

/-- The lines of the second controller. -/
theorem find_slave (p : Pair) :
  [8, 9, 10, 11, 12, 13, 14, 15].find? (asked p) =
    ((List.range 8).find? p.slave.requested).map (· + 8)
  := by
  rw [show [8, 9, 10, 11, 12, 13, 14, 15] = (List.range 8).map (· + 8) from rfl, List.find?_map]
  congr 1

/-- The first controller's own lines, and that of the second one. -/
theorem find_master (p : Pair) (b : Bool) :
  (List.range 8).find? (Function.update p.master.requested 2 b) =
    (([0, 1].find? (asked p)).or (if b then some 2 else none)).or ([3, 4, 5, 6, 7].find? (asked p))
  := by
  rw [show List.range 8 = [0, 1] ++ [2] ++ [3, 4, 5, 6, 7] from rfl, List.find?_append,
    List.find?_append]
  congr 1
  congr 1
  cases b <;> rfl

/-- The controllers when the processor has taken a line. -/
def taken (p : Pair) (line : ℕ) : Pair :=
  if line < 8 then { p with master := p.master.take line }
  else ⟨{ p.master with serving := Function.update p.master.serving 2 true },
    p.slave.take (line - 8)⟩

/-- A line of the first controller but for the second one's. -/
theorem acknowledge_master (h : Programmed p) {n : ℕ} (hn : n < 8) (hne : n ≠ 2)
    (hpresented : p.master.presented p.masterRequests = some n) :
  p.acknowledge = some (0x20 + BitVec.ofNat 8 n, taken p n)
  := by
  have hwiring : p.master.wiring.getLsbD n = false := by
    rw [h.master_wiring]
    interval_cases n
    all_goals first | rfl | omega
  rw [Pair.acknowledge, hpresented, h.master_base, taken, if_pos hn]
  dsimp only
  rw [hwiring, Bool.false_and, if_neg Bool.false_ne_true]

/-- A line of the second controller. -/
theorem acknowledge_slave (h : Programmed p) {k : ℕ}
    (hpresented : p.master.presented p.masterRequests = some 2)
    (hslave : p.slave.presented p.slave.requested = some k) :
  p.acknowledge = some (0x20 + BitVec.ofNat 8 (k + 8), taken p (k + 8))
  := by
  have hvector : (0x28 : Byte) + BitVec.ofNat 8 k = 0x20 + BitVec.ofNat 8 (k + 8) := by
    rw [Nat.add_comm, BitVec.ofNat_add, ← BitVec.add_assoc]
    rfl
  have hwiring : (p.master.wiring.getLsbD 2 && p.slave.wiring.toNat == 2) = true := by
    rw [h.master_wiring, h.slave_wiring]
    rfl
  rw [Pair.acknowledge, hpresented]
  dsimp only
  rw [hwiring, if_pos rfl, hslave]
  dsimp only
  rw [h.slave_base, hvector, taken, if_neg (by omega), Nat.add_sub_cancel]

/-- The first of the lines that are requested is taken, and its vector is 32 more. -/
theorem Idle.acknowledge_eq (h : Idle p) :
  p.acknowledge = (order.find? (asked p)).map fun line => (0x20 + BitVec.ofNat 8 line, taken p line)
  := by
  have hslave : p.slave.presented p.slave.requested = (List.range 8).find? p.slave.requested :=
    presented_eq h.slave_masked h.slave_serving _
  have hmaster : p.master.presented p.masterRequests =
      (([0, 1].find? (asked p)).or
        (if ((List.range 8).find? p.slave.requested).isSome then some 2 else none)).or
          ([3, 4, 5, 6, 7].find? (asked p)) := by
    rw [presented_eq h.master_masked h.master_serving, Pair.masterRequests, hslave, find_master]
  rw [order, List.find?_append, List.find?_append, find_slave]
  have hlow : ∀ n, [0, 1].find? (asked p) = some n → n < 2 := by
    intro n hn
    have hmem := List.mem_of_find?_eq_some hn
    simp only [List.mem_cons, List.not_mem_nil, or_false] at hmem
    omega
  have hhigh : ∀ n, [3, 4, 5, 6, 7].find? (asked p) = some n → 2 < n ∧ n < 8 := by
    intro n hn
    have hmem := List.mem_of_find?_eq_some hn
    simp only [List.mem_cons, List.not_mem_nil, or_false] at hmem
    omega
  generalize (List.range 8).find? p.slave.requested = b at hslave hmaster
  generalize [0, 1].find? (asked p) = a at hmaster hlow
  generalize [3, 4, 5, 6, 7].find? (asked p) = d at hmaster hhigh
  cases a with
  | some n =>
      have hn := hlow n rfl
      exact acknowledge_master h.toProgrammed (by omega) (by omega) hmaster
  | none =>
      cases b with
      | some k => exact acknowledge_slave h.toProgrammed hmaster hslave
      | none =>
          cases d with
          | some n =>
              obtain ⟨hgt, hlt⟩ := hhigh n rfl
              exact acknowledge_master h.toProgrammed hlt (by omega) hmaster
          | none =>
              change p.master.presented p.masterRequests = none at hmaster
              rw [Pair.acknowledge, hmaster]
              rfl

theorem asked_taken (p : Pair) (line : ℕ) :
  asked (taken p line) = Function.update (asked p) line false
  := by
  funext n
  by_cases hn : n = line
  · subst hn
    rw [Function.update_self, asked, taken]
    split_ifs
    · exact Function.update_self ..
    · exact Function.update_self ..
  · rw [Function.update_of_ne hn, asked, asked, taken]
    split_ifs
    · exact Function.update_of_ne hn ..
    · rfl
    · rfl
    · exact Function.update_of_ne (by omega) ..

/-- The end of the only interrupt in service. -/
theorem command_end_single {n : ℕ} (hn : n < 8)
    (h : c.serving = Function.update (fun _ => false) n true) :
  c.command 0x20 = { c with serving := fun _ => false }
  := by
  have hfirst : c.first = some n := by
    rw [Chip.first, h]
    interval_cases n
    all_goals decide
  rw [command_end, hfirst]
  dsimp only
  rw [h, Function.update_idem, Function.update_eq_self]

/-- What a handler writes for a line: bytes for other devices, and the ends of the interrupt. -/
structure Ends (ws : List (ℕ × Byte)) (line : ℕ) : Prop where
  harmless : ∀ w ∈ ws, Harmless w
  ends : ∀ p, outbs p ws =
    if line < 8 then { p with master := p.master.command 0x20 }
    else ⟨p.master.command 0x20, p.slave.command 0x20⟩

/-- After a handler no line is in service. -/
theorem Ends.idle {ws : List (ℕ × Byte)} {line : ℕ} (hends : Ends ws line) (h : Idle p)
    (hline : line < 16) :
  Idle (outbs (taken p line) ws)
  := by
  obtain ⟨⟨hmm, hsm, hmb, hsb, hmw, hsw, hcascade⟩, hms, hss⟩ := h
  rw [hends.ends, taken]
  split_ifs with hlow
  · have hend := command_end_single (c := p.master.take line) hlow (by rw [Chip.take, hms])
    dsimp only
    rw [hend]
    refine ⟨⟨hmm, hsm, hmb, hsb, hmw, hsw, ?_⟩, rfl, hss⟩
    change Function.update p.master.requested line false 2 = false
    by_cases h2 : 2 = line
    · rw [h2, Function.update_self]
    · rw [Function.update_of_ne h2, hcascade]
  · have hmaster := command_end_single
      (c := { p.master with serving := Function.update p.master.serving 2 true })
      (show 2 < 8 by decide) (by rw [hms])
    have hslave := command_end_single (c := p.slave.take (line - 8)) (show line - 8 < 8 by omega)
      (by rw [Chip.take, hss])
    rw [hmaster, hslave]
    exact ⟨⟨hmm, hsm, hmb, hsb, hmw, hsw, hcascade⟩, rfl, rfl⟩

/-! ### The handlers -/

/-- The handlers of the devices are different functions. -/
structure Handlers.Placed (H : Handlers) : Prop where
  lt : ∀ c ∈ traps_init.gates H, c.handler < 2 ^ 64
  nodup : [H.irq0_handler, H.keyboard_handler, H.sci_handler, H.mouse_handler,
    H.ide_handler].Nodup

/-- The keyboard driver writes to the port of the keyboard before the end of the interrupt. -/
theorem transform_ports (d : Keyboard.State) (code : BitVec 16) :
  ∃ new, (Keyboard.keyboard_transform d code).2.calls = d.calls ++ new ∧
    ∀ port val, .outb port val ∈ new → port = 0x60
  := by
  have hnone : ∀ port val, Keyboard.Call.outb port val ∈ ([] : List Keyboard.Call) → port = 0x60 :=
    fun port val h => absurd h List.not_mem_nil
  rw [Keyboard.keyboard_transform]
  split_ifs
  · exact ⟨[], (List.append_nil _).symm, hnone⟩
  · exact ⟨[], (List.append_nil _).symm, hnone⟩
  · refine ⟨_, rfl, ?_⟩
    intro port val h
    simp only [List.mem_cons, List.not_mem_nil, or_false, reduceCtorEq, false_or,
      Keyboard.Call.outb.injEq] at h
    rcases h with h | h
    all_goals exact h.1
  · exact ⟨[], (List.append_nil _).symm, hnone⟩
  · rw [Keyboard.keyboard_transform.switch]
    rcases Keyboard.keyboard_transform.label code with _ | _ | _ | _ | _
    case some.escape => exact ⟨_, rfl, fun port val h => by simp at h⟩
    all_goals exact ⟨[], (List.append_nil _).symm, hnone⟩

/-- Bytes for other devices, and then the end of an interrupt of the first controller. -/
theorem ends_behind {ws : List (ℕ × Byte)} {line : ℕ} (hline : line < 8)
    (hws : ∀ w ∈ ws, w.1 = 0x60) :
  Ends (ws ++ [(0x20, 0x20)]) line
  := by
  constructor
  · intro w hw
    rcases List.mem_append.mp hw with hw | hw
    · have hport := hws w hw
      exact Or.inr ⟨by omega, by omega, by omega, by omega⟩
    · rw [List.mem_singleton.mp hw]
      exact Or.inl ⟨rfl, Or.inl rfl⟩
  · intro p
    have hother : outbs p ws = p := by
      induction ws with
      | nil => rfl
      | cons w ws ih =>
          have hport := hws w List.mem_cons_self
          rw [outbs, List.foldl_cons, hport]
          exact ih fun w hw => hws w (List.mem_cons_of_mem _ hw)
    have hlast : outbs p (ws ++ [(0x20, 0x20)]) = outbs (outbs p ws) [(0x20, 0x20)] :=
      List.foldl_append
    rw [if_pos hline, hlast, hother]
    rfl

theorem ends_both {line : ℕ} (hline : 8 ≤ line) :
  Ends [(0xA0, 0x20), (0x20, 0x20)] line
  := by
  constructor
  · intro w hw
    simp only [List.mem_cons, List.not_mem_nil, or_false] at hw
    rcases hw with rfl | rfl
    · exact Or.inl ⟨rfl, Or.inr rfl⟩
    · exact Or.inl ⟨rfl, Or.inl rfl⟩
  · intro p
    rw [if_neg (by omega)]
    rfl

theorem ports_append (cs cs' : List Keyboard.Call) :
  ports (cs ++ cs') = ports cs ++ ports cs'
  := List.filterMap_append

/-- The end of the interrupt of the keyboard comes last. -/
theorem ends_keyboard (d : Keyboard.State) (scancode : Byte) :
  Ends (ports ((Keyboard.keyboard_handler d scancode).calls.drop d.calls.length)) 1
  := by
  obtain ⟨new, hcalls, hports⟩ := transform_ports d (scancode.setWidth 16)
  have hnew : ∀ w ∈ ports new, w.1 = 0x60 := by
    intro w hw
    obtain ⟨call, hcall, heq⟩ := List.mem_filterMap.mp hw
    cases call with
    | outb port val =>
        obtain rfl := Option.some.inj heq
        rw [hports port val hcall]
        rfl
    | _ => cases heq
  rw [Keyboard.keyboard_handler]
  dsimp only
  generalize Keyboard.keyboard_transform d (scancode.setWidth 16) = r at hcalls ⊢
  split_ifs
  · rw [Keyboard.State.call, Keyboard.State.call]
    dsimp only
    rw [hcalls, List.append_assoc, List.append_assoc, List.drop_left, ports_append, ports_append]
    exact ends_behind (by decide) hnew
  · rw [Keyboard.State.call]
    dsimp only
    rw [hcalls, List.append_assoc, List.drop_left, ports_append]
    exact ends_behind (by decide) hnew

/-- Each of the lines has a handler that ends its interrupt. -/
theorem handler_ends {H : Handlers} (hplaced : H.Placed) (idt_table : ℕ) (m : Memory)
    (d : Keyboard.State) (scancode : Byte) {line : ℕ} (hline : line ∈ lines) :
  ∃ ws d', ((gate idt_table (traps_init.table H idt_table m)
      (0x20 + BitVec.ofNat 8 line : Byte).toNat).bind fun g => writes H d scancode g.offset) =
        some (ws, d') ∧ Ends ws line ∧ line < 16
  := by
  have hnodup := hplaced.nodup
  simp only [List.nodup_cons, List.mem_cons, List.not_mem_nil, or_false, not_or] at hnodup
  obtain ⟨⟨h01, h02, h03, h04⟩, ⟨h12, h13, h14⟩, ⟨h23, h24⟩, h34, -⟩ := hnodup
  rw [traps_init.table, gate_last_set _ hplaced.lt]
  simp only [lines, List.mem_cons, List.not_mem_nil, or_false] at hline
  rcases hline with rfl | rfl | rfl | rfl | rfl | rfl
  · have hnone : ∀ w ∈ ([] : List (ℕ × Byte)), w.1 = 0x60 := List.forall_mem_nil _
    exact ⟨[(0x20, 0x20)], d, if_pos rfl, ends_behind (by decide) hnone, by decide⟩
  · refine ⟨_, Keyboard.keyboard_handler d scancode, ?_, ends_keyboard d scancode, by decide⟩
    exact (if_neg (Ne.symm h01)).trans (if_pos rfl)
  · refine ⟨_, d, ?_, ends_both (by decide), by decide⟩
    exact (if_neg (Ne.symm h02)).trans ((if_neg (Ne.symm h12)).trans (if_pos rfl))
  · refine ⟨_, d, ?_, ends_both (by decide), by decide⟩
    exact (if_neg (Ne.symm h03)).trans ((if_neg (Ne.symm h13)).trans
      ((if_neg (Ne.symm h23)).trans (if_pos rfl)))
  · refine ⟨_, d, ?_, ends_both (by decide), by decide⟩
    exact (if_neg (Ne.symm h04)).trans ((if_neg (Ne.symm h14)).trans
      ((if_neg (Ne.symm h24)).trans ((if_neg (Ne.symm h34)).trans (if_pos rfl))))
  · refine ⟨_, d, ?_, ends_both (by decide), by decide⟩
    exact (if_neg (Ne.symm h04)).trans ((if_neg (Ne.symm h14)).trans
      ((if_neg (Ne.symm h24)).trans ((if_neg (Ne.symm h34)).trans (if_pos rfl))))

/-! ### Runs -/

/-- The queue of the lines tells what the controllers do. -/
structure Follows (s : System) (q : Queue) : Prop where
  asked_eq : asked s.pics = q.waiting
  taken_eq : s.taken = q.served.map fun line => 0x20 + BitVec.ofNat 8 line
  known : ∀ line, q.waiting line → line ∈ lines
  harmless : ∀ w ∈ s.todo, Harmless w
  idle : Idle (outbs s.pics s.todo)
  sound : s.faulted = false

theorem lines_ne : ∀ line ∈ lines, line ≠ 2 := by decide

/-- An event keeps the queue right, at whatever place of a handler it happens. -/
theorem Follows.step {H : Handlers} (hplaced : H.Placed) {idt_table : ℕ} {m : Memory} {s : System}
    {q : Queue} (h : Follows s q) {e : Event} (he : ∀ line, e = .raise line → line ∈ lines) :
  Follows (s.step H idt_table (traps_init.table H idt_table m) e) (q.step s.todo.isEmpty e)
  := by
  obtain ⟨hasked, htaken, hknown, hharmless, hidle, hsound⟩ := h
  cases e with
  | raise line =>
      have hline := he line rfl
      refine ⟨?_, htaken, ?_, hharmless, ?_, hsound⟩
      · rw [System.step, Queue.step]
        dsimp only
        rw [asked_raise, hasked]
      · intro n hn
        by_cases heq : n = line
        · rw [heq]
          exact hline
        · exact hknown n ((Function.update_of_ne heq ..).symm.trans hn)
      · rw [System.step]
        dsimp only
        rw [outbs_raise hharmless]
        exact hidle.raise (lines_ne line hline)
  | access =>
      obtain ⟨pics, driver, todo, taken, faulted⟩ := s
      cases todo with
      | nil => exact ⟨hasked, htaken, hknown, hharmless, hidle, hsound⟩
      | cons w todo =>
          refine ⟨?_, htaken, hknown, fun w hw => hharmless w (List.mem_cons_of_mem _ hw), hidle,
            hsound⟩
          exact ((hharmless w List.mem_cons_self).asked_outb pics).trans hasked
  | take scancode =>
      obtain ⟨pics, driver, todo, taken, faulted⟩ := s
      cases todo with
      | cons w todo => exact ⟨hasked, htaken, hknown, hharmless, hidle, hsound⟩
      | nil =>
          change Idle pics at hidle
          dsimp only at hasked htaken hsound
          rw [System.step, Queue.step, if_neg (not_not_intro rfl)]
          dsimp only
          rw [hidle.acknowledge_eq, hasked, List.isEmpty_nil, if_pos rfl]
          cases hnext : order.find? q.waiting with
          | none => exact ⟨hasked, htaken, hknown, hharmless, hidle, hsound⟩
          | some line =>
              have hline := hknown line (List.find?_some hnext)
              obtain ⟨ws, d', hwrites, hends, hlt⟩ :=
                handler_ends hplaced idt_table m driver scancode hline
              dsimp only [Option.map_some]
              rw [hwrites]
              refine ⟨?_, ?_, ?_, hends.harmless, hends.idle hidle hlt, hsound⟩
              · dsimp only
                rw [asked_taken, hasked]
              · dsimp only
                rw [htaken, List.map_append, List.map_singleton]
              · intro n hn
                by_cases heq : n = line
                · rw [heq]
                  exact hline
                · exact hknown n ((Function.update_of_ne heq ..).symm.trans hn)

/-- From `traps_init` on, whenever the devices request interrupts of the lines with handlers, the
interrupts are served as the queue says, no line stays in service behind its handler, and the
processor finds a handler for each vector. -/
theorem interrupts_served {H : Handlers} (hplaced : H.Placed) (idt_table : ℕ) (m : Memory) (p : Pair)
    (d : Keyboard.State) (es : List Event) (hes : ∀ line, .raise line ∈ es → line ∈ lines) :
  let x := es.foldl (fun x e =>
    ((x.1.step H idt_table (traps_init.table H idt_table m) e : System),
      (x.2.step x.1.todo.isEmpty e : Queue))) (System.start p d, ⟨fun _ => false, []⟩)
  x.1.taken = x.2.served.map (fun line => 0x20 + BitVec.ofNat 8 line) ∧
    asked x.1.pics = x.2.waiting ∧ (x.1.todo = [] → Idle x.1.pics) ∧ x.1.faulted = false
  := by
  have hstart : Follows (System.start p d) ⟨fun _ => false, []⟩ := by
    obtain ⟨hidle, hasked⟩ := irq_init_idle p
    exact ⟨hasked, rfl, fun line hline => absurd hline Bool.false_ne_true, List.forall_mem_nil _,
      hidle, rfl⟩
  suffices hrun : ∀ (s : System) (q : Queue), Follows s q →
      let x := es.foldl (fun x e =>
        ((x.1.step H idt_table (traps_init.table H idt_table m) e : System),
          (x.2.step x.1.todo.isEmpty e : Queue))) (s, q)
      Follows x.1 x.2 by
    have h := hrun _ _ hstart
    refine ⟨h.taken_eq, h.asked_eq, ?_, h.sound⟩
    intro htodo
    have hidle := h.idle
    rw [htodo] at hidle
    exact hidle
  induction es with
  | nil => exact fun s q h => h
  | cons e es ih =>
      intro s q h
      apply ih fun line hline => hes line (List.mem_cons_of_mem _ hline)
      apply h.step hplaced
      rintro line rfl
      exact hes line List.mem_cons_self

/-- Handlers in the upper half of the address space. -/
def handlersAt (a : ℕ) : Handlers :=
  ⟨a, a + 0x10, a + 0x20, a + 0x30, a + 0x40, a + 0x50, a + 0x60, a + 0x70, a + 0x80⟩

/-- The disk, the keyboard and the timer, the last of them while the keyboard is served. -/
theorem interrupts_served_three :
  (([.raise 14, .raise 1, .take 0x1E, .raise 0, .access, .take 0, .access, .take 0] : List Event).foldl
    (fun x e => ((x.1.step (handlersAt 0xFFFFFFFF80001000) 0xFFFFFFFF80009000
      (traps_init.table (handlersAt 0xFFFFFFFF80001000) 0xFFFFFFFF80009000 fun _ => 0) e : System),
        (x.2.step x.1.todo.isEmpty e : Queue)))
      (System.start ⟨⟨fun _ => true, fun _ => true, 0xFF, 8, 4, .mask, false⟩,
        ⟨fun _ => true, fun _ => true, 0xFF, 0x70, 2, .mask, false⟩⟩ Keyboard.State.start,
          ⟨fun _ => false, []⟩)).1.faulted = false
  := by
  refine (interrupts_served ⟨by decide, by decide⟩ 0xFFFFFFFF80009000 _ _ _
    [.raise 14, .raise 1, .take 0x1E, .raise 0, .access, .take 0, .access, .take 0] ?_).2.2.2
  intro line hline
  simp only [List.mem_cons, List.not_mem_nil, or_false, Event.raise.injEq, reduceCtorEq,
    false_or] at hline
  rcases hline with rfl | rfl | rfl
  all_goals decide

end Irq
