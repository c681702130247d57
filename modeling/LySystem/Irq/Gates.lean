import LySystem.Machine.Bytes
import Mathlib.Data.List.Induction
import Mathlib.Tactic.IntervalCases

/-!
# The gates

`set_idt_gate` of `kernel/IRQ/traps.c`, and the gates the processor finds in the table.  The table
keeps the last gate set for each vector.
-/

namespace Irq

open Memory

/-- The members of `struct idt_entry_t`, by their offsets. -/
def set_idt_gate (idt_table : ℕ) (m : Memory) (vector handler dpl : ℕ) : Memory :=
  let entry := idt_table + 16 * vector
  let m := m.store entry 2 (u16 (handler &&& 0xFFFF))
  let m := m.store (entry + 2) 2 0x08
  let m := m.store (entry + 4) 1 0
  let m := m.store (entry + 5) 1 (0x8E ||| ((dpl &&& 0x3) <<< 5))
  let m := m.store (entry + 6) 2 (u16 ((handler >>> 16) &&& 0xFFFF))
  let m := m.store (entry + 8) 4 (u32 ((handler >>> 32) &&& 0xFFFFFFFF))
  m.store (entry + 12) 4 0

/-- An interrupt gate. -/
structure Gate where
  offset : ℕ
  selector : ℕ
  ist : ℕ
  dpl : ℕ
deriving DecidableEq

/-- The gate for a vector, if it is present and one of an interrupt. -/
def gate (idt_table : ℕ) (m : Memory) (vector : ℕ) : Option Gate :=
  let entry := idt_table + 16 * vector
  let attributes := m.load (entry + 5) 1
  if attributes / 128 = 1 ∧ attributes % 32 = 0x0E then
    some ⟨m.load entry 2 + m.load (entry + 6) 2 * 2 ^ 16 + m.load (entry + 8) 4 * 2 ^ 32,
      m.load (entry + 2) 2, m.load (entry + 4) 1 % 8, attributes / 32 % 4⟩
  else none

variable {idt_table vector vector' handler dpl : ℕ} {m : Memory}

/-- Nothing outside the entry changes. -/
theorem set_idt_gate_outside {a n : ℕ}
    (h : a + n ≤ idt_table + 16 * vector ∨ idt_table + 16 * vector + 16 ≤ a) :
  (set_idt_gate idt_table m vector handler dpl).load a n = m.load a n
  := by
  rw [set_idt_gate]
  simp (disch := omega) only [load_store_disjoint]

theorem gate_set_ne (h : vector' ≠ vector) :
  gate idt_table (set_idt_gate idt_table m vector handler dpl) vector' = gate idt_table m vector'
  := by
  rw [gate, gate]
  simp (disch := omega) only [set_idt_gate_outside]

theorem attributes_eq (dpl : ℕ) :
  (0x8E ||| ((dpl &&& 0x3) <<< 5)) = 0x8E + dpl % 4 * 32
  := by
  rw [show dpl &&& 0x3 = dpl % 4 from Nat.and_two_pow_sub_one_eq_mod dpl 2]
  have hlt := Nat.mod_lt dpl (show 0 < 4 by decide)
  interval_cases dpl % 4
  all_goals decide

/-- The gate that is found is the one that was set. -/
theorem gate_set (hhandler : handler < 2 ^ 64) :
  gate idt_table (set_idt_gate idt_table m vector handler dpl) vector =
    some ⟨handler, 0x08, 0, dpl % 4⟩
  := by
  have hlow : handler &&& 0xFFFF = handler % 2 ^ 16 := Nat.and_two_pow_sub_one_eq_mod _ 16
  have hmid : (handler >>> 16) &&& 0xFFFF = handler / 2 ^ 16 % 2 ^ 16 := by
    rw [Nat.shiftRight_eq_div_pow]
    exact Nat.and_two_pow_sub_one_eq_mod _ 16
  have hhigh : (handler >>> 32) &&& 0xFFFFFFFF = handler / 2 ^ 32 % 2 ^ 32 := by
    rw [Nat.shiftRight_eq_div_pow]
    exact Nat.and_two_pow_sub_one_eq_mod _ 32
  rw [gate, set_idt_gate, attributes_eq, hlow, hmid, hhigh]
  simp (disch := omega) only [load_store, load_store_disjoint, u16, u32]
  rw [if_pos (by omega), Option.some.injEq, Gate.mk.injEq]
  omega

/-! ### Any gates -/

/-- A call of `set_idt_gate`. -/
structure Call where
  vector : ℕ
  handler : ℕ
  dpl : ℕ

def Call.run (idt_table : ℕ) (m : Memory) (c : Call) : Memory :=
  set_idt_gate idt_table m c.vector c.handler c.dpl

/-- After any calls the processor finds the gate of the last call for each vector, and those of the
vectors without a call as before. -/
theorem gate_last_set (cs : List Call) (hhandler : ∀ c ∈ cs, c.handler < 2 ^ 64) (m : Memory)
    (v : ℕ) :
  gate idt_table (cs.foldl (Call.run idt_table) m) v =
    match cs.reverse.find? fun c => c.vector == v with
    | some c => some ⟨c.handler, 0x08, 0, c.dpl % 4⟩
    | none => gate idt_table m v
  := by
  induction cs using List.reverseRecOn with
  | nil => rfl
  | append_singleton cs c ih =>
      rw [List.foldl_append, List.foldl_cons, List.foldl_nil, Call.run, List.reverse_append,
        List.reverse_singleton, List.singleton_append, List.find?_cons]
      by_cases hv : c.vector = v
      · subst hv
        rw [gate_set (hhandler c (by simp)), beq_self_eq_true]
      · rw [gate_set_ne (Ne.symm hv), beq_eq_false_iff_ne.mpr hv]
        exact ih fun c' hc' => hhandler c' (List.mem_append_left _ hc')

end Irq
