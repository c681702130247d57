import LySystem.Lib.Libc
import LySystem.Machine.Bitmap
import LySystem.Machine.Program

/-!
# The disk under the Minix file system

The functions of `kernel/fs/minix` are programs over four calls: reading and writing a
sector, `strtok`, whose position is shared by all callers, and a look at what happens to lie
behind a buffer on the stack.  Bytes written behind a sector buffer are lost.
-/

namespace Minix

/-- A sector. -/
abbrev Sector := Fin 512 → Byte

/-- A disk: the sector at each address. -/
abbrev Disk := ℕ → Sector

/-- A buffer of 512 bytes that holds a sector, with the bytes behind it. -/
def contents (x : Sector) (behind : List Byte) : Memory :=
  fun i => if h : i < 512 then x ⟨i, h⟩ else behind.getD (i - 512) 0

/-- The 512 bytes of a buffer. -/
def sector (m : Memory) : Sector := fun i => m i

inductive Call where
  | read (lba : ℕ)
  | write (lba : ℕ) (x : Sector)
  | strtok (str : Option (List Byte))
  | stack

/-- What each call returns. -/
def Answer : Call → Type
  | .read _ => Sector
  | .write _ _ => Unit
  | .strtok _ => Option (List Byte)
  | .stack => List Byte

/-- The disk, the variable `last_pos` of `strtok`, and what the calls to `stack` to come will
see. -/
structure State where
  disk : Disk
  last_pos : Option (List Byte)
  stack : ℕ → List Byte

/-- How the calls are answered. -/
def answer : (e : Call) → State → Answer e × State
  | .read lba, s => (s.disk lba, s)
  | .write lba x, s => ((), { s with disk := Function.update s.disk lba x })
  | .strtok str, s =>
      let r := CString.strtok s.last_pos str (CString.ascii "/")
      (r.1, { s with last_pos := r.2 })
  | .stack, s => (s.stack 0, { s with stack := fun i => s.stack (i + 1) })

/-- An operation of the file system. -/
abbrev Op := Program Call Answer

def ide_read_sector (lba : ℕ) : Op Sector := Program.perform (Call.read lba)

def ide_write_sector (lba : ℕ) (x : Sector) : Op Unit := Program.perform (Call.write lba x)

/-- `strtok(str, "/")`. -/
def strtok (str : Option (List Byte)) : Op (Option (List Byte)) := Program.perform (Call.strtok str)

/-- What happens to lie behind a buffer. -/
def stack : Op (List Byte) := Program.perform Call.stack

/-- A sector read into a buffer of which the bytes behind may be looked at. -/
def ide_read_buffer (lba : ℕ) : Op Memory :=
  do
    let x ← ide_read_sector lba
    let behind ← stack
    return contents x behind

/-- The value an operation returns, and the state it ends in. -/
def run {α : Type} (p : Op α) (s : State) : α × State := Program.run answer p s

section

variable {α β : Type} (s : State)

@[simp]
theorem run_pure (a : α) :
  run (pure a) s = (a, s)
  := rfl

@[simp]
theorem run_bind (p : Op α) (f : α → Op β) :
  run (p >>= f) s = run (f (run p s).1) (run p s).2
  := Program.run_bind answer p f s

@[simp]
theorem run_ite (c : Prop) [Decidable c] (p q : Op α) :
  run (if c then p else q) s = if c then run p s else run q s
  := Program.run_ite answer c p q s

@[simp]
theorem run_read (lba : ℕ) :
  run (ide_read_sector lba) s = (s.disk lba, s)
  := rfl

@[simp]
theorem run_write (lba : ℕ) (x : Sector) :
  run (ide_write_sector lba x) s = ((), { s with disk := Function.update s.disk lba x })
  := rfl

@[simp]
theorem run_stack :
  run stack s = (s.stack 0, { s with stack := fun i => s.stack (i + 1) })
  := rfl

@[simp]
theorem run_read_buffer (lba : ℕ) :
  run (ide_read_buffer lba) s =
    (contents (s.disk lba) (s.stack 0), { s with stack := fun i => s.stack (i + 1) })
  := rfl

/-- What a call sees of the stack is what lies further up. -/
theorem run_stack_shift (p : Op α) :
  ∃ m, ∀ j, (run p s).2.stack j = s.stack (j + m)
  := by
  induction p generalizing s with
  | ret a => exact ⟨0, fun _ => rfl⟩
  | call e k ih =>
      obtain ⟨m, hm⟩ := ih (answer e s).1 (answer e s).2
      cases e with
      | stack =>
          use m + 1
          intro j
          exact hm j
      | _ => exact ⟨m, hm⟩

end

/-! ### Buffers -/

theorem contents_lt (x : Sector) (behind : List Byte) {i : ℕ} (h : i < 512) :
  contents x behind i = x ⟨i, h⟩
  := dif_pos h

/-- A number inside the buffer does not depend on what lies behind it. -/
theorem load_contents (x : Sector) (behind behind' : List Byte) {a n : ℕ} (h : a + n ≤ 512) :
  (contents x behind).load a n = (contents x behind').load a n
  := by
  apply Memory.load_congr
  intro i hi
  rw [contents_lt _ _ (by omega), contents_lt _ _ (by omega)]

theorem contents_sector (m : Memory) (behind : List Byte) {i : ℕ} (h : i < 512) :
  contents (sector m) behind i = m i
  := contents_lt _ _ h

theorem load_contents_sector (m : Memory) (behind : List Byte) {a n : ℕ} (h : a + n ≤ 512) :
  (contents (sector m) behind).load a n = m.load a n
  := by
  apply Memory.load_congr
  intro i hi
  apply contents_sector _ _ (by omega)

/-! ### Operations that do not write -/

/-- The operation leaves the disk as it is. -/
def ReadOnly {α : Type} (p : Op α) : Prop :=
  Program.Keeps answer (fun s t => t.disk = s.disk) p

section

variable {α β : Type}

theorem ReadOnly.disk {p : Op α} (h : ReadOnly p) (s : State) :
  (run p s).2.disk = s.disk
  := h s

theorem ReadOnly.pure (a : α) :
  ReadOnly (pure a)
  := fun _ => rfl

theorem ReadOnly.bind {p : Op α} {f : α → Op β} (hp : ReadOnly p) (hf : ∀ a, ReadOnly (f a)) :
  ReadOnly (p >>= f)
  := Program.Keeps.bind (fun _ _ _ h h' => h'.trans h) hp hf

theorem ReadOnly.ite {c : Prop} [Decidable c] {p q : Op α} (hp : ReadOnly p) (hq : ReadOnly q) :
  ReadOnly (if c then p else q)
  := Program.Keeps.ite (fun _ => hp) (fun _ => hq)

theorem readOnly_read_buffer (lba : ℕ) :
  ReadOnly (ide_read_buffer lba)
  := fun _ => rfl

theorem readOnly_strtok (str : Option (List Byte)) :
  ReadOnly (strtok str)
  := fun _ => rfl

theorem readOnly_stack :
  ReadOnly stack
  := fun _ => rfl

end

end Minix
