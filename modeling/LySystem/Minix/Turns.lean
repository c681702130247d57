import LySystem.Machine.Interleave
import LySystem.Minix.Kinds

/-!
# Two tasks in the file system

Nothing keeps a task out of the file system while another one waits for its sector.  Two calls that
take turns come out as one after the other when each sector, and the position of `strtok`, that one
of them writes is used by the two in the same order throughout.
-/

namespace Minix

open CString Program

/-- The disk and the variable `last_pos`, which the tasks share, and their stacks. -/
structure Tasks where
  disk : Disk
  last_pos : Option (List Byte)
  left : ℕ → List Byte
  right : ℕ → List Byte

/-- What the first task sees. -/
def Tasks.atLeft (s : Tasks) : State := ⟨s.disk, s.last_pos, s.left⟩

/-- What the second task sees. -/
def Tasks.atRight (s : Tasks) : State := ⟨s.disk, s.last_pos, s.right⟩

/-- What the first task leaves. -/
def Tasks.putLeft (s : Tasks) (t : State) : Tasks := ⟨t.disk, t.last_pos, t.stack, s.right⟩

/-- What the second task leaves. -/
def Tasks.putRight (s : Tasks) (t : State) : Tasks := ⟨t.disk, t.last_pos, s.left, t.stack⟩

def answerLeft (e : Call) (s : Tasks) : Answer e × Tasks :=
  ((answer e s.atLeft).1, s.putLeft (answer e s.atLeft).2)

def answerRight (e : Call) (s : Tasks) : Answer e × Tasks :=
  ((answer e s.atRight).1, s.putRight (answer e s.atRight).2)

section

variable {α : Type}

theorem run_answerLeft (p : Op α) (s : Tasks) :
  Program.run answerLeft p s = ((run p s.atLeft).1, s.putLeft (run p s.atLeft).2)
  := by
  induction p generalizing s with
  | ret a => rfl
  | call e k ih => exact ih _ _

theorem run_answerRight (p : Op α) (s : Tasks) :
  Program.run answerRight p s = ((run p s.atRight).1, s.putRight (run p s.atRight).2)
  := by
  induction p generalizing s with
  | ret a => rfl
  | call e k ih => exact ih _ _

end

/-! ### Conflicts -/

/-- What the tasks share. -/
inductive Place where
  | sector (lba : ℕ)
  | last_pos
deriving DecidableEq

/-- What a call uses of what is shared. -/
def Call.place : Call → Option Place
  | .read lba => some (.sector lba)
  | .write lba _ => some (.sector lba)
  | .strtok _ => some .last_pos
  | .stack => none

/-- The call changes what it uses. -/
def Call.changes : Call → Bool
  | .read _ => false
  | .write _ _ => true
  | .strtok _ => true
  | .stack => false

/-- Two calls that use the same place, which one of them changes. -/
def Conflict (e f : Call) : Prop :=
  e.place ≠ none ∧ f.place = e.place ∧ (e.changes = true ∨ f.changes = true)

instance (e f : Call) : Decidable (Conflict e f) := inferInstanceAs (Decidable (_ ∧ _ ∧ _))

theorem Conflict.symm {e f : Call} (h : Conflict e f) :
  Conflict f e
  := by
  obtain ⟨hused, hplace, hchanges⟩ := h
  exact ⟨hplace ▸ hused, hplace.symm, hchanges.symm⟩

theorem independent_of_not_conflict {e f : Call} (h : ¬ Conflict e f) :
  Independent answerLeft answerRight e f
  := by
  intro s
  cases e with
  | read lba =>
      cases f with
      | write lba' x =>
          have hne : lba' ≠ lba := by simpa [Conflict, Call.place, Call.changes] using h
          refine ⟨?_, rfl, rfl⟩
          exact Function.update_of_ne hne.symm x s.disk
      | _ => exact ⟨rfl, rfl, rfl⟩
  | write lba x =>
      cases f with
      | read lba' =>
          have hne : lba' ≠ lba := by simpa [Conflict, Call.place, Call.changes] using h
          refine ⟨rfl, ?_, rfl⟩
          exact Function.update_of_ne hne x s.disk
      | write lba' x' =>
          have hne : lba' ≠ lba := by simpa [Conflict, Call.place, Call.changes] using h
          have hcomm : Function.update (Function.update s.disk lba' x') lba x =
              Function.update (Function.update s.disk lba x) lba' x' :=
            Function.update_comm hne _ _ _
          refine ⟨rfl, rfl, ?_⟩
          exact congrArg (fun d : Disk => Tasks.mk d s.last_pos s.left s.right) hcomm
      | _ => exact ⟨rfl, rfl, rfl⟩
  | strtok str =>
      cases f with
      | strtok str' => simp [Conflict, Call.place, Call.changes] at h
      | _ => exact ⟨rfl, rfl, rfl⟩
  | stack =>
      cases f with
      | _ => exact ⟨rfl, rfl, rfl⟩

/-! ### Two calls -/

/-- Two calls that have taken turns, to their end. -/
abbrev Turns := Weave Call ℤ ℤ Tasks

/-- The calls `op` of the first and `op'` of the second task take turns by the schedule `l`. -/
def Interleaved (l : List Side) (op op' : FileOp) (s : Tasks) (w : Turns) : Prop :=
  weave answerLeft answerRight l op.perform op'.perform s = some w

/-- The results and the disk are those of the first call and then the second one. -/
def LeftFirst (op op' : FileOp) (s : Tasks) (w : Turns) : Prop :=
  let r := run op.perform s.atLeft
  let r' := run op'.perform (s.putLeft r.2).atRight
  w.left = r.1 ∧ w.right = r'.1 ∧ w.state.disk = r'.2.disk

/-- The results and the disk are those of the second call and then the first one. -/
def RightFirst (op op' : FileOp) (s : Tasks) (w : Turns) : Prop :=
  let r' := run op'.perform s.atRight
  let r := run op.perform (s.putRight r'.2).atLeft
  w.left = r.1 ∧ w.right = r'.1 ∧ w.state.disk = r.2.disk

/-- No call of the side `y` comes before a call of the side `x` that it conflicts with. -/
def Precedes (x y : Side) (trace : List (Side × Call)) : Prop :=
  trace.Pairwise fun a b => a.1 = y → b.1 = x → ¬ Conflict b.2 a.2

instance (x y : Side) (trace : List (Side × Call)) : Decidable (Precedes x y trace) :=
  inferInstanceAs (Decidable (trace.Pairwise _))

/-- Each task goes on until it has read or written a sector. -/
def AtTransfers (trace : List (Side × Call)) : Prop :=
  trace.IsChain fun a b => a.1 = b.1 ∨ ∃ lba, a.2.place = some (.sector lba)

/-- A call that creates, deletes or writes. -/
def Covered : FileOp → Prop
  | .tree (.CreateFile _) => True
  | .tree (.CreateDir _) => True
  | .tree (.DeleteFile _) => True
  | .WriteFile _ _ _ => True
  | _ => False

/-- Two tasks that see the same disk. -/
def Tasks.ofDisk (d : Disk) : Tasks := ⟨d, none, fun _ => [], fun _ => []⟩

end Minix
