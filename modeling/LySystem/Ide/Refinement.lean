import LySystem.Fs.Sectors
import LySystem.Ide.Transfers

/-!
# The file system over the driver

Every call of the file system runs over the ports of the drive as it runs over a disk whose sectors
are read and written at once: it returns the same, and leaves the same disk.
-/

namespace Ide

open Minix

/-- The machine, the memory in which the buffer of the call under way lies, at address 0, and the
rest of what the file system looks at. -/
structure State where
  machine : Machine
  memory : Memory
  last_pos : Option (List Byte)
  stack : ℕ → List Byte

/-- How the calls are answered by the driver. -/
def answer (n : ℕ) : (e : Call) → State → Option (Answer e × State)
  | .read lba, s =>
      (ide_read_sector n s.machine s.memory lba 0).map fun r =>
        (sector r.1, { s with machine := r.2, memory := r.1 })
  | .write lba x, s =>
      let memory := s.memory.copy 0 (contents x []) 512
      (ide_write_sector n s.machine memory lba 0).map fun w =>
        ((), { s with machine := w, memory := memory })
  | .strtok str, s =>
      let r := CString.strtok s.last_pos str (CString.ascii "/")
      some (r.1, { s with last_pos := r.2 })
  | .stack, s => some (s.stack 0, { s with stack := fun i => s.stack (i + 1) })

/-- The drive holds the disk and is in no transfer; it is never busy for more than `k` accesses. -/
structure Holds (k : ℕ∞) (s : State) (t : Minix.State) : Prop where
  ready : Ready s.machine
  prompt : Prompt k s.machine.drive
  disk : s.machine.drive.disk = t.disk
  last_pos : s.last_pos = t.last_pos
  stack : s.stack = t.stack

/-- The driver answers as the disk does. -/
theorem answer_simulates {k : ℕ∞} {n : ℕ} (hn : k + 2 ≤ n) :
  Program.Simulates (answer n) Minix.answer Vfs.Addressable (Holds k)
  := by
  constructor
  intro e s t he hst
  cases e with
  | read lba =>
      obtain ⟨m, w, hread⟩ := ide_read_sector_returns s.memory lba 0 hst.ready hst.prompt hn
      obtain ⟨hmem, hquiet, hdisk⟩ := ide_read_sector_spec hread hst.ready
      rw [Nat.mod_eq_of_lt he, hst.disk] at hmem
      have hsector : sector m = t.disk lba := by
        funext i
        rw [hmem, sector, Memory.copy, Memory.splice, if_pos ⟨Nat.zero_le _, by omega⟩,
          Ata.Block.bytes, dif_pos (by omega)]
        rfl
      use { s with machine := w, memory := m }
      constructor
      · simp only [answer, hread, Option.map_some, hsector]
        rfl
      · exact ⟨hquiet.ready, hst.prompt.read_sector hread, hdisk.trans hst.disk, hst.last_pos,
          hst.stack⟩
  | write lba x =>
      obtain ⟨w, hwrite⟩ := ide_write_sector_returns (s.memory.copy 0 (contents x []) 512) lba 0
        hst.prompt hn
      obtain ⟨hready, hdisk⟩ := ide_write_sector_spec hwrite hst.ready
      have hblock : (fun i : Fin 512 => s.memory.copy 0 (contents x []) 512 (0 + i)) = x := by
        funext i
        rw [Memory.copy, Memory.splice_inside _ _ i.isLt, contents_lt _ _ i.isLt]
      rw [Nat.mod_eq_of_lt he, hst.disk, hblock] at hdisk
      use { s with machine := w, memory := s.memory.copy 0 (contents x []) 512 }
      constructor
      · simp only [answer, hwrite, Option.map_some]
        rfl
      · exact ⟨hready, hst.prompt.write_sector hwrite, hdisk, hst.last_pos, hst.stack⟩
  | strtok str =>
      use { s with last_pos := (CString.strtok t.last_pos str (CString.ascii "/")).2 }
      constructor
      · simp only [answer, hst.last_pos]
        rfl
      · exact ⟨hst.ready, hst.prompt, hst.disk, rfl, hst.stack⟩
  | stack =>
      use { s with stack := fun i => t.stack (i + 1) }
      constructor
      · simp only [answer, hst.stack]
        rfl
      · exact ⟨hst.ready, hst.prompt, hst.disk, hst.last_pos, rfl⟩

/-- A drive whose commands take one access more each time, up to three. -/
def slowDrive (d : Disk) : Ata.Drive :=
  ⟨d, true, 0, 0, 0, 0, 0, .working, false, 2, fun i => i % 3⟩

end Ide
