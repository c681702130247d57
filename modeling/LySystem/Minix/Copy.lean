import LySystem.Minix.Leak
import LySystem.Minix.Tree

/-!
# Copying

`minix_CopyFile` of `kernel/fs/minix/file.c`: one buffer of 512 bytes is read, a file created
and the buffer written to it.
-/

namespace Minix

open CString

/-- The source read into a buffer of 512 bytes that holds whatever lay on the stack. -/
def minix_CopyFile.read (source : List Byte) : Op (ℤ × Memory) :=
  do
    let data_buffer ← stack
    minix_ReadFile source (chars data_buffer) 0 512

def minix_CopyFile (source dest : List Byte) : Op ℤ :=
  do
    let (bytes_read, data_buffer) ← minix_CopyFile.read source
    if bytes_read < 0 then return bytes_read
    else
      let res ← minix_CreateFile dest
      if res ≠ ESUCCESS then return res
      else
        let bytes_written ← minix_WriteFile dest data_buffer bytes_read
        if bytes_written ≠ bytes_read then return -1
        else return ESUCCESS

/-! ### Reading and writing -/

theorem readOnly_ReadFile (name : List Byte) (mem : Memory) (output : ℕ) (count : ℤ) :
  ReadOnly (minix_ReadFile name mem output count)
  := by
  apply (readOnly_FindEntry name).bind
  intro n
  apply ReadOnly.ite (ReadOnly.pure _)
  apply (readOnly_GetInode n).bind
  intro inode
  dsimp only
  apply ReadOnly.bind
  · apply ReadOnly.ite
    · apply (readOnly_read_buffer _).bind
      intro buf
      apply ReadOnly.pure
    · apply ReadOnly.pure
  · intro mem
    apply ReadOnly.ite (ReadOnly.pure _) (ReadOnly.pure _)

theorem readOnly_CopyFile_read (source : List Byte) :
  ReadOnly (minix_CopyFile.read source)
  := readOnly_stack.bind fun _ => readOnly_ReadFile _ _ _ _

/-- The bytes read, 512 of a longer file. -/
theorem readResult_fst (size zone : ℕ) (data mem : Memory) (output : ℕ) :
  (readResult size zone data mem output 512).1 = min size 512
  := by
  have hcount : toU32 512 = 512 := rfl
  rw [readResult, hcount]
  by_cases hlt : size < 512
  · have hs : s32 size = size := s32_of_lt (by omega)
    simp only [if_pos hlt, hs]
    split_ifs <;> simp only <;> omega
  · simp only [if_neg hlt]
    split_ifs <;> omega

/-- The sector that `minix_WriteFile` writes. -/
def dataSector (input : Memory) (to_write : ℤ) : Sector :=
  sector (Memory.copy (fun _ => 0) 0 input (toU64 to_write))

/-- What `minix_WriteFile` does to the inode it finds. -/
theorem run_WriteFile_found {name : List Byte} {s : State} {n : ℕ}
    (hn : (run (FindEntry name) s).1 = n) (hzero : n ≠ 0) (input : Memory) (count : ℤ) :
  let t := (run (FindEntry name) s).2
  let buf := contents (s.disk (inodeSector n)) []
  let to_write := if 512 < count then 512 else count
  run (minix_WriteFile name input count) s =
    if zoneOf s.disk n 0 = 0 then
      match freeZone s.disk with
      | none => (-ENOSPC, t)
      | some z =>
          (to_write, { t with
            disk := stored (marked ZONE_BITMAP_LBA s.disk z) n (set_i_zone buf (inodeOffset n) 0 z)
              (dataSector input to_write) to_write })
    else
      (to_write, { t with disk := stored s.disk n buf (dataSector input to_write) to_write })
  := by
  have hdisk := (readOnly_FindEntry name).disk s
  have hfound := run_withZone n (run (FindEntry name) s).2
  dsimp only at hfound ⊢
  rw [run_WriteFile (by rw [hn]; exact hzero), hn]
  dsimp only
  rw [hfound, hdisk]
  by_cases hz : zoneOf s.disk n 0 = 0
  · rw [if_pos hz, if_pos hz]
    cases freeZone s.disk with
    | none => rfl
    | some z => rfl
  · rw [if_neg hz, if_neg hz]
    dsimp only
    rw [hdisk]
    rfl

/-- A write that is refused leaves the disk; otherwise the number of bytes is returned. -/
theorem WriteFile_cases (name : List Byte) (input : Memory) (count : ℤ) (s : State) :
  ((run (minix_WriteFile name input count) s).1 < 0 ∧
      (run (minix_WriteFile name input count) s).2.disk = s.disk) ∨
    (run (minix_WriteFile name input count) s).1 = if 512 < count then 512 else count
  := by
  have hdisk := (readOnly_FindEntry name).disk s
  by_cases hn : (run (FindEntry name) s).1 = 0
  · left
    simp only [minix_WriteFile, run_bind, if_pos hn, run_pure]
    exact ⟨by decide, hdisk⟩
  · rw [run_WriteFile_found rfl hn]
    by_cases hz : zoneOf s.disk (run (FindEntry name) s).1 0 = 0
    · rw [if_pos hz]
      cases freeZone s.disk with
      | none =>
          left
          exact ⟨show -ENOSPC < 0 by decide, hdisk⟩
      | some z =>
          right
          rfl
    · rw [if_neg hz]
      right
      rfl

/-! ### What a creation leaves -/

/-- Setting a bit leaves no byte 0. -/
theorem Bitmap.eq_zero_of_set {m : Memory} {k x : ℕ} (h : Bitmap.set m k x = 0) :
  m x = 0
  := by
  by_cases hx : x = k / 8
  · subst hx
    have hon : Bitmap.test (Bitmap.set m k) k = true := by
      rw [Bitmap.test_set]
      simp
    rw [Bitmap.test, h] at hon
    simp [Bitmap.bitOn] at hon
  · rwa [Bitmap.set_outside m hx] at h

theorem load_two_eq_zero {m : Memory} {a : ℕ} :
  m.load a 2 = 0 ↔ m a = 0 ∧ m (a + 1) = 0
  := by
  have hload : m.load a 2 = (m a).toNat + 256 * ((m (a + 1)).toNat + 256 * 0) := rfl
  have hzero : (0 : Byte).toNat = 0 := rfl
  rw [hload, ← BitVec.toNat_inj, ← BitVec.toNat_inj, hzero]
  omega

/-- The entry of a file is one that was not there before. -/
theorem withEntry_createdFile_ne {d : Disk} {k : ℕ} (hk : freeInode d = some k) (x : ℕ)
    (filename : List Byte) :
  withEntry (createdFile d k) x (k + 1) filename ≠ d
  := by
  obtain ⟨-, hlt, hoff, -⟩ := freeInode_spec hk
  have hbitmap := createdFile_inodeBitmap d k
  intro heq
  rcases withEntry_cases (createdFile d k) x (k + 1) filename with hsame | ⟨i, hi, hfree, hsame⟩
  · apply marked_ne hlt hoff
    rw [← hbitmap, ← hsame, heq]
  · by_cases hx : x = INODE_BITMAP_LBA
    · subst hx
      have hentry : entryOf d INODE_BITMAP_LBA i = k + 1 := by
        conv_lhs => rw [← heq, hsame, entryOf_entered _ _ _ _ _ _ hi]
        rw [if_pos ⟨rfl, rfl⟩]
        omega
      have hzero : entryOf d INODE_BITMAP_LBA i = 0 := by
        rw [entryOf, entryInode, hbitmap, marked, Function.update_self,
          load_contents_sector _ _ (by omega), load_two_eq_zero] at hfree
        rw [entryOf, entryInode, load_two_eq_zero]
        exact ⟨Bitmap.eq_zero_of_set hfree.1, Bitmap.eq_zero_of_set hfree.2⟩
      omega
    · apply marked_ne hlt hoff
      rw [← hbitmap]
      conv_rhs => rw [← heq, hsame, entered, Function.update_of_ne (Ne.symm hx)]

end Minix
