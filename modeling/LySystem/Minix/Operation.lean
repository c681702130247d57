import LySystem.Machine.Transition
import LySystem.Minix.Lookup

/-!
# What creations and deletions do

Each of the four operations that change the tree looks its path up first and writes then.
Here the two halves are told apart: a lookup, which is refused or says where to write, and
what is written there.
-/

namespace Minix

open CString

/-- A call that changes the tree. -/
inductive TreeOp where
  | CreateFile (name : List Byte)
  | CreateDir (name : List Byte)
  | DeleteFile (name : List Byte)
  | DeleteDir (name : List Byte)

def TreeOp.perform : TreeOp → Op ℤ
  | .CreateFile name => minix_CreateFile name
  | .CreateDir name => minix_CreateDir name
  | .DeleteFile name => minix_DeleteFile name
  | .DeleteDir name => minix_DeleteDir name

/-! ### The lookups -/

/-- What a creation looks up: the directory and the file name. -/
def lookupNew (name : List Byte) : Op (Except ℤ (ℕ × List Byte)) :=
  do
    if (← FindEntry name) ≠ 0 then return .error (-EEXIST)
    else
      let (dir_sector, filename) ← findDirectory name
      if dir_sector = 0 then return .error (-ENOENT)
      else return .ok (dir_sector, filename)

/-- What `minix_DeleteFile` looks up: the directory and the entry. -/
def lookupFile (name : List Byte) : Op (Except ℤ (ℕ × ℕ)) :=
  do
    let (dir_sector, filename) ← findDirectory name
    if dir_sector = 0 then return .error (-ENOENT)
    else if strcmp (chars filename) (ascii ".") = 0 ∨ strcmp (chars filename) (ascii "..") = 0 then
      return .error (-EACCES)
    else
      let buf ← ide_read_buffer dir_sector
      match findName buf filename with
      | none => return .error (-ENOENT)
      | some entry_index => return .ok (dir_sector, entry_index)

/-- What `minix_DeleteDir` looks up: the directory that holds the entry, and the inode. -/
def lookupDir (name : List Byte) : Op (Except ℤ (ℕ × ℕ)) :=
  do
    let (dir_sector, filename) ← findDirectory name
    if dir_sector = 0 then return .error (-ENOENT)
    else if strcmp (chars filename) (ascii ".") = 0 ∨ strcmp (chars filename) (ascii "..") = 0 then
      return .error (-EPERM)
    else
      let inode_no ← FindEntry name
      if inode_no = 0 then return .error (-ENOENT)
      else
        let inode ← minix_GetInode inode_no
        if !isDirMode (i_mode inode.fields 0) then return .error (-ENOTDIR)
        else if 64 < i_size inode.fields 0 then return .error (-EPERM)
        else return .ok (dir_sector, inode_no)

theorem readOnly_lookupNew (name : List Byte) :
  ReadOnly (lookupNew name)
  := by
  apply (readOnly_FindEntry name).bind
  intro n
  apply ReadOnly.ite (ReadOnly.pure _)
  apply (readOnly_findDirectory name).bind
  rintro ⟨dir_sector, filename⟩
  apply ReadOnly.ite (ReadOnly.pure _) (ReadOnly.pure _)

theorem readOnly_lookupFile (name : List Byte) :
  ReadOnly (lookupFile name)
  := by
  apply (readOnly_findDirectory name).bind
  rintro ⟨dir_sector, filename⟩
  apply ReadOnly.ite (ReadOnly.pure _)
  apply ReadOnly.ite (ReadOnly.pure _)
  apply (readOnly_read_buffer _).bind
  intro buf
  cases findName buf filename with
  | none => apply ReadOnly.pure
  | some i => apply ReadOnly.pure

theorem readOnly_lookupDir (name : List Byte) :
  ReadOnly (lookupDir name)
  := by
  apply (readOnly_findDirectory name).bind
  rintro ⟨dir_sector, filename⟩
  apply ReadOnly.ite (ReadOnly.pure _)
  apply ReadOnly.ite (ReadOnly.pure _)
  apply (readOnly_FindEntry name).bind
  intro n
  apply ReadOnly.ite (ReadOnly.pure _)
  apply (readOnly_GetInode n).bind
  intro inode
  apply ReadOnly.ite (ReadOnly.pure _)
  apply ReadOnly.ite (ReadOnly.pure _) (ReadOnly.pure _)

/-! ### What the lookups find -/

/-- The path leads nowhere, but its directory is there. -/
theorem lookupNew_spec {name filename : List Byte} {s : State} {dir_sector : ℕ}
    (h : (run (lookupNew name) s).1 = .ok (dir_sector, filename)) :
  (run (FindEntry name) s).1 = 0 ∧
    (run (findDirectory name) (run (FindEntry name) s).2).1 = (dir_sector, filename) ∧
    dir_sector ≠ 0
  := by
  rw [lookupNew, run_bind] at h
  by_cases hexists : (run (FindEntry name) s).1 = 0
  · rw [if_neg (fun hne => hne hexists), run_bind] at h
    generalize run (findDirectory name) (run (FindEntry name) s).2 = found at h ⊢
    by_cases hroot : found.1.1 = 0
    · simp only [if_pos hroot] at h
      cases h
    · simp only [if_neg hroot] at h
      cases h
      exact ⟨hexists, rfl, hroot⟩
  · rw [if_pos hexists] at h
    cases h

theorem lookupNew_ok {name filename : List Byte} {s : State} {dir_sector : ℕ}
    (h : (run (lookupNew name) s).1 = .ok (dir_sector, filename)) :
  LiveDir s.disk dir_sector ∧ dir_sector ≠ 0
  := by
  obtain ⟨-, hdirectory, hne⟩ := lookupNew_spec h
  have hdisk := (readOnly_FindEntry name).disk s
  have hsector := congrArg Prod.fst hdirectory
  simp only at hsector
  have hlive := findDirectory_live (hsector ▸ hne)
  rw [hdisk, hsector] at hlive
  exact ⟨hlive, hne⟩

/-- The entry found is in use, and neither `.` nor `..`. -/
theorem lookupFile_ok {name : List Byte} {s : State} {dir_sector i : ℕ}
    (h : (run (lookupFile name) s).1 = .ok (dir_sector, i)) :
  (LiveDir s.disk dir_sector ∧ dir_sector ≠ 0) ∧ i < 16 ∧ entryOf s.disk dir_sector i ≠ 0 ∧
    ¬ IsDots s.disk dir_sector i
  := by
  rw [lookupFile, run_bind] at h
  have hdisk := (readOnly_findDirectory name).disk s
  have hlive : (run (findDirectory name) s).1.1 ≠ 0 →
      LiveDir s.disk (run (findDirectory name) s).1.1 := findDirectory_live
  generalize run (findDirectory name) s = found at h hdisk hlive
  by_cases hroot : found.1.1 = 0
  · simp only [if_pos hroot] at h
    cases h
  · by_cases hdots : strcmp (chars found.1.2) (ascii ".") = 0 ∨
        strcmp (chars found.1.2) (ascii "..") = 0
    · simp only [if_neg hroot, if_pos hdots] at h
      cases h
    · simp only [if_neg hroot, if_neg hdots, run_bind, run_read_buffer, hdisk] at h
      cases hfound : findName (contents (s.disk found.1.1) (found.2.stack 0)) found.1.2 with
      | none =>
          rw [hfound] at h
          cases h
      | some j =>
          rw [hfound] at h
          cases h
          obtain ⟨hi, hused, hname⟩ := findName_eq_some hfound
          rw [entryInode_contents _ _ hi] at hused
          exact ⟨⟨hlive hroot, hroot⟩, hi, hused, not_isDots hi hname hdots⟩

/-- The errors are negative. -/
theorem lookupDir_error {name : List Byte} {s : State} {e : ℤ}
    (h : (run (lookupDir name) s).1 = .error e) :
  e < 0
  := by
  rw [lookupDir, run_bind] at h
  by_cases hroot : (run (findDirectory name) s).1.1 = 0
  · simp only [if_pos hroot] at h
    cases h
    decide
  · by_cases hdots : strcmp (chars (run (findDirectory name) s).1.2) (ascii ".") = 0 ∨
        strcmp (chars (run (findDirectory name) s).1.2) (ascii "..") = 0
    · simp only [if_neg hroot, if_pos hdots] at h
      cases h
      decide
    · simp only [if_neg hroot, if_neg hdots, run_bind, run_ite, run_pure] at h
      split_ifs at h
      all_goals
        cases h
        try decide

/-- The inode `minix_DeleteDir` finds. -/
def foundDir (name : List Byte) (s : State) : ℕ :=
  (run (FindEntry name) (run (findDirectory name) s).2).1

/-- The inode found is that of a directory not larger than an empty one, and is named by an
entry that is neither `.` nor `..`. -/
theorem lookupDir_ok {name : List Byte} {s : State} {dir_sector n : ℕ}
    (h : (run (lookupDir name) s).1 = .ok (dir_sector, n)) :
  (LiveDir s.disk dir_sector ∧ dir_sector ≠ 0) ∧ n = foundDir name s ∧ n ≠ 0 ∧ IsDir s.disk n ∧
    sizeOf s.disk n ≤ 64 ∧
    ∃ x i, LiveDir s.disk x ∧ i < 16 ∧ entryOf s.disk x i = n ∧ ¬ IsDots s.disk x i
  := by
  rw [lookupDir, run_bind] at h
  have hdisk := (readOnly_findDirectory name).disk s
  have hdisk' := (readOnly_FindEntry name).disk (run (findDirectory name) s).2
  by_cases hroot : (run (findDirectory name) s).1.1 = 0
  · simp only [if_pos hroot] at h
    cases h
  · by_cases hdots : strcmp (chars (run (findDirectory name) s).1.2) (ascii ".") = 0 ∨
        strcmp (chars (run (findDirectory name) s).1.2) (ascii "..") = 0
    · simp only [if_neg hroot, if_pos hdots] at h
      cases h
    · simp only [if_neg hroot, if_neg hdots, run_bind] at h
      by_cases hn : (run (FindEntry name) (run (findDirectory name) s).2).1 = 0
      · simp only [if_pos hn] at h
        cases h
      · simp only [if_neg hn, run_bind, run_GetInode, hdisk', hdisk, i_mode_record _ hn,
          i_size_record _ hn] at h
        rw [← foundDir] at hn h
        by_cases hdir : isDirMode (modeOf s.disk (foundDir name s)) = true
        · simp only [hdir, Bool.not_true, Bool.false_eq_true, if_false] at h
          by_cases hsize : 64 < sizeOf s.disk (foundDir name s)
          · simp only [if_pos hsize] at h
            cases h
          · have hlive := findDirectory_live hroot
            generalize (run (findDirectory name) s).1.1 = sector at h hroot hlive
            simp only [if_neg hsize] at h
            cases h
            refine ⟨⟨hlive, hroot⟩, rfl, hn, hdir, by omega, ?_⟩
            obtain ⟨-, hlive, i, hi, hentry, behind, hname⟩ := FindEntry_found hn
            rw [hdisk] at hlive hentry hname
            refine ⟨_, i, hlive, hi, hentry, not_isDots hi hname ?_⟩
            have hsame : ∀ l : List Byte, l.length < 30 →
                strcmp (chars (run (findDirectory name) (run (findDirectory name) s).2).1.2) l =
                  strcmp (chars (run (findDirectory name) s).1.2) l :=
              fun l hl => strcmp_findDirectory name _ _ hl
            rwa [hsame (ascii ".") (by decide), hsame (ascii "..") (by decide)]
        · simp only [hdir, Bool.not_false, if_true] at h
          cases h

/-! ### What is written -/

/-- A file created in a directory. -/
def writeFile (dir_sector : ℕ) (filename : List Byte) : Op ℤ :=
  do
    let new_inode_no ← minix_AllocateInode
    if new_inode_no = 0 then return -ENOSPC
    else
      minix_CreateFile.clearInode new_inode_no
      addEntry dir_sector new_inode_no filename

/-- A directory created in a directory. -/
def writeDir (dir_sector : ℕ) (filename : List Byte) : Op ℤ :=
  do
    let new_inode_no ← minix_AllocateInode
    if new_inode_no ≤ 2 then return -ENOSPC
    else
      match ← takeBit ZONE_BITMAP_LBA fun _ => true with
      | none => return -ENOSPC
      | some new_zone =>
          minix_CreateDir.clearInode new_inode_no new_zone
          let x ← ide_read_sector dir_sector
          let parent_inode := entryInode (contents x []) 0
          ide_write_sector (new_zone * 2)
            (sector (minix_CreateDir.dirData new_inode_no parent_inode))
          addEntry dir_sector new_inode_no filename

/-- The file of an entry deleted. -/
def eraseFile (dir_sector entry_index target_inode : ℕ) : Op ℤ :=
  do
    minix_DeleteFile.clearInode target_inode
    clearInodeBit target_inode
    removeEntry dir_sector entry_index
    return ESUCCESS

/-- A directory deleted. -/
def eraseDir (dir_sector inode_no zone : ℕ) : Op ℤ :=
  do
    FreeZone zone
    minix_DeleteDir.clearInode inode_no
    clearInodeBit inode_no
    let x ← ide_read_sector dir_sector
    match findInode (contents x []) fun inode => inode = inode_no with
    | some i => ide_write_sector dir_sector (sector (clearEntry (contents x []) i))
    | none => pure ()
    return ESUCCESS

theorem run_CreateFile (name : List Byte) (s : State) :
  run (minix_CreateFile name) s =
    match (run (lookupNew name) s).1 with
    | .error e => (e, (run (lookupNew name) s).2)
    | .ok (dir_sector, filename) => run (writeFile dir_sector filename) (run (lookupNew name) s).2
  := by
  rw [minix_CreateFile, lookupNew, run_bind, run_bind]
  by_cases hexists : (run (FindEntry name) s).1 ≠ 0
  · rw [if_pos hexists, if_pos hexists, run_pure, run_pure]
  · rw [if_neg hexists, if_neg hexists, run_bind, run_bind]
    by_cases hroot : (run (findDirectory name) (run (FindEntry name) s).2).1.1 = 0
    · simp only [if_pos hroot, run_pure]
    · simp only [if_neg hroot, run_pure]
      rfl

theorem run_CreateDir (name : List Byte) (s : State) :
  run (minix_CreateDir name) s =
    match (run (lookupNew name) s).1 with
    | .error e => (e, (run (lookupNew name) s).2)
    | .ok (dir_sector, filename) => run (writeDir dir_sector filename) (run (lookupNew name) s).2
  := by
  rw [minix_CreateDir, lookupNew, run_bind, run_bind]
  by_cases hexists : (run (FindEntry name) s).1 ≠ 0
  · rw [if_pos hexists, if_pos hexists, run_pure, run_pure]
  · rw [if_neg hexists, if_neg hexists, run_bind, run_bind]
    by_cases hroot : (run (findDirectory name) (run (FindEntry name) s).2).1.1 = 0
    · simp only [if_pos hroot, run_pure]
    · simp only [if_neg hroot, run_pure]
      rfl

theorem run_DeleteFile (name : List Byte) (s : State) :
  run (minix_DeleteFile name) s =
    match (run (lookupFile name) s).1 with
    | .error e => (e, (run (lookupFile name) s).2)
    | .ok (dir_sector, i) =>
        run (eraseFile dir_sector i (entryOf s.disk dir_sector i)) (run (lookupFile name) s).2
  := by
  have hdisk := (readOnly_findDirectory name).disk s
  rw [minix_DeleteFile, lookupFile, run_bind, run_bind]
  by_cases hroot : (run (findDirectory name) s).1.1 = 0
  · simp only [if_pos hroot, run_pure]
  · simp only [if_neg hroot]
    by_cases hdots : strcmp (chars (run (findDirectory name) s).1.2) (ascii ".") = 0 ∨
        strcmp (chars (run (findDirectory name) s).1.2) (ascii "..") = 0
    · simp only [if_pos hdots, run_pure]
    · simp only [if_neg hdots, run_bind, run_read_buffer, hdisk]
      cases hfound : findName (contents (s.disk (run (findDirectory name) s).1.1)
          ((run (findDirectory name) s).2.stack 0)) (run (findDirectory name) s).1.2 with
      | none => rfl
      | some i =>
          obtain ⟨hi, -⟩ := findName_eq_some hfound
          simp only [run_pure, entryOf, entryInode_contents _ _ hi]
          rfl

theorem run_DeleteDir (name : List Byte) (s : State) :
  run (minix_DeleteDir name) s =
    match (run (lookupDir name) s).1 with
    | .error e => (e, (run (lookupDir name) s).2)
    | .ok (dir_sector, n) =>
        run (eraseDir dir_sector n (zoneOf s.disk n 0)) (run (lookupDir name) s).2
  := by
  have hdisk := (readOnly_findDirectory name).disk s
  have hdisk' := (readOnly_FindEntry name).disk (run (findDirectory name) s).2
  rw [minix_DeleteDir, lookupDir, run_bind, run_bind]
  by_cases hroot : (run (findDirectory name) s).1.1 = 0
  · simp only [if_pos hroot, run_pure]
  · simp only [if_neg hroot]
    by_cases hdots : strcmp (chars (run (findDirectory name) s).1.2) (ascii ".") = 0 ∨
        strcmp (chars (run (findDirectory name) s).1.2) (ascii "..") = 0
    · simp only [if_pos hdots, run_pure]
    · simp only [if_neg hdots, run_bind]
      by_cases hn : (run (FindEntry name) (run (findDirectory name) s).2).1 = 0
      · simp only [if_pos hn, run_pure]
      · simp only [if_neg hn, run_bind, run_GetInode, hdisk', hdisk, i_mode_record _ hn,
          i_size_record _ hn, i_zone_record _ hn]
        by_cases hdir : isDirMode
            (modeOf s.disk (run (FindEntry name) (run (findDirectory name) s).2).1) = true
        · simp only [hdir, Bool.not_true, Bool.false_eq_true, if_false]
          by_cases hsize :
              64 < sizeOf s.disk (run (FindEntry name) (run (findDirectory name) s).2).1
          · simp only [if_pos hsize, run_pure]
          · simp only [if_neg hsize, run_pure]
            rfl
        · simp only [hdir, Bool.not_false, if_true, run_pure]

/-! ### Entries -/

/-- Filling in an entry changes the 32 bytes of the entry. -/
theorem setEntry_outside (buf : Memory) {i x : ℕ} (n : ℕ) (name : List Byte)
    (h : x < 32 * i ∨ 32 * i + 32 ≤ x) :
  setEntry buf i n name x = buf x
  := by
  rw [setEntry, Memory.copy, Memory.splice_outside _ _ (by omega)]
  apply Memory.store_outside
  omega

/-- Clearing an entry changes the 32 bytes of the entry. -/
theorem clearEntry_outside (buf : Memory) {i x : ℕ} (h : x < 32 * i ∨ 32 * i + 32 ≤ x) :
  clearEntry buf i x = buf x
  := by
  rw [clearEntry, Memory.fill, Memory.splice_outside _ _ (by omega)]
  apply Memory.store_outside
  omega

/-- The name filled in does not depend on what was there before. -/
theorem strcmp_setEntry (buf : Memory) (i n : ℕ) (filename : List Byte) {name : List Byte}
    (h : name.length < 30) :
  strcmp (entryName (setEntry buf i n filename) i) name =
    strcmp (strncpy (fun _ => 0) (chars filename) 30) name
  := by
  apply strcmp_congr (Or.inl h)
  intro k hk
  rw [entryName, Memory.drop, setEntry, Memory.copy, Memory.splice_inside _ _ hk]
  simp only [strncpy, Memory.fill, Memory.copy, Memory.splice]
  have hle : copied (chars filename) 30 ≤ 30 := copied_le _ _
  split_ifs <;> first | rfl | omega

/-- The name of an entry in a sector. -/
theorem strcmp_sector (m : Memory) {i : ℕ} (hi : i < 16) {name : List Byte}
    (h : name.length < 30) :
  strcmp (entryName (contents (sector m) []) i) name = strcmp (entryName m i) name
  := by
  apply strcmp_congr (Or.inl h)
  intro k hk
  apply contents_sector
  omega

theorem entryInode_setEntry (buf : Memory) (i j n : ℕ) (name : List Byte) :
  entryInode (setEntry buf i n name) j = if j = i then n % 2 ^ 16 else entryInode buf j
  := by
  split_ifs with h
  · subst h
    rw [entryInode, setEntry, Memory.copy, Memory.load_splice_disjoint _ _ (by omega),
      Memory.load_store]
    norm_num
  · apply Memory.load_congr
    intro x hx
    apply setEntry_outside
    omega

theorem entryInode_clearEntry (buf : Memory) (i j : ℕ) :
  entryInode (clearEntry buf i) j = if j = i then 0 else entryInode buf j
  := by
  split_ifs with h
  · subst h
    rw [entryInode, clearEntry, Memory.fill, Memory.load_splice_disjoint _ _ (by omega),
      Memory.load_store]
    rfl
  · apply Memory.load_congr
    intro x hx
    apply clearEntry_outside
    omega

/-! ### The disk afterwards -/

/-- The first inode, less one, that is not in use. -/
def freeInode (d : Disk) : Option ℕ :=
  Bitmap.firstClear (contents (d INODE_BITMAP_LBA) []) (fun k => !decide (k + 1 ≤ 2)) 512

/-- The first zone that is not in use. -/
def freeZone (d : Disk) : Option ℕ :=
  Bitmap.firstClear (contents (d ZONE_BITMAP_LBA) []) (fun _ => true) 512

/-- The first free entry of a directory. -/
def freeEntry (d : Disk) (dir_sector : ℕ) : Option ℕ :=
  findInode (contents (d dir_sector) []) fun inode => inode = 0

/-- The bit `k` of a bitmap set. -/
def marked (lba : ℕ) (d : Disk) (k : ℕ) : Disk :=
  Function.update d lba (sector (Bitmap.set (contents (d lba) []) k))

/-- The bit `n` of the inode bitmap cleared. -/
def unmarked (d : Disk) (n : ℕ) : Disk :=
  Function.update d INODE_BITMAP_LBA
    (sector (Bitmap.clear (contents (d INODE_BITMAP_LBA) []) n))

/-- The disk of a new file with the inode `k + 1`, before it has an entry. -/
def createdFile (d : Disk) (k : ℕ) : Disk :=
  recorded (marked INODE_BITMAP_LBA d k) (k + 1) Site.CreateFile.record

/-- The disk of a new directory with the inode `k + 1` and the zone `z`, before it has an entry
in its parent. -/
def createdDir (d : Disk) (k z dir_sector : ℕ) : Disk :=
  let d := recorded (marked ZONE_BITMAP_LBA (marked INODE_BITMAP_LBA d k) z) (k + 1)
    (Site.CreateDir z).record
  Function.update d (z * 2) (sector (minix_CreateDir.dirData (k + 1) (entryOf d dir_sector 0)))

/-- An entry of a directory filled in. -/
def entered (d : Disk) (dir_sector n : ℕ) (filename : List Byte) (i : ℕ) : Disk :=
  Function.update d dir_sector (sector (setEntry (contents (d dir_sector) []) i n filename))

/-- An entry of a directory cleared. -/
def removed (d : Disk) (dir_sector i : ℕ) : Disk :=
  Function.update d dir_sector (sector (clearEntry (contents (d dir_sector) []) i))

/-- An entry added to a directory, when there is a free one. -/
def withEntry (d : Disk) (dir_sector n : ℕ) (filename : List Byte) : Disk :=
  match freeEntry d dir_sector with
  | none => d
  | some i => entered d dir_sector n filename i

/-- The first entry of a directory that names the inode `n` cleared, when there is one. -/
def withoutInode (d : Disk) (dir_sector n : ℕ) : Disk :=
  match findInode (contents (d dir_sector) []) fun inode => inode = n with
  | none => d
  | some i => removed d dir_sector i

section

variable (s : State) (dir_sector n : ℕ) (filename : List Byte)

theorem freeInode_spec {d : Disk} {k : ℕ} (h : freeInode d = some k) :
  2 ≤ k ∧ k < 4096 ∧ Bitmap.test (contents (d INODE_BITMAP_LBA) []) k = false ∧
    ∀ j < k, 2 ≤ j → Bitmap.test (contents (d INODE_BITMAP_LBA) []) j = true
  := by
  obtain ⟨hlt, hclear, hok, hbefore⟩ := Bitmap.firstClear_eq_some h
  simp only [Bool.not_eq_true', decide_eq_false_iff_not] at hok hbefore
  refine ⟨by omega, by omega, hclear, ?_⟩
  intro j hj hlo
  apply hbefore j hj
  omega

/-- Taking an inode leaves the zones as they are. -/
theorem freeZone_marked (d : Disk) (k : ℕ) :
  freeZone (marked INODE_BITMAP_LBA d k) = freeZone d
  := by
  rw [freeZone, marked, Function.update_of_ne (by decide), freeZone]

theorem run_AllocateInode :
  run minix_AllocateInode s =
    match freeInode s.disk with
    | none => (0, s)
    | some k => (k + 1, { s with disk := marked INODE_BITMAP_LBA s.disk k })
  := by
  rw [minix_AllocateInode, run_bind, run_takeBit]
  cases h : freeInode s.disk with
  | none =>
      rw [freeInode] at h
      rw [h]
      rfl
  | some k =>
      obtain ⟨-, hlt, -⟩ := freeInode_spec h
      rw [freeInode] at h
      rw [h]
      simp only [run_pure, marked]
      rw [u16_of_lt (by omega)]

theorem run_addEntry :
  run (addEntry dir_sector n filename) s =
    match freeEntry s.disk dir_sector with
    | none => (-ENOSPC, s)
    | some i => (ESUCCESS, { s with disk := entered s.disk dir_sector n filename i })
  := by
  rw [addEntry, run_bind, run_read, freeEntry]
  cases findInode (contents (s.disk dir_sector) []) fun inode => inode = 0 with
  | none => rfl
  | some i => simp [entered]

theorem run_writeFile {k : ℕ} (h : freeInode s.disk = some k) :
  run (writeFile dir_sector filename) s =
    run (addEntry dir_sector (k + 1) filename) { s with disk := createdFile s.disk k }
  := by
  rw [writeFile, run_bind, run_AllocateInode, h]
  simp only
  rw [if_neg k.succ_ne_zero, run_bind, run_CreateFile_clearInode]
  rfl

theorem addEntry_disk :
  (run (addEntry dir_sector n filename) s).2.disk = withEntry s.disk dir_sector n filename
  := by
  rw [run_addEntry, withEntry]
  cases freeEntry s.disk dir_sector with
  | none => rfl
  | some i => rfl

/-- A file created has the inode `k + 1` and an entry. -/
theorem writeFile_spec {k : ℕ} (h : freeInode s.disk = some k) :
  ∃ t : State, Recorded (marked INODE_BITMAP_LBA s.disk k) t.disk (k + 1) Site.CreateFile.record ∧
    run (writeFile dir_sector filename) s = run (addEntry dir_sector (k + 1) filename) t
  := ⟨_, Recorded.of_recorded _ _ _, run_writeFile s dir_sector filename h⟩

theorem writeFile_full (h : freeInode s.disk = none) :
  run (writeFile dir_sector filename) s = (-ENOSPC, s)
  := by
  rw [writeFile, run_bind, run_AllocateInode, h]
  rfl

theorem run_writeDir {k z : ℕ} (hk : freeInode s.disk = some k) (hz : freeZone s.disk = some z) :
  run (writeDir dir_sector filename) s =
    run (addEntry dir_sector (k + 1) filename)
      { s with disk := createdDir s.disk k z dir_sector }
  := by
  obtain ⟨hlo, -⟩ := freeInode_spec hk
  have hz' := (freeZone_marked s.disk k).trans hz
  rw [freeZone] at hz'
  rw [writeDir, run_bind, run_AllocateInode, hk]
  simp only
  rw [if_neg (by omega), run_bind, run_takeBit]
  simp only [hz', run_bind, run_CreateDir_clearInode, run_read, run_write]
  rfl

/-- A directory created has the inode `k + 1`, the zone `z` and an entry. -/
theorem writeDir_spec {k z : ℕ} (hk : freeInode s.disk = some k)
    (hz : freeZone (marked INODE_BITMAP_LBA s.disk k) = some z) :
  ∃ t : State, Recorded (marked ZONE_BITMAP_LBA (marked INODE_BITMAP_LBA s.disk k) z) t.disk (k + 1)
      (Site.CreateDir z).record ∧
    run (writeDir dir_sector filename) s =
      run (addEntry dir_sector (k + 1) filename)
        ⟨Function.update t.disk (z * 2)
            (sector (minix_CreateDir.dirData (k + 1) (entryOf t.disk dir_sector 0))),
          t.last_pos, t.stack⟩
  := by
  rw [freeZone_marked] at hz
  exact ⟨{ s with disk := _ }, Recorded.of_recorded _ _ _, run_writeDir s dir_sector filename hk hz⟩

theorem writeDir_full (h : freeInode s.disk = none) :
  run (writeDir dir_sector filename) s = (-ENOSPC, s)
  := by
  rw [writeDir, run_bind, run_AllocateInode, h]
  rfl

theorem writeDir_no_zone {k : ℕ} (hk : freeInode s.disk = some k)
    (hz : freeZone (marked INODE_BITMAP_LBA s.disk k) = none) :
  run (writeDir dir_sector filename) s =
    (-ENOSPC, { s with disk := marked INODE_BITMAP_LBA s.disk k })
  := by
  obtain ⟨hlo, -⟩ := freeInode_spec hk
  rw [freeZone] at hz
  rw [writeDir, run_bind, run_AllocateInode, hk]
  simp only
  rw [if_neg (by omega), run_bind, run_takeBit]
  simp only [hz]
  rfl

theorem run_eraseFile (i : ℕ) :
  (run (eraseFile dir_sector i n) s).1 = ESUCCESS ∧
    (run (eraseFile dir_sector i n) s).2.disk =
      removed (unmarked (run (minix_DeleteFile.clearInode n) s).2.disk n) dir_sector i
  := by
  simp [eraseFile, clearInodeBit, editBitmap, removeEntry, removed, unmarked]

/-- A file deleted: its record cleared, a bit of the inode bitmap and its entry. -/
theorem eraseFile_spec (i : ℕ) :
  ∃ d₁, Recorded s.disk d₁ n (fun _ => 0) ∧
    (run (eraseFile dir_sector i n) s).1 = ESUCCESS ∧
    (run (eraseFile dir_sector i n) s).2.disk = removed (unmarked d₁ n) dir_sector i
  := ⟨_, Site.DeleteFile.recorded n s, run_eraseFile s dir_sector n i⟩

/-- The disk of a directory deleted, before the bit of its inode is cleared. -/
def erasedDir (d : Disk) (n zone : ℕ) : Disk :=
  recorded (run (FreeZone zone) (State.ofDisk d)).2.disk n (fun _ => 0)

theorem FreeZone_disk (zone : ℕ) :
  (run (FreeZone zone) s).2.disk = (run (FreeZone zone) (State.ofDisk s.disk)).2.disk
  := by
  rw [FreeZone, run_ite, run_ite]
  split_ifs <;> rfl

/-- Freeing a zone changes the zone bitmap. -/
theorem FreeZone_other (zone : ℕ) {lba : ℕ} (hlba : lba ≠ ZONE_BITMAP_LBA) :
  (run (FreeZone zone) s).2.disk lba = s.disk lba
  := by
  rw [FreeZone, run_ite]
  split_ifs
  · rfl
  · simp [editBitmap, Function.update_of_ne hlba]

theorem erasedDir_recorded (d : Disk) (zone : ℕ) :
  Recorded d (erasedDir d n zone) n (fun _ => 0)
  := by
  have hrec := Recorded.of_recorded (run (FreeZone zone) (State.ofDisk d)).2.disk n (fun _ => 0)
  have hsec : inodeSector n ≠ ZONE_BITMAP_LBA := by
    have := ten_le_inodeSector n
    rw [ZONE_BITMAP_LBA]
    omega
  constructor
  · rw [erasedDir, hrec.sector, FreeZone_other _ _ hsec]
    rfl
  · intro lba hne hlba
    rw [erasedDir, hrec.others lba hne hlba, FreeZone_other _ _ hlba]
    rfl

theorem run_eraseDir (zone : ℕ) :
  (run (eraseDir dir_sector n zone) s).1 = ESUCCESS ∧
    (run (eraseDir dir_sector n zone) s).2.disk =
      withoutInode (unmarked (erasedDir s.disk n zone) n) dir_sector n
  := by
  have hclear := Writes.fill.run_editInode n (run (FreeZone zone) s).2
  rw [FreeZone_disk, ← erasedDir] at hclear
  rw [eraseDir, minix_DeleteDir.clearInode, withoutInode]
  simp only [run_bind, hclear, clearInodeBit, editBitmap, run_read, run_write, unmarked]
  cases findInode _ fun inode => inode = n with
  | none => exact ⟨rfl, rfl⟩
  | some i => exact ⟨rfl, rfl⟩

/-- A directory deleted: its record cleared, a bit of the inode bitmap and the first entry that
names it. -/
theorem eraseDir_spec (zone : ℕ) :
  ∃ d₁, Recorded s.disk d₁ n (fun _ => 0) ∧
    (run (eraseDir dir_sector n zone) s).1 = ESUCCESS ∧
    (run (eraseDir dir_sector n zone) s).2.disk =
      match findInode (contents (unmarked d₁ n dir_sector) []) fun inode => inode = n with
      | none => unmarked d₁ n
      | some i => removed (unmarked d₁ n) dir_sector i
  := ⟨_, erasedDir_recorded n s.disk zone, run_eraseDir s dir_sector n zone⟩

end

/-! ### New inodes -/

theorem InTable.of_freeInode {d : Disk} {k : ℕ} (h : freeInode d = some k) :
  InTable (k + 1)
  := by
  obtain ⟨-, hlt, -⟩ := freeInode_spec h
  exact ⟨by omega, by omega⟩

theorem CreateDir_zone {z : ℕ} (hz : z < 4096) :
  i_zone (Site.CreateDir z).record 0 0 = z
  := i_zone_set_self _ _ _ (by omega)

theorem createdFile_inodeBitmap (d : Disk) (k : ℕ) :
  createdFile d k INODE_BITMAP_LBA = marked INODE_BITMAP_LBA d k INODE_BITMAP_LBA
  := by
  have := ten_le_inodeSector (k + 1)
  rw [createdFile, recorded, Function.update_of_ne]
  rw [INODE_BITMAP_LBA]
  omega

theorem createdDir_zoneBitmap (d : Disk) (k z x : ℕ) :
  createdDir d k z x ZONE_BITMAP_LBA = marked ZONE_BITMAP_LBA d z ZONE_BITMAP_LBA
  := by
  have := ten_le_inodeSector (k + 1)
  rw [createdDir, Function.update_of_ne (by rw [ZONE_BITMAP_LBA]; omega), recorded,
    Function.update_of_ne (by rw [ZONE_BITMAP_LBA]; omega), marked, Function.update_self, marked,
    Function.update_of_ne (by decide), marked, Function.update_self]

/-- The entries of a new directory. -/
theorem entryInode_dirData (n parent j : ℕ) :
  entryInode (minix_CreateDir.dirData n parent) j =
    if j = 1 then parent % 2 ^ 16 else if j = 0 then n % 2 ^ 16 else 0
  := by
  rw [minix_CreateDir.dirData, entryInode_setEntry, entryInode_setEntry]
  have hzero : entryInode (fun _ => 0) j = 0 :=
    Memory.load_of_digits (v := 0) fun i _ => by rw [Nat.zero_div]; rfl
  rw [hzero]

/-- The names of the entries of a new directory. -/
theorem dirData_names (n parent : ℕ) :
  strcmp (entryName (minix_CreateDir.dirData n parent) 0) (ascii ".") = 0 ∧
    strcmp (entryName (minix_CreateDir.dirData n parent) 1) (ascii "..") = 0
  := by
  constructor
  · have houtside : strcmp (entryName (minix_CreateDir.dirData n parent) 0) (ascii ".") =
        strcmp (entryName (setEntry (fun _ => 0) 0 n (ascii ".")) 0) (ascii ".") := by
      apply strcmp_congr (k := 30) (Or.inl (by decide))
      intro k hk
      apply setEntry_outside
      omega
    rw [houtside, strcmp_setEntry _ _ _ _ (by decide)]
    decide +kernel
  · rw [minix_CreateDir.dirData, strcmp_setEntry _ _ _ _ (by decide)]
    decide +kernel

/-! ### Entries afterwards -/

theorem entryOf_entered (d : Disk) (dir_sector n i x : ℕ) {j : ℕ} (filename : List Byte)
    (hj : j < 16) :
  entryOf (entered d dir_sector n filename i) x j =
    if x = dir_sector ∧ j = i then n % 2 ^ 16 else entryOf d x j
  := by
  by_cases hx : x = dir_sector
  · subst hx
    rw [entryOf, entered, Function.update_self, entryInode, load_contents_sector _ _ (by omega),
      ← entryInode, entryInode_setEntry]
    simp only [true_and]
    rfl
  · rw [entryOf, entered, Function.update_of_ne hx, if_neg (fun h => hx h.1), entryOf]

theorem entryOf_removed (d : Disk) (dir_sector i x : ℕ) {j : ℕ} (hj : j < 16) :
  entryOf (removed d dir_sector i) x j = if x = dir_sector ∧ j = i then 0 else entryOf d x j
  := by
  by_cases hx : x = dir_sector
  · subst hx
    rw [entryOf, removed, Function.update_self, entryInode, load_contents_sector _ _ (by omega),
      ← entryInode, entryInode_clearEntry]
    simp only [true_and]
    rfl
  · rw [entryOf, removed, Function.update_of_ne hx, if_neg (fun h => hx h.1), entryOf]

/-- There is a free entry as soon as one entry is free. -/
theorem freeEntry_ne_none {d : Disk} {x i : ℕ} (hi : i < 16) (h : entryOf d x i = 0) :
  freeEntry d x ≠ none
  := by
  intro hnone
  have hi' := Loop.firstSome_eq_none.mp hnone i (Nat.zero_le i) (by omega)
  rw [if_pos (by simpa [entryOf] using h)] at hi'
  cases hi'

/-- The entry found is not in use. -/
theorem freeEntry_spec {d : Disk} {x i : ℕ} (h : freeEntry d x = some i) :
  i < 16 ∧ entryOf d x i = 0
  := by
  obtain ⟨hi, hfree, -⟩ := findInode_eq_some h
  exact ⟨hi, by simpa [entryOf] using hfree⟩

/-- An entry is put in a free place, if there is one. -/
theorem withEntry_cases (d : Disk) (x n : ℕ) (filename : List Byte) :
  withEntry d x n filename = d ∨
    ∃ i < 16, entryOf d x i = 0 ∧ withEntry d x n filename = entered d x n filename i
  := by
  rw [withEntry]
  cases hfree : freeEntry d x with
  | none =>
      left
      rfl
  | some i =>
      obtain ⟨hi, hzero⟩ := freeEntry_spec hfree
      right
      exact ⟨i, hi, hzero, rfl⟩

/-- The entry cleared names the inode. -/
theorem withoutInode_cases (d : Disk) (x n : ℕ) :
  withoutInode d x n = d ∨
    ∃ i < 16, entryOf d x i = n ∧ withoutInode d x n = removed d x i
  := by
  rw [withoutInode]
  cases hfound : findInode (contents (d x) []) fun inode => inode = n with
  | none =>
      left
      rfl
  | some i =>
      obtain ⟨hi, heq, -⟩ := findInode_eq_some hfound
      right
      exact ⟨i, hi, by simpa [entryOf] using heq, rfl⟩

/-! ### The inode bitmap -/

/-- The inode bitmap. -/
def bitmapOf (d : Disk) : Memory := contents (d INODE_BITMAP_LBA) []

theorem bitmapOf_update {d : Disk} {lba : ℕ} (x : Sector) (h : lba ≠ INODE_BITMAP_LBA) :
  bitmapOf (Function.update d lba x) = bitmapOf d
  := by
  rw [bitmapOf, Function.update_of_ne h.symm, bitmapOf]

theorem bitmapOf_recorded {d d' : Disk} {n : ℕ} {w : Memory} (h : Recorded d d' n w) :
  bitmapOf d' = bitmapOf d
  := by
  have hsec := ten_le_inodeSector n
  rw [bitmapOf, bitmapOf, h.others]
  · rw [INODE_BITMAP_LBA]
    omega
  · decide

theorem bitmapOf_marked (d : Disk) (k : ℕ) {x : ℕ} (hx : x < 512) :
  bitmapOf (marked INODE_BITMAP_LBA d k) x = Bitmap.set (bitmapOf d) k x
  := by
  rw [bitmapOf, marked, Function.update_self, contents_sector _ _ hx]
  rfl

theorem bitmapOf_unmarked (d : Disk) (n : ℕ) {x : ℕ} (hx : x < 512) :
  bitmapOf (unmarked d n) x = Bitmap.clear (bitmapOf d) n x
  := by
  rw [bitmapOf, unmarked, Function.update_self, contents_sector _ _ hx]
  rfl

end Minix
