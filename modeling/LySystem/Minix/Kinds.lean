import LySystem.Minix.Copy

/-!
# Files and directories taken for each other

`minix_DeleteDir` looks at the kind of the inode it finds.  `minix_WriteFile`,
`minix_DeleteFile` and `minix_CopyFile` do not, and are refused for other reasons only.
-/

namespace Minix

open CString

/-- The call returns an error and leaves the disk as it is. -/
def Refused (s : State) (p : Op ℤ) : Prop := (run p s).1 < 0 ∧ (run p s).2.disk = s.disk

/-- The inode has no zone, and no zone is free. -/
def NoZone (d : Disk) (n : ℕ) : Prop := zoneOf d n 0 = 0 ∧ freeZone d = none

/-- A negative count, with which the whole sector is copied, and the sector and the size of the
inode are such already. -/
def Idle (d : Disk) (n : ℕ) (input : Memory) (count : ℤ) : Prop :=
  count < 0 ∧ zoneOf d n 0 ≠ 0 ∧ toU32 count ≤ sizeOf d n ∧
    (zoneOf d n 0 * 2 = inodeSector n ∨
      d (zoneOf d n 0 * 2) = dataSector input count)

/-- Nothing is created: the path exists, or its directory does not, or no inode is free. -/
def CreationRefused (s : State) (name : List Byte) : Prop :=
  (∃ e, (run (lookupNew name) s).1 = .error e) ∨ freeInode s.disk = none

section

variable {s : State} {name : List Byte} {n : ℕ}

/-! ### Writing -/

/-- The record of an inode written back to its sector is the same when its size is not
smaller. -/
theorem grow_eq_iff {d : Disk} {n : ℕ} (hn : n ≠ 0) (c : ℤ) :
  sector (minix_WriteFile.grow (contents (d (inodeSector n)) []) (inodeOffset n) c) =
      d (inodeSector n) ↔ toU32 c ≤ sizeOf d n
  := by
  have hoff := inodeOffset_le hn
  have hsame : sector (contents (d (inodeSector n)) []) = d (inodeSector n) := by
    funext i
    apply contents_lt _ _ i.isLt
  rw [minix_WriteFile.grow, ← sizeOf]
  by_cases hlt : sizeOf d n < toU32 c
  · rw [if_pos hlt]
    apply iff_of_false
    · intro heq
      have hsize : sizeOf d n = toU32 c := by
        rw [sizeOf, ← heq, i_size, load_contents_sector _ _ (by omega), set_i_size,
          Memory.load_store, toU32]
        omega
      omega
    · omega
  · rw [if_neg hlt, hsame]
    exact iff_of_true rfl (by omega)

/-- Writing the sector of an inode and then its record changes nothing. -/
theorem stored_eq_iff {d : Disk} {n : ℕ} (hn : n ≠ 0) (data : Sector) (c : ℤ) :
  stored d n (contents (d (inodeSector n)) []) data c = d ↔
    toU32 c ≤ sizeOf d n ∧ (zoneOf d n 0 * 2 = inodeSector n ∨ d (zoneOf d n 0 * 2) = data)
  := by
  rw [← grow_eq_iff hn, stored, ← zoneOf]
  constructor
  · intro heq
    have hrecord := congrFun heq (inodeSector n)
    rw [Function.update_self] at hrecord
    refine ⟨hrecord, ?_⟩
    by_cases hsame : zoneOf d n 0 * 2 = inodeSector n
    · left
      exact hsame
    · right
      have hdata := congrFun heq (zoneOf d n 0 * 2)
      rw [Function.update_of_ne hsame, Function.update_self] at hdata
      exact hdata.symm
  · rintro ⟨hrecord, hsame | hdata⟩
    · rw [hrecord, hsame, Function.update_idem, Function.update_eq_self]
    · rw [hrecord, ← hdata, Function.update_eq_self, Function.update_eq_self]

theorem writeFile_refused (hn : (run (FindEntry name) s).1 = n) (hzero : n ≠ 0) (input : Memory)
    (count : ℤ) :
  Refused s (minix_WriteFile name input count) ↔ NoZone s.disk n ∨ Idle s.disk n input count
  := by
  have hdisk := (readOnly_FindEntry name).disk s
  rw [Refused, run_WriteFile_found hn hzero, NoZone, Idle]
  by_cases hz : zoneOf s.disk n 0 = 0
  · rw [if_pos hz]
    cases hfree : freeZone s.disk with
    | none =>
        apply iff_of_true
        · exact ⟨show -ENOSPC < 0 by decide, hdisk⟩
        · exact Or.inl ⟨hz, rfl⟩
    | some z =>
        apply iff_of_false
        · rintro ⟨-, heq⟩
          dsimp only at heq
          -- The bit of the zone has been set.
          obtain ⟨hlt, hoff, -⟩ := Bitmap.firstClear_eq_some hfree
          have hinode := ten_le_inodeSector n
          have hzone := congrFun heq ZONE_BITMAP_LBA
          rw [stored, Function.update_of_ne (by rw [ZONE_BITMAP_LBA]; omega),
            Function.update_of_ne (by rw [ZONE_BITMAP_LBA]; omega)] at hzone
          exact marked_ne (by omega) hoff hzone
        · rintro (⟨-, hnone⟩ | ⟨-, hne, -⟩)
          · cases hnone
          · exact hne hz
  · rw [if_neg hz]
    constructor
    · rintro ⟨hneg, heq⟩
      have hle : ¬ 512 < count := by
        intro hlt
        rw [if_pos hlt] at hneg
        omega
      rw [if_neg hle] at hneg heq
      exact Or.inr ⟨hneg, hz, (stored_eq_iff hzero _ _).mp heq⟩
    · rintro (⟨hzone, -⟩ | ⟨hneg, -, hrest⟩)
      · exact absurd hzone hz
      · rw [if_neg (by omega)]
        exact ⟨hneg, (stored_eq_iff hzero _ _).mpr hrest⟩

/-! ### Deleting -/

/-- The directory and the entry that `FindEntry` finds are those of `minix_DeleteFile`, which
looks at the name first. -/
theorem lookupFile_of_found (hzero : (run (FindEntry name) s).1 ≠ 0) :
  (DotsName (run (findDirectory name) s).1.2 ∧
      (run (lookupFile name) s).1 = .error (-EACCES)) ∨
    (¬ DotsName (run (findDirectory name) s).1.2 ∧
      ∃ x i, (run (lookupFile name) s).1 = .ok (x, i))
  := by
  have hdisk := (readOnly_findDirectory name).disk s
  rw [FindEntry, run_bind] at hzero
  rw [Minix.lookupFile, run_bind, DotsName]
  by_cases hroot : (run (findDirectory name) s).1.1 = 0
  · simp only [if_pos hroot] at hzero
    exact absurd rfl hzero
  · simp only [if_neg hroot, run_bind, run_read_buffer] at hzero
    by_cases hdots : strcmp (chars (run (findDirectory name) s).1.2) (ascii ".") = 0 ∨
        strcmp (chars (run (findDirectory name) s).1.2) (ascii "..") = 0
    · left
      simp only [if_neg hroot, if_pos hdots, run_pure]
      exact ⟨hdots, trivial⟩
    · right
      simp only [if_neg hroot, if_neg hdots, run_bind, run_read_buffer]
      refine ⟨hdots, ?_⟩
      generalize findName _ _ = found at hzero ⊢
      cases found with
      | none => exact absurd rfl hzero
      | some i => exact ⟨_, i, rfl⟩

theorem deleteFile_refused (hn : (run (FindEntry name) s).1 = n) (hzero : n ≠ 0) :
  Refused s (minix_DeleteFile name) ↔ DotsName (run (findDirectory name) s).1.2
  := by
  subst hn
  have hdisk := (readOnly_lookupFile name).disk s
  rw [Refused, run_DeleteFile]
  rcases lookupFile_of_found hzero with ⟨hdots, herror⟩ | ⟨hdots, x, i, hok⟩
  · rw [herror]
    exact iff_of_true ⟨show -EACCES < 0 by decide, hdisk⟩ hdots
  · rw [hok]
    dsimp only
    apply iff_of_false _ hdots
    rintro ⟨hneg, -⟩
    rw [(run_eraseFile _ _ _ _).1] at hneg
    exact absurd hneg (by decide)

/-! ### Copying -/

/-- When nothing is read the call returns at once; a file is created otherwise. -/
theorem run_CopyFile (source dest : List Byte) (s : State) :
  run (minix_CopyFile source dest) s =
    let r := run (minix_CopyFile.read source) s
    let c := run (minix_CreateFile dest) r.2
    let w := run (minix_WriteFile dest r.1.2 r.1.1) c.2
    if r.1.1 < 0 then (r.1.1, r.2)
    else if c.1 ≠ ESUCCESS then c
    else (if w.1 ≠ r.1.1 then -1 else ESUCCESS, w.2)
  := by
  rw [minix_CopyFile, run_bind]
  simp only [run_ite, run_bind, run_pure]
  generalize run (minix_CopyFile.read source) s = r
  generalize run (minix_CreateFile dest) r.2 = c
  generalize run (minix_WriteFile dest r.1.2 r.1.1) c.2 = w
  split_ifs <;> rfl

theorem run_CopyFile_read_eq (source : List Byte) (s : State) :
  run (minix_CopyFile.read source) s =
    run (minix_ReadFile source (chars (run stack s).1) 0 512) (run stack s).2
  := by
  rw [minix_CopyFile.read, run_bind]

/-- The number of bytes read from a file that is found, with the buffer on the stack. -/
theorem run_CopyFile_read (hn : (run (FindEntry name) (run stack s).2).1 = n) (hzero : n ≠ 0) :
  (run (minix_CopyFile.read name) s).1.1 = min (sizeOf s.disk n : ℤ) 512
  := by
  have hdisk : (run stack s).2.disk = s.disk := rfl
  rw [run_CopyFile_read_eq, run_ReadFile hn hzero, readResult_fst, hdisk]
  norm_cast

theorem not_creationRefused {x k : ℕ} {filename : List Byte}
    (hlook : (run (lookupNew name) s).1 = .ok (x, filename)) (hk : freeInode s.disk = some k) :
  ¬ CreationRefused s name
  := by
  rintro (⟨e, he⟩ | hnone)
  · rw [hlook] at he
    cases he
  · rw [hk] at hnone
    cases hnone

/-- A creation that fails leaves the disk unless it lacks an entry only. -/
theorem createFile_failure 
    (h : (run (minix_CreateFile name) s).1 ≠ ESUCCESS) :
  ((run (minix_CreateFile name) s).1 < 0 ∧ (run (minix_CreateFile name) s).2.disk = s.disk ∧
      CreationRefused s name) ∨
    ((run (minix_CreateFile name) s).2.disk ≠ s.disk ∧
      ∃ x filename k, (run (lookupNew name) s).1 = .ok (x, filename) ∧ freeInode s.disk = some k ∧
        freeEntry (createdFile s.disk k) x = none)
  := by
  have hcreation := fileCreation s name
  generalize (run (minix_CreateFile name) s).1 = e at h hcreation ⊢
  generalize (run (minix_CreateFile name) s).2.disk = d' at hcreation ⊢
  cases hcreation with
  | refused hlook hneg => exact Or.inl ⟨hneg, rfl, Or.inl ⟨_, hlook⟩⟩
  | no_inode hlook hk => exact Or.inl ⟨show -ENOSPC < 0 by decide, rfl, Or.inr hk⟩
  | @no_entry x k filename hlook hk hfree =>
      right
      have hchanged := withEntry_createdFile_ne hk x filename
      rw [withEntry, hfree] at hchanged
      exact ⟨hchanged, x, filename, k, hlook, hk, hfree⟩
  | entered hlook hk hfree => exact absurd rfl h

theorem copyFile_refused (hn : (run (FindEntry name) (run stack s).2).1 = n) (hzero : n ≠ 0)
    (dest : List Byte) :
  Refused s (minix_CopyFile name dest) ↔
    CreationRefused (run (minix_CopyFile.read name) s).2 dest
  := by
  have hread := run_CopyFile_read hn hzero
  have hdisk := (readOnly_CopyFile_read name).disk s
  rw [Refused, run_CopyFile]
  dsimp only
  set r := run (minix_CopyFile.read name) s with hr
  rw [if_neg (by omega)]
  by_cases hok : (run (minix_CreateFile dest) r.2).1 = ESUCCESS
  · obtain ⟨x, filename, k, i, hlook, hk, hfree, hcreated⟩ := createFile_success hok
    have hchanged := withEntry_createdFile_ne hk x filename
    rw [withEntry, hfree] at hchanged
    dsimp only at hchanged
    rw [← hcreated, hdisk] at hchanged
    apply iff_of_false _ (not_creationRefused hlook hk)
    rw [if_neg (fun hne => hne hok)]
    rintro ⟨hneg, hsame⟩
    rcases WriteFile_cases dest r.1.2 r.1.1 (run (minix_CreateFile dest) r.2).2 with
      ⟨-, hkept⟩ | hwritten
    · exact hchanged (hkept.symm.trans hsame)
    · -- All bytes read are written.
      rw [if_neg (show ¬ 512 < r.1.1 by omega)] at hwritten
      rw [if_neg (fun hne => hne hwritten)] at hneg
      exact absurd hneg (show ¬ ESUCCESS < 0 by decide)
  · rw [if_pos hok]
    rcases createFile_failure hok with ⟨hneg, hkept, hrefused⟩ |
      ⟨hchanged, x, filename, k, hlook, hk, -⟩
    · exact iff_of_true ⟨hneg, hkept.trans hdisk⟩ hrefused
    · apply iff_of_false _ (not_creationRefused hlook hk)
      exact fun h => hchanged (h.2.trans hdisk.symm)

end

/-! ### Directories -/

/-- A path that leads to something else is no directory for `minix_DeleteDir`. -/
theorem deleteDir_refused {s : State} {name : List Byte} (h : ¬ IsDir s.disk (foundDir name s)) :
  Refused s (minix_DeleteDir name)
  := by
  have hdisk := (readOnly_lookupDir name).disk s
  rw [Refused, run_DeleteDir]
  cases hlook : (run (lookupDir name) s).1 with
  | error e => exact ⟨lookupDir_error hlook, hdisk⟩
  | ok found =>
      obtain ⟨x, n⟩ := found
      obtain ⟨-, rfl, -, hdir, -⟩ := lookupDir_ok hlook
      exact absurd hdir h

/-- A disk with the directory `/d`, the inode 3. -/
def withDir : State := (run (minix_CreateDir (ascii "/d")) (State.ofDisk emptyDisk)).2

theorem withDir_found :
  (run (FindEntry (ascii "/d")) withDir).1 = 3
  := by
  decide +kernel

theorem withDir_dir :
  IsDir withDir.disk 3
  := by
  unfold IsDir
  decide +kernel

end Minix
