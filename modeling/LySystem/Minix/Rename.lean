import LySystem.Minix.Resolve
import LySystem.Minix.Operation

/-!
# Renaming

`minix_RenameFile` looks both paths up first.  Then it clears the entry of the old name, and
only after that looks for a free entry for the new one: when the target directory has none,
the file is left without a name.
-/

namespace Minix

open CString

/-! ### The lookup -/

/-- What `minix_RenameFile` looks up: the old directory and the entry, the new directory and
the file name. -/
def lookupMove (old_name new_name : List Byte) : Op (Except ℤ (ℕ × ℕ × ℕ × List Byte)) :=
  do
    let (old_dir_sector, old_filename) ← findDirectory old_name
    if old_dir_sector = 0 then return .error (-ENOENT)
    else
      let (new_dir_sector, new_filename) ← findDirectory new_name
      if new_dir_sector = 0 then return .error (-ENOENT)
      else
        let existing ← FindEntry new_name
        if existing ≠ 0 then return .error (-EEXIST)
        else
          let buf ← ide_read_buffer old_dir_sector
          match findName buf old_filename with
          | none => return .error (-ENOENT)
          | some i => return .ok (old_dir_sector, i, new_dir_sector, new_filename)

theorem readOnly_lookupMove (old_name new_name : List Byte) :
  ReadOnly (lookupMove old_name new_name)
  := by
  apply (readOnly_findDirectory old_name).bind
  rintro ⟨old_dir_sector, old_filename⟩
  apply ReadOnly.ite (ReadOnly.pure _)
  apply (readOnly_findDirectory new_name).bind
  rintro ⟨new_dir_sector, new_filename⟩
  apply ReadOnly.ite (ReadOnly.pure _)
  apply (readOnly_FindEntry new_name).bind
  intro existing
  apply ReadOnly.ite (ReadOnly.pure _)
  apply (readOnly_read_buffer old_dir_sector).bind
  intro buf
  cases findName buf old_filename with
  | none => apply ReadOnly.pure
  | some i => apply ReadOnly.pure

/-- An entry of a directory moved to another one, or to another place of the same. -/
def moveEntry (old_dir_sector i target_inode new_dir_sector : ℕ) (filename : List Byte) : Op ℤ :=
  do
    removeEntry old_dir_sector i
    addEntry new_dir_sector target_inode filename

/-- An entry cleared in the buffer it was found in. -/
theorem sector_clearEntry (x : Sector) (behind : List Byte) (i : ℕ) :
  sector (clearEntry (contents x behind) i) = sector (clearEntry (contents x []) i)
  := by
  funext k
  have hk := k.isLt
  simp only [sector, clearEntry, Memory.fill, Memory.store, Memory.splice]
  rw [contents_lt _ _ hk, contents_lt _ _ hk]

theorem run_RenameFile (old_name new_name : List Byte) (s : State) :
  run (minix_RenameFile old_name new_name) s =
    match (run (lookupMove old_name new_name) s).1 with
    | .error e => (e, (run (lookupMove old_name new_name) s).2)
    | .ok (old_dir_sector, i, new_dir_sector, filename) =>
        run (moveEntry old_dir_sector i (entryOf s.disk old_dir_sector i) new_dir_sector filename)
          (run (lookupMove old_name new_name) s).2
  := by
  have hold := (readOnly_findDirectory old_name).disk s
  have hnew := (readOnly_findDirectory new_name).disk (run (findDirectory old_name) s).2
  have hentry := (readOnly_FindEntry new_name).disk
    (run (findDirectory new_name) (run (findDirectory old_name) s).2).2
  rw [minix_RenameFile, lookupMove, run_bind, run_bind]
  by_cases hold0 : (run (findDirectory old_name) s).1.1 = 0
  · simp only [if_pos hold0, run_pure]
  · simp only [if_neg hold0, run_bind]
    by_cases hnew0 : (run (findDirectory new_name) (run (findDirectory old_name) s).2).1.1 = 0
    · simp only [if_pos hnew0, run_pure]
    · simp only [if_neg hnew0, run_bind]
      by_cases hexists : (run (FindEntry new_name)
          (run (findDirectory new_name) (run (findDirectory old_name) s).2).2).1 ≠ 0
      · simp only [if_pos hexists, run_pure]
      · simp only [if_neg hexists, run_bind, run_read_buffer, hentry, hnew, hold]
        cases hfound : findName (contents (s.disk (run (findDirectory old_name) s).1.1)
            ((run (FindEntry new_name)
              (run (findDirectory new_name) (run (findDirectory old_name) s).2).2).2.stack 0))
            (run (findDirectory old_name) s).1.2 with
        | none => rfl
        | some i =>
            obtain ⟨hi, -⟩ := findName_eq_some hfound
            simp only [run_bind, run_pure, run_write, moveEntry, removeEntry, run_read,
              sector_clearEntry _ _ i, entryInode_contents _ _ hi, entryOf]

/-- What was found when a move is to go on. -/
theorem lookupMove_found {old_name new_name filename : List Byte} {s : State} {x i y : ℕ}
    (h : (run (lookupMove old_name new_name) s).1 = .ok (x, i, y, filename)) :
  let s₁ := (run (findDirectory old_name) s).2
  let s₂ := (run (FindEntry new_name) (run (findDirectory new_name) s₁).2).2
  ((run (findDirectory old_name) s).1.1 = x ∧ x ≠ 0) ∧
    ((run (findDirectory new_name) s₁).1 = (y, filename) ∧ y ≠ 0) ∧
    findName (contents (s₂.disk x) (s₂.stack 0)) (run (findDirectory old_name) s).1.2 = some i
  := by
  rw [lookupMove, run_bind] at h
  by_cases hold0 : (run (findDirectory old_name) s).1.1 = 0
  · simp only [if_pos hold0] at h
    cases h
  · simp only [if_neg hold0, run_bind] at h
    by_cases hnew0 : (run (findDirectory new_name) (run (findDirectory old_name) s).2).1.1 = 0
    · simp only [if_pos hnew0] at h
      cases h
    · simp only [if_neg hnew0, run_bind] at h
      by_cases hexists : (run (FindEntry new_name)
          (run (findDirectory new_name) (run (findDirectory old_name) s).2).2).1 ≠ 0
      · simp only [if_pos hexists] at h
        cases h
      · simp only [if_neg hexists, run_bind, run_read_buffer] at h
        generalize hfound : findName _ _ = found at h
        generalize run (findDirectory old_name) s = r at hold0 hnew0 hexists h hfound ⊢
        dsimp only
        generalize run (findDirectory new_name) r.2 = r' at hnew0 hexists h hfound ⊢
        cases found with
        | none => cases h
        | some j =>
            cases h
            exact ⟨⟨rfl, hold0⟩, ⟨rfl, hnew0⟩, hfound⟩

/-- Both directories are in use, and so is the entry. -/
theorem lookupMove_ok {old_name new_name filename : List Byte} {s : State}
    {old_dir_sector i new_dir_sector : ℕ}
    (h : (run (lookupMove old_name new_name) s).1 =
      .ok (old_dir_sector, i, new_dir_sector, filename)) :
  (LiveDir s.disk old_dir_sector ∧ old_dir_sector ≠ 0) ∧
    (LiveDir s.disk new_dir_sector ∧ new_dir_sector ≠ 0) ∧
    i < 16 ∧ entryOf s.disk old_dir_sector i ≠ 0
  := by
  have hold := (readOnly_findDirectory old_name).disk s
  have hnew := (readOnly_findDirectory new_name).disk (run (findDirectory old_name) s).2
  have hentry := (readOnly_FindEntry new_name).disk
    (run (findDirectory new_name) (run (findDirectory old_name) s).2).2
  obtain ⟨⟨rfl, hold0⟩, ⟨hpair, hnew0⟩, hfound⟩ := lookupMove_found h
  obtain ⟨rfl, -⟩ := Prod.mk.inj hpair
  obtain ⟨hi, hused, -⟩ := findName_eq_some hfound
  rw [entryInode_contents _ _ hi, hentry, hnew, hold] at hused
  have hlive := findDirectory_live hnew0
  rw [hold] at hlive
  exact ⟨⟨findDirectory_live hold0, hold0⟩, ⟨hlive, hnew0⟩, hi, hused⟩

theorem run_moveEntry (s : State) (x i n y : ℕ) (filename : List Byte) :
  run (moveEntry x i n y filename) s =
    match freeEntry (removed s.disk x i) y with
    | none => (-ENOSPC, { s with disk := removed s.disk x i })
    | some j => (ESUCCESS, { s with disk := entered (removed s.disk x i) y n filename j })
  := by
  rw [moveEntry, run_bind, run_addEntry]
  rfl

/-! ### Renames that fail -/

/-- The entry cleared leaves room in its own directory, and does not in another one. -/
theorem freeEntry_removed (d : Disk) {x y i : ℕ} (hi : i < 16) :
  freeEntry (removed d x i) y ≠ none ↔ y = x ∨ freeEntry d y ≠ none
  := by
  by_cases hsame : y = x
  · subst hsame
    apply iff_of_true _ (Or.inl rfl)
    apply freeEntry_ne_none hi
    rw [entryOf_removed _ _ _ _ hi, if_pos ⟨rfl, rfl⟩]
  · rw [or_iff_right hsame, freeEntry, removed, Function.update_of_ne hsame, ← freeEntry]

/-- A rename that fails leaves the disk as it was; the file has its old name. -/
def RenameFails (s : State) (old_name new_name : List Byte) : Prop :=
  let r := run (minix_RenameFile old_name new_name) s
  r.1 < 0 → r.2.disk = s.disk ∧ ∀ n, Resolves s.disk old_name n → Resolves r.2.disk old_name n

/-- The new entry goes to the directory of the old one, or to one that is not full. -/
def Roomy (s : State) (old_name new_name : List Byte) : Prop :=
  ∀ x i y filename, (run (lookupMove old_name new_name) s).1 = .ok (x, i, y, filename) →
    y = x ∨ freeEntry s.disk y ≠ none

/-- A rename that fails leaves the disk as it was exactly when it does not find the target
directory full. -/
theorem rename_fails (s : State) (old_name new_name : List Byte) :
  RenameFails s old_name new_name ↔ Roomy s old_name new_name
  := by
  have hdisk := (readOnly_lookupMove old_name new_name).disk s
  rw [RenameFails, run_RenameFile]
  cases hlook : (run (lookupMove old_name new_name) s).1 with
  | error e =>
      apply iff_of_true
      · intro _
        rw [hdisk]
        exact ⟨rfl, fun _ h => h⟩
      · intro x i y filename hok
        rw [hlook] at hok
        cases hok
  | ok found =>
      obtain ⟨x, i, y, filename⟩ := found
      obtain ⟨-, -, hi, hused⟩ := lookupMove_ok hlook
      have hroomy : Roomy s old_name new_name ↔ freeEntry (removed s.disk x i) y ≠ none := by
        rw [freeEntry_removed _ hi, Roomy, hlook]
        constructor
        · intro h
          apply h x i y filename rfl
        · rintro h _ _ _ _ ⟨⟩
          apply h
      simp only [run_moveEntry, hdisk]
      rw [hroomy]
      cases hfree : freeEntry (removed s.disk x i) y with
      | none =>
          apply iff_of_false _ (fun h => h rfl)
          intro hkept
          -- The entry has been cleared.
          have hsame : removed s.disk x i = s.disk :=
            (hkept (show -ENOSPC < 0 by decide)).1
          have hcleared := entryOf_removed s.disk x i x hi
          rw [hsame, if_pos ⟨rfl, rfl⟩] at hcleared
          apply hused hcleared
      | some j =>
          apply iff_of_true
          · intro hneg
            cases hneg
          · simp

/-- The small file system with a directory `/d`, the inode 5, in zone 220, all of whose entries
are in use. -/
def fullDir : Disk :=
  Function.update (Function.update (Function.update (Function.update (Function.update twoFiles
    INODE_BITMAP_LBA fun i => if i.val < 2 then 0xFF else if i.val = 2 then 0x07 else 0)
    ZONE_BITMAP_LBA fun i => if i.val < 27 then 0xFF else if i.val = 27 then 0x1F else 0)
    10 fun i =>
      if i.val = 128 then 0xED else if i.val = 129 then 0x41 else if i.val = 142 then 220
      else twoFiles 10 i)
    ROOT_SECTOR fun i =>
      if i.val = 128 then 5 else if i.val = 130 then 0x64 else twoFiles ROOT_SECTOR i)
    440 fun i =>
      if i.val = 0 then 5 else if i.val = 32 then 1
      else if i.val = 2 ∨ i.val = 34 ∨ i.val = 35 then 0x2E
      else if 64 ≤ i.val ∧ i.val % 32 = 0 then BitVec.ofNat 8 (4 + i.val / 32)
      else if 64 ≤ i.val ∧ i.val % 32 = 2 then BitVec.ofNat 8 (0x61 + i.val / 32)
      else 0

/-- A file moved to a full directory is found under neither name. -/
theorem rename_loses :
  let r := run (minix_RenameFile (ascii "/a") (ascii "/d/a")) (State.ofDisk fullDir)
  r.1 = -ENOSPC ∧ ¬ RenameFails (State.ofDisk fullDir) (ascii "/a") (ascii "/d/a") ∧
    (run (FindEntry (ascii "/a")) (State.ofDisk fullDir)).1 = 3 ∧
    (run (FindEntry (ascii "/a")) r.2).1 = 0 ∧ (run (FindEntry (ascii "/d/a")) r.2).1 = 0
  := by
  have hret : (run (minix_RenameFile (ascii "/a") (ascii "/d/a")) (State.ofDisk fullDir)).1 =
      -ENOSPC := by decide +kernel
  refine ⟨hret, ?_, by decide +kernel, by decide +kernel, by decide +kernel⟩
  intro hfails
  have hdisk := (hfails (by rw [hret]; decide)).1
  have hentry : entryOf (run (minix_RenameFile (ascii "/a") (ascii "/d/a"))
      (State.ofDisk fullDir)).2.disk ROOT_SECTOR 2 = 0 := by decide +kernel
  rw [hdisk] at hentry
  revert hentry
  decide +kernel

end Minix
