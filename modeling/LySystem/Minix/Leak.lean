import LySystem.Minix.Rename

/-!
# Creations that fail

A creation takes an inode, and a directory a zone, before it looks for a free entry in the
parent.  Nothing is given back when a later step fails.
-/

namespace Minix

open CString

/-- The bitmaps, the inodes and the directories are as before. -/
structure Untouched (d d' : Disk) : Prop where
  inodeBitmap : d' INODE_BITMAP_LBA = d INODE_BITMAP_LBA
  zoneBitmap : d' ZONE_BITMAP_LBA = d ZONE_BITMAP_LBA
  inodes : ∀ lba, 10 ≤ lba → lba ≤ 265 → d' lba = d lba
  directories : ∀ x, LiveDir d x → d' x = d x

theorem Untouched.refl (d : Disk) :
  Untouched d d
  := ⟨rfl, rfl, fun _ _ _ => rfl, fun _ _ => rfl⟩

/-- The call, when it fails, leaves all this as it was. -/
def FailsUntouched (s : State) (p : Op ℤ) : Prop :=
  (run p s).1 < 0 → Untouched s.disk (run p s).2.disk

/-- When a file gets as far as taking an inode, its directory has a free entry. -/
def FileFits (s : State) (name : List Byte) : Prop :=
  ∀ x filename k, (run (lookupNew name) s).1 = .ok (x, filename) → freeInode s.disk = some k →
    freeEntry (createdFile s.disk k) x ≠ none

/-- When a directory gets as far as taking an inode, there is a zone, and then its parent has a
free entry. -/
def DirFits (s : State) (name : List Byte) : Prop :=
  ∀ x filename k, (run (lookupNew name) s).1 = .ok (x, filename) → freeInode s.disk = some k →
    ∃ z, freeZone s.disk = some z ∧ freeEntry (createdDir s.disk k z x) x ≠ none

/-! ### The parent -/

/-! ### What is leaked -/

theorem test_contents_sector (m : Memory) {k : ℕ} (hk : k < 4096) :
  Bitmap.test (contents (sector m) []) k = Bitmap.test m k
  := by
  rw [Bitmap.test, contents_sector _ _ (by omega), ← Bitmap.test]

/-- A bit that was off has been set. -/
theorem marked_ne {d : Disk} {lba k : ℕ} (hk : k < 4096)
    (hoff : Bitmap.test (contents (d lba) []) k = false) :
  marked lba d k lba ≠ d lba
  := by
  intro heq
  have hon : Bitmap.test (contents (marked lba d k lba) []) k = true := by
    rw [marked, Function.update_self, test_contents_sector _ hk, Bitmap.test_set]
    simp
  rw [heq, hoff] at hon
  cases hon

theorem inode_leaked {d d' : Disk} {k : ℕ} (hk : freeInode d = some k)
    (h : d' INODE_BITMAP_LBA = marked INODE_BITMAP_LBA d k INODE_BITMAP_LBA) :
  ¬ Untouched d d'
  := by
  obtain ⟨-, hlt, hoff, -⟩ := freeInode_spec hk
  intro hsame
  apply marked_ne hlt hoff
  rw [← h, hsame.inodeBitmap]

theorem zone_leaked {d d' : Disk} {z : ℕ} (hz : freeZone d = some z)
    (h : d' ZONE_BITMAP_LBA = marked ZONE_BITMAP_LBA d z ZONE_BITMAP_LBA) :
  ¬ Untouched d d'
  := by
  obtain ⟨hlt, hoff, -⟩ := Bitmap.firstClear_eq_some hz
  intro hsame
  apply marked_ne (by omega) hoff
  rw [← h, hsame.zoneBitmap]

/-! ### How a file is created -/

theorem lookupNew_error {name : List Byte} {s : State} {e : ℤ}
    (h : (run (lookupNew name) s).1 = .error e) :
  e < 0
  := by
  rw [lookupNew, run_bind] at h
  by_cases hexists : (run (FindEntry name) s).1 ≠ 0
  · rw [if_pos hexists] at h
    cases h
    decide
  · rw [if_neg hexists, run_bind] at h
    by_cases hroot : (run (findDirectory name) (run (FindEntry name) s).2).1.1 = 0
    · simp only [if_pos hroot] at h
      cases h
      decide
    · simp only [if_neg hroot] at h
      cases h

/-- What the creation of a file may return, and the disk it leaves with it. -/
inductive FileCreation (s : State) (name : List Byte) : ℤ → Disk → Prop where
  | refused {e : ℤ} (hlook : (run (lookupNew name) s).1 = .error e) (hneg : e < 0) :
      FileCreation s name e s.disk
  | no_inode {x : ℕ} {filename : List Byte} (hlook : (run (lookupNew name) s).1 = .ok (x, filename))
      (hk : freeInode s.disk = none) :
      FileCreation s name (-ENOSPC) s.disk
  | no_entry {x k : ℕ} {filename : List Byte}
      (hlook : (run (lookupNew name) s).1 = .ok (x, filename)) (hk : freeInode s.disk = some k)
      (hfree : freeEntry (createdFile s.disk k) x = none) :
      FileCreation s name (-ENOSPC) (createdFile s.disk k)
  | entered {x k i : ℕ} {filename : List Byte}
      (hlook : (run (lookupNew name) s).1 = .ok (x, filename)) (hk : freeInode s.disk = some k)
      (hfree : freeEntry (createdFile s.disk k) x = some i) :
      FileCreation s name ESUCCESS (entered (createdFile s.disk k) x (k + 1) filename i)

theorem fileCreation (s : State) (name : List Byte) :
  FileCreation s name (run (minix_CreateFile name) s).1 (run (minix_CreateFile name) s).2.disk
  := by
  have hdisk := (readOnly_lookupNew name).disk s
  rw [run_CreateFile]
  cases hlook : (run (lookupNew name) s).1 with
  | error e =>
      dsimp only
      rw [hdisk]
      exact .refused hlook (lookupNew_error hlook)
  | ok found =>
      obtain ⟨x, filename⟩ := found
      dsimp only
      cases hk : freeInode s.disk with
      | none =>
          rw [writeFile_full _ _ _ (by rw [hdisk, hk]), hdisk]
          exact .no_inode hlook hk
      | some k =>
          rw [run_writeFile (k := k) _ _ _ (by rw [hdisk, hk]), run_addEntry, hdisk]
          cases hfree : freeEntry (createdFile s.disk k) x with
          | none => exact .no_entry hlook hk hfree
          | some i => exact .entered hlook hk hfree

theorem createFile_success {s : State} {name : List Byte}
    (h : (run (minix_CreateFile name) s).1 = ESUCCESS) :
  ∃ x filename k i, (run (lookupNew name) s).1 = .ok (x, filename) ∧ freeInode s.disk = some k ∧
    freeEntry (createdFile s.disk k) x = some i ∧
    (run (minix_CreateFile name) s).2.disk = entered (createdFile s.disk k) x (k + 1) filename i
  := by
  have hcreation := fileCreation s name
  rw [h] at hcreation
  generalize (run (minix_CreateFile name) s).2.disk = d' at hcreation ⊢
  generalize he : ESUCCESS = e at hcreation
  cases hcreation with
  | refused hlook hneg => exact absurd (he ▸ hneg) (show ¬ ESUCCESS < 0 by decide)
  | no_inode hlook hk => exact absurd he (by decide)
  | no_entry hlook hk hfree => exact absurd he (by decide)
  | entered hlook hk hfree => exact ⟨_, _, _, _, hlook, hk, hfree, rfl⟩

/-! ### The two calls -/

theorem createFile_fails (s : State) (name : List Byte) :
  FailsUntouched s (minix_CreateFile name) ↔ FileFits s name
  := by
  have hcreation := fileCreation s name
  rw [FailsUntouched]
  generalize (run (minix_CreateFile name) s).1 = e at hcreation ⊢
  generalize (run (minix_CreateFile name) s).2.disk = d' at hcreation ⊢
  cases hcreation with
  | refused hlook hneg =>
      apply iff_of_true (fun _ => Untouched.refl _)
      intro x filename k hok
      rw [hlook] at hok
      cases hok
  | no_inode hlook hk =>
      apply iff_of_true (fun _ => Untouched.refl _)
      intro x filename k _ hk'
      rw [hk] at hk'
      cases hk'
  | no_entry hlook hk hfree =>
      apply iff_of_false
      · intro h
        apply inode_leaked hk (createdFile_inodeBitmap s.disk _)
        apply h (show -ENOSPC < 0 by decide)
      · exact fun h => h _ _ _ hlook hk hfree
  | entered hlook hk hfree =>
      apply iff_of_true
      · intro hneg
        cases hneg
      · intro x' filename' k' hlook' hk'
        rw [hlook] at hlook'
        cases hlook'
        rw [hk] at hk'
        cases hk'
        simp [hfree]

theorem createDir_fails (s : State) (name : List Byte) :
  FailsUntouched s (minix_CreateDir name) ↔ DirFits s name
  := by
  have hdisk := (readOnly_lookupNew name).disk s
  rw [FailsUntouched, run_CreateDir]
  cases hlook : (run (lookupNew name) s).1 with
  | error e =>
      apply iff_of_true
      · intro _
        rw [hdisk]
        apply Untouched.refl
      · intro x filename k hok
        rw [hlook] at hok
        cases hok
  | ok found =>
      obtain ⟨x, filename⟩ := found
      simp only
      cases hk : freeInode s.disk with
      | none =>
          rw [writeDir_full _ _ _ (by rw [hdisk, hk])]
          apply iff_of_true
          · intro _
            rw [hdisk]
            apply Untouched.refl
          · intro x filename k _ hk'
            rw [hk] at hk'
            cases hk'
      | some k =>
          have hfits : DirFits s name ↔
              ∃ z, freeZone s.disk = some z ∧ freeEntry (createdDir s.disk k z x) x ≠ none := by
            rw [DirFits, hlook, hk]
            constructor
            · intro h
              apply h x filename k rfl rfl
            · rintro h _ _ _ ⟨⟩ ⟨⟩
              apply h
          rw [hfits]
          cases hz : freeZone s.disk with
          | none =>
              rw [writeDir_no_zone (k := k) _ _ _ (by rw [hdisk, hk])
                (by rw [freeZone_marked, hdisk, hz]), hdisk]
              apply iff_of_false
              · intro h
                have hsame := h (show -ENOSPC < 0 by decide)
                exact inode_leaked hk rfl hsame
              · rintro ⟨z, hz', -⟩
                cases hz'
          | some z =>
              rw [run_writeDir (k := k) (z := z) _ _ _ (by rw [hdisk, hk]) (by rw [hdisk, hz]),
                run_addEntry, hdisk]
              cases hfree : freeEntry (createdDir s.disk k z x) x with
              | none =>
                  apply iff_of_false
                  · intro h
                    apply zone_leaked hz (createdDir_zoneBitmap s.disk k z x)
                    apply h (show -ENOSPC < 0 by decide)
                  · rintro ⟨z', hz', hfree'⟩
                    obtain rfl := Option.some.inj hz'
                    apply hfree' hfree
              | some i =>
                  apply iff_of_true
                  · intro hneg
                    cases hneg
                  · exact ⟨z, rfl, by simp [hfree]⟩

/-- A creation that fails leaves nothing behind exactly when it does not find its directory
full, or no zone, after it has taken an inode. -/
theorem create_fails (s : State) (name : List Byte) :
  (FailsUntouched s (minix_CreateFile name) ↔ FileFits s name) ∧
    (FailsUntouched s (minix_CreateDir name) ↔ DirFits s name)
  := ⟨createFile_fails s name, createDir_fails s name⟩

/-- In a full directory a file takes an inode, a directory an inode and a zone, and neither is
named by an entry. -/
theorem create_leaks :
  (run (minix_CreateFile (ascii "/d/x")) (State.ofDisk fullDir)).1 = -ENOSPC ∧
    ¬ FailsUntouched (State.ofDisk fullDir) (minix_CreateFile (ascii "/d/x")) ∧
    (run (minix_CreateDir (ascii "/d/x")) (State.ofDisk fullDir)).1 = -ENOSPC ∧
    ¬ FailsUntouched (State.ofDisk fullDir) (minix_CreateDir (ascii "/d/x"))
  := by
  have hfile : (run (minix_CreateFile (ascii "/d/x")) (State.ofDisk fullDir)).1 = -ENOSPC := by
    decide +kernel
  have hdir : (run (minix_CreateDir (ascii "/d/x")) (State.ofDisk fullDir)).1 = -ENOSPC := by
    decide +kernel
  refine ⟨hfile, ?_, hdir, ?_⟩
  · intro h
    have hbitmap := congrFun (h (by rw [hfile]; decide)).inodeBitmap 2
    revert hbitmap
    decide +kernel
  · intro h
    have hbitmap := congrFun (h (by rw [hdir]; decide)).zoneBitmap 27
    revert hbitmap
    decide +kernel

end Minix
