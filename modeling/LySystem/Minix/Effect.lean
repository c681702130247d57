import LySystem.Minix.Contents
import LySystem.Minix.Rename

/-!
# What a call changes

Every call that changes the file system either leaves the disk as it is or changes it in one
of a few ways, told once for all invariants.  They are made of the same writes: a bit of a
bitmap, the record of an inode, an entry of a directory, the data of a file.
-/

namespace Minix

open CString Transition

/-! ### The calls -/

/-- A call that changes the file system. -/
inductive FileOp where
  | tree (op : TreeOp)
  | WriteFile (name : List Byte) (input : Memory) (count : ℤ)
  | RenameFile (old_name new_name : List Byte)

def FileOp.perform : FileOp → Op ℤ
  | .tree op => op.perform
  | .WriteFile name input count => minix_WriteFile name input count
  | .RenameFile old_name new_name => minix_RenameFile old_name new_name

/-- One call, with whatever result; between the calls anything may happen to what surrounds
the disk. -/
def FileOp.Step (s : State) (op : FileOp) (t : State) : Prop := t.disk = (run op.perform s).2.disk

/-! ### The zone bitmap -/

/-- Freeing a zone clears its bit only. -/
theorem FreeZone_used {s : State} {zone k : ℕ} (hk : k < 4096) (hused : ZoneUsed s.disk k)
    (hne : k = zone → k = 0) :
  ZoneUsed (run (FreeZone zone) s).2.disk k
  := by
  rw [FreeZone, run_ite]
  by_cases hzero : zone = 0
  · rw [if_pos hzero]
    apply hused
  · rw [if_neg hzero]
    have hclear : k ≠ zone := fun h => hzero (h ▸ hne h)
    simp only [editBitmap, run_bind, run_read, run_write, ZoneUsed, Function.update_self]
    rw [Bitmap.test, contents_sector _ _ (by omega), ← Bitmap.test, Bitmap.test_clear]
    simp only [hclear, decide_false, Bool.not_false, Bool.true_and]
    apply hused

theorem freeZones_used (o : ℕ) {zs : List ℕ} (hzs : zs.Nodup) (m : Memory) {s : State} {k : ℕ}
    (hk : k < 4096) (hused : ZoneUsed s.disk k) (hne : ∀ z ∈ zs, i_zone m o z = k → k = 0) :
  ZoneUsed (run (freeZones o zs m) s).2.disk k
  := by
  induction zs generalizing m s with
  | nil => apply hused
  | cons z zs ih =>
      obtain ⟨hz, hzs⟩ := List.nodup_cons.mp hzs
      have hrest : ∀ z' ∈ zs, i_zone m o z' = k → k = 0 :=
        fun z' hz' => hne z' (List.mem_cons_of_mem z hz')
      rw [freeZones, run_ite]
      split_ifs
      · rw [run_bind]
        apply ih hzs
        · apply FreeZone_used hk hused
          intro heq
          apply hne z List.mem_cons_self heq.symm
        · intro z' hz'
          have hdiff : z' ≠ z := by
            rintro rfl
            apply hz hz'
          rw [i_zone_set_of_ne _ _ _ hdiff]
          apply hrest z' hz'
      · apply ih hzs _ hused hrest

/-- The record of the inode `n` has been cleared; of the zones only its own may have been
freed. -/
structure Erased (d d' : Disk) (n : ℕ) : Prop extends Recorded d d' n (fun _ => 0) where
  used : ∀ k < 4096, ZoneUsed d k → (∀ z < 7, zoneOf d n z = k → k = 0) → ZoneUsed d' k

theorem Erased.file (n : ℕ) (s : State) :
  Erased s.disk (run (minix_DeleteFile.clearInode n) s).2.disk n
  := by
  have hrecorded := Site.DeleteFile.recorded n s
  rw [Site.write] at hrecorded
  use hrecorded
  intro k hk hused hne
  have hzone : inodeSector n ≠ ZONE_BITMAP_LBA := by
    have := ten_le_inodeSector n
    rw [ZONE_BITMAP_LBA]
    omega
  rw [minix_DeleteFile.clearInode]
  simp only [run_bind, run_read, run_write]
  rw [ZoneUsed, Function.update_of_ne hzone.symm]
  apply freeZones_used _ List.nodup_range _ hk hused
  intro z hz
  apply hne z (List.mem_range.mp hz)

theorem Erased.dir (d : Disk) (n : ℕ) :
  Erased d (erasedDir d n (zoneOf d n 0)) n
  := by
  use erasedDir_recorded n d _
  intro k hk hused hne
  have hzone : inodeSector n ≠ ZONE_BITMAP_LBA := by
    have := ten_le_inodeSector n
    rw [ZONE_BITMAP_LBA]
    omega
  rw [erasedDir, recorded, ZoneUsed, Function.update_of_ne hzone.symm]
  apply FreeZone_used (s := State.ofDisk d) hk hused
  intro heq
  apply hne 0 (by decide) heq.symm

theorem zoneUsed_marked (d : Disk) {j k : ℕ} (hj : j < 4096) :
  ZoneUsed (marked ZONE_BITMAP_LBA d k) j ↔ j = k ∨ ZoneUsed d j
  := by
  rw [ZoneUsed, marked, Function.update_self, Bitmap.test, contents_sector _ _ (by omega),
    ← Bitmap.test, Bitmap.test_set, Bool.or_eq_true, decide_eq_true_iff, ZoneUsed]

theorem zoneUsed_congr {d d' : Disk} (h : d' ZONE_BITMAP_LBA = d ZONE_BITMAP_LBA) (k : ℕ) :
  ZoneUsed d' k ↔ ZoneUsed d k
  := by
  rw [ZoneUsed, h, ZoneUsed]

/-- The zone found is free. -/
theorem freeZone_spec {d : Disk} {z : ℕ} (h : freeZone d = some z) :
  z < 4096 ∧ ¬ ZoneUsed d z
  := by
  obtain ⟨hlt, hclear, -⟩ := Bitmap.firstClear_eq_some h
  use by omega
  rw [ZoneUsed, hclear]
  simp

/-! ### The data of a file -/

/-- The inode `n` has a zone in the buffer, its own or the first free one. -/
structure ZoneTaken (d e : Disk) (n : ℕ) (buf : Memory) : Prop
    extends Zoned d e (contents (d (inodeSector n)) []) buf (inodeOffset n) where
  first : zoneOf d n 0 = 0 → freeZone d = some (i_zone buf (inodeOffset n) 0)
  used : ∀ k < 4096, ZoneUsed d k → ZoneUsed e k
  mark : zoneOf d n 0 = 0 → ZoneUsed e (i_zone buf (inodeOffset n) 0)

theorem run_withZone (n : ℕ) (s : State) :
  let buf := contents (s.disk (inodeSector n)) []
  run (minix_WriteFile.withZone buf (inodeOffset n)) s =
    if zoneOf s.disk n 0 = 0 then
      match freeZone s.disk with
      | none => (none, s)
      | some z =>
          (some (set_i_zone buf (inodeOffset n) 0 z),
            { s with disk := marked ZONE_BITMAP_LBA s.disk z })
    else (some buf, s)
  := by
  simp only [minix_WriteFile.withZone, run_ite, run_bind, run_pure, run_takeBit]
  by_cases hzero : zoneOf s.disk n 0 = 0
  · rw [if_pos hzero, zoneOf] at *
    rw [if_pos hzero, freeZone]
    cases Bitmap.firstClear (contents (s.disk ZONE_BITMAP_LBA) []) (fun _ => true) 512 with
    | none => rfl
    | some z => rfl
  · rw [if_neg hzero]
    apply if_neg hzero

theorem withZone_taken {n : ℕ} {buf : Memory} {s : State}
    (h : (run (minix_WriteFile.withZone (contents (s.disk (inodeSector n)) []) (inodeOffset n))
      s).1 = some buf) :
  ZoneTaken s.disk (run (minix_WriteFile.withZone (contents (s.disk (inodeSector n)) [])
    (inodeOffset n)) s).2.disk n buf
  := by
  have hzoned := withZone_zoned h
  rw [run_withZone] at h hzoned ⊢
  by_cases hzero : zoneOf s.disk n 0 = 0
  · rw [if_pos hzero] at h hzoned ⊢
    cases hfree : freeZone s.disk with
    | none =>
        rw [hfree] at h
        cases h
    | some z =>
        rw [hfree] at h hzoned
        obtain rfl := Option.some.inj h
        obtain ⟨hlt, -⟩ := freeZone_spec hfree
        have hzone : ∀ m o, i_zone (set_i_zone m o 0 z) o 0 = z :=
          fun m o => i_zone_set_self m o 0 (by omega)
        refine ⟨hzoned, ?_, ?_, ?_⟩
        · intro _
          rw [hzone, hfree]
        · intro k hk hused
          apply (zoneUsed_marked _ hk).mpr (Or.inr hused)
        · intro _
          rw [hzone]
          apply (zoneUsed_marked _ hlt).mpr (Or.inl rfl)
  · rw [if_neg hzero] at h hzoned ⊢
    refine ⟨hzoned, ?_, ?_, ?_⟩
    · intro hz
      apply absurd hz hzero
    · intro k _ hused
      apply hused
    · intro hz
      apply absurd hz hzero

/-- The disk after the data `data` has been written to the inode `n`, whose record is in the
buffer `buf` then. -/
def stored (d : Disk) (n : ℕ) (buf : Memory) (data : Sector) (to_write : ℤ) : Disk :=
  Function.update (Function.update d (i_zone buf (inodeOffset n) 0 * 2) data) (inodeSector n)
    (sector (minix_WriteFile.grow buf (inodeOffset n) to_write))

/-! ### Effects -/

/-- The disk after a call. -/
inductive Effect (s : State) : FileOp → Disk → Prop
  | refused (op : FileOp) : Effect s op s.disk
  | CreateFile {name filename : List Byte} {x k : ℕ} :
      (run (lookupNew name) s).1 = .ok (x, filename) → freeInode s.disk = some k →
        Effect s (.tree (.CreateFile name)) (withEntry (createdFile s.disk k) x (k + 1) filename)
  | noZone {name filename : List Byte} {x k : ℕ} :
      (run (lookupNew name) s).1 = .ok (x, filename) → freeInode s.disk = some k →
        Effect s (.tree (.CreateDir name)) (marked INODE_BITMAP_LBA s.disk k)
  | CreateDir {name filename : List Byte} {x k z : ℕ} :
      (run (lookupNew name) s).1 = .ok (x, filename) → freeInode s.disk = some k →
        freeZone s.disk = some z →
        Effect s (.tree (.CreateDir name))
          (withEntry (createdDir s.disk k z x) x (k + 1) filename)
  | DeleteFile {name : List Byte} {x i : ℕ} {d₁ : Disk} :
      (run (lookupFile name) s).1 = .ok (x, i) → Erased s.disk d₁ (entryOf s.disk x i) →
        Effect s (.tree (.DeleteFile name)) (removed (unmarked d₁ (entryOf s.disk x i)) x i)
  | DeleteDir {name : List Byte} {x n : ℕ} {d₁ : Disk} :
      (run (lookupDir name) s).1 = .ok (x, n) → Erased s.disk d₁ n →
        Effect s (.tree (.DeleteDir name)) (withoutInode (unmarked d₁ n) x n)
  | WriteFile {name : List Byte} {input : Memory} {count : ℤ} {n : ℕ} {e : Disk} {buf : Memory}
      (data : Sector) (to_write : ℤ) :
      (run (FindEntry name) s).1 = n → n ≠ 0 → ZoneTaken s.disk e n buf →
        Effect s (.WriteFile name input count) (stored e n buf data to_write)
  | RenameFile {old_name new_name filename : List Byte} {x i y : ℕ} :
      (run (lookupMove old_name new_name) s).1 = .ok (x, i, y, filename) →
        Effect s (.RenameFile old_name new_name)
          (withEntry (removed s.disk x i) y (entryOf s.disk x i) filename)

theorem effect_CreateFile (s : State) (name : List Byte) :
  Effect s (.tree (.CreateFile name)) (run (minix_CreateFile name) s).2.disk
  := by
  have hdisk := (readOnly_lookupNew name).disk s
  rw [run_CreateFile]
  cases hlook : (run (lookupNew name) s).1 with
  | error e =>
      simp only [hdisk]
      apply Effect.refused
  | ok found =>
      obtain ⟨x, filename⟩ := found
      simp only
      cases hk : freeInode s.disk with
      | none =>
          rw [writeFile_full _ _ _ (by rw [hdisk, hk]), hdisk]
          apply Effect.refused
      | some k =>
          rw [run_writeFile (k := k) _ _ _ (by rw [hdisk, hk]), addEntry_disk, hdisk]
          apply Effect.CreateFile hlook hk

theorem effect_CreateDir (s : State) (name : List Byte) :
  Effect s (.tree (.CreateDir name)) (run (minix_CreateDir name) s).2.disk
  := by
  have hdisk := (readOnly_lookupNew name).disk s
  rw [run_CreateDir]
  cases hlook : (run (lookupNew name) s).1 with
  | error e =>
      simp only [hdisk]
      apply Effect.refused
  | ok found =>
      obtain ⟨x, filename⟩ := found
      simp only
      cases hk : freeInode s.disk with
      | none =>
          rw [writeDir_full _ _ _ (by rw [hdisk, hk]), hdisk]
          apply Effect.refused
      | some k =>
          cases hz : freeZone s.disk with
          | none =>
              rw [writeDir_no_zone (k := k) _ _ _ (by rw [hdisk, hk])
                (by rw [freeZone_marked, hdisk, hz]), hdisk]
              apply Effect.noZone hlook hk
          | some z =>
              rw [run_writeDir (k := k) (z := z) _ _ _ (by rw [hdisk, hk]) (by rw [hdisk, hz]),
                addEntry_disk, hdisk]
              apply Effect.CreateDir hlook hk hz

theorem effect_DeleteFile (s : State) (name : List Byte) :
  Effect s (.tree (.DeleteFile name)) (run (minix_DeleteFile name) s).2.disk
  := by
  have hdisk := (readOnly_lookupFile name).disk s
  rw [run_DeleteFile]
  cases hlook : (run (lookupFile name) s).1 with
  | error e =>
      simp only [hdisk]
      apply Effect.refused
  | ok found =>
      obtain ⟨x, i⟩ := found
      simp only
      rw [(run_eraseFile _ _ _ _).2]
      apply Effect.DeleteFile hlook
      have herased := Erased.file (entryOf s.disk x i) (run (lookupFile name) s).2
      rwa [hdisk] at herased

theorem effect_DeleteDir (s : State) (name : List Byte) :
  Effect s (.tree (.DeleteDir name)) (run (minix_DeleteDir name) s).2.disk
  := by
  have hdisk := (readOnly_lookupDir name).disk s
  rw [run_DeleteDir]
  cases hlook : (run (lookupDir name) s).1 with
  | error e =>
      simp only [hdisk]
      apply Effect.refused
  | ok found =>
      obtain ⟨x, n⟩ := found
      simp only
      rw [(run_eraseDir _ _ _ _).2, hdisk]
      apply Effect.DeleteDir hlook (Erased.dir s.disk n)

theorem effect_WriteFile (s : State) (name : List Byte) (input : Memory) (count : ℤ) :
  Effect s (.WriteFile name input count) (run (minix_WriteFile name input count) s).2.disk
  := by
  have hdisk := (readOnly_FindEntry name).disk s
  by_cases hn : (run (FindEntry name) s).1 = 0
  · rw [minix_WriteFile, run_bind, if_pos hn, run_pure, hdisk]
    apply Effect.refused
  · rw [run_WriteFile hn]
    simp only [hdisk]
    cases hfound : (run (minix_WriteFile.withZone
        (contents (s.disk (inodeSector (run (FindEntry name) s).1)) [])
        (inodeOffset (run (FindEntry name) s).1)) (run (FindEntry name) s).2).1 with
    | none =>
        rw [withZone_none hfound, hdisk]
        apply Effect.refused
    | some buf =>
        rw [← hdisk] at hfound
        have htaken := withZone_taken hfound
        rw [hdisk] at htaken
        dsimp only
        rw [← stored]
        exact Effect.WriteFile _ _ rfl hn htaken

theorem effect_RenameFile (s : State) (old_name new_name : List Byte) :
  Effect s (.RenameFile old_name new_name) (run (minix_RenameFile old_name new_name) s).2.disk
  := by
  have hdisk := (readOnly_lookupMove old_name new_name).disk s
  rw [run_RenameFile]
  cases hlook : (run (lookupMove old_name new_name) s).1 with
  | error e =>
      simp only [hdisk]
      apply Effect.refused
  | ok found =>
      obtain ⟨x, i, y, filename⟩ := found
      simp only
      rw [moveEntry, run_bind, addEntry_disk]
      simp only [removeEntry, run_bind, run_read, run_write, hdisk]
      apply Effect.RenameFile hlook

/-- Every call has one of the effects. -/
theorem effect (s : State) (op : FileOp) :
  Effect s op (run op.perform s).2.disk
  := by
  cases op with
  | tree op =>
      cases op with
      | CreateFile name =>
          rw [FileOp.perform, TreeOp.perform]
          exact effect_CreateFile s name
      | CreateDir name =>
          rw [FileOp.perform, TreeOp.perform]
          exact effect_CreateDir s name
      | DeleteFile name =>
          rw [FileOp.perform, TreeOp.perform]
          exact effect_DeleteFile s name
      | DeleteDir name =>
          rw [FileOp.perform, TreeOp.perform]
          exact effect_DeleteDir s name
  | WriteFile name input count =>
      rw [FileOp.perform]
      exact effect_WriteFile s name input count
  | RenameFile old_name new_name =>
      rw [FileOp.perform]
      exact effect_RenameFile s old_name new_name

end Minix
