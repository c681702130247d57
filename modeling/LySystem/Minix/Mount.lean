import LySystem.Minix.Operation

/-!
# The superblock

The superblock and the inode bitmap are both in sector 2: the fields of the superblock are
the first 24 bytes of the bitmap, the inodes up to 192.  So the superblock survives exactly
the operations that leave these alone: no creation that gets as far as taking an inode.
-/

namespace Minix

open CString Transition

/-! ### The fields and the bytes -/

theorem agreeOn_of_load {m m' : Memory} {a n : ℕ} (h : m'.load a n = m.load a n) :
  Memory.AgreeOn a (a + n) m m'
  := by
  intro x hlo hhi
  have hbyte := Memory.load_eq_iff.mp h (x - a) (by omega)
  rwa [Nat.add_sub_cancel' hlo] at hbyte

theorem superblock_eq_iff {m m' : Memory} :
  superblock m' = superblock m ↔ Memory.AgreeOn 0 24 m m'
  := by
  constructor
  · intro h
    simp only [superblock, Superblock.mk.injEq] at h
    obtain ⟨h₀, h₂, h₄, h₆, h₈, h₁₀, h₁₂, h₁₆, h₁₈, h₂₀⟩ := h
    intro x _ hx
    by_cases hlow : x < 12
    · rcases Nat.lt_or_ge x 4 with hx | hx
      · rcases Nat.lt_or_ge x 2 with hx | hx
        · apply agreeOn_of_load h₀ x (by omega) (by omega)
        · apply agreeOn_of_load h₂ x (by omega) (by omega)
      · rcases Nat.lt_or_ge x 8 with hx | hx
        · rcases Nat.lt_or_ge x 6 with hx | hx
          · apply agreeOn_of_load h₄ x (by omega) (by omega)
          · apply agreeOn_of_load h₆ x (by omega) (by omega)
        · rcases Nat.lt_or_ge x 10 with hx | hx
          · apply agreeOn_of_load h₈ x (by omega) (by omega)
          · apply agreeOn_of_load h₁₀ x (by omega) (by omega)
    · rcases Nat.lt_or_ge x 18 with hx | hx
      · rcases Nat.lt_or_ge x 16 with hx | hx
        · apply agreeOn_of_load h₁₂ x (by omega) (by omega)
        · apply agreeOn_of_load h₁₆ x (by omega) (by omega)
      · rcases Nat.lt_or_ge x 20 with hx | hx
        · apply agreeOn_of_load h₁₈ x (by omega) (by omega)
        · apply agreeOn_of_load h₂₀ x (by omega) (by omega)
  · intro h
    have hload : ∀ a n, a + n ≤ 24 → m'.load a n = m.load a n :=
      fun a n hle => h.load (Nat.zero_le a) hle
    simp only [superblock, hload 0 2, hload 2 2, hload 4 2, hload 6 2, hload 8 2, hload 10 2,
      hload 12 4, hload 16 2, hload 18 2, hload 20 4, Nat.reduceAdd, Nat.reduceLeDiff]

/-- The superblock on the disk. -/
def superblockOf (d : Disk) : Superblock := superblock (bitmapOf d)

/-- The disk has a superblock that `minix_GetSuperBlock` accepts. -/
def Mounted (d : Disk) : Prop :=
  (superblockOf d).s_magic = 0x2478 ∨ (superblockOf d).s_magic = 0x2479

theorem run_GetSuperBlock (s : State) :
  (run minix_GetSuperBlock s).1 =
    (if (superblockOf s.disk).s_magic = 0x2478 ∨ (superblockOf s.disk).s_magic = 0x2479 then
      ESUCCESS else -EINVAL, superblockOf s.disk)
  := by
  have hsb : superblock (contents (s.disk 2) []) = superblockOf s.disk := rfl
  rw [minix_GetSuperBlock, run_bind, run_read]
  simp only [run_ite, run_pure, hsb]
  split_ifs <;> rfl

theorem mounted_iff {s : State} :
  (run minix_GetSuperBlock s).1.1 = ESUCCESS ↔ Mounted s.disk
  := by
  rw [run_GetSuperBlock, Mounted]
  split_ifs with h
  · simp [h]
  · simp [h, EINVAL, ESUCCESS]

/-- Equal superblocks are equal bits for the first 192 inodes. -/
theorem test_eq_of_superblock {d d' : Disk} (h : superblockOf d' = superblockOf d) {k : ℕ}
    (hk : k < 192) :
  Bitmap.test (bitmapOf d') k = Bitmap.test (bitmapOf d) k
  := by
  rw [Bitmap.test, Bitmap.test, superblock_eq_iff.mp h (k / 8) (Nat.zero_le _) (by omega)]

theorem Mounted.magic {d : Disk} (h : Mounted d) :
  bitmapOf d 17 = 0x24
  := by
  apply BitVec.eq_of_toNat_eq
  have hlt := (bitmapOf d 16).isLt
  simp only [Mounted, superblockOf, superblock, Memory.load, Nat.reduceAdd] at h
  change (bitmapOf d 17).toNat = 0x24
  omega

/-- The magic number leaves a bit off. -/
theorem Mounted.test {d : Disk} (h : Mounted d) :
  Bitmap.test (bitmapOf d) 136 = false
  := by
  rw [Bitmap.test, h.magic]
  decide

/-- On a disk with a superblock an inode is free, and it is one of those whose bits belong to
the superblock. -/
theorem Mounted.exists_free {d : Disk} (h : Mounted d) :
  ∃ k ≤ 136, freeInode d = some k
  := by
  have hoff := h.test
  cases hfree : freeInode d with
  | none =>
      have hon := Bitmap.firstClear_eq_none hfree 136 (by decide) (by decide)
      rw [← bitmapOf, hoff] at hon
      cases hon
  | some k =>
      refine ⟨k, ?_, rfl⟩
      by_contra hlt
      have hon := (freeInode_spec hfree).2.2.2 136 (by omega) (by decide)
      rw [← bitmapOf, hoff] at hon
      cases hon

/-! ### Sector 2 and the other sectors -/

/-- An entry other than the first one of sector 2 is no part of the superblock. -/
theorem bitmapOf_entered (d : Disk) {dir_sector i x : ℕ} (n : ℕ) (filename : List Byte)
    (h : dir_sector = INODE_BITMAP_LBA → i ≠ 0) (hx : x < 32) :
  bitmapOf (entered d dir_sector n filename i) x = bitmapOf d x
  := by
  by_cases hdir : dir_sector = INODE_BITMAP_LBA
  · have hi := h hdir
    subst hdir
    rw [bitmapOf, entered, Function.update_self, contents_sector _ _ (by omega),
      setEntry_outside _ _ _ (by omega), bitmapOf]
  · rw [entered, bitmapOf_update _ hdir]

theorem bitmapOf_removed (d : Disk) {dir_sector i x : ℕ}
    (h : dir_sector = INODE_BITMAP_LBA → i ≠ 0) (hx : x < 32) :
  bitmapOf (removed d dir_sector i) x = bitmapOf d x
  := by
  by_cases hdir : dir_sector = INODE_BITMAP_LBA
  · have hi := h hdir
    subst hdir
    rw [bitmapOf, removed, Function.update_self, contents_sector _ _ (by omega),
      clearEntry_outside _ (by omega), bitmapOf]
  · rw [removed, bitmapOf_update _ hdir]

/-! ### Operations -/

/-- A bit of the superblock that goes on breaks it. -/
theorem superblock_of_set {d d' : Disk} {k : ℕ} (hk : k < 192)
    (hoff : Bitmap.test (bitmapOf d) k = false)
    (h : ∀ x < 32, bitmapOf d' x = Bitmap.set (bitmapOf d) k x) :
  superblockOf d' ≠ superblockOf d
  := by
  intro heq
  have hon : Bitmap.test (bitmapOf d') k = true := by
    rw [Bitmap.test, h (k / 8) (by omega), ← Bitmap.test, Bitmap.test_set]
    simp
  rw [test_eq_of_superblock heq hk, hoff] at hon
  cases hon

/-- A bit that goes off keeps the superblock when it is none of its bits, or was off. -/
theorem superblock_of_clear {d d' : Disk} {n : ℕ}
    (h : ∀ x < 32, bitmapOf d' x = Bitmap.clear (bitmapOf d) n x) :
  superblockOf d' = superblockOf d ↔ 192 ≤ n ∨ Bitmap.test (bitmapOf d) n = false
  := by
  constructor
  · intro heq
    by_contra hcontra
    obtain ⟨hlt, hon⟩ := not_or.mp hcontra
    have hoff : Bitmap.test (bitmapOf d') n = false := by
      rw [Bitmap.test, h (n / 8) (by omega), ← Bitmap.test, Bitmap.test_clear]
      simp
    rw [test_eq_of_superblock heq (by omega)] at hoff
    apply hon hoff
  · intro hor
    apply superblock_eq_iff.mpr
    intro x _ hx
    rw [h x (by omega)]
    rcases hor with hn | hoff
    · apply Bitmap.clear_outside
      omega
    · rw [Bitmap.clear_of_not hoff]

/-- The first two bytes of sector 2, as an entry of a directory. -/
theorem entryOf_eq_of_superblock {d d' : Disk} (h : superblockOf d' = superblockOf d) :
  entryOf d' INODE_BITMAP_LBA 0 = entryOf d INODE_BITMAP_LBA 0
  := (superblock_eq_iff.mp h).load (Nat.zero_le _) (by decide)

theorem entryOf_eq_zero {d : Disk} (h : entryOf d INODE_BITMAP_LBA 0 = 0) :
  bitmapOf d 0 = 0 ∧ bitmapOf d 1 = 0
  := by
  have hload : (bitmapOf d 0).toNat + 256 * ((bitmapOf d 1).toNat + 256 * 0) = 0 := h
  constructor
  · apply BitVec.eq_of_toNat_eq
    change (bitmapOf d 0).toNat = 0
    omega
  · apply BitVec.eq_of_toNat_eq
    change (bitmapOf d 1).toNat = 0
    omega

theorem entryOf_ne_zero {d : Disk} (h : Bitmap.test (bitmapOf d) 2 = true) :
  entryOf d INODE_BITMAP_LBA 0 ≠ 0
  := by
  intro hzero
  change Bitmap.bitOn (bitmapOf d 0) 2 = true at h
  rw [(entryOf_eq_zero hzero).1] at h
  revert h
  decide

/-- When the first entry of sector 2 is in use, a new entry is no part of the superblock. -/
theorem bitmapOf_addEntry {t : State} (h : entryOf t.disk INODE_BITMAP_LBA 0 ≠ 0)
    (dir_sector n : ℕ) (filename : List Byte) {x : ℕ} (hx : x < 32) :
  bitmapOf (run (addEntry dir_sector n filename) t).2.disk x = bitmapOf t.disk x
  := by
  rw [run_addEntry]
  cases hfree : freeEntry t.disk dir_sector with
  | none => rfl
  | some i =>
      apply bitmapOf_entered _ _ _ _ hx
      rintro rfl rfl
      apply h
      simpa [entryOf] using (findInode_eq_some hfree).2.1

/-- The bit of the inode taken is on, and the first entry of sector 2 in use. -/
theorem entryOf_taken {d d' : Disk} {k : ℕ} (hk : freeInode d = some k)
    (h : ∀ x < 512, bitmapOf d' x = Bitmap.set (bitmapOf d) k x) :
  entryOf d' INODE_BITMAP_LBA 0 ≠ 0
  := by
  apply entryOf_ne_zero
  rw [Bitmap.test, h _ (by decide), ← Bitmap.test, Bitmap.test_set]
  obtain ⟨hlo, -, -, hbefore⟩ := freeInode_spec hk
  rcases Nat.eq_or_lt_of_le hlo with rfl | hlt
  · simp
  · rw [bitmapOf, hbefore 2 hlt le_rfl, Bool.or_true]

section

variable {s : State} (hmount : Mounted s.disk) (dir_sector : ℕ) (filename : List Byte)
include hmount

theorem Mounted.writeFile :
  superblockOf (run (writeFile dir_sector filename) s).2.disk ≠ superblockOf s.disk
  := by
  obtain ⟨k, hle, hk⟩ := hmount.exists_free
  obtain ⟨t, hrec, hrun⟩ := writeFile_spec s dir_sector filename hk
  have ht : ∀ x < 512, bitmapOf t.disk x = Bitmap.set (bitmapOf s.disk) k x := by
    intro x hx
    rw [bitmapOf_recorded hrec, bitmapOf_marked _ _ hx]
  apply superblock_of_set (k := k) (by omega) (freeInode_spec hk).2.2.1
  intro x hx
  rw [hrun, bitmapOf_addEntry (entryOf_taken hk ht) _ _ _ hx, ht x (by omega)]

theorem Mounted.writeDir :
  superblockOf (run (writeDir dir_sector filename) s).2.disk ≠ superblockOf s.disk
  := by
  obtain ⟨k, hle, hk⟩ := hmount.exists_free
  obtain ⟨hlo, hlt, hoff, -⟩ := freeInode_spec hk
  cases hz : freeZone (marked INODE_BITMAP_LBA s.disk k) with
  | none =>
      rw [writeDir_no_zone s dir_sector filename hk hz]
      apply superblock_of_set (k := k) (by omega) hoff
      intro x hx
      apply bitmapOf_marked _ _ (by omega)
  | some z =>
      obtain ⟨t, hrec, hrun⟩ := writeDir_spec s dir_sector filename hk hz
      have ht : ∀ x < 512, bitmapOf t.disk x = Bitmap.set (bitmapOf s.disk) k x := by
        intro x hx
        rw [bitmapOf_recorded hrec, marked, bitmapOf_update _ (by decide), bitmapOf_marked _ _ hx]
      rw [hrun]
      by_cases hsame : z * 2 = INODE_BITMAP_LBA
      · -- The new directory overwrites sector 2, and the magic number with zero bytes.
        have hu : ∀ (m : Memory) (x : ℕ), x < 512 →
            bitmapOf (Function.update t.disk (z * 2) (sector m)) x = m x := by
          intro m x hx
          rw [bitmapOf, hsame, Function.update_self, contents_sector _ _ hx]
        intro heq
        have hmagic := superblock_eq_iff.mp heq 17 (by decide) (by decide)
        rw [hmount.magic, bitmapOf_addEntry _ _ _ _ (by decide),
          hu _ _ (by decide)] at hmagic
        · cases hmagic
        · have hload : ∀ m : Memory,
              entryOf (Function.update t.disk (z * 2) (sector m)) INODE_BITMAP_LBA 0 =
                entryInode m 0 :=
            fun m => Memory.load_congr fun x hx => hu m _ (by omega)
          rw [hload, minix_CreateDir.dirData, entryInode_setEntry, if_neg (by decide),
            entryInode_setEntry, if_pos rfl]
          omega
      · have hu : ∀ x : Sector, bitmapOf (Function.update t.disk (z * 2) x) = bitmapOf t.disk :=
          fun x => bitmapOf_update x hsame
        apply superblock_of_set (k := k) (by omega) hoff
        intro x hx
        rw [bitmapOf_addEntry _ _ _ _ hx, hu, ht x (by omega)]
        apply entryOf_taken hk
        intro x hx
        rw [hu, ht x hx]

end

/-- A deletion, with the condition under which it keeps the superblock. -/
theorem eraseFile_superblock (s : State) {dir_sector i n : ℕ} (hn : n ≠ 0)
    (hi : entryOf s.disk dir_sector i = n) :
  superblockOf (run (eraseFile dir_sector i n) s).2.disk = superblockOf s.disk ↔
    (192 ≤ n ∨ Bitmap.test (bitmapOf s.disk) n = false) ∧
      ¬ (dir_sector = INODE_BITMAP_LBA ∧ i = 0)
  := by
  obtain ⟨d₁, hrec, -, hdisk⟩ := eraseFile_spec s dir_sector n i
  rw [hdisk]
  by_cases hfirst : dir_sector = INODE_BITMAP_LBA ∧ i = 0
  · obtain ⟨rfl, rfl⟩ := hfirst
    apply iff_of_false
    · intro heq
      have hentry := entryOf_eq_of_superblock heq
      rw [entryOf_removed _ _ _ _ (by decide), if_pos ⟨rfl, rfl⟩, hi] at hentry
      apply hn hentry.symm
    · exact fun h => h.2 ⟨rfl, rfl⟩
  · rw [superblock_of_clear (n := n), and_iff_left hfirst]
    intro x hx
    rw [bitmapOf_removed _ (fun hdir hzero => hfirst ⟨hdir, hzero⟩) hx,
      bitmapOf_unmarked _ _ (by omega), Bitmap.clear, Bitmap.clear, bitmapOf_recorded hrec]

@[inherit_doc eraseFile_superblock]
theorem eraseDir_superblock (s : State) {dir_sector n : ℕ} (zone : ℕ) (hn : n ≠ 0) :
  superblockOf (run (eraseDir dir_sector n zone) s).2.disk = superblockOf s.disk ↔
    (192 ≤ n ∨ Bitmap.test (bitmapOf s.disk) n = false) ∧
      ¬ (dir_sector = INODE_BITMAP_LBA ∧ entryOf s.disk INODE_BITMAP_LBA 0 = n)
  := by
  obtain ⟨d₁, hrec, -, hdisk⟩ := eraseDir_spec s dir_sector n zone
  have hclear : ∀ x < 512, bitmapOf (unmarked d₁ n) x = Bitmap.clear (bitmapOf s.disk) n x := by
    intro x hx
    rw [bitmapOf_unmarked _ _ hx, Bitmap.clear, Bitmap.clear, bitmapOf_recorded hrec]
  have hkeeps := superblock_of_clear fun x hx => hclear x (by omega)
  -- Where the superblock survives the bit, an entry found first before is found first.
  have hfirst : superblockOf (unmarked d₁ n) = superblockOf s.disk →
      dir_sector = INODE_BITMAP_LBA ∧ entryOf s.disk INODE_BITMAP_LBA 0 = n →
        findInode (contents (unmarked d₁ n dir_sector) []) (fun inode => inode = n) = some 0 := by
    rintro heq ⟨rfl, hentry⟩
    apply findInode_zero
    rw [← entryOf_eq_of_superblock heq] at hentry
    simpa [entryOf] using hentry
  rw [hdisk]
  cases hfound : findInode (contents (unmarked d₁ n dir_sector) []) fun inode => inode = n with
  | none =>
      simp only
      rw [hkeeps, iff_self_and]
      intro hor hentry
      rw [hfirst (hkeeps.mpr hor) hentry] at hfound
      cases hfound
  | some i =>
      simp only
      by_cases hslot : dir_sector = INODE_BITMAP_LBA ∧ i = 0
      · obtain ⟨rfl, rfl⟩ := hslot
        have hentry : entryOf (unmarked d₁ n) INODE_BITMAP_LBA 0 = n := by
          simpa [entryOf] using (findInode_eq_some hfound).2.1
        apply iff_of_false
        · intro heq
          -- The entry was cleared, so it was zero before, and the bit could not make it `n`.
          have hzero := entryOf_eq_of_superblock heq
          rw [entryOf_removed _ _ _ _ (by decide), if_pos ⟨rfl, rfl⟩] at hzero
          obtain ⟨h₀, h₁⟩ := entryOf_eq_zero hzero.symm
          apply hn
          rw [← hentry]
          change (bitmapOf (unmarked d₁ n) 0).toNat +
            256 * ((bitmapOf (unmarked d₁ n) 1).toNat + 256 * 0) = 0
          rw [hclear 0 (by decide), hclear 1 (by decide), Bitmap.clear_zero n h₀,
            Bitmap.clear_zero n h₁]
          rfl
        · rintro ⟨hor, hne⟩
          apply hne
          rw [← entryOf_eq_of_superblock (hkeeps.mpr hor)]
          exact ⟨rfl, hentry⟩
      · rw [superblock_of_clear (n := n), iff_self_and]
        · intro hor hentry
          rw [hfirst (hkeeps.mpr hor) hentry] at hfound
          apply hslot ⟨hentry.1, (Option.some.inj hfound).symm⟩
        · intro x hx
          rw [bitmapOf_removed _ (fun hdir hzero => hslot ⟨hdir, hzero⟩) hx,
            hclear x (by omega)]

/-- The condition under which an operation keeps the superblock: a creation is refused by its
lookup, and a deletion clears no bit of the superblock that is on, and no first entry of a
directory in sector 2. -/
def Harmless (s : State) : TreeOp → Prop
  | .CreateFile name | .CreateDir name => ∃ e, (run (lookupNew name) s).1 = .error e
  | .DeleteFile name => ∀ dir_sector i, (run (lookupFile name) s).1 = .ok (dir_sector, i) →
      (192 ≤ entryOf s.disk dir_sector i ∨
        Bitmap.test (bitmapOf s.disk) (entryOf s.disk dir_sector i) = false) ∧
      ¬ (dir_sector = INODE_BITMAP_LBA ∧ i = 0)
  | .DeleteDir name => ∀ dir_sector n, (run (lookupDir name) s).1 = .ok (dir_sector, n) →
      (192 ≤ n ∨ Bitmap.test (bitmapOf s.disk) n = false) ∧
      ¬ (dir_sector = INODE_BITMAP_LBA ∧ entryOf s.disk INODE_BITMAP_LBA 0 = n)

/-- An operation keeps the superblock of a mounted disk exactly when it is harmless. -/
theorem perform_superblock {s : State} (hmount : Mounted s.disk) (op : TreeOp) :
  superblockOf (run op.perform s).2.disk = superblockOf s.disk ↔ Harmless s op
  := by
  cases op with
  | CreateFile name =>
      have hdisk := (readOnly_lookupNew name).disk s
      rw [TreeOp.perform, run_CreateFile, Harmless]
      cases hlook : (run (lookupNew name) s).1 with
      | error e => simp [hdisk]
      | ok found =>
          rw [← hdisk] at hmount ⊢
          apply iff_of_false
          · apply hmount.writeFile
          · rintro ⟨e, he⟩
            cases he
  | CreateDir name =>
      have hdisk := (readOnly_lookupNew name).disk s
      rw [TreeOp.perform, run_CreateDir, Harmless]
      cases hlook : (run (lookupNew name) s).1 with
      | error e => simp [hdisk]
      | ok found =>
          rw [← hdisk] at hmount ⊢
          apply iff_of_false
          · apply hmount.writeDir
          · rintro ⟨e, he⟩
            cases he
  | DeleteFile name =>
      have hdisk := (readOnly_lookupFile name).disk s
      rw [TreeOp.perform, run_DeleteFile, Harmless]
      cases hlook : (run (lookupFile name) s).1 with
      | error e => simp [hdisk]
      | ok found =>
          obtain ⟨dir_sector, i⟩ := found
          obtain ⟨-, -, hused, -⟩ := lookupFile_ok hlook
          rw [← hdisk] at hused ⊢
          simp only
          rw [eraseFile_superblock _ hused rfl]
          constructor
          · rintro h _ _ ⟨⟩
            apply h
          · intro h
            apply h _ _ rfl
  | DeleteDir name =>
      have hdisk := (readOnly_lookupDir name).disk s
      rw [TreeOp.perform, run_DeleteDir, Harmless]
      cases hlook : (run (lookupDir name) s).1 with
      | error e => simp [hdisk]
      | ok found =>
          obtain ⟨dir_sector, n⟩ := found
          rw [← hdisk]
          simp only
          rw [eraseDir_superblock _ _ (lookupDir_ok hlook).2.2.1]
          constructor
          · rintro h _ _ ⟨⟩
            apply h
          · intro h
            apply h _ _ rfl

/-- One operation, with whatever result. -/
def Step (s : State) (op : TreeOp) (t : State) : Prop := t = (run op.perform s).2

/-- The small file system with a superblock in sector 2: 3428 inodes, the first data zone 219,
the magic number 0x2478. -/
def mountedDisk : Disk :=
  Function.update twoFiles 2 fun i =>
    [0x64, 0x0D, 0, 0, 1, 0, 2, 0, 0xDB, 0, 0, 0, 0xFF, 0xFF, 0xFF, 0x7F, 0x78, 0x24, 1, 0].getD i 0

end Minix
