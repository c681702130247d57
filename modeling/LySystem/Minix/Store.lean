import LySystem.Fs.Vfs
import LySystem.Minix.Overwrite
import LySystem.Minix.RootDir

/-!
# The files as a store

What the calls of `kernel/fs/vfs.c` on files of the root directory are for: a map from names to
contents.  Files are created empty, a write replaces what was there and keeps the length, a read
is padded with zero bytes, and a name leads to what was last written under it.
-/

namespace Minix

open CString Transition

/-! ### Files -/

/-- The bytes of the file with the inode `n`. -/
def bytesOf (d : Disk) (n : ℕ) : List Byte :=
  (List.range (sizeOf d n)).map (contents (d (zoneOf d n 0 * 2)) [])

/-- The inode `n` is marked as taken, and is that of a file that fits into its zone. -/
structure FileAt (d : Disk) (n : ℕ) : Prop where
  gt : 2 < n
  table : InTable n
  bit : Bitmap.test (bitmapOf d) (n - 1) = true
  file : ¬ IsDir d n
  size : sizeOf d n ≤ 512
  empty : zoneOf d n 0 = 0 → sizeOf d n = 0

/-- The file with the inode `n` is what it was. -/
structure Intact (d d' : Disk) (n : ℕ) : Prop where
  file : ¬ IsDir d n → ¬ IsDir d' n
  size : sizeOf d' n = sizeOf d n
  zone : zoneOf d' n 0 = zoneOf d n 0
  data : zoneOf d n 0 ≠ 0 → d' (zoneOf d n 0 * 2) = d (zoneOf d n 0 * 2)

section

variable {d d' d'' : Disk} {n m : ℕ}

theorem Intact.trans (h : Intact d d' n) (h' : Intact d' d'' n) :
  Intact d d'' n
  := by
  constructor
  · intro hfile
    exact h'.file (h.file hfile)
  · rw [h'.size, h.size]
  · rw [h'.zone, h.zone]
  · intro hne
    rw [← h.zone] at hne ⊢
    rw [h'.data hne, h.zone, h.data (by rwa [h.zone] at hne)]

theorem Intact.bytesOf_eq (h : Intact d d' n) (hn : FileAt d n) :
  bytesOf d' n = bytesOf d n
  := by
  rw [bytesOf, bytesOf, h.size, h.zone]
  by_cases hzone : zoneOf d n 0 = 0
  · rw [hn.empty hzone]
    rfl
  · rw [h.data hzone]

theorem Intact.fileAt (h : Intact d d' n) (hn : FileAt d n)
    (hbit : Bitmap.test (bitmapOf d') (n - 1) = true) :
  FileAt d' n
  := by
  refine ⟨hn.gt, hn.table, hbit, h.file hn.file, ?_, ?_⟩
  · rw [h.size]
    exact hn.size
  · rw [h.size, h.zone]
    exact hn.empty

/-- The zone of a file lies behind that of the root directory. -/
theorem FileAt.zone_gt (hn : FileAt d n) (h : Owned d) (hne : zoneOf d n 0 ≠ 0) :
  219 < zoneOf d n 0 ∧ zoneOf d n 0 ≤ 4095 ∧ ZoneUsed d (zoneOf d n 0)
  := by
  obtain ⟨hlo, hhi, hused⟩ := h.zones n 0 hn.table (by decide) hne
  have hroot : zoneOf d n 0 ≠ 219 := by
    intro heq
    have := (h.rootZone n 0 hn.table (by decide) heq).1
    have := hn.gt
    omega
  exact ⟨by omega, hhi, hused⟩

/-- A sector written that is neither in the inode table nor in the zone of the file. -/
theorem Intact.update (hn : InTable n) {x : ℕ} (hx : x < 10 ∨ 265 < x)
    (hzone : zoneOf d n 0 ≠ 0 → x ≠ zoneOf d n 0 * 2) (y : Sector) :
  Intact d (Function.update d x y) n
  := by
  have hsector : Function.update d x y (inodeSector n) = d (inodeSector n) := by
    apply Function.update_of_ne
    have := hn.sector
    omega
  constructor
  · rw [IsDir, IsDir, modeOf, modeOf, hsector]
    exact id
  · rw [sizeOf, sizeOf, hsector]
  · rw [zoneOf, zoneOf, hsector]
  · intro hne
    exact Function.update_of_ne (hzone hne).symm _ _

/-- The root directory written. -/
theorem FileAt.update_root (hn : FileAt d n) (h : Owned d) (y : Sector) :
  Intact d (Function.update d ROOT_SECTOR y) n ∧ FileAt (Function.update d ROOT_SECTOR y) n
  := by
  have hintact : Intact d (Function.update d ROOT_SECTOR y) n := by
    apply Intact.update hn.table (Or.inr (by decide))
    intro hne
    have := (hn.zone_gt h hne).1
    rw [ROOT_SECTOR]
    omega
  use hintact
  apply hintact.fileAt hn
  rw [bitmapOf_update _ (by decide)]
  exact hn.bit

/-- The record of another inode written, without zones and with a last field of zero. -/
theorem Intact.recorded {w : Memory} (h : Recorded d d' n w) (hn : InTable n) (hm : InTable m)
    (hne : m ≠ n) (hunused : i_unused w 0 = 0) (hzone : zoneOf d m 0 ≠ 0 → 219 < zoneOf d m 0) :
  Intact d d' m
  := by
  have hrec := h.rewritten hn
  constructor
  · intro hfile hdir
    by_cases hnext : m = n + 1 ∧ n % 16 ≠ 0
    · obtain ⟨rfl, hmod⟩ := hnext
      rw [IsDir, hrec.next hmod, hunused] at hdir
      cases hdir
    · rw [IsDir, hrec.modes m hm hne hnext] at hdir
      exact hfile hdir
  · exact h.load_other hn.ne_zero hm.ne_zero hne.symm (by decide) (by decide)
  · exact hrec.zones m 0 hm hne (by decide)
  · intro hz
    have hlo := hzone hz
    have hsector := hn.sector
    apply h.others
    · omega
    · rw [ZONE_BITMAP_LBA]
      omega

end

/-! ### The store -/

/-- The contents of each name in use. -/
abbrev Files := FileName → Option (List Byte)

/-- The files of the root directory are `f`, and it holds nothing else. -/
structure Stores (d : Disk) (f : Files) : Prop where
  owned : Owned d
  dir : RootDir d
  files : ∀ i, InUse d i → FileAt d (entryOf d ROOT_SECTOR i)
  bytes : ∀ a, f a = (inodeOf d a).map (bytesOf d)

section

variable {d e : Disk} {f g : Files} {a : FileName} {i n k : ℕ} {filename : List Byte}

theorem exists_of_inodeOf (h : inodeOf d a = some n) :
  ∃ i, At d a i ∧ entryOf d ROOT_SECTOR i = n
  := by
  obtain ⟨i, hi, hn⟩ := Option.map_eq_some_iff.mp h
  exact ⟨i, at_of_slotOf hi, hn⟩

theorem inodeOf_ne_zero (h : inodeOf d a = some n) :
  n ≠ 0
  := by
  obtain ⟨i, hi, rfl⟩ := exists_of_inodeOf h
  exact hi.used

theorem inodeOf_eq_none :
  inodeOf d a = none ↔ slotOf d a = none
  := Option.map_eq_none_iff

theorem Stores.fileAt (h : Stores d f) (hn : inodeOf d a = some n) :
  FileAt d n
  := by
  obtain ⟨i, hi, rfl⟩ := exists_of_inodeOf hn
  exact h.files i hi.inUse

theorem Stores.present (h : Stores d f) (hn : inodeOf d a = some n) :
  f a = some (bytesOf d n)
  := by
  rw [h.bytes, hn]
  rfl

theorem Stores.absent (h : Stores d f) (hn : inodeOf d a = none) :
  f a = none
  := by
  rw [h.bytes, hn]
  rfl

theorem inUse_congr (hroot : e ROOT_SECTOR = d ROOT_SECTOR) :
  InUse e i ↔ InUse d i
  := by
  rw [InUse, InUse, entryOf, entryOf, hroot, isDots_congr hroot]

/-- The names stay where they are, and lead to files afterwards. -/
theorem Stores.frame (h : Stores d f) (howned : Owned e) (hroot : e ROOT_SECTOR = d ROOT_SECTOR)
    (hfiles : ∀ i, InUse d i → FileAt e (entryOf d ROOT_SECTOR i))
    (hbytes : ∀ a, g a = (inodeOf d a).map (bytesOf e)) :
  Stores e g
  := by
  obtain ⟨hdir, hinode⟩ := h.dir.congr hroot
  refine ⟨howned, hdir, ?_, ?_⟩
  · intro i hi
    rw [entryOf, hroot]
    exact hfiles i ((inUse_congr hroot).mp hi)
  · intro a
    rw [hbytes, hinode]

/-- A file that has no name gets one. -/
theorem Stores.enter (h : Stores d f) (hnew : inodeOf d a = none)
    (hfree : freeEntry d ROOT_SECTOR = some i) (hn : FileAt d n)
    (hfresh : ∀ j, InUse d j → entryOf d ROOT_SECTOR j ≠ n)
    (hname : ∀ j < 30, chars filename j = chars a.bytes j) :
  Stores (entered d ROOT_SECTOR n filename i) (Function.update f a (bytesOf d n))
  := by
  obtain ⟨hi, hzero⟩ := freeEntry_spec hfree
  have hlt : n < 2 ^ 16 := by
    have := hn.table.2
    omega
  obtain ⟨hdir, hinode⟩ := h.dir.entered hi hzero hn.table.ne_zero hlt hname
    (inodeOf_eq_none.mp hnew) hfresh
  have howned : Owned (entered d ROOT_SECTOR n filename i) := by
    have hone : n ≠ 1 := by
      have := hn.gt
      omega
    have hguarded := h.owned.guarded.withEntry LiveDir.root (by decide) filename hn.table hone
      fun hsub => absurd hsub hn.file
    rw [withEntry, hfree] at hguarded
    exact hguarded.owned
  have hkept : ∀ m, FileAt d m → Intact d (entered d ROOT_SECTOR n filename i) m ∧
      FileAt (entered d ROOT_SECTOR n filename i) m :=
    fun m hm => hm.update_root h.owned _
  refine ⟨howned, hdir, ?_, ?_⟩
  · intro j hj
    rw [entryOf_entered _ _ _ _ _ _ hj.1]
    split_ifs with hji
    · rw [Nat.mod_eq_of_lt hlt]
      exact (hkept n hn).2
    · have hne : j ≠ i := fun heq => hji ⟨rfl, heq⟩
      exact (hkept _ (h.files j ((inUse_entered_of_ne hne).mp hj))).2
  · intro b
    rw [hinode]
    split_ifs with hb
    · rw [hb, Function.update_self, Option.map_some, (hkept n hn).1.bytesOf_eq hn]
    · rw [Function.update_of_ne hb, h.bytes]
      cases hm : inodeOf d b with
      | none => rfl
      | some m =>
          rw [Option.map_some, Option.map_some, (hkept m (h.fileAt hm)).1.bytesOf_eq (h.fileAt hm)]

/-- A name goes, and the file with it or not; the other files are what they were. -/
theorem Stores.remove (h : Stores d f) (hat : At d a i) (howned : Owned e)
    (hroot : e ROOT_SECTOR = d ROOT_SECTOR)
    (hothers : ∀ j, InUse d j → j ≠ i → Intact d e (entryOf d ROOT_SECTOR j) ∧
      Bitmap.test (bitmapOf e) (entryOf d ROOT_SECTOR j - 1) = true) :
  Stores (removed e ROOT_SECTOR i) (Function.update f a none)
  := by
  have hentry : ∀ j, entryOf e ROOT_SECTOR j = entryOf d ROOT_SECTOR j := by
    intro j
    rw [entryOf, entryOf, hroot]
  have hat' : At e a i := by
    rw [At, hroot]
    exact hat
  obtain ⟨hdir, hinode⟩ := h.dir.congr hroot
  obtain ⟨hdir, hinode'⟩ := hdir.removed hat'
  have hkept : ∀ j, InUse d j → j ≠ i →
      Intact d (removed e ROOT_SECTOR i) (entryOf d ROOT_SECTOR j) ∧
        FileAt (removed e ROOT_SECTOR i) (entryOf d ROOT_SECTOR j) := by
    intro j hj hne
    obtain ⟨hintact, hbit⟩ := hothers j hj hne
    obtain ⟨hintact', hfile⟩ := (hintact.fileAt (h.files j hj) hbit).update_root howned
      (sector (clearEntry (contents (e ROOT_SECTOR) []) i))
    exact ⟨hintact.trans hintact', hfile⟩
  refine ⟨(howned.guarded.removed LiveDir.root (by decide) i).owned, hdir, ?_, ?_⟩
  · intro j hj
    obtain ⟨hj, hne⟩ := inUse_removed.mp hj
    have hj := (inUse_congr hroot).mp hj
    rw [entryOf_removed_of_ne hj.1 hne, hentry]
    exact (hkept j hj hne).2
  · intro b
    rw [hinode', hinode]
    split_ifs with hb
    · rw [hb, Function.update_self]
      rfl
    · rw [Function.update_of_ne hb, h.bytes]
      cases hm : inodeOf d b with
      | none => rfl
      | some m =>
          obtain ⟨j, hj, rfl⟩ := exists_of_inodeOf hm
          have hne : j ≠ i := by
            rintro rfl
            exact hb (hj.unique hat)
          rw [Option.map_some, Option.map_some,
            (hkept j hj.inUse hne).1.bytesOf_eq (h.files j hj.inUse)]

end

/-! ### Lookups -/

namespace FileName

variable (a : FileName) {s : State} {n : ℕ}

theorem run_FindEntry (s : State) :
  (run (FindEntry a.path) s).1 = (inodeOf s.disk a).getD 0
  := by
  rw [FindEntry, run_bind, run_findDirectory]
  simp only [if_neg (show ROOT_SECTOR ≠ 0 by decide), run_bind, run_read_buffer, inodeOf, slotOf,
    findName_fileName]
  cases hfound : findName (contents (s.disk ROOT_SECTOR) []) a.bytes with
  | none => rfl
  | some i => exact entryInode_contents _ _ (findName_eq_some hfound).1

theorem chars_filename (behind : List Byte) {j : ℕ} (hj : j < 30) :
  chars (field (chars a.bytes) 30 ++ behind) j = chars a.bytes j
  := by
  rw [chars_append, if_pos (by simpa [field] using hj), a.chars_field]

/-- A creation finds the name in use, or the root directory. -/
theorem run_lookupNew (s : State) :
  (run (lookupNew a.path) s).1 = .error (-EEXIST) ∧ inodeOf s.disk a ≠ none ∨
    inodeOf s.disk a = none ∧ ∃ filename,
      (run (lookupNew a.path) s).1 = .ok (ROOT_SECTOR, filename) ∧
        ∀ j < 30, chars filename j = chars a.bytes j
  := by
  rw [lookupNew, run_bind, run_ite, a.run_FindEntry]
  cases hn : inodeOf s.disk a with
  | some n =>
      left
      rw [Option.getD_some, if_pos (inodeOf_ne_zero hn)]
      exact ⟨rfl, by simp⟩
  | none =>
      right
      rw [if_neg (by simp), run_bind, run_findDirectory]
      exact ⟨rfl, _, rfl, fun j hj => a.chars_filename _ hj⟩

/-- The file name is neither `.` nor `..`. -/
theorem not_dots (behind : List Byte) :
  ¬ (strcmp (chars (field (chars a.bytes) 30 ++ behind)) (ascii ".") = 0 ∨
    strcmp (chars (field (chars a.bytes) 30 ++ behind)) (ascii "..") = 0)
  := by
  have hcmp : ∀ l : List Byte, l.length < 30 →
      strcmp (chars (field (chars a.bytes) 30 ++ behind)) l = strcmp (chars a.bytes) l := by
    intro l hl
    apply strcmp_congr (Or.inl hl)
    intro j hj
    exact a.chars_filename behind hj
  rw [hcmp _ (by decide), hcmp _ (by decide)]
  rintro (hdot | hdots)
  · exact a.dot (strcmp_unique a.ends (by decide) (strcmp_self a.ends) hdot)
  · exact a.dots (strcmp_unique a.ends (by decide) (strcmp_self a.ends) hdots)

/-- A deletion finds the entry of the name, if there is one. -/
theorem run_lookupFile (s : State) :
  (run (lookupFile a.path) s).1 =
    match slotOf s.disk a with
    | none => .error (-ENOENT)
    | some i => .ok (ROOT_SECTOR, i)
  := by
  rw [lookupFile, run_bind, run_findDirectory]
  simp only [if_neg (show ROOT_SECTOR ≠ 0 by decide), if_neg (a.not_dots _), run_bind,
    run_read_buffer, slotOf, findName_fileName]
  cases findName (contents (s.disk ROOT_SECTOR) []) a.bytes with
  | none => rfl
  | some i => rfl

/-- A rename looks for the new name first. -/
theorem run_lookupMove (b : FileName) (s : State) :
  (run (lookupMove a.path b.path) s).1 = .error (-EEXIST) ∧ inodeOf s.disk b ≠ none ∨
    inodeOf s.disk b = none ∧
      (slotOf s.disk a = none ∧ (run (lookupMove a.path b.path) s).1 = .error (-ENOENT) ∨
        ∃ i filename, slotOf s.disk a = some i ∧
          (run (lookupMove a.path b.path) s).1 = .ok (ROOT_SECTOR, i, ROOT_SECTOR, filename) ∧
          ∀ j < 30, chars filename j = chars b.bytes j)
  := by
  have hroot : ROOT_SECTOR ≠ 0 := by decide
  have hdisk := (readOnly_FindEntry b.path).disk
  simp only [lookupMove, run_bind, run_findDirectory, if_neg hroot, b.run_FindEntry, run_ite]
  cases hn : inodeOf s.disk b with
  | some n =>
      left
      rw [Option.getD_some, if_pos (inodeOf_ne_zero hn)]
      exact ⟨rfl, by simp⟩
  | none =>
      right
      simp only [Option.getD_none, ne_eq, not_true_eq_false, if_false, run_read_buffer, hdisk,
        findName_fileName, true_and]
      rw [slotOf]
      cases findName (contents (s.disk ROOT_SECTOR) []) a.bytes with
      | none =>
          left
          exact ⟨rfl, rfl⟩
      | some i =>
          right
          exact ⟨i, _, rfl, rfl, fun j hj => b.chars_filename _ hj⟩

end FileName

/-! ### The calls on the disk -/

section

variable {d d' : Disk} {f : Files} {a : FileName} {n k : ℕ}

theorem test_congr {m m' : Memory} (h : m' (n / 8) = m (n / 8)) :
  Bitmap.test m' n = Bitmap.test m n
  := by
  rw [Bitmap.test, h, Bitmap.test]

/-- The bits of a file's inode, and of those before and behind it, lie in the bitmap. -/
theorem FileAt.bit_lt (hn : FileAt d n) :
  (n - 1) / 8 < 512
  := by
  have := hn.table.2
  omega

/-- The inode taken is that of an empty file without a name. -/
theorem Stores.createdFile (h : Stores d f) (hk : freeInode d = some k) :
  Stores (Minix.createdFile d k) f ∧ FileAt (Minix.createdFile d k) (k + 1) ∧
    bytesOf (Minix.createdFile d k) (k + 1) = [] ∧
    Minix.createdFile d k ROOT_SECTOR = d ROOT_SECTOR ∧
    ∀ j, InUse d j → entryOf d ROOT_SECTOR j ≠ k + 1
  := by
  obtain ⟨hlo, hlt, hbit, -⟩ := freeInode_spec hk
  have hn : InTable (k + 1) := InTable.of_freeInode hk
  have hrecorded :=
    Recorded.of_recorded (marked INODE_BITMAP_LBA d k) (k + 1) Site.CreateFile.record
  have hsector := hn.sector
  have hroot : Minix.createdFile d k ROOT_SECTOR = d ROOT_SECTOR := by
    rw [Minix.createdFile, hrecorded.others _ _ (by decide), marked,
      Function.update_of_ne (by decide)]
    rw [ROOT_SECTOR]
    omega
  have hmarked : ∀ j < 4096, Bitmap.test (bitmapOf (Minix.createdFile d k)) j =
      (decide (j = k) || Bitmap.test (bitmapOf d) j) := by
    intro j hj
    rw [Minix.createdFile, bitmapOf_recorded hrecorded, ← Bitmap.test_set]
    exact test_congr (bitmapOf_marked d k (by omega))
  have hfresh : ∀ m, FileAt d m → m ≠ k + 1 := by
    rintro m hm rfl
    have := hm.bit
    rw [Nat.add_sub_cancel, bitmapOf, hbit] at this
    cases this
  have hothers : ∀ m, FileAt d m → Intact d (Minix.createdFile d k) m ∧
      FileAt (Minix.createdFile d k) m := by
    intro m hm
    have hmark : Intact d (marked INODE_BITMAP_LBA d k) m := by
      apply Intact.update hm.table (Or.inl (by decide))
      intro hne
      have := (hm.zone_gt h.owned hne).1
      rw [INODE_BITMAP_LBA]
      omega
    have hintact : Intact d (Minix.createdFile d k) m := by
      apply hmark.trans
      apply Intact.recorded hrecorded hn hm.table (hfresh m hm) (by decide)
      rw [hmark.zone]
      intro hne
      exact (hm.zone_gt h.owned hne).1
    use hintact
    apply hintact.fileAt hm
    have := hm.table.2
    rw [hmarked _ (by omega), hm.bit, Bool.or_true]
  obtain ⟨hguarded, hfile⟩ := h.owned.createdFile hk
  have hsize : sizeOf (Minix.createdFile d k) (k + 1) = 0 :=
    hrecorded.load_self hn.ne_zero (k := 4) (j := 4) (by decide)
  refine ⟨?_, ⟨by omega, hn, ?_, hfile, ?_, fun _ => hsize⟩, ?_, hroot, ?_⟩
  · apply h.frame hguarded.owned hroot
    · intro i hi
      exact (hothers _ (h.files i hi)).2
    · intro b
      rw [h.bytes]
      cases hm : inodeOf d b with
      | none => rfl
      | some m =>
          have hfile := h.fileAt hm
          rw [Option.map_some, Option.map_some, (hothers m hfile).1.bytesOf_eq hfile]
  · rw [Nat.add_sub_cancel, hmarked k hlt, decide_eq_true rfl, Bool.true_or]
  · rw [hsize]
    exact Nat.zero_le _
  · rw [bytesOf, hsize]
    rfl
  · intro j hj
    exact hfresh _ (h.files j hj)

/-- A file erased, its name included, when no other file has the next inode. -/
theorem Stores.erased (h : Stores d f) {i : ℕ} (hat : At d a i)
    (hnext : ∀ j, InUse d j → entryOf d ROOT_SECTOR j ≠ entryOf d ROOT_SECTOR i + 1)
    (he : Erased d d' (entryOf d ROOT_SECTOR i)) :
  Stores (removed (unmarked d' (entryOf d ROOT_SECTOR i)) ROOT_SECTOR i) (Function.update f a none)
  := by
  have hn := h.files i hat.inUse
  have hsector := hn.table.sector
  have hone : entryOf d ROOT_SECTOR i ≠ 1 := by
    have := hn.gt
    omega
  apply h.remove hat (h.owned.erased hn.table hone he).owned
  · rw [unmarked, Function.update_of_ne (by decide), he.others _ _ (by decide)]
    have : ROOT_SECTOR = 438 := rfl
    omega
  · intro j hj hne
    have hm := h.files j hj
    have hzone : zoneOf d (entryOf d ROOT_SECTOR j) 0 ≠ 0 →
        219 < zoneOf d (entryOf d ROOT_SECTOR j) 0 := fun hz => (hm.zone_gt h.owned hz).1
    have hrecorded : Intact d d' (entryOf d ROOT_SECTOR j) := by
      apply Intact.recorded he.toRecorded hn.table hm.table _ (by decide) hzone
      intro heq
      exact hne (h.dir.links j i hj hat.inUse heq)
    constructor
    · apply hrecorded.trans
      apply Intact.update hm.table (Or.inl (by decide))
      rw [hrecorded.zone]
      intro hz
      have := hzone hz
      rw [INODE_BITMAP_LBA]
      omega
    · have := hnext j hj
      have := hm.gt
      rw [test_congr (bitmapOf_unmarked d' _ hm.bit_lt), Bitmap.test_clear,
        bitmapOf_recorded he.toRecorded, hm.bit, decide_eq_false (by omega)]
      rfl

/-- The bytes of a file of the bytes `l` after `c` bytes of `input` have been written to it. -/
def overwrite (l : List Byte) (input : Memory) (c : ℕ) : List Byte :=
  written input c ++ List.replicate (l.length - c) 0

/-- A file written, in its zone or in a free one. -/
theorem Stores.stored (h : Stores d f) (hn : inodeOf d a = some n) {e : Disk} {buf : Memory}
    (ht : ZoneTaken d e n buf) (input : Memory) {c : ℕ} (hc : c ≤ 512) :
  Stores (Minix.stored e n buf (dataSector input c) c)
    (Function.update f a (some (overwrite (bytesOf d n) input c)))
  := by
  have hfile := h.fileAt hn
  obtain ⟨hgt, -, hmine⟩ := h.owned.zoneTaken hfile.table hfile.file ht
  have hsector := hfile.table.sector
  obtain ⟨z, hz⟩ : ∃ z, z = i_zone buf (inodeOffset n) 0 := ⟨_, rfl⟩
  have hw : Written d (Minix.stored e n buf (dataSector input c) c) n z input c := by
    have hwritten := ht.toZoned.written hfile.table hc hgt input
    rw [hz, Minix.stored, dataSector, toU64_natCast (by omega)]
    exact hwritten
  have hdata : Minix.stored e n buf (dataSector input c) c (z * 2) = dataSector input c := by
    rw [hz, Minix.stored, Function.update_of_ne (by omega), Function.update_self]
  rw [← hz] at hgt hmine
  generalize hd' : Minix.stored e n buf (dataSector input c) c = d' at hw hdata
  have howned : Owned d' := by
    rw [← hd']
    exact (h.owned.stored hfile.table hfile.file ht _ _).owned
  have hroot : d' ROOT_SECTOR = d ROOT_SECTOR := by
    apply hw.others _ (by decide)
    · rw [ROOT_SECTOR]
      omega
    · rw [ROOT_SECTOR]
      omega
  have hbits : bitmapOf d' = bitmapOf d := by
    rw [bitmapOf, bitmapOf, hw.others _ (by decide)]
    · rw [INODE_BITMAP_LBA]
      omega
    · rw [INODE_BITMAP_LBA]
      omega
  have hself : FileAt d' n := by
    refine ⟨hfile.gt, hfile.table, ?_, ?_, ?_, ?_⟩
    · rw [hbits]
      exact hfile.bit
    · rw [IsDir, hw.mode_eq hfile.table]
      exact hfile.file
    · rw [hw.size]
      exact max_le hfile.size hc
    · rw [hw.zone']
      omega
  have hothers : ∀ m, FileAt d m → m ≠ n → Intact d d' m := by
    intro m hm hne
    constructor
    · rw [IsDir, IsDir, hw.mode_eq hm.table]
      exact id
    · exact hw.size_eq hm.table hne
    · exact hw.zone_eq hm.table hne
    · intro hmz
      have hlo := (hm.zone_gt h.owned hmz).1
      apply hw.others
      · rw [ZONE_BITMAP_LBA]
        omega
      · intro heq
        have heq : zoneOf d m 0 = z := by omega
        rcases hmine with hold | ⟨-, hfresh⟩
        · exact hne (h.owned.once m 0 n 0 hm.table hfile.table (by decide) (by decide) hmz
            (heq.trans hold.symm)).1
        · exact (h.owned.fresh hfresh).2 m 0 hm.table (by decide) heq
      · omega
  have hbytes : bytesOf d' n = overwrite (bytesOf d n) input c := by
    have hmax : max (sizeOf d n) c = c + (sizeOf d n - c) := by omega
    rw [bytesOf, hw.size, hw.zone', hdata, overwrite, written, bytesOf, List.length_map,
      List.length_range, hmax, List.range_add, List.map_append, List.map_map]
    congr 1
    · apply List.map_congr_left
      intro j hj
      rw [List.mem_range] at hj
      rw [dataSector_apply input hc (by omega), if_pos hj]
    · rw [List.eq_replicate_iff]
      constructor
      · rw [List.length_map, List.length_range]
      · intro x hx
        obtain ⟨j, hj, rfl⟩ := List.mem_map.mp hx
        rw [List.mem_range] at hj
        have := hfile.size
        rw [Function.comp, dataSector_apply input hc (by omega), if_neg (by omega)]
  obtain ⟨i, hi, hin⟩ := exists_of_inodeOf hn
  apply h.frame howned hroot
  · intro j hj
    by_cases hjn : entryOf d ROOT_SECTOR j = n
    · rw [hjn]
      exact hself
    · have hm := h.files j hj
      apply (hothers _ hm hjn).fileAt hm
      rw [hbits]
      exact hm.bit
  · intro b
    by_cases hb : b = a
    · rw [hb, Function.update_self, hn, Option.map_some, hbytes]
    · rw [Function.update_of_ne hb, h.bytes]
      cases hm : inodeOf d b with
      | none => rfl
      | some m =>
          obtain ⟨j, hj, rfl⟩ := exists_of_inodeOf hm
          have hne : entryOf d ROOT_SECTOR j ≠ n := by
            intro heq
            rw [← hin] at heq
            obtain rfl := h.dir.links j i hj.inUse hi.inUse heq
            exact hb (hj.unique hi)
          have hm := h.files j hj.inUse
          rw [Option.map_some, Option.map_some, (hothers _ hm hne).bytesOf_eq hm]

end

/-! ### The calls on the store -/

/-- A call on files of the root directory. -/
inductive FileCall where
  | CreateFile (a : FileName)
  | DeleteFile (a : FileName)
  | RenameFile (a b : FileName)
  | WriteFile (a : FileName) (input : Memory) (count : ℕ)
  | ReadFile (a : FileName) (mem : Memory) (output count : ℕ)

def FileCall.call : FileCall → Vfs.Call
  | CreateFile a => .CreateFile a.path
  | DeleteFile a => .DeleteFile a.path
  | RenameFile a b => .RenameFile a.path b.path
  | WriteFile a input count => .WriteFile a.path input count
  | ReadFile a mem output count => .ReadFile a.path mem output count

/-- Whether an inode, an entry of the root directory and a zone are free. -/
structure Space where
  inode : Bool
  entry : Bool
  zone : Bool

def spaceOf (d : Disk) : Space :=
  ⟨(freeInode d).isSome, (freeEntry d ROOT_SECTOR).isSome, (freeZone d).isSome⟩

/-- A call, the room there was for it, and what it returned. -/
structure FileEvent where
  call : FileCall
  space : Space
  result : Vfs.Result

/-- The memory of the caller with the first `count` bytes of `l` at `output`, padded with zero
bytes. -/
def padded (mem : Memory) (output count : ℕ) (l : List Byte) : Memory :=
  fun x => if output ≤ x ∧ x < output + count then chars l (x - output) else mem x

/-- What a call does to the store, and what it returns. -/
inductive Files.Step (f : Files) : FileEvent → Files → Prop
  | CreateFile_exists {a : FileName} {space : Space} :
      f a ≠ none → Step f ⟨.CreateFile a, space, .number (-EEXIST)⟩ f
  | CreateFile_full {a : FileName} {space : Space} :
      f a = none → ¬ (space.inode ∧ space.entry) →
        Step f ⟨.CreateFile a, space, .number (-ENOSPC)⟩ f
  | CreateFile {a : FileName} {space : Space} :
      f a = none → space.inode → space.entry →
        Step f ⟨.CreateFile a, space, .number ESUCCESS⟩ (Function.update f a (some []))
  | DeleteFile_missing {a : FileName} {space : Space} :
      f a = none → Step f ⟨.DeleteFile a, space, .number (-ENOENT)⟩ f
  | DeleteFile {a : FileName} {space : Space} :
      f a ≠ none → Step f ⟨.DeleteFile a, space, .number ESUCCESS⟩ (Function.update f a none)
  | RenameFile_exists {a b : FileName} {space : Space} :
      f b ≠ none → Step f ⟨.RenameFile a b, space, .number (-EEXIST)⟩ f
  | RenameFile_missing {a b : FileName} {space : Space} :
      f b = none → f a = none → Step f ⟨.RenameFile a b, space, .number (-ENOENT)⟩ f
  | RenameFile {a b : FileName} {space : Space} {l : List Byte} :
      f b = none → f a = some l →
        Step f ⟨.RenameFile a b, space, .number ESUCCESS⟩
          (Function.update (Function.update f a none) b (some l))
  | WriteFile_missing {a : FileName} {input : Memory} {count : ℕ} {space : Space} :
      f a = none → Step f ⟨.WriteFile a input count, space, .number (-ENOENT)⟩ f
  | WriteFile_full {a : FileName} {input : Memory} {count : ℕ} {space : Space} :
      f a = some [] → ¬ space.zone → Step f ⟨.WriteFile a input count, space, .number (-ENOSPC)⟩ f
  | WriteFile {a : FileName} {input : Memory} {count : ℕ} {space : Space} {l : List Byte} :
      f a = some l →
        Step f ⟨.WriteFile a input count, space, .number (min count 512 : ℕ)⟩
          (Function.update f a (some (overwrite l input (min count 512))))
  | ReadFile_missing {a : FileName} {mem : Memory} {output count : ℕ} {space : Space} :
      f a = none → Step f ⟨.ReadFile a mem output count, space, .read (-ENOENT) mem⟩ f
  | ReadFile {a : FileName} {mem : Memory} {output count : ℕ} {space : Space} {l : List Byte} :
      f a = some l →
        Step f ⟨.ReadFile a mem output count, space,
          .read (min l.length count : ℕ) (padded mem output count l)⟩ f

/-- Counts are those of a C `int`, a buffer ends in the address space, and a file is deleted when
no other one has the next inode. -/
def FileCall.Ready (d : Disk) : FileCall → Prop
  | DeleteFile a => ∀ n, inodeOf d a = some n → ∀ i, InUse d i → entryOf d ROOT_SECTOR i ≠ n + 1
  | WriteFile _ _ count => count < 2 ^ 31
  | ReadFile _ _ output count => count < 2 ^ 31 ∧ output + count ≤ 2 ^ 64
  | _ => True

section

variable {s : State} {f : Files} {a b : FileName}

theorem Stores.CreateFile (h : Stores s.disk f) (a : FileName) :
  ∃ f', Files.Step f
      ⟨.CreateFile a, spaceOf s.disk, .number (run (minix_CreateFile a.path) s).1⟩ f' ∧
    Stores (run (minix_CreateFile a.path) s).2.disk f'
  := by
  have hdisk := (readOnly_lookupNew a.path).disk s
  rw [run_CreateFile]
  rcases a.run_lookupNew s with ⟨hlook, hn⟩ | ⟨hn, filename, hlook, hname⟩
  · simp only [hlook, hdisk]
    refine ⟨f, Files.Step.CreateFile_exists ?_, h⟩
    obtain ⟨n, hn⟩ := Option.ne_none_iff_exists'.mp hn
    rw [h.present hn]
    simp
  · simp only [hlook]
    have hnone := h.absent hn
    cases hk : freeInode s.disk with
    | none =>
        rw [writeFile_full _ _ _ (by rw [hdisk, hk]), hdisk]
        refine ⟨f, Files.Step.CreateFile_full hnone ?_, h⟩
        simp [spaceOf, hk]
    | some k =>
        obtain ⟨hcreated, hfile, hempty, hroot, hfresh⟩ := h.createdFile hk
        have hentry : freeEntry (Minix.createdFile s.disk k) ROOT_SECTOR
            = freeEntry s.disk ROOT_SECTOR := by
          rw [freeEntry, freeEntry, hroot]
        rw [run_writeFile _ _ _ (by rw [hdisk, hk]), run_addEntry]
        simp only [hdisk, hentry]
        cases hi : freeEntry s.disk ROOT_SECTOR with
        | none =>
            refine ⟨f, Files.Step.CreateFile_full hnone ?_, hcreated⟩
            simp [spaceOf, hi]
        | some i =>
            refine ⟨_, Files.Step.CreateFile hnone ?_ ?_, ?_⟩
            · simp [spaceOf, hk]
            · simp [spaceOf, hi]
            rw [← hempty]
            apply hcreated.enter _ (hentry.trans hi) hfile _ hname
            · rw [(h.dir.congr hroot).2, hn]
            · intro j hj
              rw [entryOf, hroot]
              exact hfresh j ((inUse_congr hroot).mp hj)

theorem Stores.DeleteFile (h : Stores s.disk f) (hready : (FileCall.DeleteFile a).Ready s.disk) :
  ∃ f', Files.Step f
      ⟨.DeleteFile a, spaceOf s.disk, .number (run (minix_DeleteFile a.path) s).1⟩ f' ∧
    Stores (run (minix_DeleteFile a.path) s).2.disk f'
  := by
  have hdisk := (readOnly_lookupFile a.path).disk s
  rw [run_DeleteFile, a.run_lookupFile]
  cases hi : slotOf s.disk a with
  | none =>
      simp only [hdisk]
      exact ⟨f, Files.Step.DeleteFile_missing (h.absent (inodeOf_eq_none.mpr hi)), h⟩
  | some i =>
      have hn : inodeOf s.disk a = some (entryOf s.disk ROOT_SECTOR i) := by
        rw [inodeOf, hi]
        rfl
      obtain ⟨hresult, hdeleted⟩ := run_eraseFile (run (lookupFile a.path) s).2 ROOT_SECTOR
        (entryOf s.disk ROOT_SECTOR i) i
      have herased := Erased.file (entryOf s.disk ROOT_SECTOR i) (run (lookupFile a.path) s).2
      rw [hdisk] at herased
      simp only [hresult, hdeleted]
      refine ⟨_, Files.Step.DeleteFile ?_, h.erased (at_of_slotOf hi) (hready _ hn) herased⟩
      rw [h.present hn]
      simp

theorem Stores.RenameFile (h : Stores s.disk f) (a b : FileName) :
  ∃ f', Files.Step f
      ⟨.RenameFile a b, spaceOf s.disk, .number (run (minix_RenameFile a.path b.path) s).1⟩ f' ∧
    Stores (run (minix_RenameFile a.path b.path) s).2.disk f'
  := by
  have hdisk := (readOnly_lookupMove a.path b.path).disk s
  rw [run_RenameFile]
  rcases a.run_lookupMove b s with ⟨hlook, hb⟩ | ⟨hb, ⟨hi, hlook⟩ | ⟨i, filename, hi, hlook, hname⟩⟩
  · simp only [hlook, hdisk]
    refine ⟨f, Files.Step.RenameFile_exists ?_, h⟩
    obtain ⟨n, hn⟩ := Option.ne_none_iff_exists'.mp hb
    rw [h.present hn]
    simp
  · simp only [hlook, hdisk]
    exact ⟨f, Files.Step.RenameFile_missing (h.absent hb) (h.absent (inodeOf_eq_none.mpr hi)), h⟩
  · simp only [hlook, run_moveEntry, hdisk]
    have hat := at_of_slotOf hi
    have hfile := h.files i hat.inUse
    have hn : inodeOf s.disk a = some (entryOf s.disk ROOT_SECTOR i) := by
      rw [inodeOf, hi]
      rfl
    obtain ⟨hintact, hfile'⟩ := hfile.update_root h.owned
      (sector (clearEntry (contents (s.disk ROOT_SECTOR) []) i))
    have hremoved := h.remove hat h.owned rfl fun j hj _ =>
      ⟨⟨id, rfl, rfl, fun _ => rfl⟩, (h.files j hj).bit⟩
    cases hj : freeEntry (removed s.disk ROOT_SECTOR i) ROOT_SECTOR with
    | none => exact absurd hj ((freeEntry_removed s.disk hat.1).mpr (Or.inl rfl))
    | some j =>
        refine ⟨_, Files.Step.RenameFile (h.absent hb) (h.present hn), ?_⟩
        rw [← hintact.bytesOf_eq hfile]
        apply hremoved.enter _ hj hfile' _ hname
        · rw [(h.dir.removed hat).2, hb]
          split_ifs <;> rfl
        · intro l hl
          obtain ⟨hl, hne⟩ := inUse_removed.mp hl
          rw [entryOf_removed_of_ne hl.1 hne]
          intro heq
          exact hne (h.dir.links l i hl hat.inUse heq)

theorem Stores.WriteFile (h : Stores s.disk f) (a : FileName) (input : Memory) (count : ℕ) :
  ∃ f', Files.Step f ⟨.WriteFile a input count, spaceOf s.disk,
      .number (run (minix_WriteFile a.path input count) s).1⟩ f' ∧
    Stores (run (minix_WriteFile a.path input count) s).2.disk f'
  := by
  have hdisk := (readOnly_FindEntry a.path).disk s
  have hfound := a.run_FindEntry s
  cases hn : inodeOf s.disk a with
  | none =>
      rw [hn, Option.getD_none] at hfound
      rw [minix_WriteFile, run_bind, if_pos hfound, run_pure]
      exact ⟨f, Files.Step.WriteFile_missing (h.absent hn), by rwa [hdisk]⟩
  | some n =>
      rw [hn, Option.getD_some] at hfound
      have hfile := h.fileAt hn
      have hwrite : (if 512 < (count : ℤ) then (512 : ℤ) else count) = (min count 512 : ℕ) := by
        split_ifs <;> omega
      rw [run_WriteFile (by rw [hfound]; exact hfile.table.ne_zero), hfound, hwrite]
      simp only [hdisk]
      cases hzone : (run (minix_WriteFile.withZone (contents (s.disk (inodeSector n)) [])
          (inodeOffset n)) (run (FindEntry a.path) s).2).1 with
      | none =>
          rw [withZone_none hzone, hdisk]
          refine ⟨f, Files.Step.WriteFile_full ?_ ?_, h⟩
          all_goals
            have hrun := run_withZone n (run (FindEntry a.path) s).2
            dsimp only at hrun
            rw [hdisk] at hrun
            rw [hrun] at hzone
            split_ifs at hzone with hno
          · rw [h.present hn, bytesOf, hfile.empty hno]
            rfl
          · cases hfree : freeZone s.disk with
            | none => simp [spaceOf, hfree]
            | some z =>
                rw [hfree] at hzone
                cases hzone
      | some buf =>
          rw [← hdisk] at hzone
          have htaken := withZone_taken hzone
          rw [hdisk] at htaken
          exact ⟨_, Files.Step.WriteFile (h.present hn),
            h.stored hn htaken input (Nat.min_le_right count 512)⟩

/-- What a read returns of a file that fits into its zone. -/
theorem readResult_padded {size zone output count : ℕ} {data mem : Memory} {l : List Byte}
    (hsize : size ≤ 512) (hempty : zone = 0 → size = 0) (hcount : count < 2 ^ 31)
    (hend : output + count ≤ 2 ^ 64) (hlen : l.length = size)
    (hdata : ∀ j < size, data j = chars l j) :
  readResult size zone data mem output count =
    (((min l.length count : ℕ) : ℤ), padded mem output count l)
  := by
  have htoU32 : toU32 count = count := toU32_natCast (by omega)
  -- What is copied of the file, and the zero bytes behind it.
  have hbytes : ∀ k ≤ size, (if 0 < (k : ℤ) ∧ zone ≠ 0 then mem.copy output data (toU64 k) else mem)
      = mem.copy output data k := by
    intro k hk
    split_ifs with hcopy
    · rw [toU64_natCast (by omega)]
    · obtain rfl : k = 0 := by
        by_contra hpos
        exact hcopy ⟨by omega, fun hzero => hpos (by have := hempty hzero; omega)⟩
      funext x
      rw [Memory.copy, Memory.splice, if_neg (by omega)]
  rw [readResult, htoU32]
  by_cases hlt : size < count
  · have hpad : s32 (toU32 ((count : ℤ) - size)) = (count - size : ℕ) := by
      rw [s32, toU32, if_pos (by omega)]
      omega
    have hbehind : toU64 ((output : ℤ) + size) = output + size := by
      rw [toU64]
      omega
    simp only [if_pos hlt, s32_of_lt (show size < 2 ^ 31 by omega), hpad, hbytes size le_rfl]
    rw [if_pos (by omega), toU64_natCast (by omega), hbehind, hlen, Nat.min_eq_left hlt.le]
    congr 1
    funext x
    rw [padded, Memory.fill, Memory.splice, Memory.copy, Memory.splice]
    by_cases hin : output ≤ x ∧ x < output + count
    · rw [if_pos hin]
      by_cases hfile : x < output + size
      · rw [if_neg (by omega), if_pos ⟨hin.1, hfile⟩, hdata _ (by omega)]
      · rw [if_pos (by omega), chars_of_length_le (by omega)]
    · rw [if_neg hin, if_neg (by omega), if_neg (by omega)]
  · simp only [if_neg hlt, hbytes count (by omega)]
    rw [if_neg (by omega), hlen, Nat.min_eq_right (by omega)]
    congr 1
    funext x
    rw [padded, Memory.copy, Memory.splice]
    split_ifs with hin
    · exact hdata _ (by omega)
    · rfl

theorem Stores.ReadFile (h : Stores s.disk f) (a : FileName) (mem : Memory) {output count : ℕ}
    (hready : (FileCall.ReadFile a mem output count).Ready s.disk) :
  ∃ f', Files.Step f ⟨.ReadFile a mem output count, spaceOf s.disk,
      .read (run (minix_ReadFile a.path mem output count) s).1.1
        (run (minix_ReadFile a.path mem output count) s).1.2⟩ f' ∧
    Stores (run (minix_ReadFile a.path mem output count) s).2.disk f'
  := by
  obtain ⟨hcount, hend⟩ := hready
  have hfound := a.run_FindEntry s
  rw [(readOnly_ReadFile a.path mem output count).disk s]
  cases hn : inodeOf s.disk a with
  | none =>
      rw [hn, Option.getD_none] at hfound
      have hmissing : (run (minix_ReadFile a.path mem output count) s).1 = (-ENOENT, mem) := by
        rw [minix_ReadFile, run_bind, if_pos hfound, run_pure]
      rw [hmissing]
      exact ⟨f, Files.Step.ReadFile_missing (h.absent hn), h⟩
  | some n =>
      rw [hn, Option.getD_some] at hfound
      have hfile := h.fileAt hn
      have hsize := hfile.size
      have hlen : (bytesOf s.disk n).length = sizeOf s.disk n := by
        rw [bytesOf, List.length_map, List.length_range]
      rw [run_ReadFile hfound hfile.table.ne_zero,
        readResult_padded hsize hfile.empty hcount hend hlen]
      · exact ⟨f, Files.Step.ReadFile (h.present hn), h⟩
      · intro j hj
        rw [bytesOf, chars, List.getD_eq_getElem?_getD, List.getElem?_map, List.getElem?_range hj,
          Option.map_some, Option.getD_some, contents_lt _ _ (by omega), contents_lt _ _ (by omega)]

end

/-! ### Runs -/

/-- A call through the table of functions; between the calls anything may happen to what
surrounds the disk. -/
def FileEvent.Step (s : State) (e : FileEvent) (t : State) : Prop :=
  e.space = spaceOf s.disk ∧ e.result = (run e.call.call.perform s).1 ∧
    t.disk = (run e.call.call.perform s).2.disk

theorem Stores.step {s t : State} {f : Files} {e : FileEvent} (h : Stores s.disk f)
    (hready : e.call.Ready s.disk) (hstep : e.Step s t) :
  ∃ f', Files.Step f e f' ∧ Stores t.disk f'
  := by
  obtain ⟨call, space, result⟩ := e
  obtain ⟨hspace, hresult, hdisk⟩ := hstep
  dsimp only at hspace hresult hdisk hready
  subst hspace hresult
  rw [hdisk]
  cases call
  all_goals
    simp only [FileCall.call, Vfs.Call.perform, Vfs.active_fs, Vfs.minix_driver, run_bind, run_pure]
  case CreateFile a => exact h.CreateFile a
  case DeleteFile a => exact h.DeleteFile hready
  case RenameFile a b => exact h.RenameFile a b
  case WriteFile a input count => exact h.WriteFile a input count
  case ReadFile a mem output count => exact h.ReadFile a mem hready

/-- What a call does at a state. -/
def FileEvent.at (s : State) (c : FileCall) : FileEvent :=
  ⟨c, spaceOf s.disk, (run c.call.perform s).1⟩

def nameA : FileName := ⟨ascii "a", by decide, by decide, by decide, by decide, by decide⟩

def nameB : FileName := ⟨ascii "b", by decide, by decide, by decide, by decide, by decide⟩

theorem twoFiles_at {a : FileName} {i : ℕ} (h : At twoFiles a i) :
  i = 2 ∧ a = nameA ∨ i = 3 ∧ a = nameB
  := by
  obtain ⟨hi, hused, hname⟩ := h
  have huse : i < 4 := by
    by_contra hge
    apply hused
    clear hused hname
    revert i
    decide
  interval_cases i
  · exact absurd (strcmp_unique a.ends (by decide) hname (by decide)) a.dot
  · exact absurd (strcmp_unique a.ends (by decide) hname (by decide)) a.dots
  · left
    exact ⟨rfl, FileName.ext (strcmp_unique a.ends (by decide) hname (by decide))⟩
  · right
    exact ⟨rfl, FileName.ext (strcmp_unique a.ends (by decide) hname (by decide))⟩

theorem twoFiles_inUse {i : ℕ} (h : InUse twoFiles i) :
  i = 2 ∨ i = 3
  := by
  obtain ⟨hi, hused, hdots⟩ := h
  have huse : i < 4 := by
    by_contra hge
    apply hused
    clear hused hdots
    revert i
    decide
  interval_cases i
  · exact absurd (Or.inl (by decide)) hdots
  · exact absurd (Or.inr (by decide)) hdots
  · left; rfl
  · right; rfl

theorem twoFiles_stores :
  Stores twoFiles fun a => (inodeOf twoFiles a).map (bytesOf twoFiles)
  := by
  refine ⟨twoFiles_owned, ⟨?_, ?_⟩, ?_, fun _ => rfl⟩
  · intro a i j hi hj
    rcases twoFiles_at hi with ⟨rfl, rfl⟩ | ⟨rfl, rfl⟩
    · rcases twoFiles_at hj with ⟨rfl, -⟩ | ⟨-, hname⟩
      · rfl
      · exact absurd hname (by decide)
    · rcases twoFiles_at hj with ⟨-, hname⟩ | ⟨rfl, -⟩
      · exact absurd hname (by decide)
      · rfl
  · intro i j hi hj
    rcases twoFiles_inUse hi with rfl | rfl <;> rcases twoFiles_inUse hj with rfl | rfl
    all_goals decide
  · intro i hi
    rcases twoFiles_inUse hi with rfl | rfl
    all_goals
      refine ⟨by decide, ⟨by decide, by decide⟩, by decide, ?_, by decide, fun _ => by decide⟩
      unfold IsDir
      decide

theorem twoFiles_ready :
  (FileCall.DeleteFile nameB).Ready twoFiles
  := by
  have hinode : inodeOf twoFiles nameB = some 4 := by decide +kernel
  intro n hn i hi
  rw [hinode, Option.some.injEq] at hn
  subst hn
  rcases twoFiles_inUse hi with rfl | rfl
  all_goals decide

theorem FileEvent.step_at (s : State) (c : FileCall) :
  (FileEvent.at s c).Step s (run c.call.perform s).2
  := ⟨rfl, rfl, rfl⟩

end Minix
