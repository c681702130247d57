import LySystem.Minix.Effect
import Mathlib.Data.Set.Insert

/-!
# Sets of directories

The directories of a disk are the least set of sectors that contains the root directory and,
with a directory, those its entries name.  Any such set can stand for them while a call is
under way: a write keeps it closed when it keeps what lookups read of it.
-/

namespace Minix

open CString

/-- A set of sectors that contains the directories: the root directory and, with a directory,
those its entries name.  Apart from the sector 0 they lie behind the inodes. -/
structure Closed (d : Disk) (S : Set ℕ) : Prop where
  root : ROOT_SECTOR ∈ S
  apart : ∀ x ∈ S, x = 0 ∨ 265 < x
  named : ∀ x ∈ S, ∀ i < 16, entryOf d x i ≠ 0 → InTable (entryOf d x i)
  sub : ∀ x ∈ S, ∀ i < 16, entryOf d x i ≠ 0 → IsDir d (entryOf d x i) →
    zoneOf d (entryOf d x i) 0 * 2 ∈ S

section

variable {d d' : Disk} {S : Set ℕ}

theorem Closed.live (h : Closed d S) {x : ℕ} (hx : LiveDir d x) :
  x ∈ S
  := by
  induction hx with
  | root => apply h.root
  | sub _ hi hused hdir ih => apply h.sub _ ih _ hi hused hdir

theorem Closed.inTable (h : Closed d S) {n : ℕ} (hn : Named d n) :
  InTable n
  := by
  obtain ⟨hused, x, i, hx, hi, rfl⟩ := hn
  apply h.named x (h.live hx) i hi hused

/-- The directories themselves. -/
theorem Closed.of_live (hnamed : ∀ n, Named d n → InTable n)
    (hapart : ∀ x, LiveDir d x → x = 0 ∨ 265 < x) :
  Closed d {x | LiveDir d x}
  := by
  constructor
  · apply LiveDir.root
  · apply hapart
  · intro x hx i hi hused
    exact hnamed _ ⟨hused, x, i, hx, hi, rfl⟩
  · intro x hx i hi hused hdir
    apply LiveDir.sub hx hi hused hdir

/-- A set that is closed contains no bitmap and no inodes. -/
theorem Closed.not_system (h : Closed d S) {x : ℕ} (hx : x ∈ S) :
  x ≠ INODE_BITMAP_LBA ∧ x ≠ ZONE_BITMAP_LBA ∧ ∀ n, InTable n → x ≠ inodeSector n
  := by
  have hcases := h.apart x hx
  refine ⟨?_, ?_, ?_⟩
  · rw [INODE_BITMAP_LBA]
    omega
  · rw [ZONE_BITMAP_LBA]
    omega
  · intro n hn
    have := hn.sector
    omega

/-! ### Records -/

theorem modeOf_congr {n : ℕ} (h : d' (inodeSector n) = d (inodeSector n)) :
  modeOf d' n = modeOf d n
  := by
  rw [modeOf, h, modeOf]

theorem zoneOf_congr {n : ℕ} (h : d' (inodeSector n) = d (inodeSector n)) (z : ℕ) :
  zoneOf d' n z = zoneOf d n z
  := by
  rw [zoneOf, h, zoneOf]

theorem isDir_congr {n : ℕ} (h : modeOf d' n = modeOf d n) :
  IsDir d' n ↔ IsDir d n
  := by
  rw [IsDir, h, IsDir]

theorem entryOf_congr {x : ℕ} (h : d' x = d x) (i : ℕ) :
  entryOf d' x i = entryOf d x i
  := by
  rw [entryOf, h, entryOf]

/-- The zones of all inodes but `n` are those of `d`, and no other inode becomes that of a
directory. -/
structure Rezoned (d d' : Disk) (n : ℕ) : Prop where
  zones : ∀ m z, InTable m → m ≠ n → z < 7 → zoneOf d' m z = zoneOf d m z
  modes : ∀ m, InTable m → m ≠ n → IsDir d' m → IsDir d m

/-- The inodes of the two disks are the same. -/
def SameTable (d d' : Disk) : Prop := ∀ lba, 10 ≤ lba → lba ≤ 265 → d' lba = d lba

theorem SameTable.sector (h : SameTable d d') {n : ℕ} (hn : InTable n) :
  d' (inodeSector n) = d (inodeSector n)
  := h _ hn.sector.1 hn.sector.2

theorem SameTable.update {x : ℕ} (h : x < 10 ∨ 265 < x) (y : Sector) :
  SameTable d (Function.update d x y)
  := by
  intro lba hlo hhi
  apply Function.update_of_ne
  omega

/-- The inode `n` has the record `w`, which may have changed the mode of the next one. -/
structure Rewritten (d d' : Disk) (n : ℕ) (w : Memory) : Prop where
  self : ∀ z < 7, zoneOf d' n z = i_zone w 0 z
  mode : modeOf d' n = i_mode w 0
  zones : ∀ m z, InTable m → m ≠ n → z < 7 → zoneOf d' m z = zoneOf d m z
  modes : ∀ m, InTable m → m ≠ n → ¬ (m = n + 1 ∧ n % 16 ≠ 0) → modeOf d' m = modeOf d m
  next : n % 16 ≠ 0 → modeOf d' (n + 1) = i_unused w 0

theorem Recorded.rewritten {n : ℕ} {w : Memory} (h : Recorded d d' n w) (hn : InTable n) :
  Rewritten d d' n w
  := by
  constructor
  · intro z hz
    rw [zoneOf, i_zone, Nat.add_assoc, h.load_self hn.ne_zero (by omega), i_zone, Nat.zero_add]
  · exact h.load_self hn.ne_zero (k := 0) (j := 2) (by decide)
  · intro m z hm hne hz
    rw [zoneOf, zoneOf, i_zone, i_zone, Nat.add_assoc]
    apply h.load_other hn.ne_zero hm.ne_zero hne.symm (by omega) (by omega)
  · intro m hm hne hnext
    apply h.modeOf_other hn.ne_zero hm.ne_zero hne.symm hnext
  · apply h.modeOf_next hn.ne_zero

/-- Only the inodes matter. -/
theorem Rewritten.congr {e e' : Disk} {n : ℕ} {w : Memory} (h : Rewritten d d' n w)
    (hn : InTable n) (he : SameTable e d) (he' : SameTable d' e') :
  Rewritten e e' n w
  := by
  constructor
  · intro z hz
    rw [zoneOf_congr (he'.sector hn), h.self z hz]
  · rw [modeOf_congr (he'.sector hn), h.mode]
  · intro m z hm hne hz
    rw [zoneOf_congr (he'.sector hm), h.zones m z hm hne hz, zoneOf_congr (he.sector hm)]
  · intro m hm hne hnext
    rw [modeOf_congr (he'.sector hm), h.modes m hm hne hnext, modeOf_congr (he.sector hm)]
  · intro hmod
    have hn1 := hn.1
    have hn2 := hn.2
    have htable : InTable (n + 1) := ⟨by omega, by omega⟩
    rw [modeOf_congr (he'.sector htable), h.next hmod]

/-- No directory comes into being next to the inode. -/
theorem Rewritten.rezoned {n : ℕ} {w : Memory} (h : Rewritten d d' n w)
    (hunused : i_unused w 0 = 0) :
  Rezoned d d' n
  := by
  constructor
  · apply h.zones
  · intro m hm hne hdir
    by_cases hnext : m = n + 1 ∧ n % 16 ≠ 0
    · obtain ⟨rfl, hmod⟩ := hnext
      rw [IsDir, h.next hmod, hunused] at hdir
      cases hdir
    · rwa [isDir_congr (h.modes m hm hne hnext)] at hdir

/-- The mode of the root directory is that of the first record. -/
theorem Rewritten.isDir_one {n : ℕ} {w : Memory} (h : Rewritten d d' n w) (hn : InTable n)
    (hone : n ≠ 1) :
  IsDir d' 1 ↔ IsDir d 1
  := by
  apply isDir_congr
  apply h.modes 1 ⟨by decide, by decide⟩ hone.symm
  have := hn.1
  omega

/-- Behind the inodes a record changes nothing. -/
theorem Recorded.sector_eq {n : ℕ} {w : Memory} (h : Recorded d d' n w) (hn : InTable n) {x : ℕ}
    (hx : x = 0 ∨ 265 < x) :
  d' x = d x
  := by
  have := hn.sector
  apply h.others
  · omega
  · rw [ZONE_BITMAP_LBA]
    omega

/-- The fields of the inodes after a write to the file `n`: its size and its first zone may
have changed. -/
theorem stored_load {e : Disk} {n : ℕ} {buf : Memory}
    (hz : Zoned d e (contents (d (inodeSector n)) []) buf (inodeOffset n)) (hn : InTable n)
    (hapart : 265 < i_zone buf (inodeOffset n) 0 * 2) (data : Sector) (to_write : ℤ) {m k j : ℕ}
    (hm : InTable m) (hk : k + j ≤ 32)
    (hother : m ≠ n ∨ (k + j ≤ 4 ∨ 8 ≤ k) ∧ (k + j ≤ 14 ∨ 16 ≤ k)) :
  (contents (stored e n buf data to_write (inodeSector m)) []).load (inodeOffset m + k) j =
    (contents (d (inodeSector m)) []).load (inodeOffset m + k) j
  := by
  have hsec := hm.sector
  have hoffm := inodeOffset_le hm.ne_zero
  apply Memory.load_congr
  intro i hi
  by_cases hsame : inodeSector m = inodeSector n
  · have hm1 := hm.1
    have hn1 := hn.1
    have hm0 := inodeOffset_eq hm.ne_zero
    have hn0 := inodeOffset_eq hn.ne_zero
    rw [stored, hsame, Function.update_self, contents_sector _ _ (by omega)]
    rw [inodeSector_eq hm.ne_zero, inodeSector_eq hn.ne_zero] at hsame
    rw [grow_outside _ _ (by omega), hz.buffer _ (by omega)]
  · rw [stored, Function.update_of_ne hsame, Function.update_of_ne (by omega), hz.disk]
    rw [ZONE_BITMAP_LBA]
    omega

section

variable {e : Disk} {n : ℕ} {buf : Memory}
  (hz : Zoned d e (contents (d (inodeSector n)) []) buf (inodeOffset n)) (hn : InTable n)
  (hapart : 265 < i_zone buf (inodeOffset n) 0 * 2) (data : Sector) (to_write : ℤ)
include hz hn hapart

theorem stored_modeOf {m : ℕ} (hm : InTable m) :
  modeOf (stored e n buf data to_write) m = modeOf d m
  := stored_load hz hn hapart data to_write hm (k := 0) (j := 2) (by decide) (Or.inr (by decide))

theorem stored_zoneOf {m z : ℕ} (hm : InTable m) (hz7 : z < 7) (hne : m ≠ n ∨ z ≠ 0) :
  zoneOf (stored e n buf data to_write) m z = zoneOf d m z
  := by
  rw [zoneOf, zoneOf, i_zone, i_zone, Nat.add_assoc]
  apply stored_load hz hn hapart data to_write hm
  · omega
  · omega

theorem stored_rezoned :
  Rezoned d (stored e n buf data to_write) n
  := by
  constructor
  · intro m z hm hne hz7
    apply stored_zoneOf hz hn hapart data to_write hm hz7 (Or.inl hne)
  · intro m hm _ hdir
    rwa [isDir_congr (stored_modeOf hz hn hapart data to_write hm)] at hdir

omit hz hapart in
/-- The zone of the file written. -/
theorem stored_zoneOf_self :
  zoneOf (stored e n buf data to_write) n 0 = i_zone buf (inodeOffset n) 0
  := by
  have hoff := inodeOffset_le hn.ne_zero
  have hsec := hn.sector
  rw [zoneOf, i_zone, stored, Function.update_self, load_contents_sector _ _ (by omega), i_zone]
  apply Memory.load_congr
  intro i hi
  apply grow_outside
  omega

/-- Behind the inodes only the data of the file has changed. -/
theorem stored_sector {x : ℕ} (hx : x = 0 ∨ 265 < x) (hne : x ≠ i_zone buf (inodeOffset n) 0 * 2) :
  stored e n buf data to_write x = d x
  := by
  have hsec := hn.sector
  rw [stored, Function.update_of_ne (by omega), Function.update_of_ne hne, hz.disk]
  rw [ZONE_BITMAP_LBA]
  omega

omit hz in
/-- The zones marked are those marked with the zone of the file. -/
theorem zoneUsed_stored (k : ℕ) :
  ZoneUsed (stored e n buf data to_write) k ↔ ZoneUsed e k
  := by
  have hsec := hn.sector
  apply zoneUsed_congr
  rw [stored, Function.update_of_ne (by rw [ZONE_BITMAP_LBA]; omega), Function.update_of_ne]
  rw [ZONE_BITMAP_LBA]
  omega

end

/-! ### New inodes -/

theorem i_zone_zero (z : ℕ) :
  i_zone (fun _ => 0) 0 z = 0
  := Memory.load_of_digits (v := 0) fun i _ => by rw [Nat.zero_div]; rfl

/-- The record of a new file is none of a directory, and has no zones. -/
theorem CreateFile_record :
  isDirMode (i_mode Site.CreateFile.record 0) = false ∧ i_unused Site.CreateFile.record 0 = 0 ∧
    ∀ z < 7, i_zone Site.CreateFile.record 0 z = 0
  := by
  decide +kernel

/-- The record of a new directory is that of a directory, and has one zone. -/
theorem CreateDir_record {z : ℕ} (hz : z < 4096) :
  isDirMode (i_mode (Site.CreateDir z).record 0) = true ∧
    i_unused (Site.CreateDir z).record 0 = 0 ∧ i_zone (Site.CreateDir z).record 0 0 = z ∧
    ∀ z' < 7, z' ≠ 0 → i_zone (Site.CreateDir z).record 0 z' = 0
  := by
  have hrest : ∀ z' < 7, i_zone (set_i_nlinks (set_i_size (set_i_mode (fun _ => 0) 0 0x41ED) 0 64)
      0 2) 0 z' = 0 := by decide +kernel
  refine ⟨?_, ?_, CreateDir_zone hz, ?_⟩
  · rw [i_mode, Site.record, set_i_zone, Memory.load_store_disjoint _ _ (by omega)]
    decide +kernel
  · rw [i_unused, Site.record, set_i_zone, Memory.load_store_disjoint _ _ (by omega)]
    decide +kernel
  · intro z' hz' hne
    rw [Site.record, i_zone_set_of_ne _ _ _ hne]
    apply hrest z' hz'

theorem createdFile_rewritten (d : Disk) {k : ℕ} (hk : freeInode d = some k) :
  Rewritten d (createdFile d k) (k + 1) Site.CreateFile.record
  := by
  have hn := InTable.of_freeInode hk
  have hrec := Recorded.of_recorded (marked INODE_BITMAP_LBA d k) (k + 1) Site.CreateFile.record
  apply (hrec.rewritten hn).congr hn
  · exact SameTable.update (Or.inl (show INODE_BITMAP_LBA < 10 by decide)) _
  · exact fun _ _ _ => rfl

theorem createdFile_not_dir {k : ℕ} (hk : freeInode d = some k) :
  ¬ IsDir (createdFile d k) (k + 1)
  := by
  rw [IsDir, (createdFile_rewritten d hk).mode, CreateFile_record.1]
  decide

/-- Behind the inodes a new file changes nothing. -/
theorem createdFile_sector (d : Disk) {k x : ℕ} (hk : freeInode d = some k)
    (hx : x = 0 ∨ 265 < x) :
  createdFile d k x = d x
  := by
  have hsec := (InTable.of_freeInode hk).sector
  rw [createdFile, recorded, Function.update_of_ne (by omega), marked, Function.update_of_ne]
  rw [INODE_BITMAP_LBA]
  omega

section

variable {k z x : ℕ} (hk : freeInode d = some k) (hz : 265 < z * 2)
include hk hz

theorem createdDir_rewritten :
  Rewritten d (createdDir d k z x) (k + 1) (Site.CreateDir z).record
  := by
  have hn := InTable.of_freeInode hk
  have hrec := Recorded.of_recorded (marked ZONE_BITMAP_LBA (marked INODE_BITMAP_LBA d k) z) (k + 1)
    (Site.CreateDir z).record
  apply (hrec.rewritten hn).congr hn
  · intro lba hlo hhi
    rw [marked, Function.update_of_ne, marked, Function.update_of_ne]
    · rw [INODE_BITMAP_LBA]
      omega
    · rw [ZONE_BITMAP_LBA]
      omega
  · apply SameTable.update
    right
    apply hz

/-- Behind the inodes a new directory changes its own sector only. -/
theorem createdDir_sector {y : ℕ} (hy : y = 0 ∨ 265 < y) (hne : y ≠ z * 2) :
  createdDir d k z x y = d y
  := by
  have hsec := (InTable.of_freeInode hk).sector
  rw [createdDir, Function.update_of_ne hne, recorded, Function.update_of_ne (by omega), marked,
    Function.update_of_ne, marked, Function.update_of_ne]
  · rw [INODE_BITMAP_LBA]
    omega
  · rw [ZONE_BITMAP_LBA]
    omega

omit hz in
/-- The entries of the new directory are its own and that of its parent. -/
theorem createdDir_entries (hx : x = 0 ∨ 265 < x) {i : ℕ} (hi : i < 16) :
  entryOf (createdDir d k z x) (z * 2) i =
    if i = 1 then entryOf d x 0 else if i = 0 then k + 1 else 0
  := by
  have hsec := (InTable.of_freeInode hk).sector
  have htable := InTable.of_freeInode hk
  have hparent : entryOf (recorded (marked ZONE_BITMAP_LBA (marked INODE_BITMAP_LBA d k) z) (k + 1)
      (Site.CreateDir z).record) x 0 = entryOf d x 0 := by
    apply entryOf_congr
    rw [recorded, Function.update_of_ne (by omega), marked, Function.update_of_ne, marked,
      Function.update_of_ne]
    · rw [INODE_BITMAP_LBA]
      omega
    · rw [ZONE_BITMAP_LBA]
      omega
  have hlt : entryOf d x 0 < 2 ^ 16 := Memory.load_lt _ _ 2
  rw [createdDir, hparent, entryOf, Function.update_self, entryInode,
    load_contents_sector _ _ (by omega), ← entryInode, entryInode_dirData,
    Nat.mod_eq_of_lt hlt, Nat.mod_eq_of_lt]
  have := htable.2
  omega

omit hk hz in
theorem createdDir_names :
  strcmp (entryName (contents (createdDir d k z x (z * 2)) []) 0) (ascii ".") = 0 ∧
    strcmp (entryName (contents (createdDir d k z x (z * 2)) []) 1) (ascii "..") = 0
  := by
  rw [createdDir, Function.update_self, strcmp_sector _ (by decide) (by decide),
    strcmp_sector _ (by decide) (by decide)]
  apply dirData_names

end

theorem zoneUsed_createdDir {k z : ℕ} (x : ℕ) {j : ℕ} (hj : j < 4096) :
  ZoneUsed (createdDir d k z x) j ↔ j = z ∨ ZoneUsed d j
  := by
  rw [zoneUsed_congr (d := marked ZONE_BITMAP_LBA d z), zoneUsed_marked _ hj]
  apply createdDir_zoneBitmap

theorem zoneUsed_createdFile (d : Disk) (k j : ℕ) :
  ZoneUsed (createdFile d k) j ↔ ZoneUsed d j
  := by
  have := ten_le_inodeSector (k + 1)
  apply zoneUsed_congr
  rw [createdFile, recorded, Function.update_of_ne (by rw [ZONE_BITMAP_LBA]; omega), marked,
    Function.update_of_ne (by decide)]

/-! ### Writes -/

/-- What lookups read is as before. -/
theorem Closed.transfer (h : Closed d S) (hS : ∀ x ∈ S, d' x = d x)
    (hmodes : ∀ m, InTable m → IsDir d' m → IsDir d m)
    (hzones : ∀ m, InTable m → IsDir d' m → zoneOf d' m 0 = zoneOf d m 0) :
  Closed d' S
  := by
  constructor
  · apply h.root
  · apply h.apart
  · intro x hx i hi hused
    rw [entryOf_congr (hS x hx)] at hused ⊢
    apply h.named x hx i hi hused
  · intro x hx i hi hused hdir
    rw [entryOf_congr (hS x hx)] at hused hdir ⊢
    have htable := h.named x hx i hi hused
    rw [hzones _ htable hdir]
    apply h.sub x hx i hi hused (hmodes _ htable hdir)

/-- The inodes and the directories are as before. -/
theorem Closed.frame (h : Closed d S) (hS : ∀ x ∈ S, d' x = d x) (htable : SameTable d d') :
  Closed d' S
  := by
  apply h.transfer hS
  · intro m hm hdir
    rwa [isDir_congr (modeOf_congr (htable.sector hm))] at hdir
  · intro m hm _
    apply zoneOf_congr (htable.sector hm)

/-- A sector whose entries name inodes of the set. -/
def Holds (d : Disk) (S : Set ℕ) (x : ℕ) : Prop :=
  ∀ i < 16, entryOf d x i ≠ 0 → InTable (entryOf d x i) ∧
    (IsDir d (entryOf d x i) → zoneOf d (entryOf d x i) 0 * 2 ∈ S)

theorem Closed.holds (h : Closed d S) {x : ℕ} (hx : x ∈ S) :
  Holds d S x
  := fun i hi hused => ⟨h.named x hx i hi hused, h.sub x hx i hi hused⟩

theorem Closed.of_holds (hroot : ROOT_SECTOR ∈ S) (hapart : ∀ x ∈ S, x = 0 ∨ 265 < x)
    (h : ∀ x ∈ S, Holds d S x) :
  Closed d S
  := ⟨hroot, hapart, fun x hx i hi hused => (h x hx i hi hused).1,
    fun x hx i hi hused => (h x hx i hi hused).2⟩

/-- The inode `n` gets another record, none of a directory. -/
theorem Closed.file {n : ℕ} (h : Closed d S) (hr : Rezoned d d' n) (hS : ∀ x ∈ S, d' x = d x)
    (hfile : ¬ IsDir d' n) :
  Closed d' S
  := by
  apply h.transfer hS
  · intro m hm hdir
    by_cases hmn : m = n
    · exact absurd (hmn ▸ hdir) hfile
    · apply hr.modes m hm hmn hdir
  · intro m hm hdir
    by_cases hmn : m = n
    · exact absurd (hmn ▸ hdir) hfile
    · apply hr.zones m 0 hm hmn (by decide)

/-- The inode `n` becomes that of a directory, whose sector joins the set. -/
theorem Closed.directory {n z : ℕ} (h : Closed d S) (hr : Rezoned d d' n)
    (hzone : zoneOf d' n 0 = z) (hS : ∀ x ∈ S, x ≠ z * 2 → d' x = d x) (hapart : 265 < z * 2)
    (hnew : ∀ i < 16, entryOf d' (z * 2) i ≠ 0 → entryOf d' (z * 2) i = n ∧ InTable n ∨
      ∃ x ∈ S, ∃ j < 16, entryOf d x j = entryOf d' (z * 2) i) :
  Closed d' (S ∪ {x | x = z * 2})
  := by
  -- An inode the set named before, or the new one.
  have hnamed : ∀ m, InTable m → (m ≠ n → IsDir d m → zoneOf d m 0 * 2 ∈ S) → IsDir d' m →
      zoneOf d' m 0 * 2 ∈ S ∪ {x | x = z * 2} := by
    intro m hm hsub hdir
    by_cases hmn : m = n
    · right
      rw [hmn, hzone]
      rfl
    · left
      rw [hr.zones m 0 hm hmn (by decide)]
      apply hsub hmn (hr.modes m hm hmn hdir)
  apply Closed.of_holds
  · left
    apply h.root
  · rintro x (hx | rfl)
    · apply h.apart x hx
    · right
      apply hapart
  · intro x hx i hi hused
    by_cases hxz : x = z * 2
    · subst hxz
      rcases hnew i hi hused with ⟨heq, hn⟩ | ⟨y, hy, j, hj, heq⟩
      · rw [heq]
        exact ⟨hn, hnamed n hn fun hne => absurd rfl hne⟩
      · rw [← heq] at hused ⊢
        have htable := h.named y hy j hj hused
        exact ⟨htable, hnamed _ htable fun _ => h.sub y hy j hj hused⟩
    · have hold : x ∈ S := hx.resolve_right hxz
      rw [entryOf_congr (hS x hold hxz)] at hused ⊢
      have htable := h.named x hold i hi hused
      exact ⟨htable, hnamed _ htable fun _ => h.sub x hold i hi hused⟩

/-- A new directory, in a zone that nothing is known of. -/
theorem Closed.createdDir (h : Closed d S) {k z x : ℕ} (hk : freeInode d = some k)
    (hapart : 265 < z * 2) (hlt : z < 4096) (hx : x ∈ S) :
  Closed (createdDir d k z x) (S ∪ {y | y = z * 2}) ∧ zoneOf (createdDir d k z x) (k + 1) 0 = z
  := by
  have hn := InTable.of_freeInode hk
  have hrec := createdDir_rewritten (x := x) hk hapart
  obtain ⟨-, hunused, hfirst, -⟩ := CreateDir_record hlt
  have hzone : zoneOf (Minix.createdDir d k z x) (k + 1) 0 = z := by
    rw [hrec.self 0 (by decide), hfirst]
  refine ⟨?_, hzone⟩
  apply h.directory (hrec.rezoned hunused) hzone
  · intro y hy hne
    apply createdDir_sector hk hapart (h.apart y hy) hne
  · apply hapart
  · intro i hi hused
    rw [createdDir_entries hk (h.apart x hx) hi] at hused ⊢
    split_ifs at hused ⊢
    · right
      exact ⟨x, hx, 0, by decide, rfl⟩
    · left
      exact ⟨rfl, hn⟩
    · exact absurd rfl hused

/-- A directory is written. -/
theorem Closed.update (h : Closed d S) {x : ℕ} (hx : x ∈ S) (hx0 : x ≠ 0) (y : Sector)
    (hentries : ∀ i < 16, entryOf (Function.update d x y) x i ≠ 0 →
      InTable (entryOf (Function.update d x y) x i) ∧
        (IsDir d (entryOf (Function.update d x y) x i) →
          zoneOf d (entryOf (Function.update d x y) x i) 0 * 2 ∈ S)) :
  Closed (Function.update d x y) S
  := by
  obtain ⟨-, -, hsystem⟩ := h.not_system hx
  have hsector : ∀ m, InTable m → Function.update d x y (inodeSector m) = d (inodeSector m) :=
    fun m hm => Function.update_of_ne (hsystem m hm).symm _ _
  apply Closed.of_holds h.root h.apart
  intro x' hx' i hi hused
  by_cases hsame : x' = x
  · subst hsame
    obtain ⟨htable, hsub⟩ := hentries i hi hused
    use htable
    rw [isDir_congr (modeOf_congr (hsector _ htable)), zoneOf_congr (hsector _ htable)]
    apply hsub
  · have hold : Function.update d x y x' = d x' := Function.update_of_ne hsame _ _
    rw [entryOf_congr hold] at hused ⊢
    have htable := h.named x' hx' i hi hused
    use htable
    rw [isDir_congr (modeOf_congr (hsector _ htable)), zoneOf_congr (hsector _ htable)]
    apply h.sub x' hx' i hi hused

theorem Closed.removed (h : Closed d S) {x : ℕ} (hx : x ∈ S) (hx0 : x ≠ 0) (i : ℕ) :
  Closed (removed d x i) S
  := by
  apply h.update hx hx0
  intro j hj hused
  rw [← Minix.removed, entryOf_removed _ _ _ _ hj] at hused ⊢
  split_ifs at hused ⊢ with hslot
  · exact absurd rfl hused
  · exact h.holds hx j hj hused

theorem Closed.withoutInode (h : Closed d S) {x : ℕ} (hx : x ∈ S) (hx0 : x ≠ 0) (n : ℕ) :
  Closed (withoutInode d x n) S
  := by
  rw [Minix.withoutInode]
  cases findInode _ fun inode => inode = n with
  | none => apply h
  | some i => apply h.removed hx hx0

theorem Closed.entered (h : Closed d S) {x n : ℕ} (hx : x ∈ S) (hx0 : x ≠ 0) (filename : List Byte)
    (i : ℕ) (hn : InTable n) (hsub : IsDir d n → zoneOf d n 0 * 2 ∈ S) :
  Closed (entered d x n filename i) S
  := by
  have hmod : n % 2 ^ 16 = n := by
    have := hn.2
    omega
  apply h.update hx hx0
  intro j hj hused
  rw [← Minix.entered, entryOf_entered _ _ _ _ _ _ hj, hmod] at hused ⊢
  split_ifs at hused ⊢ with hslot
  · exact ⟨hn, hsub⟩
  · exact h.holds hx j hj hused

theorem Closed.withEntry (h : Closed d S) {x n : ℕ} (hx : x ∈ S) (hx0 : x ≠ 0)
    (filename : List Byte) (hn : InTable n) (hsub : IsDir d n → zoneOf d n 0 * 2 ∈ S) :
  Closed (withEntry d x n filename) S
  := by
  rw [Minix.withEntry]
  cases freeEntry d x with
  | none => apply h
  | some i => apply h.entered hx hx0 filename i hn hsub

end

end Minix
