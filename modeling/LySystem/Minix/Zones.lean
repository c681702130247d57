import LySystem.Minix.Closed

/-!
# The owners of zones

Zones are taken from the bitmap in two places and freed one after the other when a file is
deleted.  Inode numbers are given out again while they are in use, so that an inode may lose
its zones, but no zone comes to be in two places of the inode table.
-/

namespace Minix

open CString Transition

/-- The zones in the inode table are marked as used, and each is in one place. -/
structure ZonesOwned (d : Disk) : Prop where
  /-- The zones up to that of the root directory are marked as used. -/
  system : ∀ k ≤ 219, ZoneUsed d k
  zones : ∀ n z, InTable n → z < 7 → zoneOf d n z ≠ 0 →
    219 ≤ zoneOf d n z ∧ zoneOf d n z ≤ 4095 ∧ ZoneUsed d (zoneOf d n z)
  once : ∀ n z n' z', InTable n → InTable n' → z < 7 → z' < 7 → zoneOf d n z ≠ 0 →
    zoneOf d n z = zoneOf d n' z' → n = n' ∧ z = z'
  /-- The zone 219 is that of the root directory. -/
  rootZone : ∀ n z, InTable n → z < 7 → zoneOf d n z = 219 → n = 1 ∧ IsDir d 1

/-- Besides, entries name inodes of the table, and `.` and `..` alone name the inode of the root
directory. -/
structure Owned (d : Disk) : Prop extends ZonesOwned d where
  named : ∀ n, Named d n → InTable n
  dots : ∀ x i, LiveDir d x → i < 16 → entryOf d x i = 1 → IsDots d x i

/-- The same while a call is under way, for a set of sectors that contains the directories. -/
structure Guarded (d : Disk) (S : Set ℕ) : Prop extends ZonesOwned d, Closed d S where
  dots : ∀ x ∈ S, ∀ i < 16, entryOf d x i = 1 → IsDots d x i

section

variable {d d' : Disk} {S : Set ℕ}

/-! ### The owners -/

/-- A zone that lies behind that of the root directory, and that is not in use. -/
def Fresh (d : Disk) (k : ℕ) : Prop := k ≤ 4095 ∧ ¬ ZoneUsed d k

theorem ZonesOwned.fresh (h : ZonesOwned d) {k : ℕ} (hk : Fresh d k) :
  219 < k ∧ ∀ n z, InTable n → z < 7 → zoneOf d n z ≠ k
  := by
  have hlo : 219 < k := by
    by_contra hle
    apply hk.2 (h.system k (by omega))
  use hlo
  rintro n z hn hz rfl
  apply hk.2 (h.zones n z hn hz (by omega)).2.2

/-- The zones of one inode change: each is given up, kept, or taken from the bitmap. -/
structure Exchanged (d d' : Disk) (n : ℕ) : Prop extends Rezoned d d' n where
  dirOne : IsDir d 1 → IsDir d' 1
  self : ∀ z < 7, zoneOf d' n z = 0 ∨ zoneOf d' n z = zoneOf d n z ∨
    z = 0 ∧ Fresh d (zoneOf d' n z) ∧ ZoneUsed d' (zoneOf d' n z)
  used : ∀ k ≤ 4095, ZoneUsed d k → ZoneUsed d' k ∨
    n ≠ 1 ∧ k ≠ 0 ∧ (∃ z < 7, zoneOf d n z = k) ∧ ∀ z < 7, zoneOf d' n z ≠ k

/-- A zone in the table has been there before, or has been taken. -/
theorem Exchanged.cases {n m z : ℕ} (hx : Exchanged d d' n) (hm : InTable m) (hz : z < 7)
    (hne : zoneOf d' m z ≠ 0) :
  zoneOf d' m z = zoneOf d m z ∨
    (m = n ∧ z = 0) ∧ Fresh d (zoneOf d' m z) ∧ ZoneUsed d' (zoneOf d' m z)
  := by
  by_cases hmn : m = n
  · subst hmn
    rcases hx.self z hz with hzero | hold | ⟨hfirst, hfresh⟩
    · apply absurd hzero hne
    · left
      apply hold
    · right
      exact ⟨⟨rfl, hfirst⟩, hfresh⟩
  · left
    apply hx.zones m z hm hmn hz

theorem ZonesOwned.exchanged {n : ℕ} (h : ZonesOwned d) (hn : InTable n) (hx : Exchanged d d' n) :
  ZonesOwned d'
  := by
  constructor
  · intro k hk
    apply (hx.used k (by omega) (h.system k hk)).resolve_right
    rintro ⟨hone, hk0, ⟨z, hz, rfl⟩, -⟩
    have hlo := (h.zones n z hn hz hk0).1
    apply hone (h.rootZone n z hn hz (by omega)).1
  · intro m z hm hz hne
    rcases hx.cases hm hz hne with hold | ⟨-, hfresh, hused⟩
    · rw [hold] at hne ⊢
      obtain ⟨hlo, hhi, hused⟩ := h.zones m z hm hz hne
      refine ⟨hlo, hhi, (hx.used _ hhi hused).resolve_right ?_⟩
      -- A zone that has been given up is no longer in the table.
      rintro ⟨-, -, ⟨z', hz', heq⟩, hgone⟩
      obtain ⟨rfl, rfl⟩ := h.once m z n z' hm hn hz hz' hne heq.symm
      apply hgone z hz hold
    · exact ⟨(h.fresh hfresh).1.le, hfresh.1, hused⟩
  · intro m z m' z' hm hm' hz hz' hne heq
    have hne' : zoneOf d' m' z' ≠ 0 := by
      rwa [← heq]
    rcases hx.cases hm hz hne with hold | ⟨hmn, hfresh, -⟩
    · rcases hx.cases hm' hz' hne' with hold' | ⟨-, hfresh', -⟩
      · rw [hold] at hne heq
        rw [hold'] at heq
        apply h.once m z m' z' hm hm' hz hz' hne heq
      · exact absurd (hold.symm.trans heq) ((h.fresh hfresh').2 m z hm hz)
    · rcases hx.cases hm' hz' hne' with hold' | ⟨hmn', -⟩
      · exact absurd (hold'.symm.trans heq.symm) ((h.fresh hfresh).2 m' z' hm' hz')
      · rw [hmn.1, hmn.2, hmn'.1, hmn'.2]
        exact ⟨rfl, rfl⟩
  · intro m z hm hz heq
    rcases hx.cases hm hz (by omega) with hold | ⟨-, hfresh, -⟩
    · obtain ⟨hone, hdir⟩ := h.rootZone m z hm hz (hold.symm.trans heq)
      exact ⟨hone, hx.dirOne hdir⟩
    · have := (h.fresh hfresh).1
      omega

/-- The inodes are as before, and no zone has been freed. -/
theorem ZonesOwned.frame (h : ZonesOwned d) (htable : SameTable d d')
    (hused : ∀ k ≤ 4095, ZoneUsed d k → ZoneUsed d' k) :
  ZonesOwned d'
  := by
  have hzone : ∀ n z, InTable n → zoneOf d' n z = zoneOf d n z :=
    fun n z hn => zoneOf_congr (htable.sector hn) z
  constructor
  · intro k hk
    apply hused k (by omega) (h.system k hk)
  · intro n z hn hz hne
    rw [hzone n z hn] at hne ⊢
    obtain ⟨hlo, hhi, hold⟩ := h.zones n z hn hz hne
    exact ⟨hlo, hhi, hused _ hhi hold⟩
  · intro n z n' z' hn hn' hz hz' hne heq
    rw [hzone n z hn] at hne heq
    rw [hzone n' z' hn'] at heq
    apply h.once n z n' z' hn hn' hz hz' hne heq
  · intro n z hn hz heq
    rw [hzone n z hn] at heq
    obtain ⟨hone, hdir⟩ := h.rootZone n z hn hz heq
    have hsec : d' (inodeSector 1) = d (inodeSector 1) := htable _ (by decide) (by decide)
    exact ⟨hone, (isDir_congr (modeOf_congr hsec)).mpr hdir⟩

/-! ### The directories -/

/-- A directory lies in the sector 0, in that of the root directory, or in a zone of its own. -/
theorem Owned.sector (h : Owned d) {x : ℕ} (hx : LiveDir d x) :
  x = 0 ∨ x = ROOT_SECTOR ∨
    ∃ n, InTable n ∧ IsDir d n ∧ x = zoneOf d n 0 * 2 ∧ 219 ≤ zoneOf d n 0
  := by
  rcases hx.cases with rfl | ⟨n, hn, hdir, rfl⟩
  · right; left; rfl
  · have htable := h.named n hn
    rcases Nat.eq_zero_or_pos (zoneOf d n 0) with hzero | hpos
    · left
      omega
    · right; right
      exact ⟨n, htable, hdir, rfl, (h.zones n 0 htable (by decide) (by omega)).1⟩

theorem Owned.guarded (h : Owned d) :
  Guarded d {x | LiveDir d x}
  := by
  refine ⟨h.toZonesOwned, Closed.of_live h.named ?_, fun x hx i hi => h.dots x i hx hi⟩
  intro x hx
  rcases h.sector hx with rfl | rfl | ⟨n, -, -, rfl, hlo⟩
  · left; rfl
  · right; decide
  · right; omega

theorem Guarded.owned (h : Guarded d S) :
  Owned d
  := by
  refine ⟨h.toZonesOwned, fun n hn => h.toClosed.inTable hn, ?_⟩
  intro x i hx hi hone
  apply h.dots x (h.toClosed.live hx) i hi hone

/-- The zone of a directory is neither that of a file nor free. -/
theorem Owned.not_live (h : Owned d) {k : ℕ} (hk : 219 < k)
    (hfree : Fresh d k ∨ ∃ n z, InTable n ∧ z < 7 ∧ ¬ IsDir d n ∧ zoneOf d n z = k) :
  ¬ LiveDir d (k * 2)
  := by
  intro hlive
  rcases h.sector hlive with hzero | hroot | ⟨n, hn, hdir, heq, hlo⟩
  · omega
  · rw [ROOT_SECTOR] at hroot
    omega
  · have hzone : zoneOf d n 0 = k := by omega
    rcases hfree with hfresh | ⟨m, z, hm, hz, hfile, rfl⟩
    · apply (h.fresh hfresh).2 n 0 hn (by decide) hzone
    · obtain ⟨rfl, -⟩ := h.once n 0 m z hn hm (by decide) hz (by omega) hzone
      apply hfile hdir

/-! ### Writes -/

theorem isDots_congr {x i : ℕ} (h : d' x = d x) :
  IsDots d' x i ↔ IsDots d x i
  := by
  rw [IsDots, h, IsDots]

theorem Guarded.frame (h : Guarded d S) (hS : ∀ x ∈ S, d' x = d x) (htable : SameTable d d')
    (hused : ∀ k ≤ 4095, ZoneUsed d k → ZoneUsed d' k) :
  Guarded d' S
  := by
  refine ⟨h.toZonesOwned.frame htable hused, h.toClosed.frame hS htable, ?_⟩
  intro x hx i hi hone
  rw [entryOf_congr (hS x hx)] at hone
  apply (isDots_congr (hS x hx)).mpr (h.dots x hx i hi hone)

/-- Bits of the inode bitmap are nothing to the zones. -/
theorem Guarded.inodeBitmap (h : Guarded d S) (y : Sector) :
  Guarded (Function.update d INODE_BITMAP_LBA y) S
  := by
  apply h.frame
  · intro x hx
    apply Function.update_of_ne (h.toClosed.not_system hx).1
  · exact SameTable.update (Or.inl (show INODE_BITMAP_LBA < 10 by decide)) y
  · intro k _ hused
    rwa [zoneUsed_congr (Function.update_of_ne (by decide) _ _)]

theorem ZonesOwned.update (h : ZonesOwned d) {x : ℕ} (hx : 265 < x) (y : Sector) :
  ZonesOwned (Function.update d x y)
  := by
  apply h.frame (SameTable.update (Or.inr hx) y)
  intro k _ hused
  rwa [zoneUsed_congr (Function.update_of_ne (by rw [ZONE_BITMAP_LBA]; omega) _ _)]

/-- The entry of another place keeps its name. -/
theorem strcmp_entryName_update {x j : ℕ} (hj : j < 16) (m : Memory)
    (h : ∀ k, 32 * j ≤ k → k < 32 * j + 32 → m k = contents (d x) [] k) (y : ℕ)
    {name : List Byte} (hlen : name.length < 30) :
  strcmp (entryName (contents (Function.update d x (sector m) y) []) j) name =
    strcmp (entryName (contents (d y) []) j) name
  := by
  by_cases hy : y = x
  · subst hy
    rw [Function.update_self]
    apply strcmp_congr (Or.inl hlen)
    intro k hk
    simp only [entryName, Memory.drop]
    rw [contents_sector _ _ (by omega), h _ (by omega) (by omega)]
  · rw [Function.update_of_ne hy]

theorem strcmp_removed (d : Disk) {x i y j : ℕ} (hj : j < 16) (hne : ¬ (y = x ∧ j = i))
    {name : List Byte} (hlen : name.length < 30) :
  strcmp (entryName (contents (removed d x i y) []) j) name =
    strcmp (entryName (contents (d y) []) j) name
  := by
  by_cases hy : y = x
  · apply strcmp_entryName_update hj _ _ y hlen
    intro k hlo hhi
    apply clearEntry_outside
    omega
  · rw [removed, Function.update_of_ne hy]

theorem strcmp_entered (d : Disk) {x n i y j : ℕ} (filename : List Byte) (hj : j < 16)
    (hne : ¬ (y = x ∧ j = i)) {name : List Byte} (hlen : name.length < 30) :
  strcmp (entryName (contents (entered d x n filename i y) []) j) name =
    strcmp (entryName (contents (d y) []) j) name
  := by
  by_cases hy : y = x
  · apply strcmp_entryName_update hj _ _ y hlen
    intro k hlo hhi
    apply setEntry_outside
    omega
  · rw [entered, Function.update_of_ne hy]

theorem isDots_removed {x i y j : ℕ} (hj : j < 16) (hne : ¬ (y = x ∧ j = i)) :
  IsDots (removed d x i) y j ↔ IsDots d y j
  := by
  rw [IsDots, strcmp_removed d hj hne (by decide), strcmp_removed d hj hne (by decide), IsDots]

theorem isDots_entered {x n i y j : ℕ} (filename : List Byte) (hj : j < 16)
    (hne : ¬ (y = x ∧ j = i)) :
  IsDots (entered d x n filename i) y j ↔ IsDots d y j
  := by
  rw [IsDots, strcmp_entered d filename hj hne (by decide),
    strcmp_entered d filename hj hne (by decide), IsDots]

theorem Guarded.removed (h : Guarded d S) {x : ℕ} (hx : x ∈ S) (hx0 : x ≠ 0) (i : ℕ) :
  Guarded (removed d x i) S
  := by
  have hapart := (h.apart x hx).resolve_left hx0
  refine ⟨h.toZonesOwned.update hapart _, h.toClosed.removed hx hx0 i, ?_⟩
  intro y hy j hj hone
  rw [entryOf_removed _ _ _ _ hj] at hone
  split_ifs at hone with hslot
  apply (isDots_removed hj hslot).mpr (h.dots y hy j hj hone)

theorem Guarded.withoutInode (h : Guarded d S) {x : ℕ} (hx : x ∈ S) (hx0 : x ≠ 0) (n : ℕ) :
  Guarded (withoutInode d x n) S
  := by
  rw [Minix.withoutInode]
  cases findInode _ fun inode => inode = n with
  | none => apply h
  | some i => apply h.removed hx hx0

theorem Guarded.withEntry (h : Guarded d S) {x n : ℕ} (hx : x ∈ S) (hx0 : x ≠ 0)
    (filename : List Byte) (hn : InTable n) (hone : n ≠ 1)
    (hsub : IsDir d n → zoneOf d n 0 * 2 ∈ S) :
  Guarded (withEntry d x n filename) S
  := by
  have hapart := (h.apart x hx).resolve_left hx0
  have hmod : n % 2 ^ 16 = n := by
    have := hn.2
    omega
  rw [Minix.withEntry]
  cases freeEntry d x with
  | none => apply h
  | some i =>
      refine ⟨h.toZonesOwned.update hapart _, h.toClosed.entered hx hx0 filename i hn hsub, ?_⟩
      intro y hy j hj hentry
      rw [entryOf_entered _ _ _ _ _ _ hj, hmod] at hentry
      split_ifs at hentry with hslot
      · exact absurd hentry hone
      · apply (isDots_entered filename hj hslot).mpr (h.dots y hy j hj hentry)

/-- The inode `n` gets a record without zones; what it had may have been freed. -/
theorem Rewritten.exchanged {n : ℕ} {w : Memory} (h : Rewritten d d' n w) (hn : InTable n)
    (hone : n ≠ 1) (hunused : i_unused w 0 = 0) (hzones : ∀ z < 7, i_zone w 0 z = 0)
    (hused : ∀ k < 4096, ZoneUsed d k → (∀ z < 7, zoneOf d n z = k → k = 0) → ZoneUsed d' k) :
  Exchanged d d' n
  := by
  refine ⟨h.rezoned hunused, (h.isDir_one hn hone).mpr, ?_, ?_⟩
  · intro z hz
    left
    rw [h.self z hz, hzones z hz]
  · intro k hk hold
    by_cases hkept : ∀ z < 7, zoneOf d n z = k → k = 0
    · left
      apply hused k (by omega) hold hkept
    · push Not at hkept
      obtain ⟨z, hz, heq, hk0⟩ := hkept
      right
      refine ⟨hone, hk0, ⟨z, hz, heq⟩, ?_⟩
      intro z' hz'
      rw [h.self z' hz', hzones z' hz']
      exact hk0.symm

/-- An inode that is none of a directory afterwards changes its zones. -/
theorem Guarded.exchanged {n : ℕ} (h : Guarded d S) (hn : InTable n) (hx : Exchanged d d' n)
    (hS : ∀ x ∈ S, d' x = d x) (hfile : ¬ IsDir d' n) :
  Guarded d' S
  := by
  refine ⟨h.toZonesOwned.exchanged hn hx, h.toClosed.file hx.toRezoned hS hfile, ?_⟩
  intro x hx i hi hone
  rw [entryOf_congr (hS x hx)] at hone
  apply (isDots_congr (hS x hx)).mpr (h.dots x hx i hi hone)

/-! ### Calls -/

theorem Owned.createdFile (h : Owned d) {k : ℕ} (hk : freeInode d = some k) :
  Guarded (createdFile d k) {x | LiveDir d x} ∧ ¬ IsDir (createdFile d k) (k + 1)
  := by
  have hn := InTable.of_freeInode hk
  have hone : k + 1 ≠ 1 := by
    have := (freeInode_spec hk).1
    omega
  have hrec := createdFile_rewritten d hk
  obtain ⟨-, hunused, hzones⟩ := CreateFile_record
  have hfile := createdFile_not_dir hk
  refine ⟨?_, hfile⟩
  apply h.guarded.exchanged hn
  · apply hrec.exchanged hn hone hunused hzones
    intro j _ hused _
    apply (zoneUsed_createdFile d k j).mpr hused
  · intro x hx
    apply createdFile_sector d hk (h.guarded.apart x hx)
  · apply hfile

/-- The zone of a new directory is nobody's. -/
theorem Owned.freeZone (h : Owned d) {z : ℕ} (hz : freeZone d = some z) :
  Fresh d z ∧ 219 < z ∧ ¬ LiveDir d (z * 2)
  := by
  obtain ⟨hlt, hfree⟩ := freeZone_spec hz
  have hfresh : Fresh d z := ⟨by omega, hfree⟩
  have hlo := (h.fresh hfresh).1
  exact ⟨hfresh, hlo, h.not_live hlo (Or.inl hfresh)⟩

theorem Owned.createdDir (h : Owned d) {k z x : ℕ} (hk : freeInode d = some k)
    (hz : Minix.freeZone d = some z) (hx : LiveDir d x) :
  Guarded (createdDir d k z x) ({x | LiveDir d x} ∪ {y | y = z * 2}) ∧
    zoneOf (createdDir d k z x) (k + 1) 0 = z
  := by
  have hn := InTable.of_freeInode hk
  have hone : k + 1 ≠ 1 := by
    have := (freeInode_spec hk).1
    omega
  obtain ⟨hfresh, hlo, hlive⟩ := h.freeZone hz
  have hlt : z < 4096 := by
    have := hfresh.1
    omega
  have hapart : 265 < z * 2 := by omega
  have hrec := createdDir_rewritten (x := x) hk hapart
  obtain ⟨-, hunused, -, hzones⟩ := CreateDir_record hlt
  obtain ⟨hclosed, hzone⟩ := h.guarded.toClosed.createdDir hk hapart hlt hx
  have hexchanged : Exchanged d (Minix.createdDir d k z x) (k + 1) := by
    refine ⟨hrec.rezoned hunused, (hrec.isDir_one hn hone).mpr, ?_, ?_⟩
    · intro z' hz'
      by_cases hzero : z' = 0
      · subst hzero
        right; right
        rw [hzone]
        exact ⟨rfl, hfresh, (zoneUsed_createdDir x hlt).mpr (Or.inl rfl)⟩
      · left
        rw [hrec.self z' hz', hzones z' hz' hzero]
    · intro j hj hused
      left
      apply (zoneUsed_createdDir x (by omega)).mpr (Or.inr hused)
  refine ⟨⟨h.toZonesOwned.exchanged hn hexchanged, hclosed, ?_⟩, hzone⟩
  rintro y (hy | rfl) i hi hentry
  · have hsector : Minix.createdDir d k z x y = d y := by
      apply createdDir_sector hk hapart (h.guarded.apart y hy)
      rintro rfl
      apply hlive hy
    rw [entryOf_congr hsector] at hentry
    apply (isDots_congr hsector).mpr (h.dots y i hy hi hentry)
  · rw [createdDir_entries hk (h.guarded.apart x hx) hi] at hentry
    split_ifs at hentry with hlast hfirst
    · subst hlast
      right
      apply createdDir_names.2
    · exact absurd hentry hone

theorem Owned.erased (h : Owned d) {n : ℕ} (hn : InTable n) (hone : n ≠ 1)
    (he : Erased d d' n) :
  Guarded (unmarked d' n) {x | LiveDir d x}
  := by
  have hrec := he.toRecorded.rewritten hn
  apply Guarded.inodeBitmap
  apply h.guarded.exchanged hn
  · apply hrec.exchanged hn hone (by decide) (fun z _ => i_zone_zero z) he.used
  · intro x hx
    apply he.toRecorded.sector_eq hn (h.guarded.apart x hx)
  · rw [IsDir, hrec.mode]
    decide

/-- Of the inodes and the directories only the record has changed. -/
theorem Owned.erased_record (h : Owned d) {n : ℕ} (hn : InTable n) (he : Erased d d' n) :
  Rewritten d (unmarked d' n) n (fun _ => 0) ∧ ∀ x, LiveDir d x → unmarked d' n x = d x
  := by
  have hguarded := h.guarded
  have hsame : SameTable d' (unmarked d' n) :=
    SameTable.update (Or.inl (show INODE_BITMAP_LBA < 10 by decide)) _
  use (he.toRecorded.rewritten hn).congr hn (fun _ _ _ => rfl) hsame
  intro x hx
  rw [unmarked, Function.update_of_ne (hguarded.toClosed.not_system hx).1]
  apply he.toRecorded.sector_eq hn (hguarded.apart x hx)

/-- The zone a file is written to is its own, or nobody's. -/
theorem Owned.zoneTaken (h : Owned d) {n : ℕ} {buf : Memory} (hn : InTable n) (hfile : ¬ IsDir d n)
    (ht : ZoneTaken d d' n buf) :
  219 < i_zone buf (inodeOffset n) 0 ∧ ¬ LiveDir d (i_zone buf (inodeOffset n) 0 * 2) ∧
    (zoneOf d n 0 = i_zone buf (inodeOffset n) 0 ∨
      zoneOf d n 0 = 0 ∧ Fresh d (i_zone buf (inodeOffset n) 0))
  := by
  rcases ht.zone with ⟨hkept, hne⟩ | ⟨hzero, hlt, hfree⟩
  · rw [hkept]
    have hlo := (h.zones n 0 hn (by decide) hne).1
    have hroot : zoneOf d n 0 ≠ 219 := by
      intro heq
      obtain ⟨rfl, hdir⟩ := h.rootZone n 0 hn (by decide) heq
      apply hfile hdir
    have hgt : 219 < zoneOf d n 0 := by omega
    exact ⟨hgt, h.not_live hgt (Or.inr ⟨n, 0, hn, by decide, hfile, rfl⟩), Or.inl rfl⟩
  · have hfresh : Fresh d (i_zone buf (inodeOffset n) 0) := ⟨by omega, hfree⟩
    have hgt := (h.fresh hfresh).1
    exact ⟨hgt, h.not_live hgt (Or.inl hfresh), Or.inr ⟨hzero, hfresh⟩⟩

theorem Owned.stored (h : Owned d) {n : ℕ} {buf : Memory} (hn : InTable n) (hfile : ¬ IsDir d n)
    (ht : ZoneTaken d d' n buf) (data : Sector) (to_write : ℤ) :
  Guarded (stored d' n buf data to_write) {x | LiveDir d x}
  := by
  obtain ⟨hgt, hlive, hzone⟩ := h.zoneTaken hn hfile ht
  have hapart : 265 < i_zone buf (inodeOffset n) 0 * 2 := by omega
  have hz := ht.toZoned
  have hmode : ∀ m, InTable m → (IsDir (Minix.stored d' n buf data to_write) m ↔ IsDir d m) :=
    fun m hm => isDir_congr (stored_modeOf hz hn hapart data to_write hm)
  apply h.guarded.exchanged hn
  · refine ⟨stored_rezoned hz hn hapart data to_write,
      (hmode 1 ⟨by decide, by decide⟩).mpr, ?_, ?_⟩
    · intro z hz7
      by_cases hz0 : z = 0
      · subst hz0
        rw [stored_zoneOf_self hn data to_write]
        rcases hzone with hold | ⟨hzero, hfresh⟩
        · right; left
          apply hold.symm
        · right; right
          exact ⟨rfl, hfresh, (zoneUsed_stored hn hapart data to_write _).mpr (ht.mark hzero)⟩
      · right; left
        apply stored_zoneOf hz hn hapart data to_write hn hz7 (Or.inr hz0)
    · intro k hk hused
      left
      apply (zoneUsed_stored hn hapart data to_write k).mpr (ht.used k (by omega) hused)
  · intro x hx
    apply stored_sector hz hn hapart data to_write (h.guarded.apart x hx)
    rintro rfl
    apply hlive hx
  · rwa [hmode n hn]

end

/-- Files are written, no directories, and the entries renamed are neither `.` nor `..`. -/
def Careful (s : State) : FileOp → Prop
  | .tree _ => True
  | .WriteFile name _ _ => (run (FindEntry name) s).1 ≠ 0 → ¬ IsDir s.disk (run (FindEntry name) s).1
  | .RenameFile old_name new_name => ∀ x i y filename,
      (run (lookupMove old_name new_name) s).1 = .ok (x, i, y, filename) → ¬ IsDots s.disk x i

/-- The same, but that `.` and `..` may be renamed where they do not name the root directory. -/
def Steady (s : State) : FileOp → Prop
  | .tree _ => True
  | .WriteFile name _ _ => (run (FindEntry name) s).1 ≠ 0 → ¬ IsDir s.disk (run (FindEntry name) s).1
  | .RenameFile old_name new_name => ∀ x i y filename,
      (run (lookupMove old_name new_name) s).1 = .ok (x, i, y, filename) → entryOf s.disk x i ≠ 1

theorem Careful.steady {s : State} {op : FileOp} (hs : Owned s.disk) (h : Careful s op) :
  Steady s op
  := by
  cases op with
  | tree op => trivial
  | WriteFile name input count => apply h
  | RenameFile old_name new_name =>
      intro x i y filename hlook hone
      obtain ⟨⟨hlive, -⟩, -, hi, -⟩ := lookupMove_ok hlook
      apply h x i y filename hlook (hs.dots x i hlive hi hone)

theorem Owned.effect {s : State} {op : FileOp} {d' : Disk} (h : Owned s.disk)
    (hsteady : Steady s op) (heffect : Effect s op d') :
  Owned d'
  := by
  cases heffect with
  | refused op => apply h
  | CreateFile hlook hk =>
      obtain ⟨hlive, hx0⟩ := lookupNew_ok hlook
      obtain ⟨hguarded, hfile⟩ := h.createdFile hk
      have hlo := (freeInode_spec hk).1
      apply Guarded.owned
      apply hguarded.withEntry hlive hx0 _ (InTable.of_freeInode hk) (by omega)
      intro hdir
      apply absurd hdir hfile
  | noZone hlook hk => apply (h.guarded.inodeBitmap _).owned
  | CreateDir hlook hk hz =>
      obtain ⟨hlive, hx0⟩ := lookupNew_ok hlook
      obtain ⟨hguarded, hzone⟩ := h.createdDir hk hz hlive
      have hlo := (freeInode_spec hk).1
      apply Guarded.owned
      apply hguarded.withEntry (Or.inl hlive) hx0 _ (InTable.of_freeInode hk) (by omega)
      intro _
      right
      rw [hzone]
      rfl
  | @DeleteFile name x i d₁ hlook herased =>
      obtain ⟨⟨hlive, hx0⟩, hi, hused, hdots⟩ := lookupFile_ok hlook
      have hn := h.named _ ⟨hused, x, i, hlive, hi, rfl⟩
      have hone : entryOf s.disk x i ≠ 1 := fun heq => hdots (h.dots x i hlive hi heq)
      apply Guarded.owned
      apply (h.erased hn hone herased).removed hlive hx0
  | @DeleteDir name x n d₁ hlook herased =>
      obtain ⟨⟨hlive, hx0⟩, -, hne, -, -, y, i, hy, hi, rfl, hdots⟩ := lookupDir_ok hlook
      have hn := h.named _ ⟨hne, y, i, hy, hi, rfl⟩
      have hone : entryOf s.disk y i ≠ 1 := fun heq => hdots (h.dots y i hy hi heq)
      apply Guarded.owned
      apply (h.erased hn hone herased).withoutInode hlive hx0
  | @WriteFile name input count n e buf data to_write hfind hne htaken =>
      subst hfind
      have hn := h.named _ (FindEntry_named hne)
      apply (h.stored hn (hsteady hne) htaken data to_write).owned
  | @RenameFile old_name new_name filename x i y hlook =>
      obtain ⟨⟨hlive, hx0⟩, ⟨hlive', hy0⟩, hi, hused⟩ := lookupMove_ok hlook
      have hn := h.named _ ⟨hused, x, i, hlive, hi, rfl⟩
      have hone := hsteady x i y filename hlook
      have hguarded := h.guarded
      apply Guarded.owned
      apply (hguarded.removed hlive hx0 i).withEntry hlive' hy0 _ hn hone
      have hapart := (hguarded.apart x hlive).resolve_left hx0
      have hsame : SameTable s.disk (removed s.disk x i) := SameTable.update (Or.inr hapart) _
      intro hdir
      rw [isDir_congr (modeOf_congr (hsame.sector hn))] at hdir
      rw [zoneOf_congr (hsame.sector hn)]
      exact LiveDir.sub hlive hi hused hdir

/-! ### Runs -/

/-- No zone is ever in two places of the inode table: in every disk reached the zones in the table
lie behind that of the root directory, are marked as used, and are all different. -/
theorem zones_owned {s t : State} {ops : List FileOp}
    (h : Run (Restrict FileOp.Step Careful) s ops t) (hs : Owned s.disk) :
  Owned t.disk
  := by
  apply h.invariant (I := fun s => Owned s.disk) ?_ hs
  rintro u op v hu ⟨hcareful, hstep⟩
  simp only [FileOp.Step] at hstep
  rw [hstep]
  apply hu.effect (hcareful.steady hu) (effect u op)

/-! ### The small file system -/

/-- Only the root directory has a zone, and the zones up to it are marked as used. -/
structure RootOnly (d : Disk) : Prop where
  system : ∀ k ≤ 219, ZoneUsed d k
  zone : ∀ n z, InTable n → z < 7 → zoneOf d n z = if n = 1 ∧ z = 0 then 219 else 0
  dir : IsDir d 1

theorem RootOnly.zonesOwned {d : Disk} (h : RootOnly d) :
  ZonesOwned d
  := by
  have hzone : ∀ n z, InTable n → z < 7 → zoneOf d n z ≠ 0 →
      n = 1 ∧ z = 0 ∧ zoneOf d n z = 219 := by
    intro n z hn hz hne
    rw [h.zone n z hn hz] at hne ⊢
    split_ifs at hne ⊢ with hroot
    · exact ⟨hroot.1, hroot.2, rfl⟩
    · exact absurd rfl hne
  refine ⟨h.system, ?_, ?_, ?_⟩
  · intro n z hn hz hne
    obtain ⟨-, -, heq⟩ := hzone n z hn hz hne
    rw [heq]
    exact ⟨by decide, by decide, h.system 219 (by decide)⟩
  · intro n z n' z' hn hn' hz hz' hne heq
    obtain ⟨rfl, rfl, -⟩ := hzone n z hn hz hne
    obtain ⟨rfl, rfl, -⟩ := hzone n' z' hn' hz' (by rwa [← heq])
    exact ⟨rfl, rfl⟩
  · intro n z hn hz heq
    obtain ⟨rfl, -, -⟩ := hzone n z hn hz (by omega)
    exact ⟨rfl, h.dir⟩

/-- No inode behind the first sector of the table is in use. -/
theorem RootOnly.of_sector {d : Disk} (hsystem : ∀ k < 220, ZoneUsed d k)
    (hfirst : ∀ n < 17, ∀ z < 7, 1 ≤ n → zoneOf d n z = if n = 1 ∧ z = 0 then 219 else 0)
    (hrest : ∀ x, 10 < x → x ≤ 265 → d x = fun _ => 0) (hdir : IsDir d 1) :
  RootOnly d
  := by
  refine ⟨fun k hk => hsystem k (by omega), ?_, hdir⟩
  intro n z hn hz
  by_cases hlt : n < 17
  · apply hfirst n hlt z hz hn.1
  · have hsec := hn.sector
    have hbehind : 10 < inodeSector n := by
      rw [inodeSector_eq hn.ne_zero]
      omega
    rw [if_neg (by omega), zoneOf, hrest _ hbehind hsec.2]
    apply Memory.load_of_digits (v := 0)
    intro i _
    rw [contents, Nat.zero_div]
    split_ifs
    all_goals rfl

theorem twoFiles_rootOnly :
  RootOnly twoFiles
  := by
  apply RootOnly.of_sector
  · unfold ZoneUsed
    decide +kernel
  · decide +kernel
  · intro x hlo hhi
    rw [twoFiles, Function.update_of_ne (by rw [ROOT_SECTOR]; omega),
      Function.update_of_ne (by omega), Function.update_of_ne (by rw [ZONE_BITMAP_LBA]; omega),
      Function.update_of_ne (by rw [INODE_BITMAP_LBA]; omega)]
  · unfold IsDir
    decide +kernel

theorem twoFiles_owned :
  Owned twoFiles
  := by
  refine ⟨twoFiles_rootOnly.zonesOwned, ?_, ?_⟩
  · intro n hn
    rcases twoFiles_named.mp hn with rfl | rfl | rfl
    all_goals exact ⟨by decide, by decide⟩
  · intro x i hx hi hone
    have hnames : ∀ i < 16, entryOf twoFiles ROOT_SECTOR i = 1 →
        IsDots twoFiles ROOT_SECTOR i := by
      unfold IsDots
      decide +kernel
    rw [twoFiles_live hx] at hone ⊢
    apply hnames i hi hone

/-- `/a` becomes `/c`, and gets its first zone. -/
theorem zones_owned_rename :
  Owned (run (minix_WriteFile (ascii "/c") (fun _ => 7) 5)
    (run (minix_RenameFile (ascii "/a") (ascii "/c")) (State.ofDisk twoFiles)).2).2.disk
  := by
  have hmove : Careful (State.ofDisk twoFiles) (.RenameFile (ascii "/a") (ascii "/c")) := by
    have hlook : (run (lookupMove (ascii "/a") (ascii "/c")) (State.ofDisk twoFiles)).1.map
        (fun found => (found.1, found.2.1)) = .ok (ROOT_SECTOR, 2) := by decide +kernel
    intro x i y filename hok
    rw [hok] at hlook
    cases hlook
    unfold IsDots
    decide +kernel
  have hwrite : Careful (run (minix_RenameFile (ascii "/a") (ascii "/c")) (State.ofDisk twoFiles)).2
      (.WriteFile (ascii "/c") (fun _ => 7) 5) := by
    intro _
    unfold IsDir
    decide +kernel
  exact zones_owned (Run.cons ⟨hmove, rfl⟩ (Run.cons ⟨hwrite, rfl⟩ (Run.nil _))) twoFiles_owned

end Minix
