import LySystem.Minix.Zones

/-!
# Directories removed while in use

`minix_DeleteDir` takes a directory for empty when the size in its inode is not larger than
that of a new one.  No call changes that size, so that every directory passes.  As long as
entries are put into the root directory only, the others are empty indeed.
-/

namespace Minix

open CString Transition

/-- The entries in use are `.`, for the inode `n` of the directory, and `..`, for that of its
parent. -/
def OnlyDots (d : Disk) (x n p : ℕ) : Prop :=
  ∀ i < 16, entryOf d x i ≠ 0 →
    entryOf d x i = n ∧ strcmp (entryName (contents (d x) []) i) (ascii ".") = 0 ∨
      entryOf d x i = p ∧ strcmp (entryName (contents (d x) []) i) (ascii "..") = 0

/-- An entry for the inode `n`, neither `.` nor `..`, is in the directory of the inode `p`. -/
def Parent (d : Disk) (n p : ℕ) : Prop :=
  ∃ x i, LiveDir d x ∧ i < 16 ∧ entryOf d x i = n ∧ ¬ IsDots d x i ∧ entryOf d x 0 = p

/-- A directory that is removed has no entries besides `.` and `..`. -/
def DeletesEmpty (s : State) : Prop :=
  ∀ path, (run (minix_DeleteDir path) s).1 = ESUCCESS →
    ∃ p, Parent s.disk (foundDir path s) p ∧
      OnlyDots s.disk (zoneOf s.disk (foundDir path s) 0 * 2) (foundDir path s) p

/-- A disk with an empty root directory. -/
structure EmptyRoot (d : Disk) : Prop extends ZonesOwned d where
  rootDir : IsDir d 1 ∧ zoneOf d 1 0 = 219
  self : entryOf d ROOT_SECTOR 0 = 1 ∧
    strcmp (entryName (contents (d ROOT_SECTOR) []) 0) (ascii ".") = 0
  parent : entryOf d ROOT_SECTOR 1 = 1 ∧
    strcmp (entryName (contents (d ROOT_SECTOR) []) 1) (ascii "..") = 0
  empty : ∀ i < 16, 2 ≤ i → entryOf d ROOT_SECTOR i = 0

section

variable {d d' : Disk}

/-! ### Directories without entries of their own -/

theorem OnlyDots.congr {x n p : ℕ} (h : OnlyDots d x n p) (hx : d' x = d x) :
  OnlyDots d' x n p
  := by
  intro i hi hused
  rw [entryOf_congr hx] at hused ⊢
  rw [hx]
  apply h i hi hused

theorem OnlyDots.removed {x n p : ℕ} (h : OnlyDots d x n p) (y i : ℕ) :
  OnlyDots (removed d y i) x n p
  := by
  intro j hj hused
  rw [entryOf_removed _ _ _ _ hj] at hused ⊢
  split_ifs at hused ⊢ with hslot
  · exact absurd rfl hused
  · rw [strcmp_removed d hj hslot (by decide), strcmp_removed d hj hslot (by decide)]
    apply h j hj hused

theorem OnlyDots.isDots {x n p i : ℕ} (h : OnlyDots d x n p) (hi : i < 16)
    (hused : entryOf d x i ≠ 0) :
  IsDots d x i
  := (h i hi hused).imp And.right And.right

/-- The directory of the inode `n` is empty, and lies in the root directory. -/
def Bare (d : Disk) (n : ℕ) : Prop := 219 < zoneOf d n 0 ∧ OnlyDots d (zoneOf d n 0 * 2) n 1

theorem Bare.congr {n : ℕ} (h : Bare d n) (hzone : zoneOf d' n 0 = zoneOf d n 0)
    (hsector : d' (zoneOf d n 0 * 2) = d (zoneOf d n 0 * 2)) :
  Bare d' n
  := by
  rw [Bare, hzone]
  exact ⟨h.1, h.2.congr hsector⟩

theorem Bare.removed {n : ℕ} (h : Bare d n) (hn : InTable n) {x : ℕ} (hapart : 265 < x) (i : ℕ) :
  Bare (removed d x i) n
  := by
  have htable : SameTable d (Minix.removed d x i) := SameTable.update (Or.inr hapart) _
  rw [Bare, zoneOf_congr (htable.sector hn)]
  exact ⟨h.1, h.2.removed x i⟩

/-- An entry of the root directory names the inode `n`. -/
def RootEntry (d : Disk) (n : ℕ) : Prop := n ≠ 0 ∧ ∃ i < 16, entryOf d ROOT_SECTOR i = n

theorem RootEntry.named {n : ℕ} (h : RootEntry d n) :
  Named d n
  := by
  obtain ⟨hne, i, hi, heq⟩ := h
  exact ⟨hne, ROOT_SECTOR, i, LiveDir.root, hi, heq⟩

/-- The directories in the root directory are empty. -/
structure Level (d : Disk) : Prop where
  first : entryOf d ROOT_SECTOR 0 = 1
  home : zoneOf d 1 0 = 219
  bare : ∀ n, RootEntry d n → n ≠ 1 → IsDir d n → Bare d n

/-- The sector of the root directory, or of a directory in it. -/
def TopSector (d : Disk) (x : ℕ) : Prop :=
  x = ROOT_SECTOR ∨ ∃ n, RootEntry d n ∧ n ≠ 1 ∧ IsDir d n ∧ x = zoneOf d n 0 * 2

theorem Level.rootEntry (h : Level d) {x i : ℕ} (hx : TopSector d x) (hi : i < 16)
    (hused : entryOf d x i ≠ 0) (hone : entryOf d x i ≠ 1) :
  RootEntry d (entryOf d x i)
  := by
  use hused
  rcases hx with rfl | ⟨n, hentry, hne, hdir, rfl⟩
  · exact ⟨i, hi, rfl⟩
  · rcases (h.bare n hentry hne hdir).2 i hi hused with ⟨hself, -⟩ | ⟨hparent, -⟩
    · rw [hself]
      apply hentry.2
    · apply absurd hparent hone

/-- Every directory is the root directory or in it. -/
theorem Level.live (h : Level d) {x : ℕ} (hx : LiveDir d x) :
  TopSector d x
  := by
  induction hx with
  | root =>
      left
      rfl
  | @sub x i _ hi hused hdir ih =>
      by_cases hone : entryOf d x i = 1
      · left
        rw [hone, h.home]
        rfl
      · right
        exact ⟨entryOf d x i, h.rootEntry ih hi hused hone, hone, hdir, rfl⟩

/-- Only the root directory has entries other than `.` and `..`. -/
theorem Level.root_of_not_dots (h : Level d) {x i : ℕ} (hx : LiveDir d x) (hi : i < 16)
    (hused : entryOf d x i ≠ 0) (hdots : ¬ IsDots d x i) :
  x = ROOT_SECTOR
  := by
  rcases h.live hx with hroot | ⟨n, hentry, hne, hdir, rfl⟩
  · apply hroot
  · apply absurd _ hdots
    apply (h.bare n hentry hne hdir).2.isDots hi hused

/-! ### Writes -/

/-- The record of the inode `n` changes. -/
theorem Level.rezoned {n : ℕ} (h : Level d) (hnamed : ∀ m, Named d m → InTable m)
    (hr : Rezoned d d' n) (hone : n ≠ 1) (hS : ∀ x, LiveDir d x → d' x = d x)
    (hself : RootEntry d n → IsDir d' n → Bare d' n) :
  Level d'
  := by
  have hroot := hS _ LiveDir.root
  constructor
  · rw [entryOf_congr hroot, h.first]
  · rw [hr.zones 1 0 ⟨by decide, by decide⟩ hone.symm (by decide), h.home]
  · rintro m ⟨hne, i, hi, heq⟩ hm hdir
    rw [entryOf_congr hroot] at heq
    have hentry : RootEntry d m := ⟨hne, i, hi, heq⟩
    by_cases hmn : m = n
    · subst hmn
      apply hself hentry hdir
    · have htable := hnamed m hentry.named
      have hdir' := hr.modes m htable hmn hdir
      apply (h.bare m hentry hm hdir').congr
      · apply hr.zones m 0 htable hmn (by decide)
      · apply hS _ (LiveDir.of_named hentry.named hdir')

theorem SameTable.rezoned (h : SameTable d d') (n : ℕ) :
  Rezoned d d' n
  := by
  constructor
  · intro m z hm _ _
    rw [zoneOf_congr (h.sector hm)]
  · intro m hm _ hdir
    rwa [isDir_congr (modeOf_congr (h.sector hm))] at hdir

/-- An entry is removed that does not name the root directory. -/
theorem Level.removed (h : Level d) (hnamed : ∀ m, Named d m → InTable m) {x i : ℕ}
    (hapart : 265 < x) (hone : entryOf d x i ≠ 1) :
  Level (removed d x i)
  := by
  have htable : SameTable d (Minix.removed d x i) := SameTable.update (Or.inr hapart) _
  constructor
  · rw [entryOf_removed _ _ _ _ (by decide), if_neg, h.first]
    rintro ⟨rfl, rfl⟩
    apply hone h.first
  · rw [zoneOf_congr (htable.sector ⟨by decide, by decide⟩), h.home]
  · rintro m ⟨hne, j, hj, heq⟩ hm hdir
    rw [entryOf_removed _ _ _ _ hj] at heq
    split_ifs at heq with hslot
    · exact absurd heq.symm hne
    · have hentry : RootEntry d m := ⟨hne, j, hj, heq⟩
      have hm' := hnamed m hentry.named
      rw [isDir_congr (modeOf_congr (htable.sector hm'))] at hdir
      apply (h.bare m hentry hm hdir).removed hm' hapart

/-- An entry is put into the root directory. -/
theorem Level.withEntry (h : Level d) (hnamed : ∀ m, Named d m → InTable m) {n : ℕ}
    (filename : List Byte) (hn : InTable n) (hbare : n ≠ 1 → IsDir d n → Bare d n) :
  Level (withEntry d ROOT_SECTOR n filename)
  := by
  rcases withEntry_cases d ROOT_SECTOR n filename with heq | ⟨i, hi, hfree, heq⟩
  · rwa [heq]
  · have htable : SameTable d (entered d ROOT_SECTOR n filename i) :=
      SameTable.update (Or.inr (by decide)) _
    have hmod : n % 2 ^ 16 = n := by
      have := hn.2
      omega
    rw [heq]
    constructor
    · rw [entryOf_entered _ _ _ _ _ _ (by decide), if_neg, h.first]
      rintro ⟨-, rfl⟩
      rw [h.first] at hfree
      cases hfree
    · rw [zoneOf_congr (htable.sector ⟨by decide, by decide⟩), h.home]
    · rintro m ⟨hne, j, hj, hentry⟩ hm hdir
      rw [entryOf_entered _ _ _ _ _ _ hj, hmod] at hentry
      have hm' : InTable m ∧ (IsDir d m → Bare d m) := by
        split_ifs at hentry with hslot
        · subst hentry
          exact ⟨hn, hbare hm⟩
        · have hold : RootEntry d m := ⟨hne, j, hj, hentry⟩
          exact ⟨hnamed m hold.named, h.bare m hold hm⟩
      have hsector := htable.sector hm'.1
      rw [isDir_congr (modeOf_congr hsector)] at hdir
      have hold := hm'.2 hdir
      apply hold.congr (zoneOf_congr hsector 0)
      apply Function.update_of_ne
      have := hold.1
      rw [ROOT_SECTOR]
      omega

end

/-! ### Calls -/

/-- Entries are put into the root directory only, and none that names it is renamed; files are
written, no directories. -/
def InRoot (s : State) : FileOp → Prop
  | .tree (.CreateFile name) => ∀ x filename, (run (lookupNew name) s).1 = .ok (x, filename) →
      freeInode s.disk ≠ none → x = ROOT_SECTOR
  | .tree (.CreateDir name) => ∀ x filename, (run (lookupNew name) s).1 = .ok (x, filename) →
      freeInode s.disk ≠ none → freeZone s.disk ≠ none → x = ROOT_SECTOR
  | .tree _ => True
  | .WriteFile name _ _ => (run (FindEntry name) s).1 ≠ 0 → ¬ IsDir s.disk (run (FindEntry name) s).1
  | .RenameFile old_name new_name => ∀ x i y filename,
      (run (lookupMove old_name new_name) s).1 = .ok (x, i, y, filename) →
        entryOf s.disk x i ≠ 1 ∧ y = ROOT_SECTOR

theorem InRoot.steady {s : State} {op : FileOp} (h : InRoot s op) :
  Steady s op
  := by
  cases op with
  | tree op => trivial
  | WriteFile name input count => apply h
  | RenameFile old_name new_name =>
      intro x i y filename hlook
      apply (h x i y filename hlook).1

/-- The zones have one owner each, and the directories in the root directory are empty. -/
structure Flat (d : Disk) : Prop extends Owned d, Level d

theorem EmptyRoot.flat {d : Disk} (h : EmptyRoot d) :
  Flat d
  := by
  have hentry : ∀ i < 16, entryOf d ROOT_SECTOR i ≠ 0 →
      entryOf d ROOT_SECTOR i = 1 ∧ IsDots d ROOT_SECTOR i := by
    intro i hi hused
    rcases Nat.lt_or_ge i 2 with hlt | hge
    · interval_cases i
      · exact ⟨h.self.1, Or.inl h.self.2⟩
      · exact ⟨h.parent.1, Or.inr h.parent.2⟩
    · apply absurd (h.empty i hi hge) hused
  have hlive : ∀ x, LiveDir d x → x = ROOT_SECTOR := by
    intro x hx
    induction hx with
    | root => rfl
    | @sub x i _ hi hused hdir ih =>
        subst ih
        rw [(hentry i hi hused).1, h.rootDir.2]
        rfl
  refine ⟨⟨h.toZonesOwned, ?_, ?_⟩, ⟨h.self.1, h.rootDir.2, ?_⟩⟩
  · rintro n ⟨hne, x, i, hx, hi, rfl⟩
    rw [hlive x hx] at hne ⊢
    rw [(hentry i hi hne).1]
    exact ⟨by decide, by decide⟩
  · intro x i hx hi hone
    rw [hlive x hx] at hone ⊢
    apply (hentry i hi (by rw [hone]; decide)).2
  · rintro n ⟨hne, i, hi, rfl⟩ hn
    apply absurd (hentry i hi hne).1 hn

section

variable {d d' : Disk}

/-- The inode of an entry removed is cleared. -/
theorem Flat.erased (h : Flat d) {n : ℕ} (hn : InTable n) (hone : n ≠ 1) (he : Erased d d' n) :
  Level (unmarked d' n) ∧ (∀ m, Named (unmarked d' n) m → InTable m) ∧
    ∀ x, LiveDir d x → unmarked d' n x = d x
  := by
  obtain ⟨hrec, hS⟩ := h.toOwned.erased_record hn he
  refine ⟨?_, fun m hm => (h.toOwned.erased hn hone he).toClosed.inTable hm, hS⟩
  apply h.toLevel.rezoned h.named (hrec.rezoned (by decide)) hone hS
  intro _ hdir
  rw [IsDir, hrec.mode] at hdir
  cases hdir

/-- An entry of a directory, other than that of the root directory, is removed with its inode. -/
theorem Flat.withoutInode (h : Flat d) {n x : ℕ} (hn : InTable n) (hone : n ≠ 1)
    (he : Erased d d' n) (hx : LiveDir d x) (hx0 : x ≠ 0) :
  Level (withoutInode (unmarked d' n) x n)
  := by
  obtain ⟨hlevel, hnamed, -⟩ := h.erased hn hone he
  rcases withoutInode_cases (unmarked d' n) x n with heq | ⟨i, hi, hentry, heq⟩
  · rwa [heq]
  · rw [heq]
    apply hlevel.removed hnamed ((h.toOwned.guarded.apart x hx).resolve_left hx0)
    rwa [hentry]

end

/-- A new directory holds the entries of itself and of its parent only. -/
theorem Flat.createdDir_bare {d : Disk} {k z : ℕ} (h : Flat d) (hk : freeInode d = some k)
    (hz : freeZone d = some z) :
  Bare (createdDir d k z ROOT_SECTOR) (k + 1)
  := by
  have hzone := (h.toOwned.createdDir hk hz LiveDir.root).2
  have hlo := (h.toOwned.freeZone hz).2.1
  rw [Bare, hzone]
  use hlo
  obtain ⟨hself, hparent⟩ := createdDir_names (d := d) (k := k) (z := z) (x := ROOT_SECTOR)
  intro i hi hused
  rw [createdDir_entries hk (Or.inr (by decide)) hi] at hused ⊢
  split_ifs at hused ⊢ with hlast hfirst
  · subst hlast
    right
    exact ⟨h.toLevel.first, hparent⟩
  · subst hfirst
    left
    exact ⟨rfl, hself⟩
  · exact absurd rfl hused

/-- A file is created in the root directory. -/
theorem Flat.createdFile {d : Disk} (h : Flat d) {k : ℕ} (hk : freeInode d = some k)
    (filename : List Byte) :
  Level (withEntry (createdFile d k) ROOT_SECTOR (k + 1) filename)
  := by
  obtain ⟨hguarded, hfile⟩ := h.toOwned.createdFile hk
  have hlo := (freeInode_spec hk).1
  have hcreated : Level (Minix.createdFile d k) := by
    apply h.toLevel.rezoned h.named
      ((createdFile_rewritten d hk).rezoned CreateFile_record.2.1) (by omega)
    · intro y hy
      apply createdFile_sector d hk (h.toOwned.guarded.apart y hy)
    · intro _ hdir
      apply absurd hdir hfile
  apply hcreated.withEntry (fun m hm => hguarded.toClosed.inTable hm) _ (InTable.of_freeInode hk)
  intro _ hdir
  apply absurd hdir hfile

/-- A directory is created in the root directory. -/
theorem Flat.createdDir {d : Disk} (h : Flat d) {k z : ℕ} (hk : freeInode d = some k)
    (hz : freeZone d = some z) (filename : List Byte) :
  Level (withEntry (createdDir d k z ROOT_SECTOR) ROOT_SECTOR (k + 1) filename)
  := by
  have hguarded := (h.toOwned.createdDir hk hz LiveDir.root).1
  obtain ⟨hfresh, hlo, hlive⟩ := h.toOwned.freeZone hz
  have hk0 := (freeInode_spec hk).1
  have hbehind : 265 < z * 2 := by omega
  have hlt : z < 4096 := by
    have := hfresh.1
    omega
  have hbare := h.createdDir_bare hk hz
  have hcreated : Level (Minix.createdDir d k z ROOT_SECTOR) := by
    apply h.toLevel.rezoned h.named
      ((createdDir_rewritten hk hbehind).rezoned (CreateDir_record hlt).2.1) (by omega)
    · intro y hy
      apply createdDir_sector hk hbehind (h.toOwned.guarded.apart y hy)
      rintro rfl
      apply hlive hy
    · intro _ _
      apply hbare
  apply hcreated.withEntry (fun m hm => hguarded.toClosed.inTable hm) _ (InTable.of_freeInode hk)
  intro _ _
  apply hbare

/-- An entry is moved to the root directory. -/
theorem Flat.moved {d : Disk} (h : Flat d) {x i : ℕ} (hlive : LiveDir d x) (hx0 : x ≠ 0)
    (hi : i < 16) (hused : entryOf d x i ≠ 0) (hone : entryOf d x i ≠ 1) (filename : List Byte) :
  Level (withEntry (removed d x i) ROOT_SECTOR (entryOf d x i) filename)
  := by
  have hn := h.named _ ⟨hused, x, i, hlive, hi, rfl⟩
  have hbehind := (h.toOwned.guarded.apart x hlive).resolve_left hx0
  have htable : SameTable d (removed d x i) := SameTable.update (Or.inr hbehind) _
  have hremoved := h.toOwned.guarded.removed hlive hx0 i
  apply (h.toLevel.removed h.named hbehind hone).withEntry
    (fun m hm => hremoved.toClosed.inTable hm) _ hn
  intro _ hdir
  rw [isDir_congr (modeOf_congr (htable.sector hn))] at hdir
  have hentry := h.toLevel.rootEntry (h.toLevel.live hlive) hi hused hone
  apply (h.bare _ hentry hone hdir).removed hn hbehind

theorem Flat.effect {s : State} {op : FileOp} {d' : Disk} (h : Flat s.disk)
    (hroot : InRoot s op) (heffect : Effect s op d') :
  Flat d'
  := by
  have howned := h.toOwned.effect hroot.steady heffect
  have hapart := h.toOwned.guarded.apart
  have hnamed := h.named
  have hlevel := h.toLevel
  refine ⟨howned, ?_⟩
  cases heffect with
  | refused op => apply hlevel
  | @CreateFile name filename x k hlook hk =>
      obtain rfl := hroot x filename hlook (by rw [hk]; simp)
      exact h.createdFile hk filename
  | noZone hlook hk =>
      apply hlevel.rezoned (n := 0) hnamed
      · apply SameTable.rezoned
        exact SameTable.update (Or.inl (show INODE_BITMAP_LBA < 10 by decide)) _
      · decide
      · intro y hy
        apply Function.update_of_ne (h.toOwned.guarded.toClosed.not_system hy).1
      · intro hentry
        apply absurd rfl hentry.1
  | @CreateDir name filename x k z hlook hk hz =>
      obtain rfl := hroot x filename hlook (by rw [hk]; simp) (by rw [hz]; simp)
      exact h.createdDir hk hz filename
  | @DeleteFile name x i d₁ hlook herased =>
      obtain ⟨⟨hlive, hx0⟩, hi, hused, hdots⟩ := lookupFile_ok hlook
      have hn := hnamed _ ⟨hused, x, i, hlive, hi, rfl⟩
      have hone : entryOf s.disk x i ≠ 1 := fun heq => hdots (h.dots x i hlive hi heq)
      obtain ⟨hcleared, hnamed', hS⟩ := h.erased hn hone herased
      apply hcleared.removed hnamed' ((hapart x hlive).resolve_left hx0)
      rwa [entryOf_congr (hS x hlive)]
  | @DeleteDir name x n d₁ hlook herased =>
      obtain ⟨⟨hlive, hx0⟩, -, hne, -, -, y, i, hy, hi, rfl, hdots⟩ := lookupDir_ok hlook
      have hn := hnamed _ ⟨hne, y, i, hy, hi, rfl⟩
      have hone : entryOf s.disk y i ≠ 1 := fun heq => hdots (h.dots y i hy hi heq)
      apply h.withoutInode hn hone herased hlive hx0
  | @WriteFile name input count n e buf data to_write hfind hne htaken =>
      subst hfind
      have hn := hnamed _ (FindEntry_named hne)
      have hfile := hroot hne
      obtain ⟨hgt, hlive, -⟩ := h.toOwned.zoneTaken hn hfile htaken
      have hbehind : 265 < i_zone buf (inodeOffset (run (FindEntry name) s).1) 0 * 2 := by omega
      apply hlevel.rezoned hnamed (stored_rezoned htaken.toZoned hn hbehind data to_write)
      · intro hone
        rw [hone] at hfile
        apply hfile (h.rootZone 1 0 ⟨by decide, by decide⟩ (by decide) h.home).2
      · intro x hx
        apply stored_sector htaken.toZoned hn hbehind data to_write (hapart x hx)
        rintro rfl
        apply hlive hx
      · intro _ hdir
        rw [isDir_congr (stored_modeOf htaken.toZoned hn hbehind data to_write hn)] at hdir
        apply absurd hdir hfile
  | @RenameFile old_name new_name filename x i y hlook =>
      obtain ⟨⟨hlive, hx0⟩, -, hi, hused⟩ := lookupMove_ok hlook
      obtain ⟨hone, rfl⟩ := hroot x i y filename hlook
      exact h.moved hlive hx0 hi hused hone filename

/-! ### Runs -/

theorem Flat.deletesEmpty {s : State} (h : Flat s.disk) :
  DeletesEmpty s
  := by
  intro path hsuccess
  rw [run_DeleteDir] at hsuccess
  cases hlook : (run (lookupDir path) s).1 with
  | error e =>
      have hneg := lookupDir_error hlook
      rw [hlook] at hsuccess
      rw [ESUCCESS] at hsuccess
      simp only at hsuccess
      omega
  | ok found =>
      obtain ⟨dir_sector, n⟩ := found
      obtain ⟨-, rfl, hne, hdir, -, x, i, hx, hi, heq, hdots⟩ := lookupDir_ok hlook
      have hused : entryOf s.disk x i ≠ 0 := by
        rwa [heq]
      have hone : foundDir path s ≠ 1 := by
        intro hone
        apply hdots (h.dots x i hx hi (heq.trans hone))
      obtain rfl := h.root_of_not_dots hx hi hused hdots
      use 1
      constructor
      · exact ⟨ROOT_SECTOR, i, hx, hi, heq, hdots, h.first⟩
      · apply (h.bare _ ⟨hne, i, hi, heq⟩ hone hdir).2

/-- In every state reached from an empty root directory, when entries are put into the root
directory only, a directory that `minix_DeleteDir` removes is empty. -/
theorem deletes_empty {s t : State} {ops : List FileOp}
    (h : Run (Restrict FileOp.Step InRoot) s ops t) (hs : EmptyRoot s.disk) :
  DeletesEmpty t
  := by
  apply Flat.deletesEmpty
  apply h.invariant (I := fun s => Flat s.disk) ?_ hs.flat
  rintro u op v hu ⟨hroot, hstep⟩
  simp only [FileOp.Step] at hstep
  rw [hstep]
  apply hu.effect hroot (effect u op)

/-! ### A directory in use -/

/-- A disk with an empty root directory, the inode 1, in zone 219; the inodes up to 2 and the
zones up to 219 are marked as used. -/
def emptyDisk : Disk :=
  Function.update (Function.update (Function.update (Function.update (fun _ _ => 0)
    INODE_BITMAP_LBA fun i => if i.val = 0 then 0x03 else 0)
    ZONE_BITMAP_LBA fun i => if i.val < 27 then 0xFF else if i.val = 27 then 0x0F else 0)
    10 fun i =>
      if i.val = 0 then 0xED else if i.val = 1 then 0x41 else if i.val = 4 then 64
      else if i.val = 14 then 219 else 0)
    ROOT_SECTOR fun i =>
      if i.val = 0 ∨ i.val = 32 then 1 else if i.val = 2 ∨ i.val = 34 ∨ i.val = 35 then 0x2E
      else 0

theorem emptyDisk_emptyRoot :
  EmptyRoot emptyDisk
  := by
  have hroot : RootOnly emptyDisk := by
    apply RootOnly.of_sector
    · unfold ZoneUsed
      decide +kernel
    · decide +kernel
    · intro x hlo hhi
      rw [emptyDisk, Function.update_of_ne (by rw [ROOT_SECTOR]; omega),
        Function.update_of_ne (by omega), Function.update_of_ne (by rw [ZONE_BITMAP_LBA]; omega),
        Function.update_of_ne (by rw [INODE_BITMAP_LBA]; omega)]
    · unfold IsDir
      decide +kernel
  refine ⟨hroot.zonesOwned, ⟨hroot.dir, ?_⟩, ?_, ?_, ?_⟩
  · exact hroot.zone 1 0 ⟨by decide, by decide⟩ (by decide)
  · decide +kernel
  · decide +kernel
  · decide +kernel

/-- The directory `/d` is created, and removed. -/
theorem deletes_empty_dir :
  DeletesEmpty (run (minix_CreateDir (ascii "/d")) (State.ofDisk emptyDisk)).2
  := by
  have hroot : InRoot (State.ofDisk emptyDisk) (.tree (.CreateDir (ascii "/d"))) := by
    have hlook : (run (lookupNew (ascii "/d")) (State.ofDisk emptyDisk)).1.map Prod.fst =
        .ok ROOT_SECTOR := by decide +kernel
    intro x filename hok _ _
    rw [hok] at hlook
    cases hlook
    rfl
  exact deletes_empty (Run.cons ⟨hroot, rfl⟩ (Run.nil _)) emptyDisk_emptyRoot

/-- The directory `/d` is removed with the file `/d/f` in it. -/
theorem deletes_nonempty :
  let s := State.ofDisk emptyDisk
  let t := (run (minix_CreateDir (ascii "/d")) s).2
  let u := (run (minix_CreateFile (ascii "/d/f")) t).2
  EmptyRoot s.disk ∧
    Run FileOp.Step s [.tree (.CreateDir (ascii "/d")), .tree (.CreateFile (ascii "/d/f"))] u ∧
    ¬ DeletesEmpty u
  := by
  intro s t u
  refine ⟨emptyDisk_emptyRoot, Run.cons rfl (Run.cons rfl (Run.nil _)), ?_⟩
  intro hempty
  obtain ⟨p, -, hdots⟩ := hempty (ascii "/d") (by decide +kernel)
  have hentry : entryOf u.disk (zoneOf u.disk (foundDir (ascii "/d") u) 0 * 2) 2 ≠ 0 := by
    decide +kernel
  have hnamed : ¬ IsDots u.disk (zoneOf u.disk (foundDir (ascii "/d") u) 0 * 2) 2 := by
    unfold IsDots
    decide +kernel
  apply hnamed (hdots.isDots (by decide) hentry)

end Minix
