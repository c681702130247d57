import LySystem.Machine.ParentTree
import LySystem.Minix.Empty

/-!
# The tree of directories

`..` names the parent of a directory, and an entry of the parent, the only one besides `.` and
`..`, names the directory.  A renaming changes the second and not the first; a record written
takes away the directory after it; a directory may be deleted with others in it.  Where calls
keep clear of this, the directories form a tree.
-/

namespace Minix

open CString Transition

/-- The inode of a directory. -/
def DirInode (d : Disk) (n : ℕ) : Prop := InTable n ∧ IsDir d n

/-- The sector of the directory `n`. -/
def dirSector (d : Disk) (n : ℕ) : ℕ := zoneOf d n 0 * 2

/-- The inode of the entry `..` of the directory `n`, the second one. -/
def up (d : Disk) (n : ℕ) : ℕ := entryOf d (dirSector d n) 1

/-- The entry `i` of the directory `p`, neither `.` nor `..`, names the inode `n`. -/
def Proper (d : Disk) (p n i : ℕ) : Prop :=
  DirInode d p ∧ i < 16 ∧ entryOf d (dirSector d p) i = n ∧ ¬ IsDots d (dirSector d p) i

/-- The directories reached from the root directory through such entries. -/
inductive Descends (d : Disk) : ℕ → Prop
  | root : Descends d 1
  | child {p n i : ℕ} : Descends d p → Proper d p n i → DirInode d n → Descends d n

/-- The first entry of the directory `n` is `.`, for itself. -/
def HasSelf (d : Disk) (n : ℕ) : Prop :=
  entryOf d (dirSector d n) 0 = n ∧
    strcmp (entryName (contents (d (dirSector d n)) []) 0) (ascii ".") = 0

/-- The second one is named `..`. -/
def HasUp (d : Disk) (n : ℕ) : Prop :=
  strcmp (entryName (contents (d (dirSector d n)) []) 1) (ascii "..") = 0

/-- The directories form a tree rooted at the root directory: each is reached from there, is named
by one entry besides `.` and `..`, and has `.` for itself and `..` for the directory with that
entry. -/
structure DirTree (d : Disk) : Prop where
  root : DirInode d 1 ∧ dirSector d 1 = ROOT_SECTOR
  reachable : ∀ n, DirInode d n → Descends d n
  self : ∀ n, DirInode d n → HasSelf d n
  placed : ∀ n, DirInode d n → n ≠ 1 → ∃ p i, Proper d p n i ∧
    (∀ p' i', Proper d p' n i' → p' = p ∧ i' = i) ∧ up d n = p ∧ HasUp d n

/-! ### The invariant -/

/-- The one entry that names the directory `n` is in the directory that `..` names. -/
def Placed (d : Disk) (n : ℕ) : Prop :=
  ∃ i, Proper d (up d n) n i ∧ ∀ p' i', Proper d p' n i' → p' = up d n ∧ i' = i

/-- The directories form a tree by their entries `..`; each has its one entry, but for `hole`. -/
structure Branches (d : Disk) (hole : ℕ) : Prop where
  tree : ParentTree {n | DirInode d n} 1 (up d)
  rootSector : dirSector d 1 = ROOT_SECTOR
  rootUp : up d 1 = 1
  self : ∀ n, DirInode d n → HasSelf d n
  hasUp : ∀ n, DirInode d n → HasUp d n
  placed : ∀ n, DirInode d n → n ≠ 1 → n ≠ hole → Placed d n

/-- No directory has its entry in the directory `n`. -/
def Childless (d : Disk) (n : ℕ) : Prop := ∀ m i, DirInode d m → ¬ Proper d n m i

section

variable {d d' : Disk} {hole hole' : ℕ}

/-- Directories with the same sector are the same. -/
theorem Branches.sector_inj (h : Branches d hole) {n m : ℕ} (hn : DirInode d n) (hm : DirInode d m)
    (heq : dirSector d n = dirSector d m) :
  n = m
  := by
  have hself := (h.self n hn).1
  rw [heq, (h.self m hm).1] at hself
  exact hself.symm

theorem Branches.up_dir (h : Branches d hole) {n : ℕ} (hn : DirInode d n) :
  DirInode d (up d n)
  := by
  by_cases hone : n = 1
  · rw [hone, h.rootUp]
    apply h.tree.root_mem
  · apply h.tree.parent_mem n hn hone

/-- An entry that names no directory is none of the first two. -/
theorem Branches.two_le (h : Branches d hole) {p i : ℕ} (hp : DirInode d p)
    (hfile : ¬ DirInode d (entryOf d (dirSector d p) i)) :
  2 ≤ i
  := by
  have h0 : i ≠ 0 := by
    rintro rfl
    rw [(h.self p hp).1] at hfile
    apply hfile hp
  have h1 : i ≠ 1 := by
    rintro rfl
    apply hfile (h.up_dir hp)
  omega

/-- Nor is one that is neither `.` nor `..`. -/
theorem Branches.proper_two_le (h : Branches d hole) {p n i : ℕ} (hp : Proper d p n i) :
  2 ≤ i
  := by
  obtain ⟨hdir, -, -, hdots⟩ := hp
  have h0 : i ≠ 0 := by
    rintro rfl
    apply hdots (Or.inl (h.self p hdir).2)
  have h1 : i ≠ 1 := by
    rintro rfl
    apply hdots (Or.inr (h.hasUp p hdir))
  omega

/-- Without a directory there, there is no hole. -/
theorem Branches.full (h : Branches d hole) (hhole : ¬ DirInode d hole) :
  Branches d 0
  := by
  refine ⟨h.tree, h.rootSector, h.rootUp, h.self, h.hasUp, ?_⟩
  intro n hn hone _
  apply h.placed n hn hone
  rintro rfl
  apply hhole hn

theorem Branches.dirTree (h : Branches d 0) :
  DirTree d
  := by
  refine ⟨⟨h.tree.root_mem, h.rootSector⟩, ?_, h.self, ?_⟩
  · apply h.tree.induction Descends.root
    intro n hn hone hup
    obtain ⟨i, hi, -⟩ := h.placed n hn hone hn.1.ne_zero
    apply Descends.child hup hi hn
  · intro n hn hone
    obtain ⟨i, hi, honly⟩ := h.placed n hn hone hn.1.ne_zero
    exact ⟨up d n, i, hi, honly, rfl, h.hasUp n hn⟩

theorem Branches.live (h : Branches d 0) {n : ℕ} (hn : DirInode d n) :
  LiveDir d (dirSector d n)
  := by
  apply h.tree.induction (P := fun n => LiveDir d (dirSector d n)) _ _ n hn
  · rw [h.rootSector]
    apply LiveDir.root
  · intro n hn hone hup
    obtain ⟨i, ⟨-, hi, heq, -⟩, -⟩ := h.placed n hn hone hn.1.ne_zero
    have hused : entryOf d (dirSector d (up d n)) i ≠ 0 := by
      rw [heq]
      apply hn.1.ne_zero
    have hlive := LiveDir.sub hup hi hused (by rw [heq]; exact hn.2)
    rwa [heq] at hlive

theorem Branches.of_live (h : Branches d 0) (hnamed : ∀ n, Named d n → InTable n) {x : ℕ}
    (hx : LiveDir d x) :
  ∃ p, DirInode d p ∧ dirSector d p = x
  := by
  rcases hx.cases with rfl | ⟨n, hn, hdir, rfl⟩
  · exact ⟨1, h.tree.root_mem, h.rootSector⟩
  · exact ⟨n, ⟨hnamed n hn, hdir⟩, rfl⟩

/-! ### Entries -/

/-- The two disks differ in one entry. -/
structure SlotChanged (d d' : Disk) (x i : ℕ) : Prop where
  table : SameTable d d'
  entries : ∀ y j, j < 16 → ¬ (y = x ∧ j = i) → entryOf d' y j = entryOf d y j
  names : ∀ y j, j < 16 → ¬ (y = x ∧ j = i) → ∀ name : List Byte, name.length < 30 →
    strcmp (entryName (contents (d' y) []) j) name = strcmp (entryName (contents (d y) []) j) name

theorem slotChanged_removed (d : Disk) {x : ℕ} (hx : 265 < x) (i : ℕ) :
  SlotChanged d (removed d x i) x i
  := by
  refine ⟨SameTable.update (Or.inr hx) _, ?_, ?_⟩
  · intro y j hj hne
    rw [entryOf_removed _ _ _ _ hj, if_neg hne]
  · intro y j hj hne name hlen
    apply strcmp_removed d hj hne hlen

theorem slotChanged_entered (d : Disk) {x : ℕ} (hx : 265 < x) (n i : ℕ) (filename : List Byte) :
  SlotChanged d (entered d x n filename i) x i
  := by
  refine ⟨SameTable.update (Or.inr hx) _, ?_, ?_⟩
  · intro y j hj hne
    rw [entryOf_entered _ _ _ _ _ _ hj, if_neg hne]
  · intro y j hj hne name hlen
    apply strcmp_entered d filename hj hne hlen

section

variable {x i : ℕ} (hc : SlotChanged d d' x i)
include hc

theorem SlotChanged.dirInode {n : ℕ} :
  DirInode d' n ↔ DirInode d n
  := by
  apply and_congr_right
  intro hn
  apply isDir_congr (modeOf_congr (hc.table.sector hn))

theorem SlotChanged.sector {n : ℕ} (hn : InTable n) :
  dirSector d' n = dirSector d n
  := by
  rw [dirSector, zoneOf_congr (hc.table.sector hn), dirSector]

theorem SlotChanged.isDots {y j : ℕ} (hj : j < 16) (hne : ¬ (y = x ∧ j = i)) :
  IsDots d' y j ↔ IsDots d y j
  := by
  rw [IsDots, hc.names y j hj hne _ (by decide), hc.names y j hj hne _ (by decide), IsDots]

/-- The other entries name what they named. -/
theorem SlotChanged.proper {p n j : ℕ} (hne : ¬ (dirSector d p = x ∧ j = i)) :
  Proper d' p n j ↔ Proper d p n j
  := by
  rw [Proper, Proper, hc.dirInode]
  apply and_congr_right
  intro hp
  apply and_congr_right
  intro hj
  rw [hc.sector hp.1, hc.entries _ j hj hne, hc.isDots hj hne]

theorem SlotChanged.up {n : ℕ} (hn : InTable n) (hne : ¬ (dirSector d n = x ∧ 1 = i)) :
  up d' n = up d n
  := by
  rw [Minix.up, hc.sector hn, hc.entries _ 1 (by decide) hne, Minix.up]

/-- Where the entry is none of the first two of a directory, only the entries of directories have
to be looked at. -/
theorem Branches.slot (h : Branches d hole) (hi : ∀ p, DirInode d p → dirSector d p = x → 2 ≤ i)
    (hplaced : ∀ n, DirInode d n → n ≠ 1 → n ≠ hole' →
      ∃ j, Proper d' (up d n) n j ∧ ∀ p' j', Proper d' p' n j' → p' = up d n ∧ j' = j) :
  Branches d' hole'
  := by
  have hne : ∀ n j, DirInode d n → j < 2 → ¬ (dirSector d n = x ∧ j = i) := by
    rintro n j hn hj ⟨hx, rfl⟩
    have := hi n hn hx
    omega
  have hup : ∀ n, DirInode d n → Minix.up d' n = Minix.up d n :=
    fun n hn => hc.up hn.1 (hne n 1 hn (by decide))
  constructor
  · apply h.tree.change (n := 0)
    · exact hc.dirInode.mpr h.tree.root_mem
    · decide
    · intro m hm _
      exact ⟨hc.dirInode.mp hm, hup m (hc.dirInode.mp hm)⟩
    · intro m hm _ _
      have hdir := h.up_dir (hc.dirInode.mp hm)
      exact ⟨hc.dirInode.mpr hdir, hdir.1.ne_zero⟩
    · intro hzero
      apply absurd rfl hzero.1.ne_zero
  · rw [hc.sector ⟨by decide, by decide⟩, h.rootSector]
  · rw [hup 1 h.tree.root_mem, h.rootUp]
  · intro n hn
    have hn' := hc.dirInode.mp hn
    have hslot := hne n 0 hn' (by decide)
    obtain ⟨hentry, hname⟩ := h.self n hn'
    rw [HasSelf, hc.sector hn.1, hc.entries _ 0 (by decide) hslot,
      hc.names _ 0 (by decide) hslot _ (by decide)]
    exact ⟨hentry, hname⟩
  · intro n hn
    have hn' := hc.dirInode.mp hn
    rw [HasUp, hc.sector hn.1, hc.names _ 1 (by decide) (hne n 1 hn' (by decide)) _ (by decide)]
    apply h.hasUp n hn'
  · intro n hn hone hhole
    have hn' := hc.dirInode.mp hn
    rw [Placed, hup n hn']
    apply hplaced n hn' hone hhole

/-- The entry names no directory before, and none afterwards. -/
theorem Branches.file_slot (h : Branches d 0) (hold : ¬ DirInode d (entryOf d x i))
    (hnew : ¬ DirInode d (entryOf d' x i)) :
  Branches d' 0
  := by
  apply h.slot hc
  · rintro p hp rfl
    apply h.two_le hp hold
  · intro n hn hone hzero
    obtain ⟨j, hj, honly⟩ := h.placed n hn hone hzero
    refine ⟨j, (hc.proper ?_).mpr hj, ?_⟩
    · rintro ⟨rfl, rfl⟩
      rw [hj.2.2.1] at hold
      apply hold hn
    · intro p' j' hp'
      apply honly p' j' ((hc.proper _).mp hp')
      rintro ⟨rfl, rfl⟩
      have heq := hp'.2.2.1
      rw [hc.sector hp'.1.1] at heq
      rw [heq] at hnew
      apply hnew hn

end

/-- The entry of a directory is removed. -/
theorem Branches.taken_out (h : Branches d 0) {p n i : ℕ} (hp : Proper d p n i)
    (hn : DirInode d n) (hone : n ≠ 1) (hc : SlotChanged d d' (dirSector d p) i)
    (hgone : entryOf d' (dirSector d p) i = 0) :
  Branches d' n ∧ up d n = p ∧ ∀ p' j, ¬ Proper d' p' n j
  := by
  obtain ⟨k, -, honly⟩ := h.placed n hn hone hn.1.ne_zero
  obtain ⟨rfl, rfl⟩ := honly p i hp
  -- The entry cleared names nothing.
  have hcleared : ∀ p' m j, DirInode d m → Proper d' p' m j →
      ¬ (dirSector d p' = dirSector d (up d n) ∧ j = i) := by
    rintro p' m j hm hproper ⟨hsec, rfl⟩
    have heq := hproper.2.2.1
    rw [hc.sector hproper.1.1, hsec, hgone] at heq
    apply hm.1.ne_zero heq.symm
  refine ⟨?_, rfl, ?_⟩
  · apply h.slot hc
    · intro p' _ hsec
      apply h.proper_two_le hp
    · intro m hm hm1 hmn
      obtain ⟨j, hj, honly'⟩ := h.placed m hm hm1 hm.1.ne_zero
      refine ⟨j, (hc.proper ?_).mpr hj, ?_⟩
      · rintro ⟨hsec, rfl⟩
        apply hmn
        rw [← hj.2.2.1, hsec, hp.2.2.1]
      · intro p' j' hproper
        apply honly' p' j' ((hc.proper (hcleared p' m j' hm hproper)).mp hproper)
  · intro p' j hproper
    have hslot := hcleared p' n j hn hproper
    obtain ⟨rfl, rfl⟩ := honly p' j ((hc.proper hslot).mp hproper)
    exact hslot ⟨rfl, rfl⟩

/-- A directory without one gets an entry in its parent. -/
theorem Branches.put_in {n i : ℕ} (h : Branches d n) (hn : DirInode d n)
    (hnone : ∀ p j, ¬ Proper d p n j) (hc : SlotChanged d d' (dirSector d (up d n)) i)
    (hi : i < 16) (hfree : entryOf d (dirSector d (up d n)) i = 0)
    (hentry : entryOf d' (dirSector d (up d n)) i = n)
    (hname : ¬ IsDots d' (dirSector d (up d n)) i) :
  Branches d' 0
  := by
  have hup := h.up_dir hn
  have hzero : ¬ DirInode d 0 := fun hdir => hdir.1.ne_zero rfl
  apply h.slot hc
  · intro p hp hsec
    apply h.two_le hp
    rwa [hsec, hfree]
  · intro m hm hone _
    by_cases hmn : m = n
    · subst hmn
      refine ⟨i, ?_, ?_⟩
      · refine ⟨hc.dirInode.mpr hup, hi, ?_, ?_⟩
        · rw [hc.sector hup.1, hentry]
        · rwa [hc.sector hup.1]
      · intro p' j' hproper
        by_cases hslot : dirSector d p' = dirSector d (up d m) ∧ j' = i
        · exact ⟨h.sector_inj (hc.dirInode.mp hproper.1) hup hslot.1, hslot.2⟩
        · apply absurd ((hc.proper hslot).mp hproper) (hnone p' j')
    · obtain ⟨j, hj, honly⟩ := h.placed m hm hone hmn
      refine ⟨j, (hc.proper ?_).mpr hj, ?_⟩
      · rintro ⟨hsec, rfl⟩
        have heq := hj.2.2.1
        rw [hsec, hfree] at heq
        apply hm.1.ne_zero heq.symm
      · intro p' j' hproper
        apply honly p' j' ((hc.proper _).mp hproper)
        rintro ⟨hsec, rfl⟩
        apply hmn
        have heq := hproper.2.2.1
        rw [hc.sector hproper.1.1, hsec, hentry] at heq
        exact heq.symm

/-! ### Records -/

/-- The entries of a directory that has not changed. -/
theorem proper_congr {p m i : ℕ} (hp : DirInode d p) (hp' : DirInode d' p)
    (hsame : d' (dirSector d' p) = d (dirSector d p)) :
  Proper d' p m i ↔ Proper d p m i
  := by
  simp only [Proper, hp, hp', IsDots, entryOf, hsame]

/-- A record is written to the inode `n`: directories without others in them are lost, and `n` may
be a new one. -/
theorem Branches.rewritten (h : Branches d 0) {n : ℕ} (hone : n ≠ 1)
    (hold : ∀ m, m ≠ n → DirInode d' m → DirInode d m ∧ dirSector d' m = dirSector d m)
    (hsector : ∀ m, DirInode d m → d' (dirSector d m) = d (dirSector d m))
    (hlost : ∀ m, DirInode d m → m = n ∨ ¬ IsDir d' m → m ≠ 1 ∧ Childless d m)
    (hnew : DirInode d' n → HasSelf d' n ∧ HasUp d' n ∧ DirInode d' (up d' n) ∧ up d' n ≠ n ∧
      Childless d' n) :
  Branches d' n
  := by
  have hkept : ∀ m, m ≠ n → DirInode d' m → DirInode d m ∧ dirSector d' m = dirSector d m ∧
      d' (dirSector d' m) = d (dirSector d m) := by
    intro m hmn hm
    obtain ⟨hm', heq⟩ := hold m hmn hm
    refine ⟨hm', heq, ?_⟩
    rw [heq, hsector m hm']
  have hup : ∀ m, m ≠ n → DirInode d' m → up d' m = up d m := by
    intro m hmn hm
    obtain ⟨-, heq, hsame⟩ := hkept m hmn hm
    rw [up, entryOf, hsame, ← entryOf, up]
  -- A directory with others in it stays.
  have hparent : ∀ m, m ≠ n → m ≠ 1 → DirInode d' m → DirInode d' (up d m) ∧ up d m ≠ n := by
    intro m hmn hm1 hm
    obtain ⟨hm', -, -⟩ := hkept m hmn hm
    obtain ⟨i, hi, -⟩ := h.placed m hm' hm1 hm.1.ne_zero
    have hstays : ¬ (up d m = n ∨ ¬ IsDir d' (up d m)) := by
      intro hcase
      apply (hlost (up d m) hi.1 hcase).2 m i hm' hi
    push Not at hstays
    exact ⟨⟨hi.1.1, hstays.2⟩, hstays.1⟩
  have hroot : DirInode d' 1 := by
    refine ⟨⟨by decide, by decide⟩, ?_⟩
    by_contra hdir
    apply (hlost 1 h.tree.root_mem (Or.inr hdir)).1 rfl
  have hproper : ∀ p m i, p ≠ n → DirInode d' p → (Proper d' p m i ↔ Proper d p m i) := by
    intro p m i hpn hp
    obtain ⟨hp', -, hsame⟩ := hkept p hpn hp
    apply proper_congr hp' hp hsame
  refine ⟨?_, ?_, ?_, ?_, ?_, ?_⟩
  · apply h.tree.change hroot hone
    · intro m hm hmn
      exact ⟨(hkept m hmn hm).1, hup m hmn hm⟩
    · intro m hm hmn hm1
      apply hparent m hmn hm1 hm
    · intro hn
      exact ⟨(hnew hn).2.2.1, (hnew hn).2.2.2.1⟩
  · rw [(hkept 1 hone.symm hroot).2.1, h.rootSector]
  · rw [hup 1 hone.symm hroot, h.rootUp]
  · intro m hm
    by_cases hmn : m = n
    · subst hmn
      apply (hnew hm).1
    · obtain ⟨hm', -, hsame⟩ := hkept m hmn hm
      rw [HasSelf, entryOf, hsame]
      apply h.self m hm'
  · intro m hm
    by_cases hmn : m = n
    · subst hmn
      apply (hnew hm).2.1
    · obtain ⟨hm', -, hsame⟩ := hkept m hmn hm
      rw [HasUp, hsame]
      apply h.hasUp m hm'
  · intro m hm hm1 hmn
    obtain ⟨hm', -, -⟩ := hkept m hmn hm
    obtain ⟨i, hi, honly⟩ := h.placed m hm' hm1 hm.1.ne_zero
    obtain ⟨hpar, hparn⟩ := hparent m hmn hm1 hm
    rw [Placed, hup m hmn hm]
    refine ⟨i, (hproper _ m i hparn hpar).mpr hi, ?_⟩
    intro p' i' hp'
    by_cases hpn : p' = n
    · subst hpn
      apply absurd hp' ((hnew hp'.1).2.2.2.2 m i' hm)
    · apply honly p' i' ((hproper p' m i' hpn hp'.1).mp hp')

/-- The record of the inode `n` may be written: the directories lost, its own and the next one,
have no directories in them. -/
def Spares (d : Disk) (n : ℕ) : Prop :=
  (DirInode d n → Childless d n) ∧ (n % 16 ≠ 0 → DirInode d (n + 1) → Childless d (n + 1))

theorem Spares.lost {n : ℕ} {w : Memory} (h : Spares d n) (hr : Rewritten d d' n w)
    (hn : InTable n) (hone : n ≠ 1) {m : ℕ} (hm : DirInode d m) (hcase : m = n ∨ ¬ IsDir d' m) :
  m ≠ 1 ∧ Childless d m
  := by
  have hlo := hn.1
  rcases hcase with rfl | hdir
  · exact ⟨hone, h.1 hm⟩
  · by_cases hmn : m = n
    · subst hmn
      exact ⟨hone, h.1 hm⟩
    · by_cases hnext : m = n + 1 ∧ n % 16 ≠ 0
      · obtain ⟨rfl, hmod⟩ := hnext
        exact ⟨by omega, h.2 hmod hm⟩
      · rw [isDir_congr (hr.modes m hm.1 hmn hnext)] at hdir
        apply absurd hm.2 hdir

theorem Rezoned.old {n : ℕ} (hr : Rezoned d d' n) {m : ℕ} (hmn : m ≠ n) (hm : DirInode d' m) :
  DirInode d m ∧ dirSector d' m = dirSector d m
  := by
  refine ⟨⟨hm.1, hr.modes m hm.1 hmn hm.2⟩, ?_⟩
  rw [dirSector, hr.zones m 0 hm.1 hmn (by decide), dirSector]

/-- The inode `n` gets the record of a file, or none. -/
theorem Branches.no_dir (h : Branches d 0) {n : ℕ} {w : Memory} (hr : Rewritten d d' n w)
    (hn : InTable n) (hone : n ≠ 1) (hspares : Spares d n) (hunused : i_unused w 0 = 0)
    (hfile : ¬ IsDir d' n) (hS : ∀ x, LiveDir d x → d' x = d x) :
  Branches d' 0
  := by
  have hrewritten : Branches d' n := by
    apply h.rewritten hone
    · intro m hmn hm
      apply (hr.rezoned hunused).old hmn hm
    · intro m hm
      apply hS _ (h.live hm)
    · intro m hm hcase
      apply hspares.lost hr hn hone hm hcase
    · intro hdir
      apply absurd hdir.2 hfile
  apply hrewritten.full
  intro hdir
  apply hfile hdir.2

/-- All directories are as before. -/
theorem Branches.frame (h : Branches d 0) (hmodes : ∀ m, InTable m → (IsDir d' m ↔ IsDir d m))
    (hzones : ∀ m, DirInode d m → zoneOf d' m 0 = zoneOf d m 0)
    (hS : ∀ x, LiveDir d x → d' x = d x) :
  Branches d' 0
  := by
  apply h.rewritten (by decide)
  · intro m _ hm
    have hm' : DirInode d m := ⟨hm.1, (hmodes m hm.1).mp hm.2⟩
    use hm'
    rw [dirSector, hzones m hm', dirSector]
  · intro m hm
    apply hS _ (h.live hm)
  · rintro m hm (rfl | hdir)
    · apply absurd rfl hm.1.ne_zero
    · apply absurd ((hmodes m hm.1).mpr hm.2) hdir
  · intro hzero
    apply absurd rfl hzero.1.ne_zero

end

/-! ### Calls -/

/-- The name `.` or `..`. -/
def DotsName (filename : List Byte) : Prop :=
  strcmp (chars filename) (ascii ".") = 0 ∨ strcmp (chars filename) (ascii "..") = 0

theorem isDots_entered_self (d : Disk) (x n : ℕ) {i : ℕ} (filename : List Byte) (hi : i < 16) :
  IsDots (entered d x n filename i) x i ↔ DotsName filename
  := by
  have hname : ∀ name : List Byte, name.length < 30 →
      strcmp (entryName (contents (entered d x n filename i x) []) i) name =
        strcmp (chars filename) name := by
    intro name hlen
    rw [entered, Function.update_self, strcmp_sector _ hi hlen, strcmp_setEntry _ _ _ _ hlen,
      strcmp_strncpy _ _ hlen]
  rw [IsDots, hname _ (by decide), hname _ (by decide), DotsName]

/-- The call takes no directory away that others are in, puts each new one in a place, under an
inode that no entry names, and renames directories within their parents. -/
def Orderly (s : State) : FileOp → Prop
  | .tree (.CreateFile name) => ∀ x filename k, (run (lookupNew name) s).1 = .ok (x, filename) →
      freeInode s.disk = some k → Spares s.disk (k + 1)
  | .tree (.CreateDir name) => ∀ x filename k z, (run (lookupNew name) s).1 = .ok (x, filename) →
      freeInode s.disk = some k → freeZone s.disk = some z →
        (∀ p i, ¬ Proper s.disk p (k + 1) i) ∧ Spares s.disk (k + 1) ∧
          ((k + 1) % 16 ≠ 0 → DirInode s.disk (k + 2) → dirSector s.disk (k + 2) ≠ x) ∧
          freeEntry s.disk x ≠ none ∧ ¬ DotsName filename
  | .tree (.DeleteFile name) => ∀ x i, (run (lookupFile name) s).1 = .ok (x, i) →
      Spares s.disk (entryOf s.disk x i)
  | .tree (.DeleteDir name) => ∀ x n, (run (lookupDir name) s).1 = .ok (x, n) → Spares s.disk n
  | .WriteFile name _ _ => (run (FindEntry name) s).1 ≠ 0 → ¬ IsDir s.disk (run (FindEntry name) s).1
  | .RenameFile old_name new_name => ∀ x i y filename,
      (run (lookupMove old_name new_name) s).1 = .ok (x, i, y, filename) →
        IsDir s.disk (entryOf s.disk x i) → y = x ∧ ¬ IsDots s.disk x i ∧ ¬ DotsName filename

/-- The zones have one owner each, and the directories form a tree. -/
structure Rooted (d : Disk) : Prop extends Owned d, Branches d 0

theorem Orderly.steady {s : State} {op : FileOp} (hs : Rooted s.disk) (h : Orderly s op) :
  Steady s op
  := by
  cases op with
  | tree op => trivial
  | WriteFile name input count => apply h
  | RenameFile old_name new_name =>
      intro x i y filename hlook hone
      obtain ⟨⟨hlive, -⟩, -, hi, -⟩ := lookupMove_ok hlook
      have hdir : IsDir s.disk (entryOf s.disk x i) := by
        rw [hone]
        apply hs.tree.root_mem.2
      apply (h x i y filename hlook hdir).2.1 (hs.dots x i hlive hi hone)

section

variable {d d' : Disk}

/-- A file gets an entry. -/
theorem Branches.withEntry_file (h : Branches d 0) {x n : ℕ} (hx : 265 < x) (filename : List Byte)
    (hn : n < 2 ^ 16) (hfile : ¬ DirInode d n) :
  Branches (withEntry d x n filename) 0
  := by
  rcases withEntry_cases d x n filename with heq | ⟨i, hi, hfree, heq⟩
  · rwa [heq]
  · rw [heq]
    apply h.file_slot (slotChanged_entered d hx n i filename)
    · rw [hfree]
      intro hzero
      apply hzero.1.ne_zero rfl
    · rwa [entryOf_entered _ _ _ _ _ _ hi, if_pos ⟨rfl, rfl⟩, Nat.mod_eq_of_lt hn]

/-- The entry of a file is removed. -/
theorem Branches.removed_file (h : Branches d 0) {x i : ℕ} (hx : 265 < x) (hi : i < 16)
    (hfile : ¬ DirInode d (entryOf d x i)) :
  Branches (removed d x i) 0
  := by
  apply h.file_slot (slotChanged_removed d hx i) hfile
  rw [entryOf_removed _ _ _ _ hi, if_pos ⟨rfl, rfl⟩]
  intro hzero
  apply hzero.1.ne_zero rfl

/-- A directory is put into its parent. -/
theorem Branches.withEntry_dir {n x : ℕ} (h : Branches d n) (hn : DirInode d n) (hx : 265 < x)
    (hparent : dirSector d (up d n) = x) (hnone : ∀ p j, ¬ Proper d p n j)
    (hroom : freeEntry d x ≠ none) {filename : List Byte} (hname : ¬ DotsName filename) :
  Branches (withEntry d x n filename) 0
  := by
  have hlt : n < 2 ^ 16 := by
    have := hn.1.2
    omega
  rw [withEntry]
  cases hfree : freeEntry d x with
  | none => apply absurd hfree hroom
  | some i =>
      obtain ⟨hi, hzero⟩ := freeEntry_spec hfree
      subst hparent
      apply h.put_in hn hnone (slotChanged_entered d hx n i filename) hi hzero
      · rw [entryOf_entered _ _ _ _ _ _ hi, if_pos ⟨rfl, rfl⟩, Nat.mod_eq_of_lt hlt]
      · rwa [isDots_entered_self d _ n filename hi]

/-- A directory gets another name in its parent. -/
theorem Branches.renamed (h : Branches d 0) {p n i : ℕ} (hp : Proper d p n i) (hn : DirInode d n)
    (hone : n ≠ 1) (hx : 265 < dirSector d p) {filename : List Byte} (hname : ¬ DotsName filename) :
  Branches (withEntry (removed d (dirSector d p) i) (dirSector d p) n filename) 0
  := by
  have hc := slotChanged_removed d hx i
  have hgone : entryOf (removed d (dirSector d p) i) (dirSector d p) i = 0 := by
    rw [entryOf_removed _ _ _ _ hp.2.1, if_pos ⟨rfl, rfl⟩]
  have hge := h.proper_two_le hp
  obtain ⟨hout, hup, hnone⟩ := h.taken_out hp hn hone hc hgone
  have hup' : up (removed d (dirSector d p) i) n = p := by
    rw [hc.up hn.1, hup]
    omega
  apply hout.withEntry_dir (hc.dirInode.mpr hn) hx _ hnone (freeEntry_ne_none hp.2.1 hgone) hname
  rw [hup', hc.sector hp.1.1]

/-- A new directory, in a zone of its own. -/
theorem Rooted.createdDir (h : Rooted d) {k z x : ℕ} (hk : freeInode d = some k)
    (hz : freeZone d = some z) (hx : LiveDir d x) (hnone : ∀ p i, ¬ Proper d p (k + 1) i)
    (hspares : Spares d (k + 1))
    (hparent : (k + 1) % 16 ≠ 0 → DirInode d (k + 2) → dirSector d (k + 2) ≠ x) :
  Branches (createdDir d k z x) (k + 1) ∧ DirInode (createdDir d k z x) (k + 1) ∧
    dirSector (createdDir d k z x) (up (createdDir d k z x) (k + 1)) = x ∧
    ∀ p i, ¬ Proper (createdDir d k z x) p (k + 1) i
  := by
  have hn := InTable.of_freeInode hk
  have hone : k + 1 ≠ 1 := by
    have := (freeInode_spec hk).1
    omega
  have hapart := h.toOwned.guarded.apart
  obtain ⟨hfresh, hlo, hlive⟩ := h.toOwned.freeZone hz
  have hbehind : 265 < z * 2 := by omega
  have hlt : z < 4096 := by
    have := hfresh.1
    omega
  obtain ⟨-, hzone⟩ := h.toOwned.createdDir hk hz hx
  obtain ⟨hmode, hunused, -⟩ := CreateDir_record hlt
  obtain ⟨hselfName, hupName⟩ := createdDir_names (d := d) (k := k) (z := z) (x := x)
  have hrec := createdDir_rewritten (x := x) hk hbehind
  have hS : ∀ y, LiveDir d y → Minix.createdDir d k z x y = d y := by
    intro y hy
    apply createdDir_sector hk hbehind (hapart y hy)
    rintro rfl
    apply hlive hy
  have hentries : ∀ i < 16, entryOf (Minix.createdDir d k z x) (z * 2) i =
      if i = 1 then entryOf d x 0 else if i = 0 then k + 1 else 0 :=
    fun i hi => createdDir_entries hk (hapart x hx) hi
  -- The parent, and the entry `..` for it.
  obtain ⟨p, hp, rfl⟩ := h.toBranches.of_live h.named hx
  have hdir : DirInode (Minix.createdDir d k z (dirSector d p)) (k + 1) := by
    refine ⟨hn, ?_⟩
    rw [IsDir, hrec.mode, hmode]
  have hsec : dirSector (Minix.createdDir d k z (dirSector d p)) (k + 1) = z * 2 := by
    rw [dirSector, hzone]
  have hup : up (Minix.createdDir d k z (dirSector d p)) (k + 1) = p := by
    rw [up, hsec, hentries 1 (by decide), if_pos rfl, (h.self p hp).1]
  have hpn : p ≠ k + 1 := by
    rintro rfl
    obtain ⟨i, hi, -⟩ := h.placed _ hp hone hp.1.ne_zero
    apply hnone _ i hi
  have hp' : DirInode (Minix.createdDir d k z (dirSector d p)) p := by
    refine ⟨hp.1, (isDir_congr (hrec.modes p hp.1 hpn ?_)).mpr hp.2⟩
    rintro ⟨rfl, hmod⟩
    apply hparent hmod hp rfl
  have hempty : ∀ m i, m ≠ 0 → ¬ Proper (Minix.createdDir d k z (dirSector d p)) (k + 1) m i := by
    rintro m i hm ⟨-, hi, heq, hdots⟩
    rw [hsec] at heq hdots
    rw [hentries i hi] at heq
    split_ifs at heq with hlast hfirst
    · subst hlast
      apply hdots (Or.inr hupName)
    · subst hfirst
      apply hdots (Or.inl hselfName)
    · apply hm heq.symm
  refine ⟨?_, hdir, ?_, ?_⟩
  · apply h.toBranches.rewritten hone
    · intro m hmn hm
      apply (hrec.rezoned hunused).old hmn hm
    · intro m hm
      apply hS _ (h.toBranches.live hm)
    · intro m hm hcase
      apply hspares.lost hrec hn hone hm hcase
    · intro _
      rw [HasSelf, HasUp, hsec, hup, hentries 0 (by decide)]
      refine ⟨⟨rfl, hselfName⟩, hupName, hp', hpn, ?_⟩
      intro m i hm
      apply hempty m i hm.1.ne_zero
  · rw [hup]
    exact ((hrec.rezoned hunused).old hpn hp').2
  · intro q i hq
    by_cases hqn : q = k + 1
    · subst hqn
      apply hempty _ i hn.ne_zero hq
    · obtain ⟨hold, heq⟩ := (hrec.rezoned hunused).old hqn hq.1
      apply hnone q i ((proper_congr hold hq.1 _).mp hq)
      rw [heq, hS _ (h.toBranches.live hold)]

/-- A file gets the first free inode. -/
theorem Rooted.createdFile (h : Rooted d) {k : ℕ} (hk : freeInode d = some k)
    (hspares : Spares d (k + 1)) :
  Branches (createdFile d k) 0 ∧ ¬ IsDir (createdFile d k) (k + 1)
  := by
  obtain ⟨-, hfile⟩ := h.toOwned.createdFile hk
  have hone : k + 1 ≠ 1 := by
    have := (freeInode_spec hk).1
    omega
  refine ⟨?_, hfile⟩
  apply h.toBranches.no_dir (createdFile_rewritten d hk) (InTable.of_freeInode hk) hone hspares
    CreateFile_record.2.1 hfile
  intro y hy
  apply createdFile_sector d hk (h.toOwned.guarded.apart y hy)

/-- An inode that takes no directory away is erased. -/
theorem Rooted.erased (h : Rooted d) {n : ℕ} (hn : InTable n) (hone : n ≠ 1)
    (hspares : Spares d n) (herased : Erased d d' n) :
  Branches (unmarked d' n) 0 ∧ ¬ IsDir (unmarked d' n) n ∧
    ∀ x, LiveDir d x → unmarked d' n x = d x
  := by
  obtain ⟨hrec, hS⟩ := h.toOwned.erased_record hn herased
  have hfile : ¬ IsDir (unmarked d' n) n := by
    rw [IsDir, hrec.mode]
    decide
  exact ⟨h.toBranches.no_dir hrec hn hone hspares (by decide) hfile hS, hfile, hS⟩

/-- The entry of a file is moved, or that of a directory renamed in its directory. -/
theorem Rooted.moved (h : Rooted d) {x i y : ℕ} {filename : List Byte} (hlive : LiveDir d x)
    (hx0 : x ≠ 0) (hlive' : LiveDir d y) (hy0 : y ≠ 0) (hi : i < 16) (hused : entryOf d x i ≠ 0)
    (hdirs : IsDir d (entryOf d x i) → y = x ∧ ¬ IsDots d x i ∧ ¬ DotsName filename) :
  Branches (withEntry (removed d x i) y (entryOf d x i) filename) 0
  := by
  have hapart := h.toOwned.guarded.apart
  have hn := h.named _ ⟨hused, x, i, hlive, hi, rfl⟩
  have hbehind := (hapart x hlive).resolve_left hx0
  by_cases hdir : IsDir d (entryOf d x i)
  · obtain ⟨rfl, hdots, hname⟩ := hdirs hdir
    obtain ⟨p, hp, rfl⟩ := h.toBranches.of_live h.named hlive
    have hone : entryOf d (dirSector d p) i ≠ 1 :=
      fun heq => hdots (h.dots _ i hlive hi heq)
    apply h.toBranches.renamed ⟨hp, hi, rfl, hdots⟩ ⟨hn, hdir⟩ hone hbehind hname
  · have hfile : ¬ DirInode d (entryOf d x i) := fun hboth => hdir hboth.2
    apply (h.toBranches.removed_file hbehind hi hfile).withEntry_file
      ((hapart y hlive').resolve_left hy0) filename
    · have := hn.2
      omega
    · rwa [(slotChanged_removed d hbehind i).dirInode]

end

theorem Rooted.effect {s : State} {op : FileOp} {d' : Disk} (h : Rooted s.disk)
    (horderly : Orderly s op) (heffect : Effect s op d') :
  Rooted d'
  := by
  refine ⟨h.toOwned.effect (horderly.steady h) heffect, ?_⟩
  have hapart := h.toOwned.guarded.apart
  have hbranches := h.toBranches
  cases heffect with
  | refused op => apply hbranches
  | @CreateFile name filename x k hlook hk =>
      obtain ⟨hlive, hx0⟩ := lookupNew_ok hlook
      have hn := InTable.of_freeInode hk
      obtain ⟨hcreated, hfile⟩ := h.createdFile hk (horderly x filename k hlook hk)
      apply hcreated.withEntry_file ((hapart x hlive).resolve_left hx0) filename
      · have := hn.2
        omega
      · intro hdir
        apply hfile hdir.2
  | @noZone name filename x k hlook hk =>
      have htable : SameTable s.disk (marked INODE_BITMAP_LBA s.disk k) :=
        SameTable.update (Or.inl (show INODE_BITMAP_LBA < 10 by decide)) _
      apply hbranches.frame
      · intro m hm
        apply isDir_congr (modeOf_congr (htable.sector hm))
      · intro m hm
        apply zoneOf_congr (htable.sector hm.1)
      · intro y hy
        apply Function.update_of_ne (h.toOwned.guarded.toClosed.not_system hy).1
  | @CreateDir name filename x k z hlook hk hz =>
      obtain ⟨hlive, hx0⟩ := lookupNew_ok hlook
      obtain ⟨hnone, hspares, hparent, hroom, hname⟩ := horderly x filename k z hlook hk hz
      obtain ⟨hcreated, hdir, hup, hnone'⟩ := h.createdDir hk hz hlive hnone hspares hparent
      apply hcreated.withEntry_dir hdir ((hapart x hlive).resolve_left hx0) hup hnone' _ hname
      obtain ⟨-, hlo, hout⟩ := h.toOwned.freeZone hz
      rw [freeEntry, createdDir_sector hk (by omega) (hapart x hlive), ← freeEntry]
      · apply hroom
      · rintro rfl
        apply hout hlive
  | @DeleteFile name x i d₁ hlook herased =>
      obtain ⟨⟨hlive, hx0⟩, hi, hused, hdots⟩ := lookupFile_ok hlook
      have hn := h.named _ ⟨hused, x, i, hlive, hi, rfl⟩
      have hone : entryOf s.disk x i ≠ 1 := fun heq => hdots (h.dots x i hlive hi heq)
      obtain ⟨hcleared, hfile, hS⟩ := h.erased hn hone (horderly x i hlook) herased
      apply hcleared.removed_file ((hapart x hlive).resolve_left hx0) hi
      rw [entryOf_congr (hS x hlive)]
      intro hdir
      apply hfile hdir.2
  | @DeleteDir name x n d₁ hlook herased =>
      obtain ⟨⟨hlive, hx0⟩, -, hne, -, -, y, i, hy, hi, rfl, hdots⟩ := lookupDir_ok hlook
      have hn := h.named _ ⟨hne, y, i, hy, hi, rfl⟩
      have hone : entryOf s.disk y i ≠ 1 := fun heq => hdots (h.dots y i hy hi heq)
      obtain ⟨hcleared, hfile, -⟩ := h.erased hn hone (horderly x _ hlook) herased
      rcases withoutInode_cases (unmarked d₁ (entryOf s.disk y i)) x (entryOf s.disk y i) with
        heq | ⟨j, hj, hentry, heq⟩
      · rwa [heq]
      · rw [heq]
        apply hcleared.removed_file ((hapart x hlive).resolve_left hx0) hj
        rw [hentry]
        intro hdir
        apply hfile hdir.2
  | @WriteFile name input count n e buf data to_write hfind hne htaken =>
      subst hfind
      have hn := h.named _ (FindEntry_named hne)
      have hfile := horderly hne
      obtain ⟨hgt, hout, -⟩ := h.toOwned.zoneTaken hn hfile htaken
      have hbehind : 265 < i_zone buf (inodeOffset (run (FindEntry name) s).1) 0 * 2 := by omega
      apply hbranches.frame
      · intro m hm
        apply isDir_congr (stored_modeOf htaken.toZoned hn hbehind data to_write hm)
      · intro m hm
        apply stored_zoneOf htaken.toZoned hn hbehind data to_write hm.1 (by decide)
        left
        rintro rfl
        apply hfile hm.2
      · intro y hy
        apply stored_sector htaken.toZoned hn hbehind data to_write (hapart y hy)
        rintro rfl
        apply hout hy
  | @RenameFile old_name new_name filename x i y hlook =>
      obtain ⟨⟨hlive, hx0⟩, ⟨hlive', hy0⟩, hi, hused⟩ := lookupMove_ok hlook
      apply h.moved hlive hx0 hlive' hy0 hi hused
      exact horderly x i y filename hlook

/-! ### Runs -/

theorem EmptyRoot.rooted {d : Disk} (h : EmptyRoot d) (honly : ∀ n, DirInode d n → n = 1) :
  Rooted d
  := by
  have hroot : dirSector d 1 = ROOT_SECTOR := by
    rw [dirSector, h.rootDir.2]
    rfl
  refine ⟨h.flat.toOwned, ?_⟩
  constructor
  · refine ⟨⟨⟨by decide, by decide⟩, h.rootDir.1⟩, ?_, fun _ => 0, ?_⟩
    · intro n hn hone
      apply absurd (honly n hn) hone
    · intro n hn hone
      apply absurd (honly n hn) hone
  · apply hroot
  · rw [up, hroot, h.parent.1]
  · intro n hn
    rw [honly n hn, HasSelf, hroot]
    apply h.self
  · intro n hn
    rw [honly n hn, HasUp, hroot]
    apply h.parent.2
  · intro n hn hone
    apply absurd (honly n hn) hone

/-- In every state reached from an empty root directory, the only one on the disk, by orderly calls
the directories form a tree. -/
theorem directories_tree {s t : State} {ops : List FileOp}
    (h : Run (Restrict FileOp.Step Orderly) s ops t) (hs : EmptyRoot s.disk)
    (honly : ∀ n, DirInode s.disk n → n = 1) :
  DirTree t.disk
  := by
  have ht : Rooted t.disk := by
    apply h.invariant (I := fun s => Rooted s.disk) ?_ (hs.rooted honly)
    rintro u op v hu ⟨horderly, hstep⟩
    simp only [FileOp.Step] at hstep
    rw [hstep]
    apply hu.effect horderly (effect u op)
  apply ht.toBranches.dirTree

/-! ### A directory moved -/

/-- The root directory is the only directory. -/
theorem emptyDisk_dirs {n : ℕ} (h : DirInode emptyDisk n) :
  n = 1
  := by
  by_cases hlt : n < 17
  · have hfirst : ∀ n < 17, 1 ≤ n → isDirMode (modeOf emptyDisk n) = true → n = 1 := by
      decide +kernel
    apply hfirst n hlt h.1.1 h.2
  · have hsec := h.1.sector
    have hbehind : inodeSector n ≠ 10 := by
      rw [inodeSector_eq h.1.ne_zero]
      omega
    have hzero : emptyDisk (inodeSector n) = fun _ => 0 := by
      rw [emptyDisk, Function.update_of_ne (by rw [ROOT_SECTOR]; omega),
        Function.update_of_ne hbehind, Function.update_of_ne (by rw [ZONE_BITMAP_LBA]; omega),
        Function.update_of_ne (by rw [INODE_BITMAP_LBA]; omega)]
    have hmode : modeOf emptyDisk n = 0 := by
      rw [modeOf, hzero]
      apply Memory.load_of_digits (v := 0)
      intro i _
      rw [contents, Nat.zero_div]
      split_ifs
      all_goals rfl
    have hdir := h.2
    rw [IsDir, hmode] at hdir
    cases hdir

theorem directories_tree_dir :
  DirTree (run (minix_CreateDir (ascii "/d")) (State.ofDisk emptyDisk)).2.disk
  := by
  have horderly : Orderly (State.ofDisk emptyDisk) (.tree (.CreateDir (ascii "/d"))) := by
    have hlook : (run (lookupNew (ascii "/d")) (State.ofDisk emptyDisk)).1.map
        (fun found => (found.1, decide (strcmp (chars found.2) (ascii ".") = 0 ∨
          strcmp (chars found.2) (ascii "..") = 0))) = .ok (ROOT_SECTOR, false) := by
      decide +kernel
    have hfree : freeInode emptyDisk = some 2 := by decide +kernel
    intro x filename k z hok hk _
    obtain rfl := Option.some.inj (hfree.symm.trans hk)
    rw [hok] at hlook
    obtain ⟨rfl, hname⟩ := Prod.mk.inj (Except.ok.inj hlook)
    refine ⟨?_, ⟨?_, ?_⟩, ?_, by decide +kernel, ?_⟩
    · rintro p i ⟨hp, hi, heq, -⟩
      have hnone : ∀ i < 16, entryOf emptyDisk (dirSector emptyDisk 1) i ≠ 3 := by decide +kernel
      rw [emptyDisk_dirs hp] at heq
      apply hnone i hi heq
    · intro hdir
      cases emptyDisk_dirs hdir
    · intro _ hdir
      cases emptyDisk_dirs hdir
    · intro _ hdir
      cases emptyDisk_dirs hdir
    · unfold DotsName
      apply of_decide_eq_false hname
  exact directories_tree (Run.cons ⟨horderly, rfl⟩ (Run.nil _)) emptyDisk_emptyRoot
    fun _ => emptyDisk_dirs

/-- The directory `/b` is moved to `/a`, and its entry `..` still names the root directory. -/
theorem directories_no_tree :
  let s := State.ofDisk emptyDisk
  let t := (run (minix_CreateDir (ascii "/b")) (run (minix_CreateDir (ascii "/a")) s).2).2
  let u := (run (minix_RenameFile (ascii "/b") (ascii "/a/b")) t).2
  EmptyRoot s.disk ∧ (∀ n, DirInode s.disk n → n = 1) ∧
    Run FileOp.Step s [.tree (.CreateDir (ascii "/a")), .tree (.CreateDir (ascii "/b")),
      .RenameFile (ascii "/b") (ascii "/a/b")] u ∧
    ¬ DirTree u.disk
  := by
  intro s t u
  refine ⟨emptyDisk_emptyRoot, fun _ => emptyDisk_dirs,
    Run.cons rfl (Run.cons rfl (Run.cons rfl (Run.nil _))), ?_⟩
  intro htree
  have hdir : DirInode u.disk 4 := by
    refine ⟨⟨by decide, by decide⟩, ?_⟩
    unfold IsDir
    decide +kernel
  have hup : up u.disk 4 = 1 := by decide +kernel
  have hnone : ∀ i < 16, entryOf u.disk (dirSector u.disk 1) i ≠ 4 := by decide +kernel
  obtain ⟨p, i, hproper, -, heq, -⟩ := htree.placed 4 hdir (by decide)
  obtain rfl := heq.symm.trans hup
  apply hnone i hproper.2.1 hproper.2.2.1

end Minix
