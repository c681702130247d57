import LySystem.Minix.Operation

/-!
# The inodes in use

The inode `n` has bit `n - 1` of the bitmap when it is taken, but deleting it clears bit `n`.
What the bitmap should mark is what the entries of the directories name: creations keep it so,
deletions do not.
-/

namespace Minix

open CString Transition

/-! ### A tree with one more entry -/

/-- An entry for the inode `n` has been added to the tree of `d`; when `n` is a directory, its
own entries name nothing else that is new. -/
structure Grown (d d' : Disk) (n : ℕ) : Prop where
  ne_zero : n ≠ 0
  place : ∃ x i, LiveDir d x ∧ i < 16 ∧ entryOf d' x i = n
  entries : ∀ x i, LiveDir d x → i < 16 →
    entryOf d' x i = entryOf d x i ∨ entryOf d x i = 0 ∧ entryOf d' x i = n
  modes : ∀ m, Named d m → (IsDir d' m ↔ IsDir d m)
  zones : ∀ m, Named d m → zoneOf d' m 0 = zoneOf d m 0
  new : IsDir d' n → ∀ i < 16, entryOf d' (zoneOf d' n 0 * 2) i = 0 ∨
    entryOf d' (zoneOf d' n 0 * 2) i = n ∨ Named d (entryOf d' (zoneOf d' n 0 * 2) i)

section

variable {d d' : Disk} {n : ℕ}

theorem Grown.live (h : Grown d d' n) {x : ℕ} (hx : LiveDir d x) :
  LiveDir d' x
  := by
  induction hx with
  | root => apply LiveDir.root
  | @sub x i hx hi hused hdir ih =>
      have hnamed : Named d (entryOf d x i) := ⟨hused, x, i, hx, hi, rfl⟩
      have hentry := (h.entries x i hx hi).resolve_right fun hfree => hused hfree.1
      rw [← h.zones _ hnamed, ← hentry]
      apply LiveDir.sub ih hi
      · rwa [hentry]
      · rw [hentry]
        apply (h.modes _ hnamed).mpr hdir

/-- An entry of the grown tree names the new inode, or one that was named before. -/
theorem Grown.entry (h : Grown d d' n) {x i : ℕ}
    (hx : LiveDir d x ∨ IsDir d' n ∧ x = zoneOf d' n 0 * 2) (hi : i < 16)
    (hused : entryOf d' x i ≠ 0) :
  entryOf d' x i = n ∨ Named d (entryOf d' x i)
  := by
  rcases hx with hx | ⟨hdir, rfl⟩
  · rcases h.entries x i hx hi with hold | ⟨-, hnew⟩
    · right
      exact ⟨hused, x, i, hx, hi, hold.symm⟩
    · left
      apply hnew
  · apply (h.new hdir i hi).resolve_left hused

theorem Grown.live_cases (h : Grown d d' n) {x : ℕ} (hx : LiveDir d' x) :
  LiveDir d x ∨ IsDir d' n ∧ x = zoneOf d' n 0 * 2
  := by
  induction hx with
  | root =>
      left
      apply LiveDir.root
  | @sub x i _ hi hused hdir ih =>
      rcases h.entry ih hi hused with hnew | hnamed
      · right
        rw [hnew] at hdir ⊢
        exact ⟨hdir, rfl⟩
      · left
        rw [h.zones _ hnamed]
        apply LiveDir.of_named hnamed ((h.modes _ hnamed).mp hdir)

/-- The inodes named by the grown tree. -/
theorem Grown.named (h : Grown d d' n) {m : ℕ} :
  Named d' m ↔ Named d m ∨ m = n
  := by
  constructor
  · rintro ⟨hused, x, i, hx, hi, rfl⟩
    rcases h.entry (h.live_cases hx) hi hused with hnew | hnamed
    · right
      apply hnew
    · left
      apply hnamed
  · rintro (⟨hused, x, i, hx, hi, rfl⟩ | rfl)
    · have hentry := (h.entries x i hx hi).resolve_right fun hfree => hused hfree.1
      exact ⟨hused, x, i, h.live hx, hi, hentry⟩
    · obtain ⟨x, i, hx, hi, hentry⟩ := h.place
      exact ⟨h.ne_zero, x, i, h.live hx, hi, hentry⟩

end

/-! ### The bitmap and the tree -/

/-- The bitmap marks the inodes 1, 2 and those that entries name. -/
def MarksExactly (d : Disk) : Prop :=
  ∀ n, 1 ≤ n →
    ((n ≤ 4096 ∧ Bitmap.test (bitmapOf d) (n - 1) = true) ↔ (n ≤ 2 ∨ Named d n))

/-- The directories lie apart from the inode bitmap and the inodes. -/
def Apart (d : Disk) : Prop :=
  ∀ x, LiveDir d x → x ≠ INODE_BITMAP_LBA ∧ ¬ (10 ≤ x ∧ x ≤ 265)

/-- The record that follows that of `n` in its sector is not that of a directory in use. -/
def NextKept (d : Disk) (n : ℕ) : Prop :=
  n % 16 ≠ 0 → ¬ (Named d (n + 1) ∧ IsDir d (n + 1))

/-- The zone is none of a directory, and apart from the inode bitmap and the inodes. -/
def ZoneApart (d : Disk) (z : ℕ) : Prop :=
  ¬ LiveDir d (z * 2) ∧ z * 2 ≠ INODE_BITMAP_LBA ∧ ¬ (10 ≤ z * 2 ∧ z * 2 ≤ 265)

theorem MarksExactly.inTable {d : Disk} (h : MarksExactly d) {n : ℕ} (hn : Named d n) :
  InTable n
  := by
  have hpos : 1 ≤ n := Nat.one_le_iff_ne_zero.mpr hn.1
  exact ⟨hpos, ((h n hpos).mpr (Or.inr hn)).1⟩

/-- The inode taken is not in use. -/
theorem MarksExactly.free {d : Disk} (h : MarksExactly d) {k : ℕ} (hk : freeInode d = some k) :
  ¬ Named d (k + 1)
  := by
  intro hnamed
  obtain ⟨-, -, hoff, -⟩ := freeInode_spec hk
  have hon := ((h (k + 1) (by omega)).mpr (Or.inr hnamed)).2
  rw [Nat.add_sub_cancel, bitmapOf, hoff] at hon
  cases hon

/-- No directory is in the zone bitmap. -/
theorem LiveDir.ne_zoneBitmap {d : Disk} {x : ℕ} (h : LiveDir d x) :
  x ≠ ZONE_BITMAP_LBA
  := by
  rw [ZONE_BITMAP_LBA]
  cases h with
  | root => decide
  | sub _ _ _ _ => omega

/-- What a creation has written before it adds the entry: the record `w` of the inode `n`, and
the sector of a new directory. -/
structure Prepared (d d₂ : Disk) (n : ℕ) (w : Memory) : Prop where
  live : ∀ x, LiveDir d x → d₂ x = d x
  bitmap : ∀ x < 512, bitmapOf d₂ x = Bitmap.set (bitmapOf d) (n - 1) x
  mode : modeOf d₂ n = i_mode w 0
  zone : zoneOf d₂ n 0 = i_zone w 0 0
  modes : ∀ m, Named d m → (IsDir d₂ m ↔ IsDir d m)
  zones : ∀ m, Named d m → zoneOf d₂ m 0 = zoneOf d m 0
  new : isDirMode (i_mode w 0) → ∀ i < 16, entryOf d₂ (i_zone w 0 0 * 2) i = 0 ∨
    entryOf d₂ (i_zone w 0 0 * 2) i = n ∨ Named d (entryOf d₂ (i_zone w 0 0 * 2) i)
  apart : isDirMode (i_mode w 0) → ¬ LiveDir d (i_zone w 0 0 * 2)

/-- The inodes outside a directory do not depend on its entries. -/
theorem fields_entered (d : Disk) {dir_sector n i m : ℕ} (filename : List Byte)
    (hdir : ¬ (10 ≤ dir_sector ∧ dir_sector ≤ 265)) (hm : InTable m) :
  modeOf (entered d dir_sector n filename i) m = modeOf d m ∧
    zoneOf (entered d dir_sector n filename i) m 0 = zoneOf d m 0
  := by
  have hne : inodeSector m ≠ dir_sector := by
    have := hm.sector
    rintro rfl
    apply hdir this
  rw [modeOf, zoneOf, entered, Function.update_of_ne hne]
  exact ⟨rfl, rfl⟩

/-- The entry of a new inode grows the tree. -/
theorem Prepared.grown {d d₂ : Disk} {n dir_sector i : ℕ} {w : Memory} (h : Prepared d d₂ n w)
    (filename : List Byte) (hmarks : MarksExactly d) (hapart : Apart d) (hn : InTable n)
    (hdir : LiveDir d dir_sector) (hfree : freeEntry d₂ dir_sector = some i) :
  Grown d (entered d₂ dir_sector n filename i) n
  := by
  obtain ⟨hi, hzero, -⟩ := findInode_eq_some hfree
  have hoff := (hapart dir_sector hdir).2
  have hmod : n % 2 ^ 16 = n := by
    have := hn.2
    omega
  have hself := fields_entered d₂ (n := n) (i := i) filename hoff hn
  have hisDir : IsDir (entered d₂ dir_sector n filename i) n → isDirMode (i_mode w 0) = true := by
    rw [IsDir, hself.1, h.mode]
    exact id
  constructor
  · apply hn.ne_zero
  · use dir_sector, i, hdir, hi
    rw [entryOf_entered _ _ _ _ _ _ hi, if_pos ⟨rfl, rfl⟩, hmod]
  · intro x j hx hj
    rw [entryOf_entered _ _ _ _ _ _ hj]
    have hold : entryOf d₂ x j = entryOf d x j := by
      rw [entryOf, h.live x hx, entryOf]
    split_ifs with hslot
    · obtain ⟨rfl, rfl⟩ := hslot
      right
      rw [← hold, hmod]
      exact ⟨by simpa [entryOf] using hzero, rfl⟩
    · left
      apply hold
  · intro m hm
    rw [IsDir, (fields_entered d₂ filename hoff (hmarks.inTable hm)).1]
    apply h.modes m hm
  · intro m hm
    rw [(fields_entered d₂ filename hoff (hmarks.inTable hm)).2, h.zones m hm]
  · intro hnew j hj
    have hmode := hisDir hnew
    have hne : i_zone w 0 0 * 2 ≠ dir_sector := by
      rintro heq
      apply h.apart hmode
      rwa [heq]
    rw [hself.2, h.zone, entryOf_entered _ _ _ _ _ _ hj, if_neg (fun hc => hne hc.1)]
    apply h.new hmode j hj

/-- A creation that has taken the inode `n` and named it keeps the bitmap exact. -/
theorem Prepared.marksExactly {d d₂ : Disk} {n dir_sector i : ℕ} {w : Memory}
    (h : Prepared d d₂ n w) (filename : List Byte) (hmarks : MarksExactly d) (hapart : Apart d)
    (hn : InTable n) (hdir : LiveDir d dir_sector) (hfree : freeEntry d₂ dir_sector = some i) :
  MarksExactly (entered d₂ dir_sector n filename i)
  := by
  have hgrown := h.grown filename hmarks hapart hn hdir hfree
  have hpos := hn.1
  intro m hm
  have htest : m ≤ 4096 → (Bitmap.test (bitmapOf (entered d₂ dir_sector n filename i)) (m - 1) =
      true ↔ m = n ∨ Bitmap.test (bitmapOf d) (m - 1) = true) := by
    intro hle
    rw [entered, bitmapOf_update _ (hapart dir_sector hdir).1, Bitmap.test,
      h.bitmap _ (by omega), ← Bitmap.test, Bitmap.test_set, Bool.or_eq_true, decide_eq_true_iff]
    have : m - 1 = n - 1 ↔ m = n := by omega
    rw [this]
  rw [hgrown.named]
  constructor
  · rintro ⟨hle, htrue⟩
    rcases (htest hle).mp htrue with rfl | hold
    · right; right; rfl
    · rcases (hmarks m hm).mp ⟨hle, hold⟩ with hlow | hnamed
      · left; apply hlow
      · right; left; apply hnamed
  · intro hor
    rcases or_assoc.mpr hor with hold | rfl
    · obtain ⟨hle, htrue⟩ := (hmarks m hm).mpr hold
      exact ⟨hle, (htest hle).mpr (Or.inr htrue)⟩
    · exact ⟨hn.2, (htest hn.2).mpr (Or.inl rfl)⟩

/-! ### Creations -/

/-- The record of a new inode, written next to no directory in use, prepares the entry. -/
theorem Recorded.prepared {d e d₁ d₂ : Disk} {n : ℕ} {w : Memory} (h : Recorded e d₁ n w)
    (he : ∀ lba, lba ≠ INODE_BITMAP_LBA → lba ≠ ZONE_BITMAP_LBA → e lba = d lba)
    (hd₂ : ∀ lba, LiveDir d lba ∨ lba = INODE_BITMAP_LBA ∨ 10 ≤ lba ∧ lba ≤ 265 → d₂ lba = d₁ lba)
    (hmarks : MarksExactly d) (hapart : Apart d) (hn : InTable n) (hfresh : ¬ Named d n)
    (hnext : NextKept d n) (hunused : i_unused w 0 = 0)
    (hbit : ∀ x < 512, bitmapOf e x = Bitmap.set (bitmapOf d) (n - 1) x)
    (hnew : isDirMode (i_mode w 0) → ∀ i < 16, entryOf d₂ (i_zone w 0 0 * 2) i = 0 ∨
      entryOf d₂ (i_zone w 0 0 * 2) i = n ∨ Named d (entryOf d₂ (i_zone w 0 0 * 2) i))
    (hzone : isDirMode (i_mode w 0) → ¬ LiveDir d (i_zone w 0 0 * 2)) :
  Prepared d d₂ n w
  := by
  have hn0 := hn.ne_zero
  have hsector : ∀ m, InTable m → d₂ (inodeSector m) = d₁ (inodeSector m) ∧
      e (inodeSector m) = d (inodeSector m) := by
    intro m hm
    have hsec := hm.sector
    use hd₂ _ (Or.inr (Or.inr hsec))
    apply he
    · rw [INODE_BITMAP_LBA]
      omega
    · rw [ZONE_BITMAP_LBA]
      omega
  constructor
  · intro x hx
    obtain ⟨hbitmap, hinodes⟩ := hapart x hx
    have hsec : x ≠ inodeSector n := by
      rintro rfl
      apply hinodes hn.sector
    rw [hd₂ x (Or.inl hx), h.others x hsec hx.ne_zoneBitmap, he x hbitmap hx.ne_zoneBitmap]
  · intro x hx
    rw [← hbit x hx, ← bitmapOf_recorded h, bitmapOf, bitmapOf, hd₂ _ (Or.inr (Or.inl rfl))]
  · rw [modeOf, (hsector n hn).1]
    exact h.load_self hn0 (k := 0) (by decide)
  · rw [zoneOf, (hsector n hn).1]
    exact h.load_self hn0 (k := 14) (by decide)
  · intro m hm
    have htable := hmarks.inTable hm
    have hne : n ≠ m := by
      rintro rfl
      apply hfresh hm
    have hmode : modeOf d₂ m = modeOf d₁ m := by
      rw [modeOf, (hsector m htable).1, modeOf]
    have hold : modeOf e m = modeOf d m := by
      rw [modeOf, (hsector m htable).2, modeOf]
    rw [IsDir, IsDir, hmode, ← hold]
    by_cases hshared : m = n + 1 ∧ n % 16 ≠ 0
    · obtain ⟨rfl, hmod⟩ := hshared
      have hdir : ¬ IsDir d (n + 1) := fun hdir => hnext hmod ⟨hm, hdir⟩
      rw [IsDir, ← hold] at hdir
      rw [h.modeOf_next hn0 hmod, hunused]
      apply iff_of_false (by decide) hdir
    · rw [h.modeOf_other hn0 htable.ne_zero hne hshared]
  · intro m hm
    have htable := hmarks.inTable hm
    have hne : n ≠ m := by
      rintro rfl
      apply hfresh hm
    rw [zoneOf, (hsector m htable).1, zoneOf, ← (hsector m htable).2]
    apply h.load_other hn0 htable.ne_zero hne (k := 14) (by decide) (by decide)
  · apply hnew
  · apply hzone

/-- What a successful creation has written last. -/
theorem addEntry_success {t u : State} {dir_sector n : ℕ} {filename : List Byte}
    (h : run (addEntry dir_sector n filename) t = (ESUCCESS, u)) :
  ∃ i, freeEntry t.disk dir_sector = some i ∧ u.disk = entered t.disk dir_sector n filename i
  := by
  rw [run_addEntry] at h
  cases hfree : freeEntry t.disk dir_sector with
  | none =>
      rw [hfree] at h
      cases (Prod.mk.inj h).1
  | some i =>
      rw [hfree] at h
      obtain ⟨-, rfl⟩ := Prod.mk.inj h
      exact ⟨i, rfl, rfl⟩

section

variable {s u : State} {dir_sector : ℕ} {filename : List Byte} (hmarks : MarksExactly s.disk)
  (hapart : Apart s.disk) (hnext : ∀ k, freeInode s.disk = some k → NextKept s.disk (k + 1))
  (hdir : LiveDir s.disk dir_sector)
include hmarks hapart hnext hdir

theorem MarksExactly.writeFile (h : run (writeFile dir_sector filename) s = (ESUCCESS, u)) :
  MarksExactly u.disk
  := by
  cases hk : freeInode s.disk with
  | none =>
      rw [writeFile_full s dir_sector filename hk] at h
      cases (Prod.mk.inj h).1
  | some k =>
      have hn := InTable.of_freeInode hk
      obtain ⟨t, hrec, hrun⟩ := writeFile_spec s dir_sector filename hk
      rw [hrun] at h
      obtain ⟨i, hfree, hu⟩ := addEntry_success h
      have hfile : isDirMode (i_mode Site.CreateFile.record 0) = false := by decide +kernel
      have hprepared : Prepared s.disk t.disk (k + 1) Site.CreateFile.record := by
        apply hrec.prepared _ (fun _ _ => rfl) hmarks hapart hn (hmarks.free hk) (hnext k hk)
        · decide +kernel
        · intro x hx
          apply bitmapOf_marked _ _ hx
        · intro hnew
          rw [hfile] at hnew
          cases hnew
        · intro hnew
          rw [hfile] at hnew
          cases hnew
        · intro lba hlba _
          apply Function.update_of_ne hlba
      rw [hu]
      apply hprepared.marksExactly filename hmarks hapart hn hdir hfree

theorem MarksExactly.writeDir (hzone : ∀ z, freeZone s.disk = some z → ZoneApart s.disk z)
    (h : run (writeDir dir_sector filename) s = (ESUCCESS, u)) :
  MarksExactly u.disk
  := by
  cases hk : freeInode s.disk with
  | none =>
      rw [writeDir_full s dir_sector filename hk] at h
      cases (Prod.mk.inj h).1
  | some k =>
      have hn := InTable.of_freeInode hk
      have hfreeZone : freeZone (marked INODE_BITMAP_LBA s.disk k) = freeZone s.disk := by
        rw [freeZone, marked, Function.update_of_ne (by decide), freeZone]
      cases hz : freeZone s.disk with
      | none =>
          rw [writeDir_no_zone s dir_sector filename hk (hfreeZone.trans hz)] at h
          cases (Prod.mk.inj h).1
      | some z =>
          obtain ⟨hlive, hbitmap, hinodes⟩ := hzone z hz
          obtain ⟨t, hrec, hrun⟩ := writeDir_spec s dir_sector filename hk (hfreeZone.trans hz)
          rw [hrun] at h
          obtain ⟨i, hfree, hu⟩ := addEntry_success h
          have hlt : z < 4096 := by
            have := (Bitmap.firstClear_eq_some hz).1
            omega
          have hparent : entryOf t.disk dir_sector 0 = 0 ∨
              Named s.disk (entryOf t.disk dir_sector 0) := by
            have hold : t.disk dir_sector = s.disk dir_sector := by
              have hsec : dir_sector ≠ inodeSector (k + 1) := by
                rintro rfl
                apply (hapart _ hdir).2 hn.sector
              rw [hrec.others _ hsec hdir.ne_zoneBitmap, marked,
                Function.update_of_ne hdir.ne_zoneBitmap, marked,
                Function.update_of_ne (hapart _ hdir).1]
            rw [entryOf, hold, ← entryOf]
            rcases Nat.eq_zero_or_pos (entryOf s.disk dir_sector 0) with hzero | hpos
            · left
              apply hzero
            · right
              exact ⟨by omega, dir_sector, 0, hdir, by decide, rfl⟩
          have hprepared : Prepared s.disk (Function.update t.disk (z * 2)
              (sector (minix_CreateDir.dirData (k + 1) (entryOf t.disk dir_sector 0)))) (k + 1)
              (Site.CreateDir z).record := by
            apply hrec.prepared _ _ hmarks hapart hn (hmarks.free hk) (hnext k hk)
            · rfl
            · intro x hx
              rw [marked, bitmapOf_update _ (by decide)]
              apply bitmapOf_marked _ _ hx
            · intro _ j hj
              rw [CreateDir_zone hlt, entryOf, Function.update_self, entryInode,
                load_contents_sector _ _ (by omega), ← entryInode, entryInode_dirData]
              split_ifs
              · rcases hparent with hzero | hnamed
                · left
                  rw [hzero, Nat.zero_mod]
                · right; right
                  have hle := (hmarks.inTable hnamed).2
                  rwa [Nat.mod_eq_of_lt (by omega)]
              · right; left
                have := hn.2
                omega
              · left; rfl
            · intro _
              rwa [CreateDir_zone hlt]
            · intro lba hlba hzoneBitmap
              rw [marked, Function.update_of_ne hzoneBitmap, marked, Function.update_of_ne hlba]
            · rintro lba hlba
              apply Function.update_of_ne
              rintro rfl
              rcases hlba with hl | hl | hl
              · apply hlive hl
              · apply hbitmap hl
              · apply hinodes hl
          rw [hu]
          apply hprepared.marksExactly filename hmarks hapart hn hdir hfree

end

/-! ### Runs -/

/-- One successful operation. -/
def Success (s : State) (op : TreeOp) (t : State) : Prop := run op.perform s = (ESUCCESS, t)

/-- The operation is a creation on a disk whose directories lie apart from the bitmap and the
inodes, where the inode it takes is not followed by that of a directory in use, and the zone a
directory takes lies apart likewise. -/
def Regular (s : State) : TreeOp → Prop
  | .CreateFile _ => Apart s.disk ∧ ∀ k, freeInode s.disk = some k → NextKept s.disk (k + 1)
  | .CreateDir _ => Apart s.disk ∧ (∀ k, freeInode s.disk = some k → NextKept s.disk (k + 1)) ∧
      ∀ z, freeZone s.disk = some z → ZoneApart s.disk z
  | .DeleteFile _ | .DeleteDir _ => False

theorem marksExactly_step {s t : State} {op : TreeOp} (hmarks : MarksExactly s.disk)
    (h : Restrict Success Regular s op t) :
  MarksExactly t.disk
  := by
  obtain ⟨hregular, hrun⟩ := h
  cases op with
  | CreateFile name =>
      obtain ⟨hapart, hnext⟩ := hregular
      have hdisk := (readOnly_lookupNew name).disk s
      rw [Success, TreeOp.perform, run_CreateFile] at hrun
      cases hlook : (run (lookupNew name) s).1 with
      | error e =>
          rw [hlook] at hrun
          obtain ⟨-, rfl⟩ := Prod.mk.inj hrun
          rwa [hdisk]
      | ok found =>
          obtain ⟨dir_sector, filename⟩ := found
          obtain ⟨hdir, -⟩ := lookupNew_ok hlook
          rw [hlook] at hrun
          rw [← hdisk] at hmarks hapart hnext hdir
          apply hmarks.writeFile hapart hnext hdir hrun
  | CreateDir name =>
      obtain ⟨hapart, hnext, hzone⟩ := hregular
      have hdisk := (readOnly_lookupNew name).disk s
      rw [Success, TreeOp.perform, run_CreateDir] at hrun
      cases hlook : (run (lookupNew name) s).1 with
      | error e =>
          rw [hlook] at hrun
          obtain ⟨-, rfl⟩ := Prod.mk.inj hrun
          rwa [hdisk]
      | ok found =>
          obtain ⟨dir_sector, filename⟩ := found
          obtain ⟨hdir, -⟩ := lookupNew_ok hlook
          rw [hlook] at hrun
          rw [← hdisk] at hmarks hapart hnext hzone hdir
          apply hmarks.writeDir hapart hnext hdir hzone hrun
  | DeleteFile name => exact hregular.elim
  | DeleteDir name => exact hregular.elim

/-- After a run of regular creations the bitmap marks exactly the inodes in use, and no inode
in use is taken. -/
theorem bitmap_exact {s t : State} {ops : List TreeOp} (h : Run (Restrict Success Regular) s ops t)
    (hmarks : MarksExactly s.disk) :
  MarksExactly t.disk ∧ ¬ Named t.disk (run minix_AllocateInode t).1
  := by
  have hkept : MarksExactly t.disk := by
    apply h.invariant (I := fun u : State => MarksExactly u.disk)
    · intro u op v hu hstep
      exact marksExactly_step hu hstep
    · exact hmarks
  use hkept
  rw [run_AllocateInode]
  cases hk : freeInode t.disk with
  | none => exact fun hnamed => hnamed.1 rfl
  | some k => apply hkept.free hk

/-- A deletion leaves the bit of the number it deletes as it was: the number does not become
available again. -/
theorem unmarked_keeps_bit {d d₁ : Disk} {n i dir_sector : ℕ} (hn : InTable n)
    (hrec : Recorded d d₁ n (fun _ => 0)) (hdir : dir_sector ≠ INODE_BITMAP_LBA) :
  Bitmap.test (bitmapOf (removed (unmarked d₁ n) dir_sector i)) (n - 1) =
    Bitmap.test (bitmapOf d) (n - 1)
  := by
  obtain ⟨hlo, hhi⟩ := hn
  rw [removed, bitmapOf_update _ hdir, Bitmap.test, bitmapOf_unmarked _ _ (by omega), ← Bitmap.test,
    Bitmap.test_clear, bitmapOf_recorded hrec]
  have hne : n - 1 ≠ n := by omega
  simp [hne]

/-! ### The small file system -/

theorem twoFiles_marksExactly :
  MarksExactly twoFiles
  := by
  have hbits : ∀ k < 8, Bitmap.test (bitmapOf twoFiles) k = decide (k < 4) := by decide +kernel
  have hrest : ∀ x, x ≠ 0 → bitmapOf twoFiles x = 0 := by
    intro x hx
    rw [bitmapOf, contents]
    split_ifs with hlt
    · simp [twoFiles, Function.update, INODE_BITMAP_LBA, ZONE_BITMAP_LBA, ROOT_SECTOR, hx]
    · rfl
  intro n hn
  rw [twoFiles_named]
  by_cases hlt : n - 1 < 8
  · rw [hbits _ hlt, decide_eq_true_iff]
    omega
  · rw [Bitmap.test, hrest _ (by omega)]
    constructor
    · rintro ⟨-, hzero⟩
      simp [Bitmap.bitOn] at hzero
    · omega

theorem bitmap_exact_create :
  MarksExactly (run (minix_CreateFile (ascii "/c")) (State.ofDisk twoFiles)).2.disk ∧
    ¬ Named (run (minix_CreateFile (ascii "/c")) (State.ofDisk twoFiles)).2.disk
      (run minix_AllocateInode (run (minix_CreateFile (ascii "/c")) (State.ofDisk twoFiles)).2).1
  := by
  have hregular : Regular (State.ofDisk twoFiles) (.CreateFile (ascii "/c")) := by
    constructor
    · intro x hx
      rw [twoFiles_live hx]
      decide
    · intro k hk hmod hnext
      have hfree : freeInode twoFiles = some 4 := by decide +kernel
      obtain rfl := Option.some.inj (hfree.symm.trans hk)
      have := twoFiles_named.mp hnext.1
      omega
  have hsuccess : (run (minix_CreateFile (ascii "/c")) (State.ofDisk twoFiles)).1 = ESUCCESS := by
    decide +kernel
  exact bitmap_exact (Run.cons ⟨hregular, Prod.ext hsuccess rfl⟩ (Run.nil _)) twoFiles_marksExactly

/-- Deleting `/a` clears the bit of `/b`: the next inode taken is the one `/b` names. -/
theorem bitmap_not_exact :
  MarksExactly twoFiles ∧
    (run (minix_DeleteFile (ascii "/a")) (State.ofDisk twoFiles)).1 = ESUCCESS ∧
    ¬ MarksExactly (run (minix_DeleteFile (ascii "/a")) (State.ofDisk twoFiles)).2.disk ∧
    Named (run (minix_DeleteFile (ascii "/a")) (State.ofDisk twoFiles)).2.disk
      (run minix_AllocateInode
        (run (minix_DeleteFile (ascii "/a")) (State.ofDisk twoFiles)).2).1
  := by
  have hnamed : Named (run (minix_DeleteFile (ascii "/a")) (State.ofDisk twoFiles)).2.disk 4 :=
    ⟨by decide, ROOT_SECTOR, 3, LiveDir.root, by decide, by decide +kernel⟩
  have htaken : (run minix_AllocateInode
      (run (minix_DeleteFile (ascii "/a")) (State.ofDisk twoFiles)).2).1 = 4 := by decide +kernel
  refine ⟨twoFiles_marksExactly, by decide +kernel, ?_, ?_⟩
  · intro hmarks
    have hbit := ((hmarks 4 (by decide)).mpr (Or.inr hnamed)).2
    revert hbit
    decide +kernel
  · rw [htaken]
    apply hnamed

end Minix
