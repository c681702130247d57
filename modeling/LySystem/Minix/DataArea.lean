import LySystem.Minix.Mount
import LySystem.Minix.Zones

/-!
# The data area

The zones are searched from zone 0, whatever the superblock says about the first data zone.
When all zones below the data area are marked as used they stay so, since no inode has one of
them, and data is written to the data area only.
-/

namespace Minix

open CString Transition

/-! ### Where data is written -/

/-- `minix_WriteFile` before it writes the data: the inode, and its record with the zone. -/
def writeTarget (name : List Byte) : Op (Except ℤ (ℕ × Memory)) :=
  do
    let inode_no ← FindEntry name
    if inode_no = 0 then return .error (-ENOENT)
    else
      let x ← ide_read_sector (inodeSector inode_no)
      match ← minix_WriteFile.withZone (contents x []) (inodeOffset inode_no) with
      | none => return .error (-ENOSPC)
      | some inode_buf => return .ok (inode_no, inode_buf)

/-- `minix_WriteFile` from there on. -/
def writeData (inode_no : ℕ) (inode_buf input : Memory) (count : ℤ) : Op ℤ :=
  do
    let data_lba := i_zone inode_buf (inodeOffset inode_no) 0 * 2
    let to_write := if 512 < count then 512 else count
    let data_buf : Memory := fun _ => 0
    ide_write_sector data_lba (sector (data_buf.copy 0 input (toU64 to_write)))
    ide_write_sector (inodeSector inode_no)
      (sector (minix_WriteFile.grow inode_buf (inodeOffset inode_no) to_write))
    return to_write

theorem run_WriteFile_data (name : List Byte) (input : Memory) (count : ℤ) (s : State) :
  run (minix_WriteFile name input count) s =
    match (run (writeTarget name) s).1 with
    | .error e => (e, (run (writeTarget name) s).2)
    | .ok (inode_no, inode_buf) =>
        run (writeData inode_no inode_buf input count) (run (writeTarget name) s).2
  := by
  rw [minix_WriteFile, writeTarget, run_bind, run_bind]
  by_cases hn : (run (FindEntry name) s).1 = 0
  · rw [if_pos hn, if_pos hn]
    rfl
  · rw [if_neg hn, if_neg hn]
    simp only [run_bind, run_read]
    cases (run (minix_WriteFile.withZone
        (contents ((run (FindEntry name) s).2.disk (inodeSector (run (FindEntry name) s).1)) [])
        (inodeOffset (run (FindEntry name) s).1)) (run (FindEntry name) s).2).1 with
    | none => simp only [run_pure]
    | some inode_buf => simp only [run_pure, writeData]

/-- `minix_CreateDir` before it writes the new directory: its parent, its name, its inode and its
zone. -/
def dirTarget (name : List Byte) : Op (Except ℤ (ℕ × List Byte × ℕ × ℕ)) :=
  do
    match ← lookupNew name with
    | .error e => return .error e
    | .ok (dir_sector, filename) =>
        let new_inode_no ← minix_AllocateInode
        if new_inode_no ≤ 2 then return .error (-ENOSPC)
        else
          match ← takeBit ZONE_BITMAP_LBA fun _ => true with
          | none => return .error (-ENOSPC)
          | some new_zone => return .ok (dir_sector, filename, new_inode_no, new_zone)

/-- `minix_CreateDir` from there on. -/
def dirData (dir_sector : ℕ) (filename : List Byte) (new_inode_no new_zone : ℕ) : Op ℤ :=
  do
    minix_CreateDir.clearInode new_inode_no new_zone
    let x ← ide_read_sector dir_sector
    let parent_inode := entryInode (contents x []) 0
    ide_write_sector (new_zone * 2) (sector (minix_CreateDir.dirData new_inode_no parent_inode))
    addEntry dir_sector new_inode_no filename

theorem run_CreateDir_data (name : List Byte) (s : State) :
  run (minix_CreateDir name) s =
    match (run (dirTarget name) s).1 with
    | .error e => (e, (run (dirTarget name) s).2)
    | .ok (dir_sector, filename, new_inode_no, new_zone) =>
        run (dirData dir_sector filename new_inode_no new_zone) (run (dirTarget name) s).2
  := by
  rw [run_CreateDir, dirTarget, run_bind]
  cases (run (lookupNew name) s).1 with
  | error e => simp only [run_pure]
  | ok found =>
      obtain ⟨dir_sector, filename⟩ := found
      simp only
      rw [writeDir, run_bind, run_bind]
      by_cases hn : (run minix_AllocateInode (run (lookupNew name) s).2).1 ≤ 2
      · simp only [if_pos hn, run_pure]
      · simp only [if_neg hn, run_bind]
        cases (run (takeBit ZONE_BITMAP_LBA fun _ => true)
            (run minix_AllocateInode (run (lookupNew name) s).2).2).1 with
        | none => simp only [run_pure]
        | some new_zone => simp only [run_pure, dirData]

/-- The call writes the data of a file, or a new directory, to the sector `lba`. -/
def DataWrite (s : State) (lba : ℕ) : FileOp → Prop
  | .WriteFile name _ _ => ∃ n buf,
      (run (writeTarget name) s).1 = .ok (n, buf) ∧ lba = i_zone buf (inodeOffset n) 0 * 2
  | .tree (.CreateDir name) => ∃ dir_sector filename n z,
      (run (dirTarget name) s).1 = .ok (dir_sector, filename, n, z) ∧ lba = z * 2
  | _ => False

theorem writeTarget_ok {name : List Byte} {s : State} {n : ℕ} {buf : Memory}
    (h : (run (writeTarget name) s).1 = .ok (n, buf)) :
  n = (run (FindEntry name) s).1 ∧ n ≠ 0 ∧ ∃ e, ZoneTaken s.disk e n buf
  := by
  have hdisk := (readOnly_FindEntry name).disk s
  rw [writeTarget, run_bind] at h
  by_cases hn : (run (FindEntry name) s).1 = 0
  · rw [if_pos hn] at h
    cases h
  · rw [if_neg hn] at h
    simp only [run_bind, run_read] at h
    cases hfound : (run (minix_WriteFile.withZone
        (contents ((run (FindEntry name) s).2.disk (inodeSector (run (FindEntry name) s).1)) [])
        (inodeOffset (run (FindEntry name) s).1)) (run (FindEntry name) s).2).1 with
    | none =>
        rw [hfound] at h
        cases h
    | some inode_buf =>
        rw [hfound] at h
        cases h
        have htaken := withZone_taken hfound
        rw [hdisk] at htaken
        exact ⟨rfl, hn, _, htaken⟩

theorem dirTarget_ok {name filename : List Byte} {s : State} {dir_sector n z : ℕ}
    (h : (run (dirTarget name) s).1 = .ok (dir_sector, filename, n, z)) :
  freeZone s.disk = some z
  := by
  have hdisk := (readOnly_lookupNew name).disk s
  rw [dirTarget, run_bind] at h
  cases hlook : (run (lookupNew name) s).1 with
  | error e =>
      rw [hlook] at h
      cases h
  | ok found =>
      rw [hlook] at h
      simp only [run_bind, run_AllocateInode, hdisk] at h
      cases hk : freeInode s.disk with
      | none =>
          rw [hk] at h
          cases h
      | some k =>
          obtain ⟨hlo, -⟩ := freeInode_spec hk
          have hmarked := freeZone_marked s.disk k
          rw [freeZone] at hmarked
          rw [hk] at h
          simp only [if_neg (show ¬ k + 1 ≤ 2 by omega), run_bind, run_takeBit, hmarked] at h
          cases hz : freeZone s.disk with
          | none =>
              rw [hz] at h
              cases h
          | some z' =>
              rw [hz] at h
              cases h
              rfl

/-! ### Zones of the data area -/

/-- The zones of the inode `n` are those of the data area, from `f` on. -/
def Within (f : ℕ) (d : Disk) (n : ℕ) : Prop := ∀ z < 7, zoneOf d n z = 0 ∨ f ≤ zoneOf d n z

/-- The data area, from the zone `f` on, lies behind the inodes; all zones below it are marked as
used, and no inode in use has one of them. -/
structure DataArea (f : ℕ) (d : Disk) : Prop where
  behind : 265 < 2 * f
  marked : ∀ k < f, k < 4096 → ZoneUsed d k
  named : ∀ n, Named d n → InTable n ∧ Within f d n

/-- The same while a call is under way, for a set of sectors that contains the directories. -/
structure Area (f : ℕ) (d : Disk) (S : Set ℕ) : Prop extends Closed d S where
  behind : 265 < 2 * f
  marked : ∀ k < f, k < 4096 → ZoneUsed d k
  within : ∀ x ∈ S, ∀ i < 16, entryOf d x i ≠ 0 → Within f d (entryOf d x i)

section

variable {f : ℕ} {d d' : Disk} {S : Set ℕ}

theorem DataArea.area (h : DataArea f d) :
  Area f d {x | LiveDir d x}
  := by
  have hbehind := h.behind
  have hclosed : Closed d {x | LiveDir d x} := by
    apply Closed.of_live fun n hn => (h.named n hn).1
    intro x hx
    rcases hx.cases with rfl | ⟨n, hn, -, rfl⟩
    · right
      decide
    · have := (h.named n hn).2 0 (by decide)
      omega
  refine ⟨hclosed, hbehind, h.marked, ?_⟩
  intro x hx i hi hused
  apply (h.named _ ⟨hused, x, i, hx, hi, rfl⟩).2

theorem Area.dataArea (h : Area f d S) :
  DataArea f d
  := by
  refine ⟨h.behind, h.marked, ?_⟩
  rintro n ⟨hused, x, i, hx, hi, rfl⟩
  have hlive := h.toClosed.live hx
  exact ⟨h.named x hlive i hi hused, h.within x hlive i hi hused⟩

/-- No zone below the data area is found. -/
theorem Area.freeZone (h : Area f d S) {z : ℕ} (hz : freeZone d = some z) :
  f ≤ z ∧ z < 4096
  := by
  obtain ⟨hlt, hfree⟩ := freeZone_spec hz
  refine ⟨?_, hlt⟩
  by_contra hle
  apply hfree (h.marked z (by omega) hlt)

theorem Within.congr {n : ℕ} (h : Within f d n) (hz : ∀ z < 7, zoneOf d' n z = zoneOf d n z) :
  Within f d' n
  := by
  intro z hz7
  rw [hz z hz7]
  apply h z hz7

/-! ### Writes -/

/-- The inodes, the directories and the zone bitmap are as before. -/
theorem Area.frame (h : Area f d S) (hS : ∀ x ∈ S, d' x = d x) (htable : SameTable d d')
    (hbitmap : d' ZONE_BITMAP_LBA = d ZONE_BITMAP_LBA) :
  Area f d' S
  := by
  refine ⟨h.toClosed.frame hS htable, h.behind, ?_, ?_⟩
  · intro k hk hlt
    apply (zoneUsed_congr hbitmap k).mpr (h.marked k hk hlt)
  · intro x hx i hi hused
    rw [entryOf_congr (hS x hx)] at hused ⊢
    apply (h.within x hx i hi hused).congr
    intro z _
    apply zoneOf_congr (htable.sector (h.named x hx i hi hused))

/-- Bits of the inode bitmap are nothing to the data area. -/
theorem Area.inodeBitmap (h : Area f d S) (y : Sector) :
  Area f (Function.update d INODE_BITMAP_LBA y) S
  := by
  apply h.frame
  · intro x hx
    apply Function.update_of_ne (h.toClosed.not_system hx).1
  · exact SameTable.update (Or.inl (show INODE_BITMAP_LBA < 10 by decide)) y
  · apply Function.update_of_ne (by decide)

/-- A directory is written, with entries for inodes that have been named before, or that have
zones of the data area as well. -/
theorem Area.update (h : Area f d S) {x : ℕ} (hx : x ∈ S) (hx0 : x ≠ 0) {y : Sector}
    (hclosed : Closed (Function.update d x y) S)
    (hentries : ∀ i < 16, entryOf (Function.update d x y) x i ≠ 0 →
      Within f d (entryOf (Function.update d x y) x i)) :
  Area f (Function.update d x y) S
  := by
  have hapart := (h.apart x hx).resolve_left hx0
  have htable : SameTable d (Function.update d x y) := SameTable.update (Or.inr hapart) y
  refine ⟨hclosed, h.behind, ?_, ?_⟩
  · intro k hk hlt
    apply (zoneUsed_congr (Function.update_of_ne _ _ _) k).mpr (h.marked k hk hlt)
    rw [ZONE_BITMAP_LBA]
    omega
  · intro x' hx' i hi hused
    have hwithin : Within f d (entryOf (Function.update d x y) x' i) := by
      by_cases hsame : x' = x
      · subst hsame
        apply hentries i hi hused
      · have hold : Function.update d x y x' = d x' := Function.update_of_ne hsame _ _
        rw [entryOf_congr hold] at hused ⊢
        apply h.within x' hx' i hi hused
    apply hwithin.congr
    intro z _
    apply zoneOf_congr (htable.sector (hclosed.named x' hx' i hi hused))

theorem Area.removed (h : Area f d S) {x : ℕ} (hx : x ∈ S) (hx0 : x ≠ 0) (i : ℕ) :
  Area f (removed d x i) S
  := by
  apply h.update hx hx0 (h.toClosed.removed hx hx0 i)
  intro j hj hused
  rw [← Minix.removed, entryOf_removed _ _ _ _ hj] at hused ⊢
  split_ifs at hused ⊢ with hslot
  · exact absurd rfl hused
  · apply h.within x hx j hj hused

theorem Area.withoutInode (h : Area f d S) {x : ℕ} (hx : x ∈ S) (hx0 : x ≠ 0) (n : ℕ) :
  Area f (withoutInode d x n) S
  := by
  rcases withoutInode_cases d x n with heq | ⟨i, -, -, heq⟩
  · rwa [heq]
  · rw [heq]
    apply h.removed hx hx0

theorem Area.withEntry (h : Area f d S) {x n : ℕ} (hx : x ∈ S) (hx0 : x ≠ 0)
    (filename : List Byte) (hn : InTable n) (hwithin : Within f d n)
    (hsub : IsDir d n → zoneOf d n 0 * 2 ∈ S) :
  Area f (withEntry d x n filename) S
  := by
  have hmod : n % 2 ^ 16 = n := by
    have := hn.2
    omega
  rcases withEntry_cases d x n filename with heq | ⟨i, -, -, heq⟩
  · rwa [heq]
  · rw [heq]
    apply h.update hx hx0 (h.toClosed.entered hx hx0 filename i hn hsub)
    intro j hj hused
    rw [← Minix.entered, entryOf_entered _ _ _ _ _ _ hj, hmod] at hused ⊢
    split_ifs at hused ⊢ with hslot
    · apply hwithin
    · apply h.within x hx j hj hused

/-- The inode `n` gets another record, none of a directory, with zones of the data area. -/
theorem Area.file {n : ℕ} (h : Area f d S) (hr : Rezoned d d' n) (hS : ∀ x ∈ S, d' x = d x)
    (hfile : ¬ IsDir d' n) (hself : Within f d' n)
    (hused : ∀ k < f, k < 4096 → ZoneUsed d k → ZoneUsed d' k) :
  Area f d' S
  := by
  refine ⟨h.toClosed.file hr hS hfile, h.behind, ?_, ?_⟩
  · intro k hk hlt
    apply hused k hk hlt (h.marked k hk hlt)
  · intro x hx i hi hne
    rw [entryOf_congr (hS x hx)] at hne ⊢
    by_cases hn : entryOf d x i = n
    · rw [hn]
      apply hself
    · apply (h.within x hx i hi hne).congr
      intro z hz
      apply hr.zones _ z (h.named x hx i hi hne) hn hz

/-! ### Calls -/

theorem Area.createdFile (h : Area f d S) {k : ℕ} (hk : freeInode d = some k) :
  Area f (createdFile d k) S ∧ ¬ IsDir (createdFile d k) (k + 1) ∧
    Within f (createdFile d k) (k + 1)
  := by
  have hrec := createdFile_rewritten d hk
  obtain ⟨-, hunused, hzones⟩ := CreateFile_record
  have hfile := createdFile_not_dir hk
  have hwithin : Within f (Minix.createdFile d k) (k + 1) := by
    intro z hz
    left
    rw [hrec.self z hz, hzones z hz]
  refine ⟨?_, hfile, hwithin⟩
  apply h.file (hrec.rezoned hunused) _ hfile hwithin
  · intro j _ _
    apply (zoneUsed_createdFile d k j).mpr
  · intro x hx
    apply createdFile_sector d hk (h.apart x hx)

theorem Area.createdDir (h : Area f d S) {k z x : ℕ} (hk : freeInode d = some k)
    (hz : Minix.freeZone d = some z) (hx : x ∈ S) :
  Area f (createdDir d k z x) (S ∪ {y | y = z * 2}) ∧
    zoneOf (createdDir d k z x) (k + 1) 0 = z ∧ Within f (createdDir d k z x) (k + 1)
  := by
  have hbehind := h.behind
  obtain ⟨hge, hlt⟩ := h.freeZone hz
  have hapart : 265 < z * 2 := by omega
  have hrec := createdDir_rewritten (x := x) hk hapart
  obtain ⟨-, hunused, hfirst, hzones⟩ := CreateDir_record hlt
  obtain ⟨hclosed, hzone⟩ := h.toClosed.createdDir hk hapart hlt hx
  have hwithin : Within f (Minix.createdDir d k z x) (k + 1) := by
    intro z' hz'
    by_cases hzero : z' = 0
    · right
      rwa [hzero, hzone]
    · left
      rw [hrec.self z' hz', hzones z' hz' hzero]
  have hold : ∀ y ∈ S, ∀ i < 16, entryOf d y i ≠ 0 →
      Within f (Minix.createdDir d k z x) (entryOf d y i) := by
    intro y hy i hi hused
    by_cases hself : entryOf d y i = k + 1
    · rwa [hself]
    · apply (h.within y hy i hi hused).congr
      intro z' hz'
      apply hrec.zones _ z' (h.named y hy i hi hused) hself hz'
  refine ⟨⟨hclosed, hbehind, ?_, ?_⟩, hzone, hwithin⟩
  · intro j hj hj'
    apply (zoneUsed_createdDir x hj').mpr (Or.inr (h.marked j hj hj'))
  · intro y hy i hi hused
    by_cases hyz : y = z * 2
    · subst hyz
      rw [createdDir_entries hk (h.apart x hx) hi] at hused ⊢
      split_ifs at hused ⊢
      · apply hold x hx 0 (by decide) hused
      · apply hwithin
      · exact absurd rfl hused
    · have hin : y ∈ S := hy.resolve_right hyz
      have hsector := createdDir_sector hk hapart (h.apart y hin) hyz (x := x)
      rw [entryOf_congr hsector] at hused ⊢
      apply hold y hin i hi hused

theorem Area.erased (h : Area f d S) {n : ℕ} (hn : InTable n) (hwithin : Within f d n)
    (he : Erased d d' n) :
  Area f (unmarked d' n) S
  := by
  have hrec := he.toRecorded.rewritten hn
  apply Area.inodeBitmap
  apply h.file (hrec.rezoned (by decide))
  · intro x hx
    apply he.toRecorded.sector_eq hn (h.apart x hx)
  · rw [IsDir, hrec.mode]
    decide
  · intro z hz
    left
    rw [hrec.self z hz, i_zone_zero]
  · intro k hk hlt hused
    apply he.used k hlt hused
    intro z hz heq
    have := hwithin z hz
    omega

/-- The zone that the file `n` is written to: its own, or the first free one. -/
def zoneFor (d : Disk) (n : ℕ) : Option ℕ :=
  if zoneOf d n 0 = 0 then Minix.freeZone d else some (zoneOf d n 0)

theorem ZoneTaken.zoneFor {n : ℕ} {buf : Memory} (ht : ZoneTaken d d' n buf) :
  zoneFor d n = some (i_zone buf (inodeOffset n) 0)
  := by
  rw [Minix.zoneFor]
  rcases ht.zone with ⟨hkept, hne⟩ | ⟨hzero, -, -⟩
  · rw [← zoneOf] at hkept hne
    rw [if_neg hne, hkept]
  · rw [← zoneOf] at hzero
    rw [if_pos hzero, ht.first hzero]

/-- The zone is one of the data area. -/
theorem Area.zoneFor (h : Area f d S) {n z : ℕ} (hwithin : Within f d n)
    (hz : Minix.zoneFor d n = some z) :
  f ≤ z
  := by
  rw [Minix.zoneFor] at hz
  split_ifs at hz with hzero
  · apply (h.freeZone hz).1
  · obtain rfl := Option.some.inj hz
    apply (hwithin 0 (by decide)).resolve_left hzero

theorem Area.stored (h : Area f d S) {n : ℕ} {buf : Memory} (hn : InTable n) (hfile : ¬ IsDir d n)
    (hwithin : Within f d n) (ht : ZoneTaken d d' n buf)
    (hout : i_zone buf (inodeOffset n) 0 * 2 ∉ S) (data : Sector) (to_write : ℤ) :
  Area f (stored d' n buf data to_write) S
  := by
  have hbehind := h.behind
  have hge := h.zoneFor hwithin ht.zoneFor
  have hapart : 265 < i_zone buf (inodeOffset n) 0 * 2 := by omega
  have hz := ht.toZoned
  apply h.file (stored_rezoned hz hn hapart data to_write)
  · intro x hx
    apply stored_sector hz hn hapart data to_write (h.apart x hx)
    rintro rfl
    apply hout hx
  · rwa [isDir_congr (stored_modeOf hz hn hapart data to_write hn)]
  · intro z hz7
    by_cases hz0 : z = 0
    · subst hz0
      right
      rwa [stored_zoneOf_self hn data to_write]
    · rw [stored_zoneOf hz hn hapart data to_write hn hz7 (Or.inr hz0)]
      apply hwithin z hz7
  · intro k _ hlt hused
    apply (zoneUsed_stored hn hapart data to_write k).mpr (ht.used k hlt hused)

end

/-- What is written to is a file, and its zone is not that of a directory in use. -/
def Separate (s : State) : FileOp → Prop
  | .WriteFile name _ _ => (run (FindEntry name) s).1 ≠ 0 →
      ¬ IsDir s.disk (run (FindEntry name) s).1 ∧
        ∀ z, zoneFor s.disk (run (FindEntry name) s).1 = some z → ¬ LiveDir s.disk (z * 2)
  | _ => True

theorem DataArea.effect {f : ℕ} {s : State} {op : FileOp} {d' : Disk} (h : DataArea f s.disk)
    (hseparate : Separate s op) (heffect : Effect s op d') :
  DataArea f d'
  := by
  have harea := h.area
  cases heffect with
  | refused op => apply h
  | CreateFile hlook hk =>
      obtain ⟨hlive, hx0⟩ := lookupNew_ok hlook
      obtain ⟨hcreated, hfile, hwithin⟩ := harea.createdFile hk
      apply Area.dataArea
      apply hcreated.withEntry hlive hx0 _ (InTable.of_freeInode hk) hwithin
      intro hdir
      apply absurd hdir hfile
  | noZone hlook hk => apply (harea.inodeBitmap _).dataArea
  | CreateDir hlook hk hz =>
      obtain ⟨hlive, hx0⟩ := lookupNew_ok hlook
      obtain ⟨hcreated, hzone, hwithin⟩ := harea.createdDir hk hz hlive
      apply Area.dataArea
      apply hcreated.withEntry (Or.inl hlive) hx0 _ (InTable.of_freeInode hk) hwithin
      intro _
      right
      rw [hzone]
      rfl
  | DeleteFile hlook herased =>
      obtain ⟨⟨hlive, hx0⟩, hi, hused, -⟩ := lookupFile_ok hlook
      obtain ⟨hn, hwithin⟩ := h.named _ ⟨hused, _, _, hlive, hi, rfl⟩
      apply Area.dataArea
      apply (harea.erased hn hwithin herased).removed hlive hx0
  | DeleteDir hlook herased =>
      obtain ⟨⟨hlive, hx0⟩, -, hne, -, -, y, i, hy, hi, rfl, -⟩ := lookupDir_ok hlook
      obtain ⟨hn, hwithin⟩ := h.named _ ⟨hne, y, i, hy, hi, rfl⟩
      apply Area.dataArea
      apply (harea.erased hn hwithin herased).withoutInode hlive hx0
  | WriteFile data to_write hfind hne htaken =>
      subst hfind
      obtain ⟨hn, hwithin⟩ := h.named _ (FindEntry_named hne)
      obtain ⟨hfile, hout⟩ := hseparate hne
      apply (harea.stored hn hfile hwithin htaken (hout _ htaken.zoneFor) data to_write).dataArea
  | @RenameFile old_name new_name filename x i y hlook =>
      obtain ⟨⟨hlive, hx0⟩, ⟨hlive', hy0⟩, hi, hused⟩ := lookupMove_ok hlook
      obtain ⟨hn, hwithin⟩ := h.named _ ⟨hused, x, i, hlive, hi, rfl⟩
      have hapart := (harea.apart x hlive).resolve_left hx0
      have hsame : SameTable s.disk (removed s.disk x i) := SameTable.update (Or.inr hapart) _
      have hzone : ∀ z, zoneOf (removed s.disk x i) (entryOf s.disk x i) z =
          zoneOf s.disk (entryOf s.disk x i) z := zoneOf_congr (hsame.sector hn)
      apply Area.dataArea
      apply (harea.removed hlive hx0 i).withEntry hlive' hy0 _ hn (hwithin.congr fun z _ => hzone z)
      intro hdir
      rw [isDir_congr (modeOf_congr (hsame.sector hn))] at hdir
      rw [hzone]
      exact LiveDir.sub hlive hi hused hdir

/-! ### Runs -/

theorem DataArea.dataWrite {f : ℕ} {s : State} (h : DataArea f s.disk) {op : FileOp} {lba : ℕ}
    (hwrite : DataWrite s lba op) :
  2 * f ≤ lba ∧ 265 < lba
  := by
  have hbehind := h.behind
  have harea := h.area
  cases op with
  | tree op =>
      cases op with
      | CreateDir name =>
          obtain ⟨dir_sector, filename, n, z, htarget, rfl⟩ := hwrite
          have hge := (harea.freeZone (dirTarget_ok htarget)).1
          omega
      | CreateFile name => cases hwrite
      | DeleteFile name => cases hwrite
      | DeleteDir name => cases hwrite
  | WriteFile name input count =>
      obtain ⟨n, buf, htarget, rfl⟩ := hwrite
      obtain ⟨rfl, hne, e, htaken⟩ := writeTarget_ok htarget
      have hwithin := (h.named _ (FindEntry_named hne)).2
      have hge := harea.zoneFor hwithin htaken.zoneFor
      omega
  | RenameFile old_name new_name => cases hwrite

/-- The directories are found as before when they and the inodes are as before. -/
theorem LiveDir.of_frame {d d' : Disk} (hS : ∀ x, LiveDir d x → d' x = d x)
    (htable : SameTable d d') (hnamed : ∀ n, Named d n → InTable n) {x : ℕ} (h : LiveDir d' x) :
  LiveDir d x
  := by
  induction h with
  | root => apply LiveDir.root
  | @sub x i _ hi hused hdir ih =>
      rw [entryOf_congr (hS x ih)] at hused hdir ⊢
      have hsector := htable.sector (hnamed _ ⟨hused, x, i, ih, hi, rfl⟩)
      rw [isDir_congr (modeOf_congr hsector)] at hdir
      rw [zoneOf_congr hsector]
      exact LiveDir.sub ih hi hused hdir

theorem twoFiles_dataArea :
  DataArea 219 twoFiles
  := by
  refine ⟨by decide, fun k hk _ => twoFiles_rootOnly.system k (by omega), ?_⟩
  intro n hn
  have htable := twoFiles_owned.named n hn
  use htable
  intro z hz
  rw [twoFiles_rootOnly.zone n z htable hz]
  split_ifs
  · right
    rfl
  · left
    rfl

theorem mountedDisk_dataArea :
  DataArea (run minix_GetSuperBlock (State.ofDisk mountedDisk)).1.2.s_firstdatazone mountedDisk
  := by
  have hfirst : (run minix_GetSuperBlock (State.ofDisk mountedDisk)).1.2.s_firstdatazone = 219 := by
    decide +kernel
  rw [hfirst]
  apply (twoFiles_dataArea.area.inodeBitmap _).dataArea

theorem mountedDisk_live {x : ℕ} (h : LiveDir mountedDisk x) :
  x = ROOT_SECTOR
  := by
  apply twoFiles_live
  apply h.of_frame _ _ twoFiles_owned.named
  · intro y hy
    rw [twoFiles_live hy]
    apply Function.update_of_ne (by decide)
  · exact SameTable.update (Or.inl (by decide)) _

/-- The same disk, with the zone 5, sectors 10 and 11, marked as free. -/
def lowZone : Disk :=
  Function.update mountedDisk ZONE_BITMAP_LBA fun i =>
    if i.val = 0 then 0xDF else mountedDisk ZONE_BITMAP_LBA i

end Minix
