import LySystem.Minix.Denotation
import LySystem.Minix.Kinds

/-!
# The copy of a file

A copy is a new file of 512 bytes at most.  It is the same file as the source when the source is
not longer and has a zone for its bytes, and the copy is found under its name; a failure leaves the
disk as it was when it comes before an inode is taken.
-/

namespace Minix

open CString

/-! ### Lookups on sane disks -/

section

variable {d d' : Disk} {path : List Byte}

/-- Where all names end, what a path denotes does not depend on what surrounds the lookup. -/
theorem WellNamed.FindEntry_eq (h : WellNamed d) (path : List Byte) {s t : State} (hs : s.disk = d)
    (ht : t.disk = d) :
  (run (FindEntry path) t).1 = (run (FindEntry path) s).1
  := by
  have hsector := h.sameWalks.FindSectorOfPathDir path hs ht
  rw [run_FindEntry, run_FindEntry]
  simp only [hsector, hs, ht]
  split_ifs with hroot
  · rfl
  · have hlive := (FindSectorOfPathDir_live path s).resolve_left hroot
    rw [hs] at hlive
    have hfind : findName (contents (d (run (FindSectorOfPathDir path) s).1.1)
        ((run (FindSectorOfPathDir path) t).2.stack 1))
        (fileName path ++ (run (FindSectorOfPathDir path) t).2.stack 0) =
        findName (contents (d (run (FindSectorOfPathDir path) s).1.1)
        ((run (FindSectorOfPathDir path) s).2.stack 1))
        (fileName path ++ (run (FindSectorOfPathDir path) s).2.stack 0) := by
      apply findName_congr_iff
      intro i hi
      apply matches_congr hi (h _ i hlive hi) rfl (fun _ _ => rfl)
      intro j hj
      rw [chars_fileName_append _ _ hj, chars_fileName_append _ _ hj]
    rw [hfind]

theorem WellNamed.resolves (h : WellNamed d) (path : List Byte) {s : State} (hs : s.disk = d) :
  Resolves d path (run (FindEntry path) s).1
  := fun _ ht => h.FindEntry_eq path hs ht

theorem SameTree.resolves_iff (h : SameTree d d') {n : ℕ} :
  Resolves d' path n ↔ Resolves d path n
  := by
  constructor
  · rintro hres ⟨disk, last_pos, stack⟩ hdisk
    subst hdisk
    have hsame := SameTree.FindEntry (s := ⟨disk, last_pos, stack⟩) h path
    exact (congrArg Prod.fst hsame).symm.trans (hres _ rfl)
  · exact fun hres => hres.of_sameTree h

/-- The lookups of a creation find the same directory, whatever surrounds them. -/
theorem Sane.lookupNew_eq {s t : State} {x : ℕ} {filename : List Byte} (hs : Sane s.disk)
    (hlook : (run (lookupNew path) s).1 = .ok (x, filename)) (ht : t.disk = s.disk) :
  ∃ filename', (run (lookupNew path) t).1 = .ok (x, filename')
  := by
  obtain ⟨hzero, -, hx0⟩ := lookupNew_spec hlook
  have hmissing := (hs.names.FindEntry_eq path rfl ht).trans hzero
  have hdisk := (readOnly_FindEntry path).disk t
  have hsector : (run (findDirectory path) (run (FindEntry path) t).2).1.1 = x := by
    rw [findDirectory_fst]
    exact hs.sector hlook (hdisk.trans ht)
  use (run (findDirectory path) (run (FindEntry path) t).2).1.2
  rw [lookupNew, run_bind, if_neg (fun hne => hne hmissing), run_bind]
  simp only [hsector, if_neg hx0, run_pure]

/-- A path that led nowhere leads nowhere but to the new file. -/
theorem Sane.found {s v : State} {x i n : ℕ} {filename : List Byte} (hs : Sane s.disk)
    (hlook : (run (lookupNew path) s).1 = .ok (x, filename))
    (h : Enrolled s.disk v.disk x i n filename) :
  (run (FindEntry path) v).1 = 0 ∨ (run (FindEntry path) v).1 = n
  := by
  have hwalks := h.sameWalks hs.names (hs.absent hlook (fun j hj => lookupNew_chars hlook hj) [])
  have hsector : (run (FindSectorOfPathDir path) v).1.1 = x :=
    (hwalks.FindSectorOfPathDir path (s := s) rfl rfl).trans (hs.sector hlook rfl)
  obtain ⟨-, -, hx0⟩ := lookupNew_spec hlook
  rw [run_FindEntry]
  simp only [hsector, if_neg hx0]
  cases hfound : findName (contents (v.disk x) ((run (FindSectorOfPathDir path) v).2.stack 1))
      (fileName path ++ (run (FindSectorOfPathDir path) v).2.stack 0) with
  | none => exact Or.inl rfl
  | some j =>
      right
      obtain ⟨hj, hmatch⟩ := findName_eq_some hfound
      by_cases hself : j = i
      · rw [hself]
        exact h.entry
      · have hold := (h.matches_other hs.names h.live hj (fun hxi => hself hxi.2) [] _
          (fun _ _ => rfl)).mp hmatch
        have hnone := hs.absent hlook (fun k hk => chars_fileName_append path
          ((run (FindSectorOfPathDir path) v).2.stack 0) hk) []
        exact absurd hold (findName_eq_none.mp hnone j hj)

end

/-! ### The first write to a file -/

section

variable {d d' : Disk} {S : Set ℕ} {n z c : ℕ} {input : Memory}

/-- The sectors of the directories are not written. -/
theorem Written.sameTree_of_spare (h : Written d d' n z input c) (hd : Closed d S) (hn : InTable n)
    (hfile : ¬ IsDir d n) (hspare : z * 2 ∉ S) :
  SameTree d d'
  := by
  have hsec := hn.sector
  constructor
  · intro x hx
    have hxS := hd.live hx
    have hx := hd.apart x hxS
    apply h.others
    · rw [ZONE_BITMAP_LBA]
      omega
    · rintro rfl
      exact hspare hxS
    · omega
  · intro m hm
    apply h.mode_eq (hd.inTable hm)
  · intro m hm hdir
    apply h.zone_eq (hd.inTable hm)
    rintro rfl
    apply hfile hdir

/-- A file that has no zone gets the first one that is free. -/
theorem WriteFile_new {p : List Byte} {s : State} (hp : (run (FindEntry p) s).1 = n)
    (hn : InTable n) (hzero : zoneOf s.disk n 0 = 0) (hz : freeZone s.disk = some z) (hlo : 219 < z)
    (hc : c ≤ 512) (input : Memory) :
  (run (minix_WriteFile p input c) s).1 = c ∧
    Written s.disk (run (minix_WriteFile p input c) s).2.disk n z input c
  := by
  have hwrite : (if (512 : ℤ) < c then (512 : ℤ) else c) = c := if_neg (by omega)
  have hcopy : toU64 c = c := toU64_natCast (by omega)
  have hdisk := (readOnly_FindEntry p).disk s
  have hwith := run_withZone n (run (FindEntry p) s).2
  simp only [hdisk, hzero, if_pos, hz] at hwith
  have hzoned := withZone_zoned (s := (run (FindEntry p) s).2) (congrArg Prod.fst hwith)
  have hlt := (Bitmap.firstClear_eq_some hz).1
  have hzone : i_zone (set_i_zone (contents (s.disk (inodeSector n)) []) (inodeOffset n) 0 z)
      (inodeOffset n) 0 = z := i_zone_set_self _ _ _ (by omega)
  rw [hdisk] at hzoned
  have hwritten := hzoned.written hn hc (by rw [hzone]; exact hlo) input
  rw [run_WriteFile (by rw [hp]; exact hn.ne_zero)]
  simp only [hp, hwrite, hcopy, hdisk, hwith] at hwritten ⊢
  rw [hzone] at hwritten ⊢
  exact ⟨trivial, hwritten⟩

/-- A new file is empty and has no zone. -/
theorem createdFile_empty {k : ℕ} (hk : freeInode d = some k) :
  zoneOf (createdFile d k) (k + 1) 0 = 0 ∧ sizeOf (createdFile d k) (k + 1) = 0
  := by
  have hn := InTable.of_freeInode hk
  have hrec := Recorded.of_recorded (marked INODE_BITMAP_LBA d k) (k + 1) Site.CreateFile.record
  have hsize : i_size Site.CreateFile.record 0 = 0 := by decide +kernel
  constructor
  · rw [(createdFile_rewritten d hk).self 0 (by decide), CreateFile_record.2.2 0 (by decide)]
  · rw [← hsize, sizeOf, i_size, i_size]
    exact hrec.load_self hn.ne_zero (k := 4) (by decide)

end

/-! ### A file created and written -/

/-- The zone that is taken next lies behind that of the root directory, and is that of no
directory. -/
structure Ready (d : Disk) : Prop extends Sane d where
  spare : ∀ z, freeZone d = some z → 219 < z ∧ ¬ LiveDir d (z * 2)

/-- The path denotes a file with `c` bytes from `buf`, if it denotes any. -/
def Filled (d : Disk) (path : List Byte) (buf : Memory) (c : ℕ) : Prop :=
  ∃ n z, n ≠ 0 ∧ z ≠ 0 ∧ sizeOf d n = c ∧ zoneOf d n 0 = z ∧
    (∀ j < c, contents (d (z * 2)) [] j = buf j) ∧
    ∀ m, Resolves d path m ↔ m = n ∧ (lastComponent path).length < 30

/-- A write to the file just created is refused, or fills it. -/
theorem write_created {s : State} {path : List Byte} {c : ℕ} (hs : Ready s.disk)
    (hok : (run (minix_CreateFile path) s).1 = ESUCCESS) (hc : c ≤ 512) (buf : Memory) :
  let w := run (minix_WriteFile path buf c) (run (minix_CreateFile path) s).2
  (w.1 < 0 ∧ w.2.disk ≠ s.disk ∧ (freeZone s.disk = none ∨ 30 ≤ (lastComponent path).length)) ∨
    (w.1 = c ∧ freeZone s.disk ≠ none ∧ Filled w.2.disk path buf c)
  := by
  obtain ⟨x, filename, k, i, hlook, hk, hfree, hdisk⟩ := createFile_success hok
  have hn := InTable.of_freeInode hk
  obtain ⟨hlive, hx0⟩ := lookupNew_ok hlook
  have hxapart := (hs.apart x hlive).resolve_left hx0
  have henrolled := hs.enrolled hlook hk hfree
  have hchanged := withEntry_createdFile_ne hk x filename
  rw [withEntry, hfree] at hchanged
  dsimp only at hchanged ⊢
  generalize (run (minix_CreateFile path) s).2 = t at hdisk ⊢
  rw [← hdisk] at henrolled hchanged
  have hshort := hs.toSane.resolves_created_iff hlook henrolled
  rcases hs.found hlook henrolled with hmissing | hfound
  · left
    have hrefused : run (minix_WriteFile path buf c) t = (-ENOENT, (run (FindEntry path) t).2) := by
      simp only [minix_WriteFile, run_bind, if_pos hmissing, run_pure]
    rw [hrefused]
    refine ⟨show -ENOENT < 0 by decide, ?_, Or.inr ?_⟩
    · rwa [(readOnly_FindEntry path).disk t]
    · by_contra hlt
      have := hshort.mpr (by omega) t rfl
      omega
  · have hcreated := createdFile_empty hk
    have htable : SameTable (createdFile s.disk k) t.disk := by
      rw [hdisk]
      exact SameTable.update (Or.inr hxapart) _
    have hzero : zoneOf t.disk (k + 1) 0 = 0 := by
      rw [zoneOf_congr (htable.sector hn), hcreated.1]
    have hsize : sizeOf t.disk (k + 1) = 0 := by
      rw [sizeOf, htable.sector hn, ← sizeOf, hcreated.2]
    have hzones : freeZone t.disk = freeZone s.disk := by
      have hsec := hn.sector
      rw [freeZone, hdisk, entered, Function.update_of_ne (by rw [ZONE_BITMAP_LBA]; omega),
        createdFile, recorded, Function.update_of_ne (by rw [ZONE_BITMAP_LBA]; omega), marked,
        Function.update_of_ne (by decide), freeZone]
    cases hz : freeZone s.disk with
    | none =>
        left
        rw [run_WriteFile_found hfound hn.ne_zero, if_pos hzero, hzones, hz]
        refine ⟨show -ENOSPC < 0 by decide, ?_, Or.inl rfl⟩
        rwa [(readOnly_FindEntry path).disk t]
    | some z =>
        right
        obtain ⟨hlo, hspare⟩ := hs.spare z hz
        obtain ⟨hcount, hwritten⟩ :=
          WriteFile_new hfound hn hzero (hzones.trans hz) hlo hc buf
        obtain ⟨hcreatedTidy, hfile⟩ :=
          (hs.names.tidy hs.toClosed).createdFile hk
        have hclosed : Closed t.disk {x | LiveDir s.disk x} := by
          rw [hdisk]
          exact hcreatedTidy.toClosed.entered hlive hx0 filename i hn (fun hdir => absurd hdir hfile)
        have htree := hwritten.sameTree_of_spare hclosed hn henrolled.file hspare
        refine ⟨hcount, by simp, k + 1, z, hn.ne_zero, by omega, ?_, hwritten.zone',
          fun j hj => hwritten.data [] j hj, ?_⟩
        · rw [hwritten.size, hsize, Nat.zero_max]
        · intro m
          rw [htree.resolves_iff]
          constructor
          · intro hres
            obtain rfl : m = k + 1 := (hres t rfl).symm.trans hfound
            exact ⟨rfl, hshort.mp hres⟩
          · rintro ⟨rfl, hlt⟩
            exact hshort.mpr hlt

/-! ### The copy -/

/-- The byte `j` of a file, when its zone of 1024 bytes exists. -/
def byteOf (d : Disk) (n j : ℕ) : Option Byte :=
  if zoneOf d n (j / 1024) = 0 then none
  else some (contents (d (zoneOf d n (j / 1024) * 2 + j % 1024 / 512)) [] (j % 512))

/-- The file `n'` has the size and the bytes of the file `n`. -/
def SameFile (d : Disk) (n : ℕ) (d' : Disk) (n' : ℕ) : Prop :=
  sizeOf d' n' = sizeOf d n ∧ ∀ j < sizeOf d n, byteOf d' n' j = byteOf d n j

/-- A copy that succeeds is the same file as the source was, and one that fails leaves the disk. -/
def Copied (s : State) (source dest : List Byte) : Prop :=
  let r := run (minix_CopyFile source dest) s
  (r.1 = ESUCCESS → ∃ n n', n ≠ 0 ∧ n' ≠ 0 ∧ Resolves s.disk source n ∧ Resolves r.2.disk dest n' ∧
    SameFile s.disk n r.2.disk n') ∧
  (r.1 ≠ ESUCCESS → r.2.disk = s.disk)

/-- If the source exists, the destination does not, and an inode is free, then so are an entry and
a zone, the name of the copy ends within its entry, and the source is one sector at most, with a
zone unless it is empty. -/
def CopyFits (s : State) (source dest : List Byte) : Prop :=
  ∀ n x filename k, (run (FindEntry source) s).1 = n → n ≠ 0 →
    (run (lookupNew dest) s).1 = .ok (x, filename) → freeInode s.disk = some k →
      freeEntry (createdFile s.disk k) x ≠ none ∧ freeZone s.disk ≠ none ∧
        (lastComponent dest).length < 30 ∧ sizeOf s.disk n ≤ 512 ∧
        (sizeOf s.disk n = 0 ∨ zoneOf s.disk n 0 ≠ 0)

section

variable {d d' : Disk} {n n' c : ℕ} {buf : Memory} {path : List Byte}

theorem byteOf_of_lt {j : ℕ} (hj : j < 512) :
  byteOf d n j = if zoneOf d n 0 = 0 then none else some (contents (d (zoneOf d n 0 * 2)) [] j)
  := by
  have hzone : j / 1024 = 0 := by omega
  have hsector : j % 1024 / 512 = 0 := by omega
  have hbyte : j % 512 = j := by omega
  rw [byteOf, hzone, hsector, hbyte, Nat.add_zero]

/-- A file of the bytes read from another is the same when they are all its bytes. -/
theorem sameFile_iff (hsize : sizeOf d' n' = min (sizeOf d n) 512) (hzone : zoneOf d' n' 0 ≠ 0)
    (hdata : ∀ j < min (sizeOf d n) 512, contents (d' (zoneOf d' n' 0 * 2)) [] j = buf j)
    (hread : sizeOf d n ≤ 512 → zoneOf d n 0 ≠ 0 →
      ∀ j < sizeOf d n, buf j = contents (d (zoneOf d n 0 * 2)) [] j) :
  SameFile d n d' n' ↔ sizeOf d n ≤ 512 ∧ (sizeOf d n = 0 ∨ zoneOf d n 0 ≠ 0)
  := by
  constructor
  · rintro ⟨hsame, hbytes⟩
    refine ⟨by omega, ?_⟩
    by_contra hnot
    rw [not_or, not_not] at hnot
    have hbyte := hbytes 0 (by omega)
    rw [byteOf_of_lt (by decide), byteOf_of_lt (by decide), if_neg hzone, if_pos hnot.2] at hbyte
    cases hbyte
  · rintro ⟨hle, hempty⟩
    refine ⟨by omega, ?_⟩
    intro j hj
    have hne : zoneOf d n 0 ≠ 0 := hempty.resolve_left (by omega)
    rw [byteOf_of_lt (by omega), byteOf_of_lt (by omega), if_neg hzone, if_neg hne,
      hdata j (by omega), hread hle hne j hj]

/-- The bytes read from a file of one sector at most are its bytes. -/
theorem CopyFile_read_data {s : State} {source : List Byte}
    (hn : (run (FindEntry source) (run stack s).2).1 = n) (hzero : n ≠ 0)
    (hsize : sizeOf s.disk n ≤ 512) (hzone : zoneOf s.disk n 0 ≠ 0) {j : ℕ}
    (hj : j < sizeOf s.disk n) :
  (run (minix_CopyFile.read source) s).1.2 j = contents (s.disk (zoneOf s.disk n 0 * 2)) [] j
  := by
  have hdisk : (run stack s).2.disk = s.disk := rfl
  have hcount : ((512 : ℕ) : ℤ) = 512 := rfl
  rw [run_CopyFile_read_eq, run_ReadFile hn hzero, hdisk]
  have hdata := (readResult_spec hsize hzone le_rfl (contents (s.disk (zoneOf s.disk n 0 * 2))
    ((run (FindEntry source) (run stack s).2).2.stack 1)) (chars (run stack s).1) 0).2 j (by omega)
  rw [Nat.zero_add, hcount] at hdata
  rw [hdata, contents_lt _ _ (by omega), contents_lt _ _ (by omega)]

end

/-- Once the copy is created, the copying depends on its zone, its name and the source only. -/
theorem copyFits_iff {s t : State} {source dest filename : List Byte} {n x k i : ℕ}
    (hs : Ready s.disk) (hn : (run (FindEntry source) s).1 = n) (hzero : n ≠ 0)
    (hdisk : t.disk = s.disk) (hlook : (run (lookupNew dest) t).1 = .ok (x, filename))
    (hk : freeInode s.disk = some k) (hfree : freeEntry (createdFile s.disk k) x = some i) :
  CopyFits s source dest ↔ freeZone s.disk ≠ none ∧ (lastComponent dest).length < 30 ∧
    sizeOf s.disk n ≤ 512 ∧ (sizeOf s.disk n = 0 ∨ zoneOf s.disk n 0 ≠ 0)
  := by
  have hready : Ready t.disk := by rwa [hdisk]
  constructor
  · intro h
    obtain ⟨filename', hlook'⟩ := hready.toSane.lookupNew_eq hlook hdisk.symm
    exact (h n x filename' k hn hzero hlook' hk).2
  · rintro h m y filename' k' rfl - hlook' hk'
    obtain ⟨filename'', hlook''⟩ := hs.toSane.lookupNew_eq hlook' hdisk
    rw [hlook] at hlook''
    cases hlook''
    rw [hk] at hk'
    cases hk'
    rw [hfree, hn]
    exact ⟨by simp, h⟩

theorem emptyDisk_ready :
  Ready emptyDisk
  := by
  have hfree : freeZone emptyDisk = some 220 := by decide +kernel
  use emptyDisk_sane
  intro z hz
  rw [hfree, Option.some.injEq] at hz
  subst hz
  refine ⟨by decide, fun hlive => ?_⟩
  exact absurd (emptyDisk_live hlive) (by decide)

/-- A disk with the file `/a`, of 600 bytes. -/
def longFile : Disk :=
  let d := (run (minix_WriteFile (ascii "/a") (fun _ => 1) 512)
    (run (minix_CreateFile (ascii "/a")) (State.ofDisk emptyDisk)).2).2.disk
  Function.update d (inodeSector 3)
    (sector (set_i_size (contents (d (inodeSector 3)) []) (inodeOffset 3) 600))

end Minix
