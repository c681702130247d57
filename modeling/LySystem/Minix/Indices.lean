import LySystem.Minix.Bounds

/-!
# Indices into sectors

Inodes and zones have numbers of 16 bits, their bitmaps one sector each, with 4096 bits.  A record
of an inode has 34 bytes, and the last one of each sector begins 32 bytes before its end.
-/

namespace Minix

open CString

/-! ### What is looked at and changed in the buffers of sectors -/

def FreeZone.accesses (zone_no : ℕ) : List (Access Buffer) :=
  if zone_no = 0 then [] else [.element .buf (zone_no / 8 : ℕ) 1]

def minix_GetInode.accesses (inode_no : ℕ) : List (Access Buffer) :=
  [.memcpy .inode 0 .buf (inodeOffset inode_no) inodeSize]

@[inherit_doc freeZones]
def freeZones.accesses (offset : ℕ) : List ℕ → Memory → List (Access Buffer)
  | [], _ => []
  | z :: zs, buf =>
      .element .inode_buf (offset + 14 + 2 * z : ℕ) 2 ::
        if i_zone buf offset z ≠ 0 then
          FreeZone.accesses (i_zone buf offset z) ++
            freeZones.accesses offset zs (set_i_zone buf offset z 0)
        else freeZones.accesses offset zs buf

def clearInodeBit.accesses (inode_no : ℕ) : List (Access Buffer) :=
  [.element .buf (inode_no / 8 : ℕ) 1]

/-- The updates of the zones, the inode and its bit. -/
def minix_DeleteFile.accesses (name : List Byte) : Op (List (Access Buffer)) :=
  do
    match ← lookupFile name with
    | .error _ => return []
    | .ok (dir_sector, entry_index) =>
        let x ← ide_read_sector dir_sector
        let target_inode := entryInode (contents x []) entry_index
        let offset := inodeOffset target_inode
        let x ← ide_read_sector (inodeSector target_inode)
        return freeZones.accesses offset (List.range 7) (contents x []) ++
          [.memset .inode_buf offset inodeSize] ++ clearInodeBit.accesses target_inode

@[inherit_doc minix_DeleteFile.accesses]
def minix_DeleteDir.accesses (name : List Byte) : Op (List (Access Buffer)) :=
  do
    match ← lookupDir name with
    | .error _ => return []
    | .ok (_, inode_no) =>
        let inode ← minix_GetInode inode_no
        return FreeZone.accesses (i_zone inode.fields 0 0) ++
          [.memset .buf (inodeOffset inode_no) inodeSize] ++ clearInodeBit.accesses inode_no

/-- Only the 512 bytes of the buffers of sectors are touched. -/
def AllInside (accesses : List (Access Buffer)) : Prop :=
  ∀ a ∈ accesses, a.Inside .buf 512 ∧ a.Inside .inode_buf 512

@[simp]
theorem allInside_nil :
  AllInside []
  := by
  simp [AllInside]

theorem allInside_cons {a : Access Buffer} {l : List (Access Buffer)} :
  AllInside (a :: l) ↔ AllInside [a] ∧ AllInside l
  := by
  simp [AllInside]

theorem allInside_append {l l' : List (Access Buffer)} :
  AllInside (l ++ l') ↔ AllInside l ∧ AllInside l'
  := List.forall_mem_append

/-- A block that lies in one of the two buffers. -/
theorem allInside_block {a : Access Buffer} {b : Buffer} {start : ℕ} {n : ℕ} (hn : 0 < n)
    (hb : b = .buf ∨ b = .inode_buf)
    (ha : ∀ b' i, (b' = .buf ∨ b' = .inode_buf) →
      (a.Reads b' i ∨ a.Writes b' i ↔ b = b' ∧ Access.InBlock start n i)) :
  AllInside [a] ↔ start + n ≤ 512
  := by
  have hblock := @Access.forall_inBlock_inside start 512 n hn
  simp only [AllInside, List.forall_mem_singleton, Access.Inside, ha _ _ (Or.inl rfl),
    ha _ _ (Or.inr rfl)]
  rcases hb with rfl | rfl
  · simp only [true_and, reduceCtorEq, false_and, false_imp_iff, implies_true, and_true]
    rw [hblock]
    omega
  · simp only [true_and, reduceCtorEq, false_and, false_imp_iff, implies_true]
    rw [hblock]
    omega

theorem allInside_element {b : Buffer} (hb : b = .buf ∨ b = .inode_buf) (start : ℕ) {n : ℕ}
    (hn : 0 < n) :
  AllInside [.element b start n] ↔ start + n ≤ 512
  := by
  apply allInside_block hn hb
  intro b' i _
  rw [Access.Reads, Access.Writes, or_self]

theorem allInside_memset {b : Buffer} (hb : b = .buf ∨ b = .inode_buf) (start : ℕ) {n : ℕ}
    (hn : 0 < n) :
  AllInside [.memset b start n] ↔ start + n ≤ 512
  := by
  apply allInside_block hn hb
  intro b' i _
  rw [Access.Reads, Access.Writes, false_or]

/-! ### Numbers whose places lie in the sectors -/

theorem FreeZone_inside (zone_no : ℕ) :
  AllInside (FreeZone.accesses zone_no) ↔ zone_no < 4096
  := by
  rw [FreeZone.accesses]
  by_cases hzero : zone_no = 0
  · simp [hzero]
  · rw [if_neg hzero, allInside_element (Or.inl rfl) _ (by decide)]
    omega

theorem clearInodeBit_inside (inode_no : ℕ) :
  AllInside (clearInodeBit.accesses inode_no) ↔ inode_no < 4096
  := by
  rw [clearInodeBit.accesses, allInside_element (Or.inl rfl) _ (by decide)]
  omega

/-- The record of an inode ends in its sector, unless it is the last one there. -/
theorem record_inside {inode_no : ℕ} (h : inode_no < 2 ^ 16) :
  inodeOffset inode_no + inodeSize ≤ 512 ↔ inode_no % 16 ≠ 0
  := by
  rw [inodeSize]
  by_cases hzero : inode_no = 0
  · subst hzero
    decide
  · rw [inodeOffset_eq hzero]
    omega

theorem GetInode_inside {inode_no : ℕ} (h : inode_no < 2 ^ 16) :
  AllInside (minix_GetInode.accesses inode_no) ↔ inode_no % 16 ≠ 0
  := by
  rw [minix_GetInode.accesses, ← record_inside h]
  apply allInside_block (by decide) (Or.inl rfl)
  rintro b' i (rfl | rfl)
  · simp [Access.Reads, Access.Writes]
  · simp [Access.Reads, Access.Writes]

/-- The zones of an inode, none of which is behind another of the loop. -/
theorem freeZones_inside {offset : ℕ} {zs : List ℕ} (hzs : zs.Nodup)
    (hoffset : ∀ z ∈ zs, offset + 14 + 2 * z + 2 ≤ 512) (buf : Memory) :
  AllInside (freeZones.accesses offset zs buf) ↔ ∀ z ∈ zs, i_zone buf offset z < 4096
  := by
  induction zs generalizing buf with
  | nil => simp [freeZones.accesses]
  | cons z zs ih =>
      obtain ⟨hz, hzs⟩ := List.nodup_cons.mp hzs
      obtain ⟨hfirst, hoffset⟩ := List.forall_mem_cons.mp hoffset
      have hfield := (allInside_element (b := .inode_buf) (Or.inr rfl) (offset + 14 + 2 * z)
        (n := 2) (by decide)).mpr hfirst
      have hothers : ∀ z' ∈ zs, i_zone (set_i_zone buf offset z 0) offset z' =
          i_zone buf offset z' := by
        intro z' hz'
        have hdiff : z' ≠ z := by
          rintro rfl
          exact hz hz'
        exact i_zone_set_of_ne _ _ _ hdiff
      rw [freeZones.accesses, allInside_cons, List.forall_mem_cons, and_iff_right hfield]
      by_cases hused : i_zone buf offset z ≠ 0
      · rw [if_pos hused, allInside_append, FreeZone_inside, ih hzs hoffset]
        apply and_congr_right
        intro _
        exact forall₂_congr fun z' hz' => by rw [hothers z' hz']
      · rw [if_neg hused, ih hzs hoffset]
        have hzero : i_zone buf offset z < 4096 := by omega
        rw [and_iff_right hzero]

/-! ### Deletions -/

theorem run_DeleteFile_accesses (name : List Byte) (s : State) :
  (run (minix_DeleteFile.accesses name) s).1 =
    match (run (lookupFile name) s).1 with
    | .error _ => []
    | .ok (dir_sector, i) =>
        let n := entryOf s.disk dir_sector i
        freeZones.accesses (inodeOffset n) (List.range 7) (contents (s.disk (inodeSector n)) []) ++
          [.memset .inode_buf (inodeOffset n) inodeSize] ++ clearInodeBit.accesses n
  := by
  have hdisk := (readOnly_lookupFile name).disk s
  rw [minix_DeleteFile.accesses, run_bind]
  cases (run (lookupFile name) s).1 with
  | error e => rfl
  | ok found =>
      obtain ⟨dir_sector, i⟩ := found
      simp only [run_bind, run_read, run_pure, hdisk, entryOf]

theorem run_DeleteDir_accesses (name : List Byte) (s : State) :
  (run (minix_DeleteDir.accesses name) s).1 =
    match (run (lookupDir name) s).1 with
    | .error _ => []
    | .ok (_, n) =>
        FreeZone.accesses (zoneOf s.disk n 0) ++ [.memset .buf (inodeOffset n) inodeSize] ++
          clearInodeBit.accesses n
  := by
  have hdisk := (readOnly_lookupDir name).disk s
  rw [minix_DeleteDir.accesses, run_bind]
  cases hlook : (run (lookupDir name) s).1 with
  | error e => rfl
  | ok found =>
      obtain ⟨dir_sector, n⟩ := found
      have hn := (lookupDir_ok hlook).2.2.1
      simp only [run_bind, run_GetInode, run_pure, hdisk, i_zone_record _ hn]

/-- The inode is not the last one of its sector, and its bit and those of its zones lie in their
bitmaps. -/
def Fits (d : Disk) (n zones : ℕ) : Prop :=
  n % 16 ≠ 0 ∧ n < 4096 ∧ ∀ z < zones, zoneOf d n z < 4096

theorem DeleteFile_inside (name : List Byte) (s : State) :
  AllInside (run (minix_DeleteFile.accesses name) s).1 ↔
    ∀ dir_sector i, (run (lookupFile name) s).1 = .ok (dir_sector, i) →
      Fits s.disk (entryOf s.disk dir_sector i) 7
  := by
  rw [run_DeleteFile_accesses]
  cases hlook : (run (lookupFile name) s).1 with
  | error e => simp
  | ok found =>
      obtain ⟨x, k⟩ := found
      have hn := (lookupFile_ok hlook).2.2.1
      have hlt : entryOf s.disk x k < 2 ^ 16 := Memory.load_lt _ _ _
      have hoff := inodeOffset_le hn
      have hinside : AllInside (freeZones.accesses (inodeOffset (entryOf s.disk x k)) (List.range 7)
          (contents (s.disk (inodeSector (entryOf s.disk x k))) []) ++
          [.memset .inode_buf (inodeOffset (entryOf s.disk x k)) inodeSize] ++
          clearInodeBit.accesses (entryOf s.disk x k)) ↔ Fits s.disk (entryOf s.disk x k) 7 := by
        rw [allInside_append, allInside_append, allInside_memset (Or.inr rfl) _ (by decide),
          record_inside hlt, clearInodeBit_inside, freeZones_inside List.nodup_range, Fits]
        · simp only [List.mem_range, zoneOf]
          rw [and_assoc]
          exact and_rotate
        · intro z hz
          have := List.mem_range.mp hz
          omega
      dsimp only
      rw [hinside]
      constructor
      · intro h dir_sector i heq
        cases heq
        exact h
      · exact fun h => h x k rfl

theorem DeleteDir_inside (name : List Byte) (s : State) :
  AllInside (run (minix_DeleteDir.accesses name) s).1 ↔
    ∀ dir_sector n, (run (lookupDir name) s).1 = .ok (dir_sector, n) → Fits s.disk n 1
  := by
  rw [run_DeleteDir_accesses]
  cases hlook : (run (lookupDir name) s).1 with
  | error e => simp
  | ok found =>
      obtain ⟨x, n⟩ := found
      have hlt : n < 2 ^ 16 := by
        obtain ⟨-, -, -, -, -, y, i, -, -, rfl, -⟩ := lookupDir_ok hlook
        exact Memory.load_lt _ _ _
      have hinside : AllInside (FreeZone.accesses (zoneOf s.disk n 0) ++
          [.memset .buf (inodeOffset n) inodeSize] ++ clearInodeBit.accesses n) ↔
          Fits s.disk n 1 := by
        rw [allInside_append, allInside_append, allInside_memset (Or.inl rfl) _ (by decide),
          record_inside hlt, clearInodeBit_inside, FreeZone_inside, Fits]
        simp only [Nat.lt_one_iff, forall_eq]
        rw [and_assoc]
        exact and_rotate
      dsimp only
      rw [hinside]
      constructor
      · intro h dir_sector i heq
        cases heq
        exact h
      · exact fun h => h x n rfl

/-! ### The accesses are those of the functions -/

theorem FreeZone_outside {zone_no : ℕ} {i : Fin 512}
    (h : ∀ a ∈ FreeZone.accesses zone_no, ¬ a.Writes .buf (i : ℕ)) (s : State) :
  (run (FreeZone zone_no) s).2.disk ZONE_BITMAP_LBA i = s.disk ZONE_BITMAP_LBA i
  := by
  rw [FreeZone]
  by_cases hzero : zone_no = 0
  · rw [if_pos hzero]
    rfl
  · rw [FreeZone.accesses, if_neg hzero] at h
    have hbyte := h _ List.mem_cons_self
    simp only [Access.Writes, Access.InBlock, true_and] at hbyte
    have hout : (i : ℕ) ≠ zone_no / 8 := by omega
    rw [if_neg hzero]
    simp only [editBitmap, run_bind, run_read, run_write, Function.update_self]
    rw [sector, Bitmap.clear_outside _ hout, contents_lt _ _ i.isLt]

theorem clearInodeBit_outside {inode_no : ℕ} {i : Fin 512}
    (h : ∀ a ∈ clearInodeBit.accesses inode_no, ¬ a.Writes .buf (i : ℕ)) (s : State) :
  (run (clearInodeBit inode_no) s).2.disk INODE_BITMAP_LBA i = s.disk INODE_BITMAP_LBA i
  := by
  have hbyte := h _ List.mem_cons_self
  simp only [Access.Writes, Access.InBlock, true_and] at hbyte
  have hout : (i : ℕ) ≠ inode_no / 8 := by omega
  simp only [clearInodeBit, editBitmap, run_bind, run_read, run_write, Function.update_self]
  rw [sector, Bitmap.clear_outside _ hout, contents_lt _ _ i.isLt]

/-- The sector of an inode stays outside the record written. -/
theorem Recorded.outside {d d' : Disk} {n : ℕ} {w : Memory} (hrec : Recorded d d' n w) {b : Buffer}
    {i : Fin 512}
    (h : ¬ (Access.memset b (inodeOffset n : ℕ) inodeSize).Writes b (i : ℕ)) :
  d' (inodeSector n) i = d (inodeSector n) i
  := by
  simp only [Access.Writes, Access.InBlock, true_and] at h
  rw [hrec.sector, Minix.sector, Memory.copy, Memory.splice_outside _ _ (by omega),
    contents_lt _ _ i.isLt]

/-- An inode is read from the bytes looked at. -/
theorem GetInode_read {inode_no : ℕ} {s t : State}
    (h : ∀ i : ℕ, (∃ a ∈ minix_GetInode.accesses inode_no, a.Reads .buf i) →
      contents (t.disk (inodeSector inode_no)) (t.stack 0) i =
        contents (s.disk (inodeSector inode_no)) (s.stack 0) i) :
  (run (minix_GetInode inode_no) t).1 = (run (minix_GetInode inode_no) s).1
  := by
  funext i
  have hi := i.isLt
  apply h (inodeOffset inode_no + i)
  refine ⟨_, List.mem_cons_self, rfl, ?_, ?_⟩
  · omega
  · rw [inodeSize]
    omega

/-! ### All of them -/

/-- The indices stay in their sectors exactly for the zones and inodes that have a bit in their
bitmap, and for the inodes whose record is not the last one of its sector. -/
theorem indices_inside (s : State) (name : List Byte) :
  (∀ zone_no, AllInside (FreeZone.accesses zone_no) ↔ zone_no < 4096) ∧
    (∀ inode_no < 2 ^ 16, AllInside (minix_GetInode.accesses inode_no) ↔ inode_no % 16 ≠ 0) ∧
    (AllInside (run (minix_DeleteFile.accesses name) s).1 ↔
      ∀ dir_sector i, (run (lookupFile name) s).1 = .ok (dir_sector, i) →
        Fits s.disk (entryOf s.disk dir_sector i) 7) ∧
    (AllInside (run (minix_DeleteDir.accesses name) s).1 ↔
      ∀ dir_sector n, (run (lookupDir name) s).1 = .ok (dir_sector, n) → Fits s.disk n 1) ∧
    ∀ n, (run minix_AllocateInode s).1 = n → n ≠ 0 →
      (AllInside (minix_GetInode.accesses n) ↔ n % 16 ≠ 0) ∧
        (AllInside (clearInodeBit.accesses n) ↔ n ≠ 4096)
  := by
  refine ⟨FreeZone_inside, fun _ h => GetInode_inside h, DeleteFile_inside name s,
    DeleteDir_inside name s, ?_⟩
  rintro n rfl hn
  rw [run_AllocateInode] at hn ⊢
  cases hfree : freeInode s.disk with
  | none =>
      rw [hfree] at hn
      exact absurd rfl hn
  | some k =>
      obtain ⟨-, hlt, -⟩ := freeInode_spec hfree
      dsimp only
      rw [GetInode_inside (by omega), clearInodeBit_inside]
      exact ⟨Iff.rfl, by omega⟩

/-- The inode 3 of the file `/a`, which has no zone. -/
theorem indices_inside_a :
  AllInside (run (minix_DeleteFile.accesses (ascii "/a")) (State.ofDisk twoFiles)).1 ∧
    AllInside (minix_GetInode.accesses 3)
  := by
  obtain ⟨-, hget, hdelete, -⟩ := indices_inside (State.ofDisk twoFiles) (ascii "/a")
  have hlook : (run (lookupFile (ascii "/a")) (State.ofDisk twoFiles)).1 = .ok (ROOT_SECTOR, 2) := by
    decide +kernel
  have hfits : Fits twoFiles (entryOf twoFiles ROOT_SECTOR 2) 7 := by
    unfold Fits
    decide +kernel
  refine ⟨hdelete.mpr ?_, (hget 3 (by decide)).mpr (by decide)⟩
  intro dir_sector i heq
  rw [hlook] at heq
  cases heq
  exact hfits

/-- A disk on which the inode 16 is the first that is free. -/
def fifteenInodes : Disk := fun lba i => if lba = INODE_BITMAP_LBA ∧ i.val < 2 then
  if i.val = 0 then 0xFF else 0x7F else 0

/-- The inode 16 may be allocated, but its record ends behind its sector; a zone may have a number
without a bit. -/
theorem indices_outside :
  (run minix_AllocateInode (State.ofDisk fifteenInodes)).1 = 16 ∧
    ¬ AllInside (minix_GetInode.accesses 16) ∧ ¬ AllInside (FreeZone.accesses 4096)
  := by
  refine ⟨by decide +kernel, ?_, ?_⟩
  · rw [GetInode_inside (by decide)]
    decide
  · rw [FreeZone_inside]
    decide

end Minix
