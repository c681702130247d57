import LySystem.Minix.File

/-!
# Inode records on the disk

Records of 34 bytes lie 32 bytes apart, so that the last two bytes of each, `i_unused`, are
the first two, `i_mode`, of the next one in the sector; the last record of a sector ends in
whatever lies behind the buffer.  What this does to the places that write a record: a write
keeps the other records exactly when the bytes shared with its neighbours do not change.
-/

namespace Minix

open CString

/-- The inode `n` as it is read from a disk, with what lies behind the buffer. -/
def record (d : Disk) (n : ℕ) (behind : List Byte) : Inode :=
  fun i => contents (d (inodeSector n)) behind (inodeOffset n + i)

@[simp]
theorem run_GetInode (n : ℕ) (s : State) :
  run (minix_GetInode n) s =
    (record s.disk n (s.stack 0), { s with stack := fun i => s.stack (i + 1) })
  := rfl

@[simp]
theorem run_ReadInode (n : ℕ) (s : State) :
  run (minix_ReadInode n) s =
    (record s.disk n (s.stack 0), { s with stack := fun i => s.stack (i + 1) })
  := rfl

theorem Inode.fields_of_lt (r : Inode) {i : ℕ} (h : i < 34) :
  r.fields i = r ⟨i, h⟩
  := dif_pos h

/-- The mode of an inode. -/
def modeOf (d : Disk) (n : ℕ) : ℕ := i_mode (contents (d (inodeSector n)) []) (inodeOffset n)

theorem ten_le_inodeSector (n : ℕ) :
  10 ≤ inodeSector n
  := by
  rcases Nat.eq_zero_or_pos n with rfl | hn
  · decide
  · rw [inodeSector_eq (by omega)]
    omega

theorem inodeOffset_le {n : ℕ} (h : n ≠ 0) :
  inodeOffset n ≤ 480
  := by
  rw [inodeOffset_eq h]
  omega

/-- An inode of the inode table. -/
def InTable (n : ℕ) : Prop := 1 ≤ n ∧ n ≤ 4096

theorem InTable.ne_zero {n : ℕ} (h : InTable n) :
  n ≠ 0
  := by
  have := h.1
  omega

theorem InTable.sector {n : ℕ} (h : InTable n) :
  10 ≤ inodeSector n ∧ inodeSector n ≤ 265
  := by
  obtain ⟨hlo, hhi⟩ := h
  rw [inodeSector_eq (by omega)]
  omega

/-! ### Neighbours -/

/-- The next record of a sector. -/
theorem inode_next {n : ℕ} (hn : n ≠ 0) (h : n % 16 ≠ 0) :
  inodeSector (n + 1) = inodeSector n ∧ inodeOffset (n + 1) = inodeOffset n + 32
  := by
  rw [inodeSector_eq hn, inodeOffset_eq hn, inodeSector_eq n.succ_ne_zero,
    inodeOffset_eq n.succ_ne_zero]
  omega

/-- The last record of a sector ends two bytes behind it, the others end inside. -/
theorem inodeOffset_last {n : ℕ} (hn : n ≠ 0) :
  n % 16 = 0 ∧ inodeOffset n = 480 ∨ n % 16 ≠ 0 ∧ inodeOffset n ≤ 448
  := by
  rw [inodeOffset_eq hn]
  omega

/-- Records share bytes with the next and the previous record of the sector only. -/
theorem overlap {n m i : ℕ} (hn : n ≠ 0) (hm : m ≠ 0) (hne : n ≠ m)
    (hsec : inodeSector m = inodeSector n) (hi : i < 34) (hlo : inodeOffset n ≤ inodeOffset m + i)
    (hhi : inodeOffset m + i < inodeOffset n + 34) :
  m = n + 1 ∧ n % 16 ≠ 0 ∧ i < 2 ∨ n = m + 1 ∧ m % 16 ≠ 0 ∧ 32 ≤ i
  := by
  rw [inodeSector_eq hn, inodeSector_eq hm] at hsec
  rw [inodeOffset_eq hn, inodeOffset_eq hm] at hlo hhi
  omega

/-! ### Writing a record -/

/-- The record `w` has been written as the inode `n`; apart from it only the zone bitmap may
have changed. -/
structure Recorded (d d' : Disk) (n : ℕ) (w : Memory) : Prop where
  sector : d' (inodeSector n) =
    sector ((contents (d (inodeSector n)) []).copy (inodeOffset n) w inodeSize)
  others : ∀ lba, lba ≠ inodeSector n → lba ≠ ZONE_BITMAP_LBA → d' lba = d lba

/-- The edit of a buffer writes the record `w`, wherever it is made. -/
def Writes (f : Memory → ℕ → Memory) (w : Memory) : Prop :=
  ∀ m o, f m o = m.copy o w inodeSize

theorem Writes.fill :
  Writes (fun m o => m.fill o inodeSize 0) (fun _ => 0)
  := fun _ _ => rfl

theorem Writes.store {f : Memory → ℕ → Memory} {w : Memory} (h : Writes f w) {k j : ℕ} (v : ℕ)
    (hk : k + j ≤ inodeSize) :
  Writes (fun m o => (f m o).store (o + k) j v) (w.store k j v)
  := by
  intro m o
  simp only [h m o, Memory.copy, Memory.store]
  apply Memory.splice_splice m _ _ hk

/-- The disk with the record `w` written as the inode `n`. -/
def recorded (d : Disk) (n : ℕ) (w : Memory) : Disk :=
  Function.update d (inodeSector n)
    (sector ((contents (d (inodeSector n)) []).copy (inodeOffset n) w inodeSize))

theorem Recorded.of_recorded (d : Disk) (n : ℕ) (w : Memory) :
  Recorded d (recorded d n w) n w
  := by
  constructor
  · apply Function.update_self
  · intro lba hne _
    apply Function.update_of_ne hne

theorem Writes.run_editInode {f : Memory → ℕ → Memory} {w : Memory} (h : Writes f w) (n : ℕ)
    (s : State) :
  run (editInode n f) s = ((), { s with disk := Minix.recorded s.disk n w })
  := by
  simp [editInode, h _ _, Minix.recorded]

theorem Writes.recorded {f : Memory → ℕ → Memory} {w : Memory} (h : Writes f w) (n : ℕ)
    (s : State) :
  Recorded s.disk (run (editInode n f) s).2.disk n w
  := by
  rw [h.run_editInode]
  apply Recorded.of_recorded

/-- The places that write an inode. -/
inductive Site where
  | WriteInode (inode : Inode)
  | CreateFile
  | CreateDir (new_zone : ℕ)
  | DeleteFile
  | DeleteDir

def Site.write (n : ℕ) : Site → Op Unit
  | .WriteInode inode => minix_WriteInode n inode
  | .CreateFile => minix_CreateFile.clearInode n
  | .CreateDir new_zone => minix_CreateDir.clearInode n new_zone
  | .DeleteFile => minix_DeleteFile.clearInode n
  | .DeleteDir => minix_DeleteDir.clearInode n

/-- The record each of them writes. -/
def Site.record : Site → Memory
  | .WriteInode inode => inode.fields
  | .CreateFile => set_i_nlinks (set_i_size (set_i_mode (fun _ => 0) 0 0x81ED) 0 0) 0 1
  | .CreateDir new_zone =>
      set_i_zone (set_i_nlinks (set_i_size (set_i_mode (fun _ => 0) 0 0x41ED) 0 64) 0 2) 0 0 new_zone
  | .DeleteFile => fun _ => 0
  | .DeleteDir => fun _ => 0

theorem run_CreateFile_clearInode (n : ℕ) (s : State) :
  run (minix_CreateFile.clearInode n) s =
    ((), { s with disk := recorded s.disk n Site.CreateFile.record })
  := by
  have hf := ((Writes.fill.store (k := 0) (j := 2) 0x81ED (by decide)).store
    (k := 4) (j := 4) 0 (by decide)).store (k := 13) (j := 1) 1 (by decide)
  apply hf.run_editInode

theorem run_CreateDir_clearInode (n new_zone : ℕ) (s : State) :
  run (minix_CreateDir.clearInode n new_zone) s =
    ((), { s with disk := recorded s.disk n (Site.CreateDir new_zone).record })
  := by
  have hf := (((Writes.fill.store (k := 0) (j := 2) 0x41ED (by decide)).store
    (k := 4) (j := 4) 64 (by decide)).store (k := 13) (j := 1) 2 (by decide)).store
    (k := 14) (j := 2) new_zone (by decide)
  apply hf.run_editInode

/-- Freeing zones changes the zone bitmap on the disk, and nothing of the buffer outside the
inode. -/
theorem freeZones_spec (o : ℕ) (zs : List ℕ) (hzs : ∀ z ∈ zs, z < 7) (m : Memory) (s : State) :
  (∀ lba, lba ≠ ZONE_BITMAP_LBA → (run (freeZones o zs m) s).2.disk lba = s.disk lba) ∧
    (∀ x, x < o ∨ o + inodeSize ≤ x → (run (freeZones o zs m) s).1 x = m x)
  := by
  induction zs generalizing m s with
  | nil => exact ⟨fun _ _ => rfl, fun _ _ => rfl⟩
  | cons z zs ih =>
      have hz := hzs z List.mem_cons_self
      have hih := ih (fun z' hz' => hzs z' (List.mem_cons_of_mem z hz'))
      rw [freeZones, run_ite]
      split_ifs with hne
      · rw [run_bind]
        obtain ⟨hdisk, hbuf⟩ := hih (set_i_zone m o z 0) (run (FreeZone (i_zone m o z)) s).2
        constructor
        · intro lba hlba
          rw [hdisk lba hlba, FreeZone, if_neg hne]
          simp [editBitmap, Function.update_of_ne hlba]
        · intro x hx
          rw [hbuf x hx]
          apply Memory.store_outside
          rw [inodeSize] at hx
          omega
      · apply hih

theorem Site.recorded (site : Site) (n : ℕ) (s : State) :
  Recorded s.disk (run (site.write n) s).2.disk n site.record
  := by
  cases site with
  | WriteInode inode =>
      have hf : Writes (fun buf offset => buf.copy offset inode.fields inodeSize) inode.fields :=
        fun _ _ => rfl
      apply hf.recorded
  | CreateFile =>
      rw [Site.write, run_CreateFile_clearInode]
      apply Recorded.of_recorded
  | CreateDir new_zone =>
      rw [Site.write, run_CreateDir_clearInode]
      apply Recorded.of_recorded
  | DeleteFile =>
      obtain ⟨hdisk, hbuf⟩ := freeZones_spec (inodeOffset n) (List.range 7)
        (fun z hz => List.mem_range.mp hz) (contents (s.disk (inodeSector n)) []) s
      rw [Site.write, minix_DeleteFile.clearInode]
      simp only [run_bind, run_read, run_write]
      constructor
      · rw [Function.update_self]
        apply congrArg sector
        funext x
        simp only [Memory.fill, Memory.copy, Memory.splice]
        split_ifs with hx
        · rfl
        · apply hbuf
          omega
      · intro lba hne hzone
        rw [Function.update_of_ne hne, hdisk lba hzone]
  | DeleteDir =>
      apply Writes.fill.recorded

/-! ### What a written record changes -/

section

variable {d d' : Disk} {n m : ℕ} {w : Memory}

/-- The bytes of a sector of inodes: those of the record written, and those before. -/
theorem Recorded.byte (h : Recorded d d' n w) (m : ℕ) (behind : List Byte) {x : ℕ} (hx : x < 512) :
  contents (d' (inodeSector m)) behind x =
    if inodeSector m = inodeSector n ∧ inodeOffset n ≤ x ∧ x < inodeOffset n + 34 then
      w (x - inodeOffset n)
    else contents (d (inodeSector m)) behind x
  := by
  have hzone : inodeSector m ≠ ZONE_BITMAP_LBA := by
    have := ten_le_inodeSector m
    rw [ZONE_BITMAP_LBA]
    omega
  by_cases hs : inodeSector m = inodeSector n
  · rw [hs, h.sector, contents_sector _ _ hx]
    by_cases hr : inodeOffset n ≤ x ∧ x < inodeOffset n + 34
    · rw [if_pos ⟨rfl, hr⟩]
      apply if_pos hr
    · rw [if_neg (fun hc => hr hc.2), contents_lt _ behind hx,
        ← contents_lt (d (inodeSector n)) [] hx]
      apply if_neg hr
  · rw [if_neg (fun hc => hs hc.1), h.others _ hs hzone]

theorem Recorded.load_self (h : Recorded d d' n w) (hn : n ≠ 0) {k j : ℕ} (hk : k + j ≤ 32) :
  (contents (d' (inodeSector n)) []).load (inodeOffset n + k) j = w.load k j
  := by
  have hoff := inodeOffset_le hn
  apply Memory.load_congr
  intro i hi
  rw [h.byte n [] (by omega), if_pos ⟨rfl, by omega, by omega⟩]
  congr 1
  omega

/-- The fields of another inode, apart from the two it shares, are kept. -/
theorem Recorded.load_other (h : Recorded d d' n w) (hn : n ≠ 0) (hm : m ≠ 0) (hne : n ≠ m)
    {k j : ℕ} (hlo : 2 ≤ k) (hhi : k + j ≤ 32) :
  (contents (d' (inodeSector m)) []).load (inodeOffset m + k) j =
    (contents (d (inodeSector m)) []).load (inodeOffset m + k) j
  := by
  have hoff := inodeOffset_le hm
  apply Memory.load_congr
  intro i hi
  rw [h.byte m [] (by omega), if_neg]
  rintro ⟨hsec, hge, hlt⟩
  rcases overlap hn hm hne hsec (i := k + i) (by omega) (by omega) (by omega) with
    ⟨-, -, h2⟩ | ⟨-, -, h32⟩
  · omega
  · omega

theorem Recorded.modeOf_other (h : Recorded d d' n w) (hn : n ≠ 0) (hm : m ≠ 0) (hne : n ≠ m)
    (hnext : ¬ (m = n + 1 ∧ n % 16 ≠ 0)) :
  modeOf d' m = modeOf d m
  := by
  have hoff := inodeOffset_le hm
  apply Memory.load_congr
  intro i hi
  rw [h.byte m [] (by omega), if_neg]
  rintro ⟨hsec, hge, hlt⟩
  rcases overlap hn hm hne hsec (by omega) hge hlt with ⟨hm, hmod, -⟩ | ⟨-, -, h32⟩
  · apply hnext ⟨hm, hmod⟩
  · omega

/-- The next inode of the sector gets the last field as its mode. -/
theorem Recorded.modeOf_next (h : Recorded d d' n w) (hn : n ≠ 0) (hmod : n % 16 ≠ 0) :
  modeOf d' (n + 1) = i_unused w 0
  := by
  obtain ⟨hsec, hoff⟩ := inode_next hn hmod
  have hle : inodeOffset (n + 1) ≤ 480 := inodeOffset_le n.succ_ne_zero
  apply Memory.load_congr
  intro i hi
  rw [h.byte _ [] (by omega), if_pos ⟨hsec, by omega, by omega⟩]
  congr 1
  omega

theorem contents_behind (x : Sector) (behind : List Byte) (i : ℕ) :
  contents x behind (512 + i) = chars behind i
  := by
  rw [contents, dif_neg (by omega), Nat.add_sub_cancel_left]
  rfl

/-- Reading back the record written. -/
theorem Recorded.read_self (h : Recorded d d' n w) (hn : n ≠ 0) (behind : List Byte) :
  (∀ i : Fin 34, record d' n behind i = w i) ↔
    (n % 16 = 0 → i_unused w 0 = (chars behind).load 0 2)
  := by
  have hoff := inodeOffset_eq hn
  -- Only the last two bytes of the last record of a sector lie behind the buffer.
  have hin : ∀ i : Fin 34, inodeOffset n + i < 512 → record d' n behind i = w i := by
    intro i hi
    rw [record, h.byte n behind hi, if_pos ⟨rfl, by omega, by omega⟩, Nat.add_sub_cancel_left]
  constructor
  · intro heq hlast
    apply Memory.load_congr
    intro i hi
    have hi' := heq ⟨32 + i, by omega⟩
    have : inodeOffset n + (32 + i) = 512 + i := by omega
    simp only [record, this, contents_behind] at hi'
    simpa using hi'.symm
  · intro hlast i
    by_cases hi : inodeOffset n + i < 512
    · apply hin i hi
    · have hi34 := i.isLt
      obtain ⟨j, hj⟩ : ∃ j, (i : ℕ) = 32 + j := ⟨i - 32, by omega⟩
      have hbytes := Memory.load_eq_iff.mp (hlast (by omega)) j (by omega)
      have hpos : inodeOffset n + i = 512 + j := by omega
      rw [record, hpos, contents_behind, hj]
      simpa using hbytes.symm

/-- The bytes the record of `m` shares with the record `w` written as the inode `n` hold in `w`
what they held before. -/
def SharedKept (d : Disk) (n m : ℕ) (w : Memory) : Prop :=
  (m = n + 1 → n % 16 ≠ 0 → i_unused w 0 = modeOf d m) ∧
    (n = m + 1 → m % 16 ≠ 0 → i_mode w 0 = modeOf d n)

/-- The record of another inode is kept when the bytes it shares with the record written are,
and the bytes read behind the buffer are the same. -/
theorem Recorded.read_other (h : Recorded d d' n w) (hn : n ≠ 0) (hm : m ≠ 0) (hne : n ≠ m)
    (before after : List Byte) :
  record d' m after = record d m before ↔
    SharedKept d n m w ∧ (m % 16 = 0 → (chars after).load 0 2 = (chars before).load 0 2)
  := by
  rw [SharedKept, and_assoc]
  constructor
  · intro heq
    have hbytes : ∀ i < 34, contents (d' (inodeSector m)) after (inodeOffset m + i) =
        contents (d (inodeSector m)) before (inodeOffset m + i) :=
      fun i hi => congrFun heq ⟨i, hi⟩
    refine ⟨?_, ?_, ?_⟩
    · rintro rfl hlast
      obtain ⟨hsec, hoff⟩ := inode_next hn hlast
      have hle := inodeOffset_le hm
      apply Memory.load_congr
      intro i hi
      have hpos : inodeOffset (n + 1) + i - inodeOffset n = 0 + 32 + i := by omega
      have hi' := hbytes i (by omega)
      rw [h.byte _ after (by omega), if_pos ⟨hsec, by omega, by omega⟩, hpos] at hi'
      rw [hi', contents_lt _ _ (by omega), contents_lt _ _ (by omega)]
    · rintro rfl hlast
      obtain ⟨hsec, hoff⟩ := inode_next hm hlast
      have hle := inodeOffset_le hn
      apply Memory.load_congr
      intro i hi
      have hpos : inodeOffset m + (32 + i) = inodeOffset (m + 1) + i := by omega
      have hi' := hbytes (32 + i) (by omega)
      rw [hpos, h.byte m after (by omega), if_pos ⟨hsec.symm, by omega, by omega⟩,
        Nat.add_sub_cancel_left] at hi'
      rw [Nat.zero_add, hi', hsec, contents_lt _ _ (by omega), contents_lt _ _ (by omega)]
    · intro hlast
      obtain ⟨-, hoff⟩ := (inodeOffset_last hm).resolve_right fun hmod => hmod.1 hlast
      apply Memory.load_congr
      intro i hi
      have hi' := hbytes (32 + i) (by omega)
      have hpos : inodeOffset m + (32 + i) = 512 + i := by omega
      rw [hpos, contents_behind, contents_behind] at hi'
      simpa using hi'
  · rintro ⟨hnext, hprev, hlast⟩
    funext i
    simp only [record]
    by_cases hin : inodeOffset m + i < 512
    · rw [h.byte m after hin]
      split_ifs with hrange
      · rcases overlap hn hm hne hrange.1 i.isLt hrange.2.1 hrange.2.2 with
          ⟨rfl, hmod, hi⟩ | ⟨rfl, hmod, hi⟩
        · obtain ⟨-, hoff⟩ := inode_next hn hmod
          have hbytes := Memory.load_eq_iff.mp (hnext rfl hmod) i hi
          have hpos : inodeOffset (n + 1) + i - inodeOffset n = 0 + 32 + i := by omega
          rw [hpos, hbytes, contents_lt _ _ hin, contents_lt _ _ hin]
        · obtain ⟨hsec, hoff⟩ := inode_next hm hmod
          obtain ⟨j, hj⟩ : ∃ j, (i : ℕ) = 32 + j := ⟨i - 32, by omega⟩
          have hbytes := Memory.load_eq_iff.mp (hprev rfl hmod) j (by omega)
          have hpos : inodeOffset m + i = inodeOffset (m + 1) + j := by omega
          rw [hpos] at hin ⊢
          rw [Nat.zero_add] at hbytes
          rw [Nat.add_sub_cancel_left, hbytes, hsec, contents_lt _ _ hin, contents_lt _ _ hin]
      · rw [contents_lt _ _ hin, contents_lt _ _ hin]
    · have hi := i.isLt
      obtain ⟨hmod, hoff⟩ := (inodeOffset_last hm).resolve_right (by omega)
      obtain ⟨j, hj⟩ : ∃ j, (i : ℕ) = 32 + j := ⟨i - 32, by omega⟩
      have hpos : inodeOffset m + i = 512 + j := by omega
      have hbytes := Memory.load_eq_iff.mp (hlast hmod) j (by omega)
      rw [hpos, contents_behind, contents_behind]
      simpa using hbytes

end

/-- The two bytes that lie behind the next buffer. -/
def State.behind (s : State) : ℕ := (chars (s.stack 0)).load 0 2

/-- A small file system: the root directory, the inode 1, in zone 219, with the empty files `a`
and `b`, the inodes 3 and 4; the inodes up to 4 and the zones up to 219 are marked as used. -/
def twoFiles : Disk :=
  Function.update (Function.update (Function.update (Function.update (fun _ _ => 0)
    INODE_BITMAP_LBA fun i => if i.val = 0 then 0x0F else 0)
    ZONE_BITMAP_LBA fun i => if i.val < 27 then 0xFF else if i.val = 27 then 0x0F else 0)
    10 fun i =>
      if i.val = 0 ∨ i.val = 64 ∨ i.val = 96 then 0xED
      else if i.val = 1 then 0x41 else if i.val = 65 ∨ i.val = 97 then 0x81
      else if i.val = 14 then 219 else 0)
    ROOT_SECTOR fun i =>
      if i.val = 0 ∨ i.val = 32 then 1 else if i.val = 64 then 3 else if i.val = 96 then 4
      else if i.val = 2 ∨ i.val = 34 ∨ i.val = 35 then 0x2E
      else if i.val = 66 then 0x61 else if i.val = 98 then 0x62 else 0

/-- A disk with nothing around it. -/
def State.ofDisk (d : Disk) : State := ⟨d, none, fun _ => []⟩

end Minix
