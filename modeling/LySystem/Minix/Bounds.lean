import LySystem.Machine.Footprint
import LySystem.Minix.Overwrite

/-!
# The buffers of reads and writes

`minix_ReadFile` and `minix_WriteFile` compare their `int` count with the size of the file, a
`uint32_t`, and pass the results on to `memcpy` and `memset`, as lengths of 64 bits.  A count that
is not negative stays within the caller's buffer, and within that of the sector if the file is no
longer than it; a negative one goes wrong unless nothing comes to be copied.
-/

namespace Minix

open CString

/-- The caller's buffers, and those of the functions. -/
inductive Buffer where
  | output
  | input
  | sector_buf
  | data_buf
  | buf
  | inode_buf
  | inode
  deriving DecidableEq

/-! ### The blocks copied and filled -/

/-- The blocks of `minix_ReadFile`, for a file of `size` bytes with the zone `zone`. -/
def readAccesses (size zone : ℕ) (count : ℤ) : List (Access Buffer) :=
  let actual_to_read := if size < toU32 count then s32 size else count
  let padding_needed := if size < toU32 count then s32 (toU32 (count - size)) else 0
  (if 0 < actual_to_read ∧ zone ≠ 0 then
    [.memcpy .output 0 .sector_buf 0 (toU64 actual_to_read)] else []) ++
  if 0 < padding_needed then [.memset .output actual_to_read (toU64 padding_needed)] else []

def minix_ReadFile.accesses (name : List Byte) (count : ℤ) : Op (List (Access Buffer)) :=
  do
    let inode_no ← FindEntry name
    if inode_no = 0 then return []
    else
      let inode ← minix_GetInode inode_no
      return readAccesses (i_size inode.fields 0) (i_zone inode.fields 0 0) count

/-- The blocks of `minix_WriteFile`, once the inode has a zone. -/
def writeAccesses (count : ℤ) : List (Access Buffer) :=
  let to_write := if 512 < count then 512 else count
  [.memset .data_buf 0 512, .memcpy .data_buf 0 .input 0 (toU64 to_write)]

def minix_WriteFile.accesses (name : List Byte) (count : ℤ) : Op (List (Access Buffer)) :=
  do
    let inode_no ← FindEntry name
    if inode_no = 0 then return []
    else
      let x ← ide_read_sector (inodeSector inode_no)
      match ← minix_WriteFile.withZone (contents x []) (inodeOffset inode_no) with
      | none => return []
      | some _ => return writeAccesses count

section

variable (name : List Byte) (count : ℤ) (s : State)

theorem run_ReadFile_accesses :
  (run (minix_ReadFile.accesses name count) s).1 =
    if (run (FindEntry name) s).1 = 0 then []
    else readAccesses (sizeOf s.disk (run (FindEntry name) s).1)
      (zoneOf s.disk (run (FindEntry name) s).1 0) count
  := by
  have hdisk := (readOnly_FindEntry name).disk s
  rw [minix_ReadFile.accesses, run_bind]
  by_cases hn : (run (FindEntry name) s).1 = 0
  · simp [if_pos hn]
  · simp only [if_neg hn, run_bind, run_GetInode, run_pure, hdisk, i_size_record _ hn,
      i_zone_record _ hn]

theorem run_WriteFile_accesses :
  (run (minix_WriteFile.accesses name count) s).1 =
    if (run (FindEntry name) s).1 = 0 ∨ dataZone s.disk (run (FindEntry name) s).1 = none then []
    else writeAccesses count
  := by
  have hdisk := (readOnly_FindEntry name).disk s
  have hzone := run_withZone (run (FindEntry name) s).1 (run (FindEntry name) s).2
  dsimp only at hzone
  rw [minix_WriteFile.accesses, run_bind]
  by_cases hn : (run (FindEntry name) s).1 = 0
  · simp [hn]
  · simp only [if_neg hn, run_bind, run_read]
    rw [hzone, hdisk, dataZone]
    by_cases hzero : zoneOf s.disk (run (FindEntry name) s).1 0 = 0
    · rw [if_pos hzero, if_pos hzero]
      cases freeZone s.disk with
      | none => simp
      | some z => simp [hn]
    · rw [if_neg hzero, if_neg hzero]
      simp [hn]

end

/-! ### The blocks are what the functions change and depend on -/

/-- What is not written of the output, which lies far from both ends of the memory, stays. -/
theorem ReadFile_outside {name : List Byte} {s : State} {count : ℤ} {output x : ℕ}
    (hhi : count < 2 ^ 31) (hlo : -2 ^ 31 ≤ count) (hstart : 2 ^ 31 ≤ output)
    (hend : output + 2 ^ 31 ≤ 2 ^ 64)
    (hx : ∀ a ∈ (run (minix_ReadFile.accesses name count) s).1, ¬ a.Writes .output (x - output))
    (mem : Memory) :
  (run (minix_ReadFile name mem output count) s).1.2 x = mem x
  := by
  rw [run_ReadFile_accesses] at hx
  by_cases hn : (run (FindEntry name) s).1 = 0
  · simp only [minix_ReadFile, run_bind, if_pos hn, run_pure]
  · rw [if_neg hn, readAccesses] at hx
    rw [run_ReadFile rfl hn, readResult]
    generalize zoneOf s.disk (run (FindEntry name) s).1 0 = zone at hx ⊢
    generalize sizeOf s.disk (run (FindEntry name) s).1 = size at hx ⊢
    have hactual : -2 ^ 31 ≤ (if size < toU32 count then s32 size else count) ∧
        (if size < toU32 count then s32 size else count) < 2 ^ 31 := by
      split_ifs
      · apply s32_bounds
      · exact ⟨hlo, hhi⟩
    generalize (if size < toU32 count then s32 size else count) = actual_to_read at hx hactual ⊢
    generalize (if size < toU32 count then s32 (toU32 (count - size)) else 0) =
      padding_needed at hx ⊢
    generalize hdata : contents _ _ = data
    have hcopy : (if 0 < actual_to_read ∧ zone ≠ 0 then mem.copy output data (toU64 actual_to_read)
        else mem) x = mem x := by
      split_ifs with hcond
      · have hblock := hx _ (List.mem_append_left _ (by rw [if_pos hcond]; exact List.mem_cons_self))
        simp only [Access.Writes, Access.InBlock, true_and] at hblock
        apply Memory.splice_outside
        omega
      · rfl
    generalize (if 0 < actual_to_read ∧ zone ≠ 0 then mem.copy output data (toU64 actual_to_read)
      else mem) = copied at hcopy ⊢
    split_ifs with hfill
    · have hblock := hx _ (List.mem_append_right _ (by rw [if_pos hfill]; exact List.mem_cons_self))
      simp only [Access.Writes, Access.InBlock, true_and] at hblock
      have hlen := natCast_toU64 (n := output + actual_to_read) (by omega) (by omega)
      have hoff : x < toU64 (output + actual_to_read) ∨
          toU64 (output + actual_to_read) + toU64 padding_needed ≤ x := by omega
      exact (Memory.splice_outside copied (fun _ => 0) hoff).trans hcopy
    · exact hcopy

/-- A write depends on what is read of the input only. -/
theorem WriteFile_input {name : List Byte} {s : State} {count : ℤ} {input input' : Memory}
    (h : ∀ i : ℕ, (∃ a ∈ (run (minix_WriteFile.accesses name count) s).1, a.Reads .input i) →
      input' i = input i) :
  run (minix_WriteFile name input' count) s = run (minix_WriteFile name input count) s
  := by
  rw [run_WriteFile_accesses] at h
  by_cases hn : (run (FindEntry name) s).1 = 0
  · simp only [minix_WriteFile, run_bind, if_pos hn]
  · rw [run_WriteFile_found rfl hn, run_WriteFile_found rfl hn]
    by_cases hzone : dataZone s.disk (run (FindEntry name) s).1 = none
    · rw [dataZone] at hzone
      split_ifs at hzone with hzero
      rw [if_pos hzero, if_pos hzero, hzone]
    · rw [if_neg (not_or.mpr ⟨hn, hzone⟩)] at h
      have hdata : dataSector input' (if 512 < count then 512 else count) =
          dataSector input (if 512 < count then 512 else count) := by
        funext i
        have hi := i.isLt
        rw [dataSector, dataSector, sector, sector]
        by_cases hlt : (i : ℕ) < toU64 (if 512 < count then 512 else count)
        · have hread := h i ⟨_, List.mem_cons_of_mem _ List.mem_cons_self, rfl, by omega, by omega⟩
          have hinside := fun input => Memory.splice_inside (fun _ => 0) (a := 0) input hlt
          simp only [Nat.zero_add] at hinside
          rw [Memory.copy, Memory.copy, hinside, hinside, hread]
        · rw [Memory.copy, Memory.copy, Memory.splice_outside _ _ (by omega),
            Memory.splice_outside _ _ (by omega)]
      rw [hdata]

/-! ### What stays within the buffers -/

/-- Nothing is written behind the bytes asked for, and nothing read behind the sector. -/
def ReadBounded (s : State) (name : List Byte) (count : ℤ) : Prop :=
  ∀ a ∈ (run (minix_ReadFile.accesses name count) s).1,
    (∀ i, a.Writes .output i → i < max count 0) ∧ ∀ i, a.Reads .sector_buf i → i < 512

/-- Nothing is read behind the bytes given, nothing written behind the buffer of the sector, and
the value returned is a number of bytes, or negative when the disk is as before. -/
def WriteBounded (s : State) (name : List Byte) (input : Memory) (count : ℤ) : Prop :=
  (∀ a ∈ (run (minix_WriteFile.accesses name count) s).1,
    (∀ i, a.Reads .input i → i < max count 0) ∧ ∀ i, a.Writes .data_buf i → i < 512) ∧
  let r := run (minix_WriteFile name input count) s
  (0 ≤ r.1 ∧ r.1 ≤ 512) ∨ (r.1 < 0 ∧ r.2.disk = s.disk)

/-- The file is not longer than the sector, or no more of it is asked for, or it has no zone; with a
negative count it is empty, or so long that nothing is copied to the buffer. -/
def ReadFits (size zone : ℕ) (count : ℤ) : Prop :=
  if 0 ≤ count then zone = 0 ∨ min (size : ℤ) count ≤ 512
  else size = 0 ∨ 2 ^ 31 ≤ size ∨ (zone = 0 ∧ size ≤ count + 2 ^ 31)

/-- One block written to the output, after what is read of the sector. -/
theorem memcpy_bounded {n : ℕ} (hn : 0 < n) {bound : ℤ} :
  ((∀ i, (Access.memcpy Buffer.output 0 Buffer.sector_buf 0 n).Writes .output i → i < bound) ∧
      ∀ i, (Access.memcpy Buffer.output 0 Buffer.sector_buf 0 n).Reads .sector_buf i → i < 512) ↔
    (n : ℤ) ≤ bound ∧ n ≤ 512
  := by
  simp only [Access.Writes, Access.Reads, true_and]
  rw [Access.forall_inBlock_lt hn, Access.forall_inBlock_lt hn]
  omega

theorem memset_bounded {start : ℤ} {n : ℕ} (hn : 0 < n) {bound : ℤ} :
  ((∀ i, (Access.memset Buffer.output start n).Writes .output i → i < bound) ∧
      ∀ i, (Access.memset Buffer.output start n).Reads .sector_buf i → i < 512) ↔
    start + n ≤ bound
  := by
  simp only [Access.Writes, Access.Reads, true_and]
  rw [Access.forall_inBlock_lt hn]
  simp

/-- The values that decide about the blocks of a read. -/
theorem readAccesses_forall {size zone : ℕ} {count : ℤ} (hhi : count < 2 ^ 31) :
  (∀ a ∈ readAccesses size zone count, (∀ i, a.Writes .output i → i < max count 0) ∧
      ∀ i, a.Reads .sector_buf i → i < 512) ↔
    let actual_to_read := if size < toU32 count then s32 size else count
    let padding_needed := if size < toU32 count then s32 (toU32 (count - size)) else 0
    (0 < actual_to_read ∧ zone ≠ 0 → actual_to_read ≤ max count 0 ∧ actual_to_read ≤ 512) ∧
      (0 < padding_needed → actual_to_read + padding_needed ≤ max count 0)
  := by
  have hactual : (if size < toU32 count then s32 size else count) < 2 ^ 31 := by
    split_ifs
    · exact (s32_bounds _).2
    · exact hhi
  have hpadding : (if size < toU32 count then s32 (toU32 (count - size)) else 0) < 2 ^ 31 := by
    split_ifs
    · exact (s32_bounds _).2
    · decide
  rw [readAccesses]
  dsimp only
  generalize (if size < toU32 count then s32 size else count) = actual_to_read at hactual ⊢
  generalize (if size < toU32 count then s32 (toU32 (count - size)) else 0) =
    padding_needed at hpadding ⊢
  rw [List.forall_mem_append]
  apply and_congr
  · split_ifs with hcopy
    · have heq := natCast_toU64 hcopy.1.le (by omega)
      have hpos : 0 < toU64 actual_to_read := by omega
      rw [List.forall_mem_singleton, memcpy_bounded hpos, heq]
      omega
    · simp [hcopy]
  · split_ifs with hfill
    · have heq := natCast_toU64 hfill.le (by omega)
      have hpos : 0 < toU64 padding_needed := by omega
      rw [List.forall_mem_singleton, memset_bounded hpos, heq]
      omega
    · simp [hfill]

theorem readAccesses_bounded {size zone : ℕ} {count : ℤ} (hsize : size < 2 ^ 32)
    (hlo : -2 ^ 31 ≤ count) (hhi : count < 2 ^ 31) :
  (∀ a ∈ readAccesses size zone count, (∀ i, a.Writes .output i → i < max count 0) ∧
      ∀ i, a.Reads .sector_buf i → i < 512) ↔ ReadFits size zone count
  := by
  rw [readAccesses_forall hhi, ReadFits]
  dsimp only
  by_cases hneg : 0 ≤ count
  · have hcount : (toU32 count : ℤ) = count := by
      rw [toU32]
      omega
    rw [if_pos hneg]
    by_cases hlt : size < toU32 count
    · have hactual : s32 size = size := s32_of_lt (by omega)
      have hpadding : s32 (toU32 (count - size)) = count - size := by
        rw [s32, toU32, if_pos (by omega)]
        omega
      rw [if_pos hlt, if_pos hlt, hactual, hpadding]
      omega
    · rw [if_neg hlt, if_neg hlt]
      omega
  · have hcount : (toU32 count : ℤ) = count + 2 ^ 32 := by
      rw [toU32]
      omega
    rw [if_neg hneg]
    by_cases hlt : size < toU32 count
    · have hrest : (toU32 (count - size) : ℤ) = count + 2 ^ 32 - size := by
        rw [toU32]
        omega
      rw [if_pos hlt, if_pos hlt, s32, s32]
      split_ifs <;> omega
    · rw [if_neg hlt, if_neg hlt]
      omega

theorem writeAccesses_bounded {count : ℤ} (hlo : -2 ^ 31 ≤ count) (hhi : count < 2 ^ 31) :
  (∀ a ∈ writeAccesses count, (∀ i, a.Reads .input i → i < max count 0) ∧
      ∀ i, a.Writes .data_buf i → i < 512) ↔ 0 ≤ count
  := by
  rw [writeAccesses]
  constructor
  · intro h
    by_contra hneg
    -- The length is that of a `size_t`.
    have hpos : 0 < toU64 (if 512 < count then 512 else count) := by
      rw [if_neg (by omega), toU64]
      omega
    have hread := (h _ (List.mem_cons_of_mem _ List.mem_cons_self)).1
    simp only [Access.Reads, true_and] at hread
    rw [Access.forall_inBlock_lt hpos] at hread
    omega
  · intro hcount a ha
    have hlen : (toU64 (if 512 < count then 512 else count) : ℤ) = min count 512 := by
      rw [toU64]
      split_ifs <;> omega
    rcases List.mem_cons.mp ha with rfl | ha
    · constructor
      · intro i hi
        cases hi
      · rintro i ⟨-, -, hi⟩
        omega
    · obtain rfl := List.mem_singleton.mp ha
      constructor
      · rintro i ⟨-, -, hi⟩
        omega
      · rintro i ⟨-, -, hi⟩
        omega

/-- A write to no file, or without a zone to write to, is refused. -/
theorem WriteFile_unstored {s : State} {name : List Byte}
    (h : (run (FindEntry name) s).1 = 0 ∨ dataZone s.disk (run (FindEntry name) s).1 = none)
    (input : Memory) (count : ℤ) :
  Refused s (minix_WriteFile name input count)
  := by
  by_cases hn : (run (FindEntry name) s).1 = 0
  · simp only [Refused, minix_WriteFile, run_bind, if_pos hn, run_pure]
    exact ⟨by decide, (readOnly_FindEntry name).disk s⟩
  · apply (writeFile_refused rfl hn input count).mpr
    left
    have hnone := h.resolve_left hn
    rw [dataZone] at hnone
    split_ifs at hnone with hzero
    exact ⟨hzero, hnone⟩

/-- Reads and writes keep within their buffers exactly when the count is not negative and what is
read of the file is not longer than a sector, or nothing comes to be copied. -/
theorem buffers_kept {s : State} {name : List Byte} {n : ℕ} {count : ℤ}
    (hn : (run (FindEntry name) s).1 = n) (hlo : -2 ^ 31 ≤ count) (hhi : count < 2 ^ 31)
    (input : Memory) :
  (ReadBounded s name count ↔ n = 0 ∨ ReadFits (sizeOf s.disk n) (zoneOf s.disk n 0) count) ∧
    (WriteBounded s name input count ↔ n = 0 ∨ dataZone s.disk n = none ∨ 0 ≤ count)
  := by
  subst hn
  constructor
  · rw [ReadBounded, run_ReadFile_accesses]
    by_cases hn : (run (FindEntry name) s).1 = 0
    · simp [hn]
    · rw [if_neg hn, readAccesses_bounded (Memory.load_lt _ _ _) hlo hhi, or_iff_right hn]
  · rw [WriteBounded, run_WriteFile_accesses, ← or_assoc]
    by_cases hrefused : (run (FindEntry name) s).1 = 0 ∨
        dataZone s.disk (run (FindEntry name) s).1 = none
    · rw [if_pos hrefused]
      apply iff_of_true _ (Or.inl hrefused)
      exact ⟨by simp, Or.inr (WriteFile_unstored hrefused input count)⟩
    · rw [if_neg hrefused, writeAccesses_bounded hlo hhi, or_iff_right hrefused]
      apply and_iff_left_of_imp
      intro hcount
      rcases WriteFile_cases name input count s with herror | hvalue
      · exact Or.inr herror
      · left
        rw [hvalue]
        split_ifs <;> omega

/-- Three bytes are read from the file `/a`, or written to it. -/
theorem buffers_kept_three :
  ReadBounded (State.ofDisk twoFiles) (ascii "/a") 3 ∧
    WriteBounded (State.ofDisk twoFiles) (ascii "/a") (chars (ascii "abc")) 3
  := by
  obtain ⟨hread, hwrite⟩ := @buffers_kept (State.ofDisk twoFiles) (ascii "/a") 3 3 (twoFiles_resolves _ rfl)
    (by decide) (by decide) (chars (ascii "abc"))
  have hfits : ReadFits (sizeOf twoFiles 3) (zoneOf twoFiles 3 0) 3 := by
    unfold ReadFits
    decide +kernel
  exact ⟨hread.mpr (Or.inr hfits), hwrite.mpr (Or.inr (Or.inr (by decide)))⟩

/-- A file longer than a sector is read, and a negative number of bytes written. -/
theorem buffers_overrun :
  ¬ ReadBounded (State.ofDisk longFile) (ascii "/a") 600 ∧
    ∀ input, ¬ WriteBounded (State.ofDisk twoFiles) (ascii "/a") input (-1)
  := by
  constructor
  · have hfound : (run (FindEntry (ascii "/a")) (State.ofDisk longFile)).1 = 3 := by decide +kernel
    have hlong : ¬ ReadFits (sizeOf longFile 3) (zoneOf longFile 3 0) 600 := by
      unfold ReadFits
      decide +kernel
    intro h
    rw [ReadBounded, run_ReadFile_accesses, hfound, if_neg (by decide)] at h
    exact hlong ((readAccesses_bounded (Memory.load_lt _ _ _) (by decide) (by decide)).mp h)
  · intro input h
    have hfound : (run (FindEntry (ascii "/a")) (State.ofDisk twoFiles)).1 = 3 :=
      twoFiles_resolves _ rfl
    have hzone : dataZone twoFiles 3 = some 220 := by decide +kernel
    have haccesses := h.1
    rw [run_WriteFile_accesses, hfound, if_neg (by simp [State.ofDisk, hzone])] at haccesses
    have := (writeAccesses_bounded (by decide) (by decide)).mp haccesses
    omega

end Minix
