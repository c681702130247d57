import LySystem.Minix.Inode

/-!
# Files and directories

`kernel/fs/minix/file.c`.  A directory is one sector of 16 entries of 32 bytes, an inode
number and a name of 30 bytes; the root directory is sector 438.
-/

namespace Minix

open CString

def ROOT_SECTOR : ℕ := 438

/-! ### Directory entries -/

def entryInode (buf : Memory) (i : ℕ) : ℕ := buf.load (32 * i) 2

/-- The name of an entry, with all that lies behind it. -/
def entryName (buf : Memory) (i : ℕ) : Memory := buf.drop (32 * i + 2)

/-- The first entry in use with the name. -/
def findName (buf : Memory) (name : List Byte) : Option ℕ :=
  Loop.firstSome
    (fun i => if entryInode buf i ≠ 0 ∧ strcmp (entryName buf i) name = 0 then some i else none) 0 16

/-- The first entry for which `p` holds of its inode number. -/
def findInode (buf : Memory) (p : ℕ → Bool) : Option ℕ :=
  Loop.firstSome (fun i => if p (entryInode buf i) then some i else none) 0 16

/-- The entry with an inode number and a name. -/
def setEntry (buf : Memory) (i inode : ℕ) (name : List Byte) : Memory :=
  let buf := buf.store (32 * i) 2 inode
  buf.copy (32 * i + 2) (strncpy (entryName buf i) (chars name) 30) 30

/-- The entry with inode number 0 and a name of zero bytes. -/
def clearEntry (buf : Memory) (i : ℕ) : Memory :=
  (buf.store (32 * i) 2 0).fill (32 * i + 2) 30 0

/-! ### Looking up a path -/

/-- The loop over the tokens of a path, each of which takes a character at least. -/
def FindSectorOfPathDir.descend : ℕ → ℕ → Option (List Byte) → Op ℕ
  | _, current_sector, none => return current_sector
  | 0, _, some _ => return 0
  | n + 1, current_sector, some token =>
      do
        let buf ← ide_read_buffer current_sector
        match findName buf token with
        | none => return 0
        | some i =>
            let inode ← minix_GetInode (entryInode buf i)
            if isDirMode (i_mode inode.fields 0) then
              let token ← strtok none
              FindSectorOfPathDir.descend n (i_zone inode.fields 0 0 * 2) token
            else return 0

/-- The sector returned, and the 30 bytes written to `out_filename`. -/
def FindSectorOfPathDir (path : List Byte) : Op (ℕ × List Byte) :=
  let temp_path := text (chars path) 255
  match strrchr temp_path (BitVec.ofNat 8 '/'.toNat) with
  | none => return (ROOT_SECTOR, field (chars path) 30)
  | some 0 => return (ROOT_SECTOR, field (chars (path.drop 1)) 30)
  | some last_slash =>
      do
        let token ← strtok (some (temp_path.take last_slash))
        let current_sector ← FindSectorOfPathDir.descend last_slash ROOT_SECTOR token
        return (current_sector, field (chars (temp_path.drop (last_slash + 1))) 30)

/-- The same, with the file name as the callers see it: the bytes written and those behind
them in the buffer. -/
def findDirectory (path : List Byte) : Op (ℕ × List Byte) :=
  do
    let (dir_sector, filename) ← FindSectorOfPathDir path
    let behind ← stack
    return (dir_sector, filename ++ behind)

def FindEntry (name : List Byte) : Op ℕ :=
  do
    let (dir_sector, filename) ← findDirectory name
    if dir_sector = 0 then return 0
    else
      let buf ← ide_read_buffer dir_sector
      match findName buf filename with
      | some i => return entryInode buf i
      | none => return 0

/-! ### Creation -/

/-- The inode of a new file, cleared and filled in in its sector. -/
def minix_CreateFile.clearInode (new_inode_no : ℕ) : Op Unit :=
  editInode new_inode_no fun buf offset =>
    let buf := buf.fill offset inodeSize 0
    let buf := set_i_mode buf offset 0x81ED
    let buf := set_i_size buf offset 0
    set_i_nlinks buf offset 1

/-- The entry of a new inode put in the first free place of a directory. -/
def addEntry (dir_sector inode_no : ℕ) (filename : List Byte) : Op ℤ :=
  do
    let x ← ide_read_sector dir_sector
    match findInode (contents x []) fun inode => inode = 0 with
    | some i =>
        ide_write_sector dir_sector (sector (setEntry (contents x []) i inode_no filename))
        return ESUCCESS
    | none => return -ENOSPC

def minix_CreateFile (name : List Byte) : Op ℤ :=
  do
    if (← FindEntry name) ≠ 0 then return -EEXIST
    else
      let (dir_sector, filename) ← findDirectory name
      if dir_sector = 0 then return -ENOENT
      else
        let new_inode_no ← minix_AllocateInode
        if new_inode_no = 0 then return -ENOSPC
        else
          minix_CreateFile.clearInode new_inode_no
          addEntry dir_sector new_inode_no filename

/-- The inode of a new directory, cleared and filled in in its sector. -/
def minix_CreateDir.clearInode (new_inode_no new_zone : ℕ) : Op Unit :=
  editInode new_inode_no fun buf offset =>
    let buf := buf.fill offset inodeSize 0
    let buf := set_i_mode buf offset 0x41ED
    let buf := set_i_size buf offset 64
    let buf := set_i_nlinks buf offset 2
    set_i_zone buf offset 0 new_zone

/-- The sector of a new directory: the entries `.` and `..`. -/
def minix_CreateDir.dirData (new_inode_no parent_inode : ℕ) : Memory :=
  let dir_data : Memory := fun _ => 0
  setEntry (setEntry dir_data 0 new_inode_no (ascii ".")) 1 parent_inode (ascii "..")

def minix_CreateDir (name : List Byte) : Op ℤ :=
  do
    if (← FindEntry name) ≠ 0 then return -EEXIST
    else
      let (dir_sector, filename) ← findDirectory name
      if dir_sector = 0 then return -ENOENT
      else
        let new_inode_no ← minix_AllocateInode
        if new_inode_no ≤ 2 then return -ENOSPC
        else
          match ← takeBit ZONE_BITMAP_LBA fun _ => true with
          | none => return -ENOSPC
          | some new_zone =>
              minix_CreateDir.clearInode new_inode_no new_zone
              let x ← ide_read_sector dir_sector
              let parent_inode := entryInode (contents x []) 0
              ide_write_sector (new_zone * 2)
                (sector (minix_CreateDir.dirData new_inode_no parent_inode))
              addEntry dir_sector new_inode_no filename

/-! ### Deletion -/

/-- The zones of an inode freed one after the other, with the buffer that holds the inode. -/
def freeZones (offset : ℕ) : List ℕ → Memory → Op Memory
  | [], buf => return buf
  | z :: zs, buf =>
      if i_zone buf offset z ≠ 0 then
        do
          FreeZone (i_zone buf offset z)
          freeZones offset zs (set_i_zone buf offset z 0)
      else freeZones offset zs buf

/-- The inode of a file cleared in its sector, and its zones freed. -/
def minix_DeleteFile.clearInode (target_inode : ℕ) : Op Unit :=
  do
    let x ← ide_read_sector (inodeSector target_inode)
    let offset := inodeOffset target_inode
    let inode_buf ← freeZones offset (List.range 7) (contents x [])
    ide_write_sector (inodeSector target_inode) (sector (inode_buf.fill offset inodeSize 0))

/-- An entry of a directory cleared. -/
def removeEntry (dir_sector i : ℕ) : Op Unit :=
  do
    let x ← ide_read_sector dir_sector
    ide_write_sector dir_sector (sector (clearEntry (contents x []) i))

/-- The bit `inode_no` of the inode bitmap cleared. -/
def clearInodeBit (inode_no : ℕ) : Op Unit :=
  editBitmap INODE_BITMAP_LBA fun buf => Bitmap.clear buf inode_no

def minix_DeleteFile (name : List Byte) : Op ℤ :=
  do
    let (dir_sector, filename) ← findDirectory name
    if dir_sector = 0 then return -ENOENT
    else if strcmp (chars filename) (ascii ".") = 0 ∨ strcmp (chars filename) (ascii "..") = 0 then
      return -EACCES
    else
      let buf ← ide_read_buffer dir_sector
      match findName buf filename with
      | none => return -ENOENT
      | some entry_index =>
          let target_inode := entryInode buf entry_index
          minix_DeleteFile.clearInode target_inode
          clearInodeBit target_inode
          removeEntry dir_sector entry_index
          return ESUCCESS

/-- The inode of a directory cleared in its sector. -/
def minix_DeleteDir.clearInode (inode_no : ℕ) : Op Unit :=
  editInode inode_no fun buf offset => buf.fill offset inodeSize 0

def minix_DeleteDir (name : List Byte) : Op ℤ :=
  do
    let (dir_sector, filename) ← findDirectory name
    if dir_sector = 0 then return -ENOENT
    else if strcmp (chars filename) (ascii ".") = 0 ∨ strcmp (chars filename) (ascii "..") = 0 then
      return -EPERM
    else
      let inode_no ← FindEntry name
      if inode_no = 0 then return -ENOENT
      else
        let inode ← minix_GetInode inode_no
        if !isDirMode (i_mode inode.fields 0) then return -ENOTDIR
        else if 64 < i_size inode.fields 0 then return -EPERM
        else
          FreeZone (i_zone inode.fields 0 0)
          minix_DeleteDir.clearInode inode_no
          clearInodeBit inode_no
          let x ← ide_read_sector dir_sector
          match findInode (contents x []) fun inode => inode = inode_no with
          | some i => ide_write_sector dir_sector (sector (clearEntry (contents x []) i))
          | none => pure ()
          return ESUCCESS

/-! ### Renaming -/

/-- The entry is cleared in its directory before a place is looked for in the other one. -/
def minix_RenameFile (old_name new_name : List Byte) : Op ℤ :=
  do
    let (old_dir_sector, old_filename) ← findDirectory old_name
    if old_dir_sector = 0 then return -ENOENT
    else
      let (new_dir_sector, new_filename) ← findDirectory new_name
      if new_dir_sector = 0 then return -ENOENT
      else
        let existing ← FindEntry new_name
        if existing ≠ 0 then return -EEXIST
        else
          let buf ← ide_read_buffer old_dir_sector
          match findName buf old_filename with
          | none => return -ENOENT
          | some i =>
              let target_inode := entryInode buf i
              ide_write_sector old_dir_sector (sector (clearEntry buf i))
              addEntry new_dir_sector target_inode new_filename

/-! ### Reading and writing -/

/-- A number read as C's `int`. -/
def s32 (n : ℕ) : ℤ := if n % 2 ^ 32 < 2 ^ 31 then n % 2 ^ 32 else n % 2 ^ 32 - 2 ^ 32

/-- A C `int` converted to a `uint32_t`, and to a `size_t`. -/
def toU32 (n : ℤ) : ℕ := (n % 2 ^ 32).toNat

@[inherit_doc toU32] def toU64 (n : ℤ) : ℕ := (n % 2 ^ 64).toNat

theorem s32_bounds (n : ℕ) :
  -2 ^ 31 ≤ s32 n ∧ s32 n < 2 ^ 31
  := by
  rw [s32]
  split_ifs <;> omega

theorem s32_of_lt {n : ℕ} (h : n < 2 ^ 31) :
  s32 n = n
  := by
  rw [s32, if_pos (by omega)]
  omega

theorem toU32_natCast {n : ℕ} (h : n < 2 ^ 32) :
  toU32 n = n
  := by
  rw [toU32]
  omega

theorem toU64_natCast {n : ℕ} (h : n < 2 ^ 64) :
  toU64 n = n
  := by
  rw [toU64]
  omega

theorem natCast_toU64 {n : ℤ} (h : 0 ≤ n) (hlt : n < 2 ^ 64) :
  (toU64 n : ℤ) = n
  := by
  rw [toU64]
  omega

/-- The data of a file copied to the caller, when there is any to copy. -/
def minix_ReadFile.copyOut (inode : Inode) (mem : Memory) (output : ℕ) (actual_to_read : ℤ) :
    Op Memory :=
  if 0 < actual_to_read ∧ i_zone inode.fields 0 0 ≠ 0 then
    do
      let sector_buf ← ide_read_buffer (i_zone inode.fields 0 0 * 2)
      return mem.copy output sector_buf (toU64 actual_to_read)
  else return mem

/-- The value returned, and the memory of the caller afterwards, in which `output` points. -/
def minix_ReadFile (name : List Byte) (mem : Memory) (output : ℕ) (count : ℤ) : Op (ℤ × Memory) :=
  do
    let inode_no ← FindEntry name
    if inode_no = 0 then return (-ENOENT, mem)
    else
      let inode ← minix_GetInode inode_no
      let size := i_size inode.fields 0
      let actual_to_read := if size < toU32 count then s32 size else count
      let padding_needed := if size < toU32 count then s32 (toU32 (count - size)) else 0
      let mem ← minix_ReadFile.copyOut inode mem output actual_to_read
      if 0 < padding_needed then
        return (actual_to_read,
          mem.fill (toU64 (output + actual_to_read)) (toU64 padding_needed) 0)
      else return (actual_to_read, mem)

/-- The buffer of an inode, which is given a zone when it has none. -/
def minix_WriteFile.withZone (inode_buf : Memory) (offset : ℕ) : Op (Option Memory) :=
  if i_zone inode_buf offset 0 = 0 then
    do
      let found_zone ← takeBit ZONE_BITMAP_LBA fun _ => true
      return found_zone.map (set_i_zone inode_buf offset 0)
  else return some inode_buf

/-- The inode in a buffer, not shorter than `to_write`. -/
def minix_WriteFile.grow (inode_buf : Memory) (offset : ℕ) (to_write : ℤ) : Memory :=
  if i_size inode_buf offset < toU32 to_write then set_i_size inode_buf offset (toU32 to_write)
  else inode_buf

/-- `input` is the memory seen from the pointer. -/
def minix_WriteFile (name : List Byte) (input : Memory) (count : ℤ) : Op ℤ :=
  do
    let inode_no ← FindEntry name
    if inode_no = 0 then return -ENOENT
    else
      let offset := inodeOffset inode_no
      let x ← ide_read_sector (inodeSector inode_no)
      match ← minix_WriteFile.withZone (contents x []) offset with
      | none => return -ENOSPC
      | some inode_buf =>
          let data_lba := i_zone inode_buf offset 0 * 2
          let to_write := if 512 < count then 512 else count
          let data_buf : Memory := fun _ => 0
          ide_write_sector data_lba (sector (data_buf.copy 0 input (toU64 to_write)))
          ide_write_sector (inodeSector inode_no)
            (sector (minix_WriteFile.grow inode_buf offset to_write))
          return to_write

end Minix
