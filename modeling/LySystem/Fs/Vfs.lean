import LySystem.Minix.Copy
import LySystem.Minix.Listing

/-!
# The file system as the kernel calls it

`kernel/fs/vfs.c` calls the file system through a table of functions, which `kernel/fs/minix/fs.c`
fills with those of the Minix file system.  Mounting reads the superblock and prints the inode of
the root directory, as `minix_GetRootInode` of `kernel/fs/minix/root.c` does.
-/

namespace Vfs

open Minix CString

/-! ### Mounting -/

/-- What is printed of the inode in the first 34 bytes of a buffer.  The zones printed reach beyond
the array of zones. -/
def minix_GetRootInode.print (root : Memory) : List Printk :=
  [⟨"--- Inode Bilgileri (Sektor 10) ---\n", []⟩,
    ⟨"Mode:     %x\n", [.number (i_mode root 0)]⟩,
    ⟨"UID:      %d\n", [.number (root.load 2 2)]⟩,
    ⟨"GID:      %d\n", [.number (root.load 12 1)]⟩,
    ⟨"Size:     %d bytes\n", [.number (i_size root 0)]⟩,
    ⟨"MTime:    %d\n", [.number (root.load 8 4)]⟩,
    ⟨"NLinks:   %d\n", [.number (root.load 13 1)]⟩,
    ⟨"Zones:\n", []⟩] ++
  (List.range 10).map (fun i => ⟨"  Zone[%d]: %d\n", [.number i, .number (i_zone root 0 i)]⟩) ++
  [⟨"----------------------------------\n", []⟩]

def minix_GetRootInode : Op (List Printk) :=
  do
    let buffer ← ide_read_sector 10
    return minix_GetRootInode.print (contents buffer [])

/-- The value returned, the variable `current_sb` afterwards, and what is printed. -/
def minixfs_init : Op (ℤ × Superblock × List Printk) :=
  do
    let (sup, current_sb) ← minix_GetSuperBlock
    if sup = -EINVAL then return (-EINVAL, current_sb, [])
    else
      let printed ← minix_GetRootInode
      return (ESUCCESS, current_sb, printed)

/-! ### The table -/

/-- The functions of a file system.  A path is a string, and a buffer a memory in which a pointer
points; `input` is a memory seen from the pointer. -/
structure filesystem_t where
  name : String
  ReadFile : (name : List Byte) → (mem : Memory) → (output : ℕ) → (count : ℤ) → Op (ℤ × Memory)
  WriteFile : (name : List Byte) → (input : Memory) → (count : ℤ) → Op ℤ
  CreateFile : (name : List Byte) → Op ℤ
  DeleteFile : (name : List Byte) → Op ℤ
  RenameFile : (old_name new_name : List Byte) → Op ℤ
  CopyFile : (source dest : List Byte) → Op ℤ
  CreateDir : (name : List Byte) → Op ℤ
  DeleteDir : (name : List Byte) → Op ℤ
  ListDir : (name : Option (List Byte)) → Op (List Printk)
  fs_init : Op (ℤ × Superblock × List Printk)

def minix_driver : filesystem_t where
  name := "minix2"
  ReadFile := minix_ReadFile
  WriteFile := minix_WriteFile
  CreateFile := minix_CreateFile
  DeleteFile := minix_DeleteFile
  RenameFile := minix_RenameFile
  CopyFile := minix_CopyFile
  CreateDir := minix_CreateDir
  DeleteDir := minix_DeleteDir
  ListDir := minix_ListDir
  fs_init := minixfs_init

def active_fs : filesystem_t := minix_driver

/-! ### Calls -/

/-- A call of the file system; directories are created and deleted through the table itself. -/
inductive Call where
  | ListDir (name : Option (List Byte))
  | CreateFile (name : List Byte)
  | DeleteFile (name : List Byte)
  | ReadFile (name : List Byte) (mem : Memory) (output : ℕ) (count : ℤ)
  | WriteFile (name : List Byte) (input : Memory) (count : ℤ)
  | RenameFile (old_name new_name : List Byte)
  | CopyFile (source dest : List Byte)
  | CreateDir (name : List Byte)
  | DeleteDir (name : List Byte)
  | fs_init

/-- What the caller gets: a number, a number and its memory, or what is printed. -/
inductive Result where
  | number (r : ℤ)
  | read (r : ℤ) (mem : Memory)
  | printed (calls : List Printk)
  | mounted (r : ℤ) (current_sb : Superblock) (calls : List Printk)

def Call.perform : Call → Op Result
  | .ListDir name =>
      do
        let calls ← active_fs.ListDir name
        return .printed calls
  | .CreateFile name =>
      do
        let r ← active_fs.CreateFile name
        return .number r
  | .DeleteFile name =>
      do
        let r ← active_fs.DeleteFile name
        return .number r
  | .ReadFile name mem output count =>
      do
        let (r, mem) ← active_fs.ReadFile name mem output count
        return .read r mem
  | .WriteFile name input count =>
      do
        let r ← active_fs.WriteFile name input count
        return .number r
  | .RenameFile old_name new_name =>
      do
        let r ← active_fs.RenameFile old_name new_name
        return .number r
  | .CopyFile source dest =>
      do
        let r ← active_fs.CopyFile source dest
        return .number r
  | .CreateDir name =>
      do
        let r ← active_fs.CreateDir name
        return .number r
  | .DeleteDir name =>
      do
        let r ← active_fs.DeleteDir name
        return .number r
  | .fs_init =>
      do
        let (r, current_sb, calls) ← minixfs_init
        return .mounted r current_sb calls

/-- The calls one after the other. -/
def performAll : List Call → Op (List Result)
  | [] => return []
  | c :: cs =>
      do
        let r ← c.perform
        let rs ← performAll cs
        return r :: rs

end Vfs
