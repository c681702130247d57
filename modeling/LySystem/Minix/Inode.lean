import LySystem.Minix.Disk

/-!
# Inodes

`kernel/fs/minix/inode.c` and the superblock of `superblock.c`.  The packed C struct
`minix2_inode` has 34 bytes, and inodes lie 32 bytes apart, 16 to a sector from sector 10
on.  The inode `n` has bit `n - 1` of the bitmap in sector 2.
-/

namespace Minix

def INODE_BITMAP_LBA : ℕ := 2

def ZONE_BITMAP_LBA : ℕ := 3

/-- `sizeof(struct minix2_inode)`. -/
def inodeSize : ℕ := 34

/-! ### The fields of an inode at the offset `o` of a buffer -/

def i_mode (m : Memory) (o : ℕ) : ℕ := m.load o 2

def i_size (m : Memory) (o : ℕ) : ℕ := m.load (o + 4) 4

def i_zone (m : Memory) (o z : ℕ) : ℕ := m.load (o + 14 + 2 * z) 2

def i_unused (m : Memory) (o : ℕ) : ℕ := m.load (o + 32) 2

def set_i_mode (m : Memory) (o v : ℕ) : Memory := m.store o 2 v

def set_i_size (m : Memory) (o v : ℕ) : Memory := m.store (o + 4) 4 v

def set_i_nlinks (m : Memory) (o v : ℕ) : Memory := m.store (o + 13) 1 v

def set_i_zone (m : Memory) (o z v : ℕ) : Memory := m.store (o + 14 + 2 * z) 2 v

theorem i_zone_set_self (m : Memory) (o z : ℕ) {v : ℕ} (hv : v < 2 ^ 16) :
  i_zone (set_i_zone m o z v) o z = v
  := by
  rw [i_zone, set_i_zone, Memory.load_store]
  omega

theorem i_zone_set_of_ne (m : Memory) (o v : ℕ) {z z' : ℕ} (h : z' ≠ z) :
  i_zone (set_i_zone m o z v) o z' = i_zone m o z'
  := by
  rw [i_zone, set_i_zone, Memory.load_store_disjoint _ _ (by omega), i_zone]

/-- `(i_mode & 0x4000) == 0x4000`: the inode of a directory. -/
def isDirMode (mode : ℕ) : Bool := mode &&& 0x4000 = 0x4000

/-! ### Where an inode lies -/

/-- `10 + ((inode_no - 1) / 16)`, in C's `int`. -/
def inodeSector (inode_no : ℕ) : ℕ := (10 + ((inode_no : ℤ) - 1).tdiv 16).toNat

/-- `((inode_no - 1) % 16) * 32`, computed in C's `int` and kept in a `uint32_t`. -/
def inodeOffset (inode_no : ℕ) : ℕ := (((inode_no : ℤ) - 1).tmod 16 * 32 % 2 ^ 32).toNat

theorem inodeSector_eq {n : ℕ} (h : n ≠ 0) :
  inodeSector n = 10 + (n - 1) / 16
  := by
  have hnonneg : (0 : ℤ) ≤ n - 1 := by omega
  rw [inodeSector, Int.tdiv_eq_ediv_of_nonneg hnonneg]
  omega

theorem inodeOffset_eq {n : ℕ} (h : n ≠ 0) :
  inodeOffset n = (n - 1) % 16 * 32
  := by
  have hnonneg : (0 : ℤ) ≤ n - 1 := by omega
  rw [inodeOffset, Int.tmod_eq_emod_of_nonneg hnonneg]
  omega

/-- The 34 bytes of an inode. -/
abbrev Inode := Fin 34 → Byte

/-- The inode in a variable of its own. -/
def Inode.fields (r : Inode) : Memory := fun i => if h : i < 34 then r ⟨i, h⟩ else 0

/-! ### Reading and writing -/

def minix_GetInode (inode_no : ℕ) : Op Inode :=
  do
    let buf ← ide_read_buffer (inodeSector inode_no)
    return fun i => buf (inodeOffset inode_no + i)

/-- The inode stored through the pointer. -/
def minix_ReadInode (inode_no : ℕ) : Op Inode :=
  do
    let buf ← ide_read_buffer (inodeSector inode_no)
    return fun i => buf (inodeOffset inode_no + i)

/-- The sector of an inode read into a buffer, edited by `f` at the offset of the inode, and
written back. -/
def editInode (inode_no : ℕ) (f : Memory → ℕ → Memory) : Op Unit :=
  do
    let x ← ide_read_sector (inodeSector inode_no)
    ide_write_sector (inodeSector inode_no) (sector (f (contents x []) (inodeOffset inode_no)))

def minix_WriteInode (inode_no : ℕ) (inode : Inode) : Op Unit :=
  editInode inode_no fun buf offset => buf.copy offset inode.fields inodeSize

/-! ### Bitmaps -/

/-- The sector of a bitmap read, edited and written back. -/
def editBitmap (lba : ℕ) (f : Memory → Memory) : Op Unit :=
  do
    let x ← ide_read_sector lba
    ide_write_sector lba (sector (f (contents x [])))

/-- The first number whose bit is off and that `ok` accepts, its bit set. -/
def takeBit (lba : ℕ) (ok : ℕ → Bool) : Op (Option ℕ) :=
  do
    let x ← ide_read_sector lba
    match Bitmap.firstClear (contents x []) ok 512 with
    | some k =>
        ide_write_sector lba (sector (Bitmap.set (contents x []) k))
        return some k
    | none => return none

theorem run_takeBit (lba : ℕ) (ok : ℕ → Bool) (s : State) :
  run (takeBit lba ok) s =
    (Bitmap.firstClear (contents (s.disk lba) []) ok 512,
      match Bitmap.firstClear (contents (s.disk lba) []) ok 512 with
      | none => s
      | some k =>
          { s with disk :=
              Function.update s.disk lba (sector (Bitmap.set (contents (s.disk lba) []) k)) })
  := by
  simp only [takeBit, run_bind, run_read]
  cases Bitmap.firstClear (contents (s.disk lba) []) ok 512 with
  | none => rfl
  | some k => simp

/-- The inode taken, 0 when there is none. -/
def minix_AllocateInode : Op ℕ :=
  do
    match ← takeBit INODE_BITMAP_LBA fun k => !decide (k + 1 ≤ 2) with
    | some k => return u16 (k + 1)
    | none => return 0

def minix_FreeInode (inode_no : ℕ) : Op Unit :=
  if inode_no = 0 then return ()
  else editBitmap INODE_BITMAP_LBA fun buf => Bitmap.clear buf (u16 (inode_no - 1))

def FreeZone (zone_no : ℕ) : Op Unit :=
  if zone_no = 0 then return ()
  else editBitmap ZONE_BITMAP_LBA fun buf => Bitmap.clear buf zone_no

/-! ### The superblock -/

/-- The fields of `struct minix2_superblock`. -/
structure Superblock where
  s_ninodes : ℕ
  s_nzones : ℕ
  s_imap_blocks : ℕ
  s_zmap_blocks : ℕ
  s_firstdatazone : ℕ
  s_log_zone_size : ℕ
  s_max_size : ℕ
  s_magic : ℕ
  s_state : ℕ
  s_zones : ℕ
deriving DecidableEq

/-- The superblock at the start of a buffer. -/
def superblock (m : Memory) : Superblock where
  s_ninodes := m.load 0 2
  s_nzones := m.load 2 2
  s_imap_blocks := m.load 4 2
  s_zmap_blocks := m.load 6 2
  s_firstdatazone := m.load 8 2
  s_log_zone_size := m.load 10 2
  s_max_size := m.load 12 4
  s_magic := m.load 16 2
  s_state := m.load 18 2
  s_zones := m.load 20 4

/-- The value returned, and the variable `current_sb` afterwards. -/
def minix_GetSuperBlock : Op (ℤ × Superblock) :=
  do
    let x ← ide_read_sector 2
    let current_sb := superblock (contents x [])
    if current_sb.s_magic = 0x2478 ∨ current_sb.s_magic = 0x2479 then return (ESUCCESS, current_sb)
    else return (-EINVAL, current_sb)

end Minix
