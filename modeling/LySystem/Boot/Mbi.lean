import LySystem.Mem.Paging

/-!
# Boot information

The two walks over the multiboot2 information: `pmm_init` of `kernel/mem/pmm.c` and
`mbi_parse` of `kernel/mbi.c`.  The information is a sequence of tags, each padded to 8
bytes; the tag of type 6 holds the memory map.  Neither walk writes to the memory it reads,
and no loop body assigns the variable of its loop.
-/

namespace Boot

open Paging

/-! ### Tags and entries -/

def tagType (m : Memory) (tag : ℕ) : ℕ := m.load tag 4

def tagSize (m : Memory) (tag : ℕ) : ℕ := m.load (tag + 4) 4

def entrySize (m : Memory) (mmap : ℕ) : ℕ := m.load (mmap + 8) 4

def entryAddr (m : Memory) (entry : ℕ) : ℕ := m.load entry 8

def entryLen (m : Memory) (entry : ℕ) : ℕ := m.load (entry + 8) 8

def entryType (m : Memory) (entry : ℕ) : ℕ := m.load (entry + 16) 4

/-- The condition and the increment of the loop over tags. -/
def tagCond (m : Memory) (mbi_end tag : ℕ) : Bool := tag < mbi_end && tagType m tag != 0

def tagNext (m : Memory) (tag : ℕ) : ℕ := u64 (tag + maskLow 3 (u32 (tagSize m tag + 7)))

/-- The condition and the increment of the loop over the entries of a memory map. -/
def entryCond (m : Memory) (tag entry : ℕ) : Bool := entry < u64 (tag + tagSize m tag)

def entryNext (m : Memory) (tag entry : ℕ) : ℕ := u64 (entry + entrySize m tag)

/-- The condition and the increment of a loop over pages. -/
def pageCond (stop a : ℕ) : Bool := a < stop

def pageNext (a : ℕ) : ℕ := u64 (a + 4096)

/-- The address past an entry's region. -/
def entryStop (m : Memory) (entry : ℕ) : ℕ := u64 (entryAddr m entry + entryLen m entry)

/-- The address past the boot information. -/
def mbiEnd (m : Memory) (base : ℕ) : ℕ := u64 (base + m.load base 4)

variable {σ : Type}

/-- The body for each page of a range. -/
def eachPage (n : ℕ) (body : σ → ℕ → σ) (start stop : ℕ) (s : σ) : Option σ :=
  (Loop.forValues (pageCond stop) pageNext n start).map fun as => as.foldl body s

/-- The body for each page of each available entry of the memory map `tag`. -/
def eachAvailable (n : ℕ) (m : Memory) (body : σ → ℕ → σ) (tag : ℕ) (s : σ) : Option σ :=
  do
    let entries ← Loop.forValues (entryCond m tag) (entryNext m tag) n (u64 (tag + 16))
    entries.foldlM
      (fun s entry =>
        if entryType m entry = 1 then
          eachPage n body (entryAddr m entry) (entryStop m entry) s
        else some s)
      s

/-- The body for each tag of the information at `base`. -/
def eachTag (n : ℕ) (m : Memory) (base : ℕ) (body : σ → ℕ → Option σ) (s : σ) : Option σ :=
  do
    let tags ← Loop.forValues (tagCond m (mbiEnd m base)) (tagNext m) n (u64 (base + 8))
    tags.foldlM body s

/-! ### The two walks -/

/-- The physical memory manager afterwards; `none` when a loop takes more than `n` rounds. -/
def pmm_init (n : ℕ) (m : Memory) (k : Image) (p : Pmm) (mbi_phys_addr : ℕ) : Option Pmm :=
  do
    let p := { p with
      pmm_bitmap := p.pmm_bitmap.fill 0 Pmm.BITMAP_SIZE 0xFF, used_blocks := Pmm.total_blocks }
    let p ← eachTag n m (P2V mbi_phys_addr)
      (fun p tag =>
        if tagType m tag = 6 then
          eachAvailable n m
            (fun p a =>
              if a < Pmm.MAX_BLOCKS * Pmm.PAGE_SIZE then Pmm.pmm_mark_free p a else p)
            tag p
        else some p)
      p
    let p ← eachPage n Pmm.pmm_mark_used
      (sub64 k.kernel_start KERNEL_OFFSET) (sub64 k.kernel_end KERNEL_OFFSET) p
    let p ← eachPage n Pmm.pmm_mark_used 0 0x100000 p
    some (Pmm.pmm_mark_used p mbi_phys_addr)

/-- The variable `fb`. -/
structure framebuffer_info where
  addr : ℕ
  pitch : ℕ
  width : ℕ
  height : ℕ
  bpp : ℕ

/-- The framebuffer a tag of type 8 describes. -/
def framebufferTag (m : Memory) (tag : ℕ) : framebuffer_info where
  addr := m.load (tag + 8) 8
  pitch := m.load (tag + 16) 4
  width := m.load (tag + 20) 4
  height := m.load (tag + 24) 4
  bpp := m.load (tag + 28) 1

/-- The physical memory manager and `fb` afterwards; the argument is a `uint32_t`. -/
def mbi_parse (n : ℕ) (m : Memory) (p : Pmm) (fb : framebuffer_info) (phys_addr : ℕ) :
    Option (Pmm × framebuffer_info) :=
  eachTag n m (P2V (u32 phys_addr))
    (fun (s : Pmm × framebuffer_info) tag =>
      match tagType m tag with
      | 6 => (eachAvailable n m Pmm.pmm_mark_free tag s.1).map fun p => (p, s.2)
      | 8 => some (s.1, framebufferTag m tag)
      | _ => some s)
    (p, fb)

end Boot
