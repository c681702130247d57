import LySystem.Mem.Paging

/-!
# The kernel heap

`kernel/mem/heap.c`: a list of headers threaded through the heap.  A header is the C struct
`heap_header_t` of 24 bytes: `magic` at offset 0, `is_free` at offset 4, `size` at offset 8
and `next` at offset 16.
-/

namespace Heap

open Paging

def HEAP_START_ADDR : ℕ := 0xFFFFFFFFD0000000

def HEAP_SIZE : ℕ := 10 * 1024 * 1024

def HEAP_MAGIC : ℕ := 0x12345678

/-- `sizeof(heap_header_t)`. -/
def headerSize : ℕ := 24

/-! ### The fields of a header -/

def magic (m : Memory) (h : ℕ) : ℕ := m.load h 4

def is_free (m : Memory) (h : ℕ) : ℕ := m.load (h + 4) 1

def size (m : Memory) (h : ℕ) : ℕ := m.load (h + 8) 8

def next (m : Memory) (h : ℕ) : ℕ := m.load (h + 16) 8

def setMagic (m : Memory) (h v : ℕ) : Memory := m.store h 4 v

def setIsFree (m : Memory) (h v : ℕ) : Memory := m.store (h + 4) 1 v

def setSize (m : Memory) (h v : ℕ) : Memory := m.store (h + 8) 8 v

def setNext (m : Memory) (h v : ℕ) : Memory := m.store (h + 16) 8 v

/-! ### Initialisation -/

/-- One round of the loop of `heap_init`: the page at `v` gets a block, unless there is
none, in which case the function returns with `false`. -/
def heap_init.mapPage (n : ℕ) (k : Image) (page_aligned_end : ℕ) (s : Vm × ℕ) :
    (Vm × ℕ) ⊕ Option (Vm × Bool) :=
  let (vm, v) := s
  if v < page_aligned_end then
    let (phys, pmm) := Pmm.pmm_alloc_block vm.pmm
    if phys = 0 then .inr (some ({ vm with pmm := pmm }, false))
    else
      match map_page n k { vm with pmm := pmm } v phys (PAGE_PRESENT ||| PAGE_WRITE) with
      | some vm => .inl (vm, u64 (v + 4096))
      | none => .inr none
  else .inr (some (vm, true))

/-- The first header, covering the heap. -/
def heap_init.firstHeader (m : Memory) (start_addr end_addr : ℕ) : Memory :=
  let m := setMagic m start_addr HEAP_MAGIC
  let m := setIsFree m start_addr 1
  let m := setSize m start_addr (sub64 (sub64 end_addr start_addr) headerSize)
  setNext m start_addr 0

/-- The memory afterwards and `heap_start`, which stays `NULL` when the pages cannot all be
mapped. -/
def heap_init (n : ℕ) (k : Image) (vm : Vm) (start_addr end_addr : ℕ) : Option (Vm × ℕ) :=
  let page_aligned_start := maskLow 12 start_addr
  let page_aligned_end := maskLow 12 (u64 (end_addr + 0xFFF))
  do
    let (vm, mapped) ← ← Loop.iterate (heap_init.mapPage n k page_aligned_end) n
      (vm, page_aligned_start)
    if mapped then
      some ({ vm with mem := heap_init.firstHeader vm.mem start_addr end_addr }, start_addr)
    else some (vm, 0)

/-! ### Allocation -/

/-- The request rounded up to a multiple of 16, in 64-bit arithmetic. -/
def roundUp (request : ℕ) : ℕ := maskLow 4 (u64 (request + 15))

/-- The header of the remainder, and the header of the block handed out linked to it. -/
def kmalloc.split (m : Memory) (current sz : ℕ) : Memory :=
  let next_block := u64 (current + headerSize + sz)
  let m := setMagic m next_block HEAP_MAGIC
  let m := setIsFree m next_block 1
  let m := setSize m next_block (sub64 (sub64 (size m current) sz) headerSize)
  let m := setNext m next_block (next m current)
  let m := setSize m current sz
  setNext m current next_block

/-- The memory once the block at `current` is handed out. -/
def kmalloc.take (m : Memory) (current sz : ℕ) : Memory :=
  let m :=
    if u64 (u64 (sz + headerSize) + 32) < size m current then kmalloc.split m current sz else m
  setIsFree m current 0

/-- One round of the loop of `kmalloc`. -/
def kmalloc.visit (m : Memory) (sz current : ℕ) : ℕ ⊕ (ℕ × Memory) :=
  if current = 0 then .inr (0, m)
  else if is_free m current ≠ 0 ∧ sz ≤ size m current then
    .inr (u64 (current + headerSize), kmalloc.take m current sz)
  else .inl (next m current)

/-- The pointer returned, `0` for `NULL`, and the memory afterwards; `none` when the walk
takes more than `n` rounds. -/
def kmalloc (n : ℕ) (m : Memory) (heap_start request : ℕ) : Option (ℕ × Memory) :=
  Loop.iterate (kmalloc.visit m (roundUp request)) n heap_start

/-! ### Release -/

/-- One round of the merge pass of `kfree`. -/
def kfree.merge (s : ℕ × Memory) : (ℕ × Memory) ⊕ Memory :=
  let (current, m) := s
  if current = 0 ∨ next m current = 0 then .inr m
  else if is_free m current ≠ 0 ∧ is_free m (next m current) ≠ 0 then
    let m := setSize m current (u64 (size m current + u64 (size m (next m current) + headerSize)))
    let m := setNext m current (next m (next m current))
    .inl (current, m)
  else .inl (next m current, m)

def kfree (n : ℕ) (m : Memory) (heap_start ptr : ℕ) : Option Memory :=
  if ptr = 0 then some m
  else
    let header := sub64 ptr headerSize
    if magic m header ≠ HEAP_MAGIC then some m
    else Loop.iterate kfree.merge n (heap_start, setIsFree m header 1)

end Heap
