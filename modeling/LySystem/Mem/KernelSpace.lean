import LySystem.Boot.Mbi
import LySystem.Mem.HeapRun
import LySystem.Mem.Translation

/-!
# The address space of the kernel

`paging_init` of `kernel/mem/paging.c` and the calls of `map_page` that it and `heap_init` make:
the window over the physical memory, the identity mapping of the low addresses, the
framebuffer, mapped at its physical address and in the window, and the heap.  The last call at
a page decides.
-/

namespace Paging

open Boot

/-! ### Initialisation -/

/-- The calls of a loop made one after the other. -/
def mapAll (n : ℕ) (k : Image) (vm : Vm) (calls : List Call) : Option Vm :=
  calls.foldlM (fun vm c => map_page n k vm c.virtual c.physical c.flags) vm

/-- The loop over the first 512 MiB of the physical memory. -/
def windowCalls : List Call :=
  (List.range (512 * 1024 * 1024 / 4096)).map fun r =>
    let p := 4096 * r
    ⟨u64 (KERNEL_OFFSET + p), p, PAGE_WRITE⟩

/-- The loop over the first 16 MiB. -/
def identityCalls : List Call :=
  (List.range (0x1000000 / 4096)).map fun r =>
    let i := 4096 * r
    ⟨i, i, PAGE_WRITE⟩

/-- `fb_size`: the product is one of 32 bits, and is rounded up to whole pages. -/
def fb_size (fb : framebuffer_info) : ℕ :=
  let fb_size := u32 (fb.pitch * fb.height)
  if fb_size % 4096 ≠ 0 then fb_size + (4096 - fb_size % 4096) else fb_size

/-- One round of the loop over the framebuffer. -/
def framebufferPage (fb : framebuffer_info) (j : ℕ) : List Call :=
  let i := 4096 * j
  let phys := u64 (fb.addr + i)
  [⟨phys, phys, PAGE_WRITE⟩, ⟨u64 (KERNEL_OFFSET + phys), phys, PAGE_WRITE⟩]

/-- The loop over the framebuffer, when there is one. -/
def framebufferCalls (fb : framebuffer_info) : List Call :=
  if fb.addr ≠ 0 then (List.range (fb_size fb / 4096)).flatMap (framebufferPage fb) else []

/-- The state afterwards, and the address loaded into `cr3`. -/
def paging_init (n : ℕ) (k : Image) (fb : framebuffer_info) (vm : Vm) : Option (Vm × ℕ) :=
  do
    let (phys_pml4, pmm) ← safe_pmm_alloc n k vm.pmm
    let kernel_pml4 := P2V phys_pml4
    let vm : Vm := ⟨zeroTable vm.mem kernel_pml4, pmm, kernel_pml4⟩
    let vm ← mapAll n k vm windowCalls
    let vm ← mapAll n k vm identityCalls
    let vm ← mapAll n k vm (framebufferCalls fb)
    some (vm, phys_pml4)

/-- The physical address of a virtual one, by the four-level walk. -/
def translate (m : Memory) (pml4 v : ℕ) : Option ℕ :=
  (walk m pml4 v).map fun e => frameOf e + v % 2 ^ 12

/-- The translation `t` has the mappings that `paging_init` sets out to make. -/
structure Mapped (fb : framebuffer_info) (t : ℕ → Option ℕ) : Prop where
  window : ∀ p < 512 * 1024 * 1024, t (KERNEL_OFFSET + p) = some p
  identity : ∀ v < 0x1000000, t v = some v
  framebuffer : ∀ i < fb.pitch * fb.height,
    t (u64 (KERNEL_OFFSET + fb.addr + i)) = some (fb.addr + i)

/-! ### The last call at a page -/

/-- A call at the page of `v`. -/
def Call.At (c : Call) (v : ℕ) : Prop := page c.virtual = page v

/-- The entry a call makes. -/
def Call.leaf (c : Call) : ℕ := leafEntry c.physical c.flags

theorem lastEntry_append (cs ds : List Call) (v : ℕ) :
  lastEntry (cs ++ ds) v = (lastEntry ds v).or (lastEntry cs v)
  := by
  rw [lastEntry, List.reverse_append, List.find?_append, lastEntry, lastEntry]
  cases ds.reverse.find? fun c => page c.virtual = page v with
  | none => rfl
  | some c => rfl

theorem lastEntry_eq_none {cs : List Call} {v : ℕ} :
  lastEntry cs v = none ↔ ∀ c ∈ cs, ¬ c.At v
  := by
  simp [lastEntry, Call.At]

theorem lastEntry_mem {cs : List Call} {v e : ℕ} (h : lastEntry cs v = some e) :
  ∃ c ∈ cs, c.At v ∧ e = c.leaf
  := by
  obtain ⟨c, hc, rfl⟩ := Option.map_eq_some_iff.mp h
  have hat := List.find?_some hc
  have hmem := List.mem_of_find?_eq_some hc
  exact ⟨c, by simpa using hmem, by simpa [Call.At] using hat, rfl⟩

/-- In a loop, the last round with a call at the page decides. -/
theorem lastEntry_rounds {n j : ℕ} {f : ℕ → List Call} {v : ℕ} (hj : j < n)
    (hat : ∃ c ∈ f j, c.At v) :
  ∃ l, j ≤ l ∧ l < n ∧ ∃ c ∈ f l, c.At v ∧ lastEntry ((List.range n).flatMap f) v = some c.leaf
  := by
  induction n with
  | zero => omega
  | succ n ih =>
      rw [List.range_succ, List.flatMap_append, List.flatMap_singleton, lastEntry_append]
      cases hlast : lastEntry (f n) v with
      | some e =>
          obtain ⟨c, hc, hcv, rfl⟩ := lastEntry_mem hlast
          exact ⟨n, by omega, by omega, c, hc, hcv, rfl⟩
      | none =>
          have hne : j ≠ n := by
            rintro rfl
            obtain ⟨c, hc, hcv⟩ := hat
            exact lastEntry_eq_none.mp hlast c hc hcv
          obtain ⟨l, hl, hln, hrest⟩ := ih (by omega)
          exact ⟨l, hl, by omega, hrest⟩

/-- The translation that calls made from the empty mapping leave. -/
def target (calls : List Call) (v : ℕ) : Option ℕ :=
  (lastEntry calls v).map fun e => frameOf e + v % 2 ^ 12

theorem frameOf_leafEntry (physical : ℕ) {flags : ℕ} (hf : flags < 4096) :
  frameOf (leafEntry physical flags) = physical / 2 ^ 12 % 2 ^ 40 * 2 ^ 12
  := by
  have hlow : flags ||| PAGE_PRESENT < 2 ^ 12 := Nat.or_lt_two_pow hf (by decide)
  rw [leafEntry, Nat.or_assoc, maskLow, ← Nat.shiftLeft_eq,
    ← Nat.shiftLeft_add_eq_or_of_lt hlow, Nat.shiftLeft_eq, frameOf]
  omega

/-- An address with the frame and the offset of `v`. -/
theorem target_mem {cs : List Call} {v x : ℕ} (hflags : ∀ c ∈ cs, c.flags < 4096)
    (h : target cs v = some x) :
  ∃ c ∈ cs, c.At v ∧ x = c.physical / 2 ^ 12 % 2 ^ 40 * 2 ^ 12 + v % 2 ^ 12
  := by
  obtain ⟨e, he, rfl⟩ := Option.map_eq_some_iff.mp h
  obtain ⟨c, hc, hat, rfl⟩ := lastEntry_mem he
  exact ⟨c, hc, hat, by rw [Call.leaf, frameOf_leafEntry _ (hflags c hc)]⟩

/-! ### The calls -/

/-- The call of `heap_init` in a round to which the block `b l` is given. -/
def heapCall (b : ℕ → ℕ) (l : ℕ) : Call :=
  ⟨Heap.HEAP_START_ADDR + 4096 * l, 4096 * b l, PAGE_PRESENT ||| PAGE_WRITE⟩

/-- The calls of `heap_init`. -/
def heapCalls (b : ℕ → ℕ) : List Call := (List.range (Heap.HEAP_SIZE / 4096)).map (heapCall b)

/-- All calls, in the order in which they are made. -/
def allCalls (fb : framebuffer_info) (b : ℕ → ℕ) : List Call :=
  windowCalls ++ identityCalls ++ framebufferCalls fb ++ heapCalls b

section

variable {fb : framebuffer_info} {b : ℕ → ℕ} {c : Call} {v j : ℕ}

theorem mem_windowCalls :
  c ∈ windowCalls ↔ ∃ r < 2 ^ 17, c = ⟨u64 (KERNEL_OFFSET + 4096 * r), 4096 * r, PAGE_WRITE⟩
  := by
  rw [windowCalls, List.mem_map]
  constructor
  · rintro ⟨r, hr, rfl⟩
    exact ⟨r, List.mem_range.mp hr, rfl⟩
  · rintro ⟨r, hr, rfl⟩
    exact ⟨r, List.mem_range.mpr hr, rfl⟩

theorem mem_identityCalls :
  c ∈ identityCalls ↔ ∃ r < 2 ^ 12, c = ⟨4096 * r, 4096 * r, PAGE_WRITE⟩
  := by
  rw [identityCalls, List.mem_map]
  constructor
  · rintro ⟨r, hr, rfl⟩
    exact ⟨r, List.mem_range.mp hr, rfl⟩
  · rintro ⟨r, hr, rfl⟩
    exact ⟨r, List.mem_range.mpr hr, rfl⟩

theorem mem_heapCalls :
  c ∈ heapCalls b ↔ ∃ l < 2560, c = heapCall b l
  := by
  rw [heapCalls, List.mem_map]
  constructor
  · rintro ⟨l, hl, rfl⟩
    exact ⟨l, List.mem_range.mp hl, rfl⟩
  · rintro ⟨l, hl, rfl⟩
    exact ⟨l, List.mem_range.mpr hl, rfl⟩

theorem mem_framebufferCalls (h : c ∈ framebufferCalls fb) :
  fb.addr ≠ 0 ∧ ∃ j < fb_size fb / 4096, c ∈ framebufferPage fb j
  := by
  rw [framebufferCalls] at h
  split_ifs at h with haddr
  · obtain ⟨j, hj, hc⟩ := List.mem_flatMap.mp h
    exact ⟨haddr, j, List.mem_range.mp hj, hc⟩
  · cases h

theorem mem_framebufferPage :
  c ∈ framebufferPage fb j ↔
    c = ⟨u64 (fb.addr + 4096 * j), u64 (fb.addr + 4096 * j), PAGE_WRITE⟩ ∨
    c = ⟨u64 (KERNEL_OFFSET + u64 (fb.addr + 4096 * j)), u64 (fb.addr + 4096 * j), PAGE_WRITE⟩
  := by
  simp [framebufferPage]

theorem flags_window (hc : c ∈ windowCalls) :
  c.flags < 4096
  := by
  obtain ⟨r, -, rfl⟩ := mem_windowCalls.mp hc
  exact (show PAGE_WRITE < 4096 by decide)

theorem flags_identity (hc : c ∈ identityCalls) :
  c.flags < 4096
  := by
  obtain ⟨r, -, rfl⟩ := mem_identityCalls.mp hc
  exact (show PAGE_WRITE < 4096 by decide)

theorem flags_framebuffer (hc : c ∈ framebufferCalls fb) :
  c.flags < 4096
  := by
  obtain ⟨-, j, -, hc⟩ := mem_framebufferCalls hc
  rcases mem_framebufferPage.mp hc with rfl | rfl
  · exact (show PAGE_WRITE < 4096 by decide)
  · exact (show PAGE_WRITE < 4096 by decide)

theorem flags_heap (hc : c ∈ heapCalls b) :
  c.flags < 4096
  := by
  obtain ⟨l, -, rfl⟩ := mem_heapCalls.mp hc
  exact (show PAGE_PRESENT ||| PAGE_WRITE < 4096 by decide)

theorem flags_lt (hc : c ∈ allCalls fb b) :
  c.flags < 4096
  := by
  simp only [allCalls, List.mem_append] at hc
  rcases hc with ((hc | hc) | hc) | hc
  · exact flags_window hc
  · exact flags_identity hc
  · exact flags_framebuffer hc
  · exact flags_heap hc

/-- A call of the heap is at a page behind the window. -/
theorem heap_at (hc : c ∈ heapCalls b) (hat : c.At v) :
  ∃ l < 2560, c.physical = 4096 * b l ∧ page v = page Heap.HEAP_START_ADDR + l
  := by
  obtain ⟨l, hl, rfl⟩ := mem_heapCalls.mp hc
  refine ⟨l, hl, rfl, ?_⟩
  rw [← hat, heapCall, page, page, Heap.HEAP_START_ADDR]
  dsimp only
  omega

/-- The pages of the window follow that of `KERNEL_OFFSET`, round the end of the addresses. -/
theorem page_offset (x : ℕ) :
  page (u64 (KERNEL_OFFSET + x)) = (2 ^ 36 - 2 ^ 19 + x / 2 ^ 12) % 2 ^ 36
  := by
  rw [page, u64, KERNEL_OFFSET]
  omega

theorem u64_offset {p : ℕ} (hp : p < 2 ^ 29) :
  u64 (KERNEL_OFFSET + p) = KERNEL_OFFSET + p
  := by
  apply u64_of_lt
  rw [KERNEL_OFFSET]
  omega

theorem window_at (hc : c ∈ windowCalls) (hat : c.At v) :
  page v = 2 ^ 36 - 2 ^ 19 + c.physical / 2 ^ 12 ∧ c.physical < 2 ^ 29
  := by
  obtain ⟨r, hr, rfl⟩ := mem_windowCalls.mp hc
  rw [Call.At, page_offset] at hat
  rw [← hat]
  dsimp only
  omega

theorem identity_at (hc : c ∈ identityCalls) (hat : c.At v) :
  page v = c.physical / 2 ^ 12 ∧ c.physical < 2 ^ 24
  := by
  obtain ⟨r, hr, rfl⟩ := mem_identityCalls.mp hc
  rw [Call.At, page] at hat
  rw [← hat]
  dsimp only
  omega

/-- The two calls of a round. -/
theorem framebuffer_at (hlt : fb.addr + 4096 * j < 2 ^ 52) (hc : c ∈ framebufferPage fb j)
    (hat : c.At v) :
  c.physical = fb.addr + 4096 * j ∧
    (page v = (fb.addr + 4096 * j) / 2 ^ 12 % 2 ^ 36 ∨
      page v = (2 ^ 36 - 2 ^ 19 + (fb.addr + 4096 * j) / 2 ^ 12) % 2 ^ 36)
  := by
  have hphys : u64 (fb.addr + 4096 * j) = fb.addr + 4096 * j := u64_of_lt (by omega)
  rcases mem_framebufferPage.mp hc with rfl | rfl
  · refine ⟨hphys, Or.inl ?_⟩
    rw [← hat, hphys]
    rfl
  · refine ⟨hphys, Or.inr ?_⟩
    rw [← hat, hphys, page_offset]

theorem fb_pages (fb : framebuffer_info) :
  fb_size fb / 4096 = (u32 (fb.pitch * fb.height) + 4095) / 4096
  := by
  rw [fb_size]
  split_ifs
  · omega
  · omega

end

/-! ### The translation the calls leave -/

theorem target_append (cs ds : List Call) (v : ℕ) :
  target (cs ++ ds) v = (target ds v).or (target cs v)
  := by
  rw [target, lastEntry_append, Option.map_or]
  rfl

theorem target_eq_none {cs : List Call} {v : ℕ} (h : ∀ c ∈ cs, ¬ c.At v) :
  target cs v = none
  := by
  rw [target, lastEntry_eq_none.mpr h, Option.map_none]

/-- Calls that agree on the address give it, when there are any. -/
theorem target_agree {cs : List Call} {v x : ℕ} (hflags : ∀ c ∈ cs, c.flags < 4096)
    (h : ∀ c ∈ cs, c.At v → c.physical / 2 ^ 12 % 2 ^ 40 * 2 ^ 12 + v % 2 ^ 12 = x) :
  target cs v = none ∨ target cs v = some x
  := by
  cases htarget : target cs v with
  | none =>
      left
      rfl
  | some y =>
      right
      obtain ⟨c, hc, hat, rfl⟩ := target_mem hflags htarget
      rw [h c hc hat]

theorem target_hit {cs : List Call} {v : ℕ} (h : ∃ c ∈ cs, c.At v) :
  target cs v ≠ none
  := by
  obtain ⟨c, hc, hat⟩ := h
  rw [target, Ne, Option.map_eq_none_iff, lastEntry_eq_none]
  intro hnone
  exact hnone c hc hat

section

variable {fb : framebuffer_info} {b : ℕ → ℕ} {v x : ℕ}

theorem target_allCalls (fb : framebuffer_info) (b : ℕ → ℕ) (v : ℕ) :
  target (allCalls fb b) v =
    (target (heapCalls b) v).or
      ((target (framebufferCalls fb) v).or ((target identityCalls v).or (target windowCalls v)))
  := by
  rw [allCalls, target_append, target_append, target_append]

/-- Outside the heap, the framebuffer decides, then the identity mapping, then the window. -/
theorem target_below (hheap : page v < page Heap.HEAP_START_ADDR ∨
    page Heap.HEAP_START_ADDR + 2560 ≤ page v) :
  target (allCalls fb b) v =
    (target (framebufferCalls fb) v).or ((target identityCalls v).or (target windowCalls v))
  := by
  have hnone : target (heapCalls b) v = none := by
    apply target_eq_none
    intro c hc hat
    obtain ⟨l, hl, -, hpage⟩ := heap_at hc hat
    omega
  rw [target_allCalls, hnone, Option.none_or]

theorem target_windowCalls {p : ℕ} (hp : p < 2 ^ 29) :
  (target identityCalls (u64 (KERNEL_OFFSET + p))).or
    (target windowCalls (u64 (KERNEL_OFFSET + p))) = some p
  := by
  have hpage := page_offset p
  have hlow : u64 (KERNEL_OFFSET + p) % 2 ^ 12 = p % 2 ^ 12 := by
    rw [u64, KERNEL_OFFSET]
    omega
  have hidentity : target identityCalls (u64 (KERNEL_OFFSET + p)) = none := by
    apply target_eq_none
    intro c hc hat
    have := identity_at hc hat
    omega
  have hwindow : target windowCalls (u64 (KERNEL_OFFSET + p)) = none ∨
      target windowCalls (u64 (KERNEL_OFFSET + p)) = some p := by
    apply target_agree fun c hc => flags_window hc
    · intro c hc hat
      have := window_at hc hat
      omega
  have hsome : target windowCalls (u64 (KERNEL_OFFSET + p)) ≠ none := by
    apply target_hit
    refine ⟨_, mem_windowCalls.mpr ⟨p / 4096, by omega, rfl⟩, ?_⟩
    rw [Call.At, page_offset, page_offset]
    omega
  rw [hidentity, Option.none_or]
  exact hwindow.resolve_left hsome

theorem target_identityCalls (hv : v < 2 ^ 24) :
  target identityCalls v = some v
  := by
  have hagree : target identityCalls v = none ∨ target identityCalls v = some v := by
    apply target_agree fun c hc => flags_identity hc
    · intro c hc hat
      have hpage : page v = v / 2 ^ 12 % 2 ^ 36 := rfl
      have := identity_at hc hat
      omega
  have hsome : target identityCalls v ≠ none := by
    apply target_hit
    refine ⟨_, mem_identityCalls.mpr ⟨v / 4096, by omega, rfl⟩, ?_⟩
    rw [Call.At, page, page]
    dsimp only
    omega
  exact hagree.resolve_left hsome

/-! ### Where a framebuffer may lie -/

/-- Neither of the two mappings of the framebuffer page at `phys` is at a page of the window
that stands for another frame, of the low 16 MiB or of the heap. -/
def Clear (phys : ℕ) : Prop :=
  let low := phys % 2 ^ 48
  (low < 2 ^ 29 → phys < 2 ^ 48) ∧
    ¬ (0x50000000 ≤ low ∧ low < 0x50A00000) ∧
    ¬ (0x80000000 ≤ low ∧ low < 0x81000000) ∧
    ¬ (0xFFFF80000000 ≤ low ∧ low < 0xFFFFA0000000)

/-- The framebuffer has a size of 32 bits and ends in the physical memory, the loop reaches its
last byte or the window does, and all its pages are clear. -/
def Fits (fb : framebuffer_info) : Prop :=
  let bytes := fb.pitch * fb.height
  let pages := (bytes + 4095) / 4096
  if fb.addr = 0 then bytes ≤ 2 ^ 29
  else
    bytes = 0 ∨
      bytes < 2 ^ 32 ∧ fb.addr + bytes ≤ 2 ^ 52 ∧
        (fb.addr % 4096 + bytes ≤ 4096 * pages ∨ fb.addr + bytes ≤ 2 ^ 29) ∧
        ∀ j < pages, Clear (fb.addr + 4096 * j)

/-- The framebuffer, when there is one, ends in the physical memory. -/
def Ends (fb : framebuffer_info) : Prop :=
  fb.addr ≠ 0 → fb.pitch * fb.height ≠ 0 → fb.addr + fb.pitch * fb.height ≤ 2 ^ 52

/-- The loop makes no round past the end of the framebuffer. -/
theorem round_lt {j : ℕ} (hj : j < fb_size fb / 4096) :
  4096 * j < fb.pitch * fb.height
  := by
  rw [fb_pages, u32] at hj
  omega

theorem Ends.lt (h : Ends fb) (haddr : fb.addr ≠ 0) {j : ℕ} (hj : j < fb_size fb / 4096) :
  fb.addr + 4096 * j < 2 ^ 52
  := by
  have hround := round_lt hj
  have := h haddr (by omega)
  omega

theorem target_framebufferCalls {j : ℕ} (h : Ends fb) (haddr : fb.addr ≠ 0)
    (hj : j < fb_size fb / 4096) (hat : ∃ c ∈ framebufferPage fb j, c.At v) :
  ∃ l, j ≤ l ∧ l < fb_size fb / 4096 ∧ (∃ c ∈ framebufferPage fb l, c.At v) ∧
    target (framebufferCalls fb) v = some ((fb.addr + 4096 * l) / 2 ^ 12 * 2 ^ 12 + v % 2 ^ 12)
  := by
  obtain ⟨l, hl, hlt, c, hc, hcat, hlast⟩ := lastEntry_rounds hj hat
  obtain ⟨hphys, -⟩ := framebuffer_at (h.lt haddr hlt) hc hcat
  have hflags : c.flags < 4096 := by
    have hmem : c ∈ framebufferCalls fb := by
      rw [framebufferCalls, if_pos haddr]
      exact List.mem_flatMap.mpr ⟨l, List.mem_range.mpr hlt, hc⟩
    exact flags_framebuffer hmem
  have hend := h.lt haddr hlt
  refine ⟨l, hl, hlt, ⟨c, hc, hcat⟩, ?_⟩
  rw [target, framebufferCalls, if_pos haddr, hlast, Option.map_some, Call.leaf,
    frameOf_leafEntry _ hflags, hphys, Nat.mod_eq_of_lt (by omega)]

/-- An address the framebuffer gives is in one of its pages. -/
theorem framebufferCalls_mem (h : Ends fb) (htarget : target (framebufferCalls fb) v = some x) :
  fb.addr ≠ 0 ∧ ∃ j < fb_size fb / 4096,
    x = (fb.addr + 4096 * j) / 2 ^ 12 * 2 ^ 12 + v % 2 ^ 12 ∧
    (page v = (fb.addr + 4096 * j) / 2 ^ 12 % 2 ^ 36 ∨
      page v = (2 ^ 36 - 2 ^ 19 + (fb.addr + 4096 * j) / 2 ^ 12) % 2 ^ 36)
  := by
  obtain ⟨c, hc, hat, rfl⟩ := target_mem (fun c hc => flags_framebuffer hc) htarget
  obtain ⟨haddr, j, hj, hcj⟩ := mem_framebufferCalls hc
  have hend := h.lt haddr hj
  obtain ⟨hphys, hpage⟩ := framebuffer_at hend hcj hat
  refine ⟨haddr, j, hj, ?_, hpage⟩
  rw [hphys, Nat.mod_eq_of_lt (by omega)]

/-- What the framebuffer gives at a page does not come before a round that maps the page. -/
theorem framebuffer_ge {j : ℕ} (h : Ends fb) (haddr : fb.addr ≠ 0) (hj : j < fb_size fb / 4096)
    (hat : ∃ c ∈ framebufferPage fb j, c.At v)
    (hheap : page v < page Heap.HEAP_START_ADDR ∨ page Heap.HEAP_START_ADDR + 2560 ≤ page v)
    (htarget : target (allCalls fb b) v = some x) :
  (fb.addr + 4096 * j) / 2 ^ 12 ≤ x / 2 ^ 12
  := by
  obtain ⟨l, hl, -, -, hfb⟩ := target_framebufferCalls h haddr hj hat
  rw [target_below hheap, hfb, Option.some_or, Option.some.injEq] at htarget
  rw [← htarget]
  omega

/-! ### The mappings hold when the framebuffer fits -/

section

variable (hends : Ends fb)
  (hclear : fb.addr ≠ 0 → ∀ j < fb_size fb / 4096, Clear (fb.addr + 4096 * j))

include hends hclear

theorem window_kept {p : ℕ} (hp : p < 2 ^ 29) :
  target (allCalls fb b) (u64 (KERNEL_OFFSET + p)) = some p
  := by
  have hpage := page_offset p
  have hlow : u64 (KERNEL_OFFSET + p) % 2 ^ 12 = p % 2 ^ 12 := by
    rw [u64, KERNEL_OFFSET]
    omega
  have hheap : page Heap.HEAP_START_ADDR = 2 ^ 36 - 0x30000 := by decide
  rw [target_below (by omega), target_windowCalls hp]
  cases hfb : target (framebufferCalls fb) (u64 (KERNEL_OFFSET + p)) with
  | none => rfl
  | some x =>
      obtain ⟨haddr, j, hj, rfl, hat⟩ := framebufferCalls_mem hends hfb
      have hlt := hends.lt haddr hj
      have hround := hclear haddr j hj
      dsimp only [Clear] at hround
      rw [Option.some_or, Option.some.injEq]
      omega

theorem identity_kept (hv : v < 2 ^ 24) :
  target (allCalls fb b) v = some v
  := by
  have hpage : page v = v / 2 ^ 12 % 2 ^ 36 := rfl
  have hheap : page Heap.HEAP_START_ADDR = 2 ^ 36 - 0x30000 := by decide
  rw [target_below (by omega), target_identityCalls hv, Option.some_or]
  cases hfb : target (framebufferCalls fb) v with
  | none => rfl
  | some x =>
      obtain ⟨haddr, j, hj, rfl, hat⟩ := framebufferCalls_mem hends hfb
      have hlt := hends.lt haddr hj
      have hround := hclear haddr j hj
      dsimp only [Clear] at hround
      rw [Option.some_or, Option.some.injEq]
      omega

/-- At a page of the framebuffer in the window, its own round is the last. -/
theorem framebuffer_kept {i j : ℕ} (haddr : fb.addr ≠ 0) (hj : j < fb_size fb / 4096)
    (hi : (fb.addr + i) / 2 ^ 12 = (fb.addr + 4096 * j) / 2 ^ 12) :
  target (allCalls fb b) (u64 (KERNEL_OFFSET + (fb.addr + i))) = some (fb.addr + i)
  := by
  have hpage := page_offset (fb.addr + i)
  have hlow : u64 (KERNEL_OFFSET + (fb.addr + i)) % 2 ^ 12 = (fb.addr + i) % 2 ^ 12 := by
    rw [u64, KERNEL_OFFSET]
    omega
  have hlt := hends.lt haddr hj
  have hround := hclear haddr j hj
  dsimp only [Clear] at hround
  have hheap : page Heap.HEAP_START_ADDR = 2 ^ 36 - 0x30000 := by decide
  obtain ⟨l, hl, hln, ⟨c, hc, hat⟩, hfb⟩ := target_framebufferCalls hends haddr hj
    (v := u64 (KERNEL_OFFSET + (fb.addr + i)))
    ⟨_, mem_framebufferPage.mpr (Or.inr rfl), by
      rw [Call.At, page_offset, page_offset, u64_of_lt (by omega), hi]⟩
  have hlt' := hends.lt haddr hln
  obtain ⟨-, hpages⟩ := framebuffer_at hlt' hc hat
  have hcount : fb_size fb / 4096 ≤ 2 ^ 20 := by
    rw [fb_pages, u32]
    omega
  rw [target_below (by omega), hfb, Option.some_or, Option.some.injEq]
  omega

end

theorem mapped_of_fits (hfits : Fits fb) :
  Mapped fb (target (allCalls fb b))
  := by
  have hpages := fb_pages fb
  rw [u32] at hpages
  have hends : Ends fb := by
    intro haddr hbytes
    rw [Fits, if_neg haddr] at hfits
    omega
  have hclear : fb.addr ≠ 0 → ∀ j < fb_size fb / 4096, Clear (fb.addr + 4096 * j) := by
    intro haddr j hj
    have hround := round_lt hj
    rw [Fits, if_neg haddr] at hfits
    rcases hfits with hzero | ⟨hbytes, -, -, hall⟩
    · omega
    · apply hall
      omega
  constructor
  · intro p hp
    rw [← u64_offset hp]
    apply window_kept hends hclear hp
  · intro v hv
    apply identity_kept hends hclear hv
  · intro i hi
    rw [Nat.add_assoc]
    by_cases hlow : fb.addr + i < 2 ^ 29
    · apply window_kept hends hclear hlow
    · by_cases haddr : fb.addr = 0
      · rw [Fits, if_pos haddr] at hfits
        omega
      · rw [Fits, if_neg haddr] at hfits
        obtain ⟨hbytes, -, hlast, -⟩ := hfits.resolve_left (by omega)
        have hround : (fb.addr % 4096 + i) / 4096 < fb_size fb / 4096 := by omega
        apply framebuffer_kept hends hclear haddr hround
        omega

/-! ### The framebuffer fits when the mappings hold -/

/-- An address the calls give is in a page of the framebuffer or below 512 MiB. -/
theorem target_source (hends : Ends fb) (hb : ∀ l < 2560, b l < 2 ^ 16)
    (htarget : target (allCalls fb b) v = some x) :
  x < 2 ^ 29 ∨ fb.addr ≠ 0 ∧ ∃ j < fb_size fb / 4096, x / 2 ^ 12 = (fb.addr + 4096 * j) / 2 ^ 12
  := by
  have hflags := fun c (hc : c ∈ allCalls fb b) => flags_lt hc
  obtain ⟨c, hc, hat, rfl⟩ := target_mem hflags htarget
  simp only [allCalls, List.mem_append] at hc
  rcases hc with ((hc | hc) | hc) | hc
  · have := window_at hc hat
    omega
  · have := identity_at hc hat
    omega
  · obtain ⟨haddr, j, hj, hcj⟩ := mem_framebufferCalls hc
    have hlt := hends.lt haddr hj
    obtain ⟨hphys, -⟩ := framebuffer_at hlt hcj hat
    right
    refine ⟨haddr, j, hj, ?_⟩
    rw [hphys]
    omega
  · obtain ⟨l, hl, hphys, -⟩ := heap_at hc hat
    have := hb l hl
    omega

section

variable (hends : Ends fb) (hmapped : Mapped fb (target (allCalls fb b)))

include hends hmapped

theorem clear_of_mapped (hb : ∀ l < 2560, b l < 2 ^ 16) {j : ℕ} (haddr : fb.addr ≠ 0)
    (hj : j < fb_size fb / 4096) :
  Clear (fb.addr + 4096 * j)
  := by
  have hlt := hends.lt haddr hj
  have hround := round_lt hj
  have hphys : u64 (fb.addr + 4096 * j) = fb.addr + 4096 * j := u64_of_lt (by omega)
  have hheap : page Heap.HEAP_START_ADDR = 2 ^ 36 - 0x30000 := by decide
  have hfst : ∀ v, page v = (fb.addr + 4096 * j) / 2 ^ 12 % 2 ^ 36 →
      ∃ c ∈ framebufferPage fb j, c.At v := by
    intro v hv
    refine ⟨_, mem_framebufferPage.mpr (Or.inl rfl), ?_⟩
    rw [Call.At, hv, hphys]
    rfl
  have hsnd : ∀ v, page v = (2 ^ 36 - 2 ^ 19 + (fb.addr + 4096 * j) / 2 ^ 12) % 2 ^ 36 →
      ∃ c ∈ framebufferPage fb j, c.At v := by
    intro v hv
    refine ⟨_, mem_framebufferPage.mpr (Or.inr rfl), ?_⟩
    rw [Call.At, hv, hphys, page_offset]
  dsimp only [Clear]
  refine ⟨?_, ?_, ?_, ?_⟩
  · intro hlow
    have hpage := page_offset ((fb.addr + 4096 * j) % 2 ^ 48)
    rw [u64_offset hlow] at hpage
    have hge := framebuffer_ge hends haddr hj (hsnd _ (by omega)) (by omega)
      (hmapped.window _ hlow)
    omega
  · intro hlow
    have hpage := page_offset (fb.addr + 4096 * j)
    have htarget := hmapped.framebuffer (4096 * j) hround
    rw [Nat.add_assoc, target_allCalls] at htarget
    have hhit : target (heapCalls b) (u64 (KERNEL_OFFSET + (fb.addr + 4096 * j))) ≠ none := by
      apply target_hit
      refine ⟨_, mem_heapCalls.mpr
        ⟨((fb.addr + 4096 * j) % 2 ^ 48 - 0x50000000) / 4096, by omega, rfl⟩, ?_⟩
      rw [Call.At, hpage, heapCall, page, Heap.HEAP_START_ADDR]
      dsimp only
      omega
    obtain ⟨x, hx⟩ := Option.ne_none_iff_exists'.mp hhit
    rw [hx, Option.some_or, Option.some.injEq] at htarget
    obtain ⟨c, hc, hat, rfl⟩ := target_mem (fun c hc => flags_heap hc) hx
    obtain ⟨l, hl, hblock, -⟩ := heap_at hc hat
    have := hb l hl
    omega
  · intro hlow
    have hpage : page ((fb.addr + 4096 * j) % 2 ^ 48 - 0x80000000)
        = ((fb.addr + 4096 * j) % 2 ^ 48 - 0x80000000) / 2 ^ 12 % 2 ^ 36 := rfl
    have hge := framebuffer_ge hends haddr hj (hsnd _ (by omega)) (by omega)
      (hmapped.identity ((fb.addr + 4096 * j) % 2 ^ 48 - 0x80000000) (by omega))
    omega
  · intro hlow
    have hpage := page_offset ((fb.addr + 4096 * j) % 2 ^ 48 - 0xFFFF80000000)
    rw [u64_offset (by omega)] at hpage
    have hge := framebuffer_ge hends haddr hj (hfst _ (by omega)) (by omega)
      (hmapped.window ((fb.addr + 4096 * j) % 2 ^ 48 - 0xFFFF80000000) (by omega))
    omega

theorem fits_of_mapped (hb : ∀ l < 2560, b l < 2 ^ 16) :
  Fits fb
  := by
  have hpages := fb_pages fb
  rw [u32] at hpages
  rw [Fits]
  by_cases haddr : fb.addr = 0
  · rw [if_pos haddr]
    by_contra hlong
    have htarget := hmapped.framebuffer (2 ^ 29) (by omega)
    have := target_source hends hb htarget
    omega
  · rw [if_neg haddr]
    by_cases hbytes : fb.pitch * fb.height = 0
    · left
      exact hbytes
    · have hend := hends haddr hbytes
      -- The last byte of the framebuffer is in a page of the loop or below 512 MiB.
      have hlast := target_source hends hb
        (hmapped.framebuffer (fb.pitch * fb.height - 1) (by omega))
      have hsize : fb.pitch * fb.height < 2 ^ 32 := by
        rcases hlast with hlow | ⟨-, j, hj, heq⟩
        · omega
        · omega
      right
      refine ⟨hsize, hend, ?_, ?_⟩
      · rcases hlast with hlow | ⟨-, j, hj, heq⟩
        · omega
        · omega
      · intro j hj
        apply clear_of_mapped hends hmapped hb haddr
        omega

end

end

end Paging
