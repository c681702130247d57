import LySystem.Mem.HeapRun

/-!
# Requests of any size

`kmalloc` takes any `uint64_t`.  Rounding it up wraps around at the top of the range, yet the
headers tile the heap whatever is asked for, and no two neighbouring blocks are free.
-/

namespace Heap

open FirstFit Transition

/-- One step with the heap from `lo` to `hi`, with requests of any size: only live pointers and
`NULL` are freed, and inside the heap only payloads are written. -/
inductive Call (lo hi : ℕ) : State → Op → State → Prop
  | kmalloc {s : State} {n request ptr : ℕ} {m : Memory} :
      request < 2 ^ 64 → Heap.kmalloc n s.mem lo request = some (ptr, m) →
      Call lo hi s (.kmalloc request)
        ⟨m, if ptr = 0 then s.live else Function.update s.live ptr (some request)⟩
  | kfree {s : State} {n ptr : ℕ} {m : Memory} :
      ptr = 0 ∨ s.live ptr ≠ none → Heap.kfree n s.mem lo ptr = some m →
      Call lo hi s (.kfree ptr) ⟨m, Function.update s.live ptr none⟩
  | write {s : State} {x : ℕ} (v : Byte) :
      (lo ≤ x ∧ x < hi → ∃ ptr, s.Payload ptr x) → Call lo hi s (.write x v) ⟨s.mem.set x v, s.live⟩

theorem Call.kmalloc_some {lo hi n request ptr : ℕ} {s : State} {m : Memory}
    (hreq : request < 2 ^ 64) (hk : Heap.kmalloc n s.mem lo request = some (ptr, m)) (hptr : ptr ≠ 0) :
  Call lo hi s (.kmalloc request) ⟨m, Function.update s.live ptr (some request)⟩
  := by
  have hcall : Call lo hi s (.kmalloc request) _ := Call.kmalloc hreq hk
  rwa [if_neg hptr] at hcall

/-- The blocks of the heap from `lo` to `hi`; the live pointers are the payloads of those in
use. -/
structure Describes (lo hi : ℕ) (s : State) (bs : List Block) : Prop where
  list : HeaderList s.mem lo bs
  tiles : Tiles headerSize lo bs hi
  apart : NoAdjacentFree bs
  live : ∀ ptr, s.live ptr ≠ none ↔ ∃ b ∈ bs, ¬ b.free ∧ b.payload headerSize = ptr

theorem describes_initial {m : Memory} {lo hi : ℕ} (hlo : lo ≠ 0) (hsize : lo + headerSize ≤ hi)
    (hhi : hi < 2 ^ 64) :
  Describes lo hi ⟨heap_init.firstHeader m lo hi, fun _ => none⟩ [⟨lo, hi - lo - headerSize, true⟩]
  where
    list := firstHeader_list hlo hsize hhi
    tiles := ⟨rfl, by simp only [Block.stop, Tiles]; omega⟩
    apart := List.isChain_singleton _
    live := by simp

variable {lo hi : ℕ} {s : State} {bs : List Block}

/-! ### The steps -/

/-- A request for which there is room is far from the end of the address space. -/
theorem Describes.no_wrap (h : Describes lo hi s bs) (hlo : slack ≤ lo) (hhi : hi < 2 ^ 64) {sz : ℕ} :
  ∀ b ∈ bs, sz ≤ b.size → sz + headerSize + slack < 2 ^ 64
  := by
  intro b hb hle
  obtain ⟨hlow, hhigh⟩ := h.tiles.bounds hb
  rw [Block.stop] at hhigh
  omega

theorem Describes.kmalloc (h : Describes lo hi s bs) (hlo : slack ≤ lo) (hhi : hi < 2 ^ 64)
    {n request ptr : ℕ} {m : Memory} (hk : Heap.kmalloc n s.mem lo request = some (ptr, m)) :
  ∃ bs', Describes lo hi
    ⟨m, if ptr = 0 then s.live else Function.update s.live ptr (some request)⟩ bs'
  := by
  rcases h.list.kmalloc_cases h.tiles hhi (h.no_wrap hlo hhi) with
    ⟨-, hret⟩ | ⟨b, bs', m', halloc, hret, hlist, -⟩
  · obtain ⟨rfl, rfl⟩ := Prod.mk.inj (hret.eq_of_iterate hk)
    exact ⟨bs, h⟩
  · obtain ⟨rfl, rfl⟩ := Prod.mk.inj (hret.eq_of_iterate hk)
    have hne : b.payload headerSize ≠ 0 := by simp [Block.payload, headerSize]
    obtain ⟨size, -, hused⟩ := alloc_used halloc
    refine ⟨bs', hlist, alloc_tiles halloc h.tiles, alloc_noAdjacentFree halloc h.apart, ?_⟩
    intro p
    have hblocks : (∃ c ∈ bs', ¬ c.free ∧ c.payload headerSize = p) ↔
        (∃ c ∈ bs, ¬ c.free ∧ c.payload headerSize = p) ∨ b.payload headerSize = p := by
      constructor
      · rintro ⟨c, hc, hfree, hpay⟩
        rcases (hused c).mp ⟨hc, hfree⟩ with ⟨hold, -⟩ | rfl
        · exact Or.inl ⟨c, hold, hfree, hpay⟩
        · exact Or.inr hpay
      · rintro (⟨c, hc, hfree, hpay⟩ | hpay)
        · obtain ⟨hnew, -⟩ := (hused c).mpr (Or.inl ⟨hc, hfree⟩)
          exact ⟨c, hnew, hfree, hpay⟩
        · obtain ⟨hnew, hfree⟩ := (hused ⟨b.addr, size, false⟩).mpr (Or.inr rfl)
          exact ⟨_, hnew, hfree, hpay⟩
    rw [hblocks, ← h.live, if_neg hne]
    by_cases hp : p = b.payload headerSize
    · simp [hp]
    · simp [Function.update_of_ne hp, Ne.symm hp]

theorem Describes.kfree (h : Describes lo hi s bs) (hhi : hi < 2 ^ 64) {n ptr : ℕ} {m : Memory}
    (hptr : ptr = 0 ∨ s.live ptr ≠ none) (hk : Heap.kfree n s.mem lo ptr = some m) :
  ∃ bs', Describes lo hi ⟨m, Function.update s.live ptr none⟩ bs'
  := by
  by_cases hnull : ptr = 0
  · subst hnull
    obtain rfl : s.mem = m := by simpa [Heap.kfree] using hk
    have hnone : s.live 0 = none := by
      by_contra hlive
      obtain ⟨b, -, -, hpay⟩ := (h.live 0).mp hlive
      simp [Block.payload, headerSize] at hpay
    use bs
    rw [← hnone, Function.update_eq_self]
    exact h
  · obtain ⟨b, hb, hfree, rfl⟩ := (h.live ptr).mp (hptr.resolve_left hnull)
    obtain ⟨m', heq, hret, hlist, -⟩ := h.list.kfree_returns h.tiles hhi hb
    rw [heq] at hk
    obtain rfl := hret.eq_of_iterate hk
    refine ⟨_, hlist, coalesce_tiles (release_tiles _ h.tiles), coalesce_noAdjacentFree _, ?_⟩
    have hused : ∀ c, (c ∈ coalesce headerSize (release headerSize (b.payload headerSize) bs) ∧
        ¬ c.free) ↔ (c ∈ bs ∧ ¬ c.free) ∧ c.payload headerSize ≠ b.payload headerSize := by
      intro c
      rw [coalesce_used, release_used]
    intro p
    dsimp only
    constructor
    · intro hp
      have hne : p ≠ b.payload headerSize := by
        rintro rfl
        simp at hp
      rw [Function.update_of_ne hne] at hp
      obtain ⟨c, hc, hcfree, rfl⟩ := (h.live p).mp hp
      obtain ⟨hnew, -⟩ := (hused c).mpr ⟨⟨hc, hcfree⟩, hne⟩
      exact ⟨c, hnew, hcfree, rfl⟩
    · rintro ⟨c, hc, hcfree, rfl⟩
      obtain ⟨⟨hold, -⟩, hne⟩ := (hused c).mp ⟨hc, hcfree⟩
      rw [Function.update_of_ne hne]
      exact (h.live _).mpr ⟨c, hold, hcfree, rfl⟩

/-- The payload of a live pointer is that of its block. -/
theorem Describes.payload (h : Describes lo hi s bs) {ptr x : ℕ} (hx : s.Payload ptr x) :
  ∃ b ∈ bs, ¬ b.free ∧ b.payload headerSize = ptr ∧ b.payload headerSize ≤ x ∧
    x < b.stop headerSize
  := by
  obtain ⟨hlive, hlow, hhigh⟩ := hx
  obtain ⟨b, hb, hfree, rfl⟩ := (h.live ptr).mp hlive
  refine ⟨b, hb, hfree, rfl, hlow, ?_⟩
  have hsize : size s.mem b.addr = b.size := size_of_header (h.list.mem hb).2.2
  rwa [Block.payload, Nat.add_sub_cancel, hsize, ← Block.stop] at hhigh

/-- A byte outside the heap or in a live payload is no part of a header. -/
theorem Describes.outside_headers (h : Describes lo hi s bs) {x : ℕ}
    (hx : lo ≤ x ∧ x < hi → ∃ ptr, s.Payload ptr x) :
  ∀ b ∈ bs, x < b.addr ∨ b.addr + headerSize ≤ x
  := by
  intro b hb
  obtain ⟨hblo, hbhi⟩ := h.tiles.bounds hb
  rw [Block.stop] at hbhi
  by_cases hin : lo ≤ x ∧ x < hi
  · obtain ⟨ptr, hptr⟩ := hx hin
    obtain ⟨c, hc, -, -, hlow, hhigh⟩ := h.payload hptr
    exact h.tiles.payload_outside hc hlow hhigh b hb
  · omega

theorem Describes.write (h : Describes lo hi s bs) {x : ℕ} (v : Byte)
    (hx : lo ≤ x ∧ x < hi → ∃ ptr, s.Payload ptr x) :
  Describes lo hi ⟨s.mem.set x v, s.live⟩ bs
  where
    list := h.list.set v (h.outside_headers hx)
    tiles := h.tiles
    apart := h.apart
    live := h.live

theorem describes_call {op : Op} {t : State} (hlo : slack ≤ lo) (hhi : hi < 2 ^ 64)
    (h : ∃ bs, Describes lo hi s bs) (hcall : Call lo hi s op t) :
  ∃ bs, Describes lo hi t bs
  := by
  obtain ⟨bs, h⟩ := h
  cases hcall with
  | kmalloc _ hk => exact h.kmalloc hlo hhi hk
  | kfree hptr hk => exact h.kfree hhi hptr hk
  | write v hx => exact ⟨bs, h.write v hx⟩

/-- A heap that `heap_init` made, after any calls. -/
theorem describes_run {n : ℕ} {image : Paging.Image} {vm vm' : Paging.Vm} {heap_start : ℕ}
    (hinit : heap_init n image vm lo hi = some (vm', heap_start)) (hmapped : heap_start ≠ 0)
    (hlo : slack ≤ lo) (hsize : lo + headerSize ≤ hi) (hhi : hi < 2 ^ 64) {ops : List Op}
    (hrun : Run (Call heap_start hi) ⟨vm'.mem, fun _ => none⟩ ops s) :
  heap_start = lo ∧ ∃ bs, Describes lo hi s bs
  := by
  obtain ⟨rfl, m, hm⟩ := heap_init_eq hinit hmapped
  use rfl
  apply hrun.invariant (I := fun s => ∃ bs, Describes heap_start hi s bs)
  · intro s op t h hcall
    exact describes_call hlo hhi h hcall
  · rw [hm]
    exact ⟨_, describes_initial hmapped hsize hhi⟩

/-! ### What a request gets -/

/-- A free block that fits is handed out, the lowest one there is; otherwise the result is
`NULL`. -/
theorem Describes.kmalloc_returns (h : Describes lo hi s bs) (hlo : slack ≤ lo) (hhi : hi < 2 ^ 64)
    (request : ℕ) :
  ∃ n ptr m, Heap.kmalloc n s.mem lo request = some (ptr, m) ∧
    (ptr = 0 ∧ (∀ b ∈ bs, b.free → b.size < roundUp request) ∨
      ∃ b ∈ bs, b.free ∧ roundUp request ≤ b.size ∧ ptr = b.payload headerSize ∧
        (∀ c ∈ bs, c.free → roundUp request ≤ c.size → b.addr ≤ c.addr) ∧
        ∃ bs' size, HeaderList m lo bs' ∧ ⟨b.addr, size, false⟩ ∈ bs' ∧ roundUp request ≤ size ∧
          b.payload headerSize + size ≤ hi)
  := by
  rcases h.list.kmalloc_cases h.tiles hhi (h.no_wrap hlo hhi) with
    ⟨hnone, n, hret⟩ | ⟨b, bs', m, halloc, ⟨n, hret⟩, hlist, -⟩
  · exact ⟨n, 0, s.mem, hret, Or.inl ⟨rfl, alloc_eq_none.mp hnone⟩⟩
  · obtain ⟨hb, hfree, hle⟩ := alloc_mem halloc
    obtain ⟨size, hsize, hused⟩ := alloc_used halloc
    obtain ⟨hmem, -⟩ := (hused ⟨b.addr, size, false⟩).mpr (Or.inr rfl)
    have hstop := ((alloc_tiles halloc h.tiles).bounds hmem).2
    refine ⟨n, _, m, hret, Or.inr ⟨b, hb, hfree, hle, rfl, ?_, bs', size, hlist, hmem, hsize, hstop⟩⟩
    intro c hc hcfree hcle
    exact alloc_lowest halloc h.tiles hc hcfree hcle

/-- None of the sums and differences `kmalloc` computes for the block at `current` wraps around:
the rounded request, the bound of the split test and the size of the remainder. -/
structure NoWrap (m : Memory) (request current : ℕ) : Prop where
  rounding : request + 15 < 2 ^ 64
  test : roundUp request + headerSize + 32 < 2 ^ 64
  remainder : roundUp request + headerSize + 32 < size m current →
    roundUp request + headerSize ≤ size m current

/-- The result of a call: `NULL`, or the payload of a block as large as requested, computed
without wrap-around. -/
def Granted (m : Memory) (heap_start request : ℕ) (r : ℕ × Memory) : Prop :=
  r.1 = 0 ∨ (∃ bs, HeaderList r.2 heap_start bs ∧
    ∃ b ∈ bs, b.payload headerSize = r.1 ∧ request ≤ b.size) ∧ NoWrap m request (r.1 - headerSize)

/-- Rounding up wraps around to 0 in the last 15 values of the range. -/
theorem roundUp_eq {request : ℕ} (h : request < 2 ^ 64) :
  roundUp request = if request + 15 < 2 ^ 64 then (request + 15) / 16 * 16 else 0
  := by
  rw [roundUp, maskLow, u64]
  split_ifs <;> omega

theorem Describes.granted_iff (h : Describes lo hi s bs) (hlo : slack ≤ lo) (hhi : hi < 2 ^ 64)
    {request : ℕ} (hreq : request < 2 ^ 64) :
  ∃ n r, Heap.kmalloc n s.mem lo request = some r ∧
    (Granted s.mem lo request r ↔ request + 15 < 2 ^ 64 ∨ ∀ b ∈ bs, ¬ b.free)
  := by
  obtain ⟨n, ptr, m, hk, hcases⟩ := h.kmalloc_returns hlo hhi request
  use n, (ptr, m), hk
  have hround := roundUp_eq hreq
  rcases hcases with ⟨rfl, hnone⟩ | ⟨b, hb, hfree, hle, rfl, -, bs', size, hlist, hmem, hsize, hstop⟩
  · apply iff_of_true (Or.inl rfl)
    by_cases hfits : request + 15 < 2 ^ 64
    · exact Or.inl hfits
    · right
      intro b hb hfree
      have := hnone b hb hfree
      rw [hround, if_neg hfits] at this
      omega
  · have hblow := (h.tiles.bounds hb).1
    rw [slack] at hlo
    rw [Block.payload, headerSize] at hstop
    constructor
    · rintro (hnull | ⟨-, hwrap⟩)
      · rw [Block.payload, headerSize] at hnull
        omega
      · exact Or.inl hwrap.rounding
    · rintro (hfits | hall)
      · rw [if_pos hfits] at hround
        refine Or.inr ⟨⟨bs', hlist, _, hmem, rfl, ?_⟩, hfits, ?_, ?_⟩
        · dsimp only
          omega
        · rw [headerSize]
          omega
        · omega
      · exact absurd hfree (hall b hb)

/-- In every reachable heap and for every request, `kmalloc` returns `NULL` or a block that is
large enough, without wrap-around, exactly when rounding up does not wrap around or no block is
free. -/
theorem heap_granted_iff {n : ℕ} {image : Paging.Image} {vm vm' : Paging.Vm} {heap_start : ℕ}
    (hinit : heap_init n image vm lo hi = some (vm', heap_start)) (hmapped : heap_start ≠ 0)
    (hlo : slack ≤ lo) (hsize : lo + headerSize ≤ hi) (hhi : hi < 2 ^ 64) {ops : List Op}
    (hrun : Run (Call heap_start hi) ⟨vm'.mem, fun _ => none⟩ ops s) :
  ∃ bs, HeaderList s.mem heap_start bs ∧ ∀ request < 2 ^ 64,
    ∃ n r, Heap.kmalloc n s.mem heap_start request = some r ∧
      (Granted s.mem heap_start request r ↔ request + 15 < 2 ^ 64 ∨ ∀ b ∈ bs, ¬ b.free)
  := by
  obtain ⟨rfl, bs, h⟩ := describes_run hinit hmapped hlo hsize hhi hrun
  use bs, h.list
  intro request hreq
  exact h.granted_iff hlo hhi hreq

/-- A heap of one page where the kernel's heap starts. -/
theorem heap_page :
  ∃ vm', heap_init 5 ⟨Paging.KERNEL_OFFSET, Paging.KERNEL_OFFSET⟩ freshVm HEAP_START_ADDR
    (HEAP_START_ADDR + 4096) = some (vm', HEAP_START_ADDR)
  := by
  have hpage : (heap_init 5 ⟨Paging.KERNEL_OFFSET, Paging.KERNEL_OFFSET⟩ freshVm HEAP_START_ADDR
      (HEAP_START_ADDR + 4096)).map Prod.snd = some HEAP_START_ADDR := by decide +kernel
  obtain ⟨⟨vm', heap_start⟩, hinit, heq⟩ := Option.map_eq_some_iff.mp hpage
  dsimp only at heq
  subst heq
  exact ⟨vm', hinit⟩

/-- The largest request of all gets a block of that page. -/
theorem heap_grants_nothing :
  ∃ vm' n r, heap_init 5 ⟨Paging.KERNEL_OFFSET, Paging.KERNEL_OFFSET⟩ freshVm HEAP_START_ADDR
      (HEAP_START_ADDR + 4096) = some (vm', HEAP_START_ADDR) ∧
    Heap.kmalloc n vm'.mem HEAP_START_ADDR (2 ^ 64 - 1) = some r ∧
    ¬ Granted vm'.mem HEAP_START_ADDR (2 ^ 64 - 1) r
  := by
  obtain ⟨vm', hinit⟩ := heap_page
  have hne : HEAP_START_ADDR ≠ 0 := by decide
  obtain ⟨-, m, hm⟩ := heap_init_eq hinit hne
  have h : Describes HEAP_START_ADDR (HEAP_START_ADDR + 4096)
      ⟨heap_init.firstHeader m HEAP_START_ADDR (HEAP_START_ADDR + 4096), fun _ => none⟩ _ :=
    describes_initial hne (by decide) (by decide)
  rw [← hm] at h
  have hreq : 2 ^ 64 - 1 < 2 ^ 64 := by decide
  obtain ⟨n, r, hk, hiff⟩ := h.granted_iff (by decide) (by decide) hreq
  refine ⟨vm', n, r, hinit, hk, ?_⟩
  rw [hiff]
  simp

/-- A request of 100 bytes in that page. -/
theorem heap_granted_page :
  ∃ vm' n r, heap_init 5 ⟨Paging.KERNEL_OFFSET, Paging.KERNEL_OFFSET⟩ freshVm HEAP_START_ADDR
      (HEAP_START_ADDR + 4096) = some (vm', HEAP_START_ADDR) ∧
    Heap.kmalloc n vm'.mem HEAP_START_ADDR 100 = some r ∧ Granted vm'.mem HEAP_START_ADDR 100 r
  := by
  obtain ⟨vm', hinit⟩ := heap_page
  obtain ⟨bs, -, hall⟩ :=
    heap_granted_iff hinit (by decide) (by decide) (by decide) (by decide) (Run.nil _)
  obtain ⟨n, r, hk, hiff⟩ := hall 100 (by decide)
  exact ⟨vm', n, r, hinit, hk, hiff.mpr (Or.inl (by decide))⟩

/-! ### Where a request fits -/

/-- In every reachable heap a request below `2 ^ 32` gets `NULL` exactly when every range between
consecutive blocks in use is too short for it and a header, and else the payload in the lowest
range that is not. -/
theorem heap_fits_gaps {n : ℕ} {image : Paging.Image} {vm vm' : Paging.Vm} {heap_start : ℕ}
    (hinit : heap_init n image vm lo hi = some (vm', heap_start)) (hmapped : heap_start ≠ 0)
    (hlo : slack ≤ lo) (hsize : lo + headerSize ≤ hi) (hhi : hi < 2 ^ 64) {ops : List Op}
    (hrun : Run (Call heap_start hi) ⟨vm'.mem, fun _ => none⟩ ops s) :
  ∃ bs, HeaderList s.mem heap_start bs ∧ ∀ request < 2 ^ 32,
    ∃ n ptr m, Heap.kmalloc n s.mem heap_start request = some (ptr, m) ∧
      (ptr = 0 ↔ ∀ x y, Gap headerSize heap_start hi bs x y →
        y - x < headerSize + (request + 15) / 16 * 16) ∧
      (ptr ≠ 0 → ∃ x y, Gap headerSize heap_start hi bs x y ∧
        headerSize + (request + 15) / 16 * 16 ≤ y - x ∧ ptr = x + headerSize ∧
        ∀ x' y', Gap headerSize heap_start hi bs x' y' →
          headerSize + (request + 15) / 16 * 16 ≤ y' - x' → x ≤ x')
  := by
  obtain ⟨rfl, bs, h⟩ := describes_run hinit hmapped hlo hsize hhi hrun
  use bs, h.list
  intro request hreq
  obtain ⟨n, ptr, m, hk, hcases⟩ := h.kmalloc_returns hlo hhi request
  have hround : roundUp request = (request + 15) / 16 * 16 := by
    rw [roundUp_eq (by omega), if_pos (by omega)]
  rw [hround] at hcases
  have hpos : 0 < headerSize := by decide
  -- A range long enough is a free block that is large enough.
  have hblock : ∀ {x y}, Gap headerSize heap_start hi bs x y →
      headerSize + (request + 15) / 16 * 16 ≤ y - x →
      ∃ b ∈ bs, b.free ∧ (request + 15) / 16 * 16 ≤ b.size ∧ b.addr = x := by
    intro x y hgap hlong
    obtain ⟨b, hb, hfree, rfl, rfl⟩ := (gap_iff h.tiles h.apart hpos (by omega)).mp hgap
    refine ⟨b, hb, hfree, ?_, rfl⟩
    rw [Block.stop] at hlong
    omega
  refine ⟨n, ptr, m, hk, ?_⟩
  rcases hcases with ⟨rfl, hnone⟩ | ⟨b, hb, hfree, hle, rfl, hlowest, -⟩
  · refine ⟨iff_of_true rfl ?_, fun hne => absurd rfl hne⟩
    intro x y hgap
    by_contra hlong
    obtain ⟨b, hb, hfree, hle, -⟩ := hblock hgap (not_lt.mp hlong)
    have := hnone b hb hfree
    omega
  · have hgap : Gap headerSize heap_start hi bs b.addr (b.stop headerSize) := by
      apply (gap_iff h.tiles h.apart hpos _).mpr ⟨b, hb, hfree, rfl, rfl⟩
      rw [Block.stop]
      omega
    have hlong : headerSize + (request + 15) / 16 * 16 ≤ b.stop headerSize - b.addr := by
      rw [Block.stop]
      omega
    constructor
    · apply iff_of_false
      · rw [Block.payload]
        omega
      · intro hall
        have := hall _ _ hgap
        omega
    · intro _
      refine ⟨b.addr, b.stop headerSize, hgap, hlong, rfl, ?_⟩
      intro x' y' hgap' hlong'
      obtain ⟨c, hc, hcfree, hcle, rfl⟩ := hblock hgap' hlong'
      exact hlowest c hc hcfree hcle

/-- In that page a request of 100 bytes needs a range of 136. -/
theorem heap_fits_gaps_page :
  ∃ vm' bs n ptr m, heap_init 5 ⟨Paging.KERNEL_OFFSET, Paging.KERNEL_OFFSET⟩ freshVm HEAP_START_ADDR
      (HEAP_START_ADDR + 4096) = some (vm', HEAP_START_ADDR) ∧
    HeaderList vm'.mem HEAP_START_ADDR bs ∧
    Heap.kmalloc n vm'.mem HEAP_START_ADDR 100 = some (ptr, m) ∧
    (ptr = 0 ↔ ∀ x y, Gap headerSize HEAP_START_ADDR (HEAP_START_ADDR + 4096) bs x y → y - x < 136)
  := by
  obtain ⟨vm', hinit⟩ := heap_page
  obtain ⟨bs, hlist, hall⟩ :=
    heap_fits_gaps hinit (by decide) (by decide) (by decide) (by decide) (Run.nil _)
  obtain ⟨n, ptr, m, hk, hnull, -⟩ := hall 100 (by decide)
  exact ⟨vm', bs, n, ptr, m, hinit, hlist, hk, hnull⟩

end Heap
