import LySystem.Machine.Transition
import LySystem.Mem.HeaderList

/-!
# Runs of the heap

What the heap goes through after `heap_init`: calls of `kmalloc` and `kfree`, and writes by
those who hold a pointer.  The header list tiles the heap in every state reached, and no two
free blocks are neighbours.
-/

namespace Heap

open FirstFit Transition

/-- The memory, and the pointers handed out and not taken back, each with the number of
bytes that were asked for. -/
structure State where
  mem : Memory
  live : ℕ → Option ℕ

/-- What a client of the heap does. -/
inductive Op where
  | kmalloc (request : ℕ)
  | kfree (ptr : ℕ)
  | write (x : ℕ) (v : Byte)

/-- The address `x` lies in the payload of the live pointer `ptr`. -/
def State.Payload (s : State) (ptr x : ℕ) : Prop :=
  s.live ptr ≠ none ∧ ptr ≤ x ∧ x < ptr + size s.mem (ptr - headerSize)

/-- One step with the heap from `lo` to `hi`.  Requests are below `2 ^ 32`, only live
pointers and `NULL` are freed, and inside the heap only payloads are written. -/
inductive Step (lo hi : ℕ) : State → Op → State → Prop
  | kmalloc {s : State} {n request ptr : ℕ} {m : Memory} :
      request < 2 ^ 32 → Heap.kmalloc n s.mem lo request = some (ptr, m) →
      Step lo hi s (.kmalloc request)
        ⟨m, if ptr = 0 then s.live else Function.update s.live ptr (some request)⟩
  | kfree {s : State} {n ptr : ℕ} {m : Memory} :
      ptr = 0 ∨ s.live ptr ≠ none → Heap.kfree n s.mem lo ptr = some m →
      Step lo hi s (.kfree ptr) ⟨m, Function.update s.live ptr none⟩
  | write {s : State} {x : ℕ} (v : Byte) :
      (lo ≤ x ∧ x < hi → ∃ ptr, s.Payload ptr x) → Step lo hi s (.write x v) ⟨s.mem.set x v, s.live⟩

/-- The live pointers are the payloads of the blocks in use, each at least as large as
requested. -/
def Accounts (live : ℕ → Option ℕ) (bs : List Block) : Prop :=
  (∀ ptr request, live ptr = some request →
    ∃ b ∈ bs, b.payload headerSize = ptr ∧ ¬ b.free ∧ request ≤ b.size) ∧
  ∀ b ∈ bs, ¬ b.free → live (b.payload headerSize) ≠ none

/-- The blocks of the heap from `lo` to `hi`, whose sizes are multiples of `k`. -/
structure Holds (k lo hi : ℕ) (s : State) (bs : List Block) : Prop where
  list : HeaderList s.mem lo bs
  tiles : Tiles headerSize lo bs hi
  apart : NoAdjacentFree bs
  size_dvd : ∀ b ∈ bs, k ∣ b.size
  accounts : Accounts s.live bs

/-! ### The first state -/

theorem firstHeader_list {m : Memory} {lo hi : ℕ} (hlo : lo ≠ 0) (hsize : lo + headerSize ≤ hi)
    (hhi : hi < 2 ^ 64) :
  HeaderList (heap_init.firstHeader m lo hi) lo [⟨lo, hi - lo - headerSize, true⟩]
  := by
  have hs : sub64 (sub64 hi lo) headerSize = hi - lo - headerSize := by
    rw [sub64_of_le (by omega) hhi, sub64_of_le (by omega) (by omega)]
  have hlt : hi - lo - headerSize < 256 ^ 8 := by
    norm_num
    omega
  apply HeaderList.cons_iff.mpr
  use rfl, hlo
  simp (disch := omega) only [heap_init.firstHeader, header, setMagic, setIsFree, setSize, setNext,
    magic, is_free, size, next, Memory.load_store, Memory.load_store_disjoint, HEAP_MAGIC, hs,
    Nat.mod_eq_of_lt hlt]
  use rfl, rfl, HeaderList.nil

/-- A `heap_init` that maps all pages sets `heap_start` and writes the first header. -/
theorem heap_init_eq {n : ℕ} {image : Paging.Image} {vm vm' : Paging.Vm} {lo hi heap_start : ℕ}
    (h : heap_init n image vm lo hi = some (vm', heap_start)) (hmapped : heap_start ≠ 0) :
  heap_start = lo ∧ ∃ m, vm'.mem = heap_init.firstHeader m lo hi
  := by
  rw [heap_init] at h
  dsimp only at h
  cases hloop : Loop.iterate (heap_init.mapPage n image (maskLow 12 (u64 (hi + 0xFFF)))) n
      (vm, maskLow 12 lo) with
  | none => simp [hloop] at h
  | some r =>
      match r with
      | none => simp [hloop] at h
      | some (vm₁, mapped) =>
          simp only [hloop, Option.bind_eq_bind, Option.bind_some] at h
          split_ifs at h
          · obtain ⟨rfl, rfl⟩ := Prod.mk.inj (Option.some.inj h)
            use rfl, vm₁.mem
          · obtain ⟨-, rfl⟩ := Prod.mk.inj (Option.some.inj h)
            simp at hmapped

theorem holds_initial {m : Memory} {k lo hi : ℕ} (hk : k ∣ 8) (hlo : lo ≠ 0)
    (hsize : lo + headerSize ≤ hi) (hhi : hi < 2 ^ 64) (hklo : k ∣ lo) (hkhi : k ∣ hi) :
  Holds k lo hi ⟨heap_init.firstHeader m lo hi, fun _ => none⟩ [⟨lo, hi - lo - headerSize, true⟩]
  where
    list := firstHeader_list hlo hsize hhi
    tiles := ⟨rfl, by simp only [Block.stop, Tiles]; omega⟩
    apart := List.isChain_singleton _
    size_dvd := by
      intro b hb
      obtain rfl := List.mem_singleton.mp hb
      apply Nat.dvd_sub (Nat.dvd_sub hkhi hklo) (hk.trans (by simp [headerSize]))
    accounts := by
      constructor
      · intro ptr request h
        cases h
      · intro b hb
        obtain rfl := List.mem_singleton.mp hb
        simp

/-! ### Allocation -/

theorem roundUp_spec {request : ℕ} (h : request < 2 ^ 32) :
  request ≤ roundUp request ∧ roundUp request < 2 ^ 33 ∧ 8 ∣ roundUp request
  := by
  rw [roundUp, u64_of_lt (by omega), maskLow]
  omega

section

variable {k lo hi : ℕ} {s : State} {bs : List Block}

/-- What `kmalloc` does is what the first-fit allocator does with the blocks; it writes into
the block it hands out only. -/
theorem Holds.kmalloc_cases (h : Holds k lo hi s bs) (hhi : hi < 2 ^ 64) {request : ℕ}
    (hreq : request < 2 ^ 32) :
  (alloc headerSize slack (roundUp request) bs = none ∧
    Loop.Returns (kmalloc.visit s.mem (roundUp request)) lo (0, s.mem)) ∨
  ∃ b bs' m, alloc headerSize slack (roundUp request) bs = some (b, bs') ∧
    Loop.Returns (kmalloc.visit s.mem (roundUp request)) lo (b.payload headerSize, m) ∧
    HeaderList m lo bs' ∧ ∀ x, x < b.addr ∨ b.stop headerSize ≤ x → m x = s.mem x
  := by
  have hround := (roundUp_spec hreq).2.1
  apply h.list.kmalloc_cases h.tiles hhi
  intro _ _ _
  rw [headerSize, slack]
  omega

theorem Accounts.kmalloc {live : ℕ → Option ℕ} {request sz : ℕ} {b : Block} {bs' : List Block}
    (h : Accounts live bs) (halloc : alloc headerSize slack sz bs = some (b, bs'))
    (hsz : request ≤ sz) :
  Accounts (Function.update live (b.payload headerSize) (some request)) bs'
  := by
  obtain ⟨size, hsize, hused⟩ := alloc_used halloc
  constructor
  · intro ptr req hptr
    by_cases heq : ptr = b.payload headerSize
    · subst heq
      rw [Function.update_self, Option.some.injEq] at hptr
      subst hptr
      obtain ⟨hmem, hfree⟩ := (hused ⟨b.addr, size, false⟩).mpr (Or.inr rfl)
      use ⟨b.addr, size, false⟩, hmem, rfl, hfree
      dsimp only
      omega
    · rw [Function.update_of_ne heq] at hptr
      obtain ⟨c, hc, hpay, hfree, hle⟩ := h.1 ptr req hptr
      use c, ((hused c).mpr (Or.inl ⟨hc, hfree⟩)).1, hpay, hfree, hle
  · intro c hc hfree
    rcases (hused c).mp ⟨hc, hfree⟩ with hold | rfl
    · by_cases heq : c.payload headerSize = b.payload headerSize
      · rw [heq, Function.update_self]
        simp
      · rw [Function.update_of_ne heq]
        apply h.2 c hold.1 hold.2
    · rw [Block.payload, Block.payload, Function.update_self]
      simp

theorem Holds.kmalloc (h : Holds k lo hi s bs) (hk8 : k ∣ 8) (hhi : hi < 2 ^ 64)
    {n request ptr : ℕ} {m : Memory} (hreq : request < 2 ^ 32) (hk : Heap.kmalloc n s.mem lo request = some (ptr, m)) :
  ∃ bs', Holds k lo hi
    ⟨m, if ptr = 0 then s.live else Function.update s.live ptr (some request)⟩ bs'
  := by
  rcases h.kmalloc_cases hhi hreq with ⟨-, hret⟩ | ⟨b, bs', m', halloc, hret, hlist, -⟩
  · obtain ⟨rfl, rfl⟩ := Prod.mk.inj (hret.eq_of_iterate hk)
    use bs
    apply h
  · obtain ⟨rfl, rfl⟩ := Prod.mk.inj (hret.eq_of_iterate hk)
    obtain ⟨hle, -, hdvd⟩ := roundUp_spec hreq
    have hne : b.payload headerSize ≠ 0 := by simp [Block.payload, headerSize]
    use bs'
    rw [if_neg hne]
    constructor
    · apply hlist
    · apply alloc_tiles halloc h.tiles
    · apply alloc_noAdjacentFree halloc h.apart
    · apply alloc_dvd_size halloc (hk8.trans hdvd) (hk8.trans (by simp [headerSize])) h.size_dvd
    · apply h.accounts.kmalloc halloc hle

/-! ### Release -/

/-- On a live pointer `kfree` releases the block and coalesces; it writes into headers only. -/
theorem Holds.kfree_returns (h : Holds k lo hi s bs) (hhi : hi < 2 ^ 64) {ptr : ℕ}
    (hlive : s.live ptr ≠ none) :
  ∃ m, (∀ n, Heap.kfree n s.mem lo ptr =
      Loop.iterate kfree.merge n (lo, setIsFree s.mem (sub64 ptr headerSize) 1)) ∧
    Loop.Returns kfree.merge (lo, setIsFree s.mem (sub64 ptr headerSize) 1) m ∧
    HeaderList m lo (coalesce headerSize (release headerSize ptr bs)) ∧
    ∀ x, (∀ b ∈ bs, x < b.addr ∨ b.addr + headerSize ≤ x) → m x = s.mem x
  := by
  obtain ⟨request, hreq⟩ := Option.ne_none_iff_exists'.mp hlive
  obtain ⟨b, hb, rfl, -, -⟩ := h.accounts.1 ptr request hreq
  exact h.list.kfree_returns h.tiles hhi hb

theorem Accounts.kfree {live : ℕ → Option ℕ} (h : Accounts live bs) (ptr : ℕ) :
  Accounts (Function.update live ptr none) (coalesce headerSize (release headerSize ptr bs))
  := by
  have hused : ∀ c, (c ∈ coalesce headerSize (release headerSize ptr bs) ∧ ¬ c.free) ↔
      (c ∈ bs ∧ ¬ c.free) ∧ c.payload headerSize ≠ ptr := by
    intro c
    rw [coalesce_used, release_used]
  constructor
  · intro p request hp
    by_cases heq : p = ptr
    · subst heq
      simp at hp
    · rw [Function.update_of_ne heq] at hp
      obtain ⟨c, hc, rfl, hfree, hle⟩ := h.1 p request hp
      use c, ((hused c).mpr ⟨⟨hc, hfree⟩, heq⟩).1, rfl, hfree, hle
  · intro c hc hfree
    obtain ⟨hold, hne⟩ := (hused c).mp ⟨hc, hfree⟩
    rw [Function.update_of_ne hne]
    apply h.2 c hold.1 hold.2

theorem Holds.kfree (h : Holds k lo hi s bs) (hk8 : k ∣ 8) (hhi : hi < 2 ^ 64) {n ptr : ℕ} {m : Memory}
    (hptr : ptr = 0 ∨ s.live ptr ≠ none) (hk : Heap.kfree n s.mem lo ptr = some m) :
  ∃ bs', Holds k lo hi ⟨m, Function.update s.live ptr none⟩ bs'
  := by
  by_cases hnull : ptr = 0
  · subst hnull
    obtain rfl : s.mem = m := by simpa [Heap.kfree] using hk
    have hnone : s.live 0 = none := by
      by_contra hlive
      obtain ⟨request, hreq⟩ := Option.ne_none_iff_exists'.mp hlive
      obtain ⟨b, -, hpay, -⟩ := h.accounts.1 0 request hreq
      simp [Block.payload, headerSize] at hpay
    use bs
    rw [← hnone, Function.update_eq_self]
    apply h
  · obtain ⟨m', heq, hret, hlist, -⟩ := h.kfree_returns hhi (hptr.resolve_left hnull)
    rw [heq] at hk
    obtain rfl := hret.eq_of_iterate hk
    use coalesce headerSize (release headerSize ptr bs)
    constructor
    · apply hlist
    · apply coalesce_tiles (release_tiles ptr h.tiles)
    · apply coalesce_noAdjacentFree
    · apply coalesce_dvd_size (hk8.trans (by simp [headerSize])) (release_dvd_size h.size_dvd)
    · apply h.accounts.kfree

/-! ### Writes of the clients -/

/-- The payload of a live pointer is that of its block. -/
theorem Holds.payload (h : Holds k lo hi s bs) {ptr x : ℕ} (hx : s.Payload ptr x) :
  ∃ b ∈ bs, b.payload headerSize = ptr ∧ ¬ b.free ∧ ptr ≤ x ∧ x < b.stop headerSize
  := by
  obtain ⟨hlive, hlow, hhigh⟩ := hx
  obtain ⟨request, hreq⟩ := Option.ne_none_iff_exists'.mp hlive
  obtain ⟨b, hb, rfl, hfree, -⟩ := h.accounts.1 ptr request hreq
  use b, hb, rfl, hfree, hlow
  have hsize : size s.mem b.addr = b.size := size_of_header (h.list.mem hb).2.2
  rwa [Block.payload, Nat.add_sub_cancel, hsize, ← Block.stop] at hhigh

theorem Holds.write (h : Holds k lo hi s bs) {x : ℕ} (v : Byte)
    (hx : lo ≤ x ∧ x < hi → ∃ ptr, s.Payload ptr x) :
  Holds k lo hi ⟨s.mem.set x v, s.live⟩ bs
  := by
  constructor
  · apply h.list.set
    intro b hb
    obtain ⟨hblo, hbhi⟩ := h.tiles.bounds hb
    rw [Block.stop] at hbhi
    by_cases hin : lo ≤ x ∧ x < hi
    · obtain ⟨ptr, hptr⟩ := hx hin
      obtain ⟨c, hc, rfl, -, hlow, hhigh⟩ := h.payload hptr
      exact h.tiles.payload_outside hc hlow hhigh b hb
    · omega
  · apply h.tiles
  · apply h.apart
  · apply h.size_dvd
  · apply h.accounts

/-! ### Runs -/

/-- Every step leaves blocks that tile the heap. -/
theorem holds_step {l : Op} {t : State} (hk8 : k ∣ 8) (hhi : hi < 2 ^ 64) (h : ∃ bs, Holds k lo hi s bs)
    (hstep : Step lo hi s l t) :
  ∃ bs, Holds k lo hi t bs
  := by
  obtain ⟨bs, h⟩ := h
  cases hstep with
  | kmalloc hreq hk => apply h.kmalloc hk8 hhi hreq hk
  | kfree hptr hk => apply h.kfree hk8 hhi hptr hk
  | write v hx => exact ⟨bs, h.write v hx⟩

theorem holds_run {n : ℕ} {image : Paging.Image} {vm vm' : Paging.Vm} {heap_start : ℕ}
    (hinit : heap_init n image vm lo hi = some (vm', heap_start)) (hmapped : heap_start ≠ 0)
    (hk8 : k ∣ 8) (hlo : k ∣ lo) (hhi : k ∣ hi) (hsize : lo + headerSize ≤ hi) (hlt : hi < 2 ^ 64)
    {ops : List Op} (hrun : Run (Step heap_start hi) ⟨vm'.mem, fun _ => none⟩ ops s) :
  heap_start = lo ∧ ∃ bs, Holds k lo hi s bs
  := by
  obtain ⟨rfl, m, hm⟩ := heap_init_eq hinit hmapped
  use rfl
  apply hrun.invariant (I := fun s => ∃ bs, Holds k heap_start hi s bs)
  · intro s l t h hstep
    apply holds_step hk8 hlt h hstep
  · rw [hm]
    exact ⟨_, holds_initial hk8 hmapped hsize hlt hlo hhi⟩

/-- Every call returns. -/
theorem Holds.returns (h : Holds k lo hi s bs) (hlt : hi < 2 ^ 64) :
  (∀ request < 2 ^ 32, ∃ n r, Heap.kmalloc n s.mem lo request = some r) ∧
    ∀ ptr, ptr = 0 ∨ s.live ptr ≠ none → ∃ n m, Heap.kfree n s.mem lo ptr = some m
  := by
  constructor
  · intro request hreq
    rcases h.kmalloc_cases hlt hreq with ⟨-, n, hret⟩ | ⟨b, bs', m, -, ⟨n, hret⟩, -, -⟩
    · exact ⟨n, _, hret⟩
    · exact ⟨n, _, hret⟩
  · rintro ptr (rfl | hlive)
    · exact ⟨0, s.mem, rfl⟩
    · obtain ⟨m, heq, ⟨n, hret⟩, -⟩ := h.kfree_returns hlt hlive
      use n, m
      rw [heq, hret]

/-- The heap as its callers may rely on it: the header list tiles the heap, every live pointer
is the aligned payload of a block in use that is at least as large as requested, and payloads
lie inside the heap and do not overlap. -/
structure WellFormed (lo hi : ℕ) (s : State) (bs : List Block) : Prop where
  list : HeaderList s.mem lo bs
  tiles : Tiles headerSize lo bs hi
  live : ∀ ptr request, s.live ptr = some request →
    8 ∣ ptr ∧ ∃ b ∈ bs, b.payload headerSize = ptr ∧ ¬ b.free ∧ request ≤ b.size
  inside : ∀ ptr x, s.Payload ptr x → lo ≤ x ∧ x < hi
  disjoint : ∀ ptr ptr' x, s.Payload ptr x → s.Payload ptr' x → ptr = ptr'

theorem Holds.wellFormed (h : Holds 8 lo hi s bs) (hlo : 8 ∣ lo) :
  WellFormed lo hi s bs
  where
    list := h.list
    tiles := h.tiles
    live := by
      intro ptr request hreq
      obtain ⟨b, hb, rfl, hfree, hle⟩ := h.accounts.1 ptr request hreq
      have hheader : 8 ∣ headerSize := by simp [headerSize]
      constructor
      · apply Nat.dvd_add (h.tiles.dvd_addr hlo hheader h.size_dvd hb) hheader
      · use b, hb, rfl, hfree, hle
    inside := by
      intro ptr x hx
      obtain ⟨b, hb, rfl, -, hlow, hhigh⟩ := h.payload hx
      obtain ⟨hblo, hbhi⟩ := h.tiles.bounds hb
      rw [Block.payload] at hlow
      omega
    disjoint := by
      intro ptr ptr' x hx hx'
      obtain ⟨b, hb, rfl, -, hlow, hhigh⟩ := h.payload hx
      obtain ⟨c, hc, rfl, -, hlow', hhigh'⟩ := h.payload hx'
      rw [Block.payload] at hlow hlow'
      rcases h.tiles.disjoint hb hc with rfl | hbc | hcb
      · rfl
      · omega
      · omega

/-- Every run of the heap keeps it well formed, and every call returns. -/
theorem heap_wellFormed {n : ℕ} {image : Paging.Image} {vm vm' : Paging.Vm} {heap_start : ℕ}
    (hinit : heap_init n image vm lo hi = some (vm', heap_start)) (hmapped : heap_start ≠ 0)
    (hlo : 8 ∣ lo) (hhi : 8 ∣ hi) (hsize : lo + headerSize < hi) (hlt : hi < 2 ^ 64)
    {ops : List Op} (hrun : Run (Step heap_start hi) ⟨vm'.mem, fun _ => none⟩ ops s) :
  heap_start = lo ∧ (∃ bs, WellFormed lo hi s bs) ∧
    (∀ request < 2 ^ 32, ∃ n r, Heap.kmalloc n s.mem heap_start request = some r) ∧
    ∀ ptr, ptr = 0 ∨ s.live ptr ≠ none → ∃ n m, Heap.kfree n s.mem heap_start ptr = some m
  := by
  obtain ⟨rfl, bs, h⟩ := holds_run hinit hmapped (dvd_refl 8) hlo hhi hsize.le hlt hrun
  use rfl
  exact ⟨⟨bs, h.wellFormed hlo⟩, h.returns hlt⟩

/-- A machine with a free block for the heap and free blocks for its tables. -/
def freshVm : Paging.Vm := ⟨fun _ => 0, ⟨fun i => if i = 0 then 3 else 0, 2⟩, Paging.P2V 4096⟩

/-- A heap of one page after a request of 100 bytes. -/
theorem heap_wellFormed_page :
  ∃ vm' s, heap_init 5 ⟨Paging.KERNEL_OFFSET, Paging.KERNEL_OFFSET⟩ freshVm 4096 8192 =
      some (vm', 4096) ∧
    Run (Step 4096 8192) ⟨vm'.mem, fun _ => none⟩ [.kmalloc 100] s ∧
    ∃ bs, WellFormed 4096 8192 s bs
  := by
  have hpage : (heap_init 5 ⟨Paging.KERNEL_OFFSET, Paging.KERNEL_OFFSET⟩ freshVm 4096 8192).map
      Prod.snd = some 4096 := by decide +kernel
  obtain ⟨⟨vm', heap_start⟩, hinit, rfl⟩ := Option.map_eq_some_iff.mp hpage
  obtain ⟨-, -, hreturns, -⟩ := heap_wellFormed hinit (by decide) (by decide) (by decide)
    (by decide) (by decide) (Run.nil _)
  obtain ⟨n, ⟨ptr, m⟩, hk⟩ := hreturns 100 (by decide)
  have hstep : Step 4096 8192 _ (.kmalloc 100) _ := Step.kmalloc (by decide) hk
  have hrun := Run.cons hstep (Run.nil _)
  refine ⟨vm', _, hinit, hrun, ?_⟩
  apply (heap_wellFormed hinit (by decide) (by decide) (by decide) (by decide) (by decide) hrun).2.1

/-- In every state of a run no two neighbouring blocks are free, and when nothing is live
the list is the one free block `heap_init` made. -/
theorem heap_coalesced {n : ℕ} {image : Paging.Image} {vm vm' : Paging.Vm} {heap_start : ℕ}
    (hinit : heap_init n image vm lo hi = some (vm', heap_start))
    (hsize : lo + headerSize ≤ hi) (hlt : hi < 2 ^ 64)
    {ops : List Op} (hrun : Run (Step heap_start hi) ⟨vm'.mem, fun _ => none⟩ ops s) :
  ∃ bs, HeaderList s.mem heap_start bs ∧ NoAdjacentFree bs ∧
    (heap_start ≠ 0 → (∀ ptr, s.live ptr = none) → bs = [⟨lo, hi - lo - headerSize, true⟩])
  := by
  by_cases hmapped : heap_start = 0
  · subst hmapped
    use [], HeaderList.nil, List.isChain_nil
    simp
  · obtain ⟨rfl, bs, h⟩ :=
      holds_run hinit hmapped (one_dvd 8) (one_dvd lo) (one_dvd hi) hsize hlt hrun
    use bs, h.list, h.apart
    intro _ hdead
    apply eq_singleton_of_unused h.tiles
    · rintro rfl
      exact hmapped h.list.pointer
    · apply h.apart
    · intro b hb
      by_contra hfree
      apply h.accounts.2 b hb hfree (hdead _)

/-- A heap of one page after a request was freed again. -/
theorem heap_coalesced_page :
  ∃ vm' ptr s, heap_init 5 ⟨Paging.KERNEL_OFFSET, Paging.KERNEL_OFFSET⟩ freshVm 4096 8192 =
      some (vm', 4096) ∧
    Run (Step 4096 8192) ⟨vm'.mem, fun _ => none⟩ [.kmalloc 100, .kfree ptr] s ∧
    HeaderList s.mem 4096 [⟨4096, 4072, true⟩]
  := by
  have hpage : (heap_init 5 ⟨Paging.KERNEL_OFFSET, Paging.KERNEL_OFFSET⟩ freshVm 4096 8192).map
      Prod.snd = some 4096 := by decide +kernel
  obtain ⟨⟨vm', heap_start⟩, hinit, rfl⟩ := Option.map_eq_some_iff.mp hpage
  obtain ⟨-, bs, h⟩ := holds_run hinit (by decide) (one_dvd 8) (one_dvd _) (one_dvd _)
    (by decide) (by decide) (Run.nil _)
  obtain ⟨n, ⟨ptr, m⟩, hk⟩ := (h.returns (by decide)).1 100 (by decide)
  obtain ⟨bs', h'⟩ := h.kmalloc (one_dvd 8) (by decide) (by decide) hk
  have hlive : ptr = 0 ∨ (if ptr = 0 then fun _ => none
      else Function.update (fun _ => none) ptr (some 100) : ℕ → Option ℕ) ptr ≠ none := by
    split_ifs with hptr
    · left
      apply hptr
    · right
      simp
  obtain ⟨n', m', hf⟩ := (h'.returns (by decide)).2 ptr hlive
  have hstep : Step 4096 8192 _ (.kmalloc 100) _ := Step.kmalloc (by decide) hk
  have hrun := Run.cons hstep (Run.cons (Step.kfree hlive hf) (Run.nil _))
  refine ⟨vm', ptr, _, hinit, hrun, ?_⟩
  obtain ⟨cs, hlist, -, hdead⟩ := heap_coalesced hinit (by decide) (by decide) hrun
  rw [hdead (by decide)] at hlist
  · apply hlist
  · intro p
    dsimp only
    by_cases hp : p = ptr
    · simp [hp]
    · rw [Function.update_of_ne hp]
      split_ifs
      · rfl
      · apply Function.update_of_ne hp

end

end Heap
