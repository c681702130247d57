import LySystem.Mem.KernelSpace
import LySystem.Mem.TablesNeeded
import Mathlib.Order.Interval.Finset.Nat

/-!
# The mappings after initialisation

After `paging_init` and `heap_init` the four-level walk gives what the last call at a page
says, so whether the mappings `paging_init` sets out to make are all there is a question about
the framebuffer alone.  The tables need 4403 blocks at most, and the heap 2560.  Tables are
written at their addresses in the window, also after a framebuffer has been mapped over it.
-/

namespace Paging

open Boot

variable {n : ℕ} {k : Image} {fb : framebuffer_info}

/-! ### The calls that are made -/

theorem Maps.append {vm vm' vm'' : Vm} {cs ds : List Call} (h : Maps k vm cs vm')
    (h' : Maps k vm' ds vm'') :
  Maps k vm (cs ++ ds) vm''
  := by
  induction h with
  | nil vm => exact h'
  | call hmap _ ih => exact Maps.call hmap (ih h')
  | taken hmono _ ih => exact Maps.taken hmono (ih h')

theorem maps_of_mapAll {calls : List Call} {vm vm' : Vm} (h : mapAll n k vm calls = some vm') :
  Maps k vm calls vm'
  := by
  induction calls generalizing vm with
  | nil =>
      obtain rfl := Option.some.inj h
      exact Maps.nil vm
  | cons c cs ih =>
      rw [mapAll, List.foldlM_cons] at h
      obtain ⟨vm₁, hmap, hrest⟩ := Option.bind_eq_some_iff.mp h
      exact Maps.call hmap (ih hrest)

/-- `paging_init` makes its calls on a zeroed PML4 in a block of its own. -/
theorem paging_init_maps {vm vm₁ : Vm} {pml4 : ℕ} (h : paging_init n k fb vm = some (vm₁, pml4)) :
  ∃ pmm, safe_pmm_alloc n k vm.pmm = some (pml4, pmm) ∧
    Maps k ⟨zeroTable vm.mem (P2V pml4), pmm, P2V pml4⟩
      (windowCalls ++ identityCalls ++ framebufferCalls fb) vm₁
  := by
  simp only [paging_init, Option.bind_eq_bind, Option.bind_eq_some_iff, Option.some.injEq,
    Prod.mk.injEq] at h
  obtain ⟨⟨a, pmm⟩, halloc, vm₂, hwindow, vm₃, hidentity, vm₄, hframebuffer, rfl, rfl⟩ := h
  refine ⟨pmm, halloc, ?_⟩
  apply Maps.append _ (maps_of_mapAll hframebuffer)
  exact (maps_of_mapAll hwindow).append (maps_of_mapAll hidentity)

/-- `pmm_alloc_block` gives out blocks, and keeps the used ones. -/
theorem pmm_alloc_block_lt (p : Pmm) :
  (∃ i < Pmm.total_blocks, (Pmm.pmm_alloc_block p).1 = 4096 * i) ∧
    ∀ j, p.used j = true → (Pmm.pmm_alloc_block p).2.used j = true
  := by
  rcases Pmm.pmm_alloc_block_cases p with ⟨heq, -⟩ | ⟨i, hi, -, -, haddr, hused⟩
  · rw [heq]
    exact ⟨⟨0, by decide, rfl⟩, fun j hj => hj⟩
  · refine ⟨⟨i, hi, ?_⟩, ?_⟩
    · rw [haddr, Nat.mul_comm, Pmm.PAGE_SIZE]
    · intro j hj
      rw [hused, hj, Bool.or_true]

/-- The calls of the first `l` rounds of `heap_init`, some blocks given to them. -/
def HeapRounds (k : Image) (vm : Vm) (l : ℕ) (vm' : Vm) : Prop :=
  ∃ b : ℕ → ℕ, (∀ j < l, b j < Pmm.total_blocks) ∧ Maps k vm ((List.range l).map (heapCall b)) vm'

theorem HeapRounds.round {vm vm' vm'' : Vm} {l : ℕ} (h : HeapRounds k vm l vm')
    (hmap : map_page n k { vm' with pmm := (Pmm.pmm_alloc_block vm'.pmm).2 }
      (Heap.HEAP_START_ADDR + 4096 * l) (Pmm.pmm_alloc_block vm'.pmm).1
      (PAGE_PRESENT ||| PAGE_WRITE) = some vm'') :
  HeapRounds k vm (l + 1) vm''
  := by
  obtain ⟨b, hb, hmaps⟩ := h
  obtain ⟨⟨i, hi, haddr⟩, hmono⟩ := pmm_alloc_block_lt vm'.pmm
  have hsame : ∀ j < l, Function.update b l i j = b j := by
    intro j hj
    rw [Function.update_of_ne (by omega)]
  refine ⟨Function.update b l i, ?_, ?_⟩
  · intro j hj
    by_cases heq : j = l
    · rw [heq, Function.update_self]
      exact hi
    · rw [hsame j (by omega)]
      exact hb j (by omega)
  · have hprefix : (List.range l).map (heapCall (Function.update b l i))
        = (List.range l).map (heapCall b) := by
      apply List.map_congr_left
      intro j hj
      rw [heapCall, heapCall, hsame j (List.mem_range.mp hj)]
    rw [List.range_succ, List.map_append, hprefix]
    apply hmaps.append
    apply Maps.taken hmono
    apply Maps.call (n := n) _ (Maps.nil _)
    rw [heapCall, Function.update_self, ← haddr]
    exact hmap

/-- A `heap_init` that maps all pages makes the calls of all its rounds. -/
theorem heap_init_maps {vm vm₂ : Vm} {heap_start : ℕ}
    (h : Heap.heap_init n k vm Heap.HEAP_START_ADDR (Heap.HEAP_START_ADDR + Heap.HEAP_SIZE)
      = some (vm₂, heap_start)) (hstart : heap_start ≠ 0) :
  ∃ vm', HeapRounds k vm 2560 vm' ∧
    vm₂ = { vm' with
      mem := Heap.heap_init.firstHeader vm'.mem Heap.HEAP_START_ADDR
        (Heap.HEAP_START_ADDR + Heap.HEAP_SIZE) }
  := by
  have hlo : maskLow 12 Heap.HEAP_START_ADDR = Heap.HEAP_START_ADDR := by decide
  have hhi : maskLow 12 (u64 (Heap.HEAP_START_ADDR + Heap.HEAP_SIZE + 0xFFF))
      = Heap.HEAP_START_ADDR + 4096 * 2560 := by decide
  simp only [Heap.heap_init, Option.bind_eq_bind, Option.bind_eq_some_iff, hlo, hhi] at h
  obtain ⟨_, hloop, ⟨vm', mapped⟩, rfl, hresult⟩ := h
  have hrounds : mapped = true → HeapRounds k vm 2560 vm' := by
    -- After `l` rounds the loop is at the page `l` of the heap.
    let I : Vm × ℕ → Prop := fun s =>
      ∃ l ≤ 2560, s.2 = Heap.HEAP_START_ADDR + 4096 * l ∧ HeapRounds k vm l s.1
    have hdone := Loop.Returns.invariant (I := I)
      (Q := fun r => ∀ vm', r = some (vm', true) → HeapRounds k vm 2560 vm')
      ?_ ?_ ?_ (Loop.Returns.of_iterate hloop)
    · rintro rfl
      exact hdone vm' rfl
    · rintro ⟨vm₁, v⟩ s' ⟨l, hl, rfl, hrounds⟩ hstep
      rw [Heap.heap_init.mapPage] at hstep
      dsimp only at hstep
      split_ifs at hstep with hlt hnull
      split at hstep
      · next vm₂ hmap =>
        obtain rfl := Sum.inl.inj hstep
        refine ⟨l + 1, by omega, ?_, hrounds.round hmap⟩
        dsimp only
        rw [u64, Heap.HEAP_START_ADDR]
        omega
      · cases hstep
    · rintro ⟨vm₁, v⟩ r ⟨l, hl, rfl, hrounds⟩ hstop vm₂ rfl
      rw [Heap.heap_init.mapPage] at hstop
      dsimp only at hstop
      split_ifs at hstop with hlt hnull
      · simp at hstop
      · split at hstop
        · cases hstop
        · cases hstop
      · obtain rfl : l = 2560 := by omega
        simp only [Sum.inr.injEq, Option.some.injEq, Prod.mk.injEq, and_true] at hstop
        rw [← hstop]
        exact hrounds
    · exact ⟨0, by omega, rfl, fun _ => 0, by simp, Maps.nil vm⟩
  cases mapped with
  | false =>
      simp only [Bool.false_eq_true, if_false, Option.some.injEq, Prod.mk.injEq] at hresult
      exact absurd hresult.2.symm hstart
  | true =>
      simp only [if_true, Option.some.injEq, Prod.mk.injEq] at hresult
      exact ⟨vm', hrounds rfl, hresult.1.symm⟩

/-! ### The translation afterwards -/

/-- The tree is a matter of what the frames hold. -/
theorem TableTree.congr {m m' : Memory} {pmm : Pmm} {pml4 : ℕ} {tables : List ℕ → Option ℕ}
    {M : Mapping} (h : TableTree m pmm pml4 tables M)
    (hm : ∀ t j, IsFrame t → j < 512 → entry m' (P2V t) j = entry m (P2V t) j) :
  TableTree m' pmm pml4 tables M
  := by
  have hpresent : ∀ p t j, tables p = some t → j < 512 → present m' t j = present m t j := by
    intro p t j ht hj
    rw [present, present, hm t j (h.frame p t ht).1 hj]
  constructor
  · exact h.root
  · exact h.frame
  · exact h.injective
  · exact h.closed
  · intro p t i ht hp hi
    rw [hpresent p t i ht hi]
    exact h.upper p t i ht hp hi
  · intro v t ht
    rw [hpresent _ t _ ht (index_lt v 0)]
    exact h.leaf v t ht
  · exact h.missing

/-- The first header of the heap is not in a frame. -/
theorem entry_firstHeader (m : Memory) {t j : ℕ} (ht : IsFrame t) (hj : j < 512) (hi : ℕ) :
  entry (Heap.heap_init.firstHeader m Heap.HEAP_START_ADDR hi) (P2V t) j = entry m (P2V t) j
  := by
  rw [P2V_frame ht]
  obtain ⟨i, hlt, rfl⟩ := ht
  rw [Pmm.total_blocks, Pmm.MAX_BLOCKS] at hlt
  have hbelow : i * Pmm.PAGE_SIZE + KERNEL_OFFSET + 8 * j + 8 ≤ Heap.HEAP_START_ADDR := by
    rw [Pmm.PAGE_SIZE, KERNEL_OFFSET, Heap.HEAP_START_ADDR]
    omega
  simp only [entry, Heap.heap_init.firstHeader, Heap.setMagic, Heap.setIsFree, Heap.setSize,
    Heap.setNext]
  rw [Memory.load_store_disjoint, Memory.load_store_disjoint, Memory.load_store_disjoint,
    Memory.load_store_disjoint]
  · omega
  · omega
  · omega
  · omega

/-- Afterwards the processor translates as the calls say, the last one at a page deciding. -/
theorem translate_eq {vm vm₁ vm₂ : Vm} {pml4 heap_start : ℕ} (hends : Ends fb)
    (hinit : paging_init n k fb vm = some (vm₁, pml4))
    (hheap : Heap.heap_init n k vm₁ Heap.HEAP_START_ADDR (Heap.HEAP_START_ADDR + Heap.HEAP_SIZE)
      = some (vm₂, heap_start)) (hstart : heap_start ≠ 0) :
  ∃ b : ℕ → ℕ, (∀ l < 2560, b l < 2 ^ 16) ∧ translate vm₂.mem pml4 = target (allCalls fb b)
  := by
  obtain ⟨pmm, halloc, hcalls⟩ := paging_init_maps hinit
  obtain ⟨vm', ⟨b, hb, hrounds⟩, rfl⟩ := heap_init_maps hheap hstart
  obtain ⟨hframe, -, hused, -⟩ := safe_pmm_alloc_fresh halloc
  have hzero : ∀ i < 512, entry (zeroTable vm.mem (P2V pml4)) (P2V pml4) i = 0 := by
    intro i hi
    rw [entry_zeroTable vm.mem hframe hframe hi, if_pos rfl]
  generalize zeroTable vm.mem (P2V pml4) = mem at hcalls hzero
  have hphysical : ∀ c ∈ allCalls fb b, c.physical < 2 ^ 52 ∧ c.flags < 4096 := by
    intro c hc
    refine ⟨?_, flags_lt hc⟩
    simp only [allCalls, List.mem_append] at hc
    rcases hc with ((hc | hc) | hc) | hc
    · have := window_at (v := c.virtual) hc rfl
      omega
    · have := identity_at (v := c.virtual) hc rfl
      omega
    · obtain ⟨haddr, j, hj, hcj⟩ := mem_framebufferCalls hc
      have hlt := hends.lt haddr hj
      rw [(framebuffer_at (v := c.virtual) hlt hcj rfl).1]
      exact hlt
    · obtain ⟨l, hl, hblock, -⟩ := heap_at (v := c.virtual) hc rfl
      have hbl := hb l hl
      rw [Pmm.total_blocks, Pmm.MAX_BLOCKS] at hbl
      omega
  have hmaps : Maps k ⟨mem, pmm, P2V pml4⟩ (allCalls fb b) vm' := by
    have hcount : Heap.HEAP_SIZE / 4096 = 2560 := by decide
    rw [allCalls, heapCalls, hcount]
    exact hcalls.append hrounds
  obtain ⟨tables, htree⟩ := hmaps.tree (TableTree.initial hframe hused hzero) rfl hphysical
  have hafter := htree.congr fun t j ht hj =>
    entry_firstHeader vm'.mem ht hj (Heap.HEAP_START_ADDR + Heap.HEAP_SIZE)
  refine ⟨b, hb, ?_⟩
  ext1 v
  rw [translate, hafter.walk_eq, foldl_after]
  rfl

theorem translate_lt {m : Memory} {pml4 v x : ℕ} (h : translate m pml4 v = some x) :
  x < 2 ^ 52
  := by
  obtain ⟨e, -, rfl⟩ := Option.map_eq_some_iff.mp h
  rw [frameOf]
  omega

theorem ends_of_mapped {m : Memory} {pml4 : ℕ} (h : Mapped fb (translate m pml4)) :
  Ends fb
  := by
  intro haddr hbytes
  have := translate_lt (h.framebuffer (fb.pitch * fb.height - 1) (by omega))
  omega

theorem Fits.ends (h : Fits fb) :
  Ends fb
  := by
  intro haddr hbytes
  rw [Fits, if_neg haddr] at h
  omega

/-- After the two functions, the mappings are there just when the framebuffer fits. -/
theorem mapped_iff_fits {vm vm₁ vm₂ : Vm} {pml4 heap_start : ℕ}
    (hinit : paging_init n k fb vm = some (vm₁, pml4))
    (hheap : Heap.heap_init n k vm₁ Heap.HEAP_START_ADDR (Heap.HEAP_START_ADDR + Heap.HEAP_SIZE)
      = some (vm₂, heap_start)) (hstart : heap_start ≠ 0) :
  Mapped fb (translate vm₂.mem pml4) ↔ Fits fb
  := by
  constructor
  · intro hmapped
    have hends := ends_of_mapped hmapped
    obtain ⟨b, hb, heq⟩ := translate_eq hends hinit hheap hstart
    rw [heq] at hmapped
    exact fits_of_mapped hends hmapped hb
  · intro hfits
    obtain ⟨b, hb, heq⟩ := translate_eq hfits.ends hinit hheap hstart
    rw [heq]
    exact mapped_of_fits hfits

/-! ### Enough free memory -/

/-- The tables below the PML4 that the calls need. -/
def spaceTables (fb : framebuffer_info) : Finset (List ℕ) :=
  tablesFor KERNEL_OFFSET (2 ^ 17) ∪ tablesFor 0 (2 ^ 12) ∪ tablesFor fb.addr (fb_size fb / 4096) ∪
    tablesFor (KERNEL_OFFSET + fb.addr) (fb_size fb / 4096) ∪ tablesFor Heap.HEAP_START_ADDR 2560

theorem card_spaceTables (fb : framebuffer_info) :
  (spaceTables fb).card ≤ 4403
  := by
  have hpages : fb_size fb / 4096 ≤ 2 ^ 20 := by
    rw [fb_pages, u32]
    omega
  have h₁ := card_tablesFor KERNEL_OFFSET (2 ^ 17)
  have h₂ := card_tablesFor 0 (2 ^ 12)
  have h₃ := card_tablesFor fb.addr (fb_size fb / 4096)
  have h₄ := card_tablesFor (KERNEL_OFFSET + fb.addr) (fb_size fb / 4096)
  have h₅ := card_tablesFor Heap.HEAP_START_ADDR 2560
  calc (spaceTables fb).card
      ≤ _ + _ := Finset.card_union_le _ _
    _ ≤ _ + _ + _ := Nat.add_le_add_right (Finset.card_union_le _ _) _
    _ ≤ _ + _ + _ + _ :=
        Nat.add_le_add_right (Nat.add_le_add_right (Finset.card_union_le _ _) _) _
    _ ≤ _ + _ + _ + _ + _ := Nat.add_le_add_right (Nat.add_le_add_right
        (Nat.add_le_add_right (Finset.card_union_le _ _) _) _) _
    _ ≤ 4403 := by omega

/-- The tables of a call are among those needed. -/
theorem prefixes_allCalls {b : ℕ → ℕ} {c : Call} (hc : c ∈ allCalls fb b) :
  ∀ p ∈ prefixes c.virtual, p ∈ spaceTables fb
  := by
  -- A call for the page `j` of a range of pages.
  have hrange : ∀ {a count j : ℕ}, j < count → c.virtual % 2 ^ 48 = (a + 4096 * j) % 2 ^ 48 →
      ∀ p ∈ prefixes c.virtual, p ∈ tablesFor a count := by
    intro a count j hj hv
    rw [prefixes_congr hv]
    exact prefixes_subset hj
  intro p hp
  rw [spaceTables, Finset.mem_union, Finset.mem_union, Finset.mem_union, Finset.mem_union]
  simp only [allCalls, List.mem_append] at hc
  rcases hc with ((hc | hc) | hc) | hc
  · left; left; left; left
    obtain ⟨r, hr, rfl⟩ := mem_windowCalls.mp hc
    apply hrange hr _ p hp
    dsimp only
    rw [u64]
    omega
  · left; left; left; right
    obtain ⟨r, hr, rfl⟩ := mem_identityCalls.mp hc
    apply hrange hr _ p hp
    dsimp only
    omega
  · left
    obtain ⟨-, j, hj, hcj⟩ := mem_framebufferCalls hc
    rcases mem_framebufferPage.mp hcj with rfl | rfl
    · left; right
      apply hrange hj _ p hp
      dsimp only
      rw [u64]
      omega
    · right
      apply hrange hj _ p hp
      dsimp only
      rw [u64, u64]
      omega
  · right
    obtain ⟨l, hl, rfl⟩ := mem_heapCalls.mp hc
    apply hrange hl _ p hp
    rfl

section

variable {P : Finset (List ℕ)} {pml4 extra : ℕ} {vm : Vm} {tables : List ℕ → Option ℕ} {M : Mapping}

theorem Room.mapAll (h : Room k P pml4 extra vm tables M) (hn : Pmm.total_blocks < n)
    {calls : List Call}
    (hcalls : ∀ c ∈ calls, (∀ p ∈ prefixes c.virtual, p ∈ P) ∧ c.physical < 2 ^ 64 ∧ c.flags < 4096) :
  ∃ vm' tables' M', Paging.mapAll n k vm calls = some vm' ∧ Room k P pml4 extra vm' tables' M'
  := by
  induction calls generalizing vm tables M with
  | nil => exact ⟨vm, tables, M, rfl, h⟩
  | cons c cs ih =>
      obtain ⟨hP, hphys, hflags⟩ := hcalls c List.mem_cons_self
      obtain ⟨vm₁, tables₁, M₁, hmap, h₁⟩ := h.map_page hn hP hphys hflags
      obtain ⟨vm', tables', M', hrest, h'⟩ :=
        ih h₁ fun d hd => hcalls d (List.mem_cons_of_mem c hd)
      refine ⟨vm', tables', M', ?_, h'⟩
      rw [Paging.mapAll, List.foldlM_cons, hmap]
      exact hrest

/-- With room for the rest of the heap, the loop of `heap_init` maps it. -/
theorem Room.heap (hn : Pmm.total_blocks < n)
    (hP : ∀ l < 2560, ∀ p ∈ prefixes (Heap.HEAP_START_ADDR + 4096 * l), p ∈ P) {rounds l : ℕ}
    (hl : l + extra = 2560) (hrounds : extra < rounds) (h : Room k P pml4 extra vm tables M) :
  ∃ vm', Loop.iterate (Heap.heap_init.mapPage n k (Heap.HEAP_START_ADDR + 4096 * 2560)) rounds
    (vm, Heap.HEAP_START_ADDR + 4096 * l) = some (some (vm', true))
  := by
  induction extra generalizing rounds l vm tables M with
  | zero =>
      obtain ⟨rounds, rfl⟩ : ∃ r, rounds = r + 1 := ⟨rounds - 1, by omega⟩
      refine ⟨vm, Loop.iterate_stop _ ?_⟩
      rw [Heap.heap_init.mapPage]
      dsimp only
      rw [if_neg (by omega)]
  | succ extra ih =>
      obtain ⟨rounds, rfl⟩ : ∃ r, rounds = r + 1 := ⟨rounds - 1, by omega⟩
      obtain ⟨hne, hlt, halloc⟩ := h.alloc
      have hflags : PAGE_PRESENT ||| PAGE_WRITE < 4096 := by decide
      obtain ⟨vm₁, tables₁, M₁, hmap, h₁⟩ := halloc.map_page hn (hP l (by omega)) hlt hflags
      have hnext : u64 (Heap.HEAP_START_ADDR + 4096 * l + 4096)
          = Heap.HEAP_START_ADDR + 4096 * (l + 1) := by
        rw [u64, Heap.HEAP_START_ADDR]
        omega
      have hround : Heap.heap_init.mapPage n k (Heap.HEAP_START_ADDR + 4096 * 2560)
          (vm, Heap.HEAP_START_ADDR + 4096 * l)
            = .inl (vm₁, Heap.HEAP_START_ADDR + 4096 * (l + 1)) := by
        rw [Heap.heap_init.mapPage]
        dsimp only
        rw [if_pos (by omega), if_neg hne, hmap, hnext]
      rw [Loop.iterate_step _ hround]
      apply ih _ _ h₁
      · omega
      · omega

end

/-- With 32 MiB of free memory there is room for the tables below a new one. -/
theorem Room.initial (fb : framebuffer_info) {pmm pmm' : Pmm} {mem : Memory} {pml4 : ℕ}
    (hfree : 8192 ≤ (freeAbove k pmm).card) (halloc : safe_pmm_alloc n k pmm = some (pml4, pmm'))
    (hzero : ∀ i < 512, entry mem (P2V pml4) i = 0) :
  Room k (spaceTables fb) pml4 2560 ⟨mem, pmm', P2V pml4⟩
    (fun p => if p = [] then some pml4 else none) (fun _ => none)
  := by
  obtain ⟨hframe, -, hused, -⟩ := safe_pmm_alloc_fresh halloc
  have hspent := freeAbove_safe_pmm_alloc halloc
  constructor
  · exact TableTree.initial hframe hused hzero
  · rfl
  · intro j hj hle
    obtain ⟨i, -, -, -, -, hall⟩ := safe_pmm_alloc_spec halloc
    dsimp only
    rw [hall j hj]
    simp [hle]
  · have hsub := Finset.card_le_card (Finset.filter_subset
      (fun p => (if p = [] then some pml4 else none) = none) (spaceTables fb))
    have := card_spaceTables fb
    rw [missing]
    dsimp only
    omega

/-- A call of `paging_init` asks for tables of the address space only. -/
theorem call_ready {fb : framebuffer_info} {c : Call}
    (hc : c ∈ windowCalls ∨ c ∈ identityCalls ∨ c ∈ framebufferCalls fb) :
  (∀ p ∈ prefixes c.virtual, p ∈ spaceTables fb) ∧ c.physical < 2 ^ 64 ∧ c.flags < 4096
  := by
  have hall : c ∈ allCalls fb id := by
    simp only [allCalls, List.mem_append]
    left
    rwa [or_assoc]
  refine ⟨prefixes_allCalls hall, ?_, flags_lt hall⟩
  rcases hc with hc | hc | hc
  · have := window_at (v := c.virtual) hc rfl
    omega
  · have := identity_at (v := c.virtual) hc rfl
    omega
  · obtain ⟨-, j, -, hcj⟩ := mem_framebufferCalls hc
    rcases mem_framebufferPage.mp hcj with rfl | rfl
    all_goals exact Nat.mod_lt _ (by decide)

/-- With 8192 free blocks above the kernel image, which are 32 MiB, both functions return and
the heap is mapped. -/
theorem initialisation_returns (fb : framebuffer_info) {vm : Vm} (hn : Pmm.total_blocks < n)
    (hfree : 8192 ≤ (freeAbove k vm.pmm).card) :
  ∃ vm₁ pml4 vm₂, paging_init n k fb vm = some (vm₁, pml4) ∧
    Heap.heap_init n k vm₁ Heap.HEAP_START_ADDR (Heap.HEAP_START_ADDR + Heap.HEAP_SIZE)
      = some (vm₂, Heap.HEAP_START_ADDR)
  := by
  obtain ⟨⟨pml4, pmm⟩, halloc⟩ := safe_pmm_alloc_returns
    (Finset.card_pos.mp (by omega : 0 < (freeAbove k vm.pmm).card)) hn
  obtain ⟨mem, hmem⟩ : ∃ mem, mem = zeroTable vm.mem (P2V pml4) := ⟨_, rfl⟩
  have hframe := (safe_pmm_alloc_fresh halloc).1
  have hzero : ∀ i < 512, entry mem (P2V pml4) i = 0 := by
    intro i hi
    rw [hmem, entry_zeroTable vm.mem hframe hframe hi, if_pos rfl]
  have hroom := Room.initial fb hfree halloc hzero
  obtain ⟨vm₁, tables₁, M₁, hwindow, h₁⟩ := hroom.mapAll hn fun c hc => call_ready (Or.inl hc)
  obtain ⟨vm₂, tables₂, M₂, hidentity, h₂⟩ :=
    h₁.mapAll hn fun c hc => call_ready (Or.inr (Or.inl hc))
  obtain ⟨vm₃, tables₃, M₃, hframebuffer, h₃⟩ :=
    h₂.mapAll hn fun c hc => call_ready (Or.inr (Or.inr hc))
  have hheap : ∀ l < 2560, ∀ p ∈ prefixes (Heap.HEAP_START_ADDR + 4096 * l), p ∈ spaceTables fb := by
    intro l hl
    apply prefixes_allCalls (c := heapCall id l)
    rw [allCalls, List.mem_append]
    right
    exact mem_heapCalls.mpr ⟨l, hl, rfl⟩
  have htotal : Pmm.total_blocks = 65536 := rfl
  have hextra : 2560 < n := by omega
  obtain ⟨vm₄, hloop⟩ := Room.heap hn hheap (Nat.zero_add 2560) hextra h₃
  have hlo : maskLow 12 Heap.HEAP_START_ADDR = Heap.HEAP_START_ADDR := by decide
  have hhi : maskLow 12 (u64 (Heap.HEAP_START_ADDR + Heap.HEAP_SIZE + 0xFFF))
      = Heap.HEAP_START_ADDR + 4096 * 2560 := by decide
  refine ⟨vm₃, pml4, { vm₄ with
      mem := Heap.heap_init.firstHeader vm₄.mem Heap.HEAP_START_ADDR
        (Heap.HEAP_START_ADDR + Heap.HEAP_SIZE) }, ?_, ?_⟩
  · rw [hmem] at hwindow
    simp only [paging_init, Option.bind_eq_bind, Option.bind_eq_some_iff]
    exact ⟨(pml4, pmm), halloc, vm₁, hwindow, vm₂, hidentity, vm₃, hframebuffer, rfl⟩
  · have hfirst : Heap.HEAP_START_ADDR + 4096 * 0 = Heap.HEAP_START_ADDR := Nat.add_zero _
    rw [hfirst] at hloop
    simp only [Heap.heap_init, hlo, hhi, hloop, Option.bind_eq_bind, Option.bind_some, if_true]

/-! ### The mappings of the kernel -/

/-- A kernel of 2 MiB, and a machine all of whose blocks are free. -/
def smallKernel : Image := ⟨KERNEL_OFFSET, KERNEL_OFFSET + 0x200000⟩

def freshMachine : Vm := ⟨fun _ => 0, ⟨fun _ => 0, 0⟩, 0⟩

theorem freeAbove_freshMachine :
  8192 ≤ (freeAbove smallKernel freshMachine.pmm).card
  := by
  have hsub : Finset.Ico 513 9216 ⊆ freeAbove smallKernel freshMachine.pmm := by
    intro i hi
    have hend : smallKernel.phys_kernel_end = 0x200000 := by decide
    rw [Finset.mem_Ico] at hi
    rw [mem_freeAbove, hend, Pmm.total_blocks, Pmm.MAX_BLOCKS, Pmm.PAGE_SIZE]
    refine ⟨by omega, by omega, ?_⟩
    simp [freshMachine, Pmm.used, Bitmap.test, Bitmap.bitOn]
  have hcard := Finset.card_le_card hsub
  rw [Nat.card_Ico] at hcard
  omega

end Paging
