import LySystem.Mem.Pmm

/-!
# Page tables

`kernel/mem/paging.c`: four levels of tables of 512 eight-byte entries.  The kernel reaches
physical memory through a window that starts at `KERNEL_OFFSET`, so a table at a physical
address is read and written at its `P2V` address.
-/

namespace Paging

def KERNEL_OFFSET : ℕ := 0xFFFFFFFF80000000

def P2V (addr : ℕ) : ℕ := u64 (addr + KERNEL_OFFSET)

def PAGE_PRESENT : ℕ := 1

def PAGE_WRITE : ℕ := 2

/-- Where the linker script puts the kernel: the symbols `_kernel_start` and
`_kernel_end`. -/
structure Image where
  kernel_start : ℕ
  kernel_end : ℕ

/-- The kernel's memory, the physical memory manager and the variable `kernel_pml4`. -/
structure Vm where
  mem : Memory
  pmm : Pmm
  kernel_pml4 : ℕ

/-- The physical address of the end of the kernel image. -/
def Image.phys_kernel_end (k : Image) : ℕ := sub64 k.kernel_end KERNEL_OFFSET

/-- Blocks are allocated until one above the kernel image comes up; those below it stay
allocated.  `none` when that takes more than `n` rounds. -/
def safe_pmm_alloc (n : ℕ) (k : Image) (p : Pmm) : Option (ℕ × Pmm) :=
  Loop.iterate
    (fun (s : ℕ × Pmm) =>
      if s.1 ≤ k.phys_kernel_end then .inl (Pmm.pmm_alloc_block s.2) else .inr s)
    n (Pmm.pmm_alloc_block p)

/-- The loop that sets the 512 entries of a new table to zero. -/
def zeroTable (m : Memory) (new_virt : ℕ) : Memory :=
  (List.range 512).foldl (fun m j => m.store (new_virt + 8 * j) 8 0) m

/-- The 512 stores are one write of 4096 zero bytes. -/
theorem zeroTable_eq (m : Memory) (t : ℕ) :
  zeroTable m t = m.splice t 4096 fun _ => 0
  := by
  have hprefix : ∀ n, (List.range n).foldl (fun m j => m.store (t + 8 * j) 8 0) m
      = m.splice t (8 * n) fun _ => 0 := by
    intro n
    induction n with
    | zero =>
        funext x
        rw [Memory.splice, if_neg (by omega)]
        rfl
    | succ n ih =>
        funext x
        rw [List.range_succ, List.foldl_append, List.foldl_cons, List.foldl_nil, ih,
          Memory.store]
        simp only [Memory.splice]
        split_ifs with h₁ h₂ h₃ h₄ h₅
        · simp
        · omega
        · rfl
        · omega
        · omega
        · rfl
  apply hprefix 512

/-- The entry of the table at `table`. -/
def entry (m : Memory) (table index : ℕ) : ℕ := m.load (table + 8 * index) 8

/-- One round of the loop of `map_page`: the table the entry `index` of the table `current`
names, made when the entry is not present. -/
def map_page.descend (n : ℕ) (k : Image) (vm : Vm) (current index : ℕ) : Option (Vm × ℕ) :=
  if !(entry vm.mem current index).testBit 0 then
    (safe_pmm_alloc n k vm.pmm).map fun r =>
      let new_virt := P2V r.1
      let mem := zeroTable vm.mem new_virt
      ({ vm with
          mem := mem.store (current + 8 * index) 8 (r.1 ||| PAGE_PRESENT ||| PAGE_WRITE)
          pmm := r.2 },
        new_virt)
  else some (vm, P2V (maskLow 12 (entry vm.mem current index)))

/-- The index of a virtual address in the tables of a level: level 3 is the PML4, level 0
the tables that hold the leaf entries. -/
def index (virtual level : ℕ) : ℕ := virtual / 2 ^ (12 + 9 * level) % 512

def map_page (n : ℕ) (k : Image) (vm : Vm) (virtual physical flags : ℕ) : Option Vm :=
  do
    let (vm, current) ← map_page.descend n k vm vm.kernel_pml4 (index virtual 3)
    let (vm, current) ← map_page.descend n k vm current (index virtual 2)
    let (vm, current) ← map_page.descend n k vm current (index virtual 1)
    some { vm with
      mem := vm.mem.store (current + 8 * index virtual 0) 8
        (maskLow 12 physical ||| flags ||| PAGE_PRESENT) }

/-! ### What the processor reads -/

/-- The address field of an entry, bits 12 to 51. -/
def frameOf (e : ℕ) : ℕ := e / 2 ^ 12 % 2 ^ 40 * 2 ^ 12

/-- The entry `index` of the table at the physical address `table`, when it is present. -/
def present (m : Memory) (table index : ℕ) : Option ℕ :=
  let e := entry m (P2V table) index
  if e.testBit 0 then some e else none

/-- The leaf entry the four-level walk from the PML4 at the physical address `pml4`
reaches for a virtual address. -/
def walk (m : Memory) (pml4 virtual : ℕ) : Option ℕ :=
  do
    let e₃ ← present m pml4 (index virtual 3)
    let e₂ ← present m (frameOf e₃) (index virtual 2)
    let e₁ ← present m (frameOf e₂) (index virtual 1)
    present m (frameOf e₁) (index virtual 0)

/-! ### Allocating above the kernel image -/

/-- The free blocks above the kernel image. -/
def freeAbove (k : Image) (p : Pmm) : Finset ℕ :=
  (Finset.range Pmm.total_blocks).filter fun i =>
    k.phys_kernel_end < i * Pmm.PAGE_SIZE ∧ p.used i = false

theorem mem_freeAbove {k : Image} {p : Pmm} {i : ℕ} :
  i ∈ freeAbove k p ↔
    i < Pmm.total_blocks ∧ k.phys_kernel_end < i * Pmm.PAGE_SIZE ∧ p.used i = false
  := by
  simp [freeAbove]

/-- `q` differs from `p` in that some of the blocks that are not above the kernel image have
become used. -/
def Drained (k : Image) (p q : Pmm) : Prop :=
  ∀ j, q.used j = true → p.used j = false → j * Pmm.PAGE_SIZE ≤ k.phys_kernel_end

/-- The blocks that are used in `q` only are those that a walk over free blocks up to the end of the
kernel image has passed. -/
structure Passed (k : Image) (p q : Pmm) : Prop where
  mono : ∀ j, p.used j = true → q.used j = true
  drained : Drained k p q

theorem Passed.refl (k : Image) (p : Pmm) :
  Passed k p p
  := by
  use fun _ hj => hj
  intro j hq hp
  rw [hq] at hp
  cases hp

/-- A block that is not above the kernel image is passed over. -/
theorem Passed.pass {k : Image} {p q : Pmm} (h : Passed k p q)
    (hle : (Pmm.pmm_alloc_block q).1 ≤ k.phys_kernel_end) :
  Passed k p (Pmm.pmm_alloc_block q).2
  := by
  rcases Pmm.pmm_alloc_block_cases q with ⟨heq, -⟩ | ⟨i, hi, hfree, -, haddr, hused⟩
  · rw [heq]
    exact h
  · constructor
    · intro j hj
      rw [hused, h.mono j hj, Bool.or_true]
    · intro j hj hp
      rw [hused, Bool.or_eq_true, decide_eq_true_iff] at hj
      rcases hj with rfl | hj
      · rw [← haddr]
        apply hle
      · apply h.drained j hj hp

/-- A block above the kernel image is the lowest of the free ones there. -/
theorem Passed.take {k : Image} {p q : Pmm} (h : Passed k p q)
    (hgt : ¬ (Pmm.pmm_alloc_block q).1 ≤ k.phys_kernel_end) :
  ∃ i ∈ freeAbove k p, (Pmm.pmm_alloc_block q).1 = i * Pmm.PAGE_SIZE ∧
    (∀ j ∈ freeAbove k p, i ≤ j) ∧
    (∀ j, p.used j = true → (Pmm.pmm_alloc_block q).2.used j = true) ∧
    ∀ j < Pmm.total_blocks, (Pmm.pmm_alloc_block q).2.used j =
      (decide (j = i ∨ j * Pmm.PAGE_SIZE ≤ k.phys_kernel_end) || p.used j)
  := by
  rcases Pmm.pmm_alloc_block_cases q with ⟨heq, -⟩ | ⟨i, hi, hfree, hlow, haddr, hused⟩
  · rw [heq] at hgt
    simp at hgt
  have hpi : p.used i = false := by
    by_contra hp
    rw [Bool.not_eq_false] at hp
    rw [h.mono i hp] at hfree
    cases hfree
  refine ⟨i, ?_, haddr, ?_, ?_, ?_⟩
  · rw [mem_freeAbove, ← haddr]
    use hi, by omega, hpi
  · intro j hj
    obtain ⟨-, habove, hpj⟩ := mem_freeAbove.mp hj
    by_contra hlt
    have := h.drained j (hlow j (by omega)) hpj
    omega
  · intro j hj
    rw [hused, h.mono j hj, Bool.or_true]
  · intro j hj
    rw [hused, Bool.eq_iff_iff]
    simp only [Bool.or_eq_true, decide_eq_true_eq]
    constructor
    · rintro (rfl | hq)
      · simp
      · by_cases hp : p.used j = true
        · simp [hp]
        · left; right
          apply h.drained j hq (by simpa using hp)
    · rintro ((rfl | hle) | hp)
      · simp
      · right
        apply hlow j
        rw [haddr, Nat.not_le] at hgt
        exact Nat.lt_of_mul_lt_mul_right (hle.trans_lt hgt)
      · right
        apply h.mono j hp

/-- `safe_pmm_alloc` returns the lowest free block above the kernel image; afterwards that
block and all blocks below the end of the image are used, and the others are as before. -/
theorem safe_pmm_alloc_spec {n : ℕ} {k : Image} {p p' : Pmm} {a : ℕ}
    (h : safe_pmm_alloc n k p = some (a, p')) :
  ∃ i ∈ freeAbove k p, a = i * Pmm.PAGE_SIZE ∧ (∀ j ∈ freeAbove k p, i ≤ j) ∧
    (∀ j, p.used j = true → p'.used j = true) ∧
    ∀ j < Pmm.total_blocks,
      p'.used j = (decide (j = i ∨ j * Pmm.PAGE_SIZE ≤ k.phys_kernel_end) || p.used j)
  := by
  let I : ℕ × Pmm → Prop := fun s => ∃ q, s = Pmm.pmm_alloc_block q ∧ Passed k p q
  let Q : ℕ × Pmm → Prop := fun r => ∃ i ∈ freeAbove k p, r.1 = i * Pmm.PAGE_SIZE ∧
    (∀ j ∈ freeAbove k p, i ≤ j) ∧ (∀ j, p.used j = true → r.2.used j = true) ∧
    ∀ j < Pmm.total_blocks,
      r.2.used j = (decide (j = i ∨ j * Pmm.PAGE_SIZE ≤ k.phys_kernel_end) || p.used j)
  apply Loop.Returns.invariant (I := I) (Q := Q) _ _ _ (Loop.Returns.of_iterate h)
  · rintro s s' ⟨q, rfl, hq⟩ hstep
    split at hstep
    · next hle =>
      obtain rfl := Sum.inl.inj hstep
      exact ⟨_, rfl, hq.pass hle⟩
    · cases hstep
  · rintro s r ⟨q, rfl, hq⟩ hstop
    split at hstop
    · cases hstop
    · next hgt =>
      obtain rfl := Sum.inr.inj hstop
      exact hq.take hgt
  · exact ⟨p, rfl, Passed.refl k p⟩

/-- The free blocks. -/
def freeBlocks (p : Pmm) : Finset ℕ :=
  (Finset.range Pmm.total_blocks).filter fun i => p.used i = false

theorem card_freeBlocks_le (p : Pmm) :
  (freeBlocks p).card ≤ Pmm.total_blocks
  := by
  apply le_trans (Finset.card_filter_le _ _)
  simp

/-- While a block above the kernel image is free, `safe_pmm_alloc` returns. -/
theorem safe_pmm_alloc_returns {n : ℕ} {k : Image} {p : Pmm}
    (hfree : (freeAbove k p).Nonempty) (hn : Pmm.total_blocks < n) :
  ∃ r, safe_pmm_alloc n k p = some r
  := by
  obtain ⟨w, hw⟩ := hfree
  obtain ⟨hlt, habove, hused⟩ := mem_freeAbove.mp hw
  -- The block `w` stays free as long as the loop goes on.
  let I : ℕ × Pmm → Prop := fun s => s.1 ≤ k.phys_kernel_end → s.2.used w = false
  have halloc : ∀ q : Pmm, q.used w = false → I (Pmm.pmm_alloc_block q) := by
    intro q hq hle
    rcases Pmm.pmm_alloc_block_cases q with ⟨heq, hall⟩ | ⟨i, hi, -, -, haddr, hqused⟩
    · rw [hall w hlt] at hq
      cases hq
    · rw [hqused, hq, Bool.or_false, decide_eq_false_iff_not]
      rintro rfl
      omega
  apply Loop.iterate_of_measure (I := I) (fun s => (freeBlocks s.2).card)
  · intro s s' hI hstep
    split at hstep
    · next hle =>
      obtain rfl := Sum.inl.inj hstep
      have hs := hI hle
      use halloc s.2 hs
      rcases Pmm.pmm_alloc_block_cases s.2 with ⟨heq, hall⟩ | ⟨i, hi, hfree, -, -, hqused⟩
      · rw [hall w hlt] at hs
        cases hs
      · apply Finset.card_lt_card
        constructor
        · intro j hj
          simp only [freeBlocks, Finset.mem_filter, Finset.mem_range, hqused] at hj ⊢
          simp only [Bool.or_eq_false_iff] at hj
          use hj.1, hj.2.2
        · intro hsub
          have : i ∈ freeBlocks s.2 := by simp [freeBlocks, hi, hfree]
          have := hsub this
          simp [freeBlocks, hqused] at this
    · cases hstep
  · apply halloc p hused
  · apply Nat.lt_of_le_of_lt (card_freeBlocks_le _) hn

/-- A block above the kernel image is taken, and none is taken otherwise. -/
theorem freeAbove_safe_pmm_alloc {n : ℕ} {k : Image} {p p' : Pmm} {a : ℕ}
    (h : safe_pmm_alloc n k p = some (a, p')) :
  (freeAbove k p').card + 1 = (freeAbove k p).card
  := by
  obtain ⟨i, hi, -, -, -, hused⟩ := safe_pmm_alloc_spec h
  have heq : freeAbove k p' = (freeAbove k p).erase i := by
    ext j
    rw [Finset.mem_erase, mem_freeAbove, mem_freeAbove]
    constructor
    · rintro ⟨hlt, habove, hfree⟩
      rw [hused j hlt, Bool.or_eq_false_iff, decide_eq_false_iff_not] at hfree
      use fun hj => hfree.1 (Or.inl hj), hlt, habove, hfree.2
    · rintro ⟨hne, hlt, habove, hfree⟩
      use hlt, habove
      rw [hused j hlt, hfree, Bool.or_false, decide_eq_false_iff_not]
      rintro (rfl | hle)
      · apply hne rfl
      · omega
  rw [heq, Finset.card_erase_of_mem hi]
  have := Finset.card_pos.mpr ⟨i, hi⟩
  omega

end Paging
