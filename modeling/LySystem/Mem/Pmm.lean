import LySystem.Machine.Bitmap
import Mathlib.Data.Finset.Card

/-!
# The physical memory manager

`kernel/mem/pmm.c`: one bit for each of the `MAX_BLOCKS` blocks of `PAGE_SIZE` bytes, on
when the block is used, and a counter of the used blocks.  Block numbers are `uint32_t`, so
an address is reduced to the low 32 bits of its block number.
-/

namespace Pmm

def PAGE_SIZE : ℕ := 4096

def MAX_BLOCKS : ℕ := 65536

def BITMAP_SIZE : ℕ := MAX_BLOCKS / 8

/-- `total_blocks`, which nothing assigns after its initialisation. -/
def total_blocks : ℕ := MAX_BLOCKS

end Pmm

open Pmm

/-- The two variables of the manager. -/
structure Pmm where
  pmm_bitmap : Memory
  used_blocks : ℕ

namespace Pmm

/-- The number of the block an address falls in, as a `uint32_t`. -/
def blockOf (phys_addr : ℕ) : ℕ := u32 (phys_addr / PAGE_SIZE)

/-- Whether a block is marked used. -/
def used (p : Pmm) (block : ℕ) : Bool := Bitmap.test p.pmm_bitmap block

def pmm_mark_used (p : Pmm) (phys_addr : ℕ) : Pmm :=
  let block := blockOf phys_addr
  if total_blocks ≤ block then p
  else if !p.used block then
    { pmm_bitmap := Bitmap.set p.pmm_bitmap block, used_blocks := u32 (p.used_blocks + 1) }
  else p

def pmm_mark_free (p : Pmm) (phys_addr : ℕ) : Pmm :=
  let block := blockOf phys_addr
  if total_blocks ≤ block then p
  else if p.used block then
    { pmm_bitmap := Bitmap.clear p.pmm_bitmap block,
      used_blocks := u32 (p.used_blocks + (2 ^ 32 - 1)) }
  else p

/-- The first block that is free, marked used, or `NULL`. -/
def pmm_alloc_block (p : Pmm) : ℕ × Pmm :=
  match Loop.firstSome (fun i => if !p.used i then some i else none) 0 total_blocks with
  | some i =>
      let phys_addr := u32 (i * PAGE_SIZE)
      (phys_addr, pmm_mark_used p phys_addr)
  | none => (0, p)

def pmm_free_block (p : Pmm) (ptr : ℕ) : Pmm := pmm_mark_free p ptr

/-! ### What the operations do to the blocks -/

theorem used_mark_used (p : Pmm) (phys_addr j : ℕ) :
  (pmm_mark_used p phys_addr).used j
    = (decide (j = blockOf phys_addr ∧ blockOf phys_addr < total_blocks) || p.used j)
  := by
  rw [pmm_mark_used]
  split_ifs with hrange hfree
  · have : ¬ (j = blockOf phys_addr ∧ blockOf phys_addr < total_blocks) := by omega
    simp [this]
  · have : blockOf phys_addr < total_blocks := by omega
    simp [used, Bitmap.test_set, this]
  · by_cases hj : j = blockOf phys_addr
    · subst hj
      simp only [Bool.not_eq_true', Bool.not_eq_false] at hfree
      simp [hfree]
    · simp [hj]

theorem used_mark_free (p : Pmm) (phys_addr j : ℕ) :
  (pmm_mark_free p phys_addr).used j
    = (!decide (j = blockOf phys_addr ∧ blockOf phys_addr < total_blocks) && p.used j)
  := by
  rw [pmm_mark_free]
  split_ifs with hrange hused
  · have : ¬ (j = blockOf phys_addr ∧ blockOf phys_addr < total_blocks) := by omega
    simp [this]
  · have : blockOf phys_addr < total_blocks := by omega
    simp [used, Bitmap.test_clear, this]
  · by_cases hj : j = blockOf phys_addr
    · subst hj
      simp only [Bool.not_eq_true] at hused
      simp [hused]
    · simp [hj]

theorem blockOf_page {i : ℕ} (h : i < total_blocks) :
  u32 (i * PAGE_SIZE) = i * PAGE_SIZE ∧ blockOf (i * PAGE_SIZE) = i
  := by
  simp only [blockOf, u32, PAGE_SIZE, total_blocks, MAX_BLOCKS] at *
  omega

/-- Either no block is free and `pmm_alloc_block` changes nothing, or it returns the
address of the lowest free block and marks it used. -/
theorem pmm_alloc_block_cases (p : Pmm) :
  (pmm_alloc_block p = (0, p) ∧ ∀ i < total_blocks, p.used i = true) ∨
    ∃ i < total_blocks, p.used i = false ∧ (∀ j < i, p.used j = true) ∧
      (pmm_alloc_block p).1 = i * PAGE_SIZE ∧
      ∀ j, (pmm_alloc_block p).2.used j = (decide (j = i) || p.used j)
  := by
  rw [pmm_alloc_block]
  split
  · next i hi =>
    right
    obtain ⟨k, -, hk, hki, hfirst⟩ := Loop.firstSome_eq_some.mp hi
    rw [Nat.zero_add] at hk
    have hfree : p.used k = false := by
      by_contra hused
      simp [hused] at hki
    simp only [hfree, Bool.not_false, if_true, Option.some.injEq] at hki
    subst hki
    obtain ⟨haddr, hblock⟩ := blockOf_page hk
    use k, hk, hfree
    constructor
    · intro j hj
      by_contra hused
      simpa [hused] using hfirst j (Nat.zero_le j) hj
    · rw [haddr]
      use rfl
      intro j
      rw [used_mark_used, hblock]
      simp [hk]
  · next hnone =>
    left
    use rfl
    intro i hi
    by_contra hused
    simpa [hused] using Loop.firstSome_eq_none.mp hnone i (Nat.zero_le i) (by omega)

end Pmm
