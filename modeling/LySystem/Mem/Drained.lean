import LySystem.Mem.Paging
import LySystem.Mem.PmmRun

/-!
# The blocks below the kernel image

`safe_pmm_alloc` keeps the blocks it passes over.  After it has returned once, no block at or
below the end of the kernel image is left for `pmm_alloc_block`, whoever calls it.
-/

namespace Pmm

open Transition Paging

/-- A call with any address at all. -/
inductive Call : Pmm → Op → Pmm → Prop
  | pmm_mark_used (p : Pmm) (phys_addr : ℕ) :
      Call p (.pmm_mark_used phys_addr) (Pmm.pmm_mark_used p phys_addr)
  | pmm_mark_free (p : Pmm) (phys_addr : ℕ) :
      Call p (.pmm_mark_free phys_addr) (Pmm.pmm_mark_free p phys_addr)
  | pmm_alloc_block (p : Pmm) :
      Call p (.pmm_alloc_block (Pmm.pmm_alloc_block p).1) (Pmm.pmm_alloc_block p).2
  | pmm_free_block (p : Pmm) (ptr : ℕ) :
      Call p (.pmm_free_block ptr) (Pmm.pmm_free_block p ptr)

/-- The call marks a block at or below the end of the kernel image free. -/
def Op.FreesLow (k : Image) (op : Op) : Prop :=
  ∃ b, (op = .pmm_mark_free b ∨ op = .pmm_free_block b) ∧ blockOf b < total_blocks ∧
    blockOf b * PAGE_SIZE ≤ k.phys_kernel_end

/-- Every block at or below the end of the kernel image is used. -/
def LowUsed (k : Image) (p : Pmm) : Prop :=
  ∀ j < total_blocks, j * PAGE_SIZE ≤ k.phys_kernel_end → p.used j = true

/-- Freeing another block leaves the low ones used. -/
theorem LowUsed.mark_free {k : Image} {p : Pmm} {phys_addr : ℕ} (h : LowUsed k p)
    (hfree : ¬ (blockOf phys_addr < total_blocks ∧
      blockOf phys_addr * PAGE_SIZE ≤ k.phys_kernel_end)) :
  LowUsed k (pmm_mark_free p phys_addr)
  := by
  intro j hj hle
  rw [used_mark_free, h j hj hle, Bool.and_true, Bool.not_eq_true', decide_eq_false_iff_not]
  rintro ⟨rfl, -⟩
  exact hfree ⟨hj, hle⟩

/-- A call that marks no low block free leaves the low blocks used. -/
theorem LowUsed.step {k : Image} {p q : Pmm} {op : Op} (h : LowUsed k p) (hstep : Call p op q)
    (hfree : ¬ op.FreesLow k) :
  LowUsed k q
  := by
  cases hstep with
  | pmm_mark_used phys_addr =>
      intro j hj hle
      rw [used_mark_used, h j hj hle, Bool.or_true]
  | pmm_mark_free phys_addr =>
      apply h.mark_free
      rintro hlow
      exact hfree ⟨phys_addr, Or.inl rfl, hlow⟩
  | pmm_alloc_block =>
      intro j hj hle
      rcases pmm_alloc_block_cases p with ⟨heq, -⟩ | ⟨i, -, -, -, -, hall⟩
      · rw [heq]
        exact h j hj hle
      · rw [hall, h j hj hle, Bool.or_true]
  | pmm_free_block ptr =>
      apply h.mark_free
      rintro hlow
      exact hfree ⟨ptr, Or.inr rfl, hlow⟩

/-- With the low blocks used, a block that is handed out lies above the kernel image. -/
theorem LowUsed.allocated {k : Image} {p q : Pmm} {a : ℕ} (h : LowUsed k p)
    (hstep : Call p (.pmm_alloc_block a) q) (ha : a ≠ 0) :
  k.phys_kernel_end < a
  := by
  cases hstep with
  | pmm_alloc_block =>
      rcases pmm_alloc_block_cases p with ⟨heq, -⟩ | ⟨i, hi, hunused, -, haddr, -⟩
      · rw [heq] at ha
        exact absurd rfl ha
      · rw [haddr]
        by_contra hle
        rw [h i hi (Nat.le_of_not_lt hle)] at hunused
        cases hunused

/-- What holds after one call holds along every run of calls. -/
theorem LowUsed.run {k : Image} {p q : Pmm} {ops : List Op} (h : LowUsed k p)
    (hrun : Run Call p ops q) (hfree : ∀ op ∈ ops, ¬ op.FreesLow k) :
  LowUsed k q ∧ ∀ a, .pmm_alloc_block a ∈ ops → a ≠ 0 → k.phys_kernel_end < a
  := by
  induction hrun with
  | nil p =>
      use h
      intro a ha
      cases ha
  | cons hstep _ ih =>
      obtain ⟨hq, hlater⟩ := ih (h.step hstep (hfree _ List.mem_cons_self))
        (fun op hop => hfree op (List.mem_cons_of_mem _ hop))
      use hq
      intro a ha hne
      rcases List.mem_cons.mp ha with rfl | ha
      · exact h.allocated hstep hne
      · exact hlater a ha hne

/-- `safe_pmm_alloc` returns the lowest free block above the kernel image, with all blocks at or
below its end used and the other blocks above it as before.  From then on every block
`pmm_alloc_block` hands out lies above the image, until a block at or below its end is marked
free. -/
theorem safe_pmm_alloc_drains {k : Image} {p : Pmm}
    (hfree : ∃ i < total_blocks, p.used i = false ∧ k.phys_kernel_end < i * PAGE_SIZE) :
  ∃ i p', (∀ n > total_blocks, safe_pmm_alloc n k p = some (i * PAGE_SIZE, p')) ∧
    (i < total_blocks ∧ p.used i = false ∧ k.phys_kernel_end < i * PAGE_SIZE) ∧
    (∀ j < i, p.used j = false → j * PAGE_SIZE ≤ k.phys_kernel_end) ∧
    (∀ j < total_blocks, j * PAGE_SIZE ≤ k.phys_kernel_end → p'.used j = true) ∧
    p'.used i = true ∧
    (∀ j < total_blocks, k.phys_kernel_end < j * PAGE_SIZE → j ≠ i → p'.used j = p.used j) ∧
    ∀ ops q, Run Call p' ops q → (∀ op ∈ ops, ¬ op.FreesLow k) →
      ∀ a, .pmm_alloc_block a ∈ ops → a ≠ 0 → k.phys_kernel_end < a
  := by
  obtain ⟨w, hw, hunused, habove⟩ := hfree
  have hnonempty : (freeAbove k p).Nonempty := ⟨w, mem_freeAbove.mpr ⟨hw, habove, hunused⟩⟩
  obtain ⟨⟨a, p'⟩, halloc⟩ := safe_pmm_alloc_returns hnonempty (Nat.lt_succ_self total_blocks)
  obtain ⟨i, hi, rfl, hlowest, -, hused⟩ := safe_pmm_alloc_spec halloc
  obtain ⟨hlt, hend, hifree⟩ := mem_freeAbove.mp hi
  have hlow : LowUsed k p' := by
    intro j hj hle
    rw [hused j hj]
    simp [hle]
  refine ⟨i, p', ?_, ⟨hlt, hifree, hend⟩, ?_, hlow, ?_, ?_, ?_⟩
  · intro n hn
    exact Loop.iterate_mono halloc hn
  · intro j hj hjfree
    by_contra hgt
    have := hlowest j (mem_freeAbove.mpr ⟨hj.trans hlt, Nat.lt_of_not_le hgt, hjfree⟩)
    omega
  · rw [hused i hlt]
    simp
  · intro j hj hgt hne
    have hneither : ¬ (j = i ∨ j * PAGE_SIZE ≤ k.phys_kernel_end) := by omega
    rw [hused j hj, decide_eq_false hneither, Bool.false_or]
  · intro ops q hrun hops
    exact (hlow.run hrun hops).2

/-- With all blocks free, the blocks up to the end of the image at `0x102000` are taken. -/
theorem safe_pmm_alloc_drains_empty :
  ∃ i p', (∀ n > total_blocks, safe_pmm_alloc n ⟨KERNEL_OFFSET + 0x100000, KERNEL_OFFSET + 0x102000⟩
      ⟨fun _ => 0, 0⟩ = some (i * PAGE_SIZE, p')) ∧ p'.used 0x102 = true
  := by
  have hend : (⟨KERNEL_OFFSET + 0x100000, KERNEL_OFFSET + 0x102000⟩ : Image).phys_kernel_end
      = 0x102000 := by
    rw [Image.phys_kernel_end, sub64]
    decide
  obtain ⟨i, p', halloc, -, -, hlow, -⟩ := safe_pmm_alloc_drains
    (k := ⟨KERNEL_OFFSET + 0x100000, KERNEL_OFFSET + 0x102000⟩) (p := ⟨fun _ => 0, 0⟩)
    ⟨0x103, by decide, by decide, by rw [hend]; decide⟩
  use i, p', halloc
  exact hlow 0x102 (by decide) (by rw [hend]; decide)

end Pmm
