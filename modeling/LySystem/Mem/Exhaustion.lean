import LySystem.Mem.Translation

/-!
# Running out of blocks

`safe_pmm_alloc` tells the address of a block from `NULL` by its place above the kernel image
only.  Once no block there is free it goes on for ever, and so does a `map_page` that needs
more tables than there are such blocks.
-/

namespace Paging

/-! ### One table -/

/-- `safe_pmm_alloc` returns exactly when a block above the kernel image is free. -/
theorem safe_pmm_alloc_returns_iff {k : Image} {p : Pmm} :
  (∃ n r, safe_pmm_alloc n k p = some r) ↔ (freeAbove k p).Nonempty
  := by
  constructor
  · rintro ⟨n, ⟨a, p'⟩, h⟩
    obtain ⟨i, hi, -⟩ := safe_pmm_alloc_spec h
    exact ⟨i, hi⟩
  · intro hfree
    use Pmm.total_blocks + 1
    exact safe_pmm_alloc_returns hfree (Nat.lt_succ_self _)

section

variable {n i : ℕ} {k : Image} {vm vm' : Vm} {current current' : ℕ}

/-- A round that finds no table takes one block, and the new table is empty. -/
theorem descend_absent (habsent : (entry vm.mem current i).testBit 0 = false)
    (h : map_page.descend n k vm current i = some (vm', current')) :
  (freeAbove k vm'.pmm).card + 1 = (freeAbove k vm.pmm).card ∧
    ∃ a, IsFrame a ∧ vm.pmm.used (a / Pmm.PAGE_SIZE) = false ∧
      vm'.pmm.used (a / Pmm.PAGE_SIZE) = true ∧ current' = P2V a ∧
      (current + 8 * i + 8 ≤ current' ∨ current' + 4096 ≤ current + 8 * i →
        ∀ j < 512, (entry vm'.mem current' j).testBit 0 = false)
  := by
  rw [map_page.descend, if_pos (by simp [habsent])] at h
  obtain ⟨⟨a, pmm'⟩, halloc, heq⟩ := Option.map_eq_some_iff.mp h
  obtain ⟨rfl, rfl⟩ := Prod.mk.inj heq
  obtain ⟨hframe, hfree, hused, -⟩ := safe_pmm_alloc_fresh halloc
  refine ⟨freeAbove_safe_pmm_alloc halloc, a, hframe, hfree, hused, rfl, ?_⟩
  intro hapart j hj
  dsimp only at hapart ⊢
  have hzero : entry ((zeroTable vm.mem (P2V a)).store (current + 8 * i) 8
      (a ||| PAGE_PRESENT ||| PAGE_WRITE)) (P2V a) j = 0 := by
    rw [entry, Memory.load_store_disjoint, ← entry, entry_zeroTable vm.mem hframe hframe hj,
      if_pos rfl]
    omega
  rw [hzero, Nat.zero_testBit]

end

/-! ### Three tables -/

/-- The PML4 and all else is zero: no table is there yet.  The PML4 lies outside the window of
physical memory. -/
def emptyVm (p : Pmm) : Vm := ⟨fun _ => 0, p, 0⟩

theorem entry_emptyVm (p : Pmm) (current i : ℕ) :
  entry (emptyVm p).mem current i = 0
  := by
  have hzero : ∀ j < 8, (emptyVm p).mem (current + 8 * i + j) = BitVec.ofNat 8 (0 / 256 ^ j) := by
    intro j _
    simp [emptyVm]
  rw [entry, Memory.load_of_digits hzero, Nat.zero_mod]

/-- Two frames are a page apart in the window. -/
theorem P2V_apart {a b : ℕ} (ha : IsFrame a) (hb : IsFrame b) (hne : a ≠ b) :
  P2V a + 4096 ≤ P2V b ∨ P2V b + 4096 ≤ P2V a
  := by
  rw [P2V_frame ha, P2V_frame hb]
  obtain ⟨i, -, rfl⟩ := ha
  obtain ⟨j, -, rfl⟩ := hb
  rw [Pmm.PAGE_SIZE] at *
  omega

/-- Where no table is there yet, `map_page` takes three blocks. -/
theorem map_page_empty {n v physical flags : ℕ} {k : Image} {p : Pmm} {vm' : Vm}
    (h : map_page n k (emptyVm p) v physical flags = some vm') :
  3 ≤ (freeAbove k p).card
  := by
  obtain ⟨⟨vm₁, t₁⟩, h₁, h⟩ := Option.bind_eq_some_iff.mp h
  obtain ⟨⟨vm₂, t₂⟩, h₂, h⟩ := Option.bind_eq_some_iff.mp h
  obtain ⟨⟨vm₃, t₃⟩, h₃, -⟩ := Option.bind_eq_some_iff.mp h
  have hindex : ∀ level, index v level < 512 := fun level => Nat.mod_lt _ (by decide)
  have habsent : (entry (emptyVm p).mem (emptyVm p).kernel_pml4 (index v 3)).testBit 0 = false := by
    rw [entry_emptyVm, Nat.zero_testBit]
  obtain ⟨hcard₁, a, ha, -, hused, ht₁, hempty₁⟩ := descend_absent habsent h₁
  have hlow : (emptyVm p).kernel_pml4 + 8 * index v 3 + 8 ≤ t₁ := by
    have := hindex 3
    have hpml4 : (emptyVm p).kernel_pml4 = 0 := rfl
    rw [ht₁, P2V_frame ha, KERNEL_OFFSET, hpml4]
    omega
  obtain ⟨hcard₂, b, hb, hfree, -, ht₂, hempty₂⟩ :=
    descend_absent (hempty₁ (Or.inl hlow) _ (hindex 2)) h₂
  have hne : a ≠ b := by
    rintro rfl
    rw [hused] at hfree
    cases hfree
  have hapart : t₁ + 8 * index v 2 + 8 ≤ t₂ ∨ t₂ + 4096 ≤ t₁ + 8 * index v 2 := by
    have := hindex 2
    have hpages := P2V_apart ha hb hne
    rw [← ht₁, ← ht₂] at hpages
    rcases hpages with hle | hle
    · left
      omega
    · right
      omega
  obtain ⟨hcard₃, -⟩ := descend_absent (hempty₂ hapart _ (hindex 1)) h₃
  have hpmm : (emptyVm p).pmm = p := rfl
  rw [hpmm] at hcard₁
  omega

/-- In a state of the bitmap `safe_pmm_alloc` returns exactly when a block above the kernel image
is free, and `map_page` returns, whatever the tables, the addresses and the flags, exactly when
three are. -/
theorem table_allocation_returns_iff (k : Image) (p : Pmm) :
  ((∃ n r, safe_pmm_alloc n k p = some r) ↔ (freeAbove k p).Nonempty) ∧
  ((∀ vm : Vm, vm.pmm = p → ∀ v physical flags,
    ∃ n vm', map_page n k vm v physical flags = some vm') ↔ 3 ≤ (freeAbove k p).card)
  := by
  use safe_pmm_alloc_returns_iff
  constructor
  · intro hall
    obtain ⟨n, vm', h⟩ := hall (emptyVm p) rfl 0 0 0
    exact map_page_empty h
  · rintro hcard vm rfl v physical flags
    obtain ⟨vm', h, -⟩ := map_page_returns v physical flags hcard (Nat.lt_succ_self _)
    exact ⟨_, vm', h⟩

/-- With every block used, `safe_pmm_alloc` goes on for ever, and so does `map_page` where no
table is there yet. -/
theorem table_allocation_loops :
  (∀ n, safe_pmm_alloc n ⟨KERNEL_OFFSET + 0x100000, KERNEL_OFFSET + 0x102000⟩
    ⟨fun _ => 0xFF, Pmm.total_blocks⟩ = none) ∧
  ∀ n, map_page n ⟨KERNEL_OFFSET + 0x100000, KERNEL_OFFSET + 0x102000⟩
    (emptyVm ⟨fun _ => 0xFF, Pmm.total_blocks⟩) 0x400000 0x200000 PAGE_WRITE = none
  := by
  have hnone : ∀ k, freeAbove k ⟨fun _ => 0xFF, Pmm.total_blocks⟩ = ∅ := by
    intro k
    apply Finset.filter_false_of_mem
    rintro i - ⟨-, hfree⟩
    rw [Pmm.used, Bitmap.test, Bitmap.bitOn_full (Nat.mod_lt _ (by decide))] at hfree
    cases hfree
  constructor
  · intro n
    by_contra hsome
    obtain ⟨r, hr⟩ := Option.ne_none_iff_exists'.mp hsome
    have hfree := safe_pmm_alloc_returns_iff.mp ⟨n, r, hr⟩
    rw [hnone] at hfree
    exact Finset.not_nonempty_empty hfree
  · intro n
    by_contra hsome
    obtain ⟨vm', hvm⟩ := Option.ne_none_iff_exists'.mp hsome
    have hcard := map_page_empty hvm
    rw [hnone] at hcard
    simp at hcard

end Paging
