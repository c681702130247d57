import LySystem.Mem.Translation
import Mathlib.Data.Finset.Card
import Mathlib.Data.Finset.Image

/-!
# The blocks the tables need

`map_page` takes a block for each table on the path of the address that is not there yet.  A
sequence of calls therefore needs no more blocks than its paths have prefixes, and calls for
consecutive pages share most of them.
-/

namespace Paging

/-! ### Missing tables -/

/-- The paths among `P` at which there is no table. -/
def missing (tables : List ℕ → Option ℕ) (P : Finset (List ℕ)) : Finset (List ℕ) :=
  P.filter fun p => tables p = none

/-- The tables form a tree, no block below the end of the kernel image is free, and above it
there is a block for each missing table and `extra` others. -/
structure Room (k : Image) (P : Finset (List ℕ)) (pml4 extra : ℕ) (vm : Vm)
    (tables : List ℕ → Option ℕ) (M : Mapping) : Prop where
  tree : TableTree vm.mem vm.pmm pml4 tables M
  root : vm.kernel_pml4 = P2V pml4
  below : ∀ j < Pmm.total_blocks, j * Pmm.PAGE_SIZE ≤ k.phys_kernel_end → vm.pmm.used j = true
  blocks : (missing tables P).card + extra ≤ (freeAbove k vm.pmm).card

/-- The tables below the PML4 on the path of an address. -/
def prefixes (v : ℕ) : List (List ℕ) :=
  [[index v 3], [index v 3, index v 2], [index v 3, index v 2, index v 1]]

section

variable {n pml4 extra : ℕ} {k : Image} {P : Finset (List ℕ)} {vm : Vm}
  {tables : List ℕ → Option ℕ} {M : Mapping}

theorem missing_update {p : List ℕ} (a : ℕ) (hp : p ∈ missing tables P) :
  (missing (Function.update tables p (some a)) P).card + 1 = (missing tables P).card
  := by
  have heq : missing (Function.update tables p (some a)) P = (missing tables P).erase p := by
    ext q
    rw [Finset.mem_erase, missing, missing, Finset.mem_filter, Finset.mem_filter]
    by_cases hq : q = p
    · simp [hq]
    · simp [hq]
  rw [heq]
  exact Finset.card_erase_add_one hp

/-- A round of `map_page` returns, and takes a block for a missing table only. -/
theorem Room.descend (h : Room k P pml4 extra vm tables M) (hn : Pmm.total_blocks < n)
    {p : List ℕ} {t i : ℕ} (ht : tables p = some t) (hp : p.length < 3) (hi : i < 512)
    (hP : p ++ [i] ∈ P) :
  ∃ vm' tables' t', map_page.descend n k vm (P2V t) i = some (vm', P2V t') ∧
    Room k P pml4 extra vm' tables' M ∧ tables' (p ++ [i]) = some t'
  := by
  have hupper := h.tree.upper p t i ht hp hi
  rw [map_page.descend]
  split_ifs with hbit
  · have hnone : tables (p ++ [i]) = none := by
      rw [present_eq_none.mpr (by simpa using hbit)] at hupper
      exact Option.map_eq_none_iff.mp hupper.symm
    have hmissing : p ++ [i] ∈ missing tables P := Finset.mem_filter.mpr ⟨hP, hnone⟩
    have hblocks := h.blocks
    have hone := Finset.card_pos.mpr ⟨_, hmissing⟩
    obtain ⟨⟨a, pmm'⟩, halloc⟩ := safe_pmm_alloc_returns
      (Finset.card_pos.mp (by omega : 0 < (freeAbove k vm.pmm).card)) hn
    obtain ⟨hframe, hfree, hused, hmono⟩ := safe_pmm_alloc_fresh halloc
    have hspent := freeAbove_safe_pmm_alloc halloc
    have hgained := missing_update a hmissing
    rw [halloc]
    refine ⟨_, Function.update tables (p ++ [i]) (some a), a, rfl, ?_, Function.update_self ..⟩
    constructor
    · exact h.tree.extend ht hp hi hnone hframe hfree hused hmono
    · exact h.root
    · intro j hj hle
      exact hmono j (h.below j hj hle)
    · dsimp only
      omega
  · have hsome := present_eq_some.mpr ⟨rfl, by simpa using hbit⟩
    rw [hsome] at hupper
    obtain ⟨t', ht', hentry⟩ := Option.map_eq_some_iff.mp hupper.symm
    refine ⟨vm, tables, t', ?_, h, ht'⟩
    rw [← hentry, (frameOf_tableEntry (h.tree.frame _ _ ht').1).2]

/-- With room for the tables on its path, a call of `map_page` returns. -/
theorem Room.map_page (h : Room k P pml4 extra vm tables M) (hn : Pmm.total_blocks < n)
    {v physical flags : ℕ} (hP : ∀ p ∈ prefixes v, p ∈ P) (hphys : physical < 2 ^ 64)
    (hflags : flags < 4096) :
  ∃ vm' tables' M', Paging.map_page n k vm v physical flags = some vm' ∧
    Room k P pml4 extra vm' tables' M'
  := by
  obtain ⟨vm₁, tables₁, t₁, hd₁, h₁, ht₁⟩ :=
    h.descend hn h.tree.root (by simp) (index_lt v 3) (hP _ (by simp [prefixes]))
  obtain ⟨vm₂, tables₂, t₂, hd₂, h₂, ht₂⟩ :=
    h₁.descend hn ht₁ (by simp) (index_lt v 2) (hP _ (by simp [prefixes]))
  obtain ⟨vm₃, tables₃, t₃, hd₃, h₃, ht₃⟩ :=
    h₂.descend hn ht₂ (by simp) (index_lt v 1) (hP _ (by simp [prefixes]))
  have hleaf := h₃.tree.store_leaf (v := v) ht₃ (leafEntry_lt hphys hflags)
    (leafEntry_present physical flags)
  rw [Paging.map_page, h.root, hd₁]
  simp only [Option.bind_eq_bind, Option.bind_some, hd₂, hd₃]
  exact ⟨_, tables₃, _, rfl, hleaf, h₃.root, h₃.below, h₃.blocks⟩

/-- One of the blocks beside those for tables is handed out: the lowest free one. -/
theorem Room.alloc (h : Room k P pml4 (extra + 1) vm tables M) :
  (Pmm.pmm_alloc_block vm.pmm).1 ≠ 0 ∧ (Pmm.pmm_alloc_block vm.pmm).1 < 2 ^ 64 ∧
    Room k P pml4 extra { vm with pmm := (Pmm.pmm_alloc_block vm.pmm).2 } tables M
  := by
  have hblocks := h.blocks
  rcases Pmm.pmm_alloc_block_cases vm.pmm with ⟨-, hall⟩ | ⟨i, hi, hfree, -, haddr, hused⟩
  · obtain ⟨j, hj⟩ := Finset.card_pos.mp (by omega : 0 < (freeAbove k vm.pmm).card)
    obtain ⟨hlt, -, hjfree⟩ := mem_freeAbove.mp hj
    rw [hall j hlt] at hjfree
    cases hjfree
  · have habove : k.phys_kernel_end < i * Pmm.PAGE_SIZE := by
      by_contra hle
      rw [h.below i hi (by omega)] at hfree
      cases hfree
    have hmono : ∀ j, vm.pmm.used j = true → (Pmm.pmm_alloc_block vm.pmm).2.used j = true := by
      intro j hj
      rw [hused, hj, Bool.or_true]
    have hsub : (freeAbove k vm.pmm).erase i ⊆ freeAbove k (Pmm.pmm_alloc_block vm.pmm).2 := by
      intro j hj
      obtain ⟨hne, hmem⟩ := Finset.mem_erase.mp hj
      obtain ⟨hlt, hgt, hjfree⟩ := mem_freeAbove.mp hmem
      rw [mem_freeAbove, hused, hjfree]
      exact ⟨hlt, hgt, by simp [hne]⟩
    have hcard := Finset.card_le_card hsub
    rw [Finset.card_erase_of_mem (mem_freeAbove.mpr ⟨hi, habove, hfree⟩)] at hcard
    refine ⟨by omega, ?_, h.tree.mono hmono, h.root, ?_, ?_⟩
    · rw [haddr, Pmm.PAGE_SIZE]
      rw [Pmm.total_blocks, Pmm.MAX_BLOCKS] at hi
      omega
    · intro j hj hle
      exact hmono j (h.below j hj hle)
    · dsimp only
      omega

end

/-! ### Counting -/

/-- The tables below the PML4 for `count` consecutive pages from that of `a`. -/
def tablesFor (a count : ℕ) : Finset (List ℕ) :=
  ((Finset.range (count / 2 ^ 9 + 2)).image fun s => path (2 ^ 21 * (a / 2 ^ 21 + s))) ∪
  ((Finset.range (count / 2 ^ 18 + 2)).image fun s =>
    [index (2 ^ 30 * (a / 2 ^ 30 + s)) 3, index (2 ^ 30 * (a / 2 ^ 30 + s)) 2]) ∪
  (Finset.range (count / 2 ^ 27 + 2)).image fun s => [index (2 ^ 39 * (a / 2 ^ 39 + s)) 3]

theorem card_tablesFor (a count : ℕ) :
  (tablesFor a count).card ≤ count / 2 ^ 9 + count / 2 ^ 18 + count / 2 ^ 27 + 6
  := by
  have himage : ∀ (s : ℕ) (f : ℕ → List ℕ), ((Finset.range s).image f).card ≤ s := by
    intro s f
    apply Finset.card_image_le.trans
    rw [Finset.card_range]
  calc (tablesFor a count).card
      ≤ _ + _ := Finset.card_union_le _ _
    _ ≤ _ + _ + _ := Nat.add_le_add_right (Finset.card_union_le _ _) _
    _ ≤ (count / 2 ^ 9 + 2) + (count / 2 ^ 18 + 2) + (count / 2 ^ 27 + 2) :=
        Nat.add_le_add (Nat.add_le_add (himage _ _) (himage _ _)) (himage _ _)
    _ = count / 2 ^ 9 + count / 2 ^ 18 + count / 2 ^ 27 + 6 := by omega

/-- The indices see the low 48 bits of an address. -/
theorem prefixes_congr {v w : ℕ} (h : v % 2 ^ 48 = w % 2 ^ 48) :
  prefixes v = prefixes w
  := by
  simp only [prefixes, index, List.cons.injEq, and_true]
  omega

theorem prefixes_subset {a count j : ℕ} (hj : j < count) :
  ∀ p ∈ prefixes (a + 4096 * j), p ∈ tablesFor a count
  := by
  intro p hp
  rw [tablesFor, Finset.mem_union, Finset.mem_union, Finset.mem_image, Finset.mem_image,
    Finset.mem_image]
  simp only [prefixes, List.mem_cons, List.not_mem_nil, or_false] at hp
  rcases hp with rfl | rfl | rfl
  · right
    refine ⟨(a + 4096 * j) / 2 ^ 39 - a / 2 ^ 39, Finset.mem_range.mpr (by omega), ?_⟩
    simp only [index, List.cons.injEq, and_true]
    omega
  · left; right
    refine ⟨(a + 4096 * j) / 2 ^ 30 - a / 2 ^ 30, Finset.mem_range.mpr (by omega), ?_⟩
    simp only [index, List.cons.injEq, and_true]
    omega
  · left; left
    refine ⟨(a + 4096 * j) / 2 ^ 21 - a / 2 ^ 21, Finset.mem_range.mpr (by omega), ?_⟩
    simp only [path, index, List.cons.injEq, and_true]
    omega

end Paging
