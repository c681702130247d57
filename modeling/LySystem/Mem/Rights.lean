import LySystem.Mem.Translation
import Mathlib.Data.Nat.Bitwise

/-!
# The rights of a page

The processor lets an access through when the entries of all four levels of its walk allow it.
`map_page` puts the flags of the caller into the last entry only; the three above it are
`PAGE_PRESENT | PAGE_WRITE`, whoever made them.
-/

namespace Paging

def PAGE_USER : ℕ := 4

/-- What may be done with a page: write to it, and use it from user mode. -/
structure Rights where
  write : Bool
  user : Bool
deriving DecidableEq

/-- The bits R/W and U/S of an entry. -/
def entryRights (e : ℕ) : Rights := ⟨e.testBit 1, e.testBit 2⟩

/-- What two entries allow together. -/
def Rights.inter (r s : Rights) : Rights := ⟨r.write && s.write, r.user && s.user⟩

/-- The rights the walk gathers at its four levels, for a mapped page. -/
def rights (m : Memory) (pml4 virtual : ℕ) : Option Rights :=
  do
    let e₃ ← present m pml4 (index virtual 3)
    let e₂ ← present m (frameOf e₃) (index virtual 2)
    let e₁ ← present m (frameOf e₂) (index virtual 1)
    let e₀ ← present m (frameOf e₁) (index virtual 0)
    some ((((entryRights e₃).inter (entryRights e₂)).inter (entryRights e₁)).inter (entryRights e₀))

/-- The rights the flags of a call ask for. -/
def flagRights (flags : ℕ) : Rights := ⟨flags &&& PAGE_WRITE != 0, flags &&& PAGE_USER != 0⟩

theorem flagRights_eq (flags : ℕ) :
  flagRights flags = entryRights flags
  := by
  have hbit : ∀ i, (flags &&& 2 ^ i != 0) = flags.testBit i := by
    intro i
    rw [Nat.and_two_pow]
    cases flags.testBit i with
    | false => simp
    | true => simp
  rw [flagRights, entryRights, ← hbit 1, ← hbit 2]
  rfl

/-- Every table is writable and none is for user mode. -/
theorem entryRights_tableEntry {t : ℕ} (h : IsFrame t) :
  entryRights (tableEntry t) = ⟨true, false⟩
  := by
  rw [tableEntry_eq h, entryRights]
  obtain ⟨i, -, rfl⟩ := h
  simp only [Nat.testBit_eq_decide_div_mod_eq, Pmm.PAGE_SIZE, Rights.mk.injEq, decide_eq_true_eq,
    decide_eq_false_iff_not]
  omega

/-- The flags of a call are those of its leaf entry. -/
theorem entryRights_leafEntry (physical flags : ℕ) :
  entryRights (leafEntry physical flags) = flagRights flags
  := by
  have hmask : ∀ i < 12, (maskLow 12 physical).testBit i = false := by
    intro i hi
    rw [maskLow, Nat.testBit_mul_two_pow]
    simp only [Bool.and_eq_false_iff, decide_eq_false_iff_not]
    left
    omega
  rw [flagRights_eq, entryRights, entryRights]
  simp only [leafEntry, Nat.testBit_or, hmask 1 (by decide), hmask 2 (by decide), PAGE_PRESENT,
    Bool.false_or, show Nat.testBit 1 1 = false from rfl, show Nat.testBit 1 2 = false from rfl,
    Bool.or_false]

/-- The tables that lead to a table are there. -/
theorem TableTree.above {m : Memory} {pmm : Pmm} {pml4 : ℕ} {tables : List ℕ → Option ℕ}
    {M : Mapping} (h : TableTree m pmm pml4 tables M) {p : List ℕ} {i t : ℕ}
    (ht : tables (p ++ [i]) = some t) :
  ∃ s, tables p = some s
  := by
  cases hp : tables p with
  | none =>
      rw [h.closed p i hp] at ht
      cases ht
  | some s => use s

/-- Over a tree of tables the rights of a mapped page are the write bit of its leaf entry, and
no use from user mode. -/
theorem TableTree.rights_eq {m : Memory} {pmm : Pmm} {pml4 : ℕ} {tables : List ℕ → Option ℕ}
    {M : Mapping} (h : TableTree m pmm pml4 tables M) {v e : ℕ} (he : M (page v) = some e) :
  rights m pml4 v = some ⟨(entryRights e).write, false⟩
  := by
  have hpath : ∃ t₁, tables ([index v 3, index v 2] ++ [index v 1]) = some t₁ := by
    cases hnone : tables (path v) with
    | none =>
        rw [h.missing v hnone] at he
        cases he
    | some t₁ => exact ⟨t₁, hnone⟩
  obtain ⟨t₁, ht₁⟩ := hpath
  obtain ⟨t₂, ht₂⟩ := h.above (p := [index v 3, index v 2]) ht₁
  obtain ⟨t₃, ht₃⟩ := h.above (p := [index v 3]) ht₂
  have hentry₃ := h.upper [] pml4 (index v 3) h.root (by simp) (index_lt v 3)
  have hentry₂ := h.upper [index v 3] t₃ (index v 2) ht₃ (by simp) (index_lt v 2)
  have hentry₁ := h.upper [index v 3, index v 2] t₂ (index v 1) ht₂ (by simp) (index_lt v 1)
  rw [List.nil_append, ht₃, Option.map_some] at hentry₃
  rw [show [index v 3] ++ [index v 2] = [index v 3, index v 2] from rfl, ht₂,
    Option.map_some] at hentry₂
  rw [ht₁, Option.map_some] at hentry₁
  have hleaf := h.leaf v t₁ ht₁
  rw [he] at hleaf
  have hframe₃ := (h.frame _ _ ht₃).1
  have hframe₂ := (h.frame _ _ ht₂).1
  have hframe₁ := (h.frame _ _ ht₁).1
  simp only [rights, hentry₃, hentry₂, hentry₁, hleaf, (frameOf_tableEntry hframe₃).1,
    (frameOf_tableEntry hframe₂).1, (frameOf_tableEntry hframe₁).1, Option.bind_eq_bind,
    Option.bind_some, entryRights_tableEntry hframe₃, entryRights_tableEntry hframe₂,
    entryRights_tableEntry hframe₁, Rights.inter, Bool.true_and, Bool.false_and]

/-- The last of the calls that names the page of `v`. -/
def lastCall (calls : List Call) (v : ℕ) : Option Call :=
  calls.reverse.find? fun c => page c.virtual = page v

/-- What the calls leave at a page is decided by its last call, but for the right of user
mode. -/
theorem Maps.rights {n : ℕ} {k : Image} {p₀ : Pmm} {pml4 : ℕ} {vm vm' : Vm} {calls : List Call}
    (hmaps : Maps k vm calls vm') (halloc : safe_pmm_alloc n k p₀ = some (pml4, vm.pmm))
    (hptr : vm.kernel_pml4 = P2V pml4) (hzero : ∀ i < 512, entry vm.mem (P2V pml4) i = 0)
    (hcalls : ∀ c ∈ calls, c.physical < 2 ^ 52 ∧ c.flags < 4096) {v : ℕ} {c : Call}
    (hlast : lastCall calls v = some c) :
  Paging.rights vm'.mem pml4 v = some ⟨(flagRights c.flags).write, false⟩
  := by
  obtain ⟨hframe, -, hused, -⟩ := safe_pmm_alloc_fresh halloc
  obtain ⟨tables, htree⟩ := hmaps.tree (TableTree.initial hframe hused hzero) hptr hcalls
  have hentry : calls.foldl Mapping.after (fun _ => none) (page v)
      = some (leafEntry c.physical c.flags) := by
    rw [foldl_after, lastEntry, ← lastCall, hlast, Option.map_some]
  rw [htree.rights_eq hentry, entryRights_leafEntry]

/-- Whatever calls of `map_page` were made from a zeroed PML4, and in whichever order, the
rights of a page are the write right the flags of its last call ask for, and no right for user
mode: they are what the flags ask for exactly when `PAGE_USER` is not among them. -/
theorem page_rights {n : ℕ} {k : Image} {p₀ : Pmm} {pml4 : ℕ} {vm : Vm}
    (halloc : safe_pmm_alloc n k p₀ = some (pml4, vm.pmm)) (hptr : vm.kernel_pml4 = P2V pml4)
    (hzero : ∀ i < 512, entry vm.mem (P2V pml4) i = 0) (calls : List Call)
    (hcalls : ∀ c ∈ calls, c.physical < 2 ^ 52 ∧ c.flags < 4096) :
  (∀ vm', Maps k vm calls vm' → ∀ v c, lastCall calls v = some c →
    rights vm'.mem pml4 v = some ⟨(flagRights c.flags).write, false⟩ ∧
      (rights vm'.mem pml4 v = some (flagRights c.flags) ↔ c.flags &&& PAGE_USER = 0)) ∧
    (3 * calls.length ≤ (freeAbove k vm.pmm).card → ∃ vm', Maps k vm calls vm')
  := by
  constructor
  · intro vm' hmaps v c hlast
    have hrights := hmaps.rights halloc hptr hzero hcalls hlast
    use hrights
    rw [hrights, Option.some.injEq, flagRights, Rights.mk.injEq, eq_comm (a := false),
      bne_eq_false_iff_eq]
    simp only [true_and]
  · apply maps_of_free

/-! ### A machine -/

/-- A machine whose kernel image ends at the physical address 0, with block 0 used. -/
def tinyImage : Image := ⟨KERNEL_OFFSET, KERNEL_OFFSET⟩

def tinyPmm : Pmm := ⟨fun i => if i = 0 then 1 else 0, 1⟩

/-- The machine once block 1 has been taken for the PML4. -/
def tinyVm : Vm := ⟨fun _ => 0, (Pmm.pmm_alloc_block tinyPmm).2, P2V 4096⟩

theorem safe_pmm_alloc_tiny :
  safe_pmm_alloc 1 tinyImage tinyPmm = some (4096, tinyVm.pmm)
  := by
  have haddr : (Pmm.pmm_alloc_block tinyPmm).1 = 4096 := by decide +kernel
  have habove : ¬ (Pmm.pmm_alloc_block tinyPmm).1 ≤ tinyImage.phys_kernel_end := by decide +kernel
  apply Loop.iterate_stop 0
  rw [if_neg habove, tinyVm, ← haddr]

theorem freeAbove_tiny :
  6 ≤ (freeAbove tinyImage tinyVm.pmm).card
  := by
  have hsub : (Finset.range 8).filter (2 ≤ ·) ⊆ freeAbove tinyImage tinyVm.pmm := by
    intro i hi
    rw [mem_freeAbove]
    revert i
    decide +kernel
  apply Finset.card_le_card hsub

theorem entry_tiny :
  ∀ i < 512, entry tinyVm.mem (P2V 4096) i = 0
  := by
  decide +kernel

/-- A page mapped for user mode and then for the kernel only. -/
theorem page_rights_remapped :
  ∃ vm', Maps tinyImage tinyVm [⟨0x1000, 0x5000, 6⟩, ⟨0x1000, 0x5000, 0⟩] vm' ∧
    rights vm'.mem 4096 0x1000 = some (flagRights 0)
  := by
  have hrights := page_rights safe_pmm_alloc_tiny (rfl : tinyVm.kernel_pml4 = P2V 4096) entry_tiny
    [⟨0x1000, 0x5000, 6⟩, ⟨0x1000, 0x5000, 0⟩] (by decide)
  obtain ⟨vm', hmaps⟩ := hrights.2 freeAbove_tiny
  use vm', hmaps
  obtain ⟨-, hiff⟩ := hrights.1 vm' hmaps 0x1000 ⟨0x1000, 0x5000, 0⟩ rfl
  exact hiff.mpr (by decide)

/-- A page mapped with `PAGE_WRITE | PAGE_USER` cannot be used from user mode. -/
theorem user_page_denied :
  ∃ vm', Maps tinyImage tinyVm [⟨0x1000, 0x5000, PAGE_WRITE ||| PAGE_USER⟩] vm' ∧
    rights vm'.mem 4096 0x1000 = some ⟨true, false⟩ ∧
    flagRights (PAGE_WRITE ||| PAGE_USER) = ⟨true, true⟩
  := by
  obtain ⟨vm', hmaps⟩ := maps_of_free (k := tinyImage)
    [⟨0x1000, 0x5000, PAGE_WRITE ||| PAGE_USER⟩] tinyVm (le_trans (by decide) freeAbove_tiny)
  use vm', hmaps
  constructor
  · exact hmaps.rights safe_pmm_alloc_tiny rfl entry_tiny (by decide)
      (c := ⟨0x1000, 0x5000, PAGE_WRITE ||| PAGE_USER⟩) rfl
  · decide

end Paging
