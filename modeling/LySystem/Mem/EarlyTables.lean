import LySystem.Mem.AddressSpace

/-!
# From the first tables to those of the kernel

`boot/main.asm` maps the first GiB with 512 pages of 2 MiB, at the address 0 and in the kernel's
window; `paging_init` makes its tables through that window and then loads `cr3`.  The processor
reads the tables in the physical memory, and stops at an entry that maps a large page.
-/

namespace Paging

open Boot

/-! ### The first tables -/

/-- The three tables are consecutive pages of `.bss`. -/
def p3_table (p4_table : ℕ) : ℕ := p4_table + 4096

@[inherit_doc p3_table] def p2_table (p4_table : ℕ) : ℕ := p4_table + 4096 + 4096

/-- A round of the loop `.map_p2_table`. -/
def start.map_p2_table (p4_table : ℕ) (m : Memory) (ecx : ℕ) : Memory :=
  m.store (p2_table p4_table + ecx * 8) 4 (u32 (0x200000 * ecx) ||| 0b10000011)

/-- The physical memory when `start` loads `cr3` with `p4_table`; stores are of 32 bits. -/
def start (p4_table : ℕ) (m : Memory) : Memory :=
  let eax := p3_table p4_table ||| 0b11
  let m := m.store p4_table 4 eax
  let m := m.store (p4_table + 511 * 8) 4 eax
  let eax := p2_table p4_table ||| 0b11
  let m := m.store (p3_table p4_table) 4 eax
  let m := m.store (p3_table p4_table + 510 * 8) 4 eax
  (List.range 512).foldl (start.map_p2_table p4_table) m

/-! ### What the processor reads -/

/-- The bit of an entry that maps a large page. -/
def PAGE_SIZE_BIT : ℕ := 7

/-- The entry `index` of the table at the physical address `table`, when it is present. -/
def hardware.present (m : Memory) (table index : ℕ) : Option ℕ :=
  let e := entry m table index
  if e.testBit 0 then some e else none

/-- The translation of the processor: from the physical memory, with pages of 1 GiB, 2 MiB and
4 KiB. -/
def hardware (m : Memory) (cr3 virtual : ℕ) : Option ℕ :=
  do
    let e₃ ← hardware.present m cr3 (index virtual 3)
    let e₂ ← hardware.present m (frameOf e₃) (index virtual 2)
    if e₂.testBit PAGE_SIZE_BIT then
      some (e₂ / 2 ^ 30 % 2 ^ 22 * 2 ^ 30 + virtual % 2 ^ 30)
    else
      let e₁ ← hardware.present m (frameOf e₂) (index virtual 1)
      if e₁.testBit PAGE_SIZE_BIT then
        some (e₁ / 2 ^ 21 % 2 ^ 31 * 2 ^ 21 + virtual % 2 ^ 21)
      else
        let e₀ ← hardware.present m (frameOf e₁) (index virtual 0)
        some (frameOf e₀ + virtual % 2 ^ 12)

/-! ### The first GiB -/

/-- A load reads the low bytes, and then the others. -/
theorem load_add (m : Memory) (a n k : ℕ) :
  m.load a (n + k) = m.load a n + 256 ^ n * m.load (a + n) k
  := by
  induction n generalizing a with
  | zero => simp [Memory.load]
  | succ n ih =>
      rw [Nat.succ_add, Memory.load, ih, Memory.load, pow_succ', Nat.add_assoc a 1 n,
        Nat.add_comm 1 n]
      ring

/-- A store of 32 bits into an entry whose upper half is zero. -/
theorem load_store_low (m : Memory) {a v : ℕ} (hv : v < 2 ^ 32) (hzero : m.load (a + 4) 4 = 0) :
  (m.store a 4 v).load a 8 = v
  := by
  rw [load_add _ a 4 4, Memory.load_store, Memory.load_store_disjoint _ _ (Or.inr le_rfl), hzero]
  omega

/-- The entry that maps the large page number `i`. -/
def largeEntry (i : ℕ) : ℕ := 0x200000 * i + 0x83

theorem largeEntry_eq {i : ℕ} (hi : i < 512) :
  u32 (0x200000 * i) ||| 0b10000011 = largeEntry i
  := by
  have hor : i * 2 ^ 21 ||| 0x83 = i * 2 ^ 21 + 0x83 := by
    rw [← Nat.shiftLeft_eq, Nat.shiftLeft_add_eq_or_of_lt (by decide)]
  rw [u32_of_lt (by omega), largeEntry, Nat.mul_comm]
  apply hor

/-- The first tables, as they lie in the physical memory. -/
structure FirstTables (m : Memory) (p4_table : ℕ) : Prop where
  p4 : ∀ i < 512, entry m p4_table i =
    if i = 0 ∨ i = 511 then tableEntry (p3_table p4_table) else 0
  p3 : ∀ i < 512, entry m (p3_table p4_table) i =
    if i = 0 ∨ i = 510 then tableEntry (p2_table p4_table) else 0
  p2 : ∀ i < 512, entry m (p2_table p4_table) i = largeEntry i

/-- What the first rounds of the loop leave. -/
theorem map_p2_table_prefix {p4_table : ℕ} {m : Memory}
    (hzero : ∀ i < 4096, m (p2_table p4_table + i) = 0) {n : ℕ} (hn : n ≤ 512) :
  (∀ i < n, entry ((List.range n).foldl (start.map_p2_table p4_table) m) (p2_table p4_table) i
      = largeEntry i) ∧
    ∀ x, x < p2_table p4_table ∨ p2_table p4_table + 8 * n ≤ x →
      (List.range n).foldl (start.map_p2_table p4_table) m x = m x
  := by
  induction n with
  | zero =>
      constructor
      · intro i hi
        omega
      · intro x _
        rfl
  | succ n ih =>
      obtain ⟨hdone, hrest⟩ := ih (by omega)
      rw [List.range_succ, List.foldl_append, List.foldl_cons, List.foldl_nil,
        start.map_p2_table, largeEntry_eq (by omega), Nat.mul_comm n 8]
      constructor
      · intro i hi
        rcases Nat.lt_succ_iff_lt_or_eq.mp hi with hlt | rfl
        · rw [entry, Memory.load_store_disjoint _ _ (by omega)]
          apply hdone i hlt
        · apply load_store_low
          · rw [largeEntry]
            omega
          · rw [← Memory.load_fill_zero m (a := p2_table p4_table + 8 * i + 4) (n := 4)
              ⟨le_rfl, le_rfl⟩]
            apply Memory.load_congr
            intro j hj
            rw [hrest _ (by omega), Nat.add_assoc, Nat.add_assoc, hzero _ (by omega), Memory.fill,
              ← Nat.add_assoc, ← Nat.add_assoc, Memory.splice_inside _ _ hj]
      · intro x hx
        rw [Memory.store_outside _ _ (by omega)]
        apply hrest x (by omega)

/-- Two equal entries made in a page of zeros. -/
theorem two_entries {m : Memory} {t e a b : ℕ} (hzero : ∀ i < 4096, m (t + i) = 0)
    (he : e < 2 ^ 32) (ha : a < 512) (hb : b < 512) {i : ℕ} (hi : i < 512) :
  entry ((m.store (t + a * 8) 4 e).store (t + b * 8) 4 e) t i = if i = a ∨ i = b then e else 0
  := by
  have hload : ∀ n k, n + k ≤ 4096 → m.load (t + n) k = 0 := by
    intro n k hnk
    rw [← Memory.load_fill_zero m (a := t + n) (n := k) (b := t + n) ⟨le_rfl, le_rfl⟩]
    apply Memory.load_congr
    intro j hj
    rw [Memory.fill, Memory.splice_inside _ _ hj, Nat.add_assoc, hzero _ (by omega)]
  have hupper : ∀ j < 512, (m.store (t + a * 8) 4 e).load (t + j * 8 + 4) 4 = 0 := by
    intro j hj
    rw [Memory.load_store_disjoint _ _ (by omega), Nat.add_assoc, hload _ _ (by omega)]
  rw [entry, Nat.mul_comm 8]
  by_cases hib : i = b
  · subst hib
    rw [if_pos (Or.inr rfl), load_store_low _ he (hupper i hi)]
  rw [Memory.load_store_disjoint _ _ (by omega)]
  by_cases hia : i = a
  · subst hia
    rw [if_pos (Or.inl rfl), load_store_low _ he]
    rw [Nat.add_assoc, hload _ _ (by omega)]
  · rw [Memory.load_store_disjoint _ _ (by omega), hload _ _ (by omega), if_neg (by omega)]

section

variable {p4_table : ℕ}

/-- `start` writes its three tables and nothing else. -/
theorem start_outside (m : Memory) {x : ℕ} (hx : x < p4_table ∨ p4_table + 3 * 4096 ≤ x) :
  start p4_table m x = m x
  := by
  have hfold : ∀ n ≤ 512, ∀ m' : Memory,
      (List.range n).foldl (start.map_p2_table p4_table) m' x = m' x := by
    intro n hn m'
    induction n with
    | zero => rfl
    | succ n ih =>
        rw [List.range_succ, List.foldl_append, List.foldl_cons, List.foldl_nil,
          start.map_p2_table, p2_table, Memory.store_outside _ _ (by omega), ih (by omega)]
  rw [start, hfold 512 le_rfl, p3_table, Memory.store_outside _ _ (by omega),
    Memory.store_outside _ _ (by omega), Memory.store_outside _ _ (by omega),
    Memory.store_outside _ _ (by omega)]

/-- In a `.bss` of zeros, `start` makes the first tables. -/
theorem start_first {m : Memory} (hzero : ∀ i < 3 * 4096, m (p4_table + i) = 0)
    (hp3 : IsFrame (p3_table p4_table)) (hp2 : IsFrame (p2_table p4_table)) :
  FirstTables (start p4_table m) p4_table
  := by
  have he₃ : p3_table p4_table ||| 0b11 = tableEntry (p3_table p4_table) := by
    rw [tableEntry, Nat.or_assoc]
    rfl
  have he₂ : p2_table p4_table ||| 0b11 = tableEntry (p2_table p4_table) := by
    rw [tableEntry, Nat.or_assoc]
    rfl
  have hsmall : ∀ {t}, IsFrame t → tableEntry t < 2 ^ 32 := by
    rintro t ht
    rw [tableEntry_eq ht]
    obtain ⟨i, hi, rfl⟩ := ht
    simp only [Pmm.total_blocks, Pmm.MAX_BLOCKS, Pmm.PAGE_SIZE] at *
    omega
  obtain ⟨m₁, hm₁⟩ : ∃ m₁, m₁ =
    (m.store (p4_table + 0 * 8) 4 (tableEntry (p3_table p4_table))).store
      (p4_table + 511 * 8) 4 (tableEntry (p3_table p4_table)) := ⟨_, rfl⟩
  obtain ⟨m₂, hm₂⟩ : ∃ m₂, m₂ =
    (m₁.store (p3_table p4_table + 0 * 8) 4 (tableEntry (p2_table p4_table))).store
      (p3_table p4_table + 510 * 8) 4 (tableEntry (p2_table p4_table)) := ⟨_, rfl⟩
  have hstart : start p4_table m = (List.range 512).foldl (start.map_p2_table p4_table) m₂ := by
    rw [start, he₃, he₂, hm₂, hm₁]
    rfl
  have hzero₁ : ∀ i, 4096 ≤ i → i < 3 * 4096 → m₁ (p4_table + i) = 0 := by
    intro i hlo hi
    rw [hm₁, Memory.store_outside _ _ (by omega), Memory.store_outside _ _ (by omega), hzero i hi]
  have hzero₂ : ∀ i < 4096, m₂ (p2_table p4_table + i) = 0 := by
    intro i hi
    rw [hm₂, p3_table, Memory.store_outside _ _ (by rw [p2_table]; omega),
      Memory.store_outside _ _ (by rw [p2_table]; omega), p2_table, Nat.add_assoc, Nat.add_assoc,
      hzero₁ _ (by omega) (by omega)]
  obtain ⟨hpages, hrest⟩ := map_p2_table_prefix hzero₂ (le_refl 512)
  have hkept : ∀ t i, t + 4096 ≤ p2_table p4_table → i < 512 →
      entry (start p4_table m) t i = entry m₂ t i := by
    intro t i ht hi
    rw [hstart]
    apply Memory.load_congr
    intro j hj
    rw [hrest _ (by omega)]
  constructor
  · intro i hi
    rw [hkept _ _ (by rw [p2_table]; omega) hi,
      ← two_entries (m := m) (fun j hj => hzero j (by omega)) (hsmall hp3) (by decide : 0 < 512)
        (by decide : 511 < 512) hi,
      ← hm₁, hm₂, p3_table, entry, Memory.load_store_disjoint _ _ (by omega),
      Memory.load_store_disjoint _ _ (by omega)]
    rfl
  · intro i hi
    rw [hkept _ _ (by rw [p2_table, p3_table]) hi, hm₂]
    apply two_entries _ (hsmall hp2) (by decide) (by decide) hi
    intro j hj
    rw [p3_table, Nat.add_assoc, hzero₁ _ (by omega) (by omega)]
  · rw [hstart]
    exact hpages

/-- The first tables depend on their three pages only. -/
theorem FirstTables.congr {m m' : Memory} (h : FirstTables m p4_table)
    (hm : ∀ i < 3 * 4096, m' (p4_table + i) = m (p4_table + i)) :
  FirstTables m' p4_table
  := by
  have hentry : ∀ n i, n ≤ 2 * 4096 → i < 512 →
      entry m' (p4_table + n) i = entry m (p4_table + n) i := by
    intro n i hn hi
    apply Memory.load_congr
    intro j hj
    rw [Nat.add_assoc, Nat.add_assoc, hm _ (by omega)]
  constructor
  · intro i hi
    rw [← h.p4 i hi]
    exact hentry 0 i (by omega) hi
  · intro i hi
    rw [← h.p3 i hi]
    exact hentry 4096 i (by omega) hi
  · intro i hi
    rw [← h.p2 i hi]
    exact hentry (2 * 4096) i le_rfl hi

/-- The first tables map the first GiB at the two halves of the address space, at each of them at
the beginning and at 510 GiB. -/
theorem FirstTables.hardware_eq {m : Memory} (h : FirstTables m p4_table)
    (hp3 : IsFrame (p3_table p4_table)) (hp2 : IsFrame (p2_table p4_table)) (v : ℕ) :
  hardware m p4_table v =
    if (index v 3 = 0 ∨ index v 3 = 511) ∧ (index v 2 = 0 ∨ index v 2 = 510) then some (v % 2 ^ 30)
    else none
  := by
  have hread : ∀ {t i}, hardware.present m t i
      = if (entry m t i).testBit 0 then some (entry m t i) else none := rfl
  rw [hardware, hread, h.p4 _ (index_lt v 3)]
  by_cases h₃ : index v 3 = 0 ∨ index v 3 = 511
  swap
  · simp [h₃]
  rw [if_pos h₃, if_pos (tableEntry_present hp3), Option.bind_eq_bind, Option.bind_some,
    (frameOf_tableEntry hp3).1, hread, h.p3 _ (index_lt v 2)]
  by_cases h₂ : index v 2 = 0 ∨ index v 2 = 510
  swap
  · simp [h₂]
  have hsmall : (tableEntry (p2_table p4_table)).testBit PAGE_SIZE_BIT = false := by
    rw [tableEntry_eq hp2, PAGE_SIZE_BIT, Nat.testBit_eq_decide_div_mod_eq]
    obtain ⟨i, -, hi⟩ := hp2
    rw [hi, Pmm.PAGE_SIZE, decide_eq_false_iff_not]
    omega
  have hone : index v 1 < 512 := index_lt v 1
  have hpresent : (largeEntry (index v 1)).testBit 0 = true := by
    rw [largeEntry, Nat.testBit_zero, decide_eq_true_iff]
    omega
  have hlarge : (largeEntry (index v 1)).testBit PAGE_SIZE_BIT = true := by
    rw [largeEntry, PAGE_SIZE_BIT, Nat.testBit_eq_decide_div_mod_eq, decide_eq_true_iff]
    omega
  have hframe : largeEntry (index v 1) / 2 ^ 21 % 2 ^ 31 * 2 ^ 21 + v % 2 ^ 21 = v % 2 ^ 30 := by
    rw [largeEntry, index]
    omega
  rw [if_pos h₂, if_pos (tableEntry_present hp2), Option.bind_some, if_neg (by simp [hsmall]),
    (frameOf_tableEntry hp2).1, hread, h.p2 _ hone, if_pos hpresent,
    Option.bind_some, if_pos hlarge, hframe, if_pos ⟨h₃, h₂⟩]

end

/-! ### What `paging_init` leaves alone -/

/-- The physical memory, as the kernel's window shows it. -/
def physical (m : Memory) : Memory := fun x => m (P2V x)

/-- The physical address `x` lies in the kernel image, or in a block that is in use. -/
def Taken (k : Image) (p : Pmm) (x : ℕ) : Prop :=
  x ≤ k.phys_kernel_end ∨ p.used (x / Pmm.PAGE_SIZE) = true

/-- The tables lie in blocks that were free and are above the kernel image, and the rest of the
physical memory is as it was. -/
structure Apart (k : Image) (p₀ : Pmm) (m₀ : Memory) (vm : Vm) (tables : List ℕ → Option ℕ) :
    Prop where
  fresh : ∀ p t, tables p = some t → k.phys_kernel_end < t ∧ p₀.used (t / Pmm.PAGE_SIZE) = false
  mono : ∀ j, p₀.used j = true → vm.pmm.used j = true
  kept : ∀ x < 2 ^ 64, Taken k p₀ x → physical vm.mem x = physical m₀ x

section

variable {n pml4 : ℕ} {k : Image} {p₀ : Pmm} {m₀ : Memory} {vm vm' : Vm}
  {tables : List ℕ → Option ℕ} {M : Mapping}

/-- A block that `safe_pmm_alloc` hands out was free all the time. -/
theorem Apart.alloc (ha : Apart k p₀ m₀ vm tables) {a : ℕ} {pmm' : Pmm}
    (halloc : safe_pmm_alloc n k vm.pmm = some (a, pmm')) :
  k.phys_kernel_end < a ∧ p₀.used (a / Pmm.PAGE_SIZE) = false
  := by
  obtain ⟨i, hi, rfl, -, -, -⟩ := safe_pmm_alloc_spec halloc
  obtain ⟨-, habove, hfree⟩ := mem_freeAbove.mp hi
  have hdiv : i * Pmm.PAGE_SIZE / Pmm.PAGE_SIZE = i := Nat.mul_div_cancel _ (by decide)
  use habove
  rw [hdiv]
  by_contra hused
  rw [ha.mono i (by simpa using hused)] at hfree
  cases hfree

/-- A byte that is taken lies in no such table. -/
theorem P2V_outside {t x : ℕ} (hframe : IsFrame t)
    (ht : k.phys_kernel_end < t ∧ p₀.used (t / Pmm.PAGE_SIZE) = false) (hx : x < 2 ^ 64)
    (htaken : Taken k p₀ x) :
  P2V x < P2V t ∨ P2V t + 4096 ≤ P2V x
  := by
  obtain ⟨habove, hfree⟩ := ht
  by_contra hin
  rw [P2V_frame hframe, P2V, u64, KERNEL_OFFSET] at hin
  obtain ⟨i, hi, rfl⟩ := hframe
  rw [Pmm.total_blocks, Pmm.MAX_BLOCKS] at hi
  rw [Taken] at htaken
  rw [Pmm.PAGE_SIZE] at *
  rcases htaken with hle | hused
  · omega
  · rw [show x / 4096 = i * 4096 / 4096 by omega, hfree] at hused
    cases hused

/-- A write into a table leaves what is taken as it was. -/
theorem Apart.store (ha : Apart k p₀ m₀ vm tables) {t i : ℕ} (e : ℕ) (hframe : IsFrame t)
    (ht : k.phys_kernel_end < t ∧ p₀.used (t / Pmm.PAGE_SIZE) = false) (hi : i < 512) {x : ℕ}
    (hx : x < 2 ^ 64) (htaken : Taken k p₀ x) :
  physical (vm.mem.store (P2V t + 8 * i) 8 e) x = physical m₀ x
  := by
  have hout := P2V_outside hframe ht hx htaken
  rw [physical, Memory.store_outside _ _ (by omega)]
  apply ha.kept x hx htaken

theorem Apart.descend (ha : Apart k p₀ m₀ vm tables) (h : TableTree vm.mem vm.pmm pml4 tables M)
    {p : List ℕ} {t i current : ℕ} (ht : tables p = some t) (hp : p.length < 3) (hi : i < 512)
    (hd : map_page.descend n k vm (P2V t) i = some (vm', current)) :
  ∃ tables' t', TableTree vm'.mem vm'.pmm pml4 tables' M ∧ Apart k p₀ m₀ vm' tables' ∧
    tables' (p ++ [i]) = some t' ∧ current = P2V t' ∧ vm'.kernel_pml4 = vm.kernel_pml4
  := by
  have hupper := h.upper p t i ht hp hi
  rw [map_page.descend] at hd
  split_ifs at hd with hbit
  · obtain ⟨⟨a, pmm'⟩, halloc, heq⟩ := Option.map_eq_some_iff.mp hd
    obtain ⟨rfl, rfl⟩ := Prod.mk.inj heq
    have hnone : tables (p ++ [i]) = none := by
      rw [present_eq_none.mpr (by simpa using hbit)] at hupper
      exact Option.map_eq_none_iff.mp hupper.symm
    obtain ⟨hframe, hfree, hused, hmono⟩ := safe_pmm_alloc_fresh halloc
    have hfresh := ha.alloc halloc
    refine ⟨Function.update tables (p ++ [i]) (some a), a,
      h.extend ht hp hi hnone hframe hfree hused hmono, ?_, Function.update_self .., rfl, rfl⟩
    constructor
    · intro q s hs
      by_cases hq : q = p ++ [i]
      · subst hq
        rw [Function.update_self, Option.some.injEq] at hs
        subst hs
        exact hfresh
      · rw [Function.update_of_ne hq] at hs
        apply ha.fresh q s hs
    · intro j hj
      apply hmono j (ha.mono j hj)
    · intro x hx htaken
      have hzero : physical (zeroTable vm.mem (P2V a)) x = physical m₀ x := by
        have hout := P2V_outside hframe hfresh hx htaken
        rw [physical, zeroTable_eq, Memory.splice_outside _ _ hout]
        apply ha.kept x hx htaken
      have hout := P2V_outside (h.frame p t ht).1 (ha.fresh p t ht) hx htaken
      rw [← hzero, physical, physical]
      dsimp only
      rw [Memory.store_outside _ _ (by omega)]
  · obtain ⟨rfl, rfl⟩ := Prod.mk.inj (Option.some.inj hd)
    have hpresent : present vm.mem t i = some (entry vm.mem (P2V t) i) := by
      rw [present_eq_some]
      use rfl
      simpa using hbit
    rw [hpresent] at hupper
    obtain ⟨s, hs, hentry⟩ := Option.map_eq_some_iff.mp hupper.symm
    refine ⟨tables, s, h, ha, hs, ?_, rfl⟩
    rw [← hentry, (frameOf_tableEntry (h.frame _ s hs).1).2]

theorem Apart.map_page (ha : Apart k p₀ m₀ vm tables) (h : TableTree vm.mem vm.pmm pml4 tables M)
    (hptr : vm.kernel_pml4 = P2V pml4) {v phys flags : ℕ} (hp : phys < 2 ^ 52)
    (hf : flags < 4096) (hmap : Paging.map_page n k vm v phys flags = some vm') :
  ∃ tables' M', TableTree vm'.mem vm'.pmm pml4 tables' M' ∧ Apart k p₀ m₀ vm' tables' ∧
    vm'.kernel_pml4 = P2V pml4
  := by
  simp only [Paging.map_page, Option.bind_eq_bind, Option.bind_eq_some_iff, Option.some.injEq]
    at hmap
  obtain ⟨⟨vm₁, t₁⟩, hd₁, ⟨vm₂, t₂⟩, hd₂, ⟨vm₃, t₃⟩, hd₃, rfl⟩ := hmap
  rw [hptr] at hd₁
  obtain ⟨tables₁, f₁, h₁, ha₁, hf₁, ht₁, hk₁⟩ :=
    ha.descend h h.root (by simp) (index_lt v 3) hd₁
  rw [ht₁] at hd₂
  obtain ⟨tables₂, f₂, h₂, ha₂, hf₂, ht₂, hk₂⟩ :=
    ha₁.descend h₁ hf₁ (by simp) (index_lt v 2) hd₂
  rw [ht₂] at hd₃
  obtain ⟨tables₃, f₃, h₃, ha₃, hf₃, ht₃, hk₃⟩ :=
    ha₂.descend h₂ hf₂ (by simp) (index_lt v 1) hd₃
  rw [ht₃]
  refine ⟨tables₃, _, h₃.store_leaf hf₃ (leafEntry_lt (by omega) hf) (leafEntry_present phys flags),
    ⟨ha₃.fresh, ha₃.mono, ?_⟩, ?_⟩
  · intro x hx htaken
    apply ha₃.store _ (h₃.frame _ _ hf₃).1 (ha₃.fresh _ _ hf₃) (index_lt v 0) hx htaken
  · dsimp only
    rw [hk₃, hk₂, hk₁, hptr]

/-- The calls keep what is taken as it was. -/
theorem Apart.maps {calls : List Call} (hm : Maps k vm calls vm')
    (ha : Apart k p₀ m₀ vm tables) (h : TableTree vm.mem vm.pmm pml4 tables M)
    (hptr : vm.kernel_pml4 = P2V pml4)
    (hcalls : ∀ c ∈ calls, c.physical < 2 ^ 52 ∧ c.flags < 4096) :
  ∃ tables' M', TableTree vm'.mem vm'.pmm pml4 tables' M' ∧ Apart k p₀ m₀ vm' tables'
  := by
  induction hm generalizing tables M with
  | nil vm => exact ⟨tables, M, h, ha⟩
  | call hmap _ ih =>
      obtain ⟨hp, hf⟩ := hcalls _ List.mem_cons_self
      obtain ⟨tables', M', h', ha', hptr'⟩ := ha.map_page h hptr hp hf hmap
      apply ih ha' h' hptr'
      intro c hc
      apply hcalls c (List.mem_cons_of_mem _ hc)
  | taken hmono _ ih =>
      apply ih ⟨ha.fresh, fun j hj => hmono j (ha.mono j hj), ha.kept⟩ (h.mono hmono) hptr hcalls

end

/-! ### The switch -/

/-- Over a tree of tables the processor's walk ends in pages of 4 KiB. -/
theorem TableTree.hardware_eq {m : Memory} {pmm : Pmm} {pml4 : ℕ} {tables : List ℕ → Option ℕ}
    {M : Mapping} (h : TableTree m pmm pml4 tables M) (v : ℕ) :
  hardware (physical m) pml4 v = translate m pml4 v
  := by
  have hread : ∀ p t level, tables p = some t →
      hardware.present (physical m) t (index v level) = present m t (index v level) := by
    intro p t level ht
    have hframe := (h.frame p t ht).1
    have hi := index_lt v level
    have hentry : entry (physical m) t (index v level) = entry m (P2V t) (index v level) := by
      apply Memory.load_congr
      intro j hj
      rw [physical, P2V_frame hframe, P2V, u64_of_lt, KERNEL_OFFSET]
      · congr 1
        omega
      · obtain ⟨i, hlt, rfl⟩ := hframe
        rw [Pmm.total_blocks, Pmm.MAX_BLOCKS] at hlt
        rw [Pmm.PAGE_SIZE, KERNEL_OFFSET]
        omega
    rw [hardware.present, hentry, present]
  have step : ∀ p t level, tables p = some t → p.length < 3 →
      hardware.present (physical m) t (index v level)
          = (tables (p ++ [index v level])).map tableEntry ∧
        present m t (index v level) = (tables (p ++ [index v level])).map tableEntry := by
    intro p t level ht hp
    rw [hread p t level ht, h.upper p t _ ht hp (index_lt v level)]
    use rfl
  have hsmall : ∀ p t, tables p = some t → (tableEntry t).testBit PAGE_SIZE_BIT = false := by
    intro p t ht
    have hframe := (h.frame p t ht).1
    rw [tableEntry_eq hframe, PAGE_SIZE_BIT, Nat.testBit_eq_decide_div_mod_eq]
    obtain ⟨i, -, rfl⟩ := hframe
    rw [Pmm.PAGE_SIZE, decide_eq_false_iff_not]
    omega
  obtain ⟨hfirst, hfirst'⟩ := step [] pml4 3 h.root (by simp)
  rw [hardware, translate, walk, hfirst, hfirst']
  cases h₃ : tables ([] ++ [index v 3]) with
  | none => rfl
  | some t₃ =>
      obtain ⟨hsecond, hsecond'⟩ := step _ t₃ 2 h₃ (by simp)
      simp only [Option.map_some, Option.bind_eq_bind, Option.bind_some,
        (frameOf_tableEntry (h.frame _ _ h₃).1).1, hsecond, hsecond']
      cases h₂ : tables ([] ++ [index v 3] ++ [index v 2]) with
      | none => rfl
      | some t₂ =>
          obtain ⟨hthird, hthird'⟩ := step _ t₂ 1 h₂ (by simp)
          simp only [Option.map_some, Option.bind_some, hsmall _ _ h₂, Bool.false_eq_true, if_false,
            (frameOf_tableEntry (h.frame _ _ h₂).1).1, hthird, hthird']
          cases h₁ : tables ([] ++ [index v 3] ++ [index v 2] ++ [index v 1]) with
          | none => rfl
          | some t₁ =>
              simp only [Option.map_some, Option.bind_some, hsmall _ _ h₁, Bool.false_eq_true,
                if_false, (frameOf_tableEntry (h.frame _ _ h₁).1).1, hread _ t₁ 0 h₁]
              cases present m t₁ (index v 0) with
              | none => rfl
              | some e => rfl

/-- `paging_init` leaves what is taken as it was, and the processor translates from its tables as
its calls say. -/
theorem paging_init_switch {n pml4 : ℕ} {k : Image} {fb : framebuffer_info} {vm vm₁ : Vm}
    (hinit : paging_init n k fb vm = some (vm₁, pml4)) (hends : Ends fb) :
  (∀ x < 2 ^ 64, Taken k vm.pmm x → physical vm₁.mem x = physical vm.mem x) ∧
    k.phys_kernel_end < 2 ^ 28 ∧
    ∀ v, hardware (physical vm₁.mem) pml4 v
      = target (windowCalls ++ identityCalls ++ framebufferCalls fb) v
  := by
  obtain ⟨pmm, halloc, hmaps⟩ := paging_init_maps hinit
  obtain ⟨hframe, -, hused, hmono⟩ := safe_pmm_alloc_fresh halloc
  have hzero : ∀ i < 512, entry (zeroTable vm.mem (P2V pml4)) (P2V pml4) i = 0 := by
    intro i hi
    rw [entry_zeroTable vm.mem hframe hframe hi, if_pos rfl]
  have hphysical : ∀ c ∈ windowCalls ++ identityCalls ++ framebufferCalls fb,
      c.physical < 2 ^ 52 ∧ c.flags < 4096 := by
    intro c hc
    simp only [List.mem_append] at hc
    rcases hc with (hc | hc) | hc
    · have := window_at (v := c.virtual) hc rfl
      use by omega, flags_window hc
    · have := identity_at (v := c.virtual) hc rfl
      use by omega, flags_identity hc
    · obtain ⟨haddr, j, hj, hcj⟩ := mem_framebufferCalls hc
      have hlt := hends.lt haddr hj
      refine ⟨?_, flags_framebuffer hc⟩
      rw [(framebuffer_at (v := c.virtual) hlt hcj rfl).1]
      exact hlt
  have hroot := TableTree.initial hframe hused hzero
  have hfresh : k.phys_kernel_end < pml4 ∧ vm.pmm.used (pml4 / Pmm.PAGE_SIZE) = false := by
    have hbefore : Apart k vm.pmm vm.mem vm fun _ => none :=
      ⟨by simp, fun _ hj => hj, fun _ _ _ => rfl⟩
    exact hbefore.alloc halloc
  have hapart : Apart k vm.pmm vm.mem ⟨zeroTable vm.mem (P2V pml4), pmm, P2V pml4⟩
      (fun p => if p = [] then some pml4 else none) := by
    constructor
    · intro p t ht
      split_ifs at ht
      obtain rfl := Option.some.inj ht
      exact hfresh
    · exact hmono
    · intro x hx htaken
      rw [physical, physical]
      dsimp only
      rw [zeroTable_eq, Memory.splice_outside _ _ (P2V_outside hframe hfresh hx htaken)]
  generalize zeroTable vm.mem (P2V pml4) = mem at hmaps hroot hapart
  obtain ⟨tables, htree⟩ := hmaps.tree hroot rfl hphysical
  obtain ⟨tables', M', -, hafter⟩ := hapart.maps hmaps hroot rfl hphysical
  refine ⟨hafter.kept, ?_, ?_⟩
  · obtain ⟨i, hi, hpml4⟩ := hframe
    rw [Pmm.total_blocks, Pmm.MAX_BLOCKS] at hi
    rw [Pmm.PAGE_SIZE] at hpml4
    omega
  · intro v
    rw [htree.hardware_eq, translate, htree.walk_eq, foldl_after]
    rfl

/-- An address that the processor can use: the upper bits repeat bit 47. -/
def Canonical (v : ℕ) : Prop := v < 2 ^ 47 ∨ 2 ^ 64 - 2 ^ 47 ≤ v ∧ v < 2 ^ 64

/-- A machine with the first tables at 1 MiB and all of its blocks free. -/
def bootedMachine : Vm :=
  ⟨fun x => start 0x100000 (fun _ => 0) (sub64 x KERNEL_OFFSET), freshMachine.pmm, 0⟩

end Paging
