import LySystem.Mem.Paging
import Mathlib.Logic.Function.Basic

/-!
# The translation of `map_page`

The tables `map_page` builds form a tree: each is named by the indices that lead to it from
the PML4, no two are the same page, and each lies in a block marked used.  Over such a tree
the four-level walk is a finite map from page numbers to leaf entries, and `map_page`
updates that map at one page.
-/

namespace Paging

/-! ### Table pages -/

/-- A physical address at which a table can lie: that of a block. -/
def IsFrame (t : ℕ) : Prop := ∃ i < Pmm.total_blocks, t = i * Pmm.PAGE_SIZE

/-- The kernel's window does not wrap around over the frames. -/
theorem P2V_frame {t : ℕ} (h : IsFrame t) :
  P2V t = t + KERNEL_OFFSET
  := by
  obtain ⟨i, hi, rfl⟩ := h
  simp only [P2V, u64, KERNEL_OFFSET, Pmm.total_blocks, Pmm.MAX_BLOCKS, Pmm.PAGE_SIZE] at *
  omega

theorem zeroTable_apply (m : Memory) (t x : ℕ) :
  zeroTable m t x = if t ≤ x ∧ x < t + 4096 then 0 else m x
  := by
  rw [zeroTable_eq, Memory.splice]

/-- A store into an entry of a table is read back at that entry and nowhere else. -/
theorem entry_store (m : Memory) {t s i j : ℕ} (v : ℕ) (ht : IsFrame t) (hs : IsFrame s)
    (hi : i < 512) (hj : j < 512) :
  entry (m.store (P2V t + 8 * i) 8 v) (P2V s) j
    = if s = t ∧ j = i then v % 2 ^ 64 else entry m (P2V s) j
  := by
  rw [P2V_frame ht, P2V_frame hs]
  obtain ⟨a, -, rfl⟩ := ht
  obtain ⟨b, -, rfl⟩ := hs
  rw [Pmm.PAGE_SIZE]
  split_ifs with h
  · obtain ⟨heq, rfl⟩ := h
    rw [heq, entry, Memory.load_store]
    norm_num
  · apply Memory.load_store_disjoint
    omega

theorem entry_zeroTable (m : Memory) {t s j : ℕ} (ht : IsFrame t) (hs : IsFrame s) (hj : j < 512) :
  entry (zeroTable m (P2V t)) (P2V s) j = if s = t then 0 else entry m (P2V s) j
  := by
  rw [P2V_frame ht, P2V_frame hs]
  obtain ⟨a, -, rfl⟩ := ht
  obtain ⟨b, -, rfl⟩ := hs
  rw [Pmm.PAGE_SIZE]
  split_ifs with h
  · rw [entry, ← Memory.load_fill_zero m (a := a * 4096 + KERNEL_OFFSET) (n := 4096)
      (b := b * 4096 + KERNEL_OFFSET + 8 * j) (k := 8) (by omega)]
    apply Memory.load_congr
    intro i _
    rw [zeroTable_apply]
    rfl
  · apply Memory.load_congr
    intro i _
    rw [zeroTable_apply, if_neg]
    omega

/-- The entry that names a table. -/
def tableEntry (t : ℕ) : ℕ := t ||| PAGE_PRESENT ||| PAGE_WRITE

theorem tableEntry_eq {t : ℕ} (h : IsFrame t) :
  tableEntry t = t + 3
  := by
  obtain ⟨i, -, rfl⟩ := h
  have hor : i * 2 ^ 12 ||| 3 = i * 2 ^ 12 + 3 := by
    rw [← Nat.shiftLeft_eq, Nat.shiftLeft_add_eq_or_of_lt (by decide)]
  rw [tableEntry, Nat.or_assoc]
  apply hor

theorem tableEntry_lt {t : ℕ} (h : IsFrame t) :
  tableEntry t < 2 ^ 64
  := by
  rw [tableEntry_eq h]
  obtain ⟨i, hi, rfl⟩ := h
  simp only [Pmm.total_blocks, Pmm.MAX_BLOCKS, Pmm.PAGE_SIZE] at *
  omega

theorem tableEntry_present {t : ℕ} (h : IsFrame t) :
  (tableEntry t).testBit 0 = true
  := by
  rw [tableEntry_eq h]
  obtain ⟨i, -, rfl⟩ := h
  simp only [Nat.testBit_zero, Pmm.PAGE_SIZE, decide_eq_true_eq]
  omega

/-- The processor and the kernel read the same table address out of an entry. -/
theorem frameOf_tableEntry {t : ℕ} (h : IsFrame t) :
  frameOf (tableEntry t) = t ∧ maskLow 12 (tableEntry t) = t
  := by
  rw [tableEntry_eq h]
  obtain ⟨i, hi, rfl⟩ := h
  simp only [frameOf, maskLow, Pmm.total_blocks, Pmm.MAX_BLOCKS, Pmm.PAGE_SIZE] at *
  omega

theorem present_eq_none {m : Memory} {t i : ℕ} :
  present m t i = none ↔ (entry m (P2V t) i).testBit 0 = false
  := by
  rw [present]
  split_ifs with h
  · simp [h]
  · simpa using h

theorem present_eq_some {m : Memory} {t i e : ℕ} :
  present m t i = some e ↔ entry m (P2V t) i = e ∧ e.testBit 0 = true
  := by
  rw [present]
  split_ifs with h
  · simp only [Option.some.injEq]
    constructor
    · rintro rfl
      use rfl
    · rintro ⟨rfl, -⟩
      rfl
  · simp only [false_iff]
    rintro ⟨rfl, he⟩
    exact h he

theorem present_store (m : Memory) {t s i j v : ℕ} (ht : IsFrame t) (hs : IsFrame s)
    (hi : i < 512) (hj : j < 512) (hv : v < 2 ^ 64) (hp : v.testBit 0 = true) :
  present (m.store (P2V t + 8 * i) 8 v) s j = if s = t ∧ j = i then some v else present m s j
  := by
  rw [present, present, entry_store m v ht hs hi hj, Nat.mod_eq_of_lt hv]
  by_cases h : s = t ∧ j = i
  · simp [h, hp]
  · simp [h]

theorem present_zeroTable (m : Memory) {t s j : ℕ} (ht : IsFrame t) (hs : IsFrame s)
    (hj : j < 512) :
  present (zeroTable m (P2V t)) s j = if s = t then none else present m s j
  := by
  rw [present, present, entry_zeroTable m ht hs hj]
  by_cases h : s = t
  · simp [h]
  · simp [h]

/-! ### Addresses -/

theorem index_lt (v level : ℕ) :
  index v level < 512
  := Nat.mod_lt _ (by decide)

/-- The indices that lead from the PML4 to the table holding the leaf entry of `v`. -/
def path (v : ℕ) : List ℕ := [index v 3, index v 2, index v 1]

/-- Bits 12 to 47 of a virtual address. -/
def page (v : ℕ) : ℕ := v / 2 ^ 12 % 2 ^ 36

theorem page_eq_iff {v w : ℕ} :
  page v = page w ↔ path v = path w ∧ index v 0 = index w 0
  := by
  simp only [page, path, index, List.cons.injEq, and_true]
  omega

/-! ### The tree of tables -/

/-- A finite map from page numbers to leaf entries. -/
abbrev Mapping := ℕ → Option ℕ

/-- The tables of the memory form a tree, `tables` giving the frame of the table at each
path of indices, and its leaves are the entries of `M`. -/
structure TableTree (m : Memory) (pmm : Pmm) (pml4 : ℕ) (tables : List ℕ → Option ℕ)
    (M : Mapping) : Prop where
  root : tables [] = some pml4
  frame : ∀ p t, tables p = some t → IsFrame t ∧ pmm.used (t / Pmm.PAGE_SIZE) = true
  injective : ∀ p q t, tables p = some t → tables q = some t → p = q
  closed : ∀ p i, tables p = none → tables (p ++ [i]) = none
  upper : ∀ p t i, tables p = some t → p.length < 3 → i < 512 →
    present m t i = (tables (p ++ [i])).map tableEntry
  leaf : ∀ v t, tables (path v) = some t → present m t (index v 0) = M (page v)
  missing : ∀ v, tables (path v) = none → M (page v) = none

/-- Over a tree of tables, the walk is the mapping. -/
theorem TableTree.walk_eq {m : Memory} {pmm : Pmm} {pml4 : ℕ} {tables : List ℕ → Option ℕ}
    {M : Mapping} (h : TableTree m pmm pml4 tables M) (v : ℕ) :
  walk m pml4 v = M (page v)
  := by
  have step : ∀ p t level, tables p = some t → p.length < 3 →
      present m t (index v level) = (tables (p ++ [index v level])).map tableEntry :=
    fun p t level ht hp => h.upper p t _ ht hp (index_lt v level)
  rw [walk, step [] pml4 3 h.root (by simp)]
  cases h₃ : tables ([] ++ [index v 3]) with
  | none =>
      symm
      apply h.missing v
      apply h.closed _ _ (h.closed _ _ h₃)
  | some t₃ =>
      simp only [Option.map_some, Option.bind_eq_bind, Option.bind_some]
      rw [(frameOf_tableEntry (h.frame _ _ h₃).1).1, step _ t₃ 2 h₃ (by simp)]
      cases h₂ : tables ([] ++ [index v 3] ++ [index v 2]) with
      | none =>
          symm
          apply h.missing v
          apply h.closed _ _ h₂
      | some t₂ =>
          simp only [Option.map_some, Option.bind_some]
          rw [(frameOf_tableEntry (h.frame _ _ h₂).1).1, step _ t₂ 1 h₂ (by simp)]
          cases h₁ : tables ([] ++ [index v 3] ++ [index v 2] ++ [index v 1]) with
          | none =>
              symm
              apply h.missing v h₁
          | some t₁ =>
              simp only [Option.map_some, Option.bind_some]
              rw [(frameOf_tableEntry (h.frame _ _ h₁).1).1]
              apply h.leaf v t₁ h₁

/-- Blocks becoming used do not disturb the tree. -/
theorem TableTree.mono {m : Memory} {pmm pmm' : Pmm} {pml4 : ℕ} {tables : List ℕ → Option ℕ}
    {M : Mapping} (h : TableTree m pmm pml4 tables M)
    (hmono : ∀ j, pmm.used j = true → pmm'.used j = true) :
  TableTree m pmm' pml4 tables M
  := { h with frame := fun p t ht => ⟨(h.frame p t ht).1, hmono _ (h.frame p t ht).2⟩ }

/-- A zeroed PML4 in a used block is a tree that maps nothing. -/
theorem TableTree.initial {m : Memory} {pmm : Pmm} {pml4 : ℕ} (hframe : IsFrame pml4)
    (hused : pmm.used (pml4 / Pmm.PAGE_SIZE) = true)
    (hzero : ∀ i < 512, entry m (P2V pml4) i = 0) :
  TableTree m pmm pml4 (fun p => if p = [] then some pml4 else none) (fun _ => none)
  where
  root := by simp
  frame := by
    intro p t ht
    split_ifs at ht
    obtain rfl := Option.some.inj ht
    use hframe, hused
  injective := by
    intro p q t hp hq
    split_ifs at hp hq with h₁ h₂
    rw [h₁, h₂]
  closed := by simp
  upper := by
    intro p t i ht _ hi
    split_ifs at ht
    obtain rfl := Option.some.inj ht
    simp only [List.append_eq_nil_iff, List.cons_ne_nil, and_false, if_false, Option.map_none]
    rw [present_eq_none, hzero i hi]
    simp
  leaf := by
    intro v t ht
    simp [path] at ht
  missing := by simp

/-! ### Making a table -/

/-- The block `safe_pmm_alloc` returns is a frame that no table uses. -/
theorem safe_pmm_alloc_fresh {n : ℕ} {k : Image} {p p' : Pmm} {a : ℕ}
    (h : safe_pmm_alloc n k p = some (a, p')) :
  IsFrame a ∧ p.used (a / Pmm.PAGE_SIZE) = false ∧ p'.used (a / Pmm.PAGE_SIZE) = true ∧
    ∀ j, p.used j = true → p'.used j = true
  := by
  obtain ⟨i, hi, rfl, -, hmono, hused⟩ := safe_pmm_alloc_spec h
  obtain ⟨hlt, -, hfree⟩ := mem_freeAbove.mp hi
  have hdiv : i * Pmm.PAGE_SIZE / Pmm.PAGE_SIZE = i := Nat.mul_div_cancel _ (by decide)
  rw [hdiv]
  use ⟨i, hlt, rfl⟩, hfree
  rw [hused i hlt]
  use by simp

/-- A new table in a frame that holds none is the only one there. -/
theorem injective_update {tables : List ℕ → Option ℕ} {a : ℕ}
    (hinj : ∀ p q t, tables p = some t → tables q = some t → p = q)
    (hnew : ∀ q s, tables q = some s → s ≠ a) (r : List ℕ) :
  ∀ p q t, Function.update tables r (some a) p = some t →
    Function.update tables r (some a) q = some t → p = q
  := by
  intro p q t hp hq
  by_cases hpr : p = r <;> by_cases hqr : q = r
  · rw [hpr, hqr]
  · subst hpr
    rw [Function.update_self, Option.some.injEq] at hp
    rw [Function.update_of_ne hqr] at hq
    exact absurd hp.symm (hnew q t hq)
  · subst hqr
    rw [Function.update_self, Option.some.injEq] at hq
    rw [Function.update_of_ne hpr] at hp
    exact absurd hq.symm (hnew p t hp)
  · rw [Function.update_of_ne hpr] at hp
    rw [Function.update_of_ne hqr] at hq
    apply hinj p q t hp hq

/-- A new table, zeroed and named by an entry that was not present, extends the tree and
leaves the mapping as it was. -/
theorem TableTree.extend {m : Memory} {pmm pmm' : Pmm} {pml4 : ℕ} {tables : List ℕ → Option ℕ}
    {M : Mapping} (h : TableTree m pmm pml4 tables M) {p : List ℕ} {t i a : ℕ}
    (ht : tables p = some t) (hp : p.length < 3) (hi : i < 512) (hnone : tables (p ++ [i]) = none)
    (ha : IsFrame a) (hfree : pmm.used (a / Pmm.PAGE_SIZE) = false)
    (hused : pmm'.used (a / Pmm.PAGE_SIZE) = true)
    (hmono : ∀ j, pmm.used j = true → pmm'.used j = true) :
  TableTree ((zeroTable m (P2V a)).store (P2V t + 8 * i) 8 (tableEntry a)) pmm' pml4
    (Function.update tables (p ++ [i]) (some a)) M
  := by
  have hat : ∀ q s, tables q = some s → s ≠ a := by
    rintro q s hs rfl
    rw [(h.frame q s hs).2] at hfree
    cases hfree
  have htf := (h.frame p t ht).1
  -- What the new memory holds at an entry of a frame.
  have hpresent : ∀ s j, IsFrame s → j < 512 →
      present ((zeroTable m (P2V a)).store (P2V t + 8 * i) 8 (tableEntry a)) s j
        = if s = t ∧ j = i then some (tableEntry a) else if s = a then none else present m s j := by
    intro s j hs hj
    rw [present_store _ htf hs hi hj (tableEntry_lt ha) (tableEntry_present ha),
      present_zeroTable m ha hs hj]
  constructor
  · rw [Function.update_of_ne (by simp)]
    apply h.root
  · intro q s hs
    by_cases hq : q = p ++ [i]
    · subst hq
      rw [Function.update_self, Option.some.injEq] at hs
      subst hs
      use ha, hused
    · rw [Function.update_of_ne hq] at hs
      use (h.frame q s hs).1, hmono _ (h.frame q s hs).2
  · apply injective_update h.injective hat
  · intro q j hq
    have hqi : q ≠ p ++ [i] := by
      rintro rfl
      simp at hq
    rw [Function.update_of_ne hqi] at hq
    have hne : q ++ [j] ≠ p ++ [i] := by
      intro heq
      obtain ⟨rfl, -⟩ := List.append_inj' heq rfl
      rw [hq] at ht
      cases ht
    rw [Function.update_of_ne hne]
    apply h.closed q j hq
  · intro q s j hs hlen hj
    by_cases hqi : q = p ++ [i]
    · subst hqi
      rw [Function.update_self, Option.some.injEq] at hs
      subst hs
      rw [hpresent a j ha hj, if_neg (fun hc => hat p t ht hc.1.symm), if_pos rfl,
        Function.update_of_ne (by simp), h.closed _ _ hnone]
      rfl
    · rw [Function.update_of_ne hqi] at hs
      rw [hpresent s j (h.frame q s hs).1 hj]
      by_cases hst : s = t ∧ j = i
      · obtain ⟨rfl, rfl⟩ := hst
        obtain rfl := h.injective q p s hs ht
        simp
      · rw [if_neg hst, if_neg (hat q s hs), h.upper q s j hs hlen hj, Function.update_of_ne]
        intro heq
        obtain ⟨rfl, hji⟩ := List.append_inj' heq rfl
        apply hst
        rw [ht, Option.some.injEq] at hs
        use hs.symm
        simpa using hji
  · intro v s hs
    by_cases hv : path v = p ++ [i]
    · rw [hv, Function.update_self, Option.some.injEq] at hs
      subst hs
      rw [hpresent a _ ha (index_lt v 0), if_neg (fun hc => hat p t ht hc.1.symm), if_pos rfl]
      symm
      apply h.missing v
      rw [hv, hnone]
    · rw [Function.update_of_ne hv] at hs
      have hst : s ≠ t := by
        rintro rfl
        have hlen := congrArg List.length (h.injective _ _ s hs ht)
        rw [path] at hlen
        simp only [List.length_cons, List.length_nil] at hlen
        omega
      rw [hpresent s _ (h.frame _ s hs).1 (index_lt v 0), if_neg (fun hc => hst hc.1),
        if_neg (hat _ s hs)]
      apply h.leaf v s hs
  · intro v hv
    have hvi : path v ≠ p ++ [i] := by
      intro heq
      rw [heq] at hv
      simp at hv
    rw [Function.update_of_ne hvi] at hv
    apply h.missing v hv

/-- The tree gains at most one table. -/
theorem descend_spec {n : ℕ} {k : Image} {vm vm' : Vm} {pml4 current i : ℕ}
    {tables : List ℕ → Option ℕ} {M : Mapping} (h : TableTree vm.mem vm.pmm pml4 tables M)
    {p : List ℕ} {t : ℕ} (ht : tables p = some t) (hp : p.length < 3) (hi : i < 512)
    (hd : map_page.descend n k vm (P2V t) i = some (vm', current)) :
  ∃ tables' t', TableTree vm'.mem vm'.pmm pml4 tables' M ∧ tables' (p ++ [i]) = some t' ∧
    current = P2V t' ∧ vm'.kernel_pml4 = vm.kernel_pml4
  := by
  have hupper := h.upper p t i ht hp hi
  rw [map_page.descend] at hd
  split_ifs at hd with hbit
  · obtain ⟨⟨a, pmm'⟩, halloc, heq⟩ := Option.map_eq_some_iff.mp hd
    obtain ⟨rfl, rfl⟩ := Prod.mk.inj heq
    have hnone : tables (p ++ [i]) = none := by
      rw [present_eq_none.mpr (by simpa using hbit)] at hupper
      exact Option.map_eq_none_iff.mp hupper.symm
    obtain ⟨hframe, hfree, hused, hmono⟩ := safe_pmm_alloc_fresh halloc
    use Function.update tables (p ++ [i]) (some a), a,
      h.extend ht hp hi hnone hframe hfree hused hmono
    use Function.update_self .., rfl
  · obtain ⟨rfl, rfl⟩ := Prod.mk.inj (Option.some.inj hd)
    have hsome := present_eq_some.mpr ⟨rfl, by simpa using hbit⟩
    rw [hsome] at hupper
    obtain ⟨t', ht', hentry⟩ := Option.map_eq_some_iff.mp hupper.symm
    use tables, t', h, ht'
    rw [← hentry, (frameOf_tableEntry (h.frame _ _ ht').1).2]
    use rfl

/-- While a block above the kernel image is free, a round of `map_page` returns, and takes at
most one. -/
theorem descend_returns {n : ℕ} {k : Image} {vm : Vm} (current i : ℕ)
    (hfree : 0 < (freeAbove k vm.pmm).card) (hn : Pmm.total_blocks < n) :
  ∃ vm' current', map_page.descend n k vm current i = some (vm', current') ∧
    (freeAbove k vm.pmm).card ≤ (freeAbove k vm'.pmm).card + 1
  := by
  rw [map_page.descend]
  split_ifs
  · obtain ⟨⟨a, p'⟩, halloc⟩ := safe_pmm_alloc_returns (Finset.card_pos.mp hfree) hn
    rw [halloc]
    refine ⟨_, _, rfl, ?_⟩
    apply (freeAbove_safe_pmm_alloc halloc).ge
  · refine ⟨_, _, rfl, ?_⟩
    omega

/-! ### One call -/

/-- The leaf entry `map_page` stores. -/
def leafEntry (physical flags : ℕ) : ℕ := maskLow 12 physical ||| flags ||| PAGE_PRESENT

theorem leafEntry_lt {physical flags : ℕ} (hp : physical < 2 ^ 64) (hf : flags < 4096) :
  leafEntry physical flags < 2 ^ 64
  := by
  have hmask : maskLow 12 physical < 2 ^ 64 := by
    rw [maskLow]
    omega
  apply Nat.or_lt_two_pow (Nat.or_lt_two_pow hmask (by omega))
  decide

theorem leafEntry_present (physical flags : ℕ) :
  (leafEntry physical flags).testBit 0 = true
  := by
  rw [leafEntry, Nat.testBit_or]
  simp [PAGE_PRESENT]

/-- Storing a leaf entry updates the mapping at the page of the address. -/
theorem TableTree.store_leaf {m : Memory} {pmm : Pmm} {pml4 : ℕ} {tables : List ℕ → Option ℕ}
    {M : Mapping} (h : TableTree m pmm pml4 tables M) {v t e : ℕ} (ht : tables (path v) = some t)
    (he : e < 2 ^ 64) (hp : e.testBit 0 = true) :
  TableTree (m.store (P2V t + 8 * index v 0) 8 e) pmm pml4 tables
    (Function.update M (page v) (some e))
  := by
  have hstore : ∀ q s j, tables q = some s → j < 512 →
      present (m.store (P2V t + 8 * index v 0) 8 e) s j
        = if s = t ∧ j = index v 0 then some e else present m s j :=
    fun q s j hs hj => present_store m (h.frame _ _ ht).1 (h.frame _ _ hs).1 (index_lt v 0) hj he hp
  constructor
  · apply h.root
  · apply h.frame
  · apply h.injective
  · apply h.closed
  · intro q s j hs hlen hj
    rw [hstore q s j hs hj, if_neg, h.upper q s j hs hlen hj]
    rintro ⟨rfl, -⟩
    have hq := congrArg List.length (h.injective _ _ _ hs ht)
    simp only [path, List.length_cons, List.length_nil] at hq
    omega
  · intro w s hs
    rw [hstore (path w) s _ hs (index_lt w 0)]
    by_cases hw : page w = page v
    · obtain ⟨hpath, hindex⟩ := page_eq_iff.mp hw
      rw [hpath, ht, Option.some.injEq] at hs
      rw [if_pos ⟨hs.symm, hindex⟩, hw, Function.update_self]
    · rw [if_neg, Function.update_of_ne hw]
      · apply h.leaf w s hs
      · rintro ⟨rfl, hindex⟩
        apply hw
        apply page_eq_iff.mpr
        use h.injective _ _ _ hs ht
  · intro w hw
    rw [Function.update_of_ne]
    · apply h.missing w hw
    · intro heq
      rw [(page_eq_iff.mp heq).1, ht] at hw
      cases hw

/-- A call of `map_page` keeps the tree and updates the mapping at one page. -/
theorem map_page_spec {n : ℕ} {k : Image} {vm vm' : Vm} {pml4 v physical flags : ℕ}
    {tables : List ℕ → Option ℕ} {M : Mapping} (h : TableTree vm.mem vm.pmm pml4 tables M)
    (hptr : vm.kernel_pml4 = P2V pml4) (hp : physical < 2 ^ 52) (hf : flags < 4096)
    (hmap : map_page n k vm v physical flags = some vm') :
  (∃ tables', TableTree vm'.mem vm'.pmm pml4 tables'
      (Function.update M (page v) (some (leafEntry physical flags)))) ∧
    vm'.kernel_pml4 = P2V pml4
  := by
  simp only [map_page, Option.bind_eq_bind, Option.bind_eq_some_iff, Option.some.injEq] at hmap
  obtain ⟨⟨vm₁, t₁⟩, hd₁, ⟨vm₂, t₂⟩, hd₂, ⟨vm₃, t₃⟩, hd₃, rfl⟩ := hmap
  rw [hptr] at hd₁
  obtain ⟨tables₁, f₁, h₁, hf₁, ht₁, hk₁⟩ :=
    descend_spec h h.root (by simp) (index_lt v 3) hd₁
  rw [ht₁] at hd₂
  obtain ⟨tables₂, f₂, h₂, hf₂, ht₂, hk₂⟩ :=
    descend_spec h₁ hf₁ (by simp) (index_lt v 2) hd₂
  rw [ht₂] at hd₃
  obtain ⟨tables₃, f₃, h₃, hf₃, ht₃, hk₃⟩ :=
    descend_spec h₂ hf₂ (by simp) (index_lt v 1) hd₃
  rw [ht₃]
  constructor
  · use tables₃
    apply h₃.store_leaf hf₃ (leafEntry_lt (by omega) hf) (leafEntry_present physical flags)
  · dsimp only
    rw [hk₃, hk₂, hk₁, hptr]

/-- With three free blocks above the kernel image, `map_page` returns; it takes at most
three. -/
theorem map_page_returns {n : ℕ} {k : Image} {vm : Vm} (v physical flags : ℕ)
    (hfree : 3 ≤ (freeAbove k vm.pmm).card) (hn : Pmm.total_blocks < n) :
  ∃ vm', map_page n k vm v physical flags = some vm' ∧
    (freeAbove k vm.pmm).card ≤ (freeAbove k vm'.pmm).card + 3
  := by
  have hfree₁ : 0 < (freeAbove k vm.pmm).card := by omega
  obtain ⟨vm₁, t₁, hd₁, hc₁⟩ := descend_returns vm.kernel_pml4 (index v 3) hfree₁ hn
  have hfree₂ : 0 < (freeAbove k vm₁.pmm).card := by omega
  obtain ⟨vm₂, t₂, hd₂, hc₂⟩ := descend_returns t₁ (index v 2) hfree₂ hn
  have hfree₃ : 0 < (freeAbove k vm₂.pmm).card := by omega
  obtain ⟨vm₃, t₃, hd₃, hc₃⟩ := descend_returns t₂ (index v 1) hfree₃ hn
  simp only [map_page, hd₁, hd₂, hd₃, Option.bind_eq_bind, Option.bind_some]
  refine ⟨_, rfl, ?_⟩
  dsimp only
  omega

/-! ### Sequences of calls -/

/-- The arguments of a call of `map_page`. -/
structure Call where
  virtual : ℕ
  physical : ℕ
  flags : ℕ

/-- The calls made one after the other; in between, other users of the physical memory
manager may take blocks but free none. -/
inductive Maps (k : Image) : Vm → List Call → Vm → Prop
  | nil (vm : Vm) : Maps k vm [] vm
  | call {n : ℕ} {vm vm' vm'' : Vm} {c : Call} {cs : List Call} :
      map_page n k vm c.virtual c.physical c.flags = some vm' → Maps k vm' cs vm'' →
      Maps k vm (c :: cs) vm''
  | taken {vm vm'' : Vm} {pmm' : Pmm} {cs : List Call} :
      (∀ j, vm.pmm.used j = true → pmm'.used j = true) →
      Maps k { vm with pmm := pmm' } cs vm'' → Maps k vm cs vm''

/-- The mapping once a call has been made. -/
def Mapping.after (M : Mapping) (c : Call) : Mapping :=
  Function.update M (page c.virtual) (some (leafEntry c.physical c.flags))

/-- The leaf entry of the last of the calls that names the page of `v`. -/
def lastEntry (calls : List Call) (v : ℕ) : Option ℕ :=
  (calls.reverse.find? fun c => page c.virtual = page v).map fun c => leafEntry c.physical c.flags

/-- Calls made from the empty mapping leave, at each page, the last entry made there. -/
theorem foldl_after (calls : List Call) (v : ℕ) :
  calls.foldl Mapping.after (fun _ => none) (page v) = lastEntry calls v
  := by
  induction calls using List.reverseRecOn with
  | nil => rfl
  | append_singleton cs c ih =>
      rw [List.foldl_append, List.foldl_cons, List.foldl_nil, Mapping.after, lastEntry,
        List.reverse_append]
      by_cases hc : page c.virtual = page v
      · simp [hc]
      · rw [Function.update_of_ne (Ne.symm hc), ih]
        simp [hc, lastEntry]

/-- The calls keep the tree, and make the mapping what they say. -/
theorem Maps.tree {k : Image} {vm vm' : Vm} {calls : List Call} (hm : Maps k vm calls vm')
    {pml4 : ℕ} {tables : List ℕ → Option ℕ} {M : Mapping}
    (h : TableTree vm.mem vm.pmm pml4 tables M) (hptr : vm.kernel_pml4 = P2V pml4)
    (hcalls : ∀ c ∈ calls, c.physical < 2 ^ 52 ∧ c.flags < 4096) :
  ∃ tables', TableTree vm'.mem vm'.pmm pml4 tables' (calls.foldl Mapping.after M)
  := by
  induction hm generalizing tables M with
  | nil vm =>
      use tables
      apply h
  | call hmap _ ih =>
      obtain ⟨hp, hf⟩ := hcalls _ List.mem_cons_self
      obtain ⟨⟨tables', h'⟩, hptr'⟩ := map_page_spec h hptr hp hf hmap
      apply ih h' hptr'
      intro c hc
      apply hcalls c (by simp [hc])
  | taken hmono _ ih => apply ih (h.mono hmono) hptr hcalls

/-- With three free blocks above the kernel image for each call, the calls return. -/
theorem maps_of_free {k : Image} (calls : List Call) (vm : Vm)
    (hfree : 3 * calls.length ≤ (freeAbove k vm.pmm).card) :
  ∃ vm', Maps k vm calls vm'
  := by
  induction calls generalizing vm with
  | nil =>
      use vm
      apply Maps.nil
  | cons c cs ih =>
      rw [List.length_cons] at hfree
      have hpages : 3 ≤ (freeAbove k vm.pmm).card := by omega
      obtain ⟨vm₁, hmap, hcard⟩ := map_page_returns c.virtual c.physical c.flags hpages
        (Nat.lt_succ_self Pmm.total_blocks)
      obtain ⟨vm', hmaps⟩ := ih vm₁ (by omega)
      use vm'
      apply Maps.call hmap hmaps

/-- From a zeroed PML4 in a block of `safe_pmm_alloc`, calls of `map_page` make the four-level
walk the finite map in which the last call at a page decides; they return when there are
blocks for them. -/
theorem map_page_refines {n : ℕ} {k : Image} {p₀ : Pmm} {pml4 : ℕ} {vm : Vm}
    (halloc : safe_pmm_alloc n k p₀ = some (pml4, vm.pmm)) (hptr : vm.kernel_pml4 = P2V pml4)
    (hzero : ∀ i < 512, entry vm.mem (P2V pml4) i = 0) (calls : List Call)
    (hcalls : ∀ c ∈ calls, c.physical < 2 ^ 52 ∧ c.flags < 4096) :
  (∀ vm', Maps k vm calls vm' → ∀ v, walk vm'.mem pml4 v = lastEntry calls v) ∧
    (3 * calls.length ≤ (freeAbove k vm.pmm).card → ∃ vm', Maps k vm calls vm')
  := by
  constructor
  · intro vm' hmaps v
    obtain ⟨hframe, -, hused, -⟩ := safe_pmm_alloc_fresh halloc
    obtain ⟨tables, htree⟩ := hmaps.tree (TableTree.initial hframe hused hzero) hptr hcalls
    rw [htree.walk_eq, foldl_after]
  · apply maps_of_free

/-- Three calls, two of them at the same page, from the first free block of a machine whose
kernel image ends at the physical address 0. -/
theorem map_page_refines_three :
  ∃ p vm', safe_pmm_alloc 1 ⟨KERNEL_OFFSET, KERNEL_OFFSET⟩ ⟨fun i => if i = 0 then 1 else 0, 1⟩ =
      some (4096, p) ∧
    Maps ⟨KERNEL_OFFSET, KERNEL_OFFSET⟩ ⟨fun _ => 0, p, P2V 4096⟩
      [⟨0x1000, 0x5000, 2⟩, ⟨0x2000, 0x6000, 2⟩, ⟨0x1000, 0x7000, 0⟩] vm' ∧
    walk vm'.mem 4096 0x1234 = some 0x7001 ∧ walk vm'.mem 4096 0x3000 = none
  := by
  let k : Image := ⟨KERNEL_OFFSET, KERNEL_OFFSET⟩
  let p₀ : Pmm := ⟨fun i => if i = 0 then 1 else 0, 1⟩
  have halloc : safe_pmm_alloc 1 k p₀ = some (4096, (Pmm.pmm_alloc_block p₀).2) := by
    have haddr : (Pmm.pmm_alloc_block p₀).1 = 4096 := by decide +kernel
    have habove : ¬ (Pmm.pmm_alloc_block p₀).1 ≤ k.phys_kernel_end := by decide +kernel
    apply Loop.iterate_stop 0
    rw [if_neg habove, ← haddr]
  have hfree : (Finset.range 11).filter (2 ≤ ·) ⊆ freeAbove k (Pmm.pmm_alloc_block p₀).2 := by
    intro i hi
    rw [mem_freeAbove]
    revert i
    decide +kernel
  let vm : Vm := ⟨fun _ => 0, (Pmm.pmm_alloc_block p₀).2, P2V 4096⟩
  have hzero : ∀ i < 512, entry vm.mem (P2V 4096) i = 0 := by decide +kernel
  obtain ⟨hwalk, hmaps⟩ := map_page_refines halloc (rfl : vm.kernel_pml4 = P2V 4096) hzero
    [⟨0x1000, 0x5000, 2⟩, ⟨0x2000, 0x6000, 2⟩, ⟨0x1000, 0x7000, 0⟩] (by decide)
  obtain ⟨vm', hvm'⟩ := hmaps (Finset.card_le_card hfree)
  use (Pmm.pmm_alloc_block p₀).2, vm', halloc, hvm'
  rw [hwalk vm' hvm', hwalk vm' hvm']
  decide

end Paging
