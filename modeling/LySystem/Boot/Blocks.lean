import LySystem.Machine.Transition
import LySystem.Boot.Reservation

/-!
# Blocks and addresses

The operations of the physical memory manager name blocks by addresses.  The number of a block
is reduced to 32 bits, and the address of block 0 is `NULL`.
-/

namespace Boot

open Paging Pmm Transition

/-! ### Addresses of blocks -/

/-- From `p` to `q` no bit of the bitmap changes but that of the block of `a`, and nothing at all
when there is no such block. -/
def Concerns (a : ℕ) (p q : Pmm) : Prop :=
  (∀ j, j ≠ a / PAGE_SIZE → q.used j = p.used j) ∧ (total_blocks ≤ a / PAGE_SIZE → q = p)

theorem Concerns.refl (a : ℕ) (p : Pmm) :
  Concerns a p p
  := ⟨fun _ _ => rfl, fun _ => rfl⟩

/-- What changes the bit of the block `blockOf a` at most concerns the block of `a` when these
are the same block, or when the bit stays. -/
theorem concerns_iff {a : ℕ} {p q : Pmm} (hother : ∀ j, j ≠ blockOf a → q.used j = p.used j)
    (hsame : total_blocks ≤ blockOf a ∨ q.used (blockOf a) = p.used (blockOf a) → q = p)
    (hout : a / PAGE_SIZE ≠ blockOf a → total_blocks ≤ a / PAGE_SIZE) :
  Concerns a p q ↔
    a / PAGE_SIZE < 2 ^ 32 ∨ total_blocks ≤ blockOf a ∨ q.used (blockOf a) = p.used (blockOf a)
  := by
  constructor
  · rintro ⟨-, hbeyond⟩
    by_cases heq : a / PAGE_SIZE = blockOf a
    · left
      rw [heq]
      exact Nat.mod_lt _ (by decide)
    · right; right
      rw [hbeyond (hout heq)]
  · rintro (hlt | hnone)
    · have heq : blockOf a = a / PAGE_SIZE := u32_of_lt hlt
      rw [heq] at hother hsame
      exact ⟨hother, fun hbeyond => hsame (Or.inl hbeyond)⟩
    · rw [hsame hnone]
      exact Concerns.refl a p

/-- An address whose block number does not fit a `uint32_t` is beyond all blocks. -/
theorem blockOf_wrapped {a : ℕ} (h : a / PAGE_SIZE ≠ blockOf a) :
  total_blocks ≤ a / PAGE_SIZE
  := by
  by_contra hlt
  apply h
  rw [blockOf, u32_of_lt]
  rw [total_blocks, MAX_BLOCKS] at hlt
  omega

theorem pmm_mark_used_concerns (p : Pmm) (a : ℕ) :
  Concerns a p (pmm_mark_used p a) ↔
    a / PAGE_SIZE < 2 ^ 32 ∨ total_blocks ≤ blockOf a ∨ p.used (blockOf a) = true
  := by
  by_cases hrange : total_blocks ≤ blockOf a
  · have hsame : pmm_mark_used p a = p := by
      rw [pmm_mark_used, if_pos hrange]
    simp [hsame, Concerns.refl, hrange]
  · have hbit : (pmm_mark_used p a).used (blockOf a) = true := by
      rw [used_mark_used]
      simp [Nat.lt_of_not_le hrange]
    rw [concerns_iff, hbit, eq_comm (a := true)]
    · intro j hj
      rw [used_mark_used]
      simp [hj]
    · intro hused
      rw [hbit, eq_comm] at hused
      have hused := hused.resolve_left hrange
      rw [pmm_mark_used, if_neg hrange, if_neg (by simp [hused])]
    · exact blockOf_wrapped

theorem pmm_mark_free_concerns (p : Pmm) (a : ℕ) :
  Concerns a p (pmm_mark_free p a) ↔
    a / PAGE_SIZE < 2 ^ 32 ∨ total_blocks ≤ blockOf a ∨ p.used (blockOf a) = false
  := by
  by_cases hrange : total_blocks ≤ blockOf a
  · have hsame : pmm_mark_free p a = p := by
      rw [pmm_mark_free, if_pos hrange]
    simp [hsame, Concerns.refl, hrange]
  · have hbit : (pmm_mark_free p a).used (blockOf a) = false := by
      rw [used_mark_free]
      simp [Nat.lt_of_not_le hrange]
    rw [concerns_iff, hbit, eq_comm (a := false)]
    · intro j hj
      rw [used_mark_free]
      simp [hj]
    · intro hfree
      rw [hbit, eq_comm] at hfree
      have hfree := hfree.resolve_left hrange
      rw [pmm_mark_free, if_neg hrange, if_neg (by simp [hfree])]
    · exact blockOf_wrapped

/-- Each of the three operations concerns the block of its address exactly when the number of
that block fits a `uint32_t`, or the block with the reduced number does not exist or is already
as the operation leaves it. -/
theorem block_operations_concern_iff (p : Pmm) (a : ℕ) :
  (Concerns a p (pmm_mark_used p a) ↔
    a / PAGE_SIZE < 2 ^ 32 ∨ total_blocks ≤ blockOf a ∨ p.used (blockOf a) = true) ∧
  (Concerns a p (pmm_mark_free p a) ↔
    a / PAGE_SIZE < 2 ^ 32 ∨ total_blocks ≤ blockOf a ∨ p.used (blockOf a) = false) ∧
  (Concerns a p (pmm_free_block p a) ↔
    a / PAGE_SIZE < 2 ^ 32 ∨ total_blocks ≤ blockOf a ∨ p.used (blockOf a) = false)
  := ⟨pmm_mark_used_concerns p a, pmm_mark_free_concerns p a, pmm_mark_free_concerns p a⟩

/-- A region that starts 16 TiB above block 5 frees block 5. -/
theorem high_region_frees_low_block :
  WellFormed (oneRegion (2 ^ 44 + 0x5000) 0x1000) 0x9000 ∧
    Available (oneRegion (2 ^ 44 + 0x5000) 0x1000) (P2V 0x9000) (fun a => a = 2 ^ 44 + 0x5000) ∧
    ∃ p, ¬ Concerns (2 ^ 44 + 0x5000) p (pmm_mark_free p (2 ^ 44 + 0x5000))
  := by
  refine ⟨WellFormed.of_within (n := 3) (by decide +kernel), ?_, ⟨fun _ => 0xFF, 0⟩, ?_⟩
  · have haddr : entryAddr (oneRegion (2 ^ 44 + 0x5000) 0x1000) (P2V 0x9000 + 24) =
        2 ^ 44 + 0x5000 := by decide +kernel
    refine ⟨P2V 0x9000 + 8, Loop.Visits.here ?_, ?_, P2V 0x9000 + 24, Loop.Visits.here ?_, ?_, _,
      Loop.Visits.here ?_, haddr⟩
    all_goals decide +kernel
  · rintro ⟨-, hbeyond⟩
    have hsame := congrArg (fun q : Pmm => q.used 5) (hbeyond (by decide))
    revert hsame
    decide +kernel

/-! ### The address of block 0 -/

/-- What allocation promises: `NULL` is returned exactly when no block is free, and then nothing
changes; otherwise the address of the lowest free block is returned, which becomes used while
the others stay as they are. -/
def Serves (p : Pmm) : Prop :=
  ((pmm_alloc_block p).1 = 0 ↔ ∀ i < total_blocks, p.used i = true) ∧
  ((∀ i < total_blocks, p.used i = true) → (pmm_alloc_block p).2 = p) ∧
  ∀ i < total_blocks, p.used i = false → (∀ j < i, p.used j = true) →
    (pmm_alloc_block p).1 = i * PAGE_SIZE ∧ (pmm_alloc_block p).2.used i = true ∧
      ∀ j, j ≠ i → (pmm_alloc_block p).2.used j = p.used j

/-- Allocation keeps its promise exactly while block 0 is used. -/
theorem serves_iff (p : Pmm) :
  Serves p ↔ p.used 0 = true
  := by
  rcases pmm_alloc_block_cases p with ⟨hnone, hall⟩ | ⟨i, hi, hfree, hlow, haddr, hused⟩
  · rw [Serves, hnone]
    constructor
    · intro _
      exact hall 0 (by decide)
    · intro _
      refine ⟨⟨fun _ => hall, fun _ => rfl⟩, fun _ => rfl, ?_⟩
      intro i hi hfree
      rw [hall i hi] at hfree
      cases hfree
  · constructor
    · rintro ⟨hnull, -, -⟩
      cases i with
      | zero =>
          rw [haddr, Nat.zero_mul] at hnull
          exact hnull.mp rfl 0 (by decide)
      | succ i => exact hlow 0 (Nat.succ_pos i)
    · intro hzero
      have hsome : ¬ ∀ i < total_blocks, p.used i = true := by
        intro hall
        rw [hall i hi] at hfree
        cases hfree
      have hpos : i ≠ 0 := by
        rintro rfl
        rw [hzero] at hfree
        cases hfree
      refine ⟨iff_of_false ?_ hsome, fun hall => absurd hall hsome, ?_⟩
      · rw [haddr]
        exact Nat.mul_ne_zero hpos (by decide)
      · intro j hj hjfree hjlow
        have heq : j = i := by
          rcases Nat.lt_trichotomy j i with hlt | heq | hgt
          · rw [hlow j hlt] at hjfree
            cases hjfree
          · exact heq
          · rw [hjlow i hgt] at hfree
            cases hfree
        subst heq
        refine ⟨haddr, by simp [hused], ?_⟩
        intro k hk
        simp [hused, hk]

/-! ### Runs -/

/-- What happens to the physical memory manager from `pmm_init` on. -/
inductive Op where
  | pmm_init (m : Memory) (k : Image) (mbi_phys_addr : ℕ)
  | mbi_parse (m : Memory) (phys_addr : ℕ)
  | pmm_alloc_block
  | pmm_free_block (ptr : ℕ)

inductive Step : Pmm → Op → Pmm → Prop
  | pmm_init {p p' : Pmm} {n mbi_phys_addr : ℕ} {m : Memory} {k : Image} :
      Boot.pmm_init n m k p mbi_phys_addr = some p' → Step p (.pmm_init m k mbi_phys_addr) p'
  | mbi_parse {p p' : Pmm} {n phys_addr : ℕ} {m : Memory} {fb fb' : framebuffer_info} :
      Boot.mbi_parse n m p fb phys_addr = some (p', fb') → Step p (.mbi_parse m phys_addr) p'
  | pmm_alloc_block {p : Pmm} : Step p .pmm_alloc_block (Pmm.pmm_alloc_block p).2
  | pmm_free_block {p : Pmm} {ptr : ℕ} :
      Step p (.pmm_free_block ptr) (Pmm.pmm_free_block p ptr)

/-- Block 0 is none of the blocks that are freed. -/
def Op.SparesZero : Op → Prop
  | .pmm_init _ _ _ => True
  | .mbi_parse m phys_addr => ¬ Available m (P2V (u32 phys_addr)) fun a => blockOf a = 0
  | .pmm_alloc_block => True
  | .pmm_free_block ptr => blockOf ptr ≠ 0

/-- `pmm_init` leaves block 0 used. -/
theorem pmm_init_zero {n mbi_phys_addr : ℕ} {m : Memory} {k : Image} {p p' : Pmm}
    (h : pmm_init n m k p mbi_phys_addr = some p') :
  p'.used 0 = true
  := by
  apply pmm_init_reserved h
  exact ⟨by decide, Or.inr (Or.inl (by decide))⟩

/-- A step from a state with block 0 used leaves it used exactly when it spares it. -/
theorem Step.zero_iff {p q : Pmm} {op : Op} (h : Step p op q) (hzero : p.used 0 = true) :
  q.used 0 = true ↔ op.SparesZero
  := by
  cases h with
  | pmm_init hinit => exact iff_of_true (pmm_init_zero hinit) trivial
  | mbi_parse hparse =>
      rw [mbi_parse_used hparse (by decide), hzero, Op.SparesZero]
      exact and_iff_right rfl
  | pmm_alloc_block =>
      apply iff_of_true _ trivial
      rcases pmm_alloc_block_cases p with ⟨heq, -⟩ | ⟨i, -, -, -, -, hused⟩
      · rw [heq, hzero]
      · rw [hused, hzero, Bool.or_true]
  | pmm_free_block =>
      rw [Pmm.pmm_free_block, used_mark_free, hzero, Op.SparesZero, Bool.and_true,
        Bool.not_eq_true', decide_eq_false_iff_not]
      constructor
      · intro hnot heq
        exact hnot ⟨heq.symm, by rw [heq]; decide⟩
      · rintro hne ⟨heq, -⟩
        exact hne heq.symm

/-- From `pmm_init` on, allocation keeps its promise as long as no step frees block 0, and with
the first step that does it stops to. -/
theorem alloc_serves {n mbi_phys_addr : ℕ} {m : Memory} {k : Image} {p₀ p q r : Pmm}
    {ops : List Op} {op : Op} (hinit : pmm_init n m k p₀ mbi_phys_addr = some p)
    (hrun : Run (Restrict Step fun _ op => op.SparesZero) p ops q) (hstep : Step q op r) :
  Serves q ∧ (Serves r ↔ op.SparesZero)
  := by
  have hzero : q.used 0 = true := by
    apply hrun.invariant (I := fun q => q.used 0 = true) _ (pmm_init_zero hinit)
    rintro s op t hs ⟨hspares, hst⟩
    exact (hst.zero_iff hs).mpr hspares
  rw [serves_iff, serves_iff]
  exact ⟨hzero, hstep.zero_iff hzero⟩

/-- With the 639 KiB below the BIOS data area available, block 0 is free after the boot sequence
and `pmm_alloc_block` returns `NULL`. -/
theorem alloc_returns_null_for_block_zero :
  ∃ p₁ p₂ fb', pmm_init (2 ^ 64 + 1) (oneRegion 0 0x9FC00) smallImage ⟨fun _ => 0, 0⟩ 0x9000 =
      some p₁ ∧
    mbi_parse (2 ^ 64 + 1) (oneRegion 0 0x9FC00) p₁ ⟨0, 0, 0, 0, 0⟩ 0x9000 = some (p₂, fb') ∧
    p₂.used 0 = false ∧ (pmm_alloc_block p₂).1 = 0 ∧ ¬ Serves p₂
  := by
  have hwf : WellFormed (oneRegion 0 0x9FC00) 0x9000 :=
    WellFormed.of_within (n := 3) (by decide +kernel)
  obtain ⟨p₁, hinit⟩ := hwf.pmm_init_returns (n := 2 ^ 64 + 1) (by omega) smallImage_placed
    ⟨fun _ => 0, 0⟩
  obtain ⟨⟨p₂, fb'⟩, hparse⟩ := hwf.mbi_parse_returns (n := 2 ^ 64 + 1) (by omega) p₁ ⟨0, 0, 0, 0, 0⟩
  have hfree : p₂.used 0 = false := by
    by_contra hused
    rw [Bool.not_eq_false, mbi_parse_used hparse (by decide)] at hused
    apply hused.2
    refine ⟨P2V 0x9000 + 8, Loop.Visits.here ?_, ?_, P2V 0x9000 + 24, Loop.Visits.here ?_, ?_, 0,
      Loop.Visits.here ?_, ?_⟩
    all_goals decide +kernel
  refine ⟨p₁, p₂, fb', hinit, hparse, hfree, ?_, ?_⟩
  · rcases pmm_alloc_block_cases p₂ with ⟨heq, -⟩ | ⟨i, -, -, hlow, haddr, -⟩
    · rw [heq]
    · cases i with
      | zero => simpa using haddr
      | succ i =>
          rw [hlow 0 (Nat.succ_pos i)] at hfree
          cases hfree
  · rw [serves_iff, hfree]
    decide

/-- A block is allocated and freed, and `NULL` is freed next. -/
theorem alloc_serves_until_null :
  ∃ p q r, pmm_init (2 ^ 64 + 1) (oneRegion 0x200000 0x4000) smallImage ⟨fun _ => 0, 0⟩ 0x9000 =
      some p ∧
    Run (Restrict Step fun _ op => op.SparesZero) p [.pmm_alloc_block, .pmm_free_block 0x200000] q ∧
    Step q (.pmm_free_block 0) r ∧ Serves q ∧ ¬ Serves r
  := by
  have hwf : WellFormed (oneRegion 0x200000 0x4000) 0x9000 :=
    WellFormed.of_within (n := 3) (by decide +kernel)
  obtain ⟨p, hinit⟩ := hwf.pmm_init_returns (n := 2 ^ 64 + 1) (by omega) smallImage_placed
    ⟨fun _ => 0, 0⟩
  have hspares : (Op.pmm_free_block 0x200000).SparesZero := by
    rw [Op.SparesZero]
    decide
  let q := pmm_free_block (pmm_alloc_block p).2 0x200000
  have hrun : Run (Restrict Step fun _ op => op.SparesZero) p
      [.pmm_alloc_block, .pmm_free_block 0x200000] q :=
    Run.cons ⟨trivial, Step.pmm_alloc_block⟩
      (Run.cons ⟨hspares, Step.pmm_free_block⟩ (Run.nil _))
  have hnull : Step q (.pmm_free_block 0) (pmm_free_block q 0) := Step.pmm_free_block
  obtain ⟨hserves, hiff⟩ := alloc_serves hinit hrun hnull
  refine ⟨p, q, _, hinit, hrun, hnull, hserves, ?_⟩
  rw [hiff, Op.SparesZero]
  decide

end Boot
