import LySystem.Machine.Transition
import LySystem.Mem.Pmm

/-!
# Runs of the physical memory manager

Any sequence of calls on addresses below `2 ^ 44`, whose block numbers fit a `uint32_t`, from
the state in which every block is used.
-/

namespace Pmm

open Transition

/-- A call, with the address it is given or, for `pmm_alloc_block`, the one it returns. -/
inductive Op where
  | pmm_mark_used (phys_addr : ℕ)
  | pmm_mark_free (phys_addr : ℕ)
  | pmm_alloc_block (returned : ℕ)
  | pmm_free_block (ptr : ℕ)

inductive Step : Pmm → Op → Pmm → Prop
  | pmm_mark_used {p : Pmm} {phys_addr : ℕ} :
      phys_addr < 2 ^ 44 → Step p (.pmm_mark_used phys_addr) (Pmm.pmm_mark_used p phys_addr)
  | pmm_mark_free {p : Pmm} {phys_addr : ℕ} :
      phys_addr < 2 ^ 44 → Step p (.pmm_mark_free phys_addr) (Pmm.pmm_mark_free p phys_addr)
  | pmm_alloc_block {p : Pmm} :
      Step p (.pmm_alloc_block (Pmm.pmm_alloc_block p).1) (Pmm.pmm_alloc_block p).2
  | pmm_free_block {p : Pmm} {ptr : ℕ} :
      ptr < 2 ^ 44 → Step p (.pmm_free_block ptr) (Pmm.pmm_free_block p ptr)

/-- The state after the first two statements of `pmm_init`. -/
def allUsed (pmm_bitmap : Memory) : Pmm where
  pmm_bitmap := pmm_bitmap.fill 0 BITMAP_SIZE 0xFF
  used_blocks := total_blocks

/-- The call frees the block at `a`: its address lies inside it. -/
def Op.Frees (a : ℕ) (op : Op) : Prop :=
  ∃ b, (op = .pmm_mark_free b ∨ op = .pmm_free_block b) ∧ a ≤ b ∧ b < a + PAGE_SIZE

/-! ### The counter -/

/-- The bits of the bitmap that are on. -/
def setBits (p : Pmm) : Finset ℕ := (Finset.range total_blocks).filter fun i => p.used i = true

theorem mem_setBits {p : Pmm} {i : ℕ} :
  i ∈ setBits p ↔ i < total_blocks ∧ p.used i = true
  := by
  simp [setBits]

theorem card_setBits_le (p : Pmm) :
  (setBits p).card ≤ total_blocks
  := by
  apply le_trans (Finset.card_filter_le _ _)
  simp

/-- `used_blocks` is the number of bits that are on. -/
def Counted (p : Pmm) : Prop := p.used_blocks = (setBits p).card

theorem Counted.mark_used {p : Pmm} (h : Counted p) (phys_addr : ℕ) :
  Counted (pmm_mark_used p phys_addr)
  := by
  by_cases hnew : blockOf phys_addr < total_blocks ∧ p.used (blockOf phys_addr) = false
  · obtain ⟨hlt, hfree⟩ := hnew
    have hbits : setBits (pmm_mark_used p phys_addr) = insert (blockOf phys_addr) (setBits p) := by
      ext j
      rw [Finset.mem_insert, mem_setBits, mem_setBits, used_mark_used, Bool.or_eq_true,
        decide_eq_true_iff]
      constructor
      · rintro ⟨hj, ⟨rfl, -⟩ | hused⟩
        · left
          rfl
        · right
          exact ⟨hj, hused⟩
      · rintro (rfl | ⟨hj, hused⟩)
        · exact ⟨hlt, Or.inl ⟨rfl, hlt⟩⟩
        · exact ⟨hj, Or.inr hused⟩
    have hout : blockOf phys_addr ∉ setBits p := by
      rw [mem_setBits, hfree]
      simp
    have hcount : (pmm_mark_used p phys_addr).used_blocks = u32 (p.used_blocks + 1) := by
      rw [pmm_mark_used, if_neg (by omega), if_pos (by simp [hfree])]
    have hle := card_setBits_le p
    have htotal : total_blocks < 2 ^ 32 - 1 := by decide
    rw [Counted, hbits, Finset.card_insert_of_notMem hout, hcount, ← h, u32_of_lt]
    rw [h]
    omega
  · have hsame : pmm_mark_used p phys_addr = p := by
      rw [pmm_mark_used]
      split_ifs with hrange hfree
      · rfl
      · exact absurd ⟨by omega, by simpa using hfree⟩ hnew
      · rfl
    rw [hsame]
    exact h

theorem Counted.mark_free {p : Pmm} (h : Counted p) (phys_addr : ℕ) :
  Counted (pmm_mark_free p phys_addr)
  := by
  by_cases hold : blockOf phys_addr < total_blocks ∧ p.used (blockOf phys_addr) = true
  · obtain ⟨hlt, hused⟩ := hold
    have hbits : setBits (pmm_mark_free p phys_addr) = (setBits p).erase (blockOf phys_addr) := by
      ext j
      rw [Finset.mem_erase, mem_setBits, mem_setBits, used_mark_free, Bool.and_eq_true,
        Bool.not_eq_true', decide_eq_false_iff_not]
      constructor
      · rintro ⟨hj, hne, hused⟩
        exact ⟨fun heq => hne ⟨heq, hlt⟩, hj, hused⟩
      · rintro ⟨hne, hj, hused⟩
        exact ⟨hj, fun heq => hne heq.1, hused⟩
    have hin : blockOf phys_addr ∈ setBits p := mem_setBits.mpr ⟨hlt, hused⟩
    have hcount : (pmm_mark_free p phys_addr).used_blocks = u32 (p.used_blocks + (2 ^ 32 - 1)) := by
      rw [pmm_mark_free, if_neg (by omega), if_pos hused]
    have hle := card_setBits_le p
    have hpos := Finset.card_pos.mpr ⟨_, hin⟩
    have htotal : total_blocks < 2 ^ 32 := by decide
    rw [Counted, hbits, Finset.card_erase_of_mem hin, hcount, h, u32]
    omega
  · have hsame : pmm_mark_free p phys_addr = p := by
      rw [pmm_mark_free]
      split_ifs with hrange hused
      · rfl
      · exact absurd ⟨by omega, hused⟩ hold
      · rfl
    rw [hsame]
    exact h

theorem Counted.alloc {p : Pmm} (h : Counted p) :
  Counted (pmm_alloc_block p).2
  := by
  rw [pmm_alloc_block]
  split
  · exact h.mark_used _
  · exact h

theorem Counted.step {p q : Pmm} {op : Op} (h : Counted p) (hstep : Step p op q) :
  Counted q
  := by
  cases hstep with
  | pmm_mark_used _ => exact h.mark_used _
  | pmm_mark_free _ => exact h.mark_free _
  | pmm_alloc_block => exact h.alloc
  | pmm_free_block _ => exact h.mark_free _

theorem used_allUsed (m : Memory) {i : ℕ} (hi : i < total_blocks) :
  (allUsed m).used i = true
  := by
  have hbyte : i / 8 < BITMAP_SIZE := by
    rw [total_blocks, MAX_BLOCKS] at hi
    rw [BITMAP_SIZE, MAX_BLOCKS]
    omega
  have hfull : (allUsed m).pmm_bitmap (i / 8) = 0xFF := by
    apply if_pos
    omega
  rw [used, Bitmap.test, hfull, Bitmap.bitOn_full (Nat.mod_lt _ (by decide))]

theorem counted_allUsed (m : Memory) :
  Counted (allUsed m)
  := by
  have hall : setBits (allUsed m) = Finset.range total_blocks := by
    apply Finset.filter_true_of_mem
    intro i hi
    exact used_allUsed m (Finset.mem_range.mp hi)
  rw [Counted, hall, Finset.card_range]
  rfl

/-! ### Used blocks -/

theorem blockOf_inside {a b : ℕ} (hb : b < 2 ^ 44) (i : ℕ) (ha : a = i * PAGE_SIZE) :
  blockOf b = i ↔ a ≤ b ∧ b < a + PAGE_SIZE
  := by
  have hlt : b / PAGE_SIZE < 2 ^ 32 := by
    rw [PAGE_SIZE]
    omega
  rw [blockOf, u32_of_lt hlt, ha, PAGE_SIZE]
  omega

/-- A block stays used until it is freed. -/
theorem Step.used {p q : Pmm} {op : Op} (h : Step p op q) {i : ℕ} (hused : p.used i = true)
    (hfree : ¬ op.Frees (i * PAGE_SIZE)) :
  q.used i = true
  := by
  have hmark : ∀ b, b < 2 ^ 44 → (op = .pmm_mark_free b ∨ op = .pmm_free_block b) →
      (Pmm.pmm_mark_free p b).used i = true := by
    intro b hb hop
    rw [used_mark_free, hused, Bool.and_true, Bool.not_eq_true', decide_eq_false_iff_not]
    rintro ⟨hi, -⟩
    exact hfree ⟨b, hop, (blockOf_inside hb i rfl).mp hi.symm⟩
  cases h with
  | pmm_mark_used _ => rw [used_mark_used, hused, Bool.or_true]
  | pmm_mark_free hb => exact hmark _ hb (Or.inl rfl)
  | pmm_alloc_block =>
      rcases pmm_alloc_block_cases p with ⟨heq, -⟩ | ⟨j, -, -, -, -, hall⟩
      · rw [heq]
        exact hused
      · rw [hall, hused, Bool.or_true]
  | pmm_free_block hb => exact hmark _ hb (Or.inr rfl)

theorem used_run {p q : Pmm} {ops : List Op} (h : Run Step p ops q) {i : ℕ}
    (hused : p.used i = true) (hfree : ∀ op ∈ ops, ¬ op.Frees (i * PAGE_SIZE)) :
  q.used i = true
  := by
  apply h.invariant_mem (I := fun p => p.used i = true) _ hused
  intro p op q hop hused hstep
  exact hstep.used hused (hfree op hop)

/-- What `pmm_alloc_block` returns besides `NULL` is the address of a block that was free and is
used afterwards. -/
theorem Step.allocated {p q : Pmm} {a : ℕ} (h : Step p (.pmm_alloc_block a) q) (ha : a ≠ 0) :
  ∃ i, a = i * PAGE_SIZE ∧ p.used i = false ∧ q.used i = true
  := by
  cases h with
  | pmm_alloc_block =>
      rcases pmm_alloc_block_cases p with ⟨heq, -⟩ | ⟨i, -, hfree, -, haddr, hall⟩
      · rw [heq] at ha
        exact absurd rfl ha
      · refine ⟨i, haddr, hfree, ?_⟩
        rw [hall]
        simp

/-! ### Every run -/

/-- In every run the counter is the number of used blocks, and no block is handed out twice
without being freed in between. -/
theorem pmm_accounted {m : Memory} {p : Pmm} {ops : List Op} (hrun : Run Step (allUsed m) ops p) :
  p.used_blocks = (setBits p).card ∧
    ∀ (before between after : List Op) (a : ℕ), a ≠ 0 →
      ops = before ++ .pmm_alloc_block a :: (between ++ .pmm_alloc_block a :: after) →
        ∃ op ∈ between, op.Frees a
  := by
  constructor
  · have hcounted : Counted p :=
      hrun.invariant (fun _ _ _ => Counted.step) (counted_allUsed m)
    exact hcounted
  · rintro before between after a ha rfl
    obtain ⟨p₁, -, hrun₁⟩ := hrun.cut
    obtain - | ⟨hfst, hrun₂⟩ := hrun₁
    obtain ⟨p₃, hbetween, hrun₃⟩ := hrun₂.cut
    obtain - | ⟨hsnd, -⟩ := hrun₃
    obtain ⟨i, rfl, -, hused⟩ := hfst.allocated ha
    obtain ⟨j, heq, hfree, -⟩ := hsnd.allocated ha
    obtain rfl := Nat.eq_of_mul_eq_mul_right (by decide) heq
    by_contra hnone
    rw [used_run hbetween hused (fun op hop hfrees => hnone ⟨op, hop, hfrees⟩)] at hfree
    cases hfree

/-- A block is freed, handed out, freed and handed out again. -/
theorem pmm_accounted_twice :
  ∃ p, Run Step (allUsed fun _ => 0) [.pmm_mark_free 0x5123, .pmm_alloc_block 0x5000,
      .pmm_free_block 0x5000, .pmm_alloc_block 0x5000] p ∧
    p.used_blocks = (setBits p).card ∧
    ∃ op ∈ [Op.pmm_free_block 0x5000], op.Frees 0x5000
  := by
  let p₁ := pmm_mark_free (allUsed fun _ => 0) 0x5123
  let p₂ := (pmm_alloc_block p₁).2
  let p₃ := pmm_free_block p₂ 0x5000
  have hfst : Step p₁ (.pmm_alloc_block 0x5000) p₂ := by
    have haddr : (pmm_alloc_block p₁).1 = 0x5000 := by decide +kernel
    rw [← haddr]
    exact Step.pmm_alloc_block
  have hsnd : Step p₃ (.pmm_alloc_block 0x5000) (pmm_alloc_block p₃).2 := by
    have haddr : (pmm_alloc_block p₃).1 = 0x5000 := by decide +kernel
    rw [← haddr]
    exact Step.pmm_alloc_block
  have hfree : Step (allUsed fun _ => 0) (.pmm_mark_free 0x5123) p₁ :=
    Step.pmm_mark_free (by decide)
  have hfree' : Step p₂ (.pmm_free_block 0x5000) p₃ := Step.pmm_free_block (by decide)
  have hrun := Run.cons hfree (Run.cons hfst (Run.cons hfree' (Run.cons hsnd (Run.nil _))))
  obtain ⟨hcount, htwice⟩ := pmm_accounted hrun
  exact ⟨_, hrun, hcount, htwice [_] [_] [] 0x5000 (by decide) rfl⟩

end Pmm
