import LySystem.Mem.HeapCalls

/-!
# Stale pointers

`kfree` recognises a header by its magic number.  The merge pass leaves the headers it joins in
memory, and those who hold the block around them may store anything, so a pointer that is not
live may have the magic number before it.  `kfree` then sets one byte.
-/

namespace Heap

open FirstFit Transition

/-- `kfree` returns, with the headers of the list and the live payloads as they were. -/
def Refused (heap_start : ℕ) (s : State) (bs : List Block) (ptr : ℕ) : Prop :=
  ∃ n m, Heap.kfree n s.mem heap_start ptr = some m ∧
    (∀ b ∈ bs, Memory.AgreeOn b.addr (b.addr + headerSize) s.mem m) ∧
    ∀ p x, s.Payload p x → m x = s.mem x

/-- The address of the flag `kfree` sets. -/
def flagOf (ptr : ℕ) : ℕ := sub64 ptr headerSize + 4

/-- A byte of a header of the list or of a live payload. -/
def State.Kept (s : State) (bs : List Block) (x : ℕ) : Prop :=
  (∃ b ∈ bs, b.addr ≤ x ∧ x < b.addr + headerSize) ∨ ∃ p, s.Payload p x

/-! ### The bytes of a header -/

theorem load_four (m : Memory) (a : ℕ) :
  m.load a 4 = (m a).toNat + 256 * ((m (a + 1)).toNat + 256 * ((m (a + 2)).toNat +
    256 * (m (a + 3)).toNat))
  := by
  simp only [Memory.load, Nat.add_assoc, Nat.mul_zero, Nat.add_zero, Nat.reduceAdd]

theorem load_eight (m : Memory) (a : ℕ) :
  m.load a 8 = m.load a 4 + 2 ^ 32 * m.load (a + 4) 4
  := by
  simp only [Memory.load, Nat.add_assoc, Nat.mul_zero, Nat.add_zero, Nat.reduceAdd]
  ring

/-- With a size below `2 ^ 32` and a link that is `NULL` or points into the upper 2 GiB, there is
no magic number from byte 12 of a header on. -/
theorem no_magic_inside {m : Memory} {a o : ℕ} (hsize : size m a < 2 ^ 32)
    (hnext : next m a = 0 ∨ Paging.KERNEL_OFFSET ≤ next m a) (hlo : 12 ≤ o) (hhi : o < 20) :
  magic m (a + o) ≠ HEAP_MAGIC
  := by
  intro hmagic
  rw [size, load_eight, load_four m (a + 8 + 4)] at hsize
  rw [next, load_eight, load_four m (a + 16), load_four m (a + 16 + 4), Paging.KERNEL_OFFSET] at hnext
  rw [magic, load_four, HEAP_MAGIC] at hmagic
  have hbyte : ∀ x, (m x).toNat < 256 := fun x => (m x).isLt
  have h₁ := hbyte (a + 16)
  have h₂ := hbyte (a + 16 + 1)
  have h₃ := hbyte (a + 16 + 2)
  have h₄ := hbyte (a + 16 + 3)
  have h₅ := hbyte (a + 20)
  have h₆ := hbyte (a + 20 + 1)
  have h₇ := hbyte (a + 20 + 2)
  have h₈ := hbyte (a + 20 + 3)
  interval_cases o <;> simp only [Nat.add_assoc, Nat.reduceAdd] at * <;> omega

/-- The link of a header in the list is `NULL` or the address of another header in it. -/
theorem HeaderList.next_mem {m : Memory} {p : ℕ} {bs : List Block} (h : HeaderList m p bs)
    {b : Block} (hb : b ∈ bs) :
  next m b.addr = 0 ∨ ∃ c ∈ bs, next m b.addr = c.addr
  := by
  induction bs generalizing p with
  | nil => cases hb
  | cons d bs ih =>
      obtain ⟨-, -, -, -, hrest⟩ := HeaderList.cons_iff.mp h
      rcases List.mem_cons.mp hb with rfl | hb
      · cases bs with
        | nil => exact Or.inl hrest.pointer
        | cons c cs =>
            obtain ⟨hc, -⟩ := HeaderList.cons_iff.mp hrest
            exact Or.inr ⟨c, by simp, hc⟩
      · rcases ih hrest hb with hnull | ⟨c, hc, heq⟩
        · exact Or.inl hnull
        · exact Or.inr ⟨c, List.mem_cons_of_mem d hc, heq⟩

theorem setIsFree_eq_set (m : Memory) (h : ℕ) :
  setIsFree m h 1 = m.set (h + 4) 1
  := by
  funext x
  rw [setIsFree, Memory.store, Memory.splice, Memory.set]
  by_cases hx : x = h + 4
  · rw [if_pos (by omega), if_pos hx, hx, Nat.sub_self]
    rfl
  · rw [if_neg (by omega), if_neg hx]

/-! ### A pointer that is not live -/

section

variable {lo hi ptr : ℕ} {s : State} {bs : List Block}

/-- The byte set is neither the flag of a block in use nor part of a link. -/
theorem Describes.flag_place (h : Describes lo hi s bs) (hlo : Paging.KERNEL_OFFSET ≤ lo)
    (hhi : hi < 2 ^ 64) (hptr : ptr < 2 ^ 64) (hdead : s.live ptr = none)
    (hmagic : magic s.mem (sub64 ptr headerSize) = HEAP_MAGIC) {b : Block} (hb : b ∈ bs) :
  (flagOf ptr = b.addr + 4 → b.free) ∧ (flagOf ptr < b.addr + 16 ∨ b.addr + 24 ≤ flagOf ptr)
  := by
  obtain ⟨hblo, hbhi⟩ := h.tiles.bounds hb
  have hsize : size s.mem b.addr = b.size := size_of_header (h.list.mem hb).2.2
  rw [Block.stop, headerSize] at hbhi
  rw [flagOf]
  constructor
  · intro hflag
    by_contra hused
    have hpay : b.payload headerSize = ptr := by
      rw [sub64, u64, headerSize] at hflag
      rw [Block.payload, headerSize]
      rw [Paging.KERNEL_OFFSET] at hlo
      omega
    exact (h.live ptr).mpr ⟨b, hb, hused, hpay⟩ hdead
  · by_contra hlink
    have hnext : next s.mem b.addr = 0 ∨ Paging.KERNEL_OFFSET ≤ next s.mem b.addr := by
      rcases h.list.next_mem hb with hnull | ⟨c, hc, heq⟩
      · exact Or.inl hnull
      · have := (h.tiles.bounds hc).1
        right
        omega
    obtain ⟨o, hoff⟩ : ∃ o, sub64 ptr headerSize = b.addr + o :=
      ⟨sub64 ptr headerSize - b.addr, by omega⟩
    rw [hoff] at hmagic hlink
    apply no_magic_inside _ hnext _ _ hmagic
    · rw [hsize]
      rw [Paging.KERNEL_OFFSET] at hlo
      omega
    · omega
    · omega

/-- With the magic number before it, the pointer gets one byte set, and the merge pass writes
nothing. -/
theorem Describes.kfree_dead (h : Describes lo hi s bs) (hlo : Paging.KERNEL_OFFSET ≤ lo)
    (hhi : hi < 2 ^ 64) (hptr : ptr < 2 ^ 64) (hnull : ptr ≠ 0) (hdead : s.live ptr = none)
    (hmagic : magic s.mem (sub64 ptr headerSize) = HEAP_MAGIC) :
  (∃ n, Heap.kfree n s.mem lo ptr = some (s.mem.set (flagOf ptr) 1)) ∧
    ∀ n m, Heap.kfree n s.mem lo ptr = some m → m = s.mem.set (flagOf ptr) 1
  := by
  have hkfree : ∀ n, Heap.kfree n s.mem lo ptr =
      Loop.iterate kfree.merge n (lo, s.mem.set (flagOf ptr) 1) := by
    intro n
    rw [Heap.kfree, if_neg hnull, if_neg (not_not.mpr hmagic), setIsFree_eq_set, flagOf]
  have hret : Loop.Returns kfree.merge (lo, s.mem.set (flagOf ptr) 1)
      (s.mem.set (flagOf ptr) 1) := by
    apply kfree_merge_quiet h.list h.apart
    · intro b hb
      have hfree : (is_free s.mem b.addr != 0) = b.free := free_of_header (h.list.mem hb).2.2
      by_cases hflag : flagOf ptr = b.addr + 4
      · rw [(h.flag_place hlo hhi hptr hdead hmagic hb).1 hflag, is_free, hflag]
        simp [Memory.load, Memory.set]
      · have hsame : is_free (s.mem.set (flagOf ptr) 1) b.addr = is_free s.mem b.addr := by
          apply Memory.load_congr
          intro i hi
          apply Memory.set_of_ne
          omega
        rw [hsame, ← hfree]
        simp
    · intro b hb
      apply Memory.load_congr
      intro i hi
      apply Memory.set_of_ne
      have := (h.flag_place hlo hhi hptr hdead hmagic hb).2
      omega
  constructor
  · obtain ⟨n, hn⟩ := hret
    exact ⟨n, (hkfree n).trans hn⟩
  · intro n m hn
    rw [hkfree] at hn
    exact hret.eq_of_iterate hn

/-- A pointer that is not live is refused exactly when it is `NULL`, no magic number lies before
it, the flag before it is 1 already, or that flag is no part of the list or of a live payload. -/
theorem Describes.refused_iff (h : Describes lo hi s bs) (hlo : Paging.KERNEL_OFFSET ≤ lo)
    (hhi : hi < 2 ^ 64) (hptr : ptr < 2 ^ 64) (hdead : s.live ptr = none) :
  Refused lo s bs ptr ↔
    ptr = 0 ∨ magic s.mem (sub64 ptr headerSize) ≠ HEAP_MAGIC ∨ s.mem (flagOf ptr) = 1 ∨
      ¬ s.Kept bs (flagOf ptr)
  := by
  by_cases hnull : ptr = 0
  · apply iff_of_true _ (Or.inl hnull)
    refine ⟨0, s.mem, by rw [Heap.kfree, if_pos hnull], ?_, fun _ _ _ => rfl⟩
    intro b _
    exact Memory.AgreeOn.refl _ _ _
  by_cases hmagic : magic s.mem (sub64 ptr headerSize) = HEAP_MAGIC
  · obtain ⟨⟨n, hn⟩, hunique⟩ := h.kfree_dead hlo hhi hptr hnull hdead hmagic
    have hkept : Refused lo s bs ptr ↔
        ∀ x, s.Kept bs x → s.mem.set (flagOf ptr) 1 x = s.mem x := by
      constructor
      · rintro ⟨n', m, hm, hheaders, hpayloads⟩ x (⟨b, hb, hlow, hhigh⟩ | ⟨p, hp⟩)
        · rw [← hunique n' m hm]
          exact hheaders b hb x hlow hhigh
        · rw [← hunique n' m hm]
          exact hpayloads p x hp
      · intro hall
        refine ⟨n, _, hn, ?_, ?_⟩
        · intro b hb x hlow hhigh
          exact hall x (Or.inl ⟨b, hb, hlow, hhigh⟩)
        · intro p x hp
          exact hall x (Or.inr ⟨p, hp⟩)
    rw [hkept]
    simp only [hnull, hmagic, ne_eq, not_true_eq_false, false_or]
    constructor
    · intro hall
      by_cases hin : s.Kept bs (flagOf ptr)
      · left
        have hsame := hall _ hin
        rw [Memory.set, if_pos rfl] at hsame
        exact hsame.symm
      · exact Or.inr hin
    · intro hwhere x hx
      rw [Memory.set]
      split_ifs with heq
      · rw [heq] at hx ⊢
        exact (hwhere.resolve_right (not_not.mpr hx)).symm
      · rfl
  · apply iff_of_true _ (Or.inr (Or.inl hmagic))
    refine ⟨0, s.mem, by rw [Heap.kfree, if_neg hnull]; exact if_pos hmagic, ?_, fun _ _ _ => rfl⟩
    intro b _
    exact Memory.AgreeOn.refl _ _ _

/-- In every reachable state of a heap in the upper 2 GiB. -/
theorem heap_refuses_iff {n : ℕ} {image : Paging.Image} {vm vm' : Paging.Vm} {heap_start : ℕ}
    (hinit : heap_init n image vm lo hi = some (vm', heap_start)) (hmapped : heap_start ≠ 0)
    (hlo : Paging.KERNEL_OFFSET ≤ lo) (hsize : lo + headerSize ≤ hi) (hhi : hi < 2 ^ 64)
    {ops : List Op} (hrun : Run (Call heap_start hi) ⟨vm'.mem, fun _ => none⟩ ops s) :
  ∃ bs, HeaderList s.mem heap_start bs ∧ ∀ ptr < 2 ^ 64, s.live ptr = none →
    (Refused heap_start s bs ptr ↔
      ptr = 0 ∨ magic s.mem (sub64 ptr headerSize) ≠ HEAP_MAGIC ∨ s.mem (flagOf ptr) = 1 ∨
        ¬ s.Kept bs (flagOf ptr))
  := by
  have hslack : slack ≤ lo := by
    rw [Paging.KERNEL_OFFSET] at hlo
    rw [slack]
    omega
  obtain ⟨rfl, bs, h⟩ := describes_run hinit hmapped hslack hsize hhi hrun
  use bs, h.list
  intro ptr hptr hdead
  exact h.refused_iff hlo hhi hptr hdead

end

/-- In a page of which nothing is handed out, the payload of its block is refused: the flag is 1
already. -/
theorem heap_refuses_page :
  ∃ vm' bs, heap_init 5 ⟨Paging.KERNEL_OFFSET, Paging.KERNEL_OFFSET⟩ freshVm HEAP_START_ADDR
      (HEAP_START_ADDR + 4096) = some (vm', HEAP_START_ADDR) ∧
    HeaderList vm'.mem HEAP_START_ADDR bs ∧
    Refused HEAP_START_ADDR ⟨vm'.mem, fun _ => none⟩ bs (HEAP_START_ADDR + 24)
  := by
  obtain ⟨vm', hinit⟩ := heap_page
  have hne : HEAP_START_ADDR ≠ 0 := by decide
  obtain ⟨-, m, hm⟩ := heap_init_eq hinit hne
  obtain ⟨bs, hlist, hall⟩ :=
    heap_refuses_iff hinit hne (by decide) (by decide) (by decide) (Run.nil _)
  refine ⟨vm', bs, hinit, hlist, (hall (HEAP_START_ADDR + 24) (by decide) rfl).mpr ?_⟩
  right; right; left
  dsimp only
  rw [hm]
  rfl

/-- Two blocks are handed out and freed, a third covers the header of the second, and its holder
stores 0 where the flag was: freeing the second pointer again stores 1 there. -/
theorem heap_double_free :
  ∃ vm' s bs, heap_init 5 ⟨Paging.KERNEL_OFFSET, Paging.KERNEL_OFFSET⟩ freshVm HEAP_START_ADDR
      (HEAP_START_ADDR + 4096) = some (vm', HEAP_START_ADDR) ∧
    Run (Call HEAP_START_ADDR (HEAP_START_ADDR + 4096)) ⟨vm'.mem, fun _ => none⟩
      [.kmalloc 16, .kmalloc 16, .kfree (HEAP_START_ADDR + 64), .kfree (HEAP_START_ADDR + 24),
        .kmalloc 200, .write (HEAP_START_ADDR + 44) 0] s ∧
    HeaderList s.mem HEAP_START_ADDR bs ∧ s.live (HEAP_START_ADDR + 64) = none ∧
    ¬ Refused HEAP_START_ADDR s bs (HEAP_START_ADDR + 64)
  := by
  have hchain : (heap_init 5 ⟨Paging.KERNEL_OFFSET, Paging.KERNEL_OFFSET⟩ freshVm HEAP_START_ADDR
      (HEAP_START_ADDR + 4096)).bind (fun r₀ =>
        (Heap.kmalloc 9 r₀.1.mem HEAP_START_ADDR 16).bind fun r₁ =>
        (Heap.kmalloc 9 r₁.2 HEAP_START_ADDR 16).bind fun r₂ =>
        (Heap.kfree 9 r₂.2 HEAP_START_ADDR (HEAP_START_ADDR + 64)).bind fun m₃ =>
        (Heap.kfree 9 m₃ HEAP_START_ADDR (HEAP_START_ADDR + 24)).bind fun m₄ =>
        (Heap.kmalloc 9 m₄ HEAP_START_ADDR 200).map fun r₅ =>
          (r₀.2, r₁.1, r₂.1, r₅.1, size r₅.2 HEAP_START_ADDR,
            magic (r₅.2.set (HEAP_START_ADDR + 44) 0) (HEAP_START_ADDR + 40))) =
      some (HEAP_START_ADDR, HEAP_START_ADDR + 24, HEAP_START_ADDR + 64, HEAP_START_ADDR + 24, 208,
        HEAP_MAGIC) := by decide +kernel
  obtain ⟨⟨vm', heap_start⟩, hinit, h⟩ := Option.bind_eq_some_iff.mp hchain
  obtain ⟨⟨p₁, m₁⟩, h₁, h⟩ := Option.bind_eq_some_iff.mp h
  obtain ⟨⟨p₂, m₂⟩, h₂, h⟩ := Option.bind_eq_some_iff.mp h
  obtain ⟨m₃, h₃, h⟩ := Option.bind_eq_some_iff.mp h
  obtain ⟨m₄, h₄, h⟩ := Option.bind_eq_some_iff.mp h
  obtain ⟨⟨p₅, m₅⟩, h₅, h⟩ := Option.map_eq_some_iff.mp h
  simp only [Prod.mk.injEq] at h
  obtain ⟨rfl, rfl, rfl, rfl, hsize, hmagic⟩ := h
  have hne : HEAP_START_ADDR + 24 ≠ 0 ∧ HEAP_START_ADDR + 64 ≠ 0 := by decide
  let s₁ : State := ⟨m₁, Function.update (fun _ => none) (HEAP_START_ADDR + 24) (some 16)⟩
  let s₂ : State := ⟨m₂, Function.update s₁.live (HEAP_START_ADDR + 64) (some 16)⟩
  let s₃ : State := ⟨m₃, Function.update s₂.live (HEAP_START_ADDR + 64) none⟩
  let s₄ : State := ⟨m₄, Function.update s₃.live (HEAP_START_ADDR + 24) none⟩
  let s₅ : State := ⟨m₅, Function.update s₄.live (HEAP_START_ADDR + 24) (some 200)⟩
  have hlive₂ : s₂.live (HEAP_START_ADDR + 64) ≠ none := by simp [s₂]
  have hlive₃ : s₃.live (HEAP_START_ADDR + 24) ≠ none := by simp [s₃, s₂, s₁]
  have hpayload : s₅.Payload (HEAP_START_ADDR + 24) (HEAP_START_ADDR + 44) := by
    refine ⟨by simp [s₅], by decide, ?_⟩
    rw [headerSize, Nat.add_sub_cancel, hsize]
    decide
  have hrun : Run (Call HEAP_START_ADDR (HEAP_START_ADDR + 4096)) ⟨vm'.mem, fun _ => none⟩
      [.kmalloc 16, .kmalloc 16, .kfree (HEAP_START_ADDR + 64), .kfree (HEAP_START_ADDR + 24),
        .kmalloc 200, .write (HEAP_START_ADDR + 44) 0] ⟨m₅.set (HEAP_START_ADDR + 44) 0, s₅.live⟩ :=
    Run.cons (Call.kmalloc_some (by decide) h₁ hne.1) <|
      Run.cons (Call.kmalloc_some (s := s₁) (by decide) h₂ hne.2) <|
      Run.cons (Call.kfree (s := s₂) (Or.inr hlive₂) h₃) <|
      Run.cons (Call.kfree (s := s₃) (Or.inr hlive₃) h₄) <|
      Run.cons (Call.kmalloc_some (s := s₄) (by decide) h₅ hne.1) <|
      Run.cons (Call.write (s := s₅) 0 fun _ => ⟨_, hpayload⟩) (Run.nil _)
  obtain ⟨-, bs, hbs⟩ := describes_run hinit (by decide) (by decide) (by decide) (by decide) hrun
  have hdead : s₅.live (HEAP_START_ADDR + 64) = none := by simp [s₅, s₄, s₃]
  refine ⟨vm', _, bs, hinit, hrun, hbs.list, hdead, ?_⟩
  rw [hbs.refused_iff (by decide) (by decide) (by decide) hdead]
  have hflag : flagOf (HEAP_START_ADDR + 64) = HEAP_START_ADDR + 44 := by decide
  have hheader : sub64 (HEAP_START_ADDR + 64) headerSize = HEAP_START_ADDR + 40 := by decide
  rw [hflag, hheader]
  rintro (hnull | hno | hset | hout)
  · exact hne.2 hnull
  · exact hno hmagic
  · simp [Memory.set] at hset
  · apply hout
    right
    refine ⟨HEAP_START_ADDR + 24, hpayload.1, hpayload.2.1, ?_⟩
    have hkeep : size (m₅.set (HEAP_START_ADDR + 44) 0) HEAP_START_ADDR = 208 := by
      rw [← hsize]
      apply Memory.load_congr
      intro i hi
      apply Memory.set_of_ne
      omega
    rw [headerSize, Nat.add_sub_cancel, hkeep]
    decide

end Heap
