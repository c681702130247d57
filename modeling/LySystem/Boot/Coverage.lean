import LySystem.Mem.PmmRun
import LySystem.Boot.Progress

/-!
# What `pmm_init` covers

`pmm_init` frees and reserves by page addresses counted from the start of a range.  Where a range
does not start at a page boundary, the block of its last bytes may be missed, and the block of
its first bytes is taken whole.
-/

namespace Boot

open Paging Pmm

/-! ### The blocks after `pmm_init` -/

/-- A page address of available memory that `pmm_init` frees, in the block `b`. -/
def Freed (m : Memory) (mbi_phys_addr b : ℕ) : Prop :=
  Available m (P2V mbi_phys_addr) fun a => a < MAX_BLOCKS * PAGE_SIZE ∧ a / PAGE_SIZE = b

/-- A block is used after `pmm_init` exactly when it is reserved or not freed. -/
theorem pmm_init_used {n : ℕ} {m : Memory} {k : Image} {p p' : Pmm} {mbi_phys_addr b : ℕ}
    (h : pmm_init n m k p mbi_phys_addr = some p') (hb : b < total_blocks) :
  p'.used b = true ↔ Reserved k mbi_phys_addr b ∨ ¬ Freed m mbi_phys_addr b
  := by
  obtain ⟨p₁, hp₁, hiff⟩ := pmm_init_iff h hb
  have hround : ∀ (p : Pmm) a,
      (if a < MAX_BLOCKS * PAGE_SIZE then pmm_mark_free p a else p).used b = true ↔
        p.used b = true ∧ ¬ (a < MAX_BLOCKS * PAGE_SIZE ∧ a / PAGE_SIZE = b) := by
    intro p a
    split_ifs with ha
    · have hblock : blockOf a = a / PAGE_SIZE := by
        apply u32_of_lt
        rw [MAX_BLOCKS, PAGE_SIZE] at ha
        rw [PAGE_SIZE]
        omega
      rw [mark_free_keeps hb, hblock, and_iff_right ha]
    · simp [ha]
  have hstart : (allUsed p.pmm_bitmap).used b = true := used_allUsed _ hb
  have hfree : p₁.used b = true ↔ ¬ Freed m mbi_phys_addr b := by
    rw [eachTag_iff (P := fun p : Pmm => p.used b = true)
      (Q := fun tag => tagType m tag = 6 ∧
        AvailableIn m tag fun a => a < MAX_BLOCKS * PAGE_SIZE ∧ a / PAGE_SIZE = b) _ hp₁]
    · exact and_iff_right hstart
    · intro p tag q hq
      split_ifs at hq with htype
      · rw [eachAvailable_iff (P := fun p : Pmm => p.used b = true) hround hq]
        simp [htype]
      · obtain rfl := Option.some.inj hq
        simp [htype]
  rw [hiff, hfree, or_comm]

/-! ### What is reserved -/

/-- The block `b` meets the bytes from `lo` up to `hi`. -/
def Meets (b lo hi : ℕ) : Prop := ∃ x, lo ≤ x ∧ x < hi ∧ x / PAGE_SIZE = b

/-- The block meets the kernel image, the first MiB or the boot information. -/
def Occupied (k : Image) (m : Memory) (mbi_phys_addr b : ℕ) : Prop :=
  Meets b (sub64 k.kernel_start KERNEL_OFFSET) (sub64 k.kernel_end KERNEL_OFFSET) ∨
    Meets b 0 0x100000 ∨
    Meets b mbi_phys_addr (mbi_phys_addr + m.load (P2V mbi_phys_addr) 4)

/-- The block of the last bytes of an image that ends at a lower offset in its page than it
starts at. -/
def ImageTail (k : Image) (b : ℕ) : Prop :=
  let start := sub64 k.kernel_start KERNEL_OFFSET
  let stop := sub64 k.kernel_end KERNEL_OFFSET
  start < stop ∧ (stop - 1) % PAGE_SIZE < start % PAGE_SIZE ∧ b = (stop - 1) / PAGE_SIZE

/-- A block of the boot information behind its first one. -/
def InfoTail (m : Memory) (mbi_phys_addr b : ℕ) : Prop :=
  mbi_phys_addr / PAGE_SIZE < b ∧ b * PAGE_SIZE < mbi_phys_addr + m.load (P2V mbi_phys_addr) 4

/-- The pages of a range miss the block of its last bytes only, and only when the range ends at a
lower offset in its page than it starts at. -/
theorem meets_iff {start stop b : ℕ} (hstop : stop + 4096 ≤ 2 ^ 64) (hb : b < total_blocks)
    (hmissed : ¬ ∃ a, PageOf start stop a ∧ blockOf a = b) :
  Meets b start stop ↔
    start < stop ∧ (stop - 1) % PAGE_SIZE < start % PAGE_SIZE ∧ b = (stop - 1) / PAGE_SIZE
  := by
  have hpages : ∀ i, start + 4096 * i < stop → (start + 4096 * i) / 4096 ≠ b := by
    intro i hi heq
    apply hmissed
    refine ⟨start + 4096 * i, (pageOf_iff hstop).mpr ⟨hi, i, rfl⟩, ?_⟩
    rw [blockOf, PAGE_SIZE, heq, u32_of_lt]
    rw [total_blocks, MAX_BLOCKS] at hb
    omega
  rw [PAGE_SIZE]
  constructor
  · rintro ⟨x, hlow, hhigh, hx⟩
    rw [PAGE_SIZE] at hx
    -- The page address at or before `x`, and the next one.
    have hpage := hpages ((x - start) / 4096) (by omega)
    have hnext := hpages ((x - start) / 4096 + 1)
    omega
  · rintro ⟨hlt, -, rfl⟩
    exact ⟨stop - 1, by omega, by omega, rfl⟩

/-- An occupied block is reserved, or it is one of those two. -/
theorem occupied_iff {k : Image} (hk : Placed k) {m : Memory} {mbi_phys_addr b : ℕ}
    (hb : b < total_blocks) (hreserved : ¬ Reserved k mbi_phys_addr b) :
  Occupied k m mbi_phys_addr b ↔ ImageTail k b ∨ InfoTail m mbi_phys_addr b
  := by
  rw [Reserved, and_iff_right hb, not_or, not_or] at hreserved
  obtain ⟨himage, hlow, hself⟩ := hreserved
  have hmib : ¬ Meets b 0 0x100000 := by
    rintro ⟨x, -, hx, rfl⟩
    rw [PAGE_SIZE] at hlow
    omega
  have hinfo : Meets b mbi_phys_addr (mbi_phys_addr + m.load (P2V mbi_phys_addr) 4) ↔
      InfoTail m mbi_phys_addr b := by
    rw [InfoTail, PAGE_SIZE]
    constructor
    · rintro ⟨x, hxlow, hxhigh, hx⟩
      rw [PAGE_SIZE] at hx
      have hne : mbi_phys_addr / 4096 ≠ b := by
        intro heq
        apply hself
        rw [blockOf, PAGE_SIZE, heq, u32_of_lt]
        rw [total_blocks, MAX_BLOCKS] at hb
        omega
      omega
    · rintro ⟨hafter, hbefore⟩
      refine ⟨b * 4096, by omega, hbefore, ?_⟩
      rw [PAGE_SIZE]
      omega
  rw [Occupied, meets_iff hk.end_le hb himage, hinfo, ImageTail, or_iff_right hmib]

/-- After `pmm_init` every occupied block is used exactly when no page address of available
memory lies in a block of the tail of the image or of the boot information that is not reserved
otherwise. -/
theorem pmm_init_occupied_iff {n : ℕ} {m : Memory} {k : Image} {p p' : Pmm} {mbi_phys_addr : ℕ}
    (hk : Placed k) (h : pmm_init n m k p mbi_phys_addr = some p') :
  (∀ b < total_blocks, Occupied k m mbi_phys_addr b → p'.used b = true) ↔
    ∀ b < total_blocks, ImageTail k b ∨ InfoTail m mbi_phys_addr b →
      Reserved k mbi_phys_addr b ∨ ¬ Freed m mbi_phys_addr b
  := by
  constructor
  · intro hall b hb htail
    by_cases hreserved : Reserved k mbi_phys_addr b
    · exact Or.inl hreserved
    · exact (pmm_init_used h hb).mp (hall b hb ((occupied_iff hk hb hreserved).mpr htail))
  · intro hall b hb hoccupied
    apply (pmm_init_used h hb).mpr
    by_cases hreserved : Reserved k mbi_phys_addr b
    · exact Or.inl hreserved
    · exact hall b hb ((occupied_iff hk hb hreserved).mp hoccupied)

/-- With an image that starts 40 bytes into a page, behind the boot header, and ends 16 bytes into
one, the block of its end is free. -/
theorem image_tail_free :
  WellFormed (oneRegion 0x100000 0x100000) 0x9000 ∧
    Placed ⟨KERNEL_OFFSET + 0x100028, KERNEL_OFFSET + 0x102010⟩ ∧
    Occupied ⟨KERNEL_OFFSET + 0x100028, KERNEL_OFFSET + 0x102010⟩ (oneRegion 0x100000 0x100000)
      0x9000 0x102 ∧
    ∃ p', pmm_init (2 ^ 64 + 1) (oneRegion 0x100000 0x100000)
        ⟨KERNEL_OFFSET + 0x100028, KERNEL_OFFSET + 0x102010⟩ ⟨fun _ => 0, 0⟩ 0x9000 = some p' ∧
      p'.used 0x102 = false
  := by
  have hwf : WellFormed (oneRegion 0x100000 0x100000) 0x9000 :=
    WellFormed.of_within (n := 3) (by decide +kernel)
  have hk : Placed ⟨KERNEL_OFFSET + 0x100028, KERNEL_OFFSET + 0x102010⟩ := by
    constructor <;> decide
  obtain ⟨p', hinit⟩ := hwf.pmm_init_returns (n := 2 ^ 64 + 1) (by omega) hk ⟨fun _ => 0, 0⟩
  have hstart : sub64 (KERNEL_OFFSET + 0x100028) KERNEL_OFFSET = 0x100028 := by decide
  have hstop : sub64 (KERNEL_OFFSET + 0x102010) KERNEL_OFFSET = 0x102010 := by decide
  have htag : Tag (oneRegion 0x100000 0x100000) (P2V 0x9000) (P2V 0x9000 + 8) :=
    Loop.Visits.here (by decide +kernel)
  have hentry : Entry (oneRegion 0x100000 0x100000) (P2V 0x9000 + 8) (P2V 0x9000 + 24) :=
    Loop.Visits.here (by decide +kernel)
  have haddr : entryAddr (oneRegion 0x100000 0x100000) (P2V 0x9000 + 24) = 0x100000 := by
    decide +kernel
  have hend : entryStop (oneRegion 0x100000 0x100000) (P2V 0x9000 + 24) = 0x200000 := by
    decide +kernel
  refine ⟨hwf, hk, ?_, p', hinit, ?_⟩
  · left
    refine ⟨0x102000, ?_, ?_, by decide⟩
    · rw [hstart]
      decide
    · rw [hstop]
      decide
  · by_contra hused
    rw [Bool.not_eq_false, pmm_init_used hinit (by decide)] at hused
    rcases hused with ⟨-, ⟨a, ha, hblock⟩ | hlow | hself⟩ | hfreed
    · rw [hstart, hstop, pageOf_iff (by decide)] at ha
      obtain ⟨hlt, i, rfl⟩ := ha
      rw [blockOf, PAGE_SIZE, u32] at hblock
      omega
    · revert hlow
      decide
    · revert hself
      decide
    · apply hfreed
      refine ⟨_, htag, by decide +kernel, _, hentry, by decide +kernel, 0x102000, ?_, by decide, by decide⟩
      rw [haddr, hend, pageOf_iff (by decide)]
      exact ⟨by decide, 2, rfl⟩

/-- With a region from 2 MiB on all occupied blocks are used. -/
theorem occupied_used_above :
  ∃ p', pmm_init (2 ^ 64 + 1) (oneRegion 0x200000 0x4000) smallImage ⟨fun _ => 0, 0⟩ 0x9000 = some p' ∧
    ∀ b < total_blocks, Occupied smallImage (oneRegion 0x200000 0x4000) 0x9000 b → p'.used b = true
  := by
  have hwf : WellFormed (oneRegion 0x200000 0x4000) 0x9000 :=
    WellFormed.of_within (n := 3) (by decide +kernel)
  obtain ⟨p', hinit⟩ := hwf.pmm_init_returns (n := 2 ^ 64 + 1) (by omega) smallImage_placed
    ⟨fun _ => 0, 0⟩
  refine ⟨p', hinit, (pmm_init_occupied_iff smallImage_placed hinit).mpr ?_⟩
  rintro b - (⟨-, hoffset, -⟩ | ⟨hafter, hbefore⟩)
  · have hstart : sub64 smallImage.kernel_start KERNEL_OFFSET = 0x100000 := by decide
    rw [hstart, PAGE_SIZE] at hoffset
    omega
  · have hsize : (oneRegion 0x200000 0x4000).load (P2V 0x9000) 4 = 56 := by decide +kernel
    rw [hsize, PAGE_SIZE] at hbefore
    rw [PAGE_SIZE] at hafter
    omega

/-! ### What is freed -/

/-- The byte `x` belongs to an available region. -/
def InRegion (m : Memory) (base x : ℕ) : Prop :=
  ∃ tag, Tag m base tag ∧ tagType m tag = 6 ∧ ∃ entry, Entry m tag entry ∧ entryType m entry = 1 ∧
    entryAddr m entry ≤ x ∧ x < entryAddr m entry + entryLen m entry

/-- The first or the last page address of an entry's region. -/
def EdgePage (m : Memory) (entry a : ℕ) : Prop :=
  0 < entryLen m entry ∧ entryAddr m entry + entryLen m entry < 2 ^ 64 ∧
    (a = entryAddr m entry ∨
      a = entryAddr m entry + (entryLen m entry - 1) / PAGE_SIZE * PAGE_SIZE)

/-- The blocks that are free after `pmm_init` lie in available memory exactly when, for the first
and the last page address of each available region whose block is not reserved, the bytes of that
block outside the region belong to other available regions. -/
theorem pmm_init_inside_iff {n : ℕ} {m : Memory} {k : Image} {p p' : Pmm} {mbi_phys_addr : ℕ}
    (h : pmm_init n m k p mbi_phys_addr = some p') :
  (∀ b < total_blocks, p'.used b = false → ∀ x, x / PAGE_SIZE = b →
    InRegion m (P2V mbi_phys_addr) x) ↔
  ∀ tag, Tag m (P2V mbi_phys_addr) tag → tagType m tag = 6 →
    ∀ entry, Entry m tag entry → entryType m entry = 1 →
      ∀ a, EdgePage m entry a → a / PAGE_SIZE < total_blocks →
        ¬ Reserved k mbi_phys_addr (a / PAGE_SIZE) →
          ∀ x, x / PAGE_SIZE = a / PAGE_SIZE →
            x < entryAddr m entry ∨ entryAddr m entry + entryLen m entry ≤ x →
              InRegion m (P2V mbi_phys_addr) x
  := by
  -- The page addresses of a region.
  have hends : ∀ tag, Tag m (P2V mbi_phys_addr) tag → tagType m tag = 6 →
      ∀ entry, Entry m tag entry → entryType m entry = 1 →
        entryStop m entry ≤ 2 ^ 64 - 4096 + entryAddr m entry % 4096 := by
    intro tag ht htype entry he hetype
    obtain ⟨p₁, hp₁, -⟩ := Option.bind_eq_some_iff.mp h
    have hfollow : Followable m (P2V mbi_phys_addr) := by
      apply eachTag_followable _ hp₁
      intro t tag t' htype ht
      rw [if_pos htype] at ht
      exact eachAvailable_mapEnds ht
    exact (hfollow.maps tag ht htype).pages entry he hetype
  have hfree : ∀ b < total_blocks, (p'.used b = false ↔
      ¬ Reserved k mbi_phys_addr b ∧ Freed m mbi_phys_addr b) := by
    intro b hb
    rw [← Bool.not_eq_true, pmm_init_used h hb, not_or, not_not]
  have haddr := entryAddr_lt m
  have hlen : ∀ entry, entryLen m entry < 2 ^ 64 := fun entry => Memory.load_lt m (entry + 8) 8
  constructor
  · rintro hall tag ht htype entry he hetype a ⟨hpos, hfits, hedge⟩ hb hreserved x hx -
    apply hall _ hb ((hfree _ hb).mpr ⟨hreserved, ?_⟩) x hx
    have hstop : entryStop m entry = entryAddr m entry + entryLen m entry := u64_of_lt hfits
    refine ⟨tag, ht, htype, entry, he, hetype, a, ?_, ?_, rfl⟩
    · rw [pageOf_iff_of_le (hends tag ht htype entry he hetype), hstop]
      rw [PAGE_SIZE] at hedge
      rcases hedge with heq | heq
      · exact ⟨by omega, 0, by omega⟩
      · exact ⟨by omega, (entryLen m entry - 1) / 4096, by omega⟩
    · rw [total_blocks, PAGE_SIZE] at hb
      rw [PAGE_SIZE]
      omega
  · intro hedges b hb hbfree x hx
    obtain ⟨hreserved, tag, ht, htype, entry, he, hetype, a, ha, -, rfl⟩ := (hfree b hb).mp hbfree
    rw [pageOf_iff_of_le (hends tag ht htype entry he hetype)] at ha
    obtain ⟨hlt, i, hi⟩ := ha
    have hfits : entryAddr m entry + entryLen m entry < 2 ^ 64 := by
      have := haddr entry
      have := hlen entry
      rw [entryStop, u64] at hlt
      omega
    rw [entryStop, u64_of_lt hfits] at hlt
    by_cases hin : entryAddr m entry ≤ x ∧ x < entryAddr m entry + entryLen m entry
    · exact ⟨tag, ht, htype, entry, he, hetype, hin⟩
    · apply hedges tag ht htype entry he hetype a ⟨by omega, hfits, ?_⟩ hb hreserved x hx (by omega)
      rw [PAGE_SIZE] at hx ⊢
      omega

/-- A region of one page that starts in the middle of a block frees the whole block. -/
theorem unaligned_region_frees_block :
  WellFormed (oneRegion 0x200800 0x1000) 0x9000 ∧
    ¬ InRegion (oneRegion 0x200800 0x1000) (P2V 0x9000) 0x200000 ∧
    ∃ p', pmm_init (2 ^ 64 + 1) (oneRegion 0x200800 0x1000) smallImage ⟨fun _ => 0, 0⟩ 0x9000 =
        some p' ∧ p'.used (0x200000 / PAGE_SIZE) = false
  := by
  have hwf : WellFormed (oneRegion 0x200800 0x1000) 0x9000 :=
    WellFormed.of_within (n := 3) (by decide +kernel)
  obtain ⟨p', hinit⟩ := hwf.pmm_init_returns (n := 2 ^ 64 + 1) (by omega) smallImage_placed
    ⟨fun _ => 0, 0⟩
  have htags : Loop.forValues (tagCond (oneRegion 0x200800 0x1000)
      (mbiEnd (oneRegion 0x200800 0x1000) (P2V 0x9000))) (tagNext (oneRegion 0x200800 0x1000)) 2
      (u64 (P2V 0x9000 + 8)) = some [P2V 0x9000 + 8] := by decide +kernel
  have hentries : Loop.forValues (entryCond (oneRegion 0x200800 0x1000) (P2V 0x9000 + 8))
      (entryNext (oneRegion 0x200800 0x1000) (P2V 0x9000 + 8)) 2 (u64 (P2V 0x9000 + 8 + 16)) =
      some [P2V 0x9000 + 24] := by decide +kernel
  have haddr : entryAddr (oneRegion 0x200800 0x1000) (P2V 0x9000 + 24) = 0x200800 := by decide +kernel
  refine ⟨hwf, ?_, p', hinit, ?_⟩
  · rintro ⟨tag, ht, -, entry, he, -, hlow, -⟩
    obtain rfl : tag = P2V 0x9000 + 8 := by simpa using (Loop.mem_forValues htags).mpr ht
    obtain rfl : entry = P2V 0x9000 + 24 := by simpa using (Loop.mem_forValues hentries).mpr he
    rw [haddr] at hlow
    omega
  · by_contra hused
    rw [Bool.not_eq_false, pmm_init_used hinit (by decide)] at hused
    rcases hused with ⟨-, ⟨a, ha, hblock⟩ | hlow | hself⟩ | hfreed
    · have hstart : sub64 smallImage.kernel_start KERNEL_OFFSET = 0x100000 := by decide
      have hstop : sub64 smallImage.kernel_end KERNEL_OFFSET = 0x102000 := by decide
      rw [hstart, hstop, pageOf_iff (by decide)] at ha
      rw [blockOf, PAGE_SIZE, u32] at hblock
      omega
    · exact absurd hlow (by decide)
    · exact absurd hself (by decide)
    · apply hfreed
      have htag : P2V 0x9000 + 8 ∈ [P2V 0x9000 + 8] := List.mem_singleton_self _
      have hentry : P2V 0x9000 + 24 ∈ [P2V 0x9000 + 24] := List.mem_singleton_self _
      refine ⟨_, (Loop.mem_forValues htags).mp htag, by decide +kernel, _,
        (Loop.mem_forValues hentries).mp hentry, by decide +kernel, 0x200800, Loop.Visits.here ?_,
        by decide, by decide⟩
      decide +kernel

/-- A region of four whole pages frees available memory only. -/
theorem aligned_region_inside :
  ∃ p', pmm_init (2 ^ 64 + 1) (oneRegion 0x200000 0x4000) smallImage ⟨fun _ => 0, 0⟩ 0x9000 = some p' ∧
    ∀ b < total_blocks, p'.used b = false → ∀ x, x / PAGE_SIZE = b →
      InRegion (oneRegion 0x200000 0x4000) (P2V 0x9000) x
  := by
  have hwf : WellFormed (oneRegion 0x200000 0x4000) 0x9000 :=
    WellFormed.of_within (n := 3) (by decide +kernel)
  obtain ⟨p', hinit⟩ := hwf.pmm_init_returns (n := 2 ^ 64 + 1) (by omega) smallImage_placed
    ⟨fun _ => 0, 0⟩
  refine ⟨p', hinit, (pmm_init_inside_iff hinit).mpr ?_⟩
  intro tag ht htype entry he hetype a hedge hb hreserved x hx hout
  have htags : Loop.forValues (tagCond (oneRegion 0x200000 0x4000)
      (mbiEnd (oneRegion 0x200000 0x4000) (P2V 0x9000))) (tagNext (oneRegion 0x200000 0x4000)) 2
      (u64 (P2V 0x9000 + 8)) = some [P2V 0x9000 + 8] := by decide +kernel
  obtain rfl : tag = P2V 0x9000 + 8 := by simpa using (Loop.mem_forValues htags).mpr ht
  have hentries : Loop.forValues (entryCond (oneRegion 0x200000 0x4000) (P2V 0x9000 + 8))
      (entryNext (oneRegion 0x200000 0x4000) (P2V 0x9000 + 8)) 2 (u64 (P2V 0x9000 + 8 + 16)) =
      some [P2V 0x9000 + 24] := by decide +kernel
  obtain rfl : entry = P2V 0x9000 + 24 := by simpa using (Loop.mem_forValues hentries).mpr he
  have haddr : entryAddr (oneRegion 0x200000 0x4000) (P2V 0x9000 + 24) = 0x200000 := by decide +kernel
  have hlen : entryLen (oneRegion 0x200000 0x4000) (P2V 0x9000 + 24) = 0x4000 := by decide +kernel
  obtain ⟨-, -, hedge⟩ := hedge
  rw [haddr, hlen] at hedge hout
  rw [PAGE_SIZE] at hx
  rw [PAGE_SIZE] at hedge
  omega

end Boot
