import LySystem.Boot.Mbi

/-!
# Reserved blocks

`pmm_init` frees the available memory and then reserves the kernel image, the first MiB and
the boot information.  `mbi_parse` frees the available memory a second time, and reserves
nothing.
-/

namespace Boot

open Paging Pmm

/-! ### The addresses the walks visit -/

/-- A tag of the information at `base`. -/
def Tag (m : Memory) (base tag : ℕ) : Prop :=
  Loop.Visits (tagCond m (mbiEnd m base)) (tagNext m) (u64 (base + 8)) tag

/-- An entry of the memory map `tag`. -/
def Entry (m : Memory) (tag entry : ℕ) : Prop :=
  Loop.Visits (entryCond m tag) (entryNext m tag) (u64 (tag + 16)) entry

/-- A page address of the range from `start` up to `stop`. -/
def PageOf (start stop a : ℕ) : Prop :=
  Loop.Visits (pageCond stop) pageNext start a

/-- A page address of an available entry of the memory map `tag` with the property `Q`. -/
def AvailableIn (m : Memory) (tag : ℕ) (Q : ℕ → Prop) : Prop :=
  ∃ entry, Entry m tag entry ∧ entryType m entry = 1 ∧
    ∃ a, PageOf (entryAddr m entry) (entryStop m entry) a ∧ Q a

/-- A page address of available memory with the property `Q`. -/
def Available (m : Memory) (base : ℕ) (Q : ℕ → Prop) : Prop :=
  ∃ tag, Tag m base tag ∧ tagType m tag = 6 ∧ AvailableIn m tag Q

/-- The pages of a range that ends before its page addresses wrap around. -/
theorem pageOf_iff_of_le {start stop a : ℕ} (hstop : stop ≤ 2 ^ 64 - 4096 + start % 4096) :
  PageOf start stop a ↔ a < stop ∧ ∃ i, a = start + 4096 * i
  := by
  have hnext : ∀ i, start + 4096 * i < stop →
      pageNext (start + 4096 * i) = start + 4096 * (i + 1) := by
    intro i hi
    rw [pageNext, u64_of_lt (by omega)]
    omega
  constructor
  · intro h
    have hlt : a < stop := by simpa [pageCond] using h.holds
    use hlt
    apply h.invariant (I := fun a => ∃ i, a = start + 4096 * i)
    · rintro y ⟨i, rfl⟩ hy
      exact ⟨i + 1, hnext i (by simpa [pageCond] using hy)⟩
    · use 0
      rfl
  · rintro ⟨hlt, i, rfl⟩
    induction i with
    | zero =>
        apply Loop.Visits.here
        simpa [pageCond] using hlt
    | succ i ih =>
        have hprev := ih (by omega)
        have hlast := hnext i (by omega)
        rw [← hlast] at hlt ⊢
        apply hprev.snoc
        simpa [pageCond] using hlt

/-- The pages of a range, when its end does not wrap around. -/
theorem pageOf_iff {start stop a : ℕ} (hstop : stop + 4096 ≤ 2 ^ 64) :
  PageOf start stop a ↔ a < stop ∧ ∃ i, a = start + 4096 * i
  := pageOf_iff_of_le (by omega)

section

variable {σ : Type} {P : σ → Prop} {Q : ℕ → Prop} {n : ℕ} {m : Memory} {s s' : σ}

theorem eachPage_iff {body : σ → ℕ → σ} (hbody : ∀ s a, P (body s a) ↔ P s ∧ ¬ Q a)
    {start stop : ℕ} (h : eachPage n body start stop s = some s') :
  P s' ↔ P s ∧ ¬ ∃ a, PageOf start stop a ∧ Q a
  := by
  obtain ⟨as, has, rfl⟩ := Option.map_eq_some_iff.mp h
  rw [Loop.foldl_iff hbody]
  simp only [Loop.mem_forValues has, PageOf]

theorem eachAvailable_iff {body : σ → ℕ → σ} (hbody : ∀ s a, P (body s a) ↔ P s ∧ ¬ Q a)
    {tag : ℕ} (h : eachAvailable n m body tag s = some s') :
  P s' ↔ P s ∧ ¬ AvailableIn m tag Q
  := by
  obtain ⟨entries, hentries, h⟩ := Option.bind_eq_some_iff.mp h
  rw [Loop.foldlM_iff (P := P) (Q := fun entry => entryType m entry = 1 ∧
    ∃ a, PageOf (entryAddr m entry) (entryStop m entry) a ∧ Q a) _ h]
  · simp only [Loop.mem_forValues hentries, AvailableIn, Entry]
  · intro s entry s' hs
    split_ifs at hs with htype
    · rw [eachPage_iff hbody hs]
      simp [htype]
    · obtain rfl := Option.some.inj hs
      simp [htype]

theorem eachTag_iff {body : σ → ℕ → Option σ} {base : ℕ}
    (hbody : ∀ s tag s', body s tag = some s' → (P s' ↔ P s ∧ ¬ Q tag))
    (h : eachTag n m base body s = some s') :
  P s' ↔ P s ∧ ¬ ∃ tag, Tag m base tag ∧ Q tag
  := by
  obtain ⟨tags, htags, h⟩ := Option.bind_eq_some_iff.mp h
  rw [Loop.foldlM_iff hbody h]
  simp only [Loop.mem_forValues htags, Tag]

end

/-! ### What becomes of a block -/

/-- The blocks `pmm_init` reserves: those of the kernel image, those below 1 MiB, and that of
the boot information. -/
def Reserved (k : Image) (mbi_phys_addr b : ℕ) : Prop :=
  b < total_blocks ∧
    ((∃ a, PageOf (sub64 k.kernel_start KERNEL_OFFSET) (sub64 k.kernel_end KERNEL_OFFSET) a ∧
        blockOf a = b) ∨
      b < 0x100000 / PAGE_SIZE ∨ b = blockOf mbi_phys_addr)

theorem mark_free_keeps {b : ℕ} (hb : b < total_blocks) (p : Pmm) (a : ℕ) :
  (pmm_mark_free p a).used b = true ↔ p.used b = true ∧ ¬ blockOf a = b
  := by
  rw [used_mark_free]
  simp only [Bool.and_eq_true, Bool.not_eq_true', decide_eq_false_iff_not]
  constructor
  · rintro ⟨hne, hused⟩
    exact ⟨hused, fun heq => hne ⟨heq.symm, heq ▸ hb⟩⟩
  · rintro ⟨hused, hne⟩
    exact ⟨fun heq => hne heq.1.symm, hused⟩

theorem mark_used_keeps {b : ℕ} (hb : b < total_blocks) (p : Pmm) (a : ℕ) :
  ¬ (pmm_mark_used p a).used b = true ↔ ¬ p.used b = true ∧ ¬ blockOf a = b
  := by
  rw [used_mark_used]
  simp only [Bool.or_eq_true, decide_eq_true_iff, not_or]
  constructor
  · rintro ⟨hne, hfree⟩
    exact ⟨hfree, fun heq => hne ⟨heq.symm, heq ▸ hb⟩⟩
  · rintro ⟨hfree, hne⟩
    exact ⟨fun heq => hne heq.1.symm, hfree⟩

/-- A block `mbi_parse` finds free was free before, or it belongs to available memory. -/
theorem mbi_parse_used {n : ℕ} {m : Memory} {p p' : Pmm} {fb fb' : framebuffer_info}
    {phys_addr b : ℕ} (h : mbi_parse n m p fb phys_addr = some (p', fb')) (hb : b < total_blocks) :
  p'.used b = true ↔
    p.used b = true ∧ ¬ Available m (P2V (u32 phys_addr)) fun a => blockOf a = b
  := by
  apply eachTag_iff (P := fun s : Pmm × framebuffer_info => s.1.used b = true)
    (Q := fun tag => tagType m tag = 6 ∧ AvailableIn m tag fun a => blockOf a = b) _ h
  rintro ⟨p, fb⟩ tag s' hs
  dsimp only at hs
  split at hs
  · next htype =>
    obtain ⟨q, hq, rfl⟩ := Option.map_eq_some_iff.mp hs
    rw [eachAvailable_iff (P := fun p : Pmm => p.used b = true) (mark_free_keeps hb) hq]
    simp [htype]
  · next htype =>
    obtain rfl := Option.some.inj hs
    simp [htype]
  · next hmap _ =>
    obtain rfl := Option.some.inj hs
    have htype : tagType m tag ≠ 6 := hmap
    simp [htype]

/-- `pmm_init` uses the blocks it reserves, and leaves the others as they are once available
memory is freed. -/
theorem pmm_init_iff {n : ℕ} {m : Memory} {k : Image} {p p' : Pmm} {mbi_phys_addr b : ℕ}
    (h : pmm_init n m k p mbi_phys_addr = some p') (hb : b < total_blocks) :
  ∃ p₁, eachTag n m (P2V mbi_phys_addr)
      (fun p tag =>
        if tagType m tag = 6 then
          eachAvailable n m
            (fun p a => if a < MAX_BLOCKS * PAGE_SIZE then pmm_mark_free p a else p) tag p
        else some p)
      { p with pmm_bitmap := p.pmm_bitmap.fill 0 BITMAP_SIZE 0xFF, used_blocks := total_blocks } =
        some p₁ ∧
    (p'.used b = true ↔ p₁.used b = true ∨ Reserved k mbi_phys_addr b)
  := by
  obtain ⟨p₁, hp₁, h⟩ := Option.bind_eq_some_iff.mp h
  obtain ⟨p₂, hp₂, h⟩ := Option.bind_eq_some_iff.mp h
  obtain ⟨p₃, hp₃, h⟩ := Option.bind_eq_some_iff.mp h
  obtain rfl := Option.some.inj h
  use p₁, hp₁
  have hlow : (∃ a, PageOf 0 0x100000 a ∧ blockOf a = b) ↔ b < 0x100000 / PAGE_SIZE := by
    rw [PAGE_SIZE]
    constructor
    · rintro ⟨a, ha, rfl⟩
      have hlt := ((pageOf_iff (by decide)).mp ha).1
      rw [blockOf, PAGE_SIZE, u32]
      omega
    · intro hlt
      use b * 4096, (pageOf_iff (by decide)).mpr ⟨by omega, b, by omega⟩
      simpa [PAGE_SIZE] using (blockOf_page hb).2
  apply not_iff_not.mp
  rw [mark_used_keeps hb, eachPage_iff (P := fun p : Pmm => ¬ p.used b = true) (mark_used_keeps hb) hp₃,
    eachPage_iff (P := fun p : Pmm => ¬ p.used b = true) (mark_used_keeps hb) hp₂, hlow, Reserved,
    and_iff_right hb, eq_comm (a := b)]
  simp only [not_or, and_assoc]

/-- `pmm_init` leaves the blocks it reserves used. -/
theorem pmm_init_reserved {n : ℕ} {m : Memory} {k : Image} {p p' : Pmm} {mbi_phys_addr b : ℕ}
    (h : pmm_init n m k p mbi_phys_addr = some p') (hb : Reserved k mbi_phys_addr b) :
  p'.used b = true
  := by
  obtain ⟨p₁, -, hiff⟩ := pmm_init_iff h hb.1
  exact hiff.mpr (Or.inr hb)

/-! ### Well-formed information -/

/-- Boot information the walks can follow: it fits below the end of the address space and has
room for a tag, each tag has at least its header and is followed by another one up to the tag
of type 0, the entries of a memory map fill it, and available regions do not wrap around. -/
structure WellFormed (m : Memory) (mbi_phys_addr : ℕ) : Prop where
  room : 16 ≤ m.load (P2V mbi_phys_addr) 4
  fits : mbi_phys_addr + KERNEL_OFFSET + m.load (P2V mbi_phys_addr) 4 < 2 ^ 64
  tags : ∀ tag, Tag m (P2V mbi_phys_addr) tag → 8 ≤ tagSize m tag ∧
    tag + maskLow 3 (tagSize m tag + 7) + 8 ≤
      mbi_phys_addr + KERNEL_OFFSET + m.load (P2V mbi_phys_addr) 4
  maps : ∀ tag, Tag m (P2V mbi_phys_addr) tag → tagType m tag = 6 →
    16 ≤ tagSize m tag ∧ 0 < entrySize m tag ∧ entrySize m tag ∣ tagSize m tag - 16
  regions : ∀ tag, Tag m (P2V mbi_phys_addr) tag → tagType m tag = 6 →
    ∀ entry, Entry m tag entry → entryType m entry = 1 →
      entryAddr m entry + entryLen m entry + 4096 ≤ 2 ^ 64

/-- A check that the information is well formed, for walks of at most `n` rounds. -/
def wellFormedWithin (n : ℕ) (m : Memory) (mbi_phys_addr : ℕ) : Bool :=
  let base := P2V mbi_phys_addr
  let stop := mbi_phys_addr + KERNEL_OFFSET + m.load base 4
  let entryOk (entry : ℕ) : Bool :=
    entryType m entry ≠ 1 ∨ entryAddr m entry + entryLen m entry + 4096 ≤ 2 ^ 64
  let mapOk (tag : ℕ) : Bool :=
    16 ≤ tagSize m tag ∧ 0 < entrySize m tag ∧ entrySize m tag ∣ tagSize m tag - 16 ∧
      (Loop.forValues (entryCond m tag) (entryNext m tag) n (u64 (tag + 16))).any
        fun entries => entries.all entryOk
  let tagOk (tag : ℕ) : Bool :=
    8 ≤ tagSize m tag ∧ tag + maskLow 3 (tagSize m tag + 7) + 8 ≤ stop ∧
      (tagType m tag ≠ 6 ∨ mapOk tag)
  16 ≤ m.load base 4 ∧ stop < 2 ^ 64 ∧
    (Loop.forValues (tagCond m (mbiEnd m base)) (tagNext m) n (u64 (base + 8))).any
      fun tags => tags.all tagOk

theorem WellFormed.of_within {n : ℕ} {m : Memory} {mbi_phys_addr : ℕ}
    (h : wellFormedWithin n m mbi_phys_addr) :
  WellFormed m mbi_phys_addr
  := by
  simp only [wellFormedWithin, Bool.decide_and, Bool.decide_or, Bool.and_eq_true,
    decide_eq_true_eq, Option.any_eq_true, List.all_eq_true, Bool.or_eq_true] at h
  obtain ⟨hroom, hfits, tags, htags, hall⟩ := h
  have htag : ∀ tag, Tag m (P2V mbi_phys_addr) tag → tag ∈ tags :=
    fun tag ht => (Loop.mem_forValues htags).mpr ht
  refine ⟨hroom, hfits, ?_, ?_, ?_⟩
  · intro tag ht
    obtain ⟨hsize, hnext, -⟩ := hall tag (htag tag ht)
    exact ⟨hsize, hnext⟩
  · intro tag ht htype
    obtain ⟨-, -, hmap⟩ := hall tag (htag tag ht)
    obtain ⟨hsize, hpos, hdvd, -⟩ := hmap.resolve_left (by simp [htype])
    exact ⟨hsize, hpos, hdvd⟩
  · intro tag ht htype entry he hetype
    obtain ⟨-, -, hmap⟩ := hall tag (htag tag ht)
    obtain ⟨-, -, -, entries, hentries, hok⟩ := hmap.resolve_left (by simp [htype])
    have hentry := hok entry ((Loop.mem_forValues hentries).mpr he)
    apply hentry.resolve_left
    simp [hetype]

section

variable {σ : Type} {n : ℕ} {m : Memory} {mbi_phys_addr : ℕ}

theorem eachPage_returns (body : σ → ℕ → σ) (start : ℕ) {stop : ℕ} (hstop : stop + 4096 ≤ 2 ^ 64)
    (hn : 2 ^ 64 < n) (s : σ) :
  ∃ s', eachPage n body start stop s = some s'
  := by
  have hgrows : ∀ x, PageOf start stop x → x < pageNext x ∧ x < stop := by
    intro x hx
    have hlt := ((pageOf_iff hstop).mp hx).1
    rw [pageNext, u64_of_lt (by omega)]
    omega
  obtain ⟨as, has⟩ := Loop.forValues_returns (pageCond stop) pageNext stop hgrows
    (show stop - start < n by omega)
  use as.foldl body s
  rw [eachPage, has]
  rfl

/-- The padded size of a tag. -/
theorem padded_bounds (size : ℕ) :
  size ≤ maskLow 3 (size + 7) ∧ maskLow 3 (size + 7) ≤ size + 7
  := by
  rw [maskLow]
  omega

theorem WellFormed.base_eq (h : WellFormed m mbi_phys_addr) :
  P2V mbi_phys_addr = mbi_phys_addr + KERNEL_OFFSET ∧
    mbiEnd m (P2V mbi_phys_addr) =
      mbi_phys_addr + KERNEL_OFFSET + m.load (P2V mbi_phys_addr) 4 ∧
    u32 mbi_phys_addr = mbi_phys_addr
  := by
  have hfits := h.fits
  have hbase : P2V mbi_phys_addr = mbi_phys_addr + KERNEL_OFFSET := u64_of_lt (by omega)
  refine ⟨hbase, ?_, ?_⟩
  · rw [mbiEnd, u64_of_lt]
    · rw [hbase]
    · rw [hbase] at hfits ⊢
      exact hfits
  · rw [KERNEL_OFFSET] at hfits
    apply u32_of_lt
    omega

/-- A tag lies past the base, and the next one past it. -/
theorem WellFormed.tagNext_eq (h : WellFormed m mbi_phys_addr) {tag : ℕ}
    (ht : Tag m (P2V mbi_phys_addr) tag) :
  mbi_phys_addr + KERNEL_OFFSET ≤ tag ∧ tagNext m tag = tag + maskLow 3 (tagSize m tag + 7)
  := by
  have hfits := h.fits
  have hnext : ∀ tag, Tag m (P2V mbi_phys_addr) tag → mbi_phys_addr + KERNEL_OFFSET ≤ tag →
      tagNext m tag = tag + maskLow 3 (tagSize m tag + 7) := by
    intro tag ht hlo
    have hbounds := (h.tags tag ht).2
    have hpad := padded_bounds (tagSize m tag)
    have hsize : tagSize m tag + 7 < 2 ^ 32 := by
      rw [KERNEL_OFFSET] at hlo hfits hbounds
      omega
    rw [tagNext, u32_of_lt hsize, u64_of_lt (by omega)]
  have hlo : mbi_phys_addr + KERNEL_OFFSET ≤ tag := by
    apply (ht.invariant (I := fun tag =>
      (tagCond m (mbiEnd m (P2V mbi_phys_addr)) tag → Tag m (P2V mbi_phys_addr) tag) ∧
        mbi_phys_addr + KERNEL_OFFSET ≤ tag) _ _).2
    · rintro y ⟨hy, hylo⟩ hcond
      refine ⟨(hy hcond).snoc, ?_⟩
      rw [hnext y (hy hcond) hylo]
      omega
    · have hroom := h.room
      refine ⟨Loop.Visits.here, ?_⟩
      rw [h.base_eq.1, u64_of_lt (by omega)]
      omega
  exact ⟨hlo, hnext tag ht hlo⟩

theorem WellFormed.entry_bounds (h : WellFormed m mbi_phys_addr) {tag entry : ℕ}
    (ht : Tag m (P2V mbi_phys_addr) tag) (hmap : tagType m tag = 6) (he : Entry m tag entry) :
  entry < entryNext m tag entry ∧ entry < tag + tagSize m tag
  := by
  obtain ⟨hsize, hpos, hdvd⟩ := h.maps tag ht hmap
  have hfits := h.fits
  have hbounds := (h.tags tag ht).2
  have hpad := padded_bounds (tagSize m tag)
  have hstop : u64 (tag + tagSize m tag) = tag + tagSize m tag := u64_of_lt (by omega)
  -- The entries are a whole number of entries away from the end of the map.
  have hlt : ∀ y, entryCond m tag y → y < tag + tagSize m tag := by
    intro y hy
    rw [entryCond, hstop] at hy
    simpa using hy
  have hnext : ∀ y, entrySize m tag ∣ tag + tagSize m tag - y → y < tag + tagSize m tag →
      entryNext m tag y = y + entrySize m tag ∧ y + entrySize m tag ≤ tag + tagSize m tag := by
    intro y hy hylt
    have hle := Nat.le_of_dvd (by omega) hy
    rw [entryNext, u64_of_lt (by omega)]
    omega
  have hinv : entrySize m tag ∣ tag + tagSize m tag - entry := by
    apply he.invariant (I := fun y => entrySize m tag ∣ tag + tagSize m tag - y)
    · intro y hy hcond
      obtain ⟨heq, hle⟩ := hnext y hy (hlt y hcond)
      rw [heq, Nat.sub_add_eq]
      apply Nat.dvd_sub hy (dvd_refl _)
    · rw [u64_of_lt (by omega), Nat.add_sub_add_left]
      apply hdvd
  have hentry := hlt entry he.holds
  rw [(hnext entry hinv hentry).1]
  omega

theorem WellFormed.eachAvailable_returns (h : WellFormed m mbi_phys_addr) {tag : ℕ}
    (ht : Tag m (P2V mbi_phys_addr) tag) (hmap : tagType m tag = 6) (hn : 2 ^ 64 < n)
    (body : σ → ℕ → σ) (s : σ) :
  ∃ s', eachAvailable n m body tag s = some s'
  := by
  have hfits := h.fits
  have hbounds := (h.tags tag ht).2
  have hpad := padded_bounds (tagSize m tag)
  obtain ⟨entries, hentries⟩ := Loop.forValues_returns (entryCond m tag) (entryNext m tag)
    (tag + tagSize m tag) (fun entry he => h.entry_bounds ht hmap he)
    (show tag + tagSize m tag - u64 (tag + 16) < n by omega)
  rw [eachAvailable, hentries]
  apply Loop.foldlM_returns
  intro entry he s
  have hentry := (Loop.mem_forValues hentries).mp he
  split_ifs with htype
  · have hregion := h.regions tag ht hmap entry hentry htype
    apply eachPage_returns _ _ _ hn
    rw [entryStop, u64_of_lt (by omega)]
    apply hregion
  · exact ⟨s, rfl⟩

theorem WellFormed.eachTag_returns (h : WellFormed m mbi_phys_addr) (hn : 2 ^ 64 < n)
    (body : σ → ℕ → Option σ)
    (hbody : ∀ tag, Tag m (P2V mbi_phys_addr) tag → ∀ s, ∃ s', body s tag = some s') (s : σ) :
  ∃ s', eachTag n m (P2V mbi_phys_addr) body s = some s'
  := by
  have hfits := h.fits
  have hgrows : ∀ tag, Tag m (P2V mbi_phys_addr) tag → tag < tagNext m tag ∧ tag < 2 ^ 64 := by
    intro tag ht
    have hbounds := h.tags tag ht
    have hpad := padded_bounds (tagSize m tag)
    rw [(h.tagNext_eq ht).2]
    omega
  obtain ⟨tags, htags⟩ := Loop.forValues_returns (tagCond m (mbiEnd m (P2V mbi_phys_addr)))
    (tagNext m) (2 ^ 64) hgrows (show 2 ^ 64 - u64 (P2V mbi_phys_addr + 8) < n by omega)
  rw [eachTag, htags]
  apply Loop.foldlM_returns
  intro tag ht s
  apply hbody tag ((Loop.mem_forValues htags).mp ht) s

end

/-! ### The boot sequence -/

/-- The linker places the end of the kernel image in the window of physical memory. -/
def Placed (k : Image) : Prop := KERNEL_OFFSET ≤ k.kernel_end ∧ k.kernel_end < 2 ^ 64

theorem Placed.end_le {k : Image} (hk : Placed k) :
  sub64 k.kernel_end KERNEL_OFFSET + 4096 ≤ 2 ^ 64
  := by
  obtain ⟨hlo, hhi⟩ := hk
  rw [sub64_of_le hlo hhi]
  rw [KERNEL_OFFSET] at hlo ⊢
  omega

theorem WellFormed.pmm_init_returns {m : Memory} {mbi_phys_addr n : ℕ}
    (h : WellFormed m mbi_phys_addr) (hn : 2 ^ 64 < n) {k : Image} (hk : Placed k) (p : Pmm) :
  ∃ p', pmm_init n m k p mbi_phys_addr = some p'
  := by
  obtain ⟨p₁, hp₁⟩ := h.eachTag_returns hn (fun p tag =>
    if tagType m tag = 6 then
      eachAvailable n m
        (fun p a => if a < MAX_BLOCKS * PAGE_SIZE then pmm_mark_free p a else p) tag p
    else some p) (by
      intro tag ht p
      split_ifs with htype
      · apply h.eachAvailable_returns ht htype hn
      · exact ⟨p, rfl⟩)
    { p with pmm_bitmap := p.pmm_bitmap.fill 0 BITMAP_SIZE 0xFF, used_blocks := total_blocks }
  obtain ⟨p₂, hp₂⟩ := eachPage_returns pmm_mark_used
    (sub64 k.kernel_start KERNEL_OFFSET) hk.end_le hn p₁
  have hmib : 0x100000 + 4096 ≤ 2 ^ 64 := by decide
  obtain ⟨p₃, hp₃⟩ := eachPage_returns pmm_mark_used 0 hmib hn p₂
  use pmm_mark_used p₃ mbi_phys_addr
  rw [pmm_init, hp₁]
  dsimp only [Option.bind_eq_bind, Option.bind_some]
  rw [hp₂, Option.bind_some, hp₃, Option.bind_some]

theorem WellFormed.mbi_parse_returns {m : Memory} {mbi_phys_addr n : ℕ}
    (h : WellFormed m mbi_phys_addr) (hn : 2 ^ 64 < n) (p : Pmm) (fb : framebuffer_info) :
  ∃ r, mbi_parse n m p fb mbi_phys_addr = some r
  := by
  rw [mbi_parse, h.base_eq.2.2]
  apply h.eachTag_returns hn
  rintro tag ht ⟨p, fb⟩
  dsimp only
  split
  · next htype =>
    obtain ⟨p', hp'⟩ := h.eachAvailable_returns ht htype hn pmm_mark_free p
    rw [hp']
    exact ⟨_, rfl⟩
  · exact ⟨_, rfl⟩
  · exact ⟨_, rfl⟩

/-- After the boot sequence the reserved blocks are used exactly when none of them belongs to
available memory. -/
theorem boot_reserved_iff {m : Memory} {mbi_phys_addr : ℕ} (h : WellFormed m mbi_phys_addr)
    {k : Image} (hk : Placed k) (p : Pmm) (fb : framebuffer_info) {n : ℕ} (hn : 2 ^ 64 < n) :
  ∃ p₁ p₂ fb', pmm_init n m k p mbi_phys_addr = some p₁ ∧
    mbi_parse n m p₁ fb mbi_phys_addr = some (p₂, fb') ∧
    ((∀ b, Reserved k mbi_phys_addr b → p₂.used b = true) ↔
      ¬ Available m (P2V mbi_phys_addr) fun a => Reserved k mbi_phys_addr (blockOf a))
  := by
  obtain ⟨p₁, hinit⟩ := h.pmm_init_returns hn hk p
  obtain ⟨⟨p₂, fb'⟩, hparse⟩ := h.mbi_parse_returns hn p₁ fb
  use p₁, p₂, fb', hinit, hparse
  have hused : ∀ b, Reserved k mbi_phys_addr b → (p₂.used b = true ↔
      ¬ Available m (P2V mbi_phys_addr) fun a => blockOf a = b) := by
    intro b hb
    rw [mbi_parse_used hparse hb.1, h.base_eq.2.2, pmm_init_reserved hinit hb]
    simp
  constructor
  · rintro hall ⟨tag, ht, htype, entry, he, hetype, a, ha, hreserved⟩
    apply (hused _ hreserved).mp (hall _ hreserved)
    exact ⟨tag, ht, htype, entry, he, hetype, a, ha, rfl⟩
  · intro hnone b hb
    rw [hused b hb]
    rintro ⟨tag, ht, htype, entry, he, hetype, a, ha, rfl⟩
    apply hnone
    exact ⟨tag, ht, htype, entry, he, hetype, a, ha, hb⟩

/-- Boot information with a memory map of one available region, at the physical address
`0x9000`. -/
def oneRegion (addr len : ℕ) : Memory :=
  let base := P2V 0x9000
  let m : Memory := fun _ => 0
  let m := m.store base 4 56
  let m := (m.store (base + 8) 4 6).store (base + 12) 4 40
  let m := m.store (base + 16) 4 24
  let m := ((m.store (base + 24) 8 addr).store (base + 32) 8 len).store (base + 40) 4 1
  m.store (base + 52) 4 8

/-- An image of two pages at 1 MiB. -/
def smallImage : Image := ⟨KERNEL_OFFSET + 0x100000, KERNEL_OFFSET + 0x102000⟩

theorem smallImage_placed :
  Placed smallImage
  := by
  constructor <;> decide

/-- With the first MiB available, block 0 is reserved, and free after the boot sequence. -/
theorem boot_frees_reserved :
  WellFormed (oneRegion 0 0x100000) 0x9000 ∧ Placed smallImage ∧ Reserved smallImage 0x9000 0 ∧
    ∃ p₁ p₂ fb', pmm_init (2 ^ 64 + 1) (oneRegion 0 0x100000) smallImage ⟨fun _ => 0, 0⟩ 0x9000 =
        some p₁ ∧
      mbi_parse (2 ^ 64 + 1) (oneRegion 0 0x100000) p₁ ⟨0, 0, 0, 0, 0⟩ 0x9000 = some (p₂, fb') ∧
      p₂.used 0 = false
  := by
  have hwf : WellFormed (oneRegion 0 0x100000) 0x9000 :=
    WellFormed.of_within (n := 3) (by decide +kernel)
  obtain ⟨p₁, hinit⟩ := hwf.pmm_init_returns (n := 2 ^ 64 + 1) (by omega) smallImage_placed
    ⟨fun _ => 0, 0⟩
  obtain ⟨⟨p₂, fb'⟩, hparse⟩ := hwf.mbi_parse_returns (n := 2 ^ 64 + 1) (by omega) p₁ ⟨0, 0, 0, 0, 0⟩
  refine ⟨hwf, smallImage_placed, ⟨by decide, by right; left; decide⟩, p₁, p₂, fb', hinit, hparse, ?_⟩
  by_contra hused
  rw [Bool.not_eq_false, mbi_parse_used hparse (by decide)] at hused
  apply hused.2
  refine ⟨P2V 0x9000 + 8, Loop.Visits.here ?_, ?_, P2V 0x9000 + 24, Loop.Visits.here ?_, ?_, 0,
    Loop.Visits.here ?_, ?_⟩
  all_goals decide +kernel

/-- With a region from 2 MiB on, the reserved blocks stay used. -/
theorem boot_reserved_above :
  ∃ p₁ p₂ fb', pmm_init (2 ^ 64 + 1) (oneRegion 0x200000 0x4000) smallImage ⟨fun _ => 0, 0⟩ 0x9000 =
      some p₁ ∧
    mbi_parse (2 ^ 64 + 1) (oneRegion 0x200000 0x4000) p₁ ⟨0, 0, 0, 0, 0⟩ 0x9000 = some (p₂, fb') ∧
    ∀ b, Reserved smallImage 0x9000 b → p₂.used b = true
  := by
  have hwf : WellFormed (oneRegion 0x200000 0x4000) 0x9000 :=
    WellFormed.of_within (n := 3) (by decide +kernel)
  obtain ⟨p₁, p₂, fb', hinit, hparse, hiff⟩ := boot_reserved_iff hwf smallImage_placed
    ⟨fun _ => 0, 0⟩ ⟨0, 0, 0, 0, 0⟩ (n := 2 ^ 64 + 1) (by omega)
  refine ⟨p₁, p₂, fb', hinit, hparse, hiff.mpr ?_⟩
  rintro ⟨tag, ht, htype, entry, he, hetype, a, ha, -, hwhere⟩
  have htags : Loop.forValues (tagCond (oneRegion 0x200000 0x4000)
      (mbiEnd (oneRegion 0x200000 0x4000) (P2V 0x9000))) (tagNext (oneRegion 0x200000 0x4000)) 2
      (u64 (P2V 0x9000 + 8)) = some [P2V 0x9000 + 8] := by decide +kernel
  obtain rfl : tag = P2V 0x9000 + 8 := by simpa using (Loop.mem_forValues htags).mpr ht
  have hentries : Loop.forValues (entryCond (oneRegion 0x200000 0x4000) (P2V 0x9000 + 8))
      (entryNext (oneRegion 0x200000 0x4000) (P2V 0x9000 + 8)) 2 (u64 (P2V 0x9000 + 8 + 16)) =
      some [P2V 0x9000 + 24] := by decide +kernel
  obtain rfl : entry = P2V 0x9000 + 24 := by simpa using (Loop.mem_forValues hentries).mpr he
  have haddr : entryAddr (oneRegion 0x200000 0x4000) (P2V 0x9000 + 24) = 0x200000 := by decide +kernel
  have hstop : entryStop (oneRegion 0x200000 0x4000) (P2V 0x9000 + 24) = 0x204000 := by decide +kernel
  rw [haddr, hstop, pageOf_iff (by decide)] at ha
  obtain ⟨halt, i, rfl⟩ := ha
  simp only [blockOf, u32, PAGE_SIZE] at hwhere
  rcases hwhere with ⟨a, hpage, hblock⟩ | hlow | hself
  · have hkstart : sub64 smallImage.kernel_start KERNEL_OFFSET = 0x100000 := by decide
    have hkend : sub64 smallImage.kernel_end KERNEL_OFFSET = 0x102000 := by decide
    rw [hkstart, hkend, pageOf_iff (by decide)] at hpage
    omega
  · omega
  · omega

end Boot
