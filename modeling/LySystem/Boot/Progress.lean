import LySystem.Machine.Counter
import LySystem.Boot.Reservation

/-!
# Walks that end

The walks over the boot information follow sizes they find in memory.  Whether they end is
decided for each of the nested loops by itself: the pages of a region and the entries of a
memory map are counted in equal steps, and the tags must not lead back to one another.
-/

namespace Boot

open Paging Pmm

/-! ### The loops -/

section

variable {σ : Type} {m : Memory} {base tag start stop n : ℕ} {s s' : σ} {body : σ → ℕ → σ}

/-- The steps of a page do not miss an end at most a page below the end of the address space. -/
theorem top_page (start : ℕ) :
  Counter.top (2 ^ 64) 4096 start = 2 ^ 64 - 4096 + start % 4096
  := by
  have hgcd : Nat.gcd 4096 (2 ^ 64) = 4096 := by decide
  rw [Counter.top, hgcd]

theorem eachPage_stop (hstart : start < 2 ^ 64) (h : eachPage n body start stop s = some s') :
  stop ≤ 2 ^ 64 - 4096 + start % 4096
  := by
  obtain ⟨as, has, -⟩ := Option.map_eq_some_iff.mp h
  rw [← top_page]
  exact (Counter.ends_iff hstart).mp ⟨n, as, has⟩

theorem eachPage_ends (hstart : start < 2 ^ 64) (hstop : stop ≤ 2 ^ 64 - 4096 + start % 4096)
    (hn : 2 ^ 64 < n) (body : σ → ℕ → σ) (s : σ) :
  ∃ s', eachPage n body start stop s = some s'
  := by
  rw [← top_page] at hstop
  obtain ⟨k, as, has⟩ := (Counter.ends_iff hstart).mpr hstop
  have hnext : ∀ x, pageNext x < 2 ^ 64 := fun x => Nat.mod_lt _ (by decide)
  obtain ⟨as', has'⟩ := Loop.forValues_bounded hnext hstart has hn
  use as'.foldl body s
  rw [eachPage]
  exact Option.map_eq_some_iff.mpr ⟨as', has', rfl⟩

/-- The loops over the entries of a memory map end: those over the map, and those over the pages
of each available region. -/
structure MapEnds (m : Memory) (tag : ℕ) : Prop where
  entries : u64 (tag + tagSize m tag) ≤
    Counter.top (2 ^ 64) (entrySize m tag) (u64 (tag + 16))
  pages : ∀ entry, Entry m tag entry → entryType m entry = 1 →
    entryStop m entry ≤ 2 ^ 64 - 4096 + entryAddr m entry % 4096

theorem entryAddr_lt (m : Memory) (entry : ℕ) :
  entryAddr m entry < 2 ^ 64
  := Memory.load_lt m entry 8

theorem eachAvailable_mapEnds (h : eachAvailable n m body tag s = some s') :
  MapEnds m tag
  := by
  obtain ⟨entries, hentries, h⟩ := Option.bind_eq_some_iff.mp h
  constructor
  · exact (Counter.ends_iff (u64_lt _)).mp ⟨n, entries, hentries⟩
  · intro entry he htype
    obtain ⟨t, t', ht⟩ := Loop.foldlM_rounds h entry ((Loop.mem_forValues hentries).mpr he)
    rw [if_pos htype] at ht
    exact eachPage_stop (entryAddr_lt m entry) ht

theorem MapEnds.eachAvailable (h : MapEnds m tag) (hn : 2 ^ 64 < n) (body : σ → ℕ → σ) (s : σ) :
  ∃ s', eachAvailable n m body tag s = some s'
  := by
  obtain ⟨k, l, hl⟩ := (Counter.ends_iff (u64_lt _)).mpr h.entries
  have hnext : ∀ x, entryNext m tag x < 2 ^ 64 := fun x => u64_lt _
  obtain ⟨entries, hentries⟩ := Loop.forValues_bounded hnext (u64_lt _) hl hn
  have hround : ∀ entry ∈ entries, ∀ s : σ, ∃ s',
      (if entryType m entry = 1 then
        eachPage n body (entryAddr m entry) (entryStop m entry) s else some s) = some s' := by
    intro entry he s
    split_ifs with htype
    · apply eachPage_ends (entryAddr_lt m entry) _ hn
      exact h.pages entry ((Loop.mem_forValues hentries).mp he) htype
    · exact ⟨s, rfl⟩
  obtain ⟨s', hs'⟩ := Loop.foldlM_returns hround s
  exact ⟨s', Option.bind_eq_some_iff.mpr ⟨entries, hentries, hs'⟩⟩

end

/-! ### The walks -/

/-- The walk over the tags ends, and so do the loops over each memory map in it: no tag is met
again after it was left. -/
structure Followable (m : Memory) (base : ℕ) : Prop where
  tags : ∀ tag, Tag m base tag →
    ¬ Loop.Visits (tagCond m (mbiEnd m base)) (tagNext m) (tagNext m tag) tag
  maps : ∀ tag, Tag m base tag → tagType m tag = 6 → MapEnds m tag

/-- A tag whose padded size is 0 in 32-bit arithmetic is its own successor. -/
theorem Tag.returns {m : Memory} {base tag : ℕ} (ht : Tag m base tag)
    (hsize : maskLow 3 (u32 (tagSize m tag + 7)) = 0) :
  Loop.Visits (tagCond m (mbiEnd m base)) (tagNext m) (tagNext m tag) tag
  := by
  have hlt : tag < 2 ^ 64 := by
    apply ht.invariant (I := fun tag => tag < 2 ^ 64)
    · intro y _ _
      exact u64_lt _
    · exact u64_lt _
  rw [tagNext, hsize, Nat.add_zero, u64_of_lt hlt]
  exact Loop.Visits.here ht.holds

/-- While every tag advances, none is met again. -/
theorem tags_of_advancing {m : Memory} {base : ℕ}
    (hadvance : ∀ tag, Tag m base tag → 0 < maskLow 3 (u32 (tagSize m tag + 7)) ∧
      tag + maskLow 3 (u32 (tagSize m tag + 7)) < 2 ^ 64) {tag : ℕ} (ht : Tag m base tag) :
  ¬ Loop.Visits (tagCond m (mbiEnd m base)) (tagNext m) (tagNext m tag) tag
  := by
  intro hback
  have hnext : ∀ tag, Tag m base tag → tag < tagNext m tag := by
    intro tag ht
    obtain ⟨hpos, hlt⟩ := hadvance tag ht
    rw [tagNext, u64_of_lt hlt]
    omega
  -- What comes after the tag lies past it.
  have hlater : (tagCond m (mbiEnd m base) tag → Tag m base tag) ∧ tag < tag := by
    apply hback.invariant (I := fun y =>
      (tagCond m (mbiEnd m base) y → Tag m base y) ∧ tag < y)
    · rintro y ⟨hy, hlt⟩ hcond
      refine ⟨(hy hcond).snoc, ?_⟩
      have := hnext y (hy hcond)
      omega
    · exact ⟨ht.snoc, hnext tag ht⟩
  exact absurd hlater.2 (lt_irrefl tag)

section

variable {σ : Type} {m : Memory} {base n : ℕ} {s s' : σ} {body : σ → ℕ → Option σ}

theorem eachTag_followable
    (hbody : ∀ t tag t', tagType m tag = 6 → body t tag = some t' → MapEnds m tag)
    (h : eachTag n m base body s = some s') :
  Followable m base
  := by
  obtain ⟨tags, htags, h⟩ := Option.bind_eq_some_iff.mp h
  have hnext : ∀ x, tagNext m x < 2 ^ 64 := fun x => u64_lt _
  constructor
  · exact (Loop.forValues_ends_iff_no_return hnext (u64_lt _)).mp ⟨n, tags, htags⟩
  · intro tag ht htype
    obtain ⟨t, t', hround⟩ := Loop.foldlM_rounds h tag ((Loop.mem_forValues htags).mpr ht)
    exact hbody t tag t' htype hround

theorem Followable.eachTag (h : Followable m base) (hn : 2 ^ 64 < n)
    (hbody : ∀ tag, Tag m base tag → ∀ s, ∃ s', body s tag = some s') (s : σ) :
  ∃ s', eachTag n m base body s = some s'
  := by
  have hnext : ∀ x, tagNext m x < 2 ^ 64 := fun x => u64_lt _
  obtain ⟨k, l, hl⟩ := (Loop.forValues_ends_iff_no_return hnext (u64_lt _)).mpr h.tags
  obtain ⟨tags, htags⟩ := Loop.forValues_bounded hnext (u64_lt _) hl hn
  have hround : ∀ tag ∈ tags, ∀ s, ∃ s', body s tag = some s' :=
    fun tag ht => hbody tag ((Loop.mem_forValues htags).mp ht)
  obtain ⟨s', hs'⟩ := Loop.foldlM_returns hround s
  exact ⟨s', Option.bind_eq_some_iff.mpr ⟨tags, htags, hs'⟩⟩

end

theorem pmm_init_ends_iff {m : Memory} {k : Image} (hk : Placed k) (p : Pmm) (mbi_phys_addr : ℕ) :
  (∃ n p', pmm_init n m k p mbi_phys_addr = some p') ↔ Followable m (P2V mbi_phys_addr)
  := by
  constructor
  · rintro ⟨n, p', h⟩
    obtain ⟨p₁, hp₁, -⟩ := Option.bind_eq_some_iff.mp h
    apply eachTag_followable _ hp₁
    intro t tag t' htype ht
    rw [if_pos htype] at ht
    exact eachAvailable_mapEnds ht
  · intro h
    obtain ⟨n, hn⟩ : ∃ n, 2 ^ 64 < n := ⟨_, Nat.lt_succ_self _⟩
    have hround : ∀ tag, Tag m (P2V mbi_phys_addr) tag → ∀ p : Pmm, ∃ p',
        (if tagType m tag = 6 then
          eachAvailable n m
            (fun p a => if a < MAX_BLOCKS * PAGE_SIZE then pmm_mark_free p a else p) tag p
        else some p) = some p' := by
      intro tag ht p
      split_ifs with htype
      · exact (h.maps tag ht htype).eachAvailable hn _ p
      · exact ⟨p, rfl⟩
    obtain ⟨p₁, hp₁⟩ := h.eachTag hn hround
      { p with pmm_bitmap := p.pmm_bitmap.fill 0 BITMAP_SIZE 0xFF, used_blocks := total_blocks }
    obtain ⟨p₂, hp₂⟩ := eachPage_returns pmm_mark_used
      (sub64 k.kernel_start KERNEL_OFFSET) hk.end_le hn p₁
    obtain ⟨p₃, hp₃⟩ := eachPage_returns pmm_mark_used 0 (by decide : 0x100000 + 4096 ≤ 2 ^ 64) hn p₂
    use n, pmm_mark_used p₃ mbi_phys_addr
    rw [pmm_init, hp₁]
    dsimp only [Option.bind_eq_bind, Option.bind_some]
    rw [hp₂, Option.bind_some, hp₃, Option.bind_some]

theorem mbi_parse_ends_iff {m : Memory} (p : Pmm) (fb : framebuffer_info) (phys_addr : ℕ) :
  (∃ n r, mbi_parse n m p fb phys_addr = some r) ↔ Followable m (P2V (u32 phys_addr))
  := by
  constructor
  · rintro ⟨n, r, h⟩
    apply eachTag_followable _ h
    intro t tag t' htype ht
    simp only [htype] at ht
    obtain ⟨p', hp', -⟩ := Option.map_eq_some_iff.mp ht
    exact eachAvailable_mapEnds hp'
  · intro h
    obtain ⟨n, hn⟩ : ∃ n, 2 ^ 64 < n := ⟨_, Nat.lt_succ_self _⟩
    use n
    apply h.eachTag hn
    rintro tag ht ⟨p, fb⟩
    dsimp only
    split
    · next htype =>
      obtain ⟨p', hp'⟩ := (h.maps tag ht htype).eachAvailable hn pmm_mark_free p
      exact ⟨_, Option.map_eq_some_iff.mpr ⟨p', hp', rfl⟩⟩
    · exact ⟨_, rfl⟩
    · exact ⟨_, rfl⟩

/-- Boot information with one tag, of size 0. -/
def sizelessTag : Memory :=
  let m : Memory := fun _ => 0
  (m.store (P2V 0x9000) 4 24).store (P2V 0x9000 + 8) 4 1

end Boot
