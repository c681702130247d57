import LySystem.Boot.Coverage

/-!
# The order of the memory map

What `pmm_init` leaves behind depends on the set of the entries of the memory map: neither the
order of the tags and entries matters nor how often an entry occurs.
-/

namespace Boot

open Paging Pmm

/-! ### Invariants of the walks -/

section

variable {σ : Type} {P : σ → Prop} {n : ℕ} {m : Memory} {s s' : σ}

theorem eachPage_invariant {body : σ → ℕ → σ} (hbody : ∀ s a, P s → P (body s a)) {start stop : ℕ}
    (h : eachPage n body start stop s = some s') (hs : P s) :
  P s'
  := by
  obtain ⟨as, -, rfl⟩ := Option.map_eq_some_iff.mp h
  exact List.foldlRecOn as body hs fun s hs a _ => hbody s a hs

theorem eachAvailable_invariant {body : σ → ℕ → σ} (hbody : ∀ s a, P s → P (body s a)) {tag : ℕ}
    (h : eachAvailable n m body tag s = some s') (hs : P s) :
  P s'
  := by
  obtain ⟨entries, -, h⟩ := Option.bind_eq_some_iff.mp h
  apply Loop.foldlM_invariant _ h hs
  intro entry _ s s' hround hs
  split_ifs at hround
  · exact eachPage_invariant hbody hround hs
  · obtain rfl := Option.some.inj hround
    exact hs

theorem eachTag_invariant {body : σ → ℕ → Option σ} {base : ℕ}
    (hbody : ∀ s tag s', body s tag = some s' → P s → P s')
    (h : eachTag n m base body s = some s') (hs : P s) :
  P s'
  := by
  obtain ⟨tags, -, h⟩ := Option.bind_eq_some_iff.mp h
  exact Loop.foldlM_invariant (fun tag _ s s' => hbody s tag s') h hs

end

/-- What the two marking operations keep holds after `pmm_init` when it does once all blocks are
used. -/
theorem pmm_init_invariant {P : Pmm → Prop} {n mbi_phys_addr : ℕ} {m : Memory} {k : Image} {p p' : Pmm}
    (hfree : ∀ p a, P p → P (pmm_mark_free p a)) (hused : ∀ p a, P p → P (pmm_mark_used p a))
    (h : pmm_init n m k p mbi_phys_addr = some p') (hp : P (allUsed p.pmm_bitmap)) :
  P p'
  := by
  obtain ⟨p₁, hp₁, h⟩ := Option.bind_eq_some_iff.mp h
  obtain ⟨p₂, hp₂, h⟩ := Option.bind_eq_some_iff.mp h
  obtain ⟨p₃, hp₃, h⟩ := Option.bind_eq_some_iff.mp h
  obtain rfl := Option.some.inj h
  apply hused
  apply eachPage_invariant hused hp₃
  apply eachPage_invariant hused hp₂
  apply eachTag_invariant _ hp₁ hp
  intro p tag q hround hp
  split_ifs at hround
  · apply eachAvailable_invariant _ hround hp
    intro p a hp
    split_ifs
    · exact hfree p a hp
    · exact hp
  · obtain rfl := Option.some.inj hround
    exact hp

/-! ### The state afterwards -/

theorem pmm_init_counted {n mbi_phys_addr : ℕ} {m : Memory} {k : Image} {p p' : Pmm}
    (h : pmm_init n m k p mbi_phys_addr = some p') :
  Counted p'
  := pmm_init_invariant (fun _ a hp => hp.mark_free a) (fun _ a hp => hp.mark_used a) h
      (counted_allUsed _)

/-- Nothing behind the bitmap is written. -/
theorem pmm_init_behind {n mbi_phys_addr x : ℕ} {m : Memory} {k : Image} {p p' : Pmm}
    (h : pmm_init n m k p mbi_phys_addr = some p') (hx : BITMAP_SIZE ≤ x) :
  p'.pmm_bitmap x = p.pmm_bitmap x
  := by
  have hbyte : ∀ {b}, ¬ total_blocks ≤ b → x ≠ b / 8 := by
    intro b hb
    rw [total_blocks, MAX_BLOCKS] at hb
    rw [BITMAP_SIZE, MAX_BLOCKS] at hx
    omega
  apply pmm_init_invariant (P := fun q => q.pmm_bitmap x = p.pmm_bitmap x) _ _ h
  · have hstart : (allUsed p.pmm_bitmap).pmm_bitmap = p.pmm_bitmap.fill 0 BITMAP_SIZE 0xFF := rfl
    rw [hstart]
    apply Memory.splice_outside
    omega
  · intro q a hq
    rw [pmm_mark_free]
    split_ifs with hrange
    · exact hq
    · exact (Bitmap.clear_outside _ (hbyte hrange)).trans hq
    · exact hq
  · intro q a hq
    rw [pmm_mark_used]
    split_ifs with hrange
    · exact hq
    · exact (Bitmap.set_outside _ (hbyte hrange)).trans hq
    · exact hq

/-- The bits and the bytes behind the bitmap determine a state whose counter is right. -/
theorem counted_ext {p q : Pmm} (hp : Counted p) (hq : Counted q)
    (hbits : ∀ b < total_blocks, p.used b = q.used b)
    (hbehind : ∀ x, BITMAP_SIZE ≤ x → p.pmm_bitmap x = q.pmm_bitmap x) :
  p = q
  := by
  have hmap : p.pmm_bitmap = q.pmm_bitmap := by
    have hbyte : ∀ b < BITMAP_SIZE * 8, Bitmap.test p.pmm_bitmap b = Bitmap.test q.pmm_bitmap b := by
      intro b hb
      apply hbits
      rw [BITMAP_SIZE, MAX_BLOCKS] at hb
      rw [total_blocks, MAX_BLOCKS]
      omega
    exact Bitmap.eq_of_test hbyte hbehind
  have hcount : p.used_blocks = q.used_blocks := by
    have hset : setBits p = setBits q := by
      ext b
      rw [mem_setBits, mem_setBits]
      exact and_congr_right fun hb => by rw [hbits b hb]
    rw [hp, hq, hset]
  obtain ⟨pm, pu⟩ := p
  obtain ⟨qm, qu⟩ := q
  exact congrArg₂ Pmm.mk hmap hcount

/-! ### The set of entries -/

/-- The entries of the memory maps: address, length and type. -/
def entriesOf (m : Memory) (base : ℕ) : Set (ℕ × ℕ × ℕ) :=
  { r | ∃ tag, Tag m base tag ∧ tagType m tag = 6 ∧
    ∃ entry, Entry m tag entry ∧ (entryAddr m entry, entryLen m entry, entryType m entry) = r }

/-- Whether a page address is available depends on the set of entries. -/
theorem available_iff {m : Memory} {base : ℕ} {Q : ℕ → Prop} :
  Available m base Q ↔ ∃ r ∈ entriesOf m base, r.2.2 = 1 ∧
    ∃ a, PageOf r.1 (u64 (r.1 + r.2.1)) a ∧ Q a
  := by
  constructor
  · rintro ⟨tag, ht, htype, entry, he, hetype, a, ha, hQ⟩
    exact ⟨_, ⟨tag, ht, htype, entry, he, rfl⟩, hetype, a, ha, hQ⟩
  · rintro ⟨r, ⟨tag, ht, htype, entry, he, rfl⟩, hetype, a, ha, hQ⟩
    exact ⟨tag, ht, htype, entry, he, hetype, a, ha, hQ⟩

/-- Over two memory maps with the same entries `pmm_init` ends in the same state. -/
theorem pmm_init_eq {n n' mbi_phys_addr : ℕ} {m m' : Memory} {k : Image} {p q q' : Pmm}
    (h : pmm_init n m k p mbi_phys_addr = some q) (h' : pmm_init n' m' k p mbi_phys_addr = some q')
    (hsame : entriesOf m (P2V mbi_phys_addr) = entriesOf m' (P2V mbi_phys_addr)) :
  q = q'
  := by
  apply counted_ext (pmm_init_counted h) (pmm_init_counted h')
  · intro b hb
    rw [Bool.eq_iff_iff, pmm_init_used h hb, pmm_init_used h' hb, Freed, Freed, available_iff,
      available_iff, hsame]
  · intro x hx
    rw [pmm_init_behind h hx, pmm_init_behind h' hx]

/-- Over information with the same set of memory-map entries, in whatever order and however often
each occurs, `pmm_init` ends with the same bitmap and the same counter; where the information is
well formed it does end. -/
theorem pmm_init_order_independent {m m' : Memory} {mbi_phys_addr : ℕ}
    (hsame : entriesOf m (P2V mbi_phys_addr) = entriesOf m' (P2V mbi_phys_addr)) (k : Image) (p : Pmm) :
  (∀ n n' q q', pmm_init n m k p mbi_phys_addr = some q → pmm_init n' m' k p mbi_phys_addr = some q' →
    q.pmm_bitmap = q'.pmm_bitmap ∧ q.used_blocks = q'.used_blocks) ∧
  (WellFormed m mbi_phys_addr → WellFormed m' mbi_phys_addr → Placed k → ∀ n > 2 ^ 64,
    ∃ q, pmm_init n m k p mbi_phys_addr = some q ∧ pmm_init n m' k p mbi_phys_addr = some q)
  := by
  constructor
  · intro n n' q q' hq hq'
    rw [pmm_init_eq hq hq' hsame]
    exact ⟨rfl, rfl⟩
  · intro h h' hk n hn
    obtain ⟨q, hq⟩ := h.pmm_init_returns hn hk p
    obtain ⟨q', hq'⟩ := h'.pmm_init_returns hn hk p
    obtain rfl := pmm_init_eq hq hq' hsame
    exact ⟨q, hq, hq'⟩

/-- Boot information at the physical address `0x9000` with a tag of 16 bytes and a memory map of
three entries behind it, or in front of it. -/
def threeRegions (first : Bool) (r₁ r₂ r₃ : ℕ × ℕ × ℕ) : Memory :=
  let base := P2V 0x9000
  let map := if first then base + 8 else base + 24
  let other := if first then base + 96 else base + 8
  let entry (m : Memory) (i : ℕ) (r : ℕ × ℕ × ℕ) : Memory :=
    ((m.store (map + 16 + 24 * i) 8 r.1).store (map + 24 + 24 * i) 8 r.2.1).store
      (map + 32 + 24 * i) 4 r.2.2
  let m : Memory := fun _ => 0
  let m := m.store base 4 120
  let m := (m.store other 4 1).store (other + 4) 4 16
  let m := ((m.store map 4 6).store (map + 4) 4 88).store (map + 8) 4 24
  let m := entry (entry (entry m 0 r₁) 1 r₂) 2 r₃
  m.store (base + 116) 4 8

/-- The entries in the order of the walk; `none` when a loop takes more than `n` rounds. -/
def entriesWithin (n : ℕ) (m : Memory) (base : ℕ) : Option (List (ℕ × ℕ × ℕ)) :=
  eachTag n m base
    (fun rs tag =>
      if tagType m tag = 6 then
        (Loop.forValues (entryCond m tag) (entryNext m tag) n (u64 (tag + 16))).map fun entries =>
          rs ++ entries.map fun e => (entryAddr m e, entryLen m e, entryType m e)
      else some rs)
    []

theorem mem_entriesWithin {n : ℕ} {m : Memory} {base : ℕ} {rs : List (ℕ × ℕ × ℕ)}
    (h : entriesWithin n m base = some rs) (r : ℕ × ℕ × ℕ) :
  r ∈ entriesOf m base ↔ r ∈ rs
  := by
  have hout : r ∉ rs ↔ r ∉ entriesOf m base := by
    rw [eachTag_iff (P := fun rs => r ∉ rs) (Q := fun tag => tagType m tag = 6 ∧
      ∃ entry, Entry m tag entry ∧ (entryAddr m entry, entryLen m entry, entryType m entry) = r) _ h]
    · simp [entriesOf]
    · intro rs tag rs' hround
      split_ifs at hround with htype
      · obtain ⟨entries, hentries, rfl⟩ := Option.map_eq_some_iff.mp hround
        simp only [List.mem_append, List.mem_map, Loop.mem_forValues hentries, htype, true_and,
          not_or, Entry]
      · obtain rfl := Option.some.inj hround
        simp [htype]
  exact (not_iff_not.mp hout).symm

/-- Two regions, the second one twice, and the same in another order behind another tag. -/
theorem pmm_init_reordered :
  ∃ q, pmm_init (2 ^ 64 + 1) (threeRegions true (0x200000, 0x4000, 1) (0x300000, 0x1000, 1)
      (0x300000, 0x1000, 1)) smallImage ⟨fun _ => 0, 0⟩ 0x9000 = some q ∧
    pmm_init (2 ^ 64 + 1) (threeRegions false (0x300000, 0x1000, 1) (0x200000, 0x4000, 1)
      (0x200000, 0x4000, 1)) smallImage ⟨fun _ => 0, 0⟩ 0x9000 = some q
  := by
  have hfst : entriesWithin 5 (threeRegions true (0x200000, 0x4000, 1) (0x300000, 0x1000, 1)
      (0x300000, 0x1000, 1)) (P2V 0x9000) = some [(0x200000, 0x4000, 1), (0x300000, 0x1000, 1),
      (0x300000, 0x1000, 1)] := by decide +kernel
  have hsnd : entriesWithin 5 (threeRegions false (0x300000, 0x1000, 1) (0x200000, 0x4000, 1)
      (0x200000, 0x4000, 1)) (P2V 0x9000) = some [(0x300000, 0x1000, 1), (0x200000, 0x4000, 1),
      (0x200000, 0x4000, 1)] := by decide +kernel
  have hsame : entriesOf (threeRegions true (0x200000, 0x4000, 1) (0x300000, 0x1000, 1)
      (0x300000, 0x1000, 1)) (P2V 0x9000) = entriesOf (threeRegions false (0x300000, 0x1000, 1)
      (0x200000, 0x4000, 1) (0x200000, 0x4000, 1)) (P2V 0x9000) := by
    ext r
    rw [mem_entriesWithin hfst, mem_entriesWithin hsnd]
    simp only [List.mem_cons, List.not_mem_nil, or_false, or_self]
    exact or_comm
  exact (pmm_init_order_independent hsame smallImage ⟨fun _ => 0, 0⟩).2
    (WellFormed.of_within (n := 5) (by decide +kernel))
    (WellFormed.of_within (n := 5) (by decide +kernel)) smallImage_placed (2 ^ 64 + 1) (by omega)

end Boot
