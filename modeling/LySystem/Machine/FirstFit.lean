import Mathlib.Data.List.Chain
import Mathlib.Tactic.Use
import Mathlib.Tactic.Tauto

/-!
# First fit with coalescing

An allocator that divides a range into consecutive blocks, each a header of `hdr` bytes
followed by `size` bytes of payload.  `alloc` takes the first free block that is large
enough and splits off its tail when more than `slack` bytes would remain; `coalesce` joins
neighbouring free blocks.  Here the blocks are a list; how a memory holds it is another
matter.
-/

namespace FirstFit

/-- A block: the address of its header, the size of its payload, and whether it is free. -/
structure Block where
  addr : ℕ
  size : ℕ
  free : Bool
deriving DecidableEq, Repr

variable (hdr slack : ℕ)

/-- The address of the payload of a block. -/
def Block.payload (b : Block) : ℕ := b.addr + hdr

/-- The address just past a block. -/
def Block.stop (b : Block) : ℕ := b.addr + hdr + b.size

/-- The blocks cover the addresses from `a` up to `e`, each starting where the previous one
stops. -/
def Tiles : ℕ → List Block → ℕ → Prop
  | a, [], e => a = e
  | a, b :: bs, e => b.addr = a ∧ Tiles (b.stop hdr) bs e

/-- What a block becomes when `size` bytes of it are handed out. -/
def split (b : Block) (size : ℕ) : List Block :=
  if size + hdr + slack < b.size then
    [⟨b.addr, size, false⟩, ⟨b.addr + hdr + size, b.size - size - hdr, true⟩]
  else [⟨b.addr, b.size, false⟩]

/-- The first free block of at least `size` bytes, and the blocks once it is handed out. -/
def alloc (size : ℕ) : List Block → Option (Block × List Block)
  | [] => none
  | b :: bs =>
      if b.free ∧ size ≤ b.size then some (b, split hdr slack b size ++ bs)
      else (alloc size bs).map fun r => (r.1, b :: r.2)

/-- The blocks with the one whose payload is at `ptr` marked free. -/
def release (ptr : ℕ) : List Block → List Block :=
  List.map fun b => if b.payload hdr = ptr then { b with free := true } else b

/-- `coalesceFrom b bs` joins the free blocks that follow one another in `b :: bs`, the
first of which is `b`. -/
def coalesceFrom : Block → List Block → List Block
  | b, [] => [b]
  | b, c :: cs =>
      if b.free ∧ c.free then coalesceFrom { b with size := b.size + (c.size + hdr) } cs
      else b :: coalesceFrom c cs

/-- The blocks with free blocks that follow one another joined. -/
def coalesce : List Block → List Block
  | [] => []
  | b :: bs => coalesceFrom hdr b bs

/-- No two consecutive blocks are both free. -/
def NoAdjacentFree (bs : List Block) : Prop :=
  bs.IsChain fun b c => ¬ (b.free ∧ c.free)

/-- The addresses from `x` up to `y` are a greatest range between the blocks in use: each end is
an end of the range from `a` up to `e` or of a block in use, and no block in use meets it. -/
structure Gap (a e : ℕ) (bs : List Block) (x y : ℕ) : Prop where
  low : x = a ∨ ∃ b ∈ bs, ¬ b.free ∧ b.stop hdr = x
  high : y = e ∨ ∃ b ∈ bs, ¬ b.free ∧ b.addr = y
  le : x ≤ y
  unused : ∀ b ∈ bs, ¬ b.free → b.stop hdr ≤ x ∨ y ≤ b.addr

variable {hdr slack}

/-! ### Tilings -/

theorem Tiles.le {a e : ℕ} {bs : List Block} (h : Tiles hdr a bs e) :
  a ≤ e
  := by
  induction bs generalizing a with
  | nil => exact Nat.le_of_eq h
  | cons b bs ih =>
      have hle := ih h.2
      have haddr := h.1
      rw [Block.stop] at hle
      omega

/-- A block of a tiling lies in the tiled range. -/
theorem Tiles.bounds {a e : ℕ} {bs : List Block} (h : Tiles hdr a bs e) {b : Block}
    (hb : b ∈ bs) :
  a ≤ b.addr ∧ b.stop hdr ≤ e
  := by
  induction bs generalizing a with
  | nil => cases hb
  | cons c bs ih =>
      obtain ⟨rfl, ht⟩ := h
      rcases List.mem_cons.mp hb with rfl | hb
      · use le_rfl
        apply ht.le
      · obtain ⟨hlo, hhi⟩ := ih ht hb
        rw [Block.stop] at hlo
        omega

/-- Of two blocks of a tiling, one stops before the other starts, or they are the same. -/
theorem Tiles.disjoint {a e : ℕ} {bs : List Block} (h : Tiles hdr a bs e) {b c : Block}
    (hb : b ∈ bs) (hc : c ∈ bs) :
  b = c ∨ b.stop hdr ≤ c.addr ∨ c.stop hdr ≤ b.addr
  := by
  induction bs generalizing a with
  | nil => cases hb
  | cons d bs ih =>
      obtain ⟨rfl, ht⟩ := h
      rcases List.mem_cons.mp hb with rfl | hb' <;> rcases List.mem_cons.mp hc with rfl | hc'
      · left
        rfl
      · right; left
        apply (ht.bounds hc').1
      · right; right
        apply (ht.bounds hb').1
      · apply ih ht hb' hc'

/-- The payload of a block lies outside all headers. -/
theorem Tiles.payload_outside {a e x : ℕ} {bs : List Block} (h : Tiles hdr a bs e) {c : Block}
    (hc : c ∈ bs) (hlow : c.payload hdr ≤ x) (hhigh : x < c.stop hdr) :
  ∀ b ∈ bs, x < b.addr ∨ b.addr + hdr ≤ x
  := by
  intro b hb
  rw [Block.payload] at hlow
  rcases h.disjoint hb hc with rfl | hbc | hcb
  · right
    exact hlow
  · right
    rw [Block.stop] at hbc
    omega
  · left
    omega

/-- With a header of positive size, blocks of a tiling at the same address are the same. -/
theorem Tiles.eq_of_addr {a e : ℕ} {bs : List Block} (hpos : 0 < hdr) (h : Tiles hdr a bs e)
    {b c : Block} (hb : b ∈ bs) (hc : c ∈ bs) (haddr : b.addr = c.addr) :
  b = c
  := by
  rcases h.disjoint hb hc with heq | hlt | hlt
  · apply heq
  · rw [Block.stop] at hlt
    omega
  · rw [Block.stop] at hlt
    omega

/-- With the start, the header size and all block sizes multiples of `k`, so are the
addresses. -/
theorem Tiles.dvd_addr {a e k : ℕ} {bs : List Block} (h : Tiles hdr a bs e) (ha : k ∣ a)
    (hhdr : k ∣ hdr) (hsize : ∀ b ∈ bs, k ∣ b.size) {b : Block} (hb : b ∈ bs) :
  k ∣ b.addr
  := by
  induction bs generalizing a with
  | nil => cases hb
  | cons c bs ih =>
      obtain ⟨rfl, ht⟩ := h
      rcases List.mem_cons.mp hb with rfl | hb
      · apply ha
      · apply ih ht _ (fun d hd => hsize d (List.mem_cons_of_mem _ hd)) hb
        apply Nat.dvd_add (Nat.dvd_add ha hhdr) (hsize c List.mem_cons_self)

/-- Every address of a tiled range lies in a block. -/
theorem Tiles.cover {a e x : ℕ} {bs : List Block} (h : Tiles hdr a bs e) (hlo : a ≤ x)
    (hhi : x < e) :
  ∃ b ∈ bs, b.addr ≤ x ∧ x < b.stop hdr
  := by
  induction bs generalizing a with
  | nil =>
      obtain rfl : a = e := h
      omega
  | cons b bs ih =>
      obtain ⟨rfl, ht⟩ := h
      by_cases hx : x < b.stop hdr
      · exact ⟨b, List.mem_cons_self, hlo, hx⟩
      · obtain ⟨c, hc, hcx⟩ := ih ht (by omega)
        exact ⟨c, List.mem_cons_of_mem b hc, hcx⟩

/-- A block that does not stop at the end of the range is followed by another one. -/
theorem Tiles.next {a e : ℕ} {bs : List Block} (h : Tiles hdr a bs e) {b : Block} (hb : b ∈ bs)
    (hlt : b.stop hdr < e) :
  ∃ c ∈ bs, c.addr = b.stop hdr
  := by
  obtain ⟨hlow, -⟩ := h.bounds hb
  rw [Block.stop] at hlt
  obtain ⟨c, hc, hclow, hchigh⟩ := h.cover (x := b.addr + hdr + b.size) (by omega) hlt
  refine ⟨c, hc, ?_⟩
  rw [Block.stop]
  rcases h.disjoint hb hc with rfl | hbc | hcb
  · rw [Block.stop] at hchigh
    omega
  · rw [Block.stop] at hbc
    omega
  · omega

/-- A block that does not start where the range does follows another one. -/
theorem Tiles.prev {a e : ℕ} {bs : List Block} (h : Tiles hdr a bs e) {b : Block} (hb : b ∈ bs)
    (hlt : a < b.addr) :
  ∃ c ∈ bs, c.stop hdr = b.addr
  := by
  have hhigh := (h.bounds hb).2
  rw [Block.stop] at hhigh
  obtain ⟨c, hc, hclow, hchigh⟩ := h.cover (x := b.addr - 1) (by omega) (by omega)
  refine ⟨c, hc, ?_⟩
  rcases h.disjoint hb hc with rfl | hbc | hcb
  · omega
  · rw [Block.stop] at hbc
    omega
  · omega

/-- Where one block stops and the next one starts, they are not both free. -/
theorem NoAdjacentFree.of_stop {a e : ℕ} {bs : List Block} (hn : NoAdjacentFree bs)
    (h : Tiles hdr a bs e) (hpos : 0 < hdr) {b c : Block} (hb : b ∈ bs) (hc : c ∈ bs)
    (hstop : b.stop hdr = c.addr) :
  ¬ (b.free ∧ c.free)
  := by
  induction bs generalizing a with
  | nil => cases hb
  | cons d bs ih =>
      obtain ⟨rfl, ht⟩ := h
      obtain ⟨hhead, htail⟩ := List.isChain_cons.mp hn
      rcases List.mem_cons.mp hb with rfl | hb' <;> rcases List.mem_cons.mp hc with rfl | hc'
      · rw [Block.stop] at hstop
        omega
      · -- The next block is the one right behind.
        cases bs with
        | nil => cases hc'
        | cons f bs =>
            have hf : c = f := by
              apply Tiles.eq_of_addr hpos ht hc' List.mem_cons_self
              rw [← hstop, ht.1]
            rw [hf]
            apply hhead f rfl
      · have hlow := (ht.bounds hb').1
        rw [Block.stop] at hlow hstop
        omega
      · apply ih htail ht hb' hc'

/-- Without neighbouring free blocks, the nonempty gaps are the free blocks. -/
theorem gap_iff {a e x y : ℕ} {bs : List Block} (h : Tiles hdr a bs e) (hn : NoAdjacentFree bs)
    (hpos : 0 < hdr) (hlt : x < y) :
  Gap hdr a e bs x y ↔ ∃ b ∈ bs, b.free ∧ b.addr = x ∧ b.stop hdr = y
  := by
  constructor
  · intro hgap
    have hx : a ≤ x := by
      rcases hgap.low with rfl | ⟨b, hb, -, rfl⟩
      · exact le_rfl
      · have := (h.bounds hb).1
        rw [Block.stop]
        omega
    have hy : y ≤ e := by
      rcases hgap.high with rfl | ⟨b, hb, -, rfl⟩
      · exact le_rfl
      · have := (h.bounds hb).2
        rw [Block.stop] at this
        omega
    obtain ⟨b, hb, hlow, hhigh⟩ := h.cover hx (by omega)
    have hfree : b.free := by
      by_contra hused
      have := hgap.unused b hb hused
      omega
    have haddr : b.addr = x := by
      rcases hgap.low with rfl | ⟨c, hc, hused, rfl⟩
      · exact le_antisymm hlow (h.bounds hb).1
      · rcases h.disjoint hb hc with rfl | hbc | hcb
        · exact absurd hfree hused
        · rw [Block.stop] at hhigh hbc
          rw [Block.stop] at hhigh
          omega
        · exact le_antisymm hlow hcb
    have hle : b.stop hdr ≤ y := by
      rcases hgap.high with rfl | ⟨c, hc, hused, rfl⟩
      · exact (h.bounds hb).2
      · rcases h.disjoint hb hc with rfl | hbc | hcb
        · exact absurd hfree hused
        · exact hbc
        · rw [Block.stop] at hcb
          omega
    refine ⟨b, hb, hfree, haddr, le_antisymm hle ?_⟩
    -- The block behind `b` is in use.
    by_contra hshort
    obtain ⟨c, hc, hcaddr⟩ := h.next hb (by omega)
    have hused : ¬ c.free := by
      intro hcfree
      exact hn.of_stop h hpos hb hc hcaddr.symm ⟨hfree, hcfree⟩
    have := hgap.unused c hc hused
    rw [Block.stop] at this
    omega
  · rintro ⟨b, hb, hfree, rfl, rfl⟩
    have hnext : ∀ c ∈ bs, ¬ c.free → c.stop hdr ≤ b.addr ∨ b.stop hdr ≤ c.addr := by
      intro c hc hused
      rcases h.disjoint hb hc with rfl | hbc | hcb
      · exact absurd hfree hused
      · exact Or.inr hbc
      · exact Or.inl hcb
    constructor
    · by_cases hstart : b.addr = a
      · exact Or.inl hstart
      · right
        have hlow := (h.bounds hb).1
        obtain ⟨c, hc, hcstop⟩ := h.prev hb (by omega)
        exact ⟨c, hc, fun hcfree => hn.of_stop h hpos hc hb hcstop ⟨hcfree, hfree⟩, hcstop⟩
    · by_cases hend : b.stop hdr = e
      · exact Or.inl hend
      · right
        have hhigh := (h.bounds hb).2
        obtain ⟨c, hc, hcaddr⟩ := h.next hb (by omega)
        exact ⟨c, hc, fun hcfree => hn.of_stop h hpos hb hc hcaddr.symm ⟨hfree, hcfree⟩, hcaddr⟩
    · exact hlt.le
    · exact hnext

/-! ### Handing out -/

theorem alloc_cons_fit {size : ℕ} {b : Block} (bs : List Block) (h : b.free ∧ size ≤ b.size) :
  alloc hdr slack size (b :: bs) = some (b, split hdr slack b size ++ bs)
  := by
  rw [alloc, if_pos h]

theorem alloc_cons_skip {size : ℕ} {b : Block} (bs : List Block) (h : ¬ (b.free ∧ size ≤ b.size)) :
  alloc hdr slack size (b :: bs) = (alloc hdr slack size bs).map fun r => (r.1, b :: r.2)
  := by
  rw [alloc, if_neg h]

/-- Rules of induction for a successful `alloc`: the first block fits, or it is skipped. -/
theorem alloc_induction {size : ℕ} {motive : List Block → Block → List Block → Prop}
    (fit : ∀ b bs, b.free → size ≤ b.size → motive (b :: bs) b (split hdr slack b size ++ bs))
    (skip : ∀ d bs b bs', ¬ (d.free ∧ size ≤ d.size) → alloc hdr slack size bs = some (b, bs') →
      motive bs b bs' → motive (d :: bs) b (d :: bs'))
    {bs : List Block} {b : Block} {bs' : List Block}
    (h : alloc hdr slack size bs = some (b, bs')) :
  motive bs b bs'
  := by
  induction bs generalizing bs' with
  | nil => simp [alloc] at h
  | cons d bs ih =>
      by_cases hd : d.free ∧ size ≤ d.size
      · rw [alloc_cons_fit _ hd, Option.some.injEq, Prod.mk.injEq] at h
        obtain ⟨rfl, rfl⟩ := h
        apply fit d bs hd.1 hd.2
      · rw [alloc_cons_skip _ hd] at h
        obtain ⟨⟨c, cs⟩, hr, heq⟩ := Option.map_eq_some_iff.mp h
        obtain ⟨hc, hcs⟩ := Prod.mk.inj heq
        dsimp only at hc hcs
        subst hc hcs
        apply skip d bs c cs hd hr (ih hr)

/-- The block a split hands out: it starts where `b` does. -/
theorem split_eq (hdr slack : ℕ) (b : Block) (size : ℕ) (h : size ≤ b.size) :
  ∃ s rest, split hdr slack b size = ⟨b.addr, s, false⟩ :: rest ∧ size ≤ s ∧
    (∀ c ∈ rest, c.free) ∧ ∀ e bs, Tiles hdr (b.stop hdr) bs e →
      Tiles hdr (b.addr + hdr + s) (rest ++ bs) e
  := by
  rw [split]
  split_ifs with hs
  · use size, [⟨b.addr + hdr + size, b.size - size - hdr, true⟩], rfl, le_rfl
    constructor
    · simp
    · intro e bs ht
      use rfl
      have hstop : (⟨b.addr + hdr + size, b.size - size - hdr, true⟩ : Block).stop hdr
          = b.stop hdr := by
        simp only [Block.stop]
        omega
      rw [hstop]
      apply ht
  · use b.size, [], rfl, h
    constructor
    · simp
    · intro e bs ht
      apply ht

theorem alloc_tiles {size : ℕ} {bs bs' : List Block} {b : Block}
    (h : alloc hdr slack size bs = some (b, bs')) {a e : ℕ} (ht : Tiles hdr a bs e) :
  Tiles hdr a bs' e
  := by
  revert a
  apply alloc_induction (motive := fun bs _ bs' => ∀ a, Tiles hdr a bs e → Tiles hdr a bs' e) _ _ h
  · rintro b bs - hsize a ⟨rfl, ht⟩
    obtain ⟨s, rest, hsplit, -, -, htiles⟩ := split_eq hdr slack b size hsize
    rw [hsplit]
    use rfl
    apply htiles e bs ht
  · rintro d bs b bs' - - ih a ⟨rfl, ht⟩
    use rfl
    apply ih _ ht

/-- The block handed out was free, and large enough. -/
theorem alloc_mem {size : ℕ} {bs bs' : List Block} {b : Block}
    (h : alloc hdr slack size bs = some (b, bs')) :
  b ∈ bs ∧ b.free ∧ size ≤ b.size
  := by
  apply alloc_induction (motive := fun bs b _ => b ∈ bs ∧ b.free ∧ size ≤ b.size) _ _ h
  · intro b bs hfree hsize
    simp [hfree, hsize]
  · rintro d bs b bs' - - ⟨hb, hfree, hsize⟩
    simp [hb, hfree, hsize]

theorem alloc_eq_none {size : ℕ} {bs : List Block} :
  alloc hdr slack size bs = none ↔ ∀ b ∈ bs, b.free → b.size < size
  := by
  induction bs with
  | nil => simp [alloc]
  | cons b bs ih =>
      by_cases hfit : b.free ∧ size ≤ b.size
      · rw [alloc_cons_fit bs hfit]
        apply iff_of_false (by simp)
        intro hall
        have := hall b List.mem_cons_self hfit.1
        omega
      · rw [alloc_cons_skip bs hfit, Option.map_eq_none_iff, ih, List.forall_mem_cons]
        refine ⟨fun h => ⟨fun hfree => ?_, h⟩, fun h => h.2⟩
        by_contra hle
        exact hfit ⟨hfree, not_lt.mp hle⟩

/-- The block handed out is the lowest of those that fit. -/
theorem alloc_lowest {size a e : ℕ} {bs bs' : List Block} {b : Block}
    (h : alloc hdr slack size bs = some (b, bs')) (ht : Tiles hdr a bs e) {c : Block} (hc : c ∈ bs)
    (hfree : c.free) (hsize : size ≤ c.size) :
  b.addr ≤ c.addr
  := by
  revert a
  apply alloc_induction (motive := fun bs b _ => c ∈ bs → ∀ a, Tiles hdr a bs e → b.addr ≤ c.addr)
    _ _ h hc
  · rintro b bs - - hc a ht
    rw [ht.1]
    apply (ht.bounds hc).1
  · rintro d bs b bs' hskip - ih hc a ht
    rcases List.mem_cons.mp hc with rfl | hc
    · exact absurd ⟨hfree, hsize⟩ hskip
    · apply ih hc _ ht.2

/-- The blocks in use after `alloc`: those in use before and the one handed out. -/
theorem alloc_used {size : ℕ} {bs bs' : List Block} {b : Block}
    (h : alloc hdr slack size bs = some (b, bs')) :
  ∃ s, size ≤ s ∧ ∀ c, (c ∈ bs' ∧ ¬ c.free) ↔ (c ∈ bs ∧ ¬ c.free) ∨ c = ⟨b.addr, s, false⟩
  := by
  apply alloc_induction (motive := fun bs b bs' =>
    ∃ s, size ≤ s ∧ ∀ c, (c ∈ bs' ∧ ¬ c.free) ↔ (c ∈ bs ∧ ¬ c.free) ∨ c = ⟨b.addr, s, false⟩) _ _ h
  · intro b bs hfree hsize
    obtain ⟨s, rest, hsplit, hs, hrest, -⟩ := split_eq hdr slack b size hsize
    use s, hs
    intro c
    rw [hsplit]
    have hb : c = b → ¬ ¬ c.free := by
      rintro rfl
      simp [hfree]
    have hr : c ∈ rest → ¬ ¬ c.free := by
      intro hc
      simp [hrest c hc]
    have ht : c = ⟨b.addr, s, false⟩ → ¬ c.free := by
      rintro rfl
      simp
    simp only [List.cons_append, List.mem_cons, List.mem_append]
    tauto
  · rintro d bs b bs' - - ⟨s, hs, ih⟩
    use s, hs
    intro c
    have := ih c
    simp only [List.mem_cons]
    tauto

/-- The first block of the result is the first block of the list, or it is in use. -/
theorem alloc_head {size : ℕ} {bs bs' : List Block} {b : Block}
    (h : alloc hdr slack size bs = some (b, bs')) :
  ∀ d ∈ bs'.head?, d.free → d ∈ bs.head?
  := by
  apply alloc_induction (motive := fun bs _ bs' => ∀ d ∈ bs'.head?, d.free → d ∈ bs.head?) _ _ h
  · rintro b bs - hsize d hd hfree
    obtain ⟨s, rest, hsplit, -⟩ := split_eq hdr slack b size hsize
    rw [hsplit] at hd
    simp only [List.cons_append, List.head?_cons, Option.mem_some_iff] at hd
    subst hd
    simp at hfree
  · rintro d bs b bs' - - - c hc -
    apply hc

theorem alloc_noAdjacentFree {size : ℕ} {bs bs' : List Block} {b : Block}
    (h : alloc hdr slack size bs = some (b, bs')) (hn : NoAdjacentFree bs) :
  NoAdjacentFree bs'
  := by
  revert hn
  apply alloc_induction (motive := fun bs _ bs' => NoAdjacentFree bs → NoAdjacentFree bs') _ _ h
  · rintro b bs hfree - hn
    obtain ⟨hhead, htail⟩ := List.isChain_cons.mp hn
    rw [split]
    split_ifs
    · apply List.isChain_cons_cons.mpr
      constructor
      · simp
      · apply List.isChain_cons.mpr
        use fun y hy hyf => hhead y hy ⟨hfree, hyf.2⟩, htail
    · apply List.isChain_cons.mpr
      simpa using htail
  · rintro d bs b bs' - halloc ih hn
    obtain ⟨hhead, htail⟩ := List.isChain_cons.mp hn
    apply List.isChain_cons.mpr
    use fun y hy hyf => hhead y (alloc_head halloc y hy hyf.2) hyf, ih htail

/-- Handing out a multiple of `k` bytes keeps the block sizes multiples of `k`. -/
theorem alloc_dvd_size {size k : ℕ} {bs bs' : List Block} {b : Block}
    (h : alloc hdr slack size bs = some (b, bs')) (hk : k ∣ size) (hhdr : k ∣ hdr)
    (hsize : ∀ c ∈ bs, k ∣ c.size) :
  ∀ c ∈ bs', k ∣ c.size
  := by
  revert hsize
  apply alloc_induction
    (motive := fun bs _ bs' => (∀ c ∈ bs, k ∣ c.size) → ∀ c ∈ bs', k ∣ c.size) _ _ h
  · rintro b bs - - hsize c hc
    have hb := hsize b List.mem_cons_self
    rw [split] at hc
    rcases List.mem_append.mp hc with hc | hc
    · split_ifs at hc
      · simp only [List.mem_cons, List.not_mem_nil, or_false] at hc
        rcases hc with rfl | rfl
        · apply hk
        · apply Nat.dvd_sub (Nat.dvd_sub hb hk) hhdr
      · obtain rfl := List.mem_singleton.mp hc
        apply hb
    · apply hsize c (List.mem_cons_of_mem _ hc)
  · rintro d bs b bs' - - ih hsize c hc
    rcases List.mem_cons.mp hc with rfl | hc
    · apply hsize c List.mem_cons_self
    · apply ih (fun d hd => hsize d (List.mem_cons_of_mem _ hd)) c hc

/-! ### Taking back -/

theorem release_tiles (ptr : ℕ) {a e : ℕ} {bs : List Block} (h : Tiles hdr a bs e) :
  Tiles hdr a (release hdr ptr bs) e
  := by
  induction bs generalizing a with
  | nil => apply h
  | cons b bs ih =>
      obtain ⟨rfl, ht⟩ := h
      rw [release, List.map_cons]
      split_ifs
      · use rfl, ih ht
      · use rfl, ih ht

theorem mem_release {ptr : ℕ} {bs : List Block} {c : Block} (h : c ∈ release hdr ptr bs) :
  ∃ b ∈ bs, b.addr = c.addr
  := by
  obtain ⟨b, hb, rfl⟩ := List.mem_map.mp h
  use b, hb
  split_ifs <;> rfl

/-- The blocks in use after `release`: those in use before, less the released one. -/
theorem release_used {ptr : ℕ} {bs : List Block} (c : Block) :
  (c ∈ release hdr ptr bs ∧ ¬ c.free) ↔ (c ∈ bs ∧ ¬ c.free) ∧ c.payload hdr ≠ ptr
  := by
  induction bs with
  | nil => simp [release]
  | cons b bs ih =>
      rw [release, List.map_cons, ← release]
      simp only [List.mem_cons]
      split_ifs with hb
      · have hfree : c = { b with free := true } → ¬ ¬ c.free := by
          rintro rfl
          simp
        have hptr : c = b → c.payload hdr = ptr := by
          rintro rfl
          apply hb
        tauto
      · have hptr : c = b → c.payload hdr ≠ ptr := by
          rintro rfl
          apply hb
        tauto

theorem release_dvd_size {ptr k : ℕ} {bs : List Block} (hsize : ∀ c ∈ bs, k ∣ c.size) :
  ∀ c ∈ release hdr ptr bs, k ∣ c.size
  := by
  intro c hc
  obtain ⟨d, hd, rfl⟩ := List.mem_map.mp hc
  split_ifs <;> apply hsize d hd

/-- Two blocks next to each other joined into one. -/
theorem Tiles.join {a e : ℕ} {b c : Block} {bs : List Block} (h : Tiles hdr a (b :: c :: bs) e) :
  Tiles hdr a ({ b with size := b.size + (c.size + hdr) } :: bs) e
  := by
  obtain ⟨rfl, hc, ht⟩ := h
  use rfl
  have hstop : ({ b with size := b.size + (c.size + hdr) } : Block).stop hdr = c.stop hdr := by
    simp only [Block.stop] at *
    omega
  rw [hstop]
  apply ht

theorem coalesceFrom_tiles {a e : ℕ} {b : Block} {bs : List Block} (h : Tiles hdr a (b :: bs) e) :
  Tiles hdr a (coalesceFrom hdr b bs) e
  := by
  induction bs generalizing a b with
  | nil => apply h
  | cons c cs ih =>
      rw [coalesceFrom]
      split_ifs
      · apply ih h.join
      · use h.1
        apply ih h.2

theorem coalesce_tiles {a e : ℕ} {bs : List Block} (h : Tiles hdr a bs e) :
  Tiles hdr a (coalesce hdr bs) e
  := by
  cases bs with
  | nil => apply h
  | cons b bs => apply coalesceFrom_tiles h

/-- The blocks in use are the same after coalescing. -/
theorem coalesceFrom_used {b : Block} {bs : List Block} (d : Block) :
  (d ∈ coalesceFrom hdr b bs ∧ ¬ d.free) ↔ (d ∈ b :: bs ∧ ¬ d.free)
  := by
  induction bs generalizing b with
  | nil => rfl
  | cons c cs ih =>
      rw [coalesceFrom]
      split_ifs with hfree
      · rw [ih]
        have hb : d = b → ¬ ¬ d.free := by
          rintro rfl
          simp [hfree.1]
        have hc : d = c → ¬ ¬ d.free := by
          rintro rfl
          simp [hfree.2]
        have hbc : d = { b with size := b.size + (c.size + hdr) } → ¬ ¬ d.free := by
          rintro rfl
          simp [hfree.1]
        simp only [List.mem_cons]
        tauto
      · have := @ih c
        simp only [List.mem_cons] at *
        tauto

theorem coalesce_used {bs : List Block} (d : Block) :
  (d ∈ coalesce hdr bs ∧ ¬ d.free) ↔ (d ∈ bs ∧ ¬ d.free)
  := by
  cases bs with
  | nil => rfl
  | cons b bs => apply coalesceFrom_used

theorem coalesceFrom_dvd_size {k : ℕ} (hhdr : k ∣ hdr) {b : Block} {bs : List Block}
    (hsize : ∀ c ∈ b :: bs, k ∣ c.size) :
  ∀ c ∈ coalesceFrom hdr b bs, k ∣ c.size
  := by
  induction bs generalizing b with
  | nil => apply hsize
  | cons c cs ih =>
      simp only [List.forall_mem_cons] at hsize ih
      obtain ⟨hb, hc, hcs⟩ := hsize
      rw [coalesceFrom]
      split_ifs
      · apply ih
        use Nat.dvd_add hb (Nat.dvd_add hc hhdr)
      · simp only [List.forall_mem_cons]
        use hb
        apply ih
        use hc

theorem coalesce_dvd_size {k : ℕ} (hhdr : k ∣ hdr) {bs : List Block} (hsize : ∀ c ∈ bs, k ∣ c.size) :
  ∀ c ∈ coalesce hdr bs, k ∣ c.size
  := by
  cases bs with
  | nil => apply hsize
  | cons b bs => apply coalesceFrom_dvd_size hhdr hsize

/-- Coalescing from `b` leaves a first block that is free exactly when `b` is. -/
theorem coalesceFrom_head {b : Block} {bs : List Block} :
  ∀ d ∈ (coalesceFrom hdr b bs).head?, d.free = b.free
  := by
  induction bs generalizing b with
  | nil => simp [coalesceFrom]
  | cons c cs ih =>
      rw [coalesceFrom]
      split_ifs
      · intro d hd
        apply ih d hd
      · simp

theorem coalesceFrom_noAdjacentFree (b : Block) (bs : List Block) :
  NoAdjacentFree (coalesceFrom hdr b bs)
  := by
  induction bs generalizing b with
  | nil => apply List.isChain_singleton
  | cons c cs ih =>
      rw [coalesceFrom]
      split_ifs with hfree
      · apply ih
      · apply List.isChain_cons.mpr
        constructor
        · intro d hd hbd
          rw [coalesceFrom_head d hd] at hbd
          apply hfree hbd
        · apply ih

theorem coalesce_noAdjacentFree (bs : List Block) :
  NoAdjacentFree (coalesce hdr bs)
  := by
  cases bs with
  | nil => apply List.isChain_nil
  | cons b bs => apply coalesceFrom_noAdjacentFree

/-- A tiling without blocks in use and without neighbouring free blocks is one free block. -/
theorem eq_singleton_of_unused {a e : ℕ} {bs : List Block} (ht : Tiles hdr a bs e)
    (hne : bs ≠ []) (hn : NoAdjacentFree bs) (hfree : ∀ b ∈ bs, b.free) :
  bs = [⟨a, e - a - hdr, true⟩]
  := by
  match bs, ht, hne with
  | [b], ⟨haddr, hstop⟩, _ =>
      have hb := hfree b (by simp)
      obtain ⟨addr, size, free⟩ := b
      simp only [Block.stop, Tiles] at haddr hstop
      simp only [List.cons.injEq, Block.mk.injEq, and_true]
      use haddr, by omega, hb
  | b :: c :: cs, _, _ =>
      have hbc := (List.isChain_cons_cons.mp hn).1
      exact absurd ⟨hfree b (by simp), hfree c (by simp)⟩ hbc

end FirstFit
