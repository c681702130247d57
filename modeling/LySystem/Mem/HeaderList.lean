import LySystem.Machine.FirstFit
import LySystem.Mem.Heap

/-!
# The header list of the heap

The headers reached from `heap_start` by following `next` are a list of blocks.  On a list
that tiles a range of addresses, `kmalloc` takes the first block that fits and `kfree`
coalesces, as the first-fit allocator on lists of blocks does.
-/

namespace Heap

open FirstFit

/-- The remainder `kmalloc` leaves in the block rather than split off. -/
def slack : ℕ := 32

/-- The block a header describes. -/
def header (m : Memory) (h : ℕ) : Block := ⟨h, size m h, is_free m h != 0⟩

theorem size_of_header {m : Memory} {h : ℕ} {b : Block} (hb : header m h = b) :
  size m h = b.size
  := by
  subst hb
  rfl

theorem free_of_header {m : Memory} {h : ℕ} {b : Block} (hb : header m h = b) :
  (is_free m h != 0) = b.free
  := by
  subst hb
  rfl

/-- The headers met from the pointer by following `next` up to `NULL`, each with the magic
number, describe the blocks of the list. -/
inductive HeaderList (m : Memory) : ℕ → List Block → Prop
  | nil : HeaderList m 0 []
  | cons {h : ℕ} {bs : List Block} :
      h ≠ 0 → magic m h = HEAP_MAGIC → HeaderList m (next m h) bs →
      HeaderList m h (header m h :: bs)

theorem HeaderList.cons_iff {m : Memory} {p : ℕ} {b : Block} {bs : List Block} :
  HeaderList m p (b :: bs) ↔
    p = b.addr ∧ b.addr ≠ 0 ∧ magic m b.addr = HEAP_MAGIC ∧ header m b.addr = b ∧
      HeaderList m (next m b.addr) bs
  := by
  constructor
  · rintro (_ | ⟨hne, hmagic, hrest⟩)
    use rfl, hne, hmagic, rfl, hrest
  · rintro ⟨rfl, hne, hmagic, hb, hrest⟩
    have hlist := HeaderList.cons hne hmagic hrest
    rwa [hb] at hlist

/-- The pointer to a list is that of its first block, `NULL` for the empty list. -/
theorem HeaderList.pointer {m : Memory} {p : ℕ} {bs : List Block} (h : HeaderList m p bs) :
  p = (bs.head?.map Block.addr).getD 0
  := by
  cases h <;> rfl

/-- The fields of a header depend on its 24 bytes only. -/
theorem header_congr {m m' : Memory} {h : ℕ} (hag : Memory.AgreeOn h (h + headerSize) m m') :
  header m' h = header m h ∧ magic m' h = magic m h ∧ next m' h = next m h
  := by
  rw [headerSize] at hag
  simp only [header, magic, is_free, size, next]
  rw [hag.load (by omega) (by omega), hag.load (by omega) (by omega),
    hag.load (by omega) (by omega), hag.load (by omega) (by omega)]
  simp

/-- The header of a block of the list. -/
theorem HeaderList.mem {m : Memory} {p : ℕ} {bs : List Block} (h : HeaderList m p bs) {b : Block}
    (hb : b ∈ bs) :
  b.addr ≠ 0 ∧ magic m b.addr = HEAP_MAGIC ∧ header m b.addr = b
  := by
  induction h with
  | nil => cases hb
  | cons hne hmagic _ ih =>
      rcases List.mem_cons.mp hb with rfl | hb
      · exact ⟨hne, hmagic, rfl⟩
      · apply ih hb

/-- When each header changes from that of `b` to that of `g b`, and only in `is_free` and
`size`, the list changes by `g`. -/
theorem HeaderList.map {m m' : Memory} {p : ℕ} {bs : List Block} {g : Block → Block}
    (h : HeaderList m p bs) (haddr : ∀ b ∈ bs, (g b).addr = b.addr)
    (hg : ∀ b ∈ bs, header m' b.addr = g b ∧ magic m' b.addr = magic m b.addr ∧
      next m' b.addr = next m b.addr) :
  HeaderList m' p (bs.map g)
  := by
  induction bs generalizing p with
  | nil =>
      obtain rfl := h.pointer
      apply HeaderList.nil
  | cons b bs ih =>
      obtain ⟨rfl, hne, hmagic, -, hrest⟩ := HeaderList.cons_iff.mp h
      obtain ⟨hheader, hmagic', hnext⟩ := hg b List.mem_cons_self
      rw [List.map_cons]
      apply HeaderList.cons_iff.mpr
      rw [haddr b List.mem_cons_self]
      use rfl, hne, hmagic'.trans hmagic, hheader
      rw [hnext]
      apply ih hrest
      · intro c hc
        apply haddr c (List.mem_cons_of_mem _ hc)
      · intro c hc
        apply hg c (List.mem_cons_of_mem _ hc)

theorem HeaderList.congr {m m' : Memory} {p : ℕ} {bs : List Block} (h : HeaderList m p bs)
    (hag : ∀ b ∈ bs, Memory.AgreeOn b.addr (b.addr + headerSize) m m') :
  HeaderList m' p bs
  := by
  rw [← List.map_id bs]
  apply h.map (fun _ _ => rfl)
  intro b hb
  obtain ⟨hheader, hrest⟩ := header_congr (hag b hb)
  exact ⟨hheader.trans (h.mem hb).2.2, hrest⟩

/-- A byte outside all headers may change. -/
theorem HeaderList.set {m : Memory} {p x : ℕ} {bs : List Block} (h : HeaderList m p bs) (v : Byte)
    (hx : ∀ b ∈ bs, x < b.addr ∨ b.addr + headerSize ≤ x) :
  HeaderList (m.set x v) p bs
  := by
  apply h.congr
  intro b hb y hlow hhigh
  apply Memory.set_of_ne
  rintro rfl
  have := hx b hb
  omega

/-! ### Allocation -/

/-- Whether a block is split, without overflow. -/
theorem take_eq {m : Memory} {a sz : ℕ} (hwrap : sz + headerSize + slack < 2 ^ 64) :
  kmalloc.take m a sz =
    if sz + headerSize + slack < size m a then setIsFree (kmalloc.split m a sz) a 0
    else setIsFree m a 0
  := by
  rw [slack] at hwrap
  rw [kmalloc.take, slack, u64_of_lt (n := sz + headerSize) (by omega), u64_of_lt hwrap]
  split_ifs <;> rfl

/-- What `kmalloc.split` writes, it writes into the two headers. -/
theorem split_outside (m : Memory) {a sz x : ℕ} (hwrap : a + headerSize + sz < 2 ^ 64)
    (hx : x < a ∨ a + headerSize ≤ x)
    (hy : x < a + headerSize + sz ∨ a + headerSize + sz + headerSize ≤ x) :
  kmalloc.split m a sz x = m x
  := by
  rw [kmalloc.split, u64_of_lt hwrap]
  simp only [headerSize] at hx hy
  simp only [setMagic, setIsFree, setSize, setNext, headerSize]
  repeat rw [Memory.store_outside _ _ (by omega)]

/-- What `kmalloc.take` writes, it writes into the block. -/
theorem take_outside {m : Memory} {a sz x : ℕ} (hstop : a + headerSize + size m a < 2 ^ 64)
    (hsz : sz ≤ size m a) (hwrap : sz + headerSize + slack < 2 ^ 64)
    (hx : x < a ∨ a + headerSize + size m a ≤ x) :
  kmalloc.take m a sz x = m x
  := by
  have hflag : setIsFree m a 0 x = m x := by
    rw [headerSize] at hx
    rw [setIsFree, Memory.store_outside _ _ (by omega)]
  rw [take_eq hwrap]
  split_ifs with hcond
  · have hsplit : kmalloc.split m a sz x = m x :=
      split_outside m (by omega) (by omega) (by omega)
    rw [headerSize] at hx
    rw [setIsFree, Memory.store_outside _ _ (by omega), hsplit]
  · apply hflag

/-- The header at `a` and the one that follows it after a split. -/
theorem split_headers {m : Memory} {a : ℕ} (sz : ℕ) (hwrap : a + headerSize + size m a < 2 ^ 64)
    (hcond : sz + headerSize ≤ size m a) (hmagic : magic m a = HEAP_MAGIC) :
  let m' := setIsFree (kmalloc.split m a sz) a 0
  let r := a + headerSize + sz
  (header m' a = ⟨a, sz, false⟩ ∧ magic m' a = HEAP_MAGIC ∧ next m' a = r) ∧
    header m' r = ⟨r, size m a - sz - headerSize, true⟩ ∧ magic m' r = HEAP_MAGIC ∧
    next m' r = next m a
  := by
  have hnext := Memory.load_lt m (a + 16) 8
  have hlt : sz < 2 ^ 64 := by omega
  have hr : u64 (a + headerSize + sz) = a + headerSize + sz := u64_of_lt (by omega)
  have hrest : sub64 (sub64 (size m a) sz) headerSize = size m a - sz - headerSize := by
    have hle : sz ≤ size m a := by omega
    rw [sub64_of_le hle (by omega), sub64_of_le (by omega) (by omega)]
  have hrlt : size m a - sz - headerSize < 2 ^ 64 := by omega
  have hwrap' : a + headerSize + sz < 2 ^ 64 := by omega
  simp only [kmalloc.split, hr, headerSize] at *
  simp (disch := omega) only [header, setMagic, setIsFree, setSize, setNext, magic, is_free, size,
    next, Memory.load_store, Memory.load_store_disjoint, HEAP_MAGIC] at *
  have hmod : ∀ {v : ℕ}, v < 2 ^ 64 → v % 256 ^ 8 = v := fun h => Nat.mod_eq_of_lt h
  rw [hrest, hmagic, hmod hlt, hmod hwrap', hmod hrlt, hmod hnext]
  simp

/-- The header at `a` after `is_free` is set to 0 or 1. -/
theorem setIsFree_header {m : Memory} {a v : ℕ} (hv : v < 256) :
  header (setIsFree m a v) a = ⟨a, size m a, v != 0⟩ ∧
    magic (setIsFree m a v) a = magic m a ∧ next (setIsFree m a v) a = next m a
  := by
  simp (disch := omega) only [header, setIsFree, magic, is_free, size, next, Memory.load_store,
    Memory.load_store_disjoint, Nat.mod_eq_of_lt, and_self]

/-- The memory after a block is handed out holds the blocks it is split into. -/
theorem HeaderList.take {m : Memory} {p a e sz : ℕ} {b : Block} {bs : List Block}
    (h : HeaderList m p (b :: bs)) (ht : Tiles headerSize a (b :: bs) e) (he : e < 2 ^ 64)
    (hsz : sz ≤ b.size) (hwrap : sz + headerSize + slack < 2 ^ 64) :
  HeaderList (kmalloc.take m b.addr sz) p (split headerSize slack b sz ++ bs)
  := by
  obtain ⟨rfl, hne, hmagic, hheader, hrest⟩ := HeaderList.cons_iff.mp h
  have hsize : size m b.addr = b.size := size_of_header hheader
  have hstop : b.addr + headerSize + size m b.addr < 2 ^ 64 := by
    have := (ht.bounds List.mem_cons_self).2
    rw [Block.stop] at this
    omega
  have hrest' : HeaderList (kmalloc.take m b.addr sz) (next m b.addr) bs := by
    apply hrest.congr
    intro c hc x hlo _
    have hlow := (ht.2.bounds hc).1
    rw [Block.stop] at hlow
    apply take_outside hstop (by omega) hwrap (by omega)
  rw [split]
  split_ifs with hcond
  · have hm : kmalloc.take m b.addr sz = setIsFree (kmalloc.split m b.addr sz) b.addr 0 := by
      rw [take_eq hwrap, hsize, if_pos hcond]
    obtain ⟨⟨hb, hmb, hnextb⟩, hr, hmr, hnextr⟩ :=
      split_headers sz hstop (by omega) hmagic
    rw [← hm] at hb hmb hnextb hr hmr hnextr
    apply HeaderList.cons_iff.mpr
    use rfl, hne, hmb, hb
    dsimp only
    rw [hnextb]
    apply HeaderList.cons_iff.mpr
    rw [← hsize]
    use rfl, by simp [hne], hmr, hr
    dsimp only
    rw [hnextr]
    apply hrest'
  · have hm : kmalloc.take m b.addr sz = setIsFree m b.addr 0 := by
      rw [take_eq hwrap, hsize, if_neg hcond]
    obtain ⟨hb, hmb, hnextb⟩ := setIsFree_header (m := m) (a := b.addr) (v := 0) (by omega)
    rw [← hm] at hb hmb hnextb
    apply HeaderList.cons_iff.mpr
    use rfl, hne, hmb.trans hmagic, by rw [hb, hsize]; rfl
    dsimp only
    rw [hnextb]
    apply hrest'

/-- While no block fits, the walk passes over the list. -/
theorem kmalloc_walk_none {m : Memory} {p sz : ℕ} {bs : List Block} (h : HeaderList m p bs)
    (halloc : alloc headerSize slack sz bs = none) :
  Loop.Returns (kmalloc.visit m sz) p (0, m)
  := by
  induction bs generalizing p with
  | nil =>
      obtain rfl := h.pointer
      apply Loop.Returns.stop
      rfl
  | cons b bs ih =>
      obtain ⟨rfl, hne, -, hb, hrest⟩ := HeaderList.cons_iff.mp h
      by_cases hfit : b.free ∧ sz ≤ b.size
      · rw [alloc_cons_fit _ hfit] at halloc
        cases halloc
      · rw [alloc_cons_skip _ hfit, Option.map_eq_none_iff] at halloc
        have hvisit : kmalloc.visit m sz b.addr = .inl (next m b.addr) := by
          rw [kmalloc.visit, if_neg hne, if_neg]
          rw [← hb] at hfit
          simpa [header] using hfit
        apply Loop.Returns.step hvisit (ih hrest halloc)

/-- The walk stops at the first block that fits, and the memory holds the list with that
block handed out. -/
theorem kmalloc_walk_some {m : Memory} {e sz : ℕ} {b : Block} {bs bs' : List Block}
    (halloc : alloc headerSize slack sz bs = some (b, bs')) (he : e < 2 ^ 64)
    (hwrap : sz + headerSize + slack < 2 ^ 64) (p a : ℕ) (h : HeaderList m p bs)
    (ht : Tiles headerSize a bs e) :
  Loop.Returns (kmalloc.visit m sz) p (b.payload headerSize, kmalloc.take m b.addr sz) ∧
    HeaderList (kmalloc.take m b.addr sz) p bs'
  := by
  revert p a
  apply alloc_induction (motive := fun bs b bs' => ∀ p a, HeaderList m p bs →
    Tiles headerSize a bs e →
    Loop.Returns (kmalloc.visit m sz) p (b.payload headerSize, kmalloc.take m b.addr sz) ∧
      HeaderList (kmalloc.take m b.addr sz) p bs') _ _ halloc
  · intro b bs hfree hsize p a h ht
    obtain ⟨rfl, hne, -, hb, -⟩ := HeaderList.cons_iff.mp h
    constructor
    · apply Loop.Returns.stop
      have hstop := (ht.bounds List.mem_cons_self).2
      rw [Block.stop] at hstop
      have hfit : is_free m b.addr ≠ 0 ∧ sz ≤ size m b.addr := by
        rw [← hb] at hfree hsize
        simpa [header] using And.intro hfree hsize
      rw [kmalloc.visit, if_neg hne, if_pos hfit, Block.payload, u64_of_lt (by omega)]
    · apply h.take ht he hsize hwrap
  · intro d bs b bs' hskip halloc ih p a h ht
    obtain ⟨rfl, hne, hmagic, hd, hrest⟩ := HeaderList.cons_iff.mp h
    obtain ⟨hret, hlist⟩ := ih _ _ hrest ht.2
    constructor
    · have hvisit : kmalloc.visit m sz d.addr = .inl (next m d.addr) := by
        rw [kmalloc.visit, if_neg hne, if_neg]
        rw [← hd] at hskip
        simpa [header] using hskip
      apply Loop.Returns.step hvisit hret
    · -- The block handed out lies past the header of `d`.
      obtain ⟨hmem, -, hsize⟩ := alloc_mem halloc
      have hbsize : size m b.addr = b.size := size_of_header (hrest.mem hmem).2.2
      have hstop := (ht.2.bounds hmem).2
      have hlow := (ht.2.bounds hmem).1
      rw [Block.stop] at hstop hlow
      have hag : Memory.AgreeOn d.addr (d.addr + headerSize) m (kmalloc.take m b.addr sz) := by
        intro x _ hx
        apply take_outside (by omega) (by omega) hwrap (by omega)
      obtain ⟨hheader, hmagic', hnext⟩ := header_congr hag
      apply HeaderList.cons_iff.mpr
      use rfl, hne, hmagic'.trans hmagic, hheader.trans hd
      rw [hnext]
      apply hlist

/-- What `kmalloc` does is what the first-fit allocator does with the blocks; it writes into
the block it hands out only. -/
theorem HeaderList.kmalloc_cases {m : Memory} {a e sz : ℕ} {bs : List Block}
    (h : HeaderList m a bs) (ht : Tiles headerSize a bs e) (he : e < 2 ^ 64)
    (hwrap : ∀ b ∈ bs, sz ≤ b.size → sz + headerSize + slack < 2 ^ 64) :
  (alloc headerSize slack sz bs = none ∧ Loop.Returns (kmalloc.visit m sz) a (0, m)) ∨
  ∃ b bs' m', alloc headerSize slack sz bs = some (b, bs') ∧
    Loop.Returns (kmalloc.visit m sz) a (b.payload headerSize, m') ∧
    HeaderList m' a bs' ∧ ∀ x, x < b.addr ∨ b.stop headerSize ≤ x → m' x = m x
  := by
  cases halloc : alloc headerSize slack sz bs with
  | none =>
      left
      exact ⟨rfl, kmalloc_walk_none h halloc⟩
  | some r =>
      right
      obtain ⟨hmem, -, hle⟩ := alloc_mem halloc
      obtain ⟨hret, hlist⟩ := kmalloc_walk_some halloc he (hwrap _ hmem hle) a a h ht
      refine ⟨r.1, r.2, kmalloc.take m r.1.addr sz, rfl, hret, hlist, ?_⟩
      intro x hx
      have hsize : size m r.1.addr = r.1.size := size_of_header (h.mem hmem).2.2
      have hstop := (ht.bounds hmem).2
      rw [Block.stop] at hstop hx
      apply take_outside
      · omega
      · omega
      · exact hwrap _ hmem hle
      · omega

/-! ### Release -/

/-- Marking the header of one block free releases it. -/
theorem HeaderList.release {m : Memory} {p a e : ℕ} {bs : List Block} {b : Block}
    (h : HeaderList m p bs) (ht : Tiles headerSize a bs e) (hb : b ∈ bs) :
  HeaderList (setIsFree m b.addr 1) p (release headerSize (b.payload headerSize) bs)
  := by
  apply h.map
  · intro c _
    split_ifs <;> rfl
  · intro c hc
    split_ifs with hptr
    · obtain rfl : c = b := by
        apply ht.eq_of_addr (by simp [headerSize]) hc hb
        simpa [Block.payload] using hptr
      obtain ⟨hheader, hrest⟩ := setIsFree_header (m := m) (a := c.addr) (v := 1) (by omega)
      have hsize : size m c.addr = c.size := size_of_header (h.mem hc).2.2
      rw [hheader, hsize]
      exact ⟨rfl, hrest⟩
    · have hag : Memory.AgreeOn c.addr (c.addr + headerSize) m (setIsFree m b.addr 1) := by
        intro x hlo hhi
        apply Memory.store_outside
        rcases ht.disjoint hc hb with rfl | hstop | hstop
        · simp at hptr
        all_goals
          rw [Block.stop] at hstop
          rw [headerSize] at hstop hhi
          omega
      obtain ⟨hheader, hrest⟩ := header_congr hag
      exact ⟨hheader.trans (h.mem hc).2.2, hrest⟩

theorem setNext_setSize_outside (m : Memory) {a x : ℕ} (v w : ℕ) (hx : x < a ∨ a + headerSize ≤ x) :
  setNext (setSize m a v) a w x = m x
  := by
  rw [headerSize] at hx
  rw [setNext, Memory.store_outside _ _ (by omega), setSize, Memory.store_outside _ _ (by omega)]

/-- Joining a block with the one that follows it in the list. -/
theorem HeaderList.join {m : Memory} {p a e : ℕ} {b c : Block} {bs : List Block}
    (h : HeaderList m p (b :: c :: bs)) (ht : Tiles headerSize a (b :: c :: bs) e) (he : e < 2 ^ 64) :
  HeaderList
    (setNext (setSize m b.addr (u64 (size m b.addr + u64 (size m c.addr + headerSize)))) b.addr
      (next m c.addr))
    p ({ b with size := b.size + (c.size + headerSize) } :: bs)
  := by
  obtain ⟨rfl, hne, hmagic, hb, hrest⟩ := HeaderList.cons_iff.mp h
  obtain ⟨-, -, -, hc, hrest⟩ := HeaderList.cons_iff.mp hrest
  have hbsize : size m b.addr = b.size := size_of_header hb
  have hcsize : size m c.addr = c.size := size_of_header hc
  have hstop := (ht.bounds (b := c) (by simp)).2
  have hcaddr := ht.2.1
  have hcnext := Memory.load_lt m (c.addr + 16) 8
  rw [Block.stop] at hstop hcaddr
  rw [hbsize, hcsize, u64_of_lt (n := c.size + headerSize) (by omega), u64_of_lt (by omega)]
  apply HeaderList.cons_iff.mpr
  have hlt : b.size + (c.size + headerSize) < 256 ^ 8 := by
    norm_num
    omega
  simp (disch := omega) only [magic] at hmagic
  have hfree : (is_free m b.addr != 0) = b.free := free_of_header hb
  use rfl, hne
  refine ⟨?_, ?_, ?_⟩
  · simpa (disch := omega) only [setNext, setSize, magic, Memory.load_store_disjoint] using hmagic
  · simp (disch := omega) only [header, is_free, size, setNext, setSize, Memory.load_store,
      Memory.load_store_disjoint, Nat.mod_eq_of_lt hlt] at hfree ⊢
    rw [hfree]
  · have hn : next (setNext (setSize m b.addr (b.size + (c.size + headerSize))) b.addr
        (next m c.addr)) b.addr = next m c.addr := by
      rw [setNext, next, Memory.load_store, next, Nat.mod_eq_of_lt hcnext]
    rw [hn]
    apply hrest.congr
    intro d hd x hlo _
    have hlow := (ht.2.2.bounds hd).1
    rw [Block.stop] at hlow
    apply setNext_setSize_outside
    omega

/-- A round at two free blocks joins them and stays at the first; otherwise it goes on to the
second. -/
theorem HeaderList.merge_round {m : Memory} {p a e : ℕ} {b c : Block} {bs : List Block}
    (h : HeaderList m p (b :: c :: bs)) (ht : Tiles headerSize a (b :: c :: bs) e) :
  kfree.merge (b.addr, m) =
    if b.free ∧ c.free then
      .inl (b.addr,
        setNext (setSize m b.addr (u64 (size m b.addr + u64 (size m c.addr + headerSize)))) b.addr
          (next m c.addr))
    else .inl (c.addr, m)
  := by
  obtain ⟨-, hne, -, hb, hrest⟩ := HeaderList.cons_iff.mp h
  obtain ⟨hnext, hcne, -, hc, -⟩ := HeaderList.cons_iff.mp hrest
  have hbfree : is_free m b.addr ≠ 0 ↔ b.free := by
    rw [← free_of_header hb]
    simp
  have hcfree : is_free m c.addr ≠ 0 ↔ c.free := by
    rw [← free_of_header hc]
    simp
  have hgo : ¬ (b.addr = 0 ∨ next m b.addr = 0) := by
    rw [hnext]
    apply not_or.mpr ⟨hne, hcne⟩
  -- The size stored does not change the link of either block.
  have hkeep : ∀ v, next (setSize m b.addr v) b.addr = c.addr ∧
      next (setSize m b.addr v) c.addr = next m c.addr := by
    intro v
    have hlow := ht.2.1
    rw [Block.stop, headerSize] at hlow
    rw [← hnext, next, next, next, setSize, Memory.load_store_disjoint _ _ (by omega),
      ← next, hnext, Memory.load_store_disjoint _ _ (by omega)]
    exact ⟨rfl, rfl⟩
  rw [kfree.merge, if_neg hgo]
  dsimp only
  rw [hnext, (hkeep _).1, (hkeep _).2]
  simp only [hbfree, hcfree]

/-- The merge pass coalesces the list.  It writes to the headers of free blocks only. -/
theorem kfree_merge {m : Memory} {a e : ℕ} {b : Block} {bs : List Block}
    (h : HeaderList m b.addr (b :: bs)) (ht : Tiles headerSize a (b :: bs) e) (he : e < 2 ^ 64) :
  ∃ m', Loop.Returns kfree.merge (b.addr, m) m' ∧
    HeaderList m' b.addr (coalesceFrom headerSize b bs) ∧
    ∀ x, (∀ d ∈ b :: bs, d.free → x < d.addr ∨ d.addr + headerSize ≤ x) → m' x = m x
  := by
  induction bs generalizing m a b with
  | nil =>
      obtain ⟨-, hne, hmagic, hb, hrest⟩ := HeaderList.cons_iff.mp h
      use m
      constructor
      · apply Loop.Returns.stop
        rw [kfree.merge, if_pos]
        right
        apply hrest.pointer
      · use h
        intro x _
        rfl
  | cons c cs ih =>
      obtain ⟨-, hne, hmagic, hb, hrest⟩ := HeaderList.cons_iff.mp h
      have hnext := (HeaderList.cons_iff.mp hrest).1
      have hround := h.merge_round ht
      rw [coalesceFrom]
      split_ifs at hround ⊢ with hfree
      · -- Both are free: the round joins them and stays at `b`.
        obtain ⟨m', hret, hlist, hframe⟩ := ih (h.join ht he) ht.join
        refine ⟨m', Loop.Returns.step hround hret, hlist, ?_⟩
        intro x hx
        have hb' : x < b.addr ∨ b.addr + headerSize ≤ x := hx b (by simp) hfree.1
        rw [hframe, setNext_setSize_outside _ _ _ hb']
        intro d hd hdfree
        rcases List.mem_cons.mp hd with rfl | hd
        · apply hb'
        · apply hx d (by simp [hd]) hdfree
      · -- One of them is in use: the walk goes on from `c`.
        obtain ⟨m', hret, hlist, hframe⟩ := ih (hnext ▸ hrest) ht.2
        have hkeep : Memory.AgreeOn b.addr (b.addr + headerSize) m m' := by
          intro x hlo hhi
          apply hframe
          intro d hd _
          have hlow := (ht.2.bounds hd).1
          rw [Block.stop] at hlow
          omega
        obtain ⟨hb', hmagic', hnext'⟩ := header_congr hkeep
        refine ⟨m', Loop.Returns.step hround hret, ?_, ?_⟩
        · apply HeaderList.cons_iff.mpr
          use rfl, hne, hmagic'.trans hmagic, hb'.trans hb
          rw [hnext', hnext]
          apply hlist
        · intro x hx
          apply hframe
          intro d hd
          apply hx d (List.mem_cons_of_mem _ hd)

/-- Freeing the payload of a block releases it and coalesces; headers only are written. -/
theorem HeaderList.kfree_returns {m : Memory} {a e : ℕ} {b : Block} {bs : List Block}
    (h : HeaderList m a bs) (ht : Tiles headerSize a bs e) (he : e < 2 ^ 64) (hb : b ∈ bs) :
  ∃ m', (∀ n, kfree n m a (b.payload headerSize) =
      Loop.iterate kfree.merge n (a, setIsFree m (sub64 (b.payload headerSize) headerSize) 1)) ∧
    Loop.Returns kfree.merge (a, setIsFree m (sub64 (b.payload headerSize) headerSize) 1) m' ∧
    HeaderList m' a (coalesce headerSize (FirstFit.release headerSize (b.payload headerSize) bs)) ∧
    ∀ x, (∀ c ∈ bs, x < c.addr ∨ c.addr + headerSize ≤ x) → m' x = m x
  := by
  have hstop := (ht.bounds hb).2
  rw [Block.stop] at hstop
  have hheader : sub64 (b.payload headerSize) headerSize = b.addr := by
    rw [Block.payload, sub64_of_le (by omega) (by omega), Nat.add_sub_cancel]
  rw [hheader]
  have hlist := h.release ht hb
  have htiles := release_tiles (b.payload headerSize) ht
  cases hrel : FirstFit.release headerSize (b.payload headerSize) bs with
  | nil =>
      rw [FirstFit.release, List.map_eq_nil_iff] at hrel
      simp [hrel] at hb
  | cons c cs =>
      rw [hrel] at hlist htiles
      obtain rfl := htiles.1
      obtain ⟨m', hret, hm, hframe⟩ := kfree_merge hlist htiles he
      use m'
      constructor
      · intro n
        rw [kfree, if_neg, hheader, if_neg]
        · simp [(h.mem hb).2.1]
        · simp [Block.payload, headerSize]
      · refine ⟨hret, hm, ?_⟩
        intro x hx
        rw [hframe]
        · have hout := hx b hb
          rw [headerSize] at hout
          rw [setIsFree, Memory.store_outside _ _ (by omega)]
        · intro d hd _
          rw [← hrel] at hd
          obtain ⟨d', hd', haddr⟩ := mem_release hd
          rw [← haddr]
          apply hx d' hd'

/-- The merge pass writes nothing when the flags and links are those of a list without
neighbouring free blocks. -/
theorem kfree_merge_quiet {m m' : Memory} {p : ℕ} {bs : List Block} (h : HeaderList m p bs)
    (hn : NoAdjacentFree bs) (hfree : ∀ b ∈ bs, is_free m' b.addr ≠ 0 ↔ b.free)
    (hnext : ∀ b ∈ bs, next m' b.addr = next m b.addr) :
  Loop.Returns kfree.merge (p, m') m'
  := by
  induction bs generalizing p with
  | nil =>
      have hp : p = 0 := h.pointer
      apply Loop.Returns.stop
      rw [kfree.merge, if_pos (Or.inl hp)]
  | cons b bs ih =>
      obtain ⟨rfl, hne, -, -, hrest⟩ := HeaderList.cons_iff.mp h
      have hb := hnext b List.mem_cons_self
      rw [← hb] at hrest
      cases bs with
      | nil =>
          have hlast : next m' b.addr = 0 := hrest.pointer
          apply Loop.Returns.stop
          rw [kfree.merge, if_pos (Or.inr hlast)]
      | cons c cs =>
          obtain ⟨hbc, htail⟩ := List.isChain_cons_cons.mp hn
          obtain ⟨hcaddr, hcne, -⟩ := HeaderList.cons_iff.mp hrest
          have hgo : ¬ (b.addr = 0 ∨ next m' b.addr = 0) := by
            rw [hcaddr]
            exact not_or.mpr ⟨hne, hcne⟩
          have hboth : ¬ (is_free m' b.addr ≠ 0 ∧ is_free m' (next m' b.addr) ≠ 0) := by
            rw [hcaddr, hfree b List.mem_cons_self, hfree c (by simp)]
            exact hbc
          have hskip : kfree.merge (b.addr, m') = .inl (next m' b.addr, m') := by
            rw [kfree.merge, if_neg hgo, if_neg hboth]
          apply Loop.Returns.step hskip
          apply ih hrest htail
          · intro d hd
            exact hfree d (List.mem_cons_of_mem b hd)
          · intro d hd
            exact hnext d (List.mem_cons_of_mem b hd)

end Heap
