import LySystem.Gpu.Writes
import LySystem.Machine.Pointer

/-!
# What the decoder reads

`bmp_parse` does not look at the size of its data.  The reads are inside the array exactly when it
holds the headers that are looked at, and, once the pixels are allocated, all rows from `bfOffBits`
on.
-/

namespace Bmp

open Heap Transition

/-- The bytes read are among the `size` bytes from `start` on. -/
def Access.Within (start size : ℕ) : Access → Prop
  | data addr n => start ≤ addr ∧ addr + n ≤ start + size
  | record _ _ => True
  | pixel _ => True

def Touched.ReadsInside (t : Touched) (start size : ℕ) : Prop :=
  ∀ a ∈ t.accesses, a.Within start size

/-- An array of `size` bytes that the allocator does not give to others; where `NULL` points to
there is none. -/
structure IsArray (lo hi : ℕ) (state : State) (data size : ℕ) : Prop where
  end_le : data + size ≤ 2 ^ 64
  low : data ≠ 0 → imageSize ≤ data
  safe : ∀ i < size, state.Safe lo hi (data + i)

variable {lo hi n img buffer width height target_y bpp padding x y data size p d : ℕ} {up : Bool}
  {s : Memory × ℕ} {m m₁ m₂ : Memory}

/-! ### The walk through the pixels -/

theorem pixel_pointer (hbpp : bpp = 3 ∨ bpp = 4) (hs : s.2 = u64 p) :
  (bmp_parse.pixel img width target_y bpp s x).2 = u64 (p + bpp)
  := by
  rw [bmp_parse.pixel]
  dsimp only
  rw [hs]
  rcases hbpp with rfl | rfl
  · rw [if_neg (by decide), Memory.u64_add_u64]
  · rw [if_pos rfl, Memory.u64_add_u64, Nat.add_assoc, Memory.u64_add_u64]

theorem pixel_within_iff (hbpp : bpp = 3 ∨ bpp = 4) (hs : s.2 = u64 p) :
  (∀ a ∈ bmp_parse.pixel.accesses img width target_y bpp s x, a.Within data size) ↔
    ∀ j < bpp, (Access.data (u64 (p + j)) 1).Within data size
  := by
  rw [bmp_parse.pixel.accesses]
  simp only [hs, Memory.u64_add_u64]
  rcases hbpp with rfl | rfl
  · rw [if_neg (by decide)]
    simp only [List.append_nil, List.forall_mem_append, List.forall_mem_cons, List.not_mem_nil,
      false_imp_iff, implies_true, Nat.forall_lt_succ_right, Nat.not_lt_zero, Access.Within,
      and_assoc, and_true, true_and, Nat.add_zero]
  · rw [if_pos rfl]
    simp only [List.forall_mem_append, List.forall_mem_cons, List.not_mem_nil, false_imp_iff,
      implies_true, Nat.forall_lt_succ_right, Nat.not_lt_zero, Access.Within, and_assoc, and_true,
      true_and, Nat.add_zero]

theorem row_pointer (hbpp : bpp = 3 ∨ bpp = 4) (hs : s.2 = u64 p) :
  (bmp_parse.row img width height bpp padding up s y).2 = u64 (p + (width * bpp + padding))
  := by
  have hpixels := Loop.foldl_range (I := fun x (t : Memory × ℕ) => t.2 = u64 (p + x * bpp))
    (f := bmp_parse.pixel img width (targetRow up height y) bpp) (n := width) (s := s)
    (by rw [Nat.zero_mul]; exact hs) fun x _ t ht => by
      rw [pixel_pointer hbpp ht, Nat.succ_mul, Nat.add_assoc]
  rw [bmp_parse.row]
  dsimp only
  rw [hpixels, Memory.u64_add_u64, Nat.add_assoc]

theorem row_within_iff (hbpp : bpp = 3 ∨ bpp = 4) (hs : s.2 = u64 p) :
  (∀ a ∈ bmp_parse.row.accesses img width height bpp up s y, a.Within data size) ↔
    ∀ x < width, ∀ j < bpp, (Access.data (u64 (p + x * bpp + j)) 1).Within data size
  := by
  apply (Loop.forall_mem_trace (I := fun x (t : Memory × ℕ) => t.2 = u64 (p + x * bpp)) _ _ _).1
  · intro x _ t ht
    exact pixel_within_iff hbpp ht
  · intro x _ t ht _
    rw [pixel_pointer hbpp ht, Nat.succ_mul, Nat.add_assoc]
  · rw [Nat.zero_mul]
    exact hs

/-- The bytes that are read, counted from the beginning of the pixels. -/
theorem rows_within_iff (hbpp : bpp = 3 ∨ bpp = 4) (hs : s.2 = u64 p) :
  (∀ a ∈ bmp_parse.rows.accesses img width height bpp padding up s, a.Within data size) ↔
    ∀ y < height, ∀ x < width, ∀ j < bpp,
      (Access.data (u64 (p + y * (width * bpp + padding) + x * bpp + j)) 1).Within data size
  := by
  apply (Loop.forall_mem_trace
    (I := fun y (t : Memory × ℕ) => t.2 = u64 (p + y * (width * bpp + padding))) _ _ _).1
  · intro y _ t ht
    exact row_within_iff hbpp ht
  · intro y _ t ht _
    rw [row_pointer hbpp ht, Nat.succ_mul, Nat.add_assoc]
  · rw [Nat.zero_mul]
    exact hs

/-- A byte behind the beginning of the array is in it when its offset is below the size. -/
theorem byte_within_iff (hend : data + size ≤ 2 ^ 64) (hd : d < 2 ^ 64) :
  (Access.data (u64 (data + d)) 1).Within data size ↔ d < size
  := by
  rw [Access.Within, u64]
  omega

/-- All bytes of all rows are in the array exactly when the last one is; on the way there no more
than three bytes are left out. -/
theorem rows_inside_iff {off pad : ℕ} (hend : data + size ≤ 2 ^ 64) (hlow : 4 ≤ data)
    (hoff : off < 2 ^ 32) (hbpp : 0 < bpp) (hpad : pad ≤ 3) :
  (∀ y < height, ∀ x < width, ∀ j < bpp,
    (Access.data (u64 (data + off + y * (width * bpp + pad) + x * bpp + j)) 1).Within data size) ↔
    width = 0 ∨ height = 0 ∨ off + ((height - 1) * (width * bpp + pad) + width * bpp) ≤ size
  := by
  have hbyte : ∀ y x j, off + y * (width * bpp + pad) + x * bpp + j < 2 ^ 64 →
      ((Access.data (u64 (data + off + y * (width * bpp + pad) + x * bpp + j)) 1).Within data size ↔
        off + y * (width * bpp + pad) + x * bpp + j < size) := by
    intro y x j hlt
    rw [← byte_within_iff hend hlt]
    simp only [Nat.add_assoc]
  constructor
  · intro hall
    by_contra hout
    push Not at hout
    obtain ⟨hwidth, hheight, hlong⟩ := hout
    obtain ⟨h, rfl⟩ := Nat.exists_eq_succ_of_ne_zero hheight
    rw [Nat.succ_sub_one] at hlong
    by_cases hstart : size ≤ off
    · have hfirst := (hbyte 0 0 0 (by omega)).mp (hall 0 (by omega) 0 (by omega) 0 hbpp)
      omega
    -- The place in the rows where the array ends.
    obtain ⟨t, rfl⟩ := Nat.exists_eq_add_of_le (Nat.le_of_not_le hstart)
    have hstride : 0 < width * bpp + pad :=
      Nat.add_pos_left (Nat.mul_pos (Nat.pos_of_ne_zero hwidth) hbpp) pad
    have hdiv := Nat.div_add_mod' t (width * bpp + pad)
    have hmod := Nat.mod_lt t hstride
    generalize t / (width * bpp + pad) = y at hdiv
    generalize t % (width * bpp + pad) = r at hdiv hmod
    by_cases hin : r < width * bpp
    · -- It is a byte of a row.
      have hy : y < h + 1 := by
        by_contra hge
        have := Nat.mul_le_mul_right (width * bpp + pad) (Nat.le_of_not_lt hge)
        rw [Nat.succ_mul] at this
        omega
      have hpixel := Nat.div_add_mod' r bpp
      have hx : r / bpp < width := (Nat.div_lt_iff_lt_mul hbpp).mpr hin
      have hend' := (hbyte y (r / bpp) (r % bpp) (by omega)).mp
        (hall y hy _ hx _ (Nat.mod_lt r hbpp))
      omega
    · -- It fills up a row, and the next row begins behind the end.
      have hy : y + 1 < h + 1 := by
        by_contra hge
        have := Nat.mul_le_mul_right (width * bpp + pad) (show h ≤ y by omega)
        omega
      have hnext : (y + 1) * (width * bpp + pad) = _ := Nat.succ_mul y (width * bpp + pad)
      have hend' := (hbyte (y + 1) 0 0 (by omega)).mp
        (hall (y + 1) hy 0 (Nat.pos_of_ne_zero hwidth) 0 hbpp)
      omega
  · rintro hfits y hy x hx j hj
    have hrow := Nat.mul_le_mul_right (width * bpp + pad) (Nat.le_sub_one_of_lt hy)
    have hcell := Nat.mul_le_mul_right bpp (Nat.succ_le_of_lt hx)
    rw [Nat.succ_mul] at hcell
    apply (hbyte y x j (by omega)).mpr
    omega

/-! ### The headers -/

theorem header_within_iff {k : ℕ} (hend : data + size ≤ 2 ^ 64) (hk : k ≤ 16) (hn : 0 < n)
    (hn' : n ≤ 4) :
  (Access.data (u64 (data + 14) + k) n).Within data size ↔ 14 + k + n ≤ size
  := by
  rw [Access.Within, u64]
  omega

/-- The heap stays well formed when the record is written, also where `NULL` points to, and the
bytes that were safe are no part of the record. -/
theorem record_holds {state : State} {bs : List FirstFit.Block} (h : Holds 1 lo hi state bs)
    (hlt : hi < 2 ^ 64) (hlow : imageSize ≤ lo)
    (himg : Heap.kmalloc n state.mem lo imageSize = some (img, m₁)) (width height : ℕ) :
  ∃ t : State, t.mem = setHeight (setWidth m₁ img width) img height ∧
    (∃ bs', Holds 1 lo hi t bs') ∧ ∀ x, state.Safe lo hi x → imageSize ≤ x →
      (x < img ∨ img + imageSize ≤ x) ∧ t.mem x = state.mem x ∧ t.Safe lo hi x
  := by
  obtain ⟨t₁, rfl, ⟨bs₁, h₁⟩, hlive₁, hkept₁⟩ := h.kmalloc_kept (one_dvd 8) hlt (by decide) himg
  have hrecord : ∀ y, y < img ∨ img + imageSize ≤ y →
      setHeight (setWidth t₁.mem img width) img height y = t₁.mem y :=
    fun y hy => setHeight_outside hy
  refine ⟨⟨setHeight (setWidth t₁.mem img width) img height, t₁.live⟩, rfl, ⟨bs₁, ?_⟩, ?_⟩
  · by_cases hnull : img = 0
    · apply h₁.writes_outside
      intro y hy _
      apply hrecord
      omega
    · exact h₁.stores (hlive₁ hnull) hrecord
  · intro x hsafe hx
    obtain ⟨hapart, hmem, hsafe₁⟩ := hkept₁ x hsafe
    have hside : x < img ∨ img + imageSize ≤ x := by
      by_cases hnull : img = 0
      · right
        omega
      · exact hapart hnull
    exact ⟨hside, (hrecord x hside).trans hmem, hsafe₁⟩

/-- The allocations leave the array as it is. -/
theorem array_kept {state : State} {bs : List FirstFit.Block} (h : Holds 1 lo hi state bs)
    (hlt : hi < 2 ^ 64) (hlow : imageSize ≤ lo) {bytes : ℕ} (hbytes : bytes < 2 ^ 32)
    (himg : Heap.kmalloc n state.mem lo imageSize = some (img, m₁))
    (hbuf : Heap.kmalloc n (setHeight (setWidth m₁ img width) img height) lo bytes =
      some (buffer, m₂)) (hsafe : state.Safe lo hi x) (hx : imageSize ≤ x) :
  setPixels m₂ img buffer x = state.mem x
  := by
  obtain ⟨t, hmem, ⟨bs', h'⟩, hkept⟩ := record_holds h hlt hlow himg width height
  rw [← hmem] at hbuf
  obtain ⟨t₂, rfl, -, -, hkept₂⟩ := h'.kmalloc_kept (one_dvd 8) hlt hbytes hbuf
  obtain ⟨hside, hbyte, hsafe'⟩ := hkept x hsafe hx
  rw [setPixels, Memory.store_outside, (hkept₂ x hsafe').2.1, hbyte]
  rw [imageSize] at hside
  omega

/-- The allocations return. -/
theorem create_returns {state : State} {infoHeader pixel_data : ℕ}
    (h : lo ≠ 0 → ∃ bs, Holds 1 lo hi state bs) (hlt : hi < 2 ^ 64)
    (hlow : lo ≠ 0 → imageSize ≤ lo) :
  ∃ k t, bmp_parse.create.touched k lo state.mem infoHeader width height up pixel_data = some t
  := by
  by_cases hmapped : lo = 0
  · subst hmapped
    exact ⟨1, _, rfl⟩
  obtain ⟨bs, hbs⟩ := h hmapped
  obtain ⟨k₁, ⟨img, m₁⟩, himg⟩ := (hbs.returns hlt).1 imageSize (by decide)
  obtain ⟨t₁, hmem, ⟨bs₁, h₁⟩, -⟩ := record_holds hbs hlt (hlow hmapped) himg width height
  obtain ⟨k₂, ⟨buffer, m₂⟩, hbuf⟩ :=
    (h₁.returns hlt).1 (u32 (width * height * 4)) (Nat.mod_lt _ (by decide))
  rw [hmem] at hbuf
  have himg' : Heap.kmalloc (max k₁ k₂) state.mem lo imageSize = some (img, m₁) :=
    Loop.iterate_mono himg (le_max_left ..)
  have hbuf' : Heap.kmalloc (max k₁ k₂) (setHeight (setWidth m₁ img width) img height) lo
      (u32 (width * height * 4)) = some (buffer, m₂) :=
    Loop.iterate_mono hbuf (le_max_right ..)
  use max k₁ k₂
  rw [bmp_parse.create.touched, himg']
  simp only [Option.bind_eq_bind, Option.bind_some, hbuf']
  split_ifs
  · exact ⟨_, rfl⟩
  · exact ⟨_, rfl⟩

/-- In every state of a run of the heap `bmp_parse` comes to the end of its accesses. -/
theorem touched_returns {image : Paging.Image} {vm vm' : Paging.Vm} {heap_start : ℕ}
    (hinit : heap_init n image vm lo hi = some (vm', heap_start)) (hlow : imageSize ≤ lo)
    (hsize : lo + headerSize ≤ hi) (hlt : hi < 2 ^ 64) {ops : List Op} {state : State}
    (hrun : Run (Step heap_start hi) ⟨vm'.mem, fun _ => none⟩ ops state) (data : ℕ) :
  ∃ k t, bmp_parse.touched k heap_start state.mem data = some t
  := by
  have hholds : heap_start ≠ 0 → heap_start = lo ∧ ∃ bs, Holds 1 lo hi state bs := fun hmapped =>
    holds_run hinit hmapped (one_dvd 8) (one_dvd lo) (one_dvd hi) hsize hlt hrun
  have hcreate : ∃ k t, bmp_parse.create.touched k heap_start state.mem (u64 (data + 14))
      (biWidth state.mem (u64 (data + 14)))
      (bmp_parse.height (biHeight state.mem (u64 (data + 14))))
      (decide (0 < biHeight state.mem (u64 (data + 14))))
      (u64 (data + bfOffBits state.mem data)) = some t := by
    apply create_returns _ hlt
    · intro hmapped
      rw [(hholds hmapped).1]
      exact hlow
    · intro hmapped
      obtain ⟨rfl, hbs⟩ := hholds hmapped
      exact hbs
  obtain ⟨k, t, ht⟩ := hcreate
  use k
  rw [bmp_parse.touched]
  split_ifs
  · exact ⟨_, rfl⟩
  · exact ⟨_, rfl⟩
  · exact ⟨_, rfl⟩
  · exact ⟨_, rfl⟩
  · rw [ht]
    exact ⟨_, rfl⟩

theorem IsArray.bits_kept {state : State} (h : IsArray lo hi state data size) (hsize : 34 ≤ size)
    (hdata : data ≠ 0) (hkept : ∀ x, state.Safe lo hi x → imageSize ≤ x → m x = state.mem x) :
  biBitCount m (u64 (data + 14)) = biBitCount state.mem (u64 (data + 14))
  := by
  have hend := h.end_le
  have hlow := h.low hdata
  apply Memory.load_congr
  intro i hi
  rw [u64_of_lt (by omega), show data + 14 + 14 + i = data + (28 + i) by omega]
  apply hkept _ (h.safe _ (by omega))
  omega

/-- Once the headers are read, the reads are inside when the pixels are not allocated, or when all
rows are in the array. -/
theorem create_within_iff {state : State} {off : ℕ} {t : Touched}
    (ht : bmp_parse.create.touched n lo state.mem (u64 (data + 14)) width height up
      (u64 (data + off)) = some t) (h : lo ≠ 0 → ∃ bs, Holds 1 lo hi state bs)
    (hlt : hi < 2 ^ 64) (hlow : lo ≠ 0 → imageSize ≤ lo) (harray : IsArray lo hi state data size)
    (hsize : 34 ≤ size) (hdata : data ≠ 0) (hoff : off < 2 ^ 32)
    (hbpp : biBitCount state.mem (u64 (data + 14)) / 8 = bpp) (hbpp' : bpp = 3 ∨ bpp = 4) :
  t.ReadsInside data size ↔ t.buffer = 0 ∨ width = 0 ∨ height = 0 ∨
    off + ((height - 1) * (width * bpp + (4 - width * bpp % 4) % 4) + width * bpp) ≤ size
  := by
  rw [bmp_parse.create.touched] at ht
  obtain ⟨⟨img, m₁⟩, himg, ht⟩ := Option.bind_eq_some_iff.mp ht
  obtain ⟨⟨buffer, m₂⟩, hbuf, ht⟩ := Option.bind_eq_some_iff.mp ht
  dsimp only at hbuf ht
  have hrecord : ∀ a ∈ ([.record img 4, .record (img + 4) 4, .record (img + 8) 8] : List Access),
      a.Within data size := by
    simp [Access.Within]
  split_ifs at ht with hnull
  · obtain rfl := Option.some.inj ht
    exact iff_of_true hrecord (Or.inl hnull)
  · have hmapped : lo ≠ 0 := by
      rintro rfl
      exact hnull (kmalloc_unmapped hbuf).1
    obtain ⟨bs, hbs⟩ := h hmapped
    have hbytes : u32 (width * height * 4) < 2 ^ 32 := Nat.mod_lt _ (by decide)
    have hbits := harray.bits_kept hsize hdata fun x hsafe hx =>
      array_kept hbs hlt (hlow hmapped) hbytes himg hbuf hsafe hx
    have hpadding : (4 - u32 (width * bpp) % 4) % 4 = (4 - width * bpp % 4) % 4 := by
      rw [u32, Nat.mod_mod_of_dvd _ (by decide)]
    rw [hbits, hbpp, hpadding] at ht
    obtain rfl := Option.some.inj ht
    have hlow' := harray.low hdata
    rw [imageSize] at hlow'
    rw [or_iff_right hnull, ← rows_inside_iff harray.end_le (by omega) hoff (by omega) (by omega),
      ← rows_within_iff (s := (setPixels m₂ img buffer, u64 (data + off))) hbpp' rfl,
      Touched.ReadsInside]
    dsimp only
    rw [List.forall_mem_append, and_iff_right hrecord, List.forall_mem_cons]
    apply and_iff_right
    rw [header_within_iff harray.end_le (by decide) (by decide) (by decide)]
    omega

theorem type_within_iff :
  (Access.data data 2).Within data size ↔ 2 ≤ size
  := by
  rw [Access.Within]
  omega

/-- When the headers are not accepted, only those looked at have to be in the array. -/
theorem rejected_within_iff {k lo : ℕ} {t : Touched} (hend : data + size ≤ 2 ^ 64)
    (hdata : data ≠ 0) (hrejected : ¬ Accepted m data)
    (ht : bmp_parse.touched k lo m data = some t) :
  t.ReadsInside data size ↔ 2 ≤ size ∧ (bfType m data = 0x4D42 → 30 ≤ size ∧
    (biBitCount m (u64 (data + 14)) = 24 ∨ biBitCount m (u64 (data + 14)) = 32 → 34 ≤ size))
  := by
  have hbitCount : (Access.data (u64 (data + 14) + 14) 2).Within data size ↔ 30 ≤ size :=
    header_within_iff hend (by decide) (by decide) (by decide)
  have hcompression : (Access.data (u64 (data + 14) + 16) 4).Within data size ↔ 34 ≤ size :=
    header_within_iff hend (by decide) (by decide) (by decide)
  rw [bmp_parse.touched, if_neg hdata] at ht
  split_ifs at ht with htype hbits hcompressed
  · obtain rfl := Option.some.inj ht
    rw [Touched.ReadsInside, List.forall_mem_singleton, type_within_iff]
    constructor
    · intro h2
      exact ⟨h2, fun heq => absurd heq htype⟩
    · exact And.left
  · obtain rfl := Option.some.inj ht
    rw [Touched.ReadsInside, List.forall_mem_cons, List.forall_mem_singleton, type_within_iff,
      hbitCount]
    apply and_congr_right
    intro _
    constructor
    · intro h30 _
      exact ⟨h30, fun hbits' => absurd hbits' (not_or.mpr hbits)⟩
    · intro hsizes
      exact (hsizes (not_not.mp htype)).1
  · obtain rfl := Option.some.inj ht
    rw [Touched.ReadsInside, List.forall_mem_cons, List.forall_mem_cons, List.forall_mem_singleton,
      type_within_iff, hbitCount, hcompression]
    apply and_congr_right
    intro _
    constructor
    · rintro ⟨h30, h34⟩ _
      exact ⟨h30, fun _ => h34⟩
    · intro hsizes
      obtain ⟨h30, h34⟩ := hsizes (not_not.mp htype)
      exact ⟨h30, h34 (Decidable.or_iff_not_imp_left.mpr (Decidable.not_and_not_right.mp hbits))⟩
  · exact absurd ⟨hdata, by omega, by omega, by omega⟩ hrejected

/-- When they are accepted, all headers have to be in the array, and the rows. -/
theorem accepted_within_iff {state : State} {t : Touched} (haccepted : Accepted state.mem data)
    (ht : bmp_parse.touched n lo state.mem data = some t)
    (h : lo ≠ 0 → ∃ bs, Holds 1 lo hi state bs) (hlt : hi < 2 ^ 64) (hlow : lo ≠ 0 → imageSize ≤ lo)
    (harray : IsArray lo hi state data size) :
  let infoHeader := u64 (data + 14)
  let width := biWidth state.mem infoHeader
  let height := bmp_parse.height (biHeight state.mem infoHeader)
  let row := width * (biBitCount state.mem infoHeader / 8)
  let padding := (4 - row % 4) % 4
  t.ReadsInside data size ↔ 34 ≤ size ∧ (t.buffer = 0 ∨ width = 0 ∨ height = 0 ∨
    bfOffBits state.mem data + ((height - 1) * (row + padding) + row) ≤ size)
  := by
  have hend := harray.end_le
  have hbits := haccepted.bits
  rw [haccepted.touched_eq] at ht
  obtain ⟨t', ht', rfl⟩ := Option.map_eq_some_iff.mp ht
  have hheader : ∀ k n, k ≤ 16 → 0 < n → n ≤ 4 →
      ((Access.data (u64 (data + 14) + k) n).Within data size ↔ 14 + k + n ≤ size) :=
    fun k n hk hn hn' => header_within_iff hend hk hn hn'
  have hoffset : (Access.data (data + 10) 4).Within data size ↔ 14 ≤ size := by
    rw [Access.Within]
    omega
  rw [Touched.ReadsInside, List.forall_mem_append]
  simp only [List.forall_mem_cons, type_within_iff, hheader 14 2 (by decide) (by decide) (by decide),
    hheader 16 4 (by decide) (by decide) (by decide), hheader 4 4 (by decide) (by decide) (by decide),
    hheader 8 4 (by decide) (by decide) (by decide), hoffset]
  have hrows : 34 ≤ size → _ := fun hsize =>
    create_within_iff ht' h hlt hlow harray hsize haccepted.data_ne
      (Memory.load_lt state.mem (data + 10) 4) rfl (by omega)
  constructor
  · rintro ⟨⟨-, -, hsize, -⟩, hreads⟩
    exact ⟨hsize, (hrows hsize).mp hreads⟩
  · rintro ⟨hsize, hfits⟩
    refine ⟨⟨by omega, by omega, by omega, by omega, by omega, by omega, ?_⟩, (hrows hsize).mpr hfits⟩
    simp

/-- In every state of a run of the heap, all reads of `bmp_parse` are inside its array exactly when
the array holds the headers that are looked at and, if they are accepted and the pixels allocated,
all rows. -/
theorem reads_inside_iff {k : ℕ} {image : Paging.Image} {vm vm' : Paging.Vm} {heap_start : ℕ}
    (hinit : heap_init n image vm lo hi = some (vm', heap_start)) (hlow : imageSize ≤ lo)
    (hsize : lo + headerSize ≤ hi) (hlt : hi < 2 ^ 64) {ops : List Op} {state : State}
    (hrun : Run (Step heap_start hi) ⟨vm'.mem, fun _ => none⟩ ops state)
    (harray : IsArray heap_start hi state data size) {t : Touched}
    (ht : bmp_parse.touched k heap_start state.mem data = some t) :
  let infoHeader := u64 (data + 14)
  let bits := biBitCount state.mem infoHeader
  let width := biWidth state.mem infoHeader
  let height := bmp_parse.height (biHeight state.mem infoHeader)
  let row := width * (bits / 8)
  let padding := (4 - row % 4) % 4
  t.ReadsInside data size ↔ data = 0 ∨ 2 ≤ size ∧ (bfType state.mem data = 0x4D42 →
    30 ≤ size ∧ (bits = 24 ∨ bits = 32 → 34 ≤ size ∧ (biCompression state.mem infoHeader = 0 →
      t.buffer = 0 ∨ width = 0 ∨ height = 0 ∨
        bfOffBits state.mem data + ((height - 1) * (row + padding) + row) ≤ size)))
  := by
  dsimp only
  by_cases hdata : data = 0
  · rw [bmp_parse.touched, if_pos hdata] at ht
    obtain rfl := Option.some.inj ht
    exact iff_of_true (by simp [Touched.ReadsInside]) (Or.inl hdata)
  rw [or_iff_right hdata]
  by_cases haccepted : Accepted state.mem data
  · have hholds : heap_start ≠ 0 → heap_start = lo ∧ ∃ bs, Holds 1 lo hi state bs := fun hmapped =>
      holds_run hinit hmapped (one_dvd 8) (one_dvd lo) (one_dvd hi) hsize hlt hrun
    refine Iff.trans (accepted_within_iff haccepted ht ?_ hlt ?_ harray) ?_
    · intro hmapped
      obtain ⟨rfl, hbs⟩ := hholds hmapped
      exact hbs
    · intro hmapped
      rw [(hholds hmapped).1]
      exact hlow
    · constructor
      · rintro ⟨hall, hrows⟩
        exact ⟨by omega, fun _ => ⟨by omega, fun _ => ⟨hall, fun _ => hrows⟩⟩⟩
      · rintro ⟨-, hsizes⟩
        obtain ⟨hall, hrows⟩ := (hsizes haccepted.type_eq).2 haccepted.bits
        exact ⟨hall, hrows haccepted.compression_eq⟩
  · rw [rejected_within_iff harray.end_le hdata haccepted ht]
    have hcompressed : bfType state.mem data = 0x4D42 →
        biBitCount state.mem (u64 (data + 14)) = 24 ∨ biBitCount state.mem (u64 (data + 14)) = 32 →
          biCompression state.mem (u64 (data + 14)) ≠ 0 :=
      fun htype hbits hzero => haccepted ⟨hdata, htype, hbits, hzero⟩
    apply and_congr_right
    intro _
    apply imp_congr_right
    intro htype
    apply and_congr_right
    intro _
    apply imp_congr_right
    intro hbits
    exact (and_iff_left fun hzero => absurd hzero (hcompressed htype hbits)).symm

/-! ### The picture of two pixels, truncated -/

theorem isArray_file (m : Memory) {size : ℕ} (hsize : size ≤ 62) :
  IsArray 4096 8192 ⟨m, fun _ => none⟩ 10000 size
  := by
  constructor
  · omega
  · decide
  · intro i _
    exact Or.inl (Or.inr (by omega))

/-- The file has 62 bytes, of which the last one is not read. -/
theorem reads_inside_two :
  ∃ m t, bmp_parse.touched 5 4096 m 10000 = some t ∧ Accepted m 10000 ∧ t.ReadsInside 10000 61
  := by
  obtain ⟨⟨vm', t, hinit, ht, hheader, -, -⟩, -⟩ := touched_picture
  obtain ⟨haccepted, hoffset, hbits, hwidth, hheight⟩ := pictureHeader_eq hheader
  have hiff := reads_inside_iff hinit (by decide) (by decide) (by decide) (Run.nil _)
    (isArray_file vm'.mem (by decide : 61 ≤ 62)) ht
  dsimp only at hiff
  rw [hoffset, hbits, hwidth, hheight] at hiff
  exact ⟨_, t, ht, haccepted, hiff.mpr (by omega)⟩

/-- Of the file without its last two bytes the byte behind the end is read. -/
theorem read_outside :
  ∃ vm' t, heap_init 5 ⟨Paging.KERNEL_OFFSET, Paging.KERNEL_OFFSET⟩ pictureVm 4096 8192 =
      some (vm', 4096) ∧ IsArray 4096 8192 ⟨vm'.mem, fun _ => none⟩ 10000 60 ∧
    bmp_parse.touched 5 4096 vm'.mem 10000 = some t ∧ ¬ t.ReadsInside 10000 60
  := by
  obtain ⟨⟨vm', t, hinit, ht, -, -, hread⟩, -⟩ := touched_picture
  refine ⟨vm', t, hinit, isArray_file vm'.mem (by decide), ht, ?_⟩
  intro hinside
  have hbyte := hinside _ hread
  rw [Access.Within] at hbyte
  omega

end Bmp
