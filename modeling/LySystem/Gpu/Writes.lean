import LySystem.Gpu.Accesses
import LySystem.Gpu.Decode

/-!
# Where the decoder writes

`bmp_parse` does not look at the first pointer `kmalloc` returns, and it asks for a product of 32
bits.  The writes are inside the blocks it was given exactly when the first pointer is not `NULL`
and the product does not overflow.
-/

namespace Bmp

open Heap Transition

/-- A write goes inside the block that was asked for for it, and there is such a block. -/
def Access.Inside (img buffer bytes : ℕ) : Access → Prop
  | data _ _ => True
  | record addr size => img ≠ 0 ∧ img ≤ addr ∧ addr + size ≤ img + imageSize
  | pixel addr => buffer ≠ 0 ∧ buffer ≤ addr ∧ addr + 4 ≤ buffer + bytes

/-- All writes go inside the blocks, the pixels having `bytes` bytes. -/
def Touched.WritesInside (t : Touched) (bytes : ℕ) : Prop :=
  ∀ a ∈ t.accesses, a.Inside t.img t.buffer bytes

variable {lo hi n img buffer bytes width height target_y bpp padding x y : ℕ} {up : Bool}
  {s : Memory × ℕ} {m m₁ m₂ : Memory}

/-! ### The blocks -/

/-- What the two allocations give: the pixels lie apart from the record, which points to them. -/
structure Blocks (m : Memory) (img buffer bytes : ℕ) : Prop where
  pixels_eq : pixels m img = buffer
  apart : ∀ i < imageSize, img + i < buffer ∨ buffer + bytes ≤ img + i
  buffer_end : buffer + bytes < 2 ^ 64

theorem blocks_allocated {state : State} {bs : List FirstFit.Block} (h : Holds 1 lo hi state bs)
    (hlt : hi < 2 ^ 64) (hbytes : bytes < 2 ^ 32)
    (himg : Heap.kmalloc n state.mem lo imageSize = some (img, m₁)) (hnull₁ : img ≠ 0)
    (hbuf : Heap.kmalloc n (setHeight (setWidth m₁ img width) img height) lo bytes =
      some (buffer, m₂)) (hnull₂ : buffer ≠ 0) :
  Blocks (setPixels m₂ img buffer) img buffer bytes
  := by
  obtain ⟨t₁, rfl, ⟨bs₁, h₁⟩, hlive₁, -, -, -⟩ :=
    h.kmalloc_given (one_dvd 8) hlt (by decide) himg hnull₁
  have h₁' := h₁.stores hlive₁ fun _ hx => setHeight_outside (w := width) (h := height) hx
  obtain ⟨t₂, rfl, -, -, -, hhi₂, hkept₂⟩ :=
    h₁'.kmalloc_given (one_dvd 8) hlt hbytes hbuf hnull₂
  constructor
  · rw [pixels, setPixels, Memory.load_store]
    omega
  · intro i hi
    exact (hkept₂ (img + i) (Or.inr ⟨img, _, hlive₁, by omega, by omega⟩)).1
  · omega

/-! ### The pixels -/

/-- The only write of a round. -/
theorem pixel_inside_iff (himg : pixels s.1 img = buffer) (hnull : buffer ≠ 0)
    (hend : buffer + bytes < 2 ^ 64) :
  (∀ a ∈ bmp_parse.pixel.accesses img width target_y bpp s x, a.Inside img buffer bytes) ↔
    4 * u32 (target_y * width + x) + 4 ≤ bytes
  := by
  have hindex : u32 (target_y * width + x) < 2 ^ 32 := Nat.mod_lt _ (by decide)
  have hpixel : (∀ a ∈ bmp_parse.pixel.accesses img width target_y bpp s x,
      a.Inside img buffer bytes) ↔
      (Access.pixel (pixelAddr s.1 img (target_y * width + x))).Inside img buffer bytes := by
    rw [bmp_parse.pixel.accesses]
    split_ifs
    all_goals simp [Access.Inside]
  rw [hpixel, pixelAddr, himg, Access.Inside, u64]
  constructor
  · rintro ⟨-, hlow, hhigh⟩
    omega
  · intro hle
    refine ⟨hnull, ?_⟩
    omega

/-- A write inside the pixels leaves the record as it is. -/
theorem Blocks.pixel (h : Blocks m img buffer bytes) (himg : pixels s.1 img = buffer)
    (hinside : ∀ a ∈ bmp_parse.pixel.accesses img width target_y bpp s x,
      a.Inside img buffer bytes) :
  pixels (bmp_parse.pixel img width target_y bpp s x).1 img = buffer
  := by
  rw [← himg]
  apply Memory.load_congr
  intro i hi
  apply pixel_outside
  intro a ha
  obtain ⟨-, hlow, hhigh⟩ := hinside _ ha
  have := h.apart (8 + i) (by rw [imageSize]; omega)
  omega

/-- The pixels of all rows are written inside exactly when all their indices are in the buffer. -/
theorem Blocks.rows_inside_iff (h : Blocks s.1 img buffer bytes) (hnull : buffer ≠ 0)
    (width height bpp padding : ℕ) (up : Bool) :
  (∀ a ∈ bmp_parse.rows.accesses img width height bpp padding up s, a.Inside img buffer bytes) ↔
    ∀ y < height, ∀ x < width, 4 * u32 (targetRow up height y * width + x) + 4 ≤ bytes
  := by
  have hrow : ∀ y, ∀ t : Memory × ℕ, pixels t.1 img = buffer →
      ((∀ a ∈ bmp_parse.row.accesses img width height bpp up t y, a.Inside img buffer bytes) ↔
        ∀ x < width, 4 * u32 (targetRow up height y * width + x) + 4 ≤ bytes) ∧
      ((∀ a ∈ bmp_parse.row.accesses img width height bpp up t y, a.Inside img buffer bytes) →
        pixels (bmp_parse.row img width height bpp padding up t y).1 img = buffer) := by
    intro y t ht
    apply Loop.forall_mem_trace (I := fun _ (t : Memory × ℕ) => pixels t.1 img = buffer) _ _ ht
    · intro x _ t ht
      exact pixel_inside_iff ht hnull h.buffer_end
    · intro x _ t ht hinside
      exact h.pixel ht hinside
  apply (Loop.forall_mem_trace (I := fun _ (t : Memory × ℕ) => pixels t.1 img = buffer) _ _
    h.pixels_eq).1
  · intro y _ t ht
    exact (hrow y t ht).1
  · intro y _ t ht
    exact (hrow y t ht).2

/-- The indices of all pixels are in the buffer that was asked for exactly when the product of 32
bits does not overflow. -/
theorem indices_iff (up : Bool) :
  (∀ y < height, ∀ x < width,
    4 * u32 (targetRow up height y * width + x) + 4 ≤ u32 (width * height * 4)) ↔
    width * height * 4 < 2 ^ 32
  := by
  constructor
  · intro hall
    by_contra hlarge
    -- The pixel whose bytes end at `2 ^ 32`.
    have hindex : 2 ^ 30 - 1 < width * height := by omega
    have hwidth : 0 < width := by
      apply Nat.pos_of_ne_zero
      rintro rfl
      omega
    have hrow : (2 ^ 30 - 1) / width < height := Nat.div_lt_of_lt_mul hindex
    have hpixel := hall _ (targetRow_lt (b := up) hrow) _ (Nat.mod_lt (2 ^ 30 - 1) hwidth)
    rw [targetRow_targetRow hrow, Nat.mul_comm _ width, Nat.div_add_mod] at hpixel
    have hbytes : u32 (width * height * 4) < 2 ^ 32 := Nat.mod_lt _ (by decide)
    rw [u32_of_lt (n := 2 ^ 30 - 1) (by decide)] at hpixel
    omega
  · intro hsmall y hy x hx
    have hcell := cell_lt (targetRow_lt (b := up) hy) hx
    rw [u32_of_lt hsmall, u32_of_lt (by omega)]
    omega

/-! ### Runs of the heap -/

/-- Without a heap there are no blocks. -/
theorem kmalloc_unmapped {request ptr : ℕ} (h : Heap.kmalloc n m 0 request = some (ptr, m₁)) :
  ptr = 0 ∧ m₁ = m
  := by
  cases n with
  | zero => cases h
  | succ n =>
      obtain ⟨rfl, rfl⟩ := Prod.mk.inj (Option.some.inj h)
      exact ⟨rfl, rfl⟩

theorem create_unmapped {infoHeader pixel_data : ℕ} {t : Touched}
    (ht : bmp_parse.create.touched n 0 m infoHeader width height up pixel_data = some t) :
  t.img = 0 ∧ t.buffer = 0
  := by
  rw [bmp_parse.create.touched] at ht
  obtain ⟨⟨img, m₁⟩, himg, ht⟩ := Option.bind_eq_some_iff.mp ht
  obtain ⟨⟨buffer, m₂⟩, hbuf, ht⟩ := Option.bind_eq_some_iff.mp ht
  dsimp only at hbuf ht
  rw [if_pos (kmalloc_unmapped hbuf).1] at ht
  obtain rfl := Option.some.inj ht
  exact ⟨(kmalloc_unmapped himg).1, (kmalloc_unmapped hbuf).1⟩

/-- All writes of `bmp_parse.create` go inside exactly when the first pointer is not `NULL`, and the
second one is or the product of 32 bits does not overflow. -/
theorem create_inside_iff {state : State} {infoHeader pixel_data : ℕ} {t : Touched}
    (ht : bmp_parse.create.touched n lo state.mem infoHeader width height up pixel_data = some t)
    (h : t.img ≠ 0 → ∃ bs, Holds 1 lo hi state bs) (hlt : hi < 2 ^ 64) :
  t.WritesInside (u32 (width * height * 4)) ↔
    t.img ≠ 0 ∧ (t.buffer = 0 ∨ width * height * 4 < 2 ^ 32)
  := by
  rw [bmp_parse.create.touched] at ht
  obtain ⟨⟨img, m₁⟩, himg, ht⟩ := Option.bind_eq_some_iff.mp ht
  obtain ⟨⟨buffer, m₂⟩, hbuf, ht⟩ := Option.bind_eq_some_iff.mp ht
  dsimp only at hbuf ht
  by_cases hnull₁ : img = 0
  · -- The first write to the record.
    have hfirst : .record img 4 ∈ t.accesses ∧ t.img = img := by
      split_ifs at ht
      all_goals obtain rfl := Option.some.inj ht
      all_goals simp
    rw [hfirst.2, hnull₁]
    apply iff_of_false
    · intro hinside
      have hrecord := hinside _ hfirst.1
      rw [hfirst.2, Access.Inside] at hrecord
      exact hrecord.1 hnull₁
    · intro hne
      exact hne.1 rfl
  have hrecord : ∀ a ∈ ([.record img 4, .record (img + 4) 4, .record (img + 8) 8] : List Access),
      a.Inside img buffer (u32 (width * height * 4)) := by
    simp [Access.Inside, imageSize, hnull₁]
  split_ifs at ht with hnull₂
  · obtain rfl := Option.some.inj ht
    exact iff_of_true hrecord ⟨hnull₁, Or.inl hnull₂⟩
  · obtain rfl := Option.some.inj ht
    obtain ⟨bs, hbs⟩ := h hnull₁
    have hbytes : u32 (width * height * 4) < 2 ^ 32 := Nat.mod_lt _ (by decide)
    have hblocks := blocks_allocated hbs hlt hbytes himg hnull₁ hbuf hnull₂
    rw [and_iff_right hnull₁, or_iff_right hnull₂, ← indices_iff up,
      ← Blocks.rows_inside_iff (s := (setPixels m₂ img buffer, pixel_data)) hblocks hnull₂,
      Touched.WritesInside]
    dsimp only
    rw [List.forall_mem_append, and_iff_right hrecord, List.forall_mem_cons]
    exact and_iff_right trivial

/-- In every state of a run of the heap, and for all headers that are accepted, all writes of
`bmp_parse` go inside the blocks exactly when the first pointer is not `NULL`, and the second one is
or the product of 32 bits does not overflow. -/
theorem writes_inside_iff {k : ℕ} {image : Paging.Image} {vm vm' : Paging.Vm} {heap_start : ℕ}
    (hinit : heap_init n image vm lo hi = some (vm', heap_start)) (hsize : lo + headerSize ≤ hi)
    (hlt : hi < 2 ^ 64) {ops : List Op} {state : State}
    (hrun : Run (Step heap_start hi) ⟨vm'.mem, fun _ => none⟩ ops state) {data : ℕ}
    (haccepted : Accepted state.mem data) {t : Touched}
    (ht : bmp_parse.touched k heap_start state.mem data = some t) :
  let width := biWidth state.mem (u64 (data + 14))
  let height := bmp_parse.height (biHeight state.mem (u64 (data + 14)))
  t.WritesInside (u32 (width * height * 4)) ↔
    t.img ≠ 0 ∧ (t.buffer = 0 ∨ width * height * 4 < 2 ^ 32)
  := by
  rw [haccepted.touched_eq] at ht
  obtain ⟨t', ht', rfl⟩ := Option.map_eq_some_iff.mp ht
  have hholds : t'.img ≠ 0 → ∃ bs, Holds 1 heap_start hi state bs := by
    intro hnull
    have hmapped : heap_start ≠ 0 := by
      rintro rfl
      exact hnull (create_unmapped ht').1
    obtain ⟨rfl, hbs⟩ := holds_run hinit hmapped (one_dvd 8) (one_dvd lo) (one_dvd hi) hsize hlt hrun
    exact hbs
  dsimp only
  rw [← create_inside_iff ht' hholds hlt, Touched.WritesInside, List.forall_mem_append,
    Touched.WritesInside]
  apply and_iff_right
  simp [Access.Inside]

/-! ### A picture of two pixels -/

/-- The fields of the header at the address 10000. -/
def pictureHeader (m : Memory) : List ℕ :=
  [bfType m 10000, bfOffBits m 10000, biBitCount m 10014, biCompression m 10014, biWidth m 10014,
    bmp_parse.height (biHeight m 10014)]

/-- The last byte of the pixels is read in a heap of one page; in a heap without room for the record
the record at `NULL` is written. -/
theorem touched_picture :
  (∃ vm' t, heap_init 5 ⟨Paging.KERNEL_OFFSET, Paging.KERNEL_OFFSET⟩ pictureVm 4096 8192 =
      some (vm', 4096) ∧ bmp_parse.touched 5 4096 vm'.mem 10000 = some t ∧
    pictureHeader vm'.mem = [0x4D42, 54, 24, 0, 1, 2] ∧ t.img ≠ 0 ∧ .data 10060 1 ∈ t.accesses) ∧
  ∃ vm' t, heap_init 5 ⟨Paging.KERNEL_OFFSET, Paging.KERNEL_OFFSET⟩ pictureVm 4096 4128 =
      some (vm', 4096) ∧ bmp_parse.touched 5 4096 vm'.mem 10000 = some t ∧
    pictureHeader vm'.mem = [0x4D42, 54, 24, 0, 1, 2] ∧ t.img = 0
  := by
  have hpage : (heap_init 5 ⟨Paging.KERNEL_OFFSET, Paging.KERNEL_OFFSET⟩ pictureVm 4096 8192).bind
      (fun r : Paging.Vm × ℕ => (bmp_parse.touched 5 r.2 r.1.mem 10000).map fun t =>
        (r.2, pictureHeader r.1.mem, t.img, decide (.data 10060 1 ∈ t.accesses))) =
      some (4096, [0x4D42, 54, 24, 0, 1, 2], 4120, true) := by
    unfold heap_init heap_init.mapPage Paging.map_page Paging.map_page.descend
    simp only [Paging.zeroTable_eq]
    decide +kernel
  have hsmall : (heap_init 5 ⟨Paging.KERNEL_OFFSET, Paging.KERNEL_OFFSET⟩ pictureVm 4096 4128).bind
      (fun r : Paging.Vm × ℕ => (bmp_parse.touched 5 r.2 r.1.mem 10000).map fun t =>
        (r.2, pictureHeader r.1.mem, t.img)) =
      some (4096, [0x4D42, 54, 24, 0, 1, 2], 0) := by
    unfold heap_init heap_init.mapPage Paging.map_page Paging.map_page.descend
    simp only [Paging.zeroTable_eq]
    decide +kernel
  constructor
  · obtain ⟨⟨vm', heap_start⟩, hinit, hrest⟩ := Option.bind_eq_some_iff.mp hpage
    obtain ⟨t, ht, heq⟩ := Option.map_eq_some_iff.mp hrest
    simp only [Prod.mk.injEq, decide_eq_true_eq] at heq
    obtain ⟨rfl, hheader, himg, hread⟩ := heq
    exact ⟨vm', t, hinit, ht, hheader, by omega, hread⟩
  · obtain ⟨⟨vm', heap_start⟩, hinit, hrest⟩ := Option.bind_eq_some_iff.mp hsmall
    obtain ⟨t, ht, heq⟩ := Option.map_eq_some_iff.mp hrest
    simp only [Prod.mk.injEq] at heq
    obtain ⟨rfl, hheader, himg⟩ := heq
    exact ⟨vm', t, hinit, ht, hheader, himg⟩

theorem pictureHeader_eq {m : Memory} (h : pictureHeader m = [0x4D42, 54, 24, 0, 1, 2]) :
  Accepted m 10000 ∧ bfOffBits m 10000 = 54 ∧ biBitCount m (u64 (10000 + 14)) = 24 ∧
    biWidth m (u64 (10000 + 14)) = 1 ∧ bmp_parse.height (biHeight m (u64 (10000 + 14))) = 2
  := by
  have hinfo : u64 (10000 + 14) = 10014 := u64_of_lt (by decide)
  rw [pictureHeader] at h
  simp only [List.cons.injEq, and_true] at h
  obtain ⟨htype, hoffset, hbits, hcompression, hwidth, hheight⟩ := h
  rw [hinfo]
  refine ⟨⟨by decide, htype, ?_, ?_⟩, hoffset, hbits, hwidth, hheight⟩
  · rw [hinfo]
    exact Or.inl hbits
  · rw [hinfo]
    exact hcompression

theorem writes_inside_two :
  ∃ m t, bmp_parse.touched 5 4096 m 10000 = some t ∧ Accepted m 10000 ∧
    t.WritesInside (u32 (1 * 2 * 4))
  := by
  obtain ⟨⟨vm', t, hinit, ht, hheader, himg, -⟩, -⟩ := touched_picture
  obtain ⟨haccepted, -, -, hwidth, hheight⟩ := pictureHeader_eq hheader
  have hiff := writes_inside_iff hinit (by decide) (by decide) (Run.nil _) haccepted ht
  rw [hwidth, hheight] at hiff
  exact ⟨_, t, ht, haccepted, hiff.mpr ⟨himg, Or.inr (by decide)⟩⟩

/-- Without room for the record it is written at `NULL`. -/
theorem null_written :
  ∃ vm' t, heap_init 5 ⟨Paging.KERNEL_OFFSET, Paging.KERNEL_OFFSET⟩ pictureVm 4096 4128 =
      some (vm', 4096) ∧ Accepted vm'.mem 10000 ∧
    biWidth vm'.mem (u64 (10000 + 14)) = 1 ∧
    bmp_parse.height (biHeight vm'.mem (u64 (10000 + 14))) = 2 ∧
    bmp_parse.touched 5 4096 vm'.mem 10000 = some t ∧ ¬ t.WritesInside (u32 (1 * 2 * 4))
  := by
  obtain ⟨-, vm', t, hinit, ht, hheader, hnull⟩ := touched_picture
  obtain ⟨haccepted, -, -, hwidth, hheight⟩ := pictureHeader_eq hheader
  refine ⟨vm', t, hinit, haccepted, hwidth, hheight, ht, ?_⟩
  rw [haccepted.touched_eq, hwidth, hheight] at ht
  obtain ⟨t', ht', rfl⟩ := Option.map_eq_some_iff.mp ht
  have hholds : t'.img ≠ 0 → ∃ bs, Holds 1 4096 4128 ⟨vm'.mem, fun _ => none⟩ bs :=
    fun himg => absurd hnull himg
  intro hinside
  exact ((create_inside_iff (by exact ht') hholds (by decide)).mp
    fun a ha => hinside a (List.mem_append_right _ ha)).1 hnull

end Bmp
