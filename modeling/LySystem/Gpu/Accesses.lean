import LySystem.Gpu.Bmp
import LySystem.Machine.Trace

/-!
# What the decoder touches

The accesses `bmp_parse` makes itself, read from the loops of its model: reads of the file, and
writes to the image record and to the pixels.  Those of `kmalloc` and `kfree` are theirs.
-/

namespace Bmp

inductive Access where
  | data (addr size : ℕ)
  | record (addr size : ℕ)
  | pixel (addr : ℕ)
  deriving DecidableEq

/-- The pointers `kmalloc` returned, and the accesses in their order. -/
structure Touched where
  img : ℕ
  buffer : ℕ
  accesses : List Access

def bmp_parse.pixel.accesses (img width target_y bpp : ℕ) (s : Memory × ℕ) (x : ℕ) : List Access :=
  let (m, pixel_data) := s
  [.data pixel_data 1, .data (u64 (pixel_data + 1)) 1, .data (u64 (pixel_data + 2)) 1] ++
    (if bpp = 4 then [.data (u64 (pixel_data + 3)) 1] else []) ++
    [.pixel (pixelAddr m img (target_y * width + x))]

def bmp_parse.row.accesses (img width height bpp : ℕ) (is_bottom_up : Bool) (s : Memory × ℕ)
    (y : ℕ) : List Access :=
  Loop.trace (bmp_parse.pixel img width (targetRow is_bottom_up height y) bpp)
    (bmp_parse.pixel.accesses img width (targetRow is_bottom_up height y) bpp) s (List.range width)

/-- The accesses of the loop over the rows. -/
def bmp_parse.rows.accesses (img width height bpp padding : ℕ) (is_bottom_up : Bool)
    (s : Memory × ℕ) : List Access :=
  Loop.trace (bmp_parse.row img width height bpp padding is_bottom_up)
    (bmp_parse.row.accesses img width height bpp is_bottom_up) s (List.range height)

/-- The accesses of `bmp_parse.create`. -/
def bmp_parse.create.touched (n heap_start : ℕ) (m : Memory) (infoHeader width height : ℕ)
    (is_bottom_up : Bool) (pixel_data : ℕ) : Option Touched := do
  let (img, m) ← Heap.kmalloc n m heap_start imageSize
  let m := setHeight (setWidth m img width) img height
  let (buffer, m) ← Heap.kmalloc n m heap_start (u32 (width * height * 4))
  let m := setPixels m img buffer
  let record : List Access := [.record img 4, .record (img + 4) 4, .record (img + 8) 8]
  if buffer = 0 then some ⟨img, buffer, record⟩
  else
    let bpp := biBitCount m infoHeader / 8
    let padding := (4 - u32 (width * bpp) % 4) % 4
    some ⟨img, buffer, record ++ .data (infoHeader + 14) 2 ::
      bmp_parse.rows.accesses img width height bpp padding is_bottom_up (m, pixel_data)⟩

/-- The accesses of `bmp_parse`. -/
def bmp_parse.touched (n heap_start : ℕ) (m : Memory) (data : ℕ) : Option Touched :=
  let infoHeader := u64 (data + 14)
  if data = 0 then some ⟨0, 0, []⟩
  else if bfType m data ≠ 0x4D42 then some ⟨0, 0, [.data data 2]⟩
  else if biBitCount m infoHeader ≠ 24 ∧ biBitCount m infoHeader ≠ 32 then
    some ⟨0, 0, [.data data 2, .data (infoHeader + 14) 2]⟩
  else if biCompression m infoHeader ≠ 0 then
    some ⟨0, 0, [.data data 2, .data (infoHeader + 14) 2, .data (infoHeader + 16) 4]⟩
  else
    (bmp_parse.create.touched n heap_start m infoHeader (biWidth m infoHeader)
      (bmp_parse.height (biHeight m infoHeader)) (decide (0 < biHeight m infoHeader))
      (u64 (data + bfOffBits m data))).map fun t =>
        { t with accesses := [.data data 2, .data (infoHeader + 14) 2, .data (infoHeader + 16) 4,
            .data (infoHeader + 4) 4, .data (infoHeader + 8) 4, .data (data + 10) 4] ++ t.accesses }

/-- The headers `bmp_parse` accepts. -/
structure Accepted (m : Memory) (data : ℕ) : Prop where
  data_ne : data ≠ 0
  type_eq : bfType m data = 0x4D42
  bits : biBitCount m (u64 (data + 14)) = 24 ∨ biBitCount m (u64 (data + 14)) = 32
  compression_eq : biCompression m (u64 (data + 14)) = 0

variable {m : Memory} {img width height target_y bpp padding data x y a : ℕ} {up : Bool}
  {s : Memory × ℕ}

/-- A byte that is none of the pixels written is left as it is. -/
theorem pixel_outside
    (h : ∀ a, .pixel a ∈ bmp_parse.pixel.accesses img width target_y bpp s x →
      y < a ∨ a + 4 ≤ y) :
  (bmp_parse.pixel img width target_y bpp s x).1 y = s.1 y
  := by
  apply Memory.store_outside
  apply h
  simp [bmp_parse.pixel.accesses]

@[inherit_doc pixel_outside]
theorem rows_outside
    (h : ∀ a, .pixel a ∈ bmp_parse.rows.accesses img width height bpp padding up s →
      y < a ∨ a + 4 ≤ y) :
  ((List.range height).foldl (bmp_parse.row img width height bpp padding up) s).1 y = s.1 y
  := by
  let P : Access → Prop := fun b => ∀ a, b = .pixel a → y < a ∨ a + 4 ≤ y
  apply Loop.foldl_eq_of_trace (bmp_parse.row.accesses img width height bpp up) P
    fun t : Memory × ℕ => t.1 y
  · intro r _ t ht
    apply Loop.foldl_eq_of_trace (bmp_parse.pixel.accesses img width (targetRow up height r) bpp) P
      (fun t : Memory × ℕ => t.1 y) _ ht
    intro x _ t ht
    apply pixel_outside
    intro a ha
    exact ht _ ha a rfl
  · rintro b hb a rfl
    exact h a hb

/-- A pixel is stored where the accesses say, with the colour of the bytes they read. -/
theorem pixel_congr {m' : Memory}
    (h : ∀ a n, .data a n ∈ bmp_parse.pixel.accesses img width target_y bpp s x → s.1 a = m' a)
    (himg : pixels s.1 img = pixels m' img) :
  ∃ a v, (bmp_parse.pixel img width target_y bpp s x).1 = s.1.store a 4 v ∧
    (bmp_parse.pixel img width target_y bpp (m', s.2) x).1 = m'.store a 4 v
  := by
  refine ⟨_, _, rfl, ?_⟩
  rw [bmp_parse.pixel]
  dsimp only
  rw [pixelAddr, pixelAddr, himg, h s.2 1 (by simp [bmp_parse.pixel.accesses]),
    h (u64 (s.2 + 1)) 1 (by simp [bmp_parse.pixel.accesses]),
    h (u64 (s.2 + 2)) 1 (by simp [bmp_parse.pixel.accesses])]

/-- For accepted headers the accesses are those of the headers and of `bmp_parse.create`. -/
theorem Accepted.touched_eq (h : Accepted m data) (n heap_start : ℕ) :
  bmp_parse.touched n heap_start m data =
    (bmp_parse.create.touched n heap_start m (u64 (data + 14)) (biWidth m (u64 (data + 14)))
      (bmp_parse.height (biHeight m (u64 (data + 14))))
      (decide (0 < biHeight m (u64 (data + 14)))) (u64 (data + bfOffBits m data))).map fun t =>
        { t with accesses := [.data data 2, .data (u64 (data + 14) + 14) 2,
            .data (u64 (data + 14) + 16) 4, .data (u64 (data + 14) + 4) 4,
            .data (u64 (data + 14) + 8) 4, .data (data + 10) 4] ++ t.accesses }
  := by
  have hbits := h.bits
  rw [bmp_parse.touched, if_neg h.data_ne, if_neg (not_not_intro h.type_eq), if_neg (by omega),
    if_neg (not_not_intro h.compression_eq)]

end Bmp
