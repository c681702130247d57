import LySystem.Mem.HeapFrame

/-!
# Uncompressed BMP images

The decoder `bmp_parse` of `kernel/GPU/bmp.c`, and the encoder `include/img/img2c.py`.  The
packed file header has 14 bytes and the info header that follows it 40; a decoded image is the
C struct `bmp_image_t` of 16 bytes, with its pixels in a buffer of their own.
-/

namespace Bmp

/-! ### The headers -/

def bfType (m : Memory) (fileHeader : ℕ) : ℕ := m.load fileHeader 2

def bfOffBits (m : Memory) (fileHeader : ℕ) : ℕ := m.load (fileHeader + 10) 4

def biWidth (m : Memory) (infoHeader : ℕ) : ℕ := m.load (infoHeader + 4) 4

/-- An `int32_t`. -/
def biHeight (m : Memory) (infoHeader : ℕ) : ℤ := Int.bmod (m.load (infoHeader + 8) 4) (2 ^ 32)

def biBitCount (m : Memory) (infoHeader : ℕ) : ℕ := m.load (infoHeader + 14) 2

def biCompression (m : Memory) (infoHeader : ℕ) : ℕ := m.load (infoHeader + 16) 4

/-! ### Decoded images -/

/-- `sizeof(bmp_image_t)`. -/
def imageSize : ℕ := 16

def width (m : Memory) (img : ℕ) : ℕ := m.load img 4

def height (m : Memory) (img : ℕ) : ℕ := m.load (img + 4) 4

def pixels (m : Memory) (img : ℕ) : ℕ := m.load (img + 8) 8

def setWidth (m : Memory) (img v : ℕ) : Memory := m.store img 4 v

def setHeight (m : Memory) (img v : ℕ) : Memory := m.store (img + 4) 4 v

def setPixels (m : Memory) (img v : ℕ) : Memory := m.store (img + 8) 8 v

/-- The address of `img->pixels[i]`. -/
def pixelAddr (m : Memory) (img i : ℕ) : ℕ := u64 (pixels m img + 4 * u32 i)

/-- `img->pixels[y * img->width + x]`, as `bmp_draw` reads it. -/
def pixelAt (m : Memory) (img x y : ℕ) : ℕ := m.load (pixelAddr m img (y * width m img + x)) 4

/-! ### Decoding -/

/-- `(a << 24) | (r << 16) | (g << 8) | b`. -/
def color (a r g b : ℕ) : ℕ := a <<< 24 ||| r <<< 16 ||| g <<< 8 ||| b

/-- One round of the loop over the pixels of a row, with the pointer `pixel_data`. -/
def bmp_parse.pixel (img width target_y bpp : ℕ) (s : Memory × ℕ) (x : ℕ) : Memory × ℕ :=
  let (m, pixel_data) := s
  let b := m pixel_data
  let g := m (u64 (pixel_data + 1))
  let r := m (u64 (pixel_data + 2))
  let pixel_data := u64 (pixel_data + 3)
  let pixel_data := if bpp = 4 then u64 (pixel_data + 1) else pixel_data
  (m.store (pixelAddr m img (target_y * width + x)) 4 (color 255 r.toNat g.toNat b.toNat),
    pixel_data)

/-- The row of the image that the row `y` of the file is. -/
def targetRow (is_bottom_up : Bool) (height y : ℕ) : ℕ := if is_bottom_up then height - 1 - y else y

/-- One round of the loop over the rows. -/
def bmp_parse.row (img width height bpp padding : ℕ) (is_bottom_up : Bool) (s : Memory × ℕ)
    (y : ℕ) : Memory × ℕ :=
  let (m, pixel_data) :=
    (List.range width).foldl (bmp_parse.pixel img width (targetRow is_bottom_up height y) bpp) s
  (m, u64 (pixel_data + padding))

/-- `bmp_parse` from the first allocation on: the pointer returned, 0 for `NULL`, and the memory
afterwards; `none` when a walk of the heap takes more than `n` rounds. -/
def bmp_parse.create (n heap_start : ℕ) (m : Memory) (infoHeader width height : ℕ)
    (is_bottom_up : Bool) (pixel_data : ℕ) : Option (ℕ × Memory) := do
  let (img, m) ← Heap.kmalloc n m heap_start imageSize
  let m := setHeight (setWidth m img width) img height
  let (buffer, m) ← Heap.kmalloc n m heap_start (u32 (width * height * 4))
  let m := setPixels m img buffer
  if buffer = 0 then
    let m ← Heap.kfree n m heap_start img
    some (0, m)
  else
    let bpp := biBitCount m infoHeader / 8
    let padding := (4 - u32 (width * bpp) % 4) % 4
    some (img, ((List.range height).foldl
      (bmp_parse.row img width height bpp padding is_bottom_up) (m, pixel_data)).1)

/-- `(height_raw > 0) ? height_raw : -height_raw`, a `uint32_t`. -/
def bmp_parse.height (height_raw : ℤ) : ℕ :=
  ((if 0 < height_raw then height_raw else -height_raw) % 2 ^ 32).toNat

/-- The size of the data is not looked at. -/
def bmp_parse (n heap_start : ℕ) (m : Memory) (data _size : ℕ) : Option (ℕ × Memory) :=
  let infoHeader := u64 (data + 14)
  if data = 0 then some (0, m)
  else if bfType m data ≠ 0x4D42 then some (0, m)
  else if biBitCount m infoHeader ≠ 24 ∧ biBitCount m infoHeader ≠ 32 then some (0, m)
  else if biCompression m infoHeader ≠ 0 then some (0, m)
  else
    bmp_parse.create n heap_start m infoHeader (biWidth m infoHeader)
      (bmp_parse.height (biHeight m infoHeader)) (decide (0 < biHeight m infoHeader))
      (u64 (data + bfOffBits m data))

/-! ### Encoding -/

structure Pixel where
  red : Byte
  green : Byte
  blue : Byte
  alpha : Byte

/-- A picture whose pixels fit a buffer of fewer than `2 ^ 32` bytes. -/
structure Picture where
  width : ℕ
  height : ℕ
  pixel : ℕ → ℕ → Pixel
  width_pos : 0 < width
  height_pos : 0 < height
  small : width * height * 4 < 2 ^ 32

/-- Bits per pixel, 32 or 24, and the order of the rows. -/
structure Layout where
  deep : Bool
  bottomUp : Bool

/-- Bytes per pixel. -/
def Layout.bpp (L : Layout) : ℕ := if L.deep then 4 else 3

/-- The bytes that fill up a row to a multiple of 4. -/
def Layout.padding (L : Layout) (width : ℕ) : ℕ := (4 - width * L.bpp % 4) % 4

/-- The bytes of a row. -/
def Layout.stride (L : Layout) (width : ℕ) : ℕ := width * L.bpp + L.padding width

/-- The `k` bytes of a number, the least significant one first. -/
def littleEndian (k n : ℕ) : List Byte := (List.range k).map fun i => BitVec.ofNat 8 (n / 256 ^ i)

def Layout.header (L : Layout) (p : Picture) : List Byte :=
  [0x42, 0x4D] ++ littleEndian 4 (54 + L.stride p.width * p.height) ++ littleEndian 4 0 ++
    littleEndian 4 54 ++ littleEndian 4 40 ++ littleEndian 4 p.width ++
    littleEndian 4 (if L.bottomUp then p.height else 2 ^ 32 - p.height) ++ littleEndian 2 1 ++
    littleEndian 2 (8 * L.bpp) ++ littleEndian 4 0 ++ littleEndian 4 0 ++ List.replicate 16 0

def Layout.pixelBytes (L : Layout) (c : Pixel) : List Byte :=
  if L.deep then [c.blue, c.green, c.red, c.alpha] else [c.blue, c.green, c.red]

/-- The row `y` of the file. -/
def Layout.row (L : Layout) (p : Picture) (y : ℕ) : List Byte :=
  ((List.range p.width).flatMap fun x =>
    L.pixelBytes (p.pixel x (targetRow L.bottomUp p.height y))) ++
    List.replicate (L.padding p.width) 0

def encode (L : Layout) (p : Picture) : List Byte :=
  L.header p ++ (List.range p.height).flatMap (L.row p)

/-- `(n >> shift) & 0xFF`. -/
def img2c.byte (n : ℤ) (shift : ℕ) : Byte := BitVec.ofInt 8 (n >>> shift)

/-- The bytes `img2c.py` writes. -/
def img2c (p : Picture) : List Byte :=
  let file_size : ℤ := 54 + p.width * p.height * 4
  let width : ℤ := p.width
  let height : ℤ := p.height
  let header : List Byte :=
    [0x42, 0x4D,
      img2c.byte file_size 0, img2c.byte file_size 8, img2c.byte file_size 16,
      img2c.byte file_size 24,
      0x00, 0x00, 0x00, 0x00,
      0x36, 0x00, 0x00, 0x00,
      0x28, 0x00, 0x00, 0x00,
      img2c.byte width 0, img2c.byte width 8, img2c.byte width 16, img2c.byte width 24,
      img2c.byte (0 - height) 0, img2c.byte (0 - height) 8, img2c.byte (0 - height) 16,
      img2c.byte (0 - height) 24,
      0x01, 0x00,
      0x20, 0x00,
      0x00, 0x00, 0x00, 0x00,
      0x00, 0x00, 0x00, 0x00,
      0x00, 0x00, 0x00, 0x00, 0x00, 0x00, 0x00, 0x00, 0x00, 0x00, 0x00, 0x00, 0x00, 0x00, 0x00,
      0x00]
  let data := (List.range p.height).flatMap fun y => (List.range p.width).map fun x => p.pixel x y
  header ++ data.flatMap fun c => [c.blue, c.green, c.red, c.alpha]

end Bmp
