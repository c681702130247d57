import LySystem.Gpu.Bmp

/-!
# Decoding what was encoded

The rows of an encoded picture lie one after the other at a distance of one stride, and the
decoder stores the pixels of the row `y` of the file in the row `targetRow` of the image.
-/

namespace Bmp

open Heap Transition

/-! ### Lists of pieces of one length -/

theorem getElem?_flatMap {α β : Type*} {l : List α} {f : α → List β} {k i j : ℕ}
    (hlen : ∀ a ∈ l, (f a).length = k) (hj : j < k) :
  (l.flatMap f)[i * k + j]? = l[i]?.bind fun a => (f a)[j]?
  := by
  induction l generalizing i with
  | nil => simp
  | cons a l ih =>
      have ha := hlen a List.mem_cons_self
      rw [List.flatMap_cons]
      cases i with
      | zero =>
          rw [Nat.zero_mul, Nat.zero_add, List.getElem?_append_left (by omega)]
          rfl
      | succ i =>
          have hsplit : (i + 1) * k + j = k + (i * k + j) := by
            rw [Nat.succ_mul]
            omega
          rw [hsplit, ← ha, List.getElem?_append_right (by omega), Nat.add_sub_cancel_left, ha,
            ih fun b hb => hlen b (List.mem_cons_of_mem _ hb)]
          rfl

theorem length_flatMap {α β : Type*} {l : List α} {f : α → List β} {k : ℕ}
    (hlen : ∀ a ∈ l, (f a).length = k) :
  (l.flatMap f).length = l.length * k
  := by
  induction l with
  | nil => simp
  | cons a l ih =>
      rw [List.flatMap_cons, List.length_append, hlen a List.mem_cons_self,
        ih fun b hb => hlen b (List.mem_cons_of_mem _ hb), List.length_cons, Nat.succ_mul]
      omega

/-! ### The bytes of an encoded picture -/

theorem length_littleEndian (k n : ℕ) :
  (littleEndian k n).length = k
  := by
  simp [littleEndian]

section

variable (L : Layout) (p : Picture)

theorem length_header :
  (L.header p).length = 54
  := by
  simp [Layout.header, length_littleEndian]

theorem length_pixelBytes (c : Pixel) :
  (L.pixelBytes c).length = L.bpp
  := by
  rw [Layout.pixelBytes, Layout.bpp]
  split_ifs <;> rfl

theorem length_row (y : ℕ) :
  (L.row p y).length = L.stride p.width
  := by
  rw [Layout.row, List.length_append, length_flatMap fun _ _ => length_pixelBytes L _,
    List.length_range, List.length_replicate, Layout.stride]

theorem length_encode :
  (encode L p).length = 54 + p.height * L.stride p.width
  := by
  rw [encode, List.length_append, length_header, length_flatMap fun y _ => length_row L p y,
    List.length_range]

/-- The byte `j` of the pixel `x` of the row `y` of the file. -/
theorem getElem?_encode {x y j : ℕ} (hx : x < p.width) (hy : y < p.height) (hj : j < L.bpp) :
  (encode L p)[54 + (y * L.stride p.width + (x * L.bpp + j))]? =
    (L.pixelBytes (p.pixel x (targetRow L.bottomUp p.height y)))[j]?
  := by
  have hrow : x * L.bpp + j < p.width * L.bpp := by
    have := Nat.mul_le_mul_right L.bpp (Nat.succ_le_of_lt hx)
    rw [Nat.succ_mul] at this
    omega
  have hstride : x * L.bpp + j < L.stride p.width := by
    rw [Layout.stride]
    omega
  rw [encode, List.getElem?_append_right (by rw [length_header]; omega), length_header,
    Nat.add_sub_cancel_left, getElem?_flatMap (fun y _ => length_row L p y) hstride,
    List.getElem?_range hy, Option.bind_some, Layout.row, List.getElem?_append_left,
    getElem?_flatMap (fun _ _ => length_pixelBytes L _) hj, List.getElem?_range hx,
    Option.bind_some]
  rw [length_flatMap fun _ _ => length_pixelBytes L _, List.length_range]
  exact hrow

end

/-! ### Bytes in memory -/

/-- The memory holds the bytes from the address `a` on. -/
def Stored (m : Memory) (a : ℕ) (bytes : List Byte) : Prop :=
  ∀ i b, bytes[i]? = some b → m (a + i) = b

theorem stored_append {m : Memory} {a : ℕ} {l l' : List Byte} :
  Stored m a (l ++ l') ↔ Stored m a l ∧ Stored m (a + l.length) l'
  := by
  constructor
  · intro h
    constructor
    · intro i b hb
      apply h
      rw [List.getElem?_append_left (List.getElem?_eq_some_iff.mp hb).1, hb]
    · intro i b hb
      rw [Nat.add_assoc]
      apply h
      rw [List.getElem?_append_right (by omega), Nat.add_sub_cancel_left, hb]
  · rintro ⟨hl, hr⟩ i b hb
    by_cases hi : i < l.length
    · rw [List.getElem?_append_left hi] at hb
      apply hl i b hb
    · rw [List.getElem?_append_right (by omega)] at hb
      rw [show a + i = a + l.length + (i - l.length) by omega]
      apply hr _ b hb

/-- The bytes of a number are read back as the number. -/
theorem Stored.load {m : Memory} {a k n : ℕ} (h : Stored m a (littleEndian k n))
    (hn : n < 256 ^ k) :
  m.load a k = n
  := by
  rw [← Nat.mod_eq_of_lt hn]
  apply Memory.load_of_digits
  intro i hi
  apply h
  rw [littleEndian, List.getElem?_map, List.getElem?_range hi, Option.map_some]

/-! ### What `img2c.py` writes -/

theorem img2c_byte {z : ℤ} {n i : ℕ} (hz : z % 2 ^ 32 = n % 2 ^ 32) (hi : i < 4) :
  img2c.byte z (8 * i) = BitVec.ofNat 8 (n / 256 ^ i)
  := by
  apply BitVec.eq_of_toNat_eq
  rw [img2c.byte, Int.shiftRight_eq_div_pow, BitVec.toNat_ofInt, BitVec.toNat_ofNat]
  interval_cases i <;> norm_num <;> omega

theorem littleEndian_four {z : ℤ} {n : ℕ} (hz : z % 2 ^ 32 = n % 2 ^ 32) :
  littleEndian 4 n = [img2c.byte z 0, img2c.byte z 8, img2c.byte z 16, img2c.byte z 24]
  := by
  have h₀ : img2c.byte z 0 = _ := img2c_byte hz (i := 0) (by omega)
  have h₁ : img2c.byte z 8 = _ := img2c_byte hz (i := 1) (by omega)
  have h₂ : img2c.byte z 16 = _ := img2c_byte hz (i := 2) (by omega)
  have h₃ : img2c.byte z 24 = _ := img2c_byte hz (i := 3) (by omega)
  rw [h₀, h₁, h₂, h₃]
  rfl

/-- The 32-bit layout whose first row is the top one is what `img2c.py` writes. -/
theorem img2c_eq (p : Picture) :
  img2c p = encode ⟨true, false⟩ p
  := by
  have hpad : Layout.padding ⟨true, false⟩ p.width = 0 := by
    rw [Layout.padding, Layout.bpp]
    simp
  have hstride : Layout.stride ⟨true, false⟩ p.width = p.width * 4 := by
    rw [Layout.stride, hpad]
    rfl
  have hrow : Layout.row ⟨true, false⟩ p = fun y =>
      ((List.range p.width).map fun x => p.pixel x y).flatMap fun c =>
        [c.blue, c.green, c.red, c.alpha] := by
    funext y
    rw [Layout.row, hpad, List.replicate_zero, List.append_nil, List.flatMap_map]
    rfl
  have hsize := littleEndian_four (z := 54 + p.width * p.height * 4)
    (n := 54 + p.width * 4 * p.height) (by push_cast; ring_nf)
  have hwidth := littleEndian_four (z := p.width) (n := p.width) rfl
  have hheight := littleEndian_four (z := 0 - p.height) (n := 2 ^ 32 - p.height) (by
    have hlt : p.height < 2 ^ 32 := by
      have := Nat.le_mul_of_pos_left p.height p.width_pos
      have := p.small
      omega
    push_cast [hlt.le]
    omega)
  rw [encode, Layout.header, hstride, hsize, hwidth, if_neg Bool.false_ne_true, hheight, hrow,
    img2c, ← List.flatMap_assoc]
  rfl

/-! ### Colors -/

theorem color_eq {a r g b : ℕ} (hr : r < 2 ^ 8) (hg : g < 2 ^ 8) (hb : b < 2 ^ 8) :
  color a r g b = a * 2 ^ 24 + r * 2 ^ 16 + g * 2 ^ 8 + b
  := by
  rw [color, Nat.or_assoc, ← Nat.shiftLeft_add_eq_or_of_lt (i := 8) (by omega), Nat.or_assoc,
    ← Nat.shiftLeft_add_eq_or_of_lt (i := 16), ← Nat.shiftLeft_add_eq_or_of_lt (i := 24)]
  · simp only [Nat.shiftLeft_eq]
    omega
  · rw [Nat.shiftLeft_eq, Nat.shiftLeft_eq]
    omega
  · rw [Nat.shiftLeft_eq]
    omega

/-- The alpha, red, green and blue of a color. -/
def channels (v : ℕ) : ℕ × Byte × Byte × Byte :=
  (v >>> 24, BitVec.ofNat 8 (v >>> 16), BitVec.ofNat 8 (v >>> 8), BitVec.ofNat 8 v)

/-- The color stored for a pixel. -/
def Pixel.argb (c : Pixel) : ℕ := color 255 c.red.toNat c.green.toNat c.blue.toNat

theorem Pixel.argb_eq (c : Pixel) :
  c.argb = 255 * 2 ^ 24 + c.red.toNat * 2 ^ 16 + c.green.toNat * 2 ^ 8 + c.blue.toNat
  := color_eq c.red.isLt c.green.isLt c.blue.isLt

theorem Pixel.argb_lt (c : Pixel) :
  c.argb < 256 ^ 4
  := by
  have := c.red.isLt
  have := c.green.isLt
  have := c.blue.isLt
  rw [c.argb_eq]
  omega

theorem Pixel.channels_argb (c : Pixel) :
  channels c.argb = (255, c.red, c.green, c.blue)
  := by
  have hr := c.red.isLt
  have hg := c.green.isLt
  have hb := c.blue.isLt
  rw [channels, c.argb_eq]
  simp only [Nat.shiftRight_eq_div_pow, Prod.mk.injEq]
  refine ⟨by omega, ?_, ?_, ?_⟩ <;>
  · apply BitVec.eq_of_toNat_eq
    rw [BitVec.toNat_ofNat]
    omega

/-! ### The loops of the decoder -/

theorem targetRow_lt {b : Bool} {h y : ℕ} (hy : y < h) :
  targetRow b h y < h
  := by
  rw [targetRow]
  split_ifs <;> omega

theorem targetRow_targetRow {b : Bool} {h y : ℕ} (hy : y < h) :
  targetRow b h (targetRow b h y) = y
  := by
  rw [targetRow, targetRow]
  split_ifs <;> omega

/-- The encoded picture lies at `data`, the image `img` has the pixels `buffer`, and the three
lie apart. -/
structure Ready (L : Layout) (p : Picture) (data img buffer : ℕ) (m : Memory) : Prop where
  stored : Stored m data (encode L p)
  apart : ∀ i < (encode L p).length,
    data + i < buffer ∨ buffer + p.width * p.height * 4 ≤ data + i
  image : img + imageSize ≤ buffer ∨ buffer + p.width * p.height * 4 ≤ img
  pixels_eq : pixels m img = buffer
  data_end : data + (encode L p).length < 2 ^ 64
  buffer_end : buffer + p.width * p.height * 4 < 2 ^ 64

/-- The image `img` is the picture, with every pixel opaque. -/
structure Decoded (m : Memory) (img : ℕ) (p : Picture) : Prop where
  width_eq : width m img = p.width
  height_eq : height m img = p.height
  pixel_eq : ∀ x < p.width, ∀ y < p.height,
    channels (pixelAt m img x y) =
      (255, (p.pixel x y).red, (p.pixel x y).green, (p.pixel x y).blue)

/-- The rows before `y` are decoded, and of the row `y` the pixels before `x`. -/
structure Decoding (L : Layout) (p : Picture) (data buffer : ℕ) (m₀ : Memory) (y x : ℕ)
    (s : Memory × ℕ) : Prop where
  pointer : s.2 = data + 54 + (y * L.stride p.width + x * L.bpp)
  frame : ∀ a, a < buffer ∨ buffer + p.width * p.height * 4 ≤ a → s.1 a = m₀ a
  filled : ∀ x' y', x' < p.width → y' < y ∨ y' = y ∧ x' < x →
    s.1.load (buffer + 4 * (targetRow L.bottomUp p.height y' * p.width + x')) 4 =
      (p.pixel x' (targetRow L.bottomUp p.height y')).argb

section

variable {L : Layout} {p : Picture} {data img buffer : ℕ} {m : Memory} {s : Memory × ℕ} {x y : ℕ}

theorem cell_lt {h w : ℕ} (hy : y < h) (hx : x < w) :
  y * w + x < w * h
  := by
  have := Nat.mul_le_mul_right w (Nat.succ_le_of_lt hy)
  rw [Nat.succ_mul, Nat.mul_comm h] at this
  omega

theorem cell_inj {w x' y' : ℕ} (hx : x < w) (hx' : x' < w) (h : y * w + x = y' * w + x') :
  y = y' ∧ x = x'
  := by
  have hdiv := congrArg (· / w) h
  have hmod := congrArg (· % w) h
  have hw : 0 < w := by omega
  simp only [Nat.mul_comm _ w, Nat.mul_add_div hw, Nat.mul_add_mod, Nat.div_eq_of_lt hx,
    Nat.div_eq_of_lt hx', Nat.mod_eq_of_lt hx, Nat.mod_eq_of_lt hx', Nat.add_zero] at hdiv hmod
  exact ⟨hdiv, hmod⟩

/-- The byte `j` of the pixel at the pointer. -/
theorem Decoding.byte (h : Decoding L p data buffer m y x s) (hr : Ready L p data img buffer m)
    (hx : x < p.width) (hy : y < p.height) {j : ℕ} {b : Byte}
    (hb : (L.pixelBytes (p.pixel x (targetRow L.bottomUp p.height y)))[j]? = some b) :
  s.2 + j < data + (encode L p).length ∧ s.1 (s.2 + j) = b
  := by
  have hj : j < L.bpp := by
    rw [← length_pixelBytes L]
    exact (List.getElem?_eq_some_iff.mp hb).1
  rw [← getElem?_encode L p hx hy hj] at hb
  have hlen := (List.getElem?_eq_some_iff.mp hb).1
  have haddr : s.2 + j = data + (54 + (y * L.stride p.width + (x * L.bpp + j))) := by
    rw [h.pointer]
    omega
  rw [haddr, h.frame _ (hr.apart _ hlen)]
  exact ⟨by omega, hr.stored _ _ hb⟩

theorem Decoding.pixel (h : Decoding L p data buffer m y x s) (hr : Ready L p data img buffer m)
    (hx : x < p.width) (hy : y < p.height) :
  Decoding L p data buffer m y (x + 1)
    (bmp_parse.pixel img p.width (targetRow L.bottomUp p.height y) L.bpp s x)
  := by
  set c := p.pixel x (targetRow L.bottomUp p.height y) with hc
  obtain ⟨hlt₀, hblue⟩ := h.byte hr hx hy (j := 0) (b := c.blue) (by
    rw [Layout.pixelBytes]; split_ifs <;> rfl)
  rw [Nat.add_zero] at hblue
  obtain ⟨hlt₁, hgreen⟩ := h.byte hr hx hy (j := 1) (b := c.green) (by
    rw [Layout.pixelBytes]; split_ifs <;> rfl)
  obtain ⟨hlt₂, hred⟩ := h.byte hr hx hy (j := 2) (b := c.red) (by
    rw [Layout.pixelBytes]; split_ifs <;> rfl)
  have hdata := hr.data_end
  have hbuffer := hr.buffer_end
  have hsmall := p.small
  have hcell := cell_lt (targetRow_lt (b := L.bottomUp) hy) hx
  have hpix : pixelAddr s.1 img (targetRow L.bottomUp p.height y * p.width + x) =
      buffer + 4 * (targetRow L.bottomUp p.height y * p.width + x) := by
    have himg : pixels s.1 img = buffer := by
      rw [← hr.pixels_eq]
      apply Memory.load_congr
      intro i hi
      apply h.frame
      have := hr.image
      rw [imageSize] at this
      omega
    rw [pixelAddr, himg, u32_of_lt (by omega), u64_of_lt (by omega)]
  have hnext : (bmp_parse.pixel img p.width (targetRow L.bottomUp p.height y) L.bpp s x).2 =
      s.2 + L.bpp := by
    rw [bmp_parse.pixel]
    dsimp only
    by_cases hdeep : L.deep
    · obtain ⟨hlt₃, -⟩ := h.byte hr hx hy (j := 3) (b := c.alpha) (by
        rw [Layout.pixelBytes, if_pos hdeep]; rfl)
      rw [Layout.bpp, if_pos hdeep, if_pos rfl, u64_of_lt (n := s.2 + 3) (by omega),
        u64_of_lt (by omega)]
    · rw [Layout.bpp, if_neg hdeep, if_neg (by decide), u64_of_lt (by omega)]
  have hmem : (bmp_parse.pixel img p.width (targetRow L.bottomUp p.height y) L.bpp s x).1 =
      s.1.store (buffer + 4 * (targetRow L.bottomUp p.height y * p.width + x)) 4 c.argb := by
    rw [bmp_parse.pixel]
    dsimp only
    rw [hpix, u64_of_lt (by omega), u64_of_lt (by omega), hred, hgreen, hblue]
    rfl
  constructor
  · rw [hnext, h.pointer, Nat.succ_mul]
    omega
  · intro a ha
    rw [hmem, Memory.store_outside _ _ (by omega)]
    apply h.frame a ha
  · intro x' y' hx' hdone
    rw [hmem]
    by_cases heq : y' = y ∧ x' = x
    · obtain ⟨rfl, rfl⟩ := heq
      rw [Memory.load_store, Nat.mod_eq_of_lt (Pixel.argb_lt _)]
    · have hne : targetRow L.bottomUp p.height y' * p.width + x' ≠
          targetRow L.bottomUp p.height y * p.width + x := by
        intro hsame
        obtain ⟨hrow, rfl⟩ := cell_inj hx' hx hsame
        apply heq
        have hy' : y' < p.height := by omega
        rw [← targetRow_targetRow (b := L.bottomUp) hy', hrow, targetRow_targetRow hy]
        exact ⟨rfl, rfl⟩
      rw [Memory.load_store_disjoint _ _ (by omega)]
      apply h.filled x' y' hx'
      omega

theorem Decoding.row (h : Decoding L p data buffer m y 0 s) (hr : Ready L p data img buffer m)
    (hy : y < p.height) :
  Decoding L p data buffer m (y + 1) 0
    (bmp_parse.row img p.width p.height L.bpp (L.padding p.width) L.bottomUp s y)
  := by
  have hrow := Loop.foldl_range (I := Decoding L p data buffer m y) h
    (f := bmp_parse.pixel img p.width (targetRow L.bottomUp p.height y) L.bpp)
    fun x hx s hs => hs.pixel hr hx hy
  set t := (List.range p.width).foldl
    (bmp_parse.pixel img p.width (targetRow L.bottomUp p.height y) L.bpp) s with ht
  have hend : (y + 1) * L.stride p.width ≤ p.height * L.stride p.width :=
    Nat.mul_le_mul_right _ hy
  have hnext : t.2 + L.padding p.width = data + 54 + (y + 1) * L.stride p.width := by
    rw [hrow.pointer, Nat.succ_mul, Layout.stride]
    omega
  have hlen := length_encode L p
  have hdata := hr.data_end
  constructor
  · rw [bmp_parse.row, ← ht]
    dsimp only
    rw [u64_of_lt (by omega), hnext]
    omega
  · intro a ha
    apply hrow.frame a ha
  · intro x' y' hx' hdone
    apply hrow.filled x' y' hx'
    omega

/-- What the loop over the rows leaves. -/
theorem Ready.decoded (hr : Ready L p data img buffer m) :
  Decoding L p data buffer m p.height 0
    ((List.range p.height).foldl
      (bmp_parse.row img p.width p.height L.bpp (L.padding p.width) L.bottomUp) (m, data + 54))
  := by
  apply Loop.foldl_range (I := fun y => Decoding L p data buffer m y 0)
  · constructor
    · simp
    · intro a _
      rfl
    · omega
  · intro y hy s hs
    apply hs.row hr hy

/-! ### The header -/

theorem Picture.height_lt (p : Picture) :
  p.height < 2 ^ 30
  := by
  have := Nat.le_mul_of_pos_left p.height p.width_pos
  have := p.small
  omega

theorem Picture.width_lt (p : Picture) :
  p.width < 2 ^ 30
  := by
  have := Nat.le_mul_of_pos_right p.width p.height_pos
  have := p.small
  omega

theorem Layout.bpp_eq (L : Layout) :
  L.bpp = 3 ∨ L.bpp = 4
  := by
  rw [Layout.bpp]
  split_ifs
  · right
    rfl
  · left
    rfl

theorem bmod_small {h : ℕ} (b : Bool) (hpos : 0 < h) (hlt : h < 2 ^ 30) :
  Int.bmod (if b then h else 2 ^ 32 - h : ℕ) (2 ^ 32) = if b then (h : ℤ) else -h
  := by
  rw [Int.bmod_def]
  cases b
  · norm_num
    omega
  · norm_num
    omega

/-- The number of rows and their order, from the signed height. -/
theorem height_sign {h : ℕ} (b : Bool) (hpos : 0 < h) (hlt : h < 2 ^ 30) {raw : ℤ}
    (hraw : raw = if b then (h : ℤ) else -h) :
  decide (0 < raw) = b ∧ bmp_parse.height raw = h
  := by
  subst hraw
  rw [bmp_parse.height]
  cases b
  · have hneg : ¬ (0 : ℤ) < -h := by omega
    simp only [Bool.false_eq_true, if_false, if_neg hneg, decide_eq_false hneg, true_and]
    omega
  · have hneg : (0 : ℤ) < h := by omega
    simp only [if_true, if_pos hneg, decide_eq_true hneg, true_and]
    omega

/-- The decoder reads the header as it was written. -/
theorem header_read (h : Stored m data (encode L p)) :
  bfType m data = 0x4D42 ∧ bfOffBits m data = 54 ∧ biWidth m (data + 14) = p.width ∧
    biHeight m (data + 14) = (if L.bottomUp then (p.height : ℤ) else -p.height) ∧
    biBitCount m (data + 14) = 8 * L.bpp ∧ biCompression m (data + 14) = 0
  := by
  have hwidth := p.width_lt
  have hheight := p.height_lt
  have hpos := p.height_pos
  rw [encode, Layout.header] at h
  simp only [stored_append, List.length_append, length_littleEndian, List.length_cons,
    List.length_nil, Nat.reduceAdd] at h
  obtain ⟨⟨⟨⟨⟨⟨⟨⟨⟨⟨⟨⟨htype, -⟩, -⟩, hoff⟩, -⟩, hw⟩, hh⟩, -⟩, hbits⟩, hcompr⟩, -⟩, -⟩, -⟩ := h
  have htype : Stored m data (littleEndian 2 0x4D42) := htype
  refine ⟨?_, ?_, ?_, ?_, ?_, ?_⟩
  · rw [bfType, htype.load (by omega)]
  · rw [bfOffBits, hoff.load (by omega)]
  · rw [biWidth, Nat.add_assoc, hw.load (by omega)]
  · rw [← bmod_small L.bottomUp hpos hheight, ← hh.load (by split_ifs <;> omega)]
    rfl
  · rw [biBitCount, Nat.add_assoc, hbits.load]
    rcases L.bpp_eq with hb | hb <;> omega
  · rw [biCompression, Nat.add_assoc, hcompr.load (by omega)]

/-- The decoder from the two allocations on. -/
theorem create_eq {n heap_start infoHeader width height pixel_data : ℕ} {up : Bool}
    {m₁ m₂ : Memory} (himg : Heap.kmalloc n m heap_start imageSize = some (img, m₁))
    (hbuf : Heap.kmalloc n (setHeight (setWidth m₁ img width) img height) heap_start
      (width * height * 4) = some (buffer, m₂)) (hnull : buffer ≠ 0)
    (hsmall : width * height * 4 < 2 ^ 32)
    (hbits : biBitCount (setPixels m₂ img buffer) infoHeader = 8 * L.bpp)
    (hwide : width * L.bpp < 2 ^ 32) :
  bmp_parse.create n heap_start m infoHeader width height up pixel_data =
    some (img, ((List.range height).foldl
      (bmp_parse.row img width height L.bpp (L.padding width) up)
      (setPixels m₂ img buffer, pixel_data)).1)
  := by
  have hbpp : 8 * L.bpp / 8 = L.bpp := by omega
  simp only [bmp_parse.create, himg, Option.bind_eq_bind, Option.bind_some, u32_of_lt hsmall, hbuf,
    if_neg hnull, hbits, hbpp, u32_of_lt hwide]
  rfl

theorem bmp_parse_eq {n heap_start size : ℕ} {m₁ m₂ : Memory}
    (h : Stored m data (encode L p)) (hdata : data ≠ 0)
    (hend : data + (encode L p).length < 2 ^ 64)
    (himg : Heap.kmalloc n m heap_start imageSize = some (img, m₁))
    (hbuf : Heap.kmalloc n (setHeight (setWidth m₁ img p.width) img p.height) heap_start
      (p.width * p.height * 4) = some (buffer, m₂)) (hnull : buffer ≠ 0)
    (h₂ : Stored (setPixels m₂ img buffer) data (encode L p)) :
  bmp_parse n heap_start m data size =
    some (img, ((List.range p.height).foldl
      (bmp_parse.row img p.width p.height L.bpp (L.padding p.width) L.bottomUp)
      (setPixels m₂ img buffer, data + 54)).1)
  := by
  obtain ⟨htype, hoff, hw, hh, hbits, hcompr⟩ := header_read h
  obtain ⟨-, -, -, -, hbits₂, -⟩ := header_read h₂
  obtain ⟨hup, hheight⟩ := height_sign L.bottomUp p.height_pos p.height_lt hh
  have hlen := length_encode L p
  have hwide : p.width * L.bpp < 2 ^ 32 := by
    have hlt := p.width_lt
    rcases L.bpp_eq with hb | hb <;> rw [hb] <;> omega
  have hdepth : ¬ (8 * L.bpp ≠ 24 ∧ 8 * L.bpp ≠ 32) := by
    rcases L.bpp_eq with hb | hb <;> omega
  rw [bmp_parse, u64_of_lt (n := data + 14) (by omega), if_neg hdata, htype, hbits, hcompr, hup,
    hheight, hw, hoff, u64_of_lt (by omega), if_neg (by simp), if_neg hdepth, if_neg (by simp)]
  exact create_eq himg hbuf hnull p.small hbits₂ hwide

/-- What the decoder returns is the picture. -/
theorem Ready.picture (hr : Ready L p data img buffer m) (hw : width m img = p.width)
    (hh : height m img = p.height) {m' : Memory}
    (hm : m' = ((List.range p.height).foldl
      (bmp_parse.row img p.width p.height L.bpp (L.padding p.width) L.bottomUp)
      (m, data + 54)).1) :
  Decoded m' img p
  := by
  have hdone := hr.decoded
  have himage := hr.image
  have hbuffer := hr.buffer_end
  have hsmall := p.small
  rw [imageSize] at himage
  have hframe : ∀ i < 16, m' (img + i) = m (img + i) := by
    intro i hi
    rw [hm]
    apply hdone.frame
    omega
  have hwidth : width m' img = p.width := by
    rw [← hw]
    apply Memory.load_congr
    intro i hi
    exact hframe i (by omega)
  have hpixels : pixels m' img = buffer := by
    rw [← hr.pixels_eq]
    apply Memory.load_congr
    intro i hi
    rw [Nat.add_assoc]
    exact hframe (8 + i) (by omega)
  constructor
  · apply hwidth
  · rw [← hh]
    apply Memory.load_congr
    intro i hi
    rw [Nat.add_assoc]
    exact hframe (4 + i) (by omega)
  · intro x hx y hy
    have hrow := targetRow_lt (b := L.bottomUp) hy
    have hcell := cell_lt hy hx
    have hfilled := hdone.filled x (targetRow L.bottomUp p.height y) hx (Or.inl hrow)
    rw [targetRow_targetRow hy, ← hm] at hfilled
    rw [pixelAt, pixelAddr, hwidth, hpixels, u32_of_lt (by omega), u64_of_lt (by omega), hfilled,
      Pixel.channels_argb]

end

/-! ### The round trip -/

theorem setHeight_outside {m : Memory} {img w h x : ℕ} (hx : x < img ∨ img + imageSize ≤ x) :
  setHeight (setWidth m img w) img h x = m x
  := by
  rw [imageSize] at hx
  rw [setHeight, Memory.store_outside _ _ (by omega), setWidth, Memory.store_outside _ _ (by omega)]

/-- After the two allocations the decoder is ready. -/
theorem ready_allocated {L : Layout} {p : Picture} {n lo hi data img buffer : ℕ} {s : State}
    {bs : List FirstFit.Block} (h : Holds 1 lo hi s bs) (hlt : hi < 2 ^ 64) {m₁ m₂ : Memory}
    (hstored : Stored s.mem data (encode L p))
    (hsafe : ∀ i < (encode L p).length, s.Safe lo hi (data + i))
    (hend : data + (encode L p).length < 2 ^ 64)
    (himg : Heap.kmalloc n s.mem lo imageSize = some (img, m₁)) (hnull₁ : img ≠ 0)
    (hbuf : Heap.kmalloc n (setHeight (setWidth m₁ img p.width) img p.height) lo
      (p.width * p.height * 4) = some (buffer, m₂)) (hnull₂ : buffer ≠ 0) :
  Ready L p data img buffer (setPixels m₂ img buffer) ∧
    width (setPixels m₂ img buffer) img = p.width ∧
    height (setPixels m₂ img buffer) img = p.height
  := by
  obtain ⟨t₁, rfl, ⟨bs₁, h₁⟩, hlive₁, hlo₁, hhi₁, hkept₁⟩ :=
    h.kmalloc_given (one_dvd 8) hlt (by decide) himg hnull₁
  have hpos : 0 < p.width * p.height * 4 :=
    Nat.mul_pos (Nat.mul_pos p.width_pos p.height_pos) (by decide)
  have h₁' := h₁.stores hlive₁ fun _ hx => setHeight_outside (w := p.width) (h := p.height) hx
  obtain ⟨t₂, rfl, -, -, hlo₂, hhi₂, hkept₂⟩ :=
    h₁'.kmalloc_given (one_dvd 8) hlt p.small hbuf hnull₂
  have himage : ∀ i < imageSize, (img + i < buffer ∨ buffer + p.width * p.height * 4 ≤ img + i) ∧
      t₂.mem (img + i) = setHeight (setWidth t₁.mem img p.width) img p.height (img + i) := by
    intro i hi
    obtain ⟨happ, hmem, -⟩ := hkept₂ (img + i) (Or.inr ⟨img, _, hlive₁, by omega, by omega⟩)
    exact ⟨happ, hmem⟩
  have hside : img + imageSize ≤ buffer ∨ buffer + p.width * p.height * 4 ≤ img := by
    have h₀ := (himage 0 (by decide)).1
    by_contra hover
    have := (himage (buffer - img) (by omega)).1
    omega
  have hbytes : ∀ i < (encode L p).length,
      (data + i < buffer ∨ buffer + p.width * p.height * 4 ≤ data + i) ∧
      setPixels t₂.mem img buffer (data + i) = s.mem (data + i) := by
    intro i hi
    obtain ⟨happ₁, hmem₁, hsafe₁⟩ := hkept₁ _ (hsafe i hi)
    obtain ⟨happ₂, hmem₂, -⟩ := hkept₂ _ hsafe₁
    have himg : setPixels t₂.mem img buffer (data + i) = t₂.mem (data + i) := by
      rw [imageSize] at happ₁
      rw [setPixels, Memory.store_outside _ _ (by omega)]
    rw [himg, hmem₂, ← hmem₁]
    exact ⟨happ₂, setHeight_outside happ₁⟩
  refine ⟨?_, ?_, ?_⟩
  · constructor
    · intro i b hb
      rw [(hbytes i (List.getElem?_eq_some_iff.mp hb).1).2]
      apply hstored i b hb
    · intro i hi
      exact (hbytes i hi).1
    · apply hside
    · rw [pixels, setPixels, Memory.load_store]
      omega
    · apply hend
    · omega
  · have := p.width_lt
    rw [width, setPixels, Memory.load_store_disjoint _ _ (by omega),
      Memory.load_congr fun i hi => (himage i (by rw [imageSize]; omega)).2, setHeight,
      Memory.load_store_disjoint _ _ (by omega), setWidth, Memory.load_store]
    omega
  · have := p.height_lt
    have hmem : ∀ i < 4, t₂.mem (img + 4 + i) =
        setHeight (setWidth t₁.mem img p.width) img p.height (img + 4 + i) := by
      intro i hi
      rw [Nat.add_assoc]
      exact (himage (4 + i) (by rw [imageSize]; omega)).2
    rw [height, setPixels, Memory.load_store_disjoint _ _ (by omega), Memory.load_congr hmem,
      setHeight, Memory.load_store]
    omega

/-- In every state of a run of the heap, a picture encoded in one of the four layouts, in memory
that the allocator does not give to others, is decoded as the picture it was, when both
allocations succeed.  One of the layouts is what `img2c.py` writes. -/
theorem bmp_parse_encode {n k lo hi : ℕ} {image : Paging.Image} {vm vm' : Paging.Vm}
    {heap_start : ℕ} (hinit : heap_init n image vm lo hi = some (vm', heap_start))
    (hsize : lo + headerSize ≤ hi) (hlt : hi < 2 ^ 64) {ops : List Op} {s : State}
    (hrun : Run (Step heap_start hi) ⟨vm'.mem, fun _ => none⟩ ops s) (L : Layout) (p : Picture)
    {data size img buffer : ℕ} {m₁ m₂ : Memory} (hstored : Stored s.mem data (encode L p))
    (hsafe : ∀ i < (encode L p).length, s.Safe heap_start hi (data + i)) (hdata : data ≠ 0)
    (hend : data + (encode L p).length < 2 ^ 64)
    (himg : Heap.kmalloc k s.mem heap_start imageSize = some (img, m₁)) (hnull₁ : img ≠ 0)
    (hbuf : Heap.kmalloc k (setHeight (setWidth m₁ img p.width) img p.height) heap_start
      (p.width * p.height * 4) = some (buffer, m₂)) (hnull₂ : buffer ≠ 0) :
  (∃ m', bmp_parse k heap_start s.mem data size = some (img, m') ∧ Decoded m' img p) ∧
    img2c p = encode ⟨true, false⟩ p
  := by
  refine ⟨?_, img2c_eq p⟩
  have hmapped : heap_start ≠ 0 := by
    rintro rfl
    cases k with
    | zero => cases himg
    | succ k => exact hnull₁ (Prod.mk.inj (Option.some.inj himg)).1.symm
  obtain ⟨rfl, bs, h⟩ :=
    holds_run hinit hmapped (one_dvd 8) (one_dvd lo) (one_dvd hi) hsize hlt hrun
  obtain ⟨hready, hwidth, hheight⟩ :=
    ready_allocated h hlt hstored hsafe hend himg hnull₁ hbuf hnull₂
  exact ⟨_, bmp_parse_eq hstored hdata hend himg hbuf hnull₂ hready.stored,
    hready.picture hwidth hheight rfl⟩

/-- A red pixel above a blue one. -/
def twoPixels : Picture where
  width := 1
  height := 2
  pixel := fun _ y => if y = 0 then ⟨255, 0, 0, 0⟩ else ⟨0, 0, 255, 0⟩
  width_pos := by decide
  height_pos := by decide
  small := by decide

/-- The memory of the kernel with the picture at the address 10000. -/
def pictureVm : Paging.Vm :=
  { freshVm with
    mem := freshVm.mem.splice 10000 62 fun i => (encode ⟨false, true⟩ twoPixels).getD i 0 }

/-- The 24-bit layout with the last row first, in a heap of one page. -/
theorem bmp_parse_encode_two :
  ∃ m img m', bmp_parse 5 4096 m 10000 62 = some (img, m') ∧ Decoded m' img twoPixels
  := by
  have hpage : (heap_init 5 ⟨Paging.KERNEL_OFFSET, Paging.KERNEL_OFFSET⟩ pictureVm 4096 8192).bind
      (fun r : Paging.Vm × ℕ => (Heap.kmalloc 5 r.1.mem r.2 imageSize).bind fun a =>
        (Heap.kmalloc 5 (setHeight (setWidth a.2 a.1 1) a.1 2) r.2 8).map fun b =>
          (r.2, a.1, b.1, decide (∀ i : ℕ, i < 62 →
            r.1.mem (10000 + i) = (encode ⟨false, true⟩ twoPixels).getD i 0))) =
      some (4096, 4120, 4160, true) := by
    -- 62 bytes are read through three new tables, each 512 stores unless they are one write
    unfold heap_init heap_init.mapPage Paging.map_page Paging.map_page.descend
    simp only [Paging.zeroTable_eq]
    decide +kernel
  obtain ⟨⟨vm', heap_start⟩, hinit, hrest⟩ := Option.bind_eq_some_iff.mp hpage
  obtain ⟨⟨img, m₁⟩, himg, hrest⟩ := Option.bind_eq_some_iff.mp hrest
  obtain ⟨⟨buffer, m₂⟩, hbuf, heq⟩ := Option.map_eq_some_iff.mp hrest
  simp only [Prod.mk.injEq, decide_eq_true_eq] at heq
  obtain ⟨rfl, rfl, rfl, hmem⟩ := heq
  have hlen : (encode ⟨false, true⟩ twoPixels).length = 62 := by decide
  have hstored : Stored vm'.mem 10000 (encode ⟨false, true⟩ twoPixels) := by
    intro i b hb
    have hi := (List.getElem?_eq_some_iff.mp hb).1
    rw [hmem i (by omega), List.getD_eq_getElem?_getD, hb, Option.getD_some]
  exact ⟨_, _, (bmp_parse_encode hinit (by decide) (by decide) (Run.nil _) ⟨false, true⟩ twoPixels
    hstored (fun i _ => Or.inl (Or.inr (by omega))) (by decide) (by omega) himg (by decide) hbuf
    (by decide)).1⟩

end Bmp
