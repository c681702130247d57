import LySystem.Boot.Mbi
import LySystem.Machine.Pointer

/-!
# The screen

`put_pixel` and `get_pixel` of `kernel/GPU/screen.c`, which store and load four bytes whatever the
depth is.  When the bytes of a row fit the pitch and the size of the framebuffer fits 32 bits, a
pixel lies at its offset, and with four bytes for each pixel no two of them overlap.
-/

namespace Screen

open Boot Paging

/-- The address of a pixel; the coordinates are of type `uint32_t`. -/
def pixel_addr (fb : framebuffer_info) (x y : ℕ) : ℕ :=
  u64 (u64 (P2V fb.addr + u32 (y * fb.pitch)) + u32 (x * (fb.bpp / 8)))

def put_pixel (fb : framebuffer_info) (m : Memory) (x y color : ℕ) : Memory :=
  if fb.width ≤ x ∨ fb.height ≤ y then m
  else if fb.addr = 0 then m
  else m.storeAt (pixel_addr fb x y) 4 color

def get_pixel (fb : framebuffer_info) (m : Memory) (x y : ℕ) : ℕ :=
  if fb.width ≤ x ∨ fb.height ≤ y then 0
  else if fb.addr = 0 then 0
  else m.loadAt (pixel_addr fb x y) 4

variable {fb : framebuffer_info} {m : Memory} {x y x' y' : ℕ}

theorem pixel_addr_lt :
  pixel_addr fb x y < 2 ^ 64
  := u64_lt _

theorem put_pixel_outside (hout : fb.width ≤ x ∨ fb.height ≤ y) (v : ℕ) :
  put_pixel fb m x y v = m
  := by
  rw [put_pixel, if_pos hout]

theorem put_pixel_get_pixel :
  put_pixel fb m x y (get_pixel fb m x y) = m
  := by
  rw [put_pixel, get_pixel]
  split_ifs
  · rfl
  · rfl
  · apply Memory.storeAt_loadAt _ pixel_addr_lt (by decide)

theorem put_pixel_put_pixel (v w : ℕ) :
  put_pixel fb (put_pixel fb m x y v) x y w = put_pixel fb m x y w
  := by
  simp only [put_pixel]
  split_ifs
  · rfl
  · rfl
  · apply Memory.storeAt_storeAt _ _ _ pixel_addr_lt (by decide)

/-! ### Where the pixels lie -/

/-- The offset of a pixel in the framebuffer. -/
def offset (fb : framebuffer_info) (x y : ℕ) : ℕ := y * fb.pitch + x * (fb.bpp / 8)

/-- Rows that fit the pitch, and a size that fits a `uint32_t`. -/
structure Rows (fb : framebuffer_info) : Prop where
  row_le : fb.width * (fb.bpp / 8) ≤ fb.pitch
  size_lt : fb.pitch * fb.height < 2 ^ 32

theorem Rows.offset_le (h : Rows fb) (hx : x < fb.width) (hy : y < fb.height) :
  offset fb x y + fb.bpp / 8 ≤ fb.pitch * fb.height
  := by
  have hcols := Nat.mul_le_mul_right (fb.bpp / 8) (Nat.succ_le_of_lt hx)
  have hrows := Nat.mul_le_mul_left fb.pitch (Nat.succ_le_of_lt hy)
  have hrow := h.row_le
  rw [Nat.succ_mul] at hcols
  rw [Nat.mul_succ, Nat.mul_comm fb.pitch y] at hrows
  rw [offset]
  omega

theorem Rows.pixel_addr_eq (h : Rows fb) (hx : x < fb.width) (hy : y < fb.height) :
  pixel_addr fb x y = u64 (P2V fb.addr + offset fb x y)
  := by
  have hle := h.offset_le hx hy
  have hsize := h.size_lt
  rw [offset] at hle
  rw [pixel_addr, Memory.u64_add_u64, Nat.add_assoc, u32_of_lt (n := y * fb.pitch) (by omega),
    u32_of_lt (by omega), offset]

/-- Four bytes for each pixel, rows that fit the pitch, and a size that fits a `uint32_t`. -/
structure Regular (fb : framebuffer_info) : Prop where
  bpp_eq : fb.bpp = 32
  row_le : 4 * fb.width ≤ fb.pitch
  size_lt : fb.pitch * fb.height < 2 ^ 32

theorem Regular.rows (h : Regular fb) :
  Rows fb
  := by
  refine ⟨?_, h.size_lt⟩
  rw [h.bpp_eq, Nat.mul_comm]
  exact h.row_le

/-- The offsets of two pixels are four bytes apart. -/
theorem Regular.offset_apart (h : Regular fb) (hx : x < fb.width) (hx' : x' < fb.width)
    (hne : (x, y) ≠ (x', y')) :
  offset fb x y + 4 ≤ offset fb x' y' ∨ offset fb x' y' + 4 ≤ offset fb x y
  := by
  have hrow := h.row_le
  rw [offset, offset, h.bpp_eq]
  rcases lt_trichotomy y y' with hyy | rfl | hyy
  · have := Nat.mul_le_mul_right fb.pitch (Nat.succ_le_of_lt hyy)
    rw [Nat.succ_mul] at this
    omega
  · have : x ≠ x' := fun hxx => hne (by rw [hxx])
    omega
  · have := Nat.mul_le_mul_right fb.pitch (Nat.succ_le_of_lt hyy)
    rw [Nat.succ_mul] at this
    omega

/-- The bytes of two pixels do not overlap. -/
theorem Regular.apart (h : Regular fb) (hx : x < fb.width) (hy : y < fb.height)
    (hx' : x' < fb.width) (hy' : y' < fb.height) (hne : (x, y) ≠ (x', y')) :
  Memory.Apart (pixel_addr fb x y) 4 (pixel_addr fb x' y') 4
  := by
  have hle := h.rows.offset_le hx hy
  have hle' := h.rows.offset_le hx' hy'
  have hsize := h.size_lt
  rw [h.rows.pixel_addr_eq hx hy, h.rows.pixel_addr_eq hx' hy',
    Memory.apart_iff (by decide) (by decide) (by omega) (by omega)]
  exact h.offset_apart hx hx' hne

theorem Regular.put_pixel_comm (h : Regular fb) (hne : (x, y) ≠ (x', y')) (v w : ℕ) :
  put_pixel fb (put_pixel fb m x y v) x' y' w = put_pixel fb (put_pixel fb m x' y' w) x y v
  := by
  by_cases hout : fb.width ≤ x ∨ fb.height ≤ y
  · rw [put_pixel_outside hout, put_pixel_outside hout]
  by_cases hout' : fb.width ≤ x' ∨ fb.height ≤ y'
  · rw [put_pixel_outside hout', put_pixel_outside hout']
  simp only [put_pixel, if_neg hout, if_neg hout']
  split_ifs
  · rfl
  · apply Memory.storeAt_comm _ _ _ pixel_addr_lt pixel_addr_lt (by decide) (by decide)
    apply h.apart <;> omega

end Screen
