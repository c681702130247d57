import LySystem.Machine.Overlay
import LySystem.Print.Terminal

/-!
# What is drawn is seen

`get_pixel` after `put_pixel`, and after the loops of `draw_rect`, `draw_char` and `clear_screen` of
`kernel/GPU/screen.c`, on a screen whose pixels do not overlap.
-/

namespace Screen

open Boot Paging

def clear_screen (fb : framebuffer_info) (m : Memory) (color : ℕ) : Memory :=
  if fb.addr = 0 then m
  else
    (List.range fb.height).foldl (fun m y =>
      (List.range fb.width).foldl (fun m x => put_pixel fb m x y color) m) m

variable {fb : framebuffer_info} {m : Memory} {x y x' y' color : ℕ}

/-- The pixel that is put, and every other one as before. -/
theorem Regular.get_put (h : Regular fb) (haddr : fb.addr ≠ 0) (hx : x < fb.width)
    (hy : y < fb.height) :
  get_pixel fb (put_pixel fb m x y color) x' y' =
    if x' = x ∧ y' = y then color % 2 ^ 32 else get_pixel fb m x' y'
  := by
  rw [put_pixel, if_neg (by omega), if_neg haddr]
  by_cases hout : fb.width ≤ x' ∨ fb.height ≤ y'
  · rw [get_pixel, get_pixel, if_pos hout, if_pos hout, if_neg (by omega)]
  · rw [get_pixel, get_pixel, if_neg hout, if_neg haddr, if_neg hout, if_neg haddr]
    split_ifs with heq
    · rw [heq.1, heq.2, Memory.loadAt_storeAt _ _ pixel_addr_lt (by decide), ← Nat.pow_mul 2 8 4]
    · rw [Memory.loadAt_storeAt_apart _ _ pixel_addr_lt]
      apply h.apart hx hy (by omega) (by omega)
      intro hpair
      obtain ⟨rfl, rfl⟩ := Prod.mk.inj hpair
      exact heq ⟨rfl, rfl⟩

/-- A part of a rectangle is drawn in a colour. -/
def drawing (fb : framebuffer_info) (P : ℕ → ℕ → Bool) (x y width height color : ℕ) (m : Memory) :
    Memory :=
  (List.range height).foldl (fun m i =>
    (List.range width).foldl (fun m j =>
      if P j i then put_pixel fb m (u32 (x + j)) (u32 (y + i)) color else m) m) m

/-- A rectangle that is on the screen. -/
structure Fits (fb : framebuffer_info) (x y width height : ℕ) : Prop where
  width_lt : fb.width < 2 ^ 32
  height_lt : fb.height < 2 ^ 32
  x_le : x + width ≤ fb.width
  y_le : y + height ≤ fb.height

theorem Regular.get_row (h : Regular fb) (haddr : fb.addr ≠ 0) {P : ℕ → Bool} {width : ℕ}
    (hwidth : fb.width < 2 ^ 32) (hx : x + width ≤ fb.width) (hy : y < fb.height) (m : Memory) :
  get_pixel fb ((List.range width).foldl
    (fun m j => if P j then put_pixel fb m (u32 (x + j)) y color else m) m) x' y' =
    if (x ≤ x' ∧ x' < x + width ∧ y' = y) ∧ P (x' - x) then color % 2 ^ 32
    else get_pixel fb m x' y'
  := by
  have hround : ∀ j ∈ List.range width, ∀ m,
      get_pixel fb (if P j then put_pixel fb m (u32 (x + j)) y color else m) x' y' =
        if (x' = x + j ∧ y' = y) ∧ P j then color % 2 ^ 32 else get_pixel fb m x' y' := by
    intro j hj m
    have hj := List.mem_range.mp hj
    rw [u32_of_lt (by omega)]
    by_cases hP : P j = true
    · rw [if_pos hP, h.get_put haddr (by omega) hy]
      simp only [hP, and_true]
    · rw [if_neg hP, if_neg (fun hand => hP hand.2)]
  have hcovers := Overlay.foldl_covers
    (g := fun m => get_pixel fb m x' y') (R := fun j => (x' = x + j ∧ y' = y) ∧ P j = true)
    (fun j hj hR m => (hround j hj m).trans (if_pos hR))
    (fun j hj hR m => (hround j hj m).trans (if_neg hR)) m
  rcases hcovers with ⟨j, hj, ⟨⟨rfl, rfl⟩, hP⟩, hval⟩ | ⟨hnone, hval⟩
  · have hj := List.mem_range.mp hj
    rw [hval, Nat.add_sub_cancel_left, if_pos ⟨by omega, hP⟩]
  · rw [hval, if_neg]
    rintro ⟨⟨hle, hlt, rfl⟩, hP⟩
    refine hnone (x' - x) (List.mem_range.mpr (by omega)) ⟨⟨by omega, rfl⟩, hP⟩

/-- What is seen after a drawing: its colour where it was drawn, and elsewhere what was there. -/
theorem Regular.get_drawing (h : Regular fb) (haddr : fb.addr ≠ 0) (P : ℕ → ℕ → Bool)
    {width height : ℕ} (hfits : Fits fb x y width height) (m : Memory) :
  get_pixel fb (drawing fb P x y width height color m) x' y' =
    if ((x ≤ x' ∧ x' < x + width) ∧ y ≤ y' ∧ y' < y + height) ∧ P (x' - x) (y' - y) then
      color % 2 ^ 32
    else get_pixel fb m x' y'
  := by
  obtain ⟨hwidth, hheight, hx, hy⟩ := hfits
  have hrow : ∀ i ∈ List.range height, ∀ m,
      get_pixel fb ((List.range width).foldl (fun m j =>
        if P j i then put_pixel fb m (u32 (x + j)) (u32 (y + i)) color else m) m) x' y' =
        if (x ≤ x' ∧ x' < x + width ∧ y' = y + i) ∧ P (x' - x) i then color % 2 ^ 32
        else get_pixel fb m x' y' := by
    intro i hi m
    have hi := List.mem_range.mp hi
    rw [u32_of_lt (n := y + i) (by omega)]
    exact h.get_row haddr hwidth hx (P := fun j => P j i) (by omega) m
  have hcovers := Overlay.foldl_covers (g := fun m => get_pixel fb m x' y')
    (R := fun i => (x ≤ x' ∧ x' < x + width ∧ y' = y + i) ∧ P (x' - x) i = true)
    (fun i hi hR m => (hrow i hi m).trans (if_pos hR))
    (fun i hi hR m => (hrow i hi m).trans (if_neg hR)) m
  rw [drawing]
  rcases hcovers with ⟨i, hi, ⟨⟨hle, hlt, rfl⟩, hP⟩, hval⟩ | ⟨hnone, hval⟩
  · have hi := List.mem_range.mp hi
    rw [hval, Nat.add_sub_cancel_left, if_pos ⟨⟨⟨hle, hlt⟩, by omega, by omega⟩, hP⟩]
  · rw [hval, if_neg]
    rintro ⟨⟨⟨hle, hlt⟩, hbelow, habove⟩, hP⟩
    exact hnone (y' - y) (List.mem_range.mpr (by omega)) ⟨⟨hle, hlt, by omega⟩, hP⟩

/-! ### The loops of the source -/

theorem draw_rect_eq (m : Memory) (x y width height color : ℕ) :
  Terminal.draw_rect fb m x y width height color =
    drawing fb (fun _ _ => true) x y width height color m
  := rfl

theorem draw_char_eq {font : Terminal.Font} (hmagic : font.magic = Terminal.PSF1_MAGIC)
    (m : Memory) (c : Byte) (x y color : ℕ) :
  Terminal.draw_char fb font m c x y color =
    drawing fb (fun i j => font.glyphs (c.toNat * font.charsize + j) &&& 0x80 >>> i ≠ 0) x y 8
      font.charsize color m
  := by
  rw [Terminal.draw_char, if_neg (not_not_intro hmagic), drawing]
  simp only [decide_eq_true_eq]

theorem foldl_range_congr {σ : Type*} {f g : σ → ℕ → σ} {n : ℕ} (h : ∀ s, ∀ k < n, f s k = g s k)
    (s : σ) :
  (List.range n).foldl f s = (List.range n).foldl g s
  := by
  apply List.foldl_ext
  intro s k hk
  exact h s k (List.mem_range.mp hk)

/-- Clearing is drawing everything. -/
theorem clear_screen_eq (haddr : fb.addr ≠ 0) (hwidth : fb.width < 2 ^ 32)
    (hheight : fb.height < 2 ^ 32) (m : Memory) :
  clear_screen fb m color = drawing fb (fun _ _ => true) 0 0 fb.width fb.height color m
  := by
  rw [clear_screen, if_neg haddr, drawing]
  apply foldl_range_congr
  intro m i hi
  apply foldl_range_congr
  intro m j hj
  rw [Nat.zero_add, Nat.zero_add, u32_of_lt (by omega), u32_of_lt (by omega), if_pos rfl]

end Screen
