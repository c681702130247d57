import LySystem.Gpu.Screen

/-!
# Pixels of fewer than four bytes

`put_pixel` stores four bytes at every depth.  Below 32 bits per pixel they reach into the pixels
that follow, and at the end of the last row out of the framebuffer.
-/

namespace Screen

open Boot Paging

/-- What `mbi_parse` can find: fields of their types, a depth, rows that fit the pitch and a size
that fits 32 bits. -/
structure Geometry (fb : framebuffer_info) : Prop extends Rows fb where
  addr_lt : fb.addr < 2 ^ 64
  pitch_lt : fb.pitch < 2 ^ 32
  width_lt : fb.width < 2 ^ 32
  height_lt : fb.height < 2 ^ 32
  bpp_eq : fb.bpp = 8 ∨ fb.bpp = 16 ∨ fb.bpp = 24 ∨ fb.bpp = 32

/-- The fields of a tag have the sizes of their types. -/
theorem Geometry.of_tag {m : Memory} {tag : ℕ} (hrows : Rows (framebufferTag m tag))
    (hbpp : (framebufferTag m tag).bpp = 8 ∨ (framebufferTag m tag).bpp = 16 ∨
      (framebufferTag m tag).bpp = 24 ∨ (framebufferTag m tag).bpp = 32) :
  Geometry (framebufferTag m tag)
  := by
  refine ⟨hrows, ?_, ?_, ?_, ?_, hbpp⟩
  · exact Memory.load_lt m (tag + 8) 8
  · exact Memory.load_lt m (tag + 16) 4
  · exact Memory.load_lt m (tag + 20) 4
  · exact Memory.load_lt m (tag + 24) 4

/-- A byte of the framebuffer. -/
def InFramebuffer (fb : framebuffer_info) (x : ℕ) : Prop :=
  ∃ k < fb.pitch * fb.height, x = u64 (P2V fb.addr + k)

/-- Whatever the memory and the colour, putting the pixel `p` changes nothing outside the
framebuffer, and nothing of the pixel `q`. -/
def Alone (fb : framebuffer_info) (p q : ℕ × ℕ) : Prop :=
  ∀ (m : Memory) (color : ℕ),
    (∀ x, ¬ InFramebuffer fb x → put_pixel fb m p.1 p.2 color x = m x) ∧
      get_pixel fb (put_pixel fb m p.1 p.2 color) q.1 q.2 = get_pixel fb m q.1 q.2

variable {fb : framebuffer_info} {p q : ℕ × ℕ}

/-- The bytes that are stored are in the framebuffer exactly when the last of them is. -/
theorem Rows.stored_inside (h : Rows fb) (hx : p.1 < fb.width) (hy : p.2 < fb.height) :
  (∀ i < 4, InFramebuffer fb (u64 (pixel_addr fb p.1 p.2 + i))) ↔
    offset fb p.1 p.2 + 4 ≤ fb.pitch * fb.height
  := by
  have hle := h.offset_le hx hy
  have hsize := h.size_lt
  rw [h.pixel_addr_eq hx hy]
  simp only [Memory.u64_add_u64, Nat.add_assoc]
  constructor
  · intro hin
    obtain ⟨k, hk, heq⟩ := hin 3 (by decide)
    have := Memory.u64_add_inj (by omega) (by omega) heq
    omega
  · intro hend i hi
    exact ⟨offset fb p.1 p.2 + i, by omega, rfl⟩

/-- All bytes of the white pixel differ from those of a memory of zeros. -/
theorem white_ne {a i : ℕ} (ha : a < 2 ^ 64) (hi : i < 4) :
  Memory.storeAt (fun _ => 0) a 4 0xFFFFFFFF (u64 (a + i)) ≠ 0
  := by
  rw [Memory.storeAt, Memory.spliceAt_inside _ _ ha (by decide) hi]
  interval_cases i <;> decide

/-- Where there is a framebuffer, a pixel leaves the rest of the memory and another pixel alone
exactly when its four bytes are in the framebuffer and not among those of the other pixel. -/
theorem Rows.alone_iff (h : Rows fb) (haddr : fb.addr ≠ 0) (hpx : p.1 < fb.width)
    (hpy : p.2 < fb.height) (hqx : q.1 < fb.width) (hqy : q.2 < fb.height) :
  Alone fb p q ↔ offset fb p.1 p.2 + 4 ≤ fb.pitch * fb.height ∧
    (offset fb p.1 p.2 + 4 ≤ offset fb q.1 q.2 ∨ offset fb q.1 q.2 + 4 ≤ offset fb p.1 p.2)
  := by
  have hple := h.offset_le hpx hpy
  have hqle := h.offset_le hqx hqy
  have hsize := h.size_lt
  have hinside := h.stored_inside hpx hpy
  have hapart : Memory.Apart (pixel_addr fb p.1 p.2) 4 (pixel_addr fb q.1 q.2) 4 ↔
      offset fb p.1 p.2 + 4 ≤ offset fb q.1 q.2 ∨ offset fb q.1 q.2 + 4 ≤ offset fb p.1 p.2 := by
    rw [h.pixel_addr_eq hpx hpy, h.pixel_addr_eq hqx hqy]
    exact Memory.apart_iff (by decide) (by decide) (by omega) (by omega)
  have hput : ∀ m color, put_pixel fb m p.1 p.2 color =
      m.storeAt (pixel_addr fb p.1 p.2) 4 color := by
    intro m color
    rw [put_pixel, if_neg (by omega), if_neg haddr]
  have hget : ∀ m, get_pixel fb m q.1 q.2 = m.loadAt (pixel_addr fb q.1 q.2) 4 := by
    intro m
    rw [get_pixel, if_neg (by omega), if_neg haddr]
  rw [← hinside, ← hapart]
  constructor
  · intro halone
    obtain ⟨hout, hkept⟩ := halone (fun _ => 0) 0xFFFFFFFF
    rw [hput] at hout hkept
    rw [hget, hget] at hkept
    constructor
    · intro i hi
      by_contra hnot
      exact white_ne pixel_addr_lt hi (hout _ hnot)
    · intro i hi j hj heq
      have hbyte := Memory.loadAt_eq_iff.mp hkept j hj
      rw [← heq] at hbyte
      exact white_ne pixel_addr_lt hi hbyte
  · rintro ⟨hin, hdisjoint⟩ m color
    rw [hput, hget, hget]
    refine ⟨?_, Memory.loadAt_storeAt_apart m color pixel_addr_lt hdisjoint⟩
    intro x hx
    apply Memory.storeAt_outside _ _ pixel_addr_lt
    rintro i hi rfl
    exact hx (hin i hi)

theorem Rows.regular (h : Rows fb) (h32 : fb.bpp = 32) :
  Regular fb
  := by
  refine ⟨h32, ?_, h.size_lt⟩
  have hrow := h.row_le
  rw [h32, Nat.mul_comm] at hrow
  exact hrow

/-- A pixel leaves the rest of the memory and another pixel alone when there is no framebuffer, or
when its four bytes are in the framebuffer and not among those of the other pixel; with 32 bits per
pixel they always are. -/
theorem pixels_alone (hfb : Geometry fb) (hpx : p.1 < fb.width) (hpy : p.2 < fb.height)
    (hqx : q.1 < fb.width) (hqy : q.2 < fb.height) (hne : p ≠ q) :
  Alone fb p q ↔ fb.addr = 0 ∨ fb.bpp = 32 ∨
    offset fb p.1 p.2 + 4 ≤ fb.pitch * fb.height ∧
      (offset fb p.1 p.2 + 4 ≤ offset fb q.1 q.2 ∨ offset fb q.1 q.2 + 4 ≤ offset fb p.1 p.2)
  := by
  by_cases haddr : fb.addr = 0
  · apply iff_of_true _ (Or.inl haddr)
    intro m color
    have hput : put_pixel fb m p.1 p.2 color = m := by
      rw [put_pixel, if_neg (by omega), if_pos haddr]
    rw [hput]
    exact ⟨fun _ _ => rfl, rfl⟩
  rw [hfb.alone_iff haddr hpx hpy hqx hqy]
  constructor
  · intro h
    exact Or.inr (Or.inr h)
  · rintro (h | h32 | h)
    · exact absurd h haddr
    · have hple := hfb.offset_le hpx hpy
      rw [h32] at hple
      exact ⟨hple, (hfb.regular h32).offset_apart hpx hqx hne⟩
    · exact h

/-! ### A framebuffer of 24 bits per pixel -/

/-- A framebuffer of 1024 by 768 pixels of three bytes. -/
def deep24 : framebuffer_info := ⟨0xFD000000, 3072, 1024, 768, 24⟩

theorem deep24_geometry :
  Geometry deep24
  := ⟨⟨by decide, by decide⟩, by decide, by decide, by decide, by decide, by decide⟩

theorem pixels_alone_distant :
  Alone deep24 (0, 0) (2, 0)
  := (pixels_alone deep24_geometry (p := (0, 0)) (q := (2, 0)) (by decide) (by decide) (by decide)
    (by decide) (by decide)).mpr (Or.inr (Or.inr ⟨by decide, Or.inl (by decide)⟩))

/-- The pixel that follows loses its first byte. -/
theorem neighbour_overwritten :
  ¬ ∀ (fb : framebuffer_info) (p q : ℕ × ℕ), Geometry fb → p.1 < fb.width → p.2 < fb.height →
    q.1 < fb.width → q.2 < fb.height → p ≠ q → Alone fb p q
  := by
  intro h
  have halone := h deep24 (0, 0) (1, 0) deep24_geometry (by decide) (by decide) (by decide)
    (by decide) (by decide)
  have hkept := (halone (fun _ => 0) 0xFFFFFFFF).2
  revert hkept
  decide +kernel

end Screen
