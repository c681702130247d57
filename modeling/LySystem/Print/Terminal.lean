import LySystem.Gpu.Screen
import LySystem.Lib.Memcpy

/-!
# The terminal

`scroll` and `putchar` of `kernel/printk.c`, with `draw_rect` and `draw_char` of
`kernel/GPU/screen.c`.  The cursor is a pair of `uint32_t`, and a character takes a cell of 8 by
`charsize` pixels.
-/

namespace Terminal

open Boot Paging Screen

/-- The difference of two `uint32_t` values. -/
def sub32 (a b : ℕ) : ℕ := u32 (a + (2 ^ 32 - b))

theorem sub32_of_le {a b : ℕ} (h : b ≤ a) (ha : a < 2 ^ 32) :
  sub32 a b = a - b
  := by
  rw [sub32, u32]
  omega

/-! ### Drawing -/

def PSF1_MAGIC : ℕ := 0x0436

/-- The header of a PSF1 font, and the glyphs that follow it. -/
structure Font where
  magic : ℕ
  charsize : ℕ
  glyphs : ℕ → Byte
  charsize_lt : charsize < 2 ^ 8

def draw_rect (fb : framebuffer_info) (m : Memory) (x y width height color : ℕ) : Memory :=
  (List.range height).foldl (fun m i =>
    (List.range width).foldl (fun m j => put_pixel fb m (u32 (x + j)) (u32 (y + i)) color) m) m

def draw_char (fb : framebuffer_info) (font : Font) (m : Memory) (c : Byte) (x y color : ℕ) :
    Memory :=
  if font.magic ≠ PSF1_MAGIC then m
  else
    let glyph (cy : ℕ) := font.glyphs (c.toNat * font.charsize + cy)
    (List.range font.charsize).foldl (fun m cy =>
      (List.range 8).foldl (fun m cx =>
        if glyph cy &&& 0x80 >>> cx ≠ 0 then put_pixel fb m (u32 (x + cx)) (u32 (y + cy)) color
        else m) m) m

/-! ### Characters -/

/-- The memory, and the cursor. -/
structure State where
  mem : Memory
  term_x : ℕ
  term_y : ℕ

def term_color : ℕ := 0xFFFFFF

/-- The memory `scroll` leaves. -/
def scroll.mem (fb : framebuffer_info) (font : Font) (m : Memory) : Memory :=
  let fb_virtual := P2V fb.addr
  let line_size := u32 (font.charsize * fb.pitch)
  let total_scroll_size := u32 (sub32 fb.height font.charsize * fb.pitch)
  let m := m.memcpy fb_virtual (u64 (fb_virtual + line_size)) total_scroll_size
  let last_line := u64 (fb_virtual + total_scroll_size)
  (List.range (line_size / 4)).foldl (fun m i => m.storeAt (u64 (last_line + 4 * i)) 4 0x000000) m

def scroll (fb : framebuffer_info) (font : Font) (s : State) : State :=
  { s with mem := scroll.mem fb font s.mem, term_y := sub32 s.term_y font.charsize }

/-- What `putchar` does of each kind of character. -/
def putchar.print (fb : framebuffer_info) (font : Font) (s : State) (c : ℤ) : State :=
  if c = '\n'.toNat then { s with term_x := 0, term_y := u32 (s.term_y + font.charsize) }
  else if c = '\r'.toNat then { s with term_x := 0 }
  else if c = '\t'.toNat then { s with term_x := u32 (s.term_x + 8 * 4) }
  else if c = 8 then -- the backspace
    if 8 ≤ s.term_x then
      let term_x := sub32 s.term_x 8
      { s with
        term_x := term_x, mem := draw_rect fb s.mem term_x s.term_y 8 font.charsize 0x000000 }
    else s
  else
    { s with
      mem := draw_char fb font s.mem (BitVec.ofInt 8 c) s.term_x s.term_y term_color
      term_x := u32 (s.term_x + 8) }

/-- The end of a row of cells. -/
def putchar.wrap (fb : framebuffer_info) (font : Font) (s : State) : State :=
  if fb.width < u32 (s.term_x + 8) then
    { s with term_x := 0, term_y := u32 (s.term_y + font.charsize) }
  else s

def putchar (fb : framebuffer_info) (font : Font) (s : State) (c : ℤ) : State :=
  let s := putchar.wrap fb font (putchar.print fb font s c)
  if fb.height < u32 (s.term_y + font.charsize) then scroll fb font s else s

/-- The cursor at the beginning. -/
def start (m : Memory) : State := ⟨m, 0, 0⟩

/-- A screen of 20 by 40 pixels, no multiples of the width and the height of a cell. -/
def narrow : framebuffer_info := ⟨0xFD000000, 128, 20, 40, 32⟩

/-- A font of 16 rows. -/
def font16 : Font := ⟨PSF1_MAGIC, 16, fun _ => 0xFF, by decide⟩

end Terminal
