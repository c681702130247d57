import LySystem.Gpu.Drawing
import LySystem.Machine.Sheet
import LySystem.Print.Cursor
import LySystem.Print.Scroll

/-!
# What the terminal shows

The terminal writes on an endless sheet and shows its last rows: whatever is printed, every pixel of
the framebuffer is the one of the sheet.  The characters that were drawn in a cell lie on top of
each other there, since drawing a character does not erase its cell.
-/

namespace Terminal

open Boot Paging Memory Screen

/-- A screen and a font the terminal works with. -/
structure Usable (fb : framebuffer_info) (font : Font) : Prop where
  regular : Regular fb
  room : Room fb font
  pitch_dvd : 4 ∣ fb.pitch
  addr_ne : fb.addr ≠ 0
  magic_eq : font.magic = PSF1_MAGIC

/-- The cells of a row of the screen. -/
def cols (fb : framebuffer_info) : ℕ := fb.width / 8

/-- The rows of cells of the screen. -/
def rows (fb : framebuffer_info) (font : Font) : ℕ := fb.height / font.charsize

/-- The key of a typewriter that a character is. -/
def key (c : ℤ) : Sheet.Key Byte :=
  if c = '\n'.toNat then .newline
  else if c = '\r'.toNat then .carriage
  else if c = '\t'.toNat then .tab
  else if c = 8 then .back
  else .glyph (BitVec.ofInt 8 c)

/-- The pixel of a cell where these characters lie on top of each other. -/
def shade (font : Font) (cell : List Byte) (i j : ℕ) : ℕ :=
  if cell.any fun c => font.glyphs (c.toNat * font.charsize + j) &&& 0x80 >>> i ≠ 0 then term_color
  else 0x000000

/-- The pixels are those of the rows of the sheet from `top` on, and the cursor is in its cell. -/
structure ShowsFrom (fb : framebuffer_info) (font : Font) (top : ℕ) (s : State)
    (t : Sheet Byte) : Prop where
  top_le : top ≤ t.row
  x_eq : s.term_x = 8 * t.col
  y_eq : s.term_y = font.charsize * (t.row - top)
  pixels : ∀ x < fb.width, ∀ y < fb.height, get_pixel fb s.mem x y =
    shade font (t.cells (top + y / font.charsize, x / 8)) (x % 8) (y % font.charsize)

/-- The screen shows the last rows of the sheet. -/
structure Shows (fb : framebuffer_info) (font : Font) (s : State) (t : Sheet Byte) : Prop where
  tidy : t.Tidy (cols fb)
  shows_from : ShowsFrom fb font (t.top (rows fb font)) s t

variable {fb : framebuffer_info} {font : Font} {m : Memory} {s : State} {t : Sheet Byte} {top : ℕ}

theorem Usable.fits (h : Usable fb font) {col n : ℕ} (hcol : col < cols fb) (hn : n < rows fb font) :
  Fits fb (8 * col) (font.charsize * n) 8 font.charsize
  := by
  have hwidth := h.room.width_lt
  have hheight := h.room.height_lt
  have hrows : font.charsize * (n + 1) ≤ font.charsize * (fb.height / font.charsize) :=
    Nat.mul_le_mul_left _ hn
  have hle := Nat.mul_div_le fb.height font.charsize
  rw [cols] at hcol
  rw [Nat.mul_succ] at hrows
  exact ⟨by omega, by omega, by omega, by omega⟩

/-- A pixel is in a cell of the screen. -/
theorem in_cell_iff (hroom : Room fb font) {x y n col : ℕ} :
  ((8 * col ≤ x ∧ x < 8 * col + 8) ∧
    font.charsize * n ≤ y ∧ y < font.charsize * n + font.charsize) ↔
    y / font.charsize = n ∧ x / 8 = col
  := by
  have hpos := hroom.charsize_pos
  have hle : n ≤ y / font.charsize ↔ font.charsize * n ≤ y := by
    rw [Nat.le_div_iff_mul_le hpos, Nat.mul_comm]
  have hlt : y / font.charsize < n + 1 ↔ y < font.charsize * n + font.charsize := by
    rw [Nat.div_lt_iff_lt_mul hpos, Nat.mul_comm, Nat.mul_succ]
  omega

/-- The place of a pixel in its cell. -/
theorem in_cell_mod {x y n col : ℕ} (hy : y / font.charsize = n) (hx : x / 8 = col) :
  x - 8 * col = x % 8 ∧ y - font.charsize * n = y % font.charsize
  := by
  have hmod := Nat.div_add_mod y font.charsize
  rw [hy] at hmod
  omega

/-! ### A key -/

/-- A character drawn on top of a cell. -/
theorem shade_cons (font : Font) (a : Byte) (cell : List Byte) (i j : ℕ) :
  shade font (a :: cell) i j =
    if font.glyphs (a.toNat * font.charsize + j) &&& 0x80 >>> i ≠ 0 then term_color
    else shade font cell i j
  := by
  rw [shade, shade, List.any_cons]
  by_cases hbit : font.glyphs (a.toNat * font.charsize + j) &&& 0x80 >>> i ≠ 0
  · rw [if_pos hbit, decide_eq_true hbit, Bool.true_or, if_pos rfl]
  · rw [if_neg hbit, decide_eq_false hbit, Bool.false_or]

theorem shade_nil (font : Font) (i j : ℕ) :
  shade font [] i j = 0
  := rfl

/-- Characters are drawn and erased in the cell of the sheet. -/
theorem ShowsFrom.print (h : ShowsFrom fb font top s t) (husable : Usable fb font)
    (hcol : t.col < cols fb) (hrow : t.row - top < rows fb font) (c : ℤ) :
  ShowsFrom fb font top (putchar.print fb font s c) (t.strike (key c))
  := by
  obtain ⟨htop, hx, hy, hpixels⟩ := h
  have hfits := husable.fits hcol hrow
  have hwidth := husable.room.width_lt
  have hheight := husable.room.height_lt
  have hcharsize := font.charsize_lt
  have hxle := hfits.x_le
  have hyle := hfits.y_le
  rw [putchar.print, key]
  split_ifs with hn hr ht hback hpos
  · refine ⟨Nat.le_succ_of_le htop, rfl, ?_, hpixels⟩
    rw [Sheet.strike, Nat.succ_sub htop, Nat.mul_succ, hy, u32_of_lt (by omega)]
  · exact ⟨htop, rfl, hy, hpixels⟩
  · refine ⟨htop, ?_, hy, hpixels⟩
    rw [Sheet.strike, hx, u32_of_lt (by omega), Nat.mul_add]
  · have hcol' : 0 < t.col := by omega
    have hx' : sub32 s.term_x 8 = 8 * (t.col - 1) := by
      rw [sub32_of_le (by omega) (by omega)]
      omega
    rw [Sheet.strike, if_pos hcol']
    refine ⟨htop, hx', hy, ?_⟩
    intro x hxw y hyh
    have hfits' : Fits fb (8 * (t.col - 1)) (font.charsize * (t.row - top)) 8 font.charsize :=
      husable.fits (by omega) hrow
    dsimp only
    rw [hx', hy, draw_rect_eq, husable.regular.get_drawing husable.addr_ne _ hfits']
    by_cases hcell : y / font.charsize = t.row - top ∧ x / 8 = t.col - 1
    · rw [if_pos ⟨(in_cell_iff husable.room).mpr hcell, rfl⟩, hcell.1, hcell.2,
        Nat.add_sub_cancel' htop, Function.update_self, shade_nil, Nat.zero_mod]
    · rw [if_neg fun hin => hcell ((in_cell_iff husable.room).mp hin.1), Function.update_of_ne,
        hpixels x hxw y hyh]
      intro heq
      obtain ⟨hr', hc'⟩ := Prod.mk.inj heq
      exact hcell ⟨by omega, hc'⟩
  · rw [Sheet.strike, if_neg (by omega)]
    exact ⟨htop, hx, hy, hpixels⟩
  · refine ⟨htop, ?_, hy, ?_⟩
    · rw [Sheet.strike, hx, u32_of_lt (by omega), Nat.mul_succ]
    · intro x hxw y hyh
      rw [Sheet.strike]
      dsimp only
      rw [hx, hy, draw_char_eq husable.magic_eq, husable.regular.get_drawing husable.addr_ne _ hfits]
      by_cases hcell : y / font.charsize = t.row - top ∧ x / 8 = t.col
      · obtain ⟨hxmod, hymod⟩ := in_cell_mod hcell.1 hcell.2
        rw [hxmod, hymod, hcell.1, hcell.2, Nat.add_sub_cancel' htop, Function.update_self,
          shade_cons, hpixels x hxw y hyh, hcell.1, hcell.2, Nat.add_sub_cancel' htop]
        simp only [(in_cell_iff husable.room).mpr hcell, true_and, and_self, decide_eq_true_eq]
        rfl
      · rw [if_neg fun hin => hcell ((in_cell_iff husable.room).mp hin.1), Function.update_of_ne,
          hpixels x hxw y hyh]
        intro heq
        obtain ⟨hr', hc'⟩ := Prod.mk.inj heq
        exact hcell ⟨by omega, hc'⟩

/-- The end of a row of the screen is the end of a row of the sheet. -/
theorem ShowsFrom.wrap (h : ShowsFrom fb font top s t) (husable : Usable fb font)
    (hcol : t.col < cols fb + 4) (hend : cols fb ≤ t.col → t.row - top < rows fb font) :
  ShowsFrom fb font top (putchar.wrap fb font s) (t.wrap (cols fb))
  := by
  obtain ⟨htop, hx, hy, hpixels⟩ := h
  have hwidth := husable.room.width_lt
  have hcharsize := font.charsize_lt
  have hiff : fb.width < u32 (s.term_x + 8) ↔ cols fb ≤ t.col := by
    rw [cols] at hcol ⊢
    rw [u32_of_lt (by omega)]
    omega
  rw [putchar.wrap, Sheet.wrap]
  by_cases hcols : cols fb ≤ t.col
  · rw [if_pos (hiff.mpr hcols), if_pos hcols]
    refine ⟨Nat.le_succ_of_le htop, rfl, ?_, hpixels⟩
    have hcell : 0 < cols fb := Nat.div_pos husable.room.width_ge (by decide)
    have hyle := (husable.fits hcell (hend hcols)).y_le
    have hheight := husable.room.height_lt
    rw [Nat.succ_sub htop, Nat.mul_succ, hy, u32_of_lt (by omega)]
  · rw [if_neg (mt hiff.mp hcols), if_neg hcols]
    exact ⟨htop, hx, hy, hpixels⟩

/-! ### Scrolling -/

theorem Usable.scrollable (h : Usable fb font) :
  Scrollable fb font
  := by
  refine ⟨h.pitch_dvd, h.room.height_ge, ?_⟩
  rw [Nat.mul_comm]
  exact h.regular.size_lt

/-- The pixels move up by the height of a character, and the last of them become black. -/
theorem Usable.get_scroll (h : Usable fb font) (m : Memory) {x y : ℕ} (hx : x < fb.width)
    (hy : y < fb.height) :
  get_pixel fb (scroll.mem fb font m) x y =
    if y < fb.height - font.charsize then get_pixel fb m x (y + font.charsize) else 0
  := by
  have hscrollable := h.scrollable
  have hsplit := hscrollable.split
  have hsize := hscrollable.size_lt
  have hrow := h.regular.row_le
  obtain ⟨hmoved, hcleared, -⟩ := moved_and_cleared m (P2V fb.addr)
    (show font.charsize * fb.pitch + (fb.height - font.charsize) * fb.pitch ≤ 2 ^ 64 by omega)
  rw [← hscrollable.mem_eq] at hmoved hcleared
  rw [get_pixel, if_neg (by omega), if_neg h.addr_ne, loadAt, h.regular.rows.pixel_addr_eq hx hy]
  have hoffset : offset fb x y = y * fb.pitch + 4 * x := by
    rw [offset, h.regular.bpp_eq, Nat.mul_comm x]
  split_ifs with hlow
  · have hy' : y + font.charsize < fb.height := by omega
    rw [get_pixel, if_neg (by omega), if_neg h.addr_ne, loadAt,
      h.regular.rows.pixel_addr_eq hx hy']
    have hoffset' : offset fb x (y + font.charsize) = font.charsize * fb.pitch + offset fb x y := by
      rw [offset, offset, Nat.add_mul]
      omega
    apply load_congr
    intro i hi
    have hrows := Nat.mul_le_mul_right fb.pitch (Nat.succ_le_of_lt hlow)
    rw [Nat.succ_mul] at hrows
    rw [through, through, u64_add_u64, u64_add_u64, Nat.zero_add, hoffset', Nat.add_assoc,
      hmoved _ (by omega), Nat.add_assoc, Nat.add_assoc]
  · have hzero : ∀ i < 4, ((scroll.mem fb font m).through (u64 (P2V fb.addr + offset fb x y))) (0 + i)
        = BitVec.ofNat 8 (0 / 256 ^ i) := by
      intro i hi
      have hrows := Nat.mul_le_mul_right fb.pitch (Nat.le_of_not_lt hlow)
      have hend := Nat.mul_le_mul_right fb.pitch (Nat.succ_le_of_lt hy)
      rw [Nat.succ_mul] at hend
      obtain ⟨k, hk⟩ := Nat.exists_eq_add_of_le hrows
      rw [through, u64_add_u64, Nat.zero_add, hoffset, hk, Nat.add_assoc, Nat.add_assoc,
        Nat.add_assoc, hcleared _ (by omega), Nat.zero_div]
      rfl
    rw [load_of_digits hzero, Nat.zero_mod]

/-- The cursor is below the screen exactly when all rows of cells are above it. -/
theorem ShowsFrom.scroll_iff (h : ShowsFrom fb font top s t) (husable : Usable fb font)
    (hrow : t.row ≤ top + rows fb font) :
  fb.height < u32 (s.term_y + font.charsize) ↔ t.row = top + rows fb font
  := by
  have htop := h.top_le
  have hheight := husable.room.height_lt
  have hcharsize := font.charsize_lt
  have hle := Nat.mul_le_mul_left font.charsize
    (show t.row - top ≤ rows fb font by omega)
  have hall := Nat.mul_div_le fb.height font.charsize
  have hlt := Nat.div_lt_iff_lt_mul husable.room.charsize_pos (x := fb.height)
    (y := t.row - top + 1)
  rw [← rows] at hall hlt
  rw [h.y_eq, u32_of_lt (by omega), ← Nat.mul_add_one, Nat.mul_comm, ← hlt]
  omega

/-- When the row of the cursor is below the screen, and nothing is written there, the sheet moves up
by one row. -/
theorem ShowsFrom.scroll (h : ShowsFrom fb font top s t) (husable : Usable fb font)
    (hbelow : t.row = top + rows fb font) (hempty : ∀ r col, t.row ≤ r → t.cells (r, col) = []) :
  ShowsFrom fb font (top + 1) (scroll fb font s) t
  := by
  obtain ⟨-, hx, hy, hpixels⟩ := h
  have hpos := husable.room.charsize_pos
  have hge := husable.room.height_ge
  have hheight := husable.room.height_lt
  have hrows : 0 < rows fb font := Nat.div_pos hge hpos
  have hle := Nat.mul_div_le fb.height font.charsize
  rw [← rows] at hle
  refine ⟨by omega, hx, ?_, ?_⟩
  · have hlast := Nat.mul_sub_one font.charsize (rows fb font)
    have hone := Nat.mul_le_mul_left font.charsize hrows
    rw [show t.row - top = rows fb font by omega] at hy
    rw [Terminal.scroll, show t.row - (top + 1) = rows fb font - 1 by omega, hlast, hy,
      sub32_of_le (by omega) (by omega)]
  · intro x hxw y hyh
    rw [Terminal.scroll]
    dsimp only
    rw [husable.get_scroll s.mem hxw hyh]
    split_ifs with hlow
    · rw [hpixels x hxw _ (by omega), Nat.add_div_right _ hpos, Nat.add_mod_right,
        Nat.add_right_comm top, Nat.add_assoc]
    · have hlast : rows fb font ≤ (y + font.charsize) / font.charsize :=
        Nat.div_le_div_right (by omega)
      rw [Nat.add_div_right _ hpos] at hlast
      rw [hempty _ _ (by omega), shade_nil]

/-! ### A character, and any number of them -/

/-- A character is a key. -/
theorem Shows.putchar (h : Shows fb font s t) (husable : Usable fb font) (c : ℤ) :
  Shows fb font (putchar fb font s c) (t.press (cols fb) (key c))
  := by
  obtain ⟨htidy, hshows⟩ := h
  have hcols : 0 < cols fb := Nat.div_pos husable.room.width_ge (by decide)
  have hrows : 0 < rows fb font :=
    Nat.div_pos husable.room.height_ge husable.room.charsize_pos
  have htop : t.top (rows fb font) = t.row + 1 - rows fb font := rfl
  have hpress := htidy.press (key c)
  have hcol := htidy.col_lt
  have hstrike := t.strike_row (key c)
  have hcol' : (t.strike (key c)).col < cols fb + 4 := Sheet.strike_col htidy
  -- The end of the row is looked at in the old row or at the beginning of the new one.
  have hwrapped := (hshows.print husable hcol (by omega) c).wrap husable hcol' (by omega)
  have hrow := Sheet.press_row hcols t (key c)
  have hempty : ∀ r col, t.row < r → (t.press (cols fb) (key c)).cells (r, col) = [] := by
    intro r col hr
    rw [Sheet.press, Sheet.wrap_cells, Sheet.strike_cells htidy (Or.inl (by omega))]
    exact htidy.below r col hr
  rw [← Sheet.press] at hwrapped
  refine ⟨hpress, ?_⟩
  rw [Terminal.putchar, Sheet.top]
  generalize putchar.wrap fb font (putchar.print fb font s c) = s' at hwrapped ⊢
  generalize t.press (cols fb) (key c) = t' at hpress hwrapped hrow hempty ⊢
  have hscroll := hwrapped.scroll_iff husable (by omega)
  split_ifs with hlow
  · have hbelow := hscroll.mp hlow
    have hnext := hwrapped.scroll husable hbelow fun r col hr => hempty r col (by omega)
    rw [show t'.row + 1 - rows fb font = t.top (rows fb font) + 1 by omega]
    exact hnext
  · have hin := mt hscroll.mpr hlow
    rw [show t'.row + 1 - rows fb font = t.top (rows fb font) by omega]
    exact hwrapped

/-- Everything is black. -/
def Black (fb : framebuffer_info) (m : Memory) : Prop :=
  ∀ x < fb.width, ∀ y < fb.height, get_pixel fb m x y = 0

theorem Black.shows_from (h : Black fb s.mem) (htop : top ≤ t.row) (hx : s.term_x = 8 * t.col)
    (hy : s.term_y = font.charsize * (t.row - top)) (hempty : ∀ cell, t.cells cell = []) :
  ShowsFrom fb font top s t
  := by
  refine ⟨htop, hx, hy, ?_⟩
  intro x hxw y hyh
  rw [h x hxw y hyh, hempty, shade_nil]

theorem Black.start (h : Black fb m) (husable : Usable fb font) :
  Shows fb font (start m) Sheet.blank
  := by
  have hcols : 0 < cols fb := Nat.div_pos husable.room.width_ge (by decide)
  have hrows : 0 < rows fb font :=
    Nat.div_pos husable.room.height_ge husable.room.charsize_pos
  have htop : (Sheet.blank : Sheet Byte).top (rows fb font) = 0 := Nat.sub_eq_zero_of_le hrows
  refine ⟨Sheet.tidy_blank hcols, ?_⟩
  rw [htop]
  exact h.shows_from le_rfl rfl rfl fun _ => rfl

/-- Clearing the screen leaves the cursor where it is. -/
theorem Shows.clear_screen (h : Shows fb font s t) (husable : Usable fb font) :
  Shows fb font { s with mem := clear_screen fb s.mem 0x000000 } t.erase
  := by
  obtain ⟨htidy, htop, hx, hy, -⟩ := h
  have hwidth := husable.room.width_lt
  have hheight := husable.room.height_lt
  refine ⟨htidy.erase, Black.shows_from ?_ htop hx hy fun _ => rfl⟩
  intro x hxw y hyh
  have hfits : Fits fb 0 0 fb.width fb.height := ⟨by omega, by omega, by omega, by omega⟩
  rw [clear_screen_eq husable.addr_ne hfits.width_lt hfits.height_lt,
    husable.regular.get_drawing husable.addr_ne _ hfits,
    if_pos ⟨⟨⟨Nat.zero_le x, by omega⟩, Nat.zero_le y, by omega⟩, rfl⟩, Nat.zero_mod]

/-- What is done to the terminal. -/
inductive Event where
  | putchar (c : ℤ)
  /-- `clear_screen(0x000000)` -/
  | clear_screen

def Event.run (fb : framebuffer_info) (font : Font) (s : State) : Event → State
  | putchar c => Terminal.putchar fb font s c
  | clear_screen => { s with mem := Screen.clear_screen fb s.mem 0x000000 }

/-- What it is on the sheet. -/
def Event.write (cols : ℕ) (t : Sheet Byte) : Event → Sheet Byte
  | putchar c => t.press cols (key c)
  | clear_screen => t.erase

theorem Shows.run (h : Shows fb font s t) (husable : Usable fb font) (es : List Event) :
  Shows fb font (es.foldl (Event.run fb font) s) (es.foldl (Event.write (cols fb)) t)
  := by
  induction es generalizing s t with
  | nil => exact h
  | cons e es ih =>
      apply ih
      cases e with
      | putchar c => exact h.putchar husable c
      | clear_screen => exact h.clear_screen husable

/-- From a black screen on, the framebuffer shows the last rows of the sheet, whatever is printed
and however often it scrolls. -/
theorem terminal_shows (husable : Usable fb font) (hblack : Black fb m) (es : List Event) :
  Shows fb font (es.foldl (Event.run fb font) (start m))
    (es.foldl (Event.write (cols fb)) Sheet.blank)
  := (hblack.start husable).run husable es

theorem usable_narrow :
  Usable narrow font16
  := ⟨⟨rfl, by decide, by decide⟩, ⟨by decide, by decide, by decide, by decide, by decide⟩,
    by decide, by decide, rfl⟩

theorem black_zero (fb : framebuffer_info) :
  Black fb fun _ => 0
  := by
  intro x hx y hy
  rw [get_pixel]
  split_ifs
  · rfl
  · rfl
  · apply load_of_digits (v := 0)
    intro i hi
    rw [Nat.zero_div]
    rfl

theorem terminal_shows_erased :
  get_pixel narrow (([.putchar 65, .putchar 66, .clear_screen, .putchar 8, .putchar 67] :
    List Event).foldl (Event.run narrow font16) (start fun _ => 0)).mem 3 17 = 0xFFFFFF
  := by
  have hshows := terminal_shows usable_narrow (black_zero narrow)
    [.putchar 65, .putchar 66, .clear_screen, .putchar 8, .putchar 67]
  exact (hshows.shows_from.pixels 3 (by decide) 17 (by decide)).trans (by decide)

end Terminal
