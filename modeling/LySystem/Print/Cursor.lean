import LySystem.Print.Terminal
import Mathlib.Logic.Relation

/-!
# The cursor

On a screen with room for one cell the cursor stays at a cell that is wholly on the screen,
whatever characters are printed.
-/

namespace Terminal

open Boot Screen

/-- The cell at this place is wholly on the screen. -/
def CellOnScreen (fb : framebuffer_info) (font : Font) (cell : ℕ × ℕ) : Prop :=
  cell.1 + 8 ≤ fb.width ∧ cell.2 + font.charsize ≤ fb.height

/-- The cell of the cursor is one of the grid, and on the screen. -/
structure OnScreen (fb : framebuffer_info) (font : Font) (s : State) : Prop where
  on_screen : CellOnScreen fb font (s.term_x, s.term_y)
  x_dvd : 8 ∣ s.term_x
  y_dvd : font.charsize ∣ s.term_y

/-- The cell `putchar` draws or erases. -/
def putchar.cell (s : State) (c : ℤ) : Option (ℕ × ℕ) :=
  if c = '\n'.toNat ∨ c = '\r'.toNat ∨ c = '\t'.toNat then none
  else if c = 8 then if 8 ≤ s.term_x then some (s.term_x - 8, s.term_y) else none
  else some (s.term_x, s.term_y)

/-- Pixels of the cell, and nothing else, are drawn. -/
def Drawn (fb : framebuffer_info) (font : Font) (cell : ℕ × ℕ) : Memory → Memory → Prop :=
  Relation.ReflTransGen fun m m' => ∃ i < 8, ∃ j < font.charsize, ∃ color,
    m' = put_pixel fb m (cell.1 + i) (cell.2 + j) color

/-- A screen with room for a cell, and no overflow of the cursor. -/
structure Room (fb : framebuffer_info) (font : Font) : Prop where
  width_ge : 8 ≤ fb.width
  height_ge : font.charsize ≤ fb.height
  charsize_pos : 0 < font.charsize
  width_lt : fb.width < 2 ^ 30
  height_lt : fb.height < 2 ^ 30

variable {fb : framebuffer_info} {font : Font} {s : State} {cell : ℕ × ℕ} {m : Memory}

/-! ### Drawing in a cell -/

theorem drawn_foldl {α : Type*} {f : Memory → α → Memory} {as : List α}
    (hf : ∀ a ∈ as, ∀ m, Drawn fb font cell m (f m a)) (m : Memory) :
  Drawn fb font cell m (as.foldl f m)
  := by
  induction as generalizing m with
  | nil => exact Relation.ReflTransGen.refl
  | cons a as ih =>
      rw [List.foldl_cons]
      apply (hf a List.mem_cons_self m).trans
      apply ih
      intro b hb
      exact hf b (List.mem_cons_of_mem a hb)

theorem drawn_pixel (hroom : Room fb font) (hcell : CellOnScreen fb font cell) {i j : ℕ}
    (hi : i < 8) (hj : j < font.charsize) (m : Memory) (color : ℕ) :
  Drawn fb font cell m (put_pixel fb m (u32 (cell.1 + i)) (u32 (cell.2 + j)) color)
  := by
  obtain ⟨hx, hy⟩ := hcell
  have hwidth := hroom.width_lt
  have hheight := hroom.height_lt
  rw [u32_of_lt (by omega), u32_of_lt (by omega)]
  exact Relation.ReflTransGen.single ⟨i, hi, j, hj, color, rfl⟩

theorem draw_rect_drawn (hroom : Room fb font) (hcell : CellOnScreen fb font cell) (m : Memory)
    (color : ℕ) :
  Drawn fb font cell m (draw_rect fb m cell.1 cell.2 8 font.charsize color)
  := by
  apply drawn_foldl
  intro j hj m
  apply drawn_foldl
  intro i hi m
  exact drawn_pixel hroom hcell (List.mem_range.mp hi) (List.mem_range.mp hj) m color

theorem draw_char_drawn (hroom : Room fb font) (hcell : CellOnScreen fb font cell) (m : Memory)
    (c : Byte) (color : ℕ) :
  Drawn fb font cell m (draw_char fb font m c cell.1 cell.2 color)
  := by
  rw [draw_char]
  split_ifs
  · exact Relation.ReflTransGen.refl
  · apply drawn_foldl
    intro j hj m
    apply drawn_foldl
    intro i hi m
    split_ifs
    · exact drawn_pixel hroom hcell (List.mem_range.mp hi) (List.mem_range.mp hj) m color
    · exact Relation.ReflTransGen.refl

/-! ### One character -/

theorem OnScreen.cell_on_screen (h : OnScreen fb font s) {c : ℤ}
    (hcell : putchar.cell s c = some cell) :
  CellOnScreen fb font cell
  := by
  obtain ⟨hx, hy⟩ := h.on_screen
  rw [putchar.cell] at hcell
  split_ifs at hcell
  all_goals obtain rfl := Option.some.inj hcell
  · exact ⟨by omega, hy⟩
  · exact ⟨hx, hy⟩

/-- What is drawn of a character is in its cell. -/
theorem OnScreen.print_drawn (hroom : Room fb font) (h : OnScreen fb font s) (c : ℤ) :
  match putchar.cell s c with
  | some cell => Drawn fb font cell s.mem (putchar.print fb font s c).mem
  | none => (putchar.print fb font s c).mem = s.mem
  := by
  cases hcell : putchar.cell s c with
  | none =>
      rw [putchar.cell] at hcell
      rw [putchar.print]
      split_ifs at hcell ⊢
      all_goals first | rfl | omega
  | some cell =>
      have hon := h.cell_on_screen hcell
      have hwidth := hroom.width_lt
      obtain ⟨hx, -⟩ := h.on_screen
      rw [putchar.cell] at hcell
      split_ifs at hcell with hmove hback hroom'
      all_goals obtain rfl := Option.some.inj hcell
      all_goals rw [not_or, not_or] at hmove; obtain ⟨hn, hr, ht⟩ := hmove
      · rw [putchar.print, if_neg hn, if_neg hr, if_neg ht, if_pos hback, if_pos hroom']
        dsimp only
        rw [sub32_of_le hroom' (by omega)]
        exact draw_rect_drawn hroom hon _ _
      · rw [putchar.print, if_neg hn, if_neg hr, if_neg ht, if_neg hback]
        exact draw_char_drawn hroom hon _ _ _

/-- Before the end of the row is looked at, the cursor is in its row or at the beginning of the
next. -/
theorem OnScreen.print_cursor (hroom : Room fb font) (h : OnScreen fb font s) (c : ℤ) :
  let t := putchar.print fb font s c
  8 ∣ t.term_x ∧ (t.term_y = s.term_y ∧ t.term_x < 2 ^ 31 ∨
    t.term_y = s.term_y + font.charsize ∧ t.term_x = 0)
  := by
  obtain ⟨⟨hx, hy⟩, hxdvd, -⟩ := h
  have hwidth := hroom.width_lt
  have hheight := hroom.height_lt
  have hcharsize := font.charsize_lt
  rw [putchar.print]
  dsimp only at hx hy
  split_ifs
  · refine ⟨Nat.dvd_zero 8, Or.inr ⟨?_, rfl⟩⟩
    rw [u32_of_lt (by omega)]
  · exact ⟨Nat.dvd_zero 8, Or.inl ⟨rfl, Nat.two_pow_pos 31⟩⟩
  · dsimp only
    rw [u32_of_lt (by omega)]
    omega
  · dsimp only
    rw [sub32_of_le (by assumption) (by omega)]
    omega
  · omega
  · dsimp only
    rw [u32_of_lt (by omega)]
    omega

theorem OnScreen.wrap_cursor (hroom : Room fb font) (h : OnScreen fb font s) (c : ℤ) :
  let t := putchar.wrap fb font (putchar.print fb font s c)
  t.term_x + 8 ≤ fb.width ∧ 8 ∣ t.term_x ∧
    (t.term_y = s.term_y ∨ t.term_y = s.term_y + font.charsize)
  := by
  obtain ⟨hdvd, hcursor⟩ := h.print_cursor hroom c
  obtain ⟨⟨hx, hy⟩, -, -⟩ := h
  have hwidth := hroom.width_lt
  have hheight := hroom.height_lt
  have hcharsize := font.charsize_lt
  have hroom8 := hroom.width_ge
  generalize putchar.print fb font s c = t at hdvd hcursor
  rw [putchar.wrap]
  dsimp only at hx hy
  split_ifs with hwrap
  · rw [u32_of_lt (by omega)] at hwrap
    refine ⟨by omega, Nat.dvd_zero 8, Or.inr ?_⟩
    dsimp only
    rw [u32_of_lt (by omega)]
    omega
  · rw [u32_of_lt (by omega)] at hwrap
    exact ⟨by omega, hdvd, by omega⟩

/-- The screen is scrolled when the cursor is below it, and then a row is above the cursor. -/
theorem OnScreen.scroll_iff (hroom : Room fb font) (h : OnScreen fb font s) (c : ℤ) :
  let t := putchar.wrap fb font (putchar.print fb font s c)
  fb.height < u32 (t.term_y + font.charsize) ↔
    t.term_y = s.term_y + font.charsize ∧ fb.height < s.term_y + 2 * font.charsize
  := by
  obtain ⟨-, -, hrow⟩ := h.wrap_cursor hroom c
  obtain ⟨⟨-, hy⟩, -, -⟩ := h
  have hheight := hroom.height_lt
  have hcharsize := font.charsize_lt
  have hpos := hroom.charsize_pos
  dsimp only at hy ⊢
  rw [u32_of_lt (by omega)]
  omega

/-- Every character leaves the cursor at a cell on the screen. -/
theorem OnScreen.putchar (hroom : Room fb font) (h : OnScreen fb font s) (c : ℤ) :
  OnScreen fb font (putchar fb font s c)
  := by
  obtain ⟨hx, hdvd, hrow⟩ := h.wrap_cursor hroom c
  have hscroll := h.scroll_iff hroom c
  obtain ⟨⟨-, hy⟩, -, hydvd⟩ := h
  have hheight := hroom.height_lt
  have hcharsize := font.charsize_lt
  rw [Terminal.putchar]
  dsimp only at hx hdvd hrow hscroll hy ⊢
  generalize putchar.wrap fb font (putchar.print fb font s c) = t at hx hdvd hrow hscroll
  split_ifs with hlow
  · have hback : sub32 t.term_y font.charsize = s.term_y := by
      rw [sub32_of_le (by omega) (by omega)]
      omega
    refine ⟨⟨hx, ?_⟩, hdvd, ?_⟩
    all_goals rw [scroll, hback]
    · exact hy
    · exact hydvd
  · rw [u32_of_lt (by omega)] at hlow
    refine ⟨⟨hx, Nat.le_of_not_lt hlow⟩, hdvd, ?_⟩
    rcases hrow with heq | heq
    · rw [heq]
      exact hydvd
    · rw [heq]
      exact Nat.dvd_add_self_right.mpr hydvd

theorem start_on_screen (hroom : Room fb font) (m : Memory) :
  OnScreen fb font (start m)
  := by
  refine ⟨⟨?_, ?_⟩, Nat.dvd_zero 8, Nat.dvd_zero _⟩
  · rw [start, Nat.zero_add]
    exact hroom.width_ge
  · rw [start, Nat.zero_add]
    exact hroom.height_ge

theorem OnScreen.run (hroom : Room fb font) (h : OnScreen fb font s) (cs : List ℤ) :
  OnScreen fb font (cs.foldl (Terminal.putchar fb font) s)
  := by
  induction cs generalizing s with
  | nil => exact h
  | cons c cs ih => exact ih (h.putchar hroom c)

/-! ### Any characters -/

/-- After any characters the cursor is at a cell on the screen; what the next one draws or erases is
in a cell on the screen, and when it scrolls, the row of the cursor is not the first. -/
theorem cursor_on_screen (hwidth : 8 ≤ fb.width) (hheight : font.charsize ≤ fb.height)
    (hcharsize : 0 < font.charsize) (hwidth_lt : fb.width < 2 ^ 30)
    (hheight_lt : fb.height < 2 ^ 30) (m : Memory) (cs : List ℤ) :
  let s := cs.foldl (putchar fb font) (start m)
  (s.term_x + 8 ≤ fb.width ∧ s.term_y + font.charsize ≤ fb.height ∧ 8 ∣ s.term_x ∧
    font.charsize ∣ s.term_y) ∧
  ∀ c,
    (match putchar.cell s c with
      | some cell => CellOnScreen fb font cell ∧
          Drawn fb font cell s.mem (putchar.print fb font s c).mem
      | none => (putchar.print fb font s c).mem = s.mem) ∧
    let t := putchar.wrap fb font (putchar.print fb font s c)
    (fb.height < u32 (t.term_y + font.charsize) → font.charsize ≤ t.term_y)
  := by
  have hroom : Room fb font := ⟨hwidth, hheight, hcharsize, hwidth_lt, hheight_lt⟩
  have hon := (start_on_screen hroom m).run hroom cs
  dsimp only
  generalize cs.foldl (putchar fb font) (start m) = s at hon
  refine ⟨⟨hon.on_screen.1, hon.on_screen.2, hon.x_dvd, hon.y_dvd⟩, ?_⟩
  intro c
  constructor
  · have hdrawn := hon.print_drawn hroom c
    cases hcell : putchar.cell s c with
    | none =>
        rw [hcell] at hdrawn
        exact hdrawn
    | some cell =>
        rw [hcell] at hdrawn
        exact ⟨hon.cell_on_screen hcell, hdrawn⟩
  · intro hlow
    rw [((hon.scroll_iff hroom c).mp hlow).1]
    exact Nat.le_add_left _ _

theorem cursor_on_screen_narrow :
  let s := ([65, 66, 9, 8, 10, 67] : List ℤ).foldl (putchar narrow font16) (start fun _ => 0)
  s.term_x + 8 ≤ 20 ∧ s.term_y + 16 ≤ 40
  := by
  have h := (cursor_on_screen (by decide : 8 ≤ narrow.width)
    (by decide : font16.charsize ≤ narrow.height) (by decide) (by decide) (by decide)
    (fun _ => 0) [65, 66, 9, 8, 10, 67]).1
  exact ⟨h.1, h.2.1⟩

end Terminal
