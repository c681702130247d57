import Mathlib.Data.List.Induction
import Mathlib.Logic.Function.Basic

/-!
# Writing on an endless sheet

A typewriter puts characters into the cells of a sheet whose rows have `cols` cells each and that
has no last row.  A character put into a cell in use is put over the one that is there.  A screen of
finitely many rows shows the last rows of the sheet: the cursor goes down only, and what is above
the first row shown is not changed any more.
-/

/-- What is in each cell, by row and column, the character put there last first; and the cursor. -/
structure Sheet (α : Type*) where
  cells : ℕ × ℕ → List α
  row : ℕ
  col : ℕ

namespace Sheet

/-- The keys of a typewriter. -/
inductive Key (α : Type*) where
  | newline
  | carriage
  | tab
  | back
  | glyph (a : α)

variable {α : Type*}

/-- A sheet on which nothing is written. -/
def blank : Sheet α := ⟨fun _ => [], 0, 0⟩

/-- A key, whatever the length of the row. -/
def strike (s : Sheet α) : Key α → Sheet α
  | .newline => { s with row := s.row + 1, col := 0 }
  | .carriage => { s with col := 0 }
  | .tab => { s with col := s.col + 4 }
  | .back =>
      if 0 < s.col then
        { s with cells := Function.update s.cells (s.row, s.col - 1) [], col := s.col - 1 }
      else s
  | .glyph a =>
      { s with
        cells := Function.update s.cells (s.row, s.col) (a :: s.cells (s.row, s.col))
        col := s.col + 1 }

/-- Behind the end of a row the next one begins. -/
def wrap (cols : ℕ) (s : Sheet α) : Sheet α :=
  if cols ≤ s.col then { s with row := s.row + 1, col := 0 } else s

/-- A key on a sheet whose rows have `cols` cells. -/
def press (cols : ℕ) (s : Sheet α) (k : Key α) : Sheet α := wrap cols (s.strike k)

/-- Everything erased; the cursor stays. -/
def erase (s : Sheet α) : Sheet α := { s with cells := fun _ => [] }

/-- The first row shown on a screen of `rows` rows. -/
def top (rows : ℕ) (s : Sheet α) : ℕ := s.row + 1 - rows

/-- The cursor is in a cell, and nothing is written below its row or beside the rows. -/
structure Tidy (cols : ℕ) (s : Sheet α) : Prop where
  col_lt : s.col < cols
  below : ∀ r c, s.row < r → s.cells (r, c) = []
  beside : ∀ r c, cols ≤ c → s.cells (r, c) = []

section

variable {cols rows : ℕ} {s : Sheet α} {k : Key α}

theorem tidy_blank (h : 0 < cols) :
  Tidy cols (blank : Sheet α)
  := ⟨h, fun _ _ _ => rfl, fun _ _ _ => rfl⟩

theorem Tidy.erase (h : Tidy cols s) :
  Tidy cols s.erase
  := ⟨h.col_lt, fun _ _ _ => rfl, fun _ _ _ => rfl⟩

/-- A key changes the cell it names at most, and that one is in the row of the cursor. -/
theorem strike_cells (h : Tidy cols s) {r c : ℕ} (hother : r ≠ s.row ∨ cols ≤ c) :
  (s.strike k).cells (r, c) = s.cells (r, c)
  := by
  have hcol := h.col_lt
  cases k with
  | back =>
      rw [strike]
      split_ifs
      · apply Function.update_of_ne
        simp only [ne_eq, Prod.mk.injEq]
        omega
      · rfl
  | glyph a =>
      apply Function.update_of_ne
      simp only [ne_eq, Prod.mk.injEq]
      omega
  | _ => rfl

theorem strike_row (s : Sheet α) (k : Key α) :
  (s.strike k).row = s.row ∨ (s.strike k).row = s.row + 1 ∧ (s.strike k).col = 0
  := by
  cases k with
  | newline => exact Or.inr ⟨rfl, rfl⟩
  | back =>
      rw [strike]
      split_ifs
      all_goals exact Or.inl rfl
  | _ => exact Or.inl rfl

/-- A tab is the widest key. -/
theorem strike_col (h : Tidy cols s) :
  (s.strike k).col < cols + 4
  := by
  have hcol := h.col_lt
  cases k with
  | back =>
      rw [strike]
      split_ifs
      · exact Nat.lt_of_le_of_lt (Nat.sub_le _ _) (by omega)
      · omega
  | _ =>
      rw [strike]
      dsimp only
      omega

theorem wrap_cells (cols : ℕ) (s : Sheet α) :
  (wrap cols s).cells = s.cells
  := by
  rw [wrap]
  split_ifs
  all_goals rfl

/-- A key takes the cursor one row down at most. -/
theorem press_row (h : 0 < cols) (s : Sheet α) (k : Key α) :
  (s.press cols k).row = s.row ∨ (s.press cols k).row = s.row + 1
  := by
  rw [press, wrap]
  rcases s.strike_row k with hrow | ⟨hrow, hcol⟩
  · split_ifs
    · exact Or.inr (congrArg (· + 1) hrow)
    · exact Or.inl hrow
  · rw [if_neg (by omega)]
    exact Or.inr hrow

theorem Tidy.press (h : Tidy cols s) (k : Key α) :
  Tidy cols (s.press cols k)
  := by
  have hcol := h.col_lt
  have hpos : 0 < cols := by omega
  have hrow : s.row ≤ (s.press cols k).row := by
    have := press_row hpos s k
    omega
  refine ⟨?_, ?_, ?_⟩
  · rw [Sheet.press, wrap]
    split_ifs
    · exact hpos
    · omega
  · intro r c hr
    rw [Sheet.press, wrap_cells, strike_cells h (Or.inl (by omega))]
    apply h.below r c (by omega)
  · intro r c hc
    rw [Sheet.press, wrap_cells, strike_cells h (Or.inr hc)]
    apply h.beside r c hc

/-! ### Text without control characters -/

/-- The text written on a blank sheet, if only glyphs are struck: the character `i` is in the row
`i / cols`, in the column `i % cols`. -/
theorem press_glyphs (h : 0 < cols) (text : List α) :
  let s := (text.map Key.glyph).foldl (press cols) blank
  s.row = text.length / cols ∧ s.col = text.length % cols ∧
    ∀ r c, s.cells (r, c) = if c < cols then (text[r * cols + c]?).toList else []
  := by
  induction text using List.reverseRecOn with
  | nil =>
      refine ⟨(Nat.zero_div cols).symm, (Nat.zero_mod cols).symm, ?_⟩
      intro r c
      rw [List.getElem?_nil]
      split_ifs
      all_goals rfl
  | append_singleton text a ih =>
      obtain ⟨hrow, hcol, hcells⟩ := ih
      simp only [List.map_append, List.foldl_append, List.map_cons, List.map_nil, List.foldl_cons,
        List.foldl_nil, List.length_append, List.length_singleton]
      generalize (text.map Key.glyph).foldl (press cols) blank = s at hrow hcol hcells
      have hlt := Nat.mod_lt text.length h
      have hcursor := Nat.div_add_mod text.length cols
      have hend : (s.press cols (.glyph a)).row = (text.length + 1) / cols ∧
          (s.press cols (.glyph a)).col = (text.length + 1) % cols := by
        rw [press, wrap]
        simp only [strike, hrow, hcol]
        split_ifs with hlast
        · have heq : text.length % cols + 1 = cols := by omega
          have hlength : text.length + 1 = cols * (text.length / cols + 1) := by
            rw [Nat.mul_succ]
            omega
          rw [hlength, Nat.mul_div_cancel_left _ h, Nat.mul_mod_right]
          exact ⟨rfl, rfl⟩
        · have hlength : text.length + 1 = text.length % cols + 1 + cols * (text.length / cols) := by
            omega
          have hlt' : text.length % cols + 1 < cols := by omega
          rw [hlength, Nat.add_mul_div_left _ _ h, Nat.add_mul_mod_self_left,
            Nat.div_eq_of_lt hlt', Nat.mod_eq_of_lt hlt', Nat.zero_add]
          exact ⟨rfl, rfl⟩
      refine ⟨hend.1, hend.2, ?_⟩
      intro r c
      rw [press, wrap_cells]
      simp only [strike, hrow, hcol]
      by_cases hcell : (r, c) = (text.length / cols, text.length % cols)
      · obtain ⟨rfl, rfl⟩ := Prod.mk.inj hcell
        rw [Function.update_self, hcells, if_pos hlt, if_pos hlt, Nat.mul_comm, hcursor,
          List.getElem?_eq_none (Nat.le_refl _), List.getElem?_concat_length]
        rfl
      · rw [Function.update_of_ne hcell, hcells]
        split_ifs with hc
        · have hne : r * cols + c ≠ text.length := by
            rintro heq
            apply hcell
            rw [← heq, Nat.mul_comm, Nat.mul_add_div h, Nat.mul_add_mod, Nat.div_eq_of_lt hc,
              Nat.mod_eq_of_lt hc, Nat.add_zero]
          rcases Nat.lt_or_gt_of_ne hne with hlt' | hgt
          · rw [List.getElem?_append_left hlt']
          · rw [List.getElem?_eq_none (by omega), List.getElem?_eq_none (by simp; omega)]
        · rfl

end

end Sheet
