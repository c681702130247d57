import LySystem.Print.Terminator

/-!
# Conversions

What `printf` of the C standard writes, and where `vsprintk` writes the same.  It writes all
integers as unsigned ones, and the digits of `%x` as those of `%X`.
-/

namespace Print

open CString

/-- The value of a digit. -/
def digit (c : Byte) : Option ℕ :=
  if (byte '0').toNat ≤ c.toNat ∧ c.toNat ≤ (byte '9').toNat then some (c.toNat - (byte '0').toNat)
  else if (byte 'a').toNat ≤ c.toNat ∧ c.toNat ≤ (byte 'f').toNat then
    some (c.toNat - (byte 'a').toNat + 10)
  else if (byte 'A').toNat ≤ c.toNat ∧ c.toNat ≤ (byte 'F').toNat then
    some (c.toNat - (byte 'A').toNat + 10)
  else none

/-- The characters of `%x`. -/
def lowerChar (d : ℕ) : Byte :=
  if d < 10 then itoa.char d else BitVec.ofNat 8 (d - 10 + 'a'.toNat)

/-- What `printf` writes for the piece. -/
def Piece.standard (m : Memory) (arg : BitVec 64) : Piece → List Byte
  | literal c => [c]
  | conversion c =>
      if c = byte 's' then string m arg
      else if c = byte 'd' ∨ c = byte 'i' then Numeral.signed (byte '-') itoa.char 10 arg.toInt
      else if c = byte 'x' then (Numeral.digits 16 arg.toNat).map lowerChar
      else if c = byte 'X' then (Numeral.digits 16 arg.toNat).map itoa.char
      else if c = byte 'c' then [arg.setWidth 8]
      else [c] -- the percent sign

/-- What `printf` writes for the format. -/
def printf (m : Memory) (args : ℕ → BitVec 64) (l : List Byte) : List Byte :=
  (assigned args 0 (pieces l)).flatMap fun a => a.1.standard m a.2

/-- A format that consists of whole conversions, and arguments of their types. -/
structure WellFormed (m : Memory) (ptr : ℕ) (args : ℕ → BitVec 64) (l : List Byte) : Prop
    extends TextAt m ptr l where
  whole : sources (pieces l) = l
  known : ∀ c, .conversion c ∈ pieces l → c ∈ conversions ∨ c = byte '%'
  strings : ∀ arg, (.conversion (byte 's'), arg) ∈ assigned args 0 (pieces l) → arg ≠ 0

/-- `vsprintk` writes what `printf` writes, and returns its length. -/
def Conforms (m : Memory) (ptr : ℕ) (args : ℕ → BitVec 64) (buf : Memory) (l : List Byte) : Prop :=
  vsprintk m ptr args buf (printf m args l ++ [0], (printf m args l).length)

/-- The integer is not negative, and `%x` has no letters to write. -/
def Piece.Plain (arg : BitVec 64) : Piece → Prop
  | literal _ => True
  | conversion c => (c = byte 'd' ∨ c = byte 'i' → 0 ≤ arg.toInt) ∧
      (c = byte 'x' → ∀ d ∈ Numeral.digits 16 arg.toNat, d < 10)

variable {m : Memory} {args : ℕ → BitVec 64} {buf : Memory} {ptr : ℕ} {l : List Byte} {p : Piece}
  {arg : BitVec 64}

/-! ### Numerals are read back -/

theorem digit_itoa_char {d : ℕ} (hd : d < 16) :
  digit (itoa.char d) = some d
  := by
  interval_cases d <;> decide

theorem digit_lowerChar {d : ℕ} (hd : d < 16) :
  digit (lowerChar d) = some d
  := by
  interval_cases d <;> decide

theorem itoa_char_ne_minus {d : ℕ} (hd : d < 16) :
  itoa.char d ≠ byte '-'
  := by
  interval_cases d <;> decide

/-- The text of `%d` is the number. -/
theorem read_standard_int (v : ℤ) :
  Numeral.readSigned (byte '-') digit 10 (Numeral.signed (byte '-') itoa.char 10 v) = some v
  := by
  apply Numeral.readSigned_signed (by decide)
  · intro d hd
    exact digit_itoa_char (by omega)
  · intro d hd
    exact itoa_char_ne_minus (by omega)

/-- The texts of `%x` and of `%X` are the number. -/
theorem read_standard_hex (v : ℕ) :
  Numeral.read digit 16 ((Numeral.digits 16 v).map lowerChar) = some v ∧
    Numeral.read digit 16 ((Numeral.digits 16 v).map itoa.char) = some v
  := ⟨Numeral.read_digits (by decide) (fun _ => digit_lowerChar) v,
    Numeral.read_digits (by decide) (fun _ => digit_itoa_char) v⟩

/-! ### Texts that differ -/

/-- Somewhere the two texts have different characters. -/
def Differ {α : Type*} (l l' : List α) : Prop :=
  ∃ (i : ℕ) (c c' : α), l[i]? = some c ∧ l'[i]? = some c' ∧ c ≠ c'

theorem Differ.append_ne {α : Type*} {l l' : List α} (h : Differ l l') (r r' : List α) :
  l ++ r ≠ l' ++ r'
  := by
  obtain ⟨i, c, c', hc, hc', hne⟩ := h
  intro heq
  have hi := (List.getElem?_eq_some_iff.mp hc).1
  have hi' := (List.getElem?_eq_some_iff.mp hc').1
  have hsame := congrArg (fun l => l[i]?) heq
  rw [List.getElem?_append_left hi, List.getElem?_append_left hi', hc, hc'] at hsame
  exact hne (Option.some.inj hsame)

/-- Two texts of the same parts are the same exactly when all their parts are, if parts that are not
the same differ somewhere. -/
theorem flatMap_eq_iff {α β : Type*} {P : α → Prop} {f g : α → List β} {as : List α}
    (hsame : ∀ a ∈ as, P a → f a = g a) (hdiffer : ∀ a ∈ as, ¬ P a → Differ (f a) (g a)) :
  as.flatMap f = as.flatMap g ↔ ∀ a ∈ as, P a
  := by
  induction as with
  | nil => simp
  | cons a as ih =>
      rw [List.forall_mem_cons] at hsame hdiffer
      rw [List.flatMap_cons, List.flatMap_cons, List.forall_mem_cons, ← ih hsame.2 hdiffer.2]
      by_cases ha : P a
      · rw [hsame.1 ha, List.append_cancel_left_eq, and_iff_right ha]
      · exact iff_of_false ((hdiffer.1 ha).append_ne _ _) fun h => ha h.1

/-! ### Pieces -/

theorem toInt_of_nonneg (h : 0 ≤ arg.toInt) :
  arg.toInt.natAbs = arg.toNat
  := by
  have hlt := arg.isLt
  rw [BitVec.toInt_eq_toNat_cond] at h ⊢
  split_ifs at h ⊢
  · omega
  · omega

theorem written_of_plain (hknown : ∀ c, p = .conversion c → c ∈ conversions ∨ c = byte '%')
    (hstring : p = .conversion (byte 's') → arg ≠ 0) (h : p.Plain arg) :
  p.written m arg = p.standard m arg
  := by
  cases p with
  | literal c => rfl
  | conversion c =>
      obtain ⟨hint, hhex⟩ := h
      rw [Piece.written, Piece.standard]
      by_cases hs : c = byte 's'
      · rw [if_pos hs, if_pos hs, if_neg (hstring (by rw [hs]))]
      rw [if_neg hs, if_neg hs]
      by_cases hd : c = byte 'd' ∨ c = byte 'i'
      · have hnonneg := hint hd
        rw [if_pos hd, if_pos hd, Numeral.signed, if_neg (by omega), List.nil_append,
          toInt_of_nonneg hnonneg, numeral]
      rw [if_neg hd, if_neg hd]
      by_cases hx : c = byte 'x'
      · rw [if_pos (Or.inl hx), if_pos hx, numeral]
        apply List.map_congr_left
        intro d hd
        rw [lowerChar, if_pos (hhex hx d hd)]
      rw [if_neg hx]
      by_cases hX : c = byte 'X'
      · rw [if_pos (Or.inr hX), if_pos hX, numeral]
      rw [if_neg (by tauto), if_neg hX]

theorem written_differs (h : ¬ p.Plain arg) :
  Differ (p.written m arg) (p.standard m arg)
  := by
  cases p with
  | literal c => exact absurd trivial h
  | conversion c =>
      rw [Piece.Plain, not_and_or] at h
      rw [Piece.written, Piece.standard]
      rcases h with h | h
      · -- The sign is missing.
        obtain ⟨hd, hneg⟩ := Classical.not_imp.mp h
        have hs : c ≠ byte 's' := by
          rcases hd with rfl | rfl <;> decide
        rw [if_neg hs, if_pos hd, if_neg hs, if_pos hd, Numeral.signed, if_pos (by omega), numeral]
        cases hdigits : Numeral.digits 10 arg.toNat with
        | nil => exact absurd hdigits (Numeral.digits_ne_nil _ _)
        | cons d ds =>
            have hlt : d < 10 := by
              apply Numeral.lt_of_mem_digits (by decide) (v := arg.toNat)
              rw [hdigits]
              exact List.mem_cons_self
            exact ⟨0, itoa.char d, byte '-', rfl, rfl, itoa_char_ne_minus (by omega)⟩
      · -- A letter is of the other case.
        obtain ⟨rfl, hletter⟩ := Classical.not_imp.mp h
        push Not at hletter
        obtain ⟨d, hmem, hd⟩ := hletter
        have hlt := Numeral.lt_of_mem_digits (by decide) hmem
        obtain ⟨i, hi⟩ := List.mem_iff_getElem?.mp hmem
        rw [if_neg (by decide), if_neg (by decide), if_pos (by decide), if_neg (by decide),
          if_neg (by decide), if_pos rfl, numeral]
        refine ⟨i, itoa.char d, lowerChar d, ?_, ?_, ?_⟩
        · rw [List.getElem?_map, hi]
          rfl
        · rw [List.getElem?_map, hi]
          rfl
        · interval_cases d <;> decide

/-! ### Formats -/

/-- The pieces of a format with their arguments. -/
theorem mem_of_mem_assigned {k : ℕ} {ps : List Piece} (h : (p, arg) ∈ assigned args k ps) :
  p ∈ ps
  := by
  induction ps generalizing k with
  | nil => cases h
  | cons q ps ih =>
      rw [assigned, List.mem_cons] at h
      rcases h with h | h
      · rw [(Prod.mk.inj h).1]
        exact List.mem_cons_self
      · exact List.mem_cons_of_mem q (ih h)

theorem WellFormed.rendered_eq_iff (h : WellFormed m ptr args l) :
  rendered m args 0 (pieces l) = printf m args l ↔
    ∀ a ∈ assigned args 0 (pieces l), a.1.Plain a.2
  := by
  apply flatMap_eq_iff
  · rintro ⟨p, arg⟩ ha hplain
    apply written_of_plain _ _ hplain
    · rintro c rfl
      exact h.known c (mem_of_mem_assigned ha)
    · rintro rfl
      exact h.strings arg ha
  · rintro ⟨p, arg⟩ - hplain
    exact written_differs hplain

/-- What `vsprintk` leaves with. -/
theorem WellFormed.returns (h : WellFormed m ptr args l) (buf : Memory) :
  vsprintk m ptr args buf (rendered m args 0 (pieces l) ++ [0],
    (BitVec.ofNat 32 (rendered m args 0 (pieces l)).length).toInt)
  := by
  obtain ⟨s, hreach, hfmt, hcopying, hout⟩ := h.toTextAt.pieces_reach args buf
  rw [h.whole] at hfmt
  rw [← hout]
  apply hreach.returns
  apply Loop.Returns.stop
  apply step_exit _ _ hcopying
  rw [hfmt, h.char_eq _ le_rfl, chars_of_length_le le_rfl]

theorem toInt_ofNat_eq_iff (n : ℕ) :
  (BitVec.ofNat 32 n).toInt = n ↔ n < 2 ^ 31
  := by
  rw [BitVec.toInt_eq_toNat_cond, BitVec.toNat_ofNat]
  split_ifs <;> omega

/-- `vsprintk` does what `printf` does exactly when no negative integer and no letter of `%x` is
written, and the length fits an `int`. -/
theorem conforms_iff (h : WellFormed m ptr args l) (buf : Memory) :
  Conforms m ptr args buf l ↔
    (∀ a ∈ assigned args 0 (pieces l), a.1.Plain a.2) ∧ (printf m args l).length < 2 ^ 31
  := by
  rw [← h.rendered_eq_iff, ← toInt_ofNat_eq_iff]
  have hreturns := h.returns buf
  constructor
  · intro hconforms
    obtain ⟨hout, hret⟩ := Prod.mk.inj (hreturns.unique hconforms)
    have hsame := List.append_cancel_right hout
    rw [hsame] at hret
    exact ⟨hsame, hret⟩
  · rintro ⟨hout, hret⟩
    rw [hout, hret] at hreturns
    exact hreturns

/-! ### A negative integer -/

theorem wellFormed_int (args : ℕ → BitVec 64) :
  WellFormed (chars (ascii "%d")) 0 args (ascii "%d")
  := by
  have hpieces : pieces (ascii "%d") = [.conversion (byte 'd')] := by decide
  refine ⟨textAt_chars (by decide) (by decide), by decide, ?_, ?_⟩
  · intro c hc
    rw [hpieces, List.mem_singleton, Piece.conversion.injEq] at hc
    rw [hc]
    decide
  · intro arg harg
    rw [hpieces] at harg
    exact absurd (mem_of_mem_assigned harg) (by decide)

theorem conforms_iff_seven :
  Conforms (chars (ascii "%d")) 0 (fun _ => 7) (fun _ => 0) (ascii "%d")
  := by
  apply (conforms_iff (wellFormed_int fun _ => 7) fun _ => 0).mpr
  constructor
  · intro a ha
    obtain rfl : a = (.conversion (byte 'd'), 7) := List.mem_singleton.mp ha
    exact ⟨fun _ => by decide, fun hx => absurd hx (by decide)⟩
  · decide

/-- The integer -1 is printed as 18446744073709551615. -/
theorem sign_lost :
  ¬ ∀ (m : Memory) (ptr : ℕ) (args : ℕ → BitVec 64) (buf : Memory) (l : List Byte),
    WellFormed m ptr args l → Conforms m ptr args buf l
  := by
  intro h
  have hformat := wellFormed_int fun _ => -1
  have hconforms := h _ _ _ (fun _ => 0) _ hformat
  obtain ⟨hout, -⟩ := Prod.mk.inj ((hformat.returns fun _ => 0).unique hconforms)
  have hplain := hformat.rendered_eq_iff.mp (List.append_cancel_right hout)
    (.conversion (byte 'd'), -1) List.mem_cons_self
  have hnonneg := hplain.1 (Or.inl rfl)
  revert hnonneg
  decide

end Print
