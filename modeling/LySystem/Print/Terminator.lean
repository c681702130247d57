import LySystem.Print.Pieces
import Mathlib.Data.List.DropRight

/-!
# The end of the format

Behind a percent sign `vsprintk` does not look for the end of the format.  One that is the last
character makes it take the zero byte for a conversion and go on behind it.
-/

namespace Print

open CString

/-- The characters stand where the pointer points to, and a zero byte behind them. -/
structure TextAt (m : Memory) (ptr : ℕ) (l : List Byte) : Prop where
  char_eq : ∀ i ≤ l.length, m.through ptr i = chars l i
  zero_notMem : 0 ∉ l

/-- The pieces of a text.  A percent sign that is the last character begins no conversion. -/
def pieces : List Byte → List Piece
  | [] => []
  | [c] => if c = byte '%' then [] else [.literal c]
  | c :: c' :: l =>
      if c = byte '%' then .conversion c' :: pieces l else .literal c :: pieces (c' :: l)

/-- The number of percent signs at the end. -/
def trailing (l : List Byte) : ℕ := (l.rtakeWhile fun c => c = byte '%').length

/-- `vsprintk` reads nothing behind the end of its format, and leaves with the pieces written. -/
def StopsAtEnd (m : Memory) (fmt : ℕ) (args : ℕ → BitVec 64) (buf : Memory) (l : List Byte) :
    Prop :=
  (∃ ret, vsprintk m fmt args buf (rendered m args 0 (pieces l) ++ [0], ret)) ∧
    ∀ s, Loop.Reaches (vsprintk.step (m.through fmt) m args) (vsprintk.start buf) s →
      ∀ i ∈ vsprintk.reads (m.through fmt) s, i ≤ l.length

variable {fmt m : Memory} {args : ℕ → BitVec 64} {buf : Memory} {ptr i : ℕ} {l : List Byte}

theorem TextAt.hasZero (h : TextAt m ptr l) :
  HasZero m
  := by
  use u64 (ptr + l.length), u64_lt _
  exact (h.char_eq l.length le_rfl).trans (chars_of_length_le le_rfl)

/-! ### Texts and their pieces -/

theorem trailing_le (l : List Byte) :
  trailing l ≤ l.length
  := (List.rtakeWhile_suffix _ l).length_le

theorem trailing_cons (c : Byte) (l : List Byte) :
  trailing (c :: l) =
    if trailing l = l.length then l.length + (if c = byte '%' then 1 else 0) else trailing l
  := by
  simp only [trailing, List.rtakeWhile, List.reverse_cons, List.takeWhile_append, List.length_reverse]
  split_ifs with hall hc
  · simp [hc]
  · simp [hc]
  · rfl

/-- The pieces make up the text, but for a percent sign that begins no conversion. -/
theorem sources_pieces (l : List Byte) :
  sources (pieces l) ++ (if Even (trailing l) then [] else [byte '%']) = l
  := by
  induction l using pieces.induct with
  | case1 => rfl
  | case2 => rfl
  | case3 c hc =>
      have heven : Even (trailing [c]) := by
        rw [trailing_cons, if_neg hc]
        exact ⟨0, rfl⟩
      rw [pieces, if_neg hc, if_pos heven]
      rfl
  | case4 c' l ih =>
      have hparity : Even (trailing (byte '%' :: c' :: l)) ↔ Even (trailing l) := by
        have hle := trailing_le l
        rw [trailing_cons, trailing_cons, List.length_cons, if_pos rfl, Nat.even_iff, Nat.even_iff]
        split_ifs
        all_goals omega
      rw [pieces, if_pos rfl, sources_cons]
      simp only [hparity]
      rw [List.append_assoc, ih]
      rfl
  | case5 c c' l hc ih =>
      have hparity : trailing (c :: c' :: l) = trailing (c' :: l) := by
        rw [trailing_cons c, if_neg hc]
        split_ifs with hall
        · exact hall.symm
        · rfl
      rw [pieces, if_neg hc, sources_cons, hparity, List.append_assoc, ih]
      rfl

/-- The pieces of a text stand in the format. -/
theorem scanned_pieces (hzero : 0 ∉ l) (hl : ∀ j ≤ l.length, fmt (i + j) = chars l j) :
  Scanned fmt i (pieces l)
  := by
  induction l using pieces.induct generalizing i with
  | case1 => trivial
  | case2 => trivial
  | case3 c hc =>
      rw [pieces, if_neg hc]
      refine ⟨⟨hl 0 (Nat.zero_le _), ?_, hc⟩, trivial⟩
      rintro rfl
      exact hzero List.mem_cons_self
  | case4 c' l ih =>
      rw [pieces, if_pos rfl]
      refine ⟨⟨hl 0 (Nat.zero_le _), hl 1 (by simp)⟩, ?_⟩
      apply ih
      · intro hmem
        exact hzero (List.mem_cons_of_mem _ (List.mem_cons_of_mem _ hmem))
      · intro j hj
        change fmt (i + 2 + j) = _
        rw [Nat.add_assoc, hl (2 + j) (by simp only [List.length_cons]; omega), ← chars_drop]
        rfl
  | case5 c c' l hc ih =>
      rw [pieces, if_neg hc]
      refine ⟨⟨hl 0 (Nat.zero_le _), ?_, hc⟩, ?_⟩
      · rintro rfl
        exact hzero List.mem_cons_self
      apply ih
      · intro hmem
        exact hzero (List.mem_cons_of_mem _ hmem)
      · intro j hj
        change fmt (i + 1 + j) = _
        rw [Nat.add_assoc, hl (1 + j) (by simp only [List.length_cons] at hj ⊢; omega), ← chars_drop]
        rfl

/-! ### What is read -/

/-- What a round reads lies before the character the scan is at after it. -/
theorem reads_le_next {s s' : State} (h : vsprintk.step fmt m args s = .inl s')
    (hi : i ∈ vsprintk.reads fmt s) :
  i ≤ s'.fmt
  := by
  rw [vsprintk.reads] at hi
  rw [vsprintk.step] at h
  cases hcopying : s.copying with
  | some str =>
      rw [hcopying] at hi
      cases hi
  | none =>
      rw [hcopying] at hi h
      dsimp only at hi h
      split_ifs at h with hzero hpercent
      · rw [if_neg hpercent] at hi
        obtain rfl := List.mem_singleton.mp hi
        obtain rfl := Sum.inl.inj h
        exact Nat.le_succ _
      · obtain rfl := Sum.inl.inj h
        have hfmt := (switch_mono m args { s with fmt := s.fmt + 1, copying := none }
          (fmt (s.fmt + 1))).1
        have hile : i ≤ s.fmt + 1 := by
          split_ifs at hi
          all_goals simp at hi
          all_goals omega
        exact hile.trans hfmt

/-- Before the scan ends at an index, nothing behind it is read. -/
theorem reads_le_end {s t : State} (h : Loop.Reaches (vsprintk.step fmt m args) s t)
    (ht : t.copying = none) (hend : fmt t.fmt = 0) (hi : i ∈ vsprintk.reads fmt s) :
  i ≤ t.fmt
  := by
  rcases Relation.ReflTransGen.cases_head h with rfl | ⟨s', hstep, hrest⟩
  · rw [vsprintk.reads, ht] at hi
    dsimp only at hi
    rw [hend, if_neg (by decide)] at hi
    rw [List.mem_singleton.mp hi]
  · exact (reads_le_next hstep hi).trans (reaches_mono hrest).1

/-- Up to the end of the text, or to the percent sign that is its last character. -/
theorem TextAt.pieces_reach (h : TextAt m ptr l) (args : ℕ → BitVec 64) (buf : Memory) :
  ∃ s, Loop.Reaches (vsprintk.step (m.through ptr) m args) (vsprintk.start buf) s ∧
    s.fmt = (sources (pieces l)).length ∧ s.copying = none ∧ s.out = rendered m args 0 (pieces l)
  := by
  have hscanned : Scanned (m.through ptr) 0 (pieces l) := by
    apply scanned_pieces h.zero_notMem
    intro j hj
    rw [Nat.zero_add]
    exact h.char_eq j hj
  obtain ⟨s, hreach, hfmt, hcopying, hout⟩ :=
    Print.pieces_reach args h.hasZero (s := vsprintk.start buf) rfl hscanned
  rw [vsprintk.start, Nat.zero_add] at hfmt
  exact ⟨s, hreach, hfmt, hcopying, hout⟩

/-- A percent sign that is the last character leads behind the end. -/
theorem TextAt.passes_end (h : TextAt m ptr l) (hodd : ¬ Even (trailing l)) (args : ℕ → BitVec 64)
    (buf : Memory) :
  ∃ s, Loop.Reaches (vsprintk.step (m.through ptr) m args) (vsprintk.start buf) s ∧
    l.length + 1 ∈ vsprintk.reads (m.through ptr) s
  := by
  obtain ⟨s, hreach, hfmt, hcopying, -⟩ := h.pieces_reach args buf
  have hsources := sources_pieces l
  rw [if_neg hodd] at hsources
  have hlen : s.fmt + 1 = l.length := by
    have hlen := congrArg List.length hsources
    rw [List.length_append, ← hfmt] at hlen
    exact hlen
  have hpercent : chars l s.fmt = byte '%' := by
    rw [hfmt]
    generalize sources (pieces l) = front at hsources
    subst hsources
    simp [chars]
  -- The zero byte is taken for a conversion.
  have hlast : (Piece.conversion 0).At (m.through ptr) s.fmt := by
    constructor
    · rw [h.char_eq _ (by omega), hpercent]
    · rw [h.char_eq _ (by omega), chars_of_length_le (by omega)]
  obtain ⟨buf', hbehind⟩ := piece_reaches args h.hasZero hcopying hlast
  refine ⟨_, hreach.trans hbehind, ?_⟩
  rw [← hlen]
  change s.fmt + 2 ∈ if m.through ptr (s.fmt + 2) = byte '%' then [s.fmt + 2, s.fmt + 3] else _
  split_ifs
  all_goals exact List.mem_cons_self

/-- `vsprintk` stops at the end of its format exactly when the number of percent signs at the end is
even. -/
theorem stops_at_end_iff (h : TextAt m ptr l) (args : ℕ → BitVec 64) (buf : Memory) :
  StopsAtEnd m ptr args buf l ↔ Even (trailing l)
  := by
  by_cases heven : Even (trailing l)
  · apply iff_of_true _ heven
    obtain ⟨s, hreach, hfmt, hcopying, hout⟩ := h.pieces_reach args buf
    have hsources := sources_pieces l
    rw [if_pos heven, List.append_nil] at hsources
    rw [hsources] at hfmt
    have hend : m.through ptr s.fmt = 0 := by
      rw [hfmt, h.char_eq l.length le_rfl, chars_of_length_le le_rfl]
    have hexit := step_exit m args hcopying hend
    constructor
    · use (BitVec.ofNat 32 s.out.length).toInt
      apply hreach.returns
      rw [← hout]
      exact Loop.Returns.stop hexit
    · intro t ht i hi
      rw [← hfmt]
      exact reads_le_end (ht.exit hreach hexit) hcopying hend hi
  · apply iff_of_false _ heven
    obtain ⟨s, hreach, hbehind⟩ := h.passes_end heven args buf
    rintro ⟨-, hreads⟩
    have := hreads s hreach _ hbehind
    omega

/-! ### A text at the beginning of the memory -/

theorem textAt_chars (hzero : 0 ∉ l) (hlen : l.length < 2 ^ 64) :
  TextAt (chars l) 0 l
  := by
  refine ⟨?_, hzero⟩
  intro i hi
  rw [Memory.through, Nat.zero_add, u64, Nat.mod_eq_of_lt (by omega)]

theorem stops_at_end_done :
  StopsAtEnd (chars (ascii "100%% of %d")) 0 (fun _ => 7) (fun _ => 0) (ascii "100%% of %d")
  := (stops_at_end_iff (textAt_chars (by decide) (by decide)) _ _).mpr (by decide)

/-- The scan goes on behind the end of a format that ends in a percent sign. -/
theorem end_passed :
  ¬ ∀ (m : Memory) (ptr : ℕ) (l : List Byte) (args : ℕ → BitVec 64) (buf : Memory),
    TextAt m ptr l → StopsAtEnd m ptr args buf l
  := by
  intro h
  have htext : TextAt (chars (ascii "100%")) 0 (ascii "100%") :=
    textAt_chars (by decide) (by decide)
  obtain ⟨s, hreach, hbehind⟩ := htext.passes_end (by decide) (fun _ => 0) fun _ => 0
  have := (h _ _ _ _ _ htext).2 s hreach _ hbehind
  revert this
  decide

end Print
