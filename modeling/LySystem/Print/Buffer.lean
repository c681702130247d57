import LySystem.Print.Terminator
import Mathlib.Data.Nat.Count

/-!
# The buffer of `printk`

`printk` has a buffer of 2048 bytes, and `vsprintk` does not know its size.  The output fits exactly
when the scan of the format ends, and the pieces up to there take less than 2048 bytes.
-/

namespace Print

open CString

/-- The number of bytes written for the piece. -/
def Piece.width (m : Memory) (arg : BitVec 64) : Piece → ℕ
  | literal _ => 1
  | conversion c =>
      if c = byte 's' then
        if arg = 0 then 6 else copied (m.through arg.toNat) (2 ^ 64) -- the length of the string
      else if c = byte 'd' ∨ c = byte 'i' then (Numeral.digits 10 arg.toNat).length
      else if c = byte 'x' ∨ c = byte 'X' then (Numeral.digits 16 arg.toNat).length
      else 1

/-- The number of bytes written for the pieces. -/
def width (m : Memory) (args : ℕ → BitVec 64) (k : ℕ) (ps : List Piece) : ℕ :=
  ((assigned args k ps).map fun a => a.1.width m a.2).sum

/-- No more than 2048 bytes are written, at any time. -/
def Fits (m : Memory) (ptr : ℕ) (args : ℕ → BitVec 64) (buf : Memory) : Prop :=
  (∀ s, Loop.Reaches (vsprintk.step (m.through ptr) m args) (vsprintk.start buf) s →
    s.out.length ≤ 2048) ∧
  ∀ r, vsprintk m ptr args buf r → r.1.length ≤ 2048

/-- The scan of the format comes to an end behind these pieces. -/
structure ScanEnds (m : Memory) (ptr : ℕ) (ps : List Piece) : Prop where
  scanned : Scanned (m.through ptr) 0 ps
  zero : m.through ptr (sources ps).length = 0

variable {fmt m : Memory} {args : ℕ → BitVec 64} {buf : Memory} {ptr i k : ℕ} {l : List Byte}
  {p : Piece} {ps qs : List Piece} {arg : BitVec 64}

theorem length_written (m : Memory) (arg : BitVec 64) (p : Piece) :
  (p.written m arg).length = p.width m arg
  := by
  cases p with
  | literal c => rfl
  | conversion c =>
      rw [Piece.written, Piece.width]
      split_ifs
      · rfl
      · exact length_text _ _
      · exact List.length_map _
      · exact List.length_map _
      · rfl
      · rfl

theorem length_rendered (m : Memory) (args : ℕ → BitVec 64) (k : ℕ) (ps : List Piece) :
  (rendered m args k ps).length = width m args k ps
  := by
  rw [rendered, width, List.length_flatMap]
  simp only [length_written]

/-- When the scan ends, the output fits exactly when the pieces and a zero byte do. -/
theorem ScanEnds.fits_iff (h : ScanEnds m ptr ps) (hm : HasZero m) (args : ℕ → BitVec 64)
    (buf : Memory) :
  Fits m ptr args buf ↔ width m args 0 ps < 2048
  := by
  obtain ⟨s, hreach, hfmt, hcopying, hout⟩ :=
    pieces_reach args hm (s := vsprintk.start buf) rfl h.scanned
  rw [vsprintk.start, Nat.zero_add] at hfmt
  rw [vsprintk.start, List.nil_append] at hout
  have hlen : s.out.length = width m args 0 ps := by
    rw [hout]
    exact length_rendered m args 0 ps
  have hexit := step_exit m args hcopying (by rw [hfmt]; exact h.zero)
  have hreturns := hreach.returns (Loop.Returns.stop hexit)
  constructor
  · intro hfits
    have hle := hfits.2 _ hreturns
    rw [List.length_append, List.length_singleton] at hle
    omega
  · intro hwidth
    constructor
    · intro t ht
      have := (reaches_mono (ht.exit hreach hexit)).2
      omega
    · intro r hr
      rw [← hreturns.unique hr, List.length_append, List.length_singleton]
      omega

/-! ### Scans that do not end -/

theorem scanned_append :
  Scanned fmt i (ps ++ qs) ↔ Scanned fmt i ps ∧ Scanned fmt (i + (sources ps).length) qs
  := by
  induction ps generalizing i with
  | nil => simp [Scanned, sources]
  | cons p ps ih =>
      rw [List.cons_append, Scanned, Scanned, ih, sources_cons, List.length_append, and_assoc,
        Nat.add_assoc]

/-- Where there is a character there is a piece. -/
theorem exists_piece_at (h : fmt i ≠ 0) :
  ∃ p : Piece, p.At fmt i
  := by
  by_cases hpercent : fmt i = byte '%'
  · exact ⟨.conversion (fmt (i + 1)), hpercent, rfl⟩
  · exact ⟨.literal (fmt i), rfl, h, hpercent⟩

/-- A scan that does not end passes more and more pieces. -/
theorem exists_scanned (h : ∀ ps, ¬ ScanEnds m ptr ps) (n : ℕ) :
  ∃ ps, ps.length = n ∧ Scanned (m.through ptr) 0 ps
  := by
  induction n with
  | zero => exact ⟨[], rfl, trivial⟩
  | succ n ih =>
      obtain ⟨ps, hlen, hps⟩ := ih
      obtain ⟨p, hp⟩ := exists_piece_at fun hzero => h ps ⟨hps, hzero⟩
      refine ⟨ps ++ [p], ?_, ?_⟩
      · rw [List.length_append, hlen, List.length_singleton]
      · rw [scanned_append, Nat.zero_add]
        exact ⟨hps, hp, trivial⟩

theorem length_le_sources (ps : List Piece) :
  ps.length ≤ (sources ps).length
  := by
  induction ps with
  | nil => exact le_rfl
  | cons p ps ih =>
      have hsource : 1 ≤ p.source.length := by
        cases p with
        | literal c => exact le_rfl
        | conversion c => exact Nat.le_succ 1
      rw [sources_cons, List.length_append, List.length_cons]
      omega

/-- A zero byte that the scan passes is a conversion, and one is written for it. -/
theorem count_zero_le (m : Memory) (args : ℕ → BitVec 64) (k : ℕ) (hps : Scanned fmt i ps) :
  Nat.count (fun j => fmt j = 0) (i + (sources ps).length) ≤
    Nat.count (fun j => fmt j = 0) i + (rendered m args k ps).length
  := by
  induction ps generalizing i k with
  | nil => exact le_rfl
  | cons p ps ih =>
      obtain ⟨hp, hps⟩ := hps
      have hrest := ih (k + p.takes) hps
      rw [sources_cons, List.length_append, rendered_cons, List.length_append, ← Nat.add_assoc]
      have hpiece : Nat.count (fun j => fmt j = 0) (i + p.source.length) ≤
          Nat.count (fun j => fmt j = 0) i + (p.written m (args k)).length := by
        cases p with
        | literal c =>
            obtain ⟨rfl, hne, -⟩ := hp
            rw [Piece.source, List.length_singleton, Nat.count_succ, if_neg hne]
            exact Nat.le_add_right _ _
        | conversion c =>
            obtain ⟨hpercent, rfl⟩ := hp
            have hne : fmt i ≠ 0 := by
              rw [hpercent]
              decide
            change Nat.count _ (i + 1 + 1) ≤ _
            rw [Nat.count_succ, Nat.count_succ, if_neg hne]
            split_ifs with hzero
            · rw [hzero]
              exact le_rfl
            · exact Nat.le_add_right _ _
      omega

/-- Each time round the address space there is a zero byte. -/
theorem le_count_zero (h : TextAt m ptr l) (n : ℕ) :
  n ≤ Nat.count (fun j => m.through ptr j = 0) (n * 2 ^ 64)
  := by
  have hround : ∀ n j, m.through ptr (n * 2 ^ 64 + j) = m.through ptr j := by
    intro n j
    rw [Memory.through, Memory.through, u64, u64]
    congr 1
    omega
  have hzero : m.through ptr (l.length % 2 ^ 64) = 0 := by
    rw [← hround (l.length / 2 ^ 64), Nat.mul_comm, Nat.div_add_mod, h.char_eq _ le_rfl,
      chars_of_length_le le_rfl]
  have hone := Nat.count_strict_mono (p := fun j => m.through ptr j = 0) hzero
    (Nat.mod_lt l.length (Nat.two_pow_pos 64))
  induction n with
  | zero => exact Nat.zero_le _
  | succ n ih =>
      rw [Nat.succ_mul, Nat.count_add]
      simp only [hround]
      omega

/-- The output of `printk` fits its buffer exactly when the scan of the format ends, and the pieces
up to there take less than 2048 bytes. -/
theorem buffer_fits_iff (h : TextAt m ptr l) (args : ℕ → BitVec 64) (buf : Memory) :
  Fits m ptr args buf ↔ ∃ ps, ScanEnds m ptr ps ∧ width m args 0 ps < 2048
  := by
  constructor
  · intro hfits
    by_cases hends : ∃ ps, ScanEnds m ptr ps
    · obtain ⟨ps, hps⟩ := hends
      exact ⟨ps, hps, (hps.fits_iff h.hasZero args buf).mp hfits⟩
    · push Not at hends
      -- After 2049 times round the address space, 2049 zero bytes are written.
      obtain ⟨ps, hlen, hps⟩ := exists_scanned hends (2049 * 2 ^ 64)
      obtain ⟨s, hreach, -, -, hout⟩ :=
        pieces_reach args h.hasZero (s := vsprintk.start buf) rfl hps
      have hfit := hfits.1 s hreach
      rw [vsprintk.start, List.nil_append] at hout
      have hcount := count_zero_le m args 0 hps
      have hround := le_count_zero h 2049
      have hmono := Nat.count_monotone (fun j => m.through ptr j = 0) (length_le_sources ps)
      rw [hlen] at hmono
      rw [Nat.zero_add, Nat.count_zero, Nat.zero_add] at hcount
      rw [hout] at hfit
      dsimp only at hfit
      omega
  · rintro ⟨ps, hps, hwidth⟩
    exact (hps.fits_iff h.hasZero args buf).mpr hwidth

theorem buffer_fits_percent :
  Fits (chars (ascii "100%% of %d")) 0 (fun _ => 7) (fun _ => 0)
  := by
  have htext := textAt_chars (l := ascii "100%% of %d") (by decide) (by decide)
  apply (buffer_fits_iff htext _ _).mpr
  use pieces (ascii "100%% of %d")
  refine ⟨⟨?_, by decide⟩, by decide⟩
  apply scanned_pieces htext.zero_notMem
  intro j hj
  rw [Nat.zero_add]
  exact htext.char_eq j hj

/-! ### The heading of a directory -/

/-- The format `minix_ListDir` prints the path of a directory with. -/
def heading : List Byte := ascii "\n--- Dizin Icerigi: %s ---\n"

theorem width_cons (p : Piece) (ps : List Piece) :
  width m args k (p :: ps) = p.width m (args k) + width m args (k + p.takes) ps
  := List.sum_cons

theorem width_literals (l : List Byte) (ps : List Piece) :
  width m args k (l.map .literal ++ ps) = l.length + width m args k ps
  := by
  induction l with
  | nil => simp
  | cons c l ih =>
      rw [List.map_cons, List.cons_append, width_cons, List.length_cons]
      change 1 + width m args k _ = _
      rw [ih]
      omega

theorem heading_width (hname : args 0 ≠ 0) :
  width m args 0 (pieces heading) = 25 + copied (m.through (args 0).toNat) (2 ^ 64)
  := by
  have hpieces : pieces heading = (ascii "\n--- Dizin Icerigi: ").map .literal ++
      .conversion (byte 's') :: ((ascii " ---\n").map .literal ++ []) := by decide
  rw [hpieces, width_literals, width_cons, width_literals, Piece.width, if_pos rfl, if_neg hname]
  change 20 + (copied _ _ + (5 + 0)) = _
  omega

/-- The heading fits when the path has less than 2023 characters. -/
theorem heading_fits_iff (h : TextAt m ptr heading) (hname : args 0 ≠ 0) (buf : Memory) :
  Fits m ptr args buf ↔ copied (m.through (args 0).toNat) (2 ^ 64) < 2023
  := by
  have hends : ScanEnds m ptr (pieces heading) := by
    constructor
    · apply scanned_pieces h.zero_notMem
      intro j hj
      rw [Nat.zero_add]
      exact h.char_eq j hj
    · have hsources : (sources (pieces heading)).length = heading.length := by decide
      rw [hsources, h.char_eq _ le_rfl, chars_of_length_le le_rfl]
  rw [hends.fits_iff h.hasZero, heading_width hname]
  omega

/-! ### A long path -/

/-- A memory with the heading at its beginning, and the path `./././…` of 3000 characters behind. -/
def longPath : Memory := fun x =>
  if x < 4096 then chars heading x
  else if x < 7096 then if x % 2 = 0 then byte '.' else byte '/'
  else 0

theorem textAt_longPath :
  TextAt longPath 0 heading
  := by
  refine ⟨?_, by decide⟩
  intro i hi
  have hlen : heading.length = 27 := by decide
  rw [Memory.through, Nat.zero_add, u64, Nat.mod_eq_of_lt (by omega), longPath, if_pos (by omega)]

theorem heading_unbounded :
  2023 ≤ copied (longPath.through 4096) (2 ^ 64)
  := by
  apply lt_copied_iff.mpr
  refine ⟨by decide, ?_⟩
  intro j hj
  rw [Memory.through, u64, Nat.mod_eq_of_lt (by omega), longPath, if_neg (by omega),
    if_pos (by omega)]
  split_ifs
  all_goals decide

/-- The heading of a directory overruns the buffer. -/
theorem buffer_overrun :
  ¬ ∀ (m : Memory) (ptr : ℕ) (args : ℕ → BitVec 64) (buf : Memory) (l : List Byte),
    TextAt m ptr l → Fits m ptr args buf
  := by
  intro h
  have hfits := h longPath 0 (fun _ => 4096) (fun _ => 0) heading textAt_longPath
  have hlt := (heading_fits_iff textAt_longPath (by decide) _).mp hfits
  have hge := heading_unbounded
  exact absurd hlt (Nat.not_lt.mpr hge)

end Print
