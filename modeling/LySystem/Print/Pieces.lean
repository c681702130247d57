import LySystem.Print.Vsprintk

/-!
# The pieces of a format

A format consists of literal characters, and of percent signs with the character behind each of
them.  `vsprintk` writes the pieces one after the other.
-/

namespace Print

open CString

/-- A character that is written as it is, or one behind a percent sign. -/
inductive Piece
  | literal (c : Byte)
  | conversion (c : Byte)
  deriving DecidableEq

/-- The characters of the format. -/
def Piece.source : Piece → List Byte
  | literal c => [c]
  | conversion c => [byte '%', c]

/-- The conversions that have an argument. -/
def conversions : List Byte := ascii "sdixXc"

/-- The number of arguments the piece takes. -/
def Piece.takes : Piece → ℕ
  | literal _ => 0
  | conversion c => if c ∈ conversions then 1 else 0

/-- The characters of the string a pointer points to. -/
def string (m : Memory) (ptr : BitVec 64) : List Byte := text (m.through ptr.toNat) (2 ^ 64)

/-- What is written for the piece, when the next argument is `arg`. -/
def Piece.written (m : Memory) (arg : BitVec 64) : Piece → List Byte
  | literal c => [c]
  | conversion c =>
      if c = byte 's' then if arg = 0 then ascii "(null)" else string m arg
      else if c = byte 'd' ∨ c = byte 'i' then numeral 10 arg.toNat
      else if c = byte 'x' ∨ c = byte 'X' then numeral 16 arg.toNat
      else if c = byte 'c' then [arg.setWidth 8]
      else [c]

/-- The pieces, each with the argument that is next when its turn comes. -/
def assigned (args : ℕ → BitVec 64) : ℕ → List Piece → List (Piece × BitVec 64)
  | _, [] => []
  | k, p :: ps => (p, args k) :: assigned args (k + p.takes) ps

/-- What is written for the pieces. -/
def rendered (m : Memory) (args : ℕ → BitVec 64) (k : ℕ) (ps : List Piece) : List Byte :=
  (assigned args k ps).flatMap fun a => a.1.written m a.2

/-- The piece stands at the index `i` of the format. -/
def Piece.At (fmt : Memory) (i : ℕ) : Piece → Prop
  | literal c => fmt i = c ∧ c ≠ 0 ∧ c ≠ byte '%'
  | conversion c => fmt i = byte '%' ∧ fmt (i + 1) = c

/-- The pieces stand one behind the other, from the index `i` on. -/
def Scanned (fmt : Memory) : ℕ → List Piece → Prop
  | _, [] => True
  | i, p :: ps => p.At fmt i ∧ Scanned fmt (i + p.source.length) ps

/-- The characters of all the pieces. -/
def sources (ps : List Piece) : List Byte := ps.flatMap Piece.source

variable {fmt m : Memory} {args : ℕ → BitVec 64} {s : State} {p : Piece} {ps : List Piece} {i k : ℕ}

theorem rendered_cons (p : Piece) (ps : List Piece) :
  rendered m args k (p :: ps) = p.written m (args k) ++ rendered m args (k + p.takes) ps
  := List.flatMap_cons

theorem sources_cons (p : Piece) (ps : List Piece) :
  sources (p :: ps) = p.source ++ sources ps
  := List.flatMap_cons

theorem mem_conversions {c : Byte} :
  c ∈ conversions ↔ c = byte 's' ∨ (c = byte 'd' ∨ c = byte 'i') ∨
    (c = byte 'x' ∨ c = byte 'X') ∨ c = byte 'c'
  := by
  rw [show conversions = [byte 's', byte 'd', byte 'i', byte 'x', byte 'X', byte 'c'] by decide]
  simp [or_assoc]

/-! ### Strings that end -/

theorem literal_eq_chars (str : String) (i : ℕ) :
  literal str i = chars (ascii str) i
  := by
  rw [literal, chars, ascii, List.getD_eq_getElem?_getD, List.getElem?_map]
  cases str.toList[i]? with
  | none => rfl
  | some c => rfl

/-- Somewhere in the address space there is a zero byte. -/
def HasZero (m : Memory) : Prop := ∃ x < 2 ^ 64, m x = 0

/-- Every string ends, at the latest when it has gone round. -/
theorem HasZero.string_text (h : HasZero m) (ptr : BitVec 64) {j : ℕ}
    (hj : j ≤ (string m ptr).length) :
  m.through ptr.toNat j = chars (string m ptr) j
  := by
  obtain ⟨x, hx, hzero⟩ := h
  have hlt : copied (m.through ptr.toNat) (2 ^ 64) < 2 ^ 64 := by
    apply (copied_le_of_zero (i := sub64 x ptr.toNat) _).trans_lt (u64_lt _)
    rw [Memory.through, Memory.add_sub64 ptr.isLt hx]
    exact hzero
  rw [string, length_text] at hj
  rw [string, chars_text]
  split_ifs with hin
  · rfl
  · obtain rfl : j = copied (m.through ptr.toNat) (2 ^ 64) := by omega
    exact zero_of_copied_lt hlt

/-! ### The loops -/

/-- A string is copied up to its end. -/
theorem copy_reaches {str : Memory} {l : List Byte} (hs : s.copying = some str) (hzero : 0 ∉ l)
    (hstr : ∀ j ≤ l.length, str j = chars l j) :
  Loop.Reaches (vsprintk.step fmt m args) s
    { s with copying := none, fmt := s.fmt + 1, out := s.out ++ l }
  := by
  induction l generalizing s str with
  | nil =>
      have hend : str 0 = 0 := hstr 0 le_rfl
      apply Loop.Reaches.step
      rw [vsprintk.step, hs]
      dsimp only
      rw [if_neg (not_not_intro hend), List.append_nil]
  | cons c l ih =>
      have hc : str 0 = c := hstr 0 (Nat.zero_le _)
      have hne : str 0 ≠ 0 := by
        rw [hc]
        rintro rfl
        exact hzero List.mem_cons_self
      have hstep : vsprintk.step fmt m args s =
          .inl { s with copying := some (str.drop 1), out := s.out ++ [c] } := by
        rw [vsprintk.step, hs]
        dsimp only
        rw [if_pos hne, hc]
      apply (Loop.Reaches.step hstep).trans
      have hrest := ih (s := { s with copying := some (str.drop 1), out := s.out ++ [c] }) rfl
        (fun hmem => hzero (List.mem_cons_of_mem c hmem))
      rw [List.append_cons s.out c l]
      apply hrest
      intro j hj
      rw [Memory.drop, hstr (1 + j) (by rw [List.length_cons]; omega), ← chars_drop]
      rfl

/-- A numeral is copied from the buffer. -/
theorem numeral_reaches (fmt m : Memory) (args : ℕ → BitVec 64) {base : ℕ} (hbase : 1 < base)
    (h16 : base ≤ 16) (arg : BitVec 64) (buf : Memory) (s : State) :
  Loop.Reaches (vsprintk.step fmt m args) { s with copying := some (itoa arg buf base) }
    { s with copying := none, fmt := s.fmt + 1, out := s.out ++ numeral base arg.toNat }
  := copy_reaches (s := { s with copying := some (itoa arg buf base) }) rfl
    (zero_notMem_numeral hbase (h16.trans (by decide)) _) fun _ hj => itoa_text hbase arg buf hj

/-- A piece is written, and the scan goes on behind it. -/
theorem piece_reaches (args : ℕ → BitVec 64) (hm : HasZero m) (hs : s.copying = none)
    (hp : p.At fmt s.fmt) :
  ∃ buf, Loop.Reaches (vsprintk.step fmt m args) s
    ⟨s.fmt + p.source.length, s.arg + p.takes, buf, none, s.out ++ p.written m (args s.arg)⟩
  := by
  obtain ⟨i, k, buf, copying, out⟩ := s
  obtain rfl : copying = none := hs
  cases p with
  | literal c =>
      obtain ⟨hc, hzero, hpercent⟩ := hp
      use buf
      apply Loop.Reaches.step
      dsimp only at hc
      rw [vsprintk.step]
      dsimp only
      rw [hc, if_neg hzero, if_pos hpercent]
      rfl
  | conversion c =>
      obtain ⟨hpercent, hc⟩ := hp
      dsimp only at hpercent hc
      have hstep : vsprintk.step fmt m args ⟨i, k, buf, none, out⟩ =
          .inl (vsprintk.switch m args ⟨i + 1, k, buf, none, out⟩ c) := by
        rw [vsprintk.step]
        dsimp only
        rw [hpercent, if_neg (by decide), if_neg (by decide), hc]
      have hfirst := Loop.Reaches.step hstep
      rw [vsprintk.switch] at hfirst
      rw [Piece.source, Piece.takes, Piece.written]
      dsimp only at hfirst ⊢
      rw [show i + [byte '%', c].length = i + 1 + 1 by rfl]
      by_cases hstring : c = byte 's'
      · rw [if_pos hstring] at hfirst
        rw [if_pos hstring, if_pos (by rw [hstring]; decide)]
        refine ⟨buf, hfirst.trans ?_⟩
        split_ifs with hnull
        · exact copy_reaches rfl (by decide) fun j _ => literal_eq_chars _ j
        · exact copy_reaches rfl (zero_notMem_text _ _) fun j hj => hm.string_text _ hj
      rw [if_neg hstring] at hfirst ⊢
      by_cases hd : c = byte 'd' ∨ c = byte 'i'
      · rw [if_pos hd] at hfirst
        rw [if_pos hd, if_pos (by rcases hd with rfl | rfl <;> decide)]
        have hcopy := numeral_reaches fmt m args (by decide : 1 < 10) (by decide) (args k) buf
          ⟨i + 1, k + 1, itoa (args k) buf 10, none, out⟩
        dsimp only at hcopy
        exact ⟨_, hfirst.trans hcopy⟩
      rw [if_neg hd] at hfirst ⊢
      by_cases hx : c = byte 'x' ∨ c = byte 'X'
      · rw [if_pos hx] at hfirst
        rw [if_pos hx, if_pos (by rcases hx with rfl | rfl <;> decide)]
        have hcopy := numeral_reaches fmt m args (by decide : 1 < 16) (by decide) (args k) buf
          ⟨i + 1, k + 1, itoa (args k) buf 16, none, out⟩
        dsimp only at hcopy
        exact ⟨_, hfirst.trans hcopy⟩
      rw [if_neg hx] at hfirst ⊢
      by_cases hchar : c = byte 'c'
      · rw [if_pos hchar] at hfirst
        rw [if_pos hchar, if_pos (by rw [hchar]; decide)]
        exact ⟨buf, hfirst⟩
      rw [if_neg hchar] at hfirst ⊢
      -- The other characters are written as they are, and take no argument.
      have hother : c ∉ conversions := by
        rw [mem_conversions]
        tauto
      rw [if_neg hother]
      use buf
      split_ifs at hfirst with hpercent
      · rw [hpercent]
        exact hfirst
      · exact hfirst

/-- Pieces are written one after the other. -/
theorem pieces_reach (args : ℕ → BitVec 64) (hm : HasZero m) (hs : s.copying = none)
    (hps : Scanned fmt s.fmt ps) :
  ∃ s', Loop.Reaches (vsprintk.step fmt m args) s s' ∧ s'.fmt = s.fmt + (sources ps).length ∧
    s'.copying = none ∧ s'.out = s.out ++ rendered m args s.arg ps
  := by
  induction ps generalizing s with
  | nil => exact ⟨s, Loop.Reaches.refl s, rfl, hs, (List.append_nil _).symm⟩
  | cons p ps ih =>
      obtain ⟨hp, hps⟩ := hps
      obtain ⟨buf, hfirst⟩ := piece_reaches args hm hs hp
      obtain ⟨s', hrest, hfmt, hcopying, hout⟩ := ih (s := ⟨s.fmt + p.source.length,
        s.arg + p.takes, buf, none, s.out ++ p.written m (args s.arg)⟩) rfl hps
      refine ⟨s', hfirst.trans hrest, ?_, hcopying, ?_⟩
      · rw [hfmt, sources_cons, List.length_append, Nat.add_assoc]
      · rw [hout, rendered_cons, List.append_assoc]

/-- At a zero byte the scan ends. -/
theorem step_exit (m : Memory) (args : ℕ → BitVec 64) (hs : s.copying = none)
    (hend : fmt s.fmt = 0) :
  vsprintk.step fmt m args s = .inr (s.out ++ [0], (BitVec.ofNat 32 s.out.length).toInt)
  := by
  rw [vsprintk.step, hs]
  dsimp only
  rw [if_pos hend]

end Print
