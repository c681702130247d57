import LySystem.Lib.Libc

/-!
# A call of `strtok`

`strtok` of `lib/string.c` on the memory it cuts up: the token it returns ends where it has
overwritten a delimiter, and its static variable points behind that.
-/

namespace CString.InPlace

/-- The memory, and the static variable of `strtok`, which is 0 when it is `NULL`. -/
structure State where
  mem : Memory
  last_pos : ℕ

/-- The loop over `d`, which looks for the character `c` and leaves with `is_delimiter`. -/
def is_delimiter.step (m : Memory) (c : Byte) (d : ℕ) : ℕ ⊕ Bool :=
  if m d = 0 then .inr false
  else if c = m d then .inr true
  else .inl (u64 (d + 1))

/-- The loops over `start` and `end`, which go on while `is_delimiter` is `going`. -/
def walk.step (n : ℕ) (m : Memory) (delimiters : ℕ) (going : Bool) (ptr : ℕ) : ℕ ⊕ Option ℕ :=
  if m ptr = 0 then .inr (some ptr)
  else
    match Loop.iterate (is_delimiter.step m (m ptr)) n delimiters with
    | none => .inr none
    | some is_delimiter => if is_delimiter = going then .inl (u64 (ptr + 1)) else .inr (some ptr)

def walk (n : ℕ) (m : Memory) (delimiters : ℕ) (going : Bool) (ptr : ℕ) : Option ℕ :=
  (Loop.iterate (walk.step n m delimiters going) n ptr).join

/-- The token returned, or 0, when no loop takes more than `n` rounds. -/
def strtok (n : ℕ) (s : State) (str delimiters : ℕ) : Option (ℕ × State) :=
  if str = 0 ∧ s.last_pos = 0 then some (0, s)
  else
    let s := if str ≠ 0 then { s with last_pos := str } else s
    (walk n s.mem delimiters true s.last_pos).bind fun start =>
      if s.mem start = 0 then some (0, { s with last_pos := 0 })
      else
        (walk n s.mem delimiters false start).bind fun stop =>
          if s.mem stop ≠ 0 then
            some (start, { mem := s.mem.set stop 0, last_pos := u64 (stop + 1) })
          else some (start, { s with last_pos := 0 })

/-! ### Strings in memory -/

/-- The string lies at the pointer, in an address space that it does not go round. -/
structure StringAt (m : Memory) (ptr : ℕ) (l : List Byte) : Prop where
  pos : 0 < ptr
  lt : ptr + l.length < 2 ^ 64
  char_eq : ∀ i ≤ l.length, m (ptr + i) = chars l i
  zero_notMem : 0 ∉ l

variable {m m' : Memory} {ptr delimiters n i j k : ℕ} {c : Byte} {l ds : List Byte} {going : Bool}

theorem StringAt.end_eq (h : StringAt m ptr l) :
  m (ptr + l.length) = 0
  := (h.char_eq l.length le_rfl).trans (chars_of_length_le le_rfl)

theorem StringAt.ne_zero (h : StringAt m ptr l) (hi : i < l.length) :
  m (ptr + i) ≠ 0
  := by
  intro hzero
  rw [h.char_eq i hi.le] at hzero
  have := (chars_eq_zero_iff h.zero_notMem).mp hzero
  omega

theorem StringAt.head (h : StringAt m ptr (c :: l)) :
  m ptr = c
  := h.char_eq 0 (Nat.zero_le _)

theorem StringAt.drop (h : StringAt m ptr l) (hi : i ≤ l.length) :
  StringAt m (ptr + i) (l.drop i)
  := by
  have hlt := h.lt
  have hpos := h.pos
  refine ⟨by omega, ?_, ?_, ?_⟩
  · rw [List.length_drop]
    omega
  · intro k hk
    rw [List.length_drop] at hk
    rw [chars_drop, Nat.add_assoc]
    exact h.char_eq (i + k) (by omega)
  · intro hmem
    exact h.zero_notMem (List.mem_of_mem_drop hmem)

theorem StringAt.tail (h : StringAt m ptr (c :: l)) :
  StringAt m (ptr + 1) l
  := h.drop (i := 1) (Nat.le_add_left 1 _)

theorem StringAt.congr (h : StringAt m ptr l) (heq : ∀ i ≤ l.length, m' (ptr + i) = m (ptr + i)) :
  StringAt m' ptr l
  := by
  refine ⟨h.pos, h.lt, ?_, h.zero_notMem⟩
  intro i hi
  rw [heq i hi, h.char_eq i hi]

theorem StringAt.forward (h : StringAt m (ptr + i) (l.drop i)) (hij : i ≤ j) (hj : j ≤ l.length) :
  StringAt m (ptr + j) (l.drop j)
  := by
  have hdrop := h.drop (i := j - i) (by rw [List.length_drop]; omega)
  rwa [List.drop_drop, Nat.add_assoc, Nat.add_sub_cancel' hij] at hdrop

/-- A zero byte ends the string. -/
theorem StringAt.take (h : StringAt m ptr l) (hi : i ≤ l.length) (hzero : m' (ptr + i) = 0)
    (heq : ∀ k < i, m' (ptr + k) = m (ptr + k)) :
  StringAt m' ptr (l.take i)
  := by
  have hlen : (l.take i).length = i := by rw [List.length_take, Nat.min_eq_left hi]
  have hlt := h.lt
  refine ⟨h.pos, by omega, ?_, ?_⟩
  · intro k hk
    rw [hlen] at hk
    rcases Nat.eq_or_lt_of_le hk with rfl | hlt
    · rw [hzero, chars_of_length_le hlen.le]
    · rw [heq k hlt, h.char_eq k (by omega), chars, chars, List.getD_eq_getElem?_getD,
        List.getD_eq_getElem?_getD, List.getElem?_take, if_pos hlt]
  · intro hmem
    exact h.zero_notMem (List.mem_of_mem_take hmem)

/-- What stays between two positions of the string is a string when a zero byte follows it. -/
theorem StringAt.token (h : StringAt m (ptr + i) (l.drop i)) (hij : i ≤ j) (hj : j ≤ l.length)
    (hzero : m' (ptr + j) = 0) (hkeep : ∀ a < ptr + j, ptr + i ≤ a → m' a = m a) :
  StringAt m' (ptr + i) ((l.drop i).take (j - i))
  := by
  apply h.take
  · rw [List.length_drop]
    omega
  · rw [Nat.add_assoc, Nat.add_sub_cancel' hij, hzero]
  · intro k hk
    exact hkeep (ptr + i + k) (by omega) (Nat.le_add_right _ _)

/-! ### The loops -/

theorem is_delimiter_eq (hds : StringAt m delimiters ds) (c : Byte) (hn : ds.length < n) :
  Loop.iterate (is_delimiter.step m c) n delimiters = some (ds.contains c)
  := by
  induction ds generalizing delimiters n with
  | nil =>
      obtain ⟨n, rfl⟩ := Nat.exists_eq_succ_of_ne_zero (Nat.ne_of_gt hn)
      have hend : m delimiters = 0 := hds.end_eq
      apply Loop.iterate_stop
      rw [is_delimiter.step, if_pos hend]
      rfl
  | cons d ds ih =>
      obtain ⟨n, rfl⟩ := Nat.exists_eq_succ_of_ne_zero (Nat.ne_of_gt ((Nat.zero_le _).trans_lt hn))
      have hne : m delimiters ≠ 0 := hds.ne_zero (i := 0) (Nat.zero_lt_succ _)
      by_cases hc : c = d
      · apply (Loop.iterate_stop _ _).trans
        · rw [List.contains_cons, beq_iff_eq.mpr hc, Bool.true_or]
        · rw [is_delimiter.step, if_neg hne, if_pos (hc.trans hds.head.symm)]
      · have hstep : is_delimiter.step m c delimiters = .inl (delimiters + 1) := by
          have hlt := hds.tail.lt
          rw [is_delimiter.step, if_neg hne, hds.head, if_neg hc, u64_of_lt (by omega)]
        rw [Loop.iterate_step _ hstep, ih hds.tail (Nat.lt_of_succ_lt_succ hn)]
        rw [List.contains_cons, beq_false_of_ne hc, Bool.false_or]

/-- How many characters a loop goes on for. -/
def span (ds : List Byte) (going : Bool) (l : List Byte) : ℕ :=
  l.findIdx fun c => ds.contains c != going

theorem walk_eq (h : StringAt m ptr l) (hds : StringAt m delimiters ds) (hn : l.length < n)
    (hn' : ds.length < n) :
  walk n m delimiters going ptr = some (ptr + span ds going l)
  := by
  -- The rounds of the inner loops are fixed, those of the outer loop run out.
  have hiter : ∀ k, l.length < k →
      Loop.iterate (walk.step n m delimiters going) k ptr =
        some (some (ptr + span ds going l)) := by
    clear hn
    intro k hk
    induction l generalizing ptr k with
    | nil =>
        obtain ⟨k, rfl⟩ := Nat.exists_eq_succ_of_ne_zero (Nat.ne_of_gt hk)
        have hend : m ptr = 0 := h.end_eq
        apply Loop.iterate_stop
        rw [walk.step, if_pos hend]
        rfl
    | cons c l ih =>
        obtain ⟨k, rfl⟩ := Nat.exists_eq_succ_of_ne_zero (Nat.ne_of_gt ((Nat.zero_le _).trans_lt hk))
        have hne : m ptr ≠ 0 := h.ne_zero (i := 0) (Nat.zero_lt_succ _)
        have hstep : walk.step n m delimiters going ptr =
            if ds.contains c = going then .inl (ptr + 1) else .inr (some ptr) := by
          have hlt := h.tail.lt
          rw [walk.step, if_neg hne, is_delimiter_eq hds _ hn', h.head, u64_of_lt (by omega)]
        rw [span, List.findIdx_cons]
        by_cases hc : ds.contains c = going
        · rw [if_pos hc] at hstep
          rw [Loop.iterate_step _ hstep, ih h.tail k (Nat.lt_of_succ_lt_succ hk), hc, bne_self_eq_false]
          rw [cond_false, span, Nat.add_assoc, Nat.add_comm 1]
        · rw [if_neg hc] at hstep
          rw [Loop.iterate_stop _ hstep, bne_iff_ne.mpr hc]
          rfl
  rw [walk, hiter n hn]
  rfl

/-! ### One call -/

theorem span_le (ds : List Byte) (going : Bool) (l : List Byte) :
  span ds going l ≤ l.length
  := List.findIdx_le_length

/-- The characters a loop goes over. -/
theorem mem_span (hk : k < span ds going l) :
  ∃ c ∈ l[k]?, ds.contains c = going
  := by
  have hlen := hk.trans_le (span_le ds going l)
  have hnot := List.not_of_lt_findIdx hk
  exact ⟨l[k], List.getElem?_eq_getElem hlen, bne_eq_false_iff_eq.mp (by simpa using hnot)⟩

/-- The character a loop stops at. -/
theorem at_span (hc : c ∈ l[span ds going l]?) :
  ds.contains c ≠ going
  := by
  obtain ⟨hlt, rfl⟩ := List.getElem?_eq_some_iff.mp hc
  exact bne_iff_ne.mp (List.findIdx_getElem (w := hlt))

variable {s : State}

/-- A call with `NULL` before the characters `l`. -/
theorem strtok_null (h : StringAt s.mem s.last_pos l) (hds : StringAt s.mem delimiters ds)
    (hn : l.length < n) (hn' : ds.length < n) :
  strtok n s 0 delimiters =
    let i := span ds true l
    let j := i + span ds false (l.drop i)
    some (
      if i = l.length then (0, { s with last_pos := 0 })
      else if j = l.length then (s.last_pos + i, { s with last_pos := 0 })
      else (s.last_pos + i, { mem := s.mem.set (s.last_pos + j) 0, last_pos := s.last_pos + j + 1 }))
  := by
  have hi := span_le ds true l
  have hstart := h.drop hi
  have hj := span_le ds false (l.drop (span ds true l))
  have hlt := h.lt
  rw [List.length_drop] at hj
  rw [strtok, if_neg (fun hnull => h.pos.ne' hnull.2)]
  dsimp only
  rw [if_neg (not_not_intro rfl), walk_eq h hds hn hn', Option.bind_some]
  by_cases hend : span ds true l = l.length
  · rw [if_pos hend, if_pos]
    rw [hend]
    exact h.end_eq
  · rw [if_neg hend, if_neg (h.ne_zero (by omega)), walk_eq hstart hds _ hn', Option.bind_some,
      Nat.add_assoc]
    · by_cases hstop : span ds true l + span ds false (l.drop (span ds true l)) = l.length
      · rw [if_pos hstop, if_neg]
        rw [hstop]
        exact not_not_intro h.end_eq
      · rw [if_neg hstop, if_pos (h.ne_zero (by omega)), u64_of_lt (by omega)]
    · rw [List.length_drop]
      omega

/-- A call with a string is a call with `NULL` at its beginning. -/
theorem strtok_str (s : State) {str : ℕ} (hstr : str ≠ 0) :
  strtok n s str delimiters = strtok n { s with last_pos := str } 0 delimiters
  := by
  simp [strtok, hstr]

/-! ### Pointers and characters -/

/-- A pointer that is given by the characters from there on, and by `none` when it is `NULL`. -/
def Points (m : Memory) (ptr : ℕ) : Option (List Byte) → Prop
  | none => ptr = 0
  | some l => StringAt m ptr l

theorem dropWhile_span (ds l : List Byte) (going : Bool) :
  l.dropWhile (fun c => ds.contains c == going) = l.drop (span ds going l)
  := List.dropWhile_eq_drop_findIdx_not

theorem takeWhile_span (ds l : List Byte) (going : Bool) :
  l.takeWhile (fun c => ds.contains c == going) = l.take (span ds going l)
  := List.takeWhile_eq_take_findIdx_not

/-- The token and the variable after a call before the characters `l`. -/
theorem strtok_chars (last_pos : Option (List Byte)) (ds l : List Byte) :
  CString.strtok last_pos (some l) ds =
    let i := span ds true l
    let j := i + span ds false (l.drop i)
    if i = l.length then (none, none)
    else if j = l.length then (some (l.drop i), none)
    else (some ((l.drop i).take (j - i)), some (l.drop (j + 1)))
  := by
  have htrue := dropWhile_span ds l true
  have hfalse := dropWhile_span ds (l.drop (span ds true l)) false
  have htake := takeWhile_span ds (l.drop (span ds true l)) false
  have hi := span_le ds true l
  have hj := span_le ds false (l.drop (span ds true l))
  rw [List.length_drop] at hj
  simp only [beq_true, beq_false] at htrue hfalse htake
  simp only [CString.strtok, Option.some_or, htrue, hfalse, htake, List.isEmpty_iff,
    List.drop_eq_nil_iff, List.drop_drop]
  by_cases hend : span ds true l = l.length
  · rw [if_pos hend, if_pos hend.ge]
  · rw [if_neg hend, if_neg (by omega), Nat.add_sub_cancel_left]
    by_cases hstop : span ds true l + span ds false (l.drop (span ds true l)) = l.length
    · rw [if_pos hstop, hstop, List.drop_length]
    · rw [if_neg hstop, List.drop_eq_getElem_cons (by omega)]

/-- A call in place before the characters `l`. -/
theorem strtok_null_refines (last_pos : Option (List Byte)) (h : StringAt s.mem s.last_pos l)
    (hds : StringAt s.mem delimiters ds) (hn : l.length < n) (hn' : ds.length < n) :
  ∃ token t, strtok n s 0 delimiters = some (token, t) ∧
    Points t.mem token (CString.strtok last_pos (some l) ds).1 ∧
    Points t.mem t.last_pos (CString.strtok last_pos (some l) ds).2
  := by
  rw [strtok_null h hds hn hn', strtok_chars]
  have hi := span_le ds true l
  have hj := span_le ds false (l.drop (span ds true l))
  have hstart := h.drop hi
  rw [List.length_drop] at hj
  dsimp only
  split_ifs with hend hstop
  · exact ⟨_, _, rfl, rfl, rfl⟩
  · exact ⟨_, _, rfl, hstart, rfl⟩
  · have hmem : ∀ a, a ≠ s.last_pos + (span ds true l + span ds false (l.drop (span ds true l))) →
        s.mem.set (s.last_pos + (span ds true l + span ds false (l.drop (span ds true l)))) 0 a =
          s.mem a :=
      fun a hne => Memory.set_of_ne _ _ hne
    refine ⟨_, _, rfl, ?_, ?_⟩
    · apply hstart.token (Nat.le_add_right _ _) (by omega) (if_pos rfl)
      intro a ha _
      exact hmem a (by omega)
    · apply (hstart.forward (Nat.le_succ_of_le (Nat.le_add_right _ _)) (by omega)).congr
      intro k _
      exact hmem _ (by omega)

/-- A call in place returns the token that the characters give, and leaves the variable where they
leave it. -/
theorem strtok_refines {last_pos str : Option (List Byte)}
    (hlast : Points s.mem s.last_pos last_pos) (hstr : Points s.mem ptr str)
    (hds : StringAt s.mem delimiters ds) (hn : ∀ l ∈ str.or last_pos, l.length < n)
    (hn' : ds.length < n) :
  ∃ token t, strtok n s ptr delimiters = some (token, t) ∧
    Points t.mem token (CString.strtok last_pos str ds).1 ∧
    Points t.mem t.last_pos (CString.strtok last_pos str ds).2
  := by
  cases str with
  | some l =>
      rw [strtok_str s hstr.pos.ne']
      exact strtok_null_refines (s := ⟨s.mem, ptr⟩) last_pos hstr hds (hn l rfl) hn'
  | none =>
      obtain rfl : ptr = 0 := hstr
      cases last_pos with
      | some l => exact strtok_null_refines none hlast hds (hn l rfl) hn'
      | none => exact ⟨0, s, if_pos ⟨rfl, hlast⟩, rfl, hlast⟩

end CString.InPlace
