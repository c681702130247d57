import LySystem.Machine.Bytes
import LySystem.Machine.Loop
import LySystem.Machine.Split
import Mathlib.Data.List.TakeWhile

/-!
# The C library of the kernel

The error numbers of `LySys/errno.h`, and `lib/string.c`.  A C string is a memory seen from
its first character, up to its first zero byte.
-/

def ESUCCESS : ℤ := 0
def EPERM : ℤ := 1
def ENOENT : ℤ := 2
def ESRCH : ℤ := 3
def ENOMEM : ℤ := 12
def EACCES : ℤ := 13
def EEXIST : ℤ := 17
def ENOTDIR : ℤ := 20
def EINVAL : ℤ := 22
def ENOSPC : ℤ := 28

namespace CString

/-- The number of characters `strncpy` copies before it pads: those before the first zero
byte, `n` at most. -/
def copied (src : Memory) (n : ℕ) : ℕ :=
  (Loop.firstSome (fun i => if src i = 0 then some i else none) 0 n).getD n

/-- The destination after `n` bytes were written: the characters of `src` up to its end,
then zero bytes. -/
def strncpy (dest src : Memory) (n : ℕ) : Memory :=
  (dest.copy 0 src (copied src n)).fill (copied src n) (n - copied src n) 0

/-- A string constant. -/
def literal (str : String) : Memory :=
  fun i => (str.toList[i]?).elim 0 fun c => BitVec.ofNat 8 c.toNat

/-! ### Strings as lists of characters -/

/-- The memory that holds the characters of a list, and zero bytes behind them. -/
def chars (l : List Byte) : Memory := fun i => l.getD i 0

/-- The characters of a string, `n` at most. -/
def text (src : Memory) (n : ℕ) : List Byte := (List.range (copied src n)).map src

/-- The `n` bytes `strncpy` writes. -/
def field (src : Memory) (n : ℕ) : List Byte := (List.range n).map (strncpy (fun _ => 0) src n)

/-- The second string ends where its list does. -/
def strcmp (s1 : Memory) : List Byte → ℤ
  | [] => (s1 0).toNat
  | c :: s2 => if s1 0 ≠ 0 ∧ s1 0 = c then strcmp (s1.drop 1) s2 else (s1 0).toNat - c.toNat

/-- The index of the last `c`. -/
def strrchr (s : List Byte) (c : Byte) : Option ℕ :=
  (List.range s.length).foldl (fun last i => if s.getD i 0 = c then some i else last) none

/-- The token returned and the variable `last_pos` afterwards, a pointer being given by the
characters from there on and `none` being `NULL`. -/
def strtok (last_pos str : Option (List Byte)) (delimiters : List Byte) :
    Option (List Byte) × Option (List Byte) :=
  match str.or last_pos with
  | none => (none, none)
  | some pos =>
      let isDelimiter (c : Byte) : Bool := delimiters.contains c
      let start := pos.dropWhile isDelimiter
      if start.isEmpty then (none, none)
      else
        match start.dropWhile fun c => !isDelimiter c with
        | [] => (some start, none)
        | _ :: rest => (some (start.takeWhile fun c => !isDelimiter c), some rest)

/-- The characters of a literal. -/
def ascii (str : String) : List Byte := str.toList.map fun c => BitVec.ofNat 8 c.toNat

/-! ### Strings that end -/

/-- The characters are copied up to a zero byte. -/
theorem copied_le_of_zero {src : Memory} {n i : ℕ} (h : src i = 0) :
  copied src n ≤ i
  := by
  by_contra hlt
  rw [copied] at hlt
  cases hfirst : Loop.firstSome (fun i => if src i = 0 then some i else none) 0 n with
  | none =>
      rw [hfirst, Option.getD_none] at hlt
      have := Loop.firstSome_eq_none.mp hfirst i (Nat.zero_le i) (by omega)
      rw [if_pos h] at this
      cases this
  | some j =>
      rw [hfirst, Option.getD_some] at hlt
      obtain ⟨k, -, -, hk, hbefore⟩ := Loop.firstSome_eq_some.mp hfirst
      split_ifs at hk
      obtain rfl := Option.some.inj hk
      have := hbefore i (Nat.zero_le i) (by omega)
      rw [if_pos h] at this
      cases this

theorem copied_le (src : Memory) (n : ℕ) :
  copied src n ≤ n
  := by
  rw [copied]
  cases h : Loop.firstSome (fun i => if src i = 0 then some i else none) 0 n with
  | none => rfl
  | some j =>
      obtain ⟨i, -, hi, hj, -⟩ := Loop.firstSome_eq_some.mp h
      split_ifs at hj
      obtain rfl := Option.some.inj hj
      rw [Option.getD_some]
      omega

/-- When fewer than `n` characters are copied, a zero byte follows them. -/
theorem zero_of_copied_lt {src : Memory} {n : ℕ} (h : copied src n < n) :
  src (copied src n) = 0
  := by
  rw [copied] at h ⊢
  cases hfirst : Loop.firstSome (fun i => if src i = 0 then some i else none) 0 n with
  | none =>
      rw [hfirst] at h
      apply absurd h (Nat.lt_irrefl n)
  | some i =>
      obtain ⟨j, -, -, hj, -⟩ := Loop.firstSome_eq_some.mp hfirst
      split_ifs at hj with hzero
      obtain rfl := Option.some.inj hj
      apply hzero

/-- The characters copied are those before the first zero byte. -/
theorem lt_copied_iff {src : Memory} {n i : ℕ} :
  i < copied src n ↔ i < n ∧ ∀ j ≤ i, src j ≠ 0
  := by
  constructor
  · intro hi
    use hi.trans_le (copied_le src n)
    intro j hj hzero
    have := copied_le_of_zero (n := n) hzero
    omega
  · rintro ⟨hi, hbefore⟩
    by_contra hle
    apply hbefore _ (Nat.not_lt.mp hle)
    apply zero_of_copied_lt (by omega)

theorem length_text (src : Memory) (n : ℕ) :
  (text src n).length = copied src n
  := by
  simp [text]

theorem chars_text (src : Memory) (n i : ℕ) :
  chars (text src n) i = if i < copied src n then src i else 0
  := by
  rw [chars, text, List.getD_eq_getElem?_getD, List.getElem?_map]
  split_ifs with hi
  · rw [List.getElem?_range hi]
    rfl
  · rw [List.getElem?_eq_none (by rw [List.length_range]; omega)]
    rfl

theorem zero_notMem_text (src : Memory) (n : ℕ) :
  0 ∉ text src n
  := by
  intro hmem
  obtain ⟨i, hi, hzero⟩ := List.mem_map.mp hmem
  exact (lt_copied_iff.mp (List.mem_range.mp hi)).2 i le_rfl hzero

theorem chars_drop (l : List Byte) (k i : ℕ) :
  chars (l.drop k) i = chars l (k + i)
  := by
  rw [chars, chars, List.getD_eq_getElem?_getD, List.getD_eq_getElem?_getD, List.getElem?_drop]

theorem chars_of_length_le {l : List Byte} {i : ℕ} (h : l.length ≤ i) :
  chars l i = 0
  := by
  rw [chars, List.getD_eq_getElem?_getD, List.getElem?_eq_none h]
  rfl

theorem chars_mem {l : List Byte} {i : ℕ} (h : i < l.length) :
  chars l i ∈ l
  := by
  rw [chars, List.getD_eq_getElem?_getD, List.getElem?_eq_getElem h]
  exact List.getElem_mem h

/-- A list without zero bytes ends where its string does. -/
theorem chars_eq_zero_iff {l : List Byte} (h : 0 ∉ l) {i : ℕ} :
  chars l i = 0 ↔ l.length ≤ i
  := by
  constructor
  · intro hzero
    by_contra hlt
    apply h
    rw [← hzero]
    exact chars_mem (by omega)
  · exact chars_of_length_le

/-- Lists without zero bytes are equal when their strings are. -/
theorem eq_of_chars {l l' : List Byte} (h : 0 ∉ l) (h' : 0 ∉ l')
    (heq : ∀ j ≤ l.length, chars l' j = chars l j) :
  l' = l
  := by
  have hend := heq l.length le_rfl
  rw [chars_of_length_le le_rfl, chars_eq_zero_iff h'] at hend
  have hlen : l'.length = l.length := by
    by_contra hne
    have hlast := heq l'.length hend
    rw [chars_of_length_le le_rfl] at hlast
    have := (chars_eq_zero_iff h).mp hlast.symm
    omega
  apply List.ext_getElem hlen
  intro j hj hj'
  have hj'' := heq j hj'.le
  rwa [chars, chars, List.getD_eq_getElem?_getD, List.getD_eq_getElem?_getD,
    List.getElem?_eq_getElem hj, List.getElem?_eq_getElem hj'] at hj''

/-- The text copied from a list is a beginning of it. -/
theorem text_isPrefix (l : List Byte) (n : ℕ) :
  text (chars l) n <+: l
  := by
  have hle : copied (chars l) n ≤ l.length := by
    apply copied_le_of_zero
    simp [chars]
  rw [List.prefix_iff_eq_take]
  apply List.ext_getElem
  · simp [text, hle]
  · intro i hi hi'
    simp only [text, List.length_map, List.length_range] at hi
    simp [text, chars, List.getElem?_eq_getElem (hi.trans_le hle)]

/-- A list without zero bytes is copied as far as there is room. -/
theorem text_eq_take {l : List Byte} (h : 0 ∉ l) (n : ℕ) :
  text (chars l) n = l.take n
  := by
  apply eq_of_chars (fun hmem => h (List.mem_of_mem_take hmem)) (zero_notMem_text _ _)
  intro j _
  rw [chars_text]
  split_ifs with hj
  · obtain ⟨hn, hbefore⟩ := lt_copied_iff.mp hj
    rw [chars, chars, List.getD_eq_getElem?_getD, List.getD_eq_getElem?_getD, List.getElem?_take,
      if_pos hn]
  · symm
    apply chars_of_length_le
    rw [List.length_take]
    by_contra hlt
    apply hj
    apply lt_copied_iff.mpr
    refine ⟨by omega, ?_⟩
    intro i hi hzero
    have := (chars_eq_zero_iff h).mp hzero
    omega

/-- A field wider than the string has a zero byte. -/
theorem zero_mem_field {src : Memory} {n i : ℕ} (hzero : src i = 0) (hi : i < n) :
  0 ∈ field src n
  := by
  have h : copied src n < n := (copied_le_of_zero hzero).trans_lt hi
  apply List.mem_map.mpr
  use copied src n, List.mem_range.mpr h
  have := Memory.splice_inside ((Memory.copy (fun _ => 0) 0 src (copied src n)))
    (a := copied src n) (n := n - copied src n) (fun _ => 0) (i := 0) (by omega)
  exact this

theorem strcmp_append {s2 : List Byte} (h : 0 ∈ s2) (s1 : Memory) (behind : List Byte) :
  strcmp s1 (s2 ++ behind) = strcmp s1 s2
  := by
  induction s2 generalizing s1 with
  | nil => cases h
  | cons c s2 ih =>
      rw [List.cons_append, strcmp, strcmp]
      split_ifs with hc
      · apply ih
        apply (List.mem_cons.mp h).resolve_left
        rintro rfl
        apply hc.1 hc.2
      · rfl

/-- A comparison with a string that ends within `k` bytes looks at `k` bytes. -/
theorem strcmp_congr {s2 : List Byte} {k : ℕ} (hend : s2.length < k ∨ 0 ∈ s2.take k)
    {s1 s1' : Memory} (h : ∀ i < k, s1 i = s1' i) :
  strcmp s1 s2 = strcmp s1' s2
  := by
  induction s2 generalizing k s1 s1' with
  | nil =>
      have hk : 0 < k := by simpa using hend
      rw [strcmp, strcmp, h 0 hk]
  | cons c s2 ih =>
      cases k with
      | zero => simp at hend
      | succ k =>
          rw [strcmp, strcmp, h 0 (Nat.succ_pos k)]
          split_ifs with hc
          · apply ih (k := k)
            · rw [List.length_cons, List.take_succ_cons, List.mem_cons] at hend
              rcases hend with hlen | rfl | hmem
              · left
                omega
              · exact absurd hc.2 hc.1
              · right
                apply hmem
            · intro i hi
              apply h (1 + i) (by omega)
          · rfl

/-- Nor does it look behind the end of the first string. -/
theorem strcmp_congr_zero {s1 s1' : Memory} {k : ℕ} (hzero : s1 k = 0)
    (h : ∀ i ≤ k, s1 i = s1' i) (s2 : List Byte) :
  strcmp s1 s2 = strcmp s1' s2
  := by
  induction s2 generalizing k s1 s1' with
  | nil => rw [strcmp, strcmp, h 0 (Nat.zero_le k)]
  | cons c s2 ih =>
      rw [strcmp, strcmp, ← h 0 (Nat.zero_le k)]
      split_ifs with hc
      · cases k with
        | zero => exact absurd hzero hc.1
        | succ k =>
            apply ih (k := k)
            · rwa [Memory.drop, Nat.add_comm]
            · intro i hi
              apply h (1 + i) (by omega)
      · rfl

/-- The characters copied compare with a short string as those of the source. -/
theorem strcmp_strncpy (dest src : Memory) {n : ℕ} {name : List Byte} (h : name.length < n) :
  strcmp (strncpy dest src n) name = strcmp src name
  := by
  have hcopied : ∀ i < copied src n, strncpy dest src n i = src i := by
    intro i hi
    rw [strncpy, Memory.fill, Memory.splice, if_neg (by omega), Memory.copy, Memory.splice,
      if_pos (by omega)]
    simp
  rcases Nat.lt_or_ge (copied src n) n with hlt | hge
  · have hend := zero_of_copied_lt hlt
    have hpad : strncpy dest src n (copied src n) = 0 := by
      simp only [strncpy, Memory.fill, Memory.splice]
      split_ifs <;> first | rfl | omega
    apply strcmp_congr_zero hpad
    intro i hi
    rcases Nat.lt_or_eq_of_le hi with hi | rfl
    · apply hcopied i hi
    · rw [hpad, hend]
  · apply strcmp_congr (Or.inl h)
    intro i hi
    apply hcopied i (by omega)

/-- The bytes written by `strncpy`. -/
theorem strncpy_apply (dest src : Memory) {n i : ℕ} (hi : i < n) :
  strncpy dest src n i = if i < copied src n then src i else 0
  := by
  simp only [strncpy, Memory.fill, Memory.copy, Memory.splice]
  by_cases hcopied : i < copied src n
  · rw [if_neg (by omega), if_pos (by omega), if_pos hcopied, Nat.sub_zero]
  · rw [if_pos (by omega), if_neg hcopied]

/-- Up to its end a copy is the source. -/
theorem strncpy_agree {dest src : Memory} {n e : ℕ} (he : e < n)
    (hbefore : ∀ j < e, strncpy dest src n j ≠ 0) {j : ℕ} (hj : j ≤ e) :
  strncpy dest src n j = src j
  := by
  have hcopied : ∀ i < e, i < copied src n := by
    intro i hi
    by_contra hle
    apply hbefore i hi
    rw [strncpy_apply _ _ (by omega), if_neg hle]
  rw [strncpy_apply _ _ (by omega)]
  split_ifs with hlt
  · rfl
  · -- The copy ends here, and so does the source.
    have heq : copied src n = j := by
      rcases Nat.lt_or_eq_of_le hj with hj | rfl
      · exact absurd (hcopied j hj) hlt
      · by_contra hne
        exact absurd (hcopied (copied src n) (by omega)) (Nat.lt_irrefl _)
    have hzero := zero_of_copied_lt (show copied src n < n by omega)
    rw [heq] at hzero
    exact hzero.symm

theorem chars_field (src : Memory) {n i : ℕ} (hi : i < n) :
  chars (field src n) i = if i < copied src n then src i else 0
  := by
  rw [← strncpy_apply (fun _ => 0) src hi, chars, field, List.getD_eq_getElem?_getD,
    List.getElem?_map, List.getElem?_range hi]
  rfl

/-- Equal strings begin with the same character and go on alike. -/
theorem strcmp_eq_zero {m : Memory} {l : List Byte} (h : strcmp m l = 0) :
  m 0 = chars l 0 ∧ (m 0 ≠ 0 → strcmp (m.drop 1) l.tail = 0)
  := by
  cases l with
  | nil =>
      have hzero : m 0 = 0 := by
        apply BitVec.eq_of_toNat_eq
        rw [strcmp] at h
        exact_mod_cast h
      exact ⟨hzero, fun hne => absurd hzero hne⟩
  | cons c l =>
      rw [strcmp] at h
      split_ifs at h with hc
      · exact ⟨hc.2, fun _ => h⟩
      · have heq : m 0 = c := by
          apply BitVec.eq_of_toNat_eq
          omega
        exact ⟨heq, fun hne => absurd ⟨hne, heq⟩ hc⟩

/-- Strings are equal when their characters are, up to the end of the first. -/
theorem strcmp_eq_zero_iff {m : Memory} {l : List Byte} :
  strcmp m l = 0 ↔ ∃ k, m k = 0 ∧ (∀ j < k, m j ≠ 0) ∧ ∀ j ≤ k, chars l j = m j
  := by
  induction l generalizing m with
  | nil =>
      constructor
      · intro h
        have hzero := (strcmp_eq_zero h).1
        refine ⟨0, hzero, by omega, ?_⟩
        intro j hj
        obtain rfl : j = 0 := by omega
        exact hzero.symm
      · rintro ⟨k, -, -, heq⟩
        rw [strcmp, ← heq 0 (Nat.zero_le k)]
        rfl
  | cons c l ih =>
      have htail : ∀ j, chars (c :: l) (1 + j) = chars l j := by
        intro j
        simp [chars, Nat.add_comm 1 j]
      constructor
      · intro h
        obtain ⟨hhead, hrest⟩ := strcmp_eq_zero h
        by_cases hzero : m 0 = 0
        · refine ⟨0, hzero, by omega, ?_⟩
          intro j hj
          obtain rfl : j = 0 := by omega
          exact hhead.symm
        · obtain ⟨k, hend, hbefore, heq⟩ := ih.mp (hrest hzero)
          refine ⟨1 + k, hend, ?_, ?_⟩
          · intro j hj
            rcases Nat.eq_zero_or_pos j with rfl | hpos
            · exact hzero
            · obtain ⟨i, rfl⟩ := Nat.exists_eq_add_of_le hpos
              exact hbefore i (by omega)
          · intro j hj
            rcases Nat.eq_zero_or_pos j with rfl | hpos
            · exact hhead.symm
            · obtain ⟨i, rfl⟩ := Nat.exists_eq_add_of_le hpos
              rw [htail]
              exact heq i (by omega)
      · rintro ⟨k, hend, hbefore, heq⟩
        have hhead : m 0 = c := (heq 0 (Nat.zero_le k)).symm
        rw [strcmp]
        by_cases hk : k = 0
        · subst hk
          rw [if_neg (fun h => h.1 hend), hhead]
          omega
        · rw [if_pos ⟨hbefore 0 (by omega), hhead⟩]
          apply ih.mpr
          refine ⟨k - 1, ?_, ?_, ?_⟩
          · rwa [Memory.drop, show 1 + (k - 1) = k by omega]
          · intro j hj
            exact hbefore (1 + j) (by omega)
          · intro j hj
            rw [← htail]
            exact heq (1 + j) (by omega)

/-- Strings equal to the same one end at the same place. -/
theorem strcmp_agree {m m' : Memory} {l : List Byte} {k : ℕ} (h : strcmp m l = 0)
    (h' : strcmp m' l = 0) (hzero : m k = 0) :
  ∃ e ≤ k, m e = 0 ∧ (∀ j < e, m j ≠ 0) ∧ ∀ j ≤ e, m' j = m j
  := by
  obtain ⟨e, hend, hbefore, heq⟩ := strcmp_eq_zero_iff.mp h
  obtain ⟨e', hend', hbefore', heq'⟩ := strcmp_eq_zero_iff.mp h'
  have he : e ≤ e' := by
    by_contra hlt
    apply hbefore e' (by omega)
    rw [← heq e' (by omega), heq' e' le_rfl, hend']
  refine ⟨e, ?_, hend, hbefore, ?_⟩
  · by_contra hlt
    exact hbefore k (by omega) hzero
  · intro j hj
    rw [← heq j hj, heq' j (hj.trans he)]

/-- Whether a string that ends within `n` bytes equals another is told by `n` bytes of both. -/
theorem strcmp_congr_iff {m m' : Memory} {l l' : List Byte} {k n : ℕ} (hzero : m k = 0)
    (hk : k < n) (hm : ∀ j < n, m' j = m j) (hl : ∀ j < n, chars l' j = chars l j) :
  strcmp m' l' = 0 ↔ strcmp m l = 0
  := by
  have hle : ∀ e, (∀ j < e, m j ≠ 0) → e ≤ k := by
    intro e hbefore
    by_contra hlt
    exact hbefore k (by omega) hzero
  rw [strcmp_eq_zero_iff, strcmp_eq_zero_iff]
  constructor
  · rintro ⟨e, hend, hbefore, heq⟩
    have hbound : e ≤ k := by
      by_contra hlt
      apply hbefore k (by omega)
      rw [hm k hk, hzero]
    refine ⟨e, ?_, ?_, ?_⟩
    · rw [← hm e (by omega), hend]
    · intro j hj
      rw [← hm j (by omega)]
      exact hbefore j hj
    · intro j hj
      rw [← hl j (by omega), heq j hj, hm j (by omega)]
  · rintro ⟨e, hend, hbefore, heq⟩
    have hbound := hle e hbefore
    refine ⟨e, ?_, ?_, ?_⟩
    · rw [hm e (by omega), hend]
    · intro j hj
      rw [hm j (by omega)]
      exact hbefore j hj
    · intro j hj
      rw [hl j (by omega), heq j hj, hm j (by omega)]

/-- Strings that compare equal compare alike with any other. -/
theorem strcmp_chars {m : Memory} {l : List Byte} (h : strcmp m l = 0) (l' : List Byte) :
  strcmp (chars l) l' = strcmp m l'
  := by
  induction l' generalizing m l with
  | nil => rw [strcmp, strcmp, (strcmp_eq_zero h).1]
  | cons c l' ih =>
      obtain ⟨hhead, htail⟩ := strcmp_eq_zero h
      rw [strcmp, strcmp, hhead]
      split_ifs with hc
      · have hdrop : (chars l).drop 1 = chars l.tail := by
          funext i
          cases l with
          | nil => rfl
          | cons b l => simp [chars, Memory.drop, Nat.add_comm 1 i]
        rw [hdrop]
        apply ih
        apply htail
        rw [hhead]
        apply hc.1
      · rfl

/-- A string that ends within `n` bytes equals a list when the list is its text. -/
theorem strcmp_eq_zero_iff_text {m : Memory} {l : List Byte} {k n : ℕ} (hzero : m k = 0)
    (hk : k < n) (hl : 0 ∉ l) :
  strcmp m l = 0 ↔ text m n = l
  := by
  have hend : copied m n < n := (copied_le_of_zero hzero).trans_lt hk
  rw [strcmp_eq_zero_iff]
  constructor
  · rintro ⟨e, he, hbefore, hagree⟩
    have hcopied : copied m n = e := by
      apply le_antisymm (copied_le_of_zero he)
      by_contra hlt
      exact hbefore _ (Nat.not_le.mp hlt) (zero_of_copied_lt hend)
    have hlen : l.length ≤ e := by
      rw [← chars_eq_zero_iff hl, hagree e le_rfl, he]
    apply eq_of_chars hl (zero_notMem_text m n)
    intro j hj
    rw [chars_text, hcopied, hagree j (by omega)]
    split_ifs with hje
    · rfl
    · rw [show j = e by omega, he]
  · rintro rfl
    refine ⟨copied m n, zero_of_copied_lt hend, ?_, ?_⟩
    · intro j hj
      exact (lt_copied_iff.mp hj).2 j le_rfl
    · intro j hj
      rw [chars_text]
      split_ifs with hlt
      · rfl
      · rw [show j = copied m n by omega, zero_of_copied_lt hend]

theorem strrchr_spec (s : List Byte) (c : Byte) (n : ℕ) :
  match (List.range n).foldl (fun last i => if s.getD i 0 = c then some i else last) none with
  | none => ∀ i < n, s.getD i 0 ≠ c
  | some k => k < n ∧ s.getD k 0 = c ∧ ∀ i, k < i → i < n → s.getD i 0 ≠ c
  := by
  induction n with
  | zero =>
      intro i hi
      cases hi
  | succ n ih =>
      rw [List.range_succ, List.foldl_append, List.foldl_cons, List.foldl_nil]
      by_cases hlast : s.getD n 0 = c
      · rw [if_pos hlast]
        refine ⟨Nat.lt_succ_self n, hlast, ?_⟩
        intro i hlo hhi
        omega
      · rw [if_neg hlast]
        cases h : (List.range n).foldl (fun last i => if s.getD i 0 = c then some i else last)
            none with
        | none =>
            rw [h] at ih
            intro i hi
            rcases Nat.lt_succ_iff_lt_or_eq.mp hi with hlt | rfl
            · apply ih i hlt
            · apply hlast
        | some k =>
            rw [h] at ih
            obtain ⟨hk, hc, hrest⟩ := ih
            refine ⟨hk.trans (Nat.lt_succ_self n), hc, ?_⟩
            intro i hlo hhi
            rcases Nat.lt_succ_iff_lt_or_eq.mp hhi with hlt | rfl
            · apply hrest i hlo hlt
            · apply hlast

theorem strrchr_eq_none {s : List Byte} {c : Byte} (h : strrchr s c = none) :
  c ∉ s
  := by
  have hspec := strrchr_spec s c s.length
  rw [strrchr] at h
  rw [h] at hspec
  intro hmem
  obtain ⟨i, hi, rfl⟩ := List.getElem_of_mem hmem
  apply hspec i hi
  simp [hi]

theorem strrchr_of_notMem {s : List Byte} {c : Byte} (h : c ∉ s) :
  strrchr s c = none
  := by
  have hspec := strrchr_spec s c s.length
  rw [← strrchr] at hspec
  cases hlast : strrchr s c with
  | none => rfl
  | some k =>
      rw [hlast] at hspec
      obtain ⟨hk, hc, -⟩ := hspec
      rw [List.getD_eq_getElem?_getD, List.getElem?_eq_getElem hk] at hc
      exact absurd (hc ▸ List.getElem_mem hk) h

/-- The last `c` is a `c`, and no other follows. -/
theorem strrchr_eq_some {s : List Byte} {c : Byte} {k : ℕ} (h : strrchr s c = some k) :
  k < s.length ∧ c ∉ s.drop (k + 1)
  := by
  have hspec := strrchr_spec s c s.length
  rw [strrchr] at h
  rw [h] at hspec
  use hspec.1
  intro hmem
  obtain ⟨i, hi, hc⟩ := List.getElem_of_mem hmem
  rw [List.length_drop] at hi
  have hlt : k + 1 + i < s.length := by omega
  apply hspec.2.2 (k + 1 + i) (by omega) hlt
  rw [← hc, List.getElem_drop]
  simp [hlt]

/-- The last `c` is the one that no other follows. -/
theorem strrchr_append {l r : List Byte} {c : Byte} (h : c ∉ r) :
  strrchr (l ++ c :: r) c = some l.length
  := by
  cases hlast : strrchr (l ++ c :: r) c with
  | none => exact absurd (List.mem_append_right l List.mem_cons_self) (strrchr_eq_none hlast)
  | some k =>
      have hspec := strrchr_spec (l ++ c :: r) c (l ++ c :: r).length
      rw [strrchr] at hlast
      rw [hlast] at hspec
      obtain ⟨hk, hc, hrest⟩ := hspec
      rw [List.length_append, List.length_cons] at hk hrest
      rcases Nat.lt_trichotomy k l.length with hlt | rfl | hgt
      · exact absurd (by simp) (hrest l.length hlt (by omega))
      · rfl
      · -- A later one would be in the rest.
        exfalso
        apply h
        rw [← hc, List.getD_eq_getElem?_getD, List.getElem?_append_right hgt.le]
        obtain ⟨i, hi⟩ := Nat.exists_eq_add_of_lt hgt
        rw [show k - l.length = i + 1 by omega, List.getElem?_cons_succ,
          List.getElem?_eq_getElem (by omega)]
        exact List.getElem_mem _

/-- A token is a part of the string without delimiters, and shorter is what is left of the
string after it. -/
theorem strtok_eq_some {last_pos str last_pos' : Option (List Byte)} {delimiters token : List Byte}
    (h : strtok last_pos str delimiters = (some token, last_pos')) :
  ∃ pos, str.or last_pos = some pos ∧ token <:+: pos ∧ (∀ c ∈ token, c ∉ delimiters) ∧
    ∀ rest ∈ last_pos', rest <:+: pos ∧ rest.length < pos.length
  := by
  rw [strtok] at h
  cases hpos : str.or last_pos with
  | none =>
      rw [hpos] at h
      cases h
  | some pos =>
      rw [hpos] at h
      have hstart : pos.dropWhile (fun c => delimiters.contains c) <:+ pos :=
        List.dropWhile_suffix _
      use pos, rfl
      simp only at h
      split_ifs at h with hempty
      · cases h
      · cases hend : (pos.dropWhile fun c => delimiters.contains c).dropWhile
            fun c => !delimiters.contains c with
        | nil =>
            rw [hend] at h
            obtain ⟨htoken, rfl⟩ := Prod.mk.inj h
            obtain rfl := Option.some.inj htoken
            refine ⟨hstart.isInfix, ?_, ?_⟩
            · intro c hc
              have := List.dropWhile_eq_nil_iff.mp hend c hc
              simpa using this
            · intro rest hrest
              cases hrest
        | cons c rest =>
            rw [hend] at h
            obtain ⟨htoken, rfl⟩ := Prod.mk.inj h
            obtain rfl := Option.some.inj htoken
            have hrest : c :: rest <:+ pos := by
              rw [← hend]
              apply (List.dropWhile_suffix _).trans hstart
            have htake := List.takeWhile_prefix (l := pos.dropWhile fun c => delimiters.contains c)
              fun c => !delimiters.contains c
            refine ⟨htake.isInfix.trans hstart.isInfix, ?_, ?_⟩
            · intro b hb
              have := List.mem_takeWhile_imp hb
              simpa using this
            · intro rest' hrest'
              obtain rfl := Option.some.inj hrest'
              use ((List.suffix_cons c rest).trans hrest).isInfix
              apply hrest.length_le

/-- The tokens to come: the one returned, and those of what is left of the string. -/
def tokens (c : Byte) : Option (List Byte) × Option (List Byte) → List (List Byte)
  | (none, _) => []
  | (some token, last_pos) => token :: Split.pieces c (last_pos.getD [])

/-- The tokens are the pieces of the string between delimiters. -/
theorem tokens_strtok (c : Byte) (last_pos str : Option (List Byte)) :
  tokens c (strtok last_pos str [c]) = Split.pieces c ((str.or last_pos).getD [])
  := by
  rw [strtok]
  cases hpos : str.or last_pos with
  | none => simp [tokens]
  | some pos =>
      simp only [Option.getD_some]
      -- The delimiters at the beginning are skipped.
      have hskip : Split.pieces c (pos.dropWhile fun b => [c].contains b) = Split.pieces c pos := by
        conv_rhs => rw [← List.takeWhile_append_dropWhile (p := fun b => [c].contains b) (l := pos)]
        rw [Split.pieces_append_of_forall]
        intro b hb
        simpa using List.mem_takeWhile_imp hb
      rw [← hskip]
      have hhead := List.head?_dropWhile_not (fun b => [c].contains b) pos
      generalize pos.dropWhile (fun b => [c].contains b) = start at hhead ⊢
      cases start with
      | nil => simp [tokens]
      | cons b start =>
          have hb : b ≠ c := by simpa using hhead
          have htoken : c ∉ (b :: start).takeWhile fun b => !([c].contains b) := by
            intro hmem
            simpa using List.mem_takeWhile_imp hmem
          have hsplit := List.takeWhile_append_dropWhile (p := fun b => !([c].contains b))
            (l := b :: start)
          have hdelimiter := List.head?_dropWhile_not (fun b => !([c].contains b)) (b :: start)
          rw [if_neg (by simp)]
          cases hrest : (b :: start).dropWhile fun b => !([c].contains b) with
          | nil =>
              rw [hrest, List.append_nil] at hsplit
              rw [hsplit] at htoken
              rw [Split.pieces_of_notMem htoken (by simp), tokens, Option.getD_none, Split.pieces_nil]
          | cons c' rest =>
              rw [hrest] at hsplit hdelimiter
              obtain rfl : c' = c := by simpa using hdelimiter
              conv_rhs => rw [← hsplit]
              rw [Split.pieces_piece htoken (by simp [hb]), tokens, Option.getD_some]

/-- A token is followed by less than there was before. -/
theorem strtok_length_lt {c : Byte} {last_pos str : Option (List Byte)}
    (h : (strtok last_pos str [c]).1.isSome) :
  ((strtok last_pos str [c]).2.getD []).length < ((str.or last_pos).getD []).length
  := by
  have htokens := tokens_strtok c last_pos str
  cases hstrtok : strtok last_pos str [c] with
  | mk token last_pos' =>
      rw [hstrtok] at h htokens
      obtain ⟨token, rfl⟩ := Option.isSome_iff_exists.mp h
      obtain ⟨pos, hpos, -, -, hrest⟩ := strtok_eq_some hstrtok
      rw [hpos, Option.getD_some] at htokens ⊢
      cases last_pos' with
      | some rest => exact (hrest rest rfl).2
      | none =>
          apply List.length_pos_iff.mpr
          rintro rfl
          rw [tokens, Split.pieces_nil] at htokens
          cases htokens

/-- Without a token nothing is left of the string. -/
theorem strtok_eq_none {last_pos str last_pos' : Option (List Byte)} {delimiters : List Byte}
    (h : strtok last_pos str delimiters = (none, last_pos')) :
  last_pos' = none
  := by
  rw [strtok] at h
  cases hpos : str.or last_pos with
  | none =>
      rw [hpos] at h
      exact (Prod.mk.inj h).2.symm
  | some pos =>
      rw [hpos] at h
      simp only at h
      split_ifs at h
      · exact (Prod.mk.inj h).2.symm
      · split at h
        · cases (Prod.mk.inj h).1
        · cases (Prod.mk.inj h).1

end CString
