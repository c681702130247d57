import Mathlib.Data.Nat.Digits.Lemmas

/-!
# Numerals

The digits of a number to a base, the most significant first, and texts that consist of a character
for each of them.  A text is read back from the left.
-/

namespace Numeral

variable {α : Type*} {b v d : ℕ}

/-- The digits of a number, of which there is one at least. -/
def digits (b v : ℕ) : List ℕ := (Nat.digits b (v / b)).reverse ++ [v % b]

theorem reverse_digits (b v : ℕ) :
  (digits b v).reverse = v % b :: Nat.digits b (v / b)
  := by
  simp [digits]

theorem digits_ne_nil (b v : ℕ) :
  digits b v ≠ []
  := by
  simp [digits]

/-- The digits before the last one are those of the quotient. -/
theorem reverse_digits_div (hb : 1 < b) (v : ℕ) :
  (digits b v).reverse = v % b :: if 0 < v / b then (digits b (v / b)).reverse else []
  := by
  rw [reverse_digits]
  split_ifs with hpos
  · rw [reverse_digits, Nat.digits_def' hb hpos]
  · rw [Nat.eq_zero_of_not_pos hpos, Nat.digits_zero]

theorem lt_of_mem_digits (hb : 1 < b) (hd : d ∈ digits b v) :
  d < b
  := by
  rcases List.mem_append.mp hd with hd | hd
  · exact Nat.digits_lt_base hb (List.mem_reverse.mp hd)
  · rw [List.mem_singleton.mp hd]
    exact Nat.mod_lt _ (by omega)

theorem length_digits_le {n : ℕ} (hb : 1 < b) (hn : 0 < n) (hv : v < b ^ n) :
  (digits b v).length ≤ n
  := by
  obtain ⟨k, rfl⟩ := Nat.exists_eq_succ_of_ne_zero hn.ne'
  have hrest : v / b < b ^ k := by
    rw [Nat.div_lt_iff_lt_mul (by omega), ← pow_succ]
    exact hv
  rw [digits, List.length_append, List.length_reverse, List.length_singleton]
  exact Nat.succ_le_succ ((Nat.digits_length_le_iff hb _).mpr hrest)

theorem digits_of_pos (hb : 1 < b) (hv : 0 < v) :
  digits b v = (Nat.digits b v).reverse
  := by
  rw [Nat.digits_def' hb hv, List.reverse_cons, digits]

/-- No number but zero begins with the digit zero. -/
theorem head?_digits_ne_zero (hb : 1 < b) (hv : 0 < v) :
  (digits b v).head? ≠ some 0
  := by
  intro hzero
  have hne : Nat.digits b v ≠ [] := Nat.digits_ne_nil_iff_ne_zero.mpr hv.ne'
  rw [digits_of_pos hb hv, List.head?_reverse, List.getLast?_eq_some_getLast hne,
    Option.some.injEq] at hzero
  exact Nat.getLast_digit_ne_zero b hv.ne' hzero

/-- The number a list of digits stands for. -/
def value (b : ℕ) (ds : List ℕ) : ℕ := ds.foldl (fun v d => d + b * v) 0

theorem value_digits (b v : ℕ) :
  value b (digits b v) = v
  := by
  have hrest : value b (Nat.digits b (v / b)).reverse = v / b := by
    rw [value, List.foldl_reverse]
    exact (Nat.ofDigits_eq_foldr b _).symm.trans (Nat.ofDigits_digits b (v / b))
  rw [digits, value, List.foldl_append]
  change v % b + b * value b (Nat.digits b (v / b)).reverse = v
  rw [hrest, Nat.mod_add_div]

theorem value_eq_ofDigits (b : ℕ) (ds : List ℕ) :
  value b ds = Nat.ofDigits b ds.reverse
  := by
  rw [Nat.ofDigits_eq_foldr, List.foldr_reverse]
  rfl

/-- Digits with no zero in front, but for zero itself, are the digits of the number they stand
for. -/
theorem digits_value (hb : 1 < b) {ds : List ℕ} (hne : ds ≠ []) (hlt : ∀ d ∈ ds, d < b)
    (hzero : ds.head? = some 0 → ds = [0]) :
  digits b (value b ds) = ds
  := by
  by_cases hds : ds = [0]
  · subst hds
    simp [value, digits]
  · have hlast : ∀ h : ds.reverse ≠ [], ds.reverse.getLast h ≠ 0 := by
      intro h hlast
      apply hds
      apply hzero
      rw [← hlast, ← List.getLast?_eq_some_getLast, List.getLast?_reverse]
    have hdigits : Nat.digits b (value b ds) = ds.reverse := by
      rw [value_eq_ofDigits]
      apply Nat.digits_ofDigits b hb _ _ hlast
      intro d hd
      exact hlt d (List.mem_reverse.mp hd)
    have hpos : 0 < value b ds := by
      apply Nat.pos_of_ne_zero
      intro hvalue
      rw [hvalue, Nat.digits_zero] at hdigits
      exact hne (List.reverse_eq_nil_iff.mp hdigits.symm)
    rw [digits_of_pos hb hpos, hdigits, List.reverse_reverse]

/-! ### Texts -/

/-- The number a text of digits stands for. -/
def read (digit : α → Option ℕ) (b : ℕ) (text : List α) : Option ℕ :=
  text.foldlM (fun v c => (digit c).map fun d => d + b * v) 0

/-- The numeral of an integer. -/
def signed (minus : α) (char : ℕ → α) (b : ℕ) (v : ℤ) : List α :=
  (if v < 0 then [minus] else []) ++ (digits b v.natAbs).map char

/-- The integer a text stands for. -/
def readSigned [DecidableEq α] (minus : α) (digit : α → Option ℕ) (b : ℕ) : List α → Option ℤ
  | [] => none
  | c :: text =>
      if c = minus then (read digit b text).map fun (v : ℕ) => -(v : ℤ)
      else (read digit b (c :: text)).map fun (v : ℕ) => (v : ℤ)

variable {char : ℕ → α} {digit : α → Option ℕ} {minus : α}

theorem foldlM_chars {ds : List ℕ} (h : ∀ d ∈ ds, digit (char d) = some d) (v : ℕ) :
  (ds.map char).foldlM (fun v c => (digit c).map fun d => d + b * v) v =
    some (ds.foldl (fun v d => d + b * v) v)
  := by
  induction ds generalizing v with
  | nil => rfl
  | cons d ds ih =>
      rw [List.map_cons, List.foldlM_cons, h d List.mem_cons_self]
      apply ih
      intro e he
      exact h e (List.mem_cons_of_mem d he)

/-- The numeral of a number stands for it. -/
theorem read_digits (hb : 1 < b) (h : ∀ d < b, digit (char d) = some d) (v : ℕ) :
  read digit b ((digits b v).map char) = some v
  := by
  have hdigits : ∀ d ∈ digits b v, digit (char d) = some d := by
    intro d hd
    exact h d (lt_of_mem_digits hb hd)
  rw [read, foldlM_chars hdigits]
  exact congrArg some (value_digits b v)

/-- A text that stands for a number consists of digits. -/
theorem digits_of_foldlM (hdigit : ∀ c d, digit c = some d → d < b ∧ char d = c) {text : List α}
    {u : ℕ} (h : text.foldlM (fun v c => (digit c).map fun d => d + b * v) u = some v) :
  ∃ ds : List ℕ, text = ds.map char ∧ (∀ d ∈ ds, d < b) ∧
    ds.foldl (fun v d => d + b * v) u = v
  := by
  induction text generalizing u with
  | nil => exact ⟨[], rfl, by simp, Option.some.inj h⟩
  | cons c text ih =>
      rw [List.foldlM_cons] at h
      obtain ⟨w, hw, hrest⟩ := Option.bind_eq_some_iff.mp h
      obtain ⟨d, hd, rfl⟩ := Option.map_eq_some_iff.mp hw
      obtain ⟨ds, rfl, hlt, hvalue⟩ := ih hrest
      obtain ⟨hdb, rfl⟩ := hdigit c d hd
      exact ⟨d :: ds, rfl, List.forall_mem_cons.mpr ⟨hdb, hlt⟩, hvalue⟩

/-- A text that stands for a number and has no zero in front, but for zero itself, is the numeral
of the number. -/
theorem eq_numeral_of_read (hb : 1 < b) {text : List α}
    (hdigit : ∀ c d, digit c = some d → d < b ∧ char d = c) (hread : read digit b text = some v)
    (hne : text ≠ []) (hzero : text.head? = some (char 0) → text = [char 0]) :
  text = (digits b v).map char
  := by
  obtain ⟨ds, rfl, hlt, rfl⟩ := digits_of_foldlM hdigit hread
  have hds : ds ≠ [] := fun hnil => hne (hnil ▸ rfl)
  have hfront : ds.head? = some 0 → ds = [0] := by
    intro hhead
    have htext := hzero (by rw [List.head?_map, hhead]; rfl)
    obtain ⟨d, rfl, -⟩ := List.map_eq_singleton_iff.mp htext
    exact congrArg (fun d => [d]) (Option.some.inj hhead)
  exact congrArg (List.map char) (digits_value hb hds hlt hfront).symm

/-- The numeral of an integer stands for it. -/
theorem readSigned_signed [DecidableEq α] (hb : 1 < b) (h : ∀ d < b, digit (char d) = some d)
    (hminus : ∀ d < b, char d ≠ minus) (v : ℤ) :
  readSigned minus digit b (signed minus char b v) = some v
  := by
  have hread := read_digits hb h v.natAbs
  rw [signed]
  split_ifs with hneg
  · rw [List.singleton_append, readSigned, if_pos rfl, hread, Option.map_some]
    congr 1
    omega
  · rw [List.nil_append]
    cases htext : digits b v.natAbs with
    | nil => exact absurd htext (digits_ne_nil _ _)
    | cons d ds =>
        have hd : d < b := by
          apply lt_of_mem_digits hb (v := v.natAbs)
          rw [htext]
          exact List.mem_cons_self
        rw [htext, List.map_cons] at hread
        rw [List.map_cons, readSigned, if_neg (hminus d hd), hread, Option.map_some]
        congr 1
        omega

end Numeral
