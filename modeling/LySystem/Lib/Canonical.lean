import LySystem.Lib.Itoa

/-!
# Canonical numerals

What `itoa` writes is read back as the value, and it is the only text without zeros in front that
is.  The rounds of its loop and of the loop of `reverse`, with their indices of type `size_t`.
-/

namespace CString

/-! ### Reading -/

/-- The digit a character stands for to the base. -/
def digit (base : ℕ) (c : Byte) : Option ℕ :=
  let c := c.toNat
  if '0'.toNat ≤ c ∧ c ≤ '9'.toNat ∧ c - '0'.toNat < base then some (c - '0'.toNat)
  else if 'A'.toNat ≤ c ∧ c ≤ 'Z'.toNat ∧ c - 'A'.toNat + 10 < base then some (c - 'A'.toNat + 10)
  else none

/-- The text stands for the value, and has no zero in front but for zero itself. -/
structure Canonical (base value : ℕ) (text : List Byte) : Prop where
  read_eq : Numeral.read (digit base) base text = some value
  ne_nil : text ≠ []
  leading : text.head? = some (itoa.char 0) → text = [itoa.char 0]

/-- The string `itoa` writes. -/
def written (value : BitVec 64) (str : Memory) (base : ℕ) : List Byte :=
  text (itoa value str base) 65

/-! ### Rounds -/

/-- A round of the loop of `itoa`, which leaves with `i`. -/
def itoa.round (base : ℕ) : ℕ × ℕ × Memory → (ℕ × ℕ × Memory) ⊕ (ℕ × Memory)
  | (value, i, str) =>
      let remainder := value % base
      let str := str.set i (itoa.char remainder)
      let value := value / base
      if 0 < value then .inl (value, u64 (i + 1), str) else .inr (u64 (i + 1), str)

/-- A round of the loop of `reverse`, with `str`, `i` and `j`. -/
def reverse.round : Memory × ℕ × ℕ → (Memory × ℕ × ℕ) ⊕ Memory
  | (str, i, j) =>
      if i < j then .inl ((str.set i (str j)).set j (str i), u64 (i + 1), sub64 j 1)
      else .inr str

/-- The indices a round of `reverse` reads and writes. -/
def reverse.touches : Memory × ℕ × ℕ → List ℕ
  | (_, i, j) => if i < j then [i, j] else []

/-- The loop of `itoa` leaves with `len`, and the loop of `reverse` over `len` characters leaves
with what `itoa` writes and touches no others. -/
def LoopsEnd (base : ℕ) (value : BitVec 64) (str : Memory) (len : ℕ) : Prop :=
  ∃ digits, Loop.Returns (itoa.round base) (value.toNat, 0, str) (len, digits) ∧
    Loop.Returns reverse.round (digits.set len 0, 0, sub64 len 1) (itoa value str base) ∧
    ∀ s, Loop.Reaches reverse.round (digits.set len 0, 0, sub64 len 1) s →
      ∀ a ∈ reverse.touches s, a < len

variable {base d n i j len : ℕ} {c : Byte} {str : Memory} {value : BitVec 64}

theorem itoa_returns {value : ℕ} (hbase : 1 < base) (hn : 0 < n) (hvalue : value < base ^ n)
    (hi : i + n < 2 ^ 64) (str : Memory) :
  Loop.Returns (itoa.round base) (value, i, str) (itoa.loop base n value i str)
  := by
  induction n generalizing value i str with
  | zero => omega
  | succ n ih =>
      rw [itoa.loop]
      split_ifs with hpos
      · have hnext := div_lt_pow hbase hvalue
        apply Loop.Returns.step _ (ih (pos_of_lt_pow hpos hnext) hnext (by omega) _)
        rw [itoa.round, u64_of_lt (by omega)]
        exact if_pos hpos
      · apply Loop.Returns.stop
        rw [itoa.round, u64_of_lt (by omega)]
        exact if_neg hpos

theorem reverse_loop_returns (hj : j < 2 ^ 64) (str : Memory) (i : ℕ) :
  Loop.Returns reverse.round (str, i, j) (reverse.loop j str i)
  := by
  induction j generalizing str i with
  | zero =>
      apply Loop.Returns.stop
      rw [reverse.round, if_neg (Nat.not_lt_zero i), reverse.loop]
  | succ j ih =>
      rw [reverse.loop]
      split_ifs with hij
      · apply Loop.Returns.step _ (ih (by omega) _ _)
        rw [reverse.round, u64_of_lt (by omega), sub64_of_le (by omega) hj]
        exact if_pos hij
      · apply Loop.Returns.stop
        exact if_neg hij

/-- The loop of `reverse` stays below the length. -/
theorem reverse_touches (hlen : len ≤ 2 ^ 64) (hpos : 0 < len) {s : Memory × ℕ × ℕ}
    (hs : Loop.Reaches reverse.round (str, 0, sub64 len 1) s) :
  ∀ a ∈ reverse.touches s, a < len
  := by
  have hlast : s.2.2 < len := by
    apply hs.invariant (I := fun s => s.2.2 < len)
    · rintro ⟨str, i, j⟩ s' hj hround
      rw [reverse.round] at hround
      split_ifs at hround with hij
      obtain rfl := Sum.inl.inj hround
      dsimp only at hj ⊢
      rw [sub64_of_le (by omega) (by omega)]
      omega
    · change sub64 len 1 < len
      rw [sub64, u64]
      omega
  obtain ⟨str, i, j⟩ := s
  intro a ha
  rw [reverse.touches] at ha
  split_ifs at ha with hij
  · dsimp only at hlast
    rcases List.mem_pair.mp ha with rfl | rfl
    all_goals omega
  · cases ha

/-! ### The string written -/

theorem digit_itoa_char (h36 : base ≤ 36) (hd : d < base) :
  digit base (itoa.char d) = some d
  := by
  have hcode := toNat_itoa_char (hd.trans_le h36)
  have hchars : '0'.toNat = 48 ∧ '9'.toNat = 57 ∧ 'A'.toNat = 65 ∧ 'Z'.toNat = 90 := by decide
  obtain ⟨h0, h9, hA, hZ⟩ := hchars
  rw [digit, hcode, h0, h9, hA, hZ]
  by_cases hten : d < 10
  · rw [if_pos hten, if_pos (by omega), Nat.add_sub_cancel]
  · rw [if_neg hten, if_neg (by omega), if_pos (by omega)]
    congr 1
    omega

theorem eq_of_digit (h36 : base ≤ 36) (c : Byte) (d : ℕ) (h : digit base c = some d) :
  d < base ∧ itoa.char d = c
  := by
  have hchars : '0'.toNat = 48 ∧ '9'.toNat = 57 ∧ 'A'.toNat = 65 ∧ 'Z'.toNat = 90 := by decide
  obtain ⟨h0, h9, hA, hZ⟩ := hchars
  have hd : d < base := by
    rw [digit] at h
    split_ifs at h with hnum hletter
    · exact Option.some.inj h ▸ hnum.2.2
    · exact Option.some.inj h ▸ hletter.2.2
  refine ⟨hd, ?_⟩
  apply BitVec.eq_of_toNat_eq
  rw [toNat_itoa_char (hd.trans_le h36), h0, hA]
  rw [digit, h0, h9, hA, hZ] at h
  split_ifs at h with hnum hletter
  · obtain rfl := Option.some.inj h
    split_ifs <;> omega
  · obtain rfl := Option.some.inj h
    split_ifs <;> omega

theorem canonical_numeral (hbase : 1 < base) (h36 : base ≤ 36) (v : ℕ) :
  Canonical base v (numeral base v)
  := by
  refine ⟨?_, ?_, ?_⟩
  · apply Numeral.read_digits hbase
    intro d hd
    exact digit_itoa_char h36 hd
  · exact List.ne_nil_of_length_pos (length_numeral_pos base v)
  · intro hzero
    rcases Nat.eq_zero_or_pos v with rfl | hpos
    · simp [numeral, Numeral.digits]
    · exfalso
      apply Numeral.head?_digits_ne_zero hbase hpos
      rw [numeral, List.head?_map] at hzero
      obtain ⟨d, hd, hchar⟩ := Option.map_eq_some_iff.mp hzero
      have hdb := Numeral.lt_of_mem_digits hbase (List.mem_of_mem_head? hd)
      have heq := congrArg (digit base) hchar
      rw [digit_itoa_char h36 hdb, digit_itoa_char h36 (by omega)] at heq
      rw [hd, heq]

theorem Canonical.eq_numeral {v : ℕ} {text : List Byte} (hbase : 1 < base) (h36 : base ≤ 36)
    (h : Canonical base v text) :
  text = numeral base v
  := Numeral.eq_numeral_of_read hbase (eq_of_digit h36) h.read_eq h.ne_nil h.leading

theorem written_eq (hbase : 1 < base) (h36 : base ≤ 36) (value : BitVec 64) (str : Memory) :
  written value str base = numeral base value.toNat
  := by
  have hlen := length_numeral_le hbase value
  rw [written]
  apply eq_of_chars (zero_notMem_numeral hbase h36 _) (zero_notMem_text _ _)
  intro j hj
  rw [chars_text]
  split_ifs with hcopied
  · exact itoa_text hbase value str hj
  · symm
    rw [chars_eq_zero_iff (zero_notMem_numeral hbase h36 _)]
    by_contra hlt
    apply hcopied
    apply lt_copied_iff.mpr
    refine ⟨by omega, ?_⟩
    intro k hk hzero
    rw [itoa_text hbase value str (by omega),
      chars_eq_zero_iff (zero_notMem_numeral hbase h36 _)] at hzero
    omega

theorem loops_end (hbase : 1 < base) (value : BitVec 64) (str : Memory) :
  LoopsEnd base value str (numeral base value.toNat).length
  := by
  have hlen := length_numeral_le hbase value
  have hvalue := toNat_lt_pow hbase value
  have hloop := itoa_loop_eq hbase (by decide) hvalue 0 str
  have hreturns := itoa_returns (i := 0) hbase (by decide) hvalue (by decide) str
  rw [Nat.zero_add] at hloop
  rw [hloop] at hreturns
  refine ⟨_, hreturns, ?_, ?_⟩
  · rw [itoa, hloop]
    exact reverse_loop_returns (u64_lt _) _ 0
  · intro s hs
    exact reverse_touches (by omega) (length_numeral_pos base _) hs

/-- `itoa` writes the one canonical numeral of the value, which has 64 characters at most, and a
zero byte behind it; two values with the same string are equal; the loops end and stay within the
digits. -/
theorem itoa_canonical (hbase : 2 ≤ base) (h36 : base ≤ 36) (value : BitVec 64) (str : Memory) :
  (∀ text, Canonical base value.toNat text ↔ text = written value str base) ∧
    (written value str base).length ≤ 64 ∧
    (∀ i, itoa value str base i =
      if i ≤ (written value str base).length then chars (written value str base) i else str i) ∧
    (∀ value' str', written value' str' base = written value str base → value' = value) ∧
    LoopsEnd base value str (written value str base).length
  := by
  rw [written_eq hbase h36]
  refine ⟨?_, length_numeral_le hbase value, ?_, ?_, loops_end hbase value str⟩
  · intro text
    constructor
    · exact Canonical.eq_numeral hbase h36
    · rintro rfl
      exact canonical_numeral hbase h36 _
  · intro i
    rw [itoa_eq hbase, Memory.splice]
    simp only [Nat.zero_le, true_and, Nat.zero_add, Nat.lt_succ_iff, Nat.sub_zero]
  · intro value' str' heq
    rw [written_eq hbase h36] at heq
    have hread := (canonical_numeral hbase h36 value'.toNat).read_eq
    rw [heq, (canonical_numeral hbase h36 value.toNat).read_eq] at hread
    exact (BitVec.eq_of_toNat_eq (Option.some.inj hread)).symm

/-- The greatest value to base 36. -/
example : written (BitVec.allOnes 64) (fun _ => 0x20) 36 = ascii "3W5E11264SGSF" := by decide

theorem itoa_canonical_hex :
  (∀ text, Canonical 16 48879 text ↔ text = written 48879 (fun _ => 0x20) 16) ∧
    (written 48879 (fun _ => 0x20) 16).length ≤ 64 ∧
    (∀ i, itoa 48879 (fun _ => 0x20) 16 i =
      if i ≤ (written 48879 (fun _ => 0x20) 16).length then
        chars (written 48879 (fun _ => 0x20) 16) i
      else 0x20) ∧
    (∀ value' str', written value' str' 16 = written 48879 (fun _ => 0x20) 16 → value' = 48879) ∧
    LoopsEnd 16 48879 (fun _ => 0x20) (written 48879 (fun _ => 0x20) 16).length
  := itoa_canonical (by decide) (by decide) 48879 fun _ => 0x20

end CString
