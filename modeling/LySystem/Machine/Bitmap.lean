import LySystem.Machine.Bytes
import LySystem.Machine.Loop
import Mathlib.Tactic.IntervalCases

/-!
# Bitmaps

A set of numbers stored as bits: the number `k` is in the set when bit `k % 8` of byte
`k / 8` is on.  `test`, `set` and `clear` are the three accesses written with C operators.
-/

namespace Bitmap

/-- Whether bit `bit` of a byte is on: `b & (1 << bit)`. -/
def bitOn (b : Byte) (bit : ℕ) : Bool :=
  b &&& 1#8 <<< bit != 0

/-- Whether `k` is in the set. -/
def test (m : Memory) (k : ℕ) : Bool :=
  bitOn (m (k / 8)) (k % 8)

/-- `k` put in the set: `m[k / 8] |= 1 << k % 8`. -/
def set (m : Memory) (k : ℕ) : Memory :=
  m.set (k / 8) (m (k / 8) ||| 1#8 <<< (k % 8))

/-- `k` taken out of the set: `m[k / 8] &= ~(1 << k % 8)`. -/
def clear (m : Memory) (k : ℕ) : Memory :=
  m.set (k / 8) (m (k / 8) &&& ~~~(1#8 <<< (k % 8)))

theorem bitOn_eq (b : Byte) {bit : ℕ} (h : bit < 8) :
  bitOn b bit = b.getLsbD bit
  := by
  have hpow : (1#8 <<< bit) ≠ 0#8 := by
    interval_cases bit <;> decide
  have hand := BitVec.and_twoPow b bit
  rw [BitVec.twoPow] at hand
  cases hbit : b.getLsbD bit <;> simp [bitOn, hand, hbit, hpow]

theorem bitOn_full {bit : ℕ} (h : bit < 8) :
  bitOn 0xFF bit = true
  := by
  interval_cases bit <;> decide

theorem getLsbD_one_shift {i j : ℕ} (hi : i < 8) :
  (1#8 <<< j).getLsbD i = decide (i = j)
  := by
  rw [← BitVec.twoPow, BitVec.getLsbD_twoPow]
  grind

theorem bitOn_or (b : Byte) {i j : ℕ} (hi : i < 8) :
  bitOn (b ||| 1#8 <<< j) i = (decide (i = j) || bitOn b i)
  := by
  rw [bitOn_eq _ hi, bitOn_eq _ hi, BitVec.getLsbD_or, getLsbD_one_shift hi, Bool.or_comm]

theorem bitOn_and_not (b : Byte) {i j : ℕ} (hi : i < 8) :
  bitOn (b &&& ~~~(1#8 <<< j)) i = (!decide (i = j) && bitOn b i)
  := by
  rw [bitOn_eq _ hi, bitOn_eq _ hi, BitVec.getLsbD_and, BitVec.getLsbD_not,
    getLsbD_one_shift hi, Bool.and_comm]
  simp [hi]

theorem test_set (m : Memory) (j k : ℕ) :
  test (set m k) j = (decide (j = k) || test m j)
  := by
  rw [test, set, Memory.set]
  split_ifs with hbyte
  · rw [bitOn_or _ (Nat.mod_lt _ (by omega)), ← hbyte, ← test]
    congr 2
    simp only [eq_iff_iff]
    omega
  · have : j ≠ k := by
      rintro rfl
      apply hbyte rfl
    simp [this, test]

theorem test_clear (m : Memory) (j k : ℕ) :
  test (clear m k) j = (!decide (j = k) && test m j)
  := by
  rw [test, clear, Memory.set]
  split_ifs with hbyte
  · rw [bitOn_and_not _ (Nat.mod_lt _ (by omega)), ← hbyte, ← test]
    congr 3
    simp only [eq_iff_iff]
    omega
  · have : j ≠ k := by
      rintro rfl
      apply hbyte rfl
    simp [this, test]

/-- Memories with the same bits in the first bytes, and the same bytes behind, are the same. -/
theorem eq_of_test {m m' : Memory} {bytes : ℕ} (hbits : ∀ k < bytes * 8, test m k = test m' k)
    (hrest : ∀ x, bytes ≤ x → m x = m' x) :
  m = m'
  := by
  funext x
  by_cases hx : x < bytes
  · apply BitVec.eq_of_getLsbD_eq
    intro bit hbit
    have hk := hbits (x * 8 + bit) (by omega)
    have hdiv : (x * 8 + bit) / 8 = x := by omega
    have hmod : (x * 8 + bit) % 8 = bit := by omega
    rw [test, test, hdiv, hmod, bitOn_eq _ hbit, bitOn_eq _ hbit] at hk
    exact hk
  · exact hrest x (by omega)

/-- Setting a bit changes one byte. -/
theorem set_outside (m : Memory) {k x : ℕ} (h : x ≠ k / 8) :
  set m k x = m x
  := by
  simp [set, Memory.set, h]

/-- Clearing a bit changes one byte. -/
theorem clear_outside (m : Memory) {k x : ℕ} (h : x ≠ k / 8) :
  clear m k x = m x
  := by
  simp [clear, Memory.set, h]

/-- Clearing a bit that is off changes nothing. -/
theorem clear_of_not {m : Memory} {k : ℕ} (h : test m k = false) :
  clear m k = m
  := by
  have hbyte : ∀ (b : Byte) (bit : ℕ), bit < 8 → bitOn b bit = false →
      b &&& ~~~(1#8 <<< bit) = b := by
    intro b bit hbit hoff
    rw [bitOn_eq b hbit] at hoff
    apply BitVec.eq_of_getLsbD_eq
    intro i hi
    rw [BitVec.getLsbD_and, BitVec.getLsbD_not, getLsbD_one_shift hi]
    by_cases heq : i = bit
    · simp [heq, hoff]
    · simp [heq, hi]
  funext x
  rw [clear, Memory.set]
  split_ifs with hx
  · rw [hbyte _ _ (Nat.mod_lt k (by omega)) h, hx]
  · rfl

theorem clear_zero {m : Memory} {x : ℕ} (k : ℕ) (h : m x = 0) :
  clear m k x = 0
  := by
  rw [clear, Memory.set]
  split_ifs with hx
  · rw [← hx, h]
    apply BitVec.zero_and
  · apply h

/-! ### Searching -/

/-- The first number that is not in the set and that `ok` accepts, searched byte by byte
through `bytes` bytes; full bytes are passed over. -/
def firstClear (m : Memory) (ok : ℕ → Bool) (bytes : ℕ) : Option ℕ :=
  Loop.firstSome
    (fun i =>
      if m i ≠ 0xFF then
        Loop.firstSome
          (fun bit => if !bitOn (m i) bit && ok (i * 8 + bit) then some (i * 8 + bit) else none) 0 8
      else none)
    0 bytes

theorem test_byte (m : Memory) (i : ℕ) {bit : ℕ} (h : bit < 8) :
  test m (i * 8 + bit) = bitOn (m i) bit
  := by
  rw [test]
  congr 2 <;> omega

/-- The number found is the first one not in the set among those `ok` accepts. -/
theorem firstClear_eq_some {m : Memory} {ok : ℕ → Bool} {bytes k : ℕ}
    (h : firstClear m ok bytes = some k) :
  k < bytes * 8 ∧ test m k = false ∧ ok k ∧ ∀ j < k, ok j → test m j = true
  := by
  obtain ⟨i, -, hi, hbyte, hfull⟩ := Loop.firstSome_eq_some.mp h
  split_ifs at hbyte
  obtain ⟨bit, -, hbit, hk, hset⟩ := Loop.firstSome_eq_some.mp hbyte
  split_ifs at hk with hfree
  obtain rfl := Option.some.inj hk
  simp only [Bool.and_eq_true, Bool.not_eq_true'] at hfree
  refine ⟨by omega, ?_, hfree.2, ?_⟩
  · rw [test_byte m i (by omega), hfree.1]
  · intro j hj hok
    by_contra hclear
    rw [Bool.not_eq_true] at hclear
    obtain ⟨i', bit', hbit', rfl⟩ : ∃ i' bit', bit' < 8 ∧ j = i' * 8 + bit' :=
      ⟨j / 8, j % 8, by omega, by omega⟩
    rw [test_byte m i' hbit'] at hclear
    rcases Nat.lt_trichotomy i' i with hlt | rfl | hgt
    · -- An earlier byte is full, or has no bit `ok` accepts.
      have hnone := hfull i' (Nat.zero_le i') hlt
      by_cases hff : m i' = 0xFF
      · rw [hff, bitOn_full hbit'] at hclear
        cases hclear
      · rw [if_pos hff] at hnone
        have := Loop.firstSome_eq_none.mp hnone bit' (Nat.zero_le bit') (by omega)
        simp [hclear, hok] at this
    · have := hset bit' (Nat.zero_le bit') (by omega)
      simp [hclear, hok] at this
    · omega

theorem firstClear_eq_none {m : Memory} {ok : ℕ → Bool} {bytes : ℕ}
    (h : firstClear m ok bytes = none) :
  ∀ j < bytes * 8, ok j → test m j = true
  := by
  intro j hj hok
  by_contra hclear
  rw [Bool.not_eq_true] at hclear
  obtain ⟨i, bit, hbit, rfl⟩ : ∃ i bit, bit < 8 ∧ j = i * 8 + bit :=
    ⟨j / 8, j % 8, by omega, by omega⟩
  rw [test_byte m i hbit] at hclear
  have hnone := Loop.firstSome_eq_none.mp h i (Nat.zero_le i) (by omega)
  by_cases hff : m i = 0xFF
  · rw [hff, bitOn_full hbit] at hclear
    cases hclear
  · rw [if_pos hff] at hnone
    have := Loop.firstSome_eq_none.mp hnone bit (Nat.zero_le bit) (by omega)
    simp [hclear, hok] at this

end Bitmap
