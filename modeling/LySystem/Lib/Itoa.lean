import LySystem.Lib.Libc
import LySystem.Machine.Numeral

/-!
# Numerals in the kernel

`reverse` and `itoa` of `lib/string.c`.  `itoa` writes the digits from the last to the first, and
reverses them.
-/

namespace CString

/-- The loop of `reverse`, `j` first. -/
def reverse.loop : ℕ → Memory → ℕ → Memory
  | 0, str, _ => str
  | j + 1, str, i =>
      if i < j + 1 then reverse.loop j ((str.set i (str (j + 1))).set (j + 1) (str i)) (i + 1)
      else str

def reverse (str : Memory) (len : ℕ) : Memory := reverse.loop (sub64 len 1) str 0

def itoa.char (remainder : ℕ) : Byte :=
  BitVec.ofNat 8 (if remainder < 10 then remainder + '0'.toNat else remainder - 10 + 'A'.toNat)

/-- The loop of `itoa`, for a value of at most `n` digits. -/
def itoa.loop (base : ℕ) : ℕ → ℕ → ℕ → Memory → ℕ × Memory
  | 0, _, i, str => (i, str)
  | n + 1, value, i, str =>
      let str := str.set i (itoa.char (value % base))
      let value := value / base
      if 0 < value then itoa.loop base n value (i + 1) str else (i + 1, str)

/-- A value of 64 bits has at most 64 digits. -/
def itoa (value : BitVec 64) (str : Memory) (base : ℕ) : Memory :=
  let r := itoa.loop base 64 value.toNat 0 str
  reverse (r.2.set r.1 0) r.1

/-! ### The text of a number -/

/-- The characters of the numeral. -/
def numeral (base value : ℕ) : List Byte := (Numeral.digits base value).map itoa.char

/-- The code of a digit: one of the codes of `0`, …, `9`, or one of those from `A` on. -/
theorem toNat_itoa_char {d : ℕ} (hd : d < 36) :
  (itoa.char d).toNat = if d < 10 then d + '0'.toNat else d - 10 + 'A'.toNat
  := by
  have hA : 'A'.toNat = 65 := rfl
  have h0 : '0'.toNat = 48 := rfl
  rw [itoa.char, BitVec.toNat_ofNat]
  apply Nat.mod_eq_of_lt
  split_ifs <;> omega

theorem itoa_char_ne_zero {d : ℕ} (hd : d < 36) :
  itoa.char d ≠ 0
  := by
  have hA : 'A'.toNat = 65 := rfl
  have h0 : '0'.toNat = 48 := rfl
  have hcode := toNat_itoa_char hd
  intro hzero
  rw [hzero] at hcode
  change 0 = _ at hcode
  split_ifs at hcode <;> omega

theorem zero_notMem_numeral {base : ℕ} (hbase : 1 < base) (h36 : base ≤ 36) (value : ℕ) :
  0 ∉ numeral base value
  := by
  intro hmem
  obtain ⟨d, hd, hzero⟩ := List.mem_map.mp hmem
  exact itoa_char_ne_zero ((Numeral.lt_of_mem_digits hbase hd).trans_le h36) hzero

/-- A quotient has a digit less. -/
theorem div_lt_pow {base n value : ℕ} (hbase : 1 < base) (hvalue : value < base ^ (n + 1)) :
  value / base < base ^ n
  := by
  rw [Nat.div_lt_iff_lt_mul (by omega), ← pow_succ]
  exact hvalue

theorem pos_of_lt_pow {base n value : ℕ} (hpos : 0 < value) (hvalue : value < base ^ n) :
  0 < n
  := by
  apply Nat.pos_of_ne_zero
  rintro rfl
  rw [pow_zero] at hvalue
  omega

theorem reverse_loop_eq (j : ℕ) (str : Memory) {i : ℕ} (h : i ≤ j + 1) :
  reverse.loop j str i = str.splice i (j + 1 - i) fun k => str (j - k)
  := by
  induction j generalizing str i with
  | zero =>
      funext x
      rw [reverse.loop, Memory.splice]
      split_ifs with hx
      · congr 1
        omega
      · rfl
  | succ j ih =>
      rw [reverse.loop]
      split_ifs with hij
      · rw [ih _ (by omega)]
        funext x
        simp only [Memory.splice, Memory.set]
        split_ifs
        any_goals omega
        all_goals congr 1
        all_goals omega
      · funext x
        rw [Memory.splice]
        split_ifs with hx
        · congr 1
          omega
        · rfl

theorem reverse_eq (str : Memory) {len : ℕ} (hpos : 0 < len) (hlen : len ≤ 2 ^ 64) :
  reverse str len = str.splice 0 len fun k => str (len - 1 - k)
  := by
  have hj : sub64 len 1 = len - 1 := by
    rw [sub64, u64]
    omega
  rw [reverse, hj, reverse_loop_eq _ _ (Nat.zero_le _), Nat.sub_zero, Nat.sub_add_cancel hpos]

/-- The loop writes the characters of the numeral, the last one first. -/
theorem itoa_loop_eq {base n value : ℕ} (hbase : 1 < base) (hn : 0 < n) (hvalue : value < base ^ n)
    (i : ℕ) (str : Memory) :
  itoa.loop base n value i str = (i + (numeral base value).length,
    str.copy i (chars (numeral base value).reverse) (numeral base value).length)
  := by
  induction n generalizing value i str with
  | zero => omega
  | succ n ih =>
      have hrev : (numeral base value).reverse = itoa.char (value % base) ::
          if 0 < value / base then (numeral base (value / base)).reverse else [] := by
        rw [numeral, ← List.map_reverse, Numeral.reverse_digits_div hbase, List.map_cons]
        split_ifs
        · rw [numeral, List.map_reverse]
        · rfl
      have hlen := congrArg List.length hrev
      rw [List.length_reverse, List.length_cons] at hlen
      rw [itoa.loop, hlen, hrev]
      split_ifs with hpos
      · have hnext := div_lt_pow hbase hvalue
        rw [ih (pos_of_lt_pow hpos hnext) hnext, List.length_reverse]
        congr 1
        · omega
        · funext x
          simp only [Memory.copy, Memory.splice, Memory.set]
          split_ifs with h₁ h₂ h₃
          any_goals omega
          · rw [show x - i = x - (i + 1) + 1 by omega]
            rfl
          · rw [h₃, Nat.sub_self]
            rfl
          · rfl
      · congr 1
        funext x
        simp only [Memory.copy, Memory.splice, Memory.set, List.length_nil]
        split_ifs with h₁ h₂
        any_goals omega
        · rw [h₁, Nat.sub_self]
          rfl
        · rfl

theorem length_numeral_pos (base value : ℕ) :
  0 < (numeral base value).length
  := by
  rw [numeral, List.length_map]
  exact List.length_pos_of_ne_nil (Numeral.digits_ne_nil _ _)

theorem toNat_lt_pow {base : ℕ} (hbase : 1 < base) (value : BitVec 64) :
  value.toNat < base ^ 64
  := value.isLt.trans_le (Nat.pow_le_pow_left hbase 64)

/-- A value of 64 bits has at most 64 digits to every base. -/
theorem length_numeral_le {base : ℕ} (hbase : 1 < base) (value : BitVec 64) :
  (numeral base value.toNat).length ≤ 64
  := by
  rw [numeral, List.length_map]
  exact Numeral.length_digits_le hbase (by decide) (toNat_lt_pow hbase value)

/-- `itoa` writes the numeral and a zero byte behind it, and nothing else. -/
theorem itoa_eq {base : ℕ} (hbase : 1 < base) (value : BitVec 64) (str : Memory) :
  itoa value str base =
    str.splice 0 ((numeral base value.toNat).length + 1) (chars (numeral base value.toNat))
  := by
  have hpos := length_numeral_pos base value.toNat
  have hlen := length_numeral_le hbase value
  rw [itoa, itoa_loop_eq hbase (by decide) (toNat_lt_pow hbase value)]
  dsimp only
  rw [Nat.zero_add, reverse_eq _ hpos (by omega)]
  generalize numeral base value.toNat = l at hpos hlen
  funext i
  rw [Memory.splice, Memory.splice]
  split_ifs with hin hout
  · have hmirror : l.length - 1 - (i - 0) < l.length := by omega
    rw [Memory.set_of_ne _ _ (by omega), Memory.copy, Memory.splice, if_pos (by omega), chars,
      chars, List.getD_eq_getElem?_getD, List.getD_eq_getElem?_getD,
      List.getElem?_reverse (by omega)]
    congr 2
    omega
  · omega
  · obtain rfl : i = l.length := by omega
    rw [Memory.set, if_pos rfl, chars_of_length_le (by omega)]
  · rw [Memory.set_of_ne _ _ (by omega), Memory.copy, Memory.splice, if_neg (by omega)]

theorem itoa_text {base : ℕ} (hbase : 1 < base) (value : BitVec 64) (str : Memory) {i : ℕ}
    (hi : i ≤ (numeral base value.toNat).length) :
  itoa value str base i = chars (numeral base value.toNat) i
  := by
  rw [itoa_eq hbase, Memory.splice, if_pos (by omega), Nat.sub_zero]

end CString
