import Mathlib.Data.Nat.Digits.Defs
import Mathlib.Logic.Function.Basic
import Mathlib.Tactic.Ring

/-!
# Byte memories

A memory holds a byte at each address.  A number is held little-endian in consecutive
bytes: `load m a n` is the number held in the `n` bytes from `a` on, and `store m a n v`
is the memory in which they hold `v`.  Every write is a case of `splice`, which replaces
the bytes of one range.
-/

/-- A byte. -/
abbrev Byte := BitVec 8

/-- A memory: the byte held at each address. -/
abbrev Memory := ℕ → Byte

namespace Memory

/-! ### Replacing a range -/

/-- The memory `m` with the `n` bytes from `a` on replaced by `f 0`, `f 1`, …. -/
def splice (m : Memory) (a n : ℕ) (f : ℕ → Byte) : Memory :=
  fun x => if a ≤ x ∧ x < a + n then f (x - a) else m x

theorem splice_inside (m : Memory) {a n : ℕ} (f : ℕ → Byte) {i : ℕ} (h : i < n) :
  splice m a n f (a + i) = f i
  := by
  simp [splice, h]

theorem splice_outside (m : Memory) {a n x : ℕ} (f : ℕ → Byte) (h : x < a ∨ a + n ≤ x) :
  splice m a n f x = m x
  := by
  have : ¬ (a ≤ x ∧ x < a + n) := by omega
  simp [splice, this]

/-- A range replaced inside another that was replaced before. -/
theorem splice_splice (m : Memory) {a n k j : ℕ} (f g : ℕ → Byte) (h : k + j ≤ n) :
  splice (splice m a n f) (a + k) j g = splice m a n (splice f k j g)
  := by
  funext x
  simp only [splice]
  split_ifs with h₁ h₂ h₃ h₄
  any_goals omega
  · rw [Nat.sub_sub]
  all_goals rfl

/-- The `n` bytes from `a` on all set to `v`. -/
def fill (m : Memory) (a n : ℕ) (v : Byte) : Memory :=
  splice m a n (fun _ => v)

/-- The `n` bytes from `a` on replaced by the first `n` bytes `src` sees. -/
def copy (m : Memory) (a : ℕ) (src : Memory) (n : ℕ) : Memory :=
  splice m a n src

/-- The byte at `a` replaced by `v`. -/
def set (m : Memory) (a : ℕ) (v : Byte) : Memory :=
  fun x => if x = a then v else m x

theorem set_of_ne (m : Memory) {a x : ℕ} (v : Byte) (h : x ≠ a) :
  set m a v x = m x
  := if_neg h

/-- The memory as seen from the address `a`. -/
def drop (m : Memory) (a : ℕ) : Memory :=
  fun i => m (a + i)

/-! ### Numbers in memory -/

/-- The number held in the `n` bytes from `a` on. -/
def load (m : Memory) : ℕ → ℕ → ℕ
  | _, 0 => 0
  | a, n + 1 => (m a).toNat + 256 * load m (a + 1) n

/-- The memory in which the `n` bytes from `a` on hold `v`. -/
def store (m : Memory) (a n v : ℕ) : Memory :=
  splice m a n (fun i => BitVec.ofNat 8 (v / 256 ^ i))

theorem load_lt (m : Memory) (a n : ℕ) :
  load m a n < 256 ^ n
  := by
  induction n generalizing a with
  | zero => simp [load]
  | succ n ih =>
      have hbyte := (m a).isLt
      have hrest := ih (a + 1)
      rw [load, pow_succ]
      omega

/-- A load depends on the bytes it reads only. -/
theorem load_congr {m m' : Memory} {a b n : ℕ} (h : ∀ i < n, m (a + i) = m' (b + i)) :
  load m a n = load m' b n
  := by
  induction n generalizing a b with
  | zero => rfl
  | succ n ih =>
      have hhead := h 0 (Nat.succ_pos n)
      have htail : ∀ i < n, m (a + 1 + i) = m' (b + 1 + i) := by
        intro i hi
        have := h (i + 1) (by omega)
        rwa [← Nat.add_assoc, Nat.add_right_comm a, ← Nat.add_assoc, Nat.add_right_comm b] at this
      simp only [Nat.add_zero] at hhead
      rw [load, load, hhead, ih htail]

/-- Two loads give the same number when the bytes they read are the same. -/
theorem load_eq_iff {m m' : Memory} {a b n : ℕ} :
  load m a n = load m' b n ↔ ∀ i < n, m (a + i) = m' (b + i)
  := by
  constructor
  · intro h
    induction n generalizing a b with
    | zero => intro i hi; cases hi
    | succ n ih =>
        rw [load, load] at h
        have hlt := (m a).isLt
        have hlt' := (m' b).isLt
        have hhead : (m a).toNat = (m' b).toNat := by omega
        have htail : load m (a + 1) n = load m' (b + 1) n := by omega
        intro i hi
        cases i with
        | zero => exact BitVec.eq_of_toNat_eq hhead
        | succ i =>
            rw [Nat.add_comm i, ← Nat.add_assoc, ← Nat.add_assoc]
            apply ih htail i (Nat.lt_of_succ_lt_succ hi)
  · apply load_congr

/-- The bytes holding the digits of `v` to base 256 hold `v`, up to overflow. -/
theorem load_of_digits {m : Memory} {a n v : ℕ}
    (h : ∀ i < n, m (a + i) = BitVec.ofNat 8 (v / 256 ^ i)) :
  load m a n = v % 256 ^ n
  := by
  induction n generalizing a v with
  | zero => simp [load, Nat.mod_one]
  | succ n ih =>
      have hhead := h 0 (Nat.succ_pos n)
      have htail : ∀ i < n, m (a + 1 + i) = BitVec.ofNat 8 (v / 256 / 256 ^ i) := by
        intro i hi
        have := h (i + 1) (by omega)
        rw [show a + 1 + i = a + (i + 1) by omega, this, Nat.div_div_eq_div_mul, pow_succ']
      simp only [Nat.add_zero, pow_zero, Nat.div_one] at hhead
      rw [load, hhead, ih htail, pow_succ', Nat.mod_mul]
      simp

theorem load_store (m : Memory) (a n v : ℕ) :
  load (store m a n v) a n = v % 256 ^ n
  := by
  apply load_of_digits
  intro i hi
  apply splice_inside m _ hi

theorem load_splice_disjoint (m : Memory) {a n b k : ℕ} (f : ℕ → Byte)
    (h : b + k ≤ a ∨ a + n ≤ b) :
  load (splice m a n f) b k = load m b k
  := by
  apply load_congr
  intro i hi
  apply splice_outside
  omega

theorem load_store_disjoint (m : Memory) {a n b k : ℕ} (v : ℕ) (h : b + k ≤ a ∨ a + n ≤ b) :
  load (store m a n v) b k = load m b k
  := load_splice_disjoint m _ h

theorem load_fill_zero (m : Memory) {a n b k : ℕ} (h : a ≤ b ∧ b + k ≤ a + n) :
  load (fill m a n 0) b k = 0
  := by
  have hzero : ∀ i < k, fill m a n 0 (b + i) = BitVec.ofNat 8 (0 / 256 ^ i) := by
    intro i hi
    rw [fill, show b + i = a + (b - a + i) by omega, splice_inside _ _ (by omega)]
    simp
  rw [load_of_digits hzero, Nat.zero_mod]

theorem store_outside (m : Memory) {a n x : ℕ} (v : ℕ) (h : x < a ∨ a + n ≤ x) :
  store m a n v x = m x
  := splice_outside m _ h

theorem store_load (m : Memory) (a n : ℕ) :
  m.store a n (m.load a n) = m
  := by
  funext x
  by_cases hx : x < a ∨ a + n ≤ x
  · apply store_outside _ _ hx
  · have hload : load (m.store a n (m.load a n)) a n = m.load a n := by
      rw [load_store, Nat.mod_eq_of_lt (load_lt m a n)]
    have := load_eq_iff.mp hload (x - a) (by omega)
    rwa [show a + (x - a) = x by omega] at this

/-! ### Agreement on a range -/

/-- The two memories hold the same bytes from `lo` up to `hi`. -/
def AgreeOn (lo hi : ℕ) (m m' : Memory) : Prop :=
  ∀ x, lo ≤ x → x < hi → m' x = m x

theorem AgreeOn.refl (lo hi : ℕ) (m : Memory) :
  AgreeOn lo hi m m
  := fun _ _ _ => rfl

theorem AgreeOn.trans {lo hi : ℕ} {m m' m'' : Memory}
    (h : AgreeOn lo hi m m') (h' : AgreeOn lo hi m' m'') :
  AgreeOn lo hi m m''
  := fun x hlo hhi => (h' x hlo hhi).trans (h x hlo hhi)

theorem AgreeOn.mono {lo hi lo' hi' : ℕ} {m m' : Memory}
    (h : AgreeOn lo hi m m') (hlo : lo ≤ lo') (hhi : hi' ≤ hi) :
  AgreeOn lo' hi' m m'
  := fun x h₁ h₂ => h x (by omega) (by omega)

theorem AgreeOn.load {lo hi a n : ℕ} {m m' : Memory}
    (h : AgreeOn lo hi m m') (hlo : lo ≤ a) (hhi : a + n ≤ hi) :
  load m' a n = load m a n
  := by
  apply load_congr
  intro i hi'
  apply h <;> omega

theorem AgreeOn.splice (m : Memory) {lo hi a n : ℕ} (f : ℕ → Byte) (h : hi ≤ a ∨ a + n ≤ lo) :
  AgreeOn lo hi m (splice m a n f)
  := by
  intro x hlo hhi
  apply splice_outside
  omega

theorem AgreeOn.store (m : Memory) {lo hi a n : ℕ} (v : ℕ) (h : hi ≤ a ∨ a + n ≤ lo) :
  AgreeOn lo hi m (store m a n v)
  := AgreeOn.splice m _ h

end Memory

/-! ### Machine arithmetic -/

/-- A `uint16_t`, `uint32_t`, `uint64_t` result: the number modulo the size of the type. -/
def u16 (n : ℕ) : ℕ := n % 2 ^ 16

@[inherit_doc u16] def u32 (n : ℕ) : ℕ := n % 2 ^ 32

@[inherit_doc u16] def u64 (n : ℕ) : ℕ := n % 2 ^ 64

/-- The difference of two `uint64_t` values. -/
def sub64 (a b : ℕ) : ℕ := u64 (a + (2 ^ 64 - b))

/-- `n & ~(2 ^ k - 1)`: the number with its low `k` bits cleared. -/
def maskLow (k n : ℕ) : ℕ := n / 2 ^ k * 2 ^ k

theorem u16_of_lt {n : ℕ} (h : n < 2 ^ 16) :
  u16 n = n
  := Nat.mod_eq_of_lt h

theorem u32_of_lt {n : ℕ} (h : n < 2 ^ 32) :
  u32 n = n
  := Nat.mod_eq_of_lt h

theorem u64_lt (n : ℕ) :
  u64 n < 2 ^ 64
  := Nat.mod_lt _ (Nat.two_pow_pos 64)

theorem u64_of_lt {n : ℕ} (h : n < 2 ^ 64) :
  u64 n = n
  := Nat.mod_eq_of_lt h

theorem sub64_of_le {a b : ℕ} (h : b ≤ a) (ha : a < 2 ^ 64) :
  sub64 a b = a - b
  := by
  rw [sub64, u64]
  omega
