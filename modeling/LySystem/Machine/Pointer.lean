import LySystem.Machine.Bytes

/-!
# Memory through pointers

A pointer has 64 bits, and the address space is a ring: what lies behind its last byte is its
first one.  `through m p` is the memory as a pointer sees it, and `spliceAt`, `loadAt` and
`storeAt` are the operations on ranges that may go round.
-/

namespace Memory

/-- The memory seen through the pointer `p`. -/
def through (m : Memory) (p : ℕ) : Memory := fun i => m (u64 (p + i))

/-- The `n` bytes from the pointer `p` on replaced by `f 0`, `f 1`, …. -/
def spliceAt (m : Memory) (p n : ℕ) (f : ℕ → Byte) : Memory :=
  fun x => if x < 2 ^ 64 ∧ sub64 x p < n then f (sub64 x p) else m x

/-- The number held in the `n` bytes the pointer `p` points to. -/
def loadAt (m : Memory) (p n : ℕ) : ℕ := (m.through p).load 0 n

/-- The memory in which the `n` bytes the pointer `p` points to hold `v`. -/
def storeAt (m : Memory) (p n v : ℕ) : Memory :=
  m.spliceAt p n fun i => BitVec.ofNat 8 (v / 256 ^ i)

variable {m : Memory} {p q n k x : ℕ} {f : ℕ → Byte}

theorem sub64_add {i : ℕ} (hp : p < 2 ^ 64) (hi : i < 2 ^ 64) :
  sub64 (u64 (p + i)) p = i
  := by
  rw [sub64, u64, u64]
  omega

theorem add_sub64 (hp : p < 2 ^ 64) (hx : x < 2 ^ 64) :
  u64 (p + sub64 x p) = x
  := by
  rw [sub64, u64, u64]
  omega

theorem u64_add_u64 (p i : ℕ) :
  u64 (u64 p + i) = u64 (p + i)
  := Nat.mod_add_mod p (2 ^ 64) i

/-- Two bytes of a range that is no longer than the address space are different. -/
theorem u64_add_inj {i j : ℕ} (hi : i < 2 ^ 64) (hj : j < 2 ^ 64) (h : u64 (p + i) = u64 (p + j)) :
  i = j
  := by
  rw [u64, u64] at h
  omega

theorem spliceAt_inside (m : Memory) (f : ℕ → Byte) {i : ℕ} (hp : p < 2 ^ 64) (hn : n ≤ 2 ^ 64)
    (hi : i < n) :
  m.spliceAt p n f (u64 (p + i)) = f i
  := by
  rw [spliceAt, sub64_add hp (by omega), if_pos ⟨u64_lt _, hi⟩]

theorem spliceAt_outside (m : Memory) (f : ℕ → Byte) (hp : p < 2 ^ 64)
    (hx : ∀ i < n, x ≠ u64 (p + i)) :
  m.spliceAt p n f x = m x
  := by
  apply if_neg
  rintro ⟨hlt, hin⟩
  exact hx _ hin (add_sub64 hp hlt).symm

/-- An address is one of the range or none of it. -/
theorem mem_range_or (p n x : ℕ) :
  (∃ i < n, x = u64 (p + i)) ∨ ∀ i < n, x ≠ u64 (p + i)
  := by
  by_cases h : ∃ i < n, x = u64 (p + i)
  · left
    exact h
  · right
    intro i hi heq
    exact h ⟨i, hi, heq⟩

theorem loadAt_congr {m' : Memory} (h : ∀ i < n, m (u64 (p + i)) = m' (u64 (p + i))) :
  m.loadAt p n = m'.loadAt p n
  := by
  apply load_congr
  intro i hi
  rw [Nat.zero_add]
  exact h i hi

/-- Two loads through a pointer give the same number when the bytes are the same. -/
theorem loadAt_eq_iff {m' : Memory} :
  m.loadAt p n = m'.loadAt p n ↔ ∀ i < n, m (u64 (p + i)) = m' (u64 (p + i))
  := by
  rw [loadAt, loadAt, load_eq_iff]
  simp only [Nat.zero_add, through]

theorem loadAt_storeAt (m : Memory) (v : ℕ) (hp : p < 2 ^ 64) (hn : n ≤ 2 ^ 64) :
  (m.storeAt p n v).loadAt p n = v % 256 ^ n
  := by
  apply load_of_digits
  intro i hi
  rw [Nat.zero_add, through, storeAt, spliceAt_inside m _ hp hn hi]

theorem storeAt_outside (m : Memory) (v : ℕ) (hp : p < 2 ^ 64) (hx : ∀ i < n, x ≠ u64 (p + i)) :
  m.storeAt p n v x = m x
  := spliceAt_outside m _ hp hx

theorem storeAt_loadAt (m : Memory) (hp : p < 2 ^ 64) (hn : n ≤ 2 ^ 64) :
  m.storeAt p n (m.loadAt p n) = m
  := by
  have hload : (m.storeAt p n (m.loadAt p n)).loadAt p n = m.loadAt p n := by
    rw [loadAt_storeAt _ _ hp hn]
    exact Nat.mod_eq_of_lt (load_lt _ _ _)
  funext x
  rcases mem_range_or p n x with ⟨i, hi, rfl⟩ | hx
  · exact loadAt_eq_iff.mp hload i hi
  · exact storeAt_outside _ _ hp hx

theorem storeAt_storeAt (m : Memory) (v w : ℕ) (hp : p < 2 ^ 64) (hn : n ≤ 2 ^ 64) :
  (m.storeAt p n v).storeAt p n w = m.storeAt p n w
  := by
  funext x
  rcases mem_range_or p n x with ⟨i, hi, rfl⟩ | hx
  · rw [storeAt, spliceAt_inside _ _ hp hn hi, storeAt, spliceAt_inside _ _ hp hn hi]
  · rw [storeAt_outside _ _ hp hx, storeAt_outside _ _ hp hx, storeAt_outside _ _ hp hx]

/-- The two ranges have no byte in common. -/
def Apart (p n q k : ℕ) : Prop := ∀ i < n, ∀ j < k, u64 (p + i) ≠ u64 (q + j)

/-- Ranges given by their offsets from one pointer. -/
theorem apart_iff {b o o' : ℕ} (hn : 0 < n) (hk : 0 < k) (h : o + n ≤ 2 ^ 64)
    (h' : o' + k ≤ 2 ^ 64) :
  Apart (u64 (b + o)) n (u64 (b + o')) k ↔ o + n ≤ o' ∨ o' + k ≤ o
  := by
  constructor
  · intro hapart
    by_contra hover
    have hcommon := hapart (max o o' - o) (by omega) (max o o' - o') (by omega)
    rw [u64_add_u64, u64_add_u64, Nat.add_assoc, Nat.add_assoc,
      Nat.add_sub_cancel' (le_max_left o o'), Nat.add_sub_cancel' (le_max_right o o')] at hcommon
    exact hcommon rfl
  · intro hside i hi j hj heq
    rw [u64_add_u64, u64_add_u64, Nat.add_assoc, Nat.add_assoc] at heq
    have := u64_add_inj (by omega) (by omega) heq
    omega

theorem loadAt_storeAt_apart (m : Memory) (v : ℕ) (hp : p < 2 ^ 64) (h : Apart p n q k) :
  (m.storeAt p n v).loadAt q k = m.loadAt q k
  := by
  apply loadAt_congr
  intro j hj
  apply storeAt_outside _ _ hp
  intro i hi heq
  exact h i hi j hj heq.symm

theorem storeAt_comm (m : Memory) (v w : ℕ) (hp : p < 2 ^ 64) (hq : q < 2 ^ 64) (hn : n ≤ 2 ^ 64)
    (hk : k ≤ 2 ^ 64) (h : Apart p n q k) :
  (m.storeAt p n v).storeAt q k w = (m.storeAt q k w).storeAt p n v
  := by
  funext x
  rcases mem_range_or p n x with ⟨i, hi, rfl⟩ | hx
  · rw [storeAt_outside _ _ hq (h i hi), storeAt, spliceAt_inside _ _ hp hn hi, storeAt,
      spliceAt_inside _ _ hp hn hi]
  · rw [storeAt_outside _ _ hp hx]
    rcases mem_range_or q k x with ⟨j, hj, rfl⟩ | hx'
    · rw [storeAt, spliceAt_inside _ _ hq hk hj, storeAt, spliceAt_inside _ _ hq hk hj]
    · rw [storeAt_outside _ _ hq hx', storeAt_outside _ _ hp hx, storeAt_outside _ _ hq hx']

end Memory
