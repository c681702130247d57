import LySystem.Machine.Loop
import LySystem.Machine.Pointer

/-!
# Copying byte by byte

`memcpy` of `lib/string.c` copies the bytes in ascending order.  Onto a range that begins before
the source, overlapping or not, it copies what the source held before.
-/

namespace Memory

/-- The loop of `memcpy`, over the memory that holds both ranges. -/
def memcpy (m : Memory) (dest src n : ℕ) : Memory :=
  (List.range n).foldl (fun m i => m.set (u64 (dest + i)) (m (u64 (src + i)))) m

/-- The bytes before the `j`-th are copied, and those behind it are as they were. -/
structure Copied (m : Memory) (b k j : ℕ) (m' : Memory) : Prop where
  copied : ∀ i < j, m' (u64 (b + i)) = m (u64 (b + k + i))
  kept : ∀ x, (∀ i < j, x ≠ u64 (b + i)) → m' x = m x

theorem copied_memcpy (m : Memory) {b k n : ℕ} (h : k + n ≤ 2 ^ 64) :
  Copied m b k n (memcpy m b (u64 (b + k)) n)
  := by
  apply Loop.foldl_range (I := Copied m b k)
  · constructor
    · intro i hi
      omega
    · intro x _
      rfl
  · intro j hj m' hm'
    -- The byte read lies behind all those written.
    have hread : m' (u64 (u64 (b + k) + j)) = m (u64 (b + k + j)) := by
      rw [u64_add_u64]
      apply hm'.kept
      intro i hi heq
      rw [Nat.add_assoc] at heq
      have := u64_add_inj (by omega) (by omega) heq
      omega
    constructor
    · intro i hi
      by_cases hlast : i = j
      · rw [hlast, set, if_pos rfl, hread]
      · rw [set_of_ne, hm'.copied i (by omega)]
        intro heq
        have := u64_add_inj (by omega) (by omega) heq
        omega
    · intro x hx
      rw [set_of_ne _ _ (hx j (Nat.lt_succ_self j))]
      apply hm'.kept
      intro i hi
      exact hx i (by omega)

/-- Words set to zero one after the other. -/
theorem foldl_storeAt_zero (m : Memory) {p n : ℕ} (hp : p < 2 ^ 64) (h : 4 * n ≤ 2 ^ 64) :
  (List.range n).foldl (fun m i => m.storeAt (u64 (p + 4 * i)) 4 0) m =
    m.spliceAt p (4 * n) fun _ => 0
  := by
  apply Loop.foldl_range (I := fun j m' => m' = m.spliceAt p (4 * j) fun _ => 0)
  · funext x
    rw [spliceAt_outside _ _ hp]
    intro i hi
    omega
  · rintro j hj _ rfl
    funext x
    rcases mem_range_or p (4 * (j + 1)) x with ⟨i, hi, rfl⟩ | hx
    · rw [spliceAt_inside _ _ hp (by omega) hi]
      by_cases hnew : i < 4 * j
      · rw [storeAt_outside _ _ (u64_lt _), spliceAt_inside _ _ hp (by omega) hnew]
        intro l hl heq
        rw [u64_add_u64, Nat.add_assoc] at heq
        have := u64_add_inj (by omega) (by omega) heq
        omega
      · have haddr : u64 (p + i) = u64 (u64 (p + 4 * j) + (i - 4 * j)) := by
          rw [u64_add_u64, show p + 4 * j + (i - 4 * j) = p + i by omega]
        rw [haddr, storeAt, spliceAt_inside _ _ (u64_lt _) (by decide) (by omega), Nat.zero_div]
        rfl
    · rw [spliceAt_outside _ _ hp hx, storeAt_outside _ _ (u64_lt _), spliceAt_outside _ _ hp]
      · intro i hi
        exact hx i (by omega)
      · intro l hl
        rw [u64_add_u64, Nat.add_assoc]
        exact hx (4 * j + l) (by omega)

end Memory
