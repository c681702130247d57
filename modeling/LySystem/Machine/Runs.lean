import Mathlib.Order.Nat
import Mathlib.Tactic.Use

/-!
# Maximal runs

The stretches of indices on which a property holds and that no longer stretch contains.  Two of them
have an index between them, so the list of all of them is found from the left to the right.
-/

namespace Runs

/-- The property holds from `i` on up to `j`, and neither before `i` nor at `j`. -/
structure MaximalRun (P : ℕ → Prop) (i j : ℕ) : Prop where
  lt : i < j
  inside : ∀ k, i ≤ k → k < j → P k
  before : ∀ k, k + 1 = i → ¬ P k
  after : ¬ P j

/-- The maximal runs that do not begin before `pos`, in order. -/
structure RunsFrom (P : ℕ → Prop) (pos : ℕ) (rs : List (ℕ × ℕ)) : Prop where
  sorted : rs.Pairwise fun r r' => r.2 < r'.1
  mem_iff : ∀ i j, (i, j) ∈ rs ↔ pos ≤ i ∧ MaximalRun P i j

variable {P : ℕ → Prop} {i j i' j' pos : ℕ} {rs : List (ℕ × ℕ)}

/-- Behind a run comes an index that is in none. -/
theorem MaximalRun.lt_of_lt (h : MaximalRun P i j) (h' : MaximalRun P i' j') (hlt : i < i') :
  j < i'
  := by
  by_contra hle
  exact h'.before (i' - 1) (by omega) (h.inside (i' - 1) (by omega) (by omega))

theorem MaximalRun.eq_end (h : MaximalRun P i j) (h' : MaximalRun P i j') :
  j' = j
  := by
  have hlt := h.lt
  have hlt' := h'.lt
  rcases Nat.lt_trichotomy j j' with hjj | rfl | hjj
  · exact absurd (h'.inside j hlt.le hjj) h.after
  · rfl
  · exact absurd (h.inside j' hlt'.le hjj) h'.after

theorem RunsFrom.nil (h : ∀ k, pos ≤ k → ¬ P k) :
  RunsFrom P pos []
  := by
  use List.Pairwise.nil
  intro i j
  apply iff_of_false List.not_mem_nil
  rintro ⟨hpos, hrun⟩
  exact h i hpos (hrun.inside i le_rfl hrun.lt)

/-- The first run, and the runs behind it. -/
theorem RunsFrom.cons (hrun : MaximalRun P i j) (hpos : pos ≤ i)
    (hskip : ∀ k, pos ≤ k → k < i → ¬ P k) (hrs : RunsFrom P (j + 1) rs) :
  RunsFrom P pos ((i, j) :: rs)
  := by
  constructor
  · rw [List.pairwise_cons]
    refine ⟨?_, hrs.sorted⟩
    rintro ⟨i', j'⟩ hmem
    exact ((hrs.mem_iff i' j').mp hmem).1
  · intro i' j'
    rw [List.mem_cons, hrs.mem_iff, Prod.mk.injEq]
    constructor
    · rintro (⟨rfl, rfl⟩ | ⟨hle, hrun'⟩)
      · exact ⟨hpos, hrun⟩
      · have hlt := hrun.lt
        exact ⟨by omega, hrun'⟩
    · rintro ⟨hle, hrun'⟩
      have hi : i ≤ i' := by
        by_contra hlt
        exact hskip i' hle (by omega) (hrun'.inside i' le_rfl hrun'.lt)
      rcases Nat.eq_or_lt_of_le hi with rfl | hlt
      · left
        exact ⟨rfl, hrun.eq_end hrun'⟩
      · right
        exact ⟨hrun.lt_of_lt hrun' hlt, hrun'⟩

end Runs
