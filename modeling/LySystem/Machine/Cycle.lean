import Mathlib.Data.Int.Basic
import Mathlib.Tactic.Use

/-!
# Turns around a cycle

A search that goes upward from a member of a set of numbers below `N`, and wraps around at `N`,
meets first the next larger member, or the smallest one after the largest.  Going on from each
member to the next visits every member once in as many steps as there are members.
-/

namespace Cycle

section

variable {N : ℤ} {l : List ℤ} (hl : l.Pairwise (· < ·)) (hN : ∀ x ∈ l, 0 ≤ x ∧ x < N)

/-- The places of a list in increasing order are ordered as its members are. -/
theorem lt_of_getElem_lt (hl : l.Pairwise (· < ·)) {a b : ℕ} (ha : a < l.length)
    (hb : b < l.length) (h : l[a] < l[b]) :
  a < b
  := by
  by_contra hle
  rcases Nat.eq_or_lt_of_le (Nat.le_of_not_lt hle) with rfl | hlt
  · exact Int.lt_irrefl _ h
  · exact Int.lt_asymm h (List.pairwise_iff_getElem.mp hl b a hb ha hlt)

include hl hN

/-- From the member at the place `a`, the first member met, going upward from the number after
it, is the one at the next place. -/
theorem first_met {a : ℕ} (ha : a < l.length) :
  ∃ d : ℕ, 1 ≤ d ∧ (d : ℤ) ≤ N ∧ l[(a + 1) % l.length]? = some ((l[a] + d) % N) ∧
    ∀ j : ℕ, 1 ≤ j → j < d → (l[a] + j) % N ∉ l
  := by
  obtain ⟨hlo, hhi⟩ := hN _ (List.getElem_mem ha)
  by_cases hnext : a + 1 < l.length
  · -- The next place holds a larger number, and none lies between.
    have hmod : (a + 1) % l.length = a + 1 := Nat.mod_eq_of_lt hnext
    have hlt : l[a] < l[a + 1] := List.pairwise_iff_getElem.mp hl _ _ ha hnext (Nat.lt_succ_self a)
    obtain ⟨-, hbelow⟩ := hN _ (List.getElem_mem hnext)
    refine ⟨(l[a + 1] - l[a]).toNat, by omega, by omega, ?_, ?_⟩
    · rw [hmod, List.getElem?_eq_getElem hnext, Int.emod_eq_of_lt (by omega) (by omega),
        Option.some.injEq]
      omega
    · intro j hj hjd hmem
      rw [Int.emod_eq_of_lt (by omega) (by omega)] at hmem
      obtain ⟨b, hb, heq⟩ := List.getElem_of_mem hmem
      have hab := lt_of_getElem_lt hl ha hb (by omega)
      have hba := lt_of_getElem_lt hl hb hnext (by omega)
      omega
  · -- After the last place the search wraps around to the first one.
    have hmod : (a + 1) % l.length = 0 := by
      rw [show a + 1 = l.length by omega, Nat.mod_self]
    have hfirst : 0 < l.length := by omega
    obtain ⟨hzero, hbelow⟩ := hN _ (List.getElem_mem hfirst)
    have hle : l[0] ≤ l[a] := by
      by_contra hlt
      have := lt_of_getElem_lt hl ha hfirst (by omega)
      omega
    refine ⟨(l[0] + N - l[a]).toNat, by omega, by omega, ?_, ?_⟩
    · rw [hmod, List.getElem?_eq_getElem hfirst,
        show l[a] + ((l[0] + N - l[a]).toNat : ℤ) = l[0] + N by omega, Int.add_emod_right,
        Int.emod_eq_of_lt hzero hbelow]
    · intro j hj hjd hmem
      obtain ⟨b, hb, heq⟩ := List.getElem_of_mem hmem
      by_cases hwrap : l[a] + j < N
      · rw [Int.emod_eq_of_lt (by omega) hwrap] at heq
        have hab := lt_of_getElem_lt hl ha hb (by omega)
        omega
      · rw [show l[a] + (j : ℤ) = l[a] + j - N + N by omega, Int.add_emod_right,
          Int.emod_eq_of_lt (by omega) (by omega)] at heq
        have hba := lt_of_getElem_lt hl hb hfirst (by omega)
        omega

end

/-- Among `n` successive numbers one has a given remainder. -/
theorem existsUnique_add_mod {n b : ℕ} (a : ℕ) (hb : b < n) :
  ∃! j, j < n ∧ (a + j) % n = b
  := by
  have hpos : 0 < n := by omega
  have hm := Nat.mod_lt a hpos
  -- The remainder after `j` more steps, from that of `a`.
  have hstep : ∀ j < n, (a + j) % n = if a % n + j < n then a % n + j else a % n + j - n := by
    intro j hj
    rw [Nat.add_mod, Nat.mod_eq_of_lt hj]
    by_cases hlt : a % n + j < n
    · rw [if_pos hlt, Nat.mod_eq_of_lt hlt]
    · rw [if_neg hlt, Nat.mod_eq_sub_mod (by omega), Nat.mod_eq_of_lt (by omega)]
  use if a % n ≤ b then b - a % n else b + n - a % n
  constructor
  · have hlt : (if a % n ≤ b then b - a % n else b + n - a % n) < n := by
      split_ifs <;> omega
    refine ⟨hlt, ?_⟩
    rw [hstep _ hlt]
    split_ifs <;> omega
  · rintro j ⟨hj, heq⟩
    rw [hstep j hj] at heq
    split_ifs at heq ⊢ <;> omega

section

variable {α : Type*} {l : List α} {x : ℕ → α} {a : ℕ}

/-- A sequence that goes around a list comes to each member once in every turn. -/
theorem existsUnique_visit (hl : l.Nodup) (hx : ∀ k, l[(a + k) % l.length]? = some (x k)) (k : ℕ)
    {y : α} (hy : y ∈ l) :
  ∃! j, j < l.length ∧ x (k + j) = y
  := by
  obtain ⟨b, hb⟩ := List.mem_iff_getElem?.mp hy
  obtain ⟨hlt, -⟩ := List.getElem?_eq_some_iff.mp hb
  have hiff : ∀ j, x (k + j) = y ↔ (a + k + j) % l.length = b := by
    intro j
    have hplace := hx (k + j)
    rw [← Nat.add_assoc] at hplace
    constructor
    · intro heq
      apply (List.getElem?_inj (Nat.mod_lt _ (by omega)) hl).mp
      rw [hplace, heq, hb]
    · intro heq
      rw [heq, hb, Option.some.injEq] at hplace
      exact hplace.symm
  simp only [hiff]
  exact existsUnique_add_mod _ hlt

/-- A sequence that goes around a list is where it was after every turn. -/
theorem visit_add_length (hx : ∀ k, l[(a + k) % l.length]? = some (x k)) (k : ℕ) :
  x (k + l.length) = x k
  := by
  have hplace := hx (k + l.length)
  rw [← Nat.add_assoc, Nat.add_mod_right, hx k, Option.some.injEq] at hplace
  exact hplace.symm

end

end Cycle
