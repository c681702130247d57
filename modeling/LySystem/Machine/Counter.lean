import LySystem.Machine.Loop
import Mathlib.Data.Int.GCD
import Mathlib.Data.Nat.ModEq

/-!
# Counters that wrap around

A loop `for (a = start; a < stop; a += step)` over numbers modulo `M`.  Its variable keeps its
residue modulo the greatest common divisor of `step` and `M` and takes every value with that
residue, so the loop ends exactly when the greatest of these values is not below `stop`.
-/

namespace Counter

variable {M step start stop : ℕ}

/-- The variable after a step. -/
def next (M step a : ℕ) : ℕ := (a + step) % M

/-- The greatest number below `M` with the residue of `start` modulo `gcd step M`. -/
def top (M step start : ℕ) : ℕ := M - Nat.gcd step M + start % Nat.gcd step M

theorem iterate_next (hstart : start < M) (i : ℕ) :
  (next M step)^[i] start = (start + i * step) % M
  := by
  induction i with
  | zero => rw [Nat.zero_mul, Nat.add_zero, Nat.mod_eq_of_lt hstart, Function.iterate_zero_apply]
  | succ i ih =>
      rw [Function.iterate_succ_apply', ih, next, Nat.mod_add_mod, Nat.add_assoc, Nat.succ_mul]

theorem gcd_pos (step : ℕ) (hstart : start < M) :
  0 < Nat.gcd step M ∧ Nat.gcd step M ≤ M
  := by
  have hM : 0 < M := by omega
  exact ⟨Nat.gcd_pos_of_pos_right step hM, Nat.gcd_le_right step hM⟩

/-- No value of the variable is greater than `top`. -/
theorem iterate_le_top (step : ℕ) (hstart : start < M) (i : ℕ) :
  (next M step)^[i] start ≤ top M step start
  := by
  rw [iterate_next hstart, top]
  obtain ⟨hpos, hle⟩ := gcd_pos step hstart
  obtain ⟨q, hq⟩ := Nat.gcd_dvd_left step M
  obtain ⟨c, hc⟩ := Nat.gcd_dvd_right step M
  have hresidue : (start + i * step) % M % Nat.gcd step M = start % Nat.gcd step M := by
    rw [Nat.mod_mod_of_dvd _ (Nat.gcd_dvd_right step M)]
    have hmul : i * step = Nat.gcd step M * (i * q) := by
      rw [Nat.mul_left_comm, ← hq]
    rw [hmul, Nat.add_mul_mod_self_left]
  have hlt : (start + i * step) % M < M := Nat.mod_lt _ (by omega)
  generalize (start + i * step) % M = v at hresidue hlt
  generalize Nat.gcd step M = g at *
  have hdiv := Nat.div_add_mod v g
  -- The quotient is less than that of `M`.
  have hquot : v / g + 1 ≤ c := by
    apply Nat.succ_le_of_lt
    apply Nat.div_lt_of_lt_mul
    rwa [← hc]
  have hmul := Nat.mul_le_mul_left g hquot
  rw [Nat.mul_add, Nat.mul_one, ← hc] at hmul
  omega

/-- The variable reaches `top`. -/
theorem iterate_eq_top (step : ℕ) (hstart : start < M) :
  ∃ i, (next M step)^[i] start = top M step start
  := by
  obtain ⟨hpos, hle⟩ := gcd_pos step hstart
  have hmod : start % Nat.gcd step M < Nat.gcd step M := Nat.mod_lt _ hpos
  by_cases hwhole : Nat.gcd step M = M
  · use 0
    rw [Function.iterate_zero_apply, top, hwhole, Nat.mod_eq_of_lt hstart]
    omega
  · obtain ⟨m, -, hm⟩ := Nat.exists_mul_mod_eq_gcd (n := step) (lt_of_le_of_ne hle hwhole)
    -- `top` is a multiple of the greatest common divisor away.
    have hdvd : Nat.gcd step M ∣ top M step start + M - start := by
      have heq : top M step start + M - start
          = M - Nat.gcd step M + M - Nat.gcd step M * (start / Nat.gcd step M) := by
        have := Nat.div_add_mod start (Nat.gcd step M)
        rw [top]
        omega
      rw [heq]
      apply Nat.dvd_sub
      · apply Nat.dvd_add
        · exact Nat.dvd_sub (Nat.gcd_dvd_right step M) (dvd_refl _)
        · exact Nat.gcd_dvd_right step M
      · exact Nat.dvd_mul_right _ _
    obtain ⟨q, hq⟩ := hdvd
    use m * q
    have hlt : top M step start < M := by
      rw [top]
      omega
    have hsteps : m * q * step = step * m * q := by
      rw [Nat.mul_comm, Nat.mul_assoc]
    have hgcd : step * m ≡ Nat.gcd step M [MOD M] := by
      rw [Nat.ModEq, hm, Nat.mod_eq_of_lt (lt_of_le_of_ne hle hwhole)]
    calc (next M step)^[m * q] start = (start + step * m * q) % M := by
          rw [iterate_next hstart, hsteps]
      _ = (start + Nat.gcd step M * q) % M := (hgcd.mul_right q).add_left start
      _ = (top M step start + M) % M := by
          rw [← hq]
          congr 1
          omega
      _ = top M step start := by rw [Nat.add_mod_right, Nat.mod_eq_of_lt hlt]

/-- The loop ends exactly when `top` is not below `stop`. -/
theorem ends_iff (hstart : start < M) :
  (∃ n l, Loop.forValues (fun a => a < stop) (next M step) n start = some l) ↔
    stop ≤ top M step start
  := by
  constructor
  · rintro ⟨n, l, h⟩
    obtain ⟨i, -, hi⟩ := Loop.forValues_ends_iff.mp ⟨l, h⟩
    have hle := iterate_le_top step hstart i
    have hstop : ¬ (next M step)^[i] start < stop := by simpa using hi
    omega
  · intro hle
    obtain ⟨i, hi⟩ := iterate_eq_top step hstart
    use i + 1
    apply Loop.forValues_ends_iff.mpr
    refine ⟨i, Nat.lt_succ_self i, ?_⟩
    rw [hi]
    simpa using hle

end Counter
