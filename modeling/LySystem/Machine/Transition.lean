import Mathlib.Tactic.Use

/-!
# Transition systems

A labelled step relation and its runs.  An invariant is proved once for a step and holds
along every run; a run in which every step meets a condition on the state before it and its
label is a run of the restricted relation.
-/

namespace Transition

variable {σ ℓ : Type*}

/-- A run: the labels of its steps, in order. -/
inductive Run (step : σ → ℓ → σ → Prop) : σ → List ℓ → σ → Prop
  | nil (s : σ) : Run step s [] s
  | cons {s t u : σ} {l : ℓ} {ls : List ℓ} :
      step s l t → Run step t ls u → Run step s (l :: ls) u

/-- The steps of `step` taken where `C` allows them. -/
def Restrict (step : σ → ℓ → σ → Prop) (C : σ → ℓ → Prop) : σ → ℓ → σ → Prop :=
  fun s l t => C s l ∧ step s l t

variable {step : σ → ℓ → σ → Prop} {s t u : σ} {l : ℓ} {ls : List ℓ}

/-- What every step keeps, every run keeps. -/
theorem Run.invariant {I : σ → Prop} (hstep : ∀ s l t, I s → step s l t → I t)
    (h : Run step s ls t) (hI : I s) :
  I t
  := by
  induction h with
  | nil s => apply hI
  | cons hs _ ih => apply ih (hstep _ _ _ hI hs)

/-- What the steps with the labels of a run keep, the run keeps. -/
theorem Run.invariant_mem {I : σ → Prop} (h : Run step s ls t)
    (hstep : ∀ s l t, l ∈ ls → I s → step s l t → I t) (hI : I s) :
  I t
  := by
  induction h with
  | nil s => apply hI
  | cons hs _ ih =>
      apply ih
      · intro s l t hl
        exact hstep s l t (List.mem_cons_of_mem _ hl)
      · exact hstep _ _ _ List.mem_cons_self hI hs

theorem Run.snoc (h : Run step s ls t) (hs : step t l u) :
  Run step s (ls ++ [l]) u
  := by
  induction h with
  | nil s => apply Run.cons hs (Run.nil _)
  | cons hs' _ ih => apply Run.cons hs' (ih hs)

theorem Run.append {ls' : List ℓ} (h : Run step s ls t) (h' : Run step t ls' u) :
  Run step s (ls ++ ls') u
  := by
  induction h with
  | nil s => apply h'
  | cons hs _ ih => apply Run.cons hs (ih h')

/-- A property of the labels so far and of the state that every step keeps holds at the end of a
run. -/
theorem Run.history {J : List ℓ → σ → Prop} (h : Run step s ls t) (hnil : J [] s)
    (hstep : ∀ ls t l u, Run step s ls t → J ls t → step t l u → J (ls ++ [l]) u) :
  J ls t
  := by
  have hfrom : ∀ {ls₁ ls₂ : List ℓ} {u v : σ}, Run step u ls₂ v → Run step s ls₁ u → J ls₁ u →
      J (ls₁ ++ ls₂) v := by
    intro ls₁ ls₂ u v hrun
    induction hrun generalizing ls₁ with
    | nil u =>
        intro _ hJ
        rw [List.append_nil]
        exact hJ
    | cons hs _ ih =>
        intro hfst hJ
        rw [List.append_cons]
        exact ih (hfst.snoc hs) (hstep _ _ _ _ hfst hJ hs)
  exact hfrom h (Run.nil s) hnil

/-- A run can be cut anywhere. -/
theorem Run.cut {ls' : List ℓ} (h : Run step s (ls ++ ls') u) :
  ∃ t, Run step s ls t ∧ Run step t ls' u
  := by
  induction ls generalizing s with
  | nil =>
      use s
      exact ⟨Run.nil s, h⟩
  | cons l ls ih =>
      cases h with
      | cons hs h =>
          obtain ⟨t, hfst, hsnd⟩ := ih h
          use t
          exact ⟨Run.cons hs hfst, hsnd⟩

/-- A run of one system is a run of another that does its steps under other labels. -/
theorem Run.map {σ' ℓ' : Type*} {step' : σ' → ℓ' → σ' → Prop} {R : σ → σ' → Prop} (f : ℓ → ℓ')
    (hstep : ∀ s l t s', step s l t → R s s' → ∃ t', step' s' (f l) t' ∧ R t t') {s' : σ'}
    (h : Run step s ls t) (hs : R s s') :
  ∃ t', Run step' s' (ls.map f) t' ∧ R t t'
  := by
  induction h generalizing s' with
  | nil s =>
      use s'
      exact ⟨Run.nil s', hs⟩
  | cons hl _ ih =>
      obtain ⟨u', hl', hu⟩ := hstep _ _ _ _ hl hs
      obtain ⟨t', hrun, ht⟩ := ih hu
      use t'
      exact ⟨Run.cons hl' hrun, ht⟩

end Transition
