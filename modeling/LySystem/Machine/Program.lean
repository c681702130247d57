import Mathlib.Tactic.SplitIfs

/-!
# Programs with calls to their surroundings

A program over calls `E`, where a call `e` is answered by a value of `R e`: it returns a
value, or makes a call and goes on with the answer.  A handler answers each call from a
state; `run` runs a program to its end with all its calls answered one after the other.
-/

/-- A program that returns a value of `α`. -/
inductive Program (E : Type) (R : E → Type) (α : Type) where
  | ret (a : α)
  | call (e : E) (k : R e → Program E R α)

namespace Program

variable {E : Type} {R : E → Type} {α β σ : Type}

/-- The program `p`, then the program `f` makes of its result. -/
def bind : Program E R α → (α → Program E R β) → Program E R β
  | ret a, f => f a
  | call e k, f => call e fun r => bind (k r) f

instance : Monad (Program E R) where
  pure := ret
  bind := bind

/-- The program that makes one call and returns its answer. -/
def perform (e : E) : Program E R (R e) := call e ret

/-- The value a program returns and the state it ends in, its calls answered by `h`. -/
def run (h : (e : E) → σ → R e × σ) : Program E R α → σ → α × σ
  | ret a, s => (a, s)
  | call e k, s => run h (k (h e s).1) (h e s).2

variable (h : (e : E) → σ → R e × σ)

@[simp]
theorem run_pure (a : α) (s : σ) :
  run h (pure a : Program E R α) s = (a, s)
  := rfl

@[simp]
theorem run_perform (e : E) (s : σ) :
  run h (perform e : Program E R (R e)) s = h e s
  := rfl

@[simp]
theorem run_bind (p : Program E R α) (f : α → Program E R β) (s : σ) :
  run h (p >>= f) s = run h (f (run h p s).1) (run h p s).2
  := by
  change run h (bind p f) s = _
  induction p generalizing s with
  | ret a => rfl
  | call e k ih =>
      rw [bind, run, ih, run]

@[simp]
theorem run_ite (c : Prop) [Decidable c] (p q : Program E R α) (s : σ) :
  run h (if c then p else q) s = if c then run h p s else run h q s
  := by
  split_ifs <;> rfl

/-! ### What a program keeps -/

/-- Whatever state the program starts in, it ends in one that `I` relates to it. -/
def Keeps (I : σ → σ → Prop) (p : Program E R α) : Prop := ∀ s, I s (run h p s).2

variable {h} {I : σ → σ → Prop}

theorem Keeps.pure (hrefl : ∀ s, I s s) (a : α) :
  Keeps h I (pure a : Program E R α)
  := hrefl

theorem Keeps.bind (htrans : ∀ s t u, I s t → I t u → I s u) {p : Program E R α}
    {f : α → Program E R β} (hp : Keeps h I p) (hf : ∀ a, Keeps h I (f a)) :
  Keeps h I (p >>= f)
  := by
  intro s
  rw [run_bind]
  apply htrans _ _ _ (hp s) (hf _ _)

theorem Keeps.ite {c : Prop} [Decidable c] {p q : Program E R α} (hp : c → Keeps h I p)
    (hq : ¬ c → Keeps h I q) :
  Keeps h I (if c then p else q)
  := by
  split_ifs with hc
  · apply hp hc
  · apply hq hc

end Program
