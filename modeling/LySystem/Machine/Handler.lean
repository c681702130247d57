import LySystem.Machine.Interleave

/-!
# Programs over handlers that may fail to answer

`runSome` runs a program over a handler that need not answer.  Where such a handler answers the way
a total handler does, on the part of its state that the latter knows, programs run as over that one.
-/

namespace Program

variable {E : Type} {R : E → Type} {α β σ τ : Type}

/-- The value a program returns and the state it ends in, if `h` answers all its calls. -/
def runSome (h : (e : E) → σ → Option (R e × σ)) : Program E R α → σ → Option (α × σ)
  | ret a, s => some (a, s)
  | call e k, s => (h e s).bind fun r => runSome h (k r.1) r.2

/-- The states of a handler that may fail, seen from those of one that does not: on calls of `ok`
it answers, and the states stay related. -/
structure Simulates (h : (e : E) → σ → Option (R e × σ)) (g : (e : E) → τ → R e × τ) (ok : E → Prop)
    (r : σ → τ → Prop) : Prop where
  answer : ∀ e s t, ok e → r s t → ∃ s', h e s = some ((g e t).1, s') ∧ r s' (g e t).2

/-- A program all of whose calls are answered as by the total handler runs as over that one. -/
theorem Simulates.run {h : (e : E) → σ → Option (R e × σ)} {g : (e : E) → τ → R e × τ}
    {ok : E → Prop} {r : σ → τ → Prop} (hsim : Simulates h g ok r) {p : Program E R α} {s : σ} {t : τ}
    (hcalls : ∀ e ∈ calls g p t, ok e) (hst : r s t) :
  ∃ s', runSome h p s = some ((run g p t).1, s') ∧ r s' (run g p t).2
  := by
  induction p generalizing s t with
  | ret a => exact ⟨s, rfl, hst⟩
  | call e k ih =>
      rw [calls, List.forall_mem_cons] at hcalls
      obtain ⟨s', hanswer, hst'⟩ := hsim.answer e s t hcalls.1 hst
      obtain ⟨s'', hrun, hst''⟩ := ih (g e t).1 hcalls.2 hst'
      refine ⟨s'', ?_, hst''⟩
      rw [runSome, hanswer, Option.bind_some, hrun]
      rfl

/-! ### What holds whatever the answers -/

/-- Whatever the answers, all calls of the program are of `ok` and its value is of `Q`. -/
def Obeys (ok : E → Prop) (Q : α → Prop) : Program E R α → Prop
  | ret a => Q a
  | call e k => ok e ∧ ∀ r, Obeys ok Q (k r)

section

variable {ok : E → Prop} {Q Q' : α → Prop} {P : β → Prop}

theorem Obeys.pure {a : α} (ha : Q a) :
  Obeys ok Q (pure a : Program E R α)
  := ha

theorem Obeys.perform {e : E} {Q : R e → Prop} (he : ok e) (hQ : ∀ r, Q r) :
  Obeys ok Q (perform e : Program E R (R e))
  := ⟨he, hQ⟩

theorem Obeys.bind {p : Program E R α} {f : α → Program E R β} (hp : Obeys ok Q p)
    (hf : ∀ a, Q a → Obeys ok P (f a)) :
  Obeys ok P (p >>= f)
  := by
  induction p with
  | ret a => exact hf a hp
  | call e k ih => exact ⟨hp.1, fun r => ih r (hp.2 r)⟩

theorem Obeys.mono {p : Program E R α} (hp : Obeys ok Q p) (hQ : ∀ a, Q a → Q' a) :
  Obeys ok Q' p
  := by
  induction p with
  | ret a => exact hQ a hp
  | call e k ih => exact ⟨hp.1, fun r => ih r (hp.2 r)⟩

theorem Obeys.ite {c : Prop} [Decidable c] {p q : Program E R α} (hp : c → Obeys ok Q p)
    (hq : ¬ c → Obeys ok Q q) :
  Obeys ok Q (if c then p else q)
  := by
  split_ifs with hc
  · apply hp hc
  · apply hq hc

theorem Obeys.calls {p : Program E R α} (h : Obeys ok Q p) (g : (e : E) → τ → R e × τ) (t : τ) :
  ∀ e ∈ calls g p t, ok e
  := by
  induction p generalizing t with
  | ret a =>
      intro e he
      cases he
  | call e k ih =>
      rw [Program.calls, List.forall_mem_cons]
      exact ⟨h.1, ih _ (h.2 _) _⟩

end

end Program
