import LySystem.Machine.Program

/-!
# Two programs that take turns

Two programs run on one state, each with a handler of its own, and a schedule says whose call comes
next.  When no call of the second program comes before a call of the first one that it does not
commute with, the values and the state are those of the first program run to its end before the
second one.
-/

namespace Program

variable {E : Type} {R : E → Type} {α β σ : Type}

/-- The calls a program makes. -/
def calls (h : (e : E) → σ → R e × σ) : Program E R α → σ → List E
  | ret _, _ => []
  | call e k, s => e :: calls h (k (h e s).1) (h e s).2

/-- The program whose turn it is. -/
inductive Side where
  | left
  | right
deriving DecidableEq

def Side.swap : Side → Side
  | left => right
  | right => left

/-- The values of two programs that took turns, the state they leave, and the calls in the order
in which they were made. -/
@[ext]
structure Weave (E α β σ : Type) where
  trace : List (Side × E)
  left : α
  right : β
  state : σ

/-- The same call made first. -/
def Weave.cons (side : Side) (e : E) (w : Weave E α β σ) : Weave E α β σ :=
  { w with trace := (side, e) :: w.trace }

/-- The programs the other way round. -/
def Weave.swap (w : Weave E α β σ) : Weave E β α σ :=
  ⟨w.trace.map (Prod.map Side.swap id), w.right, w.left, w.state⟩

/-- Two programs that take turns, if the schedule runs both to their end. -/
def weave (h h' : (e : E) → σ → R e × σ) :
    List Side → Program E R α → Program E R β → σ → Option (Weave E α β σ)
  | [], ret a, ret b, s => some ⟨[], a, b, s⟩
  | .left :: l, call e k, q, s =>
      (weave h h' l (k (h e s).1) q (h e s).2).map (Weave.cons .left e)
  | .right :: l, p, call e k, s =>
      (weave h h' l p (k (h' e s).1) (h' e s).2).map (Weave.cons .right e)
  | _, _, _, _ => none

/-- The calls get the same answers and leave the same state in either order. -/
def Independent (h h' : (e : E) → σ → R e × σ) (e f : E) : Prop :=
  ∀ s, (h e (h' f s).2).1 = (h e s).1 ∧ (h' f (h e s).2).1 = (h' f s).1 ∧
    (h e (h' f s).2).2 = (h' f (h e s).2).2

section

variable {h h' : (e : E) → σ → R e × σ}

theorem Independent.symm {e f : E} (hind : Independent h h' e f) :
  Independent h' h f e
  := fun s => ⟨(hind s).2.1, (hind s).1, (hind s).2.2.symm⟩

/-- A call independent of those of a program may as well be made after it. -/
theorem run_before {p : Program E R α} {f : E} {s : σ}
    (hind : ∀ e ∈ calls h p (h' f s).2, Independent h h' e f) :
  run h p (h' f s).2 = ((run h p s).1, (h' f (run h p s).2).2) ∧
    (h' f (run h p s).2).1 = (h' f s).1 ∧ calls h p (h' f s).2 = calls h p s
  := by
  induction p generalizing s with
  | ret a => exact ⟨rfl, rfl, rfl⟩
  | call e k ih =>
      obtain ⟨hanswer, hanswer', hstate⟩ := hind e List.mem_cons_self s
      simp only [calls, hanswer, hstate] at hind
      obtain ⟨hrun, hcall, hcalls⟩ := ih (h e s).1 fun e' he' => hind e' (List.mem_cons_of_mem _ he')
      refine ⟨?_, ?_, ?_⟩
      · rw [run, run, hanswer, hstate, hrun]
      · rw [run, hcall, hanswer']
      · rw [calls, calls, hanswer, hstate, hcalls]

theorem weave_left {l : List Side} {p : Program E R α} {q : Program E R β} {s : σ}
    {w : Weave E α β σ} (hw : weave h h' (.left :: l) p q s = some w) :
  ∃ e k w', p = call e k ∧ weave h h' l (k (h e s).1) q (h e s).2 = some w' ∧ w = w'.cons .left e
  := by
  cases p with
  | ret a => simp [weave] at hw
  | call e k =>
      rw [weave, Option.map_eq_some_iff] at hw
      obtain ⟨w', hw', rfl⟩ := hw
      exact ⟨e, k, w', rfl, hw', rfl⟩

theorem weave_right {l : List Side} {p : Program E R α} {q : Program E R β} {s : σ}
    {w : Weave E α β σ} (hw : weave h h' (.right :: l) p q s = some w) :
  ∃ e k w', q = call e k ∧ weave h h' l p (k (h' e s).1) (h' e s).2 = some w' ∧ w = w'.cons .right e
  := by
  cases q with
  | ret b => simp [weave] at hw
  | call e k =>
      rw [weave, Option.map_eq_some_iff] at hw
      obtain ⟨w', hw', rfl⟩ := hw
      exact ⟨e, k, w', rfl, hw', rfl⟩

/-- When the calls of the first program are independent of those of the second one made before
them, the first program may as well be run before the second one. -/
theorem weave_serial {l : List Side} {p : Program E R α} {q : Program E R β} {s : σ}
    {w : Weave E α β σ} (hw : weave h h' l p q s = some w)
    (hind : w.trace.Pairwise fun x y => x.1 = .right → y.1 = .left → Independent h h' y.2 x.2) :
  w.left = (run h p s).1 ∧ (w.right, w.state) = run h' q (run h p s).2 ∧
    ∀ e ∈ calls h p s, (Side.left, e) ∈ w.trace
  := by
  induction l generalizing p q s w with
  | nil =>
      cases p with
      | call e k => simp [weave] at hw
      | ret a =>
          cases q with
          | call e k => simp [weave] at hw
          | ret b =>
              rw [weave, Option.some.injEq] at hw
              subst hw
              exact ⟨rfl, rfl, fun e he => absurd he List.not_mem_nil⟩
  | cons side l ih =>
      cases side with
      | left =>
          obtain ⟨e, k, w', rfl, hw', rfl⟩ := weave_left hw
          obtain ⟨hleft, hright, hcalls⟩ := ih hw' (List.pairwise_cons.mp hind).2
          refine ⟨hleft, hright, ?_⟩
          intro e' he'
          rw [calls, List.mem_cons] at he'
          rcases he' with rfl | he'
          · exact List.mem_cons_self
          · exact List.mem_cons_of_mem _ (hcalls e' he')
      | right =>
          obtain ⟨f, k, w', rfl, hw', rfl⟩ := weave_right hw
          obtain ⟨hfirst, hrest⟩ := List.pairwise_cons.mp hind
          obtain ⟨hleft, hright, hcalls⟩ := ih hw' hrest
          -- The call of the second program is moved behind those of the first one.
          obtain ⟨hrun, hanswer, hsame⟩ := run_before (p := p) (f := f) (s := s)
            fun e he => hfirst _ (hcalls e he) rfl rfl
          rw [hrun] at hleft hright
          refine ⟨hleft, ?_, ?_⟩
          · rw [run, hanswer]
            exact hright
          · intro e he
            rw [← hsame] at he
            exact List.mem_cons_of_mem _ (hcalls e he)

theorem weave_swap (l : List Side) (p : Program E R α) (q : Program E R β) (s : σ) :
  weave h' h (l.map Side.swap) q p s = (weave h h' l p q s).map Weave.swap
  := by
  induction l generalizing p q s with
  | nil => cases p <;> cases q <;> rfl
  | cons side l ih =>
      cases side with
      | left =>
          cases p with
          | ret a => cases q <;> rfl
          | call e k =>
              rw [List.map_cons, Side.swap, weave, weave, ih, Option.map_map, Option.map_map]
              rfl
      | right =>
          cases q with
          | ret b => cases p <;> rfl
          | call e k =>
              rw [List.map_cons, Side.swap, weave, weave, ih, Option.map_map, Option.map_map]
              rfl

end

end Program
