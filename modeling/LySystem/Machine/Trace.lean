import LySystem.Machine.Loop

/-!
# What the rounds of a loop leave behind

`trace f out s as` lists what each round of a loop over a list leaves behind in the state it
begins in: the accesses it makes, say.  The loop itself is the `foldl` it is read from.
-/

namespace Loop

variable {σ α β : Type*} {f : σ → α → σ} {out : σ → α → List β} {s : σ} {P : β → Prop}

/-- The loop with the body `f`, of which a round leaves `out s a` behind. -/
def trace (f : σ → α → σ) (out : σ → α → List β) : σ → List α → List β
  | _, [] => []
  | s, a :: as => out s a ++ trace f out (f s a) as

theorem trace_append (as bs : List α) :
  trace f out s (as ++ bs) = trace f out s as ++ trace f out (as.foldl f s) bs
  := by
  induction as generalizing s with
  | nil => rfl
  | cons a as ih => rw [List.cons_append, trace, ih, trace, List.append_assoc, List.foldl_cons]

theorem trace_range_succ {f : σ → ℕ → σ} {out : σ → ℕ → List β} (n : ℕ) :
  trace f out s (List.range (n + 1)) =
    trace f out s (List.range n) ++ out ((List.range n).foldl f s) n
  := by
  rw [List.range_succ, trace_append, trace, trace, List.append_nil]

/-- What holds of all that is left behind holds of what each round leaves, when a round that
leaves such things only keeps the invariant. -/
theorem forall_mem_trace {f : σ → ℕ → σ} {out : σ → ℕ → List β} {I : ℕ → σ → Prop} {Q : ℕ → Prop}
    {n : ℕ} (hout : ∀ i < n, ∀ s, I i s → ((∀ b ∈ out s i, P b) ↔ Q i))
    (hkeep : ∀ i < n, ∀ s, I i s → (∀ b ∈ out s i, P b) → I (i + 1) (f s i)) (hs : I 0 s) :
  ((∀ b ∈ trace f out s (List.range n), P b) ↔ ∀ i < n, Q i) ∧
    ((∀ b ∈ trace f out s (List.range n), P b) → I n ((List.range n).foldl f s))
  := by
  induction n with
  | zero =>
      constructor
      · simp [trace]
      · intro _
        exact hs
  | succ n ih =>
      obtain ⟨hiff, hinv⟩ := ih (fun i hi => hout i (Nat.lt_succ_of_lt hi))
        (fun i hi => hkeep i (Nat.lt_succ_of_lt hi))
      rw [trace_range_succ, List.forall_mem_append, List.range_succ, List.foldl_append]
      constructor
      · rw [Nat.forall_lt_succ_right, ← hiff]
        apply and_congr_right
        intro hbefore
        exact hout n (Nat.lt_succ_self n) _ (hinv hbefore)
      · rintro ⟨hbefore, hlast⟩
        exact hkeep n (Nat.lt_succ_self n) _ (hinv hbefore) hlast

/-- What every round leaves as it is unless it leaves a mark, the loop leaves as it is unless
there is a mark. -/
theorem foldl_eq_of_trace {γ : Type*} (out : σ → α → List β) (P : β → Prop) (g : σ → γ)
    {as : List α} (h : ∀ a ∈ as, ∀ s, (∀ b ∈ out s a, P b) → g (f s a) = g s)
    (htrace : ∀ b ∈ trace f out s as, P b) :
  g (as.foldl f s) = g s
  := by
  induction as generalizing s with
  | nil => rfl
  | cons a as ih =>
      rw [trace, List.forall_mem_append] at htrace
      rw [List.foldl_cons, ih _ htrace.2]
      · exact h a List.mem_cons_self s htrace.1
      · intro b hb
        exact h b (List.mem_cons_of_mem a hb)

end Loop
