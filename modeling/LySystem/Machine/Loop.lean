import Mathlib.Data.Finset.Card
import Mathlib.Data.Nat.Find
import Mathlib.Logic.Relation
import Mathlib.Order.Lattice
import Mathlib.Tactic.Use

/-!
# Loops

A loop repeats a body that either goes on with a new state or leaves the loop with a
result.  `iterate f n s` runs at most `n` rounds of it, and `Returns f s b` says that the
loop entered with `s` leaves with `b`, however many rounds that takes.  A loop that runs
for ever returns nothing.
-/

namespace Loop

variable {σ β : Type*}

/-- At most `n` rounds of the loop with body `f`, entered with `s`. -/
def iterate (f : σ → σ ⊕ β) : ℕ → σ → Option β
  | 0, _ => none
  | n + 1, s =>
      match f s with
      | .inl s' => iterate f n s'
      | .inr b => some b

/-- The loop with body `f` entered with `s` leaves with `b`. -/
def Returns (f : σ → σ ⊕ β) (s : σ) (b : β) : Prop :=
  ∃ n, iterate f n s = some b

variable {f : σ → σ ⊕ β} {s s' : σ} {b b' : β}

theorem iterate_stop (n : ℕ) (h : f s = .inr b) :
  iterate f (n + 1) s = some b
  := by
  simp [iterate, h]

theorem iterate_step (n : ℕ) (h : f s = .inl s') :
  iterate f (n + 1) s = iterate f n s'
  := by
  simp [iterate, h]

/-- More rounds do not change the result. -/
theorem iterate_mono {n k : ℕ} (h : iterate f n s = some b) (hk : n ≤ k) :
  iterate f k s = some b
  := by
  induction n generalizing s k with
  | zero => simp [iterate] at h
  | succ n ih =>
      obtain ⟨k, rfl⟩ : ∃ j, k = j + 1 := ⟨k - 1, by omega⟩
      cases hf : f s with
      | inl s' =>
          rw [iterate_step _ hf] at h ⊢
          apply ih h
          omega
      | inr b' =>
          rw [iterate_stop _ hf] at h ⊢
          apply h

/-- A loop leaves with one result at most. -/
theorem Returns.unique (h : Returns f s b) (h' : Returns f s b') :
  b = b'
  := by
  obtain ⟨n, hn⟩ := h
  obtain ⟨k, hk⟩ := h'
  have hl := iterate_mono hn (le_max_left n k)
  have hr := iterate_mono hk (le_max_right n k)
  simpa [hl] using hr

theorem Returns.stop (h : f s = .inr b) :
  Returns f s b
  := ⟨1, iterate_stop 0 h⟩

theorem Returns.step (h : f s = .inl s') (hr : Returns f s' b) :
  Returns f s b
  := by
  obtain ⟨n, hn⟩ := hr
  use n + 1
  rw [iterate_step _ h, hn]

theorem Returns.of_iterate {n : ℕ} (h : iterate f n s = some b) :
  Returns f s b
  := ⟨n, h⟩

/-- A result of `n` rounds is the result of the loop. -/
theorem Returns.eq_of_iterate {n : ℕ} (h : Returns f s b) (hn : iterate f n s = some b') :
  b' = b
  := Returns.unique ⟨n, hn⟩ h

/-- What every round keeps and every exit turns into `Q` gives `Q` of the result. -/
theorem Returns.invariant {I : σ → Prop} {Q : β → Prop}
    (hstep : ∀ s s', I s → f s = .inl s' → I s') (hstop : ∀ s b, I s → f s = .inr b → Q b)
    (hI : I s) (h : Returns f s b) :
  Q b
  := by
  obtain ⟨n, hn⟩ := h
  induction n generalizing s with
  | zero => simp [iterate] at hn
  | succ n ih =>
      cases hf : f s with
      | inl s' =>
          rw [iterate_step _ hf] at hn
          apply ih (hstep s s' hI hf) hn
      | inr b' =>
          rw [iterate_stop _ hf, Option.some.injEq] at hn
          subst hn
          apply hstop s b' hI hf

/-- A loop whose rounds keep `I` and lower `μ` leaves within `μ s + 1` rounds. -/
theorem iterate_of_measure {I : σ → Prop} (μ : σ → ℕ)
    (hstep : ∀ s s', I s → f s = .inl s' → I s' ∧ μ s' < μ s) (hI : I s) {n : ℕ} (hn : μ s < n) :
  ∃ b, iterate f n s = some b
  := by
  induction n generalizing s with
  | zero => omega
  | succ n ih =>
      cases hf : f s with
      | inl s' =>
          obtain ⟨hI', hlt⟩ := hstep s s' hI hf
          rw [iterate_step _ hf]
          apply ih hI'
          omega
      | inr b =>
          use b
          apply iterate_stop _ hf

/-! ### States a loop comes to -/

/-- The loop entered with `s` comes to `s'`. -/
def Reaches (f : σ → σ ⊕ β) : σ → σ → Prop := Relation.ReflTransGen fun s t => f s = .inl t

theorem Reaches.step (h : f s = .inl s') :
  Reaches f s s'
  := Relation.ReflTransGen.single h

theorem Reaches.refl (s : σ) :
  Reaches f s s
  := Relation.ReflTransGen.refl

theorem Reaches.trans {t : σ} (h : Reaches f s s') (ht : Reaches f s' t) :
  Reaches f s t
  := Relation.ReflTransGen.trans h ht

theorem Reaches.returns (h : Reaches f s s') (hr : Returns f s' b) :
  Returns f s b
  := by
  induction h using Relation.ReflTransGen.head_induction_on with
  | refl => exact hr
  | head hs _ ih => exact Returns.step hs ih

/-- What every round keeps, the loop keeps. -/
theorem Reaches.invariant {I : σ → Prop} (hstep : ∀ s s', I s → f s = .inl s' → I s')
    (h : Reaches f s s') (hI : I s) :
  I s'
  := by
  induction h with
  | refl => exact hI
  | tail _ hs ih => exact hstep _ _ ih hs

/-- A loop that comes to a state it leaves in comes there from all states it comes to. -/
theorem Reaches.exit (h : Reaches f s s') {t : σ} (ht : Reaches f s t) (hexit : f t = .inr b) :
  Reaches f s' t
  := by
  have hunique : Relator.RightUnique fun s t => f s = .inl t := by
    intro s t u ht hu
    exact Sum.inl.inj (ht.symm.trans hu)
  rcases Relation.ReflTransGen.total_of_right_unique hunique h ht with h | h
  · exact h
  · rcases Relation.ReflTransGen.cases_head h with rfl | ⟨u, hu, -⟩
    · exact Reaches.refl _
    · rw [hexit] at hu
      cases hu

/-! ### Searching a range -/

/-- The first value `f` gives on `start`, `start + 1`, …, over `count` indices: a loop that
returns from its body. -/
def firstSome {α : Type*} (f : ℕ → Option α) (start : ℕ) : ℕ → Option α
  | 0 => none
  | count + 1 =>
      match f start with
      | some a => some a
      | none => firstSome f (start + 1) count

variable {α : Type*} {g : ℕ → Option α}

theorem firstSome_eq_some {start count : ℕ} {a : α} :
  firstSome g start count = some a ↔
    ∃ i, start ≤ i ∧ i < start + count ∧ g i = some a ∧ ∀ j, start ≤ j → j < i → g j = none
  := by
  induction count generalizing start with
  | zero =>
      constructor
      · simp [firstSome]
      · rintro ⟨i, hlo, hhi, -⟩
        omega
  | succ count ih =>
      cases hg : g start with
      | some b =>
          rw [firstSome, hg]
          constructor
          · intro h
            use start, le_rfl, by omega, hg.trans h
            intro j hlo hhi
            omega
          · rintro ⟨i, hlo, hhi, hi, hfirst⟩
            rcases Nat.eq_or_lt_of_le hlo with rfl | hlt
            · rw [← hg, hi]
            · rw [hfirst start le_rfl hlt] at hg
              cases hg
      | none =>
          rw [firstSome, hg]
          constructor
          · intro h
            obtain ⟨i, hlo, hhi, hi, hfirst⟩ := ih.mp h
            use i, by omega, by omega, hi
            intro j hj hji
            rcases Nat.eq_or_lt_of_le hj with rfl | hlt
            · apply hg
            · apply hfirst j hlt hji
          · rintro ⟨i, hlo, hhi, hi, hfirst⟩
            apply ih.mpr
            rcases Nat.eq_or_lt_of_le hlo with rfl | hlt
            · rw [hg] at hi
              cases hi
            · use i, hlt, by omega, hi
              intro j hj hji
              apply hfirst j (by omega) hji

theorem firstSome_eq_none {start count : ℕ} :
  firstSome g start count = none ↔ ∀ i, start ≤ i → i < start + count → g i = none
  := by
  induction count generalizing start with
  | zero =>
      simp only [firstSome, true_iff]
      intro i hlo hhi
      omega
  | succ count ih =>
      cases hg : g start with
      | some b =>
          rw [firstSome, hg]
          constructor
          · intro h
            cases h
          · intro h
            rw [h start le_rfl (by omega)] at hg
            cases hg
      | none =>
          rw [firstSome, hg]
          constructor
          · intro h i hlo hhi
            rcases Nat.eq_or_lt_of_le hlo with rfl | hlt
            · apply hg
            · apply ih.mp h i hlt
              omega
          · intro h
            apply ih.mpr
            intro i hlo hhi
            apply h i <;> omega

theorem firstSome_congr {h : ℕ → Option α} {start count : ℕ}
    (heq : ∀ i, start ≤ i → i < start + count → g i = h i) :
  firstSome g start count = firstSome h start count
  := by
  induction count generalizing start with
  | zero => rfl
  | succ count ih =>
      rw [firstSome, firstSome, heq start le_rfl (by omega), ih]
      intro i hlo hhi
      apply heq i (by omega) (by omega)

/-- The values the variable of a `for` loop takes, when nothing in the body changes what
its condition and its increment look at: from `a` on, while `cond` holds, stepping by
`next`.  `none` when the loop does not end within `n` rounds. -/
def forValues (cond : α → Bool) (next : α → α) : ℕ → α → Option (List α)
  | 0, _ => none
  | n + 1, a => if cond a then (forValues cond next n (next a)).map (a :: ·) else some []

/-- The variable of the loop takes the value `x`. -/
inductive Visits (cond : α → Bool) (next : α → α) : α → α → Prop
  | here {a : α} : cond a → Visits cond next a a
  | later {a x : α} : cond a → Visits cond next (next a) x → Visits cond next a x

variable {cond : α → Bool} {next : α → α} {a x : α}

theorem Visits.holds (h : Visits cond next a x) :
  cond x
  := by
  induction h with
  | here hc => apply hc
  | later _ _ ih => apply ih

theorem Visits.snoc (h : Visits cond next a x) (hx : cond (next x)) :
  Visits cond next a (next x)
  := by
  induction h with
  | here hc => apply Visits.later hc (Visits.here hx)
  | later hc _ ih => apply Visits.later hc (ih hx)

/-- What holds of the first value and is kept from one value to the next holds of all. -/
theorem Visits.invariant {I : α → Prop} (hstep : ∀ y, I y → cond y → I (next y)) (ha : I a)
    (h : Visits cond next a x) :
  I x
  := by
  induction h with
  | here _ => apply ha
  | later hc _ ih => apply ih (hstep _ ha hc)

theorem mem_forValues {n : ℕ} {l : List α} (h : forValues cond next n a = some l) :
  x ∈ l ↔ Visits cond next a x
  := by
  induction n generalizing a l with
  | zero => simp [forValues] at h
  | succ n ih =>
      rw [forValues] at h
      split_ifs at h with hc
      · obtain ⟨l', hl', rfl⟩ := Option.map_eq_some_iff.mp h
        rw [List.mem_cons, ih hl']
        constructor
        · rintro (rfl | hx)
          · apply Visits.here hc
          · apply Visits.later hc hx
        · intro hx
          cases hx with
          | here _ => left; rfl
          | later _ hx => right; apply hx
      · obtain rfl := Option.some.inj h
        constructor
        · intro hx
          cases hx
        · intro hx
          cases hx with
          | here hc' => exact absurd hc' hc
          | later hc' _ => exact absurd hc' hc

/-- A loop whose variable grows, and stays below a bound, ends. -/
theorem forValues_returns (cond : ℕ → Bool) (next : ℕ → ℕ) {a n : ℕ} (bound : ℕ)
    (h : ∀ x, Visits cond next a x → x < next x ∧ x < bound) (hn : bound - a < n) :
  ∃ l, forValues cond next n a = some l
  := by
  induction n generalizing a with
  | zero => omega
  | succ n ih =>
      rw [forValues]
      split_ifs with hc
      · obtain ⟨hlt, hbound⟩ := h a (Visits.here hc)
        have hlater : ∀ x, Visits cond next (next a) x → x < next x ∧ x < bound :=
          fun x hx => h x (Visits.later hc hx)
        obtain ⟨l, hl⟩ := ih hlater (by omega)
        use a :: l
        rw [hl]
        rfl
      · use []

/-! ### Loops that end -/

/-- The loop ends within `n` rounds exactly when its condition fails at one of the first `n`
values of its variable. -/
theorem forValues_ends_iff {n : ℕ} :
  (∃ l, forValues cond next n a = some l) ↔ ∃ i < n, cond (next^[i] a) = false
  := by
  induction n generalizing a with
  | zero => simp [forValues]
  | succ n ih =>
      rw [forValues]
      split_ifs with hc
      · constructor
        · rintro ⟨l, hl⟩
          obtain ⟨l', hl', -⟩ := Option.map_eq_some_iff.mp hl
          obtain ⟨i, hi, hstop⟩ := ih.mp ⟨l', hl'⟩
          exact ⟨i + 1, by omega, hstop⟩
        · rintro ⟨i, hi, hstop⟩
          cases i with
          | zero =>
              rw [Function.iterate_zero_apply, hc] at hstop
              cases hstop
          | succ i =>
              obtain ⟨l, hl⟩ := ih.mpr ⟨i, by omega, hstop⟩
              exact ⟨a :: l, by rw [hl]; rfl⟩
      · exact iff_of_true ⟨[], rfl⟩ ⟨0, Nat.succ_pos n, by simpa using hc⟩

/-- While the condition holds the variable takes all its values. -/
theorem visits_iterate {i : ℕ} (h : ∀ j ≤ i, cond (next^[j] a)) :
  Visits cond next a (next^[i] a)
  := by
  induction i with
  | zero => exact Visits.here (h 0 le_rfl)
  | succ i ih =>
      have hprev := ih fun j hj => h j (Nat.le_succ_of_le hj)
      have hnext := h (i + 1) le_rfl
      rw [Function.iterate_succ_apply'] at hnext ⊢
      exact hprev.snoc hnext

section

variable {cond : ℕ → Bool} {next : ℕ → ℕ} {a bound : ℕ}

/-- Among more values than there are numbers below the bound, two are equal. -/
theorem iterate_repeats (hnext : ∀ x, next x < bound) (ha : a < bound) :
  ∃ i j, i < j ∧ j ≤ bound ∧ next^[i] a = next^[j] a
  := by
  have hlt : ∀ i, next^[i] a < bound := by
    intro i
    cases i with
    | zero => exact ha
    | succ i =>
        rw [Function.iterate_succ_apply']
        apply hnext
  obtain ⟨i, hi, j, hj, hne, heq⟩ := Finset.exists_ne_map_eq_of_card_lt_of_maps_to
    (s := Finset.range (bound + 1)) (t := Finset.range bound) (f := fun i => next^[i] a)
    (by simp) (fun i _ => by simpa using hlt i)
  rw [Finset.mem_range] at hi hj
  rcases Nat.lt_or_gt_of_ne hne with hij | hji
  · exact ⟨i, j, hij, by omega, heq⟩
  · exact ⟨j, i, hji, by omega, heq.symm⟩

/-- A loop over numbers below a bound ends within that many rounds and one, or never. -/
theorem forValues_bounded {n k : ℕ} {l : List ℕ} (hnext : ∀ x, next x < bound) (ha : a < bound)
    (h : forValues cond next k a = some l) (hn : bound < n) :
  ∃ l, forValues cond next n a = some l
  := by
  have hstops : ∃ i, cond (next^[i] a) = false := by
    obtain ⟨i, -, hi⟩ := forValues_ends_iff.mp ⟨l, h⟩
    exact ⟨i, hi⟩
  apply forValues_ends_iff.mpr
  refine ⟨Nat.find hstops, ?_, Nat.find_spec hstops⟩
  by_contra hlate
  -- Before it stops, the loop would come round.
  obtain ⟨i, j, hij, hj, heq⟩ := iterate_repeats hnext ha
  obtain ⟨k, hk⟩ : ∃ k, Nat.find hstops = k + j := ⟨Nat.find hstops - j, by omega⟩
  have hfind := Nat.find_spec hstops
  rw [hk, Function.iterate_add_apply, ← heq, ← Function.iterate_add_apply] at hfind
  exact Nat.find_min hstops (by omega) hfind

/-- A loop over numbers below a bound ends exactly when it never comes back to a value. -/
theorem forValues_ends_iff_no_return (hnext : ∀ x, next x < bound) (ha : a < bound) :
  (∃ n l, forValues cond next n a = some l) ↔
    ∀ x, Visits cond next a x → ¬ Visits cond next (next x) x
  := by
  constructor
  · rintro ⟨n, l, h⟩ x hx hback
    obtain ⟨i, -, hi⟩ := forValues_ends_iff.mp ⟨l, h⟩
    -- From every value of the loop, `x` is still to come.
    have hcome : ∀ i, Visits cond next (next^[i] a) x := by
      intro i
      induction i with
      | zero => exact hx
      | succ i ih =>
          rw [Function.iterate_succ_apply']
          cases ih with
          | here _ => exact hback
          | later _ hlater => exact hlater
    cases hcome i with
    | here hc => simp [hc] at hi
    | later hc _ => simp [hc] at hi
  · intro hnone
    by_contra hforever
    have hall : ∀ i, cond (next^[i] a) = true := by
      intro i
      by_contra hstop
      rw [Bool.not_eq_true] at hstop
      obtain ⟨l, hl⟩ := forValues_ends_iff.mpr ⟨i, Nat.lt_succ_self i, hstop⟩
      exact hforever ⟨_, l, hl⟩
    obtain ⟨i, j, hij, -, heq⟩ := iterate_repeats hnext ha
    obtain ⟨k, rfl⟩ : ∃ k, j = i + 1 + k := ⟨j - (i + 1), by omega⟩
    apply hnone (next^[i] a) (visits_iterate fun j _ => hall j)
    have hiter : ∀ k, next^[k] (next (next^[i] a)) = next^[i + 1 + k] a := by
      intro k
      rw [Nat.add_comm, Function.iterate_add_apply, Function.iterate_succ_apply']
    have hback : Visits cond next (next (next^[i] a)) (next^[k] (next (next^[i] a))) := by
      apply visits_iterate
      intro j _
      rw [hiter]
      apply hall
    rwa [hiter, ← heq] at hback

end

/-! ### Loops over a list -/

variable {P : σ → Prop} {Q : α → Prop}

/-- When every round keeps `P` exactly if its value is not in `Q`, the loop keeps `P` exactly
if none of its values is. -/
theorem foldlM_iff {f : σ → α → Option σ}
    (hf : ∀ s a s', f s a = some s' → (P s' ↔ P s ∧ ¬ Q a)) {as : List α}
    (h : as.foldlM f s = some s') :
  P s' ↔ P s ∧ ¬ ∃ a ∈ as, Q a
  := by
  induction as generalizing s with
  | nil =>
      obtain rfl : s = s' := by simpa using h
      simp
  | cons a as ih =>
      rw [List.foldlM_cons] at h
      obtain ⟨t, ht, h⟩ := Option.bind_eq_some_iff.mp h
      simp only [ih h, hf s a t ht, List.mem_cons, exists_eq_or_imp, not_or, and_assoc]

@[inherit_doc foldlM_iff]
theorem foldl_iff {f : σ → α → σ} (hf : ∀ s a, P (f s a) ↔ P s ∧ ¬ Q a) (as : List α) (s : σ) :
  P (as.foldl f s) ↔ P s ∧ ¬ ∃ a ∈ as, Q a
  := by
  induction as generalizing s with
  | nil => simp
  | cons a as ih =>
      simp only [List.foldl_cons, ih, hf, List.mem_cons, exists_eq_or_imp, not_or, and_assoc]

/-- Where a round keeps the invariant exactly if it meets a condition, the invariant holds after
every round exactly if every round meets its condition. -/
theorem foldl_prefixes_iff {f : σ → α → σ} {C : σ → α → Prop}
    (hf : ∀ s a, P s → (P (f s a) ↔ C s a)) (as : List α) (hs : P s) :
  (∀ l, l <+: as → P (l.foldl f s)) ↔ ∀ l a, l ++ [a] <+: as → C (l.foldl f s) a
  := by
  constructor
  · intro h l a hla
    have hbefore := h l ((List.prefix_append l [a]).trans hla)
    have hafter := h (l ++ [a]) hla
    rw [List.foldl_append] at hafter
    exact (hf _ a hbefore).mp hafter
  · intro h l hl
    induction l using List.reverseRecOn with
    | nil => exact hs
    | append_singleton l a ih =>
        rw [List.foldl_append]
        exact (hf _ a (ih ((List.prefix_append l [a]).trans hl))).mpr (h l a hl)

/-- A loop all of whose rounds end ends. -/
theorem foldlM_returns {f : σ → α → Option σ} {as : List α}
    (hf : ∀ a ∈ as, ∀ s, ∃ s', f s a = some s') (s : σ) :
  ∃ s', as.foldlM f s = some s'
  := by
  induction as generalizing s with
  | nil => exact ⟨s, rfl⟩
  | cons a as ih =>
      obtain ⟨t, ht⟩ := hf a List.mem_cons_self s
      obtain ⟨s', hs'⟩ := ih (fun b hb => hf b (List.mem_cons_of_mem _ hb)) t
      use s'
      rw [List.foldlM_cons, ht]
      apply hs'

/-- What every round keeps, the loop keeps. -/
theorem foldlM_invariant {f : σ → α → Option σ} {as : List α}
    (hf : ∀ a ∈ as, ∀ s s', f s a = some s' → P s → P s') {s s' : σ}
    (h : as.foldlM f s = some s') (hs : P s) :
  P s'
  := by
  induction as generalizing s with
  | nil =>
      obtain rfl : s = s' := by simpa using h
      exact hs
  | cons a as ih =>
      rw [List.foldlM_cons] at h
      obtain ⟨t, ht, h⟩ := Option.bind_eq_some_iff.mp h
      apply ih (fun b hb => hf b (List.mem_cons_of_mem a hb)) h
      exact hf a List.mem_cons_self s t ht hs

/-- A loop that ends has rounds that end. -/
theorem foldlM_rounds {f : σ → α → Option σ} {as : List α} {s s' : σ}
    (h : as.foldlM f s = some s') :
  ∀ a ∈ as, ∃ t t', f t a = some t'
  := by
  induction as generalizing s with
  | nil => simp
  | cons a as ih =>
      rw [List.foldlM_cons] at h
      obtain ⟨t, ht, h⟩ := Option.bind_eq_some_iff.mp h
      rw [List.forall_mem_cons]
      exact ⟨⟨s, t, ht⟩, ih h⟩

/-- The loop over `0`, …, `n - 1` with an invariant that says how far it has come. -/
theorem foldl_range {I : ℕ → σ → Prop} {f : σ → ℕ → σ} {n : ℕ} {s : σ} (hstart : I 0 s)
    (hstep : ∀ i < n, ∀ s, I i s → I (i + 1) (f s i)) :
  I n ((List.range n).foldl f s)
  := by
  induction n with
  | zero => apply hstart
  | succ n ih =>
      rw [List.range_succ, List.foldl_append, List.foldl_cons, List.foldl_nil]
      apply hstep n (Nat.lt_succ_self n)
      apply ih
      intro i hi
      apply hstep i (Nat.lt_succ_of_lt hi)

/-! ### The greatest value of a scan -/

section

variable {κ : Type*} [LinearOrder κ] {p : α → Prop} [DecidablePred p] {v : α → κ}

/-- The loop that raises `m` to the greatest value of an element with `p`. -/
def scanMax (p : α → Prop) [DecidablePred p] (v : α → κ) (as : List α) (m : κ) : κ :=
  as.foldl (fun m a => if p a ∧ m < v a then v a else m) m

theorem scanMax_cons (a : α) (as : List α) (m : κ) :
  scanMax p v (a :: as) m = scanMax p v as (if p a ∧ m < v a then v a else m)
  := rfl

theorem le_scanMax_start (as : List α) (m : κ) :
  m ≤ scanMax p v as m
  := by
  induction as generalizing m with
  | nil => apply le_rfl
  | cons a as ih =>
      rw [scanMax_cons]
      apply le_trans _ (ih _)
      split_ifs with h
      · apply h.2.le
      · apply le_rfl

theorem le_scanMax {as : List α} {m : κ} {a : α} (ha : a ∈ as) (hp : p a) :
  v a ≤ scanMax p v as m
  := by
  induction as generalizing m with
  | nil => cases ha
  | cons b as ih =>
      rw [scanMax_cons]
      rcases List.mem_cons.mp ha with rfl | ha
      · apply le_trans _ (le_scanMax_start as _)
        split_ifs with h
        · apply le_rfl
        · apply not_lt.mp
          intro hlt
          exact h ⟨hp, hlt⟩
      · apply ih ha

/-- The scan stays at its start or reaches the value of an element. -/
theorem scanMax_eq (as : List α) (m : κ) :
  scanMax p v as m = m ∨ ∃ a ∈ as, p a ∧ v a = scanMax p v as m
  := by
  induction as generalizing m with
  | nil =>
      left
      rfl
  | cons b as ih =>
      rw [scanMax_cons]
      rcases ih (if p b ∧ m < v b then v b else m) with heq | ⟨a, ha, hp, heq⟩
      · rw [heq]
        split_ifs with h
        · right
          use b, List.mem_cons_self, h.1
        · left
          rfl
      · right
        use a, List.mem_cons_of_mem b ha, hp

end

end Loop
