import Mathlib.Data.List.DropRight
import Mathlib.Data.List.Basic
import Mathlib.Data.List.Induction
import Mathlib.Logic.Relation

/-!
# Lists split at a separator

The pieces of a list are its longest parts without the separator, empty ones left out.  Around the
last separator a list has a part before and a part after; the pieces of the former, and the latter,
are the same for lists that differ in separators at the beginning or next to others only.
-/

namespace Split

variable {α : Type*}

/-! ### Superfluous separators -/

/-- One separator fewer, at the beginning or next to another one. -/
inductive Superfluous (a : α) : List α → List α → Prop
  | leading (l : List α) : Superfluous a (a :: l) l
  | repeated (l r : List α) : Superfluous a (l ++ a :: a :: r) (l ++ a :: r)

/-- The lists differ in separators at the beginning or next to others only. -/
def SameUpTo (a : α) : List α → List α → Prop := Relation.EqvGen (Superfluous a)

theorem Superfluous.mem_iff {a b : α} {l l' : List α} (h : Superfluous a l l') (hb : b ≠ a) :
  b ∈ l ↔ b ∈ l'
  := by
  cases h with
  | leading l => simp [hb]
  | repeated l r => simp [hb]

theorem SameUpTo.mem_iff {a b : α} {l l' : List α} (h : SameUpTo a l l') (hb : b ≠ a) :
  b ∈ l ↔ b ∈ l'
  := by
  induction h with
  | rel _ _ h => exact h.mem_iff hb
  | refl _ => rfl
  | symm _ _ _ ih => exact ih.symm
  | trans _ _ _ _ _ ih ih' => exact ih.trans ih'

/-- A member of a list stands there for a last time. -/
theorem exists_last {a : α} {l : List α} (h : a ∈ l) :
  ∃ s t, l = s ++ a :: t ∧ a ∉ t
  := by
  obtain ⟨t, s, heq, ht⟩ := List.eq_append_cons_of_mem (List.mem_reverse.mpr h)
  refine ⟨s.reverse, t.reverse, ?_, fun hmem => ht (List.mem_reverse.mp hmem)⟩
  rw [← List.reverse_reverse l, heq]
  simp

variable [DecidableEq α]

/-- The parts of a list between separators that are not empty. -/
def pieces (a : α) (l : List α) : List (List α) := (l.splitOn a).filter (· ≠ [])

/-- What stands before the last separator, nothing if there is none. -/
def beforeLast (a : α) (l : List α) : List α := (l.rdropWhile (· ≠ a)).dropLast

/-- What stands after the last separator, the whole list if there is none. -/
def afterLast (a : α) (l : List α) : List α := l.rtakeWhile (· ≠ a)

/-! ### Pieces -/

@[simp]
theorem pieces_nil (a : α) :
  pieces a [] = []
  := by
  simp [pieces]

theorem pieces_append_cons (a : α) (l r : List α) :
  pieces a (l ++ a :: r) = pieces a l ++ pieces a r
  := by
  rw [pieces, List.splitOn_append_cons_self, List.filter_append, pieces, pieces]

@[simp]
theorem pieces_cons_self (a : α) (l : List α) :
  pieces a (a :: l) = pieces a l
  := pieces_append_cons a [] l

theorem pieces_of_notMem {a : α} {l : List α} (h : a ∉ l) (hne : l ≠ []) :
  pieces a l = [l]
  := by
  rw [pieces, List.splitOn_eq_singleton h]
  simp [hne]

/-- Separators at the beginning do not matter. -/
theorem pieces_append_of_forall {a : α} {l : List α} (h : ∀ c ∈ l, c = a) (r : List α) :
  pieces a (l ++ r) = pieces a r
  := by
  induction l with
  | nil => rfl
  | cons c l ih =>
      obtain rfl := h c List.mem_cons_self
      rw [List.cons_append, pieces_cons_self, ih (fun b hb => h b (List.mem_cons_of_mem _ hb))]

/-- A piece at the beginning, up to a separator. -/
theorem pieces_piece {a : α} {l : List α} (h : a ∉ l) (hne : l ≠ []) (r : List α) :
  pieces a (l ++ a :: r) = l :: pieces a r
  := by
  rw [pieces_append_cons, pieces_of_notMem h hne, List.singleton_append]

/-- The pieces have no other members than the list. -/
theorem mem_of_mem_pieces {a b : α} {l piece : List α} (hpiece : piece ∈ pieces a l)
    (hb : b ∈ piece) :
  b ∈ l
  := by
  induction h : l.length using Nat.strong_induction_on generalizing l with
  | _ n ih =>
      by_cases hmem : a ∈ l
      · obtain ⟨s, t, rfl, hs⟩ := List.eq_append_cons_of_mem hmem
        rw [List.length_append, List.length_cons] at h
        rw [pieces_append_cons, List.mem_append] at hpiece
        rcases hpiece with hleft | hright
        · exact List.mem_append_left _ (ih s.length (by omega) hleft rfl)
        · exact List.mem_append_right _ (List.mem_cons_of_mem a (ih t.length (by omega) hright rfl))
      · by_cases hne : l = []
        · subst hne
          simp at hpiece
        · rw [pieces_of_notMem hmem hne, List.mem_singleton] at hpiece
          exact hpiece ▸ hb

/-! ### The last separator -/

theorem beforeLast_append {a : α} {r : List α} (h : a ∉ r) (l : List α) :
  beforeLast a (l ++ a :: r) = l
  := by
  rw [beforeLast, List.append_cons]
  induction r using List.reverseRecOn with
  | nil => simp
  | append_singleton r b ih =>
      obtain ⟨hr, hb⟩ := not_or.mp (mt List.mem_append.mpr h)
      have hba : b ≠ a := fun heq => hb (heq ▸ List.mem_singleton_self b)
      rw [← List.append_assoc, List.rdropWhile_concat_pos _ _ _ (by simpa using hba), ih hr]

theorem beforeLast_of_notMem {a : α} {l : List α} (h : a ∉ l) :
  beforeLast a l = []
  := by
  rw [beforeLast, List.rdropWhile_eq_nil_iff.mpr, List.dropLast_nil]
  intro c hc
  simpa using fun heq : c = a => h (heq ▸ hc)

theorem afterLast_append {a : α} {r : List α} (h : a ∉ r) (l : List α) :
  afterLast a (l ++ a :: r) = r
  := by
  rw [afterLast, List.append_cons]
  induction r using List.reverseRecOn with
  | nil => simp
  | append_singleton r b ih =>
      obtain ⟨hr, hb⟩ := not_or.mp (mt List.mem_append.mpr h)
      have hba : b ≠ a := fun heq => hb (heq ▸ List.mem_singleton_self b)
      rw [← List.append_assoc, List.rtakeWhile_concat_pos _ _ _ (by simpa using hba), ih hr]

theorem afterLast_of_notMem {a : α} {l : List α} (h : a ∉ l) :
  afterLast a l = l
  := by
  rw [afterLast, List.rtakeWhile_eq_self_iff]
  intro c hc
  simpa using fun heq : c = a => h (heq ▸ hc)

/-! ### Superfluous separators, and the pieces -/

section

variable {a : α} {l l' : List α}

theorem Superfluous.afterLast (h : Superfluous a l l') :
  afterLast a l = afterLast a l'
  := by
  cases h with
  | leading =>
      by_cases hmem : a ∈ l'
      · obtain ⟨s, t, rfl, ht⟩ := exists_last hmem
        rw [afterLast_append ht, ← List.cons_append, afterLast_append ht]
      · rw [afterLast_of_notMem hmem, ← List.nil_append (a :: l'), afterLast_append hmem]
  | repeated l r =>
      by_cases hmem : a ∈ r
      · obtain ⟨s, t, rfl, ht⟩ := exists_last hmem
        rw [show l ++ a :: a :: (s ++ a :: t) = (l ++ a :: a :: s) ++ a :: t by simp,
          show l ++ a :: (s ++ a :: t) = (l ++ a :: s) ++ a :: t by simp, afterLast_append ht,
          afterLast_append ht]
      · rw [afterLast_append hmem, List.append_cons, afterLast_append hmem]

theorem Superfluous.pieces_beforeLast (h : Superfluous a l l') :
  pieces a (beforeLast a l) = pieces a (beforeLast a l')
  := by
  cases h with
  | leading =>
      by_cases hmem : a ∈ l'
      · obtain ⟨s, t, rfl, ht⟩ := exists_last hmem
        rw [beforeLast_append ht, ← List.cons_append, beforeLast_append ht, pieces_cons_self]
      · rw [beforeLast_of_notMem hmem, ← List.nil_append (a :: l'), beforeLast_append hmem]
  | repeated l r =>
      by_cases hmem : a ∈ r
      · obtain ⟨s, t, rfl, ht⟩ := exists_last hmem
        rw [show l ++ a :: a :: (s ++ a :: t) = (l ++ a :: a :: s) ++ a :: t by simp,
          show l ++ a :: (s ++ a :: t) = (l ++ a :: s) ++ a :: t by simp, beforeLast_append ht,
          beforeLast_append ht, pieces_append_cons, pieces_append_cons, pieces_cons_self]
      · rw [beforeLast_append hmem, List.append_cons, beforeLast_append hmem, pieces_append_cons,
          pieces_nil, List.append_nil]

theorem SameUpTo.afterLast (h : SameUpTo a l l') :
  afterLast a l = afterLast a l'
  := by
  induction h with
  | rel _ _ h => exact h.afterLast
  | refl _ => rfl
  | symm _ _ _ ih => exact ih.symm
  | trans _ _ _ _ _ ih ih' => exact ih.trans ih'

theorem SameUpTo.pieces_beforeLast (h : SameUpTo a l l') :
  pieces a (beforeLast a l) = pieces a (beforeLast a l')
  := by
  induction h with
  | rel _ _ h => exact h.pieces_beforeLast
  | refl _ => rfl
  | symm _ _ _ ih => exact ih.symm
  | trans _ _ _ _ _ ih ih' => exact ih.trans ih'

end

end Split
