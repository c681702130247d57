import Mathlib.Data.Set.Basic
import Mathlib.Logic.Function.Basic
import Mathlib.Order.Basic

/-!
# Trees given by parents

A set of nodes with a parent for each is a tree with a given root when every step from a node
to its parent lowers some rank.  Leaves may be taken away, and others put in.
-/

variable {α : Type*}

/-- The nodes form a tree with the root `root`, whose own parent does not matter. -/
structure ParentTree (nodes : Set α) (root : α) (parent : α → α) : Prop where
  root_mem : root ∈ nodes
  parent_mem : ∀ n ∈ nodes, n ≠ root → parent n ∈ nodes
  ranked : ∃ rank : α → ℕ, ∀ n ∈ nodes, n ≠ root → rank (parent n) < rank n

namespace ParentTree

variable {nodes nodes' : Set α} {root n : α} {parent parent' : α → α}

/-- What holds of the root, and of a node when it holds of its parent, holds of all nodes. -/
theorem induction (h : ParentTree nodes root parent) {P : α → Prop} (hroot : P root)
    (hstep : ∀ n ∈ nodes, n ≠ root → P (parent n) → P n) :
  ∀ n ∈ nodes, P n
  := by
  obtain ⟨rank, hrank⟩ := h.ranked
  have hall : ∀ k, ∀ n ∈ nodes, rank n < k → P n := by
    intro k
    induction k with
    | zero =>
        intro n _ hlt
        apply absurd hlt (Nat.not_lt_zero _)
    | succ k ih =>
        intro n hn hlt
        by_cases heq : n = root
        · rw [heq]
          apply hroot
        · apply hstep n hn heq
          apply ih _ (h.parent_mem n hn heq)
          apply Nat.lt_of_lt_of_le (hrank n hn heq) (Nat.le_of_lt_succ hlt)
  intro n hn
  apply hall (rank n + 1) n hn (Nat.lt_succ_self _)

/-- Nodes that are nobody's parents are taken away; `n`, such a node or none, may be put in
again with a new parent. -/
theorem change (h : ParentTree nodes root parent) (hroot : root ∈ nodes') (hn : n ≠ root)
    (hold : ∀ m ∈ nodes', m ≠ n → m ∈ nodes ∧ parent' m = parent m)
    (hkept : ∀ m ∈ nodes', m ≠ n → m ≠ root → parent m ∈ nodes' ∧ parent m ≠ n)
    (hnew : n ∈ nodes' → parent' n ∈ nodes' ∧ parent' n ≠ n) :
  ParentTree nodes' root parent'
  := by
  classical
  obtain ⟨rank, hrank⟩ := h.ranked
  refine ⟨hroot, ?_, Function.update rank n (rank (parent' n) + 1), ?_⟩
  · intro m hm hne
    by_cases hmn : m = n
    · subst hmn
      apply (hnew hm).1
    · rw [(hold m hm hmn).2]
      apply (hkept m hm hmn hne).1
  · intro m hm hne
    by_cases hmn : m = n
    · subst hmn
      rw [Function.update_self, Function.update_of_ne (hnew hm).2]
      apply Nat.lt_succ_self
    · obtain ⟨hmem, hparent⟩ := hold m hm hmn
      rw [hparent, Function.update_of_ne (hkept m hm hmn hne).2, Function.update_of_ne hmn]
      apply hrank m hmem hne

end ParentTree
