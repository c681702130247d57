import Mathlib.Data.List.Basic
import Mathlib.Logic.Function.Basic

/-!
# Drawing over a surface and putting it back

A surface takes values at places that do not affect each other.  Whatever was drawn at places
of a list disappears when the values saved from these places are put back.
-/

namespace Overlay

/-- Values of `α` are put at the places `κ` of a state. -/
structure Surface (σ κ α : Type*) where
  put : σ → κ → α → σ
  put_put : ∀ s k a b, put (put s k a) k b = put s k b
  put_comm : ∀ s k k' a b, k ≠ k' → put (put s k a) k' b = put (put s k' b) k a

variable {σ κ α : Type*} (S : Surface σ κ α)

/-- Putting back the values saved from the places of a list. -/
def Surface.restore (saved : κ → α) (ks : List κ) (s : σ) : σ :=
  ks.foldl (fun s k => S.put s k (saved k)) s

/-- What was put at one of the places disappears. -/
theorem Surface.restore_put (saved : κ → α) {ks : List κ} {k : κ} (hk : k ∈ ks) (s : σ) (a : α) :
  S.restore saved ks (S.put s k a) = S.restore saved ks s
  := by
  induction ks generalizing s with
  | nil => cases hk
  | cons k' ks ih =>
      rw [restore, restore, List.foldl_cons, List.foldl_cons]
      by_cases heq : k = k'
      · subst heq
        rw [S.put_put]
      · rw [S.put_comm _ _ _ _ _ heq]
        exact ih ((List.mem_cons.mp hk).resolve_left heq) _

/-- Nothing happens when the values are there already. -/
theorem Surface.restore_saved {saved : κ → α} {ks : List κ} {s : σ}
    (hsaved : ∀ k ∈ ks, S.put s k (saved k) = s) :
  S.restore saved ks s = s
  := by
  induction ks with
  | nil => rfl
  | cons k ks ih =>
      rw [restore, List.foldl_cons, hsaved k List.mem_cons_self]
      exact ih fun k' hk' => hsaved k' (List.mem_cons_of_mem _ hk')

/-- A loop each of whose rounds puts something at its place, or nothing at all, is undone. -/
theorem Surface.restore_foldl {saved : κ → α} {f : σ → κ → σ} {ks ds : List κ} (hsub : ds ⊆ ks)
    (hf : ∀ k ∈ ds, ∀ s, f s k = s ∨ ∃ a, f s k = S.put s k a) (s : σ) :
  S.restore saved ks (ds.foldl f s) = S.restore saved ks s
  := by
  induction ds generalizing s with
  | nil => rfl
  | cons d ds ih =>
      have hd : S.restore saved ks (f s d) = S.restore saved ks s := by
        rcases hf d List.mem_cons_self s with heq | ⟨a, heq⟩
        · rw [heq]
        · rw [heq, S.restore_put saved (hsub List.mem_cons_self)]
      rw [List.foldl_cons, ← hd]
      apply ih fun k hk => hsub (List.mem_cons_of_mem _ hk)
      exact fun k hk => hf k (List.mem_cons_of_mem _ hk)

/-- A loop that writes a value for each of the places it looks at leaves it there, when no other
place has the same index. -/
theorem foldl_update {ι : Type*} [DecidableEq ι] {P : κ → Prop} [DecidablePred P] {index : κ → ι}
    {v : κ → α} {ks : List κ} {k : κ} (hinj : ∀ d ∈ ks, index d = index k → d = k) (hk : P k)
    {t : ι → α} (hmem : k ∈ ks ∨ t (index k) = v k) :
  ks.foldl (fun t d => if P d then Function.update t (index d) (v d) else t) t (index k) = v k
  := by
  induction ks generalizing t with
  | nil => exact hmem.resolve_left List.not_mem_nil
  | cons d ds ih =>
      rw [List.foldl_cons]
      apply ih fun d' hd' => hinj d' (List.mem_cons_of_mem _ hd')
      by_cases heq : index d = index k
      · right
        obtain rfl := hinj d List.mem_cons_self heq
        rw [if_pos hk, Function.update_self]
      · rcases hmem with hmem | hval
        · left
          exact (List.mem_cons.mp hmem).resolve_left fun hkd => heq (by rw [hkd])
        · right
          split_ifs
          · rw [Function.update_of_ne (Ne.symm heq), hval]
          · exact hval

/-- What is read after a loop whose rounds put values where it is read, or do not affect it: one of
the values, or what was there before. -/
theorem foldl_covers {g : σ → α} {f : σ → κ → σ} {R : κ → Prop} {v : κ → α} {ks : List κ}
    (hput : ∀ k ∈ ks, R k → ∀ s, g (f s k) = v k)
    (hkeep : ∀ k ∈ ks, ¬ R k → ∀ s, g (f s k) = g s) (s : σ) :
  (∃ k ∈ ks, R k ∧ g (ks.foldl f s) = v k) ∨
    (∀ k ∈ ks, ¬ R k) ∧ g (ks.foldl f s) = g s
  := by
  induction ks generalizing s with
  | nil => exact Or.inr ⟨fun k hk => absurd hk List.not_mem_nil, rfl⟩
  | cons k ks ih =>
      rw [List.foldl_cons]
      have hrest := ih (fun d hd => hput d (List.mem_cons_of_mem _ hd))
        (fun d hd => hkeep d (List.mem_cons_of_mem _ hd)) (f s k)
      rcases hrest with ⟨d, hd, hcover, hval⟩ | ⟨hnone, hval⟩
      · exact Or.inl ⟨d, List.mem_cons_of_mem _ hd, hcover, hval⟩
      · rw [hval]
        by_cases hcover : R k
        · exact Or.inl ⟨k, List.mem_cons_self, hcover, hput k List.mem_cons_self hcover s⟩
        · right
          refine ⟨?_, hkeep k List.mem_cons_self hcover s⟩
          intro d hd
          rcases List.mem_cons.mp hd with rfl | hd
          · exact hcover
          · exact hnone d hd

end Overlay
