import LySystem.Lib.Strtok
import LySystem.Machine.Runs

/-!
# The tokens of a string

Calls of `strtok`, the first with a string and the others with `NULL`, return the maximal runs of
characters that are no delimiters.
-/

namespace CString.InPlace

open Runs

/-- What `k` calls return, the first with `str` and the others with `NULL`. -/
def calls (n delimiters : ℕ) : ℕ → ℕ → State → Option (List ℕ × State)
  | 0, _, s => some ([], s)
  | k + 1, str, s =>
      (strtok n s str delimiters).bind fun r =>
        (calls n delimiters k 0 r.2).map fun rs => (r.1 :: rs.1, rs.2)

/-- There is a character that is no delimiter. -/
def InToken (ds l : List Byte) (k : ℕ) : Prop := ∃ c ∈ l[k]?, c ∉ ds

/-- What `k` calls return and leave behind, for the tokens `rs` of `l`: one token after the other
and then 0, each token ended by a zero byte, and no byte overwritten but delimiters. -/
structure Cuts (ds l : List Byte) (rs : List (ℕ × ℕ)) (ptr k : ℕ) (m : Memory) (tokens : List ℕ)
    (s : State) : Prop where
  tokens_eq : tokens = (rs.take k).map (fun r => ptr + r.1) ++ List.replicate (k - rs.length) 0
  token_at : ∀ r ∈ rs.take k, StringAt s.mem (ptr + r.1) ((l.drop r.1).take (r.2 - r.1))
  kept : ∀ a, s.mem a ≠ m a → ∃ i, a = ptr + i ∧ ∃ c ∈ l[i]?, c ∈ ds

variable {m m' : Memory} {delimiters n i j k pos : ℕ} {l ds : List Byte} {rs : List (ℕ × ℕ)}
  {tokens : List ℕ} {s : State}

theorem calls_succ {ret : ℕ} {s' t : State} (hret : strtok n s 0 delimiters = some (ret, s'))
    (hcalls : calls n delimiters k 0 s' = some (tokens, t)) :
  calls n delimiters (k + 1) 0 s = some (ret :: tokens, t)
  := by
  rw [calls, hret, Option.bind_some, hcalls]
  rfl

/-- Calls with `NULL` when the variable is 0. -/
theorem calls_done (n delimiters k : ℕ) (hs : s.last_pos = 0) :
  calls n delimiters k 0 s = some (List.replicate k 0, s)
  := by
  induction k with
  | zero => rfl
  | succ k ih =>
      apply calls_succ _ ih
      rw [strtok, if_pos ⟨rfl, hs⟩]

/-- What is skipped is no token. -/
theorem not_inToken_skipped (hpos : pos ≤ k) (hk : k < pos + span ds true (l.drop pos)) :
  ¬ InToken ds l k
  := by
  rintro ⟨c, hc, hnot⟩
  have hk' : k - pos < span ds true (l.drop pos) := by omega
  obtain ⟨c', hc', hmem⟩ := mem_span hk'
  rw [List.getElem?_drop, Nat.add_sub_cancel' hpos] at hc'
  obtain rfl := Option.some.inj (hc.symm.trans hc')
  exact hnot (List.contains_iff_mem.mp hmem)

theorem not_inToken_of_length_le (hk : l.length ≤ k) :
  ¬ InToken ds l k
  := by
  rintro ⟨c, hc, -⟩
  rw [List.getElem?_eq_none hk] at hc
  cases hc

/-- What the loops go over is a maximal run. -/
theorem maximalRun_span (hpos : ∀ k, k + 1 = pos → ¬ InToken ds l k)
    (hi : i = pos + span ds true (l.drop pos)) (hlt : i < l.length)
    (hj : j = i + span ds false (l.drop i)) :
  MaximalRun (InToken ds l) i j
  := by
  have hafter : ∀ c ∈ l[j]?, c ∈ ds := by
    intro c hc
    rw [hj, ← List.getElem?_drop] at hc
    simpa using at_span hc
  refine ⟨?_, ?_, ?_, ?_⟩
  · by_contra hle
    obtain ⟨c, hc⟩ : ∃ c, c ∈ l[i]? := ⟨l[i], List.getElem?_eq_getElem hlt⟩
    obtain rfl : j = i := by omega
    have hin := hafter c hc
    rw [hi, ← List.getElem?_drop] at hc
    exact at_span hc (List.contains_iff_mem.mpr hin)
  · intro k hik hkj
    have hk : k - i < span ds false (l.drop i) := by omega
    obtain ⟨c, hc, hnot⟩ := mem_span hk
    rw [List.getElem?_drop, Nat.add_sub_cancel' hik] at hc
    exact ⟨c, hc, fun hin => absurd (List.contains_iff_mem.mpr hin) (Bool.eq_false_iff.mp hnot)⟩
  · intro k hk
    rcases Nat.lt_or_ge k pos with hlt | hle
    · exact hpos k (by omega)
    · exact not_inToken_skipped hle (by omega)
  · rintro ⟨c, hc, hnot⟩
    exact hnot (hafter c hc)

theorem Cuts.nothing (ds l : List Byte) (rs : List (ℕ × ℕ)) (ptr : ℕ) (s : State) :
  Cuts ds l rs ptr 0 s.mem [] s
  := by
  refine ⟨?_, ?_, ?_⟩
  · rw [List.take_zero, Nat.zero_sub]
    rfl
  · simp
  · intro a hne
    exact absurd rfl hne

theorem Cuts.nil (ds l : List Byte) (ptr k : ℕ) (s : State) :
  Cuts ds l [] ptr k s.mem (List.replicate k 0) s
  := by
  refine ⟨?_, ?_, ?_⟩
  · rw [List.take_nil]
    rfl
  · simp
  · intro a hne
    exact absurd rfl hne

/-- A call that returns a token, and the calls after it. -/
theorem Cuts.cons {ptr : ℕ} {t : State} (h : Cuts ds l rs ptr k m' tokens t)
    (htoken : StringAt t.mem (ptr + i) ((l.drop i).take (j - i)))
    (hkept : ∀ a, m' a ≠ m a → ∃ i, a = ptr + i ∧ ∃ c ∈ l[i]?, c ∈ ds) :
  Cuts ds l ((i, j) :: rs) ptr (k + 1) m ((ptr + i) :: tokens) t
  := by
  refine ⟨?_, ?_, ?_⟩
  · rw [h.tokens_eq, List.take_succ_cons, List.map_cons, List.length_cons, Nat.add_sub_add_right]
    rfl
  · rw [List.take_succ_cons, List.forall_mem_cons]
    exact ⟨htoken, h.token_at⟩
  · intro a hne
    by_cases heq : t.mem a = m' a
    · exact hkept a (heq ▸ hne)
    · exact h.kept a heq

/-- A call with `NULL` from a position of the string. -/
theorem strtok_from {ptr : ℕ} (hlast : s.last_pos = ptr + pos)
    (h : StringAt s.mem (ptr + pos) (l.drop pos)) (hds : StringAt s.mem delimiters ds)
    (hle : pos ≤ l.length) (hi : i = pos + span ds true (l.drop pos))
    (hj : j = i + span ds false (l.drop i)) (hn : l.length < n) (hn' : ds.length < n) :
  strtok n s 0 delimiters = some (
    if i = l.length then (0, { s with last_pos := 0 })
    else if j = l.length then (ptr + i, { s with last_pos := 0 })
    else (ptr + i, { mem := s.mem.set (ptr + j) 0, last_pos := ptr + j + 1 }))
  := by
  have hlen : (l.drop pos).length = l.length - pos := List.length_drop
  have hi' : ptr + pos + span ds true (l.drop pos) = ptr + i := by omega
  have hj' : ptr + pos + (span ds true (l.drop pos) + span ds false (l.drop i)) = ptr + j := by omega
  have hend : span ds true (l.drop pos) = l.length - pos ↔ i = l.length := by omega
  have hstop : span ds true (l.drop pos) + span ds false (l.drop i) = l.length - pos ↔
      j = l.length := by omega
  rw [← hlast] at h
  rw [strtok_null h hds (by omega) hn']
  dsimp only
  rw [List.drop_drop, ← hi, hlast, hi', hj', hlen]
  simp only [hend, hstop]

/-- The variable points to a position that is the beginning of the string or behind a delimiter. -/
structure StandsAt (ds l : List Byte) (delimiters ptr pos : ℕ) (s : State) : Prop where
  last_pos_eq : s.last_pos = ptr + pos
  le : pos ≤ l.length
  rest : StringAt s.mem (ptr + pos) (l.drop pos)
  delimiters_at : StringAt s.mem delimiters ds
  apart : ∀ i < l.length, ∀ k ≤ ds.length, delimiters + k ≠ ptr + i
  behind : ∀ k, k + 1 = pos → ¬ InToken ds l k

/-- The calls with `NULL` return the tokens `rs`, and change nothing before the position. -/
def CallsCut (ds l : List Byte) (rs : List (ℕ × ℕ)) (delimiters ptr pos : ℕ) (s : State) : Prop :=
  ∀ n k, l.length < n → ds.length < n →
    ∃ tokens t, calls n delimiters k 0 s = some (tokens, t) ∧ Cuts ds l rs ptr k s.mem tokens t ∧
      ∀ a < ptr + pos, t.mem a = s.mem a

theorem callsCut_done (ds l : List Byte) (delimiters ptr pos : ℕ) (hs : s.last_pos = 0) :
  CallsCut ds l [] delimiters ptr pos s
  := by
  intro n k _ _
  exact ⟨_, s, calls_done n delimiters k hs, Cuts.nil ds l ptr k s, fun _ _ => rfl⟩

/-- A first call that returns 0. -/
theorem callsCut_nil {ptr : ℕ}
    (hfirst : ∀ n, l.length < n → ds.length < n →
      strtok n s 0 delimiters = some (0, { s with last_pos := 0 })) :
  CallsCut ds l [] delimiters ptr pos s
  := by
  intro n k hn hn'
  cases k with
  | zero => exact ⟨[], s, rfl, Cuts.nil ds l ptr 0 s, fun _ _ => rfl⟩
  | succ k =>
      refine ⟨_, _, calls_succ (hfirst n hn hn') (calls_done n delimiters k rfl), ?_, ?_⟩
      · exact Cuts.nil ds l ptr (k + 1) { s with last_pos := 0 }
      · intro _ _
        rfl

/-- A first call that returns a token. -/
theorem callsCut_cons {ptr : ℕ} {s' : State} (hrest : CallsCut ds l rs delimiters ptr (j + 1) s')
    (hfirst : ∀ n, l.length < n → ds.length < n →
      strtok n s 0 delimiters = some (ptr + i, s'))
    (hstart : StringAt s.mem (ptr + i) (l.drop i)) (hpos : pos ≤ i) (hij : i ≤ j)
    (hj : j ≤ l.length) (hzero : s'.mem (ptr + j) = 0)
    (hkept : ∀ a, s'.mem a ≠ s.mem a → a = ptr + j ∧ ∃ c ∈ l[j]?, c ∈ ds) :
  CallsCut ds l ((i, j) :: rs) delimiters ptr pos s
  := by
  intro n k hn hn'
  cases k with
  | zero => exact ⟨[], s, rfl, Cuts.nothing ds l _ ptr s, fun _ _ => rfl⟩
  | succ k =>
      obtain ⟨tokens, t, hcalls, hcuts, hbelow⟩ := hrest n k hn hn'
      have hsame : ∀ a < ptr + j, t.mem a = s.mem a := by
        intro a ha
        rw [hbelow a (by omega)]
        by_contra hne
        have := (hkept a hne).1
        omega
      have hend : t.mem (ptr + j) = 0 := (hbelow (ptr + j) (by omega)).trans hzero
      have htoken := hstart.token hij hj hend fun a ha _ => hsame a ha
      refine ⟨_, t, calls_succ (hfirst n hn hn') hcalls, hcuts.cons htoken ?_, ?_⟩
      · intro a hne
        exact ⟨j, hkept a hne⟩
      · intro a ha
        exact hsame a (by omega)

/-- Behind a token comes a delimiter, unless the string ends there. -/
theorem delimiter_behind (hrun : MaximalRun (InToken ds l) i j) (hj : j < l.length) :
  ∃ c ∈ l[j]?, c ∈ ds
  := by
  refine ⟨l[j], List.getElem?_eq_getElem hj, ?_⟩
  by_contra hnot
  exact hrun.after ⟨l[j], List.getElem?_eq_getElem hj, hnot⟩

/-- A zero byte in the place of the delimiter leaves what is behind it as it is. -/
theorem StandsAt.cut {ptr : ℕ} (h : StandsAt ds l delimiters ptr pos s)
    (hrun : MaximalRun (InToken ds l) i j) (hpos : pos ≤ i) (hj : j < l.length) :
  StandsAt ds l delimiters ptr (j + 1) ⟨s.mem.set (ptr + j) 0, ptr + j + 1⟩
  := by
  have hij := hrun.lt
  refine ⟨Nat.add_assoc _ _ _, hj, ?_, ?_, h.apart, ?_⟩
  · apply (h.rest.forward (j := j + 1) (by omega) hj).congr
    intro k _
    exact Memory.set_of_ne _ _ (by omega)
  · apply h.delimiters_at.congr
    intro k hk
    exact Memory.set_of_ne _ _ (h.apart j hj k hk)
  · intro k hk
    obtain rfl : k = j := by omega
    exact hrun.after

/-- The calls with `NULL` return all tokens from the position on. -/
theorem StandsAt.calls_cut {ptr : ℕ} (h : StandsAt ds l delimiters ptr pos s) :
  ∃ rs, RunsFrom (InToken ds l) pos rs ∧ CallsCut ds l rs delimiters ptr pos s
  := by
  induction hrest : l.length - pos using Nat.strong_induction_on generalizing s pos with
  | _ rest ih =>
      obtain ⟨i, hi⟩ : ∃ i, i = pos + span ds true (l.drop pos) := ⟨_, rfl⟩
      obtain ⟨j, hj⟩ : ∃ j, j = i + span ds false (l.drop i) := ⟨_, rfl⟩
      have hle := h.le
      have hile := span_le ds true (l.drop pos)
      have hjle := span_le ds false (l.drop i)
      rw [List.length_drop] at hile hjle
      have hskip : ∀ k, pos ≤ k → k < i → ¬ InToken ds l k := by
        intro k hk hki
        exact not_inToken_skipped hk (hi ▸ hki)
      have hfirst := fun n => strtok_from (n := n) h.last_pos_eq h.rest h.delimiters_at hle hi hj
      by_cases hend : i = l.length
      · rw [if_pos hend] at hfirst
        refine ⟨[], RunsFrom.nil ?_, callsCut_nil hfirst⟩
        intro k hk
        rcases Nat.lt_or_ge k i with hlt | hge
        · exact hskip k hk hlt
        · exact not_inToken_of_length_le (hend ▸ hge)
      rw [if_neg hend] at hfirst
      have hrun := maximalRun_span h.behind hi (by omega) hj
      have hij := hrun.lt
      have hstart := h.rest.forward (j := i) (by omega) (by omega)
      by_cases hstop : j = l.length
      · -- The string ends with the token.
        rw [if_pos hstop] at hfirst
        have hnone : RunsFrom (InToken ds l) (j + 1) [] := by
          apply RunsFrom.nil
          intro k hk
          exact not_inToken_of_length_le (by omega)
        have hzero := (hstart.forward hij.le hstop.le).end_eq
        rw [hstop, List.drop_length, List.length_nil, Nat.add_zero, ← hstop] at hzero
        refine ⟨[(i, j)], hnone.cons hrun (by omega) hskip, ?_⟩
        apply callsCut_cons (callsCut_done ds l _ ptr _ rfl) hfirst hstart (by omega) hij.le hstop.le
        · exact hzero
        · intro a hne
          exact absurd rfl hne
      · rw [if_neg hstop] at hfirst
        have hjlt : j < l.length := by omega
        obtain ⟨rs, hrs, hcalls⟩ := ih _ (by omega) (h.cut hrun (by omega) hjlt) rfl
        refine ⟨(i, j) :: rs, hrs.cons hrun (by omega) hskip, ?_⟩
        apply callsCut_cons hcalls hfirst hstart (by omega) hij.le hjlt.le (if_pos rfl)
        intro a hne
        constructor
        · by_contra hother
          exact hne (Memory.set_of_ne _ _ hother)
        · exact delimiter_behind hrun hjlt

/-- Calls of `strtok`, the first with a string and the others with `NULL`, return the maximal runs
of characters that are no delimiters in order, each ended by a zero byte, and then 0 for ever; they
overwrite delimiters of the string only. -/
theorem strtok_tokens {ptr : ℕ} (h : StringAt m ptr l) (hds : StringAt m delimiters ds)
    (hapart : ∀ i < l.length, ∀ k ≤ ds.length, delimiters + k ≠ ptr + i) (last_pos : ℕ) :
  ∃ rs, RunsFrom (InToken ds l) 0 rs ∧ ∀ n k, l.length < n → ds.length < n →
    ∃ tokens t, calls n delimiters k ptr ⟨m, last_pos⟩ = some (tokens, t) ∧
      Cuts ds l rs ptr k m tokens t
  := by
  have hstart : StandsAt ds l delimiters ptr 0 ⟨m, ptr⟩ := by
    refine ⟨rfl, Nat.zero_le _, h, hds, hapart, ?_⟩
    intro k hk
    cases hk
  obtain ⟨rs, hrs, hcalls⟩ := hstart.calls_cut
  refine ⟨rs, hrs, ?_⟩
  intro n k hn hn'
  cases k with
  | zero => exact ⟨[], _, rfl, Cuts.nothing ds l rs ptr ⟨m, last_pos⟩⟩
  | succ k =>
      obtain ⟨tokens, t, heq, hcuts, -⟩ := hcalls n (k + 1) hn hn'
      refine ⟨tokens, t, ?_, hcuts⟩
      rw [← heq, calls, calls, strtok_str _ h.pos.ne']

/-- The set of a blank and a comma, and a string. -/
def sample : Memory := fun a =>
  if a < 64 then chars (ascii ", ab,,c") (a - 16) else chars (ascii " ,") (a - 64)

/-- The tokens are `ab` and `c`. -/
example : (calls 8 64 4 16 ⟨sample, 0⟩).map Prod.fst = some [18, 22, 0, 0] := by decide

theorem sample_at :
  StringAt sample 16 (ascii ", ab,,c") ∧ StringAt sample 64 (ascii " ,")
  := by
  refine ⟨⟨?_, ?_, ?_, ?_⟩, ⟨?_, ?_, ?_, ?_⟩⟩
  all_goals decide

theorem strtok_tokens_sample :
  ∃ rs, RunsFrom (InToken (ascii " ,") (ascii ", ab,,c")) 0 rs ∧ ∀ n k, 7 < n → 2 < n →
    ∃ tokens t, calls n 64 k 16 ⟨sample, 0⟩ = some (tokens, t) ∧
      Cuts (ascii " ,") (ascii ", ab,,c") rs 16 k sample tokens t
  := strtok_tokens sample_at.1 sample_at.2 (by decide) 0

end CString.InPlace
