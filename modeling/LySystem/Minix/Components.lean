import LySystem.Minix.Distinct

/-!
# Paths as lists of components

`FindSectorOfPathDir` cuts a copy of the path at its last slash and takes the part before it apart
with `strtok`, looking each token up before it asks for the next.  On a disk whose names all end,
this is a fold over the components of that part; how many slashes stand between the components, or
before the first, does not matter.
-/

namespace Minix

open CString Split

/-! ### Directories as tables of names -/

/-- The names of the entries in use end within their 30 bytes. -/
def NamesEnd (d : Disk) : Prop :=
  ∀ x i, LiveDir d x → i < 16 → entryOf d x i ≠ 0 → ∃ l < 30, nameOf d x i l = 0

/-- The characters of the name of an entry. -/
def nameText (d : Disk) (x i : ℕ) : List Byte := text (nameOf d x i) 30

/-- The first entry in use with the name. -/
def entryNamed (d : Disk) (x : ℕ) (name : List Byte) : Option ℕ :=
  (List.range 16).find? fun i => entryOf d x i ≠ 0 ∧ nameText d x i = name

/-- The directory that the first entry in use with the name leads to. -/
def lookup (d : Disk) (x : ℕ) (name : List Byte) : Option ℕ :=
  (entryNamed d x name).bind fun i =>
    if isDirMode (modeOf d (entryOf d x i)) then some (zoneOf d (entryOf d x i) 0 * 2) else none

/-- The components of a path before its last slash, looked up one in the directory of the other,
from the root directory on; 0 as soon as one leads nowhere. -/
def directoryOf (d : Disk) (path : List Byte) : ℕ :=
  ((pieces slash (beforeLast slash path)).foldlM (lookup d) ROOT_SECTOR).getD 0

theorem WellNamed.namesEnd {d : Disk} (h : WellNamed d) :
  NamesEnd d
  := by
  intro x i hx hi hused
  obtain ⟨l, hl, -, hend, -⟩ := h x i hx hi hused
  exact ⟨l, hl, hend⟩

/-- The entry found is the first that matches. -/
theorem findName_eq_find {buf : Memory} {name : List Byte} {p : ℕ → Bool}
    (h : ∀ i < 16, Matches buf name i ↔ p i) :
  findName buf name = (List.range 16).find? p
  := by
  rw [findName_matches]
  apply Option.ext
  intro i
  rw [Loop.firstSome_eq_some, List.find?_range_eq_some]
  constructor
  · rintro ⟨j, -, hj, hsome, hfirst⟩
    split_ifs at hsome with hmatch
    obtain rfl := Option.some.inj hsome
    refine ⟨(h j (by omega)).mp hmatch, List.mem_range.mpr (by omega), ?_⟩
    intro k hk
    have hnone := hfirst k (Nat.zero_le k) hk
    by_contra hp
    rw [if_pos ((h k (by omega)).mpr (by simpa using hp))] at hnone
    cases hnone
  · rintro ⟨hp, hi, hfirst⟩
    rw [List.mem_range] at hi
    refine ⟨i, Nat.zero_le i, by omega, if_pos ((h i hi).mpr hp), ?_⟩
    intro k _ hk
    apply if_neg
    intro hmatch
    have := hfirst k hk
    rw [(h k (by omega)).mp hmatch] at this
    cases this

/-- A name that ends is compared as the characters it has, with the first 30 of the file name. -/
theorem matches_iff {d : Disk} {x i : ℕ} {name filename : List Byte} (hi : i < 16)
    (hend : entryOf d x i ≠ 0 → ∃ l < 30, nameOf d x i l = 0) (hname : 0 ∉ name)
    (hsame : ∀ j < 30, chars filename j = chars name j) (behind : List Byte) :
  Matches (contents (d x) behind) filename i ↔ entryOf d x i ≠ 0 ∧ nameText d x i = name
  := by
  rw [Matches, entryInode_contents (d x) behind hi, ← entryOf]
  apply and_congr_right
  intro hused
  obtain ⟨l, hl, hzero⟩ := hend hused
  have hcompare : strcmp (entryName (contents (d x) behind) i) filename = 0 ↔
      strcmp (nameOf d x i) name = 0 := by
    apply strcmp_congr_iff hzero hl _ hsame
    intro j hj
    exact entryName_contents d x behind hi hj
  rw [hcompare, strcmp_eq_zero_iff_text hzero hl hname, nameText]

section

variable {d : Disk} (hnames : NamesEnd d) {x : ℕ} (hx : LiveDir d x) {name filename : List Byte}
  (hname : 0 ∉ name)
include hnames hx hname

theorem NamesEnd.findName (hsame : ∀ j < 30, chars filename j = chars name j)
    (behind : List Byte) :
  findName (contents (d x) behind) filename = entryNamed d x name
  := by
  apply findName_eq_find
  intro i hi
  rw [matches_iff hi (hnames x i hx hi) hname hsame behind, decide_eq_true_eq]

theorem NamesEnd.enter (behind : List Byte) :
  enter d x behind name = lookup d x name
  := by
  rw [Minix.enter, hnames.findName hx hname (fun _ _ => rfl) behind, lookup]

end

/-! ### The loop over the tokens -/

/-- The loop looks up the tokens to come. -/
theorem NamesEnd.descend {d : Disk} (hnames : NamesEnd d) {fuel x : ℕ}
    {token : Option (List Byte)} {s : State} (hs : s.disk = d) (hx : LiveDir d x)
    (hzero : ∀ l ∈ tokens slash (token, s.last_pos), 0 ∉ l)
    (hfuel : token.isSome → (s.last_pos.getD []).length < fuel) :
  (run (FindSectorOfPathDir.descend fuel x token) s).1 =
    ((tokens slash (token, s.last_pos)).foldlM (lookup d) x).getD 0
  := by
  induction fuel generalizing x token s with
  | zero =>
      cases token with
      | none => rfl
      | some token => exact absurd (hfuel rfl) (Nat.not_lt_zero _)
  | succ fuel ih =>
      cases token with
      | none => rfl
      | some token =>
          have htoken : 0 ∉ token := hzero token List.mem_cons_self
          rw [run_descend, hs, hnames.enter hx htoken, tokens, List.foldlM_cons]
          cases hnext : lookup d x token with
          | none => rfl
          | some y =>
              have hy : LiveDir d y := by
                rw [← hnames.enter hx htoken []] at hnext
                exact hx.enter hnext
              have htokens : tokens slash (CString.strtok s.last_pos none (ascii "/")) =
                  pieces slash (s.last_pos.getD []) := tokens_strtok slash s.last_pos none
              rw [← htokens]
              rw [tokens, ← htokens] at hzero
              apply ih rfl hy
              · intro l hl
                exact hzero l (List.mem_cons_of_mem _ hl)
              · intro hsome
                have hshorter := strtok_length_lt (c := slash) hsome
                have hrest := hfuel rfl
                rw [Option.none_or] at hshorter
                exact hshorter.trans_le (Nat.lt_succ_iff.mp hrest)

/-! ### Paths -/

/-- The pieces of a path without zero bytes have none. -/
theorem zero_notMem_pieces {l piece : List Byte} (h : 0 ∉ l) (hpiece : piece ∈ pieces slash l) :
  0 ∉ piece
  := fun hmem => h (mem_of_mem_pieces hpiece hmem)

section

variable {path : List Byte} (hzero : 0 ∉ path) (hlen : path.length < 256)
include hzero hlen

/-- The copy of the path is the whole path. -/
theorem temp_path_eq :
  text (chars path) 255 = path
  := by
  rw [text_eq_take hzero, List.take_of_length_le (by omega)]

theorem lastComponent_eq :
  lastComponent path = afterLast slash path
  := by
  rw [lastComponent, temp_path_eq hzero hlen]
  by_cases hmem : slash ∈ path
  · obtain ⟨l, r, rfl, hr⟩ := exists_last hmem
    simp only [strrchr_append hr, afterLast_append hr]
    rw [List.append_cons, List.drop_left' (by simp)]
  · rw [strrchr_of_notMem hmem, afterLast_of_notMem hmem]

/-- The bytes written to `out_filename`. -/
theorem fileName_eq (hlast : (afterLast slash path).length < 30) :
  fileName path = afterLast slash path ++ List.replicate (30 - (afterLast slash path).length) 0
  := by
  have hchars := fun j (hj : j < 30) => chars_fileName path hj
  have hlength := length_fileName path
  simp only [lastComponent_eq hzero hlen] at hchars
  apply List.ext_getElem
  · simp only [List.length_append, List.length_replicate]
    omega
  · intro j hj hj'
    have hchar := hchars j (by omega)
    rw [chars, chars, List.getD_eq_getElem?_getD, List.getElem?_eq_getElem hj] at hchar
    rw [List.getElem_append]
    split_ifs with hlt
    · rw [List.getD_eq_getElem?_getD, List.getElem?_eq_getElem hlt] at hchar
      exact hchar
    · rw [← chars, chars_of_length_le (by omega)] at hchar
      rw [List.getElem_replicate]
      exact hchar

variable {d : Disk} (hnames : NamesEnd d)
include hnames

theorem NamesEnd.FindSectorOfPathDir {s : State} (hs : s.disk = d) :
  (run (FindSectorOfPathDir path) s).1.1 = directoryOf d path
  := by
  rw [Minix.FindSectorOfPathDir, directoryOf, temp_path_eq hzero hlen, ← slash]
  by_cases hmem : slash ∈ path
  · obtain ⟨l, r, rfl, hr⟩ := exists_last hmem
    simp only [strrchr_append hr, beforeLast_append hr]
    cases l with
    | nil => rfl
    | cons c l =>
        have htake : (c :: l ++ slash :: r).take (l.length + 1) = c :: l := List.take_left' rfl
        have htokens : tokens slash (CString.strtok s.last_pos (some (c :: l)) (ascii "/")) =
            pieces slash (c :: l) := tokens_strtok slash s.last_pos (some (c :: l))
        have hpieces : ∀ piece ∈ pieces slash (c :: l), 0 ∉ piece :=
          fun piece => zero_notMem_pieces fun hmem => hzero (List.mem_append_left _ hmem)
        simp only [List.length_cons, run_bind, run_strtok, run_pure, htake]
        rw [← htokens] at hpieces ⊢
        exact hnames.descend hs LiveDir.root hpieces
          fun hsome => strtok_length_lt (c := slash) hsome
  · rw [strrchr_of_notMem hmem, beforeLast_of_notMem hmem]
    rfl

/-- The file itself is looked up in the same way. -/
theorem NamesEnd.FindEntry {s : State} (hs : s.disk = d) :
  (run (FindEntry path) s).1 =
    if directoryOf d path = 0 then 0
    else ((entryNamed d (directoryOf d path) (afterLast slash path)).map
      (entryOf d (directoryOf d path))).getD 0
  := by
  have hsector := hnames.FindSectorOfPathDir hzero hlen hs
  have hname : 0 ∉ afterLast slash path := by
    rw [← lastComponent_eq hzero hlen]
    exact (lastComponent_spec path).1
  have hsame : ∀ behind : List Byte, ∀ j < 30,
      chars (fileName path ++ behind) j = chars (afterLast slash path) j := by
    intro behind j hj
    rw [chars_fileName_append path behind hj, lastComponent_eq hzero hlen]
  have hlive := FindSectorOfPathDir_live path s
  rw [hsector, hs] at hlive
  rw [run_FindEntry]
  simp only [hsector, hs]
  by_cases hroot : directoryOf d path = 0
  · rw [if_pos hroot, if_pos hroot]
  · rw [if_neg hroot, if_neg hroot,
      hnames.findName (hlive.resolve_left hroot) hname (hsame _)]
    cases entryNamed d (directoryOf d path) (afterLast slash path) with
    | none => rfl
    | some i => rfl

end

/-- A path leads to the directory its components lead to one after the other, and is stored with
what follows its last slash; slashes at the beginning or next to others do not matter. -/
theorem path_components {d : Disk} (hnames : NamesEnd d) {path : List Byte} (hzero : 0 ∉ path)
    (hlen : path.length < 256) (hlast : (afterLast slash path).length < 30) {s : State}
    (hs : s.disk = d) :
  (run (FindSectorOfPathDir path) s).1 =
      (directoryOf d path,
        afterLast slash path ++ List.replicate (30 - (afterLast slash path).length) 0) ∧
    ∀ path', SameUpTo slash path path' → path'.length < 256 → ∀ t : State, t.disk = d →
      (run (FindSectorOfPathDir path') t).1 = (run (FindSectorOfPathDir path) s).1 ∧
        (run (FindEntry path') t).1 = (run (FindEntry path) s).1
  := by
  have hspec : ∀ path, 0 ∉ path → path.length < 256 → (afterLast slash path).length < 30 →
      ∀ s : State, s.disk = d → (run (FindSectorOfPathDir path) s).1 = (directoryOf d path,
        afterLast slash path ++ List.replicate (30 - (afterLast slash path).length) 0) := by
    intro path hzero hlen hlast s hs
    apply Prod.ext
    · exact hnames.FindSectorOfPathDir hzero hlen hs
    · rw [FindSectorOfPathDir_fileName, fileName_eq hzero hlen hlast]
  refine ⟨hspec path hzero hlen hlast s hs, ?_⟩
  intro path' hsame hlen' t ht
  have hzero' : 0 ∉ path' := fun hmem => hzero ((hsame.mem_iff (by decide)).mpr hmem)
  have hafter := hsame.afterLast
  have hdirectory : directoryOf d path' = directoryOf d path := by
    rw [directoryOf, directoryOf, hsame.pieces_beforeLast]
  have hlast' : (afterLast slash path').length < 30 := hafter ▸ hlast
  constructor
  · rw [hspec path hzero hlen hlast s hs, hspec path' hzero' hlen' hlast' t ht, hdirectory, hafter]
  · rw [hnames.FindEntry hzero hlen hs, hnames.FindEntry hzero' hlen' ht, hdirectory,
      hafter]

/-- The paths `./x` and `//.///x` on the empty disk. -/
theorem path_components_dot :
  NamesEnd emptyDisk ∧ directoryOf emptyDisk (ascii "./x") = ROOT_SECTOR ∧
    (run (FindSectorOfPathDir (ascii "./x")) (State.ofDisk emptyDisk)).1 =
      (directoryOf emptyDisk (ascii "./x"), ascii "x" ++ List.replicate 29 0) ∧
    (run (FindSectorOfPathDir (ascii "//.///x")) (State.ofDisk emptyDisk)).1 =
      (run (FindSectorOfPathDir (ascii "./x")) (State.ofDisk emptyDisk)).1
  := by
  have hnames := emptyDisk_wellNamed.namesEnd
  have hsame : SameUpTo slash (ascii "./x") (ascii "//.///x") :=
    .symm _ _ (.trans _ _ _ (.rel _ _ (.leading _)) (.trans _ _ _ (.rel _ _ (.leading _))
      (.trans _ _ _ (.rel _ _ (.repeated (ascii ".") (ascii "/x")))
        (.rel _ _ (.repeated (ascii ".") (ascii "x"))))))
  obtain ⟨hpath, halike⟩ := @path_components emptyDisk hnames (ascii "./x") (by decide) (by decide)
    (by decide) (State.ofDisk emptyDisk) rfl
  exact ⟨hnames, by decide +kernel, hpath, (halike _ hsame (by decide) _ rfl).1⟩

end Minix
