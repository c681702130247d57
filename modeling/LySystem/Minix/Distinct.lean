import LySystem.Minix.Names

/-!
# What names denote

A name is compared byte by byte up to the end of the longer of two strings, whether it ends within
its field or not.  On a disk whose names all end, a new file is found under its name, and nothing
else changes for lookups, as long as the name is told from others by the bytes that are kept of it.
-/

namespace Minix

open CString

/-! ### Matching entries -/

/-- The entry is in use and has the name. -/
def Matches (buf : Memory) (name : List Byte) (i : ℕ) : Prop :=
  entryInode buf i ≠ 0 ∧ strcmp (entryName buf i) name = 0

instance (buf : Memory) (name : List Byte) (i : ℕ) : Decidable (Matches buf name i) :=
  inferInstanceAs (Decidable (_ ∧ _))

theorem findName_matches (buf : Memory) (name : List Byte) :
  findName buf name = Loop.firstSome (fun i => if Matches buf name i then some i else none) 0 16
  := rfl

theorem findName_congr_iff {buf buf' : Memory} {name name' : List Byte}
    (h : ∀ i < 16, Matches buf' name' i ↔ Matches buf name i) :
  findName buf' name' = findName buf name
  := by
  rw [findName_matches, findName_matches]
  apply Loop.firstSome_congr
  intro i _ hi
  simp only [h i (by omega)]

theorem findName_eq_none {buf : Memory} {name : List Byte} :
  findName buf name = none ↔ ∀ i < 16, ¬ Matches buf name i
  := by
  rw [findName_matches, Loop.firstSome_eq_none]
  constructor
  · intro h i hi hmatch
    have := h i (Nat.zero_le i) (by omega)
    rw [if_pos hmatch] at this
    cases this
  · intro h i _ hi
    exact if_neg (h i (by omega))

/-- When one entry only has the name, that is the one found. -/
theorem findName_eq_of_unique {buf : Memory} {name : List Byte} {i : ℕ} (hi : i < 16)
    (hmatch : Matches buf name i) (hothers : ∀ j < 16, j ≠ i → ¬ Matches buf name j) :
  findName buf name = some i
  := by
  cases hfound : findName buf name with
  | none => exact absurd hmatch (findName_eq_none.mp hfound i hi)
  | some j =>
      obtain ⟨hj, hmatch'⟩ := findName_eq_some hfound
      by_cases hne : j = i
      · rw [hne]
      · exact absurd hmatch' (hothers j hj hne)

theorem entryName_contents (d : Disk) (x : ℕ) (behind : List Byte) {i j : ℕ} (hi : i < 16)
    (hj : j < 30) :
  entryName (contents (d x) behind) i j = nameOf d x i j
  := by
  simp only [nameOf, entryName, Memory.drop]
  rw [contents_lt _ _ (by omega), contents_lt _ _ (by omega)]

/-- A name that ends is matched by what agrees with it in 30 bytes, whatever lies behind. -/
theorem matches_congr {d d' : Disk} {x y i : ℕ} {behind behind' name name' : List Byte} (hi : i < 16)
    (hok : entryOf d x i ≠ 0 → NameOk (nameOf d x i)) (hentry : entryOf d' y i = entryOf d x i)
    (hname : ∀ j < 30, nameOf d' y i j = nameOf d x i j)
    (hsame : ∀ j < 30, chars name' j = chars name j) :
  Matches (contents (d' y) behind') name' i ↔ Matches (contents (d x) behind) name i
  := by
  rw [entryOf, entryOf] at hentry
  rw [Matches, Matches, entryInode_contents (d' y) _ hi, entryInode_contents (d x) _ hi, hentry]
  apply and_congr_right
  intro hused
  obtain ⟨l, hl, -, hend, -⟩ := hok hused
  apply strcmp_congr_iff (n := 30) (k := l) _ hl _ hsame
  · rw [entryName_contents d x behind hi hl, hend]
  · intro j hj
    rw [entryName_contents d' y behind' hi hj, entryName_contents d x behind hi hj, hname j hj]

/-! ### Lookups -/

/-- The directory that a component of a path leads to. -/
def enter (d : Disk) (x : ℕ) (behind token : List Byte) : Option ℕ :=
  (findName (contents (d x) behind) token).bind fun i =>
    if isDirMode (modeOf d (entryOf d x i)) then some (zoneOf d (entryOf d x i) 0 * 2) else none

theorem run_descend (fuel x : ℕ) (token : List Byte) (s : State) :
  (run (FindSectorOfPathDir.descend (fuel + 1) x (some token)) s).1 =
    match enter s.disk x (s.stack 0) token with
    | none => 0
    | some y =>
        (run (FindSectorOfPathDir.descend fuel y (CString.strtok s.last_pos none (ascii "/")).1)
          ⟨s.disk, (CString.strtok s.last_pos none (ascii "/")).2, fun i => s.stack (i + 2)⟩).1
  := by
  simp only [FindSectorOfPathDir.descend, run_bind, run_read_buffer, enter]
  cases hfound : findName (contents (s.disk x) (s.stack 0)) token with
  | none => rfl
  | some i =>
      obtain ⟨hi, hused, -⟩ := findName_eq_some hfound
      have hentry : ∀ behind, entryInode (contents (s.disk x) behind) i = entryOf s.disk x i :=
        fun behind => entryInode_contents _ behind hi
      rw [hentry] at hused
      simp only [hentry, run_bind, run_GetInode, run_ite, run_pure, run_strtok,
        i_mode_record _ hused, i_zone_record _ hused, Option.bind_some]
      by_cases hdir : isDirMode (modeOf s.disk (entryOf s.disk x i)) = true
      · rw [if_pos hdir, if_pos hdir]
      · rw [if_neg hdir, if_neg hdir]

theorem LiveDir.enter {d : Disk} {x y : ℕ} {behind token : List Byte} (hx : LiveDir d x)
    (h : enter d x behind token = some y) :
  LiveDir d y
  := by
  obtain ⟨i, hfound, hdir⟩ := Option.bind_eq_some_iff.mp h
  obtain ⟨hi, hused, -⟩ := findName_eq_some hfound
  rw [entryInode_contents _ _ hi] at hused
  split_ifs at hdir with hmode
  obtain rfl := Option.some.inj hdir
  exact LiveDir.sub hx hi hused hmode

/-- On both disks the components of paths lead to the same directories, whatever surrounds the
lookups. -/
def SameWalks (d d' : Disk) : Prop :=
  ∀ x, LiveDir d x → ∀ behind behind' token, enter d' x behind' token = enter d x behind token

section

variable {d d' : Disk}

theorem SameWalks.descend (h : SameWalks d d') (fuel : ℕ) {x : ℕ} (token : Option (List Byte))
    (hx : LiveDir d x) {s t : State} (hs : s.disk = d) (ht : t.disk = d')
    (hlast : t.last_pos = s.last_pos) :
  (run (FindSectorOfPathDir.descend fuel x token) t).1 =
    (run (FindSectorOfPathDir.descend fuel x token) s).1
  := by
  induction fuel generalizing x token s t with
  | zero =>
      cases token with
      | none => rfl
      | some token => rfl
  | succ fuel ih =>
      cases token with
      | none => rfl
      | some token =>
          rw [run_descend, run_descend, hs, ht, h x hx (s.stack 0) (t.stack 0) token, hlast]
          cases hnext : enter d x (s.stack 0) token with
          | none => rfl
          | some y => exact ih _ (hx.enter hnext) rfl rfl rfl

theorem SameWalks.FindSectorOfPathDir (h : SameWalks d d') (path : List Byte) {s t : State}
    (hs : s.disk = d) (ht : t.disk = d') :
  (run (FindSectorOfPathDir path) t).1.1 = (run (FindSectorOfPathDir path) s).1.1
  := by
  rw [Minix.FindSectorOfPathDir]
  split
  · rfl
  · rfl
  · simp only [run_bind, run_strtok, run_pure]
    exact h.descend _ _ LiveDir.root hs ht rfl

end

theorem run_FindEntry (path : List Byte) (s : State) :
  let t := (run (FindSectorOfPathDir path) s).2
  let x := (run (FindSectorOfPathDir path) s).1.1
  (run (FindEntry path) s).1 =
    if x = 0 then 0
    else
      match findName (contents (s.disk x) (t.stack 1)) (fileName path ++ t.stack 0) with
      | none => 0
      | some i => entryOf s.disk x i
  := by
  have hdisk := (readOnly_FindSectorOfPathDir path).disk s
  simp only [FindEntry, findDirectory, run_bind, run_stack, run_pure, run_ite, run_read_buffer,
    hdisk, FindSectorOfPathDir_fileName]
  split_ifs
  · rfl
  · cases hfound : findName (contents (s.disk (run (FindSectorOfPathDir path) s).1.1)
        ((run (FindSectorOfPathDir path) s).2.stack 1))
        (fileName path ++ (run (FindSectorOfPathDir path) s).2.stack 0) with
    | none => rfl
    | some i =>
        obtain ⟨hi, -⟩ := findName_eq_some hfound
        exact entryInode_contents _ _ hi

theorem chars_append (l l' : List Byte) (j : ℕ) :
  chars (l ++ l') j = if j < l.length then chars l j else chars l' (j - l.length)
  := by
  rw [chars, chars, chars, List.getD_eq_getElem?_getD, List.getD_eq_getElem?_getD,
    List.getD_eq_getElem?_getD, List.getElem?_append]
  split_ifs <;> rfl

theorem chars_fileName_append (path behind : List Byte) {j : ℕ} (hj : j < 30) :
  chars (fileName path ++ behind) j = chars (lastComponent path) j
  := by
  rw [chars_append, length_fileName, if_pos hj, chars_fileName path hj]

/-- Where all names end, lookups do not depend on what surrounds them. -/
theorem WellNamed.sameWalks {d : Disk} (h : WellNamed d) :
  SameWalks d d
  := by
  intro x hx behind behind' token
  have hfind : findName (contents (d x) behind') token = findName (contents (d x) behind) token := by
    apply findName_congr_iff
    intro i hi
    exact matches_congr hi (h x i hx hi) rfl (fun _ _ => rfl) (fun _ _ => rfl)
  rw [enter, hfind, enter]

/-! ### A new entry -/

/-- The disk `d'` has a new entry `i` in the directory `x`, of the file `n`, with a name copied from
`filename`.  Lookups read nothing else that is not on `d`. -/
structure Enrolled (d d' : Disk) (x i n : ℕ) (filename : List Byte) : Prop where
  live : LiveDir d x
  slot : i < 16
  free : entryOf d x i = 0
  entry : entryOf d' x i = n
  used : n ≠ 0
  name : ∀ j < 30, nameOf d' x i j = strncpy (fun _ => 0) (chars filename) 30 j
  entries : ∀ y j, LiveDir d y → j < 16 → ¬ (y = x ∧ j = i) → entryOf d' y j = entryOf d y j
  names : ∀ y j, LiveDir d y → j < 16 → ¬ (y = x ∧ j = i) →
    ∀ k < 30, nameOf d' y j k = nameOf d y j k
  file : ¬ IsDir d' n
  dirs : ∀ m, Named d m → (IsDir d' m ↔ IsDir d m)
  zones : ∀ m, Named d m → IsDir d m → zoneOf d' m 0 = zoneOf d m 0

section

variable {d d' : Disk} {x i n : ℕ} {filename : List Byte}

theorem not_matches_free (h : entryOf d x i = 0) (hi : i < 16) (behind name : List Byte) :
  ¬ Matches (contents (d x) behind) name i
  := by
  rintro ⟨hused, -⟩
  rw [entryInode_contents _ _ hi] at hused
  exact hused h

theorem Enrolled.matches_other (h : Enrolled d d' x i n filename) (hd : WellNamed d) {y j : ℕ}
    (hy : LiveDir d y) (hj : j < 16) (hne : ¬ (y = x ∧ j = i)) (behind behind' : List Byte)
    {name name' : List Byte} (hsame : ∀ k < 30, chars name' k = chars name k) :
  Matches (contents (d' y) behind') name' j ↔ Matches (contents (d y) behind) name j
  := matches_congr hj (hd y j hy hj) (h.entries y j hy hj hne) (h.names y j hy hj hne) hsame

/-- Where the new entry has another name, the entry found is the same. -/
theorem Enrolled.findName_other (h : Enrolled d d' x i n filename) (hd : WellNamed d) {y : ℕ}
    (hy : LiveDir d y) {behind behind' name name' : List Byte}
    (hsame : ∀ k < 30, chars name' k = chars name k)
    (hnot : ¬ (y = x ∧ Matches (contents (d' x) behind') name' i)) :
  findName (contents (d' y) behind') name' = findName (contents (d y) behind) name
  := by
  apply findName_congr_iff
  intro j hj
  by_cases hself : y = x ∧ j = i
  · obtain ⟨rfl, rfl⟩ := hself
    exact iff_of_false (fun hmatch => hnot ⟨rfl, hmatch⟩) (not_matches_free h.free hj _ _)
  · exact h.matches_other hd hy hj hself _ _ hsame

/-- Where the new entry has the name, and no entry had it before, the new one is found. -/
theorem Enrolled.findName_new (h : Enrolled d d' x i n filename) (hd : WellNamed d)
    {behind behind' name name' : List Byte} (hsame : ∀ k < 30, chars name' k = chars name k)
    (hnone : findName (contents (d x) behind) name = none)
    (hmatch : Matches (contents (d' x) behind') name' i) :
  findName (contents (d' x) behind') name' = some i
  := by
  apply findName_eq_of_unique h.slot hmatch
  intro j hj hne hother
  apply findName_eq_none.mp hnone j hj
  exact (h.matches_other hd h.live hj (fun hself => hne hself.2) _ _ hsame).mp hother

/-- A name that the new entry has is that of no other entry. -/
theorem Enrolled.not_found (h : Enrolled d d' x i n filename) (hd : WellNamed d)
    {behind₀ behind behind' token : List Byte}
    (hnone : findName (contents (d x) behind₀) filename = none)
    (hmatch : Matches (contents (d' x) behind') token i) :
  findName (contents (d x) behind) token = none
  := by
  apply findName_eq_none.mpr
  intro j hj hold
  have hused : entryOf d x j ≠ 0 := by
    rw [entryOf, ← entryInode_contents _ behind hj]
    exact hold.1
  obtain ⟨l, hl, -, hend, -⟩ := hd x j h.live hj hused
  rw [← entryName_contents d x behind hj hl] at hend
  -- Up to its end the old name is the new one, and that is the file name.
  obtain ⟨e, he, hzero, hbefore, hagree⟩ := strcmp_agree hold.2 hmatch.2 hend
  have hnew : ∀ k ≤ e, strncpy (fun _ => 0) (chars filename) 30 k =
      entryName (contents (d x) behind) j k := by
    intro k hk
    rw [← h.name k (by omega), ← entryName_contents d' x behind' h.slot (by omega), hagree k hk]
  have hfilename : ∀ k ≤ e, chars filename k = entryName (contents (d x) behind) j k := by
    intro k hk
    rw [← hnew k hk]
    symm
    apply strncpy_agree (e := e) (by omega) _ hk
    intro k hk
    rw [hnew k hk.le]
    exact hbefore k hk
  have hsame : ∀ k ≤ e, entryName (contents (d x) behind₀) j k =
      entryName (contents (d x) behind) j k := by
    intro k hk
    rw [entryName_contents d x behind₀ hj (by omega), entryName_contents d x behind hj (by omega)]
  apply findName_eq_none.mp hnone j hj
  refine ⟨?_, strcmp_eq_zero_iff.mpr ⟨e, ?_, ?_, ?_⟩⟩
  · rw [entryInode_contents _ _ hj]
    exact hused
  · rw [hsame e le_rfl, hzero]
  · intro k hk
    rw [hsame k hk.le]
    exact hbefore k hk
  · intro k hk
    rw [hfilename k hk, hsame k hk]

/-- The new entry is that of a file, and leads nowhere. -/
theorem Enrolled.sameWalks (h : Enrolled d d' x i n filename) (hd : WellNamed d)
    {behind₀ : List Byte} (hnone : findName (contents (d x) behind₀) filename = none) :
  SameWalks d d'
  := by
  intro y hy behind behind' token
  by_cases hself : y = x ∧ Matches (contents (d' x) behind') token i
  · obtain ⟨rfl, hmatch⟩ := hself
    have hold : findName (contents (d y) behind) token = none := h.not_found hd hnone hmatch
    have hnew := h.findName_new hd (fun _ _ => rfl) hold hmatch
    have hfile : ¬ isDirMode (modeOf d' n) = true := h.file
    rw [enter, enter, hold, hnew, Option.bind_some, h.entry, Option.bind_none, if_neg hfile]
  · have hfind : findName (contents (d' y) behind') token = findName (contents (d y) behind) token :=
      h.findName_other hd hy (fun _ _ => rfl) hself
    rw [enter, enter, hfind]
    cases hfound : findName (contents (d y) behind) token with
    | none => rw [Option.bind_none, Option.bind_none]
    | some j =>
        obtain ⟨hj, hused, -⟩ := findName_eq_some hfound
        rw [entryInode_contents _ _ hj] at hused
        have hne : ¬ (y = x ∧ j = i) := by
          rintro ⟨rfl, rfl⟩
          exact hused h.free
        have hnamed : Named d (entryOf d y j) := ⟨hused, y, j, hy, hj, rfl⟩
        have hdirs : isDirMode (modeOf d' (entryOf d y j)) = true ↔
          isDirMode (modeOf d (entryOf d y j)) = true := h.dirs _ hnamed
        rw [Option.bind_some, Option.bind_some, h.entries y j hy hj hne]
        by_cases hdir : isDirMode (modeOf d (entryOf d y j)) = true
        · rw [if_pos hdir, if_pos (hdirs.mpr hdir), h.zones _ hnamed hdir]
        · rw [if_neg hdir, if_neg (fun hdir' => hdir (hdirs.mp hdir'))]

/-- The name copied, as far as it is kept. -/
theorem strncpy_filename {l : List Byte} (hl : 0 ∉ l)
    (hsame : ∀ j < 30, chars filename j = chars l j) {j : ℕ} (hj : j < 30) :
  strncpy (fun _ => 0) (chars filename) 30 j = chars l j
  := by
  rw [strncpy_apply _ _ hj]
  split_ifs with hcopied
  · exact hsame j hj
  · rw [lt_copied_iff, not_and] at hcopied
    obtain ⟨i, hi, hzero⟩ : ∃ i ≤ j, chars filename i = 0 := by simpa using hcopied hj
    rw [hsame i (by omega)] at hzero
    symm
    exact chars_of_length_le (((chars_eq_zero_iff hl).mp hzero).trans hi)

section

variable (h : Enrolled d d' x i n filename) {path : List Byte}
  (hfilename : ∀ j < 30, chars filename j = chars (lastComponent path) j)
include h hfilename

theorem Enrolled.name_chars (behind : List Byte) {j : ℕ} (hj : j < 30) :
  entryName (contents (d' x) behind) i j = chars (lastComponent path) j
  := by
  rw [entryName_contents _ _ _ h.slot hj, h.name j hj,
    strncpy_filename (lastComponent_spec path).1 hfilename hj]

/-- A name that ends is matched by itself only. -/
theorem Enrolled.matches_iff (hshort : (lastComponent path).length < 30) (behind : List Byte)
    (path' behind' : List Byte) :
  Matches (contents (d' x) behind) (fileName path' ++ behind') i ↔
    lastComponent path' = lastComponent path
  := by
  have hzero := (lastComponent_spec path).1
  have hend := h.name_chars hfilename behind hshort
  rw [chars_of_length_le le_rfl] at hend
  constructor
  · rintro ⟨-, hmatch⟩
    obtain ⟨e, he, hbefore, hagree⟩ := strcmp_eq_zero_iff.mp hmatch
    have hle : e ≤ (lastComponent path).length := by
      by_contra hlt
      exact hbefore _ (by omega) hend
    have hge : (lastComponent path).length ≤ e := by
      rw [h.name_chars hfilename behind (by omega)] at he
      exact (chars_eq_zero_iff hzero).mp he
    apply eq_of_chars hzero (lastComponent_spec path').1
    intro j hj
    rw [← chars_fileName_append path' behind' (by omega), hagree j (by omega),
      h.name_chars hfilename behind (by omega)]
  · intro heq
    refine ⟨?_, strcmp_eq_zero_iff.mpr ⟨_, hend, ?_, ?_⟩⟩
    · rw [entryInode_contents _ _ h.slot, ← entryOf, h.entry]
      exact h.used
    · intro j hj hzero'
      rw [h.name_chars hfilename behind (by omega)] at hzero'
      have := (chars_eq_zero_iff hzero).mp hzero'
      omega
    · intro j hj
      rw [chars_fileName_append path' behind' (by omega), heq,
        h.name_chars hfilename behind (by omega)]

/-- The new file is found under its name. -/
theorem Enrolled.resolves_new (hd : WellNamed d) (hshort : (lastComponent path).length < 30)
    (hsector : ∀ s : State, s.disk = d → (run (FindSectorOfPathDir path) s).1.1 = x) (hx0 : x ≠ 0)
    (hnone : ∀ behind behind', findName (contents (d x) behind) (fileName path ++ behind') = none)
    (hwalks : SameWalks d d') :
  Resolves d' path n
  := by
  intro v hv
  have hx := (hwalks.FindSectorOfPathDir path (s := State.ofDisk d) rfl hv).trans (hsector _ rfl)
  have hmatch := (h.matches_iff hfilename hshort ((run (FindSectorOfPathDir path) v).2.stack 1) path
    ((run (FindSectorOfPathDir path) v).2.stack 0)).mpr rfl
  have hfound := h.findName_new hd (fun _ _ => rfl) (hnone [] _) hmatch
  rw [run_FindEntry]
  simp only [hx, if_neg hx0, hv, hfound, h.entry]

/-- What other names denote is as before. -/
theorem Enrolled.resolves_other (hd : WellNamed d) (hshort : (lastComponent path).length < 30)
    (hwalks : SameWalks d d') {path' : List Byte}
    (hne : lastComponent path' ≠ lastComponent path) :
  ∃ m, Resolves d path' m ∧ Resolves d' path' m
  := by
  have hsame : ∀ u v : State, u.disk = d → v.disk = d' →
      (run (FindEntry path') v).1 = (run (FindEntry path') u).1 := by
    intro u v hu hv
    have hsector := hwalks.FindSectorOfPathDir path' hu hv
    rw [run_FindEntry, run_FindEntry]
    simp only [hsector, hu, hv]
    split_ifs with hroot
    · rfl
    · have hlive := (FindSectorOfPathDir_live path' u).resolve_left hroot
      rw [hu] at hlive
      have hnot : ¬ ((run (FindSectorOfPathDir path') u).1.1 = x ∧
          Matches (contents (d' x) ((run (FindSectorOfPathDir path') v).2.stack 1))
            (fileName path' ++ (run (FindSectorOfPathDir path') v).2.stack 0) i) :=
        fun hself => hne ((h.matches_iff hfilename hshort _ _ _).mp hself.2)
      have hchars : ∀ behind behind' : List Byte, ∀ k < 30,
          chars (fileName path' ++ behind') k = chars (fileName path' ++ behind) k := by
        intro behind behind' k hk
        rw [chars_fileName_append _ _ hk, chars_fileName_append _ _ hk]
      have hfind : findName (contents (d' (run (FindSectorOfPathDir path') u).1.1)
          ((run (FindSectorOfPathDir path') v).2.stack 1))
          (fileName path' ++ (run (FindSectorOfPathDir path') v).2.stack 0) =
          findName (contents (d (run (FindSectorOfPathDir path') u).1.1)
          ((run (FindSectorOfPathDir path') u).2.stack 1))
          (fileName path' ++ (run (FindSectorOfPathDir path') u).2.stack 0) :=
        h.findName_other hd hlive (hchars _ _) hnot
      rw [hfind]
      cases hfound : findName (contents (d (run (FindSectorOfPathDir path') u).1.1)
          ((run (FindSectorOfPathDir path') u).2.stack 1))
          (fileName path' ++ (run (FindSectorOfPathDir path') u).2.stack 0) with
      | none => rfl
      | some j =>
          obtain ⟨hj, hused, -⟩ := findName_eq_some hfound
          rw [entryInode_contents _ _ hj] at hused
          apply h.entries _ j hlive hj
          rintro ⟨hself, rfl⟩
          rw [hself] at hused
          exact hused h.free
  refine ⟨(run (FindEntry path') (State.ofDisk d)).1, ?_, ?_⟩
  · intro u hu
    rw [← hsame u (State.ofDisk d') hu rfl, hsame (State.ofDisk d) (State.ofDisk d') rfl rfl]
  · intro v hv
    exact hsame (State.ofDisk d) v rfl hv

end

end

end Minix
