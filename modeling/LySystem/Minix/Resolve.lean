import LySystem.Minix.Lookup

/-!
# What a path resolves to

A lookup compares names that need not end with what lies behind them, at the end of a sector
with what lies behind the buffer.  When every component of a path is shorter than a name this
is never looked at, and what the path resolves to is a property of the disk.
-/

namespace Minix

open CString

/-- Whatever surrounds the lookup, it finds the inode `n`. -/
def Resolves (d : Disk) (path : List Byte) (n : ℕ) : Prop :=
  ∀ s : State, s.disk = d → (run (FindEntry path) s).1 = n

theorem Resolves.named {d : Disk} {path : List Byte} {n : ℕ} (h : Resolves d path n) (hn : n ≠ 0) :
  Named d n
  := by
  obtain rfl := h (State.ofDisk d) rfl
  apply FindEntry_named hn

theorem Resolves.of_sameTree {d d' : Disk} {path : List Byte} {n : ℕ} (h : Resolves d path n)
    (ht : SameTree d d') :
  Resolves d' path n
  := by
  intro t hdisk
  have hsame := SameTree.FindEntry (s := { t with disk := d }) ht path
  have hbefore := h { t with disk := d } rfl
  obtain ⟨disk, last_pos, stack⟩ := t
  subst hdisk
  exact (congrArg Prod.fst hsame).trans hbefore

/-! ### Short components -/

/-- The character `/`. -/
def slash : Byte := BitVec.ofNat 8 '/'.toNat

/-- No component of the path is longer than 29 characters. -/
def ShortComponents (path : List Byte) : Prop :=
  ∀ l, l <:+: path → slash ∉ l → l.length < 30

theorem findName_congr (x : Sector) (behind behind' : List Byte) {name name' : List Byte}
    (h : ∀ i < 16, strcmp (entryName (contents x behind) i) name =
      strcmp (entryName (contents x behind') i) name') :
  findName (contents x behind) name = findName (contents x behind') name'
  := by
  apply Loop.firstSome_congr
  intro i _ hi
  rw [Nat.zero_add] at hi
  rw [h i hi, entryInode_contents _ behind hi, entryInode_contents _ behind' hi]

section

variable {path : List Byte} (hshort : ShortComponents path)
include hshort

/-- The tokens of a path are short. -/
theorem token_short {last_pos str last_pos' : Option (List Byte)} {token : List Byte}
    (h : CString.strtok last_pos str (ascii "/") = (some token, last_pos'))
    (hpos : ∀ pos, str.or last_pos = some pos → pos <:+: path) :
  token.length < 30 ∧ ∀ rest ∈ last_pos', rest <:+: path
  := by
  obtain ⟨pos, hsome, htoken, hslash, hrest⟩ := strtok_eq_some h
  have hinfix := hpos pos hsome
  constructor
  · apply hshort token (htoken.trans hinfix)
    intro hmem
    apply hslash slash hmem
    decide
  · intro rest hmem
    apply (hrest rest hmem).1.trans hinfix

theorem descend_congr (fuel : ℕ) (x : ℕ) (token : Option (List Byte)) {s t : State}
    (hdisk : s.disk = t.disk) (hlast : s.last_pos = t.last_pos)
    (htoken : ∀ name ∈ token, name.length < 30) (hpos : ∀ pos ∈ t.last_pos, pos <:+: path) :
  (run (FindSectorOfPathDir.descend fuel x token) s).1 =
    (run (FindSectorOfPathDir.descend fuel x token) t).1
  := by
  induction fuel generalizing x token s t with
  | zero =>
      cases token with
      | none => rfl
      | some name => rfl
  | succ fuel ih =>
      cases token with
      | none => rfl
      | some name =>
          have hname := htoken name rfl
          have hfind : findName (contents (t.disk x) (s.stack 0)) name =
              findName (contents (t.disk x) (t.stack 0)) name := by
            apply findName_congr
            intro i hi
            apply strcmp_entryName _ _ _ hi (Or.inl hname)
          simp only [FindSectorOfPathDir.descend, run_bind, run_read_buffer, hdisk, hfind]
          cases hfound : findName (contents (t.disk x) (t.stack 0)) name with
          | none => rfl
          | some i =>
              obtain ⟨hi, hused, -⟩ := findName_eq_some hfound
              rw [entryInode_contents _ _ hi] at hused
              simp only [entryInode_contents _ _ hi, run_bind, run_GetInode, run_ite,
                i_mode_record _ hused, i_zone_record _ hused, run_strtok, run_pure, hlast,
                apply_ite Prod.fst]
              split_ifs
              · cases hnext : CString.strtok t.last_pos none (ascii "/") with
                | mk token last_pos =>
                    apply ih
                    · rfl
                    · rfl
                    · rintro name' rfl
                      apply (token_short hshort hnext hpos).1
                    · rintro rest rfl
                      cases token with
                      | none => cases strtok_eq_none hnext
                      | some name' => apply (token_short hshort hnext hpos).2 rest rfl
              · rfl

/-- The directory of a path does not depend on what surrounds the lookup. -/
theorem FindSectorOfPathDir_congr {s t : State} (hdisk : s.disk = t.disk) :
  (run (FindSectorOfPathDir path) s).1 = (run (FindSectorOfPathDir path) t).1
  := by
  rw [FindSectorOfPathDir]
  split
  · rfl
  · rfl
  · next last_slash _ _ =>
      simp only [run_bind, run_strtok, run_pure]
      have hinfix : (text (chars path) 255).take last_slash <:+: path :=
        (List.IsPrefix.trans ( List.take_prefix _ _) (text_isPrefix path 255)).isInfix
      have hor : ∀ last_pos pos,
          (some ((text (chars path) 255).take last_slash)).or last_pos = some pos →
            pos <:+: path := by
        rintro last_pos pos h
        obtain rfl := Option.some.inj h
        apply hinfix
      have hfirst : CString.strtok s.last_pos (some ((text (chars path) 255).take last_slash))
          (ascii "/") = CString.strtok t.last_pos
            (some ((text (chars path) 255).take last_slash)) (ascii "/") := rfl
      rw [hfirst]
      cases hnext : CString.strtok t.last_pos (some ((text (chars path) 255).take last_slash))
          (ascii "/") with
      | mk token last_pos =>
          simp only
          rw [descend_congr hshort last_slash ROOT_SECTOR token
            (s := ⟨s.disk, last_pos, s.stack⟩) (t := ⟨t.disk, last_pos, t.stack⟩) hdisk rfl]
          · rintro name rfl
            apply (token_short hshort hnext (hor t.last_pos)).1
          · rintro rest rfl
            cases token with
            | none => cases strtok_eq_none hnext
            | some name => apply (token_short hshort hnext (hor t.last_pos)).2 rest rfl

/-- The file name ends within the 30 bytes written. -/
theorem FindSectorOfPathDir_name (s : State) :
  0 ∈ (run (FindSectorOfPathDir path) s).1.2 ∧
    (run (FindSectorOfPathDir path) s).1.2.length = 30
  := by
  have htext := text_isPrefix path 255
  have hlen := length_text (chars path) 255
  rw [FindSectorOfPathDir]
  split
  · next hnone =>
      have hlt := hshort _ htext.isInfix (strrchr_eq_none hnone)
      have hzero := zero_of_copied_lt (show copied (chars path) 255 < 255 by omega)
      use zero_mem_field hzero (by omega)
      simp [field]
  · next hfirst =>
      obtain ⟨hpos, hslash⟩ := strrchr_eq_some hfirst
      have hlt := hshort _ ((List.drop_suffix _ _).isInfix.trans htext.isInfix) hslash
      rw [List.length_drop] at hlt
      have hzero := zero_of_copied_lt (show copied (chars path) 255 < 255 by omega)
      have hdrop : chars (path.drop 1) (copied (chars path) 255 - 1) = 0 := by
        rw [← hzero, chars, chars, List.getD_eq_getElem?_getD, List.getD_eq_getElem?_getD,
          List.getElem?_drop]
        congr 2
        omega
      use zero_mem_field hdrop (by omega)
      simp [field]
  · next last_slash _ hsome =>
      obtain ⟨hpos, hslash⟩ := strrchr_eq_some hsome
      have hlt := hshort _ ((List.drop_suffix _ _).isInfix.trans htext.isInfix) hslash
      simp only [run_bind, run_strtok, run_pure]
      constructor
      · apply zero_mem_field _ hlt
        simp [chars]
      · simp [field]

theorem FindEntry_congr {s t : State} (hdisk : s.disk = t.disk) :
  (run (FindEntry path) s).1 = (run (FindEntry path) t).1
  := by
  have hdir := FindSectorOfPathDir_congr hshort hdisk
  have hs := (readOnly_findDirectory path).disk s
  have ht := (readOnly_findDirectory path).disk t
  obtain ⟨hzero, hlen⟩ := FindSectorOfPathDir_name hshort t
  have hname : ∀ u, (run (findDirectory path) u).1 =
      ((run (FindSectorOfPathDir path) u).1.1, (run (FindSectorOfPathDir path) u).1.2 ++
        (run (FindSectorOfPathDir path) u).2.stack 0) := by
    intro u
    simp [findDirectory]
  have hfind : ∀ x b b', findName (contents x b)
      ((run (FindSectorOfPathDir path) t).1.2 ++ (run (FindSectorOfPathDir path) s).2.stack 0) =
      findName (contents x b') ((run (FindSectorOfPathDir path) t).1.2 ++
        (run (FindSectorOfPathDir path) t).2.stack 0) := by
    intro x b b'
    apply findName_congr
    intro i hi
    rw [strcmp_append hzero, strcmp_append hzero]
    apply strcmp_entryName _ _ _ hi
    right
    rwa [List.take_of_length_le hlen.le]
  simp only [FindEntry, run_bind, run_ite, run_pure, run_read_buffer, hs, ht, hname, hdir, hdisk]
  split_ifs with hroot
  · rfl
  · rw [hfind _ _ ((run (findDirectory path) t).2.stack 0)]
    cases hfound : findName (contents (t.disk (run (FindSectorOfPathDir path) t).1.1)
        ((run (findDirectory path) t).2.stack 0)) ((run (FindSectorOfPathDir path) t).1.2 ++
          (run (FindSectorOfPathDir path) t).2.stack 0) with
    | none => rfl
    | some i =>
        obtain ⟨hi, -⟩ := findName_eq_some hfound
        simp only [run_pure]
        rw [entryInode_contents _ ((run (findDirectory path) s).2.stack 0) hi,
          entryInode_contents _ ((run (findDirectory path) t).2.stack 0) hi]

/-- A path with short components resolves to what one lookup finds. -/
theorem resolves_of_short {s : State} :
  Resolves s.disk path (run (FindEntry path) s).1
  := fun _ ht => FindEntry_congr hshort ht

end

end Minix
