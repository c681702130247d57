import LySystem.Minix.Record

/-!
# Looking up paths

Lookups read the directories that can be reached from the root directory, and of the inodes
their entries name the mode and, of directories, the first zone.  They write nothing, and two
disks that agree on all this are told apart by no lookup.
-/

namespace Minix

open CString

/-! ### What lookups read -/

/-- The inode number of an entry of a directory. -/
def entryOf (d : Disk) (x i : ℕ) : ℕ := entryInode (contents (d x) []) i

def sizeOf (d : Disk) (n : ℕ) : ℕ := i_size (contents (d (inodeSector n)) []) (inodeOffset n)

def zoneOf (d : Disk) (n z : ℕ) : ℕ := i_zone (contents (d (inodeSector n)) []) (inodeOffset n) z

/-- The inode is that of a directory. -/
def IsDir (d : Disk) (n : ℕ) : Prop := isDirMode (modeOf d n) = true

/-- The sectors of the directories: the root directory, and the first zone of each directory
that an entry of one of them names. -/
inductive LiveDir (d : Disk) : ℕ → Prop
  | root : LiveDir d ROOT_SECTOR
  | sub {x i : ℕ} :
      LiveDir d x → i < 16 → entryOf d x i ≠ 0 → IsDir d (entryOf d x i) →
        LiveDir d (zoneOf d (entryOf d x i) 0 * 2)

/-- An entry in use of a directory names the inode `n`. -/
def Named (d : Disk) (n : ℕ) : Prop :=
  n ≠ 0 ∧ ∃ x i, LiveDir d x ∧ i < 16 ∧ entryOf d x i = n

theorem LiveDir.of_named {d : Disk} {n : ℕ} (h : Named d n) (hdir : IsDir d n) :
  LiveDir d (zoneOf d n 0 * 2)
  := by
  obtain ⟨hne, x, i, hx, hi, rfl⟩ := h
  apply LiveDir.sub hx hi hne hdir

theorem entryInode_contents (x : Sector) (behind : List Byte) {i : ℕ} (hi : i < 16) :
  entryInode (contents x behind) i = entryInode (contents x []) i
  := load_contents x behind [] (by omega)

/-- The fields of an inode read from the disk. -/
theorem load_record (d : Disk) {n : ℕ} (hn : n ≠ 0) (behind : List Byte) {k j : ℕ}
    (h : k + j ≤ 32) :
  (record d n behind).fields.load k j =
    (contents (d (inodeSector n)) []).load (inodeOffset n + k) j
  := by
  have hoff := inodeOffset_le hn
  apply Memory.load_congr
  intro i hi
  rw [Inode.fields_of_lt _ (by omega), record, contents_lt _ _ (by simp only; omega),
    contents_lt _ _ (by omega)]
  congr 2
  exact (Nat.add_assoc _ _ _).symm

section

variable (d : Disk) {n : ℕ} (hn : n ≠ 0) (behind : List Byte)
include hn

theorem i_mode_record :
  i_mode (record d n behind).fields 0 = modeOf d n
  := load_record d hn behind (by decide)

theorem i_size_record :
  i_size (record d n behind).fields 0 = sizeOf d n
  := load_record d hn behind (by decide)

theorem i_zone_record :
  i_zone (record d n behind).fields 0 0 = zoneOf d n 0
  := load_record d hn behind (by decide)

end

theorem findName_eq_some {buf : Memory} {name : List Byte} {i : ℕ}
    (h : findName buf name = some i) :
  i < 16 ∧ entryInode buf i ≠ 0 ∧ strcmp (entryName buf i) name = 0
  := by
  obtain ⟨j, -, hj, hsome, -⟩ := Loop.firstSome_eq_some.mp h
  split_ifs at hsome with hcond
  obtain rfl := Option.some.inj hsome
  exact ⟨by omega, hcond⟩

theorem findInode_eq_some {buf : Memory} {p : ℕ → Bool} {i : ℕ} (h : findInode buf p = some i) :
  i < 16 ∧ p (entryInode buf i) ∧ ∀ j < i, ¬ p (entryInode buf j)
  := by
  obtain ⟨j, -, hj, hsome, hfirst⟩ := Loop.firstSome_eq_some.mp h
  split_ifs at hsome with hcond
  obtain rfl := Option.some.inj hsome
  refine ⟨by omega, hcond, ?_⟩
  intro k hk hp
  have := hfirst k (Nat.zero_le k) hk
  rw [if_pos hp] at this
  cases this

theorem findInode_zero {buf : Memory} {p : ℕ → Bool} (h : p (entryInode buf 0)) :
  findInode buf p = some 0
  := by
  rw [findInode, Loop.firstSome, if_pos h]

/-! ### Lookups write nothing -/

@[simp]
theorem run_strtok (str : Option (List Byte)) (s : State) :
  run (strtok str) s =
    ((CString.strtok s.last_pos str (ascii "/")).1,
      { s with last_pos := (CString.strtok s.last_pos str (ascii "/")).2 })
  := rfl

theorem readOnly_GetInode (n : ℕ) :
  ReadOnly (minix_GetInode n)
  := (readOnly_read_buffer _).bind fun _ => ReadOnly.pure _

theorem readOnly_descend (fuel x : ℕ) (token : Option (List Byte)) :
  ReadOnly (FindSectorOfPathDir.descend fuel x token)
  := by
  induction fuel generalizing x token with
  | zero =>
      cases token with
      | none => apply ReadOnly.pure
      | some token => apply ReadOnly.pure
  | succ fuel ih =>
      cases token with
      | none => apply ReadOnly.pure
      | some token =>
          rw [FindSectorOfPathDir.descend]
          apply (readOnly_read_buffer x).bind
          intro buf
          cases findName buf token with
          | none => apply ReadOnly.pure
          | some i =>
              apply (readOnly_GetInode _).bind
              intro inode
              apply ReadOnly.ite _ (ReadOnly.pure _)
              apply (readOnly_strtok none).bind
              apply ih

theorem readOnly_FindSectorOfPathDir (path : List Byte) :
  ReadOnly (FindSectorOfPathDir path)
  := by
  rw [FindSectorOfPathDir]
  split
  · apply ReadOnly.pure
  · apply ReadOnly.pure
  · apply (readOnly_strtok _).bind
    intro token
    apply (readOnly_descend _ _ token).bind
    intro x
    apply ReadOnly.pure

theorem readOnly_findDirectory (path : List Byte) :
  ReadOnly (findDirectory path)
  := (readOnly_FindSectorOfPathDir path).bind fun _ => readOnly_stack.bind fun _ => ReadOnly.pure _

theorem readOnly_FindEntry (name : List Byte) :
  ReadOnly (FindEntry name)
  := by
  apply (readOnly_findDirectory name).bind
  rintro ⟨dir_sector, filename⟩
  apply ReadOnly.ite (ReadOnly.pure _)
  apply (readOnly_read_buffer _).bind
  intro buf
  cases findName buf filename with
  | none => apply ReadOnly.pure
  | some i => apply ReadOnly.pure

/-! ### What lookups find -/

theorem descend_live (fuel : ℕ) {x : ℕ} (token : Option (List Byte)) (s : State)
    (hx : LiveDir s.disk x) :
  (run (FindSectorOfPathDir.descend fuel x token) s).1 = 0 ∨
    LiveDir s.disk (run (FindSectorOfPathDir.descend fuel x token) s).1
  := by
  induction fuel generalizing x token s with
  | zero =>
      cases token with
      | none => right; apply hx
      | some token => left; rfl
  | succ fuel ih =>
      cases token with
      | none => right; apply hx
      | some token =>
          simp only [FindSectorOfPathDir.descend, run_bind, run_read_buffer]
          cases hfind : findName (contents (s.disk x) (s.stack 0)) token with
          | none => left; rfl
          | some i =>
              obtain ⟨hi, hused, -⟩ := findName_eq_some hfind
              rw [entryInode_contents _ _ hi] at hused
              simp only [entryInode_contents _ _ hi, run_bind, run_GetInode, run_ite,
                i_mode_record _ hused,
                i_zone_record _ hused, run_strtok, run_pure]
              split_ifs with hdir
              · apply ih
                apply LiveDir.sub hx hi hused hdir
              · left; rfl

/-- The directory found is one of the directories. -/
theorem FindSectorOfPathDir_live (path : List Byte) (s : State) :
  (run (FindSectorOfPathDir path) s).1.1 = 0 ∨
    LiveDir s.disk (run (FindSectorOfPathDir path) s).1.1
  := by
  rw [FindSectorOfPathDir]
  split
  · right; apply LiveDir.root
  · right; apply LiveDir.root
  · simp only [run_bind, run_strtok, run_pure]
    apply descend_live _ _ _ LiveDir.root

@[simp]
theorem findDirectory_fst (path : List Byte) (s : State) :
  (run (findDirectory path) s).1.1 = (run (FindSectorOfPathDir path) s).1.1
  := by
  simp [findDirectory]

theorem findDirectory_live {path : List Byte} {s : State}
    (h : (run (findDirectory path) s).1.1 ≠ 0) :
  LiveDir s.disk (run (findDirectory path) s).1.1
  := by
  rw [findDirectory_fst] at h ⊢
  apply (FindSectorOfPathDir_live path s).resolve_left h

/-! ### Names -/

/-- A name is compared without a look behind the buffer. -/
theorem strcmp_entryName (x : Sector) (behind behind' : List Byte) {i : ℕ} (hi : i < 16)
    {name : List Byte} (h : name.length < 30 ∨ 0 ∈ name.take 30) :
  strcmp (entryName (contents x behind) i) name = strcmp (entryName (contents x behind') i) name
  := by
  apply strcmp_congr h
  intro j hj
  simp only [entryName, Memory.drop]
  rw [contents_lt _ _ (by omega), contents_lt _ _ (by omega)]

/-- The entry has the name `.` or `..`. -/
def IsDots (d : Disk) (x i : ℕ) : Prop :=
  strcmp (entryName (contents (d x) []) i) (ascii ".") = 0 ∨
    strcmp (entryName (contents (d x) []) i) (ascii "..") = 0

/-- An entry found under another name has another name. -/
theorem not_isDots {d : Disk} {x i : ℕ} {behind filename : List Byte} (hi : i < 16)
    (hname : strcmp (entryName (contents (d x) behind) i) filename = 0)
    (hdots : ¬ (strcmp (chars filename) (ascii ".") = 0 ∨
      strcmp (chars filename) (ascii "..") = 0)) :
  ¬ IsDots d x i
  := by
  have hsame : ∀ name : List Byte, name.length < 30 →
      strcmp (chars filename) name = strcmp (entryName (contents (d x) []) i) name :=
    fun name hlen => (strcmp_chars hname name).trans (strcmp_entryName _ _ _ hi (Or.inl hlen))
  rw [hsame (ascii ".") (by decide), hsame (ascii "..") (by decide)] at hdots
  apply hdots

/-- The file name of a path does not depend on the disk. -/
theorem FindSectorOfPathDir_snd (path : List Byte) (s t : State) :
  (run (FindSectorOfPathDir path) s).1.2 = (run (FindSectorOfPathDir path) t).1.2
  := by
  rw [FindSectorOfPathDir]
  split
  · rfl
  · rfl
  · simp only [run_bind, run_pure]

theorem length_FindSectorOfPathDir (path : List Byte) (s : State) :
  (run (FindSectorOfPathDir path) s).1.2.length = 30
  := by
  rw [FindSectorOfPathDir]
  split
  · simp [field]
  · simp [field]
  · simp [field]

theorem findDirectory_snd (path : List Byte) (s : State) :
  (run (findDirectory path) s).1.2 =
    (run (FindSectorOfPathDir path) s).1.2 ++ (run (FindSectorOfPathDir path) s).2.stack 0
  := by
  simp [findDirectory]

/-- Compared with a short name the file name of a path is always the same. -/
theorem strcmp_findDirectory (path : List Byte) (s t : State) {name : List Byte}
    (h : name.length < 30) :
  strcmp (chars (run (findDirectory path) s).1.2) name =
    strcmp (chars (run (findDirectory path) t).1.2) name
  := by
  apply strcmp_congr (Or.inl h)
  intro i hi
  have hs := length_FindSectorOfPathDir path s
  have ht := length_FindSectorOfPathDir path t
  rw [findDirectory_snd, findDirectory_snd, chars, chars, List.getD_eq_getElem?_getD,
    List.getD_eq_getElem?_getD, List.getElem?_append_left (by omega),
    List.getElem?_append_left (by omega), FindSectorOfPathDir_snd path s t]

/-- What `FindEntry` finds is an entry of the directory, under the file name. -/
theorem FindEntry_found {name : List Byte} {s : State} (h : (run (FindEntry name) s).1 ≠ 0) :
  let x := (run (findDirectory name) s).1.1
  x ≠ 0 ∧ LiveDir s.disk x ∧ ∃ i < 16, entryOf s.disk x i = (run (FindEntry name) s).1 ∧
    ∃ behind, strcmp (entryName (contents (s.disk x) behind) i) (run (findDirectory name) s).1.2 = 0
  := by
  have hdisk := (readOnly_findDirectory name).disk s
  rw [FindEntry] at h ⊢
  simp only [run_bind, run_ite, run_pure, run_read_buffer, hdisk] at h ⊢
  split_ifs at h ⊢ with hzero
  · cases h rfl
  · use hzero, findDirectory_live hzero
    cases hfind : findName (contents (s.disk (run (findDirectory name) s).1.1)
        ((run (findDirectory name) s).2.stack 0)) (run (findDirectory name) s).1.2 with
    | none =>
        rw [hfind] at h
        cases h rfl
    | some i =>
        obtain ⟨hi, -, hname⟩ := findName_eq_some hfind
        refine ⟨i, hi, ?_, _, hname⟩
        exact (entryInode_contents _ _ hi).symm

/-- The inode found is named by an entry. -/
theorem FindEntry_named {name : List Byte} {s : State} (h : (run (FindEntry name) s).1 ≠ 0) :
  Named s.disk (run (FindEntry name) s).1
  := by
  obtain ⟨-, hlive, i, hi, hentry, -⟩ := FindEntry_found h
  exact ⟨h, _, i, hlive, hi, hentry⟩

/-! ### Disks that lookups do not tell apart -/

/-- The disk `d'` has the directories of `d`. -/
structure SameTree (d d' : Disk) : Prop where
  sectors : ∀ x, LiveDir d x → d' x = d x
  modes : ∀ n, Named d n → modeOf d' n = modeOf d n
  zones : ∀ n, Named d n → IsDir d n → zoneOf d' n 0 = zoneOf d n 0

/-- From `s` the operation does on the disk `d'` what it does on the disk it finds. -/
def SameAt {α : Type} (d' : Disk) (p : Op α) (s : State) : Prop :=
  run p { s with disk := d' } = ((run p s).1, { (run p s).2 with disk := d' })

section

variable {α β : Type} {d' : Disk} {s : State}

theorem SameAt.pure (a : α) :
  SameAt d' (pure a) s
  := rfl

theorem SameAt.bind {p : Op α} {f : α → Op β} (hp : SameAt d' p s)
    (hf : SameAt d' (f (run p s).1) (run p s).2) :
  SameAt d' (p >>= f) s
  := by
  rw [SameAt, run_bind, hp, hf, run_bind]

theorem SameAt.strtok (str : Option (List Byte)) :
  SameAt d' (strtok str) s
  := rfl

theorem SameAt.stack :
  SameAt d' stack s
  := rfl

theorem SameAt.read_buffer {x : ℕ} (h : d' x = s.disk x) :
  SameAt d' (ide_read_buffer x) s
  := by
  simp [SameAt, h]

theorem SameTree.descend {d : Disk} (h : SameTree d d') (fuel : ℕ) {x : ℕ}
    (token : Option (List Byte)) (hx : LiveDir d x) (hs : s.disk = d) :
  SameAt d' (FindSectorOfPathDir.descend fuel x token) s
  := by
  subst hs
  induction fuel generalizing x token s with
  | zero =>
      cases token with
      | none => apply SameAt.pure
      | some token => apply SameAt.pure
  | succ fuel ih =>
      cases token with
      | none => apply SameAt.pure
      | some token =>
          rw [FindSectorOfPathDir.descend]
          apply (SameAt.read_buffer (h.sectors x hx)).bind
          simp only [run_read_buffer]
          cases hfind : findName (contents (s.disk x) (s.stack 0)) token with
          | none => apply SameAt.pure
          | some i =>
              obtain ⟨hi, hused, -⟩ := findName_eq_some hfind
              rw [entryInode_contents _ _ hi] at hused
              have hnamed : Named s.disk (entryOf s.disk x i) := ⟨hused, x, i, hx, hi, rfl⟩
              simp only [entryInode_contents _ _ hi, SameAt, run_bind, run_GetInode, run_ite,
                run_pure, run_strtok, i_mode_record _ hused, i_zone_record _ hused]
              have hmode := h.modes _ hnamed
              rw [entryOf] at hmode
              rw [hmode]
              split_ifs with hdir
              · have hzone := h.zones _ hnamed hdir
                rw [entryOf] at hzone
                rw [hzone]
                have hlater : ∀ last_pos stack, SameAt d' (FindSectorOfPathDir.descend fuel
                    (zoneOf s.disk (entryOf s.disk x i) 0 * 2)
                    (CString.strtok s.last_pos none (ascii "/")).1) ⟨s.disk, last_pos, stack⟩ := by
                  intro last_pos stack
                  apply ih
                  · apply h
                  · apply LiveDir.sub hx hi hused hdir
                apply hlater
              · rfl

theorem SameTree.FindSectorOfPathDir (h : SameTree s.disk d') (path : List Byte) :
  SameAt d' (FindSectorOfPathDir path) s
  := by
  rw [Minix.FindSectorOfPathDir]
  split
  · apply SameAt.pure
  · apply SameAt.pure
  · apply (SameAt.strtok _).bind
    refine SameAt.bind ?_ (SameAt.pure _)
    exact h.descend _ _ LiveDir.root rfl

theorem SameTree.findDirectory (h : SameTree s.disk d') (path : List Byte) :
  SameAt d' (findDirectory path) s
  := (h.FindSectorOfPathDir path).bind (SameAt.stack.bind (SameAt.pure _))

theorem SameTree.FindEntry (h : SameTree s.disk d') (name : List Byte) :
  SameAt d' (FindEntry name) s
  := by
  rw [Minix.FindEntry]
  apply (h.findDirectory name).bind
  have hdisk := (readOnly_findDirectory name).disk s
  simp only
  by_cases hzero : (run (Minix.findDirectory name) s).1.1 = 0
  · rw [if_pos hzero]
    apply SameAt.pure
  · rw [if_neg hzero]
    apply (SameAt.read_buffer _).bind
    · simp only [run_read_buffer]
      cases findName _ _ with
      | none => apply SameAt.pure
      | some i => apply SameAt.pure
    · rw [hdisk]
      apply h.sectors _ (findDirectory_live hzero)

end

/-! ### The small file system -/

theorem twoFiles_entry {i : ℕ} (hi : i < 16) :
  entryOf twoFiles ROOT_SECTOR i = 0 ∨ entryOf twoFiles ROOT_SECTOR i = 1 ∨
    entryOf twoFiles ROOT_SECTOR i = 3 ∨ entryOf twoFiles ROOT_SECTOR i = 4
  := by
  revert i
  decide +kernel

theorem twoFiles_dir {n : ℕ} (h : n = 1 ∨ n = 3 ∨ n = 4) :
  IsDir twoFiles n ↔ n = 1
  := by
  rcases h with rfl | rfl | rfl
  all_goals
    unfold IsDir
    decide +kernel

theorem twoFiles_live {x : ℕ} (h : LiveDir twoFiles x) :
  x = ROOT_SECTOR
  := by
  induction h with
  | root => rfl
  | @sub x i _ hi hused hdir ih =>
      subst ih
      rw [(twoFiles_dir ((twoFiles_entry hi).resolve_left hused)).mp hdir]
      decide +kernel

theorem twoFiles_named {n : ℕ} :
  Named twoFiles n ↔ n = 1 ∨ n = 3 ∨ n = 4
  := by
  constructor
  · rintro ⟨hne, x, i, hx, hi, rfl⟩
    rw [twoFiles_live hx] at hne ⊢
    apply (twoFiles_entry hi).resolve_left hne
  · rintro (rfl | rfl | rfl)
    · exact ⟨by decide, ROOT_SECTOR, 0, LiveDir.root, by decide, by decide +kernel⟩
    · exact ⟨by decide, ROOT_SECTOR, 2, LiveDir.root, by decide, by decide +kernel⟩
    · exact ⟨by decide, ROOT_SECTOR, 3, LiveDir.root, by decide, by decide +kernel⟩

end Minix
