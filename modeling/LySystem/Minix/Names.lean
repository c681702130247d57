import LySystem.Minix.Empty

/-!
# The names of entries

A creation or a renaming stores whatever follows the last slash of its path, 30 bytes of it at
most.  A path that ends with a slash gives an empty name, and one with a longer last component a
name without an end.
-/

namespace Minix

open CString Transition

/-! ### Well-formed names -/

/-- A name that is not empty, has no slash and ends within the 30 bytes of its entry. -/
def NameOk (name : Memory) : Prop :=
  ∃ l < 30, 0 < l ∧ name l = 0 ∧ ∀ j < l, name j ≠ 0 ∧ name j ≠ slash

instance (name : Memory) : Decidable (NameOk name) := by
  unfold NameOk
  infer_instance

theorem NameOk.congr {name name' : Memory} (h : NameOk name) (heq : ∀ j < 30, name' j = name j) :
  NameOk name'
  := by
  obtain ⟨l, hl, hpos, hend, hbefore⟩ := h
  refine ⟨l, hl, hpos, ?_, ?_⟩
  · rw [heq l hl, hend]
  · intro j hj
    rw [heq j (by omega)]
    exact hbefore j hj

/-- A string equal to a well-formed name is one. -/
theorem NameOk.of_strcmp {name : Memory} {l : List Byte} (h : strcmp name l = 0)
    (hl : NameOk (chars l)) :
  NameOk name
  := by
  obtain ⟨k, hend, hbefore, heq⟩ := strcmp_eq_zero_iff.mp h
  obtain ⟨e, he, hpos, hzero, hchars⟩ := hl
  -- Both end at the same place.
  have hke : k = e := by
    rcases Nat.lt_trichotomy k e with hlt | rfl | hlt
    · exact absurd ((heq k le_rfl).trans hend) (hchars k hlt).1
    · rfl
    · exact absurd ((heq e hlt.le).symm.trans hzero) (hbefore e hlt)
  subst hke
  refine ⟨k, he, hpos, hend, ?_⟩
  intro j hj
  rw [← heq j hj.le]
  exact hchars j hj

/-- The name of an entry of a directory. -/
def nameOf (d : Disk) (x i : ℕ) : Memory := entryName (contents (d x) []) i

/-- The names of the entries in use are well formed. -/
def WellNamed (d : Disk) : Prop :=
  ∀ x i, LiveDir d x → i < 16 → entryOf d x i ≠ 0 → NameOk (nameOf d x i)

/-! ### The name of a path -/

/-- The bytes that `FindSectorOfPathDir` writes to `out_filename`. -/
def fileName (path : List Byte) : List Byte :=
  let temp_path := text (chars path) 255
  match strrchr temp_path slash with
  | none => field (chars path) 30
  | some 0 => field (chars (path.drop 1)) 30
  | some last_slash => field (chars (temp_path.drop (last_slash + 1))) 30

theorem FindSectorOfPathDir_fileName (path : List Byte) (s : State) :
  (run (FindSectorOfPathDir path) s).1.2 = fileName path
  := by
  rw [FindSectorOfPathDir, fileName, slash]
  generalize strrchr (text (chars path) 255) _ = slashAt
  rcases slashAt with _ | _ | last_slash
  · rfl
  · rfl
  · simp only [run_bind, run_pure]

theorem length_fileName (path : List Byte) :
  (fileName path).length = 30
  := by
  rw [← FindSectorOfPathDir_fileName path (State.ofDisk fun _ _ => 0)]
  apply length_FindSectorOfPathDir

/-- The name does not depend on what lies behind the bytes written. -/
theorem chars_findDirectory (path : List Byte) (s : State) {j : ℕ} (hj : j < 30) :
  chars (run (findDirectory path) s).1.2 j = chars (fileName path) j
  := by
  have hlen := length_fileName path
  rw [findDirectory_snd, FindSectorOfPathDir_fileName, chars, chars, List.getD_eq_getElem?_getD,
    List.getD_eq_getElem?_getD, List.getElem?_append_left (by omega)]

/-- The last component of a path, of which 255 characters are looked at. -/
def lastComponent (path : List Byte) : List Byte :=
  let temp_path := text (chars path) 255
  match strrchr temp_path slash with
  | none => temp_path
  | some last_slash => temp_path.drop (last_slash + 1)

theorem lastComponent_spec (path : List Byte) :
  0 ∉ lastComponent path ∧ slash ∉ lastComponent path
  := by
  have hzero := zero_notMem_text (chars path) 255
  rw [lastComponent]
  split
  · next hnone => exact ⟨hzero, strrchr_eq_none hnone⟩
  · next last_slash hsome =>
    use fun hmem => hzero (List.mem_of_mem_drop hmem)
    exact (strrchr_eq_some hsome).2

/-- The bytes of the name are those of the last component, 30 at most. -/
theorem chars_fileName (path : List Byte) {j : ℕ} (hj : j < 30) :
  chars (fileName path) j = chars (lastComponent path) j
  := by
  rw [fileName, lastComponent]
  split
  · next hnone =>
    rw [hnone, chars_field _ hj, chars_text]
    simp only [lt_copied_iff, hj, show j < 255 by omega]
  · next hzero =>
    have hlen := (strrchr_eq_some hzero).1
    rw [length_text] at hlen
    have hfirst := (lt_copied_iff.mp hlen).2 0 le_rfl
    rw [hzero, chars_field _ hj]
    simp only [Nat.zero_add, chars_drop, chars_text]
    have hiff : (∀ i ≤ j, chars path (1 + i) ≠ 0) ↔ ∀ i ≤ 1 + j, chars path i ≠ 0 := by
      constructor
      · intro h i hi
        rcases Nat.eq_zero_or_pos i with rfl | hpos
        · exact hfirst
        · obtain ⟨i, rfl⟩ := Nat.exists_eq_add_of_le hpos
          exact h i (by omega)
      · intro h i hi
        exact h (1 + i) (by omega)
    simp only [lt_copied_iff, hj, show 1 + j < 255 by omega, chars_drop, hiff]
  · next last_slash hne hsome =>
    have hrest : 0 ∉ (text (chars path) 255).drop (last_slash + 1) :=
      fun hmem => zero_notMem_text _ _ (List.mem_of_mem_drop hmem)
    rw [hsome, chars_field _ hj]
    split_ifs with hi
    · rfl
    · rw [lt_copied_iff, not_and] at hi
      obtain ⟨i, hi, hzero⟩ : ∃ i ≤ j, chars ((text (chars path) 255).drop (last_slash + 1)) i = 0 := by
        simpa using hi hj
      symm
      apply chars_of_length_le
      exact ((chars_eq_zero_iff hrest).mp hzero).trans hi

/-- The last component of the path is not empty, and shorter than 30 characters. -/
def Nameable (path : List Byte) : Prop :=
  0 < (lastComponent path).length ∧ (lastComponent path).length < 30

theorem nameOk_fileName {path : List Byte} (h : Nameable path) :
  NameOk (chars (fileName path))
  := by
  obtain ⟨hzero, hslash⟩ := lastComponent_spec path
  refine ⟨(lastComponent path).length, h.2, h.1, ?_, ?_⟩
  · rw [chars_fileName path h.2]
    exact chars_of_length_le le_rfl
  · intro j hj
    have hmem := chars_mem hj
    rw [chars_fileName path (hj.trans h.2)]
    exact ⟨fun heq => hzero (heq ▸ hmem), fun heq => hslash (heq ▸ hmem)⟩

/-! ### Disks whose names are well formed -/

/-- The directories are among `S`, and the names of their entries are well formed. -/
structure Tidy (d : Disk) (S : Set ℕ) : Prop extends Closed d S where
  names : ∀ x ∈ S, ∀ i < 16, entryOf d x i ≠ 0 → NameOk (nameOf d x i)

theorem WellNamed.tidy {d : Disk} (h : WellNamed d) (hclosed : Closed d {x | LiveDir d x}) :
  Tidy d {x | LiveDir d x}
  := ⟨hclosed, fun x hx i hi hused => h x i hx hi hused⟩

section

variable {d d' : Disk} {S : Set ℕ}

theorem Tidy.wellNamed (h : Tidy d S) :
  WellNamed d
  := fun x i hx hi hused => h.names x (h.live hx) i hi hused

theorem nameOf_congr {x : ℕ} (h : d' x = d x) (i : ℕ) :
  nameOf d' x i = nameOf d x i
  := by
  rw [nameOf, h, nameOf]

theorem Tidy.frame (h : Tidy d S) (hclosed : Closed d' S) (hS : ∀ x ∈ S, d' x = d x) :
  Tidy d' S
  := by
  refine ⟨hclosed, ?_⟩
  intro x hx i hi hused
  rw [entryOf_congr (hS x hx)] at hused
  rw [nameOf_congr (hS x hx)]
  exact h.names x hx i hi hused

/-- A sector rewritten outside an entry leaves the name of the entry. -/
theorem nameOf_update {x j k : ℕ} (hj : j < 16) (hk : k < 30) (m : Memory)
    (h : ∀ k, 32 * j ≤ k → k < 32 * j + 32 → m k = contents (d x) [] k) :
  nameOf (Function.update d x (sector m)) x j k = nameOf d x j k
  := by
  simp only [nameOf, entryName, Memory.drop, Function.update_self]
  rw [contents_sector _ _ (by omega), h _ (by omega) (by omega)]

theorem nameOf_entered {x i y j k n : ℕ} {filename : List Byte} (hj : j < 16) (hk : k < 30) :
  nameOf (entered d x n filename i) y j k =
    if y = x ∧ j = i then strncpy (fun _ => 0) (chars filename) 30 k else nameOf d y j k
  := by
  by_cases hy : y = x
  · subst hy
    by_cases hji : j = i
    · subst hji
      rw [if_pos ⟨rfl, rfl⟩, strncpy_apply _ _ hk, ← strncpy_apply
        (entryName ((contents (d y) []).store (32 * j) 2 n) j) _ hk]
      simp only [nameOf, entered, entryName, Memory.drop, Function.update_self]
      rw [contents_sector _ _ (by omega), setEntry]
      exact Memory.splice_inside _ _ hk
    · rw [if_neg (fun h => hji h.2)]
      apply nameOf_update hj hk
      intro k hlo hhi
      apply setEntry_outside
      omega
  · rw [if_neg (fun h => hy h.1), entered, nameOf, Function.update_of_ne hy, nameOf]

theorem nameOf_removed {x i y j k : ℕ} (hj : j < 16) (hk : k < 30) (hne : ¬ (y = x ∧ j = i)) :
  nameOf (removed d x i) y j k = nameOf d y j k
  := by
  by_cases hy : y = x
  · subst hy
    apply nameOf_update hj hk
    intro k hlo hhi
    apply clearEntry_outside
    omega
  · rw [removed, nameOf, Function.update_of_ne hy, nameOf]

/-- The name copied into an entry is that of the path. -/
theorem NameOk.strncpy {name : Memory} (h : NameOk name) :
  NameOk (CString.strncpy (fun _ => 0) name 30)
  := by
  obtain ⟨l, hl, hpos, hend, hbefore⟩ := h
  have hcopied : copied name 30 = l := by
    apply le_antisymm (copied_le_of_zero hend)
    by_contra hle
    have hlt : copied name 30 < 30 := by omega
    exact (hbefore _ (by omega)).1 (zero_of_copied_lt hlt)
  refine ⟨l, hl, hpos, ?_, ?_⟩
  · rw [strncpy_apply _ _ hl, hcopied, if_neg (Nat.lt_irrefl l)]
  · intro j hj
    rw [strncpy_apply _ _ (by omega), hcopied, if_pos hj]
    exact hbefore j hj

theorem Tidy.entered (h : Tidy d S) {x n i : ℕ} {filename : List Byte}
    (hclosed : Closed (entered d x n filename i) S) (hname : NameOk (chars filename)) :
  Tidy (entered d x n filename i) S
  := by
  refine ⟨hclosed, ?_⟩
  intro y hy j hj hused
  by_cases hself : y = x ∧ j = i
  · apply hname.strncpy.congr
    intro k hk
    rw [nameOf_entered hj hk, if_pos hself]
  · rw [entryOf_entered _ _ _ _ _ _ hj, if_neg hself] at hused
    apply (h.names y hy j hj hused).congr
    intro k hk
    rw [nameOf_entered hj hk, if_neg hself]

theorem Tidy.withEntry (h : Tidy d S) {x n : ℕ} {filename : List Byte}
    (hclosed : Closed (withEntry d x n filename) S)
    (hname : freeEntry d x ≠ none → NameOk (chars filename)) :
  Tidy (withEntry d x n filename) S
  := by
  rw [Minix.withEntry] at hclosed ⊢
  cases hfree : freeEntry d x with
  | none => exact h
  | some i =>
      rw [hfree] at hclosed
      exact h.entered hclosed (hname (by simp [hfree]))

theorem Tidy.removed (h : Tidy d S) {x : ℕ} (hx : x ∈ S) (hx0 : x ≠ 0) (i : ℕ) :
  Tidy (removed d x i) S
  := by
  refine ⟨h.toClosed.removed hx hx0 i, ?_⟩
  intro y hy j hj hused
  rw [entryOf_removed _ _ _ _ hj] at hused
  split_ifs at hused with hself
  · exact absurd rfl hused
  · apply (h.names y hy j hj hused).congr
    intro k hk
    exact nameOf_removed hj hk hself

theorem Tidy.createdFile (h : Tidy d S) {k : ℕ} (hk : freeInode d = some k) :
  Tidy (createdFile d k) S ∧ ¬ IsDir (createdFile d k) (k + 1)
  := by
  have hfile := createdFile_not_dir hk
  have hrezoned := (createdFile_rewritten d hk).rezoned CreateFile_record.2.1
  have hsectors : ∀ x ∈ S, Minix.createdFile d k x = d x :=
    fun x hx => createdFile_sector d hk (h.apart x hx)
  exact ⟨h.frame (h.toClosed.file hrezoned hsectors hfile) hsectors, hfile⟩

theorem Tidy.createdDir (h : Tidy d S) {k z x : ℕ} (hk : freeInode d = some k)
    (hapart : 265 < z * 2) (hlt : z < 4096) (hx : x ∈ S) :
  Tidy (createdDir d k z x) (S ∪ {y | y = z * 2}) ∧ zoneOf (createdDir d k z x) (k + 1) 0 = z
  := by
  obtain ⟨hclosed, hzone⟩ := h.toClosed.createdDir hk hapart hlt hx
  refine ⟨⟨hclosed, ?_⟩, hzone⟩
  intro y hy i hi hused
  by_cases hyz : y = z * 2
  · subst hyz
    obtain ⟨hdot, hdots⟩ := createdDir_names (d := d) (k := k) (z := z) (x := x)
    rw [createdDir_entries hk (h.apart x hx) hi] at hused
    split_ifs at hused with hone hself
    · subst hone
      exact NameOk.of_strcmp hdots (by decide)
    · subst hself
      exact NameOk.of_strcmp hdot (by decide)
    · exact absurd rfl hused
  · have hold : y ∈ S := hy.resolve_right hyz
    have hsame : Minix.createdDir d k z x y = d y :=
      createdDir_sector hk hapart (h.apart y hold) hyz
    rw [entryOf_congr hsame] at hused
    rw [nameOf_congr hsame]
    exact h.names y hold i hi hused

end

/-! ### The calls -/

/-- The file name a creation stores is that of the path. -/
theorem lookupNew_filename {name filename : List Byte} {s : State} {x : ℕ}
    (h : (run (lookupNew name) s).1 = .ok (x, filename)) {j : ℕ} (hj : j < 30) :
  chars filename j = chars (fileName name) j
  := by
  have hfilename := chars_findDirectory name (run (FindEntry name) s).2 hj
  rwa [(lookupNew_spec h).2.1] at hfilename

@[inherit_doc lookupNew_filename]
theorem lookupMove_filename {old_name new_name filename : List Byte} {s : State} {x i y : ℕ}
    (h : (run (lookupMove old_name new_name) s).1 = .ok (x, i, y, filename)) {j : ℕ} (hj : j < 30) :
  chars filename j = chars (fileName new_name) j
  := by
  obtain ⟨-, ⟨hpair, -⟩, -⟩ := lookupMove_found h
  rw [← (Prod.mk.inj hpair).2]
  exact chars_findDirectory new_name _ hj

/-- A call that stores a name. -/
inductive NameOp where
  | CreateFile (name : List Byte)
  | CreateDir (name : List Byte)
  | RenameFile (old_name new_name : List Byte)

def NameOp.toFileOp : NameOp → FileOp
  | .CreateFile name => .tree (.CreateFile name)
  | .CreateDir name => .tree (.CreateDir name)
  | .RenameFile old_name new_name => .RenameFile old_name new_name

def NameOp.Step (s : State) (op : NameOp) (t : State) : Prop := FileOp.Step s op.toFileOp t

/-- Where the call comes to store a name, the last component of its path is one, and a new
directory gets a zone behind the inodes. -/
def NameOp.Names (s : State) : NameOp → Prop
  | .CreateFile name => ∀ x filename k, (run (lookupNew name) s).1 = .ok (x, filename) →
      freeInode s.disk = some k → freeEntry (createdFile s.disk k) x ≠ none → Nameable name
  | .CreateDir name => ∀ x filename k z, (run (lookupNew name) s).1 = .ok (x, filename) →
      freeInode s.disk = some k → freeZone s.disk = some z →
        265 < z * 2 ∧ (freeEntry (createdDir s.disk k z x) x ≠ none → Nameable name)
  | .RenameFile old_name new_name => ∀ x i y filename,
      (run (lookupMove old_name new_name) s).1 = .ok (x, i, y, filename) →
        freeEntry (removed s.disk x i) y ≠ none → Nameable new_name

/-- The directories lie behind the inodes, and the name to be stored is one. -/
def Naming (s : State) (op : NameOp) : Prop :=
  Closed s.disk {x | LiveDir s.disk x} ∧ op.Names s

theorem WellNamed.effect {s : State} {op : NameOp} {d' : Disk} (h : WellNamed s.disk)
    (hnaming : Naming s op) (heffect : Effect s op.toFileOp d') :
  WellNamed d'
  := by
  obtain ⟨hclosed, hnames⟩ := hnaming
  have htidy := h.tidy hclosed
  generalize hop : op.toFileOp = op' at heffect
  cases heffect with
  | refused op => exact h
  | @CreateFile name filename x k hlook hk =>
      cases op with
      | CreateFile name' =>
          cases hop
          obtain ⟨hlive, hx0⟩ := lookupNew_ok hlook
          obtain ⟨hcreated, hfile⟩ := htidy.createdFile hk
          apply Tidy.wellNamed
          apply hcreated.withEntry
          · apply hcreated.toClosed.withEntry hlive hx0 _ (InTable.of_freeInode hk)
            intro hdir
            exact absurd hdir hfile
          · intro hfree
            apply (nameOk_fileName (hnames x filename k hlook hk hfree)).congr
            intro j hj
            exact lookupNew_filename hlook hj
      | _ => cases hop
  | @noZone name filename x k hlook hk =>
      have hsectors : ∀ x ∈ {x | LiveDir s.disk x}, marked INODE_BITMAP_LBA s.disk k x = s.disk x :=
        fun x hx => Function.update_of_ne (hclosed.not_system hx).1 _ _
      apply Tidy.wellNamed
      apply htidy.frame _ hsectors
      apply hclosed.frame hsectors
      exact SameTable.update (Or.inl (show INODE_BITMAP_LBA < 10 by decide)) _
  | @CreateDir name filename x k z hlook hk hz =>
      cases op with
      | CreateDir name' =>
          cases hop
          obtain ⟨hlive, hx0⟩ := lookupNew_ok hlook
          obtain ⟨hapart, hname⟩ := hnames x filename k z hlook hk hz
          obtain ⟨hcreated, hzone⟩ := htidy.createdDir hk hapart (freeZone_spec hz).1 hlive
          apply Tidy.wellNamed
          apply hcreated.withEntry
          · apply hcreated.toClosed.withEntry (Or.inl hlive) hx0 _ (InTable.of_freeInode hk)
            intro _
            right
            rw [hzone]
            rfl
          · intro hfree
            apply (nameOk_fileName (hname hfree)).congr
            intro j hj
            exact lookupNew_filename hlook hj
      | _ => cases hop
  | @RenameFile old_name new_name filename x i y hlook =>
      cases op with
      | RenameFile old_name' new_name' =>
          cases hop
          obtain ⟨⟨hlive, hx0⟩, ⟨hlive', hy0⟩, hi, hused⟩ := lookupMove_ok hlook
          have hn := hclosed.inTable ⟨hused, x, i, hlive, hi, rfl⟩
          have hapart := (hclosed.apart x hlive).resolve_left hx0
          have hsame : SameTable s.disk (removed s.disk x i) := SameTable.update (Or.inr hapart) _
          have hremoved := htidy.removed hlive hx0 i
          apply Tidy.wellNamed
          apply hremoved.withEntry
          · apply hremoved.toClosed.withEntry hlive' hy0 _ hn
            intro hdir
            rw [isDir_congr (modeOf_congr (hsame.sector hn))] at hdir
            rw [zoneOf_congr (hsame.sector hn)]
            exact LiveDir.sub hlive hi hused hdir
          · intro hfree
            apply (nameOk_fileName (hnames x i y filename hlook hfree)).congr
            intro j hj
            exact lookupMove_filename hlook hj
      | _ => cases hop
  | _ =>
      cases op with
      | _ => cases hop

/-! ### Runs -/

theorem emptyDisk_live {x : ℕ} (h : LiveDir emptyDisk x) :
  x = ROOT_SECTOR
  := by
  have hentry : ∀ i < 16, entryOf emptyDisk ROOT_SECTOR i ≠ 0 →
      entryOf emptyDisk ROOT_SECTOR i = 1 := by decide +kernel
  induction h with
  | root => rfl
  | sub _ hi hused hdir ih =>
      subst ih
      rw [hentry _ hi hused, emptyDisk_emptyRoot.rootDir.2]
      rfl

theorem emptyDisk_wellNamed :
  WellNamed emptyDisk
  := by
  have hnames : ∀ i < 16, entryOf emptyDisk ROOT_SECTOR i ≠ 0 →
      NameOk (nameOf emptyDisk ROOT_SECTOR i) := by decide +kernel
  intro x i hx hi hused
  rw [emptyDisk_live hx] at hused ⊢
  exact hnames i hi hused

end Minix
