import LySystem.Minix.Components

/-!
# What is in the root directory

`minix_List` of `root.c` goes through both sectors of the first zone of the root directory,
`minix_ListDir` and the lookups through its first sector.  They see the same names exactly when no
entry of the second sector is in use.
-/

namespace Minix

open CString

/-! ### The listings -/

/-- An argument of `printk`; a string is a memory seen from its first character. -/
inductive Arg
  | number (n : ℕ)
  | string (str : Memory)

/-- A call of `printk`. -/
structure Printk where
  format : String
  args : List Arg

/-- A buffer that holds two sectors, with the bytes behind it. -/
def twoSectors (x y : Sector) (behind : List Byte) : Memory := contents x (List.ofFn y ++ behind)

/-- The slash `minix_List` prints behind the name of a directory. -/
def minix_List.slash (is_dir : ℕ) (name : Memory) : List Printk :=
  if is_dir ≠ 0 ∧ strcmp name (ascii ".") ≠ 0 ∧ strcmp name (ascii "..") ≠ 0 then
    [⟨"/", []⟩]
  else []

/-- What `minix_List` prints for an entry. -/
def minix_List.entry (sector_buffer : Memory) (i : ℕ) : Op (List Printk) :=
  if entryInode sector_buffer i ≠ 0 then
    do
      let target_inode := entryInode sector_buffer i
      let temp_buf ← ide_read_sector (inodeSector target_inode)
      let is_dir := i_mode (contents temp_buf []) (inodeOffset target_inode) &&& 0x4000
      let name := entryName sector_buffer i
      return ⟨"%s", [.string name]⟩ :: (minix_List.slash is_dir name ++ [⟨"\n", []⟩])
  else return []

/-- The loop of `minix_List`. -/
def minix_List.entries (sector_buffer : Memory) : List ℕ → Op (List Printk)
  | [] => return []
  | i :: is =>
      do
        let first ← minix_List.entry sector_buffer i
        let rest ← minix_List.entries sector_buffer is
        return first ++ rest

/-- What `minix_List` prints. -/
def minix_List : Op (List Printk) :=
  do
    let x ← ide_read_sector ROOT_SECTOR
    let y ← ide_read_sector (ROOT_SECTOR + 1)
    let behind ← stack
    minix_List.entries (twoSectors x y behind) (List.range 32)

/-- What `minix_ListDir` prints for an entry. -/
def minix_ListDir.entry (buf : Memory) (i : ℕ) : List Printk :=
  if entryInode buf i ≠ 0 then
    [⟨"[%d] %s\n", [.number (entryInode buf i), .string (entryName buf i)]⟩]
  else []

/-- What `minix_ListDir` prints once it knows the sector of the directory. -/
def minix_ListDir.print (name : Option (List Byte)) (current_sector : ℕ) : Op (List Printk) :=
  do
    let buf ← ide_read_buffer current_sector
    let title :=
      match name with
      | some path => if chars path 0 ≠ 0 then chars path else literal "/"
      | none => literal "/"
    return [⟨"\n--- Dizin Icerigi: %s ---\n", [.string title]⟩] ++
      (List.range 16).flatMap (minix_ListDir.entry buf) ++ [⟨"-------------------------\n", []⟩]

/-- What `minix_ListDir` prints; without a name the pointer is `NULL`. -/
def minix_ListDir (name : Option (List Byte)) : Op (List Printk) :=
  match name with
  | none => minix_ListDir.print none ROOT_SECTOR
  | some path =>
      if strcmp (chars path) (ascii "/") = 0 ∨ strcmp (chars path) [] = 0 then
        minix_ListDir.print (some path) ROOT_SECTOR
      else
        do
          let inode_no ← FindEntry path
          if inode_no = 0 then return [⟨"Dizin bulunamadi.\n", []⟩]
          else
            let inode ← minix_GetInode inode_no
            if isDirMode (i_mode inode.fields 0) then
              minix_ListDir.print (some path) (i_zone inode.fields 0 0 * 2)
            else return [⟨"Hata: '%s' bir dizin degil!\n", [.string (chars path)]⟩]

/-! ### The names shown -/

/-- The strings among the arguments of the calls with the format. -/
def shown (format : String) (calls : List Printk) : Set (List Byte) :=
  {l | 0 ∉ l ∧ ∃ c ∈ calls, c.format = format ∧ ∃ str, .string str ∈ c.args ∧ strcmp str l = 0}

/-- The names that `minix_List` shows. -/
def listed (s : State) : Set (List Byte) := shown "%s" (run minix_List s).1

/-- The names of the entries that `minix_ListDir` of the root directory shows. -/
def listedDir (s : State) : Set (List Byte) :=
  shown "[%d] %s\n" (run (minix_ListDir (some (ascii "/"))) s).1

/-- The paths of one component that are found. -/
def found (s : State) : Set (List Byte) :=
  {l | l ≠ [] ∧ 0 ∉ l ∧ slash ∉ l ∧ (run (FindEntry l) s).1 ≠ 0}

/-- The names of the entries in use of a sector. -/
def namesIn (d : Disk) (x : ℕ) : Set (List Byte) :=
  {l | ∃ i < 16, entryOf d x i ≠ 0 ∧ nameText d x i = l}

/-- The sectors of the first zone of the root directory. -/
def rootSectors : List ℕ := [ROOT_SECTOR, ROOT_SECTOR + 1]

/-- The names of the entries in use of the root directory are well formed, and no two are the
same. -/
structure RootZone (d : Disk) : Prop where
  names : ∀ x ∈ rootSectors, ∀ i < 16, entryOf d x i ≠ 0 → NameOk (nameOf d x i)
  distinct : ∀ x ∈ rootSectors, ∀ y ∈ rootSectors, ∀ i < 16, ∀ j < 16, entryOf d x i ≠ 0 →
    entryOf d y j ≠ 0 → nameText d x i = nameText d y j → x = y ∧ i = j

/-- The listings show the names that are found, and what `minix_List` shows cannot be created. -/
structure Agree (s : State) : Prop where
  listedDir_eq : listedDir s = listed s
  found_eq : found s = listed s
  create : ∀ l ∈ listed s, (run (minix_CreateFile l) s).1 = -EEXIST

variable {d : Disk} {s : State} {format : String} {a b : List Printk} {buf : Memory} {x i : ℕ}
  {l behind : List Byte}

@[simp]
theorem shown_nil :
  shown format [] = ∅
  := by
  simp [shown]

@[simp]
theorem shown_append :
  shown format (a ++ b) = shown format a ∪ shown format b
  := by
  ext l
  simp only [shown, Set.mem_ofPred_eq, Set.mem_union, List.mem_append]
  constructor
  · rintro ⟨hzero, c, hc | hc, hprinted⟩
    · exact Or.inl ⟨hzero, c, hc, hprinted⟩
    · exact Or.inr ⟨hzero, c, hc, hprinted⟩
  · rintro (⟨hzero, c, hc, hprinted⟩ | ⟨hzero, c, hc, hprinted⟩)
    · exact ⟨hzero, c, Or.inl hc, hprinted⟩
    · exact ⟨hzero, c, Or.inr hc, hprinted⟩

theorem shown_other {c : Printk} (h : c.format ≠ format) :
  shown format [c] = ∅
  := by
  simp [shown, h]

/-! ### Entries of two sectors -/

theorem mem_shown_entry (buf : Memory) (i : ℕ) (s : State) :
  l ∈ shown "%s" (run (minix_List.entry buf i) s).1 ↔ 0 ∉ l ∧ Matches buf l i
  := by
  have hrest : ∀ is_dir name, shown "%s" (minix_List.slash is_dir name ++ [⟨"\n", []⟩]) = ∅ := by
    intro is_dir name
    rw [minix_List.slash, shown_append, shown_other (by decide), Set.union_empty]
    split_ifs
    · exact shown_other (by decide)
    · exact shown_nil
  rw [minix_List.entry, Matches, run_ite]
  split_ifs with hused
  · simp only [run_bind, run_read, run_pure]
    rw [← List.singleton_append, shown_append, hrest, Set.union_empty]
    simp [shown, hused]
  · simp [hused]

theorem mem_shown_entries (buf : Memory) (is : List ℕ) (s : State) :
  l ∈ shown "%s" (run (minix_List.entries buf is) s).1 ↔ 0 ∉ l ∧ ∃ i ∈ is, Matches buf l i
  := by
  induction is generalizing s with
  | nil => simp [minix_List.entries]
  | cons i is ih =>
      simp only [minix_List.entries, run_bind, run_pure, shown_append, Set.mem_union,
        mem_shown_entry, ih, List.exists_mem_cons_iff]
      tauto

/-- The second sector begins behind the first one. -/
theorem drop_twoSectors (x y : Sector) (behind : List Byte) :
  (twoSectors x y behind).drop 512 = contents y behind
  := by
  funext i
  rw [Memory.drop, twoSectors, contents, dif_neg (by omega), Nat.add_sub_cancel_left, contents]
  have hlen : (List.ofFn y).length = 512 := List.length_ofFn
  split_ifs with hi
  · rw [List.getD_eq_getElem?_getD, List.getElem?_append_left (by omega), List.getElem?_ofFn,
      dif_pos hi, Option.getD_some]
  · rw [List.getD_eq_getElem?_getD, List.getElem?_append_right (by omega), hlen,
      List.getD_eq_getElem?_getD]

theorem matches_drop (buf : Memory) (l : List Byte) (i : ℕ) :
  Matches buf l (16 + i) ↔ Matches (buf.drop 512) l i
  := by
  have hinode : entryInode buf (16 + i) = entryInode (buf.drop 512) i := by
    apply Memory.load_congr
    intro j _
    rw [Memory.drop]
    congr 1
    omega
  have hname : entryName buf (16 + i) = entryName (buf.drop 512) i := by
    funext j
    simp only [entryName, Memory.drop]
    congr 1
    omega
  rw [Matches, Matches, hinode, hname]

/-- The loop of `minix_List` goes through the entries of both sectors. -/
theorem exists_matches_twoSectors (x y : Sector) (behind : List Byte) :
  (∃ i ∈ List.range 32, Matches (twoSectors x y behind) l i) ↔
    (∃ i < 16, Matches (contents x (List.ofFn y ++ behind)) l i) ∨
      ∃ i < 16, Matches (contents y behind) l i
  := by
  constructor
  · rintro ⟨i, hi, hmatch⟩
    rw [List.mem_range] at hi
    by_cases hfirst : i < 16
    · exact Or.inl ⟨i, hfirst, hmatch⟩
    · obtain ⟨j, rfl⟩ := Nat.exists_eq_add_of_le (Nat.le_of_not_lt hfirst)
      rw [matches_drop, drop_twoSectors] at hmatch
      exact Or.inr ⟨j, by omega, hmatch⟩
  · rintro (⟨i, hi, hmatch⟩ | ⟨i, hi, hmatch⟩)
    · exact ⟨i, List.mem_range.mpr (by omega), hmatch⟩
    · refine ⟨16 + i, List.mem_range.mpr (by omega), ?_⟩
      rw [matches_drop, drop_twoSectors]
      exact hmatch

/-! ### What the listings show -/

theorem mem_listed :
  l ∈ listed s ↔ 0 ∉ l ∧
    ((∃ i < 16, Matches (contents (s.disk ROOT_SECTOR)
      (List.ofFn (s.disk (ROOT_SECTOR + 1)) ++ s.stack 0)) l i) ∨
      ∃ i < 16, Matches (contents (s.disk (ROOT_SECTOR + 1)) (s.stack 0)) l i)
  := by
  rw [listed, minix_List]
  simp only [run_bind, run_read, run_stack]
  rw [mem_shown_entries, exists_matches_twoSectors]

theorem mem_shown_flatMap {f : ℕ → List Printk} {is : List ℕ} :
  l ∈ shown format (is.flatMap f) ↔ ∃ i ∈ is, l ∈ shown format (f i)
  := by
  induction is with
  | nil => simp
  | cons i is ih =>
      rw [List.flatMap_cons, shown_append, Set.mem_union, ih, List.exists_mem_cons_iff]

theorem mem_listedDir :
  l ∈ listedDir s ↔ 0 ∉ l ∧ ∃ i < 16, Matches (contents (s.disk ROOT_SECTOR) (s.stack 0)) l i
  := by
  have hroot : strcmp (chars (ascii "/")) (ascii "/") = 0 ∨ strcmp (chars (ascii "/")) [] = 0 := by
    decide
  have hentry : ∀ buf i, l ∈ shown "[%d] %s\n" (minix_ListDir.entry buf i) ↔
      0 ∉ l ∧ Matches buf l i := by
    intro buf i
    rw [minix_ListDir.entry, Matches]
    split_ifs with hused
    · simp [shown, hused]
    · simp [hused]
  rw [listedDir, minix_ListDir]
  simp only [if_pos hroot, minix_ListDir.print, run_bind, run_read_buffer, run_pure, shown_append]
  rw [shown_other (by decide), shown_other (by decide), Set.empty_union, Set.union_empty,
    mem_shown_flatMap]
  simp only [hentry, List.mem_range]
  tauto

/-- The copy of a path of one component has no slash. -/
theorem strrchr_component (hslash : slash ∉ l) :
  strrchr (text (chars l) 255) slash = none
  := by
  apply strrchr_of_notMem
  intro hmem
  exact hslash ((text_isPrefix l 255).subset hmem)

/-- The name that a path of one component is looked up with. -/
theorem chars_fileName_component (hslash : slash ∉ l) (hzero : 0 ∉ l) (behind : List Byte) {j : ℕ}
    (hj : j < 30) :
  chars (fileName l ++ behind) j = chars l j
  := by
  rw [chars_fileName_append l behind hj, lastComponent, strrchr_component hslash,
    text_eq_take hzero, chars, chars, List.getD_eq_getElem?_getD, List.getD_eq_getElem?_getD,
    List.getElem?_take_of_lt (by omega)]

/-- A path of one component is looked up in the root directory. -/
theorem run_FindEntry_component (hslash : slash ∉ l) (s : State) :
  (run (FindEntry l) s).1 =
    match findName (contents (s.disk ROOT_SECTOR) (s.stack 1)) (fileName l ++ s.stack 0) with
    | none => 0
    | some i => entryOf s.disk ROOT_SECTOR i
  := by
  have hsector : run (FindSectorOfPathDir l) s = ((ROOT_SECTOR, field (chars l) 30), s) := by
    rw [FindSectorOfPathDir, ← slash, strrchr_component hslash, run_pure]
  rw [run_FindEntry]
  simp only [hsector]
  rfl

theorem mem_found :
  l ∈ found s ↔ l ≠ [] ∧ 0 ∉ l ∧ slash ∉ l ∧
    ∃ i < 16, Matches (contents (s.disk ROOT_SECTOR) (s.stack 1)) (fileName l ++ s.stack 0) i
  := by
  rw [found, Set.mem_ofPred_eq]
  apply and_congr_right
  intro _
  apply and_congr_right
  intro _
  apply and_congr_right
  intro hslash
  rw [run_FindEntry_component hslash]
  cases hfound : findName (contents (s.disk ROOT_SECTOR) (s.stack 1)) (fileName l ++ s.stack 0) with
  | none =>
      apply iff_of_false (fun hne => hne rfl)
      rintro ⟨i, hi, hmatch⟩
      exact findName_eq_none.mp hfound i hi hmatch
  | some i =>
      obtain ⟨hi, hused, hmatch⟩ := findName_eq_some hfound
      apply iff_of_true _ ⟨i, hi, hused, hmatch⟩
      rw [entryInode_contents _ _ hi] at hused
      exact hused

/-! ### Well-formed names -/

/-- The characters of a well-formed name. -/
theorem NameOk.text {m : Memory} (h : NameOk m) :
  CString.text m 30 ≠ [] ∧ slash ∉ CString.text m 30
  := by
  obtain ⟨k, hk, hpos, hend, hbefore⟩ := h
  have hcopied : copied m 30 ≤ k := copied_le_of_zero hend
  constructor
  · intro hnil
    have hlen := length_text m 30
    rw [hnil, List.length_nil] at hlen
    have hzero := zero_of_copied_lt (hcopied.trans_lt hk)
    rw [← hlen] at hzero
    exact (hbefore 0 hpos).1 hzero
  · intro hmem
    obtain ⟨j, hj, hslash⟩ := List.mem_map.mp hmem
    rw [List.mem_range] at hj
    exact (hbefore j (by omega)).2 hslash

namespace RootZone

theorem first_mem :
  ROOT_SECTOR ∈ rootSectors
  := by decide

theorem second_mem :
  ROOT_SECTOR + 1 ∈ rootSectors
  := by decide

theorem exists_matches_iff (h : RootZone d) (hx : x ∈ rootSectors)
    (hzero : 0 ∉ l) {filename : List Byte} (hsame : ∀ j < 30, chars filename j = chars l j)
    (behind : List Byte) :
  (∃ i < 16, Matches (contents (d x) behind) filename i) ↔ l ∈ namesIn d x
  := by
  have hiff : ∀ i < 16, Matches (contents (d x) behind) filename i ↔
      entryOf d x i ≠ 0 ∧ nameText d x i = l := by
    intro i hi
    apply matches_iff hi _ hzero hsame
    intro hused
    obtain ⟨k, hk, -, hend, -⟩ := h.names x hx i hi hused
    exact ⟨k, hk, hend⟩
  constructor
  · rintro ⟨i, hi, hmatch⟩
    exact ⟨i, hi, (hiff i hi).mp hmatch⟩
  · rintro ⟨i, hi, hmatch⟩
    exact ⟨i, hi, (hiff i hi).mpr hmatch⟩

theorem zero_notMem (hl : l ∈ namesIn d x) :
  0 ∉ l
  := by
  obtain ⟨i, -, -, rfl⟩ := hl
  exact zero_notMem_text _ _

variable (h : RootZone s.disk)
include h

theorem listed_eq :
  listed s = namesIn s.disk ROOT_SECTOR ∪ namesIn s.disk (ROOT_SECTOR + 1)
  := by
  ext l
  rw [mem_listed, Set.mem_union]
  constructor
  · rintro ⟨hzero, hmatch⟩
    rwa [h.exists_matches_iff first_mem hzero (fun _ _ => rfl),
      h.exists_matches_iff second_mem hzero (fun _ _ => rfl)] at hmatch
  · intro hmem
    have hzero : 0 ∉ l := hmem.elim zero_notMem zero_notMem
    rw [h.exists_matches_iff first_mem hzero (fun _ _ => rfl),
      h.exists_matches_iff second_mem hzero (fun _ _ => rfl)]
    exact ⟨hzero, hmem⟩

theorem listedDir_eq :
  listedDir s = namesIn s.disk ROOT_SECTOR
  := by
  ext l
  rw [mem_listedDir]
  constructor
  · rintro ⟨hzero, hmatch⟩
    exact (h.exists_matches_iff first_mem hzero (fun _ _ => rfl) _).mp hmatch
  · intro hmem
    have hzero := zero_notMem hmem
    exact ⟨hzero, (h.exists_matches_iff first_mem hzero (fun _ _ => rfl) _).mpr hmem⟩

theorem found_eq :
  found s = namesIn s.disk ROOT_SECTOR
  := by
  ext l
  rw [mem_found]
  constructor
  · rintro ⟨-, hzero, hslash, hmatch⟩
    exact (h.exists_matches_iff first_mem hzero
      (fun _ hj => chars_fileName_component hslash hzero _ hj) _).mp hmatch
  · intro hmem
    have hzero := zero_notMem hmem
    obtain ⟨hne, hslash⟩ : l ≠ [] ∧ slash ∉ l := by
      obtain ⟨i, hi, hused, rfl⟩ := hmem
      exact (h.names _ first_mem i hi hused).text
    exact ⟨hne, hzero, hslash, (h.exists_matches_iff first_mem hzero
      (fun _ hj => chars_fileName_component hslash hzero _ hj) _).mpr hmem⟩

/-- Names of the second sector are listed only. -/
theorem second_free (hagree : Agree s) :
  ∀ i < 16, entryOf s.disk (ROOT_SECTOR + 1) i = 0
  := by
  intro i hi
  by_contra hused
  have hmem : nameText s.disk (ROOT_SECTOR + 1) i ∈ listed s := by
    rw [h.listed_eq]
    exact Or.inr ⟨i, hi, hused, rfl⟩
  rw [← hagree.listedDir_eq, h.listedDir_eq] at hmem
  obtain ⟨j, hj, hused', heq⟩ := hmem
  have hsector := (h.distinct _ first_mem _ second_mem j hj i hi hused' hused heq).1
  omega

end RootZone

/-- A name that is found cannot be created. -/
theorem run_CreateFile_found (hl : l ∈ found s) :
  (run (minix_CreateFile l) s).1 = -EEXIST
  := by
  obtain ⟨-, -, -, hne⟩ := hl
  rw [minix_CreateFile, run_bind, if_pos hne, run_pure]

/-- The listings of a root directory and the lookups agree exactly when no entry of its second
sector is in use. -/
theorem listings_agree_iff (h : RootZone s.disk) :
  Agree s ↔ ∀ i < 16, entryOf s.disk (ROOT_SECTOR + 1) i = 0
  := by
  constructor
  · exact h.second_free
  · intro hfree
    have hnone : namesIn s.disk (ROOT_SECTOR + 1) = ∅ := by
      apply Set.eq_empty_of_forall_notMem
      rintro l ⟨i, hi, hused, -⟩
      exact hused (hfree i hi)
    have hlisted : listed s = namesIn s.disk ROOT_SECTOR := by
      rw [h.listed_eq, hnone, Set.union_empty]
    constructor
    · rw [h.listedDir_eq, hlisted]
    · rw [h.found_eq, hlisted]
    · intro l hl
      rw [hlisted, ← h.found_eq] at hl
      exact run_CreateFile_found hl

/-! ### The empty disk -/

/-- The entries `.` and `..` of the empty disk. -/
theorem listings_agree_empty :
  Agree (State.ofDisk emptyDisk)
  := by
  have hzone : RootZone emptyDisk := by
    constructor
    · decide +kernel
    · decide +kernel
  exact (listings_agree_iff (s := State.ofDisk emptyDisk) hzone).mpr (by decide +kernel)

/-- The empty disk with an entry `x` of the inode 3 in the second sector of its root directory. -/
def spilledDisk : Disk :=
  Function.update emptyDisk (ROOT_SECTOR + 1) fun i =>
    if i.val = 0 then 3 else if i.val = 2 then 0x78 else 0

/-- The name `x` is listed, and it is not found. -/
theorem listings_disagree :
  RootZone spilledDisk ∧ ¬ Agree (State.ofDisk spilledDisk)
  := by
  have hzone : RootZone spilledDisk := by
    constructor
    · decide +kernel
    · decide +kernel
  refine ⟨hzone, ?_⟩
  intro hagree
  have hfree := RootZone.second_free (s := State.ofDisk spilledDisk) hzone hagree 0 (by decide)
  revert hfree
  decide +kernel

end Minix
