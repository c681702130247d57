import LySystem.Minix.Distinct
import LySystem.Minix.Zones

/-!
# The root directory

The paths with one component lead to the root directory.  A name that ends within an entry is
found there whatever lies behind the buffers; the directory maps such names to inodes, and
entries put in and cleared change this map at one name.
-/

namespace Minix

open CString

/-! ### Names of files -/

/-- The name of a file: it ends within an entry, is one component, and neither `.` nor `..`. -/
@[ext]
structure FileName where
  bytes : List Byte
  short : bytes.length < 30
  ends : 0 ∉ bytes
  flat : slash ∉ bytes
  dot : bytes ≠ ascii "."
  dots : bytes ≠ ascii ".."
deriving DecidableEq

/-- The path of the file in the root directory. -/
def FileName.path (a : FileName) : List Byte := slash :: a.bytes

/-- A string equals one list without zero bytes at most. -/
theorem strcmp_unique {m : Memory} {l l' : List Byte} (hl : 0 ∉ l) (hl' : 0 ∉ l')
    (h : strcmp m l = 0) (h' : strcmp m l' = 0) :
  l = l'
  := by
  obtain ⟨k, hend, hbefore, hagree⟩ := strcmp_eq_zero_iff.mp h
  obtain ⟨k', hend', hbefore', hagree'⟩ := strcmp_eq_zero_iff.mp h'
  obtain rfl : k = k' := by
    apply Nat.le_antisymm
    · by_contra hlt
      exact hbefore k' (by omega) hend'
    · by_contra hlt
      exact hbefore' k (by omega) hend
  have hlen : l'.length ≤ k := by
    rw [← chars_eq_zero_iff hl', hagree' k le_rfl, hend]
  apply eq_of_chars hl' hl
  intro j hj
  rw [hagree j (by omega), hagree' j (by omega)]

theorem strcmp_self {l : List Byte} (hl : 0 ∉ l) :
  strcmp (chars l) l = 0
  := by
  rw [strcmp_eq_zero_iff]
  refine ⟨l.length, chars_of_length_le le_rfl, ?_, fun _ _ => rfl⟩
  intro j hj hzero
  have := (chars_eq_zero_iff hl).mp hzero
  omega

namespace FileName

variable (a : FileName)

/-- The bytes a lookup of the path compares with. -/
theorem chars_field (j : ℕ) :
  chars (field (chars a.bytes) 30) j = chars a.bytes j
  := by
  have hlen : (field (chars a.bytes) 30).length = 30 := by simp [field]
  have hshort := a.short
  by_cases hj : j < a.bytes.length
  · rw [CString.chars_field _ (by omega), if_pos]
    rw [lt_copied_iff]
    use by omega
    intro i hi hzero
    have := (chars_eq_zero_iff a.ends).mp hzero
    omega
  · rw [chars_of_length_le (l := a.bytes) (by omega)]
    by_cases hj' : j < 30
    · rw [CString.chars_field _ hj']
      split_ifs
      · exact chars_of_length_le (by omega)
      · rfl
    · exact chars_of_length_le (by omega)

theorem zero_mem_field :
  0 ∈ field (chars a.bytes) 30
  := CString.zero_mem_field (chars_of_length_le le_rfl) a.short

theorem run_FindSectorOfPathDir (s : State) :
  run (FindSectorOfPathDir a.path) s = ((ROOT_SECTOR, field (chars a.bytes) 30), s)
  := by
  have hshort := a.short
  have hzero : 0 ∉ a.path := by
    rw [path, List.mem_cons, not_or]
    use by decide, a.ends
  have htext : text (chars a.path) 255 = a.path := by
    rw [text_eq_take hzero, List.take_of_length_le]
    rw [path, List.length_cons]
    omega
  have hlast : strrchr a.path (BitVec.ofNat 8 '/'.toNat) = some 0 := strrchr_append (l := []) a.flat
  rw [FindSectorOfPathDir, htext, hlast]
  rfl

theorem run_findDirectory (s : State) :
  run (findDirectory a.path) s =
    ((ROOT_SECTOR, field (chars a.bytes) 30 ++ s.stack 0),
      { s with stack := fun i => s.stack (i + 1) })
  := by
  rw [findDirectory, run_bind, run_FindSectorOfPathDir]
  rfl

end FileName

/-- A lookup of the path does not depend on what lies behind the buffers. -/
theorem findName_fileName (x : Sector) (behind behind' : List Byte) (a : FileName) :
  findName (contents x behind) (field (chars a.bytes) 30 ++ behind') =
    findName (contents x []) a.bytes
  := by
  apply findName_congr_iff
  intro i hi
  rw [Matches, Matches, entryInode_contents x behind hi]
  apply and_congr_right
  intro _
  have htake : 0 ∈ (field (chars a.bytes) 30).take 30 := by
    rw [List.take_of_length_le (by simp [field])]
    exact a.zero_mem_field
  rw [strcmp_append a.zero_mem_field, strcmp_entryName x behind [] hi (Or.inr htake),
    strcmp_eq_zero_iff, strcmp_eq_zero_iff]
  simp only [a.chars_field]

/-! ### The map from names to inodes -/

/-- The entry of the root directory with the name. -/
def slotOf (d : Disk) (a : FileName) : Option ℕ := findName (contents (d ROOT_SECTOR) []) a.bytes

/-- The inode with the name. -/
def inodeOf (d : Disk) (a : FileName) : Option ℕ := (slotOf d a).map (entryOf d ROOT_SECTOR)

/-- The entry `i` has the name. -/
def At (d : Disk) (a : FileName) (i : ℕ) : Prop :=
  i < 16 ∧ Matches (contents (d ROOT_SECTOR) []) a.bytes i

/-- The entry `i` is in use, and neither `.` nor `..`. -/
def InUse (d : Disk) (i : ℕ) : Prop :=
  i < 16 ∧ entryOf d ROOT_SECTOR i ≠ 0 ∧ ¬ IsDots d ROOT_SECTOR i

/-- No two entries have the same name or the same inode. -/
structure RootDir (d : Disk) : Prop where
  sole : ∀ a i j, At d a i → At d a j → i = j
  links : ∀ i j, InUse d i → InUse d j →
    entryOf d ROOT_SECTOR i = entryOf d ROOT_SECTOR j → i = j

section

variable {d d' : Disk} {a b : FileName} {i j n : ℕ}

theorem At.used (h : At d a i) :
  entryOf d ROOT_SECTOR i ≠ 0
  := h.2.1

theorem At.unique (h : At d a i) (h' : At d b i) :
  a = b
  := FileName.ext (strcmp_unique a.ends b.ends h.2.2 h'.2.2)

theorem At.inUse (h : At d a i) :
  InUse d i
  := by
  refine ⟨h.1, h.used, ?_⟩
  rintro (hdot | hdots)
  · exact a.dot (strcmp_unique a.ends (by decide) h.2.2 hdot)
  · exact a.dots (strcmp_unique a.ends (by decide) h.2.2 hdots)

theorem at_of_slotOf (h : slotOf d a = some i) :
  At d a i
  := by
  obtain ⟨hi, hused, hname⟩ := findName_eq_some h
  exact ⟨hi, hused, hname⟩

theorem slotOf_eq_none :
  slotOf d a = none ↔ ∀ i, ¬ At d a i
  := by
  rw [slotOf, findName_eq_none]
  constructor
  · rintro h i ⟨hi, hmatch⟩
    exact h i hi hmatch
  · intro h i hi hmatch
    exact h i ⟨hi, hmatch⟩

theorem RootDir.slotOf_eq_some (h : RootDir d) :
  slotOf d a = some i ↔ At d a i
  := by
  constructor
  · exact at_of_slotOf
  · intro hat
    cases hslot : slotOf d a with
    | none => exact absurd hat (slotOf_eq_none.mp hslot i)
    | some j => rw [h.sole a i j hat (at_of_slotOf hslot)]

/-- The names lead where they did when their entries are where they were. -/
theorem inodeOf_congr (h : RootDir d) (hat : ∀ i, At d' b i ↔ At d b i)
    (hentry : ∀ i, At d b i → entryOf d' ROOT_SECTOR i = entryOf d ROOT_SECTOR i) :
  inodeOf d' b = inodeOf d b
  := by
  cases hslot : slotOf d b with
  | none =>
      have hslot' : slotOf d' b = none := by
        rw [slotOf_eq_none]
        intro i hi
        exact slotOf_eq_none.mp hslot i ((hat i).mp hi)
      rw [inodeOf, inodeOf, hslot, hslot']
      rfl
  | some i =>
      have hi := at_of_slotOf hslot
      cases hslot' : slotOf d' b with
      | none => exact absurd ((hat i).mpr hi) (slotOf_eq_none.mp hslot' i)
      | some j =>
          obtain rfl := h.sole b i j hi ((hat j).mp (at_of_slotOf hslot'))
          rw [inodeOf, inodeOf, hslot, hslot', Option.map_some, Option.map_some, hentry i hi]

/-! ### An entry put in -/

section

variable {filename : List Byte} (hi : i < 16) (hfree : entryOf d ROOT_SECTOR i = 0) (hn : n ≠ 0)
  (hn' : n < 2 ^ 16) (hname : ∀ j < 30, chars filename j = chars a.bytes j)
include hi hn hn' hname

theorem at_entered_self :
  At (entered d ROOT_SECTOR n filename i) b i ↔ b = a
  := by
  have hentry : entryOf (entered d ROOT_SECTOR n filename i) ROOT_SECTOR i = n := by
    rw [entryOf_entered _ _ _ _ _ _ hi, if_pos ⟨rfl, rfl⟩, Nat.mod_eq_of_lt hn']
  have hcmp : strcmp (entryName (contents (entered d ROOT_SECTOR n filename i ROOT_SECTOR) []) i)
      b.bytes = strcmp (chars a.bytes) b.bytes := by
    rw [entered, Function.update_self, strcmp_sector _ hi b.short, strcmp_setEntry _ _ _ _ b.short]
    apply strcmp_congr (Or.inl b.short)
    intro j hj
    exact strncpy_filename a.ends hname hj
  rw [At, Matches, ← entryOf, hentry, hcmp]
  constructor
  · rintro ⟨-, -, hzero⟩
    exact FileName.ext (strcmp_unique b.ends a.ends hzero (strcmp_self a.ends))
  · rintro rfl
    exact ⟨hi, hn, strcmp_self b.ends⟩

theorem inUse_entered_self :
  InUse (entered d ROOT_SECTOR n filename i) i
  := ((at_entered_self hi hn hn' hname).mpr rfl).inUse

omit hi hn hn' hname in
theorem at_entered_of_ne (hne : j ≠ i) :
  At (entered d ROOT_SECTOR n filename i) b j ↔ At d b j
  := by
  rw [At, At]
  apply and_congr_right
  intro hj
  rw [Matches, Matches, ← entryOf, ← entryOf, entryOf_entered _ _ _ _ _ _ hj,
    if_neg (fun h => hne h.2), strcmp_entered d filename hj (fun h => hne h.2) b.short]

omit hi hn hn' hname in
theorem inUse_entered_of_ne (hne : j ≠ i) :
  InUse (entered d ROOT_SECTOR n filename i) j ↔ InUse d j
  := by
  rw [InUse, InUse]
  apply and_congr_right
  intro hj
  rw [entryOf_entered _ _ _ _ _ _ hj, if_neg (fun h => hne h.2),
    isDots_entered filename hj (fun h => hne h.2)]

include hfree

/-- A new name for an inode that has none. -/
theorem RootDir.entered (h : RootDir d) (hnew : slotOf d a = none)
    (hfresh : ∀ j, InUse d j → entryOf d ROOT_SECTOR j ≠ n) :
  RootDir (Minix.entered d ROOT_SECTOR n filename i) ∧
    ∀ b, inodeOf (Minix.entered d ROOT_SECTOR n filename i) b
      = if b = a then some n else inodeOf d b
  := by
  have hself : ∀ {b}, At (Minix.entered d ROOT_SECTOR n filename i) b i ↔ b = a :=
    at_entered_self hi hn hn' hname
  have hentry : ∀ j < 16, entryOf (Minix.entered d ROOT_SECTOR n filename i) ROOT_SECTOR j
      = if j = i then n else entryOf d ROOT_SECTOR j := by
    intro j hj
    rw [entryOf_entered _ _ _ _ _ _ hj, Nat.mod_eq_of_lt hn']
    simp
  have hdir : RootDir (Minix.entered d ROOT_SECTOR n filename i) := by
    constructor
    · intro b j k hj hk
      by_cases hji : j = i <;> by_cases hki : k = i
      · rw [hji, hki]
      · subst hji
        rw [hself] at hj
        rw [at_entered_of_ne hki, hj] at hk
        exact absurd hk (slotOf_eq_none.mp hnew k)
      · subst hki
        rw [hself] at hk
        rw [at_entered_of_ne hji, hk] at hj
        exact absurd hj (slotOf_eq_none.mp hnew j)
      · exact h.sole b j k ((at_entered_of_ne hji).mp hj) ((at_entered_of_ne hki).mp hk)
    · intro j k hj hk heq
      rw [hentry j hj.1, hentry k hk.1] at heq
      by_cases hji : j = i <;> by_cases hki : k = i
      · rw [hji, hki]
      · rw [if_pos hji, if_neg hki] at heq
        exact absurd heq.symm (hfresh k ((inUse_entered_of_ne hki).mp hk))
      · rw [if_neg hji, if_pos hki] at heq
        exact absurd heq (hfresh j ((inUse_entered_of_ne hji).mp hj))
      · rw [if_neg hji, if_neg hki] at heq
        exact h.links j k ((inUse_entered_of_ne hji).mp hj) ((inUse_entered_of_ne hki).mp hk) heq
  use hdir
  intro b
  split_ifs with hb
  · rw [inodeOf, hdir.slotOf_eq_some.mpr (hself.mpr hb), Option.map_some, hentry i hi, if_pos rfl]
  · apply inodeOf_congr h
    · intro j
      by_cases hji : j = i
      · subst hji
        rw [hself]
        constructor
        · intro hba
          exact absurd hba hb
        · intro hat
          exact absurd hfree hat.used
      · exact at_entered_of_ne hji
    · intro j hj
      rw [hentry j hj.1, if_neg]
      rintro rfl
      exact hj.used hfree

end

/-! ### An entry cleared -/

theorem at_removed :
  At (removed d ROOT_SECTOR i) b j ↔ At d b j ∧ j ≠ i
  := by
  rw [At, At, Matches, Matches, ← entryOf, ← entryOf]
  by_cases hji : j = i
  · subst hji
    constructor
    · rintro ⟨hj, hused, -⟩
      rw [entryOf_removed _ _ _ _ hj, if_pos ⟨rfl, rfl⟩] at hused
      exact absurd rfl hused
    · rintro ⟨-, hne⟩
      exact absurd rfl hne
  · rw [and_iff_left hji]
    apply and_congr_right
    intro hj
    rw [entryOf_removed _ _ _ _ hj, if_neg (fun h => hji h.2),
      strcmp_removed d hj (fun h => hji h.2) b.short]

theorem inUse_removed :
  InUse (removed d ROOT_SECTOR i) j ↔ InUse d j ∧ j ≠ i
  := by
  rw [InUse, InUse]
  by_cases hji : j = i
  · subst hji
    constructor
    · rintro ⟨hj, hused, -⟩
      rw [entryOf_removed _ _ _ _ hj, if_pos ⟨rfl, rfl⟩] at hused
      exact absurd rfl hused
    · rintro ⟨-, hne⟩
      exact absurd rfl hne
  · rw [and_iff_left hji]
    apply and_congr_right
    intro hj
    rw [entryOf_removed _ _ _ _ hj, if_neg (fun h => hji h.2),
      isDots_removed hj (fun h => hji h.2)]

theorem entryOf_removed_of_ne (hj : j < 16) (hne : j ≠ i) :
  entryOf (removed d ROOT_SECTOR i) ROOT_SECTOR j = entryOf d ROOT_SECTOR j
  := by
  rw [entryOf_removed _ _ _ _ hj, if_neg (fun h => hne h.2)]

/-- The name is gone, and the others lead where they did. -/
theorem RootDir.removed (h : RootDir d) (hat : At d a i) :
  RootDir (Minix.removed d ROOT_SECTOR i) ∧
    ∀ b, inodeOf (Minix.removed d ROOT_SECTOR i) b = if b = a then none else inodeOf d b
  := by
  constructor
  · constructor
    · intro b j k hj hk
      exact h.sole b j k (at_removed.mp hj).1 (at_removed.mp hk).1
    · intro j k hj hk heq
      obtain ⟨hj, hji⟩ := inUse_removed.mp hj
      obtain ⟨hk, hki⟩ := inUse_removed.mp hk
      rw [entryOf_removed_of_ne hj.1 hji, entryOf_removed_of_ne hk.1 hki] at heq
      exact h.links j k hj hk heq
  · intro b
    split_ifs with hb
    · subst hb
      have hnone : slotOf (Minix.removed d ROOT_SECTOR i) b = none := by
        rw [slotOf_eq_none]
        intro j hj
        obtain ⟨hj, hji⟩ := at_removed.mp hj
        exact hji (h.sole b j i hj hat)
      rw [inodeOf, hnone]
      rfl
    · have hothers : ∀ j, At d b j → j ≠ i := by
        rintro j hj rfl
        exact hb (hj.unique hat)
      apply inodeOf_congr h
      · intro j
        rw [at_removed]
        exact and_iff_left_of_imp (hothers j)
      · intro j hj
        exact entryOf_removed_of_ne hj.1 (hothers j hj)

/-- The directory is a matter of its sector. -/
theorem RootDir.congr (h : RootDir d) (hroot : d' ROOT_SECTOR = d ROOT_SECTOR) :
  RootDir d' ∧ ∀ b, inodeOf d' b = inodeOf d b
  := by
  have hentry : ∀ i, entryOf d' ROOT_SECTOR i = entryOf d ROOT_SECTOR i := by
    intro i
    rw [entryOf, entryOf, hroot]
  have hat : ∀ b i, At d' b i ↔ At d b i := by
    intro b i
    rw [At, At, hroot]
  have huse : ∀ i, InUse d' i ↔ InUse d i := by
    intro i
    rw [InUse, InUse, hentry, isDots_congr hroot]
  constructor
  · constructor
    · intro b i j hi hj
      exact h.sole b i j ((hat b i).mp hi) ((hat b j).mp hj)
    · intro i j hi hj heq
      rw [hentry, hentry] at heq
      exact h.links i j ((huse i).mp hi) ((huse j).mp hj) heq
  · intro b
    exact inodeOf_congr h (hat b) fun i _ => hentry i

end

end Minix
