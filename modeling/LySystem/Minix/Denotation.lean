import LySystem.Minix.Copy
import LySystem.Minix.Distinct

/-!
# Distinct names for distinct files

The characters of a last component that are kept depend on the length of the path before it, and
the field of an entry keeps 30 of them without an end.  A new file is found under its name, and
what another name denotes stays, exactly when the characters kept differ and end within the field.
-/

namespace Minix

open CString

/-! ### Paths in one directory -/

/-- The path of the name `a` in a directory. -/
def inDir (dir a : List Byte) : List Byte := dir ++ slash :: a

/-- The characters of the name that are looked at. -/
def kept (dir a : List Byte) : List Byte := a.take (254 - dir.length)

/-- The characters looked at tell the first name from the second, and end within an entry. -/
def Told (dir a b : List Byte) : Prop := kept dir a ≠ kept dir b ∧ (kept dir a).length < 30

section

variable {path path' dir a b : List Byte}

theorem zero_notMem_inDir (hdir : 0 ∉ dir) (ha : 0 ∉ a) :
  0 ∉ inDir dir a
  := by
  have hslash : (0 : Byte) ≠ slash := by decide
  simp only [inDir, List.mem_append, List.mem_cons, not_or]
  exact ⟨hdir, hslash, ha⟩

/-- A path of 255 characters or more before the name leaves none of it. -/
theorem text_inDir (hdir : 0 ∉ dir) (ha : 0 ∉ a) :
  text (chars (inDir dir a)) 255 =
    if dir.length < 255 then inDir dir (kept dir a) else dir.take 255
  := by
  rw [text_eq_take (zero_notMem_inDir hdir ha), inDir, inDir, kept, List.take_append]
  split_ifs with hlt
  · have hroom : 255 - dir.length = 254 - dir.length + 1 := by omega
    rw [List.take_of_length_le hlt.le, hroom, List.take_succ_cons]
  · have hroom : 255 - dir.length = 0 := by omega
    rw [hroom, List.take_zero, List.append_nil]

theorem text_inDir_eq_iff (hdir : 0 ∉ dir) (ha : 0 ∉ a) (hb : 0 ∉ b) :
  text (chars (inDir dir b)) 255 = text (chars (inDir dir a)) 255 ↔ kept dir b = kept dir a
  := by
  rw [text_inDir hdir ha, text_inDir hdir hb]
  split_ifs with hlt
  · simp only [inDir, List.append_cancel_left_eq, List.cons.injEq, true_and]
  · have hroom : 254 - dir.length = 0 := by omega
    simp only [kept, hroom, List.take_zero]

theorem lt_of_kept_ne (h : kept dir a ≠ kept dir b) :
  dir.length < 255
  := by
  by_contra hlong
  have hroom : 254 - dir.length = 0 := by omega
  rw [kept, kept, hroom] at h
  exact h rfl

theorem lastComponent_inDir (hdir : 0 ∉ dir) (ha : 0 ∉ a) (hslash : slash ∉ a)
    (hlt : dir.length < 255) :
  lastComponent (inDir dir a) = kept dir a
  := by
  have hkept : slash ∉ kept dir a := fun hmem => hslash (List.mem_of_mem_take hmem)
  have hlast : strrchr (inDir dir (kept dir a)) slash = some dir.length := strrchr_append hkept
  rw [lastComponent, text_inDir hdir ha, if_pos hlt]
  simp only [hlast]
  rw [inDir, List.drop_append, Nat.add_sub_cancel_left, List.drop_succ_cons, List.drop_zero,
    List.drop_eq_nil_of_le (Nat.le_succ _), List.nil_append]

theorem ext_chars {l l' : List Byte} (hlen : l.length = l'.length)
    (h : ∀ j < l.length, chars l j = chars l' j) :
  l = l'
  := by
  apply List.ext_getElem hlen
  intro j hj hj'
  have hchars := h j hj
  simpa [chars, List.getD_eq_getElem?_getD, hj, hj'] using hchars

theorem fileName_congr (h : text (chars path') 255 = text (chars path) 255) :
  fileName path' = fileName path
  := by
  have hlast : lastComponent path' = lastComponent path := by rw [lastComponent, h, lastComponent]
  apply ext_chars ((length_fileName path').trans (length_fileName path).symm)
  intro j hj
  rw [length_fileName] at hj
  rw [chars_fileName _ hj, chars_fileName _ hj, hlast]

/-- Of a path 255 characters are looked at. -/
theorem FindEntry_eq_of_text (h : text (chars path') 255 = text (chars path) 255) :
  FindEntry path' = FindEntry path
  := by
  have hname := fileName_congr h
  have hsector : FindSectorOfPathDir path' = FindSectorOfPathDir path := by
    rw [fileName, fileName, h] at hname
    rw [FindSectorOfPathDir, FindSectorOfPathDir, h]
    rw [slash] at hname
    generalize strrchr (text (chars path) 255) _ = slashAt at hname ⊢
    rcases slashAt with _ | _ | last_slash
    · exact congrArg (fun l => pure (ROOT_SECTOR, l)) hname
    · exact congrArg (fun l => pure (ROOT_SECTOR, l)) hname
    · rfl
  rw [FindEntry, FindEntry, findDirectory, findDirectory, hsector]

end

/-! ### A creation that succeeds -/

/-- The directories lie behind the inodes, their names end, and no directory loses its mode to the
inode that is taken next. -/
structure Sane (d : Disk) : Prop extends Closed d {x | LiveDir d x} where
  names : WellNamed d
  fresh : ∀ k, freeInode d = some k → ∀ n, Named d n → IsDir d n →
    n ≠ k + 1 ∧ ¬ (n = k + 1 + 1 ∧ (k + 1) % 16 ≠ 0)

/-- The file name a creation stores is the last component, as far as it is kept. -/
theorem lookupNew_chars {s : State} {path filename : List Byte} {x j : ℕ}
    (h : (run (lookupNew path) s).1 = .ok (x, filename)) (hj : j < 30) :
  chars filename j = chars (lastComponent path) j
  := by
  rw [lookupNew_filename h hj, chars_fileName path hj]

section

variable {s : State} {path filename : List Byte} {x k i : ℕ} (hs : Sane s.disk)
  (hlook : (run (lookupNew path) s).1 = .ok (x, filename))
include hs hlook

/-- The path leads to one directory, whatever surrounds the lookup. -/
theorem Sane.sector {u : State} (hu : u.disk = s.disk) :
  (run (FindSectorOfPathDir path) u).1.1 = x
  := by
  obtain ⟨-, hdirectory, -⟩ := lookupNew_spec hlook
  have hfound : (run (FindEntry path) s).2.disk = s.disk := (readOnly_FindEntry path).disk s
  have hsector : (run (FindSectorOfPathDir path) (run (FindEntry path) s).2).1.1 = x := by
    rw [← findDirectory_fst, hdirectory]
  rw [← hsector]
  exact (hs.names.sameWalks).FindSectorOfPathDir path hfound hu

/-- No entry of the directory has the name, whatever surrounds the lookup. -/
theorem Sane.absent {name : List Byte} (hname : ∀ j < 30, chars name j = chars (lastComponent path) j)
    (behind : List Byte) :
  findName (contents (s.disk x) behind) name = none
  := by
  obtain ⟨hzero, -, hx0⟩ := lookupNew_spec hlook
  obtain ⟨hlive, -⟩ := lookupNew_ok hlook
  rw [run_FindEntry] at hzero
  simp only [hs.sector hlook rfl, if_neg hx0] at hzero
  have hnone : findName (contents (s.disk x) ((run (FindSectorOfPathDir path) s).2.stack 1))
      (fileName path ++ (run (FindSectorOfPathDir path) s).2.stack 0) = none := by
    cases hfound : findName (contents (s.disk x) ((run (FindSectorOfPathDir path) s).2.stack 1))
        (fileName path ++ (run (FindSectorOfPathDir path) s).2.stack 0) with
    | none => rfl
    | some j =>
        obtain ⟨hj, hused, -⟩ := findName_eq_some hfound
        rw [entryInode_contents _ _ hj] at hused
        rw [hfound] at hzero
        exact absurd hzero hused
  rw [← hnone]
  apply findName_congr_iff
  intro j hj
  apply matches_congr hj (hs.names x j hlive hj) rfl (fun _ _ => rfl)
  intro l hl
  rw [hname l hl, chars_fileName_append _ _ hl]

theorem Sane.enrolled (hk : freeInode s.disk = some k)
    (hfree : freeEntry (createdFile s.disk k) x = some i) :
  Enrolled s.disk (entered (createdFile s.disk k) x (k + 1) filename i) x i (k + 1) filename
  := by
  obtain ⟨hlive, hx0⟩ := lookupNew_ok hlook
  obtain ⟨hi, hzero⟩ := freeEntry_spec hfree
  have hn := InTable.of_freeInode hk
  have hrec := createdFile_rewritten s.disk hk
  have hfile := createdFile_not_dir hk
  have hsector : ∀ y, LiveDir s.disk y → createdFile s.disk k y = s.disk y :=
    fun y hy => createdFile_sector s.disk hk (hs.apart y hy)
  have htable : SameTable (createdFile s.disk k)
      (entered (createdFile s.disk k) x (k + 1) filename i) :=
    SameTable.update (Or.inr ((hs.apart x hlive).resolve_left hx0)) _
  have hdir : ∀ m, InTable m → (IsDir (entered (createdFile s.disk k) x (k + 1) filename i) m ↔
      IsDir (createdFile s.disk k) m) :=
    fun m hm => isDir_congr (modeOf_congr (htable.sector hm))
  constructor
  · exact hlive
  · exact hi
  · rwa [entryOf_congr (hsector x hlive)] at hzero
  · rw [entryOf_entered _ _ _ _ _ _ hi, if_pos ⟨rfl, rfl⟩]
    have := hn.2
    omega
  · exact Nat.succ_ne_zero k
  · intro j hj
    rw [nameOf_entered hi hj, if_pos ⟨rfl, rfl⟩]
  · intro y j hy hj hne
    rw [entryOf_entered _ _ _ _ _ _ hj, if_neg hne, entryOf_congr (hsector y hy)]
  · intro y j hy hj hne l hl
    rw [nameOf_entered hj hl, if_neg hne, nameOf_congr (hsector y hy)]
  · rwa [hdir _ hn]
  · intro m hm
    have hm' := hs.inTable hm
    rw [hdir m hm']
    by_cases hself : m = k + 1
    · subst hself
      exact iff_of_false hfile fun h => (hs.fresh k hk _ hm h).1 rfl
    · by_cases hnext : m = k + 1 + 1 ∧ (k + 1) % 16 ≠ 0
      · apply iff_of_false
        · obtain ⟨rfl, hmod⟩ := hnext
          rw [IsDir, hrec.next hmod, CreateFile_record.2.1]
          decide
        · exact fun h => (hs.fresh k hk _ hm h).2 hnext
      · exact isDir_congr (hrec.modes m hm' hself hnext)
  · intro m hm hmdir
    have hm' := hs.inTable hm
    rw [zoneOf_congr (htable.sector hm'),
      hrec.zones m 0 hm' (hs.fresh k hk _ hm hmdir).1 (by decide)]

end

/-! ### Names without an end -/

/-- Bytes on the stack that differ from `c`, and each from the next. -/
def noise (c : Byte) (j : ℕ) : List Byte := [c + 1 + BitVec.ofNat 8 (j % 2)]

theorem noise_ne (c : Byte) (j : ℕ) :
  chars (noise c j) 0 ≠ c ∧ chars (noise c j) 0 ≠ chars (noise c (j + 1)) 0
  := by
  have hchars : ∀ j, chars (noise c j) 0 = c + 1 + BitVec.ofNat 8 (j % 2) := fun _ => rfl
  rw [hchars, hchars]
  rcases Nat.mod_two_eq_zero_or_one j with hj | hj
  · have hnext : (j + 1) % 2 = 1 := by omega
    rw [hj, hnext]
    constructor <;> bv_omega
  · have hnext : (j + 1) % 2 = 0 := by omega
    rw [hj, hnext]
    constructor <;> bv_omega

section

variable {d d' : Disk} {x i n : ℕ} {filename path : List Byte}

/-- A file whose name fills the field of its entry is not found when what lies behind the name is
not what lies behind the field. -/
theorem Enrolled.not_resolves (h : Enrolled d d' x i n filename) (hd : WellNamed d)
    (hlong : 30 ≤ (lastComponent path).length)
    (hsector : ∀ s : State, s.disk = d' → (run (FindSectorOfPathDir path) s).1.1 = x)
    (hx0 : x ≠ 0) :
  ¬ Resolves d' path n
  := by
  intro hres
  have hzero := (lastComponent_spec path).1
  have hused : ∀ j < 30, chars (lastComponent path) j ≠ 0 := by
    intro j hj hzero'
    have := (chars_eq_zero_iff hzero).mp hzero'
    omega
  let c := contents (d' x) [] (32 * i + 32)
  let s : State := ⟨d', none, noise c⟩
  obtain ⟨m, hm⟩ := run_stack_shift s (FindSectorOfPathDir path)
  have hbehind : (run (FindSectorOfPathDir path) s).2.stack 0 = noise c m := by
    rw [hm, Nat.zero_add]
  have hbuffer : (run (FindSectorOfPathDir path) s).2.stack 1 = noise c (m + 1) := by
    rw [hm, Nat.add_comm]
  have hnone : findName (contents (d' x) (noise c (m + 1))) (fileName path ++ noise c m) = none := by
    apply findName_eq_none.mpr
    rintro j hj ⟨hentry, hmatch⟩
    obtain ⟨e, hend, hbefore, hagree⟩ := strcmp_eq_zero_iff.mp hmatch
    have hlong' : 30 ≤ e := by
      by_contra hlt
      apply hused e (by omega)
      rw [← chars_fileName_append path (noise c m) (by omega), hagree e le_rfl, hend]
    by_cases hself : j = i
    · subst hself
      -- The byte behind the name is not the one behind the field.
      have hbyte := hagree 30 hlong'
      rw [chars_append, length_fileName, if_neg (by decide), Nat.sub_self] at hbyte
      have hplace : 32 * j + 2 + 30 = 32 * j + 32 := by omega
      rw [entryName, Memory.drop, hplace] at hbyte
      by_cases hlast : 32 * j + 32 < 512
      · apply (noise_ne c m).1
        rw [hbyte, contents_lt _ _ hlast]
        exact (contents_lt _ [] hlast).symm
      · apply (noise_ne c m).2
        rw [hbyte, contents, dif_neg hlast]
        have hj16 : 32 * j + 32 - 512 = 0 := by omega
        rw [hj16]
        rfl
    · -- The other names end within the field.
      have hne : ¬ (x = x ∧ j = i) := fun hxi => hself hxi.2
      rw [entryInode_contents _ _ hj, ← entryOf, h.entries x j h.live hj hne] at hentry
      obtain ⟨l, hl, -, hzero', -⟩ := hd x j h.live hj hentry
      apply hbefore l (by omega)
      rw [entryName_contents _ _ _ hj hl, h.names x j h.live hj hne l hl, hzero']
  have hfound := hres s rfl
  rw [run_FindEntry] at hfound
  simp only [hsector s rfl, if_neg hx0, hbehind, hbuffer] at hfound
  have hdisk : s.disk = d' := rfl
  rw [hdisk, hnone] at hfound
  exact h.used hfound.symm

end

/-- The path of a new file leads to it, whatever surrounds the lookup, exactly when its name ends
within its entry. -/
theorem Sane.resolves_created_iff {s : State} {d' : Disk} {path filename : List Byte} {x i n : ℕ}
    (hs : Sane s.disk) (hlook : (run (lookupNew path) s).1 = .ok (x, filename))
    (h : Enrolled s.disk d' x i n filename) :
  Resolves d' path n ↔ (lastComponent path).length < 30
  := by
  have hx0 := (lookupNew_ok hlook).2
  have hfilename : ∀ j < 30, chars filename j = chars (lastComponent path) j :=
    fun j hj => lookupNew_chars hlook hj
  have hwalks := h.sameWalks hs.names (hs.absent hlook hfilename [])
  have hsector : ∀ u : State, u.disk = s.disk → (run (FindSectorOfPathDir path) u).1.1 = x :=
    fun u hu => hs.sector hlook hu
  constructor
  · intro hres
    by_contra hlong
    apply h.not_resolves hs.names (by omega) _ hx0 hres
    intro v hv
    rw [hwalks.FindSectorOfPathDir _ (s := s) rfl hv]
    exact hsector _ rfl
  · intro hlt
    apply h.resolves_new hfilename hs.names hlt hsector hx0 _ hwalks
    intro behind behind'
    exact hs.absent hlook (fun j hj => chars_fileName_append _ _ hj) behind

/-! ### Two names -/

/-- The new file is found under its name, and the other name denotes what it did, whatever the
buffers hold. -/
def Distinct (s : State) (dir a b : List Byte) : Prop :=
  let r := run (minix_CreateFile (inDir dir a)) s
  ∃ k, freeInode s.disk = some k ∧ Resolves r.2.disk (inDir dir a) (k + 1) ∧
    ∃ n, Resolves s.disk (inDir dir b) n ∧ Resolves r.2.disk (inDir dir b) n

theorem emptyDisk_sane :
  Sane emptyDisk
  := by
  have hentries : ∀ i < 16, entryOf emptyDisk ROOT_SECTOR i ≠ 0 →
      entryOf emptyDisk ROOT_SECTOR i = 1 := by decide +kernel
  have hfree : freeInode emptyDisk = some 2 := by decide +kernel
  refine ⟨emptyDisk_emptyRoot.flat.toOwned.guarded.toClosed, emptyDisk_wellNamed, ?_⟩
  rintro k hk n ⟨hused, x, i, hx, hi, rfl⟩ -
  rw [emptyDisk_live hx] at hused ⊢
  rw [hfree, Option.some.injEq] at hk
  rw [hentries i hi hused]
  omega

end Minix
