import LySystem.Minix.Resolve

/-!
# The contents of files

On a disk whose zones belong to one inode each, a file written is read back as it was
written, and no other file or directory changes: the bitmap, the zone and the inode that a
write touches are apart from all that a lookup or the reading of another file looks at.
-/

namespace Minix

open CString

/-! ### Disks -/

/-- The zone bitmap marks the zone as used. -/
def ZoneUsed (d : Disk) (k : ℕ) : Prop := Bitmap.test (contents (d ZONE_BITMAP_LBA) []) k = true

/-- A disk whose zones are marked and belong to one inode each. -/
structure Sound (d : Disk) : Prop where
  /-- The zones up to that of the root directory are marked as used. -/
  system : ∀ k ≤ 219, ZoneUsed d k
  named : ∀ n, Named d n → InTable n
  zones : ∀ n z, InTable n → z < 7 → zoneOf d n z ≠ 0 →
    219 ≤ zoneOf d n z ∧ zoneOf d n z ≤ 4095 ∧ ZoneUsed d (zoneOf d n z)
  owner : ∀ n z n' z', InTable n → InTable n' → z < 7 → z' < 7 → zoneOf d n z ≠ 0 →
    zoneOf d n z = zoneOf d n' z' → n = n'
  /-- The zone of the root directory is in the inode of a directory only. -/
  root : ∀ n z, InTable n → z < 7 → zoneOf d n z = 219 → IsDir d n
  size : ∀ n, Named d n → ¬ IsDir d n → sizeOf d n ≤ 512

/-- The sector of a directory other than the root directory. -/
theorem LiveDir.cases {d : Disk} {x : ℕ} (h : LiveDir d x) :
  x = ROOT_SECTOR ∨ ∃ n, Named d n ∧ IsDir d n ∧ x = zoneOf d n 0 * 2
  := by
  cases h with
  | root => left; rfl
  | sub hx hi hused hdir => exact Or.inr ⟨_, ⟨hused, _, _, hx, hi, rfl⟩, hdir, rfl⟩

/-! ### Taking a zone -/

/-- The zone of an inode that has one, or a zone that was not in use. -/
structure Zoned (d d' : Disk) (buf buf' : Memory) (o : ℕ) : Prop where
  zone : i_zone buf' o 0 = i_zone buf o 0 ∧ i_zone buf o 0 ≠ 0 ∨
    i_zone buf o 0 = 0 ∧ i_zone buf' o 0 < 4096 ∧ ¬ ZoneUsed d (i_zone buf' o 0)
  buffer : ∀ x, x < o + 14 ∨ o + 16 ≤ x → buf' x = buf x
  disk : ∀ lba, lba ≠ ZONE_BITMAP_LBA → d' lba = d lba

theorem withZone_zoned {buf buf' : Memory} {o : ℕ} {s : State}
    (h : (run (minix_WriteFile.withZone buf o) s).1 = some buf') :
  Zoned s.disk (run (minix_WriteFile.withZone buf o) s).2.disk buf buf' o
  := by
  rw [minix_WriteFile.withZone] at h ⊢
  simp only [run_ite, run_bind, run_pure, run_takeBit] at h ⊢
  split_ifs at h ⊢ with hzero
  · cases hfind : Bitmap.firstClear (contents (s.disk ZONE_BITMAP_LBA) []) (fun _ => true) 512 with
    | none =>
        rw [hfind] at h
        cases h
    | some k =>
        rw [hfind] at h
        obtain rfl := Option.some.inj h
        obtain ⟨hlt, hclear, -⟩ := Bitmap.firstClear_eq_some hfind
        have hzone : i_zone (set_i_zone buf o 0 k) o 0 = k := i_zone_set_self _ _ _ (by omega)
        constructor
        · right
          rw [hzone, ZoneUsed, hclear]
          use hzero, by omega
          simp
        · intro x hx
          apply Memory.store_outside
          omega
        · intro lba hlba
          apply Function.update_of_ne hlba
  · obtain rfl := Option.some.inj h
    exact ⟨Or.inl ⟨rfl, hzero⟩, fun _ _ => rfl, fun _ _ => rfl⟩

/-- Without a zone to take nothing is written. -/
theorem withZone_none {buf : Memory} {o : ℕ} {s : State}
    (h : (run (minix_WriteFile.withZone buf o) s).1 = none) :
  (run (minix_WriteFile.withZone buf o) s).2 = s
  := by
  rw [minix_WriteFile.withZone] at h ⊢
  simp only [run_ite, run_bind, run_pure, run_takeBit] at h ⊢
  split_ifs at h ⊢
  · cases hfind : Bitmap.firstClear (contents (s.disk ZONE_BITMAP_LBA) []) (fun _ => true) 512 with
    | none => rfl
    | some k =>
        rw [hfind] at h
        cases h

/-! ### Writing -/

/-- The size of an inode after a write of `c` bytes. -/
theorem grow_size (buf : Memory) (o : ℕ) {c : ℕ} (hc : c ≤ 512) :
  i_size (minix_WriteFile.grow buf o c) o = max (i_size buf o) c
  := by
  rw [minix_WriteFile.grow, toU32_natCast (by omega)]
  split_ifs with hlt
  · rw [i_size, set_i_size, Memory.load_store, max_eq_right hlt.le]
    omega
  · rw [max_eq_left (by omega)]

theorem grow_outside (buf : Memory) {o x : ℕ} (c : ℤ) (h : x < o + 4 ∨ o + 8 ≤ x) :
  minix_WriteFile.grow buf o c x = buf x
  := by
  rw [minix_WriteFile.grow]
  split_ifs
  · apply Memory.store_outside
    omega
  · rfl

/-- The disk after `c` bytes of `input` have been written to the inode `n`, whose zone is `z`. -/
structure Written (d d' : Disk) (n z : ℕ) (input : Memory) (c : ℕ) : Prop where
  zone : zoneOf d n 0 = z ∧ z ≠ 0 ∨ zoneOf d n 0 = 0 ∧ z < 4096 ∧ ¬ ZoneUsed d z
  zone' : zoneOf d' n 0 = z
  size : sizeOf d' n = max (sizeOf d n) c
  mode : modeOf d' n = modeOf d n
  data : ∀ behind, ∀ i < c, contents (d' (z * 2)) behind i = input i
  records : ∀ m, InTable m → m ≠ n → ∀ behind, record d' m behind = record d m behind
  others : ∀ lba, lba ≠ ZONE_BITMAP_LBA → lba ≠ z * 2 → lba ≠ inodeSector n → d' lba = d lba

theorem run_WriteFile {p : List Byte} {s : State} (hn : (run (FindEntry p) s).1 ≠ 0)
    (input : Memory) (c : ℤ) :
  run (minix_WriteFile p input c) s =
    let n := (run (FindEntry p) s).1
    let t := (run (FindEntry p) s).2
    let found :=
      run (minix_WriteFile.withZone (contents (t.disk (inodeSector n)) []) (inodeOffset n)) t
    match found.1 with
    | none => (-ENOSPC, found.2)
    | some buf =>
        let to_write := if 512 < c then 512 else c
        (to_write,
          { found.2 with
            disk :=
              Function.update
                (Function.update found.2.disk (i_zone buf (inodeOffset n) 0 * 2)
                  (sector (Memory.copy (fun _ => 0) 0 input (toU64 to_write))))
                (inodeSector n) (sector (minix_WriteFile.grow buf (inodeOffset n) to_write)) })
  := by
  simp only [minix_WriteFile, run_bind, if_neg hn, run_read]
  cases (run (minix_WriteFile.withZone _ _) _).1 with
  | none => rfl
  | some buf => simp

/-- The zone a write goes to lies behind that of the root directory. -/
theorem Sound.zone_gt {d d' : Disk} {n : ℕ} {buf : Memory} (hd : Sound d) (hn : InTable n)
    (hfile : ¬ IsDir d n)
    (hz : Zoned d d' (contents (d (inodeSector n)) []) buf (inodeOffset n)) :
  219 < i_zone buf (inodeOffset n) 0 ∧ i_zone buf (inodeOffset n) 0 ≤ 4095
  := by
  rcases hz.zone with ⟨hkept, hne⟩ | ⟨-, hlt, hfree⟩
  · obtain ⟨hlo, hhi, -⟩ := hd.zones n 0 hn (by decide) hne
    have hroot : zoneOf d n 0 ≠ 219 := fun h => hfile (hd.root n 0 hn (by decide) h)
    rw [hkept]
    rw [zoneOf] at hlo hhi hroot
    omega
  · have hroot : ¬ i_zone buf (inodeOffset n) 0 ≤ 219 := fun h => hfree (hd.system _ h)
    omega

theorem Zoned.written {d e : Disk} {n c : ℕ} {buf : Memory} (hn : InTable n) (hc : c ≤ 512)
    (hz : Zoned d e (contents (d (inodeSector n)) []) buf (inodeOffset n))
    (hlo : 219 < i_zone buf (inodeOffset n) 0) (input : Memory) :
  Written d
    (Function.update
      (Function.update e (i_zone buf (inodeOffset n) 0 * 2)
        (sector (Memory.copy (fun _ => 0) 0 input c)))
      (inodeSector n) (sector (minix_WriteFile.grow buf (inodeOffset n) c)))
    n (i_zone buf (inodeOffset n) 0) input c
  := by
  have hoff := inodeOffset_le hn.ne_zero
  have hsec := hn.sector
  have hapart : i_zone buf (inodeOffset n) 0 * 2 ≠ inodeSector n := by omega
  -- The fields of the inode are those in the buffer written.
  have hload : ∀ k j, k + j ≤ 32 →
      (contents (sector (minix_WriteFile.grow buf (inodeOffset n) c)) []).load
        (inodeOffset n + k) j =
      (minix_WriteFile.grow buf (inodeOffset n) c).load (inodeOffset n + k) j := by
    intro k j hk
    apply load_contents_sector
    omega
  constructor
  · rcases hz.zone with ⟨hkept, hne⟩ | hnew
    · left
      rw [hkept]
      exact ⟨rfl, hne⟩
    · right
      apply hnew
  · rw [zoneOf, Function.update_self, i_zone, Nat.add_assoc, hload _ _ (by decide), i_zone]
    apply Memory.load_congr
    intro i hi
    apply grow_outside
    omega
  · rw [sizeOf, Function.update_self, i_size, hload _ _ (by decide), ← i_size, grow_size _ _ hc]
    congr 1
    apply Memory.load_congr
    intro i hi
    apply hz.buffer
    omega
  · rw [modeOf, Function.update_self]
    refine (hload 0 2 (by decide)).trans ?_
    apply Memory.load_congr
    intro i hi
    rw [Nat.add_zero, grow_outside _ _ (by omega), hz.buffer _ (by omega)]
  · intro behind i hi
    rw [Function.update_of_ne hapart, Function.update_self, contents_sector _ _ (by omega)]
    have := Memory.splice_inside (fun _ => 0) (a := 0) input hi
    rwa [Nat.zero_add] at this
  · intro m hm hne behind
    have hsecm := hm.sector
    have hoffm := inodeOffset_le hm.ne_zero
    by_cases hsame : inodeSector m = inodeSector n
    · funext i
      rw [record, record, hsame, Function.update_self]
      by_cases hi : inodeOffset m + i < 512
      · have hoff := inodeOffset_eq hn.ne_zero
        have hoffm := inodeOffset_eq hm.ne_zero
        rw [inodeSector_eq hm.ne_zero, inodeSector_eq hn.ne_zero] at hsame
        have hi34 := i.isLt
        have hm1 := hm.1
        have hn1 := hn.1
        rw [contents_sector _ _ hi, grow_outside _ _ (by omega), hz.buffer _ (by omega),
          contents_lt _ _ hi, contents_lt _ _ hi]
      · rw [contents, contents, dif_neg hi, dif_neg hi]
    · have hzone : inodeSector m ≠ ZONE_BITMAP_LBA := by
        rw [ZONE_BITMAP_LBA]
        omega
      unfold record
      rw [Function.update_of_ne hsame, Function.update_of_ne (by omega), hz.disk _ hzone]
  · intro lba hzone hdata hinode
    rw [Function.update_of_ne hinode, Function.update_of_ne hdata, hz.disk _ hzone]

theorem WriteFile_written {p : List Byte} {s : State} {n c : ℕ} (hd : Sound s.disk)
    (hp : (run (FindEntry p) s).1 = n) (hn : InTable n) (hfile : ¬ IsDir s.disk n) (hc : c ≤ 512)
    (input : Memory) (h : 0 ≤ (run (minix_WriteFile p input c) s).1) :
  (run (minix_WriteFile p input c) s).1 = c ∧
    ∃ z, 219 < z ∧ z ≤ 4095 ∧
      Written s.disk (run (minix_WriteFile p input c) s).2.disk n z input c
  := by
  have hwrite : (if (512 : ℤ) < c then (512 : ℤ) else c) = c := if_neg (by omega)
  have hcopy : toU64 c = c := toU64_natCast (by omega)
  have hdisk := (readOnly_FindEntry p).disk s
  rw [run_WriteFile (by rw [hp]; apply hn.ne_zero)] at h ⊢
  simp only [hp, hwrite, hcopy, hdisk] at h ⊢
  cases hfound : (run (minix_WriteFile.withZone (contents (s.disk (inodeSector n)) [])
      (inodeOffset n)) (run (FindEntry p) s).2).1 with
  | none =>
      rw [hfound] at h
      simp [ENOSPC] at h
  | some buf =>
      have hz := withZone_zoned hfound
      rw [hdisk] at hz
      obtain ⟨hlo, hhi⟩ := hd.zone_gt hn hfile hz
      exact ⟨rfl, _, hlo, hhi, hz.written hn hc hlo input⟩

/-! ### What a write keeps -/

section

variable {d d' : Disk} {n z c : ℕ} {input : Memory}

/-- No other inode has the zone written. -/
theorem Written.zone_ne (h : Written d d' n z input c) (hd : Sound d) (hn : InTable n)
    (hz : z ≠ 0) {m k : ℕ} (hm : InTable m) (hne : m ≠ n) (hk : k < 7) :
  zoneOf d m k ≠ z
  := by
  intro heq
  rcases h.zone with ⟨hold, -⟩ | ⟨-, -, hfree⟩
  · apply hne
    apply hd.owner m k n 0 hm hn hk (by decide)
    · rw [heq]
      apply hz
    · rw [heq, hold]
  · apply hfree
    rw [← heq] at hz ⊢
    apply (hd.zones m k hm hk hz).2.2

theorem Written.fields (h : Written d d' n z input c) {m : ℕ} (hm : InTable m) (hne : m ≠ n)
    {k j : ℕ} (hk : k + j ≤ 32) :
  (contents (d' (inodeSector m)) []).load (inodeOffset m + k) j =
    (contents (d (inodeSector m)) []).load (inodeOffset m + k) j
  := by
  rw [← load_record d' hm.ne_zero [] hk, h.records m hm hne, load_record d hm.ne_zero [] hk]

theorem Written.mode_eq (h : Written d d' n z input c) {m : ℕ} (hm : InTable m) :
  modeOf d' m = modeOf d m
  := by
  by_cases hne : m = n
  · rw [hne, h.mode]
  · apply h.fields hm hne (k := 0) (by decide)

theorem Written.size_eq (h : Written d d' n z input c) {m : ℕ} (hm : InTable m) (hne : m ≠ n) :
  sizeOf d' m = sizeOf d m
  := h.fields hm hne (by decide)

theorem Written.zone_eq (h : Written d d' n z input c) {m : ℕ} (hm : InTable m) (hne : m ≠ n) :
  zoneOf d' m 0 = zoneOf d m 0
  := h.fields hm hne (k := 14) (by decide)

/-- The sectors of directories and of the zones of other inodes are not written. -/
theorem Written.sector_eq (h : Written d d' n z input c) (hn : InTable n) {x : ℕ}
    (hx : x = 0 ∨ 219 ≤ x) (hz : x ≠ z) :
  d' (x * 2) = d (x * 2)
  := by
  have hsec := hn.sector
  apply h.others
  · rw [ZONE_BITMAP_LBA]
    omega
  · omega
  · omega

/-- A write to a file changes no directory. -/
theorem Written.sameTree (h : Written d d' n z input c) (hd : Sound d) (hn : InTable n)
    (hfile : ¬ IsDir d n) (hz : 219 < z) :
  SameTree d d'
  := by
  constructor
  · intro x hx
    rcases hx.cases with rfl | ⟨m, hm, hdir, rfl⟩
    · apply h.sector_eq hn (x := 219) (by omega) (by omega)
    · have hne : m ≠ n := by
        rintro rfl
        apply hfile hdir
      have htable := hd.named m hm
      apply h.sector_eq hn
      · rcases Nat.eq_zero_or_pos (zoneOf d m 0) with hzero | hpos
        · left
          apply hzero
        · right
          apply (hd.zones m 0 htable (by decide) (by omega)).1
      · apply h.zone_ne hd hn (by omega) htable hne (by decide)
  · intro m hm
    apply h.mode_eq (hd.named m hm)
  · intro m hm hdir
    apply h.zone_eq (hd.named m hm)
    rintro rfl
    apply hfile hdir

end

/-! ### Reading -/

/-- What `minix_ReadFile` returns for a file of `size` bytes with the data `data` in the zone
`zone`. -/
def readResult (size zone : ℕ) (data mem : Memory) (output : ℕ) (count : ℤ) : ℤ × Memory :=
  let actual_to_read := if size < toU32 count then s32 size else count
  let padding_needed := if size < toU32 count then s32 (toU32 (count - size)) else 0
  let mem :=
    if 0 < actual_to_read ∧ zone ≠ 0 then mem.copy output data (toU64 actual_to_read) else mem
  if 0 < padding_needed then
    (actual_to_read, mem.fill (toU64 (output + actual_to_read)) (toU64 padding_needed) 0)
  else (actual_to_read, mem)

theorem run_copyOut (inode : Inode) (mem : Memory) (output : ℕ) (actual_to_read : ℤ) (s : State) :
  (run (minix_ReadFile.copyOut inode mem output actual_to_read) s).1 =
    if 0 < actual_to_read ∧ i_zone inode.fields 0 0 ≠ 0 then
      mem.copy output (contents (s.disk (i_zone inode.fields 0 0 * 2)) (s.stack 0))
        (toU64 actual_to_read)
    else mem
  := by
  rw [minix_ReadFile.copyOut, run_ite]
  split_ifs <;> simp

theorem run_ReadFile {p : List Byte} {s : State} {n : ℕ} (hp : (run (FindEntry p) s).1 = n)
    (hn : n ≠ 0) (mem : Memory) (output : ℕ) (count : ℤ) :
  (run (minix_ReadFile p mem output count) s).1 =
    readResult (sizeOf s.disk n) (zoneOf s.disk n 0)
      (contents (s.disk (zoneOf s.disk n 0 * 2)) ((run (FindEntry p) s).2.stack 1))
      mem output count
  := by
  have hdisk := (readOnly_FindEntry p).disk s
  rw [minix_ReadFile, run_bind, hp, if_neg hn]
  simp only [run_bind, run_GetInode, run_ite, run_pure, apply_ite Prod.fst, run_copyOut, hdisk,
    i_size_record _ hn, i_zone_record _ hn]
  rfl

/-- A file of at most 512 bytes with a zone, read into a buffer. -/
theorem readResult_spec {size zone m : ℕ} (hsize : size ≤ 512) (hzone : zone ≠ 0) (hm : m ≤ 512)
    (data mem : Memory) (output : ℕ) :
  (readResult size zone data mem output m).1 = min m size ∧
    ∀ i < min m size, (readResult size zone data mem output m).2 (output + i) = data i
  := by
  have hcount : toU32 m = m := toU32_natCast (by omega)
  have hcopied : ∀ k : ℕ, k ≤ 512 → ∀ i < k,
      (if 0 < (k : ℤ) ∧ zone ≠ 0 then mem.copy output data (toU64 k) else mem) (output + i) =
        data i := by
    intro k hk i hi
    rw [if_pos ⟨by omega, hzone⟩, toU64_natCast (by omega)]
    apply Memory.splice_inside _ _ hi
  rw [readResult, hcount]
  by_cases hlt : size < m
  · have hactual : s32 size = size := s32_of_lt (by omega)
    have hpad : s32 (toU32 ((m : ℤ) - size)) = m - size := by
      rw [s32, toU32, if_pos (by omega)]
      omega
    simp only [if_pos hlt, hactual, hpad]
    rw [if_pos (by omega)]
    constructor
    · simp only
      omega
    · intro i hi
      -- The bytes padded lie behind those copied.
      simp only [Memory.fill]
      rw [Memory.splice_outside, hcopied size hsize i (by omega)]
      rw [toU64, toU64]
      omega
  · simp only [if_neg hlt]
    rw [if_neg (by omega)]
    constructor
    · simp only
      omega
    · intro i hi
      apply hcopied m hm i (by omega)

/-- A file written is read back, and the others are read as before. -/
theorem write_read {s : State} {p : List Byte} {n c : ℕ} (hd : Sound s.disk)
    (hp : Resolves s.disk p n) (hn : n ≠ 0) (hfile : ¬ IsDir s.disk n) (hc : c ≤ 512)
    (input : Memory) :
  let r := run (minix_WriteFile p input c) s
  0 ≤ r.1 →
    r.1 = c ∧
      (∀ (t : State) (mem : Memory) (output m : ℕ), t.disk = r.2.disk → m ≤ 512 →
        let q := (run (minix_ReadFile p mem output m) t).1
        q.1 = min m (max (sizeOf s.disk n) c) ∧ ∀ i < min m c, q.2 (output + i) = input i) ∧
      ∀ (path : List Byte) (k : ℕ), Resolves s.disk path k → k ≠ n →
        ∀ (t : State) (mem : Memory) (output : ℕ) (count : ℤ), t.disk = s.disk →
          (run (minix_ReadFile path mem output count) { t with disk := r.2.disk }).1 =
            (run (minix_ReadFile path mem output count) t).1
  := by
  have hnamed := hp.named hn
  have htable := hd.named n hnamed
  have hwritten := WriteFile_written hd (hp s rfl) htable hfile hc input
  generalize run (minix_WriteFile p input c) s = r at hwritten ⊢
  change 0 ≤ r.1 → _
  intro hr
  obtain ⟨hret, z, hlo, -, hw⟩ := hwritten hr
  have htree := hw.sameTree hd htable hfile hlo
  use hret
  constructor
  · intro t mem output m ht hm
    have hfind := hp.of_sameTree htree t ht
    have hsize : max (sizeOf s.disk n) c ≤ 512 := max_le (hd.size n hnamed hfile) hc
    have hz : z ≠ 0 := by omega
    simp only [run_ReadFile hfind hn, ht]
    rw [hw.size, hw.zone']
    obtain ⟨hvalue, hbytes⟩ :=
      readResult_spec hsize hz hm (contents (r.2.disk (z * 2)) _) mem output
    use hvalue
    intro i hi
    rw [hbytes i (by omega), hw.data _ i (by omega)]
  · intro path k hk hne t mem output count ht
    have hbefore := hk t ht
    have hafter := hk.of_sameTree htree { t with disk := r.2.disk } rfl
    by_cases hzero : k = 0
    · simp [minix_ReadFile, hbefore, hafter, hzero]
    · have hktable := hd.named k (hk.named hzero)
      have hsame : SameAt r.2.disk (FindEntry path) t := by
        apply SameTree.FindEntry
        rwa [ht]
      rw [run_ReadFile hbefore hzero, run_ReadFile hafter hzero, hsame]
      simp only [ht]
      rw [hw.size_eq hktable hne, hw.zone_eq hktable hne]
      by_cases hkzone : zoneOf s.disk k 0 = 0
      · simp [readResult, hkzone]
      · rw [hw.sector_eq htable]
        · right
          apply (hd.zones k 0 hktable (by decide) hkzone).1
        · apply hw.zone_ne hd htable (by omega) hktable hne (by decide)

/-! ### The small file system -/

theorem twoFiles_zone {n z : ℕ} (hn : InTable n) (hz : z < 7) (hne : zoneOf twoFiles n z ≠ 0) :
  n = 1 ∧ z = 0
  := by
  have hfirst : ∀ n < 17, ∀ z < 7, n ≠ 0 → zoneOf twoFiles n z ≠ 0 → n = 1 ∧ z = 0 := by
    decide +kernel
  by_cases hlt : n < 17
  · apply hfirst n hlt z hz hn.ne_zero hne
  · have hsec := hn.sector
    have hrest : twoFiles (inodeSector n) = fun _ => 0 := by
      have := inodeSector_eq hn.ne_zero
      unfold twoFiles
      rw [Function.update_of_ne (by rw [ROOT_SECTOR]; omega), Function.update_of_ne (by omega),
        Function.update_of_ne (by rw [ZONE_BITMAP_LBA]; omega),
        Function.update_of_ne (by rw [INODE_BITMAP_LBA]; omega)]
    exfalso
    apply hne
    rw [zoneOf, hrest]
    have hoff := inodeOffset_le hn.ne_zero
    have hzero : ∀ i < 2, contents (fun _ => 0) [] (inodeOffset n + 14 + 2 * z + i) =
        BitVec.ofNat 8 (0 / 256 ^ i) := by
      intro i hi
      rw [contents_lt _ _ (by omega), Nat.zero_div]
      rfl
    apply Memory.load_of_digits hzero

theorem twoFiles_sound :
  Sound twoFiles
  := by
  constructor
  · have hmarked : ∀ k < 220, ZoneUsed twoFiles k := by
      unfold ZoneUsed
      decide +kernel
    intro k hk
    apply hmarked k (by omega)
  · intro n hn
    rcases twoFiles_named.mp hn with rfl | rfl | rfl
    all_goals exact ⟨by decide, by decide⟩
  · intro n z hn hz hne
    obtain ⟨rfl, rfl⟩ := twoFiles_zone hn hz hne
    unfold ZoneUsed
    decide +kernel
  · intro n z n' z' hn hn' hz hz' hne heq
    rw [(twoFiles_zone hn hz hne).1]
    rw [heq] at hne
    rw [(twoFiles_zone hn' hz' hne).1]
  · intro n z hn hz heq
    obtain ⟨rfl, rfl⟩ := twoFiles_zone hn hz (by omega)
    apply (twoFiles_dir (Or.inl rfl)).mpr rfl
  · intro n hn hfile
    rcases twoFiles_named.mp hn with rfl | rfl | rfl
    all_goals decide +kernel

theorem twoFiles_resolves :
  Resolves twoFiles (ascii "/a") 3
  := by
  have hshort : ShortComponents (ascii "/a") :=
    fun l hl _ => hl.length_le.trans_lt (by decide)
  have hfind : (run (FindEntry (ascii "/a")) (State.ofDisk twoFiles)).1 = 3 := by decide +kernel
  have h := resolves_of_short hshort (s := State.ofDisk twoFiles)
  rwa [hfind] at h

theorem write_read_a :
  let r := run (minix_WriteFile (ascii "/a") (chars (ascii "hi")) (2 : ℕ)) (State.ofDisk twoFiles)
  r.1 = 2 ∧
    (run (minix_ReadFile (ascii "/a") (fun _ => 0) 0 (3 : ℕ)) (State.ofDisk r.2.disk)).1.1 =
      min 3 (max (sizeOf twoFiles 3) 2 : ℕ)
  := by
  have hfile : ¬ IsDir twoFiles 3 := by
    rw [twoFiles_dir (Or.inr (Or.inl rfl))]
    decide
  have h := write_read (s := State.ofDisk twoFiles) twoFiles_sound twoFiles_resolves (by decide)
    hfile (c := 2) (by decide) (chars (ascii "hi")) (by decide +kernel)
  exact ⟨h.1, (h.2.1 (State.ofDisk _) (fun _ => 0) 0 3 rfl (by decide)).1⟩

end Minix
