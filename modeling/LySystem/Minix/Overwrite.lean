import LySystem.Minix.Duplicate

/-!
# Writing to a file that has bytes

`minix_WriteFile` puts the bytes written into a sector of zero bytes and lets the size of the inode
grow, but not shrink.  The bytes of a longer file behind those written are lost, although its size
still counts them.
-/

namespace Minix

open CString

/-- The file consists of the bytes `l`. -/
def Consists (d : Disk) (n : ℕ) (l : List Byte) : Prop :=
  sizeOf d n = l.length ∧ ∀ j < l.length, byteOf d n j = some (chars l j)

/-- The zone a write goes to: that of the inode, else the first free one. -/
def dataZone (d : Disk) (n : ℕ) : Option ℕ :=
  if zoneOf d n 0 = 0 then freeZone d else some (zoneOf d n 0)

/-- The first `c` bytes from `input`. -/
def written (input : Memory) (c : ℕ) : List Byte := (List.range c).map input

/-- The sector of an inode with the zone `z` and the size `m` in its record. -/
def recordSector (d : Disk) (n z m : ℕ) : Memory :=
  set_i_size (set_i_zone (contents (d (inodeSector n)) []) (inodeOffset n) 0 z) (inodeOffset n) m

/-- The bytes behind those written are zero bytes, in a zone that is neither 0 nor that of the
inode itself.  In that of the inode its record happens to be what is to be written. -/
def KeepsOld (d : Disk) (n : ℕ) (old : List Byte) (input : Memory) (c : ℕ) : Prop :=
  max old.length c = 0 ∨ ∃ z, dataZone d n = some z ∧ z ≠ 0 ∧
    if z * 2 = inodeSector n then
      ∀ j < max old.length c, recordSector d n z (max old.length c) j =
        if j < c then input j else chars old j
    else ∀ j, c ≤ j → j < old.length → chars old j = 0

section

variable {d : Disk} {n : ℕ}

theorem Consists.zone_ne {l : List Byte} (h : Consists d n l) (hl : l ≠ []) :
  zoneOf d n 0 ≠ 0
  := by
  intro hzero
  have hbyte := h.2 0 (List.length_pos_iff.mpr hl)
  rw [byteOf_of_lt (by decide), if_pos hzero] at hbyte
  cases hbyte

/-- A file is read as the bytes it consists of. -/
theorem Consists.read {l : List Byte} (h : Consists d n l) (hl : l.length ≤ 512) (hn : n ≠ 0)
    {p : List Byte} {s : State} (hs : s.disk = d) (hp : (run (FindEntry p) s).1 = n) (mem : Memory)
    (output : ℕ) :
  let r := (run (minix_ReadFile p mem output l.length) s).1
  r.1 = l.length ∧ ∀ j < l.length, r.2 (output + j) = chars l j
  := by
  rw [run_ReadFile hp hn, hs, h.1]
  by_cases hempty : l = []
  · subst hempty
    simp [readResult, toU32]
  · have hzone := h.zone_ne hempty
    obtain ⟨hcount, hbytes⟩ := readResult_spec hl hzone hl
      (contents (d (zoneOf d n 0 * 2)) ((run (FindEntry p) s).2.stack 1)) mem output
    rw [Nat.min_self] at hcount hbytes
    use hcount
    intro j hj
    have hbyte := h.2 j hj
    rw [byteOf_of_lt (by omega), if_neg hzone] at hbyte
    rw [hbytes j hj, contents_lt _ _ (by omega), ← Option.some.inj hbyte,
      contents_lt _ _ (by omega)]

/-! ### The record and the data -/

theorem chars_written (input : Memory) {c j : ℕ} (hj : j < c) :
  chars (written input c) j = input j
  := by
  rw [chars, written, List.getD_eq_getElem?_getD, List.getElem?_map, List.getElem?_range hj]
  rfl

/-- The bytes written, and the old ones behind them. -/
theorem chars_written_append (input : Memory) (c : ℕ) (old : List Byte) (j : ℕ) :
  chars (written input c ++ old.drop c) j = if j < c then input j else chars old j
  := by
  have hlen : (written input c).length = c := by simp [written]
  rw [chars_append, hlen]
  split_ifs with hj
  · exact chars_written input hj
  · rw [chars_drop, Nat.add_sub_cancel' (by omega)]

theorem dataSector_apply (input : Memory) {c j : ℕ} (hc : c ≤ 512) (hj : j < 512) :
  contents (dataSector input c) [] j = if j < c then input j else 0
  := by
  rw [dataSector, contents_sector _ _ hj, toU64_natCast (by omega)]
  split_ifs with hlt
  · have := Memory.splice_inside (fun _ => 0) (a := 0) input hlt
    rwa [Nat.zero_add] at this
  · apply Memory.splice_outside
    omega

theorem lt_of_dataZone {z : ℕ} (h : dataZone d n = some z) :
  z < 2 ^ 16
  := by
  rw [dataZone] at h
  split_ifs at h
  · have := (freeZone_spec h).1
    omega
  · obtain rfl := Option.some.inj h
    apply Memory.load_lt

/-- The record grown is the one with the greater size. -/
theorem grow_recordSector (z : ℕ) {c : ℕ} (hc : c ≤ 512) :
  minix_WriteFile.grow (set_i_zone (contents (d (inodeSector n)) []) (inodeOffset n) 0 z)
      (inodeOffset n) c =
    recordSector d n z (max (sizeOf d n) c)
  := by
  have hsize : i_size (set_i_zone (contents (d (inodeSector n)) []) (inodeOffset n) 0 z)
      (inodeOffset n) = sizeOf d n := by
    apply Memory.load_store_disjoint
    left
    omega
  rw [minix_WriteFile.grow, toU32_natCast (by omega), recordSector, hsize]
  split_ifs with hlt
  · rw [max_eq_right hlt.le]
  · rw [max_eq_left (by omega), ← hsize]
    exact (Memory.store_load _ _ _).symm

/-! ### The write -/

/-- The disk after a write of `c` bytes to the zone `z`. -/
structure Overwritten (d d' : Disk) (n z : ℕ) (input : Memory) (c : ℕ) : Prop where
  record : d' (inodeSector n) = sector (recordSector d n z (max (sizeOf d n) c))
  data : z * 2 ≠ inodeSector n → d' (z * 2) = dataSector input c

theorem WriteFile_overwritten {p : List Byte} {s : State} (hp : (run (FindEntry p) s).1 = n)
    (hn : n ≠ 0) {c : ℕ} (hc : c ≤ 512) (input : Memory) :
  match dataZone s.disk n with
  | none => (run (minix_WriteFile p input c) s).1 = -ENOSPC
  | some z =>
      (run (minix_WriteFile p input c) s).1 = c ∧
        Overwritten s.disk (run (minix_WriteFile p input c) s).2.disk n z input c
  := by
  have hwrite : (if (512 : ℤ) < c then (512 : ℤ) else c) = c := if_neg (by omega)
  have hrun := run_WriteFile_found hp hn input c
  simp only [hwrite] at hrun
  have hstored : ∀ e : Disk, ∀ z < 2 ^ 16, Overwritten s.disk
      (stored e n (set_i_zone (contents (s.disk (inodeSector n)) []) (inodeOffset n) 0 z)
        (dataSector input c) c) n z input c := by
    intro e z hz
    rw [stored, i_zone_set_self _ _ _ hz, grow_recordSector z hc]
    constructor
    · rw [Function.update_self]
    · intro hne
      rw [Function.update_of_ne hne, Function.update_self]
  rw [hrun, dataZone]
  by_cases hzero : zoneOf s.disk n 0 = 0
  · rw [if_pos hzero, if_pos hzero]
    cases hfree : freeZone s.disk with
    | none => rfl
    | some z =>
        have := (freeZone_spec hfree).1
        exact ⟨rfl, hstored _ z (by omega)⟩
  · rw [if_neg hzero, if_neg hzero]
    refine ⟨rfl, ?_⟩
    have hself := hstored s.disk (zoneOf s.disk n 0) (Memory.load_lt _ _ _)
    rwa [zoneOf, set_i_zone, i_zone, Memory.store_load] at hself

/-- What the file consists of after a write. -/
theorem Overwritten.consists_iff {d' : Disk} {z c : ℕ} {input : Memory} {l : List Byte}
    (h : Overwritten d d' n z input c) (hn : n ≠ 0) (hz : z < 2 ^ 16) (hc : c ≤ 512)
    (hl : l.length ≤ 512) :
  Consists d' n l ↔ l.length = max (sizeOf d n) c ∧ ∀ j < l.length, z ≠ 0 ∧
    chars l j = if z * 2 = inodeSector n then recordSector d n z (max (sizeOf d n) c) j
      else if j < c then input j else 0
  := by
  have hoff := inodeOffset_le hn
  have hsize : sizeOf d' n = max (sizeOf d n) c := by
    have hlt : sizeOf d n < 2 ^ 32 := Memory.load_lt _ _ _
    rw [sizeOf, h.record, i_size, load_contents_sector _ _ (by omega), recordSector, set_i_size,
      Memory.load_store]
    omega
  have hzone : zoneOf d' n 0 = z := by
    rw [zoneOf, h.record, i_zone, load_contents_sector _ _ (by omega), recordSector, set_i_size,
      Memory.load_store_disjoint _ _ (by omega), set_i_zone, Memory.load_store]
    omega
  have hdata : ∀ j < 512, contents (d' (z * 2)) [] j =
      if z * 2 = inodeSector n then recordSector d n z (max (sizeOf d n) c) j
      else if j < c then input j else 0 := by
    intro j hj
    by_cases hself : z * 2 = inodeSector n
    · rw [if_pos hself, hself, h.record, contents_sector _ _ hj]
    · rw [if_neg hself, h.data hself, dataSector_apply input hc hj]
  rw [Consists, hsize, eq_comm]
  apply and_congr_right
  intro _
  constructor
  · intro hbytes j hj
    have hbyte := hbytes j hj
    rw [byteOf_of_lt (by omega), hzone] at hbyte
    by_cases hz0 : z = 0
    · rw [if_pos hz0] at hbyte
      cases hbyte
    · rw [if_neg hz0, hdata j (by omega)] at hbyte
      exact ⟨hz0, (Option.some.inj hbyte).symm⟩
  · intro hbytes j hj
    obtain ⟨hz0, hbyte⟩ := hbytes j hj
    rw [byteOf_of_lt (by omega), hzone, if_neg hz0, hdata j (by omega), hbyte]

end

/-- A write to a file leaves the bytes written, and the old ones behind them, exactly when those
are zero bytes already and the zone can be read and is not that of the inode. -/
theorem write_keeps_old {p : List Byte} {s : State} {n c : ℕ} {old : List Byte}
    (hp : (run (FindEntry p) s).1 = n) (hn : n ≠ 0) (hold : Consists s.disk n old)
    (hsize : old.length ≤ 512) (hc : c ≤ 512) (input : Memory)
    (hret : (run (minix_WriteFile p input c) s).1 = c) :
  let d' := (run (minix_WriteFile p input c) s).2.disk
  (Consists d' n (written input c) ∨ Consists d' n (written input c ++ old.drop c)) ↔
    KeepsOld s.disk n old input c
  := by
  intro d'
  have hover := WriteFile_overwritten hp hn hc input
  have hwritten : (written input c).length = c := by simp [written]
  have hlen : (written input c ++ old.drop c).length = max old.length c := by
    rw [List.length_append, List.length_drop, hwritten]
    omega
  cases hzone : dataZone s.disk n with
  | none =>
      rw [hzone] at hover
      dsimp only at hover
      rw [hover] at hret
      simp [ENOSPC] at hret
  | some z =>
      rw [hzone] at hover
      obtain ⟨-, hover⟩ := hover
      have hz := lt_of_dataZone hzone
      -- Where the size is that of the bytes written, there are no old ones behind them.
      have hshort : Consists d' n (written input c) → Consists d' n (written input c ++ old.drop c) := by
        intro h
        have hmax := (hover.consists_iff hn hz hc (by omega)).mp h |>.1
        rw [hold.1, hwritten] at hmax
        rwa [List.drop_eq_nil_of_le (by omega), List.append_nil]
      rw [or_iff_right_of_imp hshort, hover.consists_iff hn hz hc (by omega), hold.1, hlen, KeepsOld,
        hzone]
      simp only [true_and, chars_written_append]
      constructor
      · intro h
        by_cases hempty : max old.length c = 0
        · exact Or.inl hempty
        · right
          refine ⟨z, rfl, (h 0 (by omega)).1, ?_⟩
          by_cases hself : z * 2 = inodeSector n
          · rw [if_pos hself]
            intro j hj
            rw [(h j hj).2, if_pos hself]
          · rw [if_neg hself]
            intro j hcj hj
            have hbyte := (h j (by omega)).2
            rwa [if_neg hself, if_neg (by omega), if_neg (by omega)] at hbyte
      · rintro (hempty | ⟨z', hz', hz0, h⟩) j hj
        · omega
        · obtain rfl := Option.some.inj hz'
          use hz0
          by_cases hself : z * 2 = inodeSector n
          · rw [if_pos hself] at h ⊢
            rw [h j hj]
          · rw [if_neg hself] at h ⊢
            split_ifs with hjc
            · rfl
            · exact h j (by omega) (by omega)

/-- Two bytes are written to the empty file `/a`. -/
theorem write_keeps_old_empty :
  let d' := (run (minix_WriteFile (ascii "/a") (chars (ascii "hi")) (2 : ℕ))
    (State.ofDisk twoFiles)).2.disk
  Consists d' 3 (written (chars (ascii "hi")) 2) ∨
    Consists d' 3 (written (chars (ascii "hi")) 2 ++ [].drop 2)
  := by
  have hold : Consists (State.ofDisk twoFiles).disk 3 [] := by
    unfold Consists
    decide +kernel
  have hzone : dataZone twoFiles 3 = some 220 := by decide +kernel
  have hkeeps : KeepsOld (State.ofDisk twoFiles).disk 3 [] (chars (ascii "hi")) 2 := by
    refine Or.inr ⟨220, hzone, by decide, ?_⟩
    rw [if_neg (by decide)]
    intro j _ hj
    cases hj
  exact (write_keeps_old (twoFiles_resolves _ rfl) (by decide) hold (by decide) (by decide)
    (chars (ascii "hi")) (by decide +kernel)).mpr hkeeps

/-- The file `/a` with the bytes `abc`. -/
def threeBytes : State :=
  (run (minix_WriteFile (ascii "/a") (chars (ascii "abc")) 3) (State.ofDisk twoFiles)).2

/-- One byte is written to a file of three, and two are lost. -/
theorem old_bytes_lost :
  ¬ ∀ (p : List Byte) (s : State) (n c : ℕ) (old : List Byte) (input : Memory),
    (run (FindEntry p) s).1 = n → n ≠ 0 → Consists s.disk n old → old.length ≤ 512 → c ≤ 512 →
      (run (minix_WriteFile p input c) s).1 = c →
        Consists (run (minix_WriteFile p input c) s).2.disk n (written input c) ∨
          Consists (run (minix_WriteFile p input c) s).2.disk n (written input c ++ old.drop c)
  := by
  intro h
  have hold : Consists threeBytes.disk 3 (ascii "abc") := by
    unfold Consists
    decide +kernel
  have hlost : ¬ (Consists (run (minix_WriteFile (ascii "/a") (chars (ascii "x")) (1 : ℕ))
      threeBytes).2.disk 3 (written (chars (ascii "x")) 1) ∨
      Consists (run (minix_WriteFile (ascii "/a") (chars (ascii "x")) (1 : ℕ)) threeBytes).2.disk 3
        (written (chars (ascii "x")) 1 ++ (ascii "abc").drop 1)) := by
    unfold Consists
    decide +kernel
  exact hlost (h (ascii "/a") threeBytes 3 1 (ascii "abc") (chars (ascii "x")) (by decide +kernel)
    (by decide) hold (by decide) (by decide) (by decide +kernel))

end Minix
