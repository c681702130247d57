import LySystem.Fs.Vfs
import LySystem.Machine.Handler

/-!
# The sectors the file system asks for

Zone numbers and inode numbers have 16 bits, so that the addresses of all sectors read and written
fit into the 28 bits of an address on the disk, whatever the disk holds.
-/

namespace Vfs

open Minix CString

/-- A sector that is read or written has an address of 28 bits. -/
def Addressable : Minix.Call → Prop
  | .read lba => lba < 2 ^ 28
  | .write lba _ => lba < 2 ^ 28
  | _ => True

/-- Whatever the disk holds, the sectors asked for have an address of 28 bits, and the value is of
`Q`. -/
def Asks {α : Type} (Q : α → Prop) (p : Op α) : Prop := Program.Obeys Addressable Q p

section

variable {α β : Type} {Q : α → Prop} {P : β → Prop}

theorem Asks.pure {a : α} (ha : Q a) :
  Asks Q (pure a)
  := Program.Obeys.pure ha

theorem Asks.bind {p : Op α} {f : α → Op β} (hp : Asks Q p) (hf : ∀ a, Q a → Asks P (f a)) :
  Asks P (p >>= f)
  := Program.Obeys.bind hp hf

theorem Asks.ite {c : Prop} [Decidable c] {p q : Op α} (hp : c → Asks Q p) (hq : ¬ c → Asks Q q) :
  Asks Q (if c then p else q)
  := Program.Obeys.ite hp hq

theorem Asks.mono {p : Op α} (hp : Asks Q p) {Q' : α → Prop} (hQ : ∀ a, Q a → Q' a) :
  Asks Q' p
  := Program.Obeys.mono hp hQ

end

/-- Nothing is said of the value. -/
abbrev Any {α : Type} (_ : α) : Prop := True

theorem asks_read {lba : ℕ} (h : lba < 2 ^ 28) :
  Asks Any (ide_read_sector lba)
  := Program.Obeys.perform h fun _ => trivial

theorem asks_write {lba : ℕ} (h : lba < 2 ^ 28) (x : Sector) :
  Asks Any (ide_write_sector lba x)
  := Program.Obeys.perform h fun _ => trivial

theorem asks_strtok (str : Option (List Byte)) :
  Asks Any (Minix.strtok str)
  := Program.Obeys.perform trivial fun _ => trivial

theorem asks_stack :
  Asks Any stack
  := Program.Obeys.perform trivial fun _ => trivial

theorem asks_read_buffer {lba : ℕ} (h : lba < 2 ^ 28) :
  Asks Any (ide_read_buffer lba)
  := (asks_read h).bind fun _ _ => asks_stack.bind fun _ _ => Asks.pure trivial

/-! ### Numbers of 16 bits -/

theorem inodeSector_lt {n : ℕ} (h : n < 2 ^ 16) :
  inodeSector n < 2 ^ 28
  := by
  by_cases hzero : n = 0
  · subst hzero
    decide
  · rw [inodeSector_eq hzero]
    omega

theorem entryInode_lt (buf : Memory) (i : ℕ) :
  entryInode buf i < 2 ^ 16
  := Memory.load_lt buf (32 * i) 2

theorem i_zone_lt (m : Memory) (o z : ℕ) :
  i_zone m o z * 2 < 2 ^ 28
  := by
  have := Memory.load_lt m (o + 14 + 2 * z) 2
  rw [i_zone]
  omega

theorem asks_GetInode {n : ℕ} (h : n < 2 ^ 16) :
  Asks Any (minix_GetInode n)
  := (asks_read_buffer (inodeSector_lt h)).bind fun _ _ => Asks.pure trivial

theorem asks_editInode {n : ℕ} (h : n < 2 ^ 16) (f : Memory → ℕ → Memory) :
  Asks Any (editInode n f)
  := (asks_read (inodeSector_lt h)).bind fun _ _ => asks_write (inodeSector_lt h) _

theorem asks_editBitmap {lba : ℕ} (h : lba < 2 ^ 28) (f : Memory → Memory) :
  Asks Any (editBitmap lba f)
  := (asks_read h).bind fun _ _ => asks_write h _

/-- A bit taken is one of a sector. -/
theorem asks_takeBit {lba : ℕ} (h : lba < 2 ^ 28) (ok : ℕ → Bool) :
  Asks (fun r => ∀ k ∈ r, k < 4096) (takeBit lba ok)
  := by
  apply (asks_read h).bind
  intro x _
  cases hfind : Bitmap.firstClear (contents x []) ok 512 with
  | none =>
      apply Asks.pure
      intro k hk
      cases hk
  | some k =>
      apply (asks_write h _).bind
      intro _ _
      apply Asks.pure
      obtain ⟨hlt, -⟩ := Bitmap.firstClear_eq_some hfind
      rintro k' ⟨⟩
      omega

theorem asks_AllocateInode :
  Asks (fun n => n < 2 ^ 16) minix_AllocateInode
  := by
  apply (asks_takeBit (by decide) _).bind
  intro r _
  cases r with
  | none => apply Asks.pure (by decide)
  | some k => apply Asks.pure (Nat.mod_lt _ (by decide))

theorem asks_FreeZone (zone : ℕ) :
  Asks Any (FreeZone zone)
  := Asks.ite (fun _ => Asks.pure trivial) fun _ => asks_editBitmap (by decide) _

/-! ### Lookups -/

/-- A directory lies in a sector with an address of 28 bits, wherever a path leads. -/
theorem asks_descend (fuel sector : ℕ) (token : Option (List Byte)) (h : sector < 2 ^ 28) :
  Asks (fun x => x < 2 ^ 28) (FindSectorOfPathDir.descend fuel sector token)
  := by
  induction fuel generalizing sector token with
  | zero =>
      cases token with
      | none => apply Asks.pure h
      | some token => apply Asks.pure (by decide)
  | succ fuel ih =>
      cases token with
      | none => apply Asks.pure h
      | some token =>
          apply (asks_read_buffer h).bind
          intro buf _
          cases hfind : findName buf token with
          | none => apply Asks.pure (by decide)
          | some i =>
              apply (asks_GetInode (entryInode_lt buf i)).bind
              intro inode _
              apply Asks.ite
              · intro _
                apply (asks_strtok none).bind
                intro token _
                apply ih _ _ (i_zone_lt _ _ _)
              · intro _
                apply Asks.pure (by decide)

theorem asks_findDirectory (path : List Byte) :
  Asks (fun r => r.1 < 2 ^ 28) (findDirectory path)
  := by
  have hfind : Asks (fun r => r.1 < 2 ^ 28) (FindSectorOfPathDir path) := by
    have hroot : ROOT_SECTOR < 2 ^ 28 := by decide
    rw [FindSectorOfPathDir]
    split
    · apply Asks.pure hroot
    · apply Asks.pure hroot
    · apply (asks_strtok _).bind
      intro token _
      apply (asks_descend _ _ _ hroot).bind
      intro x hx
      apply Asks.pure hx
  apply hfind.bind
  rintro ⟨x, filename⟩ hx
  apply asks_stack.bind
  intro behind _
  apply Asks.pure hx

theorem asks_FindEntry (name : List Byte) :
  Asks (fun n => n < 2 ^ 16) (FindEntry name)
  := by
  apply (asks_findDirectory name).bind
  rintro ⟨x, filename⟩ hx
  apply Asks.ite
  · intro _
    apply Asks.pure (by decide)
  · intro _
    apply (asks_read_buffer hx).bind
    intro buf _
    split
    · apply Asks.pure (entryInode_lt _ _)
    · apply Asks.pure (by decide)

/-! ### Calls that change the disk -/

theorem asks_addEntry {x : ℕ} (h : x < 2 ^ 28) (n : ℕ) (filename : List Byte) :
  Asks Any (addEntry x n filename)
  := by
  apply (asks_read h).bind
  intro buf _
  split
  · apply (asks_write h _).bind
    intro _ _
    apply Asks.pure trivial
  · apply Asks.pure trivial

theorem asks_CreateFile (name : List Byte) :
  Asks Any (minix_CreateFile name)
  := by
  apply (asks_FindEntry name).bind
  intro n _
  apply Asks.ite (fun _ => Asks.pure trivial)
  intro _
  apply (asks_findDirectory name).bind
  rintro ⟨x, filename⟩ hx
  apply Asks.ite (fun _ => Asks.pure trivial)
  intro _
  apply asks_AllocateInode.bind
  intro k hk
  apply Asks.ite (fun _ => Asks.pure trivial)
  intro _
  apply (asks_editInode hk _).bind
  intro _ _
  apply asks_addEntry hx

theorem asks_CreateDir (name : List Byte) :
  Asks Any (minix_CreateDir name)
  := by
  apply (asks_FindEntry name).bind
  intro n _
  apply Asks.ite (fun _ => Asks.pure trivial)
  intro _
  apply (asks_findDirectory name).bind
  rintro ⟨x, filename⟩ hx
  apply Asks.ite (fun _ => Asks.pure trivial)
  intro _
  apply asks_AllocateInode.bind
  intro k hk
  apply Asks.ite (fun _ => Asks.pure trivial)
  intro _
  apply (asks_takeBit (by decide) _).bind
  intro zone hzone
  cases zone with
  | none => apply Asks.pure trivial
  | some z =>
      have hz := hzone z rfl
      apply (asks_editInode hk _).bind
      intro _ _
      apply (asks_read hx).bind
      intro buf _
      apply (asks_write (by omega) _).bind
      intro _ _
      apply asks_addEntry hx

theorem asks_freeZones (offset : ℕ) (zs : List ℕ) (buf : Memory) :
  Asks Any (freeZones offset zs buf)
  := by
  induction zs generalizing buf with
  | nil => apply Asks.pure trivial
  | cons z zs ih =>
      apply Asks.ite
      · intro _
        apply (asks_FreeZone _).bind
        intro _ _
        apply ih
      · intro _
        apply ih

theorem asks_DeleteFile (name : List Byte) :
  Asks Any (minix_DeleteFile name)
  := by
  apply (asks_findDirectory name).bind
  rintro ⟨x, filename⟩ hx
  apply Asks.ite (fun _ => Asks.pure trivial)
  intro _
  apply Asks.ite (fun _ => Asks.pure trivial)
  intro _
  apply (asks_read_buffer hx).bind
  intro buf _
  split
  · apply Asks.pure trivial
  · have hsector := inodeSector_lt (entryInode_lt buf ‹ℕ›)
    apply Asks.bind (Q := Any)
    · apply (asks_read hsector).bind
      intro y _
      apply (asks_freeZones _ _ _).bind
      intro inode_buf _
      apply asks_write hsector
    · intro _ _
      apply (asks_editBitmap (by decide) _).bind
      intro _ _
      apply Asks.bind (Q := Any)
      · apply (asks_read hx).bind
        intro y _
        apply asks_write hx
      · intro _ _
        apply Asks.pure trivial

theorem asks_DeleteDir (name : List Byte) :
  Asks Any (minix_DeleteDir name)
  := by
  apply (asks_findDirectory name).bind
  rintro ⟨x, filename⟩ hx
  apply Asks.ite (fun _ => Asks.pure trivial)
  intro _
  apply Asks.ite (fun _ => Asks.pure trivial)
  intro _
  apply (asks_FindEntry name).bind
  intro n hn
  apply Asks.ite (fun _ => Asks.pure trivial)
  intro _
  apply (asks_GetInode hn).bind
  intro inode _
  apply Asks.ite (fun _ => Asks.pure trivial)
  intro _
  apply Asks.ite (fun _ => Asks.pure trivial)
  intro _
  apply (asks_FreeZone _).bind
  intro _ _
  apply (asks_editInode hn _).bind
  intro _ _
  apply (asks_editBitmap (by decide) _).bind
  intro _ _
  apply (asks_read hx).bind
  intro buf _
  split
  · apply (asks_write hx _).bind
    intro _ _
    apply Asks.pure trivial
  · apply Asks.pure trivial

theorem asks_RenameFile (old_name new_name : List Byte) :
  Asks Any (minix_RenameFile old_name new_name)
  := by
  apply (asks_findDirectory old_name).bind
  rintro ⟨x, filename⟩ hx
  apply Asks.ite (fun _ => Asks.pure trivial)
  intro _
  apply (asks_findDirectory new_name).bind
  rintro ⟨y, filename'⟩ hy
  apply Asks.ite (fun _ => Asks.pure trivial)
  intro _
  apply (asks_FindEntry new_name).bind
  intro n _
  apply Asks.ite (fun _ => Asks.pure trivial)
  intro _
  apply (asks_read_buffer hx).bind
  intro buf _
  split
  · apply Asks.pure trivial
  · apply (asks_write hx _).bind
    intro _ _
    apply asks_addEntry hy

theorem asks_WriteFile (name : List Byte) (input : Memory) (count : ℤ) :
  Asks Any (minix_WriteFile name input count)
  := by
  apply (asks_FindEntry name).bind
  intro n hn
  apply Asks.ite (fun _ => Asks.pure trivial)
  intro _
  apply (asks_read (inodeSector_lt hn)).bind
  intro x _
  apply Asks.bind (Q := Any)
  · apply Asks.ite
    · intro _
      apply (asks_takeBit (by decide) _).bind
      intro zone _
      apply Asks.pure trivial
    · intro _
      apply Asks.pure trivial
  · intro found _
    cases found with
    | none => apply Asks.pure trivial
    | some inode_buf =>
        apply (asks_write (i_zone_lt _ _ _) _).bind
        intro _ _
        apply (asks_write (inodeSector_lt hn) _).bind
        intro _ _
        apply Asks.pure trivial

/-! ### Calls that read -/

theorem asks_ReadFile (name : List Byte) (mem : Memory) (output : ℕ) (count : ℤ) :
  Asks Any (minix_ReadFile name mem output count)
  := by
  apply (asks_FindEntry name).bind
  intro n hn
  apply Asks.ite (fun _ => Asks.pure trivial)
  intro _
  apply (asks_GetInode hn).bind
  intro inode _
  apply Asks.bind (Q := Any)
  · apply Asks.ite
    · intro _
      apply (asks_read_buffer (i_zone_lt _ _ _)).bind
      intro buf _
      apply Asks.pure trivial
    · intro _
      apply Asks.pure trivial
  · intro mem _
    apply Asks.ite (fun _ => Asks.pure trivial) (fun _ => Asks.pure trivial)

theorem asks_CopyFile (source dest : List Byte) :
  Asks Any (minix_CopyFile source dest)
  := by
  apply Asks.bind (Q := Any)
  · apply asks_stack.bind
    intro buffer _
    apply asks_ReadFile
  · rintro ⟨bytes_read, buffer⟩ _
    apply Asks.ite (fun _ => Asks.pure trivial)
    intro _
    apply (asks_CreateFile dest).bind
    intro res _
    apply Asks.ite (fun _ => Asks.pure trivial)
    intro _
    apply (asks_WriteFile _ _ _).bind
    intro bytes_written _
    apply Asks.ite (fun _ => Asks.pure trivial) (fun _ => Asks.pure trivial)

theorem asks_ListDir (name : Option (List Byte)) :
  Asks Any (minix_ListDir name)
  := by
  have hprint : ∀ name x, x < 2 ^ 28 → Asks Any (minix_ListDir.print name x) := by
    intro name x hx
    apply (asks_read_buffer hx).bind
    intro buf _
    apply Asks.pure trivial
  cases name with
  | none => exact hprint none _ (by decide)
  | some path =>
      apply Asks.ite
      · intro _
        apply hprint _ _ (by decide)
      · intro _
        apply (asks_FindEntry path).bind
        intro n hn
        apply Asks.ite (fun _ => Asks.pure trivial)
        intro _
        apply (asks_GetInode hn).bind
        intro inode _
        apply Asks.ite
        · intro _
          apply hprint _ _ (i_zone_lt _ _ _)
        · intro _
          apply Asks.pure trivial

theorem asks_minixfs_init :
  Asks Any minixfs_init
  := by
  apply Asks.bind (Q := Any)
  · apply (asks_read (by decide)).bind
    intro x _
    apply Asks.ite (fun _ => Asks.pure trivial) (fun _ => Asks.pure trivial)
  · rintro ⟨sup, current_sb⟩ _
    apply Asks.ite (fun _ => Asks.pure trivial)
    intro _
    apply (asks_read (by decide)).bind
    intro buffer _
    apply Asks.pure trivial

/-! ### Runs -/

theorem asks_perform (c : Call) :
  Asks Any c.perform
  := by
  cases c with
  | ListDir name => exact (asks_ListDir name).bind fun _ _ => Asks.pure trivial
  | CreateFile name => exact (asks_CreateFile name).bind fun _ _ => Asks.pure trivial
  | DeleteFile name => exact (asks_DeleteFile name).bind fun _ _ => Asks.pure trivial
  | ReadFile name mem output count =>
      exact (asks_ReadFile name mem output count).bind fun _ _ => Asks.pure trivial
  | WriteFile name input count =>
      exact (asks_WriteFile name input count).bind fun _ _ => Asks.pure trivial
  | RenameFile old_name new_name =>
      exact (asks_RenameFile old_name new_name).bind fun _ _ => Asks.pure trivial
  | CopyFile source dest => exact (asks_CopyFile source dest).bind fun _ _ => Asks.pure trivial
  | CreateDir name => exact (asks_CreateDir name).bind fun _ _ => Asks.pure trivial
  | DeleteDir name => exact (asks_DeleteDir name).bind fun _ _ => Asks.pure trivial
  | fs_init => exact asks_minixfs_init.bind fun _ _ => Asks.pure trivial

theorem asks_performAll (cs : List Call) :
  Asks Any (performAll cs)
  := by
  induction cs with
  | nil => apply Asks.pure trivial
  | cons c cs ih =>
      apply (asks_perform c).bind
      intro r _
      apply ih.bind
      intro rs _
      apply Asks.pure trivial

end Vfs
