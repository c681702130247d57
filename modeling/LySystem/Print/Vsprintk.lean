import LySystem.Lib.Itoa
import LySystem.Machine.Pointer
import LySystem.Print.Cursor

/-!
# Formatted output

`vsprintk` and `printk` of `kernel/printk.c`.  The format, the strings and the output are apart from
each other: the output is a list of bytes, which begins where `str` points to.
-/

namespace Print

open CString

/-- A character constant. -/
def byte (c : Char) : Byte := BitVec.ofNat 8 c.toNat

/-- The characters of the format and the arguments behind, the buffer for numerals, what is left of
the string that is being copied, and the bytes written. -/
structure State where
  fmt : ℕ
  arg : ℕ
  buf : Memory
  copying : Option Memory
  out : List Byte

/-- The `switch` behind a percent sign, without the loops that copy a string. -/
def vsprintk.switch (m : Memory) (args : ℕ → BitVec 64) (s : State) (c : Byte) : State :=
  let va_arg := args s.arg
  if c = byte 's' then
    let str := if va_arg = 0 then literal "(null)" else m.through va_arg.toNat
    { s with arg := s.arg + 1, copying := some str }
  else if c = byte 'd' ∨ c = byte 'i' then
    let buf := itoa va_arg s.buf 10
    { s with arg := s.arg + 1, buf := buf, copying := some buf }
  else if c = byte 'x' ∨ c = byte 'X' then
    let buf := itoa va_arg s.buf 16
    { s with arg := s.arg + 1, buf := buf, copying := some buf }
  else if c = byte 'c' then
    { s with arg := s.arg + 1, out := s.out ++ [va_arg.setWidth 8], fmt := s.fmt + 1 }
  else if c = byte '%' then
    { s with out := s.out ++ [byte '%'], fmt := s.fmt + 1 }
  else
    { s with out := s.out ++ [c], fmt := s.fmt + 1 }

/-- A round of the loop over the format, or of a loop that copies a string. -/
def vsprintk.step (fmt m : Memory) (args : ℕ → BitVec 64) (s : State) : State ⊕ (List Byte × ℤ) :=
  match s.copying with
  | some str =>
      if str 0 ≠ 0 then .inl { s with copying := some (str.drop 1), out := s.out ++ [str 0] }
      else .inl { s with copying := none, fmt := s.fmt + 1 }
  | none =>
      if fmt s.fmt = 0 then .inr (s.out ++ [0], (BitVec.ofNat 32 s.out.length).toInt)
      else if fmt s.fmt ≠ byte '%' then
        .inl { s with out := s.out ++ [fmt s.fmt], fmt := s.fmt + 1 }
      else
        let s := { s with fmt := s.fmt + 1 }
        .inl (vsprintk.switch m args s (fmt s.fmt))

/-- The characters of the format that a round reads. -/
def vsprintk.reads (fmt : Memory) (s : State) : List ℕ :=
  match s.copying with
  | some _ => []
  | none => if fmt s.fmt = byte '%' then [s.fmt, s.fmt + 1] else [s.fmt]

/-- The state `vsprintk` begins with. -/
def vsprintk.start (buf : Memory) : State := ⟨0, 0, buf, none, []⟩

/-- `vsprintk` of the format `fmt` points to, in the memory `m`, leaves with these bytes in its
output and this value. -/
def vsprintk (m : Memory) (fmt : ℕ) (args : ℕ → BitVec 64) (buf : Memory) (r : List Byte × ℤ) :
    Prop :=
  Loop.Returns (vsprintk.step (m.through fmt) m args) (vsprintk.start buf) r

/-- `printk` prints what `vsprintk` leaves in its buffer. -/
def printk.print (fb : Boot.framebuffer_info) (font : Terminal.Font) (s : Terminal.State)
    (r : List Byte × ℤ) : Terminal.State :=
  (r.1.take r.2.toNat).foldl (fun s c => Terminal.putchar fb font s c.toInt) s

variable {fmt m : Memory} {args : ℕ → BitVec 64} {s s' : State}

/-- A round depends on the characters it reads only. -/
theorem step_congr {fmt' : Memory} (h : ∀ i ∈ vsprintk.reads fmt s, fmt i = fmt' i) :
  vsprintk.step fmt m args s = vsprintk.step fmt' m args s
  := by
  rw [vsprintk.step, vsprintk.step]
  rw [vsprintk.reads] at h
  cases hcopying : s.copying with
  | some str => rfl
  | none =>
      rw [hcopying] at h
      dsimp only at h ⊢
      split_ifs at h with hpercent
      · rw [← h s.fmt (by simp), ← h (s.fmt + 1) (by simp)]
      · rw [← h s.fmt (by simp), if_pos hpercent, if_pos hpercent]

theorem switch_mono (m : Memory) (args : ℕ → BitVec 64) (s : State) (c : Byte) :
  s.fmt ≤ (vsprintk.switch m args s c).fmt ∧
    s.out.length ≤ (vsprintk.switch m args s c).out.length
  := by
  rw [vsprintk.switch]
  dsimp only
  split_ifs
  all_goals simp

/-- The format is read forwards, and the output grows. -/
theorem step_mono (h : vsprintk.step fmt m args s = .inl s') :
  s.fmt ≤ s'.fmt ∧ s.out.length ≤ s'.out.length
  := by
  rw [vsprintk.step] at h
  split at h
  · split_ifs at h
    all_goals obtain rfl := Sum.inl.inj h
    all_goals simp
  · split_ifs at h
    · obtain rfl := Sum.inl.inj h
      simp
    · obtain rfl := Sum.inl.inj h
      obtain ⟨hfmt, hout⟩ := switch_mono m args { s with fmt := s.fmt + 1 } (fmt (s.fmt + 1))
      exact ⟨(Nat.le_succ _).trans hfmt, hout⟩

theorem reaches_mono (h : Loop.Reaches (vsprintk.step fmt m args) s s') :
  s.fmt ≤ s'.fmt ∧ s.out.length ≤ s'.out.length
  := by
  apply h.invariant (I := fun t => s.fmt ≤ t.fmt ∧ s.out.length ≤ t.out.length)
  · intro t t' hle hstep
    have hmono := step_mono hstep
    omega
  · exact ⟨le_rfl, le_rfl⟩

/-- Printing leaves the cursor at a cell on the screen. -/
theorem printk_on_screen {fb : Boot.framebuffer_info} {font : Terminal.Font} {s : Terminal.State}
    (hroom : Terminal.Room fb font) (h : Terminal.OnScreen fb font s) (r : List Byte × ℤ) :
  Terminal.OnScreen fb font (printk.print fb font s r)
  := by
  rw [printk.print, ← List.foldl_map]
  exact h.run hroom _

end Print
