import Mathlib.Order.Basic
import Mathlib.Data.Int.Order.Basic

/-!
# Accesses to buffers

What a piece of code reads and writes of its buffers: blocks copied and filled, and elements looked
at or changed in place.  Offsets count from the beginning of a buffer and may lie before it; lengths
are those the code asks for.
-/

/-- An access to buffers of the kind `β`. -/
inductive Access (β : Type*) where
  /-- `n` bytes of `src` from the offset `src_at` on copied to `dest`, from `dest_at` on. -/
  | memcpy (dest : β) (dest_at : ℤ) (src : β) (src_at : ℤ) (n : ℕ)
  /-- `n` bytes of `dest` filled, from the offset `start` on. -/
  | memset (dest : β) (start : ℤ) (n : ℕ)
  /-- `n` bytes of a buffer looked at, and perhaps changed, in place. -/
  | element (buf : β) (start : ℤ) (n : ℕ)

namespace Access

variable {β : Type*}

/-- The offset lies in a block of `n` bytes. -/
def InBlock (start : ℤ) (n : ℕ) (i : ℤ) : Prop := start ≤ i ∧ i < start + n

def Reads (b : β) (i : ℤ) : Access β → Prop
  | memcpy _ _ src src_at n => src = b ∧ InBlock src_at n i
  | memset _ _ _ => False
  | element buf start n => buf = b ∧ InBlock start n i

def Writes (b : β) (i : ℤ) : Access β → Prop
  | memcpy dest dest_at _ _ n => dest = b ∧ InBlock dest_at n i
  | memset dest start n => dest = b ∧ InBlock start n i
  | element buf start n => buf = b ∧ InBlock start n i

/-- Whatever is read or written of the buffer lies within its `size` bytes. -/
def Inside (b : β) (size : ℤ) (a : Access β) : Prop :=
  ∀ i, a.Reads b i ∨ a.Writes b i → 0 ≤ i ∧ i < size

/-- A block that is not empty ends at its bound at the latest. -/
theorem forall_inBlock_lt {start bound : ℤ} {n : ℕ} (hn : 0 < n) :
  (∀ i, InBlock start n i → i < bound) ↔ start + n ≤ bound
  := by
  constructor
  · intro h
    have := h (start + n - 1) ⟨by omega, by omega⟩
    omega
  · rintro h i ⟨-, hi⟩
    omega

theorem forall_inBlock_inside {start size : ℤ} {n : ℕ} (hn : 0 < n) :
  (∀ i, InBlock start n i → 0 ≤ i ∧ i < size) ↔ 0 ≤ start ∧ start + n ≤ size
  := by
  constructor
  · intro h
    have hfirst := h start ⟨le_refl start, by omega⟩
    have hlast := h (start + n - 1) ⟨by omega, by omega⟩
    omega
  · rintro h i ⟨hlo, hhi⟩
    omega

end Access
