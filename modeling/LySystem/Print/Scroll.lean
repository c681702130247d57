import LySystem.Print.Terminal

/-!
# Scrolling

`scroll` copies the framebuffer onto itself with `memcpy`, a row of characters up.  The source lies
behind the destination, and `memcpy` goes upwards, so that a byte is read before it is replaced.
-/

namespace Terminal

open Boot Paging Memory

variable {fb : framebuffer_info} {font : Font} {m : Memory}

/-- A framebuffer with room for a row of characters, of a size that fits 32 bits, whose rows consist
of whole words. -/
structure Scrollable (fb : framebuffer_info) (font : Font) : Prop where
  pitch_dvd : 4 ∣ fb.pitch
  height_ge : font.charsize ≤ fb.height
  size_lt : fb.height * fb.pitch < 2 ^ 32

/-- The framebuffer is the part that is copied, and a row of characters. -/
theorem Scrollable.split (h : Scrollable fb font) :
  (fb.height - font.charsize) * fb.pitch + font.charsize * fb.pitch = fb.height * fb.pitch
  := by
  rw [← Nat.add_mul, Nat.sub_add_cancel h.height_ge]

theorem Scrollable.line_size_eq (h : Scrollable fb font) :
  u32 (font.charsize * fb.pitch) = font.charsize * fb.pitch
  := by
  have hsplit := h.split
  have hsize := h.size_lt
  rw [u32_of_lt (by omega)]

theorem Scrollable.total_scroll_size_eq (h : Scrollable fb font) :
  u32 (sub32 fb.height font.charsize * fb.pitch) = (fb.height - font.charsize) * fb.pitch
  := by
  have hsplit := h.split
  have hsize := h.size_lt
  rcases Nat.eq_zero_or_pos fb.pitch with hzero | hpos
  · rw [hzero, Nat.mul_zero, Nat.mul_zero]
    rfl
  · have hheight := Nat.le_mul_of_pos_right fb.height hpos
    rw [sub32_of_le h.height_ge (by omega), u32_of_lt (by omega)]

/-- The copy, and the last row of characters set to zero. -/
theorem Scrollable.mem_eq (h : Scrollable fb font) (m : Memory) :
  scroll.mem fb font m =
    (m.memcpy (P2V fb.addr) (u64 (P2V fb.addr + font.charsize * fb.pitch))
      ((fb.height - font.charsize) * fb.pitch)).spliceAt
        (u64 (P2V fb.addr + (fb.height - font.charsize) * fb.pitch)) (font.charsize * fb.pitch)
        fun _ => 0
  := by
  have hsplit := h.split
  have hsize := h.size_lt
  have hwords := Nat.mul_div_cancel' (Nat.dvd_mul_left_of_dvd h.pitch_dvd font.charsize)
  rw [scroll.mem, h.line_size_eq, h.total_scroll_size_eq, foldl_storeAt_zero _ (u64_lt _)
    (by omega), hwords]

/-- A range moved down by `line` bytes, and the bytes behind it set to zero. -/
theorem moved_and_cleared (m : Memory) (b : ℕ) {line total : ℕ} (h : line + total ≤ 2 ^ 64) :
  let m' := (m.memcpy b (u64 (b + line)) total).spliceAt (u64 (b + total)) line fun _ => 0
  (∀ i < total, m' (u64 (b + i)) = m (u64 (b + (line + i)))) ∧
  (∀ i < line, m' (u64 (b + (total + i))) = 0) ∧
  ∀ x, (∀ i < total + line, x ≠ u64 (b + i)) → m' x = m x
  := by
  have hcopied := copied_memcpy m (b := b) h
  refine ⟨?_, ?_, ?_⟩
  · intro i hi
    rw [spliceAt_outside _ _ (u64_lt _), hcopied.copied i hi, Nat.add_assoc]
    intro j hj heq
    rw [u64_add_u64, Nat.add_assoc] at heq
    have := u64_add_inj (by omega) (by omega) heq
    omega
  · intro i hi
    rw [← Nat.add_assoc, ← u64_add_u64 (b + total), spliceAt_inside _ _ (u64_lt _) (by omega) hi]
  · intro x hx
    rw [spliceAt_outside _ _ (u64_lt _), hcopied.kept]
    · intro i hi
      exact hx i (by omega)
    · intro i hi
      rw [u64_add_u64, Nat.add_assoc]
      exact hx _ (by omega)

/-- Rows of pixels move up by the rows of a character, the last of them become zero, and nothing
else changes. -/
theorem scroll_rows (hpitch : 4 ∣ fb.pitch) (hheight : font.charsize ≤ fb.height)
    (hsize : fb.height * fb.pitch < 2 ^ 32) (s : State) :
  let byte (m : Memory) (row k : ℕ) := m (u64 (P2V fb.addr + (row * fb.pitch + k)))
  let s' := scroll fb font s
  (∀ row < fb.height - font.charsize, ∀ k < fb.pitch,
    byte s'.mem row k = byte s.mem (row + font.charsize) k) ∧
  (∀ row < fb.height, fb.height - font.charsize ≤ row → ∀ k < fb.pitch, byte s'.mem row k = 0) ∧
  ∀ x, (∀ k < fb.height * fb.pitch, x ≠ u64 (P2V fb.addr + k)) → s'.mem x = s.mem x
  := by
  have h : Scrollable fb font := ⟨hpitch, hheight, hsize⟩
  have hsplit := h.split
  obtain ⟨hmoved, hcleared, hkept⟩ := moved_and_cleared s.mem (P2V fb.addr)
    (show font.charsize * fb.pitch + (fb.height - font.charsize) * fb.pitch ≤ 2 ^ 64 by omega)
  rw [← h.mem_eq] at hmoved hcleared hkept
  rw [scroll]
  dsimp only
  generalize P2V fb.addr = b at hmoved hcleared hkept ⊢
  -- A byte of a row before the `n`-th lies in the first `n` rows.
  have hrows : ∀ {row n k}, row < n → k < fb.pitch → row * fb.pitch + k < n * fb.pitch := by
    intro row n k hrow hk
    have := Nat.mul_le_mul_right fb.pitch (Nat.succ_le_of_lt hrow)
    rw [Nat.succ_mul] at this
    omega
  refine ⟨?_, ?_, ?_⟩
  · intro row hrow k hk
    rw [hmoved _ (hrows hrow hk), Nat.add_mul, Nat.add_right_comm, Nat.add_comm (row * fb.pitch + k)]
  · intro row hrow hlast k hk
    obtain ⟨i, rfl⟩ := Nat.exists_eq_add_of_le hlast
    rw [Nat.add_mul, Nat.add_assoc]
    exact hcleared _ (hrows (by omega) hk)
  · intro x hx
    apply hkept
    rw [hsplit]
    exact hx

theorem scroll_rows_narrow :
  (scroll narrow font16 ⟨fun _ => 7, 0, 32⟩).mem (u64 (P2V 0xFD000000 + (39 * 128 + 5))) = 0
  := (scroll_rows (by decide : 4 ∣ narrow.pitch) (by decide : font16.charsize ≤ narrow.height)
    (by decide) ⟨fun _ => 7, 0, 32⟩).2.1 39 (by decide) (by decide) 5 (by decide)

end Terminal
