import LySystem.Keyboard.Scancode
import LySystem.Print.Conversions
import LySystem.Print.Screenful

/-!
# The console

Formatted output and the keyboard on the terminal: what `printk` of `kernel/printk.c` and
`keyboard_handler` of `kernel/IRQ/traps.c` make appear on the screen.
-/

namespace Console

open Boot CString Keyboard Print Screen Terminal

/-- The bytes written on the sheet one after the other. -/
def write (cols : ℕ) (t : Sheet Byte) (bs : List Byte) : Sheet Byte :=
  bs.foldl (fun t c => t.press cols (key c.toInt)) t

variable {fb : framebuffer_info} {font : Font} {s : Terminal.State} {t : Sheet Byte} {m : Memory}

theorem foldl_putchar_shows (husable : Usable fb font) (h : Shows fb font s t) (bs : List Byte) :
  Shows fb font (bs.foldl (fun s c => putchar fb font s c.toInt) s) (write (cols fb) t bs)
  := by
  have hrun := h.run husable (bs.map fun c => .putchar c.toInt)
  rw [List.foldl_map, List.foldl_map] at hrun
  exact hrun

/-! ### Formatted output -/

/-- `vsprintk` of a format whose percent signs at the end are even in number returns, and `printk`
prints the pieces. -/
theorem printk_prints (args : ℕ → BitVec 64) {ptr : ℕ} {l : List Byte} (htext : TextAt m ptr l)
    (heven : Even (trailing l)) (hlength : (rendered m args 0 (pieces l)).length < 2 ^ 31)
    (buf : Memory) :
  (∃ r, vsprintk m ptr args buf r) ∧
    ∀ r, vsprintk m ptr args buf r → ∀ s, printk.print fb font s r =
      (rendered m args 0 (pieces l)).foldl (fun s c => putchar fb font s c.toInt) s
  := by
  obtain ⟨e, hreach, hfmt, hcopying, hout⟩ := htext.pieces_reach args buf
  have hsources := sources_pieces l
  rw [if_pos heven, List.append_nil] at hsources
  rw [hsources] at hfmt
  have hend : m.through ptr e.fmt = 0 := by
    rw [hfmt, htext.char_eq l.length le_rfl, chars_of_length_le le_rfl]
  have hreturns := hreach.returns (Loop.Returns.stop (step_exit m args hcopying hend))
  refine ⟨⟨_, hreturns⟩, ?_⟩
  intro r hr s
  rw [← hreturns.unique hr, printk.print, hout, (toInt_ofNat_eq_iff _).mpr hlength,
    Int.toNat_natCast, List.take_left]

/-- A character that has a glyph of its own on the screen. -/
def Printable (c : Byte) : Prop := c ∉ ([byte '\n', byte '\r', byte '\t', 8] : List Byte)

instance (c : Byte) : Decidable (Printable c) := inferInstanceAs (Decidable (¬ _))

theorem key_printable {c : Byte} (h : Printable c) :
  key c.toInt = .glyph c
  := by
  rw [Printable] at h
  simp only [List.mem_cons, List.not_mem_nil, or_false, not_or] at h
  obtain ⟨hn, hr, ht, hback⟩ := h
  have hn' : c.toInt ≠ '\n'.toNat := fun heq => hn (BitVec.eq_of_toInt_eq heq)
  have hr' : c.toInt ≠ '\r'.toNat := fun heq => hr (BitVec.eq_of_toInt_eq heq)
  have ht' : c.toInt ≠ '\t'.toNat := fun heq => ht (BitVec.eq_of_toInt_eq heq)
  have hback' : c.toInt ≠ 8 := fun heq => hback (BitVec.eq_of_toInt_eq heq)
  rw [key, if_neg hn', if_neg hr', if_neg ht', if_neg hback', BitVec.ofInt_toInt]

theorem write_printable (cols : ℕ) (t : Sheet Byte) {bs : List Byte} (h : ∀ c ∈ bs, Printable c) :
  write cols t bs = (bs.map Sheet.Key.glyph).foldl (Sheet.press cols) t
  := by
  rw [write, List.foldl_map]
  apply List.foldl_ext
  intro t c hc
  rw [key_printable (h c hc)]

/-- The character shown in a cell of the screen, when the text was written from the beginning. -/
def shown (fb : framebuffer_info) (font : Font) (text : List Byte) (row col : ℕ) : Option Byte :=
  let top := text.length / cols fb + 1 - rows fb font
  if col < cols fb then text[(top + row) * cols fb + col]? else none

/-- What a call of the keyboard driver does to the screen.  `vsprintk` leaves with the character for
the format of `printk`, and `listed` is what `ListTask` prints. -/
def perform (fb : framebuffer_info) (font : Font) (listed : List Byte) (s : Terminal.State) :
    Keyboard.Call → Terminal.State
  | .printk c => printk.print fb font s ([byte c, 0], 1)
  | .clear_screen color => { s with mem := clear_screen fb s.mem color }
  | .ListTask => listed.foldl (fun s c => putchar fb font s c.toInt) s
  | .kbd_ready => s
  | .outb _ _ => s

/-- The driver and the screen. -/
structure System where
  driver : Keyboard.State
  screen : Terminal.State

/-- An interrupt of the keyboard, with the byte that is read and what `ListTask` prints meanwhile. -/
def System.interrupt (fb : framebuffer_info) (font : Font) (x : System) (e : Byte × List Byte) :
    System where
  driver := keyboard_handler x.driver e.1
  screen := ((keyboard_handler x.driver e.1).calls.drop x.driver.calls.length).foldl
    (perform fb font e.2) x.screen

/-- The driver and the sheet. -/
structure Desk where
  driver : Keyboard.State
  sheet : Sheet Byte

/-- The escape key erases the sheet and lists the tasks where the cursor is, and a key with a
character is a key of the typewriter. -/
def Desk.interrupt (cols : ℕ) (x : Desk) (e : Byte × List Byte) : Desk where
  driver := keyboard_handler x.driver e.1
  sheet :=
    let c := (keyboard_transform x.driver (e.1.setWidth 16)).1
    if e.1.setWidth 16 = KEY_ESC then write cols x.sheet.erase e.2
    else if c = '\x00' then x.sheet
    else x.sheet.press cols (key (byte c).toInt)

/-- The call does not concern the screen. -/
def Silent : Keyboard.Call → Prop
  | .kbd_ready => True
  | .outb _ _ => True
  | _ => False

def Label.isEscape : Option Label → Bool
  | some .escape => true
  | _ => false

theorem label_isEscape (scancode : Byte) :
  Label.isEscape (keyboard_transform.label (scancode.setWidth 16)) =
    (scancode.setWidth 16 == KEY_ESC)
  := by
  revert scancode
  decide

theorem transform_escape (d : Keyboard.State) :
  keyboard_transform d KEY_ESC = ('\x00', d.call [.clear_screen 0x000000, .ListTask])
  := rfl

/-- Only the escape key concerns the screen before its character is printed. -/
theorem transform_silent (d : Keyboard.State) {scancode : Byte}
    (hne : scancode.setWidth 16 ≠ KEY_ESC) :
  ∃ new, (keyboard_transform d (scancode.setWidth 16)).2.calls = d.calls ++ new ∧
    ∀ call ∈ new, Silent call
  := by
  have hlabel := label_isEscape scancode
  rw [beq_eq_false_iff_ne.mpr hne] at hlabel
  rw [keyboard_transform]
  split_ifs
  · exact ⟨[], (List.append_nil _).symm, fun call hcall => absurd hcall List.not_mem_nil⟩
  · exact ⟨[], (List.append_nil _).symm, fun call hcall => absurd hcall List.not_mem_nil⟩
  · refine ⟨_, rfl, ?_⟩
    intro call hcall
    simp only [List.mem_cons, List.not_mem_nil, or_false] at hcall
    rcases hcall with rfl | rfl | rfl | rfl
    all_goals trivial
  · exact ⟨[], (List.append_nil _).symm, fun call hcall => absurd hcall List.not_mem_nil⟩
  · refine ⟨[], ?_, fun call hcall => absurd hcall List.not_mem_nil⟩
    rw [keyboard_transform.switch, List.append_nil]
    rcases hcase : keyboard_transform.label (scancode.setWidth 16) with _ | _ | _ | _ | _
    case some.escape =>
      rw [hcase] at hlabel
      cases hlabel
    all_goals rfl

theorem foldl_silent {σ : Type*} {f : σ → Keyboard.Call → σ}
    (hf : ∀ call, Silent call → ∀ s, f s call = s) {calls : List Keyboard.Call}
    (h : ∀ call ∈ calls, Silent call) (s : σ) :
  calls.foldl f s = s
  := by
  induction calls generalizing s with
  | nil => rfl
  | cons call calls ih =>
      rw [List.foldl_cons, hf call (h call List.mem_cons_self)]
      exact ih (fun call hcall => h call (List.mem_cons_of_mem _ hcall)) s

theorem perform_silent (listed : List Byte) {call : Keyboard.Call} (h : Silent call)
    (s : Terminal.State) :
  perform fb font listed s call = s
  := by
  cases call with
  | kbd_ready => rfl
  | outb => rfl
  | _ => cases h

/-- The calls of an interrupt are done on the sheet. -/
theorem interrupt_shows (husable : Usable fb font) {x : System} {y : Desk}
    (hdriver : x.driver = y.driver) (h : Shows fb font x.screen y.sheet) (e : Byte × List Byte) :
  (x.interrupt fb font e).driver = (y.interrupt (cols fb) e).driver ∧
    Shows fb font (x.interrupt fb font e).screen (y.interrupt (cols fb) e).sheet
  := by
  obtain ⟨d, s⟩ := x
  obtain ⟨d', t⟩ := y
  obtain rfl : d = d' := hdriver
  refine ⟨rfl, ?_⟩
  rw [System.interrupt, Desk.interrupt]
  dsimp only at h ⊢
  by_cases hescape : e.1.setWidth 16 = KEY_ESC
  · rw [if_pos hescape, keyboard_handler, hescape, transform_escape]
    dsimp only
    rw [if_neg (not_not_intro rfl), Keyboard.State.call, Keyboard.State.call]
    dsimp only
    rw [List.append_assoc, List.drop_left]
    exact foldl_putchar_shows husable (h.clear_screen husable) e.2
  · obtain ⟨new, hcalls, hsilent⟩ := transform_silent d hescape
    rw [if_neg hescape, keyboard_handler]
    dsimp only
    generalize keyboard_transform d (e.1.setWidth 16) = r at hcalls
    obtain ⟨c, d'⟩ := r
    dsimp only at hcalls ⊢
    by_cases hc : c = '\x00'
    · rw [if_neg (not_not_intro hc), if_pos hc, Keyboard.State.call]
      dsimp only
      rw [hcalls, List.append_assoc, List.drop_left, List.foldl_append,
        foldl_silent (fun call hcall => perform_silent e.2 hcall) hsilent]
      exact h
    · rw [if_pos hc, if_neg hc, Keyboard.State.call, Keyboard.State.call]
      dsimp only
      rw [hcalls, List.append_assoc, List.append_assoc, List.drop_left, List.foldl_append,
        foldl_silent (fun call hcall => perform_silent e.2 hcall) hsilent]
      exact h.putchar husable (byte c).toInt

/-- From a black screen on, whatever the keyboard sends, the screen shows what a typewriter with
these keys would have written. -/
theorem typed_shown (husable : Usable fb font) (hblack : Black fb m)
    (es : List (Byte × List Byte)) :
  Shows fb font (es.foldl (System.interrupt fb font) ⟨Keyboard.State.start, start m⟩).screen
    (es.foldl (Desk.interrupt (cols fb)) ⟨Keyboard.State.start, Sheet.blank⟩).sheet
  := by
  suffices hrun : ∀ (x : System) (y : Desk), x.driver = y.driver →
      Shows fb font x.screen y.sheet →
      Shows fb font (es.foldl (System.interrupt fb font) x).screen
        (es.foldl (Desk.interrupt (cols fb)) y).sheet from
    hrun _ _ rfl (hblack.start husable)
  induction es with
  | nil => exact fun x y _ h => h
  | cons e es ih =>
      intro x y hdriver h
      obtain ⟨hdriver', h'⟩ := interrupt_shows husable hdriver h e
      exact ih _ _ hdriver' h'

/-- A letter, the escape key and another letter, with a task listed. -/
theorem typed_shown_escape :
  get_pixel narrow ([(0x1E, []), (0x01, ascii "[0]"), (0x30, [])].foldl
    (System.interrupt narrow font16) ⟨Keyboard.State.start, start fun _ => 0⟩).screen.mem 3 33 = 0
  := ((typed_shown usable_narrow (black_zero narrow)
    [(0x1E, []), (0x01, ascii "[0]"), (0x30, [])]).shows_from.pixels 3 (by decide) 33
      (by decide)).trans (by decide)

end Console
