import LySystem.Keyboard.Scancode
import LySystem.Machine.Loop

/-!
# Two shift keys

A keyboard sends the bytes of one key event after the other.  A key with the prefix E0 comes with
codes of the shift keys that nobody pressed or released, which make up for the state the shift keys
are in.  `ShiftActive` is one flag for both keys, and `keyboard_transform` knows nothing of a prefix.
-/

namespace Keyboard

/-! ### What a keyboard sends -/

inductive Shift where
  | left
  | right
deriving DecidableEq

namespace Shift

def other : Shift → Shift
  | left => right
  | right => left

/-- The make code, and the break code. -/
def code : Shift → Bool → Byte
  | left, true => 0x2A
  | left, false => 0xAA
  | right, true => 0x36
  | right, false => 0xB6

end Shift

/-- A make code of a key other than the shift keys. -/
structure Code where
  make : Byte
  lt : make < 0x80
  ne_shift : ∀ s : Shift, make ≠ s.code true

/-- The code sent when the key is pressed, and when it is released. -/
def Code.code (c : Code) (pressed : Bool) : Byte := if pressed then c.make else c.make + 0x80

/-- A key event.  The fake codes of an extended key come before its make code, or behind its break
code. -/
inductive Event where
  | shift (s : Shift) (pressed : Bool)
  | plain (c : Code) (pressed : Bool)
  | extended (c : Code) (pressed : Bool) (fakes : List (Shift × Bool))
  | pause

namespace Event

def prefixed (b : Byte) : List Byte := [0xE0, b]

def fakeBytes (fakes : List (Shift × Bool)) : List Byte :=
  fakes.flatMap fun fake => prefixed (fake.1.code fake.2)

/-- The bytes of the event, in order. -/
def bytes : Event → List Byte
  | shift s pressed => [s.code pressed]
  | plain c pressed => [c.code pressed]
  | extended c true fakes => fakeBytes fakes ++ prefixed (c.code true)
  | extended c false fakes => prefixed (c.code false) ++ fakeBytes fakes
  | pause => [0xE1, 0x1D, 0x45, 0xE1, 0x9D, 0xC5]

/-- The shift keys held down after the event. -/
def held (down : Shift → Bool) : Event → Shift → Bool
  | shift s pressed => Function.update down s pressed
  | plain _ _ => down
  | extended _ _ _ => down
  | pause => down

end Event

/-- The driver, and the shift keys that are held down. -/
structure System where
  driver : State
  down : Shift → Bool

namespace System

/-- Nothing is held down when the driver starts. -/
def start : System where
  driver := State.start
  down := fun _ => false

/-- The handler takes each byte of the event. -/
def step (x : System) (e : Event) : System where
  driver := e.bytes.foldl keyboard_handler x.driver
  down := e.held x.down

/-- A shift key is held down. -/
def ShiftHeld (x : System) : Prop := ∃ s, x.down s = true

/-- The flag tells whether a shift key is held down. -/
def FlagTells (x : System) : Prop := x.driver.ShiftActive = true ↔ x.ShiftHeld

/-- No shift key is released while the other is held down, and the last fake code of an extended
key is a make code exactly if a shift key is held down. -/
def Steady (x : System) : Event → Prop
  | .shift s false => x.down s.other = false
  | .extended _ _ fakes => ∀ fake ∈ fakes.getLast?, fake.2 = true ↔ x.ShiftHeld
  | _ => True

end System

/-! ### The flag after an event -/

variable {x : System} {c : Code}

theorem handler_shift (s : State) (k : Shift) (pressed : Bool) :
  (keyboard_handler s (k.code pressed)).ShiftActive = pressed
  := by
  rw [handler_ShiftActive]
  cases k <;> cases pressed <;> rfl

/-- A byte that is no code of a shift key. -/
def IsOther (b : Byte) : Prop := ∀ (k : Shift) pressed, b ≠ k.code pressed

theorem handler_other (s : State) {b : Byte} (hb : IsOther b) :
  (keyboard_handler s b).ShiftActive = s.ShiftActive
  := by
  have hleft := hb .left
  have hright := hb .right
  simp only [Bool.forall_bool, Shift.code] at hleft hright
  rw [handler_ShiftActive, if_neg (by bv_omega), if_neg (by bv_omega)]

theorem foldl_others (s : State) {bs : List Byte} (hbs : ∀ b ∈ bs, IsOther b) :
  (bs.foldl keyboard_handler s).ShiftActive = s.ShiftActive
  := by
  induction bs generalizing s with
  | nil => rfl
  | cons b bs ih =>
      rw [List.forall_mem_cons] at hbs
      rw [List.foldl_cons, ih _ hbs.2, handler_other s hbs.1]

theorem isOther_E0 :
  IsOther 0xE0
  := by
  intro k pressed
  cases k <;> cases pressed <;> decide

theorem Code.isOther (c : Code) (pressed : Bool) :
  IsOther (c.code pressed)
  := by
  intro k
  have hlt := c.lt
  have hne := c.ne_shift k
  cases k <;> cases pressed <;> simp only [Bool.forall_bool, Shift.code, Code.code] at hne ⊢
  all_goals constructor
  all_goals simp only [if_true, Bool.false_eq_true, if_false]
  all_goals bv_omega

theorem isOther_prefixed (pressed : Bool) :
  ∀ b ∈ Event.prefixed (c.code pressed), IsOther b
  := by
  simp only [Event.prefixed, List.forall_mem_cons]
  exact ⟨isOther_E0, c.isOther pressed, by simp⟩

theorem isOther_pause :
  ∀ b ∈ Event.pause.bytes, IsOther b
  := by
  intro b hb k pressed
  revert b
  cases k <;> cases pressed <;> decide

/-- The last fake code decides. -/
theorem foldl_fakes (s : State) (fakes : List (Shift × Bool)) :
  ((Event.fakeBytes fakes).foldl keyboard_handler s).ShiftActive =
    (fakes.getLast?.map Prod.snd).getD s.ShiftActive
  := by
  induction fakes generalizing s with
  | nil => rfl
  | cons fake fakes ih =>
      rw [Event.fakeBytes, List.flatMap_cons, List.foldl_append, ← Event.fakeBytes, ih,
        Event.prefixed, List.foldl_cons, List.foldl_cons, List.foldl_nil, handler_shift,
        List.getLast?_cons]
      cases fakes.getLast? <;> rfl

/-- The flag after the bytes of an event. -/
def Event.flag (active : Bool) : Event → Bool
  | shift _ pressed => pressed
  | extended _ _ fakes => (fakes.getLast?.map Prod.snd).getD active
  | plain _ _ => active
  | pause => active

theorem foldl_bytes (s : State) (e : Event) :
  (e.bytes.foldl keyboard_handler s).ShiftActive = e.flag s.ShiftActive
  := by
  cases e with
  | shift k pressed => exact handler_shift s k pressed
  | plain c pressed => exact handler_other s (c.isOther pressed)
  | extended c pressed fakes =>
      cases pressed with
      | true =>
          rw [Event.bytes, List.foldl_append, foldl_others _ (isOther_prefixed true), foldl_fakes]
          rfl
      | false =>
          rw [Event.bytes, List.foldl_append, foldl_fakes, foldl_others _ (isOther_prefixed false)]
          rfl
  | pause => exact foldl_others s isOther_pause

/-! ### The flag along a run -/

namespace System

theorem shiftHeld_iff (x : System) (k : Shift) :
  x.ShiftHeld ↔ x.down k = true ∨ x.down k.other = true
  := by
  constructor
  · rintro ⟨k', hk'⟩
    cases k <;> cases k' <;> simp [Shift.other, hk']
  · rintro (hk | hk)
    · exact ⟨k, hk⟩
    · exact ⟨k.other, hk⟩

/-- One event keeps the flag right exactly if it is steady. -/
theorem step_flagTells_iff (hx : x.FlagTells) (e : Event) :
  (x.step e).FlagTells ↔ x.Steady e
  := by
  rw [FlagTells, step, foldl_bytes]
  cases e with
  | shift k pressed =>
      have hother : k.other ≠ k := by cases k <;> decide
      rw [shiftHeld_iff _ k]
      simp only [Event.flag, Event.held, Function.update_self, Function.update_of_ne hother]
      cases pressed with
      | true => simp [Steady]
      | false => simp [Steady]
  | plain c pressed => exact iff_of_true hx trivial
  | extended c pressed fakes =>
      rw [Event.flag, Steady]
      cases hlast : fakes.getLast? with
      | none => exact iff_of_true hx (by simp)
      | some fake => simp [ShiftHeld, Event.held]
  | pause => exact iff_of_true hx trivial

theorem start_flagTells :
  start.FlagTells
  := by
  constructor
  · intro h
    cases h
  · rintro ⟨k, hk⟩
    cases hk

/-- In a run from the start the flag is right after every event exactly if every event is
steady. -/
theorem flag_right_iff_steady (es : List Event) :
  (∀ l, l <+: es → (l.foldl step start).FlagTells) ↔
    ∀ l e, l ++ [e] <+: es → (l.foldl step start).Steady e
  := by
  apply Loop.foldl_prefixes_iff (P := FlagTells) (f := step) (C := Steady) _ es start_flagTells
  intro x e hx
  exact step_flagTells_iff hx e

/-- The low byte of `KEY_UP`. -/
def up : Code where
  make := 0x48
  lt := by decide
  ne_shift := by
    intro k
    cases k <;> decide

/-- The left shift key is released while the right one is held down; an extended key is pressed with
a fake make code when none is held down, and with a fake break code when one is. -/
theorem flag_wrong :
  ¬ ([.shift .left true, .shift .right true, .shift .left false].foldl step start).FlagTells ∧
    ¬ ([.extended up true [(.left, true)]].foldl step start).FlagTells ∧
    ¬ ([.shift .left true, .extended up true [(.left, false)]].foldl step start).FlagTells
  := by
  simp only [FlagTells, shiftHeld_iff _ .left]
  decide

end System

end Keyboard
