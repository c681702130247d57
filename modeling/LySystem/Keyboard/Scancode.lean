import LySystem.Machine.Bytes

/-!
# Scancodes

`keyboard_transform` of `kernel/IRQ/scancode.c`, and `keyboard_handler` of `kernel/IRQ/traps.c`,
which gives it each byte the keyboard sends.
-/

namespace Keyboard

@[match_pattern] abbrev KEY_ESC : BitVec 16 := 0x0001
@[match_pattern] abbrev KEY_1 : BitVec 16 := 0x0002
@[match_pattern] abbrev KEY_2 : BitVec 16 := 0x0003
@[match_pattern] abbrev KEY_3 : BitVec 16 := 0x0004
@[match_pattern] abbrev KEY_4 : BitVec 16 := 0x0005
@[match_pattern] abbrev KEY_5 : BitVec 16 := 0x0006
@[match_pattern] abbrev KEY_6 : BitVec 16 := 0x0007
@[match_pattern] abbrev KEY_7 : BitVec 16 := 0x0008
@[match_pattern] abbrev KEY_8 : BitVec 16 := 0x0009
@[match_pattern] abbrev KEY_9 : BitVec 16 := 0x000A
@[match_pattern] abbrev KEY_0 : BitVec 16 := 0x000B
@[match_pattern] abbrev KEY_MINUS : BitVec 16 := 0x000C
@[match_pattern] abbrev KEY_EQUAL : BitVec 16 := 0x000D
@[match_pattern] abbrev KEY_BACKSPACE : BitVec 16 := 0x000E
@[match_pattern] abbrev KEY_TAB : BitVec 16 := 0x000F
@[match_pattern] abbrev KEY_Q : BitVec 16 := 0x0010
@[match_pattern] abbrev KEY_W : BitVec 16 := 0x0011
@[match_pattern] abbrev KEY_E : BitVec 16 := 0x0012
@[match_pattern] abbrev KEY_R : BitVec 16 := 0x0013
@[match_pattern] abbrev KEY_T : BitVec 16 := 0x0014
@[match_pattern] abbrev KEY_Y : BitVec 16 := 0x0015
@[match_pattern] abbrev KEY_U : BitVec 16 := 0x0016
@[match_pattern] abbrev KEY_I : BitVec 16 := 0x0017
@[match_pattern] abbrev KEY_O : BitVec 16 := 0x0018
@[match_pattern] abbrev KEY_P : BitVec 16 := 0x0019
@[match_pattern] abbrev KEY_LEFT_BRACKET : BitVec 16 := 0x001A
@[match_pattern] abbrev KEY_RIGHT_BRACKET : BitVec 16 := 0x001B
@[match_pattern] abbrev KEY_ENTER : BitVec 16 := 0x001C
@[match_pattern] abbrev KEY_A : BitVec 16 := 0x001E
@[match_pattern] abbrev KEY_S : BitVec 16 := 0x001F
@[match_pattern] abbrev KEY_D : BitVec 16 := 0x0020
@[match_pattern] abbrev KEY_F : BitVec 16 := 0x0021
@[match_pattern] abbrev KEY_G : BitVec 16 := 0x0022
@[match_pattern] abbrev KEY_H : BitVec 16 := 0x0023
@[match_pattern] abbrev KEY_J : BitVec 16 := 0x0024
@[match_pattern] abbrev KEY_K : BitVec 16 := 0x0025
@[match_pattern] abbrev KEY_L : BitVec 16 := 0x0026
@[match_pattern] abbrev KEY_SEMICOLON : BitVec 16 := 0x0027
@[match_pattern] abbrev KEY_QUOTE : BitVec 16 := 0x0028
@[match_pattern] abbrev KEY_Z : BitVec 16 := 0x002C
@[match_pattern] abbrev KEY_X : BitVec 16 := 0x002D
@[match_pattern] abbrev KEY_C : BitVec 16 := 0x002E
@[match_pattern] abbrev KEY_V : BitVec 16 := 0x002F
@[match_pattern] abbrev KEY_B : BitVec 16 := 0x0030
@[match_pattern] abbrev KEY_N : BitVec 16 := 0x0031
@[match_pattern] abbrev KEY_M : BitVec 16 := 0x0032
@[match_pattern] abbrev KEY_COMMA : BitVec 16 := 0x0033
@[match_pattern] abbrev KEY_DOT : BitVec 16 := 0x0034
@[match_pattern] abbrev KEY_SLASH : BitVec 16 := 0x0035
@[match_pattern] abbrev KEY_SPACE : BitVec 16 := 0x0039

abbrev KEY_CAPSLOCK : BitVec 16 := 0x003A

abbrev KEY_LSHIFT : BitVec 16 := 0x2A
abbrev KEY_RSHIFT : BitVec 16 := 0x36
abbrev KEY_LSHIFT_REL : BitVec 16 := 0xAA
abbrev KEY_RSHIFT_REL : BitVec 16 := 0xB6

/-- What the driver calls and what it does to the ports. -/
inductive Call where
  /-- Waits until bit 1 of the port 0x64 is off. -/
  | kbd_ready
  | outb (port : BitVec 16) (val : Byte)
  | clear_screen (color : ℕ)
  | ListTask
  | printk (c : Char)
deriving DecidableEq

/-- The variables of the driver, and the calls it has made. -/
structure State where
  CapslockActive : Bool
  ShiftActive : Bool
  calls : List Call
deriving DecidableEq

namespace State

def call (s : State) (calls : List Call) : State := { s with calls := s.calls ++ calls }

variable (s : State) (calls : List Call)

@[simp] theorem call_CapslockActive :
  (s.call calls).CapslockActive = s.CapslockActive
  := rfl

@[simp] theorem call_ShiftActive :
  (s.call calls).ShiftActive = s.ShiftActive
  := rfl

/-- The initial state. -/
def start : State where
  CapslockActive := false
  ShiftActive := false
  calls := []

end State

def update_kbd_leds (s : State) : State :=
  s.call [.kbd_ready, .outb 0x60 0xED,
    .kbd_ready, .outb 0x60 (if s.CapslockActive then 0x04 else 0x00)]

/-- What stands behind a label of the `switch`. -/
inductive Label where
  /-- `return ShiftActive ? c : d;` -/
  | shift (c d : Char)
  /-- `return upper ? c : d;` -/
  | upper (c d : Char)
  | plain (c : Char)
  /-- The label before `default` does not return and falls through. -/
  | escape

def keyboard_transform.label : BitVec 16 → Option Label
  | KEY_1 => some (.shift '!' '1')
  | KEY_2 => some (.shift '@' '2')
  | KEY_3 => some (.shift '#' '3')
  | KEY_4 => some (.shift '$' '4')
  | KEY_5 => some (.shift '%' '5')
  | KEY_6 => some (.shift '^' '6')
  | KEY_7 => some (.shift '&' '7')
  | KEY_8 => some (.shift '*' '8')
  | KEY_9 => some (.shift '(' '9')
  | KEY_0 => some (.shift ')' '0')
  | KEY_MINUS => some (.shift '_' '-')
  | KEY_EQUAL => some (.shift '+' '=')
  | KEY_A => some (.upper 'A' 'a')
  | KEY_B => some (.upper 'B' 'b')
  | KEY_C => some (.upper 'C' 'c')
  | KEY_D => some (.upper 'D' 'd')
  | KEY_E => some (.upper 'E' 'e')
  | KEY_F => some (.upper 'F' 'f')
  | KEY_G => some (.upper 'G' 'g')
  | KEY_H => some (.upper 'H' 'h')
  | KEY_I => some (.upper 'I' 'i')
  | KEY_J => some (.upper 'J' 'j')
  | KEY_K => some (.upper 'K' 'k')
  | KEY_L => some (.upper 'L' 'l')
  | KEY_SEMICOLON => some (.shift ':' ';')
  | KEY_QUOTE => some (.shift '\x22' '\x27')
  | KEY_M => some (.upper 'M' 'm')
  | KEY_N => some (.upper 'N' 'n')
  | KEY_O => some (.upper 'O' 'o')
  | KEY_P => some (.upper 'P' 'p')
  | KEY_LEFT_BRACKET => some (.shift '[' '\x7b')
  | KEY_RIGHT_BRACKET => some (.shift ']' '\x7d')
  | KEY_Q => some (.upper 'Q' 'q')
  | KEY_R => some (.upper 'R' 'r')
  | KEY_S => some (.upper 'S' 's')
  | KEY_T => some (.upper 'T' 't')
  | KEY_U => some (.upper 'U' 'u')
  | KEY_V => some (.upper 'V' 'v')
  | KEY_W => some (.upper 'W' 'w')
  | KEY_X => some (.upper 'X' 'x')
  | KEY_Y => some (.upper 'Y' 'y')
  | KEY_Z => some (.upper 'Z' 'z')
  | KEY_TAB => some (.plain '\t')
  | KEY_COMMA => some (.shift '<' ',')
  | KEY_DOT => some (.shift '>' '.')
  | KEY_SLASH => some (.shift '?' '/')
  | KEY_SPACE => some (.plain ' ')
  | KEY_ENTER => some (.plain '\n')
  | KEY_BACKSPACE => some (.plain '\x08')
  | KEY_ESC => some .escape
  | _ => none

def keyboard_transform.switch (s : State) (code : BitVec 16) : Char × State :=
  let upper := s.CapslockActive ≠ s.ShiftActive
  match keyboard_transform.label code with
  | some (.shift c d) => (if s.ShiftActive then c else d, s)
  | some (.upper c d) => (if upper then c else d, s)
  | some (.plain c) => (c, s)
  | some .escape => ('\x00', s.call [.clear_screen 0x000000, .ListTask])
  | none => ('\x00', s)

def keyboard_transform (s : State) (code : BitVec 16) : Char × State :=
  let raw_code := code &&& 0xFF
  if raw_code = KEY_LSHIFT ∨ raw_code = KEY_RSHIFT then ('\x00', { s with ShiftActive := true })
  else if raw_code = KEY_LSHIFT_REL ∨ raw_code = KEY_RSHIFT_REL then
    ('\x00', { s with ShiftActive := false })
  else if raw_code = KEY_CAPSLOCK then
    ('\x00', update_kbd_leds { s with CapslockActive := !s.CapslockActive })
  else if code &&& 0x80 ≠ 0 ∧ code &&& 0xFF00 ≠ 0xE000 then ('\x00', s)
  else keyboard_transform.switch s code

/-- The handler with the byte it reads from the port 0x60. -/
def keyboard_handler (s : State) (scancode : Byte) : State :=
  let (c, s) := keyboard_transform s (scancode.setWidth 16)
  let s := if c ≠ '\x00' then s.call [.printk c] else s
  s.call [.outb 0x20 0x20]

/-! ### The flag of the shift keys -/

variable (s : State)

/-- The `switch` changes no variable. -/
theorem switch_variables (code : BitVec 16) :
  (keyboard_transform.switch s code).2.ShiftActive = s.ShiftActive ∧
    (keyboard_transform.switch s code).2.CapslockActive = s.CapslockActive
  := by
  rw [keyboard_transform.switch]
  rcases keyboard_transform.label code with _ | _ | _ | _ | _
  all_goals exact ⟨rfl, rfl⟩

/-- Two codes set the flag and two clear it; the other codes leave it as it is. -/
theorem transform_ShiftActive (code : BitVec 16) :
  (keyboard_transform s code).2.ShiftActive =
    if code &&& 0xFF = KEY_LSHIFT ∨ code &&& 0xFF = KEY_RSHIFT then true
    else if code &&& 0xFF = KEY_LSHIFT_REL ∨ code &&& 0xFF = KEY_RSHIFT_REL then false
    else s.ShiftActive
  := by
  rw [keyboard_transform]
  split_ifs
  any_goals rfl
  exact (switch_variables s code).1

/-- A byte is its own low byte. -/
theorem low_byte (scancode : Byte) :
  scancode.setWidth 16 &&& 0xFF = scancode.setWidth 16
  := by
  apply BitVec.eq_of_toNat_eq
  rw [BitVec.toNat_and]
  apply (Nat.and_two_pow_sub_one_eq_mod _ 8).trans
  apply Nat.mod_eq_of_lt
  rw [BitVec.toNat_setWidth_of_le (by decide)]
  exact scancode.isLt

theorem handler_ShiftActive (scancode : Byte) :
  (keyboard_handler s scancode).ShiftActive =
    if scancode.setWidth 16 = KEY_LSHIFT ∨ scancode.setWidth 16 = KEY_RSHIFT then true
    else if scancode.setWidth 16 = KEY_LSHIFT_REL ∨ scancode.setWidth 16 = KEY_RSHIFT_REL then false
    else s.ShiftActive
  := by
  rw [keyboard_handler]
  dsimp only
  rw [State.call_ShiftActive, apply_ite State.ShiftActive, State.call_ShiftActive, ite_self,
    transform_ShiftActive, low_byte]

end Keyboard
