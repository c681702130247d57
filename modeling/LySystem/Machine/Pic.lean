import LySystem.Machine.Bytes
import Mathlib.Logic.Function.Basic

/-!
# The interrupt controllers

The two 8259 controllers of a PC, the second of which requests through the line 2 of the first.  A
line that is requested and not masked is presented to the processor unless a line of the same chip
that comes before it is in service, and stays in service until the end of the interrupt is written
to the chip.  A chip that is programmed expects two or three more bytes.
-/

namespace Pic

/-- What the next byte written to the data port is. -/
inductive Expects where
  | vector
  | wiring
  | mode
  | mask
deriving DecidableEq

/-- The requests, the lines in service and the masked lines; the number of the first vector, and the
line of the other chip. -/
structure Chip where
  requested : ℕ → Bool
  serving : ℕ → Bool
  masked : Byte
  base : Byte
  wiring : Byte
  expects : Expects
  modeNeeded : Bool

namespace Chip

/-- A line of the chip comes before the line `n`, or is `n`. -/
def servedUpTo (c : Chip) (n : ℕ) : Bool := (List.range (n + 1)).any c.serving

/-- The line that is presented, when the requests are those of `r`. -/
def presented (c : Chip) (r : ℕ → Bool) : Option ℕ :=
  (List.range 8).find? fun n => r n && !c.masked.getLsbD n && !c.servedUpTo n

/-- The line in service that comes first. -/
def first (c : Chip) : Option ℕ := (List.range 8).find? c.serving

/-- A byte for the command port: the chip is to be programmed, or the end of the interrupt that comes
first.  Other commands are not used. -/
def command (c : Chip) (v : Byte) : Chip :=
  if v.getLsbD 4 then
    { c with
      requested := fun _ => false
      serving := fun _ => false
      masked := 0
      expects := .vector
      modeNeeded := v.getLsbD 0 }
  else if v = 0x20 then
    match c.first with
    | some n => { c with serving := Function.update c.serving n false }
    | none => c
  else c

/-- A byte for the data port. -/
def data (c : Chip) (v : Byte) : Chip :=
  match c.expects with
  | .vector => { c with base := v &&& 0xF8, expects := .wiring }
  | .wiring => { c with wiring := v, expects := if c.modeNeeded then .mode else .mask }
  | .mode => { c with expects := .mask }
  | .mask => { c with masked := v }

/-- The processor takes the line `n`. -/
def take (c : Chip) (n : ℕ) : Chip :=
  { c with
    requested := Function.update c.requested n false
    serving := Function.update c.serving n true }

end Chip

/-- Both controllers. -/
structure Pair where
  master : Chip
  slave : Chip

namespace Pair

/-- The requests of the first controller: the line 2 is that of the second one. -/
def masterRequests (p : Pair) : ℕ → Bool :=
  Function.update p.master.requested 2 (p.slave.presented p.slave.requested).isSome

def outb (p : Pair) (port : ℕ) (v : Byte) : Pair :=
  if port = 0x20 then { p with master := p.master.command v }
  else if port = 0x21 then { p with master := p.master.data v }
  else if port = 0xA0 then { p with slave := p.slave.command v }
  else if port = 0xA1 then { p with slave := p.slave.data v }
  else p

/-- The masks are what is read from the data ports. -/
def inb (p : Pair) (port : ℕ) : Byte :=
  if port = 0x21 then p.master.masked else if port = 0xA1 then p.slave.masked else 0xFF

/-- A device requests an interrupt. -/
def raise (p : Pair) (line : ℕ) : Pair :=
  if line < 8 then
    { p with master.requested := Function.update p.master.requested line true }
  else { p with slave.requested := Function.update p.slave.requested (line - 8) true }

/-- The processor acknowledges an interrupt: its vector.  The second controller answers for its line
if the first is told that it is there and the second which line it is. -/
def acknowledge (p : Pair) : Option (Byte × Pair) :=
  match p.master.presented p.masterRequests with
  | none => none
  | some n =>
      if p.master.wiring.getLsbD n && p.slave.wiring.toNat == n then
        match p.slave.presented p.slave.requested with
        | none => none
        | some k => some (p.slave.base + BitVec.ofNat 8 k,
            ⟨{ p.master with serving := Function.update p.master.serving n true }, p.slave.take k⟩)
      else some (p.master.base + BitVec.ofNat 8 n, { p with master := p.master.take n })

end Pair

end Pic
