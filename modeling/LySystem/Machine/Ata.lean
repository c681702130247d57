import LySystem.Machine.Bytes

/-!
# An ATA drive

The registers and the transfers of an ATA drive in programmed I/O.  A command keeps the drive busy
for a time of which nothing is known: how many accesses of the processor it takes is told by
`delays`, one number for each time.  Words go through the data register while the drive requests
them.  Commands other than reading and writing sectors end without a transfer.
-/

namespace Ata

/-- A block of the drive. -/
abbrev Block := Fin 512 → Byte

/-- A block as a memory. -/
def Block.bytes (b : Block) : Memory := fun i => if h : i < 512 then b ⟨i, h⟩ else 0

/-- What a drive is doing.  `left` blocks from `lba` on are still to be transferred, and `i` words
of the first of them have been. -/
inductive Phase where
  | idle
  | working
  | reading (lba left : ℕ)
  | dataIn (lba left i : ℕ) (block : Block)
  | preparing (lba left : ℕ)
  | dataOut (lba left i : ℕ) (block : Memory)
  | writing (lba left : ℕ) (block : Block)

def Phase.busy : Phase → Bool
  | .working | .reading _ _ | .preparing _ _ | .writing _ _ _ => true
  | _ => false

/-- The drive requests words. -/
def Phase.drq : Phase → Bool
  | .dataIn _ _ _ _ | .dataOut _ _ _ _ => true
  | _ => false

/-- A drive, and for how many accesses it stays busy: this time, and the next times. -/
structure Drive where
  disk : ℕ → Block
  nIEN : Bool
  drive_sel : Byte
  seccount : Byte
  lba_low : Byte
  lba_mid : Byte
  lba_high : Byte
  phase : Phase
  intrq : Bool
  wait : ℕ
  delays : ℕ → ℕ

namespace Drive

def status (d : Drive) : Byte :=
  if d.phase.busy then 0x80 else if d.phase.drq then 0x48 else 0x40

/-- The address in the registers. -/
def lba (d : Drive) : ℕ :=
  d.drive_sel.toNat % 16 * 2 ^ 24 + d.lba_high.toNat * 2 ^ 16 + d.lba_mid.toNat * 2 ^ 8 +
    d.lba_low.toNat

/-- The number of blocks asked for. -/
def count (d : Drive) : ℕ := if d.seccount = 0 then 256 else d.seccount.toNat

/-- The drive is busy in the phase `p`. -/
def start (d : Drive) (p : Phase) : Drive :=
  { d with phase := p, wait := d.delays 0, delays := fun i => d.delays (i + 1) }

/-- A command to the drive 0, which takes addresses of blocks. -/
def command (d : Drive) (c : Byte) : Drive :=
  let d := { d with intrq := false }
  if d.drive_sel &&& 0x10 = 0x10 then d
  else if c = 0x20 ∧ d.drive_sel &&& 0x40 = 0x40 then d.start (.reading d.lba d.count)
  else if c = 0x30 ∧ d.drive_sel &&& 0x40 = 0x40 then d.start (.preparing d.lba d.count)
  else d.start .working

/-- A busy drive is done. -/
def finish (d : Drive) : Drive :=
  match d.phase with
  | .working => { d with phase := .idle, intrq := true }
  | .reading lba left => { d with phase := .dataIn lba left 0 (d.disk lba), intrq := true }
  | .preparing lba left => { d with phase := .dataOut lba left 0 fun _ => 0 }
  | .writing lba left block =>
      { d with
        disk := Function.update d.disk lba block
        phase := if left ≤ 1 then .idle else .dataOut (lba + 1) (left - 1) 0 fun _ => 0
        intrq := true }
  | _ => d

/-- The time of one access passes. -/
def elapse (d : Drive) : Drive :=
  if d.phase.busy then if d.wait = 0 then d.finish else { d with wait := d.wait - 1 } else d

/-- A byte read.  Reading the status takes the request for an interrupt back. -/
def inb (d : Drive) (port : ℕ) : Byte × Drive :=
  if port = 0x1F7 then (d.status, { d with intrq := false }) else (0xFF, d)

/-- A byte written.  Only the control register may be written while a command is under way. -/
def outb (d : Drive) (port : ℕ) (v : Byte) : Drive :=
  if port = 0x3F6 then { d with nIEN := v.getLsbD 1 }
  else if d.phase.busy || d.phase.drq then d
  else if port = 0x1F2 then { d with seccount := v }
  else if port = 0x1F3 then { d with lba_low := v }
  else if port = 0x1F4 then { d with lba_mid := v }
  else if port = 0x1F5 then { d with lba_high := v }
  else if port = 0x1F6 then { d with drive_sel := v }
  else if port = 0x1F7 then d.command v
  else d

/-- A word read. -/
def inw (d : Drive) (port : ℕ) : ℕ × Drive :=
  match d.phase with
  | .dataIn lba left i block =>
      if port = 0x1F0 then
        (block.bytes.load (2 * i) 2,
          if i < 255 then { d with phase := .dataIn lba left (i + 1) block }
          else if left ≤ 1 then { d with phase := .idle }
          else d.start (.reading (lba + 1) (left - 1)))
      else (0xFFFF, d)
  | _ => (0xFFFF, d)

/-- A word written. -/
def outw (d : Drive) (port v : ℕ) : Drive :=
  match d.phase with
  | .dataOut lba left i block =>
      if port = 0x1F0 then
        if i < 255 then { d with phase := .dataOut lba left (i + 1) (block.store (2 * i) 2 v) }
        else d.start (.writing lba left fun j => block.store (2 * i) 2 v j)
      else d
  | _ => d

/-- The accesses until a busy drive is done. -/
def remaining (d : Drive) : ℕ := if d.phase.busy then d.wait + 1 else 0

end Drive

end Ata
