import LySystem.Machine.Ata
import LySystem.Machine.Loop

/-!
# The IDE driver

`kernel/drivers/ide.c`, and the handler of its interrupt from `kernel/IRQ/traps.c`, over a drive
that works on its own between any two accesses of the driver.  Interrupts are enabled, so that the
drive's is taken before the next access; the handler itself is not interrupted.  Loops that wait
get a number of rounds.
-/

namespace Ide

def ATA_PRIMARY_DATA : ℕ := 0x1F0

def ATA_PRIMARY_SECCOUNT : ℕ := 0x1F2

def ATA_PRIMARY_LBA_LOW : ℕ := 0x1F3

def ATA_PRIMARY_LBA_MID : ℕ := 0x1F4

def ATA_PRIMARY_LBA_HIGH : ℕ := 0x1F5

def ATA_PRIMARY_DRIVE_SEL : ℕ := 0x1F6

def ATA_PRIMARY_COMM_STAT : ℕ := 0x1F7

def ATA_CMD_READ_PIO : Byte := 0x20

/-- The drive, the variable the handler sets, and for how many accesses more than one the processor
sleeps each time it halts, unless the drive wakes it. -/
structure Machine where
  drive : Ata.Drive
  ide_irq_fired : Byte
  naps : ℕ → ℕ

/-- The interrupt of the drive. -/
def ide_handler (w : Machine) : Machine :=
  let w := { w with ide_irq_fired := 1 }
  let drive := (w.drive.inb 0x1F7).2
  let drive := (drive.inb 0x177).2
  let drive := drive.outb 0xA0 0x20
  let drive := drive.outb 0x20 0x20
  { w with drive := drive }

namespace Machine

/-- The time before an access passes. -/
def pass (w : Machine) : Machine :=
  let w := { w with drive := w.drive.elapse }
  if w.drive.intrq && !w.drive.nIEN then ide_handler w else w

def inb (w : Machine) (port : ℕ) : Byte × Machine :=
  let w := w.pass
  let r := w.drive.inb port
  (r.1, { w with drive := r.2 })

def outb (w : Machine) (port : ℕ) (v : Byte) : Machine :=
  let w := w.pass
  { w with drive := w.drive.outb port v }

def inw (w : Machine) (port : ℕ) : ℕ × Machine :=
  let w := w.pass
  let r := w.drive.inw port
  (r.1, { w with drive := r.2 })

def outw (w : Machine) (port v : ℕ) : Machine :=
  let w := w.pass
  { w with drive := w.drive.outw port v }

/-- The variable of the handler, read and written. -/
def fired (w : Machine) : Byte × Machine :=
  let w := w.pass
  (w.ide_irq_fired, w)

@[inherit_doc fired]
def setFired (w : Machine) (v : Byte) : Machine := { w.pass with ide_irq_fired := v }

/-- The processor sleeps until an interrupt wakes it, be it that of the timer. -/
def hlt (w : Machine) : Machine :=
  { pass^[w.naps 0 + 1] w with naps := fun i => w.naps (i + 1) }

end Machine

def ide_wait_bsy (n : ℕ) (w : Machine) : Option Machine :=
  Loop.iterate (fun w =>
    let r := w.inb ATA_PRIMARY_COMM_STAT
    if r.1 &&& 0x80 != 0 then .inl r.2 else .inr r.2) n w

def ide_wait_irq (n : ℕ) (w : Machine) : Option Machine :=
  do
    let w ← Loop.iterate (fun w : Machine =>
      let r := w.fired
      if r.1 == 0 then .inl r.2.hlt else .inr r.2) n w
    return w.setFired 0

/-- The registers written before a command. -/
def select (w : Machine) (lba : ℕ) : Machine :=
  let w := w.outb ATA_PRIMARY_DRIVE_SEL (BitVec.ofNat 8 (0xE0 ||| (lba >>> 24 &&& 0x0F)))
  let w := w.outb ATA_PRIMARY_SECCOUNT 1
  let w := w.outb ATA_PRIMARY_LBA_LOW (BitVec.ofNat 8 lba)
  let w := w.outb ATA_PRIMARY_LBA_MID (BitVec.ofNat 8 (lba >>> 8))
  w.outb ATA_PRIMARY_LBA_HIGH (BitVec.ofNat 8 (lba >>> 16))

/-- `ptr[i] = inw(ATA_PRIMARY_DATA)`, where `ptr` is the buffer. -/
def ide_read_sector.word (buffer : ℕ) (s : Memory × Machine) (i : ℕ) : Memory × Machine :=
  let r := s.2.inw ATA_PRIMARY_DATA
  (s.1.store (buffer + 2 * i) 2 r.1, r.2)

def ide_read_sector (n : ℕ) (w : Machine) (m : Memory) (lba buffer : ℕ) :
    Option (Memory × Machine) :=
  do
    let w := w.outb 0x3F6 0x00
    let w ← ide_wait_bsy n w
    let w := select w lba
    let w := w.setFired 0
    let w := w.outb ATA_PRIMARY_COMM_STAT ATA_CMD_READ_PIO
    let w ← ide_wait_irq n w
    return (List.range 256).foldl (ide_read_sector.word buffer) (m, w)

/-- `outw(ATA_PRIMARY_DATA, ptr[i])`, where `ptr` is the buffer. -/
def ide_write_sector.word (m : Memory) (buffer : ℕ) (w : Machine) (i : ℕ) : Machine :=
  w.outw ATA_PRIMARY_DATA (m.load (buffer + 2 * i) 2)

def ide_write_sector (n : ℕ) (w : Machine) (m : Memory) (lba buffer : ℕ) : Option Machine :=
  do
    let w := w.outb 0x3F6 0x00
    let w ← ide_wait_bsy n w
    let w := select w lba
    let w := w.setFired 0
    let w := w.outb ATA_PRIMARY_COMM_STAT 0x30
    let w ← ide_wait_bsy n w
    let w := (List.range 256).foldl (ide_write_sector.word m buffer) w
    let w := w.outb ATA_PRIMARY_COMM_STAT 0xE7
    ide_wait_bsy n w

end Ide
