import LySystem.Machine.Bytes
import Mathlib.Order.Monotone.Basic

/-!
# A real-time clock

The clock of a PC is read one register at a time, through an index register, and goes on meanwhile.
Its registers hold numbers in binary or in decimal digits, and hours up to 24 or up to 12, as the
status register B says.
-/

namespace Rtc

structure Date where
  sec : ℕ
  min : ℕ
  hour : ℕ
  mday : ℕ
  mon : ℕ
  year : ℕ
deriving DecidableEq

/-- A date of the calendar, the days of a month left aside. -/
structure Date.Valid (d : Date) : Prop where
  sec_lt : d.sec < 60
  min_lt : d.min < 60
  hour_lt : d.hour < 24
  mday_lt : d.mday < 32
  mon_pos : 0 < d.mon
  mon_le : d.mon ≤ 12

/-! ### The registers -/

/-- The numbers are binary. -/
def binary (status : Byte) : Bool := status &&& 0x04 != 0

/-- The hours are up to 24. -/
def hours24 (status : Byte) : Bool := status &&& 0x02 != 0

def encode (status : Byte) (n : ℕ) : ℕ :=
  if binary status then n else n / 10 * 16 + n % 10

/-- The hours; up to 12, those behind noon have the highest bit set. -/
def encodeHour (status : Byte) (h : ℕ) : ℕ :=
  if hours24 status then encode status h
  else encode status (if h % 12 = 0 then 12 else h % 12) + if 12 ≤ h then 0x80 else 0

/-- A register of a clock with this status. -/
def register (status : Byte) (d : Date) (index : Byte) : Byte :=
  if index = 0x0B then status
  else BitVec.ofNat 8 <|
    if index = 0x00 then encode status d.sec
    else if index = 0x02 then encode status d.min
    else if index = 0x04 then encodeHour status d.hour
    else if index = 0x07 then encode status d.mday
    else if index = 0x08 then encode status d.mon
    else if index = 0x09 then encode status (d.year % 100)
    else 0

/-! ### Reading -/

/-- The dates one second after the other, and how many seconds have gone by before each access. -/
structure Clock where
  date : ℕ → Date
  seconds : ℕ → ℕ
  status : Byte
  index : Byte
  accesses : ℕ

namespace Clock

/-- The date at the next access. -/
def now (c : Clock) : Date := c.date (c.seconds c.accesses)

/-- The highest bit written to the index register is not part of the index. -/
def outb (c : Clock) (port : ℕ) (v : Byte) : Clock :=
  { c with index := if port = 0x70 then v &&& 0x7F else c.index, accesses := c.accesses + 1 }

def inb (c : Clock) (port : ℕ) : Byte × Clock :=
  (if port = 0x71 then register c.status c.now c.index else 0xFF,
    { c with accesses := c.accesses + 1 })

/-- The clock ticks, and an access comes after the one before it. -/
structure Ticking (c : Clock) : Prop where
  valid : ∀ n, (c.date n).Valid
  tick : ∀ n, (c.date (n + 1)).sec = ((c.date n).sec + 1) % 60
  seconds_mono : Monotone c.seconds

variable {c : Clock}

theorem Ticking.sec_add (h : Ticking c) (n k : ℕ) :
  (c.date (n + k)).sec = ((c.date n).sec + k) % 60
  := by
  induction k with
  | zero => exact (Nat.mod_eq_of_lt (h.valid n).sec_lt).symm
  | succ k ih =>
      rw [← Nat.add_assoc, h.tick, ih, Nat.mod_add_mod, Nat.add_assoc]

/-- Less than a minute has gone by between two dates, so that they are the same if their seconds
are. -/
theorem Ticking.eq_of_sec_eq (h : Ticking c) {i j : ℕ} (hij : i ≤ j) (hlt : j < i + 60)
    (hsec : (c.date i).sec = (c.date j).sec) :
  i = j
  := by
  obtain ⟨k, rfl⟩ := Nat.exists_eq_add_of_le hij
  rw [h.sec_add] at hsec
  have hsec_lt := (h.valid i).sec_lt
  omega

end Clock

end Rtc
