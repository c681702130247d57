import LySystem.Machine.Loop
import LySystem.Machine.Rtc

/-!
# The time

`time_init` of `kernel/time.c`, which reads the date from the real-time clock while the clock goes
on.  Hours up to 12 are read wrongly at midnight and at noon, and in decimal digits throughout the
afternoon: the bit of the afternoon is looked at behind the conversion from decimal digits.
-/

namespace Time

open Rtc

structure tm where
  tm_sec : BitVec 32
  tm_min : BitVec 32
  tm_hour : BitVec 32
  tm_mday : BitVec 32
  tm_mon : BitVec 32
  tm_year : BitVec 32
deriving DecidableEq

/-- The register `addr`, with the highest bit of the index set. -/
def CMOS_READ (addr : Byte) (c : Clock) : Byte × Clock := (c.outb 0x70 (0x80 ||| addr)).inb 0x71

def BCD_TO_BIN (val : BitVec 32) : BitVec 32 := (val &&& 0x0F) + (val.sshiftRight 4) * 10

/-- A round of the loop: the date, and then the seconds again. -/
def time_init.round (s : tm × Clock) : (tm × Clock) ⊕ (tm × Clock) :=
  let (tm_sec, c) := CMOS_READ 0x00 s.2
  let (tm_min, c) := CMOS_READ 0x02 c
  let (tm_hour, c) := CMOS_READ 0x04 c
  let (tm_mday, c) := CMOS_READ 0x07 c
  let (tm_mon, c) := CMOS_READ 0x08 c
  let (tm_year, c) := CMOS_READ 0x09 c
  let time : tm := ⟨tm_sec.setWidth 32, tm_min.setWidth 32, tm_hour.setWidth 32,
    tm_mday.setWidth 32, tm_mon.setWidth 32, tm_year.setWidth 32⟩
  let (last_sec, c) := CMOS_READ 0x00 c
  if time.tm_sec ≠ last_sec.setWidth 32 then .inl (time, c) else .inr (time, c)

/-- The numbers from what is in the registers. -/
def time_init.convert (status_b : Byte) (time : tm) : tm :=
  let time :=
    if status_b &&& 0x04 = 0 then
      (⟨BCD_TO_BIN time.tm_sec, BCD_TO_BIN time.tm_min, BCD_TO_BIN time.tm_hour,
        BCD_TO_BIN time.tm_mday, BCD_TO_BIN time.tm_mon, BCD_TO_BIN time.tm_year⟩ : tm)
    else time
  let time :=
    if status_b &&& 0x02 = 0 ∧ time.tm_hour &&& 0x80 ≠ 0 then
      { time with tm_hour := ((time.tm_hour &&& 0x7F) + 12).srem 24 }
    else time
  { time with tm_mon := time.tm_mon - 1, tm_year := time.tm_year + 2000 }

/-- The loop has `n` rounds at most. -/
def time_init (n : ℕ) (time : tm) (c : Clock) : Option (tm × Clock) :=
  do
    let (time, c) ← Loop.iterate time_init.round n (time, c)
    let (status_b, c) := CMOS_READ 0x0B c
    return (time_init.convert status_b time, c)

/-- The date as `struct tm` has it: the months are counted from zero. -/
def tm.ofDate (d : Date) : tm where
  tm_sec := BitVec.ofNat 32 d.sec
  tm_min := BitVec.ofNat 32 d.min
  tm_hour := BitVec.ofNat 32 d.hour
  tm_mday := BitVec.ofNat 32 d.mday
  tm_mon := BitVec.ofNat 32 d.mon - 1
  tm_year := BitVec.ofNat 32 d.year

/-- The registers the date is read from. -/
def raw (status : Byte) (d : Date) : tm where
  tm_sec := (register status d 0x00).setWidth 32
  tm_min := (register status d 0x02).setWidth 32
  tm_hour := (register status d 0x04).setWidth 32
  tm_mday := (register status d 0x07).setWidth 32
  tm_mon := (register status d 0x08).setWidth 32
  tm_year := (register status d 0x09).setWidth 32

/-! ### A round -/

variable {c c' : Clock} {t t' : tm}

/-- The value that is read is that of the second access. -/
theorem CMOS_READ_eq {addr : Byte} (haddr : addr &&& 0x80 = 0) (c : Clock) :
  CMOS_READ addr c =
    (register c.status (c.date (c.seconds (c.accesses + 1))) addr,
      { c with index := addr, accesses := c.accesses + 2 })
  := by
  have hindex : (0x80 ||| addr) &&& 0x7F = addr := by
    revert addr
    decide
  rw [CMOS_READ, Clock.outb, Clock.inb, if_pos rfl, if_pos rfl, hindex]
  rfl

/-- The clock is read on, from the register `index`. -/
def Later (index : Byte) (k : ℕ) (c : Clock) : Clock :=
  { c with index := index, accesses := c.accesses + k }

/-- The date at the access `k` from now. -/
def ahead (c : Clock) (k : ℕ) : Date := c.date (c.seconds (c.accesses + k))

theorem read_later {addr index : Byte} (haddr : addr &&& 0x80 = 0) (k : ℕ) (c : Clock) :
  CMOS_READ addr (Later index k c) =
    (register c.status (ahead c (k + 1)) addr, Later addr (k + 2) c)
  := CMOS_READ_eq haddr _

/-- The numbers a round reads, each at its time. -/
def readings (c : Clock) : tm where
  tm_sec := (register c.status (ahead c 1) 0x00).setWidth 32
  tm_min := (register c.status (ahead c 3) 0x02).setWidth 32
  tm_hour := (register c.status (ahead c 5) 0x04).setWidth 32
  tm_mday := (register c.status (ahead c 7) 0x07).setWidth 32
  tm_mon := (register c.status (ahead c 9) 0x08).setWidth 32
  tm_year := (register c.status (ahead c 11) 0x09).setWidth 32

theorem round_eq (t : tm) (c : Clock) :
  time_init.round (t, c) =
    if (readings c).tm_sec ≠ (register c.status (ahead c 13) 0x00).setWidth 32 then
      .inl (readings c, Later 0x00 14 c)
    else .inr (readings c, Later 0x00 14 c)
  := by
  have hfirst := CMOS_READ_eq (show (0x00 : Byte) &&& 0x80 = 0 by decide) c
  change _ = (_, Later 0x00 2 c) at hfirst
  rw [time_init.round]
  dsimp only
  rw [hfirst]
  dsimp only
  rw [read_later (by decide)]
  dsimp only
  rw [read_later (by decide)]
  dsimp only
  rw [read_later (by decide)]
  dsimp only
  rw [read_later (by decide)]
  dsimp only
  rw [read_later (by decide)]
  dsimp only
  rw [read_later (by decide)]
  rfl

/-- Different seconds are different in the register. -/
theorem register_sec_inj {status : Byte} {d d' : Date} (hd : d.sec < 60) (hd' : d'.sec < 60)
    (h : (register status d 0x00).setWidth 32 = (register status d' 0x00).setWidth 32) :
  d.sec = d'.sec
  := by
  have hlt : ∀ {e : Date}, e.sec < 60 → encode status e.sec < 256 := by
    intro e he
    rw [encode]
    split_ifs
    all_goals omega
  have hval := congrArg BitVec.toNat h
  rw [BitVec.toNat_setWidth_of_le (by decide), BitVec.toNat_setWidth_of_le (by decide)] at hval
  change encode status d.sec % 256 = encode status d'.sec % 256 at hval
  rw [Nat.mod_eq_of_lt (hlt hd), Nat.mod_eq_of_lt (hlt hd'), encode, encode] at hval
  split_ifs at hval
  all_goals omega

/-! ### From the registers to the date -/

/-- Hours that are read as they are: those up to 24, and those up to 12 of the morning but for
midnight, and of the afternoon but for noon if they are in binary. -/
def Readable (status : Byte) (h : ℕ) : Prop :=
  hours24 status ∨ h ≠ 0 ∧ h ≠ 12 ∧ (h < 12 ∨ binary status)

theorem encode_binary : ∀ n < 100, (BitVec.ofNat 8 n).setWidth 32 = BitVec.ofNat 32 n := by decide

theorem encode_decimal :
  ∀ n < 100, BCD_TO_BIN ((BitVec.ofNat 8 (n / 10 * 16 + n % 10)).setWidth 32) = BitVec.ofNat 32 n
  := by decide

/-- A number that may be in decimal digits. -/
def number (status : Byte) (x : BitVec 32) : BitVec 32 :=
  if status &&& 0x04 = 0 then BCD_TO_BIN x else x

/-- A number that may have the bit of the afternoon. -/
def hour (status : Byte) (x : BitVec 32) : BitVec 32 :=
  if status &&& 0x02 = 0 ∧ x &&& 0x80 ≠ 0 then ((x &&& 0x7F) + 12).srem 24 else x

theorem convert_eq (status : Byte) (t : tm) :
  time_init.convert status t =
    ⟨number status t.tm_sec, number status t.tm_min, hour status (number status t.tm_hour),
      number status t.tm_mday, number status t.tm_mon - 1, number status t.tm_year + 2000⟩
  := by
  simp only [time_init.convert, number, hour]
  split_ifs
  all_goals rfl

theorem binary_eq_false_iff (status : Byte) :
  status &&& 0x04 = 0 ↔ binary status = false
  := bne_eq_false_iff_eq.symm

theorem hours24_eq_false_iff (status : Byte) :
  status &&& 0x02 = 0 ↔ hours24 status = false
  := bne_eq_false_iff_eq.symm

theorem number_encode {status : Byte} {n : ℕ} (hn : n < 100) :
  number status ((BitVec.ofNat 8 (encode status n)).setWidth 32) = BitVec.ofNat 32 n
  := by
  rw [number, encode]
  simp only [binary_eq_false_iff]
  cases binary status with
  | false => exact encode_decimal n hn
  | true => exact encode_binary n hn

theorem hour_encode_iff {status : Byte} {h : ℕ} (hlt : h < 24) :
  hour status (number status ((BitVec.ofNat 8 (encodeHour status h)).setWidth 32)) =
    BitVec.ofNat 32 h ↔ Readable status h
  := by
  simp only [hour, number, encodeHour, encode, Readable, binary_eq_false_iff, hours24_eq_false_iff]
  generalize binary status = b
  generalize hours24 status = h24
  revert h b h24
  decide

/-- The conversion gives the date, but for the hours that cannot be read. -/
theorem convert_raw_iff {status : Byte} {d : Date} (hvalid : d.Valid) (hyear : 2000 ≤ d.year)
    (hyear' : d.year < 2100) :
  time_init.convert status (raw status d) = tm.ofDate d ↔ Readable status d.hour
  := by
  obtain ⟨hsec, hmin, hhour, hmday, -, hmon⟩ := hvalid
  have hcentury : BitVec.ofNat 32 (d.year % 100) + 2000 = BitVec.ofNat 32 d.year := by
    rw [show (2000 : BitVec 32) = BitVec.ofNat 32 2000 from rfl, ← BitVec.ofNat_add]
    congr 1
    omega
  rw [convert_eq, ← hour_encode_iff hhour, tm.ofDate, ← hcentury]
  rw [← number_encode (show d.sec < 100 by omega), ← number_encode (show d.min < 100 by omega),
    ← number_encode (show d.mday < 100 by omega), ← number_encode (show d.mon < 100 by omega),
    ← number_encode (Nat.mod_lt d.year (by decide))]
  constructor
  · exact congrArg tm.tm_hour
  · intro hhour
    exact congrArg (fun x => (⟨_, _, x, _, _, _⟩ : tm)) hhour

/-! ### The loop -/

/-- A round takes less than a minute. -/
def Short (c : Clock) : Prop := ∀ i, c.seconds (i + 12) < c.seconds i + 60

/-- The clock does not tick between the first access of a round and the last one. -/
def Quiet (c : Clock) : Prop := c.seconds (c.accesses + 13) = c.seconds (c.accesses + 1)

theorem Later_ticking (h : c.Ticking) (index : Byte) (k : ℕ) :
  (Later index k c).Ticking
  := ⟨h.valid, h.tick, h.seconds_mono⟩

theorem Later_later (index index' : Byte) (k l : ℕ) (c : Clock) :
  Later index k (Later index' l c) = Later index (l + k) c
  := by
  rw [Later, Later, Later, Nat.add_assoc]

theorem ahead_later (index : Byte) (k i : ℕ) (c : Clock) :
  ahead (Later index k c) i = ahead c (k + i)
  := by
  rw [ahead, ahead, Later, Nat.add_assoc]

/-- When the seconds are the same at the end of a round, all of the date was read within one
second. -/
theorem readings_eq (h : c.Ticking) (hshort : Short c)
    (hsame : (readings c).tm_sec = (register c.status (ahead c 13) 0x00).setWidth 32) :
  readings c = raw c.status (ahead c 13)
  := by
  have hsec : (ahead c 1).sec = (ahead c 13).sec :=
    register_sec_inj (h.valid _).sec_lt (h.valid _).sec_lt hsame
  have hmono := h.seconds_mono
  have hend : c.seconds (c.accesses + 1) = c.seconds (c.accesses + 13) :=
    h.eq_of_sec_eq (hmono (by omega)) (hshort (c.accesses + 1)) hsec
  have hbetween : ∀ k, 1 ≤ k → k ≤ 13 → ahead c k = ahead c 13 := by
    intro k hk hk'
    have hlow : c.seconds (c.accesses + 1) ≤ c.seconds (c.accesses + k) := hmono (by omega)
    have hhigh : c.seconds (c.accesses + k) ≤ c.seconds (c.accesses + 13) := hmono (by omega)
    rw [ahead, ahead, show c.seconds (c.accesses + k) = c.seconds (c.accesses + 13) by omega]
  rw [readings, raw, hbetween 1 (by decide) (by decide), hbetween 3 (by decide) (by decide),
    hbetween 5 (by decide) (by decide), hbetween 7 (by decide) (by decide),
    hbetween 9 (by decide) (by decide), hbetween 11 (by decide) (by decide)]

/-- The loop ends at a quiet round at the latest, with the registers as they are at the end of its
last round. -/
theorem iterate_round (h : c.Ticking) (hshort : Short c) {n : ℕ}
    (hquiet : ∃ j < n, Quiet (Later 0x00 (14 * j) c)) (t : tm) :
  ∃ i, Loop.iterate time_init.round n (t, c) =
    some (raw c.status (ahead c (14 * i + 13)), Later 0x00 (14 * i + 14) c)
  := by
  induction n generalizing c t with
  | zero =>
      obtain ⟨j, hj, -⟩ := hquiet
      exact absurd hj (Nat.not_lt_zero j)
  | succ n ih =>
      have hround := round_eq t c
      by_cases hsame : (readings c).tm_sec = (register c.status (ahead c 13) 0x00).setWidth 32
      · rw [if_neg (not_not_intro hsame), readings_eq h hshort hsame] at hround
        exact ⟨0, Loop.iterate_stop n hround⟩
      · rw [if_pos hsame] at hround
        obtain ⟨j, hj, hq⟩ := hquiet
        cases j with
        | zero =>
            apply absurd _ hsame
            rw [Quiet, Later, Nat.mul_zero, Nat.add_zero] at hq
            dsimp only at hq
            rw [ahead, hq]
            rfl
        | succ j =>
            rw [Nat.mul_succ, Nat.add_comm, ← Later_later 0x00] at hq
            obtain ⟨i, hi⟩ := ih (Later_ticking h 0x00 14) hshort
              ⟨j, Nat.lt_of_succ_lt_succ hj, hq⟩ (readings c)
            use i + 1
            rw [Loop.iterate_step n hround, hi, ahead_later, Later_later, Later,
              Nat.mul_succ, Nat.add_comm 14, Nat.add_comm 14, Nat.add_right_comm _ 13,
              Nat.add_right_comm _ 14 14, Later]

/-- A clock of one second every 20 accesses, with hours up to 24. -/
def slow : Clock :=
  ⟨fun n => ⟨n % 60, n / 60 % 60, 13, 7, 8, 2026⟩, fun i => i / 20, 0x02, 0, 10⟩

end Time
