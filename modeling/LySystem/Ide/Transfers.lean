import LySystem.Ide.Driver
import Mathlib.Data.ENat.Basic

/-!
# What the driver transfers

However long the drive takes for a command, and whenever its interrupt comes, `ide_read_sector`
returns the block the drive holds at the address, and `ide_write_sector` returns only when the drive
holds the new one.  A driver that waits for as many rounds as the drive is busy at most returns.
-/

namespace Ide

open Ata

/-! ### Time -/

namespace Machine

variable {w : Machine}

theorem ide_handler_eq (w : Machine) :
  ide_handler w = { w with ide_irq_fired := 1, drive := { w.drive with intrq := false } }
  := by
  simp [ide_handler, Drive.inb, Drive.outb]

/-- Nothing happens by itself while the drive neither works nor asks for an interrupt. -/
theorem pass_of_still (hbusy : w.drive.phase.busy = false) (hirq : w.drive.intrq = false) :
  w.pass = w
  := by
  simp [pass, Drive.elapse, hbusy, hirq]

/-- The drive works on. -/
theorem pass_of_wait (hbusy : w.drive.phase.busy = true) (hirq : w.drive.intrq = false)
    (hwait : w.drive.wait ≠ 0) :
  w.pass = { w with drive := { w.drive with wait := w.drive.wait - 1 } }
  := by
  simp [pass, Drive.elapse, hbusy, hirq, hwait]

/-- The drive is done. -/
theorem pass_of_done (hbusy : w.drive.phase.busy = true) (hwait : w.drive.wait = 0) :
  w.pass =
    if w.drive.finish.intrq && !w.drive.finish.nIEN then
      ide_handler { w with drive := w.drive.finish }
    else { w with drive := w.drive.finish }
  := by
  simp [pass, Drive.elapse, hbusy, hwait]

end Machine

theorem finish_busy (d : Drive) (hbusy : d.phase.busy = true) :
  d.finish.phase.busy = false
  := by
  rw [Drive.finish]
  cases hphase : d.phase with
  | writing lba left block =>
      simp only
      split_ifs
      all_goals rfl
  | idle => simp [hphase, Phase.busy] at hbusy
  | dataIn lba left i block => simp [hphase, Phase.busy] at hbusy
  | dataOut lba left i block => simp [hphase, Phase.busy] at hbusy
  | _ => rfl

theorem finish_delays (d : Drive) :
  d.finish.wait = d.wait ∧ d.finish.delays = d.delays
  := by
  rw [Drive.finish]
  split
  all_goals exact ⟨rfl, rfl⟩

theorem remaining_elapse (d : Drive) :
  d.elapse.remaining = d.remaining - 1
  := by
  rw [Drive.elapse]
  cases hbusy : d.phase.busy with
  | false => simp [Drive.remaining, hbusy]
  | true =>
      by_cases hwait : d.wait = 0
      · simp [Drive.remaining, hbusy, hwait, finish_busy d hbusy]
      · simp only [if_true, if_neg hwait, Drive.remaining, hbusy]
        omega

/-- The handler and the taking back of an interrupt leave the rest of the drive as it is. -/
theorem pass_drive (w : Machine) :
  ∃ irq, w.pass.drive = { w.drive.elapse with intrq := irq }
  := by
  rw [Machine.pass]
  split_ifs
  · exact ⟨false, by rw [Machine.ide_handler_eq]⟩
  · exact ⟨w.drive.elapse.intrq, rfl⟩

theorem remaining_pass (w : Machine) :
  w.pass.drive.remaining = w.drive.remaining - 1
  := by
  obtain ⟨irq, hdrive⟩ := pass_drive w
  rw [hdrive, ← remaining_elapse]
  rfl

/-! ### Drives that are done in time -/

/-- The drive is never busy for more than `k` accesses. -/
structure Prompt (k : ℕ∞) (d : Drive) : Prop where
  wait : d.wait ≤ k
  delays : ∀ i, d.delays i ≤ k

section

variable {k : ℕ∞} {d : Drive} {w w' : Machine}

theorem Prompt.start (h : Prompt k d) (p : Phase) :
  Prompt k (d.start p)
  := ⟨h.delays 0, fun i => h.delays (i + 1)⟩

theorem Prompt.elapse (h : Prompt k d) :
  Prompt k d.elapse
  := by
  rw [Drive.elapse]
  split_ifs
  · obtain ⟨hwait, hdelays⟩ := finish_delays d
    exact ⟨hwait ▸ h.wait, hdelays ▸ h.delays⟩
  · refine ⟨le_trans ?_ h.wait, h.delays⟩
    exact_mod_cast Nat.sub_le _ _
  · exact h

theorem Prompt.pass (h : Prompt k w.drive) :
  Prompt k w.pass.drive
  := by
  obtain ⟨irq, hdrive⟩ := pass_drive w
  rw [hdrive]
  exact ⟨h.elapse.wait, h.elapse.delays⟩

theorem Prompt.command (h : Prompt k d) (c : Byte) :
  Prompt k (d.command c)
  := by
  rw [Drive.command]
  split_ifs
  any_goals apply Prompt.start
  all_goals exact ⟨h.wait, h.delays⟩

theorem Prompt.outb (h : Prompt k w.drive) (port : ℕ) (v : Byte) :
  Prompt k (w.outb port v).drive
  := by
  have hpass := h.pass
  rw [Machine.outb, Drive.outb]
  simp only
  split_ifs
  any_goals apply hpass.command v
  all_goals exact ⟨hpass.wait, hpass.delays⟩

theorem Prompt.inb (h : Prompt k w.drive) (port : ℕ) :
  Prompt k (w.inb port).2.drive
  := by
  have hpass := h.pass
  rw [Machine.inb, Drive.inb]
  simp only
  split_ifs
  · exact ⟨hpass.wait, hpass.delays⟩
  · exact hpass

theorem Prompt.inw (h : Prompt k w.drive) (port : ℕ) :
  Prompt k (w.inw port).2.drive
  := by
  have hpass := h.pass
  rw [Machine.inw, Drive.inw]
  simp only
  split
  · split_ifs
    any_goals apply Prompt.start
    all_goals exact ⟨hpass.wait, hpass.delays⟩
  · exact hpass

theorem Prompt.outw (h : Prompt k w.drive) (port v : ℕ) :
  Prompt k (w.outw port v).drive
  := by
  have hpass := h.pass
  rw [Machine.outw, Drive.outw]
  simp only
  split
  · split_ifs
    any_goals apply Prompt.start
    all_goals exact ⟨hpass.wait, hpass.delays⟩
  · exact hpass

theorem Prompt.remaining_lt (h : Prompt k w.drive) {n : ℕ} (hn : k + 2 ≤ n) :
  w.drive.remaining < n
  := by
  rw [Drive.remaining]
  have hwait : ((w.drive.wait + 2 : ℕ) : ℕ∞) ≤ n := by
    push_cast
    apply le_trans _ hn
    gcongr
    exact h.wait
  have := Nat.cast_le.mp hwait
  split_ifs
  all_goals omega

end

/-! ### Waiting -/

section

variable {n : ℕ} {w w' : Machine} {I : Machine → Prop}

theorem status_busy (d : Drive) :
  (d.status &&& 0x80 != 0) = d.phase.busy
  := by
  rw [Drive.status]
  cases d.phase.busy with
  | true =>
      rw [if_pos rfl]
      decide
  | false =>
      simp only [Bool.false_eq_true, if_false]
      split_ifs
      all_goals decide

theorem inb_status (w : Machine) :
  w.inb ATA_PRIMARY_COMM_STAT =
    (w.pass.drive.status, { w.pass with drive := { w.pass.drive with intrq := false } })
  := rfl

/-- `ide_wait_bsy` keeps what every reading of the status keeps, and returns when the drive is not
busy. -/
theorem ide_wait_bsy_spec (h : ide_wait_bsy n w = some w')
    (hstep : ∀ w, I w → I (w.inb ATA_PRIMARY_COMM_STAT).2) (hw : I w) :
  I w' ∧ w'.drive.phase.busy = false ∧ w'.drive.intrq = false
  := by
  apply Loop.Returns.invariant (I := I) _ _ hw (Loop.Returns.of_iterate h)
  · intro u u' hu hround
    simp only at hround
    split_ifs at hround
    obtain rfl := Sum.inl.inj hround
    apply hstep u hu
  · intro u u' hu hround
    simp only at hround
    split_ifs at hround with hidle
    obtain rfl := Sum.inr.inj hround
    use hstep u hu
    rw [inb_status] at hidle ⊢
    rw [status_busy] at hidle
    exact ⟨by simpa using hidle, rfl⟩

/-- It returns when it waits for as many rounds as the drive is busy. -/
theorem ide_wait_bsy_returns (hn : w.drive.remaining < n) :
  ∃ w', ide_wait_bsy n w = some w'
  := by
  apply Loop.iterate_of_measure (I := fun _ => True) (fun u : Machine => u.drive.remaining) _ trivial hn
  intro u u' _ hround
  simp only at hround
  split_ifs at hround with hbusy
  obtain rfl := Sum.inl.inj hround
  use trivial
  have hremaining := remaining_pass u
  rw [inb_status] at hbusy ⊢
  rw [status_busy] at hbusy
  have hpos : 0 < u.pass.drive.remaining := by
    rw [Drive.remaining, if_pos hbusy]
    omega
  have heq : ({ u.pass.drive with intrq := false } : Drive).remaining = u.pass.drive.remaining := rfl
  simp only [heq]
  omega

end

/-! ### Commands -/

/-- The drive is in no transfer. -/
def Ready (w : Machine) : Prop := w.drive.phase = .idle ∨ w.drive.phase = .working

/-- Nothing is going on, and interrupts of the drive are enabled. -/
structure Quiet (w : Machine) : Prop where
  phase : w.drive.phase = .idle
  intrq : w.drive.intrq = false
  nIEN : w.drive.nIEN = false

/-- The registers hold the address `lba`, and ask for one block. -/
structure Selected (lba : ℕ) (w : Machine) : Prop extends Quiet w where
  lba : w.drive.lba = lba
  count : w.drive.count = 1
  first : ¬ w.drive.drive_sel &&& 0x10 = 0x10
  byLba : w.drive.drive_sel &&& 0x40 = 0x40

section

variable {n lba : ℕ} {w w' : Machine}

theorem Quiet.ready (h : Quiet w) :
  Ready w
  := Or.inl h.phase

theorem Quiet.pass (h : Quiet w) :
  w.pass = w
  := Machine.pass_of_still (by rw [h.phase]; rfl) h.intrq

theorem Quiet.outb (h : Quiet w) (port : ℕ) (v : Byte) :
  w.outb port v = { w with drive := w.drive.outb port v }
  := by
  rw [Machine.outb, h.pass]

theorem Ready.pass (h : Ready w) :
  Ready w.pass ∧ w.pass.drive.disk = w.drive.disk ∧ w.pass.drive.nIEN = w.drive.nIEN
  := by
  obtain ⟨irq, hdrive⟩ := pass_drive w
  rw [Ready, hdrive, Drive.elapse]
  rcases h with hphase | hphase
  · simp only [hphase, Phase.busy, Bool.false_eq_true, if_false]
    exact ⟨Or.inl trivial, trivial, trivial⟩
  · simp only [hphase, Phase.busy, if_true]
    split_ifs
    · simp [Drive.finish, hphase]
    · simp

/-- What a driver waits for before it selects a block. -/
theorem reset_spec (h : ide_wait_bsy n (w.outb 0x3F6 0x00) = some w') (hw : Ready w) :
  Quiet w' ∧ w'.drive.disk = w.drive.disk
  := by
  let I := fun u : Machine => Ready u ∧ u.drive.nIEN = false ∧ u.drive.disk = w.drive.disk
  obtain ⟨⟨hready, henabled, hdisk⟩, hbusy, hirq⟩ : I w' ∧ _ := by
    apply ide_wait_bsy_spec h
    · rintro u ⟨hu, henabled, hdisk⟩
      obtain ⟨hready, hdisk', henabled'⟩ := hu.pass
      rw [inb_status]
      exact ⟨hready, henabled'.trans henabled, hdisk'.trans hdisk⟩
    · obtain ⟨hready, hdisk, -⟩ := hw.pass
      rw [Machine.outb, Drive.outb, if_pos rfl]
      exact ⟨hready, rfl, hdisk⟩
  refine ⟨⟨?_, hirq, henabled⟩, hdisk⟩
  apply hready.resolve_right
  intro hworking
  simp [hworking, Phase.busy] at hbusy

/-- The byte that selects the drive 0 and holds the highest four bits of an address. -/
theorem selectByte :
  ∀ x < 16, (BitVec.ofNat 8 (0xE0 ||| x)).toNat % 16 = x ∧
    ¬ BitVec.ofNat 8 (0xE0 ||| x) &&& 0x10 = 0x10 ∧ BitVec.ofNat 8 (0xE0 ||| x) &&& 0x40 = 0x40
  := by decide

theorem select_spec (hw : Quiet w) (lba : ℕ) :
  Selected (lba % 2 ^ 28) (select w lba) ∧ (select w lba).drive.disk = w.drive.disk
  := by
  have hhigh : lba >>> 24 &&& 0x0F = lba / 2 ^ 24 % 16 := by
    rw [Nat.shiftRight_eq_div_pow]
    apply Nat.and_two_pow_sub_one_eq_mod _ 4
  obtain ⟨hnibble, hfirst, hbyLba⟩ := selectByte (lba / 2 ^ 24 % 16) (Nat.mod_lt _ (by decide))
  have heq : select w lba = { w with drive := { w.drive with
      drive_sel := BitVec.ofNat 8 (0xE0 ||| (lba / 2 ^ 24 % 16))
      seccount := 1
      lba_low := BitVec.ofNat 8 lba
      lba_mid := BitVec.ofNat 8 (lba >>> 8)
      lba_high := BitVec.ofNat 8 (lba >>> 16) } } := by
    simp [select, Machine.outb, Machine.pass, Drive.elapse, Drive.outb, hw.phase, hw.intrq,
      Phase.busy, Phase.drq, hhigh, ATA_PRIMARY_DRIVE_SEL, ATA_PRIMARY_SECCOUNT,
      ATA_PRIMARY_LBA_LOW, ATA_PRIMARY_LBA_MID, ATA_PRIMARY_LBA_HIGH]
  rw [heq]
  refine ⟨⟨⟨hw.phase, hw.intrq, hw.nIEN⟩, ?_, rfl, hfirst, hbyLba⟩, rfl⟩
  simp only [Drive.lba, hnibble]
  simp only [BitVec.toNat_ofNat, Nat.shiftRight_eq_div_pow]
  omega

theorem outb_command {d : Drive} (h : d.phase = .idle) (c : Byte) :
  d.outb ATA_PRIMARY_COMM_STAT c = d.command c
  := by
  simp [Drive.outb, ATA_PRIMARY_COMM_STAT, h, Phase.busy, Phase.drq]

/-- A command is taken by a drive at rest. -/
theorem Selected.command {p : Phase} {c : Byte} (h : Selected lba w)
    (hc : c = 0x20 ∧ p = .reading lba 1 ∨ c = 0x30 ∧ p = .preparing lba 1) :
  (w.setFired 0).outb ATA_PRIMARY_COMM_STAT c =
    { w with ide_irq_fired := 0, drive := { w.drive with intrq := false }.start p }
  := by
  have hfired : w.setFired 0 = { w with ide_irq_fired := 0 } := by rw [Machine.setFired, h.pass]
  have hquiet : Quiet (w.setFired 0) := by
    rw [hfired]
    exact ⟨h.phase, h.intrq, h.nIEN⟩
  rw [hquiet.outb, outb_command hquiet.phase, Drive.command, hfired]
  simp only
  rw [if_neg h.first]
  rcases hc with ⟨rfl, rfl⟩ | ⟨rfl, rfl⟩
  · rw [if_pos ⟨rfl, h.byLba⟩, ← h.lba, ← h.count]
    rfl
  · rw [if_neg (fun h => absurd h.1 (by decide)), if_pos ⟨rfl, h.byLba⟩, ← h.lba, ← h.count]
    rfl

/-! ### Reading -/

/-- The drive is fetching the block at `lba`, or has it ready and has told so. -/
structure Fetching (disk : ℕ → Block) (lba : ℕ) (w : Machine) : Prop where
  kept : w.drive.disk = disk
  intrq : w.drive.intrq = false
  nIEN : w.drive.nIEN = false
  phase : w.drive.phase = .reading lba 1 ∧ w.ide_irq_fired = 0 ∨
    w.drive.phase = .dataIn lba 1 0 (disk lba) ∧ w.ide_irq_fired = 1

theorem Fetching.pass {disk : ℕ → Block} (h : Fetching disk lba w) :
  Fetching disk lba w.pass
  := by
  rcases h.phase with ⟨hphase, hfired⟩ | ⟨hphase, hfired⟩
  · by_cases hwait : w.drive.wait = 0
    · rw [Machine.pass_of_done (by rw [hphase]; rfl) hwait, Drive.finish, hphase]
      simp only [h.nIEN, Bool.not_false, Bool.and_self, if_true, Machine.ide_handler_eq]
      exact ⟨h.kept, rfl, rfl, Or.inr ⟨by rw [h.kept], rfl⟩⟩
    · rw [Machine.pass_of_wait (by rw [hphase]; rfl) h.intrq hwait]
      exact ⟨h.kept, h.intrq, h.nIEN, Or.inl ⟨hphase, hfired⟩⟩
  · rwa [Machine.pass_of_still (by rw [hphase]; rfl) h.intrq]

theorem Fetching.passes {disk : ℕ → Block} (h : Fetching disk lba w) (j : ℕ) :
  Fetching disk lba (Machine.pass^[j] w)
  := by
  induction j with
  | zero => exact h
  | succ j ih =>
      rw [Function.iterate_succ_apply']
      apply ih.pass

theorem Fetching.hlt {disk : ℕ → Block} (h : Fetching disk lba w) :
  Fetching disk lba w.hlt
  := by
  obtain ⟨hdisk, hirq, henabled, hphase⟩ := h.passes (w.naps 0 + 1)
  exact ⟨hdisk, hirq, henabled, hphase⟩

/-- After the interrupt the block is there. -/
theorem ide_wait_irq_spec {disk : ℕ → Block} (h : ide_wait_irq n w = some w')
    (hw : Fetching disk lba w) :
  w'.drive.phase = .dataIn lba 1 0 (disk lba) ∧ w'.drive.disk = disk ∧ w'.drive.intrq = false ∧
    w'.drive.nIEN = false
  := by
  obtain ⟨u, hu, hset⟩ := Option.bind_eq_some_iff.mp h
  obtain rfl := Option.some.inj hset
  have hready : Fetching disk lba u ∧ u.drive.phase = .dataIn lba 1 0 (disk lba) := by
    apply Loop.Returns.invariant (I := Fetching disk lba) _ _ hw (Loop.Returns.of_iterate hu)
    · intro v v' hv hround
      simp only at hround
      split_ifs at hround
      obtain rfl := Sum.inl.inj hround
      apply hv.pass.hlt
    · intro v v' hv hround
      simp only at hround
      split_ifs at hround with hfired
      obtain rfl := Sum.inr.inj hround
      use hv.pass
      rcases hv.pass.phase with ⟨-, hzero⟩ | ⟨hphase, -⟩
      · apply absurd _ hfired
        rw [Machine.fired, hzero]
        rfl
      · exact hphase
  have hpass : u.pass = u := Machine.pass_of_still (by rw [hready.2]; rfl) hready.1.intrq
  rw [Machine.setFired, hpass]
  exact ⟨hready.2, hready.1.kept, hready.1.intrq, hready.1.nIEN⟩

/-- `k` accesses later a drive that is still fetching is `k` accesses closer to its end. -/
theorem remaining_passes (w : Machine) (j : ℕ) :
  (Machine.pass^[j] w).drive.remaining = w.drive.remaining - j
  := by
  induction j with
  | zero => rfl
  | succ j ih =>
      rw [Function.iterate_succ_apply', remaining_pass, ih]
      omega

theorem ide_wait_irq_returns {disk : ℕ → Block} (hw : Fetching disk lba w)
    (hn : w.drive.remaining < n) :
  ∃ w', ide_wait_irq n w = some w'
  := by
  obtain ⟨u, hu⟩ : ∃ u, Loop.iterate _ n w = some u := by
    apply Loop.iterate_of_measure (I := Fetching disk lba) (fun u : Machine => u.drive.remaining)
      (f := fun w : Machine =>
        let r := w.fired
        if r.1 == 0 then .inl r.2.hlt else .inr r.2) _ hw hn
    intro v v' hv hround
    simp only at hround
    split_ifs at hround with hfired
    obtain rfl := Sum.inl.inj hround
    use hv.pass.hlt
    have hpos : 0 < v.drive.remaining := by
      by_contra hzero
      have hidle : v.drive.phase.busy = false := by
        rw [Drive.remaining] at hzero
        split_ifs at hzero with hbusy
        · omega
        · simpa using hbusy
      have hpass : v.pass = v := Machine.pass_of_still hidle hv.intrq
      rw [Machine.fired, hpass] at hfired
      rcases hv.phase with ⟨hphase, -⟩ | ⟨-, hone⟩
      · rw [hphase] at hidle
        cases hidle
      · rw [hone] at hfired
        cases hfired
    have hrest : v.pass.hlt.drive.remaining = v.pass.drive.remaining - (v.pass.naps 0 + 1) :=
      remaining_passes v.pass _
    have hpass := remaining_pass v
    rw [Machine.fired]
    simp only
    omega
  use u.setFired 0
  rw [ide_wait_irq]
  simp only [hu]
  rfl

theorem inw_dataIn {i : ℕ} {block : Block} (hphase : w.drive.phase = .dataIn lba 1 i block)
    (hirq : w.drive.intrq = false) :
  w.inw ATA_PRIMARY_DATA = (block.bytes.load (2 * i) 2,
    { w with drive := { w.drive with
        phase := if i < 255 then .dataIn lba 1 (i + 1) block else .idle } })
  := by
  rw [Machine.inw, Machine.pass_of_still (by rw [hphase]; rfl) hirq, Drive.inw, hphase]
  simp only [ATA_PRIMARY_DATA, if_true, le_refl]
  split_ifs
  all_goals rfl

theorem store_word (m : Memory) (buffer i : ℕ) (f : Memory) :
  (m.copy buffer f (2 * i)).store (buffer + 2 * i) 2 (f.load (2 * i) 2) =
    m.copy buffer f (2 * (i + 1))
  := by
  funext x
  by_cases hx : x < buffer + 2 * i ∨ buffer + 2 * i + 2 ≤ x
  · rw [Memory.store_outside _ _ hx, Memory.copy, Memory.copy, Memory.splice, Memory.splice]
    split_ifs
    any_goals rfl
    all_goals omega
  · have hload : ((m.copy buffer f (2 * i)).store (buffer + 2 * i) 2 (f.load (2 * i) 2)).load
        (buffer + 2 * i) 2 = f.load (2 * i) 2 := by
      rw [Memory.load_store, Nat.mod_eq_of_lt (Memory.load_lt f _ _)]
    have hbyte := Memory.load_eq_iff.mp hload (x - (buffer + 2 * i)) (by omega)
    rw [show buffer + 2 * i + (x - (buffer + 2 * i)) = x by omega] at hbyte
    rw [hbyte, Memory.copy, Memory.splice, if_pos (by omega)]
    congr 1
    omega

/-- The words come in, and the drive is at rest after the last one. -/
theorem read_words {disk : ℕ → Block} {block : Block} (m : Memory) (buffer : ℕ)
    (hphase : w.drive.phase = .dataIn lba 1 0 block) (hdisk : w.drive.disk = disk)
    (hirq : w.drive.intrq = false) (henabled : w.drive.nIEN = false) :
  let r := (List.range 256).foldl (ide_read_sector.word buffer) (m, w)
  r.1 = m.copy buffer block.bytes 512 ∧ Quiet r.2 ∧ r.2.drive.disk = disk
  := by
  let I := fun (i : ℕ) (s : Memory × Machine) => s.1 = m.copy buffer block.bytes (2 * i) ∧
    s.2.drive.phase = (if i < 256 then .dataIn lba 1 i block else .idle) ∧
    s.2.drive.disk = disk ∧ s.2.drive.intrq = false ∧ s.2.drive.nIEN = false
  have hall : I 256 ((List.range 256).foldl (ide_read_sector.word buffer) (m, w)) := by
    apply Loop.foldl_range
    · refine ⟨?_, hphase, hdisk, hirq, henabled⟩
      funext x
      exact (Memory.splice_outside m _ (by omega)).symm
    · rintro i hi ⟨m', u⟩ ⟨hmem, hphase, hdisk, hirq, henabled⟩
      simp only at hmem hphase hdisk hirq henabled
      rw [if_pos hi] at hphase
      rw [ide_read_sector.word, inw_dataIn hphase hirq]
      refine ⟨?_, ?_, hdisk, hirq, henabled⟩
      · simp only
        rw [hmem, store_word]
      · simp only
        split_ifs
        any_goals rfl
        all_goals omega
  obtain ⟨hmem, hphase, hdisk, hirq, henabled⟩ := hall
  exact ⟨hmem, ⟨hphase, hirq, henabled⟩, hdisk⟩

/-- A sector read is the block at the address, in the buffer and nowhere else. -/
theorem ide_read_sector_spec {m m' : Memory} {buffer : ℕ}
    (h : ide_read_sector n w m lba buffer = some (m', w')) (hw : Ready w) :
  m' = m.copy buffer (w.drive.disk (lba % 2 ^ 28)).bytes 512 ∧ Quiet w' ∧
    w'.drive.disk = w.drive.disk
  := by
  obtain ⟨u, hreset, h⟩ := Option.bind_eq_some_iff.mp h
  obtain ⟨v, hirq, h⟩ := Option.bind_eq_some_iff.mp h
  obtain ⟨hquiet, hdisk⟩ := reset_spec hreset hw
  obtain ⟨hselected, hdisk'⟩ := select_spec hquiet lba
  rw [ ATA_CMD_READ_PIO, hselected.command (Or.inl ⟨rfl, rfl⟩)] at hirq
  have hdisks := hdisk'.trans hdisk
  obtain ⟨hphase, hkept, hintrq, henabled⟩ := ide_wait_irq_spec hirq
    ⟨hdisks, rfl, hselected.nIEN, Or.inl ⟨rfl, rfl⟩⟩
  obtain ⟨hmem, hquiet', hdisk''⟩ := read_words m buffer hphase hkept hintrq henabled
  rw [Option.some.inj h] at hmem hquiet' hdisk''
  exact ⟨hmem, hquiet', hdisk''⟩

/-! ### Writing -/

/-- The drive is making room for the block that goes to `lba`, or requests it. -/
structure Preparing (disk : ℕ → Block) (lba : ℕ) (w : Machine) : Prop where
  kept : w.drive.disk = disk
  intrq : w.drive.intrq = false
  nIEN : w.drive.nIEN = false
  phase : w.drive.phase = .preparing lba 1 ∨ w.drive.phase = .dataOut lba 1 0 fun _ => 0

theorem Preparing.pass {disk : ℕ → Block} (h : Preparing disk lba w) :
  Preparing disk lba w.pass
  := by
  rcases h.phase with hphase | hphase
  · by_cases hwait : w.drive.wait = 0
    · rw [Machine.pass_of_done (by rw [hphase]; rfl) hwait, Drive.finish, hphase]
      simp only [h.intrq, Bool.false_and, Bool.false_eq_true, if_false]
      exact ⟨h.kept, rfl, h.nIEN, Or.inr rfl⟩
    · rw [Machine.pass_of_wait (by rw [hphase]; rfl) h.intrq hwait]
      exact ⟨h.kept, h.intrq, h.nIEN, Or.inl hphase⟩
  · rwa [Machine.pass_of_still (by rw [hphase]; rfl) h.intrq]

theorem outw_dataOut {i : ℕ} {block : Memory} (hphase : w.drive.phase = .dataOut lba 1 i block)
    (hirq : w.drive.intrq = false) (v : ℕ) :
  w.outw ATA_PRIMARY_DATA v =
    if i < 255 then
      { w with drive := { w.drive with phase := .dataOut lba 1 (i + 1) (block.store (2 * i) 2 v) } }
    else { w with drive := w.drive.start (.writing lba 1 fun j => block.store (2 * i) 2 v j) }
  := by
  rw [Machine.outw, Machine.pass_of_still (by rw [hphase]; rfl) hirq, Drive.outw, hphase]
  simp only [ATA_PRIMARY_DATA, if_true]
  split_ifs
  all_goals rfl

/-- The drive has got the block that goes to `lba`: it is writing it, or it has written it and may
be busy with another command. -/
structure Committing (disk : ℕ → Block) (lba : ℕ) (block : Block) (w : Machine) : Prop where
  nIEN : w.drive.nIEN = false
  phase : w.drive.phase = .writing lba 1 block ∧ w.drive.disk = disk ∧ w.drive.intrq = false ∨
    Ready w ∧ w.drive.disk = Function.update disk lba block

theorem Committing.pass {disk : ℕ → Block} {block : Block} (h : Committing disk lba block w) :
  Committing disk lba block w.pass
  := by
  rcases h.phase with ⟨hphase, hdisk, hirq⟩ | ⟨hready, hdisk⟩
  · by_cases hwait : w.drive.wait = 0
    · rw [Machine.pass_of_done (by rw [hphase]; rfl) hwait, Drive.finish, hphase]
      simp only [h.nIEN, Bool.not_false, Bool.and_self, if_true, Machine.ide_handler_eq]
      exact ⟨rfl, Or.inr ⟨Or.inl rfl, by rw [hdisk]⟩⟩
    · rw [Machine.pass_of_wait (by rw [hphase]; rfl) hirq hwait]
      exact ⟨h.nIEN, Or.inl ⟨hphase, hdisk, hirq⟩⟩
  · obtain ⟨hready', hdisk', henabled⟩ := hready.pass
    exact ⟨henabled.trans h.nIEN, Or.inr ⟨hready', hdisk'.trans hdisk⟩⟩

/-- A command that comes while the block is being written changes nothing. -/
theorem Committing.flush {disk : ℕ → Block} {block : Block} (h : Committing disk lba block w) :
  Committing disk lba block (w.outb ATA_PRIMARY_COMM_STAT 0xE7)
  := by
  obtain ⟨henabled, hphase⟩ := h.pass
  rw [Machine.outb]
  rcases hphase with ⟨hphase, hdisk, hirq⟩ | ⟨hidle | hworking, hdisk⟩
  · have houtb : w.pass.drive.outb ATA_PRIMARY_COMM_STAT 0xE7 = w.pass.drive := by
      simp [Drive.outb, ATA_PRIMARY_COMM_STAT, hphase, Phase.busy]
    rw [houtb]
    exact ⟨henabled, Or.inl ⟨hphase, hdisk, hirq⟩⟩
  · rw [outb_command hidle, Drive.command]
    simp only [show ¬ ((0xE7 : Byte) = 0x20) by decide, show ¬ ((0xE7 : Byte) = 0x30) by decide,
      false_and, if_false]
    split_ifs
    · exact ⟨henabled, Or.inr ⟨Or.inl hidle, hdisk⟩⟩
    · exact ⟨henabled, Or.inr ⟨Or.inr rfl, hdisk⟩⟩
  · have houtb : w.pass.drive.outb ATA_PRIMARY_COMM_STAT 0xE7 = w.pass.drive := by
      simp [Drive.outb, ATA_PRIMARY_COMM_STAT, hworking, Phase.busy]
    rw [houtb]
    exact ⟨henabled, Or.inr ⟨Or.inr hworking, hdisk⟩⟩

/-- The words go out, and the drive begins to write after the last one. -/
theorem write_words {disk : ℕ → Block} (m : Memory) (buffer : ℕ)
    (hphase : w.drive.phase = .dataOut lba 1 0 fun _ => 0) (hdisk : w.drive.disk = disk)
    (hirq : w.drive.intrq = false) (henabled : w.drive.nIEN = false) :
  Committing disk lba (fun i => m (buffer + i))
    ((List.range 256).foldl (ide_write_sector.word m buffer) w)
  := by
  let I := fun (i : ℕ) (u : Machine) => u.drive.disk = disk ∧ u.drive.intrq = false ∧
    u.drive.nIEN = false ∧ u.drive.phase = (if i < 256 then
      .dataOut lba 1 i (Memory.copy (fun _ => 0) 0 (m.drop buffer) (2 * i))
    else .writing lba 1 fun i => m (buffer + i))
  have hall : I 256 ((List.range 256).foldl (ide_write_sector.word m buffer) w) := by
    apply Loop.foldl_range
    · refine ⟨hdisk, hirq, henabled, ?_⟩
      rw [hphase, if_pos (by decide)]
      rfl
    · rintro i hi u ⟨hdisk, hirq, henabled, hphase⟩
      rw [if_pos hi] at hphase
      have hword : m.load (buffer + 2 * i) 2 = (m.drop buffer).load (2 * i) 2 := by
        apply Memory.load_congr
        intro j _
        rw [Memory.drop, Nat.add_assoc]
      have hstore := store_word (fun _ => 0) 0 i (m.drop buffer)
      rw [Nat.zero_add] at hstore
      rw [ide_write_sector.word, outw_dataOut hphase hirq, hword, hstore]
      by_cases hlast : i < 255
      · rw [if_pos hlast]
        refine ⟨hdisk, hirq, henabled, ?_⟩
        rw [if_pos (by omega)]
      · rw [if_neg hlast]
        refine ⟨hdisk, hirq, henabled, ?_⟩
        rw [if_neg (by omega), Drive.start]
        simp only
        congr 1
        funext j
        rw [Memory.copy, Memory.splice, if_pos (by omega)]
        rfl
  obtain ⟨hdisk, hirq, henabled, hphase⟩ := hall
  exact ⟨henabled, Or.inl ⟨hphase, hdisk, hirq⟩⟩

/-- When a sector has been written the drive holds the 512 bytes of the buffer at the address. -/
theorem ide_write_sector_spec {m : Memory} {buffer : ℕ}
    (h : ide_write_sector n w m lba buffer = some w') (hw : Ready w) :
  Ready w' ∧ w'.drive.disk =
    Function.update w.drive.disk (lba % 2 ^ 28) fun i => m (buffer + i)
  := by
  obtain ⟨u, hreset, h⟩ := Option.bind_eq_some_iff.mp h
  obtain ⟨v, hready, h⟩ := Option.bind_eq_some_iff.mp h
  obtain ⟨hquiet, hdisk⟩ := reset_spec hreset hw
  obtain ⟨hselected, hdisk'⟩ := select_spec hquiet lba
  rw [hselected.command (Or.inr ⟨rfl, rfl⟩)] at hready
  obtain ⟨hprepared, hbusy, hintrq⟩ :=
    ide_wait_bsy_spec (I := Preparing w.drive.disk (lba % 2 ^ 28)) hready (by
      intro x hx
      obtain ⟨hkept, -, henabled, hphase⟩ := hx.pass
      exact ⟨hkept, rfl, henabled, hphase⟩)
      ⟨hdisk'.trans hdisk, rfl, hselected.nIEN, Or.inl rfl⟩
  have hphase := hprepared.phase.resolve_left (by
    intro hphase
    rw [hphase] at hbusy
    cases hbusy)
  have hcommitting := write_words m buffer hphase hprepared.kept hintrq hprepared.nIEN
  obtain ⟨hdone, hbusy', -⟩ := ide_wait_bsy_spec (I := Committing w.drive.disk (lba % 2 ^ 28) _) h (by
    intro x hx
    obtain ⟨henabled, hphase⟩ := hx.pass
    rw [inb_status]
    refine ⟨henabled, ?_⟩
    rcases hphase with ⟨hphase, hdisk, -⟩ | hdone
    · exact Or.inl ⟨hphase, hdisk, rfl⟩
    · exact Or.inr hdone) hcommitting.flush
  apply hdone.phase.resolve_left
  rintro ⟨hphase, -⟩
  rw [hphase] at hbusy'
  cases hbusy'

/-! ### Transfers end -/

variable {k : ℕ∞} {m : Memory} {buffer : ℕ}

theorem Prompt.setFired (h : Prompt k w.drive) (v : Byte) :
  Prompt k (w.setFired v).drive
  := h.pass

theorem Prompt.hlt (h : Prompt k w.drive) :
  Prompt k w.hlt.drive
  := by
  have hpasses : ∀ j, Prompt k (Machine.pass^[j] w).drive := by
    intro j
    induction j with
    | zero => exact h
    | succ j ih =>
        rw [Function.iterate_succ_apply']
        apply ih.pass
  apply hpasses (w.naps 0 + 1)

theorem Prompt.select (h : Prompt k w.drive) (lba : ℕ) :
  Prompt k (select w lba).drive
  := ((((h.outb _ _).outb _ _).outb _ _).outb _ _).outb _ _

theorem Prompt.wait_bsy (h : Prompt k w.drive) (hwait : ide_wait_bsy n w = some w') :
  Prompt k w'.drive
  := (ide_wait_bsy_spec (I := fun u => Prompt k u.drive) hwait (fun _ hu => hu.inb _) h).1

theorem Prompt.wait_irq (h : Prompt k w.drive) (hwait : ide_wait_irq n w = some w') :
  Prompt k w'.drive
  := by
  obtain ⟨u, hu, hset⟩ := Option.bind_eq_some_iff.mp hwait
  obtain rfl := Option.some.inj hset
  apply Prompt.setFired
  apply Loop.Returns.invariant (I := fun u : Machine => Prompt k u.drive) _ _ h
    (Loop.Returns.of_iterate hu)
  · intro v v' hv hround
    simp only at hround
    split_ifs at hround
    obtain rfl := Sum.inl.inj hround
    apply hv.pass.hlt
  · intro v v' hv hround
    simp only at hround
    split_ifs at hround
    obtain rfl := Sum.inr.inj hround
    apply hv.pass

/-- A drive that is prompt stays so. -/
theorem Prompt.read_sector {m' : Memory} (h : Prompt k w.drive)
    (hread : ide_read_sector n w m lba buffer = some (m', w')) :
  Prompt k w'.drive
  := by
  obtain ⟨u, hreset, hread⟩ := Option.bind_eq_some_iff.mp hread
  obtain ⟨v, hirq, hread⟩ := Option.bind_eq_some_iff.mp hread
  have hu := (h.outb _ _).wait_bsy hreset
  have hv := (((hu.select lba).setFired _).outb _ _).wait_irq hirq
  have hwords : Prompt k
      ((List.range 256).foldl (ide_read_sector.word buffer) (m, v)).2.drive := by
    apply Loop.foldl_range (I := fun _ (s : Memory × Machine) => Prompt k s.2.drive) hv
    intro i _ s hs
    apply hs.inw
  rwa [Option.some.inj hread] at hwords

@[inherit_doc Prompt.read_sector]
theorem Prompt.write_sector (h : Prompt k w.drive)
    (hwrite : ide_write_sector n w m lba buffer = some w') :
  Prompt k w'.drive
  := by
  obtain ⟨u, hreset, hwrite⟩ := Option.bind_eq_some_iff.mp hwrite
  obtain ⟨v, hready, hwrite⟩ := Option.bind_eq_some_iff.mp hwrite
  have hu := (h.outb _ _).wait_bsy hreset
  have hv := (((hu.select lba).setFired _).outb _ _).wait_bsy hready
  have hwords : Prompt k
      ((List.range 256).foldl (ide_write_sector.word m buffer) v).drive := by
    apply Loop.foldl_range (I := fun _ (u : Machine) => Prompt k u.drive) hv
    intro i _ u hu
    apply hu.outw
  exact (hwords.outb _ _).wait_bsy hwrite

/-- A driver that waits long enough reads. -/
theorem ide_read_sector_returns (m : Memory) (lba buffer : ℕ) (hw : Ready w)
    (hk : Prompt k w.drive) (hn : k + 2 ≤ n) :
  ∃ m' w', ide_read_sector n w m lba buffer = some (m', w')
  := by
  have hprompt := hk.outb 0x3F6 0x00
  obtain ⟨u, hreset⟩ := ide_wait_bsy_returns (hprompt.remaining_lt hn)
  obtain ⟨hquiet, hdisk⟩ := reset_spec hreset hw
  obtain ⟨hselected, hdisk'⟩ := select_spec hquiet lba
  have hcommand := hselected.command (Or.inl ⟨rfl, rfl⟩)
  have hprompt' := ((((hprompt.wait_bsy hreset).select lba).setFired 0).outb
    ATA_PRIMARY_COMM_STAT 0x20).remaining_lt hn
  have hfetching : Fetching w.drive.disk (lba % 2 ^ 28)
      (((select u lba).setFired 0).outb ATA_PRIMARY_COMM_STAT ATA_CMD_READ_PIO) := by
    rw [ ATA_CMD_READ_PIO, hcommand]
    exact ⟨hdisk'.trans hdisk, rfl, hselected.nIEN, Or.inl ⟨rfl, rfl⟩⟩
  obtain ⟨v, hirq⟩ := ide_wait_irq_returns hfetching hprompt'
  use ((List.range 256).foldl (ide_read_sector.word buffer) (m, v)).1,
    ((List.range 256).foldl (ide_read_sector.word buffer) (m, v)).2
  rw [ide_read_sector]
  simp only [hreset, hirq, Option.bind_eq_bind, Option.bind_some, Option.pure_def, Prod.mk.eta]

/-- A driver that waits long enough writes. -/
theorem ide_write_sector_returns (m : Memory) (lba buffer : ℕ) (hk : Prompt k w.drive)
    (hn : k + 2 ≤ n) :
  ∃ w', ide_write_sector n w m lba buffer = some w'
  := by
  have hprompt := hk.outb 0x3F6 0x00
  obtain ⟨u, hreset⟩ := ide_wait_bsy_returns (hprompt.remaining_lt hn)
  have hprompt' := (((hprompt.wait_bsy hreset).select lba).setFired 0).outb
    ATA_PRIMARY_COMM_STAT 0x30
  obtain ⟨v, hready⟩ := ide_wait_bsy_returns (hprompt'.remaining_lt hn)
  have hwords : Prompt k
      ((List.range 256).foldl (ide_write_sector.word m buffer) v).drive := by
    apply Loop.foldl_range (I := fun _ (u : Machine) => Prompt k u.drive)
      (hprompt'.wait_bsy hready)
    intro i _ u hu
    apply hu.outw
  obtain ⟨w', hdone⟩ := ide_wait_bsy_returns
    ((hwords.outb ATA_PRIMARY_COMM_STAT 0xE7).remaining_lt hn)
  use w'
  rw [ide_write_sector]
  simp only [hreset, hready, Option.bind_eq_bind, Option.bind_some]
  rw [hdone]

end

end Ide
