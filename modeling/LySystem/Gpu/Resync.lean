import LySystem.Gpu.Mouse

/-!
# Stray bytes

`mouse_handler` looks at bit 3 of the first byte only when it has three bytes, and throws all three
away when the bit is off.  Groups of three follow groups of three, so a stray byte shifts the
packets for good.
-/

namespace Mouse

open Boot

variable {fb : framebuffer_info} {s : State} {ports : ℕ → Byte × Byte} {stray n : ℕ}

/-- The state before the byte `n` of a stream. -/
def before (fb : framebuffer_info) (s : State) (ports : ℕ → Byte × Byte) : ℕ → State
  | 0 => s
  | n + 1 => mouse_handler fb (before fb s ports n) (ports n)

/-- The three bytes the handler has when this byte is the last of them. -/
def group (s : State) (ports : Byte × Byte) : Option (ℕ → Byte) :=
  if ports.1 &&& 0x20 = 0 then none
  else if (s.mouse_cycle + 1) % 2 ^ 8 < 3 then none
  else some (Function.update s.mouse_packet s.mouse_cycle ports.2)

/-- The bytes are taken for a packet when bit 3 of the first is on. -/
def assembled (s : State) (ports : Byte × Byte) : Option (ℕ → Byte) :=
  (group s ports).filter fun bytes => bytes 0 &&& 0x08 ≠ 0

/-- The bytes are thrown away. -/
def discards (s : State) (ports : Byte × Byte) : Bool :=
  (group s ports).any fun bytes => bytes 0 &&& 0x08 = 0

/-- A group is assembled and moves the cursor, or it is thrown away, which moves nothing. -/
theorem handler_group (fb : framebuffer_info) {ports : Byte × Byte} {bytes : ℕ → Byte}
    (h : group s ports = some bytes) :
  (assembled s ports = some bytes ∧ mouse_handler fb s ports =
    cover fb (move (uncover fb { s with
      mouse_packet := bytes, mouse_cycle := (s.mouse_cycle + 1) % 2 ^ 8 })
      (bytes 1).toInt (-(bytes 2).toInt))) ∨
    discards s ports ∧ mouse_handler fb s ports =
      { s with mouse_packet := bytes, mouse_cycle := 0 }
  := by
  rw [assembled, discards, h]
  rw [group] at h
  split_ifs at h with hstatus hcycle
  obtain rfl := Option.some.inj h
  by_cases hbit : Function.update s.mouse_packet s.mouse_cycle ports.2 0 &&& 0x08 = 0
  · right
    refine ⟨decide_eq_true hbit, ?_⟩
    rw [mouse_handler, if_neg hstatus]
    dsimp only
    rw [if_neg hcycle, packet, if_pos hbit]
  · left
    refine ⟨by rw [Option.filter_some, if_pos (decide_eq_true hbit)], ?_⟩
    rw [mouse_handler, if_neg hstatus]
    dsimp only
    rw [if_neg hcycle, packet, if_neg hbit]

/-- One or two stray bytes, and then packets of which only the first byte has bit 3. -/
structure Strayed (stray : ℕ) (ports : ℕ → Byte × Byte) : Prop where
  stray_eq : stray = 1 ∨ stray = 2
  mouse : ∀ i, (ports i).1 &&& 0x20 ≠ 0
  first : ∀ j, (ports (stray + 3 * j)).2 &&& 0x08 ≠ 0
  second : ∀ j, (ports (stray + 3 * j + 1)).2 &&& 0x08 = 0
  third : ∀ j, (ports (stray + 3 * j + 2)).2 &&& 0x08 = 0

/-- After two discarded groups at most, each packet is assembled from its own bytes. -/
def Recovers (fb : framebuffer_info) (s : State) (stray : ℕ) (ports : ℕ → Byte × Byte) : Prop :=
  ∃ n, ((List.range n).countP fun i => discards (before fb s ports i) (ports i)) ≤ 2 ∧
    ∀ j, n ≤ stray + 3 * j →
      ∃ bytes, assembled (before fb s ports (stray + 3 * j + 2)) (ports (stray + 3 * j + 2)) =
        some bytes ∧ ∀ i < 3, bytes i = (ports (stray + 3 * j + i)).2

/-! ### Groups of three -/

/-- What the handler has of the group it is in the middle of. -/
structure Grouping (ports : ℕ → Byte × Byte) (n : ℕ) (s : State) : Prop where
  cycle_eq : s.mouse_cycle = n % 3
  bytes_eq : ∀ i < n % 3, s.mouse_packet i = (ports (n - n % 3 + i)).2

theorem Grouping.step (hmouse : (ports n).1 &&& 0x20 ≠ 0) (h : Grouping ports n s) :
  Grouping ports (n + 1) (mouse_handler fb s (ports n))
  := by
  have hcycle := h.cycle_eq
  by_cases hlast : n % 3 = 2
  · -- The group is complete, whatever becomes of it.
    have hgroup : group s (ports n) =
        some (Function.update s.mouse_packet s.mouse_cycle (ports n).2) := by
      rw [group, if_neg hmouse, if_neg (by omega)]
    have hzero : (mouse_handler fb s (ports n)).mouse_cycle = 0 := by
      rcases handler_group fb hgroup with ⟨-, heq⟩ | ⟨-, heq⟩
      · rw [heq]
        rfl
      · rw [heq]
    constructor
    · rw [hzero]
      omega
    · intro i hi
      omega
  · have hstep : mouse_handler fb s (ports n) =
        { s with
          mouse_packet := Function.update s.mouse_packet s.mouse_cycle (ports n).2
          mouse_cycle := (s.mouse_cycle + 1) % 2 ^ 8 } := by
      rw [mouse_handler, if_neg hmouse]
      exact if_pos (show (s.mouse_cycle + 1) % 2 ^ 8 < 3 by omega)
    rw [hstep]
    constructor
    · change (s.mouse_cycle + 1) % 2 ^ 8 = (n + 1) % 3
      omega
    · intro i hi
      change Function.update s.mouse_packet s.mouse_cycle (ports n).2 i = _
      by_cases hnew : i = s.mouse_cycle
      · rw [hnew, Function.update_self, hcycle]
        congr 2
        omega
      · rw [Function.update_of_ne hnew, h.bytes_eq i (by omega)]
        congr 2
        omega

theorem grouping_before (fb : framebuffer_info) (hmouse : ∀ i, (ports i).1 &&& 0x20 ≠ 0)
    (hs : s.mouse_cycle = 0) (n : ℕ) :
  Grouping ports n (before fb s ports n)
  := by
  induction n with
  | zero =>
      constructor
      · exact hs
      · intro i hi
        omega
  | succ n ih => exact ih.step (hmouse n)

/-- The group a byte completes is the three bytes up to it. -/
theorem Grouping.group_eq (h : Grouping ports n s) (hmouse : (ports n).1 &&& 0x20 ≠ 0)
    {bytes : ℕ → Byte} (hgroup : group s (ports n) = some bytes) :
  n % 3 = 2 ∧ ∀ i < 3, bytes i = (ports (n - 2 + i)).2
  := by
  have hcycle := h.cycle_eq
  rw [group, if_neg hmouse] at hgroup
  split_ifs at hgroup with hlt
  obtain rfl := Option.some.inj hgroup
  have hlast : n % 3 = 2 := by omega
  use hlast
  intro i hi
  by_cases hnew : i = 2
  · rw [hnew, hcycle, hlast, Function.update_self]
    congr 2
    omega
  · rw [Function.update_of_ne (by omega), h.bytes_eq i (by omega), hlast]

/-- Without stray bytes each packet is assembled from its own bytes. -/
theorem assembled_aligned (hmouse : ∀ i, (ports i).1 &&& 0x20 ≠ 0) (hs : s.mouse_cycle = 0)
    (hfirst : ∀ j, (ports (3 * j)).2 &&& 0x08 ≠ 0) (j : ℕ) :
  ∃ bytes, assembled (before fb s ports (3 * j + 2)) (ports (3 * j + 2)) = some bytes ∧
    ∀ i < 3, bytes i = (ports (3 * j + i)).2
  := by
  have hgrouping := grouping_before fb hmouse hs (3 * j + 2)
  have hcycle := hgrouping.cycle_eq
  obtain ⟨bytes, hgroup⟩ : ∃ bytes,
      group (before fb s ports (3 * j + 2)) (ports (3 * j + 2)) = some bytes := by
    rw [group, if_neg (hmouse _), if_neg (by omega)]
    exact ⟨_, rfl⟩
  have hbytes := (hgrouping.group_eq (hmouse _) hgroup).2
  have hbit : bytes 0 &&& 0x08 ≠ 0 := by
    rw [hbytes 0 (by decide)]
    exact hfirst j
  refine ⟨bytes, ?_, hbytes⟩
  rw [assembled, hgroup, Option.filter_some, if_pos (decide_eq_true hbit)]

/-! ### The mouse is lost -/

/-- With the last byte of a packet no group is complete. -/
theorem Strayed.group_none (h : Strayed stray ports) (hs : s.mouse_cycle = 0) (j : ℕ) :
  group (before fb s ports (stray + 3 * j + 2)) (ports (stray + 3 * j + 2)) = none
  := by
  cases hgroup : group (before fb s ports (stray + 3 * j + 2)) (ports (stray + 3 * j + 2)) with
  | none => rfl
  | some bytes =>
      have hlast := ((grouping_before fb h.mouse hs _).group_eq (h.mouse _) hgroup).1
      exfalso
      rcases h.stray_eq with rfl | rfl <;> omega

/-- After the first group the cursor stays where it is. -/
theorem cursor_frozen (hs : s.mouse_cycle = 0) (h : Strayed stray ports) (hn : 3 ≤ n) :
  let t := before fb s ports n
  let t₃ := before fb s ports 3
  t.mem = t₃.mem ∧ t.mouse_x = t₃.mouse_x ∧ t.mouse_y = t₃.mouse_y
  := by
  induction n, hn using Nat.le_induction with
  | base => exact ⟨rfl, rfl, rfl⟩
  | succ n hn ih =>
      have hgrouping := grouping_before fb h.mouse hs n
      have hkept : (before fb s ports (n + 1)).mem = (before fb s ports n).mem ∧
          (before fb s ports (n + 1)).mouse_x = (before fb s ports n).mouse_x ∧
          (before fb s ports (n + 1)).mouse_y = (before fb s ports n).mouse_y := by
        rw [before]
        generalize before fb s ports n = t at hgrouping
        cases hgroup : group t (ports n) with
        | none =>
            rw [group, if_neg (h.mouse n)] at hgroup
            split_ifs at hgroup with hcycle
            rw [mouse_handler, if_neg (h.mouse n)]
            dsimp only
            rw [if_pos hcycle]
            exact ⟨rfl, rfl, rfl⟩
        | some bytes =>
            obtain ⟨hlast, hbytes⟩ := hgrouping.group_eq (h.mouse n) hgroup
            -- The group begins with the second or the third byte of a packet.
            have hbit : bytes 0 &&& 0x08 = 0 := by
              rw [hbytes 0 (by decide)]
              rcases h.stray_eq with rfl | rfl
              · rw [show n - 2 + 0 = 1 + 3 * ((n - 5) / 3) + 2 by omega]
                apply h.third
              · rw [show n - 2 + 0 = 2 + 3 * ((n - 5) / 3) + 1 by omega]
                apply h.second
            rcases handler_group fb hgroup with ⟨hassembled, -⟩ | ⟨-, heq⟩
            · exact absurd hbit (of_decide_eq_true (Option.filter_eq_some_iff.mp hassembled).2)
            · rw [heq]
              exact ⟨rfl, rfl, rfl⟩
      obtain ⟨hmem, hx, hy⟩ := hkept
      obtain ⟨hmem', hx', hy'⟩ := ih
      exact ⟨hmem.trans hmem', hx.trans hx', hy.trans hy'⟩

/-- After one or two stray bytes no packet is ever assembled from its own bytes. -/
theorem mouse_lost (hs : s.mouse_cycle = 0) (h : Strayed stray ports) :
  ¬ Recovers fb s stray ports
  := by
  rintro ⟨n, -, hall⟩
  obtain ⟨bytes, hassembled, -⟩ := hall n (by omega)
  rw [assembled, h.group_none hs] at hassembled
  cases hassembled

/-! ### One stray byte -/

/-- A stray byte, and packets that move the cursor by one pixel. -/
def drifting (i : ℕ) : Byte × Byte := (0x20, if i % 3 = 1 then 0x08 else 1)

theorem drifting_strayed :
  Strayed 1 drifting
  := by
  constructor
  · left
    rfl
  · intro i
    exact (by decide : ¬ (0x20 &&& 0x20 : Byte) = 0)
  · intro j
    rw [drifting, if_pos (by omega)]
    decide
  · intro j
    rw [drifting, if_neg (by omega)]
    decide
  · intro j
    rw [drifting, if_neg (by omega)]
    decide

theorem mouse_lost_drifting :
  ¬ Recovers vga (start fun _ => 0) 1 drifting
  := mouse_lost rfl drifting_strayed

/-- The handler does not find the packets again. -/
theorem resync_fails :
  ¬ ∀ (fb : framebuffer_info) (s : State) (stray : ℕ) (ports : ℕ → Byte × Byte),
    s.mouse_cycle = 0 → Strayed stray ports → Recovers fb s stray ports
  := by
  intro h
  obtain ⟨n, -, hall⟩ := h vga (start fun _ => 0) 1 drifting rfl drifting_strayed
  obtain ⟨bytes, hassembled, -⟩ := hall n (by omega)
  rw [assembled, drifting_strayed.group_none rfl] at hassembled
  cases hassembled

end Mouse
