import LySystem.Gpu.Screen
import LySystem.Machine.Overlay

/-!
# The mouse cursor

`mouse_handler` of `kernel/IRQ/traps.c`: three bytes make a packet, and each packet puts back
what the cursor covered, moves it, saves what it will cover and draws it.
-/

namespace Mouse

open Boot Screen

/-! ### The handler -/

def WIDTH_SCREEN : ℤ := 1024

def HEIGHT_SCREEN : ℤ := 768

def MOUSE_W : ℕ := 11

def MOUSE_H : ℕ := 18

def mouse_cursor_shape : List ℕ := [
  1,0,0,0,0,0,0,0,0,0,0,
  1,1,0,0,0,0,0,0,0,0,0,
  1,2,1,0,0,0,0,0,0,0,0,
  1,2,2,1,0,0,0,0,0,0,0,
  1,2,2,2,1,0,0,0,0,0,0,
  1,2,2,2,2,1,0,0,0,0,0,
  1,2,2,2,2,2,1,0,0,0,0,
  1,2,2,2,2,2,2,1,0,0,0,
  1,2,2,2,2,2,2,2,1,0,0,
  1,2,2,2,2,2,2,2,2,1,0,
  1,2,2,2,2,2,1,1,1,1,1,
  1,2,2,1,2,2,1,0,0,0,0,
  1,2,1,0,1,2,2,1,0,0,0,
  1,1,0,0,1,2,2,1,0,0,0,
  0,0,0,0,0,1,2,2,1,0,0,
  0,0,0,0,0,1,2,2,1,0,0,
  0,0,0,0,0,0,1,1,0,0,0,
  0,0,0,0,0,0,0,0,0,0,0]

/-- The variables of the handler, and the memory the framebuffer is in. -/
structure State where
  mem : Memory
  mouse_cycle : ℕ
  mouse_packet : ℕ → Byte
  mouse_x : ℤ
  mouse_y : ℤ
  mouse_initialized : Bool
  mouse_bg_buffer : ℕ → ℕ

/-- The loops over `x` inside the loop over `y`, with the body `f`. -/
def eachCell {σ : Type*} (f : σ → ℕ × ℕ → σ) (s : σ) : σ :=
  (List.range MOUSE_H).foldl (fun s y => (List.range MOUSE_W).foldl (fun s x => f s (x, y)) s) s

/-- `(mouse_x + x) < WIDTH_SCREEN && (mouse_y + y) < HEIGHT_SCREEN`. -/
def Visible (mouse_x mouse_y : ℤ) (c : ℕ × ℕ) : Prop :=
  mouse_x + c.1 < WIDTH_SCREEN ∧ mouse_y + c.2 < HEIGHT_SCREEN

instance (mouse_x mouse_y : ℤ) (c : ℕ × ℕ) : Decidable (Visible mouse_x mouse_y c) :=
  inferInstanceAs (Decidable (_ ∧ _))

/-- A pixel of the cursor; the coordinates are converted to `uint32_t`. -/
def put (fb : framebuffer_info) (mouse_x mouse_y : ℤ) (m : Memory) (c : ℕ × ℕ) (color : ℕ) : Memory :=
  put_pixel fb m ((mouse_x + c.1) % 2 ^ 32).toNat ((mouse_y + c.2) % 2 ^ 32).toNat color

@[inherit_doc put]
def get (fb : framebuffer_info) (mouse_x mouse_y : ℤ) (m : Memory) (c : ℕ × ℕ) : ℕ :=
  get_pixel fb m ((mouse_x + c.1) % 2 ^ 32).toNat ((mouse_y + c.2) % 2 ^ 32).toNat

/-- The place of a cell in `mouse_bg_buffer` and `mouse_cursor_shape`. -/
def index (c : ℕ × ℕ) : ℕ := c.2 * MOUSE_W + c.1

/-- The loops that put `mouse_bg_buffer` back. -/
def putBack (fb : framebuffer_info) (s : State) : Memory :=
  eachCell (fun m c =>
    if Visible s.mouse_x s.mouse_y c then
      put fb s.mouse_x s.mouse_y m c (s.mouse_bg_buffer (index c))
    else m) s.mem

/-- The loops that fill `mouse_bg_buffer`. -/
def save (fb : framebuffer_info) (s : State) : ℕ → ℕ :=
  eachCell (fun bg c =>
    if Visible s.mouse_x s.mouse_y c then
      Function.update bg (index c) (get fb s.mouse_x s.mouse_y s.mem c)
    else bg) s.mouse_bg_buffer

/-- The loops that draw the cursor. -/
def draw (fb : framebuffer_info) (s : State) : Memory :=
  eachCell (fun m c =>
    if ¬ Visible s.mouse_x s.mouse_y c then m
    else
      let type := mouse_cursor_shape.getD (index c) 0
      if type = 1 then put fb s.mouse_x s.mouse_y m c 0x000000
      else if type = 2 then put fb s.mouse_x s.mouse_y m c 0xFFFFFF
      else m) s.mem

/-- A position that is negative becomes 0, and one that is too large the last one. -/
def clamp (size v : ℤ) : ℤ :=
  let v := if v < 0 then 0 else v
  if size - 1 ≤ v then size - 1 else v

/-- Takes the cursor away, if it was drawn before. -/
def uncover (fb : framebuffer_info) (s : State) : State :=
  { s with mem := if s.mouse_initialized then putBack fb s else s.mem }

def move (s : State) (dx dy : ℤ) : State :=
  { s with
    mouse_x := clamp WIDTH_SCREEN (s.mouse_x + dx)
    mouse_y := clamp HEIGHT_SCREEN (s.mouse_y + dy)
    mouse_cycle := 0 }

/-- The loops that save and draw. -/
def cover (fb : framebuffer_info) (s : State) : State :=
  let s := { s with mouse_bg_buffer := save fb s }
  let s := { s with mem := draw fb s }
  { s with mouse_initialized := true }

/-- The three bytes of a packet, once they are complete. -/
def packet (fb : framebuffer_info) (s : State) : State :=
  if s.mouse_packet 0 &&& 0x08 = 0 then { s with mouse_cycle := 0 }
  else
    let dx := (s.mouse_packet 1).toInt
    let dy := -(s.mouse_packet 2).toInt
    cover fb (move (uncover fb s) dx dy)

/-- The handler with what it reads from the ports 0x64 and 0x60. -/
def mouse_handler (fb : framebuffer_info) (s : State) (ports : Byte × Byte) : State :=
  let (status, data) := ports
  if status &&& 0x20 = 0 then s
  else
    let s := { s with
      mouse_packet := Function.update s.mouse_packet s.mouse_cycle data
      mouse_cycle := (s.mouse_cycle + 1) % 2 ^ 8 }
    if s.mouse_cycle < 3 then s
    else packet fb s

/-- The initial state, with a memory. -/
def start (m : Memory) : State where
  mem := m
  mouse_cycle := 0
  mouse_packet := fun _ => 0
  mouse_x := WIDTH_SCREEN / 2
  mouse_y := HEIGHT_SCREEN / 2
  mouse_initialized := false
  mouse_bg_buffer := fun _ => 0

/-! ### The cells of the cursor -/

/-- The cells in the order of the loops. -/
def cells : List (ℕ × ℕ) :=
  (List.range MOUSE_H).flatMap fun y => (List.range MOUSE_W).map fun x => (x, y)

theorem eachCell_eq {σ : Type*} (f : σ → ℕ × ℕ → σ) (s : σ) :
  eachCell f s = cells.foldl f s
  := by
  rw [eachCell, cells, List.foldl_flatMap]
  simp only [List.foldl_map]

theorem mem_cells {c : ℕ × ℕ} :
  c ∈ cells ↔ c.1 < MOUSE_W ∧ c.2 < MOUSE_H
  := by
  obtain ⟨x, y⟩ := c
  simp only [cells, List.mem_flatMap, List.mem_map, List.mem_range, Prod.mk.injEq]
  constructor
  · rintro ⟨y', hy, x', hx, rfl, rfl⟩
    exact ⟨hx, hy⟩
  · rintro ⟨hx, hy⟩
    exact ⟨y, hy, x, hx, rfl, rfl⟩

theorem index_inj {c d : ℕ × ℕ} (hc : c ∈ cells) (hd : d ∈ cells) (h : index c = index d) :
  c = d
  := by
  obtain ⟨hx, -⟩ := mem_cells.mp hc
  obtain ⟨hx', -⟩ := mem_cells.mp hd
  rw [index, index, MOUSE_W] at h
  rw [MOUSE_W] at hx hx'
  apply Prod.ext <;> omega

/-! ### One packet -/

section

variable {fb : framebuffer_info} {s : State}

/-- The cursor at a position of the screen, as a surface. -/
def surface (hfb : Regular fb) {mouse_x mouse_y : ℤ} (hx : 0 ≤ mouse_x) (hy : 0 ≤ mouse_y) :
    Overlay.Surface Memory (ℕ × ℕ) ℕ where
  put m c v := if Visible mouse_x mouse_y c then put fb mouse_x mouse_y m c v else m
  put_put m c v w := by
    split_ifs
    · apply put_pixel_put_pixel
    · rfl
  put_comm m c d v w hne := by
    by_cases hc : Visible mouse_x mouse_y c
    · by_cases hd : Visible mouse_x mouse_y d
      · simp only [if_pos hc, if_pos hd]
        apply hfb.put_pixel_comm
        intro heq
        apply hne
        rw [Visible, WIDTH_SCREEN, HEIGHT_SCREEN] at hc hd
        simp only [Prod.mk.injEq] at heq
        apply Prod.ext <;> omega
      · simp only [if_neg hd]
    · simp only [if_neg hc]

/-- What `save` leaves in the buffer for a cell on the screen. -/
theorem save_index {c : ℕ × ℕ} (hc : c ∈ cells) (hvis : Visible s.mouse_x s.mouse_y c) :
  save fb s (index c) = get fb s.mouse_x s.mouse_y s.mem c
  := by
  rw [save, eachCell_eq]
  exact Overlay.foldl_update (v := fun c => get fb s.mouse_x s.mouse_y s.mem c)
    (fun d hd heq => index_inj hd hc heq) hvis (Or.inl hc)

/-- The cursor drawn over what was saved disappears when it is put back. -/
theorem putBack_cover (hfb : Regular fb) (hx : 0 ≤ s.mouse_x) (hy : 0 ≤ s.mouse_y) :
  putBack fb (cover fb s) = s.mem
  := by
  set S := surface hfb hx hy with hS
  have hback : putBack fb (cover fb s) =
      S.restore (fun c => save fb s (index c)) cells (draw fb s) := eachCell_eq _ _
  rw [hback, draw, eachCell_eq, S.restore_foldl (List.Subset.refl _), S.restore_saved]
  · intro c hc
    rw [hS, surface]
    dsimp only
    split_ifs with hvis
    · rw [save_index hc hvis]
      apply put_pixel_get_pixel
    · rfl
  · intro c hc m
    rw [hS, surface]
    dsimp only
    by_cases hvis : Visible s.mouse_x s.mouse_y c
    · simp only [not_true_eq_false, hvis, if_true, if_false]
      split_ifs
      · right
        use 0x000000
      · right
        use 0xFFFFFF
      · left
        rfl
    · left
      rw [if_pos hvis]

theorem clamp_bounds {size : ℤ} (hsize : 0 < size) (v : ℤ) :
  0 ≤ clamp size v ∧ clamp size v ≤ size - 1
  := by
  rw [clamp]
  split_ifs <;> omega

/-- What holds after any number of bytes: the picture is the memory `m` with the cursor over it. -/
structure Harmless (fb : framebuffer_info) (m : Memory) (s : State) : Prop where
  cycle_lt : s.mouse_cycle < 3
  x_nonneg : 0 ≤ s.mouse_x
  x_le : s.mouse_x ≤ WIDTH_SCREEN - 1
  y_nonneg : 0 ≤ s.mouse_y
  y_le : s.mouse_y ≤ HEIGHT_SCREEN - 1
  picture : (if s.mouse_initialized then putBack fb s else s.mem) = m

theorem harmless_start (m : Memory) :
  Harmless fb m (start m)
  := by
  constructor
  · exact Nat.succ_pos 2
  · exact (by decide : (0 : ℤ) ≤ 1024 / 2)
  · exact (by decide : (1024 / 2 : ℤ) ≤ 1024 - 1)
  · exact (by decide : (0 : ℤ) ≤ 768 / 2)
  · exact (by decide : (768 / 2 : ℤ) ≤ 768 - 1)
  · rfl

/-- Wherever the cursor goes, what it covers is saved. -/
theorem harmless_cover (hfb : Regular fb) (dx dy : ℤ) :
  Harmless fb s.mem (cover fb (move s dx dy))
  := by
  obtain ⟨hx, hx'⟩ := clamp_bounds (by decide : 0 < WIDTH_SCREEN) (s.mouse_x + dx)
  obtain ⟨hy, hy'⟩ := clamp_bounds (by decide : 0 < HEIGHT_SCREEN) (s.mouse_y + dy)
  constructor
  · exact Nat.succ_pos 2
  · exact hx
  · exact hx'
  · exact hy
  · exact hy'
  · have hdrawn : (cover fb (move s dx dy)).mouse_initialized = true := rfl
    rw [hdrawn, if_pos rfl, putBack_cover hfb hx hy]
    rfl

theorem Harmless.packet (hfb : Regular fb) {m : Memory} (h : Harmless fb m s) (bytes : ℕ → Byte)
    (cycle : ℕ) :
  Harmless fb m (packet fb { s with mouse_packet := bytes, mouse_cycle := cycle })
  := by
  have hmem : (uncover fb { s with mouse_packet := bytes, mouse_cycle := cycle }).mem = m :=
    h.picture
  rw [Mouse.packet]
  split_ifs
  · exact ⟨Nat.succ_pos 2, h.x_nonneg, h.x_le, h.y_nonneg, h.y_le, h.picture⟩
  · have hcover := harmless_cover hfb
      (s := uncover fb { s with mouse_packet := bytes, mouse_cycle := cycle })
      (bytes 1).toInt (-(bytes 2).toInt)
    rwa [hmem] at hcover

/-- The handler keeps it. -/
theorem Harmless.step (hfb : Regular fb) {m : Memory} (h : Harmless fb m s) (ports : Byte × Byte) :
  Harmless fb m (mouse_handler fb s ports)
  := by
  rw [mouse_handler]
  dsimp only
  split_ifs with hstatus hcycle
  · exact h
  · exact ⟨hcycle, h.x_nonneg, h.x_le, h.y_nonneg, h.y_le, h.picture⟩
  · exact h.packet hfb _ _

end

/-- In every state reached, fewer than three bytes of a packet are there, the cursor is on the
screen, and putting back what it covers gives the memory from before the first byte. -/
theorem mouse_harmless {fb : framebuffer_info} (hbpp : fb.bpp = 32)
    (hpitch : 4 * fb.width ≤ fb.pitch) (hsize : fb.pitch * fb.height < 2 ^ 32) (m : Memory)
    (ports : List (Byte × Byte)) :
  let s := ports.foldl (mouse_handler fb) (start m)
  s.mouse_cycle < 3 ∧ (0 ≤ s.mouse_x ∧ s.mouse_x ≤ WIDTH_SCREEN - 1) ∧
    (0 ≤ s.mouse_y ∧ s.mouse_y ≤ HEIGHT_SCREEN - 1) ∧
    if s.mouse_initialized then putBack fb s = m else s.mem = m
  := by
  have h : Harmless fb m (ports.foldl (mouse_handler fb) (start m)) := by
    apply List.foldlRecOn ports _ (harmless_start m)
    intro s hs ports _
    exact hs.step ⟨hbpp, hpitch, hsize⟩ ports
  refine ⟨h.cycle_lt, ⟨h.x_nonneg, h.x_le⟩, ⟨h.y_nonneg, h.y_le⟩, ?_⟩
  have hpicture := h.picture
  split_ifs at hpicture ⊢ <;> exact hpicture

/-- A framebuffer of 1024 by 768 pixels. -/
def vga : framebuffer_info := ⟨0xFD000000, 4096, 1024, 768, 32⟩

/-- The bytes of a packet that moves the cursor to the right. -/
def right : List (Byte × Byte) := [(0x21, 0x08), (0x21, 5), (0x21, 0)]

theorem mouse_harmless_right :
  putBack vga (right.foldl (mouse_handler vga) (start fun _ => 0x11)) = fun _ => 0x11
  := by
  have hdrawn : (right.foldl (mouse_handler vga) (start fun _ => 0x11)).mouse_initialized = true :=
    rfl
  have h := (@mouse_harmless vga rfl (by decide) (by decide) (fun _ => 0x11) right).2.2.2
  rwa [if_pos hdrawn] at h

end Mouse
