import LySystem.Mem.HeapRun

/-!
# What the heap leaves alone

`kmalloc` writes into the free block it hands out, and `kfree` into headers.  The bytes that
were asked for by those who still hold a pointer lie in neither.
-/

namespace Heap

open FirstFit Transition

variable {k lo hi : ℕ} {s t : State} {bs : List Block}

/-! ### The bytes of a live pointer -/

/-- The bytes asked for lie in the payload of a block in use. -/
theorem Holds.block_of_live (h : Holds k lo hi s bs) {ptr request x : ℕ}
    (hlive : s.live ptr = some request) (hlow : ptr ≤ x) (hhigh : x < ptr + request) :
  ∃ b ∈ bs, b.payload headerSize = ptr ∧ ¬ b.free ∧ b.addr + headerSize ≤ x ∧
    x < b.stop headerSize
  := by
  obtain ⟨b, hb, rfl, hfree, hle⟩ := h.accounts.1 ptr request hlive
  rw [Block.payload] at hlow hhigh
  refine ⟨b, hb, rfl, hfree, hlow, ?_⟩
  rw [Block.stop]
  omega

/-- They lie outside every other block, and outside the header of their own. -/
theorem Holds.outside (h : Holds k lo hi s bs) {b c : Block} {x : ℕ} (hb : b ∈ bs) (hc : c ∈ bs)
    (hlow : b.addr + headerSize ≤ x) (hhigh : x < b.stop headerSize) :
  c = b ∨ x < c.addr ∨ c.stop headerSize ≤ x
  := by
  rcases h.tiles.disjoint hc hb with rfl | hcb | hbc
  · left
    rfl
  · right
    omega
  · right
    omega

/-! ### One step -/

/-- A pointer handed out is not one that is live. -/
theorem Holds.kmalloc_fresh (h : Holds k lo hi s bs) (hhi : hi < 2 ^ 64) {n req ptr : ℕ}
    {m : Memory} (hreq : req < 2 ^ 32) (hk : Heap.kmalloc n s.mem lo req = some (ptr, m))
    {p request : ℕ} (hlive : s.live p = some request) :
  p ≠ ptr
  := by
  obtain ⟨b, hb, rfl, hfree, -⟩ := h.accounts.1 p request hlive
  rcases h.kmalloc_cases hhi hreq with ⟨-, hret⟩ | ⟨c, bs', m', halloc, hret, -, -⟩
  · obtain ⟨rfl, rfl⟩ := Prod.mk.inj (hret.eq_of_iterate hk)
    rw [Block.payload, headerSize]
    omega
  · obtain ⟨rfl, rfl⟩ := Prod.mk.inj (hret.eq_of_iterate hk)
    obtain ⟨hc, hcfree, -⟩ := alloc_mem halloc
    intro heq
    rw [Block.payload, Block.payload] at heq
    obtain rfl := h.tiles.eq_of_addr (by simp [headerSize]) hc hb (by omega)
    exact hfree hcfree

theorem Holds.kmalloc_frame (h : Holds k lo hi s bs) (hhi : hi < 2 ^ 64) {n req ptr : ℕ}
    {m : Memory} (hreq : req < 2 ^ 32) (hk : Heap.kmalloc n s.mem lo req = some (ptr, m))
    {p request x : ℕ} (hlive : s.live p = some request) (hlow : p ≤ x) (hhigh : x < p + request) :
  m x = s.mem x
  := by
  obtain ⟨b, hb, rfl, hfree, hbl, hbh⟩ := h.block_of_live hlive hlow hhigh
  rcases h.kmalloc_cases hhi hreq with ⟨-, hret⟩ | ⟨c, bs', m', halloc, hret, -, hframe⟩
  · obtain ⟨rfl, rfl⟩ := Prod.mk.inj (hret.eq_of_iterate hk)
    rfl
  · obtain ⟨rfl, rfl⟩ := Prod.mk.inj (hret.eq_of_iterate hk)
    obtain ⟨hc, hcfree, -⟩ := alloc_mem halloc
    apply hframe
    apply (h.outside hb hc hbl hbh).resolve_left
    rintro rfl
    exact hfree hcfree

theorem Holds.kfree_frame (h : Holds k lo hi s bs) (hhi : hi < 2 ^ 64) {n ptr : ℕ} {m : Memory}
    (hptr : ptr = 0 ∨ s.live ptr ≠ none) (hk : Heap.kfree n s.mem lo ptr = some m)
    {p request x : ℕ} (hlive : s.live p = some request) (hlow : p ≤ x) (hhigh : x < p + request) :
  m x = s.mem x
  := by
  by_cases hnull : ptr = 0
  · subst hnull
    obtain rfl : s.mem = m := by simpa [Heap.kfree] using hk
    rfl
  · obtain ⟨m', heq, hret, -, hframe⟩ := h.kfree_returns hhi (hptr.resolve_left hnull)
    rw [heq] at hk
    obtain rfl := hret.eq_of_iterate hk
    obtain ⟨b, hb, rfl, -, hbl, hbh⟩ := h.block_of_live hlive hlow hhigh
    apply hframe
    intro c hc
    rcases h.outside hb hc hbl hbh with rfl | hlt | hle
    · right
      exact hbl
    · left
      exact hlt
    · right
      rw [Block.stop] at hle
      omega

/-- The memory of a call that is not a write by a client is the same at the bytes asked for. -/
theorem Holds.step_frame {op : Op} (h : Holds k lo hi s bs) (hhi : hi < 2 ^ 64)
    (hstep : Step lo hi s op t) {p request x : ℕ} (hlive : s.live p = some request)
    (hlow : p ≤ x) (hhigh : x < p + request) (hwrite : ∀ v, op ≠ .write x v) :
  t.mem x = s.mem x
  := by
  cases hstep with
  | kmalloc hreq hk => exact h.kmalloc_frame hhi hreq hk hlive hlow hhigh
  | kfree hptr hk => exact h.kfree_frame hhi hptr hk hlive hlow hhigh
  | write v _ =>
      apply Memory.set_of_ne
      rintro rfl
      exact hwrite v rfl

/-- A pointer stays live until it is freed. -/
theorem Holds.step_live {op : Op} (h : Holds k lo hi s bs) (hhi : hi < 2 ^ 64)
    (hstep : Step lo hi s op t) {p request : ℕ} (hlive : s.live p = some request)
    (hfree : op ≠ .kfree p) :
  t.live p = some request
  := by
  cases hstep with
  | kmalloc hreq hk =>
      dsimp only
      split_ifs
      · exact hlive
      · rw [Function.update_of_ne (h.kmalloc_fresh hhi hreq hk hlive), hlive]
  | kfree hptr hk =>
      dsimp only
      rw [Function.update_of_ne, hlive]
      rintro rfl
      exact hfree rfl
  | write v _ => exact hlive

/-! ### A client that asks for memory -/

/-- The bytes two pointers were asked for lie apart. -/
theorem Holds.apart_of_live (h : Holds k lo hi s bs) {p q request request' x : ℕ} (hne : p ≠ q)
    (hp : s.live p = some request) (hq : s.live q = some request') (hlow : p ≤ x)
    (hhigh : x < p + request) :
  x < q ∨ q + request' ≤ x
  := by
  obtain ⟨b, hb, rfl, -, hbl, hbh⟩ := h.block_of_live hp hlow hhigh
  obtain ⟨c, hc, rfl, -, hle⟩ := h.accounts.1 q request' hq
  rcases h.outside hb hc hbl hbh with rfl | hlt | hstop
  · exact absurd rfl hne
  · left
    rw [Block.payload]
    omega
  · right
    rw [Block.stop] at hstop
    rw [Block.payload]
    omega

theorem Holds.kmalloc_outside (h : Holds k lo hi s bs) (hhi : hi < 2 ^ 64) {n req ptr : ℕ}
    {m : Memory} (hreq : req < 2 ^ 32) (hk : Heap.kmalloc n s.mem lo req = some (ptr, m)) {x : ℕ}
    (hx : x < lo ∨ hi ≤ x) :
  m x = s.mem x
  := by
  rcases h.kmalloc_cases hhi hreq with ⟨-, hret⟩ | ⟨b, bs', m', halloc, hret, -, hframe⟩
  · obtain ⟨rfl, rfl⟩ := Prod.mk.inj (hret.eq_of_iterate hk)
    rfl
  · obtain ⟨rfl, rfl⟩ := Prod.mk.inj (hret.eq_of_iterate hk)
    obtain ⟨hlow, hhigh⟩ := h.tiles.bounds (alloc_mem halloc).1
    apply hframe
    omega

/-- The byte is no part of the heap, or it was asked for by those who hold a pointer. -/
def State.Safe (lo hi : ℕ) (s : State) (x : ℕ) : Prop :=
  (x < lo ∨ hi ≤ x) ∨ ∃ ptr request, s.live ptr = some request ∧ ptr ≤ x ∧ x < ptr + request

/-- A pointer that is not `NULL` points to bytes of the heap that nobody holds; the bytes that
were safe are left alone and stay safe. -/
theorem Holds.kmalloc_given (h : Holds k lo hi s bs) (hk8 : k ∣ 8) (hhi : hi < 2 ^ 64)
    {n req ptr : ℕ} {m : Memory} (hreq : req < 2 ^ 32)
    (hk : Heap.kmalloc n s.mem lo req = some (ptr, m)) (hptr : ptr ≠ 0) :
  ∃ t : State, t.mem = m ∧ (∃ bs', Holds k lo hi t bs') ∧ t.live ptr = some req ∧
    lo ≤ ptr ∧ ptr + req ≤ hi ∧
    ∀ x, s.Safe lo hi x → (x < ptr ∨ ptr + req ≤ x) ∧ m x = s.mem x ∧ t.Safe lo hi x
  := by
  have hstep : Step lo hi s (.kmalloc req) _ := Step.kmalloc hreq hk
  rw [if_neg hptr] at hstep
  obtain ⟨bs', h'⟩ := holds_step hk8 hhi ⟨bs, h⟩ hstep
  have hlive : Function.update s.live ptr (some req) ptr = some req := Function.update_self ..
  have hbounds : lo ≤ ptr ∧ ptr + req ≤ hi := by
    obtain ⟨b, hb, rfl, -, hle⟩ := h'.accounts.1 ptr req hlive
    obtain ⟨hlow, hhigh⟩ := h'.tiles.bounds hb
    rw [Block.stop] at hhigh
    rw [Block.payload]
    omega
  refine ⟨_, rfl, ⟨bs', h'⟩, hlive, hbounds.1, hbounds.2, ?_⟩
  rintro x (hx | ⟨p, request, hp, hlow, hhigh⟩)
  · exact ⟨by omega, h.kmalloc_outside hhi hreq hk hx, Or.inl hx⟩
  · have hne := h.kmalloc_fresh hhi hreq hk hp
    have hp' : Function.update s.live ptr (some req) p = some request := by
      rw [Function.update_of_ne hne, hp]
    exact ⟨h'.apart_of_live hne hp' hlive hlow hhigh, h.kmalloc_frame hhi hreq hk hp hlow hhigh,
      Or.inr ⟨p, request, hp', hlow, hhigh⟩⟩

/-- Whatever `kmalloc` returns, the bytes that were safe are left alone and stay safe. -/
theorem Holds.kmalloc_kept (h : Holds k lo hi s bs) (hk8 : k ∣ 8) (hhi : hi < 2 ^ 64)
    {n req ptr : ℕ} {m : Memory} (hreq : req < 2 ^ 32)
    (hk : Heap.kmalloc n s.mem lo req = some (ptr, m)) :
  ∃ t : State, t.mem = m ∧ (∃ bs', Holds k lo hi t bs') ∧ (ptr ≠ 0 → t.live ptr = some req) ∧
    ∀ x, s.Safe lo hi x →
      (ptr ≠ 0 → x < ptr ∨ ptr + req ≤ x) ∧ m x = s.mem x ∧ t.Safe lo hi x
  := by
  by_cases hptr : ptr = 0
  · have hstep : Step lo hi s (.kmalloc req) _ := Step.kmalloc hreq hk
    rw [if_pos hptr] at hstep
    refine ⟨_, rfl, holds_step hk8 hhi ⟨bs, h⟩ hstep, fun hne => absurd hptr hne, ?_⟩
    rintro x hx
    refine ⟨fun hne => absurd hptr hne, ?_, hx⟩
    rcases hx with hx | ⟨p, request, hp, hlow, hhigh⟩
    · exact h.kmalloc_outside hhi hreq hk hx
    · exact h.kmalloc_frame hhi hreq hk hp hlow hhigh
  · obtain ⟨t, hmem, hholds, hlive, -, -, hkept⟩ := h.kmalloc_given hk8 hhi hreq hk hptr
    refine ⟨t, hmem, hholds, fun _ => hlive, ?_⟩
    intro x hx
    obtain ⟨happart, hbyte, hsafe⟩ := hkept x hx
    exact ⟨fun _ => happart, hbyte, hsafe⟩

/-- Bytes outside the heap may change. -/
theorem Holds.writes_outside (h : Holds k lo hi s bs) {m : Memory}
    (hm : ∀ x, lo ≤ x → x < hi → m x = s.mem x) :
  Holds k lo hi ⟨m, s.live⟩ bs
  := by
  refine ⟨?_, h.tiles, h.apart, h.size_dvd, h.accounts⟩
  apply h.list.congr
  intro b hb y hlow hhigh
  obtain ⟨hstart, hstop⟩ := h.tiles.bounds hb
  rw [Block.stop] at hstop
  exact hm y (by omega) (by omega)

/-- Those who hold a pointer may write to the bytes they asked for. -/
theorem Holds.stores (h : Holds k lo hi s bs) {ptr request : ℕ} (hlive : s.live ptr = some request)
    {m : Memory} (hm : ∀ x, x < ptr ∨ ptr + request ≤ x → m x = s.mem x) :
  Holds k lo hi ⟨m, s.live⟩ bs
  := by
  constructor
  · apply h.list.congr
    intro b hb y hlow hhigh
    apply hm
    by_contra hin
    obtain ⟨c, hc, -, -, hcl, hch⟩ := h.block_of_live hlive (x := y) (by omega) (by omega)
    rcases h.outside hc hb hcl hch with rfl | hlt | hle
    · omega
    · omega
    · rw [Block.stop] at hle
      omega
  · apply h.tiles
  · apply h.apart
  · apply h.size_dvd
  · apply h.accounts

/-! ### Runs -/

/-- Without a heap nothing is ever live. -/
theorem run_unmapped {ops : List Op} (hrun : Run (Step 0 hi) s ops t)
    (hdead : ∀ ptr, s.live ptr = none) :
  ∀ ptr, t.live ptr = none
  := by
  apply hrun.invariant (I := fun s => ∀ ptr, s.live ptr = none) _ hdead
  intro s op t hdead hstep ptr
  cases hstep with
  | @kmalloc n _ _ _ _ hk =>
      cases n with
      | zero => cases hk
      | succ n =>
          obtain ⟨rfl, -⟩ := Prod.mk.inj (Option.some.inj hk)
          exact hdead ptr
  | kfree hptr _ =>
      dsimp only
      rcases hptr with rfl | hlive
      · rw [Function.update_apply]
        split_ifs
        · rfl
        · exact hdead ptr
      · exact absurd (hdead _) hlive
  | write v _ => exact hdead ptr

/-- What is stored in the bytes asked for stays there until the pointer is freed or its holder
writes to them. -/
theorem Holds.run_frame {ops : List Op} (h : Holds k lo hi s bs) (hk8 : k ∣ 8) (hhi : hi < 2 ^ 64)
    (hrun : Run (Step lo hi) s ops t) {p request : ℕ} (hlive : s.live p = some request)
    (hfree : .kfree p ∉ ops)
    (hwrite : ∀ x v, .write x v ∈ ops → x < p ∨ p + request ≤ x) :
  t.live p = some request ∧ ∀ x, p ≤ x → x < p + request → t.mem x = s.mem x
  := by
  let I : State → Prop := fun u => (∃ bs, Holds k lo hi u bs) ∧ u.live p = some request ∧
    ∀ x, p ≤ x → x < p + request → u.mem x = s.mem x
  suffices hI : I t from hI.2
  apply hrun.invariant_mem (I := I) _ ⟨⟨bs, h⟩, hlive, fun _ _ _ => rfl⟩
  rintro u op u' hop ⟨⟨cs, hu⟩, hlive', hmem⟩ hstep
  refine ⟨holds_step hk8 hhi ⟨cs, hu⟩ hstep, ?_, ?_⟩
  · apply hu.step_live hhi hstep hlive'
    rintro rfl
    exact hfree hop
  · intro x hlow hhigh
    rw [← hmem x hlow hhigh]
    apply hu.step_frame hhi hstep hlive' hlow hhigh
    rintro v rfl
    have := hwrite x v hop
    omega

/-- In every run, a call of `kmalloc` or `kfree` leaves the bytes asked for by those who hold a
pointer before and after it, and what they store there stays until they free it. -/
theorem heap_kept {n : ℕ} {image : Paging.Image} {vm vm' : Paging.Vm} {heap_start : ℕ}
    (hinit : heap_init n image vm lo hi = some (vm', heap_start))
    (hsize : lo + headerSize ≤ hi) (hlt : hi < 2 ^ 64) {ops : List Op}
    (hrun : Run (Step heap_start hi) ⟨vm'.mem, fun _ => none⟩ ops s) :
  (∀ op t, Step heap_start hi s op t → (∀ x v, op ≠ .write x v) →
    ∀ p request, s.live p = some request → t.live p ≠ none →
      ∀ x, p ≤ x → x < p + request → t.mem x = s.mem x) ∧
  (∀ ops' t, Run (Step heap_start hi) s ops' t →
    ∀ p request, s.live p = some request → .kfree p ∉ ops' →
      (∀ x v, .write x v ∈ ops' → x < p ∨ p + request ≤ x) →
        t.live p = some request ∧ ∀ x, p ≤ x → x < p + request → t.mem x = s.mem x)
  := by
  by_cases hmapped : heap_start = 0
  · subst hmapped
    have hdead := run_unmapped hrun (fun _ => rfl)
    constructor
    · intro op t _ _ p request hlive
      rw [hdead p] at hlive
      cases hlive
    · intro ops' t _ p request hlive
      rw [hdead p] at hlive
      cases hlive
  · obtain ⟨rfl, bs, h⟩ :=
      holds_run hinit hmapped (one_dvd 8) (one_dvd lo) (one_dvd hi) hsize hlt hrun
    constructor
    · intro op t hstep hop p request hlive _ x hlow hhigh
      exact h.step_frame hlt hstep hlive hlow hhigh (hop x)
    · intro ops' t hrun' p request hlive hfree hwrite
      exact h.run_frame (one_dvd 8) hlt hrun' hlive hfree hwrite

/-- In a heap of one page, a second request leaves the 100 bytes of the first one. -/
theorem heap_kept_page :
  ∃ vm' s t, heap_init 5 ⟨Paging.KERNEL_OFFSET, Paging.KERNEL_OFFSET⟩ freshVm 4096 8192 =
      some (vm', 4096) ∧
    Run (Step 4096 8192) ⟨vm'.mem, fun _ => none⟩ [.kmalloc 100] s ∧
    Step 4096 8192 s (.kmalloc 200) t ∧
    ∀ x, 4120 ≤ x → x < 4220 → t.mem x = s.mem x
  := by
  have hpage : (heap_init 5 ⟨Paging.KERNEL_OFFSET, Paging.KERNEL_OFFSET⟩ freshVm 4096 8192).bind
      (fun r => (Heap.kmalloc 2 r.1.mem r.2 100).map fun p => (r.2, p.1)) = some (4096, 4120) := by
    decide +kernel
  obtain ⟨⟨vm', heap_start⟩, hinit, hrest⟩ := Option.bind_eq_some_iff.mp hpage
  obtain ⟨⟨ptr, m⟩, hk, heq⟩ := Option.map_eq_some_iff.mp hrest
  obtain ⟨rfl, rfl⟩ := Prod.mk.inj heq
  have hstep : Step 4096 8192 ⟨vm'.mem, fun _ => none⟩ (.kmalloc 100) _ := Step.kmalloc (by decide) hk
  have hrun := Run.cons hstep (Run.nil _)
  obtain ⟨-, bs, h⟩ := holds_run hinit (by decide) (one_dvd 8) (one_dvd _) (one_dvd _) (by decide)
    (by decide) hrun
  obtain ⟨n, ⟨ptr, m'⟩, hk'⟩ := (h.returns (by decide)).1 200 (by decide)
  have hstep' : Step 4096 8192 _ (.kmalloc 200) _ := Step.kmalloc (by decide) hk'
  refine ⟨vm', _, _, hinit, hrun, hstep', ?_⟩
  have hlive : (if 4120 = 0 then fun _ => none
      else Function.update (fun _ => none) 4120 (some 100) : ℕ → Option ℕ) 4120 = some 100 := by
    simp
  apply (heap_kept hinit (by decide) (by decide) hrun).1 _ _ hstep' (by simp) 4120 100 hlive
  rw [h.step_live (by decide) hstep' hlive (by simp)]
  simp

end Heap
