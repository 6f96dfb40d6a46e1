import Js2Wasm.Heap.Regions

/-! # The entry points

`heapAlloc`, `heapCalloc` and `heapRealloc` on a heap that holds a layout: what they
return, and which blocks are allocated afterwards.  None of them traps or fails to
return.
-/
namespace Js2Wasm.Heap
open WordMemory

/-! ### Block sizes -/

theorem blockFor_eq {size : Nat} (h : size ≤ MAX_REQUEST) :
    blockFor size = max 16 ((size + 11) / 8 * 8) := by
  have hmax : MAX_REQUEST = 2147483632 := rfl
  have hdr : HDR = 4 := rfl
  have hmin : MIN_BLOCK = 16 := rfl
  have hadd : add32 size (HDR + 7) = size + 11 := add32_of_lt (by lia)
  rw [blockFor]
  simp only [hadd]
  rw [and_sizeMask (by lia), hmin]
  split <;> lia

/-- A block for a request: big enough, of a possible size, and no bigger than needed. -/
theorem blockFor_spec {size : Nat} (h : size ≤ MAX_REQUEST) :
    size + HDR ≤ blockFor size ∧ blockFor size % 8 = 0 ∧ 16 ≤ blockFor size ∧
      blockFor size + CTL_BYTES < 2 ^ 32 ∧
      ∀ s, s % 8 = 0 → 16 ≤ s → s < blockFor size → s < size + HDR := by
  have hmax : MAX_REQUEST = 2147483632 := rfl
  have hdr : HDR = 4 := rfl
  have hbytes : CTL_BYTES = 272 := rfl
  rw [blockFor_eq h]
  refine ⟨by lia, by lia, by lia, by lia, fun s h8 h16 hs => by lia⟩

theorem signed32_of_pos {x : Nat} (hlt : x < 2 ^ 32) (hpos : signed32 x > 0) :
    signed32 x = x := by
  rw [signed32] at hpos ⊢
  by_cases hx : x < 2 ^ 31
  · rw [if_pos hx]
  · rw [if_neg hx] at hpos
    omega

section
variable {h : HeapState} {L : List Region} {src : RegionSource}

variable {b s blk size : Nat} {F : Nat → Nat → Prop}

/-- The histogram is no part of the blocks. -/
theorem HeapInv.recordSize (hi : HeapInv h L F) (size : Nat) : HeapInv (recordSize h size) L F := by
  have hlt := hi.freeSet.ctl_lt
  have h8 := hi.ctl.1
  have h1 : CTL_NEXT_REGION = 192 := rfl
  have h2 : CTL_HIST = 208 := rfl
  have h3 : CTL_BYTES = 272 := rfl
  have hfifteen : signed32 (HIST_BUCKETS - 1) = 15 := rfl
  have hstore : ∀ bucket v, bucket ≤ 15 →
      HeapInv (h.store (add32 h.ctl (mul32 bucket 4) + CTL_HIST) v) L F := fun bucket v hb => by
    rw [mul32_of_lt (by lia), add32_of_lt (by lia)]
    exact hi.store_ctl (by lia) (by lia) (by lia)
  obtain ⟨x, hx, hxlt⟩ : ∃ x, sub32 (sub32 31 (clz32 (size ||| 1))) 3 = x ∧ x < 2 ^ 32 :=
    ⟨_, rfl, Nat.mod_lt _ (by decide)⟩
  rw [Heap.recordSize]
  simp only [hx, hfifteen]
  refine hstore _ _ ?_
  by_cases hpos : signed32 x > 0
  · rw [if_pos hpos, signed32_of_pos hxlt hpos]
    split
    · exact le_rfl
    · lia
  · rw [if_neg hpos]
    split
    · exact le_rfl
    · exact Nat.zero_le _

/-! ### Allocation -/

/-- A new allocated block of at least `n` bytes, and otherwise the same ones. -/
def Took (L : List Region) (h' : HeapState) (p n : Nat) : Prop :=
  ∃ L' b t, p = b + HDR ∧ n ≤ t ∧ HeapInv h' L' (FreeAt L') ∧ (∀ u, ¬ UsedAt L b u) ∧
    ∀ y u, UsedAt L' y u ↔ UsedAt L y u ∨ (y = b ∧ u = t)

theorem LayoutWF.not_used (hwf : LayoutWF L) (hb : FreeAt L b s) (u : Nat) : ¬ UsedAt L b u := by
  intro hu
  obtain ⟨r, -, -, -, -, -, -, -, h16⟩ := hwf.block hb
  obtain ⟨r', -, -, -, -, -, -, -, h16'⟩ := hwf.block hu
  have hd := hwf.blocks_disjoint hb hu
  simp only [Block.mk.injEq, Bool.false_eq_true, and_false, false_or] at hd h16 h16'
  lia

theorem takeBlock_took (hi : HeapInv h L (FreeAt L)) (hb : FreeAt L b s) (hle : blk ≤ s)
    (h8 : blk % 8 = 0) (h16 : 16 ≤ blk) :
    ∃ h', takeBlock h b blk = (h', b + HDR) ∧ Took L h' (b + HDR) blk := by
  obtain ⟨m', L', t, htake, hi', ht, hused⟩ := takeBlock_spec hi hb hle h8 h16
  exact ⟨_, htake, L', b, t, rfl, ht, hi', hi.wf.not_used hb, hused⟩

/-- The search on a heap that holds a layout. -/
theorem HeapInv.find (hi : HeapInv h L (FreeAt L)) (h8 : blk % 8 = 0) (h16 : 16 ≤ blk)
    (hlt : blk < 2 ^ 32) :
    ∃ b, heapFind h blk = some b ∧
      ((b = 0 ∧ ∀ y s, FreeAt L y s → s < blk) ∨ (b ≠ 0 ∧ ∃ s, FreeAt L b s ∧ blk ≤ s)) := by
  obtain ⟨b, hfind, hor⟩ := heapFind_spec hi.freeSet hi.listed (fun y s hy => hi.sizeAt hy) h8 h16
    hlt
  refine ⟨b, hfind, hor.imp_right fun ⟨s, hs, hle⟩ => ⟨?_, s, hs, hle⟩⟩
  have := hi.freeSet.aligned hs
  lia

/-- **Allocating a block**: a new block, or 0 with no block that fits and a source that
refuses. -/
theorem allocBlock_spec (hi : HeapInv h L (FreeAt L)) (hsrc : Honest src) (h8 : blk % 8 = 0)
    (h16 : 16 ≤ blk) (hlt : blk + CTL_BYTES < 2 ^ 32) :
    ∃ h' p, allocBlock src h blk = some (h', p) ∧ (p ≠ 0 → Took L h' p blk) ∧
      (p = 0 → HeapInv h' L (FreeAt L) ∧ (∀ y s, FreeAt L y s → s < blk) ∧
        src.answer h.granted (blk + CTL_BYTES) = 0) := by
  have hblk : blk < 2 ^ 32 := by omega
  have hpay : ∀ b, b + HDR ≠ 0 := fun b => by rw [HDR]; omega
  obtain ⟨b, hfind, ⟨hb0, hsmall⟩ | ⟨hb0, s, hs, hle⟩⟩ := hi.find h8 h16 hblk
  · -- nothing fits: more memory
    obtain ⟨h₁, ok, hmore, hok, hno⟩ := heapMore_spec hi hsrc hlt
    cases ok with
    | false =>
      obtain ⟨hi1, -, hrefused⟩ := hno rfl
      refine ⟨h₁, 0, ?_, fun hc => absurd rfl hc, fun _ => ⟨hi1, hsmall, hrefused⟩⟩
      simp [allocBlock, hfind, hb0, hmore]
    | true =>
      obtain ⟨L1, hi1, hused1, y, s, hs, hle⟩ := hok rfl
      obtain ⟨b', hfind', ⟨hb0', hsmall'⟩ | ⟨hb0', s', hs', hle'⟩⟩ := hi1.find h8 h16 hblk
      · have := hsmall' y s hs
        omega
      · obtain ⟨h₂, htake, L2, b2, t, hp, ht, hi2, hnew, hused2⟩ :=
          takeBlock_took hi1 hs' hle' h8 h16
        refine ⟨h₂, b' + HDR, ?_, fun _ => ⟨L2, b2, t, hp, ht, hi2, fun u hu => ?_, fun y u => ?_⟩,
          fun hc => absurd hc (hpay b')⟩
        · simp [allocBlock, hfind, hb0, hmore, hfind', hb0', htake]
        · exact hnew u ((hused1 _ _).mpr hu)
        · rw [hused2, hused1]
  · obtain ⟨h₁, htake, htook⟩ := takeBlock_took hi hs hle h8 h16
    refine ⟨h₁, b + HDR, ?_, fun _ => htook, fun hc => absurd hc (hpay b)⟩
    simp [allocBlock, hfind, hb0, htake]

/-- **`heapAlloc`** allocates a block for the request, or gives 0: for a request above the
limit, or when nothing fits and the source refuses; then the blocks are as they were. -/
theorem heapAlloc_spec {regionBytes : Nat} (hi : HeapInv h L (FreeAt L)) (hsrc : Honest src)
    (size : Nat) :
    ∃ h' p, heapAlloc src regionBytes h size = some (h', p) ∧
      (p ≠ 0 → size ≤ MAX_REQUEST ∧ Took L h' p (blockFor size)) ∧
      (p = 0 → HeapInv h' L (FreeAt L) ∧ (MAX_REQUEST < size ∨
        ((∀ y s, FreeAt L y s → s < size + HDR) ∧
          src.answer h.granted (blockFor size + CTL_BYTES) = 0))) := by
  have hi0 : HeapInv { h with nAlloc := add32 h.nAlloc 1 } L (FreeAt L) :=
    ⟨hi.wf, hi.ctl, hi.granted, hi.tagged, hi.free, hi.listed⟩
  have hctl : h.ctl ≠ 0 := by
    obtain ⟨-, ⟨r, hr, hlo, -⟩, -⟩ := hi.ctl
    have := (hi.wf.regions r hr).pos
    lia
  by_cases hmax : size > MAX_REQUEST
  · refine ⟨_, 0, ?_, fun hc => absurd rfl hc, fun _ => ⟨hi0, Or.inl hmax⟩⟩
    rw [heapAlloc]
    simp only [if_pos hmax]
  · have hle : size ≤ MAX_REQUEST := Nat.le_of_not_lt hmax
    obtain ⟨-, h8, h16, hlt, htight⟩ := blockFor_spec hle
    obtain ⟨h', p, halloc, hsome, hnone⟩ := allocBlock_spec (hi0.recordSize size) hsrc h8 h16 hlt
    refine ⟨h', p, ?_, fun hp => ⟨hle, hsome hp⟩, fun hp => ?_⟩
    · rw [heapAlloc]
      simp only [if_neg hmax, heapInit, hctl, ne_eq, not_false_eq_true, if_true,
        Bool.not_true, Bool.false_eq_true, if_false]
      exact halloc
    · obtain ⟨hi', hsmall, hrefused⟩ := hnone hp
      refine ⟨hi', Or.inr ⟨fun y s hy => ?_, hrefused⟩⟩
      obtain ⟨r, -, -, -, -, -, -, hs8, hs16⟩ := hi.wf.block hy
      exact htight s hs8 hs16 (hsmall y s hy)

/-- Writing inside one allocated block's payload. -/
theorem HeapInv.write_payload (hi : HeapInv h L F) {t : Nat} (hb : UsedAt L b t) {m' : Memory}
    (hm : ∀ a, ¬ (b + HDR ≤ a ∧ a < b + t) → m' a = h.mem a) :
    HeapInv { h with mem := m' } L F := by
  refine hi.frame_owned fun a ha => hm a fun hin => ha.2 ⟨b, t, hb, hin.1, hin.2⟩

/-- A product that divides back did not overflow. -/
theorem mul32_div {count : Nat} (h0 : count ≠ 0) (hdiv : mul32 count size / count = size) :
    mul32 count size = count * size := by
  have hle : mul32 count size ≤ count * size := Nat.mod_le _ _
  have hge : size * count ≤ mul32 count size := by
    rw [← Nat.le_div_iff_mul_le (Nat.pos_of_ne_zero h0), hdiv]
  rw [Nat.mul_comm size count] at hge
  exact Nat.le_antisymm hle hge

/-- **`heapCalloc`** allocates `count * size` bytes, or gives 0 and leaves the blocks. -/
theorem heapCalloc_spec {regionBytes : Nat} (hi : HeapInv h L (FreeAt L)) (hsrc : Honest src)
    (count size : Nat) :
    ∃ h' p, heapCalloc src regionBytes h count size = some (h', p) ∧
      (p ≠ 0 → Took L h' p (count * size + HDR)) ∧ (p = 0 → HeapInv h' L (FreeAt L)) := by
  have hi0 : HeapInv { h with nCalloc := add32 h.nCalloc 1 } L (FreeAt L) :=
    ⟨hi.wf, hi.ctl, hi.granted, hi.tagged, hi.free, hi.listed⟩
  obtain ⟨total, htotal⟩ : ∃ total, (if count = 0 then 0 else mul32 count size) = total := ⟨_, rfl⟩
  by_cases hover : count ≠ 0 ∧ total / count ≠ size
  · refine ⟨_, 0, ?_, fun hc => absurd rfl hc, fun _ => hi0⟩
    simp only [heapCalloc, htotal, if_pos hover]
    rfl
  · have hprod : total = count * size := by
      rw [← htotal] at hover ⊢
      by_cases h0 : count = 0
      · rw [if_pos h0, h0, Nat.zero_mul]
      · rw [if_neg h0] at hover ⊢
        exact mul32_div h0 (by_contra fun hne => hover ⟨h0, hne⟩)
    obtain ⟨h₁, p, halloc, hsome, hnone⟩ := @heapAlloc_spec _ L src regionBytes hi0 hsrc total
    by_cases hp : p = 0
    · refine ⟨h₁, 0, ?_, fun hc => absurd rfl hc, fun _ => (hnone hp).1⟩
      simp [heapCalloc, htotal, hover, halloc, hp]
    · obtain ⟨hle, L', b, t, rfl, ht, hi', hnew, hused⟩ := hsome hp
      have hfit := (blockFor_spec hle).1
      refine ⟨if total ≠ 0 then { h₁ with mem := fill h₁.mem (b + HDR) 0 total } else h₁, b + HDR,
        ?_, fun _ => ⟨L', b, t, rfl, by lia, ?_, hnew, hused⟩, fun hc => absurd hc hp⟩
      · simp only [heapCalloc, htotal, if_neg hover, halloc, Option.bind_eq_bind, Option.bind_some,
          if_neg hp]
        rfl
      · split
        · exact hi'.write_payload ((hused b t).mpr (Or.inr ⟨rfl, rfl⟩)) fun a ha =>
            if_neg fun hin => ha ⟨hin.1, by lia⟩
        · exact hi'

/-! ### Reallocation -/

/-- What became of an allocated block: it is now at `b'`, with at least `n` bytes. -/
def Moved (L : List Region) (b : Nat) (h' : HeapState) (p n : Nat) : Prop :=
  ∃ L' b' t, p = b' + HDR ∧ n ≤ t ∧ HeapInv h' L' (FreeAt L') ∧
    (b' = b ∨ ∀ u, ¬ UsedAt L b' u) ∧
    ∀ y u, UsedAt L' y u ↔ (UsedAt L y u ∧ y ≠ b) ∨ (y = b' ∧ u = t)

theorem shrinkTail_moved (hi : HeapInv h L (FreeAt L)) (hb : UsedAt L b s) (hle : blk ≤ s)
    (h8 : blk % 8 = 0) (h16 : 16 ≤ blk) :
    ∃ h', shrinkTail h b s blk = some h' ∧ Moved L b h' (b + HDR) blk := by
  obtain ⟨h', L', t, hshrink, hi', ht, hused⟩ := shrinkTail_spec hi hb hle h8 h16
  exact ⟨h', hshrink, L', b, t, rfl, ht, hi', Or.inl rfl, hused⟩

/-- `moveBlock` once the new block is there. -/
theorem moveBlock_eq {regionBytes : Nat} {h₁ h₂ : HeapState} {payload q : Nat}
    (halloc : heapAlloc src regionBytes h size = some (h₁, q)) (hq : q ≠ 0)
    (hfree : heapFree { h₁ with mem := copy h₁.mem q payload (sub32 s HDR) } payload = some h₂) :
    moveBlock src regionBytes h payload size s = some (h₂, q) := by
  rw [moveBlock, halloc]
  show (if q = 0 then some (h₁, 0) else
    (heapFree { h₁ with mem := copy h₁.mem q payload (sub32 s HDR) } payload).bind
      fun h => some (h, q)) = some (h₂, q)
  rw [if_neg hq, hfree, Option.bind_some]

/-- Allocate, copy, free. -/
theorem moveBlock_spec {regionBytes : Nat} (hi : HeapInv h L (FreeAt L)) (hsrc : Honest src)
    {b s size : Nat} (hb : UsedAt L b s) (hlt : s < blockFor size) :
    ∃ h' p, moveBlock src regionBytes h (b + HDR) size s = some (h', p) ∧
      (p ≠ 0 → Moved L b h' p (blockFor size)) ∧ (p = 0 → HeapInv h' L (FreeAt L)) := by
  obtain ⟨h₁, p, halloc, hsome, hnone⟩ := @heapAlloc_spec _ L src regionBytes hi hsrc size
  by_cases hp : p = 0
  · refine ⟨h₁, 0, ?_, fun hc => absurd rfl hc, fun _ => (hnone hp).1⟩
    simp [moveBlock, halloc, hp]
  · obtain ⟨-, L1, b', t, rfl, ht, hi1, hnew, hused1⟩ := hsome hp
    have hdr : HDR = 4 := rfl
    obtain ⟨r, -, -, -, hend, hhi, -, -, h16⟩ := hi.wf.block hb
    simp only at hend h16
    have hsub : sub32 s HDR = s - HDR := sub32_of_le (by lia) (by lia)
    have hi2 : HeapInv { h₁ with mem := copy h₁.mem (b' + HDR) (b + HDR) (sub32 s HDR) } L1
        (FreeAt L1) :=
      hi1.write_payload ((hused1 b' t).mpr (Or.inr ⟨rfl, rfl⟩)) fun a ha => if_neg fun hin =>
        ha ⟨hin.1, by lia⟩
    have hne : b' ≠ b := fun heq => hnew s (heq ▸ hb)
    obtain ⟨m3, L2, hfree, hi3, hused2⟩ := heapFree_spec hi2 ((hused1 b s).mpr (Or.inl hb))
    refine ⟨{ h₁ with mem := m3, nFree := add32 h₁.nFree 1 }, b' + HDR, ?_,
      fun _ => ⟨L2, b', t, rfl, ht, ?_, Or.inr hnew, fun y u => ?_⟩, fun hc => absurd hc hp⟩
    · exact moveBlock_eq halloc hp hfree
    · exact ⟨hi3.wf, hi3.ctl, hi3.granted, hi3.tagged, hi3.free, hi3.listed⟩
    · rw [hused2, hused1]
      constructor
      · rintro ⟨hy | hy, hyb⟩
        · exact Or.inl ⟨hy, hyb⟩
        · exact Or.inr hy
      · rintro (⟨hy, hyb⟩ | ⟨rfl, rfl⟩)
        · exact ⟨Or.inl hy, hyb⟩
        · exact ⟨Or.inr ⟨rfl, rfl⟩, hne⟩

/-- **`heapRealloc`** of a live payload: size 0 frees it; otherwise it ends up in a block
for the request, in place or moved, or the result is 0 and the blocks are as they were. -/
theorem heapRealloc_spec {regionBytes : Nat} (hi : HeapInv h L (FreeAt L)) (hsrc : Honest src)
    {b s : Nat} (hb : UsedAt L b s) (size : Nat) :
    ∃ h' p, heapRealloc src regionBytes h (b + HDR) size = some (h', p) ∧
      (size = 0 → p = 0 ∧ ∃ L', HeapInv h' L' (FreeAt L') ∧
        ∀ y u, UsedAt L' y u ↔ UsedAt L y u ∧ y ≠ b) ∧
      (size ≠ 0 → p ≠ 0 → Moved L b h' p (size + HDR)) ∧
      (size ≠ 0 → p = 0 → HeapInv h' L (FreeAt L)) := by
  have hi0 : HeapInv { h with nRealloc := add32 h.nRealloc 1 } L (FreeAt L) :=
    ⟨hi.wf, hi.ctl, hi.granted, hi.tagged, hi.free, hi.listed⟩
  have hpay : ∀ b, b + HDR ≠ 0 := fun b => by rw [HDR]; lia
  rw [heapRealloc]
  simp only [if_neg (hpay b)]
  by_cases h0 : size = 0
  · obtain ⟨m', L', hfree, hi', hused⟩ := heapFree_spec hi0 hb
    refine ⟨{ h with nRealloc := add32 h.nRealloc 1, mem := m', nFree := add32 h.nFree 1 }, 0, ?_,
      fun _ => ⟨rfl, L', ?_, hused⟩, fun hc => absurd h0 hc, fun hc => absurd h0 hc⟩
    · simp [if_pos h0, hfree]
    · exact ⟨hi'.wf, hi'.ctl, hi'.granted, hi'.tagged, hi'.free, hi'.listed⟩
  · simp only [if_neg h0]
    by_cases hmax : size > MAX_REQUEST
    · refine ⟨_, 0, ?_, fun hc => absurd hc h0, fun _ hc => absurd rfl hc, fun _ _ => hi0⟩
      simp only [if_pos hmax]
    · have hle : size ≤ MAX_REQUEST := Nat.le_of_not_lt hmax
      obtain ⟨hfit, h8, h16, hlt, -⟩ := blockFor_spec hle
      obtain ⟨r, -, -, -, hend, hhi, -, -, h16'⟩ := hi.wf.block hb
      simp only at hend h16'
      have hdr : HDR = 4 := rfl
      have hback : sub32 (b + HDR) HDR = b := by
        rw [sub32_of_le (Nat.le_add_left _ _) (by lia), Nat.add_sub_cancel]
      have hsize : ({ h with nRealloc := add32 h.nRealloc 1 } : HeapState).sizeAt b = s :=
        hi0.sizeAt hb
      -- a block of the right size, and no smaller than the request
      have hmono : ∀ h' p, Moved L b h' p (blockFor size) → Moved L b h' p (size + HDR) := by
        rintro h' p ⟨L', b', t, hp, ht, hrest⟩
        exact ⟨L', b', t, hp, by lia, hrest⟩
      simp only [if_neg hmax, hback, hsize]
      by_cases hshrink : blockFor size ≤ s
      · obtain ⟨h', heq, hmoved⟩ := shrinkTail_moved hi0 hb hshrink h8 h16
        refine ⟨h', b + HDR, ?_, fun hc => absurd hc h0, fun _ _ => hmono _ _ hmoved,
          fun _ hc => absurd hc (hpay b)⟩
        simp [if_pos hshrink, heq]
      · simp only [if_neg hshrink]
        by_cases hgrow : ({ h with nRealloc := add32 h.nRealloc 1 } : HeapState).load (add32 b s) &&&
            INUSE = 0 ∧ add32 s (({ h with nRealloc := add32 h.nRealloc 1 } : HeapState).sizeAt
              (add32 b s)) ≥ blockFor size
        · obtain ⟨m1, L1, habsorb, hi1, hused1⟩ := absorbNext_spec hi0 hb hgrow.1
          obtain ⟨h', heq, L', b', t, hp, ht, hi', hb', hused'⟩ := shrinkTail_moved hi1
            ((hused1 b _).mpr (Or.inr ⟨rfl, rfl⟩)) hgrow.2 h8 h16
          refine ⟨h', b + HDR, ?_, fun hc => absurd hc h0, fun _ _ => hmono _ _ ?_,
            fun _ hc => absurd hc (hpay b)⟩
          · simp [if_pos hgrow, habsorb, heq]
          · have hbb : b' = b := by
              rw [HDR] at hp
              lia
            subst hbb
            refine ⟨L', b', t, hp, ht, hi', Or.inl rfl, fun y u => ?_⟩
            rw [hused', hused1]
            constructor
            · rintro (⟨hy | hy, hne⟩ | hy)
              · exact Or.inl hy
              · exact absurd hy.1 hne
              · exact Or.inr hy
            · rintro (hy | hy)
              · exact Or.inl ⟨Or.inl hy, hy.2⟩
              · exact Or.inr hy
        · obtain ⟨h', p, hmove, hmoved, hnone⟩ := @moveBlock_spec _ L src regionBytes hi0 hsrc b s
            size hb (Nat.lt_of_not_le hshrink)
          refine ⟨h', p, ?_, fun hc => absurd hc h0, fun _ hp => hmono _ _ (hmoved hp),
            fun _ hp => hnone hp⟩
          simp only [if_neg hgrow, hmove]

end

end Js2Wasm.Heap
