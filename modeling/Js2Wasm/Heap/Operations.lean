import Js2Wasm.Heap.Invariant

/-! # Blocks taken and released

What the block operations make of the layout: taking a free block, splitting it or
not (`takeBlock_spec`), and releasing an allocated one, merged with its free neighbours
(`heapFree_spec`).  Each turns a layout into another and says which blocks are allocated
in it.
-/
namespace Js2Wasm.Heap
open WordMemory List

/-! ### The tags at a hole -/

section
variable {m : Memory} {z : Focus} {mid : List Block} {b : Block}

theorem Focus.header (ht : Tagged m (z.plug (b :: mid))) : load32 m z.addr = tagWord z.flag b :=
  ht _ (Focus.mem_allTags_plug.mpr (Or.inl mem_cons_self))

theorem Focus.succ (ht : Tagged m (z.plug mid)) :
    load32 m (z.addr + span mid) = headWord (outFlag z.flag mid) z.post :=
  ht _ (Focus.mem_allTags_plug.mpr (Or.inr (Or.inl rfl)))

/-- `size | (hdr(b) & PINUSE)`. -/
theorem size_or_header {s w : Nat} {p : Bool} {c : Block} (hw : w = tagWord p c)
    (hc : c.size % 8 = 0) (hs : s % 8 = 0) : s ||| (w &&& PINUSE) = tagWord p ⟨s, false⟩ := by
  rw [hw, tagWord_pinuse hc, size_or_pinuse hs]

variable {y t : Nat}

theorem FreeAt.plug_iff : FreeAt (z.plug mid) y t ↔
    (y, ⟨t, false⟩) ∈ place z.addr mid ∨ z.Rest (span mid) (y, ⟨t, false⟩) :=
  Focus.mem_allBlocks_plug

theorem UsedAt.plug_iff : UsedAt (z.plug mid) y t ↔
    (y, ⟨t, true⟩) ∈ place z.addr mid ∨ z.Rest (span mid) (y, ⟨t, true⟩) :=
  Focus.mem_allBlocks_plug

/-- A block in the hole is no other block. -/
theorem Focus.rest_ne (h : LayoutWF (z.plug mid)) {y y' : Nat} {b b' : Block}
    (hx : z.Rest (span mid) (y, b)) (hx' : (y', b') ∈ place z.addr mid) : y ≠ y' := by
  have h1 := Focus.rest_bounds h hx
  have h2 := place_bounds (Focus.fits h).2.1 hx'
  have h3 : 16 ≤ b.size := by
    obtain ⟨r, -, -, -, -, -, -, -, h16⟩ :=
      h.block (Focus.mem_allBlocks_plug.mpr (Or.inr hx))
    exact h16
  lia

end

/-- The other blocks, free or allocated. -/
def Focus.RestFree (z : Focus) (n : Nat) (y t : Nat) : Prop := z.Rest n (y, ⟨t, false⟩)
def Focus.RestUsed (z : Focus) (n : Nat) (y t : Nat) : Prop := z.Rest n (y, ⟨t, true⟩)

/-- The blocks of the hole are in hand: off the lists, whether free or not. -/
def InHand (h : HeapState) (z : Focus) (mid : List Block) : Prop :=
  HeapInv h (z.plug mid) (z.RestFree (span mid))

section
variable {h : HeapState} {z : Focus} {mid mid' : List Block} {m' : Memory}

/-- Rewriting the blocks in hand. -/
theorem InHand.replug (hi : InHand h z mid) (hspan : span mid' = span mid)
    (hfits : Fits z.flag mid') (hpost : Fits (outFlag z.flag mid') z.post)
    (hsame : ∀ a, a % 4 = 0 → (a < z.addr ∨ z.addr + span mid < a) →
      load32 m' a = load32 h.mem a)
    (hmid : ∀ c ∈ segTags z.flag z.addr mid', load32 m' c.1 = c.2)
    (hsucc : load32 m' (z.addr + span mid) = headWord (outFlag z.flag mid') z.post) :
    InHand { h with mem := m' } z mid' := by
  rw [InHand, hspan]
  exact HeapInv.replug hi (fun y s hy => hy) hspan hfits hpost hsame hmid hsucc

variable {s : Nat}

/-- An allocated block is always in hand. -/
theorem inHand_used : InHand h z [⟨s, true⟩] ↔
    HeapInv h (z.plug [⟨s, true⟩]) (FreeAt (z.plug [⟨s, true⟩])) := by
  have hF : ∀ y t, FreeAt (z.plug [⟨s, true⟩]) y t ↔ z.RestFree (span [⟨s, true⟩]) y t :=
    fun y t => by
      rw [FreeAt.plug_iff]
      simp [Focus.RestFree, place]
  exact ⟨fun hi => HeapInv.congr hi fun y t => (hF y t).symm, fun hi => hi.congr hF⟩

/-- A free block is in hand once it is off its list. -/
theorem HeapInv.take (hi : HeapInv h (z.plug [⟨s, false⟩]) (FreeAt (z.plug [⟨s, false⟩]))) :
    ∃ m', heapUnlink h z.addr = { h with mem := m' } ∧
      InHand { h with mem := m' } z [⟨s, false⟩] := by
  obtain ⟨m', heq, hi'⟩ := hi.unlink (FreeAt.plug_iff.mpr (Or.inl mem_cons_self))
  refine ⟨m', heq, hi'.congr fun y t => ?_⟩
  rw [FreeAt.plug_iff]
  constructor
  · rintro ⟨hy | hy, hne⟩
    · exact absurd (Prod.mk.inj (mem_singleton.mp hy)).1 hne
    · exact hy
  · exact fun hy => ⟨Or.inr hy, Focus.rest_ne hi.wf hy mem_cons_self⟩

/-- A free block in hand goes on its list. -/
theorem InHand.file (hi : InHand h z [⟨s, false⟩]) :
    ∃ m', heapInsert h z.addr s = { h with mem := m' } ∧
      HeapInv { h with mem := m' } (z.plug [⟨s, false⟩]) (FreeAt (z.plug [⟨s, false⟩])) := by
  obtain ⟨m', heq, hi'⟩ := HeapInv.insert hi (FreeAt.plug_iff.mpr (Or.inl mem_cons_self))
    fun t ht => Focus.rest_ne hi.wf ht mem_cons_self rfl
  refine ⟨m', heq, hi'.congr fun y t => ?_⟩
  rw [FreeAt.plug_iff]
  simp [insertFree, Focus.RestFree, place, or_comm]

end

/-- `size | (hdr(b) & PINUSE) | INUSE` in the header and PINUSE in the next one: the hole
becomes one allocated block. -/
theorem InHand.markUsed {h : HeapState} {z : Focus} {c : Block} {mid : List Block} {s : Nat}
    (hi : InHand h z (c :: mid)) (hs : span (c :: mid) = s) :
    ∃ m', (h.store z.addr (s ||| (h.load z.addr &&& PINUSE) ||| INUSE)).store (z.addr + s)
        ((h.store z.addr (s ||| (h.load z.addr &&& PINUSE) ||| INUSE)).load (z.addr + s) |||
          PINUSE) = { h with mem := m' } ∧
      InHand { h with mem := m' } z [⟨s, true⟩] := by
  obtain ⟨-, hfits, hpost⟩ := Focus.fits hi.wf
  obtain ⟨hpos, hlo, hbase, hmod, hs8, hend, hhi⟩ := Focus.bounds hi.wf
  have h16 : 16 ≤ s := by
    rw [← hs, span_cons]
    exact hfits.2.1.trans (Nat.le_add_right _ _)
  have hhead : h.load z.addr = tagWord z.flag c := Focus.header hi.tagged
  have hsucc : load32 h.mem (z.addr + s) = headWord (outFlag z.flag (c :: mid)) z.post := by
    rw [← hs]
    exact Focus.succ hi.tagged
  rw [hs] at hs8 hend
  have hword : s ||| (h.load z.addr &&& PINUSE) ||| INUSE = tagWord z.flag ⟨s, true⟩ := by
    rw [size_or_header hhead hfits.1 hs8, tagWord_or_inuse hs8]
  have hword' : headWord (outFlag z.flag (c :: mid)) z.post ||| PINUSE = headWord true z.post :=
    headWord_or_pinuse hpost
  have hwlt : headWord true z.post < 2 ^ 32 := by
    have hlt := load32_lt h.mem (z.addr + s)
    rw [← hword', ← hsucc]
    exact @Nat.or_lt_two_pow _ _ 32 hlt (by decide)
  have htlt : tagWord z.flag ⟨s, true⟩ < 2 ^ 32 := tagWord_lt (by simp only; lia)
  have hload : (h.store z.addr (tagWord z.flag ⟨s, true⟩)).load (z.addr + s) =
      headWord (outFlag z.flag (c :: mid)) z.post := by
    rw [← hsucc]
    exact load32_store32_of_ne (by lia) (by lia) (by lia)
  rw [hword, hload, hword']
  refine ⟨_, rfl, hi.replug ?_ ⟨hs8, h16, fun _ => rfl, trivial⟩ ?_ ?_ ?_ ?_⟩
  · rw [hs, span_cons, span_nil, Nat.add_zero]
  · exact Fits.of_any hpost
  · intro a ha hout
    rw [hs] at hout
    exact (load32_store32_of_ne (by lia) ha (by lia)).trans
      (load32_store32_of_ne (by lia) ha (by lia))
  · intro w hw
    simp only [segTags, footer, if_true, append_nil, mem_singleton] at hw
    subst hw
    exact (load32_store32_of_ne (by lia) (by simp only; lia) (by simp only; lia)).trans
      (load32_store32_self htlt)
  · rw [hs]
    exact load32_store32_self hwlt

/-! ### Taking a free block -/

section
variable {h : HeapState} {L : List Region}

/-- **Taking `blk` bytes from a free block** leaves an allocated block of at least
`blk` bytes there and all other allocated blocks alone. -/
theorem takeBlock_spec (hi : HeapInv h L (FreeAt L)) {b s blk : Nat} (hb : FreeAt L b s)
    (hle : blk ≤ s) (h8 : blk % 8 = 0) (h16 : 16 ≤ blk) :
    ∃ m' L' t, takeBlock h b blk = ({ h with mem := m' }, b + HDR) ∧
      HeapInv { h with mem := m' } L' (FreeAt L') ∧ blk ≤ t ∧
      ∀ y u, UsedAt L' y u ↔ UsedAt L y u ∨ (y = b ∧ u = t) := by
  obtain ⟨z, rfl, rfl⟩ := exists_focus hb
  obtain ⟨m1, hunlink, hi1⟩ := hi.take
  obtain ⟨-, ⟨hs8, hs16, hflag, -⟩, hpost⟩ := Focus.fits hi.wf
  obtain ⟨hpos, hlo, hbase, hmod, -, hend, hhi⟩ := Focus.bounds hi.wf
  simp only [outFlag, span_cons, span_nil, Nat.add_zero] at hs8 hs16 hpost hend
  have hmin : MIN_BLOCK = 16 := rfl
  have hdr : HDR = 4 := rfl
  have hflag' : z.flag = true := by
    by_contra hf
    exact absurd (hflag (Bool.eq_false_iff.mpr hf)) Bool.false_ne_true
  have hsize : h.sizeAt z.addr = s := hi.sizeAt hb
  have hhead : load32 m1 z.addr = tagWord true ⟨s, false⟩ := by
    rw [← hflag']
    exact Focus.header hi1.tagged
  have hsucc : load32 m1 (z.addr + s) = headWord false z.post := Focus.succ hi1.tagged
  have hsub : sub32 s blk = s - blk := sub32_of_le hle (by lia)
  have hnext : add32 z.addr s = z.addr + s := add32_of_lt (by lia)
  have hpay : add32 z.addr HDR = z.addr + HDR := add32_of_lt (by lia)
  by_cases hsplit : s - blk ≥ MIN_BLOCK
  · -- the rest stands alone: `blk` bytes allocated, then a free block
    have hrest : add32 z.addr blk = z.addr + blk := add32_of_lt (by lia)
    have hfoot : sub32 (z.addr + s) HDR = z.addr + s - HDR := sub32_of_le (by lia) (by lia)
    have hword : blk ||| (tagWord true ⟨s, false⟩ &&& PINUSE) ||| INUSE =
        tagWord true ⟨blk, true⟩ := by
      rw [size_or_header rfl hs8 h8, tagWord_or_inuse h8]
    have hword' : s - blk ||| PINUSE = tagWord true ⟨s - blk, false⟩ :=
      size_or_pinuse (by lia) true
    generalize hm2 : store32 (store32 (store32 m1 z.addr (tagWord true ⟨blk, true⟩))
      (z.addr + blk) (tagWord true ⟨s - blk, false⟩)) (z.addr + s - HDR) (s - blk) = m2
    have hm : ∀ a, a % 4 = 0 → load32 m2 a = if a = z.addr + s - HDR then s - blk
        else if a = z.addr + blk then tagWord true ⟨s - blk, false⟩
        else if a = z.addr then tagWord true ⟨blk, true⟩ else load32 m1 a := fun a ha => by
      rw [← hm2, load32_store32 (by lia) ha (by lia),
        load32_store32 (by lia) ha (tagWord_lt (by simp only; lia)),
        load32_store32 (by lia) ha (tagWord_lt (by simp only; lia))]
    have hi2 : InHand { h with mem := m2 } z [⟨blk, true⟩, ⟨s - blk, false⟩] := by
      refine hi1.replug (by simp only [span_cons, span_nil]; lia) ?_ hpost ?_ ?_ ?_
      · exact ⟨h8, h16, fun _ => rfl, by simp only; lia, hsplit, (fun hc => by cases hc),
          trivial⟩
      · intro a ha hout
        simp only [span_cons, span_nil] at hout
        rw [hm a ha, if_neg (by lia), if_neg (by lia), if_neg (by lia)]
      · intro c hc
        rw [hflag'] at hc
        simp only [segTags, footer, if_true, nil_append, append_nil, cons_append,
          mem_cons, not_mem_nil, or_false, Bool.false_eq_true, if_false] at hc
        rcases hc with rfl | rfl | rfl
        · rw [hm _ (by lia), if_neg (by lia), if_neg (by lia), if_pos rfl]
        · rw [hm _ (by lia), if_neg (by lia), if_pos rfl]
        · have hfooter : z.addr + blk + (s - blk) - HDR = z.addr + s - HDR := by lia
          rw [hm _ (by simp only; lia)]
          exact if_pos hfooter
      · show load32 m2 (z.addr + s) = headWord false z.post
        rw [hm _ (by lia), if_neg (by lia), if_neg (by lia), if_neg (by lia)]
        exact hsucc
    have hfree : FreeAt (z.plug [⟨blk, true⟩, ⟨s - blk, false⟩]) (z.addr + blk) (s - blk) :=
      FreeAt.plug_iff.mpr (Or.inl (mem_cons_of_mem _ mem_cons_self))
    obtain ⟨m3, hinsert, hi3⟩ := HeapInv.insert hi2 hfree fun t ht =>
      Focus.rest_ne hi2.wf ht (mem_cons_of_mem _ mem_cons_self) rfl
    refine ⟨m3, _, blk, ?_, hi3.congr fun y t => ?_, le_rfl, fun y u => ?_⟩
    · have hload : ({ h with mem := m1 } : HeapState).load z.addr = tagWord true ⟨s, false⟩ := hhead
      simp only [takeBlock, hsize, hunlink, hsub, if_pos hsplit, hload, hword, hword', hrest, hnext,
        hpay, hfoot, HeapState.store, hm2, hinsert]
    · rw [FreeAt.plug_iff]
      simp [insertFree, Focus.RestFree, place, or_comm]
    · have hspan : span [⟨blk, true⟩, ⟨s - blk, false⟩] = span [(⟨s, false⟩ : Block)] := by
        simp only [span_cons, span_nil]
        lia
      rw [UsedAt.plug_iff, UsedAt.plug_iff, hspan]
      simp [place, or_comm]
  · -- too small to stand alone: the whole block is handed out
    obtain ⟨m2, hmark, hi2⟩ := hi1.markUsed (Nat.add_zero s)
    refine ⟨m2, _, s, ?_, inHand_used.mp hi2, hle, fun y u => ?_⟩
    · simp only [takeBlock, hsize, hunlink, hsub, if_neg hsplit, hnext, hpay, hmark]
    · rw [UsedAt.plug_iff, UsedAt.plug_iff]
      simp [place, or_comm]

end

/-! ### Releasing an allocated block -/

section
variable {h : HeapState} {z : Focus}

variable {c : Block} {s : Nat} {mid : List Block}

/-- The hole becomes one free block, on its list. -/
theorem InHand.fileFree (hi : InHand h z (c :: mid)) (hs : span (c :: mid) = s)
    (hflag : z.flag = true) (hpost : Fits false z.post) :
    ∃ m', fileFree h z.addr s = { h with mem := m' } ∧
      HeapInv { h with mem := m' } (z.plug [⟨s, false⟩]) (FreeAt (z.plug [⟨s, false⟩])) := by
  obtain ⟨-, hfits, -⟩ := Focus.fits hi.wf
  obtain ⟨hpos, hlo, hbase, hmod, hs8, hend, hhi⟩ := Focus.bounds hi.wf
  have hdr : HDR = 4 := rfl
  have h16 : 16 ≤ s := by
    rw [← hs, span_cons]
    exact hfits.2.1.trans (Nat.le_add_right _ _)
  have hhead : h.load z.addr = tagWord true c := by
    rw [← hflag]
    exact Focus.header hi.tagged
  have hsucc : load32 h.mem (z.addr + s) = headWord (outFlag z.flag (c :: mid)) z.post := by
    rw [← hs]
    exact Focus.succ hi.tagged
  rw [hs] at hs8 hend
  have hnext : add32 z.addr s = z.addr + s := add32_of_lt (by lia)
  have hfoot : sub32 (z.addr + s) HDR = z.addr + s - HDR := sub32_of_le (by lia) (by lia)
  have hword : s ||| (h.load z.addr &&& PINUSE) = tagWord true ⟨s, false⟩ :=
    size_or_header hhead hfits.1 hs8
  have hword' : headWord (outFlag z.flag (c :: mid)) z.post &&& 0xfffffffd =
      headWord false z.post := headWord_and_pinuse hpost (by lia)
  have hwlt : headWord false z.post < 2 ^ 32 := by
    have hlt := load32_lt h.mem (z.addr + s)
    rw [← hword', ← hsucc]
    exact Nat.and_le_left.trans_lt hlt
  have htlt : tagWord true ⟨s, false⟩ < 2 ^ 32 := tagWord_lt (by simp only; lia)
  have hload : ((h.store z.addr (tagWord true ⟨s, false⟩)).store (z.addr + s - HDR) s).load
      (z.addr + s) = headWord (outFlag z.flag (c :: mid)) z.post := by
    rw [← hsucc]
    exact (load32_store32_of_ne (by lia) (by lia) (by lia)).trans
      (load32_store32_of_ne (by lia) (by lia) (by lia))
  generalize hm1 : store32 (store32 (store32 h.mem z.addr (tagWord true ⟨s, false⟩))
    (z.addr + s - HDR) s) (z.addr + s) (headWord false z.post) = m1
  have hm : ∀ a, a % 4 = 0 → load32 m1 a = if a = z.addr + s then headWord false z.post
      else if a = z.addr + s - HDR then s
      else if a = z.addr then tagWord true ⟨s, false⟩ else load32 h.mem a := fun a ha => by
    rw [← hm1, load32_store32 (by lia) ha hwlt, load32_store32 (by lia) ha (by lia),
      load32_store32 (by lia) ha htlt]
  have hspan : span [(⟨s, false⟩ : Block)] = span (c :: mid) := by
    rw [hs, span_cons, span_nil, Nat.add_zero]
  have hi1 : InHand { h with mem := m1 } z [⟨s, false⟩] := by
    refine hi.replug hspan ⟨hs8, h16, fun hc => ?_, trivial⟩ hpost ?_ ?_ ?_
    · rw [hflag] at hc
      exact nomatch hc
    · intro a ha hout
      rw [hs] at hout
      rw [hm a ha, if_neg (by lia), if_neg (by lia), if_neg (by lia)]
    · intro w hw
      rw [hflag] at hw
      simp only [segTags, footer, Bool.false_eq_true, if_false, append_nil,
        mem_cons, not_mem_nil, or_false] at hw
      rcases hw with rfl | hw
      · rw [hm _ (by lia), if_neg (by lia), if_neg (by lia), if_pos rfl]
      · obtain rfl : w = (z.addr + s - HDR, s) := by simpa using hw
        rw [hm _ (by simp only; lia), if_neg (by simp only; lia), if_pos rfl]
    · rw [hs, hm _ (by lia), if_pos rfl]
      rfl
  obtain ⟨m2, hinsert, hi2⟩ := hi1.file
  refine ⟨m2, ?_, hi2⟩
  simp only [Heap.fileFree, hword, hnext, hfoot, hload, hword']
  simp only [HeapState.store, hm1]
  exact hinsert

/-- Widening the hole by the next block. -/
theorem Focus.rest_post {b : Block} {post : List Block} (hz : z.post = b :: post) (n : Nat)
    (x : Nat × Block) :
    z.Rest n x ↔ x = (z.addr + n, b) ∨ ({ z with post := post } : Focus).Rest (n + b.size) x := by
  have haddr : ({ z with post := post } : Focus).addr = z.addr := rfl
  rw [Focus.Rest, Focus.Rest, hz, place, mem_cons, haddr, Nat.add_assoc]
  tauto

/-- Widening the hole by the block before. -/
theorem Focus.rest_pre {d : Block} {pre : List Block} (hz : z.pre = pre ++ [d]) (n : Nat)
    (x : Nat × Block) :
    z.Rest n x ↔ x = (z.base + span pre, d) ∨
      ({ z with pre := pre } : Focus).Rest (d.size + n) x := by
  have haddr : z.addr + n = ({ z with pre := pre } : Focus).addr + (d.size + n) := by
    show z.base + span z.pre + n = z.base + span pre + (d.size + n)
    rw [hz, span_append, span_cons, span_nil]
    lia
  rw [Focus.Rest, Focus.Rest, haddr, hz, place_append, mem_append]
  simp only [place, mem_singleton]
  tauto

/-- A block taken off its list joins those in hand. -/
theorem InHand.unlink {mid : List Block} (hi : InHand h z mid) {z' : Focus} {mid' : List Block}
    {x s : Nat} (hx : (x, ⟨s, false⟩) ∈ place z'.addr mid') (hplug : z'.plug mid' = z.plug mid)
    (hrest : ∀ w, z.Rest (span mid) w ↔ w = (x, ⟨s, false⟩) ∨ z'.Rest (span mid') w) :
    ∃ m', heapUnlink h x = { h with mem := m' } ∧ InHand { h with mem := m' } z' mid' := by
  obtain ⟨m', heq, hi'⟩ := HeapInv.unlink hi ((hrest (x, ⟨s, false⟩)).mpr (Or.inl rfl))
  rw [← hplug] at hi'
  refine ⟨m', heq, hi'.congr fun y t => ?_⟩
  rw [Focus.RestFree, hrest]
  constructor
  · rintro ⟨hy | hy, hne⟩
    · exact absurd (Prod.mk.inj hy).1 hne
    · exact hy
  · exact fun hy => ⟨Or.inr hy, Focus.rest_ne hi'.wf hy hx⟩

/-- **Forward coalescing** brings the next block in hand if it is free. -/
theorem InHand.coalesceForward (hi : InHand h z [⟨s, true⟩]) :
    ∃ m' z' mid', coalesceForward h z.addr s = ({ h with mem := m' }, span (⟨s, true⟩ :: mid')) ∧
      InHand { h with mem := m' } z' (⟨s, true⟩ :: mid') ∧
      z'.plug (⟨s, true⟩ :: mid') = z.plug [⟨s, true⟩] ∧ z'.addr = z.addr ∧
      Fits false z'.post ∧
      ∀ y t, z'.RestUsed (span (⟨s, true⟩ :: mid')) y t ↔ z.RestUsed (span [⟨s, true⟩]) y t := by
  obtain ⟨-, -, hpost⟩ := Focus.fits hi.wf
  obtain ⟨-, -, -, -, -, hend, hhi⟩ := Focus.bounds hi.wf
  have hsucc : h.load (z.addr + s) = headWord true z.post := Focus.succ hi.tagged
  have hspan : span [(⟨s, true⟩ : Block)] = s := Nat.add_zero s
  rw [hspan] at hend
  have hnext : add32 z.addr s = z.addr + s := add32_of_lt (by lia)
  cases hz : z.post with
  | nil =>
    rw [hz] at hsucc
    refine ⟨h.mem, z, [], ?_, hi, rfl, rfl, by rw [hz]; trivial, fun y t => Iff.rfl⟩
    rw [hspan, Heap.coalesceForward]
    simp only [hnext, hsucc]
    rfl
  | cons b post =>
    rw [hz] at hpost hsucc hend
    have hword : h.load (z.addr + s) &&& INUSE = b.used.toNat := by
      rw [hsucc]
      exact tagWord_inuse hpost.1
    by_cases hb : b.used = true
    · refine ⟨h.mem, z, [], ?_, hi, rfl, rfl, ?_, fun y t => Iff.rfl⟩
      · rw [hspan, Heap.coalesceForward]
        simp only [hnext, hword, hb]
        rfl
      · rw [hz]
        exact ⟨hpost.1, hpost.2.1, fun _ => hb, hpost.2.2.2⟩
    · -- the next block is free
      obtain ⟨t, rfl⟩ : ∃ t, b = ⟨t, false⟩ :=
        ⟨b.size, by cases b; simp only [Bool.not_eq_true] at hb; subst hb; rfl⟩
      have hrest := Focus.rest_post hz s
      have hplug : ({ z with post := post } : Focus).plug [⟨s, true⟩, ⟨t, false⟩] =
          z.plug [⟨s, true⟩] := by
        simp [Focus.plug, Focus.region, hz]
      obtain ⟨m', hunlink, hi'⟩ := @InHand.unlink h z [⟨s, true⟩] hi { z with post := post }
        [⟨s, true⟩, ⟨t, false⟩] (z.addr + s) t (mem_cons_of_mem _ mem_cons_self) hplug
        (by
          intro w
          rw [hspan, hrest w]
          simp only [span_cons, span_nil, Nat.add_zero])
      have hsize : ({ h with mem := m' } : HeapState).sizeAt (z.addr + s) = t :=
        HeapInv.sizeAt hi' (Focus.mem_allBlocks_plug.mpr
          (Or.inl (mem_cons_of_mem _ mem_cons_self)))
      rw [span_cons] at hend
      refine ⟨m', { z with post := post }, [⟨t, false⟩], ?_, hi', hplug, rfl, ?_, fun y u => ?_⟩
      · rw [Heap.coalesceForward]
        simp only [hnext, hword, hunlink, hsize, span_cons, span_nil]
        rw [add32_of_lt (by simp only at hend; lia)]
        rfl
      · exact hpost.2.2.2
      · rw [Focus.RestUsed, Focus.RestUsed, hspan, hrest]
        simp [span_cons, span_nil, Block.mk.injEq, Bool.true_eq_false]

/-- **Backward coalescing** brings the block before in hand if it is free. -/
theorem InHand.coalesceBackward (hi : InHand h z (c :: mid)) (hs : span (c :: mid) = s)
    (hpost : Fits false z.post) :
    ∃ m' z' c' mid', coalesceBackward h z.addr s =
        ({ h with mem := m' }, z'.addr, span (c' :: mid')) ∧
      InHand { h with mem := m' } z' (c' :: mid') ∧
      z'.plug (c' :: mid') = z.plug (c :: mid) ∧ z'.flag = true ∧ Fits false z'.post ∧
      z'.addr ≤ z.addr ∧ z.addr + s = z'.addr + span (c' :: mid') ∧
      ∀ y t, z'.RestUsed (span (c' :: mid')) y t ↔ z.RestUsed (span (c :: mid)) y t := by
  obtain ⟨hpre, hfits, -⟩ := Focus.fits hi.wf
  obtain ⟨hpos, hlo, hbase, hmod, hs8, hend, hhi⟩ := Focus.bounds hi.wf
  have hdr : HDR = 4 := rfl
  have hhead : h.load z.addr = tagWord z.flag c := Focus.header hi.tagged
  have hword : h.load z.addr &&& PINUSE = 2 * z.flag.toNat := by
    rw [hhead, tagWord_pinuse hfits.1]
  rw [hs] at hend
  cases hflag : z.flag with
  | true =>
    refine ⟨h.mem, z, c, mid, ?_, hi, rfl, hflag, hpost, le_rfl, by rw [hs],
      fun y t => Iff.rfl⟩
    rw [Heap.coalesceBackward, hword, hflag, hs]
    rfl
  | false =>
    -- the block before is free, and the one before that is not
    obtain hnil | ⟨pre, d, hconcat⟩ := eq_nil_or_concat z.pre
    · rw [Focus.flag, hnil] at hflag
      cases hflag
    · rw [concat_eq_append] at hconcat
      rw [Focus.flag, hconcat, outFlag_append] at hflag
      have hd : d.used = false := hflag
      obtain ⟨t, rfl⟩ : ∃ t, d = ⟨t, false⟩ := ⟨d.size, by cases d; subst hd; rfl⟩
      rw [hconcat, fits_append] at hpre
      obtain ⟨hpre', hd8, hd16, hdflag, -⟩ := hpre
      simp only at hd8 hd16
      have haddr : z.addr = z.base + span pre + t := by
        rw [Focus.addr, hconcat, span_append, span_cons, span_nil, Nat.add_zero, Nat.add_assoc]
      have hfooter : h.load (z.addr - HDR) = t := by
        refine hi.tagged (z.addr - HDR, t) (Focus.mem_allTags_plug.mpr
          (Or.inr (Or.inr (Or.inl ?_))))
        rw [hconcat, segTags_append, haddr]
        refine mem_append_right _ (mem_append_left _ (mem_cons_of_mem _ ?_))
        exact mem_cons_self
      have hrest := Focus.rest_pre hconcat s
      have hplug : ({ z with pre := pre } : Focus).plug (⟨t, false⟩ :: c :: mid) =
          z.plug (c :: mid) := by
        simp [Focus.plug, Focus.region, hconcat]
      obtain ⟨m', hunlink, hi'⟩ := @InHand.unlink h z (c :: mid) hi { z with pre := pre }
        (⟨t, false⟩ :: c :: mid) (z.base + span pre) t mem_cons_self hplug (by
          intro w
          rw [hs, hrest w, span_cons, hs])
      have hb : sub32 z.addr HDR = z.addr - HDR := sub32_of_le (by lia) (by lia)
      have hback : sub32 z.addr t = z.base + span pre := by
        rw [sub32_of_le (by lia) (by lia)]
        lia
      have hsum : add32 s t = span (⟨t, false⟩ :: c :: mid) := by
        rw [add32_of_lt (by lia), span_cons, hs]
        exact Nat.add_comm s t
      refine ⟨m', { z with pre := pre }, ⟨t, false⟩, c :: mid, ?_, hi', hplug, ?_, hpost, ?_, ?_,
        fun y u => ?_⟩
      · rw [Heap.coalesceBackward, if_pos (by rw [hword, Focus.flag, hconcat, outFlag_append]; rfl)]
        simp only [hb, hfooter, hback, hunlink, hsum]
        rfl
      · by_contra hf
        exact absurd (hdflag (Bool.eq_false_iff.mpr hf)) Bool.false_ne_true
      · show z.base + span pre ≤ z.addr
        lia
      · show z.addr + s = z.base + span pre + span (⟨t, false⟩ :: c :: mid)
        rw [span_cons, hs, haddr]
        exact Nat.add_assoc _ _ _
      · rw [Focus.RestUsed, Focus.RestUsed, hs, hrest, span_cons, hs]
        simp [Block.mk.injEq, Bool.true_eq_false]

end

section
variable {h : HeapState} {L : List Region}

/-- **Freeing an allocated block's payload** returns, leaves the block free, merged with
its free neighbours, and all other allocated blocks alone. -/
theorem heapFree_spec (hi : HeapInv h L (FreeAt L)) {b s : Nat} (hb : UsedAt L b s) :
    ∃ m' L', heapFree h (b + HDR) =
        some { h with mem := m', nFree := add32 h.nFree 1 } ∧
      HeapInv { h with mem := m' } L' (FreeAt L') ∧
      ∀ y u, UsedAt L' y u ↔ UsedAt L y u ∧ y ≠ b := by
  obtain ⟨z, rfl, rfl⟩ := exists_focus hb
  have hwf := hi.wf
  obtain ⟨-, hfits, -⟩ := Focus.fits hwf
  obtain ⟨-, -, -, hmod, -, hend, hhi⟩ := Focus.bounds hwf
  have hdr : HDR = 4 := rfl
  have hspan : span [(⟨s, true⟩ : Block)] = s := Nat.add_zero s
  rw [hspan] at hend
  -- the counter is no part of the invariant
  generalize hh0 : ({ h with nFree := add32 h.nFree 1 } : HeapState) = h0
  have hi0 : InHand h0 z [⟨s, true⟩] := by
    rw [← hh0]
    exact inHand_used.mpr ⟨hi.wf, hi.ctl, hi.granted, hi.tagged, hi.free, hi.listed⟩
  have hhead : h0.load z.addr = tagWord z.flag ⟨s, true⟩ := Focus.header hi0.tagged
  have hsize : h0.sizeAt z.addr = s :=
    HeapInv.sizeAt hi0 (Focus.mem_allBlocks_plug.mpr (Or.inl mem_cons_self))
  have hinuse : h0.load z.addr &&& INUSE = 1 := by
    rw [hhead, tagWord_inuse hfits.1]
    rfl
  have h16 : MIN_BLOCK ≤ s := hfits.2.1
  have hmin : MIN_BLOCK = 16 := rfl
  have hpay : sub32 (z.addr + HDR) HDR = z.addr := by
    rw [sub32_of_le (by lia) (by lia)]
    lia
  obtain ⟨m1, z1, mid1, hforward, hi1, hplug1, haddr1, hpost1, hused1⟩ := hi0.coalesceForward
  obtain ⟨m2, z2, c, mid2, hbackward, hi2, hplug2, hflag2, hpost2, hle, hend2, hused2⟩ :=
    hi1.coalesceBackward rfl hpost1
  obtain ⟨m3, hfile, hi3⟩ := hi2.fileFree rfl hflag2 hpost2
  refine ⟨m3, z2.plug [⟨span (c :: mid2), false⟩], ?_, ?_, fun y u => ?_⟩
  · rw [haddr1] at hbackward
    rw [heapFree]
    simp only [hh0]
    rw [if_neg (by lia), hpay, hinuse, if_neg Nat.one_ne_zero, hsize,
      if_neg (Nat.not_lt.mpr h16)]
    simp only [hforward, hbackward, hfile]
    rw [← hh0]
  · rw [← hh0] at hi3
    exact ⟨hi3.wf, hi3.ctl, hi3.granted, hi3.tagged, hi3.free, hi3.listed⟩
  · have hspan2 : span [(⟨span (c :: mid2), false⟩ : Block)] = span (c :: mid2) := Nat.add_zero _
    rw [UsedAt.plug_iff, UsedAt.plug_iff, hspan2]
    have hrest := (hused2 y u).trans (hused1 y u)
    rw [Focus.RestUsed, Focus.RestUsed] at hrest
    rw [hrest]
    simp only [place, mem_singleton, Prod.mk.injEq, Block.mk.injEq, Bool.true_eq_false,
      and_false, false_or, and_true]
    constructor
    · exact fun hy => ⟨Or.inr hy, Focus.rest_ne hwf hy mem_cons_self⟩
    · rintro ⟨hy | hy, hne⟩
      · exact absurd hy.1 hne
      · exact hy

variable {z : Focus} {s b : Nat}

/-- The allocated blocks other than the one in focus. -/
theorem usedAt_ne_iff {y u : Nat} (hwf : LayoutWF (z.plug [⟨s, true⟩])) :
    UsedAt (z.plug [⟨s, true⟩]) y u ∧ y ≠ z.addr ↔ z.RestUsed s y u := by
  have hspan : span [(⟨s, true⟩ : Block)] = s := Nat.add_zero s
  rw [UsedAt.plug_iff, hspan]
  constructor
  · rintro ⟨hy | hy, hne⟩
    · exact absurd (Prod.mk.inj (mem_singleton.mp hy)).1 hne
    · exact hy
  · exact fun hy => ⟨Or.inr hy,
      @Focus.rest_ne z [⟨s, true⟩] hwf _ _ _ _ (hspan.symm ▸ hy) mem_cons_self⟩

/-- **Shrinking an allocated block** leaves at least `blk` bytes allocated there and
frees the tail if it can stand alone. -/
theorem shrinkTail_spec (hi : HeapInv h L (FreeAt L)) {blk : Nat} (hb : UsedAt L b s)
    (hle : blk ≤ s) (h8 : blk % 8 = 0) (h16 : 16 ≤ blk) :
    ∃ h' L' t, shrinkTail h b s blk = some h' ∧ HeapInv h' L' (FreeAt L') ∧ blk ≤ t ∧
      ∀ y u, UsedAt L' y u ↔ (UsedAt L y u ∧ y ≠ b) ∨ (y = b ∧ u = t) := by
  obtain ⟨z, rfl, rfl⟩ := exists_focus hb
  have hwf := hi.wf
  obtain ⟨-, hfits, hpost⟩ := Focus.fits hwf
  obtain ⟨-, -, -, hmod, hs8, hend, hhi⟩ := Focus.bounds hwf
  have hmin : MIN_BLOCK = 16 := rfl
  have hspan : span [(⟨s, true⟩ : Block)] = s := Nat.add_zero s
  rw [hspan] at hs8 hend
  have hsub : sub32 s blk = s - blk := sub32_of_le hle (by lia)
  have hused : ∀ y u, UsedAt (z.plug [⟨s, true⟩]) y u ∧ y ≠ z.addr ↔ z.RestUsed s y u :=
    fun y u => usedAt_ne_iff hwf
  by_cases htail : s - blk ≥ MIN_BLOCK
  · -- the tail becomes an allocated block of its own, and is freed
    have hrest : add32 z.addr blk = z.addr + blk := add32_of_lt (by lia)
    have hpay : add32 (z.addr + blk) HDR = z.addr + blk + HDR :=
      add32_of_lt (by rw [HDR]; lia)
    have hhead : h.load z.addr = tagWord z.flag ⟨s, true⟩ := Focus.header hi.tagged
    have hword : blk ||| (h.load z.addr &&& PINUSE) ||| INUSE = tagWord z.flag ⟨blk, true⟩ := by
      rw [size_or_header hhead hs8 h8, tagWord_or_inuse h8]
    have hword' : s - blk ||| (PINUSE ||| INUSE) = tagWord true ⟨s - blk, true⟩ :=
      size_or_both (by lia)
    have hlt : tagWord z.flag ⟨blk, true⟩ < 2 ^ 32 := tagWord_lt (by simp only; lia)
    have hlt' : tagWord true ⟨s - blk, true⟩ < 2 ^ 32 := tagWord_lt (by simp only; lia)
    have hspan2 : span [(⟨blk, true⟩ : Block), ⟨s - blk, true⟩] = s := by
      simp only [span_cons, span_nil]
      lia
    generalize hm1 : store32 (store32 h.mem z.addr (tagWord z.flag ⟨blk, true⟩)) (z.addr + blk)
      (tagWord true ⟨s - blk, true⟩) = m1
    have hm : ∀ a, a % 4 = 0 → load32 m1 a = if a = z.addr + blk then tagWord true ⟨s - blk, true⟩
        else if a = z.addr then tagWord z.flag ⟨blk, true⟩ else load32 h.mem a := fun a ha => by
      rw [← hm1, load32_store32 (by lia) ha hlt', load32_store32 (by lia) ha hlt]
    have hi1 : InHand { h with mem := m1 } z [⟨blk, true⟩, ⟨s - blk, true⟩] := by
      refine (inHand_used.mpr hi).replug (by rw [hspan2, hspan]) ?_ hpost ?_ ?_ ?_
      · exact ⟨h8, h16, fun _ => rfl, by simp only; lia, htail, fun _ => rfl, trivial⟩
      · intro a ha hout
        rw [hspan] at hout
        rw [hm a ha, if_neg (by lia), if_neg (by lia)]
      · intro w hw
        simp only [segTags, footer, if_true, append_nil, cons_append, nil_append,
          mem_cons, not_mem_nil, or_false] at hw
        rcases hw with rfl | rfl
        · rw [hm _ (by simp only; lia), if_neg (by simp only; lia), if_pos rfl]
        · rw [hm _ (by simp only; lia), if_pos rfl]
      · rw [hspan, hm _ (by lia), if_neg (by lia), if_neg (by lia)]
        exact hspan ▸ Focus.succ hi.tagged
    have hfree : HeapInv { h with mem := m1 } (z.plug [⟨blk, true⟩, ⟨s - blk, true⟩])
        (FreeAt (z.plug [⟨blk, true⟩, ⟨s - blk, true⟩])) := by
      refine HeapInv.congr hi1 fun y t => ?_
      rw [FreeAt.plug_iff]
      simp [Focus.RestFree, place]
    obtain ⟨m2, L2, hfreed, hi2, hused2⟩ := @heapFree_spec _ _ hfree (z.addr + blk) (s - blk)
      (UsedAt.plug_iff.mpr (Or.inl (mem_cons_of_mem _ mem_cons_self)))
    refine ⟨{ h with mem := m2, nFree := add32 h.nFree 1 }, L2, blk, ?_,
      ⟨hi2.wf, hi2.ctl, hi2.granted, hi2.tagged, hi2.free, hi2.listed⟩, le_rfl,
      fun y u => ?_⟩
    · rw [shrinkTail]
      simp only [hsub, if_pos htail, hword, hrest, hword', hpay]
      simp only [HeapState.store, hm1]
      exact hfreed
    · rw [hused2, hused, UsedAt.plug_iff, hspan2]
      simp only [place, mem_cons, not_mem_nil, or_false, Prod.mk.injEq,
        Block.mk.injEq, and_true]
      constructor
      · rintro ⟨(hy | hy) | hy, hne⟩
        · exact Or.inr hy
        · exact absurd hy.1 hne
        · exact Or.inl hy
      · rintro (hy | ⟨rfl, rfl⟩)
        · refine ⟨Or.inr hy, ?_⟩
          exact @Focus.rest_ne z [⟨blk, true⟩, ⟨s - blk, true⟩] hi1.wf _ _ _ ⟨s - blk, true⟩
            (hspan2.symm ▸ hy) (mem_cons_of_mem _ mem_cons_self)
        · exact ⟨Or.inl (Or.inl ⟨rfl, rfl⟩), by lia⟩
  · refine ⟨h, _, s, ?_, hi, hle, fun y u => ?_⟩
    · rw [shrinkTail, hsub, if_neg htail]
    · rw [hused, UsedAt.plug_iff, hspan]
      simp only [place, mem_singleton, Prod.mk.injEq, Block.mk.injEq, and_true]
      exact or_comm

/-- A successor that is not in use is a free block. -/
theorem freeAt_of_inuse (hi : HeapInv h (z.plug [⟨s, true⟩]) (FreeAt L))
    (hnext : h.load (z.addr + s) &&& INUSE = 0) :
    ∃ t, FreeAt (z.plug [⟨s, true⟩]) (z.addr + s) t := by
  have hsucc : h.load (z.addr + s) = headWord true z.post := Focus.succ hi.tagged
  have hpost := (Focus.fits hi.wf).2.2
  cases hz : z.post with
  | nil =>
    rw [hsucc, hz] at hnext
    exact absurd hnext (by decide)
  | cons b post =>
    rw [hz] at hpost hsucc
    rw [hsucc, headWord, tagWord_inuse hpost.1] at hnext
    refine ⟨b.size, FreeAt.plug_iff.mpr (Or.inr (Or.inr (Or.inl ?_)))⟩
    rw [hz]
    cases b with
    | mk t used =>
      cases used with
      | false => exact mem_cons_self
      | true => exact absurd hnext Nat.one_ne_zero

/-- **Absorbing a free successor** makes one allocated block of the two. -/
theorem absorbNext_spec (hi : HeapInv h L (FreeAt L)) (hb : UsedAt L b s)
    (hnext : h.load (add32 b s) &&& INUSE = 0) :
    ∃ m' L', absorbNext h b s = ({ h with mem := m' }, add32 s (h.sizeAt (add32 b s))) ∧
      HeapInv { h with mem := m' } L' (FreeAt L') ∧
      ∀ y u, UsedAt L' y u ↔
        (UsedAt L y u ∧ y ≠ b) ∨ (y = b ∧ u = add32 s (h.sizeAt (add32 b s))) := by
  obtain ⟨z, rfl, rfl⟩ := exists_focus hb
  have hwf := hi.wf
  obtain ⟨-, -, -, -, -, hend, hhi⟩ := Focus.bounds hwf
  have hspan : span [(⟨s, true⟩ : Block)] = s := Nat.add_zero s
  rw [hspan] at hend
  have hsucc : add32 z.addr s = z.addr + s := add32_of_lt (by lia)
  rw [hsucc] at hnext ⊢
  obtain ⟨t, ht⟩ := freeAt_of_inuse hi hnext
  obtain ⟨m1, z1, mid1, hforward, hi1, hplug1, haddr1, -, hused1⟩ :=
    (inHand_used.mpr hi).coalesceForward
  have hsize : h.sizeAt (z.addr + s) = t := hi.sizeAt ht
  have hsize1 : ({ h with mem := m1 } : HeapState).sizeAt (z.addr + s) = t :=
    HeapInv.sizeAt hi1 (hplug1 ▸ ht)
  rw [coalesceForward, hsucc] at hforward
  simp only [if_pos hnext, Prod.mk.injEq] at hforward
  obtain ⟨hunlink, hsum⟩ := hforward
  rw [hunlink, hsize1, ← hsize] at hsum
  obtain ⟨m2, hmark, hi2⟩ := hi1.markUsed hsum.symm
  have hwf2 := (inHand_used.mp hi2).wf
  have hend2 := (Focus.bounds hwf2).2.2.2.2.2.1
  have hhi2 := (Focus.bounds hwf2).2.2.2.2.2.2
  have hspan2 : ∀ n, span [(⟨n, true⟩ : Block)] = n := Nat.add_zero
  rw [hspan2] at hend2
  refine ⟨m2, _, ?_, inHand_used.mp hi2, fun y u => ?_⟩
  · rw [haddr1] at hmark hend2
    have hsucc2 : add32 z.addr (add32 s (h.sizeAt (z.addr + s))) =
        z.addr + add32 s (h.sizeAt (z.addr + s)) := add32_of_lt (by lia)
    rw [hsize] at hmark hsucc2 ⊢
    simp only [absorbNext, hsucc, hunlink, hsize1, hsucc2, hmark]
  · have hrest := hused1 y u
    rw [← hsum, hspan] at hrest
    rw [usedAt_ne_iff hwf, ← hrest, UsedAt.plug_iff, hspan2, haddr1]
    simp only [place, mem_singleton, Prod.mk.injEq, Block.mk.injEq, and_true]
    exact or_comm

end

end Js2Wasm.Heap
