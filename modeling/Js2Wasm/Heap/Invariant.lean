import Js2Wasm.Heap.Layout
import Js2Wasm.Heap.Bins

/-! # A layout in focus

An operation rewrites a few neighbouring blocks.  A `Focus` is a layout with a hole
where they stand; `plug` fills the hole.  If the new blocks take as many bytes as the
old ones, the rest of the layout stays where it is, and only the tags inside the hole and
the one right after it can change (`Focus.retag`).

`HeapInv h L F`: the heap `h` holds the layout `L`, and its bins list exactly the
blocks of `F`.  Between operations `F` is all free blocks; inside one, the blocks in
hand are off the lists.  Everything the operations do to the heap is one of three
steps, each of which keeps the invariant: taking a block off its list
(`HeapInv.unlink`), putting one on (`HeapInv.insert`), and rewriting the blocks of a
hole (`HeapInv.replug`).
-/
namespace Js2Wasm.Heap
open WordMemory List

/-- Memory holds the tags of a layout. -/
def Tagged (m : Memory) (L : List Region) : Prop := ∀ c ∈ allTags L, load32 m c.1 = c.2

structure Focus where
  before : List Region
  lo : Nat
  hi : Nat
  base : Nat
  pre : List Block
  post : List Block
  after : List Region

namespace Focus
variable (z : Focus)

/-- Where the hole begins. -/
def addr : Nat := z.base + span z.pre

/-- Is the block before the hole allocated? -/
def flag : Bool := outFlag true z.pre

def region (mid : List Block) : Region := ⟨z.lo, z.hi, z.base, z.pre ++ (mid ++ z.post)⟩

def plug (mid : List Block) : List Region := z.before ++ z.region mid :: z.after

/-- The blocks outside a hole of `n` bytes. -/
def Rest (n : Nat) (x : Nat × Block) : Prop :=
  x ∈ place z.base z.pre ∨ x ∈ place (z.addr + n) z.post ∨ x ∈ allBlocks z.before ∨
    x ∈ allBlocks z.after

end Focus

theorem exists_of_mem_place {a y : Nat} {b : Block} {bs : List Block} (h : (y, b) ∈ place a bs) :
    ∃ pre post, bs = pre ++ b :: post ∧ y = a + span pre := by
  induction bs generalizing a with
  | nil => cases h
  | cons c bs ih =>
    rcases mem_cons.mp h with heq | h
    · cases heq
      exact ⟨[], bs, rfl, rfl⟩
    · obtain ⟨pre, post, rfl, rfl⟩ := ih h
      exact ⟨c :: pre, post, rfl, by rw [span_cons, Nat.add_assoc]⟩

/-- Every block can be put in focus. -/
theorem exists_focus {L : List Region} {y : Nat} {b : Block} (h : (y, b) ∈ allBlocks L) :
    ∃ z : Focus, L = z.plug [b] ∧ z.addr = y := by
  obtain ⟨⟨lo, hi, base, blocks⟩, hr, hb⟩ := mem_allBlocks.mp h
  obtain ⟨before, after, rfl⟩ := append_of_mem hr
  obtain ⟨pre, post, hblocks, rfl⟩ := exists_of_mem_place hb
  subst hblocks
  exact ⟨⟨before, lo, hi, base, pre, post, after⟩, rfl, rfl⟩

section
variable {z : Focus} {mid mid' : List Block}

theorem Focus.mem_allBlocks_plug {x : Nat × Block} :
    x ∈ allBlocks (z.plug mid) ↔ x ∈ place z.addr mid ∨ z.Rest (span mid) x := by
  have hregion : x ∈ allBlocks (z.plug mid) ↔
      x ∈ allBlocks z.before ∨ x ∈ place z.base (z.pre ++ (mid ++ z.post)) ∨
        x ∈ allBlocks z.after := by
    simp [allBlocks, Focus.plug, Focus.region]
  rw [hregion, place_append, place_append, mem_append, mem_append, Focus.Rest,
    Focus.addr]
  tauto

theorem Focus.region_mem (z : Focus) (mid : List Block) : z.region mid ∈ z.plug mid :=
  mem_append_right _ mem_cons_self

theorem Focus.fits (h : LayoutWF (z.plug mid)) :
    Fits true z.pre ∧ Fits z.flag mid ∧ Fits (outFlag z.flag mid) z.post := by
  have hfits := (h.regions _ (z.region_mem mid)).fits
  rw [Focus.region, fits_append, fits_append] at hfits
  exact hfits

variable {bs : List Block} {p : Bool} {c : Nat × Nat}

theorem Fits.span_mod (h : Fits p bs) : span bs % 8 = 0 := by
  induction bs generalizing p with
  | nil => rfl
  | cons b bs ih =>
    obtain ⟨h8, -, -, hrest⟩ := h
    have := ih hrest
    rw [span_cons]
    lia

/-- The hole lies inside its region, at an address a block may have. -/
theorem Focus.bounds (h : LayoutWF (z.plug mid)) :
    0 < z.lo ∧ z.lo ≤ z.base ∧ z.base ≤ z.addr ∧ z.addr % 8 = 4 ∧ span mid % 8 = 0 ∧
      z.addr + span mid + span z.post + 4 ≤ z.hi ∧ z.hi ≤ 2 ^ 32 := by
  obtain ⟨hpre, hmid, -⟩ := Focus.fits h
  obtain ⟨hpos, hlo, hal, hepi, hhi, -⟩ := h.regions _ (z.region_mem mid)
  simp only [Focus.region, Region.epi, span_append] at hpos hlo hal hepi hhi
  have h1 := hpre.span_mod
  have h2 := hmid.span_mod
  rw [Focus.addr]
  exact ⟨hpos, hlo, Nat.le_add_right _ _, by lia, h2, by lia, hhi⟩

/-- Another region is apart from the region of the hole. -/
theorem Focus.other_apart (h : LayoutWF (z.plug mid)) {r : Region}
    (hr : r ∈ z.before ∨ r ∈ z.after) : r.WF ∧ (r.hi ≤ z.lo ∨ z.hi ≤ r.lo) := by
  have hmem : r ∈ z.plug mid := by
    rw [Focus.plug, mem_append, mem_cons]
    exact hr.imp_right Or.inr
  refine ⟨h.regions r hmem, ?_⟩
  have hd := h.disjoint
  rw [Focus.plug, pairwise_append, pairwise_cons] at hd
  rcases hr with hr | hr
  · exact hd.2.2 r hr _ mem_cons_self
  · exact (hd.2.1.1 r hr).symm

/-- Filling the hole with as many bytes keeps the layout well formed. -/
theorem Focus.plug_wf (h : LayoutWF (z.plug mid)) (hspan : span mid' = span mid)
    (hfits : Fits z.flag mid') (hpost : Fits (outFlag z.flag mid') z.post) :
    LayoutWF (z.plug mid') := by
  obtain ⟨hpos, hlo, hal, hepi, hhi, -⟩ := h.regions _ (z.region_mem mid)
  have hd := h.disjoint
  rw [Focus.plug, pairwise_append, pairwise_cons] at hd
  obtain ⟨hbefore, ⟨hra, hafter⟩, hba⟩ := hd
  constructor
  · intro r hr
    rw [Focus.plug, mem_append, mem_cons] at hr
    rcases hr with hr | rfl | hr
    · exact (Focus.other_apart h (Or.inl hr)).1
    · refine ⟨hpos, hlo, hal, ?_, hhi, ?_⟩
      · simp only [Focus.region, Region.epi, span_append, hspan] at hepi ⊢
        exact hepi
      · rw [Focus.region, fits_append, fits_append]
        exact ⟨(Focus.fits h).1, hfits, hpost⟩
    · exact (Focus.other_apart h (Or.inr hr)).1
  · rw [Focus.plug, pairwise_append, pairwise_cons]
    refine ⟨hbefore, ⟨hra, hafter⟩, fun r hr r' hr' => ?_⟩
    rcases mem_cons.mp hr' with rfl | hr'
    · exact hba r hr (z.region mid) mem_cons_self
    · exact hba r hr r' (mem_cons_of_mem _ hr')

/-- A region of one filling is one of the other, or the region of the hole. -/
theorem Focus.mem_plug {r : Region} (hr : r ∈ z.plug mid) :
    r = z.region mid ∨ ∀ mid', r ∈ z.plug mid' := by
  rw [Focus.plug, mem_append, mem_cons] at hr
  rcases hr with hr | rfl | hr
  · exact Or.inr fun mid' => mem_append_left _ hr
  · exact Or.inl rfl
  · exact Or.inr fun mid' => mem_append_right _ (mem_cons_of_mem _ hr)

theorem Focus.ctlAt {ctl : Nat} (h : CtlAt (z.plug mid) ctl) (hspan : span mid' = span mid) :
    CtlAt (z.plug mid') ctl := by
  obtain ⟨hal, ⟨r, hr, hlo, hbase⟩, hfill⟩ := h
  refine ⟨hal, ?_, fun r' hr' => ?_⟩
  · rcases Focus.mem_plug hr with rfl | hr
    · exact ⟨z.region mid', z.region_mem mid', hlo, hbase⟩
    · exact ⟨r, hr mid', hlo, hbase⟩
  · rcases Focus.mem_plug hr' with rfl | hr'
    · have hregion := hfill _ (z.region_mem mid)
      simp only [Region.Filled, Focus.region, Region.epi, span_append, hspan] at hregion ⊢
      exact hregion
    · exact hfill r' (hr' mid)

theorem Focus.grants (z : Focus) (mid mid' : List Block) :
    (z.plug mid').map Region.grant = (z.plug mid).map Region.grant := by
  rw [Focus.plug, Focus.plug, map_append, map_append, map_cons, map_cons]
  rfl

/-- Every other block is before or after the hole, at least a header after. -/
theorem Focus.rest_bounds (h : LayoutWF (z.plug mid)) {y : Nat} {b : Block}
    (hx : z.Rest (span mid) (y, b)) : y + b.size ≤ z.addr ∨ z.addr + span mid ≤ y := by
  obtain ⟨hpre, -, hpost⟩ := Focus.fits h
  obtain ⟨-, hlo, hbase, -, -, hend, -⟩ := Focus.bounds h
  have hother : ∀ r, r ∈ z.before ∨ r ∈ z.after → (y, b) ∈ place r.base r.blocks →
      y + b.size ≤ z.addr ∨ z.addr + span mid ≤ y := by
    intro r hr hb
    obtain ⟨hwf, hapart⟩ := Focus.other_apart h hr
    have h1 := place_bounds hwf.fits hb
    have h2 := hwf.epi_le
    have h3 := hwf.le_base
    rw [Region.epi] at h2
    lia
  rcases hx with hx | hx | hx | hx
  · exact Or.inl (place_bounds hpre hx).2.1
  · exact Or.inr (place_bounds hpost hx).1
  · obtain ⟨r, hr, hb⟩ := mem_allBlocks.mp hx
    exact hother r (Or.inl hr) hb
  · obtain ⟨r, hr, hb⟩ := mem_allBlocks.mp hx
    exact hother r (Or.inr hr) hb

theorem restTags_bounds {a : Nat} (h : Fits p bs) (hc : c ∈ restTags a bs) (ha : a % 8 = 4) :
    a + 4 ≤ c.1 ∧ c.1 % 4 = 0 := by
  cases bs with
  | nil => cases hc
  | cons b bs =>
    obtain ⟨h8, h16, -, hrest⟩ := h
    rcases mem_append.mp hc with hc | hc
    · obtain ⟨-, rfl⟩ := mem_footer hc
      simp only [HDR]
      lia
    · have := tags_bounds hrest hc (by lia)
      lia

/-- The tags with the hole filled. -/
theorem Focus.mem_allTags_plug :
    c ∈ allTags (z.plug mid) ↔ c ∈ segTags z.flag z.addr mid ∨
      c = (z.addr + span mid, headWord (outFlag z.flag mid) z.post) ∨
      c ∈ segTags true z.base z.pre ∨ c ∈ restTags (z.addr + span mid) z.post ∨
      c ∈ allTags z.before ∨ c ∈ allTags z.after := by
  have hregion : c ∈ allTags (z.plug mid) ↔ c ∈ allTags z.before ∨
      c ∈ tags true z.base (z.pre ++ (mid ++ z.post)) ∨ c ∈ allTags z.after := by
    simp [allTags, Focus.plug, Focus.region]
  rw [hregion, tags_append, tags_append, tags_eq, mem_append, mem_append, mem_cons,
    Focus.addr, Focus.flag]
  tauto

/-- **Only the tags at the hole change.** -/
theorem Focus.retag {m m' : Memory} (h : LayoutWF (z.plug mid)) (htags : Tagged m (z.plug mid))
    (hspan : span mid' = span mid)
    (hsame : ∀ a, a % 4 = 0 → (a < z.addr ∨ z.addr + span mid < a) → load32 m' a = load32 m a)
    (hmid : ∀ c ∈ segTags z.flag z.addr mid', load32 m' c.1 = c.2)
    (hsucc : load32 m' (z.addr + span mid) = headWord (outFlag z.flag mid') z.post) :
    Tagged m' (z.plug mid') := by
  obtain ⟨hpre, -, hpost⟩ := Focus.fits h
  obtain ⟨-, hlo, hbase, hmod, hspan8, hend, -⟩ := Focus.bounds h
  have hkeep : ∀ c ∈ allTags (z.plug mid), c.1 % 4 = 0 →
      (c.1 < z.addr ∨ z.addr + span mid < c.1) → load32 m' c.1 = c.2 := fun c hc h4 hout =>
    (hsame _ h4 hout).trans (htags c hc)
  have hother : ∀ r, r ∈ z.before ∨ r ∈ z.after → ∀ c ∈ tags true r.base r.blocks,
      c.1 % 4 = 0 ∧ (c.1 < z.addr ∨ z.addr + span mid < c.1) := by
    intro r hr c hc
    obtain ⟨hwf, hapart⟩ := Focus.other_apart h hr
    have h1 := tags_bounds hwf.fits hc hwf.aligned
    have h2 := hwf.epi_le
    have h3 := hwf.le_base
    rw [Region.epi] at h2
    exact ⟨h1.2.2, by lia⟩
  intro c hc
  rw [Focus.mem_allTags_plug, hspan] at hc
  rcases hc with hc | rfl | hc | hc | hc | hc
  · exact hmid c hc
  · exact hsucc
  · have hbounds := segTags_bounds hpre hc
    have hbmod : z.base % 4 = 0 := by
      have := hpre.span_mod
      rw [Focus.addr] at hmod
      lia
    refine hkeep c ?_ (by lia) (Or.inl ?_)
    · exact Focus.mem_allTags_plug.mpr (Or.inr (Or.inr (Or.inl hc)))
    · rw [Focus.addr]
      lia
  · have hbounds := restTags_bounds hpost hc (by lia)
    refine hkeep c ?_ hbounds.2 (Or.inr (by lia))
    exact Focus.mem_allTags_plug.mpr (Or.inr (Or.inr (Or.inr (Or.inl hc))))
  · obtain ⟨r, hr, hc'⟩ := mem_allTags.mp hc
    obtain ⟨h4, hout⟩ := hother r (Or.inl hr) c hc'
    refine hkeep c ?_ h4 hout
    exact Focus.mem_allTags_plug.mpr (Or.inr (Or.inr (Or.inr (Or.inr (Or.inl hc)))))
  · obtain ⟨r, hr, hc'⟩ := mem_allTags.mp hc
    obtain ⟨h4, hout⟩ := hother r (Or.inr hr) c hc'
    refine hkeep c ?_ h4 hout
    exact Focus.mem_allTags_plug.mpr (Or.inr (Or.inr (Or.inr (Or.inr (Or.inr hc)))))

end

/-! ## The heap invariant -/

structure HeapInv (h : HeapState) (L : List Region) (F : Nat → Nat → Prop) : Prop where
  wf : LayoutWF L
  ctl : CtlAt L h.ctl
  granted : h.granted = L.map Region.grant
  tagged : Tagged h.mem L
  free : ∀ y s, F y s → FreeAt L y s
  listed : Listed h.mem h.ctl F

/-! ### Header words -/

section
variable {p : Bool} {b : Block}

theorem tagWord_eq (h8 : b.size % 8 = 0) :
    tagWord p b = 8 * (b.size / 8) + (2 * p.toNat + b.used.toNat) := by
  rw [tagWord]
  lia

theorem flags_lt (p u : Bool) : 2 * p.toNat + u.toNat < 8 := by
  cases p <;> cases u <;> decide

theorem tagWord_size (h8 : b.size % 8 = 0) (hlt : b.size < 2 ^ 32) :
    tagWord p b &&& SIZE_MASK = b.size := by
  rw [tagWord_eq h8, SIZE_MASK, and_neg8 (by lia) (flags_lt _ _)]
  lia

theorem tagWord_inuse (h8 : b.size % 8 = 0) : tagWord p b &&& INUSE = b.used.toNat := by
  rw [tagWord_eq h8, INUSE, and_flag (flags_lt _ _) (by decide)]
  cases p <;> cases b.used <;> rfl

theorem tagWord_pinuse (h8 : b.size % 8 = 0) : tagWord p b &&& PINUSE = 2 * p.toNat := by
  rw [tagWord_eq h8, PINUSE, and_flag (flags_lt _ _) (by decide)]
  cases p <;> cases b.used <;> rfl

variable {bs : List Block} {q : Bool} {s : Nat}

/-- `size | (hdr & PINUSE)`. -/
theorem size_or_pinuse (h8 : s % 8 = 0) (p : Bool) : s ||| 2 * p.toNat = tagWord p ⟨s, false⟩ := by
  have h := @or_flag (s / 8) 0 (2 * p.toNat) (by decide) (by cases p <;> decide)
  rw [Nat.add_zero, Nat.zero_or, Nat.mul_div_cancel' (Nat.dvd_of_mod_eq_zero h8)] at h
  exact h

theorem tagWord_or_inuse (h8 : s % 8 = 0) (p : Bool) :
    tagWord p ⟨s, false⟩ ||| INUSE = tagWord p ⟨s, true⟩ := by
  rw [tagWord_eq h8, tagWord_eq h8, INUSE, or_flag (flags_lt _ _) (by decide)]
  have hflag : (2 * p.toNat + false.toNat ||| 1) = 2 * p.toNat + true.toNat := by
    cases p <;> decide
  exact congrArg (8 * (s / 8) + ·) hflag

theorem size_or_both (h8 : s % 8 = 0) : s ||| (PINUSE ||| INUSE) = tagWord true ⟨s, true⟩ := by
  rw [← Nat.or_assoc]
  have h := size_or_pinuse h8 true
  rw [Bool.toNat_true, Nat.mul_one] at h
  rw [PINUSE, h, tagWord_or_inuse h8]

/-- Setting and clearing PINUSE in the tag after a block. -/
theorem headWord_or_pinuse (h : Fits q bs) : headWord p bs ||| PINUSE = headWord true bs := by
  cases bs with
  | nil => cases p <;> rfl
  | cons b bs =>
    rw [headWord, headWord, tagWord_eq h.1, tagWord_eq h.1, PINUSE,
      or_flag (flags_lt _ _) (by decide)]
    cases p <;> cases b.used <;> rfl

theorem headWord_and_pinuse (h : Fits q bs) (hlt : span bs < 2 ^ 32) :
    headWord p bs &&& 0xfffffffd = headWord false bs := by
  cases bs with
  | nil => cases p <;> rfl
  | cons b bs =>
    rw [span_cons] at hlt
    rw [headWord, headWord, tagWord_eq h.1, tagWord_eq h.1, and_neg3 (by lia) (flags_lt _ _)]
    cases p <;> cases b.used <;> rfl

theorem tagWord_lt (hlt : b.size + 4 ≤ 2 ^ 32) : tagWord p b < 2 ^ 32 := by
  rw [tagWord]
  cases p <;> cases b.used <;> simp only [Bool.toNat_true, Bool.toNat_false] <;> lia

end

/-! ### Reading the tags -/

theorem exists_tag_of_mem_place {p : Bool} {a y : Nat} {b : Block} {bs : List Block}
    (h : (y, b) ∈ place a bs) : ∃ q, (y, tagWord q b) ∈ tags p a bs := by
  obtain ⟨pre, post, rfl, rfl⟩ := exists_of_mem_place h
  refine ⟨outFlag p pre, ?_⟩
  rw [tags_append, tags_eq]
  exact mem_append_right _ mem_cons_self

section
variable {h : HeapState} {L : List Region} {F : Nat → Nat → Prop}

variable {b : Block} {y : Nat} {m' : Memory}

/-- The header of a block. -/
theorem Tagged.header {m : Memory} (ht : Tagged m L) (hb : (y, b) ∈ allBlocks L) :
    ∃ q, load32 m y = tagWord q b := by
  obtain ⟨r, hr, hb⟩ := mem_allBlocks.mp hb
  obtain ⟨q, hq⟩ := @exists_tag_of_mem_place true _ _ _ _ hb
  exact ⟨q, ht _ (mem_allTags.mpr ⟨r, hr, hq⟩)⟩

theorem HeapInv.sizeAt (hi : HeapInv h L F) (hb : (y, b) ∈ allBlocks L) : h.sizeAt y = b.size := by
  obtain ⟨q, hq⟩ := hi.tagged.header hb
  obtain ⟨r, -, -, -, hend, hhi, -, h8, -⟩ := hi.wf.block hb
  rw [HeapState.sizeAt, HeapState.load, hq, tagWord_size h8 (by lia)]

theorem LayoutWF.freeSet {ctl : Nat} (hwf : LayoutWF L) (hctl : CtlAt L ctl)
    (hfree : ∀ y s, F y s → FreeAt L y s) : FreeSet ctl F where
  ctl_aligned := hctl.1
  ctl_lt := by
    obtain ⟨-, ⟨r, hr, hlo, hbase⟩, -⟩ := hctl
    have h1 := (hwf.regions r hr).epi_le
    have h2 := (hwf.regions r hr).hi_le
    rw [Region.epi] at h1
    lia
  aligned hF := by
    obtain ⟨r, -, -, -, -, -, hmod, -⟩ := hwf.block (hfree _ _ hF)
    exact hmod
  lt hF := by
    obtain ⟨r, -, -, -, hend, hhi, -⟩ := hwf.block (hfree _ _ hF)
    simp only at hend
    lia
  size hF := by
    obtain ⟨r, -, -, -, -, -, -, h8, h16⟩ := hwf.block (hfree _ _ hF)
    exact ⟨h8, h16⟩
  outside hF := by
    obtain ⟨r, hr, -, hbase, hend, -, -, -, h16⟩ := hwf.block (hfree _ _ hF)
    have := hctl.outside hwf hr hbase hend
    simp only at this h16
    lia
  unique hF hF' := by
    obtain ⟨r, -, -, -, -, -, -, -, h16⟩ := hwf.block (hfree _ _ hF)
    obtain ⟨r', -, -, -, -, -, -, -, h16'⟩ := hwf.block (hfree _ _ hF')
    rcases hwf.blocks_disjoint (hfree _ _ hF) (hfree _ _ hF') with ⟨-, heq⟩ | hd
    · exact congrArg Block.size heq
    · simp only at hd h16 h16'
      lia

theorem HeapInv.freeSet (hi : HeapInv h L F) : FreeSet h.ctl F := hi.wf.freeSet hi.ctl hi.free

theorem HeapInv.congr {F' : Nat → Nat → Prop} (hi : HeapInv h L F) (hF : ∀ y s, F y s ↔ F' y s) :
    HeapInv h L F' :=
  ⟨hi.wf, hi.ctl, hi.granted, hi.tagged, fun y s hy => hi.free y s ((hF y s).mpr hy),
    hi.listed.congr hF⟩

/-- No tag is a link or a head. -/
theorem HeapInv.tag_not_link (hi : HeapInv h L F) {G : Nat → Nat → Prop}
    (hG : ∀ y s, G y s → FreeAt L y s) {c : Nat × Nat} (hc : c ∈ allTags L) :
    ¬ LinkWord h.ctl G c.1 := by
  rintro (⟨y, s, hy, ha⟩ | ⟨hlo, hhi⟩)
  · obtain ⟨r, -, -, -, -, -, -, -, h16⟩ := hi.wf.block (hG y s hy)
    have hout := hi.wf.tag_outside hc (hG y s hy)
    simp only [TagOutside] at hout h16
    lia
  · obtain ⟨-, r, hr, hbase, hend⟩ := hi.wf.tag hc
    have := hi.ctl.outside hi.wf hr hbase hend
    have hctl : CTL_NEXT_REGION = 192 := rfl
    have hbytes : CTL_BYTES = 272 := rfl
    lia

/-! ### What leaves the invariant alone -/

/-- Words that are neither tags nor links nor heads may change. -/
theorem HeapInv.frame (hi : HeapInv h L F)
    (htag : ∀ c ∈ allTags L, load32 m' c.1 = load32 h.mem c.1)
    (hlink : ∀ a, LinkWord h.ctl F a → a % 4 = 0 → load32 m' a = load32 h.mem a) :
    HeapInv { h with mem := m' } L F := by
  exact ⟨hi.wf, hi.ctl, hi.granted, fun c hc => (htag c hc).trans (hi.tagged c hc), hi.free,
    hi.listed.frame hi.freeSet fun a h4 ha => hlink a ha h4⟩

/-- The bytes the heap's own data may be in: the regions less the live payloads. -/
def Owned (L : List Region) (a : Nat) : Prop :=
  (∃ r ∈ L, r.lo ≤ a ∧ a < r.hi) ∧ ¬ ∃ y s, UsedAt L y s ∧ y + HDR ≤ a ∧ a < y + s

/-- **Others may write where the heap keeps nothing**: outside the regions, and in
payloads of allocated blocks. -/
theorem HeapInv.frame_owned (hi : HeapInv h L F) (hm : ∀ a, Owned L a → m' a = h.mem a) :
    HeapInv { h with mem := m' } L F := by
  have hdr : HDR = 4 := rfl
  refine hi.frame (fun c hc => load32_congr fun a hlo hhi => hm a ⟨?_, ?_⟩)
    fun w hw h4 => load32_congr fun a hlo hhi => hm a ?_
  · obtain ⟨-, r, hr, hbase, hend⟩ := hi.wf.tag hc
    have := (hi.wf.regions r hr).le_base
    exact ⟨r, hr, by lia, by lia⟩
  · rintro ⟨y, s, hy, hlo', hhi'⟩
    have hout := hi.wf.tag_outside hc hy
    simp only [TagOutside, Bool.true_eq_false, false_and, false_or] at hout
    lia
  · rcases hw with ⟨y, s, hy, hw⟩ | ⟨hlo', hhi'⟩
    · obtain ⟨r, hr, -, hbase, hend, -, -, -, h16⟩ := hi.wf.block (hi.free y s hy)
      have := (hi.wf.regions r hr).le_base
      simp only at hend h16
      refine ⟨⟨r, hr, by lia, by lia⟩, ?_⟩
      rintro ⟨y', s', hy', hlo', hhi'⟩
      have hd := hi.wf.blocks_disjoint (hi.free y s hy) hy'
      simp only [Block.mk.injEq, Bool.false_eq_true, and_false, false_or] at hd
      lia
    · have hctl : CTL_NEXT_REGION = 192 := rfl
      have hbytes : CTL_BYTES = 272 := rfl
      constructor
      · obtain ⟨-, ⟨r, hr, hlor, hbase⟩, -⟩ := hi.ctl
        have := (hi.wf.regions r hr).epi_le
        rw [Region.epi] at this
        exact ⟨r, hr, by lia, by lia⟩
      · rintro ⟨y, s, hy, hlo'', hhi''⟩
        obtain ⟨r, hr, -, hbase, hend, -⟩ := hi.wf.block hy
        have := hi.ctl.outside hi.wf hr hbase hend
        simp only at this
        lia

/-- The control block's other fields may change. -/
theorem HeapInv.store_ctl (hi : HeapInv h L F) {a v : Nat} (h4 : a % 4 = 0)
    (hlo : h.ctl + CTL_NEXT_REGION ≤ a) (hhi : a + 4 ≤ h.ctl + CTL_BYTES) :
    HeapInv (h.store a v) L F := by
  refine hi.frame (fun c hc => ?_) fun w hw hw4 => ?_
  · obtain ⟨hc4, r, hr, hbase, hend⟩ := hi.wf.tag hc
    have := hi.ctl.outside hi.wf hr hbase hend
    exact load32_store32_of_ne h4 hc4 (by lia)
  · refine load32_store32_of_ne h4 hw4 ?_
    rcases hw with ⟨y, s, hy, hw⟩ | ⟨-, hw⟩
    · have := hi.freeSet.outside hy
      lia
    · lia

/-! ### The three steps -/

/-- Taking a block off its list. -/
theorem HeapInv.unlink (hi : HeapInv h L F) {x s : Nat} (hx : F x s) :
    ∃ m', heapUnlink h x = { h with mem := m' } ∧
      HeapInv { h with mem := m' } L fun y t => F y t ∧ y ≠ x := by
  obtain ⟨m', heq, hlisted, hsame⟩ := heapUnlink_spec hi.freeSet hi.listed hx
    (hi.sizeAt (hi.free x s hx))
  refine ⟨m', heq, hi.wf, hi.ctl, hi.granted, fun c hc => ?_, fun y t hy => hi.free y t hy.1,
    hlisted⟩
  rw [← hi.tagged c hc]
  exact hsame _ (hi.wf.tag hc).1 (hi.tag_not_link hi.free hc)

/-- Putting a block on its list. -/
theorem HeapInv.insert (hi : HeapInv h L F) {b size : Nat} (hb : FreeAt L b size)
    (hnew : ∀ t, ¬ F b t) :
    ∃ m', heapInsert h b size = { h with mem := m' } ∧
      HeapInv { h with mem := m' } L (insertFree F b size) := by
  have hfree : ∀ y s, insertFree F b size y s → FreeAt L y s := by
    rintro y s (hy | ⟨rfl, rfl⟩)
    · exact hi.free y s hy
    · exact hb
  obtain ⟨m', heq, hlisted, hsame⟩ := heapInsert_spec
    (hi.wf.freeSet hi.ctl hfree) hi.listed hnew
  refine ⟨m', heq, hi.wf, hi.ctl, hi.granted, fun c hc => ?_, hfree, hlisted⟩
  rw [← hi.tagged c hc]
  exact hsame _ (hi.wf.tag hc).1 (hi.tag_not_link hfree hc)

/-- Rewriting the blocks of a hole that are off the lists. -/
theorem HeapInv.replug {z : Focus} {mid mid' : List Block} (hi : HeapInv h (z.plug mid) F)
    (hrest : ∀ y s, F y s → z.Rest (span mid) (y, ⟨s, false⟩)) (hspan : span mid' = span mid)
    (hfits : Fits z.flag mid') (hpost : Fits (outFlag z.flag mid') z.post)
    (hsame : ∀ a, a % 4 = 0 → (a < z.addr ∨ z.addr + span mid < a) → load32 m' a = load32 h.mem a)
    (hmid : ∀ c ∈ segTags z.flag z.addr mid', load32 m' c.1 = c.2)
    (hsucc : load32 m' (z.addr + span mid) = headWord (outFlag z.flag mid') z.post) :
    HeapInv { h with mem := m' } (z.plug mid') F := by
  have hlinks : HeapInv { h with mem := m' } (z.plug mid') F ↔ Listed m' h.ctl F := by
    refine ⟨HeapInv.listed, fun hl => ⟨Focus.plug_wf hi.wf hspan hfits hpost, Focus.ctlAt hi.ctl hspan,
      ?_, Focus.retag hi.wf hi.tagged hspan hsame hmid hsucc, fun y s hy => ?_, hl⟩⟩
    · rw [Focus.grants z mid mid']
      exact hi.granted
    · refine Focus.mem_allBlocks_plug.mpr (Or.inr ?_)
      rw [hspan]
      exact hrest y s hy
  rw [hlinks]
  refine hi.listed.frame hi.freeSet fun a h4 ha => hsame a h4 ?_
  rcases ha with ⟨y, t, ht, ha⟩ | ⟨hlo, hhi⟩
  · have h16 := (hi.freeSet.size ht).2
    have hb := Focus.rest_bounds hi.wf (hrest y t ht)
    simp only at hb
    lia
  · obtain ⟨-, -, hbase, -, -, hend, -⟩ := Focus.bounds hi.wf
    have hctl := hi.ctl.outside hi.wf (z.region_mem mid) hbase
      (show z.addr + span mid + 4 ≤ z.hi by lia)
    have hnext : CTL_NEXT_REGION = 192 := rfl
    have hbytes : CTL_BYTES = 272 := rfl
    lia

end

end Js2Wasm.Heap
