import Js2Wasm.Heap.Allocator
import Mathlib.Data.List.Pairwise

/-! # Layouts

What the heap's memory is meant to hold: regions, each tiled by blocks up to an
epilogue.  A layout determines the **tags**, the words at the block boundaries: headers,
footers of free blocks and epilogues.  The geometry is here: tags and blocks lie inside
their regions, blocks are disjoint, and a tag is a block's header or footer or lies
outside it.
-/
namespace Js2Wasm.Heap
open List

/-! ### Blocks in a row -/

structure Block where
  /-- The whole block, its header included. -/
  size : Nat
  used : Bool
  deriving DecidableEq

/-- The header of a block whose predecessor is allocated or not. -/
def tagWord (p : Bool) (b : Block) : Nat := b.size + 2 * p.toNat + b.used.toNat

/-- The epilogue's header. -/
def epilogueWord (p : Bool) : Nat := 2 * p.toNat + 1

def span (bs : List Block) : Nat := (bs.map Block.size).sum

/-- Is the last block allocated?  `p` for no block at all. -/
def outFlag : Bool → List Block → Bool
  | p, [] => p
  | _, b :: bs => outFlag b.used bs

/-- Sizes are multiples of 8 and at least 16, and no two adjacent blocks are free. -/
def Fits : Bool → List Block → Prop
  | _, [] => True
  | p, b :: bs => b.size % 8 = 0 ∧ 16 ≤ b.size ∧ (p = false → b.used = true) ∧ Fits b.used bs

/-- The blocks with their addresses, the first at `a`. -/
def place : Nat → List Block → List (Nat × Block)
  | _, [] => []
  | a, b :: bs => (a, b) :: place (a + b.size) bs

def footer (a : Nat) (b : Block) : List (Nat × Nat) :=
  if b.used then [] else [(a + b.size - HDR, b.size)]

theorem mem_footer {a : Nat} {b : Block} {c : Nat × Nat} (hc : c ∈ footer a b) :
    b.used = false ∧ c = (a + b.size - HDR, b.size) := by
  rw [footer] at hc
  split at hc
  · cases hc
  · next hd => exact ⟨Bool.eq_false_iff.mpr hd, mem_singleton.mp hc⟩

/-- The tags of blocks in a row: addresses and words. -/
def segTags : Bool → Nat → List Block → List (Nat × Nat)
  | _, _, [] => []
  | p, a, b :: bs => (a, tagWord p b) :: footer a b ++ segTags b.used (a + b.size) bs

/-- The tags of blocks that end in an epilogue. -/
def tags (p : Bool) (a : Nat) (bs : List Block) : List (Nat × Nat) :=
  segTags p a bs ++ [(a + span bs, epilogueWord (outFlag p bs))]

/-- The first tag's word. -/
def headWord : Bool → List Block → Nat
  | p, [] => epilogueWord p
  | p, b :: _ => tagWord p b

/-- The tags after the first. -/
def restTags : Nat → List Block → List (Nat × Nat)
  | _, [] => []
  | a, b :: bs => footer a b ++ tags b.used (a + b.size) bs

section
variable {p : Bool} {a : Nat} {xs ys bs : List Block}

@[simp] theorem span_nil : span [] = 0 := rfl
@[simp] theorem span_cons (b : Block) (bs : List Block) : span (b :: bs) = b.size + span bs := by
  rw [span, map_cons, sum_cons, span]

@[simp] theorem span_append (xs ys : List Block) : span (xs ++ ys) = span xs + span ys := by
  rw [span, map_append, sum_append, span, span]

theorem outFlag_append (xs ys : List Block) :
    outFlag p (xs ++ ys) = outFlag (outFlag p xs) ys := by
  induction xs generalizing p with
  | nil => rfl
  | cons b xs ih => exact ih

theorem fits_append (xs ys : List Block) :
    Fits p (xs ++ ys) ↔ Fits p xs ∧ Fits (outFlag p xs) ys := by
  induction xs generalizing p with
  | nil => exact (iff_of_eq (true_and _)).symm
  | cons b xs ih => simp [Fits, outFlag, ih, and_assoc]

/-- After an allocated block anything may come. -/
theorem Fits.of_any (h : Fits p bs) : Fits true bs := by
  cases bs with
  | nil => trivial
  | cons b bs => exact ⟨h.1, h.2.1, (fun hc => nomatch hc), h.2.2.2⟩

theorem place_append (a : Nat) (xs ys : List Block) :
    place a (xs ++ ys) = place a xs ++ place (a + span xs) ys := by
  induction xs generalizing a with
  | nil => rfl
  | cons b xs ih => rw [cons_append, place, ih, span_cons, ← Nat.add_assoc]; rfl

theorem segTags_append (p : Bool) (a : Nat) (xs ys : List Block) :
    segTags p a (xs ++ ys) = segTags p a xs ++ segTags (outFlag p xs) (a + span xs) ys := by
  induction xs generalizing p a with
  | nil => rfl
  | cons b xs ih =>
    rw [cons_append, segTags, ih, segTags, span_cons, ← Nat.add_assoc, append_assoc]
    rfl

theorem tags_append (p : Bool) (a : Nat) (xs ys : List Block) :
    tags p a (xs ++ ys) = segTags p a xs ++ tags (outFlag p xs) (a + span xs) ys := by
  rw [tags, segTags_append, outFlag_append, span_append, tags, append_assoc, Nat.add_assoc]

theorem tags_eq (p : Bool) (a : Nat) (bs : List Block) :
    tags p a bs = (a, headWord p bs) :: restTags a bs := by
  cases bs with
  | nil => rfl
  | cons b bs =>
    rw [tags, segTags, span_cons, outFlag, headWord, restTags, tags, Nat.add_assoc,
      append_assoc, cons_append]

variable {b : Block} {y : Nat} {c : Nat × Nat}

/-- A block lies inside the row. -/
theorem place_bounds (h : Fits p bs) (hb : (y, b) ∈ place a bs) :
    a ≤ y ∧ y + b.size ≤ a + span bs ∧ y % 8 = a % 8 ∧ b.size % 8 = 0 ∧ 16 ≤ b.size := by
  induction bs generalizing p a with
  | nil => cases hb
  | cons c bs ih =>
    obtain ⟨h8, h16, -, hrest⟩ := h
    rw [span_cons]
    rcases mem_cons.mp hb with heq | hb
    · cases heq
      lia
    · obtain ⟨hlo, hhi, hmod, hb8, hb16⟩ := ih hrest hb
      lia

theorem segTags_bounds (h : Fits p bs) (hc : c ∈ segTags p a bs) :
    a ≤ c.1 ∧ c.1 + 4 ≤ a + span bs ∧ c.1 % 4 = a % 4 := by
  induction bs generalizing p a with
  | nil => cases hc
  | cons b bs ih =>
    obtain ⟨h8, h16, -, hrest⟩ := h
    rw [span_cons]
    rcases mem_append.mp hc with hc | hc
    · rcases mem_cons.mp hc with rfl | hc
      · exact ⟨le_rfl, by show a + 4 ≤ _; lia, rfl⟩
      · obtain ⟨-, rfl⟩ := mem_footer hc
        simp only [HDR]
        lia
    · have := ih hrest hc
      lia

theorem tags_bounds (h : Fits p bs) (hc : c ∈ tags p a bs) (ha : a % 8 = 4) :
    a ≤ c.1 ∧ c.1 ≤ a + span bs ∧ c.1 % 4 = 0 := by
  have hspan : span bs % 8 = 0 := by
    clear hc
    induction bs generalizing p with
    | nil => rfl
    | cons b bs ih =>
      obtain ⟨h8, -, -, hrest⟩ := h
      have := ih hrest
      rw [span_cons]
      lia
  rcases mem_append.mp hc with hc | hc
  · have := segTags_bounds h hc
    lia
  · obtain rfl := mem_singleton.mp hc
    simp only
    lia

/-- Two blocks of a row are the same or disjoint. -/
theorem place_disjoint (h : Fits p bs) {y' : Nat} {b' : Block} (hb : (y, b) ∈ place a bs)
    (hb' : (y', b') ∈ place a bs) : (y = y' ∧ b = b') ∨ y + b.size ≤ y' ∨ y' + b'.size ≤ y := by
  induction bs generalizing p a with
  | nil => cases hb
  | cons c bs ih =>
    obtain ⟨-, -, -, hrest⟩ := h
    rcases mem_cons.mp hb with heq | hb <;> rcases mem_cons.mp hb' with heq' | hb'
    · cases heq
      cases heq'
      exact Or.inl ⟨rfl, rfl⟩
    · cases heq
      exact Or.inr (Or.inl (place_bounds hrest hb').1)
    · cases heq'
      exact Or.inr (Or.inr (place_bounds hrest hb).1)
    · exact ih hrest hb hb'

/-- A tag is a block's header or footer or lies outside the block. -/
def TagOutside (c y : Nat) (b : Block) : Prop :=
  c = y ∨ (b.used = false ∧ c + 4 = y + b.size) ∨ c + 4 ≤ y ∨ y + b.size ≤ c

theorem segTags_outside (h : Fits p bs) (hc : c ∈ segTags p a bs) (hb : (y, b) ∈ place a bs) :
    TagOutside c.1 y b := by
  induction bs generalizing p a with
  | nil => cases hb
  | cons d bs ih =>
    obtain ⟨-, h16, -, hrest⟩ := h
    rcases mem_append.mp hc with hc | hc <;> rcases mem_cons.mp hb with heq | hb
    · cases heq
      rcases mem_cons.mp hc with rfl | hc
      · exact Or.inl rfl
      · obtain ⟨hd, rfl⟩ := mem_footer hc
        exact Or.inr (Or.inl ⟨hd, by simp only [HDR]; lia⟩)
    · have hy := (place_bounds hrest hb).1
      refine Or.inr (Or.inr (Or.inl ?_))
      rcases mem_cons.mp hc with rfl | hc
      · simp only
        lia
      · obtain ⟨-, rfl⟩ := mem_footer hc
        simp only [HDR]
        lia
    · cases heq
      exact Or.inr (Or.inr (Or.inr (segTags_bounds hrest hc).1))
    · exact ih hrest hc hb

theorem tags_outside (h : Fits p bs) (hc : c ∈ tags p a bs) (hb : (y, b) ∈ place a bs) :
    TagOutside c.1 y b := by
  rcases mem_append.mp hc with hc | hc
  · exact segTags_outside h hc hb
  · obtain rfl := mem_singleton.mp hc
    exact Or.inr (Or.inr (Or.inr (place_bounds h hb).2.1))

end

/-! ### Regions -/

/-- A region: the bytes `[lo, hi)` granted, and its blocks from `base` on. -/
structure Region where
  lo : Nat
  hi : Nat
  base : Nat
  blocks : List Block
  deriving DecidableEq

namespace Region

/-- The epilogue's address. -/
def epi (r : Region) : Nat := r.base + span r.blocks

/-- The grant a region comes from. -/
def grant (r : Region) : Grant := (r.lo, r.hi - r.lo)

structure WF (r : Region) : Prop where
  pos : 0 < r.lo
  le_base : r.lo ≤ r.base
  aligned : r.base % 8 = 4
  epi_le : r.epi + 4 ≤ r.hi
  hi_le : r.hi ≤ 2 ^ 32
  fits : Fits true r.blocks

end Region

/-- Two regions share no byte. -/
def Region.Apart (r r' : Region) : Prop := r.hi ≤ r'.lo ∨ r'.hi ≤ r.lo

instance : Std.Symm Region.Apart := ⟨fun _ _ => Or.symm⟩

/-- Every region is well formed and no two share a byte. -/
structure LayoutWF (L : List Region) : Prop where
  regions : ∀ r ∈ L, r.WF
  disjoint : L.Pairwise Region.Apart

def allBlocks (L : List Region) : List (Nat × Block) := L.flatMap fun r => place r.base r.blocks

def allTags (L : List Region) : List (Nat × Nat) := L.flatMap fun r => tags true r.base r.blocks

def FreeAt (L : List Region) (y s : Nat) : Prop := (y, ⟨s, false⟩) ∈ allBlocks L
def UsedAt (L : List Region) (y s : Nat) : Prop := (y, ⟨s, true⟩) ∈ allBlocks L

/-- **The blocks fill the granted bytes**: the first is at the first aligned place, in the
region at whose head the control block lies right behind that, and the epilogue is at the
last one. -/
def Region.Filled (ctl : Nat) (r : Region) : Prop :=
  r.base = (r.lo + 7) / 8 * 8 + (if (r.lo + 7) / 8 * 8 = ctl then CTL_BYTES else 0) + HDR ∧
    r.epi = (r.hi - 8) / 8 * 8 + HDR

/-- Where the control block lies, at the head of a region, and how the regions are filled. -/
def CtlAt (L : List Region) (ctl : Nat) : Prop :=
  ctl % 8 = 0 ∧ (∃ r ∈ L, r.lo ≤ ctl ∧ ctl + CTL_BYTES + 4 ≤ r.base) ∧ ∀ r ∈ L, r.Filled ctl

section
variable {L : List Region} {ctl : Nat}

variable {b : Block} {y : Nat} {c : Nat × Nat} {r : Region}

theorem mem_allBlocks :
    (y, b) ∈ allBlocks L ↔ ∃ r ∈ L, (y, b) ∈ place r.base r.blocks := mem_flatMap

theorem mem_allTags :
    c ∈ allTags L ↔ ∃ r ∈ L, c ∈ tags true r.base r.blocks := mem_flatMap

/-- Two regions of a layout are the same or disjoint. -/
theorem LayoutWF.regions_disjoint (h : LayoutWF L) {r' : Region} (hr : r ∈ L) (hr' : r' ∈ L) :
    r = r' ∨ r.hi ≤ r'.lo ∨ r'.hi ≤ r.lo := by
  by_cases heq : r = r'
  · exact Or.inl heq
  · exact Or.inr (h.disjoint.forall hr hr' heq)

/-- What is known of a block of a well-formed layout. -/
theorem LayoutWF.block (h : LayoutWF L) {y : Nat} {b : Block} (hb : (y, b) ∈ allBlocks L) :
    ∃ r ∈ L, r.lo ≤ y ∧ r.base ≤ y ∧ y + b.size + 4 ≤ r.hi ∧ r.hi ≤ 2 ^ 32 ∧ y % 8 = 4 ∧
      b.size % 8 = 0 ∧ 16 ≤ b.size := by
  obtain ⟨r, hr, hb⟩ := mem_allBlocks.mp hb
  obtain ⟨hpos, hlo, hal, hepi, hhi, hfits⟩ := h.regions r hr
  obtain ⟨hy, hend, hmod, h8, h16⟩ := place_bounds hfits hb
  rw [Region.epi] at hepi
  exact ⟨r, hr, by lia, hy, by lia, hhi, by lia, h8, h16⟩

theorem LayoutWF.tag (h : LayoutWF L) (hc : c ∈ allTags L) :
    c.1 % 4 = 0 ∧ ∃ r ∈ L, r.base ≤ c.1 ∧ c.1 + 4 ≤ r.hi := by
  obtain ⟨r, hr, hc⟩ := mem_allTags.mp hc
  have hwf := h.regions r hr
  obtain ⟨hlo, hhi, hmod⟩ := tags_bounds hwf.fits hc hwf.aligned
  have hepi := hwf.epi_le
  rw [Region.epi] at hepi
  exact ⟨hmod, r, hr, hlo, by lia⟩

theorem LayoutWF.blocks_disjoint (h : LayoutWF L) {y' : Nat} {b' : Block}
    (hb : (y, b) ∈ allBlocks L) (hb' : (y', b') ∈ allBlocks L) :
    (y = y' ∧ b = b') ∨ y + b.size ≤ y' ∨ y' + b'.size ≤ y := by
  obtain ⟨r, hr, hb⟩ := mem_allBlocks.mp hb
  obtain ⟨r', hr', hb'⟩ := mem_allBlocks.mp hb'
  have hwf := h.regions r hr
  have hwf' := h.regions r' hr'
  rcases h.regions_disjoint hr hr' with rfl | hd
  · exact place_disjoint hwf.fits hb hb'
  · have h1 := place_bounds hwf.fits hb
    have h2 := place_bounds hwf'.fits hb'
    have h3 := hwf.epi_le
    have h4 := hwf'.epi_le
    have h5 := hwf.le_base
    have h6 := hwf'.le_base
    rw [Region.epi] at h3 h4
    lia

theorem LayoutWF.tag_outside (h : LayoutWF L) (hc : c ∈ allTags L) (hb : (y, b) ∈ allBlocks L) :
    TagOutside c.1 y b := by
  obtain ⟨r, hr, hc⟩ := mem_allTags.mp hc
  obtain ⟨r', hr', hb⟩ := mem_allBlocks.mp hb
  have hwf := h.regions r hr
  have hwf' := h.regions r' hr'
  rcases h.regions_disjoint hr hr' with rfl | hd
  · exact tags_outside hwf.fits hc hb
  · have h1 := tags_bounds hwf.fits hc hwf.aligned
    have h2 := place_bounds hwf'.fits hb
    have h3 := hwf.epi_le
    have h4 := hwf'.epi_le
    have h5 := hwf.le_base
    have h6 := hwf'.le_base
    rw [Region.epi] at h3 h4
    refine Or.inr (Or.inr ?_)
    lia

/-- What lies after a region's base lies outside the control block. -/
theorem CtlAt.outside (hctl : CtlAt L ctl) (h : LayoutWF L) (hr : r ∈ L) {a e : Nat}
    (hlo : r.base ≤ a) (hhi : e ≤ r.hi) : e ≤ ctl ∨ ctl + CTL_BYTES + 4 ≤ a := by
  obtain ⟨-, ⟨r', hr', hlo', hbase'⟩, -⟩ := hctl
  have hwf := h.regions r hr
  have hwf' := h.regions r' hr'
  rcases h.regions_disjoint hr hr' with rfl | hd
  · lia
  · have h1 := hwf.le_base
    have h2 := hwf'.epi_le
    rw [Region.epi] at h2
    lia

end

end Js2Wasm.Heap
