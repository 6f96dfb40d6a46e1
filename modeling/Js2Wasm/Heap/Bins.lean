import Js2Wasm.Heap.Allocator
import Mathlib.Data.List.Nodup
import Mathlib.Data.List.Perm.Subperm

/-! # The free lists

Each bin is a doubly linked list of free blocks, its head in the control block, the
links in the blocks' first two payload words.  `BinLists` says that the lists hold
exactly the blocks of a set `F`; `heapUnlink` takes one block out of the set and
`heapInsert` puts one in, and neither touches any word but links and heads.
-/
namespace Js2Wasm.Heap
open WordMemory List

/-! ### The bin of a size -/

variable {t s : Nat}

theorem heapBin_small (h8 : s % 8 = 0) (h16 : 16 ≤ s) (hs : s ≤ SMALL_MAX) :
    heapBin s = s / 8 - 2 := by
  rw [heapBin, if_pos hs, sub32_of_le]
  · rw [Nat.shiftRight_eq_div_pow]; rfl
  · rw [Nat.shiftRight_eq_div_pow, MIN_BLOCK]; lia
  · rw [Nat.shiftRight_eq_div_pow]
    have : SMALL_MAX = 264 := rfl
    lia

theorem heapBin_large (hs : SMALL_MAX < s) (hlt : s < 2 ^ 32) :
    heapBin s = NSMALL + min 15 (s.log2 - 8) := by
  have hmax : SMALL_MAX = 264 := rfl
  have hne : s ≠ 0 := by lia
  have hlo : 8 ≤ s.log2 := (Nat.le_log2 hne).mpr (by lia)
  have hhi : s.log2 < 32 := (Nat.log2_lt hne).mpr hlt
  have hclz : clz32 s = 31 - s.log2 := if_neg hne
  have ht : sub32 (sub32 31 (clz32 s)) 8 = s.log2 - 8 := by
    have h31 : sub32 31 (31 - s.log2) = s.log2 := by
      rw [sub32_of_le (by lia) (by lia)]
      lia
    rw [hclz, h31, sub32_of_le hlo (by lia)]
  have hsigned : signed32 (s.log2 - 8) = (s.log2 - 8 : Nat) := if_pos (by lia)
  have hfifteen : signed32 (NLARGE - 1) = 15 := rfl
  rw [heapBin, if_neg (by lia)]
  simp only [ht, hsigned, hfifteen]
  by_cases hbig : 15 < s.log2 - 8
  · rw [if_pos (by lia), Nat.min_eq_left (by lia)]
    rfl
  · rw [if_neg (by lia), Nat.min_eq_right (by lia), add32_of_lt (by rw [NSMALL]; lia),
      Nat.add_comm]

theorem heapBin_lt (h8 : s % 8 = 0) (h16 : 16 ≤ s) (hlt : s < 2 ^ 32) : heapBin s < NBINS := by
  have hmax : SMALL_MAX = 264 := rfl
  have hbins : NBINS = 48 := rfl
  have hsmall : NSMALL = 32 := rfl
  by_cases hs : s ≤ SMALL_MAX
  · rw [heapBin_small h8 h16 hs]
    lia
  · rw [heapBin_large (by lia) hlt]
    lia

section
variable (hs8 : s % 8 = 0) (hs16 : 16 ≤ s) (hslt : s < 2 ^ 32) (ht8 : t % 8 = 0) (ht16 : 16 ≤ t)
  (htlt : t < 2 ^ 32)
include hs8 hs16 hslt ht8 ht16 htlt

/-- A block in a lower bin is too small. -/
theorem lt_of_heapBin_lt (h : heapBin s < heapBin t) : s < t := by
  have hmax : SMALL_MAX = 264 := rfl
  have hsmall : NSMALL = 32 := rfl
  by_cases hs : s ≤ SMALL_MAX <;> by_cases ht : t ≤ SMALL_MAX
  · rw [heapBin_small hs8 hs16 hs, heapBin_small ht8 ht16 ht] at h
    lia
  · lia
  · rw [heapBin_large (by lia) hslt, heapBin_small ht8 ht16 ht] at h
    lia
  · rw [heapBin_large (by lia) hslt, heapBin_large (by lia) htlt] at h
    by_contra hle
    have : t.log2 ≤ s.log2 := (Nat.le_log2 (by lia)).mpr
      ((Nat.log2_self_le (by lia)).trans (Nat.not_lt.mp hle))
    lia

/-- In an exact-size bin, at or above the bin asked for, every block fits. -/
theorem le_of_heapBin_le (hbin : heapBin s < NSMALL) (h : heapBin t ≤ heapBin s) :
    t ≤ s := by
  have hs : s ≤ SMALL_MAX := by
    by_contra hgt
    rw [heapBin_large (by lia) hslt] at hbin
    lia
  have ht : t ≤ SMALL_MAX := by
    by_contra hgt
    rw [heapBin_large (by lia) htlt] at h
    lia
  rw [heapBin_small hs8 hs16 hs, heapBin_small ht8 ht16 ht] at h
  lia

end

/-! ### Doubly linked lists -/

/-- The blocks `xs` in a row, between `p` and `n`. -/
def Linked (m : Memory) : Nat → List Nat → Nat → Prop
  | _, [], _ => True
  | p, x :: xs, n => load32 m (x + 4) = xs.headD n ∧ load32 m (x + 8) = p ∧ Linked m x xs n

section
variable {m m' : Memory} {p n : Nat} {xs : List Nat}

theorem linked_append (xs ys : List Nat) :
    Linked m p (xs ++ ys) n ↔ Linked m p xs (ys.headD n) ∧ Linked m (xs.getLastD p) ys n := by
  induction xs generalizing p with
  | nil => exact (iff_of_eq (true_and _)).symm
  | cons x xs ih =>
    have hhead : (xs ++ ys).headD n = xs.headD (ys.headD n) := by cases xs <;> rfl
    have hlast : (x :: xs).getLastD p = xs.getLastD x := getLastD_cons
    rw [cons_append, Linked, Linked, ih, hhead, hlast]
    simp only [and_assoc]

theorem headD_eq_or_mem (xs : List Nat) (n : Nat) : xs.headD n = n ∨ xs.headD n ∈ xs := by
  cases xs with
  | nil => exact Or.inl rfl
  | cons x xs => exact Or.inr mem_cons_self

theorem Linked.congr (h : Linked m p xs n)
    (hsame : ∀ x ∈ xs, load32 m' (x + 4) = load32 m (x + 4) ∧ load32 m' (x + 8) = load32 m (x + 8)) :
    Linked m' p xs n := by
  induction xs generalizing p with
  | nil => trivial
  | cons x xs ih =>
    obtain ⟨hnext, hprev, hrest⟩ := h
    obtain ⟨h4, h8⟩ := hsame x mem_cons_self
    exact ⟨h4.trans hnext, h8.trans hprev, ih hrest fun y hy => hsame y (mem_cons_of_mem x hy)⟩

/-- Link the head to another predecessor. -/
theorem Linked.setPrev {p' : Nat} (h : Linked m p xs n) (hnodup : xs.Nodup)
    (hnext : ∀ y ∈ xs, load32 m' (y + 4) = load32 m (y + 4))
    (hprev : ∀ y ∈ xs, load32 m' (y + 8) = if y = xs.headD 0 then p' else load32 m (y + 8)) :
    Linked m' p' xs n := by
  cases xs with
  | nil => trivial
  | cons x xs =>
    obtain ⟨h4, -, hrest⟩ := h
    refine ⟨(hnext x mem_cons_self).trans h4, (hprev x mem_cons_self).trans (if_pos rfl),
      hrest.congr fun y hy => ⟨hnext y (mem_cons_of_mem x hy), ?_⟩⟩
    have hne : y ≠ x := fun he => (nodup_cons.mp hnodup).1 (he ▸ hy)
    exact (hprev y (mem_cons_of_mem x hy)).trans (if_neg hne)

/-- Link the last block to another successor. -/
theorem Linked.setNext {n' : Nat} (h : Linked m p xs n) (hnodup : xs.Nodup)
    (hnext : ∀ y ∈ xs, load32 m' (y + 4) = if y = xs.getLastD 0 then n' else load32 m (y + 4))
    (hprev : ∀ y ∈ xs, load32 m' (y + 8) = load32 m (y + 8)) :
    Linked m' p xs n' := by
  cases eq_nil_or_concat xs with
  | inl hnil =>
    rw [hnil]
    trivial
  | inr hconcat =>
    obtain ⟨ys, y, rfl⟩ := hconcat
    rw [concat_eq_append] at *
    have hlast : (ys ++ [y]).getLastD 0 = y := by simp
    rw [hlast] at hnext
    rw [linked_append] at h ⊢
    obtain ⟨hys, -, h8, -⟩ := h
    have hin : y ∈ ys ++ [y] := mem_append_right _ mem_cons_self
    refine ⟨hys.congr fun x hx => ?_, (hnext y hin).trans (if_pos rfl), (hprev y hin).trans h8,
      trivial⟩
    have hx' : x ∈ ys ++ [y] := mem_append_left _ hx
    have hne : x ≠ y := (nodup_append.mp hnodup).2.2 x hx y mem_cons_self
    exact ⟨(hnext x hx').trans (if_neg hne), hprev x hx'⟩

/-- Taking a block out of a list: the links of its neighbours skip it. -/
theorem Linked.unlink {x : Nat} {pre post : List Nat} (h : Linked m 0 (pre ++ x :: post) 0)
    (hnodup : (pre ++ post).Nodup) (h0 : 0 ∉ pre ++ post)
    (hnext : ∀ y ∈ pre ++ post, load32 m' (y + 4) =
      if y = pre.getLastD 0 then post.headD 0 else load32 m (y + 4))
    (hprev : ∀ y ∈ pre ++ post, load32 m' (y + 8) =
      if y = post.headD 0 then pre.getLastD 0 else load32 m (y + 8)) :
    Linked m' 0 (pre ++ post) 0 := by
  obtain ⟨hpre, hpost, hdisjoint⟩ := nodup_append.mp hnodup
  have hleft (y : Nat) (hy : y ∈ pre) : y ∈ pre ++ post := mem_append_left _ hy
  have hright (y : Nat) (hy : y ∈ post) : y ∈ pre ++ post := mem_append_right _ hy
  rw [linked_append] at h ⊢
  constructor
  · refine h.1.setNext hpre (fun y hy => hnext y (hleft y hy)) fun y hy => ?_
    refine (hprev y (hleft y hy)).trans (if_neg fun he => ?_)
    rcases headD_eq_or_mem post 0 with hnil | hmem
    · exact h0 (hnil ▸ he ▸ hleft y hy)
    · exact hdisjoint y hy _ hmem he
  · refine h.2.2.2.setPrev hpost (fun y hy => ?_) fun y hy => hprev y (hright y hy)
    refine (hnext y (hright y hy)).trans (if_neg fun he => ?_)
    rcases mem_cons.mp (getLastD_mem_cons : pre.getLastD 0 ∈ 0 :: pre) with hnil | hmem
    · exact h0 (hnil ▸ he ▸ hright y hy)
    · exact hdisjoint _ hmem y hy he.symm

end

/-! ### The lists of all bins -/

/-- What is needed of the listed blocks: aligned, outside the control block, and each
with one size. -/
structure FreeSet (ctl : Nat) (F : Nat → Nat → Prop) : Prop where
  ctl_aligned : ctl % 8 = 0
  ctl_lt : ctl + CTL_BYTES < 2 ^ 32
  aligned : ∀ {y s}, F y s → y % 8 = 4
  lt : ∀ {y s}, F y s → y + s < 2 ^ 32
  size : ∀ {y s}, F y s → s % 8 = 0 ∧ 16 ≤ s
  outside : ∀ {y s}, F y s → y + 16 ≤ ctl ∨ ctl + CTL_BYTES ≤ y
  unique : ∀ {y s t}, F y s → F y t → s = t

/-- The words that hold links and heads. -/
def LinkWord (ctl : Nat) (F : Nat → Nat → Prop) (a : Nat) : Prop :=
  (∃ y s, F y s ∧ (a = y + 4 ∨ a = y + 8)) ∨ (ctl ≤ a ∧ a < ctl + CTL_NEXT_REGION)

/-- **The bins list exactly the blocks of `F`**, each once, in the bin of its size. -/
structure BinLists (m : Memory) (ctl : Nat) (F : Nat → Nat → Prop) (bins : Nat → List Nat) :
    Prop where
  head : ∀ i < NBINS, load32 m (ctl + 4 * i) = (bins i).headD 0
  linked : ∀ i < NBINS, Linked m 0 (bins i) 0
  nodup : ∀ i < NBINS, (bins i).Nodup
  mem : ∀ i < NBINS, ∀ y, y ∈ bins i ↔ ∃ s, F y s ∧ heapBin s = i

def Listed (m : Memory) (ctl : Nat) (F : Nat → Nat → Prop) : Prop := ∃ bins, BinLists m ctl F bins

section
variable {m m' : Memory} {ctl x s : Nat} {F : Nat → Nat → Prop} {bins : Nat → List Nat}

theorem FreeSet.bin_lt (h : FreeSet ctl F) (hx : F x s) : heapBin s < NBINS := by
  obtain ⟨h8, h16⟩ := h.size hx
  have := h.lt hx
  exact heapBin_lt h8 h16 (by lia)

theorem Listed.congr {F' : Nat → Nat → Prop} (h : Listed m ctl F)
    (hF : ∀ y s, F y s ↔ F' y s) : Listed m ctl F' := by
  obtain ⟨bins, hhead, hlinked, hnodup, hmem⟩ := h
  refine ⟨bins, hhead, hlinked, hnodup, fun i hi y => (hmem i hi y).trans ?_⟩
  simp only [hF]

/-- Only links and heads matter. -/
theorem Listed.frame (hF : FreeSet ctl F) (h : Listed m ctl F)
    (hsame : ∀ a, a % 4 = 0 → LinkWord ctl F a → load32 m' a = load32 m a) : Listed m' ctl F := by
  obtain ⟨bins, hhead, hlinked, hnodup, hmem⟩ := h
  have h8 := hF.ctl_aligned
  refine ⟨bins, fun i hi => ?_, fun i hi => ?_, hnodup, hmem⟩
  · rw [← hhead i hi]
    have : CTL_NEXT_REGION = 4 * NBINS := rfl
    exact hsame _ (by lia) (Or.inr ⟨Nat.le_add_right _ _, by lia⟩)
  · refine (hlinked i hi).congr fun y hy => ?_
    obtain ⟨t, ht, -⟩ := (hmem i hi y).mp hy
    have := hF.aligned ht
    exact ⟨hsame _ (by lia) (Or.inl ⟨y, t, ht, Or.inl rfl⟩),
      hsame _ (by lia) (Or.inl ⟨y, t, ht, Or.inr rfl⟩)⟩

/-- The links of two blocks, and the heads, are different words. -/
theorem FreeSet.head_ne (h : FreeSet ctl F) (hx : F x s) {i : Nat} (hi : i < NBINS) :
    x + 4 ≠ ctl + 4 * i ∧ x + 8 ≠ ctl + 4 * i := by
  have := h.outside hx
  have hbytes : CTL_BYTES = 272 := rfl
  have hbins : NBINS = 48 := rfl
  lia

/-- A listed block's links lead to listed blocks. -/
theorem Listed.neighbours (hF : FreeSet ctl F) (h : Listed m ctl F) (hx : F x s) :
    (load32 m (x + 4) ≠ 0 → ∃ t, F (load32 m (x + 4)) t) ∧
      (load32 m (x + 8) ≠ 0 → ∃ t, F (load32 m (x + 8)) t) := by
  obtain ⟨bins, -, hlinked, -, hmem⟩ := h
  have hbin := hF.bin_lt hx
  obtain ⟨pre, post, hsplit⟩ := append_of_mem ((hmem _ hbin x).mpr ⟨s, hx, rfl⟩)
  have hlist := hlinked _ hbin
  rw [hsplit, linked_append] at hlist
  obtain ⟨-, hnext, hprev, -⟩ := hlist
  have hin : ∀ y, y ∈ pre ∨ y ∈ post → ∃ t, F y t := fun y hy => by
    obtain ⟨t, ht, -⟩ := (hmem _ hbin y).mp (by
      rw [hsplit, mem_append, mem_cons]
      exact hy.imp_right Or.inr)
    exact ⟨t, ht⟩
  rw [hnext, hprev]
  exact ⟨fun h0 => hin _ (Or.inr ((headD_eq_or_mem post 0).resolve_left h0)),
    fun h0 => hin _ (Or.inl ((mem_cons.mp getLastD_mem_cons).resolve_left h0))⟩

/-- A bin's head is a listed block. -/
theorem Listed.head (h : Listed m ctl F) {i : Nat} (hi : i < NBINS)
    (h0 : load32 m (ctl + 4 * i) ≠ 0) :
    ∃ t, F (load32 m (ctl + 4 * i)) t ∧ heapBin t = i := by
  obtain ⟨bins, hhead, -, -, hmem⟩ := h
  rw [hhead i hi] at h0 ⊢
  refine (hmem i hi _).mp ?_
  cases hl : bins i with
  | nil =>
    rw [hl] at h0
    exact absurd rfl h0
  | cons y ys => exact mem_cons_self

/-- The links and heads when a block between `prv` and `nxt` is out of its list. -/
structure Unlinked (m m' : Memory) (ctl : Nat) (F : Nat → Nat → Prop) (nxt prv bin : Nat) :
    Prop where
  next : ∀ {y t}, F y t → load32 m' (y + 4) = if y = prv then nxt else load32 m (y + 4)
  prev : ∀ {y t}, F y t → load32 m' (y + 8) = if y = nxt then prv else load32 m (y + 8)
  head : ∀ i < NBINS, load32 m' (ctl + 4 * i) =
    if i = bin ∧ prv = 0 then nxt else load32 m (ctl + 4 * i)

theorem FreeSet.unlinked {nxt prv bin : Nat} (hF : FreeSet ctl F) (hbin : bin < NBINS)
    (hnext : nxt ≠ 0 → ∃ t, F nxt t) (hprev : prv ≠ 0 → ∃ t, F prv t)
    (hm : ∀ a, a % 4 = 0 → load32 m' a = if nxt ≠ 0 ∧ a = nxt + 8 then prv
      else if a = (if prv ≠ 0 then prv + 4 else ctl + 4 * bin) then nxt else load32 m a) :
    Unlinked m m' ctl F nxt prv bin := by
  have hctl := hF.ctl_aligned
  have hnxt8 : nxt ≠ 0 → nxt % 8 = 4 := fun h0 => hF.aligned (hnext h0).choose_spec
  have hprv8 : prv ≠ 0 → prv % 8 = 4 := fun h0 => hF.aligned (hprev h0).choose_spec
  constructor
  case next =>
    intro y t ht
    have h8 := hF.aligned ht
    have hslot := (hF.head_ne ht hbin).1
    rw [hm _ (by lia), if_neg fun hc => by have := hnxt8 hc.1; lia]
    by_cases h0 : prv = 0
    · rw [if_neg (by rwa [if_neg (not_not.mpr h0)]), if_neg (by lia)]
    · simp only [if_pos h0, Nat.add_right_cancel_iff]
  case prev =>
    intro y t ht
    have h8 := hF.aligned ht
    have hslot := (hF.head_ne ht hbin).2
    have hw : y + 8 ≠ if prv ≠ 0 then prv + 4 else ctl + 4 * bin := by
      split_ifs with h0
      · have := hprv8 h0
        lia
      · exact hslot
    rw [hm _ (by lia), if_neg hw]
    by_cases hy : y = nxt
    · rw [if_pos ⟨by lia, by rw [hy]⟩, if_pos hy]
    · rw [if_neg (by lia), if_neg hy]
  case head =>
    intro i hi
    rw [hm _ (by lia), if_neg fun hc => (hF.head_ne (hnext hc.1).choose_spec hi).2 hc.2.symm]
    by_cases h0 : prv = 0
    · simp only [h0, ne_eq, not_true, if_false, and_true, Nat.add_left_cancel_iff]
      simp
    · have hne := (hF.head_ne (hprev h0).choose_spec hi).1
      rw [if_pos h0, if_neg hne.symm, if_neg fun hc => h0 hc.2]

/-- Taking `x` out of its list. -/
theorem BinLists.unlink (hF : FreeSet ctl F) (h : BinLists m ctl F bins) (hx : F x s)
    (hu : Unlinked m m' ctl F (load32 m (x + 4)) (load32 m (x + 8)) (heapBin s)) :
    BinLists m' ctl (fun y t => F y t ∧ y ≠ x) fun i => (bins i).erase x := by
  have hbin := hF.bin_lt hx
  obtain ⟨pre, post, hsplit⟩ := append_of_mem ((h.mem _ hbin x).mpr ⟨s, hx, rfl⟩)
  have hlist := h.linked _ hbin
  have hnd := h.nodup _ hbin
  have hhead := h.head _ hbin
  rw [hsplit] at hlist hnd hhead
  obtain ⟨-, hnext, hprev, -⟩ := (linked_append pre (x :: post)).mp hlist
  rw [hnext, hprev] at hu
  have hxpre : x ∉ pre := fun hc => (nodup_append.mp hnd).2.2 x hc x mem_cons_self rfl
  have herase : (bins (heapBin s)).erase x = pre ++ post := by
    rw [hsplit, erase_append_right _ hxpre, erase_cons_head]
  have hnd : (pre ++ post).Nodup := herase ▸ (h.nodup _ hbin).erase x
  -- the blocks of this list, and of the others
  have hin : ∀ y ∈ pre ++ post, ∃ t, F y t ∧ heapBin t = heapBin s := fun y hy =>
    (h.mem _ hbin y).mp (mem_of_mem_erase (herase.symm ▸ hy))
  have h0 : 0 ∉ pre ++ post := fun hc => by
    obtain ⟨t, ht, -⟩ := hin 0 hc
    exact absurd (hF.aligned ht) (by decide)
  have hne : ∀ {y t}, F y t → heapBin t ≠ heapBin s → y ∉ pre ++ post := fun ht hb hy => by
    obtain ⟨t', ht', hb'⟩ := hin _ hy
    exact hb (hF.unique ht ht' ▸ hb')
  have herase_of_ne : ∀ i < NBINS, i ≠ heapBin s → (bins i).erase x = bins i := fun i hi hne =>
    erase_of_not_mem fun hc => by
      obtain ⟨t, ht, hb⟩ := (h.mem i hi x).mp hc
      exact hne (hb.symm.trans (hF.unique ht hx ▸ rfl))
  constructor
  case head =>
    intro i hi
    rw [hu.head i hi]
    by_cases hi' : i = heapBin s
    · rw [hi', herase, hhead]
      cases pre with
      | nil => rw [if_pos ⟨rfl, rfl⟩, nil_append]
      | cons z pre =>
        have hlast : (z :: pre).getLastD 0 ≠ 0 := fun hc => by
          have hmem : (z :: pre).getLastD 0 ∈ z :: pre := by
            rw [getLastD_cons]
            exact getLastD_mem_cons
          exact h0 (mem_append_left _ (hc ▸ hmem))
        rw [if_neg fun hc => hlast hc.2]
        rfl
    · rw [if_neg fun hc => hi' hc.1, herase_of_ne i hi hi', h.head i hi]
  case linked =>
    intro i hi
    by_cases hi' : i = heapBin s
    · rw [hi', herase]
      refine hlist.unlink hnd h0 (fun y hy => ?_) fun y hy => ?_
      · exact hu.next (hin y hy).choose_spec.1
      · exact hu.prev (hin y hy).choose_spec.1
    · rw [herase_of_ne i hi hi']
      refine (h.linked i hi).congr fun y hy => ?_
      obtain ⟨t, ht, hb⟩ := (h.mem i hi y).mp hy
      have hout : ∀ z, z = 0 ∨ z ∈ pre ++ post → y ≠ z := by
        rintro z (rfl | hz) rfl
        · exact absurd (hF.aligned ht) (by decide)
        · exact hne ht (hb ▸ hi') hz
      exact ⟨(hu.next ht).trans (if_neg (hout _
          ((mem_cons.mp getLastD_mem_cons).imp_right (mem_append_left _)))),
        (hu.prev ht).trans (if_neg (hout _
          ((headD_eq_or_mem post 0).imp_right (mem_append_right _))))⟩
  case nodup => exact fun i hi => (h.nodup i hi).erase x
  case mem =>
    intro i hi y
    rw [(h.nodup i hi).mem_erase_iff, h.mem i hi]
    constructor
    · rintro ⟨hy, t, ht, hb⟩
      exact ⟨t, ⟨ht, hy⟩, hb⟩
    · rintro ⟨t, ⟨ht, hy⟩, hb⟩
      exact ⟨hy, t, ht, hb⟩

/-- A set with one more block. -/
def insertFree (F : Nat → Nat → Prop) (b size : Nat) : Nat → Nat → Prop := fun y t =>
  F y t ∨ (y = b ∧ t = size)

/-- Putting `b` at the head of its list. -/
theorem BinLists.insert {b size : Nat} (hF : FreeSet ctl (insertFree F b size))
    (h : BinLists m ctl F bins) (hb : ∀ t, ¬ F b t)
    (hm : ∀ a, a % 4 = 0 → load32 m' a =
      if a = ctl + 4 * heapBin size then b
      else if load32 m (ctl + 4 * heapBin size) ≠ 0 ∧ a = load32 m (ctl + 4 * heapBin size) + 8
        then b
      else if a = b + 8 then 0
      else if a = b + 4 then load32 m (ctl + 4 * heapBin size)
      else load32 m a) :
    Listed m' ctl (insertFree F b size) := by
  have hbF : insertFree F b size b size := Or.inr ⟨rfl, rfl⟩
  have hctl := hF.ctl_aligned
  have hb8 := hF.aligned hbF
  have hbin := hF.bin_lt hbF
  rw [h.head _ hbin] at hm
  generalize hhd : (bins (heapBin size)).headD 0 = hd at hm
  have hmem : ∀ i < NBINS, ∀ y ∈ bins i, y ≠ b ∧ ∃ t, insertFree F b size y t ∧ heapBin t = i :=
    fun i hi y hy => by
      obtain ⟨t, ht, hbt⟩ := (h.mem i hi y).mp hy
      exact ⟨fun he => hb t (he ▸ ht), t, Or.inl ht, hbt⟩
  have hhd_mem : hd ≠ 0 → hd ∈ bins (heapBin size) := fun h0 => by
    cases hl : bins (heapBin size) with
    | nil =>
      rw [hl] at hhd
      exact absurd hhd.symm h0
    | cons z zs =>
      rw [hl, headD_cons] at hhd
      rw [hhd]
      exact mem_cons_self
  have hhd8 : hd ≠ 0 → hd % 8 = 4 := fun h0 => by
    obtain ⟨-, t, ht, -⟩ := hmem _ hbin hd (hhd_mem h0)
    exact hF.aligned ht
  have hslot : ∀ i < NBINS, i ≠ heapBin size → load32 m' (ctl + 4 * i) = load32 m (ctl + 4 * i) :=
    fun i hi hne => by
      have hbslot := hF.head_ne hbF hi
      rw [hm _ (by lia), if_neg (by lia), if_neg, if_neg hbslot.2.symm, if_neg hbslot.1.symm]
      rintro ⟨h0, he⟩
      obtain ⟨-, t, ht, -⟩ := hmem _ hbin hd (hhd_mem h0)
      exact (hF.head_ne ht hi).2 he.symm
  have hkeep4 : ∀ y t, insertFree F b size y t → y ≠ b →
      load32 m' (y + 4) = load32 m (y + 4) := fun y t ht hne => by
    have h8 := hF.aligned ht
    rw [hm _ (by lia), if_neg (hF.head_ne ht hbin).1,
      if_neg (fun hc => by have := hhd8 hc.1; lia), if_neg (by lia), if_neg (by lia)]
  have hkeep8 : ∀ y t, insertFree F b size y t → y ≠ b → y ≠ hd →
      load32 m' (y + 8) = load32 m (y + 8) := fun y t ht hne hne' => by
    have h8 := hF.aligned ht
    rw [hm _ (by lia), if_neg (hF.head_ne ht hbin).2, if_neg (fun hc => by lia),
      if_neg (by lia), if_neg (by lia)]
  refine ⟨fun i => if i = heapBin size then b :: bins i else bins i, fun i hi => ?_,
    fun i hi => ?_, fun i hi => ?_, fun i hi y => ?_⟩
  · by_cases hi' : i = heapBin size
    · simp only [if_pos hi']
      rw [hi', hm _ (by lia), if_pos rfl, headD_cons]
    · simp only [if_neg hi']
      rw [hslot i hi hi', h.head i hi]
  · by_cases hi' : i = heapBin size
    · subst hi'
      simp only [if_true]
      refine ⟨?_, ?_, (h.linked _ hi).setPrev (h.nodup _ hi) (fun y hy => ?_) fun y hy => ?_⟩
      · rw [hm _ (by lia), if_neg (hF.head_ne hbF hbin).1,
          if_neg (fun hc => by have := hhd8 hc.1; lia), if_neg (by lia), if_pos rfl, hhd]
      · rw [hm _ (by lia), if_neg (hF.head_ne hbF hbin).2, if_neg, if_pos rfl]
        rintro ⟨h0, he⟩
        exact (hmem _ hbin hd (hhd_mem h0)).1 (by lia)
      · obtain ⟨hne, t, ht, -⟩ := hmem _ hi y hy
        exact hkeep4 y t ht hne
      · obtain ⟨hne, t, ht, -⟩ := hmem _ hi y hy
        rw [hhd]
        by_cases he : y = hd
        · have h8 := hF.aligned ht
          rw [hm _ (by lia), if_neg (hF.head_ne ht hbin).2, if_pos ⟨by lia, by rw [he]⟩,
            if_pos he]
        · rw [if_neg he]
          exact hkeep8 y t ht hne he
    · simp only [if_neg hi']
      refine (h.linked i hi).congr fun y hy => ?_
      obtain ⟨hne, t, ht, hbt⟩ := hmem i hi y hy
      refine ⟨hkeep4 y t ht hne, hkeep8 y t ht hne ?_⟩
      rintro rfl
      obtain ⟨-, t', ht', hbt'⟩ := hmem _ hbin y (hhd_mem (by have := hF.aligned ht; lia))
      exact hi' (hbt.symm.trans (hF.unique ht ht' ▸ hbt'))
  · by_cases hi' : i = heapBin size
    · simp only [if_pos hi']
      exact nodup_cons.mpr ⟨fun hc => (hmem i hi b hc).1 rfl, h.nodup i hi⟩
    · simp only [if_neg hi']
      exact h.nodup i hi
  · by_cases hi' : i = heapBin size
    · simp only [if_pos hi', mem_cons]
      rw [h.mem i hi]
      constructor
      · rintro (rfl | ⟨t, ht, hbt⟩)
        · exact ⟨size, hbF, hi'.symm⟩
        · exact ⟨t, Or.inl ht, hbt⟩
      · rintro ⟨t, ht | ⟨rfl, -⟩, hbt⟩
        · exact Or.inr ⟨t, ht, hbt⟩
        · exact Or.inl rfl
    · simp only [if_neg hi']
      rw [h.mem i hi]
      constructor
      · rintro ⟨t, ht, hbt⟩
        exact ⟨t, Or.inl ht, hbt⟩
      · rintro ⟨t, ht | ⟨-, rfl⟩, hbt⟩
        · exact ⟨t, ht, hbt⟩
        · exact absurd hbt.symm hi'

/-! ### The two operations -/

theorem binSlot_eq (hF : FreeSet ctl F) {i : Nat} (hi : i < NBINS) :
    binSlot ctl i = ctl + 4 * i := by
  have hlt := hF.ctl_lt
  have hbytes : CTL_BYTES = 272 := rfl
  have hbins : NBINS = 48 := rfl
  rw [binSlot, mul32_of_lt (by lia), add32_of_lt (by lia), Nat.mul_comm]

end

section
variable {h : HeapState} {F : Nat → Nat → Prop}

/-- **`heapUnlink` takes one block out of its list** and writes links and heads only. -/
theorem heapUnlink_spec {x s : Nat} (hF : FreeSet h.ctl F) (hl : Listed h.mem h.ctl F)
    (hx : F x s) (hs : h.sizeAt x = s) :
    ∃ m', heapUnlink h x = { h with mem := m' } ∧ (Listed m' h.ctl fun y t => F y t ∧ y ≠ x) ∧
      ∀ a, a % 4 = 0 → ¬ LinkWord h.ctl F a → load32 m' a = load32 h.mem a := by
  have hbin := hF.bin_lt hx
  have hctl := hF.ctl_aligned
  obtain ⟨hnext, hprev⟩ := hl.neighbours hF hx
  have hnlt := load32_lt h.mem (x + 4)
  have hplt := load32_lt h.mem (x + 8)
  obtain ⟨nxt, hn⟩ : ∃ nxt, load32 h.mem (x + 4) = nxt := ⟨_, rfl⟩
  obtain ⟨prv, hp⟩ : ∃ prv, load32 h.mem (x + 8) = prv := ⟨_, rfl⟩
  -- the word the predecessor's side writes
  obtain ⟨w, hw⟩ : ∃ w, (if prv ≠ 0 then prv + 4 else h.ctl + 4 * heapBin s) = w := ⟨_, rfl⟩
  rw [hn] at hnext hnlt
  rw [hp] at hprev hplt
  have hwlink : LinkWord h.ctl F w ∧ w % 4 = 0 := by
    by_cases h0 : prv ≠ 0
    · obtain ⟨t, ht⟩ := hprev h0
      have := hF.aligned ht
      rw [if_pos h0] at hw
      exact ⟨Or.inl ⟨prv, t, ht, Or.inl hw.symm⟩, by lia⟩
    · rw [if_neg h0] at hw
      have hbytes : CTL_NEXT_REGION = 4 * NBINS := rfl
      exact ⟨Or.inr ⟨by lia, by lia⟩, by lia⟩
  have hslot : binSlot h.ctl (heapBin (h.sizeAt x)) + CTL_BINS = h.ctl + 4 * heapBin s := by
    rw [hs, binSlot_eq hF hbin]
    rfl
  have heq : heapUnlink h x = { h with
      mem := if nxt ≠ 0 then store32 (store32 h.mem w nxt) (nxt + 8) prv
        else store32 h.mem w nxt } := by
    have hn' : h.load (x + 4) = nxt := hn
    have hp' : h.load (x + 8) = prv := hp
    simp only [heapUnlink, hn', hp', hslot, ← hw]
    rcases eq_or_ne prv 0 with h0 | h0 <;> rcases eq_or_ne nxt 0 with h1 | h1 <;>
      simp [h0, h1, HeapState.store]
  have hload : ∀ a, a % 4 = 0 → load32
      (if nxt ≠ 0 then store32 (store32 h.mem w nxt) (nxt + 8) prv else store32 h.mem w nxt) a =
      if nxt ≠ 0 ∧ a = nxt + 8 then prv else if a = w then nxt else load32 h.mem a := by
    intro a ha
    rcases eq_or_ne nxt 0 with h0 | h0
    · rw [if_neg (not_not.mpr h0), if_neg (fun hc => hc.1 h0), load32_store32 hwlink.2 ha hnlt]
    · obtain ⟨t, ht⟩ := hnext h0
      have := hF.aligned ht
      rw [if_pos h0, load32_store32 (by lia) ha hplt, load32_store32 hwlink.2 ha hnlt]
      simp [h0]
  obtain ⟨bins, hbins⟩ := hl
  refine ⟨_, heq, ⟨_, hbins.unlink hF hx ?_⟩, fun a ha hlink => ?_⟩
  · rw [hn, hp]
    refine hF.unlinked hbin hnext hprev ?_
    rw [hw]
    exact hload
  rw [hload a ha, if_neg, if_neg]
  · rintro rfl
    exact hlink hwlink.1
  · rintro ⟨h0, rfl⟩
    obtain ⟨t, ht⟩ := hnext h0
    exact hlink (Or.inl ⟨nxt, t, ht, Or.inr rfl⟩)

/-- **`heapInsert` puts one block at the head of its list** and writes links and heads
only. -/
theorem heapInsert_spec {b size : Nat} (hF : FreeSet h.ctl (insertFree F b size))
    (hl : Listed h.mem h.ctl F) (hb : ∀ t, ¬ F b t) :
    ∃ m', heapInsert h b size = { h with mem := m' } ∧
      Listed m' h.ctl (insertFree F b size) ∧
      ∀ a, a % 4 = 0 → ¬ LinkWord h.ctl (insertFree F b size) a →
        load32 m' a = load32 h.mem a := by
  have hbF : insertFree F b size b size := Or.inr ⟨rfl, rfl⟩
  have hbin := hF.bin_lt hbF
  have hctl := hF.ctl_aligned
  have hb8 := hF.aligned hbF
  have hblt := hF.lt hbF
  have hslot : binSlot h.ctl (heapBin size) + CTL_BINS = h.ctl + 4 * heapBin size := by
    rw [binSlot_eq hF hbin]
    rfl
  have hhead := hl.head hbin
  have hhlt := load32_lt h.mem (h.ctl + 4 * heapBin size)
  obtain ⟨w, hw⟩ : ∃ w, h.ctl + 4 * heapBin size = w := ⟨_, rfl⟩
  rw [hw] at hslot hhead hhlt
  obtain ⟨head, hh⟩ : ∃ head, load32 h.mem w = head := ⟨_, rfl⟩
  rw [hh] at hhead hhlt
  have hw4 : w % 4 = 0 := by lia
  have heq : heapInsert h b size = { h with
      mem := store32 (if head ≠ 0
        then store32 (store32 (store32 h.mem (b + 4) head) (b + 8) 0) (head + 8) b
        else store32 (store32 h.mem (b + 4) head) (b + 8) 0) w b } := by
    have hh' : h.load w = head := hh
    simp only [heapInsert, hslot, hh']
    rcases eq_or_ne head 0 with h0 | h0 <;> simp [h0, HeapState.store]
  have hload : ∀ a, a % 4 = 0 → load32 (store32 (if head ≠ 0
        then store32 (store32 (store32 h.mem (b + 4) head) (b + 8) 0) (head + 8) b
        else store32 (store32 h.mem (b + 4) head) (b + 8) 0) w b) a =
      if a = w then b
      else if head ≠ 0 ∧ a = head + 8 then b
      else if a = b + 8 then 0
      else if a = b + 4 then head
      else load32 h.mem a := by
    intro a ha
    rw [load32_store32 hw4 ha (by lia)]
    rcases eq_or_ne head 0 with h0 | h0
    · have hhead0 : ¬ (head ≠ 0 ∧ a = head + 8) := fun hc => hc.1 h0
      rw [if_neg (not_not.mpr h0), if_neg hhead0, load32_store32 (by lia) ha (by lia),
        load32_store32 (by lia) ha hhlt]
    · obtain ⟨t, ht, -⟩ := hhead h0
      have := hF.aligned (Or.inl ht)
      rw [if_pos h0, load32_store32 (by lia) ha (by lia),
        load32_store32 (by lia) ha (by lia), load32_store32 (by lia) ha hhlt]
      simp [h0]
  obtain ⟨bins, hbins⟩ := hl
  refine ⟨_, heq, hbins.insert hF hb ?_, fun a ha hlink => ?_⟩
  · rw [hw, hh]
    exact hload
  · have hne : ∀ y t, insertFree F b size y t → a ≠ y + 4 ∧ a ≠ y + 8 := fun y t ht =>
      ⟨fun he => hlink (Or.inl ⟨y, t, ht, Or.inl he⟩),
        fun he => hlink (Or.inl ⟨y, t, ht, Or.inr he⟩)⟩
    rw [hload a ha, if_neg, if_neg, if_neg (hne b size hbF).2, if_neg (hne b size hbF).1]
    · rintro ⟨h0, he⟩
      obtain ⟨t, ht, -⟩ := hhead h0
      exact (hne head t (Or.inl ht)).2 he
    · rintro rfl
      have hbytes : CTL_NEXT_REGION = 4 * NBINS := rfl
      exact hlink (Or.inr ⟨by lia, by lia⟩)

/-! ### Search -/

/-- A walk along a list ends: at the first block that fits, or at the list's end. -/
theorem walkBin_spec {blk p : Nat} {xs : List Nat} (h0 : ∀ x ∈ xs, x ≠ 0)
    (hl : Linked h.mem p xs 0) (fuel : Nat) (hfuel : xs.length < fuel) :
    ∃ b, walkBin h blk fuel (xs.headD 0) = some b ∧
      ((b = 0 ∧ ∀ x ∈ xs, h.sizeAt x < blk) ∨ (b ∈ xs ∧ blk ≤ h.sizeAt b)) := by
  induction xs generalizing p fuel with
  | nil =>
    obtain ⟨fuel, rfl⟩ := Nat.exists_eq_add_of_lt hfuel
    exact ⟨0, by rw [headD_nil, walkBin, if_pos rfl],
      Or.inl ⟨rfl, fun x hx => nomatch hx⟩⟩
  | cons x xs ih =>
    obtain ⟨fuel, rfl⟩ := Nat.exists_eq_add_of_lt hfuel
    obtain ⟨hnext, -, hrest⟩ := hl
    rw [length_cons, headD_cons, walkBin, if_neg (h0 x mem_cons_self)]
    by_cases hfit : h.sizeAt x ≥ blk
    · exact ⟨x, by rw [if_pos hfit], Or.inr ⟨mem_cons_self, hfit⟩⟩
    · have hload : h.load (x + 4) = xs.headD 0 := hnext
      rw [if_neg hfit, hload]
      obtain ⟨b, hb, hor⟩ := ih (fun y hy => h0 y (mem_cons_of_mem x hy)) hrest
        (xs.length + 1 + fuel) (by lia)
      refine ⟨b, hb, hor.imp ?_ fun ⟨hin, hle⟩ => ⟨mem_cons_of_mem x hin, hle⟩⟩
      rintro ⟨rfl, hall⟩
      exact ⟨rfl, forall_mem_cons.mpr ⟨Nat.lt_of_not_ge hfit, hall⟩⟩

/-- A list of blocks is shorter than the address space. -/
theorem length_lt_addresses (hF : FreeSet h.ctl F) {xs : List Nat} (hnd : xs.Nodup)
    (hxs : ∀ x ∈ xs, ∃ s, F x s) : xs.length < ADDRESSES := by
  have hcons : (0 :: xs).Nodup := nodup_cons.mpr ⟨fun hc => by
    obtain ⟨s, hs⟩ := hxs 0 hc
    have := hF.aligned hs
    lia, hnd⟩
  have hsub : 0 :: xs ⊆ range ADDRESSES := fun x hx => by
    rw [mem_range, ADDRESSES]
    rcases mem_cons.mp hx with rfl | hx
    · decide
    · obtain ⟨s, hs⟩ := hxs x hx
      have := hF.lt hs
      lia
  have hle := (hcons.subperm hsub).length_le
  rw [length_cons, length_range] at hle
  exact hle

/-- **Search finds a block that fits, if there is one**, and always returns. -/
theorem heapFind_spec {blk : Nat} (hF : FreeSet h.ctl F) (hl : Listed h.mem h.ctl F)
    (hsize : ∀ y s, F y s → h.sizeAt y = s) (h8 : blk % 8 = 0) (h16 : 16 ≤ blk)
    (hlt : blk < 2 ^ 32) :
    ∃ b, heapFind h blk = some b ∧
      ((b = 0 ∧ ∀ y s, F y s → s < blk) ∨ ∃ s, F b s ∧ blk ≤ s) := by
  obtain ⟨bins, hhead, hlinked, hnodup, hmem⟩ := hl
  have hpass : ∀ i < NBINS, (∀ y s, F y s → heapBin s < i → s < blk) →
      (∀ y ∈ bins i, h.sizeAt y < blk) → ∀ y s, F y s → heapBin s < i + 1 → s < blk := by
    intro i hi hpassed hbin y s hy hlt'
    rcases Nat.lt_succ_iff_lt_or_eq.mp hlt' with hlow | heq
    · exact hpassed y s hy hlow
    · rw [← hsize y s hy]
      exact hbin y ((hmem i hi y).mpr ⟨s, hy, heq⟩)
  -- every bin passed over holds no block that fits
  have hfrom : ∀ (left i : Nat), i ≤ NBINS → NBINS < left + i → heapBin blk ≤ i →
      (∀ y s, F y s → heapBin s < i → s < blk) →
      ∃ b, findFrom h blk left i = some b ∧
        ((b = 0 ∧ ∀ y s, F y s → s < blk) ∨ ∃ s, F b s ∧ blk ≤ s) := by
    intro left
    induction left with
    | zero =>
      intro i hi hfuel
      lia
    | succ left ih =>
      intro i hi hfuel hge hpassed
      rw [findFrom]
      by_cases hend : i ≥ NBINS
      · refine ⟨0, by rw [if_pos hend], Or.inl ⟨rfl, fun y s hy => hpassed y s hy ?_⟩⟩
        have := hF.bin_lt hy
        lia
      · have hi' : i < NBINS := Nat.lt_of_not_ge hend
        have hslot : h.load (binSlot h.ctl i + CTL_BINS) = (bins i).headD 0 := by
          rw [binSlot_eq hF hi']
          exact hhead i hi'
        have hpos : ∀ y ∈ bins i, y ≠ 0 := fun y hy h0 => by
          obtain ⟨s, hs, -⟩ := (hmem i hi' y).mp hy
          have := hF.aligned hs
          lia
        have hnext := ih (i + 1) hi' (by lia) (by lia)
        rw [if_neg hend]
        simp only [hslot]
        by_cases hsmall : i < NSMALL
        · rw [if_pos hsmall]
          cases hl : bins i with
          | nil =>
            rw [if_neg (not_not.mpr headD_nil)]
            exact hnext (hpass i hi' hpassed fun y hy => absurd (hl ▸ hy) not_mem_nil)
          | cons y ys =>
            have hy : y ∈ bins i := hl ▸ mem_cons_self
            obtain ⟨s, hs, hbin⟩ := (hmem i hi' y).mp hy
            obtain ⟨hs8, hs16⟩ := hF.size hs
            have hslt := hF.lt hs
            rw [headD_cons, if_pos (hpos y hy)]
            exact ⟨y, rfl, Or.inr ⟨s, hs, le_of_heapBin_le hs8 hs16 (by lia) h8 h16 hlt
              (hbin ▸ hsmall) (hbin ▸ hge)⟩⟩
        · rw [if_neg hsmall]
          obtain ⟨b, hb, hor⟩ := @walkBin_spec h blk 0 (bins i) hpos (hlinked i hi') ADDRESSES
            (length_lt_addresses hF (hnodup i hi') fun y hy => by
              obtain ⟨s, hs, -⟩ := (hmem i hi' y).mp hy
              exact ⟨s, hs⟩)
          rw [hb]
          rcases hor with ⟨rfl, hall⟩ | ⟨hin, hfit⟩
          · exact hnext (hpass i hi' hpassed hall)
          · obtain ⟨s, hs, -⟩ := (hmem i hi' b).mp hin
            rw [hsize b s hs] at hfit
            exact ⟨b, if_pos (hpos b hin), Or.inr ⟨s, hs, hfit⟩⟩
  refine hfrom _ _ (Nat.le_of_lt (heapBin_lt h8 h16 hlt)) (by lia) .refl
    fun y s hy hbin => ?_
  obtain ⟨hs8, hs16⟩ := hF.size hy
  have := hF.lt hy
  exact lt_of_heapBin_lt hs8 hs16 (by lia) h8 h16 hlt hbin

end

end Js2Wasm.Heap
