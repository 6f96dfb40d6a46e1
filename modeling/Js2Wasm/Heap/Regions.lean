import Js2Wasm.Heap.Operations

/-! # Regions

How the heap grows: a region from the source becomes one free block and an epilogue
(`heapInstall_spec`), the first one with the control block at its head
(`heapInit_spec`), later ones on demand (`heapMore_spec`).  The source is honest: what
it grants lies in the address space and shares no byte with earlier grants, and it
leaves those alone.
-/
namespace Js2Wasm.Heap
open WordMemory List

/-- A byte of a granted region. -/
def Granted (granted : List Grant) (a : Nat) : Prop := ∃ g ∈ granted, g.1 ≤ a ∧ a < g.1 + g.2

/-- **An honest source** refuses, or grants a new region of the size asked for. -/
structure Honest (src : RegionSource) : Prop where
  fits : ∀ granted n, src.answer granted n ≠ 0 → src.answer granted n + n ≤ 2 ^ 32
  apart : ∀ granted n, src.answer granted n ≠ 0 → ∀ g ∈ granted,
    src.answer granted n + n ≤ g.1 ∨ g.1 + g.2 ≤ src.answer granted n
  effect : ∀ granted n m a, Granted granted a → src.effect granted n m a = m a

section
variable {h : HeapState} {L : List Region} {F : Nat → Nat → Prop} {src : RegionSource}

theorem and_sizeMask {x : Nat} (h : x < 2 ^ 32) : x &&& SIZE_MASK = x / 8 * 8 := by
  have hmask := @and_neg8 (x / 8) (x % 8) (by lia) (Nat.mod_lt _ (by decide))
  rw [Nat.div_add_mod] at hmask
  rw [SIZE_MASK, hmask, Nat.mul_comm]

variable {need n : Nat} {r : Region}

/-- A sum that may be the end of the address space, less something positive. -/
theorem sub32_add32 {p k : Nat} (hle : p + n ≤ 2 ^ 32) (hk : 0 < k) (hkn : k ≤ p + n) :
    sub32 (add32 p n) k = p + n - k := by
  rw [sub32, add32]
  rcases Nat.lt_or_eq_of_le hle with hlt | heq
  · rw [Nat.mod_eq_of_lt hlt]
    lia
  · rw [heq, Nat.mod_self]
    lia

/-! ### Installing a region -/

theorem mem_allBlocks_concat {x : Nat × Block} :
    x ∈ allBlocks (L ++ [r]) ↔ x ∈ allBlocks L ∨ x ∈ place r.base r.blocks := by
  simp [allBlocks]

theorem mem_allTags_concat {c : Nat × Nat} :
    c ∈ allTags (L ++ [r]) ↔ c ∈ allTags L ∨ c ∈ tags true r.base r.blocks := by
  simp [allTags]

/-- The block that fits between the aligned ends of the bytes given. -/
theorem heapInstall_eq {p n : Nat} (hmax : p + n ≤ 2 ^ 32) (hn : 40 ≤ n) :
    ∃ base size, (base % 4 = 0 ∧ size % 8 = 0 ∧ p + 4 ≤ base ∧ base + size + 4 ≤ p + n ∧
      base % 8 = 4 ∧ MIN_BLOCK ≤ size ∧ n ≤ size + 22) ∧ (p + 7) / 8 * 8 + 4 = base ∧
      (p + n - 8) / 8 * 8 + 4 = base + size ∧ ∀ h, heapInstall h p n =
        (heapInsert { h with mem := store32 (store32 (store32 h.mem base
          (tagWord true ⟨size, false⟩)) (base + size - HDR) size) (base + size) INUSE } base size,
          true) := by
  have hdr : HDR = 4 := rfl
  have hmin : MIN_BLOCK = 16 := rfl
  have hbase : add32 (add32 p 7 &&& SIZE_MASK) HDR = (p + 7) / 8 * 8 + 4 := by
    rw [add32_of_lt (show p + 7 < 2 ^ 32 by lia), and_sizeMask (by lia),
      add32_of_lt (by lia), hdr]
  have hepi : add32 (sub32 (add32 p n) 8 &&& SIZE_MASK) HDR = (p + n - 8) / 8 * 8 + 4 := by
    rw [sub32_add32 (by lia) (by lia) (by lia), and_sizeMask (by lia),
      add32_of_lt (by lia), hdr]
  obtain ⟨base, hbaseeq⟩ : ∃ base, (p + 7) / 8 * 8 + 4 = base := ⟨_, rfl⟩
  obtain ⟨size, hsizeeq⟩ : ∃ size, (p + n - 8) / 8 * 8 + 4 = base + size :=
    ⟨(p + n - 8) / 8 * 8 + 4 - base, by lia⟩
  rw [hbaseeq] at hbase
  rw [hsizeeq] at hepi
  have hends : p + 4 ≤ base ∧ base + size + 4 ≤ p + n ∧ base % 8 = 4 ∧ size % 8 = 0 ∧
      16 ≤ size ∧ n ≤ size + 22 := by
    clear hbase hepi
    lia
  obtain ⟨hlow, hhigh, h4, h8, hlarge, hslack⟩ := hends
  refine ⟨base, size, ⟨by lia, h8, hlow, hhigh, h4, hmin ▸ hlarge, hslack⟩, hbaseeq, hsizeeq,
    fun h => ?_⟩
  clear hbaseeq hsizeeq
  have hsize : sub32 (base + size) base = size := by
    rw [sub32_of_le (Nat.le_add_right _ _) (by lia), Nat.add_sub_cancel_left]
  have hend : add32 base size = base + size := add32_of_lt (by lia)
  have hfoot : sub32 (base + size) HDR = base + size - HDR := sub32_of_le (by lia) (by lia)
  have hword : size ||| PINUSE = tagWord true ⟨size, false⟩ := size_or_pinuse h8 true
  rw [heapInstall, if_neg (by lia)]
  simp only [hbase, hepi, hsize, hword, hend, hfoot]
  rw [if_neg (by lia), if_neg (by lia)]
  rfl

/-- **A region becomes one free block and its epilogue.** -/
theorem heapInstall_spec {lo hi p n : Nat} (hwf : LayoutWF L) (htag : Tagged h.mem L)
    (hlist : Listed h.mem h.ctl (FreeAt L))
    (hgranted : h.granted = L.map Region.grant ++ [(lo, hi - lo)])
    (hpos : 0 < lo) (hhi : p + n = hi) (hmax : hi ≤ 2 ^ 32) (hn : 40 ≤ n)
    (hapart : ∀ r ∈ L, r.hi ≤ lo ∨ hi ≤ r.lo)
    (hctl : CtlAt L h.ctl ∧ p = lo ∨
      L = [] ∧ h.ctl = (lo + 7) / 8 * 8 ∧ p = h.ctl + CTL_BYTES) :
    ∃ m' base size, heapInstall h p n = ({ h with mem := m' }, true) ∧
      HeapInv { h with mem := m' } (L ++ [⟨lo, hi, base, [⟨size, false⟩]⟩])
        (FreeAt (L ++ [⟨lo, hi, base, [⟨size, false⟩]⟩])) ∧ n ≤ size + 22 := by
  have hdr : HDR = 4 := rfl
  have hbytes : CTL_BYTES = 272 := rfl
  obtain ⟨base, size, ⟨hb4, h8, hlow, hhigh, hb8, hlarge, hslack⟩, hbase, hepi, hinstall⟩ :=
    heapInstall_eq (hhi ▸ hmax) hn
  have hlo : lo ≤ p := by
    rcases hctl with ⟨-, rfl⟩ | ⟨-, hc, hp⟩
    · exact le_rfl
    · lia
  have hlt : tagWord true ⟨size, false⟩ < 2 ^ 32 := tagWord_lt (by simp only; lia)
  generalize hm1 : store32 (store32 (store32 h.mem base (tagWord true ⟨size, false⟩))
    (base + size - HDR) size) (base + size) INUSE = m1
  have hm : ∀ a, a % 4 = 0 → load32 m1 a = if a = base + size then INUSE
      else if a = base + size - HDR then size
      else if a = base then tagWord true ⟨size, false⟩ else load32 h.mem a := fun a ha => by
    rw [← hm1, load32_store32 (by lia) ha (by decide), load32_store32 (by lia) ha (by lia),
      load32_store32 (by lia) ha hlt]
  have hsame : ∀ a, a % 4 = 0 → (a < base ∨ base + size < a) → load32 m1 a = load32 h.mem a :=
    fun a ha hout => by
      rw [hm a ha, if_neg (by lia), if_neg (by lia), if_neg (by lia)]
  obtain ⟨r, hr⟩ : ∃ r : Region, r = ⟨lo, hi, base, [⟨size, false⟩]⟩ := ⟨_, rfl⟩
  have hrepi : r.epi = base + size := by rw [hr]; rfl
  have hrwf : r.WF := by
    rw [hr]
    refine ⟨hpos, by simp only; lia, by simp only; lia, ?_, hmax, h8, by simp only; lia,
      (fun hc => nomatch hc), trivial⟩
    show base + (size + 0) + 4 ≤ hi
    lia
  have hother : ∀ r' ∈ L, ∀ a, r'.lo ≤ a → a < r'.hi → a < base ∨ base + size < a := by
    intro r' hr' a hlo' hhi'
    have := hapart r' hr'
    lia
  have hwf' : LayoutWF (L ++ [r]) := by
    constructor
    · intro r' hr'
      rcases mem_append.mp hr' with hr' | hr'
      · exact hwf.regions r' hr'
      · rw [mem_singleton.mp hr']
        exact hrwf
    · refine pairwise_append.mpr ⟨hwf.disjoint, pairwise_singleton _ _, ?_⟩
      intro r' hr' r'' hr''
      rw [mem_singleton.mp hr'', hr]
      exact hapart r' hr'
  have hctl' : CtlAt (L ++ [r]) h.ctl := by
    have hmem : r ∈ L ++ [r] := mem_append_right _ mem_cons_self
    rcases hctl with ⟨⟨h8', ⟨r', hr', hle, hle'⟩, hfill⟩, rfl⟩ | ⟨rfl, hc, hp⟩
    · refine ⟨h8', ⟨r', mem_append_left _ hr', hle, hle'⟩, fun s hs => ?_⟩
      rcases mem_append.mp hs with hs | hs
      · exact hfill s hs
      · have hend := (hwf.regions r' hr').epi_le
        have hout := hapart r' hr'
        rw [Region.epi] at hend
        rw [mem_singleton.mp hs, Region.Filled, hrepi, hr, if_neg (by simp only; lia)]
        simp only
        lia
    · refine ⟨by lia, ⟨r, hmem, ?_, ?_⟩, fun s hs => ?_⟩
      · rw [hr]
        simp only
        lia
      · rw [hr]
        simp only
        lia
      · rw [mem_singleton.mp hs, Region.Filled, hrepi, hr, if_pos hc.symm]
        simp only
        lia
  have hfree : ∀ y s, FreeAt L y s → FreeAt (L ++ [r]) y s := fun y s hy =>
    mem_allBlocks_concat.mpr (Or.inl hy)
  have hF := hwf'.freeSet hctl' hfree
  have hi1 : HeapInv { h with mem := m1 } (L ++ [r]) (FreeAt L) := by
    refine ⟨hwf', hctl', ?_, fun c hc => ?_, hfree, ?_⟩
    · rw [map_append, hr]
      exact hgranted
    · rcases mem_allTags_concat.mp hc with hc | hc
      · obtain ⟨h4, r', hr', hge, hle⟩ := hwf.tag hc
        have := (hwf.regions r' hr').le_base
        rw [← htag c hc]
        exact hsame _ h4 (hother r' hr' _ (by lia) (by lia))
      · rw [hr] at hc
        simp only [tags, segTags, footer, Bool.false_eq_true, if_false, append_nil,
          cons_append, nil_append, mem_cons, not_mem_nil, or_false, span_cons,
          span_nil, Nat.add_zero, outFlag] at hc
        rcases hc with rfl | rfl | rfl
        · rw [hm _ (by simp only; lia), if_neg (by simp only; lia),
            if_neg (by simp only; lia), if_pos rfl]
        · rw [hm _ (by simp only; lia), if_neg (by simp only; lia), if_pos rfl]
        · rw [hm _ (by simp only; lia), if_pos rfl]
          rfl
    · show Listed m1 h.ctl (FreeAt L)
      refine hlist.frame hF fun a h4 ha => hsame a h4 ?_
      rcases ha with ⟨y, t, ht, ha⟩ | ⟨hle, hle'⟩
      · obtain ⟨r', hr', hge, -, hle, -, -, -, h16⟩ := hwf.block ht
        simp only at hle h16
        have := hother r' hr' a (by lia) (by lia)
        lia
      · have := hctl'.outside hwf' (mem_append_right _ mem_cons_self)
          (show r.base ≤ base by rw [hr]) (show base + size + 4 ≤ r.hi from hrepi ▸ hrwf.epi_le)
        have hnext : CTL_NEXT_REGION = 192 := rfl
        lia
  have hbase_free : FreeAt (L ++ [r]) base size := by
    rw [hr]
    exact mem_allBlocks_concat.mpr (Or.inr mem_cons_self)
  obtain ⟨m2, hinsert, hi2⟩ := hi1.insert hbase_free fun t ht => by
    obtain ⟨r', hr', hge, -, hle, -⟩ := hwf.block ht
    have := hother r' hr' base hge (by lia)
    lia
  subst hr
  refine ⟨m2, base, size, ?_, hi2.congr fun y s => ?_, hslack⟩
  · rw [hinstall, hm1, hinsert]
  · rw [FreeAt, mem_allBlocks_concat]
    simp [insertFree, FreeAt, place]

theorem usedAt_concat {lo hi base size y u : Nat} :
    UsedAt (L ++ [⟨lo, hi, base, [⟨size, false⟩]⟩]) y u ↔ UsedAt L y u := by
  rw [UsedAt, mem_allBlocks_concat]
  simp [UsedAt, place]

/-! ### Asking the source -/

/-- What the source does to memory leaves the heap alone. -/
theorem HeapInv.effect (hi : HeapInv h L F) (hsrc : Honest src) (n : Nat) :
    HeapInv { h with mem := src.effect h.granted n h.mem } L F := by
  refine hi.frame_owned fun a ha => hsrc.effect _ _ _ _ ?_
  obtain ⟨⟨r, hr, hlo, hhi⟩, -⟩ := ha
  refine ⟨r.grant, ?_, hlo, ?_⟩
  · rw [hi.granted]
    exact mem_map_of_mem hr
  · rw [Region.grant]
    simp only
    lia

/-- A new grant is apart from the regions the heap has. -/
theorem HeapInv.apart (hi : HeapInv h L F) (hsrc : Honest src) (h0 : src.answer h.granted n ≠ 0) :
    ∀ r ∈ L,
      r.hi ≤ src.answer h.granted n ∨ src.answer h.granted n + n ≤ r.lo := by
  intro r hr
  have hmem : r.grant ∈ h.granted := by
    rw [hi.granted]
    exact mem_map_of_mem hr
  have h1 := hsrc.apart _ _ h0 _ hmem
  have h2 := (hi.wf.regions r hr).epi_le
  rw [Region.grant] at h1
  rw [Region.epi] at h2
  simp only at h1
  lia

/-- The bookkeeping of a new region. -/
theorem HeapInv.recordRegion (hi : HeapInv h L F) (want : Nat) :
    HeapInv (recordRegion h want) L F := by
  have h8 := hi.ctl.1
  have h1 : CTL_NEXT_REGION = 192 := rfl
  have h2 : CTL_TOTAL_BYTES = 196 := rfl
  have h3 : CTL_REGION_COUNT = 200 := rfl
  have h4 : CTL_BYTES = 272 := rfl
  refine HeapInv.store_ctl (HeapInv.store_ctl (HeapInv.store_ctl hi ?_ ?_ ?_) ?_ ?_ ?_) ?_ ?_ ?_
  all_goals
    try simp only [HeapState.store_ctl]
    lia

/-- A region granted for `more` ends up as one free block. -/
theorem installMore_spec (hi : HeapInv h L (FreeAt L)) (hsrc : Honest src) {want : Nat}
    (hwant : need + CTL_BYTES ≤ want) (h0 : src.answer h.granted want ≠ 0) :
    ∃ h' L', installMore { h with
          mem := src.effect h.granted want h.mem
          granted := h.granted ++ [(src.answer h.granted want, want)] }
        (src.answer h.granted want) want = (h', true) ∧
      HeapInv h' L' (FreeAt L') ∧ (∀ y u, UsedAt L' y u ↔ UsedAt L y u) ∧
      ∃ y s, FreeAt L' y s ∧ need ≤ s := by
  have hbytes : CTL_BYTES = 272 := rfl
  have hi1 := hi.effect hsrc want
  obtain ⟨p, hp⟩ : ∃ p, src.answer h.granted want = p := ⟨_, rfl⟩
  have hapart := hi.apart hsrc h0
  have hfits := hsrc.fits _ _ h0
  rw [hp] at h0 hapart hfits ⊢
  generalize hh : ({ h with
    mem := src.effect h.granted want h.mem
    granted := h.granted ++ [(p, want)] } : HeapState) = h₁
  obtain ⟨m2, base, size, hinstall, hi2, hsize⟩ := @heapInstall_spec h₁ L p (p + want) p want
    hi.wf (hh ▸ hi1.tagged) (hh ▸ hi1.listed)
    (by rw [← hh, Nat.add_sub_cancel_left, hi.granted]) (Nat.pos_of_ne_zero h0) rfl hfits
    (by lia) hapart (Or.inl ⟨hh ▸ hi.ctl, rfl⟩)
  refine ⟨_, _, ?_, hi2.recordRegion want, fun y u => usedAt_concat, base, size, ?_, by lia⟩
  · simp [installMore, hinstall]
  · exact mem_allBlocks_concat.mpr (Or.inr mem_cons_self)

/-- **More memory**: a block of the size needed, or the source refused the least
request and the heap is as it was. -/
theorem heapMore_spec (hi : HeapInv h L (FreeAt L)) (hsrc : Honest src)
    (hneed : need + CTL_BYTES < 2 ^ 32) :
    ∃ h' ok, heapMore src h need = (h', ok) ∧
      (ok = true → ∃ L', HeapInv h' L' (FreeAt L') ∧ (∀ y u, UsedAt L' y u ↔ UsedAt L y u) ∧
        ∃ y s, FreeAt L' y s ∧ need ≤ s) ∧
      (ok = false → HeapInv h' L (FreeAt L) ∧ h'.granted = h.granted ∧
        src.answer h.granted (need + CTL_BYTES) = 0) := by
  have hfloor : add32 need CTL_BYTES = need + CTL_BYTES := add32_of_lt hneed
  obtain ⟨want, hwant⟩ : ∃ want, (if need + CTL_BYTES > h.load (h.ctl + CTL_NEXT_REGION)
    then need + CTL_BYTES else h.load (h.ctl + CTL_NEXT_REGION)) = want := ⟨_, rfl⟩
  have hle : need + CTL_BYTES ≤ want := by
    rw [← hwant]
    split <;> lia
  rw [heapMore]
  simp only [hfloor, hwant, heapAcquire]
  by_cases h0 : src.answer h.granted want = 0
  · simp only [h0, ne_eq, not_true_eq_false, if_false, if_true]
    have hi1 := hi.effect hsrc want
    by_cases hgt : want > need + CTL_BYTES
    · simp only [if_pos hgt]
      by_cases h1 : src.answer h.granted (need + CTL_BYTES) = 0
      · simp only [h1, not_true_eq_false, if_false, if_true]
        exact ⟨_, _, rfl, (fun hc => by cases hc), fun _ =>
          ⟨hi1.effect hsrc (need + CTL_BYTES), rfl, trivial⟩⟩
      · simp only [h1, not_false_eq_true, if_true, if_false]
        obtain ⟨h', L', hmore, hi', hused, hfree⟩ := installMore_spec hi1 hsrc .refl h1
        exact ⟨h', true, hmore, fun _ => ⟨L', hi', hused, hfree⟩, fun hc => by cases hc⟩
    · simp only [if_neg hgt]
      have heq : want = need + CTL_BYTES := by lia
      exact ⟨_, _, rfl, (fun hc => by cases hc), fun _ => ⟨hi1, rfl, heq ▸ h0⟩⟩
  · simp only [h0, ne_eq, not_false_eq_true, if_true, if_false]
    obtain ⟨h', L', hmore, hi', hused, hfree⟩ := installMore_spec hi hsrc hle h0
    exact ⟨h', true, hmore, fun _ => ⟨L', hi', hused, hfree⟩, fun hc => by cases hc⟩

/-! ### The first region -/

theorem load32_fill {m : Memory} {a b : Nat} (hlo : a ≤ b) (hhi : b + 4 ≤ a + n) :
    load32 (fill m a 0 n) b = 0 := by
  have hbyte : ∀ i, b ≤ i → i < b + 4 → fill m a 0 n i = 0 := fun i hi hi' =>
    if_pos ⟨by lia, by lia⟩
  rw [load32, hbyte b (by lia) (by lia), hbyte (b + 1) (by lia) (by lia),
    hbyte (b + 2) (by lia) (by lia), hbyte (b + 3) (by lia) (by lia)]
  rfl

/-- No region yet. -/
def Pristine (h : HeapState) : Prop := h.ctl = 0 ∧ h.granted = []

/-- **The first region** holds the control block and one free block; a refusal leaves
the heap pristine. -/
theorem heapInit_spec {regionBytes : Nat} (hp : Pristine h) (hsrc : Honest src) :
    ∃ h' ok, heapInit src regionBytes h = (h', ok) ∧
      (ok = true → ∃ L, HeapInv h' L (FreeAt L) ∧ ∀ y u, ¬ UsedAt L y u) ∧
      (ok = false → Pristine h') := by
  obtain ⟨hctl, hgranted⟩ := hp
  have hbytes : CTL_BYTES = 272 := rfl
  have hmin : MIN_BLOCK = 16 := rfl
  obtain ⟨first, hfirst⟩ : ∃ first, max regionBytes (CTL_BYTES + MIN_BLOCK + 32) = first :=
    ⟨_, rfl⟩
  have hfirst' : 320 ≤ first := by
    rw [← hfirst, hbytes, hmin]
    exact Nat.le_max_right _ _
  have hfits := hsrc.fits h.granted first
  obtain ⟨p, hpeq⟩ : ∃ p, src.answer h.granted first = p := ⟨_, rfl⟩
  rw [hpeq] at hfits
  rw [heapInit]
  simp only [hfirst, hctl, ne_eq, not_true_eq_false, if_false, heapAcquire, hpeq]
  by_cases h0 : p = 0
  · simp only [if_pos h0]
    exact ⟨_, false, rfl, (fun hc => by cases hc), fun _ => ⟨rfl, hgranted⟩⟩
  · have hmax := hfits h0
    have halign : add32 p 7 &&& SIZE_MASK = (p + 7) / 8 * 8 := by
      rw [add32_of_lt (by lia), and_sizeMask (by lia)]
    obtain ⟨ctl, hctleq⟩ : ∃ ctl, (p + 7) / 8 * 8 = ctl := ⟨_, rfl⟩
    rw [hctleq] at halign
    have hstart : add32 ctl CTL_BYTES = ctl + CTL_BYTES := add32_of_lt (by lia)
    have hlen : sub32 (sub32 (add32 p first) ctl) CTL_BYTES = p + first - ctl - CTL_BYTES := by
      rw [sub32_add32 hmax (by lia) (by lia), sub32_of_le (by lia) (by lia)]
    simp only [if_neg h0, halign, hstart, hlen]
    generalize hh : HeapState.store _ _ _ = h₁
    have hctl1 : h₁.ctl = ctl := by rw [← hh]; rfl
    have hgranted1 : h₁.granted = [(p, first)] := by
      rw [← hh]
      show h.granted ++ [(p, first)] = [(p, first)]
      rw [hgranted]
      rfl
    have hheads : ∀ i < NBINS, load32 h₁.mem (ctl + 4 * i) = 0 := by
      intro i hi
      have hn : NBINS = 48 := rfl
      have h1 : CTL_NEXT_REGION = 192 := rfl
      have h2 : CTL_TOTAL_BYTES = 196 := rfl
      have h3 : CTL_REGION_COUNT = 200 := rfl
      rw [← hh]
      simp only [HeapState.store]
      rw [load32_store32_of_disjoint (by lia), load32_store32_of_disjoint (by lia),
        load32_store32_of_disjoint (by lia), load32_fill (by lia) (by lia)]
    have hempty : Listed h₁.mem h₁.ctl (FreeAt []) := by
      rw [hctl1]
      refine ⟨fun _ => [], fun i hi => hheads i hi, fun i hi => trivial, fun i hi => nodup_nil,
        fun i hi y => ?_⟩
      refine iff_of_false not_mem_nil ?_
      rintro ⟨s, hs, -⟩
      cases hs
    obtain ⟨m2, base, size, hinstall, hi2, -⟩ := @heapInstall_spec h₁ [] p (p + first)
      (ctl + CTL_BYTES) (p + first - ctl - CTL_BYTES)
      ⟨fun r hr => absurd hr not_mem_nil, List.Pairwise.nil⟩
      (fun c hc => absurd hc not_mem_nil) hempty
      (by rw [hgranted1, Nat.add_sub_cancel_left]; rfl) (by lia) (by lia) hmax
      (by lia) (fun r hr => absurd hr not_mem_nil)
      (Or.inr ⟨rfl, by rw [hctl1, hctleq], by rw [hctl1]⟩)
    rw [hinstall]
    refine ⟨_, true, rfl, fun _ => ⟨_, hi2, fun y u hu => ?_⟩, fun hc => by cases hc⟩
    exact absurd (usedAt_concat.mp hu) not_mem_nil

end

end Js2Wasm.Heap
