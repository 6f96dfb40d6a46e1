import Js2Wasm.Binary.ArrayCacheSound

/-! # The cache gives the expansion

`countParents` counts every reference from an array that the root reaches, so that an array
with references from two arrays, or the root with one, is shared (`shared_of_reentered`).  The
cache holds expansions only (`CacheCorrect`), and bytes that are dropped are encoded again:
`encodeInstrArray_cached` does not depend on the counts of the uses.
-/
namespace Js2Wasm.Binary
open List Expansion SourceMap

variable {ν : Type} [DecidableEq ν]

/-! ### Counting -/

section Count

variable {children : ν → List ν} {root : ν}

theorem foldl_recordChild_counts (cs : List ν) (s : ParentCount ν) (a : ν) :
    (cs.foldl ParentCount.recordChild s).parentCounts a = s.parentCounts a + cs.count a := by
  induction cs generalizing s with
  | nil => rfl
  | cons c cs ih =>
    rw [foldl_cons, ih, count_cons]
    simp only [ParentCount.recordChild, Function.update_apply, beq_iff_eq]
    by_cases h : a = c
    · subst h
      simp
      omega
    · rw [if_neg h, if_neg (Ne.symm h)]
      omega

theorem foldl_recordChild_pending (cs : List ν) (s : ParentCount ν) :
    (∀ a ∈ s.pending, a ∈ (cs.foldl ParentCount.recordChild s).pending) ∧
      ∀ c ∈ cs, c ∈ s.visited ∨ c ∈ (cs.foldl ParentCount.recordChild s).pending := by
  induction cs generalizing s with
  | nil => exact ⟨fun _ h => h, nofun⟩
  | cons c cs ih =>
    obtain ⟨hkept, hadded⟩ := ih (s.recordChild c)
    have hpush : ∀ a ∈ s.pending, a ∈ (s.recordChild c).pending := by
      intro a ha
      rw [ParentCount.recordChild]
      split
      · exact ha
      · exact .tail _ ha
    refine ⟨fun a ha => hkept a (hpush a ha), forall_mem_cons.mpr ⟨?_, hadded⟩⟩
    by_cases hc : c ∈ s.visited
    · exact .inl hc
    · refine .inr (hkept c ?_)
      simp [ParentCount.recordChild, hc]

/-- The counts are those of the visited arrays, whose children are visited or pending. -/
structure CountInv (children : ν → List ν) (root : ν) (s : ParentCount ν) : Prop where
  counts : ∀ a, s.parentCounts a = (root :: s.visited.flatMap children).count a
  closed : ∀ v ∈ s.visited, ∀ c ∈ children v, c ∈ s.visited ∨ c ∈ s.pending
  root_mem : root ∈ s.visited ∨ root ∈ s.pending

theorem CountInv.skip {s : ParentCount ν} (h : CountInv children root s) {a : ν}
    {pending : List ν} (hpending : s.pending = a :: pending) (ha : a ∈ s.visited) :
    CountInv children root { s with pending } := by
  have hmove : ∀ c, c ∈ s.visited ∨ c ∈ s.pending → c ∈ s.visited ∨ c ∈ pending := by
    rintro c (hc | hc)
    · exact .inl hc
    · rw [hpending] at hc
      rcases mem_cons.mp hc with rfl | hc
      · exact .inl ha
      · exact .inr hc
  exact ⟨h.counts, fun v hv c hc => hmove c (h.closed v hv c hc), hmove root h.root_mem⟩

variable {a p : ν} {pending visited : List ν} {s : ParentCount ν}

theorem CountInv.visit (h : CountInv children root s) (hpending : s.pending = a :: pending) :
    CountInv children root ((children a).foldl ParentCount.recordChild
      { s with visited := a :: s.visited, pending }) := by
  let t : ParentCount ν := { s with visited := a :: s.visited, pending }
  obtain ⟨hkept, hadded⟩ := foldl_recordChild_pending (children a) t
  have hvisited := ParentCount.foldl_recordChild_visited (children a) t
  have hmove : ∀ c, c ∈ s.visited ∨ c ∈ s.pending →
      c ∈ a :: s.visited ∨ c ∈ ((children a).foldl ParentCount.recordChild t).pending := by
    rintro c (hc | hc)
    · exact .inl (.tail _ hc)
    · rw [hpending] at hc
      rcases mem_cons.mp hc with rfl | hc
      · exact .inl (.head _)
      · exact .inr (hkept c hc)
  refine ⟨fun b => ?_, fun v hv c hc => ?_, ?_⟩
  · rw [hvisited, foldl_recordChild_counts]
    show s.parentCounts b + _ = _
    rw [h.counts, count_cons, count_cons, flatMap_cons, count_append]
    omega
  · rw [hvisited] at hv ⊢
    rcases mem_cons.mp hv with rfl | hv
    · exact hadded c hc
    · exact hmove c (h.closed v hv c hc)
  · rw [hvisited]
    exact hmove root h.root_mem

theorem countParents_done [Fintype ν] (h : s.pending = []) :
    countParents children s = s.parentCounts := by
  obtain ⟨counts, visited, pending⟩ := s
  cases h
  rw [countParents]

theorem countParents_next [Fintype ν] (h : s.pending = a :: pending) :
    countParents children s =
      if a ∈ s.visited then countParents children { s with pending }
      else countParents children ((children a).foldl ParentCount.recordChild
        { s with visited := a :: s.visited, pending }) := by
  obtain ⟨counts, visited, _⟩ := s
  cases h
  rw [countParents]

/-- **All references among the arrays that the root reaches are counted.** -/
theorem countParents_spec [Fintype ν] (h : CountInv children root s) :
    ∃ visited : List ν, root ∈ visited ∧ (∀ v ∈ visited, ∀ c ∈ children v, c ∈ visited) ∧
      ∀ a, countParents children s a = (root :: visited.flatMap children).count a := by
  induction s using countParents.induct children with
  | case1 s hpending =>
    rw [countParents_done hpending]
    refine ⟨s.visited, ?_, fun v hv c hc => ?_, h.counts⟩
    · simpa [hpending] using h.root_mem
    · simpa [hpending] using h.closed v hv c hc
  | case2 s a pending hpending ha ih =>
    rw [countParents_next hpending, if_pos ha]
    exact ih (h.skip hpending ha)
  | case3 s a pending hpending ha ih =>
    rw [countParents_next hpending, if_neg ha]
    exact ih (h.visit hpending)

theorem count_flatMap_pos (hp : p ∈ visited) (ha : a ∈ children p) :
    0 < (visited.flatMap children).count a :=
  count_pos_iff.mpr (mem_flatMap.mpr ⟨p, hp, ha⟩)

theorem one_lt_count_flatMap {q : ν} (hp : p ∈ visited) (hq : q ∈ visited) (hne : p ≠ q)
    (hpa : a ∈ children p) (hqa : a ∈ children q) : 1 < (visited.flatMap children).count a := by
  have hperm := (perm_cons_erase hp).flatMap_right children
  rw [hperm.count_eq, flatMap_cons, count_append]
  have hfirst : 0 < (children p).count a := count_pos_iff.mpr hpa
  have hsecond := count_flatMap_pos ((mem_erase_of_ne hne.symm).mpr hq) hqa
  omega

variable [Fintype ν]

theorem makeInstrArrayEmitCache_counts (children : ν → List ν) (root : ν) :
    ∃ visited : List ν,
      (∀ p, Relation.ReflTransGen (fun n m => m ∈ children n) root p → p ∈ visited) ∧
      ∀ a, (makeInstrArrayEmitCache children root).shared a =
        decide (1 < (root :: visited.flatMap children).count a) := by
  have hinv : CountInv children root ⟨Function.update (fun _ => 0) root 1, [], [root]⟩ := by
    refine ⟨fun a => ?_, nofun, .inr (.head _)⟩
    simp only [Function.update_apply, flatMap_nil, count_singleton, beq_iff_eq]
    by_cases h : a = root
    · rw [if_pos h, if_pos h.symm]
    · rw [if_neg h, if_neg (Ne.symm h)]
  obtain ⟨visited, hroot, hclosed, hcounts⟩ := countParents_spec hinv
  refine ⟨visited, fun p hp => ?_, fun a => ?_⟩
  · induction hp with
    | refl => exact hroot
    | tail _ hstep ih => exact hclosed _ ih _ hstep
  · show decide (1 < countParents children _ a) = _
    rw [hcounts]

end Count

/-! ### The cache -/

/-- Kept bytes are expansions, and the watched arrays are the shared ones among those that
are being encoded. -/
structure CacheCorrect (content : ν → Steps ν) (shared : ν → Bool) (active : List ν)
    (cache : InstrArrayEmitCache ν) : Prop where
  shared_eq : cache.shared = shared
  encoding : cache.encoding = active.filter shared
  bytes : ∀ n kept, cache.bytes n = some kept →
    ∃ t, Expands content (content n) t ∧ t.symbols = kept

/-- The run fails as the expansion does, or writes its symbols and keeps the cache correct. -/
def Agrees (content : ν → Steps ν) (shared : ν → Bool) (active : List ν) (enc : List Byte)
    (x : Emit (Marked (Instr ν) Byte)) (y : Emit (EmitState ν)) : Prop :=
  match x with
  | .error e => y = .error e
  | .ok t => ∃ cache, y = .ok ⟨enc ++ t.symbols, none, some cache⟩ ∧
      CacheCorrect content shared active cache

section Cache

variable {content : ν → Steps ν} {shared : ν → Bool} {active : List ν}

variable {t : Marked (Instr ν) Byte} {instrs : ν} {cache : InstrArrayEmitCache ν} {enc : List Byte}

theorem CacheCorrect.finish (h : CacheCorrect content shared active cache) (instrs : ν) :
    CacheCorrect content shared active (finishInstrArrayUse cache instrs) := by
  rw [finishInstrArrayUse]
  split
  · exact ⟨h.shared_eq, h.encoding, h.bytes⟩
  · refine ⟨h.shared_eq, h.encoding, fun n kept hn => h.bytes n kept ?_⟩
    simp only [Function.update_apply] at hn
    split at hn
    · cases hn
    · exact hn

theorem CacheCorrect.keep (h : CacheCorrect content shared active cache)
    (ht : Expands content (content instrs) t) :
    CacheCorrect content shared active
      { cache with bytes := Function.update cache.bytes instrs (some t.symbols) } := by
  refine ⟨h.shared_eq, h.encoding, fun n kept hn => ?_⟩
  simp only [Function.update_apply] at hn
  split at hn
  · next heq =>
    cases hn
    exact ⟨t, heq ▸ ht, rfl⟩
  · exact h.bytes n kept hn

omit [DecidableEq ν] in
/-- Encoding a shared array begins. -/
theorem CacheCorrect.enter (h : CacheCorrect content shared active cache)
    (hs : shared instrs = true) :
    CacheCorrect content shared (instrs :: active)
      { cache with encoding := instrs :: cache.encoding } :=
  ⟨h.shared_eq, by rw [filter_cons_of_pos hs, h.encoding], h.bytes⟩

omit [DecidableEq ν] in
theorem CacheCorrect.enter_plain (hs : shared instrs = false) :
    CacheCorrect content shared (instrs :: active) cache ↔
      CacheCorrect content shared active cache := by
  have hfilter : (instrs :: active).filter shared = active.filter shared :=
    filter_cons_of_neg (by simp [hs])
  exact ⟨fun h => ⟨h.shared_eq, hfilter ▸ h.encoding, h.bytes⟩,
    fun h => ⟨h.shared_eq, hfilter.symm ▸ h.encoding, h.bytes⟩⟩

omit [DecidableEq ν] in
theorem Agrees.prepend {x : Emit (Marked (Instr ν) Byte)} {y : Emit (EmitState ν)}
    (h : Agrees content shared active (enc ++ t.symbols) x y) :
    Agrees content shared active enc (x.map (t ++ ·)) y := by
  cases x with
  | error e => exact h
  | ok u =>
    obtain ⟨cache, hy, hcache⟩ := h
    exact ⟨cache, by rw [hy, Marked.symbols_append, append_assoc], hcache⟩

omit [DecidableEq ν] in
/-- The steps without their marks agree with the expansion, when the arrays inside do. -/
theorem runSteps_agrees {encodeArray : ν → EmitState ν → Emit (EmitState ν)}
    {node : ν → Emit (Marked (Instr ν) Byte)} {steps : Steps ν}
    (harray : ∀ n enc cache, .refer n ∈ steps → CacheCorrect content shared active cache →
      Agrees content shared active enc (node n) (encodeArray n ⟨enc, none, some cache⟩))
    {enc : List Byte} {cache : InstrArrayEmitCache ν}
    (hcache : CacheCorrect content shared active cache) :
    Agrees content shared active enc (expandSteps node steps)
      (runSteps encodeArray (steps.filter (!·.isMark)) ⟨enc, none, some cache⟩) := by
  induction steps generalizing enc cache with
  | nil => exact ⟨cache, by simp [runSteps], hcache⟩
  | cons step rest ih =>
    have hrest := @ih fun n enc cache hn => harray n enc cache (.tail _ hn)
    cases step with
    | mark m =>
      rw [expandSteps, filter_cons_of_neg (by simp [Step.isMark])]
      apply Agrees.prepend
      rw [append_nil]
      exact hrest hcache
    | write bytes =>
      rw [expandSteps, filter_cons_of_pos (by simp [Step.isMark]), runSteps]
      exact (hrest hcache).prepend
    | refer n =>
      rw [expandSteps, filter_cons_of_pos (by simp [Step.isMark]), runSteps]
      have hn := harray n enc cache (.head _) hcache
      cases hnode : node n with
      | error e =>
        rw [hnode] at hn
        rw [show encodeArray n _ = _ from hn]
        rfl
      | ok t =>
        rw [hnode] at hn
        obtain ⟨cache', heq, hcache'⟩ := hn
        rw [heq]
        exact (hrest hcache').prepend
    | fail e =>
      rw [expandSteps, filter_cons_of_pos (by simp [Step.isMark]), runSteps]
      rfl

end Cache

section Cached

variable {arrays : ν → List (Instr ν)} {layout : ModuleLayout}
  {valCtx : Option EmitValidationCtx}

omit [DecidableEq ν] in
/-- Without a recorder no positions are marked. -/
theorem plainSteps_eq (instrs : ν) :
    plainSteps arrays layout valCtx instrs =
      (recordedSteps arrays layout valCtx instrs).filter (!·.isMark) := by
  have hplain : ∀ instr, (encodeInstr arrays layout valCtx instr).filter (!·.isMark) =
      encodeInstr arrays layout valCtx instr := by
    intro instr
    refine filter_eq_self.mpr fun step hs => ?_
    rcases within_encodeInstr instr step hs with ⟨_, rfl⟩ | ⟨_, rfl⟩ | ⟨_, _, rfl⟩ <;> rfl
  rw [plainSteps, recordedSteps, filter_flatMap]
  congr 1
  funext instr
  rw [encodeInstrWithSourceMap, filter_cons_of_neg (by simp [Step.isMark]), hplain]

variable [Fintype ν] {shared : ν → Bool} {root : ν}

variable {active : List ν}

/-- **Encoding with the cache writes the expansion**, if every array that is entered again
is shared. -/
theorem encodeInstrArray_cached
    (hshared : ∀ active n, Way (recordedSteps arrays layout valCtx) root active n →
      n ∈ active → shared n = true) (depth : Nat) {instrs : ν} {enc : List Byte}
    {cache : InstrArrayEmitCache ν}
    (hway : Way (recordedSteps arrays layout valCtx) root active instrs)
    (hdepth : Fintype.card ν < depth + active.length)
    (hcache : CacheCorrect (recordedSteps arrays layout valCtx) shared active cache) :
    Agrees (recordedSteps arrays layout valCtx) shared active enc
      (expand (recordedSteps arrays layout valCtx) depth active instrs)
      (encodeInstrArray arrays layout valCtx depth instrs ⟨enc, none, some cache⟩) := by
  induction depth generalizing active instrs enc cache with
  | zero => exact absurd hway.nodup.length_le_card (by omega)
  | succ depth ih =>
    -- An array with kept bytes expands, so it is not inside itself.
    have hkept : ∀ kept, cache.bytes instrs = some kept → ∃ t,
        expand (recordedSteps arrays layout valCtx) (depth + 1) active instrs = .ok t ∧
          t.symbols = kept := by
      intro kept hk
      obtain ⟨t, ht, hsymbols⟩ := hcache.bytes _ _ hk
      exact ⟨t, ht.expand_eq hway.nodup hdepth hway.leads, hsymbols⟩
    -- The array is expanded with itself active.
    have hinside : instrs ∉ active → ∀ enc cache,
        CacheCorrect (recordedSteps arrays layout valCtx) shared (instrs :: active) cache →
        Agrees (recordedSteps arrays layout valCtx) shared (instrs :: active) enc
          (expand (recordedSteps arrays layout valCtx) (depth + 1) active instrs)
          (runSteps (encodeInstrArray arrays layout valCtx depth)
            (plainSteps arrays layout valCtx instrs) ⟨enc, none, some cache⟩) := by
      intro hfresh enc cache hcache
      rw [plainSteps_eq, expand, if_neg hfresh]
      refine runSteps_agrees (fun n enc cache hn hcache => ?_) hcache
      exact ih (hway.follow hfresh hn) (by simp only [length_cons]; omega) hcache
    obtain rfl := hcache.shared_eq
    rw [encodeInstrArray]
    show Agrees _ _ _ _ _ (if cache.shared instrs then _ else _)
    cases hs : cache.shared instrs with
    | false =>
      have hfresh : instrs ∉ active := fun hmem => by
        rw [hshared active instrs hway hmem] at hs
        cases hs
      have hrun := hinside hfresh enc cache ((CacheCorrect.enter_plain hs).mpr hcache)
      rw [if_neg (by simp)]
      cases hx : expand (recordedSteps arrays layout valCtx) (depth + 1) active instrs with
      | error e =>
        rw [hx] at hrun
        exact hrun
      | ok t =>
        rw [hx] at hrun
        obtain ⟨cache', hy, hcache'⟩ := hrun
        exact ⟨cache', hy, (CacheCorrect.enter_plain hs).mp hcache'⟩
    | true =>
      rw [if_pos rfl]
      cases hk : cache.bytes instrs with
      | some kept =>
        obtain ⟨t, hx, rfl⟩ := hkept kept hk
        rw [hx]
        exact ⟨_, rfl, hcache.finish instrs⟩
      | none =>
        show Agrees _ _ _ _ _ (if instrs ∈ cache.encoding then _ else _)
        rw [hcache.encoding]
        by_cases hmem : instrs ∈ active
        · rw [if_pos (mem_filter.mpr ⟨hmem, hs⟩), expand, if_pos hmem]
          rfl
        · rw [if_neg fun h => hmem (mem_filter.mp h).1, ← hcache.encoding]
          have hrun := hinside hmem [] _ (hcache.enter hs)
          cases hx : expand (recordedSteps arrays layout valCtx) (depth + 1) active instrs with
          | error e =>
            rw [hx] at hrun
            show (do let child ← runSteps _ _ _; return EmitState.adopt _ _ child) = _
            rw [show runSteps _ _ _ = _ from hrun]
            rfl
          | ok t =>
            rw [hx] at hrun
            obtain ⟨child, hy, hchild⟩ := hrun
            refine ⟨_, congrArg (· >>= _) hy, ?_⟩
            have hfinish := (hchild.keep (expand_sound _ hx)).finish instrs
            refine ⟨hfinish.shared_eq, ?_, hfinish.bytes⟩
            show child.encoding.erase instrs = _
            rw [hchild.encoding, filter_cons_of_pos hs, erase_cons_head]

/-- **The cache of a function watches every array that is entered again.** -/
theorem shared_of_reentered {n : ν} (hway : Way (recordedSteps arrays layout valCtx) root active n)
    (hn : n ∈ active) :
    (makeInstrArrayEmitCache (arrayChildren arrays) root).shared n = true := by
  obtain ⟨visited, hvisited, hcounts⟩ := makeInstrArrayEmitCache_counts (arrayChildren arrays) root
  have hchild : ∀ p c, Refers (recordedSteps arrays layout valCtx) p c →
      c ∈ arrayChildren arrays p := by
    intro p c hc
    obtain ⟨instr, hinstr, hstep⟩ := mem_flatMap.mp hc
    refine mem_flatMap.mpr ⟨instr, hinstr, ?_⟩
    have hplain : .refer c ∈ encodeInstr arrays layout valCtx instr :=
      (mem_cons.mp hstep).resolve_left (by simp)
    rcases within_encodeInstr instr _ hplain with ⟨_, h⟩ | ⟨_, h⟩ | ⟨c', hc', h⟩
    · cases h
    · cases h
    · cases h
      exact hc'
  have hreached : ∀ p ∈ active, p ∈ visited := fun p hp =>
    hvisited p (Relation.ReflTransGen.mono hchild _ _ (hway.reaches.2 p hp))
  rw [hcounts, decide_eq_true_eq]
  rcases hway.reentered hn with ⟨rfl, p, hp, hpn⟩ | ⟨p, hp, q, hq, hne, hpn, hqn⟩
  · have hpos := count_flatMap_pos (hreached p hp) (hchild p _ hpn)
    rw [count_cons_self]
    omega
  · have hlt := one_lt_count_flatMap (hreached p hp) (hreached q hq) hne (hchild p n hpn)
      (hchild q n hqn)
    rw [count_cons]
    omega

end Cached

end Js2Wasm.Binary
