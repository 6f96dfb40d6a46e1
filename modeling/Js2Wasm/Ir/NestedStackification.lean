import Js2Wasm.Ir.LexicalRegions

/-! # Nested stackification

`stackifyMovableNestedValues` of `ir/analysis/nested-stackification.ts`: values that nested
buffers materialize at their definitions are released one after another, where nothing
between a definition and the place its consumers are emitted at stands in the way.

`Movable` says what the pass checks without its loop: the sole consumers of the value lead,
through pure instructions that are not emitted in place, to one that is, or to the end of
the region.  A decision taken with some of the values already released is the decision
taken with all of them still in place (`Movable.mono`), since pure values are never
released.
-/
namespace Js2Wasm.Ir
open Slices List

structure NestedSets where
  crossBlock : List IrValueId
  needsLocal : List IrValueId

section
variable (L : Lexical) (anchorEager : List IrValueId)

/-- Is the instruction emitted at its own position? -/
def isInPlace (crossBlock : List IrValueId) (p : Nat) : Bool :=
  match L.resultAt p with
  | none => true
  | some v => crossBlock.contains v || anchorEager.contains v ||
      (L.totalUses v = 0 && L.sideEffectingAt p)

/-- A string read of a slot may pass other reads of slots. -/
def movableStringSlotRead (d : Nat) : Bool := L.slotReadAt d && L.stringResultAt d

def blocksMotion (d between : Nat) : Bool :=
  if effectsArePure (L.effectsAt between) then false
  else !movableStringSlotRead L d || !L.slotReadAt between ||
    effectsConflict (L.effectsAt d) (L.effectsAt between)

/-- The terminal consumer, its index, and whether it is the end of the region. -/
structure Terminal where
  consumer : Nat
  index : Nat
  atRegionEnd : Bool

/-- Follow the sole consumers until one is in place.  Every round raises the index. -/
def terminalWalk (crossBlock : List IrValueId) (d : Nat) : Nat → Nat → Nat → Terminal
  | 0, c, index => ⟨c, index, false⟩
  | fuel + 1, c, index =>
    if isInPlace L anchorEager crossBlock c then ⟨c, index, false⟩
    else
      match L.resultAt c with
      | none => ⟨c, index, false⟩
      | some v =>
        if !effectsArePure (L.effectsAt c) then ⟨c, index, false⟩
        else
          match L.soleUse v with
          | none => ⟨c, index, false⟩
          | some next =>
            let regionInstrs := L.instructionsByRegion (L.regionAt d)
            if next.region ≠ L.regionAt d || next.index ≤ index ||
                (slice regionInstrs (index + 1) next.index).any (blocksMotion L d) then
              ⟨c, index, false⟩
            else
              match next.consumer with
              | none =>
                ⟨c, next.index, movableStringSlotRead L d && next.index = regionInstrs.length⟩
              | some c' => terminalWalk crossBlock d fuel c' next.index

/-- Is the value released, with these values in place? -/
def releases (crossBlock : List IrValueId) (value : IrValueId) : Bool :=
  match L.definition value, L.soleUse value with
  | some d, some use =>
    match use.consumer with
    | none => false
    | some consumer =>
      if L.regionAt d ≥ 0 || effectsArePure (L.effectsAt d) || use.region ≠ L.regionAt d ||
          use.index ≤ L.indexAt d then false
      else
        let regionInstrs := L.instructionsByRegion (L.regionAt d)
        let terminal :=
          terminalWalk L anchorEager crossBlock d regionInstrs.length consumer use.index
        (terminal.atRegionEnd || isInPlace L anchorEager crossBlock terminal.consumer) &&
          !(slice regionInstrs (L.indexAt d + 1) terminal.index).any (blocksMotion L d)
  | _, _ => false

def releaseAt (s : NestedSets) (value : IrValueId) : NestedSets :=
  if releases L anchorEager s.crossBlock value then
    ⟨s.crossBlock.filter (· ≠ value), s.needsLocal.filter (· ≠ value)⟩
  else s

/-- Keep eligible single-use values in nested buffers on the Wasm stack. -/
def stackifyMovableNestedValues (s : NestedSets) : NestedSets :=
  s.crossBlock.foldl (releaseAt L anchorEager) s

end

/-! ### Consumers -/

section
variable {L : Lexical} {anchorEager : List IrValueId} {cb cb' : List IrValueId}
  {p q c d k t : Nat} {v w : IrValueId}

/-- `c` is the only thing that uses the value of `p`, later in the same region. -/
def SoleConsumer (L : Lexical) (p c : Nat) : Prop :=
  ∃ v, L.resultAt p = some v ∧ L.usePoints v = [L.pointOf c] ∧ L.regionAt c = L.regionAt p ∧
    p < c ∧ c < L.count

/-- The only use of the value of `p` is the end of its region. -/
def SoleEnd (L : Lexical) (p : Nat) : Prop :=
  ∃ v, L.resultAt p = some v ∧ L.usePoints v = [L.endOf (L.regionAt p)]

theorem SoleConsumer.unique (h : SoleConsumer L p c) (h' : SoleConsumer L p d) : c = d := by
  obtain ⟨v, hv, huse, -⟩ := h
  obtain ⟨w, hw, huse', -⟩ := h'
  obtain rfl := Option.some.inj (hv.symm.trans hw)
  rw [huse] at huse'
  simpa [Lexical.pointOf] using congrArg (·.map LexicalUsePoint.consumer) huse'

theorem SoleEnd.not_consumer (h : SoleEnd L p) : ¬ SoleConsumer L p c := by
  obtain ⟨v, hv, huse⟩ := h
  rintro ⟨w, hw, huse', -⟩
  obtain rfl := Option.some.inj (hv.symm.trans hw)
  rw [huse] at huse'
  simpa [Lexical.pointOf, Lexical.endOf] using congrArg (·.map LexicalUsePoint.consumer) huse'

/-- A consumer is no slot read: those have no operands. -/
theorem SoleConsumer.not_slotRead (h : SoleConsumer L p c) : L.slotReadAt c = false := by
  obtain ⟨v, -, huse, -, -, -⟩ := h
  have hmem : L.pointOf c ∈ L.usePoints v := by
    rw [huse]
    exact mem_singleton_self _
  rw [Lexical.usePoints, mem_append] at hmem
  by_contra hread
  have hnone := Lexical.usesAt_slotRead (Bool.not_eq_false _ ▸ hread)
  rcases hmem with hmem | hmem
  · obtain ⟨k, -, hk⟩ := mem_flatMap.mp hmem
    obtain ⟨hne, hpoint⟩ := mem_replicate.mp hk
    have hkc : c = k := by simpa [Lexical.pointOf] using congrArg LexicalUsePoint.consumer hpoint
    rw [← hkc, hnone] at hne
    exact hne rfl
  · obtain ⟨e, -, he⟩ := mem_map.mp hmem
    simpa [Lexical.pointOf, Lexical.endOf] using congrArg LexicalUsePoint.consumer he

/-! ### What the walk finds -/

/-- Where the tree of a value is emitted: at an instruction, or at the end of the region. -/
inductive Goal where
  | position (t : Nat)
  | regionEnd

/-- The positions before a goal. -/
def Goal.After (k : Nat) : Goal → Prop
  | .position t => k < t
  | .regionEnd => True

/-- Through sole consumers that are pure and not in place, `c` leads to a goal. -/
inductive Reaches (L : Lexical) (anchorEager cb : List IrValueId) : Nat → Goal → Prop where
  | here {c : Nat} : isInPlace L anchorEager cb c = true →
      Reaches L anchorEager cb c (.position c)
  | next {c c' : Nat} {goal : Goal} : isInPlace L anchorEager cb c = false →
      effectsArePure (L.effectsAt c) = true → SoleConsumer L c c' →
      Reaches L anchorEager cb c' goal → Reaches L anchorEager cb c goal
  | atEnd {c : Nat} : isInPlace L anchorEager cb c = false →
      effectsArePure (L.effectsAt c) = true → SoleEnd L c → Reaches L anchorEager cb c .regionEnd

/-- **What the pass requires of a value that it releases.** -/
structure Movable (L : Lexical) (anchorEager cb : List IrValueId) (d : Nat) (goal : Goal) :
    Prop where
  nested : L.regionAt d < 0
  impure : effectsArePure (L.effectsAt d) = false
  reaches : ∃ c, SoleConsumer L d c ∧ Reaches L anchorEager cb c goal
  clear : ∀ k, k < L.count → L.regionAt k = L.regionAt d → d < k → goal.After k →
    blocksMotion L d k = false
  slotRead : goal = .regionEnd → movableStringSlotRead L d = true

variable {s : NestedSets} {goal : Goal} {point : LexicalUsePoint}

/-- The consumer of a recorded use, with its position. -/
theorem mem_usePoints (h : point ∈ L.usePoints v) :
    (∃ c, c < L.count ∧ v ∈ L.usesAt c ∧ point = L.pointOf c) ∨
      point = L.endOf point.region := by
  rw [Lexical.usePoints, mem_append] at h
  rcases h with h | h
  · obtain ⟨c, hc, hp⟩ := mem_flatMap.mp h
    obtain ⟨hne, rfl⟩ := mem_replicate.mp hp
    exact Or.inl ⟨c, mem_range.mp hc, count_pos_iff.mp (Nat.pos_of_ne_zero hne), rfl⟩
  · obtain ⟨e, -, rfl⟩ := mem_map.mp h
    exact Or.inr rfl

/-- A later sole use in the region of the definition, with its consumer. -/
theorem soleConsumer_of_use (hp : L.resultAt p = some v) (huse : L.soleUse v = some point)
    (hc : point.consumer = some c) (hregion : point.region = L.regionAt p)
    (hlater : L.indexAt p < point.index) : SoleConsumer L p c ∧ point.index = L.indexAt c := by
  have huses := Lexical.soleUse_eq_some.mp huse
  have hmem : point ∈ L.usePoints v := by
    rw [huses]
    exact mem_singleton_self _
  rcases mem_usePoints hmem with ⟨c', hlt, -, rfl⟩ | hend
  · cases hc
    refine ⟨⟨v, hp, huses, hregion, ?_, hlt⟩, rfl⟩
    exact (Lexical.indexAt_lt_iff (Lexical.lt_of_resultAt hp) hlt hregion.symm).mp hlater
  · rw [hend] at hc
    cases hc

/-- A sole use at the end of the region of the definition. -/
theorem soleEnd_of_use (hp : L.resultAt p = some v) (huse : L.soleUse v = some point)
    (hc : point.consumer = none) (hregion : point.region = L.regionAt p) :
    SoleEnd L p ∧ point.index = (L.instructionsByRegion (L.regionAt p)).length := by
  have huses := Lexical.soleUse_eq_some.mp huse
  have hmem : point ∈ L.usePoints v := by
    rw [huses]
    exact mem_singleton_self _
  rcases mem_usePoints hmem with ⟨c', -, -, rfl⟩ | hend
  · cases hc
  · rw [hregion] at hend
    refine ⟨⟨v, hp, ?_⟩, ?_⟩
    · rw [huses, hend]
    · rw [hend]
      rfl

theorem SoleConsumer.soleUse (h : SoleConsumer L p c) :
    ∃ v, L.resultAt p = some v ∧ L.soleUse v = some (L.pointOf c) := by
  obtain ⟨v, hv, huse, -⟩ := h
  exact ⟨v, hv, Lexical.soleUse_eq_some.mpr huse⟩

theorem SoleEnd.soleUse (h : SoleEnd L p) :
    ∃ v, L.resultAt p = some v ∧ L.soleUse v = some (L.endOf (L.regionAt p)) := by
  obtain ⟨v, hv, huse⟩ := h
  exact ⟨v, hv, Lexical.soleUse_eq_some.mpr huse⟩

/-- The index of a goal in its region. -/
def Goal.index (L : Lexical) (r : Int) : Goal → Nat
  | .position t => L.indexAt t
  | .regionEnd => (L.instructionsByRegion r).length

/-- What a walk that ends well returns. -/
def Goal.Ends (L : Lexical) (d : Nat) (terminal : Terminal) (goal : Goal) : Prop :=
  terminal.index = goal.index L (L.regionAt d) ∧
    match goal with
    | .position t => terminal.consumer = t ∧ terminal.atRegionEnd = false
    | .regionEnd => terminal.atRegionEnd = true

theorem terminalWalk_reaches {fuel : Nat} (hregion : L.regionAt c = L.regionAt d)
    (hok : (terminalWalk L anchorEager cb d fuel c (L.indexAt c)).atRegionEnd = true ∨
      isInPlace L anchorEager cb
        (terminalWalk L anchorEager cb d fuel c (L.indexAt c)).consumer = true) :
    ∃ goal, Reaches L anchorEager cb c goal ∧
      goal.Ends L d (terminalWalk L anchorEager cb d fuel c (L.indexAt c)) ∧
      (goal = .regionEnd → movableStringSlotRead L d = true) := by
  have hstop : ∀ {c : Nat}, isInPlace L anchorEager cb c = true →
      ∃ goal, Reaches L anchorEager cb c goal ∧ goal.Ends L d ⟨c, L.indexAt c, false⟩ ∧
        (goal = .regionEnd → movableStringSlotRead L d = true) :=
    fun h => ⟨.position _, .here h, ⟨rfl, rfl, rfl⟩, nofun⟩
  induction fuel generalizing c with
  | zero => exact hstop (hok.resolve_left Bool.false_ne_true)
  | succ fuel ih =>
    rw [terminalWalk] at hok ⊢
    by_cases hin : isInPlace L anchorEager cb c = true
    · rw [if_pos hin]
      exact hstop hin
    rw [if_neg hin] at hok ⊢
    -- a walk that stops at a consumer that is not in place releases nothing
    have hfail : ∀ {P : Prop}, ((⟨c, L.indexAt c, false⟩ : Terminal).atRegionEnd = true ∨
        isInPlace L anchorEager cb (⟨c, L.indexAt c, false⟩ : Terminal).consumer = true) → P :=
      fun h => absurd (h.resolve_left Bool.false_ne_true) hin
    rw [Bool.not_eq_true] at hin
    cases hres : L.resultAt c with
    | none =>
      simp only [hres] at hok
      exact hfail hok
    | some v =>
      simp only [hres] at hok ⊢
      by_cases hpure : effectsArePure (L.effectsAt c) = true
      swap
      · rw [if_pos (by simpa using hpure)] at hok
        exact hfail hok
      rw [if_neg (by simpa using hpure)] at hok ⊢
      cases huse : L.soleUse v with
      | none =>
        simp only [huse] at hok
        exact hfail hok
      | some point =>
        simp only [huse] at hok ⊢
        by_cases hbad : (point.region ≠ L.regionAt d || point.index ≤ L.indexAt c ||
            (slice (L.instructionsByRegion (L.regionAt d)) (L.indexAt c + 1) point.index).any
              (blocksMotion L d)) = true
        · rw [if_pos hbad] at hok
          exact hfail hok
        rw [if_neg hbad] at hok ⊢
        simp only [Bool.or_eq_true, decide_eq_true_eq, not_or, Decidable.not_not,
          Nat.not_le] at hbad
        obtain ⟨⟨hreg, hlater⟩, -⟩ := hbad
        cases hc' : point.consumer with
        | none =>
          simp only [hc'] at hok ⊢
          obtain ⟨hend, hindex⟩ := soleEnd_of_use hres huse hc' (hreg.trans hregion.symm)
          rw [hregion] at hindex
          rcases hok with hok | hok
          · simp only [Bool.and_eq_true] at hok
            exact ⟨.regionEnd, .atEnd hin hpure hend, ⟨hindex, by simpa using hok⟩, fun _ => hok.1⟩
          · exact absurd (hin.symm.trans hok) Bool.false_ne_true
        | some c' =>
          simp only [hc'] at hok ⊢
          obtain ⟨hsole, hindex⟩ :=
            soleConsumer_of_use hres huse hc' (hreg.trans hregion.symm) hlater
          rw [hindex] at hok ⊢
          obtain ⟨-, -, -, hregion', -, -⟩ := id hsole
          obtain ⟨goal, hreach, hends⟩ := ih (hregion'.trans hregion) hok
          exact ⟨goal, .next hin hpure hsole hreach, hends⟩

/-- The goal of a walk lies behind where it starts. -/
theorem Reaches.index_le (h : Reaches L anchorEager cb c goal) (hc : c < L.count)
    (hregion : L.regionAt c = L.regionAt d) : L.indexAt c ≤ goal.index L (L.regionAt d) := by
  induction h with
  | here => exact le_rfl
  | @next c c' goal _ _ hsole _ ih =>
    obtain ⟨-, -, -, hreg, hlt, hc'⟩ := hsole
    have hindex := (Lexical.indexAt_lt_iff hc hc' hreg.symm).mpr hlt
    exact Nat.le_trans hindex.le (ih hc' (hreg.trans hregion))
  | atEnd =>
    rw [Goal.index, ← hregion]
    exact Nat.le_of_lt (Lexical.indexAt_lt_length hc)

theorem Reaches.position_region (h : Reaches L anchorEager cb c (.position t)) (hc : c < L.count) :
    t < L.count ∧ L.regionAt t = L.regionAt c ∧ c ≤ t := by
  generalize hgoal : Goal.position t = goal at h
  induction h with
  | here =>
    cases hgoal
    exact ⟨hc, rfl, le_rfl⟩
  | next _ _ hsole _ ih =>
    obtain ⟨-, -, -, hreg, hlt, hc'⟩ := hsole
    obtain ⟨ht, hreg', hle⟩ := ih hc' hgoal
    exact ⟨ht, hreg'.trans hreg, Nat.le_trans hlt.le hle⟩
  | atEnd => cases hgoal

/-- A goal that is an instruction is in place. -/
theorem Reaches.inPlace (h : Reaches L anchorEager cb c (.position t)) :
    isInPlace L anchorEager cb t = true := by
  generalize hgoal : Goal.position t = goal at h
  induction h with
  | here hin =>
    cases hgoal
    exact hin
  | next _ _ _ _ ih => exact ih hgoal
  | atEnd => cases hgoal

theorem Reaches.after (h : Reaches L anchorEager cb c goal) (hc : c < L.count)
    (hregion : L.regionAt c = L.regionAt d) (hk : k < L.count) (hkr : L.regionAt k = L.regionAt d)
    (hlt : L.indexAt k < goal.index L (L.regionAt d)) : goal.After k := by
  cases goal with
  | regionEnd => trivial
  | position t =>
    obtain ⟨ht, hreg, -⟩ := h.position_region hc
    exact (Lexical.indexAt_lt_iff hk ht (hkr.trans (hreg.trans hregion).symm)).mp hlt

/-- The walk finds every goal, given as many rounds as the region has instructions left. -/
theorem Reaches.terminalWalk {goal : Goal} (h : Reaches L anchorEager cb c goal)
    (hc : c < L.count) (hregion : L.regionAt c = L.regionAt d)
    (hclear : ∀ k, k < L.count → L.regionAt k = L.regionAt d → c < k → goal.After k →
      blocksMotion L d k = false)
    (hread : goal = .regionEnd → movableStringSlotRead L d = true) (fuel : Nat)
    (hfuel : (L.instructionsByRegion (L.regionAt d)).length ≤ L.indexAt c + fuel) :
    goal.Ends L d (terminalWalk L anchorEager cb d fuel c (L.indexAt c)) := by
  induction fuel generalizing c with
  | zero =>
    have := Lexical.indexAt_lt_length hc
    rw [hregion] at this
    omega
  | succ fuel ih =>
    rw [Ir.terminalWalk]
    cases h with
    | here hin =>
      rw [if_pos hin]
      exact ⟨rfl, rfl, rfl⟩
    | @next _ c' _ hin hpure hsole hreach =>
      obtain ⟨v, hres, huse⟩ := hsole.soleUse
      obtain ⟨-, -, -, hreg', hlt, hc'⟩ := id hsole
      have hregion' := hreg'.trans hregion
      have hindex := (Lexical.indexAt_lt_iff hc hc' hreg'.symm).mpr hlt
      have hnone : (slice (L.instructionsByRegion (L.regionAt d)) (L.indexAt c + 1)
          (L.indexAt c')).any (blocksMotion L d) = false := by
        rw [any_eq_false]
        intro k hk
        obtain ⟨hkc, hkr, hlo, hhi⟩ := Lexical.mem_slice_region.mp hk
        have hck := (Lexical.indexAt_lt_iff hc hkc (hregion.trans hkr.symm)).mp hlo
        have hle := hreach.index_le hc' hregion'
        simpa using hclear k hkc hkr hck
          (hreach.after hc' hregion' hkc hkr (hhi.trans_le hle))
      simp only [hin, Bool.false_eq_true, if_false, hres, hpure, Bool.not_true, huse,
        Lexical.pointOf, hregion', ne_eq, not_true_eq_false, decide_false, Bool.false_or,
        Nat.not_le.mpr hindex, hnone]
      refine ih hreach hc' hregion' (fun k hk hkr hlt' => ?_) (by omega)
      exact hclear k hk hkr (hlt.trans hlt')
    | atEnd hin hpure hend =>
      obtain ⟨v, hres, huse⟩ := hend.soleUse
      have hlen := Lexical.indexAt_lt_length hc
      have hnone : (slice (L.instructionsByRegion (L.regionAt d)) (L.indexAt c + 1)
          (L.instructionsByRegion (L.regionAt d)).length).any (blocksMotion L d) = false := by
        rw [any_eq_false]
        intro k hk
        obtain ⟨hkc, hkr, hlo, -⟩ := Lexical.mem_slice_region.mp hk
        have hck := (Lexical.indexAt_lt_iff hc hkc (hregion.trans hkr.symm)).mp hlo
        simpa using hclear k hkc hkr hck trivial
      rw [hregion] at hlen huse
      simp only [hin, Bool.false_eq_true, if_false, hres, hpure, Bool.not_true, huse,
        Lexical.endOf, ne_eq, not_true_eq_false, decide_false, Bool.false_or,
        Nat.not_le.mpr hlen, hnone]
      exact ⟨rfl, by simpa using hread rfl⟩

/-- **The pass releases what is movable.** -/
theorem releases_iff : releases L anchorEager cb v = true ↔
    ∃ d goal, L.resultAt d = some v ∧ Movable L anchorEager cb d goal := by
  constructor
  · intro h
    rw [releases] at h
    cases hd : L.definition v with
    | none => simp only [hd] at h; cases h
    | some d =>
      cases huse : L.soleUse v with
      | none => simp only [hd, huse] at h; cases h
      | some use =>
        simp only [hd, huse] at h
        cases hc : use.consumer with
        | none => simp only [hc] at h; cases h
        | some c =>
          simp only [hc] at h
          split at h
          · cases h
          rename_i hbad
          simp only [Bool.or_eq_true, decide_eq_true_eq, not_or, Decidable.not_not, Nat.not_le,
            Int.not_le, ge_iff_le] at hbad
          obtain ⟨⟨⟨hnested, himpure⟩, hreg⟩, hlater⟩ := hbad
          have hres := Lexical.definition_eq_some.mp hd
          obtain ⟨hsole, hindex⟩ := soleConsumer_of_use hres huse hc hreg hlater
          obtain ⟨-, -, -, hregc, hdc, hcc⟩ := id hsole
          rw [hindex] at h
          simp only [Bool.and_eq_true, Bool.or_eq_true, Bool.not_eq_true'] at h
          obtain ⟨hok, hclear⟩ := h
          obtain ⟨goal, hreach, hends, hread⟩ := terminalWalk_reaches hregc hok
          refine ⟨d, goal, hres, hnested, by simpa using himpure, ⟨c, hsole, hreach⟩, ?_, hread⟩
          intro k hk hkr hdk hafter
          have hmem : k ∈ slice (L.instructionsByRegion (L.regionAt d)) (L.indexAt d + 1)
              (goal.index L (L.regionAt d)) := by
            refine Lexical.mem_slice_region.mpr ⟨hk, hkr, ?_, ?_⟩
            · exact (Lexical.indexAt_lt_iff (Lexical.lt_of_resultAt hres) hk hkr.symm).mpr hdk
            · cases goal with
              | position t =>
                obtain ⟨ht, hreg', -⟩ := hreach.position_region hcc
                exact (Lexical.indexAt_lt_iff hk ht (hkr.trans (hreg'.trans hregc).symm)).mpr hafter
              | regionEnd =>
                rw [Goal.index, ← hkr]
                exact Lexical.indexAt_lt_length hk
          rw [hends.1] at hclear
          simpa using any_eq_false.mp hclear k hmem
  · rintro ⟨d, goal, hres, hm⟩
    obtain ⟨c, hsole, hreach⟩ := hm.reaches
    obtain ⟨w, hw, huse⟩ := hsole.soleUse
    obtain rfl := Option.some.inj (hw.symm.trans hres)
    obtain ⟨-, -, -, hregc, hdc, hcc⟩ := id hsole
    have hdcount := Lexical.lt_of_resultAt hres
    have hlater := (Lexical.indexAt_lt_iff hdcount hcc hregc.symm).mpr hdc
    have hends := hreach.terminalWalk hcc hregc
      (fun k hk hkr hck => hm.clear k hk hkr (hdc.trans hck)) hm.slotRead
      (L.instructionsByRegion (L.regionAt d)).length (Nat.le_add_left _ _)
    have hclear : (slice (L.instructionsByRegion (L.regionAt d)) (L.indexAt d + 1)
        (goal.index L (L.regionAt d))).any (blocksMotion L d) = false := by
      rw [any_eq_false]
      intro k hk
      obtain ⟨hkc, hkr, hlo, hhi⟩ := Lexical.mem_slice_region.mp hk
      have hdk := (Lexical.indexAt_lt_iff hdcount hkc hkr.symm).mp hlo
      simpa using hm.clear k hkc hkr hdk (hreach.after hcc hregc hkc hkr hhi)
    have hgoal : ((terminalWalk L anchorEager cb d (L.instructionsByRegion (L.regionAt d)).length c
          (L.indexAt c)).atRegionEnd || isInPlace L anchorEager cb
        (terminalWalk L anchorEager cb d (L.instructionsByRegion (L.regionAt d)).length c
          (L.indexAt c)).consumer) = true := by
      cases goal with
      | regionEnd => rw [hends.2, Bool.true_or]
      | position t => rw [hends.2.1, hreach.inPlace, Bool.or_true]
    simp only [releases, Lexical.definition_eq_some.mpr hres, huse, Lexical.pointOf]
    rw [if_neg, hends.1, hclear, hgoal]
    · rfl
    · simpa [hm.impure, hregc] using ⟨hm.nested, hlater⟩

/-! ### Releasing one value after another -/

/-- Fewer values in place, and the missing ones are not pure. -/
structure Shrinks (L : Lexical) (cb' cb : List IrValueId) : Prop where
  subset : ∀ v ∈ cb', v ∈ cb
  impure : ∀ v ∈ cb, v ∉ cb' → ∃ d, L.resultAt d = some v ∧ effectsArePure (L.effectsAt d) = false

theorem Shrinks.refl : Shrinks L cb cb := ⟨fun _ h => h, fun _ h hn => absurd h hn⟩

theorem Shrinks.trans {cb'' : List IrValueId} (h : Shrinks L cb'' cb') (h' : Shrinks L cb' cb) :
    Shrinks L cb'' cb := by
  refine ⟨fun v hv => h'.subset v (h.subset v hv), fun v hv hn => ?_⟩
  by_cases hmid : v ∈ cb'
  · exact h.impure v hmid hn
  · exact h'.impure v hv hmid

theorem isInPlace_mono (hsub : ∀ v ∈ cb', v ∈ cb) (h : isInPlace L anchorEager cb' p = true) :
    isInPlace L anchorEager cb p = true := by
  rw [isInPlace] at h ⊢
  cases hres : L.resultAt p with
  | none => rfl
  | some v =>
    simp only [hres, Bool.or_eq_true, contains_iff_mem] at h ⊢
    exact h.imp_left (Or.imp_left (hsub v))

/-- What is in place only with more values is one of those. -/
theorem mem_of_isInPlace (h : isInPlace L anchorEager cb p = true)
    (hn : isInPlace L anchorEager cb' p = false) :
    ∃ v, L.resultAt p = some v ∧ v ∈ cb ∧ v ∉ cb' := by
  rw [isInPlace] at h hn
  cases hres : L.resultAt p with
  | none => simp [hres] at hn
  | some v =>
    simp only [hres, Bool.or_eq_true, Bool.or_eq_false_iff, contains_iff_mem] at h hn
    obtain ⟨⟨hcb', hanchor⟩, hdead⟩ := hn
    refine ⟨v, rfl, ?_, fun hv => ?_⟩
    · rcases h with (h | h) | h
      · exact h
      · exact absurd (contains_iff_mem.mpr h) (Bool.eq_false_iff.mp hanchor)
      · exact absurd h (Bool.eq_false_iff.mp hdead)
    · exact absurd (contains_iff_mem.mpr hv) (Bool.eq_false_iff.mp hcb')

section
variable (hs : Shrinks L cb' cb)
include hs

/-- A pure instruction is in place before exactly when it is afterwards. -/
theorem Shrinks.not_inPlace (hpure : effectsArePure (L.effectsAt p) = true)
    (h : isInPlace L anchorEager cb' p = false) : isInPlace L anchorEager cb p = false := by
  by_contra hin
  obtain ⟨v, hv, hcb, hcb'⟩ := mem_of_isInPlace (Bool.not_eq_false _ ▸ hin) h
  obtain ⟨d, hd, himpure⟩ := hs.impure v hcb hcb'
  rw [Lexical.resultAt_unique hd hv, hpure] at himpure
  cases himpure

theorem Reaches.mono (h : Reaches L anchorEager cb' c goal) :
    Reaches L anchorEager cb c goal := by
  induction h with
  | here hin => exact .here (isInPlace_mono hs.subset hin)
  | next hin hpure hsole _ ih => exact .next (hs.not_inPlace hpure hin) hpure hsole ih
  | atEnd hin hpure hend => exact .atEnd (hs.not_inPlace hpure hin) hpure hend

/-- **Releasing other values first makes nothing movable.** -/
theorem Movable.mono (h : Movable L anchorEager cb' d goal) :
    Movable L anchorEager cb d goal :=
  { h with reaches := h.reaches.imp fun _ hc => ⟨hc.1, hc.2.mono hs⟩ }

theorem Reaches.anti (h : Reaches L anchorEager cb c goal)
    (hgoal : ∀ t, goal = .position t → isInPlace L anchorEager cb' t = true) :
    Reaches L anchorEager cb' c goal := by
  have hkeep : ∀ {p : Nat}, isInPlace L anchorEager cb p = false →
      isInPlace L anchorEager cb' p = false := by
    intro p hp
    by_contra hin
    rw [isInPlace_mono hs.subset (Bool.not_eq_false _ ▸ hin)] at hp
    cases hp
  induction h with
  | here _ => exact .here (hgoal _ rfl)
  | next hin hpure hsole _ ih => exact .next (hkeep hin) hpure hsole (ih hgoal)
  | atEnd hin hpure hend => exact .atEnd (hkeep hin) hpure hend

/-- What is movable stays movable while its goal stays in place. -/
theorem Movable.anti (h : Movable L anchorEager cb d goal)
    (hgoal : ∀ t, goal = .position t → isInPlace L anchorEager cb' t = true) :
    Movable L anchorEager cb' d goal :=
  { h with reaches := h.reaches.imp fun _ hc => ⟨hc.1, hc.2.anti hs hgoal⟩ }

end

/-- What one decision does. -/
theorem releaseAt_cases (s : NestedSets) (v : IrValueId) :
    (releases L anchorEager s.crossBlock v = false ∧ releaseAt L anchorEager s v = s) ∨
      (releases L anchorEager s.crossBlock v = true ∧
        (releaseAt L anchorEager s v).crossBlock = s.crossBlock.filter (· ≠ v)) := by
  rw [releaseAt]
  cases h : releases L anchorEager s.crossBlock v with
  | false => exact Or.inl ⟨rfl, rfl⟩
  | true => exact Or.inr ⟨rfl, rfl⟩

theorem releaseAt_shrinks (s : NestedSets) (v : IrValueId) :
    Shrinks L (releaseAt L anchorEager s v).crossBlock s.crossBlock := by
  rcases releaseAt_cases s v with ⟨-, h⟩ | ⟨hrel, h⟩
  · rw [h]
    exact .refl
  · rw [h]
    refine ⟨fun w hw => (mem_filter.mp hw).1, fun w hw hn => ?_⟩
    obtain ⟨d, goal, hd, hm⟩ := releases_iff.mp hrel
    have hwv : w = v := by
      by_contra hne
      exact hn (mem_filter.mpr ⟨hw, by simpa using hne⟩)
    rw [hwv]
    exact ⟨d, hd, hm.impure⟩

variable (l : List IrValueId)

theorem foldl_shrinks (s : NestedSets) :
    Shrinks L (l.foldl (releaseAt L anchorEager) s).crossBlock s.crossBlock := by
  induction l generalizing s with
  | nil => exact .refl
  | cons v l ih => exact (ih _).trans (releaseAt_shrinks s v)

/-- **A released value was movable when its turn came.** -/
theorem foldl_released (hv : v ∈ s.crossBlock)
    (hn : v ∉ (l.foldl (releaseAt L anchorEager) s).crossBlock) :
    ∃ cb d goal, Shrinks L (l.foldl (releaseAt L anchorEager) s).crossBlock cb ∧
      Shrinks L cb s.crossBlock ∧ L.resultAt d = some v ∧ Movable L anchorEager cb d goal := by
  induction l generalizing s with
  | nil => exact absurd hv hn
  | cons w l ih =>
    rw [foldl_cons] at hn ⊢
    by_cases hmem : v ∈ (releaseAt L anchorEager s w).crossBlock
    · obtain ⟨cb, d, goal, hlo, hhi, hd, hm⟩ := ih hmem hn
      exact ⟨cb, d, goal, hlo, hhi.trans (releaseAt_shrinks s w), hd, hm⟩
    · rcases releaseAt_cases s w with ⟨-, h⟩ | ⟨hrel, h⟩
      · rw [h] at hmem
        exact absurd hv hmem
      · have hvw : v = w := by
          by_contra hne
          rw [h] at hmem
          exact hmem (mem_filter.mpr ⟨hv, by simpa using hne⟩)
        obtain ⟨d, goal, hd, hm⟩ := releases_iff.mp (hvw ▸ hrel)
        exact ⟨s.crossBlock, d, goal, (foldl_shrinks l _).trans (releaseAt_shrinks s w), .refl,
          hd, hm⟩

/-- A value that did not have its turn is still there. -/
theorem foldl_keeps (hv : v ∈ s.crossBlock) (hl : v ∉ l) :
    v ∈ (l.foldl (releaseAt L anchorEager) s).crossBlock := by
  induction l generalizing s with
  | nil => exact hv
  | cons w l ih =>
    obtain ⟨hvw, hl⟩ := not_or.mp (mem_cons.not.mp hl)
    apply ih _ hl
    rcases releaseAt_cases s w with ⟨-, h⟩ | ⟨-, h⟩
    · rw [h]
      exact hv
    · rw [h]
      exact mem_filter.mpr ⟨hv, by simpa using hvw⟩

end

end Js2Wasm.Ir
