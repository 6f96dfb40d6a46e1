import Js2Wasm.Ir.NestedStackification

/-! # Emitting regions

`emitBufferAsStatements`, `emitValue` and `emitInstrTree` of `ir/lower-generic.ts`, as far
as they decide which instructions a region executes: an instruction in place is emitted at
its position, the trees of its operands first; a value that is not in place is emitted where
it is read.  A region ends with the values that its carrier reads, among them the condition
of a loop that tests it there.

An SSA value is defined before it is used, so the tree of a value only needs the
instructions up to its definition.  A value of a nested buffer that needs a local is
materialized at its definition, hence no tree of a buffer is kept in a local at its first
use.
-/
namespace Js2Wasm.Ir
open Slices Reorder List

section
variable (L : Lexical) (inPlace : Nat → Bool)

/-- What reading `v` executes, as far as the first instructions define it. -/
def treeBelow : Nat → IrValueId → List Nat
  | 0, _ => []
  | n + 1, v =>
    if L.resultAt n = some v then
      if inPlace n then [] else (L.operandsAt n).flatMap (treeBelow n) ++ [n]
    else treeBelow n v

/-- What emitting an instruction executes: the trees of its operands, then itself. -/
def instrTree (k : Nat) : List Nat := (L.operandsAt k).flatMap (treeBelow L inPlace k) ++ [k]

def valueTree (v : IrValueId) : List Nat := treeBelow L inPlace L.count v

/-- The instructions in place, with their trees, and the recorded uses at the end. -/
def regionBody (r : Int) : List Nat :=
  ((L.instructionsByRegion r).filter inPlace).flatMap (instrTree L inPlace) ++
    (L.ends.filter fun e => e.1 = r).flatMap fun e => valueTree L inPlace e.2

/-- The conditions that loops test at the end of the region. -/
def regionTests (r : Int) : List Nat :=
  (L.tests.filter fun e => e.1 = r).flatMap fun e => valueTree L inPlace e.2

/-- What emitting a region executes. -/
def regionTrace (r : Int) : List Nat := regionBody L inPlace r ++ regionTests L inPlace r

end

/-- An instruction with an effect, emitted at its own position. -/
structure Kept (L : Lexical) (anchorEager cb : List IrValueId) (p : Nat) : Prop where
  lt : p < L.count
  impure : effectsArePure (L.effectsAt p) = false
  inPlace : isInPlace L anchorEager cb p = true

/-- Two reads of slots that may be swapped. -/
def Swappable (L : Lexical) (p q : Nat) : Prop :=
  L.slotReadAt p = true ∧ L.slotReadAt q = true ∧
    effectsConflict (L.effectsAt p) (L.effectsAt q) = false

/-- **Each region executes its own instructions in program order.**  With the values `cb'`
in place, every instruction with an effect that was emitted in place under `cb` is executed
once, by its own region, and two of them in their order, slot reads apart. -/
structure ProgramOrder (L : Lexical) (anchorEager cb cb' : List IrValueId) : Prop where
  once : ∀ p, Kept L anchorEager cb p → ∀ r,
    (regionTrace L (isInPlace L anchorEager cb') r).count p = if L.regionAt p = r then 1 else 0
  ordered : ∀ p q, Kept L anchorEager cb p → Kept L anchorEager cb q →
    L.regionAt p = L.regionAt q → p < q → ¬ Swappable L p q →
    Before (regionTrace L (isInPlace L anchorEager cb') (L.regionAt p)) p q

/-! ### Trees -/

section
variable {L : Lexical} {inPlace : Nat → Bool} {n p q c d k t : Nat} {v : IrValueId} {r : Int}

theorem treeBelow_of_def (hd : L.resultAt d = some v) (hn : d < n) :
    treeBelow L inPlace n v = if inPlace d then [] else instrTree L inPlace d := by
  induction n with
  | zero => exact absurd hn (Nat.not_lt_zero d)
  | succ n ih =>
    rw [treeBelow]
    by_cases hnd : n = d
    · subst hnd
      rw [if_pos hd]
      rfl
    · have hne : L.resultAt n ≠ some v := fun h => hnd (Lexical.resultAt_unique h hd)
      rw [if_neg hne]
      apply ih
      omega

theorem treeBelow_of_no_def (h : ∀ d < n, L.resultAt d ≠ some v) :
    treeBelow L inPlace n v = [] := by
  induction n with
  | zero => rfl
  | succ n ih =>
    rw [treeBelow, if_neg (h n (Nat.lt_succ_self n))]
    exact ih fun d hd => h d (Nat.lt_succ_of_lt hd)

/-! ### What carries an instruction -/

/-- The tree of `k` holds `p`: through sole consumers that are not in place, `p` leads
to `k`. -/
inductive Carries (L : Lexical) (inPlace : Nat → Bool) : Nat → Nat → Prop where
  | refl {p : Nat} : Carries L inPlace p p
  | step {p c k : Nat} : inPlace p = false → SoleConsumer L p c → Carries L inPlace c k →
      Carries L inPlace p k

theorem Carries.trans (h : Carries L inPlace p q) (h' : Carries L inPlace q k) :
    Carries L inPlace p k := by
  induction h with
  | refl => exact h'
  | step hlazy hsole _ ih => exact .step hlazy hsole (ih h')

section
variable (h : Carries L inPlace p k)
include h

theorem Carries.le : p ≤ k := by
  induction h with
  | refl => exact le_rfl
  | step _ hsole _ ih =>
    obtain ⟨-, -, -, -, hlt, -⟩ := hsole
    exact Nat.le_trans hlt.le ih

theorem Carries.regionAt : L.regionAt k = L.regionAt p := by
  induction h with
  | refl => rfl
  | step _ hsole _ ih =>
    obtain ⟨-, -, -, hreg, -⟩ := hsole
    exact ih.trans hreg

theorem Carries.lt_count (hp : p < L.count) : k < L.count := by
  induction h with
  | refl => exact hp
  | step _ hsole _ ih =>
    obtain ⟨-, -, -, -, -, hc⟩ := hsole
    exact ih hc

/-- The last consumer on the way. -/
theorem Carries.last (hne : p ≠ k) :
    ∃ d, Carries L inPlace p d ∧ inPlace d = false ∧ SoleConsumer L d k := by
  induction h with
  | refl => exact absurd rfl hne
  | @step p c k hlazy hsole hck ih =>
    by_cases hc : c = k
    · rw [← hc]
      exact ⟨p, .refl, hlazy, hsole⟩
    · obtain ⟨d, hcd, hd⟩ := ih hc
      exact ⟨d, .step hlazy hsole hcd, hd⟩

end

/-- Consumers are unique, so what `p` leads to lies on one way. -/
theorem Carries.linear (h : Carries L inPlace p q) (h' : Carries L inPlace p k) :
    Carries L inPlace q k ∨ Carries L inPlace k q := by
  induction h with
  | refl => exact Or.inl h'
  | step hlazy hsole hcq ih =>
    cases h' with
    | refl => exact Or.inr (.step hlazy hsole hcq)
    | step _ hsole' hck =>
      rw [← hsole.unique hsole'] at hck
      exact ih hck

/-- The way ends at what is in place. -/
theorem Carries.eq_of_inPlace (h : Carries L inPlace p k) (hp : inPlace p = true) : p = k := by
  cases h with
  | refl => rfl
  | step hlazy _ _ =>
    rw [hp] at hlazy
    cases hlazy

theorem Carries.inPlace_unique (h : Carries L inPlace p q) (h' : Carries L inPlace p k)
    (hq : inPlace q = true) (hk : inPlace k = true) : q = k := by
  rcases h.linear h' with hqk | hkq
  · exact hqk.eq_of_inPlace hq
  · exact (hkq.eq_of_inPlace hk).symm

/-! ### How often a tree executes an instruction -/

theorem count_le_usePoints : (L.usesAt k).count v ≤ (L.usePoints v).length := by
  by_cases hk : k < L.count
  · have hsub : List.Sublist (replicate ((L.usesAt k).count v) (L.pointOf k))
        (L.usePoints v) := by
      apply List.Sublist.trans _ (sublist_append_left _ _)
      exact @sublist_flatMap _ _ _ (fun p => replicate ((L.usesAt p).count v) (L.pointOf p)) k
        (mem_range.mpr hk)
    simpa using hsub.length_le
  · rw [Lexical.usesAt_of_ge (Nat.le_of_not_lt hk)]
    exact Nat.zero_le _

theorem pointOf_mem_usePoints (h : v ∈ L.usesAt k) : L.pointOf k ∈ L.usePoints v := by
  have hk : k < L.count := by
    by_contra hge
    rw [Lexical.usesAt_of_ge (Nat.le_of_not_lt hge)] at h
    cases h
  refine mem_append_left _ (mem_flatMap.mpr ⟨k, mem_range.mpr hk, ?_⟩)
  exact mem_replicate.mpr ⟨Nat.ne_of_gt (count_pos_iff.mpr h), rfl⟩

/-- A value with one use is an operand of its consumer only, and once. -/
theorem operandsAt_count_sole {point : LexicalUsePoint} (huse : L.usePoints v = [point]) :
    (L.operandsAt k).count v = (L.usesAt k).count v ∧
      (v ∈ L.operandsAt k → point = L.pointOf k ∧ (L.operandsAt k).count v = 1) := by
  have hle : (L.usesAt k).count v ≤ 1 := by
    have := @count_le_usePoints L k v
    rwa [huse] at this
  have heq := Lexical.operandsAt_count hle
  refine ⟨heq, fun hmem => ?_⟩
  have hpos := count_pos_iff.mpr hmem
  have hpoint := pointOf_mem_usePoints (count_pos_iff.mp (heq ▸ hpos))
  rw [huse, mem_singleton] at hpoint
  exact ⟨hpoint.symm, by omega⟩

theorem SoleConsumer.mem_operandsAt (h : SoleConsumer L d k) :
    ∃ v, L.resultAt d = some v ∧ v ∈ L.operandsAt k := by
  obtain ⟨v, hv, huse, -, -, -⟩ := h
  refine ⟨v, hv, count_pos_iff.mp ?_⟩
  rw [(operandsAt_count_sole huse).1, count_pos_iff]
  have hmem : L.pointOf k ∈ L.usePoints v := by
    rw [huse]
    exact mem_singleton_self _
  rcases mem_usePoints hmem with ⟨c, -, hc, hpoint⟩ | hend
  · obtain rfl : k = c := by simpa [Lexical.pointOf] using congrArg LexicalUsePoint.consumer hpoint
    exact hc
  · simpa [Lexical.pointOf, Lexical.endOf] using congrArg LexicalUsePoint.consumer hend

/-- Whatever carries `p` without being in place has one use. -/
def OneWay (L : Lexical) (inPlace : Nat → Bool) (p : Nat) : Prop :=
  ∀ d, Carries L inPlace p d → inPlace d = false → (∃ c, SoleConsumer L d c) ∨ SoleEnd L d

/-- An operand that carries `p` has its sole use here. -/
theorem OneWay.operand (h : OneWay L inPlace p) (hc : Carries L inPlace p d)
    (hlazy : inPlace d = false) (hd : L.resultAt d = some v) (hv : v ∈ L.operandsAt k) :
    SoleConsumer L d k ∧ (L.operandsAt k).count v = 1 := by
  rcases h d hc hlazy with ⟨c, hsole⟩ | hend
  · obtain ⟨w, hw, huse, hreg, hlt, hcount⟩ := id hsole
    obtain rfl := Option.some.inj (hw.symm.trans hd)
    obtain ⟨hpoint, hone⟩ := (@operandsAt_count_sole L k w _ huse).2 hv
    obtain rfl : c = k := by simpa [Lexical.pointOf] using congrArg LexicalUsePoint.consumer hpoint
    exact ⟨hsole, hone⟩
  · obtain ⟨w, hw, huse⟩ := hend
    obtain rfl := Option.some.inj (hw.symm.trans hd)
    obtain ⟨hpoint, -⟩ := (@operandsAt_count_sole L k w _ huse).2 hv
    simpa [Lexical.pointOf, Lexical.endOf] using congrArg LexicalUsePoint.consumer hpoint

/-- One if it holds, none if not. -/
def CountsIf (n : Nat) (P : Prop) : Prop := (P → n = 1) ∧ (¬ P → n = 0)

/-- **The tree of an instruction executes `p` once if it carries it, and else not.** -/
theorem count_instrTree (hp : OneWay L inPlace p) (k : Nat) :
    CountsIf ((instrTree L inPlace k).count p) (Carries L inPlace p k) := by
  induction k using Nat.strong_induction_on with
  | _ k ih =>
    have htree : ∀ w, (treeBelow L inPlace k w).count p = 0 ∨
        ∃ d < k, L.resultAt d = some w ∧ inPlace d = false ∧ Carries L inPlace p d ∧
          (treeBelow L inPlace k w).count p = 1 := by
      intro w
      by_cases hdef : ∃ d < k, L.resultAt d = some w
      · obtain ⟨d, hdk, hd⟩ := hdef
        rw [treeBelow_of_def hd hdk]
        cases hin : inPlace d with
        | true => exact Or.inl rfl
        | false =>
          by_cases hc : Carries L inPlace p d
          · exact Or.inr ⟨d, hdk, hd, hin, hc, (ih d hdk).1 hc⟩
          · exact Or.inl ((ih d hdk).2 hc)
      · have hnone : ∀ d < k, L.resultAt d ≠ some w := fun d hdk hd => hdef ⟨d, hdk, hd⟩
        rw [treeBelow_of_no_def hnone]
        exact Or.inl rfl
    have hcount : (instrTree L inPlace k).count p =
        ((L.operandsAt k).flatMap (treeBelow L inPlace k)).count p + [k].count p := by
      rw [instrTree, count_append]
    by_cases hop : ∃ u ∈ L.operandsAt k, (treeBelow L inPlace k u).count p ≠ 0
    · obtain ⟨u, hu, hne⟩ := hop
      obtain ⟨d, hdk, hd, hlazy, hc, hone⟩ := (htree u).resolve_left hne
      obtain ⟨hsole, hu1⟩ := hp.operand hc hlazy hd hu
      -- another operand that carries `p` would lie behind `k` on the way from `u`, or before `u`
      have hall : ∀ w ∈ L.operandsAt k,
          (treeBelow L inPlace k w).count p = if w = u then 1 else 0 := by
        intro w hw
        by_cases hwu : w = u
        · rw [hwu, hone, if_pos rfl]
        rw [if_neg hwu]
        rcases htree w with h0 | ⟨d', hdk', hd', hlazy', hc', -⟩
        · exact h0
        obtain ⟨hsole', -⟩ := hp.operand hc' hlazy' hd' hw
        have hpast : ∀ {a b : Nat}, a ≠ b → b < k → SoleConsumer L a k →
            ¬ Carries L inPlace a b := by
          intro a b hab hbk hak hcab
          cases hcab with
          | refl => exact hab rfl
          | step _ hsole'' hcb =>
            rw [← hak.unique hsole''] at hcb
            exact absurd hcb.le (Nat.not_le.mpr hbk)
        have hdd : d ≠ d' := by
          intro heq
          rw [← heq, hd] at hd'
          exact hwu (Option.some.inj hd').symm
        rcases hc.linear hc' with h | h
        · exact absurd h (hpast hdd hdk' hsole)
        · exact absurd h (hpast hdd.symm hdk hsole')
      have hcarries : Carries L inPlace p k := hc.trans (.step hlazy hsole .refl)
      have hpk : p ≠ k := Nat.ne_of_lt (hc.le.trans_lt hdk)
      refine ⟨fun _ => ?_, fun hn => absurd hcarries hn⟩
      rw [hcount, count_flatMap_of_one hall, hu1, count_singleton]
      simp [Ne.symm hpk]
    · have hzero : ∀ u ∈ L.operandsAt k, (treeBelow L inPlace k u).count p = 0 := by
        intro u hu
        by_contra hne
        exact hop ⟨u, hu, hne⟩
      rw [hcount, count_flatMap_eq_zero hzero, count_singleton, Nat.zero_add]
      refine ⟨fun hc => ?_, fun hn => ?_⟩
      · by_cases hpk : p = k
        · simp [hpk]
        exfalso
        obtain ⟨d, hpd, hlazy, hsole⟩ := hc.last hpk
        obtain ⟨v, hd, hv⟩ := hsole.mem_operandsAt
        obtain ⟨-, -, -, -, hdk, -⟩ := hsole
        have h0 := hzero v hv
        rw [treeBelow_of_def hd hdk, hlazy] at h0
        exact Nat.one_ne_zero (((ih d hdk).1 hpd).symm.trans h0)
      · have hkp : k ≠ p := fun hkp => hn (hkp ▸ .refl)
        simp [hkp]

/-- The value `v` is read as a tree that holds `p`. -/
def CarriedBy (L : Lexical) (inPlace : Nat → Bool) (p : Nat) (v : IrValueId) : Prop :=
  ∃ d, L.resultAt d = some v ∧ inPlace d = false ∧ Carries L inPlace p d

theorem count_valueTree (hp : OneWay L inPlace p) (v : IrValueId) :
    CountsIf ((valueTree L inPlace v).count p) (CarriedBy L inPlace p v) := by
  by_cases hdef : ∃ d, L.resultAt d = some v
  · obtain ⟨d, hd⟩ := hdef
    rw [valueTree, treeBelow_of_def hd (Lexical.lt_of_resultAt hd)]
    have hiff : CarriedBy L inPlace p v ↔ inPlace d = false ∧ Carries L inPlace p d := by
      constructor
      · rintro ⟨d', hd', h⟩
        rw [Lexical.resultAt_unique hd hd']
        exact h
      · exact fun h => ⟨d, hd, h⟩
    rw [CountsIf, hiff]
    cases hin : inPlace d with
    | true => exact ⟨fun h => (Bool.noConfusion h.1), fun _ => rfl⟩
    | false =>
      refine ⟨fun h => (count_instrTree hp d).1 h.2, fun h => ?_⟩
      exact (count_instrTree hp d).2 fun hc => h ⟨rfl, hc⟩
  · rw [valueTree, treeBelow_of_no_def fun d _ hd => hdef ⟨d, hd⟩]
    exact ⟨fun ⟨d, hd, _⟩ => absurd ⟨d, hd⟩ hdef, fun _ => rfl⟩

end

end Js2Wasm.Ir
