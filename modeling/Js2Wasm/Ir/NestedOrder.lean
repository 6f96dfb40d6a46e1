import Js2Wasm.Ir.NestedEmission
import Js2Wasm.Ir.ScheduleRun

/-! # Nested stackification keeps the program order

Every instruction with an effect that the pass moves has one way to go: its sole consumers
lead to an instruction that stays in place, or to the end of the region
(`Decided.emitted`).  Nothing with an effect lies between but its consumers on that way, and
reads of slots where it is one itself (`Decided.crosses`).  So a region's own instructions
are executed once and in program order.

What the pass does not see is the condition of a loop: `visitLexicalBuffer` does not record
it as a use.  A region is executed in program order exactly when no loop tests a value that
the pass moves, or one on its way (`stackify_programOrder`).
-/
namespace Js2Wasm.Ir
open Slices Reorder List

section
variable {L : Lexical} {anchorEager cb cb' cb'' : List IrValueId} {p q c d k t : Nat}
  {v w : IrValueId} {r : Int} {goal : Goal}

/-! ### The way of a moved instruction -/

/-- What is not in place under more values is not in place under fewer. -/
theorem not_inPlace_mono (hsub : ∀ v ∈ cb', v ∈ cb) (h : isInPlace L anchorEager cb p = false) :
    isInPlace L anchorEager cb' p = false := by
  by_contra hin
  rw [isInPlace_mono hsub (Bool.not_eq_false _ ▸ hin)] at h
  cases h

theorem Reaches.carries (hs : Shrinks L cb' cb) (h : Reaches L anchorEager cb c (.position t)) :
    Carries L (isInPlace L anchorEager cb') c t := by
  generalize hgoal : Goal.position t = goal at h
  induction h with
  | here _ =>
    cases hgoal
    exact .refl
  | next hin _ hsole _ ih => exact .step (not_inPlace_mono hs.subset hin) hsole (ih hgoal)
  | atEnd => cases hgoal

theorem Reaches.carries_end (hs : Shrinks L cb' cb) (h : Reaches L anchorEager cb c .regionEnd) :
    ∃ d, Carries L (isInPlace L anchorEager cb') c d ∧
      isInPlace L anchorEager cb' d = false ∧ SoleEnd L d := by
  generalize hgoal : Goal.regionEnd = goal at h
  induction h with
  | here _ => cases hgoal
  | next hin _ hsole _ ih =>
    obtain ⟨d, hcd, hlazy, hend⟩ := ih hgoal
    exact ⟨d, .step (not_inPlace_mono hs.subset hin) hsole hcd, hlazy, hend⟩
  | atEnd hin _ hend => exact ⟨_, .refl, not_inPlace_mono hs.subset hin, hend⟩

/-- On the way to a goal everything has one use; beyond the goal only the goal leads. -/
theorem Reaches.one_way (h : Reaches L anchorEager cb c goal)
    (hc : Carries L (isInPlace L anchorEager cb') c d) :
    ((∃ c', SoleConsumer L d c') ∨ SoleEnd L d) ∨
      ∃ t, goal = .position t ∧ Carries L (isInPlace L anchorEager cb') t d := by
  induction h with
  | here _ => exact Or.inr ⟨_, rfl, hc⟩
  | next _ _ hsole _ ih =>
    cases hc with
    | refl => exact Or.inl (Or.inl ⟨_, hsole⟩)
    | step _ hsole' hcd =>
      rw [← hsole.unique hsole'] at hcd
      exact ih hcd
  | atEnd _ _ hend =>
    cases hc with
    | refl => exact Or.inl (Or.inr hend)
    | step _ hsole _ => exact absurd hsole hend.not_consumer

/-- **The pass has decided**: what it moved was movable when its turn came. -/
structure Decided (L : Lexical) (anchorEager cb cb' : List IrValueId) : Prop where
  shrinks : Shrinks L cb' cb
  movable : ∀ p, isInPlace L anchorEager cb p = true → isInPlace L anchorEager cb' p = false →
    ∃ cbt goal, Shrinks L cb' cbt ∧ Shrinks L cbt cb ∧ Movable L anchorEager cbt p goal

theorem stackify_decided (s : NestedSets) :
    Decided L anchorEager s.crossBlock (stackifyMovableNestedValues L anchorEager s).crossBlock where
  shrinks := foldl_shrinks _ _
  movable p hin hout := by
    obtain ⟨v, hv, hcb, hcb'⟩ := mem_of_isInPlace hin hout
    obtain ⟨cbt, d, goal, hlo, hhi, hd, hm⟩ := foldl_released _ hcb hcb'
    rw [Lexical.resultAt_unique hd hv] at hm
    exact ⟨cbt, goal, hlo, hhi, hm⟩

namespace Decided
variable (D : Decided L anchorEager cb cb')
include D

/-- The goal of a moved instruction has an effect too, if the pass moved it. -/
theorem kept_goal {cbt : List IrValueId} (hhi : Shrinks L cbt cb)
    (hin : isInPlace L anchorEager cbt t = true) (hout : isInPlace L anchorEager cb' t = false)
    (ht : t < L.count) : Kept L anchorEager cb t := by
  have hincb := isInPlace_mono hhi.subset hin
  obtain ⟨v, hv, hcb, hcb'⟩ := mem_of_isInPlace hincb hout
  obtain ⟨d, hd, himpure⟩ := D.shrinks.impure v hcb hcb'
  rw [Lexical.resultAt_unique hd hv] at himpure
  exact ⟨ht, himpure, hincb⟩

theorem oneWay (hp : Kept L anchorEager cb p) : OneWay L (isInPlace L anchorEager cb') p := by
  -- the way ends behind `p`, so the induction is on what is left of the function
  induction hn : L.count - p using Nat.strong_induction_on generalizing p with
  | _ n ih =>
    intro d hpd hlazy
    cases hout : isInPlace L anchorEager cb' p with
    | true =>
      rw [← hpd.eq_of_inPlace hout, hout] at hlazy
      cases hlazy
    | false =>
      obtain ⟨cbt, goal, hlo, hhi, hm⟩ := D.movable p hp.inPlace hout
      obtain ⟨c, hsole, hreach⟩ := hm.reaches
      cases hpd with
      | refl => exact Or.inl ⟨c, hsole⟩
      | step _ hsole' hcd =>
        rw [← hsole.unique hsole'] at hcd
        rcases hreach.one_way hcd with hone | ⟨t, rfl, htd⟩
        · exact hone
        obtain ⟨-, -, -, -, hpc, hcc⟩ := hsole
        obtain ⟨ht, -, hct⟩ := hreach.position_region hcc
        cases htin : isInPlace L anchorEager cb' t with
        | true =>
          rw [← htd.eq_of_inPlace htin, htin] at hlazy
          cases hlazy
        | false =>
          have hkept := D.kept_goal hhi hreach.inPlace htin ht
          exact ih (L.count - t) (by have := hp.lt; omega) hkept rfl d htd hlazy

/-- **Every moved instruction is emitted**: at an instruction in place, or at the end. -/
theorem emitted (hp : Kept L anchorEager cb p) :
    (∃ t, Carries L (isInPlace L anchorEager cb') p t ∧ isInPlace L anchorEager cb' t = true) ∨
      ∃ d, Carries L (isInPlace L anchorEager cb') p d ∧
        isInPlace L anchorEager cb' d = false ∧ SoleEnd L d := by
  induction hn : L.count - p using Nat.strong_induction_on generalizing p with
  | _ n ih =>
    cases hout : isInPlace L anchorEager cb' p with
    | true => exact Or.inl ⟨p, .refl, hout⟩
    | false =>
      obtain ⟨cbt, goal, hlo, hhi, hm⟩ := D.movable p hp.inPlace hout
      obtain ⟨c, hsole, hreach⟩ := hm.reaches
      obtain ⟨-, -, -, -, hpc, hcc⟩ := id hsole
      cases goal with
      | regionEnd =>
        obtain ⟨d, hcd, hlazy, hend⟩ := hreach.carries_end hlo
        exact Or.inr ⟨d, .step hout hsole hcd, hlazy, hend⟩
      | position t =>
        have hpt : Carries L (isInPlace L anchorEager cb') p t :=
          .step hout hsole (hreach.carries hlo)
        cases htin : isInPlace L anchorEager cb' t with
        | true => exact Or.inl ⟨t, hpt, htin⟩
        | false =>
          obtain ⟨ht, -, hct⟩ := hreach.position_region hcc
          have hkept := D.kept_goal hhi hreach.inPlace htin ht
          refine (ih (L.count - t) (by have := hp.lt; omega) hkept rfl).imp ?_ ?_
          · exact fun ⟨u, htu, hu⟩ => ⟨u, hpt.trans htu, hu⟩
          · exact fun ⟨d, htd, hd⟩ => ⟨d, hpt.trans htd, hd⟩

omit D in
/-- What may lie between: nothing with an effect, but slot reads around a slot read. -/
theorem swappable_of_clear (hq : effectsArePure (L.effectsAt q) = false)
    (hclear : blocksMotion L p q = false) : Swappable L p q ∧ L.stringResultAt p = true := by
  rw [blocksMotion, if_neg (by simp [hq])] at hclear
  simp only [movableStringSlotRead, Bool.or_eq_false_iff, Bool.not_eq_false', Bool.and_eq_true]
    at hclear
  obtain ⟨⟨⟨hread, hstring⟩, hreadq⟩, hconf⟩ := hclear
  exact ⟨⟨hread, hreadq, hconf⟩, hstring⟩

/-- **What a moved instruction passes.** -/
theorem crosses (hp : Kept L anchorEager cb p) (hq : Kept L anchorEager cb q)
    (hreg : L.regionAt p = L.regionAt q) (hpq : p < q) :
    Carries L (isInPlace L anchorEager cb') p q ∨ Swappable L p q ∨
      ∃ t, Carries L (isInPlace L anchorEager cb') p t ∧
        isInPlace L anchorEager cb' t = true ∧ t < q := by
  induction hn : L.count - p using Nat.strong_induction_on generalizing p with
  | _ n ih =>
    cases hout : isInPlace L anchorEager cb' p with
    | true => exact Or.inr (Or.inr ⟨p, .refl, hout, hpq⟩)
    | false =>
      obtain ⟨cbt, goal, hlo, hhi, hm⟩ := D.movable p hp.inPlace hout
      obtain ⟨c, hsole, hreach⟩ := hm.reaches
      obtain ⟨-, -, -, hregc, hpc, hcc⟩ := id hsole
      by_cases hafter : goal.After q
      · -- between the definition and the goal
        have hclear := hm.clear q hq.lt hreg.symm hpq hafter
        exact Or.inr (Or.inl (swappable_of_clear hq.impure hclear).1)
      cases goal with
      | regionEnd => exact absurd trivial hafter
      | position t =>
        have hpt : Carries L (isInPlace L anchorEager cb') p t :=
          .step hout hsole (hreach.carries hlo)
        obtain ⟨ht, hregt, hct⟩ := hreach.position_region hcc
        have htq : t ≤ q := Nat.le_of_not_lt hafter
        by_cases heq : t = q
        · rw [← heq]
          exact Or.inl hpt
        have hlt : t < q := Nat.lt_of_le_of_ne htq heq
        cases htin : isInPlace L anchorEager cb' t with
        | true => exact Or.inr (Or.inr ⟨t, hpt, htin, hlt⟩)
        | false =>
          have hkept := D.kept_goal hhi hreach.inPlace htin ht
          have hregtq : L.regionAt t = L.regionAt q := hregt.trans (hregc.trans hreg)
          rcases ih (L.count - t) (by have := hp.lt; omega) hkept hregtq hlt rfl with
            h | h | ⟨u, htu, hu⟩
          · exact Or.inl (hpt.trans h)
          · -- a goal has operands, so it is no slot read
            have hpt' : p ≠ t := by omega
            obtain ⟨d, -, -, hlast⟩ := hpt.last hpt'
            exact absurd h.1 (by rw [hlast.not_slotRead]; exact Bool.false_ne_true)
          · exact Or.inr (Or.inr ⟨u, hpt.trans htu, hu⟩)

end Decided

/-! ### Each instruction once -/

/-- A use at the end of a region is recorded. -/
theorem endOf_mem_usePoints (h : (r, v) ∈ L.ends) : L.endOf r ∈ L.usePoints v := by
  refine mem_append_right _ (mem_map.mpr ⟨(r, v), ?_, rfl⟩)
  exact mem_filter.mpr ⟨h, by simp⟩

/-- A sole use at the end is one entry of the ends. -/
theorem SoleEnd.count_ends (h : SoleEnd L d) (hd : L.resultAt d = some v) :
    (L.ends.filter fun e => e.1 = r).count (r, v) = if L.regionAt d = r then 1 else 0 := by
  obtain ⟨w, hw, huse⟩ := h
  obtain rfl := Option.some.inj (hw.symm.trans hd)
  rw [Lexical.usePoints] at huse
  have hnone : ((range L.count).flatMap fun p =>
      replicate ((L.usesAt p).count w) (L.pointOf p)) = [] := by
    rw [eq_nil_iff_forall_not_mem]
    intro x hx
    have hmem := mem_append_left ((L.ends.filter fun e => e.2 = w).map fun e => L.endOf e.1) hx
    rw [huse, mem_singleton] at hmem
    obtain ⟨k, -, hk⟩ := mem_flatMap.mp hx
    obtain ⟨-, rfl⟩ := mem_replicate.mp hk
    simpa [Lexical.pointOf, Lexical.endOf] using congrArg LexicalUsePoint.consumer hmem
  rw [hnone, nil_append] at huse
  obtain ⟨⟨r', w'⟩, hone, hend⟩ := map_eq_singleton_iff.mp huse
  have hmem : (r', w') ∈ L.ends.filter fun e => e.2 = w := by
    rw [hone]
    exact mem_singleton_self _
  obtain rfl : w' = w := by simpa using (mem_filter.mp hmem).2
  obtain rfl : r' = L.regionAt d := by
    simpa [Lexical.endOf] using congrArg LexicalUsePoint.region hend
  have hcount : L.ends.count (r, w') = (L.ends.filter fun e => e.2 = w').count (r, w') :=
    (count_filter (by simp)).symm
  rw [count_filter (by simp), hcount, hone, count_singleton]
  by_cases hr : L.regionAt d = r
  · rw [if_pos hr, hr, if_pos (by simp)]
  · rw [if_neg hr, if_neg (by simpa using hr)]

variable {inPlace : Nat → Bool}

theorem count_instructionsByRegion (ht : t < L.count) (hin : inPlace t = true) :
    ((L.instructionsByRegion r).filter inPlace).count t = if L.regionAt t = r then 1 else 0 := by
  rw [count_filter hin]
  by_cases hr : L.regionAt t = r
  · rw [if_pos hr]
    exact count_eq_one_of_mem Lexical.instructionsByRegion_nodup
      (Lexical.mem_instructionsByRegion.mpr ⟨ht, hr⟩)
  · rw [if_neg hr, count_eq_zero]
    exact fun hmem => hr (Lexical.mem_instructionsByRegion.mp hmem).2

/-- What is read at the end of a region and carries `p` has no other use. -/
theorem OneWay.soleEnd (h : OneWay L inPlace p) (hc : Carries L inPlace p d)
    (hlazy : inPlace d = false) (hd : L.resultAt d = some v) (hv : (r, v) ∈ L.ends) :
    SoleEnd L d := by
  rcases h d hc hlazy with ⟨c, w, hw, huse, -, -, -⟩ | hend
  · obtain rfl := Option.some.inj (hw.symm.trans hd)
    have hmem := endOf_mem_usePoints hv
    rw [huse, mem_singleton] at hmem
    simpa [Lexical.pointOf, Lexical.endOf] using congrArg LexicalUsePoint.consumer hmem
  · exact hend

/-- A way that ends at the end of the region meets nothing in place. -/
theorem Carries.not_inPlace_of_end (hd : Carries L inPlace p d) (hlazy : inPlace d = false)
    (hend : SoleEnd L d) (ht : Carries L inPlace p t) : inPlace t = false := by
  cases hin : inPlace t with
  | false => rfl
  | true =>
    rcases hd.linear ht with hdt | htd
    · cases hdt with
      | refl => rw [hin] at hlazy; cases hlazy
      | step _ hsole _ => exact absurd hsole hend.not_consumer
    · rw [htd.eq_of_inPlace hin, hlazy] at hin
      cases hin

/-- A way has one end. -/
theorem Carries.end_unique (hd : Carries L inPlace p d) (hend : SoleEnd L d)
    (ht : Carries L inPlace p t) (htend : SoleEnd L t) : d = t := by
  rcases hd.linear ht with h | h
  · cases h with
    | refl => rfl
    | step _ hsole _ => exact absurd hsole hend.not_consumer
  · cases h with
    | refl => rfl
    | step _ hsole _ => exact absurd hsole htend.not_consumer

/-- **Tests apart, an instruction is executed once, by its own region.** -/
theorem Decided.count_regionBody (D : Decided L anchorEager cb cb')
    (hp : Kept L anchorEager cb p) (r : Int) :
    (regionBody L (isInPlace L anchorEager cb') r).count p =
      if L.regionAt p = r then 1 else 0 := by
  have hway := D.oneWay hp
  rw [regionBody, count_append]
  rcases D.emitted hp with ⟨t, hpt, hin⟩ | ⟨d, hpd, hlazy, hend⟩
  · have hbody : ∀ k ∈ (L.instructionsByRegion r).filter (isInPlace L anchorEager cb'),
        (instrTree L (isInPlace L anchorEager cb') k).count p = if k = t then 1 else 0 := by
      intro k hk
      by_cases hkt : k = t
      · rw [if_pos hkt, hkt]
        exact (count_instrTree hway t).1 hpt
      · rw [if_neg hkt]
        refine (count_instrTree hway k).2 fun hpk => hkt ?_
        exact hpk.inPlace_unique hpt (mem_filter.mp hk).2 hin
    have hends : ∀ e ∈ L.ends.filter fun e => e.1 = r,
        (valueTree L (isInPlace L anchorEager cb') e.2).count p = 0 := by
      intro e he
      refine (count_valueTree hway e.2).2 fun ⟨d, hd, hlazy, hpd⟩ => ?_
      have hend := hway.soleEnd hpd hlazy hd (mem_filter.mp he).1
      exact Bool.false_ne_true ((hpd.not_inPlace_of_end hlazy hend hpt).symm.trans hin)
    rw [count_flatMap_of_one hbody, count_flatMap_eq_zero hends,
      count_instructionsByRegion (hpt.lt_count hp.lt) hin, hpt.regionAt, Nat.mul_one, Nat.add_zero]
  · obtain ⟨v, hd, -⟩ := id hend
    have hbody : ∀ k ∈ (L.instructionsByRegion r).filter (isInPlace L anchorEager cb'),
        (instrTree L (isInPlace L anchorEager cb') k).count p = 0 := by
      intro k hk
      refine (count_instrTree hway k).2 fun hpk => ?_
      exact Bool.false_ne_true ((hpd.not_inPlace_of_end hlazy hend hpk).symm.trans
        (mem_filter.mp hk).2)
    have hends : ∀ e ∈ L.ends.filter fun e => e.1 = r,
        (valueTree L (isInPlace L anchorEager cb') e.2).count p = if e = (r, v) then 1 else 0 := by
      rintro ⟨r', w⟩ he
      obtain ⟨hmem, hr⟩ := mem_filter.mp he
      obtain rfl : r' = r := by simpa using hr
      by_cases hwv : w = v
      · rw [if_pos (by rw [hwv]), hwv]
        exact (count_valueTree hway v).1 ⟨d, hd, hlazy, hpd⟩
      · rw [if_neg fun h => hwv (Prod.mk.inj h).2]
        refine (count_valueTree hway w).2 fun ⟨d', hd', hlazy', hpd'⟩ => hwv ?_
        have heq := hpd'.end_unique (hway.soleEnd hpd' hlazy' hd' hmem) hpd hend
        rw [heq, hd] at hd'
        exact (Option.some.inj hd').symm
    rw [count_flatMap_eq_zero hbody, count_flatMap_of_one hends, hend.count_ends hd, hpd.regionAt,
      Nat.mul_one, Nat.zero_add]

/-! ### In program order -/

/-- The tree of what carries `p` holds the tree of `p`. -/
theorem Carries.instrTree_sublist (h : Carries L inPlace p k) :
    List.Sublist (instrTree L inPlace p) (instrTree L inPlace k) := by
  induction h with
  | refl => exact List.Sublist.refl _
  | @step p c k hlazy hsole _ ih =>
    obtain ⟨v, hv, hmem⟩ := hsole.mem_operandsAt
    obtain ⟨-, -, -, -, hlt, -⟩ := hsole
    have htree : treeBelow L inPlace c v = instrTree L inPlace p := by
      rw [treeBelow_of_def hv hlt, hlazy]
      rfl
    have hsub := @sublist_flatMap _ _ _ (treeBelow L inPlace c) v hmem
    rw [htree] at hsub
    exact (hsub.trans (sublist_append_left _ _)).trans ih

theorem instrTree_sublist_body (ht : t < L.count) (hin : inPlace t = true) :
    List.Sublist (instrTree L inPlace t) (regionBody L inPlace (L.regionAt t)) := by
  apply List.Sublist.trans _ (sublist_append_left _ _)
  apply sublist_flatMap
  exact mem_filter.mpr ⟨Lexical.mem_instructionsByRegion.mpr ⟨ht, rfl⟩, hin⟩

theorem mem_instrTree_of_carries (h : Carries L inPlace p k) : p ∈ instrTree L inPlace k :=
  h.instrTree_sublist.subset (mem_append_right _ (mem_singleton_self p))

namespace Decided
variable (D : Decided L anchorEager cb cb')
include D

/-- The tree of a kept instruction is emitted whole, by its own region. -/
theorem tree_emitted (hq : Kept L anchorEager cb q) :
    List.Sublist (instrTree L (isInPlace L anchorEager cb') q)
      (regionBody L (isInPlace L anchorEager cb') (L.regionAt q)) := by
  rcases D.emitted hq with ⟨t, hqt, hin⟩ | ⟨d, hqd, hlazy, w, hw, huse⟩
  · rw [← hqt.regionAt]
    exact hqt.instrTree_sublist.trans (instrTree_sublist_body (hqt.lt_count hq.lt) hin)
  · have htree : valueTree L (isInPlace L anchorEager cb') w =
        instrTree L (isInPlace L anchorEager cb') d := by
      rw [valueTree, treeBelow_of_def hw (Lexical.lt_of_resultAt hw), hlazy]
      rfl
    have hcount := @SoleEnd.count_ends L d w (L.regionAt d) ⟨w, hw, huse⟩ hw
    rw [if_pos rfl] at hcount
    have hmem := count_pos_iff.mp (Nat.lt_of_lt_of_eq Nat.one_pos hcount.symm)
    rw [← hqd.regionAt]
    apply hqd.instrTree_sublist.trans
    apply List.Sublist.trans _ (sublist_append_right _ _)
    rw [← htree]
    exact @sublist_flatMap _ _ _
      (fun e : Int × IrValueId => valueTree L (isInPlace L anchorEager cb') e.2) _ hmem

theorem before_body (hp : Kept L anchorEager cb p) (hq : Kept L anchorEager cb q)
    (hreg : L.regionAt p = L.regionAt q) (hpq : p < q) (hswap : ¬ Swappable L p q) :
    Before (regionBody L (isInPlace L anchorEager cb') (L.regionAt p)) p q := by
  rcases D.crosses hp hq hreg hpq with hc | hs | ⟨t, hpt, hin, htq⟩
  · -- `q` consumes `p`: operands come before their consumer
    rw [hreg]
    apply Before.mono _ (D.tree_emitted hq)
    have hmem := mem_instrTree_of_carries hc
    rw [instrTree, mem_append] at hmem
    have hop := hmem.resolve_right fun h => Nat.ne_of_lt hpq (mem_singleton.mp h)
    exact before_append hop (mem_singleton_self q)
  · exact absurd hs hswap
  · have hmemt : t ∈ (L.instructionsByRegion (L.regionAt p)).filter
        (isInPlace L anchorEager cb') := by
      refine mem_filter.mpr ⟨?_, hin⟩
      exact Lexical.mem_instructionsByRegion.mpr ⟨hpt.lt_count hp.lt, hpt.regionAt⟩
    rcases D.emitted hq with ⟨u, hqu, hinu⟩ | ⟨d, hqd, hlazy, w, hw, huse⟩
    · have hmemu : u ∈ (L.instructionsByRegion (L.regionAt p)).filter
          (isInPlace L anchorEager cb') := by
        refine mem_filter.mpr ⟨?_, hinu⟩
        exact Lexical.mem_instructionsByRegion.mpr ⟨hqu.lt_count hq.lt, hqu.regionAt.trans hreg.symm⟩
      have htu : t < u := htq.trans_le hqu.le
      have hbefore : Before ((L.instructionsByRegion (L.regionAt p)).filter
          (isInPlace L anchorEager cb')) t u := by
        rcases before_total hmemt hmemu htu.ne with h | h
        · exact h
        · have := before_of_pairwise (Lexical.instructionsByRegion_sorted.filter _) h
          omega
      apply Before.mono _ (sublist_append_left _ _)
      exact before_flatMap hbefore (mem_instrTree_of_carries hpt) (mem_instrTree_of_carries hqu)
    · have hcount := @SoleEnd.count_ends L d w (L.regionAt d) ⟨w, hw, huse⟩ hw
      rw [if_pos rfl] at hcount
      have hmem := count_pos_iff.mp (Nat.lt_of_lt_of_eq Nat.one_pos hcount.symm)
      rw [hqd.regionAt, ← hreg] at hmem
      have htree : valueTree L (isInPlace L anchorEager cb') w =
          instrTree L (isInPlace L anchorEager cb') d := by
        rw [valueTree, treeBelow_of_def hw (Lexical.lt_of_resultAt hw), hlazy]
        rfl
      refine before_append (mem_flatMap.mpr ⟨t, hmemt, mem_instrTree_of_carries hpt⟩) ?_
      refine mem_flatMap.mpr ⟨_, hmem, ?_⟩
      rw [htree]
      exact mem_instrTree_of_carries hqd

end Decided

/-! ### The conditions of loops -/

/-- While `cb` is in place, `p` is emitted at `d` or past it. -/
inductive OnTheWay (L : Lexical) (anchorEager cb : List IrValueId) : Nat → Nat → Prop where
  | refl {p : Nat} : OnTheWay L anchorEager cb p p
  | step {p c d : Nat} : SoleConsumer L p c → isInPlace L anchorEager cb c = false →
      OnTheWay L anchorEager cb c d → OnTheWay L anchorEager cb p d

/-- **No loop tests a value that can be released, or one on its way.** -/
def TestsUntouched (L : Lexical) (anchorEager cb : List IrValueId) : Prop :=
  ∀ v ∈ cb, v ∉ anchorEager → releases L anchorEager cb v = true →
    ∀ p d w, L.resultAt p = some v → OnTheWay L anchorEager cb p d → L.resultAt d = some w →
      ∀ e ∈ L.tests, e.2 ≠ w

section
variable (D : Decided L anchorEager cb cb')
include D

/-- What was moved is a value that can be released. -/
theorem Decided.moved (hin : isInPlace L anchorEager cb p = true)
    (hout : isInPlace L anchorEager cb' p = false) :
    ∃ v ∈ cb, v ∉ anchorEager ∧ L.resultAt p = some v ∧ releases L anchorEager cb v = true := by
  obtain ⟨v, hv, hcb, -⟩ := mem_of_isInPlace hin hout
  obtain ⟨cbt, goal, -, hhi, hm⟩ := D.movable p hin hout
  refine ⟨v, hcb, fun hanchor => ?_, hv, releases_iff.mpr ⟨p, goal, hv, hm.mono hhi⟩⟩
  simp [isInPlace, hv, hanchor] at hout

/-- Whatever is emitted past `d` is a moved value on whose way `d` lies, or comes after
one. -/
theorem Decided.way_back (h : Carries L (isInPlace L anchorEager cb') c d)
    (hlazy : isInPlace L anchorEager cb' d = false) :
    (∃ p v, v ∈ cb ∧ v ∉ anchorEager ∧ L.resultAt p = some v ∧
        releases L anchorEager cb v = true ∧ OnTheWay L anchorEager cb p d) ∨
      (isInPlace L anchorEager cb c = false ∧ OnTheWay L anchorEager cb c d) := by
  induction h with
  | refl =>
    rename_i c
    cases hin : isInPlace L anchorEager cb c with
    | false => exact Or.inr ⟨rfl, .refl⟩
    | true =>
      obtain ⟨v, hcb, hanchor, hv, hrel⟩ := D.moved hin hlazy
      exact Or.inl ⟨c, v, hcb, hanchor, hv, hrel, .refl⟩
  | @step c c' d hout hsole _ ih =>
    rcases ih hlazy with hmoved | ⟨hc', hway⟩
    · exact Or.inl hmoved
    cases hin : isInPlace L anchorEager cb c with
    | false => exact Or.inr ⟨rfl, .step hsole hc' hway⟩
    | true =>
      obtain ⟨v, hcb, hanchor, hv, hrel⟩ := D.moved hin hout
      exact Or.inl ⟨c, v, hcb, hanchor, hv, hrel, .step hsole hc' hway⟩

theorem Decided.count_regionTests (htests : TestsUntouched L anchorEager cb)
    (hp : Kept L anchorEager cb p) (r : Int) :
    (regionTests L (isInPlace L anchorEager cb') r).count p = 0 := by
  refine count_flatMap_eq_zero fun e he => (count_valueTree (D.oneWay hp) e.2).2 ?_
  rintro ⟨d, hd, hlazy, hpd⟩
  rcases D.way_back hpd hlazy with ⟨q, v, hcb, hanchor, hv, hrel, hway⟩ | ⟨hout, -⟩
  · exact htests v hcb hanchor hrel q d e.2 hv hway hd e (mem_filter.mp he).1 rfl
  · exact Bool.false_ne_true (hout.symm.trans hp.inPlace)

/-- Untouched tests leave every region in program order. -/
theorem Decided.programOrder (htests : TestsUntouched L anchorEager cb) :
    ProgramOrder L anchorEager cb cb' where
  once p hp r := by
    rw [regionTrace, count_append, D.count_regionBody hp r, D.count_regionTests htests hp r]
    rfl
  ordered p q hp hq hreg hpq hswap :=
    (D.before_body hp hq hreg hpq hswap).mono (sublist_append_left _ _)

end

/-! ### A tested value is executed twice -/

/-- Values are listed before what consumes them, as `crossBlock` lists them: in the order
of their first recorded uses. -/
def ListedBeforeConsumers (L : Lexical) (cb : List IrValueId) : Prop :=
  cb.Pairwise fun a b => ∀ p t, L.resultAt p = some b → L.resultAt t = some a →
    ¬ Relation.TransGen (SoleConsumer L) p t

theorem Reaches.reflTransGen (h : Reaches L anchorEager cb c (.position t)) :
    Relation.ReflTransGen (SoleConsumer L) c t := by
  generalize hgoal : Goal.position t = goal at h
  induction h with
  | here _ =>
    cases hgoal
    exact .refl
  | next _ _ hsole _ ih => exact Relation.ReflTransGen.head hsole (ih hgoal)
  | atEnd => cases hgoal

/-- Where values are listed before their consumers, what can be released is released. -/
theorem stackify_releases {s : NestedSets} (hlisted : ListedBeforeConsumers L s.crossBlock)
    (hv : v ∈ s.crossBlock) (hrel : releases L anchorEager s.crossBlock v = true) :
    v ∉ (stackifyMovableNestedValues L anchorEager s).crossBlock := by
  obtain ⟨p, goal, hp, hm⟩ := releases_iff.mp hrel
  obtain ⟨xs, ys, hsplit, hxs⟩ := eq_append_cons_of_mem hv
  let s' := xs.foldl (releaseAt L anchorEager) s
  have hs : Shrinks L s'.crossBlock s.crossBlock := foldl_shrinks xs s
  -- the goal of `p` comes after `p` in the list, so it has not had its turn
  have hgoal : ∀ t, goal = .position t → isInPlace L anchorEager s'.crossBlock t = true := by
    rintro t rfl
    by_contra hout
    obtain ⟨c, hsole, hreach⟩ := hm.reaches
    obtain ⟨w, hw, hcb, hcb'⟩ := mem_of_isInPlace hreach.inPlace (Bool.not_eq_true _ ▸ hout)
    have hwxs : w ∈ xs := by
      by_contra hnot
      exact hcb' (foldl_keeps xs hcb hnot)
    rw [ListedBeforeConsumers, hsplit, pairwise_append] at hlisted
    exact hlisted.2.2 w hwxs v mem_cons_self p t hp hw
      (Relation.TransGen.head' hsole hreach.reflTransGen)
  have hturn : releases L anchorEager s'.crossBlock v = true :=
    releases_iff.mpr ⟨p, goal, hp, hm.anti hs hgoal⟩
  have hout : v ∉ (releaseAt L anchorEager s' v).crossBlock := by
    rcases releaseAt_cases s' v with ⟨hfalse, -⟩ | ⟨-, h⟩
    · rw [hturn] at hfalse
      cases hfalse
    · rw [h]
      simp
  rw [stackifyMovableNestedValues, hsplit, foldl_append, foldl_cons]
  exact fun hmem => hout ((foldl_shrinks ys _).subset v hmem)

theorem OnTheWay.carries (hsub : ∀ v ∈ cb', v ∈ cb) (h : OnTheWay L anchorEager cb p d)
    (hp : isInPlace L anchorEager cb' p = false) :
    Carries L (isInPlace L anchorEager cb') p d ∧ isInPlace L anchorEager cb' d = false := by
  induction h with
  | refl => exact ⟨.refl, hp⟩
  | step hsole hc _ ih =>
    obtain ⟨hcarries, hd⟩ := ih (not_inPlace_mono hsub hc)
    exact ⟨.step hp hsole hcarries, hd⟩

/-- A moved value that a loop tests is executed by its region and by the test. -/
theorem ProgramOrder.testsUntouched {s : NestedSets}
    (h : ProgramOrder L anchorEager s.crossBlock
      (stackifyMovableNestedValues L anchorEager s).crossBlock)
    (hlisted : ListedBeforeConsumers L s.crossBlock) :
    TestsUntouched L anchorEager s.crossBlock := by
  intro v hcb hanchor hrel p d w hp hway hd e he hew
  have D : Decided L anchorEager s.crossBlock
      (stackifyMovableNestedValues L anchorEager s).crossBlock := stackify_decided s
  have hgone := stackify_releases hlisted hcb hrel
  obtain ⟨p', goal, hp', hm⟩ := releases_iff.mp hrel
  obtain rfl := Lexical.resultAt_unique hp hp'
  have hout : isInPlace L anchorEager (stackifyMovableNestedValues L anchorEager s).crossBlock p =
      false := by
    obtain ⟨c, ⟨v', hv', huse, -⟩, -⟩ := hm.reaches
    obtain rfl := Option.some.inj (hv'.symm.trans hp)
    simp [isInPlace, hp, hgone, hanchor, Lexical.totalUses, huse]
  have hkept : Kept L anchorEager s.crossBlock p :=
    ⟨Lexical.lt_of_resultAt hp, hm.impure, by simp [isInPlace, hp, hcb]⟩
  obtain ⟨hcarries, hlazy⟩ := hway.carries D.shrinks.subset hout
  have htree := (count_valueTree (D.oneWay hkept) w).1 ⟨d, hd, hlazy, hcarries⟩
  have htests : 0 < (regionTests L (isInPlace L anchorEager
      (stackifyMovableNestedValues L anchorEager s).crossBlock) e.1).count p := by
    rw [count_pos_iff, regionTests, mem_flatMap]
    refine ⟨e, mem_filter.mpr ⟨he, by simp⟩, ?_⟩
    rw [hew, ← count_pos_iff, htree]
    exact Nat.one_pos
  have honce := h.once p hkept e.1
  rw [regionTrace, count_append, D.count_regionBody hkept e.1] at honce
  omega

/-! ### The pass -/

/-- **Nested stackification keeps the program order when no loop tests a value that it can
release, or one on its way**; and, values being listed before what consumes them, only
then. -/
theorem stackify_programOrder (L : Lexical) (anchorEager : List IrValueId) (s : NestedSets) :
    (TestsUntouched L anchorEager s.crossBlock → ProgramOrder L anchorEager s.crossBlock
        (stackifyMovableNestedValues L anchorEager s).crossBlock) ∧
      (ListedBeforeConsumers L s.crossBlock → (ProgramOrder L anchorEager s.crossBlock
          (stackifyMovableNestedValues L anchorEager s).crossBlock ↔
        TestsUntouched L anchorEager s.crossBlock)) :=
  ⟨(stackify_decided s).programOrder, fun hlisted =>
    ⟨fun h => h.testsUntouched hlisted, (stackify_decided s).programOrder⟩⟩

end

/-- An instruction that reads its operands in the order of its uses. -/
def plainInstr (result : Option IrValueId) (uses : List IrValueId) (effects : IrEffects)
    (sideEffecting : Bool) : LexInstr :=
  ⟨false, false, result, uses, uses, effects, sideEffecting, fun _ _ => rfl, nofun⟩

/-- `const ok = check(); log(ok);` in the arm of an `if`, whose condition is `v0`. -/
def checkAndLog : List IrInstr :=
  [.mk (plainInstr (some 1) [] callEffects true) .plain [],
    .mk (plainInstr none [1] callEffects true) .plain []]

/-- The same with `while (ok) step();` behind. -/
def checkLogAndLoop : List IrInstr :=
  checkAndLog ++ [.mk (plainInstr none [] callEffects false) (.loop 1)
    [[], [.mk (plainInstr none [] callEffects true) .plain []]]]

def inThenArm (buffer : List IrInstr) : List Block :=
  [⟨0, [.mk (plainInstr none [0] callEffects false) .plain [buffer, []]], []⟩]

def loopOnLogged : Lexical := .ofBlocks (inThenArm checkLogAndLoop) (by decide)

def logged : Lexical := .ofBlocks (inThenArm checkAndLog) (by decide)

/-- **The call is executed again by every test of the loop**: `ok` has one recorded use, so
the pass releases it, and the loop reads it as a tree. -/
theorem loopOnLogged_repeats :
    ¬ ∀ (L : Lexical) (anchorEager : List IrValueId) (s : NestedSets),
      ProgramOrder L anchorEager s.crossBlock
        (stackifyMovableNestedValues L anchorEager s).crossBlock := by
  intro hall
  have hkept : Kept loopOnLogged [] [1] 1 := ⟨by decide, by decide, by decide⟩
  have honce := (hall loopOnLogged [] ⟨[1], [1]⟩).once 1 hkept (-2)
  exact absurd honce (by decide)

/-- Without the loop the call is released, and executed once, before what it feeds. -/
theorem logged_programOrder :
    ProgramOrder logged [] [1] (stackifyMovableNestedValues logged [] ⟨[1], [1]⟩).crossBlock := by
  apply (stackify_programOrder logged [] ⟨[1], [1]⟩).1
  intro v _ _ _ p d w _ _ _ e he
  have hnone : logged.tests = [] := by decide
  rw [hnone] at he
  cases he

end Js2Wasm.Ir
