import Js2Wasm.Lib.Ancestors
import Js2Wasm.Lib.Dominators

/-! # Dominator trees by iteration

Vertices are visited in the order of a numbering in which every vertex but the root has a
predecessor before it.  A visit gives the vertex its new parent: the lowest common
ancestor, in the tree so far, of those of its predecessors that have a parent.

`Partial` is the invariant of the visits.  A vertex with a parent has all its dominators
among its ancestors, so the tree is never too shallow; and a later visit can only move a
parent up (`Visit.anc_old`).  When a whole round changes no parent, the ancestors solve
the dominance equations, hence are the dominators (`Partial.exact`).
-/
namespace Dominators
open Ancestors Function

variable {V : Type} {E : V → V → Prop} {r : V} {num : V → Nat} {parent : V → Option V}
  {a b p u v w x y : V} {k : Nat}

/-- The predecessors that count: those the root reaches. -/
def Pred (E : V → V → Prop) (r p b : V) : Prop := Reachable E r p ∧ E p b

theorem Pred.reachable (h : Pred E r p b) : Reachable E r b := h.1.step h.2

/-- An order of visit, such as reverse postorder. -/
structure Numbering (E : V → V → Prop) (r : V) (num : V → Nat) : Prop where
  inj : ∀ {a b}, Reachable E r a → Reachable E r b → num a = num b → a = b
  before : ∀ {b}, Reachable E r b → b ≠ r → ∃ p, Pred E r p b ∧ num p < num b

/-- `v` is the lowest common ancestor of the predecessors of `b` that have a parent. -/
def IsMeet (E : V → V → Prop) (r : V) (parent : V → Option V) (b v : V) : Prop :=
  ∀ x, Anc parent x v ↔ ∀ p, Pred E r p b → (parent p).isSome → Anc parent x p

/-- The state of the iteration when the vertices below number `k` have been visited in
this round. -/
structure Partial (E : V → V → Prop) (r : V) (num : V → Nat) (parent : V → Option V) (k : Nat) :
    Prop where
  tree : Ranked parent r num
  reach : ∀ {b}, (parent b).isSome → Reachable E r b
  done : ∀ {b}, Reachable E r b → num b < k → (parent b).isSome
  back : ∀ {b p}, (parent b).isSome → Pred E r p b → num p < num b → (parent p).isSome
  /-- Every edge of the tree is a path of the graph through later vertices. -/
  path : ∀ {b u}, b ≠ r → parent b = some u →
    Relation.ReflTransGen (fun x y => E x y ∧ num u ≤ num y) u b
  /-- No dominator is missing. -/
  above : ∀ {b x}, (parent b).isSome → Dominates E r x b → Anc parent x b
  /-- Common ancestors of the predecessors are no lower than the parent. -/
  common : ∀ {b u x}, b ≠ r → parent b = some u →
    (∀ p, Pred E r p b → (parent p).isSome → Anc parent x p) → num x ≤ num u
  /-- The parent is an ancestor of each earlier predecessor, or was before this round. -/
  earlier : ∀ {b u p}, b ≠ r → parent b = some u → Pred E r p b → num p < num b →
    Anc parent u p ∨
      num u < k ∧ k ≤ num b ∧ ∀ x, Anc parent x p → num x ≤ num u → Anc parent x u

/-- A step of the tree goes along a path of the graph. -/
theorem Partial.path_of_anc (h : Partial E r num parent k) (ha : Anc parent a b) :
    Relation.ReflTransGen (fun x y => E x y ∧ num a ≤ num y) a b := by
  induction ha using Relation.ReflTransGen.head_induction_on with
  | refl => exact .refl
  | @head b u hu ha ih =>
    by_cases hb : b = r
    · subst hb
      rw [Option.some.inj (h.tree.root.symm.trans hu)]
      exact ih
    · refine ih.trans ?_
      have hle : num a ≤ num u := h.tree.rank_le ha
      exact Relation.ReflTransGen.mono (fun x y hxy => ⟨hxy.1, Nat.le_trans hle hxy.2⟩) _ _
        (h.path hb hu)

/-- Only the root has a parent at the start. -/
theorem partial_start [DecidableEq V] (N : Numbering E r num) (hr : num r = 0) :
    Partial E r num (update (fun _ => none) r (some r)) 1 := by
  have hsome : ∀ {b}, (update (fun _ => none) r (some r) b : Option V).isSome → b = r := by
    intro b hb
    by_contra hne
    rw [update_of_ne hne] at hb
    cases hb
  have hself : update (fun _ => none) r (some r) r = some r := update_self r _ _
  refine
    { tree := ⟨hself, ?_, ?_, ?_⟩, reach := ?_, done := ?_, back := ?_, path := ?_,
      above := ?_, common := ?_, earlier := ?_ }
  · intro b u hb hu
    exact absurd (hsome (hu ▸ rfl)) hb
  · intro b u hu
    obtain rfl : b = r := hsome (Option.isSome_iff_exists.mpr ⟨u, hu⟩)
    obtain rfl := Option.some.inj (hself.symm.trans hu)
    rw [hself]
    rfl
  · intro a b ha hb _
    exact (hsome ha).trans (hsome hb).symm
  · intro b hb
    exact hsome hb ▸ .root
  · intro b hb hk
    by_cases hbr : b = r
    · rw [hbr, hself]
      rfl
    · obtain ⟨p, -, hp⟩ := N.before hb hbr
      omega
  · intro b p hb _ hlt
    rw [hsome hb] at hlt
    omega
  · intro b u hb hu
    exact absurd (hsome (hu ▸ rfl)) hb
  · intro b x hb hx
    rw [hsome hb] at hx ⊢
    rw [hx.eq_root]
    exact Anc.refl r
  · intro b u x hb hu
    exact absurd (hsome (hu ▸ rfl)) hb
  · intro b u p hb hu
    exact absurd (hsome (hu ▸ rfl)) hb

/-! ### A visit -/

/-- `w`, whose number is next, is about to get the parent `v`. -/
structure Visit (E : V → V → Prop) (r : V) (num : V → Nat) (parent : V → Option V) (k : Nat)
    (w v : V) : Prop where
  order : Numbering E r num
  inv : Partial E r num parent k
  reach : Reachable E r w
  next : num w = k
  ne : w ≠ r
  meet : IsMeet E r parent w v

namespace Visit

section
variable (h : Visit E r num parent k w v)
include h

/-- An earlier predecessor, of which the new parent is an ancestor. -/
theorem pred :
    ∃ p, Pred E r p w ∧ num p < num w ∧ (parent p).isSome ∧ Anc parent v p := by
  obtain ⟨p, hp, hlt⟩ := h.order.before h.reach h.ne
  have hsome := h.inv.done hp.1 (h.next ▸ hlt)
  exact ⟨p, hp, hlt, hsome, (h.meet v).mp (Anc.refl v) p hp hsome⟩

theorem lt : num v < num w := by
  obtain ⟨p, -, hlt, -, hv⟩ := h.pred
  exact Nat.lt_of_le_of_lt (h.inv.tree.rank_le hv) hlt

theorem isSome : (parent v).isSome := by
  obtain ⟨p, -, -, hp, hv⟩ := h.pred
  exact h.inv.tree.isSome hv hp

/-- **The new parent is an ancestor of the old one.** -/
theorem anc_old (hu : parent w = some u) : Anc parent v u := by
  obtain ⟨p, hp, hlt, hsome, hv⟩ := h.pred
  have hle : num v ≤ num u := h.inv.common h.ne hu fun q hq hqs =>
    (h.meet v).mp (Anc.refl v) q hq hqs
  rcases h.inv.earlier h.ne hu hp hlt with hup | ⟨-, -, hup⟩
  · exact h.inv.tree.of_le hsome hv hup hle
  · exact hup v hv hle

end

variable [DecidableEq V]

section
variable (h : Visit E r num parent k w v)
include h

theorem tree :
    Ranked (update parent w (some v)) r num :=
  ranked_update h.inv.tree h.ne h.isSome h.lt fun ha he => h.order.inj (h.inv.reach ha) h.reach he

/-- No vertex that had a parent gets a new ancestor. -/
theorem shrinks (hy : (parent y).isSome) (ha : Anc (update parent w (some v)) x y) :
    Anc parent x y := by
  cases hw : parent w with
  | none => exact anc_of_update_new h.inv.tree hw (fun he => by simp [he, hw] at hy) ha
  | some u => exact anc_of_update_anc hw (h.anc_old hw) ha

/-- Before `w` nothing changes. -/
theorem below (hy : num y < num w) :
    Anc (update parent w (some v)) x y ↔ Anc parent x y :=
  anc_update_of_lt h.inv.tree _ hy

theorem up (hx : Anc parent x v) :
    Anc (update parent w (some v)) x w :=
  Anc.up (update_self w _ _) ((h.below h.lt).mpr hx)

/-- The dominators of `w` are among its new ancestors. -/
theorem above (hx : Dominates E r x w) :
    Anc (update parent w (some v)) x w := by
  by_cases hxw : x = w
  · exact hxw ▸ Anc.refl x
  · refine h.up ((h.meet x).mpr fun p hp hsome => ?_)
    exact h.inv.above hsome (hx.pred hxw hp.1 hp.2)

end

theorem isSome_new (hb : (update parent w (some v) b).isSome) :
    b = w ∨ b ≠ w ∧ (parent b).isSome := by
  by_cases hbw : b = w
  · exact .inl hbw
  · exact .inr ⟨hbw, by rwa [update_of_ne hbw] at hb⟩

theorem isSome_old (hb : (parent b).isSome) : (update parent w (some v) b).isSome := by
  by_cases hbw : b = w
  · rw [hbw, update_self]
    rfl
  · rwa [update_of_ne hbw]

theorem above_other (h : Visit E r num parent k w v) (hb : (parent b).isSome)
    (hx : Dominates E r x b) : Anc (update parent w (some v)) x b := by
  rcases anc_update_or (some v) (h.inv.above hb hx) with ha | ⟨hwb', hwb, hxw, hne⟩
  · exact ha
  · -- `x` dominates `w` too: from `w` the graph reaches `b` past `x`
    have hlt : num x < num w := Nat.lt_of_le_of_ne (h.inv.tree.rank_le hxw) fun he =>
      hne (h.inv.tree.eq_of_rank hxw (h.inv.tree.isSome hwb hb) he)
    have hpath : Relation.ReflTransGen (fun x' y => E x' y ∧ x ≠ y) w b :=
      Relation.ReflTransGen.mono (fun x' y hxy => ⟨hxy.1, by
        rintro rfl
        omega⟩) _ _ (h.inv.path_of_anc hwb)
    have hdom : Dominates E r x w := dominates_iff.mpr ⟨h.reach, fun hav =>
      (dominates_iff.mp hx).2 (hav.along hpath)⟩
    exact (h.above hdom).trans hwb'

omit [DecidableEq V] in
theorem path (h : Visit E r num parent k w v) :
    Relation.ReflTransGen (fun x y => E x y ∧ num v ≤ num y) v w := by
  obtain ⟨p, hp, -, -, hv⟩ := h.pred
  exact (h.inv.path_of_anc hv).tail ⟨hp.2, Nat.le_of_lt h.lt⟩

/-- What `Partial.earlier` says of the other vertices after the visit. -/
theorem earlier_other (h : Visit E r num parent k w v) (hbw : b ≠ w) (hbr : b ≠ r)
    (hu : parent b = some u) (hp : Pred E r p b) (hlt : num p < num b) :
    Anc (update parent w (some v)) u p ∨
      num u < k + 1 ∧ k + 1 ≤ num b ∧
        ∀ x, Anc (update parent w (some v)) x p → num x ≤ num u →
          Anc (update parent w (some v)) x u := by
  have hps : (parent p).isSome := h.inv.back (hu ▸ rfl) hp hlt
  rcases h.inv.earlier hbr hu hp hlt with hup | ⟨huk, hkb, hall⟩
  · rcases anc_update_or (some v) hup with hup' | ⟨hwp', hwp, huw, hne⟩
    · exact .inl hup'
    · have hws : (parent w).isSome := h.inv.tree.isSome hwp hps
      have huw' : num u < num w := Nat.lt_of_le_of_ne (h.inv.tree.rank_le huw) fun he =>
        hne (h.inv.tree.eq_of_rank huw hws he)
      have hwb : num w < num b := Nat.lt_of_le_of_lt (h.inv.tree.rank_le hwp) hlt
      refine .inr ⟨by have := h.next; omega, by have := h.next; omega, fun x hx hle => ?_⟩
      exact (h.below huw').mpr (h.inv.tree.of_le hps (h.shrinks hps hx) hup hle)
  · have hne : num b ≠ k := fun he => hbw
      (h.order.inj (h.inv.reach (hu ▸ rfl)) h.reach (he.trans h.next.symm))
    refine .inr ⟨by omega, by omega, fun x hx hle => ?_⟩
    exact (h.below (h.next ▸ huk)).mpr (hall x (h.shrinks hps hx) hle)

/-- **A visit keeps the invariant.** -/
theorem step (h : Visit E r num parent k w v) :
    Partial E r num (update parent w (some v)) (k + 1) := by
  have hself : update parent w (some v) w = some v := update_self w _ _
  refine
    { tree := h.tree, reach := ?_, done := ?_, back := ?_, path := ?_, above := ?_,
      common := ?_, earlier := ?_ }
  · intro b hb
    rcases isSome_new hb with rfl | ⟨-, hb⟩
    · exact h.reach
    · exact h.inv.reach hb
  · intro b hb hk
    by_cases hbw : b = w
    · rw [hbw, hself]
      rfl
    · refine isSome_old (h.inv.done hb ?_)
      have hne : num b ≠ k := fun he => hbw (h.order.inj hb h.reach (he.trans h.next.symm))
      omega
  · intro b p hb hp hlt
    rcases isSome_new hb with rfl | ⟨-, hb⟩
    · exact isSome_old (h.inv.done hp.1 (h.next ▸ hlt))
    · exact isSome_old (h.inv.back hb hp hlt)
  · intro b u hbr hu
    by_cases hbw : b = w
    · subst hbw
      exact Option.some.inj (hself.symm.trans hu) ▸ h.path
    · exact h.inv.path hbr ((update_of_ne hbw _ _).symm.trans hu)
  · intro b x hb hx
    rcases isSome_new hb with rfl | ⟨-, hb⟩
    · exact h.above hx
    · exact h.above_other hb hx
  · intro b u x hbr hu hx
    have hold : ∀ p, Pred E r p b → (parent p).isSome → Anc parent x p := fun p hp hps =>
      h.shrinks hps (hx p hp (isSome_old hps))
    by_cases hbw : b = w
    · subst hbw
      exact Option.some.inj (hself.symm.trans hu) ▸ h.inv.tree.rank_le ((h.meet x).mpr hold)
    · exact h.inv.common hbr ((update_of_ne hbw _ _).symm.trans hu) hold
  · intro b u p hbr hu hp hlt
    by_cases hbw : b = w
    · subst hbw
      obtain rfl := Option.some.inj (hself.symm.trans hu)
      have hps := h.inv.done hp.1 (h.next ▸ hlt)
      exact .inl ((h.below hlt).mpr ((h.meet v).mp (Anc.refl v) p hp hps))
    · exact h.earlier_other hbw hbr ((update_of_ne hbw _ _).symm.trans hu) hp hlt

end Visit

/-- A new round. -/
theorem Partial.restart (h : Partial E r num parent k)
    (hk : ∀ b, Reachable E r b → num b < k) (j : Nat) : Partial E r num parent j where
  tree := h.tree
  reach := h.reach
  done hb _ := h.done hb (hk _ hb)
  back := h.back
  path := h.path
  above := h.above
  common := h.common
  earlier hb hu hp hlt := by
    rcases h.earlier hb hu hp hlt with hup | ⟨-, hle, -⟩
    · exact .inl hup
    · have := hk _ hp.reachable
      omega

/-- **A tree that a round leaves as it is holds the dominators.** -/
theorem Partial.exact (h : Partial E r num parent k)
    (hall : ∀ b, Reachable E r b → (parent b).isSome)
    (hmeet : ∀ b, Reachable E r b → b ≠ r → ∃ u, parent b = some u ∧ IsMeet E r parent b u)
    (hb : Reachable E r b) : Anc parent x b ↔ Dominates E r x b := by
  refine ⟨dominates_of_solution (A := Anc parent) ?_ ?_ hb, h.above (hall b hb)⟩
  · exact fun x hx => h.tree.eq_root_of_anc hx
  · intro x p b hp he hbr hx
    obtain ⟨u, hu, hm⟩ := hmeet b (hp.step he) hbr
    by_cases hxb : x = b
    · exact .inl hxb
    · exact .inr ((hm x).mp (hx.of_ne hu hxb) p ⟨hp, he⟩ (hall p hp))

/-! ### What the tree gives -/

section Tree
variable (T : Ranked parent r num) (hdom : ∀ {x b}, Reachable E r b → (Anc parent x b ↔ Dominates E r x b))
include T hdom

section
variable (hb : Reachable E r b) (hbr : b ≠ r) (hu : parent b = some u)
include hb hbr hu

theorem strictlyDominates_iff :
    StrictlyDominates E r x b ↔ Anc parent x u := by
  constructor
  · rintro ⟨hne, hx⟩
    exact ((hdom hb).mpr hx).of_ne hu hne
  · intro hx
    refine ⟨?_, (hdom hb).mp (hx.up hu)⟩
    rintro rfl
    have h1 := T.rank_le hx
    have h2 := T.falls hbr hu
    omega

theorem immediatelyDominates :
    ImmediatelyDominates E r u b := by
  have hiff : ∀ {x}, StrictlyDominates E r x b ↔ Anc parent x u :=
    strictlyDominates_iff T hdom hb hbr hu
  have hud : StrictlyDominates E r u b := hiff.mpr (Anc.refl u)
  exact ⟨hud, fun x hx => (hdom hud.2.reachable_left).mp (hiff.mp hx)⟩

/-- The frontier of `a`: `a` lies on the chain from a predecessor of `b` up to the parent
of `b`, which does not belong to it. -/
theorem inFrontier_iff :
    InFrontier E r a b ↔ ∃ p, Pred E r p b ∧ Anc parent a p ∧ ¬ Anc parent a u := by
  unfold InFrontier
  rw [strictlyDominates_iff T hdom hb hbr hu]
  constructor
  · rintro ⟨⟨p, he, hp⟩, hn⟩
    exact ⟨p, ⟨hp.1, he⟩, (hdom hp.1).mpr hp, hn⟩
  · rintro ⟨p, ⟨hp, he⟩, ha, hn⟩
    exact ⟨⟨p, he, (hdom hp).mp ha⟩, hn⟩

end

omit T in
theorem inFrontier_root_iff : InFrontier E r a r ↔ ∃ p, Pred E r p r ∧ Anc parent a p := by
  constructor
  · rintro ⟨⟨p, he, hp⟩, -⟩
    exact ⟨p, ⟨hp.1, he⟩, (hdom hp.1).mpr hp⟩
  · rintro ⟨p, ⟨hp, he⟩, ha⟩
    exact ⟨⟨p, he, (hdom hp).mp ha⟩, fun hs => hs.1 hs.2.eq_root⟩

end Tree

end Dominators
