import Mathlib.Logic.Basic
import Mathlib.Logic.Relation

/-! # Dominance in a rooted graph

A vertex dominates another when every walk from the root to it comes past.  The graph
is a relation on an arbitrary type; nothing is assumed finite.
-/
namespace Dominators
open List

variable {V : Type} (E : V → V → Prop) (r : V)

/-- Walks from the root, with the vertices visited, last one first. -/
inductive Walk : V → List V → Prop where
  | root : Walk r [r]
  | step {u v : V} {l : List V} : Walk u l → E u v → Walk v (v :: l)

def Reachable (v : V) : Prop := ∃ l, Walk E r v l

/-- `a` dominates `b`. -/
def Dominates (a b : V) : Prop := Reachable E r b ∧ ∀ l, Walk E r b l → a ∈ l

/-- There is a walk to `b` that does not come past `a`. -/
def Avoids (a b : V) : Prop := ∃ l, Walk E r b l ∧ a ∉ l

/-- `a` dominates `b` and is not `b`. -/
def StrictlyDominates (a b : V) : Prop := a ≠ b ∧ Dominates E r a b

/-- The immediate dominator: the strict dominator that all others dominate. -/
def ImmediatelyDominates (u b : V) : Prop :=
  StrictlyDominates E r u b ∧ ∀ x, StrictlyDominates E r x b → Dominates E r x u

/-- The dominance frontier: `a` dominates a predecessor of `b` but not `b` strictly. -/
def InFrontier (a b : V) : Prop :=
  (∃ p, E p b ∧ Dominates E r a p) ∧ ¬ StrictlyDominates E r a b

variable {E r} {a b p u v x : V} {l : List V}

theorem Walk.mem (h : Walk E r b l) : b ∈ l := by
  cases h with
  | root => exact mem_singleton_self r
  | step _ _ => exact mem_cons_self

theorem Walk.root_mem (h : Walk E r b l) : r ∈ l := by
  induction h with
  | root => exact mem_singleton_self r
  | step _ _ ih => exact mem_cons_of_mem _ ih

theorem Reachable.root : Reachable E r r := ⟨[r], .root⟩

theorem Reachable.step (h : Reachable E r u) (he : E u v) : Reachable E r v := by
  obtain ⟨l, hl⟩ := h
  exact ⟨v :: l, hl.step he⟩

/-- What contains the root and is closed under edges contains all that is reachable. -/
theorem Reachable.closed {P : V → Prop} (hroot : P r) (hstep : ∀ u v, P u → E u v → P v)
    (h : Reachable E r b) : P b := by
  obtain ⟨l, hl⟩ := h
  induction hl with
  | root => exact hroot
  | step _ he ih => exact hstep _ _ ih he

theorem dominates_iff : Dominates E r a b ↔ Reachable E r b ∧ ¬ Avoids E r a b := by
  simp only [Dominates, Avoids, not_exists, not_and, Classical.not_not]

theorem Dominates.refl (h : Reachable E r b) : Dominates E r b b := ⟨h, fun _ hl => hl.mem⟩

theorem Dominates.eq_root (h : Dominates E r a r) : a = r := mem_singleton.mp (h.2 _ .root)

/-- A dominator of `b` other than `b` dominates every predecessor of `b`. -/
theorem Dominates.pred (h : Dominates E r a b) (hne : a ≠ b) (hp : Reachable E r p)
    (he : E p b) : Dominates E r a p := by
  refine ⟨hp, fun l hl => ?_⟩
  rcases mem_cons.mp (h.2 _ (hl.step he)) with rfl | hmem
  · exact absurd rfl hne
  · exact hmem

theorem Dominates.reachable_left (h : Dominates E r a b) : Reachable E r a := by
  obtain ⟨⟨l, hl⟩, hall⟩ := h
  have hmem := hall l hl
  clear hall
  induction hl with
  | root => exact mem_singleton.mp hmem ▸ .root
  | @step u v l hl he ih =>
    rcases mem_cons.mp hmem with rfl | hmem
    · exact ⟨_, hl.step he⟩
    · exact ih hmem

theorem Avoids.root (h : a ≠ r) : Avoids E r a r := ⟨[r], .root, by simpa using h⟩

theorem Avoids.step (h : Avoids E r a u) (he : E u v) (hne : a ≠ v) : Avoids E r a v := by
  obtain ⟨l, hl, ha⟩ := h
  exact ⟨v :: l, hl.step he, not_mem_cons_of_ne_of_not_mem hne ha⟩

/-- Going on along edges that do not lead to `a`. -/
theorem Avoids.along (h : Avoids E r a u)
    (hpath : Relation.ReflTransGen (fun x y => E x y ∧ a ≠ y) u v) : Avoids E r a v := by
  induction hpath with
  | refl => exact h
  | tail _ he ih => exact ih.step he.1 he.2

/-- What contains the root and is closed under edges that do not lead to `a` contains all
that can be reached past `a`. -/
theorem Avoids.closed {P : V → Prop} (hroot : a ≠ r → P r)
    (hstep : ∀ u v, P u → E u v → a ≠ v → P v) (h : Avoids E r a b) : P b := by
  obtain ⟨l, hl, ha⟩ := h
  induction hl with
  | root => exact hroot fun he => ha (he ▸ mem_singleton_self r)
  | step _ he ih =>
    obtain ⟨hne, hl⟩ := ne_and_not_mem_of_not_mem_cons ha
    exact hstep _ _ (ih hl) he hne

/-- **Sets that solve the dominance equations lie below dominance.** -/
theorem dominates_of_solution {A : V → V → Prop} (hroot : ∀ x, A x r → x = r)
    (hstep : ∀ x p b, Reachable E r p → E p b → b ≠ r → A x b → x = b ∨ A x p)
    (h : Reachable E r b) (hx : A x b) : Dominates E r x b := by
  refine ⟨h, fun l hl => ?_⟩
  clear h
  induction hl with
  | root => exact hroot x hx ▸ mem_singleton_self r
  | @step u v l hl he ih =>
    by_cases hv : v = r
    · subst hv
      exact hroot x hx ▸ mem_cons_self
    · rcases hstep x u v ⟨l, hl⟩ he hv hx with rfl | hu
      · exact mem_cons_self
      · exact mem_cons_of_mem _ (ih hu)

end Dominators
