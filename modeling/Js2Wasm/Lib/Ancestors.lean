import Mathlib.Logic.Function.Basic
import Mathlib.Logic.Relation

/-! # Trees given by a parent function

`parent` may be partial; the root is its own parent.  A rank that falls from a vertex
to its parent makes the ancestors of a vertex a finite chain.  `update` gives one vertex
a new parent of smaller rank; the lemmas say which ancestors that changes.
-/
namespace Ancestors
open Function

variable {V : Type}

/-- `a` is reached from `b` by going from vertices to their parents. -/
def Anc (parent : V → Option V) (a b : V) : Prop :=
  Relation.ReflTransGen (fun x y => parent x = some y) b a

/-- A tree in the making: the vertices that have a parent already. -/
structure Ranked (parent : V → Option V) (r : V) (rank : V → Nat) : Prop where
  root : parent r = some r
  falls : ∀ {b u}, b ≠ r → parent b = some u → rank u < rank b
  closed : ∀ {b u}, parent b = some u → (parent u).isSome
  inj : ∀ {a b}, (parent a).isSome → (parent b).isSome → rank a = rank b → a = b

variable {parent : V → Option V} {r a b c u v w x y : V} {rank : V → Nat}

theorem Anc.refl (a : V) : Anc parent a a := Relation.ReflTransGen.refl

theorem Anc.trans (h : Anc parent a b) (h' : Anc parent b c) : Anc parent a c :=
  Relation.ReflTransGen.trans h' h

theorem Anc.up (hu : parent b = some u) (h : Anc parent a u) : Anc parent a b :=
  Relation.ReflTransGen.head hu h

/-- An ancestor of `b` is `b` or an ancestor of its parent. -/
theorem Anc.cases (h : Anc parent a b) : a = b ∨ ∃ u, parent b = some u ∧ Anc parent a u := by
  rcases Relation.ReflTransGen.cases_head h with rfl | ⟨u, hu, h⟩
  · exact .inl rfl
  · exact .inr ⟨u, hu, h⟩

/-- An ancestor of `b` other than `b` is an ancestor of its parent. -/
theorem Anc.of_ne (hu : parent b = some u) (h : Anc parent a b) (hne : a ≠ b) :
    Anc parent a u := by
  rcases h.cases with rfl | ⟨u', hu', h⟩
  · exact absurd rfl hne
  · exact Option.some.inj (hu.symm.trans hu') ▸ h

/-- Two ancestors of one vertex are in a line. -/
theorem Anc.total (ha : Anc parent a c) (hb : Anc parent b c) : Anc parent a b ∨ Anc parent b a :=
  (Relation.ReflTransGen.total_of_right_unique
    (fun _ _ _ h h' => Option.some.inj (h.symm.trans h')) ha hb).symm

namespace Ranked
variable (T : Ranked parent r rank)
include T

theorem rank_le (h : Anc parent a b) : rank a ≤ rank b := by
  induction h with
  | refl => exact Nat.le_refl _
  | @tail x y _ hp ih =>
    by_cases hx : x = r
    · subst hx
      exact Option.some.inj (T.root.symm.trans hp) ▸ ih
    · exact Nat.le_of_lt (Nat.lt_of_lt_of_le (T.falls hx hp) ih)

theorem isSome (h : Anc parent a b) (hb : (parent b).isSome) : (parent a).isSome := by
  induction h with
  | refl => exact hb
  | tail _ hp _ => exact T.closed hp

theorem eq_of_rank (h : Anc parent a b) (hb : (parent b).isSome) (he : rank a = rank b) : a = b :=
  T.inj (T.isSome h hb) hb he

/-- Of two ancestors of a vertex the one of smaller rank is an ancestor of the other. -/
theorem of_le (hc : (parent c).isSome) (ha : Anc parent a c) (hb : Anc parent b c)
    (hle : rank a ≤ rank b) : Anc parent a b := by
  rcases ha.total hb with h | h
  · exact h
  · have he := T.eq_of_rank h (T.isSome ha hc) (Nat.le_antisymm (T.rank_le h) hle)
    rw [he]
    exact Anc.refl a

theorem root_anc (hb : (parent b).isSome) : Anc parent r b := by
  obtain ⟨n, hn⟩ : ∃ n, rank b = n := ⟨_, rfl⟩
  induction n using Nat.strongRecOn generalizing b with
  | ind n ih =>
    by_cases hbr : b = r
    · rw [hbr]
      exact Anc.refl r
    · obtain ⟨u, hu⟩ := Option.isSome_iff_exists.mp hb
      exact (ih _ (hn ▸ T.falls hbr hu) (T.closed hu) rfl).up hu

theorem eq_root_of_anc (h : Anc parent a r) : a = r := by
  induction h with
  | refl => rfl
  | tail _ hp ih => exact (Option.some.inj (T.root.symm.trans (ih ▸ hp))).symm

end Ranked

/-! ### A new parent -/

section Update
variable [DecidableEq V] (T : Ranked parent r rank)

/-- Chains that stay below the rank of `w` do not see its parent. -/
theorem anc_update_of_lt (T : Ranked parent r rank) (p : Option V) (hlt : rank y < rank w) :
    Anc (update parent w p) x y ↔ Anc parent x y := by
  have hne : ∀ z, rank z ≤ rank y → update parent w p z = parent z := fun z hz =>
    update_of_ne (by rintro rfl; omega) _ _
  constructor
  · intro h
    suffices Anc parent x y ∧ rank x ≤ rank y from this.1
    induction h with
    | refl => exact ⟨Anc.refl y, Nat.le_refl _⟩
    | @tail z z' _ hp ih =>
      rw [hne z ih.2] at hp
      have hz : Anc parent z' y := Relation.ReflTransGen.tail ih.1 hp
      exact ⟨hz, T.rank_le hz⟩
  · intro h
    suffices Anc (update parent w p) x y ∧ rank x ≤ rank y from this.1
    induction h with
    | refl => exact ⟨Anc.refl y, Nat.le_refl _⟩
    | @tail z z' hz hp ih =>
      have hz' : Anc parent z' y := Relation.ReflTransGen.tail hz hp
      exact ⟨Relation.ReflTransGen.tail ih.1 ((hne z ih.2).trans hp), T.rank_le hz'⟩

/-- An ancestor stays one, unless the way to it goes through `w`. -/
theorem anc_update_or (p : Option V) (h : Anc parent x y) :
    Anc (update parent w p) x y ∨
      (Anc (update parent w p) w y ∧ Anc parent w y ∧ Anc parent x w ∧ x ≠ w) := by
  induction h with
  | refl => exact .inl (Anc.refl y)
  | @tail z z' hz hp ih =>
    by_cases hz' : z' = w
    · subst hz'
      rcases ih with ih | ⟨hwy, -⟩
      · by_cases hzw : z = z'
        · exact .inl (hzw ▸ ih)
        · exact .inl (Relation.ReflTransGen.tail ih ((update_of_ne hzw _ _).trans hp))
      · exact .inl hwy
    · rcases ih with ih | ⟨hwy, hwy', hzw, -⟩
      · by_cases hzw : z = w
        · subst hzw
          exact .inr ⟨ih, hz, Relation.ReflTransGen.single hp, hz'⟩
        · exact .inl (Relation.ReflTransGen.tail ih ((update_of_ne hzw _ _).trans hp))
      · exact .inr ⟨hwy, hwy', Relation.ReflTransGen.tail hzw hp, hz'⟩

/-- Where the new parent is an ancestor of the old one, no vertex gets a new ancestor. -/
theorem anc_of_update_anc (hw : parent w = some u) (hv : Anc parent v u)
    (h : Anc (update parent w (some v)) x y) : Anc parent x y := by
  induction h with
  | refl => exact Anc.refl y
  | @tail z z' _ hp ih =>
    by_cases hz : z = w
    · subst hz
      rw [update_self, Option.some.injEq] at hp
      exact hp ▸ (hv.up hw).trans ih
    · rw [update_of_ne hz] at hp
      exact Relation.ReflTransGen.tail ih hp

/-- Where `w` had no parent, only `w` gets new ancestors. -/
theorem anc_of_update_new (T : Ranked parent r rank) (hw : parent w = none) (hy : y ≠ w)
    (h : Anc (update parent w (some v)) x y) : Anc parent x y := by
  suffices Anc parent x y ∧ x ≠ w from this.1
  induction h with
  | refl => exact ⟨Anc.refl y, hy⟩
  | @tail z z' _ hp ih =>
    rw [update_of_ne ih.2] at hp
    refine ⟨Relation.ReflTransGen.tail ih.1 hp, ?_⟩
    rintro rfl
    have hsome := T.closed hp
    rw [hw] at hsome
    cases hsome

theorem ranked_update (T : Ranked parent r rank) (hwr : w ≠ r) (hv : (parent v).isSome)
    (hlt : rank v < rank w)
    (hinj : ∀ {a}, (parent a).isSome → rank a = rank w → a = w) :
    Ranked (update parent w (some v)) r rank where
  root := (update_of_ne hwr.symm _ _).trans T.root
  falls := by
    intro b u hb hu
    by_cases hbw : b = w
    · subst hbw
      rw [update_self, Option.some.injEq] at hu
      exact hu ▸ hlt
    · rw [update_of_ne hbw] at hu
      exact T.falls hb hu
  closed := by
    intro b u hu
    by_cases huw : u = w
    · rw [huw, update_self]
      rfl
    · rw [update_of_ne huw]
      by_cases hbw : b = w
      · subst hbw
        rw [update_self, Option.some.injEq] at hu
        exact hu ▸ hv
      · rw [update_of_ne hbw] at hu
        exact T.closed hu
  inj := by
    intro a b ha hb hab
    by_cases haw : a = w
    · by_cases hbw : b = w
      · exact haw.trans hbw.symm
      · rw [update_of_ne hbw] at hb
        exact haw.trans (hinj hb (haw ▸ hab.symm)).symm
    · rw [update_of_ne haw] at ha
      by_cases hbw : b = w
      · exact (hinj ha (hbw ▸ hab)).trans hbw.symm
      · rw [update_of_ne hbw] at hb
        exact T.inj ha hb hab

end Update

end Ancestors
