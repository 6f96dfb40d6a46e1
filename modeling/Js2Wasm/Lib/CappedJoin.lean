import Mathlib.Order.Lattice
import Mathlib.Order.BoundedOrder.Basic

/-! # Joins with a cap

A join that gives up above a cap: `none` stands for everything too big.  Where being too
big is preserved upwards, giving up early or late makes no difference, so the laws of a
semilattice carry over, and where a rank grows strictly below the cap a chain of joins
changes a bounded number of times.
-/
namespace CappedJoin

variable {α : Type} [SemilatticeSup α] (big : α → Prop) [DecidablePred big]

/-- An element, unless it is too big. -/
def cap (x : α) : Option α := if big x then none else some x

/-- The join of two elements, unless it is too big. -/
def cappedJoin : Option α → Option α → Option α
  | some x, some y => cap big (x ⊔ y)
  | _, _ => none

variable {big}

theorem cappedJoin_comm (x y : Option α) : cappedJoin big x y = cappedJoin big y x := by
  cases x <;> cases y <;> simp [cappedJoin, sup_comm]

theorem cappedJoin_idem {x : α} (h : ¬big x) : cappedJoin big (some x) (some x) = some x := by
  rw [cappedJoin, sup_idem, cap, if_neg h]

theorem cappedJoin_none (x : Option α) : cappedJoin big x none = none := by
  cases x <;> rfl

/-- A join with a capped element is the join with the element. -/
theorem cappedJoin_cap (hbig : ∀ x y, x ≤ y → big x → big y) (x y : α) :
    cappedJoin big (cap big x) (some y) = cap big (x ⊔ y) := by
  by_cases h : big x
  · rw [cap, if_pos h, cap, if_pos (hbig x _ le_sup_left h)]
    rfl
  · rw [cap, if_neg h]
    rfl

theorem cappedJoin_assoc (hbig : ∀ x y, x ≤ y → big x → big y) (x y z : Option α) :
    cappedJoin big (cappedJoin big x y) z = cappedJoin big x (cappedJoin big y z) := by
  cases x with
  | none => rfl
  | some x =>
    cases y with
    | none => rfl
    | some y =>
      cases z with
      | none => rw [cappedJoin_none, cappedJoin_none, cappedJoin_none]
      | some z =>
        have hright : cappedJoin big (some x) (cap big (y ⊔ z)) = cap big (y ⊔ z ⊔ x) := by
          rw [cappedJoin_comm, cappedJoin_cap hbig]
        change cappedJoin big (cap big (x ⊔ y)) (some z) = cappedJoin big (some x) (cap big (y ⊔ z))
        rw [cappedJoin_cap hbig, hright, sup_assoc, sup_comm x]

/-- How far a chain has come. -/
def capRank (rank : α → Nat) (bound : Nat) : Option α → Nat
  | none => bound + 1
  | some x => rank x

/-- A join that changes the element raises its rank. -/
theorem capRank_lt {rank : α → Nat} {bound : Nat} (hrank : ∀ x y, x < y → rank x < rank y)
    (hbound : ∀ x, ¬big x → rank x ≤ bound) {x y : Option α} (hx : ∀ a, x = some a → ¬big a)
    (hne : cappedJoin big x y ≠ x) :
    capRank rank bound x < capRank rank bound (cappedJoin big x y) := by
  cases x with
  | none => exact absurd rfl hne
  | some x =>
    have hle := hbound x (hx x rfl)
    cases y with
    | none => exact Nat.lt_succ_of_le hle
    | some y =>
      rw [cappedJoin, cap] at hne ⊢
      split
      · exact Nat.lt_succ_of_le hle
      · rename_i hsmall
        rw [if_neg hsmall] at hne
        exact hrank x _ (lt_of_le_of_ne le_sup_left fun heq => hne (by rw [← heq]))

end CappedJoin
