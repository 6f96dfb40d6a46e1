import Mathlib.Data.List.Perm.Lattice

/-! # Stable sorting

An order on elements is a test `le` that is total and transitive; two elements with `le` in
both directions are equivalent.  `Keeps le l l'` says that `l'` is a rearrangement of `l` in
which equivalent elements stand in the order they had, and `IsStableSort le l l'` that `l'` is
sorted besides.  Adjacent parts may be rearranged on their own, and merging two sorted parts,
the left one first, is such a rearrangement.
-/
namespace StableSort
open List

variable {α : Type*}

/-- A total preorder. -/
structure IsOrder (le : α → α → Bool) : Prop where
  total : ∀ a b, le a b = false → le b a = true
  trans : ∀ a b c, le a b = true → le b c = true → le a c = true

/-- Equivalent elements. -/
def same (le : α → α → Bool) (a b : α) : Bool := le a b && le b a

/-- A rearrangement that keeps the order of equivalent elements. -/
structure Keeps (le : α → α → Bool) (l l' : List α) : Prop where
  perm : l'.Perm l
  stable : ∀ a, l'.filter (same le a) = l.filter (same le a)

/-- No element stands after a greater one. -/
abbrev Sorted (le : α → α → Bool) (l : List α) : Prop := l.Pairwise fun a b => le a b = true

structure IsStableSort (le : α → α → Bool) (l l' : List α) : Prop extends Keeps le l l' where
  sorted : Sorted le l'

variable {le : α → α → Bool} {l l' l'' m m' : List α}

theorem Keeps.refl (le : α → α → Bool) (l : List α) : Keeps le l l := ⟨.refl l, fun _ => rfl⟩

theorem Keeps.trans (h : Keeps le l l') (h' : Keeps le l' l'') : Keeps le l l'' :=
  ⟨h'.perm.trans h.perm, fun a => (h'.stable a).trans (h.stable a)⟩

theorem Keeps.append (h : Keeps le l l') (h' : Keeps le m m') : Keeps le (l ++ m) (l' ++ m') :=
  ⟨h.perm.append h'.perm, fun a => by
    rw [filter_append, filter_append, h.stable, h'.stable]⟩

theorem IsOrder.refl (h : IsOrder le) (a : α) : le a a = true := by
  cases haa : le a a with
  | false => exact haa ▸ h.total a a haa
  | true => rfl

/-- What is below an element but not above it is equivalent to nothing above the element. -/
theorem IsOrder.not_same (h : IsOrder le) {a x y z : α} (hyx : le x y = false)
    (hxz : le x z = true) (hy : same le a y = true) : same le a z = false := by
  rw [same, Bool.and_eq_true] at hy
  cases hz : same le a z with
  | false => rfl
  | true =>
    rw [same, Bool.and_eq_true] at hz
    have hxy : le x y = true := h.trans x a y (h.trans x z a hxz hz.2) hy.1
    rw [hyx] at hxy
    cases hxy

variable {ys xs : List α}

section
variable (h : IsOrder le) (hxs : Sorted le xs)
include h hxs

/-- Merging takes from the left part unless the right one has a smaller element. -/
theorem keeps_merge :
    Keeps le (xs ++ ys) (List.merge xs ys le) := by
  refine ⟨merge_perm_append le, fun a => ?_⟩
  induction xs generalizing ys with
  | nil => rw [nil_merge, nil_append]
  | cons x xs ihx =>
    induction ys with
    | nil => rw [merge_right, append_nil]
    | cons y ys ihy =>
      rw [cons_merge_cons]
      cases hle : le x y with
      | true =>
        rw [if_pos rfl, cons_append, filter_cons, filter_cons,
          ihx (pairwise_cons.mp hxs).2]
      | false =>
        rw [if_neg Bool.false_ne_true, filter_cons, ihy]
        cases hy : same le a y with
        | false =>
          have hdrop : (y :: ys).filter (same le a) = ys.filter (same le a) :=
            filter_cons_of_neg (Bool.not_eq_true _ ▸ hy)
          rw [if_neg Bool.false_ne_true, filter_append, filter_append, hdrop]
        | true =>
          -- the left part is above `y`, so it has nothing equivalent to `y`
          have hnone : (x :: xs).filter (same le a) = [] := by
            refine filter_eq_nil_iff.mpr fun z hz => ?_
            have hxz : le x z = true := by
              rcases mem_cons.mp hz with rfl | hz
              · exact h.refl z
              · exact (pairwise_cons.mp hxs).1 z hz
            rw [h.not_same hle hxz hy]
            exact Bool.false_ne_true
          rw [if_pos rfl, filter_append, filter_append, hnone, nil_append,
            nil_append, filter_cons_of_pos hy]

theorem sorted_merge (hys : Sorted le ys) :
    Sorted le (List.merge xs ys le) :=
  pairwise_merge (fun a b c => h.trans a b c)
    (fun a b => by
      cases hab : le a b with
      | false => simp [h.total a b hab]
      | true => rfl) xs ys hxs hys

/-- **Merging sorts stably.** -/
theorem isStableSort_merge (hys : Sorted le ys) :
    IsStableSort le (xs ++ ys) (List.merge xs ys le) :=
  ⟨keeps_merge h hxs, sorted_merge h hxs hys⟩

end

end StableSort
