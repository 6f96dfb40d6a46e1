import Js2Wasm.Lib.Reorder
import Mathlib.Data.List.Flatten
import Mathlib.Data.List.Infix

/-! # Slices of sorted lists

A list without repetitions is indexed by its members: `slice a b` holds the members whose
index lies in `[a, b)`.  Where the list is sorted, the order of the indices is the order of
the members.

The second part places members of a list of lists: what comes before what in a `flatMap`,
and how often a member occurs in one.
-/
namespace Slices
open Reorder List

variable {α β : Type*}

/-- The entries from `a` up to `b`. -/
def slice (l : List α) (a b : Nat) : List α := (l.drop a).take (b - a)

section
variable [DecidableEq α] {l : List α} {a b : Nat} {x y : α}

theorem mem_slice (hn : l.Nodup) : x ∈ slice l a b ↔ x ∈ l ∧ a ≤ l.idxOf x ∧ l.idxOf x < b := by
  rw [slice]
  constructor
  · intro h
    obtain ⟨i, hi, rfl⟩ := mem_iff_getElem.mp h
    simp only [length_take, length_drop] at hi
    rw [getElem_take, getElem_drop]
    refine ⟨getElem_mem _, ?_⟩
    rw [hn.idxOf_getElem]
    omega
  · rintro ⟨hx, ha, hb⟩
    have hlt := idxOf_lt_length_of_mem hx
    apply mem_iff_getElem.mpr
    refine ⟨l.idxOf x - a, ?_, ?_⟩
    · simp only [length_take, length_drop]
      omega
    · rw [getElem_take, getElem_drop]
      simp only [Nat.add_sub_cancel' ha, getElem_idxOf]

end

section
variable {l : List Nat} {p q : Nat}

theorem idxOf_lt_iff (hs : l.Pairwise (· < ·)) (hp : p ∈ l) (hq : q ∈ l) :
    l.idxOf p < l.idxOf q ↔ p < q := by
  have hmono : ∀ {p q : Nat}, p ∈ l → q ∈ l → l.idxOf p < l.idxOf q → p < q := by
    intro p q hp hq h
    have hlt := pairwise_iff_getElem.mp hs _ _ (idxOf_lt_length_of_mem hp)
      (idxOf_lt_length_of_mem hq) h
    simpa only [getElem_idxOf] using hlt
  refine ⟨hmono hp hq, fun h => ?_⟩
  by_contra hle
  rcases Nat.lt_or_ge (l.idxOf q) (l.idxOf p) with hlt | hge
  · exact Nat.lt_asymm h (hmono hq hp hlt)
  · have heq : l.idxOf p = l.idxOf q := Nat.le_antisymm hge (Nat.le_of_not_lt hle)
    exact Nat.ne_of_lt h ((idxOf_inj hp).mp heq)

end

/-! ### Lists of lists -/

section
variable {l : List α} {f : α → List β} {a b : α} {x y : β}

theorem sublist_flatMap (ha : a ∈ l) : List.Sublist (f a) (l.flatMap f) := by
  obtain ⟨xs, ys, rfl⟩ := append_of_mem ha
  rw [flatMap_append, flatMap_cons]
  exact (sublist_append_left _ _).trans (sublist_append_right _ _)

/-- What comes from an earlier entry comes earlier. -/
theorem before_flatMap (hab : Before l a b) (hx : x ∈ f a) (hy : y ∈ f b) :
    Before (l.flatMap f) x y := by
  have hsub : List.Sublist ([a, b].flatMap f) (l.flatMap f) := List.Sublist.flatMap hab f
  apply Before.mono _ hsub
  simpa using before_append hx (mem_append_left [] hy)

/-- The occurrences of `x` all come from one entry. -/
theorem count_flatMap_of_one [DecidableEq α] [BEq α] [LawfulBEq α] [DecidableEq β] {n : Nat}
    (h : ∀ c ∈ l, (f c).count x = if c = a then n else 0) :
    (l.flatMap f).count x = l.count a * n := by
  induction l with
  | nil => simp
  | cons c l ih =>
    rw [flatMap_cons, count_append, h c mem_cons_self,
      ih fun c hc => h c (mem_cons_of_mem _ hc), count_cons]
    by_cases hca : c = a
    · simp [hca, Nat.add_mul, Nat.add_comm]
    · simp [hca]

/-- No entry has an occurrence of `x`. -/
theorem count_flatMap_eq_zero [DecidableEq β] (h : ∀ c ∈ l, (f c).count x = 0) :
    (l.flatMap f).count x = 0 := by
  rw [count_eq_zero]
  intro hx
  obtain ⟨c, hc, hxc⟩ := mem_flatMap.mp hx
  exact count_eq_zero.mp (h c hc) hxc

end

end Slices
