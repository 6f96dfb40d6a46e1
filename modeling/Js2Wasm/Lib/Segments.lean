import Mathlib.Data.List.Basic

/-! # Tilings by intervals

An interval is the pair of its first and its last member.  `Tiles a l b` says that the
intervals of `l` follow one another without gaps from `a` up to `b`, which is left out.
-/
namespace Segments

/-- The intervals stand one after the other from `a` up to `b`. -/
inductive Tiles : Nat → List (Nat × Nat) → Nat → Prop where
  | nil (a : Nat) : Tiles a [] a
  | cons {a last b : Nat} {l : List (Nat × Nat)} :
    a ≤ last → Tiles (last + 1) l b → Tiles a ((a, last) :: l) b

/-- Every interval of the first list lies in one of the second. -/
def Finer (l l' : List (Nat × Nat)) : Prop := ∀ g ∈ l, ∃ g' ∈ l', g'.1 ≤ g.1 ∧ g.2 ≤ g'.2

variable {a b : Nat} {l : List (Nat × Nat)} {g g' : Nat × Nat}

theorem Tiles.le (h : Tiles a l b) : a ≤ b := by
  induction h with
  | nil => exact Nat.le_refl _
  | cons hle _ ih => omega

theorem Tiles.bounds (h : Tiles a l b) (hg : g ∈ l) : a ≤ g.1 ∧ g.1 ≤ g.2 ∧ g.2 < b := by
  induction h with
  | nil => cases hg
  | cons hle hl ih =>
    have hend := hl.le
    rcases List.mem_cons.mp hg with rfl | hg
    · exact ⟨Nat.le_refl _, hle, by omega⟩
    · obtain ⟨h1, h2, h3⟩ := ih hg
      exact ⟨by omega, h2, h3⟩

/-- Every position lies in an interval. -/
theorem Tiles.covers (h : Tiles a l b) {c : Nat} (hac : a ≤ c) (hcb : c < b) :
    ∃ g ∈ l, g.1 ≤ c ∧ c ≤ g.2 := by
  induction h with
  | nil => omega
  | @cons a last b l hle _ ih =>
    by_cases hc : c ≤ last
    · exact ⟨(a, last), List.mem_cons_self, hac, hc⟩
    · obtain ⟨g, hg, hgc⟩ := ih (by omega) hcb
      exact ⟨g, List.mem_cons_of_mem _ hg, hgc⟩

/-- Two intervals that meet are the same. -/
theorem Tiles.eq_of_meet (h : Tiles a l b) (hg : g ∈ l) (hg' : g' ∈ l) (h1 : g.1 ≤ g'.2)
    (h2 : g'.1 ≤ g.2) : g = g' := by
  induction h with
  | nil => cases hg
  | cons _ hl ih =>
    rcases List.mem_cons.mp hg with rfl | hg <;> rcases List.mem_cons.mp hg' with rfl | hg'
    · rfl
    · have := (hl.bounds hg').1
      omega
    · have := (hl.bounds hg).1
      omega
    · exact ih hg hg'

end Segments
