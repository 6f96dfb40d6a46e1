import Mathlib.Tactic.Common

/-! # Runs under a guard

A deterministic system takes one step for every request of a list.  What a step owes may
depend on a guard, a condition on the state before it and its request: an invariant that
every guarded step keeps carries what one step owes to every step of a run.
-/
namespace Guarded

variable {σ ρ : Type}

/-- `P` holds of every step of the run. -/
def AllSteps (step : σ → ρ → σ) (P : σ → ρ → Prop) : σ → List ρ → Prop
  | _, [] => True
  | s, r :: rs => P s r ∧ AllSteps step P (step s r) rs

/-- **The rule of guarded runs.** -/
theorem allSteps_of_inv {step : σ → ρ → σ} {I : σ → Prop} {G P : σ → ρ → Prop}
    (owed : ∀ s r, I s → G s r → P s r) (keep : ∀ s r, I s → G s r → I (step s r)) {s : σ}
    {rs : List ρ} (hs : I s) (hguard : AllSteps step G s rs) : AllSteps step P s rs := by
  induction rs generalizing s with
  | nil => trivial
  | cons r rs ih =>
    obtain ⟨hr, hrest⟩ := hguard
    exact ⟨owed s r hs hr, ih (keep s r hs hr) hrest⟩

end Guarded
