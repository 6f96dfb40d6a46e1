/-! # Machines with silent steps

A deterministic machine whose steps may carry a label.  Two machines are compared along a
map of their states under which a silent step of the first may become no step at all:
runs are mapped (`Runs.map`) and, when every step of the second machine is matched,
lifted (`Runs.lift`).
-/
namespace Stutter

variable {C D L : Type}

/-- Runs, with the labels met. -/
inductive Runs (next : C → Option (Option L × C)) : C → List L → C → Prop where
  | refl (c : C) : Runs next c [] c
  | step {c c' c'' : C} {l : Option L} {ls : List L} :
    next c = some (l, c') → Runs next c' ls c'' → Runs next c (l.toList ++ ls) c''

variable {next : C → Option (Option L × C)} {next' : D → Option (Option L × D)} {f : C → D}
  {c c' c'' : C} {ls ls' : List L}

theorem Runs.trans (h : Runs next c ls c') (h' : Runs next c' ls' c'') :
    Runs next c (ls ++ ls') c'' := by
  induction h with
  | refl => exact h'
  | step hn _ ih =>
    rw [List.append_assoc]
    exact .step hn (ih h')

/-- A step is matched by a step, or is silent and changes nothing. -/
theorem Runs.map
    (h : ∀ c l c', next c = some (l, c') →
      next' (f c) = some (l, f c') ∨ l = none ∧ f c' = f c)
    (hr : Runs next c ls c') : Runs next' (f c) ls (f c') := by
  induction hr with
  | refl => exact .refl _
  | step hn _ ih =>
    rcases h _ _ _ hn with hn' | ⟨rfl, he⟩
    · exact .step hn' ih
    · exact he ▸ ih

/-- A step of the second machine is matched by a run with the same label. -/
theorem Runs.lift
    (h : ∀ c l d, next' (f c) = some (l, d) → ∃ c', Runs next c l.toList c' ∧ f c' = d)
    {d : D} (hr : Runs next' (f c) ls d) : ∃ c', Runs next c ls c' ∧ f c' = d := by
  generalize hd : f c = d0 at hr
  induction hr generalizing c with
  | refl => exact ⟨c, .refl c, hd⟩
  | step hn _ ih =>
    subst hd
    obtain ⟨c1, hrun, rfl⟩ := h _ _ _ hn
    obtain ⟨c2, hrun', rfl⟩ := ih rfl
    exact ⟨c2, hrun.trans hrun', rfl⟩

end Stutter
