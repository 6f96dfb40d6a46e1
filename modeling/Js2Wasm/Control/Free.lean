import Js2Wasm.Control.Instr

/-! # Where a run can jump to

A statement jumps to targets around it only if it contains the jump.
-/
namespace Js2Wasm.Control
open List

section
variable {S X : Type} {w : World S X} {exact : Bool}

variable {m : Mode} {cr : Crossed} {k : Completion X} {label : Option Nat} {l : Nat}

theorem Completion.leave_eq_br (h : k.leave label = .br l m cr) :
    k = .br l m cr ∧ (m = .break_ → some l ≠ label) := by
  cases k with
  | br l' m' cr' =>
    cases m' with
    | break_ =>
      rw [leave] at h
      split at h
      · exact nomatch h
      · cases h
        exact ⟨rfl, fun _ => ‹_›⟩
    | continue_ =>
      cases h
      exact ⟨rfl, nofun⟩
  | _ => exact nomatch h

theorem Completion.pass_eq_br {caught : Bool} (h : k.pass caught = .br l m cr) :
    ∃ cr', k = .br l m cr' := by
  cases k with
  | br l' m' cr' =>
    cases h
    exact ⟨_, rfl⟩
  | _ => exact nomatch h

theorem Completion.cleaned_eq_br (h : k.cleaned = .br l m cr) : ∃ cr', k = .br l m cr' := by
  cases k with
  | br l' m' cr' =>
    cases h
    exact ⟨_, rfl⟩
  | _ => exact nomatch h

theorem Completion.override_eq_br {k' : Completion X} (h : k.override k' = .br l m cr) :
    (∃ cr', k = .br l m cr') ∨ ∃ cr', k' = .br l m cr' := by
  cases k' with
  | normal =>
    left
    have h : k.cleaned = .br l m cr := by cases k <;> exact h
    exact cleaned_eq_br h
  | br l' m' cr' =>
    right
    cases k <;> cases h <;> exact ⟨_, rfl⟩
  | throw_ x => cases k <;> exact nomatch h

theorem mem_freeBodies {b : List Instr} {bodies : List (List Instr)} (hb : b ∈ bodies)
    {j : Nat × Mode} (hj : j ∈ freeAll b) : j ∈ freeBodies bodies := by
  induction bodies with
  | nil => exact nomatch hb
  | cons b' bodies ih =>
    rw [freeBodies, mem_append]
    rcases mem_cons.mp hb with rfl | hb
    · exact Or.inl hj
    · exact Or.inr (ih hb)

/-- A jump out of a loop does not target the loop. -/
theorem Completion.mem_loop_free {jumps : List (Nat × Mode)} (hk : k.leave label = .br l m cr)
    (hcont : k.continues label = false) (hmem : ∀ cr, k = .br l m cr → (l, m) ∈ jumps) :
    (l, m) ∈ jumps.filter (· ∉ loopTargets label) := by
  obtain ⟨rfl, hbreak⟩ := leave_eq_br hk
  rw [mem_filter]
  refine ⟨hmem _ rfl, ?_⟩
  cases label with
  | none => simp [loopTargets]
  | some label =>
    cases m with
    | break_ =>
      have hne : l ≠ label := fun h => hbreak rfl (congrArg some h)
      simp [loopTargets, hne]
    | continue_ =>
      have hne : l ≠ label := by simpa [continues] using hcont
      simp [loopTargets, hne]

/-- The runs of size `n` jump only where their code does. -/
structure JumpsIn (w : World S X) (exact : Bool) (n : Nat) : Prop where
  instr : ∀ {i s k s' l m cr}, RunI w exact i s k s' n → k = .br l m cr → (l, m) ∈ i.free
  body : ∀ {b s k s' l m cr}, Run w exact b s k s' n → k = .br l m cr → (l, m) ∈ freeAll b
  loop : ∀ {ops b label s k s' l m cr}, RunLoop w exact ops b label s k s' n →
    k = .br l m cr → (l, m) ∈ freeAll b ∧ k.continues label = false
  bodies : ∀ {bs s k s' l m cr}, RunBodies w exact bs s k s' n →
    k = .br l m cr → ∃ b ∈ bs, (l, m) ∈ freeAll b

section Step

variable {n : Nat} (ih : ∀ n' < n, JumpsIn w exact n') {s s' : S}
include ih

theorem mem_free_instr {i : Instr} (h : RunI w exact i s k s' n) (hk : k = .br l m cr) :
    (l, m) ∈ i.free := by
  cases h with
  | effect _ | effectThrow _ | throw_ | forofDone _ _ | forofThrow _ _ => exact nomatch hk
  | brLabel =>
    cases hk
    exact mem_singleton_self _
  | @ifStmt c _ _ s _ _ n h =>
    have hmem := (ih n (by omega)).body h hk
    rw [Instr.free, mem_append]
    by_cases hc : w.test c s = true
    · rw [if_pos hc] at hmem
      exact Or.inl hmem
    · rw [if_neg hc] at hmem
      exact Or.inr hmem
  | labeledBlock h =>
    obtain ⟨rfl, hne⟩ := Completion.leave_eq_br hk
    rw [Instr.free, mem_filter]
    refine ⟨(ih _ (Nat.lt_succ_self _)).body h rfl, ?_⟩
    simpa [or_iff_not_imp_left] using fun h1 h2 => hne h2 (congrArg some h1)
  | loop h =>
    obtain ⟨rfl, -⟩ := Completion.leave_eq_br hk
    obtain ⟨hmem, hcont⟩ := (ih _ (Nat.lt_succ_self _)).loop h rfl
    exact Completion.mem_loop_free hk hcont fun _ _ => hmem
  | forofJump h =>
    obtain ⟨cr', hk⟩ := Completion.cleaned_eq_br hk
    obtain ⟨hbr, -⟩ := Completion.leave_eq_br hk
    cases hbr
    obtain ⟨hmem, hcont⟩ := (ih _ (Nat.lt_succ_self _)).loop h rfl
    exact Completion.mem_loop_free hk hcont fun _ _ => hmem
  | switch h =>
    obtain ⟨rfl, hne⟩ := Completion.leave_eq_br hk
    obtain ⟨b, hb, hmem⟩ := (ih _ (Nat.lt_succ_self _)).bodies h rfl
    rw [Instr.free, mem_filter]
    refine ⟨mem_freeBodies (mem_of_mem_drop hb) hmem, ?_⟩
    simpa [or_iff_not_imp_left] using fun h1 h2 => hne h2 (congrArg some h1)
  | try_ h _ =>
    obtain ⟨cr', rfl⟩ := Completion.pass_eq_br hk
    simpa [Instr.free] using Or.inl ((ih _ (Nat.lt_succ_self _)).body h rfl)
  | tryCaught _ h =>
    simpa [Instr.free, freeOption] using Or.inr ((ih _ (by omega)).body h hk)
  | tryFinally h _ h' _ =>
    rcases Completion.override_eq_br hk with ⟨cr', rfl⟩ | ⟨cr', rfl⟩
    · simpa [Instr.free] using Or.inl ((ih _ (by omega)).body h rfl)
    · simpa [Instr.free, freeOption] using Or.inr (Or.inr ((ih _ (by omega)).body h' rfl))
  | tryCaughtFinally _ h h' _ =>
    rcases Completion.override_eq_br hk with ⟨cr', rfl⟩ | ⟨cr', rfl⟩
    · simpa [Instr.free, freeOption] using Or.inr (Or.inl ((ih _ (by omega)).body h rfl))
    · simpa [Instr.free, freeOption] using Or.inr (Or.inr ((ih _ (by omega)).body h' rfl))

theorem mem_free_body {b : List Instr} (h : Run w exact b s k s' n) (hk : k = .br l m cr) :
    (l, m) ∈ freeAll b := by
  cases h with
  | nil => exact nomatch hk
  | cons _ h => exact mem_append_right _ ((ih _ (by omega)).body h hk)
  | stop h _ => exact mem_append_left _ ((ih _ (Nat.lt_succ_self _)).instr h hk)

theorem mem_free_loop {ops : LoopOps S X} {b : List Instr} (h : RunLoop w exact ops b label s k s' n)
    (hk : k = .br l m cr) : (l, m) ∈ freeAll b ∧ k.continues label = false := by
  cases h with
  | fails _ | exits _ | turnFails _ _ _ _ | turnExits _ _ _ _ => exact nomatch hk
  | leaves _ h hcont => exact ⟨(ih _ (Nat.lt_succ_self _)).body h hk, hcont⟩
  | again _ _ _ _ h => exact (ih _ (by omega)).loop h hk

theorem mem_free_bodies {bs : List (List Instr)} (h : RunBodies w exact bs s k s' n)
    (hk : k = .br l m cr) : ∃ b ∈ bs, (l, m) ∈ freeAll b := by
  cases h with
  | nil => exact nomatch hk
  | cons _ h =>
    obtain ⟨b, hb, hmem⟩ := (ih _ (by omega)).bodies h hk
    exact ⟨b, mem_cons_of_mem _ hb, hmem⟩
  | stop h _ => exact ⟨_, mem_cons_self, (ih _ (Nat.lt_succ_self _)).body h hk⟩

end Step

theorem jumpsIn (n : Nat) : JumpsIn w exact n := by
  induction n using Nat.strongRecOn with
  | ind n ih => exact ⟨mem_free_instr ih, mem_free_body ih, mem_free_loop ih, mem_free_bodies ih⟩

theorem Run.mem_free {body : List Instr} {s s' : S} {n : Nat} (h : Run w exact body s k s' n)
    (hk : k = .br l m cr) : (l, m) ∈ freeAll body :=
  (jumpsIn n).body h hk

end

end Js2Wasm.Control
