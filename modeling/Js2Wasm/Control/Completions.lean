import Js2Wasm.Control.Simulation
import Mathlib.Data.List.Nodup

/-! # Lowering preserves completions

A body that jumps to its own labels only, each introduced once, is lowered (`lowerBody_isSome`),
and its code performs every run that the guards of `exact` leave (`lowerBody_preserves`).
-/
namespace Js2Wasm.Control
open List Option

section
variable {S X : Type} {w : World S X}

/-- Runs below every size. -/
theorem simBelow (N : Nat) : SimBelow w N := by
  induction N with
  | zero => exact fun _ _ _ _ _ _ _ _ _ _ _ _ _ _ _ _ _ _ _ h => absurd h (Nat.not_lt_zero _)
  | succ N ih =>
    intro fuel Γ body c code c' s k s1 n r s' raised m hemit hfits hslots hrun hres hn
    cases fuel with
    | zero => exact nomatch hemit
    | succ fuel =>
      cases body with
      | nil =>
        cases hemit
        cases hrun
        cases hres
        exact Performs.nil
      | cons i rest =>
        obtain ⟨⟨code1, c1⟩, h1, h⟩ := bind_eq_some_iff.mp hemit
        obtain ⟨⟨code2, c2⟩, h2, h⟩ := map_eq_some_iff.mp h
        cases h
        have hle : c ≤ c1 := Grows.emitInstr (emitInstrs_grows fuel) h1
        have hfitsI : Fits Γ i.bound i.free :=
          hfits.mono (fun j => by simp [boundAll, count_append])
            fun j => mem_append_left _
        have hfitsR : Fits Γ (boundAll rest) (freeAll rest) :=
          hfits.mono (fun j => by simp [boundAll, count_append])
            fun j => mem_append_right _
        cases hrun with
        | cons hi hrest =>
          have hcode1 := performs_instr ih h1 hfitsI hslots hi .normal (by lia)
          have hcode2 := ih h2 hfitsR (fun slot h => Nat.lt_of_lt_of_le (hslots slot h) hle)
            hrest hres (by lia)
          exact hcode1.append (hcode2.mono hle)
        | stop hi hk =>
          exact (performs_instr ih h1 hfitsI hslots hi hres (by lia)).stop (hres.ne_normal hk)

/-! ### The emitter succeeds -/

/-- The `finally` bodies a jump may still copy. -/
def weight : List Scope → Nat
  | [] => 0
  | .finally_ f _ :: Γ => sizeAll f + weight Γ
  | _ :: Γ => weight Γ

theorem weight_mask {inner Γ : List Scope} {f : List Instr} {slot : Nat} :
    weight (inner ++ .finally_ f slot :: Γ) =
      sizeAll f + weight (inner ++ .masked slot :: Γ) := by
  induction inner with
  | nil => rfl
  | cons σ inner ih =>
    cases σ with
    | finally_ f' slot' =>
      simp only [cons_append, weight]
      lia
    | _ => exact ih

/-- The emitter succeeds on buffers with little to emit. -/
def Succeeds (emit : Emit) (N : Nat) : Prop :=
  ∀ Γ body c, (∀ j ∈ freeAll body, j ∈ Γ.flatMap Scope.targets) → Enclosed Γ →
    sizeAll body + weight Γ < N → ∃ code c', emit (Γ.map Scope.frame) body c = some (code, c')

/-- A member that passes the filter, or does not. -/
theorem mem_or_filter {α : Type} {l outer : List α} (p : α → Prop) [DecidablePred p]
    (h : ∀ j ∈ l.filter (¬ p ·), j ∈ outer) (j : α) (hj : j ∈ l) : p j ∨ j ∈ outer := by
  by_cases hp : p j
  · exact Or.inl hp
  · exact Or.inr (h j (mem_filter.mpr ⟨hj, by simpa using hp⟩))

namespace Succeeds
variable {emit : Emit} {N : Nat} (hemit : Succeeds emit N)
include hemit

variable {f body : List Instr} {c : Nat} {payloadSlot label : Option Nat} {cb : Option (List Instr)}
    {Γ : List Scope}

theorem resolveBrLabel {l : Nat} {m : Mode} {inner : List Scope}
    (hmem : (l, m) ∈ Γ.flatMap Scope.targets) (henclosed : Enclosed (inner ++ Γ))
    (hN : weight (inner ++ Γ) < N) :
    ∃ code c', resolveBrLabel emit l m (inner.map Scope.frame) (Γ.map Scope.frame) c =
      some (code, c') := by
  induction Γ generalizing inner c with
  | nil => exact nomatch hmem
  | cons σ Γ ih =>
    rw [map_cons, Control.resolveBrLabel]
    by_cases hσ : (l, m) ∈ σ.targets
    · rw [if_pos ((σ.matches_frame l m).mpr hσ)]
      exact ⟨_, _, rfl⟩
    · rw [if_neg (mt (σ.matches_frame l m).mp hσ)]
      have hcrossed : ∃ code c', emitCrossed emit (inner.map Scope.frame) σ.frame
          (Γ.map Scope.frame) c = some (code, c') := by
        cases σ with
        | finally_ f slot =>
          have hN' : sizeAll f + weight (inner ++ .masked slot :: Γ) < N := by
            rwa [← weight_mask]
          have hfree : ∀ j ∈ freeAll f,
              j ∈ (inner ++ .masked slot :: Γ).flatMap Scope.targets := by
            intro j hj
            have h := henclosed.drop.1 j hj
            simp only [flatMap_append, flatMap_cons, mem_append]
            exact Or.inr (Or.inr h)
          obtain ⟨code, c', h⟩ := hemit _ f c hfree henclosed.mask hN'
          have h : emit (inner.map Scope.frame ++ .plain none none (some slot) ::
              Γ.map Scope.frame) f c = some (code, c') := by simpa [Scope.frame] using h
          exact ⟨_, _, by rw [Scope.frame, emitCrossed, h]; rfl⟩
        | _ => exact ⟨_, _, rfl⟩
      obtain ⟨code1, c1, h1⟩ := hcrossed
      have hstack : inner ++ [σ] ++ Γ = inner ++ σ :: Γ := by simp
      have hmem : (l, m) ∈ Γ.flatMap Scope.targets := by
        rw [flatMap_cons, mem_append] at hmem
        exact hmem.resolve_left hσ
      obtain ⟨code2, c2, h2⟩ := ih (c := c1) hmem (hstack ▸ henclosed) (hstack ▸ hN)
      rw [map_append, map_singleton] at h2
      refine ⟨code1 ++ σ.frame.close ++ code2, c2, ?_⟩
      rw [h1, bind_some]
      simp [h2]

theorem emitBodies {Γ : List Scope} {l : Nat} {bodies : List (List Instr)} {cur : List Code}
    {c : Nat} (hfree : ∀ j ∈ freeBodies bodies, j = (l, .break_) ∨ j ∈ Γ.flatMap Scope.targets)
    (henclosed : Enclosed Γ) (hN : sizeBodies bodies + weight Γ < N) :
    ∃ code c', emitBodies emit (Γ.map Scope.frame) l bodies cur c = some (code, c') := by
  induction bodies generalizing cur c with
  | nil => exact ⟨_, _, rfl⟩
  | cons body rest ih =>
    have hscopes (m : Nat) : Enclosed (replicate m .plain ++ .breaks l none :: Γ) ∧
        weight (replicate m .plain ++ .breaks l none :: Γ) = weight Γ := by
      induction m with
      | zero => exact ⟨henclosed, rfl⟩
      | succ m ih => exact ih
    obtain ⟨henclosed', hweight⟩ := hscopes rest.length
    rw [sizeBodies] at hN
    have hbody : ∀ j ∈ freeAll body,
        j ∈ (replicate rest.length Scope.plain ++ .breaks l none :: Γ).flatMap Scope.targets := by
      intro j hj
      rw [flatMap_append, mem_append, flatMap_cons, mem_append]
      right
      exact (hfree j (mem_append_left _ hj)).imp_left mem_singleton.mpr
    obtain ⟨code1, c1, h1⟩ := hemit _ body c hbody henclosed' (by lia)
    obtain ⟨code2, c2, h2⟩ := @ih (.block cur :: code1) c1
      (fun j hj => hfree j (mem_append_right _ hj)) (by lia)
    have h1 : emit (replicate rest.length (.plain none none none) ++
        .break_ l none :: Γ.map Scope.frame) body c = some (code1, c1) := by
      simpa [Scope.frame] using h1
    refine ⟨code2, c2, ?_⟩
    rw [Control.emitBodies, h1, bind_some]
    exact h2

/-- In front of further scopes that introduce what the body needs. -/
theorem inside (scopes : List Scope) (c : Nat)
    (hfree : ∀ j ∈ freeAll body, j ∈ scopes.flatMap Scope.targets ∨ j ∈ Γ.flatMap Scope.targets)
    (henclosed : Enclosed (scopes ++ Γ)) (hN : sizeAll body + weight (scopes ++ Γ) < N) :
    ∃ code c', emit (scopes.map Scope.frame ++ Γ.map Scope.frame) body c = some (code, c') := by
  rw [← map_append]
  apply hemit _ body c _ henclosed hN
  intro j hj
  rw [flatMap_append, mem_append]
  exact hfree j hj

theorem emitGuardedFinally (scopes : List Scope) (slot c : Nat)
    (hfree : ∀ j ∈ freeAll f, j ∈ Γ.flatMap Scope.targets)
    (henclosed : Enclosed (.plain :: scopes ++ Γ))
    (hN : sizeAll f + weight (.plain :: scopes ++ Γ) < N) :
    ∃ code c', emitGuardedFinally emit (scopes.map Scope.frame ++ Γ.map Scope.frame) slot f c =
      some (code, c') := by
  obtain ⟨code, c', h⟩ := hemit.inside (.plain :: scopes) c (fun j hj => Or.inr (hfree j hj)) henclosed hN
  have h : emit (.plain none none none :: (scopes.map Scope.frame ++ Γ.map Scope.frame)) f c =
    some (code, c') := h
  exact ⟨_, _, by rw [Control.emitGuardedFinally, h]; rfl⟩

theorem emitTryFinally
    (hfree : ∀ j ∈ freeAll body ++ freeOption cb ++ freeAll f, j ∈ Γ.flatMap Scope.targets)
    (henclosed : Enclosed Γ) (hN : sizeAll body + sizeOption cb + sizeAll f + weight Γ < N) :
    ∃ code c', emitTry emit (Γ.map Scope.frame) body cb payloadSlot (some f) c =
      some (code, c') := by
  have hfreeF : ∀ j ∈ freeAll f, j ∈ Γ.flatMap Scope.targets :=
    fun j hj => hfree j (mem_append_right _ hj)
  have hfreeBody : ∀ j ∈ freeAll body, j ∈ Γ.flatMap Scope.targets :=
    fun j hj => hfree j (mem_append_left _ (mem_append_left _ hj))
  have hfreeCatch : ∀ j ∈ freeOption cb, j ∈ Γ.flatMap Scope.targets :=
    fun j hj => hfree j (mem_append_left _ (mem_append_right _ hj))
  have hactive : Enclosed (.finally_ f c :: Γ) := ⟨hfreeF, henclosed⟩
  have hactive2 : Enclosed (.finally_ f c :: .masked c :: Γ) := ⟨hfreeF, henclosed⟩
  obtain ⟨code1, c1, h1⟩ := hemit.inside [.finally_ f c] (c + 1)
    (fun j hj => Or.inr (hfreeBody j hj)) hactive
    (by simp only [cons_append, nil_append, weight]; lia)
  obtain ⟨code2, c2, h2⟩ := hemit.inside [.masked c] c1
    (fun j hj => Or.inr (hfreeF j hj)) henclosed
    (by simp only [cons_append, nil_append, weight]; lia)
  have hhandler : ∃ code c', emitHandler emit (Γ.map Scope.frame) c payloadSlot f cb c2 =
      some (code, c') := by
    cases cb with
    | none => exact ⟨_, _, rfl⟩
    | some cb =>
      rw [sizeOption] at hN
      obtain ⟨inner, c3, h3⟩ := hemit.inside [.finally_ f c, .masked c] (c2 + 1)
        (fun j hj => Or.inr (hfreeCatch j hj)) hactive2
        (by simp only [cons_append, nil_append, weight]; lia)
      obtain ⟨innerAll, c4, h4⟩ := hemit.emitGuardedFinally [.masked c, .masked c] c c3
        hfreeF henclosed
        (by simp only [cons_append, nil_append, weight]; lia)
      obtain ⟨exit, c5, h5⟩ := hemit.inside [.masked c] c4
        (fun j hj => Or.inr (hfreeF j hj)) henclosed
        (by simp only [cons_append, nil_append, weight]; lia)
      simp only [map_cons, map_nil, cons_append, nil_append,
        Scope.frame] at h3 h4 h5
      have h : (emitCatch emit (Γ.map Scope.frame) c cb payloadSlot f c2).isSome = true := by
        simp [emitCatch, h3, h4, h5, bind_some, isSome_some]
      obtain ⟨⟨handler, c6⟩, h⟩ := isSome_iff_exists.mp h
      exact ⟨some handler, c6, by rw [emitHandler, h]; rfl⟩
  obtain ⟨handler, c3, h3⟩ := hhandler
  obtain ⟨all, c4, h4⟩ := hemit.emitGuardedFinally [.masked c] c c3 hfreeF henclosed
    (by simp only [cons_append, nil_append, weight]; lia)
  simp only [map_cons, map_nil, cons_append, nil_append,
    Scope.frame] at h1 h2 h4
  have h : (emitTry emit (Γ.map Scope.frame) body cb payloadSlot (some f) c).isSome = true := by
    simp [emitTry, h1, h2, h3, h4, bind_some, isSome_some]
  obtain ⟨⟨code, c'⟩, h⟩ := isSome_iff_exists.mp h
  exact ⟨code, c', h⟩

theorem emitTryCatch (hfree : ∀ j ∈ freeAll body ++ freeOption cb, j ∈ Γ.flatMap Scope.targets)
    (henclosed : Enclosed Γ) (hN : sizeAll body + sizeOption cb + weight Γ < N) :
    ∃ code c', emitTry emit (Γ.map Scope.frame) body cb payloadSlot none c =
      some (code, c') := by
  obtain ⟨code1, c1, h1⟩ := hemit.inside [.plain] c
    (fun j hj => Or.inr (hfree j (mem_append_left _ hj))) henclosed
    (by simp only [cons_append, nil_append, weight]; lia)
  simp only [map_cons, map_nil, cons_append, nil_append, Scope.frame] at h1
  cases cb with
  | none => exact ⟨_, _, by rw [emitTry, h1]; rfl⟩
  | some cb =>
    rw [sizeOption] at hN
    obtain ⟨code2, c2, h2⟩ := hemit.inside [.plain] c1
      (fun j hj => Or.inr (hfree j (mem_append_right _ hj))) henclosed
      (by simp only [cons_append, nil_append, weight]; lia)
    simp only [map_cons, map_nil, cons_append, nil_append,
      Scope.frame] at h2
    exact ⟨_, _, by simp only [emitTry, h1, h2, bind_some, map_some]; rfl⟩

/-- The body of a loop. -/
theorem loopFrames {kind : LoopKind} (c : Nat)
    (hfree : ∀ j ∈ (freeAll body).filter (· ∉ loopTargets label), j ∈ Γ.flatMap Scope.targets)
    (henclosed : Enclosed Γ) (hN : sizeAll body + weight Γ < N) :
    ∃ code c', emit (loopFrames kind label (needsContinueBlock kind label body) ++
      Γ.map Scope.frame) body c = some (code, c') := by
  have hsplit := mem_or_filter (· ∈ loopTargets label) hfree
  cases label with
  | none =>
    have h := hemit.inside [.plain, .plain] c
      (fun j hj => (hsplit j hj).imp_left fun h => nomatch h) henclosed hN
    simpa [Control.loopFrames, Scope.frame] using h
  | some l =>
    by_cases hkind : kind = .while_
    · subst hkind
      have h := hemit.inside [.continues l, .breaks l none] c
        (fun j hj => (hsplit j hj).imp_left fun h => by
          simpa [loopTargets, Scope.targets, or_comm] using h) henclosed hN
      simpa [Control.loopFrames, needsContinueBlock, Scope.frame] using h
    · have hneeds : needsContinueBlock kind (some l) body = bufferHasBrLabel l .continue_ body := by
        cases kind with
        | while_ => exact absurd rfl hkind
        | _ => rfl
      rw [hneeds]
      by_cases hcont : bufferHasBrLabel l .continue_ body = true
      · have h := hemit.inside [.continues l, .plain, .breaks l none] c
          (fun j hj => (hsplit j hj).imp_left fun h => by
            simpa [loopTargets, Scope.targets, or_comm] using h) henclosed hN
        simpa [Control.loopFrames, hcont, hkind, Scope.frame] using h
      · have h := hemit.inside [.plain, .breaks l none] c (fun j hj => by
          have hne : j ≠ (l, .continue_) := by
            rintro rfl
            exact hcont (bufferHasBrLabel_of_free body hj)
          have h := hsplit j hj
          simp only [loopTargets, mem_cons, not_mem_nil, or_false, hne] at h
          simpa [Scope.targets] using h) henclosed hN
        simpa [Control.loopFrames, hcont, hkind, Scope.frame] using h

theorem iterFrames {iter : Nat} (c : Nat)
    (hfree : ∀ j ∈ (freeAll body).filter (· ∉ loopTargets label), j ∈ Γ.flatMap Scope.targets)
    (henclosed : Enclosed Γ) (hN : sizeAll body + weight Γ < N) :
    ∃ code c', emit (iterFrames iter label ++ Γ.map Scope.frame) body c = some (code, c') := by
  have hsplit := mem_or_filter (· ∈ loopTargets label) hfree
  cases label with
  | none =>
    exact hemit.inside [.plain, .iterates iter] c
      (fun j hj => (hsplit j hj).imp_left fun h => nomatch h) henclosed hN
  | some l =>
    exact hemit.inside [.continues l, .breaks l (some iter)] c
      (fun j hj => (hsplit j hj).imp_left fun h => by
        simpa [loopTargets, Scope.targets, or_comm] using h) henclosed hN

theorem emitInstr {i : Instr} (hfree : ∀ j ∈ i.free, j ∈ Γ.flatMap Scope.targets)
    (henclosed : Enclosed Γ) (hN : i.size + weight Γ ≤ N) :
    ∃ code c', emitInstr emit (Γ.map Scope.frame) c i = some (code, c') := by
  cases i with
  | effect e | throw_ value => exact ⟨_, _, rfl⟩
  | brLabel label mode =>
    rw [Instr.size] at hN
    have h : ∃ code c', Control.resolveBrLabel emit label mode (([] : List Scope).map Scope.frame)
        (Γ.map Scope.frame) c = some (code, c') :=
      hemit.resolveBrLabel (hfree _ mem_cons_self) henclosed
        (Nat.lt_of_lt_of_le (Nat.lt_add_of_pos_left Nat.one_pos) hN)
    exact h
  | ifStmt cond then_ els =>
    rw [Instr.size] at hN
    obtain ⟨code1, c1, h1⟩ := hemit.inside [.plain] c
      (fun j hj => Or.inr (hfree j (mem_append_left _ hj))) henclosed
      (by simp only [cons_append, nil_append, weight]; lia)
    obtain ⟨code2, c2, h2⟩ := hemit.inside [.plain] c1
      (fun j hj => Or.inr (hfree j (mem_append_right _ hj))) henclosed
      (by simp only [cons_append, nil_append, weight]; lia)
    simp only [map_cons, map_nil, cons_append, nil_append,
      Scope.frame] at h1 h2
    exact ⟨_, _, by simp only [Control.emitInstr, h1, h2, bind_some, map_some]; rfl⟩
  | labeledBlock label body =>
    rw [Instr.size] at hN
    obtain ⟨code1, c1, h1⟩ := hemit.inside [.breaks label none] c (fun j hj =>
      (mem_or_filter (· = (label, .break_)) hfree j hj).imp_left mem_singleton.mpr) henclosed
      (by simp only [cons_append, nil_append, weight]; lia)
    simp only [map_cons, map_nil, cons_append, nil_append,
      Scope.frame] at h1
    exact ⟨_, _, by rw [Control.emitInstr, h1]; rfl⟩
  | loop kind cond condValue body update loopLabel =>
    rw [Instr.size] at hN
    obtain ⟨code1, c1, h1⟩ := hemit.loopFrames c hfree henclosed (by lia)
    exact ⟨_, _, by rw [Control.emitInstr, h1]; rfl⟩
  | forofIter iter body loopLabel =>
    rw [Instr.size] at hN
    obtain ⟨code1, c1, h1⟩ := hemit.iterFrames c hfree henclosed (by lia)
    exact ⟨_, _, by rw [Control.emitInstr, h1]; rfl⟩
  | switch disc tests bodies breakLabel =>
    rw [Instr.size] at hN
    by_cases hnil : bodies = []
    · exact ⟨_, _, by rw [Control.emitInstr, if_pos hnil]⟩
    · obtain ⟨code1, c1, h1⟩ := hemit.emitBodies
        (mem_or_filter (· = (breakLabel, Mode.break_)) hfree) henclosed (by lia)
      exact ⟨_, _, by rw [Control.emitInstr, if_neg hnil, h1]; rfl⟩
  | try_ body catchBody payloadSlot finallyBody =>
    rw [Instr.size] at hN
    cases finallyBody with
    | none =>
      rw [sizeOption] at hN
      exact hemit.emitTryCatch (fun j hj => hfree j (mem_append_left _ hj)) henclosed
        (by lia)
    | some f =>
      rw [sizeOption] at hN
      exact hemit.emitTryFinally hfree henclosed (by lia)

end Succeeds

theorem emitInstrs_succeeds (fuel : Nat) : Succeeds (emitInstrs fuel) fuel := by
  induction fuel with
  | zero => exact fun _ _ _ _ _ h => absurd h (Nat.not_lt_zero _)
  | succ fuel ih =>
    intro Γ body c hfree henclosed hN
    cases body with
    | nil => exact ⟨_, _, rfl⟩
    | cons i rest =>
      rw [sizeAll] at hN
      have hpos : 0 < i.size := by cases i <;> simp [Instr.size]
      obtain ⟨code1, c1, h1⟩ := ih.emitInstr (fun j hj => hfree j (mem_append_left _ hj))
        henclosed (by lia)
      obtain ⟨code2, c2, h2⟩ := ih Γ rest c1 (fun j hj => hfree j (mem_append_right _ hj))
        henclosed (by lia)
      exact ⟨_, _, by rw [emitInstrs, h1, bind_some]; simp only [h2]; rfl⟩

/-- **A well-labelled body is lowered.** -/
theorem lowerBody_isSome {body : List Instr} (hfree : freeAll body = []) :
    ∃ code, lowerBody body = some code := by
  have hjumps : ∀ j ∈ freeAll body, j ∈ ([] : List Scope).flatMap Scope.targets := by
    simp [hfree]
  obtain ⟨code, c', h⟩ := emitInstrs_succeeds (sizeAll body + 1) [] body 0 hjumps trivial
    (Nat.lt_succ_self _)
  rw [map_nil] at h
  exact ⟨code, by rw [lowerBody, h]; rfl⟩

/-! ### Function bodies -/

end

/-- A function body and its code end alike.  No jump leaves a function. -/
def Completion.result {X : Type} : Completion X → Option (Res X)
  | .normal => some .normal
  | .throw_ x => some (.throw_ x)
  | .br _ _ _ => none

/-- The body is lowered, and in every world and for every run of it the code, started in the
same world, ends in the same world and in the same way. -/
def PreservesCompletions (exact : Bool) (body : List Instr) : Prop :=
  ∃ code, lowerBody body = some code ∧
    ∀ {S X : Type} (w : World S X) (s : S) (k : Completion X) (s' : S) (n : Nat),
      Run w exact body s k s' n → ∀ t : TState S X, t.world = s →
        ∃ r t', Runs w [] code t r t' ∧ k.result = some r ∧ t'.world = s'

/-- **Structured control lowering preserves completions** on the runs without an abrupt
`finally` behind something already left, and without an iterator left open or closed. -/
theorem lowerBody_preserves {body : List Instr} (hfree : freeAll body = [])
    (honce : (boundAll body).Nodup) : PreservesCompletions true body := by
  obtain ⟨code, hcode⟩ := lowerBody_isSome hfree
  refine ⟨code, hcode, ?_⟩
  intro S X w s k s' n hrun t ht
  obtain ⟨⟨code', c'⟩, hemit, rfl⟩ := map_eq_some_iff.mp hcode
  have hfits : Fits [] (boundAll body) (freeAll body) := by
    refine ⟨fun j => ?_, by simp [hfree], trivial⟩
    exact nodup_iff_count_le_one.mp honce j
  have hresult : ∃ r, Resolves w [] k s' r s' [] 0 ∧ k.result = some r := by
    cases k with
    | normal => exact ⟨_, .normal, rfl⟩
    | throw_ x => exact ⟨_, .throw_, rfl⟩
    | br l m cr =>
      have hmem := hrun.mem_free rfl
      rw [hfree] at hmem
      exact nomatch hmem
  obtain ⟨r, hres, hr⟩ := hresult
  obtain ⟨t', hruns, hafter⟩ := simBelow (n + 1) hemit hfits (fun _ h => nomatch h) hrun hres
    (by lia) [] t ht
  exact ⟨r, t', hruns, hr, hafter.world⟩

/-- A world that records its effects. -/
def traceWorld : World (List Nat) Nat where
  effect e s := (e :: s, none)
  test _ _ := true
  value v _ := v
  bind _ _ s := s
  iterOpen _ s := s
  iterNext _ s := (s, true)
  iterReturn _ s := s
  disc _ s := s
  equals _ _ _ := false

/-- `L: { try { break L } finally { e1 } } e2`. -/
def brokenOff : List Instr :=
  [.labeledBlock 0 [.try_ [.brLabel 0 .break_] none none (some [.effect 1])], .effect 2]

theorem brokenOff_preserves : PreservesCompletions true brokenOff ∧
    ∃ n, Run traceWorld true brokenOff [] .normal [2, 1] n := by
  refine ⟨lowerBody_preserves rfl (by decide), ?_⟩
  have hjump : Run traceWorld true [.brLabel 0 .break_] [] (.br 0 .break_ .none) [] 2 :=
    .stop .brLabel nofun
  have hfinally : Run traceWorld true [.effect 1] [] .normal [1] 2 := .cons (.effect rfl) .nil
  have htry : RunI traceWorld true (.try_ [.brLabel 0 .break_] none none (some [.effect 1])) []
      (.br 0 .break_ ⟨false, true⟩) [1] 6 :=
    .tryFinally hjump (Or.inl rfl) hfinally fun _ => trivial
  have hblock : Run traceWorld true brokenOff [] .normal [2, 1] 11 :=
    .cons (.labeledBlock (.stop htry nofun)) (.cons (.effect rfl) .nil)
  exact ⟨11, hblock⟩

/-- `L: { try { try { break L } catch { e1 } } finally { e2; throw 7 } }`. -/
def caughtFinally : List Instr :=
  [.labeledBlock 0 [.try_ [.try_ [.brLabel 0 .break_] (some [.effect 1]) none none] none none
    (some [.effect 2, .throw_ 7])]]

/-- The copy of the `finally` stands inside the `try` that has a `catch`: its exception is
caught there, and the `finally` runs again behind it. -/
theorem caughtFinally_runs_twice : freeAll caughtFinally = [] ∧ (boundAll caughtFinally).Nodup ∧
    ¬ PreservesCompletions false caughtFinally := by
  refine ⟨rfl, by decide, ?_⟩
  rintro ⟨code, hcode, h⟩
  have hjump : Run traceWorld false [.brLabel 0 .break_] [] (.br 0 .break_ .none) [] 2 :=
    .stop .brLabel nofun
  have hinner : RunI traceWorld false (.try_ [.brLabel 0 .break_] (some [.effect 1]) none none) []
      (.br 0 .break_ ⟨true, false⟩) [] 3 := .try_ hjump (Or.inr rfl)
  have hthrow : Run traceWorld false [.effect 2, .throw_ 7] [] (.throw_ 7) [2] 4 :=
    .cons (.effect rfl) (.stop .throw_ nofun)
  have htry : Run traceWorld false [.try_ [.try_ [.brLabel 0 .break_] (some [.effect 1]) none none]
      none none (some [.effect 2, .throw_ 7])] [] (.throw_ 7) [2] 11 :=
    .stop (.tryFinally (.stop hinner nofun) (Or.inl rfl) hthrow nofun) nofun
  have hbody : Run traceWorld false caughtFinally [] (.throw_ 7) [2] 13 :=
    .stop (.labeledBlock htry) nofun
  let t : TState (List Nat) Nat := ⟨[], fun _ => false, fun _ => none, []⟩
  obtain ⟨r, t', hruns, -, hworld⟩ := h traceWorld [] _ [2] _ hbody t rfl
  have hexec : ∃ t1, ((lowerBody caughtFinally).bind fun code => exec traceWorld 20 [] code t) =
      some (.throw_ 7, t1) ∧ t1.world = [2, 1, 2] := ⟨_, rfl, rfl⟩
  rw [hcode, bind_some] at hexec
  obtain ⟨t1, hexec, htwice⟩ := hexec
  obtain ⟨-, rfl⟩ := Runs.unique ⟨20, hexec⟩ hruns
  rw [hworld] at htwice
  exact nomatch htwice

end Js2Wasm.Control
