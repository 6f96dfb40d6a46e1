import Js2Wasm.Control.Scope
import Js2Wasm.Control.Free

/-! # The emitted code of a jump

The counter of the emitter only grows.  Then `performs_resolve`: if buffers with shorter runs
are emitted correctly (`SimBelow`), the code of a `br.label` performs what `Resolves` says.
-/
namespace Js2Wasm.Control
open List Option

/-! ### The counter -/

def Grows (emit : Emit) : Prop :=
  ∀ {ctrlStack body c code c'}, emit ctrlStack body c = some (code, c') → c ≤ c'

namespace Grows
variable {emit : Emit} (hemit : Grows emit)
include hemit

theorem emitCrossed {inner outer : List CtrlFrame} {frame : CtrlFrame} {c c' : Nat}
    {code : List Code} (h : emitCrossed emit inner frame outer c = some (code, c')) : c ≤ c' := by
  unfold Control.emitCrossed at h
  split at h
  · obtain ⟨⟨code1, c1⟩, h1, h⟩ := map_eq_some_iff.mp h
    cases h
    exact hemit h1
  · cases h
    exact Nat.le_refl _

variable {code : List Code} {c slot c' : Nat} {f : List Instr} {payloadSlot : Option Nat}
    {outer ctrlStack inner : List CtrlFrame} {catchBody : Option (List Instr)}

theorem resolveBrLabel {label : Nat} {mode : Mode}
    (h : resolveBrLabel emit label mode inner outer c = some (code, c')) : c ≤ c' := by
  induction outer generalizing inner c code with
  | nil => exact nomatch h
  | cons frame outer ih =>
    rw [Control.resolveBrLabel] at h
    split at h
    · cases h
      exact Nat.le_refl _
    · obtain ⟨⟨code1, c1⟩, h1, h⟩ := bind_eq_some_iff.mp h
      obtain ⟨⟨code2, c2⟩, h2, h⟩ := map_eq_some_iff.mp h
      cases h
      exact Nat.le_trans (hemit.emitCrossed h1) (ih h2)

theorem emitBodies {breakLabel : Nat} {bodies : List (List Instr)} {cur : List Code}
    (h : emitBodies emit ctrlStack breakLabel bodies cur c = some (code, c')) : c ≤ c' := by
  induction bodies generalizing cur c with
  | nil =>
    cases h
    exact Nat.le_refl _
  | cons body rest ih =>
    obtain ⟨⟨code1, c1⟩, h1, h⟩ := bind_eq_some_iff.mp h
    exact Nat.le_trans (hemit h1) (ih h)

theorem emitGuardedFinally (h : emitGuardedFinally emit ctrlStack slot f c = some (code, c')) :
    c ≤ c' := by
  obtain ⟨⟨code1, c1⟩, h1, h⟩ := map_eq_some_iff.mp h
  cases h
  exact hemit h1

theorem emitHandler {code : Option (List Code)}
    (h : emitHandler emit ctrlStack slot payloadSlot f catchBody c = some (code, c')) : c ≤ c' := by
  cases catchBody with
  | none =>
    cases h
    exact Nat.le_refl _
  | some catchBody =>
    obtain ⟨⟨code0, c0⟩, h, h0⟩ := map_eq_some_iff.mp h
    cases h0
    obtain ⟨⟨code1, c1⟩, h1, h⟩ := bind_eq_some_iff.mp h
    obtain ⟨⟨code2, c2⟩, h2, h⟩ := bind_eq_some_iff.mp h
    obtain ⟨⟨code3, c3⟩, h3, h⟩ := map_eq_some_iff.mp h
    cases h
    have hle1 := hemit h1
    have hle2 := hemit.emitGuardedFinally h2
    have hle3 := hemit h3
    omega

theorem emitTry {body : List Instr} {finallyBody : Option (List Instr)}
    (h : emitTry emit ctrlStack body catchBody payloadSlot finallyBody c = some (code, c')) :
    c ≤ c' := by
  unfold Control.emitTry at h
  split at h
  · obtain ⟨⟨code1, c1⟩, h1, h⟩ := map_eq_some_iff.mp h
    cases h
    exact hemit h1
  · obtain ⟨⟨code1, c1⟩, h1, h⟩ := bind_eq_some_iff.mp h
    obtain ⟨⟨code2, c2⟩, h2, h⟩ := map_eq_some_iff.mp h
    cases h
    exact Nat.le_trans (hemit h1) (hemit h2)
  · obtain ⟨⟨code1, c1⟩, h1, h⟩ := bind_eq_some_iff.mp h
    obtain ⟨⟨code2, c2⟩, h2, h⟩ := bind_eq_some_iff.mp h
    obtain ⟨⟨code3, c3⟩, h3, h⟩ := bind_eq_some_iff.mp h
    obtain ⟨⟨code4, c4⟩, h4, h⟩ := map_eq_some_iff.mp h
    cases h
    have hle1 := hemit h1
    have hle2 := hemit h2
    have hle3 := hemit.emitHandler h3
    have hle4 := hemit.emitGuardedFinally h4
    omega

theorem emitInstr {i : Instr} (h : emitInstr emit ctrlStack c i = some (code, c')) : c ≤ c' := by
  cases i with
  | effect e | throw_ value =>
    cases h
    exact Nat.le_refl _
  | brLabel label mode => exact hemit.resolveBrLabel h
  | ifStmt cond then_ els =>
    obtain ⟨⟨code1, c1⟩, h1, h⟩ := bind_eq_some_iff.mp h
    obtain ⟨⟨code2, c2⟩, h2, h⟩ := map_eq_some_iff.mp h
    cases h
    exact Nat.le_trans (hemit h1) (hemit h2)
  | labeledBlock label body | loop kind cond condValue body update loopLabel
  | forofIter iter body loopLabel =>
    obtain ⟨⟨code1, c1⟩, h1, h⟩ := map_eq_some_iff.mp h
    cases h
    exact hemit h1
  | switch disc tests bodies breakLabel =>
    rw [Control.emitInstr] at h
    split at h
    · cases h
      exact Nat.le_refl _
    · obtain ⟨⟨code1, c1⟩, h1, h⟩ := map_eq_some_iff.mp h
      cases h
      exact hemit.emitBodies h1
  | try_ body catchBody payloadSlot finallyBody => exact hemit.emitTry h

end Grows

theorem emitInstrs_grows (fuel : Nat) : Grows (emitInstrs fuel) := by
  induction fuel with
  | zero => exact fun h => nomatch h
  | succ fuel ih =>
    intro ctrlStack body c code c' h
    cases body with
    | nil =>
      cases h
      exact Nat.le_refl _
    | cons i rest =>
      obtain ⟨⟨code1, c1⟩, h1, h⟩ := bind_eq_some_iff.mp h
      obtain ⟨⟨code2, c2⟩, h2, h⟩ := map_eq_some_iff.mp h
      cases h
      exact Nat.le_trans (ih.emitInstr h1) (ih h2)

/-! ### Jumps -/

section
variable {S X : Type} {w : World S X}

variable (w) in
/-- The emitter is correct on runs, with what their completion still has to run outside, of a
size below `N`. -/
def SimBelow (N : Nat) : Prop :=
  ∀ ⦃fuel Γ body c code c' s k s1 n r s' raised m⦄,
    emitInstrs fuel (Γ.map Scope.frame) body c = some (code, c') →
    Fits Γ (boundAll body) (freeAll body) → (∀ slot ∈ Γ.flatMap Scope.slots, slot < c) →
    Run w true body s k s1 n → Resolves w Γ k s1 r s' raised m → n + m < N →
    Performs w code s r s' raised c

variable {inner Γ : List Scope} {σ : Scope}

theorem performs_close {s : S} {c : Nat} :
    Performs w σ.frame.close s .normal (σ.close w s) [] c := by
  have hclose (i : Nat) : Performs w [.iterReturn i] s .normal (w.iterReturn i s) [] c := by
    apply Performs.single
    rintro run labels t rfl
    rfl
  cases σ with
  | breaks l iter =>
    cases iter with
    | none => exact Performs.nil
    | some i => exact hclose i
  | iterates i => exact hclose i
  | _ => exact Performs.nil

/-- Two scopes of a stack in which every target is introduced once do not share one. -/
theorem not_mem_targets {τ : Scope} {j : Nat × Mode}
    (honce : ∀ j, ((inner ++ τ :: Γ).flatMap Scope.labels).count j ≤ 1) (hσ : σ ∈ inner)
    (hj : j ∈ Γ.flatMap Scope.targets) : j ∉ σ.targets := by
  intro hmem
  obtain ⟨τ', hτ', hj⟩ := mem_flatMap.mp hj
  have hinner : 0 < (inner.flatMap Scope.labels).count j :=
    count_pos_iff.mpr (mem_flatMap.mpr ⟨σ, hσ, Scope.targets_subset_labels hmem⟩)
  have houter : 0 < (Γ.flatMap Scope.labels).count j :=
    count_pos_iff.mpr (mem_flatMap.mpr ⟨τ', hτ', Scope.targets_subset_labels hj⟩)
  have h := honce j
  simp only [flatMap_append, flatMap_cons, count_append] at h
  omega

/-- A `finally` fits where a jump puts its copy. -/
theorem fits_finally {f : List Instr} {slot : Nat}
    (honce : ∀ j, ((inner ++ .finally_ f slot :: Γ).flatMap Scope.labels).count j ≤ 1)
    (henclosed : Enclosed (inner ++ .finally_ f slot :: Γ)) :
    Fits (inner ++ .masked slot :: Γ) (boundAll f) (freeAll f) where
  once j := by
    have h := honce j
    simp only [flatMap_append, flatMap_cons, count_append, Scope.labels,
      Scope.targets, count_nil] at h ⊢
    omega
  free j hj := by
    have h := henclosed.drop.1 j hj
    simp only [flatMap_append, flatMap_cons, mem_append]
    exact Or.inr (Or.inr h)
  enclosed := henclosed.mask

/-- **The code of a jump.** -/
theorem performs_resolve {N : Nat} (ih : SimBelow w N) {fuel l : Nat} {m : Mode} :
    ∀ {inner : List Scope} {cr : Crossed} {c c' : Nat} {code : List Code} {s s' : S} {r : Res X}
      {raised : List Nat} {n : Nat},
    resolveBrLabel (emitInstrs fuel) l m (inner.map Scope.frame) (Γ.map Scope.frame) c =
      some (code, c') →
    (∀ j, ((inner ++ Γ).flatMap Scope.labels).count j ≤ 1) → Enclosed (inner ++ Γ) →
    (∀ slot ∈ (inner ++ Γ).flatMap Scope.slots, slot < c) → Covers cr inner →
    Resolves w Γ (.br l m cr) s r s' raised n → n < N →
    Performs w code s (r.upBy inner.length) s' raised c := by
  induction Γ with
  | nil =>
    intro inner cr c c' code s s' r raised n h
    cases h
  | cons σ Γ ihΓ =>
    intro inner cr c c' code s s' r raised n h honce henclosed hslots hcovers hres hn
    rw [map_cons, resolveBrLabel] at h
    by_cases hmem : (l, m) ∈ σ.targets
    · -- The frame of the target: both sides stop here.
      rw [if_pos ((σ.matches_frame l m).mpr hmem)] at h
      cases h
      cases hres with
      | found _ =>
        rw [length_map, Res.upBy, Nat.zero_add]
        exact Performs.br
      | skip hmem' _ _ => exact absurd hmem hmem'
      | finally_ _ _ _ => cases hmem
    · rw [if_neg (mt (σ.matches_frame l m).mp hmem)] at h
      obtain ⟨⟨code1, c1⟩, h1, h⟩ := bind_eq_some_iff.mp h
      obtain ⟨⟨code2, c2⟩, h2, h⟩ := map_eq_some_iff.mp h
      cases h
      have hle := Grows.emitCrossed (emitInstrs_grows fuel) h1
      -- The scan goes on with one more frame crossed.
      have hnext {cr : Crossed} {s s' : S} {r : Res X} {raised : List Nat} {n : Nat}
          (hcovers : Covers cr (inner ++ [σ]))
          (hres : Resolves w Γ (.br l m cr) s r s' raised n) (hn : n < N) :
          Performs w code2 s (r.up.upBy inner.length) s' raised c := by
        have hstack : inner ++ [σ] ++ Γ = inner ++ σ :: Γ := by simp
        have h := @ihΓ (inner ++ [σ]) _ _ _ _ _ _ _ _ _ (by simpa using h2) (hstack ▸ honce)
          (hstack ▸ henclosed)
          (hstack ▸ fun slot h => Nat.lt_of_lt_of_le (hslots slot h) hle) hcovers hres hn
        rw [length_append, length_singleton, ← Res.up_upBy] at h
        exact h.mono hle
      cases hres with
      | found hmem' => exact absurd hmem' hmem
      | @skip _ _ _ _ _ _ r _ _ _ _ hσslots hres =>
        have hcode : code1 = [] := by
          cases σ with
          | finally_ f slot => cases hσslots
          | _ =>
            cases h1
            rfl
        rw [hcode, nil_append]
        refine performs_close.append (hnext ?_ hres hn)
        apply hcovers.snoc <;> simp [Crossed.union]
      | @finally_ f slot _ _ _ _ _ k s1 r _ raised n1 n2 hrun hclear hres =>
        obtain ⟨⟨codeF, cF⟩, hF, h⟩ := map_eq_some_iff.mp h1
        cases h
        have hfits := fits_finally honce henclosed
        have hslotsF : ∀ slot' ∈ (inner ++ .masked slot :: Γ).flatMap Scope.slots,
            slot' < c := by
          intro slot' hslot'
          apply hslots
          simp only [flatMap_append, flatMap_cons, mem_append] at hslot' ⊢
          rcases hslot' with h | h | h
          · exact Or.inl h
          · cases h
          · exact Or.inr (Or.inr h)
        have hcode : emitInstrs fuel ((inner ++ .masked slot :: Γ).map Scope.frame) f c =
            some (codeF, c1) := by simpa [Scope.frame] using hF
        simp only [elim_some, append_assoc, singleton_append]
        -- The flag, then the copy of the `finally`.
        cases k with
        | normal =>
          have hf := ih hcode hfits hslotsF hrun .normal (by omega)
          have hrest := hnext (hcovers.snoc (by simp [Scope.crossed]) (by simp)) hres (by omega)
          exact Performs.setFlag.append (hf.append (Performs.nil.append hrest))
        | throw_ x =>
          cases hres
          have hf := ih hcode hfits hslotsF hrun .throw_ (by omega)
          exact Performs.setFlag.append (hf.stop (by rintro ⟨⟩))
        | br l' m' cr' =>
          have hcleanup : cr.cleanup = false := hclear
          have hfree := henclosed.drop.1 _ (hrun.mem_free rfl)
          have hinner : ∀ σ ∈ inner, σ.Simple ∧ (l', m') ∉ σ.targets := by
            intro σ hσ
            refine ⟨?_, not_mem_targets honce hσ hfree⟩
            exact Bool.eq_false_iff.mpr fun h => by simp [(hcovers σ hσ).2 h] at hcleanup
          have hcross : Resolves w (inner ++ .masked slot :: Γ) (.br l' m' cr') s1
              (r.up.upBy inner.length) s' raised n2 := by
            have hmasked : Resolves w (.masked slot :: Γ) (.br l' m' (cr.union cr')) s1 r.up s'
                raised n2 := hres.past rfl fun _ _ _ _ => by rintro ⟨⟩
            refine (hmasked.cross hinner ?_).less ⟨rfl, rfl, ?_, ?_⟩
            · intro σ hσ
              exact ⟨fun h => by simp [Crossed.union, (hcovers σ hσ).1 h],
                fun h => by simp [Crossed.union, (hcovers σ hσ).2 h]⟩
            all_goals exact fun h => by simp [Crossed.union, h]
          have hf := ih hcode hfits hslotsF hrun hcross (by omega)
          refine Performs.setFlag.append (hf.stop ?_)
          simpa using hres.ne_normal (by rintro ⟨⟩)

end

end Js2Wasm.Control
