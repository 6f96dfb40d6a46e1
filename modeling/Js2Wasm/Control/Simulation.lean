import Js2Wasm.Control.Rounds
import Js2Wasm.Control.Try

/-! # The emitted code performs the run

One lemma for each instruction, each for runs longer than those the emitter is already known
to be correct on (`SimBelow`); then by induction for all.
-/
namespace Js2Wasm.Control
open List

section
variable {S X : Type} {w : World S X} {N : Nat}

/-! ### Loops -/

/-- The frame a loop is left through. -/
def loopOuter : Option Nat → Scope
  | none => .plain
  | some label => .breaks label none

def iterOuter (iter : Nat) : Option Nat → Scope
  | none => .iterates iter
  | some label => .breaks label (some iter)

theorem Completion.leave_none (k : Completion X) : k.leave none = k := by
  cases k with
  | br l m cr => cases m <;> simp [leave]
  | _ => rfl

theorem loopOuter_out (label : Option Nat) (k : Completion X) :
    (loopOuter label).out k = k.leave label := by
  cases label with
  | none => rw [loopOuter, Scope.out_plain, k.leave_none]
  | some label => exact Scope.out_breaks label k

variable {code : List Code} {c m fuel c' l n : Nat} {Γ : List Scope} {s1 s' s : S}
    {body : List Instr} {bodies : List (List Instr)} {k : Completion X} {label : Option Nat}
    {raised : List Nat} {r : Res X}

/-- What a loop ends with inside its outer block, where even its exit is a branch. -/
theorem Resolves.exitLoop (h : Resolves w Γ (k.leave label) s r s' raised m) :
    ∃ r1, r1.leave = r ∧ (k = .normal → r1 = .br 0 ∧ s' = s ∧ raised = []) ∧
      (k ≠ .normal → Resolves w (loopOuter label :: Γ) k s r1 s' raised m) := by
  by_cases hk : k = .normal
  · subst hk
    cases h
    exact ⟨.br 0, rfl, fun _ => ⟨rfl, rfl, rfl⟩, fun h => absurd rfl h⟩
  · rw [← loopOuter_out] at h
    have hsimple : (loopOuter label).Simple := by cases label <;> rfl
    obtain ⟨r1, hres, hleave⟩ := h.enter hsimple
    exact ⟨r1, hleave, fun h => absurd h hk, fun _ => hres⟩

/-- The body of a labelled loop inside its outer block. -/
theorem fits_loop (iter : Option Nat) (h : Fits Γ (loopTargets (some l) ++ boundAll body)
      ((freeAll body).filter (· ∉ loopTargets (some l)))) :
    Fits (.breaks l iter :: Γ) ((l, .continue_) :: boundAll body)
      ((freeAll body).filter (· ≠ (l, .continue_))) := by
  have henclosed : Enclosed (.breaks l iter :: Γ) := h.enclosed
  apply h.push henclosed
  · intro j
    simp only [loopTargets, cons_append, nil_append, Scope.labels, Scope.targets,
      count_cons, count_nil]
    omega
  · intro j hj
    simp only [mem_filter, loopTargets, Scope.targets, mem_cons, not_mem_nil,
      or_false, decide_eq_true_eq] at hj ⊢
    by_cases hbreak : j = (l, .break_)
    · exact Or.inl hbreak
    · exact Or.inr ⟨hj.1, not_or.mpr ⟨hbreak, hj.2⟩⟩

section
variable
  (h : Fits Γ ((l, .continue_) :: boundAll body) ((freeAll body).filter (· ≠ (l, .continue_))))
include h

theorem Fits.continues :
    Fits (.continues l :: Γ) (boundAll body) (freeAll body) := by
  have henclosed : Enclosed (.continues l :: Γ) := h.enclosed
  apply h.push henclosed
  · intro j
    simp only [Scope.labels, Scope.targets, count_cons, count_nil]
    omega
  · intro j hj
    simp only [mem_filter, Scope.targets, mem_singleton, decide_eq_true_eq]
    by_cases hcont : j = (l, .continue_)
    · exact Or.inl hcont
    · exact Or.inr ⟨hj, hcont⟩

/-- A body without a jump to the loop's next round. -/
theorem Fits.noContinue (hfree : (l, .continue_) ∉ freeAll body) :
    Fits Γ (boundAll body) (freeAll body) := by
  apply h.mono
  · intro j
    rw [count_cons]
    omega
  · intro j hj
    rw [mem_filter, decide_eq_true_eq]
    exact ⟨hj, fun h => hfree (h ▸ hj)⟩

end

theorem fits_unlabelled
    (h : Fits Γ (loopTargets none ++ boundAll body) ((freeAll body).filter (· ∉ loopTargets none))) :
    Fits Γ (boundAll body) (freeAll body) := by
  simpa [loopTargets] using h

section
variable (ih : SimBelow w N) {fuel c c' n m : Nat} {Γ : List Scope} {body : List Instr}
  {label : Option Nat} {code : List Code} {k : Completion X} {s s1 s' : S} {r : Res X}
  {raised : List Nat} (hfits : Fits Γ (loopTargets label ++ boundAll body)
    ((freeAll body).filter (· ∉ loopTargets label)))
  (hslots : ∀ slot ∈ Γ.flatMap Scope.slots, slot < c)
  (hexit : k = .normal → r = .br 0 ∧ s' = s1 ∧ raised = []) (hn : n + m < N)
include ih hfits hslots hexit hn

/-- The rounds of a `while`, `do` or `for` loop, inside the outer block. -/
theorem performs_loopBody {kind : LoopKind} {cond update : List Nat} {condValue : Nat}
    (hemit : emitInstrs fuel
      (loopFrames kind label (needsContinueBlock kind label body) ++ Γ.map Scope.frame) body c =
        some (code, c'))
    (hres : k ≠ .normal → Resolves w (loopOuter label :: Γ) k s1 r s' raised m)
    (hrun : RunLoop w true (loopOps w kind cond condValue update) body label s k s1 n) :
    Performs w [.loop (emitLoop kind cond condValue update
      (if needsContinueBlock kind label body then [.block code] else code))] s r s' raised c := by
  -- `E ++ B ++ T`: what stands before and after the body.
  have hshape : ∃ E T, (∀ B, emitLoop kind cond condValue update B = E ++ (B ++ (T ++ [.br 0]))) ∧
      Tests w E (loopOps w kind cond condValue update).enter c ∧
      Tests w T (loopOps w kind cond condValue update).turn c ∧ (kind = .while_ → T = []) := by
    cases kind with
    | while_ =>
      exact ⟨emitTest cond condValue, [], fun B => by simp [emitLoop], tests_emitTest, tests_nil,
        fun _ => rfl⟩
    | doWhile =>
      exact ⟨[], emitTest cond condValue, fun B => by simp [emitLoop], tests_nil, tests_emitTest,
        nofun⟩
    | for_ =>
      exact ⟨emitTest cond condValue, update.map .effect, fun B => by simp [emitLoop],
        tests_emitTest, tests_update, nofun⟩
  obtain ⟨E, T, hloop, hE, hT, hwhile⟩ := hshape
  rw [hloop]
  cases label with
  | none =>
    have hneeds : needsContinueBlock kind none body = false := by cases kind <;> rfl
    rw [hneeds] at hemit ⊢
    have hlabel : ∀ l, none = some l → (l, .continue_) ∉ freeAll body := fun _ h => nomatch h
    exact performs_rounds ih hE hT hexit hres hn (Or.inl ⟨rfl, hlabel⟩) hemit
      (fits_unlabelled hfits).plain.plain hslots hrun
  | some l =>
    have hfits := fits_loop none hfits
    by_cases hkind : kind = .while_
    · subst hkind
      exact performs_rounds ih hE hT hexit hres hn
        (Or.inr ⟨l, rfl, rfl, hwhile rfl, fun _ => rfl⟩) hemit hfits.continues hslots hrun
    · have hneeds : needsContinueBlock kind (some l) body = bufferHasBrLabel l .continue_ body := by
        cases kind with
        | while_ => exact absurd rfl hkind
        | _ => rfl
      rw [hneeds] at hemit ⊢
      rw [loopFrames, if_neg hkind] at hemit
      by_cases hcont : bufferHasBrLabel l .continue_ body = true
      · rw [if_pos hcont] at hemit ⊢
        exact performs_rounds_block ih hE hT hexit hres hn hemit hfits.plain.continues hslots hrun
      · rw [if_neg hcont] at hemit ⊢
        have hfree : (l, .continue_) ∉ freeAll body :=
          fun h => hcont (bufferHasBrLabel_of_free body h)
        refine performs_rounds ih hE hT hexit hres hn (Or.inl ⟨rfl, ?_⟩) hemit
          (hfits.noContinue hfree).plain hslots hrun
        rintro l' h
        cases h
        exact hfree

theorem performs_forof {iter : Nat}
    (hemit : emitInstrs fuel (iterFrames iter label ++ Γ.map Scope.frame) body c =
        some (code, c'))
    (hrun : RunLoop w true (iterOps w iter) body label s k s1 n)
    (hres : k ≠ .normal → Resolves w (iterOuter iter label :: Γ) k s1 r s' raised m) :
    Performs w [.block [.loop (.iterNext iter 1 :: (code ++ [.br 0]))]] s r.leave s' raised c := by
  apply Performs.block
  have hturn : ∀ s, (iterOps w iter).turn s = (s, .ok true) := fun _ => rfl
  cases label with
  | none =>
    have henclosed : Enclosed (.iterates iter :: Γ) := hfits.enclosed
    have hfits : Fits (.iterates iter :: Γ) (boundAll body) (freeAll body) :=
      (fits_unlabelled hfits).push henclosed (fun _ => Nat.le_refl _) fun _ => Or.inr
    have hlabel : ∀ l, none = some l → (l, .continue_) ∉ freeAll body := fun _ h => nomatch h
    exact performs_rounds ih tests_iterNext tests_nil hexit hres hn (Or.inl ⟨rfl, hlabel⟩) hemit
      hfits.plain hslots hrun
  | some l =>
    exact performs_rounds ih tests_iterNext tests_nil hexit hres hn
      (Or.inr ⟨l, rfl, rfl, rfl, hturn⟩) hemit (fits_loop (some iter) hfits).continues hslots hrun

end

theorem count_boundBodies {b : List Instr} (hb : b ∈ bodies) (j : Nat × Mode) :
    (boundAll b).count j ≤ (boundBodies bodies).count j := by
  induction bodies with
  | nil => exact nomatch hb
  | cons b' bodies ih =>
    rw [boundBodies, count_append]
    rcases mem_cons.mp hb with rfl | hb
    · exact Nat.le_add_right _ _
    · exact Nat.le_trans (ih hb) (Nat.le_add_left _ _)

/-- Code inside a block that a break leaves. -/
theorem fits_breaks {label : Nat} {bound free : List (Nat × Mode)}
    (h : Fits Γ ((label, .break_) :: bound) (free.filter (· ≠ (label, .break_))))
    (hbound : ∀ j, (boundAll body).count j ≤ bound.count j) (hfree : ∀ j ∈ freeAll body, j ∈ free) :
    Fits (.breaks label none :: Γ) (boundAll body) (freeAll body) := by
  have henclosed : Enclosed (.breaks label none :: Γ) := h.enclosed
  apply h.push henclosed
  · intro j
    have hcount := hbound j
    simp only [Scope.labels, Scope.targets, count_cons, count_nil]
    omega
  · intro j hj
    simp only [mem_filter, Scope.targets, mem_singleton, decide_eq_true_eq]
    by_cases hj' : j = (label, .break_)
    · exact Or.inl hj'
    · exact Or.inr ⟨hfree j hj, hj'⟩

/-! ### Instructions -/

/-- A jump out of a `for-of` ends at the loop, whose close stands behind it, or goes further out
and closes the iterator itself. -/
theorem Resolves.leaveIter {iter : Nat} {mode : Mode} {cr : Crossed}
    (h : Resolves w Γ ((Completion.br l mode cr : Completion X).leave label).cleaned
      (w.iterReturn iter s) r s' raised m) :
    r = .normal ∧ s' = w.iterReturn iter s ∧ raised = [] ∧
        Resolves w (iterOuter iter label :: Γ) (.br l mode cr) s (.br 0) s [] 0 ∨
      r ≠ .normal ∧ Resolves w (iterOuter iter label :: Γ) (.br l mode cr) s r.up s' raised m := by
  have hcrossed : (iterOuter iter label).crossed = ⟨false, true⟩ := by cases label <;> rfl
  have hclosed : (iterOuter iter label).close w s = w.iterReturn iter s := by cases label <;> rfl
  have hslots : (iterOuter iter label).slots = [] := by cases label <;> rfl
  have htargets : (l, mode) ∈ (iterOuter iter label).targets ↔
      (Completion.br l mode cr : Completion X).leave label = .normal := by
    cases label <;> cases mode <;> simp [iterOuter, Scope.targets, Completion.leave]
  by_cases hmem : (l, mode) ∈ (iterOuter iter label).targets
  · rw [htargets.mp hmem] at h
    cases h
    exact Or.inl ⟨rfl, rfl, rfl, .found hmem⟩
  · have hleave : (Completion.br l mode cr : Completion X).leave label = .br l mode cr := by
      have hne := mt htargets.mpr hmem
      cases mode with
      | continue_ => rfl
      | break_ =>
        rw [Completion.leave] at hne ⊢
        split
        · rw [if_pos ‹_›] at hne
          exact absurd rfl hne
        · rfl
    rw [hleave] at h
    refine Or.inr ⟨h.ne_normal (by rintro ⟨⟩), .skip hmem hslots ?_⟩
    rw [hclosed, hcrossed]
    simpa [Crossed.union, Completion.cleaned] using h

section
variable {then_ els : List Instr} (ih : SimBelow w N)
  (hslots : ∀ slot ∈ Γ.flatMap Scope.slots, slot < c)
  (hres : Resolves w Γ k s1 r s' raised m) (hn : n + m ≤ N)
include ih hslots hres hn

theorem performs_ifStmt {cond : Nat}
    (hemit : emitInstr (emitInstrs fuel) (Γ.map Scope.frame) c (.ifStmt cond then_ els) =
      some (code, c'))
    (hfits : Fits Γ (boundAll then_ ++ boundAll els) (freeAll then_ ++ freeAll els))
    (hrun : RunI w true (.ifStmt cond then_ els) s k s1 n) : Performs w code s r s' raised c := by
  obtain ⟨⟨thenBody, c1⟩, hthen, h⟩ := Option.bind_eq_some_iff.mp hemit
  obtain ⟨⟨elseBody, c2⟩, helse, h⟩ := Option.map_eq_some_iff.mp h
  cases h
  have hle : c ≤ c1 := emitInstrs_grows fuel hthen
  have hplain : Resolves w (.plain :: Γ) k s1 r.up s' raised m :=
    hres.past rfl fun _ _ _ _ => by rintro ⟨⟩
  rw [← r.leave_up]
  apply Performs.if_
  cases hrun with
  | ifStmt hrun =>
    by_cases hc : w.test cond s = true
    · rw [if_pos hc] at hrun ⊢
      have hfits : Fits Γ (boundAll then_) (freeAll then_) :=
        hfits.mono (fun j => by simp [count_append]) fun j => mem_append_left _
      exact ih hthen hfits.plain hslots hrun hplain (by omega)
    · rw [if_neg hc] at hrun ⊢
      have hfits : Fits Γ (boundAll els) (freeAll els) :=
        hfits.mono (fun j => by simp [count_append]) fun j => mem_append_right _
      exact Performs.mono (ih helse hfits.plain
        (fun slot h => Nat.lt_of_lt_of_le (hslots slot h) hle) hrun hplain (by omega)) hle

theorem performs_forofIter {iter : Nat}
    (hemit : emitInstr (emitInstrs fuel) (Γ.map Scope.frame) c (.forofIter iter body label) =
      some (code, c'))
    (hfits : Fits Γ (loopTargets label ++ boundAll body)
      ((freeAll body).filter (· ∉ loopTargets label)))
    (hrun : RunI w true (.forofIter iter body label) s k s1 n) :
    Performs w code s r s' raised c := by
  obtain ⟨⟨code, c1⟩, hbody, h⟩ := Option.map_eq_some_iff.mp hemit
  cases h
  have hopen : Performs w [.iterOpen iter] s .normal (w.iterOpen iter s) [] c := by
    apply Performs.single
    rintro run labels t rfl
    rfl
  have hclose (s : S) : Performs w [.iterReturn iter] s .normal (w.iterReturn iter s) [] c := by
    apply Performs.single
    rintro run labels t rfl
    rfl
  cases hrun with
  | forofDone hrun hsame =>
    cases hres
    have h := performs_forof ih hfits hslots (fun _ => ⟨rfl, rfl, rfl⟩) (by omega : _ + 0 < N)
      hbody hrun fun h => absurd rfl h
    have hclose := hclose s1
    rw [hsame rfl] at hclose
    exact hopen.append (h.append hclose)
  | forofThrow hrun hsame =>
    cases hres
    rw [hsame rfl]
    have h := performs_forof ih hfits hslots (by rintro ⟨⟩) (by omega) hbody hrun fun _ => .throw_
    exact hopen.append (h.stop (by rintro ⟨⟩))
  | @forofJump _ _ _ _ l mode cr s2 _ hrun =>
    rcases hres.leaveIter with ⟨rfl, rfl, rfl, hfound⟩ | ⟨hne, hskip⟩
    · have h := performs_forof ih hfits hslots (by rintro ⟨⟩) (by omega) hbody hrun fun _ => hfound
      exact hopen.append (h.append (hclose s2))
    · have h := performs_forof ih hfits hslots (by rintro ⟨⟩) (by omega) hbody hrun fun _ => hskip
      rw [Res.leave_up] at h
      exact hopen.append (h.stop hne)

theorem performs_switch {disc breakLabel : Nat}
    (hemit : emitInstr (emitInstrs fuel) (Γ.map Scope.frame) c (.switch disc tests bodies
      breakLabel) = some (code, c'))
    (hfits : Fits Γ ((breakLabel, .break_) :: boundBodies bodies)
      ((freeBodies bodies).filter (· ≠ (breakLabel, .break_))))
    (hrun : RunI w true (.switch disc tests bodies breakLabel) s k s1 n) :
    Performs w code s r s' raised c := by
  have hdisc : Performs w [.evalDisc disc] s .normal (w.disc disc s) [] c := by
    apply Performs.single
    rintro run labels t rfl
    rfl
  rw [emitInstr] at hemit
  cases hrun with
  | switch hrun =>
    by_cases hnil : bodies = []
    · rw [if_pos hnil] at hemit
      cases hemit
      subst hnil
      rw [drop_nil] at hrun
      cases hrun
      cases hres
      exact hdisc
    · rw [if_neg hnil] at hemit
      obtain ⟨⟨cur, c1⟩, hbodies, h⟩ := Option.map_eq_some_iff.mp hemit
      cases h
      have hfits : ∀ b ∈ bodies, Fits (.breaks breakLabel none :: Γ) (boundAll b) (freeAll b) :=
        fun b hb => fits_breaks hfits (count_boundBodies hb) fun j hj => mem_freeBodies hb hj
      rw [← Scope.out_breaks] at hres
      have hsimple : (Scope.breaks breakLabel none).Simple := rfl
      obtain ⟨r1, hinside, rfl⟩ := hres.enter hsimple
      obtain ⟨r2, hleave, hladder⟩ := performs_ladder ih hslots .refl hbodies hfits
        (Or.inr ⟨find?_range_le (find?_range_le (Nat.le_refl _)), performs_dispatch _⟩) hrun hinside
          (by omega)
      rw [← hleave]
      exact hdisc.append hladder.block

end

/-- **One instruction.** -/
theorem performs_instr (ih : SimBelow w N) {i : Instr}
    (hemit : emitInstr (emitInstrs fuel) (Γ.map Scope.frame) c i = some (code, c'))
    (hfits : Fits Γ i.bound i.free) (hslots : ∀ slot ∈ Γ.flatMap Scope.slots, slot < c)
    (hrun : RunI w true i s k s1 n) (hres : Resolves w Γ k s1 r s' raised m) (hn : n + m ≤ N) :
    Performs w code s r s' raised c := by
  cases i with
  | effect e =>
    cases hemit
    cases hrun with
    | effect h =>
      cases hres
      exact performs_effect h
    | effectThrow h =>
      cases hres
      exact performs_effect_throw h
  | throw_ value =>
    cases hemit
    cases hrun
    cases hres
    apply Performs.single
    rintro run labels t rfl
    rfl
  | brLabel label mode =>
    cases hrun
    have hlabels (j : Nat × Mode) : (([] ++ Γ).flatMap Scope.labels).count j ≤ 1 :=
      Nat.le_trans (Nat.le_add_left _ _) (hfits.once j)
    have hemit : resolveBrLabel (emitInstrs fuel) label mode (([] : List Scope).map Scope.frame)
        (Γ.map Scope.frame) c = some (code, c') := hemit
    have h := performs_resolve ih hemit hlabels hfits.enclosed hslots
      (fun _ h => by cases h) hres (by omega)
    rwa [length_nil, Res.upBy_zero] at h
  | ifStmt cond then_ els => exact performs_ifStmt ih hslots hres hn hemit hfits hrun
  | labeledBlock label body =>
    obtain ⟨⟨code, c1⟩, hbody, h⟩ := Option.map_eq_some_iff.mp hemit
    cases h
    cases hrun with
    | labeledBlock hrun =>
      rw [← Scope.out_breaks] at hres
      have hsimple : (Scope.breaks label none).Simple := rfl
      obtain ⟨r1, hinside, rfl⟩ := hres.enter hsimple
      exact Performs.block (ih hbody (fits_breaks hfits (fun _ => .refl) fun _ => id) hslots hrun
        hinside (by omega))
  | loop kind cond condValue body update loopLabel =>
    obtain ⟨⟨code, c1⟩, hbody, h⟩ := Option.map_eq_some_iff.mp hemit
    cases h
    cases hrun with
    | loop hrun =>
      obtain ⟨r1, rfl, hexit, hinside⟩ := hres.exitLoop
      exact (performs_loopBody ih hfits hslots hexit (by omega) hbody hinside hrun).block
  | forofIter iter body loopLabel => exact performs_forofIter ih hslots hres hn hemit hfits hrun
  | switch disc tests bodies breakLabel => exact performs_switch ih hslots hres hn hemit hfits hrun
  | try_ body catchBody payloadSlot finallyBody =>
    cases finallyBody with
    | none =>
      have hfits : Fits Γ (boundAll body ++ boundOption catchBody)
          (freeAll body ++ freeOption catchBody) := by
        simpa [Instr.bound, Instr.free, boundOption, freeOption] using hfits
      exact performs_tryCatch ih hemit hfits hslots hrun hres hn
    | some f => exact performs_tryFinally ih hemit hfits hslots hrun hres hn

end

end Js2Wasm.Control
