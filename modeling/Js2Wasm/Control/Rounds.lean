import Js2Wasm.Control.Jump

/-! # The emitted code of loops and switches

The rounds of a loop, and the ladder of a switch.
-/
namespace Js2Wasm.Control
open List

section
variable {S X : Type} {w : World S X} {N : Nat}

/-! ### Loops -/

section
variable (ih : SimBelow w N) {ops : LoopOps S X} {body : List Instr} {E code T : List Code}
  {fuel c c' n m : Nat} {Γ : List Scope} {outer : Scope} (hE : Tests w E ops.enter c)
  (hT : Tests w T ops.turn c) {k : Completion X} {s s1 s' : S} {r : Res X} {raised : List Nat}
  (hexit : k = .normal → r = .br 0 ∧ s' = s1 ∧ raised = [])
  (hres : k ≠ .normal → Resolves w (outer :: Γ) k s1 r s' raised m) (hn : n + m < N)

include hE hT hexit in
/-- The rounds of a loop, for a body code `B` known to do its part: a continued round falls
through, or jumps to the loop where nothing is left to do; a leaving round ends with the
result of the loop. -/
theorem performs_loop {label : Option Nat} {B : List Code} {N0 : Nat}
    (hcont : ∀ s k s1 n, Run w true body s k s1 n → n < N0 → k.continues label = true →
      Performs w B s .normal s1 [] c ∨
        (Performs w B s (.br 0) s1 [] c ∧ T = [] ∧ ∀ s, ops.turn s = (s, .ok true)))
    (hthrow : ∀ x, k = .throw_ x → r = .throw_ x ∧ s' = s1 ∧ raised = [])
    (hleave : ∀ s n, Run w true body s k s1 n → n < N0 → k.continues label = false →
      Performs w B s r.up s' raised c)
    (hr : r ≠ .normal) (hn : n ≤ N0)
    (hrun : RunLoop w true ops body label s k s1 n) :
    Performs w [.loop (E ++ (B ++ (T ++ [.br 0])))] s r s' raised c := by
  induction n using Nat.strongRecOn generalizing s with
  | ind n ih =>
    cases hrun with
    | fails henter =>
      obtain ⟨rfl, rfl, rfl⟩ := hthrow _ rfl
      exact ((hE.fails henter).stop nofun).loopLeave nofun
    | exits henter =>
      obtain ⟨rfl, rfl, rfl⟩ := hexit rfl
      exact ((hE.exits henter).stop nofun).loopLeave nofun
    | leaves henter hbody hk =>
      have hB := hleave _ _ hbody (by omega) hk
      have h : Performs w (E ++ (B ++ (T ++ [.br 0]))) s r.up s' raised c :=
        (hE.goesOn henter).append (hB.stop (by simpa using hr))
      rw [← r.leave_up]
      exact h.loopLeave Res.up_ne_br_zero
    | turnFails henter hbody hk hturn =>
      obtain ⟨rfl, rfl, rfl⟩ := hthrow _ rfl
      rcases hcont _ _ _ _ hbody (by omega) hk with hB | ⟨-, -, hid⟩
      · exact ((hE.goesOn henter).append
          (hB.append ((hT.fails hturn).stop nofun))).loopLeave nofun
      · rw [hid] at hturn
        exact nomatch hturn
    | turnExits henter hbody hk hturn =>
      obtain ⟨rfl, rfl, rfl⟩ := hexit rfl
      rcases hcont _ _ _ _ hbody (by omega) hk with hB | ⟨-, -, hid⟩
      · exact ((hE.goesOn henter).append
          (hB.append ((hT.exits hturn).stop nofun))).loopLeave nofun
      · rw [hid] at hturn
        exact nomatch hturn
    | again henter hbody hk hturn hrest =>
      have hrest := ih _ (by omega) (by omega) hrest
      rcases hcont _ _ _ _ hbody (by omega) hk with hB | ⟨hB, rfl, hid⟩
      · have hround := hB.append ((hT.goesOn hturn).append (Performs.br (d := 0)))
        exact ((hE.goesOn henter).append hround).loopAgain hrest
      · rw [hid] at hturn
        cases hturn
        exact ((hE.goesOn henter).append (hB.stop nofun)).loopAgain hrest

include ih hE hT hexit hres hn

/-- The rounds of a loop without a continue block. -/
theorem performs_rounds {σ : Scope} {label : Option Nat}
    (hσ : (σ = .plain ∧ ∀ l, label = some l → (l, .continue_) ∉ freeAll body) ∨
      ∃ l, label = some l ∧ σ = .continues l ∧ T = [] ∧ ∀ s, ops.turn s = (s, .ok true))
    (hemit : emitInstrs fuel ((σ :: outer :: Γ).map Scope.frame) body c = some (code, c'))
    (hfits : Fits (σ :: outer :: Γ) (boundAll body) (freeAll body))
    (hslots : ∀ slot ∈ (σ :: outer :: Γ).flatMap Scope.slots, slot < c)
    (hrun : RunLoop w true ops body label s k s1 n) :
    Performs w [.loop (E ++ (code ++ (T ++ [.br 0])))] s r s' raised c := by
  have hr : r ≠ .normal := by
    by_cases hk : k = .normal
    · rw [(hexit hk).1]
      rintro ⟨⟩
    · exact (hres hk).ne_normal hk
  refine performs_loop hE hT hexit ?_ ?_ ?_ hr .refl hrun
  · -- A continued round.
    intro s k s1 n1 hbody hn1 hk
    cases k with
    | normal => exact Or.inl (ih hemit hfits hslots hbody .normal (by omega))
    | throw_ x => cases hk
    | br l m cr =>
      cases m with
      | break_ => cases hk
      | continue_ =>
        have hl : some l = label := by simpa [Completion.continues] using hk
        rcases hσ with ⟨-, hfree⟩ | ⟨l', rfl, rfl, rfl, hid⟩
        · exact absurd (hbody.mem_free rfl) (hfree l hl.symm)
        · cases hl
          have hfound : Resolves w (.continues l :: outer :: Γ) (.br l .continue_ cr) s1 (.br 0)
              s1 [] 0 := .found mem_cons_self
          exact Or.inr ⟨ih hemit hfits hslots hbody hfound (by omega), rfl, hid⟩
  · rintro x rfl
    cases hres (by rintro ⟨⟩)
    exact ⟨rfl, rfl, rfl⟩
  · -- A leaving round.
    intro s n1 hbody hn1 hk
    have hne : k ≠ .normal := by
      rintro rfl
      cases hk
    have hpast : Resolves w (σ :: outer :: Γ) k s1 r.up s' raised m := by
      rcases hσ with ⟨rfl, -⟩ | ⟨l', rfl, rfl, -, -⟩
      · exact (hres hne).past rfl fun _ _ _ _ => by rintro ⟨⟩
      · refine (hres hne).past rfl ?_
        rintro l m cr rfl hmem
        cases mem_singleton.mp hmem
        simp [Completion.continues] at hk
    exact ih hemit hfits hslots hbody hpast (by omega)

/-- The rounds of a loop with a continue block. -/
theorem performs_rounds_block {l : Nat}
    (hemit : emitInstrs fuel ((.continues l :: .plain :: outer :: Γ).map Scope.frame) body c =
      some (code, c'))
    (hfits : Fits (.continues l :: .plain :: outer :: Γ) (boundAll body) (freeAll body))
    (hslots : ∀ slot ∈ (.continues l :: .plain :: outer :: Γ).flatMap Scope.slots, slot < c)
    (hrun : RunLoop w true ops body (some l) s k s1 n) :
    Performs w [.loop (E ++ ([.block code] ++ (T ++ [.br 0])))] s r s' raised c := by
  have hr : r ≠ .normal := by
    by_cases hk : k = .normal
    · rw [(hexit hk).1]
      rintro ⟨⟩
    · exact (hres hk).ne_normal hk
  refine performs_loop hE hT hexit ?_ ?_ ?_ hr .refl hrun
  · intro s k s1 n1 hbody hn1 hk
    left
    cases k with
    | normal => exact (ih hemit hfits hslots hbody .normal (by omega)).block
    | throw_ x => cases hk
    | br l' m cr =>
      cases m with
      | break_ => cases hk
      | continue_ =>
        obtain rfl : l' = l := by simpa [Completion.continues] using hk
        have hfound : Resolves w (.continues l' :: .plain :: outer :: Γ)
            (.br l' .continue_ cr) s1 (.br 0) s1 [] 0 := .found mem_cons_self
        exact (ih hemit hfits hslots hbody hfound (by omega)).block
  · rintro x rfl
    cases hres (by rintro ⟨⟩)
    exact ⟨rfl, rfl, rfl⟩
  · intro s n1 hbody hn1 hk
    have hne : k ≠ .normal := by
      rintro rfl
      cases hk
    have hplain : Resolves w (.plain :: outer :: Γ) k s1 r.up s' raised m :=
      (hres hne).past rfl fun _ _ _ _ => by rintro ⟨⟩
    have hpast : Resolves w (.continues l :: .plain :: outer :: Γ) k s1 r.up.up s' raised m := by
      refine hplain.past rfl ?_
      rintro l' m cr rfl hmem
      cases mem_singleton.mp hmem
      simp [Completion.continues] at hk
    have h := (ih hemit hfits hslots hbody hpast (by omega)).block
    rwa [Res.leave_up] at h

end

/-! ### Switch -/

/-- Through the blocks of the clauses that are still open. -/
theorem Resolves.pastPlain {Γ : List Scope} {k : Completion X} {s s' : S} {r : Res X}
    {raised : List Nat} {n : Nat} (h : Resolves w Γ k s r s' raised n) (m : Nat) :
    Resolves w (replicate m .plain ++ Γ) k s (r.upBy m) s' raised n := by
  induction m with
  | zero => simpa using h
  | succ m ih =>
    rw [replicate_succ, cons_append, ← Res.upBy_up]
    exact ih.past rfl fun _ _ _ _ => nofun

theorem Fits.plains {Γ : List Scope} {bound free : List (Nat × Mode)} (h : Fits Γ bound free)
    (m : Nat) : Fits (replicate m .plain ++ Γ) bound free := by
  induction m with
  | zero => exact h
  | succ m ih => exact ih.plain

theorem slots_plains {Γ : List Scope} (m : Nat) :
    (replicate m Scope.plain ++ Γ).flatMap Scope.slots = Γ.flatMap Scope.slots := by
  induction m with
  | zero => rfl
  | succ m ih => exact ih

theorem find?_range_le {p : Nat → Bool} {d n : Nat} (hd : d ≤ n) :
    ((range n).find? p).getD d ≤ n := by
  cases hfind : (range n).find? p with
  | none => exact hd
  | some k => exact Nat.le_of_lt (mem_range.mp (mem_of_find?_eq_some hfind))

/-- The comparisons select the first clause whose test the discriminant equals. -/
theorem performs_dispatch {disc : Nat} {tests : Nat → Option Nat} {d c : Nat} {s : S}
    (clauses : List Nat) :
    Performs w (emitDispatch disc tests d clauses) s (.br ((clauses.find? fun k =>
      (tests k).any (w.equals disc · s)).getD d)) s [] c := by
  induction clauses with
  | nil => exact Performs.br
  | cons k clauses ih =>
    cases htest : tests k with
    | none => simpa [emitDispatch, htest] using ih
    | some test =>
      have hcompare : Performs w [.brIfEq disc test k] s
          (if w.equals disc test s then .br k else .normal) s [] c := by
        apply Performs.single
        rintro run labels t rfl
        rfl
      cases hequals : w.equals disc test s with
      | true =>
        rw [hequals] at hcompare
        simpa [emitDispatch, htest, hequals] using hcompare.stop (by rintro ⟨⟩)
      | false =>
        rw [hequals] at hcompare
        simpa [emitDispatch, htest, hequals] using hcompare.append ih

/-- The ladder when an earlier clause has left the switch. -/
theorem performs_ladder_stop {emit : Emit} {ctrlStack : List CtrlFrame} {l : Nat} {s s' : S}
    {r : Res X} (hr : r ≠ .normal) {raised : List Nat} {c0 : Nat} {bodies : List (List Instr)}
    {cur code : List Code} {c c' : Nat}
    (hemit : emitBodies emit ctrlStack l bodies cur c = some (code, c'))
    (hcur : Performs w cur s (r.upBy bodies.length) s' raised c0) :
    Performs w code s r s' raised c0 := by
  induction bodies generalizing cur c with
  | nil =>
    cases hemit
    rwa [length_nil, Res.upBy_zero] at hcur
  | cons body rest ih =>
    obtain ⟨⟨code1, c1⟩, h1, h⟩ := Option.bind_eq_some_iff.mp hemit
    apply ih h
    have hblock := hcur.block
    rw [length_cons, ← Res.upBy_up, Res.leave_up] at hblock
    have hne : r.upBy rest.length ≠ .normal := by simpa using hr
    exact hblock.stop hne

/-- **The ladder of a switch.**  The code below has fallen through, or is on the way to one of
the clauses. -/
theorem performs_ladder (ih : SimBelow w N) {fuel l : Nat} {Γ : List Scope} {c0 : Nat}
    {bodies : List (List Instr)} (hslots : ∀ slot ∈ Γ.flatMap Scope.slots, slot < c0)
    {cur code : List Code} {c c' : Nat} (hc : c0 ≤ c)
    (hemit : emitBodies (emitInstrs fuel) (Γ.map Scope.frame) l bodies cur c = some (code, c'))
    (hfits : ∀ b ∈ bodies, Fits (.breaks l none :: Γ) (boundAll b) (freeAll b))
    {j : Nat} {s s0 s1 s' : S} {r : Res X} {raised : List Nat} {k : Completion X} {n m : Nat}
    (hcur : (j = 0 ∧ Performs w cur s .normal s0 [] c0) ∨
      (j ≤ bodies.length ∧ Performs w cur s (.br j) s0 [] c0))
    (hrun : RunBodies w true (bodies.drop j) s0 k s1 n)
    (hres : Resolves w (.breaks l none :: Γ) k s1 r s' raised m) (hn : n + m < N) :
    ∃ r', r'.leave = r.leave ∧ Performs w code s r' s' raised c0 := by
  induction bodies generalizing cur c j s0 n with
  | nil =>
    cases hemit
    rw [drop_nil] at hrun
    cases hrun
    cases hres
    rcases hcur with ⟨-, hcur⟩ | ⟨hj, hcur⟩
    · exact ⟨.normal, rfl, hcur⟩
    · obtain rfl : j = 0 := Nat.le_zero.mp hj
      exact ⟨.br 0, rfl, hcur⟩
  | cons body rest ihb =>
    obtain ⟨⟨code1, c1⟩, h1, h⟩ := Option.bind_eq_some_iff.mp hemit
    have hle := emitInstrs_grows fuel h1
    have hrest : ∀ b ∈ rest, Fits (.breaks l none :: Γ) (boundAll b) (freeAll b) :=
      fun b hb => hfits b (mem_cons_of_mem _ hb)
    cases j with
    | succ j =>
      -- Past the code of this clause.
      rcases hcur with ⟨hj, -⟩ | ⟨hj, hcur⟩
      · exact nomatch hj
      · exact ihb (Nat.le_trans hc hle) h hrest
          (Or.inr ⟨Nat.le_of_succ_le_succ hj, hcur.block.stop nofun⟩) hrun hn
    | zero =>
      have hblock : Performs w [.block cur] s .normal s0 [] c0 := by
        rcases hcur with ⟨-, hcur⟩ | ⟨-, hcur⟩
        all_goals exact hcur.block
      have hemit1 : emitInstrs fuel
          ((replicate rest.length Scope.plain ++ .breaks l none :: Γ).map Scope.frame) body c =
          some (code1, c1) := by simpa [Scope.frame] using h1
      have hfits1 := (hfits body mem_cons_self).plains rest.length
      have hslots1 : ∀ slot ∈ (replicate rest.length Scope.plain ++
          .breaks l none :: Γ).flatMap Scope.slots, slot < c := by
        rw [slots_plains]
        exact fun slot h => Nat.lt_of_lt_of_le (hslots slot h) hc
      cases hrun with
      | cons hbody hbodies =>
        have hcode : Performs w code1 s0 .normal _ [] c :=
          ih hemit1 hfits1 hslots1 hbody .normal (by omega)
        exact ihb (Nat.le_trans hc hle) h hrest
          (Or.inl ⟨rfl, hblock.append (hcode.mono hc)⟩) hbodies (by omega)
      | stop hbody hk =>
        have hr := hres.ne_normal hk
        have hcode := ih hemit1 hfits1 hslots1 hbody (hres.pastPlain rest.length) (by omega)
        exact ⟨r, rfl, performs_ladder_stop hr h (hblock.append (hcode.mono hc))⟩

end

end Js2Wasm.Control
