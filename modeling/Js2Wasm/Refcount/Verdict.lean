import Js2Wasm.Refcount.VerifierSound

/-! # The verifier's verdict

An empty list of findings says that the account stayed clean and that every path ends
with the counts its exit asks for.  Together with `exec_sim` that makes every execution
balanced, except for what a `throw` hands over: an owned result is checked for its one
reference at a `return`, but the value of a `throw` is not.
-/
namespace Js2Wasm.Refcount.Verify
open Counts

/-! ### The checks at the exits -/

section
variable {func : HandleFunction} {p : Path} {acc : Acc}

theorem clean_checkLeak {e : HandleId × Int} (hc : (checkLeak func p acc e).Clean) :
    acc.Clean ∧ (e.2 ≤ 0 ∨ transferred func.result p.outcome = some e.1 ∧ e.2 = 1) := by
  rw [checkLeak] at hc
  split at hc
  · next hle => exact ⟨hc, Or.inl hle⟩
  · split at hc
    · next hone => exact ⟨hc, Or.inr hone⟩
    · exact absurd hc not_clean_report

theorem clean_checkResult (hc : (checkResult func p acc).Clean) :
    acc.Clean ∧ ∀ h, p.outcome = .return_ (some h) → func.result = .owned → p.state.get h = 1 := by
  rw [checkResult] at hc
  split at hc
  · next h hout =>
    split at hc
    · exact absurd hc not_clean_report
    · next hone =>
      refine ⟨hc, fun h' hout' hown => ?_⟩
      obtain rfl : h = h' := by simpa [hout] using hout'
      by_contra hne
      exact hone ⟨hown, hne⟩
  · next hout => exact ⟨hc, fun h hret => absurd hret (hout h)⟩

variable {β : Type} {check : Acc → β → Acc}

/-- A fold of checks that ends clean was clean throughout, and each check has passed. -/
theorem clean_foldl {P : β → Prop} (hcheck : ∀ acc b, (check acc b).Clean → acc.Clean ∧ P b)
    {l : List β} {acc : Acc} (hc : (l.foldl check acc).Clean) : acc.Clean ∧ ∀ b ∈ l, P b := by
  induction l generalizing acc with
  | nil => exact ⟨hc, nofun⟩
  | cons b l ih =>
    obtain ⟨hb, hl⟩ := ih hc
    obtain ⟨hacc, hP⟩ := hcheck acc b hb
    exact ⟨hacc, List.forall_mem_cons.mpr ⟨hP, hl⟩⟩

/-- What the checks leave to a path. -/
structure ExitChecked (func : HandleFunction) (p : Path) : Prop where
  leaves : ∀ h, p.state.get h ≤ 0 ∨
    transferred func.result p.outcome = some h ∧ p.state.get h = 1
  hands : ∀ h, p.outcome = .return_ (some h) → func.result = .owned → p.state.get h = 1

theorem clean_checkPath (hc : (checkPath func acc p).Clean) : acc.Clean ∧ ExitChecked func p := by
  obtain ⟨hres, hleak⟩ := clean_foldl (P := fun e : HandleId × Int =>
    e.2 ≤ 0 ∨ transferred func.result p.outcome = some e.1 ∧ e.2 = 1)
    (fun _ _ => clean_checkLeak) hc
  obtain ⟨hacc, hhands⟩ := clean_checkResult hres
  refine ⟨hacc, fun h => ?_, hhands⟩
  by_cases hle : p.state.get h ≤ 0
  · exact Or.inl hle
  · -- a positive count is an entry of the map
    cases hl : p.state.counts.lookup h with
    | none =>
      rw [VState.get, hl] at hle
      exact absurd le_rfl hle
    | some n =>
      have hget : p.state.get h = n := by rw [VState.get, hl]; rfl
      rw [hget]
      exact hleak (h, n) (HandleMap.lookup_eq_some_iff.mp hl)

theorem report_findings_ne (acc : Acc) (f : Finding) : (acc.report f).findings ≠ [] := by
  rw [Acc.report]
  split
  · next hmem => exact List.ne_nil_of_mem hmem
  · exact List.append_ne_nil_of_right_ne_nil _ (List.cons_ne_nil _ _)

theorem report_missing (acc : Acc) (f : Finding) : (acc.report f).missing = acc.missing := by
  rw [Acc.report]
  split <;> rfl

/-- The checks at the exits look up no callee. -/
theorem foldl_missing (hcheck : ∀ acc b, (check acc b).missing = acc.missing) (l : List β)
    (acc : Acc) : (l.foldl check acc).missing = acc.missing := by
  induction l generalizing acc with
  | nil => rfl
  | cons b l ih => exact (ih _).trans (hcheck acc b)

theorem checkPath_missing (acc : Acc) (p : Path) :
    (checkPath func acc p).missing = acc.missing := by
  refine (foldl_missing (fun acc e => ?_) _ _).trans ?_
  · rw [checkLeak]
    split
    · rfl
    · split
      · rfl
      · exact report_missing _ _
  · rw [checkResult]
    split
    · split
      · exact report_missing _ _
      · rfl
    · rfl

/-- **No findings**: the account is clean, and every path has passed the checks at its exit. -/
theorem clean_of_verified {ownership : OwnershipTable} {options : VerifyOptions}
    (hv : verifyRefcountBalance func ownership options = some []) :
    (exec options.maxPaths ownership options.maxLoopIterations func.body (entryState func.params)
      Acc.initial).2.Clean ∧
    ∀ p ∈ (exec options.maxPaths ownership options.maxLoopIterations func.body
      (entryState func.params) Acc.initial).1, ExitChecked func p := by
  rw [verifyRefcountBalance] at hv
  generalize exec options.maxPaths ownership options.maxLoopIterations func.body
    (entryState func.params) Acc.initial = r at hv ⊢
  obtain ⟨paths, acc⟩ := r
  simp only at hv
  have hmissing : acc.missing = false := by
    by_contra hm
    rw [if_pos (by simpa using hm)] at hv
    cases hv
  rw [if_neg (by rw [hmissing]; exact fun h => by cases h)] at hv
  have hfindings := Option.some.inj hv
  refine clean_foldl (P := ExitChecked func) (fun _ _ => clean_checkPath) ?_
  split at hfindings
  · exact absurd hfindings (report_findings_ne _ _)
  · next hbudget =>
    exact ⟨hfindings, by simpa using hbudget,
      (foldl_missing checkPath_missing paths acc).trans hmissing⟩

end

/-! ### The entry -/

/-- The path starts in the frame the function starts in. -/
theorem entry_sim (params : List HandleParam) (L : HandleId → Bool) :
    Sim (entryFrame params) (entryState params) L := by
  rw [entryFrame, entryState]
  generalize hf : (⟨fun _ => 0, fun _ => false⟩ : Counts.Frame) = f
  generalize hst : (⟨.empty, .empty⟩ : VState) = st
  have hs : Sim f st L := by
    rw [← hf, ← hst]
    exact ⟨fun _ => rfl, fun _ => le_rfl, fun _ _ hacq => nomatch hacq⟩
  clear hf hst
  induction params generalizing f st with
  | nil => exact hs
  | cons p params ih =>
    refine ih _ _ ⟨fun x => ?_, fun x => ?_, fun x hl hacq => ?_⟩
    · show Function.update f.refs p.id _ x = _
      rw [Function.update_apply, get_setCount, hs.refs]
      rfl
    · rw [get_setCount]
      split
      · split <;> decide
      · exact hs.nonneg x
    · rw [owned_setCount, owned_setOrigin]
      have hacq : Function.update f.acquired p.id (decide (p.ownership = .owned)) x = true := hacq
      rw [Function.update_apply] at hacq
      split at hacq
      · next hx =>
        rw [if_pos hx, if_pos (of_decide_eq_true hacq)]
        rfl
      · next hx =>
        rw [if_neg hx]
        exact hs.owned x hl hacq

/-! ### Soundness -/

theorem transferred_exitOf (result : ResultOwnership) (out : Outcome) :
    (exitOf out).transferred result = transferred result out := by
  cases out <;> rfl

/-- A frame that follows a checked path is settled. -/
theorem ExitChecked.settled {func : HandleFunction} {p : Path} {f : Counts.Frame}
    {L : HandleId → Bool} (hp : ExitChecked func p) (hs : Sim f p.state L)
    (hthrown : ∀ v, p.outcome = .unwind (some v) → 0 < f.refs v) :
    Settled func.result (exitOf p.outcome) f := by
  intro h
  rw [transferred_exitOf, hs.refs]
  have hnonneg := hs.nonneg h
  split
  · next ht =>
    rcases hp.leaves h with hle | ⟨-, hone⟩
    · -- handed over, and yet no reference: the return was checked, the throw is held
      cases hout : p.outcome with
      | return_ value =>
        rw [hout, transferred] at ht
        split at ht
        · next hown =>
          rw [ht] at hout
          exact hp.hands h hout hown
        · exact nomatch ht
      | unwind value =>
        rw [hout] at ht
        obtain rfl : value = some h := ht
        have hpos := hthrown h hout
        rw [hs.refs] at hpos
        omega
      | _ =>
        rw [hout] at ht
        exact nomatch ht
    · exact hone
  · next ht =>
    rcases hp.leaves h with hle | ⟨hc, -⟩
    · omega
    · exact absurd hc ht

/-- **Soundness**, as far as it goes.  Where the verifier reports nothing, an execution
that never hands over a handle without a reference is balanced, provided that handlers are
straight-line and no loop exposes a handle it acquires. -/
theorem verified_balanced (func : HandleFunction) (ownership : OwnershipTable)
    (options : VerifyOptions) (hv : verifyRefcountBalance func ownership options = some [])
    (hiter : 2 ≤ options.maxLoopIterations)
    (hhandlers : straightHandlers ownership func.body = true)
    (hclosed : ∀ h, closed ownership h func.body LiveEnv.outside
      ((entryFrame func.params).acquired h) = true)
    (o : Exit) (f' : Counts.Frame)
    (hrun : runs ownership func.result func.body (entryFrame func.params) o f')
    (hheld : o ≠ .unheld) : BalancedExit func.result o f' := by
  obtain ⟨hclean, hchecked⟩ := clean_of_verified hv
  obtain ⟨hok, hun | ⟨p, hp, rfl, hsim⟩⟩ := exec_sim hiter func.body hhandlers
    (fun _ => LiveEnv.outside) _ o f' _ _ hrun (entry_sim _ _) hclosed hclean
  · exact absurd hun hheld
  · refine ⟨hok, hheld, (hchecked p hp).settled hsim fun v hv => ?_⟩
    rw [hv] at hrun
    exact throws_held func.result func.body _ v f' hrun

/-- One import: a fresh reference. -/
def getOnly : OwnershipTable := fun callee =>
  if callee = "get" then some ⟨[], .owned, true, true⟩ else none

/-- `while (…) { h = get(); use h; free h }`, and the parameter released behind it. -/
def drain : HandleFunction :=
  ⟨"drain", [⟨0, .owned⟩], .none,
    [.cleanup 0 [.loop "l" [.if_ [.break_ "l"] none, .call "get" [] (some 1) false, .use 1,
      .free 1 .scopeExit, .continue_ "l"]] [.free 0 .unwind], .free 0 .scopeExit, .return_ none]⟩

theorem drain_verified : verifyRefcountBalance drain getOnly {} = some [] := by decide +kernel

theorem drain_closed (h : HandleId) : closed getOnly h drain.body LiveEnv.outside
    ((entryFrame drain.params).acquired h) = true := by
  by_cases h1 : 1 = h
  · subst h1
    decide +kernel
  · generalize (entryFrame drain.params).acquired h = b
    cases b <;> simp [drain, closed, closedStmt, closedElse, live, liveStmt, liveElse, getOnly, h1,
      readsArg, acquiresDest, LiveEnv.inLoop, LiveEnv.outside]

/-- Once around the loop. -/
theorem drain_runs :
    runs getOnly drain.result drain.body (entryFrame drain.params) (.return_ none)
      ((((entryFrame drain.params).acquire 1).release 1).release 0) := by
  have hloop : ∀ f : Counts.Frame, f.refs 1 = 0 →
      runs getOnly .none [.loop "l" [.if_ [.break_ "l"] none,
        .call "get" [] (some 1) false, .use 1, .free 1 .scopeExit, .continue_ "l"]] f .fall
      ((f.acquire 1).release 1) := by
    intro f h0
    have hone : (f.acquire 1).refs 1 = 1 := by rw [Counts.Frame.acquire_refs, if_pos rfl, h0]; rfl
    refine Or.inl ⟨_, ?_, rfl, rfl⟩
    refine @Iterate.again _ _ _ ((f.acquire 1).release 1) _ _ ?_
      (Iterate.last nofun (Or.inl ⟨rfl, ?_⟩))
    · refine Or.inl ⟨f, Or.inr ⟨rfl, rfl⟩, Or.inl ⟨f.acquire 1, ⟨_, rfl, Or.inr ⟨rfl, rfl⟩⟩, ?_⟩⟩
      refine Or.inl ⟨f.acquire 1, Or.inr ⟨fun hd => ?_, rfl, rfl⟩, Or.inl ⟨_, Or.inr ⟨?_, rfl, rfl⟩,
        Or.inr ⟨nofun, rfl, rfl⟩⟩⟩
      · have := hd.2
        omega
      · omega
    · exact Or.inr ⟨nofun, Or.inl (Or.inr ⟨nofun, rfl, rfl⟩)⟩
  refine Or.inl ⟨_, Or.inl ⟨nofun, hloop _ (by decide)⟩,
    Or.inl ⟨_, Or.inr ⟨by decide, rfl, rfl⟩, ?_⟩⟩
  exact Or.inr ⟨nofun, rfl, by simp⟩

theorem drain_balanced :
    BalancedExit drain.result (.return_ none)
      ((((entryFrame drain.params).acquire 1).release 1).release 0) :=
  verified_balanced drain getOnly {} drain_verified le_rfl (by decide) drain_closed _ _ drain_runs
    nofun

/-- The exception is handed a handle that has just been released. -/
def throwsFreed : HandleFunction :=
  ⟨"throwsFreed", [], .none,
    [.call "get" [] (some 1) false, .free 1 .scopeExit, .throw_ (some 1)]⟩

/-- The verifier has nothing to say about `throwsFreed`. -/
theorem throwsFreed_unreported : ¬ ∀ (func : HandleFunction) (ownership : OwnershipTable),
    verifyRefcountBalance func ownership {} = some [] → Balanced ownership func := by
  intro hsound
  have hbal := hsound throwsFreed getOnly (by decide +kernel)
  refine (hbal .unheld (((entryFrame []).acquire 1).release 1) ?_).held rfl
  refine Or.inl ⟨(entryFrame []).acquire 1, ⟨_, rfl, Or.inr ⟨rfl, rfl⟩⟩, Or.inl ⟨_,
    Or.inr ⟨by decide, rfl, rfl⟩, Or.inr ⟨nofun, rfl, ?_⟩⟩⟩
  rw [if_pos ⟨1, rfl, by decide⟩]

end Js2Wasm.Refcount.Verify
