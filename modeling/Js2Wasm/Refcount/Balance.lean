import Js2Wasm.Refcount.Simulation

/-! # Reference counts balance

`insertHandleScopes` on a function whose names are in order: whatever the engine
does, the result makes the calls, branches and exits its input makes, never
touches or settles a reference it does not hold, and has settled every reference
it acquired exactly once when it is left.

The one thing the pass cannot see is a reference that no handle names: a call to
an import with an owned result and no destination leaks it
(`insertHandleScopes_unnamed_result_leaks`).
-/
namespace Js2Wasm.Refcount
open LinearLedger List
open Fallible (bind_eq_ok)

variable {V : Type}

/-- Every destination is bound once, and no parameter is. -/
def UniqueDestinations (func : HandleFunction) : Prop :=
  (func.params.map HandleParam.id ++ destinations func.body).Nodup

instance (func : HandleFunction) : Decidable (UniqueDestinations func) :=
  inferInstanceAs (Decidable (List.Nodup _))

/-- What a run of the rewritten function owes the run of its input. -/
structure BalancedRun (rewritten input : Outcome V × State V) : Prop where
  /-- Control leaves the same way, after the same calls, branches and exits. -/
  outcome : rewritten.1 = input.1
  trace : rewritten.2.trace = input.2.trace
  /-- No reference is used or settled unless the frame holds it. -/
  faults : rewritten.2.ledger.faults = []
  /-- Once the function is left, every acquired reference was settled exactly once. -/
  settled : rewritten.1 ≠ .outOfFuel →
    rewritten.2.ledger.settled.Perm (range rewritten.2.ledger.next)

/-! ### The owned parameters -/

theorem foldl_next_le (hs : List Nat) :
    ∀ next : Nat, next ≤ hs.foldl (fun next h => if next ≤ h then h + 1 else next) next ∧
      ∀ h ∈ hs, h < hs.foldl (fun next h => if next ≤ h then h + 1 else next) next := by
  induction hs with
  | nil => exact fun next => ⟨le_rfl, fun h hh => nomatch hh⟩
  | cons x hs ih =>
    intro next
    rw [foldl_cons]
    obtain ⟨hle, hlt⟩ := ih (if next ≤ x then x + 1 else next)
    have hstep : next ≤ (if next ≤ x then x + 1 else next) ∧
        x < (if next ≤ x then x + 1 else next) := by
      split <;> omega
    refine ⟨hstep.1.trans hle, fun h hh => ?_⟩
    rcases mem_cons.mp hh with rfl | hh
    · exact hstep.2.trans_le hle
    · exact hlt h hh

variable {d : HandleId} {func : HandleFunction}

/-- Fresh handles are above everything the function mentions. -/
theorem lt_firstFresh {h : HandleId} (hh : h ∈ collectHandles func) :
    h < firstFresh func := (foldl_next_le _ 1).2 h hh

theorem mem_mentions_of_destination {s : HandleStmt} (h : d ∈ destination s) : d ∈ mentions s := by
  cases s with
  | call callee args dest binding => exact mem_append_right _ h
  | _ => cases h

theorem destinations_lt_firstFresh (hd : d ∈ destinations func.body) : d < firstFresh func := by
  obtain ⟨s, hs, hds⟩ := mem_flatMap.mp hd
  exact lt_firstFresh (mem_append_right _
    (mem_flatMap.mpr ⟨s, hs, mem_mentions_of_destination hds⟩))

/-- The root context with some parameters acquired, in order. -/
def Ctx.ownAll (c : Ctx) (ps : List HandleId) : Ctx := ps.foldl Ctx.own c

section
variable {func : HandleFunction} {ownership : OwnershipTable}

/-- Acquiring the owned parameters wraps the body in their regions. -/
theorem emitParamsThen_spec (ps : List HandleId) :
    ∀ {st st' : PassState} {out : List HandleStmt},
      emitParamsThen func ownership ps st = .ok (out, st') → ps.Nodup →
      (∀ p ∈ ps, p ∈ func.params.map HandleParam.id ∧ p ∉ st.ctx.owned ∧ st.ctx.rename p = none) →
      st.Good (func.params.map HandleParam.id) (destinations func.body) →
      OwnedResultsNamed ownership func.body →
      LexicallyScoped (func.params.map HandleParam.id) func.body →
      ∃ body n', out = ps.foldr (wrap ownership) body ∧ Restores st st' ∧
        (st'.ErrorFree →
          Emits func.result ownership (st.ctx.ownAll ps) st.nextHandle func.body body n') := by
  induction ps with
  | nil =>
    intro st st' out h _ _ hg hn hl
    have hem := emits_of_emitFrom func.body h hn hl hg
    exact ⟨out, _, rfl, hem.toRestores, hem.emits⟩
  | cons p ps ih =>
    intro st st' out h hnd hps hg hn hl
    obtain ⟨hp, hnd'⟩ := nodup_cons.mp hnd
    obtain ⟨hpv, hpo, hpr⟩ := hps p mem_cons_self
    obtain ⟨out', st1, hrest, rfl, rfl⟩ := acquireAndWrap_ok.mp h
    have hgown : (st.own p).Good (func.params.map HandleParam.id) (destinations func.body) :=
      hg.own ⟨p, hpv, by rw [PassState.rn, show st.rename p = none from hpr]; rfl⟩
    obtain ⟨body, n', rfl, hr, hem⟩ := ih hrest hnd' (fun q hq => by
      obtain ⟨hqv, hqo, hqr⟩ := hps q (mem_cons_of_mem _ hq)
      refine ⟨hqv, fun hm => ?_, hqr⟩
      have howned : (st.own p).ctx.owned = p :: st.ctx.owned := Ctx.owned_own hg.ok.frames p
      rw [howned] at hm
      exact (mem_cons.mp hm).elim (fun e => hp (e ▸ hq)) hqo) hgown hn hl
    exact ⟨body, n', rfl, hr.disown fun hm => hpo ((hg.tracks p).mp hm), hem⟩

end

/-- The values and references a frame starts with, one owned parameter at a time. -/
theorem bindOwned_all (args : HandleId → V) (ps : List HandleId) :
    ∀ (st : State V) {c : Ctx} {vars : List HandleId} {n : HandleId} {dests : List HandleId},
      ps.Nodup → (∀ p ∈ ps, p ∈ vars ∧ p ∉ c.owned) → (∀ h, c.rename h = none) →
      c.Ok vars n dests → Holds st.refs c.owned st.ledger → st.ledger.faults = [] →
      (∀ h, (st.env h).value = args h ∧ (h ∉ c.owned → st.refs h = none)) →
      ∃ st', ps.foldl (fun st p => st.bindOwned p (args p)) st = st' ∧
        (c.ownAll ps).Ok vars n dests ∧ Related (c.ownAll ps) vars st' st' := by
  induction ps with
  | nil =>
    intro st c vars n dests _ _ hr hok hh hf he
    have hrn : ∀ v, c.rn v = v := fun v => by rw [Ctx.rn, hr v]; rfl
    refine ⟨st, rfl, hok, fun v _ => by rw [Ctx.ownAll, foldl_nil, hrn v], fun v _ => ?_, hh,
      rfl, hf⟩
    rw [Ctx.ownAll, foldl_nil, hrn v]
    by_cases hv : v ∈ c.owned
    · exact Or.inl hv
    · exact Or.inr ((he v).2 hv)
  | cons p ps ih =>
    intro st c vars n dests hnd hps hr hok hh hf he
    obtain ⟨hp, hnd'⟩ := nodup_cons.mp hnd
    obtain ⟨hpv, hpo⟩ := hps p mem_cons_self
    have howned := Ctx.owned_own hok.frames p
    have hrn : c.rn p = p := by rw [Ctx.rn, hr p]; rfl
    refine ih (st.bindOwned p (args p)) hnd' (fun q hq => ?_) hr (hok.own ⟨p, hpv, hrn⟩) ?_ hf fun h => ?_
    · obtain ⟨hqv, hqo⟩ := hps q (mem_cons_of_mem _ hq)
      refine ⟨hqv, fun hm => ?_⟩
      rw [howned] at hm
      exact (mem_cons.mp hm).elim (fun e => hp (e ▸ hq)) hqo
    · rw [howned]
      refine hh.acquire (by simp [State.refs, State.bindOwned]) fun m hm => ?_
      have hne : m ≠ p := fun e => hpo (e ▸ hm)
      simp [State.refs, State.bindOwned, hne]
    · rw [howned]
      by_cases hhp : h = p
      · subst hhp
        exact ⟨by simp [State.bindOwned], fun hm => absurd mem_cons_self hm⟩
      · refine ⟨by simpa [State.bindOwned, hhp] using (he h).1, fun hm => ?_⟩
        simpa [State.refs, State.bindOwned, hhp] using
          (he h).2 fun hc => hm (mem_cons_of_mem _ hc)

/-- The parameters' regions, innermost first. -/
theorem Sim.settleParams {ownership : OwnershipTable} {result : ResultOwnership}
    {engine : Engine V} {fuel : Nat} {n : HandleId} {vars dests : List HandleId}
    {st1 st2 : State V} {body : List HandleStmt} {r2 : Outcome V × State V} (ps : List HandleId) :
    ∀ {c : Ctx}, (∀ p ∈ ps, ∃ v ∈ vars, c.rn v = p) → c.Ok vars n dests →
      Sim (c.ownAll ps) n dests st1 st2 (execStmts ownership result engine fuel body st1) r2 →
      Sim c n dests st1 st2
        (execStmts ownership result engine fuel (ps.foldr (wrap ownership) body) st1) r2 := by
  induction ps with
  | nil => exact fun _ _ h => h
  | cons p ps ih =>
    intro c hps hok h
    rw [foldr_cons, execStmts_wrap]
    have hrest : ∀ q ∈ ps, ∃ v ∈ vars, (c.own p).rn v = q := fun q hq =>
      hps q (mem_cons_of_mem _ hq)
    exact (ih hrest (hok.own (hps p mem_cons_self)) h).settleExit hok.frames

/-! ### The theorem -/

/-- The root frame's names are in order. -/
theorem rootOk (hunique : UniqueDestinations func) :
    (⟨[⟨.function, none, []⟩], fun _ => none⟩ : Ctx).Ok (func.params.map HandleParam.id)
      (firstFresh func) (destinations func.body) := by
  obtain ⟨-, hnd, hdisj⟩ := nodup_append.mp hunique
  have hvar : ∀ v ∈ func.params.map HandleParam.id,
      v < firstFresh func ∧ v ∉ destinations func.body := fun v hv =>
    ⟨lt_firstFresh (mem_append_left _ hv), fun hd => hdisj v hv v hd rfl⟩
  exact ⟨cons_ne_nil _ _, fun h hh => absurd rfl hh, fun h hh => absurd hh (by simp [Ctx.owned]),
    hvar, hvar, fun d hd => destinations_lt_firstFresh hd, hnd⟩

/-- **Reference-count insertion is balanced.**  Calls with an owned result name
their destination; a hand-inserted `dup`, `free` or `cleanup` makes the pass fail. -/
theorem insertHandleScopes_balanced {func : HandleFunction} {ownership : OwnershipTable}
    {res : HandleScopeResult} (h : insertHandleScopes func ownership = .ok res)
    (hdiag : ∀ d ∈ res.diagnostics, d.severity ≠ .error) (hunique : UniqueDestinations func)
    (hscoped : LexicallyScoped (func.params.map HandleParam.id) func.body)
    (hnamed : OwnedResultsNamed ownership func.body) (engine : Engine V) (fuel : Nat)
    (args : HandleId → V) :
    BalancedRun (runFunction ownership engine fuel args res.func)
      (runFunction ownership engine fuel args func) := by
  simp only [insertHandleScopes, bind_eq_ok, Prod.exists] at h
  obtain ⟨out, st', hemit, he⟩ := h
  cases he
  have hok := rootOk hunique
  have hparams : ∀ p ∈ ownedParams func, p ∈ func.params.map HandleParam.id := fun p hp => by
    obtain ⟨q, hq, rfl⟩ := mem_map.mp hp
    exact mem_map_of_mem (mem_filter.mp hq).1
  have hnd : (ownedParams func).Nodup :=
    (List.Sublist.map _ filter_sublist).nodup (nodup_append.mp hunique).1
  obtain ⟨body, n', rfl, -, hem⟩ := emitParamsThen_spec (ownedParams func) hemit hnd
    (fun p hp => ⟨hparams p hp, by simp [PassState.ctx, Ctx.owned], rfl⟩)
    ⟨hok, fun x => by simp [PassState.ctx, Ctx.owned]⟩ hnamed hscoped
  obtain ⟨st, henter, hok', hrel⟩ := bindOwned_all args (ownedParams func)
    (argumentState args) hnd (fun p hp => ⟨hparams p hp, by simp [Ctx.owned]⟩) (fun _ => rfl) hok Holds.empty rfl
    fun h => ⟨rfl, fun _ => rfl⟩
  have hstart : enter args func.params = st := by
    rw [← henter, enter, ownedParams, foldl_map]
  have hbody : Sim _ _ _ st st (execStmts ownership func.result engine fuel body st)
      (execStmts ownership func.result engine fuel func.body st) :=
    (hem hdiag).simulates hscoped hok' hrel
  have hsim := Sim.settleParams (ownedParams func) (fun p hp => ⟨p, hparams p hp, rfl⟩) hok hbody
  rw [← hstart] at hsim
  refine ⟨hsim.outcome, hsim.trace, hsim.faults, fun hfuel => Ledger.settled_perm_range ?_⟩
  have howned := hsim.owned
  rw [runFunction] at hfuel ⊢
  -- no label is in scope at the root, so control leaves by its end, a return or an unwind
  generalize execStmts ownership func.result engine fuel _ (enter args func.params) = r at *
  obtain ⟨o, st⟩ := r
  cases o with
  | outOfFuel => exact absurd rfl hfuel
  | break_ label | continue_ label => obtain ⟨frame, outside, ht, -⟩ := howned; cases ht
  | fall | return_ value | unwind value => exact Holds.live_eq_nil howned

/-! ### Instances -/

/-- Three engine imports: a constructor, a property read, a property store. -/
def quickJs : OwnershipTable := fun callee =>
  if callee = "JS_NewObject" then some ⟨[], .owned, false, false⟩
  else if callee = "JS_GetPropertyStr" then some ⟨[.borrows], .owned, true, false⟩
  else if callee = "JS_SetPropertyStr" then some ⟨[.borrows, .consumes], .none, true, true⟩
  else none

/-- Reads a property, stores it back in a loop, and hands it to the caller. -/
def storeLoop : HandleFunction where
  name := "storeLoop"
  params := [⟨1, .owned⟩]
  result := .owned
  body :=
    [.call "JS_GetPropertyStr" [some 1] (some 2) false,
      .loop "L" [.call "JS_SetPropertyStr" [some 1, some 2] none false,
        .if_ [.break_ "L"] (some [.continue_ "L"])],
      .return_ (some 2)]

/-- An engine that never raises and stays in every loop. -/
def steadyEngine : Engine Nat := ⟨fun _ => false, fun _ => false, fun trace => trace.length⟩

theorem storeLoop_balanced : ∃ res, insertHandleScopes storeLoop quickJs = .ok res ∧
    BalancedRun (runFunction quickJs steadyEngine 3 id res.func)
      (runFunction quickJs steadyEngine 3 id storeLoop) :=
  ⟨_, rfl, insertHandleScopes_balanced rfl (by decide) (by decide)
    (by simp [storeLoop, LexicallyScoped, LexicallyScopedStmt, LexicallyScopedElse, binds])
    (by simp [storeLoop, OwnedResultsNamed, walk, walkStmt, walkElse, namesOwnedResult, quickJs])
    steadyEngine 3 id⟩

/-- Makes an object and drops it on the floor. -/
def dropsResult : HandleFunction where
  name := "dropsResult"
  params := []
  result := .none
  body := [.call "JS_NewObject" [] none false]

/-- **A result that no handle names is leaked.**  The pass accepts the call, and the
reference it hands back is never released. -/
theorem insertHandleScopes_unnamed_result_leaks :
    ∃ res, insertHandleScopes dropsResult quickJs = .ok res ∧ res.diagnostics = [] ∧
      UniqueDestinations dropsResult ∧ LexicallyScoped [] dropsResult.body ∧
      ¬ BalancedRun (runFunction quickJs steadyEngine 0 id res.func)
        (runFunction quickJs steadyEngine 0 id dropsResult) := by
  refine ⟨_, rfl, rfl, by decide, ?_, fun h => ?_⟩
  · simp [dropsResult, LexicallyScoped, LexicallyScopedStmt]
  · have hsettled := h.settled (fun he => nomatch he)
    exact absurd hsettled.length_eq (by decide)

end Js2Wasm.Refcount
