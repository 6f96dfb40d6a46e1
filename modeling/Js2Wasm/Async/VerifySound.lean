import Js2Wasm.Async.Verify

/-! # What an accepted plan satisfies

`Checked` gathers what the runs of a plan need of the verifier: the states and handlers that
are named exist, a resume binding is entered only by edges that deliver it, no update touches
a parameter, the live sets solve their equations and the declared ones agree with them.
-/
namespace Js2Wasm.Async
open List

variable {T : Type} {typeEquals : T → T → Bool} {isNumber : T → Bool} {plan : IrAsyncPlan T}
  {live : LiveSets} {fuel : Nat} {state target : IrAsyncState T} {id : IrAsyncStateId}

structure Checked (plan : IrAsyncPlan T) (live : LiveSets) : Prop where
  nodup : (plan.states.map (·.id)).Nodup
  entry : ∃ s, plan.stateAt plan.entry = some s ∧ s.resume = none
  edges : ∀ {s : IrAsyncState T} {e : StateEdge}, s ∈ plan.states → e ∈ stateEdges plan s →
    (plan.stateAt e.target).isSome = true
  resumes : ∀ {s : IrAsyncState T} {awaited : IrValueId} {next : IrAsyncStateId}
    {value : IrValueId} {rejected : Rejected} {declared : List IrValueId}, s ∈ plan.states →
    s.terminator = .suspend awaited next value rejected declared →
    ∃ t, plan.stateAt next = some t ∧ resumesWith t value = true
  rejects : ∀ {s : IrAsyncState T} {awaited : IrValueId} {next : IrAsyncStateId}
    {value : IrValueId} {handler : IrAsyncHandlerId} {declared : List IrValueId},
    s ∈ plan.states → s.terminator = .suspend awaited next value (.handler handler) declared →
    ∃ h, plan.handlerAt handler = some h
  handlers : ∀ {h : IrAsyncHandler}, h ∈ plan.handlers →
    ∃ t r, plan.stateAt h.entry = some t ∧ t.resume = some r ∧ r.source = .rejected
  incoming : ∀ {s t : IrAsyncState T} {e : StateEdge} {r : IrAsyncResumeValue T},
    t ∈ plan.states → t.resume = some r → s ∈ plan.states → e ∈ stateEdges plan s →
    e.target = t.id → edgeMatches r e = true
  updates : ∀ {s : IrAsyncState T} {v : IrValueId}, s ∈ plan.states → v ∈ updateTargets s →
    v ∉ plan.paramValues
  solved : ∀ {s : IrAsyncState T}, s ∈ plan.states → nextLive plan live s = live s.id
  declared : ∀ {s : IrAsyncState T} {awaited : IrValueId} {next : IrAsyncStateId}
    {value : IrValueId} {rejected : Rejected} {declared : List IrValueId}, s ∈ plan.states →
    s.terminator = .suspend awaited next value rejected declared →
    expectedLive plan live s = declared.toFinset

/-! ### Look-up by id -/

theorem stateAt_mem (h : plan.stateAt id = some state) : state ∈ plan.states :=
  mem_of_find?_eq_some h

theorem stateAt_id (h : plan.stateAt id = some state) : state.id = id := by
  rw [IrAsyncPlan.stateAt] at h
  have hid := find?_some h
  exact of_decide_eq_true hid

variable {β : Type} {states : List (IrAsyncState T)} {s : IrAsyncState T}

/-- Distinct ids make a look-up find each element. -/
theorem find?_of_nodup {α : Type} [DecidableEq β] {l : List α} {f : α → β} (h : (l.map f).Nodup)
    {a : α} (ha : a ∈ l) : l.find? (fun b => f b = f a) = some a := by
  induction l with
  | nil => exact nomatch ha
  | cons b l ih =>
    rw [map_cons, nodup_cons] at h
    rcases mem_cons.mp ha with rfl | ha
    · exact find?_cons_of_pos (decide_eq_true rfl)
    · have hne : f b ≠ f a := fun heq => h.1 (heq ▸ mem_map_of_mem ha)
      rw [find?_cons_of_neg (by rw [decide_eq_false hne]; exact Bool.false_ne_true)]
      exact ih h.2 ha

theorem Checked.unique (h : Checked plan live) (hs : state ∈ plan.states) :
    plan.stateAt state.id = some state := find?_of_nodup h.nodup hs

/-- The liveness of a state of a checked plan is its own. -/
theorem Checked.livenessOf (h : Checked plan live) (hs : state ∈ plan.states) :
    livenessOf plan state.id = stateLiveness state (state.id = plan.entry) plan.paramValues := by
  have hnodup : (plan.states.reverse.map (·.id)).Nodup := by
    rw [map_reverse]
    exact nodup_reverse.mpr h.nodup
  rw [Async.livenessOf, find?_of_nodup hnodup (mem_reverse.mpr hs)]

theorem nodup_of_verifyStateIds {ids seen : List IrAsyncStateId}
    (h : verifyStateIds seen ids = []) : ids.Nodup ∧ ∀ i ∈ ids, i ∉ seen := by
  induction ids generalizing seen with
  | nil => exact ⟨nodup_nil, fun i hi => nomatch hi⟩
  | cons i ids ih =>
    rw [verifyStateIds, append_eq_nil_iff, append_eq_nil_iff] at h
    obtain ⟨⟨-, hnew⟩, hrest⟩ := h
    obtain ⟨hnodup, hseen⟩ := ih hrest
    have hi : i ∉ seen := of_decide_eq_true (check_eq_nil.mp hnew)
    refine ⟨nodup_cons.mpr ⟨fun hmem => ?_, hnodup⟩, fun j hj => ?_⟩
    · exact hseen i hmem mem_cons_self
    · rcases mem_cons.mp hj with rfl | hj
      · exact hi
      · exact fun hmem => hseen j hj (mem_cons_of_mem i hmem)

/-! ### The live sets -/

/-- A round that changes nothing finds every equation solved. -/
theorem liveRound_unchanged {r r' : LiveSets × Bool} (h : liveRound plan states r = r')
    (hr : r'.2 = false) :
    r.2 = false ∧ r'.1 = r.1 ∧ ∀ s ∈ states, nextLive plan r.1 s = r.1 s.id := by
  induction states generalizing r with
  | nil =>
    rw [liveRound] at h
    subst h
    exact ⟨hr, rfl, fun s hs => nomatch hs⟩
  | cons s states ih =>
    obtain ⟨live, changed⟩ := r
    rw [liveRound] at h
    by_cases heq : nextLive plan live s = live s.id
    · rw [if_pos heq] at h
      obtain ⟨hc, hl, hrest⟩ := ih h
      refine ⟨hc, hl, fun t ht => ?_⟩
      rcases mem_cons.mp ht with rfl | ht
      · exact heq
      · exact hrest t ht
    · rw [if_neg heq] at h
      exact nomatch (ih h).1

theorem solveLive_solved {start : LiveSets} (h : solveLive plan fuel start = some live) :
    ∀ s ∈ plan.states, nextLive plan live s = live s.id := by
  induction fuel generalizing start with
  | zero => exact nomatch h
  | succ fuel ih =>
    rw [solveLive] at h
    cases hc : (liveRound plan plan.states.reverse (start, false)).2 with
    | true =>
      rw [if_pos hc] at h
      exact ih h
    | false =>
      rw [if_neg (by rw [hc]; exact Bool.false_ne_true)] at h
      obtain ⟨-, hl, hall⟩ := liveRound_unchanged rfl hc
      intro s hs
      rw [← Option.some.inj h, hl]
      exact hall s (mem_reverse.mpr hs)

/-! ### The other checks -/

theorem flatMap_nil {α : Type} {l : List α} {f : α → List β} (h : l.flatMap f = []) {a : α}
    (ha : a ∈ l) : f a = [] := flatMap_eq_nil_iff.mp h a ha

theorem verifyStates_nil {seen : List (IrValueId × String)}
    (h : verifyStates typeEquals plan seen states = []) (hs : s ∈ states) :
    verifyTerminator typeEquals plan s = [] ∧
      ∀ e ∈ stateEdges plan s, (plan.stateAt e.target).isSome = true := by
  induction states generalizing seen with
  | nil => exact nomatch hs
  | cons t states ih =>
    rw [verifyStates, append_eq_nil_iff] at h
    rcases mem_cons.mp hs with rfl | hs
    · have hstate := h.1
      rw [verifyState, append_eq_nil_iff, append_eq_nil_iff] at hstate
      exact ⟨hstate.1.2, fun e he => check_eq_nil.mp (flatMap_nil hstate.2 he)⟩
    · exact ih h.2 hs

theorem verifyUpdates_nil {us : List IrAsyncSpillUpdate} {seen : List IrValueId}
    (h : verifyUpdates typeEquals plan state seen us = []) :
    ∀ v ∈ us.map (·.target), v ∉ plan.paramValues := by
  induction us generalizing seen with
  | nil => exact fun v hv => nomatch hv
  | cons u us ih =>
    rw [verifyUpdates] at h
    simp only [append_eq_nil_iff, check_eq_nil] at h
    obtain ⟨⟨⟨⟨_, hparam⟩, _⟩, _⟩, hrest⟩ := h
    intro v hv
    rcases mem_cons.mp hv with rfl | hv
    · exact of_decide_eq_true hparam
    · exact ih hrest v hv

theorem verifyTerminator_suspend {awaited : IrValueId} {next : IrAsyncStateId} {value : IrValueId}
    {rejected : Rejected} {declared : List IrValueId}
    (h : verifyTerminator typeEquals plan state = [])
    (ht : state.terminator = .suspend awaited next value rejected declared) :
    (∃ t, plan.stateAt next = some t ∧ resumesWith t value = true) ∧
      ∀ handler, rejected = .handler handler → ∃ h, plan.handlerAt handler = some h := by
  rw [verifyTerminator, ht] at h
  simp only [append_eq_nil_iff] at h
  obtain ⟨⟨-, hresume⟩, hrejected⟩ := h
  constructor
  · cases hat : plan.stateAt next with
    | none =>
      rw [hat] at hresume
      exact nomatch hresume
    | some t =>
      rw [hat] at hresume
      exact ⟨t, rfl, check_eq_nil.mp hresume⟩
  · intro handler heq
    subst heq
    exact Option.isSome_iff_exists.mp (check_eq_nil.mp hrejected)

theorem verifyHandler_nil {handler : IrAsyncHandler} (h : verifyHandler plan handler = []) :
    ∃ t r, plan.stateAt handler.entry = some t ∧ t.resume = some r ∧ r.source = .rejected := by
  rw [verifyHandler, append_eq_nil_iff, append_eq_nil_iff] at h
  have hentry := h.1.1
  cases hat : plan.stateAt handler.entry with
  | none =>
    rw [hat] at hentry
    exact nomatch hentry
  | some t =>
    rw [hat] at hentry
    have hany := check_eq_nil.mp hentry
    cases hr : t.resume with
    | none =>
      rw [hr] at hany
      exact nomatch hany
    | some r =>
      rw [hr, Option.any_some] at hany
      exact ⟨t, r, rfl, hr, eq_of_beq hany⟩

theorem verifyIncoming_nil (h : verifyResumeIncomingEdges plan = []) {t : IrAsyncState T}
    {e : StateEdge} {r : IrAsyncResumeValue T} (ht : t ∈ plan.states) (hr : t.resume = some r)
    (hs : s ∈ plan.states) (he : e ∈ stateEdges plan s) (hid : e.target = t.id) :
    edgeMatches r e = true := by
  have hstate := flatMap_nil h ht
  rw [hr] at hstate
  refine check_eq_nil.mp (flatMap_nil hstate (mem_filter.mpr ⟨?_, decide_eq_true hid⟩))
  exact mem_flatMap.mpr ⟨s, hs, he⟩

/-- A plan without errors is checked. -/
theorem checked_of_verify (h : verifyIrAsyncPlan typeEquals isNumber plan fuel = some []) :
    ∃ live, Checked plan live := by
  rw [verifyIrAsyncPlan] at h
  cases hlive : solveLive plan fuel (initialLive plan) with
  | none =>
    rw [hlive] at h
    exact nomatch h
  | some live =>
    rw [hlive] at h
    have hnil := Option.some.inj h
    simp only [verifyGraph, append_eq_nil_iff] at hnil
    obtain ⟨⟨⟨⟨⟨hgraph, hlives⟩, -⟩, -⟩, -⟩, -⟩ := hnil
    obtain ⟨⟨⟨⟨⟨⟨⟨⟨_, hids⟩, hentry⟩, hstates⟩, -⟩, hhandlers⟩, hincoming⟩, -⟩, hupdates⟩ :=
      hgraph
    refine ⟨live, ?_⟩
    rw [verifyEntry, append_eq_nil_iff, check_eq_nil, check_eq_nil] at hentry
    exact {
      nodup := (nodup_of_verifyStateIds hids).1
      entry := by
        obtain ⟨s, hs⟩ := Option.isSome_iff_exists.mp hentry.1
        refine ⟨s, hs, ?_⟩
        have hnone := hentry.2
        rw [hs, Option.bind_some] at hnone
        exact Option.isNone_iff_eq_none.mp hnone
      edges := fun hs he => (verifyStates_nil hstates hs).2 _ he
      resumes := fun hs ht => (verifyTerminator_suspend (verifyStates_nil hstates hs).1 ht).1
      rejects := fun hs ht => (verifyTerminator_suspend (verifyStates_nil hstates hs).1 ht).2 _ rfl
      handlers := fun hh => verifyHandler_nil (flatMap_nil hhandlers hh)
      incoming := fun ht hr hs he hid => verifyIncoming_nil hincoming ht hr hs he hid
      updates := fun hs hv => verifyUpdates_nil (flatMap_nil hupdates hs) _ hv
      solved := fun hs => solveLive_solved hlive _ hs
      declared := by
        intro s awaited next value rejected declared hs ht
        have hstate := flatMap_nil hlives hs
        rw [verifyLive, ht] at hstate
        simp only [append_eq_nil_iff, check_eq_nil] at hstate
        exact of_decide_eq_true hstate.2 }

end Js2Wasm.Async
