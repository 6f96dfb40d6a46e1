import Js2Wasm.Async.Definite

/-! # Runs of accepted plans

In every run of a plan without errors each state and handler that is reached exists, and a
suspension resumes in a state that binds what is delivered (`verified_plan_runs`, first
part).  Every read finds the value that was produced last where the plan is definitely
assigned (second part); the invariant is `Ready`: whatever some path from the state still
reads is available.  The verifier accepts plans that are not (`joined_reads_undefined`).
-/
namespace Js2Wasm.Async
open List Option

variable {T α : Type} {plan : IrAsyncPlan T} {live : LiveSets} {state target : IrAsyncState T}
  {f f' : Frame α} {v w : IrValueId} {edge : StateEdge} {c c' : Config α} {r : Result α}

/-- What some path from the state reads is available. -/
structure Ready (plan : IrAsyncPlan T) (state : IrAsyncState T) (f : Frame α) : Prop where
  exposed : ∀ v, Exposed plan v state.id → v ∉ plan.paramValues → f.Readable v
  needed : ∀ p ∈ plan.paramValues, ParamNeeded plan p state.id → f.Readable p
  bound : ∀ v ∈ resumeValues state, f.Readable v

/-! ### Within a state -/

theorem mem_usesBeforeDef (hv : v ∈ state.body.deepUses ∨ v ∈ leavingReads state)
    (hp : v ∉ plan.paramValues) (hd : v ∉ localDefs state) :
    v ∈ (livenessIn plan state).usesBeforeDef := by
  rw [livenessIn, stateLiveness]
  refine Finset.mem_sdiff.mpr ⟨mem_toFinset.mpr ?_, fun hmem => ?_⟩
  · rw [append_assoc]
    rcases hv with hbody | hleave
    · exact mem_append_left _ hbody
    · exact mem_append_right _ hleave
  · rcases mem_append.mp (mem_toFinset.mp hmem) with hparam | hlocal
    · split at hparam
      · exact hp hparam
      · exact nomatch hparam
    · exact hd hlocal

theorem mem_stateReads_of_leaving (hv : v ∈ leavingReads state) : v ∈ stateReads state := by
  rw [stateReads, append_assoc]
  refine mem_append_right _ ?_
  rcases mem_append.mp hv with hupdate | hterm
  · exact mem_append_left _ hupdate
  · exact mem_append_right _ (mem_filter.mp hterm).1

/-- What the state reads and does not define is available when it begins. -/
theorem Ready.reads (h : Ready plan state f) (hat : plan.stateAt state.id = some state)
    (hv : v ∈ state.body.deepUses ∨ v ∈ leavingReads state) (hd : v ∉ localDefs state) :
    f.Readable v := by
  by_cases hp : v ∈ plan.paramValues
  · refine h.needed v hp (.read hat ?_)
    rcases hv with hbody | hleave
    · rw [stateReads, append_assoc]
      exact mem_append_left _ hbody
    · exact mem_stateReads_of_leaving hleave
  · exact h.exposed v (.read hat (mem_usesBeforeDef hv hp hd)) hp

section
variable (h : Ready plan state f) (hd : Definite plan) (hs : state ∈ plan.states)
  (hat : plan.stateAt state.id = some state)
include h hd hs hat

theorem Ready.body {out : Outcome α} (hrun : Runs (.body state.body) f out) :
    out.Safe f state.body.results :=
  hrun.safe (hd.ordered hs) (fun _ hv hn => h.reads hat (Or.inl hv) hn) h.bound

/-- What is read on leaving is available when the body has run. -/
theorem Ready.leaving (hsafe : (Outcome.done f').Safe f state.body.results)
    (hv : v ∈ leavingReads state) :
    f'.Readable v := by
  by_cases hl : v ∈ localDefs state
  · rcases mem_append.mp (hd.leaving hs hv hl) with hresume | hresult
    · exact hsafe.1 v (h.bound v hresume)
    · exact hsafe.2 v hresult
  · exact hsafe.1 v (h.reads hat (Or.inr hv) hl)

end

variable (h : Ready plan state f) (hc : Checked plan live) (hd : Definite plan)
  (hs : state ∈ plan.states) (hleaves : Leaves state f f') (he : edge ∈ stateEdges plan state)

include h hc hd hs hleaves he in
/-- What some path from the next state reads is available on leaving. -/
theorem Ready.out :
    (∀ w, Exposed plan w edge.target → w ∉ plan.paramValues → some w ≠ edge.boundValue →
      f'.Readable w) ∧
    ∀ p ∈ plan.paramValues, ParamNeeded plan p edge.target → f'.Readable p := by
  have hat := hc.unique hs
  obtain ⟨hrun, -⟩ := hleaves
  have hsafe := h.body hd hs hat hrun
  constructor
  · intro w hw hp hb
    apply Frame.readable_update
    by_cases hl : updatedFrom state.updates w ∈ localDefs state
    · rcases mem_append.mp (hd.flowing hs he hw hb hl) with hresume | hresult
      · exact hsafe.1 _ (h.bound _ hresume)
      · exact hsafe.2 _ hresult
    · by_cases ht : w ∈ updateTargets state
      · have hsource : updatedFrom state.updates w ∈ leavingReads state :=
          mem_append_left _ (updatedFrom_mem ht)
        exact h.leaving hd hs hat hsafe hsource
      · have hsame := updatedFrom_of_not_mem ht
        have hdefs : updatedFrom state.updates w ∉ (livenessIn plan state).defs := by
          rw [livenessIn, stateLiveness]
          intro hmem
          rcases mem_append.mp (mem_toFinset.mp hmem) with hparam | hlocal
          · split at hparam
            · rw [hsame] at hparam
              exact hp hparam
            · exact nomatch hparam
          · exact hl hlocal
        refine hsafe.1 _ (h.exposed _ (.flow hat he hw hb hdefs) ?_)
        rw [hsame]
        exact hp
  · intro p hp hneed
    apply Frame.readable_update
    have ht : p ∉ state.updates.map (·.target) := fun hmem => hc.updates hs hmem hp
    rw [updatedFrom_of_not_mem ht]
    exact hsafe.1 p (h.needed p hp (.flow hat he hneed))

/-! ### Between states -/

include he in
theorem boundValue_of_control (hcontrol : edge.source = .control) : edge.boundValue = none := by
  rw [stateEdges] at he
  split at he
  · rw [mem_singleton.mp he]
  · rcases mem_cons.mp he with rfl | he
    · rfl
    · rw [mem_singleton.mp he]
  · rcases mem_cons.mp he with rfl | he
    · exact nomatch hcontrol
    · split at he
      · split at he
        · rw [mem_singleton.mp he]
        · exact nomatch he
      · exact nomatch he
  · exact nomatch he

/-- A control edge leads to a state that binds nothing. -/
theorem Checked.resume_of_control (hc : Checked plan live) (hs : state ∈ plan.states)
    (ht : target ∈ plan.states) (he : edge ∈ stateEdges plan state)
    (hcontrol : edge.source = .control) (hid : edge.target = target.id) :
    target.resume = none := by
  cases hr : target.resume with
  | none => rfl
  | some r =>
    have hmatch := hc.incoming ht hr hs he hid
    rw [edgeMatches, Bool.and_eq_true, hcontrol] at hmatch
    have hsource := eq_of_beq hmatch.1
    cases hsrc : r.source <;> rw [hsrc] at hsource <;> exact nomatch hsource

include h hc hd hs hleaves he in
theorem Ready.control (hcontrol : edge.source = .control)
    (hat : plan.stateAt edge.target = some target) :
    Ready plan target f' := by
  obtain ⟨hexposed, hneeded⟩ := h.out hc hd hs hleaves he
  have hid := stateAt_id hat
  refine ⟨fun w hw hp => ?_, fun p hp hneed => ?_, fun v hv => ?_⟩
  · rw [hid] at hw
    refine hexposed w hw hp ?_
    rw [boundValue_of_control he hcontrol]
    exact some_ne_none w
  · rw [hid] at hneed
    exact hneeded p hp hneed
  · rw [resumeValues, hc.resume_of_control hs (stateAt_mem hat) he hcontrol hid.symm] at hv
    exact nomatch hv

variable {awaited value : IrValueId} {declared : List IrValueId} {next id : IrAsyncStateId}
    {rejected : Rejected} {g : IrAsyncHandler} {handler : IrAsyncHandlerId}

include h hc hd hs hleaves he in
/-- The state that is resumed has what it needs: the live values and what is delivered. -/
theorem Ready.deliver (hterm : state.terminator = .suspend awaited next value rejected declared)
    (hat : plan.stateAt edge.target = some target) (hv : resumeValues target = [v])
    (hb : edge.boundValue = none ∨ edge.boundValue = some v) (x : α) :
    Ready plan target (Async.deliver f' declared v x) := by
  obtain ⟨hexposed, hneeded⟩ := h.out hc hd hs hleaves he
  have hid := stateAt_id hat
  have hlive : ∀ w, w ∈ declared → f'.Readable w → (Async.deliver f' declared v x).Readable w :=
    fun w hw hr => Frame.le_define _ v x w (Frame.readable_restrict hw hr)
  refine ⟨fun w hw hp => ?_, fun p hp hneed => ?_, fun u hu => ?_⟩
  · rw [hid] at hw
    by_cases hwv : w = v
    · rw [hwv]
      exact Frame.readable_define _ v x
    · have hne : some w ≠ edge.boundValue := by
        rcases hb with hb | hb <;> rw [hb]
        · exact some_ne_none w
        · exact fun heq => hwv (some.inj heq)
      have hmem : w ∈ expectedLive plan live state :=
        Finset.mem_biUnion.mpr ⟨edge, mem_toFinset.mpr he,
          Finset.mem_filter.mpr ⟨hw.mem_live hc, hne⟩⟩
      rw [hc.declared hs hterm] at hmem
      exact hlive w (mem_toFinset.mp hmem) (hexposed w hw hp hne)
  · rw [hid] at hneed
    exact hlive p (hd.params hs hterm he hp hneed) (hneeded p hp hneed)
  · rw [hv] at hu
    rw [mem_singleton.mp hu]
    exact Frame.readable_define _ v x

/-! ### Runs -/

/-- The configuration is in a state of the plan. -/
def Placed (plan : IrAsyncPlan T) (c : Config α) : Prop :=
  ∃ s, plan.stateAt c.state = some s ∧ s.id = c.state

theorem mem_edges_fulfilled (h : state.terminator = .suspend awaited next value rejected declared) :
    ⟨next, .fulfilled, some value⟩ ∈ stateEdges plan state := by
  rw [stateEdges, h]
  exact mem_cons_self

theorem mem_edges_rejected
    (h : state.terminator = .suspend awaited next value (.handler handler) declared)
    (hg : plan.handlerAt handler = some g) :
    ⟨g.entry, .rejected, none⟩ ∈ stateEdges plan state := by
  rw [stateEdges, h]
  simp only [hg]
  exact mem_cons_of_mem _ mem_cons_self

theorem handlerAt_mem (h : plan.handlerAt handler = some g) :
    g ∈ plan.handlers := mem_of_find?_eq_some h

theorem Checked.placed_of_mem (hc : Checked plan live) (hs : state ∈ plan.states)
    (he : edge ∈ stateEdges plan state) (f : Frame α) : Placed plan ⟨edge.target, f⟩ := by
  obtain ⟨t, ht⟩ := isSome_iff_exists.mp (hc.edges hs he)
  exact ⟨t, ht, stateAt_id ht⟩

/-- A step of a checked plan leads to a state of the plan. -/
theorem Checked.placed_step (hc : Checked plan live) (h : Steps plan c (.next c')) :
    Placed plan c' := by
  cases h with
  | control hat _ he _ => exact hc.placed_of_mem (stateAt_mem hat) he _
  | fulfilled x hat _ hterm =>
    exact hc.placed_of_mem (stateAt_mem hat) (mem_edges_fulfilled hterm) _
  | rejected x hat _ hterm hg _ _ =>
    exact hc.placed_of_mem (stateAt_mem hat) (mem_edges_rejected hterm hg) _

theorem Checked.placed (hc : Checked plan live) (h : Reachable plan c) : Placed plan c := by
  cases h with
  | start x =>
    obtain ⟨s, hs, -⟩ := hc.entry
    exact ⟨s, hs, stateAt_id hs⟩
  | step _ hstep => exact hc.placed_step hstep

theorem resumesWith_binds (h : resumesWith target value = true) :
    ∃ b, target.resume = some b ∧ b.value = value ∧ b.source = .fulfilled := by
  rw [resumesWith] at h
  cases hr : target.resume with
  | none =>
    rw [hr] at h
    exact nomatch h
  | some b =>
    rw [hr, any_some, Bool.and_eq_true] at h
    exact ⟨b, rfl, eq_of_beq h.1, eq_of_beq h.2⟩

/-- No step of a checked plan is lost or resumes where nothing is bound. -/
theorem Checked.step (hc : Checked plan live) (hp : Placed plan c) (h : Steps plan c r) :
    r ≠ .lost ∧ r ≠ .unbound := by
  cases h with
  | lost hat =>
    obtain ⟨s, hs, -⟩ := hp
    rw [hs] at hat
    exact nomatch hat
  | resumeLost hat _ hterm hnone =>
    obtain ⟨t, ht, -⟩ := hc.resumes (stateAt_mem hat) hterm
    rw [ht] at hnone
    exact nomatch hnone
  | resumeUnbound hat _ hterm hat' hall =>
    obtain ⟨t, ht, hres⟩ := hc.resumes (stateAt_mem hat) hterm
    rw [ht] at hat'
    cases hat'
    obtain ⟨b, hb, hvalue, hsource⟩ := resumesWith_binds hres
    rcases hall b hb with hne | hne
    · exact absurd hvalue hne
    · exact absurd hsource hne
  | handlerLost hat _ hterm hnone =>
    obtain ⟨g, hg⟩ := hc.rejects (stateAt_mem hat) hterm
    rw [hg] at hnone
    exact nomatch hnone
  | handlerStateLost hat _ hterm hg hnone =>
    obtain ⟨t, b, ht, -⟩ := hc.handlers (handlerAt_mem hg)
    rw [ht] at hnone
    exact nomatch hnone
  | handlerUnbound hat _ hterm hg hat' hall =>
    obtain ⟨t, b, ht, hb, hsource⟩ := hc.handlers (handlerAt_mem hg)
    rw [ht] at hat'
    cases hat'
    exact absurd hsource (hall b hb)
  | bodyBad | thrown | updateBad | terminatorBad | ended | control | fulfilled
  | rejected => exact ⟨fun heq => (nomatch heq), fun heq => nomatch heq⟩

/-- The configuration has what its state needs. -/
def Prepared (plan : IrAsyncPlan T) (c : Config α) : Prop :=
  ∀ s, plan.stateAt c.state = some s → Ready plan s c.frame

theorem resumeValues_of {b : IrAsyncResumeValue T} (h : target.resume = some b) :
    resumeValues target = [b.value] := by
  rw [resumeValues, h]
  rfl

theorem Prepared.step (h : Prepared plan c) (hc : Checked plan live) (hd : Definite plan)
    (hstep : Steps plan c (.next c')) : Prepared plan c' := by
  intro t ht
  cases hstep with
  | control hat hleaves he hcontrol =>
    exact (h _ hat).control hc hd (stateAt_mem hat) hleaves he hcontrol ht
  | fulfilled x hat hleaves hterm =>
    obtain ⟨t', ht', hres⟩ := hc.resumes (stateAt_mem hat) hterm
    have hsame : t' = t := some.inj (ht'.symm.trans ht)
    subst hsame
    obtain ⟨b, hb, hvalue, -⟩ := resumesWith_binds hres
    refine (h _ hat).deliver hc hd (stateAt_mem hat) hleaves (mem_edges_fulfilled hterm) hterm ht
      ?_ (Or.inr rfl) x
    rw [resumeValues_of hb, hvalue]
  | rejected x hat hleaves hterm hg hat' hr =>
    have hsame := some.inj (hat'.symm.trans ht)
    subst hsame
    exact (h _ hat).deliver hc hd (stateAt_mem hat) hleaves (mem_edges_rejected hterm hg) hterm ht
      (resumeValues_of hr) (Or.inl rfl) x

theorem prepared_start (hc : Checked plan live) (hd : Definite plan) (x : IrValueId → α) :
    Prepared plan ⟨plan.entry, .start plan.paramValues x⟩ := by
  intro s hs
  obtain ⟨s', hs', hr⟩ := hc.entry
  have hsame : s' = s := some.inj (hs'.symm.trans hs)
  subst hsame
  refine ⟨fun v hv _ => ?_, fun p hp _ => ⟨x p, if_pos hp, if_pos hp⟩, fun v hv => ?_⟩
  · rw [stateAt_id hs] at hv
    exact absurd hv (hd.entry v)
  · rw [resumeValues, hr] at hv
    exact nomatch hv

theorem Reachable.prepared (h : Reachable plan c) (hc : Checked plan live) (hd : Definite plan) :
    Prepared plan c := by
  induction h with
  | start x => exact prepared_start hc hd x
  | step _ hstep ih => exact ih.step hc hd hstep

/-- A prepared state reads nothing it should not. -/
theorem Prepared.not_bad (h : Prepared plan c) (hc : Checked plan live) (hd : Definite plan)
    (v : IrValueId) : ¬Steps plan c (.bad v) := by
  intro hstep
  cases hstep with
  | bodyBad hat hrun =>
    have hs := stateAt_mem hat
    exact (h _ hat).body hd hs (hc.unique hs) hrun
  | updateBad hat hrun hv hbad =>
    have hs := stateAt_mem hat
    have hsafe := (h _ hat).body hd hs (hc.unique hs) hrun
    exact hbad ((h _ hat).leaving hd hs (hc.unique hs) hsafe (mem_append_left _ hv))
  | @terminatorBad state f _ hat hleaves hv hbad =>
    have hs := stateAt_mem hat
    obtain ⟨hrun, hsources⟩ := hleaves
    have hsafe := (h _ hat).body hd hs (hc.unique hs) hrun
    refine hbad (Frame.readable_update ?_)
    by_cases ht : v ∈ state.updates.map (·.target)
    · exact hsources _ (updatedFrom_mem ht)
    · rw [updatedFrom_of_not_mem ht]
      refine (h _ hat).leaving hd hs (hc.unique hs) hsafe (mem_append_right _ ?_)
      exact mem_filter.mpr ⟨hv, decide_eq_true ht⟩

/-- **Runs of accepted plans.**  In every run of a plan without errors no state or handler is
missing and each suspension resumes where its value is bound; where the plan is definitely
assigned every read finds the value that was produced last. -/
theorem verified_plan_runs (typeEquals : T → T → Bool) (isNumber : T → Bool)
    (plan : IrAsyncPlan T) (fuel : Nat)
    (hverify : verifyIrAsyncPlan typeEquals isNumber plan fuel = some []) :
    (∀ (c : Config α) r, Reachable plan c → Steps plan c r → r ≠ .lost ∧ r ≠ .unbound) ∧
    (Definite plan → ∀ (c : Config α) v, Reachable plan c → ¬Steps plan c (.bad v)) := by
  obtain ⟨live, hc⟩ := checked_of_verify hverify
  constructor
  · exact fun c r hreach hstep => hc.step (hc.placed hreach) hstep
  · exact fun hd c v hreach => (hreach.prepared hc hd).not_bad hc hd v

/-! ### An accepted plan that is not definitely assigned -/

def sampleAbi : IrCanonicalPromiseAbi Bool :=
  ⟨"canonical-promise", 1, some true, "dynamic", "promise-only", "always-async"⟩

/-- A value is defined on one arm of a branch and resolved after both. -/
def joined : IrAsyncPlan Bool where
  schemaVersion := 1
  ownerUnitId := unitIdStart
  kind := "async-function"
  abi := sampleAbi
  entry := 0
  params := [⟨0, true⟩]
  values := [⟨0, true⟩, ⟨1, true⟩]
  spills := []
  states := [⟨0, none, .nil, [], .branch 0 1 2⟩,
    ⟨1, none, .cons (.mk .other (some 1) (some true) [] .nil) .nil, [], .goto 2⟩,
    ⟨2, none, .nil, [], .resolve (some 1)⟩]
  handlers := []
  runtimeIntents := ["promise.capability.create", "promise.settle.fulfill"]

/-- The plan has no error, and a run of it resolves a value that was never defined. -/
theorem joined_reads_undefined :
    verifyIrAsyncPlan (· == ·) (fun _ => false) joined 10 = some [] ∧
      ∃ c : Config Nat, Reachable joined c ∧ Steps joined c (.bad 1) := by
  let f : Frame Nat := .start joined.paramValues fun _ => 7
  have hstart : Leaves ⟨0, none, .nil, [], .branch 0 1 2⟩ f (f.update []) :=
    .mk (T := Bool) .bodyDone fun v hv => nomatch hv
  have hjoin : Leaves ⟨2, none, .nil, [], .resolve (some 1)⟩ (f.update [])
      ((f.update []).update []) := .mk (T := Bool) .bodyDone fun v hv => nomatch hv
  have hundefined : ¬((f.update []).update []).Readable 1 := by
    rintro ⟨x, henv, -⟩
    exact nomatch henv
  have hedge : ⟨2, .control, none⟩ ∈ stateEdges joined ⟨0, none, .nil, [], .branch 0 1 2⟩ :=
    mem_cons_of_mem _ mem_cons_self
  refine ⟨by decide +kernel, ⟨2, f.update []⟩, .step (.start fun _ => 7) ?_, ?_⟩
  · exact .control rfl hstart hedge rfl
  · exact .terminatorBad rfl hjoin mem_cons_self hundefined

/-- A parameter is awaited and what it delivers is resolved. -/
def awaiting : IrAsyncPlan Bool where
  schemaVersion := 1
  ownerUnitId := unitIdStart
  kind := "async-function"
  abi := sampleAbi
  entry := 0
  params := [⟨0, true⟩]
  values := [⟨0, true⟩, ⟨1, true⟩]
  spills := []
  states := [⟨0, none, .nil, [], .suspend 0 1 1 .reject []⟩,
    ⟨1, some ⟨1, true, .fulfilled⟩, .nil, [], .resolve (some 1)⟩]
  handlers := []
  runtimeIntents := ["promise.capability.create", "promise.react", "promise.resolve",
    "promise.settle.fulfill", "promise.settle.reject", "scheduler.drain", "scheduler.enqueue"]

theorem awaiting_states {state : IrAsyncState Bool} (hs : state ∈ awaiting.states) :
    state = ⟨0, none, .nil, [], .suspend 0 1 1 .reject []⟩ ∨
      state = ⟨1, some ⟨1, true, .fulfilled⟩, .nil, [], .resolve (some 1)⟩ := by
  simpa [awaiting] using hs

theorem awaiting_exposed {v : IrValueId} : ¬Exposed awaiting v id := by
  intro h
  induction h with
  | read hat hv =>
    rcases awaiting_states (stateAt_mem hat) with rfl | rfl <;>
      exact absurd hv (Finset.notMem_empty _)
  | flow _ _ _ _ _ ih => exact ih

theorem awaiting_needed {p : IrValueId} (h : ParamNeeded awaiting p id) : p = 0 → id = 0 := by
  induction h with
  | read hat hread =>
    intro hp
    rcases awaiting_states (stateAt_mem hat) with rfl | rfl
    · exact (stateAt_id hat).symm
    · rw [hp] at hread
      exact absurd hread (by decide)
  | flow hat he _ _ =>
    intro _
    rcases awaiting_states (stateAt_mem hat) with rfl | rfl
    · exact (stateAt_id hat).symm
    · exact nomatch he

theorem definite_awaiting : Definite awaiting where
  entry _ := awaiting_exposed
  ordered {s} hs := by
    rcases awaiting_states hs with rfl | rfl <;> rfl
  leaving {s v} hs hv hl := by
    rcases awaiting_states hs with rfl | rfl
    · exact nomatch hl
    · exact hl
  flowing _ _ hw := absurd hw awaiting_exposed
  params {s e p _ _ _ _ declared} hs hterm he hp hneed := by
    have hzero : p = 0 := mem_singleton.mp hp
    have htarget := awaiting_needed hneed hzero
    rcases awaiting_states hs with rfl | rfl
    · rw [mem_singleton.mp he] at htarget
      exact nomatch htarget
    · exact nomatch he

theorem awaiting_runs :
    (∀ (c : Config Nat) r, Reachable awaiting c → Steps awaiting c r → r ≠ .lost ∧ r ≠ .unbound) ∧
      ∀ (c : Config Nat) v, Reachable awaiting c → ¬Steps awaiting c (.bad v) := by
  have h := verified_plan_runs (α := Nat) (· == ·) (fun _ => false) awaiting 10 (by decide)
  exact ⟨h.1, h.2 definite_awaiting⟩

end Js2Wasm.Async
