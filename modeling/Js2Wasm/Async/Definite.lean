import Js2Wasm.Async.VerifySound

/-! # Runs of async plans

A frame holds the value of each identity that is available, and remembers what was produced
for it last.  A body may run its nested buffers in any order, any number of times and only
in part, since a buffer may be left by a break or a throw; a read of a value that is not
available, or is not the last one produced, ends the run as `bad`.

A state ends its body, applies its updates at once and leaves.  While the activation is
suspended only the declared live values survive; the value that is delivered is bound by the
state that is entered.

The verifier compares the declared live sets with those it computes.  It does not ask
whether what is live at the entry was ever defined, in which order the instructions of a
state come, whether a nested buffer that defines a value runs, and it takes the parameters
for defined whenever the entry is entered.  `Definite` says what is missing.

A value is exposed in a state if some path from it leads to a read that no state on the path
defines (`Exposed`).  Every exposed value is in the computed live set (`Exposed.mem_live`).
-/
namespace Js2Wasm.Async
open List

variable {T α : Type}

/-! ### Frames -/

structure Frame (α : Type) where
  env : IrValueId → Option α
  last : IrValueId → Option α

/-- The value is available and is the one that was produced last. -/
def Frame.Readable (f : Frame α) (v : IrValueId) : Prop :=
  ∃ x, f.env v = some x ∧ f.last v = some x

def Frame.define (f : Frame α) (v : IrValueId) (x : α) : Frame α :=
  ⟨Function.update f.env v (some x), Function.update f.last v (some x)⟩

def Frame.defineResult (f : Frame α) (result : Option IrValueId) (x : α) : Frame α :=
  match result with
  | some v => f.define v x
  | none => f

/-- Only `live` survives. -/
def Frame.restrict (f : Frame α) (live : List IrValueId) : Frame α :=
  ⟨fun v => if v ∈ live then f.env v else none, f.last⟩

/-- All updates at once. -/
def Frame.update (f : Frame α) (updates : List IrAsyncSpillUpdate) : Frame α where
  env v := if v ∈ updates.map (·.target) then f.env (updatedFrom updates v) else f.env v
  last v := if v ∈ updates.map (·.target) then f.env (updatedFrom updates v) else f.last v

/-- The frame at the start: the parameters are bound. -/
def Frame.start (params : List IrValueId) (x : IrValueId → α) : Frame α :=
  ⟨fun v => if v ∈ params then some (x v) else none,
    fun v => if v ∈ params then some (x v) else none⟩

/-! ### Bodies -/

inductive Outcome (α : Type) where
  | done (f : Frame α)
  | stopped (f : Frame α)
  | bad (v : IrValueId)

inductive Code (T : Type) where
  | instr (i : IrInstr T)
  | buffers (all : IrBuffers T)
  | body (b : IrBody T)

/-- One of the buffers of an instruction. -/
inductive IrBuffers.Has : IrBuffers T → IrBody T → List IrValueId → Prop
  | here {body exits rest} : Has (.cons body exits rest) body exits
  | there {body exits rest body' exits'} : Has rest body exits →
      Has (.cons body' exits' rest) body exits

inductive Runs : Code T → Frame α → Outcome α → Prop
  | operandBad {kind result type operands buffers f v} : v ∈ operands → ¬f.Readable v →
      Runs (.instr (.mk kind result type operands buffers)) f (.bad v)
  | instrDone {kind result type operands buffers f f'} (x : α) :
      (∀ v ∈ operands, f.Readable v) → Runs (.buffers buffers) f (.done f') →
      Runs (.instr (.mk kind result type operands buffers)) f (.done (f'.defineResult result x))
  | instrStopped {kind result type operands buffers f f'} :
      (∀ v ∈ operands, f.Readable v) → Runs (.buffers buffers) f (.stopped f') →
      Runs (.instr (.mk kind result type operands buffers)) f (.stopped f')
  | instrBad {kind result type operands buffers f v} :
      (∀ v ∈ operands, f.Readable v) → Runs (.buffers buffers) f (.bad v) →
      Runs (.instr (.mk kind result type operands buffers)) f (.bad v)
  | buffersDone {all f} : Runs (.buffers all) f (.done f)
  | bufferDone {all body exits f f' out} : all.Has body exits →
      Runs (.body body) f (.done f') → (∀ v ∈ exits, f'.Readable v) →
      Runs (.buffers all) f' out → Runs (.buffers all) f out
  | exitBad {all body exits f f' v} : all.Has body exits → Runs (.body body) f (.done f') →
      v ∈ exits → ¬f'.Readable v → Runs (.buffers all) f (.bad v)
  | bufferLeft {all body exits f f' out} : all.Has body exits →
      Runs (.body body) f (.stopped f') → Runs (.buffers all) f' out → Runs (.buffers all) f out
  | bufferStopped {all body exits f f'} : all.Has body exits →
      Runs (.body body) f (.stopped f') → Runs (.buffers all) f (.stopped f')
  | bufferBad {all body exits f v} : all.Has body exits → Runs (.body body) f (.bad v) →
      Runs (.buffers all) f (.bad v)
  | bodyDone {f} : Runs (.body .nil) f (.done f)
  | bodyStopped {body f} : Runs (.body body) f (.stopped f)
  | bodyNext {i rest f f' out} : Runs (.instr i) f (.done f') → Runs (.body rest) f' out →
      Runs (.body (.cons i rest)) f out
  | instrLeft {i rest f f'} : Runs (.instr i) f (.stopped f') →
      Runs (.body (.cons i rest)) f (.stopped f')
  | bodyBad {i rest f v} : Runs (.instr i) f (.bad v) → Runs (.body (.cons i rest)) f (.bad v)

/-! ### States -/

structure Config (α : Type) where
  state : IrAsyncStateId
  frame : Frame α

/-- What a state leads to. -/
inductive Result (α : Type) where
  | next (c : Config α)
  | ended
  | bad (v : IrValueId)
  /-- A state or a handler that is not there. -/
  | lost
  /-- The state that is resumed does not bind what is delivered. -/
  | unbound

/-- The frame a resumption begins with. -/
def deliver (f : Frame α) (live : List IrValueId) (v : IrValueId) (x : α) : Frame α :=
  (f.restrict live).define v x

/-- A state runs its body and its updates. -/
inductive Leaves (state : IrAsyncState T) : Frame α → Frame α → Prop
  | mk {f f'} : Runs (.body state.body) f (.done f') →
      (∀ v ∈ updateSources state, f'.Readable v) → Leaves state f (f'.update state.updates)

inductive Steps (plan : IrAsyncPlan T) : Config α → Result α → Prop
  | lost {c} : plan.stateAt c.state = none → Steps plan c .lost
  | bodyBad {c state v} : plan.stateAt c.state = some state →
      Runs (.body state.body) c.frame (.bad v) → Steps plan c (.bad v)
  | thrown {c state f} : plan.stateAt c.state = some state →
      Runs (.body state.body) c.frame (.stopped f) → Steps plan c .ended
  | updateBad {c state f v} : plan.stateAt c.state = some state →
      Runs (.body state.body) c.frame (.done f) → v ∈ updateSources state → ¬f.Readable v →
      Steps plan c (.bad v)
  | terminatorBad {c state f v} : plan.stateAt c.state = some state → Leaves state c.frame f →
      v ∈ terminatorUses state.terminator → ¬f.Readable v → Steps plan c (.bad v)
  | ended {c state f} : plan.stateAt c.state = some state → Leaves state c.frame f →
      (∀ v ∈ terminatorUses state.terminator, f.Readable v) →
      (∀ edge ∈ stateEdges plan state, edge.source ≠ .control) → Steps plan c .ended
  | control {c state f edge} : plan.stateAt c.state = some state → Leaves state c.frame f →
      edge ∈ stateEdges plan state → edge.source = .control →
      Steps plan c (.next ⟨edge.target, f⟩)
  | resumeLost {c state f awaited target value rejected live} :
      plan.stateAt c.state = some state → Leaves state c.frame f →
      state.terminator = .suspend awaited target value rejected live →
      plan.stateAt target = none → Steps plan c .lost
  | resumeUnbound {c state f awaited target value rejected live state'} :
      plan.stateAt c.state = some state → Leaves state c.frame f →
      state.terminator = .suspend awaited target value rejected live →
      plan.stateAt target = some state' →
      (∀ r, state'.resume = some r → r.value ≠ value ∨ r.source ≠ .fulfilled) →
      Steps plan c .unbound
  | fulfilled {c state f awaited target value rejected live} (x : α) :
      plan.stateAt c.state = some state → Leaves state c.frame f →
      state.terminator = .suspend awaited target value rejected live →
      Steps plan c (.next ⟨target, deliver f live value x⟩)
  | handlerLost {c state f awaited target value handler live} :
      plan.stateAt c.state = some state → Leaves state c.frame f →
      state.terminator = .suspend awaited target value (.handler handler) live →
      plan.handlerAt handler = none → Steps plan c .lost
  | handlerStateLost {c state f awaited target value handler live h} :
      plan.stateAt c.state = some state → Leaves state c.frame f →
      state.terminator = .suspend awaited target value (.handler handler) live →
      plan.handlerAt handler = some h → plan.stateAt h.entry = none → Steps plan c .lost
  | handlerUnbound {c state f awaited target value handler live h state'} :
      plan.stateAt c.state = some state → Leaves state c.frame f →
      state.terminator = .suspend awaited target value (.handler handler) live →
      plan.handlerAt handler = some h → plan.stateAt h.entry = some state' →
      (∀ r, state'.resume = some r → r.source ≠ .rejected) → Steps plan c .unbound
  | rejected {c state f awaited target value handler live h state' r} (x : α) :
      plan.stateAt c.state = some state → Leaves state c.frame f →
      state.terminator = .suspend awaited target value (.handler handler) live →
      plan.handlerAt handler = some h → plan.stateAt h.entry = some state' →
      state'.resume = some r →
      Steps plan c (.next ⟨h.entry, deliver f live r.value x⟩)

/-- The configurations of the runs from the entry with the parameters bound. -/
inductive Reachable (plan : IrAsyncPlan T) : Config α → Prop
  | start (x : IrValueId → α) : Reachable plan ⟨plan.entry, .start plan.paramValues x⟩
  | step {c c'} : Reachable plan c → Steps plan c (.next c') → Reachable plan c'

/-! ## Definite assignment -/

variable {plan : IrAsyncPlan T} {live : LiveSets} {id : IrAsyncStateId}
  {state : IrAsyncState T} {v w : IrValueId}

/-! ### Order in a body -/

/-- The state does not define the value, or has defined it. -/
def okAt (defs avail : List IrValueId) (v : IrValueId) : Bool := v ∉ defs || v ∈ avail

mutual

/-- Every read of one of `defs` comes after its definition has surely run, where `avail` have
been defined before. -/
def IrInstr.ordered (defs avail : List IrValueId) : IrInstr T → Bool
  | .mk _ _ _ operands buffers => operands.all (okAt defs avail) && buffers.ordered defs avail

def IrBuffers.ordered (defs avail : List IrValueId) : IrBuffers T → Bool
  | .nil => true
  | .cons body exits rest =>
    body.ordered defs avail && exits.all (okAt defs (body.results ++ avail)) &&
      rest.ordered defs avail

def IrBody.ordered (defs avail : List IrValueId) : IrBody T → Bool
  | .nil => true
  | .cons instr rest =>
    instr.ordered defs avail && rest.ordered defs (instr.result.toList ++ avail)

end

/-! ### Paths -/

def livenessIn (plan : IrAsyncPlan T) (state : IrAsyncState T) : StateLiveness :=
  stateLiveness state (state.id = plan.entry) plan.paramValues

/-- Some path from the state reads the value before any state on it defines it. -/
inductive Exposed (plan : IrAsyncPlan T) : IrValueId → IrAsyncStateId → Prop
  | read {i : IrAsyncStateId} {s : IrAsyncState T} {u : IrValueId} : plan.stateAt i = some s →
      u ∈ (livenessIn plan s).usesBeforeDef → Exposed plan u i
  | flow {i : IrAsyncStateId} {s : IrAsyncState T} {edge : StateEdge} {u : IrValueId} :
      plan.stateAt i = some s → edge ∈ stateEdges plan s → Exposed plan u edge.target →
      some u ≠ edge.boundValue → updatedFrom s.updates u ∉ (livenessIn plan s).defs →
      Exposed plan (updatedFrom s.updates u) i

/-- Everything a state reads. -/
def stateReads (state : IrAsyncState T) : List IrValueId :=
  state.body.deepUses ++ updateSources state ++ terminatorUses state.terminator

/-- Some path from the state reads the parameter. -/
inductive ParamNeeded (plan : IrAsyncPlan T) : IrValueId → IrAsyncStateId → Prop
  | read {i : IrAsyncStateId} {s : IrAsyncState T} {p : IrValueId} : plan.stateAt i = some s →
      p ∈ stateReads s → ParamNeeded plan p i
  | flow {i : IrAsyncStateId} {s : IrAsyncState T} {edge : StateEdge} {p : IrValueId} :
      plan.stateAt i = some s → edge ∈ stateEdges plan s → ParamNeeded plan p edge.target →
      ParamNeeded plan p i

/-- The values a state has defined when its body has run. -/
def surely (state : IrAsyncState T) : List IrValueId := resumeValues state ++ state.body.results

/-- What a state reads when its body has run. -/
def leavingReads (state : IrAsyncState T) : List IrValueId :=
  updateSources state ++ (terminatorUses state.terminator).filter (· ∉ updateTargets state)

/-- No path reads what was not defined on it. -/
structure Definite (plan : IrAsyncPlan T) : Prop where
  entry : ∀ v, ¬Exposed plan v plan.entry
  ordered : ∀ {s : IrAsyncState T}, s ∈ plan.states →
    s.body.ordered (localDefs s) (resumeValues s) = true
  leaving : ∀ {s : IrAsyncState T} {v : IrValueId}, s ∈ plan.states → v ∈ leavingReads s →
    v ∈ localDefs s → v ∈ surely s
  flowing : ∀ {s : IrAsyncState T} {e : StateEdge} {w : IrValueId}, s ∈ plan.states →
    e ∈ stateEdges plan s → Exposed plan w e.target → some w ≠ e.boundValue →
    updatedFrom s.updates w ∈ localDefs s → updatedFrom s.updates w ∈ surely s
  params : ∀ {s : IrAsyncState T} {e : StateEdge} {p awaited : IrValueId}
    {next : IrAsyncStateId} {value : IrValueId} {rejected : Rejected}
    {declared : List IrValueId}, s ∈ plan.states →
    s.terminator = .suspend awaited next value rejected declared → e ∈ stateEdges plan s →
    p ∈ plan.paramValues → ParamNeeded plan p e.target → p ∈ declared

/-- Exposed values are in the live sets the verifier computes. -/
theorem Exposed.mem_live (hc : Checked plan live) (h : Exposed plan v id) : v ∈ live id := by
  induction h with
  | read hat hv =>
    have hs := stateAt_mem hat
    obtain rfl := stateAt_id hat
    rw [← hc.solved hs, nextLive, hc.livenessOf hs]
    exact Finset.mem_union_left _ hv
  | @flow _ _ edge _ hat he _ hb hd ih =>
    have hs := stateAt_mem hat
    obtain rfl := stateAt_id hat
    rw [← hc.solved hs, nextLive, hc.livenessOf hs]
    refine Finset.mem_union_right _ (Finset.mem_sdiff.mpr ⟨?_, hd⟩)
    refine Finset.mem_biUnion.mpr ⟨edge, mem_toFinset.mpr he, ?_⟩
    exact Finset.mem_image_of_mem _ (Finset.mem_filter.mpr ⟨ih, hb⟩)

/-! ### Frames -/

/-- What one frame can read the other can. -/
def Frame.Le (f f' : Frame α) : Prop := ∀ v, f.Readable v → f'.Readable v

variable {f f' f'' : Frame α} {x : α} {us : List IrAsyncSpillUpdate}

theorem Frame.Le.refl (f : Frame α) : f.Le f := fun _ h => h

theorem Frame.Le.trans (h : f.Le f') (h' : f'.Le f'') : f.Le f'' := fun v hv => h' v (h v hv)

theorem Frame.readable_define (f : Frame α) (v : IrValueId) (x : α) : (f.define v x).Readable v :=
  ⟨x, Function.update_self .., Function.update_self ..⟩

theorem Frame.le_define (f : Frame α) (v : IrValueId) (x : α) : f.Le (f.define v x) := by
  intro w hw
  by_cases hwv : w = v
  · subst hwv
    exact f.readable_define w x
  · obtain ⟨y, henv, hlast⟩ := hw
    refine ⟨y, ?_, ?_⟩
    · rw [← henv]
      exact Function.update_of_ne hwv ..
    · rw [← hlast]
      exact Function.update_of_ne hwv ..

theorem Frame.le_defineResult (f : Frame α) (result : Option IrValueId) (x : α) :
    f.Le (f.defineResult result x) := by
  cases result with
  | none => exact .refl f
  | some v => exact f.le_define v x

variable {operands defs avail : List IrValueId} {out : Outcome α} {kind : InstrKind}
    {result : Option IrValueId} {type : Option T} {buffers : IrBuffers T}

theorem Frame.readable_defineResult (hv : v ∈ result.toList) :
    (f.defineResult result x).Readable v := by
  cases result with
  | none => exact nomatch hv
  | some w =>
    rw [mem_singleton.mp hv]
    exact f.readable_define w x

theorem Frame.readable_restrict {declared : List IrValueId} (hv : v ∈ declared)
    (h : f.Readable v) : (f.restrict declared).Readable v := by
  obtain ⟨y, henv, hlast⟩ := h
  exact ⟨y, (if_pos hv).trans henv, hlast⟩

theorem updatedFrom_of_not_mem (h : v ∉ us.map (·.target)) : updatedFrom us v = v := by
  rw [updatedFrom, find?_eq_none.mpr]
  intro u hu hd
  exact h (of_decide_eq_true hd ▸ mem_map_of_mem (mem_reverse.mp hu))

theorem updatedFrom_mem (h : v ∈ us.map (·.target)) : updatedFrom us v ∈ us.map (·.value) := by
  rw [updatedFrom]
  cases hf : us.reverse.find? fun u => u.target = v with
  | some u => exact mem_map_of_mem (mem_reverse.mp (mem_of_find?_eq_some hf))
  | none =>
    obtain ⟨u, hu, hut⟩ := mem_map.mp h
    exact absurd (decide_eq_true hut) (find?_eq_none.mp hf u (mem_reverse.mpr hu))

/-- After the updates a value is what its source was. -/
theorem Frame.readable_update (h : f.Readable (updatedFrom us v)) : (f.update us).Readable v := by
  obtain ⟨y, henv, hlast⟩ := h
  by_cases hv : v ∈ us.map (·.target)
  · exact ⟨y, (if_pos hv).trans henv, (if_pos hv).trans henv⟩
  · rw [updatedFrom_of_not_mem hv] at henv hlast
    exact ⟨y, (if_neg hv).trans henv, (if_neg hv).trans hlast⟩

/-! ### Bodies -/

def Code.deepUses : Code T → List IrValueId
  | .instr i => i.deepUses
  | .buffers all => all.exits ++ all.deepUses
  | .body b => b.deepUses

def Code.results : Code T → List IrValueId
  | .instr i => i.result.toList
  | .buffers _ => []
  | .body b => b.results

def Code.ordered (defs avail : List IrValueId) : Code T → Bool
  | .instr i => i.ordered defs avail
  | .buffers all => all.ordered defs avail
  | .body b => b.ordered defs avail

/-- The run reads nothing it should not, loses nothing, and defines `results` if it ends. -/
def Outcome.Safe (f : Frame α) (results : List IrValueId) : Outcome α → Prop
  | .done f' => f.Le f' ∧ ∀ v ∈ results, f'.Readable v
  | .stopped f' => f.Le f'
  | .bad _ => False

theorem Outcome.Safe.of_le {results : List IrValueId} (hle : f.Le f') (h : out.Safe f' results) :
    out.Safe f results := by
  cases out with
  | done f'' => exact ⟨hle.trans h.1, h.2⟩
  | stopped f'' => exact hle.trans h
  | bad v => exact h

theorem IrBuffers.Has.spec {all : IrBuffers T} {body : IrBody T} {exits : List IrValueId}
    (h : all.Has body exits) (ho : all.ordered defs avail = true) :
    body.ordered defs avail = true ∧
      (∀ v ∈ exits, okAt defs (body.results ++ avail) v = true) ∧
      (∀ v ∈ body.deepUses, v ∈ all.deepUses) ∧ ∀ v ∈ exits, v ∈ all.exits := by
  induction h with
  | here =>
    rw [IrBuffers.ordered, Bool.and_eq_true, Bool.and_eq_true] at ho
    obtain ⟨⟨hbody, hexits⟩, -⟩ := ho
    refine ⟨hbody, all_eq_true.mp hexits, fun v hv => ?_, fun v hv => ?_⟩
    · rw [IrBuffers.deepUses]
      exact mem_append_left _ hv
    · rw [IrBuffers.exits]
      exact mem_append_left _ hv
  | there _ ih =>
    rw [IrBuffers.ordered, Bool.and_eq_true, Bool.and_eq_true] at ho
    obtain ⟨hbody, hexits, huses, hex⟩ := ih ho.2
    refine ⟨hbody, hexits, fun v hv => ?_, fun v hv => ?_⟩
    · rw [IrBuffers.deepUses]
      exact mem_append_right _ (huses v hv)
    · rw [IrBuffers.exits]
      exact mem_append_right _ (hex v hv)

theorem readable_of_okAt (hok : okAt defs avail v = true) (houter : v ∉ defs → f.Readable v)
    (havail : ∀ v ∈ avail, f.Readable v) : f.Readable v := by
  rw [okAt, Bool.or_eq_true] at hok
  rcases hok with hnot | hmem
  · exact houter (of_decide_eq_true hnot)
  · exact havail v (of_decide_eq_true hmem)

theorem mem_deepUses_operands (h : v ∈ operands) :
    v ∈ (Code.instr (.mk kind result type operands buffers)).deepUses := by
  rw [Code.deepUses, IrInstr.deepUses]
  exact mem_append_left _ (mem_append_left _ h)

theorem mem_deepUses_buffers (h : v ∈ (Code.buffers buffers).deepUses) :
    v ∈ (Code.instr (.mk kind result type operands buffers)).deepUses := by
  rw [Code.deepUses, IrInstr.deepUses, append_assoc]
  exact mem_append_right _ h

/-- An ordered body reads only what is available. -/
theorem Runs.safe {code : Code T} (h : Runs code f out) :
    ∀ {avail : List IrValueId}, code.ordered defs avail = true →
    (∀ v ∈ code.deepUses, v ∉ defs → f.Readable v) → (∀ v ∈ avail, f.Readable v) →
    out.Safe f code.results := by
  induction h with
  | @operandBad kind result type operands buffers f v hv hbad =>
    intro avail ho houter havail
    rw [Code.ordered, IrInstr.ordered, Bool.and_eq_true] at ho
    refine hbad (readable_of_okAt (all_eq_true.mp ho.1 v hv) ?_ havail)
    exact houter v (mem_deepUses_operands hv)
  | @instrDone kind result type operands buffers f f' x _ _ ih =>
    intro avail ho houter havail
    rw [Code.ordered, IrInstr.ordered, Bool.and_eq_true] at ho
    have hbuf := ih ho.2 (fun v hv => houter v (mem_deepUses_buffers hv)) havail
    exact ⟨hbuf.1.trans (f'.le_defineResult result x), fun v hv => Frame.readable_defineResult hv⟩
  | instrStopped _ _ ih | instrBad _ _ ih =>
    intro avail ho houter havail
    rw [Code.ordered, IrInstr.ordered, Bool.and_eq_true] at ho
    exact ih ho.2 (fun v hv => houter v (mem_deepUses_buffers hv)) havail
  | @buffersDone all f | @bodyDone f =>
    intro avail _ _ _
    exact ⟨.refl f, fun v hv => nomatch hv⟩
  | @bufferDone all body exits f f' out hhas _ _ _ ih1 ih2 =>
    intro avail ho houter havail
    obtain ⟨hbody, -, huses, -⟩ := hhas.spec ho
    have h1 := ih1 hbody
      (fun v hv => houter v (mem_append_right _ (huses v hv))) havail
    exact (ih2 ho (fun v hv hd => h1.1 v (houter v hv hd))
      fun v hv => h1.1 v (havail v hv)).of_le h1.1
  | @exitBad all body exits f f' v hhas _ hv hbad ih =>
    intro avail ho houter havail
    obtain ⟨hbody, hexits, huses, hex⟩ := hhas.spec ho
    have h1 := ih hbody (fun v hv => houter v (mem_append_right _ (huses v hv))) havail
    refine hbad (readable_of_okAt (hexits v hv) (fun hd => ?_) fun w hw => ?_)
    · exact h1.1 v (houter v (mem_append_left _ (hex v hv)) hd)
    · rcases mem_append.mp hw with hres | hav
      · exact h1.2 w hres
      · exact h1.1 w (havail w hav)
  | @bufferLeft all body exits f f' out hhas _ _ ih1 ih2 =>
    intro avail ho houter havail
    obtain ⟨hbody, -, huses, -⟩ := hhas.spec ho
    have h1 : f.Le f' := ih1 hbody
      (fun v hv => houter v (mem_append_right _ (huses v hv))) havail
    exact (ih2 ho (fun v hv hd => h1 v (houter v hv hd))
      fun v hv => h1 v (havail v hv)).of_le h1
  | bufferStopped hhas _ ih | bufferBad hhas _ ih =>
    intro avail ho houter havail
    obtain ⟨hbody, -, huses, -⟩ := hhas.spec ho
    exact ih hbody (fun v hv => houter v (mem_append_right _ (huses v hv))) havail
  | @bodyStopped body f =>
    intro avail _ _ _
    exact .refl f
  | @bodyNext i rest f f' out _ _ ih1 ih2 =>
    intro avail ho houter havail
    rw [Code.ordered, IrBody.ordered, Bool.and_eq_true] at ho
    rw [Code.deepUses, IrBody.deepUses] at houter
    have h1 := ih1 ho.1 (fun v hv => houter v (mem_append_left _ hv)) havail
    have h2 := ih2 ho.2 (fun v hv hd => h1.1 v (houter v (mem_append_right _ hv) hd)) (by
      intro v hv
      rcases mem_append.mp hv with hres | hav
      · exact h1.2 v hres
      · exact h1.1 v (havail v hav))
    cases out with
    | done f'' =>
      refine ⟨h1.1.trans h2.1, fun v hv => ?_⟩
      rw [Code.results, IrBody.results, IrBody.instrs, filterMap_cons] at hv
      cases hr : i.result with
      | none =>
        rw [hr] at hv
        exact h2.2 v hv
      | some r =>
        rw [hr] at hv
        rcases mem_cons.mp hv with rfl | hv
        · refine h2.1 v (h1.2 v ?_)
          rw [Code.results, hr]
          exact mem_singleton.mpr rfl
        · exact h2.2 v hv
    | stopped f'' => exact h1.1.trans h2
    | bad v => exact h2
  | instrLeft _ ih | bodyBad _ ih =>
    intro avail ho houter havail
    rw [Code.ordered, IrBody.ordered, Bool.and_eq_true] at ho
    rw [Code.deepUses, IrBody.deepUses] at houter
    exact ih ho.1 (fun v hv => houter v (mem_append_left _ hv)) havail

end Js2Wasm.Async
