import Js2Wasm.Async.Plan

/-! # The verifier of async plans

`verifyIrAsyncPlan` collects the errors of a plan in the order of the source.  The walk over
untyped data that comes first there (`verifyPureData`) finds nothing in a plan of these
types and is left out.

The live sets are solved by rounds over the states, the last state first, until a round
changes nothing; `fuel` bounds the number of rounds.
-/
namespace Js2Wasm.Async

/-- The invariants of a plan. -/
inductive IrAsyncPlanInvariantCode where
  | invalidOwner
  | invalidAbi
  | duplicateValue
  | unknownValue
  | valueTypeMismatch
  | missingValueDefinition
  | duplicateValueDefinition
  | duplicateSpill
  | missingSpill
  | unusedSpill
  | unknownSpillUpdate
  | duplicateSpillUpdate
  | spillUpdateTypeMismatch
  | invalidSpillUpdate
  | duplicateState
  | unknownState
  | unreachableState
  | invalidResume
  | unloweredAsyncControl
  | duplicateHandler
  | unknownHandler
  | handlerCycle
  | invalidHandler
  | unknownRuntimeIntent
  | duplicateRuntimeIntent
  | missingRuntimeIntent
  | livenessMismatch
deriving DecidableEq

/-- A violated invariant, and the state it is about. -/
structure IrAsyncPlanVerifyError where
  code : IrAsyncPlanInvariantCode
  message : String
  state : Option IrAsyncStateId
deriving DecidableEq

abbrev Errors := List IrAsyncPlanVerifyError

/-- An error where the check fails. -/
def check (ok : Bool) (code : IrAsyncPlanInvariantCode) (message : String)
    (state : Option IrAsyncStateId) : Errors := if ok then [] else [⟨code, message, state⟩]

theorem check_eq_nil {ok : Bool} {code : IrAsyncPlanInvariantCode} {message : String}
    {state : Option IrAsyncStateId} : check ok code message state = [] ↔ ok = true := by
  rw [check]
  cases ok with
  | true => exact iff_of_true rfl rfl
  | false => exact iff_of_false (List.cons_ne_nil _ _) Bool.false_ne_true

/-- The members of a list in the order in which they first occur. -/
def firsts {α : Type} [DecidableEq α] (l : List α) : List α := l.reverse.dedup.reverse

/-- `isNonNegativeSafeInteger`. -/
def isNonNegativeSafeInteger (value : Int) : Bool := 0 ≤ value && value ≤ 9007199254740991

/-- The members of a set in ascending order. -/
def ascending (values : Finset IrValueId) : List IrValueId :=
  (List.range (values.sup id + 1)).filter (· ∈ values)

/-- The values in error texts. -/
def describeValues (values : Finset IrValueId) : String :=
  "[" ++ String.intercalate ", " ((ascending values).map toString) ++ "]"

variable {T : Type}

section
variable (typeEquals : T → T → Bool) (isNumber : T → Bool) (plan : IrAsyncPlan T)

/-- `values.get`. -/
def valueType (value : IrValueId) : Option T :=
  (plan.values.find? fun entry => entry.value = value).map (·.type)

/-- The value is declared. -/
def checkValue (value : IrValueId) (owner : String) (state : Option IrAsyncStateId) : Errors :=
  check (valueType plan value).isSome .unknownValue
    s!"{owner} references undeclared value {value}" state

/-- The value has the type, or no type is known. -/
def typeMatches (value : IrValueId) (type : T) : Bool :=
  (valueType plan value).all fun t => typeEquals t type

/-- `define`, after the definitions `seen`. -/
def define (seen : List (IrValueId × String)) (value : IrValueId) (owner : String) : Errors :=
  match seen.find? fun d => d.1 = value with
  | some d => [⟨.duplicateValueDefinition, s!"value {value} is defined by {d.2} and {owner}", none⟩]
  | none => []

/-! ### Declarations -/

/-- There is one canonical ABI. -/
def verifyCanonicalPromiseAbi : Errors :=
  check (plan.abi.kind == "canonical-promise" && plan.abi.version == 1 &&
      plan.abi.rejectionType == "dynamic" && plan.abi.consumerContract == "promise-only" &&
      plan.abi.settlementTiming == "always-async") .invalidAbi
    "async functions must expose canonical Promise ABI v1 with always-async settlement" none

/-- What a structural unit id begins with. -/
def unitIdStart : List Char := ['i', 'r', '-', 'u', 'n', 'i', 't', ':', 'v', '1', ':']

def verifyHeader : Errors :=
  check (plan.schemaVersion == 1 && plan.kind == "async-function") .invalidAbi
      "unsupported async-plan schema or callable kind" none ++
    check (unitIdStart.isPrefixOf plan.ownerUnitId) .invalidOwner
      "ownerUnitId must be a structural IrUnitId" none ++
    verifyCanonicalPromiseAbi plan

/-- No value is declared twice. -/
def verifyValues : List IrValueId → List IrValueId → Errors
  | _, [] => []
  | seen, v :: vs =>
    check (v ∉ seen) .duplicateValue s!"value {v} is declared more than once" none ++
      verifyValues (v :: seen) vs

/-- Parameters are declared values. -/
def verifyParams : List (IrValueId × String) → List (IrAsyncPlanValue T) → Errors
  | _, [] => []
  | seen, p :: ps =>
    checkValue plan p.value "parameter" none ++
      check (typeMatches typeEquals plan p.value p.type) .valueTypeMismatch
        s!"parameter {p.value} type does not match the value table" none ++
      define seen p.value "parameter" ++ verifyParams (seen ++ [(p.value, "parameter")]) ps

/-- Handler ids are integers from 0 on, each declared once. -/
def verifyHandlerIds : List IrAsyncHandlerId → List IrAsyncHandlerId → Errors
  | _, [] => []
  | seen, h :: hs =>
    check (isNonNegativeSafeInteger h) .unknownHandler s!"handler id {h} is invalid" none ++
      check (h ∉ seen) .duplicateHandler s!"handler {h} is declared more than once" none ++
      verifyHandlerIds (h :: seen) hs

def verifyStateIds : List IrAsyncStateId → List IrAsyncStateId → Errors
  | _, [] => []
  | seen, s :: ss =>
    check (isNonNegativeSafeInteger s) .unknownState s!"state id {s} is invalid" none ++
      check (s ∉ seen) .duplicateState s!"state {s} is declared more than once" none ++
      verifyStateIds (s :: seen) ss

/-- The entry binds no delivered value. -/
def verifyEntry : Errors :=
  check (plan.stateAt plan.entry).isSome .unknownState
      s!"entry state {plan.entry} is not declared" none ++
    check (((plan.stateAt plan.entry).bind (·.resume)).isNone) .invalidResume
      s!"entry state {plan.entry} cannot bind a resume value" (some plan.entry)

/-! ### States -/

/-- The visits of an instruction, after the definitions `seen`. -/
def verifyVisits (id : IrAsyncStateId) : List (IrValueId × String) → List (Visited T) → Errors
  | _, [] => []
  | seen, n :: ns =>
    check (n.kind == .other) .unloweredAsyncControl
        s!"state {id} contains {n.kind.text}; async control must be represented by a plan terminator"
        (some id) ++
      match n.result with
      | none => verifyVisits id seen ns
      | some result =>
        checkValue plan result s!"state {id} result" (some id) ++
          check (n.resultType.all fun t => typeMatches typeEquals plan result t) .valueTypeMismatch
            s!"state {id} result {result} type does not match the value table" (some id) ++
          define seen result s!"state {id} body" ++
          verifyVisits id (seen ++ [(result, s!"state {id} body")]) ns

/-- What a body defines, with the owner in error texts. -/
def bodyDefs (id : IrAsyncStateId) (instrs : List (IrInstr T)) : List (IrValueId × String) :=
  (instrs.flatMap IrInstr.visited).filterMap fun n => n.result.map (·, s!"state {id} body")

def verifyInstrs (id : IrAsyncStateId) :
    List (IrValueId × String) → List (IrInstr T) → Errors
  | _, [] => []
  | seen, instr :: instrs =>
    instr.deepUses.flatMap (fun use => checkValue plan use s!"state {id} body" (some id)) ++
      verifyVisits typeEquals plan id seen instr.visited ++
      verifyInstrs id (seen ++ bodyDefs id [instr]) instrs

def resumeDefs (state : IrAsyncState T) : List (IrValueId × String) :=
  (resumeValues state).map (·, s!"state {state.id} resume")

/-- The bound value has its declared type. -/
def verifyResume (seen : List (IrValueId × String)) (state : IrAsyncState T) : Errors :=
  match state.resume with
  | none => []
  | some r =>
    checkValue plan r.value s!"state {state.id} resume" (some state.id) ++
      check (typeMatches typeEquals plan r.value r.type) .valueTypeMismatch
        s!"state {state.id} resume type does not match value {r.value}" (some state.id) ++
      define seen r.value s!"state {state.id} resume"

/-- The state binds the value that is delivered. -/
def resumesWith (target : IrAsyncState T) (value : IrValueId) : Bool :=
  target.resume.any fun r => r.value == value && r.source == .fulfilled

/-- Targets bind what is delivered; a resolved value has the type of the ABI. -/
def verifyTerminator (state : IrAsyncState T) : Errors :=
  match state.terminator with
  | .suspend _ resumeState resumeValue rejected _ =>
    checkValue plan resumeValue s!"state {state.id} resume edge" (some state.id) ++
      (match plan.stateAt resumeState with
      | none =>
        [⟨.unknownState, s!"state {state.id} resumes at unknown state {resumeState}",
          some state.id⟩]
      | some target =>
        check (resumesWith target resumeValue) .invalidResume
          s!"state {state.id} resume edge does not match state {target.id}'s resume binding"
          (some state.id)) ++
      match rejected with
      | .handler handler =>
        check (plan.handlerAt handler).isSome .unknownHandler
          s!"state {state.id} rejects to unknown handler {handler}" (some state.id)
      | .reject => []
  | .resolve value =>
    match value, plan.abi.fulfillmentType with
    | none, none => []
    | some v, some t =>
      check (typeMatches typeEquals plan v t) .valueTypeMismatch
        s!"state {state.id} resolve type does not match its Promise ABI" (some state.id)
    | _, _ =>
      [⟨.valueTypeMismatch, s!"state {state.id} resolve arity does not match its Promise ABI",
        some state.id⟩]
  | _ => []

/-- One state, after the definitions `seen`. -/
def verifyState (seen : List (IrValueId × String)) (state : IrAsyncState T) : Errors :=
  verifyResume typeEquals plan seen state ++
    verifyInstrs typeEquals plan state.id (seen ++ resumeDefs state) state.body.instrs ++
    (terminatorUses state.terminator).flatMap
      (fun use => checkValue plan use s!"state {state.id} terminator" (some state.id)) ++
    verifyTerminator typeEquals plan state ++
    (stateEdges plan state).flatMap fun edge =>
      check (plan.stateAt edge.target).isSome .unknownState
        s!"state {state.id} targets unknown state {edge.target}" (some state.id)

def stateDefs (state : IrAsyncState T) : List (IrValueId × String) :=
  resumeDefs state ++ bodyDefs state.id state.body.instrs

def verifyStates : List (IrValueId × String) → List (IrAsyncState T) → Errors
  | _, [] => []
  | seen, state :: states =>
    verifyState typeEquals plan seen state ++ verifyStates (seen ++ stateDefs state) states

def paramDefs : List (IrValueId × String) := plan.paramValues.map (·, "parameter")

/-- Every declared value is defined. -/
def verifyDefinitions : Errors :=
  let defs := (paramDefs plan ++ plan.states.flatMap stateDefs).map (·.1)
  (firsts (plan.values.map (·.value))).flatMap fun v =>
    check (v ∈ defs) .missingValueDefinition
      s!"value {v} has no parameter, resume, or instruction definition" none

/-! ### Handlers and resume edges -/

/-- The walk over the parents of a handler: it comes back to one it has seen. -/
def handlerCycles : Nat → List IrAsyncHandlerId → IrAsyncHandler → Bool
  | 0, _, _ => false
  | fuel + 1, visited, cursor =>
    match cursor.parent with
    | none => false
    | some parent =>
      if cursor.id ∈ visited then true
      else
        match plan.handlerAt parent with
        | none => false
        | some next => handlerCycles fuel (cursor.id :: visited) next

/-- A handler enters a state that binds a rejection. -/
def verifyHandler (handler : IrAsyncHandler) : Errors :=
  (match plan.stateAt handler.entry with
    | none =>
      [⟨.unknownState, s!"handler {handler.id} targets unknown state {handler.entry}", none⟩]
    | some state =>
      check (state.resume.any (·.source == .rejected)) .invalidHandler
        s!"catch handler {handler.id} must enter a rejected-value state" none) ++
    (match handler.parent with
    | none => []
    | some parent =>
      check (plan.handlerAt parent).isSome .unknownHandler
        s!"handler {handler.id} has unknown parent {parent}" none) ++
    check (!handlerCycles plan (plan.handlers.length + 1) [] handler) .handlerCycle
      s!"handler {handler.id} participates in a parent cycle" none

/-- The edge delivers what the state binds. -/
def edgeMatches (resume : IrAsyncResumeValue T) (edge : StateEdge) : Bool :=
  edge.source == resume.source.toEdge &&
    (edge.source != .fulfilled || edge.boundValue == some resume.value)

/-- All edges to a state deliver what it binds. -/
def verifyResumeIncomingEdges : Errors :=
  plan.states.flatMap fun state =>
    match state.resume with
    | none => []
    | some resume =>
      ((plan.states.flatMap (stateEdges plan)).filter (·.target = state.id)).flatMap fun edge =>
        check (edgeMatches resume edge) .invalidResume
          s!"state {state.id} resume binding is reachable from an incompatible {edge.source.text} edge"
          (some state.id)

/-! ### Spills -/

/-- The type of a frame spill. -/
def spillType (value : IrValueId) : Option T :=
  (plan.spills.find? fun spill => spill.value = value).map (·.type)

/-- Spills are declared values, each once. -/
def verifySpills : List IrValueId → List (IrAsyncSpill T) → Errors
  | _, [] => []
  | seen, spill :: spills =>
    check (spill.value ∉ seen) .duplicateSpill
        s!"value {spill.value} has duplicate spill entries" none ++
      checkValue plan spill.value "spill" none ++
      check (typeMatches typeEquals plan spill.value spill.type) .valueTypeMismatch
        s!"spill {spill.value} type does not match the value table" none ++
      verifySpills (spill.value :: seen) spills

/-- Updates of one state happen at the same time. -/
def verifyUpdates (state : IrAsyncState T) :
    List IrValueId → List IrAsyncSpillUpdate → Errors
  | _, [] => []
  | seen, u :: us =>
    checkValue plan u.value s!"state {state.id} spill update" (some state.id) ++
      check (spillType plan u.target).isSome .unknownSpillUpdate
        s!"state {state.id} updates value {u.target}, which is not a frame spill"
        (some state.id) ++
      check (u.target ∉ seen) .duplicateSpillUpdate
        s!"state {state.id} updates spill {u.target} more than once" (some state.id) ++
      check (u.target ∉ plan.paramValues) .invalidSpillUpdate
        s!"state {state.id} updates parameter spill {u.target}; immutable parameter carriers cannot be phi targets"
        (some state.id) ++
      check (u.value ∉ updateTargets state) .invalidSpillUpdate
        s!"state {state.id} update for spill {u.target} depends on simultaneously updated spill {u.value}"
        (some state.id) ++
      check (((valueType plan u.target).all fun t =>
          (valueType plan u.value).all fun s => typeEquals t s)) .spillUpdateTypeMismatch
        s!"state {state.id} update source {u.value} does not match spill {u.target}"
        (some state.id) ++
      verifyUpdates state (u.target :: seen) us

def verifySpillUpdates : Errors :=
  plan.states.flatMap fun state => verifyUpdates typeEquals plan state [] state.updates

/-! ### Live sets -/

/-- The live sets by state; a state without one has none. -/
abbrev LiveSets := IrAsyncStateId → Finset IrValueId

/-- `livenessByState.get`: of states with one id the last is kept. -/
def livenessOf (id : IrAsyncStateId) : StateLiveness :=
  match plan.states.reverse.find? fun s => s.id = id with
  | some s => stateLiveness s (s.id = plan.entry) plan.paramValues
  | none => ⟨∅, ∅⟩

/-- What is live where the state is left. -/
def liveOut (live : LiveSets) (state : IrAsyncState T) : Finset IrValueId :=
  (stateEdges plan state).toFinset.biUnion fun edge =>
    ((live edge.target).filter fun v => some v ≠ edge.boundValue).image
      (updatedFrom state.updates)

/-- The equation of liveness. -/
def nextLive (live : LiveSets) (state : IrAsyncState T) : Finset IrValueId :=
  (livenessOf plan state.id).usesBeforeDef ∪
    (liveOut plan live state \ (livenessOf plan state.id).defs)

def setLive (live : LiveSets) (id : IrAsyncStateId) (values : Finset IrValueId) : LiveSets :=
  fun i => if i = id then values else live i

/-- One round over the states. -/
def liveRound : List (IrAsyncState T) → LiveSets × Bool → LiveSets × Bool
  | [], r => r
  | state :: states, (live, changed) =>
    if nextLive plan live state = live state.id then liveRound states (live, changed)
    else liveRound states (setLive live state.id (nextLive plan live state), true)

/-- Rounds until nothing changes. -/
def solveLive : Nat → LiveSets → Option LiveSets
  | 0, _ => none
  | fuel + 1, live =>
    let r := liveRound plan plan.states.reverse (live, false)
    if r.2 then solveLive fuel r.1 else some r.1

/-- The sets to begin with. -/
def initialLive : LiveSets := fun id =>
  if (plan.stateAt id).isSome then (livenessOf plan id).usesBeforeDef else ∅

/-- What must survive a suspension. -/
def expectedLive (live : LiveSets) (state : IrAsyncState T) : Finset IrValueId :=
  (stateEdges plan state).toFinset.biUnion fun edge =>
    (live edge.target).filter fun v => some v ≠ edge.boundValue

/-- The declared live set is the solved one. -/
def verifyLive (live : LiveSets) (state : IrAsyncState T) : Errors :=
  match state.terminator with
  | .suspend _ _ _ _ declared =>
    check (declared.toFinset.card = declared.length) .livenessMismatch
        s!"state {state.id} declares duplicate live values" (some state.id) ++
      (firsts declared).flatMap
        (fun v => checkValue plan v s!"state {state.id} liveness" (some state.id)) ++
      check (expectedLive plan live state = declared.toFinset) .livenessMismatch
        s!"state {state.id} live set {describeValues declared.toFinset} must equal {describeValues (expectedLive plan live state)}"
        (some state.id)
  | _ => []

/-- The values that are live across a suspension. -/
def requiredSpills (live : LiveSets) : Finset IrValueId :=
  (plan.states.map fun state =>
    match state.terminator with
    | .suspend _ _ _ _ _ => expectedLive plan live state
    | _ => ∅).foldl (· ∪ ·) ∅

/-- The missing spills are listed in ascending order. -/
def verifyRequiredSpills (live : LiveSets) : Errors :=
  (ascending (requiredSpills plan live)).flatMap (fun v =>
      check (spillType plan v).isSome .missingSpill s!"live value {v} has no frame spill" none) ++
    (firsts (plan.spills.map (·.value))).flatMap fun v =>
      check (v ∈ requiredSpills plan live) .unusedSpill
        s!"spill value {v} is never live across suspension" none

/-! ### Reachability and intents -/

/-- The states that `work` leads to, besides those `reachable`. -/
def reach : Nat → Finset IrAsyncStateId → List IrAsyncStateId → Finset IrAsyncStateId
  | 0, reachable, _ => reachable
  | _ + 1, reachable, [] => reachable
  | fuel + 1, reachable, id :: work =>
    if id ∈ reachable then reach fuel reachable work
    else
      match plan.stateAt id with
      | none => reach fuel (insert id reachable) work
      | some state =>
        reach fuel (insert id reachable) (((stateEdges plan state).map (·.target)).reverse ++ work)

/-- The entry leads to every state. -/
def verifyReachable : Errors :=
  if (plan.stateAt plan.entry).isSome then
    let reachable := reach plan (4 * plan.states.length + 2) ∅ [plan.entry]
    plan.states.flatMap fun state =>
      check (state.id ∈ reachable) .unreachableState s!"state {state.id} is unreachable"
        (some state.id)
  else []

/-- `ASYNC_RUNTIME_FEATURES` and `ASYNC_OPTIONAL_RUNTIME_FEATURES`. -/
def asyncRuntimeFeatures : List String :=
  ["promise.capability.create", "promise.react", "promise.resolve", "promise.settle.fulfill",
    "promise.settle.reject", "scheduler.drain", "scheduler.enqueue", "value.undefined",
    "promise.number.bridge"]

/-- The intents that the terminators need. -/
def requiredRuntimeIntents : List String :=
  firsts (["promise.capability.create"] ++
    (if plan.abi.fulfillmentType.isNone then ["value.undefined"] else []) ++
    plan.states.flatMap fun state =>
      match state.terminator with
      | .suspend awaited _ _ rejected _ =>
        (if plan.values.any fun entry => entry.value == awaited && isNumber entry.type then
          ["promise.number.bridge"] else []) ++
          ["promise.resolve", "promise.react", "scheduler.enqueue", "scheduler.drain"] ++
          (if rejected = .reject then ["promise.settle.reject"] else [])
      | .resolve _ => ["promise.settle.fulfill"]
      | .reject _ => ["promise.settle.reject"]
      | _ => [])

/-- Intents are known, each named once. -/
def verifyIntents : List String → List String → Errors
  | _, [] => []
  | seen, intent :: intents =>
    if intent ∉ asyncRuntimeFeatures then
      ⟨.unknownRuntimeIntent, s!"runtime intent {intent} is not semantic async vocabulary", none⟩ ::
        verifyIntents seen intents
    else
      check (intent ∉ seen) .duplicateRuntimeIntent s!"runtime intent {intent} is duplicated"
          none ++
        verifyIntents (intent :: seen) intents

def verifyRequiredIntents : Errors :=
  (requiredRuntimeIntents isNumber plan).flatMap fun intent =>
    check (intent ∈ plan.runtimeIntents) .missingRuntimeIntent
      s!"runtime intent {intent} is required" none

/-! ### The verifier -/

/-- Everything before the live sets. -/
def verifyGraph : Errors :=
  verifyHeader plan ++ verifyValues [] (plan.values.map (·.value)) ++
    verifyParams typeEquals plan [] plan.params ++
    verifyHandlerIds [] (plan.handlers.map (·.id)) ++
    verifyStateIds [] (plan.states.map (·.id)) ++ verifyEntry plan ++
    verifyStates typeEquals plan (paramDefs plan) plan.states ++ verifyDefinitions plan ++
    plan.handlers.flatMap (verifyHandler plan) ++ verifyResumeIncomingEdges plan ++
    verifySpills typeEquals plan [] plan.spills ++ verifySpillUpdates typeEquals plan

/-- `verifyIrAsyncPlan`; `none` where `fuel` rounds do not solve the live sets. -/
def verifyIrAsyncPlan (fuel : Nat) : Option Errors :=
  match solveLive plan fuel (initialLive plan) with
  | none => none
  | some live =>
    some (verifyGraph typeEquals plan ++ plan.states.flatMap (verifyLive plan live) ++
      verifyRequiredSpills plan live ++ verifyReachable plan ++
      verifyIntents [] plan.runtimeIntents ++ verifyRequiredIntents isNumber plan)

end

end Js2Wasm.Async
