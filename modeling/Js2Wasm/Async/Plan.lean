import Mathlib.Data.Finset.Union
import Mathlib.Data.Finset.Sort
import Mathlib.Order.Lattice.Nat

/-! # Async suspension plans

A plan is a graph of states.  A state may bind a delivered value when it begins, runs a body
of instructions, updates frame spills and leaves through its terminator.  An instruction has
operands and may have nested buffers, each with the values that are read when the buffer has
run (the values of the arms of an `if`, the condition of a loop).

The types of the values are a parameter: the verifier only compares them and asks whether a
type is a number.
-/
namespace Js2Wasm.Async

abbrev IrValueId := Nat
abbrev IrAsyncStateId := Int
abbrev IrAsyncHandlerId := Int

/-- The kinds of instruction a plan must not contain, and the others. -/
inductive InstrKind where
  | await
  | asyncReturn
  | asyncThrow
  | other
deriving DecidableEq

/-- The kind in the texts of errors. -/
def InstrKind.text : InstrKind → String
  | .await => "await"
  | .asyncReturn => "async.return"
  | .asyncThrow => "async.throw"
  | .other => "other"

mutual

/-- An instruction. -/
inductive IrInstr (T : Type) where
  | mk (kind : InstrKind) (result : Option IrValueId) (resultType : Option T)
      (operands : List IrValueId) (buffers : IrBuffers T)

/-- The nested buffers of an instruction, each with the values read after it. -/
inductive IrBuffers (T : Type) where
  | nil
  | cons (body : IrBody T) (exits : List IrValueId) (rest : IrBuffers T)

/-- A body: its instructions in order. -/
inductive IrBody (T : Type) where
  | nil
  | cons (instr : IrInstr T) (rest : IrBody T)

end

variable {T : Type}

def IrInstr.result : IrInstr T → Option IrValueId
  | .mk _ result _ _ _ => result

/-- The values read after the buffers. -/
def IrBuffers.exits : IrBuffers T → List IrValueId
  | .nil => []
  | .cons _ exits rest => exits ++ rest.exits

/-- What `forEachInstrDeep` shows of an instruction. -/
structure Visited (T : Type) where
  kind : InstrKind
  result : Option IrValueId
  resultType : Option T

mutual

/-- `collectUses` with `deep`. -/
def IrInstr.deepUses : IrInstr T → List IrValueId
  | .mk _ _ _ operands buffers => operands ++ buffers.exits ++ buffers.deepUses

def IrBuffers.deepUses : IrBuffers T → List IrValueId
  | .nil => []
  | .cons body _ rest => body.deepUses ++ rest.deepUses

def IrBody.deepUses : IrBody T → List IrValueId
  | .nil => []
  | .cons instr rest => instr.deepUses ++ rest.deepUses

end

mutual

/-- `forEachInstrDeep`. -/
def IrInstr.visited : IrInstr T → List (Visited T)
  | .mk kind result resultType _ buffers => ⟨kind, result, resultType⟩ :: buffers.visited

def IrBuffers.visited : IrBuffers T → List (Visited T)
  | .nil => []
  | .cons body _ rest => body.visited ++ rest.visited

def IrBody.visited : IrBody T → List (Visited T)
  | .nil => []
  | .cons instr rest => instr.visited ++ rest.visited

end

/-- The instructions, as a list. -/
def IrBody.instrs : IrBody T → List (IrInstr T)
  | .nil => []
  | .cons instr rest => instr :: rest.instrs

/-- The results of a body at any depth. -/
def IrBody.deepResults (b : IrBody T) : List IrValueId := b.visited.filterMap (·.result)

/-- The results of the instructions that surely run. -/
def IrBody.results (b : IrBody T) : List IrValueId := b.instrs.filterMap IrInstr.result

/-! ### Plans -/

/-- A declared value. -/
structure IrAsyncPlanValue (T : Type) where
  value : IrValueId
  type : T

/-- A value kept in the frame. -/
structure IrAsyncSpill (T : Type) where
  value : IrValueId
  type : T

/-- How a suspension ends. -/
inductive ResumeSource where
  | fulfilled
  | rejected
deriving DecidableEq

/-- The value a state binds when it begins. -/
structure IrAsyncResumeValue (T : Type) where
  value : IrValueId
  type : T
  source : ResumeSource

/-- The spill `target` becomes `value` as the state is left. -/
structure IrAsyncSpillUpdate where
  target : IrValueId
  value : IrValueId
deriving DecidableEq

/-- Where a rejection goes. -/
inductive Rejected where
  | handler (handler : IrAsyncHandlerId)
  | reject
deriving DecidableEq

/-- How a state is left. -/
inductive IrAsyncTerminator where
  | suspend (awaited : IrValueId) (resumeState : IrAsyncStateId) (resumeValue : IrValueId)
      (rejected : Rejected) (live : List IrValueId)
  | goto (target : IrAsyncStateId)
  | branch (condition : IrValueId) (ifTrue ifFalse : IrAsyncStateId)
  | resolve (value : Option IrValueId)
  | reject (reason : IrValueId)
  | complete
deriving DecidableEq

/-- A state of the plan. -/
structure IrAsyncState (T : Type) where
  id : IrAsyncStateId
  resume : Option (IrAsyncResumeValue T)
  body : IrBody T
  updates : List IrAsyncSpillUpdate
  terminator : IrAsyncTerminator

/-- A catch handler: the state where it begins. -/
structure IrAsyncHandler where
  id : IrAsyncHandlerId
  entry : IrAsyncStateId
  parent : Option IrAsyncHandlerId
deriving DecidableEq

/-- What callers see of the promise. -/
structure IrCanonicalPromiseAbi (T : Type) where
  kind : String
  version : Nat
  fulfillmentType : Option T
  rejectionType : String
  consumerContract : String
  settlementTiming : String

/-- The plan of one function. -/
structure IrAsyncPlan (T : Type) where
  schemaVersion : Nat
  ownerUnitId : List Char
  kind : String
  abi : IrCanonicalPromiseAbi T
  entry : IrAsyncStateId
  params : List (IrAsyncPlanValue T)
  values : List (IrAsyncPlanValue T)
  spills : List (IrAsyncSpill T)
  states : List (IrAsyncState T)
  handlers : List IrAsyncHandler
  runtimeIntents : List String

/-- `states.get`: the first state that is declared with the id. -/
def IrAsyncPlan.stateAt (plan : IrAsyncPlan T) (id : IrAsyncStateId) : Option (IrAsyncState T) :=
  plan.states.find? fun s => s.id = id

/-- `handlers.get`. -/
def IrAsyncPlan.handlerAt (plan : IrAsyncPlan T) (id : IrAsyncHandlerId) : Option IrAsyncHandler :=
  plan.handlers.find? fun h => h.id = id

def IrAsyncPlan.paramValues (plan : IrAsyncPlan T) : List IrValueId := plan.params.map (·.value)

/-! ### Edges and liveness -/

/-- The values a terminator reads. -/
def terminatorUses : IrAsyncTerminator → List IrValueId
  | .suspend awaited _ _ _ _ => [awaited]
  | .branch condition _ _ => [condition]
  | .resolve value => value.toList
  | .reject reason => [reason]
  | .goto _ => []
  | .complete => []

/-- What takes an edge. -/
inductive EdgeSource where
  | control
  | fulfilled
  | rejected
deriving DecidableEq

def EdgeSource.text : EdgeSource → String
  | .control => "control"
  | .fulfilled => "fulfilled"
  | .rejected => "rejected"

def ResumeSource.toEdge : ResumeSource → EdgeSource
  | .fulfilled => .fulfilled
  | .rejected => .rejected

/-- An edge between states. -/
structure StateEdge where
  target : IrAsyncStateId
  source : EdgeSource
  /-- Value materialized by this edge and therefore not spilled by its source. -/
  boundValue : Option IrValueId
deriving DecidableEq

/-- The edges out of a state; one to an unknown handler is missing. -/
def stateEdges (plan : IrAsyncPlan T) (state : IrAsyncState T) : List StateEdge :=
  match state.terminator with
  | .goto target => [⟨target, .control, none⟩]
  | .branch _ ifTrue ifFalse => [⟨ifTrue, .control, none⟩, ⟨ifFalse, .control, none⟩]
  | .suspend _ resumeState resumeValue rejected _ =>
    ⟨resumeState, .fulfilled, some resumeValue⟩ ::
      match rejected with
      | .handler handler =>
        match plan.handlerAt handler with
        | some h => [⟨h.entry, .rejected, none⟩]
        | none => []
      | .reject => []
  | _ => []

/-- `updates.get(value) ?? value`, with the map of the updates, where a later one wins. -/
def updatedFrom (updates : List IrAsyncSpillUpdate) (value : IrValueId) : IrValueId :=
  match updates.reverse.find? fun u => u.target = value with
  | some u => u.value
  | none => value

/-- What a state defines, and what it reads before. -/
structure StateLiveness where
  defs : Finset IrValueId
  usesBeforeDef : Finset IrValueId

def resumeValues (state : IrAsyncState T) : List IrValueId := (state.resume.map (·.value)).toList

/-- The values a state defines itself. -/
def localDefs (state : IrAsyncState T) : List IrValueId :=
  resumeValues state ++ state.body.deepResults

/-- The spills a state updates. -/
def updateTargets (state : IrAsyncState T) : List IrValueId := state.updates.map (·.target)

def updateSources (state : IrAsyncState T) : List IrValueId := state.updates.map (·.value)

/-- The updates happen before the terminator reads. -/
def stateLiveness (state : IrAsyncState T) (isEntry : Bool) (params : List IrValueId) :
    StateLiveness :=
  let defs := ((if isEntry then params else []) ++ localDefs state).toFinset
  ⟨defs, (state.body.deepUses ++ updateSources state ++
    (terminatorUses state.terminator).filter (· ∉ updateTargets state)).toFinset \ defs⟩

end Js2Wasm.Async
