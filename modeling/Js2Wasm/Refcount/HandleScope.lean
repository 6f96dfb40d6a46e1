import Js2Wasm.Refcount.HandleIR

/-! # The handle-scope pass

`insertHandleScopes` (`refcount/handle-scope.ts`) places `dup` and `free`: a
handle that arrives with a reference belongs to the innermost enclosing scope and
is released where control leaves that scope, in reverse acquisition order; a
consumed argument, an owned result handed back and a thrown value each get a
`dup` of their own.  Every acquisition opens a cleanup region over the rest of
its scope when that rest can throw.

The pass keeps mutable state; it is threaded here.  The frame stack is innermost
first and a frame's handles latest first, so both stacks pop at the head.
-/
namespace Js2Wasm.Refcount

inductive Severity where
  | error | warning
  deriving DecidableEq

structure HandleScopeDiagnostic where
  severity : Severity
  message : String

/-- A dup/free pair that a later pass may consider removing. -/
structure ElisionCandidate where
  handle : HandleId
  reason : DupReason
  containerSlotReleasedInRegion : Bool

inductive FrameKind where
  | function | scope | if_ | block | loop
  deriving DecidableEq

def FrameKind.text : FrameKind → String
  | .function => "function"
  | .scope => "scope"
  | .if_ => "if"
  | .block => "block"
  | .loop => "loop"

structure Frame where
  kind : FrameKind
  label : Option String
  /-- Owned handles, latest acquisition first. -/
  owned : List HandleId

/-- The pass's mutable state. -/
structure PassState where
  nextHandle : HandleId
  ownedNow : List HandleId
  frames : List Frame
  rename : HandleId → Option HandleId
  diagnostics : List HandleScopeDiagnostic
  elisionCandidates : List ElisionCandidate

namespace PassState

/-- The owned copy a borrowed binding was retained in, or the handle itself. -/
def rn (st : PassState) (h : HandleId) : HandleId := (st.rename h).getD h

def fresh (st : PassState) : HandleId × PassState :=
  (st.nextHandle, { st with nextHandle := st.nextHandle + 1 })

def pushFrame (st : PassState) (frame : Frame) : PassState :=
  { st with frames := frame :: st.frames }

def popFrame (st : PassState) : PassState := { st with frames := st.frames.tail }

/-- `frame.owned.push(id); ownedNow.add(id)`. -/
def own (st : PassState) (h : HandleId) : PassState :=
  { st with
    frames := st.frames.modifyHead fun f => { f with owned := h :: f.owned }
    ownedNow := if h ∈ st.ownedNow then st.ownedNow else h :: st.ownedNow }

/-- `frame.owned.pop(); ownedNow.delete(id)`. -/
def disown (st : PassState) (h : HandleId) : PassState :=
  { st with
    frames := st.frames.modifyHead fun f => { f with owned := f.owned.tail }
    ownedNow := st.ownedNow.filter (· ≠ h) }

def setRename (st : PassState) (h : HandleId) (copy : Option HandleId) : PassState :=
  { st with rename := Function.update st.rename h copy }

def candidate (st : PassState) (c : ElisionCandidate) : PassState :=
  { st with elisionCandidates := st.elisionCandidates ++ [c] }

def diagnose (st : PassState) (d : HandleScopeDiagnostic) : PassState :=
  { st with diagnostics := st.diagnostics ++ [d] }

end PassState

/-- Resolve a callee's ownership, or refuse. -/
def lookupOwnership (ownership : OwnershipTable) (callee funcName : String) :
    Except String ResolvedOwnership :=
  match ownership callee with
  | some own => .ok own
  | none => .error (s!"refcount pass: no ownership annotation for callee '{callee}' in " ++
      s!"{funcName}. " ++
      "Every engine import that carries JSValue handles must declare `ownership` — the pass " ++
      "cannot place JS_DupValue/JS_FreeValue without it, and there is no safe default " ++
      "(guessing 'borrows' leaks; guessing 'consumes' double-frees).")

/-- Does any call inside these statements declare it can drop a container slot? -/
def anyCallReleasesContainerSlots (ownership : OwnershipTable) (stmts : List HandleStmt) : Bool :=
  (walk stmts).any fun
    | .call callee _ _ _ => (ownership callee).elim true ResolvedOwnership.releasesContainerSlots
    | _ => false

/-- Can this callee unwind?  Only asked of callees that were looked up before. -/
def throwsOf (ownership : OwnershipTable) (callee : String) : Bool :=
  (ownership callee).elim true ResolvedOwnership.throws

/-- Releases for the innermost `count` frames. -/
def releasesFromFrames (frames : List Frame) (count : Nat) (reason : FreeReason) :
    List HandleStmt :=
  (frames.take count).flatMap fun f => f.owned.map fun h => .free h reason

/-- How many frames a `break` or `continue` leaves. -/
def findLabelFrame (label : String) (want : FreeReason) (where_ : String) :
    List Frame → Except String Nat
  | [] =>
    let wanted := if want = .continue_ then "continue" else "break"
    .error s!"refcount pass: no enclosing '{label}' for {wanted} in {where_}."
  | f :: frames =>
    if f.label ≠ some label then (· + 1) <$> findLabelFrame label want where_ frames
    else if want = .continue_ ∧ f.kind ≠ .loop then
      let kind := f.kind.text
      .error s!"refcount pass: 'continue {label}' in {where_} targets a {kind}, not a loop."
    else .ok 1

/-- The emitted form of an acquisition: the rest of the scope in its cleanup
region, then the release on the normal path. -/
def wrap (ownership : OwnershipTable) (h : HandleId) (rest : List HandleStmt) : List HandleStmt :=
  (if canThrow (throwsOf ownership) rest then [.cleanup h rest [.free h .unwind]] else rest) ++
    (if terminates rest then [] else [.free h .scopeExit])

/-- Take ownership of `h` for the current frame and emit the rest of the scope. -/
def acquireAndWrap (ownership : OwnershipTable) (h : HandleId)
    (emitRest : PassState → Except String (List HandleStmt × PassState)) (st : PassState) :
    Except String (List HandleStmt × PassState) := do
  let (rest, st) ← emitRest (st.own h)
  return (wrap ownership h rest, st.disown h)

/-- Rule 2: a consumed argument is a `dup` of the frame's handle. -/
def emitArgs (own : ResolvedOwnership) :
    List (Option HandleId) → List ArgOwnership → PassState →
      List HandleStmt × List (Option HandleId) × PassState
  | [], _, st => ([], [], st)
  | none :: args, owns, st =>
    let (dups, args, st) := emitArgs own args owns.tail st
    (dups, none :: args, st)
  | some raw :: args, .consumes :: owns, st =>
    let h := st.rn raw
    let (copy, st) := st.fresh
    let owned := h ∈ st.ownedNow
    let reason := if owned then DupReason.consumeArg else .consumeArgBorrowed
    let st := if owned then
        st.candidate ⟨h, .consumeArg, own.releasesContainerSlots⟩ else st
    let (dups, args, st) := emitArgs own args owns st
    (.dup h copy reason :: dups, some copy :: args, st)
  | some raw :: args, owns, st =>
    let (dups, args', st') := emitArgs own args owns.tail st
    (dups, some (st.rn raw) :: args', st')

def argumentCountError (callee funcName : String) (passed declared : Nat) : String :=
  s!"refcount pass: call to '{callee}' in {funcName} passes {passed} argument(s) " ++
    s!"but the import declares {declared} parameter(s)."

def noResultError (callee funcName : String) : String :=
  s!"refcount pass: call to '{callee}' in {funcName} names a destination handle, " ++
    "but the import's ownership declares no handle result."

def alreadyContainsError (funcName kind : String) : String :=
  s!"refcount pass: input to {funcName} already contains a '{kind}' node. " ++
    "This pass is the sole producer of refcount traffic; hand-inserted dup/free would " ++
    "be double-counted."

def ResultOwnership.text : ResultOwnership → String
  | .owned => "owned"
  | .borrowed => "borrowed"
  | .none => "none"

def returnsOwnedMessage (funcName : String) (h : HandleId) (result : ResultOwnership) : String :=
  let resultText := result.text
  s!"{funcName} returns handle h{h}, which this frame owns, but its result ownership is " ++
    s!"'{resultText}'. The frame release would leave the caller holding a freed handle. " ++
    "Declare the function's result as 'owned' or hand back a borrowed handle."

/-- The emitted form of `return`. -/
def emitReturn (func : HandleFunction) (value : Option HandleId) (st : PassState) :
    List HandleStmt × PassState :=
  let releases := fun st : PassState => releasesFromFrames st.frames st.frames.length .return_
  match value.map st.rn with
  | none => (releases st ++ [.return_ none], st)
  | some h =>
    if func.result = .owned then
      let (handedBack, st) := st.fresh
      -- an owned handle's pair is redundant and recorded for elision
      let st := if h ∈ st.ownedNow then st.candidate ⟨h, .returnTransfer, false⟩ else st
      (.dup h handedBack .returnTransfer :: releases st ++ [.return_ (some handedBack)], st)
    else
      let st := if h ∈ st.ownedNow then
          st.diagnose ⟨.error, returnsOwnedMessage func.name h func.result⟩ else st
      (releases st ++ [.return_ (some h)], st)

section
variable (func : HandleFunction) (ownership : OwnershipTable)

/-- The emitted form of a call and of the rest of its scope. -/
def emitCall (callee : String) (args : List (Option HandleId)) (dest : Option HandleId)
    (binding : Bool) (emitRest : PassState → Except String (List HandleStmt × PassState))
    (st : PassState) : Except String (List HandleStmt × PassState) := do
  let own ← lookupOwnership ownership callee func.name
  if args.length ≠ own.args.length then
    throw (argumentCountError callee func.name args.length own.args.length)
  let (dups, args, st) := emitArgs own args own.args st
  let out := dups ++ [.call callee args dest binding]
  match dest, own.result with
  | none, _ =>
    let (rest, st) ← emitRest st
    return (out ++ rest, st)
  | some _, .none => throw (noResultError callee func.name)
  | some dest, .owned =>
    let (rest, st) ← acquireAndWrap ownership dest emitRest st
    return (out ++ rest, st)
  | some dest, .borrowed =>
    if binding then
      -- every later mention of the binding means the owned copy
      let (retained, st) := st.fresh
      let emitRetained := fun st : PassState => do
        let saved := st.rename dest
        let (rest, st) ← emitRest (st.setRename dest (some retained))
        let released := anyCallReleasesContainerSlots ownership rest
        return (rest, (st.setRename dest saved).candidate ⟨retained, .retainBorrowed, released⟩)
      let (rest, st) ← acquireAndWrap ownership retained emitRetained st
      return (out ++ .dup dest retained .retainBorrowed :: rest, st)
    else
      let (rest, st) ← emitRest st
      return (out ++ rest, st)

/-- Emit a nested statement list as its own scope. -/
def emitScopeBody (frame : Frame)
    (emitBody : PassState → Except String (List HandleStmt × PassState)) (st : PassState) :
    Except String (List HandleStmt × PassState) := do
  let (out, st) ← emitBody (st.pushFrame frame)
  return (out, st.popFrame)

/-- Prepend one emitted statement to what the rest emits. -/
def emitThen (s : List HandleStmt)
    (emitRest : PassState → Except String (List HandleStmt × PassState)) (st : PassState) :
    Except String (List HandleStmt × PassState) := do
  let (rest, st) ← emitRest st
  return (s ++ rest, st)

mutual

/-- Emit one statement; `emitRest` emits what follows it in its list. -/
def emitStmt (emitRest : PassState → Except String (List HandleStmt × PassState)) :
    HandleStmt → PassState → Except String (List HandleStmt × PassState)
  | .dup _ _ _, _ => .error (alreadyContainsError func.name "dup")
  | .free _ _, _ => .error (alreadyContainsError func.name "free")
  | .cleanup _ _ _, _ => .error (alreadyContainsError func.name "cleanup")
  | .call callee args dest binding, st =>
    emitCall func ownership callee args dest binding emitRest st
  | .use value, st => emitThen [.use (st.rn value)] emitRest st
  | .opaqueWork throws, st => emitThen [.opaqueWork throws] emitRest st
  | .scope body, st => do
    let (body, st) ← emitScopeBody ⟨.scope, none, []⟩ (fun st => emitFrom body st) st
    emitThen [.scope body] emitRest st
  | .if_ then_ else_, st => do
    let (then_, st) ← emitScopeBody ⟨.if_, none, []⟩ (fun st => emitFrom then_ st) st
    let (else_, st) ← emitElse else_ st
    emitThen [.if_ then_ else_] emitRest st
  | .block label body, st => do
    let (body, st) ← emitScopeBody ⟨.block, some label, []⟩ (fun st => emitFrom body st) st
    emitThen [.block label body] emitRest st
  | .loop label body, st => do
    let (body, st) ← emitScopeBody ⟨.loop, some label, []⟩ (fun st => emitFrom body st) st
    emitThen [.loop label body] emitRest st
  | .break_ label, st => do
    let count ← findLabelFrame label .break_ func.name st.frames
    emitThen (releasesFromFrames st.frames count .break_ ++ [.break_ label]) emitRest st
  | .continue_ label, st => do
    let count ← findLabelFrame label .continue_ func.name st.frames
    emitThen (releasesFromFrames st.frames count .continue_ ++ [.continue_ label]) emitRest st
  | .return_ value, st =>
    let (out, st) := emitReturn func value st
    emitThen out emitRest st
  | .throw_ none, st => emitThen [.throw_ none] emitRest st
  | .throw_ (some value), st =>
    let (thrown, st') := st.fresh
    emitThen [.dup (st.rn value) thrown .throwTransfer, .throw_ (some thrown)] emitRest st'

/-- `s.else ? emitScopeBody(s.else, …) : undefined`. -/
def emitElse : Option (List HandleStmt) → PassState →
    Except String (Option (List HandleStmt) × PassState)
  | none, st => .ok (none, st)
  | some body, st => do
    let (body, st) ← emitScopeBody ⟨.if_, none, []⟩ (fun st => emitFrom body st) st
    return (some body, st)

/-- Emit a statement list. -/
def emitFrom : List HandleStmt → PassState → Except String (List HandleStmt × PassState)
  | [], st => .ok ([], st)
  | s :: rest, st => emitStmt (fun st => emitFrom rest st) s st

end

/-- Acquire the owned parameters, then emit the body. -/
def emitParamsThen : List HandleId → PassState → Except String (List HandleStmt × PassState)
  | [], st => emitFrom func ownership func.body st
  | p :: ps, st => acquireAndWrap ownership p (emitParamsThen ps) st

end

structure HandleScopeResult where
  func : HandleFunction
  diagnostics : List HandleScopeDiagnostic
  elisionCandidates : List ElisionCandidate

/-- One above every handle the function mentions. -/
def firstFresh (func : HandleFunction) : HandleId :=
  (collectHandles func).foldl (fun next h => if next ≤ h then h + 1 else next) 1

/-- The parameters the frame must release. -/
def ownedParams (func : HandleFunction) : List HandleId :=
  (func.params.filter fun p => p.ownership == .owned).map HandleParam.id

/-- Insert dup/free into one function body. -/
def insertHandleScopes (func : HandleFunction) (ownership : OwnershipTable) :
    Except String HandleScopeResult := do
  let st : PassState :=
    { nextHandle := firstFresh func, ownedNow := [], frames := [⟨.function, none, []⟩],
      rename := fun _ => none, diagnostics := [], elisionCandidates := [] }
  let (body, st) ← emitParamsThen func ownership (ownedParams func) st
  return ⟨{ func with body }, st.diagnostics, st.elisionCandidates⟩

end Js2Wasm.Refcount
