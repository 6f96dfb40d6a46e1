import Mathlib.Data.Rat.Defs
import Js2Wasm.Interp.Encoder

/-! # Statements of the evaluated program

The syntax trees that the emitter of the runtime evaluation reads, statements and binding
patterns.  Expressions, classes and functions stand in them as they are: their types are
parameters.

The emission of statements by the runtime evaluation (`interp/emitter.ts`,
`FunctionEmitter`).  Expressions, classes and closures are emitted by a parameter: what they
emit depends on the scopes in which they stand, on the position, the constants and the
registers, and never on the targets of jumps; they append to the stream.

The control stack is passed down: a statement pushes its contexts for what is inside it.
-/
namespace Js2Wasm.Interp

/-! ### Literals -/

/-- The values of type number. -/
inductive JSNumber where
  | finite (q : Rat)
  | negativeZero
  | nan
  | infinite (negative : Bool)
  deriving DecidableEq

/-- The value of a literal. -/
inductive Literal where
  | undefined
  | null
  | boolean (b : Bool)
  | number (n : JSNumber)
  | bigint (n : Int)
  | string (s : String)
  deriving DecidableEq

/-! ### Patterns -/

/-- A property key; only computed ones are expressions. -/
inductive PropertyKey (Expr : Type) where
  | computed (e : Expr)
  | identifier (name : String)
  | literal (value : Literal)
  | other (type : String)

mutual

/-- A binding pattern. -/
inductive Pattern (Expr : Type) where
  | identifier (name : String)
  | assignmentPattern (left : Pattern Expr) (right : Expr)
  | objectPattern (properties : List (PatternProperty Expr))
  | arrayPattern (elements : List (PatternElement Expr))
  | restElement (argument : Pattern Expr)
  | other (type : String)

/-- A property of an object pattern. -/
inductive PatternProperty (Expr : Type) where
  | property (kind : String) (method : Bool) (key : PropertyKey Expr) (value : Pattern Expr)
  | restElement (argument : Pattern Expr)
  | other (type : String)

/-- An element of an array pattern. -/
inductive PatternElement (Expr : Type) where
  | elision
  | element (pattern : Pattern Expr)

end

/-- The node type, as error texts name it. -/
def Pattern.type {Expr : Type} : Pattern Expr → String
  | .identifier _ => "Identifier"
  | .assignmentPattern _ _ => "AssignmentPattern"
  | .objectPattern _ => "ObjectPattern"
  | .arrayPattern _ => "ArrayPattern"
  | .restElement _ => "RestElement"
  | .other type => type

def PatternProperty.type {Expr : Type} : PatternProperty Expr → String
  | .property _ _ _ _ => "Property"
  | .restElement _ => "RestElement"
  | .other type => type

def PropertyKey.type {Expr : Type} : PropertyKey Expr → String
  | .computed _ => "Expression"
  | .identifier _ => "Identifier"
  | .literal _ => "Literal"
  | .other type => type

/-- Append a name that is not there yet. -/
def appendUnique (target : List String) (name : String) : List String :=
  if target.contains name then target else target ++ [name]

mutual

/-- The names a pattern binds, appended to those found so far. -/
def appendPatternBoundNames {Expr : Type} : Pattern Expr → List String → List String
  | .identifier name, target => appendUnique target name
  | .objectPattern properties, target => appendPropertiesBoundNames properties target
  | .arrayPattern elements, target => appendElementsBoundNames elements target
  | .assignmentPattern left _, target => appendPatternBoundNames left target
  | .restElement argument, target => appendPatternBoundNames argument target
  | .other _, target => target

def appendPropertiesBoundNames {Expr : Type} :
    List (PatternProperty Expr) → List String → List String
  | [], target => target
  | p :: rest, target => appendPropertiesBoundNames rest (appendPropertyBoundNames p target)

def appendPropertyBoundNames {Expr : Type} : PatternProperty Expr → List String → List String
  | .restElement argument, target => appendPatternBoundNames argument target
  | .property _ _ _ value, target => appendPatternBoundNames value target
  | .other _, target => target

def appendElementsBoundNames {Expr : Type} :
    List (PatternElement Expr) → List String → List String
  | [], target => target
  | e :: rest, target => appendElementsBoundNames rest (appendElementBoundNames e target)

def appendElementBoundNames {Expr : Type} : PatternElement Expr → List String → List String
  | .elision, target => target
  | .element pattern, target => appendPatternBoundNames pattern target

end

/-! ### Statements -/

inductive VarKind where
  | var | let | const
  deriving DecidableEq

/-- One `id = init` of a declaration. -/
structure VariableDeclarator (Expr : Type) where
  id : Pattern Expr
  init : Option Expr

structure VariableDeclaration (Expr : Type) where
  kind : VarKind
  declarations : List (VariableDeclarator Expr)

structure FunctionDeclaration (Function : Type) where
  id : Option String
  node : Function

structure ClassDeclaration (Class : Type) where
  id : Option String
  node : Class

/-- What stands first in the head of a `for`. -/
inductive ForInit (Expr : Type) where
  | declaration (d : VariableDeclaration Expr)
  | expression (e : Expr)

/-- The two statements of ForIn/OfBodyEvaluation. -/
inductive ForInOfKind where
  | forIn
  | forOf (await : Bool)
  deriving DecidableEq

/-- What each turn of a `for-in` or `for-of` assigns. -/
inductive ForInOfLeft (Expr : Type) where
  | declaration (d : VariableDeclaration Expr)
  | identifier (name : String)
  | other (type : String)

mutual

/-- A statement; expressions, classes and functions are parameters. -/
inductive Statement (Expr Class Function : Type) where
  | expressionStatement (e : Expr)
  | variableDeclaration (d : VariableDeclaration Expr)
  | functionDeclaration (f : FunctionDeclaration Function)
  | classDeclaration (c : ClassDeclaration Class)
  | blockStatement (body : List (Statement Expr Class Function))
  | withStatement (object : Expr) (body : Statement Expr Class Function)
  | ifStatement (test : Expr) (consequent : Statement Expr Class Function)
      (alternate : Option (Statement Expr Class Function))
  | whileStatement (test : Expr) (body : Statement Expr Class Function)
  | doWhileStatement (body : Statement Expr Class Function) (test : Expr)
  | forStatement (init : Option (ForInit Expr)) (test update : Option Expr)
      (body : Statement Expr Class Function)
  | forInOfStatement (kind : ForInOfKind) (left : ForInOfLeft Expr) (right : Expr)
      (body : Statement Expr Class Function)
  | switchStatement (discriminant : Expr) (cases : List (SwitchCase Expr Class Function))
  | returnStatement (argument : Option Expr)
  | breakStatement (label : Option String)
  | continueStatement (label : Option String)
  | throwStatement (argument : Expr)
  | tryStatement (block : Statement Expr Class Function)
      (handler : Option (CatchClause Expr Class Function))
      (finalizer : Option (Statement Expr Class Function))
  | labeledStatement (label : String) (body : Statement Expr Class Function)
  | emptyStatement
  | other (type : String)

/-- A `case`; `default` has no test. -/
inductive SwitchCase (Expr Class Function : Type) where
  | mk (test : Option Expr) (consequent : List (Statement Expr Class Function))

/-- A `catch`; the parameter can be missing. -/
inductive CatchClause (Expr Class Function : Type) where
  | mk (param : Option (Pattern Expr)) (body : Statement Expr Class Function)

end

/-! ## The statement emitter -/

variable {Expr Class Function Metadata : Type}

/-! ### Emitter state -/

/-- A constant of the pool. -/
inductive Const (Metadata : Type) where
  | literal (v : Literal)
  | names (ns : List String)
  | metadata (m : Metadata)

/-- The mutable part of the emitter. -/
structure EmitState (Metadata : Type) where
  enc : Encoder
  consts : List (Const Metadata)
  exn : List (Nat × Nat × Nat × Nat)
  regTop : Nat
  maxReg : Nat

/-- What an expression adds. -/
structure Appended (Metadata : Type) where
  words : List Int
  consts : List (Const Metadata)
  regTop : Nat
  maxReg : Nat

/-- Where an expression is emitted: the names of the active scopes, the position, the
constants so far and the next register. -/
structure ExprView (Metadata : Type) where
  scopes : List (List String)
  here : Nat
  consts : List (Const Metadata)
  regTop : Nat

/-- The emission of what stands in statements, and the fixed fields of the emitter. -/
structure FunctionEmitter (Expr Class Function Metadata : Type) where
  expr : ExprView Metadata → Expr → Except String (Appended Metadata)
  classDefinition : ExprView Metadata → Class → Except String (Appended Metadata)
  closure : ExprView Metadata → Function → Except String (Appended Metadata)
  isScript : Bool
  completionReg : Option Nat
  strictMode : Bool
  scriptBindingsPredeclared : Bool
  hoistedLexicals : List String
  annexBCancelledNames : List String

/-- An emission changes the state or throws. -/
abbrev EmitM (Metadata : Type) := StateT (EmitState Metadata) (Except String)

/-- Throw: the statement is outside Phase 1. -/
def unsupported {α : Type} (what : String) : EmitM Metadata α :=
  throw ("interp/emitter: unsupported in Phase 1: " ++ what)

/-! ### The encoder and the registers -/

/-- A call of the encoder. -/
def encode (f : Encoder → Except String Encoder) : EmitM Metadata Unit := fun st => do
  let enc ← f st.enc
  return ((), { st with enc := enc })

def here : EmitM Metadata Nat := fun st => .ok (st.enc.here, st)

def emit0 (op : Nat) : EmitM Metadata Unit := encode (·.emit0 op)
def emitReg (op r : Nat) : EmitM Metadata Unit := encode (·.emitReg op r)
def emitConst (op cIdx : Nat) : EmitM Metadata Unit := encode (·.emitConst op cIdx)

def emitCallBuiltin (builtinId rBase argc : Nat) : EmitM Metadata Unit :=
  encode (·.emitCallBuiltin builtinId rBase argc)

/-- Returns the slot to patch. -/
def emitJump (op : Nat) : EmitM Metadata Nat := fun st =>
  .ok ((st.enc.emitJump op).2, { st with enc := (st.enc.emitJump op).1 })

def emitJumpTo (op target : Nat) : EmitM Metadata Unit := encode fun enc => .ok (enc.emitJumpTo op target)

def emitJumpMarker (op : Nat) (marker : Int) : EmitM Metadata Unit :=
  encode fun enc => .ok (enc.emitJumpMarker op marker)

/-- Set the target of a jump. -/
def patch (slot target : Nat) : EmitM Metadata Unit := encode fun enc => .ok (enc.patch slot target)

/-- Set the target of all jumps to a marker. -/
def patchTargetMarker (marker : Int) (target : Nat) : EmitM Metadata Unit :=
  encode fun enc => .ok (enc.patchTargetMarker marker target)

/-- Equal values of the kind share a slot. -/
def isDedupablePrimitive : Literal → Bool
  | .bigint _ => false
  | _ => true

/-- `existing === value`, or both are NaN. -/
def sameConstant (value : Literal) : Const Metadata → Bool
  | .literal (.number .negativeZero) =>
    value = .number .negativeZero || value = .number (.finite 0)
  | .literal (.number (.finite q)) =>
    value = .number (.finite q) || (q = 0 && value = .number .negativeZero)
  | .literal existing => existing = value
  | _ => false

/-- The index of a constant; primitive ones share a slot. -/
def internConst (value : Const Metadata) : EmitM Metadata Nat := fun st =>
  let push := .ok (st.consts.length, { st with consts := st.consts ++ [value] })
  match value with
  | .literal v =>
    if isDedupablePrimitive v then
      match st.consts.findIdx? (sameConstant v) with
      | some i => .ok (i, st)
      | none => push
    else push
  | _ => push

def internName (name : String) : EmitM Metadata Nat := internConst (.literal (.string name))

def internIndex (n : Nat) : EmitM Metadata Nat := internConst (.literal (.number (.finite n)))

/-- The next free register. -/
def allocReg : EmitM Metadata Nat := fun st =>
  .ok (st.regTop, { st with regTop := st.regTop + 1, maxReg := max st.maxReg (st.regTop + 1) })

/-- The first free register, to `release` from. -/
def mark : EmitM Metadata Nat := fun st => .ok (st.regTop, st)

def release (m : Nat) : EmitM Metadata Unit := fun st => .ok ((), { st with regTop := m })

/-- A row of the exception table. -/
def addExnRow (start stop handler reg : Nat) : EmitM Metadata Unit := fun st =>
  .ok ((), { st with exn := st.exn ++ [(start, stop, handler, reg)] })

def emitLoadName (name : String) : EmitM Metadata Unit := do emitConst Op.LdName (← internName name)
def storeName (name : String) : EmitM Metadata Unit := do emitConst Op.StName (← internName name)

/-- Initialize a lexical binding. -/
def initializeName (name : String) : EmitM Metadata Unit := do
  emitConst Op.InitName (← internName name)

/-! ### The control stack -/

/-- What a context of the control stack is called: by a label of the program, or by one of
the two markers of an environment scope. -/
inductive CtxLabel where
  | name (label : String)
  | lexicalScope
  | simpleCatchScope
  deriving DecidableEq

/-- A target of break and continue, or an active scope with its names. -/
structure LoopCtx where
  label : Option CtxLabel
  breaks : List Int
  continues : List String
  isLoop : Bool
  deriving DecidableEq

/-- The control stack, the outermost context first. -/
abbrev Loops := List LoopCtx

/-- Does the label mark an environment scope? -/
def isEnvScopeLabel : Option CtxLabel → Bool
  | some .lexicalScope | some .simpleCatchScope => true
  | _ => false

def LoopCtx.isScope (ctx : LoopCtx) : Bool := isEnvScopeLabel ctx.label

/-- Does an active scope bind the name? -/
def scopeBindsName (loops : Loops) (name : String) (skipCatchParam : Bool) : Bool :=
  loops.any fun ctx =>
    (if skipCatchParam then ctx.label = some .lexicalScope else ctx.isScope) &&
      ctx.continues.contains name

def isActiveBlockLexical (loops : Loops) (name : String) : Bool := scopeBindsName loops name false

/-- A simple catch parameter does not cancel it. -/
def cancelsAnnexBVarBinding (loops : Loops) (name : String) : Bool := scopeBindsName loops name true

/-- The number of environments pushed by statements. -/
def lexicalEnvDepth (loops : Loops) : Nat := (loops.filter LoopCtx.isScope).length

/-- The names of the active scopes, the outermost first. -/
def activeScopes (loops : Loops) : List (List String) :=
  (loops.filter LoopCtx.isScope).map LoopCtx.continues

/-- One restoration before an abrupt jump: the outermost scope that is left has saved the
environment of the target. -/
def restoreEnvToDepth (loops : Loops) (depth : Int) : EmitM Metadata Unit :=
  match (loops.filter LoopCtx.isScope)[depth.toNat]? with
  | some ctx => emitCallBuiltin BUILTIN_RESTORE_ENV (ctx.breaks.getD 0 0).toNat 1
  | none => pure ()

/-- A new target, with its environment depth and the two markers for its jumps. -/
def pushLoop (loops : Loops) (label : Option String) (isLoop : Bool) : EmitM Metadata LoopCtx := do
  let markerSeed : Int := (← here) + 1
  return { label := label.map .name
           breaks := [-(lexicalEnvDepth loops : Int) - 1, 2000000000 - markerSeed * 2,
             1999999999 - markerSeed * 2]
           continues := []
           isLoop := isLoop }

/-- The marker that breaks of the context jump to. -/
def LoopCtx.breakMarker (ctx : LoopCtx) : Int := ctx.breaks.getD 1 0

def LoopCtx.continueMarker (ctx : LoopCtx) : Int := ctx.breaks.getD 2 0

/-- Patch the continues of a loop. -/
def popLoop (ctx : LoopCtx) (continueTarget : Option Nat) : EmitM Metadata Unit :=
  match continueTarget with
  | some target => patchTargetMarker ctx.continueMarker target
  | none => pure ()

/-- Can a break or continue with the label go to the context? -/
def LoopCtx.targets (label : Option String) (needLoop : Bool) (ctx : LoopCtx) : Bool :=
  !ctx.isScope && match label with
    | none => !needLoop || ctx.isLoop
    | some l => ctx.label = some (.name l)

/-- The innermost target of a break or continue. -/
def findLoop (loops : Loops) (label : Option String) (needLoop : Bool) : EmitM Metadata LoopCtx :=
  match loops.reverse.find? (LoopCtx.targets label needLoop) with
  | some ctx => return ctx
  | none => unsupported ((if needLoop then "continue" else "break") ++ " with no matching target")

/-- Restore the environment of the target, then jump. -/
def emitBreak (loops : Loops) (label : Option String) : EmitM Metadata Unit := do
  let ctx ← findLoop loops label false
  restoreEnvToDepth loops (-(ctx.breaks.getD 0 0) - 1)
  emitJumpMarker Op.Jump ctx.breakMarker

def emitContinue (loops : Loops) (label : Option String) : EmitM Metadata Unit := do
  let ctx ← findLoop loops label true
  restoreEnvToDepth loops (-(ctx.breaks.getD 0 0) - 1)
  emitJumpMarker Op.Jump ctx.continueMarker

/-- A fresh lexical environment with the names, saved in a register of its own. -/
def pushLexicalEnv (lexicalNames : List String) : EmitM Metadata Nat := do
  let namesReg ← allocReg
  let saveReg ← allocReg
  emitConst Op.LdaConst (← internConst (.names lexicalNames))
  emitReg Op.Star namesReg
  emitCallBuiltin BUILTIN_PUSH_LEXICAL_ENV namesReg 1
  emitReg Op.Star saveReg
  return saveReg

/-- The context of an environment that is saved in a register. -/
def scopeCtx (label : CtxLabel) (saveReg : Nat) (names : List String) : LoopCtx :=
  { label := some label, breaks := [saveReg], continues := names, isLoop := false }

end Js2Wasm.Interp
