import Js2Wasm.Interp.Emitter

/-! # Emission of statements

Every statement of `interp/emitter.ts`, with the part of a loop that is inside it passed as
an emission that waits for its control stack.  A labelled loop has its own emission, which
repeats that of the loop.
-/
namespace Js2Wasm.Interp

variable {Expr Class Function Metadata : Type}
variable (E : FunctionEmitter Expr Class Function Metadata) (loops : Loops)

/-- An emission that waits for the control stack. -/
abbrev Inner (Metadata : Type) := Loops → EmitM Metadata Unit

/-! ### Expressions and declarations -/

/-- Append what an expression adds. -/
def emitAppended (emission : ExprView Metadata → Except String (Appended Metadata)) :
    EmitM Metadata Unit := fun st => do
  let a ← emission ⟨activeScopes loops, st.enc.here, st.consts, st.regTop⟩
  return ((), { st with
    enc := st.enc.push a.words
    consts := st.consts ++ a.consts
    regTop := a.regTop
    maxReg := max st.maxReg a.maxReg })

def emitExpr (e : Expr) : EmitM Metadata Unit := emitAppended loops (E.expr · e)

def emitClass (c : Class) : EmitM Metadata Unit := emitAppended loops (E.classDefinition · c)

def emitClosure (f : Function) : EmitM Metadata Unit := emitAppended loops (E.closure · f)

def emitExprStatementDiscard (e : Expr) : EmitM Metadata Unit := do
  let m ← mark
  emitExpr E loops e
  release m

/-- The completion value goes to its register, in a script. -/
def storeCompletion : EmitM Metadata Unit :=
  match E.isScript, E.completionReg with
  | true, some r => emitReg Op.Star r
  | _, _ => pure ()

def resetCompletion : EmitM Metadata Unit :=
  match E.isScript, E.completionReg with
  | true, some r => do
    emit0 Op.LdaUndef
    emitReg Op.Star r
  | _, _ => pure ()

/-- The key of a property is read from the object. -/
def emitPatternKey (objectReg : Nat) : PropertyKey Expr → EmitM Metadata Unit
  | .computed e => do
    emitExpr E loops e
    let keyReg ← allocReg
    emitReg Op.Star keyReg
    emitReg Op.Ldar objectReg
    emitReg Op.GetElem keyReg
  | .identifier name => do
    emitReg Op.Ldar objectReg
    emitConst Op.GetProp (← internName name)
  | .literal value => do
    emitReg Op.Ldar objectReg
    emitConst Op.GetProp (← internConst (.literal value))
  | .other type => unsupported ("object binding key (" ++ type ++ ")")

mutual

def emitBindingPattern (isInit : Bool) : Pattern Expr → EmitM Metadata Unit
  | .identifier name => if isInit then initializeName name else storeName name
  | .assignmentPattern left right => do
    let assignmentMark ← mark
    let valueReg ← allocReg
    emitReg Op.Star valueReg
    emit0 Op.LdaUndef
    emitReg Op.StrictEq valueReg
    let useOriginal ← emitJump Op.JumpIfFalse
    emitExpr E loops right
    let ready ← emitJump Op.Jump
    patch useOriginal (← here)
    emitReg Op.Ldar valueReg
    patch ready (← here)
    emitBindingPattern isInit left
    release assignmentMark
  | .objectPattern properties => do
    let objectMark ← mark
    let objectReg ← allocReg
    emitReg Op.Star objectReg
    emitPatternProperties isInit objectReg properties
    release objectMark
  | .arrayPattern elements => do
    let arrayMark ← mark
    let arrayReg ← allocReg
    emitReg Op.Star arrayReg
    emitPatternElements isInit arrayReg 0 elements
    release arrayMark
  | .restElement _ => unsupported "destructuring binding (RestElement)"
  | .other type => unsupported ("destructuring binding (" ++ type ++ ")")

def emitPatternProperties (isInit : Bool) (objectReg : Nat) :
    List (PatternProperty Expr) → EmitM Metadata Unit
  | [] => pure ()
  | p :: rest => do
    emitPatternProperty isInit objectReg p
    emitPatternProperties isInit objectReg rest

def emitPatternProperty (isInit : Bool) (objectReg : Nat) :
    PatternProperty Expr → EmitM Metadata Unit
  | .restElement _ => unsupported "object binding rest"
  | .other type => unsupported ("object binding property (" ++ type ++ ")")
  | .property kind method key value =>
    if kind ≠ "init" || method then unsupported "object binding property (Property)"
    else do
      let propertyMark ← mark
      emitPatternKey E loops objectReg key
      emitBindingPattern isInit value
      release propertyMark

def emitPatternElements (isInit : Bool) (arrayReg : Nat) :
    Nat → List (PatternElement Expr) → EmitM Metadata Unit
  | _, [] => pure ()
  | index, e :: rest => do
    emitPatternElement isInit arrayReg index e
    emitPatternElements isInit arrayReg (index + 1) rest

def emitPatternElement (isInit : Bool) (arrayReg index : Nat) :
    PatternElement Expr → EmitM Metadata Unit
  | .elision => pure ()
  | .element (.restElement _) => unsupported "array binding rest"
  | .element pattern => do
    let elementMark ← mark
    emitReg Op.Ldar arrayReg
    emitConst Op.GetProp (← internIndex index)
    emitBindingPattern isInit pattern
    release elementMark

end

/-- Is a declared name initialized rather than stored? -/
def initializes (kind : VarKind) (boundNames : List String) : Bool :=
  kind ≠ .var &&
    ((match boundNames with
      | [] => false
      | name :: _ => isActiveBlockLexical loops name) ||
      (E.isScript && E.scriptBindingsPredeclared))

def emitVarDeclarator (kind : VarKind) (d : VariableDeclarator Expr) : EmitM Metadata Unit :=
  let isInit := initializes E loops kind (appendPatternBoundNames d.id [])
  match d.init with
  | some init => do
    emitExpr E loops init
    emitBindingPattern E loops isInit d.id
  | none =>
    if kind ≠ .var then do
      emit0 Op.LdaUndef
      emitBindingPattern E loops isInit d.id
    else pure ()

def emitVarDecl (d : VariableDeclaration Expr) : EmitM Metadata Unit :=
  d.declarations.forM (emitVarDeclarator E loops d.kind)

/-! ### Blocks and scopes -/

/-- The names of a lexical block. -/
def blockNames (body : List (Statement Expr Class Function)) : List String :=
  body.foldl (fun names inner =>
    match inner with
    | .variableDeclaration d =>
      if d.kind ≠ .var then
        d.declarations.foldl (fun names d => appendPatternBoundNames d.id names) names
      else names
    | .functionDeclaration f => names ++ f.id.toList
    | .classDeclaration c => names ++ c.id.toList
    | _ => names) []

/-- The functions that a block initializes at its entry. -/
def blockFunctions (body : List (Statement Expr Class Function)) : List (String × Function) :=
  body.filterMap fun inner =>
    match inner with
    | .functionDeclaration f => f.id.map fun name => (name, f.node)
    | _ => none

/-- The functions whose name is assigned outside of the block too. -/
def annexBFunctionNames (functions : List (String × Function)) (lexicals : List String) :
    List String :=
  (functions.map Prod.fst).filter fun name =>
    !E.strictMode && !(cancelsAnnexBVarBinding loops name || E.hoistedLexicals.contains name ||
      lexicals.contains name || E.annexBCancelledNames.contains name)

def emitAnnexBFunctionAssignment (annexBNames : List String) (f : FunctionDeclaration Function) :
    EmitM Metadata Unit :=
  match f.id with
  | none => pure ()
  | some name =>
    if annexBNames.contains name then do
      let assignmentMark ← mark
      emitLoadName name
      let closureReg ← allocReg
      emitReg Op.Star closureReg
      let nameReg ← allocReg
      emitConst Op.LdaConst (← internName name)
      emitReg Op.Star nameReg
      emitCallBuiltin BUILTIN_ASSIGN_OUTER_NAME closureReg 2
      storeCompletion E
      release assignmentMark
    else pure ()

/-- The functions of a scope are initialized at its entry. -/
def emitScopeFunctions (functions : List (String × Function)) : EmitM Metadata Unit :=
  functions.forM fun (name, node) => do
    emitClosure E loops node
    initializeName name

/-- A block, with the emission of its items. -/
def emitBlock (body : List (Statement Expr Class Function))
    (items : List String → Inner Metadata) : EmitM Metadata Unit :=
  let lexicalNames := blockNames body
  -- without names there are no functions to assign
  if lexicalNames = [] then items [] loops
  else do
    let functions := blockFunctions body
    let annexBNames := annexBFunctionNames E loops functions []
    let blockMark ← mark
    let saveReg ← pushLexicalEnv lexicalNames
    let inner := loops ++ [scopeCtx .lexicalScope saveReg lexicalNames]
    emitScopeFunctions E inner functions
    items annexBNames inner
    emitCallBuiltin BUILTIN_RESTORE_ENV saveReg 1
    release blockMark

def emitWith (object : Expr) (body : Inner Metadata) : EmitM Metadata Unit := do
  let withMark ← mark
  emitExpr E loops object
  let objectReg ← allocReg
  emitReg Op.Star objectReg
  let saveReg ← allocReg
  emitCallBuiltin BUILTIN_PUSH_OBJECT_ENV objectReg 1
  emitReg Op.Star saveReg
  body (loops ++ [scopeCtx .lexicalScope saveReg []])
  emitCallBuiltin BUILTIN_RESTORE_ENV saveReg 1
  release withMark

/-! ### Conditionals -/

def emitIf (test : Expr) (consequent : Inner Metadata) (alternate : Option (Inner Metadata)) :
    EmitM Metadata Unit := do
  emitExpr E loops test
  let toElse ← emitJump Op.JumpIfFalse
  consequent loops
  match alternate with
  | some alternate =>
    let toEnd ← emitJump Op.Jump
    patch toElse (← here)
    alternate loops
    patch toEnd (← here)
  | none => patch toElse (← here)

/-- A function declaration as an arm of a conditional is a block of its own. -/
def emitConditionalStatement (statement : Statement Expr Class Function)
    (emit : Inner Metadata) : EmitM Metadata Unit :=
  match statement with
  | .functionDeclaration f =>
    emitBlock E loops [statement] fun annexBNames _ => emitAnnexBFunctionAssignment E annexBNames f
  | _ => emit loops

/-! ### Loops -/

def emitWhile (test : Expr) (body : Inner Metadata) : EmitM Metadata Unit := do
  let ctx ← pushLoop loops none true
  let inner := loops ++ [ctx]
  let top ← here
  emitExpr E inner test
  let exit ← emitJump Op.JumpIfFalse
  body inner
  emitJumpTo Op.Jump top
  patch exit (← here)
  patchTargetMarker ctx.breakMarker (← here)
  popLoop ctx (some top)

def emitDoWhile (body : Inner Metadata) (test : Expr) : EmitM Metadata Unit := do
  let ctx ← pushLoop loops none true
  let inner := loops ++ [ctx]
  let top ← here
  body inner
  let testPc ← here
  emitExpr E inner test
  emitJumpTo Op.JumpIfTrue top
  patchTargetMarker ctx.breakMarker (← here)
  popLoop ctx (some testPc)

/-- The test of a for loop, with the slot of its exit. -/
def emitForTest (test : Option Expr) : EmitM Metadata (Option Nat) :=
  match test with
  | some test => do
    emitExpr E loops test
    return some (← emitJump Op.JumpIfFalse)
  | none => return none

def emitForInit (init : Option (ForInit Expr)) : EmitM Metadata Unit :=
  match init with
  | some (.declaration d) => emitVarDecl E loops d
  | some (.expression e) => emitExprStatementDiscard E loops e
  | none => pure ()

def emitForUpdate (update : Option Expr) : EmitM Metadata Unit :=
  match update with
  | some update => emitExprStatementDiscard E loops update
  | none => pure ()

def patchExit (exit : Option Nat) : EmitM Metadata Unit :=
  match exit with
  | some slot => do patch slot (← here)
  | none => pure ()

/-- The name of a declaration that must not destructure. -/
def identifierName (what : String) : Pattern Expr → EmitM Metadata String
  | .identifier name => pure name
  | id => unsupported (what ++ "destructuring (" ++ id.type ++ ")")

/-- The names that a for loop declares for itself. -/
def forLexicalNames (d : VariableDeclaration Expr) : EmitM Metadata (List String) :=
  d.declarations.mapM fun declaration => identifierName "for " declaration.id

/-- The environment of the names that a for loop declares, with its register. -/
def pushForScope (init : Option (ForInit Expr)) : EmitM Metadata (Option (Nat × List String)) :=
  match init with
  | some (.declaration d) =>
    if d.kind ≠ .var then do
      let lexicalNames ← forLexicalNames d
      return some (← pushLexicalEnv lexicalNames, lexicalNames)
    else return none
  | _ => return none

/-- The control stack inside the scope of a for loop. -/
def forScopeLoops (scope : Option (Nat × List String)) : Loops :=
  match scope with
  | some (saveReg, names) => loops ++ [scopeCtx .lexicalScope saveReg names]
  | none => loops

/-- The end of a scope, where there is one. -/
def restoreScope (scope : Option (Nat × List String)) : EmitM Metadata Unit :=
  match scope with
  | some (saveReg, _) => emitCallBuiltin BUILTIN_RESTORE_ENV saveReg 1
  | none => pure ()

def emitFor (init : Option (ForInit Expr)) (test update : Option Expr) (body : Inner Metadata) :
    EmitM Metadata Unit := do
  let outer ← mark
  let scope ← pushForScope init
  let within := forScopeLoops loops scope
  emitForInit E within init
  let ctx ← pushLoop within none true
  let inner := within ++ [ctx]
  let top ← here
  let exit ← emitForTest E inner test
  body inner
  let updatePc ← here
  emitForUpdate E inner update
  emitJumpTo Op.Jump top
  patchExit exit
  patchTargetMarker ctx.breakMarker (← here)
  popLoop ctx (some updatePc)
  restoreScope scope
  release outer

/-- The value of one turn goes to the target of the loop; a lexical one has its own scope. -/
def emitForInOfTarget (valueReg : Nat) (left : ForInOfLeft Expr) :
    EmitM Metadata (Option (Nat × List String)) :=
  match left with
  | .declaration d =>
    match d.declarations with
    | [declaration] => do
      let name ← identifierName "for-in/of " declaration.id
      if d.kind = .var then do
        emitReg Op.Ldar valueReg
        storeName name
        return none
      else do
        let saveReg ← pushLexicalEnv [name]
        emitReg Op.Ldar valueReg
        initializeName name
        return some (saveReg, [name])
    | _ => unsupported "for-in/of declaration list"
  | .identifier name => do
    emitReg Op.Ldar valueReg
    storeName name
    return none
  | .other type => unsupported ("for-in/of target " ++ type)

def forInOfBuiltin : ForInOfKind → Nat
  | .forIn => BUILTIN_FOR_IN_KEYS
  | .forOf _ => BUILTIN_FOR_OF_VALUES

def emitForInOf (kind : ForInOfKind) (left : ForInOfLeft Expr) (right : Expr)
    (label : Option String) (body : Inner Metadata) : EmitM Metadata Unit :=
  if kind = .forOf true then unsupported "for-await-of"
  else do
    let outer ← mark
    emitExpr E loops right
    let sourceReg ← allocReg
    emitReg Op.Star sourceReg
    emitCallBuiltin (forInOfBuiltin kind) sourceReg 1
    let valuesReg ← allocReg
    emitReg Op.Star valuesReg
    emit0 Op.LdaZero
    let indexReg ← allocReg
    emitReg Op.Star indexReg
    let ctx ← pushLoop loops label true
    let inner := loops ++ [ctx]
    let top ← here
    emitReg Op.Ldar valuesReg
    emitConst Op.GetProp (← internName "length")
    emitReg Op.Lt indexReg
    let exit ← emitJump Op.JumpIfFalse
    emitReg Op.Ldar valuesReg
    emitReg Op.GetElem indexReg
    let valueReg ← allocReg
    emitReg Op.Star valueReg
    let scope ← emitForInOfTarget valueReg left
    body (forScopeLoops inner scope)
    restoreScope scope
    let updatePc ← here
    emitConst Op.LdaConst (← internIndex 1)
    emitReg Op.Add indexReg
    emitReg Op.Star indexReg
    emitJumpTo Op.Jump top
    patch exit (← here)
    patchTargetMarker ctx.breakMarker (← here)
    popLoop ctx (some updatePc)
    release outer

/-! ### Labelled statements -/

def emitLabeledWhile (label : String) (test : Expr) (body : Inner Metadata) :
    EmitM Metadata Unit := do
  let ctx ← pushLoop loops (some label) true
  let inner := loops ++ [ctx]
  let top ← here
  emitExpr E inner test
  let exit ← emitJump Op.JumpIfFalse
  body inner
  emitJumpTo Op.Jump top
  patch exit (← here)
  patchTargetMarker ctx.breakMarker (← here)
  popLoop ctx (some top)

def emitLabeledDoWhile (label : String) (body : Inner Metadata) (test : Expr) :
    EmitM Metadata Unit := do
  let ctx ← pushLoop loops (some label) true
  let inner := loops ++ [ctx]
  let top ← here
  body inner
  let testPc ← here
  emitExpr E inner test
  emitJumpTo Op.JumpIfTrue top
  patchTargetMarker ctx.breakMarker (← here)
  popLoop ctx (some testPc)

/-- The names a labelled for loop declares get no environment of their own. -/
def emitLabeledFor (label : String) (init : Option (ForInit Expr)) (test update : Option Expr)
    (body : Inner Metadata) : EmitM Metadata Unit := do
  let outer ← mark
  emitForInit E loops init
  let ctx ← pushLoop loops (some label) true
  let inner := loops ++ [ctx]
  let top ← here
  let exit ← emitForTest E inner test
  body inner
  let updatePc ← here
  emitForUpdate E inner update
  emitJumpTo Op.Jump top
  patchExit exit
  patchTargetMarker ctx.breakMarker (← here)
  popLoop ctx (some updatePc)
  release outer

/-- A labelled statement that is no loop can be the target of a break. -/
def emitLabeledBlock (label : String) (body : Inner Metadata) : EmitM Metadata Unit := do
  let ctx ← pushLoop loops (some label) false
  body (loops ++ [ctx])
  patchTargetMarker ctx.breakMarker (← here)
  popLoop ctx none

/-- A labelled statement, from the emission of the statement and that of what is inside it as
a loop. -/
def emitLabeled (label : String) (statement : Statement Expr Class Function)
    (whole loopBody : Inner Metadata) : EmitM Metadata Unit :=
  match statement with
  | .whileStatement test _ => emitLabeledWhile E loops label test loopBody
  | .doWhileStatement _ test => emitLabeledDoWhile E loops label loopBody test
  | .forStatement init test update _ => emitLabeledFor E loops label init test update loopBody
  | .forInOfStatement kind left right _ =>
    emitForInOf E loops kind left right (some label) loopBody
  | _ => emitLabeledBlock loops label whole

/-! ### Switch and try -/

/-- The names of the one environment of a switch: all of them, and those that are no
functions. -/
def switchNames (consequents : List (Statement Expr Class Function)) :
    EmitM Metadata (List String × List String) :=
  consequents.foldlM (fun (lexicalNames, nonFunctions) consequent =>
    match consequent with
    | .variableDeclaration d =>
      if d.kind ≠ .var then do
        let names ← d.declarations.mapM fun declaration => identifierName "" declaration.id
        return (lexicalNames ++ names, nonFunctions ++ names)
      else return (lexicalNames, nonFunctions)
    | .functionDeclaration f => return (lexicalNames ++ f.id.toList, nonFunctions)
    | .classDeclaration c => return (lexicalNames ++ c.id.toList, nonFunctions ++ c.id.toList)
    | _ => return (lexicalNames, nonFunctions)) ([], [])

def SwitchCase.test : SwitchCase Expr Class Function → Option Expr
  | .mk test _ => test

def SwitchCase.consequent : SwitchCase Expr Class Function → List (Statement Expr Class Function)
  | .mk _ consequent => consequent

def emitCaseTest (discriminantReg : Nat) (test : Option Expr) : EmitM Metadata (Option Nat) :=
  match test with
  | none => return none
  | some test => do
    emitExpr E loops test
    emitReg Op.StrictEq discriminantReg
    return some (← emitJump Op.JumpIfTrue)

/-- The index of the last clause without a test. -/
def defaultIndex (cases : List (SwitchCase Expr Class Function)) : Option Nat :=
  let tests := cases.map fun c => c.test.isNone
  (List.range cases.length).reverse.find? fun i => tests.getD i false

/-- The clauses, one after the other, each where its test jumps. -/
def emitCases (annexBNames : List String) (noMatch : Nat) (default : Option Nat) :
    Nat → List (Option Nat) → List (List String → Inner Metadata) → EmitM Metadata Unit
  | i, jump :: jumps, body :: bodies => do
    patchExit jump
    patchExit (if some i = default then some noMatch else none)
    body annexBNames loops
    emitCases annexBNames noMatch default (i + 1) jumps bodies
  | _, _, _ => pure ()

/-- The environment of a switch, with its functions, where there are names. -/
def pushSwitchScope (lexicalNames : List String) (functions : List (String × Function)) :
    EmitM Metadata (Option (Nat × List String)) :=
  if lexicalNames = [] then return none
  else do
    let saveReg ← pushLexicalEnv lexicalNames
    emitScopeFunctions E (loops ++ [scopeCtx .lexicalScope saveReg lexicalNames]) functions
    return some (saveReg, lexicalNames)

def emitSwitch (discriminant : Expr) (cases : List (SwitchCase Expr Class Function))
    (bodies : List (List String → Inner Metadata)) : EmitM Metadata Unit := do
  let switchMark ← mark
  emitExpr E loops discriminant
  let discriminantReg ← allocReg
  emitReg Op.Star discriminantReg
  -- the target is outside the environment of the clauses
  let switchCtx ← pushLoop loops none false
  let target := loops ++ [switchCtx]
  let consequents := cases.flatMap SwitchCase.consequent
  let (lexicalNames, nonFunctions) ← switchNames consequents
  let functions := blockFunctions consequents
  let annexBNames := annexBFunctionNames E target functions nonFunctions
  let scope ← pushSwitchScope E target lexicalNames functions
  let inner := forScopeLoops target scope
  let caseJumps ← cases.mapM fun c => emitCaseTest E inner discriminantReg c.test
  let noMatch ← emitJump Op.Jump
  emitCases inner annexBNames noMatch (defaultIndex cases) 0 caseJumps bodies
  patchExit (if (defaultIndex cases).isNone then some noMatch else none)
  restoreScope scope
  patchTargetMarker switchCtx.breakMarker (← here)
  popLoop switchCtx none
  release switchMark

/-- The bound name and the key of a property of a catch parameter. -/
def catchProperty : PatternProperty Expr → EmitM Metadata (String × String)
  | .property _ _ (.identifier key) (.identifier name) => return (name, key)
  | .property _ _ (.identifier _) value =>
    unsupported ("catch destructuring (" ++ value.type ++ ")")
  | p => unsupported ("catch destructuring (" ++ p.type ++ ")")

/-- The parameter of a catch clause is bound; its register, and its scope. -/
def emitCatchParam (param : Option (Pattern Expr)) :
    EmitM Metadata (Nat × Option (Nat × LoopCtx)) :=
  match param with
  | some (.objectPattern properties) => do
    let names ← properties.mapM catchProperty
    let boundNames := names.map Prod.fst
    let handlerReg ← allocReg
    let catchSaveReg ← pushLexicalEnv boundNames
    names.forM fun (name, key) => do
      emitReg Op.Ldar handlerReg
      emitConst Op.GetProp (← internName key)
      initializeName name
    return (handlerReg, some (catchSaveReg, scopeCtx .lexicalScope catchSaveReg boundNames))
  | some (.identifier name) => do
    let handlerReg ← allocReg
    let catchSaveReg ← pushLexicalEnv [name]
    emitReg Op.Ldar handlerReg
    initializeName name
    return (handlerReg, some (catchSaveReg, scopeCtx .simpleCatchScope catchSaveReg [name]))
  | some param => unsupported ("catch destructuring (" ++ param.type ++ ")")
  | none => do
    let handlerReg ← allocReg
    return (handlerReg, none)

def emitHandler (handlerEnvReg start stop : Nat) (param : Option (Pattern Expr))
    (body : Inner Metadata) : EmitM Metadata Unit := do
  let handlerPc ← here
  emitCallBuiltin BUILTIN_RESTORE_ENV handlerEnvReg 1
  let (handlerReg, scope) ← emitCatchParam param
  addExnRow start stop handlerPc handlerReg
  match scope with
  | some (catchSaveReg, ctx) => do
    body (loops ++ [ctx])
    emitCallBuiltin BUILTIN_RESTORE_ENV catchSaveReg 1
  | none => body loops

def emitOptionalHandler (handlerEnvReg start stop : Nat)
    (handler : Option (Option (Pattern Expr) × Inner Metadata)) : EmitM Metadata Unit :=
  match handler with
  | some (param, body) => emitHandler loops handlerEnvReg start stop param body
  | none => pure ()

/-- The environment of a try statement is saved for its handler. -/
def saveHandlerEnv (hasHandler : Bool) : EmitM Metadata Nat :=
  if hasHandler then do
    let handlerEnvReg ← allocReg
    emitCallBuiltin BUILTIN_SAVE_ENV 0 0
    emitReg Op.Star handlerEnvReg
    return handlerEnvReg
  else return 0

def emitOptional (inner : Option (Inner Metadata)) : EmitM Metadata Unit :=
  match inner with
  | some inner => inner loops
  | none => pure ()

def emitTry (block : Inner Metadata) (handler : Option (Option (Pattern Expr) × Inner Metadata))
    (finalizer : Option (Inner Metadata)) : EmitM Metadata Unit := do
  let tryMark ← mark
  let handlerEnvReg ← saveHandlerEnv handler.isSome
  let start ← here
  block loops
  let stop ← here
  let overCatchMarker : Int := 1800000000 - start
  emitJumpMarker Op.Jump overCatchMarker
  emitOptionalHandler loops handlerEnvReg start stop handler
  patchTargetMarker overCatchMarker (← here)
  emitOptional loops finalizer
  release tryMark

/-! ### Statements -/

mutual

def emitStatement (loops : Loops) : Statement Expr Class Function → EmitM Metadata Unit
  | .expressionStatement e => do
    emitExpr E loops e
    storeCompletion E
  | .variableDeclaration d => emitVarDecl E loops d
  | .functionDeclaration _ => pure ()
  | .classDeclaration c =>
    match c.id with
    | none => unsupported "anonymous class declaration"
    | some name => do
      emitClass E loops c.node
      if isActiveBlockLexical loops name || (E.isScript && E.scriptBindingsPredeclared) then
        initializeName name
      else storeName name
  | .blockStatement body =>
    emitBlock E loops body fun annexBNames inner => emitItems annexBNames inner body
  | .withStatement object body => emitWith E loops object fun inner => emitStatement inner body
  | .ifStatement test consequent alternate => do
    resetCompletion E
    emitIf E loops test
      (fun l => emitConditionalStatement E l consequent fun l => emitStatement l consequent)
      (emitAlternate alternate)
  | .whileStatement test body => do
    resetCompletion E
    emitWhile E loops test fun inner => emitStatement inner body
  | .doWhileStatement body test => do
    resetCompletion E
    emitDoWhile E loops (fun inner => emitStatement inner body) test
  | .forStatement init test update body => do
    resetCompletion E
    emitFor E loops init test update fun inner => emitStatement inner body
  | .forInOfStatement kind left right body => do
    resetCompletion E
    emitForInOf E loops kind left right none fun inner => emitStatement inner body
  | .switchStatement discriminant cases => do
    resetCompletion E
    emitSwitch E loops discriminant cases (emitCaseBodies cases)
  | .returnStatement argument => do
    match argument with
    | some e => emitExpr E loops e
    | none => emit0 Op.LdaUndef
    emit0 Op.Return
  | .breakStatement label => emitBreak loops label
  | .continueStatement label => emitContinue loops label
  | .throwStatement e => do
    emitExpr E loops e
    emit0 Op.Throw
  | .tryStatement block handler finalizer => do
    resetCompletion E
    emitTry loops (fun inner => emitStatement inner block) (emitHandlerBody handler)
      (emitFinalizer finalizer)
  | .labeledStatement label body => do
    resetCompletion E
    emitLabeled E loops label body (fun inner => emitStatement inner body) (emitLoopBody body)
  | .emptyStatement => pure ()
  | .other type => unsupported ("statement " ++ type)

/-- What is inside a loop, for the emission of a labelled one. -/
def emitLoopBody : Statement Expr Class Function → Inner Metadata
  | .whileStatement _ body => fun inner => emitStatement inner body
  | .doWhileStatement body _ => fun inner => emitStatement inner body
  | .forStatement _ _ _ body => fun inner => emitStatement inner body
  | .forInOfStatement _ _ _ body => fun inner => emitStatement inner body
  | _ => fun _ => pure ()

def emitAlternate : Option (Statement Expr Class Function) → Option (Inner Metadata)
  | none => none
  | some alternate =>
    some fun l => emitConditionalStatement E l alternate fun l => emitStatement l alternate

def emitFinalizer : Option (Statement Expr Class Function) → Option (Inner Metadata)
  | none => none
  | some finalizer => some fun inner => emitStatement inner finalizer

def emitHandlerBody : Option (CatchClause Expr Class Function) →
    Option (Option (Pattern Expr) × Inner Metadata)
  | none => none
  | some (.mk param body) => some (param, fun inner => emitStatement inner body)

/-- The items of a block or of a clause; functions are initialized already. -/
def emitItems (annexBNames : List String) (loops : Loops) :
    List (Statement Expr Class Function) → EmitM Metadata Unit
  | [] => pure ()
  | .functionDeclaration f :: rest => do
    emitAnnexBFunctionAssignment E annexBNames f
    emitItems annexBNames loops rest
  | item :: rest => do
    emitStatement loops item
    emitItems annexBNames loops rest

def emitCaseBodies : List (SwitchCase Expr Class Function) →
    List (List String → Inner Metadata)
  | [] => []
  | .mk _ consequent :: rest =>
    (fun annexBNames inner => emitItems annexBNames inner consequent) :: emitCaseBodies rest

end

end Js2Wasm.Interp
