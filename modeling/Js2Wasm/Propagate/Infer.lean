import Js2Wasm.Propagate.Lattice

/-! # Expression inference

The parts of the syntax tree that the type propagation distinguishes, and the functions of
`ir/propagate.ts` that read it: the type of an expression, the types a body returns, and
the call sites of a body.
-/
namespace Js2Wasm.Propagate

abbrev UnitId := Nat

/-- An occurrence of a name. -/
structure Identifier where
  text : String
  pos : Nat

inductive PrefixOperator where
  | minus | plus | exclamation | tilde | plusPlus | minusMinus
  deriving DecidableEq

inductive BinaryOperator where
  | plus | minus | asterisk | slash | percent
  | ampersand | bar | caret | lessLess | greaterGreater | greaterGreaterGreater
  | less | lessEquals | greater | greaterEquals
  | equalsEqualsEquals | equalsEquals | exclamationEqualsEquals | exclamationEquals
  | ampersandAmpersand | barBar
  | other
  deriving DecidableEq

/-- A node.  `functionLike` is a function, method, accessor or class, which no pass of the
propagation enters; `other` is any kind that none of them tells apart. -/
inductive Node where
  | parenthesized (expression : Node)
  /-- `integer` is the value, if it is finite and integral. -/
  | numericLiteral (text : String) (integer : Option Int)
  | booleanLiteral (value : Bool)
  | stringLiteral (text : String)
  | noSubstitutionTemplateLiteral (text : String)
  | identifier (id : Identifier)
  | thisKeyword
  | prefixUnary (operator : PrefixOperator) (operand : Node)
  | binary (left : Node) (operator : BinaryOperator) (right : Node)
  | conditional (condition whenTrue whenFalse : Node)
  | call (expression : Node) (arguments : List Node)
  | new_ (expression : Node) (arguments : List Node)
  | objectLiteral (properties : List Node)
  | propertyAssignment (name : Node) (initializer : Node)
  | shorthandPropertyAssignment (name : Identifier)
  /-- A private name is `none`. -/
  | propertyAccess (expression : Node) (questionDot : Bool) (name : Option String)
  | elementAccess (expression : Node) (questionDot : Bool) (argument : Node)
  | block (statements : List Node)
  | variableStatement (declarations : List Node)
  | variableDeclaration (name : Node) (initializer : Option Node)
  | return_ (expression : Option Node)
  | if_ (expression thenStatement : Node) (elseStatement : Option Node)
  | expressionStatement (expression : Node)
  | functionLike
  | other (children : List Node)

/-- What the propagation gets from outside. -/
structure Env where
  i32DomainEnabled : Bool
  fnctorCtorParamTypesFlagEnabled : Bool
  localeCompare : String → String → Int
  resolveCallTarget : Identifier → Option UnitId
  /-- The admission of a constructor site; without a resolver nothing is admitted. -/
  resolveFnctorAdmission : Node → List (String × LatticeType) → Bool

structure TypeMapEntry where
  params : List LatticeType
  returnType : LatticeType

abbrev Scope := List (String × LatticeType)

def Scope.get (scope : Scope) (name : String) : Option LatticeType := scope.lookup name
def Scope.has (scope : Scope) (name : String) : Bool := (scope.get name).isSome
def Scope.set (scope : Scope) (name : String) (t : LatticeType) : Scope := (name, t) :: scope

/-! ### Classification -/

def f64Compatible : LatticeType → Bool
  | .atom .f64 | .atom .i32 | .atom .u32 | .unknown => true
  | _ => false

def boolCompatible : LatticeType → Bool
  | .atom .bool | .unknown => true
  | _ => false

def irFnctorInputStringAtom : LatticeAtom := .object [.mk "input" .string]

/-- The UTF-16 code units, by which names are sorted. -/
def codeUnits (s : String) : List Nat :=
  s.toList.flatMap fun c =>
    if c.toNat < 0x10000 then [c.toNat]
    else [0xD800 + (c.toNat - 0x10000) / 0x400, 0xDC00 + (c.toNat - 0x10000) % 0x400]

def Field.name : Field → String
  | .mk name _ => name

def Field.type : Field → LatticeAtom
  | .mk _ type => type

def sortFields (fields : List Field) : List Field :=
  fields.insertionSort fun f g => ¬ codeUnits g.name < codeUnits f.name

mutual

def objectAtomDepth : LatticeAtom → Nat
  | .object fields => fieldsDepth fields + 1
  | _ => 0

def fieldsDepth : List Field → Nat
  | [] => 0
  | f :: rest => max (fieldDepth f) (fieldsDepth rest)

def fieldDepth : Field → Nat
  | .mk _ type => objectAtomDepth type

end

/-- A static property name. -/
def phase1PropertyName : Node → Option String
  | .identifier id => some id.text
  | .stringLiteral text => some text
  | .numericLiteral text _ => some text
  | _ => none

/-- The type of a field of a receiver. -/
def fieldType (receiver : LatticeType) (name : String) : LatticeType :=
  match receiver with
  | .atom (.object fields) =>
    match fields.find? fun f => f.name = name with
    | some f => .atom f.type
    | none => .dynamic
  | _ => .dynamic

section
variable (env : Env)

def numericType (integer : Option Int) : LatticeType :=
  match integer with
  | some v =>
    if env.i32DomainEnabled then
      if -0x80000000 ≤ v ∧ v < 0x80000000 then .atom .i32
      else if 0 ≤ v ∧ v < 0x100000000 then .atom .u32
      else .atom .f64
    else .atom .f64
  | none => .atom .f64

def prefixType (operator : PrefixOperator) (rand : LatticeType) : LatticeType :=
  match operator with
  | .minus | .plus => if f64Compatible rand then .atom .f64 else .dynamic
  | .exclamation => if boolCompatible rand then .atom .bool else .dynamic
  | .tilde => if env.i32DomainEnabled && f64Compatible rand then .atom .i32 else .dynamic
  | .plusPlus | .minusMinus => .dynamic

/-- Neither `unknown` nor `dynamic`. -/
def isConcrete : LatticeType → Bool
  | .unknown | .dynamic => false
  | _ => true

def binaryType (operator : BinaryOperator) (l r : LatticeType) : LatticeType :=
  let numeric := f64Compatible l && f64Compatible r
  match operator with
  | .plus | .minus | .asterisk | .slash | .percent => if numeric then .atom .f64 else .dynamic
  | .ampersand | .bar | .caret | .lessLess | .greaterGreater =>
    if env.i32DomainEnabled && numeric then .atom .i32 else .dynamic
  | .greaterGreaterGreater => if env.i32DomainEnabled && numeric then .atom .u32 else .dynamic
  | .less | .lessEquals | .greater | .greaterEquals => if numeric then .atom .bool else .dynamic
  | .equalsEqualsEquals | .equalsEquals | .exclamationEqualsEquals | .exclamationEquals =>
    if numeric then .atom .bool
    else if boolCompatible l && boolCompatible r then .atom .bool
    else .dynamic
  | .ampersandAmpersand | .barBar =>
    if isConcrete l && isConcrete r then join env.localeCompare l r else .dynamic
  | .other => .dynamic

/-- The integer builtins. -/
def mathBuiltin : Node → Option LatticeType
  | .propertyAccess (.identifier receiver) _ (some method) =>
    if env.i32DomainEnabled && receiver.text = "Math" then
      if method = "imul" then some (.atom .i32)
      else if method = "clz32" then some (.atom .u32)
      else none
    else none
  | _ => none

/-! ### Expressions -/

variable (entries : UnitId → Option TypeMapEntry)

/-- The inferred return type of a callee. -/
def callType : Node → LatticeType
  | .identifier id =>
    match (env.resolveCallTarget id).bind entries with
    | some entry => entry.returnType
    | none => .dynamic
  | _ => .dynamic

/-- The `arguments` of the function itself. -/
def isArguments (scope : Scope) : Node → Bool
  | .identifier id => id.text = "arguments" && !scope.has "arguments"
  | _ => false

mutual

def inferExpr : Node → Scope → LatticeType
  | .parenthesized e, scope => inferExpr e scope
  | .numericLiteral _ integer, _ => numericType env integer
  | .booleanLiteral _, _ => .atom .bool
  | .stringLiteral _, _ | .noSubstitutionTemplateLiteral _, _ => .atom .string
  | .identifier id, scope => (scope.get id.text).getD .dynamic
  | .prefixUnary operator e, scope => prefixType env operator (inferExpr e scope)
  | .binary left operator right, scope =>
    binaryType env operator (inferExpr left scope) (inferExpr right scope)
  | .conditional condition whenTrue whenFalse, scope =>
    if boolCompatible (inferExpr condition scope) then
      join env.localeCompare (inferExpr whenTrue scope) (inferExpr whenFalse scope)
    else .dynamic
  | .call callee _, _ => (mathBuiltin env callee).getD (callType env entries callee)
  | .new_ e args, scope =>
    if env.resolveFnctorAdmission (.new_ e args) scope then .atom irFnctorInputStringAtom
    else .dynamic
  | .objectLiteral properties, scope =>
    if properties.isEmpty then .dynamic
    else match inferProperties properties [] scope with
      | none => .dynamic
      | some fields =>
        let atom := LatticeAtom.object (sortFields fields)
        if objectAtomDepth atom > LATTICE_OBJECT_SHAPE_MAX_DEPTH then .dynamic else .atom atom
  | .propertyAccess e questionDot name, scope =>
    match name with
    | none => .dynamic
    | some name =>
      if questionDot then .dynamic
      else if name = "length" && isArguments scope e then .atom .f64
      else fieldType (inferExpr e scope) name
  | .elementAccess e questionDot argument, scope =>
    if questionDot then .dynamic
    else match argument with
      | .stringLiteral text | .noSubstitutionTemplateLiteral text =>
        fieldType (inferExpr e scope) text
      | _ => .dynamic
  | .thisKeyword, scope => (scope.get "<this>").getD .dynamic
  | _, _ => .dynamic

/-- The fields of an object literal, unless one of them has no atom. -/
def inferProperties : List Node → List String → Scope → Option (List Field)
  | [], _, _ => some []
  | .propertyAssignment name initializer :: rest, seen, scope =>
    match phase1PropertyName name with
    | none => none
    | some name =>
      if name ∈ seen then none
      else match inferExpr initializer scope with
        | .atom a => (inferProperties rest (name :: seen) scope).map (.mk name a :: ·)
        | _ => none
  | .shorthandPropertyAssignment id :: rest, seen, scope =>
    if id.text ∈ seen then none
    else match (scope.get id.text).getD .dynamic with
      | .atom a => (inferProperties rest (id.text :: seen) scope).map (.mk id.text a :: ·)
      | _ => none
  | _ :: _, _, _ => none

end

/-! ### Returns -/

/-- The declarations of a `let` or `const`. -/
def declare (scope : Scope) : Node → Scope
  | .variableDeclaration (.identifier id) (some initializer) =>
    scope.set id.text (inferExpr env entries initializer scope)
  | _ => scope

mutual

/-- `walk`: the scope after the node, and the types returned in it.  Statements are found in
an expression only inside a function. -/
def walk : Node → Scope → Scope × List LatticeType
  | .block statements, scope => (scope, (walkAll statements scope).2)
  | .variableStatement declarations, scope => (declarations.foldl (declare env entries) scope, [])
  | .return_ (some e), scope => (scope, [inferExpr env entries e scope])
  | .if_ _ thenStatement elseStatement, scope =>
    let x := walk thenStatement scope
    let y := walkOption elseStatement x.1
    (y.1, x.2 ++ y.2)
  | .other children, scope => walkAll children scope
  | _, scope => (scope, [])

def walkAll : List Node → Scope → Scope × List LatticeType
  | [], scope => (scope, [])
  | node :: rest, scope =>
    let x := walk node scope
    let y := walkAll rest x.1
    (y.1, x.2 ++ y.2)

def walkOption : Option Node → Scope → Scope × List LatticeType
  | none, scope => (scope, [])
  | some node, scope => walk node scope

end

/-- The types a body returns, in order. -/
def walkBodyForReturns (body : List Node) (scope : Scope) : List LatticeType :=
  (walkAll env entries body scope).2

/-! ### Call sites -/

structure CallSite where
  callee : UnitId
  argExprs : List Node

/-- The site of one call or construction, if it is resolved. -/
def siteOf (args : List Node) : Node → List CallSite
  | .identifier id => ((env.resolveCallTarget id).map fun callee => ⟨callee, args⟩).toList
  | _ => []

mutual

/-- The call sites in a node, outside nested functions. -/
def callSites : Node → List CallSite
  | .call e args => siteOf env args e ++ callSites e ++ callSitesAll args
  | .new_ e args =>
    (if env.fnctorCtorParamTypesFlagEnabled then siteOf env args e else []) ++ callSites e ++
      callSitesAll args
  | .parenthesized e | .prefixUnary _ e | .propertyAccess e _ _ | .expressionStatement e =>
    callSites e
  | .binary left _ right => callSites left ++ callSites right
  | .conditional condition whenTrue whenFalse =>
    callSites condition ++ callSites whenTrue ++ callSites whenFalse
  | .propertyAssignment name initializer => callSites name ++ callSites initializer
  | .elementAccess e _ argument => callSites e ++ callSites argument
  | .variableDeclaration name initializer => callSites name ++ callSitesOption initializer
  | .return_ e => callSitesOption e
  | .if_ e thenStatement elseStatement =>
    callSites e ++ callSites thenStatement ++ callSitesOption elseStatement
  | .objectLiteral nodes | .block nodes | .variableStatement nodes | .other nodes =>
    callSitesAll nodes
  | .numericLiteral _ _ | .booleanLiteral _ | .stringLiteral _
  | .noSubstitutionTemplateLiteral _ | .identifier _ | .thisKeyword
  | .shorthandPropertyAssignment _ | .functionLike => []

def callSitesAll : List Node → List CallSite
  | [] => []
  | node :: rest => callSites node ++ callSitesAll rest

def callSitesOption : Option Node → List CallSite
  | none => []
  | some node => callSites node

end

end

end Js2Wasm.Propagate
