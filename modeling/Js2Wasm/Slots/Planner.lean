import Mathlib.Data.List.Basic

/-! # Native i32 slots

Which locals of a function are stored as an i32: `planI32Slots` takes the locals that only
ever hold a signed 32-bit integer and the counters of `for` loops that `detectI32LoopVar`
accepts, and drops those with a write it cannot lower to an exact i32.

The planner knows a local by its name and by the range of the source its declaration is
visible in.  An identifier also carries the declaration the language resolves it to; the
planner never looks at it.
-/
namespace Js2Wasm.Slots

/-! ### Syntax trees -/

inductive Token where
  | equals | plusEquals | minusEquals | asteriskEquals | asteriskAsteriskEquals | slashEquals
  | percentEquals | ampersandEquals | barEquals | caretEquals | lessThanLessThanEquals
  | greaterThanGreaterThanEquals | greaterThanGreaterThanGreaterThanEquals
  | ampersandAmpersandEquals | barBarEquals | questionQuestionEquals
  | plus | minus | ampersand | bar | caret | lessThanLessThan | greaterThanGreaterThan
  | greaterThanGreaterThanGreaterThan
  | lessThan | lessThanEquals | greaterThan | greaterThanEquals
  | plusPlus | minusMinus
  | other
deriving DecidableEq

inductive Kind where
  /-- `decl` is the variable declaration it refers to; `none` for a parameter, a pattern, a
  function or anything else. -/
  | identifier (text : String) (decl : Option Nat)
  /-- The value, if it is an integer. -/
  | numericLiteral (value : Option Nat)
  /-- These four have their expression first. -/
  | parenthesizedExpression
  | asExpression
  | nonNullExpression
  | typeAssertion
  /-- The operands. -/
  | binaryExpression (operator : Token)
  | prefixUnaryExpression (operator : Token)
  | postfixUnaryExpression (operator : Token)
  /-- The name, the type if there is one, and the initializer if there is one. -/
  | variableDeclaration (initialized : Bool)
  | variableDeclarationList
  | expressionStatement
  /-- The parts that are there, and the body. -/
  | forStatement (initialized conditioned incremented : Bool)
  | forOfStatement
  | forInStatement
  | block
  | caseBlock
  | moduleBlock
  | sourceFile
  /-- A function, a method, an accessor or a constructor. -/
  | functionLike
  | other
deriving DecidableEq

/-- A node; `id` tells it from all others. -/
inductive Node where
  | mk (id : Nat) (kind : Kind) (pos stop : Nat) (children : List Node)

namespace Node

def id : Node → Nat
  | mk id _ _ _ _ => id

def kind : Node → Kind
  | mk _ kind _ _ _ => kind

def pos : Node → Nat
  | mk _ _ pos _ _ => pos

def stop : Node → Nat
  | mk _ _ _ stop _ => stop

def children : Node → List Node
  | mk _ _ _ _ children => children

/-- Of a binary expression, and of a unary one its operand. -/
def left (n : Node) : Option Node := n.children[0]?

def right (n : Node) : Option Node := n.children[1]?

def isFunctionLike (n : Node) : Bool := n.kind == .functionLike

/-- The text of an identifier. -/
def text? (n : Node) : Option String :=
  match n.kind with
  | .identifier text _ => some text
  | _ => none

/-- The name of a declaration that is not a pattern. -/
def declName? (n : Node) : Option String :=
  match n.kind with
  | .variableDeclaration _ => n.left.bind text?
  | _ => none

/-- The initializer of a variable declaration. -/
def initializer? (n : Node) : Option Node :=
  match n.kind with
  | .variableDeclaration true => n.children.getLast?
  | _ => none

end Node

/-- A node and its ancestors, the parent first. -/
structure Site where
  node : Node
  ancestors : List Node

mutual

/-- The nodes from a node down, in the order of the source, without those `skip` cuts off. -/
def sitesFrom (skip : Node → Bool) (ancestors : List Node) : Node → List Site
  | .mk id kind pos stop children =>
    if skip (.mk id kind pos stop children) then []
    else ⟨.mk id kind pos stop children, ancestors⟩ ::
      sitesBelow skip (.mk id kind pos stop children :: ancestors) children

def sitesBelow (skip : Node → Bool) (ancestors : List Node) : List Node → List Site
  | [] => []
  | n :: rest => sitesFrom skip ancestors n ++ sitesBelow skip ancestors rest

end

/-! ### Shapes of expressions -/

def Kind.peels : Kind → Bool
  | .parenthesizedExpression | .asExpression | .nonNullExpression | .typeAssertion => true
  | _ => false

def peelExpr : Node → Node
  | .mk id kind pos stop (child :: rest) =>
    if kind.peels then peelExpr child else .mk id kind pos stop (child :: rest)
  | .mk id kind pos stop [] => .mk id kind pos stop []

def i32Min : Int := -2147483648

def i32Max : Int := 2147483647

def literal? (n : Node) : Option Nat :=
  match n.kind with
  | .numericLiteral value => value
  | _ => none

/-- An integer literal that fits in a signed 32-bit integer; a negated one is not 0. -/
def i32LiteralValue (e : Node) : Option Int :=
  match (peelExpr e).kind with
  | .numericLiteral value => value.bind fun n => if (n : Int) ≤ i32Max then some n else none
  | .prefixUnaryExpression .minus => ((peelExpr e).left.bind literal?).bind fun n =>
      if n = 0 then none else if i32Min ≤ -(n : Int) then some (-n) else none
  | _ => none

def isBitwiseToken : Token → Bool
  | .ampersand | .bar | .caret | .lessThanLessThan | .greaterThanGreaterThan => true
  | _ => false

def isComparisonToken : Token → Bool
  | .lessThan | .lessThanEquals | .greaterThan | .greaterThanEquals => true
  | _ => false

/-- The expression is an exact i32, if the promoted names are. -/
def isCanonI32Lowerable (promoted : Node → Bool) (e : Node) : Bool :=
  if (i32LiteralValue e).isSome then true
  else match (peelExpr e).kind with
    | .identifier _ _ => promoted (peelExpr e)
    | .binaryExpression operator => isBitwiseToken operator || isComparisonToken operator
    | _ => false

/-- The bitwise operator of a compound assignment. -/
def compoundBitwiseToken : Token → Option Token
  | .ampersandEquals => some .ampersand
  | .barEquals => some .bar
  | .caretEquals => some .caret
  | .lessThanLessThanEquals => some .lessThanLessThan
  | .greaterThanGreaterThanEquals => some .greaterThanGreaterThan
  | _ => none

/-- `COMPOUND_ASSIGN_TOKENS` -/
def isAssignToken : Token → Bool
  | .equals | .plusEquals | .minusEquals | .asteriskEquals | .asteriskAsteriskEquals
  | .slashEquals | .percentEquals | .ampersandEquals | .barEquals | .caretEquals
  | .lessThanLessThanEquals | .greaterThanGreaterThanEquals
  | .greaterThanGreaterThanGreaterThanEquals | .ampersandAmpersandEquals | .barBarEquals
  | .questionQuestionEquals => true
  | _ => false

/-- `counter + literal` or `counter - literal`: is it a subtraction, and the literal. -/
def counterStepAssignment (rhs : Node) (counterName : String) : Option (Bool × Int) :=
  match (peelExpr rhs).kind with
  | .binaryExpression operator =>
    if operator = .plus ∨ operator = .minus then
      if ((peelExpr rhs).left.map peelExpr).bind Node.text? = some counterName then
        ((peelExpr rhs).right.bind i32LiteralValue).map fun step => (operator = .minus, step)
      else none
    else none
  | _ => none

/-! ### Loop counters -/

namespace Node

/-- The parts of a `for` statement: initializer, condition and incrementor. -/
def forParts (n : Node) : Option (Option Node × Option Node × Option Node) :=
  match n.kind with
  | .forStatement i c u =>
    some (if i then n.children[0]? else none,
      if c then n.children[i.toNat]? else none,
      if u then n.children[i.toNat + c.toNat]? else none)
  | _ => none

def isDeclarationList (n : Node) : Bool := n.kind == .variableDeclarationList

end Node

/-- The step of an incrementor is an integer literal. -/
def isStep (name : String) (incr : Node) : Bool :=
  match incr.kind with
  | .postfixUnaryExpression operator | .prefixUnaryExpression operator =>
    incr.left.bind Node.text? == some name && (operator == .plusPlus || operator == .minusMinus)
  | .binaryExpression operator =>
    incr.left.bind Node.text? == some name &&
      match operator with
      | .plusEquals | .minusEquals => (incr.right.bind literal?).isSome
      | .equals =>
        match incr.right with
        | some rhs =>
          (rhs.kind == .binaryExpression .plus || rhs.kind == .binaryExpression .minus) &&
            rhs.left.bind Node.text? == some name && (rhs.right.bind literal?).isSome
        | none => false
      | _ => false
  | _ => false

/-- A `for` loop whose counter begins at an integer literal, is compared in the condition and
steps by a literal: its name and where it begins. -/
def detectI32LoopVar (stmt : Node) : Option (String × Nat) :=
  match stmt.forParts with
  | some (some init, some cond, some incr) =>
    match init.isDeclarationList, init.children with
    | true, [decl] =>
      match decl.declName?, decl.initializer?.bind literal? with
      | some name, some value =>
        if (value : Int) ≤ i32Max ∧
            (match cond.kind with
              | .binaryExpression operator => isComparisonToken operator
              | _ => false) = true ∧
            (cond.left.bind Node.text? = some name ∨ cond.right.bind Node.text? = some name) ∧
            isStep name incr = true then
          some (name, value)
        else none
      | _, _ => none
    | _, _ => none
  | _ => none

/-! ### Declarations and their scopes -/

/-- `inner` lies in the range of `outer`. -/
def nodeContains (outer inner : Node) : Bool := outer.pos ≤ inner.pos && inner.stop ≤ outer.stop

def Kind.isLoopHead : Kind → Bool
  | .forStatement _ _ _ | .forOfStatement | .forInStatement => true
  | _ => false

def Kind.isBlockLike : Kind → Bool
  | .block | .sourceFile | .caseBlock | .moduleBlock => true
  | _ => false

/-- What a declaration is taken to be visible in. -/
def declarationScope (d : Site) : Option Node :=
  match d.ancestors with
  | _ :: owner :: above =>
    if owner.kind.isLoopHead then some owner
    else some ((above.find? fun n => n.kind.isBlockLike).getD owner)
  | _ => none

/-- The function: the names of its parameters and its body. -/
structure Fn where
  params : List String
  body : Node

/-- The nodes below the body that do not lie in a nested function. -/
def Fn.sites (fn : Fn) : List Site :=
  sitesBelow Node.isFunctionLike [fn.body] fn.body.children

/-- The declarations of variables, with their names. -/
def Fn.declarations (fn : Fn) : List (String × Site) :=
  fn.sites.filterMap fun s => s.node.declName?.map fun name => (name, s)

/-- The nodes of a scope without nested functions and the scopes of other declarations. -/
def walkBindingScope (scope : Node) (excluded : List Node) : List Site :=
  ⟨scope, []⟩ :: sitesBelow
    (fun n => n.isFunctionLike || excluded.any fun e => e.id == n.id) [scope] scope.children

mutual

/-- The name occurs below a nested function. -/
def occursNested (name : String) (inside : Bool) : Node → Bool
  | .mk id kind pos stop children =>
    if kind = .functionLike then occursBelow name true children
    else (inside && (Node.mk id kind pos stop children).text? == some name) ||
      occursBelow name inside children

def occursBelow (name : String) (inside : Bool) : List Node → Bool
  | [] => false
  | n :: rest => occursNested name inside n || occursBelow name inside rest

end

def isCapturedByNestedFunction (scope : Node) (name : String) : Bool :=
  occursBelow name false scope.children

/-! ### Writes -/

/-- The assignment is the right side of another. -/
def isChainedAssignmentLink (s : Site) : Bool :=
  let outer := s.ancestors.dropWhile fun n => n.kind == .parenthesizedExpression
  let inner := ((s.ancestors.takeWhile fun n => n.kind == .parenthesizedExpression).getLast?).getD
    s.node
  match outer with
  | parent :: _ =>
    parent.kind == .binaryExpression .equals && parent.right.map Node.id == some inner.id
  | [] => false

/-- The value of `x++` is discarded. -/
def isDiscardedIncDecPosition (s : Site) : Bool :=
  match s.ancestors with
  | parent :: _ =>
    parent.kind == .expressionStatement ||
      match parent.forParts with
      | some (_, _, some incr) => incr.id == s.node.id
      | _ => false
  | [] => false

/-- A node of the scope is no write of the name, or one with an exact i32. -/
def isLowerableWrite (name : String) (promoted : Node → Bool) (isProvenCounter : Bool)
    (s : Site) : Bool :=
  match s.node.kind with
  | .binaryExpression k =>
    if s.node.left.bind Node.text? = some name then
      if isChainedAssignmentLink s then false
      else if k = .equals then
        match s.node.right with
        | some rhs => (isProvenCounter && (counterStepAssignment rhs name).isSome) ||
            isCanonI32Lowerable promoted rhs
        | none => false
      else if (compoundBitwiseToken k).isSome then true
      else if (k = .plusEquals ∨ k = .minusEquals) ∧ isProvenCounter = true ∧
          (s.node.right.bind i32LiteralValue).isSome then true
      else !isAssignToken k
    else true
  | .prefixUnaryExpression k | .postfixUnaryExpression k =>
    if (k = .plusPlus ∨ k = .minusMinus) ∧ s.node.left.bind Node.text? = some name then
      isDiscardedIncDecPosition s
    else true
  | _ => true

structure Candidate where
  decl : Node
  name : String
  scope : Node
  siblingScopes : List Node
  isProvenCounter : Bool

def writeShapesAreLowerable (c : Candidate) (promoted : Node → Bool) : Bool :=
  (match c.decl.initializer? with
    | some init => isCanonI32Lowerable promoted init
    | none => false) &&
  (walkBindingScope c.scope c.siblingScopes).all
    (isLowerableWrite c.name promoted c.isProvenCounter)

/-! ### The plan -/

section
variable (fn : Fn) (mutatedLets canonNames : String → Bool)

/-- The declarations of the counters. -/
def counterDecls : List Nat :=
  fn.sites.filterMap fun s => do
    let _ ← detectI32LoopVar s.node
    let (init, _, _) ← s.node.forParts
    (← init).children.head?.map Node.id

/-- The candidates with a name, unless the scopes of its declarations overlap. -/
def candidatesOf (name : String) : List Candidate :=
  let decls := (fn.declarations.filter fun d => d.1 == name).map Prod.snd
  let scopes := decls.filterMap fun d => (declarationScope d).map fun scope => (d.node, scope)
  let disjoint := scopes.all fun a => scopes.all fun b => a.1.id == b.1.id ||
    (!nodeContains a.2 b.2 && !nodeContains b.2 a.2)
  if mutatedLets name && !fn.params.contains name && disjoint then
    scopes.filterMap fun d =>
      let counter := (counterDecls fn).contains d.1.id
      if counter || canonNames name then
        some ⟨d.1, name, d.2, (scopes.filter fun e => e.1.id != d.1.id).map Prod.snd, counter⟩
      else none
  else []

/-- The candidates that no nested function captures. -/
def candidates : List Candidate :=
  ((fn.declarations.map Prod.fst).eraseDups.flatMap (candidatesOf fn mutatedLets canonNames)).filter
    fun c => !isCapturedByNestedFunction c.scope c.name

/-- A use of a candidate, or of a name that is always an i32. -/
def promotedAt (cs : List Candidate) (use : Node) : Bool :=
  match use.text? with
  | some text => cs.any (fun c => c.name == text && nodeContains c.scope use) || canonNames text
  | none => false

/-- One round: each candidate in turn is dropped if it has a write that is not lowerable. -/
def sweep (cs : List Candidate) : List Candidate :=
  cs.foldl (fun now c =>
    if writeShapesAreLowerable c (promotedAt canonNames now) then now
    else now.filter fun e => e.decl.id != c.decl.id) cs

/-- Rounds until nothing changes. -/
def settle : Nat → List Candidate → List Candidate
  | 0, cs => cs
  | fuel + 1, cs =>
    if (sweep canonNames cs).length = cs.length then cs else settle fuel (sweep canonNames cs)

/-- The candidates that get an i32 slot. -/
def planI32Slots : List Candidate :=
  if fn.body.kind = .block then
    settle canonNames ((candidates fn mutatedLets canonNames).length + 1)
      (candidates fn mutatedLets canonNames)
  else []

end

end Js2Wasm.Slots
