import Js2Wasm.Lib.Ledger
import Js2Wasm.Refcount.HandleIR

/-! # Execution of handle IR

What a handle program does when it runs (`refcount/lower.ts` fixes the control
flow: a loop body that falls off its end leaves the loop, `continue` restarts it;
`cleanup` is `try … catch_all … rethrow`).

The engine decides every branch, every unwind of a call that may throw, and every
result, from all that was observable so far: the trace of calls, uses, branches
and exits with the *values* of the handles involved.  A handle names a cell: the
value it stands for and, when the frame owns it, the reference, numbered by a
`LinearLedger.Ledger`.  A `dup` copies the value into a cell with a reference of
its own; `free` settles the cell's reference; a `consumes` argument, an owned
result handed back and a thrown value settle theirs too, whatever the outcome of
the call.  Faults are recorded by the ledger and do not stop the run, so that the
same semantics runs the input of the pass, which has no refcount traffic at all.

`fuel` bounds the number of times each entered loop is restarted.
-/
namespace Js2Wasm.Refcount
open LinearLedger

variable {V : Type}

/-- What can be seen from outside the frame. -/
inductive Event (V : Type) where
  | call (callee : String) (args : List (Option V)) (raised : Bool)
  | use (value : V)
  | work (raised : Bool)
  | branch (taken : Bool)
  | break_ (label : String)
  | continue_ (label : String)
  | return_ (value : Option V)
  | throw_ (value : Option V)

/-- The engine's decisions, each from the trace so far (latest event first). -/
structure Engine (V : Type) where
  takes : List (Event V) → Bool
  raises : List (Event V) → Bool
  result : List (Event V) → V

/-- What a handle stands for. -/
structure Cell (V : Type) where
  value : V
  ref : Option Nat

structure State (V : Type) where
  env : HandleId → Cell V
  ledger : Ledger
  trace : List (Event V)

inductive Outcome (V : Type) where
  | fall
  | break_ (label : String)
  | continue_ (label : String)
  | return_ (value : Option V)
  | unwind (value : Option V)
  | outOfFuel

namespace State

def emit (st : State V) (e : Event V) : State V := { st with trace := e :: st.trace }

/-- Bind `h` to a value the frame does not own. -/
def bindBorrowed (st : State V) (h : HandleId) (v : V) : State V :=
  { st with env := Function.update st.env h ⟨v, none⟩ }

/-- Bind `h` to a value that arrives with a reference. -/
def bindOwned (st : State V) (h : HandleId) (v : V) : State V :=
  { st with env := Function.update st.env h ⟨v, some st.ledger.next⟩, ledger := st.ledger.acquire }

/-- An owned value that no handle names. -/
def acquireUnnamed (st : State V) : State V := { st with ledger := st.ledger.acquire }

def touch (st : State V) (h : HandleId) : State V :=
  { st with ledger := st.ledger.touch (st.env h).ref }

def settle (st : State V) (h : HandleId) : State V :=
  { st with ledger := st.ledger.settle (st.env h).ref }

/-- `JS_DupValue`: a new cell with a reference of its own. -/
def dup (st : State V) (h dest : HandleId) : State V :=
  (st.touch h).bindOwned dest (st.env h).value

/-- Hand the arguments over: a consumed one settles its reference. -/
def passArgs (st : State V) : List (Option HandleId) → List ArgOwnership → State V
  | [], _ => st
  | none :: args, owns => passArgs st args owns.tail
  | some h :: args, .consumes :: owns => passArgs (st.settle h) args owns
  | some h :: args, owns => passArgs (st.touch h) args owns.tail

/-- The values a call sees. -/
def argValues (st : State V) (args : List (Option HandleId)) : List (Option V) :=
  args.map fun a => a.map fun h => (st.env h).value

/-- Bind a call's result. -/
def bindResult (st : State V) (result : ResultOwnership) (dest : Option HandleId) (v : V) :
    State V :=
  match result, dest with
  | .owned, some d => st.bindOwned d v
  | .owned, none => st.acquireUnnamed
  | _, some d => st.bindBorrowed d v
  | _, none => st

end State

/-- One call: the arguments are handed over before the engine decides whether it
returns. -/
def execCall (ownership : OwnershipTable) (engine : Engine V) (callee : String)
    (args : List (Option HandleId)) (dest : Option HandleId) (st : State V) :
    Outcome V × State V :=
  match ownership callee with
  | none => (.fall, st)
  | some own =>
    let raised := own.throws && engine.raises st.trace
    let st' := (st.passArgs args own.args).emit (.call callee (st.argValues args) raised)
    if raised then (.unwind none, st') else (.fall, st'.bindResult own.result dest (engine.result st'.trace))

/-- Run a loop body until it leaves the loop. -/
def iterate (label : String) (body : State V → Outcome V × State V) :
    Nat → State V → Outcome V × State V
  | 0, st => (.outOfFuel, st)
  | fuel + 1, st =>
    match body st with
    | (.continue_ l, st') => if l = label then iterate label body fuel st' else (.continue_ l, st')
    | (.break_ l, st') => if l = label then (.fall, st') else (.break_ l, st')
    | r => r

section
variable (ownership : OwnershipTable) (result : ResultOwnership) (engine : Engine V) (fuel : Nat)

/-- A `return`: an owned result transfers its reference to the caller. -/
def execReturn (value : Option HandleId) (st : State V) : Outcome V × State V :=
  let v := value.map fun h => (st.env h).value
  let st := st.emit (.return_ v)
  match value with
  | none => (.return_ v, st)
  | some h => (.return_ v, if result = .owned then st.settle h else st.touch h)

/-- A `throw`: the exception carries a reference. -/
def execThrow (value : Option HandleId) (st : State V) : Outcome V × State V :=
  let v := value.map fun h => (st.env h).value
  let st := st.emit (.throw_ v)
  match value with
  | none => (.unwind v, st)
  | some h => (.unwind v, st.settle h)

/-- Continue with `rest` after a statement that fell through. -/
def andThen (r : Outcome V × State V) (rest : State V → Outcome V × State V) :
    Outcome V × State V :=
  match r with
  | (.fall, st) => rest st
  | r => r

/-- The end of a breakable region. -/
def leaveBlock (label : String) (r : Outcome V × State V) : Outcome V × State V :=
  match r with
  | (.break_ l, st) => if l = label then (.fall, st) else (.break_ l, st)
  | r => r

/-- `catch_all unwind; rethrow`. -/
def onUnwind (r : Outcome V × State V) (unwind : State V → Outcome V × State V) :
    Outcome V × State V :=
  match r with
  | (.unwind v, st) =>
    match unwind st with
    | (.fall, st') => (.unwind v, st')
    | r' => r'
  | r => r

mutual

def execStmt : HandleStmt → State V → Outcome V × State V
  | .call callee args dest _, st => execCall ownership engine callee args dest st
  | .use h, st => (.fall, (st.touch h).emit (.use (st.env h).value))
  | .scope body, st => execStmts body st
  | .if_ then_ else_, st =>
    let taken := engine.takes st.trace
    let st' := st.emit (.branch taken)
    if taken then execStmts then_ st' else execElse else_ st'
  | .block label body, st => leaveBlock label (execStmts body st)
  | .loop label body, st => iterate label (fun st => execStmts body st) fuel st
  | .break_ label, st => (.break_ label, st.emit (.break_ label))
  | .continue_ label, st => (.continue_ label, st.emit (.continue_ label))
  | .return_ value, st => execReturn result value st
  | .throw_ value, st => execThrow value st
  | .opaqueWork throws, st =>
    let raised := throws && engine.raises st.trace
    (if raised then .unwind none else .fall, st.emit (.work raised))
  | .dup h dest _, st => (.fall, st.dup h dest)
  | .free h _, st => (.fall, st.settle h)
  | .cleanup _ body unwind, st =>
    onUnwind (execStmts body st) (fun st => execStmts unwind st)

def execElse : Option (List HandleStmt) → State V → Outcome V × State V
  | none, st => (.fall, st)
  | some body, st => execStmts body st

def execStmts : List HandleStmt → State V → Outcome V × State V
  | [], st => (.fall, st)
  | s :: rest, st => andThen (execStmt s st) (fun st => execStmts rest st)

end

end

/-- The arguments' values, with no reference held. -/
def argumentState (args : HandleId → V) : State V where
  env h := ⟨args h, none⟩
  ledger := Ledger.empty
  trace := []

/-- The state a frame starts in: the arguments' values, with a reference for each
owned parameter. -/
def enter (args : HandleId → V) (params : List HandleParam) : State V :=
  (params.filter fun p => p.ownership == .owned).foldl
    (fun st p => st.bindOwned p.id (args p.id)) (argumentState args)

/-- Run a function. -/
def runFunction (ownership : OwnershipTable) (engine : Engine V) (fuel : Nat)
    (args : HandleId → V) (func : HandleFunction) : Outcome V × State V :=
  execStmts ownership func.result engine fuel func.body (enter args func.params)

end Js2Wasm.Refcount
