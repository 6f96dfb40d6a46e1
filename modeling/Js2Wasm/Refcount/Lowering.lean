import Js2Wasm.Lib.Structured
import Js2Wasm.Refcount.HandleIR

/-! # Lowering handle IR to WebAssembly

`refcount/lower.ts`: a `cleanup` becomes `try … catch_all … rethrow`, a `free` a call of the
engine's release entry point, `break` and `continue` become branches with computed depths.

The caller's hooks push what the handle IR does not model; what they promise is part of
them (`Hook`).  Notes on opaque statements are display text and are left out.

Both sides make the same choices: which way each branch goes, which calls throw, what they
return.  A choice is made at a time, the number of choices made so far; a call's depends on
its function as well.

On the side of the handle IR a handle names a cell, and two handles may share one: where the
engine's `JS_DupValue` returns its operand, the caller keeps both in one local.  On the side
of WebAssembly an operand remembers the local it was read from.
-/
namespace Js2Wasm.Refcount.Lower
open Structured

/-! ### Instructions -/

/-- An instruction of a hook: it pops and pushes scalars. -/
structure Plain where
  pops : Nat
  pushes : Nat

/-- Run the instructions of a hook on the operands. -/
def runPlain {α : Type} (scalar : α) : List Plain → List α → Option (List α)
  | [], operands => some operands
  | p :: ps, operands =>
    if p.pops ≤ operands.length then
      runPlain scalar ps (List.replicate p.pushes scalar ++ operands.drop p.pops)
    else none

/-- Instructions that push `n` scalars and touch nothing else. -/
structure Hook (n : Nat) where
  code : List Plain
  pushes : ∀ (α : Type) (scalar : α) (operands : List α),
    runPlain scalar code operands = some (List.replicate n scalar ++ operands)

inductive WasmInstr where
  | plain (p : Plain)
  | i32Const (value : Int)
  | localGet (index : Nat)
  | localSet (index : Nat)
  | call (funcIdx : Nat)
  | drop
  | return_
  | throw_ (tagIdx : Nat)

abbrev WasmCode := List (Code WasmInstr)

/-! ### The lowering -/

structure RefcountRuntime where
  dupFuncIdx : Nat
  freeFuncIdx : Nat
  /-- Does the free shim leave a value on the stack? -/
  freeReturnsValue : Bool
  calleeFuncIdx : String → Option Nat
  handleLocal : HandleId → Option Nat
  emitContext : Hook 1
  emitScalarArg : Option (String → Nat → Hook 1)
  emitCondition : Option (Hook 1)
  emitUse : Option (HandleId → Hook 0)
  emitOpaque : Option (Hook 0)
  throwTagIdx : Option Nat
  /-- Does a callee leave a value that must be dropped when unused? -/
  calleeReturnsValue : String → Bool

inductive Target where
  | break_
  | continue_
  deriving DecidableEq

def Target.text : Target → String
  | break_ => "break"
  | continue_ => "continue"

/-- What a label is the target of, if it has a name. -/
abbrev LabelEntry := Option (String × Target)

namespace RefcountRuntime

def hook {n : Nat} (h : Hook n) : WasmCode := h.code.map fun p => .basic (.plain p)

/-- A hook that may be missing, with its default. -/
def hookOr {n : Nat} (h : Option (Hook n)) (default_ : WasmCode) : WasmCode :=
  match h with
  | some h => hook h
  | none => default_

end RefcountRuntime

section
variable (rt : RefcountRuntime) (name : String)
open RefcountRuntime

def localOf (h : HandleId) : Except String Nat :=
  match rt.handleLocal h with
  | some idx => .ok idx
  | none => .error ("refcount lowering: no Wasm local assigned to handle h" ++ toString h ++ " in " ++
      name ++ ".")

/-- The depth of the innermost label with the target; the stack has the innermost first. -/
def depthOf (stack : List LabelEntry) (label : String) (target : Target) : Option Nat :=
  stack.findIdx? (· = some (label, target))

def depthTo (stack : List LabelEntry) (label : String) (target : Target) : Except String Nat :=
  match depthOf stack label target with
  | some depth => .ok depth
  | none => .error ("refcount lowering: no Wasm label for '" ++ target.text ++ " " ++ label ++
      "' in " ++ name ++ ". The handle-scope pass should have rejected this earlier.")

/-- `qjs_free_value(ctx, h)`. -/
def freeCall (h : HandleId) : Except String WasmCode := do
  let idx ← localOf rt name h
  pure (hook rt.emitContext ++ [.basic (.localGet idx), .basic (.call rt.freeFuncIdx)] ++
    if rt.freeReturnsValue then [.basic .drop] else [])

/-- `qjs_dup(ctx, h) -> h2`: a new handle, stored into its own local. -/
def dupCall (src dst : HandleId) : Except String WasmCode := do
  let idx ← localOf rt name src
  let idx' ← localOf rt name dst
  pure (hook rt.emitContext ++ [.basic (.localGet idx), .basic (.call rt.dupFuncIdx),
    .basic (.localSet idx')])

/-- The arguments from position `k` on. -/
def lowerArgs (callee : String) : Nat → List (Option HandleId) → Except String WasmCode
  | _, [] => .ok []
  | k, none :: args => do
    let rest ← lowerArgs callee (k + 1) args
    pure (hookOr (rt.emitScalarArg.map fun f => f callee k) [.basic (.i32Const 0)] ++ rest)
  | k, some h :: args => do
    let idx ← localOf rt name h
    let rest ← lowerArgs callee (k + 1) args
    pure (.basic (.localGet idx) :: rest)

/-- What is done with the result of a call. -/
def lowerResult (callee : String) : Option HandleId → Except String WasmCode
  | some dest => do
    let idx ← localOf rt name dest
    pure [.basic (.localSet idx)]
  | none => .ok (if rt.calleeReturnsValue callee then [.basic .drop] else [])

def lowerCall (callee : String) (args : List (Option HandleId)) (dest : Option HandleId) :
    Except String WasmCode :=
  match rt.calleeFuncIdx callee with
  | none => .error ("refcount lowering: no function index for callee '" ++ callee ++ "'.")
  | some funcIdx => do
    let args ← lowerArgs rt name callee 0 args
    let result ← lowerResult rt name callee dest
    pure (args ++ .basic (.call funcIdx) :: result)

/-- Push the operand of a `return` or a `throw`. -/
def lowerOperand : Option HandleId → Except String WasmCode
  | none => .ok []
  | some h => do
    let idx ← localOf rt name h
    pure [.basic (.localGet idx)]

def lowerThrow (value : Option HandleId) : Except String WasmCode :=
  match rt.throwTagIdx with
  | none => .error ("refcount lowering: " ++ name ++
      " contains an explicit throw but no exception tag was supplied.")
  | some tag => do
    let operand ← lowerOperand rt name value
    pure (operand ++ [.basic (.throw_ tag)])

mutual

def lowerStmt : HandleStmt → List LabelEntry → Except String WasmCode
  | .call callee args dest _, _ => lowerCall rt name callee args dest
  | .dup value dest _, _ => dupCall rt name value dest
  | .free value _, _ => freeCall rt name value
  | .use value, _ => .ok (hookOr (rt.emitUse.map fun f => f value) [])
  | .opaqueWork _, _ => .ok (hookOr rt.emitOpaque [])
  | .scope body, stack => lower body stack
  | .if_ then_ else_, stack => do
    let then_ ← lower then_ (none :: stack)
    let otherwise_ ← lowerElse else_ (none :: stack)
    pure (hookOr rt.emitCondition [.basic (.i32Const 1)] ++ [.if_ then_ otherwise_])
  | .block label body, stack => do
    let body ← lower body (some (label, .break_) :: stack)
    pure [.block body]
  | .loop label body, stack => do
    let body ← lower body (some (label, .continue_) :: some (label, .break_) :: stack)
    pure [.block [.loop body]]
  | .cleanup _ body unwind, stack => do
    let body ← lower body (none :: stack)
    let unwind ← lower unwind (none :: stack)
    pure [.try_ body (unwind ++ [.rethrow 0])]
  | .break_ label, stack => do
    let depth ← depthTo name stack label .break_
    pure [.br depth]
  | .continue_ label, stack => do
    let depth ← depthTo name stack label .continue_
    pure [.br depth]
  | .return_ value, _ => do
    let operand ← lowerOperand rt name value
    pure (operand ++ [.basic .return_])
  | .throw_ value, _ => lowerThrow rt name value

def lowerElse : Option (List HandleStmt) → List LabelEntry →
    Except String (Option WasmCode)
  | none, _ => .ok none
  | some body, stack => do
    let body ← lower body stack
    pure (some body)

def lower : List HandleStmt → List LabelEntry → Except String WasmCode
  | [], _ => .ok []
  | s :: rest, stack => do
    let code ← lowerStmt s stack
    let rest ← lower rest stack
    pure (code ++ rest)

end

end

/-- Lower a rewritten handle function body to WebAssembly instructions. -/
def lowerHandleFunction (func : HandleFunction) (rt : RefcountRuntime) : Except String WasmCode :=
  lower rt func.name func.body []

/-! ## Running handle IR and its lowering -/

variable {V : Type}

/-! ### Handle IR -/

inductive HandleEvent (V : Type) where
  | call (callee : String) (args : List (Option (HandleId × V))) (raised : Bool)
  | dup (value : HandleId × V) (dest : HandleId)
  | free (value : HandleId × V)
  | branch (taken : Bool)
  | throw_ (value : Option (HandleId × V))
  | return_ (value : Option (HandleId × V))

/-- The choices of a run. -/
structure Oracle (V : Type) where
  takes : Nat → Bool
  raises : String → Nat → Bool
  result : String → Nat → V
  dupResult : Nat → V

/-- The values of the cells, what has happened (latest first), and the time. -/
structure HandleState (V : Type) where
  cells : Nat → V
  trace : List (HandleEvent V)
  clock : Nat

inductive Outcome (V : Type) where
  | fall
  | break_ (label : String)
  | continue_ (label : String)
  | return_
  | unwind (value : Option (HandleId × V))
  | outOfFuel

namespace HandleState

def emit (st : HandleState V) (e : HandleEvent V) : HandleState V :=
  { st with trace := e :: st.trace }

/-- An event that a choice comes with. -/
def tick (st : HandleState V) (e : HandleEvent V) : HandleState V :=
  { st.emit e with clock := st.clock + 1 }

def bind (st : HandleState V) (cell : Nat) (v : V) : HandleState V :=
  { st with cells := Function.update st.cells cell v }

end HandleState

/-- Continue after a statement that fell through. -/
def thenRun (r : Outcome V × HandleState V) (rest : HandleState V → Outcome V × HandleState V) :
    Outcome V × HandleState V :=
  match r with
  | (.fall, st) => rest st
  | r => r

/-- The end of a breakable region. -/
def leaveRegion (label : String) (r : Outcome V × HandleState V) : Outcome V × HandleState V :=
  match r with
  | (.break_ l, st) => if l = label then (.fall, st) else (.break_ l, st)
  | r => r

/-- Run a loop body until it does not continue the loop. -/
def restartLoop (label : String) (body : HandleState V → Outcome V × HandleState V) :
    Nat → HandleState V → Outcome V × HandleState V
  | 0, st => (.outOfFuel, st)
  | fuel + 1, st =>
    match body st with
    | (.continue_ l, st') =>
      if l = label then restartLoop label body fuel st' else (.continue_ l, st')
    | r => r

section
variable {label : String} {body : HandleState V → Outcome V × HandleState V} {fuel : Nat}
  {st st' : HandleState V}

theorem restartLoop_again (h : body st = (.continue_ label, st')) :
    restartLoop label body (fuel + 1) st = restartLoop label body fuel st' := by
  rw [restartLoop, h]
  exact if_pos rfl

theorem restartLoop_leave (h : (body st).1 ≠ .continue_ label) :
    restartLoop label body (fuel + 1) st = body st := by
  rw [restartLoop]
  split
  · rename_i l st' hs
    have hne : l ≠ label := fun hl => h (by rw [hs, hl])
    rw [if_neg hne, hs]
  · rfl

end

/-- Run `unwind` if the body unwinds, and re-raise. -/
def cleanUp (r : Outcome V × HandleState V) (unwind : HandleState V → Outcome V × HandleState V) :
    Outcome V × HandleState V :=
  match r with
  | (.unwind v, st) => thenRun (unwind st) fun st' => (.unwind v, st')
  | r => r

section
variable (cell : HandleId → Nat) (oracle : Oracle V) (fuel : Nat)

/-- A handle with its value. -/
def operandOf (st : HandleState V) (h : HandleId) : HandleId × V := (h, st.cells (cell h))

def execCall (callee : String) (args : List (Option HandleId)) (dest : Option HandleId)
    (st : HandleState V) : Outcome V × HandleState V :=
  let raised := oracle.raises callee st.clock
  let st' := st.tick (.call callee (args.map (Option.map (operandOf cell st))) raised)
  if raised then (.unwind none, st')
  else (.fall, dest.elim st' fun d => st'.bind (cell d) (oracle.result callee st.clock))

mutual

def execStmt : HandleStmt → HandleState V → Outcome V × HandleState V
  | .call callee args dest _, st => execCall cell oracle callee args dest st
  | .use _, st => (.fall, st)
  | .opaqueWork _, st => (.fall, st)
  | .scope body, st => execStmts body st
  | .if_ then_ else_, st =>
    if oracle.takes st.clock then execStmts then_ (st.tick (.branch true))
    else execElse else_ (st.tick (.branch false))
  | .block label body, st => leaveRegion label (execStmts body st)
  | .loop label body, st =>
    leaveRegion label (restartLoop label (fun st => execStmts body st) fuel st)
  | .break_ label, st => (.break_ label, st)
  | .continue_ label, st => (.continue_ label, st)
  | .return_ value, st => (.return_, st.emit (.return_ (value.map (operandOf cell st))))
  | .throw_ value, st =>
    (.unwind (value.map (operandOf cell st)), st.emit (.throw_ (value.map (operandOf cell st))))
  | .dup value dest _, st =>
    (.fall, (st.tick (.dup (operandOf cell st value) dest)).bind (cell dest)
      (oracle.dupResult st.clock))
  | .free value _, st => (.fall, st.tick (.free (operandOf cell st value)))
  | .cleanup _ body unwind, st => cleanUp (execStmts body st) fun st => execStmts unwind st

def execElse : Option (List HandleStmt) → HandleState V → Outcome V × HandleState V
  | none, st => (.fall, st)
  | some body, st => execStmts body st

def execStmts : List HandleStmt → HandleState V → Outcome V × HandleState V
  | [], st => (.fall, st)
  | s :: rest, st => thenRun (execStmt s st) fun st => execStmts rest st

end

end

/-! ### WebAssembly -/

inductive Operand (V : Type) where
  /-- A scalar, if its value is known. -/
  | scalar (known : Option Int)
  /-- A handle read from a local. -/
  | held (index : Nat) (value : V)
  /-- What a call has returned. -/
  | result (value : V)

inductive WasmEvent (V : Type) where
  | call (funcIdx : Nat) (args : List (Option (Nat × V))) (raised : Bool)
  | branch (taken : Bool)
  | throw_ (value : Option (Nat × V))
  | return_ (value : Option (Nat × V))

/-- The types of the functions and of the exception tags, and the function's own result. -/
structure Signatures where
  arity : Nat → Nat
  returns : Nat → Bool
  tagOperand : Nat → Bool
  result : Bool

structure Engine (V : Type) where
  takes : Nat → Bool
  raises : Nat → Nat → Bool
  result : Nat → Nat → V

structure WasmState (V : Type) where
  locals : Nat → V
  operands : List (Operand V)
  trace : List (WasmEvent V)
  clock : Nat

/-- What an exception carries: the operand of a `throw`. -/
abbrev Thrown (V : Type) := Option (Nat × V)

namespace Operand

/-- The operand as an argument. -/
def asArg : Operand V → Option (Nat × V)
  | held index value => some (index, value)
  | _ => none

end Operand

section
variable (sig : Signatures) (engine : Engine V)

def stepCall (funcIdx : Nat) (w : WasmState V) : Res (Thrown V) × WasmState V :=
  if w.operands.length < sig.arity funcIdx then (.stuck, w)
  else
    let args := ((w.operands.take (sig.arity funcIdx)).reverse).map Operand.asArg
    let operands := w.operands.drop (sig.arity funcIdx)
    let raised := engine.raises funcIdx w.clock
    let trace := .call funcIdx args raised :: w.trace
    if raised then (.throw_ none, ⟨w.locals, operands, trace, w.clock + 1⟩)
    else
      (.normal, ⟨w.locals, (if sig.returns funcIdx then
        [.result (engine.result funcIdx w.clock)] else []) ++ operands, trace, w.clock + 1⟩)

/-- Pop the operand of a `return` or a `throw`, if it has one. -/
def popOperand (has : Bool) (w : WasmState V) : Option (Thrown V × WasmState V) :=
  match has, w.operands with
  | false, _ => some (none, w)
  | true, x :: operands => some (x.asArg, { w with operands })
  | true, [] => none

def stepReturn (w : WasmState V) : Res (Thrown V) × WasmState V :=
  match popOperand sig.result w with
  | none => (.stuck, w)
  | some (v, w') => (.return_, { w' with trace := .return_ v :: w'.trace })

def stepThrow (tagIdx : Nat) (w : WasmState V) : Res (Thrown V) × WasmState V :=
  match popOperand (sig.tagOperand tagIdx) w with
  | none => (.stuck, w)
  | some (v, w') => (.throw_ v, { w' with trace := .throw_ v :: w'.trace })

def stepLocalSet (index : Nat) (w : WasmState V) : Res (Thrown V) × WasmState V :=
  match w.operands with
  | .held _ v :: operands | .result v :: operands =>
    (.normal, { w with operands, locals := Function.update w.locals index v })
  | _ => (.stuck, w)

def stepDrop (w : WasmState V) : Res (Thrown V) × WasmState V :=
  match w.operands with
  | _ :: operands => (.normal, { w with operands })
  | [] => (.stuck, w)

def stepPlain (p : Plain) (w : WasmState V) : Res (Thrown V) × WasmState V :=
  match runPlain (.scalar none) [p] w.operands with
  | some operands => (.normal, { w with operands })
  | none => (.stuck, w)

def step : WasmInstr → WasmState V → Res (Thrown V) × WasmState V
  | .plain p, w => stepPlain p w
  | .i32Const value, w => (.normal, { w with operands := .scalar (some value) :: w.operands })
  | .localGet index, w =>
    (.normal, { w with operands := .held index (w.locals index) :: w.operands })
  | .localSet index, w => stepLocalSet index w
  | .call funcIdx, w => stepCall sig engine funcIdx w
  | .drop, w => stepDrop w
  | .return_, w => stepReturn sig w
  | .throw_ tagIdx, w => stepThrow sig tagIdx w

/-- Pop a condition: what a hook has pushed is the engine's choice. -/
def testCondition (w : WasmState V) : Option (Bool × WasmState V) :=
  match w.operands with
  | .scalar known :: operands =>
    let taken := known.elim (engine.takes w.clock) fun value => value ≠ 0
    some (taken, ⟨w.locals, operands, .branch taken :: w.trace, w.clock + 1⟩)
  | _ => none

def machine : Machine WasmInstr (WasmState V) (Thrown V) where
  step := step sig engine
  test := testCondition engine
  restore w w' := { w' with operands := w.operands }

end

end Js2Wasm.Refcount.Lower
