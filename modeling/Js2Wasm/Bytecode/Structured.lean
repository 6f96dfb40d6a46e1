import Js2Wasm.Bytecode.Machine

/-! # The structured semantics

What a tree means as WebAssembly: a relation between a tree with a configuration, the
completion in which it ends and the configuration it leaves.  The operand stack is empty
at every boundary of a `block`, `loop`, `if` or `try`; a branch arrives at one too.  Structs
and `rethrow` have no rule here.

`exact = true` leaves out the executions that come to one of the places where the flat
code does something else (`Agrees` has the comparison):

* a branch leaves an arm of an `if` or `try`, which the emitter does not count as a label;
* an exception is caught while a calling frame has operands on the shared stack;
* an exception is caught by another clause than the first, or by none;
* a `catch` with a `catch_all` behind it completes normally;
* a callee returns with operands left below its result, or falls off its end.

The last index counts the instructions the machine dispatches.
-/
namespace Js2Wasm.Bytecode

variable {N : Type} [JsNumber N]

/-- Locals, globals and the operands of the running frame. -/
structure Config (N : Type) where
  locals : Nat → N
  globals : Nat → N
  ops : List N

inductive Completion (N : Type) where
  | normal
  | branch (depth : Nat)
  | return_ (value : Option N)
  | throw_ (tagIdx : Nat) (value : N)
  | trap

/-- Past the end of a labelled body. -/
def Completion.leave : Completion N → Completion N
  | .branch 0 => .normal
  | .branch (depth + 1) => .branch depth
  | k => k

def Completion.isBranch : Completion N → Bool
  | .branch _ => true
  | _ => false

def Completion.isNormal : Completion N → Bool
  | .normal => true
  | _ => false

/-- What a result of the program may be. -/
inductive Outcome (N : Type) where
  | returned (value : Option N)
  | uncaught (value : N)
  | trap

def ofCompletion : Completion N → Option (Outcome N)
  | .return_ value => some (.returned value)
  | .throw_ _ value => some (.uncaught value)
  | .trap => some .trap
  | _ => none

/-! ### Constants and operators

What they mean on numbers, whatever the emitter makes of them.  A number stands for its
`i32`, `f32` or `f64` value, and a boolean is the `i32` 1 or 0. -/

/-- The number a constant stands for; an `i64` and a reference are none. -/
def IrConst.number : IrConst N → Option N
  | .i32 value => some value
  | .i64 _ => none
  | .f32 value => some value
  | .f64 value => some value
  | .bool true => some JsNumber.one
  | .bool false => some JsNumber.zero
  | .null => none
  | .undefined => none

/-- The comparison of an operator, signed for `i32`. -/
def IrBinop.compares (a b : N) : IrBinop → Option Bool
  | .f64_eq | .i32_eq => some (JsNumber.strictEq a b)
  | .f64_ne | .i32_ne => some (!JsNumber.strictEq a b)
  | .f64_lt | .i32_lt_s => some (JsNumber.lt a b)
  | .f64_le | .i32_le_s => some (JsNumber.le a b)
  | .f64_gt | .i32_gt_s => some (JsNumber.lt b a)
  | .f64_ge | .i32_ge_s => some (JsNumber.le b a)
  | _ => none

/-- The value of a binary operator.  Those on bits, on wrapping `i32` and on `i64` are not
operations on numbers. -/
def IrBinop.value (a b : N) : IrBinop → Option N
  | .f64_add => some (JsNumber.add a b)
  | .f64_sub => some (JsNumber.sub a b)
  | .f64_mul => some (JsNumber.mul a b)
  | .f64_div => some (JsNumber.div a b)
  | op => (op.compares a b).map fun holds => if holds then JsNumber.one else JsNumber.zero

/-- The value of a unary operator. -/
def IrUnop.value (a : N) : IrUnop → Option N
  | .f64_neg => some (JsNumber.neg a)
  | _ => none

/-- A straight-line instruction. -/
def stepSimple (t : Tree N) (c : Config N) : Option (Config N) :=
  match t, c.ops with
  | .const value, ops => value.number.map fun v => { c with ops := v :: ops }
  | .binary op, b :: a :: ops => (op.value a b).map fun v => { c with ops := v :: ops }
  | .unary op, a :: ops => (op.value a).map fun v => { c with ops := v :: ops }
  | .localGet i, ops => some { c with ops := c.locals i :: ops }
  | .localSet i, v :: ops => some { c with ops, locals := Function.update c.locals i v }
  | .localTee i, v :: ops => some { c with ops := v :: ops, locals := Function.update c.locals i v }
  | .globalGet i, ops => some { c with ops := c.globals i :: ops }
  | .globalSet i, v :: ops => some { c with ops, globals := Function.update c.globals i v }
  | .drop, _ :: ops => some { c with ops }
  | .select, v :: b :: a :: ops => some { c with ops := (if JsNumber.truthy v then a else b) :: ops }
  | _, _ => none

/-- The function a call instruction calls, and the operands that are left. -/
def calleeOf : Tree N → List N → Option (Int × List N)
  | .call funcIdx, ops => some (funcIdx, ops)
  | .callRef _, funcref :: ops =>
    if JsNumber.strictEq funcref JsNumber.negOne then none
    else some (JsNumber.toInt32 funcref, ops)
  | _, _ => none

/-- The frame of a callee: the arguments, and zeros. -/
def Config.enter (c : Config N) (args : List N) : Config N :=
  { c with locals := fun i => args.getD i JsNumber.zero, ops := [] }

/-- Back in the caller, with the callee's result. -/
def Config.resume (c callee : Config N) (value : Option N) (ops : List N) : Config N :=
  { c with globals := callee.globals, ops := value.toList ++ ops }

/-- The clause that catches, and whether the flat code takes it too. -/
inductive Catches (catches : List (Nat × List (Tree N))) (catchAll : Option (List (Tree N)))
    (tagIdx : Nat) (value : N) : List (Tree N) → List N → Bool → Prop
  | first {handler rest} : catches = (tagIdx, handler) :: rest →
      Catches catches catchAll tagIdx value handler [value] true
  | later {c rest handler} : catches = c :: rest → c.1 ≠ tagIdx →
      rest.find? (fun c => c.1 = tagIdx) = some (tagIdx, handler) →
      Catches catches catchAll tagIdx value handler [value] false
  | all {handler} : catches.find? (fun c => c.1 = tagIdx) = none → catchAll = some handler →
      Catches catches catchAll tagIdx value handler [] catches.isEmpty

/-- What surrounds a running frame: the operands of its callers, and whether its function
has a result. -/
structure Context (N : Type) where
  below : List N
  result : Bool

section
variable (m : Module N) (exact : Bool)

/-- `Eval x trees c k c' n`: from `c` the instructions end in the completion `k` with the
configuration `c'`, after `n` dispatches of their flat code. -/
inductive Eval : Context N → List (Tree N) → Config N → Completion N → Config N → Nat → Prop
  | nil {x c} : Eval x [] c .normal c 0
  | seq {x t rest c c1 k c2 n n'} : Eval x [t] c .normal c1 n → Eval x rest c1 k c2 n' →
      Eval x (t :: rest) c k c2 (n + n')
  | stop {x t rest c k c1 n} : Eval x [t] c k c1 n → k ≠ .normal → Eval x (t :: rest) c k c1 n
  | simple {x t c c'} : stepSimple t c = some c' → Eval x [t] c .normal c' 1
  | unreachable {x c} : Eval x [.unreachable] c .trap c 1
  | returnValue {x c v ops} : x.result = true → c.ops = v :: ops →
      Eval x [.return_] c (.return_ (some v)) { c with ops } 1
  | returnVoid {x c} : x.result = false → Eval x [.return_] c (.return_ none) c 1
  | throw_ {x tagIdx c v ops} : c.ops = v :: ops →
      Eval x [.throw_ tagIdx] c (.throw_ tagIdx v) { c with ops := [] } 1
  | br {x d c} : c.ops = [] → Eval x [.br d] c (.branch d) c 1
  | brIfTaken {x d c v} : c.ops = [v] → JsNumber.truthy v = true →
      Eval x [.brIf d] c (.branch d) { c with ops := [] } 1
  | brIfNot {x d c v ops} : c.ops = v :: ops → JsNumber.truthy v = false →
      Eval x [.brIf d] c .normal { c with ops } 1
  | block {x body c k c' n} : c.ops = [] → Eval x body c k c' n → (k = .normal → c'.ops = []) →
      Eval x [.block body] c k.leave c' n
  | again {x body c c1 k c2 n n'} : c.ops = [] → Eval x body c (.branch 0) c1 n →
      Eval x [.loop body] c1 k c2 n' → Eval x [.loop body] c k c2 (n + n')
  | loop {x body c k c' n} : c.ops = [] → Eval x body c k c' n → k ≠ .branch 0 →
      (k = .normal → c'.ops = []) → Eval x [.loop body] c k.leave c' n
  | ifTrue {x then_ els c v k c' n} : c.ops = [v] → JsNumber.truthy v = true →
      Eval x then_ { c with ops := [] } k c' n → (k = .normal → c'.ops = []) →
      (exact = true → k.isBranch = false) →
      Eval x [.if_ then_ els] c k.leave c' (1 + n + if k.isNormal then 1 else 0)
  | ifFalse {x then_ els c v k c' n} : c.ops = [v] → JsNumber.truthy v = false →
      Eval x els { c with ops := [] } k c' n → (k = .normal → c'.ops = []) →
      (exact = true → k.isBranch = false) →
      Eval x [.if_ then_ els] c k.leave c' (1 + n)
  | try_ {x body catches catchAll c k c' n} : c.ops = [] → Eval x body c k c' n →
      (k = .normal → c'.ops = []) → (∀ tagIdx v, k ≠ .throw_ tagIdx v) →
      (exact = true → k.isBranch = false) →
      Eval x [.try_ body catches catchAll] c k.leave c' (1 + n + if k.isNormal then 2 else 0)
  | caught {x body catches catchAll c tagIdx v c1 n handler ops live k c' n'} : c.ops = [] →
      Eval x body c (.throw_ tagIdx v) c1 n →
      Catches catches catchAll tagIdx v handler ops live →
      Eval x handler { c1 with ops } k c' n' → (k = .normal → c'.ops = []) →
      (exact = true → live = true ∧ x.below = [] ∧ k.isBranch = false ∧
        (catches ≠ [] → catchAll = none ∨ k ≠ .normal)) →
      Eval x [.try_ body catches catchAll] c k.leave c' (1 + n + n')
  | uncaught {x body catches catchAll c tagIdx v c1 n} : c.ops = [] →
      Eval x body c (.throw_ tagIdx v) c1 n →
      catches.find? (fun c => c.1 = tagIdx) = none → catchAll = none → exact = false →
      Eval x [.try_ body catches catchAll] c (.throw_ tagIdx v) c1 (1 + n)
  | callNull {x typeIdx c funcref ops} : c.ops = funcref :: ops →
      JsNumber.strictEq funcref JsNumber.negOne = true → Eval x [.callRef typeIdx] c .trap c 1
  | callMissing {x t c i ops} : calleeOf t c.ops = some (i, ops) → at? m.functions i = none →
      Eval x [t] c .trap c 1
  | callReturn {x t c i f args ops v c' n} : calleeOf t c.ops = some (i, args.reverse ++ ops) →
      at? m.functions i = some f → args.length = f.arity →
      Eval ⟨ops ++ x.below, f.result⟩ f.body (c.enter args) (.return_ v) c' n →
      (exact = true → c'.ops = []) → Eval x [t] c .normal (c.resume c' v ops) (1 + n)
  | callEnd {x t c i f args ops v c' n} : calleeOf t c.ops = some (i, args.reverse ++ ops) →
      at? m.functions i = some f → args.length = f.arity →
      Eval ⟨ops ++ x.below, f.result⟩ f.body (c.enter args) .normal c' n →
      c'.ops = v.toList → v.isSome = f.result → exact = false →
      Eval x [t] c .normal (c.resume c' v ops) (1 + n)
  | callThrow {x t c i f args ops tagIdx v c' n} :
      calleeOf t c.ops = some (i, args.reverse ++ ops) →
      at? m.functions i = some f → args.length = f.arity →
      Eval ⟨ops ++ x.below, f.result⟩ f.body (c.enter args) (.throw_ tagIdx v) c' n →
      Eval x [t] c (.throw_ tagIdx v) (c.resume c' none []) (1 + n)
  | callTrap {x t c i f args ops c' n} : calleeOf t c.ops = some (i, args.reverse ++ ops) →
      at? m.functions i = some f → args.length = f.arity →
      Eval ⟨ops ++ x.below, f.result⟩ f.body (c.enter args) .trap c' n →
      Eval x [t] c .trap (c.resume c' none []) (1 + n)

/-- The configuration a module is entered with. -/
def Config.entry (args : List N) : Config N :=
  ⟨fun i => args.getD i JsNumber.zero, fun _ => JsNumber.zero, []⟩

/-- `Run m exact args o n`: the module ends with `o` after `n` dispatches of its flat code. -/
inductive Run (args : List N) : Outcome N → Nat → Prop
  | leaves {f k c' n o} : m.functions[m.entry]? = some f → args.length = f.arity →
      Eval m exact ⟨[], f.result⟩ f.body (Config.entry args) k c' n → ofCompletion k = some o →
      Run args o n
  | fallsOff {f v c' n} : m.functions[m.entry]? = some f → args.length = f.arity →
      Eval m exact ⟨[], f.result⟩ f.body (Config.entry args) .normal c' n → c'.ops = v.toList →
      v.isSome = f.result → exact = false → Run args (.returned v) n

end

end Js2Wasm.Bytecode
