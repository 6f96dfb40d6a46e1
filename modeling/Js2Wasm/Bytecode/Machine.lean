import Js2Wasm.Bytecode.Emitter

/-! # The dispatch loop

`runProgram` of `ir/backend/bytecode-vm.ts`: a stack machine over a function table.  The
operand stack, the globals and the heap of structs are shared by all frames; a frame keeps
its program counter, its locals and the function it runs, whose code, constants and
exception table belong together.  A slot
that was never written and a value popped from an empty stack are undefined (`none`).
-/
namespace Js2Wasm.Bytecode

variable {N : Type} [JsNumber N]

/-- A value of the machine: a number or undefined. -/
abbrev Value (N : Type) := Option N

inductive VmError (N : Type) where
  | entryOutOfRange
  | stepBudgetExceeded
  | unreachable (pc : Int)
  | callOutOfRange (pc : Int)
  | nullFuncref (pc : Int)
  | nullStruct (pc : Int)
  | notAnObject
  | uncaughtThrow (value : Value N)
  | unknownOpcode (pc : Int)

abbrev VmResult (N : Type) := Except (VmError N) (Value N)

/-- The fields of a struct. -/
abbrev HeapObject (N : Type) := Int → Value N

/-- A suspended caller. -/
structure Frame (N : Type) where
  pc : Int
  locals : Int → Value N
  func : FuncEntry N
  callSite : Int

structure VmState (N : Type) where
  func : FuncEntry N
  pc : Int
  locals : Int → Value N
  stack : List (Value N)
  globals : Int → Value N
  frames : List (Frame N)
  heap : List (HeapObject N)

/-- The state after one dispatch, or the result of the program. -/
inductive Step (N : Type) where
  | next (s : VmState N)
  | halt (r : VmResult N)

/-! ### Operations on values -/

/-- An arithmetic operator: undefined is converted to `NaN`. -/
def arith (f : N → N → N) : Value N → Value N → Value N
  | some a, some b => some (f a b)
  | _, _ => some JsNumber.nan

/-- An order comparison, which fails on undefined. -/
def ordered (f : N → N → Bool) : Value N → Value N → Value N
  | some a, some b => some (JsNumber.ofBool (f a b))
  | _, _ => some JsNumber.zero

/-- `a === b` -/
def strictEqual : Value N → Value N → Bool
  | some a, some b => JsNumber.strictEq a b
  | none, none => true
  | _, _ => false

/-- `x === 0` -/
def isZero (x : Value N) : Bool := strictEqual x (some JsNumber.zero)

/-- `x ?? 0` -/
def orZero (x : Value N) : Value N := some (x.getD JsNumber.zero)

/-! ### The machine -/

def pop : List (Value N) → Value N × List (Value N)
  | [] => (none, [])
  | v :: st => (v, st)

/-- `popArgsIntoLocals`: the last argument is on top. -/
def popArgsIntoLocals : Nat → List (Value N) → (Int → Value N) → (Int → Value N) × List (Value N)
  | 0, st, locals => (locals, st)
  | i + 1, st, locals =>
    popArgsIntoLocals i (pop st).2 (Function.update locals (i : Int) (pop st).1)

/-- Install the callee. -/
def enterFunction (callee : FuncEntry N) (s : VmState N) : VmState N :=
  let (locals, stack) := popArgsIntoLocals callee.arity s.stack fun _ => none
  { func := callee, pc := 0, locals, stack, globals := s.globals,
    frames := ⟨s.pc, s.locals, s.func, s.pc - 2⟩ :: s.frames, heap := s.heap }

/-- Does the region cover the address? -/
def ExcEntry.covers (e : ExcEntry) (pc : Int) : Bool := e.tryStart ≤ pc ∧ pc < e.tryEnd

def ExcEntry.span (e : ExcEntry) : Int := e.tryEnd - e.tryStart

/-- The first of the smallest regions that cover the address. -/
def findHandler (table : List ExcEntry) (pc : Int) : Option ExcEntry :=
  table.foldl (fun best e =>
    if e.covers pc then
      match best with
      | none => some e
      | some b => if e.span < b.span then some e else best
    else best) none

/-- `stack.length = depth` -/
def truncate (depth : Nat) (st : List (Value N)) : List (Value N) := st.drop (st.length - depth)

/-- Find a handler, frame by frame. -/
def unwind (exn : Value N) (stack : List (Value N)) (globals : Int → Value N)
    (heap : List (HeapObject N)) : FuncEntry N → (Int → Value N) → Int → List (Frame N) → Step N
  | func, locals, throwPc, frames =>
    match findHandler func.exceptionTable throwPc with
    | some handler =>
      .next ⟨func, handler.catchTarget, locals, exn :: truncate handler.spAtEntry stack, globals,
        frames, heap⟩
    | none =>
      match frames with
      | [] => .halt (.error (.uncaughtThrow exn))
      | caller :: frames =>
        unwind exn stack globals heap caller.func caller.locals caller.callSite frames
termination_by structural _ _ _ frames => frames

/-- `RET`. -/
def ret (s : VmState N) : Step N :=
  let (result, stack) := pop s.stack
  match s.frames with
  | [] => .halt (.ok result)
  | caller :: frames =>
    .next ⟨caller.func, caller.pc, caller.locals, result :: stack, s.globals, frames, s.heap⟩

/-- A binary operator on the two topmost values. -/
def binary (f : Value N → Value N → Value N) (s : VmState N) : Step N :=
  let (b, st) := pop s.stack
  let (a, st) := pop st
  .next { s with stack := f a b :: st }

/-- The values of a new struct, field 0 deepest. -/
def popFields (fieldCount : Nat) (st : List (Value N)) : HeapObject N × List (Value N) :=
  popArgsIntoLocals fieldCount st fun _ => none

/-- The object a reference names, and its place in the heap. -/
def withObject (ref : Value N) (s : VmState N) (k : Nat → HeapObject N → Step N) : Step N :=
  if strictEqual ref (some JsNumber.negOne) then .halt (.error (.nullStruct (s.pc - 1)))
  else
    match at? s.heap (ref.elim 0 JsNumber.toInt32) with
    | none => .halt (.error .notAnObject)
    | some obj => k (ref.elim 0 JsNumber.toInt32).toNat obj

/-- One opcode; `s.pc` is already behind it. -/
def dispatch (p : BytecodeProgram N) (op : Op) (s : VmState N) : Step N :=
  let operand := (at? s.func.code s.pc).getD 0
  match op with
  | .CONST => .next { s with pc := s.pc + 1, stack := at? s.func.constPool operand :: s.stack }
  | .LOAD => .next { s with pc := s.pc + 1, stack := orZero (s.locals operand) :: s.stack }
  | .STORE => .next { s with
      pc := s.pc + 1, stack := (pop s.stack).2
      locals := Function.update s.locals operand (pop s.stack).1 }
  | .TEE => .next { s with
      pc := s.pc + 1, locals := Function.update s.locals operand (pop s.stack).1 }
  | .GLOBAL_GET => .next { s with pc := s.pc + 1, stack := orZero (s.globals operand) :: s.stack }
  | .GLOBAL_SET => .next { s with
      pc := s.pc + 1, stack := (pop s.stack).2
      globals := Function.update s.globals operand (pop s.stack).1 }
  | .ADD => binary (arith JsNumber.add) s
  | .SUB => binary (arith JsNumber.sub) s
  | .MUL => binary (arith JsNumber.mul) s
  | .DIV => binary (arith JsNumber.div) s
  | .CMP_GT => binary (ordered fun a b => JsNumber.lt b a) s
  | .CMP_LT => binary (ordered JsNumber.lt) s
  | .CMP_GE => binary (ordered fun a b => JsNumber.le b a) s
  | .CMP_LE => binary (ordered JsNumber.le) s
  | .CMP_EQ => binary (fun a b => some (JsNumber.ofBool (strictEqual a b))) s
  | .CMP_NE => binary (fun a b => some (JsNumber.ofBool (!strictEqual a b))) s
  | .NEG =>
    let (a, st) := pop s.stack
    .next { s with stack := some (a.elim JsNumber.nan JsNumber.neg) :: st }
  | .JZ =>
    let (c, st) := pop s.stack
    .next { s with stack := st, pc := if isZero c then operand else s.pc + 1 }
  | .JNZ =>
    let (c, st) := pop s.stack
    .next { s with stack := st, pc := if isZero c then s.pc + 1 else operand }
  | .JMP => .next { s with pc := operand }
  | .RET => ret s
  | .SELECT =>
    let (c, st) := pop s.stack
    let (b, st) := pop st
    let (a, st) := pop st
    .next { s with stack := (if isZero c then b else a) :: st }
  | .DROP => .next { s with stack := (pop s.stack).2 }
  | .UNREACHABLE => .halt (.error (.unreachable (s.pc - 1)))
  | .CALL =>
    match at? p.functions operand with
    | none => .halt (.error (.callOutOfRange (s.pc - 1)))
    | some callee => .next (enterFunction callee { s with pc := s.pc + 1 })
  | .CALL_REF =>
    let (funcref, st) := pop s.stack
    if strictEqual funcref (some JsNumber.negOne) then .halt (.error (.nullFuncref (s.pc - 1)))
    else
      match at? p.functions (funcref.elim 0 JsNumber.toInt32) with
      | none => .halt (.error (.callOutOfRange (s.pc - 1)))
      | some callee => .next (enterFunction callee { s with pc := s.pc + 1, stack := st })
  | .STRUCT_NEW =>
    let (fields, st) := popFields operand.toNat s.stack
    .next { s with
      pc := s.pc + 1, stack := some (JsNumber.ofNat s.heap.length) :: st
      heap := s.heap ++ [fields] }
  | .STRUCT_GET =>
    let (ref, st) := pop s.stack
    withObject ref s fun _ obj => .next { s with pc := s.pc + 1, stack := obj operand :: st }
  | .STRUCT_SET =>
    let (value, st) := pop s.stack
    let (ref, st) := pop st
    withObject ref s fun i obj => .next { s with
      pc := s.pc + 1, stack := st
      heap := s.heap.set i (Function.update obj operand value) }
  | .TRY_START => .next { s with pc := s.pc + 1 }
  | .TRY_END => .next s
  | .THROW =>
    let (exn, st) := pop s.stack
    unwind exn st s.globals s.heap s.func s.locals (s.pc - 1) s.frames

/-- Fetch and dispatch. -/
def step (p : BytecodeProgram N) (s : VmState N) : Step N :=
  match (at? s.func.code s.pc).bind Op.ofInt with
  | none => .halt (.error (.unknownOpcode s.pc))
  | some op => dispatch p op { s with pc := s.pc + 1 }

/-- The loop, for at most the given number of dispatches. -/
def runSteps (p : BytecodeProgram N) : Nat → VmState N → VmResult N
  | 0, _ => .error .stepBudgetExceeded
  | n + 1, s =>
    match step p s with
    | .next s' => runSteps p n s'
    | .halt r => r

def MAX_STEPS : Nat := 1000000

/-- `runProgram`. -/
def runProgram (p : BytecodeProgram N) (args : List N) : VmResult N :=
  match p.functions[p.entry]? with
  | none => .error .entryOutOfRange
  | some f => runSteps p MAX_STEPS
      ⟨f, 0, fun i => at? args i, [], fun _ => none, [], []⟩

end Js2Wasm.Bytecode
