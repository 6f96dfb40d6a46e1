import Mathlib.Logic.Function.Basic

/-! # Structured instruction trees

The instructions that the lowering builds with the emitter's primitives: straight-line
operations, calls, `return`, `throw` and `rethrow`, structs, and the structured `block`, `loop`,
`if` and `try`, each of them one label for `br` and `br_if`.

Numbers are JavaScript numbers.  What a number is does not matter here: both sides of
the comparison compute with the same operations, so they are a parameter.  Strict
equality is an operation of its own: it holds of the two zeros, which are different
numbers, and of no `NaN`.

`BytecodeSink` and `BytecodeEmitter` of `ir/backend/bytecode-emitter.ts`.  A sink is a flat
code vector with a constant pool, the branches that wait for their target and the
exception table.  The bodies of a structured instruction are emitted into sinks of their
own and spliced into the enclosing one, with their jumps, constants and exception rows
relocated.
-/
namespace Js2Wasm.Bytecode

/-- The number operations the program uses. -/
class JsNumber (N : Type) where
  zero : N
  one : N
  negOne : N
  nan : N
  add : N → N → N
  sub : N → N → N
  mul : N → N → N
  div : N → N → N
  neg : N → N
  lt : N → N → Bool
  le : N → N → Bool
  /-- `===` -/
  strictEq : N → N → Bool
  /-- `x | 0` -/
  toInt32 : N → Int
  /-- A length or an index. -/
  ofNat : Nat → N

namespace JsNumber
variable {N : Type} [JsNumber N]

def ofBool (b : Bool) : N := if b then one else zero

/-- A condition: `x !== 0`. -/
def truthy (x : N) : Bool := !strictEq x zero

end JsNumber

/-- `IrConst`. -/
inductive IrConst (N : Type) where
  | i32 (value : N)
  | i64 (value : Int)
  | f32 (value : N)
  | f64 (value : N)
  | bool (value : Bool)
  | null
  | undefined

/-- `IrBinop`. -/
inductive IrBinop where
  | f64_add | f64_sub | f64_mul | f64_div | f64_copysign
  | f64_eq | f64_ne | f64_lt | f64_le | f64_gt | f64_ge
  | i32_eq | i32_ne | i32_and | i32_or | i64_eq
  | i32_add | i32_sub | i32_mul | i64_rem_s
  | i32_lt_s | i32_le_s | i32_gt_s | i32_ge_s
  | i32_lt_u | i32_le_u | i32_gt_u | i32_ge_u
  | js_bitand | js_bitor | js_bitxor | js_shl | js_shr_s | js_shr_u
  deriving DecidableEq

/-- `IrUnop`. -/
inductive IrUnop where
  | f64_neg | f64_reinterpret_i64 | i64_reinterpret_f64 | i32_eqz | i32_trunc_sat_f64_s
  | i64_trunc_f64_s | f64_convert_i32_s | f64_convert_i64_s
  | f64_abs | f64_sqrt | f64_floor | f64_ceil | f64_trunc | ref_is_null
  deriving DecidableEq

/-- A structured instruction.  Label depths count every enclosing `block`, `loop`, `if`
and `try`, the innermost being 0. -/
inductive Tree (N : Type) where
  | const (value : IrConst N)
  | binary (op : IrBinop)
  | unary (op : IrUnop)
  | localGet (index : Nat)
  | localSet (index : Nat)
  | localTee (index : Nat)
  | globalGet (index : Nat)
  | globalSet (index : Nat)
  | drop
  | select
  | unreachable
  | return_
  | throw_ (tagIdx : Nat)
  | rethrow (depth : Nat)
  | structNew (fieldCount : Nat)
  | structGet (fieldIdx : Nat)
  | structSet (fieldIdx : Nat)
  | call (funcIdx : Nat)
  | callRef (typeIdx : Nat)
  | br (depth : Nat)
  | brIf (depth : Nat)
  | block (body : List (Tree N))
  | loop (body : List (Tree N))
  | if_ (then_ els : List (Tree N))
  | try_ (body : List (Tree N)) (catches : List (Nat × List (Tree N)))
      (catchAll : Option (List (Tree N)))

/-- A function: its parameters, whether it has a result, and its body. -/
structure Func (N : Type) where
  arity : Nat
  result : Bool
  body : List (Tree N)

/-- A module: its functions, and the one that is run. -/
structure Module (N : Type) where
  functions : List (Func N)
  entry : Nat

/-- Induction on an instruction list: the first instruction's bodies and the rest of the
list each have the hypothesis. -/
@[elab_as_elim]
theorem treesInduction {N : Type} {motive : List (Tree N) → Prop}
    (nil : motive [])
    (simple : ∀ t rest, (∀ b, t ≠ .block b) → (∀ b, t ≠ .loop b) → (∀ a b, t ≠ .if_ a b) →
      (∀ a b c, t ≠ .try_ a b c) → motive rest → motive (t :: rest))
    (block : ∀ body rest, motive body → motive rest → motive (.block body :: rest))
    (loop : ∀ body rest, motive body → motive rest → motive (.loop body :: rest))
    (if_ : ∀ then_ els rest, motive then_ → motive els → motive rest →
      motive (.if_ then_ els :: rest))
    (try_ : ∀ body catches catchAll rest, motive body → (∀ c ∈ catches, motive c.2) →
      (∀ h, catchAll = some h → motive h) → motive rest →
      motive (.try_ body catches catchAll :: rest)) :
    ∀ trees, motive trees := by
  intro trees
  refine @Tree.rec_1 N (fun t => ∀ rest, motive rest → motive (t :: rest)) motive
    (fun cs => ∀ c ∈ cs, motive c.2) (fun h => ∀ b, h = some b → motive b) (fun c => motive c.2)
    ?_ ?_ ?_ ?_ ?_ ?_ ?_ ?_ ?_ ?_ ?_ ?_ ?_ ?_ ?_ ?_ ?_ ?_ ?_ ?_ ?_ ?_ ?_ ?_ ?_ nil ?_ ?_ ?_ ?_ ?_ ?_
    trees
  case refine_22 => exact fun body hb rest hr => block body rest hb hr
  case refine_23 => exact fun body hb rest hr => loop body rest hb hr
  case refine_24 => exact fun a b ha hb rest hr => if_ a b rest ha hb hr
  case refine_25 => exact fun a b c ha hb hc rest hr => try_ a b c rest ha hb hc hr
  case refine_26 => exact fun t ts ht hts => ht ts hts
  case refine_27 => exact nofun
  case refine_28 => exact fun c cs hc hcs => List.forall_mem_cons.mpr ⟨hc, hcs⟩
  case refine_29 => exact nofun
  case refine_30 => exact fun b hb b' hb' => Option.some.inj hb' ▸ hb
  case refine_31 => exact fun _ _ hb => hb
  all_goals
    intros
    exact simple _ _ nofun nofun nofun nofun ‹_›

/-! ## The bytecode emitter -/

/-- The opcodes. -/
inductive Op where
  | CONST | LOAD | STORE | ADD | SUB | MUL | CMP_GT | CMP_LT | CMP_GE | CMP_LE | CMP_EQ | NEG
  | JZ | JMP | RET | DIV | CMP_NE | TEE | GLOBAL_GET | GLOBAL_SET | SELECT | DROP | UNREACHABLE
  | CALL | CALL_REF | STRUCT_NEW | STRUCT_GET | STRUCT_SET | JNZ | THROW | TRY_START | TRY_END
  deriving DecidableEq

namespace Op

/-- The word of an opcode. -/
def toInt : Op → Int
  | CONST => 0 | LOAD => 1 | STORE => 2 | ADD => 3 | SUB => 4 | MUL => 5
  | CMP_GT => 6 | CMP_LT => 7 | CMP_GE => 8 | CMP_LE => 9 | CMP_EQ => 10 | NEG => 11
  | JZ => 12 | JMP => 13 | RET => 14 | DIV => 15 | CMP_NE => 16 | TEE => 17
  | GLOBAL_GET => 18 | GLOBAL_SET => 19 | SELECT => 20 | DROP => 21 | UNREACHABLE => 22
  | CALL => 23 | CALL_REF => 24 | STRUCT_NEW => 25 | STRUCT_GET => 26 | STRUCT_SET => 27
  | JNZ => 28 | THROW => 29 | TRY_START => 30 | TRY_END => 31

def all : List Op :=
  [CONST, LOAD, STORE, ADD, SUB, MUL, CMP_GT, CMP_LT, CMP_GE, CMP_LE, CMP_EQ, NEG, JZ, JMP, RET,
    DIV, CMP_NE, TEE, GLOBAL_GET, GLOBAL_SET, SELECT, DROP, UNREACHABLE, CALL, CALL_REF, STRUCT_NEW,
    STRUCT_GET, STRUCT_SET, JNZ, THROW, TRY_START, TRY_END]

def ofInt (w : Int) : Option Op := all.find? fun op => op.toInt = w

@[simp] theorem ofInt_toInt (op : Op) : ofInt op.toInt = some op := by cases op <;> rfl

end Op

/-- One protected region. -/
structure ExcEntry where
  tryStart : Nat
  tryEnd : Nat
  catchTarget : Nat
  spAtEntry : Nat
  deriving DecidableEq

/-- A branch whose target is the construct `depth` levels out. -/
structure PendingBranch where
  slot : Nat
  depth : Nat
  deriving DecidableEq

/-- What has been emitted. -/
structure BytecodeSink (N : Type) where
  code : List Int
  constPool : List N
  pendingBranches : List PendingBranch
  exceptionTable : List ExcEntry

/-- `xs[i]`, which is undefined outside the array. -/
def at? {α : Type} (xs : List α) (i : Int) : Option α := if i < 0 then none else xs[i.toNat]?

@[simp] theorem at?_natCast {α : Type} (xs : List α) (i : Nat) : at? xs (i : Int) = xs[i]? := by
  rw [at?, if_neg (by omega), Int.toNat_natCast]

namespace BytecodeSink
variable {N : Type} [JsNumber N]

def empty : BytecodeSink N := ⟨[], [], [], []⟩

/-- `internConst`: the index is that of the first entry strictly equal to the value. -/
def internConst (s : BytecodeSink N) (value : N) : BytecodeSink N × Nat :=
  match s.constPool.findIdx? fun v => JsNumber.strictEq v value with
  | some existing => (s, existing)
  | none => ({ s with constPool := s.constPool ++ [value] }, s.constPool.length)

def here (s : BytecodeSink N) : Nat := s.code.length

def emit (s : BytecodeSink N) (op : Op) (operands : List Int) : BytecodeSink N :=
  { s with code := s.code ++ op.toInt :: operands }

/-- A jump with no target yet, and the slot of its operand. -/
def emitJumpPlaceholder (s : BytecodeSink N) (op : Op) : BytecodeSink N × Nat :=
  let s := s.emit op [-1]
  (s, s.code.length - 1)

/-- Fill in a target. -/
def patch (s : BytecodeSink N) (slot target : Nat) : BytecodeSink N :=
  { s with code := s.code.set slot target }

/-- A branch that an enclosing construct resolves. -/
def recordPendingBranch (s : BytecodeSink N) (slot depth : Nat) : BytecodeSink N :=
  { s with pendingBranches := s.pendingBranches ++ [⟨slot, depth⟩] }

/-- The `Map` from slots to depths: a later entry replaces an earlier one. -/
def pendingDepth (arm : BytecodeSink N) (slot : Nat) : Option Nat :=
  (arm.pendingBranches.reverse.find? fun pb => pb.slot = slot).map PendingBranch.depth

/-- The loop of `spliceArm`; `i` is the index of the next word. -/
def spliceCode (arm : BytecodeSink N) (base : Nat) :
    Nat → List Int → BytecodeSink N → Except String (BytecodeSink N)
  | _, [], out => .ok out
  | i, [w], out =>
    match Op.ofInt w with
    | some .CONST | some .JZ | some .JMP | some .JNZ | some .TRY_START | some .LOAD | some .STORE
    | some .TEE | some .GLOBAL_GET | some .GLOBAL_SET | some .CALL | some .CALL_REF
    | some .STRUCT_NEW | some .STRUCT_GET | some .STRUCT_SET =>
      .error s!"no operand at {i}"
    | _ => .ok { out with code := out.code ++ [w] }
  | i, w :: k :: rest, out =>
    match Op.ofInt w with
    | some .CONST =>
      match at? arm.constPool k with
      | none => .error "constant index out of range"
      | some value =>
        let (out, idx) := out.internConst value
        spliceCode arm base (i + 2) rest (out.emit .CONST [idx])
    | some .JZ | some .JMP | some .JNZ =>
      if k < 0 then
        match arm.pendingDepth (i + 1) with
        | none => .error "BytecodeSink.spliceArm: arm contains an unpatched jump (internal error)"
        | some depth =>
          -- the branch goes on waiting, in the enclosing sink
          let relocSlot := out.code.length + 1
          let out := { out with code := out.code ++ [w, -1] }
          spliceCode arm base (i + 2) rest (out.recordPendingBranch relocSlot depth)
      else spliceCode arm base (i + 2) rest { out with code := out.code ++ [w, k + base] }
    | some .TRY_START =>
      spliceCode arm base (i + 2) rest { out with code := out.code ++ [w, k + base] }
    | some .LOAD | some .STORE | some .TEE | some .GLOBAL_GET | some .GLOBAL_SET | some .CALL
    | some .CALL_REF | some .STRUCT_NEW | some .STRUCT_GET | some .STRUCT_SET =>
      spliceCode arm base (i + 2) rest { out with code := out.code ++ [w, k] }
    | _ => spliceCode arm base (i + 1) (k :: rest) { out with code := out.code ++ [w] }

/-- Append another sink's code, relocated. -/
def spliceArm (s arm : BytecodeSink N) : Except String (BytecodeSink N) := do
  let base := s.code.length
  let out ← spliceCode arm base 0 arm.code s
  return { out with exceptionTable := out.exceptionTable ++ arm.exceptionTable.map fun e =>
    ⟨e.tryStart + base, e.tryEnd + base, e.catchTarget + base, e.spAtEntry⟩ }

end BytecodeSink

/-! ### The primitives -/

section
variable {N : Type} [JsNumber N]
open BytecodeSink

/-- Comparisons of both types share opcodes. -/
def binopToOpcode : IrBinop → Except String Op
  | .f64_add => .ok .ADD
  | .f64_sub => .ok .SUB
  | .f64_mul => .ok .MUL
  | .f64_div => .ok .DIV
  | .f64_gt | .i32_gt_s => .ok .CMP_GT
  | .f64_lt | .i32_lt_s => .ok .CMP_LT
  | .f64_ge | .i32_ge_s => .ok .CMP_GE
  | .f64_le | .i32_le_s => .ok .CMP_LE
  | .f64_eq | .i32_eq => .ok .CMP_EQ
  | .f64_ne | .i32_ne => .ok .CMP_NE
  | _ => .error "BytecodeEmitter: binop not in the production subset"

def unopToOpcode : IrUnop → Except String Op
  | .f64_neg => .ok .NEG
  | _ => .error "BytecodeEmitter: unary not in the production subset"

/-- A constant operand of the numeric subset. -/
def constValue : IrConst N → Except String N
  | .i32 value | .f32 value | .f64 value => .ok value
  | .bool value => .ok (JsNumber.ofBool value)
  | .i64 _ | .null | .undefined => .error "BytecodeEmitter: const not in the numeric subset"

def emitConst (value : IrConst N) (out : BytecodeSink N) : Except String (BytecodeSink N) := do
  let v ← constValue value
  let (out, idx) := out.internConst v
  return out.emit .CONST [idx]

def emitBinary (op : IrBinop) (out : BytecodeSink N) : Except String (BytecodeSink N) := do
  return out.emit (← binopToOpcode op) []

def emitUnary (op : IrUnop) (out : BytecodeSink N) : Except String (BytecodeSink N) := do
  return out.emit (← unopToOpcode op) []

def emitLocalGet (index : Nat) (out : BytecodeSink N) : BytecodeSink N := out.emit .LOAD [index]
def emitLocalSet (index : Nat) (out : BytecodeSink N) : BytecodeSink N := out.emit .STORE [index]
def emitLocalTee (index : Nat) (out : BytecodeSink N) : BytecodeSink N := out.emit .TEE [index]

def emitGlobalGet (index : Nat) (out : BytecodeSink N) : BytecodeSink N :=
  out.emit .GLOBAL_GET [index]

def emitGlobalSet (index : Nat) (out : BytecodeSink N) : BytecodeSink N :=
  out.emit .GLOBAL_SET [index]

def emitDrop (out : BytecodeSink N) : BytecodeSink N := out.emit .DROP []
def emitSelect (out : BytecodeSink N) : BytecodeSink N := out.emit .SELECT []
def emitReturn (out : BytecodeSink N) : BytecodeSink N := out.emit .RET []
def emitUnreachable (out : BytecodeSink N) : BytecodeSink N := out.emit .UNREACHABLE []
def emitCall (funcIdx : Nat) (out : BytecodeSink N) : BytecodeSink N := out.emit .CALL [funcIdx]

def emitCallRef (funcTypeIdx : Nat) (out : BytecodeSink N) : BytecodeSink N :=
  out.emit .CALL_REF [funcTypeIdx]

/-- There is one tag: its index is not emitted. -/
def emitThrow (_tagIdx : Nat) (out : BytecodeSink N) : BytecodeSink N := out.emit .THROW []

/-- The caught value is on the stack. -/
def emitRethrow (_depth : Nat) (out : BytecodeSink N) : BytecodeSink N := out.emit .THROW []

def emitAggregateNew (fieldCount : Nat) (out : BytecodeSink N) : BytecodeSink N :=
  out.emit .STRUCT_NEW [fieldCount]

def emitFieldGet (fieldIdx : Nat) (out : BytecodeSink N) : BytecodeSink N :=
  out.emit .STRUCT_GET [fieldIdx]

def emitFieldSet (fieldIdx : Nat) (out : BytecodeSink N) : BytecodeSink N :=
  out.emit .STRUCT_SET [fieldIdx]

/-- `JZ` over the first arm, `JMP` over the second. -/
def emitIf (then_ els out : BytecodeSink N) : Except String (BytecodeSink N) := do
  let (out, toElse) := out.emitJumpPlaceholder .JZ
  let out ← out.spliceArm then_
  let (out, toEnd) := out.emitJumpPlaceholder .JMP
  let out := out.patch toElse out.here
  let out ← out.spliceArm els
  return out.patch toEnd out.here

/-- The target is patched by the construct. -/
def emitBr (depth : Nat) (out : BytecodeSink N) : BytecodeSink N :=
  let (out, slot) := out.emitJumpPlaceholder .JMP
  out.recordPendingBranch slot depth

def emitBrIf (depth : Nat) (out : BytecodeSink N) : BytecodeSink N :=
  let (out, slot) := out.emitJumpPlaceholder .JNZ
  out.recordPendingBranch slot depth

/-- Patch the branches that mean this construct; the others wait for the next one out. -/
def resolveMigrated (selfTarget : Nat) : List PendingBranch → BytecodeSink N → BytecodeSink N
  | [], out => out
  | ⟨slot, 0⟩ :: rest, out => resolveMigrated selfTarget rest (out.patch slot selfTarget)
  | ⟨slot, depth + 1⟩ :: rest, out =>
    resolveMigrated selfTarget rest (out.recordPendingBranch slot depth)

/-- Only branches that were spliced in are resolved. -/
def resolveSplicedBranches (out : BytecodeSink N) (firstNew selfTarget : Nat) : BytecodeSink N :=
  resolveMigrated selfTarget (out.pendingBranches.drop firstNew)
    { out with pendingBranches := out.pendingBranches.take firstNew }

/-- Branches go behind the body. -/
def emitBlock (body out : BytecodeSink N) : Except String (BytecodeSink N) := do
  let firstNew := out.pendingBranches.length
  let out ← out.spliceArm body
  return resolveSplicedBranches out firstNew out.here

/-- Branches go back to the header. -/
def emitLoop (body out : BytecodeSink N) : Except String (BytecodeSink N) := do
  let header := out.here
  let firstNew := out.pendingBranches.length
  let out ← out.spliceArm body
  return resolveSplicedBranches out firstNew header

/-- Splice a handler, if there is one. -/
def spliceOption (arm : Option (BytecodeSink N)) (out : BytecodeSink N) :
    Except String (BytecodeSink N) :=
  match arm with
  | none => .ok out
  | some arm => out.spliceArm arm

/-- The first `catch` is the handler, and `catchAll` where there is none; with both,
`catchAll` is spliced behind the `catch`. -/
def emitTry (body : BytecodeSink N) (catches : List (Nat × BytecodeSink N))
    (catchAll : Option (BytecodeSink N)) (out : BytecodeSink N) :
    Except String (BytecodeSink N) := do
  let (out, catchTargetSlot) := out.emitJumpPlaceholder .TRY_START
  let tryStart := out.here
  let out ← out.spliceArm body
  let tryEnd := out.here
  let out := out.emit .TRY_END []
  let (out, toEnd) := out.emitJumpPlaceholder .JMP
  let catchTarget := out.here
  let out := out.patch catchTargetSlot catchTarget
  let out ← spliceOption (catches.head?.map Prod.snd) out
  let out ← spliceOption catchAll out
  let out := out.patch toEnd out.here
  return { out with exceptionTable := out.exceptionTable ++ [⟨tryStart, tryEnd, catchTarget, 0⟩] }

/-! ### The driver -/

mutual

/-- Emit one instruction; the bodies of a structured one go to sinks of their own. -/
def emitTree : Tree N → BytecodeSink N → Except String (BytecodeSink N)
  | .const value, out => emitConst value out
  | .binary op, out => emitBinary op out
  | .unary op, out => emitUnary op out
  | .localGet index, out => .ok (emitLocalGet index out)
  | .localSet index, out => .ok (emitLocalSet index out)
  | .localTee index, out => .ok (emitLocalTee index out)
  | .globalGet index, out => .ok (emitGlobalGet index out)
  | .globalSet index, out => .ok (emitGlobalSet index out)
  | .drop, out => .ok (emitDrop out)
  | .select, out => .ok (emitSelect out)
  | .unreachable, out => .ok (emitUnreachable out)
  | .return_, out => .ok (emitReturn out)
  | .throw_ tagIdx, out => .ok (emitThrow tagIdx out)
  | .rethrow depth, out => .ok (emitRethrow depth out)
  | .structNew fieldCount, out => .ok (emitAggregateNew fieldCount out)
  | .structGet fieldIdx, out => .ok (emitFieldGet fieldIdx out)
  | .structSet fieldIdx, out => .ok (emitFieldSet fieldIdx out)
  | .call funcIdx, out => .ok (emitCall funcIdx out)
  | .callRef typeIdx, out => .ok (emitCallRef typeIdx out)
  | .br depth, out => .ok (emitBr depth out)
  | .brIf depth, out => .ok (emitBrIf depth out)
  | .block body, out => do emitBlock (← emitTrees body empty) out
  | .loop body, out => do emitLoop (← emitTrees body empty) out
  | .if_ then_ els, out => do emitIf (← emitTrees then_ empty) (← emitTrees els empty) out
  | .try_ body catches catchAll, out => do
    emitTry (← emitTrees body empty) (← emitCatches catches) (← emitCatchAll catchAll) out

def emitTrees : List (Tree N) → BytecodeSink N → Except String (BytecodeSink N)
  | [], out => .ok out
  | t :: rest, out => do emitTrees rest (← emitTree t out)

/-- The handlers, each in a sink of its own. -/
def emitCatches : List (Nat × List (Tree N)) → Except String (List (Nat × BytecodeSink N))
  | [] => .ok []
  | c :: rest => do
    let arm ← emitCatch c
    return arm :: (← emitCatches rest)

def emitCatch : Nat × List (Tree N) → Except String (Nat × BytecodeSink N)
  | (tagIdx, body) => do return (tagIdx, ← emitTrees body empty)

def emitCatchAll : Option (List (Tree N)) → Except String (Option (BytecodeSink N))
  | none => .ok none
  | some body => do return some (← emitTrees body empty)

end

/-- One entry of a program's function table. -/
structure FuncEntry (N : Type) where
  code : List Int
  constPool : List N
  arity : Nat
  exceptionTable : List ExcEntry
  deriving DecidableEq

/-- The functions, and which one runs. -/
structure BytecodeProgram (N : Type) where
  functions : List (FuncEntry N)
  entry : Nat
  deriving DecidableEq

/-- A function begins with an empty sink. -/
def emitFunction (f : Func N) : Except String (FuncEntry N) := do
  let sink ← emitTrees f.body empty
  return ⟨sink.code, sink.constPool, f.arity, sink.exceptionTable⟩

def emitModule (m : Module N) : Except String (BytecodeProgram N) := do
  return ⟨← m.functions.mapM emitFunction, m.entry⟩

end

end Js2Wasm.Bytecode
