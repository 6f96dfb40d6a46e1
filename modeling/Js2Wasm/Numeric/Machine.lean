import Js2Wasm.Lib.Binary64
import Js2Wasm.Lib.Structured

/-! # Numeric WebAssembly code

The numeric instructions that the 32-bit coercion and the floating-point remainder are made
of, over locals and an operand stack.  A shift takes its amount modulo 64, and floating-point
arithmetic rounds.

Both are silent, so the state also keeps a record of them: the amount of every shift, and the
operands and the result of every product and difference.  No instruction reads it. -/
namespace Js2Wasm.Numeric

open Structured

inductive Value where
  | i32 (v : BitVec 32)
  | i64 (v : BitVec 64)
  | f64 (bits : BitVec 64)

/-- What a run has done that may have lost something. -/
inductive Event where
  | shift (amount : BitVec 64)
  | mul (x y result : BitVec 64)
  | sub (x y result : BitVec 64)

structure State where
  locals : Nat → Value
  stack : List Value
  /-- Newest first. -/
  record : List Event

inductive Op where
  | localGet (index : Nat)
  | localSet (index : Nat)
  | i32Const (value : BitVec 32)
  | i64Const (value : BitVec 64)
  | f64Const (bits : BitVec 64)
  | i64ReinterpretF64
  | i32WrapI64
  | f64ConvertI32S
  | i64And
  | i64Or
  | i64Sub
  | i64Shl
  | i64ShrU
  | i64GeS
  | i64LeS
  | i64LtS
  | i32And
  | i32Sub
  | i32Mul
  | i32Clz
  | i32Eqz
  | f64Eq
  | f64Ne
  | f64Lt
  | f64Le
  | f64Ge
  | f64Mul
  | f64Sub
  | f64Abs
  | f64Copysign
  | brIf (depth : Nat)
  | return_

/-- A truth value on the stack. -/
def flag (b : Bool) : Value := .i32 (if b then 1 else 0)

/-- `f64.convert_i32_s`; 0 becomes a positive zero. -/
def convertI32 (v : BitVec 32) : BitVec 64 :=
  Binary64.pack (Float.Model.UnpackedFloat.ofInt .binary64 v.toInt)

example : convertI32 0 = 0 := by decide

/-- The values that an instruction leaves in place of its operands, the top first. -/
def Op.compute : Op → List Value → Option (List Value)
  | .i32Const v, st => some (.i32 v :: st)
  | .i64Const v, st => some (.i64 v :: st)
  | .f64Const x, st => some (.f64 x :: st)
  | .i64ReinterpretF64, .f64 x :: st => some (.i64 x :: st)
  | .i32WrapI64, .i64 x :: st => some (.i32 (x.setWidth 32) :: st)
  | .f64ConvertI32S, .i32 x :: st => some (.f64 (convertI32 x) :: st)
  | .i64And, .i64 y :: .i64 x :: st => some (.i64 (x &&& y) :: st)
  | .i64Or, .i64 y :: .i64 x :: st => some (.i64 (x ||| y) :: st)
  | .i64Sub, .i64 y :: .i64 x :: st => some (.i64 (x - y) :: st)
  | .i64Shl, .i64 y :: .i64 x :: st => some (.i64 (x <<< (y.toNat % 64)) :: st)
  | .i64ShrU, .i64 y :: .i64 x :: st => some (.i64 (x >>> (y.toNat % 64)) :: st)
  | .i64GeS, .i64 y :: .i64 x :: st => some (flag (y.sle x) :: st)
  | .i64LeS, .i64 y :: .i64 x :: st => some (flag (x.sle y) :: st)
  | .i64LtS, .i64 y :: .i64 x :: st => some (flag (x.slt y) :: st)
  | .i32And, .i32 y :: .i32 x :: st => some (.i32 (x &&& y) :: st)
  | .i32Sub, .i32 y :: .i32 x :: st => some (.i32 (x - y) :: st)
  | .i32Mul, .i32 y :: .i32 x :: st => some (.i32 (x * y) :: st)
  | .i32Clz, .i32 x :: st => some (.i32 x.clz :: st)
  | .i32Eqz, .i32 x :: st => some (flag (x == 0) :: st)
  | .f64Eq, .f64 y :: .f64 x :: st => some (flag (Binary64.eq x y) :: st)
  | .f64Ne, .f64 y :: .f64 x :: st => some (flag (!Binary64.eq x y) :: st)
  | .f64Lt, .f64 y :: .f64 x :: st => some (flag (Binary64.lt x y) :: st)
  | .f64Le, .f64 y :: .f64 x :: st => some (flag (Binary64.le x y) :: st)
  | .f64Ge, .f64 y :: .f64 x :: st => some (flag (Binary64.le y x) :: st)
  | .f64Mul, .f64 y :: .f64 x :: st => some (.f64 (Binary64.mul x y) :: st)
  | .f64Sub, .f64 y :: .f64 x :: st => some (.f64 (Binary64.sub x y) :: st)
  | .f64Abs, .f64 x :: st => some (.f64 (Binary64.abs x) :: st)
  | .f64Copysign, .f64 y :: .f64 x :: st => some (.f64 (Binary64.copysign x y) :: st)
  | _, _ => none

def Op.events : Op → List Value → List Event
  | .i64Shl, .i64 y :: _ => [.shift y]
  | .i64ShrU, .i64 y :: _ => [.shift y]
  | .f64Mul, .f64 y :: .f64 x :: _ => [.mul x y (Binary64.mul x y)]
  | .f64Sub, .f64 y :: .f64 x :: _ => [.sub x y (Binary64.sub x y)]
  | _, _ => []

/-- `local.set` -/
def State.set (s : State) (index : Nat) (v : Value) : State :=
  { s with locals := fun j => if j = index then v else s.locals j }

/-- An instruction that goes on to the next one. -/
def Op.next : Op → State → Option State
  | .localGet i, s => some { s with stack := s.locals i :: s.stack }
  | .localSet i, s => match s.stack with
    | v :: st => some (State.set { s with stack := st } i v)
    | [] => none
  | op, s => match op.compute s.stack with
    | some st => some { s with stack := st, record := op.events s.stack ++ s.record }
    | none => none

def step : Op → State → Res Unit × State
  | .brIf d, s => match s.stack with
    | .i32 x :: st => (if x = 0 then .normal else .br d, { s with stack := st })
    | _ => (.stuck, s)
  | .return_, s => (.return_, s)
  | op, s => match op.next s with
    | some s' => (.normal, s')
    | none => (.stuck, s)

/-- Branches take no values along, so a label keeps the operands it was entered with. -/
def machine : Machine Op State Unit where
  step := step
  test s := match s.stack with
    | .i32 x :: st => some (x != 0, { s with stack := st })
    | _ => none
  restore entry s := { s with stack := entry.stack }

/-- A line of code. -/
def line (ops : List Op) : List (Code Op) := ops.map .basic

/-- Run instructions that all go on to the next. -/
def runLine (ops : List Op) (s : State) : Option State := ops.foldlM (fun s op => op.next s) s

section
variable {fuel : Nat} {labels : List (Option Unit)} {s s' : State} {rest : List (Code Op)}

variable {i d : Nat} {op : Op}

theorem step_next (h : op.next s = some s') : step op s = (.normal, s') := by
  cases op with
  | brIf | return_ => exact nomatch (show none = some s' from h)
  | _ => simp only [step, h]

theorem run_line {ops : List Op} (h : runLine ops s = some s') :
    run machine fuel (line ops ++ rest) labels s = run machine fuel rest labels s' := by
  induction ops generalizing s with
  | nil =>
    cases h
    rfl
  | cons op ops ih =>
    rw [runLine, List.foldlM_cons] at h
    obtain ⟨t, ht, hs⟩ := Option.bind_eq_some_iff.mp h
    exact (run_step (step_next ht)).trans (ih hs)

/-! ### One instruction

`runLine` steps by these, without opening the table of instructions. -/

variable {l : Nat → Value} {st : List Value} {r : List Event} {ops : List Op}
variable {a b : BitVec 32} {v w x y : BitVec 64}

@[simp] theorem runLine_nil : runLine [] s = some s := rfl

theorem runLine_cons (h : op.next s = some s') : runLine (op :: ops) s = runLine ops s' := by
  rw [runLine, List.foldlM_cons, h]
  rfl

@[simp] theorem line_localGet :
    runLine (.localGet i :: ops) ⟨l, st, r⟩ = runLine ops ⟨l, l i :: st, r⟩ := runLine_cons rfl

@[simp] theorem line_localSet {u : Value} : runLine (.localSet i :: ops) ⟨l, u :: st, r⟩ =
    runLine ops ⟨fun j => if j = i then u else l j, st, r⟩ := runLine_cons rfl

@[simp] theorem line_i32Const :
    runLine (.i32Const a :: ops) ⟨l, st, r⟩ = runLine ops ⟨l, .i32 a :: st, r⟩ := runLine_cons rfl

@[simp] theorem line_i64Const :
    runLine (.i64Const v :: ops) ⟨l, st, r⟩ = runLine ops ⟨l, .i64 v :: st, r⟩ := runLine_cons rfl

@[simp] theorem line_f64Const :
    runLine (.f64Const x :: ops) ⟨l, st, r⟩ = runLine ops ⟨l, .f64 x :: st, r⟩ := runLine_cons rfl

@[simp] theorem line_i64ReinterpretF64 : runLine (.i64ReinterpretF64 :: ops) ⟨l, .f64 x :: st, r⟩ =
    runLine ops ⟨l, .i64 x :: st, r⟩ := runLine_cons rfl

@[simp] theorem line_i32WrapI64 : runLine (.i32WrapI64 :: ops) ⟨l, .i64 v :: st, r⟩ =
    runLine ops ⟨l, .i32 (v.setWidth 32) :: st, r⟩ := runLine_cons rfl

@[simp] theorem line_f64ConvertI32S : runLine (.f64ConvertI32S :: ops) ⟨l, .i32 a :: st, r⟩ =
    runLine ops ⟨l, .f64 (convertI32 a) :: st, r⟩ := runLine_cons rfl

@[simp] theorem line_i64And : runLine (.i64And :: ops) ⟨l, .i64 w :: .i64 v :: st, r⟩ =
    runLine ops ⟨l, .i64 (v &&& w) :: st, r⟩ := runLine_cons rfl

@[simp] theorem line_i64Or : runLine (.i64Or :: ops) ⟨l, .i64 w :: .i64 v :: st, r⟩ =
    runLine ops ⟨l, .i64 (v ||| w) :: st, r⟩ := runLine_cons rfl

@[simp] theorem line_i64Sub : runLine (.i64Sub :: ops) ⟨l, .i64 w :: .i64 v :: st, r⟩ =
    runLine ops ⟨l, .i64 (v - w) :: st, r⟩ := runLine_cons rfl

@[simp] theorem line_i64Shl : runLine (.i64Shl :: ops) ⟨l, .i64 w :: .i64 v :: st, r⟩ =
    runLine ops ⟨l, .i64 (v <<< (w.toNat % 64)) :: st, .shift w :: r⟩ := runLine_cons rfl

@[simp] theorem line_i64ShrU : runLine (.i64ShrU :: ops) ⟨l, .i64 w :: .i64 v :: st, r⟩ =
    runLine ops ⟨l, .i64 (v >>> (w.toNat % 64)) :: st, .shift w :: r⟩ := runLine_cons rfl

@[simp] theorem line_i64GeS : runLine (.i64GeS :: ops) ⟨l, .i64 w :: .i64 v :: st, r⟩ =
    runLine ops ⟨l, flag (w.sle v) :: st, r⟩ := runLine_cons rfl

@[simp] theorem line_i64LeS : runLine (.i64LeS :: ops) ⟨l, .i64 w :: .i64 v :: st, r⟩ =
    runLine ops ⟨l, flag (v.sle w) :: st, r⟩ := runLine_cons rfl

@[simp] theorem line_i64LtS : runLine (.i64LtS :: ops) ⟨l, .i64 w :: .i64 v :: st, r⟩ =
    runLine ops ⟨l, flag (v.slt w) :: st, r⟩ := runLine_cons rfl

@[simp] theorem line_i32And : runLine (.i32And :: ops) ⟨l, .i32 b :: .i32 a :: st, r⟩ =
    runLine ops ⟨l, .i32 (a &&& b) :: st, r⟩ := runLine_cons rfl

@[simp] theorem line_i32Sub : runLine (.i32Sub :: ops) ⟨l, .i32 b :: .i32 a :: st, r⟩ =
    runLine ops ⟨l, .i32 (a - b) :: st, r⟩ := runLine_cons rfl

@[simp] theorem line_i32Mul : runLine (.i32Mul :: ops) ⟨l, .i32 b :: .i32 a :: st, r⟩ =
    runLine ops ⟨l, .i32 (a * b) :: st, r⟩ := runLine_cons rfl

@[simp] theorem line_i32Clz : runLine (.i32Clz :: ops) ⟨l, .i32 a :: st, r⟩ =
    runLine ops ⟨l, .i32 a.clz :: st, r⟩ := runLine_cons rfl

@[simp] theorem line_i32Eqz : runLine (.i32Eqz :: ops) ⟨l, .i32 a :: st, r⟩ =
    runLine ops ⟨l, flag (a == 0) :: st, r⟩ := runLine_cons rfl

@[simp] theorem line_f64Eq : runLine (.f64Eq :: ops) ⟨l, .f64 y :: .f64 x :: st, r⟩ =
    runLine ops ⟨l, flag (Binary64.eq x y) :: st, r⟩ := runLine_cons rfl

@[simp] theorem line_f64Ne : runLine (.f64Ne :: ops) ⟨l, .f64 y :: .f64 x :: st, r⟩ =
    runLine ops ⟨l, flag (!Binary64.eq x y) :: st, r⟩ := runLine_cons rfl

@[simp] theorem line_f64Lt : runLine (.f64Lt :: ops) ⟨l, .f64 y :: .f64 x :: st, r⟩ =
    runLine ops ⟨l, flag (Binary64.lt x y) :: st, r⟩ := runLine_cons rfl

@[simp] theorem line_f64Le : runLine (.f64Le :: ops) ⟨l, .f64 y :: .f64 x :: st, r⟩ =
    runLine ops ⟨l, flag (Binary64.le x y) :: st, r⟩ := runLine_cons rfl

@[simp] theorem line_f64Ge : runLine (.f64Ge :: ops) ⟨l, .f64 y :: .f64 x :: st, r⟩ =
    runLine ops ⟨l, flag (Binary64.le y x) :: st, r⟩ := runLine_cons rfl

@[simp] theorem line_f64Mul : runLine (.f64Mul :: ops) ⟨l, .f64 y :: .f64 x :: st, r⟩ =
    runLine ops ⟨l, .f64 (Binary64.mul x y) :: st, .mul x y (Binary64.mul x y) :: r⟩ :=
  runLine_cons rfl

@[simp] theorem line_f64Sub : runLine (.f64Sub :: ops) ⟨l, .f64 y :: .f64 x :: st, r⟩ =
    runLine ops ⟨l, .f64 (Binary64.sub x y) :: st, .sub x y (Binary64.sub x y) :: r⟩ :=
  runLine_cons rfl

@[simp] theorem line_f64Abs : runLine (.f64Abs :: ops) ⟨l, .f64 x :: st, r⟩ =
    runLine ops ⟨l, .f64 (Binary64.abs x) :: st, r⟩ := runLine_cons rfl

@[simp] theorem line_f64Copysign : runLine (.f64Copysign :: ops) ⟨l, .f64 y :: .f64 x :: st, r⟩ =
    runLine ops ⟨l, .f64 (Binary64.copysign x y) :: st, r⟩ := runLine_cons rfl

/-! ### Conditions -/

variable {p q : Bool} {then_ else_ : List (Code Op)}

@[simp] theorem line_i32And_flag : runLine (.i32And :: ops) ⟨l, flag q :: flag p :: st, r⟩ =
    runLine ops ⟨l, flag (p && q) :: st, r⟩ := by
  cases p <;> cases q <;> exact runLine_cons rfl

@[simp] theorem line_i32Eqz_flag : runLine (.i32Eqz :: ops) ⟨l, flag p :: st, r⟩ =
    runLine ops ⟨l, flag (!p) :: st, r⟩ := by
  cases p <;> exact runLine_cons rfl

theorem run_line_end (h : runLine ops s = some s') :
    run machine fuel (line ops) labels s = (.normal, s') := by
  have := @run_line fuel labels s s' [] ops h
  rwa [List.append_nil, run_nil] at this

/-- An `if` whose selected arm completes. -/
theorem run_if (h : run machine fuel (if p then then_ else else_) (none :: labels) ⟨l, st, r⟩ =
      (.normal, s')) :
    run machine fuel (.if_ then_ (some else_) :: rest) labels ⟨l, flag p :: st, r⟩ =
      run machine fuel rest labels s' := by
  rw [run_cons, runCode]
  cases p with
  | true =>
    have hb : machine.branch ⟨l, flag true :: st, r⟩
        (fun s' => run machine fuel then_ (none :: labels) s')
        (fun s' => runElse machine fuel (some else_) (none :: labels) s') =
        machine.leave ⟨l, st, r⟩ (run machine fuel then_ (none :: labels) ⟨l, st, r⟩) := rfl
    rw [hb, show run machine fuel then_ (none :: labels) ⟨l, st, r⟩ = _ from h]
    rfl
  | false =>
    have hb : machine.branch ⟨l, flag false :: st, r⟩
        (fun s' => run machine fuel then_ (none :: labels) s')
        (fun s' => runElse machine fuel (some else_) (none :: labels) s') =
        machine.leave ⟨l, st, r⟩
          (runElse machine fuel (some else_) (none :: labels) ⟨l, st, r⟩) := rfl
    rw [hb, runElse, show run machine fuel else_ (none :: labels) ⟨l, st, r⟩ = _ from h]
    rfl

/-- An `if` without an `else`. -/
theorem run_if_none (h : run machine fuel (if p then then_ else []) (none :: labels) ⟨l, st, r⟩ =
      (.normal, s')) :
    run machine fuel (.if_ then_ none :: rest) labels ⟨l, flag p :: st, r⟩ =
      run machine fuel rest labels s' := by
  cases p with
  | true =>
    have hb : runCode machine fuel (.if_ then_ none) labels ⟨l, flag true :: st, r⟩ =
        machine.leave ⟨l, st, r⟩ (run machine fuel then_ (none :: labels) ⟨l, st, r⟩) := by
      rw [runCode]
      rfl
    rw [run_cons, hb, show run machine fuel then_ (none :: labels) ⟨l, st, r⟩ = _ from h]
    rfl
  | false =>
    rw [if_neg (by decide), run_nil] at h
    cases h
    have hb : runCode machine fuel (.if_ then_ none) labels ⟨l, flag false :: st, r⟩ =
        machine.leave ⟨l, st, r⟩ (runElse machine fuel none (none :: labels) ⟨l, st, r⟩) := by
      rw [runCode]
      rfl
    rw [run_cons, hb, runElse]
    rfl

/-- An `if` whose arm returns. -/
theorem run_if_return (h : run machine fuel then_ (none :: labels) ⟨l, st, r⟩ = (.return_, s')) :
    run machine fuel (.if_ then_ none :: rest) labels ⟨l, flag true :: st, r⟩ =
      (.return_, s') := by
  have hb : runCode machine fuel (.if_ then_ none) labels ⟨l, flag true :: st, r⟩ =
      machine.leave ⟨l, st, r⟩ (run machine fuel then_ (none :: labels) ⟨l, st, r⟩) := by
    rw [runCode]
    rfl
  rw [run_cons, hb, h]
  rfl

theorem run_brIf_taken :
    run machine fuel (.basic (.brIf d) :: rest) labels ⟨l, flag true :: st, r⟩ =
      (.br d, ⟨l, st, r⟩) :=
  run_step_stop rfl (by simp)

theorem run_brIf_passed :
    run machine fuel (.basic (.brIf d) :: rest) labels ⟨l, flag false :: st, r⟩ =
      run machine fuel rest labels ⟨l, st, r⟩ :=
  run_step rfl

end

end Js2Wasm.Numeric
