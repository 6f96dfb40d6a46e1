import Js2Wasm.Cfg.Blocks
import Js2Wasm.Lib.Stutter

/-! # Runs of an IR function

What instructions do is a parameter, a `Machine`: an instruction reads and writes values
and a memory, or leaves the function.  It knows nothing of blocks.  A step that executes an
instruction is labelled with it and the store it found; jumps are silent.
-/
namespace Js2Wasm.Cfg

structure Store (V Mem : Type) where
  env : IrValueId → V
  mem : Mem

structure Machine (Instr V Mem X : Type) where
  /-- The store after an instruction, or the way it leaves the function. -/
  exec : Instr → Store V Mem → Store V Mem ⊕ X
  truthy : V → Bool

inductive Outcome (V Mem X : Type) where
  | returned (values : List V) (mem : Mem)
  | trapped
  | left (x : X)

inductive Config (Instr V Mem X : Type) where
  | at (block : Nat) (rest : List Instr) (store : Store V Mem)
  | done (outcome : Outcome V Mem X)

variable {Instr Ty V Mem X : Type}

/-- Block arguments get the values of the branch arguments, all read before. -/
def bindArgs (params args : List IrValueId) (env : IrValueId → V) : IrValueId → V :=
  (params.zip (args.map env)).foldl (fun env pv => Function.update env pv.1 pv.2) env

@[simp] theorem bindArgs_nil (args : List IrValueId) (env : IrValueId → V) :
    bindArgs [] args env = env := rfl

namespace IrFunction
variable (fn : IrFunction Instr Ty)

/-- A branch; nowhere when its target is no block. -/
def goto (branch : IrBranch) (store : Store V Mem) : Option (Config Instr V Mem X) :=
  if fn.InRange branch.target then
    (fn.blocks[branch.target.toNat]?).map fun block =>
      .at branch.target.toNat block.instrs
        { store with env := bindArgs block.blockArgs branch.args store.env }
  else none

/-- What a terminator does. -/
def leave (M : Machine Instr V Mem X) (t : IrTerminator) (store : Store V Mem) :
    Option (Config Instr V Mem X) :=
  match t with
  | .ret values _ => some (.done (.returned (values.map store.env) store.mem))
  | .unreachable _ => some (.done .trapped)
  | .br branch _ => fn.goto branch store
  | .brIf condition ifTrue ifFalse _ =>
    fn.goto (if M.truthy (store.env condition) then ifTrue else ifFalse) store

/-- One step. -/
def next (M : Machine Instr V Mem X) :
    Config Instr V Mem X → Option (Option (Instr × Store V Mem) × Config Instr V Mem X)
  | .done _ => none
  | .at b (instr :: rest) store =>
    match M.exec instr store with
    | .inl store' => some (some (instr, store), .at b rest store')
    | .inr x => some (some (instr, store), .done (.left x))
  | .at b [] store =>
    (fn.blocks[b]?).bind fun block => (fn.leave M block.terminator store).map (none, ·)

/-- The start of a run: the entry block. -/
def enter (store : Store V Mem) : Option (Config Instr V Mem X) :=
  (fn.blocks[0]?).map fun block => .at 0 block.instrs store

/-- The function can execute these instructions in these stores. -/
def Executes (M : Machine Instr V Mem X) (store : Store V Mem) (trace : List (Instr × Store V Mem)) :
    Prop :=
  ∃ c, fn.enter store = some c ∧ ∃ c', Stutter.Runs (fn.next M) c trace c'

/-- The function ends, after these instructions in these stores. -/
def Finishes (M : Machine Instr V Mem X) (store : Store V Mem) (trace : List (Instr × Store V Mem))
    (outcome : Outcome V Mem X) : Prop :=
  ∃ c, fn.enter store = some c ∧ Stutter.Runs (fn.next M) c trace (.done outcome)

end IrFunction

end Js2Wasm.Cfg
