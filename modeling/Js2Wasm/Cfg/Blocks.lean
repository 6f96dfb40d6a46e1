import Mathlib.Logic.Function.Basic
import Mathlib.Algebra.Group.Nat.Defs

/-! # The block graph of an IR function

Blocks, terminators and functions of `ir/core/nodes.ts`.  No pass over the block graph
looks into instructions or types, so both are parameters.  Block ids and branch targets
are numbers of the source: integers, which need not be indices of blocks.  The cells of an
`Int32Array` keep 32 bits of what is stored.
-/
namespace Js2Wasm.Cfg

abbrev IrValueId := Nat

/-- A position in the source text. -/
structure IrSiteId where
  line : Nat
  column : Nat
  deriving DecidableEq

structure IrBranch where
  target : Int
  args : List IrValueId
  deriving DecidableEq

inductive IrTerminator where
  | ret (values : List IrValueId) (site : Option IrSiteId)
  | br (branch : IrBranch) (site : Option IrSiteId)
  | brIf (condition : IrValueId) (ifTrue ifFalse : IrBranch) (site : Option IrSiteId)
  | unreachable (site : Option IrSiteId)
  deriving DecidableEq

structure IrBlock (Instr Ty : Type) where
  id : Int
  blockArgs : List IrValueId
  blockArgTypes : List Ty
  instrs : List Instr
  terminator : IrTerminator
  deriving DecidableEq

structure IrParam (Ty : Type) where
  value : IrValueId
  type : Ty
  name : String
  deriving DecidableEq

structure IrFunction (Instr Ty : Type) where
  name : String
  params : List (IrParam Ty)
  resultTypes : List Ty
  /-- The entry is block 0. -/
  blocks : List (IrBlock Instr Ty)
  exported : Bool
  valueCount : Nat
  deriving DecidableEq

variable {Instr Ty : Type}

/-- Successor block ids of a block, derived from its terminator. -/
def blockSuccessors (block : IrBlock Instr Ty) : List Int :=
  match block.terminator with
  | .br branch _ => [branch.target]
  | .brIf _ ifTrue ifFalse _ =>
    if ifTrue.target = ifFalse.target then [ifTrue.target]
    else [ifTrue.target, ifFalse.target]
  | .ret _ _ => []
  | .unreachable _ => []

namespace IrFunction

/-- The successors of the block with index `b`. -/
def succs (fn : IrFunction Instr Ty) (b : Nat) : List Int :=
  ((fn.blocks[b]?).map blockSuccessors).getD []

/-- An id that the block at its index carries. -/
def InRange (fn : IrFunction Instr Ty) (s : Int) : Prop := 0 ≤ s ∧ s < fn.blocks.length

instance (fn : IrFunction Instr Ty) (s : Int) : Decidable (fn.InRange s) :=
  inferInstanceAs (Decidable (_ ∧ _))

/-- The edges of the block graph; targets out of range lead nowhere. -/
def Edge (fn : IrFunction Instr Ty) (u v : Nat) : Prop :=
  (v : Int) ∈ fn.succs u ∧ v < fn.blocks.length

theorem Edge.lt {fn : IrFunction Instr Ty} {u v : Nat} (h : fn.Edge u v) :
    u < fn.blocks.length := by
  rcases Nat.lt_or_ge u fn.blocks.length with hu | hu
  · exact hu
  · have hnone : fn.blocks[u]? = none := List.getElem?_eq_none hu
    simp [Edge, succs, hnone] at h

/-- Every block carries its index as its id. -/
def Contiguous (fn : IrFunction Instr Ty) : Prop :=
  ∀ i (h : i < fn.blocks.length), fn.blocks[i].id = i

end IrFunction

/-! ### Typed arrays -/

def toInt32 (x : Int) : Int := x.bmod (2 ^ 32)

/-- Cells by index. -/
abbrev Int32Array := Nat → Int

namespace Int32Array

def fill (v : Int) : Int32Array := fun _ => v

def write (a : Int32Array) (i : Nat) (v : Int) : Int32Array := Function.update a i (toInt32 v)

/-- `a[x]`; a negative index reads `undefined`. -/
def read (a : Int32Array) (x : Int) : Option Int := if 0 ≤ x then some (a x.toNat) else none

end Int32Array

/-! ### Predecessors -/

/-- The targets of the terminator, each as often as it is named. -/
def rawTargets (block : IrBlock Instr Ty) : List Int :=
  match block.terminator with
  | .br branch _ => [branch.target]
  | .brIf _ ifTrue ifFalse _ => [ifTrue.target, ifFalse.target]
  | .ret _ _ => []
  | .unreachable _ => []

def countTarget (fn : IrFunction Instr Ty) (count : Int32Array) (s : Int) : Int32Array :=
  if fn.InRange s then count.write s.toNat (count s.toNat + 1) else count

/-- How many edges lead to each block, from reachable blocks or not. -/
def rawPredecessorCounts (fn : IrFunction Instr Ty) : Int32Array :=
  fn.blocks.foldl (fun count block => (rawTargets block).foldl (countTarget fn) count) (.fill 0)

end Js2Wasm.Cfg
