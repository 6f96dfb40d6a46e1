import Js2Wasm.Cfg.Blocks
import Js2Wasm.Lib.While
import Mathlib.Data.Finset.Insert

/-! # Dominance analysis

`computeDominance` of `ir/analysis/dominance.ts` and the naive reference beside it.

Arrays indexed by block ids are functions.  Loops run with fuel, and the result is `none`
when some loop runs out of it or an index that no array has is dereferenced.  Stacks have
their top first.
-/
namespace Js2Wasm.Cfg
open Function

variable {Instr Ty : Type}

/-- `a > b`, false when a side is `undefined`. -/
def gt : Option Int → Option Int → Bool
  | some a, some b => b < a
  | _, _ => false

/-! ### Reachability and postorder -/

structure Dfs where
  reachable : Nat → Bool
  postorder : List Nat
  /-- Blocks with the index of the next successor. -/
  stack : List (Nat × Nat)

/-- One round of the depth-first search. -/
def dfsStep (fn : IrFunction Instr Ty) (s : Dfs) : Option Dfs :=
  match s.stack with
  | [] => none
  | (b, i) :: rest =>
    (fn.blocks[b]?).map fun block =>
      match (blockSuccessors block)[i]? with
      | some t =>
        if fn.InRange t ∧ s.reachable t.toNat = false then
          { s with
            reachable := update s.reachable t.toNat true
            stack := (t.toNat, 0) :: (b, i + 1) :: rest }
        else { s with stack := (b, i + 1) :: rest }
      | none => { s with postorder := s.postorder ++ [b], stack := rest }

def dfsStart : Dfs := ⟨update (fun _ => false) 0 true, [], [(0, 0)]⟩

def dfs (fuel : Nat) (fn : IrFunction Instr Ty) : Option Dfs :=
  Loop.run (fun s => !s.stack.isEmpty) (dfsStep fn) fuel dfsStart

/-- Position of each block in `rpo`. -/
def rpoNumbers (rpo : List Nat) : Int32Array :=
  rpo.zipIdx.foldl (fun nums bi => nums.write bi.1 bi.2) (.fill (-1))

def addPred (fn : IrFunction Instr Ty) (reachable : Nat → Bool) (b : Nat)
    (preds : Nat → List Nat) (s : Int) : Nat → List Nat :=
  if fn.InRange s ∧ reachable s.toNat ∧ b ∉ preds s.toNat then
    update preds s.toNat (preds s.toNat ++ [b])
  else preds

/-- Reachable predecessors, each once. -/
def predecessors (fn : IrFunction Instr Ty) (reachable : Nat → Bool) (rpo : List Nat) :
    Nat → List Nat :=
  rpo.foldl (fun preds b => (fn.succs b).foldl (addPred fn reachable b) preds) fun _ => []

/-! ### The iteration -/

/-- `while (rpoNum[x] > rpoNum[y]) x = idom[x]`. -/
def climb (fuel : Nat) (rpoNum idom : Int32Array) (x y : Int) : Option Int :=
  Loop.run (fun x => gt (rpoNum.read x) (rpoNum.read y)) idom.read fuel x

def intersect (fuel : Nat) (rpoNum idom : Int32Array) (a b : Int) : Option Int :=
  (Loop.run (fun xy : Int × Int => xy.1 ≠ xy.2)
    (fun xy => do
      let x ← climb fuel rpoNum idom xy.1 xy.2
      let y ← climb fuel rpoNum idom xy.2 x
      some (x, y))
    fuel (a, b)).map (·.1)

def meetPred (fuel : Nat) (rpoNum idom : Int32Array) (new : Int) (p : Nat) : Option Int :=
  if idom p = -1 then some new
  else if new = -1 then some (p : Int)
  else intersect fuel rpoNum idom new p

/-- The intersection over the predecessors that have an `idom`. -/
def newIdom (fuel : Nat) (rpoNum idom : Int32Array) (preds : List Nat) : Option Int :=
  preds.foldlM (meetPred fuel rpoNum idom) (-1)

/-- What one block contributes to a round. -/
def visitBlock (fuel : Nat) (rpoNum : Int32Array) (preds : Nat → List Nat)
    (s : Int32Array × Bool) (b : Nat) : Option (Int32Array × Bool) :=
  if b = 0 then some s
  else do
    let new ← newIdom fuel rpoNum s.1 (preds b)
    if new ≠ -1 ∧ s.1 b ≠ new then some (s.1.write b new, true) else some s

/-- `while (changed)`, from an array where only the entry has an `idom`. -/
def computeIdoms (fuel : Nat) (rpoNum : Int32Array) (preds : Nat → List Nat) (rpo : List Nat) :
    Option Int32Array :=
  (Loop.run (fun s : Int32Array × Bool => s.2)
    (fun s => rpo.foldlM (visitBlock fuel rpoNum preds) (s.1, false))
    fuel (Int32Array.write (.fill (-1)) 0 0, true)).map (·.1)

/-! ### The tree -/

def addChild (idom : Int32Array) (children : Nat → List Nat) (b : Nat) :
    Option (Nat → List Nat) :=
  if b = 0 ∨ idom b = -1 then some children
  else if idom b < 0 then none
  else some (update children (idom b).toNat (children (idom b).toNat ++ [b]))

structure TreeWalk where
  treeIn : Int32Array
  treeOut : Int32Array
  clock : Nat
  stack : List (Nat × Nat)

def treeStep (children : Nat → List Nat) (s : TreeWalk) : Option TreeWalk :=
  match s.stack with
  | [] => none
  | (b, i) :: rest =>
    match (children b)[i]? with
    | some c =>
      some { s with
        treeIn := s.treeIn.write c s.clock
        clock := s.clock + 1
        stack := (c, 0) :: (b, i + 1) :: rest }
    | none =>
      some { s with treeOut := s.treeOut.write b s.clock, clock := s.clock + 1, stack := rest }

def treeStart : TreeWalk := ⟨Int32Array.write (.fill (-1)) 0 0, .fill (-1), 1, [(0, 0)]⟩

/-- Pre and post numbers. -/
def numberTree (fuel : Nat) (children : Nat → List Nat) : Option TreeWalk :=
  Loop.run (fun s => !s.stack.isEmpty) (treeStep children) fuel treeStart

/-! ### Frontiers -/

def addFrontier (frontier : Nat → List Nat) (runner b : Nat) : Nat → List Nat :=
  if b ∈ frontier runner then frontier
  else update frontier runner (frontier runner ++ [b])

/-- The runner from `p` up to the `idom` of `b`. -/
def runUp (fuel : Nat) (idom : Int32Array) (b : Nat) (frontier : Nat → List Nat) (p : Nat) :
    Option (Nat → List Nat) :=
  (Loop.run (fun s : Int × (Nat → List Nat) => s.1 ≠ idom b)
    (fun s =>
      if s.1 < 0 then none
      else some (idom s.1.toNat, addFrontier s.2 s.1.toNat b))
    fuel ((p : Int), frontier)).map (·.2)

def frontiers (fuel : Nat) (idom : Int32Array) (preds : Nat → List Nat) (rpo : List Nat) :
    Option (Nat → List Nat) := do
  let frontier ← rpo.foldlM (fun frontier b => (preds b).foldlM (runUp fuel idom b) frontier)
    fun _ => []
  if preds 0 ≠ [] then some (update frontier 0 (frontier 0 ++ [0])) else some frontier

/-! ### The analysis -/

structure DominanceInfo where
  reachable : Nat → Bool
  rpo : List Nat
  idom : Nat → Int
  children : Nat → List Nat
  preds : Nat → List Nat
  frontier : Nat → List Nat
  dominates : Int → Int → Bool

/-- Does `a` dominate `b`, by the numbers of the tree? -/
def dominatesBy (fn : IrFunction Instr Ty) (reachable : Nat → Bool) (t : TreeWalk) (a b : Int) :
    Bool :=
  if ¬ fn.InRange a ∨ ¬ fn.InRange b then false
  else if !reachable a.toNat || !reachable b.toNat then false
  else t.treeIn a.toNat ≤ t.treeIn b.toNat && t.treeOut b.toNat ≤ t.treeOut a.toNat

/-- The first block whose id is not its index. -/
def misplacedBlock (fn : IrFunction Instr Ty) : Option (IrBlock Instr Ty × Nat) :=
  fn.blocks.zipIdx.find? fun bi => bi.1.id ≠ bi.2

def computeDominance (fuel : Nat) (fn : IrFunction Instr Ty) :
    Option (Except String DominanceInfo) :=
  match misplacedBlock fn with
  | some (block, i) =>
    some (.error s!"dominance: block ids not contiguous (blocks[{i}].id === {block.id})")
  | none =>
    if fn.blocks = [] then
      some (.ok ⟨fun _ => false, [], fun _ => -1, fun _ => [], fun _ => [], fun _ => [],
        fun _ _ => false⟩)
    else do
      let search ← dfs fuel fn
      let rpo := search.postorder.reverse
      let rpoNum := rpoNumbers rpo
      let preds := predecessors fn search.reachable rpo
      let idom ← computeIdoms fuel rpoNum preds rpo
      let children ← rpo.foldlM (addChild idom) fun _ => []
      let tree ← numberTree fuel children
      let frontier ← frontiers fuel idom preds rpo
      some (.ok ⟨search.reachable, rpo, idom, children, preds, frontier,
        dominatesBy fn search.reachable tree⟩)

/-! ### The naive reference -/

structure Flood where
  seen : Nat → Bool
  stack : List Nat

def floodEdge (fn : IrFunction Instr Ty) (removed : Int) (s : Flood) (t : Int) : Flood :=
  if fn.InRange t ∧ t ≠ removed ∧ s.seen t.toNat = false then
    ⟨update s.seen t.toNat true, t.toNat :: s.stack⟩
  else s

def floodStep (fn : IrFunction Instr Ty) (removed : Int) (s : Flood) : Option Flood :=
  match s.stack with
  | [] => none
  | b :: rest => (fn.blocks[b]?).map fun block =>
    (blockSuccessors block).foldl (floodEdge fn removed) { s with stack := rest }

def reachableWithout (fuel : Nat) (fn : IrFunction Instr Ty) (removed : Int) :
    Option (Nat → Bool) :=
  if removed = 0 then some fun _ => false
  else
    (Loop.run (fun s : Flood => !s.stack.isEmpty) (floodStep fn removed) fuel
      ⟨update (fun _ => false) 0 true, [0]⟩).map (·.seen)

def addDominator (baseline seen : Nat → Bool) (a : Nat) (dom : Nat → Finset Nat) (b : Nat) :
    Nat → Finset Nat :=
  if !baseline b || !baseline a then dom
  else if b = a ∨ seen b = false then update dom b (insert a (dom b))
  else dom

/-- Dominance from the definition: for each block the set of blocks that dominate it. -/
def computeDominanceNaive (fuel : Nat) (fn : IrFunction Instr Ty) : Option (Nat → Finset Nat) := do
  let baseline ← reachableWithout fuel fn (-1)
  (List.range fn.blocks.length).foldlM
    (fun dom (a : Nat) => do
      let seen ← reachableWithout fuel fn a
      some ((List.range fn.blocks.length).foldl (addDominator baseline seen a) dom))
    fun _ => ∅

end Js2Wasm.Cfg
