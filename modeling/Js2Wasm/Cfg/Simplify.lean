import Js2Wasm.Cfg.Blocks

/-! # Merging of blocks

`simplifyCFG` of `ir/passes/simplify-cfg.ts`.  The map from old to new ids is the list of
its entries; a thrown error is its text.
-/
namespace Js2Wasm.Cfg

variable {Instr Ty : Type}

def rewriteBranch (br : IrBranch) (oldToNew : List (Nat × Nat)) (funcName : String) :
    Except String IrBranch :=
  match if 0 ≤ br.target then oldToNew.lookup br.target.toNat else none with
  | none =>
    .error s!"ir/passes/simplify-cfg: branch to missing block {br.target} in {funcName}"
  | some next => .ok ⟨next, br.args⟩

def rewriteTerminatorTargets (t : IrTerminator) (oldToNew : List (Nat × Nat)) (funcName : String) :
    Except String IrTerminator :=
  match t with
  | .ret values site => .ok (.ret values site)
  | .unreachable site => .ok (.unreachable site)
  | .br branch site => do
    let branch ← rewriteBranch branch oldToNew funcName
    .ok (.br branch site)
  | .brIf condition ifTrue ifFalse site => do
    let ifTrue ← rewriteBranch ifTrue oldToNew funcName
    let ifFalse ← rewriteBranch ifFalse oldToNew funcName
    .ok (.brIf condition ifTrue ifFalse site)

/-- Old index to new index, without the block that goes. -/
def renumbering (n targetId : Nat) : List (Nat × Nat) :=
  ((List.range n).filter (· ≠ targetId)).zipIdx

/-- The block `j` of the result. -/
def renumberBlock (oldToNew : List (Nat × Nat)) (funcName : String) (block : IrBlock Instr Ty)
    (rewriteId : Nat) : Except String (IrBlock Instr Ty) := do
  let terminator ← rewriteTerminatorTargets block.terminator oldToNew funcName
  .ok { block with id := rewriteId, terminator := terminator }

/-- Merge the block `targetId` into the block `sourceId`. -/
def mergeAt (fn : IrFunction Instr Ty) (sourceId : Nat) (source : IrBlock Instr Ty)
    (targetId : Nat) (target : IrBlock Instr Ty) : Except String (IrFunction Instr Ty) := do
  let mergedSource : IrBlock Instr Ty :=
    { id := source.id
      blockArgs := source.blockArgs
      blockArgTypes := source.blockArgTypes
      instrs := source.instrs ++ target.instrs
      terminator := target.terminator }
  let oldToNew := renumbering fn.blocks.length targetId
  let newBlocks ← (fn.blocks.zipIdx.filter (·.2 ≠ targetId)).mapM fun bj =>
    renumberBlock oldToNew fn.name (if bj.2 = sourceId then mergedSource else bj.1)
      ((oldToNew.lookup bj.2).getD 0)
  .ok { fn with blocks := newBlocks }

/-- The block that block `i` may absorb. -/
def mergeTarget (fn : IrFunction Instr Ty) (predCount : Int32Array) (i : Nat)
    (block : IrBlock Instr Ty) : Option (Nat × IrBlock Instr Ty) :=
  match block.terminator with
  | .br branch _ =>
    if branch.target = i then none
    else if branch.target = 0 then none
    else if predCount.read branch.target ≠ some 1 then none
    else
      match fn.blocks[branch.target.toNat]? with
      | none => none
      | some target =>
        if target.blockArgs.length > 0 then none
        else if branch.args.length > 0 then none
        else some (branch.target.toNat, target)
  | _ => none

/-- The first eligible merge. -/
def findMerge (fn : IrFunction Instr Ty) :
    Option ((Nat × IrBlock Instr Ty) × (Nat × IrBlock Instr Ty)) :=
  let predCount := rawPredecessorCounts fn
  fn.blocks.zipIdx.findSome? fun bi =>
    (mergeTarget fn predCount bi.2 bi.1).map ((bi.2, bi.1), ·)

def simplifyCFG (fn : IrFunction Instr Ty) : Except String (IrFunction Instr Ty) :=
  match findMerge fn with
  | some ((sourceId, source), (targetId, target)) => mergeAt fn sourceId source targetId target
  | none => .ok fn

end Js2Wasm.Cfg
