import Js2Wasm.Link.Linker

/-! # The body rewriter

The rewriter scans bytes (`rewriteCode`).  On a body whose other instructions contain
no byte it would take for an opcode, it rewrites instruction by instruction, each
index to `resolveIndex` of it.
-/
namespace Js2Wasm.Link
open List

/-! ### Rewriting a body -/

section
variable (env : RewriteEnv)

end

/-- The same instructions up to the values of their indices. -/
def SameShape : CodeInstr → CodeInstr → Prop
  | .call _, .call _ | .globalGet _, .globalGet _ | .globalSet _, .globalSet _
  | .memorySize _, .memorySize _ | .memoryGrow _, .memoryGrow _
  | .callIndirect _ _, .callIndirect _ _ => True
  | .plain bytes, .plain bytes' => bytes = bytes'
  | _, _ => False

/-- The same instructions with the same indices. -/
def SameRefs (a b : CodeInstr) : Prop := SameShape a b ∧ a.refs = b.refs

end Js2Wasm.Link
