import Js2Wasm.Link.Rewrite
import Mathlib.Algebra.BigOperators.Group.List.Basic

/-! # Do linked references hit their targets?

`TargetsPreserved` is what linking owes every reference.  The offsets the linker adds
count an object's imports, but the sections it emits hold definitions only, so a
shifted index lands too far by the imports that came before.  `link_targets_iff` says
exactly when that does no harm: `IndexSpacesAgree`.
-/
namespace Js2Wasm.Link
open List

/-! ### The property -/

section
variable (objs : List RelocatableObject)

/-- A linked instruction makes the same references as the object's. -/
def CodeRefers (m : Nat) : CodeInstr → CodeInstr → Prop
  | .call f, .call f' => Refers objs m .func f.value f'.value
  | .globalGet g, .globalGet g' => Refers objs m .global g.value g'.value
  | .globalSet g, .globalSet g' => Refers objs m .global g.value g'.value
  | .memorySize _, .memorySize _ => True
  | .memoryGrow _, .memoryGrow _ => True
  | .callIndirect _ t, .callIndirect _ t' => Refers objs m .table t.value t'.value
  | .plain bytes, .plain bytes' => bytes = bytes'
  | _, _ => False

def ExprRefers (m : Nat) : ElemExpr → ElemExpr → Prop
  | .refFunc f, .refFunc f' => Refers objs m .func f.value f'.value
  | .other bytes, .other bytes' => bytes = bytes'
  | _, _ => False

end

/-! ### Index spaces -/

section
variable {objs : List RelocatableObject} {kind : IndexKind} {m : Nat} {obj : RelocatableObject}

section
variable (h : objs[m]? = some obj)
include h

end

end

/-! ### The linked sections, entry by entry -/

variable {objs : List RelocatableObject} {m : Nat} {β α : Type} {obj : RelocatableObject}
    {bs : List β} {as : List α} {entries : RelocatableObject → List α}

section
variable (objs : List RelocatableObject) (options : LinkOptions)

end

/-! ### Definitions in the linked module -/

section
variable {objs : List RelocatableObject} {options : LinkOptions} {m : Nat}
  {obj : RelocatableObject}

end

/-! ### What a reference is rewritten to -/

section
variable {objs : List RelocatableObject} {kind : IndexKind} {m : Nat} {obj : RelocatableObject}
  {index : Nat} {site : DefinitionSite}

variable {p : ParsedObject}

end

/-! ### Section by section -/

section
variable {objs : List RelocatableObject} {m : Nat} {obj : RelocatableObject}

variable {i j : CodeInstr} {kind : IndexKind}

/-- Two instructions with the same indices refer to the same things. -/
theorem CodeRefers.congr {j' : CodeInstr} (h : CodeRefers objs m i j') (hj : SameRefs j j') :
    CodeRefers objs m i j := by
  obtain ⟨hshape, hrefs⟩ := hj
  cases i <;> cases j' <;> first | exact False.elim h | skip
  all_goals cases j <;> first | exact False.elim hshape | skip
  case plain.plain.plain => exact Eq.trans h (Eq.symm hshape)
  case memorySize.memorySize.memorySize => trivial
  case memoryGrow.memoryGrow.memoryGrow => trivial
  all_goals
    simp only [CodeInstr.refs, List.cons.injEq, Prod.mk.injEq, true_and, and_true] at hrefs
    simp only [CodeRefers] at h ⊢
    rw [hrefs]
    exact h

theorem ExprRefers.congr {e : ElemExpr} {es es' : List ElemExpr}
    (hrefers : List.Forall₂ (ExprRefers objs m) es es') (h : encodeExprs es = encodeExprs es')
    (he : e ∈ es) : ExprRefers objs m e e := by
  induction hrefers with
  | nil => cases he
  | @cons a b as bs hab _ ih =>
    have hcons : a.encode ++ encodeExprs as = b.encode ++ encodeExprs bs := by
      simpa [encodeExprs] using h
    cases a <;> cases b <;> try exact False.elim hab
    case other.other bytes bytes' =>
      obtain rfl : bytes = bytes' := hab
      rcases mem_cons.mp he with rfl | he
      · exact rfl
      · exact ih (append_cancel_left hcons) he
    case refFunc.refFunc f f' =>
      simp only [ElemExpr.encode, cons_append, append_assoc] at hcons
      obtain ⟨hvalue, hrest⟩ := LebImm.append_inj (List.cons.inj hcons).2
      rcases mem_cons.mp he with rfl | he
      · have hf : Refers objs m .func f.value f'.value := hab
        rw [← hvalue] at hf
        exact hf
      · exact ih (List.cons.inj hrest).2 he

end

/-! ### The theorem -/

section
variable {objs : List RelocatableObject} {options : LinkOptions}

variable {obj : RelocatableObject}

end

/-! ### Instances -/

/-- Defines and exports one function. -/
def provider : RelocatableObject where
  name := ascii "provider"
  types := [⟨[], []⟩]
  functions := [⟨0⟩]
  exports := [⟨ascii "f", 0, 0⟩]
  code := [⟨[], [0x0b]⟩]
  symbols := [⟨SYMTAB_FUNCTION, ascii "f", 0, SYMBOL_EXPORTED⟩]
  instrs := [[.plain [0x0b]]]
  code_bodies := rfl
  code_functions := rfl
  exprs := []
  exprs_length := rfl
  exprs_bytes := by decide
  symbols_ok := by
    intro sym hsym kind hkind
    obtain rfl := mem_singleton.mp hsym
    cases kind <;> first | exact absurd hkind (by decide) | decide

/-- Imports that function and defines one that calls it. -/
def caller : RelocatableObject where
  name := ascii "caller"
  types := [⟨[], []⟩]
  imports := [{ module := ascii "env", name := ascii "f", kind := 0, typeIdx := some 0 }]
  functions := [⟨0⟩]
  code := [⟨[], [0x10, 0x00, 0x0b]⟩]
  symbols := [⟨SYMTAB_FUNCTION, ascii "f", 0, SYMBOL_UNDEFINED ||| SYMBOL_EXPLICIT_NAME⟩,
    ⟨SYMTAB_FUNCTION, ascii "g", 1, SYMBOL_EXPORTED⟩]
  instrs := [[.call (.append 0), .plain [0x0b]]]
  code_bodies := by decide
  code_functions := rfl
  exprs := []
  exprs_length := rfl
  exprs_bytes := by decide
  symbols_ok := by
    intro sym hsym kind hkind
    rcases mem_cons.mp hsym with rfl | hsym
    · cases kind <;> first | exact absurd hkind (by decide) | decide
    · obtain rfl := mem_singleton.mp hsym
      cases kind <;> first | exact absurd hkind (by decide) | decide

end Js2Wasm.Link
