import Js2Wasm.Interp.Growth
import Js2Wasm.Interp.Labels

/-! # Labelled loops

The emission of a labelled loop repeats that of the loop (`emitLabeled` against `emitWhile`,
`emitDoWhile`, `emitFor` and `emitForInOf`).  With a label that nothing inside uses, both
give the same stream, but for the for loops that declare lexical names: with a label they
get no environment, and their stream ends with another instruction.
-/
namespace Js2Wasm.Interp

variable {Expr Class Function Metadata : Type}
variable (E : FunctionEmitter Expr Class Function Metadata)
variable {label : String} {loops : Loops} {body : Inner Metadata}

/-! ### The same emission -/

/-- The target that `pushLoop` makes at a position. -/
def targetCtx (loops : Loops) (label : Option String) (isLoop : Bool) (pc : Nat) : LoopCtx :=
  { label := label.map .name
    breaks := [-(lexicalEnvDepth loops : Int) - 1, 2000000000 - ((pc : Int) + 1) * 2,
      1999999999 - ((pc : Int) + 1) * 2]
    continues := []
    isLoop := isLoop }

theorem pushLoop_bind {α : Type} (l : Option String) (isLoop : Bool)
    (f : LoopCtx → EmitM Metadata α) :
    pushLoop loops l isLoop >>= f = here >>= fun pc => f (targetCtx loops l isLoop pc) := by
  rw [pushLoop, bind_assoc]
  exact bind_congr fun pc => pure_bind _ _

/-- The target with the label differs from that without in its label only. -/
theorem targetCtx_relabelled (loops : Loops) (isLoop : Bool) (pc : Nat) :
    SameUpTo label (loops ++ [targetCtx loops none isLoop pc])
      (loops ++ [targetCtx loops (some label) isLoop pc]) :=
  (SameUpTo.refl loops).append (.inr ⟨rfl, rfl⟩)

theorem emitLabeledWhile_eq (test : Expr) (hbody : Blind label body) :
    emitLabeledWhile E loops label test body = emitWhile E loops test body := by
  simp only [emitLabeledWhile, emitWhile, pushLoop_bind]
  refine bind_congr fun pc => ?_
  have h := @targetCtx_relabelled label loops true pc
  simp only [← hbody _ _ h, ← emitExpr_blind E test _ _ h]
  rfl

theorem emitLabeledDoWhile_eq (test : Expr) (hbody : Blind label body) :
    emitLabeledDoWhile E loops label body test = emitDoWhile E loops body test := by
  simp only [emitLabeledDoWhile, emitDoWhile, pushLoop_bind]
  refine bind_congr fun pc => ?_
  have h := @targetCtx_relabelled label loops true pc
  simp only [← hbody _ _ h, ← emitExpr_blind E test _ _ h]
  rfl

/-- Does a for loop declare names for itself? -/
def ForInit.isLexical : Option (ForInit Expr) → Bool
  | some (.declaration d) => d.kind ≠ .var
  | _ => false

variable {r : Unit × EmitState Metadata} {st st' : EmitState Metadata}
    {init : Option (ForInit Expr)} {update test : Option Expr} {exit : Option Nat} {target : Nat}

theorem pushForScope_eq (h : ForInit.isLexical init = false) :
    (pushForScope init : EmitM Metadata _) = pure none := by
  match init, h with
  | none, _ => rfl
  | some (.expression _), _ => rfl
  | some (.declaration d), h =>
    simp only [ForInit.isLexical, decide_eq_false_iff_not, not_not] at h
    simp only [pushForScope, h]
    rfl

theorem emitLabeledFor_eq (init : Option (ForInit Expr)) (test update : Option Expr)
    (hinit : ForInit.isLexical init = false) (hbody : Blind label body) :
    emitLabeledFor E loops label init test update body =
      emitFor E loops init test update body := by
  simp only [emitLabeledFor, emitFor, pushForScope_eq hinit, pure_bind, forScopeLoops,
    restoreScope, pushLoop_bind]
  refine bind_congr fun outer => bind_congr fun _ => bind_congr fun pc => ?_
  have h := @targetCtx_relabelled label loops true pc
  simp only [← hbody _ _ h, ← emitForTest_blind E test h, ← emitForUpdate_blind E update _ _ h]
  rfl

theorem emitLabeledForInOf_eq (kind : ForInOfKind) (left : ForInOfLeft Expr) (right : Expr)
    (hbody : Blind label body) :
    emitForInOf E loops kind left right (some label) body =
      emitForInOf E loops kind left right none body := by
  simp only [emitForInOf, pushLoop_bind, fun pc scope => hbody _ _
    (forScopeLoops_same scope (@targetCtx_relabelled label loops true pc))]
  rfl

/-! ### The end of the stream -/

theorem encode_ok {f : Encoder → Except String Encoder} (h : encode f st = .ok r) :
    ∃ enc, f st.enc = .ok enc ∧ r.2 = { st with enc := enc } := by
  rw [encode] at h
  cases henc : f st.enc with
  | error e =>
    rw [henc] at h
    cases h
  | ok enc =>
    rw [henc] at h
    cases h
    exact ⟨enc, rfl, rfl⟩

theorem emitCallBuiltin_ok {builtinId rBase argc : Nat}
    (h : emitCallBuiltin builtinId rBase argc st = .ok r) :
    rBase ≤ OPERAND_MASK ∧
      r.2.enc.code = st.enc.code ++ [(packWord Op.CallBuiltin builtinId rBase : Int), (argc : Int)] := by
  obtain ⟨enc, henc, hst⟩ := encode_ok h
  have henc := of_assertOperand henc
  rw [hst]
  simp only [assertOperand] at henc
  split at henc
  · rename_i hle
    cases henc
    exact ⟨hle, rfl⟩
  · cases henc

/-- The stream of a for loop with an environment ends with the restoration. -/
theorem emitFor_last (hinit : ForInit.isLexical init = true)
    (h : emitFor E loops init test update body st = .ok ((), st')) :
    ∃ pre r, r ≤ OPERAND_MASK ∧ st'.enc.code =
      pre ++ [(packWord Op.CallBuiltin BUILTIN_RESTORE_ENV r : Int), 1] := by
  obtain ⟨outer, _, -, h⟩ := bind_ok h
  obtain ⟨scope, _, hscope, h⟩ := bind_ok h
  obtain ⟨_, _, -, h⟩ := bind_ok h
  obtain ⟨ctx, _, -, h⟩ := bind_ok h
  obtain ⟨top, _, -, h⟩ := bind_ok h
  obtain ⟨exit, _, -, h⟩ := bind_ok h
  obtain ⟨_, _, -, h⟩ := bind_ok h
  obtain ⟨updatePc, _, -, h⟩ := bind_ok h
  obtain ⟨_, _, -, h⟩ := bind_ok h
  obtain ⟨_, _, -, h⟩ := bind_ok h
  obtain ⟨_, _, -, h⟩ := bind_ok h
  obtain ⟨_, _, -, h⟩ := bind_ok h
  obtain ⟨_, _, -, h⟩ := bind_ok h
  obtain ⟨_, _, -, h⟩ := bind_ok h
  obtain ⟨_, last, hrestore, h⟩ := bind_ok h
  cases h
  match init, hinit with
  | some (.declaration d), hinit =>
    simp only [ForInit.isLexical, decide_eq_true_eq] at hinit
    rw [pushForScope, if_pos hinit] at hscope
    obtain ⟨names, _, -, hscope⟩ := bind_ok hscope
    obtain ⟨saveReg, _, -, hscope⟩ := bind_ok hscope
    cases hscope
    obtain ⟨hle, hcode⟩ := emitCallBuiltin_ok hrestore
    exact ⟨_, saveReg, hle, hcode⟩

theorem patchTargetMarker_code {marker : Int} (h : patchTargetMarker marker target st = .ok r) :
    r.2.enc.code = st.enc.code.map fun word => if word = marker then (target : Int) else word := by
  obtain ⟨enc, henc, hst⟩ := encode_ok h
  cases henc
  rw [hst]
  rfl

theorem emitJumpTo_code (h : emitJumpTo Op.Jump target st = .ok r) :
    r.2.enc.code = st.enc.code ++ [160, (target : Int)] := by
  obtain ⟨enc, henc, hst⟩ := encode_ok h
  have hword : packWord (Op.Jump ||| WIDE_FLAG) 0 0 = 160 := by decide
  cases henc
  rw [hst]
  change st.enc.code ++ [((packWord (Op.Jump ||| WIDE_FLAG) 0 0 : Nat) : Int), (target : Int)] = _
  rw [hword]
  rfl

/-- The exit of a for loop is patched in front of its jump back. -/
theorem patchExit_code {pre : List Int} {w last : Int} (hcode : st.enc.code = pre ++ [w, last])
    (hexit : ∀ slot, exit = some slot → slot < pre.length) (h : patchExit exit st = .ok r) :
    ∃ pre' : List Int, pre'.length = pre.length ∧ r.2.enc.code = pre' ++ [w, last] := by
  cases exit with
  | none =>
    cases h
    exact ⟨pre, rfl, hcode⟩
  | some slot =>
    obtain ⟨pc, _, hpc, h⟩ := bind_ok h
    cases hpc
    obtain ⟨enc, henc, hst⟩ := encode_ok h
    cases henc
    rw [hst]
    refine ⟨pre.set slot (st.enc.here : Nat), List.length_set, ?_⟩
    change st.enc.code.set slot _ = _
    rw [hcode]
    exact List.set_append_left slot _ (hexit slot rfl)

/-- The slot of the exit of a for loop is a position of the stream. -/
theorem emitForTest_slot (h : emitForTest E loops test st = .ok (exit, st')) :
    ∀ slot, exit = some slot → slot < st'.enc.here := by
  cases test with
  | none =>
    cases h
    nofun
  | some e =>
    obtain ⟨_, st1, -, h⟩ := bind_ok h
    obtain ⟨slot, _, hslot, h⟩ := bind_ok h
    cases h
    cases hslot
    rintro _ ⟨⟩
    simp [Encoder.here, Encoder.emitJump, Encoder.push]

/-- The words of the jump back, after the markers of the loop are patched: the target is 1
only at the very start of a stream, where no marker looks like the jump. -/
theorem patched_jump {top updatePc stop : Nat} (_hupdate : top ≤ updatePc) (hstop : top + 2 ≤ stop) :
    let patched (w : Int) : Int :=
      let w := if w = 2000000000 - ((top : Int) + 1) * 2 then (stop : Int) else w
      if w = 1999999999 - ((top : Int) + 1) * 2 then (updatePc : Int) else w
    patched top = 1 → patched 160 = 160 := by
  dsimp only
  split_ifs <;> omega

/-- The stream of a labelled for loop ends with the jump back. -/
theorem emitLabeledFor_last (hbody : ∀ l, Grows (body l))
    (h : emitLabeledFor E loops label init test update body st = .ok ((), st')) :
    ∃ (pre : List Int) (w last : Int), st'.enc.code = pre ++ [w, last] ∧ (last = 1 → w = 160) := by
  obtain ⟨outer, _, -, h⟩ := bind_ok h
  obtain ⟨_, st1, -, h⟩ := bind_ok h
  obtain ⟨ctx, st2, hctx, h⟩ := bind_ok h
  cases hctx
  obtain ⟨top, st2, htop, h⟩ := bind_ok h
  cases htop
  obtain ⟨exit, st3, htest, h⟩ := bind_ok h
  obtain ⟨_, st4, hb, h⟩ := bind_ok h
  obtain ⟨updatePc, _, hpc, h⟩ := bind_ok h
  cases hpc
  obtain ⟨_, st5, hupdate, h⟩ := bind_ok h
  obtain ⟨_, st6, hjump, h⟩ := bind_ok h
  obtain ⟨_, st7, hexit, h⟩ := bind_ok h
  obtain ⟨pc, _, hpc, h⟩ := bind_ok h
  cases hpc
  obtain ⟨_, st8, hbreak, h⟩ := bind_ok h
  obtain ⟨_, st9, hcontinue, h⟩ := bind_ok h
  cases h
  have htest' : st1.enc.here ≤ st3.enc.here := Grows.le _ _ htest
  have hb' : st3.enc.here ≤ st4.enc.here := (hbody _).le _ _ hb
  have hupdate' : st4.enc.here ≤ st5.enc.here := Grows.le _ _ hupdate
  have hslot := emitForTest_slot E htest
  obtain ⟨pre, hlength, hcode⟩ := patchExit_code (emitJumpTo_code hjump)
    (fun slot hs => (hslot slot hs).trans_le (hb'.trans hupdate')) hexit
  have hpc : st7.enc.here = st5.enc.here + 2 := by
    change st7.enc.code.length = st5.enc.code.length + 2
    rw [hcode, List.length_append, hlength, List.length_cons, List.length_singleton]
  have hcode := (patchTargetMarker_code hcontinue).trans
    (congrArg _ ((patchTargetMarker_code hbreak).trans (congrArg _ hcode)))
  rw [List.map_append, List.map_append, hpc] at hcode
  simp only [LoopCtx.breakMarker, LoopCtx.continueMarker, List.getD_cons_succ,
    List.getD_cons_zero] at hcode
  have hstop : st1.enc.here + 2 ≤ st5.enc.here + 2 :=
    Nat.add_le_add_right (htest'.trans (hb'.trans hupdate')) 2
  have hwords := patched_jump (htest'.trans hb') hstop
  exact ⟨_, _, _, hcode, hwords⟩

/-- **A labelled for loop that declares names gives another stream.** -/
theorem emitLabeledFor_ne {st'' : EmitState Metadata} (hbody : ∀ l, Grows (body l))
    (hinit : ForInit.isLexical init = true)
    (h : emitFor E loops init test update body st = .ok ((), st'))
    (h' : emitLabeledFor E loops label init test update body st = .ok ((), st'')) :
    st''.enc.code ≠ st'.enc.code := by
  intro heq
  obtain ⟨pre, r, hr, hcode⟩ := emitFor_last E hinit h
  obtain ⟨pre', w, last, hcode', hlast⟩ := emitLabeledFor_last E hbody h'
  rw [hcode, hcode'] at heq
  have htail := (List.append_inj' heq rfl).2
  simp only [List.cons.injEq, and_true] at htail
  obtain ⟨hw, hl⟩ := htail
  rw [hlast hl, packWord_eq (by decide) (by decide)
    (hr.trans_lt (by decide)), Op.CallBuiltin, BUILTIN_RESTORE_ENV] at hw
  omega

/-! ### Labelled loops -/

/-- The five loops of the language. -/
def Statement.isLoop : Statement Expr Class Function → Bool
  | .whileStatement _ _ | .doWhileStatement _ _ | .forStatement _ _ _ _
  | .forInOfStatement _ _ _ _ => true
  | _ => false

/-- A for loop that declares names for itself. -/
def Statement.declaresLexical : Statement Expr Class Function → Bool
  | .forStatement init _ _ _ => ForInit.isLexical init
  | _ => false

/-- What is emitted: the stream, the constants and the exception rows; or the error. -/
def emitted (m : EmitM Metadata Unit) (st : EmitState Metadata) :
    Except String (List Int × List (Const Metadata) × List (Nat × Nat × Nat × Nat)) := do
  let r ← m st
  return (r.2.enc.code, r.2.consts, r.2.exn)

theorem labeled_eq {s : Statement Expr Class Function} (hloop : s.isLoop = true)
    (huse : usesLabel label s = false) (hlexical : s.declaresLexical = false) :
    emitStatement E loops (.labeledStatement label s) = emitStatement E loops s := by
  cases s with
  | whileStatement test body =>
    simp only [emitStatement, emitLabeled, emitLoopBody,
      emitLabeledWhile_eq E test (emitStatement_blind E body huse)]
  | doWhileStatement body test =>
    simp only [emitStatement, emitLabeled, emitLoopBody,
      emitLabeledDoWhile_eq E test (emitStatement_blind E body huse)]
  | forStatement init test update body =>
    simp only [emitStatement, emitLabeled, emitLoopBody,
      emitLabeledFor_eq E init test update hlexical (emitStatement_blind E body huse)]
  | forInOfStatement kind left right body =>
    simp only [emitStatement, emitLabeled, emitLoopBody,
      emitLabeledForInOf_eq E kind left right (emitStatement_blind E body huse)]
  | _ => cases hloop

/-- **A label that is not used makes no difference to a loop, unless it is a for loop that
declares names for itself.** -/
theorem labeled_same_iff (loops : Loops) (st : EmitState Metadata) (label : String)
    (s : Statement Expr Class Function) (hloop : s.isLoop = true)
    (huse : usesLabel label s = false)
    (haccepted : ∃ st', emitStatement E loops s st = .ok ((), st')) :
    emitted (emitStatement E loops (.labeledStatement label s)) st =
      emitted (emitStatement E loops s) st ↔ s.declaresLexical = false := by
  refine ⟨fun hsame => ?_, fun hlexical => by rw [labeled_eq E hloop huse hlexical]⟩
  cases hlexical : s.declaresLexical with
  | false => rfl
  | true =>
    obtain ⟨st', hs⟩ := haccepted
    match s, hlexical with
    | .forStatement init test update body, hlexical =>
      rw [emitted, emitted, hs] at hsame
      cases hl : emitStatement E loops (.labeledStatement label (.forStatement init test update body))
        st with
      | error e =>
        rw [hl] at hsame
        cases hsame
      | ok r =>
        rw [hl] at hsame
        have hcode : r.2.enc.code = st'.enc.code :=
          congrArg Prod.fst (Except.ok.inj hsame)
        simp only [emitStatement] at hs hl
        obtain ⟨_, st1, hreset, hs⟩ := bind_ok hs
        obtain ⟨_, st2, hreset', hl⟩ := bind_ok hl
        rw [hreset] at hreset'
        cases hreset'
        rw [emitLabeled, emitLoopBody] at hl
        exact absurd hcode (emitLabeledFor_ne E (emitStatement_grows E body) hlexical hs hl)

/-- The emitter of a function whose expressions are names. -/
def namesEmitter : FunctionEmitter String Empty Empty Empty where
  expr view name :=
    let (cIdx, consts) := match view.consts.findIdx? (sameConstant (.string name)) with
      | some i => (i, [])
      | none => (view.consts.length, [.literal (.string name)])
    let words : List Int := if fitsOperand cIdx then [packWord Op.LdName cIdx 0]
      else [packWord (Op.LdName ||| WIDE_FLAG) 0 0, cIdx]
    .ok ⟨words, consts, view.regTop, view.regTop⟩
  classDefinition _ c := nomatch c
  closure _ f := nomatch f
  isScript := false
  completionReg := none
  strictMode := false
  scriptBindingsPredeclared := false
  hoistedLexicals := []
  annexBCancelledNames := []

/-- The emitter before its first statement. -/
def emptyState : EmitState Empty := ⟨⟨[]⟩, [], [], 1, 1⟩

/-- `for (x; y; ) continue;` -/
def plainLoop : Statement String Empty Empty :=
  .forStatement (some (.expression "x")) (some "y") none (.continueStatement none)

/-- `for (let x = y; x; ) continue;` -/
def letLoop : Statement String Empty Empty :=
  .forStatement (some (.declaration ⟨.let, [⟨.identifier "x", some "y"⟩]⟩)) (some "x") none
    (.continueStatement none)

theorem exists_ok {m : EmitM Metadata Unit} (h : (m st).isOk = true) :
    ∃ st', m st = .ok ((), st') := by
  cases hm : m st with
  | error e =>
    rw [hm] at h
    cases h
  | ok r => exact ⟨r.2, rfl⟩

theorem labeled_same_iff_plain :
    emitted (emitStatement namesEmitter [] (.labeledStatement "L" plainLoop)) emptyState =
      emitted (emitStatement namesEmitter [] plainLoop) emptyState ↔
    plainLoop.declaresLexical = false :=
  labeled_same_iff namesEmitter [] emptyState "L" plainLoop (by decide) (by decide)
    (exists_ok (by decide +kernel))

/-- With a label the loop has no environment of its own, and `x` is stored in the scope
around it. -/
theorem labeled_letLoop_differs :
    usesLabel "L" letLoop = false ∧
    ((emitted (emitStatement namesEmitter [] letLoop) emptyState).toOption.map Prod.fst =
      some [0, 262, 1052959, 1, 518, 283, 551, 539, 162, 14, 160, 12, 160, 7, 2102047, 1]) ∧
    ((emitted (emitStatement namesEmitter [] (.labeledStatement "L" letLoop))
      emptyState).toOption.map Prod.fst = some [27, 284, 283, 162, 9, 160, 7, 160, 2]) ∧
    emitted (emitStatement namesEmitter [] (.labeledStatement "L" letLoop)) emptyState ≠
      emitted (emitStatement namesEmitter [] letLoop) emptyState := by
  have hloop : (emitted (emitStatement namesEmitter [] letLoop) emptyState).toOption.map Prod.fst =
      some [0, 262, 1052959, 1, 518, 283, 551, 539, 162, 14, 160, 12, 160, 7, 2102047, 1] := by
    decide +kernel
  have hlabeled : (emitted (emitStatement namesEmitter [] (.labeledStatement "L" letLoop))
      emptyState).toOption.map Prod.fst = some [27, 284, 283, 162, 9, 160, 7, 160, 2] := by
    decide +kernel
  refine ⟨by decide, hloop, hlabeled, fun heq => ?_⟩
  rw [heq, hloop] at hlabeled
  exact absurd hlabeled (by decide)

end Js2Wasm.Interp
