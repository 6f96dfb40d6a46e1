import Js2Wasm.Interp.StatementEmitter

/-! # The stream never shrinks

Every emission appends to the stream or patches it in place, so a slot stays a position of
the stream.
-/
namespace Js2Wasm.Interp

variable {Expr Class Function Metadata : Type} {α β : Type}

/-- An emission that keeps at least as many words as there were. -/
class Grows (m : EmitM Metadata α) : Prop where
  le : ∀ st r, m st = .ok r → st.enc.here ≤ r.2.enc.here

/-- A run of two emissions is a run of each. -/
theorem bind_ok {x : EmitM Metadata α} {f : α → EmitM Metadata β} {st : EmitState Metadata}
    {r : β × EmitState Metadata} (h : (x >>= f) st = .ok r) :
    ∃ a st', x st = .ok (a, st') ∧ f a st' = .ok r := by
  change (x st >>= fun p => f p.1 p.2) = .ok r at h
  cases hx : x st with
  | error e =>
    rw [hx] at h
    cases h
  | ok p =>
    rw [hx] at h
    exact ⟨p.1, p.2, rfl, h⟩

section

variable {x : EmitM Metadata α} {f : α → EmitM Metadata β}

instance : Grows (pure a : EmitM Metadata α) := ⟨by
  rintro st _ ⟨⟩
  exact le_rfl⟩

instance [hx : Grows x] [hf : ∀ a, Grows (f a)] : Grows (x >>= f) := ⟨by
  intro st r h
  obtain ⟨a, st', hxa, hfa⟩ := bind_ok h
  exact (hx.le st _ hxa).trans ((hf a).le st' r hfa)⟩

instance (what : String) : Grows (unsupported what : EmitM Metadata α) := ⟨nofun⟩

instance (c : Prop) [Decidable c] {m m' : EmitM Metadata α} [hm : Grows m] [hm' : Grows m'] :
    Grows (if c then m else m') := by
  split
  · exact hm
  · exact hm'

instance {γ : Type} (l : List γ) {g : γ → EmitM Metadata Unit} [hg : ∀ c, Grows (g c)] :
    Grows (l.forM g) := by
  induction l with
  | nil => exact inferInstanceAs (Grows (pure ()))
  | cons c l ih => exact inferInstanceAs (Grows (g c >>= fun _ => l.forM g))

instance {γ : Type} (l : List γ) {g : γ → EmitM Metadata α} [hg : ∀ c, Grows (g c)] :
    Grows (l.mapM g) := by
  induction l with
  | nil =>
    rw [List.mapM_nil]
    infer_instance
  | cons c l ih =>
    rw [List.mapM_cons]
    infer_instance

end

/-! ### The encoder -/

theorem Grows.encode {f : Encoder → Except String Encoder}
    (hf : ∀ enc enc', f enc = .ok enc' → enc.here ≤ enc'.here) :
    Grows (encode f : EmitM Metadata Unit) := ⟨by
  intro st r h
  rw [Interp.encode] at h
  cases henc : f st.enc with
  | error e =>
    rw [henc] at h
    cases h
  | ok enc =>
    rw [henc] at h
    cases h
    exact hf st.enc enc henc⟩

theorem here_push (enc : Encoder) (words : List Int) : enc.here ≤ (enc.push words).here := by
  simp [Encoder.here, Encoder.push]

theorem of_assertOperand {v : Nat} {what : String} {k : Unit → Except String Encoder}
    {enc : Encoder} (h : (assertOperand v what >>= k) = .ok enc) : k () = .ok enc := by
  rw [assertOperand] at h
  split at h
  · exact h
  · cases h

section

variable (op r a b : Nat)

instance : Grows (emit0 op : EmitM Metadata Unit) := .encode fun _ _ h => by
  cases h
  exact here_push _ _

instance : Grows (emitReg op r : EmitM Metadata Unit) := .encode fun _ _ h => by
  cases of_assertOperand h
  exact here_push _ _

instance : Grows (emitConst op r : EmitM Metadata Unit) := .encode fun _ _ h => by
  rw [Encoder.emitConst] at h
  split at h <;> cases h <;> exact here_push _ _

instance : Grows (emitCallBuiltin op a b : EmitM Metadata Unit) := .encode fun _ _ h => by
  cases of_assertOperand (of_assertOperand h)
  exact here_push _ _

instance : Grows (emitJump op : EmitM Metadata Nat) := ⟨by
  rintro st _ ⟨⟩
  exact here_push _ _⟩

instance : Grows (emitJumpTo op a : EmitM Metadata Unit) := .encode fun _ _ h => by
  cases h
  exact here_push _ _

instance (marker : Int) : Grows (emitJumpMarker op marker : EmitM Metadata Unit) :=
  .encode fun _ _ h => by
    cases h
    exact here_push _ _

instance : Grows (patch a b : EmitM Metadata Unit) := .encode fun enc _ h => by
  cases h
  exact Nat.le_of_eq (List.length_set).symm

instance (marker : Int) : Grows (patchTargetMarker marker a : EmitM Metadata Unit) :=
  .encode fun enc _ h => by
    cases h
    exact Nat.le_of_eq (List.length_map _).symm

end

section

variable (E : FunctionEmitter Expr Class Function Metadata) (loops : Loops)

instance : Grows (here : EmitM Metadata Nat) := ⟨by rintro st _ ⟨⟩; exact Nat.le_refl _⟩
instance : Grows (mark : EmitM Metadata Nat) := ⟨by rintro st _ ⟨⟩; exact Nat.le_refl _⟩
instance : Grows (allocReg : EmitM Metadata Nat) := ⟨by rintro st _ ⟨⟩; exact Nat.le_refl _⟩

instance (m : Nat) : Grows (release m : EmitM Metadata Unit) :=
  ⟨by rintro st _ ⟨⟩; exact le_rfl⟩

instance (a b c d : Nat) : Grows (addExnRow a b c d : EmitM Metadata Unit) :=
  ⟨by rintro st _ ⟨⟩; exact le_rfl⟩

instance (value : Const Metadata) : Grows (internConst value) := ⟨by
  intro st r h
  simp only [internConst] at h
  repeat' split at h
  all_goals
    cases h
    exact le_rfl⟩

instance (emission : ExprView Metadata → Except String (Appended Metadata)) :
    Grows (emitAppended loops emission) := ⟨by
  intro st r h
  simp only [emitAppended] at h
  cases he : emission ⟨activeScopes loops, st.enc.here, st.consts, st.regTop⟩ with
  | error e =>
    rw [he] at h
    cases h
  | ok a =>
    rw [he] at h
    cases h
    exact here_push _ _⟩

set_option synthInstance.maxSize 100000000
set_option synthInstance.maxHeartbeats 200000

/-! ### Statements -/

instance (e : Expr) : Grows (emitExpr E loops e) := inferInstanceAs (Grows (emitAppended _ _))
instance (c : Class) : Grows (emitClass E loops c) := inferInstanceAs (Grows (emitAppended _ _))
instance (f : Function) : Grows (emitClosure E loops f) :=
  inferInstanceAs (Grows (emitAppended _ _))

instance (name : String) : Grows (internName name : EmitM Metadata Nat) :=
  inferInstanceAs (Grows (internConst _))

instance (n : Nat) : Grows (internIndex n : EmitM Metadata Nat) :=
  inferInstanceAs (Grows (internConst _))

instance (name : String) : Grows (emitLoadName name : EmitM Metadata Unit) := by
  unfold emitLoadName; infer_instance

instance (name : String) : Grows (storeName name : EmitM Metadata Unit) := by
  unfold storeName; infer_instance

instance (name : String) : Grows (initializeName name : EmitM Metadata Unit) := by
  unfold initializeName; infer_instance

instance (depth : Int) : Grows (restoreEnvToDepth loops depth : EmitM Metadata Unit) := by
  unfold restoreEnvToDepth
  split <;> infer_instance

instance (label : Option String) (isLoop : Bool) :
    Grows (pushLoop loops label isLoop : EmitM Metadata LoopCtx) := by
  unfold pushLoop; infer_instance

instance (ctx : LoopCtx) (target : Option Nat) : Grows (popLoop ctx target : EmitM Metadata Unit) := by
  unfold popLoop
  split <;> infer_instance

instance (label : Option String) (needLoop : Bool) :
    Grows (findLoop loops label needLoop : EmitM Metadata LoopCtx) := by
  unfold findLoop
  split <;> infer_instance

instance (label : Option String) : Grows (emitBreak loops label : EmitM Metadata Unit) := by
  unfold emitBreak; infer_instance

instance (label : Option String) : Grows (emitContinue loops label : EmitM Metadata Unit) := by
  unfold emitContinue; infer_instance

instance (names : List String) : Grows (pushLexicalEnv names : EmitM Metadata Nat) := by
  unfold pushLexicalEnv; infer_instance

instance (e : Expr) : Grows (emitExprStatementDiscard E loops e) := by
  unfold emitExprStatementDiscard; infer_instance

instance : Grows (storeCompletion E) := by
  unfold storeCompletion
  split <;> infer_instance

instance : Grows (resetCompletion E) := by
  unfold resetCompletion
  split <;> infer_instance

instance (objectReg : Nat) (key : PropertyKey Expr) : Grows (emitPatternKey E loops objectReg key) := by
  cases key <;> simp only [emitPatternKey] <;> infer_instance

mutual

theorem emitBindingPattern_grows (isInit : Bool) : ∀ pattern : Pattern Expr,
    Grows (emitBindingPattern E loops isInit pattern)
  | .identifier _ => by
    rw [emitBindingPattern]
    infer_instance
  | .assignmentPattern left right => by
    have := emitBindingPattern_grows isInit left
    rw [emitBindingPattern]
    infer_instance
  | .objectPattern properties => by
    have := fun objectReg => emitPatternProperties_grows isInit objectReg properties
    rw [emitBindingPattern]
    infer_instance
  | .arrayPattern elements => by
    have := fun arrayReg index => emitPatternElements_grows isInit arrayReg index elements
    rw [emitBindingPattern]
    infer_instance
  | .restElement _ | .other _ => by
    rw [emitBindingPattern]
    infer_instance

theorem emitPatternProperties_grows (isInit : Bool) (objectReg : Nat) :
    ∀ properties : List (PatternProperty Expr),
      Grows (emitPatternProperties E loops isInit objectReg properties)
  | [] => by
    rw [emitPatternProperties]
    infer_instance
  | p :: rest => by
    have := emitPatternProperty_grows isInit objectReg p
    have := emitPatternProperties_grows isInit objectReg rest
    rw [emitPatternProperties]
    infer_instance

theorem emitPatternProperty_grows (isInit : Bool) (objectReg : Nat) :
    ∀ p : PatternProperty Expr, Grows (emitPatternProperty E loops isInit objectReg p)
  | .restElement _ | .other _ => by
    rw [emitPatternProperty]
    infer_instance
  | .property kind method key value => by
    have := emitBindingPattern_grows isInit value
    rw [emitPatternProperty]
    infer_instance

theorem emitPatternElements_grows (isInit : Bool) (arrayReg index : Nat) :
    ∀ elements : List (PatternElement Expr),
      Grows (emitPatternElements E loops isInit arrayReg index elements)
  | [] => by
    rw [emitPatternElements]
    infer_instance
  | e :: rest => by
    have := emitPatternElement_grows isInit arrayReg index e
    have := emitPatternElements_grows isInit arrayReg (index + 1) rest
    rw [emitPatternElements]
    infer_instance

theorem emitPatternElement_grows (isInit : Bool) (arrayReg index : Nat) :
    ∀ e : PatternElement Expr, Grows (emitPatternElement E loops isInit arrayReg index e)
  | .elision => by
    rw [emitPatternElement]
    infer_instance
  | .element pattern => by
    have := emitBindingPattern_grows isInit pattern
    cases pattern <;> simp only [emitPatternElement] <;> infer_instance

end

attribute [instance] emitBindingPattern_grows

instance (kind : VarKind) (d : VariableDeclarator Expr) :
    Grows (emitVarDeclarator E loops kind d) := by
  simp only [emitVarDeclarator]
  split <;> infer_instance

instance (d : VariableDeclaration Expr) : Grows (emitVarDecl E loops d) := by
  unfold emitVarDecl; infer_instance

instance (init : Option (ForInit Expr)) : Grows (emitForInit E loops init) := by
  unfold emitForInit
  split <;> infer_instance

instance (test : Option Expr) : Grows (emitForTest E loops test) := by
  unfold emitForTest
  split <;> infer_instance

instance (update : Option Expr) : Grows (emitForUpdate E loops update) := by
  unfold emitForUpdate
  split <;> infer_instance

instance (names : List String) (f : FunctionDeclaration Function) :
    Grows (emitAnnexBFunctionAssignment E names f) := by
  unfold emitAnnexBFunctionAssignment
  split <;> infer_instance

instance (functions : List (String × Function)) : Grows (emitScopeFunctions E loops functions) := by
  unfold emitScopeFunctions; infer_instance

section

variable {body : Inner Metadata} [hbody : ∀ l, Grows (body l)]

instance (b : List (Statement Expr Class Function)) {items : List String → Inner Metadata}
    [hitems : ∀ names l, Grows (items names l)] : Grows (emitBlock E loops b items) := by
  simp only [emitBlock]
  infer_instance

instance (object : Expr) : Grows (emitWith E loops object body) := by
  unfold emitWith; infer_instance

variable (body) in
theorem emitIf_grows (test : Expr) (alternate : Option (Inner Metadata))
    (halternate : ∀ inner, alternate = some inner → ∀ l, Grows (inner l)) :
    Grows (emitIf E loops test body alternate) := by
  cases alternate with
  | none => unfold emitIf; infer_instance
  | some inner =>
    have := halternate inner rfl
    unfold emitIf; infer_instance

instance (s : Statement Expr Class Function) : Grows (emitConditionalStatement E loops s body) := by
  unfold emitConditionalStatement
  split <;> infer_instance

instance (test : Expr) : Grows (emitWhile E loops test body) := by
  simp only [emitWhile]; infer_instance

instance (test : Expr) : Grows (emitDoWhile E loops body test) := by
  simp only [emitDoWhile]; infer_instance

instance (exit : Option Nat) : Grows (patchExit exit : EmitM Metadata Unit) := by
  unfold patchExit
  split <;> infer_instance

instance (what : String) (id : Pattern Expr) : Grows (identifierName what id : EmitM Metadata _) := by
  unfold identifierName
  split <;> infer_instance

instance (init : Option (ForInit Expr)) : Grows (pushForScope init : EmitM Metadata _) := by
  unfold pushForScope forLexicalNames
  split <;> infer_instance

instance (scope : Option (Nat × List String)) : Grows (restoreScope scope : EmitM Metadata _) := by
  unfold restoreScope
  split <;> infer_instance

instance (init : Option (ForInit Expr)) (test update : Option Expr) :
    Grows (emitFor E loops init test update body) := by
  simp only [emitFor]; infer_instance

instance (valueReg : Nat) (left : ForInOfLeft Expr) :
    Grows (emitForInOfTarget valueReg left : EmitM Metadata _) := by
  unfold emitForInOfTarget
  repeat' split
  all_goals infer_instance

instance (kind : ForInOfKind) (left : ForInOfLeft Expr) (right : Expr) (label : Option String) :
    Grows (emitForInOf E loops kind left right label body) := by
  simp only [emitForInOf]; infer_instance

instance (label : String) (test : Expr) : Grows (emitLabeledWhile E loops label test body) := by
  simp only [emitLabeledWhile]; infer_instance

instance (label : String) (test : Expr) : Grows (emitLabeledDoWhile E loops label body test) := by
  simp only [emitLabeledDoWhile]; infer_instance

instance (label : String) (init : Option (ForInit Expr)) (test update : Option Expr) :
    Grows (emitLabeledFor E loops label init test update body) := by
  simp only [emitLabeledFor]; infer_instance

instance (label : String) : Grows (emitLabeledBlock loops label body) := by
  unfold emitLabeledBlock; infer_instance

instance (label : String) (s : Statement Expr Class Function) {whole : Inner Metadata}
    [hwhole : ∀ l, Grows (whole l)] : Grows (emitLabeled E loops label s whole body) := by
  unfold emitLabeled
  split <;> infer_instance

variable {bodies : List (List String → Inner Metadata)}

theorem emitCases_grows (names : List String) (noMatch : Nat) (default : Option Nat)
    (hbodies : ∀ b ∈ bodies, ∀ names l, Grows (b names l)) (i : Nat) (jumps : List (Option Nat)) :
    Grows (emitCases loops names noMatch default i jumps bodies) := by
  induction bodies generalizing i jumps with
  | nil => cases jumps <;> exact inferInstanceAs (Grows (pure ()))
  | cons b bodies ih =>
    cases jumps with
    | nil => exact inferInstanceAs (Grows (pure ()))
    | cons jump jumps =>
      have := hbodies b List.mem_cons_self
      have := ih (fun b hb => hbodies b (List.mem_cons_of_mem _ hb)) (i + 1) jumps
      rw [emitCases]
      infer_instance

instance (discriminantReg : Nat) (test : Option Expr) :
    Grows (emitCaseTest E loops discriminantReg test) := by
  unfold emitCaseTest
  split <;> infer_instance

instance (lexicalNames : List String) (functions : List (String × Function)) :
    Grows (pushSwitchScope E loops lexicalNames functions) := by
  unfold pushSwitchScope; infer_instance

theorem grows_foldlM {γ δ : Type} {l : List γ} {g : δ → γ → EmitM Metadata δ}
    (hg : ∀ d c, Grows (g d c)) (d : δ) : Grows (l.foldlM g d) := by
  induction l generalizing d with
  | nil =>
    rw [List.foldlM_nil]
    infer_instance
  | cons c l ih =>
    rw [List.foldlM_cons]
    infer_instance

instance (consequents : List (Statement Expr Class Function)) :
    Grows (switchNames consequents : EmitM Metadata _) := by
  unfold switchNames
  refine grows_foldlM (fun d c => ?_) _
  cases c <;> infer_instance

theorem emitSwitch_grows (discriminant : Expr) (cases : List (SwitchCase Expr Class Function))
    (hbodies : ∀ b ∈ bodies, ∀ names l, Grows (b names l)) :
    Grows (emitSwitch E loops discriminant cases bodies) := by
  have := fun loops names noMatch default i jumps =>
    emitCases_grows loops names noMatch default hbodies i jumps
  simp only [emitSwitch]
  infer_instance

instance (p : PatternProperty Expr) : Grows (catchProperty p : EmitM Metadata _) := by
  unfold catchProperty
  split <;> infer_instance

instance (param : Option (Pattern Expr)) : Grows (emitCatchParam param : EmitM Metadata _) := by
  unfold emitCatchParam
  split <;> infer_instance

instance (handlerEnvReg start stop : Nat) (param : Option (Pattern Expr)) :
    Grows (emitHandler loops handlerEnvReg start stop param body) := by
  have hend : ∀ p : Nat × Option (Nat × LoopCtx), Grows (match p.2 with
      | some (catchSaveReg, ctx) => do
        body (loops ++ [ctx])
        emitCallBuiltin BUILTIN_RESTORE_ENV catchSaveReg 1
      | none => body loops) := by
    intro p
    split <;> infer_instance
  unfold emitHandler
  infer_instance

variable (body) in
theorem emitTry_grows {handler : Option (Option (Pattern Expr) × Inner Metadata)}
    (hhandler : ∀ param inner, handler = some (param, inner) → ∀ l, Grows (inner l))
    {finalizer : Option (Inner Metadata)}
    (hfinalizer : ∀ inner, finalizer = some inner → ∀ l, Grows (inner l)) :
    Grows (emitTry loops body handler finalizer) := by
  have : ∀ a b c, Grows (emitOptionalHandler loops a b c handler) := by
    intro a b c
    match handler with
    | none => exact inferInstanceAs (Grows (pure ()))
    | some (param, inner) =>
      have := hhandler param inner rfl
      exact inferInstanceAs (Grows (emitHandler loops a b c param inner))
  have : Grows (emitOptional loops finalizer) := by
    cases finalizer with
    | none => exact inferInstanceAs (Grows (pure ()))
    | some inner => exact hfinalizer inner rfl loops
  have : ∀ b, Grows (saveHandlerEnv b : EmitM Metadata Nat) := fun b => by
    unfold saveHandlerEnv; infer_instance
  simp only [emitTry]
  infer_instance

end

end

section

variable (E : FunctionEmitter Expr Class Function Metadata)

mutual

/-- **No statement shrinks the stream.** -/
theorem emitStatement_grows : ∀ (s : Statement Expr Class Function) (loops : Loops),
    Grows (emitStatement E loops s)
  | .expressionStatement _, _ | .variableDeclaration _, _ | .functionDeclaration _, _ => by
    rw [emitStatement]
    infer_instance
  | .classDeclaration c, _ => by
    rw [emitStatement]
    split <;> infer_instance
  | .blockStatement body, loops => by
    have := fun names l => emitItems_grows body names l
    rw [emitStatement]
    infer_instance
  | .withStatement _ body, _ => by
    have := emitStatement_grows body
    rw [emitStatement]
    infer_instance
  | .ifStatement test consequent alternate, loops => by
    have := emitStatement_grows consequent
    have := emitIf_grows E loops (fun l =>
      emitConditionalStatement E l consequent fun l => emitStatement E l consequent) test
      (emitAlternate E alternate) (emitAlternate_grows alternate)
    rw [emitStatement]
    infer_instance
  | .whileStatement _ body, _ | .doWhileStatement body _, _ | .forStatement _ _ _ body, _
  | .forInOfStatement _ _ _ body, _ => by
    have := emitStatement_grows body
    rw [emitStatement]
    infer_instance
  | .switchStatement discriminant cases, loops => by
    have := emitSwitch_grows E loops discriminant cases (emitCaseBodies_grows cases)
    rw [emitStatement]
    infer_instance
  | .returnStatement argument, _ => by
    cases argument <;> simp only [emitStatement] <;> infer_instance
  | .breakStatement _, _ | .continueStatement _, _ | .throwStatement _, _ => by
    rw [emitStatement]
    infer_instance
  | .tryStatement block handler finalizer, loops => by
    have := emitStatement_grows block
    have := emitTry_grows loops (fun inner => emitStatement E inner block)
      (emitHandlerBody_grows handler) (emitFinalizer_grows finalizer)
    rw [emitStatement]
    infer_instance
  | .labeledStatement _ body, _ => by
    have := emitStatement_grows body
    have := emitLoopBody_grows body
    rw [emitStatement]
    infer_instance
  | .emptyStatement, _ | .other _, _ => by
    rw [emitStatement]
    infer_instance

theorem emitLoopBody_grows : ∀ (s : Statement Expr Class Function) (loops : Loops),
    Grows (emitLoopBody E s loops)
  | .whileStatement _ body, loops | .doWhileStatement body _, loops
  | .forStatement _ _ _ body, loops | .forInOfStatement _ _ _ body, loops => by
    rw [emitLoopBody]
    exact emitStatement_grows body loops
  | .expressionStatement _, _ | .variableDeclaration _, _ | .functionDeclaration _, _
  | .classDeclaration _, _ | .blockStatement _, _ | .withStatement _ _, _
  | .ifStatement _ _ _, _ | .switchStatement _ _, _ | .returnStatement _, _
  | .breakStatement _, _ | .continueStatement _, _ | .throwStatement _, _
  | .tryStatement _ _ _, _ | .labeledStatement _ _, _ | .emptyStatement, _ | .other _, _ =>
    inferInstanceAs (Grows (pure ()))

theorem emitAlternate_grows : ∀ (s : Option (Statement Expr Class Function))
    (inner : Inner Metadata), emitAlternate E s = some inner → ∀ l, Grows (inner l)
  | none, _, h => nomatch h
  | some s, _, rfl => fun l => by
    have := emitStatement_grows s
    infer_instance

theorem emitFinalizer_grows : ∀ (s : Option (Statement Expr Class Function))
    (inner : Inner Metadata), emitFinalizer E s = some inner → ∀ l, Grows (inner l)
  | none, _, h => nomatch h
  | some s, _, rfl => emitStatement_grows s

theorem emitHandlerBody_grows : ∀ (clause : Option (CatchClause Expr Class Function))
    (param : Option (Pattern Expr)) (inner : Inner Metadata),
    emitHandlerBody E clause = some (param, inner) → ∀ l, Grows (inner l)
  | none, _, _, h => nomatch h
  | some (.mk _ body), _, _, rfl => emitStatement_grows body

theorem emitItems_grows : ∀ (items : List (Statement Expr Class Function)) (names : List String)
    (loops : Loops), Grows (emitItems E names loops items)
  | [], _, _ => by
    rw [emitItems]
    infer_instance
  | item :: rest, names, loops => by
    have := emitStatement_grows item loops
    have := emitItems_grows rest names loops
    cases item <;> simp only [emitItems] <;> infer_instance

theorem emitCaseBodies_grows : ∀ (cases : List (SwitchCase Expr Class Function)),
    ∀ body ∈ emitCaseBodies E cases, ∀ (names : List String) (l : Loops), Grows (body names l)
  | [] => nofun
  | .mk _ consequent :: rest => by
    rw [emitCaseBodies]
    intro body hbody names
    rcases List.mem_cons.mp hbody with rfl | hbody
    · exact emitItems_grows consequent names
    · exact emitCaseBodies_grows rest body hbody names

end

end

end Js2Wasm.Interp
