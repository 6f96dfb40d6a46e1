import Js2Wasm.Bytecode.Program

/-! # Operand heights

When a function is well typed, as far as the number of its operands goes: every instruction
finds the operands it takes, and `block`, `loop` and `try` are statements, entered and left
with an empty operand stack, as the emitter expects of a `try`.  An `if` may stand among
operands and leave a value.

`exact = true` asks for more, and leaves no place where a word could be left over on the
stack of the machine: a `return` finds the result and nothing else, every function has a
result, every `try` a `catch` clause, and there is no `rethrow`.

A *point* of the emitted code is an address with the number of operands that the tree has
there.  Each point is where code ends or holds an instruction that goes on to other points.
-/
namespace Js2Wasm.Bytecode
open List

variable {N : Type}

/-- The type of a function, as `call_ref` names it. -/
structure FuncType where
  arity : Nat
  result : Bool
  deriving DecidableEq

section
variable (m : Module N) (types : List FuncType) (exact : Bool)

/-- How many operands an instruction of the flat code takes, and how many it leaves. -/
def Ins.effect : Ins N → Option (Nat × Nat)
  | .const _ => some (0, 1)
  | .one .LOAD _ | .one .GLOBAL_GET _ => some (0, 1)
  | .one .STORE _ | .one .GLOBAL_SET _ => some (1, 0)
  | .one .TEE _ => some (1, 1)
  | .one .STRUCT_NEW fieldCount => some (fieldCount, 1)
  | .one .STRUCT_GET _ => some (1, 1)
  | .one .STRUCT_SET _ => some (2, 0)
  | .one .CALL i => m.functions[i]?.map fun f => (f.arity, f.result.toNat)
  | .one .CALL_REF i => types[i]?.map fun t => (t.arity + 1, t.result.toNat)
  | .zero .ADD | .zero .SUB | .zero .MUL | .zero .DIV => some (2, 1)
  | .zero .CMP_GT | .zero .CMP_LT | .zero .CMP_GE | .zero .CMP_LE => some (2, 1)
  | .zero .CMP_EQ | .zero .CMP_NE => some (2, 1)
  | .zero .NEG => some (1, 1)
  | .zero .SELECT => some (3, 1)
  | .zero .DROP => some (1, 0)
  | _ => none

variable [JsNumber N]

/-- `Typed result trees h h'`: from `h` operands the trees go on with `h'`. -/
inductive Typed (result : Bool) : List (Tree N) → Nat → Nat → Prop
  | nil {h} : Typed result [] h h
  | simple {t rest h h' pops pushes} :
      (simpleIns t).bind (Ins.effect m types) = some (pops, pushes) →
      Typed result rest (h + pushes) h' → Typed result (t :: rest) (h + pops) h'
  | unreachable {rest h h1 h'} : Typed result rest h1 h' →
      Typed result (.unreachable :: rest) h h'
  | return_ {rest h h1 h'} : result.toNat ≤ h → (exact = true → h = result.toNat) →
      Typed result rest h1 h' → Typed result (.return_ :: rest) h h'
  | throw_ {tagIdx rest h h1 h'} : Typed result rest h1 h' →
      Typed result (.throw_ tagIdx :: rest) (h + 1) h'
  | rethrow {depth rest h h1 h'} : exact = false → Typed result rest h1 h' →
      Typed result (.rethrow depth :: rest) h h'
  | br {depth rest h h1 h'} : (exact = true → h = 0) → Typed result rest h1 h' →
      Typed result (.br depth :: rest) h h'
  | brIf {depth rest h h'} : (exact = true → h = 0) → Typed result rest h h' →
      Typed result (.brIf depth :: rest) (h + 1) h'
  | block {body rest h'} : Typed result body 0 0 → Typed result rest 0 h' →
      Typed result (.block body :: rest) 0 h'
  | loop {body rest h'} : Typed result body 0 0 → Typed result rest 0 h' →
      Typed result (.loop body :: rest) 0 h'
  | if_ {then_ els rest h h1 h'} : Typed result then_ h h1 → Typed result els h h1 →
      Typed result rest h1 h' → Typed result (.if_ then_ els :: rest) (h + 1) h'
  | try_ {body catches catchAll rest h'} : Typed result body 0 0 →
      (∀ c ∈ catches, Typed result c.2 1 0) → (∀ b, catchAll = some b → Typed result b 0 0) →
      (exact = true → catches ≠ []) → Typed result rest 0 h' →
      Typed result (.try_ body catches catchAll :: rest) 0 h'

/-- **Well-typed functions.** -/
structure Module.WellTyped : Prop where
  bodies : ∀ f ∈ m.functions, Typed m types exact f.result f.body 0 f.result.toNat
  results : exact = true → ∀ f ∈ m.functions, f.result = true
  typeResults : exact = true → ∀ t ∈ types, t.result = true

end

/-! ### Points -/

/-- Constants are not looked at. -/
def AnyConst : N → N → Prop := fun _ _ => True

theorem interns_any [JsNumber N] (S : N → Prop) : Interns (AnyConst (N := N)) S :=
  ⟨fun _ => trivial, fun _ _ _ _ _ => trivial, fun _ _ _ _ _ => trivial⟩

section
variable (m : Module N) (types : List FuncType) (exact : Bool)

/-- Where an instruction goes on, and with how many operands. -/
inductive GoesOn (P : Int → Nat → Prop) (result : Bool) : Ins N → Nat → Nat → Prop
  | plain {i a h pops pushes} : i.effect m types = some (pops, pushes) →
      P ((a + i.size : Nat) : Int) (h + pushes) → GoesOn P result i a (h + pops)
  | jump {t a h h'} : P t.word h' → h' ≤ h → (exact = true → h = h') →
      GoesOn P result (.jump .JMP t) a h
  | branch {op t a h h'} : op = .JZ ∨ op = .JNZ → P t.word h' → h' ≤ h →
      (exact = true → h = h') → P ((a + 2 : Nat) : Int) h →
      GoesOn P result (.jump op t) a (h + 1)
  | tryStart {t a h} : P ((a + 2 : Nat) : Int) h → GoesOn P result (.tryStart t) a h
  | tryEnd {a h} : P ((a + 1 : Nat) : Int) h → GoesOn P result (.zero .TRY_END) a h
  | ret {a h} : result.toNat ≤ h → (exact = true → h = result.toNat) →
      GoesOn P result (.zero .RET) a h
  | throw_ {a h} : GoesOn P result (.zero .THROW) a (h + 1)
  | rethrow {a h} : exact = false → GoesOn P result (.zero .THROW) a h
  | unreachable {a h} : GoesOn P result (.zero .UNREACHABLE) a h

variable [JsNumber N] (fn : FuncEntry N) (result : Bool)

/-- **A point**: an address with the operands that the tree has there. -/
inductive Point : Int → Nat → Prop
  | nowhere {a h} : at? fn.code a = none → Point a h
  | trees {labels a h h' trees} : Region AnyConst fn labels a (layoutTrees trees a) →
      Typed m types exact result trees h h' → Point ((a + (layoutTrees trees a).size : Nat) : Int) h' →
      (∀ l ∈ labels, Point ((l : Nat) : Int) 0) → Point ((a : Nat) : Int) h
  | jmp {a t h} : CodeAt AnyConst fn a [.jump .JMP (.addr t)] → Point ((t : Nat) : Int) h →
      Point ((a : Nat) : Int) h
  | tryEnd {a h} : CodeAt AnyConst fn a [.zero .TRY_END] → Point ((a + 1 : Nat) : Int) h →
      Point ((a : Nat) : Int) h

/-- What the machine finds at a point. -/
def Here (a : Int) (h : Nat) : Prop :=
  at? fn.code a = none ∨ ∃ (q : Nat) (i : Ins N), a = q ∧ CodeAt AnyConst fn q [i] ∧
    GoesOn m types exact (Point m types exact fn result) result i q h

section
variable {m : Module N} {types : List FuncType} {exact : Bool} {fn : FuncEntry N} {result : Bool}
  {labels : List Nat} {a h h' : Nat} {trees : List (Tree N)}

/-- The target of a branch is a point, or nowhere. -/
theorem point_label (hl : ∀ l ∈ labels, Point m types exact fn result ((l : Nat) : Int) 0)
    (d : Nat) : Point m types exact fn result ((Target.pending d).within labels).word 0 := by
  rw [Target.within]
  cases hd : labels[d]? with
  | none => exact .nowhere rfl
  | some l => exact hl l (mem_of_getElem? hd)

/-- A construct that is entered at an address, inside those around it. -/
theorem points_cons {self : Nat} (hs : Point m types exact fn result ((self : Nat) : Int) 0)
    (hl : ∀ l ∈ labels, Point m types exact fn result ((l : Nat) : Int) 0) :
    ∀ l ∈ self :: labels, Point m types exact fn result ((l : Nat) : Int) 0 := by
  rintro l (_ | ⟨_, hmem⟩)
  · exact hs
  · exact hl l hmem

variable {t : Tree N} {rest : List (Tree N)} {i : Ins N} {catches : List (Nat × List (Tree N))}
  {catchAll : Option (List (Tree N))} {P : ExcEntry → Prop}

/-- The code of a tree and of the rest, with the points behind each. -/
theorem region_cons (hrest : Typed m types exact result rest h h')
    (hr : Region AnyConst fn labels a (layoutTrees (t :: rest) a))
    (hend : Point m types exact fn result ((a + (layoutTrees (t :: rest) a).size : Nat) : Int) h')
    (hl : ∀ l ∈ labels, Point m types exact fn result ((l : Nat) : Int) 0) :
    Region AnyConst fn labels a (layoutTree t a) ∧
      Region AnyConst fn labels (a + (layoutTree t a).size)
        (layoutTrees rest (a + (layoutTree t a).size)) ∧
      Point m types exact fn result ((a + (layoutTree t a).size : Nat) : Int) h ∧
      Point m types exact fn result ((a + (layoutTree t a).size +
        (layoutTrees rest (a + (layoutTree t a).size)).size : Nat) : Int) h' := by
  rw [layoutTrees] at hr hend
  obtain ⟨hfirst, hrr⟩ := hr.split (layoutTree_inside _ a) (layoutTrees_inside rest _)
  rw [Layout.size_append, ← Nat.add_assoc] at hend
  exact ⟨hfirst, hrr, .trees hrr hrest hend hl, hend⟩

/-- An instruction without a body. -/
theorem isSimple_of_ins (hi : simpleIns t = some i) : t.IsSimple := by
  refine ⟨?_, ?_, ?_, ?_⟩ <;> rintro _ <;> intros <;> rintro rfl <;> cases hi

section
variable (hr : Region AnyConst fn labels a (layoutTrees (t :: rest) a)) (hi : simpleIns t = some i)
include hr hi

/-- The code of an instruction without a body, and of the rest. -/
theorem region_simple :
    CodeAt AnyConst fn a [i.within labels] ∧
      Region AnyConst fn labels (a + i.size) (layoutTrees rest (a + i.size)) ∧
      a + (layoutTrees (t :: rest) a).size =
        a + i.size + (layoutTrees rest (a + i.size)).size := by
  have hlt : layoutTree t a = ⟨[i], []⟩ := by
    rw [layoutTree_simple (isSimple_of_ins hi), hi]
    rfl
  have hsize : (⟨[i], []⟩ : Layout N).size = i.size := Nat.add_zero _
  rw [layoutTrees, hlt] at hr ⊢
  obtain ⟨hfirst, hrest⟩ := hr.split (fun r hr => by cases hr) (layoutTrees_inside rest _)
  rw [Layout.size_append, hsize, ← Nat.add_assoc]
  rw [hsize] at hrest
  exact ⟨hfirst.code, hrest, rfl⟩

/-- An instruction without a body stands at its address. -/
theorem simple_here (hgo : Region AnyConst fn labels (a + i.size) (layoutTrees rest (a + i.size)) →
      a + (layoutTrees (t :: rest) a).size = a + i.size + (layoutTrees rest (a + i.size)).size →
      GoesOn m types exact (Point m types exact fn result) result (i.within labels) a h) :
    Here m types exact fn result a h := by
  obtain ⟨hcode, hrest, hsize⟩ := region_simple hr hi
  exact Or.inr ⟨a, _, rfl, hcode, hgo hrest hsize⟩

end

omit [JsNumber N] in
theorem effect_within (i : Ins N) (labels : List Nat) :
    (i.within labels).effect m types = i.effect m types := by
  cases i <;> rfl

/-- **What stands where a list of trees begins**, given what stands behind it. -/
theorem trees_here (ht : Typed m types exact result trees h h')
    (hr : Region AnyConst fn labels a (layoutTrees trees a))
    (hend : Point m types exact fn result ((a + (layoutTrees trees a).size : Nat) : Int) h')
    (hhere : Here m types exact fn result ((a + (layoutTrees trees a).size : Nat) : Int) h')
    (hl : ∀ l ∈ labels, Point m types exact fn result ((l : Nat) : Int) 0) :
    Here m types exact fn result ((a : Nat) : Int) h := by
  induction ht generalizing a labels with
  | nil => exact hhere
  | @simple t rest h h' pops pushes heff hrest ih =>
    obtain ⟨i, hi, heff⟩ := Option.bind_eq_some_iff.mp heff
    refine simple_here hr hi fun hreg hsize => ?_
    rw [hsize] at hend
    rw [← effect_within i labels] at heff
    refine .plain heff ?_
    rw [Ins.size_within]
    exact .trees hreg hrest hend hl
  | unreachable _ _ =>
    exact simple_here hr rfl fun _ _ => .unreachable
  | return_ hle hexact _ _ =>
    exact simple_here hr rfl fun _ _ => .ret hle hexact
  | throw_ _ _ => exact simple_here hr rfl fun _ _ => .throw_
  | rethrow hexact _ _ => exact simple_here hr rfl fun _ _ => .rethrow hexact
  | @br depth rest h h1 h' hexact _ _ =>
    exact simple_here hr rfl fun _ _ =>
      .jump (point_label hl depth) (Nat.zero_le h) hexact
  | @brIf depth rest h h' hexact hrest _ =>
    refine simple_here hr rfl fun hreg hsize => ?_
    rw [hsize] at hend
    exact .branch (Or.inr rfl) (point_label hl depth) (Nat.zero_le h) hexact
      (.trees hreg hrest hend hl)
  | @block body rest h' hbody hrest ihb ihr =>
    obtain ⟨hrb, hrr, hnext, hend⟩ := region_cons hrest hr hend hl
    rw [layoutTrees, Layout.size_append, ← Nat.add_assoc] at hhere
    have hnextHere := ihr hrr hend hhere hl
    rw [layoutTree] at hrb hnext hnextHere
    rw [Layout.size_close] at hnext hnextHere
    exact ihb hrb.of_close hnext hnextHere (points_cons hnext hl)
  | @loop body rest h' hbody hrest ihb ihr =>
    have hself := Point.trees hr (.loop hbody hrest) hend hl
    obtain ⟨hrb, hrr, hnext, hend⟩ := region_cons hrest hr hend hl
    rw [layoutTrees, Layout.size_append, ← Nat.add_assoc] at hhere
    have hnextHere := ihr hrr hend hhere hl
    rw [layoutTree] at hrb hnext hnextHere
    rw [Layout.size_close] at hnext hnextHere
    exact ihb hrb.of_close hnext hnextHere (points_cons hself hl)
  | @if_ then_ els rest h h1 h' hthen hels hrest _ _ _ =>
    obtain ⟨hri, -, hnext, -⟩ := region_cons hrest hr hend hl
    rw [layoutTree] at hri hnext
    rw [layoutIf_size] at hnext
    obtain ⟨hjz, hrt, hjmp, hre⟩ := hri.of_if (layoutTrees_inside _ _) (layoutTrees_inside _ _)
    have hend' : a + (4 + (layoutTrees then_ (a + 2)).size +
        (layoutTrees els (a + 4 + (layoutTrees then_ (a + 2)).size)).size) =
        a + 4 + (layoutTrees then_ (a + 2)).size +
          (layoutTrees els (a + 4 + (layoutTrees then_ (a + 2)).size)).size := by omega
    rw [hend'] at hnext
    refine Or.inr ⟨a, _, rfl, hjz, .branch (Or.inl rfl) (.trees hre hels hnext hl) .refl
      (fun _ => rfl) ?_⟩
    exact .trees hrt hthen (.jmp hjmp hnext) hl
  | @try_ body catches catchAll rest h' hbody _ _ _ hrest _ _ _ _ =>
    obtain ⟨hrt, -, hnext, -⟩ := region_cons hrest hr hend hl
    change Region AnyConst fn labels a (layoutTry a (layoutTrees body (a + 2))
      (layoutHandlers catches catchAll (a + 5 + (layoutTrees body (a + 2)).size))) at hrt
    change Point m types exact fn result ((a + (layoutTry a (layoutTrees body (a + 2))
      (layoutHandlers catches catchAll (a + 5 + (layoutTrees body (a + 2)).size))).size : Nat)
      : Int) 0 at hnext
    rw [layoutTry_size] at hnext
    obtain ⟨hstart, hrb, hend', hjmp, -, -⟩ := hrt.of_try (layoutTrees_inside _ _)
      (layoutHandlers_inside _ _ _)
    refine Or.inr ⟨a, _, rfl, hstart, .tryStart (.trees hrb hbody (.tryEnd hend' ?_) hl)⟩
    have hat : a + 2 + (layoutTrees body (a + 2)).size + 1 =
        a + 3 + (layoutTrees body (a + 2)).size := by omega
    rw [hat]
    refine .jmp hjmp ?_
    rwa [← Nat.add_assoc, ← Nat.add_assoc] at hnext

/-- **At every point** code ends, or an instruction stands that goes on to points. -/
theorem Point.here {a : Int} (hp : Point m types exact fn result a h) :
    Here m types exact fn result a h := by
  induction hp with
  | nowhere hnone => exact Or.inl hnone
  | trees hr ht hend hl ih _ => exact trees_here ht hr hend ih hl
  | jmp hcode hp _ =>
    exact Or.inr ⟨_, _, rfl, hcode, .jump hp .refl fun _ => rfl⟩
  | tryEnd hcode hp _ => exact Or.inr ⟨_, _, rfl, hcode, .tryEnd hp⟩

/-! ### Handlers -/

variable (m types exact fn result) in
/-- A row of the table leads to a point that expects no more than the exception. -/
structure Handles (r : ExcEntry) : Prop where
  depth : r.spAtEntry = 0
  point : ∃ h, h ≤ 1 ∧ (exact = true → h = 1) ∧
    Point m types exact fn result ((r.catchTarget : Nat) : Int) h

/-- The handlers of a `try` begin at a point. -/
theorem handlers_point (hr : Region AnyConst fn labels a (layoutHandlers catches catchAll a))
    (hcatches : ∀ c ∈ catches, Typed m types exact result c.2 1 0)
    (hall : ∀ b, catchAll = some b → Typed m types exact result b 0 0)
    (hexact : exact = true → catches ≠ []) (hend : Point m types exact fn result
      ((a + (layoutHandlers catches catchAll a).size : Nat) : Int) 0)
    (hl : ∀ l ∈ labels, Point m types exact fn result ((l : Nat) : Int) 0) :
    ∃ h, h ≤ 1 ∧ (exact = true → h = 1) ∧ Point m types exact fn result ((a : Nat) : Int) h := by
  rw [layoutHandlers] at hr hend
  obtain ⟨hrc, hra⟩ := hr.split (layoutCatches_inside catches a) (layoutCatchAll_inside catchAll _)
  rw [Layout.size_append, ← Nat.add_assoc] at hend
  -- behind the first clause stands the `catch_all`, or nothing
  have hbehind : Point m types exact fn result
      ((a + (layoutCatches catches a).size : Nat) : Int) 0 := by
    cases catchAll with
    | none => exact hend
    | some b => exact .trees hra (hall b rfl) hend hl
  cases catches with
  | nil => exact ⟨0, Nat.zero_le 1, fun he => absurd rfl (hexact he), hbehind⟩
  | cons c cs =>
    obtain ⟨tagIdx, handler⟩ := c
    exact ⟨1, Nat.le_refl 1, fun _ => rfl,
      .trees hrc (hcatches _ mem_cons_self) hbehind hl⟩

/-- The rows of what follows an instruction without a body. -/
theorem rows_simple (hr : Region AnyConst fn labels a (layoutTrees (t :: rest) a))
    (hi : simpleIns t = some i)
    (hend : Point m types exact fn result ((a + (layoutTrees (t :: rest) a).size : Nat) : Int) h')
    (hrest : Region AnyConst fn labels (a + i.size) (layoutTrees rest (a + i.size)) →
      Point m types exact fn result
      ((a + i.size + (layoutTrees rest (a + i.size)).size : Nat) : Int) h' →
      ∀ r ∈ (layoutTrees rest (a + i.size)).rows, P r) :
    ∀ r ∈ (layoutTrees (t :: rest) a).rows, P r := by
  obtain ⟨-, hreg, hsize⟩ := region_simple hr hi
  rw [hsize] at hend
  have hlt : layoutTree t a = ⟨[i], []⟩ := by
    rw [layoutTree_simple (isSimple_of_ins hi), hi]
    rfl
  have hsz : (⟨[i], []⟩ : Layout N).size = i.size := Nat.add_zero _
  rw [layoutTrees, hlt]
  intro r hmem
  rcases mem_append.mp hmem with hmem | hmem
  · cases hmem
  · rw [hsz] at hmem
    exact hrest hreg hend r hmem

/-- The rows of the handlers of a `try`. -/
theorem handlers_handle (hr : Region AnyConst fn labels a (layoutHandlers catches catchAll a))
    (hcatches : ∀ c ∈ catches, Typed m types exact result c.2 1 0)
    (hall : ∀ b, catchAll = some b → Typed m types exact result b 0 0)
    (hend : Point m types exact fn result
      ((a + (layoutHandlers catches catchAll a).size : Nat) : Int) 0)
    (hl : ∀ l ∈ labels, Point m types exact fn result ((l : Nat) : Int) 0)
    (ihc : ∀ c ∈ catches, ∀ {labels : List Nat} {a : Nat},
      Region AnyConst fn labels a (layoutTrees c.2 a) →
      Point m types exact fn result ((a + (layoutTrees c.2 a).size : Nat) : Int) 0 →
      (∀ l ∈ labels, Point m types exact fn result ((l : Nat) : Int) 0) →
      ∀ r ∈ (layoutTrees c.2 a).rows, P r)
    (iha : ∀ b, catchAll = some b → ∀ {labels : List Nat} {a : Nat},
      Region AnyConst fn labels a (layoutTrees b a) →
      Point m types exact fn result ((a + (layoutTrees b a).size : Nat) : Int) 0 →
      (∀ l ∈ labels, Point m types exact fn result ((l : Nat) : Int) 0) →
      ∀ r ∈ (layoutTrees b a).rows, P r) :
    ∀ r ∈ (layoutHandlers catches catchAll a).rows, P r := by
  rw [layoutHandlers] at hr hend ⊢
  obtain ⟨hrc, hra⟩ := hr.split (layoutCatches_inside catches a) (layoutCatchAll_inside catchAll _)
  rw [Layout.size_append, ← Nat.add_assoc] at hend
  rintro r hmem
  rcases mem_append.mp hmem with hmem | hmem
  · cases catches with
    | nil => cases hmem
    | cons c cs =>
      obtain ⟨tagIdx, handler⟩ := c
      refine ihc _ mem_cons_self hrc ?_ hl r hmem
      cases catchAll with
      | none => exact hend
      | some b => exact .trees hra (hall b rfl) hend hl
  · cases catchAll with
    | none => cases hmem
    | some b => exact iha b rfl hra hend hl r hmem

/-- **Every row leads to a point.** -/
theorem trees_handle (ht : Typed m types exact result trees h h')
    (hr : Region AnyConst fn labels a (layoutTrees trees a))
    (hend : Point m types exact fn result ((a + (layoutTrees trees a).size : Nat) : Int) h')
    (hl : ∀ l ∈ labels, Point m types exact fn result ((l : Nat) : Int) 0) :
    ∀ r ∈ (layoutTrees trees a).rows, Handles m types exact fn result r := by
  induction ht generalizing a labels with
  | nil => exact fun r hr => nomatch hr
  | @simple t rest h h' pops pushes heff hrest ih =>
    obtain ⟨i, hi, -⟩ := Option.bind_eq_some_iff.mp heff
    exact rows_simple hr hi hend fun hreg hend => ih hreg hend hl
  | unreachable _ ih | return_ _ _ _ ih | throw_ _ ih | rethrow _ _ ih | br _ _ ih
  | brIf _ _ ih => exact rows_simple hr rfl hend fun hreg hend => ih hreg hend hl
  | @block body rest h' hbody hrest ihb ihr =>
    obtain ⟨hrb, hrr, hnext, hend⟩ := region_cons hrest hr hend hl
    rintro r hmem
    rcases mem_append.mp hmem with hmem | hmem
    · rw [layoutTree] at hrb hnext hmem
      rw [Layout.size_close] at hnext
      exact ihb hrb.of_close hnext (points_cons hnext hl) r hmem
    · exact ihr hrr hend hl r hmem
  | @loop body rest h' hbody hrest ihb ihr =>
    have hself := Point.trees hr (.loop hbody hrest) hend hl
    obtain ⟨hrb, hrr, hnext, hend⟩ := region_cons hrest hr hend hl
    rintro r hmem
    rcases mem_append.mp hmem with hmem | hmem
    · rw [layoutTree] at hrb hnext hmem
      rw [Layout.size_close] at hnext
      exact ihb hrb.of_close hnext (points_cons hself hl) r hmem
    · exact ihr hrr hend hl r hmem
  | @if_ then_ els rest h h1 h' hthen hels hrest iht ihe ihr =>
    obtain ⟨hri, hrr, hnext, hend⟩ := region_cons hrest hr hend hl
    rintro r hmem
    rcases mem_append.mp hmem with hmem | hmem
    · rw [layoutTree] at hri hnext hmem
      rw [layoutIf_size, ← Nat.add_assoc, ← Nat.add_assoc] at hnext
      obtain ⟨-, hrt, hjmp, hre⟩ := hri.of_if (layoutTrees_inside _ _) (layoutTrees_inside _ _)
      rcases mem_append.mp hmem with hmem | hmem
      · exact iht hrt (.jmp hjmp hnext) hl r hmem
      · exact ihe hre hnext hl r hmem
    · exact ihr hrr hend hl r hmem
  | @try_ body catches catchAll rest h' hbody hcatches hall hexact hrest ihb ihc iha ihr =>
    obtain ⟨hrt, hrr, hnext, hend⟩ := region_cons hrest hr hend hl
    rintro r hmem
    rcases mem_append.mp hmem with hmem | hmem
    · change Region AnyConst fn labels a (layoutTry a (layoutTrees body (a + 2))
        (layoutHandlers catches catchAll (a + 5 + (layoutTrees body (a + 2)).size))) at hrt
      change r ∈ (layoutTry a (layoutTrees body (a + 2))
        (layoutHandlers catches catchAll (a + 5 + (layoutTrees body (a + 2)).size))).rows at hmem
      change Point m types exact fn result ((a + (layoutTry a (layoutTrees body (a + 2))
        (layoutHandlers catches catchAll (a + 5 + (layoutTrees body (a + 2)).size))).size : Nat)
        : Int) 0 at hnext
      rw [layoutTry_size, ← Nat.add_assoc, ← Nat.add_assoc] at hnext
      obtain ⟨-, hrb, hend', hjmp, hrh, -⟩ := hrt.of_try (layoutTrees_inside _ _)
        (layoutHandlers_inside _ _ _)
      rcases mem_append.mp hmem with hmem | hmem
      · rcases mem_append.mp hmem with hmem | hmem
        · refine ihb hrb (.tryEnd hend' ?_) hl r hmem
          have hat : a + 2 + (layoutTrees body (a + 2)).size + 1 =
              a + 3 + (layoutTrees body (a + 2)).size := by omega
          rw [hat]
          exact .jmp hjmp hnext
        · exact handlers_handle hrh hcatches hall hnext hl ihc iha r hmem
      · rw [mem_singleton.mp hmem]
        exact ⟨rfl, handlers_point hrh hcatches hall hexact hnext hl⟩
    · exact ihr hrr hend hl r hmem

end

/-! ### Functions -/

/-- A function whose code keeps to the heights of its tree. -/
structure KeepsHeights (m : Module N) (types : List FuncType) (exact : Bool) (fn : FuncEntry N)
    (result : Bool) : Prop where
  source : ∃ f ∈ m.functions, emitFunction f = .ok fn ∧ f.result = result
  hasResult : exact = true → result = true
  entry : Point m types exact fn result 0 0
  rows : ∀ r ∈ fn.exceptionTable, Handles m types exact fn result r

variable {m : Module N} {types : List FuncType} {exact : Bool}

/-- **The code of a well-typed function** keeps to the heights. -/
theorem emitFunction_keepsHeights {f : Func N} {fn : FuncEntry N} (hm : m.WellTyped types exact)
    (hf : f ∈ m.functions) (h : emitFunction f = .ok fn) :
    KeepsHeights m types exact fn f.result ∧ fn.arity = f.arity := by
  obtain ⟨henc, htable, harity⟩ := emitFunction_layout (interns_any _) h
  have hregion := Region.whole (interns_any _) h
  have hend : Point m types exact fn f.result
      ((0 + (layoutTrees f.body 0).size : Nat) : Int) f.result.toNat := by
    refine .nowhere ?_
    rw [at?_natCast, getElem?_eq_none]
    rw [henc.length, Nat.zero_add]
    exact Nat.le_refl _
  have ht := hm.bodies f hf
  refine ⟨⟨⟨f, hf, h, rfl⟩, fun he => hm.results he f hf, .trees hregion ht hend nofun, ?_⟩,
    harity⟩
  rw [htable]
  exact trees_handle ht hregion hend nofun

/-- Every function of the program is one of the module's, emitted. -/
theorem emitModule_keepsHeights {p : BytecodeProgram N} (hm : m.WellTyped types exact)
    (h : emitModule m = .ok p) {i : Nat} {fn : FuncEntry N} (hi : p.functions[i]? = some fn) :
    ∃ f, m.functions[i]? = some f ∧ KeepsHeights m types exact fn f.result ∧
      fn.arity = f.arity := by
  rw [emitModule] at h
  obtain ⟨fs, hfs, h⟩ := bind_ok h
  rw [← Except.ok.inj h] at hi
  have hem := mapM_emitted hfs i
  cases hf : m.functions[i]? with
  | none =>
    rw [hf] at hem
    rw [show fs[i]? = none from hem] at hi
    cases hi
  | some f =>
    rw [hf] at hem
    obtain ⟨e, he, hemit⟩ := hem
    obtain rfl : e = fn := Option.some.inj (he.symm.trans hi)
    exact ⟨f, rfl, emitFunction_keepsHeights hm (mem_of_getElem? hf) hemit⟩

end

end Js2Wasm.Bytecode
