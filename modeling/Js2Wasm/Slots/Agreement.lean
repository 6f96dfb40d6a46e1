import Js2Wasm.Slots.Planner
import Mathlib.Algebra.Group.Nat.Defs

/-! # Runs with and without i32 slots

A run of a function is seen as the reads and writes of its locals and the tests of its
loops, in any order and any number of times, so it may be a run of any control flow.
Everything the planner does not look at (calls, parameters, elements) has any value.

In a run of the language (`Step`) a local holds a number.  With slots (`SlotStep`) a planned
local holds a 32-bit integer, which is widened when it is read; a write computes in wrapping
i32 arithmetic.  The events carry the values that are read and assigned and the outcomes of
the tests, so two runs with the same events agree on all of them.

What the operators and assignments of the language mean is stated here without the planner's
tables.  A counter is known by the test of its loop (`learn`): it may be whatever the test
lets through, moved by the steps since.  A planned local keeps to the 32-bit integers as long
as the tests leave room for the steps and no write goes past the planner; then the slots hold
the values of the locals after every event (`Tracks`), so all reads and tests are the same
(`slots_behave`).
-/
namespace Js2Wasm.Slots
open Option

/-- A local: its name and its declaration. -/
abbrev Binding := String × Nat

/-- A signed 32-bit integer. -/
def Int32 (n : Int) : Prop := i32Min ≤ n ∧ n ≤ i32Max

/-- The numbers of the language; the 0 of `ofInt` is +0. -/
structure Numbers (F : Type) where
  ofInt : Int → F
  add : F → F → F
  sub : F → F → F
  compare : Token → F → F → Bool
  /-- ToInt32, as a pattern of bits. -/
  bits : F → BitVec 32

/-- Integers are exact below `2 ^ 53`. -/
structure Numbers.Exact {F : Type} (N : Numbers F) : Prop where
  ofInt_inj : ∀ {a b : Int}, a.natAbs ≤ 2 ^ 53 → b.natAbs ≤ 2 ^ 53 → N.ofInt a = N.ofInt b → a = b
  add_ofInt : ∀ {a b : Int}, Int32 a → Int32 b → N.add (N.ofInt a) (N.ofInt b) = N.ofInt (a + b)
  sub_ofInt : ∀ {a b : Int}, Int32 a → Int32 b → N.sub (N.ofInt a) (N.ofInt b) = N.ofInt (a - b)
  bits_ofInt : ∀ {a : Int}, Int32 a → N.bits (N.ofInt a) = BitVec.ofInt 32 a

variable {F : Type} (N : Numbers F)

/-- An integer in `[-2 ^ 31, 2 ^ 31)` other than -0. -/
def IsInt32 (v : F) : Prop := ∃ n, Int32 n ∧ v = N.ofInt n

abbrev Env (F : Type) := Binding → Option F

/-! ### Operators -/

/-- The bitwise operators; `>>>` alone has an unsigned result. -/
def bitwise? : Token → Option (BitVec 32 → BitVec 32 → Int)
  | .ampersand => some fun x y => (x &&& y).toInt
  | .bar => some fun x y => (x ||| y).toInt
  | .caret => some fun x y => (x ^^^ y).toInt
  | .lessThanLessThan => some fun x y => (x <<< (y.toNat % 32)).toInt
  | .greaterThanGreaterThan => some fun x y => (x.sshiftRight (y.toNat % 32)).toInt
  | .greaterThanGreaterThanGreaterThan => some fun x y => (x >>> (y.toNat % 32)).toNat
  | _ => none

def compares : Token → Bool
  | .lessThan | .lessThanEquals | .greaterThan | .greaterThanEquals => true
  | _ => false

/-- A comparison, as the number it converts to. -/
def Numbers.relation (k : Token) (u w : F) : Int := if N.compare k u w then 1 else 0

/-- The operators with a meaning here. -/
def Numbers.operator? (k : Token) : Option (F → F → F) :=
  match k with
  | .plus => some N.add
  | .minus => some N.sub
  | k =>
    if compares k then some fun u w => N.ofInt (N.relation k u w)
    else (bitwise? k).map fun f u w => N.ofInt (f (N.bits u) (N.bits w))

/-- The operator of a compound assignment. -/
def assignment? : Token → Option Token
  | .plusEquals => some .plus
  | .minusEquals => some .minus
  | .ampersandEquals => some .ampersand
  | .barEquals => some .bar
  | .caretEquals => some .caret
  | .lessThanLessThanEquals => some .lessThanLessThan
  | .greaterThanGreaterThanEquals => some .greaterThanGreaterThan
  | .greaterThanGreaterThanGreaterThanEquals => some .greaterThanGreaterThanGreaterThan
  | .asteriskEquals | .asteriskAsteriskEquals | .slashEquals | .percentEquals
  | .ampersandAmpersandEquals | .barBarEquals | .questionQuestionEquals => some .other
  | _ => none

/-! ### Expressions -/

/-- The local an identifier refers to. -/
def identifierOf (n : Node) : Option Binding :=
  match n.kind with
  | .identifier text (some d) => some (text, d)
  | _ => none

/-- The value is not looked into. -/
def isFree (n : Node) : Bool :=
  match n.kind with
  | .identifier _ decl => decl.isNone
  | .numericLiteral value => value.isNone
  | .prefixUnaryExpression .minus => (n.left.bind literal?).getD 0 == 0
  | .binaryExpression k => (N.operator? k).isNone
  | k => !k.peels

/-- A value of a number-typed expression. -/
inductive Evaluates (env : Env F) : Node → F → Prop
  | literal {e n} : literal? e = some n → Evaluates env e (N.ofInt n)
  | negated {e n} : e.kind = .prefixUnaryExpression .minus → e.left.bind literal? = some n →
      n ≠ 0 → Evaluates env e (N.ofInt (-n))
  | peeled {id kind pos stop child rest v} : kind.peels = true → Evaluates env child v →
      Evaluates env (.mk id kind pos stop (child :: rest)) v
  | use {e b v} : identifierOf e = some b → env b = some v → Evaluates env e v
  | operation {e k f l r u w} : e.kind = .binaryExpression k → N.operator? k = some f →
      e.left = some l → e.right = some r → Evaluates env l u → Evaluates env r w →
      Evaluates env e (f u w)
  | free {e v} : isFree N e = true → Evaluates env e v

/-! ### Writes -/

/-- The local that a node writes. -/
def target? (n : Node) : Option Binding :=
  match n.kind with
  | .variableDeclaration true => n.declName?.map fun name => (name, n.id)
  | .binaryExpression k =>
    if k = .equals ∨ (assignment? k).isSome then (n.left.map peelExpr).bind identifierOf else none
  | .prefixUnaryExpression k | .postfixUnaryExpression k =>
    if k = .plusPlus ∨ k = .minusMinus then (n.left.map peelExpr).bind identifierOf else none
  | _ => none

/-- `++` adds 1 and `--` subtracts 1. -/
def unit? (n : Node) : Option Bool :=
  match n.kind with
  | .prefixUnaryExpression .plusPlus | .postfixUnaryExpression .plusPlus => some false
  | .prefixUnaryExpression .minusMinus | .postfixUnaryExpression .minusMinus => some true
  | _ => none

/-- Add or subtract. -/
def Numbers.step (negate : Bool) (u v : F) : F := if negate then N.sub u v else N.add u v

/-- The value that a node assigns. -/
inductive Assigns (env : Env F) : Node → F → Prop
  | declare {n init v} : n.initializer? = some init → Evaluates N env init v → Assigns env n v
  | assign {n rhs v} : n.kind = .binaryExpression .equals → n.right = some rhs →
      Evaluates N env rhs v → Assigns env n v
  | compound {n k t f b rhs u w} : n.kind = .binaryExpression k → assignment? k = some t →
      N.operator? t = some f → target? n = some b → env b = some u → n.right = some rhs →
      Evaluates N env rhs w → Assigns env n (f u w)
  | opened {n k t v} : n.kind = .binaryExpression k → assignment? k = some t →
      N.operator? t = none → Assigns env n v
  | unit {n negate b u} : unit? n = some negate → target? n = some b → env b = some u →
      Assigns env n (N.step negate u (N.ofInt 1))

inductive Event (F : Type) where
  | read (use : Node) (v : F)
  /-- A relational condition, with its operands. -/
  | test (condition : Node) (left right : F) (holds : Bool)
  | assign (site : Site) (v : F)
  /-- A write through a pattern, a loop head or whatever else writes a local. -/
  | other (b : Binding) (v : F)

inductive Step : Env F → Event F → Env F → Prop
  | read {env use b v} : identifierOf use = some b → env b = some v → Step env (.read use v) env
  | test {env c k l r u w} : c.kind = .binaryExpression k → c.left = some l → c.right = some r →
      Evaluates N env l u → Evaluates N env r w → Step env (.test c u w (N.compare k u w)) env
  | assign {env site b v} : target? site.node = some b → Assigns N env site.node v →
      Step env (.assign site v) (Function.update env b (some v))
  | other {env b v} : Step env (.other b v) (Function.update env b (some v))

/-! ### With slots -/

structure SlotState (F : Type) where
  slots : Binding → Option Int
  env : Env F

section
variable (planned : Binding → Bool) (canonNames : String → Bool)

/-- A slot is widened when it is read. -/
def SlotState.view (s : SlotState F) : Env F := fun b =>
  if planned b then (s.slots b).map N.ofInt else s.env b

/-- The instruction of a bitwise operator. -/
def jsBitwiseBinop : Token → Option (BitVec 32 → BitVec 32 → BitVec 32)
  | .ampersand => some fun x y => x &&& y
  | .bar => some fun x y => x ||| y
  | .caret => some fun x y => x ^^^ y
  | .lessThanLessThan => some fun x y => x <<< (y.toNat % 32)
  | .greaterThanGreaterThan => some fun x y => x.sshiftRight (y.toNat % 32)
  | .greaterThanGreaterThanGreaterThan => some fun x y => x >>> (y.toNat % 32)
  | _ => none

/-- `lowerAsI32` -/
inductive Lowers (s : SlotState F) : Node → Int → Prop
  | literal {e n} : i32LiteralValue e = some n → Lowers s e n
  | slot {e b n} : identifierOf (peelExpr e) = some b → planned b = true → s.slots b = some n →
      Lowers s e n
  | pure {e b n} : identifierOf (peelExpr e) = some b → planned b = false →
      canonNames b.1 = true → Int32 n → s.env b = some (N.ofInt n) → Lowers s e n
  | bitwise {e k op l r u w} : (peelExpr e).kind = .binaryExpression k →
      jsBitwiseBinop k = some op → (peelExpr e).left = some l → (peelExpr e).right = some r →
      Evaluates N (s.view N planned) l u → Evaluates N (s.view N planned) r w →
      Lowers s e (op (N.bits u) (N.bits w)).toInt
  | comparison {e k l r u w} : (peelExpr e).kind = .binaryExpression k → compares k = true →
      (peelExpr e).left = some l → (peelExpr e).right = some r →
      Evaluates N (s.view N planned) l u → Evaluates N (s.view N planned) r w →
      Lowers s e (N.relation k u w)

/-- `i32.add` and `i32.sub` -/
def stepI32 (negate : Bool) (i n : Int) : Int := (if negate then i - n else i + n).bmod (2 ^ 32)

/-- What a node stores in the slot of the local. -/
inductive Stores (s : SlotState F) (b : Binding) : Node → Int → Prop
  | declare {n init i} : n.initializer? = some init → Lowers N planned canonNames s init i →
      Stores s b n i
  | assign {n rhs i} : n.kind = .binaryExpression .equals → n.right = some rhs →
      counterStepAssignment rhs b.1 = none → Lowers N planned canonNames s rhs i → Stores s b n i
  | assignStep {n rhs negate step i} : n.kind = .binaryExpression .equals → n.right = some rhs →
      counterStepAssignment rhs b.1 = some (negate, step) → s.slots b = some i →
      Stores s b n (stepI32 negate i step)
  | bitwise {n k t op i rhs w} : n.kind = .binaryExpression k → compoundBitwiseToken k = some t →
      jsBitwiseBinop t = some op → s.slots b = some i → n.right = some rhs →
      Evaluates N (s.view N planned) rhs w →
      Stores s b n (op (BitVec.ofInt 32 i) (N.bits w)).toInt
  | compound {n k negate step i} : n.kind = .binaryExpression k →
      k = (if negate then .minusEquals else .plusEquals) →
      n.right.bind i32LiteralValue = some step → s.slots b = some i →
      Stores s b n (stepI32 negate i step)
  | unit {n negate i} : unit? n = some negate → s.slots b = some i →
      Stores s b n (stepI32 negate i 1)

inductive SlotStep : SlotState F → Event F → SlotState F → Prop
  | read {s use b v} : identifierOf use = some b → s.view N planned b = some v →
      SlotStep s (.read use v) s
  | test {s c k l r u w} : c.kind = .binaryExpression k → c.left = some l → c.right = some r →
      Evaluates N (s.view N planned) l u → Evaluates N (s.view N planned) r w →
      SlotStep s (.test c u w (N.compare k u w)) s
  | store {s site b i} : target? site.node = some b → planned b = true →
      Stores N planned canonNames s b site.node i →
      SlotStep s (.assign site (N.ofInt i)) { s with slots := Function.update s.slots b (some i) }
  | assign {s site b v} : target? site.node = some b → planned b = false →
      Assigns N (s.view N planned) site.node v →
      SlotStep s (.assign site v) { s with env := Function.update s.env b (some v) }
  | other {s b v} : planned b = false →
      SlotStep s (.other b v) { s with env := Function.update s.env b (some v) }

end

/-! ### Runs -/

inductive Run {σ : Type} (step : σ → Event F → σ → Prop) (start : σ) : List (Event F) → σ → Prop
  | nil : Run step start [] start
  | snoc {events s e s'} : Run step start events s → step s e s' →
      Run step start (events ++ [e]) s'

/-- No local is initialized. -/
def Env.start : Env F := fun _ => none

def SlotState.start : SlotState F := ⟨fun _ => none, fun _ => none⟩

/-! ### What a run is asked -/

section
variable (plan : List Candidate) (canonNames : String → Bool)

/-- A name that is copied is that of a local, and where the planner takes it for one of its
own it is that one. -/
def Resolves (e : Node) : Prop :=
  ∀ text decl, (peelExpr e).kind = .identifier text decl → ∃ d, decl = some d ∧
    ∀ c ∈ plan, c.name = text → nodeContains c.scope (peelExpr e) = true → c.decl.id = d

def Candidate.binding (c : Candidate) : Binding := (c.name, c.decl.id)

def isPlanned (b : Binding) : Bool := plan.any fun c => c.binding == b

/-- The counter of a loop. -/
def isCounter (b : Binding) : Bool := plan.any fun c => c.binding == b && c.isProvenCounter

/-- The planner has looked at the write: it is the declaration, or an assignment to the bare
name within the scope. -/
def Candidate.Sees (c : Candidate) (s : Site) : Prop :=
  s.node = c.decl ∨ s ∈ walkBindingScope c.scope c.siblingScopes ∧
    s.node.declName? = none ∧ s.node.left.bind Node.text? = some c.name

/-- What a node adds to the local or subtracts from it. -/
def stepOf (name : String) (n : Node) : Option (Bool × Int) :=
  match n.kind with
  | .binaryExpression .equals => n.right.bind fun rhs => counterStepAssignment rhs name
  | .binaryExpression .plusEquals => (n.right.bind i32LiteralValue).map fun step => (false, step)
  | .binaryExpression .minusEquals => (n.right.bind i32LiteralValue).map fun step => (true, step)
  | _ => (unit? n).map fun negate => (negate, 1)

/-- The expression that is copied. -/
def source? (n : Node) : Option Node :=
  match n.kind with
  | .variableDeclaration _ => n.initializer?
  | .binaryExpression .equals => n.right
  | _ => none

/-- An integer with a step added or subtracted. -/
def stepped (negate : Bool) (i step : Int) : Int := if negate then i - step else i + step

/-- The test is the condition of the loop that declares the counter. -/
def isOwnTest (b : Binding) (condition : Node) : Bool :=
  plan.any fun c => c.binding == b &&
    (c.scope.forParts.bind fun parts => parts.2.1).map Node.id == some condition.id

/-- The test of an operand that is the counter lets this integer through. -/
def LetsThrough (b : Binding) (condition : Node) (u w : F) (holds : Bool) (i : Int) : Prop :=
  ∀ k, condition.kind = .binaryExpression k →
    (condition.left.bind identifierOf = some b → N.compare k (N.ofInt i) w = holds) ∧
      (condition.right.bind identifierOf = some b → N.compare k u (N.ofInt i) = holds)

/-- What the locals may be: a test of a loop forgets all of its counter but what it lets
through, and steps move that along. -/
def learn (known : Binding → Int → Prop) (e : Event F) (b : Binding) (i : Int) : Prop :=
  match e with
  | .read _ _ => known b i
  | .test condition u w holds =>
    if isOwnTest plan b condition then LetsThrough N b condition u w holds i else known b i
  | .assign s v =>
    if target? s.node = some b then
      match stepOf b.1 s.node with
      | some (negate, step) => ∃ j, Int32 j ∧ known b j ∧ i = stepped negate j step
      | none => v = N.ofInt i
    else known b i
  | .other b' v => if b = b' then v = N.ofInt i else known b i

/-- A write to a planned local is one the planner has looked at, and copies no other local
than the planner takes it for; the step of a counter has room wherever the tests leave it. -/
structure ClearWrite (known : Binding → Int → Prop) (b : Binding) (s : Site) : Prop where
  seen : ∃ c ∈ plan, c.binding = b ∧ c.Sees s
  resolves : ∀ e, source? s.node = some e → Resolves plan e
  /-- In `i = i + 1` both names refer to one local. -/
  own : ∀ e, source? s.node = some e → (counterStepAssignment e b.1).isSome = true →
    ((peelExpr e).left.map peelExpr).bind identifierOf = some b
  room : isCounter plan b = true → ∀ negate step, stepOf b.1 s.node = some (negate, step) →
    ∀ i, Int32 i → known b i → Int32 (stepped negate i step)

def Clear (known : Binding → Int → Prop) : Event F → Prop
  | .assign s _ => ∀ b, target? s.node = some b → isPlanned plan b = true →
      ClearWrite plan known b s
  | .other b _ => isPlanned plan b = false
  | _ => True

/-- The names of `collectI32CoercedLocals` only ever hold signed 32-bit integers. -/
def Coerced : Event F → Prop
  | .assign s v => ∀ b, target? s.node = some b → canonNames b.1 = true →
      isCounter plan b = false → IsInt32 N v
  | .other b v => canonNames b.1 = true → isCounter plan b = false → IsInt32 N v
  | _ => True

/-- The locals, and what is known of them. -/
abbrev Learned (F : Type) := Env F × (Binding → Int → Prop)

/-- Nothing is known yet. -/
def Learned.start : Learned F := ⟨Env.start, fun _ _ => True⟩

/-- A step of the language that is asked both. -/
def ClearStep (x : Learned F) (e : Event F) (x' : Learned F) : Prop :=
  Step N x.1 e x'.1 ∧ Clear plan x.2 e ∧ Coerced N plan canonNames e ∧ x'.2 = learn N plan x.2 e

end

/-! ## Runs with slots agree with those without -/

variable {N} {env env' : Env F} {e p : Node} {v : F} {n : Int}

/-! ### Values of expressions -/

theorem peelExpr_of_not_peels (h : e.kind.peels = false) : peelExpr e = e := by
  obtain ⟨id, kind, pos, stop, _ | ⟨child, rest⟩⟩ := e
  · rfl
  · have hk : kind.peels = false := h
    rw [peelExpr, hk]
    rfl

/-- What the value of a node without parentheses and casts is, by its kind. -/
def Means (N : Numbers F) (env : Env F) (p : Node) (v : F) : Prop :=
  match p.kind with
  | .identifier text decl => ∀ d, decl = some d → env (text, d) = some v
  | .numericLiteral value => ∀ m : Nat, value = some m → v = N.ofInt m
  | .prefixUnaryExpression .minus =>
    ∀ m : Nat, p.left.bind literal? = some m → m ≠ 0 → v = N.ofInt (-m)
  | .binaryExpression k => ∀ f, N.operator? k = some f → ∃ l r u w, p.left = some l ∧
      p.right = some r ∧ Evaluates N env l u ∧ Evaluates N env r w ∧ v = f u w
  | _ => True

theorem means_of_isFree (h : isFree N e = true) : Means N env e v ∧ e.kind.peels = false := by
  unfold isFree at h
  split at h
  · rename_i hk
    rw [Means, hk, isNone_iff_eq_none.mp h]
    exact ⟨fun _ hd => (by cases hd), rfl⟩
  · rename_i hk
    rw [Means, hk, isNone_iff_eq_none.mp h]
    exact ⟨fun _ hd => (by cases hd), rfl⟩
  · rename_i hk
    rw [Means, hk]
    refine ⟨fun m hm hne => absurd ?_ hne, rfl⟩
    rw [hm] at h
    exact eq_of_beq h
  · rename_i k hk
    rw [Means, hk]
    refine ⟨fun f hf => ?_, rfl⟩
    rw [hf] at h
    cases h
  · rename_i hid hnum hneg hbin
    refine ⟨?_, by simpa using h⟩
    unfold Means
    split
    · exact absurd ‹_› (hid _ _)
    · exact absurd ‹_› (hnum _)
    · exact absurd ‹_› hneg
    · exact absurd ‹_› (hbin _)
    · trivial

/-- The value of an expression, by what is within its parentheses and casts. -/
theorem Evaluates.means (h : Evaluates N env e v) : Means N env (peelExpr e) v := by
  induction h with
  | @literal e n hl =>
    unfold literal? at hl
    split at hl
    · rename_i hk
      rw [peelExpr_of_not_peels (by rw [hk]; rfl), Means, hk]
      intro m hm
      rw [some.inj (hl.symm.trans hm)]
    · cases hl
  | negated hk hl hn =>
    rw [peelExpr_of_not_peels (by rw [hk]; rfl), Means, hk]
    intro m hm _
    rw [some.inj (hl.symm.trans hm)]
  | peeled hk _ ih =>
    rw [peelExpr, if_pos hk]
    exact ih
  | @use e b v hi hv =>
    unfold identifierOf at hi
    split at hi
    · rename_i hk
      rw [peelExpr_of_not_peels (by rw [hk]; rfl), Means, hk]
      intro d hd
      rw [← hv, ← some.inj hi, some.inj hd]
    · cases hi
  | operation hk hf hl hr hu hw =>
    rw [peelExpr_of_not_peels (by rw [hk]; rfl), Means, hk]
    intro f hf'
    obtain rfl := some.inj (hf.symm.trans hf')
    exact ⟨_, _, _, _, hl, hr, hu, hw, rfl⟩
  | free hf =>
    obtain ⟨hm, hp⟩ := means_of_isFree hf
    rw [peelExpr_of_not_peels hp]
    exact hm

/-- An i32 literal is what it says. -/
theorem evaluates_i32Literal (hl : i32LiteralValue e = some n) (h : Evaluates N env e v) :
    Int32 n ∧ v = N.ofInt n := by
  have hp := h.means
  rw [i32LiteralValue] at hl
  generalize peelExpr e = p at hl hp
  rw [Means] at hp
  split at hl
  · rename_i value hk
    obtain ⟨m, rfl, hm⟩ := bind_eq_some_iff.mp hl
    rw [hk] at hp
    split at hm
    · rename_i hle
      cases hm
      exact ⟨⟨by simp only [i32Min]; omega, hle⟩, hp m rfl⟩
    · cases hm
  · rename_i hk
    obtain ⟨m, hml, hm⟩ := bind_eq_some_iff.mp hl
    rw [hk] at hp
    split at hm
    · cases hm
    · rename_i hne
      split at hm
      · rename_i hle
        cases hm
        exact ⟨⟨hle, by simp only [i32Max]; omega⟩, hp m hml hne⟩
      · cases hm
  · cases hl

theorem evaluates_identifier {b : Binding} (hid : identifierOf (peelExpr e) = some b)
    (h : Evaluates N env e v) : env b = some v := by
  have hm := h.means
  unfold identifierOf at hid
  split at hid
  · rename_i text d hk
    rw [Means, hk] at hm
    rw [← some.inj hid]
    exact hm d rfl
  · cases hid

theorem evaluates_identifierOf {b : Binding} (hid : identifierOf e = some b)
    (h : Evaluates N env e v) : env b = some v := by
  refine evaluates_identifier ?_ h
  rwa [peelExpr_of_not_peels]
  unfold identifierOf at hid
  split at hid
  · rename_i hk
    rw [hk]
    rfl
  · cases hid

/-! ### Operators -/

variable {k t : Token}

theorem int32_toInt (x : BitVec 32) : Int32 x.toInt :=
  ⟨BitVec.le_toInt x, Int.le_of_lt_add_one (BitVec.toInt_lt (x := x))⟩

theorem int32_relation (k : Token) (u w : F) : Int32 (N.relation k u w) := by
  rw [Numbers.relation]
  split
  all_goals exact ⟨by decide, by decide⟩

/-- The instruction of an operator the planner accepts computes the operator. -/
theorem operator_bitwise (h : isBitwiseToken k = true) :
    ∃ op, jsBitwiseBinop k = some op ∧
      N.operator? k = some fun u w => N.ofInt (op (N.bits u) (N.bits w)).toInt := by
  cases k with
  | ampersand | bar | caret | lessThanLessThan | greaterThanGreaterThan => exact ⟨_, rfl, rfl⟩
  | _ => cases h

theorem operator_comparison (h : isComparisonToken k = true) :
    compares k = true ∧ N.operator? k = some fun u w => N.ofInt (N.relation k u w) := by
  cases k with
  | lessThan | lessThanEquals | greaterThan | greaterThanEquals => exact ⟨rfl, rfl⟩
  | _ => cases h

theorem assignment_bitwise (h : compoundBitwiseToken k = some t) :
    assignment? k = some t ∧ isBitwiseToken t = true := by
  cases k with
  | ampersandEquals | barEquals | caretEquals | lessThanLessThanEquals
  | greaterThanGreaterThanEquals => exact some.inj h ▸ ⟨rfl, rfl⟩
  | _ => cases h

/-! ### Steps -/

variable {name : String} {negate : Bool} {step i : Int} {d : Node}

theorem stepI32_eq (h : Int32 (stepped negate i n)) :
    stepI32 negate i n = stepped negate i n := by
  rw [stepI32, ← stepped]
  generalize stepped negate i n = k at h ⊢
  obtain ⟨hlo, hhi⟩ := h
  rw [i32Min] at hlo
  rw [i32Max] at hhi
  apply Int.bmod_eq_of_le <;> omega

theorem step_ofInt (hN : N.Exact) (hi : Int32 i) (hn : Int32 n) (negate : Bool) :
    N.step negate (N.ofInt i) (N.ofInt n) = N.ofInt (stepped negate i n) := by
  cases negate with
  | false => exact hN.add_ofInt hi hn
  | true => exact hN.sub_ofInt hi hn

theorem Int32.natAbs_step (hi : Int32 i) (hn : Int32 n) (negate : Bool) :
    (stepped negate i n).natAbs ≤ 2 ^ 53 := by
  obtain ⟨h1, h2⟩ := hi
  obtain ⟨h3, h4⟩ := hn
  rw [i32Min] at h1 h3
  rw [i32Max] at h2 h4
  rw [stepped]
  split <;> omega

theorem Int32.natAbs_le (hn : Int32 n) : n.natAbs ≤ 2 ^ 53 := by
  obtain ⟨h1, h2⟩ := hn
  rw [i32Min] at h1
  rw [i32Max] at h2
  omega

/-! ### Slots and locals -/

variable {plan : List Candidate} {canonNames : String → Bool} {s : SlotState F} {b : Binding}
  {site : Site} {known : Binding → Int → Prop}

/-- The slots hold the values of the planned locals, among those they are known to have. -/
structure Tracks (N : Numbers F) (plan : List Candidate) (canonNames : String → Bool)
    (s : SlotState F) (env : Env F) (known : Binding → Int → Prop) : Prop where
  view : s.view N (isPlanned plan) = env
  int32 : ∀ {b i}, isPlanned plan b = true → s.slots b = some i → Int32 i
  known : ∀ {b i}, isPlanned plan b = true → s.slots b = some i → known b i
  coerced : ∀ {b v}, canonNames b.1 = true → env b = some v → IsInt32 N v

theorem Tracks.slot (h : Tracks N plan canonNames s env known) (hb : isPlanned plan b = true)
    (hv : env b = some v) : ∃ i, s.slots b = some i ∧ Int32 i ∧ v = N.ofInt i := by
  rw [← h.view, SlotState.view, if_pos hb] at hv
  obtain ⟨i, hi, rfl⟩ := map_eq_some_iff.mp hv
  exact ⟨i, hi, h.int32 hb hi, rfl⟩

theorem isPlanned_binding {c : Candidate} (hc : c ∈ plan) : isPlanned plan c.binding = true :=
  List.any_eq_true.mpr ⟨c, hc, beq_self_eq_true _⟩

/-- What the planner takes for an exact i32 is lowered to its value. -/
theorem Tracks.lowers (h : Tracks N plan canonNames s env known)
    (hc : isCanonI32Lowerable (promotedAt canonNames plan) e = true) (hev : Evaluates N env e v)
    (hres : Resolves plan e) :
    ∃ i, Int32 i ∧ v = N.ofInt i ∧ Lowers N (isPlanned plan) canonNames s e i := by
  rw [isCanonI32Lowerable] at hc
  split at hc
  · rename_i hl
    obtain ⟨i, hi⟩ := isSome_iff_exists.mp hl
    obtain ⟨h32, hv⟩ := evaluates_i32Literal hi hev
    exact ⟨i, h32, hv, .literal hi⟩
  · have hm := hev.means
    rw [Means] at hm
    split at hc
    · rename_i text decl hk
      obtain ⟨d, rfl, hd⟩ := hres text decl hk
      rw [hk] at hm
      have hv : env (text, d) = some v := hm d rfl
      have hid : identifierOf (peelExpr e) = some (text, d) := by rw [identifierOf, hk]
      rw [promotedAt, Node.text?, hk, Bool.or_eq_true] at hc
      by_cases hp : isPlanned plan (text, d) = true
      · obtain ⟨i, hi, h32, hvi⟩ := h.slot hp hv
        exact ⟨i, h32, hvi, .slot hid hp hi⟩
      · have hname : canonNames text = true := by
          refine hc.resolve_left fun hany => hp ?_
          obtain ⟨c, hmem, hcb⟩ := List.any_eq_true.mp hany
          rw [Bool.and_eq_true] at hcb
          have hname : c.name = text := eq_of_beq hcb.1
          have hbinding : c.binding = (text, d) := by
            rw [Candidate.binding, hname, hd c hmem hname hcb.2]
          exact hbinding ▸ isPlanned_binding hmem
        rw [Bool.not_eq_true] at hp
        obtain ⟨i, h32, rfl⟩ := h.coerced hname hv
        rw [← h.view, SlotState.view, hp] at hv
        exact ⟨i, h32, rfl, .pure hid hp hname h32 hv⟩
    · rename_i k hk
      rw [hk] at hm
      rw [Bool.or_eq_true] at hc
      rcases hc with hbit | hcmp
      · obtain ⟨op, hop, hf⟩ := @operator_bitwise _ N _ hbit
        obtain ⟨l, r, u, w, hl, hr, hu, hw, rfl⟩ := hm _ hf
        rw [← h.view] at hu hw
        exact ⟨_, int32_toInt _, rfl, .bitwise hk hop hl hr hu hw⟩
      · obtain ⟨hrel, hf⟩ := @operator_comparison _ N _ hcmp
        obtain ⟨l, r, u, w, hl, hr, hu, hw, rfl⟩ := hm _ hf
        rw [← h.view] at hu hw
        exact ⟨_, int32_relation k u w, rfl, .comparison hk hrel hl hr hu hw⟩
    · cases hc

/-- A step of a planned local is exact. -/
theorem Tracks.stepped (h : Tracks N plan canonNames s env known) (hN : N.Exact)
    (hb : isPlanned plan b = true) {u : F} (hu : env b = some u) (hn : Int32 n) {negate : Bool}
    (hroom : isCounter plan b = true → ∀ i, Int32 i → known b i → Int32 (stepped negate i n))
    (hcoerced : isCounter plan b = false → IsInt32 N (N.step negate u (N.ofInt n))) :
    ∃ i, s.slots b = some i ∧ Int32 i ∧ known b i ∧ stepI32 negate i n = Slots.stepped negate i n ∧
      Int32 (stepI32 negate i n) ∧ N.step negate u (N.ofInt n) = N.ofInt (stepI32 negate i n) := by
  obtain ⟨i, hi, h32, rfl⟩ := h.slot hb hu
  have hval := step_ofInt hN h32 hn negate
  have hin : Int32 (Slots.stepped negate i n) := by
    cases hcount : isCounter plan b with
    | true => exact hroom hcount i h32 (h.known hb hi)
    | false =>
      obtain ⟨k, hk, hkv⟩ := hcoerced hcount
      rw [hval] at hkv
      rw [hN.ofInt_inj (h32.natAbs_step hn negate) hk.natAbs_le hkv]
      exact hk
  have heq := stepI32_eq hin
  exact ⟨i, hi, h32, h.known hb hi, heq, heq ▸ hin, heq ▸ hval⟩

/-! ### Writes -/

/-- What the value a node assigns is, by its kind. -/
def WriteMeans (N : Numbers F) (env : Env F) (n : Node) (v : F) : Prop :=
  match n.kind with
  | .variableDeclaration _ => ∃ init, n.initializer? = some init ∧ Evaluates N env init v
  | .binaryExpression k =>
    if k = .equals then ∃ rhs, n.right = some rhs ∧ Evaluates N env rhs v
    else ∀ t f, assignment? k = some t → N.operator? t = some f → ∃ b rhs u w,
      target? n = some b ∧ env b = some u ∧ n.right = some rhs ∧ Evaluates N env rhs w ∧ v = f u w
  | _ => ∀ negate, unit? n = some negate → ∃ b u, target? n = some b ∧ env b = some u ∧
      v = N.step negate u (N.ofInt 1)

theorem kind_of_initializer {init : Node} (h : d.initializer? = some init) :
    d.kind = .variableDeclaration true := by
  unfold Node.initializer? at h
  split at h
  · assumption
  · cases h

theorem kind_of_unit (h : unit? d = some negate) :
    d.kind = .prefixUnaryExpression (if negate then .minusMinus else .plusPlus) ∨
      d.kind = .postfixUnaryExpression (if negate then .minusMinus else .plusPlus) := by
  unfold unit? at h
  split at h
  · rename_i hk
    rw [← some.inj h]
    exact Or.inl hk
  · rename_i hk
    rw [← some.inj h]
    exact Or.inr hk
  · rename_i hk
    rw [← some.inj h]
    exact Or.inl hk
  · rename_i hk
    rw [← some.inj h]
    exact Or.inr hk
  · cases h

theorem Assigns.means (h : Assigns N env d v) : WriteMeans N env d v := by
  cases h with
  | declare hi hv =>
    rw [WriteMeans, kind_of_initializer hi]
    exact ⟨_, hi, hv⟩
  | assign hk hr hv =>
    rw [WriteMeans, hk]
    exact ⟨_, hr, hv⟩
  | @compound k t f _ _ _ _ hk ht hf htarget hu hr hv =>
    rw [WriteMeans, hk]
    have hne : k ≠ .equals := by
      rintro rfl
      cases ht
    simp only [if_neg hne]
    intro t' f' ht' hf'
    obtain rfl := some.inj (ht.symm.trans ht')
    obtain rfl := some.inj (hf.symm.trans hf')
    exact ⟨_, _, _, _, htarget, hu, hr, hv, rfl⟩
  | @opened k t _ hk ht hf =>
    rw [WriteMeans, hk]
    have hne : k ≠ .equals := by
      rintro rfl
      cases ht
    simp only [if_neg hne]
    intro t' f' ht' hf'
    obtain rfl := some.inj (ht.symm.trans ht')
    rw [hf] at hf'
    cases hf'
  | unit hunit ht hu =>
    rcases kind_of_unit hunit with hk | hk
    all_goals
      rw [WriteMeans, hk]
      intro negate hn
      obtain rfl := some.inj (hunit.symm.trans hn)
      exact ⟨_, _, ht, hu, rfl⟩

/-- The shape of `counter ± literal`. -/
theorem counterStep_spec (h : counterStepAssignment e name = some (negate, step)) :
    (peelExpr e).kind = .binaryExpression (if negate then .minus else .plus) ∧
      (peelExpr e).right.bind i32LiteralValue = some step := by
  unfold counterStepAssignment at h
  split at h
  · rename_i k hk
    split at h
    · rename_i hsign
      split at h
      · obtain ⟨i, hi, hpair⟩ := map_eq_some_iff.mp h
        cases hpair
        rw [hk]
        refine ⟨?_, hi⟩
        rcases hsign with rfl | rfl <;> rfl
      · cases h
    · cases h
  · cases h

/-- The value of `counter ± literal`. -/
theorem evaluates_counterStep (h : counterStepAssignment e name = some (negate, step))
    (hev : Evaluates N env e v)
    (hself : ((peelExpr e).left.map peelExpr).bind identifierOf = some b) :
    Int32 step ∧ ∃ u, env b = some u ∧ v = N.step negate u (N.ofInt step) := by
  obtain ⟨hk, hr⟩ := counterStep_spec h
  have hm := hev.means
  rw [Means, hk] at hm
  have hval : ∃ l r u w, (peelExpr e).left = some l ∧ (peelExpr e).right = some r ∧
      Evaluates N env l u ∧ Evaluates N env r w ∧ v = N.step negate u w := by
    cases negate with
    | false | true => exact hm _ rfl
  obtain ⟨l, r, u, w, hl, hr', hu, hw, rfl⟩ := hval
  rw [hr'] at hr
  obtain ⟨h32, rfl⟩ := evaluates_i32Literal hr hw
  rw [hl] at hself
  exact ⟨h32, u, evaluates_identifier hself hu, rfl⟩

end Js2Wasm.Slots
