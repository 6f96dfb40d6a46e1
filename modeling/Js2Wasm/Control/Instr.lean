import Mathlib.Data.List.Basic

/-! # Structured control instructions

The statement-level instructions of the IR that `emitInstrTree` lowers to structured
WebAssembly, and their ECMAScript completions.  Everything that is not control is left to a
`World`: what an effect does and whether it throws, the value of a condition, what an
iterator answers, whether a discriminant equals the literal of a `case`.

`exact = true` leaves out the runs that the emitted code gets wrong.  A `finally` that a jump
has to run does not complete abruptly while the jump has already left certain statements inside
its `try`:

* by a throw, when the jump has left the block of a `try` with a `catch` and no `finally`;
* by a jump, when the jump has left a `try` with a `finally` or an iterator loop.

And where an iterator loop is exhausted, which does not close the iterator, or left by a throw,
which does, closing makes no difference.
-/
namespace Js2Wasm.Control

/-- What the instructions work on: states `S` and exceptions `X`. -/
structure World (S X : Type) where
  effect : Nat → S → S × Option X
  test : Nat → S → Bool
  value : Nat → S → X
  /-- Store a caught exception. -/
  bind : Nat → X → S → S
  iterOpen : Nat → S → S
  /-- Advance an iterator; is it done? -/
  iterNext : Nat → S → S × Bool
  iterReturn : Nat → S → S
  disc : Nat → S → S
  /-- Does the discriminant strictly equal a literal? -/
  equals : Nat → Nat → S → Bool

/-- Where no test matches: at the default clause, behind the last of `n` if there is none. -/
def noMatchDepth (tests : Nat → Option Nat) (n : Nat) : Nat :=
  ((List.range n).find? fun k => (tests k).isNone).getD n

/-- The clause of a switch that the discriminant selects: the first whose test it equals. -/
def World.clause {S X : Type} (w : World S X) (disc : Nat) (tests : Nat → Option Nat) (n : Nat)
    (s : S) : Nat :=
  ((List.range n).find? fun k => (tests k).any (w.equals disc · s)).getD (noMatchDepth tests n)

inductive Mode where
  | break_
  | continue_
  deriving DecidableEq

instance Mode.lawfulBEq_target : LawfulBEq (Nat × Mode) := inferInstance

inductive LoopKind where
  | while_
  | doWhile
  | for_
  deriving DecidableEq

/-- A statement.  Condition and update buffers hold effects only. -/
inductive Instr where
  | effect (e : Nat)
  | ifStmt (cond : Nat) (then_ els : List Instr)
  | loop (kind : LoopKind) (cond : List Nat) (condValue : Nat) (body : List Instr)
      (update : List Nat) (loopLabel : Option Nat)
  | forofIter (iter : Nat) (body : List Instr) (loopLabel : Option Nat)
  | labeledBlock (label : Nat) (body : List Instr)
  /-- `tests k` is the literal of clause `k`, `none` for the default. -/
  | switch (disc : Nat) (tests : Nat → Option Nat) (bodies : List (List Instr)) (breakLabel : Nat)
  | throw_ (value : Nat)
  | brLabel (label : Nat) (mode : Mode)
  | try_ (body : List Instr) (catchBody : Option (List Instr)) (payloadSlot : Option Nat)
      (finallyBody : Option (List Instr))

/-! ### Completions -/

/-- What a jump has left: the block of a `try` whose `catch` no flag guards, and a statement
that had something to run on the way out. -/
structure Crossed where
  catchOnly : Bool
  cleanup : Bool

namespace Crossed

def none : Crossed := ⟨false, false⟩

def union (a b : Crossed) : Crossed := ⟨a.catchOnly || b.catchOnly, a.cleanup || b.cleanup⟩

end Crossed

inductive Completion (X : Type) where
  | normal
  | br (label : Nat) (mode : Mode) (crossed : Crossed)
  | throw_ (x : X)

namespace Completion
variable {X : Type}

/-- Past the end of a labelled statement. -/
def leave (label : Option Nat) : Completion X → Completion X
  | .br l .break_ cr => if some l = label then .normal else .br l .break_ cr
  | k => k

/-- Does the loop go on after its body? -/
def continues (label : Option Nat) : Completion X → Bool
  | .normal => true
  | .br l .continue_ _ => some l = label
  | _ => false

def isThrow : Completion X → Bool
  | .throw_ _ => true
  | _ => false

/-- Out of a `try` with an unguarded `catch`. -/
def pass (caught : Bool) : Completion X → Completion X
  | .br l m cr => .br l m ⟨cr.catchOnly || caught, cr.cleanup⟩
  | k => k

/-- Out of a statement with something to run. -/
def cleaned : Completion X → Completion X
  | .br l m cr => .br l m ⟨cr.catchOnly, true⟩
  | k => k

/-- After the `finally`: an abrupt completion replaces the pending one. -/
def override : Completion X → Completion X → Completion X
  | k, .normal => k.cleaned
  | .br _ _ cr, .br l m cr' => .br l m (cr.union cr')
  | _, k => k

/-- The `finally` does not complete in one of the two ways that go wrong. -/
def Clear : Completion X → Completion X → Prop
  | .br _ _ cr, .throw_ _ => cr.catchOnly = false
  | .br _ _ cr, .br _ _ _ => cr.cleanup = false
  | _, _ => True

end Completion

/-! ### Runs -/

section
variable {S X : Type} (w : World S X)

def runEffects : List Nat → S → S × Option X
  | [], s => (s, none)
  | e :: es, s =>
    match w.effect e s with
    | (s', none) => runEffects es s'
    | (s', some x) => (s', some x)

/-- Evaluate a condition buffer and its value. -/
def runTest (cond : List Nat) (condValue : Nat) (s : S) : S × Except X Bool :=
  match runEffects w cond s with
  | (s', none) => (s', .ok (w.test condValue s'))
  | (s', some x) => (s', .error x)

def runUpdate (update : List Nat) (s : S) : S × Except X Bool :=
  match runEffects w update s with
  | (s', none) => (s', .ok true)
  | (s', some x) => (s', .error x)

/-- What a loop does before and after its body, and whether it goes on. -/
structure LoopOps (S X : Type) where
  enter : S → S × Except X Bool
  turn : S → S × Except X Bool

def loopOps (kind : LoopKind) (cond : List Nat) (condValue : Nat) (update : List Nat) :
    LoopOps S X :=
  match kind with
  | .while_ => ⟨runTest w cond condValue, fun s => (s, .ok true)⟩
  | .doWhile => ⟨fun s => (s, .ok true), runTest w cond condValue⟩
  | .for_ => ⟨runTest w cond condValue, runUpdate w update⟩

def iterOps (iter : Nat) : LoopOps S X :=
  ⟨fun s => ((w.iterNext iter s).1, .ok (!(w.iterNext iter s).2)), fun s => (s, .ok true)⟩

variable (exact : Bool)

mutual

/-- `RunI i s k s' n`: the statement completes with `k`; `n` is the size of the run. -/
inductive RunI : Instr → S → Completion X → S → Nat → Prop
  | effect {e s s'} : w.effect e s = (s', none) → RunI (.effect e) s .normal s' 1
  | effectThrow {e s s' x} : w.effect e s = (s', some x) → RunI (.effect e) s (.throw_ x) s' 1
  | throw_ {v s} : RunI (.throw_ v) s (.throw_ (w.value v s)) s 1
  | brLabel {l m s} : RunI (.brLabel l m) s (.br l m .none) s 1
  | ifStmt {c then_ els s k s' n} : Run (if w.test c s then then_ else els) s k s' n →
      RunI (.ifStmt c then_ els) s k s' (n + 1)
  | labeledBlock {l body s k s' n} : Run body s k s' n →
      RunI (.labeledBlock l body) s (k.leave (some l)) s' (n + 1)
  | loop {kind cond cv body update label s k s' n} :
      RunLoop (loopOps w kind cond cv update) body label s k s' n →
      RunI (.loop kind cond cv body update label) s (k.leave label) s' (n + 1)
  | forofDone {i body label s s' n} :
      RunLoop (iterOps w i) body label (w.iterOpen i s) .normal s' n →
      (exact = true → w.iterReturn i s' = s') → RunI (.forofIter i body label) s .normal s' (n + 1)
  | forofJump {i body label s l m cr s' n} :
      RunLoop (iterOps w i) body label (w.iterOpen i s) (.br l m cr) s' n →
      RunI (.forofIter i body label) s ((Completion.br l m cr).leave label).cleaned
        (w.iterReturn i s') (n + 1)
  | forofThrow {i body label s x s' n} :
      RunLoop (iterOps w i) body label (w.iterOpen i s) (.throw_ x) s' n →
      (exact = true → w.iterReturn i s' = s') →
      RunI (.forofIter i body label) s (.throw_ x) (w.iterReturn i s') (n + 1)
  | switch {d tests bodies l s k s' n} :
      RunBodies (bodies.drop (w.clause d tests bodies.length (w.disc d s))) (w.disc d s) k s' n →
      RunI (.switch d tests bodies l) s (k.leave (some l)) s' (n + 1)
  | try_ {body c slot s k s' n} : Run body s k s' n → (c = none ∨ k.isThrow = false) →
      RunI (.try_ body c slot none) s (k.pass c.isSome) s' (n + 1)
  | tryCaught {body cb slot s x s1 k s' n n'} : Run body s (.throw_ x) s1 n →
      Run cb (slot.elim s1 fun slot => w.bind slot x s1) k s' n' →
      RunI (.try_ body (some cb) slot none) s k s' (n + n' + 1)
  | tryFinally {body c slot f s k s1 k' s' n n'} : Run body s k s1 n →
      (c = none ∨ k.isThrow = false) → Run f s1 k' s' n' → (exact = true → k.Clear k') →
      RunI (.try_ body c slot (some f)) s (k.override k') s' (n + n' + 2)
  | tryCaughtFinally {body cb slot f s x s1 k s2 k' s' n n' n''} : Run body s (.throw_ x) s1 n →
      Run cb (slot.elim s1 fun slot => w.bind slot x s1) k s2 n' → Run f s2 k' s' n'' →
      (exact = true → k.Clear k') →
      RunI (.try_ body (some cb) slot (some f)) s (k.override k') s' (n + n' + n'' + 3)

inductive Run : List Instr → S → Completion X → S → Nat → Prop
  | nil {s} : Run [] s .normal s 0
  | cons {i rest s s1 k s' n n'} : RunI i s .normal s1 n → Run rest s1 k s' n' →
      Run (i :: rest) s k s' (n + n' + 1)
  | stop {i rest s k s' n} : RunI i s k s' n → k ≠ .normal → Run (i :: rest) s k s' (n + 1)

/-- The rounds of a loop.  It completes normally where it exits by itself. -/
inductive RunLoop : LoopOps S X → List Instr → Option Nat → S → Completion X → S → Nat → Prop
  | fails {ops body label s s' x} : ops.enter s = (s', .error x) →
      RunLoop ops body label s (.throw_ x) s' 1
  | exits {ops body label s s'} : ops.enter s = (s', .ok false) →
      RunLoop ops body label s .normal s' 1
  | leaves {ops body label s s1 k s' n} : ops.enter s = (s1, .ok true) → Run body s1 k s' n →
      k.continues label = false → RunLoop ops body label s k s' (n + 1)
  | turnFails {ops body label s s1 k s2 s' x n} : ops.enter s = (s1, .ok true) →
      Run body s1 k s2 n → k.continues label = true → ops.turn s2 = (s', .error x) →
      RunLoop ops body label s (.throw_ x) s' (n + 1)
  | turnExits {ops body label s s1 k s2 s' n} : ops.enter s = (s1, .ok true) →
      Run body s1 k s2 n → k.continues label = true → ops.turn s2 = (s', .ok false) →
      RunLoop ops body label s .normal s' (n + 1)
  | again {ops body label s s1 k s2 s3 k' s' n n'} : ops.enter s = (s1, .ok true) →
      Run body s1 k s2 n → k.continues label = true → ops.turn s2 = (s3, .ok true) →
      RunLoop ops body label s3 k' s' n' → RunLoop ops body label s k' s' (n + n' + 1)

/-- The clauses of a switch from the selected one on. -/
inductive RunBodies : List (List Instr) → S → Completion X → S → Nat → Prop
  | nil {s} : RunBodies [] s .normal s 0
  | cons {b rest s s1 k s' n n'} : Run b s .normal s1 n → RunBodies rest s1 k s' n' →
      RunBodies (b :: rest) s k s' (n + n' + 1)
  | stop {b rest s k s' n} : Run b s k s' n → k ≠ .normal → RunBodies (b :: rest) s k s' (n + 1)

end

end

/-! ### Labels -/

/-- What a loop label can be the target of. -/
def loopTargets : Option Nat → List (Nat × Mode)
  | none => []
  | some label => [(label, .break_), (label, .continue_)]

mutual

/-- The jump targets an instruction introduces. -/
def Instr.bound : Instr → List (Nat × Mode)
  | .ifStmt _ then_ els => boundAll then_ ++ boundAll els
  | .loop _ _ _ body _ label | .forofIter _ body label => loopTargets label ++ boundAll body
  | .labeledBlock label body => (label, .break_) :: boundAll body
  | .switch _ _ bodies label => (label, .break_) :: boundBodies bodies
  | .try_ body catchBody _ finallyBody =>
    boundAll body ++ boundOption catchBody ++ boundOption finallyBody
  | .effect _ | .throw_ _ | .brLabel _ _ => []

def boundAll : List Instr → List (Nat × Mode)
  | [] => []
  | i :: rest => i.bound ++ boundAll rest

def boundBodies : List (List Instr) → List (Nat × Mode)
  | [] => []
  | b :: rest => boundAll b ++ boundBodies rest

def boundOption : Option (List Instr) → List (Nat × Mode)
  | none => []
  | some b => boundAll b

end

mutual

/-- The jumps in an instruction to targets around it. -/
def Instr.free : Instr → List (Nat × Mode)
  | .ifStmt _ then_ els => freeAll then_ ++ freeAll els
  | .loop _ _ _ body _ label | .forofIter _ body label =>
    (freeAll body).filter (· ∉ loopTargets label)
  | .labeledBlock label body => (freeAll body).filter (· ≠ (label, .break_))
  | .switch _ _ bodies label => (freeBodies bodies).filter (· ≠ (label, .break_))
  | .try_ body catchBody _ finallyBody =>
    freeAll body ++ freeOption catchBody ++ freeOption finallyBody
  | .brLabel label mode => [(label, mode)]
  | .effect _ | .throw_ _ => []

def freeAll : List Instr → List (Nat × Mode)
  | [] => []
  | i :: rest => i.free ++ freeAll rest

def freeBodies : List (List Instr) → List (Nat × Mode)
  | [] => []
  | b :: rest => freeAll b ++ freeBodies rest

def freeOption : Option (List Instr) → List (Nat × Mode)
  | none => []
  | some b => freeAll b

end

mutual

/-- Does `forEachInstrDeep` find this `br.label`? -/
def Instr.hasBrLabel (label : Nat) (mode : Mode) : Instr → Bool
  | .ifStmt _ then_ els =>
    bufferHasBrLabel label mode then_ || bufferHasBrLabel label mode els
  | .loop _ _ _ body _ _ | .forofIter _ body _ | .labeledBlock _ body =>
    bufferHasBrLabel label mode body
  | .switch _ _ bodies _ => buffersHaveBrLabel label mode bodies
  | .try_ body catchBody _ finallyBody =>
    bufferHasBrLabel label mode body || optionHasBrLabel label mode catchBody ||
      optionHasBrLabel label mode finallyBody
  | .brLabel l m => decide (l = label) && decide (m = mode)
  | .effect _ | .throw_ _ => false

def bufferHasBrLabel (label : Nat) (mode : Mode) : List Instr → Bool
  | [] => false
  | i :: rest => i.hasBrLabel label mode || bufferHasBrLabel label mode rest

def buffersHaveBrLabel (label : Nat) (mode : Mode) : List (List Instr) → Bool
  | [] => false
  | b :: rest => bufferHasBrLabel label mode b || buffersHaveBrLabel label mode rest

def optionHasBrLabel (label : Nat) (mode : Mode) : Option (List Instr) → Bool
  | none => false
  | some b => bufferHasBrLabel label mode b

end

mutual

def Instr.size : Instr → Nat
  | .ifStmt _ then_ els => sizeAll then_ + sizeAll els + 1
  | .loop _ _ _ body _ _ | .forofIter _ body _ | .labeledBlock _ body => sizeAll body + 1
  | .switch _ _ bodies _ => sizeBodies bodies + 1
  | .try_ body catchBody _ finallyBody =>
    sizeAll body + sizeOption catchBody + sizeOption finallyBody + 1
  | .brLabel _ _ | .effect _ | .throw_ _ => 1

def sizeAll : List Instr → Nat
  | [] => 0
  | i :: rest => i.size + sizeAll rest

def sizeBodies : List (List Instr) → Nat
  | [] => 0
  | b :: rest => sizeAll b + sizeBodies rest

def sizeOption : Option (List Instr) → Nat
  | none => 0
  | some b => sizeAll b

end

mutual

theorem Instr.hasBrLabel_of_free {j : Nat × Mode} :
    ∀ i : Instr, j ∈ i.free → i.hasBrLabel j.1 j.2 = true
  | .ifStmt _ then_ els => by
    simp only [Instr.free, Instr.hasBrLabel, List.mem_append, Bool.or_eq_true]
    exact Or.imp (bufferHasBrLabel_of_free then_) (bufferHasBrLabel_of_free els)
  | .loop _ _ _ body _ _ | .forofIter _ body _
  | .labeledBlock _ body => fun h => bufferHasBrLabel_of_free body (List.mem_filter.mp h).1
  | .switch _ _ bodies _ => fun h => buffersHaveBrLabel_of_free bodies (List.mem_filter.mp h).1
  | .try_ body catchBody _ finallyBody => by
    simp only [Instr.free, Instr.hasBrLabel, List.mem_append, Bool.or_eq_true]
    exact Or.imp (Or.imp (bufferHasBrLabel_of_free body) (optionHasBrLabel_of_free catchBody))
      (optionHasBrLabel_of_free finallyBody)
  | .brLabel l m => by
    intro h
    obtain rfl : j = (l, m) := List.mem_singleton.mp h
    simp [Instr.hasBrLabel]
  | .effect _ | .throw_ _ => nofun

theorem bufferHasBrLabel_of_free {j : Nat × Mode} :
    ∀ body : List Instr, j ∈ freeAll body → bufferHasBrLabel j.1 j.2 body = true
  | [] => nofun
  | i :: rest => by
    simp only [freeAll, bufferHasBrLabel, List.mem_append, Bool.or_eq_true]
    exact Or.imp i.hasBrLabel_of_free (bufferHasBrLabel_of_free rest)

theorem buffersHaveBrLabel_of_free {j : Nat × Mode} :
    ∀ bodies : List (List Instr), j ∈ freeBodies bodies → buffersHaveBrLabel j.1 j.2 bodies = true
  | [] => nofun
  | b :: rest => by
    simp only [freeBodies, buffersHaveBrLabel, List.mem_append, Bool.or_eq_true]
    exact Or.imp (bufferHasBrLabel_of_free b) (buffersHaveBrLabel_of_free rest)

theorem optionHasBrLabel_of_free {j : Nat × Mode} :
    ∀ body : Option (List Instr), j ∈ freeOption body → optionHasBrLabel j.1 j.2 body = true
  | none => nofun
  | some b => bufferHasBrLabel_of_free b

end

end Js2Wasm.Control
