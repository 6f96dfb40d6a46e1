import Js2Wasm.Refcount.HandleIR

/-! # Reference counts along executions

What an execution of a handle function does to the references its frame holds, counted
handle by handle.  The meaning of a body is a relation: `runs body f o f'` says that an
execution from the frame `f` can leave the body by `o` with the frame `f'`, for some
branch outcomes, some unwinds of the calls that may throw and some number of
iterations.

An execution stops with `fault` at a use of a handle whose last reference is gone or a
release of a reference the frame does not hold, so that an execution that never ends and
goes wrong has a finite part that says so.  `unheld` is apart: a `throw` or `return`
that hands over a handle without a reference.
-/
namespace Js2Wasm.Refcount.Counts
open Function

/-- How an execution leaves a body. -/
inductive Exit where
  | fall
  | break_ (label : String)
  | continue_ (label : String)
  | return_ (value : Option HandleId)
  | unwind (value : Option HandleId)
  | fault
  | unheld
  deriving DecidableEq

/-- The references a frame holds, and the handles that have held one. -/
structure Frame where
  refs : HandleId → Int
  acquired : HandleId → Bool

namespace Frame

def acquire (f : Frame) (h : HandleId) : Frame :=
  ⟨update f.refs h (f.refs h + 1), update f.acquired h true⟩

def release (f : Frame) (h : HandleId) : Frame :=
  { f with refs := update f.refs h (f.refs h - 1) }

theorem acquire_refs (f : Frame) (h x : HandleId) :
    (f.acquire h).refs x = if x = h then f.refs h + 1 else f.refs x := update_apply _ _ _ _

theorem release_refs (f : Frame) (h x : HandleId) :
    (f.release h).refs x = if x = h then f.refs h - 1 else f.refs x := update_apply _ _ _ _

/-- The last reference is gone.  A handle that never held one is borrowed: its count is
someone else's. -/
def Dead (f : Frame) (h : HandleId) : Prop := f.acquired h = true ∧ f.refs h ≤ 0

instance (f : Frame) (h : HandleId) : Decidable (f.Dead h) := inferInstanceAs (Decidable (_ ∧ _))

/-- Hand the arguments over, from left to right; `none` is a fault. -/
def passArgs : List (Option HandleId) → List ArgOwnership → Frame → Option Frame
  | [], _, f => some f
  | none :: args, owns, f => passArgs args owns.tail f
  | some h :: args, owns, f =>
    if owns.head? = some .consumes then
      if f.refs h ≤ 0 then none else passArgs args owns.tail (f.release h)
    else if f.Dead h then none
    else passArgs args owns.tail f

/-- Bind a call's result. -/
def bindResult (f : Frame) (result : ResultOwnership) (dest : Option HandleId) : Frame :=
  match result, dest with
  | .owned, some d => f.acquire d
  | _, _ => f

end Frame

abbrev Rel := Frame → Exit → Frame → Prop

/-- `r`, and `k` where `r` falls through. -/
def Rel.andThen (r k : Rel) : Rel := fun f o f' =>
  (∃ f1, r f .fall f1 ∧ k f1 o f') ∨ (o ≠ .fall ∧ r f o f')

/-- The end of a breakable region. -/
def Rel.leave (label : String) (r : Rel) : Rel := fun f o f' =>
  (o = .fall ∧ r f (.break_ label) f') ∨ (o ≠ .break_ label ∧ r f o f')

/-- The iterations of a loop.  A body that falls off its end leaves the loop. -/
inductive Iterate (label : String) (body : Rel) : Rel
  | again {f f1 o f'} : body f (.continue_ label) f1 → Iterate label body f1 o f' →
      Iterate label body f o f'
  | last {f o f'} : o ≠ .continue_ label → Rel.leave label body f o f' → Iterate label body f o f'

/-- The handle an exit carries to the handlers. -/
def Exit.thrown : Exit → Option HandleId
  | .unwind value => value
  | _ => none

/-- `catch_all unwind; rethrow`.  The exception's own reference must survive the handler. -/
def Rel.onUnwind (r unwind : Rel) : Rel := fun f o f' =>
  ((∀ value, o ≠ .unwind value) ∧ r f o f') ∨
  ∃ value f1 o1, r f (.unwind value) f1 ∧ unwind f1 o1 f' ∧
    o = if o1 = .fall then
      (if ∃ h, value = some h ∧ f'.refs h ≤ 0 then .unheld else .unwind value) else o1

section
variable (ownership : OwnershipTable) (result : ResultOwnership)

/-- One call.  Consumed arguments are gone whatever the outcome. -/
def callRel (callee : String) (args : List (Option HandleId)) (dest : Option HandleId) : Rel :=
  fun f o f' => ∃ own, ownership callee = some own ∧
    match f.passArgs args own.args with
    | none => o = .fault ∧ f' = f
    | some f1 => (own.throws = true ∧ o = .unwind none ∧ f' = f1) ∨
        (o = .fall ∧ f' = f1.bindResult own.result dest)

/-- A `return`: an owned result hands its reference over, any other is read. -/
def returnRel (value : Option HandleId) : Rel := fun f o f' => f' = f ∧
  o = if result ≠ .owned ∧ ∃ h, value = some h ∧ f.Dead h then .unheld else .return_ value

/-- A `throw`: the exception carries a reference. -/
def throwRel (value : Option HandleId) : Rel := fun f o f' => f' = f ∧
  o = if ∃ h, value = some h ∧ f.refs h ≤ 0 then .unheld else .unwind value

/-- A step that is a fault when `bad`, and otherwise goes on with `f'`. -/
def stepRel (bad : Frame → Prop) (next : Frame → Frame) : Rel := fun f o f' =>
  (bad f ∧ o = .fault ∧ f' = f) ∨ (¬ bad f ∧ o = .fall ∧ f' = next f)

mutual

def runStmt : HandleStmt → Rel
  | .call callee args dest _ => callRel ownership callee args dest
  | .use h => stepRel (fun f => f.Dead h) id
  | .scope body => runs body
  | .if_ then_ else_ => fun f o f' => runs then_ f o f' ∨ runElse else_ f o f'
  | .block label body => Rel.leave label (runs body)
  | .loop label body => Iterate label (runs body)
  | .break_ label => fun f o f' => o = .break_ label ∧ f' = f
  | .continue_ label => fun f o f' => o = .continue_ label ∧ f' = f
  | .return_ value => returnRel result value
  | .throw_ value => throwRel value
  | .opaqueWork throws => fun f o f' => (o = .fall ∨ (throws = true ∧ o = .unwind none)) ∧ f' = f
  | .dup h dest _ => stepRel (fun f => f.Dead h) fun f => f.acquire dest
  | .free h _ => stepRel (fun f => f.refs h ≤ 0) fun f => f.release h
  | .cleanup _ body unwind => Rel.onUnwind (runs body) (runs unwind)

def runElse : Option (List HandleStmt) → Rel
  | none => fun f o f' => o = .fall ∧ f' = f
  | some body => runs body

/-- **The executions of a body.** -/
def runs : List HandleStmt → Rel
  | [] => fun f o f' => o = .fall ∧ f' = f
  | s :: rest => Rel.andThen (runStmt s) (runs rest)

end

end

/-- The frame a function starts in: a reference for each owned parameter. -/
def entryFrame (params : List HandleParam) : Frame :=
  params.foldl (fun f p =>
    ⟨update f.refs p.id (if p.ownership = .owned then 1 else 0),
      update f.acquired p.id (p.ownership = .owned)⟩) ⟨fun _ => 0, fun _ => false⟩

/-- The handle whose reference an exit hands over. -/
def Exit.transferred (result : ResultOwnership) : Exit → Option HandleId
  | .return_ value => if result = .owned then value else none
  | .unwind value => value
  | _ => none

/-- What the contract leaves at an exit: one reference for what is handed over, and none
for anything else. -/
def Settled (result : ResultOwnership) (o : Exit) (f : Frame) : Prop :=
  ∀ h, f.refs h = if o.transferred result = some h then 1 else 0

structure BalancedExit (result : ResultOwnership) (o : Exit) (f : Frame) : Prop where
  no_fault : o ≠ .fault
  held : o ≠ .unheld
  settled : Settled result o f

/-- **Every execution of the function is balanced.** -/
def Balanced (ownership : OwnershipTable) (func : HandleFunction) : Prop :=
  ∀ o f', runs ownership func.result func.body (entryFrame func.params) o f' →
    BalancedExit func.result o f'

end Js2Wasm.Refcount.Counts
