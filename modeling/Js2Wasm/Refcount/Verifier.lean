import Js2Wasm.Refcount.HandleIR
import Js2Wasm.Lib.KeyedList
import Mathlib.Data.List.Sort

/-! # The reference-count verifier

`verifyRefcountBalance` of `refcount/verify.ts`.  It enumerates paths through the
finished program, carries a count for every handle along each, and reports what it
finds.

The findings, the number of paths explored and the two flags are threaded through
(`Acc`).  A callee without an annotation makes the source throw; here it raises
`missing`, and the function then has no result.
-/
namespace Js2Wasm.Refcount.Verify

inductive FindingKind where
  | leak | overRelease | consumedUnowned | useAfterFree | resultTransferMismatch | loopDrift
  | pathBudgetExhausted
  deriving DecidableEq

inductive FindingPath where
  | fallThrough | return_ | unwind | loopBackEdge | any
  deriving DecidableEq

structure Finding where
  kind : FindingKind
  handle : Option HandleId
  path : FindingPath
  message : String
  deriving DecidableEq

structure VerifyOptions where
  maxLoopIterations : Nat := 2
  maxPaths : Nat := 20000

inductive Origin where
  | owned | borrowed
  deriving DecidableEq

/-- A `Map` keyed by handles: the pairs in the order in which the keys were added. -/
structure HandleMap (β : Type) where
  entries : List (HandleId × β)
  distinct : KeyedList.Distinct (fun a b => decide (a = b)) entries

namespace HandleMap
variable {β : Type}

def empty : HandleMap β := ⟨[], KeyedList.distinct_nil⟩

def lookup (m : HandleMap β) (h : HandleId) : Option β :=
  KeyedList.get? (fun a b => decide (a = b)) m.entries h

/-- A key that is there keeps its place. -/
def set (m : HandleMap β) (h : HandleId) (v : β) : HandleMap β :=
  ⟨KeyedList.set (fun a b => decide (a = b)) m.entries h v,
    m.distinct.set KeyedList.isEquiv_decide h v⟩

theorem lookup_set (m : HandleMap β) (h x : HandleId) (v : β) :
    (m.set h v).lookup x = if x = h then some v else m.lookup x := by
  simpa [lookup, set] using KeyedList.get?_set KeyedList.isEquiv_decide m.entries h x v

theorem lookup_eq_some_iff {m : HandleMap β} {h : HandleId} {v : β} :
    m.lookup h = some v ↔ (h, v) ∈ m.entries := by
  constructor
  · intro hl
    obtain ⟨p, hp, hk, rfl⟩ := KeyedList.exists_of_get?_eq_some hl
    rwa [of_decide_eq_true hk]
  · exact fun hm => m.distinct.get?_of_mem KeyedList.isEquiv_decide hm (decide_eq_true rfl)

end HandleMap

structure VState where
  counts : HandleMap Int
  origin : HandleMap Origin

inductive Outcome where
  | fall
  | return_ (value : Option HandleId)
  | break_ (label : String)
  | continue_ (label : String)
  | unwind (value : Option HandleId)
  deriving DecidableEq

structure Path where
  outcome : Outcome
  state : VState

namespace VState

def get (st : VState) (h : HandleId) : Int := (st.counts.lookup h).getD 0

def setCount (st : VState) (h : HandleId) (n : Int) : VState :=
  { st with counts := st.counts.set h n }

def setOrigin (st : VState) (h : HandleId) (o : Origin) : VState :=
  { st with origin := st.origin.set h o }

/-- Has the handle held a reference on this path? -/
def owned (st : VState) (h : HandleId) : Bool := st.origin.lookup h = some .owned

/-- One more reference, of our own. -/
def acquire (st : VState) (h : HandleId) : VState :=
  (st.setCount h (st.get h + 1)).setOrigin h .owned

end VState

/-- The nonzero counts in the order of the handles. -/
def signature (st : VState) : List (HandleId × Int) :=
  (st.counts.entries.filter fun e => e.2 ≠ 0).insertionSort fun a b => a.1 ≤ b.1

def showSignature (sig : List (HandleId × Int)) : String :=
  if sig.isEmpty then "empty"
  else ",".intercalate (sig.map fun e => toString e.1 ++ ":" ++ toString e.2)

/-! ### Reports -/

structure Acc where
  findings : List Finding
  pathsExplored : Nat
  budgetExhausted : Bool
  missing : Bool

namespace Acc

def initial : Acc := ⟨[], 0, false, false⟩

/-- A finding that was seen before is not repeated. -/
def report (acc : Acc) (f : Finding) : Acc :=
  if f ∈ acc.findings then acc else { acc with findings := acc.findings ++ [f] }

/-- One more path. -/
def explore (acc : Acc) : Acc := { acc with pathsExplored := acc.pathsExplored + 1 }

def exhaust (acc : Acc) : Acc := { acc with budgetExhausted := true }

end Acc

def showHandle (h : HandleId) : String := "h" ++ toString h

/-- A read through `h` requires that we (or a provable owner) still hold it. -/
def checkAlive (st : VState) (h : HandleId) (what : String) (acc : Acc) : Acc :=
  if st.owned h = false then acc
  else if st.get h > 0 then acc
  else acc.report ⟨.useAfterFree, some h, .fallThrough,
    what ++ ": " ++ showHandle h ++ " is read but this frame holds no reference to it."⟩

/-- Take one argument's reference away. -/
def consumeArg (callee : String) (h : HandleId) (st : VState) (acc : Acc) : VState × Acc :=
  let before := st.get h
  (st.setCount h (before - 1),
    if before ≤ 0 then acc.report ⟨.consumedUnowned, some h, .any,
      "call to '" ++ callee ++ "' hands " ++ showHandle h ++
        " to a 'consumes' parameter, but this frame holds no reference to give away. " ++
        "The callee will release a reference we never took."⟩
    else acc)

def applyArgs (callee : String) : List (Option HandleId) → List ArgOwnership → VState → Acc →
    VState × Acc
  | [], _, st, acc => (st, acc)
  | none :: args, owns, st, acc => applyArgs callee args owns.tail st acc
  | some h :: args, owns, st, acc =>
    if owns.head? = some .consumes then
      let (st, acc) := consumeArg callee h st acc
      applyArgs callee args owns.tail st acc
    else applyArgs callee args owns.tail st (checkAlive st h ("call to '" ++ callee ++ "'") acc)

def applyResult (result : ResultOwnership) (dest : Option HandleId) (st : VState) : VState :=
  match dest with
  | none => st
  | some d =>
    if result = .owned then st.acquire d
    else if (st.origin.lookup d).isNone then st.setOrigin d .borrowed
    else st

def freeHandle (h : HandleId) (reason : FreeReason) (st : VState) (acc : Acc) : VState × Acc :=
  let before := st.get h
  (st.setCount h (before - 1),
    if before ≤ 0 then acc.report ⟨.overRelease, some h,
      if reason = .unwind then .unwind else .fallThrough,
      "free " ++ showHandle h ++ " releases a reference this frame does not hold (count " ++
        toString before ++
        "). One more release than acquire is a use-after-free inside the engine."⟩
    else acc)

/-! ### Paths -/

section
variable (maxPaths : Nat)

/-- Continue only the fall-through paths; pass the rest straight up. -/
def joinInto (cont : VState → Acc → List Path × Acc) : List Path → Acc → List Path × Acc
  | [], acc => ([], acc)
  | p :: ps, acc =>
    let acc := acc.explore
    if acc.pathsExplored > maxPaths then ([], acc.exhaust)
    else
      let (out, acc) := if p.outcome = .fall then cont p.state acc else ([p], acc)
      let (outs, acc) := joinInto cont ps acc
      (out ++ outs, acc)

/-- The paths of one iteration: those that leave the loop, and the state of the first
back edge. -/
def backEdges (label : String) (entrySig : List (HandleId × Int)) :
    List Path → Option VState → Acc → List Path × Option VState × Bool × Acc
  | [], next, acc => ([], next, true, acc)
  | p :: ps, next, acc =>
    let acc := acc.explore
    if acc.pathsExplored > maxPaths then ([], next, false, acc.exhaust)
    else if p.outcome = .continue_ label then
      let backSig := signature p.state
      let acc := if backSig ≠ entrySig then acc.report ⟨.loopDrift, none, .loopBackEdge,
        "loop '" ++ label ++ "': reference counts at the back edge (" ++ showSignature backSig ++
          ") differ from iteration entry (" ++ showSignature entrySig ++
          "). Repeating the loop changes the held set, so the heap grows with iterations " ++
          "— the failure the flat-heap fixture exists to catch."⟩
        else acc
      backEdges label entrySig ps (some (next.getD p.state)) acc
    else
      let out := if p.outcome = .break_ label then ⟨.fall, p.state⟩ else p
      let (outs, next, done, acc) := backEdges label entrySig ps next acc
      (out :: outs, next, done, acc)

/-- Explore a loop for at most the given number of iterations, following one back edge. -/
def runLoop (label : String) (body : VState → Acc → List Path × Acc) :
    Nat → VState → Acc → List Path × Acc
  | 0, _, acc => ([], acc)
  | iterations + 1, current, acc =>
    let (paths, acc) := body current acc
    let (out, next, done, acc) := backEdges maxPaths label (signature current) paths none acc
    if done then
      match next with
      | none => (out, acc)
      | some next =>
        let (outs, acc) := runLoop label body iterations next acc
        (out ++ outs, acc)
    else (out, acc)

/-- The end of a breakable region. -/
def leaveBlock (label : String) (p : Path) : Path :=
  if p.outcome = .break_ label then ⟨.fall, p.state⟩ else p

/-- Run the handler on the unwinding paths; each takes the state of the handler's last
path and keeps unwinding. -/
def handleUnwinds (unwind : VState → Acc → List Path × Acc) : List Path → Acc → List Path × Acc
  | [], acc => ([], acc)
  | p :: ps, acc =>
    match p.outcome with
    | .unwind _ =>
      let (handled, acc) := unwind p.state acc
      let st := (handled.getLast?.map Path.state).getD p.state
      let (outs, acc) := handleUnwinds unwind ps acc
      (⟨p.outcome, st⟩ :: outs, acc)
    | _ =>
      let (outs, acc) := handleUnwinds unwind ps acc
      (p :: outs, acc)

variable (ownership : OwnershipTable) (maxLoopIterations : Nat)

def execCall (callee : String) (args : List (Option HandleId)) (dest : Option HandleId)
    (cont : VState → Acc → List Path × Acc) (st : VState) (acc : Acc) : List Path × Acc :=
  match ownership callee with
  | none => ([], { acc with missing := true })
  | some own =>
    let (paths, acc) :=
      if own.throws then
        let (thrown, acc) := applyArgs callee args own.args st acc
        ([⟨.unwind none, thrown⟩], acc)
      else ([], acc)
    let (st, acc) := applyArgs callee args own.args st acc
    let (outs, acc) := cont (applyResult own.result dest st) acc
    (paths ++ outs, acc)

mutual

/-- The paths through a statement and what follows it. -/
def execStmt : HandleStmt → (VState → Acc → List Path × Acc) → VState → Acc → List Path × Acc
  | .call callee args dest _, cont, st, acc => execCall ownership callee args dest cont st acc
  | .use h, cont, st, acc => cont st (checkAlive st h "use" acc)
  | .dup h dest _, cont, st, acc => cont (st.acquire dest) (checkAlive st h "dup" acc)
  | .free h reason, cont, st, acc =>
    let (st, acc) := freeHandle h reason st acc
    cont st acc
  | .opaqueWork throws, cont, st, acc =>
    if throws then
      let (outs, acc) := cont st acc
      (⟨.unwind none, st⟩ :: outs, acc)
    else cont st acc
  | .scope body, cont, st, acc =>
    let (inner, acc) := exec body st acc
    joinInto maxPaths cont inner acc
  | .if_ then_ else_, cont, st, acc =>
    let (thenPaths, acc) := exec then_ st acc
    let (elsePaths, acc) := execElse else_ st acc
    joinInto maxPaths cont (thenPaths ++ elsePaths) acc
  | .block label body, cont, st, acc =>
    let (inner, acc) := exec body st acc
    joinInto maxPaths cont (inner.map (leaveBlock label)) acc
  | .loop label body, cont, st, acc =>
    let (inner, acc) := runLoop maxPaths label (fun st acc => exec body st acc) maxLoopIterations
      st acc
    joinInto maxPaths cont inner acc
  | .cleanup _ body unwind, cont, st, acc =>
    let (inner, acc) := exec body st acc
    let (inner, acc) := handleUnwinds (fun st acc => exec unwind st acc) inner acc
    joinInto maxPaths cont inner acc
  | .break_ label, _, st, acc => ([⟨.break_ label, st⟩], acc)
  | .continue_ label, _, st, acc => ([⟨.continue_ label, st⟩], acc)
  | .return_ value, _, st, acc => ([⟨.return_ value, st⟩], acc)
  | .throw_ value, _, st, acc => ([⟨.unwind value, st⟩], acc)

def execElse : Option (List HandleStmt) → VState → Acc → List Path × Acc
  | none, st, acc => ([⟨.fall, st⟩], acc)
  | some body, st, acc => exec body st acc

def exec : List HandleStmt → VState → Acc → List Path × Acc
  | [], st, acc => ([⟨.fall, st⟩], acc)
  | s :: rest, st, acc => execStmt s (fun st acc => exec rest st acc) st acc

end

end

/-! ### The verdict -/

def entryState (params : List HandleParam) : VState :=
  params.foldl (fun st p =>
    (st.setOrigin p.id (if p.ownership = .owned then .owned else .borrowed)).setCount p.id
      (if p.ownership = .owned then 1 else 0)) ⟨.empty, .empty⟩

/-- The handle, if any, that carries one reference out of the frame. -/
def transferred (result : ResultOwnership) : Outcome → Option HandleId
  | .return_ value => if result = .owned then value else none
  | .unwind value => value
  | _ => none

def exitPath : Outcome → FindingPath
  | .return_ _ => .return_
  | .unwind _ => .unwind
  | _ => .fallThrough

def showOutcome : Outcome → String
  | .fall => "fall"
  | .return_ _ => "return"
  | .break_ _ => "break"
  | .continue_ _ => "continue"
  | .unwind _ => "unwind"

/-- `n !== 1` on an owned result. -/
def checkResult (func : HandleFunction) (p : Path) (acc : Acc) : Acc :=
  match p.outcome with
  | .return_ (some h) =>
    if func.result = .owned ∧ p.state.get h ≠ 1 then
      acc.report ⟨.resultTransferMismatch, some h, .return_,
        func.name ++ " declares an owned result but leaves " ++ showHandle h ++ " with " ++
          toString (p.state.get h) ++
          " reference(s) at the return. Exactly one must transfer to the caller."⟩
    else acc
  | _ => acc

def checkLeak (func : HandleFunction) (p : Path) (acc : Acc) (e : HandleId × Int) : Acc :=
  if e.2 ≤ 0 then acc
  else if transferred func.result p.outcome = some e.1 ∧ e.2 = 1 then acc
  else acc.report ⟨.leak, some e.1, exitPath p.outcome,
    showHandle e.1 ++ " still holds " ++ toString e.2 ++
      " reference(s) where control leaves " ++ func.name ++ " via " ++ showOutcome p.outcome ++
      ". A missing release leaks silently — nothing fails at the point of the bug."⟩

def checkPath (func : HandleFunction) (acc : Acc) (p : Path) : Acc :=
  p.state.counts.entries.foldl (checkLeak func p) (checkResult func p acc)

/-- **The verifier.**  `none` where the source throws for a callee without annotation. -/
def verifyRefcountBalance (func : HandleFunction) (ownership : OwnershipTable)
    (options : VerifyOptions) : Option (List Finding) :=
  let (finalPaths, acc) := exec options.maxPaths ownership options.maxLoopIterations func.body
    (entryState func.params) Acc.initial
  if acc.missing then none
  else
    let acc := finalPaths.foldl (checkPath func) acc
    let acc := if acc.budgetExhausted then acc.report ⟨.pathBudgetExhausted, none, .any,
      "refcount verification of " ++ func.name ++ " stopped after " ++ toString options.maxPaths ++
        " paths. The verdict is INCOMPLETE: unexplored paths were not checked. " ++
        "Raise maxPaths or shrink the fixture."⟩
      else acc
    some acc.findings

end Js2Wasm.Refcount.Verify
