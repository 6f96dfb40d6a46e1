import Mathlib.Data.List.Basic

/-! # The handle IR

The region tree the refcount pass rewrites (`refcount/handle-ir.ts`) and the
ownership summary of an engine import it reads (`refcount/ownership.ts`).  A
program is a tree of structured statements, so the scopes an edge leaves are a
suffix of the scope stack.

Notes on statements are display text and are left out.
-/
namespace Js2Wasm.Refcount

/-- Does the callee take ownership of a handle passed in this position? -/
inductive ArgOwnership where
  | borrows | consumes
  deriving DecidableEq

/-- Does a handle-typed result arrive with a reference the caller owns? -/
inductive ResultOwnership where
  | owned | borrowed | none
  deriving DecidableEq

/-- An ownership summary with every axis resolved. -/
structure ResolvedOwnership where
  args : List ArgOwnership
  result : ResultOwnership
  throws : Bool
  releasesContainerSlots : Bool
  deriving DecidableEq

/-- The resolved import table. -/
abbrev OwnershipTable := String → Option ResolvedOwnership

/-- A JSValue-valued SSA name within one function body. -/
abbrev HandleId := Nat

/-- Why the pass inserted a `JS_DupValue`. -/
inductive DupReason where
  | consumeArg | consumeArgBorrowed | retainBorrowed | returnTransfer | throwTransfer
  deriving DecidableEq

/-- Why the pass inserted a `JS_FreeValue`. -/
inductive FreeReason where
  | scopeExit | return_ | break_ | continue_ | unwind
  deriving DecidableEq

/-- A statement.  `dup`, `free` and `cleanup` are inserted by the pass. -/
inductive HandleStmt where
  | call (callee : String) (args : List (Option HandleId)) (dest : Option HandleId)
      (binding : Bool)
  | use (value : HandleId)
  | scope (body : List HandleStmt)
  | if_ (then_ : List HandleStmt) (else_ : Option (List HandleStmt))
  | block (label : String) (body : List HandleStmt)
  | loop (label : String) (body : List HandleStmt)
  | break_ (label : String)
  | continue_ (label : String)
  | return_ (value : Option HandleId)
  | throw_ (value : Option HandleId)
  | opaqueWork (throws : Bool)
  | dup (value dest : HandleId) (reason : DupReason)
  | free (value : HandleId) (reason : FreeReason)
  | cleanup (owner : HandleId) (body unwind : List HandleStmt)

/-- Whether a parameter arrives with a reference this frame must release. -/
inductive ParamOwnership where
  | borrowed | owned
  deriving DecidableEq

/-- A handle that arrives as a function parameter. -/
structure HandleParam where
  id : HandleId
  ownership : ParamOwnership
  deriving DecidableEq

structure HandleFunction where
  name : String
  params : List HandleParam
  result : ResultOwnership
  body : List HandleStmt

/-- Induction on a statement list: the first statement's bodies and the rest of
the list each have the hypothesis. -/
@[elab_as_elim]
theorem stmtsInduction {motive : List HandleStmt → Prop}
    (nil : motive [])
    (call : ∀ callee args dest binding rest, motive rest →
      motive (.call callee args dest binding :: rest))
    (use : ∀ value rest, motive rest → motive (.use value :: rest))
    (scope : ∀ body rest, motive body → motive rest → motive (.scope body :: rest))
    (if_ : ∀ then_ else_ rest, motive then_ → (∀ b, else_ = some b → motive b) → motive rest →
      motive (.if_ then_ else_ :: rest))
    (block : ∀ label body rest, motive body → motive rest → motive (.block label body :: rest))
    (loop : ∀ label body rest, motive body → motive rest → motive (.loop label body :: rest))
    (break_ : ∀ label rest, motive rest → motive (.break_ label :: rest))
    (continue_ : ∀ label rest, motive rest → motive (.continue_ label :: rest))
    (return_ : ∀ value rest, motive rest → motive (.return_ value :: rest))
    (throw_ : ∀ value rest, motive rest → motive (.throw_ value :: rest))
    (opaqueWork : ∀ throws rest, motive rest → motive (.opaqueWork throws :: rest))
    (dup : ∀ value dest reason rest, motive rest → motive (.dup value dest reason :: rest))
    (free : ∀ value reason rest, motive rest → motive (.free value reason :: rest))
    (cleanup : ∀ owner body unwind rest, motive body → motive unwind → motive rest →
      motive (.cleanup owner body unwind :: rest)) :
    ∀ stmts, motive stmts :=
  @HandleStmt.rec_1 (fun s => ∀ rest, motive rest → motive (s :: rest)) motive
    (fun o => ∀ b, o = some b → motive b)
    (fun callee args dest binding rest hr => call callee args dest binding rest hr)
    (fun value rest hr => use value rest hr)
    (fun body hb rest hr => scope body rest hb hr)
    (fun then_ else_ ht he rest hr => if_ then_ else_ rest ht he hr)
    (fun label body hb rest hr => block label body rest hb hr)
    (fun label body hb rest hr => loop label body rest hb hr)
    (fun label rest hr => break_ label rest hr)
    (fun label rest hr => continue_ label rest hr)
    (fun value rest hr => return_ value rest hr)
    (fun value rest hr => throw_ value rest hr)
    (fun throws rest hr => opaqueWork throws rest hr)
    (fun value dest reason rest hr => dup value dest reason rest hr)
    (fun value reason rest hr => free value reason rest hr)
    (fun owner body unwind hb hu rest hr => cleanup owner body unwind rest hb hu hr)
    nil (fun _ rest hs hr => hs rest hr) (fun _ h => nomatch h)
    (fun _ hb _ h => Option.some.inj h ▸ hb)

/-! ### Structural helpers -/

mutual

/-- A statement and every statement nested in it, depth first. -/
def walkStmt : HandleStmt → List HandleStmt
  | .scope body => .scope body :: walk body
  | .if_ then_ else_ => .if_ then_ else_ :: (walk then_ ++ walkElse else_)
  | .block label body => .block label body :: walk body
  | .loop label body => .loop label body :: walk body
  | .cleanup owner body unwind => .cleanup owner body unwind :: (walk body ++ walk unwind)
  | s => [s]

def walkElse : Option (List HandleStmt) → List HandleStmt
  | none => []
  | some body => walk body

/-- Every statement in a body, depth first, including nested bodies. -/
def walk : List HandleStmt → List HandleStmt
  | [] => []
  | s :: rest => walkStmt s ++ walk rest

end

/-- Can this statement itself reach an unwind path? -/
def throwsItself (throwsOf : String → Bool) : HandleStmt → Bool
  | .throw_ _ => true
  | .call callee _ _ _ => throwsOf callee
  | .opaqueWork throws => throws
  | _ => false

/-- Can this statement list reach an unwind path?  Conservative and syntactic:
some statement of it, at any depth, can. -/
def canThrow (throwsOf : String → Bool) (stmts : List HandleStmt) : Bool :=
  (walk stmts).any (throwsItself throwsOf)

mutual

/-- Does this statement always leave via a terminator? -/
def terminatesStmt : HandleStmt → Bool
  | .return_ _ | .throw_ _ | .break_ _ | .continue_ _ => true
  | .if_ then_ else_ => terminates then_ && terminatesElse else_
  | .cleanup _ body _ => terminates body
  | .scope body => terminates body
  | _ => false

/-- `last.else !== undefined && terminates(last.else)`. -/
def terminatesElse : Option (List HandleStmt) → Bool
  | none => false
  | some body => terminates body

/-- Does this statement list always leave via a terminator?  Only the last
statement is looked at. -/
def terminates : List HandleStmt → Bool
  | [] => false
  | s :: rest => if rest.isEmpty then terminatesStmt s else terminates rest

end

/-- The handles a statement itself mentions. -/
def mentions : HandleStmt → List HandleId
  | .call _ args dest _ => args.filterMap id ++ dest.toList
  | .use value | .free value _ => [value]
  | .dup value dest _ => [value, dest]
  | .return_ value | .throw_ value => value.toList
  | _ => []

/-- All handle ids mentioned anywhere in a function. -/
def collectHandles (func : HandleFunction) : List HandleId :=
  func.params.map HandleParam.id ++ (walk func.body).flatMap mentions

/-- The destination of a call. -/
def destination : HandleStmt → List HandleId
  | .call _ _ dest _ => dest.toList
  | _ => []

/-- The destinations of the calls of a statement list, at any depth. -/
def destinations (stmts : List HandleStmt) : List HandleId := (walk stmts).flatMap destination

/-- The names a statement leaves in scope for the rest of its list. -/
def binds : HandleStmt → List HandleId
  | .call _ _ dest _ => dest.toList
  | .dup _ dest _ => [dest]
  | _ => []

mutual

def LexicallyScopedStmt (vars : List HandleId) : HandleStmt → Prop
  | .call _ args _ _ => ∀ h, some h ∈ args → h ∈ vars
  | .use value | .free value _ | .dup value _ _ => value ∈ vars
  | .return_ value | .throw_ value => ∀ h, value = some h → h ∈ vars
  | .scope body | .block _ body | .loop _ body => LexicallyScoped vars body
  | .if_ then_ else_ => LexicallyScoped vars then_ ∧ LexicallyScopedElse vars else_
  | .cleanup _ body unwind => LexicallyScoped vars body ∧ LexicallyScoped vars unwind
  | .break_ _ | .continue_ _ | .opaqueWork _ => True

def LexicallyScopedElse (vars : List HandleId) : Option (List HandleStmt) → Prop
  | none => True
  | some body => LexicallyScoped vars body

/-- Every use names a handle in scope: a parameter, or the destination of an
earlier call in the same or an enclosing statement list. -/
def LexicallyScoped (vars : List HandleId) : List HandleStmt → Prop
  | [] => True
  | s :: rest => LexicallyScopedStmt vars s ∧ LexicallyScoped (binds s ++ vars) rest

end

/-- A call whose callee hands back an owned reference names a destination for it. -/
def namesOwnedResult (ownership : OwnershipTable) : HandleStmt → Bool
  | .call callee _ dest _ =>
    (ownership callee).all fun own => own.result != .owned || dest.isSome
  | _ => true

/-- Every call of a statement list does. -/
def OwnedResultsNamed (ownership : OwnershipTable) (stmts : List HandleStmt) : Prop :=
  ∀ s ∈ walk stmts, namesOwnedResult ownership s = true

theorem OwnedResultsNamed.subset {ownership : OwnershipTable} {xs ys : List HandleStmt}
    (h : OwnedResultsNamed ownership xs) (hs : walk ys ⊆ walk xs) :
    OwnedResultsNamed ownership ys := fun s hm => h s (hs hm)

theorem walk_rest_subset (s : HandleStmt) (rest : List HandleStmt) : walk rest ⊆ walk (s :: rest) :=
  List.subset_append_right _ _

variable {s : HandleStmt} {body rest : List HandleStmt}

theorem walk_stmt_subset (h : walk body ⊆ walkStmt s) : walk body ⊆ walk (s :: rest) :=
  List.subset_append_of_subset_left _ h

theorem destinations_rest_sublist (s : HandleStmt) (rest : List HandleStmt) :
    (destinations rest).Sublist (destinations (s :: rest)) := by
  rw [destinations, destinations, walk, List.flatMap_append]
  exact List.sublist_append_right _ _

theorem destinations_stmt_sublist
    (h : (destinations body).Sublist ((walkStmt s).flatMap destination)) :
    (destinations body).Sublist (destinations (s :: rest)) := by
  rw [destinations, destinations, walk, List.flatMap_append]
  exact h.trans (List.sublist_append_left _ _)

theorem destinations_cons (s : HandleStmt) (rest : List HandleStmt) :
    destinations (s :: rest) = (walkStmt s).flatMap destination ++ destinations rest := by
  simp [destinations, walk]

theorem canThrow_cons (throwsOf : String → Bool) (s : HandleStmt) (rest : List HandleStmt) :
    canThrow throwsOf (s :: rest) =
      ((walkStmt s).any (throwsItself throwsOf) || canThrow throwsOf rest) := by
  simp [canThrow, walk]

end Js2Wasm.Refcount
