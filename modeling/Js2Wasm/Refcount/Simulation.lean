import Js2Wasm.Refcount.Exec
import Js2Wasm.Refcount.Placement

/-! # The emitted code simulates its input

Running what the pass emits does, step by step, what running its input does, and
every reference is settled exactly once.

The invariant of the simulation is `Related`: the frame's live references are
exactly those of the handles its enclosing scopes own, and a name in scope means
the same value on both sides.  `Sim` is what one statement list preserves; which
references are still live afterwards depends on how control leaves (`StillOwned`).
-/
namespace Js2Wasm.Refcount
open LinearLedger List Option

variable {V : Type}

/-! ### Execution lemmas -/

section
variable (ownership : OwnershipTable) (result : ResultOwnership) (engine : Engine V) (fuel : Nat)

@[simp] theorem andThen_fall (st : State V) (k : State V → Outcome V × State V) :
    andThen (.fall, st) k = k st := rfl

variable {r : Outcome V × State V} {k : State V → Outcome V × State V} {label : String}

theorem andThen_fst_ne_fall (h : r.1 ≠ .fall) : andThen r k = r := by
  obtain ⟨o, st⟩ := r
  cases o with
  | fall => exact absurd rfl h
  | _ => rfl

theorem execStmts_cons (s : HandleStmt) (rest : List HandleStmt) (st : State V) :
    execStmts ownership result engine fuel (s :: rest) st =
      andThen (execStmt ownership result engine fuel s st)
        (execStmts ownership result engine fuel rest) := rfl

theorem execStmts_singleton (s : HandleStmt) (st : State V) :
    execStmts ownership result engine fuel [s] st = execStmt ownership result engine fuel s st := by
  rw [execStmts_cons]
  obtain ⟨o, st'⟩ := execStmt ownership result engine fuel s st
  cases o <;> rfl

theorem execStmts_append (xs ys : List HandleStmt) (st : State V) :
    execStmts ownership result engine fuel (xs ++ ys) st =
      andThen (execStmts ownership result engine fuel xs st)
        (execStmts ownership result engine fuel ys) := by
  induction xs generalizing st with
  | nil => rfl
  | cons x xs ih =>
    rw [cons_append, execStmts_cons, execStmts_cons]
    obtain ⟨o, st'⟩ := execStmt ownership result engine fuel x st
    cases o with
    | fall => exact ih st'
    | _ => rfl

/-- Settle a list of handles, first to last. -/
def State.settleAll (st : State V) (hs : List HandleId) : State V := hs.foldl State.settle st

theorem execStmts_frees (hs : List HandleId) (reason : FreeReason) (rest : List HandleStmt)
    (st : State V) :
    execStmts ownership result engine fuel ((hs.map fun h => .free h reason) ++ rest) st =
      execStmts ownership result engine fuel rest (st.settleAll hs) := by
  induction hs generalizing st with
  | nil => rfl
  | cons h hs ih => exact ih (st.settle h)

theorem leaveBlock_of_ne (h : r.1 ≠ .break_ label) : leaveBlock label r = r := by
  obtain ⟨o, st⟩ := r
  cases o with
  | break_ l => exact if_neg fun e : l = label => h (congrArg Outcome.break_ e)
  | _ => rfl

theorem leaveBlock_of_eq (h : r.1 = .break_ label) : leaveBlock label r = (.fall, r.2) := by
  obtain ⟨o, st⟩ := r
  subst h
  exact if_pos rfl

theorem leaveBlock_ne_unwind (h : ∀ v, r.1 ≠ .unwind v) (v : Option V) :
    (leaveBlock label r).1 ≠ .unwind v := by
  by_cases hb : r.1 = .break_ label
  · simp [leaveBlock_of_eq hb]
  · rw [leaveBlock_of_ne hb]
    exact h v

section
variable {body : State V → Outcome V × State V} {fuel : Nat} {st : State V}

theorem iterate_succ_of_continue (h : (body st).1 = .continue_ label) :
    iterate label body (fuel + 1) st = iterate label body fuel (body st).2 := by
  rw [iterate]
  generalize body st = r at h ⊢
  obtain ⟨o, st'⟩ := r
  subst h
  exact if_pos rfl

/-- An iteration that does not go on leaves the loop as it would leave a block. -/
theorem iterate_succ_of_ne (h : (body st).1 ≠ .continue_ label) :
    iterate label body (fuel + 1) st = leaveBlock label (body st) := by
  rw [iterate]
  generalize body st = r at h ⊢
  obtain ⟨o, st'⟩ := r
  cases o with
  | continue_ l => exact if_neg fun e : l = label => h (congrArg Outcome.continue_ e)
  | _ => rfl

end

theorem iterate_ne_unwind {body : State V → Outcome V × State V}
    (h : ∀ st v, (body st).1 ≠ .unwind v) (fuel : Nat) (st : State V) (v : Option V) :
    (iterate label body fuel st).1 ≠ .unwind v := by
  induction fuel generalizing st with
  | zero => simp [iterate]
  | succ fuel ih =>
    by_cases hc : (body st).1 = .continue_ label
    · rw [iterate_succ_of_continue hc]
      exact ih _
    · rw [iterate_succ_of_ne hc]
      exact leaveBlock_ne_unwind (h st) v

theorem andThen_ne_unwind (h : ∀ v, r.1 ≠ .unwind v) (hk : ∀ st v, (k st).1 ≠ .unwind v)
    (v : Option V) : (andThen r k).1 ≠ .unwind v := by
  obtain ⟨o, st⟩ := r
  cases o with
  | fall => exact hk st v
  | unwind v' => exact (h v' rfl).elim
  | _ => simp [andThen]

theorem onUnwind_of_ne (h : ∀ v, r.1 ≠ .unwind v) : onUnwind r k = r := by
  obtain ⟨o, st⟩ := r
  cases o with
  | unwind v => exact (h v rfl).elim
  | _ => rfl

theorem onUnwind_ne_fall (h : r.1 ≠ .fall) : (onUnwind r k).1 ≠ .fall := by
  obtain ⟨o, st⟩ := r
  cases o with
  | fall => exact (h rfl).elim
  | unwind v =>
    unfold onUnwind
    dsimp only
    generalize k st = q
    obtain ⟨o, st'⟩ := q
    cases o <;> simp
  | _ => simp [onUnwind]

theorem execCall_ne_unwind {callee : String} (h : throwsOf ownership callee = false)
    (args : List (Option HandleId)) (dest : Option HandleId) (st : State V) (v : Option V) :
    (execCall ownership engine callee args dest st).1 ≠ .unwind v := by
  unfold execCall
  cases hown : ownership callee with
  | none => simp
  | some own =>
    have hthrows : own.throws = false := by simpa [throwsOf, hown] using h
    simp [hthrows]

/-- A statement list that cannot throw does not unwind. -/
theorem execStmts_ne_unwind (stmts : List HandleStmt) :
    canThrow (throwsOf ownership) stmts = false → ∀ (st : State V) (v : Option V),
      (execStmts ownership result engine fuel stmts st).1 ≠ .unwind v := by
  induction stmts using stmtsInduction with
  | nil => simp [execStmts]
  | call callee args dest binding rest ih =>
    intro h st
    simp only [canThrow_cons, Bool.or_eq_false_iff, walkStmt, any_cons, throwsItself] at h
    exact andThen_ne_unwind (execCall_ne_unwind ownership engine h.1.1 args dest st) (ih h.2)
  | scope body rest ihb ih =>
    intro h st
    simp only [canThrow_cons, Bool.or_eq_false_iff, walkStmt, any_cons] at h
    exact andThen_ne_unwind (ihb h.1.2 st) (ih h.2)
  | block label body rest ihb ih =>
    intro h st
    simp only [canThrow_cons, Bool.or_eq_false_iff, walkStmt, any_cons] at h
    exact andThen_ne_unwind (leaveBlock_ne_unwind (ihb h.1.2 st)) (ih h.2)
  | loop label body rest ihb ih =>
    intro h st
    simp only [canThrow_cons, Bool.or_eq_false_iff, walkStmt, any_cons] at h
    exact andThen_ne_unwind (iterate_ne_unwind (ihb h.1.2) fuel st) (ih h.2)
  | cleanup owner body unwind rest ihb ihu ih =>
    intro h st
    simp only [canThrow_cons, Bool.or_eq_false_iff, walkStmt, any_cons, any_append] at h
    refine andThen_ne_unwind (fun v => ?_) (ih h.2)
    rw [execStmt, onUnwind_of_ne (ihb h.1.2.1 st)]
    exact ihb h.1.2.1 st v
  | if_ then_ else_ rest iht ihe ih =>
    intro h st
    simp only [canThrow_cons, Bool.or_eq_false_iff, walkStmt, any_cons, any_append] at h
    refine andThen_ne_unwind (fun v => ?_) (ih h.2)
    unfold execStmt
    dsimp only
    split
    · exact iht h.1.2.1 _ v
    · cases else_ with
      | none => simp [execElse]
      | some body => exact ihe body rfl h.1.2.2 _ v
  | throw_ value rest ih => exact fun h => by simp [canThrow_cons, walkStmt, throwsItself] at h
  | opaqueWork throws rest ih =>
    intro h st
    simp only [canThrow_cons, Bool.or_eq_false_iff, walkStmt, any_cons, throwsItself] at h
    refine andThen_ne_unwind (fun v => ?_) (ih h.2)
    simp [execStmt, h.1.1]
  | return_ value rest ih =>
    intro h st
    refine andThen_ne_unwind (fun v => ?_) (ih (Bool.or_eq_false_iff.mp (canThrow_cons _ _ _ ▸ h)).2)
    cases value <;> simp [execStmt, execReturn]
  | use value rest ih | dup value dest reason rest ih | free value reason rest ih
  | break_ label rest ih | continue_ label rest ih =>
    intro h st
    exact andThen_ne_unwind (fun v => by simp [execStmt])
      (ih (Bool.or_eq_false_iff.mp (canThrow_cons _ _ _ ▸ h)).2)

/-- A statement list that ends in a terminator does not fall through. -/
theorem execStmts_ne_fall (stmts : List HandleStmt) :
    terminates stmts = true → ∀ st : State V,
      (execStmts ownership result engine fuel stmts st).1 ≠ .fall := by
  have last : ∀ (s : HandleStmt) (rest : List HandleStmt),
      (terminatesStmt s = true → ∀ st, (execStmt ownership result engine fuel s st).1 ≠ .fall) →
      (terminates rest = true → ∀ st,
        (execStmts ownership result engine fuel rest st).1 ≠ .fall) →
      terminates (s :: rest) = true → ∀ st,
        (execStmts ownership result engine fuel (s :: rest) st).1 ≠ .fall := by
    intro s rest hs hrest h st
    rw [terminates] at h
    cases rest with
    | nil =>
      rw [execStmts_singleton]
      exact hs h st
    | cons t rest =>
      rw [execStmts_cons]
      obtain ⟨o, st'⟩ := execStmt ownership result engine fuel s st
      cases o with
      | fall => exact hrest h st'
      | _ => simp [andThen]
  induction stmts using stmtsInduction with
  | nil => exact fun h => nomatch h
  | scope body rest ihb ih => exact last _ _ ihb ih
  | cleanup owner body unwind rest ihb ihu ih =>
    exact last _ _ (fun h st => onUnwind_ne_fall (ihb h st)) ih
  | if_ then_ else_ rest iht ihe ih =>
    refine last _ _ (fun h st => ?_) ih
    rw [terminatesStmt, Bool.and_eq_true] at h
    unfold execStmt
    dsimp only
    split
    · exact iht h.1 _
    · cases else_ with
      | none => exact nomatch h.2
      | some body => exact ihe body rfl h.2 _
  | return_ value rest ih =>
    refine last _ _ (fun _ st => ?_) ih
    cases value <;> simp [execStmt, execReturn]
  | throw_ value rest ih =>
    refine last _ _ (fun _ st => ?_) ih
    cases value <;> simp [execStmt, execThrow]
  | break_ label rest ih | continue_ label rest ih =>
    exact last _ _ (fun _ st => by simp [execStmt]) ih
  | _ => exact last _ _ (fun h => nomatch h) ‹_›

/-- Release `h` when control falls through or unwinds. -/
def settleExit (h : HandleId) (r : Outcome V × State V) : Outcome V × State V :=
  match r with
  | (.fall, st) => (.fall, st.settle h)
  | (.unwind v, st) => (.unwind v, st.settle h)
  | r => r

/-- **An acquisition's emitted form releases its handle on both paths that reach
the end of the scope.**  The tests the pass makes to leave a release out are right. -/
theorem execStmts_wrap (h : HandleId) (rest : List HandleStmt) (st : State V) :
    execStmts ownership result engine fuel (wrap ownership h rest) st =
      settleExit h (execStmts ownership result engine fuel rest st) := by
  have hregion : execStmts ownership result engine fuel
      (if canThrow (throwsOf ownership) rest then [.cleanup h rest [.free h .unwind]] else rest) st =
      onUnwind (execStmts ownership result engine fuel rest st) (fun st => (.fall, st.settle h)) := by
    by_cases hc : canThrow (throwsOf ownership) rest = true
    · rw [if_pos hc, execStmts_singleton]
      rfl
    · rw [if_neg hc, onUnwind_of_ne (execStmts_ne_unwind ownership result engine fuel rest
        (by simpa using hc) st)]
  rw [wrap, execStmts_append, hregion]
  have hfall := execStmts_ne_fall ownership result engine fuel rest
  by_cases ht : terminates rest = true
  · rw [if_pos ht]
    have hne := hfall ht st
    generalize execStmts ownership result engine fuel rest st = r at hne ⊢
    obtain ⟨o, st'⟩ := r
    cases o with
    | fall => exact (hne rfl).elim
    | _ => rfl
  · rw [if_neg ht]
    obtain ⟨o, st'⟩ := execStmts ownership result engine fuel rest st
    cases o <;> rfl

end

/-! ### The simulation invariant -/

namespace State

/-- The reference a handle's cell owns. -/
def refs (st : State V) (h : HandleId) : Option Nat := (st.env h).ref

variable {names : List HandleId} {st : State V} {h : HandleId}

section
variable (hh : Holds st.refs names st.ledger) (hs : h ∈ names ∨ st.refs h = none)
include hh hs

theorem touch_of_safe :
    st.touch h = st := by
  have := touch_of_holds hh hs
  simp only [touch]
  rw [show (st.env h).ref = st.refs h from rfl, this]

/-- A `dup` of a handle that is safe to read gives its copy a reference. -/
theorem dup_holds {dest : HandleId} (hd : dest ∉ names) :
    Holds (st.dup h dest).refs (dest :: names) (st.dup h dest).ledger ∧
      (st.dup h dest).ledger.faults = st.ledger.faults ∧
      (st.dup h dest).trace = st.trace ∧ ((st.dup h dest).env dest).value = (st.env h).value ∧
      ∀ x, x ≠ dest → (st.dup h dest).env x = st.env x := by
  rw [dup, touch_of_safe hh hs]
  refine ⟨hh.acquire ?_ fun m hm => ?_, rfl, rfl, ?_, fun x hx => ?_⟩
  · simp [refs, bindOwned]
  · have hne : m ≠ dest := fun e => hd (e ▸ hm)
    simp [refs, bindOwned, hne]
  · simp [bindOwned]
  · simp [bindOwned, hx]

end

theorem settleAll_holds (hs : List HandleId) :
    ∀ {st : State V} {names : List HandleId}, Holds st.refs (hs ++ names) st.ledger →
      Holds (st.settleAll hs).refs names (st.settleAll hs).ledger ∧
        (st.settleAll hs).ledger.faults = st.ledger.faults ∧
        (st.settleAll hs).trace = st.trace ∧ (st.settleAll hs).env = st.env := by
  induction hs with
  | nil => exact fun hh => ⟨hh, rfl, rfl, rfl⟩
  | cons h hs ih =>
    intro st names hh
    obtain ⟨hh', hfaults⟩ := Holds.settle (n := h) hh
    have hnext : Holds (st.settle h).refs (hs ++ names) (st.settle h).ledger := hh'
    obtain ⟨h1, h2, h3, h4⟩ := ih hnext
    exact ⟨h1, h2.trans hfaults, h3, h4⟩

theorem bindResult_owned (st : State V) (d : HandleId) (v : V) :
    st.bindResult .owned (some d) v = st.bindOwned d v := rfl

theorem bindResult_borrowed (st : State V) (d : HandleId) (v : V) :
    st.bindResult .borrowed (some d) v = st.bindBorrowed d v := rfl

theorem passArgs_env (args : List (Option HandleId)) :
    ∀ (owns : List ArgOwnership) (st : State V), (st.passArgs args owns).env = st.env ∧
      (st.passArgs args owns).trace = st.trace := by
  induction args with
  | nil => exact fun owns st => ⟨rfl, rfl⟩
  | cons a args ih =>
    intro owns st
    cases a with
    | none => exact ih owns.tail st
    | some h =>
      match owns with
      | .consumes :: owns => exact ih owns (st.settle h)
      | .borrows :: owns => exact ih owns (st.touch h)
      | [] => exact ih [] (st.touch h)

end State

/-- The simulation invariant, for the names `vars` in scope. -/
structure Related (c : Ctx) (vars : List HandleId) (st1 st2 : State V) : Prop where
  values : ∀ v ∈ vars, (st1.env (c.rn v)).value = (st2.env v).value
  safe : ∀ v ∈ vars, c.rn v ∈ c.owned ∨ st1.refs (c.rn v) = none
  holds : Holds st1.refs c.owned st1.ledger
  trace : st1.trace = st2.trace
  faults : st1.ledger.faults = []

/-- Whose references are still live once control has left with an outcome: a branch
has released the frames it crosses, a return every frame; on the unwind path each
enclosing region still has its own release to do. -/
def StillOwned (c : Ctx) : Outcome V → State V → Prop
  | .fall, st | .unwind _, st => Holds st.refs c.owned st.ledger
  | .break_ label, st => ∃ frame outside, labelTarget label c.frames = some (frame, outside) ∧
      Holds st.refs (outside.flatMap Frame.owned) st.ledger
  | .continue_ label, st => ∃ frame outside, labelTarget label c.frames = some (frame, outside) ∧
      frame.kind = .loop ∧ Holds st.refs (outside.flatMap Frame.owned) st.ledger
  | .return_ _, st => Holds st.refs [] st.ledger
  | .outOfFuel, _ => True

/-- The emitted code's run `r1` from `st1` simulates the input's run `r2` from `st2`. -/
structure Sim (c : Ctx) (n : HandleId) (dests : List HandleId) (st1 st2 : State V)
    (r1 r2 : Outcome V × State V) : Prop where
  outcome : r1.1 = r2.1
  trace : r1.2.trace = r2.2.trace
  faults : r1.2.ledger.faults = []
  owned : StillOwned c r1.1 r1.2
  env₁ : ∀ h < n, h ∉ dests → r1.2.env h = st1.env h
  env₂ : ∀ h, h ∉ dests → r2.2.env h = st2.env h

variable {c : Ctx} {vars dests dests' : List HandleId} {n n' : HandleId}
  {st1 st2 st1' st2' : State V} {r1 r2 : Outcome V × State V}

namespace Related

/-- The invariant only looks at the names in scope and what they are renamed to. -/
theorem transport (h : Related c vars st1 st2) (hok : c.Ok vars n dests)
    (he1 : ∀ x < n, x ∉ dests → st1'.env x = st1.env x)
    (he2 : ∀ x, x ∉ dests → st2'.env x = st2.env x)
    (hh : Holds st1'.refs c.owned st1'.ledger) (ht : st1'.trace = st2'.trace)
    (hf : st1'.ledger.faults = []) : Related c vars st1' st2' where
  values v hv := by
    rw [he1 _ (hok.rnBound v hv).1 (hok.rnBound v hv).2, he2 v (hok.varBound v hv).2]
    exact h.values v hv
  safe v hv := by
    rw [State.refs, he1 _ (hok.rnBound v hv).1 (hok.rnBound v hv).2]
    exact h.safe v hv
  holds := hh
  trace := ht
  faults := hf

theorem push (h : Related c vars st1 st2) (kind : FrameKind) (label : Option String) :
    Related (c.push ⟨kind, label, []⟩) vars st1 st2 :=
  ⟨h.values, h.safe, h.holds, h.trace, h.faults⟩

theorem emit (h : Related c vars st1 st2) (e : Event V) :
    Related c vars (st1.emit e) (st2.emit e) :=
  ⟨h.values, h.safe, h.holds, congrArg (e :: ·) h.trace, h.faults⟩

end Related

namespace Sim

theorem related (h : Sim c n dests st1 st2 r1 r2) (hr : Related c vars st1 st2)
    (hok : c.Ok vars n dests) (hfall : r1.1 = .fall) : Related c vars r1.2 r2.2 := by
  have howned := h.owned
  rw [hfall] at howned
  exact hr.transport hok h.env₁ h.env₂ howned h.trace h.faults

/-- Start from earlier states that agree on the names that stay. -/
theorem rebase (h : Sim c n' dests' st1' st2' r1 r2) (hn : n ≤ n') (hs : dests' ⊆ dests)
    (he1 : ∀ x < n, x ∉ dests → st1'.env x = st1.env x)
    (he2 : ∀ x, x ∉ dests → st2'.env x = st2.env x) : Sim c n dests st1 st2 r1 r2 :=
  ⟨h.outcome, h.trace, h.faults, h.owned,
    fun x hx hd => (h.env₁ x (hx.trans_le hn) fun hm => hd (hs hm)).trans (he1 x hx hd),
    fun x hd => (h.env₂ x fun hm => hd (hs hm)).trans (he2 x hd)⟩

theorem andThen {k1 k2 : State V → Outcome V × State V} (h : Sim c n dests st1 st2 r1 r2)
    (hn : n ≤ n') (hk : r1.1 = .fall → Sim c n' dests' r1.2 r2.2 (k1 r1.2) (k2 r2.2)) :
    Sim c n (dests ++ dests') st1 st2 (Refcount.andThen r1 k1) (Refcount.andThen r2 k2) := by
  have he1 : ∀ x < n, x ∉ dests ++ dests' → r1.2.env x = st1.env x :=
    fun x hx hd => h.env₁ x hx fun hm => hd (mem_append_left _ hm)
  have he2 : ∀ x, x ∉ dests ++ dests' → r2.2.env x = st2.env x :=
    fun x hd => h.env₂ x fun hm => hd (mem_append_left _ hm)
  by_cases hf : r1.1 = .fall
  · have hf2 : r2.1 = .fall := h.outcome ▸ hf
    obtain ⟨o1, s1⟩ := r1
    obtain ⟨o2, s2⟩ := r2
    simp only at hf hf2
    subst hf hf2
    exact (hk rfl).rebase hn (subset_append_right _ _) he1 he2
  · have hf2 : r2.1 ≠ .fall := h.outcome ▸ hf
    rw [andThen_fst_ne_fall hf, andThen_fst_ne_fall hf2]
    exact ⟨h.outcome, h.trace, h.faults, h.owned, he1, he2⟩

/-- Both sides leave with the same outcome from related states. -/
theorem ofRelated {o : Outcome V} (h : Related c vars st1' st2') (ho : StillOwned c o st1')
    (he1 : ∀ x < n, x ∉ dests → st1'.env x = st1.env x)
    (he2 : ∀ x, x ∉ dests → st2'.env x = st2.env x) :
    Sim c n dests st1 st2 (o, st1') (o, st2') :=
  ⟨rfl, h.trace, h.faults, ho, he1, he2⟩

section
variable {kind : FrameKind} {label : Option String}

/-- Leaving a frame that owns nothing, with an outcome that is not for its label. -/
theorem leave (h : Sim (c.push ⟨kind, label, []⟩) n dests st1 st2 r1 r2)
    (hl : ∀ l, r1.1 = .break_ l ∨ r1.1 = .continue_ l → label ≠ some l) :
    Sim c n dests st1 st2 r1 r2 := by
  refine ⟨h.outcome, h.trace, h.faults, ?_, h.env₁, h.env₂⟩
  have howned := h.owned
  obtain ⟨o, st⟩ := r1
  cases o with
  | break_ l => simpa [StillOwned, Ctx.push, labelTarget, hl l (Or.inl rfl)] using howned
  | continue_ l => simpa [StillOwned, Ctx.push, labelTarget, hl l (Or.inr rfl)] using howned
  | _ => exact howned

/-- Closing a frame without a label. -/
theorem pop (h : Sim (c.push ⟨kind, none, []⟩) n dests st1 st2 r1 r2) :
    Sim c n dests st1 st2 r1 r2 :=
  h.leave fun _ _ => nofun

end

section
variable {kind : FrameKind} {label : String} {st : State V}

theorem owned_of_break (h : StillOwned (c.push ⟨kind, some label, []⟩) (.break_ label) st) :
    Holds st.refs c.owned st.ledger := by
  simpa [StillOwned, Ctx.push, labelTarget, Ctx.owned] using h

theorem owned_of_continue (h : StillOwned (c.push ⟨kind, some label, []⟩) (.continue_ label) st) :
    kind = .loop ∧ Holds st.refs c.owned st.ledger := by
  simpa [StillOwned, Ctx.push, labelTarget, Ctx.owned] using h

/-- Closing a labelled frame: a branch to its label falls through. -/
theorem leaveLabelled (h : Sim (c.push ⟨kind, some label, []⟩) n dests st1 st2 r1 r2)
    (hc : r1.1 ≠ .continue_ label) :
    Sim c n dests st1 st2 (Refcount.leaveBlock label r1) (Refcount.leaveBlock label r2) := by
  by_cases hb : r1.1 = .break_ label
  · have howned := h.owned
    rw [hb] at howned
    rw [leaveBlock_of_eq hb, leaveBlock_of_eq (h.outcome.symm.trans hb)]
    exact ⟨rfl, h.trace, h.faults, owned_of_break howned, h.env₁, h.env₂⟩
  · rw [leaveBlock_of_ne hb, leaveBlock_of_ne (h.outcome ▸ hb)]
    refine h.leave fun l hl e => ?_
    obtain rfl := some.inj e
    exact hl.elim hb hc

/-- Closing a `block`. -/
theorem leaveBlock (h : Sim (c.push ⟨.block, some label, []⟩) n dests st1 st2 r1 r2) :
    Sim c n dests st1 st2 (Refcount.leaveBlock label r1) (Refcount.leaveBlock label r2) := by
  refine h.leaveLabelled fun hc => ?_
  have howned := h.owned
  rw [hc] at howned
  cases (owned_of_continue howned).1

/-- Closing a `loop`: every iteration starts from related states again. -/
theorem iterate {body1 body2 : State V → Outcome V × State V} (hok : c.Ok vars n dests)
    (hbody : ∀ s1 s2, Related c vars s1 s2 →
      Sim (c.push ⟨.loop, some label, []⟩) n dests s1 s2 (body1 s1) (body2 s2)) (fuel : Nat) :
    ∀ s1 s2, Related c vars s1 s2 →
      Sim c n dests s1 s2 (Refcount.iterate label body1 fuel s1)
        (Refcount.iterate label body2 fuel s2) := by
  induction fuel with
  | zero => exact fun s1 s2 hr => ⟨rfl, hr.trace, hr.faults, trivial, fun _ _ _ => rfl,
      fun _ _ => rfl⟩
  | succ fuel ih =>
    intro s1 s2 hr
    have h := hbody s1 s2 hr
    by_cases hc : (body1 s1).1 = .continue_ label
    · rw [iterate_succ_of_continue hc, iterate_succ_of_continue (h.outcome.symm.trans hc)]
      have howned := h.owned
      rw [hc] at howned
      have hagain := hr.transport hok h.env₁ h.env₂ (owned_of_continue howned).2 h.trace h.faults
      exact (ih _ _ hagain).rebase .refl (List.Subset.refl _) h.env₁ h.env₂
    · rw [iterate_succ_of_ne hc, iterate_succ_of_ne (h.outcome ▸ hc)]
      exact h.leaveLabelled hc

end

/-- An acquisition joins the innermost frame and leaves those outside it alone. -/
theorem labelTarget_own {label : String} {x : HandleId} {frame : Frame} {outside : List Frame}
    (h : labelTarget label (c.own x).frames = some (frame, outside)) :
    ∃ f, labelTarget label c.frames = some (f, outside) ∧ f.kind = frame.kind := by
  unfold Ctx.own at h
  cases hc : c.frames with
  | nil =>
    rw [hc] at h
    cases h
  | cons f fs =>
    rw [hc] at h
    by_cases hl : f.label = some label <;> simp [labelTarget, hl] at h ⊢
    · exact ⟨h.2, h.1 ▸ rfl⟩
    · exact ⟨frame, h, rfl⟩

/-- The end of the region of an acquisition. -/
theorem settleExit {x : HandleId} (h : Sim (c.own x) n dests st1 st2 r1 r2)
    (hc : c.frames ≠ []) : Sim c n dests st1 st2 (Refcount.settleExit x r1) r2 := by
  obtain ⟨houtcome, htrace, hfaults, howned, he1, he2⟩ := h
  obtain ⟨o, s1⟩ := r1
  cases o with
  | fall | unwind =>
    have hh : Holds s1.refs (c.own x).owned s1.ledger := howned
    rw [Ctx.owned_own hc] at hh
    obtain ⟨hh, hf⟩ := Holds.settle (n := x) hh
    exact ⟨houtcome, htrace, hf.trans hfaults, hh, he1, he2⟩
  | break_ l =>
    obtain ⟨frame, outside, ht, hh⟩ := howned
    obtain ⟨f, hf, -⟩ := labelTarget_own ht
    exact ⟨houtcome, htrace, hfaults, ⟨f, outside, hf, hh⟩, he1, he2⟩
  | continue_ l =>
    obtain ⟨frame, outside, ht, hk, hh⟩ := howned
    obtain ⟨f, hf, hkind⟩ := labelTarget_own ht
    exact ⟨houtcome, htrace, hfaults, ⟨f, outside, hf, hkind.trans hk, hh⟩, he1, he2⟩
  | _ => exact ⟨houtcome, htrace, hfaults, howned, he1, he2⟩

end Sim

/-! ### Arguments and calls -/

/-- The names an argument list hands over for good. -/
def consumedNames : List (Option HandleId) → List ArgOwnership → List HandleId
  | [], _ => []
  | none :: args, owns => consumedNames args owns.tail
  | some h :: args, .consumes :: owns => h :: consumedNames args owns
  | some _ :: args, owns => consumedNames args owns.tail

variable {args : List (Option HandleId)} {owns : List ArgOwnership} {h : HandleId}

theorem EmitsArgs.le {args' : List (Option HandleId)} {dups : List HandleStmt}
    (h : EmitsArgs c n args owns dups args' n') : n ≤ n' := by
  induction h with
  | nil => exact le_rfl
  | untracked _ ih => exact ih
  | consumed _ _ ih => exact Nat.le_of_succ_le ih
  | borrowed _ _ ih => exact ih

theorem consumedNames_borrowed (ho : owns.head? ≠ some .consumes) :
    consumedNames (some h :: args) owns = consumedNames args owns.tail := by
  match owns with
  | .consumes :: _ => exact absurd rfl ho
  | .borrows :: _ => rfl
  | [] => rfl

theorem passArgs_borrowed (ho : owns.head? ≠ some .consumes) (st : State V) :
    st.passArgs (some h :: args) owns = (st.touch h).passArgs args owns.tail := by
  match owns with
  | .consumes :: _ => exact absurd rfl ho
  | .borrows :: _ => rfl
  | [] => rfl

section
variable (ownership : OwnershipTable) (result : ResultOwnership) (engine : Engine V) (fuel : Nat)

variable {d : HandleId} {body dups rest out : List HandleStmt} {args args' : List (Option HandleId)}
    {owns : List ArgOwnership} {own : ResolvedOwnership} {callee : String}

/-- The `dup`s before a call give every consumed argument a reference of its own. -/
theorem EmitsArgs.exec_dups (h : EmitsArgs c n args owns dups args' n') (rest : List HandleStmt) :
    ∀ (st : State V) (names : List HandleId), Holds st.refs names st.ledger →
      (∀ x ∈ names, x < n) →
      (∀ x, some x ∈ args → c.rn x < n ∧ (c.rn x ∈ names ∨ st.refs (c.rn x) = none)) →
      ∃ st', execStmts ownership result engine fuel (dups ++ rest) st =
          execStmts ownership result engine fuel rest st' ∧
        (∀ x < n, st'.env x = st.env x) ∧ st'.trace = st.trace ∧
        st'.ledger.faults = st.ledger.faults ∧
        Holds st'.refs (consumedNames args' owns ++ names) st'.ledger ∧
        st'.argValues args' = args.map fun a => a.map fun x => (st.env (c.rn x)).value := by
  induction h with
  | nil => exact fun st names hh _ _ => ⟨st, rfl, fun _ _ => rfl, rfl, rfl, hh, rfl⟩
  | untracked _ ih =>
    intro st names hh hb hs
    obtain ⟨st', h1, h2, h3, h4, h5, h6⟩ :=
      ih st names hh hb fun x hx => hs x (mem_cons_of_mem _ hx)
    exact ⟨st', h1, h2, h3, h4, h5, congrArg (none :: ·) h6⟩
  | @consumed n raw args owns dups args' n' reason hrec ih =>
    intro st names hh hb hs
    obtain ⟨hlt, hsafe⟩ := hs raw mem_cons_self
    have hn : n ∉ names := fun hm => Nat.lt_irrefl n (hb n hm)
    obtain ⟨hh', hf, ht, hv, henv⟩ := State.dup_holds hh hsafe hn
    have hne : ∀ x < n, x ≠ n := fun x hx => hx.ne
    obtain ⟨st', h1, h2, h3, h4, h5, h6⟩ := ih (st.dup (c.rn raw) n) (n :: names) hh'
      (fun x hx => (mem_cons.mp hx).elim (fun e => e ▸ Nat.lt_succ_self _)
        fun hm => Nat.lt_succ_of_lt (hb x hm))
      (fun x hx => by
        obtain ⟨hlt', hsafe'⟩ := hs x (mem_cons_of_mem _ hx)
        refine ⟨Nat.lt_succ_of_lt hlt', hsafe'.imp (mem_cons_of_mem _) fun hr => ?_⟩
        rw [State.refs, henv _ (hne _ hlt')]
        exact hr)
    refine ⟨st', h1, fun x hx => ?_, h3.trans ht, h4.trans hf, ?_, ?_⟩
    · rw [h2 x (Nat.lt_succ_of_lt hx), henv x (hne x hx)]
    · exact h5.perm (perm_middle)
    · rw [State.argValues, map_cons, map_cons]
      congr 1
      · rw [map_some, map_some, h2 n (Nat.lt_succ_self n), hv]
      · refine h6.trans (map_congr_left fun a ha => ?_)
        cases a with
        | none => rfl
        | some x => rw [map_some, map_some,
            henv _ (hne _ (hs x (mem_cons_of_mem _ ha)).1)]
  | @borrowed n raw args owns dups args' n' ho hrec ih =>
    intro st names hh hb hs
    obtain ⟨st', h1, h2, h3, h4, h5, h6⟩ :=
      ih st names hh hb fun x hx => hs x (mem_cons_of_mem _ hx)
    refine ⟨st', h1, h2, h3, h4, ?_, ?_⟩
    · rw [consumedNames_borrowed ho]
      exact h5
    · rw [State.argValues, map_cons, map_cons]
      congr 1
      rw [map_some, map_some, h2 _ (hs raw mem_cons_self).1]

/-- Handing the arguments over settles exactly the copies made for it. -/
theorem EmitsArgs.exec_pass (h : EmitsArgs c n args owns dups args' n') :
    ∀ (st : State V) (names : List HandleId),
      Holds st.refs (consumedNames args' owns ++ names) st.ledger →
      (∀ x, some x ∈ args → c.rn x ∈ names ∨ st.refs (c.rn x) = none) →
      Holds (st.passArgs args' owns).refs names (st.passArgs args' owns).ledger ∧
        (st.passArgs args' owns).ledger.faults = st.ledger.faults := by
  induction h with
  | nil => exact fun st names hh _ => ⟨hh, rfl⟩
  | untracked _ ih => exact fun st names hh hs => ih st names hh fun x hx => hs x (mem_cons_of_mem _ hx)
  | @consumed n raw args owns dups args' n' reason hrec ih =>
    intro st names hh hs
    obtain ⟨hh', hf⟩ := Holds.settle (n := n) (hh : Holds st.refs (n :: _) st.ledger)
    obtain ⟨h1, h2⟩ := ih (st.settle n) names hh' fun x hx => hs x (mem_cons_of_mem _ hx)
    exact ⟨h1, h2.trans hf⟩
  | @borrowed n raw args owns dups args' n' ho hrec ih =>
    intro st names hh hs
    rw [consumedNames_borrowed ho] at hh
    rw [passArgs_borrowed ho, State.touch_of_safe hh
      ((hs raw mem_cons_self).imp (mem_append_right _) id)]
    exact ih st names hh fun x hx => hs x (mem_cons_of_mem _ hx)

theorem Related.argValues (h : Related c vars st1 st2) (ha : ∀ x, some x ∈ args → x ∈ vars) :
    (args.map fun a => a.map fun x => (st1.env (c.rn x)).value) = st2.argValues args := by
  refine map_congr_left fun a hm => ?_
  cases a with
  | none => rfl
  | some x => simp [h.values x (ha x hm)]

/-- **A call and its argument copies.**  Both sides make the same call; what is left
is to bind the result and go on, or to unwind, from related states. -/
theorem EmitsArgs.exec_call (h : EmitsArgs c n args own.args dups args' n')
    (hown : ownership callee = some own) (hok : c.Ok vars n dests) (hr : Related c vars st1 st2)
    (ha : ∀ x, some x ∈ args → x ∈ vars) (dest : Option HandleId) (binding : Bool)
    (out rest : List HandleStmt) :
    ∃ (raised : Bool) (v : V) (st1' st2' : State V),
      execStmts ownership result engine fuel
          (dups ++ .call callee args' dest binding :: out) st1 =
        (if raised then (.unwind none, st1')
          else execStmts ownership result engine fuel out (st1'.bindResult own.result dest v)) ∧
      execStmts ownership result engine fuel (.call callee args dest binding :: rest) st2 =
        (if raised then (.unwind none, st2')
          else execStmts ownership result engine fuel rest
            (st2'.bindResult own.result dest v)) ∧
      Related c vars st1' st2' ∧ (∀ x < n, st1'.env x = st1.env x) ∧ st2'.env = st2.env := by
  have hargs : ∀ x, some x ∈ args →
      c.rn x < n ∧ (c.rn x ∈ c.owned ∨ st1.refs (c.rn x) = none) := fun x hx =>
    ⟨(hok.rnBound x (ha x hx)).1, hr.safe x (ha x hx)⟩
  obtain ⟨s1, hexec, henv, htrace, hfaults, hholds, hvalues⟩ :=
    h.exec_dups ownership result engine fuel (.call callee args' dest binding :: out) st1 c.owned
      hr.holds (fun x hx => (hok.owned_bound hx).1) hargs
  obtain ⟨hholds', hfaults'⟩ := h.exec_pass s1 c.owned hholds fun x hx => by
    rw [State.refs, henv _ (hargs x hx).1]
    exact (hargs x hx).2
  obtain ⟨henv₁, htrace1⟩ := s1.passArgs_env args' own.args
  obtain ⟨henv₂, htrace2⟩ := st2.passArgs_env args own.args
  have hsame : s1.trace = st2.trace := htrace.trans hr.trace
  have hseen : s1.argValues args' = st2.argValues args := hvalues.trans (hr.argValues ha)
  refine ⟨own.throws && engine.raises st2.trace, engine.result
      (.call callee (st2.argValues args) (own.throws && engine.raises st2.trace) :: st2.trace),
    _, _, ?_, ?_, Related.emit (?_ : Related c vars (s1.passArgs args' own.args)
      (st2.passArgs args own.args)) (.call callee (st2.argValues args)
        (own.throws && engine.raises st2.trace)), fun x hx => ?_, henv₂⟩
  · rw [hexec, execStmts_cons, execStmt, execCall, hown]
    simp only [hseen, hsame, State.emit, htrace1]
    cases own.throws && engine.raises st2.trace <;> rfl
  · rw [execStmts_cons, execStmt, execCall, hown]
    simp only [State.emit, htrace2]
    cases own.throws && engine.raises st2.trace <;> rfl
  · refine hr.transport hok (fun x hx _ => ?_) (fun x _ => congrFun henv₂ x) hholds'
      (htrace1.trans (hsame.trans htrace2.symm)) (hfaults'.trans (hfaults.trans hr.faults))
    rw [henv₁, henv x hx]
  · change (s1.passArgs args' own.args).env x = st1.env x
    rw [henv₁, henv x hx]

/-- A borrowed result is bound on both sides. -/
theorem Related.bindBorrowed (h : Related c vars st1 st2) (hok : c.Ok vars n (d :: dests)) (v : V) :
    Related c (d :: vars) (st1.bindBorrowed d v) (st2.bindBorrowed d v) := by
  have hd : d ∉ vars := hok.dest_not_mem mem_cons_self
  have hrn : c.rn d = d := hok.rn_of_not_mem hd
  have hne : ∀ x ∈ vars, c.rn x ≠ d := fun x hx e =>
    (hok.rnBound x hx).2 (e ▸ mem_cons_self)
  refine ⟨fun x hx => ?_, fun x hx => ?_, h.holds.congr fun x hx => ?_, h.trace, h.faults⟩
  · rcases mem_cons.mp hx with rfl | hx
    · simp [State.bindBorrowed, hrn]
    · have hxd : x ≠ d := fun e => hd (e ▸ hx)
      simpa [State.bindBorrowed, hne x hx, hxd] using h.values x hx
  · rcases mem_cons.mp hx with rfl | hx
    · exact Or.inr (by simp [State.refs, State.bindBorrowed, hrn])
    · simpa [State.refs, State.bindBorrowed, hne x hx] using h.safe x hx
  · have hxd : x ≠ d := fun e => (hok.owned_bound hx).2 (e ▸ mem_cons_self)
    simp [State.refs, State.bindBorrowed, hxd]

/-- An owned result is bound on both sides and joins the frame. -/
theorem Related.bindOwned (h : Related c vars st1 st2) (hok : c.Ok vars n (d :: dests)) (v : V) :
    Related (c.own d) (d :: vars) (st1.bindOwned d v) (st2.bindOwned d v) := by
  have hd : d ∉ vars := hok.dest_not_mem mem_cons_self
  have hrn : c.rn d = d := hok.rn_of_not_mem hd
  have hne : ∀ x ∈ vars, c.rn x ≠ d := fun x hx e =>
    (hok.rnBound x hx).2 (e ▸ mem_cons_self)
  have howned := Ctx.owned_own hok.frames d
  refine ⟨fun x hx => ?_, fun x hx => ?_, ?_, h.trace, h.faults⟩
  · rcases mem_cons.mp hx with rfl | hx
    · simp [State.bindOwned, hrn]
    · have hxd : x ≠ d := fun e => hd (e ▸ hx)
      simpa [State.bindOwned, hne x hx, hxd] using h.values x hx
  · rw [howned]
    rcases mem_cons.mp hx with rfl | hx
    · exact Or.inl (by simp [hrn])
    · refine (h.safe x hx).imp (mem_cons_of_mem _) fun hn => ?_
      simpa [State.refs, State.bindOwned, hne x hx] using hn
  · rw [howned]
    refine h.holds.acquire (by simp [State.refs, State.bindOwned]) fun x hx => ?_
    have hxd : x ≠ d := fun e => (hok.owned_bound hx).2 (e ▸ mem_cons_self)
    simp [State.refs, State.bindOwned, hxd]

/-- A borrowed result retained under a fresh name, which joins the frame. -/
theorem Related.retain (h : Related c (d :: vars) st1 st2) (hok : c.Ok vars n (d :: dests))
    (hsafe : st1.refs d = none) : Related ((c.retain d n).own n) (d :: vars) (st1.dup d n) st2 := by
  have hd : d ∉ vars := hok.dest_not_mem mem_cons_self
  have hrn : c.rn d = d := hok.rn_of_not_mem hd
  have hfresh : n ∉ c.owned := fun hm => Nat.lt_irrefl n (hok.owned_bound hm).1
  obtain ⟨hholds, hfaults, htrace, hvalue, henv⟩ :=
    State.dup_holds h.holds (Or.inr hsafe : d ∈ c.owned ∨ st1.refs d = none) hfresh
  have howned : ((c.retain d n).own n).owned = n :: c.owned :=
    Ctx.owned_own (c := c.retain d n) hok.frames n
  have hrn' : ∀ x, ((c.retain d n).own n).rn x = if x = d then n else c.rn x := fun x => by
    rw [Ctx.rn_own, Ctx.rn_retain]
  refine ⟨fun x hx => ?_, fun x hx => ?_, ?_, htrace.trans h.trace, hfaults.trans h.faults⟩
  · rw [hrn']
    by_cases hxd : x = d
    · rw [if_pos hxd, hvalue, hxd]
      have := h.values d mem_cons_self
      rwa [hrn] at this
    · rw [if_neg hxd, henv _ (Nat.ne_of_lt (hok.rnBound x
        ((mem_cons.mp hx).resolve_left hxd)).1)]
      exact h.values x hx
  · rw [hrn', howned]
    by_cases hxd : x = d
    · exact Or.inl (by simp [hxd])
    · have hlt := (hok.rnBound x ((mem_cons.mp hx).resolve_left hxd)).1
      rw [if_neg hxd, State.refs, henv _ hlt.ne]
      exact (h.safe x hx).imp (mem_cons_of_mem _) id
  · rw [howned]
    exact hholds

theorem Emits.le (h : Emits result ownership c n body out n') : n ≤ n' := by
  induction h with
  | nil => exact le_rfl
  | callPlain _ _ hargs _ ih | callOwned _ _ hargs _ ih => exact hargs.le.trans ih
  | callRetained _ _ hargs _ ih => exact hargs.le.trans (Nat.le_of_succ_le ih)
  | scope _ _ ihb ih | ifThen _ _ ihb ih | block _ _ ihb ih | loop _ _ ihb ih =>
    exact ihb.trans ih
  | ifElse _ _ _ iht ihe ih => exact iht.trans (ihe.trans ih)
  | returnOwned _ _ ih | throwSome _ ih => exact Nat.le_of_succ_le ih
  | use _ ih | opaqueWork _ ih | break_ _ _ _ _ ih | continue_ _ _ _ _ _ ih | returnNone _ ih
  | returnBorrowed _ _ _ ih | throwNone _ ih => exact ih

/-- The simulation claim for one statement list at one point of the emission. -/
def Simulates (c : Ctx) (n : HandleId) (body out : List HandleStmt) : Prop :=
  ∀ ⦃vars : List HandleId⦄ ⦃st1 st2 : State V⦄, LexicallyScoped vars body →
    c.Ok vars n (destinations body) → Related c vars st1 st2 →
    Sim c n (destinations body) st1 st2 (execStmts ownership result engine fuel out st1)
      (execStmts ownership result engine fuel body st2)

variable {ownership result engine fuel}

/-- One statement in place, then the rest of the list. -/
theorem Simulates.seq {s : HandleStmt} {ds : List HandleId}
    (ih : Simulates ownership result engine fuel c n' rest out)
    (hds : (walkStmt s).flatMap destination = ds) (hok : c.Ok vars n (destinations (s :: rest)))
    (hr : Related c vars st1 st2) (hl : LexicallyScoped vars rest) (hn : n ≤ n')
    (hstep : c.Ok vars n ds → Sim c n ds st1 st2 r1 r2) :
    Sim c n (destinations (s :: rest)) st1 st2
      (andThen r1 (execStmts ownership result engine fuel out))
      (andThen r2 (execStmts ownership result engine fuel rest)) := by
  rw [destinations_cons, hds] at hok ⊢
  have hokd := hok.mono .refl (sublist_append_left _ _)
  have h := hstep hokd
  exact h.andThen hn fun hf =>
    ih hl (hok.mono hn (sublist_append_right _ _)) (h.related hr hokd hf)

/-- The releases in front of a statement that leaves and touches nothing that is left. -/
theorem Simulates.release {released kept : List HandleId} {reason : FreeReason}
    {s s' : HandleStmt} {o : Outcome V} {e : Event V}
    (ih : Simulates ownership result engine fuel c n rest out)
    (hds : (walkStmt s).flatMap destination = []) (hok : c.Ok vars n (destinations (s :: rest)))
    (hr : Related c vars st1 st2) (hl : LexicallyScoped vars rest)
    (hheld : c.owned = released ++ kept)
    (hs' : ∀ st : State V, st.env = st1.env → Holds st.refs kept st.ledger →
      execStmt ownership result engine fuel s' st = (o, st.emit e))
    (hs : execStmt ownership result engine fuel s st2 = (o, st2'))
    (ht : st2'.trace = e :: st2.trace) (he : st2'.env = st2.env)
    (howned : ∀ st : State V, Holds st.refs kept st.ledger → StillOwned c o st) :
    Sim c n (destinations (s :: rest)) st1 st2
      (execStmts ownership result engine fuel
        ((released.map fun h => .free h reason) ++ s' :: out) st1)
      (execStmts ownership result engine fuel (s :: rest) st2) := by
  obtain ⟨hholds, hfaults, htrace, henv⟩ := State.settleAll_holds released
    (hheld ▸ hr.holds : Holds st1.refs (released ++ kept) st1.ledger)
  rw [execStmts_frees, execStmts_cons, execStmts_cons, hs' _ henv hholds, hs]
  exact ih.seq hds hok hr hl .refl fun _ =>
    ⟨rfl, (congrArg (e :: ·) (htrace.trans hr.trace)).trans ht.symm, hfaults.trans hr.faults,
      howned _ hholds, fun x _ _ => congrFun henv x, fun x _ => congrFun he x⟩

/-- A call simulates when the rest does from the states with the result bound. -/
theorem EmitsArgs.sim_call {dest : Option HandleId} {binding : Bool}
    (h : EmitsArgs c n args own.args dups args' n') (hown : ownership callee = some own)
    (hok : c.Ok vars n (dest.toList ++ destinations rest)) (hr : Related c vars st1 st2)
    (ha : ∀ x, some x ∈ args → x ∈ vars)
    (hrest : ∀ (s1 s2 : State V) (v : V), Related c vars s1 s2 →
      Sim c n' (dest.toList ++ destinations rest) s1 s2
      (execStmts ownership result engine fuel out (s1.bindResult own.result dest v))
      (execStmts ownership result engine fuel rest (s2.bindResult own.result dest v))) :
    Sim c n (dest.toList ++ destinations rest) st1 st2
      (execStmts ownership result engine fuel (dups ++ .call callee args' dest binding :: out) st1)
      (execStmts ownership result engine fuel (.call callee args dest binding :: rest) st2) := by
  obtain ⟨raised, v, s1, s2, he1, he2, hrel, henv₁, henv₂⟩ :=
    h.exec_call ownership result engine fuel hown hok hr ha dest binding out rest
  rw [he1, he2]
  have hkeep1 : ∀ x < n, x ∉ dest.toList ++ destinations rest → s1.env x = st1.env x :=
    fun x hx _ => henv₁ x hx
  have hkeep2 : ∀ x, x ∉ dest.toList ++ destinations rest → s2.env x = st2.env x :=
    fun x _ => congrFun henv₂ x
  cases raised with
  | true => exact Sim.ofRelated hrel hrel.holds hkeep1 hkeep2
  | false => exact (hrest s1 s2 v hrel).rebase h.le (List.Subset.refl _) hkeep1 hkeep2

/-- The rest behind a call whose result is owned, and released at the end. -/
theorem Simulates.owning (ih : Simulates ownership result engine fuel (c.own d) n rest out)
    (hl : LexicallyScoped (d :: vars) rest) (hok : c.Ok vars n (d :: destinations rest))
    (hr : Related c vars st1 st2) (v : V) :
    Sim c n (d :: destinations rest) st1 st2
      (execStmts ownership result engine fuel (wrap ownership d out) (st1.bindOwned d v))
      (execStmts ownership result engine fuel rest (st2.bindOwned d v)) := by
  have hin : ∃ x ∈ d :: vars, c.rn x = d :=
    ⟨d, mem_cons_self, hok.rn_of_not_mem (hok.dest_not_mem mem_cons_self)⟩
  rw [execStmts_wrap]
  refine Sim.settleExit ?_ hok.frames
  refine (ih hl (hok.bind.own hin) (hr.bindOwned hok v)).rebase .refl (subset_cons_self _ _)
    (fun x _ hx => ?_) fun x hx => ?_
  all_goals
    have hxd : x ≠ d := fun e => hx (e ▸ mem_cons_self)
    simp [State.bindOwned, hxd]

/-- The rest behind a call whose result is borrowed and retained. -/
theorem Simulates.retaining
    (ih : Simulates ownership result engine fuel ((c.retain d n).own n) (n + 1) rest out)
    (hl : LexicallyScoped (d :: vars) rest) (hok : c.Ok vars n (d :: destinations rest))
    (hr : Related c vars st1 st2) (v : V) :
    Sim c n (d :: destinations rest) st1 st2
      (execStmts ownership result engine fuel (.dup d n .retainBorrowed :: wrap ownership n out)
        (st1.bindBorrowed d v))
      (execStmts ownership result engine fuel rest (st2.bindBorrowed d v)) := by
  have hsafe : (st1.bindBorrowed d v).refs d = none := by simp [State.refs, State.bindBorrowed]
  have hdup := (hr.bindBorrowed hok v).retain hok hsafe
  rw [execStmts_cons, execStmt, andThen_fall, execStmts_wrap]
  refine Sim.settleExit ?_ hok.frames
  have hsim := ih hl hok.retain hdup
  refine ⟨hsim.outcome, hsim.trace, hsim.faults, hsim.owned, fun x hx hd => ?_, fun x hd => ?_⟩
  · have hxd : x ≠ d := fun e => hd (e ▸ mem_cons_self)
    rw [hsim.env₁ x (Nat.lt_succ_of_lt hx) fun hm => hd (mem_cons_of_mem _ hm)]
    simp [State.dup, State.touch, State.bindOwned, State.bindBorrowed, hxd, hx.ne]
  · have hxd : x ≠ d := fun e => hd (e ▸ mem_cons_self)
    rw [hsim.env₂ x fun hm => hd (mem_cons_of_mem _ hm)]
    simp [State.bindBorrowed, hxd]

/-- **What the pass emits simulates its input.** -/
theorem Emits.simulates (h : Emits result ownership c n body out n') :
    Simulates ownership result engine fuel c n body out := by
  induction h with
  | nil c n =>
    exact fun vars st1 st2 _ _ hr => Sim.ofRelated hr hr.holds (fun _ _ _ => rfl) fun _ _ => rfl
  | @callPlain c n callee args dest binding rest own dups args' n1 out n' hown hres hargs hrest ih =>
    intro vars st1 st2 hl hok hr
    refine hargs.sim_call hown hok hr hl.1 fun s1 s2 v hrel => ?_
    have hbound : ∀ s : State V, s.bindResult own.result dest v =
        match dest with | none => s | some d => s.bindBorrowed d v := fun s => by
      cases hown : own.result <;> cases dest <;> first | rfl | exact absurd hown hres
    rw [hbound, hbound]
    cases dest with
    | none => exact ih hl.2 (hok.mono hargs.le (List.Sublist.refl _)) hrel
    | some d =>
      have hok' := hok.mono hargs.le (List.Sublist.refl _)
      refine (ih hl.2 hok'.bind (hrel.bindBorrowed hok' v)).rebase .refl
        (subset_cons_self _ _) (fun x _ hx => ?_) fun x hx => ?_
      all_goals
        have hxd : x ≠ d := fun e => hx (e ▸ mem_cons_self)
        simp [State.bindBorrowed, hxd]
  | @callOwned c n callee args d binding rest own dups args' n1 out n' hown hres hargs hrest ih =>
    intro vars st1 st2 hl hok hr
    have hokd : c.Ok vars n ((some d).toList ++ destinations rest) := hok
    refine hargs.sim_call hown hokd hr hl.1 fun s1 s2 v hrel => ?_
    rw [hres]
    exact ih.owning hl.2 (hok.mono hargs.le (List.Sublist.refl _)) hrel v
  | @callRetained c n callee args d binding rest own dups args' n1 out n' hown hres hargs hrest
      ih =>
    intro vars st1 st2 hl hok hr
    have hokd : c.Ok vars n ((some d).toList ++ destinations rest) := hok
    refine hargs.sim_call hown hokd hr hl.1 fun s1 s2 v hrel => ?_
    rw [hres]
    exact ih.retaining hl.2 (hok.mono hargs.le (List.Sublist.refl _)) hrel v
  | @use c n value rest out n' hrest ih =>
    intro vars st1 st2 hl hok hr
    have hvalue : value ∈ vars := hl.1
    refine ih.seq rfl hok hr hl.2 .refl fun _ => ?_
    rw [execStmt, execStmt, State.touch_of_safe hr.holds (hr.safe value hvalue),
      hr.values value hvalue]
    have hrel : Related c vars st1 (st2.touch value) :=
      hr.transport hok (fun _ _ _ => rfl) (fun _ _ => rfl) hr.holds hr.trace hr.faults
    exact Sim.ofRelated (hrel.emit _) hr.holds (fun _ _ _ => rfl) fun _ _ => rfl
  | @opaqueWork c n throws rest out n' hrest ih =>
    intro vars st1 st2 hl hok hr
    refine ih.seq rfl hok hr hl.2 .refl fun _ => ?_
    rw [execStmt, execStmt, hr.trace]
    generalize (throws && engine.raises st2.trace) = raised
    have hrel := hr.emit (.work raised)
    cases raised with
    | true | false => exact Sim.ofRelated hrel hr.holds (fun _ _ _ => rfl) fun _ _ => rfl
  | @scope c n body rest body' n1 out n' hbody hrest ihb ih =>
    intro vars st1 st2 hl hok hr
    exact ih.seq rfl hok hr hl.2 hbody.le fun hokb =>
      (ihb hl.1 (hokb.push _ _) (hr.push _ _)).pop
  | @block c n label body rest body' n1 out n' hbody hrest ihb ih =>
    intro vars st1 st2 hl hok hr
    exact ih.seq rfl hok hr hl.2 hbody.le fun hokb =>
      (ihb hl.1 (hokb.push _ _) (hr.push _ _)).leaveBlock
  | @loop c n label body rest body' n1 out n' hbody hrest ihb ih =>
    intro vars st1 st2 hl hok hr
    exact ih.seq rfl hok hr hl.2 hbody.le fun hokb =>
      Sim.iterate hokb (fun s1 s2 hs => ihb hl.1 (hokb.push _ _) (hs.push _ _)) fuel st1 st2 hr
  | @ifThen c n then_ rest then' n1 out n' hthen hrest iht ih =>
    intro vars st1 st2 hl hok hr
    have hds : (walkStmt (.if_ then_ none)).flatMap destination = destinations then_ := by
      simp [walkStmt, walkElse, destination, destinations]
    refine ih.seq hds hok hr hl.2 hthen.le fun hokt => ?_
    rw [execStmt, execStmt, hr.trace]
    generalize engine.takes st2.trace = taken
    have hrel := hr.emit (.branch taken)
    cases taken with
    | true =>
      exact (iht hl.1.1 (hokt.push _ _) (hrel.push _ _)).pop.rebase .refl
        (List.Subset.refl _) (fun _ _ _ => rfl) fun _ _ => rfl
    | false => exact Sim.ofRelated hrel hr.holds (fun _ _ _ => rfl) fun _ _ => rfl
  | @ifElse c n then_ else_ rest then' n1 else' n2 out n' hthen helse hrest iht ihe ih =>
    intro vars st1 st2 hl hok hr
    have hds : (walkStmt (.if_ then_ (some else_))).flatMap destination =
        destinations then_ ++ destinations else_ := by
      simp [walkStmt, walkElse, destination, destinations]
    refine ih.seq hds hok hr hl.2 (hthen.le.trans helse.le) fun hokb => ?_
    rw [execStmt, execStmt, hr.trace]
    generalize engine.takes st2.trace = taken
    have hrel := hr.emit (.branch taken)
    cases taken with
    | true =>
      exact (iht hl.1.1 ((hokb.mono .refl (sublist_append_left _ _)).push _ _)
        (hrel.push _ _)).pop.rebase .refl (subset_append_left _ _)
        (fun _ _ _ => rfl) fun _ _ => rfl
    | false =>
      exact (ihe hl.1.2 ((hokb.mono hthen.le (sublist_append_right _ _)).push _ _)
        (hrel.push _ _)).pop.rebase hthen.le (subset_append_right _ _)
        (fun _ _ _ => rfl) fun _ _ => rfl
  | @break_ c n label frame outside rest out n' released htarget hreleased hrest ih =>
    intro vars st1 st2 hl hok hr
    exact ih.release rfl hok hr hl.2 hreleased (fun _ _ _ => rfl) rfl rfl rfl
      fun _ hh => ⟨frame, outside, htarget, hh⟩
  | @continue_ c n label frame outside rest out n' released htarget hloop hreleased hrest ih =>
    intro vars st1 st2 hl hok hr
    exact ih.release rfl hok hr hl.2 hreleased (fun _ _ _ => rfl) rfl rfl rfl
      fun _ hh => ⟨frame, outside, htarget, hloop, hh⟩
  | @returnNone c n rest out n' hrest ih =>
    intro vars st1 st2 hl hok hr
    exact ih.release rfl hok hr hl.2 (append_nil _).symm (fun _ _ _ => rfl) rfl rfl rfl
      fun _ hh => hh
  | @returnOwned c n value rest out n' hres hrest ih =>
    intro vars st1 st2 hl hok hr
    have hvalue : value ∈ vars := hl.1 value rfl
    have hfresh : n ∉ c.owned := fun hm => Nat.lt_irrefl n (hok.owned_bound hm).1
    obtain ⟨hh1, hf1, ht1, hv1, he1⟩ := State.dup_holds hr.holds (hr.safe value hvalue) hfresh
    obtain ⟨hh2, hf2, ht2, he2⟩ := State.settleAll_holds c.owned
      (hh1.perm (perm_append_singleton n c.owned).symm)
    obtain ⟨hh3, hf3⟩ := Holds.settle (n := n) hh2
    rw [execStmts_cons, execStmt, andThen_fall, execStmts_frees]
    refine ih.seq rfl hok hr hl.2 (Nat.le_succ n) fun _ => ?_
    rw [execStmt, execStmt, execReturn, execReturn]
    simp only [hres, if_true, map_some, he2, hv1, hr.values value hvalue]
    refine ⟨rfl, ?_, hf3.trans (hf2.trans (hf1.trans hr.faults)), hh3, fun x hx _ => ?_,
      fun _ _ => rfl⟩
    · exact congrArg (Event.return_ (some _) :: ·) (ht2.trans (ht1.trans hr.trace))
    · exact (congrFun he2 x).trans (he1 x hx.ne)
  | @returnBorrowed c n value rest out n' hres hvalueOwned hrest ih =>
    intro vars st1 st2 hl hok hr
    have hvalue : value ∈ vars := hl.1 value rfl
    have hnone : st1.refs (c.rn value) = none := (hr.safe value hvalue).resolve_left hvalueOwned
    refine ih.release (o := .return_ (some (st2.env value).value))
      (e := .return_ (some (st2.env value).value)) rfl hok hr hl.2
      (append_nil _).symm (fun st henv hh => ?_) rfl ?_ ?_ fun _ hh => hh
    · have htouch : (st.emit (.return_ (some (st2.env value).value))).touch (c.rn value) =
          st.emit (.return_ (some (st2.env value).value)) :=
        State.touch_of_safe hh (Or.inr (by rw [State.refs, State.emit, henv]; exact hnone))
      rw [execStmt, execReturn]
      simp [hres, henv, hr.values value hvalue, htouch]
    all_goals simp only [hres, if_false]; rfl
  | @throwNone c n rest out n' hrest ih =>
    intro vars st1 st2 hl hok hr
    exact ih.seq rfl hok hr hl.2 .refl fun _ =>
      Sim.ofRelated (hr.emit _) hr.holds (fun _ _ _ => rfl) fun _ _ => rfl
  | @throwSome c n value rest out n' hrest ih =>
    intro vars st1 st2 hl hok hr
    have hvalue : value ∈ vars := hl.1 value rfl
    have hfresh : n ∉ c.owned := fun hm => Nat.lt_irrefl n (hok.owned_bound hm).1
    obtain ⟨hh1, hf1, ht1, hv1, he1⟩ := State.dup_holds hr.holds (hr.safe value hvalue) hfresh
    obtain ⟨hh2, hf2⟩ := Holds.settle (n := n) hh1
    rw [execStmts_cons, execStmt, andThen_fall]
    refine ih.seq rfl hok hr hl.2 (Nat.le_succ n) fun _ => ?_
    rw [execStmt, execStmt, execThrow, execThrow]
    simp only [map_some, hv1, hr.values value hvalue]
    refine ⟨rfl, ?_, hf2.trans (hf1.trans hr.faults), hh2, fun x hx _ => he1 x hx.ne,
      fun _ _ => rfl⟩
    exact congrArg (Event.throw_ (some _) :: ·) (ht1.trans hr.trace)

end

end Js2Wasm.Refcount
