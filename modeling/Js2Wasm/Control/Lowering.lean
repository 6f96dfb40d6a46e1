import Js2Wasm.Control.Wasm

/-! # Emission of control instructions

`emitInstrTree` on the control instructions.  The emitter keeps a stack of the enclosing
frames, one for each label of the emitted code, innermost first here.  A `br.label` finds its
frame in it and emits what every frame on the way has to run: a copy of the `finally`, the
close of the iterator.  The counter is the next free local.

`Performs code s r s' raised c`: from the world `s`, under any labels and from any values of
the locals, the code ends with `r` in the world `s'`.  Of the flags below `c` it raises
`raised` and keeps the others; the locals from `c` on are its own.  If it falls through, the
operands are as before.
-/
namespace Js2Wasm.Control

inductive CtrlFrame where
  | break_ (label : Nat) (iterCloseSlot : Option Nat)
  | continue_ (label : Nat)
  | plain (finallyBody : Option (List Instr)) (iterCloseSlot finallyRanSlot : Option Nat)

namespace CtrlFrame

def matches_ (label : Nat) (mode : Mode) : CtrlFrame → Bool
  | break_ l _ => decide (l = label ∧ mode = .break_)
  | continue_ l => decide (l = label ∧ mode = .continue_)
  | plain _ _ _ => false

/-- Crossing out of a `forof.iter` closes its iterator. -/
def close : CtrlFrame → List Code
  | break_ _ (some iter) | plain _ (some iter) _ => [.iterReturn iter]
  | _ => []

end CtrlFrame

/-- How the emitter calls itself on a buffer. -/
abbrev Emit := List CtrlFrame → List Instr → Nat → Option (List Code × Nat)

section
variable (emit : Emit)

/-- What a jump emits for a frame it crosses; `inner` are the frames inside it.  A `finally`
never runs itself again: its frame is masked, but only its own. -/
def emitCrossed (inner : List CtrlFrame) (frame : CtrlFrame) (outer : List CtrlFrame) (c : Nat) :
    Option (List Code × Nat) :=
  match frame with
  | .plain (some finallyBody) iterCloseSlot finallyRanSlot =>
    (emit (inner ++ .plain none iterCloseSlot finallyRanSlot :: outer) finallyBody c).map
      fun (code, c) => ((finallyRanSlot.elim [] fun slot => [.setFlag slot true]) ++ code, c)
  | _ => some ([], c)

/-- Scan the stack from the innermost frame; `inner` are the frames already crossed. -/
def resolveBrLabel (label : Nat) (mode : Mode) (inner : List CtrlFrame) :
    List CtrlFrame → Nat → Option (List Code × Nat)
  | [], _ => none
  | frame :: outer, c =>
    if frame.matches_ label mode then some ([.br inner.length], c)
    else
      (emitCrossed emit inner frame outer c).bind fun (crossed, c) =>
        (resolveBrLabel label mode (inner ++ [frame]) outer c).map fun (rest, c) =>
          (crossed ++ frame.close ++ rest, c)

/-! ### Loops -/

/-- A `for` or `do` loop whose body continues it needs a block around the body. -/
def needsContinueBlock (kind : LoopKind) (loopLabel : Option Nat) (body : List Instr) : Bool :=
  match kind, loopLabel with
  | .while_, _ | _, none => false
  | _, some label => bufferHasBrLabel label .continue_ body

def loopFrames (kind : LoopKind) (loopLabel : Option Nat) (continueBlock : Bool) :
    List CtrlFrame :=
  match loopLabel with
  | none => [.plain none none none, .plain none none none]
  | some label =>
    (if continueBlock then [.continue_ label] else []) ++
      [if kind = .while_ then .continue_ label else .plain none none none, .break_ label none]

/-- The condition buffer and the exit test. -/
def emitTest (cond : List Nat) (condValue : Nat) : List Code :=
  cond.map .effect ++ [.brIfNot condValue 1]

def emitLoop (kind : LoopKind) (cond : List Nat) (condValue : Nat) (update : List Nat)
    (body : List Code) : List Code :=
  match kind with
  | .while_ => emitTest cond condValue ++ body ++ [.br 0]
  | .doWhile => body ++ emitTest cond condValue ++ [.br 0]
  | .for_ => emitTest cond condValue ++ body ++ update.map .effect ++ [.br 0]

def iterFrames (iter : Nat) : Option Nat → List CtrlFrame
  | none => [.plain none none none, .plain none (some iter) none]
  | some label => [.continue_ label, .break_ label (some iter)]

/-! ### Switch -/

/-- The dispatch: a comparison for each clause with a test, in source order. -/
def emitDispatch (disc : Nat) (tests : Nat → Option Nat) (noMatchDepth : Nat) (clauses : List Nat) :
    List Code :=
  (clauses.filterMap fun k => (tests k).map (.brIfEq disc · k)) ++ [.br noMatchDepth]

/-- The ladder around the dispatch: every body sits behind the block of its clause. -/
def emitBodies (ctrlStack : List CtrlFrame) (breakLabel : Nat) :
    List (List Instr) → List Code → Nat → Option (List Code × Nat)
  | [], cur, c => some (cur, c)
  | body :: rest, cur, c =>
    (emit (List.replicate rest.length (.plain none none none) ++
        .break_ breakLabel none :: ctrlStack) body c).bind fun (code, c) =>
      emitBodies ctrlStack breakLabel rest (.block cur :: code) c

/-! ### Try -/

/-- The `finally` of a handler, skipped when it has run. -/
def emitGuardedFinally (ctrlStack : List CtrlFrame) (finallyRanSlot : Nat)
    (finallyBody : List Instr) (c : Nat) : Option (List Code × Nat) :=
  (emit (.plain none none none :: ctrlStack) finallyBody c).map fun (code, c) =>
    ([.ifFlag finallyRanSlot [] code, .rethrow 0], c)

def bindPayload : Option Nat → Code
  | some slot => .bindTop slot
  | none => .dropTop

/-- The handler of a `catch` under a `finally`. -/
def emitCatch (ctrlStack : List CtrlFrame) (finallyRanSlot : Nat) (catchBody : List Instr)
    (payloadSlot : Option Nat) (finallyBody : List Instr) (c : Nat) : Option (List Code × Nat) :=
  let pending := c
  let tryFrame := .plain none none (some finallyRanSlot)
  let innerFrame := .plain (some finallyBody) none (some finallyRanSlot)
  (emit (innerFrame :: tryFrame :: ctrlStack) catchBody (c + 1)).bind fun (innerBody, c) =>
  (emitGuardedFinally emit (tryFrame :: tryFrame :: ctrlStack) finallyRanSlot finallyBody c).bind
    fun (innerCatchAll, c) =>
  (emit (tryFrame :: ctrlStack) finallyBody c).map fun (exit, c) =>
    (.popPending pending :: .ifFlag finallyRanSlot [.pushPending pending, .throwTop] [] ::
      .pushPending pending :: bindPayload payloadSlot ::
      .try_ innerBody none (some innerCatchAll) :: exit, c)

def emitHandler (ctrlStack : List CtrlFrame) (finallyRanSlot : Nat) (payloadSlot : Option Nat)
    (finallyBody : List Instr) : Option (List Instr) → Nat → Option (Option (List Code) × Nat)
  | none, c => some (none, c)
  | some catchBody, c =>
    (emitCatch emit ctrlStack finallyRanSlot catchBody payloadSlot finallyBody c).map
      fun (handler, c) => (some handler, c)

def emitTry (ctrlStack : List CtrlFrame) (body : List Instr) (catchBody : Option (List Instr))
    (payloadSlot : Option Nat) (finallyBody : Option (List Instr)) (c : Nat) :
    Option (List Code × Nat) :=
  match finallyBody, catchBody with
  | none, none =>
    (emit (.plain none none none :: ctrlStack) body c).map fun (tryBody, c) =>
      ([.try_ tryBody none none], c)
  | none, some catchBody =>
    (emit (.plain none none none :: ctrlStack) body c).bind fun (tryBody, c) =>
    (emit (.plain none none none :: ctrlStack) catchBody c).map fun (handler, c) =>
      ([.try_ tryBody (some (bindPayload payloadSlot :: handler)) none], c)
  | some finallyBody, catchBody =>
    let finallyRanSlot := c
    let tryFrame := .plain none none (some finallyRanSlot)
    (emit (.plain (some finallyBody) none (some finallyRanSlot) :: ctrlStack) body (c + 1)).bind
      fun (tryBody, c) =>
    (emit (tryFrame :: ctrlStack) finallyBody c).bind fun (exit, c) =>
    (emitHandler emit ctrlStack finallyRanSlot payloadSlot finallyBody catchBody c).bind
      fun (handler, c) =>
    (emitGuardedFinally emit (tryFrame :: ctrlStack) finallyRanSlot finallyBody c).map
      fun (catchAll, c) =>
        ([.try_ (.setFlag finallyRanSlot false ::
          (tryBody ++ .setFlag finallyRanSlot true :: exit)) handler (some catchAll)], c)

/-! ### Instructions -/

def emitInstr (ctrlStack : List CtrlFrame) (c : Nat) : Instr → Option (List Code × Nat)
  | .effect e => some ([.effect e], c)
  | .throw_ value => some ([.throw_ value], c)
  | .brLabel label mode => resolveBrLabel emit label mode [] ctrlStack c
  | .ifStmt cond then_ els =>
    (emit (.plain none none none :: ctrlStack) then_ c).bind fun (thenBody, c) =>
    (emit (.plain none none none :: ctrlStack) els c).map fun (elseBody, c) =>
      ([.if_ cond thenBody elseBody], c)
  | .labeledBlock label body =>
    (emit (.break_ label none :: ctrlStack) body c).map fun (code, c) => ([.block code], c)
  | .loop kind cond condValue body update loopLabel =>
    let continueBlock := needsContinueBlock kind loopLabel body
    (emit (loopFrames kind loopLabel continueBlock ++ ctrlStack) body c).map fun (code, c) =>
      ([.block [.loop (emitLoop kind cond condValue update
        (if continueBlock then [.block code] else code))]], c)
  | .forofIter iter body loopLabel =>
    (emit (iterFrames iter loopLabel ++ ctrlStack) body c).map fun (code, c) =>
      ([.iterOpen iter, .block [.loop (.iterNext iter 1 :: (code ++ [.br 0]))],
        .iterReturn iter], c)
  | .switch disc tests bodies breakLabel =>
    let n := bodies.length
    if bodies = [] then some ([.evalDisc disc], c)
    else
      (emitBodies emit ctrlStack breakLabel bodies
        (emitDispatch disc tests (noMatchDepth tests n) (List.range n)) c).map
        fun (cur, c) => ([.evalDisc disc, .block cur], c)
  | .try_ body catchBody payloadSlot finallyBody =>
    emitTry emit ctrlStack body catchBody payloadSlot finallyBody c

end

/-- `emitBufferAsStatements`, given fuel. -/
def emitInstrs : Nat → Emit
  | 0, _, _, _ => none
  | _ + 1, _, [], c => some ([], c)
  | fuel + 1, ctrlStack, i :: rest, c =>
    (emitInstr (emitInstrs fuel) ctrlStack c i).bind fun (code, c) =>
    (emitInstrs fuel ctrlStack rest c).map fun (code', c) => (code ++ code', c)

/-- The body of a function. -/
def lowerBody (body : List Instr) : Option (List Code) :=
  (emitInstrs (sizeAll body + 1) [] body 0).map Prod.fst

/-! ## What a piece of emitted code performs -/

namespace Res
variable {X : Type}

/-- Seen from one label further in. -/
def up : Res X → Res X
  | .br d => .br (d + 1)
  | r => r

/-- Seen from `n` labels further in. -/
def upBy (n : Nat) : Res X → Res X
  | .br d => .br (d + n)
  | r => r

/-- Past the end of a labelled construct. -/
def leave : Res X → Res X
  | .br 0 => .normal
  | .br (d + 1) => .br d
  | r => r

@[simp] theorem leave_up (r : Res X) : r.up.leave = r := by cases r <;> rfl

@[simp] theorem upBy_zero (r : Res X) : r.upBy 0 = r := by cases r <;> rfl

theorem upBy_up (n : Nat) (r : Res X) : (r.upBy n).up = r.upBy (n + 1) := by cases r <;> rfl

theorem up_upBy (n : Nat) (r : Res X) : r.up.upBy n = r.upBy (n + 1) := by
  cases r with
  | br d =>
    simp only [up, upBy]
    congr 1
    omega
  | _ => rfl

variable {r : Res X}

@[simp] theorem upBy_eq_normal {n : Nat} : r.upBy n = .normal ↔ r = .normal := by
  cases r <;> simp [upBy]

@[simp] theorem up_eq_normal : r.up = .normal ↔ r = .normal := by
  cases r <;> simp [up]

@[simp] theorem up_ne_br_zero : r.up ≠ .br 0 := by
  cases r <;> simp [up]

@[simp] theorem up_eq_throw {x : X} : r.up = .throw_ x ↔ r = .throw_ x := by
  cases r <;> simp [up]

end Res

section
variable {S X : Type}

theorem leave_fst (t : TState S X) (r : Res X) (t' : TState S X) :
    (leave t (r, t')).1 = r.leave := by
  cases r with
  | br d => cases d <;> rfl
  | _ => rfl

/-- How a state differs from the one before. -/
structure After (t : TState S X) (r : Res X) (s' : S) (raised : List Nat) (c : Nat)
    (t' : TState S X) : Prop where
  world : t'.world = s'
  flags : ∀ slot < c, t'.flags slot = (decide (slot ∈ raised) || t.flags slot)
  ops : r = .normal → t'.ops = t.ops

namespace After
variable {t t1 t' : TState S X} {r : Res X} {s' s1 : S} {raised raised' : List Nat} {c c' : Nat}

theorem trans (h1 : After t .normal s1 raised c t1) (h2 : After t1 r s' raised' c t') :
    After t r s' (raised ++ raised') c t' where
  world := h2.world
  flags slot hslot := by
    rw [h2.flags slot hslot, h1.flags slot hslot]
    by_cases hr : slot ∈ raised <;> by_cases hr' : slot ∈ raised' <;> simp [hr, hr']
  ops hr := (h2.ops hr).trans (h1.ops rfl)

theorem mono (h : After t r s' raised c t') (hc : c' ≤ c) : After t r s' raised c' t' :=
  ⟨h.world, fun slot hslot => h.flags slot (Nat.lt_of_lt_of_le hslot hc), h.ops⟩

theorem leave (h : After t r s' raised c t') :
    After t r.leave s' raised c (Control.leave t (r, t')).2 := by
  cases r with
  | normal => exact h
  | throw_ x => exact h
  | br d =>
    cases d with
    | zero => exact ⟨h.world, h.flags, fun _ => rfl⟩
    | succ d => exact ⟨h.world, h.flags, nofun⟩

end After

variable (w : World S X)

def Performs (code : List Code) (s : S) (r : Res X) (s' : S) (raised : List Nat) (c : Nat) :
    Prop :=
  ∀ labels t, t.world = s → ∃ t', Runs w labels code t r t' ∧ After t r s' raised c t'

variable {w}

namespace Performs
variable {code code' : List Code} {s s1 s' : S} {r : Res X} {raised raised' : List Nat}
  {c c' : Nat}

theorem mono (h : Performs w code s r s' raised c) (hc : c' ≤ c) :
    Performs w code s r s' raised c' := by
  intro labels t ht
  obtain ⟨t', hrun, hafter⟩ := h labels t ht
  exact ⟨t', hrun, hafter.mono hc⟩

theorem nil : Performs w [] s .normal s [] c := by
  intro labels t ht
  exact ⟨t, Runs.nil, ht, fun _ _ => rfl, fun _ => rfl⟩

/-- An instruction that touches the world only. -/
theorem single {i : Code} (h : ∀ run labels t, t.world = s →
    execInstr w run labels i t = some (r, { t with world := s' })) :
    Performs w [i] s r s' [] c := by
  intro labels t ht
  exact ⟨{ t with world := s' }, Runs.single ⟨0, h _ labels t ht⟩, rfl, fun _ _ => rfl,
    fun _ => rfl⟩

theorem append (h : Performs w code s .normal s1 raised c)
    (h' : Performs w code' s1 r s' raised' c) :
    Performs w (code ++ code') s r s' (raised ++ raised') c := by
  intro labels t ht
  obtain ⟨t1, hrun1, hafter1⟩ := h labels t ht
  obtain ⟨t', hrun, hafter⟩ := h' labels t1 hafter1.world
  exact ⟨t', hrun1.append hrun, hafter1.trans hafter⟩

theorem stop (h : Performs w code s r s' raised c) (hr : r ≠ .normal) :
    Performs w (code ++ code') s r s' raised c := by
  intro labels t ht
  obtain ⟨t', hrun, hafter⟩ := h labels t ht
  exact ⟨t', hrun.append_stop hr, hafter⟩

theorem br {d : Nat} : Performs w [.br d] s (.br d) s [] c := by
  apply single
  rintro run labels t rfl
  rfl

theorem setFlag {slot : Nat} : Performs w [.setFlag slot true] s .normal s [slot] c := by
  intro labels t ht
  refine ⟨{ t with flags := Function.update t.flags slot true }, Runs.single ⟨0, rfl⟩, ht, ?_,
    fun _ => rfl⟩
  intro slot' _
  by_cases h : slot' = slot <;> simp [h]

theorem block (h : Performs w code s r s' raised c) :
    Performs w [.block code] s r.leave s' raised c := by
  intro labels t ht
  obtain ⟨t', hrun, hafter⟩ := h (none :: labels) t ht
  refine ⟨_, Runs.single ?_, hafter.leave⟩
  rw [← leave_fst t r t']
  exact RunsI.block hrun

theorem if_ {cond : Nat} {then_ els : List Code}
    (h : Performs w (if w.test cond s then then_ else els) s r s' raised c) :
    Performs w [.if_ cond then_ els] s r.leave s' raised c := by
  rintro labels t rfl
  obtain ⟨t', hrun, hafter⟩ := h (none :: labels) t rfl
  refine ⟨_, Runs.single ?_, hafter.leave⟩
  rw [← leave_fst t r t']
  exact RunsI.if_ hrun

theorem loopAgain (h : Performs w code s (.br 0) s1 [] c)
    (h' : Performs w [.loop code] s1 r s' raised c) :
    Performs w [.loop code] s r s' raised c := by
  intro labels t ht
  obtain ⟨t1, hrun1, hafter1⟩ := h (none :: labels) t ht
  obtain ⟨t', hrun, hafter⟩ := h' labels { t1 with ops := t.ops } hafter1.world
  refine ⟨t', ?_, hafter.world, fun slot hslot => ?_, hafter.ops⟩
  · obtain ⟨n, hn⟩ := hrun
    cases n with
    | zero => exact nomatch hn
    | succ n =>
      rcases Runs.head ⟨n + 1, hn⟩ with ⟨t2, hi, hnil⟩ | ⟨-, hi⟩
      · obtain ⟨rfl, rfl⟩ := Runs.unique hnil Runs.nil
        exact Runs.single (RunsI.loopAgain hrun1 hi)
      · exact Runs.single (RunsI.loopAgain hrun1 hi)
  · rw [hafter.flags slot hslot]
    simp [hafter1.flags slot hslot]

theorem loopLeave (h : Performs w code s r s' raised c) (hr : r ≠ .br 0) :
    Performs w [.loop code] s r.leave s' raised c := by
  intro labels t ht
  obtain ⟨t', hrun, hafter⟩ := h (none :: labels) t ht
  refine ⟨_, Runs.single ?_, hafter.leave⟩
  rw [← leave_fst t r t']
  exact RunsI.loopLeave hrun hr

end Performs

/-! ### Tests -/

variable (w) in
/-- Code that falls through or leaves the loop around it, as a step of the loop says. -/
def Tests (code : List Code) (step : S → S × Except X Bool) (c : Nat) : Prop :=
  ∀ s, match step s with
    | (s', .ok true) => Performs w code s .normal s' [] c
    | (s', .ok false) => Performs w code s (.br 1) s' [] c
    | (s', .error x) => Performs w code s (.throw_ x) s' [] c

variable {code : List Code} {c e : Nat} {step : S → S × Except X Bool} {s' s : S} {x : X}

theorem Tests.goesOn (h : Tests w code step c) (hs : step s = (s', .ok true)) :
    Performs w code s .normal s' [] c := by
  have h := h s
  rwa [hs] at h

theorem Tests.exits (h : Tests w code step c) (hs : step s = (s', .ok false)) :
    Performs w code s (.br 1) s' [] c := by
  have h := h s
  rwa [hs] at h

theorem Tests.fails (h : Tests w code step c) (hs : step s = (s', .error x)) :
    Performs w code s (.throw_ x) s' [] c := by
  have h := h s
  rwa [hs] at h

theorem performs_effect (h : w.effect e s = (s', none)) :
    Performs w [.effect e] s .normal s' [] c := by
  apply Performs.single
  rintro run labels t rfl
  simp only [execInstr, h]

theorem performs_effect_throw (h : w.effect e s = (s', some x)) :
    Performs w [.effect e] s (.throw_ x) s' [] c := by
  apply Performs.single
  rintro run labels t rfl
  simp only [execInstr, h]

theorem performs_effects (c : Nat) (es : List Nat) (s : S) :
    match runEffects w es s with
    | (s', none) => Performs w (es.map .effect) s .normal s' [] c
    | (s', some x) => Performs w (es.map .effect) s (.throw_ x) s' [] c := by
  induction es generalizing s with
  | nil => exact Performs.nil
  | cons e es ih =>
    rw [runEffects]
    rcases he : w.effect e s with ⟨s1, _ | x⟩
    · simp only
      have ih := ih s1
      rcases hes : runEffects w es s1 with ⟨s', _ | x⟩ <;> rw [hes] at ih
      all_goals exact (performs_effect he).append ih
    · exact (performs_effect_throw he).stop (by rintro ⟨⟩)

theorem tests_nil : Tests w [] (fun s => (s, .ok true)) c :=
  fun _ => Performs.nil

theorem tests_emitTest {cond : List Nat} {condValue : Nat} :
    Tests w (emitTest cond condValue) (runTest w cond condValue) c := by
  intro s
  have h := performs_effects (w := w) c cond s
  rw [runTest, emitTest]
  rcases hes : runEffects w cond s with ⟨s', _ | x⟩ <;> rw [hes] at h
  · have hexit : Performs w [.brIfNot condValue 1] s'
        (if w.test condValue s' then .normal else .br 1) s' [] c := by
      apply Performs.single
      rintro run labels t rfl
      rfl
    simp only
    cases htest : w.test condValue s' with
    | true | false =>
      rw [htest] at hexit
      exact h.append hexit
  · exact h.stop nofun

theorem tests_update {update : List Nat} : Tests w (update.map .effect) (runUpdate w update) c := by
  intro s
  have h := performs_effects (w := w) c update s
  rw [runUpdate]
  rcases hes : runEffects w update s with ⟨s', _ | x⟩ <;> rw [hes] at h
  all_goals exact h

theorem tests_iterNext {iter : Nat} : Tests w [.iterNext iter 1] (iterOps w iter).enter c := by
  intro s
  have h : Performs w [.iterNext iter 1] s (if (w.iterNext iter s).2 then .br 1 else .normal)
      (w.iterNext iter s).1 [] c := by
    apply Performs.single
    rintro run labels t rfl
    rfl
  cases hdone : (w.iterNext iter s).2 with
  | true | false =>
    rw [hdone] at h
    simp only [iterOps, hdone]
    exact h

end

end Js2Wasm.Control
