import Mathlib.Data.List.Basic

/-! # Structured control with exceptions

Code made of basic instructions and the structured instructions of WebAssembly: `block`,
`loop`, `if`, `try … catch_all`, branches to an enclosing label by its depth, and `rethrow`.
Every structured instruction is one label; the label of a handler holds its exception.

A machine says what a basic instruction does to a state and how it completes, what a
condition is, and which state a branch leaves at its label.  `fuel` bounds how often an
entered loop is restarted, so that running is a structural recursion.
-/
namespace Structured

inductive Code (ι : Type) where
  | basic (i : ι)
  | if_ (then_ : List (Code ι)) (else_ : Option (List (Code ι)))
  | block (body : List (Code ι))
  | loop (body : List (Code ι))
  | try_ (body catchAll : List (Code ι))
  | br (depth : Nat)
  | rethrow (depth : Nat)

/-- How code completes. -/
inductive Res (χ : Type) where
  | normal
  | br (depth : Nat)
  | throw_ (x : χ)
  | return_
  | stuck
  | outOfFuel

structure Machine (ι σ χ : Type) where
  step : ι → σ → Res χ × σ
  /-- Pop a condition. -/
  test : σ → Option (Bool × σ)
  /-- The state at a label entered in the first state, for a branch out of the second. -/
  restore : σ → σ → σ

section
variable {ι σ χ : Type}

/-- Continue after code that completed normally. -/
def andThen (r : Res χ × σ) (rest : σ → Res χ × σ) : Res χ × σ :=
  match r with
  | (.normal, s) => rest s
  | r => r

namespace Machine
variable (m : Machine ι σ χ)

/-- Past the end of a label entered in state `s`. -/
def leave (s : σ) : Res χ × σ → Res χ × σ
  | (.br 0, s') => (.normal, m.restore s s')
  | (.br (d + 1), s') => (.br d, s')
  | r => r

/-- The arm that the condition selects. -/
def branch (s : σ) (then_ else_ : σ → Res χ × σ) : Res χ × σ :=
  match m.test s with
  | none => (.stuck, s)
  | some (true, s') => m.leave s' (then_ s')
  | some (false, s') => m.leave s' (else_ s')

/-- Run a loop body until it no longer branches to its start. -/
def restart (s : σ) (body : σ → Res χ × σ) : Nat → σ → Res χ × σ
  | 0, s' => (.outOfFuel, s')
  | fuel + 1, s' =>
    match body s' with
    | (.br 0, s'') => restart s body fuel (m.restore s s'')
    | r => m.leave s r

/-- An exception runs the handler. -/
def onThrow (s : σ) (r : Res χ × σ) (handler : χ → σ → Res χ × σ) : Res χ × σ :=
  match r with
  | (.throw_ x, s') => m.leave s (handler x (m.restore s s'))
  | r => m.leave s r

end Machine

/-- The exception of an enclosing handler. -/
def raiseFrom (s : σ) : Option (Option χ) → Res χ × σ
  | some (some x) => (.throw_ x, s)
  | _ => (.stuck, s)

variable (m : Machine ι σ χ) (fuel : Nat)

mutual

def runCode : Code ι → List (Option χ) → σ → Res χ × σ
  | .basic i, _, s => m.step i s
  | .if_ then_ else_, labels, s =>
    m.branch s (fun s' => run then_ (none :: labels) s') fun s' => runElse else_ (none :: labels) s'
  | .block body, labels, s => m.leave s (run body (none :: labels) s)
  | .loop body, labels, s => m.restart s (fun s' => run body (none :: labels) s') fuel s
  | .try_ body catchAll, labels, s =>
    m.onThrow s (run body (none :: labels) s) fun x s' => run catchAll (some x :: labels) s'
  | .br depth, _, s => (.br depth, s)
  | .rethrow depth, labels, s => raiseFrom s labels[depth]?

def runElse : Option (List (Code ι)) → List (Option χ) → σ → Res χ × σ
  | none, _, s => (.normal, s)
  | some body, labels, s => run body labels s

def run : List (Code ι) → List (Option χ) → σ → Res χ × σ
  | [], _, s => (.normal, s)
  | c :: rest, labels, s => andThen (runCode c labels s) fun s' => run rest labels s'

end

/-! ### Rules -/

variable {m fuel} {labels : List (Option χ)} {s s' : σ} {code rest : List (Code ι)} {i : ι}

variable {s0 : σ} {body : σ → Res χ × σ} {c : Code ι} {r : Res χ}

theorem Machine.restart_again {s'' : σ} (h : body s = (.br 0, s'')) :
    m.restart s0 body (fuel + 1) s = m.restart s0 body fuel (m.restore s0 s'') := by
  simp only [Machine.restart, h]

theorem Machine.restart_leave (h : (body s).1 ≠ .br 0) :
    m.restart s0 body (fuel + 1) s = m.leave s0 (body s) := by
  rw [Machine.restart]
  split
  · rename_i s'' hs
    rw [hs] at h
    exact absurd rfl h
  · rfl

theorem andThen_assoc (r : Res χ × σ) (f g : σ → Res χ × σ) :
    andThen (andThen r f) g = andThen r fun s => andThen (f s) g := by
  obtain ⟨r, s⟩ := r
  cases r <;> rfl

@[simp] theorem andThen_normal (f : σ → Res χ × σ) : andThen (.normal, s) f = f s := rfl

theorem andThen_stop (h : r ≠ .normal) (f : σ → Res χ × σ) : andThen (r, s) f = (r, s) := by
  cases r with
  | normal => exact absurd rfl h
  | _ => rfl

theorem run_append : run m fuel (code ++ rest) labels s =
    andThen (run m fuel code labels s) fun s' => run m fuel rest labels s' := by
  induction code generalizing s with
  | nil => rfl
  | cons c code ih =>
    rw [List.cons_append, run, run, andThen_assoc]
    congr 1
    funext s'
    exact ih

@[simp] theorem run_nil : run m fuel [] labels s = (.normal, s) := by rw [run]

theorem run_cons : run m fuel (c :: rest) labels s =
    andThen (runCode m fuel c labels s) fun s' => run m fuel rest labels s' := by rw [run]

theorem run_single : run m fuel [c] labels s = runCode m fuel c labels s := by
  rw [run_cons]
  obtain ⟨r, s'⟩ := runCode m fuel c labels s
  cases r <;> simp [andThen]

/-- A basic instruction that completes normally. -/
theorem run_step (h : m.step i s = (.normal, s')) :
    run m fuel (.basic i :: rest) labels s = run m fuel rest labels s' := by
  rw [run_cons, runCode, h, andThen_normal]

/-- A basic instruction that does not. -/
theorem run_step_stop (h : m.step i s = (r, s')) (hr : r ≠ .normal) :
    run m fuel (.basic i :: rest) labels s = (r, s') := by
  rw [run_cons, runCode, h, andThen_stop hr]

end

end Structured
