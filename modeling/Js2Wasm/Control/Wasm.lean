import Js2Wasm.Control.Instr

/-! # Structured WebAssembly with exceptions

The instructions that the lowering emits and their meaning.  Every `block`, `loop`, `if` and
`try` is one label; the label of a `catch` holds the exception, for `rethrow`.  There is one
exception tag.  The locals of the lowering are its flags and its pending exceptions.
-/
namespace Js2Wasm.Control
open Option

inductive Code where
  | effect (e : Nat)
  | if_ (cond : Nat) (then_ els : List Code)
  | ifFlag (slot : Nat) (then_ els : List Code)
  | setFlag (slot : Nat) (value : Bool)
  | block (body : List Code)
  | loop (body : List Code)
  | br (depth : Nat)
  /-- `i32.eqz; br_if` on a condition. -/
  | brIfNot (cond : Nat) (depth : Nat)
  | iterOpen (iter : Nat)
  /-- Advance and `br_if` when done. -/
  | iterNext (iter depth : Nat)
  | iterReturn (iter : Nat)
  | evalDisc (disc : Nat)
  /-- `br_if` when the discriminant equals a literal. -/
  | brIfEq (disc test depth : Nat)
  | throw_ (value : Nat)
  | throwTop
  | popPending (slot : Nat)
  | pushPending (slot : Nat)
  | bindTop (slot : Nat)
  | dropTop
  | rethrow (depth : Nat)
  | try_ (body : List Code) (catchBody catchAll : Option (List Code))

inductive Res (X : Type) where
  | normal
  | br (depth : Nat)
  | throw_ (x : X)

/-- The state of a function: the world, its locals and its operands. -/
structure TState (S X : Type) where
  world : S
  flags : Nat → Bool
  pending : Nat → Option X
  ops : List X

section
variable {S X : Type}

/-- Past the end of a labelled construct entered in state `t`. -/
def leave (t : TState S X) : Res X × TState S X → Res X × TState S X
  | (.br 0, t') => (.normal, { t' with ops := t.ops })
  | (.br (d + 1), t') => (.br d, t')
  | x => x

variable (w : World S X)

/-- One instruction, given how to run code. -/
def execInstr (run : List (Option X) → List Code → TState S X → Option (Res X × TState S X))
    (labels : List (Option X)) (i : Code) (t : TState S X) : Option (Res X × TState S X) :=
  match i with
  | .effect e =>
    match w.effect e t.world with
    | (s, none) => some (.normal, { t with world := s })
    | (s, some x) => some (.throw_ x, { t with world := s })
  | .if_ cond then_ els =>
    (run (none :: labels) (if w.test cond t.world then then_ else els) t).map (leave t)
  | .ifFlag slot then_ els =>
    (run (none :: labels) (if t.flags slot then then_ else els) t).map (leave t)
  | .setFlag slot value => some (.normal, { t with flags := Function.update t.flags slot value })
  | .block body => (run (none :: labels) body t).map (leave t)
  | .loop body =>
    (run (none :: labels) body t).bind fun
      | (.br 0, t') => run labels [.loop body] { t' with ops := t.ops }
      | x => some (leave t x)
  | .br depth => some (.br depth, t)
  | .brIfNot cond depth => some (if w.test cond t.world then .normal else .br depth, t)
  | .iterOpen iter => some (.normal, { t with world := w.iterOpen iter t.world })
  | .iterNext iter depth =>
    some (if (w.iterNext iter t.world).2 then .br depth else .normal,
      { t with world := (w.iterNext iter t.world).1 })
  | .iterReturn iter => some (.normal, { t with world := w.iterReturn iter t.world })
  | .evalDisc disc => some (.normal, { t with world := w.disc disc t.world })
  | .brIfEq disc test depth =>
    some (if w.equals disc test t.world then .br depth else .normal, t)
  | .throw_ value => some (.throw_ (w.value value t.world), t)
  | .throwTop =>
    match t.ops with
    | x :: _ => some (.throw_ x, t)
    | [] => none
  | .popPending slot =>
    match t.ops with
    | x :: ops => some (.normal, { t with ops, pending := Function.update t.pending slot (some x) })
    | [] => none
  | .pushPending slot => (t.pending slot).map fun x => (.normal, { t with ops := x :: t.ops })
  | .bindTop slot =>
    match t.ops with
    | x :: ops => some (.normal, { t with ops, world := w.bind slot x t.world })
    | [] => none
  | .dropTop =>
    match t.ops with
    | _ :: ops => some (.normal, { t with ops })
    | [] => none
  | .rethrow depth =>
    match labels[depth]? with
    | some (some x) => some (.throw_ x, t)
    | _ => none
  | .try_ body catchBody catchAll =>
    (run (none :: labels) body t).bind fun
      | (.throw_ x, t') =>
        match catchBody, catchAll with
        | some c, _ => (run (some x :: labels) c { t' with ops := x :: t.ops }).map (leave t)
        | none, some c => (run (some x :: labels) c { t' with ops := t.ops }).map (leave t)
        | none, none => some (.throw_ x, t')
      | x => some (leave t x)

/-- Run code with the given fuel. -/
def exec : Nat → List (Option X) → List Code → TState S X → Option (Res X × TState S X)
  | 0, _, _, _ => none
  | _ + 1, _, [], t => some (.normal, t)
  | n + 1, labels, i :: rest, t =>
    (execInstr w (exec n) labels i t).bind fun
      | (.normal, t') => exec n labels rest t'
      | x => some x

def RunsI (labels : List (Option X)) (i : Code) (t : TState S X) (r : Res X) (t' : TState S X) :
    Prop := ∃ n, execInstr w (exec w n) labels i t = some (r, t')

def Runs (labels : List (Option X)) (code : List Code) (t : TState S X) (r : Res X)
    (t' : TState S X) : Prop := ∃ n, exec w n labels code t = some (r, t')

/-! ### Fuel -/

variable {w}

variable {code : List Code} {t : TState S X} {x : Res X × TState S X} {n : Nat}
    {labels : List (Option X)}

theorem execInstr_mono
    {run run' : List (Option X) → List Code → TState S X → Option (Res X × TState S X)}
    (h : ∀ labels code t x, run labels code t = some x → run' labels code t = some x) {i : Code}
    (hx : execInstr w run labels i t = some x) : execInstr w run' labels i t = some x := by
  have hmap : ∀ labels code, ((run labels code t).map (leave t) = some x →
      (run' labels code t).map (leave t) = some x) := by
    intro labels code hx
    obtain ⟨y, hy, rfl⟩ := map_eq_some_iff.mp hx
    rw [h _ _ _ _ hy]
    rfl
  cases i with
  | if_ cond then_ els | ifFlag slot then_ els | block body => exact hmap _ _ hx
  | loop body =>
    simp only [execInstr] at hx ⊢
    obtain ⟨y, hy, hx⟩ := bind_eq_some_iff.mp hx
    rw [h _ _ _ _ hy, bind_some]
    split at hx
    · exact h _ _ _ _ hx
    · exact hx
  | try_ body catchBody catchAll =>
    simp only [execInstr] at hx ⊢
    obtain ⟨y, hy, hx⟩ := bind_eq_some_iff.mp hx
    rw [h _ _ _ _ hy, bind_some]
    split at hx
    · cases catchBody with
      | some c =>
        obtain ⟨z, hz, rfl⟩ := map_eq_some_iff.mp hx
        simp only
        rw [h _ _ _ _ hz]
        rfl
      | none =>
        cases catchAll with
        | some c =>
          obtain ⟨z, hz, rfl⟩ := map_eq_some_iff.mp hx
          simp only
          rw [h _ _ _ _ hz]
          rfl
        | none => exact hx
    · exact hx
  | _ => exact hx

theorem exec_succ : ∀ labels code t x, exec w n labels code t = some x →
    exec w (n + 1) labels code t = some x := by
  induction n with
  | zero => exact fun _ _ _ _ h => nomatch h
  | succ n ih =>
    intro labels code t x h
    cases code with
    | nil => exact h
    | cons i rest =>
      rw [exec] at h ⊢
      obtain ⟨y, hy, h⟩ := bind_eq_some_iff.mp h
      rw [execInstr_mono ih hy, bind_some]
      split at h
      · exact ih _ _ _ _ h
      · exact h

/-- More fuel gives the same result. -/
theorem exec_mono {m : Nat} (hnm : n ≤ m) (h : exec w n labels code t = some x) :
    exec w m labels code t = some x := by
  induction hnm with
  | refl => exact h
  | step _ ih => exact exec_succ _ _ _ _ ih

/-- **Code has one result.** -/
theorem Runs.unique {r r' : Res X} {t1 t2 : TState S X} (h : Runs w labels code t r t1)
    (h' : Runs w labels code t r' t2) : r = r' ∧ t1 = t2 := by
  obtain ⟨n, h⟩ := h
  obtain ⟨m, h'⟩ := h'
  have h1 := exec_mono (Nat.le_max_left n m) h
  rw [exec_mono (Nat.le_max_right n m) h'] at h1
  exact ⟨(congrArg Prod.fst (some.inj h1)).symm, (congrArg Prod.snd (some.inj h1)).symm⟩

/-! ### Rules -/

section
variable {labels : List (Option X)} {code rest : List Code} {i : Code} {t t1 t' : TState S X}
  {r : Res X}

theorem Runs.nil : Runs w labels [] t .normal t := ⟨1, rfl⟩

theorem Runs.cons (h : RunsI w labels i t .normal t1) (h' : Runs w labels rest t1 r t') :
    Runs w labels (i :: rest) t r t' := by
  obtain ⟨n, h⟩ := h
  obtain ⟨m, h'⟩ := h'
  refine ⟨max n m + 1, ?_⟩
  rw [exec, execInstr_mono (fun _ _ _ _ => exec_mono (Nat.le_max_left n m)) h, bind_some]
  exact exec_mono (Nat.le_max_right n m) h'

theorem Runs.stop (h : RunsI w labels i t r t') (hr : r ≠ .normal) :
    Runs w labels (i :: rest) t r t' := by
  obtain ⟨n, h⟩ := h
  refine ⟨n + 1, ?_⟩
  rw [exec, h, bind_some]
  cases r with
  | normal => exact absurd rfl hr
  | _ => rfl

theorem Runs.single (h : RunsI w labels i t r t') : Runs w labels [i] t r t' := by
  by_cases hr : r = .normal
  · exact Runs.cons (hr ▸ h) (hr ▸ Runs.nil)
  · exact Runs.stop h hr

/-- What the first instruction of code that has run has done. -/
theorem Runs.head (h : Runs w labels (i :: rest) t r t') :
    (∃ t1, RunsI w labels i t .normal t1 ∧ Runs w labels rest t1 r t') ∨
      (r ≠ .normal ∧ RunsI w labels i t r t') := by
  obtain ⟨n, h⟩ := h
  cases n with
  | zero => exact nomatch h
  | succ n =>
    rw [exec] at h
    obtain ⟨⟨r1, t1⟩, hy, h⟩ := bind_eq_some_iff.mp h
    cases r1 with
    | normal => exact Or.inl ⟨t1, ⟨n, hy⟩, n, h⟩
    | br d | throw_ x =>
      cases h
      exact Or.inr ⟨nofun, n, hy⟩

theorem Runs.append (h : Runs w labels code t .normal t1) (h' : Runs w labels rest t1 r t') :
    Runs w labels (code ++ rest) t r t' := by
  induction code generalizing t with
  | nil =>
    obtain ⟨-, rfl⟩ := Runs.unique h Runs.nil
    exact h'
  | cons i code ih =>
    rcases h.head with ⟨t2, hi, hrest⟩ | ⟨hne, -⟩
    · exact Runs.cons hi (ih hrest)
    · exact absurd rfl hne

theorem Runs.append_stop (h : Runs w labels code t r t') (hr : r ≠ .normal) :
    Runs w labels (code ++ rest) t r t' := by
  induction code generalizing t with
  | nil =>
    obtain ⟨rfl, -⟩ := Runs.unique h Runs.nil
    exact absurd rfl hr
  | cons i code ih =>
    rcases h.head with ⟨t2, hi, hrest⟩ | ⟨-, hi⟩
    · exact Runs.cons hi (ih hrest)
    · exact Runs.stop hi hr

theorem RunsI.block (h : Runs w (none :: labels) code t r t') :
    RunsI w labels (.block code) t (leave t (r, t')).1 (leave t (r, t')).2 := by
  obtain ⟨n, h⟩ := h
  exact ⟨n, by rw [execInstr, h]; rfl⟩

theorem RunsI.if_ {cond : Nat} {then_ els : List Code}
    (h : Runs w (none :: labels) (if w.test cond t.world then then_ else els) t r t') :
    RunsI w labels (.if_ cond then_ els) t (leave t (r, t')).1 (leave t (r, t')).2 := by
  obtain ⟨n, h⟩ := h
  exact ⟨n, by rw [execInstr, h]; rfl⟩

theorem RunsI.ifFlag {slot : Nat} {then_ els : List Code}
    (h : Runs w (none :: labels) (if t.flags slot then then_ else els) t r t') :
    RunsI w labels (.ifFlag slot then_ els) t (leave t (r, t')).1 (leave t (r, t')).2 := by
  obtain ⟨n, h⟩ := h
  exact ⟨n, by rw [execInstr, h]; rfl⟩

theorem RunsI.loopAgain (h : Runs w (none :: labels) code t (.br 0) t1)
    (h' : RunsI w labels (.loop code) { t1 with ops := t.ops } r t') :
    RunsI w labels (.loop code) t r t' := by
  obtain ⟨n, h⟩ := h
  obtain ⟨m, h'⟩ := Runs.single h'
  refine ⟨max n m, ?_⟩
  rw [execInstr, exec_mono (Nat.le_max_left n m) h]
  exact exec_mono (Nat.le_max_right n m) h'

theorem RunsI.loopLeave (h : Runs w (none :: labels) code t r t') (hr : r ≠ .br 0) :
    RunsI w labels (.loop code) t (leave t (r, t')).1 (leave t (r, t')).2 := by
  obtain ⟨n, h⟩ := h
  refine ⟨n, ?_⟩
  rw [execInstr, h, bind_some]
  cases r with
  | br d =>
    cases d with
    | zero => exact absurd rfl hr
    | succ d => rfl
  | _ => rfl

/-- A `try` whose body does not throw. -/
theorem RunsI.try_ {catchBody catchAll : Option (List Code)}
    (h : Runs w (none :: labels) code t r t') (hr : ∀ x, r ≠ .throw_ x) :
    RunsI w labels (.try_ code catchBody catchAll) t (leave t (r, t')).1 (leave t (r, t')).2 := by
  obtain ⟨n, h⟩ := h
  refine ⟨n, ?_⟩
  rw [execInstr, h, bind_some]
  cases r with
  | throw_ x => exact absurd rfl (hr x)
  | _ => rfl

variable {c : List Code} {x : X}

theorem RunsI.tryCatch {catchAll : Option (List Code)}
    (h : Runs w (none :: labels) code t (.throw_ x) t1)
    (h' : Runs w (some x :: labels) c { t1 with ops := x :: t.ops } r t') :
    RunsI w labels (.try_ code (some c) catchAll) t (leave t (r, t')).1 (leave t (r, t')).2 := by
  obtain ⟨n, h⟩ := h
  obtain ⟨m, h'⟩ := h'
  refine ⟨max n m, ?_⟩
  rw [execInstr, exec_mono (Nat.le_max_left n m) h, bind_some]
  simp only
  rw [exec_mono (Nat.le_max_right n m) h']
  rfl

theorem RunsI.tryCatchAll (h : Runs w (none :: labels) code t (.throw_ x) t1)
    (h' : Runs w (some x :: labels) c { t1 with ops := t.ops } r t') :
    RunsI w labels (.try_ code none (some c)) t (leave t (r, t')).1 (leave t (r, t')).2 := by
  obtain ⟨n, h⟩ := h
  obtain ⟨m, h'⟩ := h'
  refine ⟨max n m, ?_⟩
  rw [execInstr, exec_mono (Nat.le_max_left n m) h, bind_some]
  simp only
  rw [exec_mono (Nat.le_max_right n m) h']
  rfl

theorem RunsI.tryNone (h : Runs w (none :: labels) code t (.throw_ x) t') :
    RunsI w labels (.try_ code none none) t (.throw_ x) t' := by
  obtain ⟨n, h⟩ := h
  exact ⟨n, by rw [execInstr, h]; rfl⟩

end

end

end Js2Wasm.Control
