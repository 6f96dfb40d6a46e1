import Js2Wasm.Bytecode.Runs

/-! # The result of a program

`run_agrees`: a module whose run keeps clear of the differences between the two machines
has the same result, trap or uncaught exception when its flat code is run.  A run that
takes a branch out of an arm of an `if` does not: `if_label_lost`.
-/
namespace Js2Wasm.Bytecode

variable {N : Type} [JsNumber N]

/-! ### The function table -/

variable {α : Type} {xs : List α} {E : N → N → Prop}

/-- The functions of the program are those of the module, compiled. -/
theorem mapM_emitted {β : Type} {g : α → Except String β} {ys : List β} (h : xs.mapM g = .ok ys) :
    ∀ i : Nat, match xs[i]? with
      | some x => ∃ y, ys[i]? = some y ∧ g x = .ok y
      | none => ys[i]? = none := by
  induction xs generalizing ys with
  | nil =>
    rw [List.mapM_nil] at h
    rw [← Except.ok.inj h]
    exact fun i => rfl
  | cons x xs ih =>
    rw [List.mapM_cons] at h
    obtain ⟨y, hy, h⟩ := bind_ok h
    obtain ⟨ys', hys, h⟩ := bind_ok h
    rw [← Except.ok.inj h]
    intro i
    cases i with
    | zero => exact ⟨y, rfl, hy⟩
    | succ i => exact ih hys i

/-- The layout of a whole function is a region. -/
theorem Region.whole {f : Func N} {e : FuncEntry N} (hS : Interns E (· ∈ constants f.body))
    (h : emitFunction f = .ok e) : Region E e [] 0 (layoutTrees f.body 0) := by
  obtain ⟨henc, htable, -⟩ := emitFunction_layout hS h
  have hwithin : (layoutTrees f.body 0).ins.map (Ins.within []) = (layoutTrees f.body 0).ins := by
    rw [List.map_congr_left (g := id) fun i _ => ?_, List.map_id]
    cases i <;> simp only [Ins.within, Target.within_nil, id]
  refine ⟨?_, ⟨fun r hr => htable ▸ hr, fun r hr => Or.inl (htable ▸ hr)⟩,
    layoutTrees_inside f.body 0⟩
  rw [hwithin]
  exact ⟨[], e.code, [], (List.append_nil _).symm, rfl, henc⟩

theorem at?_eq_some {i : Int} {x : α} (h : at? xs i = some x) :
    ∃ k : Nat, i = k ∧ xs[k]? = some x := by
  rw [at?] at h
  split at h
  · cases h
  · exact ⟨i.toNat, by omega, h⟩

/-- **A module that compiles** is compiled function by function. -/
theorem Compiled.of_emitModule {m : Module N} {p : BytecodeProgram N} (h : emitModule m = .ok p)
    (hS : ∀ f ∈ m.functions, Interns E (· ∈ constants f.body)) : Compiled E m p := by
  rw [emitModule] at h
  obtain ⟨fs, hfs, h⟩ := bind_ok h
  rw [← Except.ok.inj h]
  have hem := mapM_emitted hfs
  constructor
  · intro i f hf
    obtain ⟨k, rfl, hk⟩ := at?_eq_some hf
    have := hem k
    rw [hk] at this
    obtain ⟨e, he, hemit⟩ := this
    have hdist := hS f (List.mem_of_getElem? hk)
    obtain ⟨-, htable, harity⟩ := emitFunction_layout hdist hemit
    exact ⟨e, (at?_natCast _ _).trans he, harity, Region.whole hdist hemit, htable⟩
  · intro i hi
    unfold at? at hi ⊢
    split
    · rfl
    · next hneg =>
      rw [if_neg hneg] at hi
      have := hem i.toNat
      rwa [hi] at this

/-! ### The result -/

/-- The machine's result is what the structured semantics says.  A result of a void
function is not looked at, and neither is where the machine trapped. -/
def Agrees : Outcome N → VmResult N → Prop
  | .returned (some v), r => r = .ok (some v)
  | .returned none, r => ∃ v, r = .ok v
  | .uncaught v, r => r = .error (.uncaughtThrow (some v))
  | .trap, r => ∃ e : VmError N, r = .error e ∧ e.IsTrap

/-- **The flat code agrees with the structured semantics** on every run that keeps clear of
the differences and stays in the step budget, if no function has two constants that strict
equality confuses. -/
theorem run_agrees {m : Module N} {p : BytecodeProgram N} {args : List N} {o : Outcome N} {n : Nat}
    (h : emitModule m = .ok p) (hS : ∀ f ∈ m.functions, Distinct (· ∈ constants f.body))
    (hrun : Run m true args o n) (hn : n ≤ MAX_STEPS) : Agrees o (runProgram p args) := by
  have hp := Compiled.of_emitModule h fun f hf => (hS f hf).interns
  have hentry : p.entry = m.entry := by
    rw [emitModule] at h
    obtain ⟨fs, -, h⟩ := bind_ok h
    rw [← Except.ok.inj h]
  cases hrun with
  | fallsOff _ _ _ _ _ hexact => exact nomatch hexact
  | @leaves f k c' _ _ hf hargs heval ho =>
    obtain ⟨e, he, harity, hregion, htable⟩ := hp.found m.entry f (by rw [at?_natCast, hf])
    rw [at?_natCast] at he
    have hm : Matches e [] (Config.entry args)
        ⟨e, 0, fun i => at? args i, [], fun _ => none, [], []⟩ := by
      refine ⟨rfl, rfl, fun i => ?_, fun i => rfl⟩
      show orZero (at? args (i : Int)) = some (args.getD i JsNumber.zero)
      rw [at?_natCast, List.getD_eq_getElem?_getD, orZero]
    have hsim := eval_follows hp heval e [] [] 0 _ hregion hm rfl ⟨[], rfl⟩
    rw [runProgram, hentry, he]
    show Agrees o (runSteps p MAX_STEPS _)
    cases k with
    | normal | branch d => exact nomatch ho
    | return_ v =>
      cases ho
      obtain ⟨s', hadv, hm', junk, hst⟩ := hsim
      rw [ret, hm'.frames] at hadv
      rw [runSteps_of_advance hadv hn]
      cases v with
      | none => exact ⟨_, rfl⟩
      | some v =>
        show Except.ok (pop s'.stack).1 = _
        rw [hst]
        rfl
    | throw_ tagIdx v =>
      cases ho
      obtain ⟨s', st, q, hadv, hm', -, -, hno⟩ := hsim
      rw [unwind_uncaught (findHandler_none (htable ▸ hno))] at hadv
      exact runSteps_of_advance hadv hn
    | trap =>
      cases ho
      obtain ⟨err, hadv, htrap⟩ := hsim
      exact ⟨err, runSteps_of_advance hadv hn, htrap⟩

/-! ### Two programs -/

/-- The integers and `NaN`: numbers enough for programs that neither divide nor overflow. -/
abbrev IntOrNaN := Option Int

instance : JsNumber IntOrNaN where
  zero := some 0
  one := some 1
  negOne := some (-1)
  nan := none
  add a b := do return (← a) + (← b)
  sub a b := do return (← a) - (← b)
  mul a b := do return (← a) * (← b)
  div a b := do
    if b = some 0 then none
    return (← a) / (← b)
  neg a := a.map Int.neg
  lt a b := (do return decide ((← a) < (← b))).getD false
  le a b := (do return decide ((← a) ≤ (← b))).getD false
  strictEq a b := (do return decide ((← a) = (← b))).getD false
  toInt32 a := a.getD 0
  ofNat n := some n

theorem distinct_intOrNaN {S : IntOrNaN → Prop} : Distinct S := by
  intro a b _ _ h
  cases a with
  | none => exact nomatch h
  | some a =>
    cases b with
    | none => exact nomatch h
    | some b => exact congrArg some (of_decide_eq_true h)

def increment : List (Tree IntOrNaN) := [.const (.f64 (some 1)), .binary .f64_add, .return_]

/-- A function that throws its argument, and one that catches it and adds one. -/
def catcher : Module IntOrNaN where
  functions := [
    { arity := 1, result := true, body := [
        .try_ [.localGet 0, .call 1] [(0, increment)] none, .unreachable] },
    { arity := 1, result := false, body := [.localGet 0, .throw_ 0] }]
  entry := 0

theorem catcher_runs (i : Int) :
    Run catcher true [some i] (.returned (some (some (i + 1)))) 8 := by
  have hcallee : ∀ x : Context IntOrNaN, ∃ c', Eval catcher true x [.localGet 0, .throw_ 0]
      (Config.enter { Config.entry [some i] with ops := [some i] } [some i])
      (.throw_ 0 (some i)) c' 2 :=
    fun x => ⟨_, Eval.seq (Eval.simple rfl) (Eval.throw_ rfl)⟩
  have hbody : ∃ c1, Eval catcher true ⟨[], true⟩ [.localGet 0, .call 1] (Config.entry [some i])
      (.throw_ 0 (some i)) c1 (1 + (1 + 2)) := by
    obtain ⟨c', h⟩ := hcallee ⟨[], false⟩
    exact ⟨_, Eval.seq (Eval.simple rfl) (@Eval.callThrow _ _ _ _ _ _ _ _ _ [some i] [] _ _ _ _
      rfl rfl rfl h)⟩
  obtain ⟨c1, hbody⟩ := hbody
  have hhandler : ∃ c', Eval catcher true ⟨[], true⟩ increment { c1 with ops := [some i] }
      (.return_ (some (some (i + 1)))) c' (1 + (1 + 1)) :=
    ⟨_, .seq (.simple rfl) (.seq (.simple rfl) (.returnValue rfl rfl))⟩
  obtain ⟨c', hhandler⟩ := hhandler
  have hcatch : Catches [(0, increment)] none 0 (some i) increment [some i] true := .first rfl
  have htry := Eval.caught rfl hbody hcatch hhandler nofun
    fun _ => ⟨rfl, rfl, rfl, fun _ => Or.inl rfl⟩
  exact Run.leaves rfl rfl (Eval.stop htry nofun) rfl

/-- The flat code of `catcher`. -/
def catcherProgram : BytecodeProgram IntOrNaN := (emitModule catcher).toOption.getD ⟨[], 0⟩

theorem emitModule_catcher : emitModule catcher = .ok catcherProgram := by
  have hok : (emitModule catcher).isOk = true := by decide +kernel
  cases h : emitModule catcher with
  | error e =>
    rw [h] at hok
    cases hok
  | ok p =>
    rw [catcherProgram, h]
    rfl

theorem catcher_agrees :
    Agrees (.returned (some (some 42))) (runProgram catcherProgram [some 41]) :=
  run_agrees emitModule_catcher (fun _ _ => distinct_intOrNaN) (catcher_runs 41) (by decide)

/-- A branch out of an `if` to the `block` around it, where nothing but the result follows. -/
def escaper : Module IntOrNaN where
  functions := [
    { arity := 0, result := true, body := [
        .block [.const (.bool true), .if_ [.br 1] []], .const (.f64 (some 5)), .return_] }]
  entry := 0

theorem escaper_runs : Run escaper false [] (.returned (some (some 5))) 5 := by
  have harm : Eval escaper false ⟨[], true⟩ [.br 1] (Config.entry []) (.branch 1)
      (Config.entry []) 1 := Eval.br rfl
  have hif := @Eval.ifTrue _ _ escaper false ⟨[], true⟩ [.br 1] []
    { Config.entry [] with ops := [some 1] } (some 1) _ _ _ rfl rfl harm nofun nofun
  have hblock := Eval.block (c := Config.entry []) rfl
    (Eval.seq (Eval.simple (t := .const (.bool true)) rfl) hif) nofun
  exact Run.leaves rfl rfl (Eval.seq hblock (Eval.seq (Eval.simple rfl)
    (Eval.returnValue rfl rfl))) rfl

/-- The flat code of `escaper`: the target of the branch is still open. -/
def escaperProgram : BytecodeProgram IntOrNaN :=
  ⟨[⟨[0, 0, 12, 8, 13, -1, 13, 8, 0, 1, 14], [some 1, some 5], 0, []⟩], 0⟩

theorem emitModule_escaper : emitModule escaper = .ok escaperProgram := by
  have hok : (emitModule escaper).toOption = some escaperProgram := by decide +kernel
  cases h : emitModule escaper with
  | error => exact nomatch (h ▸ hok :)
  | ok p => exact congrArg _ (Option.some.inj (h ▸ hok :))

theorem runProgram_escaper : runProgram escaperProgram [] = .error (.unknownOpcode (-1)) :=
  runSteps_of_advance (n := 4) rfl (by decide)

/-- **The label of an `if` is lost**: the emitter does not count it, so the branch is never
resolved and the machine jumps out of the code. -/
theorem if_label_lost : ¬ ∀ (m : Module IntOrNaN) (p : BytecodeProgram IntOrNaN)
    (args : List IntOrNaN) (o : Outcome IntOrNaN) (n : Nat), emitModule m = .ok p →
    Run m false args o n → n ≤ MAX_STEPS → Agrees o (runProgram p args) := by
  intro h
  have hagrees := h escaper escaperProgram [] _ 5 emitModule_escaper escaper_runs (by decide)
  rw [runProgram_escaper] at hagrees
  exact nomatch hagrees

end Js2Wasm.Bytecode
