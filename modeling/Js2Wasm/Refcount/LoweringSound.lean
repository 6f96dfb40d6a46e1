import Js2Wasm.Refcount.Lowering

/-! # The lowering performs what the handle IR performs

A statement list and its code, run from states that hold the same handles, have performed the
same events and complete alike (`Simulates`): a named target is the label at the depth that
the lowering computed, since every enclosing construct has pushed one entry on the label
stack and is one label of the code.

Nothing is assumed of the engine but what the code has to type-check with (`Fits`), and that
the two shims do not throw.
-/
namespace Js2Wasm.Refcount.Lower
open Structured List

variable {V : Type}

/-! ### What corresponds -/

namespace RefcountRuntime
variable (rt : RefcountRuntime)

/-- The local of a handle is its cell. -/
def cell (h : HandleId) : Nat := (rt.handleLocal h).getD 0

def funcOf (callee : String) : Nat := (rt.calleeFuncIdx callee).getD 0

def held (x : HandleId × V) : Nat × V := (rt.cell x.1, x.2)

/-- The WebAssembly event of a handle event. -/
def event : HandleEvent V → WasmEvent V
  | .call callee args raised => .call (rt.funcOf callee) (args.map (Option.map rt.held)) raised
  | .dup value _ => .call rt.dupFuncIdx [none, some (rt.held value)] false
  | .free value => .call rt.freeFuncIdx [none, some (rt.held value)] false
  | .branch taken => .branch taken
  | .throw_ value => .throw_ (value.map rt.held)
  | .return_ value => .return_ (value.map rt.held)

/-- The engine's choices as choices of the handle IR.  Without a hook for conditions every
branch is taken. -/
def oracle (engine : Engine V) : Oracle V where
  takes t := if rt.emitCondition.isSome then engine.takes t else true
  raises callee := engine.raises (rt.funcOf callee)
  result callee := engine.result (rt.funcOf callee)
  dupResult := engine.result rt.dupFuncIdx

end RefcountRuntime

/-- The types that a statement's code needs. -/
def Fits (rt : RefcountRuntime) (sig : Signatures) : HandleStmt → Prop
  | .call callee args dest _ =>
    sig.arity (rt.funcOf callee) = args.length ∧
      sig.returns (rt.funcOf callee) = (dest.isSome || rt.calleeReturnsValue callee)
  | .dup _ _ _ => sig.arity rt.dupFuncIdx = 2 ∧ sig.returns rt.dupFuncIdx = true
  | .free _ _ => sig.arity rt.freeFuncIdx = 2 ∧ sig.returns rt.freeFuncIdx = rt.freeReturnsValue
  | .return_ value => sig.result = value.isSome
  | .throw_ value => ∀ tag, rt.throwTagIdx = some tag → sig.tagOperand tag = value.isSome
  | _ => True

/-- What the lowering's caller promises of the module around the function. -/
structure Linked (rt : RefcountRuntime) (sig : Signatures) (engine : Engine V)
    (stmts : List HandleStmt) : Prop where
  fits : ∀ s ∈ walk stmts, Fits rt sig s
  dup_returns : ∀ t, engine.raises rt.dupFuncIdx t = false
  free_returns : ∀ t, engine.raises rt.freeFuncIdx t = false

/-- Same handles, same events, same time. -/
structure Related (rt : RefcountRuntime) (st : HandleState V) (w : WasmState V) : Prop where
  locals : w.locals = st.cells
  trace : w.trace = st.trace.map rt.event
  clock : w.clock = st.clock

/-- How code completes where its statements have this outcome. -/
def resOf (rt : RefcountRuntime) (stack : List LabelEntry) :
    Outcome V → Option (Res (Thrown V))
  | .fall => some .normal
  | .break_ label => (depthOf stack label .break_).map .br
  | .continue_ label => (depthOf stack label .continue_).map .br
  | .return_ => some .return_
  | .unwind value => some (.throw_ (value.map rt.held))
  | .outOfFuel => some .outOfFuel

/-- **The code completes as its statements do, and leaves the operands alone.** -/
structure Simulates (rt : RefcountRuntime) (stack : List LabelEntry)
    (operands : List (Operand V)) (r : Outcome V × HandleState V)
    (r' : Res (Thrown V) × WasmState V) : Prop where
  res : resOf rt stack r.1 = some r'.1
  related : Related rt r.2 r'.2
  operands : r'.1 = .normal → r'.2.operands = operands

section
variable {rt : RefcountRuntime} {sig : Signatures} {engine : Engine V} {fuel : Nat}
  {stack : List LabelEntry} {ops : List (Operand V)} {label : String} {name : String}
  {r : Outcome V × HandleState V} {r' : Res (Thrown V) × WasmState V}
  {st : HandleState V} {w w0 : WasmState V} {labels : List (Option (Thrown V))}
  {code rest : WasmCode}

theorem Related.restore (h : Related rt st w) :
    Related rt st ((machine sig engine).restore w0 w) := ⟨h.locals, h.trace, h.clock⟩

theorem Related.emit (h : Related rt st w) (e : HandleEvent V) (operands : List (Operand V)) :
    Related rt (st.emit e) ⟨w.locals, operands, rt.event e :: w.trace, w.clock⟩ :=
  ⟨h.locals, congrArg (rt.event e :: ·) h.trace, h.clock⟩

theorem Related.tick (h : Related rt st w) (e : HandleEvent V) (operands : List (Operand V)) :
    Related rt (st.tick e) ⟨w.locals, operands, rt.event e :: w.trace, w.clock + 1⟩ :=
  ⟨h.locals, congrArg (rt.event e :: ·) h.trace, congrArg (· + 1) h.clock⟩

theorem Related.bind (h : Related rt st w) (cell : Nat) (v : V) (operands : List (Operand V)) :
    Related rt (st.bind cell v)
      ⟨Function.update w.locals cell v, operands, w.trace, w.clock⟩ :=
  ⟨congrArg (Function.update · cell v) h.locals, h.trace, h.clock⟩

/-! ### Labels -/

theorem depthOf_cons (entry : LabelEntry) (stack : List LabelEntry) (label : String)
    (target : Target) : depthOf (entry :: stack) label target =
      if entry = some (label, target) then some 0
      else (depthOf stack label target).map (· + 1) := by
  rw [depthOf, findIdx?_cons, depthOf]
  by_cases h : entry = some (label, target)
  all_goals simp [h]

/-- A label that is no jump's target. -/
theorem Simulates.leave_entry {entry : LabelEntry} (h : Simulates rt (entry :: stack) ops r r')
    (hbreak : ∀ l, r.1 = .break_ l → entry ≠ some (l, .break_))
    (hcont : ∀ l, r.1 = .continue_ l → entry ≠ some (l, .continue_)) :
    Simulates rt stack ops r ((machine sig engine).leave w0 r') := by
  obtain ⟨o, st⟩ := r
  obtain ⟨r', w⟩ := r'
  obtain ⟨hres, hrel, hnormal⟩ := h
  have hjump : ∀ {l : String} {target : Target}, entry ≠ some (l, target) →
      (depthOf (entry :: stack) l target).map Res.br = some r' →
      ∃ d, depthOf stack l target = some d ∧ r' = .br (d + 1) := by
    intro l target hne hd
    rw [depthOf_cons, if_neg hne] at hd
    obtain ⟨d', hd', rfl⟩ := Option.map_eq_some_iff.mp hd
    obtain ⟨d, hstack, rfl⟩ := Option.map_eq_some_iff.mp hd'
    exact ⟨d, hstack, rfl⟩
  cases o with
  | break_ l =>
    obtain ⟨d, hd, rfl⟩ := hjump (hbreak l rfl) hres
    exact ⟨by simp [resOf, hd, Machine.leave], hrel, nofun⟩
  | continue_ l =>
    obtain ⟨d, hd, rfl⟩ := hjump (hcont l rfl) hres
    exact ⟨by simp [resOf, hd, Machine.leave], hrel, nofun⟩
  | fall | return_ | unwind _ | outOfFuel =>
    cases hres
    exact ⟨rfl, hrel, hnormal⟩

theorem Simulates.leave_plain (h : Simulates rt (none :: stack) ops r r') :
    Simulates rt stack ops r ((machine sig engine).leave w0 r') :=
  h.leave_entry (fun _ _ => nofun) fun _ _ => nofun

/-- The end of a region is the end of its block. -/
theorem Simulates.leave_region
    (h : Simulates rt (some (label, .break_) :: stack) ops r r') (hops : w0.operands = ops) :
    Simulates rt stack ops (leaveRegion label r) ((machine sig engine).leave w0 r') := by
  by_cases hb : r.1 = .break_ label
  · obtain ⟨o, st⟩ := r
    obtain ⟨r', w⟩ := r'
    obtain rfl : o = .break_ label := hb
    have hres := h.res
    rw [resOf, depthOf_cons, if_pos rfl] at hres
    cases hres
    refine ⟨?_, ?_, fun _ => hops⟩
    · simp [leaveRegion, resOf, Machine.leave]
    · simpa [leaveRegion, Machine.leave] using h.related.restore
  · have hsame : leaveRegion label r = r := by
      obtain ⟨o, st⟩ := r
      cases o with
      | break_ l =>
        have hne : l ≠ label := fun hl => hb (by rw [hl])
        simp [leaveRegion, hne]
      | _ => rfl
    rw [hsame]
    refine h.leave_entry (fun l hl heq => ?_) fun _ _ => nofun
    rw [Option.some.injEq, Prod.mk.injEq] at heq
    exact hb (heq.1 ▸ hl)

/-- Going round a loop. -/
theorem Simulates.restart {body : HandleState V → Outcome V × HandleState V}
    {body' : WasmState V → Res (Thrown V) × WasmState V}
    (hbody : ∀ st w, Related rt st w → w.operands = ops →
      Simulates rt (some (label, .continue_) :: stack) ops (body st) (body' w))
    (hops : w0.operands = ops) (fuel : Nat) (h : Related rt st w) (hw : w.operands = ops) :
    Simulates rt stack ops (restartLoop label body fuel st)
      ((machine sig engine).restart w0 body' fuel w) := by
  induction fuel generalizing st w with
  | zero => exact ⟨rfl, h, nofun⟩
  | succ fuel ih =>
    have hround := hbody st w h hw
    obtain ⟨r', w', hb'⟩ : ∃ r' w', body' w = (r', w') := ⟨_, _, rfl⟩
    by_cases hc : (body st).1 = .continue_ label
    · -- the body continues this loop
      obtain ⟨o, st', hb⟩ : ∃ o st', body st = (o, st') := ⟨_, _, rfl⟩
      have hres := hround.res
      rw [hc, hb', resOf, depthOf_cons, if_pos rfl] at hres
      cases hres
      rw [hb] at hc
      obtain rfl : o = .continue_ label := hc
      have hrel := hround.related
      rw [hb, hb'] at hrel
      rw [restartLoop_again hb, Machine.restart_again hb']
      exact ih hrel.restore hops
    · have hne : ∀ l, (body st).1 = .continue_ l →
          (some (label, .continue_) : LabelEntry) ≠ some (l, .continue_) := by
        intro l hl heq
        rw [Option.some.injEq, Prod.mk.injEq] at heq
        exact hc (heq.1 ▸ hl)
      have hzero : (body' w).1 ≠ .br 0 := by
        intro hz
        have hres := hround.res
        rw [hz] at hres
        cases ho : (body st).1 with
        | continue_ l => simp [ho, resOf, depthOf_cons, hne l ho] at hres
        | break_ l => simp [ho, resOf, depthOf_cons] at hres
        | _ => simp [ho, resOf] at hres
      rw [restartLoop_leave hc, Machine.restart_leave hzero]
      exact hround.leave_entry (fun _ _ => nofun) hne

/-! ### Sequences -/

theorem Simulates.andThen {f : HandleState V → Outcome V × HandleState V}
    {g : WasmState V → Res (Thrown V) × WasmState V} (h : Simulates rt stack ops r r')
    (hfg : ∀ st w, Related rt st w → w.operands = ops → Simulates rt stack ops (f st) (g w)) :
    Simulates rt stack ops (thenRun r f) (Structured.andThen r' g) := by
  obtain ⟨o, st⟩ := r
  obtain ⟨r', w⟩ := r'
  obtain ⟨hres, hrel, hnormal⟩ := h
  cases o with
  | fall =>
    cases hres
    exact hfg st w hrel (hnormal rfl)
  | break_ l | continue_ l =>
    obtain ⟨d, hd, rfl⟩ := Option.map_eq_some_iff.mp hres
    exact ⟨hres, hrel, nofun⟩
  | return_ | unwind _ | outOfFuel =>
    cases hres
    exact ⟨rfl, hrel, nofun⟩

/-! ### Straight-line code -/

open RefcountRuntime

variable {operands : List (Operand V)} {idx : Nat} {body : List HandleStmt}
    {dest value : Option HandleId} {callee : String}

/-- A hook pushes its scalars. -/
theorem run_plain {ps : List Plain} (h : runPlain (.scalar none) ps w.operands = some operands) :
    run (machine sig engine) fuel (ps.map (fun p => .basic (.plain p)) ++ rest) labels w =
      run (machine sig engine) fuel rest labels { w with operands } := by
  induction ps generalizing w with
  | nil =>
    cases h
    rfl
  | cons p ps ih =>
    rw [runPlain] at h
    split at h
    · rename_i hle
      have hstep : (machine sig engine).step (.plain p) w = (.normal, { w with
          operands := replicate p.pushes (.scalar none) ++ w.operands.drop p.pops }) := by
        simp [machine, step, stepPlain, runPlain, hle]
      rw [map_cons, cons_append, run_step hstep]
      exact ih h
    · cases h

theorem run_hook {n : Nat} (h : Hook n) :
    run (machine sig engine) fuel (hook h ++ rest) labels w =
      run (machine sig engine) fuel rest labels
        { w with operands := replicate n (.scalar none) ++ w.operands } :=
  run_plain (h.pushes _ _ _)

theorem run_localGet :
    run (machine sig engine) fuel (.basic (.localGet idx) :: rest) labels w =
      run (machine sig engine) fuel rest labels
        { w with operands := .held idx (w.locals idx) :: w.operands } :=
  run_step rfl

/-- A scalar argument. -/
theorem run_scalar {h : Option (Hook 1)} {value : Int} :
    ∃ known, run (machine sig engine) fuel
        (hookOr h [.basic (.i32Const value)] ++ rest) labels w =
      run (machine sig engine) fuel rest labels
        { w with operands := .scalar known :: w.operands } := by
  cases h with
  | some h => exact ⟨none, run_hook h⟩
  | none => exact ⟨some value, run_step rfl⟩

theorem localOf_eq_ok {h : HandleId} (hidx : localOf rt name h = .ok idx) : idx = rt.cell h := by
  rw [localOf] at hidx
  rw [cell]
  cases hl : rt.handleLocal h with
  | none => rw [hl] at hidx; cases hidx
  | some i =>
    rw [hl] at hidx
    cases hidx
    rfl

theorem bind_eq_ok {α β : Type} {x : Except String α} {f : α → Except String β} {b : β}
    (h : (x >>= f) = .ok b) : ∃ a, x = .ok a ∧ f a = .ok b := by
  cases x with
  | error e => cases h
  | ok a => exact ⟨a, rfl, h⟩

/-- The arguments of a call end up on the operands, in their order. -/
theorem run_args {callee : String} {args : List (Option HandleId)} {k : Nat}
    (hcode : lowerArgs rt name callee k args = .ok code) :
    ∃ pushed : List (Operand V), pushed.length = args.length ∧
      pushed.reverse.map Operand.asArg =
        args.map (Option.map fun h => (rt.cell h, w.locals (rt.cell h))) ∧
      run (machine sig engine) fuel (code ++ rest) labels w =
        run (machine sig engine) fuel rest labels { w with operands := pushed ++ w.operands } := by
  induction args generalizing k code w with
  | nil =>
    rw [lowerArgs] at hcode
    cases hcode
    exact ⟨[], rfl, rfl, rfl⟩
  | cons arg args ih =>
    cases arg with
    | none =>
      rw [lowerArgs] at hcode
      obtain ⟨code', hcode', hcode⟩ := bind_eq_ok hcode
      cases hcode
      obtain ⟨known, hrun⟩ := @run_scalar V sig engine fuel w labels (code' ++ rest)
        (rt.emitScalarArg.map fun f => f callee k) 0
      obtain ⟨pushed, hlen, hargs, hrest⟩ :=
        @ih { w with operands := .scalar known :: w.operands } code' (k + 1) hcode'
      refine ⟨pushed ++ [.scalar known], by simp [hlen], ?_, ?_⟩
      · simp only [reverse_append, reverse_singleton, singleton_append,
          map_cons, hargs]
        rfl
      · rw [append_assoc, hrun, hrest]
        simp
    | some h =>
      rw [lowerArgs] at hcode
      obtain ⟨idx, hidx, hcode⟩ := bind_eq_ok hcode
      obtain ⟨code', hcode', hcode⟩ := bind_eq_ok hcode
      cases hcode
      obtain rfl := localOf_eq_ok hidx
      obtain ⟨pushed, hlen, hargs, hrest⟩ := @ih
        { w with operands := .held (rt.cell h) (w.locals (rt.cell h)) :: w.operands }
        code' (k + 1) hcode'
      refine ⟨pushed ++ [.held (rt.cell h) (w.locals (rt.cell h))], by simp [hlen], ?_, ?_⟩
      · simp only [reverse_append, reverse_singleton, singleton_append,
          map_cons, hargs]
        rfl
      · rw [cons_append, run_localGet, hrest]
        simp

/-- A call that returns, with its operands on top. -/
theorem stepCall_returns {funcIdx : Nat} {pushed operands : List (Operand V)}
    (hops : w.operands = pushed ++ operands) (hlen : sig.arity funcIdx = pushed.length)
    (hraised : engine.raises funcIdx w.clock = false) :
    (machine sig engine).step (.call funcIdx) w =
      (.normal, ⟨w.locals, (if sig.returns funcIdx then
          [.result (engine.result funcIdx w.clock)] else []) ++ operands,
        .call funcIdx (pushed.reverse.map Operand.asArg) false :: w.trace, w.clock + 1⟩) := by
  simp [machine, step, stepCall, hraised, hops, hlen, take_left', drop_left']

theorem stepCall_throws {funcIdx : Nat} {pushed operands : List (Operand V)}
    (hops : w.operands = pushed ++ operands) (hlen : sig.arity funcIdx = pushed.length)
    (hraised : engine.raises funcIdx w.clock = true) :
    (machine sig engine).step (.call funcIdx) w = (.throw_ none, ⟨w.locals, operands,
      .call funcIdx (pushed.reverse.map Operand.asArg) true :: w.trace, w.clock + 1⟩) := by
  simp [machine, step, stepCall, hraised, hops, hlen, take_left', drop_left']

/-! ### Statements -/

/-- What is done with the result of a call that has returned. -/
theorem run_result {returns : Bool} {v : V} (hcode : lowerResult rt name callee dest = .ok code)
    (hreturns : returns = (dest.isSome || rt.calleeReturnsValue callee))
    (hw : w.operands = (if returns then [.result v] else []) ++ operands) (h : Related rt st w) :
    Simulates rt stack operands (.fall, dest.elim st fun d => st.bind (rt.cell d) v)
      (run (machine sig engine) fuel code labels w) := by
  cases dest with
  | some d =>
    obtain ⟨idx, hidx, hcode⟩ := bind_eq_ok hcode
    cases hcode
    obtain rfl := localOf_eq_ok hidx
    obtain rfl : returns = true := hreturns
    have hstep : (machine sig engine).step (.localSet (rt.cell d)) w = (.normal,
        ⟨Function.update w.locals (rt.cell d) v, operands, w.trace, w.clock⟩) := by
      simp only [machine, step, stepLocalSet, hw]
      rfl
    rw [run_step hstep, run_nil]
    exact ⟨rfl, h.bind _ _ _, fun _ => rfl⟩
  | none =>
    cases hcode
    rw [Option.isSome_none, Bool.false_or] at hreturns
    cases returns with
    | true =>
      have hstep : (machine sig engine).step .drop w = (.normal, { w with operands }) := by
        simp only [machine, step, stepDrop, hw]
        rfl
      rw [← hreturns, if_pos rfl, run_step hstep, run_nil]
      exact ⟨rfl, ⟨h.locals, h.trace, h.clock⟩, fun _ => rfl⟩
    | false =>
      rw [← hreturns, if_neg Bool.false_ne_true, run_nil]
      exact ⟨rfl, h, fun _ => hw⟩

theorem sim_call {args : List (Option HandleId)}
    (hcode : lowerCall rt name callee args dest = .ok code)
    (harity : sig.arity (rt.funcOf callee) = args.length)
    (hreturns : sig.returns (rt.funcOf callee) = (dest.isSome || rt.calleeReturnsValue callee))
    (h : Related rt st w) (hw : w.operands = ops) :
    Simulates rt stack ops (execCall rt.cell (rt.oracle engine) callee args dest st)
      (run (machine sig engine) fuel code labels w) := by
  rw [lowerCall] at hcode
  cases hfunc : rt.calleeFuncIdx callee with
  | none => rw [hfunc] at hcode; cases hcode
  | some funcIdx =>
    rw [hfunc] at hcode
    obtain ⟨argCode, hargs, hcode⟩ := bind_eq_ok hcode
    obtain ⟨resultCode, hresult, hcode⟩ := bind_eq_ok hcode
    cases hcode
    obtain rfl : rt.funcOf callee = funcIdx := by rw [funcOf, hfunc]; rfl
    obtain ⟨pushed, hlen, hpushed, hrun⟩ := @run_args V rt sig engine fuel name w labels argCode
      (.basic (.call (rt.funcOf callee)) :: resultCode) callee args 0 hargs
    rw [hrun]
    have hevent : rt.event (.call callee (args.map (Option.map (operandOf rt.cell st)))
        (engine.raises (rt.funcOf callee) w.clock)) = .call (rt.funcOf callee)
          (pushed.reverse.map Operand.asArg) (engine.raises (rt.funcOf callee) w.clock) := by
      rw [hpushed, event, map_map, h.locals]
      congr 1
      refine map_congr_left fun a _ => ?_
      cases a <;> rfl
    have hraise : (rt.oracle engine).raises callee st.clock =
        engine.raises (rt.funcOf callee) w.clock := by
      rw [h.clock]
      rfl
    have hvalue : (rt.oracle engine).result callee st.clock =
        engine.result (rt.funcOf callee) w.clock := by
      rw [h.clock]
      rfl
    rw [execCall, hraise, hvalue]
    cases hraised : engine.raises (rt.funcOf callee) w.clock with
    | true =>
      rw [hraised] at hevent
      have hstep := @stepCall_throws V sig engine { w with operands := pushed ++ w.operands }
        (rt.funcOf callee) pushed w.operands rfl (harity.trans hlen.symm) hraised
      rw [run_step_stop hstep nofun]
      have htick := h.tick (.call callee (args.map (Option.map (operandOf rt.cell st))) true)
        w.operands
      rw [hevent] at htick
      exact ⟨rfl, htick, nofun⟩
    | false =>
      rw [hraised] at hevent
      have hstep := @stepCall_returns V sig engine { w with operands := pushed ++ w.operands }
        (rt.funcOf callee) pushed w.operands rfl (harity.trans hlen.symm) hraised
      rw [run_step hstep]
      have htick := h.tick (.call callee (args.map (Option.map (operandOf rt.cell st))) false)
        ((if sig.returns (rt.funcOf callee) then
          [.result (engine.result (rt.funcOf callee) w.clock)] else []) ++ w.operands)
      rw [hevent] at htick
      rw [if_neg Bool.false_ne_true, ← hw]
      exact run_result hresult hreturns rfl htick

theorem sim_dup {value dest : HandleId} (hcode : dupCall rt name value dest = .ok code)
    (harity : sig.arity rt.dupFuncIdx = 2) (hreturns : sig.returns rt.dupFuncIdx = true)
    (hraises : ∀ t, engine.raises rt.dupFuncIdx t = false) (h : Related rt st w)
    (hw : w.operands = ops) :
    Simulates rt stack ops
      (.fall, (st.tick (.dup (operandOf rt.cell st value) dest)).bind (rt.cell dest)
        ((rt.oracle engine).dupResult st.clock))
      (run (machine sig engine) fuel code labels w) := by
  obtain ⟨idx, hidx, hcode⟩ := bind_eq_ok hcode
  obtain ⟨idx', hidx', hcode⟩ := bind_eq_ok hcode
  cases hcode
  obtain rfl := localOf_eq_ok hidx
  obtain rfl := localOf_eq_ok hidx'
  rw [run_hook, run_localGet]
  have hstep := @stepCall_returns V sig engine
    { w with operands := .held (rt.cell value) (w.locals (rt.cell value)) ::
      (replicate 1 (.scalar none) ++ w.operands) } rt.dupFuncIdx
    [.held (rt.cell value) (w.locals (rt.cell value)), .scalar none] w.operands rfl harity
    (hraises _)
  rw [run_step hstep, hreturns, if_pos rfl]
  have htick := h.tick (.dup (operandOf rt.cell st value) dest)
    ([.result (engine.result rt.dupFuncIdx w.clock)] ++ w.operands)
  have hset := htick.bind (rt.cell dest) (engine.result rt.dupFuncIdx w.clock) w.operands
  rw [run_step rfl, run_nil]
  refine ⟨rfl, ?_, fun _ => hw⟩
  have hlocals : w.locals (rt.cell value) = st.cells (rt.cell value) := by rw [h.locals]
  simp only [reverse_cons, reverse_nil, nil_append, cons_append,
    map_cons, map_nil, Operand.asArg, hlocals]
  rw [h.clock] at hset ⊢
  exact hset

theorem sim_free {value : HandleId} (hcode : freeCall rt name value = .ok code)
    (harity : sig.arity rt.freeFuncIdx = 2)
    (hreturns : sig.returns rt.freeFuncIdx = rt.freeReturnsValue)
    (hraises : ∀ t, engine.raises rt.freeFuncIdx t = false) (h : Related rt st w)
    (hw : w.operands = ops) :
    Simulates rt stack ops (.fall, st.tick (.free (operandOf rt.cell st value)))
      (run (machine sig engine) fuel code labels w) := by
  obtain ⟨idx, hidx, hcode⟩ := bind_eq_ok hcode
  cases hcode
  obtain rfl := localOf_eq_ok hidx
  rw [append_assoc, run_hook, cons_append, run_localGet]
  have hstep := @stepCall_returns V sig engine
    { w with operands := .held (rt.cell value) (w.locals (rt.cell value)) ::
      (replicate 1 (.scalar none) ++ w.operands) } rt.freeFuncIdx
    [.held (rt.cell value) (w.locals (rt.cell value)), .scalar none] w.operands rfl harity
    (hraises _)
  have hlocals : w.locals (rt.cell value) = st.cells (rt.cell value) := by rw [h.locals]
  rw [cons_append, nil_append, run_step hstep, hreturns]
  simp only [reverse_cons, reverse_nil, nil_append, cons_append,
    map_cons, map_nil, Operand.asArg, hlocals]
  cases rt.freeReturnsValue with
  | true =>
    rw [if_pos rfl, if_pos rfl, run_step rfl, run_nil]
    exact ⟨rfl, h.tick (.free (operandOf rt.cell st value)) w.operands, fun _ => hw⟩
  | false =>
    rw [if_neg Bool.false_ne_true, if_neg Bool.false_ne_true, run_nil]
    exact ⟨rfl, h.tick (.free (operandOf rt.cell st value)) w.operands, fun _ => hw⟩

/-- The operand of a `return` or a `throw`. -/
theorem run_operand {value : Option HandleId} (hcode : lowerOperand rt name value = .ok code)
    (h : Related rt st w) :
    ∃ w', run (machine sig engine) fuel (code ++ rest) labels w =
        run (machine sig engine) fuel rest labels w' ∧
      popOperand value.isSome w' =
        some ((value.map (operandOf rt.cell st)).map rt.held, { w' with operands := w.operands }) ∧
      Related rt st w' := by
  cases value with
  | none =>
    cases hcode
    exact ⟨w, rfl, rfl, h⟩
  | some v =>
    obtain ⟨idx, hidx, hcode⟩ := bind_eq_ok hcode
    cases hcode
    obtain rfl := localOf_eq_ok hidx
    refine ⟨_, run_localGet, ?_, ⟨h.locals, h.trace, h.clock⟩⟩
    simp [popOperand, Operand.asArg, h.locals, held, operandOf]

theorem sim_return {operand : WasmCode} (hcode : lowerOperand rt name value = .ok operand)
    (hresult : sig.result = value.isSome) (h : Related rt st w) :
    Simulates rt stack ops (.return_, st.emit (.return_ (value.map (operandOf rt.cell st))))
      (run (machine sig engine) fuel (operand ++ [.basic .return_]) labels w) := by
  obtain ⟨w', hrun, hpop, h'⟩ := @run_operand V rt sig engine fuel name st w labels operand
    [.basic .return_] value hcode h
  have hstep : (machine sig engine).step .return_ w' = (.return_, ⟨w'.locals, w.operands,
      .return_ ((value.map (operandOf rt.cell st)).map rt.held) :: w'.trace, w'.clock⟩) := by
    simp only [machine, step, stepReturn, hresult, hpop]
  rw [hrun, run_step_stop hstep nofun]
  exact ⟨rfl, h'.emit (.return_ (value.map (operandOf rt.cell st))) w.operands, nofun⟩

theorem sim_throw (hcode : lowerThrow rt name value = .ok code)
    (hoperand : ∀ tag, rt.throwTagIdx = some tag → sig.tagOperand tag = value.isSome)
    (h : Related rt st w) :
    Simulates rt stack ops
      (.unwind (value.map (operandOf rt.cell st)),
        st.emit (.throw_ (value.map (operandOf rt.cell st))))
      (run (machine sig engine) fuel code labels w) := by
  rw [lowerThrow] at hcode
  cases htag : rt.throwTagIdx with
  | none => rw [htag] at hcode; cases hcode
  | some tag =>
    rw [htag] at hcode
    obtain ⟨operand, hop, hcode⟩ := bind_eq_ok hcode
    cases hcode
    obtain ⟨w', hrun, hpop, h'⟩ := @run_operand V rt sig engine fuel name st w labels operand
      [.basic (.throw_ tag)] value hop h
    have hstep : (machine sig engine).step (.throw_ tag) w' =
        (.throw_ ((value.map (operandOf rt.cell st)).map rt.held), ⟨w'.locals, w.operands,
          .throw_ ((value.map (operandOf rt.cell st)).map rt.held) :: w'.trace, w'.clock⟩) := by
      simp only [machine, step, stepThrow, hoperand tag htag, hpop]
    rw [hrun, run_step_stop hstep nofun]
    exact ⟨rfl, h'.emit (.throw_ (value.map (operandOf rt.cell st))) w.operands, nofun⟩

theorem depthTo_eq_ok {target : Target} {depth : Nat}
    (h : depthTo name stack label target = .ok depth) :
    depthOf stack label target = some depth := by
  rw [depthTo] at h
  cases hd : depthOf stack label target with
  | none => rw [hd] at h; cases h
  | some d =>
    rw [hd] at h
    cases h
    rfl

/-- A hook for nothing. -/
theorem run_nothing {h : Option (Hook 0)} :
    run (machine sig engine) fuel (hookOr h []) labels w = (.normal, w) := by
  cases h with
  | none => exact run_nil
  | some h =>
    have := @run_hook V sig engine fuel w labels [] 0 h
    rwa [append_nil, run_nil] at this

/-! ### The run -/

variable (rt sig engine fuel name) in
/-- What is shown of a statement. -/
def SimStmt (s : HandleStmt) : Prop :=
  (∀ s' ∈ walkStmt s, Fits rt sig s') → ∀ stack code labels st w,
    lowerStmt rt name s stack = .ok code → Related rt st w →
      Simulates rt stack w.operands (execStmt rt.cell (rt.oracle engine) fuel s st)
        (run (machine sig engine) fuel code labels w)

variable (rt sig engine fuel name) in
/-- What is shown of a statement list. -/
def SimStmts (stmts : List HandleStmt) : Prop :=
  (∀ s' ∈ walk stmts, Fits rt sig s') → ∀ stack code labels st w,
    lower rt name stmts stack = .ok code → Related rt st w →
      Simulates rt stack w.operands (execStmts rt.cell (rt.oracle engine) fuel stmts st)
        (run (machine sig engine) fuel code labels w)

theorem simStmts_cons {s : HandleStmt} {rest : List HandleStmt}
    (hs : SimStmt rt sig engine fuel name s) (hrest : SimStmts rt sig engine fuel name rest) :
    SimStmts rt sig engine fuel name (s :: rest) := by
  intro hfits stack code labels st w hcode h
  rw [walk] at hfits
  rw [lower] at hcode
  obtain ⟨code', hcode', hcode⟩ := bind_eq_ok hcode
  obtain ⟨restCode, hrestCode, hcode⟩ := bind_eq_ok hcode
  cases hcode
  rw [execStmts, run_append]
  have hfirst := hs (fun s' hs' => hfits s' (mem_append_left _ hs')) stack code' labels st w
    hcode' h
  refine hfirst.andThen fun st' w' h' hw' => ?_
  rw [← hw']
  exact hrest (fun s' hs' => hfits s' (mem_append_right _ hs')) stack restCode labels st' w'
    hrestCode h'

theorem sim_if {then_ : List HandleStmt} {else_ : Option (List HandleStmt)}
    (hthen : SimStmts rt sig engine fuel name then_)
    (helse : ∀ b, else_ = some b → SimStmts rt sig engine fuel name b) :
    SimStmt rt sig engine fuel name (.if_ then_ else_) := by
  intro hfits stack code labels st w hcode h
  rw [walkStmt] at hfits
  rw [lowerStmt] at hcode
  obtain ⟨thenCode, hthenCode, hcode⟩ := bind_eq_ok hcode
  obtain ⟨elseCode, helseCode, hcode⟩ := bind_eq_ok hcode
  cases hcode
  have hclock : engine.takes w.clock = engine.takes st.clock := by rw [h.clock]
  -- the condition on top of the operands selects the oracle's arm
  have hcond : ∃ known, run (machine sig engine) fuel
      (hookOr rt.emitCondition [.basic (.i32Const 1)] ++ [.if_ thenCode elseCode]) labels w =
        run (machine sig engine) fuel [.if_ thenCode elseCode] labels
          { w with operands := .scalar known :: w.operands } ∧
      known.elim (engine.takes w.clock) (fun value => decide (value ≠ 0)) =
        (rt.oracle engine).takes st.clock := by
    cases hhook : rt.emitCondition with
    | some hook =>
      refine ⟨none, run_hook hook, ?_⟩
      simp [oracle, hhook, hclock]
    | none =>
      refine ⟨some 1, run_step rfl, ?_⟩
      simp [oracle, hhook]
  obtain ⟨known, hrun, htaken⟩ := hcond
  rw [hrun, run_single, runCode, execStmt]
  have htest : (machine sig engine).test { w with operands := .scalar known :: w.operands } =
      some ((rt.oracle engine).takes st.clock, ⟨w.locals, w.operands,
        .branch ((rt.oracle engine).takes st.clock) :: w.trace, w.clock + 1⟩) := by
    simp only [machine, testCondition, htaken]
  have hfitsThen : ∀ s' ∈ walk then_, Fits rt sig s' := fun s' hs' =>
    hfits s' (mem_cons_of_mem _ (mem_append_left _ hs'))
  simp only [Machine.branch, htest]
  cases (rt.oracle engine).takes st.clock with
  | true =>
    have harm := hthen hfitsThen (none :: stack) thenCode (none :: labels)
      (st.tick (.branch true)) _ hthenCode (h.tick (.branch true) w.operands)
    exact harm.leave_plain
  | false =>
    have htick := h.tick (.branch false) w.operands
    cases else_ with
    | none =>
      rw [lowerElse] at helseCode
      cases helseCode
      simp only [if_neg Bool.false_ne_true, execElse, runElse]
      exact ⟨rfl, htick, fun _ => rfl⟩
    | some body =>
      rw [lowerElse] at helseCode
      obtain ⟨bodyCode, hbodyCode, helseCode⟩ := bind_eq_ok helseCode
      cases helseCode
      have hfitsElse : ∀ s' ∈ walk body, Fits rt sig s' := fun s' hs' =>
        hfits s' (mem_cons_of_mem _ (mem_append_right _ hs'))
      have harm := helse body rfl hfitsElse (none :: stack) bodyCode (none :: labels)
        (st.tick (.branch false)) _ hbodyCode htick
      simp only [if_neg Bool.false_ne_true, execElse, runElse]
      exact harm.leave_plain

theorem sim_loop (hbody : SimStmts rt sig engine fuel name body) :
    SimStmt rt sig engine fuel name (.loop label body) := by
  intro hfits stack code labels st w hcode h
  rw [walkStmt] at hfits
  rw [lowerStmt] at hcode
  obtain ⟨bodyCode, hbodyCode, hcode⟩ := bind_eq_ok hcode
  cases hcode
  rw [run_single, runCode, run_single, runCode, execStmt]
  apply Simulates.leave_region _ rfl
  apply Simulates.restart _ rfl fuel h rfl
  intro st' w' h' hw'
  rw [← hw']
  exact hbody (fun s' hs' => hfits s' (mem_cons_of_mem _ hs')) _ bodyCode _ st' w' hbodyCode h'

theorem sim_cleanup {owner : HandleId} {unwind : List HandleStmt}
    (hbody : SimStmts rt sig engine fuel name body)
    (hunwind : SimStmts rt sig engine fuel name unwind) :
    SimStmt rt sig engine fuel name (.cleanup owner body unwind) := by
  intro hfits stack code labels st w hcode h
  rw [walkStmt] at hfits
  rw [lowerStmt] at hcode
  obtain ⟨bodyCode, hbodyCode, hcode⟩ := bind_eq_ok hcode
  obtain ⟨unwindCode, hunwindCode, hcode⟩ := bind_eq_ok hcode
  cases hcode
  rw [run_single, runCode, execStmt]
  have htry := hbody (fun s' hs' => hfits s' (mem_cons_of_mem _ (mem_append_left _ hs')))
    (none :: stack) bodyCode (none :: labels) st w hbodyCode h
  obtain ⟨o, st', ho⟩ : ∃ o st', execStmts rt.cell (rt.oracle engine) fuel body st = (o, st') :=
    ⟨_, _, rfl⟩
  obtain ⟨r', w', hr'⟩ : ∃ r' w', run (machine sig engine) fuel bodyCode (none :: labels) w =
      (r', w') := ⟨_, _, rfl⟩
  rw [ho, hr'] at htry ⊢
  cases o with
  | unwind v =>
    obtain rfl := Option.some.inj htry.res
    -- the handler runs with the exception on its label, and re-raises it
    have hhandler : Simulates rt (none :: stack) w.operands
        (thenRun (execStmts rt.cell (rt.oracle engine) fuel unwind st')
          fun st'' => (.unwind v, st''))
        (run (machine sig engine) fuel (unwindCode ++ [.rethrow 0])
          (some (v.map rt.held) :: labels) ((machine sig engine).restore w w')) := by
      rw [run_append]
      have hfirst := hunwind
        (fun s' hs' => hfits s' (mem_cons_of_mem _ (mem_append_right _ hs')))
        (none :: stack) unwindCode (some (v.map rt.held) :: labels) st'
        ((machine sig engine).restore w w') hunwindCode htry.related.restore
      refine hfirst.andThen fun st'' w'' h'' _ => ?_
      rw [run_single, runCode]
      exact ⟨rfl, h'', (fun h => by cases h)⟩
    exact hhandler.leave_plain
  | break_ l | continue_ l =>
    obtain ⟨d, hd, rfl⟩ := Option.map_eq_some_iff.mp htry.res
    exact @Simulates.leave_plain V rt sig engine stack w.operands _ _ w htry
  | fall | return_ | outOfFuel =>
    obtain rfl := Option.some.inj htry.res
    exact @Simulates.leave_plain V rt sig engine stack w.operands _ _ w htry

/-- **Every statement list is simulated by its code.** -/
theorem simStmts (hdup : ∀ t, engine.raises rt.dupFuncIdx t = false)
    (hfree : ∀ t, engine.raises rt.freeFuncIdx t = false) (stmts : List HandleStmt) :
    SimStmts rt sig engine fuel name stmts := by
  induction stmts using stmtsInduction with
  | nil =>
    intro _ stack code labels st w hcode h
    rw [lower] at hcode
    cases hcode
    rw [execStmts, run_nil]
    exact ⟨rfl, h, fun _ => rfl⟩
  | call callee args dest binding rest hrest =>
    refine simStmts_cons (fun hfits stack code labels st w hcode h => ?_) hrest
    obtain ⟨harity, hreturns⟩ := hfits _ mem_cons_self
    exact sim_call hcode harity hreturns h rfl
  | use value rest hrest | opaqueWork throws rest hrest =>
    refine simStmts_cons (fun hfits stack code labels st w hcode h => ?_) hrest
    rw [lowerStmt] at hcode
    cases hcode
    rw [run_nothing]
    exact ⟨rfl, h, fun _ => rfl⟩
  | scope body rest hbody hrest =>
    refine simStmts_cons (fun hfits stack code labels st w hcode h => ?_) hrest
    rw [walkStmt] at hfits
    rw [lowerStmt] at hcode
    rw [execStmt]
    exact hbody (fun s' hs' => hfits s' (mem_cons_of_mem _ hs')) stack code labels st w hcode h
  | if_ then_ else_ rest hthen helse hrest => exact simStmts_cons (sim_if hthen helse) hrest
  | block label body rest hbody hrest =>
    refine simStmts_cons (fun hfits stack code labels st w hcode h => ?_) hrest
    rw [walkStmt] at hfits
    rw [lowerStmt] at hcode
    obtain ⟨bodyCode, hbodyCode, hcode⟩ := bind_eq_ok hcode
    cases hcode
    rw [run_single, runCode, execStmt]
    have hin := hbody (fun s' hs' => hfits s' (mem_cons_of_mem _ hs'))
      (some (label, .break_) :: stack) bodyCode (none :: labels) st w hbodyCode h
    exact hin.leave_region rfl
  | loop label body rest hbody hrest => exact simStmts_cons (sim_loop hbody) hrest
  | break_ label rest hrest | continue_ label rest hrest =>
    refine simStmts_cons (fun hfits stack code labels st w hcode h => ?_) hrest
    rw [lowerStmt] at hcode
    obtain ⟨depth, hdepth, hcode⟩ := bind_eq_ok hcode
    cases hcode
    rw [run_single, runCode, execStmt]
    exact ⟨by rw [resOf, depthTo_eq_ok hdepth]; rfl, h, (fun h => by cases h)⟩
  | return_ value rest hrest =>
    refine simStmts_cons (fun hfits stack code labels st w hcode h => ?_) hrest
    rw [lowerStmt] at hcode
    obtain ⟨operand, hop, hcode⟩ := bind_eq_ok hcode
    cases hcode
    rw [execStmt]
    exact sim_return hop (hfits _ mem_cons_self) h
  | throw_ value rest hrest =>
    refine simStmts_cons (fun hfits stack code labels st w hcode h => ?_) hrest
    rw [lowerStmt] at hcode
    rw [execStmt]
    exact sim_throw hcode (hfits _ mem_cons_self) h
  | dup value dest reason rest hrest =>
    refine simStmts_cons (fun hfits stack code labels st w hcode h => ?_) hrest
    rw [lowerStmt] at hcode
    obtain ⟨harity, hreturns⟩ := hfits _ mem_cons_self
    rw [execStmt]
    exact sim_dup hcode harity hreturns hdup h rfl
  | free value reason rest hrest =>
    refine simStmts_cons (fun hfits stack code labels st w hcode h => ?_) hrest
    rw [lowerStmt] at hcode
    obtain ⟨harity, hreturns⟩ := hfits _ mem_cons_self
    rw [execStmt]
    exact sim_free hcode harity hreturns hfree h rfl
  | cleanup owner body unwind rest hbody hunwind hrest =>
    exact simStmts_cons (sim_cleanup hbody hunwind) hrest

end

/-- **The lowering performs what the handle IR performs.**  Whatever the branch conditions
are and whichever calls throw, the code of a function runs the same calls, dups, frees,
throws and returns on the same handles, ends with the same handles in their locals, and
completes as the handle IR does. -/
theorem lowerHandleFunction_performs {func : HandleFunction} {rt : RefcountRuntime}
    {code : WasmCode} {sig : Signatures} {engine : Engine V}
    (hcode : lowerHandleFunction func rt = .ok code) (hlinked : Linked rt sig engine func.body)
    (fuel : Nat) (cells : Nat → V) :
    let r := execStmts rt.cell (rt.oracle engine) fuel func.body ⟨cells, [], 0⟩
    let r' := run (machine sig engine) fuel code [] ⟨cells, [], [], 0⟩
    r'.2.trace = r.2.trace.map rt.event ∧ r'.2.locals = r.2.cells ∧
      resOf rt [] r.1 = some r'.1 := by
  have hstart : Related rt (⟨cells, [], 0⟩ : HandleState V) ⟨cells, [], [], 0⟩ := ⟨rfl, rfl, rfl⟩
  have h := @simStmts V rt sig engine fuel func.name hlinked.dup_returns hlinked.free_returns
    func.body hlinked.fits [] code [] _ _ hcode hstart
  exact ⟨h.related.trace, h.related.locals, h.res⟩

/-! ### A loop under a cleanup -/

def pushOne : Hook 1 := ⟨[⟨0, 1⟩], fun _ _ _ => rfl⟩

def exampleRuntime : RefcountRuntime where
  dupFuncIdx := 1
  freeFuncIdx := 2
  freeReturnsValue := false
  calleeFuncIdx callee := if callee = "get" then some 3 else if callee = "put" then some 4 else none
  handleLocal h := some (h + 5)
  emitContext := pushOne
  emitScalarArg := none
  emitCondition := some pushOne
  emitUse := none
  emitOpaque := none
  throwTagIdx := none
  calleeReturnsValue _ := false

/-- `get` a handle, `put` it until a branch leaves the loop, and free it on every way. -/
def putLoop : HandleFunction where
  name := "putLoop"
  params := []
  result := .none
  body := [.call "get" [] (some 0) true,
    .cleanup 0 [.loop "L" [.if_ [.break_ "L"] none, .call "put" [some 0, none] none false,
      .continue_ "L"]] [.free 0 .unwind],
    .free 0 .scopeExit, .return_ none]

def exampleSignatures : Signatures where
  arity funcIdx := if funcIdx = 3 then 0 else 2
  returns funcIdx := funcIdx = 1 || funcIdx = 3
  tagOperand _ := false
  result := false

/-- The first branch stays in the loop, and the second `put` throws. -/
def throwingEngine : Engine Nat where
  takes t := t ≠ 1 && t ≠ 3
  raises funcIdx t := funcIdx = 4 && t = 4
  result _ t := t

theorem putLoop_linked :
    Linked exampleRuntime exampleSignatures throwingEngine putLoop.body where
  fits := by
    simp [putLoop, walk, walkStmt, walkElse, Fits, exampleSignatures, exampleRuntime,
      RefcountRuntime.funcOf]
  dup_returns _ := rfl
  free_returns _ := rfl

theorem putLoop_performs :
    ∃ code, lowerHandleFunction putLoop exampleRuntime = .ok code ∧
      (run (machine exampleSignatures throwingEngine) 9 code [] ⟨fun _ => 0, [], [], 0⟩).2.trace =
        [.call 2 [none, some (5, 0)] false, .call 4 [some (5, 0), none] true, .branch false,
          .call 4 [some (5, 0), none] false, .branch false, .call 3 [] false] := by
  refine ⟨_, rfl, ?_⟩
  exact (lowerHandleFunction_performs rfl putLoop_linked 9 fun _ => 0).1.trans rfl

end Js2Wasm.Refcount.Lower
