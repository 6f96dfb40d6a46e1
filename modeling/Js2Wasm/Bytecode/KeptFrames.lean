import Js2Wasm.Bytecode.CallFrames

/-! # The frame of a caller

While a call runs, its caller waits beneath the frames of the callee: frame, depth and
operands stay at the bottom of the three stacks, whatever the callee calls, throws and
catches.  Where the callee returns they are found again.
-/
namespace Js2Wasm.Bytecode
open List

variable {N : Type} [JsNumber N]

/-! ### Beneath a call -/

/-- The frames, the depths and the operands stand at the bottom of the machine's. -/
structure Beneath (frames : List (Frame N)) (depths : List Nat) (st : List (Value N))
    (u : Tracked N) : Prop where
  frames : frames <:+ u.state.frames
  depths : depths <:+ u.depths
  stack : st <:+ u.state.stack

section
variable {m : Module N} {types : List FuncType} {exact : Bool} {p : BytecodeProgram N}
  {fr : Frame N} {frames : List (Frame N)} {ds : List Nat} {st : List (Value N)}
  {t u v entered last t' : Tracked N}

/-- What a caller left is no deeper than the frame that runs. -/
theorem Beneath.length_le (hb : Beneath (fr :: frames) (st.length :: ds) st u)
    (ho : Ordered m types exact u) : st.length ≤ u.base :=
  ho.waiting.le_head (hb.depths.subset mem_cons_self)

/-- **A dispatch leaves a caller where it is**, as long as the caller waits. -/
theorem Beneath.turn (hb : Beneath (fr :: frames) (st.length :: ds) st u)
    (hds : ds.length = frames.length) (ho : Ordered m types exact u)
    (ho' : Ordered m types exact v) (hturn : Turn u v)
    (hlen : frames.length < v.state.frames.length) :
    Beneath (fr :: frames) (st.length :: ds) st v := by
  have hbase := hb.length_le ho
  have hown := ho.base_le
  have hdepths : (st.length :: ds).length ≤ v.depths.length := by
    rw [ho'.waiting.length, length_cons, hds]
    exact hlen
  cases hturn with
  | @moves vs pops hframes hdepths' hpops hstack =>
    refine ⟨hframes ▸ hb.frames, hdepths' ▸ hb.depths, ?_⟩
    rw [hstack]
    refine List.IsSuffix.trans ?_ (suffix_append _ _)
    refine suffix_of_suffix_length_le hb.stack (drop_suffix _ _) ?_
    rw [length_drop]
    omega
  | @enters fr' pops hframes hdepths' hpops hstack =>
    refine ⟨hframes ▸ hb.frames.trans (suffix_cons _ _),
      hdepths' ▸ hb.depths.trans (suffix_cons _ _), ?_⟩
    rw [hstack]
    refine suffix_of_suffix_length_le hb.stack (drop_suffix _ _) ?_
    rw [length_drop]
    omega
  | @returns fr' d hframes hdepths' hstack =>
    refine ⟨?_, ?_, hstack ▸ hb.stack⟩
    · refine suffix_of_suffix_length_le hb.frames ?_ hlen
      rw [hframes]
      exact suffix_cons _ _
    · refine suffix_of_suffix_length_le hb.depths ?_ hdepths
      rw [hdepths']
      exact suffix_cons _ _
  | @catches k hframes hdepths' hzero =>
    have hd : st.length :: ds <:+ v.depths := by
      refine suffix_of_suffix_length_le hb.depths ?_ hdepths
      rw [hdepths']
      exact drop_suffix _ _
    refine ⟨?_, hd, ?_⟩
    · refine suffix_of_suffix_length_le hb.frames ?_ hlen
      rw [hframes]
      exact drop_suffix _ _
    · -- the frame that catches has nothing of its callers beneath it, so this one left nothing
      have hle : st.length ≤ v.base := ho'.waiting.le_head (hd.subset mem_cons_self)
      have hv : v.base = 0 := by
        rw [Tracked.base, hdepths', headD_eq_head?_getD, head?_drop,
          ← getD_eq_getElem?_getD, hzero]
      have hnil : st = [] := eq_nil_of_length_eq_zero (by omega)
      rw [hnil]
      exact nil_suffix

section
variable (hm : m.WellTyped types exact) (hemit : emitModule m = .ok p)
include hm hemit

/-- **A run leaves a caller where it is**, as long as the caller waits. -/
theorem Beneath.run (hb : Beneath (fr :: frames) (st.length :: ds) st u)
    (hds : ds.length = frames.length) (ho : Ordered m types exact u)
    (hrun : Relation.ReflTransGen (fun u v => StepIf (Regular types exact p) p u v ∧
      frames.length < v.state.frames.length) u v) :
    Beneath (fr :: frames) (st.length :: ds) st v ∧ Ordered m types exact v := by
  induction hrun with
  | refl => exact ⟨hb, ho⟩
  | tail _ hstep ih =>
    obtain ⟨hb', ho'⟩ := ih
    obtain ⟨ho'', hturn⟩ := ho'.turn hm hemit hstep.1
    exact ⟨hb'.turn hds ho' ho'' hturn hstep.2, ho''⟩

/-! ### Runs of a program -/

/-- The machine starts in order. -/
theorem Ordered.initial {f : FuncEntry N} (hf : p.functions[p.entry]? = some f) (args : List N) :
    Ordered m types exact (.initial f args) := by
  obtain ⟨g, -, hk, -⟩ := emitModule_keepsHeights hm hemit hf
  exact ⟨Nat.le_refl 0, ⟨g.result, 0, hk, hk.entry, Nat.le_refl 0, fun _ => rfl⟩, .nil⟩

/-- **It stays in order** on every run that meets the condition. -/
theorem Ordered.run (ho : Ordered m types exact u)
    (hrun : Relation.ReflTransGen (StepIf (Regular types exact p) p) u v) :
    Ordered m types exact v := by
  induction hrun with
  | refl => exact ho
  | tail _ hstep ih => exact (ih.turn hm hemit hstep).1

end

/-- The caller's operands are taken, and it waits. -/
theorem Ordered.enters (ho : Ordered m types exact t)
    (hop : t.state.opcode = some .CALL ∨ t.state.opcode = some .CALL_REF)
    (h : StepIf (Regular types exact p) p t entered) :
    Enters p t.state entered.state (if t.state.opcode = some .CALL_REF then 1 else 0) := by
  obtain ⟨-, s', hstep, rfl⟩ := h
  obtain ⟨result, h, hk, hpoint, -⟩ := ho.running
  show Enters p t.state s' _
  rcases hpoint.here with hnone | ⟨q, i, hq, hcode, hgo⟩
  · rw [step, hnone] at hstep
    cases hstep
  have hi : t.state.opcode = some i.op := by
    rw [VmState.opcode, hq, hcode.opcode, Option.bind_some, Op.ofInt_toInt]
  rw [hi] at hop ⊢
  cases hgo with
  | plain heff =>
    cases i with
    | const v => exact absurd hop (by rintro (h | h) <;> cases h)
    | jump _ _ | tryStart _ => cases heff
    | zero op =>
      rcases hop with h | h <;>
        · cases h
          cases heff
    | one op k =>
      rcases hop with h | h
      · obtain rfl : op = .CALL := Option.some.inj h
        exact (step_CALL hcode hq hstep).2
      · obtain rfl : op = .CALL_REF := Option.some.inj h
        exact (step_CALL_REF hcode hq hstep).2
  | branch hop' =>
    obtain rfl | rfl := hop' <;> rcases hop with h | h <;> cases h
  | _ => rcases hop with h | h <;> cases h

/-! ### Operands -/

variable (m types) in
/-- How many operands an instruction takes. -/
def Ins.taken : Ins N → Nat
  | .jump .JZ _ | .jump .JNZ _ | .zero .RET | .zero .THROW => 1
  | i => (i.effect m types).elim 0 Prod.fst

/-- **Calls keep the caller's frame**: in every run of an emitted program, of well-typed
functions, whose states meet the condition, a call that returns goes on behind the call, with
the frame of the caller, and with one result on what was below the operands of the call. -/
theorem calls_keep_frame {f : FuncEntry N} {args : List N} (hm : m.WellTyped types exact)
    (hemit : emitModule m = .ok p) (hf : p.functions[p.entry]? = some f)
    (hrun : Relation.ReflTransGen (StepIf (Regular types exact p) p) (.initial f args) t)
    (hcall : CallReturns (Regular types exact p) p t entered last t') :
    KeepsFrame t.state entered.state.func t'.state := by
  have ho := (Ordered.initial hm hemit hf args).run hm hemit hrun
  obtain ⟨hop, henter, hinside, hret, hdepth, hleave⟩ := hcall
  have he := ho.enters hop henter
  have hoe := (ho.turn hm hemit henter).1
  have hnext : entered.depths = entered.state.stack.length :: t.depths := by
    obtain ⟨-, s', -, rfl⟩ := henter
    have hgrows : t.state.frames.length < s'.frames.length := by
      rw [show s'.frames = _ from he.frames, length_cons]
      exact Nat.lt_succ_self _
    exact if_pos hgrows
  -- the caller waits beneath the callee, until the callee returns
  have hb : Beneath (⟨t.state.pc + 2, t.state.locals, t.state.func, t.state.pc⟩ :: t.state.frames)
      (entered.state.stack.length :: t.depths) entered.state.stack entered :=
    ⟨he.frames ▸ suffix_refl _, hnext ▸ suffix_refl _, suffix_refl _⟩
  obtain ⟨hb', hol⟩ := hb.run hm hemit ho.waiting.length hoe hinside
  have hframes := hb'.frames.eq_of_length (by rw [length_cons, hdepth])
  have hdepths := hb'.depths.eq_of_length (by
    rw [length_cons, hol.waiting.length, hdepth, ho.waiting.length])
  obtain ⟨hreg, s', hstep, rfl⟩ := hleave
  have hlen := hol.ret_length hreg hret
  have hbase : last.base = entered.state.stack.length := by
    rw [Tracked.base, ← hdepths]
    rfl
  have hdisp : ret { last.state with pc := last.state.pc + 1 } = .next s' := by
    obtain ⟨w, hw, hwop⟩ := Option.bind_eq_some_iff.mp hret
    rw [step, hw, Option.bind_some, hwop] at hstep
    exact hstep
  obtain ⟨-, fr, d, hfr, -, hstack, hfunc, hpc, hlocals⟩ := hol.returned hlen hdisp rfl
  rw [← hframes] at hfr
  obtain ⟨rfl, hrest⟩ := List.cons.inj hfr
  refine ⟨hfunc, hpc, hlocals, hrest.symm, ?_⟩
  show ∃ result, s'.stack = result :: t.state.stack.drop _
  obtain ⟨pre, hpre⟩ := hb'.stack
  have hone : pre.length = 1 := by
    have := congrArg List.length hpre
    rw [length_append] at this
    omega
  obtain ⟨result, rfl⟩ := length_eq_one_iff.mp hone
  refine ⟨result, ?_⟩
  rw [hstack, ← hpre, he.stack]
  rfl

end

/-! ### Two programs -/

/-- The state after the given number of dispatches. -/
def Tracked.after (p : BytecodeProgram N) : Nat → Tracked N → Tracked N
  | 0, t => t
  | n + 1, t =>
    match step p t.state with
    | .next s => (t.next s).after p n
    | .halt _ => t

/-- The operands are there, and the rest goes on with what the instruction leaves. -/
theorem Typed.of_effect {m : Module N} {types : List FuncType} {exact result : Bool} {t : Tree N}
    {rest : List (Tree N)} {h h' pops pushes : Nat}
    (heff : (simpleIns t).bind (Ins.effect m types) = some (pops, pushes)) (hle : pops ≤ h)
    (hrest : Typed m types exact result rest (h - pops + pushes) h') :
    Typed m types exact result (t :: rest) h h' := by
  rw [← Nat.sub_add_cancel hle]
  exact .simple heff hrest

/-- A function that returns the exception it throws. -/
def catchFive : Func IntOrNaN where
  arity := 0
  result := true
  body := [.try_ [.const (.f64 (some 5)), .throw_ 0] [(0, [.return_])] none, .unreachable]

theorem catchFive_typed (m : Module IntOrNaN) : Typed m [] true true catchFive.body 0 1 := by
  refine .try_ (.of_effect rfl (Nat.le_refl 0) (@Typed.throw_ _ _ _ _ _ _ _ _ 0 0 0 .nil))
    (fun c hc => ?_) nofun (fun _ => cons_ne_nil _ _) (.unreachable .nil)
  obtain rfl := mem_singleton.mp hc
  exact .return_ (Nat.le_refl 1) (fun _ => rfl) .nil

/-- A function that calls it with nothing on the stack. -/
def rescuer : Module IntOrNaN where
  functions := [
    { arity := 0, result := true, body := [.call 1, .return_] },
    catchFive]
  entry := 0

theorem rescuer_typed : rescuer.WellTyped [] true := by
  refine ⟨fun f hf => ?_, fun _ f hf => ?_, fun _ t ht => nomatch ht⟩
  · rcases mem_cons.mp hf with rfl | hf
    · exact .of_effect rfl (Nat.le_refl 0) (.return_ (Nat.le_refl 1) (fun _ => rfl) .nil)
    · obtain rfl := mem_singleton.mp hf
      exact catchFive_typed rescuer
  · rcases mem_cons.mp hf with rfl | hf
    · rfl
    · obtain rfl := mem_singleton.mp hf
      rfl

/-- The flat code of `rescuer`. -/
def rescuerProgram : BytecodeProgram IntOrNaN := (emitModule rescuer).toOption.getD ⟨[], 0⟩

/-- The run of `rescuer`. -/
def rescuerRun (n : Nat) : Tracked IntOrNaN :=
  (Tracked.initial (rescuerProgram.functions.headD ⟨[], [], 0, []⟩) []).after rescuerProgram n

theorem rescuer_keeps_frame :
    KeepsFrame (rescuerRun 0).state (rescuerRun 1).state.func (rescuerRun 5).state ∧
      (rescuerRun 5).state.stack = [some (some 5)] := by
  have h1 : StepIf (Regular [] true rescuerProgram) rescuerProgram (rescuerRun 1)
      (rescuerRun 2) := ⟨trivial, _, rfl, rfl⟩
  have h2 : StepIf (Regular [] true rescuerProgram) rescuerProgram (rescuerRun 2)
      (rescuerRun 3) := ⟨trivial, _, rfl, rfl⟩
  have h3 : StepIf (Regular [] true rescuerProgram) rescuerProgram (rescuerRun 3)
      (rescuerRun 4) := by
    refine ⟨fun k hk => ?_, _, rfl, rfl⟩
    obtain rfl : 0 = k := Option.some.inj hk
    rfl
  have hcall : CallReturns (Regular [] true rescuerProgram) rescuerProgram (rescuerRun 0)
      (rescuerRun 1) (rescuerRun 4) (rescuerRun 5) :=
    ⟨Or.inl rfl, ⟨trivial, _, rfl, rfl⟩,
      ((Relation.ReflTransGen.single ⟨h1, by decide⟩).tail ⟨h2, by decide⟩).tail ⟨h3, by decide⟩,
      rfl, rfl, ⟨nofun, _, rfl, rfl⟩⟩
  exact ⟨calls_keep_frame rescuer_typed rfl rfl .refl hcall, rfl⟩

/-- A function that holds an operand while it calls it. -/
def holder : Module IntOrNaN where
  functions := [
    { arity := 0, result := true, body := [
        .const (.f64 (some 1)), .call 1, .binary .f64_add, .return_] },
    catchFive]
  entry := 0

theorem holder_typed : holder.WellTyped [] true := by
  refine ⟨fun f hf => ?_, fun _ f hf => ?_, fun _ t ht => nomatch ht⟩
  · rcases mem_cons.mp hf with rfl | hf
    · exact .of_effect rfl (by decide) (.of_effect rfl (by decide) (.of_effect rfl (by decide)
        (.return_ (Nat.le_refl 1) (fun _ => rfl) .nil)))
    · obtain rfl := mem_singleton.mp hf
      exact catchFive_typed holder
  · rcases mem_cons.mp hf with rfl | hf
    · rfl
    · obtain rfl := mem_singleton.mp hf
      rfl

/-- The flat code of `holder`. -/
def holderProgram : BytecodeProgram IntOrNaN := (emitModule holder).toOption.getD ⟨[], 0⟩

/-- The run of `holder`. -/
def holderRun (n : Nat) : Tracked IntOrNaN :=
  (Tracked.initial (holderProgram.functions.headD ⟨[], [], 0, []⟩) []).after holderProgram n

/-- **The operand of the caller is cut off**: the depth in the table is 0, not the depth of the
stack where the `try` is entered. -/
theorem caught_operand_lost : ¬ ∀ (m : Module IntOrNaN) (types : List FuncType)
    (p : BytecodeProgram IntOrNaN) (f : FuncEntry IntOrNaN) (args : List IntOrNaN)
    (t entered last t' : Tracked IntOrNaN), m.WellTyped types true → emitModule m = .ok p →
    p.functions[p.entry]? = some f →
    Relation.ReflTransGen (StepIf (fun _ => True) p) (.initial f args) t →
    CallReturns (fun _ => True) p t entered last t' →
    KeepsFrame t.state entered.state.func t'.state := by
  intro h
  have hstep : ∀ n, (∃ s, step holderProgram (holderRun n).state = .next s ∧
      holderRun (n + 1) = (holderRun n).next s) →
      StepIf (fun _ => True) holderProgram (holderRun n) (holderRun (n + 1)) :=
    fun n hn => ⟨trivial, hn⟩
  have hcall : CallReturns (fun _ => True) holderProgram (holderRun 1) (holderRun 2)
      (holderRun 5) (holderRun 6) :=
    ⟨Or.inl rfl, hstep 1 ⟨_, rfl, rfl⟩,
      ((Relation.ReflTransGen.single ⟨hstep 2 ⟨_, rfl, rfl⟩, by decide⟩).tail
        ⟨hstep 3 ⟨_, rfl, rfl⟩, by decide⟩).tail ⟨hstep 4 ⟨_, rfl, rfl⟩, by decide⟩,
      rfl, rfl, hstep 5 ⟨_, rfl, rfl⟩⟩
  obtain ⟨-, -, -, -, result, hstack⟩ := h holder [] holderProgram _ [] _ _ _ _ holder_typed rfl
    rfl (.single (hstep 0 ⟨_, rfl, rfl⟩)) hcall
  have hlen : 1 = 2 := congrArg List.length hstack
  exact absurd hlen (by decide)

end Js2Wasm.Bytecode
