import Js2Wasm.Bytecode.Agreement

/-! # Runs of a whole program

One lemma for each rule of the structured semantics: if the machine follows the executions
of the premises, it follows the one of the conclusion.  `eval_follows` puts them together
by induction on the derivation.
-/
namespace Js2Wasm.Bytecode
open List

variable {N : Type} [JsNumber N]

/-- The program is compiled from the module, up to constants that stand for others. -/
structure Compiled (E : N → N → Prop) (m : Module N) (p : BytecodeProgram N) : Prop where
  found : ∀ i f, at? m.functions i = some f → ∃ e, at? p.functions i = some e ∧
    e.arity = f.arity ∧ Region E e [] 0 (layoutTrees f.body 0) ∧
    e.exceptionTable = (layoutTrees f.body 0).rows
  missing : ∀ i, at? m.functions i = none → at? p.functions i = none

/-- The machine follows an execution of one instruction, wherever its code stands. -/
def FollowsTree (p : BytecodeProgram N) (below : List N) (t : Tree N) (c : Config N)
    (k : Completion N) (c' : Config N) (n : Nat) : Prop :=
  ∀ fn frames labels a s, Region Eq fn labels a (layoutTree t a) → Matches fn frames c s →
    s.pc = ((a : Nat) : Int) → HasStack (c.ops ++ below) s →
    Simulates p fn frames labels below (layoutTree t a) a s k c' n

def Follows (p : BytecodeProgram N) (below : List N) (trees : List (Tree N)) (c : Config N)
    (k : Completion N) (c' : Config N) (n : Nat) : Prop :=
  ∀ fn frames labels a s, Region Eq fn labels a (layoutTrees trees a) → Matches fn frames c s →
    s.pc = ((a : Nat) : Int) → HasStack (c.ops ++ below) s →
    Simulates p fn frames labels below (layoutTrees trees a) a s k c' n

theorem layoutTrees_single (t : Tree N) (a : Nat) : layoutTrees [t] a = layoutTree t a := by
  rw [layoutTrees, layoutTrees, Layout.append_empty]

section
variable {p : BytecodeProgram N} {below : List N} {t : Tree N} {trees rest : List (Tree N)}
  {c c1 c2 c' : Config N} {k : Completion N} {n n' : Nat}

theorem follows_single : Follows p below [t] c k c' n ↔ FollowsTree p below t c k c' n := by
  simp only [Follows, FollowsTree, layoutTrees_single]

theorem layoutTree_inside (t : Tree N) (a : Nat) :
    ∀ r ∈ (layoutTree t a).rows, r.Inside a (a + (layoutTree t a).size) := by
  rw [← layoutTrees_single]
  exact layoutTrees_inside [t] a

/-! ### Sequences -/

theorem follows_seq (h : FollowsTree p below t c .normal c1 n)
    (hr : Follows p below rest c1 k c2 n') : Follows p below (t :: rest) c k c2 (n + n') := by
  intro fn frames labels a s hreg hm hpc hst
  rw [layoutTrees] at hreg ⊢
  obtain ⟨hreg1, hreg2⟩ := hreg.split (layoutTree_inside t a) (layoutTrees_inside rest _)
  obtain ⟨s', hrun, hpc', hm', hst'⟩ := h fn frames labels a s hreg1 hm hpc hst
  refine ((hr fn frames labels _ s' hreg2 hm' hpc' hst').prepend hrun).widen (Nat.le_add_right _ _)
    ?_ fun r hr => ?_
  · rw [Layout.size_append, Nat.add_assoc]
  · rcases mem_append.mp hr with hr | hr
    · exact Or.inr (layoutTree_inside t a r hr).stop
    · exact Or.inl hr

theorem follows_stop (h : FollowsTree p below t c k c1 n) (hk : k ≠ .normal) :
    Follows p below (t :: rest) c k c1 n := by
  intro fn frames labels a s hreg hm hpc hst
  rw [layoutTrees] at hreg ⊢
  obtain ⟨hreg1, -⟩ := hreg.split (layoutTree_inside t a) (layoutTrees_inside rest _)
  exact (h fn frames labels a s hreg1 hm hpc hst).stop hk (layoutTrees_inside rest _)

/-! ### Blocks and loops -/

theorem Simulates.leave {fn : FuncEntry N} {frames : List (Frame N)} {labels : List Nat}
    {self a : Nat} {l : Layout N} {s : VmState N}
    (h : Simulates p fn frames (self :: labels) below l a s k c' n)
    (hself : k = .branch 0 → self = a + l.size) :
    Simulates p fn frames labels below (l.close self) a s k.leave c' n := by
  cases k with
  | normal =>
    show Simulates p fn frames labels below (l.close self) a s .normal c' n
    rw [Simulates, Layout.size_close]
    exact h
  | branch d =>
    cases d with
    | zero =>
      rw [Completion.leave, Simulates, Layout.size_close, ← hself rfl]
      exact h self rfl
    | succ d => exact fun t ht => h t ht
  | throw_ tagIdx v =>
    show Simulates p fn frames labels below (l.close self) a s (.throw_ tagIdx v) c' n
    rw [Simulates, Layout.size_close]
    exact h
  | return_ v => exact h
  | trap => exact h

variable {body : List (Tree N)}

theorem follows_block (ih : Follows p below body c k c' n) :
    FollowsTree p below (.block body) c k.leave c' n := by
  intro fn frames labels a s hreg hm hpc hst
  rw [layoutTree] at hreg ⊢
  exact (ih fn frames _ a s hreg.of_close hm hpc hst).leave fun _ => rfl

theorem follows_again (ih : Follows p below body c (.branch 0) c1 n)
    (ih' : FollowsTree p below (.loop body) c1 k c2 n') :
    FollowsTree p below (.loop body) c k c2 (n + n') := by
  intro fn frames labels a s hreg hm hpc hst
  have hbody := hreg
  rw [layoutTree] at hbody
  obtain ⟨s', hrun, hpc', hm', hst'⟩ := ih fn frames _ a s hbody.of_close hm hpc hst a rfl
  exact (ih' fn frames labels a s' hreg hm' hpc' hst').prepend hrun

theorem follows_loop (ih : Follows p below body c k c' n) (hk : k ≠ .branch 0) :
    FollowsTree p below (.loop body) c k.leave c' n := by
  intro fn frames labels a s hreg hm hpc hst
  rw [layoutTree] at hreg ⊢
  exact (ih fn frames _ a s hreg.of_close hm hpc hst).leave fun hc => absurd hc hk

/-! ### Jumps -/

section
variable {fn : FuncEntry N} {frames : List (Frame N)} {a target : Nat} {s : VmState N}

theorem step_jump {op : Op} (hcode : CodeAt Eq fn a [.jump op (.addr target)])
    (hm : Matches fn frames c s) (hpc : s.pc = (a : Int)) :
    step p s = dispatch p op { s with pc := s.pc + 1 } ∧
      (at? s.func.code (s.pc + 1)).getD 0 = (target : Int) :=
  ⟨step_at hm hpc hcode (by rintro ws ⟨⟩; rfl), operand_at hm hpc hcode (by rintro ws ⟨⟩; rfl)⟩

variable {v : N} {st : List (Value N)}

theorem step_jz (hcode : CodeAt Eq fn a [.jump .JZ (.addr target)]) (hm : Matches fn frames c s)
    (hpc : s.pc = (a : Int)) (hst : s.stack = some v :: st) :
    step p s = .next { s with
      stack := st, pc := if JsNumber.truthy v then s.pc + 1 + 1 else (target : Int) } := by
  obtain ⟨hstep, hoperand⟩ := @step_jump _ _ p _ _ _ _ _ _ _ hcode hm hpc
  rw [hstep, dispatch]
  simp only [hoperand, hst, pop, isZero_some]
  cases JsNumber.truthy v <;> rfl

theorem step_jnz (hcode : CodeAt Eq fn a [.jump .JNZ (.addr target)]) (hm : Matches fn frames c s)
    (hpc : s.pc = (a : Int)) (hst : s.stack = some v :: st) :
    step p s = .next { s with
      stack := st, pc := if JsNumber.truthy v then (target : Int) else s.pc + 1 + 1 } := by
  obtain ⟨hstep, hoperand⟩ := @step_jump _ _ p _ _ _ _ _ _ _ hcode hm hpc
  rw [hstep, dispatch]
  simp only [hoperand, hst, pop, isZero_some]
  cases JsNumber.truthy v <;> rfl

theorem step_jmp (hcode : CodeAt Eq fn a [.jump .JMP (.addr target)]) (hm : Matches fn frames c s)
    (hpc : s.pc = (a : Int)) : step p s = .next { s with pc := (target : Int) } := by
  obtain ⟨hstep, hoperand⟩ := @step_jump _ _ p _ _ _ _ _ _ _ hcode hm hpc
  rw [hstep, dispatch]
  simp only [hoperand]

end

variable {then_ els body : List (Tree N)} {exn : Value N} {fn func : FuncEntry N} {s : VmState N}
    {catches : List (Nat × List (Tree N))} {heap : List (HeapObject N)} {tagIdx a d target : Nat}
    {frames : List (Frame N)} {i q : Int} {catchAll : Option (List (Tree N))} {args ops : List N}
    {f : Func N} {v : N} {globals locals : Int → Value N} {labels : List Nat} {m : Module N}
    {st : List (Value N)}

/-- A branch that the emitter could not resolve is not followed. -/
theorem within_pending (h : labels[d]? = some target) :
    (Target.pending d).within labels = .addr target := by
  rw [Target.within, h]
  rfl

theorem follows_br : FollowsTree p below (.br d) c (.branch d) c 1 := by
  intro fn frames labels a s hreg hm hpc ⟨junk, hst⟩ target htarget
  have hcode : CodeAt Eq fn a [.jump .JMP ((Target.pending d).within labels)] := hreg.code
  rw [within_pending htarget] at hcode
  exact ⟨_, step_jmp hcode hm hpc, rfl, hm.moved _ s.stack c.ops, junk, hst⟩

theorem follows_brIfTaken (hops : c.ops = [v]) (hv : JsNumber.truthy v = true) :
    FollowsTree p below (.brIf d) c (.branch d) { c with ops := [] } 1 := by
  intro fn frames labels a s hreg hm hpc ⟨junk, hst⟩ target htarget
  have hcode : CodeAt Eq fn a [.jump .JNZ ((Target.pending d).within labels)] := hreg.code
  rw [within_pending htarget] at hcode
  rw [hops] at hst
  refine ⟨_, step_jnz hcode hm hpc hst, ?_, hm.moved _ _ [], junk, rfl⟩
  show (if JsNumber.truthy v then (target : Int) else s.pc + 1 + 1) = target
  rw [if_pos hv]

theorem follows_brIfNot (hops : c.ops = v :: ops) (hv : JsNumber.truthy v = false) :
    FollowsTree p below (.brIf d) c .normal { c with ops } 1 := by
  intro fn frames labels a s hreg hm hpc ⟨junk, hst⟩
  have hcode : CodeAt Eq fn a [.jump .JNZ ((Target.pending d).within labels)] := hreg.code
  rw [hops] at hst
  -- the jump is not taken, wherever it goes
  have hstep : step p s = dispatch p .JNZ { s with pc := s.pc + 1 } :=
    step_at hm hpc hcode (by rintro ws ⟨⟩; rfl)
  refine ⟨{ s with pc := s.pc + 1 + 1, stack := (ops ++ below).map some ++ junk }, ?_, ?_,
    hm.moved _ _ ops, junk, rfl⟩
  · rw [advance_one, hstep, dispatch]
    simp only [hst, cons_append, map_cons, pop, isZero_some, hv]
    rfl
  · show s.pc + 1 + 1 = ((a + 2 : Nat) : Int)
    lia

/-! ### Conditionals -/

omit [JsNumber N] in
theorem Completion.leave_of_not_branch (hk : k.isBranch = false) : k.leave = k := by
  cases k with
  | branch d => exact nomatch hk
  | _ => rfl

theorem follows_ifTrue (hops : c.ops = [v]) (hv : JsNumber.truthy v = true)
    (ih : Follows p below then_ { c with ops := [] } k c' n) (hk : k.isBranch = false) :
    FollowsTree p below (.if_ then_ els) c k.leave c'
      (1 + n + if k.isNormal then 1 else 0) := by
  rintro fn frames labels a s hreg hm hpc ⟨junk, hst⟩
  rw [layoutTree] at hreg ⊢
  obtain ⟨hjz, hthen, hjmp, hels⟩ := hreg.of_if (layoutTrees_inside _ _) (layoutTrees_inside _ _)
  rw [hops] at hst
  have hrun : advance p 1 (.next s) = .next { s with
      stack := below.map some ++ junk, pc := ((a + 2 : Nat) : Int) } := by
    rw [advance_one, step_jz hjz hm hpc hst, if_pos hv]
    congr 2
    lia
  have hsim := (ih fn frames labels (a + 2) _ hthen (hm.moved _ _ []) rfl ⟨junk, rfl⟩).prepend hrun
  rw [Completion.leave_of_not_branch hk]
  cases k with
  | normal =>
    obtain ⟨s', hrun', hpc', hm', hst'⟩ := hsim
    refine ⟨{ s' with pc := ((a + 4 + (layoutTrees then_ (a + 2)).size +
      (layoutTrees els (a + 4 + (layoutTrees then_ (a + 2)).size)).size : Nat) : Int) }, ?_, ?_,
      hm'.moved _ s'.stack c'.ops, hst'⟩
    · rw [Completion.isNormal, if_pos rfl, advance_add, hrun', advance_one]
      exact step_jmp hjmp hm' hpc'
    · rw [layoutIf_size]
      simp only
      lia
  | branch d => cases hk
  | throw_ tagIdx w =>
    obtain ⟨s', st, q, hrun', hm', hq, hq', hno⟩ := hsim
    refine ⟨s', st, q, hrun', hm', by lia, by rw [layoutIf_size]; lia, fun r hr => ?_⟩
    rcases mem_append.mp hr with hr | hr
    · exact hno r hr
    · have := (layoutTrees_inside _ _ r hr).start
      exact Bool.eq_false_iff.mpr fun hc => by
        have := ExcEntry.covers_iff.mp hc
        lia
  | return_ w => exact hsim
  | trap => exact hsim

theorem follows_ifFalse (hops : c.ops = [v]) (hv : JsNumber.truthy v = false)
    (ih : Follows p below els { c with ops := [] } k c' n) (hk : k.isBranch = false) :
    FollowsTree p below (.if_ then_ els) c k.leave c' (1 + n) := by
  rintro fn frames labels a s hreg hm hpc ⟨junk, hst⟩
  rw [layoutTree] at hreg ⊢
  obtain ⟨hjz, hthen, hjmp, hels⟩ := hreg.of_if (layoutTrees_inside _ _) (layoutTrees_inside _ _)
  rw [hops] at hst
  have hrun : advance p 1 (.next s) = .next { s with
      stack := below.map some ++ junk
      pc := ((a + 4 + (layoutTrees then_ (a + 2)).size : Nat) : Int) } := by
    rw [advance_one, step_jz hjz hm hpc hst, if_neg (by rw [hv]; rintro ⟨⟩)]
    rfl
  rw [Completion.leave_of_not_branch hk]
  refine ((ih fn frames labels _ _ hels (hm.moved _ _ []) rfl ⟨junk, rfl⟩).prepend hrun).widen
    (by lia) (by rw [layoutIf_size]; lia) fun r hr => ?_
  rcases mem_append.mp hr with hr | hr
  · right
    have := (layoutTrees_inside _ _ r hr).stop
    lia
  · exact Or.inl hr

/-! ### Handlers -/

theorem step_zero {op : Op} (hcode : CodeAt Eq fn a [.zero op]) (hm : Matches fn frames c s)
    (hpc : s.pc = (a : Int)) : step p s = dispatch p op { s with pc := s.pc + 1 } :=
  step_at hm hpc hcode (by rintro ws ⟨⟩; rfl)

theorem step_tryStart (hcode : CodeAt Eq fn a [.tryStart target]) (hm : Matches fn frames c s)
    (hpc : s.pc = (a : Int)) : step p s = .next { s with pc := ((a + 2 : Nat) : Int) } := by
  have hstep : step p s = dispatch p .TRY_START { s with pc := s.pc + 1 } :=
    step_at hm hpc hcode (by rintro ws ⟨⟩; rfl)
  rw [hstep, dispatch]
  simp only [hpc]
  congr 2

/-- The layout of the handlers of a `try`. -/
def layoutHandlers (catches : List (Nat × List (Tree N))) (catchAll : Option (List (Tree N)))
    (a : Nat) : Layout N :=
  let h := layoutCatches catches a
  h.append (layoutCatchAll catchAll (a + h.size))

theorem layoutCatches_inside (catches : List (Nat × List (Tree N))) (a : Nat) :
    ∀ r ∈ (layoutCatches catches a).rows, r.Inside a (a + (layoutCatches catches a).size) := by
  cases catches with
  | nil => exact fun r hr => nomatch hr
  | cons c cs =>
    obtain ⟨tagIdx, handler⟩ := c
    exact layoutTrees_inside handler a

theorem layoutCatchAll_inside (catchAll : Option (List (Tree N))) (a : Nat) :
    ∀ r ∈ (layoutCatchAll catchAll a).rows, r.Inside a (a + (layoutCatchAll catchAll a).size) := by
  cases catchAll with
  | none => exact fun r hr => nomatch hr
  | some handler => exact layoutTrees_inside handler a

theorem layoutHandlers_inside (catches : List (Nat × List (Tree N)))
    (catchAll : Option (List (Tree N))) (a : Nat) :
    ∀ r ∈ (layoutHandlers catches catchAll a).rows,
      r.Inside a (a + (layoutHandlers catches catchAll a).size) := by
  intro r hr
  rw [layoutHandlers, Layout.size_append]
  rcases mem_append.mp hr with hr | hr
  · exact (layoutCatches_inside catches a r hr).mono .refl (by lia)
  · exact (layoutCatchAll_inside catchAll _ r hr).mono (by lia) (by lia)

theorem follows_try (ih : Follows p below body c k c' n) (hthrow : ∀ tagIdx v, k ≠ .throw_ tagIdx v)
    (hk : k.isBranch = false) :
    FollowsTree p below (.try_ body catches catchAll) c k.leave c'
      (1 + n + if k.isNormal then 2 else 0) := by
  intro fn frames labels a s hreg hm hpc hst
  change Region Eq fn labels a (layoutTry a (layoutTrees body (a + 2))
    (layoutHandlers catches catchAll (a + 5 + (layoutTrees body (a + 2)).size))) at hreg
  show Simulates p fn frames labels below (layoutTry a (layoutTrees body (a + 2))
    (layoutHandlers catches catchAll (a + 5 + (layoutTrees body (a + 2)).size))) a s _ c' _
  obtain ⟨hstart, hbody, hend, hjmp, -, -⟩ := hreg.of_try (layoutTrees_inside _ _)
    (layoutHandlers_inside _ _ _)
  have hrun : advance p 1 (.next s) = .next { s with pc := ((a + 2 : Nat) : Int) } := by
    rw [advance_one, step_tryStart hstart hm hpc]
  have hsim := (ih fn frames labels (a + 2) _ hbody (hm.moved _ s.stack c.ops) rfl hst).prepend hrun
  rw [Completion.leave_of_not_branch hk]
  cases k with
  | normal =>
    obtain ⟨s', hrun', hpc', hm', hst'⟩ := hsim
    -- behind the body, the end marker and the jump over the handlers
    have hmark : step p s' = .next { s' with pc := s'.pc + 1 } := by
      rw [step_zero hend hm' hpc', dispatch]
    have hm'' : Matches fn frames c' { s' with pc := s'.pc + 1 } := hm'.moved _ s'.stack c'.ops
    have hjump := @step_jmp _ _ p _ fn frames _ _ { s' with pc := s'.pc + 1 } hjmp hm'' (by
      show s'.pc + 1 = _
      lia)
    refine ⟨{ s' with pc := ((a + 5 + (layoutTrees body (a + 2)).size + (layoutHandlers catches
      catchAll (a + 5 + (layoutTrees body (a + 2)).size)).size : Nat) : Int) }, ?_, ?_,
      hm''.moved _ s'.stack c'.ops, hst'⟩
    · rw [Completion.isNormal, if_pos rfl, advance_add, hrun']
      show advance p 1 (step p s') = _
      rw [hmark, advance_one]
      exact hjump
    · rw [layoutTry_size]
      simp only
      lia
  | branch d => cases hk
  | throw_ tagIdx v => exact absurd rfl (hthrow tagIdx v)
  | return_ w => exact hsim
  | trap => exact hsim

omit [JsNumber N] in
theorem truncate_zero (st : List (Value N)) : truncate 0 st = [] := by
  rw [truncate, Nat.sub_zero, drop_length]

omit [JsNumber N] in
theorem unwind_found {r : ExcEntry} (h : findHandler func.exceptionTable q = some r) :
    unwind exn st globals heap func locals q frames =
      .next ⟨func, r.catchTarget, locals, exn :: truncate r.spAtEntry st, globals, frames, heap⟩ := by
  rw [unwind.eq_def]
  simp only [h]

omit [JsNumber N] in
/-- Without a handler the exception goes to the caller, at its call. -/
theorem unwind_caller {caller : Frame N} (h : findHandler func.exceptionTable q = none) :
    unwind exn st globals heap func locals q (caller :: frames) =
      unwind exn st globals heap caller.func caller.locals caller.callSite frames := by
  rw [unwind.eq_def]
  simp only [h]

omit [JsNumber N] in
theorem unwind_uncaught (h : findHandler func.exceptionTable q = none) :
    unwind exn st globals heap func locals q [] = .halt (.error (.uncaughtThrow exn)) := by
  rw [unwind.eq_def]
  simp only [h]

/-- An exception thrown in the body arrives at the handlers, alone on the stack. -/
theorem throw_caught {b h : Layout N} (hreg : Region Eq fn labels a (layoutTry a b h))
    (hb : ∀ r ∈ b.rows, r.Inside (a + 2) (a + 2 + b.size))
    (hh : ∀ r ∈ h.rows, r.Inside (a + 5 + b.size) (a + 5 + b.size + h.size))
    (hsim : Simulates p fn frames labels below b (a + 2) s (.throw_ tagIdx v) c1 n) :
    ∃ s', advance p n (.next s) = .next s' ∧ s'.pc = ((a + 5 + b.size : Nat) : Int) ∧
      Matches fn frames c1 s' ∧ s'.stack = [some v] := by
  obtain ⟨-, -, -, -, -, hrow⟩ := hreg.of_try hb hh
  obtain ⟨s', st, q, hrun, hm, hq, hq', hno⟩ := hsim
  have hfind : findHandler fn.exceptionTable (q : Int) = some (tryRow a b) :=
    findHandler_some hrow.mem (ExcEntry.covers_iff.mpr ⟨hq, hq'⟩)
      fun r hr hcov => hrow.smallest r hr q hq hq' hno hcov
  refine ⟨⟨fn, ((a + 5 + b.size : Nat) : Int), s'.locals, [some v], s'.globals, frames, s'.heap⟩, ?_, rfl,
    ⟨rfl, rfl, hm.locals, hm.globals⟩, rfl⟩
  rw [hrun, unwind_found hfind]
  simp only [tryRow, truncate_zero]

/-- The handler that the flat code runs, and how it goes on behind it. -/
theorem follows_caught {handler : List (Tree N)} {live : Bool}
    (ih : Follows p [] body c (.throw_ tagIdx v) c1 n)
    (hcatch : Catches catches catchAll tagIdx v handler ops live) (hlive : live = true)
    (ih' : Follows p [] handler { c1 with ops } k c' n') (hk : k.isBranch = false)
    (hfall : catches ≠ [] → catchAll = none ∨ k ≠ .normal) :
    FollowsTree p [] (.try_ body catches catchAll) c k.leave c' (1 + n + n') := by
  intro fn frames labels a s hreg hm hpc hst
  change Region Eq fn labels a (layoutTry a (layoutTrees body (a + 2))
    (layoutHandlers catches catchAll (a + 5 + (layoutTrees body (a + 2)).size))) at hreg
  show Simulates p fn frames labels [] (layoutTry a (layoutTrees body (a + 2))
    (layoutHandlers catches catchAll (a + 5 + (layoutTrees body (a + 2)).size))) a s _ c' _
  have hb := layoutTrees_inside body (a + 2)
  have hh := layoutHandlers_inside catches catchAll (a + 5 + (layoutTrees body (a + 2)).size)
  obtain ⟨hstart, hbody, -, -, hhandlers, -⟩ := hreg.of_try hb hh
  have hrun : advance p 1 (.next s) = .next { s with pc := ((a + 2 : Nat) : Int) } := by
    rw [advance_one, step_tryStart hstart hm hpc]
  obtain ⟨s1, hrun1, hpc1, hm1, hst1⟩ := throw_caught hreg hb hh
    ((ih fn frames labels (a + 2) _ hbody (hm.moved _ s.stack c.ops) rfl hst).prepend hrun)
  have hsimTo : ∀ {l l' : Layout N}, layoutHandlers catches catchAll
      (a + 5 + (layoutTrees body (a + 2)).size) = l.append l' →
      (∀ r ∈ l'.rows, r.Inside (a + 5 + (layoutTrees body (a + 2)).size + l.size)
        (a + 5 + (layoutTrees body (a + 2)).size + l.size + l'.size)) →
      (k = .normal → l' = .empty) →
      Simulates p fn frames labels [] l (a + 5 + (layoutTrees body (a + 2)).size) s1 k c' n' →
      Simulates p fn frames labels [] (layoutTry a (layoutTrees body (a + 2)) (layoutHandlers
        catches catchAll (a + 5 + (layoutTrees body (a + 2)).size))) a s k c' (1 + n + n') := by
    intro l l' hl hl' hnormal hsim
    have hwhole : Simulates p fn frames labels [] (l.append l')
        (a + 5 + (layoutTrees body (a + 2)).size) s1 k c' n' := by
      by_cases hkn : k = .normal
      · rw [hnormal hkn, Layout.append_empty]
        exact hsim
      · exact hsim.stop hkn hl'
    rw [← hl] at hwhole
    refine (hwhole.prepend hrun1).widen (by lia) (by rw [layoutTry_size]; lia) fun r hr => ?_
    rcases mem_append.mp hr with hr | hr
    · rcases mem_append.mp hr with hr | hr
      · right
        have := (hb r hr).stop
        lia
      · exact Or.inl hr
    · right
      rw [mem_singleton.mp hr]
      show a + 2 + _ ≤ _
      lia
  rw [Completion.leave_of_not_branch hk]
  cases hcatch with
  | @first _ rest heq =>
    subst heq
    have hsplit := hhandlers.split (layoutCatches_inside _ _) (layoutCatchAll_inside _ _)
    refine hsimTo rfl (layoutCatchAll_inside _ _) (fun hkn => ?_) (ih' fn frames labels _ s1
      hsplit.1 (hm1.withOps [v]) hpc1 ⟨[], hst1⟩)
    rcases hfall (cons_ne_nil _ _) with hnone | hne
    · rw [hnone]
      rfl
    · exact absurd hkn hne
  | later _ _ _ => exact nomatch hlive
  | all _ hall =>
    obtain rfl := isEmpty_iff.mp hlive
    subst hall
    -- the exception stays under the operands
    refine @hsimTo _ .empty (Layout.append_empty _).symm (fun r hr => nomatch hr)
      (fun _ => rfl) ?_
    exact ih' fn frames labels _ s1 hhandlers (hm1.withOps []) hpc1 ⟨[some v], hst1⟩

/-! ### Leaving the frame -/

theorem follows_unreachable : FollowsTree p below .unreachable c .trap c 1 := by
  intro fn frames labels a s hreg hm hpc hst
  refine ⟨.unreachable (s.pc + 1 - 1), ?_, trivial⟩
  rw [advance_one, step_zero hreg.code hm hpc, dispatch]

theorem follows_return {v : Option N} {ops : List N} (hops : c.ops = v.toList ++ ops) :
    FollowsTree p below .return_ c (.return_ v) { c with ops } 1 := by
  intro fn frames labels a s hreg hm hpc ⟨junk, hst⟩
  refine ⟨{ s with pc := s.pc + 1 }, ?_, hm.moved _ s.stack ops, junk, ?_⟩
  · rw [advance_one, step_zero hreg.code hm hpc, dispatch]
  · show s.stack = _
    rw [hst, hops, append_assoc]

theorem follows_throw (hops : c.ops = v :: ops) :
    FollowsTree p below (.throw_ tagIdx) c (.throw_ tagIdx v) { c with ops := [] } 1 := by
  intro fn frames labels a s hreg hm hpc ⟨junk, hst⟩
  rw [hops] at hst
  refine ⟨s, (ops ++ below).map some ++ junk, a, ?_, hm.withOps [], Nat.le_refl a,
    Nat.lt_add_of_pos_right Nat.zero_lt_one, fun r hr => nomatch hr⟩
  rw [advance_one, step_zero hreg.code hm hpc, dispatch]
  simp only [hst, cons_append, map_cons, pop, hm.func, hm.frames, hpc]
  rw [Int.add_sub_cancel]

/-! ### Calls -/

omit [JsNumber N] in
/-- The arguments arrive in the locals, the last one from the top of the stack. -/
theorem popArgs_spec : ∀ (n : Nat) (args : List N) (st : List (Value N)) (locals : Int → Value N),
    args.length = n → ∃ locals', popArgsIntoLocals n (args.reverse.map some ++ st) locals =
      (locals', st) ∧ ∀ i : Nat, locals' i = if i < n then args[i]? else locals i := by
  intro n
  induction n with
  | zero =>
    intro args st locals hlen
    rw [length_eq_zero_iff.mp hlen]
    exact ⟨locals, rfl, fun i => (if_neg (Nat.not_lt_zero i)).symm⟩
  | succ n ih =>
    intro args st locals hlen
    obtain ⟨init, last, rfl⟩ : ∃ init last, args = init ++ [last] := by
      rcases eq_nil_or_concat args with rfl | ⟨init, last, h⟩
      · exact nomatch hlen
      · exact ⟨init, last, by rw [h, concat_eq_append]⟩
    have hinit : init.length = n := by simpa using hlen
    obtain ⟨locals', hpop, hl⟩ := ih init st (Function.update locals (n : Int) (some last)) hinit
    refine ⟨locals', ?_, fun i => ?_⟩
    · rw [reverse_append, reverse_singleton, singleton_append, map_cons,
        cons_append, popArgsIntoLocals]
      exact hpop
    · rw [hl, Function.update_apply]
      rcases Nat.lt_trichotomy i n with hlt | rfl | hgt
      · rw [if_pos hlt, if_pos (by lia), getElem?_append_left (by lia)]
      · rw [if_neg (by lia), if_pos rfl, if_pos (by lia), ← hinit]
        simp
      · rw [if_neg (by lia), if_neg (by lia), if_neg (by lia)]

/-- The instruction is a call, and what the machine calls is what the tree calls. -/
theorem step_call {fn : FuncEntry N} {frames : List (Frame N)} {labels : List Nat} {a : Nat}
    {s : VmState N} {i : Int} {ops : List N} (hcallee : calleeOf t c.ops = some (i, ops))
    (hreg : Region Eq fn labels a (layoutTree t a)) (hm : Matches fn frames c s)
    (hpc : s.pc = (a : Int)) {junk : List (Value N)}
    (hst : s.stack = (c.ops ++ below).map some ++ junk) :
    (layoutTree t a).size = 2 ∧ (layoutTree t a).rows = [] ∧
    step p s = match at? p.functions i with
      | none => .halt (.error (.callOutOfRange (a : Int)))
      | some callee => .next (enterFunction callee { s with
          pc := (a : Int) + 2, stack := (ops ++ below).map some ++ junk }) := by
  unfold calleeOf at hcallee
  split at hcallee
  · next funcIdx =>
    cases hcallee
    have hcode : CodeAt Eq fn a [(.one .CALL funcIdx : Ins N)] := hreg.code
    refine ⟨rfl, rfl, ?_⟩
    have hoperand : (at? s.func.code (s.pc + 1)).getD 0 = (funcIdx : Int) :=
      operand_at hm hpc hcode (by rintro ws ⟨⟩; rfl)
    have hstep : step p s = dispatch p .CALL { s with pc := s.pc + 1 } :=
      step_at hm hpc hcode (by rintro ws ⟨⟩; rfl)
    rw [hpc] at hoperand
    have hback : (a : Int) + 1 - 1 = a := by lia
    have hnext : (a : Int) + 1 + 1 = a + 2 := by lia
    rw [hstep, dispatch]
    cases hf : at? p.functions (funcIdx : Int) <;>
      simp only [hpc, hoperand, ← hst, hback, hnext, hf]
  · next typeIdx funcref ops' hops =>
    split at hcallee
    · cases hcallee
    · next hne =>
      cases hcallee
      have hcode : CodeAt Eq fn a [(.one .CALL_REF typeIdx : Ins N)] := hreg.code
      refine ⟨rfl, rfl, ?_⟩
      have hstep : step p s = dispatch p .CALL_REF { s with pc := s.pc + 1 } :=
        step_at hm hpc hcode (by rintro ws ⟨⟩; rfl)
      have hback : (a : Int) + 1 - 1 = a := by lia
      have hnext : (a : Int) + 1 + 1 = a + 2 := by lia
      rw [hops] at hst
      rw [hstep, dispatch]
      simp only [hpc, hst, cons_append, map_cons, pop, strictEqual_some, if_neg hne,
        hback, hnext]
      rfl
  · cases hcallee

theorem follows_callNull {typeIdx : Nat} {funcref : N} (hops : c.ops = funcref :: ops)
    (hnull : JsNumber.strictEq funcref JsNumber.negOne = true) :
    FollowsTree p below (.callRef typeIdx) c .trap c 1 := by
  intro fn frames labels a s hreg hm hpc ⟨junk, hst⟩
  have hcode : CodeAt Eq fn a [(.one .CALL_REF typeIdx : Ins N)] := hreg.code
  have hstep : step p s = dispatch p .CALL_REF { s with pc := s.pc + 1 } :=
    step_at hm hpc hcode (by rintro ws ⟨⟩; rfl)
  rw [hops] at hst
  refine ⟨.nullFuncref (s.pc + 1 - 1), ?_, trivial⟩
  rw [advance_one, hstep, dispatch]
  simp [hst, pop, strictEqual_some, hnull]

theorem follows_callMissing (hcallee : calleeOf t c.ops = some (i, ops))
    (hmiss : at? p.functions i = none) : FollowsTree p below t c .trap c 1 := by
  intro fn frames labels a s hreg hm hpc ⟨junk, hst⟩
  obtain ⟨-, -, hstep⟩ := @step_call N _ p below t c fn frames labels a s i ops hcallee hreg hm hpc
    junk hst
  refine ⟨.callOutOfRange a, ?_, trivial⟩
  rw [advance_one, hstep, hmiss]

variable (hp : Compiled Eq m p) (hcallee : calleeOf t c.ops = some (i, args.reverse ++ ops))
  (hf : at? m.functions i = some f) (hargs : args.length = f.arity)

include hp hcallee hf hargs in
/-- The machine enters the callee. -/
theorem call_enters (hreg : Region Eq fn labels a (layoutTree t a))
    (hm : Matches fn frames c s) (hpc : s.pc = (a : Int)) (hst : HasStack (c.ops ++ below) s) :
    ∃ e s', step p s = .next s' ∧ Region Eq e [] 0 (layoutTrees f.body 0) ∧
      e.exceptionTable = (layoutTrees f.body 0).rows ∧ s'.pc = ((0 : Nat) : Int) ∧
      Matches e (⟨(a : Int) + 2, s.locals, fn, (a : Int)⟩ :: frames) (c.enter args) s' ∧
      HasStack (ops ++ below) s' := by
  obtain ⟨junk, hst⟩ := hst
  obtain ⟨e, he, harity, hregion, htable⟩ := hp.found i f hf
  obtain ⟨-, -, hstep⟩ := @step_call N _ p below t c fn frames labels a s i _ hcallee hreg hm hpc
    junk hst
  obtain ⟨locals', hpop, hlocals⟩ := popArgs_spec e.arity args ((ops ++ below).map some ++ junk)
    (fun _ => none) (hargs.trans harity.symm)
  refine ⟨e, ⟨e, 0, locals', (ops ++ below).map some ++ junk, s.globals,
    ⟨(a : Int) + 2, s.locals, fn, (a : Int)⟩ :: frames, s.heap⟩, ?_, hregion, htable, rfl,
    ⟨rfl, rfl, fun j => ?_, hm.globals⟩, junk, rfl⟩
  · rw [hstep, he]
    simp only [enterFunction, append_assoc, map_append] at hpop ⊢
    rw [hpop, hm.func, hm.frames, show (a : Int) + 2 - 2 = a by lia]
  · show orZero (locals' j) = some (args.getD j JsNumber.zero)
    rw [hlocals, getD_eq_getElem?_getD]
    split
    · rfl
    · rw [getElem?_eq_none (by lia)]
      rfl

/-- Back in the caller's frame, with the globals the callee left. -/
theorem Matches.resumed {e : FuncEntry N} {frames' : List (Frame N)} {s' : VmState N}
    (hm : Matches fn frames c s) (hm' : Matches e frames' c' s') (value : Option N) (ops : List N)
    (pc : Int) (st : List (Value N)) :
    Matches fn frames (c.resume c' value ops) ⟨fn, pc, s.locals, st, s'.globals, frames, s'.heap⟩ :=
  ⟨rfl, rfl, hm.locals, hm'.globals⟩

omit [JsNumber N] in
/-- A void result is an undefined word above nothing, or no word. -/
theorem pop_push (ops : List N) (st : List (Value N)) (h : ∃ junk, st = ops.map some ++ junk) :
    ∃ junk, (pop st).1 :: (pop st).2 = ops.map some ++ junk := by
  obtain ⟨junk, rfl⟩ := h
  cases ops with
  | cons v ops => exact ⟨junk, rfl⟩
  | nil =>
    cases junk with
    | cons w junk => exact ⟨w :: junk, rfl⟩
    | nil => exact ⟨[none], rfl⟩

include hp hcallee hf hargs

theorem follows_callReturn {v : Option N}
    (ih : Follows p (ops ++ below) f.body (c.enter args) (.return_ v) c' n) (hops : c'.ops = []) :
    FollowsTree p below t c .normal (c.resume c' v ops) (1 + n) := by
  intro fn frames labels a s hreg hm hpc hst
  obtain ⟨e, s', hstep, hregion, -, hpc', hm', hst'⟩ :=
    call_enters hp hcallee hf hargs hreg hm hpc hst
  obtain ⟨junk, hst⟩ := hst
  obtain ⟨hsize, -, -⟩ := @step_call N _ p below t c fn frames labels a s i _ hcallee hreg hm hpc
    junk hst
  obtain ⟨s2, hrun, hm2, hst2⟩ := ih e _ [] 0 s' hregion hm' hpc' hst'
  rw [hops, nil_append, ← append_assoc] at hst2
  refine ⟨⟨fn, (a : Int) + 2, s.locals, (pop s2.stack).1 :: (pop s2.stack).2, s2.globals, frames,
    s2.heap⟩,
    ?_, ?_, hm.resumed hm2 v ops _ _, pop_push _ _ hst2⟩
  · rw [advance_add, advance_one, hstep, hrun, ret]
    simp only [hm2.frames]
  · rw [hsize]
    rfl

theorem follows_callThrow
    (ih : Follows p (ops ++ below) f.body (c.enter args) (.throw_ tagIdx v) c' n) :
    FollowsTree p below t c (.throw_ tagIdx v) (c.resume c' none []) (1 + n) := by
  intro fn frames labels a s hreg hm hpc hst
  obtain ⟨e, s', hstep, hregion, htable, hpc', hm', hst'⟩ :=
    call_enters hp hcallee hf hargs hreg hm hpc hst
  obtain ⟨junk, hst⟩ := hst
  obtain ⟨hsize, hrows, -⟩ := @step_call N _ p below t c fn frames labels a s i _ hcallee hreg hm
    hpc junk hst
  obtain ⟨s2, st, q, hrun, hm2, -, -, hno⟩ := ih e _ [] 0 s' hregion hm' hpc' hst'
  -- no region of the callee covers the address, so the exception is thrown at the call
  have hnone : findHandler e.exceptionTable (q : Int) = none := findHandler_none (htable ▸ hno)
  refine ⟨⟨fn, (a : Int), s.locals, st, s2.globals, frames, s2.heap⟩, st, a, ?_,
    hm.resumed hm2 none [] _ _, Nat.le_refl a, by lia, fun r hr => ?_⟩
  · rw [advance_add, advance_one, hstep, hrun, unwind_caller hnone]
  · rw [hrows] at hr
    exact nomatch hr

theorem follows_callTrap (ih : Follows p (ops ++ below) f.body (c.enter args) .trap c' n) :
    FollowsTree p below t c .trap c1 (1 + n) := by
  intro fn frames labels a s hreg hm hpc hst
  obtain ⟨e, s', hstep, hregion, -, hpc', hm', hst'⟩ :=
    call_enters hp hcallee hf hargs hreg hm hpc hst
  obtain ⟨err, hrun, htrap⟩ := ih e _ [] 0 s' hregion hm' hpc' hst'
  exact ⟨err, by rw [advance_add, advance_one, hstep, hrun], htrap⟩

end

/-! ### The induction -/

variable {c c' : Config N} {p : BytecodeProgram N} {below : List N}

theorem follows_nil : Follows p below [] c .normal c 0 :=
  fun _ _ _ _ s _ hm hpc hst => ⟨s, rfl, hpc, hm, hst⟩

theorem follows_simple {t : Tree N} (h : stepSimple t c = some c') :
    FollowsTree p below t c .normal c' 1 :=
  fun _ _ _ _ _ hreg hm hpc hst => simple_simulates h hreg hm hpc hst

/-- **The machine follows** every execution that keeps clear of the differences. -/
theorem eval_follows {m : Module N} (hp : Compiled Eq m p) {x : Context N} {trees : List (Tree N)}
    {k : Completion N} {n : Nat} (h : Eval m true x trees c k c' n) :
    Follows p x.below trees c k c' n := by
  induction h with
  | nil => exact follows_nil
  | seq _ _ ih ih' => exact follows_seq (follows_single.mp ih) ih'
  | stop _ hk ih => exact follows_stop (follows_single.mp ih) hk
  | simple hstep => exact follows_single.mpr (follows_simple hstep)
  | unreachable => exact follows_single.mpr follows_unreachable
  | @returnValue x c v ops _ hops =>
    exact follows_single.mpr (@follows_return N _ p x.below c (some v) ops hops)
  | @returnVoid x c _ =>
    exact follows_single.mpr (@follows_return N _ p x.below c none c.ops rfl)
  | throw_ hops => exact follows_single.mpr (follows_throw hops)
  | br _ => exact follows_single.mpr follows_br
  | brIfTaken hops hv => exact follows_single.mpr (follows_brIfTaken hops hv)
  | brIfNot hops hv => exact follows_single.mpr (follows_brIfNot hops hv)
  | block _ _ _ ih => exact follows_single.mpr (follows_block ih)
  | again _ _ _ ih ih' => exact follows_single.mpr (follows_again ih (follows_single.mp ih'))
  | loop _ _ hk _ ih => exact follows_single.mpr (follows_loop ih hk)
  | ifTrue hops hv _ _ hk ih => exact follows_single.mpr (follows_ifTrue hops hv ih (hk rfl))
  | ifFalse hops hv _ _ hk ih => exact follows_single.mpr (follows_ifFalse hops hv ih (hk rfl))
  | try_ _ _ _ hthrow hk ih => exact follows_single.mpr (follows_try ih hthrow (hk rfl))
  | @caught x _ _ _ _ _ _ _ _ _ _ _ _ _ _ _ _ hcatch _ _ hexact ih ih' =>
    obtain ⟨hlive, hbelow, hk, hfall⟩ := hexact rfl
    rw [hbelow] at ih ih' ⊢
    exact follows_single.mpr (follows_caught ih hcatch hlive ih' hk hfall)
  | uncaught _ _ _ _ hexact | callEnd _ _ _ _ _ _ hexact => exact nomatch hexact
  | callNull hops hnull => exact follows_single.mpr (follows_callNull hops hnull)
  | callMissing hcallee hmiss =>
    exact follows_single.mpr (follows_callMissing hcallee (hp.missing _ hmiss))
  | callReturn hcallee hf hargs _ hops ih =>
    exact follows_single.mpr (follows_callReturn hp hcallee hf hargs ih (hops rfl))
  | callThrow hcallee hf hargs _ ih =>
    exact follows_single.mpr (follows_callThrow hp hcallee hf hargs ih)
  | callTrap hcallee hf hargs _ ih =>
    exact follows_single.mpr (follows_callTrap hp hcallee hf hargs ih)

end Js2Wasm.Bytecode
