import Js2Wasm.Bytecode.Region

/-! # The machine follows the structured semantics

`Simulates`: an execution of a tree is followed by the machine in the tree's region,
dispatch for dispatch, whatever the completion in which it ends.  The operands of all
frames stand on one stack, the callers' below; underneath may lie words that nobody reads
any more (an exception that a `catch_all` left, a void result).
-/
namespace Js2Wasm.Bytecode
open Option Function

variable {N : Type} [JsNumber N]

/-! ### Runs of the machine -/

/-- The given number of dispatches. -/
def advance (p : BytecodeProgram N) : Nat → Step N → Step N
  | 0, x => x
  | n + 1, .next s => advance p n (step p s)
  | _ + 1, .halt r => .halt r

section
variable {p : BytecodeProgram N}

theorem advance_add (n n' : Nat) (x : Step N) :
    advance p (n + n') x = advance p n' (advance p n x) := by
  induction n generalizing x with
  | zero => rw [Nat.zero_add, advance]
  | succ n ih =>
    rw [Nat.add_right_comm]
    cases x with
    | next s => exact ih _
    | halt r =>
      rw [advance, advance]
      cases n' <;> rfl

theorem advance_one (s : VmState N) : advance p 1 (.next s) = step p s := rfl

variable {s : VmState N}

/-- A run within the budget has the result. -/
theorem runSteps_of_advance {n fuel : Nat} {r : VmResult N} (h : advance p n (.next s) = .halt r)
    (hn : n ≤ fuel) : runSteps p fuel s = r := by
  induction n generalizing fuel s with
  | zero => exact nomatch h
  | succ n ih =>
    obtain ⟨fuel, rfl⟩ : ∃ k, fuel = k + 1 := ⟨fuel - 1, by lia⟩
    rw [advance] at h
    rw [runSteps]
    cases hs : step p s with
    | next s' =>
      rw [hs] at h
      exact ih h (by lia)
    | halt r' =>
      rw [hs] at h
      cases n with
      | zero | succ n => exact (Step.halt.inj h)

/-- Fetching. -/
theorem step_of_op {op : Op} (h : at? s.func.code s.pc = some op.toInt) :
    step p s = dispatch p op { s with pc := s.pc + 1 } := by
  rw [step, h, bind_some, Op.ofInt_toInt]

end

/-! ### Related states -/

/-- The machine is in the frame of the configuration. -/
structure Matches (fn : FuncEntry N) (frames : List (Frame N)) (c : Config N) (s : VmState N) :
    Prop where
  func : s.func = fn
  frames : s.frames = frames
  locals : ∀ i : Nat, orZero (s.locals i) = some (c.locals i)
  globals : ∀ i : Nat, orZero (s.globals i) = some (c.globals i)

/-- The operands stand on the stack. -/
def HasStack (ops : List N) (s : VmState N) : Prop := ∃ junk, s.stack = ops.map some ++ junk

/-- A result of the machine that is a trap. -/
def VmError.IsTrap : VmError N → Prop
  | .unreachable _ | .callOutOfRange _ | .nullFuncref _ => True
  | _ => False

/-- **What the machine has done** when the tree of the region has come to a completion. -/
def Simulates (p : BytecodeProgram N) (fn : FuncEntry N) (frames : List (Frame N))
    (labels : List Nat) (below : List N) (l : Layout N) (a : Nat) (s : VmState N)
    (k : Completion N) (c' : Config N) (n : Nat) : Prop :=
  match k with
  | .normal => ∃ s', advance p n (.next s) = .next s' ∧ s'.pc = ((a + l.size : Nat) : Int) ∧
      Matches fn frames c' s' ∧ HasStack (c'.ops ++ below) s'
  | .branch d => ∀ t, labels[d]? = some t → ∃ s', advance p n (.next s) = .next s' ∧
      s'.pc = (t : Int) ∧ Matches fn frames c' s' ∧ HasStack (c'.ops ++ below) s'
  | .return_ v => ∃ s', advance p n (.next s) = ret s' ∧ Matches fn frames c' s' ∧
      HasStack (v.toList ++ (c'.ops ++ below)) s'
  | .throw_ _ v => ∃ s' st, ∃ q : Nat, advance p n (.next s) =
      unwind (some v) st s'.globals s'.heap fn s'.locals (q : Int) frames ∧ Matches fn frames c' s' ∧
      a ≤ q ∧ q < a + l.size ∧ ∀ r ∈ l.rows, r.covers (q : Int) = false
  | .trap => ∃ e : VmError N, advance p n (.next s) = .halt (.error e) ∧ e.IsTrap

section
variable {p : BytecodeProgram N} {fn : FuncEntry N} {frames : List (Frame N)} {labels : List Nat}
  {below : List N} {a : Nat} {s : VmState N} {k : Completion N} {c c' : Config N} {n : Nat}

variable {l' l : Layout N}

section
variable (h : Simulates p fn frames labels below l a s k c' n)
include h

/-- A piece that does not fall through is the whole. -/
theorem Simulates.stop (hk : k ≠ .normal)
    (hl' : ∀ r ∈ l'.rows, r.Inside (a + l.size) (a + l.size + l'.size)) :
    Simulates p fn frames labels below (l.append l') a s k c' n := by
  cases k with
  | normal => exact absurd rfl hk
  | throw_ tagIdx v =>
    obtain ⟨s', st, q, hrun, hm, hq, hq', hno⟩ := h
    refine ⟨s', st, q, hrun, hm, hq, by rw [Layout.size_append]; lia, fun r hr => ?_⟩
    rcases List.mem_append.mp hr with hr | hr
    · exact hno r hr
    · have := (hl' r hr).start
      exact Bool.eq_false_iff.mpr fun hc => by
        have := ExcEntry.covers_iff.mp hc
        lia
  | _ => exact h

/-- The machine runs on to the piece. -/
theorem Simulates.prepend {s0 : VmState N} {m : Nat} (hrun : advance p m (.next s0) = .next s) :
    Simulates p fn frames labels below l a s0 k c' (m + n) := by
  cases k <;> simp only [Simulates, advance_add, hrun] at h ⊢ <;> exact h

/-- The piece is the end of a larger one. -/
theorem Simulates.widen {a' : Nat} (ha : a' ≤ a) (hend : a + l.size = a' + l'.size)
    (hrows : ∀ r ∈ l'.rows, r ∈ l.rows ∨ r.tryEnd ≤ a) :
    Simulates p fn frames labels below l' a' s k c' n := by
  cases k with
  | normal =>
    rw [Simulates] at h ⊢
    rwa [hend] at h
  | throw_ tagIdx v =>
    obtain ⟨s', st, q, hrun, hm, hq, hq', hno⟩ := h
    refine ⟨s', st, q, hrun, hm, by lia, by lia, fun r hr => ?_⟩
    rcases hrows r hr with hr | hr
    · exact hno r hr
    · exact Bool.eq_false_iff.mpr fun hc => by
        have := ExcEntry.covers_iff.mp hc
        lia
  | _ => exact h

end

theorem orZero_update {f : Int → Value N} {g : Nat → N}
    (h : ∀ j : Nat, orZero (f (j : Int)) = some (g j)) (i : Nat) (v : N) (j : Nat) :
    orZero (update f (i : Int) (some v) (j : Int)) = some (update g i v j) := by
  rw [update_apply, update_apply]
  by_cases hj : j = i
  · rw [if_pos hj, if_pos (by lia)]
    rfl
  · rw [if_neg hj, if_neg (by lia)]
    exact h j

section
variable (h : Matches fn frames c s)
include h

theorem Matches.withOps (ops : List N) :
    Matches fn frames { c with ops } s := ⟨h.func, h.frames, h.locals, h.globals⟩

/-- Pushing, popping and moving on leave the frame as it is. -/
theorem Matches.moved (pc : Int) (st : List (Value N)) (ops : List N) :
    Matches fn frames { c with ops } { s with pc, stack := st } :=
  ⟨h.func, h.frames, h.locals, h.globals⟩

theorem Matches.setLocal (i : Nat) (v : N) (pc : Int) (st : List (Value N)) (ops : List N) :
    Matches fn frames { c with ops, locals := update c.locals i v }
      { s with pc, stack := st, locals := update s.locals (i : Int) (some v) } :=
  ⟨h.func, h.frames, fun j => orZero_update h.locals i v j, h.globals⟩

theorem Matches.setGlobal (i : Nat) (v : N) (pc : Int) (st : List (Value N)) (ops : List N) :
    Matches fn frames { c with ops, globals := update c.globals i v }
      { s with pc, stack := st, globals := update s.globals (i : Int) (some v) } :=
  ⟨h.func, h.frames, h.locals, fun j => orZero_update h.globals i v j⟩

end

end

/-! ### Straight-line instructions -/

section
variable {p : BytecodeProgram N} {fn : FuncEntry N} {frames : List (Frame N)} {below : List N}
  {a : Nat} {s : VmState N} {c c' : Config N}

theorem strictEqual_some (x y : N) : strictEqual (some x) (some y) = JsNumber.strictEq x y := rfl

theorem isZero_some (x : N) : isZero (some x) = !JsNumber.truthy x := by
  rw [JsNumber.truthy, Bool.not_not]
  rfl

variable {op : Op} {labels : List Nat} {i : Ins N}

section
variable (hm : Matches fn frames c s) (hpc : s.pc = (a : Int)) (hcode : CodeAt Eq fn a [i])
include hm hpc hcode

/-- The opcode and the operand at the machine's address. -/
theorem step_at (hop : ∀ ws, Words Eq fn.constPool i ws → ws[0]? = some op.toInt) :
    step p s = dispatch p op { s with pc := s.pc + 1 } := by
  refine step_of_op ?_
  rw [hm.func, hpc]
  exact hcode.op hop

theorem operand_at {w : Int} (hop : ∀ ws, Words Eq fn.constPool i ws → ws[1]? = some w) :
    (at? s.func.code (s.pc + 1)).getD 0 = w := by
  rw [hm.func, hpc, hcode.operand hop]
  rfl

end

/-! #### The emitter's tables -/

/-- A constant that stands for a number is emitted as that number. -/
theorem constValue_eq {value : IrConst N} {v : N} (h : value.number = some v) :
    constValue value = .ok v := by
  cases value with
  | bool b => cases b <;> cases h <;> rfl
  | _ => cases h <;> rfl

/-- The opcode of a binary operator computes its value. -/
theorem binopToOpcode_computes {op : IrBinop} {x y v : N} (h : op.value x y = some v) :
    ∃ o, binopToOpcode op = .ok o ∧ ∀ (s : VmState N) (ops : List (Value N)),
      s.stack = some y :: some x :: ops →
      dispatch p o s = .next { s with stack := some v :: ops } := by
  cases op <;> cases h <;> refine ⟨_, rfl, fun s ops hs => ?_⟩ <;>
    simp [dispatch, binary, pop, hs, arith, ordered, strictEqual_some, JsNumber.ofBool]

theorem unopToOpcode_computes {op : IrUnop} {x v : N} (h : op.value x = some v) :
    ∃ o, unopToOpcode op = .ok o ∧ ∀ (s : VmState N) (ops : List (Value N)),
      s.stack = some x :: ops → dispatch p o s = .next { s with stack := some v :: ops } := by
  cases op <;> cases h
  exact ⟨_, rfl, fun s ops hs => by simp [dispatch, pop, hs]⟩

/-- One dispatch that moves on by the size of its instruction. -/
theorem Simulates.step {labels : List Nat} {i : Ins N} {s' : VmState N}
    (hrun : Js2Wasm.Bytecode.step p s = .next s') (hpc : s'.pc = ((a + i.size : Nat) : Int))
    (hm : Matches fn frames c' s') (hst : HasStack (c'.ops ++ below) s') :
    Simulates p fn frames labels below ⟨[i], []⟩ a s .normal c' 1 :=
  ⟨s', hrun, by rw [hpc]; rfl, hm, hst⟩

/-- An instruction without operand that only works on the stack. -/
theorem zero_simulates {ops : List N} (hcode : CodeAt Eq fn a [.zero op])
    (hm : Matches fn frames c s) (hpc : s.pc = (a : Int))
    (hrun : ∃ st, dispatch p op { s with pc := s.pc + 1 } =
      .next { s with pc := s.pc + 1, stack := st } ∧ ∃ junk, st = (ops ++ below).map some ++ junk) :
    Simulates p fn frames labels below ⟨[.zero op], []⟩ a s .normal { c with ops } 1 := by
  obtain ⟨st, hdisp, junk, hst⟩ := hrun
  refine Simulates.step ((step_at hm hpc hcode ?_).trans hdisp) ?_ (hm.moved _ _ ops) ⟨junk, hst⟩
  · rintro ws ⟨⟩
    rfl
  · show s.pc + 1 = _
    rw [hpc]
    rfl

/-- An instruction with one operand. -/
theorem one_simulates {i : Nat} (hcode : CodeAt Eq fn a [.one op i]) (hm : Matches fn frames c s)
    (hpc : s.pc = (a : Int)) {s' : VmState N}
    (hdisp : (at? s.func.code (s.pc + 1)).getD 0 = (i : Int) →
      dispatch p op { s with pc := s.pc + 1 } = .next s') (hpc' : s'.pc = s.pc + 1 + 1)
    (hm' : Matches fn frames c' s') (hst : HasStack (c'.ops ++ below) s') :
    Simulates p fn frames labels below ⟨[.one op i], []⟩ a s .normal c' 1 := by
  have hoperand : (at? s.func.code (s.pc + 1)).getD 0 = (i : Int) := operand_at hm hpc hcode
    (by rintro ws ⟨⟩; rfl)
  refine Simulates.step ((step_at hm hpc hcode ?_).trans (hdisp hoperand)) ?_ hm' hst
  · rintro ws ⟨⟩
    rfl
  · rw [hpc', hpc]
    show (a : Int) + 1 + 1 = ((a + 2 : Nat) : Int)
    lia

/-- A constant comes out of the pool. -/
theorem const_simulates {v : N} (hcode : CodeAt Eq fn a [.const v]) (hm : Matches fn frames c s)
    (hpc : s.pc = (a : Int)) (hst : HasStack (c.ops ++ below) s) :
    Simulates p fn frames labels below ⟨[.const v], []⟩ a s .normal
      { c with ops := v :: c.ops } 1 := by
  obtain ⟨junk, hst⟩ := hst
  obtain ⟨ws, hw, hws⟩ := CodeAt.words hcode
  cases hw with
  | @const _ w k hk hv =>
    rw [show w = v from hv] at hk
    have hop : at? s.func.code s.pc = some Op.CONST.toInt := by
      rw [hm.func, hpc, at?_natCast]
      exact hws 0 _ rfl
    have hoperand : at? s.func.code (s.pc + 1) = some (k : Int) := by
      rw [hm.func, hpc, show (a : Int) + 1 = ((a + 1 : Nat) : Int) by lia, at?_natCast]
      exact hws 1 _ rfl
    have hdisp : dispatch p .CONST { s with pc := s.pc + 1 } =
        .next { s with pc := s.pc + 1 + 1, stack := some v :: s.stack } := by
      rw [hm.func] at hoperand
      simp only [dispatch, hm.func, hoperand, getD_some, at?_natCast, hk]
    refine Simulates.step ((step_of_op hop).trans hdisp) ?_ (hm.moved _ _ (v :: c.ops)) ⟨junk, ?_⟩
    · show s.pc + 1 + 1 = ((a + 2 : Nat) : Int)
      lia
    · show some v :: s.stack = _
      rw [hst]
      rfl

/-- **A straight-line instruction.** -/
theorem simple_simulates {t : Tree N} (hstep : stepSimple t c = some c')
    (hreg : Region Eq fn labels a (layoutTree t a)) (hm : Matches fn frames c s)
    (hpc : s.pc = (a : Int)) (hst : HasStack (c.ops ++ below) s) :
    Simulates p fn frames labels below (layoutTree t a) a s .normal c' 1 := by
  obtain ⟨junk, hst⟩ := hst
  have hcode := hreg.code
  unfold stepSimple at hstep
  split at hstep
  · next value =>
    obtain ⟨v, hv, rfl⟩ := map_eq_some_iff.mp hstep
    have hl : layoutTree (.const value) a = ⟨[.const v], []⟩ := by
      show (⟨(simpleIns (.const value)).toList, []⟩ : Layout N) = _
      rw [simpleIns, constValue_eq hv]
      rfl
    rw [hl] at hcode ⊢
    exact const_simulates hcode hm hpc ⟨junk, hst⟩
  · next op y x ops hops =>
    obtain ⟨v, hv, rfl⟩ := map_eq_some_iff.mp hstep
    obtain ⟨o, ho, hdisp⟩ := @binopToOpcode_computes N _ p _ _ _ _ hv
    have hl : layoutTree (.binary op) a = ⟨[(.zero o : Ins N)], []⟩ := by
      show (⟨(simpleIns (.binary op)).toList, []⟩ : Layout N) = _
      rw [simpleIns, ho]
      rfl
    rw [hl] at hcode ⊢
    rw [hops] at hst
    exact zero_simulates hcode hm hpc ⟨_, hdisp _ _ hst, junk, rfl⟩
  · next op x ops hops =>
    obtain ⟨v, hv, rfl⟩ := map_eq_some_iff.mp hstep
    obtain ⟨o, ho, hdisp⟩ := @unopToOpcode_computes N _ p _ _ _ hv
    have hl : layoutTree (.unary op) a = ⟨[(.zero o : Ins N)], []⟩ := by
      show (⟨(simpleIns (.unary op)).toList, []⟩ : Layout N) = _
      rw [simpleIns, ho]
      rfl
    rw [hl] at hcode ⊢
    rw [hops] at hst
    exact zero_simulates hcode hm hpc ⟨_, hdisp _ _ hst, junk, rfl⟩
  · next i =>
    cases hstep
    refine one_simulates hcode hm hpc (fun ho => show _ = Step.next { s with
      pc := s.pc + 1 + 1, stack := orZero (s.locals i) :: s.stack } by rw [dispatch]; simp only [ho])
      rfl (hm.moved _ _ _) ⟨junk, ?_⟩
    show orZero (s.locals i) :: s.stack = _
    rw [hm.locals, hst]
    rfl
  · next i v ops hops =>
    cases hstep
    rw [hops] at hst
    refine one_simulates hcode hm hpc (fun ho => by rw [dispatch]; simp only [ho, hst]; rfl) rfl
      (hm.setLocal i v _ _ ops) ⟨junk, rfl⟩
  · next i v ops hops =>
    cases hstep
    rw [hops] at hst
    refine one_simulates hcode hm hpc (fun ho => by rw [dispatch]; simp only [ho, hst]; rfl) rfl
      (hm.setLocal i v _ _ (v :: ops)) ⟨junk, hst⟩
  · next i =>
    cases hstep
    refine one_simulates hcode hm hpc (fun ho => show _ = Step.next { s with
      pc := s.pc + 1 + 1, stack := orZero (s.globals i) :: s.stack } by rw [dispatch]; simp only [ho])
      rfl (hm.moved _ _ _) ⟨junk, ?_⟩
    show orZero (s.globals i) :: s.stack = _
    rw [hm.globals, hst]
    rfl
  · next i v ops hops =>
    cases hstep
    rw [hops] at hst
    refine one_simulates hcode hm hpc (fun ho => by rw [dispatch]; simp only [ho, hst]; rfl) rfl
      (hm.setGlobal i v _ _ ops) ⟨junk, rfl⟩
  · next v ops hops =>
    cases hstep
    rw [hops] at hst
    refine zero_simulates hcode hm hpc ⟨_, ?_, junk, rfl⟩
    simp [dispatch, pop, hst]
  · next v y x ops hops =>
    cases hstep
    rw [hops] at hst
    refine zero_simulates hcode hm hpc ⟨(if isZero (some v) then some y else some x) ::
      ((ops ++ below).map some ++ junk), ?_, junk, ?_⟩
    · simp [dispatch, pop, hst]
    · rw [isZero_some]
      cases JsNumber.truthy v <;> rfl
  · cases hstep

end

end Js2Wasm.Bytecode
