import Js2Wasm.Ir.Anchor
import Mathlib.Data.List.Sort

/-! # Running a scheduled block

A block runs on the values computed so far and a state.  Nothing is assumed of the
instructions but what their effect summaries promise (`Respects`): two that do not
conflict commute, and one that only reads leaves the state alone.  In program order every
operand is a value computed before (`runBlock`); a scheduled block computes its constants
again at each use (`runOrder`), which makes no difference in program order
(`runBlock_eq_runOrder`).

`IsOrder` is an execution of a schedule: each emitted instruction once, by emission
points, operands that are no constants before their consumers.  Accepted schedules keep
conflicting pairs in order (`IsOrder.conflict_before`), so an order and the program order disagree
only about pairs that commute, and `Reorder.run_perm` applies.  What is left are the instructions
that are never emitted: dropping them is right exactly when none of them changes
anything (`schedule_preserves_iff`).
-/
namespace Js2Wasm.Ir
open Reorder List

/-! ### Execution -/

/-- What an instruction computes from the values it reads and the state. -/
abbrev Semantics (V σ : Type) := Nat → List V → σ → V × σ

/-- The effect summaries are right. -/
structure Respects {V σ : Type} (instrs : List InstrFacts) (sem : Semantics V σ) : Prop where
  /-- Without a conflict either order gives the same values and the same state. -/
  commute : ∀ i k, i ≠ k → effectsConflict (effectsAt instrs i) (effectsAt instrs k) = false →
    ∀ vs ws s, (sem i vs (sem k ws s).2).1 = (sem i vs s).1 ∧
      (sem k ws (sem i vs s).2).1 = (sem k ws s).1 ∧
      (sem i vs (sem k ws s).2).2 = (sem k ws (sem i vs s).2).2
  /-- Without a change the state stays. -/
  frame : ∀ i, (effectsAt instrs i).changes = false → ∀ vs s, (sem i vs s).2 = s

/-- The values computed so far, and the state. -/
structure Machine (V σ : Type) where
  env : IrValueId → V
  store : σ

section
variable {V σ : Type} (instrs : List InstrFacts) (sem : Semantics V σ)

/-- Bind a result, if there is one. -/
def bind (env : IrValueId → V) (r : Option IrValueId) (x : V) : IrValueId → V :=
  match r with
  | none => env
  | some v => Function.update env v x

/-- Execute one instruction, its operands read by `read`. -/
def stepInstr (read : Machine V σ → IrValueId → V) (i : Nat) (m : Machine V σ) : Machine V σ :=
  let out := sem i ((readsAt instrs i).map (read m)) m.store
  ⟨bind m.env (resultAt instrs i) out.1, out.2⟩

/-- Execute the block in program order. -/
def runBlock (m : Machine V σ) : Machine V σ :=
  run (stepInstr instrs sem Machine.env) (range instrs.length) m

/-- An operand in emitted code: a constant is computed again, any other value is at hand. -/
def readEmitted (m : Machine V σ) (v : IrValueId) : V :=
  match (defIdxOf instrs v).filter fun d => kindAt instrs d = "const" with
  | some d => (sem d [] m.store).1
  | none => m.env v

/-- Execute emitted instructions in the order given. -/
def runOrder (order : List Nat) (m : Machine V σ) : Machine V σ :=
  run (stepInstr instrs sem (readEmitted instrs sem)) order m

end

/-- **An execution of a schedule.** -/
structure IsOrder (instrs : List InstrFacts) (s : Schedule) (order : List Nat) : Prop where
  nodup : order.Nodup
  emitted : ∀ i, i ∈ order ↔ i < instrs.length ∧ s.emissionIdx i ≠ ⊤
  points : order.Pairwise fun i k => s.emissionIdx i ≤ s.emissionIdx k
  operands : ∀ k ∈ order, ∀ v ∈ readsAt instrs k, isConstant instrs v = false →
    ∀ d, resultAt instrs d = some v → Before order d k

/-- Same state, and same values but for those that are never computed. -/
structure Agree {V σ : Type} (instrs : List InstrFacts) (s : Schedule) (m m' : Machine V σ) :
    Prop where
  store : m.store = m'.store
  env : ∀ v, (∀ i, s.emissionIdx i = ⊤ → resultAt instrs i ≠ some v) → m.env v = m'.env v

section
variable {V σ : Type} {instrs : List InstrFacts} {sem : Semantics V σ} {s : Schedule}
  {order : List Nat} {i k : Nat} {v : IrValueId}

theorem resultAt_of_defIdxOf {d : Nat} (h : defIdxOf instrs v = some d) :
    resultAt instrs d = some v := by
  simpa using find?_some h

/-! ### Constants -/

variable {env : IrValueId → V} {b : BlockFacts} {x : V} {r : Option IrValueId}
  {m : Machine V σ} {d : Nat}

/-- A constant reads nothing and has no effect. -/
theorem const_facts (h : kindAt instrs d = "const") :
    readsAt instrs d = [] ∧ usesAt instrs d = [] ∧ effectsAt instrs d = IrEffects.none := by
  rw [kindAt] at h
  rw [readsAt, usesAt, effectsAt]
  cases hget : instrs[d]? with
  | none => rw [hget] at h; exact absurd h (by decide)
  | some instr =>
    rw [hget] at h
    obtain ⟨huses, hnested, heffects⟩ := instr.const h
    simp [huses, hnested, heffects]

theorem const_conflict (h : kindAt instrs d = "const") (k : Nat) :
    effectsConflict (effectsAt instrs d) (effectsAt instrs k) = false :=
  effectsConflict_of_pure (Or.inl (by rw [(const_facts h).2.2]; rfl))

theorem exists_const (h : isConstant instrs v = true) :
    ∃ d, defIdxOf instrs v = some d ∧ kindAt instrs d = "const" := by
  rw [isConstant] at h
  cases hd : defIdxOf instrs v with
  | none => rw [hd] at h; cases h
  | some d =>
    rw [hd] at h
    exact ⟨d, rfl, of_decide_eq_true h⟩

theorem readEmitted_const (hd : defIdxOf instrs v = some d) (h : kindAt instrs d = "const") :
    readEmitted instrs sem m v = (sem d [] m.store).1 := by
  rw [readEmitted, hd, Option.filter_some, if_pos (decide_eq_true h)]

theorem readEmitted_env (h : isConstant instrs v = false) :
    readEmitted instrs sem m v = m.env v := by
  rw [isConstant] at h
  rw [readEmitted]
  cases hd : defIdxOf instrs v with
  | none => rfl
  | some d =>
    rw [hd] at h
    rw [Option.filter_some, if_neg (by simpa using h)]

/-- The value of a constant is the same after any instruction. -/
theorem const_stable (hsem : Respects instrs sem) (h : kindAt instrs d = "const")
    (k : Nat) (ws : List V) (store : σ) :
    (sem d [] (sem k ws store).2).1 = (sem d [] store).1 := by
  by_cases hdk : d = k
  · subst hdk
    rw [hsem.frame d (by rw [(const_facts h).2.2]; rfl)]
  · exact (hsem.commute d k hdk (const_conflict h k) [] ws store).1

/-! ### Conflicts stay in order -/

/-- In an order, what a tree consumes comes before its root. -/
theorem IsOrder.consumed_before (ho : IsOrder b.instrs s order) (hssa : b.SSA)
    (h : Consumes b.instrs s.isLazyAt k v) (hk : k ∈ order) (hi : resultAt b.instrs i = some v)
    (hconst : kindAt b.instrs i ≠ "const") : Before order i k := by
  have hplain : ∀ {v d}, resultAt b.instrs d = some v → kindAt b.instrs d ≠ "const" →
      isConstant b.instrs v = false := fun hd hne =>
    Bool.eq_false_iff.mpr fun hc => hne ((isConstant_of_kind hssa hd).mp hc)
  induction h with
  | use hv => exact ho.operands _ hk _ (usesAt_subset hv) (hplain hi hconst) i hi
  | through hv hd _ hcons ih =>
    -- what consumes something is no constant
    have hne : kindAt b.instrs _ ≠ "const" := fun hc => by
      have hnil := (const_facts hc).2.1
      cases hcons with
      | use h | through h => rw [hnil] at h; cases h
    have hres := resultAt_of_defIdxOf hd
    have hdk := ho.operands _ hk _ (usesAt_subset hv) (hplain hres hne) _ hres
    exact (ih hdk.mem_left hi).trans hdk ho.nodup

/-- **An order performs conflicting pairs in program order.** -/
theorem IsOrder.conflict_before (ho : IsOrder b.instrs s order) (hssa : b.SSA)
    (hacc : Accepted b.instrs s) (hik : i < k) (hi : i ∈ order) (hk : k ∈ order)
    (hconf : effectsConflict (effectsAt b.instrs i) (effectsAt b.instrs k) = true) :
    Before order i k := by
  obtain ⟨hlt, hfin⟩ := (ho.emitted k).mp hk
  rcases hacc i k hik hlt ((ho.emitted i).mp hi).2 hfin hconf with h | ⟨-, r, hr, hcons⟩
  · rcases before_total hi hk hik.ne with hb | hb
    · exact hb
    · exact absurd (before_of_pairwise ho.points hb) (not_le_of_gt h)
  · refine ho.consumed_before hssa hcons hk hr fun hc => ?_
    exact Bool.false_ne_true ((const_conflict hc k).symm.trans hconf)

/-! ### Commuting steps -/

theorem bind_of_ne (h : r ≠ some v) : bind env r x v = env v := by
  cases r with
  | none => rfl
  | some w => exact Function.update_of_ne (fun hvw => h (by rw [hvw])) _ _

theorem bind_comm {r' : Option IrValueId} {y : V} (h : ∀ v, r = some v → r' ≠ some v) :
    bind (bind env r x) r' y = bind (bind env r' y) r x := by
  cases r with
  | none => rfl
  | some v =>
    cases r' with
    | none => rfl
    | some w => exact Function.update_comm (fun hwv => h v rfl (by rw [hwv])) _ _ _

theorem stepInstr_congr {read read' : Machine V σ → IrValueId → V}
    (h : ∀ v ∈ readsAt instrs k, read m v = read' m v) :
    stepInstr instrs sem read k m = stepInstr instrs sem read' k m := by
  rw [stepInstr, stepInstr, map_congr_left h]

/-- Reading after an instruction that the value does not come from. -/
theorem readEmitted_step (hsem : Respects instrs sem)
    (h : isConstant instrs v = false → resultAt instrs i ≠ some v) (vs : List V) :
    readEmitted instrs sem ⟨bind m.env (resultAt instrs i) x, (sem i vs m.store).2⟩ v =
      readEmitted instrs sem m v := by
  cases hc : isConstant instrs v with
  | false =>
    rw [readEmitted_env hc, readEmitted_env hc]
    exact bind_of_ne (h hc)
  | true =>
    obtain ⟨d, hd, hconst⟩ := exists_const hc
    rw [readEmitted_const hd hconst, readEmitted_const hd hconst]
    exact const_stable hsem hconst i vs m.store

/-- Instructions that neither conflict nor feed each other commute. -/
theorem stepInstr_commutes (hsem : Respects instrs sem) (hne : i ≠ k)
    (hconf : effectsConflict (effectsAt instrs i) (effectsAt instrs k) = false)
    (hres : ∀ v, resultAt instrs i = some v → resultAt instrs k ≠ some v)
    (hik : ∀ v ∈ readsAt instrs k, isConstant instrs v = false → resultAt instrs i ≠ some v)
    (hki : ∀ v ∈ readsAt instrs i, isConstant instrs v = false → resultAt instrs k ≠ some v) :
    Commutes (stepInstr instrs sem (readEmitted instrs sem)) i k := by
  intro m
  obtain ⟨h1, h2, h3⟩ := hsem.commute i k hne hconf
    ((readsAt instrs i).map (readEmitted instrs sem m))
    ((readsAt instrs k).map (readEmitted instrs sem m)) m.store
  have hi : (readsAt instrs i).map (readEmitted instrs sem (stepInstr instrs sem
      (readEmitted instrs sem) k m)) = (readsAt instrs i).map (readEmitted instrs sem m) :=
    map_congr_left fun v hv => readEmitted_step hsem (hki v hv) _
  have hk : (readsAt instrs k).map (readEmitted instrs sem (stepInstr instrs sem
      (readEmitted instrs sem) i m)) = (readsAt instrs k).map (readEmitted instrs sem m) :=
    map_congr_left fun v hv => readEmitted_step hsem (hik v hv) _
  rw [stepInstr, hi]
  conv_rhs => rw [stepInstr, hk]
  simp only [stepInstr, h1, h2, h3, Machine.mk.injEq, and_true]
  exact (bind_comm hres).symm

/-! ### Program order -/

/-- The constants computed so far have their values. -/
def ConstantsAt (instrs : List InstrFacts) (sem : Semantics V σ) (n : Nat) (m : Machine V σ) :
    Prop :=
  ∀ d < n, kindAt instrs d = "const" → ∀ v, resultAt instrs d = some v →
    m.env v = (sem d [] m.store).1

theorem readEmitted_program (hssa : b.SSA) (hm : ConstantsAt b.instrs sem k m)
    (hv : v ∈ readsAt b.instrs k) : readEmitted b.instrs sem m v = m.env v := by
  cases hc : isConstant b.instrs v with
  | false => exact readEmitted_env hc
  | true =>
    obtain ⟨d, hd, hconst⟩ := exists_const hc
    have hres := resultAt_of_defIdxOf hd
    rw [readEmitted_const hd hconst, hm d (hssa.defined hres hv) hconst v hres]

theorem constantsAt_step (hssa : b.SSA) (hsem : Respects b.instrs sem)
    (hm : ConstantsAt b.instrs sem k m) :
    ConstantsAt b.instrs sem (k + 1) (stepInstr b.instrs sem Machine.env k m) := by
  intro d hd hconst v hv
  rw [stepInstr]
  simp only
  rw [const_stable hsem hconst]
  by_cases hdk : d = k
  · subst hdk
    rw [hv, (const_facts hconst).1]
    exact Function.update_self _ _ _
  · rw [bind_of_ne fun hk => hdk (hssa.unique hv hk)]
    exact hm d (by omega) hconst v hv

/-- **In program order it makes no difference** whether constants are computed again. -/
theorem runBlock_eq_runOrder (hssa : b.SSA) (hsem : Respects b.instrs sem) (m : Machine V σ) :
    runBlock b.instrs sem m = runOrder b.instrs sem (range b.instrs.length) m := by
  have hruns : ∀ n, run (stepInstr b.instrs sem Machine.env) (range n) m =
      run (stepInstr b.instrs sem (readEmitted b.instrs sem)) (range n) m ∧
      ConstantsAt b.instrs sem n (run (stepInstr b.instrs sem Machine.env) (range n) m) := by
    intro n
    induction n with
    | zero => exact ⟨rfl, fun d hd => absurd hd (Nat.not_lt_zero d)⟩
    | succ n ih =>
      obtain ⟨heq, hconst⟩ := ih
      rw [range_succ, run_concat, run_concat, ← heq]
      exact ⟨stepInstr_congr fun v hv => (readEmitted_program hssa hconst hv).symm,
        constantsAt_step hssa hsem hconst⟩
  exact (hruns _).1

/-! ### Dropping what is never emitted -/

/-- Dropping instructions that change nothing and whose results nobody emitted reads. -/
theorem run_filter_agree (hsem : Respects instrs sem)
    (hkeep : ∀ i < instrs.length, s.emissionIdx i = ⊤ → (effectsAt instrs i).changes = false)
    (hread : ∀ k, k < instrs.length → s.emissionIdx k ≠ ⊤ → ∀ v ∈ readsAt instrs k,
      isConstant instrs v = false → ∀ i, s.emissionIdx i = ⊤ → resultAt instrs i ≠ some v)
    (l : List Nat) (hl : ∀ i ∈ l, i < instrs.length) {m m' : Machine V σ}
    (h : Agree instrs s m m') :
    Agree instrs s (runOrder instrs sem l m)
      (runOrder instrs sem (l.filter fun i => s.emissionIdx i ≠ ⊤) m') := by
  induction l generalizing m m' with
  | nil => exact h
  | cons i l ih =>
    obtain ⟨hi, hl⟩ := forall_mem_cons.mp hl
    rw [runOrder, run_cons]
    by_cases hnever : s.emissionIdx i = ⊤
    · -- never emitted: neither the state nor a value that matters is touched
      rw [filter_cons_of_neg (by simp [hnever])]
      refine ih hl ⟨?_, fun v hv => ?_⟩
      · rw [← h.store]
        exact hsem.frame i (hkeep i hi hnever) _ _
      · rw [← h.env v hv]
        exact bind_of_ne (hv i hnever)
    · rw [filter_cons_of_pos (by simp [hnever]), runOrder, run_cons]
      have hreads : (readsAt instrs i).map (readEmitted instrs sem m) =
          (readsAt instrs i).map (readEmitted instrs sem m') := by
        refine map_congr_left fun v hv => ?_
        cases hc : isConstant instrs v with
        | false =>
          rw [readEmitted_env hc, readEmitted_env hc]
          exact h.env v (hread i hi hnever v hv hc)
        | true =>
          obtain ⟨d, hd, hconst⟩ := exists_const hc
          rw [readEmitted_const hd hconst, readEmitted_const hd hconst, h.store]
      refine ih hl ⟨?_, fun v hv => ?_⟩
      · simp only [stepInstr, hreads, h.store]
      · simp only [stepInstr, hreads, h.store]
        by_cases hr : resultAt instrs i = some v
        · simp [hr, bind]
        · rw [bind_of_ne hr, bind_of_ne hr, h.env v hv]

/-! ### The two directions -/

theorem IsOrder.perm (ho : IsOrder instrs s order) :
    ((range instrs.length).filter fun i => s.emissionIdx i ≠ ⊤).Perm order := by
  refine (perm_ext_iff_of_nodup (nodup_range.filter _) ho.nodup).mpr fun i => ?_
  rw [ho.emitted]
  simp

/-- **An accepted schedule that drops no change preserves the block.** -/
theorem IsOrder.agree (hssa : b.SSA) (ho : IsOrder b.instrs s order) (hacc : Accepted b.instrs s)
    (hkeep : ∀ i < b.instrs.length, s.emissionIdx i = ⊤ → (effectsAt b.instrs i).changes = false)
    (hsem : Respects b.instrs sem) (m : Machine V σ) :
    Agree b.instrs s (runBlock b.instrs sem m) (runOrder b.instrs sem order m) := by
  have hread : ∀ k, k < b.instrs.length → s.emissionIdx k ≠ ⊤ → ∀ v ∈ readsAt b.instrs k,
      isConstant b.instrs v = false → ∀ i, s.emissionIdx i = ⊤ → resultAt b.instrs i ≠ some v := by
    intro k hk hfin v hv hc i hnever hi
    have hb := ho.operands k ((ho.emitted k).mpr ⟨hk, hfin⟩) v hv hc i hi
    exact ((ho.emitted i).mp hb.mem_left).2 hnever
  rw [runBlock_eq_runOrder hssa hsem]
  have hdrop := run_filter_agree hsem hkeep hread (range b.instrs.length)
    (fun i hi => mem_range.mp hi) (⟨rfl, fun _ _ => rfl⟩ : Agree b.instrs s m m)
  rw [runOrder, runOrder, run_perm ho.perm (nodup_range.filter _)] at hdrop
  · exact hdrop
  intro a c hac hca
  have hlt : a < c := before_of_pairwise (pairwise_lt_range.filter _) hac
  refine stepInstr_commutes hsem hlt.ne ?_ (fun v ha hc => ?_)
    (fun v hv hplain ha => ?_) (fun v hv _ hc => ?_)
  · by_contra hconf
    have hb := ho.conflict_before hssa hacc hlt hca.mem_right hca.mem_left (Bool.not_eq_false _ ▸ hconf)
    exact hb.asymm ho.nodup hca
  · exact Nat.ne_of_lt hlt (hssa.unique ha hc)
  · exact (ho.operands c hca.mem_left v hv hplain a ha).asymm ho.nodup hca
  · exact Nat.lt_asymm hlt (hssa.defined hc hv)

/-- Count the instructions that change something. -/
def countChanges (instrs : List InstrFacts) : Semantics Unit Nat := fun i _ s =>
  ((), if (effectsAt instrs i).changes then s + 1 else s)

theorem countChanges_respects : Respects instrs (countChanges instrs) where
  commute i k _ _ _ _ s := by
    simp only [countChanges, true_and]
    split <;> split <;> rfl
  frame i hi _ s := by
    simp [countChanges, hi]

theorem run_countChanges (read : Machine Unit Nat → IrValueId → Unit) (l : List Nat)
    (m : Machine Unit Nat) : (run (stepInstr instrs (countChanges instrs) read) l m).store =
      m.store + l.countP fun i => (effectsAt instrs i).changes := by
  induction l generalizing m with
  | nil => rfl
  | cons i l ih =>
    rw [run_cons, ih, countP_cons, stepInstr, countChanges]
    split <;> simp only <;> omega

/-- **A dropped change shows**: where every semantics is preserved, no instruction that is
never emitted changes anything. -/
theorem IsOrder.keeps_changes (ho : IsOrder instrs s order)
    (h : ∀ m : Machine Unit Nat, Agree instrs s (runBlock instrs (countChanges instrs) m)
      (runOrder instrs (countChanges instrs) order m)) :
    ∀ i < instrs.length, s.emissionIdx i = ⊤ → (effectsAt instrs i).changes = false := by
  intro i hi hnever
  by_contra hc
  rw [Bool.not_eq_false] at hc
  have hcount := (h ⟨fun _ => (), 0⟩).store
  rw [runBlock, runOrder, run_countChanges, run_countChanges, ← ho.perm.countP_eq] at hcount
  rw [countP_eq_countP_filter_add (range instrs.length)
    (fun i => (effectsAt instrs i).changes) fun i => s.emissionIdx i ≠ ⊤] at hcount
  have hdropped := countP_eq_zero.mp (Nat.add_left_cancel (Nat.add_left_cancel hcount)) i
  exact hdropped (mem_filter.mpr ⟨mem_range.mpr hi, by simp [hnever]⟩) hc

end

/-! ### The pass's schedule has an order -/

/-- By emission points, and by position within a tree. -/
def emitsBefore (s : Schedule) (i k : Nat) : Prop :=
  s.emissionIdx i < s.emissionIdx k ∨ (s.emissionIdx i = s.emissionIdx k ∧ i ≤ k)

section
variable {b : BlockFacts}

variable {s : Schedule}

/-- An emitted consumer's operands that are no constants are emitted, no later. -/
theorem operand_emitted (hssa : b.SSA) (hs : ∀ i, Settled b s i) {d k : Nat} {v : IrValueId}
    (hd : resultAt b.instrs d = some v) (hv : v ∈ readsAt b.instrs k)
    (hplain : isConstant b.instrs v = false) (hfin : s.emissionIdx k ≠ ⊤) :
    s.emissionIdx d ≤ s.emissionIdx k := by
  have hdk := hssa.defined hd hv
  have hle : (k : WithTop Nat) ≤ s.emissionIdx k :=
    le_emissionIdx hssa hs b.instrs.length k (Nat.le_add_left _ _)
  have hmoved : crossBlock b v = false → firstConsumer b s v ≤ s.emissionIdx k := by
    intro hcross
    have huse : v ∈ usesAt b.instrs k := by
      have hcases := reads_cases hv
      rwa [hplain, hcross, Bool.false_eq_true, or_self, or_false] at hcases
    have hpoint := @firstConsumer_le b k v s (mem_consumersOf.mpr (Or.inl huse))
    rwa [consumerPoint, if_neg (Nat.ne_of_lt (lt_of_mem_usesAt huse))] at hpoint
  rcases hs d with ⟨he, -⟩ | ⟨-, -, hcons⟩ | ⟨-, -, r, hr, hcross, he, -⟩
  · rw [he]
    exact le_trans (WithTop.coe_le_coe.mpr hdk.le) hle
  · obtain ⟨hcross, htop⟩ := hcons v hd
    have hle' := hmoved hcross
    rw [htop, top_le_iff] at hle'
    exact absurd hle' hfin
  · obtain rfl := Option.some.inj (hr.symm.trans hd)
    rw [he]
    exact hmoved hcross

theorem settled_has_order (hssa : b.SSA) (hs : ∀ i, Settled b s i) :
    ∃ order, IsOrder b.instrs s order := by
  classical
  have htotal : ∀ i k, emitsBefore s i k ∨ emitsBefore s k i := by
    intro i k
    rcases lt_trichotomy (s.emissionIdx i) (s.emissionIdx k) with h | h | h
    · exact Or.inl (Or.inl h)
    · exact (Nat.le_total i k).imp (fun hle => Or.inr ⟨h, hle⟩) fun hle => Or.inr ⟨h.symm, hle⟩
    · exact Or.inr (Or.inl h)
  have htrans : ∀ i k l, emitsBefore s i k → emitsBefore s k l → emitsBefore s i l := by
    rintro i k l (h | ⟨h, hle⟩) (h' | ⟨h', hle'⟩)
    · exact Or.inl (lt_trans h h')
    · exact Or.inl (h' ▸ h)
    · exact Or.inl (h.symm ▸ h')
    · exact Or.inr ⟨h.trans h', hle.trans hle'⟩
  let _ : Std.Total (emitsBefore s) := ⟨htotal⟩
  let _ : IsTrans Nat (emitsBefore s) := ⟨htrans⟩
  let emitted := (range b.instrs.length).filter fun i => s.emissionIdx i ≠ ⊤
  have hperm : (emitted.insertionSort (emitsBefore s)).Perm emitted := perm_insertionSort _ _
  have hsorted : (emitted.insertionSort (emitsBefore s)).Pairwise (emitsBefore s) :=
    pairwise_insertionSort _ _
  have hmem : ∀ i, i ∈ emitted.insertionSort (emitsBefore s) ↔
      i < b.instrs.length ∧ s.emissionIdx i ≠ ⊤ := by
    intro i
    rw [hperm.mem_iff]
    simp [emitted]
  have hnodup : (emitted.insertionSort (emitsBefore s)).Nodup :=
    hperm.nodup_iff.mpr (nodup_range.filter _)
  refine ⟨_, hnodup, hmem, hsorted.imp fun h => ?_, fun k hk v hv hplain d hd => ?_⟩
  · exact h.elim le_of_lt fun h => le_of_eq h.1
  · have hfin := ((hmem k).mp hk).2
    have hle := operand_emitted hssa hs hd hv hplain hfin
    have hdk := hssa.defined hd hv
    have hmd := (hmem d).mpr ⟨lt_of_resultAt hd, fun htop => hfin (top_le_iff.mp (htop ▸ hle))⟩
    rcases before_total hmd hk hdk.ne with hb | hb
    · exact hb
    · exfalso
      rcases before_of_pairwise hsorted hb with h | ⟨-, h⟩
      · exact not_le_of_gt h hle
      · omega

/-! ### Scheduling is right exactly when nothing that matters is dropped -/

/-- **The pass's schedule is accepted and can be executed; and an execution of an accepted
schedule performs conflicting pairs in program order, and gives the values and the state
of the program order, under every semantics that respects the effect summaries, exactly
when every instruction that is never emitted changes nothing.** -/
theorem schedule_preserves_iff (hssa : b.SSA) :
    verifyEmissionSchedule b.instrs (anchorPass b) = [] ∧
    (∃ order, IsOrder b.instrs (anchorPass b) order) ∧
    ∀ s, verifyEmissionSchedule b.instrs s = [] → ∀ order, IsOrder b.instrs s order →
      (∀ i k, i < k → i ∈ order → k ∈ order →
        effectsConflict (effectsAt b.instrs i) (effectsAt b.instrs k) = true →
          Before order i k) ∧
      ((∀ (V σ : Type) (sem : Semantics V σ), Respects b.instrs sem → ∀ m,
          Agree b.instrs s (runBlock b.instrs sem m) (runOrder b.instrs sem order m)) ↔
        ∀ i < b.instrs.length, s.emissionIdx i = ⊤ → (effectsAt b.instrs i).changes = false) := by
  refine ⟨anchorPass_accepted hssa, settled_has_order hssa (anchorPass_settled hssa), ?_⟩
  intro s hver order ho
  have hacc := verifyEmissionSchedule_eq_nil.mp hver
  refine ⟨fun i k hik hi hk hconf => ho.conflict_before hssa hacc hik hi hk hconf, ?_, ?_⟩
  · intro h
    exact ho.keeps_changes (h Unit Nat _ countChanges_respects)
  · intro hkeep V σ sem hsem m
    exact ho.agree hssa hacc hkeep hsem m

end

/-- The effects of a call. -/
def callEffects : IrEffects := ⟨true, true, false, false, [], []⟩

/-- `v0 = call; v1 = add v0 v0`, and nothing uses `v1`. -/
def deadConsumer : BlockFacts where
  instrs := [⟨"call", some 0, [], [], callEffects, true, by decide⟩,
    ⟨"binary", some 1, [0, 0], [], IrEffects.none, false, by decide⟩]
  terminatorUses := []
  elsewhere := []

theorem deadConsumer_ssa : deadConsumer.SSA :=
  BlockFacts.SSA.of_bounded (by decide) (by decide)

/-- The call is never emitted: its only consumer is dead.  The verifier accepts that. -/
theorem deadConsumer_dropped :
    ¬ ∀ b : BlockFacts, b.SSA → ∀ s, verifyEmissionSchedule b.instrs s = [] →
      ∀ order, IsOrder b.instrs s order →
        ∀ (V σ : Type) (sem : Semantics V σ), Respects b.instrs sem → ∀ m,
          Agree b.instrs s (runBlock b.instrs sem m) (runOrder b.instrs sem order m) := by
  intro hall
  have hnever : ∀ i < deadConsumer.instrs.length, (anchorPass deadConsumer).emissionIdx i = ⊤ := by
    decide
  have hstore := (hall deadConsumer deadConsumer_ssa (anchorPass deadConsumer) (by decide) []
    ⟨nodup_nil, fun i => iff_of_false not_mem_nil fun hi => hi.2 (hnever i hi.1),
      List.Pairwise.nil, fun k hk => nomatch hk⟩
    Unit Nat _ countChanges_respects ⟨fun _ => (), 0⟩).store
  exact absurd hstore (by decide)

/-- `v0 = call` that a later call and the terminator use, and a constant that a loop reads:
nothing that matters is dropped. -/
def usedCalls : BlockFacts where
  instrs := [⟨"call", some 0, [], [], callEffects, true, by decide⟩,
    ⟨"const", some 2, [], [], IrEffects.none, false, by decide⟩,
    ⟨"call", some 1, [0], [], callEffects, true, by decide⟩,
    ⟨"while.loop", none, [], [2], callEffects, true, by decide⟩]
  terminatorUses := [1]
  elsewhere := []

theorem usedCalls_ssa : usedCalls.SSA :=
  BlockFacts.SSA.of_bounded (by decide) (by decide)

theorem usedCalls_preserved :
    verifyEmissionSchedule usedCalls.instrs (anchorPass usedCalls) = [] ∧
    (∃ order, IsOrder usedCalls.instrs (anchorPass usedCalls) order) ∧
    ∀ s, verifyEmissionSchedule usedCalls.instrs s = [] → ∀ order,
      IsOrder usedCalls.instrs s order →
      (∀ i k, i < k → i ∈ order → k ∈ order →
        effectsConflict (effectsAt usedCalls.instrs i) (effectsAt usedCalls.instrs k) = true →
          Before order i k) ∧
      ((∀ (V σ : Type) (sem : Semantics V σ), Respects usedCalls.instrs sem → ∀ m,
          Agree usedCalls.instrs s (runBlock usedCalls.instrs sem m)
            (runOrder usedCalls.instrs sem order m)) ↔
        ∀ i < usedCalls.instrs.length, s.emissionIdx i = ⊤ →
          (effectsAt usedCalls.instrs i).changes = false) :=
  schedule_preserves_iff usedCalls_ssa

end Js2Wasm.Ir
