import Js2Wasm.Slots.Agreement

/-! # The plan in runs

`planI32Slots` ends with candidates all of whose writes are lowerable (`plan_lowerable`).  So
every write to a planned local that the planner has looked at stores the value it assigns,
if the tests of its loop leave room for its steps.

A counter does leave them: `detectI32LoopVar` bounds neither the limit of the loop nor the
direction of its step (`counter_leaves_int32`).
-/
namespace Js2Wasm.Slots
open List Function

variable {F : Type} {N : Numbers F} {env env' : Env F} {v : F} {plan : List Candidate}
  {canonNames : String → Bool} {s : SlotState F} {b : Binding} {site : Site}
  {known known' : Binding → Int → Prop}

/-! ### The plan -/

section
variable {fn : Fn} {mutatedLets : String → Bool} {cs now : List Candidate} {c : Candidate}

theorem dropped_sublist (canonNames : String → Bool) (l now : List Candidate) :
    (l.foldl (fun now c =>
      if writeShapesAreLowerable c (promotedAt canonNames now) then now
      else now.filter fun e => e.decl.id != c.decl.id) now).Sublist now := by
  induction l generalizing now with
  | nil => exact List.Sublist.refl _
  | cons c l ih =>
    rw [foldl_cons]
    split
    · exact ih now
    · exact (ih _).trans filter_sublist

/-- A round that drops nothing has found every write lowerable. -/
theorem lowerable_of_kept {l : List Candidate} (hsub : ∀ c ∈ l, c ∈ now)
    (hlen : (l.foldl (fun now c =>
      if writeShapesAreLowerable c (promotedAt canonNames now) then now
      else now.filter fun e => e.decl.id != c.decl.id) now).length = now.length) :
    ∀ c ∈ l, writeShapesAreLowerable c (promotedAt canonNames now) = true := by
  induction l with
  | nil => exact fun c hc => nomatch hc
  | cons c l ih =>
    rw [foldl_cons] at hlen
    by_cases hc : writeShapesAreLowerable c (promotedAt canonNames now) = true
    · rw [if_pos hc] at hlen
      intro e he
      rcases mem_cons.mp he with rfl | he
      · exact hc
      · exact ih (fun e he => hsub e (mem_cons_of_mem _ he)) hlen e he
    · rw [if_neg hc] at hlen
      have hle := (dropped_sublist canonNames l
        (now.filter fun e => e.decl.id != c.decl.id)).length_le
      rw [hlen] at hle
      have hlt : (now.filter fun e => e.decl.id != c.decl.id).length < now.length :=
        length_filter_lt_length_iff_exists.mpr ⟨c, hsub c mem_cons_self, by simp⟩
      exact absurd hle (Nat.not_le.mpr hlt)

theorem sweep_sublist (canonNames : String → Bool) (cs : List Candidate) :
    (sweep canonNames cs).Sublist cs := dropped_sublist canonNames cs cs

theorem settle_sublist (canonNames : String → Bool) (fuel : Nat) (cs : List Candidate) :
    (settle canonNames fuel cs).Sublist cs := by
  induction fuel generalizing cs with
  | zero => exact List.Sublist.refl _
  | succ fuel ih =>
    rw [settle]
    split
    · exact List.Sublist.refl _
    · exact (ih _).trans (sweep_sublist canonNames cs)

/-- The rounds end with one that drops nothing. -/
theorem settle_settled {fuel : Nat} (h : cs.length < fuel) :
    (sweep canonNames (settle canonNames fuel cs)).length = (settle canonNames fuel cs).length := by
  induction fuel generalizing cs with
  | zero => exact absurd h (Nat.not_lt_zero _)
  | succ fuel ih =>
    rw [settle]
    split
    · assumption
    · rename_i hne
      have hlt := Nat.lt_of_le_of_ne (sweep_sublist canonNames cs).length_le hne
      exact ih (by omega)

theorem named_of_candidates (h : c ∈ candidates fn mutatedLets canonNames) :
    c.isProvenCounter = true ∨ canonNames c.name = true := by
  obtain ⟨name, -, hc⟩ := mem_flatMap.mp (mem_of_mem_filter h)
  rw [candidatesOf] at hc
  split at hc
  · obtain ⟨d, -, hd⟩ := mem_filterMap.mp hc
    simp only at hd
    split at hd
    · rename_i hor
      rw [← Option.some.inj hd]
      exact (Bool.or_eq_true _ _).mp hor
    · cases hd
  · cases hc

/-- What the rest needs of a plan. -/
structure Lowerable (plan : List Candidate) (canonNames : String → Bool) : Prop where
  shapes : ∀ {c : Candidate}, c ∈ plan →
    writeShapesAreLowerable c (promotedAt canonNames plan) = true
  named : ∀ {c : Candidate}, c ∈ plan → c.isProvenCounter = true ∨ canonNames c.name = true

theorem plan_lowerable (fn : Fn) (mutatedLets canonNames : String → Bool) :
    Lowerable (planI32Slots fn mutatedLets canonNames) canonNames := by
  rw [planI32Slots]
  split
  · constructor
    · intro c hc
      exact lowerable_of_kept (fun _ h => h) (settle_settled (Nat.lt_succ_self _)) c hc
    · intro c hc
      exact named_of_candidates ((settle_sublist canonNames _ _).subset hc)
  · exact ⟨fun hc => absurd hc not_mem_nil, fun hc => absurd hc not_mem_nil⟩

end

/-! ### One write -/

theorem isCounter_binding {c : Candidate} (hc : c ∈ plan) (hcounter : c.isProvenCounter = true) :
    isCounter plan c.binding = true :=
  any_eq_true.mpr ⟨c, hc, by rw [hcounter, beq_self_eq_true, Bool.and_self]⟩

theorem isAssignToken_of_assignment {k : Token} (h : (assignment? k).isSome = true) :
    isAssignToken k = true := by
  cases k <;> first | rfl | cases h

theorem int32_one : Int32 1 := ⟨by decide, by decide⟩

section
variable (h : Tracks N plan canonNames s env known) (hN : N.Exact) (hb : isPlanned plan b = true)
  (ht : target? site.node = some b) (ha : Assigns N env site.node v)
  (hclear : ClearWrite plan known b site) (hco : isCounter plan b = false → IsInt32 N v)

/-- A write to a planned local stores an integer, which is what it assigns and among what the
local may be from then on. -/
def Written (N : Numbers F) (plan : List Candidate) (canonNames : String → Bool) (s : SlotState F)
    (known : Binding → Int → Prop) (b : Binding) (site : Site) (v : F) : Prop :=
  ∃ i, Int32 i ∧ v = N.ofInt i ∧ Stores N (isPlanned plan) canonNames s b site.node i ∧
    learn N plan known (.assign site v) b i

include ht in
/-- A write that is no step. -/
theorem written_of_stores {i : Int} (hstep : stepOf b.1 site.node = none) (h32 : Int32 i)
    (hv : v = N.ofInt i) (hstores : Stores N (isPlanned plan) canonNames s b site.node i) :
    Written N plan canonNames s known b site v := by
  refine ⟨i, h32, hv, hstores, ?_⟩
  rw [learn, if_pos ht, hstep]
  exact hv

include h hN hb ht hclear

/-- A write that steps. -/
theorem Tracks.written_step {u : F} {negate : Bool} {step : Int} (hu : env b = some u)
    (hstep : stepOf b.1 site.node = some (negate, step)) (h32 : Int32 step)
    (hco : isCounter plan b = false → IsInt32 N (N.step negate u (N.ofInt step)))
    (hstores : ∀ i, s.slots b = some i →
      Stores N (isPlanned plan) canonNames s b site.node (stepI32 negate i step)) :
    Written N plan canonNames s known b site (N.step negate u (N.ofInt step)) := by
  obtain ⟨i, hi, hi32, hknown, heq, hin, hv⟩ := h.stepped hN hb hu h32
    (fun hcount => hclear.room hcount negate step hstep) hco
  refine ⟨_, hin, hv, hstores i hi, ?_⟩
  rw [learn, if_pos ht, hstep]
  exact ⟨i, hi32, hknown, heq⟩

include ha hco

/-- `++` and `--` of a planned local. -/
theorem Tracks.unit {negate : Bool} (hunit : unit? site.node = some negate) :
    Written N plan canonNames s known b site v := by
  have hm := ha.means
  have hstep : stepOf b.1 site.node = some (negate, 1) := by
    rcases kind_of_unit hunit with hk | hk
    all_goals
      rw [stepOf, hk, hunit]
      rfl
  have hval : ∃ b u, target? site.node = some b ∧ env b = some u ∧
      v = N.step negate u (N.ofInt 1) := by
    rcases kind_of_unit hunit with hk | hk
    all_goals
      rw [WriteMeans, hk] at hm
      exact hm negate hunit
  obtain ⟨b', u, ht', hu, rfl⟩ := hval
  obtain rfl := Option.some.inj (ht.symm.trans ht')
  exact h.written_step hN hb ht hclear hu hstep int32_one hco fun i hi => .unit hunit hi

/-- A compound assignment to a planned local. -/
theorem Tracks.compound {k : Token} (hk : site.node.kind = .binaryExpression k)
    (hne : k ≠ .equals)
    (hshape : (compoundBitwiseToken k).isSome = true ∨ (k = .plusEquals ∨ k = .minusEquals) ∧
      (site.node.right.bind i32LiteralValue).isSome = true) :
    Written N plan canonNames s known b site v := by
  have hm := ha.means
  rw [WriteMeans, hk] at hm
  simp only [if_neg hne] at hm
  rcases hshape with hbit | ⟨hsign, hlit⟩
  · obtain ⟨t, hop⟩ := Option.isSome_iff_exists.mp hbit
    obtain ⟨hassign, hbit⟩ := assignment_bitwise hop
    obtain ⟨op, hbinop, hf⟩ := @operator_bitwise _ N _ hbit
    obtain ⟨b', rhs, u, w, htb, hu, hr, hw, rfl⟩ := hm t _ hassign hf
    obtain rfl := Option.some.inj (ht.symm.trans htb)
    obtain ⟨i, hi, hi32, rfl⟩ := h.slot hb hu
    have hnone : stepOf b.1 site.node = none := by
      rw [stepOf, hk]
      cases k with
      | ampersandEquals | barEquals | caretEquals | lessThanLessThanEquals
      | greaterThanGreaterThanEquals => simp [unit?, hk]
      | _ => cases hop
    rw [← h.view] at hw
    refine written_of_stores ht hnone (int32_toInt _) ?_ (.bitwise hk hop hbinop hi hr hw)
    simp only [hN.bits_ofInt hi32]
  · have hsign' : ∃ negate, k = (if negate then .minusEquals else .plusEquals) ∧
        stepOf b.1 site.node = (site.node.right.bind i32LiteralValue).map fun step =>
          (negate, step) := by
      rcases hsign with rfl | rfl
      · exact ⟨false, rfl, by rw [stepOf, hk]⟩
      · exact ⟨true, rfl, by rw [stepOf, hk]⟩
    obtain ⟨negate, hkind, hof⟩ := hsign'
    obtain ⟨b', rhs, u, w, htb, hu, hr, hw, hv⟩ : ∃ b rhs u w, target? site.node = some b ∧
        env b = some u ∧ site.node.right = some rhs ∧ Evaluates N env rhs w ∧
        v = N.step negate u w := by
      cases negate with
      | false => exact hm .plus _ (hkind ▸ rfl) rfl
      | true => exact hm .minus _ (hkind ▸ rfl) rfl
    obtain rfl := Option.some.inj (ht.symm.trans htb)
    obtain ⟨step, hlit⟩ := Option.isSome_iff_exists.mp hlit
    have hrhs : i32LiteralValue rhs = some step := by
      rw [hr] at hlit
      exact hlit
    obtain ⟨h32, rfl⟩ := evaluates_i32Literal hrhs hw
    subst hv
    refine h.written_step hN hb ht hclear hu (by rw [hof, hlit]; rfl) h32 hco fun i hi => ?_
    exact .compound hk hkind hlit hi

/-- A write to a planned local stores what it assigns. -/
theorem Tracks.write (hplan : Lowerable plan canonNames) :
    Written N plan canonNames s known b site v := by
  obtain ⟨c, hc, hcb, hsees⟩ := hclear.seen
  have hshapes := hplan.shapes hc
  rw [writeShapesAreLowerable, Bool.and_eq_true] at hshapes
  obtain ⟨hinit, hall⟩ := hshapes
  have hm := ha.means
  rcases hsees with heq | ⟨hwalk, hnotDecl, hname⟩
  · -- the declaration
    rw [← heq] at hinit
    split at hinit
    · rename_i init hi
      have hk := kind_of_initializer hi
      rw [WriteMeans, hk] at hm
      obtain ⟨init', hi', hev⟩ := hm
      obtain rfl := Option.some.inj (hi.symm.trans hi')
      have hsource : source? site.node = some init := by rw [source?, hk, hi]
      obtain ⟨i, h32, hv, hl⟩ := h.lowers hinit hev (hclear.resolves init hsource)
      exact written_of_stores ht (by rw [stepOf, hk, unit?, hk]; rfl) h32 hv (.declare hi hl)
    · cases hinit
  · have hw := all_eq_true.mp hall _ hwalk
    have hbname : c.name = b.1 := by rw [← hcb, Candidate.binding]
    have ht' := ht
    unfold target? at ht
    split at ht
    · rw [hnotDecl] at ht
      cases ht
    · rename_i k hk
      rw [isLowerableWrite, hk] at hw
      simp only [hname, if_true] at hw
      split at hw
      · cases hw
      · split at hw
        · -- an assignment: a step of the counter, or an exact i32
          rename_i hequals
          subst hequals
          rw [WriteMeans, hk] at hm
          simp only [if_true] at hm
          obtain ⟨rhs, hr, hev⟩ := hm
          rw [hr] at hw
          have hsource : source? site.node = some rhs := by rw [source?, hk, hr]
          have hof : stepOf b.1 site.node = counterStepAssignment rhs b.1 := by
            rw [stepOf, hk]
            simp [hr]
          cases hstep : counterStepAssignment rhs b.1 with
          | none =>
            simp only [hbname, hstep, Option.isSome_none, Bool.and_false, Bool.false_or] at hw
            obtain ⟨i, h32, hv, hl⟩ := h.lowers hw hev (hclear.resolves rhs hsource)
            exact written_of_stores ht' (hof.trans hstep) h32 hv (.assign hk hr hstep hl)
          | some p =>
            obtain ⟨negate, step⟩ := p
            have hself := hclear.own rhs hsource (by rw [hstep]; rfl)
            obtain ⟨h32, u, hu, rfl⟩ := evaluates_counterStep hstep hev hself
            exact h.written_step hN hb ht' hclear hu (hof.trans hstep) h32 hco fun i hi =>
              .assignStep hk hr hstep hi
        · rename_i hne
          split at hw
          · rename_i hbit
            exact h.compound hN hb ht' ha hclear hco hk hne (Or.inl hbit)
          · split at hw
            · rename_i hstep
              exact h.compound hN hb ht' ha hclear hco hk hne (Or.inr ⟨hstep.1, hstep.2.2⟩)
            · -- every assignment of the language is a token the planner looks for
              split at ht
              · rename_i hassign
                have hany := isAssignToken_of_assignment (hassign.resolve_left hne)
                rw [hany] at hw
                cases hw
              · cases ht
    -- the unary operators, in front and behind
    iterate 2
      · rename_i k hk
        split at ht
        · rename_i hkk
          have hunit : unit? site.node = some (decide (k = .minusMinus)) := by
            rcases hkk with rfl | rfl <;> rw [unit?, hk] <;> rfl
          exact h.unit hN hb ht' ha hclear hco hunit
        · cases ht
    · cases ht

end

/-! ### Runs -/

theorem isCounter_of_not_planned (h : isPlanned plan b = false) : isCounter plan b = false := by
  rw [isPlanned, any_eq_false] at h
  rw [isCounter, any_eq_false]
  intro c hc hcounter
  rw [Bool.and_eq_true] at hcounter
  exact h c hc hcounter.1

section
variable (h : Tracks N plan canonNames s env known)
include h

theorem Tracks.store (hb : isPlanned plan b = true) {i : Int} (hi : Int32 i) (hv : v = N.ofInt i)
    (ht : target? site.node = some b) (hlearn : learn N plan known (.assign site v) b i) :
    Tracks N plan canonNames { s with slots := update s.slots b (some i) }
      (update env b (some v)) (learn N plan known (.assign site v)) where
  view := by
    funext b'
    by_cases hbb : b' = b
    · subst hbb
      rw [SlotState.view, if_pos hb, update_self]
      dsimp only
      rw [update_self, hv]
      rfl
    · rw [update_of_ne hbb, ← h.view, SlotState.view, SlotState.view]
      dsimp only
      rw [update_of_ne hbb]
  int32 {b' j} hp hj := by
    dsimp only at hj
    by_cases hbb : b' = b
    · subst hbb
      rw [update_self] at hj
      exact Option.some.inj hj ▸ hi
    · rw [update_of_ne hbb] at hj
      exact h.int32 hp hj
  known {b' j} hp hj := by
    dsimp only at hj
    by_cases hbb : b' = b
    · subst hbb
      rw [update_self] at hj
      exact Option.some.inj hj ▸ hlearn
    · rw [update_of_ne hbb] at hj
      rw [learn, if_neg fun ht' => hbb (Option.some.inj (ht'.symm.trans ht))]
      exact h.known hp hj
  coerced {b' w} hc hw := by
    by_cases hbb : b' = b
    · subst hbb
      rw [update_self] at hw
      exact ⟨i, hi, (Option.some.inj hw).symm.trans hv⟩
    · rw [update_of_ne hbb] at hw
      exact h.coerced hc hw

theorem Tracks.assign (hb : isPlanned plan b = false) (hco : canonNames b.1 = true → IsInt32 N v)
    (hknown : ∀ b' i, b' ≠ b → known b' i → known' b' i) :
    Tracks N plan canonNames { s with env := update s.env b (some v) }
      (update env b (some v)) known' where
  view := by
    funext b'
    by_cases hbb : b' = b
    · subst hbb
      rw [SlotState.view, hb, update_self]
      exact update_self ..
    · rw [update_of_ne hbb, ← h.view, SlotState.view, SlotState.view]
      dsimp only
      rw [update_of_ne hbb]
  int32 hp hj := h.int32 hp hj
  known {b' i} hp hj := by
    refine hknown b' i ?_ (h.known hp hj)
    rintro rfl
    rw [hb] at hp
    cases hp
  coerced {b' w} hc hv := by
    by_cases hbb : b' = b
    · subst hbb
      rw [update_self] at hv
      exact Option.some.inj hv ▸ hco hc
    · rw [update_of_ne hbb] at hv
      exact h.coerced hc hv

/-- A counter is among what the test of its loop lets through. -/
theorem Tracks.letsThrough {c l r : Node} {k : Token} {u w : F} {i : Int}
    (hk : c.kind = .binaryExpression k) (hl : c.left = some l) (hr : c.right = some r)
    (hu : Evaluates N env l u) (hw : Evaluates N env r w) (hb : isPlanned plan b = true)
    (hi : s.slots b = some i) : LetsThrough N b c u w (N.compare k u w) i := by
  have hv : env b = some (N.ofInt i) := by
    rw [← h.view, SlotState.view, if_pos hb, hi]
    rfl
  intro k' hk'
  obtain rfl : k = k' := by
    rw [hk] at hk'
    cases hk'
    rfl
  rw [hl, hr]
  constructor
  · intro hid
    rw [Option.some.inj ((evaluates_identifierOf hid hu).symm.trans hv)]
  · intro hid
    rw [Option.some.inj ((evaluates_identifierOf hid hw).symm.trans hv)]

theorem Tracks.step (hN : N.Exact) (hplan : Lowerable plan canonNames) {event : Event F}
    (hstep : ClearStep N plan canonNames (env, known) event (env', known')) :
    ∃ s', SlotStep N (isPlanned plan) canonNames s event s' ∧
      Tracks N plan canonNames s' env' known' := by
  obtain ⟨hstep, hclear, hco, hknown⟩ := hstep
  dsimp only at hstep hclear hknown
  subst hknown
  cases hstep with
  | read hid hv =>
    refine ⟨s, .read hid ?_, h⟩
    rw [h.view]
    exact hv
  | test hk hl hr hu hw =>
    refine ⟨s, ?_, h.view, h.int32, fun {b i} hb hi => ?_, h.coerced⟩
    · rw [← h.view] at hu hw
      exact .test hk hl hr hu hw
    · rw [learn]
      split
      · exact h.letsThrough hk hl hr hu hw hb hi
      · exact h.known hb hi
  | @assign _ b v ht ha =>
    by_cases hb : isPlanned plan b = true
    · have hco' : isCounter plan b = false → IsInt32 N v := by
        intro hcounter
        obtain ⟨c, hc, hcb, -⟩ := (hclear b ht hb).seen
        refine hco b ht ?_ hcounter
        rcases hplan.named hc with hproven | hname
        · have hcounter' := isCounter_binding hc hproven
          rw [hcb, hcounter] at hcounter'
          cases hcounter'
        · rw [← hcb]
          exact hname
      obtain ⟨i, hi, hv, hstore, hlearn⟩ := h.write hN hb ht ha (hclear b ht hb) hco' hplan
      refine ⟨_, ?_, h.store hb hi hv ht hlearn⟩
      rw [hv]
      exact .store ht hb hstore
    · rw [Bool.not_eq_true] at hb
      refine ⟨_, .assign ht hb ?_,
        h.assign hb (fun hname => hco b ht hname (isCounter_of_not_planned hb)) ?_⟩
      · rw [h.view]
        exact ha
      · intro b' i hbb hi
        rw [learn, if_neg fun ht' => hbb (Option.some.inj (ht'.symm.trans ht))]
        exact hi
  | @other b v =>
    have hb : isPlanned plan b = false := hclear
    refine ⟨_, .other hb,
      h.assign hb (fun hname => hco hname (isCounter_of_not_planned hb)) ?_⟩
    intro b' i hbb hi
    rw [learn, if_neg hbb]
    exact hi

end

theorem tracks_start :
    Tracks N plan canonNames SlotState.start (@Learned.start F).1 (@Learned.start F).2 where
  view := by
    funext b
    rw [SlotState.view]
    split <;> rfl
  int32 _ hj := by cases hj
  known _ _ := trivial
  coerced _ hv := by cases hv

/-- **Native i32 slots.**  In every run whose writes to planned locals the planner has looked
at and whose steps have room wherever the tests of their loops leave the counter, a planned
local only ever holds a signed 32-bit integer, and the run with slots has the same reads,
assignments and tests. -/
theorem slots_behave (N : Numbers F) (hN : N.Exact) (fn : Fn)
    (mutatedLets canonNames : String → Bool) (events : List (Event F)) (env : Env F)
    (known : Binding → Int → Prop)
    (hrun : Run (ClearStep N (planI32Slots fn mutatedLets canonNames) canonNames) Learned.start
      events (env, known)) :
    (∀ c ∈ planI32Slots fn mutatedLets canonNames, ∀ v, env c.binding = some v → IsInt32 N v) ∧
    ∃ s, Run (SlotStep N (isPlanned (planI32Slots fn mutatedLets canonNames)) canonNames)
        SlotState.start events s ∧
      s.view N (isPlanned (planI32Slots fn mutatedLets canonNames)) = env := by
  have hplan := plan_lowerable fn mutatedLets canonNames
  generalize planI32Slots fn mutatedLets canonNames = plan at hrun hplan ⊢
  have htracks : ∃ s, Run (SlotStep N (isPlanned plan) canonNames) SlotState.start events s ∧
      Tracks N plan canonNames s env known := by
    generalize hx : (env, known) = x at hrun
    suffices h : ∃ s, Run (SlotStep N (isPlanned plan) canonNames) SlotState.start events s ∧
        Tracks N plan canonNames s x.1 x.2 by
      subst hx
      exact h
    clear hx
    induction hrun with
    | nil => exact ⟨_, .nil, tracks_start⟩
    | snoc _ hstep ih =>
      obtain ⟨s, hs, htracks⟩ := ih
      obtain ⟨s', hstep', htracks'⟩ := htracks.step hN hplan hstep
      exact ⟨s', .snoc hs hstep', htracks'⟩
  obtain ⟨s, hs, htracks⟩ := htracks
  refine ⟨fun c hc v hv => ?_, s, hs, htracks.view⟩
  obtain ⟨i, -, hi, hvi⟩ := htracks.slot (isPlanned_binding hc) hv
  exact ⟨i, hi, hvi⟩

/-! ### Counting loops -/

/-- Integers, for runs that stay below `2 ^ 53`. -/
def integers : Numbers Int where
  ofInt n := n
  add a b := a + b
  sub a b := a - b
  compare
    | .lessThan, a, b => a < b
    | .lessThanEquals, a, b => a ≤ b
    | .greaterThan, a, b => a > b
    | _, a, b => a ≥ b
  bits a := BitVec.ofInt 32 a

theorem integers_exact : integers.Exact :=
  ⟨fun _ _ h => h, fun _ _ => rfl, fun _ _ => rfl, fun _ => rfl⟩

def useOf (id pos : Nat) : Node := .mk id (.identifier "i" (some 3)) pos (pos + 1) []

def numberAt (id pos n : Nat) : Node := .mk id (.numericLiteral (some n)) pos (pos + 1) []

def countDecl (start : Nat) : Node :=
  .mk 3 (.variableDeclaration true) 2 4 [useOf 4 2, numberAt 5 3 start]

def countTest (limit : Nat) : Node :=
  .mk 6 (.binaryExpression .lessThan) 4 6 [useOf 7 4, numberAt 8 5 limit]

def countStep : Node := .mk 9 (.postfixUnaryExpression .plusPlus) 6 8 [useOf 10 6]

/-- `for (let i = start; i < limit; i++)` with an empty body. -/
def countLoop (start limit : Nat) : Node :=
  .mk 1 (.forStatement true true true) 1 9
    [.mk 2 .variableDeclarationList 2 4 [countDecl start], countTest limit, countStep,
      .mk 11 .block 8 9 []]

def counting (start limit : Nat) : Fn := ⟨[], .mk 0 .block 0 10 [countLoop start limit]⟩

/-- The events of the first round. -/
def firstRound (start limit : Nat) : List (Event Int) :=
  [.assign ⟨countDecl start, []⟩ start, .test (countTest limit) start limit true,
    .assign ⟨countStep, [countLoop start limit]⟩ (start + 1)]

/-- The counter and nothing else is initialized. -/
def counterIs (i : Int) : Env Int := update Env.start ("i", 3) (some i)

theorem countDecl_step (start : Nat) :
    Step integers Env.start (.assign ⟨countDecl start, []⟩ start) (counterIs start) :=
  .assign rfl (.declare rfl (.literal rfl))

theorem countTest_step {start limit : Nat} (h : start < limit) :
    Step integers (counterIs start) (.test (countTest limit) start limit true)
      (counterIs start) := by
  have hlt : (start : Int) < limit := by omega
  have hleft : Evaluates integers (counterIs start) (useOf 7 4) (start : Int) := .use rfl rfl
  have hright : Evaluates integers (counterIs start) (numberAt 8 5 limit) (limit : Int) :=
    .literal rfl
  have htest : Step integers (counterIs start) (.test (countTest limit) start limit
      (integers.compare .lessThan start limit)) (counterIs start) :=
    .test rfl rfl rfl hleft hright
  rwa [show integers.compare .lessThan start limit = true from decide_eq_true hlt] at htest

theorem countStep_step (i : Int) (above : List Node) :
    Step integers (counterIs i) (.assign ⟨countStep, above⟩ (i + 1)) (counterIs (i + 1)) := by
  have hunit : Assigns integers (counterIs i) countStep (integers.step false i 1) :=
    .unit rfl rfl rfl
  have hstep : Step integers (counterIs i) (.assign ⟨countStep, above⟩ (i + 1)) _ :=
    .assign rfl hunit
  rwa [counterIs, update_idem] at hstep

theorem run_firstRound {σ : Type} {step : σ → Event Int → σ → Prop} {s0 s1 s2 s3 : σ}
    {start limit : Nat} (hdecl : step s0 (.assign ⟨countDecl start, []⟩ start) s1)
    (htest : step s1 (.test (countTest limit) start limit true) s2)
    (hstep : step s2 (.assign ⟨countStep, [countLoop start limit]⟩ (start + 1)) s3) :
    Run step s0 (firstRound start limit) s3 :=
  .snoc (.snoc (.snoc .nil hdecl) htest) hstep

/-- A counter that the plan stores as an i32 leaves the 32 bits: in the first round of a loop
up to 2147483649 it becomes 2147483648, and its slot wraps. -/
theorem counter_leaves_int32 :
    (planI32Slots (counting 2147483647 2147483649) (· == "i") (fun _ => false)).map
      Candidate.binding = [("i", 3)] ∧
    Run (Step integers) Env.start (firstRound 2147483647 2147483649) (counterIs 2147483648) ∧
    ¬IsInt32 integers 2147483648 ∧ stepI32 false 2147483647 1 = -2147483648 := by
  refine ⟨by decide, ?_, ?_, by decide⟩
  · exact run_firstRound (countDecl_step _) (countTest_step (by decide)) (countStep_step _ _)
  · rintro ⟨n, ⟨-, hn⟩, rfl⟩
    exact absurd hn (by decide)

/-- The plan of the loop from 0 up to 2. -/
def countingPlan : List Candidate := [⟨countDecl 0, "i", countLoop 0 2, [], true⟩]

theorem countDecl_clear (hb : target? (countDecl 0) = some b) :
    ClearWrite countingPlan known b ⟨countDecl 0, []⟩ where
  seen := ⟨_, mem_cons_self, Option.some.inj hb, Or.inl rfl⟩
  resolves e he := by
    cases he
    intro text decl hk
    cases hk
  own e he hstep := by
    cases he
    cases hstep
  room _ negate step hstep := by cases hstep

/-- Below 2 there is room for the step. -/
theorem countStep_clear (hb : target? countStep = some b)
    (hknown : ∀ i, known ("i", 3) i → i < 2) :
    ClearWrite countingPlan known b ⟨countStep, [countLoop 0 2]⟩ where
  seen := by
    refine ⟨_, mem_cons_self, Option.some.inj hb, Or.inr ⟨?_, rfl, rfl⟩⟩
    have hat : (walkBindingScope (countLoop 0 2) [])[8]? = some ⟨countStep, [countLoop 0 2]⟩ := rfl
    exact mem_of_getElem? hat
  resolves e he := by cases he
  own e he := by cases he
  room _ negate step hstep i h32 hi := by
    cases hstep
    cases hb
    have hlt := hknown i hi
    obtain ⟨hlo, -⟩ := h32
    simp only [Int32, i32Min, i32Max, stepped] at hlo ⊢
    lia

theorem slots_behave_counting :
    IsInt32 integers 1 ∧
    ∃ s, Run (SlotStep integers (isPlanned countingPlan) (fun _ => false)) SlotState.start
        (firstRound 0 2) s ∧ s.view integers (isPlanned countingPlan) = counterIs 1 := by
  obtain ⟨known, hrun⟩ : ∃ known, Run (ClearStep integers countingPlan (fun _ => false))
      Learned.start (firstRound 0 2) (counterIs 1, known) := by
    refine ⟨_, @run_firstRound _ _ _ (_, _) (_, _) (_, _) 0 2
      ⟨countDecl_step 0, fun b hb _ => countDecl_clear hb, ?_, rfl⟩
      ⟨countTest_step (by decide), trivial, trivial, rfl⟩
      ⟨countStep_step 0 _, fun b hb _ => countStep_clear hb fun i hi => ?_, ?_, rfl⟩⟩
    · exact fun b _ hname => by cases hname
    · exact of_decide_eq_true ((hi _ rfl).1 rfl)
    · exact fun b _ hname => by cases hname
  have h := slots_behave integers integers_exact (counting 0 2) (· == "i") (fun _ => false)
    (firstRound 0 2) (counterIs 1) known hrun
  exact ⟨h.1 _ mem_cons_self 1 rfl, h.2⟩

end Js2Wasm.Slots
