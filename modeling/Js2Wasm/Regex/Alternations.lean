import Js2Wasm.Regex.Tries

/-! # Alternations of literals, grouped or not

Whether a pattern compiles does not depend on how alternations of literals are emitted
(`compileNode_fails`, `drain_error`), and both programs give every run the same result
(`literalAlternation_sound`).
-/
namespace Js2Wasm.Regex
open List Backtrack

/-! ### Which patterns are refused -/

/-- The error of a step. -/
def errorOf {α : Type} : Except String α → Option String
  | .ok _ => none
  | .error e => some e

variable {α β : Type} {x : Except String α} {e : Option String}

theorem errorOf_bind {f : α → Except String β} (h : ∀ a, x = .ok a → errorOf (f a) = e) :
    errorOf (x >>= f) = (errorOf x).or e := by
  cases x with
  | ok a => exact h a rfl
  | error e' => rfl

/-- The error of a step, if it has the same one in every state of the emitter. -/
def FailsAs (step : Emission) (e : Option String) : Prop := ∀ em, errorOf (step em) = e

section FailsAs

variable {step : Emission} {steps : List Emission} {e : Option String} {es : List (Option String)}

theorem FailsAs.then {β : Type} (h : FailsAs step e) {f : Emitter → Except String β} (em : Emitter)
    (hf : ∀ em, errorOf (f em) = none) : errorOf (step em >>= f) = e := by
  rw [errorOf_bind fun em' _ => hf em', h em, Option.or_none]

/-- The first error of a list. -/
def firstError : List (Option String) → Option String
  | [] => none
  | e :: es => e.or (firstError es)

section
variable (h : List.Forall₂ FailsAs steps es)
include h

theorem emitSeq_fails : FailsAs (emitSeq steps) (firstError es) := by
  induction h with
  | nil => exact fun _ => rfl
  | cons h _ ih =>
    intro em
    rw [emitSeq, errorOf_bind fun em' _ => ih em', h em]
    rfl

theorem emitBranchesFrom_fails (jmpEnds : List Nat) (em : Emitter) :
    errorOf (emitBranchesFrom steps jmpEnds em) = firstError es := by
  induction h generalizing jmpEnds em with
  | nil => rfl
  | @cons step e steps es h hs ih =>
    cases hs with
    | nil =>
      rw [firstError, firstError, Option.or_none]
      exact h.then em fun _ => rfl
    | cons h' hs =>
      rw [emitBranchesFrom, errorOf_bind fun _ _ => ih _ _, h]
      · rfl
      · exact cons_ne_nil _ _

theorem emitBranches_fails :
    FailsAs (emitBranches steps) (firstError es) := by
  intro em
  have hfrom := emitBranchesFrom_fails h [] em
  rw [← hfrom, emitBranches]
  cases emitBranchesFrom steps [] em <;> rfl

end

theorem emitStar_fails (node : ReNode) (greedy : Bool) (h : FailsAs step e) :
    FailsAs (emitStar node greedy step) e := fun _ => h.then _ fun _ => rfl

theorem emitOpt_fails (greedy : Bool) (h : FailsAs step e) : FailsAs (emitOpt greedy step) e :=
  fun _ => h.then _ fun _ => rfl

theorem emitPlus_fails (node : ReNode) (greedy : Bool) (h : FailsAs step e) :
    FailsAs (emitPlus node greedy step) e := by
  intro em
  unfold emitPlus
  split
  · rw [errorOf_bind fun em' _ => emitStar_fails node greedy h em', h]
    exact Option.or_self
  · exact h.then _ fun _ => rfl

/-- The error of copies of one step. -/
theorem firstError_replicate (n : Nat) (e : Option String) :
    firstError (replicate n e) = if n = 0 then none else e := by
  induction n with
  | zero => rfl
  | succ n ih =>
    rw [replicate_succ, firstError, ih]
    cases e <;> simp

theorem forall₂_replicate (n : Nat) (h : FailsAs step e) :
    List.Forall₂ FailsAs (replicate n step) (replicate n e) := by
  induction n with
  | zero => exact .nil
  | succ n ih => exact .cons h ih

end FailsAs

/-- The error of a bounded repetition whose body has the given one. -/
def repeatError (min : Nat) (max : Option Nat) (e : Option String) : Option String :=
  match max with
  | none => e
  | some max =>
    if MAX_REPEAT_EXPANSION < max ∨ MAX_REPEAT_EXPANSION < min then
      some s!"\x7b{min},{max}\x7d exceeds expansion cap"
    else if min = 0 ∧ max - min = 0 then none
    else e

mutual

/-- The error of compiling a node; lookaround bodies are compiled later. -/
def nodeError : ReNode → Option String
  | .concat parts => nodesError parts
  | .alt options => nodesError options
  | .star node _ | .plus node _ | .opt node _ | .group node _ | .modGroup _ _ node => nodeError node
  | .repeat_ node min max _ => repeatError min max (nodeError node)
  | _ => none

def nodesError : List ReNode → Option String
  | [] => none
  | node :: nodes => (nodeError node).or (nodesError nodes)

end

theorem compileRepeat_fails {step : Emission} (node : ReNode) (min : Nat) (max : Option Nat)
    (greedy : Bool) (h : FailsAs step e) :
    FailsAs (compileRepeat node min max greedy step) (repeatError min max e) := by
  have hseq := emitSeq_fails (forall₂_replicate min h)
  rw [firstError_replicate] at hseq
  intro em
  cases max with
  | none =>
    simp only [compileRepeat, repeatError]
    rw [errorOf_bind fun em' _ => emitStar_fails node greedy h em', hseq]
    split <;> simp
  | some max =>
    simp only [compileRepeat, repeatError]
    split
    · rfl
    · have hopt := emitSeq_fails (forall₂_replicate (max - min) (emitOpt_fails greedy h))
      rw [firstError_replicate] at hopt
      rw [errorOf_bind fun em' _ => hopt em', hseq]
      by_cases hmin : min = 0 <;> by_cases hmax : max - min = 0 <;> simp [hmin, hmax]

variable {nodes options : List ReNode} {em em' : Emitter} {o : Options} {lits : List (List Nat)}

theorem nodesError_eq_none (h : ∀ n ∈ nodes, nodeError n = none) : nodesError nodes = none := by
  induction nodes with
  | nil => rfl
  | cons n nodes ih =>
    rw [nodesError, h n mem_cons_self, ih fun m hm => h m (mem_cons_of_mem n hm)]
    rfl

/-- Literals are never refused. -/
theorem nodeError_literal (n : ReNode) (h : isLiteral n = true) : nodeError n = none := by
  induction n with
  | concat parts ih
  | alt options ih => exact nodesError_eq_none fun n hn => ih n hn (areLiteral_mem h n hn)
  | char => rfl
  | _ => cases h

theorem groups_fail {levels : Nat} (ih : ∀ lits, FailsAs (emitLitAltGrouped levels lits) none)
    (groups : List LitBranch) : ∃ es, List.Forall₂ FailsAs (groups.map fun b =>
      match b with
      | .eps => Except.ok
      | .char c [suffix] => fun em => .ok (emitChars suffix (em.emit .CHAR c 0))
      | .char c suffixes => fun em => emitLitAltGrouped levels suffixes (em.emit .CHAR c 0)) es ∧
      firstError es = none := by
  induction groups with
  | nil => exact ⟨[], .nil, rfl⟩
  | cons b groups ihg =>
    obtain ⟨es, hes, hnone⟩ := ihg
    refine ⟨none :: es, .cons (fun em => ?_) hes, hnone⟩
    rcases b with _ | ⟨c, _ | ⟨suffix, _ | ⟨s2, suffixes⟩⟩⟩
    · rfl
    · exact ih _ _
    · rfl
    · exact ih _ _

theorem emitLitAltGrouped_fails (levels : Nat) (lits : List (List Nat)) :
    FailsAs (emitLitAltGrouped levels lits) none := by
  induction levels generalizing lits with
  | zero => exact fun _ => rfl
  | succ levels ih =>
    obtain ⟨es, hes, hnone⟩ := groups_fail ih (groupLits lits)
    rw [← hnone]
    exact emitBranches_fails hes

theorem compileNodes_fails (h : ∀ n ∈ nodes, FailsAs (compileNode o n) (nodeError n)) :
    List.Forall₂ FailsAs (compileNodes o nodes) (nodes.map nodeError) ∧
      firstError (nodes.map nodeError) = nodesError nodes := by
  induction nodes with
  | nil => exact ⟨.nil, rfl⟩
  | cons n nodes ih =>
    obtain ⟨h1, h2⟩ := ih fun m hm => h m (mem_cons_of_mem n hm)
    refine ⟨.cons (h n mem_cons_self) h1, ?_⟩
    rw [map_cons, firstError, nodesError, h2]

/-- **Whether a node is refused does not depend on the emitter or its options.** -/
theorem compileNode_fails (o : Options) (n : ReNode) : FailsAs (compileNode o n) (nodeError n) := by
  induction n with
  | concat parts ih =>
    obtain ⟨h1, h2⟩ := compileNodes_fails ih
    exact fun em => (emitSeq_fails h1 em).trans h2
  | alt options ih =>
    obtain ⟨h1, h2⟩ := compileNodes_fails ih
    intro em
    simp only [compileNode, nodeError]
    cases hlit : trieLiterals o em.mode options with
    | none => exact (emitBranches_fails h1 em).trans h2
    | some lits =>
      obtain ⟨-, -, -, hmap, -⟩ := trieLiterals_eq_some hlit
      obtain ⟨hoptions, -, -⟩ := @literal_options [] true _ _ hmap
      rw [nodesError_eq_none fun n hn => nodeError_literal n (areLiteral_mem hoptions n hn)]
      exact emitLitAltGrouped_fails _ lits em
  | modGroup add remove node ih => exact fun em => ih.then _ fun _ => rfl
  | star node greedy ih => exact emitStar_fails node greedy ih
  | plus node greedy ih => exact emitPlus_fails node greedy ih
  | opt node greedy ih => exact emitOpt_fails greedy ih
  | repeat_ node min max greedy ih => exact compileRepeat_fails node min max greedy ih
  | group node capIndex ih =>
    cases capIndex with
    | none => exact ih
    | some k => exact fun em => ih.then _ fun _ => rfl
  | _ => exact fun _ => rfl

theorem errorOf_congr {γ : Type} {y : Except String β} {f : α → Except String γ}
    {g : β → Except String γ} (h : errorOf x = errorOf y)
    (hfg : ∀ a b, x = .ok a → y = .ok b → errorOf (f a) = errorOf (g b)) :
    errorOf (x >>= f) = errorOf (y >>= g) := by
  cases x with
  | ok a =>
    cases y with
    | ok b => exact hfg a b rfl rfl
    | error e => cases h
  | error e =>
    cases y with
    | ok b => cases h
    | error e' => exact h

/-- What a step of compiling a node does to the queue does not depend on the options. -/
theorem compileNode_queued {n : ReNode} (h : compileNode o n em = .ok em') :
    em'.queue = em.queue ++ bodies em.mode n := by
  obtain ⟨out, rfl, hclaims, -⟩ := @compileNode_emits o
    ⟨em.mode, em.reversed, o.literalTrie⟩ n rfl em em' rfl rfl h
  rw [Emitter.queue, extend_pendingSubs, map_append, hclaims.subs]
  rfl

/-- Two emissions of which one groups and the other does not are refused alike. -/
theorem drain_error {o' : Options} (subs : Nat) (h : em.queue = em'.queue) :
    errorOf (drainPendingSubs o subs em) = errorOf (drainPendingSubs o' subs em') := by
  induction subs generalizing em em' with
  | zero => rfl
  | succ subs ih =>
    rw [drainPendingSubs, drainPendingSubs]
    cases hp : em.pendingSubs with
    | nil =>
      have hp' : em'.pendingSubs = [] := by simpa [Emitter.queue, hp] using h.symm
      rw [hp']
      rfl
    | cons sub rest =>
      cases hp' : em'.pendingSubs with
      | nil => simp [Emitter.queue, hp, hp'] at h
      | cons sub' rest' =>
        simp only [Emitter.queue, hp, hp', map_cons, List.cons.injEq] at h
        obtain ⟨hsub, hrest⟩ := h
        have hnode : sub.node = sub'.node := congrArg Body.node hsub
        have hmode : sub.mode = sub'.mode := congrArg Body.mode hsub
        refine errorOf_congr ((compileNode_fails o _ _).trans ?_) fun a b ha hb => ih ?_
        · rw [hnode]
          exact (compileNode_fails o' _ _).symm
        · have hqueue := compileNode_queued ha
          have hqueue' := compileNode_queued hb
          simp only [Emitter.queue] at hqueue hqueue' hrest ⊢
          simp only [Emitter.emit, hqueue, hqueue', hnode, hmode]
          exact congrArg (· ++ bodies sub'.mode sub'.node) hrest

/-- **A pattern is refused, or not, with groups as without.** -/
theorem compileParsed_error (host : HostUpperCase) (parsed : ParsedRegex) (flags : Nat) :
    errorOf (compileParsed host true parsed flags) =
      errorOf (compileParsed host false parsed flags) := by
  simp only [compileParsed]
  refine errorOf_congr ?_ fun a b ha hb => ?_
  · exact (compileNode_fails _ _ _).trans (compileNode_fails _ _ _).symm
  · refine errorOf_congr (drain_error _ ?_) fun _ _ _ _ => rfl
    have hqueue := compileNode_queued ha
    have hqueue' := compileNode_queued hb
    exact hqueue.trans hqueue'.symm

/-! ### Runs -/

/-- The matcher does not look at the option. -/
theorem matchStep_options (host : HostUpperCase) (flags : Nat) (b : Bool) (plan : Plan)
    (input : JsString) :
    matchStep (.ofFlags host b flags) plan input = matchStep (.ofFlags host true flags) plan input := by
  funext s
  have hunfold : ∀ item : Item,
      item.unfold (.ofFlags host b flags) = item.unfold (.ofFlags host true flags) := by
    intro item
    cases item with
    | node n ctx slot queue => cases n <;> rfl
    | _ => rfl
  simp only [matchStep, hunfold]

/-- Matching by the syntax tree alone, without groups of literals. -/
def ParsedRegex.Matches (parsed : ParsedRegex) (host : HostUpperCase) (flags : Nat)
    (input : JsString) (forward : Bool) (t : Thread) : Option Answer → Prop :=
  Evaluates (matchStep (.ofFlags host false flags) (parsed.plan flags) input)
    ⟨forward, rootItems (.root false flags) parsed.numCaptures parsed.root, t⟩

/-- The capture array of an attempt: given, or empty slots for groups and scratch. -/
def ParsedRegex.capsIn (parsed : ParsedRegex) (flags : Nat) (caps : Option (List Int)) : List Int :=
  caps.getD <| replicate
    (2 * (parsed.numCaptures + 1) + slotsOf (Mode.ofFlags flags) parsed.root) (-1)

/-- Two programs give every run the same result. -/
def SameRuns (R R' : CompiledRegex) : Prop :=
  ∀ (input : JsString) (startIdx : Int) (forward : Bool) (capsIn : Option (List Int)) (r : Result),
    (∃ fuel, attempt R input fuel startIdx 0 forward capsIn = some r) ↔
      ∃ fuel, attempt R' input fuel startIdx 0 forward capsIn = some r

section Carried
variable {host : HostUpperCase} {literalTrie : Bool} {parsed : ParsedRegex} {flags : Nat}
  {R R' : CompiledRegex} (input : JsString) (startIdx : Int) (forward : Bool)
  (capsIn : Option (List Int))

theorem Carried.matches (h : Carried host literalTrie parsed flags R) (t : Thread)
    (v : Option Answer) :
    Evaluates (vmStep R input) ⟨forward, 0, t⟩ v ↔ parsed.Matches host flags input forward t v := by
  have hcode := (simulates_matcher R (.ofFlags host literalTrie flags)
    (parsed.plan flags) input).evaluates (v := v) (c := ⟨forward, 0, t⟩)
    (a := ⟨forward, _, t⟩) ⟨rfl, rfl, h.root⟩
  cases literalTrie with
  | false => exact hcode
  | true =>
    have hplain := (simulates_ungrouped (.ofFlags host true flags)
      (parsed.plan flags) input).evaluates (v := v)
      (c := ⟨forward, rootItems (.root true flags) parsed.numCaptures parsed.root, t⟩)
      (a := ⟨forward, rootItems (.root false flags) parsed.numCaptures parsed.root, t⟩) <| by
        rfl
    rw [ParsedRegex.Matches, matchStep_options host flags false]
    exact hcode.trans hplain

theorem Carried.startState_eq (h : Carried host literalTrie parsed flags R) :
    startState R startIdx 0 forward capsIn =
      ⟨forward, 0, startIdx, parsed.capsIn flags capsIn⟩ := by
  rw [startState, h.nGroups, h.nScratch]
  rfl

theorem Carried.attempt_iff (h : Carried host literalTrie parsed flags R) (r : Result) :
    (∃ fuel, attempt R input fuel startIdx 0 forward capsIn = some r) ↔
      ∃ v, parsed.Matches host flags input forward ⟨startIdx, parsed.capsIn flags capsIn⟩ v ∧
        Answer.result v = r := by
  simp only [Regex.attempt_iff, h.startState_eq, h.matches]

theorem Carried.sameRuns (h : Carried host true parsed flags R)
    (h' : Carried host false parsed flags R') : SameRuns R R' := by
  intro input startIdx forward capsIn r
  rw [h.attempt_iff, h'.attempt_iff]

/-- **The compiler preserves meaning.**  A run of a compiled program on an array with slots
for all groups throws for its step budget, or ends with the result that matching by the
syntax tree alone gives; and it ends if that does. -/
theorem runAt_compileParsed (h : compileParsed host literalTrie parsed flags = .ok R)
    (hrefs : R.RefersWithin) (hcaps : ∀ caps ∈ capsIn, 2 * R.nGroups ≤ caps.length) :
    (∀ fuel o, runAt R input fuel startIdx 0 forward capsIn = some o →
      o = .error stepLimitExceeded ∨
        ∃ v, parsed.Matches host flags input forward ⟨startIdx, parsed.capsIn flags capsIn⟩ v ∧
          v ≠ some .undefined ∧ o = .ok (Answer.result v)) ∧
    ∀ v, parsed.Matches host flags input forward ⟨startIdx, parsed.capsIn flags capsIn⟩ v →
      ∃ fuel o, runAt R input fuel startIdx 0 forward capsIn = some o := by
  have hcarried := compileParsed_carries h
  have hstart := hcarried.startState_eq startIdx forward capsIn
  constructor
  · intro fuel o ho
    rcases runAt_eq fuel startIdx 0 forward capsIn with hrun | hrun
    · exact .inl (Option.some.inj (ho.symm.trans hrun))
    · obtain ⟨r, hr, rfl⟩ := Option.map_eq_some_iff.mp (hrun.symm.trans ho)
      obtain ⟨v, hv, rfl⟩ := Regex.attempt_iff.mp ⟨fuel, hr⟩
      have hfull : 2 * R.nGroups ≤
          (startState R startIdx 0 forward capsIn).thread.caps.length := by
        cases capsIn with
        | none => simp [startState]
        | some caps => exact hcaps caps rfl
      refine .inr ⟨v, ?_, ((vmStep_full hrefs).outcome hfull hv).1, rfl⟩
      rwa [hstart, hcarried.matches] at hv
  · intro v hv
    rw [← hcarried.matches, ← hstart] at hv
    obtain ⟨fuel, hr⟩ := Regex.attempt_iff.mpr ⟨v, hv, rfl⟩
    rcases runAt_eq fuel startIdx 0 forward capsIn with hrun | hrun
    · exact ⟨fuel, _, hrun⟩
    · exact ⟨fuel, _, hrun.trans (by rw [hr]; rfl)⟩

end Carried

/-! ### Emitted alternations -/

/-- A program holds the code and the classes of an output. -/
def Holds (R : CompiledRegex) (em : Emitter) (out : Output) : Prop :=
  CodeAt R em.here out.code ∧ TableAt R em.classTable.length out.table

/-- Code for a literal tree tries its ends in order. -/
theorem Emits.explores {o : Options} {ctx : Ctx} {step : Emission} {n : ReNode} {slots : Nat}
    {em em' : Emitter} (h : Emits o ctx step (fun slot queue => [.node n ctx slot queue]) slots [])
    (hlit : isLiteral n = true) (htrie : ctx.trie = false) (hci : ctx.mode.caseInsensitive = false)
    (hmode : em.mode = ctx.mode) (hrev : em.reversed = ctx.reversed) (hem : step em = .ok em') :
    ∃ out, em' = em.extend out ∧ ∀ R input forward t, Holds R em out →
      Explores (vmStep R input) ⟨forward, em.here, t⟩
        ((litEnds input forward n t.sp).map fun sp => ⟨forward, em'.here, { t with sp := sp }⟩) := by
  obtain ⟨out, rfl, hclaims, hlaid⟩ := h em em' hmode hrev hem
  refine ⟨out, rfl, fun R input forward t hholds => ?_⟩
  have hfits : Fits R o [] ctx.trie em 0 out := by
    refine ⟨hholds.1, hholds.2, fun k sub hk => ?_⟩
    rw [map_eq_nil_iff.mp hclaims.subs] at hk
    cases hk
  have hexplores := @Laid.explores _ _ input forward _ _ _ _ (hlaid R [] 0 hfits) (t := t) <| by
    intro item hitem
    rw [mem_singleton.mp hitem]
    exact ⟨hlit, htrie, hci⟩
  rwa [itemsEnds_singleton] at hexplores

/-- An alternation of literals becomes code that tries their ends in order, grouped or not. -/
theorem compileNode_alt_explores (hmap : options.mapM literalCodes = some lits)
    (hne : ∀ w ∈ lits, w ≠ []) (hlen : 4 ≤ options.length) (hci : em.mode.caseInsensitive = false)
    (h : compileNode o (.alt options) em = .ok em') :
    ∃ out, em' = em.extend out ∧ ∀ R input forward t, Holds R em out →
      Explores (vmStep R input) ⟨forward, em.here, t⟩
        ((litEnds input forward (.alt options) t.sp).map
          fun sp => ⟨forward, em'.here, { t with sp := sp }⟩) := by
  have hoptions := (@literal_options [] true _ _ hmap).1
  let ctx : Ctx := ⟨em.mode, em.reversed, false⟩
  cases htrie : o.literalTrie with
  | false =>
    have hemits := @compileNode_emits _ ctx (.alt options) htrie.symm
    have hbodies : bodies ctx.mode (.alt options) = [] := (mapM_literal_claims hmap _).2
    rw [hbodies] at hemits
    exact hemits.explores hoptions rfl hci rfl rfl h
  | true =>
    have hnil : [] ∉ lits := fun hmem => hne [] hmem rfl
    have hlits : trieLiterals o em.mode options = some lits := by
      simp [trieLiterals, htrie, hci, hmap, hnil, Nat.not_lt.mpr hlen]
    have hemits := @emitLitAltGrouped_emits o ctx rfl hci (lits.flatten.length + 1) lits
    rw [(trieNode_claims ctx.mode _ lits).2] at hemits
    simp only [compileNode, hlits] at h
    obtain ⟨out, hout, hexplores⟩ :=
      hemits.explores (isLiteral_trieNode _ lits) rfl hci rfl rfl h
    refine ⟨out, hout, fun R input forward t hholds => ?_⟩
    rw [← @litEnds_grouped o _ ⟨em.mode, em.reversed, true⟩]
    · exact hexplores R input forward t hholds
    · rw [← hlits, ← htrie]

/-- An alternation of literals is never refused. -/
theorem compileNode_alt_ok (o : Options) (em : Emitter)
    (hmap : options.mapM literalCodes = some lits) :
    ∃ em', compileNode o (.alt options) em = .ok em' := by
  have hoptions := (@literal_options [] true _ _ hmap).1
  have herror := compileNode_fails o (.alt options) em
  rw [nodeError_literal (.alt options) hoptions] at herror
  cases h : compileNode o (.alt options) em with
  | ok em' => exact ⟨em', rfl⟩
  | error e =>
    rw [h] at herror
    cases herror

/-- **An alternation of literals may be grouped.**  Its grouped code and its linear code try
the same ends in the same order from every position, and every pattern gives every run the
same result with grouped alternations as with linear ones. -/
theorem literalAlternation_sound (host : HostUpperCase) :
    (∀ (unicode : Bool) (options : List ReNode) (lits : List (List Nat)) (em : Emitter),
      options.mapM literalCodes = some lits → (∀ w ∈ lits, w ≠ []) → 4 ≤ options.length →
      em.mode.caseInsensitive = false →
      ∃ grouped linear : Output,
        compileNode ⟨host, unicode, true⟩ (.alt options) em = .ok (em.extend grouped) ∧
        compileNode ⟨host, unicode, false⟩ (.alt options) em = .ok (em.extend linear) ∧
        ∀ (R R' : CompiledRegex) (input : JsString) (forward : Bool) (t : Thread),
          Holds R em grouped → Holds R' em linear →
          ∃ ends : List Int,
            Explores (vmStep R input) ⟨forward, em.here, t⟩
              (ends.map fun sp => ⟨forward, em.here + grouped.code.length, { t with sp := sp }⟩) ∧
            Explores (vmStep R' input) ⟨forward, em.here, t⟩
              (ends.map fun sp => ⟨forward, em.here + linear.code.length, { t with sp := sp }⟩)) ∧
    ∀ (parsed : ParsedRegex) (flags : Nat),
      match compileParsed host true parsed flags, compileParsed host false parsed flags with
      | .ok R, .ok R' => SameRuns R R'
      | .error e, .error e' => e = e'
      | _, _ => False := by
  refine ⟨fun unicode options lits em hmap hne hlen hci => ?_, fun parsed flags => ?_⟩
  · obtain ⟨em1, hgrouped⟩ := compileNode_alt_ok ⟨host, unicode, true⟩ em hmap
    obtain ⟨em2, hlinear⟩ := compileNode_alt_ok ⟨host, unicode, false⟩ em hmap
    obtain ⟨grouped, rfl, h⟩ := compileNode_alt_explores hmap hne hlen hci hgrouped
    obtain ⟨linear, rfl, h'⟩ := compileNode_alt_explores hmap hne hlen hci hlinear
    refine ⟨grouped, linear, hgrouped, hlinear, fun R R' input forward t hR hR' => ?_⟩
    rw [← extend_here, ← extend_here]
    exact ⟨_, h R input forward t hR, h' R' input forward t hR'⟩
  · have herror := compileParsed_error host parsed flags
    cases h : compileParsed host true parsed flags with
    | ok R =>
      cases h' : compileParsed host false parsed flags with
      | ok R' => exact (compileParsed_carries h).sameRuns (compileParsed_carries h')
      | error e =>
        rw [h, h'] at herror
        cases herror
    | error e =>
      cases h' : compileParsed host false parsed flags with
      | ok R' =>
        rw [h, h'] at herror
        cases herror
      | error e' =>
        rw [h, h'] at herror
        exact Option.some.inj herror

/-- A host that knows no letters but those of ASCII. -/
def asciiUpperCase : HostUpperCase where
  toUpperCase c := [if 0x61 ≤ c ∧ c ≤ 0x7a then c - 0x20 else c]
  ascii _ _ := rfl
  separator c u hu := by
    simp only [List.cons.injEq, and_true]
    split <;> omega

/-- `ab|a|ab|ac`, with a repetition and an option that is a prefix of others. -/
theorem literalAlternation_sound_prefixes :
    ∃ grouped linear : Output,
      compileNode ⟨asciiUpperCase, false, true⟩ (.alt [.concat [.char 97, .char 98], .char 97,
        .concat [.char 97, .char 98], .concat [.char 97, .char 99]])
        (.start ⟨false, false, false⟩ false 2) =
        .ok ((Emitter.start ⟨false, false, false⟩ false 2).extend grouped) ∧
      compileNode ⟨asciiUpperCase, false, false⟩ (.alt [.concat [.char 97, .char 98], .char 97,
        .concat [.char 97, .char 98], .concat [.char 97, .char 99]])
        (.start ⟨false, false, false⟩ false 2) =
        .ok ((Emitter.start ⟨false, false, false⟩ false 2).extend linear) := by
  obtain ⟨grouped, linear, h, h', -⟩ := (literalAlternation_sound asciiUpperCase).1 false
    [.concat [.char 97, .char 98], .char 97, .concat [.char 97, .char 98],
      .concat [.char 97, .char 99]]
    [[97, 98], [97], [97, 98], [97, 99]] (.start ⟨false, false, false⟩ false 2) (by decide)
    (by decide) (by decide) rfl
  exact ⟨grouped, linear, h, h'⟩

/-- `(?=a)(a|b)*\1` -/
def lookaheadPattern : ParsedRegex where
  root := .concat [.lookaround (.char 97) false false,
    .star (.group (.alt [.char 97, .char 98]) (some 1)) true, .backref 1]
  numCaptures := 1
  numbered := by decide

theorem runAt_compileParsed_lookahead :
    ∃ R, compileParsed asciiUpperCase true lookaheadPattern 0 = .ok R ∧
      ∀ fuel o, runAt R [97, 98, 98] fuel 0 0 true none = some o →
        o = .error stepLimitExceeded ∨
          ∃ v, lookaheadPattern.Matches asciiUpperCase 0 [97, 98, 98] true
              ⟨0, lookaheadPattern.capsIn 0 none⟩ v ∧
            v ≠ some .undefined ∧ o = .ok (Answer.result v) := by
  have hok : (compileParsed asciiUpperCase true lookaheadPattern 0).toOption.any fun R =>
      decide (∀ i ∈ R.prog, i.op = .BACKREF → i.a < R.nGroups) := by decide +kernel
  cases h : compileParsed asciiUpperCase true lookaheadPattern 0 with
  | error => exact nomatch (h ▸ hok :)
  | ok R =>
    have hrefs := of_decide_eq_true (h ▸ hok :)
    exact ⟨R, rfl, (runAt_compileParsed [97, 98, 98] 0 true none h hrefs nofun).1⟩

end Js2Wasm.Regex
