import Js2Wasm.Refcount.Verifier

/-! # Accounts of an exploration

A finding, once reported, stays, and so do the two flags.  So a clean account at the end
was clean at every step (`Grows`), and everything the verifier would have reported on the
way is excluded there.  The lemmas say what each part of the exploration establishes
when its account is clean: `joinInto_joined`, `backEdges_explored`, `handleUnwinds_runs`.
-/
namespace Js2Wasm.Refcount.Verify
open List

/-! ### Clean accounts -/

/-- Nothing was reported and nothing was skipped. -/
structure Acc.Clean (acc : Acc) : Prop where
  findings : acc.findings = []
  budget : acc.budgetExhausted = false
  annotated : acc.missing = false

abbrev Cont := VState → Acc → List Path × Acc

/-- A continuation never removes a report. -/
def Grows (cont : Cont) : Prop := ∀ st acc, (cont st acc).2.Clean → acc.Clean

section
variable {acc : Acc} {st : VState} {h : HandleId}

theorem not_clean_report {f : Finding} : ¬ (acc.report f).Clean := by
  intro hc
  have hf := hc.findings
  rw [Acc.report] at hf
  split at hf
  · next hmem =>
    rw [hf] at hmem
    exact not_mem_nil hmem
  · exact absurd hf (append_ne_nil_of_right_ne_nil _ (cons_ne_nil _ _))

theorem clean_explore : acc.explore.Clean ↔ acc.Clean :=
  ⟨fun hc => ⟨hc.findings, hc.budget, hc.annotated⟩,
    fun hc => ⟨hc.findings, hc.budget, hc.annotated⟩⟩

theorem not_clean_exhaust : ¬ acc.exhaust.Clean := fun hc =>
  Bool.false_ne_true hc.budget.symm

theorem clean_checkAlive {what : String} (hc : (checkAlive st h what acc).Clean) :
    acc.Clean ∧ (st.owned h = true → 0 < st.get h) := by
  rw [checkAlive] at hc
  split at hc
  · next hno => exact ⟨hc, fun ho => absurd (hno.symm.trans ho) Bool.false_ne_true⟩
  · split at hc
    · next hpos => exact ⟨hc, fun _ => hpos⟩
    · exact absurd hc not_clean_report

variable {p : Path} {args : List (Option HandleId)} {unwind body : Cont} {owns : List ArgOwnership}
    {s : HandleStmt} {label callee : String} {rest : List HandleStmt}

theorem clean_consumeArg (hc : (consumeArg callee h st acc).2.Clean) :
    acc.Clean ∧ 0 < st.get h := by
  simp only [consumeArg] at hc
  split at hc
  · exact absurd hc not_clean_report
  · next hpos => exact ⟨hc, Int.not_le.mp hpos⟩

theorem clean_freeHandle {reason : FreeReason} (hc : (freeHandle h reason st acc).2.Clean) :
    acc.Clean ∧ 0 < st.get h := by
  simp only [freeHandle] at hc
  split at hc
  · exact absurd hc not_clean_report
  · next hpos => exact ⟨hc, Int.not_le.mp hpos⟩

theorem clean_applyArgs (hc : (applyArgs callee args owns st acc).2.Clean) : acc.Clean := by
  induction args generalizing owns st acc with
  | nil => exact hc
  | cons a args ih =>
    cases a with
    | none => exact ih hc
    | some a =>
      rw [applyArgs] at hc
      split at hc
      · exact (clean_consumeArg (ih hc)).1
      · exact (clean_checkAlive (ih hc)).1

/-! ### Joining paths -/

variable {maxPaths : Nat} {cont : Cont} {paths : List Path}

theorem joinInto_grows (hg : Grows cont) (hc : (joinInto maxPaths cont paths acc).2.Clean) :
    acc.Clean := by
  induction paths generalizing acc with
  | nil => exact hc
  | cons p ps ih =>
    simp only [joinInto] at hc
    split at hc
    · exact absurd hc not_clean_exhaust
    · have hrest := ih hc
      split at hrest
      · exact clean_explore.mp (hg _ _ hrest)
      · exact clean_explore.mp hrest

/-- What becomes of a path that is joined to a continuation. -/
def Joined (cont : Cont) (out : List Path) (p : Path) : Prop :=
  (p.outcome = .fall ∧ ∃ acc, (cont p.state acc).2.Clean ∧ ∀ q ∈ (cont p.state acc).1, q ∈ out) ∨
    (p.outcome ≠ .fall ∧ p ∈ out)

theorem Joined.mono {out out' : List Path} (hj : Joined cont out p) (hsub : ∀ q ∈ out, q ∈ out') :
    Joined cont out' p := by
  rcases hj with ⟨hfall, acc, hc, hq⟩ | ⟨hne, hp⟩
  · exact Or.inl ⟨hfall, acc, hc, fun q h => hsub q (hq q h)⟩
  · exact Or.inr ⟨hne, hsub p hp⟩

theorem joinInto_joined (hg : Grows cont) (hc : (joinInto maxPaths cont paths acc).2.Clean) :
    ∀ p ∈ paths, Joined cont (joinInto maxPaths cont paths acc).1 p := by
  induction paths generalizing acc with
  | nil => exact fun p hp => nomatch hp
  | cons p ps ih =>
    intro q hq
    simp only [joinInto] at hc ⊢
    split
    · next hover =>
      rw [if_pos hover] at hc
      exact absurd hc not_clean_exhaust
    · next hle =>
      rw [if_neg hle] at hc
      rcases mem_cons.mp hq with rfl | hq
      · by_cases hfall : q.outcome = .fall
        · simp only [if_pos hfall] at hc ⊢
          exact Or.inl ⟨hfall, _, joinInto_grows hg hc, fun r hr => mem_append_left _ hr⟩
        · simp only [if_neg hfall] at hc ⊢
          exact Or.inr ⟨hfall, mem_append_left _ mem_cons_self⟩
      · exact (ih hc q hq).mono fun r hr => mem_append_right _ hr

/-! ### Loops and handlers -/

theorem backEdges_grows {label : String} {sig : List (HandleId × Int)} {next : Option VState}
    (hc : (backEdges maxPaths label sig paths next acc).2.2.2.Clean) : acc.Clean := by
  induction paths generalizing next acc with
  | nil => exact hc
  | cons p ps ih =>
    simp only [backEdges] at hc
    split at hc
    · exact absurd hc not_clean_exhaust
    · split at hc
      · have hrest := ih hc
        split at hrest
        · exact absurd hrest not_clean_report
        · exact clean_explore.mp hrest
      · exact clean_explore.mp (ih hc)

/-- What one iteration of the exploration establishes. -/
structure Explored (label : String) (sig : List (HandleId × Int)) (paths : List Path)
    (next : Option VState) (r : List Path × Option VState × Bool × Acc) : Prop where
  done : r.2.2.1 = true
  leaves : ∀ p ∈ paths, p.outcome ≠ .continue_ label → leaveBlock label p ∈ r.1
  back : ∀ p ∈ paths, p.outcome = .continue_ label → signature p.state = sig ∧ r.2.1.isSome
  keeps : ∀ s, next = some s → r.2.1 = some s
  picks : ∀ s, r.2.1 = some s → next = some s ∨
    ∃ p ∈ paths, p.outcome = .continue_ label ∧ p.state = s

theorem backEdges_explored {sig : List (HandleId × Int)} {next : Option VState}
    (hc : (backEdges maxPaths label sig paths next acc).2.2.2.Clean) :
    Explored label sig paths next (backEdges maxPaths label sig paths next acc) := by
  induction paths generalizing next acc with
  | nil =>
    exact ⟨rfl, fun p hp => absurd hp not_mem_nil, fun p hp => absurd hp not_mem_nil,
      fun s hs => hs, fun s hs => Or.inl hs⟩
  | cons p ps ih =>
    simp only [backEdges] at hc ⊢
    by_cases hover : acc.explore.pathsExplored > maxPaths
    · rw [if_pos hover] at hc
      exact absurd hc not_clean_exhaust
    · simp only [if_neg hover] at hc ⊢
      by_cases hcont : p.outcome = .continue_ label
      · simp only [if_pos hcont] at hc ⊢
        obtain ⟨hdone, hleaves, hback, hkeeps, hpicks⟩ := ih hc
        have hsig : signature p.state = sig := by
          by_contra hne
          have hrest := backEdges_grows hc
          rw [if_pos hne] at hrest
          exact not_clean_report hrest
        refine ⟨hdone, fun q hq hne => ?_, fun q hq hq' => ?_, fun s hs => ?_, fun s hs => ?_⟩
        · rcases mem_cons.mp hq with rfl | hq
          · exact absurd hcont hne
          · exact hleaves q hq hne
        · rcases mem_cons.mp hq with rfl | hq
          · exact ⟨hsig, Option.isSome_iff_exists.mpr ⟨_, hkeeps _ rfl⟩⟩
          · exact hback q hq hq'
        · exact hkeeps s (by rw [hs]; rfl)
        · rcases hpicks s hs with hs | ⟨q, hq, hq'⟩
          · cases next with
            | none => exact Or.inr ⟨p, mem_cons_self, hcont, Option.some.inj hs⟩
            | some s' => exact Or.inl hs
          · exact Or.inr ⟨q, mem_cons_of_mem _ hq, hq'⟩
      · simp only [if_neg hcont] at hc ⊢
        obtain ⟨hdone, hleaves, hback, hkeeps, hpicks⟩ := ih hc
        refine ⟨hdone, fun q hq hne => ?_, fun q hq hq' => ?_, hkeeps, fun s hs => ?_⟩
        · rcases mem_cons.mp hq with rfl | hq
          · exact mem_cons_self
          · exact mem_cons_of_mem _ (hleaves q hq hne)
        · rcases mem_cons.mp hq with rfl | hq
          · exact absurd hq' hcont
          · exact hback q hq hq'
        · exact (hpicks s hs).imp_right fun ⟨q, hq, hq'⟩ => ⟨q, mem_cons_of_mem _ hq, hq'⟩

theorem runLoop_grows (hg : Grows body) (iterations : Nat) :
    Grows (runLoop maxPaths label body iterations) := by
  induction iterations with
  | zero => exact fun st acc hc => hc
  | succ n ih =>
    intro st acc hc
    simp only [runLoop] at hc
    refine hg st acc (@backEdges_grows _ maxPaths (body st acc).1 label (signature st) none ?_)
    split at hc
    · split at hc
      · exact hc
      · exact ih _ _ hc
    · exact hc

theorem handleUnwinds_grows (hg : Grows unwind) (hc : (handleUnwinds unwind paths acc).2.Clean) :
    acc.Clean := by
  induction paths generalizing acc with
  | nil => exact hc
  | cons p ps ih =>
    simp only [handleUnwinds] at hc
    split at hc
    · exact hg _ _ (ih hc)
    · exact ih hc

theorem handleUnwinds_keeps (hp : p ∈ paths) (hne : ∀ value, p.outcome ≠ .unwind value) :
    p ∈ (handleUnwinds unwind paths acc).1 := by
  induction paths generalizing acc with
  | nil => cases hp
  | cons q ps ih =>
    simp only [handleUnwinds]
    rcases mem_cons.mp hp with rfl | hp
    · split
      · next value hv => exact absurd hv (hne value)
      · exact mem_cons_self
    · split <;> exact mem_cons_of_mem _ (ih hp)

theorem handleUnwinds_runs (hg : Grows unwind) (hc : (handleUnwinds unwind paths acc).2.Clean)
    (hp : p ∈ paths) {value : Option HandleId} (hv : p.outcome = .unwind value) :
    ∃ acc', (unwind p.state acc').2.Clean ∧
      ⟨.unwind value, ((unwind p.state acc').1.getLast?.map Path.state).getD p.state⟩ ∈
        (handleUnwinds unwind paths acc).1 := by
  induction paths generalizing acc with
  | nil => cases hp
  | cons q ps ih =>
    simp only [handleUnwinds] at hc ⊢
    rcases mem_cons.mp hp with rfl | hp
    · simp only [hv] at hc ⊢
      exact ⟨acc, handleUnwinds_grows hg hc, mem_cons_self⟩
    · split
      · next hq =>
        simp only [hq] at hc
        obtain ⟨acc', hc', hmem⟩ := ih hc hp
        exact ⟨acc', hc', mem_cons_of_mem _ hmem⟩
      · next hq =>
        have hc' : (handleUnwinds unwind ps acc).2.Clean := by
          split at hc
          · next value' hv' => exact absurd hv' (hq value')
          · exact hc
        obtain ⟨acc', hc'', hmem⟩ := ih hc' hp
        exact ⟨acc', hc'', mem_cons_of_mem _ hmem⟩

/-! ### The whole exploration -/

variable {ownership : OwnershipTable} {maxLoopIterations : Nat}

theorem execCall_grows (hg : Grows cont) (callee : String) (args : List (Option HandleId))
    (dest : Option HandleId) : Grows (execCall ownership callee args dest cont) := by
  intro st acc hc
  simp only [execCall] at hc
  cases hown : ownership callee with
  | none =>
    rw [hown] at hc
    exact absurd hc.annotated Bool.true_eq_false.mp
  | some own =>
    simp only [hown] at hc
    have hargs := clean_applyArgs (hg _ _ hc)
    split at hargs
    · exact clean_applyArgs hargs
    · exact hargs

theorem exec_cons_grows
    (hs : ∀ cont, Grows cont → Grows (execStmt maxPaths ownership maxLoopIterations s cont))
    (hr : Grows (exec maxPaths ownership maxLoopIterations rest)) :
    Grows (exec maxPaths ownership maxLoopIterations (s :: rest)) := fun st acc hc =>
  hs _ hr st acc hc

theorem joinInto_exec_grows {k : Cont} (hk : Grows k) {st : VState}
    {f : List Path → List Path} (hg : Grows cont)
    (hc : (joinInto maxPaths cont (f (k st acc).1) (k st acc).2).2.Clean) : acc.Clean :=
  hk _ _ (joinInto_grows hg hc)

theorem exec_grows : ∀ stmts, Grows (exec maxPaths ownership maxLoopIterations stmts) := by
  intro stmts
  induction stmts using stmtsInduction with
  | nil => exact fun st acc hc => hc
  | call callee args dest binding rest ihr =>
    exact exec_cons_grows (fun cont hg => execCall_grows hg callee args dest) ihr
  | use value rest ihr | dup value dest reason rest ihr =>
    exact exec_cons_grows (fun cont hg st acc hc => (clean_checkAlive (hg _ _ hc)).1) ihr
  | free value reason rest ihr =>
    exact exec_cons_grows (fun cont hg st acc hc => (clean_freeHandle (hg _ _ hc)).1) ihr
  | opaqueWork throws rest ihr =>
    refine exec_cons_grows (fun cont hg st acc hc => ?_) ihr
    rw [execStmt] at hc
    split at hc <;> exact hg _ _ hc
  | scope body rest ihb ihr =>
    exact exec_cons_grows (fun cont hg st acc hc => @joinInto_exec_grows _ _ _ _ ihb _ id hg hc) ihr
  | if_ then_ else_ rest iht ihe ihr =>
    refine exec_cons_grows (fun cont hg st acc hc => ?_) ihr
    have helse := joinInto_grows hg hc
    cases else_ with
    | none => exact iht _ _ helse
    | some body => exact iht _ _ (ihe body rfl _ _ helse)
  | block label body rest ihb ihr =>
    exact exec_cons_grows (fun cont hg st acc hc =>
      @joinInto_exec_grows _ _ _ _ ihb _ (List.map (leaveBlock label)) hg hc) ihr
  | loop label body rest ihb ihr =>
    exact exec_cons_grows (fun cont hg st acc hc =>
      runLoop_grows ihb _ _ _ (joinInto_grows hg hc)) ihr
  | cleanup owner body unwind rest ihb ihu ihr =>
    exact exec_cons_grows (fun cont hg st acc hc =>
      ihb _ _ (handleUnwinds_grows ihu (joinInto_grows hg hc))) ihr
  | break_ _ rest ihr | continue_ _ rest ihr | return_ _ rest ihr | throw_ _ rest ihr =>
    exact exec_cons_grows (fun cont hg st acc hc => hc) ihr

/-! ### Origins -/

/-- Handles the path knows to have held a reference. -/
def OwnedLe (st st' : VState) : Prop := ∀ h, st.owned h = true → st'.owned h = true

theorem owned_setCount (n : Int) : (st.setCount h n).owned = st.owned := rfl

theorem owned_setOrigin (o : Origin) (x : HandleId) :
    (st.setOrigin h o).owned x = if x = h then decide (o = .owned) else st.owned x := by
  rw [VState.owned, VState.setOrigin, HandleMap.lookup_set]
  by_cases hx : x = h <;> simp [hx, VState.owned]

theorem owned_acquire (x : HandleId) : (st.acquire h).owned x = (decide (x = h) || st.owned x) := by
  rw [VState.acquire, owned_setOrigin, owned_setCount]
  by_cases hx : x = h <;> simp [hx]

theorem OwnedLe.acquire : OwnedLe st (st.acquire h) := fun x hx => by
  rw [owned_acquire, hx, Bool.or_true]

theorem applyArgs_owned : (applyArgs callee args owns st acc).1.owned = st.owned := by
  induction args generalizing owns st acc with
  | nil => rfl
  | cons a args ih =>
    cases a with
    | none => exact ih
    | some a =>
      rw [applyArgs]
      split
      all_goals exact ih

theorem OwnedLe.applyResult {result : ResultOwnership} {dest : Option HandleId} :
    OwnedLe st (applyResult result dest st) := by
  intro x hx
  cases dest with
  | none => exact hx
  | some d =>
    rw [Verify.applyResult]
    split
    · exact OwnedLe.acquire x hx
    · split
      · next hnone =>
        rw [owned_setOrigin]
        by_cases hxd : x = d
        · rw [VState.owned, hxd] at hx
          rw [Option.isNone_iff_eq_none.mp hnone] at hx
          exact absurd hx (by decide)
        · rwa [if_neg hxd]
      · exact hx

/-- Every path through a continuation keeps what was owned. -/
def KeepsOwned (cont : Cont) : Prop := ∀ st acc, ∀ p ∈ (cont st acc).1, OwnedLe st p.state

theorem joinInto_keeps (hk : KeepsOwned cont) :
    ∀ q ∈ (joinInto maxPaths cont paths acc).1, ∃ p ∈ paths, OwnedLe p.state q.state := by
  induction paths generalizing acc with
  | nil => exact fun q hq => nomatch hq
  | cons p ps ih =>
    intro q hq
    simp only [joinInto] at hq
    split at hq
    · cases hq
    · rcases mem_append.mp hq with hq | hq
      · split at hq
        · exact ⟨p, mem_cons_self, hk _ _ q hq⟩
        · rw [mem_singleton.mp hq]
          exact ⟨p, mem_cons_self, fun _ => id⟩
      · obtain ⟨p', hp', hle⟩ := ih q hq
        exact ⟨p', mem_cons_of_mem _ hp', hle⟩

theorem backEdges_states {label : String} {sig : List (HandleId × Int)} {next : Option VState} :
    (∀ q ∈ (backEdges maxPaths label sig paths next acc).1, ∃ p ∈ paths, p.state = q.state) ∧
      ∀ s, (backEdges maxPaths label sig paths next acc).2.1 = some s →
        next = some s ∨ ∃ p ∈ paths, p.state = s := by
  induction paths generalizing next acc with
  | nil => exact ⟨fun q hq => absurd hq not_mem_nil, fun s hs => Or.inl hs⟩
  | cons p ps ih =>
    have hlift : ∀ s, (∃ p' ∈ ps, p'.state = s) → ∃ p' ∈ p :: ps, p'.state = s :=
      fun s ⟨p', hp', hs⟩ => ⟨p', mem_cons_of_mem _ hp', hs⟩
    simp only [backEdges]
    split
    · exact ⟨fun q hq => absurd hq not_mem_nil, fun s hs => Or.inl hs⟩
    · split
      · refine ⟨fun q hq => hlift _ (ih.1 q hq), fun s hs => ?_⟩
        rcases ih.2 s hs with hs | hs
        · cases next with
          | none => exact Or.inr ⟨p, mem_cons_self, Option.some.inj hs⟩
          | some s' => exact Or.inl hs
        · exact Or.inr (hlift s hs)
      · refine ⟨fun q hq => ?_, fun s hs => (ih.2 s hs).imp_right (hlift s)⟩
        rcases mem_cons.mp hq with rfl | hq
        · refine ⟨p, mem_cons_self, ?_⟩
          split <;> rfl
        · exact hlift _ (ih.1 q hq)

theorem runLoop_keeps (hk : KeepsOwned body) (iterations : Nat) :
    KeepsOwned (runLoop maxPaths label body iterations) := by
  induction iterations with
  | zero => exact fun st acc q hq => nomatch hq
  | succ n ih =>
    intro st acc q hq
    have hedges := @backEdges_states (body st acc).2 maxPaths (body st acc).1 label (signature st)
      none
    have hfirst : ∀ q ∈ (backEdges maxPaths label (signature st) (body st acc).1 none
        (body st acc).2).1, OwnedLe st q.state := fun q hq => by
      obtain ⟨p, hp, hs⟩ := hedges.1 q hq
      exact hs ▸ hk _ _ p hp
    simp only [runLoop] at hq
    split at hq
    · split at hq
      · exact hfirst q hq
      · next s hs =>
        rcases mem_append.mp hq with hq | hq
        · exact hfirst q hq
        · obtain ⟨p, hp, hps⟩ := (hedges.2 s hs).resolve_left nofun
          exact fun x hx => ih _ _ q hq x (hps ▸ hk _ _ p hp x hx)
    · exact hfirst q hq

theorem handleUnwinds_states (hk : KeepsOwned unwind) :
    ∀ q ∈ (handleUnwinds unwind paths acc).1, ∃ p ∈ paths, OwnedLe p.state q.state := by
  induction paths generalizing acc with
  | nil => exact fun q hq => nomatch hq
  | cons p ps ih =>
    have hlift : ∀ q, (∃ p' ∈ ps, OwnedLe p'.state q) → ∃ p' ∈ p :: ps, OwnedLe p'.state q :=
      fun q ⟨p', hp', hs⟩ => ⟨p', mem_cons_of_mem _ hp', hs⟩
    intro q hq
    simp only [handleUnwinds] at hq
    split at hq
    · rcases mem_cons.mp hq with rfl | hq
      · refine ⟨p, mem_cons_self, ?_⟩
        cases hlast : (unwind p.state acc).1.getLast? with
        | none => exact fun _ => id
        | some r => exact hk _ _ r (mem_of_getLast? hlast)
      · exact hlift _ (ih q hq)
    · rcases mem_cons.mp hq with rfl | hq
      · exact ⟨q, mem_cons_self, fun _ => id⟩
      · exact hlift _ (ih q hq)

/-- Keeping what is owned, through inner paths and then a continuation. -/
theorem KeepsOwned.join (hcont : KeepsOwned cont) (hk : ∀ p ∈ paths, OwnedLe st p.state) :
    ∀ q ∈ (joinInto maxPaths cont paths acc).1, OwnedLe st q.state := by
  intro q hq
  obtain ⟨p, hp, hle⟩ := joinInto_keeps hcont q hq
  exact fun x hx => hle x (hk p hp x hx)

theorem exec_cons_keeps (hs : ∀ cont, KeepsOwned cont →
      KeepsOwned (execStmt maxPaths ownership maxLoopIterations s cont))
    (hr : KeepsOwned (exec maxPaths ownership maxLoopIterations rest)) :
    KeepsOwned (exec maxPaths ownership maxLoopIterations (s :: rest)) :=
  fun st acc => hs _ hr st acc

theorem execCall_keeps (hcont : KeepsOwned cont) (callee : String)
    (args : List (Option HandleId)) (dest : Option HandleId) :
    KeepsOwned (execCall ownership callee args dest cont) := by
  intro st acc p hp
  have happly : ∀ owns acc, OwnedLe st (applyArgs callee args owns st acc).1 := fun owns acc x hx =>
    (congrFun applyArgs_owned x).trans hx
  simp only [execCall] at hp
  cases hown : ownership callee with
  | none =>
    rw [hown] at hp
    cases hp
  | some own =>
    simp only [hown] at hp
    rcases mem_append.mp hp with hp | hp
    · split at hp
      · rw [mem_singleton.mp hp]
        exact happly _ _
      · cases hp
    · exact fun x hx => hcont _ _ p hp x (OwnedLe.applyResult x (happly _ _ x hx))

/-- **A path never forgets what it has owned.** -/
theorem exec_keeps : ∀ stmts, KeepsOwned (exec maxPaths ownership maxLoopIterations stmts) := by
  intro stmts
  have hself : ∀ {o : Outcome} {st : VState} {p : Path}, p ∈ [(⟨o, st⟩ : Path)] →
      OwnedLe st p.state := fun hp => by
    rw [mem_singleton.mp hp]
    exact fun _ => id
  induction stmts using stmtsInduction with
  | nil => exact fun st acc p hp => hself hp
  | call callee args dest binding rest ihr =>
    exact exec_cons_keeps (fun cont hcont => execCall_keeps hcont callee args dest) ihr
  | use value rest ihr => exact exec_cons_keeps (fun cont hcont st acc => hcont st _) ihr
  | dup value dest reason rest ihr =>
    exact exec_cons_keeps (fun cont hcont st acc p hp x hx =>
      hcont _ _ p hp x (OwnedLe.acquire x hx)) ihr
  | free value reason rest ihr => exact exec_cons_keeps (fun cont hcont st acc => hcont _ _) ihr
  | opaqueWork throws rest ihr =>
    refine exec_cons_keeps (fun cont hcont st acc p hp => ?_) ihr
    rw [execStmt] at hp
    split at hp
    · rcases mem_cons.mp hp with rfl | hp
      · exact fun _ => id
      · exact hcont _ _ p hp
    · exact hcont _ _ p hp
  | scope body rest ihb ihr =>
    exact exec_cons_keeps (fun cont hcont st acc => hcont.join (ihb st acc)) ihr
  | if_ then_ else_ rest iht ihe ihr =>
    refine exec_cons_keeps (fun cont hcont st acc q hq => ?_) ihr
    obtain ⟨p, hp, hle⟩ := joinInto_keeps hcont q hq
    refine fun x hx => hle x ?_
    rcases mem_append.mp hp with hp | hp
    · exact iht _ _ p hp x hx
    · cases else_ with
      | none => exact hself hp x hx
      | some body => exact ihe body rfl _ _ p hp x hx
  | block label body rest ihb ihr =>
    refine exec_cons_keeps (fun cont hcont st acc q hq => ?_) ihr
    obtain ⟨p, hp, hle⟩ := joinInto_keeps hcont q hq
    obtain ⟨p', hp', rfl⟩ := mem_map.mp hp
    refine fun x hx => hle x ?_
    rw [leaveBlock]
    split <;> exact ihb _ _ p' hp' x hx
  | loop label body rest ihb ihr =>
    exact exec_cons_keeps (fun cont hcont st acc =>
      hcont.join (runLoop_keeps ihb _ st acc)) ihr
  | cleanup owner body unwind rest ihb ihu ihr =>
    refine exec_cons_keeps (fun cont hcont st acc q hq => ?_) ihr
    obtain ⟨p, hp, hle⟩ := joinInto_keeps hcont q hq
    obtain ⟨p', hp', hle'⟩ := handleUnwinds_states ihu p hp
    exact fun x hx => hle x (hle' x (ihb _ _ p' hp' x hx))
  | break_ _ rest ihr | continue_ _ rest ihr | return_ _ rest ihr | throw_ _ rest ihr =>
    exact exec_cons_keeps (fun cont hcont st acc p hp => hself hp) ihr

end

end Js2Wasm.Refcount.Verify
