import Js2Wasm.Refcount.Accounts
import Js2Wasm.Refcount.Exposed

/-! # The verifier is sound

Where the verifier reports nothing, every execution follows one of its paths.  `Sim`
relates a frame to the state of a path: the counts agree, and a handle that may still be
read and has held a reference is known to the path to have held one.  `exec_sim` carries
it through a body, by induction on the body; a loop is an induction on the iterations.
After the first back edge the path keeps one representative state; a frame that came
round by another way has the same counts, and what it has acquired in addition is not
read again before it is acquired again (`closed`).
-/
namespace Js2Wasm.Refcount.Verify
open Counts List

/-! ### Frames and path states -/

def exitOf : Outcome → Exit
  | .fall => .fall
  | .return_ value => .return_ value
  | .break_ label => .break_ label
  | .continue_ label => .continue_ label
  | .unwind value => .unwind value

theorem exitOf_inj {o o' : Outcome} (h : exitOf o = exitOf o') : o = o' := by
  cases o <;> cases o' <;> first | rfl | (injection h with h; rw [h]) | exact nomatch h

/-- **A frame follows a path**, as far as the handles of `L` are concerned. -/
structure Sim (f : Counts.Frame) (st : VState) (L : HandleId → Bool) : Prop where
  refs : ∀ h, f.refs h = st.get h
  nonneg : ∀ h, 0 ≤ st.get h
  owned : ∀ h, L h = true → f.acquired h = true → st.owned h = true

section
variable {f f' : Counts.Frame} {st st' : VState} {L L' : HandleId → Bool} {h : HandleId}

theorem get_setCount (n : Int) (x : HandleId) :
    (st.setCount h n).get x = if x = h then n else st.get x := by
  rw [VState.get, VState.setCount, HandleMap.lookup_set]
  by_cases hx : x = h <;> simp [hx, VState.get]

theorem Sim.mono (hs : Sim f st L) (hle : ∀ h, L' h = true → L h = true) : Sim f st L' :=
  ⟨hs.refs, hs.nonneg, fun h hl => hs.owned h (hle h hl)⟩

theorem Sim.release (hs : Sim f st L) (hpos : 0 < st.get h) :
    Sim (f.release h) (st.setCount h (st.get h - 1)) L := by
  refine ⟨fun x => ?_, fun x => ?_, hs.owned⟩
  · rw [get_setCount, Counts.Frame.release_refs, hs.refs, hs.refs]
  · rw [get_setCount]
    have := hs.nonneg x
    split <;> omega

theorem Sim.acquire (hs : Sim f st fun x => !(decide (h = x)) && L x) :
    Sim (f.acquire h) (st.acquire h) L := by
  have hget : ∀ x, (st.acquire h).get x = if x = h then st.get h + 1 else st.get x :=
    fun x => get_setCount _ x
  refine ⟨fun x => ?_, fun x => ?_, fun x hl hx => ?_⟩
  · rw [hget, Counts.Frame.acquire_refs, hs.refs, hs.refs]
  · rw [hget]
    have := hs.nonneg x
    have := hs.nonneg h
    split <;> omega
  · rw [owned_acquire]
    by_cases hxh : x = h
    · simp [hxh]
    · rw [acquire_acquired] at hx
      have hno : decide (h = x) = false := decide_eq_false (Ne.symm hxh)
      rw [hno, Bool.or_false] at hx
      rw [hs.owned x (by rw [hno, Bool.not_false, Bool.true_and]; exact hl) hx, Bool.or_true]

/-- A read the verifier passes is not of a dead handle. -/
theorem Sim.not_dead (hs : Sim f st L) (hl : L h = true)
    (halive : st.owned h = true → 0 < st.get h) : ¬ f.Dead h := by
  rintro ⟨hacq, hle⟩
  have hpos := halive (hs.owned h hl hacq)
  rw [hs.refs] at hle
  omega

theorem mem_entries_iff {n : Int} (h0 : n ≠ 0) : (h, n) ∈ signature st ↔ st.get h = n := by
  rw [signature, (perm_insertionSort _ _).mem_iff, mem_filter, VState.get]
  constructor
  · rintro ⟨hmem, -⟩
    rw [HandleMap.lookup_eq_some_iff.mpr hmem]
    rfl
  · intro hget
    cases hl : st.counts.lookup h with
    | none =>
      rw [hl] at hget
      exact absurd hget.symm h0
    | some m =>
      rw [hl] at hget
      obtain rfl : m = n := hget
      exact ⟨HandleMap.lookup_eq_some_iff.mp hl, decide_eq_true h0⟩

/-- Equal signatures are equal counts. -/
theorem get_eq_of_signature (hsig : signature st = signature st') (h : HandleId) :
    st.get h = st'.get h := by
  by_cases h0 : st.get h = 0
  · by_contra hne
    have h0' : st'.get h ≠ 0 := fun hc => hne (h0.trans hc.symm)
    have hmem := (mem_entries_iff h0').mpr rfl
    rw [← hsig, mem_entries_iff h0'] at hmem
    exact hne hmem
  · have hmem := (mem_entries_iff h0).mpr rfl
    rw [hsig, mem_entries_iff h0] at hmem
    exact hmem.symm

/-! ### Calls -/

variable {acc : Acc} {callee : String} {owns : List ArgOwnership} {args : List (Option HandleId)}

theorem applyArgs_sim (hs : Sim f st L) (hl : ∀ h, readsArg h args owns = true → L h = true)
    (hc : (applyArgs callee args owns st acc).2.Clean) :
    ∃ f1, f.passArgs args owns = some f1 ∧ Sim f1 (applyArgs callee args owns st acc).1 L := by
  induction args generalizing owns st acc f with
  | nil => exact ⟨f, rfl, hs⟩
  | cons a args ih =>
    have hrest : ∀ h, readsArg h args owns.tail = true → L h = true := fun h hr =>
      hl h (by rw [readsArg, hr, Bool.or_true])
    cases a with
    | none => exact ih hs hrest hc
    | some a =>
      rw [applyArgs] at hc ⊢
      rw [Counts.Frame.passArgs]
      by_cases hcons : owns.head? = some .consumes
      · simp only [if_pos hcons] at hc ⊢
        have hpos := (clean_consumeArg (clean_applyArgs hc)).2
        rw [if_neg (by rw [hs.refs]; omega)]
        exact ih (hs.release hpos) hrest hc
      · simp only [if_neg hcons] at hc ⊢
        have halive := (clean_checkAlive (clean_applyArgs hc)).2
        have hla : L a = true := hl a (by simp [readsArg, hcons])
        rw [if_neg (hs.not_dead hla halive)]
        exact ih hs hrest hc

theorem applyArgs_fst {acc' : Acc} :
    (applyArgs callee args owns st acc).1 = (applyArgs callee args owns st acc').1 := by
  induction args generalizing owns st acc acc' with
  | nil => rfl
  | cons a args ih =>
    cases a with
    | none => exact ih
    | some a =>
      rw [applyArgs, applyArgs]
      split
      all_goals exact ih

theorem applyResult_sim {own : ResolvedOwnership} {dest : Option HandleId}
    (hs : Sim f st fun h => !acquiresDest h own dest && L h) :
    Sim (f.bindResult own.result dest) (applyResult own.result dest st) L := by
  cases dest with
  | none =>
    have hbind : f.bindResult own.result none = f := by cases own.result <;> rfl
    rw [hbind]
    exact hs.mono fun h hl => by simp [acquiresDest, hl]
  | some d =>
    by_cases hown : own.result = .owned
    · rw [applyResult, if_pos hown, hown]
      exact Sim.acquire (hs.mono fun h hl => by simpa [acquiresDest, hown] using hl)
    · have hbind : f.bindResult own.result (some d) = f := by
        cases hr : own.result <;> first | exact absurd hr hown | rfl
      have hs' : Sim f st L := hs.mono fun h hl => by simp [acquiresDest, hown, hl]
      rw [hbind, applyResult, if_neg hown]
      split
      · refine ⟨hs'.refs, hs'.nonneg, fun h hl hacq => ?_⟩
        next hnone =>
        have ho := hs'.owned h hl hacq
        rw [owned_setOrigin]
        by_cases hd : h = d
        · rw [VState.owned, hd, Option.isNone_iff_eq_none.mp hnone] at ho
          exact absurd ho (by decide)
        · rwa [if_neg hd]
      · exact hs'

end

/-! ### Executions follow paths -/

section
variable {ownership : OwnershipTable} {result : ResultOwnership} {maxPaths iterations : Nat}

/-- An execution that is left by `o` with `f'` has followed one of the paths. -/
def Traced (env : HandleId → LiveEnv) (paths : List Path) (o : Exit) (f' : Counts.Frame) : Prop :=
  o ≠ .fault ∧ (o = .unheld ∨
    ∃ p ∈ paths, exitOf p.outcome = o ∧ Sim f' p.state fun h => (env h).at o)

/-- An execution of a statement has followed a path, as far as the statement goes. -/
def TracedInto (env : HandleId → LiveEnv) (cont : Cont) (out : List Path) (o : Exit)
    (f' : Counts.Frame) : Prop :=
  o ≠ .fault ∧ (o = .unheld ∨
    (o = .fall ∧ ∃ st acc, Sim f' st (fun h => (env h).fall) ∧ (cont st acc).2.Clean ∧
      ∀ q ∈ (cont st acc).1, q ∈ out) ∨
    (o ≠ .fall ∧ ∃ p ∈ out, exitOf p.outcome = o ∧ Sim f' p.state fun h => (env h).at o))

variable (ownership result maxPaths iterations)

def Covers (s : HandleStmt) : Prop := ∀ (env : HandleId → LiveEnv) (cont : Cont), Grows cont →
  ∀ f o f' st acc, runStmt ownership result s f o f' →
    Sim f st (fun h => liveStmt ownership h s (env h)) →
    (∀ h, closedStmt ownership h s (env h) (f.acquired h) = true) →
    (execStmt maxPaths ownership iterations s cont st acc).2.Clean →
    TracedInto env cont (execStmt maxPaths ownership iterations s cont st acc).1 o f'

def CoversAll (stmts : List HandleStmt) : Prop := ∀ (env : HandleId → LiveEnv) f o f' st acc,
  runs ownership result stmts f o f' →
    Sim f st (fun h => live ownership h stmts (env h)) →
    (∀ h, closed ownership h stmts (env h) (f.acquired h) = true) →
    (exec maxPaths ownership iterations stmts st acc).2.Clean →
    Traced env (exec maxPaths ownership iterations stmts st acc).1 o f'

variable {ownership result maxPaths iterations}

variable {o : Exit} {s : HandleStmt}

theorem at_withFall {env : LiveEnv} {b : Bool} (ho : o ≠ .fall) :
    ({ env with fall := b } : LiveEnv).at o = env.at o := by
  cases o <;> first | rfl | exact absurd rfl ho

/-- The flow of a statement that falls through. -/
theorem runStmt_flow {f f1 : Counts.Frame} (hrun : runStmt ownership result s f .fall f1)
    (h : HandleId) : f1.acquired h ∈ fallFlags (flowsStmt ownership h s (f.acquired h)) := by
  have hmem := @runs_follows ownership h result [s] f .fall f1 (Or.inl ⟨f1, hrun, rfl, rfl⟩)
    ⟨nofun, nofun⟩
  rw [mem_fallFlags]
  obtain ⟨⟨o, b⟩, hx, hmem⟩ := mem_flatMap.mp hmem
  split at hmem
  · next hfall =>
    simp only at hfall
    obtain ⟨-, hb⟩ := Prod.mk.inj (mem_singleton.mp hmem)
    rw [hb, ← hfall]
    exact hx
  · obtain ⟨ho, hb⟩ := Prod.mk.inj (mem_singleton.mp hmem)
    rw [hb, show Exit.fall = o from ho]
    exact hx

variable {rest : List HandleStmt}

theorem coversAll_cons (hs : Covers ownership result maxPaths iterations s)
    (hr : CoversAll ownership result maxPaths iterations rest) :
    CoversAll ownership result maxPaths iterations (s :: rest) := by
  intro env f o f' st acc hrun hsim hclosed hc
  have hclosed' : ∀ h, closedStmt ownership h s
      { env h with fall := live ownership h rest (env h) } (f.acquired h) = true ∧
      ∀ b ∈ fallFlags (flowsStmt ownership h s (f.acquired h)),
        closed ownership h rest (env h) b = true := fun h => by
    have := hclosed h
    rw [closed, Bool.and_eq_true, all_eq_true] at this
    exact this
  have hstep : ∀ o f1, runStmt ownership result s f o f1 → TracedInto
      (fun h => { env h with fall := live ownership h rest (env h) })
      (exec maxPaths ownership iterations rest)
      (exec maxPaths ownership iterations (s :: rest) st acc).1 o f1 := fun o f1 hrun =>
    hs _ _ (exec_grows rest) f o f1 st acc hrun hsim (fun h => (hclosed' h).1) hc
  rcases hrun with ⟨f1, hrun, hrest⟩ | ⟨hne, hrun⟩
  · obtain ⟨-, hfault | ⟨-, st1, acc1, hsim1, hc1, hsub⟩ | ⟨hne, -⟩⟩ := hstep _ _ hrun
    · exact nomatch hfault
    · obtain ⟨hok, htraced⟩ := hr env f1 o f' st1 acc1 hrest hsim1
        (fun h => (hclosed' h).2 _ (runStmt_flow hrun h)) hc1
      exact ⟨hok, htraced.imp_right fun ⟨p, hp, ho⟩ => ⟨p, hsub p hp, ho⟩⟩
    · exact absurd rfl hne
  · obtain ⟨hok, hun | ⟨hfall, -⟩ | ⟨-, p, hp, ho, hsim'⟩⟩ := hstep _ _ hrun
    · exact ⟨hok, Or.inl hun⟩
    · exact absurd hfall hne
    · exact ⟨hok, Or.inr ⟨p, hp, ho, hsim'.mono fun h hl => by rwa [at_withFall hne]⟩⟩

/-- From inner paths to the paths joined to what follows. -/
theorem Traced.join {env : HandleId → LiveEnv} {cont : Cont} (hg : Grows cont) {inner : List Path}
    {acc : Acc} (hc : (joinInto maxPaths cont inner acc).2.Clean) {f' : Counts.Frame}
    (ht : Traced env inner o f') :
    TracedInto env cont (joinInto maxPaths cont inner acc).1 o f' := by
  obtain ⟨hok, hun | ⟨p, hp, ho, hsim⟩⟩ := ht
  · exact ⟨hok, Or.inl hun⟩
  · refine ⟨hok, Or.inr ?_⟩
    rcases joinInto_joined hg hc p hp with ⟨hfall, acc', hc', hsub⟩ | ⟨hne, hp'⟩
    · rw [hfall] at ho
      rw [← ho] at hsim
      exact Or.inl ⟨ho.symm, p.state, acc', hsim, hc', hsub⟩
    · refine Or.inr ⟨fun hfall => hne ?_, p, hp', ho, hsim⟩
      exact exitOf_inj (ho.trans hfall)

/-! ### Simple statements -/

/-- A step that falls through. -/
theorem TracedInto.step {env : HandleId → LiveEnv} {cont : Cont} {f' : Counts.Frame} {st : VState}
    {acc : Acc} (hsim : Sim f' st fun h => (env h).fall) (hc : (cont st acc).2.Clean) :
    TracedInto env cont (cont st acc).1 .fall f' :=
  ⟨nofun, Or.inr (Or.inl ⟨rfl, st, acc, hsim, hc, fun _ hq => hq⟩)⟩

/-- A statement that only leaves. -/
theorem TracedInto.exit {env : HandleId → LiveEnv} {cont : Cont} {f' : Counts.Frame} {st : VState}
    {out : Outcome} (hne : out ≠ .fall)
    (hsim : Sim f' st fun h => (env h).at (exitOf out)) :
    TracedInto env cont [⟨out, st⟩] (exitOf out) f' := by
  refine ⟨fun hc => ?_, Or.inr (Or.inr ⟨fun hc => hne (exitOf_inj hc), _, mem_cons_self, rfl,
    hsim⟩)⟩
  cases out <;> exact nomatch hc

theorem covers_call (callee : String) (args : List (Option HandleId)) (dest : Option HandleId)
    (binding : Bool) :
    Covers ownership result maxPaths iterations (.call callee args dest binding) := by
  rintro env cont hg f o f' st acc ⟨own, hown, hrun⟩ hsim - hc
  simp only [liveStmt, hown] at hsim
  simp only [execStmt, execCall, hown] at hc ⊢
  have hread : ∀ h, readsArg h args own.args = true → (readsArg h args own.args ||
      (own.throws && (env h).unwind) || (!acquiresDest h own dest && (env h).fall)) = true :=
    fun h hr => by rw [hr, Bool.true_or, Bool.true_or]
  obtain ⟨f1, hpass, hsim1⟩ := applyArgs_sim hsim hread (hg _ _ hc)
  rw [hpass] at hrun
  rcases hrun with ⟨hthrows, rfl, rfl⟩ | ⟨rfl, rfl⟩
  · refine ⟨(by rintro ⟨⟩), Or.inr (Or.inr ⟨(by rintro ⟨⟩),
      ⟨.unwind none, (applyArgs callee args own.args st acc).1⟩, ?_, rfl, ?_⟩)⟩
    · rw [if_pos hthrows]
      exact mem_append_left _ mem_cons_self
    · rw [applyArgs_fst] at hsim1
      refine hsim1.mono fun h hl => ?_
      have hl : (env h).unwind = true := hl
      rw [hthrows, hl, Bool.and_true, Bool.or_true, Bool.true_or]
  · refine ⟨(by rintro ⟨⟩), Or.inr (Or.inl ⟨rfl, _, _, applyResult_sim ?_, hc,
      fun q hq => mem_append_right _ hq⟩)⟩
    exact hsim1.mono fun h hl => by rw [hl, Bool.or_true]

theorem covers_use (value : HandleId) :
    Covers ownership result maxPaths iterations (.use value) := by
  rintro env cont hg f o f' st acc hrun hsim - hc
  have halive := (clean_checkAlive (hg _ _ hc)).2
  have hlive : liveStmt ownership value (.use value) (env value) = true := by simp [liveStmt]
  rcases hrun with ⟨hdead, -, -⟩ | ⟨-, rfl, rfl⟩
  · exact absurd hdead (hsim.not_dead hlive halive)
  · exact TracedInto.step (hsim.mono fun h hl => by simp [liveStmt, hl]) hc

theorem covers_dup (value dest : HandleId) (reason : DupReason) :
    Covers ownership result maxPaths iterations (.dup value dest reason) := by
  rintro env cont hg f o f' st acc hrun hsim - hc
  have halive := (clean_checkAlive (hg _ _ hc)).2
  have hlive : liveStmt ownership value (.dup value dest reason) (env value) = true := by
    simp [liveStmt]
  rcases hrun with ⟨hdead, -, -⟩ | ⟨-, rfl, rfl⟩
  · exact absurd hdead (hsim.not_dead hlive halive)
  · exact TracedInto.step (Sim.acquire (hsim.mono fun h hl => by simp_all [liveStmt])) hc

theorem covers_free (value : HandleId) (reason : FreeReason) :
    Covers ownership result maxPaths iterations (.free value reason) := by
  rintro env cont hg f o f' st acc hrun hsim - hc
  have hpos := (clean_freeHandle (hg _ _ hc)).2
  rcases hrun with ⟨hbad, -, -⟩ | ⟨-, rfl, rfl⟩
  · rw [hsim.refs] at hbad
    omega
  · exact TracedInto.step (hsim.release hpos) hc

theorem covers_opaqueWork (throws : Bool) :
    Covers ownership result maxPaths iterations (.opaqueWork throws) := by
  rintro env cont hg f o f' st acc ⟨ho, rfl⟩ hsim - hc
  rw [execStmt] at hc ⊢
  rcases ho with rfl | ⟨hthrows, rfl⟩
  · have hfall : Sim f' st fun h => (env h).fall :=
      hsim.mono fun h hl => by rw [liveStmt, hl, Bool.or_true]
    split at hc
    · next hthrows =>
      rw [if_pos hthrows]
      exact ⟨(by rintro ⟨⟩), Or.inr (Or.inl ⟨rfl, st, acc, hfall, hc,
        fun q hq => mem_cons_of_mem _ hq⟩)⟩
    · next hthrows =>
      rw [if_neg hthrows]
      exact TracedInto.step hfall hc
  · rw [if_pos hthrows]
    refine ⟨(by rintro ⟨⟩), Or.inr (Or.inr ⟨(by rintro ⟨⟩), _, mem_cons_self, rfl, hsim.mono fun h hl => ?_⟩)⟩
    have hl : (env h).unwind = true := hl
    rw [liveStmt, hthrows, hl]
    rfl

theorem covers_break (label : String) :
    Covers ownership result maxPaths iterations (.break_ label) := by
  rintro env cont - f o f' st acc ⟨rfl, rfl⟩ hsim - -
  exact @TracedInto.exit env cont _ st (.break_ label) nofun hsim

theorem covers_continue (label : String) :
    Covers ownership result maxPaths iterations (.continue_ label) := by
  rintro env cont - f o f' st acc ⟨rfl, rfl⟩ hsim - -
  exact @TracedInto.exit env cont _ st (.continue_ label) nofun hsim

theorem covers_return (value : Option HandleId) :
    Covers ownership result maxPaths iterations (.return_ value) := by
  rintro env cont - f o f' st acc ⟨rfl, ho⟩ hsim - -
  split at ho
  · rw [ho]
    exact ⟨nofun, Or.inl rfl⟩
  · rw [ho]
    exact @TracedInto.exit env cont _ st (.return_ value) nofun hsim

theorem covers_throw (value : Option HandleId) :
    Covers ownership result maxPaths iterations (.throw_ value) := by
  rintro env cont - f o f' st acc ⟨rfl, ho⟩ hsim - -
  split at ho
  · rw [ho]
    exact ⟨nofun, Or.inl rfl⟩
  · rw [ho]
    exact @TracedInto.exit env cont _ st (.unwind value) nofun hsim

/-! ### Loops -/

section
variable {label : String} {body : List HandleStmt} {env : HandleId → LiveEnv}

/-- What is read from the head of a loop on. -/
def loopHead (ownership : OwnershipTable) (label : String) (body : List HandleStmt)
    (env : HandleId → LiveEnv) (h : HandleId) : Bool :=
  live ownership h body ((env h).inLoop label false)

/-- What is read behind an iteration. -/
def loopEnv (ownership : OwnershipTable) (label : String) (body : List HandleStmt)
    (env : HandleId → LiveEnv) (h : HandleId) : LiveEnv :=
  (env h).inLoop label (loopHead ownership label body env h)

/-- **A frame at the head of a loop** follows the state the exploration keeps there: the
counts agree, and the frame came round the loop from an entry with the flags `b`. -/
structure AtHead (ownership : OwnershipTable) (label : String) (body : List HandleStmt)
    (env : HandleId → LiveEnv) (b : HandleId → Bool) (f : Counts.Frame) (st : VState) : Prop where
  refs : ∀ h, f.refs h = st.get h
  nonneg : ∀ h, 0 ≤ st.get h
  flags : ∀ h, f.acquired h ∈ headFlags label (flows ownership h body) (b h)
  entry : ∀ h, loopHead ownership label body env h = true → b h = true → st.owned h = true

variable {b : HandleId → Bool} {f f' : Counts.Frame} {st : VState} {o : Exit} {out : List Path}

/-- A handle acquired on the way round is not read. -/
theorem AtHead.sim (hf : AtHead ownership label body env b f st)
    (hclosed : ∀ h, closedStmt ownership h (.loop label body) (env h) (b h) = true) :
    Sim f st fun h => live ownership h body (loopEnv ownership label body env h) := by
  refine ⟨hf.refs, hf.nonneg, fun h hl hacq => ?_⟩
  rw [loopEnv, loopHead, live_loop] at hl
  refine hf.entry h hl ?_
  by_contra hb
  rw [Bool.not_eq_true] at hb
  have hback := (mem_cons.mp (hf.flags h)).resolve_left (by rw [hacq, hb]; nofun)
  rw [hacq, hb] at hback
  have hno := hclosed h
  rw [closedStmt, Bool.and_eq_true, hb, hl, contains_iff_mem.mpr hback] at hno
  exact Bool.false_ne_true hno.1

section
variable {acc : Acc} (hbody : CoversAll ownership result maxPaths iterations body)
  (hclosed : ∀ h, closedStmt ownership h (.loop label body) (env h) (b h) = true)
  (hc : (exec maxPaths ownership iterations body st acc).2.Clean)
  (hback : ∀ p ∈ (exec maxPaths ownership iterations body st acc).1,
    p.outcome = .continue_ label → signature p.state = signature st)
  (hout : ∀ p ∈ (exec maxPaths ownership iterations body st acc).1,
    p.outcome ≠ .continue_ label → leaveBlock label p ∈ out)
include hbody hclosed hc

/-- One iteration follows a path of the exploration from the head. -/
theorem AtHead.iteration (hf : AtHead ownership label body env b f st)
    (hrun : runs ownership result body f o f') :
    Traced (loopEnv ownership label body env)
      (exec maxPaths ownership iterations body st acc).1 o f' := by
  refine hbody _ f o f' st acc hrun (hf.sim hclosed) (fun h => ?_) hc
  have hall := hclosed h
  rw [closedStmt, Bool.and_eq_true, all_eq_true] at hall
  exact hall.2 _ (hf.flags h)

include hout in
/-- Leaving the loop. -/
theorem AtHead.leave (hf : AtHead ownership label body env b f st)
    (hne : o ≠ .continue_ label) (hrun : Rel.leave label (runs ownership result body) f o f') :
    Traced env out o f' := by
  rcases hrun with ⟨rfl, hrun⟩ | ⟨hnb, hrun⟩
  · obtain ⟨-, hun | ⟨p, hp, ho, hsim⟩⟩ := hf.iteration hbody hclosed hc hrun
    · cases hun
    · have hpo : p.outcome = .break_ label := exitOf_inj ho
      have hmem := hout p hp (by rw [hpo]; rintro ⟨⟩)
      rw [leaveBlock, if_pos hpo] at hmem
      refine ⟨(by rintro ⟨⟩), Or.inr ⟨_, hmem, rfl, hsim.mono fun h hl => ?_⟩⟩
      simpa [loopEnv, LiveEnv.inLoop, LiveEnv.at] using hl
  · obtain ⟨hok, hun | ⟨p, hp, ho, hsim⟩⟩ := hf.iteration hbody hclosed hc hrun
    · exact ⟨hok, Or.inl hun⟩
    · have hpb : p.outcome ≠ .break_ label := fun hpo => hnb (by rw [← ho, hpo]; rfl)
      have hpc : p.outcome ≠ .continue_ label := fun hpo => hne (by rw [← ho, hpo]; rfl)
      have hmem := hout p hp hpc
      rw [leaveBlock, if_neg hpb] at hmem
      refine ⟨hok, Or.inr ⟨p, hmem, ho, hsim.mono fun h hl => ?_⟩⟩
      rw [← ho] at hl ⊢
      cases hpo : p.outcome with
      | break_ l =>
        rw [hpo] at hl hpb
        have hlab : l ≠ label := fun hc => hpb (by rw [hc])
        simpa [exitOf, loopEnv, LiveEnv.inLoop, LiveEnv.at, Function.update_of_ne hlab] using hl
      | continue_ l =>
        rw [hpo] at hl hpc
        have hlab : l ≠ label := fun hc => hpc (by rw [hc])
        simpa [exitOf, loopEnv, LiveEnv.inLoop, LiveEnv.at, Function.update_of_ne hlab] using hl
      | fall | return_ | unwind => rw [hpo] at hl; exact hl

include hback in
/-- Going round: another state with the counts of the head keeps the frame. -/
theorem AtHead.again (hf : AtHead ownership label body env b f st)
    (hrun : runs ownership result body f (.continue_ label) f') {st' : VState}
    (hsig : signature st' = signature st)
    (hle : OwnedLe st st') : AtHead ownership label body env b f' st' := by
  obtain ⟨-, hun | ⟨p, hp, ho, hsim⟩⟩ := hf.iteration hbody hclosed hc hrun
  · exact nomatch hun
  · have hpo : p.outcome = .continue_ label := exitOf_inj ho
    have hget : ∀ h, st'.get h = p.state.get h := fun h =>
      get_eq_of_signature (hsig.trans (hback p hp hpo).symm) h
    refine ⟨fun h => ?_, fun h => ?_, fun h => ?_, fun h hl hb => hle h (hf.entry h hl hb)⟩
    · rw [hget, hsim.refs]
    · rw [hget]
      exact hsim.nonneg h
    · exact headFlags_closed (hf.flags h) (runs_follows result body f _ f' hrun ⟨nofun, nofun⟩)

include hback hout in
/-- **Iterations from a kept head**: all of them follow the paths of one exploration. -/
theorem AtHead.iterate (hrun : Iterate label (runs ownership result body) f o f')
    (hf : AtHead ownership label body env b f st) : Traced env out o f' := by
  induction hrun with
  | again hstep _ ih =>
    exact ih (hf.again hbody hclosed hc hback hstep rfl fun _ => id)
  | last hne hlast => exact hf.leave hbody hclosed hc hout hne hlast

end

/-- One round of the exploration of a loop. -/
theorem runLoop_round {maxPaths : Nat} {body : Cont} (hg : Grows body) {n : Nat} {acc : Acc}
    (hc : (runLoop maxPaths label body (n + 1) st acc).2.Clean) :
    (body st acc).2.Clean ∧ ∃ r, Explored label (signature st) (body st acc).1 none r ∧
      (∀ q ∈ r.1, q ∈ (runLoop maxPaths label body (n + 1) st acc).1) ∧
      ∀ next, r.2.1 = some next → (runLoop maxPaths label body n next r.2.2.2).2.Clean ∧
        ∀ q ∈ (runLoop maxPaths label body n next r.2.2.2).1,
          q ∈ (runLoop maxPaths label body (n + 1) st acc).1 := by
  obtain ⟨r, hr⟩ : ∃ r, backEdges maxPaths label (signature st) (body st acc).1 none
    (body st acc).2 = r := ⟨_, rfl⟩
  have hrc : r.2.2.2.Clean := by
    simp only [runLoop, hr] at hc
    split at hc
    · split at hc
      · exact hc
      · exact runLoop_grows hg n _ _ hc
    · exact hc
  have hexp : Explored label (signature st) (body st acc).1 none r := by
    rw [← hr] at hrc ⊢
    exact backEdges_explored hrc
  refine ⟨backEdges_grows (hr ▸ hrc), r, hexp, ?_, ?_⟩
  · intro q hq
    simp only [runLoop, hr, hexp.done, if_true]
    split
    · exact hq
    · exact mem_append_left _ hq
  · intro next hnext
    simp only [runLoop, hr, hexp.done, if_true, hnext] at hc ⊢
    exact ⟨hc, fun q hq => mem_append_right _ hq⟩

/-- **A loop**: its first iteration follows the first exploration, all later ones the
second. -/
theorem covers_loop (h2 : 2 ≤ iterations)
    (hbody : CoversAll ownership result maxPaths iterations body) :
    Covers ownership result maxPaths iterations (.loop label body) := by
  intro env cont hg f o f' st acc hrun hsim hclosed hc
  obtain ⟨n, rfl⟩ : ∃ n, iterations = n + 2 := ⟨iterations - 2, by omega⟩
  refine Traced.join hg hc ?_
  have hloop : (runLoop maxPaths label (exec maxPaths ownership (n + 2) body) (n + 2) st
    acc).2.Clean := joinInto_grows hg hc
  obtain ⟨hc1, r, hexp, hsub, hnext⟩ := runLoop_round (exec_grows body) hloop
  have hf : AtHead ownership label body env f.acquired f st :=
    ⟨hsim.refs, hsim.nonneg, fun h => mem_cons_self, fun h hl hb => hsim.owned h hl hb⟩
  have hback := fun p hp hpo => (hexp.back p hp hpo).1
  cases hrun with
  | last hne hlast =>
    exact hf.leave hbody hclosed hc1 (fun p hp hpo => hsub _ (hexp.leaves p hp hpo)) hne hlast
  | @again _ f1 _ _ hstep hrest =>
    -- the exploration goes on from the state of its first back edge
    obtain ⟨-, hun | ⟨p, hp, ho, -⟩⟩ := hf.iteration hbody hclosed hc1 hstep
    · exact nomatch hun
    have hpo : p.outcome = .continue_ label := exitOf_inj ho
    obtain ⟨st', hst'⟩ := Option.isSome_iff_exists.mp (hexp.back p hp hpo).2
    obtain ⟨q, hq, hqo, rfl⟩ := (hexp.picks _ hst').resolve_left nofun
    have hf' := hf.again hbody hclosed hc1 hback hstep (hexp.back q hq hqo).1
      (exec_keeps body st acc q hq)
    obtain ⟨hc', hsub'⟩ := hnext _ hst'
    obtain ⟨hc2, r2, hexp2, hsub2, -⟩ := runLoop_round (exec_grows body) hc'
    exact AtHead.iterate hbody hclosed hc2 (fun p hp hpo => (hexp2.back p hp hpo).1)
      (fun p hp hpo => hsub' _ (hsub2 _ (hexp2.leaves p hp hpo))) hrest hf'

end

/-! ### The other statements with bodies -/

variable {body handler : List HandleStmt}

theorem covers_scope (hbody : CoversAll ownership result maxPaths iterations body) :
    Covers ownership result maxPaths iterations (.scope body) := by
  intro env cont hg f o f' st acc hrun hsim hclosed hc
  exact (hbody env f o f' st acc hrun hsim hclosed (joinInto_grows hg hc)).join hg hc

theorem covers_if {then_ : List HandleStmt} {else_ : Option (List HandleStmt)}
    (hthen : CoversAll ownership result maxPaths iterations then_)
    (helse : ∀ body, else_ = some body → CoversAll ownership result maxPaths iterations body) :
    Covers ownership result maxPaths iterations (.if_ then_ else_) := by
  intro env cont hg f o f' st acc hrun hsim hclosed hc
  refine Traced.join hg hc ?_
  have hclosed' : ∀ h, closed ownership h then_ (env h) (f.acquired h) = true ∧
      closedElse ownership h else_ (env h) (f.acquired h) = true := fun h => by
    have := hclosed h
    rwa [closedStmt, Bool.and_eq_true] at this
  have helseClean : (execElse maxPaths ownership iterations else_ st
      (exec maxPaths ownership iterations then_ st acc).2).2.Clean := joinInto_grows hg hc
  have hsimThen : Sim f st fun h => live ownership h then_ (env h) :=
    hsim.mono fun h hl => by rw [liveStmt, hl, Bool.true_or]
  have hsimElse : Sim f st fun h => liveElse ownership h else_ (env h) :=
    hsim.mono fun h hl => by rw [liveStmt, hl, Bool.or_true]
  rcases hrun with hrun | hrun
  · have hthenClean : (exec maxPaths ownership iterations then_ st acc).2.Clean := by
      cases else_ with
      | none => exact helseClean
      | some body => exact exec_grows body _ _ helseClean
    obtain ⟨hok, ht⟩ := hthen env f o f' st acc hrun hsimThen (fun h => (hclosed' h).1) hthenClean
    exact ⟨hok, ht.imp_right (by rintro ⟨p, hp, h⟩; exact ⟨p, mem_append_left _ hp, h⟩)⟩
  · cases else_ with
    | none =>
      obtain ⟨rfl, rfl⟩ := hrun
      exact ⟨(by rintro ⟨⟩), Or.inr ⟨⟨.fall, st⟩, mem_append_right _ mem_cons_self, rfl, hsimElse⟩⟩
    | some body =>
      obtain ⟨hok, ht⟩ := helse body rfl env f o f' st _ hrun hsimElse (fun h => (hclosed' h).2)
        helseClean
      exact ⟨hok, ht.imp_right (by rintro ⟨p, hp, h⟩; exact ⟨p, mem_append_right _ hp, h⟩)⟩

theorem covers_block {label : String} (hbody : CoversAll ownership result maxPaths iterations body) :
    Covers ownership result maxPaths iterations (.block label body) := by
  intro env cont hg f o f' st acc hrun hsim hclosed hc
  refine Traced.join hg hc ?_
  have hin := fun o f' hrun => hbody (fun h =>
    { env h with breaks := Function.update (env h).breaks label (env h).fall }) f o f' st acc hrun
    hsim hclosed (joinInto_grows hg hc)
  rcases hrun with ⟨rfl, hrun⟩ | ⟨hne, hrun⟩
  · obtain ⟨-, hun | ⟨p, hp, ho, hsim'⟩⟩ := hin _ _ hrun
    · exact nomatch hun
    · have hpo : p.outcome = .break_ label := exitOf_inj ho
      refine ⟨nofun, Or.inr ⟨leaveBlock label p, mem_map_of_mem hp, ?_, ?_⟩⟩
      · rw [leaveBlock, if_pos hpo]
        rfl
      · rw [leaveBlock, if_pos hpo]
        exact hsim'.mono fun h hl => by simpa [LiveEnv.at] using hl
  · obtain ⟨hok, hun | ⟨p, hp, ho, hsim'⟩⟩ := hin _ _ hrun
    · exact ⟨hok, Or.inl hun⟩
    · have hpb : p.outcome ≠ .break_ label := fun hpo => hne (by rw [← ho, hpo]; rfl)
      refine ⟨hok, Or.inr ⟨leaveBlock label p, mem_map_of_mem hp, ?_, ?_⟩⟩
      · rw [leaveBlock, if_neg hpb]
        exact ho
      · rw [leaveBlock, if_neg hpb]
        refine hsim'.mono fun h hl => ?_
        cases o with
        | break_ l =>
          have hlab : l ≠ label := fun hl => hne (by rw [hl])
          simpa [LiveEnv.at, Function.update_of_ne hlab] using hl
        | _ => exact hl

/-- A straight-line handler has one path, which falls through. -/
theorem straight_exec {handler : List HandleStmt}
    (hs : handler.all (straight ownership) = true) (st : VState) (acc : Acc) :
    ∃ st' acc', exec maxPaths ownership iterations handler st acc = ([⟨.fall, st'⟩], acc') := by
  induction handler generalizing st acc with
  | nil => exact ⟨st, acc, rfl⟩
  | cons s rest ih =>
    rw [all_cons, Bool.and_eq_true] at hs
    obtain ⟨hstmt, hrest⟩ := hs
    cases s with
    | use value | dup value dest reason | free value reason => exact ih hrest _ _
    | opaqueWork throws =>
      have hno : throws = false := by simpa [straight] using hstmt
      rw [exec, execStmt, if_neg (by rw [hno]; rintro ⟨⟩)]
      exact ih hrest _ _
    | call callee args dest binding =>
      rw [straight, Option.any_eq_true] at hstmt
      obtain ⟨own, hown, hno⟩ := hstmt
      have hno : own.throws = false := by simpa using hno
      simp only [exec, execStmt, execCall, hown, hno, Bool.false_eq_true, if_false]
      obtain ⟨st', acc', heq⟩ := ih hrest (applyResult own.result dest
        (applyArgs callee args own.args st acc).1) (applyArgs callee args own.args st acc).2
      rw [heq]
      exact ⟨st', acc', rfl⟩
    | _ => cases hstmt

theorem closed_of_straight {h : HandleId} (hs : handler.all (straight ownership) = true)
    (env : LiveEnv) (b : Bool) : closed ownership h handler env b = true := by
  induction handler generalizing b with
  | nil => rfl
  | cons s rest ih =>
    rw [all_cons, Bool.and_eq_true] at hs
    rw [closed, Bool.and_eq_true, all_eq_true]
    refine ⟨?_, fun b' _ => ih hs.2 b'⟩
    cases s <;> first | rfl | exact nomatch hs.1

theorem straightHandlers_cons (hs : straightHandlers ownership (s :: rest) = true) :
    (∀ body, (∀ x ∈ walk body, x ∈ walkStmt s) → straightHandlers ownership body = true) ∧
      straightHandlers ownership rest = true := by
  rw [straightHandlers, walk, all_append, Bool.and_eq_true] at hs
  exact ⟨fun body hsub => all_eq_true.mpr fun x hx =>
    all_eq_true.mp hs.1 x (hsub x hx), hs.2⟩

theorem covers_cleanup {owner : HandleId} (hs : handler.all (straight ownership) = true)
    (hbody : CoversAll ownership result maxPaths iterations body)
    (hhandler : CoversAll ownership result maxPaths iterations handler) :
    Covers ownership result maxPaths iterations (.cleanup owner body handler) := by
  intro env cont hg f o f' st acc hrun hsim hclosed hc
  refine Traced.join hg hc ?_
  have hunwinds : (handleUnwinds (exec maxPaths ownership iterations handler)
      (exec maxPaths ownership iterations body st acc).1
      (exec maxPaths ownership iterations body st acc).2).2.Clean := joinInto_grows hg hc
  have hin := fun o f' hrun => hbody (fun h => { env h with
    unwind := live ownership h handler { env h with fall := (env h).unwind } }) f o f' st acc hrun
    hsim hclosed (handleUnwinds_grows (exec_grows handler) hunwinds)
  rcases hrun with ⟨hne, hrun⟩ | ⟨value, f1, o1, hrun, hrun1, ho⟩
  · obtain ⟨hok, hun | ⟨p, hp, ho, hsim'⟩⟩ := hin _ _ hrun
    · exact ⟨hok, Or.inl hun⟩
    · refine ⟨hok, Or.inr ⟨p, handleUnwinds_keeps hp fun v hv => hne v (by rw [← ho, hv]; rfl), ho,
        hsim'.mono fun h hl => ?_⟩⟩
      cases o with
      | unwind v => exact absurd rfl (hne v)
      | _ => exact hl
  · obtain ⟨-, hun | ⟨p, hp, hpo, hsim1⟩⟩ := hin _ _ hrun
    · exact nomatch hun
    have hpo : p.outcome = .unwind value := exitOf_inj hpo
    obtain ⟨acc1, hc1, hmem⟩ := handleUnwinds_runs (exec_grows handler) hunwinds hp hpo
    obtain ⟨st2, acc2, heq⟩ := @straight_exec ownership maxPaths iterations _ hs p.state acc1
    -- a straight handler has no loops, so that it is closed
    obtain ⟨hok1, hun | ⟨q, hq, hqo, hsim2⟩⟩ := hhandler (fun h =>
      { env h with fall := (env h).unwind }) f1 o1 f' p.state acc1 hrun1 hsim1
      (fun h => closed_of_straight hs _ _) hc1
    · rw [hun, if_neg (by nofun)] at ho
      rw [ho]
      exact ⟨nofun, Or.inl rfl⟩
    · -- the handler fell through: the exception goes on
      rw [heq] at hq hmem
      obtain rfl := mem_singleton.mp hq
      obtain rfl : .fall = o1 := hqo
      rw [if_pos rfl] at ho
      split at ho
      · rw [ho]
        exact ⟨nofun, Or.inl rfl⟩
      · rw [ho]
        exact ⟨nofun, Or.inr ⟨_, hmem, rfl, hsim2⟩⟩

/-- **Every execution follows a path**, where the account is clean, the handlers are
straight-line and no loop exposes a handle it acquires. -/
theorem exec_sim (h2 : 2 ≤ iterations) : ∀ stmts, straightHandlers ownership stmts = true →
    CoversAll ownership result maxPaths iterations stmts := by
  intro stmts
  induction stmts using stmtsInduction with
  | nil =>
    rintro - env f o f' st acc ⟨rfl, rfl⟩ hsim - -
    exact ⟨nofun, Or.inr ⟨⟨.fall, st⟩, mem_cons_self, rfl, hsim⟩⟩
  | call callee args dest binding rest ihr =>
    exact fun hs => coversAll_cons (covers_call callee args dest binding)
      (ihr (straightHandlers_cons hs).2)
  | use value rest ihr =>
    exact fun hs => coversAll_cons (covers_use value) (ihr (straightHandlers_cons hs).2)
  | dup value dest reason rest ihr =>
    exact fun hs => coversAll_cons (covers_dup value dest reason) (ihr (straightHandlers_cons hs).2)
  | free value reason rest ihr =>
    exact fun hs => coversAll_cons (covers_free value reason) (ihr (straightHandlers_cons hs).2)
  | opaqueWork throws rest ihr =>
    exact fun hs => coversAll_cons (covers_opaqueWork throws) (ihr (straightHandlers_cons hs).2)
  | break_ label rest ihr =>
    exact fun hs => coversAll_cons (covers_break label) (ihr (straightHandlers_cons hs).2)
  | continue_ label rest ihr =>
    exact fun hs => coversAll_cons (covers_continue label) (ihr (straightHandlers_cons hs).2)
  | return_ value rest ihr =>
    exact fun hs => coversAll_cons (covers_return value) (ihr (straightHandlers_cons hs).2)
  | throw_ value rest ihr =>
    exact fun hs => coversAll_cons (covers_throw value) (ihr (straightHandlers_cons hs).2)
  | scope body rest ihb ihr =>
    intro hs
    obtain ⟨hstmt, hrest⟩ := straightHandlers_cons hs
    exact coversAll_cons (covers_scope (ihb (hstmt body fun s h => by simp [walkStmt, h]))) (ihr hrest)
  | if_ then_ else_ rest iht ihe ihr =>
    intro hs
    obtain ⟨hstmt, hrest⟩ := straightHandlers_cons hs
    refine coversAll_cons (covers_if (iht (hstmt then_ ?_)) fun body hb => ihe body hb
      (hstmt body ?_)) (ihr hrest)
    · intro s hs
      simp [walkStmt, hs]
    · intro s hs
      simp [walkStmt, walkElse, hb, hs]
  | block label body rest ihb ihr =>
    intro hs
    obtain ⟨hstmt, hrest⟩ := straightHandlers_cons hs
    exact coversAll_cons (covers_block (ihb (hstmt body fun s h => by simp [walkStmt, h]))) (ihr hrest)
  | loop label body rest ihb ihr =>
    intro hs
    obtain ⟨hstmt, hrest⟩ := straightHandlers_cons hs
    exact coversAll_cons (covers_loop h2 (ihb (hstmt body fun s h => by simp [walkStmt, h]))) (ihr hrest)
  | cleanup owner body unwind rest ihb ihu ihr =>
    intro hs
    obtain ⟨hstmt, hrest⟩ := straightHandlers_cons hs
    have hself : straightHandler ownership (.cleanup owner body unwind) = true :=
      all_eq_true.mp hs _ (by simp [walk, walkStmt])
    exact coversAll_cons (covers_cleanup hself (ihb (hstmt body fun s h => by simp [walkStmt, h]))
      (ihu (hstmt unwind fun s h => by simp [walkStmt, h]))) (ihr hrest)

end

end Js2Wasm.Refcount.Verify
