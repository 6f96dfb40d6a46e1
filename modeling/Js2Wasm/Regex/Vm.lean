import Js2Wasm.Regex.Bytecode
import Js2Wasm.Lib.BacktrackSim
import Mathlib.Algebra.Group.Nat.Defs

/-! # The backtracking matcher

The explicit-stack interpreter of a compiled program (`codegen/regex/vm.ts`, `runAt`).
The loop runs on fuel, and `none` means that the fuel ran out.  A direction is whether the
attempt moves forward.

`step` is one round of the loop: what the instruction at `pc` does to the thread.
`attempt` is `runAt` with its rounds not counted; `runAt` itself throws when they pass
the step budget, and is the same otherwise (`runAt_eq`).

The states of an attempt with their steps, and that its loop ends with the outcomes of that
machine (`attempt_iff`).  Leaving the program ends an attempt like a failure does, but is
not retried.
-/
namespace Js2Wasm.Regex

/-- The position and the capture array of an attempt. -/
structure Thread where
  sp : Int
  caps : List Int
  deriving DecidableEq

/-! ### Reading the subject -/

def inBounds (forward : Bool) (input : JsString) (sp : Int) : Bool :=
  if forward then sp < input.length else 0 < sp

/-- The code unit next to the position, on the side of the direction. -/
def unitAt (forward : Bool) (input : JsString) (sp : Int) : Option Nat :=
  charCodeAt input (if forward then sp else sp - 1)

/-- Move by `n` in the direction. -/
def move (forward : Bool) (sp n : Int) : Int := if forward then sp + n else sp - n

/-- The code point that a CPCLASS reads, and its width; `none` inside a pair. -/
def codePointAt (forward : Bool) (input : JsString) (sp : Int) : Option (Option Nat × Int) :=
  if forward then
    (forwardCodePoint input sp).map fun cp => (cp, if cp.any (0xffff < ·) then 2 else 1)
  else
    let u := unitAt false input sp
    if isTrail u && 1 < sp then
      let lead := charCodeAt input (sp - 2)
      if isLead lead then some (some (pairCodePoint (lead.getD 0) (u.getD 0)), 2) else some (u, 1)
    else if isLead u && sp < input.length && isTrail (charCodeAt input sp) then none
    else some (u, 1)

/-- `c1 === c2` for units that may be `NaN`, folded when asked to. -/
def sameUnit (fold : Bool) (c1 c2 : Option Nat) : Bool :=
  match c1, c2 with
  | some c1, some c2 => if fold then asciiFold c1 == asciiFold c2 else c1 == c2
  | _, _ => false

/-! ### One round -/

/-- The outcome of one instruction. -/
inductive Next where
  | go (pc : Nat) (t : Thread)
  | fork (a b : Nat)
  | look (entry : Nat) (negated behind : Bool)
  | fail
  | done
  /-- No instruction stands at the program counter. -/
  | outside
  /-- A back-reference read a slot beyond the array: the position is `NaN` from here
  on, which the model does not follow. -/
  | undefined
  deriving DecidableEq

/-- A back-reference to the span of two slots. -/
def stepBackref (input : JsString) (forward fold : Bool) (pc : Nat) (t : Thread) :
    Option Int → Option Int → Next := fun start finish =>
  if start.any (· < 0) || finish.any (· < 0) then .go (pc + 1) t
  else
    match start, finish with
    | some gs, some ge =>
      let blen := ge - gs
      if (if forward then decide (input.length < t.sp + blen) else decide (t.sp - blen < 0)) then
        .fail
      else
        let base := if forward then t.sp else t.sp - blen
        if (List.range blen.toNat).all fun j =>
            sameUnit fold (charCodeAt input (gs + j)) (charCodeAt input (base + j)) then
          .go (pc + 1) { t with sp := move forward t.sp blen }
        else .fail
    | _, _ => .undefined

/-- `for (i = a; i <= b; i++) caps[i] = -1`. -/
def clearSlots (a b : Nat) (caps : List Int) : List Int :=
  (List.range' a (b + 1 - a)).foldl (fun caps i => caps.set i (-1)) caps

/-- What an instruction does. -/
def stepInstr (classTable : List Nat) (input : JsString) (forward : Bool) (pc : Nat) (t : Thread)
    (i : Instr) : Next :=
  match i.op with
  | .CHAR | .CHARI | .ANY | .CLASS =>
    if inBounds forward input t.sp &&
        unitMatches i.op i.a i.b classTable (unitAt forward input t.sp) then
      .go (pc + 1) { t with sp := move forward t.sp 1 }
    else .fail
  | .CPCLASS =>
    if !inBounds forward input t.sp then .fail
    else
      match codePointAt forward input t.sp with
      | some (cp, width) =>
        if classMatch classTable i.a cp (i.b != 0) then
          .go (pc + 1) { t with sp := move forward t.sp width }
        else .fail
      | none => .fail
  | .SPLIT => .fork i.a i.b
  | .JMP => .go i.a t
  | .SAVE => .go (pc + 1) { t with caps := t.caps.set i.a (t.sp.bmod (2 ^ 32)) }
  | .BOL | .EOL | .WBOUND =>
    if assertionHolds i.op i.a input t.sp then .go (pc + 1) t else .fail
  | .BACKREF =>
    stepBackref input forward (i.b != 0) pc t t.caps[2 * i.a]? t.caps[2 * i.a + 1]?
  | .LOOKAROUND => .look i.a (i.b &&& 1 != 0) (i.b &&& 2 != 0)
  | .PROGRESS => if t.caps[i.a]? = some t.sp then .fail else .go (pc + 1) t
  | .CLEAR => .go (pc + 1) { t with caps := clearSlots i.a i.b t.caps }
  | .MATCH => .done

/-- One round of the loop. -/
def step (R : CompiledRegex) (input : JsString) (forward : Bool) (pc : Nat) (t : Thread) : Next :=
  match R.prog[pc]? with
  | some i => stepInstr R.classTable input forward pc t i
  | none => .outside

/-! ### The loop -/

/-- How an attempt ends. -/
inductive Result where
  | matched (caps : List Int)
  | null
  | undefined
  deriving DecidableEq

/-- A backtrack entry. -/
structure Frame where
  pc : Nat
  thread : Thread
  deriving DecidableEq

/-- What a LOOKAROUND does once the attempt on its body has ended: a positive one
adopts the captures, every other outcome keeps them. -/
def lookNext (pc : Nat) (t : Thread) (negated : Bool) : Result → Next
  | .matched caps => if negated then .fail else .go (pc + 1) { t with caps := caps }
  | .null => if negated then .go (pc + 1) t else .fail
  | .undefined => .undefined

/-- An instruction's outcome, once a lookaround's body has been attempted by `sub`. -/
def resolve (pc : Nat) (t : Thread) (sub : Bool → Nat → Option Result) : Next → Option Next
  | .look entry negated behind => (sub (!behind) entry).map (lookNext pc t negated)
  | next => some next

/-- The loop of an attempt, in a state with the backtrack stack `stack`. -/
def runLoop (R : CompiledRegex) (input : JsString) :
    Nat → Bool → Nat → Thread → List Frame → Option Result
  | 0, _, _, _, _ => none
  | fuel + 1, forward, pc, t, stack =>
    match resolve pc t (fun forward entry => runLoop R input fuel forward entry t [])
        (step R input forward pc t) with
    | none => none
    | some (.go pc t) => runLoop R input fuel forward pc t stack
    | some (.fork a b) => runLoop R input fuel forward a t (⟨b, t⟩ :: stack)
    | some .fail =>
      match stack with
      | [] => some .null
      | frame :: stack => runLoop R input fuel forward frame.pc frame.thread stack
    | some .done => some (.matched t.caps)
    | some .undefined => some .undefined
    | some _ => some .null

/-- One anchored attempt, however many rounds it takes. -/
def attempt (R : CompiledRegex) (input : JsString) (fuel : Nat) (startIdx : Int) (entryPc : Nat)
    (forward : Bool) (capsIn : Option (List Int)) : Option Result :=
  let caps := capsIn.getD (List.replicate (2 * R.nGroups + R.nScratch) (-1))
  runLoop R input fuel forward entryPc ⟨startIdx, caps⟩ []

/-! ### The step budget -/

def REGEX_STEP_CAP : Nat := 1000000
def REGEX_STEP_CAP_PER_UNIT : Nat := 50
def REGEX_STEP_CAP_LEN_SATURATION : Nat := 20000000

def regexStepBudget (len : Nat) : Nat :=
  REGEX_STEP_CAP + REGEX_STEP_CAP_PER_UNIT * min len REGEX_STEP_CAP_LEN_SATURATION

/-- What the `RangeError` of an exhausted budget says. -/
def stepLimitExceeded : String := "regular expression step limit exceeded"

/-- As `resolve`, for an attempt on the body that may throw. -/
def resolveCounted (pc : Nat) (t : Thread) (sub : Bool → Nat → Option (Except String Result)) :
    Next → Option (Except String Next)
  | .look entry negated behind =>
    (sub (!behind) entry).map fun r => r.map (lookNext pc t negated)
  | next => some (.ok next)

/-- The loop of `runAt` with `left` rounds of its budget left.  The attempt on the body of
a lookaround has a budget of its own. -/
def countedLoop (R : CompiledRegex) (input : JsString) :
    Nat → Nat → Bool → Nat → Thread → List Frame → Option (Except String Result)
  | 0, _, _, _, _, _ => none
  | _ + 1, 0, _, _, _, _ => some (.error stepLimitExceeded)
  | fuel + 1, left + 1, forward, pc, t, stack =>
    match resolveCounted pc t (fun forward entry =>
        countedLoop R input fuel (regexStepBudget input.length) forward entry t [])
        (step R input forward pc t) with
    | none => none
    | some (.error e) => some (.error e)
    | some (.ok (.go pc t)) => countedLoop R input fuel left forward pc t stack
    | some (.ok (.fork a b)) => countedLoop R input fuel left forward a t (⟨b, t⟩ :: stack)
    | some (.ok .fail) =>
      match stack with
      | [] => some (.ok .null)
      | frame :: stack => countedLoop R input fuel left forward frame.pc frame.thread stack
    | some (.ok .done) => some (.ok (.matched t.caps))
    | some (.ok .undefined) => some (.ok .undefined)
    | some (.ok _) => some (.ok .null)

/-- `runAt`: one anchored attempt, which throws when it takes more rounds than its budget. -/
def runAt (R : CompiledRegex) (input : JsString) (fuel : Nat) (startIdx : Int) (entryPc : Nat)
    (forward : Bool) (capsIn : Option (List Int)) : Option (Except String Result) :=
  let caps := capsIn.getD (List.replicate (2 * R.nGroups + R.nScratch) (-1))
  countedLoop R input fuel (regexStepBudget input.length) forward entryPc ⟨startIdx, caps⟩ []

section
variable {R : CompiledRegex} {input : JsString}

/-- Counting the rounds changes nothing but that the loop may throw. -/
theorem countedLoop_eq (fuel left : Nat) (forward : Bool) (pc : Nat) (t : Thread)
    (stack : List Frame) :
    countedLoop R input fuel left forward pc t stack = some (.error stepLimitExceeded) ∨
      countedLoop R input fuel left forward pc t stack =
        (runLoop R input fuel forward pc t stack).map .ok := by
  induction fuel generalizing left forward pc t stack with
  | zero => exact .inr rfl
  | succ fuel ih =>
    cases left with
    | zero => exact .inl rfl
    | succ left =>
      simp only [countedLoop, runLoop]
      cases step R input forward pc t with
      | look entry negated behind =>
        simp only [resolveCounted, resolve]
        rcases ih (regexStepBudget input.length) (!behind) entry t [] with hsub | hsub
        · rw [hsub]
          exact .inl rfl
        · rw [hsub]
          cases runLoop R input fuel (!behind) entry t [] with
          | none => exact .inr rfl
          | some r =>
            simp only [Option.map_some, Except.map]
            cases lookNext pc t negated r with
            | go pc t => exact ih left forward pc t stack
            | fork a b => exact ih left forward a t _
            | fail =>
              cases stack with
              | nil => exact .inr rfl
              | cons frame stack => exact ih left forward frame.pc frame.thread stack
            | _ => exact .inr rfl
      | go pc t => exact ih left forward pc t stack
      | fork a b => exact ih left forward a t _
      | fail =>
        cases stack with
        | nil => exact .inr rfl
        | cons frame stack => exact ih left forward frame.pc frame.thread stack
      | _ => exact .inr rfl

/-- **`runAt` throws or does what the attempt does.** -/
theorem runAt_eq (fuel : Nat) (startIdx : Int) (entryPc : Nat) (forward : Bool)
    (capsIn : Option (List Int)) :
    runAt R input fuel startIdx entryPc forward capsIn = some (.error stepLimitExceeded) ∨
      runAt R input fuel startIdx entryPc forward capsIn =
        (attempt R input fuel startIdx entryPc forward capsIn).map .ok :=
  countedLoop_eq fuel _ forward entryPc _ []

end

/-! ## The matcher as a backtracking machine -/

open Backtrack

/-- The final answers of an attempt. -/
inductive Answer where
  | matched (t : Thread)
  | outside
  | undefined
  deriving DecidableEq

/-- What an attempt returns for an outcome. -/
def Answer.result : Option Answer → Result
  | some (.matched t) => .matched t.caps
  | none | some .outside => .null
  | some .undefined => .undefined

@[simp] theorem Answer.result_none : result none = .null := rfl
@[simp] theorem Answer.result_matched (t : Thread) :
    result (some (.matched t)) = .matched t.caps := rfl

@[simp] theorem Answer.result_outside : result (some .outside) = .null := rfl
@[simp] theorem Answer.result_undefined : result (some .undefined) = .undefined := rfl

/-- What a LOOKAROUND does with the outcome of its body: the thread that goes on, or an
outcome of its own. -/
def adopt (t : Thread) (negated : Bool) : Option Answer → Thread ⊕ Option Answer
  | some (.matched t') => if negated then .inr none else .inl { t with caps := t'.caps }
  | none | some .outside => if negated then .inl t else .inr none
  | some .undefined => .inr (some .undefined)

/-- A state of the loop, without its stack. -/
structure VmState where
  forward : Bool
  pc : Nat
  thread : Thread
  deriving DecidableEq

/-- What an instruction's outcome makes of the state. -/
def VmState.after (s : VmState) : Next → Step VmState Answer
  | .go pc t => .go ⟨s.forward, pc, t⟩
  | .fork a b => .fork ⟨s.forward, a, s.thread⟩ ⟨s.forward, b, s.thread⟩
  | .look entry negated behind => .look ⟨!behind, entry, s.thread⟩ fun w =>
    (adopt s.thread negated w).map (fun t => ⟨s.forward, s.pc + 1, t⟩) id
  | .fail => .halt none
  | .done => .halt (some (.matched s.thread))
  | .outside => .halt (some .outside)
  | .undefined => .halt (some .undefined)

/-- The matcher's steps. -/
def vmStep (R : CompiledRegex) (input : JsString) (s : VmState) : Step VmState Answer :=
  s.after (step R input s.forward s.pc s.thread)

variable {R : CompiledRegex} {input : JsString} {forward : Bool} {pc : Nat} {t : Thread}

/-- The state in a frame of the stack. -/
def Frame.state (forward : Bool) (frame : Frame) : VmState := ⟨forward, frame.pc, frame.thread⟩

/-- A lookaround of the loop goes on as the machine's does. -/
theorem lookNext_result (pc : Nat) (t : Thread) (negated : Bool) (w : Option Answer) :
    (∃ t', adopt t negated w = .inl t' ∧ lookNext pc t negated (Answer.result w) = .go (pc + 1) t') ∨
    (adopt t negated w = .inr none ∧ lookNext pc t negated (Answer.result w) = .fail) ∨
    (adopt t negated w = .inr (some .undefined) ∧
      lookNext pc t negated (Answer.result w) = .undefined) := by
  rcases w with - | (t' | - | -) <;> cases negated <;> simp [adopt, lookNext]

/-- The loop of an attempt is the machine's loop. -/
theorem runLoop_eq (fuel : Nat) (forward : Bool) (pc : Nat) (t : Thread) (stack : List Frame) :
    runLoop R input fuel forward pc t stack =
      (loop (vmStep R input) fuel ⟨forward, pc, t⟩ (stack.map (Frame.state forward))).map
        Answer.result := by
  induction fuel generalizing forward pc t stack with
  | zero => rfl
  | succ fuel ih =>
    cases hstep : step R input forward pc t with
    | look entry negated behind =>
      simp only [runLoop, loop, vmStep, VmState.after, hstep, resolve, ih, List.map_nil]
      cases hsub : loop (vmStep R input) fuel ⟨!behind, entry, t⟩ [] with
      | none => rfl
      | some w =>
        simp only [Option.map_some]
        rcases lookNext_result pc t negated w with ⟨t', h, hn⟩ | ⟨h, hn⟩ | ⟨h, hn⟩
        · simp [h, hn]
        · cases stack <;> simp [h, hn, Frame.state]
        · cases stack <;> simp [h, hn]
    | fail => cases stack <;> simp [runLoop, loop, vmStep, VmState.after, hstep, resolve, ih,
        Frame.state]
    | _ => cases stack <;> simp [runLoop, loop, vmStep, VmState.after, hstep, resolve, ih,
        Frame.state]

/-- The state in which an attempt starts. -/
def startState (R : CompiledRegex) (startIdx : Int) (entryPc : Nat) (forward : Bool)
    (capsIn : Option (List Int)) : VmState :=
  ⟨forward, entryPc, startIdx, capsIn.getD (List.replicate (2 * R.nGroups + R.nScratch) (-1))⟩

/-- **An attempt returns what the machine's outcome says**, and ends when it does. -/
theorem attempt_iff {startIdx : Int} {entryPc : Nat} {capsIn : Option (List Int)} {r : Result} :
    (∃ fuel, attempt R input fuel startIdx entryPc forward capsIn = some r) ↔
      ∃ v, Evaluates (vmStep R input) (startState R startIdx entryPc forward capsIn) v ∧
        Answer.result v = r := by
  simp only [attempt, runLoop_eq, List.map_nil, Option.map_eq_some_iff]
  constructor
  · rintro ⟨fuel, v, hv, rfl⟩
    exact ⟨v, loop_iff.mp ⟨fuel, hv⟩, rfl⟩
  · rintro ⟨v, hv, rfl⟩
    obtain ⟨fuel, hv⟩ := loop_iff.mpr hv
    exact ⟨fuel, v, hv, rfl⟩

/-! ### Full capture arrays -/

/-- Every back-reference is to one of the program's groups. -/
def CompiledRegex.RefersWithin (R : CompiledRegex) : Prop :=
  ∀ i ∈ R.prog, i.op = .BACKREF → i.a < R.nGroups

theorem clearSlots_length (a b : Nat) (caps : List Int) :
    (clearSlots a b caps).length = caps.length := by
  rw [clearSlots]
  induction List.range' a (b + 1 - a) generalizing caps with
  | nil => rfl
  | cons i is ih => rw [List.foldl_cons, ih, List.length_set]

theorem stepBackref_full {fold : Bool} {start finish : Option Int} :
    (∀ pc' t', stepBackref input forward fold pc t start finish = .go pc' t' →
      t'.caps = t.caps) ∧
    (start.isSome → finish.isSome →
      stepBackref input forward fold pc t start finish ≠ .undefined) := by
  rw [stepBackref.eq_def]
  cases start <;> cases finish <;> dsimp only <;> split
  all_goals
    refine ⟨fun pc' t' h => ?_, fun hs hf => ?_⟩
    all_goals grind

/-- An instruction keeps the length of the array, and is defined where the array has the
slots it reads. -/
theorem stepInstr_full {classTable : List Nat} {i : Instr} :
    (∀ pc' t', stepInstr classTable input forward pc t i = .go pc' t' →
      t'.caps.length = t.caps.length) ∧
    ((i.op = .BACKREF → 2 * i.a + 1 < t.caps.length) →
      stepInstr classTable input forward pc t i ≠ .undefined) := by
  cases hop : i.op <;> simp only [stepInstr, hop]
  case BACKREF =>
    refine ⟨fun pc' t' h => congrArg List.length (stepBackref_full.1 pc' t' h), fun hlt => ?_⟩
    have hlt := hlt trivial
    exact stepBackref_full.2 (by simp; lia) (by simp; lia)
  all_goals
    refine ⟨fun pc' t' h => ?_, fun _ => ?_⟩
    all_goals grind [clearSlots_length]

theorem step_full (hR : R.RefersWithin) (hcaps : 2 * R.nGroups ≤ t.caps.length) :
    (∀ pc' t', step R input forward pc t = .go pc' t' → t'.caps.length = t.caps.length) ∧
    step R input forward pc t ≠ .undefined := by
  rw [step]
  cases hi : R.prog[pc]? with
  | none => exact ⟨nofun, nofun⟩
  | some i =>
    refine ⟨stepInstr_full.1, stepInstr_full.2 fun hop => ?_⟩
    have hlt := hR i (List.mem_of_getElem? hi) hop
    lia

/-- An outcome that leaves the array full, and is not undefined. -/
def Answer.Full (n : Nat) (v : Option Answer) : Prop :=
  v ≠ some .undefined ∧ ∀ t, v = some (.matched t) → n ≤ t.caps.length

theorem adopt_full {n : Nat} {w : Option Answer} (hw : Answer.Full n w) (negated : Bool)
    (ht : n ≤ t.caps.length) :
    (∃ t', adopt t negated w = .inl t' ∧ n ≤ t'.caps.length) ∨ adopt t negated w = .inr none := by
  rcases w with - | (t' | - | -)
  · cases negated <;> simp [adopt, ht]
  · cases negated <;> simp [adopt, hw.2 t' rfl]
  · cases negated <;> simp [adopt, ht]
  · exact absurd rfl hw.1

/-- **Full arrays stay full**, and no outcome is undefined. -/
theorem vmStep_full (hR : R.RefersWithin) :
    Keeps (vmStep R input) (fun s => 2 * R.nGroups ≤ s.thread.caps.length)
      (Answer.Full (2 * R.nGroups)) where
  go s s' hs h := by
    obtain ⟨hgo, -⟩ := @step_full R input s.forward s.pc s.thread hR hs
    cases hn : step R input s.forward s.pc s.thread <;> rw [vmStep, hn] at h <;> cases h
    exact hgo _ _ hn ▸ hs
  fork s a b hs h := by
    cases hn : step R input s.forward s.pc s.thread <;> rw [vmStep, hn] at h <;> cases h
    exact ⟨hs, hs⟩
  look s sub resume hs h := by
    cases hn : step R input s.forward s.pc s.thread <;> rw [vmStep, hn] at h <;> cases h
    next negated _ =>
    refine ⟨hs, fun w hw => ?_⟩
    dsimp only
    rcases adopt_full hw negated hs with ⟨t', hadopt, ht'⟩ | hadopt <;> rw [hadopt]
    · exact ⟨by rintro s' ⟨⟩; exact ht', nofun⟩
    · exact ⟨nofun, by rintro v ⟨⟩; exact ⟨nofun, nofun⟩⟩
  halt s v hs h := by
    obtain ⟨-, hdef⟩ := @step_full R input s.forward s.pc s.thread hR hs
    cases hn : step R input s.forward s.pc s.thread <;> rw [vmStep, hn] at h <;> cases h
    · exact ⟨nofun, nofun⟩
    · refine ⟨nofun, ?_⟩
      rintro t' ⟨⟩
      exact hs
    · exact ⟨nofun, nofun⟩
    · exact absurd hn hdef

end Js2Wasm.Regex
