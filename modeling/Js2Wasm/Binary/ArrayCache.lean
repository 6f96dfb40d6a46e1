import Js2Wasm.Binary.Instr

/-! # Encoding instruction arrays

`makeInstrArrayEmitCache`, `finishInstrArrayUse` and `encodeInstrArray` of
`emit/binary.ts`.  Without a source map an array with several parents is encoded once for
each function and its bytes are kept until the last parent has used them; with a source map
every occurrence is encoded.  Both refuse an array that is met inside itself.
-/
namespace Js2Wasm.Binary

open Expansion SourceMap

variable {ν : Type} [DecidableEq ν]

/-! ### Counting parents -/

/-- The state of the loop that counts the incoming edges of every array. -/
structure ParentCount (ν : Type) where
  parentCounts : ν → Nat
  visited : List ν
  /-- The worklist, last pushed first. -/
  pending : List ν

def ParentCount.recordChild (s : ParentCount ν) (child : ν) : ParentCount ν where
  parentCounts := Function.update s.parentCounts child (s.parentCounts child + 1)
  visited := s.visited
  pending := if child ∈ s.visited then s.pending else child :: s.pending

theorem ParentCount.foldl_recordChild_visited (children : List ν) (s : ParentCount ν) :
    (children.foldl recordChild s).visited = s.visited := by
  induction children generalizing s with
  | nil => rfl
  | cons child children ih => exact ih (s.recordChild child)

theorem card_unvisited_lt [Fintype ν] {visited : List ν} {a : ν} (h : a ∉ visited) :
    (Finset.univ.filter (· ∉ a :: visited)).card < (Finset.univ.filter (· ∉ visited)).card := by
  apply Finset.card_lt_card
  refine Finset.ssubset_iff_of_subset (fun b hb => ?_) |>.mpr ⟨a, by simp [h], by simp⟩
  simp only [Finset.mem_filter, List.mem_cons, not_or] at hb ⊢
  exact ⟨hb.1, hb.2.2⟩

/-- The arrays inside an array, in the order in which they are recorded. -/
def arrayChildren (arrays : ν → List (Instr ν)) (instrs : ν) : List ν :=
  (arrays instrs).flatMap fun instr => instr.op.children arrays

/-- `while (pending.length > 0)`. -/
def countParents [Fintype ν] (children : ν → List ν) (s : ParentCount ν) : ν → Nat :=
  match _hpending : s.pending with
  | [] => s.parentCounts
  | instrs :: pending =>
    if instrs ∈ s.visited then countParents children { s with pending }
    else
      countParents children ((children instrs).foldl ParentCount.recordChild
        { s with visited := instrs :: s.visited, pending })
termination_by ((Finset.univ.filter (· ∉ s.visited)).card, s.pending.length)
decreasing_by
  · apply Prod.Lex.right
    simp [_hpending]
  · rw [ParentCount.foldl_recordChild_visited]
    exact .left _ _ (card_unvisited_lt ‹_›)

/-! ### The cache -/

structure InstrArrayEmitCache (ν : Type) where
  shared : ν → Bool
  bytes : ν → Option (List Byte)
  encoding : List ν
  remainingUses : ν → Option Nat

/-- Only arrays with more than one incoming edge are kept; the root has one to begin with. -/
def makeInstrArrayEmitCache [Fintype ν] (children : ν → List ν) (root : ν) :
    InstrArrayEmitCache ν :=
  let parentCounts := countParents children ⟨Function.update (fun _ => 0) root 1, [], [root]⟩
  { shared := fun instrs => 1 < parentCounts instrs
    bytes := fun _ => none
    encoding := []
    remainingUses := fun instrs =>
      if 1 < parentCounts instrs then some (parentCounts instrs) else none }

/-- Drop the bytes after the last use. -/
def finishInstrArrayUse (cache : InstrArrayEmitCache ν) (instrs : ν) : InstrArrayEmitCache ν :=
  let remaining := (cache.remainingUses instrs).getD 1 - 1
  if 0 < remaining then
    { cache with remainingUses := Function.update cache.remainingUses instrs (some remaining) }
  else
    { cache with
      remainingUses := Function.update cache.remainingUses instrs none
      bytes := Function.update cache.bytes instrs none }

/-! ### Encoding -/

/-- An entry of the recorder: the offset in the function body and the source position. -/
structure RecordedEntry where
  instrOffset : Nat
  sourcePos : SourcePos
  deriving DecidableEq

structure SourceMapRecordingContext (ν : Type) where
  entries : List RecordedEntry
  activeArrays : List ν

/-- What an encoder holds, the recorder when it records this encoder, and the cache. -/
structure EmitState (ν : Type) where
  enc : List Byte
  recording : Option (SourceMapRecordingContext ν) := none
  cache : Option (InstrArrayEmitCache ν) := none

abbrev Emit (α : Type) := Except (Failure CodegenError) α

def EmitState.write (s : EmitState ν) (bytes : List Byte) : EmitState ν :=
  { s with enc := s.enc ++ bytes }

/-- `if (instr.sourcePos) recording.entries.push(…)`. -/
def EmitState.record (s : EmitState ν) (instr : Instr ν) : EmitState ν :=
  { s with
    recording := s.recording.map fun recording =>
      match instr.sourcePos with
      | some sourcePos =>
        { recording with entries := recording.entries ++ [⟨s.enc.length, sourcePos⟩] }
      | none => recording }

/-- `recording.activeArrays.delete(instrs)`. -/
def EmitState.leave (s : EmitState ν) (instrs : ν) : EmitState ν :=
  { s with
    recording := s.recording.map fun recording =>
      { recording with activeArrays := recording.activeArrays.erase instrs } }

/-- Do the steps on the encoder; `encodeInstrArray` encodes the arrays inside. -/
def runSteps (encodeInstrArray : ν → EmitState ν → Emit (EmitState ν)) :
    Steps ν → EmitState ν → Emit (EmitState ν)
  | [], s => .ok s
  | .mark m :: rest, s => runSteps encodeInstrArray rest (s.record m)
  | .write bytes :: rest, s => runSteps encodeInstrArray rest (s.write bytes)
  | .refer instrs :: rest, s => encodeInstrArray instrs s >>= runSteps encodeInstrArray rest
  | .fail e :: _, _ => .error (.thrown e)

/-- Append the bytes of the child encoder and keep them for the next parent. -/
def EmitState.adopt (s : EmitState ν) (instrs : ν) (child : EmitState ν) : EmitState ν where
  enc := s.enc ++ child.enc
  recording := s.recording
  cache := child.cache.map fun cache =>
    { finishInstrArrayUse
        { cache with bytes := Function.update cache.bytes instrs (some child.enc) } instrs with
      encoding := cache.encoding.erase instrs }

section Encode

variable (arrays : ν → List (Instr ν)) (layout : ModuleLayout) (valCtx : Option EmitValidationCtx)

/-- `for (const instr of instrs) encodeInstr(instr, enc)`. -/
def plainSteps (instrs : ν) : Steps ν :=
  (arrays instrs).flatMap (encodeInstr arrays layout valCtx)

/-- `for (const instr of instrs) encodeInstrWithSourceMap(instr, enc, recording)`. -/
def recordedSteps (instrs : ν) : Steps ν :=
  (arrays instrs).flatMap (encodeInstrWithSourceMap arrays layout valCtx)

/-- `depth` bounds how far arrays are encoded inside each other. -/
def encodeInstrArray : Nat → ν → EmitState ν → Emit (EmitState ν)
  | 0, _, _ => .error .overflow
  | depth + 1, instrs, s =>
    match s.recording, s.cache with
    | some recording, _ =>
      if instrs ∈ recording.activeArrays then .error .cyclic
      else do
        let active := instrs :: recording.activeArrays
        let t ← runSteps (encodeInstrArray depth) (recordedSteps arrays layout valCtx instrs)
          { s with recording := some { recording with activeArrays := active } }
        return t.leave instrs
    | none, none =>
      runSteps (encodeInstrArray depth) (plainSteps arrays layout valCtx instrs) s
    | none, some cache =>
      if cache.shared instrs then
        match cache.bytes instrs with
        | some cached =>
          .ok { s with enc := s.enc ++ cached, cache := some (finishInstrArrayUse cache instrs) }
        | none =>
          if instrs ∈ cache.encoding then .error .cyclic
          else do
            let encoding := instrs :: cache.encoding
            let child ← runSteps (encodeInstrArray depth)
              (plainSteps arrays layout valCtx instrs)
              { enc := [], cache := some { cache with encoding } }
            return s.adopt instrs child
      else runSteps (encodeInstrArray depth) (plainSteps arrays layout valCtx instrs) s

end Encode

end Js2Wasm.Binary
