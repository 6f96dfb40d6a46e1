import Js2Wasm.Regex.Ast
import Js2Wasm.Regex.Bytecode
import Js2Wasm.Regex.Casefold

/-! # The bytecode emitter

The lowering of a syntax tree to a flat program (`codegen/regex/compile.ts`,
`Emitter`): instructions are appended, branch targets are patched once they are
known, each nullable loop claims a scratch slot, and lookaround bodies wait in a
queue until the main program is complete.

`literalTrie` says whether an alternation of literals is grouped by first
characters; the compiler does so, and turning it off gives the plain chain of
splits.
-/
namespace Js2Wasm.Regex

/-- Bounded repetition expansion guard. -/
def MAX_REPEAT_EXPANSION : Nat := 1000

/-- The flags an inline modifier group scopes. -/
structure Mode where
  caseInsensitive : Bool
  dotAll : Bool
  multiline : Bool
  deriving DecidableEq

/-- What stays the same over one compilation. -/
structure Options where
  host : HostUpperCase
  unicode : Bool
  literalTrie : Bool

/-- A lookaround body queued for sub-program emission, with the flags at its place. -/
structure PendingSub where
  node : ReNode
  patchPc : Nat
  reversed : Bool
  mode : Mode

/-- The emitter's state. -/
structure Emitter where
  instrs : List Instr
  classTable : List Nat
  mode : Mode
  reversed : Bool
  pendingSubs : List PendingSub
  scratchCount : Nat
  scratchBase : Nat

/-- A step of the emitter; an error is the message of a `RepeatTooLargeError`. -/
abbrev Emission := Emitter → Except String Emitter

namespace Emitter

/-- The next program counter. -/
def here (em : Emitter) : Nat := em.instrs.length

/-- Append an instruction. -/
def emit (op : ReOp) (a b : Nat) (em : Emitter) : Emitter :=
  { em with instrs := em.instrs ++ [⟨op, a, b⟩] }

def patchA (pc a : Nat) (em : Emitter) : Emitter :=
  { em with instrs := em.instrs.modify pc fun i => { i with a := a } }

def patchB (pc b : Nat) (em : Emitter) : Emitter :=
  { em with instrs := em.instrs.modify pc fun i => { i with b := b } }

/-- The slot that the next PROGRESS guard gets. -/
def slot (em : Emitter) : Nat := em.scratchBase + em.scratchCount

/-- Claim the next scratch slot. -/
def allocScratch (em : Emitter) : Emitter := { em with scratchCount := em.scratchCount + 1 }

/-- The CLEAR at the head of a quantifier's iteration. -/
def emitClearForBody (body : ReNode) (em : Emitter) : Emitter :=
  match captureSpan body with
  | none => em
  | some (lo, hi) => em.emit .CLEAR (2 * lo) (2 * hi + 1)

/-- The class-table record of a range list. -/
def classRecord (ranges : List (Nat × Nat)) : List Nat :=
  let normalized := mergeRanges ranges
  normalized.length :: normalized.flatMap fun r => [r.1, r.2]

/-- Add a class to the class table; its start offset. -/
def addClass (ranges : List (Nat × Nat)) (em : Emitter) : Nat × Emitter :=
  (em.classTable.length, { em with classTable := em.classTable ++ classRecord ranges })

/-- Emit the instruction that reads a class which is added to the table. -/
def emitClass (op : ReOp) (ranges : List (Nat × Nat)) (negated : Bool) (em : Emitter) : Emitter :=
  let (offset, em) := em.addClass ranges
  em.emit op offset (if negated then 1 else 0)

/-- Point a SPLIT at its body and its exit, in the order of preference. -/
def patchSplit (pc : Nat) (greedy : Bool) (body exit : Nat) (em : Emitter) : Emitter :=
  if greedy then (em.patchA pc body).patchB pc exit else (em.patchA pc exit).patchB pc body

end Emitter

/-! ### Sequences and branches -/

/-- One step after the other. -/
def emitSeq : List Emission → Emission
  | [], em => .ok em
  | part :: parts, em => do emitSeq parts (← part em)

/-- The loop over the branches of an alternation: all but the last stand behind a
SPLIT and in front of a JMP whose target is still open. -/
def emitBranchesFrom : List Emission → List Nat → Emitter → Except String (Emitter × List Nat)
  | [], jmpEnds, em => .ok (em, jmpEnds)
  | [branch], jmpEnds, em => do return (← branch em, jmpEnds)
  | branch :: branches, jmpEnds, em => do
    let split := em.here
    let em := em.emit .SPLIT 0 0
    let em := em.patchA split em.here
    let em ← branch em
    let jmp := em.here
    let em := em.emit .JMP 0 0
    let em := em.patchB split em.here
    emitBranchesFrom branches (jmpEnds ++ [jmp]) em

/-- The branches of an alternation, and the patches of their ends. -/
def emitBranches (branches : List Emission) : Emission := fun em => do
  let (em, jmpEnds) ← emitBranchesFrom branches [] em
  let exit := em.here
  return jmpEnds.foldl (fun em j => em.patchA j exit) em

/-! ### Literal alternations -/

/-- The code of a `char` node. -/
def charCode : ReNode → Option Nat
  | .char code => some code
  | _ => none

/-- Pure-literal codes of a node. -/
def literalCodes : ReNode → Option (List Nat)
  | .char code => some [code]
  | .concat parts => parts.mapM charCode
  | _ => none

/-- A branch of the shared-prefix emission. -/
inductive LitBranch where
  | eps
  | char (c : Nat) (suffixes : List (List Nat))
  deriving DecidableEq

/-- Add a suffix to a group. -/
def LitBranch.push (suffix : List Nat) : LitBranch → LitBranch
  | .eps => .eps
  | .char c suffixes => .char c (suffixes ++ [suffix])

/-- Group one literal: under its first character where a group for it is open; an
empty literal closes all groups. -/
def groupLit (acc : List LitBranch × List (Nat × Nat)) : List Nat → List LitBranch × List (Nat × Nat)
  | [] => (acc.1 ++ [.eps], [])
  | c :: suffix =>
    match acc.2.lookup c with
    | some gi => (acc.1.modify gi (·.push suffix), acc.2)
    | none => (acc.1 ++ [.char c [suffix]], (c, acc.1.length) :: acc.2)

/-- The branches of a list of literals. -/
def groupLits (lits : List (List Nat)) : List LitBranch := (lits.foldl groupLit ([], [])).1

/-- CHAR after CHAR. -/
def emitChars (codes : List Nat) (em : Emitter) : Emitter :=
  codes.foldl (fun em code => em.emit .CHAR code 0) em

/-- `emitLitAltGrouped`; each level strips one character, so `levels` of them are
enough where no literal is that long. -/
def emitLitAltGrouped : Nat → List (List Nat) → Emission
  | 0, _ => .ok
  | levels + 1, lits => emitBranches <| (groupLits lits).map fun b =>
    match b with
    | .eps => .ok
    | .char c [suffix] => fun em => .ok (emitChars suffix (em.emit .CHAR c 0))
    | .char c suffixes => fun em => emitLitAltGrouped levels suffixes (em.emit .CHAR c 0)

/-- The literals of an alternation that `tryEmitLiteralAltTrie` accepts. -/
def trieLiterals (o : Options) (mode : Mode) (options : List ReNode) : Option (List (List Nat)) :=
  if !o.literalTrie || mode.caseInsensitive || options.length < 4 then none
  else do
    let lits ← options.mapM literalCodes
    if lits.any (·.isEmpty) then none else some lits

/-! ### Quantifiers -/

/-- `star`: SAVE?; L1: SPLIT body, exit; CLEAR?; body; PROGRESS?; JMP L1; exit. -/
def emitStar (node : ReNode) (greedy : Bool) (body : Emission) : Emission := fun em => do
  let guard := em.slot
  let nullable := canMatchEmpty node
  let em := if nullable then em.allocScratch.emit .SAVE guard 0 else em
  let l1 := em.here
  let em := em.emit .SPLIT 0 0
  let bodyStart := em.here
  let em ← body (em.emitClearForBody node)
  let em := if nullable then em.emit .PROGRESS guard 0 else em
  let em := em.emit .JMP (if nullable then l1 - 1 else l1) 0
  return em.patchSplit l1 greedy bodyStart em.here

/-- `plus`: a nullable body is one mandatory match and a guarded star; another one is
L1: CLEAR?; body; SPLIT L1, exit; exit. -/
def emitPlus (node : ReNode) (greedy : Bool) (body : Emission) : Emission := fun em => do
  if canMatchEmpty node then
    -- the slot claimed here stays unused: the star claims its own
    let em ← body (em.allocScratch.emitClearForBody node)
    emitStar node greedy body em
  else
    let l1 := em.here
    let em ← body (em.emitClearForBody node)
    let split := em.here
    let em := em.emit .SPLIT 0 0
    return em.patchSplit split greedy l1 em.here

/-- `opt`: SPLIT body, exit; body; exit. -/
def emitOpt (greedy : Bool) (body : Emission) : Emission := fun em => do
  let split := em.here
  let em := em.emit .SPLIT 0 0
  let bodyStart := em.here
  let em ← body em
  return em.patchSplit split greedy bodyStart em.here

/-- `{min,max}`: mandatory copies and an optional or starred tail. -/
def compileRepeat (node : ReNode) (min : Nat) (max : Option Nat) (greedy : Bool) (body : Emission) :
    Emission := fun em =>
  match max with
  | none => do
    let em ← emitSeq (List.replicate min body) em
    emitStar node greedy body em
  | some max =>
    if MAX_REPEAT_EXPANSION < max ∨ MAX_REPEAT_EXPANSION < min then
      .error s!"\x7b{min},{max}\x7d exceeds expansion cap"
    else do
      let em ← emitSeq (List.replicate min body) em
      emitSeq (List.replicate (max - min) (emitOpt greedy body)) em

/-! ### Nodes -/

/-- The flags inside an inline modifier group. -/
def Mode.modified (mode : Mode) (add remove : Nat) : Mode where
  caseInsensitive := (mode.caseInsensitive || hasFlag add RE_FLAG_I) && !hasFlag remove RE_FLAG_I
  dotAll := (mode.dotAll || hasFlag add RE_FLAG_S) && !hasFlag remove RE_FLAG_S
  multiline := (mode.multiline || hasFlag add RE_FLAG_M) && !hasFlag remove RE_FLAG_M

/-- The code points of a `.` in the code-point modes. -/
def dotCpRanges (dotAll : Bool) : List (Nat × Nat) :=
  if dotAll then [(0, 0x10ffff)]
  else [(0, 0x09), (0x0b, 0x0c), (0x0e, 0x2027), (0x202a, 0x10ffff)]

/-- A Boolean operand. -/
def bit (b : Bool) : Nat := if b then 1 else 0

/-- A single code unit. -/
def emitChar (o : Options) (code : Nat) (em : Emitter) : Emitter :=
  if !em.mode.caseInsensitive then em.emit .CHAR code 0
  else if o.unicode then em.emit .CHARI (asciiFold code) 0
  else
    match foldCharUnitsLegacy o.host code with
    | [unit] => em.emit .CHAR unit 0
    | units => em.emitClass .CLASS (unitsToRanges units) false

/-- The ranges of a class under the current flags. -/
def foldedRanges (o : Options) (mode : Mode) (ranges : List (Nat × Nat)) : List (Nat × Nat) :=
  if mode.caseInsensitive then
    if o.unicode then foldClassRangesAscii ranges else foldClassRangesLegacy o.host ranges
  else ranges

/-- A capturing group: a reversed body records its end first. -/
def emitGroup (capIndex : Nat) (body : Emission) : Emission := fun em => do
  let first := if em.reversed then 2 * capIndex + 1 else 2 * capIndex
  let second := if em.reversed then 2 * capIndex else 2 * capIndex + 1
  let em ← body (em.emit .SAVE first 0)
  return em.emit .SAVE second 0

/-- A lookaround: the instruction now, the body later. -/
def emitLookaround (node : ReNode) (negated behind : Bool) (em : Emitter) : Emitter :=
  let sub : PendingSub := ⟨if behind then reverseNode node else node, em.here, behind, em.mode⟩
  { em.emit .LOOKAROUND 0 (bit negated + 2 * bit behind) with
    pendingSubs := em.pendingSubs ++ [sub] }

mutual

/-- `compileNode`. -/
def compileNode (o : Options) : ReNode → Emission
  | .char code => fun em => .ok (emitChar o code em)
  | .any => fun em => .ok (em.emit .ANY (bit em.mode.dotAll) 0)
  | .udot => fun em => .ok (em.emitClass .CPCLASS (dotCpRanges em.mode.dotAll) false)
  | .cls ranges negated => fun em =>
    .ok (em.emitClass .CLASS (foldedRanges o em.mode ranges) negated)
  | .cpclass ranges negated => fun em => .ok (em.emitClass .CPCLASS ranges negated)
  | .bol => fun em => .ok (em.emit .BOL (bit em.mode.multiline) 0)
  | .eol => fun em => .ok (em.emit .EOL (bit em.mode.multiline) 0)
  | .wordBoundary negated => fun em => .ok (em.emit .WBOUND (bit negated) 0)
  | .backref index => fun em => .ok (em.emit .BACKREF index (bit em.mode.caseInsensitive))
  | .lookaround node negated behind => fun em => .ok (emitLookaround node negated behind em)
  | .modGroup add remove node => fun em => do
    let em' ← compileNode o node { em with mode := em.mode.modified add remove }
    return { em' with mode := em.mode }
  | .concat parts => emitSeq (compileNodes o parts)
  | .alt options => fun em =>
    match trieLiterals o em.mode options with
    | some lits => emitLitAltGrouped (lits.flatten.length + 1) lits em
    | none => emitBranches (compileNodes o options) em
  | .star node greedy => emitStar node greedy (compileNode o node)
  | .plus node greedy => emitPlus node greedy (compileNode o node)
  | .opt node greedy => emitOpt greedy (compileNode o node)
  | .repeat_ node min max greedy => compileRepeat node min max greedy (compileNode o node)
  | .group node none => compileNode o node
  | .group node (some capIndex) => emitGroup capIndex (compileNode o node)

/-- The steps of several nodes. -/
def compileNodes (o : Options) : List ReNode → List Emission
  | [] => []
  | node :: nodes => compileNode o node :: compileNodes o nodes

end

/-! ### Lookaround bodies and the whole program -/

mutual

/-- How many sub-programs a node queues, those of their own bodies included. -/
def subCount : ReNode → Nat
  | .lookaround node _ _ => subCount node + 1
  | .modGroup _ _ node | .opt node _ | .star node _ | .group node _ => subCount node
  | .plus node _ => if canMatchEmpty node then 2 * subCount node else subCount node
  | .repeat_ node min none _ => (min + 1) * subCount node
  | .repeat_ node min (some max) _ => (min + (max - min)) * subCount node
  | .concat parts => subCountAll parts
  | .alt options => subCountAll options
  | _ => 0

def subCountAll : List ReNode → Nat
  | [] => 0
  | node :: nodes => subCount node + subCountAll nodes

end

/-- Emit the queued lookaround bodies, each with its MATCH; `subs` bounds how many
there are. -/
def drainPendingSubs (o : Options) : Nat → Emission
  | 0, em => .ok em
  | subs + 1, em =>
    match em.pendingSubs with
    | [] => .ok em
    | sub :: pendingSubs => do
      let em := { em with pendingSubs := pendingSubs }.patchA sub.patchPc em.here
      let em' ← compileNode o sub.node { em with mode := sub.mode, reversed := sub.reversed }
      let em' := em'.emit .MATCH 0 0
      drainPendingSubs o subs { em' with mode := em.mode, reversed := em.reversed }

/-- A parsed pattern, with its groups numbered within the count. -/
structure ParsedRegex where
  root : ReNode
  numCaptures : Nat
  numbered : ∀ k ∈ captures root, 0 < k ∧ k ≤ numCaptures

/-- The emitter before the first instruction. -/
def Emitter.start (mode : Mode) (reversed : Bool) (scratchBase : Nat) : Emitter where
  instrs := []
  classTable := []
  mode := mode
  reversed := reversed
  pendingSubs := []
  scratchCount := 0
  scratchBase := scratchBase

/-- The flags of a pattern as the emitter's mode. -/
def Mode.ofFlags (flags : Nat) : Mode where
  caseInsensitive := hasFlag flags RE_FLAG_I
  dotAll := hasFlag flags RE_FLAG_S
  multiline := hasFlag flags RE_FLAG_M

/-- `compileParsed`. -/
def compileParsed (host : HostUpperCase) (literalTrie : Bool) (parsed : ParsedRegex) (flags : Nat) :
    Except String CompiledRegex := do
  let o : Options := ⟨host, hasFlag flags (RE_FLAG_U ||| RE_FLAG_V), literalTrie⟩
  let nGroups := parsed.numCaptures + 1
  let em := Emitter.start (Mode.ofFlags flags) false (2 * nGroups)
  let em ← compileNode o parsed.root (em.emit .SAVE 0 0)
  let em := (em.emit .SAVE 1 0).emit .MATCH 0 0
  let em ← drainPendingSubs o (subCount parsed.root) em
  return ⟨em.instrs, em.classTable, nGroups, em.scratchCount, flags⟩

end Js2Wasm.Regex
