import Mathlib.Data.List.Basic

/-! # Bytecode and the per-instruction match predicates

The instruction records of a compiled program (`codegen/regex/bytecode.ts`) and
the predicates both reference matchers share (`codegen/regex/match-units.ts`):
what one consuming instruction accepts, and when one zero-width assertion holds.

Positions are integers, because a back-reference can move the subject position
outside the input; reading there yields `NaN`, which is `none` here. Every
comparison with `NaN` is false.
-/
namespace Js2Wasm.Regex

/-- Instruction opcodes (`ReOp`). -/
inductive ReOp where
  | CHAR | ANY | CLASS | SPLIT | JMP | SAVE | MATCH | BOL | EOL | CHARI | WBOUND | BACKREF
  | LOOKAROUND | PROGRESS | CLEAR | CPCLASS
  deriving DecidableEq

/-- One `[op, a, b]` record. -/
structure Instr where
  op : ReOp
  a : Nat := 0
  b : Nat := 0
  deriving DecidableEq

/-- The compiled program (`CompiledRegex`); the group-name map is not read by the
matchers. -/
structure CompiledRegex where
  prog : List Instr
  classTable : List Nat
  nGroups : Nat
  nScratch : Nat
  flags : Nat

/-- A subject string: its UTF-16 code units. -/
abbrev JsString := List UInt16

/-- `input.charCodeAt(i)`, `none` for `NaN`. -/
def charCodeAt (input : JsString) (i : Int) : Option Nat :=
  if 0 ≤ i then (input[i.toNat]?).map UInt16.toNat else none

/-- The binary search of `classMatch` over the ranges from `loIndex` to
`hiIndex`; `fuel` bounds the halvings. -/
def classSearch (classTable : List Nat) (offset : Nat) (c : Option Nat) :
    Nat → Int → Int → Bool
  | 0, _, _ => false
  | fuel + 1, loIndex, hiIndex =>
    if loIndex ≤ hiIndex then
      let mid := loIndex + (hiIndex - loIndex) / 2
      let p := offset + 1 + 2 * mid.toNat
      let lo := classTable.getD p 0
      let hi := classTable.getD (p + 1) 0
      match c with
      | none => true
      | some c =>
        if c < lo then classSearch classTable offset (some c) fuel loIndex (mid - 1)
        else if hi < c then classSearch classTable offset (some c) fuel (mid + 1) hiIndex
        else true
    else false

/-- Does code unit or code point `c` fall in the class at `classTable[offset]`? -/
def classMatch (classTable : List Nat) (offset : Nat) (c : Option Nat) (negated : Bool) : Bool :=
  let rangeCount := classTable.getD offset 0
  let inside := classSearch classTable offset c (rangeCount + 1) 0 (rangeCount - 1)
  if negated then !inside else inside

/-- ASCII-only case fold. -/
def asciiFold (code : Nat) : Nat :=
  if 0x41 ≤ code ∧ code ≤ 0x5a then code + 0x20 else code

def isLineTerminator (c : Nat) : Bool :=
  c == 0x0a || c == 0x0d || c == 0x2028 || c == 0x2029

/-- §22.2.2.6 IsWordChar, ASCII. -/
def isWordChar (c : Nat) : Bool :=
  (0x30 ≤ c && c ≤ 0x39) || (0x41 ≤ c && c ≤ 0x5a) || c == 0x5f || (0x61 ≤ c && c ≤ 0x7a)

/-- A line-terminator or word test on a unit that may be `NaN`. -/
def unitIs (p : Nat → Bool) (c : Option Nat) : Bool := c.any p

/-- Does the single-unit consumer `op` (CHAR / CHARI / ANY / CLASS) accept `c`? -/
def unitMatches (op : ReOp) (a b : Nat) (classTable : List Nat) (c : Option Nat) : Bool :=
  match op with
  | .CHAR => c == some a
  | .CHARI => c.map asciiFold == some a
  | .ANY => a != 0 || !unitIs isLineTerminator c
  | _ => classMatch classTable a c (b != 0)

/-- Does the zero-width assertion `op` (BOL / EOL / WBOUND) hold at `sp`? -/
def assertionHolds (op : ReOp) (a : Nat) (input : JsString) (sp : Int) : Bool :=
  match op with
  | .BOL => sp == 0 || (a != 0 && unitIs isLineTerminator (charCodeAt input (sp - 1)))
  | .EOL => sp == input.length || (a != 0 && unitIs isLineTerminator (charCodeAt input sp))
  | _ =>
    let before := if 0 < sp then unitIs isWordChar (charCodeAt input (sp - 1)) else false
    let after := if sp < input.length then unitIs isWordChar (charCodeAt input sp) else false
    let boundary := before != after
    if a != 0 then !boundary else boundary

/-- `lo ≤ c ≤ hi` for a unit that may be `NaN`. -/
def unitIn (lo hi : Nat) (c : Option Nat) : Bool := c.any fun c => lo ≤ c && c ≤ hi

/-- Is `c` a lead, or a trail, surrogate? -/
def isLead (c : Option Nat) : Bool := unitIn 0xd800 0xdbff c
def isTrail (c : Option Nat) : Bool := unitIn 0xdc00 0xdfff c

/-- The code point of a surrogate pair. -/
def pairCodePoint (lead trail : Nat) : Nat :=
  0x10000 + ((lead - 0xd800) * 0x400) + (trail - 0xdc00)

/-- The code point a forward CPCLASS consumes at `sp`: a valid pair combines, a
lone surrogate stands alone. Outer `none` is the source's `-1` (`sp` is the trail
half of a pair); inner `none` is `NaN`. -/
def forwardCodePoint (input : JsString) (sp : Int) : Option (Option Nat) :=
  let u := charCodeAt input sp
  if isLead u && sp + 1 < input.length then
    let trail := charCodeAt input (sp + 1)
    some (if isTrail trail then some (pairCodePoint (u.getD 0) (trail.getD 0)) else u)
  else if isTrail u && 0 < sp && isLead (charCodeAt input (sp - 1)) then none
  else some u

end Js2Wasm.Regex
