import Js2Wasm.Regex.Ast
import Js2Wasm.Regex.Bytecode
import Js2Wasm.Regex.Casefold

/-! # Character classes in the pattern parser

The part of the recursive-descent parser (`codegen/regex/parse.ts`) that reads a
`[…]` class outside the code-point modes, and the escapes it shares with the
parser of atoms. The cursor of the source is kept as the text that is left:
`peek` reads its head, `next` drops it, and a saved position is an earlier text.
An error is the message of the `RegexUnsupportedError`.
-/
namespace Js2Wasm.Regex

/-- A code unit is the given ASCII character. -/
def isUnit (c : Char) (u : UInt16) : Bool := u.toNat == c.toNat

/-- A code unit lies between two ASCII characters. -/
def unitBetween (lo hi : Char) (u : UInt16) : Bool := lo.toNat ≤ u.toNat && u.toNat ≤ hi.toNat

/-- `/[0-9a-fA-F]/`. -/
def isHexDigit (u : UInt16) : Bool :=
  unitBetween '0' '9' u || unitBetween 'a' 'f' u || unitBetween 'A' 'F' u

/-- The value of a hexadecimal digit. -/
def hexValue (u : UInt16) : Nat :=
  if unitBetween '0' '9' u then u.toNat - 0x30
  else if unitBetween 'a' 'f' u then u.toNat - 0x57
  else u.toNat - 0x37

/-- `parseInt(digits, 16)` over digits already checked. -/
def parseHex (digits : JsString) : Nat := digits.foldl (fun v d => 16 * v + hexValue d) 0

/-! ### Shorthand sets -/

def DIGIT : List (Nat × Nat) := [(0x30, 0x39)]

def WORD : List (Nat × Nat) := [(0x30, 0x39), (0x41, 0x5a), (0x5f, 0x5f), (0x61, 0x7a)]

def SPACE : List (Nat × Nat) :=
  [(0x09, 0x0d), (0x20, 0x20), (0xa0, 0xa0), (0x1680, 0x1680), (0x2000, 0x200a),
    (0x2028, 0x2029), (0x202f, 0x202f), (0x205f, 0x205f), (0x3000, 0x3000), (0xfeff, 0xfeff)]

/-- The gaps that sorted ranges leave from `next` on. -/
def gapsFrom (next : Nat) : List (Nat × Nat) → List (Nat × Nat)
  | [] => if next ≤ 0xffff then [(next, 0xffff)] else []
  | (lo, hi) :: rest =>
    (if next < lo then [(next, lo - 1)] else []) ++ gapsFrom (max next (hi + 1)) rest

/-- Complement a range list over the code units `0..0xffff`. -/
def complementRanges (ranges : List (Nat × Nat)) : List (Nat × Nat) :=
  gapsFrom 0 (ranges.insertionSort fun a b => a.1 ≤ b.1)

def NOT_DIGIT : List (Nat × Nat) := complementRanges DIGIT
def NOT_WORD : List (Nat × Nat) := complementRanges WORD
def NOT_SPACE : List (Nat × Nat) := complementRanges SPACE

/-- What the gaps of sorted ranges hold: the units from `next` on that no range
holds. -/
theorem inRanges_gapsFrom {u : Nat} (hu : u ≤ 0xffff) (ranges : List (Nat × Nat)) (next : Nat)
    (hsorted : ranges.Pairwise fun a b => a.1 ≤ b.1) :
    inRanges (gapsFrom next ranges) u = true ↔ next ≤ u ∧ inRanges ranges u = false := by
  induction ranges generalizing next with
  | nil =>
    unfold gapsFrom
    split <;> simp [inRanges_cons] <;> omega
  | cons r rest ih =>
    obtain ⟨hr, hrest⟩ := List.pairwise_cons.mp hsorted
    have hgap : inRanges (if next < r.1 then [(next, r.1 - 1)] else []) u = true ↔
        next ≤ u ∧ u < r.1 := by
      split <;> simp [inRanges_cons] <;> omega
    rw [gapsFrom, inRanges_append, Bool.or_eq_true, hgap, ih _ hrest, inRanges_cons]
    -- below the range no later range can start
    have hbelow : u < r.1 → inRanges rest u = false := by
      intro hlt
      rw [Bool.eq_false_iff, ne_eq, inRanges_eq_true]
      rintro ⟨x, hx, hlo, -⟩
      exact absurd (hr x hx) (by omega)
    simp only [Bool.or_eq_false_iff, Bool.and_eq_false_iff, decide_eq_false_iff_not]
    constructor
    · rintro (⟨h1, h2⟩ | ⟨h1, h2⟩)
      · exact ⟨h1, .inl (by omega), hbelow h2⟩
      · exact ⟨by omega, .inr (by omega), h2⟩
    · rintro ⟨h1, h2, h3⟩
      by_cases hlt : u < r.1
      · exact .inl ⟨h1, hlt⟩
      · exact .inr ⟨by omega, h3⟩

/-- **The complement holds exactly the units the ranges do not.** -/
theorem inRanges_complementRanges {u : Nat} (hu : u ≤ 0xffff) (ranges : List (Nat × Nat)) :
    inRanges (complementRanges ranges) u = !inRanges ranges u := by
  have hsorted := ranges.pairwise_insertionSort fun a b : Nat × Nat => a.1 ≤ b.1
  have hgaps := inRanges_gapsFrom hu _ 0 hsorted
  rw [inRanges_perm (ranges.perm_insertionSort _)] at hgaps
  rw [complementRanges, Bool.eq_iff_iff, hgaps]
  simp

/-! ### Escapes -/

/-- The digit loop of `parseLegacyOctal`: at most `n` further octal digits while
the value stays within `0o377`. -/
def octalDigits : Nat → Nat → JsString → Nat × JsString
  | n + 1, v, d :: rest =>
    if unitBetween '0' '7' d then
      let nv := v * 8 + (d.toNat - 0x30)
      if 0o377 < nv then (v, d :: rest) else octalDigits n nv rest
    else (v, d :: rest)
  | _, v, rest => (v, rest)

/-- Annex B LegacyOctalEscapeSequence; the cursor sits on the first digit. -/
def parseLegacyOctal (src : JsString) : Nat × JsString := octalDigits 3 0 src

/-- `count` hexadecimal digits at the cursor, read without consuming when there
are fewer. -/
def hexDigits (count : Nat) (src : JsString) : Option (Nat × JsString) :=
  if (src.take count).length = count ∧ (src.take count).all isHexDigit then
    some (parseHex (src.take count), src.drop count)
  else none

/-- Does `l` form a control escape after `\c`? -/
def isControlLetter (unicode inClass : Bool) (l : UInt16) : Bool :=
  (unitBetween 'A' 'Z' l || unitBetween 'a' 'z' l) ||
    (inClass && !unicode && (unitBetween '0' '9' l || isUnit '_' l))

/-- The code unit denoted by an escape, with the backslash already consumed. -/
def parseEscapedCodeUnit (unicode inClass : Bool) : JsString → Except String (Nat × JsString)
  | [] => .error "unexpected end of pattern"
  | e :: rest =>
    if isUnit 'n' e then .ok (0x0a, rest)
    else if isUnit 'r' e then .ok (0x0d, rest)
    else if isUnit 't' e then .ok (0x09, rest)
    else if isUnit 'f' e then .ok (0x0c, rest)
    else if isUnit 'v' e then .ok (0x0b, rest)
    else if unitBetween '0' '7' e then .ok (parseLegacyOctal (e :: rest))
    else if unitBetween '8' '9' e then .ok (e.toNat, rest)
    else if isUnit 'c' e then
      match rest.head?.filter (isControlLetter unicode inClass) with
      | some l => .ok (l.toNat % 32, rest.tail)
      -- the `c` is not consumed: the escape is the reverse solidus itself
      | none => if !unicode then .ok (0x5c, e :: rest) else .error "\\c without a control letter"
    else if isUnit 'x' e then
      match hexDigits 2 rest with
      | some (v, rest) => .ok (v, rest)
      | none => if !unicode then .ok (0x78, rest) else .error "bad \\x escape"
    else if isUnit 'u' e then
      if rest.head?.any (isUnit '{') then
        .error "\\u\x7b…\x7d code-point escape — #1539 Phase 2c/2d"
      else
        match hexDigits 4 rest with
        | some (v, rest) => .ok (v, rest)
        | none => if !unicode then .ok (0x75, rest) else .error "bad \\u escape"
    else .ok (e.toNat, rest)

/-! ### Class members -/

/-- What `parseClassMember` returns: one code unit, or the ranges of a shorthand. -/
inductive ClassMember where
  | char (code : Nat)
  | shorthand (ranges : List (Nat × Nat))
  deriving DecidableEq

/-- One member of a class. -/
def parseClassMember (unicode : Bool) : JsString → Except String (ClassMember × JsString)
  | [] => .error "unexpected end of pattern"
  | c :: rest =>
    if isUnit '\\' c then
      match rest with
      | e :: after =>
        if isUnit 'd' e then .ok (.shorthand DIGIT, after)
        else if isUnit 'w' e then .ok (.shorthand WORD, after)
        else if isUnit 's' e then .ok (.shorthand SPACE, after)
        else if isUnit 'D' e then .ok (.shorthand NOT_DIGIT, after)
        else if isUnit 'W' e then .ok (.shorthand NOT_WORD, after)
        else if isUnit 'S' e then .ok (.shorthand NOT_SPACE, after)
        else if isUnit 'b' e then .ok (.char 0x08, after)
        else (parseEscapedCodeUnit unicode true rest).map fun p => (.char p.1, p.2)
      | [] => (parseEscapedCodeUnit unicode true rest).map fun p => (.char p.1, p.2)
    else .ok (.char c.toNat, rest)

/-- The text after a `-` that is followed by neither `]` nor the end. -/
def dashOperand : JsString → Option JsString
  | d :: c :: rest => if isUnit '-' d && !isUnit ']' c then some (c :: rest) else none
  | _ => none

/-- One round of the member loop: the ranges it pushes and the text left. -/
def parseClassItem (unicode : Bool) (src : JsString) :
    Except String (List (Nat × Nat) × JsString) := do
  let (member, rest) ← parseClassMember unicode src
  match member, dashOperand rest with
  -- a `-` after a shorthand is a literal, and the next member starts afresh
  | .shorthand ranges, some rest => return (ranges ++ [(0x2d, 0x2d)], rest)
  | .shorthand ranges, none => return (ranges, rest)
  | .char lo, none => return ([(lo, lo)], rest)
  | .char lo, some rest =>
    let (hiMember, rest) ← parseClassMember unicode rest
    match hiMember with
    | .shorthand ranges => return ((lo, lo) :: (0x2d, 0x2d) :: ranges, rest)
    | .char hi => if hi < lo then throw "class range out of order" else return ([(lo, hi)], rest)

/-- The member loop, up to the closing bracket or the end of the text. Every round
consumes a code unit, so as many rounds as units are enough. -/
def parseClassItems (unicode : Bool) : Nat → JsString → Except String (List (Nat × Nat) × JsString)
  | 0, src => .ok ([], src)
  | rounds + 1, src =>
    if src.head?.all (isUnit ']') then .ok ([], src)
    else do
      let (ranges, rest) ← parseClassItem unicode src
      let (more, rest) ← parseClassItems unicode rounds rest
      return (ranges ++ more, rest)

/-- `parseClass`: the cursor sits on the opening bracket. -/
def parseClass (unicode : Bool) (src : JsString) : Except String (ReNode × JsString) := do
  let src ← match src with
    | [] => throw "unexpected end of pattern"
    | _ :: src => pure src
  let negated := src.head?.any (isUnit '^')
  let src := if negated then src.tail else src
  let (ranges, rest) ← parseClassItems unicode src.length src
  if rest.head?.any (isUnit ']') then return (.cls ranges negated, rest.tail)
  else throw "unterminated character class"

end Js2Wasm.Regex
