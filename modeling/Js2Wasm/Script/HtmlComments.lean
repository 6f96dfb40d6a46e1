import Mathlib.Data.List.Sort

/-! # HTML-like comments of scripts

A text is a list of UTF-16 code units.  Annex B of the language lets `<!--` and, at the
start of a line, `-->` begin a comment, which TypeScript does not know: the normalization
writes spaces over these comments before the text is parsed.  The spans of the literals,
in which a marker is text, it takes from a parse of the text as it stands. -/

namespace Js2Wasm.Script

abbrev Text := List Nat

/-- A literal of the parse, from `start` up to `stop`. -/
structure ProtectedSpan where
  start : Nat
  stop : Nat
deriving DecidableEq

/-! ### Characters -/

def isLineTerminator (u : Nat) : Bool := u == 0x0a || u == 0x0d || u == 0x2028 || u == 0x2029

/-- `\s` of regular expressions -/
def isSpace (u : Nat) : Bool :=
  (0x09 ≤ u && u ≤ 0x0d) || u == 0x20 || u == 0xa0 || u == 0x1680 ||
    (0x2000 ≤ u && u ≤ 0x200a) || u == 0x2028 || u == 0x2029 || u == 0x202f || u == 0x205f ||
    u == 0x3000 || u == 0xfeff

def isWhiteSpace (u : Nat) : Bool := !isLineTerminator u && isSpace u

def space : Nat := 0x20

/-- `<!--` -/
def htmlOpen : Text := [0x3c, 0x21, 0x2d, 0x2d]

/-- `-->` -/
def htmlClose : Text := [0x2d, 0x2d, 0x3e]

/-- `//` -/
def lineComment : Text := [0x2f, 0x2f]

/-- `/*` -/
def blockOpen : Text := [0x2f, 0x2a]

/-- `*/` -/
def blockClose : Text := [0x2a, 0x2f]

/-! ### Strings -/

/-- The first place of the pattern in a text that starts at place `i`. -/
def indexOf (pat : Text) : Text → Nat → Option Nat
  | [], _ => none
  | u :: s, i => if pat.isPrefixOf (u :: s) then some i else indexOf pat s (i + 1)

def includes (pat source : Text) : Bool := (indexOf pat source 0).isSome

/-- `lineEnd`, on the text from place `i` on -/
def lineEnd : Text → Nat → Nat
  | [], i => i
  | u :: s, i => if isLineTerminator u then i else lineEnd s (i + 1)

def isHighSurrogate (u : Nat) : Bool := 0xd800 ≤ u && u < 0xdc00

def isLowSurrogate (u : Nat) : Bool := 0xdc00 ≤ u && u < 0xe000

/-- `[...source]`: an element for every code point. -/
def codePoints : Text → List Text
  | [] => []
  | [u] => [[u]]
  | u :: v :: s =>
    if isHighSurrogate u && isLowSurrogate v then [u, v] :: codePoints s
    else [u] :: codePoints (v :: s)

/-- `output[cursor] = x`: an array grows, and its missing elements join as the empty text. -/
def setElement (output : List Text) (cursor : Nat) (x : Text) : List Text :=
  if cursor < output.length then output.set cursor x
  else output ++ List.replicate (cursor - output.length) [] ++ [x]

/-- The loop of `maskToLineEnd`: `n` spaces from `cursor` on. -/
def fillSpaces : Nat → Nat → List Text → List Text
  | 0, _, output => output
  | n + 1, cursor, output => fillSpaces n (cursor + 1) (setElement output cursor [space])

/-! ### The scan -/

/-- The spans by their start, of one start by their end. -/
def spanLe (left right : ProtectedSpan) : Bool :=
  left.start < right.start || left.start == right.start && left.stop ≤ right.stop

section
variable (parse : Text → List ProtectedSpan) (source : Text)

/-- `collectLiteralSpans`; the literal tokens of TypeScript's parse are given. -/
def collectLiteralSpans : List ProtectedSpan := (parse source).mergeSort spanLe

/-- The variables of the scan; `spans` are those from `spanIndex` on. -/
structure Scan where
  index : Nat
  spans : List ProtectedSpan
  atHtmlClosePrefix : Bool
  output : Option (List Text)

/-- `maskToLineEnd`, from the index of the scan -/
def Scan.mask (st : Scan) : Scan :=
  let stop := lineEnd (source.drop st.index) st.index
  let output := st.output.getD (codePoints source)
  { st with index := stop, output := some (fillSpaces (stop - st.index) st.index output) }

/-- One round of the scan outside of the literals. -/
def Scan.char (st : Scan) : Scan :=
  match source.drop st.index with
  | [] => st
  | u :: s =>
    let rest := u :: s
    if isLineTerminator u then { st with atHtmlClosePrefix := true, index := st.index + 1 }
    else if isWhiteSpace u then { st with index := st.index + 1 }
    else if lineComment.isPrefixOf rest then { st with index := lineEnd rest st.index }
    else if blockOpen.isPrefixOf rest then
      let stop := (indexOf blockClose (rest.drop 2) (st.index + 2)).elim source.length (· + 2)
      let body := (rest.drop 2).take (stop - (st.index + 2))
      { st with atHtmlClosePrefix := st.atHtmlClosePrefix || body.any isLineTerminator
                index := stop }
    else if htmlOpen.isPrefixOf rest then st.mask source
    else if st.atHtmlClosePrefix && htmlClose.isPrefixOf rest then st.mask source
    else { st with atHtmlClosePrefix := false, index := st.index + 1 }

/-- One round of the scan. -/
def Scan.step (st : Scan) : Scan :=
  match st.spans.dropWhile fun s => s.stop ≤ st.index with
  | [] => Scan.char source { st with spans := [] }
  | literal :: rest =>
    if literal.start = st.index then
      { st with spans := rest, atHtmlClosePrefix := false, index := literal.stop }
    else Scan.char source { st with spans := literal :: rest }

/-- The scan.  A round moves the index on or, over an empty span, drops a span. -/
def scan : Nat → Scan → Scan
  | 0, st => st
  | fuel + 1, st => if st.index < source.length then scan fuel (st.step source) else st

/-- `normalizeScriptHtmlLikeComments` -/
def normalizeScriptHtmlLikeComments : Text :=
  if !includes htmlOpen source && !includes htmlClose source then source
  else
    let literalSpans := collectLiteralSpans parse source
    let st := scan source (source.length + literalSpans.length) ⟨0, literalSpans, true, none⟩
    st.output.elim source List.flatten

end

end Js2Wasm.Script
