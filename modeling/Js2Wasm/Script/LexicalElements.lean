import Js2Wasm.Script.HtmlComments

/-! # The lexical elements of a script

A script is a sequence of lexical elements: white space, line terminators, comments,
literals and other tokens.  `Lexed` says which sequences the grammar of scripts allows,
with its HTML-like comments: at the boundary of two elements `//`, `/*` and `<!--` begin a
comment, and so does `-->` where only white space and comments stand before it on its
line.  Of the tokens it says what decides where comments are: they have no white space
inside, a slash at most in front, and `<` after another character only in a shift. -/

namespace Js2Wasm.Script

inductive Element where
  | whiteSpace (u : Nat)
  | newline (u : Nat)
  | lineComment (body : Text)
  | blockComment (body : Text)
  | htmlOpenComment (body : Text)
  | htmlCloseComment (body : Text)
  /-- A string, a regular expression or a part of a template. -/
  | literal (text : Text)
  | token (u : Nat) (tail : Text)
deriving DecidableEq

namespace Element

def text : Element → Text
  | whiteSpace u => [u]
  | newline u => [u]
  | lineComment body => Script.lineComment ++ body
  | blockComment body => blockOpen ++ body ++ blockClose
  | htmlOpenComment body => htmlOpen ++ body
  | htmlCloseComment body => htmlClose ++ body
  | literal text => text
  | token u tail => u :: tail

def isHtmlComment : Element → Bool
  | htmlOpenComment _ => true
  | htmlCloseComment _ => true
  | _ => false

def isLiteral : Element → Bool
  | literal _ => true
  | _ => false

/-- `<<` -/
def isShift : Element → Bool
  | token u tail => u :: tail == [0x3c, 0x3c]
  | _ => false

/-- Whether `-->` begins a comment behind the element, if it does in front of it. -/
def closes (b : Bool) : Element → Bool
  | newline _ => true
  | blockComment body => b || body.any isLineTerminator
  | literal _ => false
  | token _ _ => false
  | _ => b

end Element

/-- The text of a sequence of elements. -/
def textOf (els : List Element) : Text := els.flatMap Element.text

/-- The text ends here, or its line. -/
def AtLineEnd (rest : Text) : Prop := ∀ u ∈ rest.head?, isLineTerminator u = true

/-- Text of a line. -/
def OnLine (body : Text) : Prop := ∀ u ∈ body, isLineTerminator u = false

/-- An element in front of the text `rest`; `b` says whether `-->` begins a comment here. -/
def Element.Fits (b : Bool) (rest : Text) : Element → Prop
  | .whiteSpace u => isWhiteSpace u = true
  | .newline u => isLineTerminator u = true
  | .lineComment body => OnLine body ∧ AtLineEnd rest
  | .blockComment body => ¬ includes blockClose body = true
  | .htmlOpenComment body => OnLine body ∧ AtLineEnd rest
  | .htmlCloseComment body => b = true ∧ OnLine body ∧ AtLineEnd rest
  | .literal text => text ≠ []
  | .token u tail =>
    (∀ v ∈ u :: tail, isLineTerminator v = false ∧ isWhiteSpace v = false) ∧
      (0x2f ∉ tail) ∧ (0x3c ∈ tail → u :: tail = [0x3c, 0x3c] ∨ u :: tail = [0x3c, 0x3c, 0x3d]) ∧
      ¬ (Script.lineComment <+: (u :: tail) ++ rest) ∧ ¬ (blockOpen <+: (u :: tail) ++ rest) ∧
      ¬ (htmlOpen <+: (u :: tail) ++ rest) ∧
      (b = true → ¬ (htmlClose <+: (u :: tail) ++ rest))

/-- A sequence that the grammar allows. -/
def Lexed : Bool → List Element → Prop
  | _, [] => True
  | b, e :: es => e.Fits b (textOf es) ∧ Lexed (e.closes b) es

/-! ### Masking -/

/-- White space of the same length in place of an HTML-like comment. -/
def Element.masked (e : Element) : List Element :=
  if e.isHtmlComment then List.replicate e.text.length (.whiteSpace space) else [e]

/-- The script without its HTML-like comments. -/
def maskElements (els : List Element) : List Element := els.flatMap Element.masked

def maskedText (els : List Element) : Text := textOf (maskElements els)

/-- Where the elements of a kind lie in a text that starts at place `i`. -/
def spansOf (p : Element → Bool) : Nat → List Element → List ProtectedSpan
  | _, [] => []
  | i, e :: es =>
    let rest := spansOf p (i + e.text.length) es
    if p e then ⟨i, i + e.text.length⟩ :: rest else rest

/-- The parse reports the literals of the script, and perhaps what looks like a literal
inside of an HTML-like comment. -/
structure Reports (parse : Text → List ProtectedSpan) (els : List Element) : Prop where
  literals : ∀ l ∈ spansOf Element.isLiteral 0 els, l ∈ parse (textOf els)
  others : ∀ x ∈ parse (textOf els), x ∈ spansOf Element.isLiteral 0 els ∨
    ∃ h ∈ spansOf Element.isHtmlComment 0 els, h.start < x.start ∧ x.stop ≤ h.stop

/-! ### Where the scan goes wrong -/

/-- No shift stands right in front of `!--`. -/
def ShiftFree : List Element → Prop
  | [] => True
  | e :: es => (e.isShift = true → ¬ htmlOpen.tail <+: textOf es) ∧ ShiftFree es

/-- A surrogate pair starts at place `q`. -/
def PairAt (source : Text) (q : Nat) : Prop :=
  ∃ u ∈ source[q]?, ∃ v ∈ source[q + 1]?, isHighSurrogate u = true ∧ isLowSurrogate v = true

/-- No surrogate pair starts before the end of an HTML-like comment, but inside of one that
ends the text. -/
def PairFree (els : List Element) : Prop :=
  ∀ h ∈ spansOf Element.isHtmlComment 0 els, ∀ q, PairAt (textOf els) q → q < h.stop →
    h.start ≤ q ∧ h.stop = (textOf els).length

end Js2Wasm.Script
