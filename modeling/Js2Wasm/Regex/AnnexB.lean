import Js2Wasm.Regex.ClassParser

/-! # The Annex B grammar of character classes

What a `[…]` class outside the code-point modes is, in the terms of the language
definition: the productions of ClassAtom in the order in which they are tried (an
alternative counts only where no earlier one matches), the productions of
ClassRanges as a derivation relation, and the set of code units a derivation
denotes. Nothing here looks at how the parser works.

`named` says that the pattern declares a named group, where `\k` is no identity
escape. `braced` admits the identity escape `\u` in front of a brace; the grammar
of the language has it.
-/
namespace Js2Wasm.Regex.AnnexB

/-- The grammar's parameters. -/
structure Grammar where
  named : Bool
  braced : Bool
  deriving DecidableEq

/-- A production reads a value off the front of a text. -/
abbrev Production (α : Type) := JsString → Option (α × JsString)

/-- A terminal symbol with a value. -/
def terminal {α : Type} (p : UInt16 → Option α) : Production α
  | e :: rest => (p e).map (·, rest)
  | [] => none

/-- A terminal in front of a production. -/
def after {α : Type} (c : Char) (p : Production α) : Production α
  | e :: rest => if isUnit c e then p rest else none
  | [] => none

/-- Alternatives in order. -/
def firstOf {α : Type} (ps : List (Production α)) : Production α :=
  fun src => ps.findSome? (· src)

variable {α : Type}

@[simp] theorem terminal_nil (p : UInt16 → Option α) : terminal p [] = none := rfl

@[simp] theorem terminal_cons (p : UInt16 → Option α) (e : UInt16) (rest : JsString) :
    terminal p (e :: rest) = (p e).map (·, rest) := rfl

@[simp] theorem after_nil (c : Char) (p : Production α) : after c p [] = none := rfl

@[simp] theorem after_cons (c : Char) (p : Production α) (e : UInt16) (rest : JsString) :
    after c p (e :: rest) = if isUnit c e then p rest else none := rfl

@[simp] theorem firstOf_nil (src : JsString) :
    firstOf ([] : List (Production α)) src = none := rfl

@[simp] theorem firstOf_cons (p : Production α) (ps : List (Production α)) (src : JsString) :
    firstOf (p :: ps) src = (p src).or (firstOf ps src) := by
  rw [firstOf, List.findSome?_cons]
  cases p src <;> rfl

/-! ### Escapes -/

/-- ControlEscape `:: one of f n r t v`. -/
def controlEscape : Production Nat :=
  terminal fun e => if isUnit 'f' e then some 0x0c else if isUnit 'n' e then some 0x0a
    else if isUnit 'r' e then some 0x0d else if isUnit 't' e then some 0x09
    else if isUnit 'v' e then some 0x0b else none

/-- AsciiLetter, read as a control character. -/
def asciiLetter : Production Nat :=
  terminal fun e => if unitBetween 'a' 'z' e || unitBetween 'A' 'Z' e then some (e.toNat % 32)
    else none

/-- ClassControlLetter `:: DecimalDigit | _`, read as a control character. -/
def classControlLetter : Production Nat :=
  terminal fun e => if unitBetween '0' '9' e || isUnit '_' e then some (e.toNat % 32) else none

/-- `p [lookahead ∈ set]`, where `none` stands for the end of the text. -/
def ahead {α : Type} (set : Option UInt16 → Bool) (p : Production α) : Production α :=
  fun src => (p src).filter fun r => set r.2.head?

/-- A digit between `lo` and `hi`. -/
def digit (lo hi : Char) : Production Nat :=
  terminal fun e => if unitBetween lo hi e then some (e.toNat - 0x30) else none

@[simp] theorem digit_cons (lo hi : Char) (e : UInt16) (rest : JsString) :
    digit lo hi (e :: rest) =
      if unitBetween lo hi e then some (e.toNat - 0x30, rest) else none := by
  rw [digit, terminal_cons]
  split <;> rfl

def octalDigit : Production Nat := digit '0' '7'

/-- Two digits, the first by `p`, as an octal number. -/
def octalPair (p : Production Nat) : Production Nat := fun src =>
  (p src).bind fun (v, rest) => (octalDigit rest).map fun (w, rest) => (v * 8 + w, rest)

/-- LegacyOctalEscapeSequence. -/
def legacyOctalEscapeSequence : Production Nat := firstOf [
  ahead (·.any (unitBetween '8' '9')) (digit '0' '0'),
  ahead (!·.any (unitBetween '0' '7')) (digit '1' '7'),
  ahead (!·.any (unitBetween '0' '7')) (octalPair (digit '0' '3')),
  octalPair (digit '4' '7'),
  octalPair (octalPair (digit '0' '3'))]

/-- `count` hexadecimal digits. -/
def hexDigitRun : Nat → Nat → Production Nat
  | 0, v, src => some (v, src)
  | count + 1, v, e :: rest =>
    if isHexDigit e then hexDigitRun count (16 * v + hexValue e) rest else none
  | _ + 1, _, [] => none

/-- IdentityEscape: any code unit but `c`, and but `k` where a group is named. -/
def identityEscape (G : Grammar) : Production Nat
  | e :: rest =>
    if isUnit 'c' e || (G.named && isUnit 'k' e) then none
    else if !G.braced && isUnit 'u' e && rest.head?.any (isUnit '{') then none
    else some (e.toNat, rest)
  | [] => none

/-- CharacterEscape. -/
def characterEscape (G : Grammar) : Production Nat := firstOf [
  controlEscape,
  after 'c' asciiLetter,
  ahead (!·.any (unitBetween '0' '9')) (digit '0' '0'),
  after 'x' (hexDigitRun 2 0),
  after 'u' (hexDigitRun 4 0),
  legacyOctalEscapeSequence,
  identityEscape G]

/-- CharacterClassEscape. -/
inductive ClassEscape where
  | d | D | s | S | w | W
  deriving DecidableEq

def characterClassEscape : Production ClassEscape :=
  terminal fun e => if isUnit 'd' e then some .d else if isUnit 'D' e then some .D
    else if isUnit 's' e then some .s else if isUnit 'S' e then some .S
    else if isUnit 'w' e then some .w else if isUnit 'W' e then some .W else none

/-! ### Class atoms -/

/-- ClassAtom: a dash, a character, or a set. -/
inductive ClassAtom where
  | dash
  | char (code : Nat)
  | escape (set : ClassEscape)
  deriving DecidableEq

/-- A production of characters as one of atoms. -/
def chars (p : Production Nat) : Production ClassAtom :=
  fun src => (p src).map fun r => (.char r.1, r.2)

/-- ClassEscape. -/
def classEscape (G : Grammar) : Production ClassAtom := firstOf [
  chars (after 'b' fun rest => some (8, rest)),
  chars (after 'c' classControlLetter),
  fun src => (characterClassEscape src).map fun r => (.escape r.1, r.2),
  chars (characterEscape G)]

/-- ClassAtomNoDash. -/
def classAtomNoDash (G : Grammar) : Production ClassAtom := firstOf [
  chars (terminal fun e =>
    if isUnit '\\' e || isUnit ']' e || isUnit '-' e then none else some e.toNat),
  after '\\' (classEscape G),
  chars (ahead (·.any (isUnit 'c')) (after '\\' fun rest => some (0x5c, rest)))]

/-- ClassAtom. -/
def classAtom (G : Grammar) : Production ClassAtom := firstOf [
  after '-' fun rest => some (.dash, rest),
  classAtomNoDash G]

/-! ### Class ranges -/

/-- What a ClassRanges derivation adds to the class: one atom, or what the two
ends of a dash denote. -/
inductive ClassItem where
  | atom (a : ClassAtom)
  | range (a b : ClassAtom)
  deriving DecidableEq

/-- A dash operator in front of `src`. -/
def DashBefore (src rest : JsString) : Prop := ∃ d, isUnit '-' d = true ∧ rest = d :: src

mutual

/-- ClassContents. -/
inductive ClassContents (G : Grammar) : JsString → List ClassItem → JsString → Prop
  | empty (src) : ClassContents G src [] src
  | ranges {src items rest} (h : NonemptyClassRanges G src items rest) :
    ClassContents G src items rest

/-- NonemptyClassRanges. -/
inductive NonemptyClassRanges (G : Grammar) : JsString → List ClassItem → JsString → Prop
  | atom {src a rest} (ha : classAtom G src = some (a, rest)) :
    NonemptyClassRanges G src [.atom a] rest
  | atoms {src a mid items rest} (ha : classAtom G src = some (a, mid))
    (h : NonemptyClassRangesNoDash G mid items rest) :
    NonemptyClassRanges G src (.atom a :: items) rest
  | range {src a mid operand b after items rest} (ha : classAtom G src = some (a, mid))
    (hdash : DashBefore operand mid) (hb : classAtom G operand = some (b, after))
    (h : ClassContents G after items rest) :
    NonemptyClassRanges G src (.range a b :: items) rest

/-- NonemptyClassRangesNoDash. -/
inductive NonemptyClassRangesNoDash (G : Grammar) :
    JsString → List ClassItem → JsString → Prop
  | atom {src a rest} (ha : classAtom G src = some (a, rest)) :
    NonemptyClassRangesNoDash G src [.atom a] rest
  | atoms {src a mid items rest} (ha : classAtomNoDash G src = some (a, mid))
    (h : NonemptyClassRangesNoDash G mid items rest) :
    NonemptyClassRangesNoDash G src (.atom a :: items) rest
  | range {src a mid operand b after items rest} (ha : classAtomNoDash G src = some (a, mid))
    (hdash : DashBefore operand mid) (hb : classAtom G operand = some (b, after))
    (h : ClassContents G after items rest) :
    NonemptyClassRangesNoDash G src (.range a b :: items) rest

end

/-- CharacterClass: `[ [lookahead ≠ ^] ClassContents ]` or `[^ ClassContents ]`. -/
inductive CharacterClass (G : Grammar) : JsString → Bool → List ClassItem → JsString → Prop
  | plain {bracket body items close rest} (hopen : isUnit '[' bracket = true)
    (hcaret : body.head?.any (isUnit '^') = false)
    (h : ClassContents G body items (close :: rest)) (hclose : isUnit ']' close = true) :
    CharacterClass G (bracket :: body) false items rest
  | negated {bracket caret body items close rest} (hopen : isUnit '[' bracket = true)
    (hcaret : isUnit '^' caret = true)
    (h : ClassContents G body items (close :: rest)) (hclose : isUnit ']' close = true) :
    CharacterClass G (bracket :: caret :: body) true items rest

/-! ### Meaning -/

/-- WhiteSpace and LineTerminator. -/
def IsSpace (u : Nat) : Prop :=
  u ∈ [0x09, 0x0b, 0x0c, 0xfeff, 0x20, 0xa0, 0x1680, 0x202f, 0x205f, 0x3000] ∨
    (0x2000 ≤ u ∧ u ≤ 0x200a) ∨ u ∈ [0x0a, 0x0d, 0x2028, 0x2029]

/-- A digit, a letter, or the underscore. -/
def IsWord (u : Nat) : Prop :=
  ('0'.toNat ≤ u ∧ u ≤ '9'.toNat) ∨ ('a'.toNat ≤ u ∧ u ≤ 'z'.toNat) ∨
    ('A'.toNat ≤ u ∧ u ≤ 'Z'.toNat) ∨ u = '_'.toNat

/-- The code units a CharacterClassEscape denotes. -/
def ClassEscape.Has : ClassEscape → Nat → Prop
  | .d, u => '0'.toNat ≤ u ∧ u ≤ '9'.toNat
  | .D, u => ¬ ('0'.toNat ≤ u ∧ u ≤ '9'.toNat)
  | .s, u => IsSpace u
  | .S, u => ¬ IsSpace u
  | .w, u => IsWord u
  | .W, u => ¬ IsWord u

/-- CharacterValue of an atom that is no set. -/
def ClassAtom.value : ClassAtom → Option Nat
  | .dash => some 0x2d
  | .char code => some code
  | .escape _ => none

/-- The code units an atom denotes. -/
def ClassAtom.Has : ClassAtom → Nat → Prop
  | .dash, u => u = 0x2d
  | .char code, u => u = code
  | .escape set, u => set.Has u

/-- Early error: the ends of a range of two characters are in order. -/
def ClassItem.InOrder : ClassItem → Prop
  | .atom _ => True
  | .range a b => ∀ lo ∈ a.value, ∀ hi ∈ b.value, lo ≤ hi

instance : (i : ClassItem) → Decidable i.InOrder
  | .atom _ => inferInstanceAs (Decidable True)
  | .range a b => inferInstanceAs (Decidable (∀ lo ∈ a.value, ∀ hi ∈ b.value, lo ≤ hi))

/-- CharacterRangeOrUnion: with a set on a side of the dash, the dash stands for
itself. -/
def ClassItem.Has : ClassItem → Nat → Prop
  | .atom a, u => a.Has u
  | .range a b, u =>
    match a.value, b.value with
    | some lo, some hi => lo ≤ u ∧ u ≤ hi
    | _, _ => a.Has u ∨ b.Has u ∨ u = 0x2d

/-- Does a class with these members accept the code unit? -/
def Accepts (negated : Bool) (items : List ClassItem) (u : Nat) : Prop :=
  if negated then ¬ ∃ i ∈ items, i.Has u else ∃ i ∈ items, i.Has u

end Js2Wasm.Regex.AnnexB
