import Mathlib.Data.List.Basic
import Mathlib.Algebra.Group.Nat.Defs

/-! # The `imports` map of a package: the resolver's search and Node's

A `package.json` may map specifiers (`"#universal/assert"`, `"#internal/*"`) to
targets, which are texts, `null`, objects that choose by condition, or lists of
alternatives.  `resolveImportConditions` and `matchSubpathImports` are the resolver's
search; `packageTargetResolve` and `packageImportsExportsResolve` are the steps Node
documents under the same names, which the resolver's comment says it follows.

Texts are lists of UTF-16 code units.  What Node refuses as a target (an invalid URL,
a `..` segment, a builtin's name in the wrong place) is a parameter `valid` of the
steps: a target it refuses is the error `invalidTarget`. -/

namespace Js2Wasm.Resolve

abbrev Text := List UInt16

def star : UInt16 := 42
def slash : UInt16 := 47
def dollar : UInt16 := 36
def ampersand : UInt16 := 38
def quote : UInt16 := 39
def backtick : UInt16 := 96

def units (cs : List Char) : Text := cs.map fun c => c.toNat.toUInt16

/-! ### Targets -/

mutual
/-- What `JSON.parse` gives for a target; a boolean or a number is a `scalar`.  The
fields of an object stand in the order of `Object.entries`. -/
inductive Target where
  | null
  | scalar
  | text (t : Text)
  | alternatives (vs : Targets)
  | conditions (fs : Branches)

inductive Targets where
  | nil
  | cons (v : Target) (rest : Targets)

inductive Branches where
  | nil
  | cons (condition : Text) (branch : Target) (rest : Branches)
end

def Branches.keys : Branches → List Text
  | .nil => []
  | .cons k _ rest => k :: rest.keys

abbrev Imports := List (Text × Target)

/-- A set of export conditions: `default` is always one of them. -/
structure ConditionSet where
  has : Text → Bool
  has_default : has (units ['d', 'e', 'f', 'a', 'u', 'l', 't']) = true

/-- GetSubstitution without captures: `$$`, `$&`, ``$` `` and `$'` are expanded, every
other code unit stands for itself. -/
def getSubstitution (before after : Text) : Text → Text
  | [] => []
  | [c] => [c]
  | c :: d :: rest =>
    if c = dollar ∧ d = dollar then dollar :: getSubstitution before after rest
    else if c = dollar ∧ d = ampersand then star :: getSubstitution before after rest
    else if c = dollar ∧ d = backtick then before ++ getSubstitution before after rest
    else if c = dollar ∧ d = quote then after ++ getSubstitution before after rest
    else c :: getSubstitution before after (d :: rest)

def replaceFrom (substitution : Text) (before : Text) : Text → Text
  | [] => []
  | c :: rest =>
    if c = star then
      getSubstitution before rest substitution ++ replaceFrom substitution (before ++ [c]) rest
    else c :: replaceFrom substitution (before ++ [c]) rest

/-- `value.replaceAll("*", substitution)`. -/
def replaceAll (value substitution : Text) : Text := replaceFrom substitution [] value

/-! ### The resolver's search -/

mutual
/-- Resolve a conditions value to a target; the search gives up below depth eight. -/
def resolveImportConditions (substitution : Text) (conditions : ConditionSet) (depth : Nat) :
    Target → Option Text
  | .text t => if 8 < depth then none else some (replaceAll t substitution)
  | .alternatives vs =>
    if 8 < depth then none else firstCandidate substitution conditions (depth + 1) vs
  | .conditions fs =>
    if 8 < depth then none else firstBranch substitution conditions (depth + 1) fs
  | .null => none
  | .scalar => none

def firstCandidate (substitution : Text) (conditions : ConditionSet) (depth : Nat) :
    Targets → Option Text
  | .nil => none
  | .cons v rest =>
    match resolveImportConditions substitution conditions depth v with
    | some resolved => some resolved
    | none => firstCandidate substitution conditions depth rest

def firstBranch (substitution : Text) (conditions : ConditionSet) (depth : Nat) :
    Branches → Option Text
  | .nil => none
  | .cons condition branch rest =>
    if conditions.has condition = true then
      match resolveImportConditions substitution conditions depth branch with
      | some resolved => some resolved
      | none => firstBranch substitution conditions depth rest
    else firstBranch substitution conditions depth rest
end

/-- The parts of a key around its star, for a key with exactly one. -/
def patternParts (key : Text) : Option (Text × Text) :=
  match key.idxOf? star with
  | none => none
  | some i => if star ∈ key.drop (i + 1) then none else some (key.take i, key.drop (i + 1))

structure Best where
  pre : Text
  substitution : Text
  value : Target

/-- One round of the loop over the keys: a matching key replaces the best so far only
with a longer text before its star. -/
def considerKey (specifier : Text) (best : Option Best) (entry : Text × Target) : Option Best :=
  match patternParts entry.1 with
  | none => best
  | some (pre, suf) =>
    if ¬ pre <+: specifier ∨ ¬ suf <:+ specifier then best
    else if specifier.length < pre.length + suf.length then best
    else if best.any (fun b => pre.length ≤ b.pre.length) = true then best
    else some
      { pre
        substitution := (specifier.drop pre.length).take
          (specifier.length - suf.length - pre.length)
        value := entry.2 }

def bestPattern (imports : Imports) (specifier : Text) : Option Best :=
  imports.foldl (considerKey specifier) none

inductive Resolution where
  | undefined
  | null
  | target (t : Text)
  | invalidTarget
  | invalidConfiguration
  deriving DecidableEq

/-- The target a resolution gives; anything else leaves the specifier unresolvable. -/
def Resolution.target? : Resolution → Option Text
  | .target t => some t
  | _ => none

def isDigit (c : UInt16) : Bool := 48 ≤ c && c ≤ 57

/-- A key that is an array index: an object with one is no conditions object. -/
def isArrayIndex (key : Text) : Bool :=
  key.all isDigit && key != [] && (key.length == 1 || key.head? != some 48) &&
    decide (key.foldl (fun n c => 10 * n + (c.toNat - 48)) 0 < 2 ^ 32 - 1)

/-- Every instance of `*` replaced by the text itself. -/
def replaceStars (t : Text) : Option Text → Text
  | none => t
  | some patternMatch => t.flatMap fun c => if c = star then patternMatch else [c]

section Node
variable (valid : Text → Option Text → Bool) (conditions : ConditionSet)

mutual
/-- PACKAGE_TARGET_RESOLVE. -/
def packageTargetResolve (patternMatch : Option Text) : Target → Resolution
  | .text t =>
    if valid t patternMatch = true then .target (replaceStars t patternMatch) else .invalidTarget
  | .conditions fs =>
    if fs.keys.any isArrayIndex = true then .invalidConfiguration
    else resolveBranches patternMatch fs
  | .alternatives .nil => .null
  | .alternatives (.cons v rest) =>
    resolveAlternatives patternMatch .undefined (.cons v rest)
  | .null => .null
  | .scalar => .invalidTarget

def resolveBranches (patternMatch : Option Text) : Branches → Resolution
  | .nil => .undefined
  | .cons condition branch rest =>
    if conditions.has condition = true then
      match packageTargetResolve patternMatch branch with
      | .undefined => resolveBranches patternMatch rest
      | resolved => resolved
    else resolveBranches patternMatch rest

/-- The alternatives in turn, going on after an invalid target; `last` is the last such
error. -/
def resolveAlternatives (patternMatch : Option Text) (last : Resolution) : Targets → Resolution
  | .nil => last
  | .cons v rest =>
    match packageTargetResolve patternMatch v with
    | .undefined => resolveAlternatives patternMatch last rest
    | .invalidTarget => resolveAlternatives patternMatch .invalidTarget rest
    | resolved => resolved
end

end Node

end Js2Wasm.Resolve
