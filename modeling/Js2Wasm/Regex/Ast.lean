import Mathlib.Data.List.Basic
import Mathlib.Order.MinMax

/-! # The regular-expression syntax tree

The tree the pattern parser hands to the compiler (`codegen/regex/parse.ts`,
`ReNode`), and the structural functions the compiler computes on it before it
emits anything: nullability, the capture span of a quantified body, and the
reversal used for lookbehind.

A missing upper bound of `{min,}` (`max = -1` in the source) is `none`, and so is
the index of a non-capturing group (`capIndex < 0`).
-/
namespace Js2Wasm.Regex

/-- Flag bits (`codegen/regex/bytecode.ts`). -/
def RE_FLAG_I : Nat := 2
def RE_FLAG_M : Nat := 4
def RE_FLAG_S : Nat := 8
def RE_FLAG_U : Nat := 16
def RE_FLAG_V : Nat := 128

/-- `(flags & bit) !== 0`. -/
def hasFlag (flags bit : Nat) : Bool := flags &&& bit != 0

/-- The node kinds of a parsed pattern. -/
inductive ReNode where
  | char (code : Nat)
  | any
  | cls (ranges : List (Nat × Nat)) (negated : Bool)
  | cpclass (ranges : List (Nat × Nat)) (negated : Bool)
  | bol
  | eol
  | wordBoundary (negated : Bool)
  | backref (index : Nat)
  | lookaround (node : ReNode) (negated behind : Bool)
  | modGroup (add remove : Nat) (node : ReNode)
  | udot
  | concat (parts : List ReNode)
  | alt (options : List ReNode)
  | star (node : ReNode) (greedy : Bool)
  | plus (node : ReNode) (greedy : Bool)
  | opt (node : ReNode) (greedy : Bool)
  | repeat_ (node : ReNode) (min : Nat) (max : Option Nat) (greedy : Bool)
  | group (node : ReNode) (capIndex : Option Nat)

namespace ReNode

/-- Induction on a tree, with the hypothesis for a list of children given for
each of its members. -/
@[elab_as_elim, induction_eliminator]
theorem inductionOn {motive : ReNode → Prop}
    (char : ∀ code, motive (char code)) (any : motive any)
    (cls : ∀ ranges negated, motive (cls ranges negated))
    (cpclass : ∀ ranges negated, motive (cpclass ranges negated))
    (bol : motive bol) (eol : motive eol)
    (wordBoundary : ∀ negated, motive (wordBoundary negated))
    (backref : ∀ index, motive (backref index))
    (lookaround : ∀ node negated behind, motive node → motive (lookaround node negated behind))
    (modGroup : ∀ add remove node, motive node → motive (modGroup add remove node))
    (udot : motive udot)
    (concat : ∀ parts, (∀ p ∈ parts, motive p) → motive (concat parts))
    (alt : ∀ options, (∀ o ∈ options, motive o) → motive (alt options))
    (star : ∀ node greedy, motive node → motive (star node greedy))
    (plus : ∀ node greedy, motive node → motive (plus node greedy))
    (opt : ∀ node greedy, motive node → motive (opt node greedy))
    (repeat_ : ∀ node min max greedy, motive node → motive (repeat_ node min max greedy))
    (group : ∀ node capIndex, motive node → motive (group node capIndex)) :
    ∀ n, motive n :=
  @ReNode.rec motive (fun l => ∀ p ∈ l, motive p)
    char any cls cpclass bol eol wordBoundary backref lookaround modGroup udot concat alt star plus
    opt repeat_ group (fun _ hp => nomatch hp)
    (fun _ _ hh ht p hp => (List.mem_cons.mp hp).elim (fun e => e ▸ hh) (ht p))

end ReNode

/-! ### Nullability -/

mutual

/-- Conservative nullability test: can `node` match the empty string? Unknown
shapes default to nullable; a consuming atom is not. -/
def canMatchEmpty : ReNode → Bool
  | .char _ | .any | .udot | .cls _ _ | .cpclass _ _ => false
  | .backref _ => true
  | .bol | .eol | .wordBoundary _ | .lookaround _ _ _ => true
  | .star _ _ | .opt _ _ => true
  | .plus node _ => canMatchEmpty node
  | .repeat_ node min _ _ => min == 0 || canMatchEmpty node
  | .group node _ | .modGroup _ _ node => canMatchEmpty node
  | .concat parts => everyMatchEmpty parts
  | .alt options => someMatchEmpty options

/-- `parts.every(canMatchEmpty)`. -/
def everyMatchEmpty : List ReNode → Bool
  | [] => true
  | p :: ps => canMatchEmpty p && everyMatchEmpty ps

/-- `options.some(canMatchEmpty)`. -/
def someMatchEmpty : List ReNode → Bool
  | [] => false
  | o :: os => canMatchEmpty o || someMatchEmpty os

end

theorem everyMatchEmpty_append (ps qs : List ReNode) :
    everyMatchEmpty (ps ++ qs) = (everyMatchEmpty ps && everyMatchEmpty qs) := by
  induction ps with
  | nil => simp [everyMatchEmpty]
  | cons p ps ih => simp [everyMatchEmpty, ih, Bool.and_assoc]

/-! ### Capture groups -/

mutual

/-- The capture indices `captureSpan` visits: lookaround bodies are not entered. -/
def visitedCaptures : ReNode → List Nat
  | .group node capIndex => capIndex.toList ++ visitedCaptures node
  | .concat parts => visitedCapturesAll parts
  | .alt options => visitedCapturesAll options
  | .star node _ | .plus node _ | .opt node _ | .modGroup _ _ node | .repeat_ node _ _ _ =>
    visitedCaptures node
  | _ => []

def visitedCapturesAll : List ReNode → List Nat
  | [] => []
  | p :: ps => visitedCaptures p ++ visitedCapturesAll ps

end

/-- Capture-group index span of a subtree: the least and the greatest `capIndex`
reachable inside `node`, lookaround bodies apart. -/
def captureSpan (node : ReNode) : Option (Nat × Nat) :=
  match visitedCaptures node with
  | [] => none
  | k :: ks => some (ks.foldl min k, ks.foldl max k)

mutual

/-- Every capture index of a subtree in the order of the opening parentheses,
lookaround bodies included: the groups an iteration of a quantifier over `node`
resets. -/
def captures : ReNode → List Nat
  | .group node capIndex => capIndex.toList ++ captures node
  | .concat parts => capturesAll parts
  | .alt options => capturesAll options
  | .star node _ | .plus node _ | .opt node _ | .modGroup _ _ node | .repeat_ node _ _ _
  | .lookaround node _ _ => captures node
  | _ => []

def capturesAll : List ReNode → List Nat
  | [] => []
  | p :: ps => captures p ++ capturesAll ps

end

/-! ### Reversal -/

mutual

/-- Structurally reverse a tree for lookbehind: concatenation order flips
recursively, the order of alternatives is kept, and lookarounds are leaves. -/
def reverseNode : ReNode → ReNode
  | .concat parts => .concat (reverseNodes parts).reverse
  | .alt options => .alt (reverseNodes options)
  | .star node greedy => .star (reverseNode node) greedy
  | .plus node greedy => .plus (reverseNode node) greedy
  | .opt node greedy => .opt (reverseNode node) greedy
  | .repeat_ node min max greedy => .repeat_ (reverseNode node) min max greedy
  | .group node capIndex => .group (reverseNode node) capIndex
  | .modGroup add remove node => .modGroup add remove (reverseNode node)
  | node => node

/-- `nodes.map(reverseNode)`. -/
def reverseNodes : List ReNode → List ReNode
  | [] => []
  | p :: ps => reverseNode p :: reverseNodes ps

end

theorem reverseNodes_eq_map (ps : List ReNode) : reverseNodes ps = ps.map reverseNode := by
  induction ps with
  | nil => rfl
  | cons p ps ih => simp [reverseNodes, ih]

/-- The tree as the emitter receives it: reversed for a lookbehind body. -/
def orient (reversed : Bool) (node : ReNode) : ReNode :=
  if reversed then reverseNode node else node

private theorem everyMatchEmpty_map {f : ReNode → ReNode} {ps : List ReNode}
    (h : ∀ p ∈ ps, canMatchEmpty (f p) = canMatchEmpty p) :
    everyMatchEmpty (ps.map f) = everyMatchEmpty ps ∧
      someMatchEmpty (ps.map f) = someMatchEmpty ps := by
  induction ps with
  | nil => exact ⟨rfl, rfl⟩
  | cons p ps ih =>
    obtain ⟨h1, h2⟩ := ih fun q hq => h q (List.mem_cons_of_mem _ hq)
    simp [everyMatchEmpty, someMatchEmpty, h p List.mem_cons_self, h1, h2]

theorem everyMatchEmpty_reverse (ps : List ReNode) :
    everyMatchEmpty ps.reverse = everyMatchEmpty ps := by
  induction ps with
  | nil => rfl
  | cons p ps ih =>
    rw [List.reverse_cons, everyMatchEmpty_append, ih]
    simp [everyMatchEmpty, Bool.and_comm]

/-- Reversal does not change nullability. -/
@[simp] theorem canMatchEmpty_reverseNode (n : ReNode) :
    canMatchEmpty (reverseNode n) = canMatchEmpty n := by
  induction n with
  | concat parts ih =>
    rw [reverseNode, reverseNodes_eq_map, canMatchEmpty, canMatchEmpty, everyMatchEmpty_reverse,
      (everyMatchEmpty_map ih).1]
  | alt options ih =>
    rw [reverseNode, reverseNodes_eq_map, canMatchEmpty, canMatchEmpty, (everyMatchEmpty_map ih).2]
  | star _ _ ih | plus _ _ ih | opt _ _ ih | modGroup _ _ _ ih | repeat_ _ _ _ _ ih
  | group _ _ ih => simp only [reverseNode, canMatchEmpty, ih]
  | _ => rfl

end Js2Wasm.Regex
