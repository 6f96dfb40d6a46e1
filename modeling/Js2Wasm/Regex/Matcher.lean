import Js2Wasm.Regex.Vm
import Js2Wasm.Regex.Emitter

/-! # A matcher on syntax trees

What a compiled pattern is for: a backtracking machine whose state holds the work still
to be done, a list of items, instead of a program counter.  A tree is unfolded to
smaller items, a leaf is one instruction, and the three kinds of choice (an optional
body, a loop, an alternation) are forks.

The matcher claims the same scratch slots as the program: an item knows the next slot,
and the position in the queue of the next lookaround body.  `plan` says from which slot
and queue position each queued body starts.
-/
namespace Js2Wasm.Regex

open Backtrack

/-- What is in force at a node: the flags, the orientation, and whether alternations of
literals are grouped. -/
structure Ctx where
  mode : Mode
  reversed : Bool
  trie : Bool

/-! ### Slots and queued bodies -/

/-- The nodes that `{min,max}` stands for. -/
def unroll (node : ReNode) (min : Nat) (max : Option Nat) (greedy : Bool) : List ReNode :=
  List.replicate min node ++
    match max with
    | none => [.star node greedy]
    | some max => List.replicate (max - min) (.opt node greedy)

mutual

/-- How many scratch slots a node claims, lookaround bodies apart. -/
def scratchSlots : ReNode → Nat
  | .star node _ => (if canMatchEmpty node then 1 else 0) + scratchSlots node
  | .plus node _ =>
    if canMatchEmpty node then 1 + scratchSlots node + (1 + scratchSlots node)
    else scratchSlots node
  | .repeat_ node min none _ =>
    min * scratchSlots node + ((if canMatchEmpty node then 1 else 0) + scratchSlots node)
  | .repeat_ node min (some max) _ => min * scratchSlots node + (max - min) * scratchSlots node
  | .opt node _ | .group node _ | .modGroup _ _ node => scratchSlots node
  | .concat parts => scratchSlotsAll parts
  | .alt options => scratchSlotsAll options
  | _ => 0

def scratchSlotsAll : List ReNode → Nat
  | [] => 0
  | node :: nodes => scratchSlots node + scratchSlotsAll nodes

end

/-- A lookaround body in the queue. -/
structure Body where
  node : ReNode
  reversed : Bool
  mode : Mode

mutual

/-- The lookaround bodies that a node queues, in order. -/
def bodies (mode : Mode) : ReNode → List Body
  | .lookaround node _ behind => [⟨orient behind node, behind, mode⟩]
  | .star node _ | .opt node _ | .group node _ => bodies mode node
  | .plus node _ =>
    if canMatchEmpty node then bodies mode node ++ bodies mode node else bodies mode node
  | .repeat_ node min none _ => (List.replicate min (bodies mode node)).flatten ++ bodies mode node
  | .repeat_ node min (some max) _ =>
    (List.replicate min (bodies mode node)).flatten ++
      (List.replicate (max - min) (bodies mode node)).flatten
  | .modGroup add remove node => bodies (mode.modified add remove) node
  | .concat parts => bodiesAll mode parts
  | .alt options => bodiesAll mode options
  | _ => []

def bodiesAll (mode : Mode) : List ReNode → List Body
  | [] => []
  | node :: nodes => bodies mode node ++ bodiesAll mode nodes

end

/-! ### Literal alternations -/

/-- The tree whose alternations are the groups of a literal alternation. -/
def trieNode : Nat → List (List Nat) → ReNode
  | 0, _ => .concat []
  | levels + 1, lits => .alt <| (groupLits lits).map fun b =>
    match b with
    | .eps => .concat []
    | .char c [suffix] => .concat (.char c :: suffix.map .char)
    | .char c suffixes => .concat [.char c, trieNode levels suffixes]

/-! ### Leaves -/

/-- The instruction of a leaf, with the class record that it reads at offset 0. -/
def leafInstr (o : Options) (mode : Mode) : ReNode → Option (Instr × List Nat)
  | .char code => some <|
    if !mode.caseInsensitive then (⟨.CHAR, code, 0⟩, [])
    else if o.unicode then (⟨.CHARI, asciiFold code, 0⟩, [])
    else
      match foldCharUnitsLegacy o.host code with
      | [unit] => (⟨.CHAR, unit, 0⟩, [])
      | units => (⟨.CLASS, 0, 0⟩, Emitter.classRecord (unitsToRanges units))
  | .any => some (⟨.ANY, bit mode.dotAll, 0⟩, [])
  | .udot => some (⟨.CPCLASS, 0, 0⟩, Emitter.classRecord (dotCpRanges mode.dotAll))
  | .cls ranges negated =>
    some (⟨.CLASS, 0, bit negated⟩, Emitter.classRecord (foldedRanges o mode ranges))
  | .cpclass ranges negated => some (⟨.CPCLASS, 0, bit negated⟩, Emitter.classRecord ranges)
  | .bol => some (⟨.BOL, bit mode.multiline, 0⟩, [])
  | .eol => some (⟨.EOL, bit mode.multiline, 0⟩, [])
  | .wordBoundary negated => some (⟨.WBOUND, bit negated, 0⟩, [])
  | .backref index => some (⟨.BACKREF, index, bit mode.caseInsensitive⟩, [])
  | _ => none

/-! ### Items -/

/-- A piece of work. -/
inductive Item where
  /-- Match a node; `slot` and `queue` are the next scratch slot and queue position. -/
  | node (node : ReNode) (ctx : Ctx) (slot queue : Nat)
  /-- Match one of several nodes, in order. -/
  | branches (options : List ReNode) (ctx : Ctx) (slot queue : Nat)
  /-- Another iteration of a star or its exit, once the guard has been saved. -/
  | loop (node : ReNode) (greedy : Bool) (ctx : Ctx) (slot queue : Nat)
  /-- Another iteration of a plus or its exit. -/
  | again (node : ReNode) (greedy : Bool) (ctx : Ctx) (slot queue : Nat)
  /-- One instruction, with the class record that it reads. -/
  | instr (i : Instr) (record : List Nat)
  /-- A jump. -/
  | skip

/-- Several nodes one after the other. -/
def seqItems (ctx : Ctx) : List ReNode → Nat → Nat → List Item
  | [], _, _ => []
  | node :: nodes, slot, queue =>
    .node node ctx slot queue ::
      seqItems ctx nodes (slot + scratchSlots node) (queue + (bodies ctx.mode node).length)

/-- The CLEAR at the head of an iteration. -/
def clearItems (node : ReNode) : List Item :=
  match captureSpan node with
  | none => []
  | some (lo, hi) => [.instr ⟨.CLEAR, 2 * lo, 2 * hi + 1⟩ []]

/-- One iteration of a star. -/
def iteration (node : ReNode) (ctx : Ctx) (slot queue : Nat) : List Item :=
  clearItems node ++
    if canMatchEmpty node then [.node node ctx (slot + 1) queue, .instr ⟨.PROGRESS, slot, 0⟩ []]
    else [.node node ctx slot queue]

/-- The items that a node stands for; `none` where it is a choice or a lookaround. -/
def unfoldNode (o : Options) (ctx : Ctx) (slot queue : Nat) : ReNode → Option (List Item)
  | .concat parts => some (seqItems ctx parts slot queue)
  | .alt options =>
    match trieLiterals { o with literalTrie := ctx.trie } ctx.mode options with
    | some lits =>
      some [.node (trieNode (lits.flatten.length + 1) lits) { ctx with trie := false } slot queue]
    | none => some [.branches options ctx slot queue]
  | .star node greedy =>
    if canMatchEmpty node then
      some [.instr ⟨.SAVE, slot, 0⟩ [], .loop node greedy ctx slot queue]
    else some [.loop node greedy ctx slot queue]
  | .plus node greedy => some <| clearItems node ++
    if canMatchEmpty node then
      -- the first claimed slot stays unused
      [.node node ctx (slot + 1) queue,
        .node (.star node greedy) ctx (slot + 1 + scratchSlots node)
          (queue + (bodies ctx.mode node).length)]
    else [.node node ctx slot queue, .again node greedy ctx slot queue]
  | .repeat_ node min max greedy => some (seqItems ctx (unroll node min max greedy) slot queue)
  | .group node none => some [.node node ctx slot queue]
  | .group node (some k) =>
    let first := if ctx.reversed then 2 * k + 1 else 2 * k
    let second := if ctx.reversed then 2 * k else 2 * k + 1
    some [.instr ⟨.SAVE, first, 0⟩ [], .node node ctx slot queue, .instr ⟨.SAVE, second, 0⟩ []]
  | .modGroup add remove node =>
    some [.node node { ctx with mode := ctx.mode.modified add remove } slot queue]
  | .opt _ _ | .lookaround _ _ _ => none
  | leaf => (leafInstr o ctx.mode leaf).map fun (i, record) => [.instr i record]

/-- The items that an item stands for. -/
def Item.unfold (o : Options) : Item → Option (List Item)
  | .node n ctx slot queue => unfoldNode o ctx slot queue n
  | .branches [] _ _ _ => some []
  | .branches [n] ctx slot queue => some [.node n ctx slot queue]
  | _ => none

/-! ### Steps -/

/-- The state of the matcher. -/
structure MatchState where
  forward : Bool
  items : List Item
  thread : Thread

/-- A choice between some items and going on without them. -/
def MatchState.choose (s : MatchState) (greedy : Bool) (items rest : List Item) :
    Step MatchState Answer :=
  let body := { s with items := items ++ rest }
  let exit := { s with items := rest }
  if greedy then .fork body exit else .fork exit body

/-- The slot and the queue position from which each queued body starts. -/
abbrev Plan := List (Nat × Nat)

/-- The item of a lookaround's body. -/
def Item.ofBody (trie : Bool) (body : Body) (slot queue : Nat) : Item :=
  .node body.node ⟨body.mode, body.reversed, trie⟩ slot queue

/-- What a state does whose first item stands for itself. -/
def MatchState.act (plan : Plan) (input : JsString) (s : MatchState) (rest : List Item) :
    Item → Step MatchState Answer
  | .instr i record =>
    match stepInstr record input s.forward 0 s.thread i with
    | .go _ t => .go { s with items := rest, thread := t }
    | .fail => .halt none
    | .undefined => .halt (some .undefined)
    | _ => .halt (some .outside)
  | .skip => .go { s with items := rest }
  | .node (.opt node greedy) ctx slot queue => s.choose greedy [.node node ctx slot queue] rest
  | .node (.lookaround node negated behind) ctx _ queue =>
    match plan[queue]? with
    | some (slot, queue) =>
      let body : Body := ⟨orient behind node, behind, ctx.mode⟩
      .look ⟨!behind, [.ofBody ctx.trie body slot queue], s.thread⟩ fun w =>
        (adopt s.thread negated w).map (fun t => { s with items := rest, thread := t }) id
    | none => .halt (some .outside)
  | .loop node greedy ctx slot queue => s.choose greedy
    (iteration node ctx slot queue ++ [.skip, .node (.star node greedy) ctx slot queue]) rest
  | .again node greedy ctx slot queue => s.choose greedy
    (clearItems node ++ [.node node ctx slot queue, .again node greedy ctx slot queue]) rest
  | .branches (node :: options) ctx slot queue =>
    let others : Item :=
      .branches options ctx (slot + scratchSlots node) (queue + (bodies ctx.mode node).length)
    .fork { s with items := .node node ctx slot queue :: .skip :: rest }
      { s with items := others :: rest }
  | _ => .halt (some .outside)

/-- The matcher's steps; the attempt ends when no item is left. -/
def matchStep (o : Options) (plan : Plan) (input : JsString) (s : MatchState) :
    Step MatchState Answer :=
  match s.items with
  | [] => .halt (some (.matched s.thread))
  | item :: rest =>
    match item.unfold o with
    | some items => .go { s with items := items ++ rest }
    | none => s.act plan input rest item

/-! ### The plan of a pattern -/

/-- The plan of the bodies in a queue, which starts at `queue`'s end; each body's own
lookarounds join the queue. -/
def planBodies : Nat → List Body → Nat → Nat → Plan
  | 0, _, _, _ => []
  | _, [], _, _ => []
  | subs + 1, body :: rest, slot, queue =>
    let inner := bodies body.mode body.node
    (slot, queue) ::
      planBodies subs (rest ++ inner) (slot + scratchSlots body.node) (queue + inner.length)

/-- How many slots the bodies in a queue claim, those of their own lookarounds included. -/
def planSlots : Nat → List Body → Nat
  | 0, _ => 0
  | _, [] => 0
  | subs + 1, body :: rest =>
    scratchSlots body.node + planSlots subs (rest ++ bodies body.mode body.node)

/-- The plan of a whole pattern. -/
def planOf (mode : Mode) (numCaptures : Nat) (root : ReNode) : Plan :=
  let queued := bodies mode root
  planBodies (subCount root) queued (2 * (numCaptures + 1) + scratchSlots root) queued.length

/-- How many slots a whole pattern claims. -/
def slotsOf (mode : Mode) (root : ReNode) : Nat :=
  scratchSlots root + planSlots (subCount root) (bodies mode root)

/-- The items of a whole pattern. -/
def rootItems (ctx : Ctx) (numCaptures : Nat) (root : ReNode) : List Item :=
  [.instr ⟨.SAVE, 0, 0⟩ [], .node root ctx (2 * (numCaptures + 1)) 0, .instr ⟨.SAVE, 1, 0⟩ []]

end Js2Wasm.Regex
