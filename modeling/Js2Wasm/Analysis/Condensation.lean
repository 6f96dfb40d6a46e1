import Js2Wasm.Lib.While
import Mathlib.Logic.Function.Basic

/-! # Graph condensation

`condenseDirectedGraph` (`codegen/analysis/strongly-connected-components.ts`): a search with an
explicit stack of frames gives every node an index and a low link, and pops a component when a
node's low link is its own index.  Then the components are numbered and their edges collected.

The stacks are lists with the top first; the set `onComponentStack` holds the members of the
component stack.  A map is a function, except for the adjacency, which is read in the order in
which its nodes were added.
-/
namespace Js2Wasm.Analysis

structure SearchFrame (α : Type*) where
  node : α
  successors : List α
  nextSuccessor : Nat

structure Search (α : Type*) where
  indexByNode : α → Option Nat
  lowLinkByNode : α → Nat
  adjacencyByNode : List (α × List α)
  componentStack : List α
  components : List (List α)
  nextIndex : Nat
  searchStack : List (SearchFrame α)

structure DirectedGraphCondensation (α : Type*) where
  components : List (List α)
  componentByNode : α → Option Nat
  successorsByComponent : List (List Nat)
  predecessorsByComponent : List (List Nat)

variable {α : Type} [DecidableEq α]

/-! ### The search -/

def Search.start : Search α where
  indexByNode _ := none
  lowLinkByNode _ := 0
  adjacencyByNode := []
  componentStack := []
  components := []
  nextIndex := 0
  searchStack := []

def Search.discover (successorsOf : α → List α) (s : Search α) (node : α) : Search α where
  indexByNode := Function.update s.indexByNode node (some s.nextIndex)
  lowLinkByNode := Function.update s.lowLinkByNode node s.nextIndex
  adjacencyByNode := s.adjacencyByNode ++ [(node, successorsOf node)]
  componentStack := node :: s.componentStack
  components := s.components
  nextIndex := s.nextIndex + 1
  searchStack := ⟨node, successorsOf node, 0⟩ :: s.searchStack

/-- The members popped up to a node, and the stack below. -/
def popComponent (indexByNode : α → Option Nat) (node : α) : List α → List α × List α
  | [] => ([], [])
  | member :: stack =>
    if indexByNode member = indexByNode node then ([member], stack)
    else
      let rest := popComponent indexByNode node stack
      (member :: rest.1, rest.2)

/-- A node that is done: it may close a component. -/
def Search.close (s : Search α) (node : α) : Search α :=
  if some (s.lowLinkByNode node) = s.indexByNode node then
    let popped := popComponent s.indexByNode node s.componentStack
    { s with componentStack := popped.2, components := s.components ++ [popped.1] }
  else s

/-- The low link of a node, lowered. -/
def Search.lower (s : Search α) (node : α) (low : Nat) : Search α :=
  { s with
    lowLinkByNode := Function.update s.lowLinkByNode node (min (s.lowLinkByNode node) low) }

/-- The body of the loop. -/
def Search.step (successorsOf : α → List α) (s : Search α) : Option (Search α) :=
  match s.searchStack with
  | [] => none
  | frame :: frames =>
    match frame.successors[frame.nextSuccessor]? with
    | some successor =>
      let s := { s with
        searchStack := { frame with nextSuccessor := frame.nextSuccessor + 1 } :: frames }
      match s.indexByNode successor with
      | none => some (s.discover successorsOf successor)
      | some index =>
        if successor ∈ s.componentStack then some (s.lower frame.node index) else some s
    | none =>
      let s := Search.close { s with searchStack := frames } frame.node
      match frames with
      | [] => some s
      | parent :: _ => some (s.lower parent.node (s.lowLinkByNode frame.node))

/-- The search from one root. -/
def Search.fromRoot (successorsOf : α → List α) (fuel : Nat) (s : Search α) (root : α) :
    Option (Search α) :=
  if (s.indexByNode root).isSome then some s
  else
    Loop.run (fun s => !s.searchStack.isEmpty) (Search.step successorsOf) fuel
      (s.discover successorsOf root)

/-! ### The condensed graph -/

/-- The loops that number the components, from an index on. -/
def numberComponents : Nat → List (List α) → (α → Option Nat) → α → Option Nat
  | _, [], componentByNode => componentByNode
  | componentIdx, c :: components, componentByNode =>
    numberComponents (componentIdx + 1) components
      (c.foldl (fun m node => Function.update m node (some componentIdx)) componentByNode)

structure ComponentEdges where
  successors : List (List Nat)
  predecessors : List (List Nat)

/-- Adding to one of several sets. -/
def addTo (sets : List (List Nat)) (i x : Nat) : List (List Nat) :=
  sets.modify i fun set => if x ∈ set then set else set ++ [x]

/-- An edge between the components `source` and `target`. -/
def ComponentEdges.add (edges : ComponentEdges) (source target : Nat) : ComponentEdges :=
  if source = target ∨ target ∈ edges.successors.getD source [] then edges
  else
    { successors := addTo edges.successors source target
      predecessors := addTo edges.predecessors target source }

/-- The edges of one node. -/
def ComponentEdges.addNode (componentByNode : α → Option Nat) (edges : ComponentEdges)
    (adjacency : α × List α) : ComponentEdges :=
  adjacency.2.foldl
    (fun edges successor =>
      edges.add ((componentByNode adjacency.1).getD 0) ((componentByNode successor).getD 0)) edges

def condense (s : Search α) : DirectedGraphCondensation α :=
  let componentByNode := numberComponents 0 s.components fun _ => none
  let none := s.components.map fun _ => []
  let edges := s.adjacencyByNode.foldl (ComponentEdges.addNode componentByNode) ⟨none, none⟩
  { components := s.components
    componentByNode := componentByNode
    successorsByComponent := edges.successors
    predecessorsByComponent := edges.predecessors }

/-- `fuel` bounds the rounds of each search. -/
def condenseDirectedGraph (fuel : Nat) (roots : List α) (successorsOf : α → List α) :
    Option (DirectedGraphCondensation α) :=
  (roots.foldlM (Search.fromRoot successorsOf fuel) Search.start).map condense

example : (condenseDirectedGraph 20 [0, 3] fun n : Nat =>
      if n = 0 then [1, 0] else if n = 1 then [2, 2] else if n = 2 then [1] else [0]).map
    (fun r => (r.components, r.successorsByComponent)) =
      some ([[2, 1], [0], [3]], [[], [0], [1]]) := by decide +kernel

end Js2Wasm.Analysis
