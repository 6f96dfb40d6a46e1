import Js2Wasm.Lib.SpanTree

/-! # Conflicts of `var` with lexical names

`checkVarLexicalConflicts` (`compiler/early-errors/duplicates.ts`).  The check of a block looks
for `var` declarations below the block whose names the block declares lexically.  The direct walk,
`collectVarDeclaredNamesInBlock`, visits the block's subtree.  The check itself lists the
declarations below the nearest function, class or file once, keeps the list, and selects by
position.

A syntax tree is a `SpanTree`; the labels say of a node what the check reads.  Children of a
block are its statements.  The parser's part, that spans nest and that names are not empty, is a
field of `SourceFile`.

The names below a block are those whose positions lie in the block's span
(`SpanTree.filter_collectAll`), so a query of the index selects what the direct walk visits, in
the same order (`queryIndex_eq`).  The cache holds an index only under the node that it was built
for, whatever checks went before (`Fits`).
-/
namespace Js2Wasm.EarlyErrors
open SpanTrees List Option

/-- An identifier node, with the positions it stands at. -/
structure Identifier where
  text : String
  pos : Nat
  stop : Nat
  deriving DecidableEq

/-- The node kinds that the check tells apart.  A variable statement has its flags and the name
of each declaration, none where the name is a pattern. -/
inductive Kind where
  | sourceFile
  | block
  | variableStatement (flags : Nat) (names : List (Option Identifier))
  | functionDeclaration (name : Option String)
  | functionExpression
  | arrowFunction
  | methodDeclaration
  | constructorDeclaration
  | getAccessor
  | setAccessor
  | classDeclaration (name : Option String)
  | classExpression
  | classStaticBlock
  | other
  deriving DecidableEq

abbrev Node := SpanTree Kind

/-- `ts.NodeFlags.Let` -/
def flagLet : Nat := 1

/-- `ts.NodeFlags.Const` -/
def flagConst : Nat := 2

/-- Where `var` hoisting stops. -/
def isVarScopeBoundary : Kind → Bool
  | .functionDeclaration _ | .functionExpression | .arrowFunction | .methodDeclaration
  | .constructorDeclaration | .getAccessor | .setAccessor | .classDeclaration _
  | .classExpression => true
  | _ => false

def isLetOrConst (flags : Nat) : Bool := flags &&& flagLet != 0 || flags &&& flagConst != 0

structure Error where
  node : Identifier
  message : String
  deriving DecidableEq

def redeclared (node : Identifier) : Error where
  node := node
  message := s!"Cannot redeclare block-scoped variable '{node.text}'"

/-! ### The direct walk -/

/-- What the walk does at a node, if it goes no further. -/
def conflictsAt (lexicalNames : List String) : Kind → Option (List Error)
  | .variableStatement flags names =>
    if isLetOrConst flags then some []
    else some (names.filterMap fun name =>
      name.bind fun id => if id.text ∈ lexicalNames then some (redeclared id) else none)
  | k => if isVarScopeBoundary k then some [] else none

def collectVarDeclaredNamesInBlock (node : Node) (lexicalNames : List String) : List Error :=
  node.collect (conflictsAt lexicalNames)

/-! ### The index -/

structure VarDeclIndex where
  nodes : List Identifier
  sorted : Bool

/-- What the index walk does at a node, if it goes no further. -/
def declaredAt : Kind → Option (List Identifier)
  | .variableStatement flags names =>
    if isLetOrConst flags then some [] else some (names.filterMap id)
  | k => if isVarScopeBoundary k then some [] else none

/-- The loop that compares neighbours. -/
def isSorted : List Nat → Bool
  | x :: y :: rest => if y < x then false else isSorted (y :: rest)
  | _ => true

def buildVarDeclIndex (root : Node) : VarDeclIndex :=
  let nodes :=
    if isVarScopeBoundary root.label then SpanTree.collectAll declaredAt root.children
    else root.collect declaredAt
  { nodes := nodes, sorted := isSorted (nodes.map Identifier.pos) }

/-- The walk up from a parent. -/
def rootFrom (file : Node) (place : List Nat) : Option (List Nat) :=
  (file.at? place).bind fun current =>
    if current.label = .sourceFile || isVarScopeBoundary current.label then some place
    else match current.label with
      | .variableStatement _ _ => none
      | _ => match place with
        | [] => none
        | _ :: up => rootFrom file up

/-- The nearest enclosing root of a block, unless a variable statement comes first. -/
def varScopeRootOf (file : Node) (block : Node) (place : List Nat) : Option (List Nat) :=
  if block.label = .sourceFile then some place
  else match place with
    | [] => none
    | _ :: up => rootFrom file up

/-! ### The check -/

/-- The kinds whose body blocks are function bodies. -/
def isFunctionBodyParent : Kind → Bool
  | .functionDeclaration _ | .functionExpression | .arrowFunction | .methodDeclaration
  | .constructorDeclaration | .getAccessor | .setAccessor | .classStaticBlock => true
  | _ => false

def parentKind (file : Node) : List Nat → Option Kind
  | [] => none
  | _ :: up => (file.at? up).map SpanTree.label

def isFunctionBodyBlock (file : Node) (block : Node) (place : List Nat) : Bool :=
  block.label = .block && (parentKind file place).any isFunctionBodyParent

/-- The names that a statement declares lexically. -/
def lexicalNamesOf (functionsAreLexical : Bool) : Kind → List String
  | .variableStatement flags names =>
    if isLetOrConst flags then names.filterMap (Option.map Identifier.text) else []
  | .functionDeclaration (some name) => if functionsAreLexical then [name] else []
  | .classDeclaration (some name) => [name]
  | _ => []

def lexicalNames (file : Node) (block : Node) (place : List Nat) : List String :=
  let functionsAreLexical := block.label = .block && !isFunctionBodyBlock file block place
  block.children.flatMap fun stmt => lexicalNamesOf functionsAreLexical stmt.label

/-- The loop over the entries of the index. -/
def scanIndex (sorted : Bool) (lo hi : Nat) (lexicalNames : List String) :
    List Identifier → List Error
  | [] => []
  | node :: nodes =>
    if hi ≤ node.pos then if sorted then [] else scanIndex sorted lo hi lexicalNames nodes
    else if node.pos < lo || hi < node.stop then scanIndex sorted lo hi lexicalNames nodes
    else if node.text ∈ lexicalNames then
      redeclared node :: scanIndex sorted lo hi lexicalNames nodes
    else scanIndex sorted lo hi lexicalNames nodes

/-- The search for the first entry, when the entries are sorted, and the loop from there. -/
def queryIndex (index : VarDeclIndex) (lo hi : Nat) (lexicalNames : List String) : List Error :=
  let first :=
    if index.sorted then
      lowerBound (index.nodes.map Identifier.pos) lo 0 index.nodes.length
    else 0
  scanIndex index.sorted lo hi lexicalNames (index.nodes.drop first)

/-- Spans of names, as the parser makes them. -/
def identifierSpans : SpanTree.Spans Identifier where
  first := Identifier.pos
  last := Identifier.stop

structure SourceFile where
  root : Node
  nested : root.Nested identifierSpans declaredAt

section Cache
variable {F : Type*} [DecidableEq F] (files : F → SourceFile)

/-- The cache that all checks share, by the root node. -/
abbrev Cache (F : Type*) := F × List Nat → Option VarDeclIndex

/-- The errors of a check, and the cache after it. -/
def checkVarLexicalConflicts (cache : Cache F) (file : F) (place : List Nat) :
    Cache F × List Error :=
  let root := (files file).root
  match root.at? place with
  | none => (cache, [])
  | some block =>
    let names := lexicalNames root block place
    if names = [] then (cache, [])
    else match varScopeRootOf root block place with
      | none => (cache, collectVarDeclaredNamesInBlock block names)
      | some scope =>
        match cache (file, scope) with
        | some index => (cache, queryIndex index block.start block.stop names)
        | none =>
          match root.at? scope with
          | none => (cache, [])
          | some scopeRoot =>
            let index := buildVarDeclIndex scopeRoot
            (Function.update cache (file, scope) (some index),
              queryIndex index block.start block.stop names)

/-- Checks one after the other, the errors of each. -/
def checkAll : Cache F → List (F × List Nat) → List (List Error)
  | _, [] => []
  | cache, (file, place) :: checks =>
    let result := checkVarLexicalConflicts files cache file place
    result.2 :: checkAll result.1 checks

/-- What the direct walk reports of the same block with the same names. -/
def directErrors (file : F) (place : List Nat) : List Error :=
  match (files file).root.at? place with
  | none => []
  | some block =>
    collectVarDeclaredNamesInBlock block (lexicalNames (files file).root block place)

end Cache

/-! ## The index answers as the walk does -/

/-- The error at a name, if it conflicts. -/
def conflict (lexicalNames : List String) (node : Identifier) : Option Error :=
  if node.text ∈ lexicalNames then some (redeclared node) else none

theorem conflictsAt_eq (lexicalNames : List String) :
    conflictsAt lexicalNames = fun k =>
      (declaredAt k).map (List.filterMap (conflict lexicalNames)) := by
  funext k
  cases k with
  | variableStatement flags names =>
    rw [conflictsAt, declaredAt]
    split_ifs
    · rfl
    · rw [map_some, filterMap_filterMap]
      rfl
  | _ => rfl

/-- The direct walk finds the conflicts among the declarations below a node. -/
theorem collectVarDeclaredNamesInBlock_eq (node : Node) (lexicalNames : List String) :
    collectVarDeclaredNamesInBlock node lexicalNames =
      (node.collect declaredAt).filterMap (conflict lexicalNames) := by
  rw [collectVarDeclaredNamesInBlock, conflictsAt_eq, SpanTree.collect_filterMap]

/-! ### Queries -/

theorem pairwise_of_isSorted {l : List Nat} (h : isSorted l) : l.Pairwise fun x y => x ≤ y := by
  fun_induction isSorted l with
  | case1 => cases h
  | case2 x y rest hxy ih =>
    have hrest := ih h
    refine pairwise_cons.mpr ⟨fun z hz => ?_, hrest⟩
    rcases mem_cons.mp hz with rfl | hz
    · exact Nat.le_of_not_lt hxy
    · exact (Nat.le_of_not_lt hxy).trans ((pairwise_cons.mp hrest).1 z hz)
  | case3 l hl =>
    rcases l with _ | ⟨x, _ | ⟨y, rest⟩⟩
    · exact List.Pairwise.nil
    · exact pairwise_singleton _ _
    · exact absurd rfl (hl x y rest)

theorem inSpan_iff {lo hi : Nat} {node : Identifier} :
    SpanTree.inSpan identifierSpans lo hi node ↔
      lo ≤ node.pos ∧ node.pos < hi ∧ node.stop ≤ hi := by
  rw [SpanTree.inSpan, Bool.and_eq_true, Bool.and_eq_true, decide_eq_true_eq, decide_eq_true_eq,
    decide_eq_true_eq, and_assoc]
  rfl

theorem scanIndex_eq {sorted : Bool} (lo hi : Nat) (lexicalNames : List String)
    {nodes : List Identifier}
    (hs : sorted → nodes.Pairwise fun a b => a.pos ≤ b.pos) :
    scanIndex sorted lo hi lexicalNames nodes =
      (nodes.filter (SpanTree.inSpan identifierSpans lo hi)).filterMap (conflict lexicalNames) := by
  induction nodes with
  | nil => rfl
  | cons node nodes ih =>
    have hrest := ih fun h => (pairwise_cons.mp (hs h)).2
    rw [scanIndex]
    split_ifs with hhi hsorted hout hname
    · -- the rest begins behind the span too
      have hnone : (node :: nodes).filter (SpanTree.inSpan identifierSpans lo hi) = [] := by
        refine filter_eq_nil_iff.mpr fun b hb => ?_
        have hle : hi ≤ b.pos := by
          rcases mem_cons.mp hb with rfl | hb
          · exact hhi
          · exact hhi.trans ((pairwise_cons.mp (hs hsorted)).1 b hb)
        rw [inSpan_iff]
        omega
      rw [hnone, filterMap_nil]
    · rw [hrest, filter_cons_of_neg]
      rw [inSpan_iff]
      omega
    · rw [hrest, filter_cons_of_neg]
      rw [inSpan_iff]
      simp only [Bool.or_eq_true, decide_eq_true_eq] at hout
      omega
    all_goals
      have hin : SpanTree.inSpan identifierSpans lo hi node := by
        rw [inSpan_iff]
        simp only [Bool.or_eq_true, decide_eq_true_eq] at hout
        omega
      rw [hrest, filter_cons_of_pos hin]
    · exact (filterMap_cons_some (by rw [conflict, if_pos hname])).symm
    · exact (filterMap_cons_none (by rw [conflict, if_neg hname])).symm

/-- A query selects by position, sorted or not. -/
theorem queryIndex_eq (root : Node) (lo hi : Nat) (lexicalNames : List String) :
    queryIndex (buildVarDeclIndex root) lo hi lexicalNames =
      ((buildVarDeclIndex root).nodes.filter (SpanTree.inSpan identifierSpans lo hi)).filterMap
        (conflict lexicalNames) := by
  obtain ⟨nodes, hnodes⟩ : ∃ nodes, (buildVarDeclIndex root).nodes = nodes := ⟨_, rfl⟩
  have hsorted : (buildVarDeclIndex root).sorted = isSorted (nodes.map Identifier.pos) := by
    rw [← hnodes]
    rfl
  rw [queryIndex, hnodes, hsorted]
  by_cases h : isSorted (nodes.map Identifier.pos)
  · rw [if_pos h]
    have hpos := pairwise_of_isSorted h
    have hpair := pairwise_map.mp hpos
    have hskip : ∀ x ∈ (nodes.map Identifier.pos).take
        (lowerBound (nodes.map Identifier.pos) lo 0 nodes.length), x < lo :=
      lowerBound_spec hpos (Nat.le_of_eq (length_map _).symm)
        fun x hx => nomatch hx
    generalize lowerBound (nodes.map Identifier.pos) lo 0 nodes.length = first at hskip ⊢
    have hnone : (nodes.take first).filter (SpanTree.inSpan identifierSpans lo hi) = [] := by
      refine filter_eq_nil_iff.mpr fun node hn => ?_
      have hlt := hskip node.pos (map_take ▸ mem_map_of_mem hn)
      rw [inSpan_iff]
      omega
    rw [scanIndex_eq lo hi lexicalNames fun _ => hpair.sublist (drop_sublist first nodes)]
    conv_rhs => rw [← take_append_drop first nodes, filter_append, hnone, nil_append]
  · rw [if_neg h, drop_zero]
    exact scanIndex_eq lo hi lexicalNames fun hs => absurd hs h

/-! ### The root of a block -/

theorem declaredAt_eq_none {k : Kind} (hb : isVarScopeBoundary k = false)
    (hv : ∀ flags names, k ≠ .variableStatement flags names) : declaredAt k = none := by
  cases k with
  | variableStatement flags names => exact absurd rfl (hv flags names)
  | _ => first | rfl | cases hb

variable {n file block root : Node} {scope place : List Nat}

/-- The root found is a file or a boundary above the block, and nothing between them stops a
walk. -/
theorem reaches_of_rootFrom {up : List Nat} (hn : file.at? up = some n) (hb : block ∈ n.children)
    (h : rootFrom file up = some scope) :
    ∃ root : Node, file.at? scope = some root ∧
      (root.label = .sourceFile ∨ isVarScopeBoundary root.label) ∧
      ∃ c ∈ root.children, SpanTree.Reaches declaredAt c block := by
  induction up generalizing n block with
  | nil =>
    rw [rootFrom, hn, bind_some] at h
    split_ifs at h with hroot
    · cases h
      exact ⟨n, hn, by simpa using hroot, block, hb, .self⟩
    · split at h <;> cases h
  | cons i up ih =>
    rw [rootFrom, hn, bind_some] at h
    split_ifs at h with hroot
    · cases h
      exact ⟨n, hn, by simpa using hroot, block, hb, .self⟩
    · obtain ⟨p, hp, hpn⟩ := bind_eq_some_iff.mp (show (file.at? up).bind _ = some n from hn)
      simp only [Bool.or_eq_true, decide_eq_true_eq, not_or, Bool.not_eq_true] at hroot
      split at h
      · cases h
      · rename_i hv
        obtain ⟨root, hr, hk, c, hc, hreach⟩ := ih hp (mem_of_getElem? hpn) h
        exact ⟨root, hr, hk, c, hc,
          hreach.child (declaredAt_eq_none hroot.2 fun flags names => hv flags names) hb⟩

theorem nested_at (h : root.Nested identifierSpans declaredAt) (hn : root.at? place = some n) :
    n.Nested identifierSpans declaredAt := by
  induction place generalizing n with
  | nil =>
    cases hn
    exact h
  | cons i up ih =>
    obtain ⟨p, hp, hpn⟩ := bind_eq_some_iff.mp (show (root.at? up).bind _ = some n from hn)
    exact (ih hp).child (mem_of_getElem? hpn)

theorem nodes_buildVarDeclIndex (h : root.label = .sourceFile ∨ isVarScopeBoundary root.label) :
    (buildVarDeclIndex root).nodes = SpanTree.collectAll declaredAt root.children := by
  rw [buildVarDeclIndex]
  rcases h with h | h
  · have hb : ¬ isVarScopeBoundary root.label := by
      rw [h]
      exact Bool.false_ne_true
    obtain ⟨s, e, k, cs⟩ := root
    obtain rfl : k = .sourceFile := h
    rfl
  · rw [if_pos h]

/-- **The index of a block's root, in the block's span.** -/
theorem query_varScopeRoot (hfile : file.Nested identifierSpans declaredAt)
    (hb : file.at? place = some block) (h : varScopeRootOf file block place = some scope)
    (lexicalNames : List String) :
    ∃ root : Node, file.at? scope = some root ∧
      queryIndex (buildVarDeclIndex root) block.start block.stop lexicalNames =
        collectVarDeclaredNamesInBlock block lexicalNames := by
  unfold varScopeRootOf at h
  split_ifs at h with hsource
  · -- the block is the file
    cases h
    refine ⟨block, hb, ?_⟩
    have hnodes : (buildVarDeclIndex block).nodes = block.collect declaredAt := by
      rw [buildVarDeclIndex, hsource]
      rfl
    rw [queryIndex_eq, collectVarDeclaredNamesInBlock_eq, hnodes,
      SpanTree.filter_inSpan_collect (nested_at hfile hb)]
  · rcases place with _ | ⟨i, up⟩
    · cases h
    · obtain ⟨p, hp, hpb⟩ :=
        bind_eq_some_iff.mp (show (file.at? up).bind _ = some block from hb)
      obtain ⟨root, hroot, hk, c, hc, hreach⟩ :=
        reaches_of_rootFrom hp (mem_of_getElem? hpb) h
      obtain ⟨hall, hapart⟩ := (nested_at hfile hroot).children
      refine ⟨root, hroot, ?_⟩
      rw [queryIndex_eq, collectVarDeclaredNamesInBlock_eq, nodes_buildVarDeclIndex hk,
        SpanTree.filter_collectAll hreach hall hapart hc]

/-! ### The cache -/

section Cache
variable {F : Type*} [DecidableEq F] {files : F → SourceFile}

/-- An index is kept only under the node that it was built for. -/
def Fits (files : F → SourceFile) (cache : Cache F) : Prop :=
  ∀ file place index, cache (file, place) = some index →
    ∃ root, (files file).root.at? place = some root ∧ index = buildVarDeclIndex root

theorem collectVarDeclaredNamesInBlock_nil (node : Node) :
    collectVarDeclaredNamesInBlock node [] = [] := by
  rw [collectVarDeclaredNamesInBlock_eq]
  exact filterMap_eq_nil_iff.mpr fun id _ => if_neg not_mem_nil

/-- One check, from any cache that fits. -/
theorem checkVarLexicalConflicts_spec {cache : Cache F} (hcache : Fits files cache) (file : F)
    (place : List Nat) :
    Fits files (checkVarLexicalConflicts files cache file place).1 ∧
      (checkVarLexicalConflicts files cache file place).2 = directErrors files file place := by
  have hnested := (files file).nested
  rw [checkVarLexicalConflicts, directErrors]
  rcases hb : (files file).root.at? place with _ | block
  · exact ⟨hcache, rfl⟩
  · simp only
    split_ifs with hnames
    · rw [hnames, collectVarDeclaredNamesInBlock_nil]
      exact ⟨hcache, rfl⟩
    · rcases hscope : varScopeRootOf (files file).root block place with _ | scope
      · exact ⟨hcache, rfl⟩
      · obtain ⟨root, hroot, hquery⟩ := query_varScopeRoot hnested hb hscope
          (lexicalNames (files file).root block place)
        simp only
        rcases hindex : cache (file, scope) with _ | index
        · simp only [hroot]
          refine ⟨fun file' place' index' h => ?_, hquery⟩
          rw [Function.update_apply] at h
          split_ifs at h with heq
          · cases heq
            exact ⟨root, hroot, (some.inj h).symm⟩
          · exact hcache file' place' index' h
        · obtain ⟨root', hroot', rfl⟩ := hcache file scope index hindex
          obtain rfl := some.inj (hroot.symm.trans hroot')
          exact ⟨hcache, hquery⟩

/-- **The checks report what the direct walks report.**  The blocks may be of any files, in any
order and any number of times. -/
theorem checkAll_eq (files : F → SourceFile) (checks : List (F × List Nat)) :
    checkAll files (fun _ => none) checks = checks.map fun c => directErrors files c.1 c.2 := by
  suffices h : ∀ cache, Fits files cache →
      checkAll files cache checks = checks.map fun c => directErrors files c.1 c.2 from
    h _ fun _ _ _ h => absurd h (by simp)
  induction checks with
  | nil => exact fun _ _ => rfl
  | cons c checks ih =>
    intro cache hcache
    obtain ⟨hfits, herrors⟩ := checkVarLexicalConflicts_spec hcache c.1 c.2
    rw [checkAll, map_cons, herrors, ih _ hfits]

end Cache

/-- A statement that declares one name. -/
def declares (flags start stop : Nat) (name : Identifier) : Node :=
  .node start stop (.variableStatement flags [some name]) []

/-- `{let x;var x}{var x;function f(){let y;{var y}}}class C{static{let z;var z}}` -/
def touchingBlocks : SourceFile where
  root :=
    .node 0 76 .sourceFile [
      .node 0 13 .block [declares flagLet 1 7 ⟨"x", 4, 6⟩, declares 0 7 12 ⟨"x", 10, 12⟩],
      .node 13 48 .block [declares 0 14 20 ⟨"x", 17, 19⟩,
        .node 20 47 (.functionDeclaration (some "f")) [.node 32 47 .block [
          declares flagLet 33 39 ⟨"y", 36, 38⟩,
          .node 39 46 .block [declares 0 40 45 ⟨"y", 43, 45⟩]]]],
      .node 48 76 (.classDeclaration (some "C")) [.node 56 75 .classStaticBlock [
        .node 62 75 .block [declares flagLet 63 69 ⟨"z", 66, 68⟩,
          declares 0 69 74 ⟨"z", 72, 74⟩]]]]
  nested := by
    simp [SpanTree.Nested, SpanTree.NestedAll, SpanTree.start, SpanTree.stop, SpanTree.Apart,
      declares, declaredAt, isLetOrConst, isVarScopeBoundary, identifierSpans, flagLet, flagConst]

/-- The first block twice, the second one, the body of the function and that of the static
block. -/
theorem checkAll_eq_touching :
    checkAll (fun _ : Unit => touchingBlocks) (fun _ => none)
      [((), [0]), ((), [1]), ((), [0, 1, 1]), ((), [0, 0, 2]), ((), [0])] =
      [[redeclared ⟨"x", 10, 12⟩], [], [redeclared ⟨"y", 43, 45⟩], [redeclared ⟨"z", 72, 74⟩],
        [redeclared ⟨"x", 10, 12⟩]] :=
  (checkAll_eq _ _).trans (by decide)

end Js2Wasm.EarlyErrors
