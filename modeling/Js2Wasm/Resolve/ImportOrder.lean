import Js2Wasm.Lib.DepthFirst
import Mathlib.Data.Fintype.Card

/-! # The walk of the import graph

`resolveAllImports` reads a file, resolves the specifiers of its imports, walks the files
they name and only then stores the file: a depth-first post-order walk.  The visited set,
the set of files on the stack and the map of stored sources are the source's own.

The resolver (file access, canonical paths, specifier resolution, the CommonJS rewrite and
the parser) is a parameter.  With `consumerDrivenBarrels` a demand loop first selects the
modules and edges its consumers need; what it selects is a parameter too, and the walk
over it is `order`.

Both modes of `resolveAllImports` walk a `Selection`: in the default mode everything that
can be read, with all its imports, in the consumer-driven mode what the demand loop
selected.  `walk_rel` relates that walk to the depth-first walk of the graph of the
selection, and `resolveAllImports_postOrder` says what it returns.
-/

namespace Js2Wasm.Resolve
open List DepthFirst

/-- A top-level statement, as far as the walk looks at it. -/
inductive TopLevel (Specifier : Type) where
  /-- The module specifier, when it is a string literal. -/
  | importDeclaration (moduleSpecifier : Option Specifier)
  | exportDeclaration (moduleSpecifier : Option Specifier)
  /-- The static `require` calls below the initializer of each declaration. -/
  | variableStatement (requires : List (List Specifier))
  | other

structure SourceFile (Specifier : Type) where
  statements : List (TopLevel Specifier)
  /-- For each comment, its `import("...")` types and its `@import` tags. -/
  comments : List (List Specifier × List Specifier)

inductive ImportEdge where
  | plain
  | esmImport
  deriving DecidableEq

structure Resolver (Path Specifier Source : Type) where
  consumerDrivenBarrels : Bool
  /-- `path.resolve` -/
  absolute : Path → Path
  canonicalize : Path → Path
  getStaticJsonSource : Path → Option Source
  readFileSync : Path → Option Source
  foldSource : Source → Path → Source
  rewriteCjsRequire : Source → Source
  createSourceFile : Path → Source → SourceFile Specifier
  resolve : Specifier → Path → ImportEdge → Option Path

section Walk
variable {Path Specifier Source : Type} [DecidableEq Path] [DecidableEq Specifier]
  [DecidableEq Source]

/-! ### The edges of a file -/

def TopLevel.specifiers (esmEdge : ImportEdge) : TopLevel Specifier → List (Specifier × ImportEdge)
  | .importDeclaration moduleSpecifier => moduleSpecifier.toList.map (·, esmEdge)
  | .exportDeclaration moduleSpecifier => moduleSpecifier.toList.map (·, esmEdge)
  | .variableStatement requires => requires.flatten.map (·, .plain)
  | .other => []

def SourceFile.jsdocSpecifiers (sf : SourceFile Specifier) : List Specifier :=
  (sf.comments.flatMap fun c => c.1 ++ c.2).eraseDups

/-- Every specifier resolved for a file, in order. -/
def SourceFile.specifiers (sf : SourceFile Specifier) (esmEdge : ImportEdge) :
    List (Specifier × ImportEdge) :=
  sf.statements.flatMap (TopLevel.specifiers esmEdge) ++ sf.jsdocSpecifiers.map (·, .plain)

namespace Resolver
variable (resolver : Resolver Path Specifier Source)

/-- The text a file is read as, if it can be read. -/
def content? (canonicalPath : Path) : Option Source :=
  match resolver.getStaticJsonSource canonicalPath with
  | some content => some content
  | none => (resolver.readFileSync canonicalPath).map (resolver.foldSource · canonicalPath)

/-- Only a file the rewrite leaves as it is has ESM edges. -/
def esmEdge (content : Source) : ImportEdge :=
  if resolver.rewriteCjsRequire content = content then .esmImport else .plain

/-- The paths the specifiers of a file resolve to. -/
def resolvedPaths (canonicalPath : Path) (content : Source) : List Path :=
  let sf := resolver.createSourceFile canonicalPath (resolver.rewriteCjsRequire content)
  (sf.specifiers (resolver.esmEdge content)).filterMap fun s =>
    resolver.resolve s.1 canonicalPath s.2

end Resolver

/-! ### The walk -/

structure Walk (Path Source : Type) where
  resolved : List (Path × Source)
  visited : List Path
  onStack : List Path

def Walk.empty : Walk Path Source := { resolved := [], visited := [], onStack := [] }

/-- `Set.add`. -/
def setAdd (s : List Path) (p : Path) : List Path := if p ∈ s then s else s ++ [p]

/-- `Set.delete`. -/
def setDelete (s : List Path) (p : Path) : List Path := s.filter (· ≠ p)

/-- `Map.set`. -/
def mapSet (m : List (Path × Source)) (p : Path) (c : Source) : List (Path × Source) :=
  if p ∈ m.map Prod.fst then m.map fun e => if e.1 = p then (p, c) else e else m ++ [(p, c)]

/-- The end of a visit. -/
def Walk.finish (w : Walk Path Source) (canonicalPath : Path) (content : Source) :
    Walk Path Source :=
  { resolved := mapSet w.resolved canonicalPath content
    visited := setAdd w.visited canonicalPath
    onStack := setDelete w.onStack canonicalPath }

/-- The inner function of `resolveAllImports`; the number bounds the depth of the calls. -/
def visit (resolver : Resolver Path Specifier Source) :
    Nat → Walk Path Source → Path → Option (Walk Path Source)
  | 0, _, _ => none
  | n + 1, w, filePath =>
    let canonicalPath := resolver.canonicalize filePath
    if canonicalPath ∈ w.visited ∨ canonicalPath ∈ w.onStack then some w
    else
      let w := { w with onStack := setAdd w.onStack canonicalPath }
      match resolver.content? canonicalPath with
      | none => some { w with onStack := setDelete w.onStack canonicalPath }
      | some content =>
        ((resolver.resolvedPaths canonicalPath content).foldlM (visit resolver n) w).map
          fun w => w.finish canonicalPath (resolver.rewriteCjsRequire content)

/-- What the demand loop of the consumer-driven mode leaves: the contents of the modules it
loaded and still demands, and the edges it selected. -/
structure Selection (Path Source : Type) where
  demanded : Path → Option Source
  selectedEdges : Path → List Path

/-- The inner function of `resolveConsumerDrivenImports` that orders what was selected. -/
def order (resolver : Resolver Path Specifier Source) (selection : Selection Path Source) :
    Nat → Walk Path Source → Path → Option (Walk Path Source)
  | 0, _, _ => none
  | n + 1, w, filePath =>
    let canonicalPath := resolver.canonicalize filePath
    if canonicalPath ∈ w.visited ∨ canonicalPath ∈ w.onStack then some w
    else
      match selection.demanded canonicalPath with
      | none => some w
      | some content =>
        let w := { w with onStack := setAdd w.onStack canonicalPath }
        ((selection.selectedEdges canonicalPath).foldlM (order resolver selection n) w).map
          fun w => w.finish canonicalPath content

/-- The demand loop, for a resolver and an entry file.  Which files and edges it selects
(`consumer-driven-barrels.ts`) is left open: the order holds for every selection. -/
abbrev Demand (Path Specifier Source : Type) :=
  Resolver Path Specifier Source → Path → Selection Path Source

/-- The sources reachable from an entry file, dependencies first; the number bounds the
depth of the recursion. -/
def resolveAllImports (demand : Demand Path Specifier Source) (fuel : Nat) (entryFile : Path)
    (resolver : Resolver Path Specifier Source) : Option (List (Path × Source)) :=
  if resolver.consumerDrivenBarrels = true then
    (order resolver (demand resolver entryFile) fuel Walk.empty
      (resolver.absolute entryFile)).map Walk.resolved
  else (visit resolver fuel Walk.empty (resolver.absolute entryFile)).map Walk.resolved

end Walk

/-! ## The order of the walk -/

variable {Path Specifier Source : Type} [DecidableEq Path]

/-! ### The graph that is walked -/

/-- The graph of a selection, on canonical paths. -/
def Selection.graph (selection : Selection Path Source) (canonicalize : Path → Path)
    (p : Path) : Option (List Path) :=
  (selection.demanded p).map fun _ => (selection.selectedEdges p).map canonicalize

section
variable [DecidableEq Specifier] [DecidableEq Source]

/-- Every readable file with the paths of all its imports. -/
def Resolver.everything (resolver : Resolver Path Specifier Source) : Selection Path Source where
  demanded p := (resolver.content? p).map resolver.rewriteCjsRequire
  selectedEdges p := (resolver.content? p).elim [] (resolver.resolvedPaths p)

/-- What `resolveAllImports` walks. -/
def walked (demand : Demand Path Specifier Source) (resolver : Resolver Path Specifier Source)
    (entryFile : Path) : Selection Path Source :=
  if resolver.consumerDrivenBarrels = true then demand resolver entryFile
  else resolver.everything

/-- The import graph as `resolveAllImports` sees it. -/
def importGraph (demand : Demand Path Specifier Source)
    (resolver : Resolver Path Specifier Source) (entryFile : Path) : Path → Option (List Path) :=
  (walked demand resolver entryFile).graph resolver.canonicalize

/-- The canonical path of the entry file. -/
def root (resolver : Resolver Path Specifier Source) (entryFile : Path) : Path :=
  resolver.canonicalize (resolver.absolute entryFile)

theorem setDelete_setAdd {s : List Path} {p : Path} (h : p ∉ s) : setDelete (setAdd s p) p = s := by
  rw [setAdd, if_neg h, setDelete, filter_append, filter_singleton]
  simp only [ne_eq, not_true_eq_false, decide_false, cond_false, append_nil]
  exact filter_eq_self.mpr fun q hq => decide_eq_true fun hqp => h (hqp ▸ hq)

/-- The walk of the default mode is the walk of everything. -/
theorem visit_eq_order (resolver : Resolver Path Specifier Source) (n : Nat)
    (w : Walk Path Source) (p : Path) :
    visit resolver n w p = order resolver resolver.everything n w p := by
  induction n generalizing w p with
  | zero => rfl
  | succ n ih =>
    have hfun : visit resolver n = order resolver resolver.everything n := by
      funext w p
      exact ih w p
    simp only [visit, order, Resolver.everything]
    by_cases hseen : resolver.canonicalize p ∈ w.visited ∨ resolver.canonicalize p ∈ w.onStack
    · rw [if_pos hseen, if_pos hseen]
    · rw [if_neg hseen, if_neg hseen]
      cases resolver.content? (resolver.canonicalize p) with
      | none =>
        show some { w with onStack := setDelete (setAdd w.onStack _) _ } = some w
        rw [setDelete_setAdd fun h => hseen (Or.inr h)]
      | some content =>
        rw [hfun]
        rfl

theorem resolveAllImports_eq (demand : Demand Path Specifier Source) (fuel : Nat)
    (entryFile : Path) (resolver : Resolver Path Specifier Source) :
    resolveAllImports demand fuel entryFile resolver =
      (order resolver (walked demand resolver entryFile) fuel Walk.empty
        (resolver.absolute entryFile)).map Walk.resolved := by
  rw [resolveAllImports, walked]
  by_cases hflag : resolver.consumerDrivenBarrels = true
  · rw [if_pos hflag, if_pos hflag]
  · rw [if_neg hflag, if_neg hflag, visit_eq_order]

end

/-! ### The walk and the depth-first walk -/

section Simulation
variable {resolver : Resolver Path Specifier Source} {selection : Selection Path Source}

/-- The sets and the map of the walk hold what the depth-first walk has listed and has on
its stack; the map holds the contents of the selection. -/
structure Represents (selection : Selection Path Source) (w : Walk Path Source)
    (s : State Path) : Prop where
  visited : w.visited = s.done
  keys : w.resolved.map Prod.fst = s.done
  onStack : w.onStack = s.stack.reverse
  contents : ∀ e ∈ w.resolved, selection.demanded e.1 = some e.2

omit [DecidableEq Path] in
theorem empty_represents : Represents selection Walk.empty start where
  visited := rfl
  keys := rfl
  onStack := rfl
  contents _ h := nomatch h

variable {p : Path} {β α : Type} {w : Walk Path Source} {r : α → β → Prop} {a : Option α}

theorem Represents.push {s : State Path} (h : Represents selection w s) (hp : p ∉ s.stack) :
    Represents selection { w with onStack := setAdd w.onStack p }
      { s with stack := p :: s.stack } where
  visited := h.visited
  keys := h.keys
  onStack := by
    show setAdd w.onStack p = (p :: s.stack).reverse
    rw [setAdd, h.onStack, if_neg (by rwa [mem_reverse]), reverse_cons]
  contents := h.contents

theorem Represents.finish {t : State Path} (h : Represents selection w t) {stack : List Path}
    (hstack : t.stack = p :: stack) (hp : p ∉ t.done) (hp' : p ∉ stack) {content : Source}
    (hcontent : selection.demanded p = some content) :
    Represents selection (w.finish p content) { done := t.done ++ [p], stack := stack } where
  visited := by
    show setAdd w.visited p = t.done ++ [p]
    rw [setAdd, h.visited, if_neg hp]
  keys := by
    show (mapSet w.resolved p content).map Prod.fst = t.done ++ [p]
    rw [mapSet, if_neg (by rwa [h.keys]), map_append, h.keys]
    rfl
  onStack := by
    show setDelete w.onStack p = stack.reverse
    have hadd : w.onStack = setAdd stack.reverse p := by
      rw [h.onStack, hstack, reverse_cons, setAdd, if_neg (by rwa [mem_reverse])]
    rw [hadd, setDelete_setAdd (by rwa [mem_reverse])]
  contents e he := by
    have he : e ∈ w.resolved ++ [(p, content)] := by
      rwa [Walk.finish, mapSet, if_neg (by rwa [h.keys])] at he
    rcases mem_append.mp he with he | he
    · exact h.contents e he
    · rw [mem_singleton.mp he]
      exact hcontent

theorem rel_none (h : Option.Rel r a none) : a = none := by
  cases h
  rfl

theorem rel_some {b : β} (h : Option.Rel r a (some b)) : ∃ c, a = some c ∧ r c b := by
  cases h with
  | some h => exact ⟨_, rfl, h⟩

/-- The loops over the dependencies of one file follow each other. -/
theorem foldlM_rel {graph : Path → Option (List Path)} {canonicalize : Path → Path} {n : Nat}
    {f : Walk Path Source → Path → Option (Walk Path Source)} {x : Path}
    (hf : ∀ w s y, Represents selection w s → Sound graph s →
      (∀ v ∈ s.stack, Reach graph v (canonicalize y)) →
      Option.Rel (Represents selection) (f w y)
        (DepthFirst.visit graph n s (canonicalize y))) :
    ∀ (ys : List Path) (w : Walk Path Source) (s : State Path), Represents selection w s →
      Sound graph s → (∀ v ∈ s.stack, Reach graph v x) →
      (∀ y ∈ ys, Edge graph x (canonicalize y)) →
      Option.Rel (Represents selection) (ys.foldlM f w)
        ((ys.map canonicalize).foldlM (DepthFirst.visit graph n) s)
  | [], _, _, hr, _, _, _ => .some hr
  | y :: ys, w, s, hr, hs, hpath, hedge => by
    have hxy := hedge y mem_cons_self
    have hy : ∀ v ∈ s.stack, Reach graph v (canonicalize y) := fun v hv => (hpath v hv).tail hxy
    have hrel := hf w s y hr hs hy
    rw [map_cons, foldlM_cons, foldlM_cons]
    cases hvisit : DepthFirst.visit graph n s (canonicalize y) with
    | none =>
      rw [hvisit] at hrel
      rw [rel_none hrel]
      exact .none
    | some t =>
      rw [hvisit] at hrel
      obtain ⟨u, hu, hut⟩ := rel_some hrel
      have hstep := (visit_step n s _ t hs hy hvisit).1
      rw [hu]
      exact foldlM_rel hf ys u t hut hstep.sound (hstep.stack ▸ hpath) fun z hz =>
        hedge z (mem_cons_of_mem _ hz)

/-- The walk follows the depth-first walk of the graph of the selection. -/
theorem walk_rel (n : Nat) (w : Walk Path Source) (s : State Path) (p : Path)
    (hr : Represents selection w s)
    (hs : Sound (selection.graph resolver.canonicalize) s)
    (hpath : ∀ v ∈ s.stack,
      Reach (selection.graph resolver.canonicalize) v (resolver.canonicalize p)) :
    Option.Rel (Represents selection) (order resolver selection n w p)
      (DepthFirst.visit (selection.graph resolver.canonicalize) n s
        (resolver.canonicalize p)) := by
  set graph := selection.graph resolver.canonicalize with hgraph
  induction n generalizing w s p with
  | zero => exact .none
  | succ n ih =>
    set x := resolver.canonicalize p with hx
    have hseen : x ∈ w.visited ∨ x ∈ w.onStack ↔ x ∈ s.done ∨ x ∈ s.stack := by
      rw [hr.visited, hr.onStack, mem_reverse]
    simp only [order, DepthFirst.visit, ← hx]
    by_cases h : x ∈ s.done ∨ x ∈ s.stack
    · rw [if_pos h, if_pos (hseen.mpr h)]
      exact .some hr
    · rw [if_neg h, if_neg (hseen.not.mpr h)]
      obtain ⟨hdone, hstack⟩ := not_or.mp h
      cases hcontent : selection.demanded x with
      | none =>
        have hsucc : graph x = none := by rw [hgraph, Selection.graph, hcontent]; rfl
        rw [hsucc]
        exact .some hr
      | some content =>
        have hsucc : graph x = some ((selection.selectedEdges x).map resolver.canonicalize) := by
          rw [hgraph, Selection.graph, hcontent]
          rfl
        rw [hsucc]
        have hedge : ∀ y ∈ selection.selectedEdges x, Edge graph x (resolver.canonicalize y) :=
          fun y hy => ⟨_, hsucc, mem_map_of_mem hy⟩
        have hpushed : ∀ v ∈ x :: s.stack, Reach graph v x :=
          forall_mem_cons.mpr ⟨Relation.ReflTransGen.refl, hpath⟩
        have hrel := foldlM_rel ih
          (selection.selectedEdges x) _ _ (hr.push hstack) (hs.push hdone hstack) hpushed hedge
        show Option.Rel _ (Option.map _ _) (Option.map _ _)
        cases hfold : ((selection.selectedEdges x).map resolver.canonicalize).foldlM
            (DepthFirst.visit graph n) { s with stack := x :: s.stack } with
        | none =>
          rw [hfold] at hrel
          rw [rel_none hrel]
          exact .none
        | some t =>
          rw [hfold] at hrel
          obtain ⟨u, hu, hut⟩ := rel_some hrel
          obtain ⟨hsound, htstack, -, -⟩ := foldlM_step (x := x)
            (fun s y t hs hp hv => (visit_step n s y t hs hp hv).1) _ _ t
            (fun y hy => ⟨_, hsucc, hy⟩) (hs.push hdone hstack) hpushed hfold
          have hnodup := hsound.nodup
          rw [htstack] at hnodup
          have hfresh : x ∉ t.done := fun hx =>
            disjoint_of_nodup_append hnodup hx mem_cons_self
          rw [hu]
          show Option.Rel _ (some (u.finish x content))
            (some ({ done := t.done ++ [x], stack := t.stack.erase x } : State Path))
          rw [htstack, erase_cons_head]
          exact .some (hut.finish htstack hfresh hstack hcontent)

omit [DecidableEq Path] in
/-- The map is given by its keys, when it holds the contents of the selection. -/
theorem resolved_eq {l : List (Path × Source)} (h : ∀ e ∈ l, selection.demanded e.1 = some e.2) :
    l = (l.map Prod.fst).filterMap fun p => (selection.demanded p).map fun c => (p, c) := by
  induction l with
  | nil => rfl
  | cons e l ih =>
    rw [map_cons, filterMap_cons_some (b := e) (by rw [h e mem_cons_self]; rfl),
      ← ih fun e' he' => h e' (mem_cons_of_mem _ he')]

end Simulation

/-! ### What the walk returns -/

section Result
variable [DecidableEq Specifier] [DecidableEq Source]

omit [DecidableEq Path] in
/-- In the default mode the graph is that of all imports of the readable files. -/
theorem importGraph_default (demand : Demand Path Specifier Source)
    {resolver : Resolver Path Specifier Source} (hflag : resolver.consumerDrivenBarrels = false)
    (entryFile p : Path) :
    importGraph demand resolver entryFile p =
      (resolver.content? p).map fun content =>
        (resolver.resolvedPaths p content).map resolver.canonicalize := by
  rw [importGraph, walked, hflag, if_neg Bool.false_ne_true, Selection.graph,
    Resolver.everything]
  show Option.map (fun _ => ((resolver.content? p).elim [] (resolver.resolvedPaths p)).map
    resolver.canonicalize) (Option.map _ (resolver.content? p)) = _
  cases resolver.content? p <;> rfl

theorem resolveAllImports_run {demand : Demand Path Specifier Source}
    {resolver : Resolver Path Specifier Source} {entryFile : Path} {fuel : Nat} {t : State Path}
    (h : DepthFirst.visit (importGraph demand resolver entryFile) fuel start
      (root resolver entryFile) = some t) :
    ∃ resolved, resolveAllImports demand fuel entryFile resolver = some resolved ∧
      resolved.map Prod.fst = t.done ∧
      ∀ e ∈ resolved, (walked demand resolver entryFile).demanded e.1 = some e.2 := by
  have hrel := @walk_rel _ _ _ _ resolver (walked demand resolver entryFile) fuel Walk.empty start
    (resolver.absolute entryFile) empty_represents start_sound
    (fun v hv => nomatch hv)
  have hvisit : DepthFirst.visit ((walked demand resolver entryFile).graph resolver.canonicalize)
      fuel start (resolver.canonicalize (resolver.absolute entryFile)) = some t := h
  rw [hvisit] at hrel
  obtain ⟨w, hw, hrep⟩ := rel_some hrel
  refine ⟨w.resolved, ?_, hrep.keys, hrep.contents⟩
  rw [resolveAllImports_eq, hw]
  rfl

/-- **The walk of a finite graph ends, and it returns a post-order of the files the entry
reaches.**  The order is that of any other resolver whose graph is the same but for the
names of its files. -/
theorem resolveAllImports_postOrder (demand : Demand Path Specifier Source)
    (resolver : Resolver Path Specifier Source) (entryFile : Path) (files : Finset Path)
    (hroot : root resolver entryFile ∈ files)
    (hclosed : Closed (importGraph demand resolver entryFile) files) :
    ∃ resolved : List (Path × Source),
      (∀ fuel, files.card < fuel →
        resolveAllImports demand fuel entryFile resolver = some resolved) ∧
      IsPostOrder (importGraph demand resolver entryFile) (root resolver entryFile)
        (resolved.map Prod.fst) ∧
      (∀ e ∈ resolved, (walked demand resolver entryFile).demanded e.1 = some e.2) ∧
      ∀ (Path' Specifier' Source' : Type) [DecidableEq Path'] [DecidableEq Specifier']
        [DecidableEq Source'] (demand' : Demand Path' Specifier' Source')
        (resolver' : Resolver Path' Specifier' Source') (entryFile' : Path') (f : Path → Path'),
        Function.Injective f → root resolver' entryFile' = f (root resolver entryFile) →
        (∀ p ∈ files, importGraph demand' resolver' entryFile' (f p) =
          (importGraph demand resolver entryFile p).map fun ps => ps.map f) →
        ∀ fuel, files.card < fuel →
          (resolveAllImports demand' fuel entryFile' resolver').map (fun r => r.map Prod.fst) =
            some ((resolved.map Prod.fst).map f) := by
  obtain ⟨t, ht⟩ := visit_start_ends hclosed hroot (Nat.lt_succ_self files.card)
  have hends : ∀ fuel, files.card < fuel → DepthFirst.visit
      (importGraph demand resolver entryFile) fuel start (root resolver entryFile) = some t :=
    fun fuel hfuel => visit_mono hfuel ht
  obtain ⟨resolved, -, hkeys, hcontents⟩ := resolveAllImports_run ht
  refine ⟨resolved, fun fuel hfuel => ?_, hkeys ▸ visit_postOrder ht, hcontents, ?_⟩
  · obtain ⟨resolved', hrun, hkeys', hcontents'⟩ := resolveAllImports_run (hends fuel hfuel)
    rw [hrun, resolved_eq hcontents', resolved_eq hcontents, hkeys', hkeys]
  · intro Path' Specifier' Source' _ _ _ demand' resolver' entryFile' f hf hroot' hgraph fuel hfuel
    have hmapped := visit_map hf hclosed hgraph fuel start hroot
    rw [hends fuel hfuel, ← hroot'] at hmapped
    obtain ⟨resolved', hrun, hkeys', -⟩ := resolveAllImports_run
      (show DepthFirst.visit _ fuel start (root resolver' entryFile') = some (t.map f) from hmapped)
    rw [hrun, hkeys]
    exact congrArg some hkeys'

end Result

/-! ### An unused re-export -/

/-- The files of a project: `entry` imports `run` from `barrel`, which re-exports `provider`
and `unused`; `provider` imports `value` from `deps`, which re-exports `value` and
`unusedDep`. -/
inductive Barrels where
  | entry | barrel | provider | deps | value | unused | unusedDep
  deriving DecidableEq

def Barrels.all : Finset Barrels :=
  {.entry, .barrel, .provider, .deps, .value, .unused, .unusedDep}

theorem Barrels.mem_all (b : Barrels) : b ∈ Barrels.all := by cases b <;> decide

def Barrels.statements : Barrels → List (TopLevel Barrels)
  | .entry => [.importDeclaration (some .barrel)]
  | .barrel => [.exportDeclaration (some .provider), .exportDeclaration (some .unused)]
  | .provider => [.importDeclaration (some .deps)]
  | .deps => [.exportDeclaration (some .value), .exportDeclaration (some .unusedDep)]
  | _ => []

def barrels (consumerDrivenBarrels : Bool) : Resolver Barrels Barrels Unit where
  consumerDrivenBarrels := consumerDrivenBarrels
  absolute := id
  canonicalize := id
  getStaticJsonSource _ := none
  readFileSync _ := some ()
  foldSource content _ := content
  rewriteCjsRequire := id
  createSourceFile p _ := { statements := p.statements, comments := [] }
  resolve specifier _ _ := some specifier

/-- What the demand of `entry` selects: `run` of the provider and `value`. -/
def usedOnly : Demand Barrels Barrels Unit := fun _ _ =>
  { demanded := fun p => if p = .unused ∨ p = .unusedDep then none else some ()
    selectedEdges := fun
      | .entry => [.barrel]
      | .barrel => [.provider]
      | .provider => [.deps]
      | .deps => [.value]
      | _ => [] }

/-- With `consumerDrivenBarrels` a readable file that the entry reaches is left out. -/
theorem unused_reexport_left_out :
    (resolveAllImports usedOnly 8 .entry (barrels true)).map (fun r => r.map Prod.fst) =
        some [.value, .deps, .provider, .barrel, .entry] ∧
      ¬ ∀ (demand : Demand Barrels Barrels Unit) (resolver : Resolver Barrels Barrels Unit)
        (entryFile : Barrels) (fuel : Nat) (resolved : List (Barrels × Unit)),
        resolveAllImports demand fuel entryFile resolver = some resolved →
        ∀ p, Reach (resolver.everything.graph resolver.canonicalize) (root resolver entryFile) p →
          (resolver.content? p).isSome → p ∈ resolved.map Prod.fst := by
  refine ⟨by decide, fun h => ?_⟩
  have hunused := h usedOnly (barrels true) .entry 8
    [(.value, ()), (.deps, ()), (.provider, ()), (.barrel, ()), (.entry, ())] (by decide) .unused
  have hentry : Edge ((barrels true).everything.graph id) .entry .barrel :=
    ⟨[.barrel], rfl, by decide⟩
  have hbarrel : Edge ((barrels true).everything.graph id) .barrel .unused :=
    ⟨[.provider, .unused], rfl, by decide⟩
  have hpath : Reach ((barrels true).everything.graph id) .entry .unused :=
    hentry.reach.tail hbarrel
  exact absurd (hunused hpath rfl) (by decide)

/-- The default mode on the same project. -/
theorem barrels_postOrder :
    ∃ resolved : List (Barrels × Unit),
      (∀ fuel, 7 < fuel →
        resolveAllImports usedOnly fuel .entry (barrels false) = some resolved) ∧
      IsPostOrder (importGraph usedOnly (barrels false) .entry) .entry
        (resolved.map Prod.fst) := by
  obtain ⟨resolved, hrun, horder, -⟩ := resolveAllImports_postOrder usedOnly (barrels false) .entry
    Barrels.all (Barrels.mem_all _) fun _ _ v _ => Barrels.mem_all v
  exact ⟨resolved, fun fuel hfuel => hrun fuel hfuel, horder⟩

end Js2Wasm.Resolve
