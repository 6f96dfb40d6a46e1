import Js2Wasm.Lib.Sweep
import Js2Wasm.Propagate.Infer

/-! # The type map

`buildIrUnitTypeMap` of `ir/propagate.ts`: the entries start from the seeds, and rounds over
the functions recompute each entry in place from the current entries, until a round changes
nothing or `MAX_ITERS` rounds are done.
-/
namespace Js2Wasm.Propagate
open List

/-- A function of the population with its seed.  `fallsOut` is the syntactic test for an
unannotated body that returns a value and can also run off its end. -/
structure PropagationFunction where
  unitId : UnitId
  /-- A pattern has no name. -/
  paramNames : List (Option String)
  body : List Node
  seed : TypeMapEntry
  fallsOut : Bool

/-- The functions, in the inventory's order. -/
structure Population where
  functions : List PropagationFunction
  distinct : (functions.map PropagationFunction.unitId).Nodup

/-- The entries, in insertion order. -/
abbrev Entries := List (UnitId × TypeMapEntry)

namespace Entries

def get? (entries : Entries) (unitId : UnitId) : Option TypeMapEntry := entries.lookup unitId

/-- `entries.get(unitId)!` -/
def get (entries : Entries) (unitId : UnitId) : TypeMapEntry :=
  (entries.get? unitId).getD ⟨[], .unknown⟩

def set (entries : Entries) (unitId : UnitId) (entry : TypeMapEntry) : Entries :=
  entries.map fun e => if e.1 = unitId then (unitId, entry) else e

end Entries

def entriesEqual (a b : TypeMapEntry) : Bool :=
  paramsEqual a.params b.params && typesEqual a.returnType b.returnType

theorem entriesEqual_iff (a b : TypeMapEntry) : entriesEqual a b = true ↔ a = b := by
  obtain ⟨ps, r⟩ := a
  obtain ⟨qs, t⟩ := b
  rw [entriesEqual, Bool.and_eq_true, paramsEqual_iff, typesEqual_iff, TypeMapEntry.mk.injEq]

instance : DecidableEq TypeMapEntry := fun a b => decidable_of_iff _ (entriesEqual_iff a b)

/-- The parameters of a function, in its scope. -/
def paramScope (names : List (Option String)) (params : List LatticeType) : Scope :=
  (names.zipIdx.foldl fun scope x => match x.1 with
    | some name => scope.set name (params.getD x.2 .unknown)
    | none => scope) []

/-- A call that feeds a function's parameters. -/
structure Inbound where
  callerUnitId : UnitId
  callerParamNames : List (Option String)
  argExprs : List Node

section
variable (env : Env) (population : Population)

/-- The inbound call sites, by caller and in the order of its body. -/
def inbound (unitId : UnitId) : List Inbound :=
  population.functions.flatMap fun caller =>
    ((callSitesAll env caller.body).filter fun site => site.callee = unitId).map fun site =>
      ⟨caller.unitId, caller.paramNames, site.argExprs⟩

/-- The types of a site's arguments, in the caller's current scope. -/
def argTypes (entries : Entries) (site : Inbound) : List LatticeType :=
  site.argExprs.map fun arg => inferExpr env entries.get? arg
    (paramScope site.callerParamNames (entries.get site.callerUnitId).params)

/-- Join the arguments into the parameters they meet. -/
def joinArgs : List LatticeType → List LatticeType → List LatticeType
  | p :: params, a :: args => join env.localeCompare p a :: joinArgs params args
  | params, [] => params
  | [], _ => []

def inferParams (entries : Entries) (f : PropagationFunction) : List LatticeType :=
  (inbound env population f.unitId).foldl
    (fun params site => joinArgs env params (argTypes env entries site)) f.seed.params

/-- A concrete seed keeps its authority over `dynamic`. -/
def seedConcrete : LatticeType → Bool
  | .atom _ => true
  | _ => false

def inferReturn (entries : Entries) (f : PropagationFunction) (params : List LatticeType) :
    LatticeType :=
  if f.fallsOut then .dynamic
  else (walkBodyForReturns env entries.get? f.body (paramScope f.paramNames params)).foldl
    (fun newReturn t => if seedConcrete f.seed.returnType && t = .dynamic then newReturn
      else join env.localeCompare newReturn t) f.seed.returnType

/-- **The equation of a function**: its entry from the current entries. -/
def inferEntry (entries : Entries) (f : PropagationFunction) : TypeMapEntry :=
  let params := inferParams env population entries f
  ⟨params, inferReturn env entries f params⟩

def MAX_ITERS : Nat := 50

def seedEntries : Entries := population.functions.map fun f => (f.unitId, f.seed)

/-- The entries after the loop, and whether it ended because a round changed nothing. -/
def iterate : Entries × Bool :=
  Sweep.sweeps (fun entries f => entries.get f.unitId)
    (fun entries f => entries.set f.unitId) (inferEntry env population) entriesEqual
    population.functions MAX_ITERS (seedEntries population)

def buildIrUnitTypeMap : Entries := (iterate env population).1

/-- The map is a fixpoint of its own equations. -/
def IsSolution (entries : Entries) : Prop :=
  ∀ f ∈ population.functions, inferEntry env population entries f = entries.get f.unitId

/-- The functions' approximations from their seeds, each round computed for all at once. -/
def approximation : Nat → Entries
  | 0 => seedEntries population
  | n + 1 => population.functions.map fun f =>
      (f.unitId, inferEntry env population (approximation n) f)

/-- One entry for each function, in any order. -/
def Complete (entries : Entries) : Prop :=
  (entries.map Prod.fst).Perm (population.functions.map PropagationFunction.unitId)

section
variable [PartialOrder TypeMapEntry]

/-- One entry for each function, between its seed and its last approximation. -/
structure Between (entries : Entries) : Prop where
  complete : Complete population entries
  bounds : ∀ f ∈ population.functions, f.seed ≤ entries.get f.unitId ∧
    entries.get f.unitId ≤ (approximation env population MAX_ITERS).get f.unitId

/-- **What the loop takes for granted**: the approximations rise and have settled after
`MAX_ITERS` rounds, and on the way the equations are monotone and read no order of the
declarations. -/
structure Ascends : Prop where
  rises : ∀ i < MAX_ITERS, ∀ f ∈ population.functions,
    (approximation env population i).get f.unitId ≤
      (approximation env population (i + 1)).get f.unitId
  settled : ∀ f ∈ population.functions,
    (approximation env population (MAX_ITERS + 1)).get f.unitId =
      (approximation env population MAX_ITERS).get f.unitId
  monotone : ∀ entries entries', Between env population entries → Between env population entries' →
    (∀ f ∈ population.functions, entries.get f.unitId ≤ entries'.get f.unitId) →
    ∀ f ∈ population.functions,
      inferEntry env population entries f ≤ inferEntry env population entries' f
  unordered : ∀ reordered : Population, reordered.functions.Perm population.functions →
    ∀ entries, Between env population entries → ∀ f ∈ population.functions,
      inferEntry env reordered entries f = inferEntry env population entries f

end

/-! ### Parameters -/

variable {qs ps : List LatticeType} {i : Nat} {g f : PropagationFunction} {p a : LatticeType}
    {entries : Entries}

variable {env population}

theorem Entries.map_fst_set (entries : Entries) (unitId : UnitId) (entry : TypeMapEntry) :
    (entries.set unitId entry).map Prod.fst = entries.map Prod.fst := by
  rw [Entries.set, map_map]
  refine map_congr_left fun e _ => ?_
  by_cases h : e.1 = unitId
  all_goals simp [h]

theorem Entries.get?_set (entries : Entries) (unitId unitId' : UnitId) (entry : TypeMapEntry) :
    (entries.set unitId entry).get? unitId' =
      if unitId' = unitId then (entries.get? unitId').map fun _ => entry
      else entries.get? unitId' := by
  induction entries with
  | nil => split <;> rfl
  | cons e entries ih =>
    obtain ⟨id, old⟩ := e
    simp only [Entries.get?, Entries.set, map_cons] at ih ⊢
    by_cases hid' : unitId' = id
    · subst hid'
      by_cases hid : unitId' = unitId
      all_goals simp [hid]
    · have hkey : (if id = unitId then (unitId, entry) else (id, old)).1 = id := by
        split
        · exact (‹id = unitId›).symm
        · rfl
      rw [lookup_cons, lookup_cons, hkey, beq_false_of_ne hid']
      exact ih

theorem Entries.get?_eq_some {entries : Entries} {unitId : UnitId}
    (h : unitId ∈ entries.map Prod.fst) : entries.get? unitId = some (entries.get unitId) := by
  have hsome : (entries.lookup unitId).isSome := by
    obtain ⟨e, he, rfl⟩ := mem_map.mp h
    exact lookup_isSome_iff.mpr ⟨e, he, beq_self_eq_true e.1⟩
  obtain ⟨entry, hentry⟩ := Option.isSome_iff_exists.mp hsome
  rw [Entries.get, Entries.get?, hentry]
  rfl

theorem Entries.get?_eq_none {entries : Entries} {unitId : UnitId}
    (h : unitId ∉ entries.map Prod.fst) : entries.get? unitId = none := by
  refine lookup_eq_none_iff.mpr fun e he => ?_
  exact bne_iff_ne.mpr fun hid => h (hid ▸ mem_map_of_mem he)

/-- Functions with one identity are one function. -/
theorem Population.eq_of_unitId (population : Population) (hf : f ∈ population.functions)
    (hg : g ∈ population.functions) (h : f.unitId = g.unitId) :
    f = g := inj_on_of_nodup_map population.distinct hf hg h

/-- An entry computed for each function. -/
theorem get_map (hf : f ∈ population.functions) (v : PropagationFunction → TypeMapEntry) :
    Entries.get (population.functions.map fun g => (g.unitId, v g)) f.unitId = v f := by
  have hfind : ∀ fs : List PropagationFunction, (fs.map PropagationFunction.unitId).Nodup →
      f ∈ fs → (fs.map fun g => (g.unitId, v g)).lookup f.unitId = some (v f) := by
    intro fs
    induction fs with
    | nil => exact fun _ hmem => nomatch hmem
    | cons g fs ih =>
      intro hnodup hmem
      rw [map_cons, nodup_cons] at hnodup
      rw [map_cons]
      rcases mem_cons.mp hmem with rfl | hmem
      · exact lookup_cons_self
      · have hne : f.unitId ≠ g.unitId := fun h => hnodup.1 (h ▸ mem_map_of_mem hmem)
        rw [lookup_cons, beq_false_of_ne hne]
        exact ih hnodup.2 hmem
  rw [Entries.get, Entries.get?, hfind _ population.distinct hf]
  rfl

theorem approximation_complete (n : Nat) : Complete population (approximation env population n) := by
  cases n <;> exact .of_eq (map_map ..)

variable (population) in
/-- The population's entries are a lawful map. -/
theorem entries_lawful : Sweep.Lawful (fun entries f => entries.get f.unitId)
    (fun entries f => entries.set f.unitId) population.functions (Complete population) where
  good hcomplete _ v := by rwa [Complete, Entries.map_fst_set]
  get_set {entries f} hcomplete hf v := by
    have hmem := hcomplete.mem_iff.mpr (mem_map_of_mem hf)
    rw [Entries.get, Entries.get?_set, if_pos rfl, Entries.get?_eq_some hmem]
    rfl
  get_set_of_ne _ hf hg hne v := by
    have hid := fun h => hne (population.eq_of_unitId hg hf h)
    rw [Entries.get, Entries.get?_set, if_neg hid, Entries.get]

section
variable [PartialOrder TypeMapEntry] (h : Ascends env population) {reordered : Population}
  (hperm : reordered.functions.Perm population.functions)
include h

theorem Ascends.sweep : Sweep.Ascends (fun entries f => entries.get f.unitId)
    (inferEntry env population) population.functions MAX_ITERS (Complete population)
    (approximation env population) := by
  have hbetween : ∀ {entries}, Sweep.Between (fun entries f => entries.get f.unitId)
      population.functions MAX_ITERS (Complete population) (approximation env population) entries →
      Between env population entries :=
    fun hm => ⟨hm.good, fun f hf => ⟨(get_map hf _).ge.trans (hm.lower f hf), hm.upper f hf⟩⟩
  exact ⟨approximation_complete, fun i _ f hf => get_map hf _, h.rises, h.settled,
    fun m m' hm hm' => h.monotone m m' (hbetween hm) (hbetween hm')⟩

include hperm

/-- In every order the rounds end at the last approximation. -/
theorem Ascends.ends : Complete population (buildIrUnitTypeMap env reordered) ∧
    (∀ f ∈ population.functions, (buildIrUnitTypeMap env reordered).get f.unitId =
      (approximation env population MAX_ITERS).get f.unitId) ∧
    IsSolution env reordered (buildIrUnitTypeMap env reordered) := by
  have hsweep := h.sweep.congr (fun f => hperm.mem_iff) fun m hm =>
    h.unordered reordered hperm m ⟨hm.good, fun f hf =>
      ⟨(get_map hf _).ge.trans (hm.lower f hf), hm.upper f hf⟩⟩
  have hcomplete : ∀ entries, Complete reordered entries ↔ Complete population entries :=
    fun entries => List.Perm.congr_right (hperm.map _) _
  have hlawful := entries_lawful reordered
  rw [funext fun entries => propext (hcomplete entries)] at hlawful
  obtain ⟨hgood, hget, hsolves⟩ := hsweep.sweeps_eq hlawful
    (fun a b => (entriesEqual_iff a b).mp) ((hcomplete _).mp (@approximation_complete env reordered 0))
    fun f hf => (get_map hf _).trans (get_map (hperm.mem_iff.mp hf) _).symm
  exact ⟨hgood, fun f hf => hget f (hperm.mem_iff.mpr hf), hsolves⟩

end

/-! ### Rounds that do not settle, and rounds that settle apart -/

def named (names : List (String × UnitId)) : Env where
  i32DomainEnabled := false
  fnctorCtorParamTypesFlagEnabled := false
  localeCompare a b := if a < b then -1 else if b < a then 1 else 0
  resolveCallTarget id := names.lookup id.text
  resolveFnctorAdmission _ _ := false

def callTo (name : String) (args : List Node) : Node := .call (.identifier ⟨name, 0⟩) args

/-- `function g(x) { return f(x) || true; }` -/
def escaped : PropagationFunction where
  unitId := 1
  paramNames := [some "x"]
  seed := ⟨[.unknown], .unknown⟩
  fallsOut := false
  body := [.return_ (some (.binary (callTo "f" [.identifier ⟨"x", 0⟩]) .barBar
    (.booleanLiteral true)))]

end

end Js2Wasm.Propagate
