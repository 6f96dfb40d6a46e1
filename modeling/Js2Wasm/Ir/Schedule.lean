import Mathlib.Algebra.BigOperators.Group.List.Basic
import Mathlib.Algebra.GroupWithZero.Nat
import Mathlib.Algebra.Order.Monoid.Unbundled.WithTop
import Mathlib.Order.Lattice.Nat

/-! # Emission scheduling

The effect summaries of `ir/analysis/effects.ts`, the anchor pass of
`ir/lower-generic.ts` and the independent verifier of its result.

A block's instruction is what the scheduler reads of it (`InstrFacts`): its result, the
values `collectIrUses` lists, the uses in its buffers, the summary `effectsOf` gives and the
answer of `isSideEffecting`.

An emission point is an index of the block, its length for the
terminator, and `⊤` (`Infinity` in the source) for an instruction that is never emitted.
-/
namespace Js2Wasm.Ir

abbrev IrValueId := Nat

/-! ### Effects -/

structure IrEffects where
  readsHeap : Bool
  writesHeap : Bool
  control : Bool
  allSlots : Bool
  readSlots : List Nat
  writeSlots : List Nat
  deriving DecidableEq

namespace IrEffects

/-- No effect at all. -/
def none : IrEffects := ⟨false, false, false, false, [], []⟩

def touchesSlots (fx : IrEffects) : Bool :=
  fx.allSlots || !fx.readSlots.isEmpty || !fx.writeSlots.isEmpty

/-- More than a read. -/
def changes (fx : IrEffects) : Bool :=
  fx.writesHeap || fx.control || fx.allSlots || !fx.writeSlots.isEmpty

end IrEffects

def effectsArePure (fx : IrEffects) : Bool :=
  !fx.readsHeap && !fx.writesHeap && !fx.control && !fx.allSlots && fx.readSlots.isEmpty &&
    fx.writeSlots.isEmpty

/-- May re-ordering `a` across `b` change observable behavior? -/
def effectsConflict (a b : IrEffects) : Bool :=
  if a.writesHeap && (b.readsHeap || b.writesHeap) then true
  else if b.writesHeap && a.readsHeap then true
  else if a.allSlots && b.touchesSlots then true
  else if b.allSlots && a.touchesSlots then true
  else if a.writeSlots.any fun s => b.readSlots.contains s || b.writeSlots.contains s then true
  else b.writeSlots.any fun s => a.readSlots.contains s

/-- A pure summary conflicts with nothing. -/
theorem effectsConflict_of_pure {a b : IrEffects} (h : effectsArePure a ∨ effectsArePure b) :
    effectsConflict a b = false := by
  simp only [effectsArePure, Bool.and_eq_true, Bool.not_eq_true', List.isEmpty_iff] at h
  rcases h with ⟨⟨⟨⟨⟨h1, h2⟩, h3⟩, h4⟩, h5⟩, h6⟩ | ⟨⟨⟨⟨⟨h1, h2⟩, h3⟩, h4⟩, h5⟩, h6⟩ <;>
    simp [effectsConflict, IrEffects.touchesSlots, h1, h2, h4, h5, h6]

/-! ### Blocks -/

/-- What the scheduler reads of an instruction. -/
structure InstrFacts where
  kind : String
  result : Option IrValueId
  uses : List IrValueId
  /-- The uses in its buffers, which are recorded against the block id -1. -/
  nested : List IrValueId
  effects : IrEffects
  sideEffecting : Bool
  /-- `collectIrUses`, the buffers and `effectsOf` have nothing for a constant. -/
  const : kind = "const" → uses = [] ∧ nested = [] ∧ effects = IrEffects.none := by decide
  deriving DecidableEq

/-- A block, with the uses that are recorded against other blocks. -/
structure BlockFacts where
  instrs : List InstrFacts
  terminatorUses : List IrValueId
  elsewhere : List IrValueId

section
variable (instrs : List InstrFacts)

def usesAt (i : Nat) : List IrValueId := (instrs[i]?.map InstrFacts.uses).getD []

/-- Everything an instruction reads. -/
def readsAt (i : Nat) : List IrValueId :=
  (instrs[i]?.map fun instr => instr.uses ++ instr.nested).getD []

def resultAt (i : Nat) : Option IrValueId := instrs[i]?.bind InstrFacts.result

def effectsAt (i : Nat) : IrEffects := (instrs[i]?.map InstrFacts.effects).getD IrEffects.none

def kindAt (i : Nat) : String := (instrs[i]?.map InstrFacts.kind).getD ""

/-- The index that defines a value; the last one wins. -/
def defIdxOf (v : IrValueId) : Option Nat :=
  (List.range instrs.length).reverse.find? fun i => resultAt instrs i = some v

/-- A constant, which is emitted again at each of its uses. -/
def isConstant (v : IrValueId) : Bool := (defIdxOf instrs v).any fun i => kindAt instrs i = "const"

/-- The uses not yet walked. -/
def pendingUses (seen : List Nat) : Nat :=
  (((List.range instrs.length).filter (· ∉ seen)).map fun i => (usesAt instrs i).length).sum

/-- The lazy definitions among an instruction's operands. -/
def lazyOperands (isLazyAt : Nat → Bool) (cur : Nat) : List Nat :=
  (usesAt instrs cur).filterMap fun u => (defIdxOf instrs u).filter isLazyAt

theorem lazyOperands_length (isLazyAt : Nat → Bool) (cur : Nat) :
    (lazyOperands instrs isLazyAt cur).length ≤ (usesAt instrs cur).length :=
  List.length_filterMap_le _ _

theorem pendingUses_cons {seen : List Nat} {cur : Nat} (h : cur ∉ seen) :
    pendingUses instrs (cur :: seen) + (usesAt instrs cur).length ≤ pendingUses instrs seen := by
  rw [pendingUses, pendingUses]
  by_cases hlt : cur < instrs.length
  · have hmem : cur ∈ (List.range instrs.length).filter (· ∉ seen) :=
      List.mem_filter.mpr ⟨List.mem_range.mpr hlt, by simpa using h⟩
    have hperm := List.perm_cons_erase hmem
    have hnodup : ((List.range instrs.length).filter (· ∉ seen)).Nodup :=
      List.nodup_range.filter _
    have herase : ((List.range instrs.length).filter (· ∉ seen)).erase cur =
        (List.range instrs.length).filter (· ∉ cur :: seen) := by
      rw [hnodup.erase_eq_filter, List.filter_filter]
      refine List.filter_congr fun x _ => ?_
      simp [bne, not_or, beq_eq_decide]
    rw [(hperm.map _).sum_eq, herase, List.map_cons, List.sum_cons, Nat.add_comm]
  · have huses : usesAt instrs cur = [] := by
      rw [usesAt, List.getElem?_eq_none (Nat.le_of_not_lt hlt)]
      rfl
    have hsame : (List.range instrs.length).filter (· ∉ cur :: seen) =
        (List.range instrs.length).filter (· ∉ seen) := by
      refine List.filter_congr fun x hx => ?_
      have hne : x ≠ cur := fun hxc => hlt (hxc ▸ List.mem_range.mp hx)
      simp [hne]
    rw [hsame, huses, List.length_nil, Nat.add_zero]

/-- The walk of `treeConsumes`: pop, skip what was seen, look for the target among the
operands, push the operands that are emitted lazily. -/
def treeWalk (isLazyAt : Nat → Bool) (target : IrValueId) (seen : List Nat) : List Nat → Bool
  | [] => false
  | cur :: stack =>
    if cur ∈ seen then treeWalk isLazyAt target seen stack
    else if target ∈ usesAt instrs cur then true
    else treeWalk isLazyAt target (cur :: seen)
      ((lazyOperands instrs isLazyAt cur).reverse ++ stack)
termination_by stack => pendingUses instrs seen + stack.length
decreasing_by
  · simp only [List.length_cons]
    omega
  · have h1 := pendingUses_cons instrs (by assumption : cur ∉ seen)
    have h2 := lazyOperands_length instrs isLazyAt cur
    simp only [List.length_append, List.length_reverse, List.length_cons]
    omega

/-- Does the lazy tree rooted at `k` transitively consume `target`? -/
def treeConsumes (isLazyAt : Nat → Bool) (k : Nat) (target : IrValueId) : Bool :=
  treeWalk instrs isLazyAt target [] [k]

end

/-! ### The anchor pass -/

structure Schedule where
  emissionIdx : Nat → WithTop Nat
  isLazyAt : Nat → Bool
  anchorEager : List IrValueId

namespace Schedule

/-- Nothing scheduled yet. -/
def initial : Schedule := ⟨fun _ => ⊤, fun _ => false, []⟩

def emitAt (s : Schedule) (i : Nat) (e : WithTop Nat) : Schedule :=
  { s with emissionIdx := Function.update s.emissionIdx i e }

def emitLazily (s : Schedule) (i : Nat) (e : WithTop Nat) : Schedule :=
  { s.emitAt i e with isLazyAt := Function.update s.isLazyAt i true }

def anchor (s : Schedule) (i : Nat) (r : IrValueId) : Schedule :=
  { s.emitAt i i with anchorEager := s.anchorEager ++ [r] }

end Schedule

section
variable (b : BlockFacts)

def totalUses (v : IrValueId) : Nat :=
  (b.instrs.flatMap InstrFacts.uses).count v + b.terminatorUses.count v +
    ((b.instrs.flatMap InstrFacts.nested).count v + b.elsewhere.count v)

/-- Is a value of the block used against another block's id?  Constants are taken out. -/
def crossBlock (v : IrValueId) : Bool :=
  (v ∈ b.instrs.flatMap InstrFacts.nested || v ∈ b.elsewhere) && !isConstant b.instrs v

/-- The consumers of a value in the block, the terminator as index `n`. -/
def consumersOf (v : IrValueId) : List Nat :=
  ((List.range b.instrs.length).flatMap fun i => List.replicate ((usesAt b.instrs i).count v) i) ++
    List.replicate (b.terminatorUses.count v) b.instrs.length

/-- Where a consumer's tree is emitted. -/
def consumerPoint (s : Schedule) (c : Nat) : WithTop Nat :=
  if c = b.instrs.length then (b.instrs.length : WithTop Nat) else s.emissionIdx c

/-- The first emission point among the consumers. -/
def firstConsumer (s : Schedule) (r : IrValueId) : WithTop Nat :=
  (consumersOf b r).foldl (fun e c => min e (consumerPoint b s c)) ⊤

/-- Does instruction `k`, between a definition and its emission point `e`, forbid the
move? -/
def blocksMove (s : Schedule) (i : Nat) (r : IrValueId) (e : WithTop Nat) (k : Nat) : Bool :=
  let ek := s.emissionIdx k
  if ek = ⊤ ∨ e < ek then false
  else if ek = e ∧ treeConsumes b.instrs s.isLazyAt k r then false
  else effectsConflict (effectsAt b.instrs i) (effectsAt b.instrs k)

/-- Is the definition anchored at its own position? -/
def mustAnchor (s : Schedule) (i : Nat) (r : IrValueId) (e : WithTop Nat) : Bool :=
  !effectsArePure (effectsAt b.instrs i) &&
    ((List.range b.instrs.length).filter fun k => i < k ∧ (k : WithTop Nat) < e).any
      (blocksMove b s i r e)

/-- Schedule the instruction at `i`, the later ones being scheduled. -/
def anchorAt (s : Schedule) (i : Nat) : Schedule :=
  match b.instrs[i]? with
  | none => s
  | some instr =>
    match instr.result with
    | none => s.emitAt i i
    | some r =>
      if crossBlock b r || (totalUses b r = 0 && instr.sideEffecting) then s.emitAt i i
      else if totalUses b r = 0 then s
      else
        let e := firstConsumer b s r
        if e = ⊤ then s
        else if mustAnchor b s i r e then s.anchor i r
        else s.emitLazily i e

/-- The instructions below `i`, from the last to the first. -/
def anchorLoop : Nat → Schedule → Schedule
  | 0, s => s
  | i + 1, s => anchorLoop i (anchorAt b s i)

def anchorPass : Schedule := anchorLoop b b.instrs.length Schedule.initial

end

/-! ### The schedule verifier -/

structure EmissionScheduleViolation where
  defIndex : Nat
  pastIndex : Nat
  reason : String
  deriving DecidableEq

section
variable (instrs : List InstrFacts) (s : Schedule)

def showIndex : WithTop Nat → String
  | none => "Infinity"
  | some e => toString e

/-- An instruction with its index, as the reasons name it. -/
def showInstr (i : Nat) : String := kindAt instrs i ++ "@" ++ toString i

/-- The pair `i`, `k` in program order. -/
def checkPair (i k : Nat) : Option EmissionScheduleViolation :=
  if !effectsConflict (effectsAt instrs i) (effectsAt instrs k) then none
  else
    let ei := s.emissionIdx i
    let ek := s.emissionIdx k
    if ei < ek then none
    else if ei = ek then
      if (resultAt instrs i).any fun r => treeConsumes instrs s.isLazyAt k r then none
      else some ⟨i, k, "conflicting " ++ showInstr instrs i ++ " and " ++ showInstr instrs k ++
        " emitted in the same tree (idx " ++ showIndex ei ++ ") without consumption ordering"⟩
    else some ⟨i, k, "deferred " ++ showInstr instrs i ++ " (emits at " ++ showIndex ei ++
      ") crosses conflicting " ++ showInstr instrs k ++ " (emits at " ++ showIndex ek ++ ")"⟩

def checkPairs : List Nat → List EmissionScheduleViolation
  | [] => []
  | i :: rest => rest.filterMap (checkPair instrs s i) ++ checkPairs rest

/-- The emitted instructions whose effects are not pure. -/
def effectful : List Nat :=
  (List.range instrs.length).filter fun i =>
    s.emissionIdx i ≠ ⊤ && !effectsArePure (effectsAt instrs i)

def verifyEmissionSchedule : List EmissionScheduleViolation :=
  if (effectful instrs s).length < 2 then [] else checkPairs instrs s (effectful instrs s)

end

end Js2Wasm.Ir
