import Js2Wasm.Ir.Schedule
import Js2Wasm.Lib.Slices

/-! # Lexical regions

The lexical schedule that `ir/lower-generic.ts` computes before it emits a function: each
block and each nested buffer is a region, a block under its id and a buffer under a fresh
negative number.  A value is defined at a point of one region, and its uses are the points
that read it: an instruction that consumes it, or the end of a region.

A function is its instructions in the order of the visit, each with its region
(`Lexical`); `visitBlocks` is the visit itself.  An instruction is known by its position.
-/
namespace Js2Wasm.Ir
open Slices List

/-! ### The visit -/

/-- What the passes read of an instruction.  `operands` are the values in the order in
which emission reads them; `closure.call` lists its callee twice among the uses. -/
structure LexInstr where
  slotRead : Bool
  stringResult : Bool
  result : Option IrValueId
  uses : List IrValueId
  operands : List IrValueId
  effects : IrEffects
  sideEffecting : Bool
  operands_count : ∀ v, uses.count v ≤ 1 → operands.count v = uses.count v
  slotRead_uses : slotRead = true → uses = []

/-- The values that an instruction with buffers reads outside `collectIrUses`: the results
of the arms of an `if`, and the condition that a loop tests. -/
inductive Carrier where
  | plain
  | arms (thenValue elseValue : IrValueId)
  | loop (condValue : IrValueId)

/-- An instruction with its nested buffers. -/
inductive IrInstr where
  | mk (facts : LexInstr) (carrier : Carrier) (buffers : List (List IrInstr))

/-- What the visit has recorded: the instructions with their regions, the uses at the end
of a region, and the conditions that loops test at the end of their first buffer, which the
visit does not record as uses. -/
structure Visited where
  nextNestedRegion : Int
  instrs : List (Int × LexInstr)
  ends : List (Int × IrValueId)
  tests : List (Int × IrValueId)

namespace Visited

def initial : Visited := ⟨-1, [], [], []⟩

def record (s : Visited) (region : Int) (facts : LexInstr) : Visited :=
  { s with instrs := s.instrs ++ [(region, facts)] }

def enter (s : Visited) : Visited := { s with nextNestedRegion := s.nextNestedRegion - 1 }

def endUse (s : Visited) (region : Option Int) (v : IrValueId) : Visited :=
  { s with ends := s.ends ++ (region.map fun r => (r, v)).toList }

def test (s : Visited) (region : Option Int) (v : IrValueId) : Visited :=
  { s with tests := s.tests ++ (region.map fun r => (r, v)).toList }

/-- Record what the instruction's carrier reads in its child regions. -/
def carry (s : Visited) (childRegions : List Int) : Carrier → Visited
  | .plain => s
  | .arms thenValue elseValue =>
    (s.endUse childRegions[0]? thenValue).endUse childRegions[1]? elseValue
  | .loop condValue => s.test childRegions[0]? condValue

end Visited

mutual

def visitInstr (region : Int) : IrInstr → Visited → Visited
  | .mk facts carrier buffers, s =>
    let children := visitNested buffers (s.record region facts)
    children.2.carry children.1 carrier

def visitLexicalBuffer (region : Int) : List IrInstr → Visited → Visited
  | [], s => s
  | instr :: instrs, s => visitLexicalBuffer region instrs (visitInstr region instr s)

/-- The buffers of an instruction, with the regions they get. -/
def visitNested : List (List IrInstr) → Visited → List Int × Visited
  | [], s => ([], s)
  | buffer :: buffers, s =>
    let rest := visitNested buffers (visitLexicalBuffer s.nextNestedRegion buffer s.enter)
    (s.nextNestedRegion :: rest.1, rest.2)

end

structure Block where
  id : Nat
  instrs : List IrInstr
  terminatorUses : List IrValueId

def visitBlocks (blocks : List Block) : Visited :=
  blocks.foldl (fun s block =>
    block.terminatorUses.foldl (fun s v => s.endUse (some block.id) v)
      (visitLexicalBuffer block.id block.instrs s)) Visited.initial

/-! ### The schedule -/

/-- A function's instructions with their regions; no two define the same value. -/
structure Lexical where
  instrs : List (Int × LexInstr)
  ends : List (Int × IrValueId)
  tests : List (Int × IrValueId)
  nodup : (instrs.filterMap fun e => e.2.result).Nodup

/-- A point of a region: an index, the length of the region for its end. -/
structure LexicalUsePoint where
  region : Int
  index : Nat
  consumer : Option Nat
  deriving DecidableEq

namespace Lexical
variable (L : Lexical)

/-- The schedule of a function, once the check for duplicate definitions has passed. -/
def ofBlocks (blocks : List Block)
    (h : ((visitBlocks blocks).instrs.filterMap fun e => e.2.result).Nodup) : Lexical :=
  ⟨(visitBlocks blocks).instrs, (visitBlocks blocks).ends, (visitBlocks blocks).tests, h⟩

def count : Nat := L.instrs.length

def regionAt (p : Nat) : Int := (L.instrs[p]?.map Prod.fst).getD 0

def resultAt (p : Nat) : Option IrValueId := L.instrs[p]?.bind fun e => e.2.result

def usesAt (p : Nat) : List IrValueId := (L.instrs[p]?.map fun e => e.2.uses).getD []

def operandsAt (p : Nat) : List IrValueId := (L.instrs[p]?.map fun e => e.2.operands).getD []

def effectsAt (p : Nat) : IrEffects := (L.instrs[p]?.map fun e => e.2.effects).getD .none

def sideEffectingAt (p : Nat) : Bool := (L.instrs[p]?.map fun e => e.2.sideEffecting).getD false

def slotReadAt (p : Nat) : Bool := (L.instrs[p]?.map fun e => e.2.slotRead).getD false

def stringResultAt (p : Nat) : Bool := (L.instrs[p]?.map fun e => e.2.stringResult).getD false

/-- The instructions of a region. -/
def instructionsByRegion (r : Int) : List Nat :=
  (range L.count).filter fun p => L.regionAt p = r

/-- An instruction's index in its region. -/
def indexAt (p : Nat) : Nat := (L.instructionsByRegion (L.regionAt p)).idxOf p

/-- The instruction that defines a value. -/
def definition (v : IrValueId) : Option Nat :=
  (range L.count).find? fun p => L.resultAt p = some v

/-- The point at which instruction `p` reads its operands. -/
def pointOf (p : Nat) : LexicalUsePoint := ⟨L.regionAt p, L.indexAt p, some p⟩

/-- The end of a region. -/
def endOf (r : Int) : LexicalUsePoint := ⟨r, (L.instructionsByRegion r).length, none⟩

def usePoints (v : IrValueId) : List LexicalUsePoint :=
  ((range L.count).flatMap fun p => replicate ((L.usesAt p).count v) (L.pointOf p)) ++
    (L.ends.filter fun e => e.2 = v).map fun e => L.endOf e.1

/-- Every recorded use, and the loops that test the value. -/
def totalUses (v : IrValueId) : Nat :=
  (L.usePoints v).length + (L.tests.filter fun e => e.2 = v).length

/-- `uses?.length === 1 ? uses[0] : undefined`. -/
def soleUse (v : IrValueId) : Option LexicalUsePoint :=
  match L.usePoints v with
  | [point] => some point
  | _ => none

end Lexical

/-! ### Positions and points -/

namespace Lexical
variable {L : Lexical} {p q d k : Nat} {r : Int} {v : IrValueId}

theorem lt_of_resultAt (h : L.resultAt p = some v) : p < L.count := by
  rw [resultAt] at h
  cases hp : L.instrs[p]? with
  | none => rw [hp] at h; cases h
  | some e => exact (List.getElem?_eq_some_iff.mp hp).1

/-- A value has one definition. -/
theorem resultAt_unique (hp : L.resultAt p = some v) (hq : L.resultAt q = some v) : p = q := by
  have hget : ∀ {p : Nat}, L.resultAt p = some v →
      ∃ e, L.instrs[p]? = some e ∧ e.2.result = some v := by
    intro p h
    rw [resultAt] at h
    exact Option.bind_eq_some_iff.mp h
  obtain ⟨e, he, hev⟩ := hget hp
  obtain ⟨e', he', hev'⟩ := hget hq
  have hpair := pairwise_filterMap.mp L.nodup
  rw [pairwise_iff_getElem] at hpair
  obtain ⟨hlt, rfl⟩ := List.getElem?_eq_some_iff.mp he
  obtain ⟨hlt', rfl⟩ := List.getElem?_eq_some_iff.mp he'
  rcases Nat.lt_trichotomy p q with h | h | h
  · exact absurd rfl (hpair p q hlt hlt' h v hev v hev')
  · exact h
  · exact absurd rfl (hpair q p hlt' hlt h v hev' v hev)

theorem definition_eq_some : L.definition v = some p ↔ L.resultAt p = some v := by
  constructor
  · intro h
    simpa using find?_some h
  · intro h
    cases hd : L.definition v with
    | none =>
      have hnone := find?_eq_none.mp hd p (mem_range.mpr (lt_of_resultAt h))
      simp [h] at hnone
    | some q =>
      have hq : L.resultAt q = some v := by simpa using find?_some hd
      rw [resultAt_unique hq h]

theorem mem_instructionsByRegion :
    p ∈ L.instructionsByRegion r ↔ p < L.count ∧ L.regionAt p = r := by
  simp [instructionsByRegion]

theorem instructionsByRegion_sorted : (L.instructionsByRegion r).Pairwise (· < ·) :=
  pairwise_lt_range.filter _

theorem instructionsByRegion_nodup : (L.instructionsByRegion r).Nodup :=
  nodup_range.filter _

/-- Within a region, indices are ordered as positions. -/
theorem indexAt_lt_iff (hp : p < L.count) (hq : q < L.count) (h : L.regionAt p = L.regionAt q) :
    L.indexAt p < L.indexAt q ↔ p < q := by
  rw [indexAt, indexAt, h]
  exact idxOf_lt_iff instructionsByRegion_sorted (mem_instructionsByRegion.mpr ⟨hp, h⟩)
    (mem_instructionsByRegion.mpr ⟨hq, rfl⟩)

theorem indexAt_lt_length (hp : p < L.count) :
    L.indexAt p < (L.instructionsByRegion (L.regionAt p)).length :=
  idxOf_lt_length_of_mem (mem_instructionsByRegion.mpr ⟨hp, rfl⟩)

theorem mem_slice_region {a b : Nat} :
    k ∈ slice (L.instructionsByRegion r) a b ↔
      k < L.count ∧ L.regionAt k = r ∧ a ≤ L.indexAt k ∧ L.indexAt k < b := by
  rw [mem_slice instructionsByRegion_nodup, mem_instructionsByRegion, and_assoc]
  constructor
  all_goals
    rintro ⟨hk, rfl, ha, hb⟩
    exact ⟨hk, rfl, ha, hb⟩

theorem usesAt_of_ge (h : L.count ≤ p) : L.usesAt p = [] := by
  rw [usesAt, getElem?_eq_none h]
  rfl

theorem operandsAt_count (h : (L.usesAt p).count v ≤ 1) :
    (L.operandsAt p).count v = (L.usesAt p).count v := by
  rw [usesAt] at h
  rw [usesAt, operandsAt]
  cases hp : L.instrs[p]? with
  | none => rfl
  | some e =>
    rw [hp] at h
    exact e.2.operands_count v h

theorem usesAt_slotRead (h : L.slotReadAt p = true) : L.usesAt p = [] := by
  rw [slotReadAt] at h
  rw [usesAt]
  cases hp : L.instrs[p]? with
  | none => rfl
  | some e =>
    rw [hp] at h
    exact e.2.slotRead_uses h

theorem soleUse_eq_some {point : LexicalUsePoint} :
    L.soleUse v = some point ↔ L.usePoints v = [point] := by
  rw [soleUse]
  split
  · rename_i w h
    rw [h]
    simp
  · rename_i h
    exact iff_of_false (by simp) (h point)

end Lexical

end Js2Wasm.Ir
