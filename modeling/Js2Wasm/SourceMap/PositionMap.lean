import Js2Wasm.Lib.TextEdits

/-! # Position maps

`PositionMap` (`position-map.ts`): the edits of a rewriting stage, and the stages before it.
`toInputOffset` takes an offset of the rewritten text back through the stages.  The origins of
generated declarations, which only the provenance lookup reads, are left out.
-/
namespace Js2Wasm.SourceMap

/-- The span `[origStart, origEnd)` was replaced by a text of length `newLength`. -/
structure SourceEdit where
  origStart : Nat
  origEnd : Nat
  newLength : Nat
  deriving DecidableEq

/-- The edits of a map, sorted by where they start. -/
structure Edits where
  edits : List SourceEdit
  sorted : edits.Pairwise fun a b => a.origStart ≤ b.origStart

/-- The constructor's sort, `(a, b) => a.origStart - b.origStart`; it is stable. -/
def sortEdits (edits : List SourceEdit) : Edits where
  edits := edits.insertionSort fun a b => a.origStart ≤ b.origStart
  sorted := by
    have : Std.Total fun a b : SourceEdit => a.origStart ≤ b.origStart :=
      ⟨fun a b => Nat.le_total _ _⟩
    have : IsTrans SourceEdit fun a b => a.origStart ≤ b.origStart :=
      ⟨fun _ _ _ h h' => h.trans h'⟩
    exact List.pairwise_insertionSort _ edits

inductive PositionMap where
  | single (edits : Edits)
  | chained (edits : Edits) (inner : PositionMap)

namespace PositionMap

/-- `new PositionMap(edits, inner)`. -/
def new (edits : List SourceEdit) : Option PositionMap → PositionMap
  | none => single (sortEdits edits)
  | some inner => chained (sortEdits edits) inner

def identity : PositionMap := new [] none

def isIdentity : PositionMap → Bool
  | single edits => edits.edits.isEmpty
  | chained edits inner => edits.edits.isEmpty && inner.isIdentity

/-- The loop over the edits; `delta` is how much longer the output is than the input so far. -/
def directFrom (outOffset : Nat) : Int → List SourceEdit → Nat
  | delta, [] => (outOffset - delta).toNat
  | delta, e :: edits =>
    if outOffset < e.origStart + delta then (outOffset - delta).toNat
    else if outOffset < e.origStart + delta + e.newLength then e.origStart
    else directFrom outOffset (delta + (e.newLength - (e.origEnd - e.origStart))) edits

def toDirectInputOffset (edits : Edits) (outOffset : Nat) : Nat :=
  directFrom outOffset 0 edits.edits

def toInputOffset : PositionMap → Nat → Nat
  | single edits, outOffset => toDirectInputOffset edits outOffset
  | chained edits inner, outOffset => inner.toInputOffset (toDirectInputOffset edits outOffset)

def compose : PositionMap → PositionMap → PositionMap
  | this@(single edits), inner =>
    if inner.isIdentity then this
    else if this.isIdentity then inner
    else new edits.edits (some inner)
  | this@(chained edits thisInner), inner =>
    if inner.isIdentity then this
    else if this.isIdentity then inner
    else new edits.edits (some (thisInner.compose inner))

/-! ### Composition -/

/-- The edits are sorted already when a map is built again from them. -/
theorem sortEdits_edits (edits : Edits) : sortEdits edits.edits = edits := by
  obtain ⟨edits, hs⟩ := edits
  simp only [sortEdits, hs.insertionSort_eq]

theorem toDirectInputOffset_of_isEmpty {edits : Edits} (h : edits.edits.isEmpty) (o : Nat) :
    toDirectInputOffset edits o = o := by
  rw [toDirectInputOffset, List.isEmpty_iff.mp h, directFrom]
  omega

theorem toInputOffset_of_isIdentity {m : PositionMap} (h : m.isIdentity) (o : Nat) :
    m.toInputOffset o = o := by
  induction m generalizing o with
  | single edits => exact toDirectInputOffset_of_isEmpty h o
  | chained edits inner ih =>
    rw [isIdentity, Bool.and_eq_true] at h
    rw [toInputOffset, toDirectInputOffset_of_isEmpty h.1, ih h.2]

/-- Composed maps are applied one after the other. -/
theorem toInputOffset_compose (a b : PositionMap) (o : Nat) :
    (a.compose b).toInputOffset o = b.toInputOffset (a.toInputOffset o) := by
  induction a generalizing o with
  | single edits =>
    rw [compose]
    split_ifs with hb ha
    · rw [toInputOffset_of_isIdentity hb]
    · rw [toInputOffset_of_isIdentity ha]
    · rw [new, sortEdits_edits, toInputOffset, toInputOffset]
  | chained edits inner ih =>
    rw [compose]
    split_ifs with hb ha
    · rw [toInputOffset_of_isIdentity hb]
    · rw [toInputOffset_of_isIdentity ha]
    · rw [new, sortEdits_edits, toInputOffset, toInputOffset, ih]

theorem isIdentity_compose (a b : PositionMap) :
    (a.compose b).isIdentity = (a.isIdentity && b.isIdentity) := by
  induction a with
  | single edits =>
    rw [compose]
    split_ifs with hb ha
    · rw [hb, Bool.and_true]
    · rw [ha, Bool.true_and]
    · rw [new, sortEdits_edits, isIdentity, isIdentity]
  | chained edits inner ih =>
    rw [compose]
    split_ifs with hb ha
    · rw [hb, Bool.and_true]
    · rw [ha, Bool.true_and]
    · rw [new, sortEdits_edits, isIdentity, isIdentity, ih, Bool.and_assoc]

/-- The maps `a` and `b` as one chain. -/
def chain : PositionMap → PositionMap → PositionMap
  | single edits, b => chained edits b
  | chained edits inner, b => chained edits (inner.compose b)

theorem compose_eq_chain {a b : PositionMap} (ha : ¬ a.isIdentity) (hb : ¬ b.isIdentity) :
    a.compose b = a.chain b := by
  cases a <;> rw [compose, if_neg hb, if_neg ha, new, sortEdits_edits, chain]

theorem compose_assoc (a b c : PositionMap) :
    (a.compose b).compose c = a.compose (b.compose c) := by
  by_cases hc : c.isIdentity
  · have hright (m : PositionMap) : m.compose c = m := by
      cases m <;> rw [compose, if_pos hc]
    rw [hright, hright]
  by_cases hb : b.isIdentity
  · have hbc : b.compose c = c := by
      cases b <;> rw [compose, if_neg hc, if_pos hb]
    have hab : a.compose b = a := by
      cases a <;> rw [compose, if_pos hb]
    rw [hbc, hab]
  have hbc : ¬ (b.compose c).isIdentity := by
    rw [isIdentity_compose, Bool.and_eq_true]
    exact fun h => hb h.1
  induction a with
  | single edits =>
    by_cases ha : (single edits).isIdentity
    · rw [compose, if_neg hb, if_pos ha, compose, if_neg hbc, if_pos ha]
    · have hab : ¬ ((single edits).compose b).isIdentity := by
        rw [isIdentity_compose, Bool.and_eq_true]
        exact fun h => ha h.1
      rw [compose_eq_chain hab hc, compose_eq_chain ha hb, compose_eq_chain ha hbc]
      rfl
  | chained edits inner ih =>
    by_cases ha : (chained edits inner).isIdentity
    · rw [compose, if_neg hb, if_pos ha, compose, if_neg hbc, if_pos ha]
    · have hab : ¬ ((chained edits inner).compose b).isIdentity := by
        rw [isIdentity_compose, Bool.and_eq_true]
        exact fun h => ha h.1
      rw [compose_eq_chain hab hc, compose_eq_chain ha hb, compose_eq_chain ha hbc, chain, chain,
        chain, ih]

theorem compose_identity (a : PositionMap) : a.compose identity = a := by
  cases a <;> rfl

end PositionMap

end Js2Wasm.SourceMap
