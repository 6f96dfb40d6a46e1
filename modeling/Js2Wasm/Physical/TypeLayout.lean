import Mathlib.Data.List.Basic

/-! # The type section

Type records and their flattened indices (`wasm/physical/type-layout.ts`): `rec` records
wrap several members, and every member gets the next type index.
`planPhysicalTypeSection` cuts the indices into recursion groups.

A missing record is `none`.  The forced intervals are given by their first and last
index.
-/
namespace Js2Wasm.Physical

/-! ### Type records -/

inductive ValType where
  | i32 | i64 | f32 | f64 | v128 | i8 | i16 | funcref | externref | ref_extern | eqref | anyref
  | ref (typeIdx : Int)
  | ref_null (typeIdx : Int)
  deriving DecidableEq

inductive TypeDef where
  | func (params results : List ValType)
  | struct (fields : List ValType) (superTypeIdx : Option Int)
  | array (element : ValType)
  | rec_ (types : List (Option TypeDef))
  | sub (superType : Option Int) (type : TypeDef)

/-! ### Flattened indices -/

structure PhysicalTypeEntry where
  typeIndex : Nat
  recordIndex : Nat
  memberIndex : Option Nat
  definition : TypeDef

structure PhysicalTypeRange where
  start : Nat
  last : Nat
  recordIndex : Nat
  deriving DecidableEq

structure PhysicalTypeTable where
  entries : List PhysicalTypeEntry
  recordRanges : List PhysicalTypeRange
  explicitGroups : List PhysicalTypeRange

/-- The checks on a member of a record. -/
def checkMember : Option TypeDef → Except String TypeDef
  | none => .error "missing recursive type member"
  | some (.rec_ _) => .error "nested rec wrappers are not Wasm subtype members"
  | some (.sub _ (.rec_ _)) | some (.sub _ (.sub _ _)) =>
    .error "nested rec/sub wrappers are not Wasm subtype members"
  | some (.sub _ (.struct _ (some _))) =>
    .error "double subtype wrappers are not Wasm subtype members"
  | some definition => .ok definition

/-- The members of a record, and whether it is a `rec` record. -/
def recordMembers : TypeDef → List (Option TypeDef) × Bool
  | .rec_ types => (types, true)
  | record => ([some record], false)

/-- The loop over the members of one record. -/
def indexMembers (recordIndex : Nat) (explicit : Bool) :
    Nat → List (Option TypeDef) → List PhysicalTypeEntry → Except String (List PhysicalTypeEntry)
  | _, [], entries => .ok entries
  | memberIndex, member :: members, entries => do
    let definition ← checkMember member
    let entry : PhysicalTypeEntry :=
      ⟨entries.length, recordIndex, if explicit then some memberIndex else none, definition⟩
    indexMembers recordIndex explicit (memberIndex + 1) members (entries ++ [entry])

/-- The loop over the records. -/
def indexRecords : Nat → List (Option TypeDef) → PhysicalTypeTable → Except String PhysicalTypeTable
  | _, [], table => .ok table
  | _, none :: _, _ => .error "missing type record"
  | recordIndex, some record :: records, table => do
    let (members, explicit) := recordMembers record
    if members.isEmpty then .error "empty recursive type reservation has no physical member"
    else do
      let entries ← indexMembers recordIndex explicit 0 members table.entries
      let range : PhysicalTypeRange := ⟨table.entries.length, entries.length - 1, recordIndex⟩
      indexRecords (recordIndex + 1) records
        ⟨entries, table.recordRanges ++ [range],
          if explicit then table.explicitGroups ++ [range] else table.explicitGroups⟩

/-- Index shapes only: reservations may still refer to types reserved later. -/
def indexPhysicalTypes (types : List (Option TypeDef)) : Except String PhysicalTypeTable :=
  indexRecords 0 types ⟨[], [], []⟩

/-! ### References -/

def checkIndex (count : Nat) (index : Int) : Except String Nat :=
  if 0 ≤ index ∧ index < count then .ok index.toNat
  else .error s!"type index out of range: {index} (count {count})"

/-- The reference of a value type. -/
def value (count : Nat) : ValType → Except String (List Nat)
  | .ref typeIdx | .ref_null typeIdx => do return [← checkIndex count typeIdx]
  | _ => .ok []

/-- The references of several value types. -/
def values (count : Nat) : List ValType → Except String (List Nat)
  | [] => .ok []
  | v :: vs => do
    let refs ← value count v
    return refs ++ (← values count vs)

def parent (count typeIndex : Nat) (index : Int) : Except String Unit := do
  let index ← checkIndex count index
  if typeIndex ≤ index then
    .error s!"supertype {index} must precede subtype {typeIndex}"
  else return ()

/-- The supertype that a `sub` record names. -/
def TypeDef.superType : TypeDef → Option Int
  | .sub superType _ => superType
  | _ => none

/-- What a `sub` record wraps. -/
def TypeDef.payload : TypeDef → TypeDef
  | .sub _ type => type
  | definition => definition

/-- A check of an optional index. -/
def parentOf (count typeIndex : Nat) : Option Int → Except String Unit
  | none => .ok ()
  | some index => parent count typeIndex index

/-- The references of one entry. -/
def references (count : Nat) (entry : PhysicalTypeEntry) : Except String (List Nat) := do
  parentOf count entry.typeIndex entry.definition.superType
  match entry.definition.payload with
  | .func params results => values count (params ++ results)
  | .struct fields superTypeIdx => do
    parentOf count entry.typeIndex (superTypeIdx.filter (· != -1))
    values count fields
  | .array element => value count element
  | _ => .error "nested rec/sub wrappers are not Wasm subtype members"

/-- The references of all entries. -/
def allReferences (count : Nat) : List PhysicalTypeEntry → Except String (List (List Nat))
  | [] => .ok []
  | entry :: entries => do
    let refs ← references count entry
    return refs :: (← allReferences count entries)

/-! ### Groups -/

/-- One group of the type section. -/
structure PhysicalTypeGroup where
  start : Nat
  last : Nat
  recursive : Bool
  explicitRecordIndex : Option Nat
  deriving DecidableEq

/-- The checks on the forced intervals. -/
def checkForced (table : PhysicalTypeTable) :
    List (Int × Int) → Except String (List (Nat × Nat))
  | [] => .ok []
  | (start, last) :: forced => do
    let start ← checkIndex table.entries.length start
    let last ← checkIndex table.entries.length last
    if last < start then .error "invalid forced type group interval"
    else if table.explicitGroups.any fun explicit =>
        start ≤ explicit.last && last ≥ explicit.start &&
          (start != explicit.start || last != explicit.last) then
      .error "forced group would split or merge an explicit rec group"
    else return (start, last) :: (← checkForced table forced)

/-- The forced intervals that meet the group so far push its end. -/
def pushForced (forced : List (Nat × Nat)) (start last : Nat) : Nat :=
  forced.foldl (fun last f => if f.1 ≤ last ∧ start ≤ f.2 then max last f.2 else last) last

/-- The scan of a group, whose end moves while it runs; the list holds the references from
`scan` on. -/
def scanGroup (explicitGroups : List PhysicalTypeRange) (forced : List (Nat × Nat))
    (explicit : Option PhysicalTypeRange) (start : Nat) :
    List (List Nat) → Nat → Nat → Except String Nat
  | refs, scan, last =>
    if last < scan then .ok last
    else match refs with
    | [] => .error "references[scan] is not iterable"
    | targets :: refs =>
      let last := pushForced forced start (targets.foldl max last)
      match explicit with
      | some group =>
        if last ≠ group.last then .error "reference would merge an explicit rec group"
        else scanGroup explicitGroups forced explicit start refs (scan + 1) last
      | none =>
        if explicitGroups.any fun group => start ≤ group.last && last ≥ group.start then
          .error "reference would merge an explicit rec group"
        else scanGroup explicitGroups forced explicit start refs (scan + 1) last

/-- The loop over the groups; each takes at least one entry, so that as many rounds as there
are entries are enough. -/
def groupsFrom (table : PhysicalTypeTable) (refs : List (List Nat)) (forced : List (Nat × Nat)) :
    Nat → Nat → Except String (List PhysicalTypeGroup)
  | 0, _ => .ok []
  | rounds + 1, start =>
    if table.entries.length ≤ start then .ok []
    else do
      let explicit := table.explicitGroups.find? (·.start = start)
      let last := (explicit.map (·.last)).getD start
      let last ← scanGroup table.explicitGroups forced explicit start (refs.drop start) start last
      let group : PhysicalTypeGroup :=
        ⟨start, last, explicit.isSome || decide (start < last), explicit.map (·.recordIndex)⟩
      return group :: (← groupsFrom table refs forced rounds (last + 1))

/-- The last check: every forced interval is a group. -/
def checkMerged (groups : List PhysicalTypeGroup) (forced : List (Nat × Nat)) : Except String Unit :=
  if forced.all fun f => groups.any fun group => group.start = f.1 && group.last = f.2 then .ok ()
  else .error "canonical runtime rec-group merged with an adjacent type"

/-- Plan vector entries without changing any flattened reference or explicit identity. -/
def planPhysicalTypeSection (table : PhysicalTypeTable) (forcedGroups : List (Int × Int)) :
    Except String (List PhysicalTypeGroup) := do
  let refs ← allReferences table.entries.length table.entries
  let forced ← checkForced table forcedGroups
  let groups ← groupsFrom table refs forced table.entries.length 0
  checkMerged groups forced
  return groups

end Js2Wasm.Physical
