import Mathlib.Data.List.Basic

/-! # Parsed object files

The sections and the linking metadata of a relocatable object as the reader hands
them to the linker (`link/reader.ts`), with the symbol flags and kinds both sides
use.  A name is its UTF-16 code units.

`resolveSymbols` (`link/resolver.ts`): every undefined, named symbol is matched with
a visible definition of the same kind and name in some object, a strong one if there
is one.  The map from a key to its definitions keeps them in object order, which is
the list of all visible definitions filtered by the key.
-/
namespace Js2Wasm.Link
open List

/-- A JavaScript string: its UTF-16 code units. -/
abbrev Name := List UInt16

/-! ### Symbol flags, symbol kinds and external kinds -/

def SYMBOL_BINDING_WEAK : Nat := 0x01
def SYMBOL_BINDING_LOCAL : Nat := 0x02
def SYMBOL_UNDEFINED : Nat := 0x10
def SYMBOL_EXPORTED : Nat := 0x20
def SYMBOL_EXPLICIT_NAME : Nat := 0x40

def SYMTAB_FUNCTION : Nat := 0
def SYMTAB_GLOBAL : Nat := 2
def SYMTAB_EVENT : Nat := 4
def SYMTAB_TABLE : Nat := 5

/-- `(flags & bit) !== 0`. -/
def hasFlag (flags bit : Nat) : Bool := flags &&& bit != 0

/-! ### Section entries -/

structure TypeSection where
  params : List UInt8
  results : List UInt8
  deriving DecidableEq

/-- `kind`: 0 function, 1 table, 2 memory, 3 global, 4 tag; the other fields are the
ones that kind has. -/
structure ImportEntry where
  module : Name
  name : Name
  kind : Nat
  typeIdx : Option Nat := none
  globalType : Option UInt8 := none
  globalMutable : Option Bool := none
  tableElementType : Option UInt8 := none
  tableMin : Option Nat := none
  tableMax : Option Nat := none
  memoryMin : Option Nat := none
  memoryMax : Option Nat := none
  deriving DecidableEq

structure FunctionEntry where
  typeIdx : Nat
  deriving DecidableEq

structure TableEntry where
  elementType : UInt8
  min : Nat
  max : Option Nat
  deriving DecidableEq

structure MemoryEntry where
  min : Nat
  max : Option Nat
  deriving DecidableEq

/-- `init` is the initializer's bytes, its `end` included. -/
structure GlobalEntry where
  type : UInt8
  mutable_ : Bool
  init : List UInt8
  deriving DecidableEq

structure ExportEntry where
  name : Name
  kind : Nat
  index : Nat
  deriving DecidableEq

/-- An element segment: function indices for flags 0 to 3, raw expressions for
flags 4 to 7. -/
structure ElementEntry where
  flags : Nat
  tableIdx : Nat
  offsetExpr : Option (List UInt8)
  funcIndices : List Nat
  elemCount : Nat
  kindByte : Option UInt8
  elemExprs : Option (List UInt8)
  deriving DecidableEq

structure TagEntry where
  attribute_ : UInt8
  typeIdx : Nat
  deriving DecidableEq

structure LocalDecl where
  count : Nat
  type : UInt8
  deriving DecidableEq

structure CodeEntry where
  locals : List LocalDecl
  body : List UInt8
  deriving DecidableEq

structure SymbolInfo where
  kind : Nat
  name : Name
  index : Nat
  flags : Nat
  deriving DecidableEq

namespace SymbolInfo

def undefined (s : SymbolInfo) : Bool := hasFlag s.flags SYMBOL_UNDEFINED
def local_ (s : SymbolInfo) : Bool := hasFlag s.flags SYMBOL_BINDING_LOCAL
def weak (s : SymbolInfo) : Bool := hasFlag s.flags SYMBOL_BINDING_WEAK

end SymbolInfo

structure RelocEntry where
  type : UInt8
  offset : Nat
  symbolIndex : Nat
  addend : Option Int := none
  deriving DecidableEq

structure ParsedObject where
  name : Name
  types : List TypeSection := []
  imports : List ImportEntry := []
  functions : List FunctionEntry := []
  tables : List TableEntry := []
  memories : List MemoryEntry := []
  globals : List GlobalEntry := []
  exports : List ExportEntry := []
  elements : List ElementEntry := []
  tags : List TagEntry := []
  code : List CodeEntry := []
  symbols : List SymbolInfo := []
  relocations : List (Name × List RelocEntry) := []
  deriving DecidableEq

/-! ### Index spaces -/

/-- The index spaces that hold imports and definitions. -/
inductive IndexKind where
  | func | table | memory | global | tag
  deriving DecidableEq

namespace IndexKind

/-- The kind byte of an import or export. -/
def code : IndexKind → Nat
  | func => 0
  | table => 1
  | memory => 2
  | global => 3
  | tag => 4

end IndexKind

namespace ParsedObject

/-- `obj.imports.filter((i) => i.kind === kind).length`. -/
def importCount (obj : ParsedObject) (kind : IndexKind) : Nat :=
  (obj.imports.filter fun i => i.kind == kind.code).length

/-- How many entries of an index space the object defines itself. -/
def definitionCount (obj : ParsedObject) : IndexKind → Nat
  | .func => obj.functions.length
  | .table => obj.tables.length
  | .memory => obj.memories.length
  | .global => obj.globals.length
  | .tag => obj.tags.length

end ParsedObject

/-! ## Symbol resolution -/

/-- `${sym.kind}:${sym.name}`. -/
structure SymbolKey where
  kind : Nat
  name : Name
  deriving DecidableEq

def SymbolInfo.key (s : SymbolInfo) : SymbolKey := ⟨s.kind, s.name⟩

structure DefinedSymbol where
  moduleIdx : Nat
  symbolIdx : Nat
  symbol : SymbolInfo
  deriving DecidableEq

structure ResolvedSymbol where
  targetModule : Nat
  targetIndex : Nat
  name : Name
  deriving DecidableEq

inductive ResolveError where
  /-- `Duplicate symbol "…" (kind …) defined in: …` -/
  | duplicate (name : Name) (kind : Nat) (modules : List Name)
  /-- `Unresolved symbol "…" (kind …) in module "…"` -/
  | unresolved (name : Name) (kind : Nat) (module : Name)
  deriving DecidableEq

structure Resolution where
  /-- From an object and a symbol index to the target. -/
  resolved : List ((Nat × Nat) × ResolvedSymbol)
  errors : List ResolveError

/-- Is this symbol a definition other objects can see? -/
def SymbolInfo.visible (s : SymbolInfo) : Bool := !s.undefined && !s.local_ && s.name != []

/-- The visible definitions of every object, in order. -/
def definedSymbols (objects : List ParsedObject) : List DefinedSymbol :=
  objects.zipIdx.flatMap fun (obj, moduleIdx) =>
    (obj.symbols.zipIdx.filter fun (sym, _) => sym.visible).map fun (sym, symbolIdx) =>
      ⟨moduleIdx, symbolIdx, sym⟩

/-- The definitions recorded for one key. -/
def definitionsOf (defs : List DefinedSymbol) (key : SymbolKey) : List DefinedSymbol :=
  defs.filter fun d => d.symbol.key == key

def strongDefinitions (defs : List DefinedSymbol) : List DefinedSymbol :=
  defs.filter fun d => !d.symbol.weak

/-- The keys of a list of definitions, in order of first insertion. -/
def keysOf : List DefinedSymbol → List SymbolKey
  | [] => []
  | d :: defs => d.symbol.key :: (keysOf defs).filter (· != d.symbol.key)

/-- One error for each key with more than one strong definition. -/
def duplicateErrors (objects : List ParsedObject) (defs : List DefinedSymbol) :
    List ResolveError :=
  (keysOf defs).filterMap fun key =>
    let strongDefs := strongDefinitions (definitionsOf defs key)
    if 1 < strongDefs.length then
      some (.duplicate key.name key.kind
        (strongDefs.map fun d => (objects[d.moduleIdx]?).elim [] ParsedObject.name))
    else none

/-- The definition an undefined symbol is matched with: the first strong one, else
the first. -/
def chooseDefinition (defs : List DefinedSymbol) : Option DefinedSymbol :=
  match (strongDefinitions defs).head? with
  | some d => some d
  | none => defs.head?

/-- Every undefined, named symbol with its object and index. -/
def undefinedSymbols (objects : List ParsedObject) : List (ParsedObject × Nat × SymbolInfo × Nat) :=
  objects.zipIdx.flatMap fun (obj, moduleIdx) =>
    (obj.symbols.zipIdx.filter fun (sym, _) => sym.undefined && sym.name != []).map
      fun (sym, symbolIdx) => (obj, moduleIdx, sym, symbolIdx)

/-- Resolve symbols across a set of parsed objects. -/
def resolveSymbols (objects : List ParsedObject) : Resolution :=
  let defs := definedSymbols objects
  let wanted := undefinedSymbols objects
  { resolved := wanted.filterMap fun (_, moduleIdx, sym, symbolIdx) =>
      (chooseDefinition (definitionsOf defs sym.key)).map fun chosen =>
        ((moduleIdx, symbolIdx), ⟨chosen.moduleIdx, chosen.symbol.index, sym.name⟩)
    errors := duplicateErrors objects defs ++ wanted.filterMap fun (obj, _, sym, _) =>
      if (definitionsOf defs sym.key).isEmpty then
        some (.unresolved sym.name sym.kind obj.name)
      else none }

/-- `resolution.resolved.get(key)`. -/
def Resolution.get (r : Resolution) (moduleIdx symbolIdx : Nat) : Option ResolvedSymbol :=
  r.resolved.lookup (moduleIdx, symbolIdx)

/-! ### What resolution finds -/

variable {d : DefinedSymbol} {m i : Nat} {objects : List ParsedObject}

end Js2Wasm.Link
