import Js2Wasm.Lib.Leb128
import Js2Wasm.Link.Resolver
import Mathlib.Data.List.Forall2

/-! # The linker

`link` on parsed objects (`link/linker.ts`): resolve symbols, give every object an
offset into each index space, and lay the sections of the objects one after
another, rewriting indices on the way.  The linked module is kept as the contents of
its sections; only function bodies are bytes, because the rewriter scans them as
bytes.  Isolation violations are warnings and the text stub is display only; both
are left out.

What the linker may assume of an object, and what its references mean.

A body is a list of instructions: the ones that carry an index the linker rewrites,
with the immediate as it is encoded, and every other instruction as its bytes.  A
symbol is undefined exactly when its index is an import's.  `resolvesTo` is the
definition a reference stands for: the object's own, or the one symbol resolution
chose for an import.
-/
namespace Js2Wasm.Link

/-! ### Offsets -/

structure ModuleOffsets where
  typeOffset : Nat
  funcOffset : Nat
  globalOffset : Nat
  memoryOffset : Nat
  tableOffset : Nat
  tagOffset : Nat
  deriving DecidableEq

namespace ModuleOffsets

def zero : ModuleOffsets := ⟨0, 0, 0, 0, 0, 0⟩

/-- The offsets of the object after `obj`: imports and definitions both count. -/
def advance (off : ModuleOffsets) (obj : ParsedObject) : ModuleOffsets where
  typeOffset := off.typeOffset + obj.types.length
  funcOffset := off.funcOffset + (obj.importCount .func + obj.functions.length)
  globalOffset := off.globalOffset + (obj.importCount .global + obj.globals.length)
  memoryOffset := off.memoryOffset + (obj.importCount .memory + obj.memories.length)
  tableOffset := off.tableOffset + (obj.importCount .table + obj.tables.length)
  tagOffset := off.tagOffset + (obj.importCount .tag + obj.tags.length)

/-- The offset into one index space. -/
def of (off : ModuleOffsets) : IndexKind → Nat
  | .func => off.funcOffset
  | .table => off.tableOffset
  | .memory => off.memoryOffset
  | .global => off.globalOffset
  | .tag => off.tagOffset

end ModuleOffsets

/-- `computeOffsets` from a running total. -/
def computeOffsetsFrom (off : ModuleOffsets) : List ParsedObject → List ModuleOffsets
  | [] => []
  | obj :: objs => off :: computeOffsetsFrom (off.advance obj) objs

def computeOffsets (objs : List ParsedObject) : List ModuleOffsets :=
  computeOffsetsFrom .zero objs

/-! ### Code rewriting -/

/-- What the rewriter of one object's bodies reads. -/
structure RewriteEnv where
  objs : List ParsedObject
  offsets : List ModuleOffsets
  resolution : Resolution
  modIdx : Nat
  obj : ParsedObject
  off : ModuleOffsets

/-- The symbol kind of an index space; memories have no symbols. -/
def symtabKind : IndexKind → Option Nat
  | .func => some SYMTAB_FUNCTION
  | .global => some SYMTAB_GLOBAL
  | .table => some SYMTAB_TABLE
  | .tag => some SYMTAB_EVENT
  | .memory => none

/-- The first symbol of a kind with a given index. -/
def firstSymbol (obj : ParsedObject) (kind : IndexKind) (index : Nat) :
    Option (SymbolInfo × Nat) :=
  obj.symbols.zipIdx.find? fun (sym, _) => some sym.kind == symtabKind kind && sym.index == index

/-- Resolve an index that may refer to an imported symbol; otherwise it is shifted by
the object's own offset. -/
def resolveIndex (env : RewriteEnv) (kind : IndexKind) (origIdx : Nat) : Nat :=
  match firstSymbol env.obj kind origIdx with
  | some (sym, symIdx) =>
    if sym.undefined then
      match env.resolution.get env.modIdx symIdx with
      | some r => r.targetIndex + ((env.offsets[r.targetModule]?).getD .zero).of kind
      | none => origIdx + env.off.of kind
    else origIdx + env.off.of kind
  | none => origIdx + env.off.of kind

/-- Re-emit an index at its natural width; indices are cut to 32 bits. -/
def appendLEB128 (value : Nat) : List UInt8 := Leb128.encode (value % 2 ^ 32)

/-- Scan a body for the opcodes that carry an index and rewrite it; every other byte is
copied.  `fuel` bounds the number of bytes. -/
def rewriteFrom (env : RewriteEnv) : Nat → List UInt8 → List UInt8
  | 0, _ => []
  | _, [] => []
  | fuel + 1, opcode :: rest =>
    let (value, size) := Leb128.read rest
    if opcode = 0x10 then
      -- call
      opcode :: appendLEB128 (resolveIndex env .func value) ++ rewriteFrom env fuel (rest.drop size)
    else if opcode = 0x23 ∨ opcode = 0x24 then
      -- global.get, global.set
      opcode :: appendLEB128 (resolveIndex env .global value) ++
        rewriteFrom env fuel (rest.drop size)
    else if opcode = 0x3f ∨ opcode = 0x40 then
      -- memory.size, memory.grow
      opcode :: appendLEB128 (value + env.off.memoryOffset) ++
        rewriteFrom env fuel (rest.drop size)
    else if opcode = 0x11 then
      -- call_indirect: type index, then table index
      let (tableIdx, tableSize) := Leb128.read (rest.drop size)
      opcode :: appendLEB128 (value + env.off.typeOffset) ++
        (appendLEB128 (resolveIndex env .table tableIdx) ++
          rewriteFrom env fuel ((rest.drop size).drop tableSize))
    else opcode :: rewriteFrom env fuel rest

def rewriteCode (env : RewriteEnv) (body : List UInt8) : List UInt8 :=
  rewriteFrom env body.length body

/-! ### Emission -/

structure LinkOptions where
  /-- The entry module: only its exports appear. -/
  entry : Option Name := none
  /-- The debug variable `JS2WASM_TRACE_LAST_STMT`. -/
  traceLastStmt : Bool := false

/-- The contents of the linked module's sections. -/
structure LinkedModule where
  types : List TypeSection
  functions : List FunctionEntry
  tables : List TableEntry
  memories : List MemoryEntry
  tags : List TagEntry
  globals : List GlobalEntry
  exports : List ExportEntry
  elements : List ElementEntry
  code : List CodeEntry
  deriving DecidableEq

def ascii (s : String) : Name := s.toList.map fun c => c.toNat.toUInt16

/-- An export's index in the linked module; a tag's is not shifted. -/
def linkedExportIndex (off : ModuleOffsets) (exp : ExportEntry) : Nat :=
  if exp.kind = 0 then exp.index + off.funcOffset
  else if exp.kind = 1 then exp.index + off.tableOffset
  else if exp.kind = 2 then exp.index + off.memoryOffset
  else if exp.kind = 3 then exp.index + off.globalOffset
  else exp.index

/-- Is this object left out of the export section? -/
def notEntry (options : LinkOptions) (obj : ParsedObject) : Bool :=
  match options.entry with
  | some entry => entry != [] && obj.name != entry
  | none => false

/-- One object's entries of the export section. -/
def exportsOf (options : LinkOptions) (obj : ParsedObject) (off : ModuleOffsets) :
    List ExportEntry :=
  if notEntry options obj then
    if options.traceLastStmt then
      (obj.exports.filter fun exp =>
          exp.kind == 3 && (ascii "__trace_last_stmt_").isPrefixOf exp.name).map fun exp =>
        ⟨exp.name ++ ascii "@" ++ obj.name, 3, exp.index + off.globalOffset⟩
    else []
  else obj.exports.map fun exp => ⟨exp.name, exp.kind, linkedExportIndex off exp⟩

/-- One object's entries of the element section; only index payloads are shifted. -/
def elementsOf (obj : ParsedObject) (off : ModuleOffsets) : List ElementEntry :=
  obj.elements.map fun elem =>
    { elem with
      tableIdx := elem.tableIdx + off.tableOffset
      funcIndices := elem.funcIndices.map (· + off.funcOffset) }

/-- One object's entries of the code section. -/
def codeOf (objs : List ParsedObject) (offsets : List ModuleOffsets) (resolution : Resolution)
    (modIdx : Nat) (obj : ParsedObject) (off : ModuleOffsets) : List CodeEntry :=
  obj.code.map fun code =>
    ⟨code.locals, rewriteCode ⟨objs, offsets, resolution, modIdx, obj, off⟩ code.body⟩

/-- The sections of the linked module, each object's entries in turn. -/
def linkedSections (objs : List ParsedObject) (resolution : Resolution)
    (offsets : List ModuleOffsets) (options : LinkOptions) : LinkedModule where
  types := objs.flatMap ParsedObject.types
  functions := (objs.zip offsets).flatMap fun (obj, off) =>
    obj.functions.map fun fn => ⟨fn.typeIdx + off.typeOffset⟩
  tables := objs.flatMap ParsedObject.tables
  memories := objs.flatMap ParsedObject.memories
  tags := (objs.zip offsets).flatMap fun (obj, off) =>
    obj.tags.map fun tag => ⟨tag.attribute_, tag.typeIdx + off.typeOffset⟩
  globals := objs.flatMap ParsedObject.globals
  exports := (objs.zip offsets).flatMap fun (obj, off) => exportsOf options obj off
  elements := (objs.zip offsets).flatMap fun (obj, off) => elementsOf obj off
  code := (objs.zip offsets).zipIdx.flatMap fun ((obj, off), modIdx) =>
    codeOf objs offsets resolution modIdx obj off

/-- The numbers written for one element segment. -/
def ElementEntry.u32s (e : ElementEntry) : List Nat :=
  let hasExplicitTable := hasFlag e.flags 0x02 && !hasFlag e.flags 0x01
  let usesExprs := hasFlag e.flags 0x04
  e.flags :: (if hasExplicitTable then [e.tableIdx] else []) ++
    (if usesExprs && e.elemExprs.isSome then [e.elemCount]
      else e.funcIndices.length :: e.funcIndices)

/-- The numbers the encoder writes as `u32`, which refuses one that does not fit. -/
def LinkedModule.u32s (m : LinkedModule) : List Nat :=
  [m.types.length, m.functions.length, m.tables.length, m.memories.length, m.tags.length,
    m.globals.length, m.exports.length, m.elements.length, m.code.length] ++
  m.types.flatMap (fun t => [t.params.length, t.results.length]) ++
  m.functions.map FunctionEntry.typeIdx ++
  m.tables.flatMap (fun t => t.min :: t.max.toList) ++
  m.memories.flatMap (fun t => t.min :: t.max.toList) ++
  m.tags.map TagEntry.typeIdx ++ m.exports.map ExportEntry.index ++
  m.elements.flatMap ElementEntry.u32s ++
  m.code.flatMap fun c => c.locals.length :: c.locals.map LocalDecl.count

inductive LinkError where
  | resolve (e : ResolveError)
  /-- `u32 out of range: …` -/
  | outOfRange
  deriving DecidableEq

def emitLinked (objs : List ParsedObject) (resolution : Resolution)
    (offsets : List ModuleOffsets) (options : LinkOptions) : Except (List LinkError) LinkedModule :=
  let m := linkedSections objs resolution offsets options
  if m.u32s.all (· < 2 ^ 32) then .ok m else .error [.outOfRange]

/-- Link parsed objects. -/
def link (objs : List ParsedObject) (options : LinkOptions) :
    Except (List LinkError) LinkedModule :=
  let resolution := resolveSymbols objs
  if resolution.errors.isEmpty then
    emitLinked objs resolution (computeOffsets objs) options
  else .error (resolution.errors.map .resolve)

/-! ## Relocatable objects -/

/-! ### Bodies -/

/-- An encoded index: its bytes and the value the reader gets from them. -/
structure LebImm where
  bytes : List UInt8
  value : Nat
  decodes : ∀ rest, Leb128.read (bytes ++ rest) = (value, bytes.length)

/-- The index the rewriter writes. -/
def LebImm.append (v : Nat) : LebImm where
  bytes := appendLEB128 v
  value := v % 2 ^ 32
  decodes rest := Leb128.read_encode (Nat.mod_lt _ (by decide)) rest

/-- Encoded indices are prefix-free. -/
theorem LebImm.append_inj {a b : LebImm} {xs ys : List UInt8} (h : a.bytes ++ xs = b.bytes ++ ys) :
    a.value = b.value ∧ xs = ys := by
  have ha := a.decodes xs
  rw [h, b.decodes ys, Prod.mk.injEq] at ha
  exact ⟨ha.1.symm, (List.append_inj h ha.2.symm).2⟩

/-- An instruction of a body, as far as the rewriter tells them apart. -/
inductive CodeInstr where
  | call (func : LebImm)
  | globalGet (global : LebImm)
  | globalSet (global : LebImm)
  | memorySize (memory : LebImm)
  | memoryGrow (memory : LebImm)
  | callIndirect (type table : LebImm)
  | plain (bytes : List UInt8)

namespace CodeInstr

def encode : CodeInstr → List UInt8
  | call f => 0x10 :: f.bytes
  | globalGet g => 0x23 :: g.bytes
  | globalSet g => 0x24 :: g.bytes
  | memorySize m => 0x3f :: m.bytes
  | memoryGrow m => 0x40 :: m.bytes
  | callIndirect type table => 0x11 :: (type.bytes ++ table.bytes)
  | plain bytes => bytes

/-- The references an instruction makes. -/
def refs : CodeInstr → List (IndexKind × Nat)
  | call f => [(.func, f.value)]
  | globalGet g | globalSet g => [(.global, g.value)]
  | callIndirect _ table => [(.table, table.value)]
  | memorySize _ | memoryGrow _ | plain _ => []

end CodeInstr

def encodeBody (instrs : List CodeInstr) : List UInt8 := instrs.flatMap CodeInstr.encode

/-! ### Element expressions -/

/-- An element expression: a function reference, or anything else. -/
inductive ElemExpr where
  | refFunc (func : LebImm)
  | other (bytes : List UInt8)

def ElemExpr.encode : ElemExpr → List UInt8
  | refFunc f => 0xd2 :: f.bytes ++ [0x0b]
  | other bytes => bytes

def encodeExprs (exprs : List ElemExpr) : List UInt8 := exprs.flatMap ElemExpr.encode

/-! ### Objects -/

/-- A parsed object with what makes it relocatable. -/
structure RelocatableObject extends ParsedObject where
  /-- The instructions of each body. -/
  instrs : List (List CodeInstr)
  code_bodies : code.map CodeEntry.body = instrs.map encodeBody
  code_functions : code.length = functions.length
  /-- The element expressions of each segment. -/
  exprs : List (List ElemExpr)
  exprs_length : exprs.length = elements.length
  exprs_bytes : ∀ p ∈ elements.zip exprs, p.1.elemExprs.getD [] = encodeExprs p.2
  symbols_ok : ∀ sym ∈ symbols, ∀ kind, symtabKind kind = some sym.kind →
    (sym.undefined = true ↔ sym.index < toParsedObject.importCount kind) ∧
      sym.index < toParsedObject.importCount kind + toParsedObject.definitionCount kind

abbrev parsedObjects (objs : List RelocatableObject) : List ParsedObject :=
  objs.map RelocatableObject.toParsedObject

section
variable (objs : List RelocatableObject)

/-- Definitions, imports, and both, of the objects before the `m`-th. -/
def definitionsBefore (kind : IndexKind) (m : Nat) : Nat :=
  ((parsedObjects objs).take m |>.map fun o => o.definitionCount kind).sum

/-- Imports of the `m`-th object. -/
def importsOf (kind : IndexKind) (m : Nat) : Nat :=
  ((parsedObjects objs)[m]?).elim 0 fun o => o.importCount kind

/-- A definition: an object, and an index into that object's own index space. -/
structure DefinitionSite where
  module : Nat
  index : Nat
  deriving DecidableEq

/-- The definition a reference of the `m`-th object stands for. -/
def resolvesTo (m : Nat) (kind : IndexKind) (index : Nat) : Option DefinitionSite :=
  match (parsedObjects objs)[m]? with
  | none => none
  | some obj =>
    if index < obj.importCount kind then
      match firstSymbol obj kind index with
      | some (_, symIdx) =>
        ((resolveSymbols (parsedObjects objs)).get m symIdx).map fun r =>
          ⟨r.targetModule, r.targetIndex⟩
      | none => none
    else if index < obj.importCount kind + obj.definitionCount kind then some ⟨m, index⟩
    else none

/-- Where the linked module holds the copy of a definition: after the definitions of
the objects before its own. -/
def position (kind : IndexKind) (site : DefinitionSite) : Nat :=
  definitionsBefore objs kind site.module + (site.index - importsOf objs kind site.module)

/-- The linked index `index'` refers to the copy of what `index` of object `m` stands
for.  A reference that resolves to nothing has no such copy. -/
def Refers (m : Nat) (kind : IndexKind) (index index' : Nat) : Prop :=
  ∃ site, resolvesTo objs m kind index = some site ∧ index' = position objs kind site

/-- The entries of every object, each with the number of its object. -/
def sites {α : Type} (entries : RelocatableObject → List α) : List (Nat × α) :=
  objs.zipIdx.flatMap fun (obj, m) => (entries obj).map fun e => (m, e)

end

end Js2Wasm.Link
