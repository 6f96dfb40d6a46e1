import Js2Wasm.Binary.ArrayCache

/-! # Emitting the code section

`emitBinary` and `emitBinaryWithSourceMap` of `emit/binary.ts`.  The two run the same code
for the sections before and after the code section, whose bytes, or the failure, are given
with the module; they differ in how a function body is encoded.
-/
namespace Js2Wasm.Binary

open Expansion SourceMap
open Physical (ValType TypeDef)

variable {ν : Type}

structure WasmFunction (ν : Type) where
  name : String
  typeIdx : Int
  locals : List ValType
  body : ν

/-- A module: its instruction arrays and functions, what the checks read of it, and what is
written before and after the code section. -/
structure WasmModule (ν : Type) where
  arrays : ν → List (Instr ν)
  functions : List (WasmFunction ν)
  flatTypes : List TypeDef
  numImportFuncs : Nat
  numGlobals : Nat
  numTags : Nat
  numTables : Nat
  funcOrdinalToPosition : List (Option Nat)
  /-- `JS2WASM_SKIP_INDEX_VALIDATION`. -/
  skipIndexValidation : Bool
  sectionsBefore : Except CodegenError (List Byte)
  sectionsAfter : Except CodegenError (List Byte)

structure EmitResult where
  binary : List Byte
  sourceMapEntries : List SourceMapEntry
  deriving DecidableEq

/-! ### Locals -/

structure LocalGroup where
  count : Nat
  type : ValType
  deriving DecidableEq

/-- One round of `groupLocals`. -/
def addLocal (groups : List LocalGroup) (type : ValType) : List LocalGroup :=
  match groups.getLast? with
  | some last =>
    if last.type = type then groups.dropLast ++ [{ last with count := last.count + 1 }]
    else groups ++ [⟨1, type⟩]
  | none => [⟨1, type⟩]

def groupLocals (locals : List ValType) : List LocalGroup := locals.foldl addLocal []

/-- `body.vector(localGroups, …)`. -/
def encodeLocals (valCtx : Option EmitValidationCtx) (locals : List ValType) : Steps ν :=
  u32 (groupLocals locals).length ++
    (groupLocals locals).flatMap fun group => u32 group.count ++ encodeValType valCtx group.type

/-! ### Functions -/

/-- An entry relative to the code section. -/
structure FuncRelativeEntry where
  bodyOffset : Nat
  instrOffset : Nat
  sourcePos : SourcePos
  deriving DecidableEq

/-- What the code section holds so far. -/
structure CodeSection where
  body : List Byte
  entries : List FuncRelativeEntry

/-- `leb128UnsignedSize`; a 32-bit value has at most five digits. -/
def leb128UnsignedSize (value : Nat) : Nat := digits 5 (value % 2 ^ 32)
where
  digits : Nat → Nat → Nat
    | 0, _ => 0
    | fuel + 1, value => if value / 128 = 0 then 1 else digits fuel (value / 128) + 1

/-- `throw`. -/
def Emit.ofExcept (x : Except CodegenError α) : Emit α := x.mapError .thrown

section Encode

variable [Fintype ν] [DecidableEq ν] (m : WasmModule ν) (valCtx : Option EmitValidationCtx)

def WasmModule.layout : ModuleLayout := ⟨m.numImportFuncs, m.funcOrdinalToPosition⟩

/-- Arrays are not nested deeper than there are arrays. -/
def WasmModule.maxDepth (_ : WasmModule ν) : Nat := Fintype.card ν + 1

/-- The locals, the body and `end`, in an encoder of their own. -/
def encodeBody (f : WasmFunction ν) (recording : Option (SourceMapRecordingContext ν))
    (cache : Option (InstrArrayEmitCache ν)) : Emit (EmitState ν) := do
  let encodeArray := encodeInstrArray m.arrays m.layout valCtx m.maxDepth
  let s ← runSteps encodeArray (encodeLocals valCtx f.locals) { enc := [], recording, cache }
  let s ← encodeArray f.body s
  return s.write [OP.end_]

/-- `enc.u32(bodyBytes.length)` and `enc.bytes(bodyBytes)`. -/
def appendSized (enc bytes : List Byte) : Emit (List Byte) := do
  let size ← Emit.ofExcept (encodeU32 bytes.length)
  return enc ++ size ++ bytes

/-- `encodeFunction`, with the cache of this function. -/
def encodeFunction (f : WasmFunction ν) (s : CodeSection) : Emit CodeSection := do
  let cache := makeInstrArrayEmitCache (arrayChildren m.arrays) f.body
  let body ← encodeBody m valCtx f none (some cache)
  let enc ← appendSized s.body body.enc
  return { s with body := enc }

def encodeFunctionWithSourceMap (f : WasmFunction ν) (s : CodeSection) : Emit CodeSection := do
  let bodyStartInSection := s.body.length
  let body ← encodeBody m valCtx f (some ⟨[], []⟩) none
  let recorded := (body.recording.map SourceMapRecordingContext.entries).getD []
  let u32PrefixSize := leb128UnsignedSize body.enc.length
  let enc ← appendSized s.body body.enc
  return {
    body := enc
    entries := s.entries ++ recorded.map fun entry =>
      ⟨bodyStartInSection, bodyStartInSection + u32PrefixSize + entry.instrOffset,
        entry.sourcePos⟩ }

/-! ### The code section -/

/-- `makeValidationCtx`. -/
def WasmModule.validationCtx : Option EmitValidationCtx :=
  if m.skipIndexValidation then none
  else some {
    numFuncs := m.numImportFuncs + m.functions.length
    numTypes := m.flatTypes.length
    numGlobals := m.numGlobals
    numTags := m.numTags
    numTables := m.numTables
    flatTypes := m.flatTypes
    location := "module"
    maxLocals := -1 }

/-- The label of a function in error texts. -/
def WasmModule.functionLabel (functionPosition : Nat) (f : WasmFunction ν) : String :=
  let sharing := (m.functions.filter (·.name = f.name)).length
  "function '" ++ (if f.name = "" then "?" else f.name) ++ "' (position " ++
    toString functionPosition ++ ", " ++ toString f.locals.length ++ " declared local" ++
    (if f.locals.length = 1 then "" else "s") ++
    (if 1 < sharing then ", NAME SHARED BY " ++ toString sharing ++ " DEFINED FUNCTIONS" else "") ++
    ")"

/-- The context of a function: its label and the size of its frame. -/
def WasmModule.functionCtx (functionPosition : Nat) (f : WasmFunction ν) :
    Option EmitValidationCtx :=
  m.validationCtx.map fun ctx =>
    let params := resolveParamCount ctx f.typeIdx
    { ctx with
      location := m.functionLabel functionPosition f
      maxLocals := if 0 ≤ params then params + f.locals.length else -1 }

/-- `for (const [functionPosition, f] of mod.functions.entries())`. -/
def encodeFunctions (collectSourceMap : Bool) :
    Nat → List (WasmFunction ν) → CodeSection → Emit CodeSection
  | _, [], s => .ok s
  | functionPosition, f :: rest, s => do
    let valCtx := m.functionCtx functionPosition f
    let s ← if collectSourceMap then encodeFunctionWithSourceMap m valCtx f s
      else encodeFunction m valCtx f s
    encodeFunctions collectSourceMap (functionPosition + 1) rest s

/-- The code section behind what `enc` holds, and its entries with absolute offsets. -/
def emitCodeSection (collectSourceMap : Bool) (enc : List Byte) : Emit EmitResult :=
  if m.functions = [] then .ok ⟨enc, []⟩
  else do
    let count ← Emit.ofExcept (encodeU32 m.functions.length)
    let code ← encodeFunctions m collectSourceMap 0 m.functions ⟨count, []⟩
    let size ← Emit.ofExcept (encodeU32 code.body.length)
    let codeSectionPayloadStart := (enc ++ [SECTION.code] ++ size).length
    return {
      binary := enc ++ [SECTION.code] ++ size ++ code.body
      sourceMapEntries := code.entries.map fun entry =>
        ⟨codeSectionPayloadStart + entry.instrOffset, entry.sourcePos⟩ }

def emitBinaryInternal (collectSourceMap : Bool) : Emit EmitResult := do
  let enc ← Emit.ofExcept m.sectionsBefore
  let result ← emitCodeSection m collectSourceMap enc
  let rest ← Emit.ofExcept m.sectionsAfter
  return { result with binary := result.binary ++ rest }

/-- Emit a complete Wasm binary from an IR module. -/
def emitBinary : Emit (List Byte) := (emitBinaryInternal m false).map EmitResult.binary

/-- Emit a Wasm binary and collect source map entries. -/
def emitBinaryWithSourceMap : Emit EmitResult := emitBinaryInternal m true

end Encode

end Js2Wasm.Binary
