import Js2Wasm.Lib.Expansion
import Js2Wasm.Physical.TypeLayout
import Js2Wasm.SourceMap.Mappings

/-! # Opcodes

The tables `OP`, `GC`, `SIMD`, `TYPE` and `SECTION` of `emit/opcodes.ts`, as far as
`encodeInstr` reads them.  Instructions that are encoded alike share a type, whose function
gives the byte, or the code behind a prefix byte, of each.

`encodeInstr` of `emit/binary.ts` with the checks of indices that stand at its encoding
sites.  What it does to the encoder is given as the list of its steps: the bytes that it
writes, the instruction arrays that it encodes in place, and the failure of a check, behind
which nothing is written.

Instruction arrays are objects: two instructions can hold the same array, and an array can
hold an instruction that holds the array itself.  They are named by a type `ν`, and
`arrays` gives the instructions of each.
-/
namespace Js2Wasm.Binary

/-- Instructions that are one opcode byte. -/
inductive PlainOp where
  | unreachable | nop | return_ | drop | select | i64Add | i64Sub | i64Mul | i64DivS | i64DivU
  | i64RemS | i64RemU | i64Eq | i64Ne | i64LtS | i64LtU | i64LeS | i64LeU | i64GtS | i64GtU
  | i64GeS | i64GeU | i64Eqz | i64And | i64Or | i64Xor | i64Shl | i64ShrS | i64ShrU
  | i64ExtendI32S | i64ExtendI32U | i64TruncF64S | f64ConvertI64S | f64ConvertI64U
  | i64ReinterpretF64 | f64ReinterpretI64 | i32ReinterpretF32 | f32ReinterpretI32 | i32Eqz
  | i32Eq | i32Ne | i32LtS | i32LeS | i32GtS | i32GeS | i32GeU | i32Add | i32Sub | i32Mul
  | i32And | i32Or | i32Xor | i32Shl | i32ShrS | i32ShrU | i32Clz | f64Eq | f64Ne | f64Lt | f64Le
  | f64Gt | f64Ge | f64Abs | f64Neg | f64Ceil | f64Floor | f64Trunc | f64Nearest | f64Sqrt
  | f64Add | f64Sub | f64Mul | f64Div | f64Min | f64Max | f64Copysign | i32WrapI64 | i32TruncF64S
  | i32TruncF64U | f64ConvertI32S | f64ConvertI32U | refIsNull | refAsNonNull | refEq | i32DivS
  | i32DivU | i32RemS | i32RemU | i32LtU | i32LeU | i32GtU | f32DemoteF64 | f64PromoteF32 | end_
  deriving DecidableEq

/-- The byte, from `OP`. -/
def PlainOp.opcode : PlainOp → UInt8
  | .unreachable => 0x00 | .nop => 0x01 | .return_ => 0x0f | .drop => 0x1a | .select => 0x1b
  | .i64Add => 0x7c | .i64Sub => 0x7d | .i64Mul => 0x7e | .i64DivS => 0x7f | .i64DivU => 0x80
  | .i64RemS => 0x81 | .i64RemU => 0x82 | .i64Eq => 0x51 | .i64Ne => 0x52 | .i64LtS => 0x53
  | .i64LtU => 0x54 | .i64LeS => 0x57 | .i64LeU => 0x58 | .i64GtS => 0x55 | .i64GtU => 0x56
  | .i64GeS => 0x59 | .i64GeU => 0x5a | .i64Eqz => 0x50 | .i64And => 0x83 | .i64Or => 0x84
  | .i64Xor => 0x85 | .i64Shl => 0x86 | .i64ShrS => 0x87 | .i64ShrU => 0x88
  | .i64ExtendI32S => 0xac | .i64ExtendI32U => 0xad | .i64TruncF64S => 0xb0
  | .f64ConvertI64S => 0xb9 | .f64ConvertI64U => 0xba | .i64ReinterpretF64 => 0xbd
  | .f64ReinterpretI64 => 0xbf | .i32ReinterpretF32 => 0xbc | .f32ReinterpretI32 => 0xbe
  | .i32Eqz => 0x45 | .i32Eq => 0x46 | .i32Ne => 0x47 | .i32LtS => 0x48 | .i32LeS => 0x4c
  | .i32GtS => 0x4a | .i32GeS => 0x4e | .i32GeU => 0x4f | .i32Add => 0x6a | .i32Sub => 0x6b
  | .i32Mul => 0x6c | .i32And => 0x71 | .i32Or => 0x72 | .i32Xor => 0x73 | .i32Shl => 0x74
  | .i32ShrS => 0x75 | .i32ShrU => 0x76 | .i32Clz => 0x67 | .f64Eq => 0x61 | .f64Ne => 0x62
  | .f64Lt => 0x63 | .f64Le => 0x65 | .f64Gt => 0x64 | .f64Ge => 0x66 | .f64Abs => 0x99
  | .f64Neg => 0x9a | .f64Ceil => 0x9b | .f64Floor => 0x9c | .f64Trunc => 0x9d
  | .f64Nearest => 0x9e | .f64Sqrt => 0x9f | .f64Add => 0xa0 | .f64Sub => 0xa1 | .f64Mul => 0xa2
  | .f64Div => 0xa3 | .f64Min => 0xa4 | .f64Max => 0xa5 | .f64Copysign => 0xa6
  | .i32WrapI64 => 0xa7 | .i32TruncF64S => 0xaa | .i32TruncF64U => 0xab | .f64ConvertI32S => 0xb7
  | .f64ConvertI32U => 0xb8 | .refIsNull => 0xd1 | .refAsNonNull => 0xd4 | .refEq => 0xd3
  | .i32DivS => 0x6d | .i32DivU => 0x6e | .i32RemS => 0x6f | .i32RemU => 0x70 | .i32LtU => 0x49
  | .i32LeU => 0x4d | .i32GtU => 0x4b | .f32DemoteF64 => 0xb6 | .f64PromoteF32 => 0xbb
  | .end_ => 0x0b

/-- Loads and stores: the opcode, the alignment and the offset. -/
inductive MemoryOp where
  | i32Load | i32Load8U | i32Load8S | i32Load16U | i32Store | i64Store | i32Store8 | i32Store16
  | f64Load | f64Store | f32Load | f32Store
  deriving DecidableEq

def MemoryOp.opcode : MemoryOp → UInt8
  | .i32Load => 0x28 | .i32Load8U => 0x2d | .i32Load8S => 0x2c | .i32Load16U => 0x2f
  | .i32Store => 0x36 | .i64Store => 0x37 | .i32Store8 => 0x3a | .i32Store16 => 0x3b
  | .f64Load => 0x2b | .f64Store => 0x39 | .f32Load => 0x2a | .f32Store => 0x38

/-- Jumps with one label. -/
inductive DepthOp where
  | br | brIf | rethrow
  deriving DecidableEq

def DepthOp.opcode : DepthOp → UInt8
  | .br => 0x0c | .brIf => 0x0d | .rethrow => 0x09

/-- Instructions that name a function. -/
inductive FuncOp where
  | call | returnCall | refFunc
  deriving DecidableEq

def FuncOp.opcode : FuncOp → UInt8
  | .call => 0x10 | .returnCall => 0x12 | .refFunc => 0xd2

/-- Instructions that name a local. -/
inductive LocalOp where
  | localGet | localSet | localTee
  deriving DecidableEq

def LocalOp.opcode : LocalOp → UInt8
  | .localGet => 0x20 | .localSet => 0x21 | .localTee => 0x22

/-- The name of the instruction in error texts. -/
def LocalOp.name : LocalOp → String
  | .localGet => "local.get" | .localSet => "local.set" | .localTee => "local.tee"

/-- Instructions that name a global. -/
inductive GlobalOp where
  | globalGet | globalSet
  deriving DecidableEq

def GlobalOp.opcode : GlobalOp → UInt8
  | .globalGet => 0x23 | .globalSet => 0x24

/-- Calls of a reference, which name its signature. -/
inductive CallRefOp where
  | callRef | returnCallRef
  deriving DecidableEq

def CallRefOp.opcode : CallRefOp → UInt8
  | .callRef => 0x14 | .returnCallRef => 0x15

/-- Instructions on the size of memory 0. -/
inductive MemorySizeOp where
  | memorySize | memoryGrow
  deriving DecidableEq

def MemorySizeOp.opcode : MemorySizeOp → UInt8
  | .memorySize => 0x3f | .memoryGrow => 0x40

/-- Saturating truncations, behind `OP.misc_prefix`. -/
inductive TruncOp where
  | i32TruncSatF64S | i32TruncSatF64U | i64TruncSatF64S
  deriving DecidableEq

/-- The code behind the prefix. -/
def TruncOp.code : TruncOp → UInt8
  | .i32TruncSatF64S => 0x02 | .i32TruncSatF64U => 0x03 | .i64TruncSatF64S => 0x06

/-- Instructions behind `GC.prefix` without an immediate. -/
inductive GcOp where
  | anyConvertExtern | refI31 | i31GetS | externConvertAny | arrayLen
  deriving DecidableEq

def GcOp.code : GcOp → UInt8
  | .anyConvertExtern => 0x1a | .refI31 => 0x1c | .i31GetS => 0x1d | .externConvertAny => 0x1b
  | .arrayLen => 0x0f

/-- Instructions behind `GC.prefix` that name a type. -/
inductive GcTypedOp where
  | structNew | arrayNew | arrayNewDefault | arrayGet | arrayGetS | arrayGetU | arraySet
  | arrayFill
  deriving DecidableEq

def GcTypedOp.code : GcTypedOp → UInt8
  | .structNew => 0x00 | .arrayNew => 0x06 | .arrayNewDefault => 0x07 | .arrayGet => 0x0b
  | .arrayGetS => 0x0c | .arrayGetU => 0x0d | .arraySet => 0x0e | .arrayFill => 0x10

/-- Instructions behind `GC.prefix` that name a heap type. -/
inductive CastOp where
  | refCast | refCastNull | refTest
  deriving DecidableEq

def CastOp.code : CastOp → UInt8
  | .refCast => 0x16 | .refCastNull => 0x17 | .refTest => 0x14

/-- Instructions behind `OP.simd_prefix` without an immediate. -/
inductive SimdOp where
  | v128Not | v128And | v128Andnot | v128Or | v128Xor | v128Bitselect | v128AnyTrue | i8x16Splat
  | i8x16Eq | i8x16Ne | i8x16AllTrue | i8x16Bitmask | i8x16Swizzle | i8x16Add | i8x16Sub
  | i8x16MinU | i8x16MaxU | i16x8Splat | i16x8Eq | i16x8Ne | i16x8LtS | i16x8GtS | i16x8AllTrue
  | i16x8Bitmask | i16x8Add | i16x8Sub | i16x8Mul | i16x8Shl | i16x8ShrU | i32x4Splat | i32x4Eq
  | i32x4Ne | i32x4AllTrue | i32x4Bitmask | i32x4Add | i32x4Sub | i32x4Mul | i32x4Shl | i32x4ShrS
  | i32x4ShrU | i64x2Splat | i64x2Add | i64x2Sub | i64x2Mul | i64x2Eq | i64x2Ne | f32x4Splat
  | f32x4Eq | f32x4Add | f32x4Sub | f32x4Mul | f32x4Div | f64x2Splat | f64x2Eq | f64x2Ne
  | f64x2Add | f64x2Sub | f64x2Mul | f64x2Div
  deriving DecidableEq

def SimdOp.code : SimdOp → Nat
  | .v128Not => 0x4d | .v128And => 0x4e | .v128Andnot => 0x4f | .v128Or => 0x50
  | .v128Xor => 0x51 | .v128Bitselect => 0x52 | .v128AnyTrue => 0x53 | .i8x16Splat => 0x0f
  | .i8x16Eq => 0x23 | .i8x16Ne => 0x24 | .i8x16AllTrue => 0x63 | .i8x16Bitmask => 0x64
  | .i8x16Swizzle => 0x0e | .i8x16Add => 0x6e | .i8x16Sub => 0x71 | .i8x16MinU => 0x77
  | .i8x16MaxU => 0x79 | .i16x8Splat => 0x10 | .i16x8Eq => 0x2d | .i16x8Ne => 0x2e
  | .i16x8LtS => 0x2f | .i16x8GtS => 0x31 | .i16x8AllTrue => 0x83 | .i16x8Bitmask => 0x84
  | .i16x8Add => 0x8e | .i16x8Sub => 0x91 | .i16x8Mul => 0x95 | .i16x8Shl => 0x8b
  | .i16x8ShrU => 0x8d | .i32x4Splat => 0x11 | .i32x4Eq => 0x37 | .i32x4Ne => 0x38
  | .i32x4AllTrue => 0xa3 | .i32x4Bitmask => 0xa4 | .i32x4Add => 0xae | .i32x4Sub => 0xb1
  | .i32x4Mul => 0xb5 | .i32x4Shl => 0xab | .i32x4ShrS => 0xac | .i32x4ShrU => 0xad
  | .i64x2Splat => 0x12 | .i64x2Add => 0xce | .i64x2Sub => 0xd1 | .i64x2Mul => 0xd5
  | .i64x2Eq => 0xd6 | .i64x2Ne => 0xd7 | .f32x4Splat => 0x13 | .f32x4Eq => 0x41
  | .f32x4Add => 0xe4 | .f32x4Sub => 0xe5 | .f32x4Mul => 0xe6 | .f32x4Div => 0xe7
  | .f64x2Splat => 0x14 | .f64x2Eq => 0x47 | .f64x2Ne => 0x48 | .f64x2Add => 0xf0
  | .f64x2Sub => 0xf1 | .f64x2Mul => 0xf2 | .f64x2Div => 0xf3

/-- Instructions behind `OP.simd_prefix` that name a lane. -/
inductive SimdLaneOp where
  | i8x16ExtractLaneS | i8x16ExtractLaneU | i8x16ReplaceLane | i16x8ExtractLaneS
  | i16x8ExtractLaneU | i16x8ReplaceLane | i32x4ExtractLane | i32x4ReplaceLane | i64x2ExtractLane
  | i64x2ReplaceLane | f32x4ExtractLane | f32x4ReplaceLane | f64x2ExtractLane | f64x2ReplaceLane
  deriving DecidableEq

def SimdLaneOp.code : SimdLaneOp → Nat
  | .i8x16ExtractLaneS => 0x15 | .i8x16ExtractLaneU => 0x16 | .i8x16ReplaceLane => 0x17
  | .i16x8ExtractLaneS => 0x18 | .i16x8ExtractLaneU => 0x19 | .i16x8ReplaceLane => 0x1a
  | .i32x4ExtractLane => 0x1b | .i32x4ReplaceLane => 0x1c | .i64x2ExtractLane => 0x1d
  | .i64x2ReplaceLane => 0x1e | .f32x4ExtractLane => 0x1f | .f32x4ReplaceLane => 0x20
  | .f64x2ExtractLane => 0x21 | .f64x2ReplaceLane => 0x22

/-- Loads and stores behind `OP.simd_prefix`. -/
inductive SimdMemoryOp where
  | v128Load | v128Store | v128Load8Splat | v128Load16Splat | v128Load32Splat | v128Load64Splat
  | v128Load32Zero | v128Load64Zero
  deriving DecidableEq

def SimdMemoryOp.code : SimdMemoryOp → Nat
  | .v128Load => 0x00 | .v128Store => 0x0b | .v128Load8Splat => 0x07 | .v128Load16Splat => 0x08
  | .v128Load32Splat => 0x09 | .v128Load64Splat => 0x0a | .v128Load32Zero => 0x5c
  | .v128Load64Zero => 0x5d

/-! ### Bytes of the format -/

namespace OP

def block : UInt8 := 0x02
def loop : UInt8 := 0x03
def if_ : UInt8 := 0x04
def else_ : UInt8 := 0x05
def try_ : UInt8 := 0x06
def catch_ : UInt8 := 0x07
def throw : UInt8 := 0x08
def end_ : UInt8 := 0x0b
def br_table : UInt8 := 0x0e
def call_indirect : UInt8 := 0x11
def catch_all : UInt8 := 0x19
def try_table : UInt8 := 0x1f
def unreachable : UInt8 := 0x00
def i32_const : UInt8 := 0x41
def i64_const : UInt8 := 0x42
def f32_const : UInt8 := 0x43
def f64_const : UInt8 := 0x44
def ref_null : UInt8 := 0xd0
def misc_prefix : UInt8 := 0xfc
def simd_prefix : UInt8 := 0xfd

end OP

namespace GC

def prefix_ : UInt8 := 0xfb
def struct_get : UInt8 := 0x02
def struct_set : UInt8 := 0x05
def array_new_fixed : UInt8 := 0x08
def array_copy : UInt8 := 0x11

end GC

namespace SIMD

def v128_const : Nat := 0x0c
def i8x16_shuffle : Nat := 0x0d

end SIMD

namespace TYPE

def i32 : UInt8 := 0x7f
def i64 : UInt8 := 0x7e
def f32 : UInt8 := 0x7d
def f64 : UInt8 := 0x7c
def funcref : UInt8 := 0x70
def externref : UInt8 := 0x6f
def ref : UInt8 := 0x64
def ref_null : UInt8 := 0x63
def any : UInt8 := 0x6e
def eq : UInt8 := 0x6d
def v128 : UInt8 := 0x7b

end TYPE

/-- `SECTION.code`. -/
def SECTION.code : UInt8 := 10

/-! ## Instructions and their bytes -/

open Expansion SourceMap

/-- A byte of the module. -/
abbrev Byte := UInt8

/-! ### Types -/

open Physical (ValType TypeDef)

/-- The definition without its `sub` wrappers. -/
def unwrapTypeDef : TypeDef → TypeDef
  | .sub _ type => unwrapTypeDef type
  | type => type

/-- The type of a block. -/
inductive BlockType where
  | empty
  | val (type : ValType)
  | type (typeIdx : Int)
  deriving DecidableEq

/-! ### Instructions -/

/-- A clause of `try_table`; the tag can be missing. -/
inductive CatchClause where
  | catch_ (tagIdx : Option Int) (depth : Int)
  | catch_ref (tagIdx : Option Int) (depth : Int)
  | catch_all (depth : Int)
  | catch_all_ref (depth : Int)
  deriving DecidableEq

/-- What an instruction does; `ν` names the instruction arrays. -/
inductive Op (ν : Type) where
  | plain (op : PlainOp)
  | memory (op : MemoryOp) (align offset : Int)
  | jump (op : DepthOp) (depth : Int)
  | br_table (targets : List Int) (defaultDepth : Int)
  | func (op : FuncOp) (funcIdx : Int)
  | call_indirect (typeIdx tableIdx : Int)
  | callRef (op : CallRefOp) (typeIdx : Int)
  | local_ (op : LocalOp) (index : Int)
  | global (op : GlobalOp) (index : Int)
  | i32_const (value : Int)
  | i64_const (value : Int)
  | f64_const (bits : BitVec 64)
  | f32_const (bits : BitVec 32)
  | trunc (op : TruncOp)
  | ref_null (typeIdx : Int)
  | refNullExtern | refNullEq | refNullFunc
  | cast (op : CastOp) (typeIdx : Int)
  | gc (op : GcOp)
  | gcTyped (op : GcTypedOp) (typeIdx : Int)
  | struct_get (typeIdx fieldIdx : Int)
  | struct_set (typeIdx fieldIdx : Int)
  | array_new_fixed (typeIdx length : Int)
  | array_copy (dstTypeIdx srcTypeIdx : Int)
  | memorySize (op : MemorySizeOp)
  | memory_init (dataIdx : Int)
  | data_drop (dataIdx : Int)
  | memory_copy | memory_fill
  | throw (tagIdx : Int)
  | v128_const (bytes : List Byte)
  | simd (op : SimdOp)
  | simdLane (op : SimdLaneOp) (lane : Byte)
  | simdMemory (op : SimdMemoryOp) (align offset : Int)
  | i8x16_shuffle (lanes : List Byte)
  | block (blockType : BlockType) (body : ν)
  | loop (blockType : BlockType) (body : ν)
  | if_ (blockType : BlockType) (then_ : ν) (else_ : Option ν)
  | try_table (blockType : BlockType) (catches : List CatchClause) (body : ν)
  | try_ (blockType : BlockType) (body : ν) (catches : List (Int × ν)) (catchAll : Option ν)
  deriving DecidableEq

/-- An instruction and its source position. -/
structure Instr (ν : Type) where
  op : Op ν
  sourcePos : Option SourcePos := none
  deriving DecidableEq

/-! ### Checks -/

/-- What the encoder throws. -/
inductive CodegenError where
  /-- `failIndex`: the index space, the index, the bound and the place. -/
  | index (space : String) (value max : Int) (location : String)
  | u32OutOfRange (value : Int)
  | notASignature (typeIdx : Int)
  | missingTag (kind : String)
  | v128Length
  | packedStorage (kind : String)
  /-- A stable function handle without a recorded position. -/
  | unresolvedHandle (h : Int)
  deriving DecidableEq

/-- `EmitValidationCtx`: the sizes of the index spaces, the place that is being encoded, and
the number of locals, which is -1 when it is unknown. -/
structure EmitValidationCtx where
  numFuncs : Int
  numTypes : Int
  numGlobals : Int
  numTags : Int
  numTables : Int
  flatTypes : List TypeDef
  location : String
  maxLocals : Int

/-- `ModuleLayout`: how function handles become indices.  Handles of globals are indices. -/
structure ModuleLayout where
  numImportFuncs : Nat
  funcOrdinalToPosition : List (Option Nat)

/-- Function handles from here on are stable. -/
def STABLE_FUNC_BASE : Int := 2 ^ 21

/-- `fIdx`, resolved by `absoluteFuncIndexCached`. -/
def ModuleLayout.fIdx (layout : ModuleLayout) (h : Int) : Except CodegenError Int :=
  if h < STABLE_FUNC_BASE then .ok h
  else
    match layout.funcOrdinalToPosition[(h - STABLE_FUNC_BASE).toNat]? with
    | some (some pos) => .ok (layout.numImportFuncs + pos)
    | _ => .error (.unresolvedHandle h)

/-- What an encoder is told to do.  A mark stands for the instruction that begins. -/
abbrev Steps (ν : Type) := List (Step ν (Instr ν) Byte CodegenError)

variable {ν : Type}

/-- The index is in its space. -/
def vIdx (ctx : EmitValidationCtx) (space : String) (value max : Int) : Steps ν :=
  if value < 0 ∨ max ≤ value then [.fail (.index space value max ctx.location)] else []

/-- The heap type is declared. -/
def vHeapType (ctx : EmitValidationCtx) (value : Int) : Steps ν :=
  if ctx.numTypes ≤ value ∨ value < -64 ∨ value = -1 then
    [.fail (.index "heap type" value ctx.numTypes ctx.location)]
  else []

/-- The definition at a type index. -/
def resolveTypeDefAt (ctx : EmitValidationCtx) (typeIdx : Int) : Option TypeDef :=
  if typeIdx < 0 then none else ctx.flatTypes[typeIdx.toNat]?.map unwrapTypeDef

/-- The number of parameters of a signature, or -1. -/
def resolveParamCount (ctx : EmitValidationCtx) (typeIdx : Int) : Int :=
  match resolveTypeDefAt ctx typeIdx with
  | some (.func params _) => params.length
  | _ => -1

/-- The type is a function type. -/
def vSignature (ctx : EmitValidationCtx) (typeIdx : Int) : Steps ν :=
  vIdx ctx "type" typeIdx ctx.numTypes ++
    match resolveTypeDefAt ctx typeIdx with
    | some (.func _ _) => []
    | _ => [.fail (.notASignature typeIdx)]

/-- The type is a struct with the field. -/
def vStructField (ctx : EmitValidationCtx) (typeIdx fieldIdx : Int) (op : String) : Steps ν :=
  vIdx ctx "type" typeIdx ctx.numTypes ++
    match resolveTypeDefAt ctx typeIdx with
    | some (.struct fields _) =>
      let location := ctx.location ++ " (" ++ op ++ " on type " ++ toString typeIdx ++ ")"
      vIdx { ctx with location } "struct field" fieldIdx fields.length
    | _ => []

/-- `if (valCtx) …`. -/
def ifValidating (valCtx : Option EmitValidationCtx) (check : EmitValidationCtx → Steps ν) :
    Steps ν :=
  match valCtx with
  | some ctx => check ctx
  | none => []

/-! ### Writing -/

/-- One byte. -/
def byte (b : Byte) : Steps ν := [.write [b]]

/-- Unsigned LEB128 of a 32-bit value. -/
def encodeU32 (value : Int) : Except CodegenError (List Byte) :=
  if value < 0 ∨ 0xffffffff < value then .error (.u32OutOfRange value)
  else .ok (Leb128.encode value.toNat)

/-- Unsigned LEB128, as a step. -/
def u32 (value : Int) : Steps ν :=
  match encodeU32 value with
  | .ok bytes => [.write bytes]
  | .error e => [.fail e]

/-- Signed LEB128 of `value | 0`. -/
def i32 (value : Int) : Steps ν := [.write (Leb128.encodeSigned (value.bmod (2 ^ 32)))]

/-- Signed LEB128 of `BigInt.asIntN(64, value)`. -/
def i64 (value : Int) : Steps ν := [.write (Leb128.encodeSigned (value.bmod (2 ^ 64)))]

/-- The bytes of a word, least significant first. -/
def littleEndian (count : Nat) (word : Nat) : List Byte :=
  (List.range count).map fun i => (word / 256 ^ i % 256).toUInt8

/-- A 16-byte immediate. -/
def v128 (bytes : List Byte) : Steps ν :=
  if bytes.length ≠ 16 then [.fail .v128Length] else [.write bytes]

/-- The bytes of a value type. -/
def encodeValType (valCtx : Option EmitValidationCtx) : ValType → Steps ν
  | .i32 => byte TYPE.i32
  | .i64 => byte TYPE.i64
  | .f32 => byte TYPE.f32
  | .f64 => byte TYPE.f64
  | .v128 => byte TYPE.v128
  | .funcref => byte TYPE.funcref
  | .externref => byte TYPE.externref
  | ValType.ref_extern => byte TYPE.ref ++ byte TYPE.externref
  | .ref typeIdx =>
    ifValidating valCtx (vHeapType · typeIdx) ++ byte TYPE.ref ++ i32 typeIdx
  | .ref_null typeIdx =>
    ifValidating valCtx (vHeapType · typeIdx) ++ byte TYPE.ref_null ++ i32 typeIdx
  | .eqref => byte TYPE.ref_null ++ byte TYPE.eq
  | .anyref => byte TYPE.ref_null ++ byte TYPE.any
  | .i8 => [.fail (.packedStorage "i8")]
  | .i16 => [.fail (.packedStorage "i16")]

/-- The bytes of a block type. -/
def encodeBlockType (valCtx : Option EmitValidationCtx) : BlockType → Steps ν
  | .empty => byte 0x40
  | .val type => encodeValType valCtx type
  | .type typeIdx =>
    ifValidating valCtx (fun ctx => vIdx ctx "block type" typeIdx ctx.numTypes ++
      vSignature ctx typeIdx) ++ i32 typeIdx

/-- One clause of `try_table`. -/
def encodeCatchClause (valCtx : Option EmitValidationCtx) : CatchClause → Steps ν
  | .catch_ tagIdx depth => byte 0x00 ++ tag "catch" tagIdx ++ u32 depth
  | .catch_ref tagIdx depth => byte 0x01 ++ tag "catch_ref" tagIdx ++ u32 depth
  | .catch_all depth => byte 0x02 ++ u32 depth
  | .catch_all_ref depth => byte 0x03 ++ u32 depth
where
  tag (kind : String) : Option Int → Steps ν
    | none => [.fail (.missingTag kind)]
    | some tagIdx =>
      ifValidating valCtx (fun ctx => vIdx ctx "exception tag" tagIdx ctx.numTags) ++ u32 tagIdx

/-! ### Instructions -/

/-- The first byte of an instruction. -/
def Op.opcode : Op ν → Byte
  | .plain op => op.opcode
  | .memory op _ _ => op.opcode
  | .jump op _ => op.opcode
  | .br_table _ _ => OP.br_table
  | .func op _ => op.opcode
  | .call_indirect _ _ => OP.call_indirect
  | .callRef op _ => op.opcode
  | .local_ op _ => op.opcode
  | .global op _ => op.opcode
  | .i32_const _ => OP.i32_const
  | .i64_const _ => OP.i64_const
  | .f64_const _ => OP.f64_const
  | .f32_const _ => OP.f32_const
  | .trunc _ | .memory_init _ | .data_drop _ | .memory_copy | .memory_fill => OP.misc_prefix
  | .ref_null _ | .refNullExtern | .refNullEq | .refNullFunc => OP.ref_null
  | .cast _ _ | .gc _ | .gcTyped _ _ | .struct_get _ _ | .struct_set _ _
  | .array_new_fixed _ _ | .array_copy _ _ => GC.prefix_
  | .memorySize op => op.opcode
  | .throw _ => OP.throw
  | .v128_const _ | .simd _ | .simdLane _ _ | .simdMemory _ _ _ | .i8x16_shuffle _ =>
    OP.simd_prefix
  | .block _ _ => OP.block
  | .loop _ _ => OP.loop
  | .if_ _ _ _ => OP.if_
  | .try_table _ _ _ => OP.try_table
  | .try_ _ _ _ _ => OP.try_

section Encode

variable (arrays : ν → List (Instr ν)) (layout : ModuleLayout) (valCtx : Option EmitValidationCtx)

/-- `instr.else && instr.else.length > 0`. -/
def elseBody (else_ : Option ν) : Option ν :=
  else_.filter fun body => 0 < (arrays body).length

/-- `const target = fIdx(instr.funcIdx)` and what follows. -/
def withTarget (funcIdx : Int) (encode : Int → Steps ν) : Steps ν :=
  match layout.fIdx funcIdx with
  | .ok target => encode target
  | .error e => [.fail e]

/-- The bytes of an instruction. -/
def encodeInstr (instr : Instr ν) : Steps ν :=
  match instr.op with
  | .plain op => byte op.opcode
  | .memory op align offset => byte op.opcode ++ u32 align ++ u32 offset
  | .jump op depth => byte op.opcode ++ u32 depth
  | .br_table targets defaultDepth =>
    byte OP.br_table ++ u32 targets.length ++ targets.flatMap u32 ++ u32 defaultDepth
  | .func op funcIdx => withTarget layout funcIdx fun target =>
    ifValidating valCtx (fun ctx => vIdx ctx "function" target ctx.numFuncs) ++
      byte op.opcode ++ u32 target
  | .call_indirect typeIdx tableIdx =>
    ifValidating valCtx (fun ctx => vSignature ctx typeIdx ++
      vIdx ctx "table" tableIdx ctx.numTables) ++
      byte OP.call_indirect ++ u32 typeIdx ++ u32 tableIdx
  | .callRef op typeIdx =>
    ifValidating valCtx (vSignature · typeIdx) ++ byte op.opcode ++ u32 typeIdx
  | .local_ op index =>
    ifValidating valCtx (fun ctx =>
      if 0 ≤ ctx.maxLocals then vIdx ctx ("local (" ++ op.name ++ ")") index ctx.maxLocals
      else []) ++ byte op.opcode ++ u32 index
  | .global op index =>
    ifValidating valCtx (fun ctx => vIdx ctx "global" index ctx.numGlobals) ++
      byte op.opcode ++ u32 index
  | .i32_const value => byte OP.i32_const ++ i32 value
  | .i64_const value => byte OP.i64_const ++ i64 value
  | .f64_const bits => byte OP.f64_const ++ [.write (littleEndian 8 bits.toNat)]
  | .f32_const bits => byte OP.f32_const ++ [.write (littleEndian 4 bits.toNat)]
  | .trunc op => byte OP.misc_prefix ++ byte op.code
  | .ref_null typeIdx =>
    ifValidating valCtx (vHeapType · typeIdx) ++ byte OP.ref_null ++ i32 typeIdx
  | .refNullExtern => byte OP.ref_null ++ byte TYPE.externref
  | .refNullEq => byte OP.ref_null ++ byte TYPE.eq
  | .refNullFunc => byte OP.ref_null ++ byte TYPE.funcref
  | .cast op typeIdx =>
    ifValidating valCtx (vHeapType · typeIdx) ++ byte GC.prefix_ ++ byte op.code ++ i32 typeIdx
  | .gc op => byte GC.prefix_ ++ byte op.code
  | .gcTyped op typeIdx =>
    ifValidating valCtx (fun ctx => vIdx ctx "type" typeIdx ctx.numTypes) ++
      byte GC.prefix_ ++ byte op.code ++ u32 typeIdx
  | .struct_get typeIdx fieldIdx =>
    ifValidating valCtx (vStructField · typeIdx fieldIdx "struct.get") ++
      byte GC.prefix_ ++ byte GC.struct_get ++ u32 typeIdx ++ u32 fieldIdx
  | .struct_set typeIdx fieldIdx =>
    ifValidating valCtx (vStructField · typeIdx fieldIdx "struct.set") ++
      byte GC.prefix_ ++ byte GC.struct_set ++ u32 typeIdx ++ u32 fieldIdx
  | .array_new_fixed typeIdx length =>
    ifValidating valCtx (fun ctx => vIdx ctx "type" typeIdx ctx.numTypes) ++
      byte GC.prefix_ ++ byte GC.array_new_fixed ++ u32 typeIdx ++ u32 length
  | .array_copy dstTypeIdx srcTypeIdx =>
    ifValidating valCtx (fun ctx => vIdx ctx "type" dstTypeIdx ctx.numTypes ++
      vIdx ctx "type" srcTypeIdx ctx.numTypes) ++
      byte GC.prefix_ ++ byte GC.array_copy ++ u32 dstTypeIdx ++ u32 srcTypeIdx
  | .memorySize op => byte op.opcode ++ byte 0x00
  | .memory_init dataIdx => byte OP.misc_prefix ++ u32 0x08 ++ u32 dataIdx ++ byte 0x00
  | .data_drop dataIdx => byte OP.misc_prefix ++ u32 0x09 ++ u32 dataIdx
  | .memory_copy => byte OP.misc_prefix ++ u32 0x0a ++ byte 0x00 ++ byte 0x00
  | .memory_fill => byte OP.misc_prefix ++ u32 0x0b ++ byte 0x00
  | .throw tagIdx =>
    ifValidating valCtx (fun ctx => vIdx ctx "exception tag" tagIdx ctx.numTags) ++
      byte OP.throw ++ u32 tagIdx
  | .v128_const bytes => byte OP.simd_prefix ++ u32 SIMD.v128_const ++ v128 bytes
  | .simd op => byte OP.simd_prefix ++ u32 op.code
  | .simdLane op lane => byte OP.simd_prefix ++ u32 op.code ++ byte lane
  | .simdMemory op align offset =>
    byte OP.simd_prefix ++ u32 op.code ++ u32 align ++ u32 offset
  | .i8x16_shuffle lanes =>
    byte OP.simd_prefix ++ u32 SIMD.i8x16_shuffle ++ lanes.flatMap byte
  | .block blockType body =>
    byte OP.block ++ encodeBlockType valCtx blockType ++ [.refer body] ++ byte OP.end_
  | .loop blockType body =>
    byte OP.loop ++ encodeBlockType valCtx blockType ++ [.refer body] ++ byte OP.end_
  | .if_ blockType then_ else_ =>
    byte OP.if_ ++ encodeBlockType valCtx blockType ++ [.refer then_] ++
      (match elseBody arrays else_, blockType with
        | some body, _ => byte OP.else_ ++ [.refer body]
        -- A valued `if` without `else` gets an arm that satisfies the validator.
        | none, .val _ => byte OP.else_ ++ byte OP.unreachable
        | none, _ => []) ++
      byte OP.end_
  | .try_table blockType catches body =>
    byte OP.try_table ++ encodeBlockType valCtx blockType ++ u32 catches.length ++
      catches.flatMap (encodeCatchClause valCtx) ++ [.refer body] ++ byte OP.end_
  | .try_ blockType body catches catchAll =>
    byte OP.try_ ++ encodeBlockType valCtx blockType ++ [.refer body] ++
      catches.flatMap (fun c =>
        ifValidating valCtx (fun ctx => vIdx ctx "exception tag" c.1 ctx.numTags) ++
          byte OP.catch_ ++ u32 c.1 ++ [.refer c.2]) ++
      (match catchAll with
        | some body => byte OP.catch_all ++ [.refer body]
        | none => []) ++
      byte OP.end_

/-- `encodeInstrWithSourceMap`: the recorder is told of the instruction immediately before its
opcode. -/
def encodeInstrWithSourceMap (instr : Instr ν) : Steps ν :=
  .mark instr :: encodeInstr arrays layout valCtx instr

/-- The arrays inside an instruction, as `makeInstrArrayEmitCache` visits them. -/
def Op.children : Op ν → List ν
  | .block _ body | .loop _ body | .try_table _ _ body => [body]
  | .if_ _ then_ else_ => then_ :: (elseBody arrays else_).toList
  | .try_ _ body catches catchAll => body :: (catches.map Prod.snd ++ catchAll.toList)
  | _ => []

end Encode

end Js2Wasm.Binary
