import Mathlib.Data.Nat.Bitwise

/-! # Opcodes and packed words

The opcode table of the bytecode interpreter and its packing of an opcode and two
12-bit fields into one word (`interp/opcodes.ts`).

A word of the stream is an integer: the bit operations of the decoders look at its low
32 bits, which floor division and remainder give for every integer.

The writer of the instruction stream (`interp/encoder.ts`, `Encoder`), the reference
decoder (`interp/disasm.ts`, `decodeInstr`) and the decoding done by the dispatch loop
(`interp/loop.ts`, `dispatchNext`).

A word read outside the stream is `none`, the `undefined` of the source.
-/
namespace Js2Wasm.Interp

/-! ### Opcodes -/

namespace Op

def LdaConst : Nat := 0
def LdaUndef : Nat := 1
def LdaZero : Nat := 5
def Star : Nat := 6
def Ldar : Nat := 7
def Add : Nat := 9
def StrictEq : Nat := 18
def Lt : Nat := 19
def Le : Nat := 20
def GetProp : Nat := 21
def GetElem : Nat := 22
def LdName : Nat := 27
def StName : Nat := 28
def Call : Nat := 29
def CallBuiltin : Nat := 31
def Jump : Nat := 32
def JumpIfTrue : Nat := 33
def JumpIfFalse : Nat := 34
def Return : Nat := 35
def Throw : Nat := 36
def Gt : Nat := 37
def Ge : Nat := 38
def InitName : Nat := 39
def DeleteProp : Nat := 40
def DeleteElem : Nat := 41
def DeleteName : Nat := 42
def Shl : Nat := 43
def Shr : Nat := 44
def BitOr : Nat := 45
def BitAnd : Nat := 46
def BitXor : Nat := 47
def ShrU : Nat := 48

end Op

def BUILTIN_PUSH_LEXICAL_ENV : Nat := 17
def BUILTIN_SAVE_ENV : Nat := 18
def BUILTIN_RESTORE_ENV : Nat := 19
def BUILTIN_ASSIGN_OUTER_NAME : Nat := 20
def BUILTIN_FOR_IN_KEYS : Nat := 24
def BUILTIN_FOR_OF_VALUES : Nat := 25
def BUILTIN_PUSH_OBJECT_ENV : Nat := 27

/-- How the fields of the base word and the trailing words are used. -/
inductive OperandForm where
  | None | RegA | RegAB | ConstA | ConstAregB | Target | RegAcountB | Builtin
  deriving DecidableEq

/-- The name of an opcode and the form of its operands. -/
structure OpInfo where
  name : String
  form : OperandForm
  deriving DecidableEq

/-- Indexed by opcode number. -/
def OP_INFO : List OpInfo := [
    ⟨"LdaConst", .ConstA⟩, ⟨"LdaUndef", .None⟩, ⟨"LdaNull", .None⟩, ⟨"LdaTrue", .None⟩,
    ⟨"LdaFalse", .None⟩, ⟨"LdaZero", .None⟩, ⟨"Star", .RegA⟩, ⟨"Ldar", .RegA⟩, ⟨"Mov", .RegAB⟩,
    ⟨"Add", .RegA⟩, ⟨"Sub", .RegA⟩, ⟨"Mul", .RegA⟩, ⟨"Div", .RegA⟩, ⟨"Mod", .RegA⟩,
    ⟨"Neg", .None⟩, ⟨"Not", .None⟩, ⟨"TypeOf", .None⟩, ⟨"Eq", .RegA⟩, ⟨"StrictEq", .RegA⟩,
    ⟨"Lt", .RegA⟩, ⟨"Le", .RegA⟩, ⟨"GetProp", .ConstA⟩, ⟨"GetElem", .RegA⟩,
    ⟨"SetProp", .ConstAregB⟩, ⟨"SetElem", .RegAB⟩, ⟨"LdGlobal", .ConstA⟩, ⟨"StGlobal", .ConstA⟩,
    ⟨"LdName", .ConstA⟩, ⟨"StName", .ConstA⟩, ⟨"Call", .RegAcountB⟩, ⟨"Construct", .RegAcountB⟩,
    ⟨"CallBuiltin", .Builtin⟩, ⟨"Jump", .Target⟩, ⟨"JumpIfTrue", .Target⟩,
    ⟨"JumpIfFalse", .Target⟩, ⟨"Return", .None⟩, ⟨"Throw", .None⟩, ⟨"Gt", .RegA⟩, ⟨"Ge", .RegA⟩,
    ⟨"InitName", .ConstA⟩, ⟨"DeleteProp", .ConstA⟩, ⟨"DeleteElem", .RegA⟩,
    ⟨"DeleteName", .ConstA⟩, ⟨"Shl", .RegA⟩, ⟨"Shr", .RegA⟩, ⟨"BitOr", .RegA⟩, ⟨"BitAnd", .RegA⟩,
    ⟨"BitXor", .RegA⟩, ⟨"ShrU", .RegA⟩]

/-! ### Packing -/

/-- Set where the operand is the next word. -/
def WIDE_FLAG : Nat := 0x80
def OPERAND_MASK : Nat := 0xfff
def A_SHIFT : Nat := 8
def B_SHIFT : Nat := 20

/-- Pack a base instruction word from an opcode and two 12-bit operands. -/
def packWord (op a b : Nat) : Nat := (op ||| a <<< A_SHIFT ||| b <<< B_SHIFT) % 2 ^ 32

/-- Does an operand value fit in the packed 12-bit field? -/
def fitsOperand (v : Nat) : Bool := v ≤ OPERAND_MASK

/-- `word & OP_MASK`. -/
def wordOp (word : Int) : Nat := (word % 128).toNat

/-- `(word & WIDE_FLAG) !== 0`. -/
def wordWide (word : Int) : Bool := word / 128 % 2 = 1

/-- `(word >>> 8) & 0xfff`. -/
def wordA (word : Int) : Nat := (word / 256 % 4096).toNat

/-- `(word >>> 20) & 0xfff`. -/
def wordB (word : Int) : Nat := (word / 1048576 % 4096).toNat

section Pack

variable {op a b : Nat}

theorem packWord_eq (hop : op < 256) (ha : a < 4096) (hb : b < 4096) :
    packWord op a b = op + a * 256 + b * 1048576 := by
  have hlow : op ||| a <<< 8 = op + a * 256 := by
    rw [Nat.lor_comm, ← Nat.shiftLeft_add_eq_or_of_lt (by simpa using hop), Nat.shiftLeft_eq]
    lia
  have hhigh : (op + a * 256) ||| b <<< 20 = op + a * 256 + b * 1048576 := by
    rw [Nat.lor_comm, ← Nat.shiftLeft_add_eq_or_of_lt (by lia), Nat.shiftLeft_eq]
    lia
  rw [packWord, A_SHIFT, B_SHIFT, hlow, hhigh]
  lia

theorem wide_or (hop : op < 128) : op ||| WIDE_FLAG = op + 128 := by
  have h := Nat.shiftLeft_add_eq_or_of_lt (i := 7) (b := op) (by simpa using hop) 1
  rw [Nat.lor_comm, WIDE_FLAG]
  change 1 <<< 7 ||| op = op + 128
  rw [← h, Nat.shiftLeft_eq]
  lia

/-- The fields of a packed word. -/
theorem word_packWord (hop : op < 128) (ha : a < 4096) (hb : b < 4096) :
    wordOp (packWord op a b) = op ∧ wordWide (packWord op a b) = false ∧
      wordA (packWord op a b) = a ∧ wordB (packWord op a b) = b := by
  rw [packWord_eq (by omega) ha hb]
  simp only [wordOp, wordWide, wordA, wordB, decide_eq_false_iff_not]
  omega

/-- The fields of a packed word with the WIDE flag. -/
theorem word_packWord_wide (hop : op < 128) (ha : a < 4096) (hb : b < 4096) :
    wordOp (packWord (op ||| WIDE_FLAG) a b) = op ∧
      wordWide (packWord (op ||| WIDE_FLAG) a b) = true ∧
      wordA (packWord (op ||| WIDE_FLAG) a b) = a ∧
      wordB (packWord (op ||| WIDE_FLAG) a b) = b := by
  rw [wide_or hop, packWord_eq (by omega) ha hb]
  simp only [wordOp, wordWide, wordA, wordB, decide_eq_true_eq]
  omega

end Pack

/-! ## The bytecode encoder and its decoders -/

/-! ### The encoder -/

/-- The bytecode writer for one function or script body: its stream of words. -/
structure Encoder where
  code : List Int
  deriving DecidableEq

/-- Throw where the value does not fit in the 12-bit field. -/
def assertOperand (v : Nat) (what : String) : Except String Unit :=
  if v ≤ OPERAND_MASK then .ok ()
  else .error s!"interp/encoder: {what} {v} exceeds the 12-bit packed operand field (0..{OPERAND_MASK})"

namespace Encoder

/-- The index of the next word to be emitted. -/
def here (enc : Encoder) : Nat := enc.code.length

/-- Append words. -/
def push (enc : Encoder) (words : List Int) : Encoder := ⟨enc.code ++ words⟩

def emit0 (enc : Encoder) (op : Nat) : Except String Encoder :=
  .ok (enc.push [packWord op 0 0])

def emitReg (enc : Encoder) (op r : Nat) : Except String Encoder := do
  assertOperand r "register"
  return enc.push [packWord op r 0]

/-- Both operands are registers. -/
def emitRegReg (enc : Encoder) (op a b : Nat) : Except String Encoder := do
  assertOperand a "register"
  assertOperand b "register"
  return enc.push [packWord op a b]

/-- The index of a constant, in the next word where it does not fit. -/
def emitConst (enc : Encoder) (op cIdx : Nat) : Except String Encoder :=
  if fitsOperand cIdx then .ok (enc.push [packWord op cIdx 0])
  else .ok (enc.push [packWord (op ||| WIDE_FLAG) 0 0, cIdx])

def emitConstReg (enc : Encoder) (op cIdx r : Nat) : Except String Encoder := do
  assertOperand r "register"
  if fitsOperand cIdx then return enc.push [packWord op cIdx r]
  else return enc.push [packWord (op ||| WIDE_FLAG) 0 r, cIdx]

/-- The base register and the number of arguments. -/
def emitCall (enc : Encoder) (op rBase argc : Nat) : Except String Encoder := do
  assertOperand rBase "register base"
  assertOperand argc "argc"
  return enc.push [packWord op rBase argc]

/-- The number of arguments is the next word. -/
def emitCallBuiltin (enc : Encoder) (builtinId rBase argc : Nat) : Except String Encoder := do
  assertOperand builtinId "builtin id"
  assertOperand rBase "register base"
  return enc.push [packWord Op.CallBuiltin builtinId rBase, argc]

/-- Returns the slot to `patch` too. -/
def emitJump (enc : Encoder) (op : Nat) : Encoder × Nat :=
  (enc.push [packWord (op ||| WIDE_FLAG) 0 0, 0], enc.code.length + 1)

/-- The target is the next word. -/
def emitJumpTo (enc : Encoder) (op : Nat) (target : Int) : Encoder :=
  enc.push [packWord (op ||| WIDE_FLAG) 0 0, target]

/-- A jump to a marker that `patchTargetMarker` replaces. -/
def emitJumpMarker (enc : Encoder) (op : Nat) (marker : Int) : Encoder :=
  enc.push [packWord (op ||| WIDE_FLAG) 0 0, marker]

/-- Set the word in a slot. -/
def patch (enc : Encoder) (slot : Nat) (target : Int) : Encoder := ⟨enc.code.set slot target⟩

/-- Replace the marker wherever it stands. -/
def patchTargetMarker (enc : Encoder) (marker target : Int) : Encoder :=
  ⟨enc.code.map fun word => if word = marker then target else word⟩

end Encoder

/-- A call of the encoder. -/
inductive EncoderCall where
  | emit0 (op : Nat)
  | emitReg (op r : Nat)
  | emitRegReg (op a b : Nat)
  | emitConst (op cIdx : Nat)
  | emitConstReg (op cIdx r : Nat)
  | emitCall (op rBase argc : Nat)
  | emitCallBuiltin (builtinId rBase argc : Nat)
  | emitJump (op : Nat)
  | emitJumpTo (op : Nat) (target : Int)
  | emitJumpMarker (op : Nat) (marker : Int)
  | patch (slot : Nat) (target : Int)
  | patchTargetMarker (marker target : Int)
  deriving DecidableEq

/-- Make the call. -/
def EncoderCall.run (enc : Encoder) : EncoderCall → Except String Encoder
  | .emit0 op => enc.emit0 op
  | .emitReg op r => enc.emitReg op r
  | .emitRegReg op a b => enc.emitRegReg op a b
  | .emitConst op cIdx => enc.emitConst op cIdx
  | .emitConstReg op cIdx r => enc.emitConstReg op cIdx r
  | .emitCall op rBase argc => enc.emitCall op rBase argc
  | .emitCallBuiltin builtinId rBase argc => enc.emitCallBuiltin builtinId rBase argc
  | .emitJump op => .ok (enc.emitJump op).1
  | .emitJumpTo op target => .ok (enc.emitJumpTo op target)
  | .emitJumpMarker op marker => .ok (enc.emitJumpMarker op marker)
  | .patch slot target => .ok (enc.patch slot target)
  | .patchTargetMarker marker target => .ok (enc.patchTargetMarker marker target)

/-- A sequence of calls. -/
def runCalls : Encoder → List EncoderCall → Except String Encoder
  | enc, [] => .ok enc
  | enc, call :: calls => do runCalls (← call.run enc) calls

/-! ### The reference decoder -/

/-- One decoded instruction: its opcode, operands, and the index just after it. -/
structure DecodedInstr where
  pc : Nat
  op : Nat
  name : String
  form : Option OperandForm
  a : Option Int
  b : Int
  argc : Option Int
  next : Nat
  deriving DecidableEq

/-- Decode the single instruction at `pc`. -/
def decodeInstr (code : List Int) (pc : Nat) : DecodedInstr :=
  let word := code[pc]?.getD 0
  let op := wordOp word
  let wide := wordWide word
  let packedA : Int := wordA word
  let packedB : Int := wordB word
  let next := pc + 1
  match OP_INFO[op]? with
  | none => ⟨pc, op, s!"?op{op}", none, some packedA, packedB, some (-1), next⟩
  | some info =>
    let decoded (a : Option Int) (b : Int) (argc : Option Int) (next : Nat) : DecodedInstr :=
      ⟨pc, op, info.name, some info.form, a, b, argc, next⟩
    match info.form with
    | .None => decoded (some packedA) (-1) (some (-1)) next
    | .RegA | .ConstA =>
      if wide then decoded code[next]? (-1) (some (-1)) (next + 1)
      else decoded (some packedA) (-1) (some (-1)) next
    | .RegAB | .RegAcountB => decoded (some packedA) packedB (some (-1)) next
    | .ConstAregB =>
      if wide then decoded code[next]? packedB (some (-1)) (next + 1)
      else decoded (some packedA) packedB (some (-1)) next
    | .Target => decoded code[next]? (-1) (some (-1)) (next + 1)
    | .Builtin => decoded (some packedA) packedB code[next]? (next + 1)

/-- Decode one instruction after the other, from `pc` to the end; every instruction takes at
least one word, so that as many rounds as words are enough. -/
def decodeFrom (code : List Int) : Nat → Nat → List DecodedInstr × Nat
  | 0, pc => ([], pc)
  | rounds + 1, pc =>
    if code.length ≤ pc then ([], pc)
    else
      let d := decodeInstr code pc
      let (rest, last) := decodeFrom code rounds d.next
      (d :: rest, last)

/-- Decode the whole stream, with the index where decoding ends. -/
def decodeAll (code : List Int) : List DecodedInstr × Nat := decodeFrom code code.length 0

/-! ### The dispatch loop -/

/-- The functions among which `dispatchNext` chooses. -/
inductive DispatchGroup where
  | valueAndOperator | propertyAndEnvironment | call | control
  deriving DecidableEq

/-- What the dispatch loop hands to an instruction, and the index at which it then stands. -/
structure Dispatched where
  group : DispatchGroup
  op : Nat
  a : Option Int
  b : Int
  argc : Option Int
  pc : Nat
  deriving DecidableEq

/-- The choice that `dispatchNext` makes. -/
def dispatchGroup (op : Nat) : Option DispatchGroup :=
  if op ≤ Op.Le ∨ op = Op.Gt ∨ op = Op.Ge ∨ op = Op.Shl ∨ op = Op.Shr ∨ op = Op.BitOr ∨
      op = Op.BitAnd ∨ op = Op.BitXor ∨ op = Op.ShrU then
    some .valueAndOperator
  else if (Op.GetProp ≤ op ∧ op ≤ Op.StName) ∨ op = Op.InitName ∨ op = Op.DeleteProp ∨
      op = Op.DeleteElem ∨ op = Op.DeleteName then
    some .propertyAndEnvironment
  else if Op.Call ≤ op ∧ op ≤ Op.CallBuiltin then some .call
  else if Op.Jump ≤ op ∧ op ≤ Op.Throw then some .control
  else none

/-- The decoding of `dispatchNext`, with the argument count that the CallBuiltin arm reads. -/
def dispatchNext (code : List Int) (pc : Nat) : Except String Dispatched :=
  let word := code[pc]?.getD 0
  let op := wordOp word
  let b : Int := wordB word
  let (a, next) : Option Int × Nat :=
    if wordWide word then (code[pc + 1]?, pc + 2) else (some (wordA word : Int), pc + 1)
  match dispatchGroup op with
  | none => .error s!"unknown opcode {op} at pc {pc}"
  | some group =>
    if op = Op.CallBuiltin then .ok ⟨group, op, a, b, code[next]?, next + 1⟩
    else .ok ⟨group, op, a, b, some (-1), next⟩

end Js2Wasm.Interp
