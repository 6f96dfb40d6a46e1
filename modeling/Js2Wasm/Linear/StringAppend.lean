import Js2Wasm.Lib.Allocator

/-! # The producers of string records and the owned append

    [header][payload size:u32 at +4][byte length:u32 at +8][bytes at +12]

A producer asks `__malloc` for 12 bytes more than the text has.  The payload size counts the
bytes from +8 on, the length word and the room for the text, and is what
`__linear_ir_str_append_ascii` takes the capacity of its left operand from: while the text
fits it appends in place, else it moves the text to a block of twice the capacity. -/

namespace Js2Wasm.Linear

open WordMemory

/-- `LINEAR_STRING_PAYLOAD_SIZE_OFFSET` -/
def stringPayloadSizeOffset : Nat := 4

/-- `LINEAR_STRING_PAYLOAD_PREFIX_BYTES`, the length word -/
def stringPayloadPrefixBytes : Nat := 4

/-- A loop that stores the bytes from `i` on, `n` of them. -/
def copyBytes (dst src : Nat → Nat) : Nat → Nat → Memory → Memory
  | 0, _, m => m
  | n + 1, i, m => copyBytes dst src n (add32 i 1) (store8 m (dst i) (m (src i)).toNat)

/-- `linearStringSliceBoundInstrs` -/
def sliceBound (bound len : Nat) : Nat :=
  if signed32 bound < 0 then
    let magnitude := sub32 0 bound
    if len ≤ magnitude then 0 else sub32 len magnitude
  else if len < bound then len else bound

section
variable {σ : Type} (M : Malloc σ) (m : Memory) (h : σ)

/-- The call of `__malloc`. -/
def malloc (size : Nat) : Except Halt (Nat × Memory × σ) :=
  match M.alloc m h size with
  | none => .error .outOfMemory
  | some granted => .ok granted

/-- `__str_from_data` -/
def strFromData (offset len : Nat) : Except Halt (Nat × Memory × σ) := do
  let (ptr, m, h) ← malloc M m h (add32 12 len)
  let m := store32 m (ptr + stringPayloadSizeOffset) (add32 len stringPayloadPrefixBytes)
  let m := store32 m (ptr + 8) len
  return (ptr, copyBytes (fun i => add32 ptr i + 12) (fun i => add32 offset i) len 0 m, h)

/-- `__str_concat` -/
def strConcat (a b : Nat) : Except Halt (Nat × Memory × σ) := do
  let lenA := load32 m (a + 8)
  let lenB := load32 m (b + 8)
  let (ptr, m, h) ← malloc M m h (add32 (add32 12 lenA) lenB)
  let m := store32 m (ptr + stringPayloadSizeOffset)
    (add32 (add32 lenA lenB) stringPayloadPrefixBytes)
  let m := store32 m (ptr + 8) (add32 lenA lenB)
  let m := copyBytes (fun i => add32 ptr i + 12) (fun i => add32 a i + 12) lenA 0 m
  let m := copyBytes (fun i => add32 (add32 ptr lenA) i + 12) (fun i => add32 b i + 12) lenB 0 m
  return (ptr, m, h)

/-- `__str_slice` -/
def strSlice (str start stop : Nat) : Except Halt (Nat × Memory × σ) := do
  let byteLength := load32 m (str + 8)
  let start := sliceBound start byteLength
  let stop := sliceBound stop byteLength
  let newLen := if start < stop then sub32 stop start else 0
  let (ptr, m, h) ← malloc M m h (add32 12 newLen)
  let m := store32 m (ptr + stringPayloadSizeOffset) (add32 newLen stringPayloadPrefixBytes)
  let m := store32 m (ptr + 8) newLen
  let src := fun i => add32 (add32 str start) i + 12
  return (ptr, copyBytes (fun i => add32 ptr i + 12) src newLen 0 m, h)

/-- `__str_from_u8arr`: the tag of an array and the length, but no payload size. -/
def strFromU8arr (u8arr : Nat) : Except Halt (Nat × Memory × σ) := do
  let len := load32 m (u8arr + 8)
  let (ptr, m, h) ← malloc M m h (add32 12 len)
  let m := store8 m ptr 0x02
  let m := store32 m (ptr + 8) len
  return (ptr, copyBytes (fun i => add32 ptr i + 12) (fun i => add32 u8arr i + 12) len 0 m, h)

/-- The capacity `__linear_ir_str_append_ascii` reads off a record. -/
def appendCapacity (l : Nat) : Nat :=
  sub32 (load32 m (l + stringPayloadSizeOffset)) stringPayloadPrefixBytes

/-- The capacity it grows to. -/
def nextCapacity (capacity totalLength : Nat) : Nat :=
  let next := shl32 capacity 1
  let next := if next < 16 then 16 else next
  if next < totalLength then totalLength else next

/-- The growth of `__linear_ir_str_append_ascii`: the record that takes the text. -/
def appendCarrier (l leftLength totalLength : Nat) : Except Halt (Nat × Memory × σ) := do
  let capacity := appendCapacity m l
  if capacity < totalLength then
    let next := nextCapacity capacity totalLength
    let (result, m, h) ← malloc M m h (add32 12 next)
    let m := store32 m (result + stringPayloadSizeOffset) (add32 next stringPayloadPrefixBytes)
    let dst := fun i => add32 result i + 12
    return (result, copyBytes dst (fun i => add32 l i + 12) leftLength 0 m, h)
  else return (l, m, h)

/-- `__linear_ir_str_append_ascii` -/
def strAppendAscii (l r : Nat) : Except Halt (Nat × Memory × σ) := do
  let leftLength := load32 m (l + 8)
  let rightLength := load32 m (r + 8)
  let totalLength := add32 leftLength rightLength
  let (result, m, h) ← appendCarrier M m h l leftLength totalLength
  let dst := fun i => add32 (add32 result leftLength) i + 12
  let m := copyBytes dst (fun i => add32 r i + 12) rightLength 0 m
  return (result, store32 m (result + 8) totalLength, h)

end

end Js2Wasm.Linear
