import Js2Wasm.Lib.WordMemory

/-! # The linear-memory allocator

The functions that `codegen-linear/heap-allocator.ts` emits: boundary-tag blocks, 48
segregated free lists and regions from a source.  Every function is written as its
body computes, in 32-bit arithmetic on a byte memory.  A function that can trap or
fail to return gives `none` there.

The region source is a parameter (`RegionSource`): the imported host allocator in
linked mode, `memory.grow` otherwise.  It may depend on everything granted so far and
may write memory of its own.
-/
namespace Js2Wasm.Heap
open WordMemory

/-! ### Constants -/

/-- Bytes of block header. -/
def HDR : Nat := 4

/-- Smallest block: header, next, prev and footer. -/
def MIN_BLOCK : Nat := 16

/-- Header bit 0: this block is allocated. -/
def INUSE : Nat := 1

/-- Header bit 1: the physically preceding block is allocated. -/
def PINUSE : Nat := 2

/-- `-8` as an unsigned word. -/
def SIZE_MASK : Nat := 0xfffffff8
def NSMALL : Nat := 32
def NLARGE : Nat := 16
def NBINS : Nat := NSMALL + NLARGE
def SMALL_MAX : Nat := MIN_BLOCK + 8 * (NSMALL - 1)
def CTL_BINS : Nat := 0
def CTL_NEXT_REGION : Nat := CTL_BINS + NBINS * 4
def CTL_TOTAL_BYTES : Nat := CTL_NEXT_REGION + 4
def CTL_REGION_COUNT : Nat := CTL_TOTAL_BYTES + 4
def CTL_HIST : Nat := 208
def HIST_BUCKETS : Nat := 16
def CTL_BYTES : Nat := CTL_HIST + HIST_BUCKETS * 4
def MAX_REGION_BYTES : Nat := 8 * 1024 * 1024

/-- The largest request; anything above it is a failure. -/
def MAX_REQUEST : Nat := 0x7ffffff0

/-! ### State -/

/-- A region: its first byte and its length. -/
abbrev Grant := Nat × Nat

/-- Where regions come from: the pointer it answers a request with, 0 for a refusal,
and what it does to memory meanwhile.  Both may depend on the regions granted so far. -/
structure RegionSource where
  answer : List Grant → Nat → Nat
  effect : List Grant → Nat → Memory → Memory

structure HeapState where
  mem : Memory
  /-- `__heap_ctl`: the control block's address, 0 before the first region. -/
  ctl : Nat
  nAlloc : Nat
  nFree : Nat
  nRealloc : Nat
  nCalloc : Nat
  /-- The regions granted so far; no function reads it. -/
  granted : List Grant

namespace HeapState

def load (h : HeapState) (a : Nat) : Nat := load32 h.mem a
def store (h : HeapState) (a v : Nat) : HeapState := { h with mem := store32 h.mem a v }

/-- The size in a block's header. -/
def sizeAt (h : HeapState) (b : Nat) : Nat := h.load b &&& SIZE_MASK

@[simp] theorem store_mem (h : HeapState) (a v : Nat) : (h.store a v).mem = store32 h.mem a v := rfl
@[simp] theorem store_ctl (h : HeapState) (a v : Nat) : (h.store a v).ctl = h.ctl := rfl
@[simp] theorem store_granted (h : HeapState) (a v : Nat) : (h.store a v).granted = h.granted := rfl

end HeapState

/-! ### Free lists -/

/-- The free list a block of a size belongs in. -/
def heapBin (size : Nat) : Nat :=
  if size ≤ SMALL_MAX then sub32 (size >>> 3) (MIN_BLOCK / 8)
  else
    let t := sub32 (sub32 31 (clz32 size)) 8
    add32 (if signed32 t > signed32 (NLARGE - 1) then NLARGE - 1 else t) NSMALL

/-- The address of a bin's head. -/
def binSlot (ctl bin : Nat) : Nat := add32 ctl (mul32 bin 4)

/-- Push a free block onto the head of its bin. -/
def heapInsert (h : HeapState) (b size : Nat) : HeapState :=
  let slot := binSlot h.ctl (heapBin size)
  let head := h.load (slot + CTL_BINS)
  let h := h.store (b + 4) head
  let h := h.store (b + 8) 0
  let h := if head ≠ 0 then h.store (head + 8) b else h
  h.store (slot + CTL_BINS) b

/-- Remove a free block from whichever bin holds it. -/
def heapUnlink (h : HeapState) (b : Nat) : HeapState :=
  let nxt := h.load (b + 4)
  let prv := h.load (b + 8)
  let h :=
    if prv ≠ 0 then h.store (prv + 4) nxt
    else h.store (binSlot h.ctl (heapBin (h.sizeAt b)) + CTL_BINS) nxt
  if nxt ≠ 0 then h.store (nxt + 8) prv else h

/-- Turn the bytes `[p, p + n)` into one free block and its epilogue. -/
def heapInstall (h : HeapState) (p n : Nat) : HeapState × Bool :=
  if n < MIN_BLOCK + 16 then (h, false)
  else
    let base := add32 (add32 p 7 &&& SIZE_MASK) HDR
    let epi := add32 (sub32 (add32 p n) 8 &&& SIZE_MASK) HDR
    if epi ≤ base then (h, false)
    else
      let size := sub32 epi base
      if size < MIN_BLOCK then (h, false)
      else
        let h := h.store base (size ||| PINUSE)
        let h := h.store (sub32 (add32 base size) HDR) size
        let h := h.store epi INUSE
        (heapInsert h base size, true)

/-! ### Regions -/

section
variable (src : RegionSource)

/-- One region from the source. -/
def heapAcquire (h : HeapState) (bytes : Nat) : HeapState × Nat :=
  let p := src.answer h.granted bytes
  ({ h with
    mem := src.effect h.granted bytes h.mem
    granted := if p = 0 then h.granted else h.granted ++ [(p, bytes)] }, p)

/-- Acquire the first region and carve the control block out of its head. -/
def heapInit (regionBytes : Nat) (h : HeapState) : HeapState × Bool :=
  let first := max regionBytes (CTL_BYTES + MIN_BLOCK + 32)
  if h.ctl ≠ 0 then (h, true)
  else
    let (h, p) := heapAcquire src h first
    if p = 0 then (h, false)
    else
      let ctl := add32 p 7 &&& SIZE_MASK
      let h := { h with mem := fill h.mem ctl 0 CTL_BYTES, ctl := ctl }
      let h := h.store (ctl + CTL_NEXT_REGION) (min (first * 2) MAX_REGION_BYTES)
      let h := h.store (ctl + CTL_TOTAL_BYTES) first
      let h := h.store (ctl + CTL_REGION_COUNT) 1
      heapInstall h (add32 ctl CTL_BYTES) (sub32 (sub32 (add32 p first) ctl) CTL_BYTES)

/-- The bookkeeping after a region of `want` bytes. -/
def recordRegion (h : HeapState) (want : Nat) : HeapState :=
  let h := h.store (h.ctl + CTL_TOTAL_BYTES) (add32 (h.load (h.ctl + CTL_TOTAL_BYTES)) want)
  let h := h.store (h.ctl + CTL_REGION_COUNT) (add32 (h.load (h.ctl + CTL_REGION_COUNT)) 1)
  h.store (h.ctl + CTL_NEXT_REGION)
    (if shl32 want 1 > MAX_REGION_BYTES then MAX_REGION_BYTES else shl32 want 1)

/-- File a region `more` acquired. -/
def installMore (h : HeapState) (p want : Nat) : HeapState × Bool :=
  let (h, ok) := heapInstall h p want
  if ok then (recordRegion h want, true) else (h, false)

/-- Acquire another region big enough for a block of `need` bytes. -/
def heapMore (h : HeapState) (need : Nat) : HeapState × Bool :=
  let next := h.load (h.ctl + CTL_NEXT_REGION)
  let floor := add32 need CTL_BYTES
  let want := if floor > next then floor else next
  let (h, p) := heapAcquire src h want
  if p ≠ 0 then installMore h p want
  else if want > floor then
    -- the geometric step was too greedy: once more, at the least size
    let (h, p) := heapAcquire src h floor
    if p ≠ 0 then installMore h p floor else (h, false)
  else (h, false)

end

/-! ### Search -/

/-- Walk a range bin for the first block that fits; `fuel` bounds the walk. -/
def walkBin (h : HeapState) (blk : Nat) : Nat → Nat → Option Nat
  | 0, _ => none
  | fuel + 1, b =>
    if b = 0 then some 0
    else if h.sizeAt b ≥ blk then some b
    else walkBin h blk fuel (h.load (b + 4))

/-- A list of blocks is no longer than the address space. -/
def ADDRESSES : Nat := 2 ^ 32

/-- Search the bins from `i` on; `left` bounds the number of rounds. -/
def findFrom (h : HeapState) (blk : Nat) : Nat → Nat → Option Nat
  | 0, _ => none
  | left + 1, i =>
    if i ≥ NBINS then some 0
    else
      let b := h.load (binSlot h.ctl i + CTL_BINS)
      if i < NSMALL then
        -- exact-size bin: non-empty means it fits
        if b ≠ 0 then some b else findFrom h blk left (i + 1)
      else
        match walkBin h blk ADDRESSES b with
        | none => none
        | some b => if b ≠ 0 then some b else findFrom h blk left (i + 1)

/-- The first free block of at least `blk` bytes, or 0. -/
def heapFind (h : HeapState) (blk : Nat) : Option Nat :=
  findFrom h blk (NBINS + 1) (heapBin blk)

/-! ### Allocation -/

/-- The block size of a request. -/
def blockFor (size : Nat) : Nat :=
  let blk := add32 size (HDR + 7) &&& SIZE_MASK
  if blk < MIN_BLOCK then MIN_BLOCK else blk

/-- Count the request in the size histogram. -/
def recordSize (h : HeapState) (size : Nat) : HeapState :=
  let bucket := sub32 (sub32 31 (clz32 (size ||| 1))) 3
  let bucket := if signed32 bucket > 0 then bucket else 0
  let bucket := if signed32 bucket > signed32 (HIST_BUCKETS - 1) then HIST_BUCKETS - 1 else bucket
  let slot := add32 h.ctl (mul32 bucket 4)
  h.store (slot + CTL_HIST) (add32 (h.load (slot + CTL_HIST)) 1)

/-- Take `blk` bytes from the free block `b`, splitting it if the rest can stand alone. -/
def takeBlock (h : HeapState) (b blk : Nat) : HeapState × Nat :=
  let s := h.sizeAt b
  let h := heapUnlink h b
  let rem := sub32 s blk
  if rem ≥ MIN_BLOCK then
    let h := h.store b (blk ||| (h.load b &&& PINUSE) ||| INUSE)
    let h := h.store (add32 b blk) (rem ||| PINUSE)
    let h := h.store (sub32 (add32 b s) HDR) rem
    (heapInsert h (add32 b blk) rem, add32 b HDR)
  else
    let h := h.store b (s ||| (h.load b &&& PINUSE) ||| INUSE)
    let h := h.store (add32 b s) (h.load (add32 b s) ||| PINUSE)
    (h, add32 b HDR)

section
variable (src : RegionSource) (regionBytes : Nat)

/-- The allocator proper on an initialized heap. -/
def allocBlock (h : HeapState) (blk : Nat) : Option (HeapState × Nat) := do
  let b ← heapFind h blk
  if b ≠ 0 then return takeBlock h b blk
  let (h, ok) := heapMore src h blk
  if !ok then return (h, 0)
  let b ← heapFind h blk
  if b = 0 then return (h, 0)
  return takeBlock h b blk

/-- Allocate; 0 on failure. -/
def heapAlloc (h : HeapState) (size : Nat) : Option (HeapState × Nat) :=
  let h := { h with nAlloc := add32 h.nAlloc 1 }
  if size > MAX_REQUEST then some (h, 0)
  else
    let blk := blockFor size
    let (h, ok) := heapInit src regionBytes h
    if !ok then some (h, 0)
    else allocBlock src (recordSize h size) blk

/-- Absorb the next block into `b`, of size `s`, if it is free. -/
def coalesceForward (h : HeapState) (b s : Nat) : HeapState × Nat :=
  let nb := add32 b s
  if h.load nb &&& INUSE = 0 then
    let h := heapUnlink h nb
    (h, add32 s (h.sizeAt nb))
  else (h, s)

/-- Absorb `b`, of size `s`, into the previous block if that is free, through the
previous block's footer. -/
def coalesceBackward (h : HeapState) (b s : Nat) : HeapState × Nat × Nat :=
  if h.load b &&& PINUSE = 0 then
    let s := add32 s (h.load (sub32 b HDR))
    let b := sub32 b (h.load (sub32 b HDR))
    (heapUnlink h b, b, s)
  else (h, b, s)

/-- Make `[b, b + s)` a free block, tell its successor, and file it. -/
def fileFree (h : HeapState) (b s : Nat) : HeapState :=
  let h := h.store b (s ||| (h.load b &&& PINUSE))
  let h := h.store (sub32 (add32 b s) HDR) s
  let h := h.store (add32 b s) (h.load (add32 b s) &&& 0xfffffffd)
  heapInsert h b s

/-- Free a payload: coalesce both ways and file the result. -/
def heapFree (h : HeapState) (payload : Nat) : Option HeapState :=
  let h := { h with nFree := add32 h.nFree 1 }
  if payload = 0 then some h
  else
    let b := sub32 payload HDR
    if h.load b &&& INUSE = 0 then none
    else
      let s := h.sizeAt b
      if s < MIN_BLOCK then none
      else
        let (h, s) := coalesceForward h b s
        let (h, b, s) := coalesceBackward h b s
        some (fileFree h b s)

/-- The reserved payload size. -/
def heapUsable (h : HeapState) (payload : Nat) : Nat :=
  if payload = 0 then 0 else sub32 (h.sizeAt (sub32 payload HDR)) HDR

/-- Allocate `count * size` zeroed bytes. -/
def heapCalloc (h : HeapState) (count size : Nat) : Option (HeapState × Nat) := do
  let h := { h with nCalloc := add32 h.nCalloc 1 }
  let total := if count = 0 then 0 else mul32 count size
  if count ≠ 0 ∧ total / count ≠ size then return (h, 0)
  let (h, p) ← heapAlloc src regionBytes h total
  if p = 0 then return (h, 0)
  return (if total ≠ 0 then { h with mem := fill h.mem p 0 total } else h, p)

/-- Split `b`, of size `s`, down to `blk` and release the tail. -/
def shrinkTail (h : HeapState) (b s blk : Nat) : Option HeapState :=
  if sub32 s blk ≥ MIN_BLOCK then
    let h := h.store b (blk ||| (h.load b &&& PINUSE) ||| INUSE)
    let h := h.store (add32 b blk) (sub32 s blk ||| (PINUSE ||| INUSE))
    heapFree h (add32 (add32 b blk) HDR)
  else some h

/-- Absorb the free block after `b`, of size `s`. -/
def absorbNext (h : HeapState) (b s : Nat) : HeapState × Nat :=
  let nb := add32 b s
  let h := heapUnlink h nb
  let s := add32 s (h.sizeAt nb)
  let h := h.store b (s ||| (h.load b &&& PINUSE) ||| INUSE)
  (h.store (add32 b s) (h.load (add32 b s) ||| PINUSE), s)

/-- Move a payload to a new block. -/
def moveBlock (h : HeapState) (payload size s : Nat) : Option (HeapState × Nat) := do
  let (h, q) ← heapAlloc src regionBytes h size
  if q = 0 then return (h, 0)
  let h := { h with mem := copy h.mem q payload (sub32 s HDR) }
  let h ← heapFree h payload
  return (h, q)

def heapRealloc (h : HeapState) (payload size : Nat) : Option (HeapState × Nat) :=
  let h := { h with nRealloc := add32 h.nRealloc 1 }
  if payload = 0 then heapAlloc src regionBytes h size
  else if size = 0 then (heapFree h payload).map fun h => (h, 0)
  else if size > MAX_REQUEST then some (h, 0)
  else
    let b := sub32 payload HDR
    let s := h.sizeAt b
    let blk := blockFor size
    if blk ≤ s then (shrinkTail h b s blk).map fun h => (h, payload)
    else
      -- grow in place by absorbing a free physical successor
      let nb := add32 b s
      if h.load nb &&& INUSE = 0 ∧ add32 s (h.sizeAt nb) ≥ blk then
        let (h, s) := absorbNext h b s
        (shrinkTail h b s blk).map fun h => (h, payload)
      else moveBlock src regionBytes h payload size s

end

end Js2Wasm.Heap
