import Js2Wasm.Lib.While
import Js2Wasm.Lib.WordMemory

/-! # The comparator merge sort

The code that `emitStableMergeSort` (`codegen/merge-sort.ts`) emits: bottom-up merging of runs
of `width`, from one buffer into the other, which swap roles after each pass.  One buffer is
the caller's array, the other a new one; `src` and `dst` are references to them.

The locals are 32-bit words, compared as signed ones.  An array access out of range traps.
`compareGtZero` is the code of `buildCompareGtZero` after the two reads: a call of the
comparator, which has a state of its own and may throw.
-/
namespace Js2Wasm.Sorting

open WordMemory

inductive Buffer where
  | data
  | scratch
  deriving DecidableEq

structure State (α σ : Type) where
  data : List α
  scratch : List α
  src : Buffer
  dst : Buffer
  width : Nat
  i : Nat
  mid : Nat
  hi : Nat
  a : Nat
  b : Nat
  k : Nat
  parity : Nat
  comparator : σ

/-- How the code stops before its end; an exception leaves it in some state. -/
inductive Stop (α σ ε : Type) where
  | trap
  | outOfFuel
  | threw (e : ε) (s : State α σ)

variable {α σ ε : Type}

/-- The array behind a reference. -/
def State.buffer (s : State α σ) (b : Buffer) : List α :=
  if b = .data then s.data else s.scratch

def State.setBuffer (s : State α σ) (values : List α) (b : Buffer) : State α σ :=
  { s with
    data := if b = .data then values else s.data
    scratch := if b = .data then s.scratch else values }

section
variable (compareGtZero : σ → α → α → Except ε (Bool × σ)) (len : Nat)

/-- The lesser of a local and the length. -/
def clampToLen (v : Nat) : Nat := if ltS len v then len else v

def readSrc (s : State α σ) (index : Nat) : Except (Stop α σ ε) α :=
  match (s.buffer s.src)[index]? with
  | some v => .ok v
  | none => .error .trap

variable {s : State α σ} {index : Nat}

theorem readSrc_some {v : α} (h : (s.buffer s.src)[index]? = some v) :
    (readSrc s index : Except (Stop α σ ε) α) = .ok v := by
  rw [readSrc, h]

theorem readSrc_none (h : (s.buffer s.src)[index]? = none) :
    (readSrc s index : Except (Stop α σ ε) α) = .error .trap := by
  rw [readSrc, h]

/-- `dst[k] = src[cursor]` -/
def moveFrom (s : State α σ) (cursor : Nat) : Except (Stop α σ ε) (State α σ) := do
  let v ← readSrc s cursor
  if s.k < (s.buffer s.dst).length then
    return s.setBuffer ((s.buffer s.dst).set s.k v) s.dst
  else throw .trap

def takeFromA (s : State α σ) : Except (Stop α σ ε) (State α σ) := do
  let s ← moveFrom s s.a
  return { s with a := add32 s.a 1 }

def takeFromB (s : State α σ) : Except (Stop α σ ε) (State α σ) := do
  let s ← moveFrom s s.b
  return { s with b := add32 s.b 1 }

def takeLeftCond (s : State α σ) : Except (Stop α σ ε) (Bool × State α σ) := do
  if ltS s.a s.mid then
    if !ltS s.b s.hi then return (true, s)
    let left ← readSrc s s.a
    let right ← readSrc s s.b
    match compareGtZero s.comparator left right with
    | .ok (greater, comparator) => return (!greater, { s with comparator := comparator })
    | .error e => throw (.threw e s)
  else return (false, s)

/-- The loop of `mergeRun` goes on. -/
def State.merging (s : State α σ) : Bool := ltS s.k s.hi

/-- The loop over the pairs goes on. -/
def State.hasPair (s : State α σ) : Bool := ltS s.i len

/-- The loop over the passes goes on. -/
def State.hasPass (s : State α σ) : Bool := ltS s.width len

/-- The body of the loop of `mergeRun`. -/
def mergeStep (s : State α σ) : Except (Stop α σ ε) (State α σ) := do
  let (left, s) ← takeLeftCond compareGtZero s
  let s ← if left then takeFromA s else takeFromB s
  return { s with k := add32 s.k 1 }

/-- Merge one `[i, mid) + [mid, hi)` pair of runs from `src` into `dst`. -/
def mergeRun (fuel : Nat) (s : State α σ) : Except (Stop α σ ε) (State α σ) :=
  let mid := clampToLen len (add32 s.i s.width)
  let hi := clampToLen len (add32 mid s.width)
  Loop.exec State.merging (mergeStep compareGtZero) .outOfFuel fuel
    { s with mid := mid, hi := hi, a := s.i, b := mid, k := s.i }

/-- The body of the loop over the pairs. -/
def pairStep (fuel : Nat) (s : State α σ) : Except (Stop α σ ε) (State α σ) := do
  let s ← mergeRun compareGtZero len fuel s
  return { s with i := add32 (add32 s.i s.width) s.width }

/-- The body of the loop over the passes. -/
def passStep (fuel : Nat) (s : State α σ) : Except (Stop α σ ε) (State α σ) := do
  let s ← Loop.exec (State.hasPair len) (pairStep compareGtZero len fuel) .outOfFuel fuel
    { s with i := 0 }
  return { s with
    src := s.dst, dst := s.src, parity := s.parity ^^^ 1, width := shl32 s.width 1 }

/-- `array.copy` of the first `len` elements of `src` to the caller's array. -/
def copyBack (s : State α σ) : Except (Stop α σ ε) (State α σ) :=
  if len ≤ (s.buffer s.src).length ∧ len ≤ s.data.length then
    .ok { s with data := (s.buffer s.src).take len ++ s.data.drop len }
  else .error .trap

/-- The sort of the first `len` elements of `data`. -/
def mergeSort (fuel : Nat) (data : List α) (comparator : σ) : Except (Stop α σ ε) (State α σ) :=
  let s : State α σ :=
    { data := data, scratch := [], src := .data, dst := .scratch, width := 1, i := 0, mid := 0,
      hi := 0, a := 0, b := 0, k := 0, parity := 0, comparator := comparator }
  if ltS len 2 then .ok s
  else do
    let seed ← readSrc s 0
    let s ← Loop.exec (State.hasPass len) (passStep compareGtZero len fuel) .outOfFuel fuel
      { s with scratch := List.replicate len seed }
    if s.parity ≠ 0 then copyBack len s else return s

end

end Js2Wasm.Sorting
