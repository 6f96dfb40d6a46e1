import Js2Wasm.Lib.Allocator
import Js2Wasm.Lib.Guarded

/-! # The bump arena

`__malloc` hands out the bytes from `__heap_ptr` on and moves the pointer up to the next
multiple of 8.  A standalone module owns its memory and grows it when the pointer passes
its end; a linked module carves chunks from a host allocator and keeps the end of the
current chunk in `__arena_limit`.

Sizes and addresses are unsigned 32-bit numbers and their sums wrap.  A call that traps
returns no address, but what it has written to the globals before stays.

Each call owes an aligned address of owned bytes, apart from all the bytes handed out
before, and a pointer that does not move back.  That fails when a pointer sum wraps, when
a refused growth goes unnoticed and when a chunk is not aligned; `arena_runs` is about the
runs where this does not happen.
-/

namespace Js2Wasm.Linear

open WordMemory

def WASM_PAGE_SIZE : Nat := 65536

structure BumpHeap where
  heapPtr : Nat
  /-- Linked mode only. -/
  arenaLimit : Nat
  /-- `memory.size` -/
  pages : Nat
  memory : Memory

/-- The bytes of the memory, which may be `2 ^ 32`. -/
def BumpHeap.bytes (a : BumpHeap) : Nat := a.pages * WASM_PAGE_SIZE

/-- `(x + 7) & ~7` -/
def alignUp8 (x : Nat) : Nat := add32 x 7 &&& 0xfffffff8

/-- The shared end of both modes: store the pointer, zero the header word, return. -/
def commit (a : BumpHeap) (size ret next : Nat) : BumpHeap × Option Nat :=
  let a := { a with heapPtr := next }
  if 4 ≤ size then
    if ret + 4 ≤ a.bytes then ({ a with memory := store32 a.memory ret 0 }, some ret)
    else (a, none)
  else (a, some ret)

/-! ### Standalone mode -/

/-- `memory.grow`, which the engine may refuse; the pages afterwards. -/
def memoryGrow (max : Nat) (allowed : Bool) (pages delta : Nat) : Nat :=
  if allowed = true ∧ pages + delta ≤ max then pages + delta else pages

/-- The pages asked for when the pointer is to move to `next`. -/
def pagesNeeded (a : BumpHeap) (next : Nat) : Nat :=
  add32 (sub32 next (mul32 a.pages WASM_PAGE_SIZE)) (WASM_PAGE_SIZE - 1) / WASM_PAGE_SIZE

/-- `__malloc` of a standalone module; its answer to the growth is discarded. -/
def standaloneMalloc (max : Nat) (a : BumpHeap) (size : Nat) (allowed : Bool) : BumpHeap × Option Nat :=
  let ret := a.heapPtr
  let next := alignUp8 (add32 ret size)
  let a :=
    if mul32 a.pages WASM_PAGE_SIZE < next then
      { a with pages := memoryGrow max allowed a.pages (pagesNeeded a next) }
    else a
  commit a size ret next

/-! ### Linked mode -/

/-- The host allocator's answer: a base address, 0 when it fails, and the memory as it
leaves it. -/
structure Grant where
  base : Nat
  pages : Nat
  memory : Memory

/-- A chunk is carved when there is none yet or the request passes its end. -/
def BumpHeap.NeedsChunk (a : BumpHeap) (size : Nat) : Prop :=
  a.heapPtr = 0 ∨ a.arenaLimit < alignUp8 (add32 a.heapPtr size)

instance (a : BumpHeap) (size : Nat) : Decidable (a.NeedsChunk size) :=
  inferInstanceAs (Decidable (_ ∨ _))

def chunkSize (chunkBytes size : Nat) : Nat :=
  if alignUp8 size < chunkBytes then chunkBytes else alignUp8 size

/-- `__malloc` of a linked module. -/
def linkedMalloc (chunkBytes : Nat) (a : BumpHeap) (size : Nat) (host : Grant) :
    BumpHeap × Option Nat :=
  if a.NeedsChunk size then
    let chunk := chunkSize chunkBytes size
    let a := { a with pages := host.pages, memory := host.memory }
    if host.base = 0 then (a, none)
    else
      let a := { a with heapPtr := host.base, arenaLimit := add32 host.base chunk }
      commit a size a.heapPtr (alignUp8 (add32 host.base size))
  else commit a size a.heapPtr (alignUp8 (add32 a.heapPtr size))

/-! ## Runs of the bump arena -/

open Guarded

/-! ### Pointer sums -/

/-- Without wrapping, the pointer is rounded up to a multiple of 8. -/
theorem alignUp8_add32 {p size : Nat} (h : p + size + 7 < 2 ^ 32) :
    alignUp8 (add32 p size) = align8 (p + size) := by
  rw [alignUp8, add32_of_lt (by lia : p + size < 2 ^ 32), add32_of_lt h]
  have hsplit : p + size + 7 = 8 * ((p + size + 7) / 8) + (p + size + 7) % 8 := by lia
  rw [hsplit, and_neg8 (by lia) (Nat.mod_lt _ (by decide)), align8]
  lia

variable {size ret next : Nat} {a : BumpHeap}

theorem alignUp8_of_lt (h : size + 7 < 2 ^ 32) : alignUp8 size = align8 size := by
  have hsum := @alignUp8_add32 0 size (by lia)
  rwa [Nat.zero_add, add32_of_lt (by lia : 0 + size < 2 ^ 32), Nat.zero_add] at hsum

theorem align8_mod (n : Nat) : align8 n % 8 = 0 := Nat.mul_mod_left _ _

/-! ### What a call owes -/

/-- The state of a run: the heap and the blocks handed out so far. -/
structure Run where
  heap : BumpHeap
  handedOut : List Block

/-- A call for `size` bytes that ended in `out` adds its block. -/
def Run.after (handedOut : List Block) (size : Nat) (out : BumpHeap × Option Nat) : Run where
  heap := out.1
  handedOut := out.2.elim handedOut fun p => ⟨p, size⟩ :: handedOut

/-- **What a call owes**: the pointer is not below `floor`, where it stood in this region
before, and an address that is returned is aligned, owned and new. -/
structure CallOk (owned : Block → Prop) (handedOut : List Block) (floor size : Nat)
    (out : BumpHeap × Option Nat) : Prop where
  forward : floor ≤ out.1.heapPtr
  aligned : ∀ p, out.2 = some p → p % 8 = 0
  owned : ∀ p, out.2 = some p → owned ⟨p, size⟩
  apart : ∀ p, out.2 = some p → ∀ b ∈ handedOut, b.Apart ⟨p, size⟩

@[simp] theorem commit_heapPtr (a : BumpHeap) (size ret next : Nat) :
    (commit a size ret next).1.heapPtr = next := by
  simp only [commit]
  split
  · split <;> rfl
  · rfl

@[simp] theorem commit_arenaLimit (a : BumpHeap) (size ret next : Nat) :
    (commit a size ret next).1.arenaLimit = a.arenaLimit := by
  simp only [commit]
  split
  · split <;> rfl
  · rfl

@[simp] theorem commit_pages (a : BumpHeap) (size ret next : Nat) :
    (commit a size ret next).1.pages = a.pages := by
  simp only [commit]
  split
  · split <;> rfl
  · rfl

theorem commit_returns {p : Nat} (h : (commit a size ret next).2 = some p) :
    p = ret ∧ (4 ≤ size → ret + 4 ≤ a.bytes) := by
  simp only [commit] at h
  split at h
  · split at h
    · next hfits => exact ⟨(Option.some.inj h).symm, fun _ => hfits⟩
    · cases h
  · next hsmall => exact ⟨(Option.some.inj h).symm, fun hsize => absurd hsize hsmall⟩

/-- The blocks of a run after a call are the old ones and perhaps the one at `ret`. -/
theorem mem_after_commit {handedOut : List Block} {b : Block}
    (h : b ∈ (Run.after handedOut size (commit a size ret next)).handedOut) :
    b = ⟨ret, size⟩ ∨ b ∈ handedOut := by
  rw [Run.after] at h
  cases hout : (commit a size ret next).2 with
  | none =>
    rw [hout] at h
    exact Or.inr h
  | some p =>
    rw [hout, (commit_returns hout).1] at h
    exact List.mem_cons.mp h

/-! ### Standalone mode -/

section Standalone
variable (heapStart max : Nat)

/-- A request and whether the engine lets the memory grow. -/
structure GrowRequest where
  size : Nat
  allowed : Bool

def standaloneStep (s : Run) (r : GrowRequest) : Run :=
  Run.after s.handedOut r.size (standaloneMalloc max s.heap r.size r.allowed)

/-- Memory from the start of the heap on is owned. -/
def StandaloneOk (s : Run) (r : GrowRequest) : Prop :=
  let out := standaloneMalloc max s.heap r.size r.allowed
  CallOk (fun b => heapStart ≤ b.base ∧ b.base + b.size ≤ out.1.bytes) s.handedOut
    s.heap.heapPtr r.size out

/-- **The guard**: no pointer sum wraps, and the request fits the memory, or the engine
grants the missing pages, or the header word lies outside the memory. -/
structure StandaloneRoom (a : BumpHeap) (r : GrowRequest) : Prop where
  noWrap : a.heapPtr + r.size + 7 < 2 ^ 32
  room : align8 (a.heapPtr + r.size) ≤ a.bytes ∨
    (r.allowed = true ∧ a.pages + pagesNeeded a (align8 (a.heapPtr + r.size)) ≤ max) ∨
    4 ≤ r.size ∧ a.bytes < a.heapPtr + 4

structure StandaloneInv (s : Run) : Prop where
  started : heapStart ≤ s.heap.heapPtr
  aligned : s.heap.heapPtr % 8 = 0
  pages : 1 ≤ s.heap.pages ∧ s.heap.pages ≤ 65536
  passed : ∀ b ∈ s.handedOut, b.base + b.size ≤ s.heap.heapPtr

variable {heapStart max}

variable {r : GrowRequest} {s : Run} {a : BumpHeap}

/-- With at least one page the missing pages are counted without wrapping. -/
theorem bytes_grown (hpages : 1 ≤ a.pages) (hnext : next < 2 ^ 32) (hpast : a.bytes < next) :
    next ≤ (a.pages + pagesNeeded a next) * WASM_PAGE_SIZE := by
  simp only [BumpHeap.bytes, WASM_PAGE_SIZE] at *
  have hmul : mul32 a.pages 65536 = a.pages * 65536 := mul32_of_lt (by lia)
  rw [pagesNeeded, WASM_PAGE_SIZE, hmul, sub32_of_le (by lia) hnext,
    add32_of_lt (by lia)]
  lia

/-- The heap after the growth check. -/
def grown (max : Nat) (a : BumpHeap) (next : Nat) (allowed : Bool) : BumpHeap :=
  if mul32 a.pages WASM_PAGE_SIZE < next then
    { a with pages := memoryGrow max allowed a.pages (pagesNeeded a next) }
  else a

theorem standaloneMalloc_eq (max : Nat) (allowed : Bool) (h : a.heapPtr + size + 7 < 2 ^ 32) :
    standaloneMalloc max a size allowed =
      commit (grown max a (align8 (a.heapPtr + size)) allowed) size a.heapPtr
        (align8 (a.heapPtr + size)) := by
  rw [standaloneMalloc, alignUp8_add32 h]
  rfl

theorem grown_pages (max : Nat) (a : BumpHeap) (next : Nat) (allowed : Bool) :
    (grown max a next allowed).pages = a.pages ∨
      allowed = true ∧ a.pages + pagesNeeded a next ≤ max ∧
        (grown max a next allowed).pages = a.pages + pagesNeeded a next := by
  rw [grown]
  by_cases hpast : mul32 a.pages WASM_PAGE_SIZE < next
  · rw [if_pos hpast]
    by_cases hallowed : allowed = true ∧ a.pages + pagesNeeded a next ≤ max
    · exact Or.inr ⟨hallowed.1, hallowed.2, if_pos hallowed⟩
    · exact Or.inl (if_neg hallowed)
  · rw [if_neg hpast]
    exact Or.inl rfl

/-- A guarded call that returns has room for its block. -/
theorem grown_room (hroom : StandaloneRoom max a r) (hpages : 1 ≤ a.pages) {p : Nat}
    (hout : (standaloneMalloc max a r.size r.allowed).2 = some p) :
    a.heapPtr + r.size ≤ (standaloneMalloc max a r.size r.allowed).1.bytes := by
  have hle := le_align8 (a.heapPtr + r.size)
  have hnext : align8 (a.heapPtr + r.size) < 2 ^ 32 := by
    have := hroom.noWrap
    rw [align8]
    lia
  rw [standaloneMalloc_eq max r.allowed hroom.noWrap] at hout ⊢
  obtain ⟨-, hstore⟩ := commit_returns hout
  set next := align8 (a.heapPtr + r.size) with hnextdef
  have hbytes : (commit (grown max a next r.allowed) r.size a.heapPtr next).1.bytes =
      (grown max a next r.allowed).bytes := by
    rw [BumpHeap.bytes, BumpHeap.bytes, commit_pages]
  rw [hbytes]
  have hmono : a.bytes ≤ (grown max a next r.allowed).bytes := by
    rcases grown_pages max a next r.allowed with h | ⟨-, -, h⟩ <;>
      simp only [BumpHeap.bytes, h, WASM_PAGE_SIZE] <;> lia
  by_cases hfits : next ≤ a.bytes
  · lia
  · have hpast : mul32 a.pages WASM_PAGE_SIZE < next :=
      (Nat.mod_le _ _).trans_lt (Nat.not_le.mp hfits)
    have henough := bytes_grown hpages hnext (Nat.not_le.mp hfits)
    rcases hroom.room with h | hgrant | ⟨hsize, hfar⟩
    · exact absurd h hfits
    · have hgrown : (grown max a next r.allowed).pages = a.pages + pagesNeeded a next := by
        rw [grown, if_pos hpast]
        exact if_pos hgrant
      rw [BumpHeap.bytes, hgrown]
      omega
    · -- the header word is stored, so the memory has grown after all
      have hheader := hstore hsize
      rcases grown_pages max a next r.allowed with h | ⟨-, -, h⟩
      · rw [BumpHeap.bytes, h] at hheader
        exact absurd hheader (Nat.not_le.mpr hfar)
      · rw [BumpHeap.bytes, h]
        omega

theorem standalone_ok (hs : StandaloneInv heapStart s) (hr : StandaloneRoom max s.heap r) :
    StandaloneOk heapStart max s r := by
  have heq := standaloneMalloc_eq max r.allowed hr.noWrap
  have hret {p : Nat} (hp : (standaloneMalloc max s.heap r.size r.allowed).2 = some p) :
      p = s.heap.heapPtr := by
    rw [heq] at hp
    exact (commit_returns hp).1
  refine ⟨?_, fun p hp => ?_, fun p hp => ?_, fun p hp b hb => ?_⟩
  · show s.heap.heapPtr ≤ (standaloneMalloc max s.heap r.size r.allowed).1.heapPtr
    rw [heq, commit_heapPtr]
    exact (Nat.le_add_right _ _).trans (le_align8 _)
  · rw [hret hp]
    exact hs.aligned
  · have hroom := grown_room hr hs.pages.1 hp
    rw [hret hp]
    exact ⟨hs.started, hroom⟩
  · rw [hret hp]
    exact Or.inl (hs.passed b hb)

theorem standalone_keeps (hmax : max ≤ 65536) (hs : StandaloneInv heapStart s)
    (hr : StandaloneRoom max s.heap r) : StandaloneInv heapStart (standaloneStep max s r) := by
  have hle := le_align8 (s.heap.heapPtr + r.size)
  rw [standaloneStep, standaloneMalloc_eq max r.allowed hr.noWrap]
  set next := align8 (s.heap.heapPtr + r.size) with hnext
  have hptr : (Run.after s.handedOut r.size (commit (grown max s.heap next r.allowed) r.size
      s.heap.heapPtr next)).heap.heapPtr = next := commit_heapPtr ..
  refine ⟨?_, ?_, ?_, fun b hb => ?_⟩
  · rw [hptr]
    have := hs.started
    lia
  · rw [hptr]
    exact align8_mod _
  · show 1 ≤ (commit _ _ _ _).1.pages ∧ (commit _ _ _ _).1.pages ≤ 65536
    rw [commit_pages]
    have hpages := hs.pages
    rcases grown_pages max s.heap next r.allowed with h | ⟨-, hle, h⟩ <;> rw [h] <;> lia
  · rw [hptr]
    rcases mem_after_commit hb with rfl | hb
    · exact hle
    · have := hs.passed b hb
      lia

end Standalone

/-! ### Linked mode -/

/-- The state of a linked run: the chunks granted so far as well. -/
structure LinkedRun extends Run where
  chunks : List Block

/-- A request and the host's answer, should it be asked. -/
structure ChunkRequest where
  size : Nat
  grant : Grant

section Linked
variable (chunkBytes : Nat)

def LinkedRun.chunksAfter (s : LinkedRun) (r : ChunkRequest) : List Block :=
  if s.heap.NeedsChunk r.size ∧ r.grant.base ≠ 0 then
    ⟨r.grant.base, chunkSize chunkBytes r.size⟩ :: s.chunks
  else s.chunks

def linkedStep (s : LinkedRun) (r : ChunkRequest) : LinkedRun where
  toRun := Run.after s.handedOut r.size (linkedMalloc chunkBytes s.heap r.size r.grant)
  chunks := s.chunksAfter chunkBytes r

/-- Owned memory is a granted chunk; in a fresh chunk the pointer starts at its base. -/
def LinkedOk (s : LinkedRun) (r : ChunkRequest) : Prop :=
  CallOk (fun b => ∃ c ∈ s.chunksAfter chunkBytes r,
      c.base ≤ b.base ∧ b.base + b.size ≤ c.base + c.size) s.handedOut
    (if s.heap.NeedsChunk r.size ∧ r.grant.base ≠ 0 then r.grant.base else s.heap.heapPtr)
    r.size (linkedMalloc chunkBytes s.heap r.size r.grant)

/-- **What the host allocator promises** when it is asked for a chunk: it fails, or it
returns memory it has not granted before. -/
def HostPromise (s : LinkedRun) (r : ChunkRequest) : Prop :=
  s.heap.NeedsChunk r.size → r.grant.base ≠ 0 →
    r.grant.base + chunkSize chunkBytes r.size ≤ 2 ^ 32 ∧
      ∀ c ∈ s.chunks, c.Apart ⟨r.grant.base, chunkSize chunkBytes r.size⟩

/-- **The guard**: a request that stays in its chunk does not wrap, and for one that needs a
chunk the host fails or returns an aligned base from which it does not wrap. -/
def LinkedRoom (s : LinkedRun) (r : ChunkRequest) : Prop :=
  if s.heap.NeedsChunk r.size then
    r.grant.base = 0 ∨ r.grant.base % 8 = 0 ∧ r.grant.base + r.size + 7 < 2 ^ 32
  else s.heap.heapPtr + r.size + 7 < 2 ^ 32

/-- The current chunk: the pointer lies in it and the limit is its end. -/
structure Current (a : BumpHeap) (handedOut : List Block) (c : Block) : Prop where
  inside : c.base ≤ a.heapPtr ∧ a.heapPtr ≤ c.base + c.size
  limit : a.arenaLimit = (c.base + c.size) % 2 ^ 32
  ends : c.base + c.size ≤ 2 ^ 32
  positive : 0 < c.base
  passed : ∀ b ∈ handedOut, b.base + b.size ≤ a.heapPtr ∨ b.Apart c

structure LinkedInv (s : LinkedRun) : Prop where
  aligned : s.heap.heapPtr % 8 = 0
  owned : ∀ b ∈ s.handedOut, ∃ c ∈ s.chunks, c.base ≤ b.base ∧ b.base + b.size ≤ c.base + c.size
  current : s.heap.heapPtr ≠ 0 → ∃ c ∈ s.chunks, Current s.heap s.handedOut c

variable {chunkBytes}

/-- A chunk holds the request it was carved for. -/
theorem align8_le_chunkSize (chunkBytes : Nat) (h : size + 7 < 2 ^ 32) :
    align8 size ≤ chunkSize chunkBytes size := by
  rw [chunkSize, alignUp8_of_lt h]
  split <;> lia

theorem align8_add {base : Nat} (h : base % 8 = 0) (size : Nat) :
    align8 (base + size) = base + align8 size := by
  simp only [align8]
  lia

variable {r : ChunkRequest} {c : Block} {s : LinkedRun}

/-- A block of one chunk is apart from a block of another. -/
theorem Block.Apart.inner {b c' : Block} (h : c.Apart c') (hb : c.base ≤ b.base)
    (hb' : b.base + b.size ≤ c.base + c.size) {d : Block} (hd : c'.base ≤ d.base)
    (hd' : d.base + d.size ≤ c'.base + c'.size) : b.Apart d := by
  rcases h with h | h
  · exact Or.inl (by lia)
  · exact Or.inr (by lia)

/-- What a call does when it stays in its chunk. -/
theorem linkedMalloc_stays (hneeds : ¬ s.heap.NeedsChunk r.size)
    (hwrap : s.heap.heapPtr + r.size + 7 < 2 ^ 32) :
    linkedMalloc chunkBytes s.heap r.size r.grant =
      commit s.heap r.size s.heap.heapPtr (align8 (s.heap.heapPtr + r.size)) := by
  rw [linkedMalloc, if_neg hneeds, alignUp8_add32 hwrap]

/-- The heap once the host has granted a chunk. -/
def carved (chunkBytes : Nat) (r : ChunkRequest) : BumpHeap :=
  { heapPtr := r.grant.base
    arenaLimit := add32 r.grant.base (chunkSize chunkBytes r.size)
    pages := r.grant.pages
    memory := r.grant.memory }

theorem linkedMalloc_carves (hneeds : s.heap.NeedsChunk r.size) (hbase : r.grant.base ≠ 0)
    (hwrap : r.grant.base + r.size + 7 < 2 ^ 32) :
    linkedMalloc chunkBytes s.heap r.size r.grant =
      commit (carved chunkBytes r) r.size r.grant.base
        (align8 (r.grant.base + r.size)) := by
  rw [linkedMalloc, if_pos hneeds]
  show (if r.grant.base = 0 then _ else _) = _
  rw [if_neg hbase, alignUp8_add32 hwrap]
  rfl

theorem linkedMalloc_fails (hneeds : s.heap.NeedsChunk r.size) (hbase : r.grant.base = 0) :
    linkedMalloc chunkBytes s.heap r.size r.grant =
      ({ s.heap with pages := r.grant.pages, memory := r.grant.memory }, none) := by
  rw [linkedMalloc, if_pos hneeds]
  exact if_pos hbase

/-- A request that stays in its chunk ends below the chunk's end. -/
theorem stays_below (hc : Current s.heap s.handedOut c) (hneeds : ¬ s.heap.NeedsChunk r.size)
    (hwrap : s.heap.heapPtr + r.size + 7 < 2 ^ 32) :
    align8 (s.heap.heapPtr + r.size) ≤ c.base + c.size := by
  obtain ⟨hptr, hlimit⟩ := not_or.mp hneeds
  rw [alignUp8_add32 hwrap, hc.limit] at hlimit
  lia

/-- A call that does not fail commits a block at the pointer of its chunk `c`. -/
structure Places (chunkBytes : Nat) (s : LinkedRun) (r : ChunkRequest) (a : BumpHeap)
    (c : Block) : Prop where
  call : linkedMalloc chunkBytes s.heap r.size r.grant =
    commit a r.size a.heapPtr (align8 (a.heapPtr + r.size))
  floor : (if s.heap.NeedsChunk r.size ∧ r.grant.base ≠ 0 then r.grant.base else s.heap.heapPtr) =
    a.heapPtr
  aligned : a.heapPtr % 8 = 0
  current : Current a s.handedOut c
  room : align8 (a.heapPtr + r.size) ≤ c.base + c.size
  mem : c ∈ s.chunksAfter chunkBytes r
  older : s.chunks ⊆ s.chunksAfter chunkBytes r

section
variable (hs : LinkedInv s) (hhost : HostPromise chunkBytes s r) (hr : LinkedRoom s r)
include hs hhost hr

theorem linked_places (hfails : ¬ (s.heap.NeedsChunk r.size ∧ r.grant.base = 0)) :
    ∃ a c, Places chunkBytes s r a c := by
  by_cases hneeds : s.heap.NeedsChunk r.size
  · have hbase : r.grant.base ≠ 0 := fun h => hfails ⟨hneeds, h⟩
    rw [LinkedRoom, if_pos hneeds] at hr
    obtain ⟨haligned, hwrap⟩ := hr.resolve_left hbase
    obtain ⟨hend, hapart⟩ := hhost hneeds hbase
    have hfits := align8_le_chunkSize chunkBytes (by lia : r.size + 7 < 2 ^ 32)
    have hchunks : s.chunksAfter chunkBytes r =
        ⟨r.grant.base, chunkSize chunkBytes r.size⟩ :: s.chunks := if_pos ⟨hneeds, hbase⟩
    refine ⟨carved chunkBytes r, _, linkedMalloc_carves hneeds hbase hwrap,
      if_pos ⟨hneeds, hbase⟩, haligned, ?_, ?_, hchunks ▸ List.mem_cons_self,
      hchunks ▸ List.subset_cons_self _ _⟩
    · refine ⟨⟨le_rfl, Nat.le_add_right _ _⟩, rfl, hend, Nat.pos_of_ne_zero hbase,
        fun b hb => ?_⟩
      obtain ⟨c, hc, hlo, hhi⟩ := hs.owned b hb
      exact Or.inr (Block.Apart.inner (hapart c hc) hlo hhi .refl .refl)
    · show align8 (r.grant.base + r.size) ≤ r.grant.base + chunkSize chunkBytes r.size
      rw [align8_add haligned]
      lia
  · rw [LinkedRoom, if_neg hneeds] at hr
    obtain ⟨c, hc, hcur⟩ := hs.current (not_or.mp hneeds).1
    have hchunks : s.chunksAfter chunkBytes r = s.chunks := if_neg fun h => hneeds h.1
    exact ⟨s.heap, c, linkedMalloc_stays hneeds hr, if_neg fun h => hneeds h.1, hs.aligned, hcur,
      stays_below hcur hneeds hr, hchunks ▸ hc, hchunks ▸ List.Subset.refl _⟩

theorem linked_ok :
    LinkedOk chunkBytes s r := by
  rw [LinkedOk]
  by_cases hfails : s.heap.NeedsChunk r.size ∧ r.grant.base = 0
  · rw [linkedMalloc_fails hfails.1 hfails.2, if_neg fun h => h.2 hfails.2]
    exact ⟨le_rfl, fun p h => (nomatch h), fun p h => (nomatch h), fun p h => (nomatch h)⟩
  · obtain ⟨a, c, h⟩ := linked_places hs hhost hr hfails
    have hinside := h.current.inside
    have hle := le_align8 (a.heapPtr + r.size)
    have hholds := hle.trans h.room
    rw [h.call, h.floor]
    refine ⟨?_, fun p hp => ?_, fun p hp => ?_, fun p hp b hb => ?_⟩
    · rw [commit_heapPtr]
      lia
    · rw [(commit_returns hp).1]
      exact h.aligned
    · rw [(commit_returns hp).1]
      exact ⟨c, h.mem, hinside.1, hholds⟩
    · rw [(commit_returns hp).1]
      rcases h.current.passed b hb with hpassed | hapart
      · exact Or.inl hpassed
      · exact Block.Apart.inner hapart .refl .refl hinside.1 hholds

theorem linked_keeps :
    LinkedInv (linkedStep chunkBytes s r) := by
  by_cases hfails : s.heap.NeedsChunk r.size ∧ r.grant.base = 0
  · have hstep : linkedStep chunkBytes s r =
        { heap := { s.heap with pages := r.grant.pages, memory := r.grant.memory }
          handedOut := s.handedOut
          chunks := s.chunks } := by
      rw [linkedStep, linkedMalloc_fails hfails.1 hfails.2, LinkedRun.chunksAfter,
        if_neg fun h => h.2 hfails.2]
      rfl
    rw [hstep]
    refine ⟨hs.aligned, hs.owned, fun hptr => ?_⟩
    obtain ⟨c, hc, hcur⟩ := hs.current hptr
    exact ⟨c, hc, hcur.inside, hcur.limit, hcur.ends, hcur.positive, hcur.passed⟩
  · obtain ⟨a, c, h⟩ := linked_places hs hhost hr hfails
    have hcur := h.current
    have hinside := hcur.inside
    have hroom := h.room
    have hle := le_align8 (a.heapPtr + r.size)
    have hrun : (linkedStep chunkBytes s r).toRun = Run.after s.handedOut r.size
        (commit a r.size a.heapPtr (align8 (a.heapPtr + r.size))) := by
      rw [linkedStep, h.call]
    have hptr : (linkedStep chunkBytes s r).heap.heapPtr = align8 (a.heapPtr + r.size) := by
      rw [hrun]
      exact commit_heapPtr ..
    have hout {b : Block} (hb : b ∈ (linkedStep chunkBytes s r).handedOut) :
        b = ⟨a.heapPtr, r.size⟩ ∨ b ∈ s.handedOut := by
      rw [hrun] at hb
      exact mem_after_commit hb
    refine ⟨?_, fun b hb => ?_, fun _ => ⟨c, h.mem, ?_, ?_, hcur.ends, hcur.positive,
      fun b hb => ?_⟩⟩
    · rw [hptr]
      exact align8_mod _
    · rcases hout hb with rfl | hb
      · exact ⟨c, h.mem, hinside.1, hle.trans hroom⟩
      · obtain ⟨c', hc', hin⟩ := hs.owned b hb
        exact ⟨c', h.older hc', hin⟩
    · rw [hptr]
      lia
    · rw [hrun]
      exact (commit_arenaLimit ..).trans hcur.limit
    · rw [hptr]
      rcases hout hb with rfl | hb
      · exact Or.inl hle
      · exact (hcur.passed b hb).imp (fun h => by lia) id

end

end Linked

/-! ### Runs -/

/-- A standalone module before its first request: the heap starts at a multiple of 8 and
there is at least one page. -/
def standaloneStart (heapStart pages : Nat) (memory : Memory) : Run where
  heap := { heapPtr := heapStart, arenaLimit := 0, pages := pages, memory := memory }
  handedOut := []

/-- A linked module before its first request. -/
def linkedStart (pages : Nat) (memory : Memory) : LinkedRun where
  heap := { heapPtr := 0, arenaLimit := 0, pages := pages, memory := memory }
  handedOut := []
  chunks := []

/-- **The arena never overlaps while its guards hold**: in a run of requests that all meet
the guard of their mode, every call traps or returns an aligned address of owned bytes that
were not handed out before, and the pointer never moves back within a region. -/
theorem arena_runs (pages : Nat) (memory : Memory) :
    (∀ (heapStart max : Nat) (requests : List GrowRequest),
      heapStart % 8 = 0 → 1 ≤ pages → pages ≤ max → max ≤ 65536 →
      AllSteps (standaloneStep max) (fun s r => StandaloneRoom max s.heap r)
        (standaloneStart heapStart pages memory) requests →
      AllSteps (standaloneStep max) (StandaloneOk heapStart max)
        (standaloneStart heapStart pages memory) requests) ∧
    (∀ (chunkBytes : Nat) (requests : List ChunkRequest),
      AllSteps (linkedStep chunkBytes) (fun s r => HostPromise chunkBytes s r ∧ LinkedRoom s r)
        (linkedStart pages memory) requests →
      AllSteps (linkedStep chunkBytes) (LinkedOk chunkBytes) (linkedStart pages memory)
        requests) := by
  constructor
  · intro heapStart max requests haligned hpages hmaximum hmax hguard
    have hstart : StandaloneInv heapStart (standaloneStart heapStart pages memory) :=
      ⟨le_rfl, haligned, ⟨hpages, hmaximum.trans hmax⟩,
        fun b hb => nomatch hb⟩
    exact allSteps_of_inv (I := StandaloneInv heapStart)
      (G := fun s r => StandaloneRoom max s.heap r) (fun s r hs hr => standalone_ok hs hr)
      (fun s r hs hr => standalone_keeps hmax hs hr) hstart hguard
  · intro chunkBytes requests hguard
    have hstart : LinkedInv (linkedStart pages memory) :=
      ⟨rfl, fun b hb => absurd hb List.not_mem_nil, fun h => absurd rfl h⟩
    exact allSteps_of_inv (I := LinkedInv)
      (G := fun s r => HostPromise chunkBytes s r ∧ LinkedRoom s r)
      (fun s r hs hr => linked_ok hs hr.1 hr.2)
      (fun s r hs hr => linked_keeps hs hr.1 hr.2) hstart hguard

/-! ### Where the arena overlaps -/

/-- Eight bytes, then all but the last 1032 bytes of the address space, then a page: the
second sum wraps to 0, and the third call returns the bytes of the first. -/
def wrapping : List GrowRequest :=
  [⟨8, true⟩, ⟨2 ^ 32 - 1032, true⟩, ⟨65536, true⟩]

/-- One request to a host whose chunk starts at 20. -/
def unaligned : List ChunkRequest := [⟨8, ⟨20, 1, fun _ => 0⟩⟩]

theorem arena_overlaps :
    (wrapping.foldl (standaloneStep 256) (standaloneStart 1024 1 fun _ => 0)).handedOut =
        [⟨0, 65536⟩, ⟨1032, 2 ^ 32 - 1032⟩, ⟨1024, 8⟩] ∧
      (¬ ∀ requests : List GrowRequest, (∀ r ∈ requests, r.size < 2 ^ 32) →
        AllSteps (standaloneStep 256) (StandaloneOk 1024 256)
          (standaloneStart 1024 1 fun _ => 0) requests) ∧
      ¬ ∀ requests : List ChunkRequest, (∀ r ∈ requests, r.size < 2 ^ 32) →
        AllSteps (linkedStep 65536) (HostPromise 65536) (linkedStart 1 fun _ => 0) requests →
        AllSteps (linkedStep 65536) (LinkedOk 65536) (linkedStart 1 fun _ => 0) requests := by
  refine ⟨by decide, fun h => ?_, fun h => ?_⟩
  · obtain ⟨-, hsecond, -⟩ := h wrapping (by decide)
    have hforward : 1032 ≤ 0 := hsecond.forward
    lia
  · have hpromise : HostPromise 65536 (linkedStart 1 fun _ => 0) ⟨8, ⟨20, 1, fun _ => 0⟩⟩ :=
      fun _ _ => ⟨by decide, fun c hc => nomatch hc⟩
    obtain ⟨hfirst, -⟩ := h unaligned (by decide) ⟨hpromise, trivial⟩
    exact absurd (hfirst.aligned 20 (by decide)) (by decide)

/-- Eight bytes, then a page, for which the memory grows; and two requests to a host whose
chunk starts at 4096. -/
theorem arena_runs_example :
    AllSteps (standaloneStep 256) (StandaloneOk 1024 256) (standaloneStart 1024 1 fun _ => 0)
        [⟨8, true⟩, ⟨65536, true⟩] ∧
      AllSteps (linkedStep 65536) (LinkedOk 65536) (linkedStart 2 fun _ => 0)
        [⟨8, ⟨4096, 2, fun _ => 0⟩⟩, ⟨24, ⟨0, 2, fun _ => 0⟩⟩] := by
  constructor
  · apply (arena_runs 1 _).1 1024 256 _ (by decide) (by decide) (by decide) (by decide)
    exact ⟨⟨by decide, by decide⟩, ⟨by decide, by decide⟩, trivial⟩
  · apply (arena_runs 2 _).2 65536
    exact ⟨⟨fun _ _ => ⟨by decide, fun c hc => nomatch hc⟩,
        by unfold LinkedRoom; decide⟩,
      ⟨fun h => absurd h (by decide), by unfold LinkedRoom; decide⟩, trivial⟩

end Js2Wasm.Linear
