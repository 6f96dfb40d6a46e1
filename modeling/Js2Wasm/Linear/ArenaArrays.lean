import Js2Wasm.Linear.ArrayRuns
import Js2Wasm.Linear.BumpArena

/-! # Linear arrays over the bump arena

As long as its guard holds, `__malloc` of a standalone module is an allocator of disjoint
blocks, so arrays over the arena behave as arrays over any allocator do. -/
namespace Js2Wasm.Linear

open WordMemory

variable {heapStart max : Nat}

instance (a : BumpHeap) (r : GrowRequest) : Decidable (StandaloneRoom max a r) :=
  decidable_of_iff (_ ∧ _) ⟨fun h => ⟨h.1, h.2⟩, fun h => ⟨h.1, h.2⟩⟩

/-- A call writes nowhere but in its block. -/
theorem agreeOff_malloc (max : Nat) (a : BumpHeap) (size : Nat) (allowed : Bool) :
    AgreeOff ⟨a.heapPtr, size⟩ a.memory (standaloneMalloc max a size allowed).1.memory := by
  have hcommit (b : BumpHeap) (next : Nat) (hb : b.memory = a.memory) :
      AgreeOff ⟨a.heapPtr, size⟩ a.memory (commit b size a.heapPtr next).1.memory := by
    simp only [commit, ← hb]
    split
    · next hsize =>
      split
      · exact agreeOff_store32 0 .refl (Nat.add_le_add_left hsize _)
      · exact AgreeOff.refl _ _
    · exact AgreeOff.refl _ _
  refine hcommit _ _ ?_
  split <;> rfl

/-- An arena that meets its invariant. -/
abbrev GuardedArena (heapStart : Nat) := { s : Run // StandaloneInv heapStart s }

/-- The arena over the memory `m`. -/
def GuardedArena.over (s : GuardedArena heapStart) (m : Memory) : GuardedArena heapStart :=
  ⟨{ s.1 with heap := { s.1.heap with memory := m } },
    s.2.started, s.2.aligned, s.2.pages, s.2.passed⟩

/-- `__malloc` as an allocator: a program stops where the guard fails and where the call
traps.  The engine may refuse to grow the memory whenever it likes. -/
def arenaMalloc (hmax : max ≤ 65536) (allowed : Run → Nat → Bool) :
    Malloc (GuardedArena heapStart) where
  alloc m s size :=
    let s := s.over m
    if h : StandaloneRoom max s.1.heap ⟨size, allowed s.1 size⟩ then
      let out := standaloneMalloc max s.1.heap size (allowed s.1 size)
      out.2.map fun p => (p, out.1.memory, ⟨_, standalone_keeps hmax s.2 h⟩)
    else none
  blocks s := s.1.handedOut
  granted := by
    intro m s size p m' s' halloc
    dsimp only at halloc
    split at halloc
    · next hroom =>
      obtain ⟨q, hq, heq⟩ := Option.map_eq_some_iff.mp halloc
      cases heq
      have hcall := standaloneMalloc_eq max (allowed (s.over m).1 size) hroom.noWrap
      have hp : p = s.1.heap.heapPtr := by
        rw [hcall] at hq
        exact (commit_returns hq).1
      have hfits : s.1.heap.heapPtr + size + 7 < 2 ^ 32 := hroom.noWrap
      refine ⟨?_, (standalone_ok (s.over m).2 hroom).apart p hq, by lia, ?_⟩
      · simp only [standaloneStep, Run.after, hq]
        rfl
      · rw [hp]
        exact agreeOff_malloc max (s.over m).1.heap size _
    · cases halloc

/-- **Arrays over the arena refine growable lists.**  From any state of the arena, every
call answers as the lists do and writes to its own array only, up to the first that finds
no room. -/
theorem arrays_on_arena (hmax : max ≤ 65536) (allowed : Run → Nat → Bool)
    (s : GuardedArena heapStart) (m : Memory) (ops : List ArrayOp)
    (hops : (AbsArrays.mk [] []).HasAll ops) (fuel : Nat) (hfuel : 2 ^ 32 ≤ fuel) :
    Behaves (arenaMalloc hmax allowed) fuel ⟨m, s, []⟩ ⟨[], []⟩ [] ops :=
  (StandsFor.empty m s).run hfuel ops hops

/-- A fresh arena, and an array that is relocated. -/
theorem arrays_on_arena_relocated :
    Behaves (@arenaMalloc 1024 256 (by decide) fun _ _ => true) (2 ^ 32)
      ⟨fun _ => 0, ⟨standaloneStart 1024 1 fun _ => 0,
        by decide, by decide, by decide, by simp [standaloneStart]⟩, []⟩
      ⟨[], []⟩ [] [.new 1, .push 0 5, .push 0 6, .get 0 1] :=
  arrays_on_arena (by decide) _ _ _ [.new 1, .push 0 5, .push 0 6, .get 0 1]
    ⟨trivial, Nat.one_pos, Nat.one_pos, Nat.one_pos, trivial⟩ (2 ^ 32) .refl

end Js2Wasm.Linear
