import Js2Wasm.Lib.WordMemory

/-! # Allocators of disjoint blocks

An allocator hands out blocks of a byte memory.  What is asked of it is only that a block
has the requested size, lies in the 32-bit address space, shares no byte with a block
handed out before, and that the call itself writes nowhere else.  When it refuses, it says
so.
-/
namespace WordMemory
open List

/-- Why a call does not return: the allocator has refused, the program has stopped itself, or
the steps allowed to the model were too few. -/
inductive Halt where
  | outOfMemory
  | trap
  | outOfFuel
deriving DecidableEq

/-- `size` bytes from `base` on. -/
structure Block where
  base : Nat
  size : Nat
deriving DecidableEq

/-- The address lies in the block. -/
def Block.Has (b : Block) (a : Nat) : Prop := b.base ≤ a ∧ a < b.base + b.size

/-- The blocks share no byte. -/
def Block.Apart (b c : Block) : Prop := b.base + b.size ≤ c.base ∨ c.base + c.size ≤ b.base

/-- The two memories agree outside of the block. -/
def AgreeOff (b : Block) (m m' : Memory) : Prop := ∀ a, ¬ b.Has a → m' a = m a

/-- What a successful request of `size` bytes promises. -/
structure Granted (before after : List Block) (m m' : Memory) (base size : Nat) : Prop where
  blocks : after = ⟨base, size⟩ :: before
  apart : ∀ b ∈ before, b.Apart ⟨base, size⟩
  fits : base + size ≤ 2 ^ 32
  frame : AgreeOff ⟨base, size⟩ m m'

/-- An allocator with the state `σ`. -/
structure Malloc (σ : Type) where
  alloc : Memory → σ → Nat → Option (Nat × Memory × σ)
  /-- The blocks handed out so far. -/
  blocks : σ → List Block
  granted : ∀ {m h size p m' h'}, alloc m h size = some (p, m', h') →
    Granted (blocks h) (blocks h') m m' p size

section
variable {b c : Block} {m m' m'' : Memory} {a : Nat}

theorem Block.Apart.symm (h : b.Apart c) : c.Apart b := Or.symm h

/-- An address of one block is outside of the other. -/
theorem Block.Apart.not_has (h : b.Apart c) (hb : b.Has a) : ¬ c.Has a := by
  intro hc
  rcases h with h | h
  · exact absurd (hb.2.trans_le h) (Nat.not_lt.mpr hc.1)
  · exact absurd (hc.2.trans_le h) (Nat.not_lt.mpr hb.1)

theorem AgreeOff.refl (b : Block) (m : Memory) : AgreeOff b m m := fun _ _ => rfl

theorem AgreeOff.trans (h : AgreeOff b m m') (h' : AgreeOff b m' m'') : AgreeOff b m m'' :=
  fun a ha => (h' a ha).trans (h a ha)

/-- Writes into a part of the block. -/
theorem AgreeOff.mono (h : AgreeOff b m m') (hle : c.base ≤ b.base)
    (hle' : b.base + b.size ≤ c.base + c.size) : AgreeOff c m m' :=
  fun a ha => h a fun hin => ha ⟨hle.trans hin.1, hin.2.trans_le hle'⟩

/-- Writes into the new block are part of what the request may change. -/
theorem Granted.write {before after : List Block} {base size : Nat}
    (hg : Granted before after m m' base size) (h : AgreeOff ⟨base, size⟩ m' m'') :
    Granted before after m m'' base size :=
  ⟨hg.blocks, hg.apart, hg.fits, hg.frame.trans h⟩

/-- A store into the block. -/
theorem agreeOff_store32 (v : Nat) (h : b.base ≤ a) (h' : a + 4 ≤ b.base + b.size) :
    AgreeOff b m (store32 m a v) := by
  intro i hi
  refine store32_of_ne (Nat.lt_or_ge i a |>.imp_right fun hia => ?_)
  have : ¬ (b.base ≤ i ∧ i < b.base + b.size) := hi
  omega

/-- A block that is apart keeps its words. -/
theorem AgreeOff.load32 (h : AgreeOff b m m') (hc : b.Apart c) (ha : c.base ≤ a)
    (ha' : a + 4 ≤ c.base + c.size) : load32 m' a = load32 m a :=
  load32_congr fun i hi hi' => h i (hc.symm.not_has ⟨by omega, by omega⟩)

end

/-! ### What an allocation keeps -/

/-- The blocks, with what is in them. -/
def Intact (blocks after : List Block) (m m' : Memory) : Prop :=
  ∀ b ∈ blocks, b ∈ after ∧ ∀ x, b.Has x → m' x = m x

theorem Granted.intact {before after : List Block} {m m' : Memory} {base size : Nat}
    (hg : Granted before after m m' base size) : Intact before after m m' :=
  fun b hb => ⟨hg.blocks ▸ mem_cons_of_mem _ hb,
    fun x hx => hg.frame x ((hg.apart b hb).not_has hx)⟩

section
variable {α : Type} {l : List α} {a b : α} {k : Nat}

theorem getElem?_snoc (h : (l ++ [a])[k]? = some b) : l[k]? = some b ∨ k = l.length ∧ b = a := by
  by_cases hlt : k < l.length
  · exact Or.inl ((getElem?_append_left hlt).symm.trans h)
  · have hlt' := (List.getElem?_eq_some_iff.mp h).1
    rw [List.length_append, List.length_singleton] at hlt'
    obtain rfl : k = l.length := by omega
    rw [getElem?_concat_length] at h
    exact Or.inr ⟨rfl, (Option.some.inj h).symm⟩

theorem getElem?_snoc_old (h : l[k]? = some b) (a : α) : (l ++ [a])[k]? = some b :=
  (List.getElem?_append_left (List.getElem?_eq_some_iff.mp h).1).trans h

end

/-! ### Parts of a program -/

/-- One of two parts that share an allocator, with the blocks of its own. -/
structure Client {σ : Type} (M : Malloc σ) (others : List Block) where
  heap : σ
  own : List Block
  granted : ∀ b ∈ own ++ others, b ∈ M.blocks heap
  apart : ∀ b ∈ own, ∀ c ∈ others, b.Apart c

section
variable {σ : Type} {M : Malloc σ} {others : List Block}

/-- The other part. -/
def Client.swap (s : Client M others) : Client M s.own where
  heap := s.heap
  own := others
  granted b hb := s.granted b (mem_append.mpr (mem_append.mp hb).symm)
  apart b hb c hc := (s.apart c hc b hb).symm

/-- The part has been given a block. -/
def Client.add (s : Client M others) {m m' : Memory} {heap : σ} {p size : Nat}
    (h : M.alloc m s.heap size = some (p, m', heap)) : Client M others where
  heap := heap
  own := ⟨p, size⟩ :: s.own
  granted b hb := by
    rw [(M.granted h).blocks]
    exact mem_cons.mpr ((mem_cons.mp hb).imp_right (s.granted b))
  apart b hb c hc := by
    rcases mem_cons.mp hb with rfl | hb
    · exact ((M.granted h).apart c (s.granted c (mem_append_right _ hc))).symm
    · exact s.apart b hb c hc

/-- The allocator, as one part calls it. -/
def Malloc.beside (M : Malloc σ) (others : List Block) : Malloc (Client M others) where
  alloc m s size :=
    match h : M.alloc m s.heap size with
    | none => none
    | some (p, m', _) => some (p, m', s.add h)
  blocks := Client.own
  granted := by
    intro m s size p m' s' heq
    split at heq
    · cases heq
    · next h =>
      cases heq
      have hg := M.granted h
      exact ⟨rfl, fun b hb => hg.apart b (s.granted b (mem_append_left _ hb)), hg.fits,
        hg.frame⟩

end

/-! ### Bump allocation -/

/-- A bump pointer that has passed all the blocks it has handed out. -/
structure Arena where
  next : Nat
  handedOut : List Block
  passed : ∀ b ∈ handedOut, b.base + b.size ≤ next

/-- The next multiple of 8. -/
def align8 (n : Nat) : Nat := (n + 7) / 8 * 8

theorem le_align8 (n : Nat) : n ≤ align8 n := by
  rw [align8]
  omega

/-- Hand out the bytes at the bump pointer, up to the given limit. -/
def Arena.bump (limit : Nat) (m : Memory) (h : Arena) (size : Nat) :
    Option (Nat × Memory × Arena) :=
  if h.next + size ≤ limit then
    some (h.next, m, ⟨align8 (h.next + size), ⟨h.next, size⟩ :: h.handedOut,
      forall_mem_cons.mpr ⟨le_align8 _, fun b hb =>
        (h.passed b hb).trans ((Nat.le_add_right _ _).trans (le_align8 _))⟩⟩)
  else none

/-- The bump allocator below a limit. -/
def bumpMalloc (limit : Nat) (hlimit : limit ≤ 2 ^ 32) : Malloc Arena where
  alloc := Arena.bump limit
  blocks := Arena.handedOut
  granted := by
    intro m h size p m' h' heq
    rw [Arena.bump] at heq
    split at heq
    · next hfits =>
      cases heq
      exact ⟨rfl, fun b hb => Or.inl (h.passed b hb), hfits.trans hlimit, AgreeOff.refl _ _⟩
    · exact nomatch heq

end WordMemory
