import Js2Wasm.Linear.ArenaArrays
import Js2Wasm.Linear.HashRuns

/-! # Arrays and hash tables on one heap

A program calls the array runtime and the map and set runtimes in any order.  Both ask the
same `__malloc`; each writes only to blocks of its own, so a call of one leaves what the
other has built. -/
namespace Js2Wasm.Linear

open WordMemory

inductive SharedOp where
  | array (op : ArrayOp)
  | table (op : TableOp)

structure SharedState {σ : Type} (M : Malloc σ) where
  mem : Memory
  /-- The blocks of the tables and of the strings. -/
  tableBlocks : List Block
  heap : Client M tableBlocks
  pointers : List Nat
  tables : List (TableKind × Nat)

section
variable {σ : Type} (M : Malloc σ) (fuel : Nat)

/-- Before the first call. -/
def SharedState.start (m : Memory) (h : σ) : SharedState M :=
  ⟨m, M.blocks h, ⟨h, [], fun _ hb => hb, fun _ hb => nomatch hb⟩, [], []⟩

/-- One call: the state after it and the answer. -/
def stepShared (s : SharedState M) : SharedOp → Except Halt (SharedState M × Nat)
  | .array op =>
    match stepArray (M.beside s.tableBlocks) fuel ⟨s.mem, s.heap, s.pointers⟩ op with
    | .error e => .error e
    | .ok (a, v) => .ok (⟨a.mem, s.tableBlocks, a.heap, a.pointers, s.tables⟩, v)
  | .table op =>
    match stepTable (M.beside s.heap.own) fuel ⟨s.mem, s.heap.swap, s.tables⟩ op with
    | .error e => .error e
    | .ok (t, v) => .ok (⟨t.mem, t.heap.own, t.heap.swap, s.pointers, t.tables⟩, v)

end

/-! ### The specification -/

/-- The arrays as lists, and the tables as finite maps. -/
structure AbsShared where
  arrays : AbsArrays
  tables : List AbsTable

section
variable (strings : Strings) (a : AbsShared)

def AbsShared.step : SharedOp → AbsShared × Nat
  | .array op => (⟨(a.arrays.step op).1, a.tables⟩, (a.arrays.step op).2)
  | .table op => (⟨a.arrays, (absStep strings a.tables op).1⟩, (absStep strings a.tables op).2)

/-- The pointer is one the program has; the key is present or has room, and the size of a new
table is a positive 32-bit number. -/
def AbsShared.Takes : SharedOp → Prop
  | .array op => a.arrays.Has op
  | .table op => Admits strings a.tables op

def AbsShared.TakesAll : AbsShared → List SharedOp → Prop
  | _, [] => True
  | a, op :: ops => a.Takes strings op ∧ TakesAll (a.step strings op).1 ops

end

section
variable {σ : Type} {M : Malloc σ} (strings : Strings)

/-- **The state stands for both**, each in blocks of its own. -/
structure SharesHeap (s : SharedState M) (a : AbsShared) : Prop where
  arrays : ∃ nodes, StandsFor (M.beside s.tableBlocks) ⟨s.mem, s.heap, s.pointers⟩ a.arrays nodes
  tables : Represents (M.beside s.heap.own) strings ⟨s.mem, s.heap.swap, s.tables⟩ a.tables

/-- The blocks of the runtime that is not called. -/
def SharedState.others (s : SharedState M) : SharedOp → List Block
  | .array _ => s.tableBlocks
  | .table _ => s.heap.own

/-- No byte of the other runtime's blocks has changed. -/
def KeepsOthers (s s' : SharedState M) (op : SharedOp) : Prop :=
  ∀ b ∈ s.others op, ∀ x, b.Has x → s'.mem x = s.mem x

/-- The run of a program: every call answers as the specification does, keeps the state
standing for it and writes to no block of the other runtime, or stops the program. -/
def BehavesShared (fuel : Nat) : SharedState M → AbsShared → List SharedOp → Prop
  | _, _, [] => True
  | s, a, op :: ops =>
    Stops (stepShared M fuel s op) ∨
      ∃ s', stepShared M fuel s op = .ok (s', (a.step strings op).2) ∧
        SharesHeap strings s' (a.step strings op).1 ∧ KeepsOthers s s' op ∧
        BehavesShared fuel s' (a.step strings op).1 ops

variable {strings} {s : SharedState M} {a : AbsShared} {fuel : Nat}

/-- **One call.**  A call of one runtime writes to none of the other's blocks. -/
theorem SharesHeap.step (h : SharesHeap strings s a) (hfuel : 2 ^ 32 ≤ fuel) (op : SharedOp)
    (hop : a.Takes strings op) :
    Stops (stepShared M fuel s op) ∨
      ∃ s', stepShared M fuel s op = .ok (s', (a.step strings op).2) ∧
        SharesHeap strings s' (a.step strings op).1 ∧ KeepsOthers s s' op := by
  obtain ⟨⟨nodes, harrays⟩, htables⟩ := h
  cases op with
  | array op =>
    rw [stepShared]
    rcases harrays.step hfuel op hop
      with ⟨e, he, hne⟩ | ⟨s', v, nodes', hok, rfl, harrays', -, hstays⟩
    · rw [he]
      exact Or.inl ⟨e, rfl, hne⟩
    · rw [hok]
      have hkeeps : ∀ b ∈ s.tableBlocks, ∀ x, b.Has x → s'.mem x = s.mem x := fun b hb x hx =>
        hstays x fun n hn _ =>
          (s'.heap.apart _ (harrays'.holds.granted n hn) b hb).symm.not_has hx
      exact Or.inr ⟨_, rfl, ⟨⟨nodes', harrays'⟩, htables.frame fun b hb => ⟨hb, hkeeps b hb⟩⟩,
        hkeeps⟩
  | table op =>
    rw [stepShared]
    rcases htables.stepFrame (fun ht => (htables.cap_le ht).trans hfuel) op hop
      with ⟨-, he⟩ | ⟨t, hok, htables', hframe⟩
    · rw [he]
      exact Or.inl ⟨_, rfl, nofun⟩
    · rw [hok]
      have hkeeps : ∀ b ∈ s.heap.own, ∀ x, b.Has x → t.mem x = s.mem x := fun b hb x hx =>
        hframe x fun c hc hcx => (t.heap.apart c hc b hb).not_has hcx hx
      exact Or.inr ⟨_, rfl, ⟨⟨nodes, harrays.frame fun b hb => ⟨hb, hkeeps b hb⟩⟩, htables'⟩,
        hkeeps⟩

theorem SharesHeap.run (h : SharesHeap strings s a) (hfuel : 2 ^ 32 ≤ fuel) (ops : List SharedOp)
    (hops : a.TakesAll strings ops) : BehavesShared strings fuel s a ops := by
  induction ops generalizing s a with
  | nil => trivial
  | cons op ops ih =>
    exact (h.step hfuel op hops.1).imp_right
      fun ⟨s', hok, h', hkeeps⟩ => ⟨s', hok, h', hkeeps, ih h' hops.2⟩

/-- **Arrays and tables share a heap.**  From any state of the allocator in which the
strings lie in blocks, every call of either runtime answers as if it had the memory to
itself, or stops by itself. -/
theorem arrays_beside_tables (m : Memory) (h : σ) (hfresh : Fresh M strings ⟨m, h, []⟩)
    (ops : List SharedOp) (hops : AbsShared.TakesAll strings ⟨⟨[], []⟩, []⟩ ops)
    (hfuel : 2 ^ 32 ≤ fuel) :
    BehavesShared strings fuel (.start M m h) ⟨⟨[], []⟩, []⟩ ops := by
  have htables : Fresh (M.beside []) strings ⟨m, (SharedState.start M m h).heap.swap, []⟩ :=
    ⟨rfl, hfresh.stringsIn, hfresh.inBlock⟩
  exact SharesHeap.run ⟨⟨[], .empty m _⟩, htables.represents⟩ hfuel ops hops

/-- A table between the two blocks of an array that is relocated. -/
theorem arrays_beside_tables_relocated :
    BehavesShared (fun _ => none) (2 ^ 32)
      (.start smallMalloc (fun _ => 0) ⟨8, [], fun _ h => nomatch h⟩) ⟨⟨[], []⟩, []⟩
      [.array (.new 1), .table (.new numMap 2), .table (.put 0 5 7), .array (.push 0 8),
        .array (.push 0 9), .table (.get 0 5), .array (.get 0 1)] := by
  refine arrays_beside_tables _ _ emptyProgram_fresh _ ?_ .refl
  refine ⟨trivial, ⟨by decide, by decide⟩, ⟨_, rfl, nofun, Or.inr (by decide)⟩, Nat.one_pos,
    Nat.one_pos, ⟨_, rfl, rfl, nofun, Or.inl (by decide)⟩, Nat.one_pos, trivial⟩

end

end Js2Wasm.Linear
