import Js2Wasm.Linear.ArrayAccess

/-! # Programs over linear arrays

A program makes any number of arrays and keeps every pointer it has been given for them,
however often the arrays are relocated afterwards.  The specification keeps a growable list
for each array and, for each pointer, the array it was given for.
-/
namespace Js2Wasm.Linear
open List WordMemory

/-- A call; the pointers the program has been given are numbered in order. -/
inductive ArrayOp where
  | new (cap : UInt32)
  | push (r : Nat) (val : UInt64)
  | set (r : Nat) (idx : UInt32) (val : UInt64)
  | get (r : Nat) (idx : UInt32)
  | len (r : Nat)
  | slice (r : Nat) (start stop : UInt32)
  /-- The program keeps the current pointer of an array, as compiled loops do. -/
  | resolve (r : Nat)

structure ArrayState (σ : Type) where
  mem : Memory
  heap : σ
  pointers : List Nat

/-- One call: the state after it and the answer. -/
def stepArray {σ : Type} (M : Malloc σ) (fuel : Nat) (s : ArrayState σ) :
    ArrayOp → Except Halt (ArrayState σ × Nat)
  | .new cap =>
    match arrNew M s.mem s.heap cap.toNat with
    | .error e => .error e
    | .ok (p, m, h) => .ok (⟨m, h, s.pointers ++ [p]⟩, 0)
  | .push r val =>
    match s.pointers[r]? with
    | none => .error .trap
    | some p =>
      match arrPush M fuel s.mem s.heap p val.toNat with
      | .error e => .error e
      | .ok (m, h) => .ok (⟨m, h, s.pointers⟩, 0)
  | .set r idx val =>
    match s.pointers[r]? with
    | none => .error .trap
    | some p =>
      match arrSet M fuel s.mem s.heap p idx.toNat val.toNat with
      | .error e => .error e
      | .ok (m, h) => .ok (⟨m, h, s.pointers⟩, 0)
  | .get r idx =>
    match s.pointers[r]? with
    | none => .error .trap
    | some p =>
      match arrGet fuel s.mem p idx.toNat with
      | .error e => .error e
      | .ok v => .ok (s, v)
  | .len r =>
    match s.pointers[r]? with
    | none => .error .trap
    | some p =>
      match arrLen fuel s.mem p with
      | .error e => .error e
      | .ok v => .ok (s, v)
  | .slice r start stop =>
    match s.pointers[r]? with
    | none => .error .trap
    | some p =>
      match arrSlice M fuel s.mem s.heap p start.toNat stop.toNat with
      | .error e => .error e
      | .ok (q, m, h) => .ok (⟨m, h, s.pointers ++ [q]⟩, 0)
  | .resolve r =>
    match s.pointers[r]? with
    | none => .error .trap
    | some p =>
      match arrResolve s.mem fuel p with
      | .error e => .error e
      | .ok q => .ok (⟨s.mem, s.heap, s.pointers ++ [q]⟩, 0)

/-! ### The specification -/

/-- The arrays as lists, and the array of each pointer. -/
structure AbsArrays where
  arrays : List (List Nat)
  refs : List Nat

namespace AbsArrays
variable (a : AbsArrays)

/-- The array of a pointer. -/
def arrayOf (r : Nat) : Nat := a.refs[r]?.getD 0

def contents (r : Nat) : List Nat := a.arrays[a.arrayOf r]?.getD []

/-- The array that a call may write to. -/
def target : ArrayOp → Nat
  | .new _ | .slice _ _ _ => a.arrays.length
  | .push r _ | .set r _ _ | .get r _ | .len r | .resolve r => a.arrayOf r

def step : ArrayOp → AbsArrays × Nat
  | .new _ => (⟨a.arrays ++ [[]], a.refs ++ [a.arrays.length]⟩, 0)
  | .push r val => (⟨a.arrays.set (a.arrayOf r) (a.contents r ++ [val.toNat]), a.refs⟩, 0)
  | .set r idx val =>
    (⟨a.arrays.set (a.arrayOf r) (absSet (a.contents r) (signed32 idx.toNat) val.toNat), a.refs⟩, 0)
  | .get r idx => (a, absGet (a.contents r) (signed32 idx.toNat))
  | .len r => (a, (a.contents r).length)
  | .slice r start stop =>
    (⟨a.arrays ++ [absSlice (a.contents r) (signed32 start.toNat) (signed32 stop.toNat)],
      a.refs ++ [a.arrays.length]⟩, 0)
  | .resolve r => (⟨a.arrays, a.refs ++ [a.arrayOf r]⟩, 0)

/-- The call uses a pointer the program has. -/
def Has : ArrayOp → Prop
  | .new _ => True
  | .push r _ | .set r _ _ | .get r _ | .len r | .slice r _ _ | .resolve r => r < a.refs.length

/-- Every call uses a pointer the program has by then. -/
def HasAll : AbsArrays → List ArrayOp → Prop
  | _, [] => True
  | a, op :: ops => a.Has op ∧ HasAll (a.step op).1 ops

end AbsArrays

/-- **The state stands for the lists.** -/
structure StandsFor {σ : Type} (M : Malloc σ) (s : ArrayState σ) (a : AbsArrays)
    (nodes : List Node) : Prop where
  holds : HoldsArrays M s.mem s.heap a.arrays nodes
  length : s.pointers.length = a.refs.length
  isAlias : ∀ {r p i : Nat}, s.pointers[r]? = some p → a.refs[r]? = some i → Alias nodes p i

/-- What a call does when it returns: it answers as the lists do, every pointer still stands
for its array, and no byte outside of the blocks of its own array has changed. -/
def Follows {σ : Type} (M : Malloc σ) (s : ArrayState σ) (a : AbsArrays) (nodes : List Node)
    (op : ArrayOp) (s' : ArrayState σ) (v : Nat) (nodes' : List Node) : Prop :=
  v = (a.step op).2 ∧ StandsFor M s' (a.step op).1 nodes' ∧ Grows (a.target op) nodes nodes' ∧
    Stays (a.target op) nodes' s.mem s'.mem

/-- The run of a program: every call follows the lists, or stops the program. -/
def Behaves {σ : Type} (M : Malloc σ) (fuel : Nat) :
    ArrayState σ → AbsArrays → List Node → List ArrayOp → Prop
  | _, _, _, [] => True
  | s, a, nodes, op :: ops =>
    Stops (stepArray M fuel s op) ∨
      ∃ s' v nodes', stepArray M fuel s op = .ok (s', v) ∧ Follows M s a nodes op s' v nodes' ∧
        Behaves M fuel s' (a.step op).1 nodes' ops

section
variable {σ : Type} {M : Malloc σ} {s : ArrayState σ} {a : AbsArrays} {nodes nodes' : List Node}
  {fuel r p : Nat}

/-- A pointer of the program. -/
theorem StandsFor.pointer (h : StandsFor M s a nodes) (hr : r < a.refs.length) :
    ∃ p, s.pointers[r]? = some p ∧ Alias nodes p (a.arrayOf r) := by
  have hr' : r < s.pointers.length := h.length ▸ hr
  refine ⟨s.pointers[r], getElem?_eq_getElem hr', ?_⟩
  rw [AbsArrays.arrayOf, getElem?_eq_getElem hr]
  exact h.isAlias (getElem?_eq_getElem hr') (getElem?_eq_getElem hr)

variable {arrays' : List (List Nat)} {i : Nat} {m' : Memory} {h' : σ}

/-- The pointers after a call that hands out none. -/
theorem StandsFor.same (h : StandsFor M s a nodes) (hw : Wrote M i s.mem nodes arrays' m' h' nodes') :
    StandsFor M ⟨m', h', s.pointers⟩ ⟨arrays', a.refs⟩ nodes' :=
  ⟨hw.holds, h.length, fun hp hi => (h.isAlias hp hi).grows hw.grows⟩

/-- The pointers after a call that hands out one. -/
theorem StandsFor.more {j q : Nat} (h : StandsFor M s a nodes)
    (hr : HoldsArrays M m' h' arrays' nodes') (hg : Grows i nodes nodes') (hq : Alias nodes' q j) :
    StandsFor M ⟨m', h', s.pointers ++ [q]⟩ ⟨arrays', a.refs ++ [j]⟩ nodes' := by
  refine ⟨hr, ?_, ?_⟩
  · rw [length_append, length_append, h.length]
    rfl
  · intro r p i hp hi
    rcases getElem?_snoc hi, getElem?_snoc hp with ⟨hold | ⟨rfl, rfl⟩, hold' | ⟨hr, rfl⟩⟩
    · exact (h.isAlias hold' hold).grows hg
    · exact absurd (List.getElem?_eq_some_iff.mp hold).1 (by rw [hr, h.length]; omega)
    · exact absurd (List.getElem?_eq_some_iff.mp hold').1 (by rw [h.length]; omega)
    · exact hq

/-- The arrays in a memory that agrees on the blocks of the heap. -/
theorem StandsFor.frame {σ' : Type} {M' : Malloc σ'} {h' : σ'} (h : StandsFor M s a nodes)
    (hin : Intact (M.blocks s.heap) (M'.blocks h') s.mem m') :
    StandsFor M' ⟨m', h', s.pointers⟩ a nodes := by
  have hnode {n : Node} (hn : n ∈ nodes) := hin _ (h.holds.granted n hn)
  have htag {k : Nat} {n : Node} (hk : nodes[k]? = some n) : m' n.base = s.mem n.base :=
    (hnode (mem_of_getElem? hk)).2 _ (Node.block_has .refl (by lia))
  refine ⟨⟨⟨fun n hn => (hnode hn).1, h.holds.fits, h.holds.cap_le, h.holds.apart⟩,
    h.holds.owner_lt, ?_, ?_⟩, h.length, h.isAlias⟩
  · intro k n hk
    have hsame := (hnode (mem_of_getElem? hk)).2
    rcases h.holds.node hk with hl | ⟨k', n', hlt, hk', hown, hf⟩
    · exact Or.inl (hl.congr hsame)
    · exact Or.inr ⟨k', n', hlt, hk', hown, hf.congr hsame⟩
  · intro k k' n n' hk hk' hown ht ht'
    exact h.holds.unique hk hk' hown (htag hk ▸ ht) (htag hk' ▸ ht')

theorem StandsFor.empty (m : Memory) (h : σ) : StandsFor M ⟨m, h, []⟩ ⟨[], []⟩ [] := by
  refine ⟨⟨⟨?_, ?_, ?_, ?_⟩, ?_, ?_, ?_⟩, rfl, ?_⟩ <;> simp

/-- **One call.** -/
theorem StandsFor.step (h : StandsFor M s a nodes) (hfuel : 2 ^ 32 ≤ fuel) (op : ArrayOp)
    (hop : a.Has op) :
    Stops (stepArray M fuel s op) ∨
      ∃ s' v nodes', stepArray M fuel s op = .ok (s', v) ∧ Follows M s a nodes op s' v nodes' := by
  have hstay : ∀ i, Stays i nodes s.mem s.mem := fun i x _ => rfl
  cases op with
  | new cap =>
    rw [stepArray]
    rcases h.holds.new cap.toNat with ⟨e, he, hne⟩ | ⟨m', h', n, hok, hown, hr, hagree⟩
    · rw [he]
      exact Or.inl ⟨e, rfl, hne⟩
    · have hg : Grows a.arrays.length nodes (nodes ++ [n]) :=
        ⟨[n], rfl, fun x hx => mem_singleton.mp hx ▸ hown⟩
      have hn : n ∈ nodes ++ [n] := mem_append_right _ (mem_singleton_self n)
      rw [hok]
      exact Or.inr ⟨_, _, nodes ++ [n], rfl, rfl, h.more hr hg ⟨n, hn, rfl, hown⟩, hg,
        stays_of_agree hn hown hagree⟩
  | push r val =>
    obtain ⟨p, hp, ha⟩ := h.pointer hop
    simp only [stepArray, hp]
    rcases h.holds.push ha hfuel val.toNat_lt with ⟨e, he, hne⟩ | ⟨m', h', nodes', hok, hw⟩
    · rw [he]
      exact Or.inl ⟨e, rfl, hne⟩
    · rw [hok]
      exact Or.inr ⟨_, _, nodes', rfl, rfl, h.same hw, hw.grows, hw.stays⟩
  | set r idx val =>
    obtain ⟨p, hp, ha⟩ := h.pointer hop
    simp only [stepArray, hp]
    rcases h.holds.set ha hfuel idx.toNat_lt val.toNat_lt
      with ⟨e, he, hne⟩ | ⟨m', h', nodes', hok, hw⟩
    · rw [he]
      exact Or.inl ⟨e, rfl, hne⟩
    · rw [hok]
      exact Or.inr ⟨_, _, nodes', rfl, rfl, h.same hw, hw.grows, hw.stays⟩
  | get r idx =>
    obtain ⟨p, hp, ha⟩ := h.pointer hop
    simp only [stepArray, hp, h.holds.get ha hfuel idx.toNat_lt]
    exact Or.inr ⟨s, _, nodes, rfl, rfl, h, Grows.refl _ _, hstay _⟩
  | len r =>
    obtain ⟨p, hp, ha⟩ := h.pointer hop
    simp only [stepArray, hp, h.holds.len ha hfuel]
    exact Or.inr ⟨s, _, nodes, rfl, rfl, h, Grows.refl _ _, hstay _⟩
  | slice r start stop =>
    obtain ⟨p, hp, ha⟩ := h.pointer hop
    simp only [stepArray, hp]
    rcases h.holds.slice ha hfuel start.toNat_lt stop.toNat_lt
      with ⟨e, he, hne⟩ | ⟨q, m', h', nodes', hok, hq, hw⟩
    · rw [he]
      exact Or.inl ⟨e, rfl, hne⟩
    · rw [hok]
      exact Or.inr ⟨_, _, nodes', rfl, rfl, h.more hw.holds hw.grows hq, hw.grows, hw.stays⟩
  | resolve r =>
    obtain ⟨p, hp, ha⟩ := h.pointer hop
    obtain ⟨k, n, hk, hown, -, hres⟩ := h.holds.resolve ha hfuel
    simp only [stepArray, hp, hres]
    have hq : Alias nodes n.base (a.arrayOf r) := ⟨n, mem_of_getElem? hk, rfl, hown⟩
    exact Or.inr ⟨_, _, nodes, rfl, rfl, h.more h.holds (Grows.refl (a.arrayOf r) _) hq,
      Grows.refl _ _, hstay _⟩

theorem StandsFor.run (h : StandsFor M s a nodes) (hfuel : 2 ^ 32 ≤ fuel) (ops : List ArrayOp)
    (hops : a.HasAll ops) : Behaves M fuel s a nodes ops := by
  induction ops generalizing s a nodes with
  | nil => trivial
  | cons op ops ih =>
    rcases h.step hfuel op hops.1 with hstop | ⟨s', v, nodes', hok, hf⟩
    · exact Or.inl hstop
    · exact Or.inr ⟨s', v, nodes', hok, hf, ih hf.2.1 hops.2⟩

/-- **Linear arrays refine growable lists.**  From any memory and any state of the
allocator, every call through any pointer ever given for an array answers as the list of
that array does and changes no byte outside of the array's own blocks, or stops by itself;
every forwarding walk ends. -/
theorem arrays_behave (M : Malloc σ) (m : Memory) (h : σ) (ops : List ArrayOp)
    (hops : (AbsArrays.mk [] []).HasAll ops) (fuel : Nat) (hfuel : 2 ^ 32 ≤ fuel) :
    Behaves M fuel ⟨m, h, []⟩ ⟨[], []⟩ [] ops := by
  have hempty : HoldsArrays M m h [] [] := by
    refine ⟨⟨?_, ?_, ?_, ?_⟩, ?_, ?_, ?_⟩
    · exact fun n hn => nomatch hn
    · exact fun n hn => nomatch hn
    · exact fun n hn => nomatch hn
    · exact fun hk => nomatch hk
    · exact fun n hn => nomatch hn
    all_goals exact fun hk => nomatch hk
  exact StandsFor.run ⟨hempty, rfl, fun hp => by simp at hp⟩ hfuel ops hops

/-- An array that is relocated, read through its first pointer. -/
theorem arrays_behave_relocated :
    Behaves (bumpMalloc 65536 (by decide)) (2 ^ 32) ⟨fun _ => 0, ⟨8, [], fun _ h => nomatch h⟩, []⟩
      ⟨[], []⟩ [] [.new 1, .push 0 5, .push 0 6, .get 0 1] :=
  arrays_behave _ _ _ [.new 1, .push 0 5, .push 0 6, .get 0 1]
    ⟨trivial, Nat.one_pos, Nat.one_pos, Nat.one_pos, trivial⟩ (2 ^ 32) .refl

end

end Js2Wasm.Linear
