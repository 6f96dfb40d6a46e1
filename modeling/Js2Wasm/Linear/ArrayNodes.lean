import Js2Wasm.Lib.Allocator
import Mathlib.Data.List.Nodup
import Mathlib.Data.List.Perm.Subperm
import Mathlib.Data.List.Range

/-! # The arrays of the linear-memory runtime

    [header 8B][len:u32 at +8][cap:u32 at +12][elements: 8B×cap at +16...]

Byte 0 of the header is the tag of an array.  When an array outgrows its capacity it moves
to a new block, and the old header becomes a forwarding record: another tag, and the new
pointer in the second word.  Every accessor first follows the forwarding records.

Every block ever allocated for an array is a node.  An array has one live node, which holds
its elements; its other nodes forward to a later node.  The nodes are listed in the order
of allocation, so following the forwarding records goes up the list and ends.
-/
namespace Js2Wasm.Linear
open List WordMemory

/-- The tag of an array. -/
def arrayTag : Nat := 1

/-- `LINEAR_ARRAY_FORWARDING.tag` -/
def forwardingTag : Nat := 6

/-- `LINEAR_ARRAY_FORWARDING.pointerOffset` -/
def forwardingPointerOffset : Nat := 4

/-! ### Allocation sizes -/

def maximumCapacity : Nat := (0xffffffff - 16) / 8

def maximumCapacityBeforeDoubling : Nat := maximumCapacity / 2

def checkedArrayAllocationSize (cap : Nat) : Except Halt Nat :=
  if maximumCapacity < cap then .error .trap else .ok (add32 16 (mul32 cap 8))

def checkedArrayCapacityDoubling (cap : Nat) : Except Halt Nat :=
  if maximumCapacityBeforeDoubling < cap then .error .trap else .ok (mul32 cap 2)

section
variable {σ : Type} (M : Malloc σ) (fuel : Nat)

/-! ### The functions of the runtime -/

/-- `__arr_resolve`: follow the forwarding records. -/
def arrResolve (m : Memory) : Nat → Nat → Except Halt Nat
  | 0, _ => .error .outOfFuel
  | fuel + 1, ptr =>
    if (m ptr).toNat ≠ forwardingTag then .ok ptr
    else arrResolve m fuel (load32 m (ptr + forwardingPointerOffset))

/-- `__arr_new` -/
def arrNew (m : Memory) (h : σ) (cap : Nat) : Except Halt (Nat × Memory × σ) :=
  match checkedArrayAllocationSize cap with
  | .error e => .error e
  | .ok size =>
    match M.alloc m h size with
    | none => .error .outOfMemory
    | some (ptr, m, h) =>
      let m := store8 m ptr arrayTag
      let m := store32 m (ptr + 8) 0
      .ok (ptr, store32 m (ptr + 12) cap, h)

/-- A loop that stores `val` into `n` slots from slot `i` on. -/
def storeSlots (ptr : Nat) (val : Memory → Nat → Nat) : Nat → Nat → Memory → Memory
  | 0, _, m => m
  | n + 1, i, m =>
    storeSlots ptr val n (add32 i 1) (store64 m (add32 ptr (mul32 i 8) + 16) (val m i))

/-- The copy loop of `__arr_grow`. -/
def copySlots (newPtr ptr : Nat) : Nat → Nat → Memory → Memory :=
  storeSlots newPtr fun m i => load64 m (add32 ptr (mul32 i 8) + 16)

/-- The fill loop of `__arr_set`. -/
def zeroSlots (ptr : Nat) : Nat → Nat → Memory → Memory := storeSlots ptr fun _ _ => 0

/-- The capacity `__arr_grow` settles on. -/
def grownCapacity (doubled minCap : Nat) : Nat :=
  let newCap := if doubled < minCap then minCap else doubled
  if newCap < 4 then 4 else newCap

/-- `__arr_grow`: move to a new block and forward the old header. -/
def arrGrow (m : Memory) (h : σ) (ptr minCap : Nat) : Except Halt (Nat × Memory × σ) :=
  let len := load32 m (ptr + 8)
  match checkedArrayCapacityDoubling (load32 m (ptr + 12)) with
  | .error e => .error e
  | .ok doubled =>
    let newCap := grownCapacity doubled minCap
    match checkedArrayAllocationSize newCap with
    | .error e => .error e
    | .ok size =>
      match M.alloc m h size with
      | none => .error .outOfMemory
      | some (newPtr, m, h) =>
        let m := store8 m newPtr arrayTag
        let m := store32 m (newPtr + 8) len
        let m := store32 m (newPtr + 12) newCap
        let m := copySlots newPtr ptr len 0 m
        let m := store8 m ptr forwardingTag
        .ok (newPtr, store32 m (ptr + forwardingPointerOffset) newPtr, h)

/-- Grow if `needed` slots do not fit, as `__arr_push` and `__arr_set` do. -/
def arrReserve (m : Memory) (h : σ) (ptr needed : Nat) (full : Bool) :
    Except Halt (Nat × Memory × σ) :=
  if full then arrGrow M m h ptr needed else .ok (ptr, m, h)

/-- `__arr_push` -/
def arrPush (m : Memory) (h : σ) (ptr val : Nat) : Except Halt (Memory × σ) :=
  match arrResolve m fuel ptr with
  | .error e => .error e
  | .ok ptr =>
    let len := load32 m (ptr + 8)
    match arrReserve M m h ptr (add32 len 1) (load32 m (ptr + 12) ≤ len) with
    | .error e => .error e
    | .ok (ptr, m, h) =>
      let m := store64 m (add32 ptr (mul32 len 8) + 16) val
      .ok (store32 m (ptr + 8) (add32 len 1), h)

/-- `__arr_get`: 0 out of bounds. -/
def arrGet (m : Memory) (ptr idx : Nat) : Except Halt Nat :=
  match arrResolve m fuel ptr with
  | .error e => .error e
  | .ok ptr =>
    if load32 m (ptr + 8) ≤ idx then .ok 0
    else .ok (load64 m (add32 ptr (mul32 idx 8) + 16))

/-- `__arr_set`: a negative index is dropped. -/
def arrSet (m : Memory) (h : σ) (ptr idx val : Nat) : Except Halt (Memory × σ) :=
  if signed32 idx < 0 then .ok (m, h)
  else
    match arrResolve m fuel ptr with
    | .error e => .error e
    | .ok ptr =>
      match arrReserve M m h ptr (add32 idx 1) (load32 m (ptr + 12) ≤ idx) with
      | .error e => .error e
      | .ok (ptr, m, h) =>
        let len := load32 m (ptr + 8)
        let m := zeroSlots ptr (idx - len) len m
        let m := if load32 m (ptr + 8) ≤ idx then store32 m (ptr + 8) (add32 idx 1) else m
        .ok (store64 m (add32 ptr (mul32 idx 8) + 16) val, h)

/-- `__arr_len` -/
def arrLen (m : Memory) (ptr : Nat) : Except Halt Nat :=
  match arrResolve m fuel ptr with
  | .error e => .error e
  | .ok ptr => .ok (load32 m (ptr + 8))

/-- The loop of `__arr_slice`: `n` elements from index `i` on. -/
def sliceLoop (newArr arr : Nat) : Nat → Nat → Memory → σ → Except Halt (Memory × σ)
  | 0, _, m, h => .ok (m, h)
  | n + 1, i, m, h =>
    match arrGet fuel m arr i with
    | .error e => .error e
    | .ok v =>
      match arrPush M fuel m h newArr v with
      | .error e => .error e
      | .ok (m, h) => sliceLoop newArr arr n (add32 i 1) m h

/-- `__arr_slice`: the elements from `start` to `end`, signed, in a new array. -/
def arrSlice (m : Memory) (h : σ) (arr start stop : Nat) : Except Halt (Nat × Memory × σ) :=
  match arrNew M m h 16 with
  | .error e => .error e
  | .ok (newArr, m, h) =>
    match sliceLoop M fuel newArr arr (signed32 stop - signed32 start).toNat start m h with
    | .error e => .error e
    | .ok (m, h) => .ok (newArr, m, h)

end

/-! ## Arrays and their blocks -/

/-- A block allocated for the array number `owner`. -/
structure Node where
  base : Nat
  cap : Nat
  owner : Nat
deriving DecidableEq

def Node.block (n : Node) : Block := ⟨n.base, 16 + n.cap * 8⟩

/-- The address of slot `i`. -/
def slotAt (base i : Nat) : Nat := base + 16 + i * 8

/-- The node holds the elements of its array. -/
structure LiveAt (m : Memory) (n : Node) (xs : List Nat) : Prop where
  tag : (m n.base).toNat = arrayTag
  len : load32 m (n.base + 8) = xs.length
  cap : load32 m (n.base + 12) = n.cap
  room : xs.length ≤ n.cap
  slots : ∀ i < xs.length, load64 m (slotAt n.base i) = xs[i]?.getD 0

/-- The node has been left for another one. -/
structure ForwardedTo (m : Memory) (n n' : Node) : Prop where
  tag : (m n.base).toNat = forwardingTag
  target : load32 m (n.base + forwardingPointerOffset) = n'.base

/-- The nodes are blocks of the heap of their own. -/
structure Allocated {σ : Type} (M : Malloc σ) (h : σ) (nodes : List Node) : Prop where
  granted : ∀ n ∈ nodes, n.block ∈ M.blocks h
  fits : ∀ n ∈ nodes, n.base + 16 + n.cap * 8 ≤ 2 ^ 32
  cap_le : ∀ n ∈ nodes, n.cap ≤ maximumCapacity
  apart : ∀ {k k' : Nat} {n n' : Node}, nodes[k]? = some n → nodes[k']? = some n' → k ≠ k' →
    n.block.Apart n'.block

/-- **The memory stands for the arrays.** -/
structure HoldsArrays {σ : Type} (M : Malloc σ) (m : Memory) (h : σ) (arrays : List (List Nat))
    (nodes : List Node) : Prop extends Allocated M h nodes where
  owner_lt : ∀ n ∈ nodes, n.owner < arrays.length
  node : ∀ {k : Nat} {n : Node}, nodes[k]? = some n → LiveAt m n (arrays[n.owner]?.getD []) ∨
    ∃ (k' : Nat) (n' : Node), k < k' ∧ nodes[k']? = some n' ∧ n'.owner = n.owner ∧ ForwardedTo m n n'
  unique : ∀ {k k' : Nat} {n n' : Node}, nodes[k]? = some n → nodes[k']? = some n' →
    n.owner = n'.owner → (m n.base).toNat = arrayTag → (m n'.base).toNat = arrayTag → k = k'

/-- The pointer `p` was allocated for the array number `i`. -/
def Alias (nodes : List Node) (p i : Nat) : Prop := ∃ n ∈ nodes, n.base = p ∧ n.owner = i

section
variable {m m' : Memory} {n n' : Node} {xs : List Nat} {i : Nat}

theorem Node.block_has {x : Nat} (h : n.base ≤ x) (h' : x < n.base + 16 + n.cap * 8) :
    n.block.Has x := ⟨h, by rw [Node.block]; exact Nat.add_assoc n.base 16 _ ▸ h'⟩

/-- The address the code computes does not wrap. -/
theorem slotAddr_eq (hfits : n.base + 16 + n.cap * 8 ≤ 2 ^ 32) (hi : i < n.cap) :
    add32 n.base (mul32 i 8) + 16 = slotAt n.base i := by
  rw [mul32_of_lt (by lia), add32_of_lt (by lia), slotAt]
  lia

theorem LiveAt.congr (h : LiveAt m n xs) (hm : ∀ x, n.block.Has x → m' x = m x) :
    LiveAt m' n xs := by
  have hin : ∀ {x}, n.base ≤ x → x < n.base + 16 + n.cap * 8 → m' x = m x :=
    fun hx hx' => hm _ (Node.block_has hx hx')
  have hroom := h.room
  refine ⟨?_, ?_, ?_, hroom, fun i hi => ?_⟩
  · rw [hin .refl (by lia)]
    exact h.tag
  · rw [load32_congr (m := m) fun x hx hx' => hin (by lia) (by lia)]
    exact h.len
  · rw [load32_congr (m := m) fun x hx hx' => hin (by lia) (by lia)]
    exact h.cap
  · rw [slotAt, load64_congr (m := m) fun x hx hx' => hin (by lia) (by lia)]
    exact h.slots i hi

theorem ForwardedTo.congr (h : ForwardedTo m n n') (hm : ∀ x, n.block.Has x → m' x = m x) :
    ForwardedTo m' n n' := by
  have hin : ∀ {x}, n.base ≤ x → x < n.base + 16 + n.cap * 8 → m' x = m x :=
    fun hx hx' => hm _ (Node.block_has hx hx')
  refine ⟨?_, ?_⟩
  · rw [hin .refl (by lia)]
    exact h.tag
  · rw [forwardingPointerOffset, load32_congr (m := m) fun x hx hx' => hin (by lia) (by lia)]
    exact h.target

theorem LiveAt.not_forwarded (h : LiveAt m n xs) : (m n.base).toNat ≠ forwardingTag := by
  rw [h.tag]
  decide

variable {σ : Type} {M : Malloc σ} {h : σ} {arrays : List (List Nat)} {nodes : List Node}
  {k p fuel : Nat}

section
variable (hr : HoldsArrays M m h arrays nodes)
include hr

/-! ### Following the forwarding records -/

/-- There is at most one node for every address. -/
theorem HoldsArrays.length_le : nodes.length ≤ 2 ^ 32 := by
  have hnodup : (nodes.map Node.base).Nodup := by
    rw [nodup_iff_injective_getElem]
    rintro ⟨k, hk⟩ ⟨k', hk'⟩ heq
    rw [length_map] at hk hk'
    simp only [getElem_map] at heq
    by_contra hne
    have hkk : k ≠ k' := fun he => hne (Fin.ext he)
    rcases hr.apart (getElem?_eq_getElem hk) (getElem?_eq_getElem hk') hkk with hap | hap
    all_goals
      rw [Node.block, Node.block] at hap
      simp only at hap
      lia
  have hsub : nodes.map Node.base ⊆ range (2 ^ 32) := by
    intro b hb
    obtain ⟨n, hn, rfl⟩ := mem_map.mp hb
    have hfits := hr.fits n hn
    exact mem_range.mpr (by lia)
  have hle := (subperm_of_subset hnodup hsub).length_le
  rwa [length_map, length_range] at hle

theorem HoldsArrays.resolve_index :
    ∀ (d k : Nat) (n : Node) (fuel : Nat), nodes[k]? = some n → nodes.length ≤ k + d → d ≤ fuel →
      ∃ (k' : Nat) (n' : Node), nodes[k']? = some n' ∧ n'.owner = n.owner ∧
        LiveAt m n' (arrays[n.owner]?.getD []) ∧ arrResolve m fuel n.base = .ok n'.base := by
  intro d
  induction d with
  | zero =>
    intro k n fuel hk hlen _
    have hlt := (List.getElem?_eq_some_iff.mp hk).1
    lia
  | succ d ih =>
    intro k n fuel hk hlen hfuel
    obtain ⟨fuel, rfl⟩ := Nat.exists_eq_succ_of_ne_zero (Nat.ne_of_gt (by lia : 0 < fuel))
    rcases hr.node hk with hlive | ⟨k', n', hkk, hk', hown, hfwd⟩
    · exact ⟨k, n, hk, rfl, hlive, by rw [arrResolve, if_pos hlive.not_forwarded]⟩
    · obtain ⟨k'', n'', hk'', hown', hlive, hres⟩ := ih k' n' fuel hk' (by lia) (by lia)
      refine ⟨k'', n'', hk'', hown'.trans hown, hown ▸ hlive, ?_⟩
      rw [arrResolve, if_neg (not_not.mpr hfwd.tag), hfwd.target]
      exact hres

/-- **Every pointer of an array resolves to its live node.** -/
theorem HoldsArrays.resolve (ha : Alias nodes p i) (hfuel : 2 ^ 32 ≤ fuel) :
    ∃ (k : Nat) (n : Node), nodes[k]? = some n ∧ n.owner = i ∧ LiveAt m n (arrays[i]?.getD []) ∧
      arrResolve m fuel p = .ok n.base := by
  obtain ⟨n, hn, rfl, rfl⟩ := ha
  obtain ⟨k, hk⟩ := mem_iff_getElem?.mp hn
  exact hr.resolve_index nodes.length k n fuel hk (Nat.le_add_left _ _)
    (hr.length_le.trans hfuel)

/-! ### Writing to the live node -/

/-- A write to the live node of one array. -/
theorem HoldsArrays.write (hk : nodes[k]? = some n) (hlive : LiveAt m n xs)
    (hagree : AgreeOff n.block m m') {ys : List Nat} (hlive' : LiveAt m' n ys) :
    HoldsArrays M m' h (arrays.set n.owner ys) nodes := by
  have hsame : ∀ {k' : Nat} {n' : Node}, nodes[k']? = some n' → k' ≠ k → ∀ x, n'.block.Has x → m' x = m x :=
    fun hk' hne x hx => hagree x ((hr.apart hk' hk hne).not_has hx)
  have htag : ∀ {k' : Nat} {n' : Node}, nodes[k']? = some n' → m' n'.base = m n'.base ∨ k' = k := by
    intro k' n' hk'
    by_cases hne : k' = k
    · exact Or.inr hne
    · exact Or.inl (hsame hk' hne _ (Node.block_has .refl (by lia)))
  have hlt := hr.owner_lt n (mem_of_getElem? hk)
  refine ⟨hr.toAllocated, ?_, ?_, ?_⟩
  · intro n' hn'
    rw [length_set]
    exact hr.owner_lt n' hn'
  · intro k' n' hk'
    by_cases hne : k' = k
    · subst hne
      obtain rfl := Option.some.inj (hk'.symm.trans hk)
      rw [getElem?_set_self hlt]
      exact Or.inl hlive'
    · rcases hr.node hk' with hl | ⟨k'', n'', hkk, hk'', hown, hfwd⟩
      · have howner : n.owner ≠ n'.owner := fun he =>
          hne (hr.unique hk' hk he.symm hl.tag hlive.tag)
        rw [getElem?_set_ne howner]
        exact Or.inl (hl.congr (hsame hk' hne))
      · exact Or.inr ⟨k'', n'', hkk, hk'', hown, hfwd.congr (hsame hk' hne)⟩
  · have hold : ∀ {k' : Nat} {n' : Node}, nodes[k']? = some n' → (m' n'.base).toNat = arrayTag →
        (m n'.base).toNat = arrayTag := by
      intro k' n' hk' ht
      rcases htag hk' with heq | rfl
      · rwa [heq] at ht
      · obtain rfl := Option.some.inj (hk'.symm.trans hk)
        exact hlive.tag
    intro k' k'' n' n'' hk' hk'' hown ht ht'
    exact hr.unique hk' hk'' hown (hold hk' ht) (hold hk'' ht')

end

end

end Js2Wasm.Linear
