import Js2Wasm.Linear.ArrayOps

/-! # Reading and writing through any pointer of an array

The operations that take a pointer first resolve it, so every pointer ever handed out for an
array reads and writes the same list.
-/
namespace Js2Wasm.Linear
open List WordMemory

/-- The later list has more nodes, all of array `i`. -/
def Grows (i : Nat) (nodes nodes' : List Node) : Prop :=
  ∃ more, nodes' = nodes ++ more ∧ ∀ n ∈ more, n.owner = i

/-- Only bytes in the blocks of array `i` have changed. -/
def Stays (i : Nat) (nodes : List Node) (m m' : Memory) : Prop :=
  ∀ x, (∀ n ∈ nodes, n.owner = i → ¬ n.block.Has x) → m' x = m x

/-- An operation on array `i` has taken the arrays to `arrays'`. -/
structure Wrote {σ : Type} (M : Malloc σ) (i : Nat) (m : Memory) (nodes : List Node)
    (arrays' : List (List Nat)) (m' : Memory) (h' : σ) (nodes' : List Node) : Prop where
  holds : HoldsArrays M m' h' arrays' nodes'
  grows : Grows i nodes nodes'
  stays : Stays i nodes' m m'

/-- The call stops by itself, or for want of memory. -/
def Stops {α : Type} (r : Except Halt α) : Prop := ∃ e, r = .error e ∧ e ≠ .outOfFuel

section
variable {σ : Type} {M : Malloc σ} {m m' m'' : Memory} {h h' h'' : σ} {arrays : List (List Nat)}
  {nodes nodes' nodes'' : List Node} {n n' : Node} {xs : List Nat} {k i j p fuel v idx : Nat}

theorem Grows.refl (i : Nat) (nodes : List Node) : Grows i nodes nodes :=
  ⟨[], (append_nil nodes).symm, fun _ h => nomatch h⟩

theorem Grows.trans (h : Grows i nodes nodes') (h' : Grows i nodes' nodes'') :
    Grows i nodes nodes'' := by
  obtain ⟨more, rfl, hmore⟩ := h
  obtain ⟨more', rfl, hmore'⟩ := h'
  refine ⟨more ++ more', append_assoc _ _ _, fun n hn => ?_⟩
  exact (mem_append.mp hn).elim (hmore n) (hmore' n)

theorem Grows.subset (h : Grows i nodes nodes') : nodes ⊆ nodes' := by
  obtain ⟨more, rfl, -⟩ := h
  exact subset_append_left _ _

theorem Alias.grows (ha : Alias nodes p j) (h : Grows i nodes nodes') : Alias nodes' p j := by
  obtain ⟨n, hn, hp⟩ := ha
  exact ⟨n, h.subset hn, hp⟩

/-- A write to a node of the array. -/
theorem stays_of_agree (hn : n ∈ nodes) (howner : n.owner = i) (h : AgreeOff n.block m m') :
    Stays i nodes m m' := fun x hx => h x (hx n hn howner)

theorem Stays.trans (h : Stays i nodes m m') (hg : Grows i nodes nodes')
    (h' : Stays i nodes' m' m'') : Stays i nodes' m m'' :=
  fun x hx => (h' x hx).trans (h x fun n hn => hx n (hg.subset hn))

theorem Wrote.trans {arrays' arrays'' : List (List Nat)}
    (h : Wrote M i m nodes arrays' m' h' nodes')
    (hw : Wrote M i m' nodes' arrays'' m'' h'' nodes'') :
    Wrote M i m nodes arrays'' m'' h'' nodes'' :=
  ⟨hw.holds, h.grows.trans hw.grows, h.stays.trans hw.grows hw.stays⟩

section
variable (hr : HoldsArrays M m h arrays nodes)
include hr

/-- A write to the live node. -/
theorem HoldsArrays.wrote (hk : nodes[k]? = some n) (hlive : LiveAt m n xs)
    (hagree : AgreeOff n.block m m') {ys : List Nat} (hlive' : LiveAt m' n ys) :
    Wrote M n.owner m nodes (arrays.set n.owner ys) m' h nodes where
  holds := hr.write hk hlive hagree hlive'
  grows := Grows.refl _ _
  stays := stays_of_agree (mem_of_getElem? hk) rfl hagree

/-! ### Making room -/

/-- The part that `__arr_push` and `__arr_set` share: afterwards the live node has room. -/
theorem HoldsArrays.reserve (hk : nodes[k]? = some n)
    (hlive : LiveAt m n (arrays[n.owner]?.getD [])) {needed : Nat} {full : Bool}
    (hfull : full = false → needed ≤ n.cap) :
    Stops (arrReserve M m h n.base needed full) ∨
      ∃ m' h' n' nodes', arrReserve M m h n.base needed full = .ok (n'.base, m', h') ∧
        (∃ k' : Nat, nodes'[k']? = some n') ∧ n'.owner = n.owner ∧ needed ≤ n'.cap ∧
        LiveAt m' n' (arrays[n.owner]?.getD []) ∧ Wrote M n.owner m nodes arrays m' h' nodes' := by
  rw [arrReserve]
  cases full with
  | false =>
    refine Or.inr ⟨m, h, n, nodes, rfl, ⟨k, hk⟩, rfl, hfull rfl, hlive, hr, Grows.refl _ _, ?_⟩
    exact fun x _ => rfl
  | true =>
    rw [if_pos rfl]
    rcases hr.grow hk hlive needed with hstop | ⟨m', h', n', hok, hown, hcap, hlive', hr', hagree⟩
    · exact Or.inl hstop
    · have hk' : (nodes ++ [n'])[nodes.length]? = some n' := getElem?_concat_length
      refine Or.inr ⟨m', h', n', nodes ++ [n'], hok, ⟨_, hk'⟩, hown, hcap, hlive', hr',
        ⟨[n'], rfl, fun x hx => mem_singleton.mp hx ▸ hown⟩, fun x hx => hagree x ?_ ?_⟩
      · exact hx n (mem_append_left _ (mem_of_getElem? hk)) rfl
      · exact hx n' (mem_of_getElem? hk') hown

/-! ### Reading -/

/-- **`__arr_len`** -/
theorem HoldsArrays.len (ha : Alias nodes p i) (hfuel : 2 ^ 32 ≤ fuel) :
    arrLen fuel m p = .ok (arrays[i]?.getD []).length := by
  obtain ⟨k, n, -, -, hlive, hres⟩ := hr.resolve ha hfuel
  rw [arrLen, hres]
  exact congrArg Except.ok hlive.len

/-- **`__arr_get`** -/
theorem HoldsArrays.get (ha : Alias nodes p i) (hfuel : 2 ^ 32 ≤ fuel) (hidx : idx < 2 ^ 32) :
    arrGet fuel m p idx = .ok (absGet (arrays[i]?.getD []) (signed32 idx)) := by
  obtain ⟨k, n, hk, -, hlive, hres⟩ := hr.resolve ha hfuel
  have hmem := mem_of_getElem? hk
  have hcap := hr.cap_le n hmem
  have hroom := hlive.room
  rw [arrGet, hres]
  simp only [hlive.len, absGet]
  generalize arrays[i]?.getD [] = xs at hlive hroom ⊢
  by_cases hlt : idx < xs.length
  · obtain ⟨hneg, hnat⟩ := signed32_of_lt_len (hroom.trans hcap) hlt
    rw [if_neg (Nat.not_le.mpr hlt), if_neg hneg, hnat,
      slotAddr_eq (hr.fits n hmem) (hlt.trans_le hroom), hlive.slots idx hlt]
  · rw [if_pos (Nat.not_lt.mp hlt)]
    by_cases hneg : signed32 idx < 0
    · rw [if_pos hneg]
    · have hnat : (signed32 idx).toNat = idx := by
        rw [signed32] at hneg ⊢
        split at hneg <;> lia
      rw [if_neg hneg, hnat, getElem?_eq_none (Nat.not_lt.mp hlt)]
      rfl

end

/-! ### Writing -/

/-- Storing one slot of the live node, and the length. -/
theorem LiveAt.store (hlive : LiveAt m n xs) (ys : List Nat) (hcap : n.cap < 2 ^ 32)
    (hv : v < 2 ^ 64) (hys : ys.length ≤ n.cap)
    (hslot : ys[idx]?.getD 0 = v)
    (hsame : ∀ j < ys.length, j ≠ idx → load64 m (slotAt n.base j) = ys[j]?.getD 0) :
    LiveAt (store32 (store64 m (slotAt n.base idx) v) (n.base + 8) ys.length) n ys := by
  have hlow : n.base + 16 ≤ slotAt n.base idx := by
    rw [slotAt]
    lia
  refine ⟨?_, ?_, ?_, hys, fun j hj => ?_⟩
  · rw [store32_of_ne (by lia), store64_of_ne (by lia)]
    exact hlive.tag
  · exact load32_store32_self (by lia)
  · rw [load32_store32_of_disjoint (by lia), load32_store64_of_disjoint (by lia)]
    exact hlive.cap
  · rw [load64_congr (m := store64 m (slotAt n.base idx) v) fun x hx _ =>
      store32_of_ne (Or.inr (by rw [slotAt] at hx; lia))]
    by_cases hji : j = idx
    · rw [hji, load64_store64_self hv]
      exact hslot.symm
    · rw [load64_store64_of_disjoint (by rw [slotAt, slotAt]; lia)]
      exact hsame j hj hji

/-- The slots and the length lie in the block. -/
theorem store_agree (hidx : idx < n.cap) (len : Nat) :
    AgreeOff n.block m (store32 (store64 m (slotAt n.base idx) v) (n.base + 8) len) := by
  intro x hx
  have hout : x < n.base ∨ n.base + 16 + n.cap * 8 ≤ x := by
    by_contra hnot
    exact hx (Node.block_has (by lia) (by lia))
  rw [store32_of_ne (by lia), store64_of_ne (by rw [slotAt]; lia)]

/-- **`__arr_push`** -/
theorem HoldsArrays.push (hr : HoldsArrays M m h arrays nodes) (ha : Alias nodes p i)
    (hfuel : 2 ^ 32 ≤ fuel) (hv : v < 2 ^ 64) :
    Stops (arrPush M fuel m h p v) ∨
      ∃ m' h' nodes', arrPush M fuel m h p v = .ok (m', h') ∧
        Wrote M i m nodes (arrays.set i (arrays[i]?.getD [] ++ [v])) m' h' nodes' := by
  obtain ⟨k, n, hk, rfl, hlive, hres⟩ := hr.resolve ha hfuel
  have hmax := maximumCapacity_lt
  have hcap := hr.cap_le n (mem_of_getElem? hk)
  have hroom := hlive.room
  have hfull : decide (n.cap ≤ (arrays[n.owner]?.getD []).length) = false →
      (arrays[n.owner]?.getD []).length + 1 ≤ n.cap := fun hf =>
    Nat.not_le.mp (of_decide_eq_false hf)
  have hlen1 : add32 (arrays[n.owner]?.getD []).length 1 =
      (arrays[n.owner]?.getD []).length + 1 := add32_of_lt (by lia)
  rw [arrPush, hres]
  simp only [hlive.len, hlive.cap, hlen1]
  rcases hr.reserve hk hlive hfull with ⟨e, he, hne⟩ |
    ⟨m1, h₁, n1, nodes1, hok, ⟨k1, hk1⟩, hown, hneed, hlive1, hwrote⟩
  · rw [he]
    exact Or.inl ⟨e, rfl, hne⟩
  · have hmem1 := mem_of_getElem? hk1
    have hcap1 := hwrote.holds.cap_le n1 hmem1
    have hslot := slotAddr_eq (hwrote.holds.fits n1 hmem1) hneed
    simp only [hok, hslot]
    refine Or.inr ⟨_, h₁, nodes1, rfl, hwrote.trans ?_⟩
    generalize arrays[n.owner]?.getD [] = xs at *
    have hnew : LiveAt (store32 (store64 m1 (slotAt n1.base xs.length) v) (n1.base + 8)
        (xs.length + 1)) n1 (xs ++ [v]) := by
      have hstore := hlive1.store (xs ++ [v]) (by lia) hv
        (by rw [length_append]; exact hneed) (by rw [getElem?_concat_length]; rfl) ?_
      · rwa [length_append] at hstore
      · intro j hj hne
        rw [length_append, length_singleton] at hj
        have hlt : j < xs.length := by lia
        rw [getElem?_append_left hlt]
        exact hlive1.slots j hlt
    rw [← hown]
    exact hwrote.holds.wrote hk1 hlive1 (store_agree hneed _) hnew

/-- Overwriting a slot in bounds. -/
theorem LiveAt.overwrite (hlive : LiveAt m n xs) (hidx : idx < xs.length) (hv : v < 2 ^ 64) :
    LiveAt (store64 m (slotAt n.base idx) v) n (xs.set idx v) := by
  have hlow : n.base + 16 ≤ slotAt n.base idx := by
    rw [slotAt]
    lia
  refine ⟨?_, ?_, ?_, by rw [length_set]; exact hlive.room, fun j hj => ?_⟩
  · rw [store64_of_ne (by lia)]
    exact hlive.tag
  · rw [load32_store64_of_disjoint (by lia), length_set]
    exact hlive.len
  · rw [load32_store64_of_disjoint (by lia)]
    exact hlive.cap
  · rw [length_set] at hj
    by_cases hji : j = idx
    · rw [hji, load64_store64_self hv, getElem?_set_self hidx]
      rfl
    · rw [load64_store64_of_disjoint (by rw [slotAt, slotAt]; lia),
        getElem?_set_ne (Ne.symm hji)]
      exact hlive.slots j hj

/-- The list after a store past its end. -/
theorem getElem?_extended (xs : List Nat) (idx v j : Nat) (hidx : xs.length ≤ idx) :
    (xs ++ replicate (idx - xs.length) 0 ++ [v])[j]?.getD 0 =
      if j < xs.length then xs[j]?.getD 0 else if j = idx then v else 0 := by
  have hlen : (xs ++ replicate (idx - xs.length) 0).length = idx := by
    rw [length_append, length_replicate]
    lia
  by_cases hj : j < idx
  · rw [getElem?_append_left (by lia)]
    by_cases hjx : j < xs.length
    · rw [getElem?_append_left hjx, if_pos hjx]
    · rw [getElem?_append_right (by lia), if_neg hjx, if_neg (by lia),
        getElem?_replicate_of_lt (by lia)]
      rfl
  · rw [if_neg (by lia)]
    by_cases hji : j = idx
    · rw [if_pos hji, hji, getElem?_append_right (by lia), hlen, Nat.sub_self]
      rfl
    · rw [if_neg hji, getElem?_eq_none (by
        rw [length_append, hlen, length_singleton]
        lia)]
      rfl

/-- Storing past the end: the gap is filled with zeros. -/
theorem LiveAt.extend (hlive : LiveAt m n xs) (hfits : n.base + 16 + n.cap * 8 ≤ 2 ^ 32)
    (hidx : idx < n.cap) (hlen : xs.length ≤ idx) (hv : v < 2 ^ 64) :
    load32 (zeroSlots n.base (idx - xs.length) xs.length m) (n.base + 8) = xs.length ∧
      LiveAt (store64 (store32 (zeroSlots n.base (idx - xs.length) xs.length m) (n.base + 8)
        (idx + 1)) (slotAt n.base idx) v) n (xs ++ replicate (idx - xs.length) 0 ++ [v]) := by
  obtain ⟨hzero, hkeep⟩ := storeSlots_spec hfits hidx.le (fun _ _ => 0)
    (fun _ _ => by decide) (fun _ _ _ _ _ => rfl) (idx - xs.length) xs.length m (by lia)
  have hhead : ∀ x, x < n.base + 16 →
      zeroSlots n.base (idx - xs.length) xs.length m x = m x := fun x hx =>
    hkeep x (Or.inl (by rw [slotAt]; lia))
  have hlenWord : load32 (zeroSlots n.base (idx - xs.length) xs.length m) (n.base + 8) =
      xs.length := by
    rw [load32_congr (m := m) fun x _ hx' => hhead x (by lia)]
    exact hlive.len
  have hlow : n.base + 16 ≤ slotAt n.base idx := by
    rw [slotAt]
    lia
  have hys : (xs ++ replicate (idx - xs.length) 0 ++ [v]).length = idx + 1 := by
    rw [length_append, length_append, length_replicate, length_singleton]
    lia
  refine ⟨hlenWord, ?_, ?_, ?_, by lia, fun j hj => ?_⟩
  · rw [store64_of_ne (by lia), store32_of_ne (by lia), hhead _ (by lia)]
    exact hlive.tag
  · rw [load32_store64_of_disjoint (by lia), load32_store32_self (by lia), hys]
  · rw [load32_store64_of_disjoint (by lia), load32_store32_of_disjoint (by lia),
      load32_congr (m := m) fun x _ hx' => hhead x (by lia)]
    exact hlive.cap
  · rw [getElem?_extended _ _ _ _ hlen]
    by_cases hji : j = idx
    · rw [hji, load64_store64_self hv, if_neg (by lia), if_pos rfl]
    · rw [load64_store64_of_disjoint (by rw [slotAt, slotAt]; lia),
        load64_congr (m := zeroSlots n.base (idx - xs.length) xs.length m) fun x hx _ =>
          store32_of_ne (Or.inr (by rw [slotAt] at hx; lia))]
      by_cases hjx : j < xs.length
      · have hkept : load64 (zeroSlots n.base (idx - xs.length) xs.length m) (slotAt n.base j) =
            load64 m (slotAt n.base j) := by
          refine load64_congr fun x _ hx' => hkeep x (Or.inl ?_)
          rw [slotAt] at hx' ⊢
          lia
        rw [if_pos hjx, hkept]
        exact hlive.slots j hjx
      · rw [if_neg hjx, if_neg hji]
        exact hzero j (by lia) (by lia)

/-- The fill loop stays in the block. -/
theorem zeroSlots_agree (hfits : n.base + 16 + n.cap * 8 ≤ 2 ^ 32) (hidx : idx < n.cap)
    {len : Nat} (hlen : len ≤ idx) : AgreeOff n.block m (zeroSlots n.base (idx - len) len m) := by
  obtain ⟨-, hkeep⟩ := storeSlots_spec hfits hidx.le (fun _ _ => 0)
    (fun _ _ => by decide) (fun _ _ _ _ _ => rfl) (idx - len) len m (by lia)
  intro x hx
  refine hkeep x ?_
  by_contra hnot
  rw [slotAt, slotAt] at hnot
  exact hx (Node.block_has (by lia) (by lia))

/-- **`__arr_set`** -/
theorem HoldsArrays.set (hr : HoldsArrays M m h arrays nodes) (ha : Alias nodes p i)
    (hfuel : 2 ^ 32 ≤ fuel) (hidx : idx < 2 ^ 32) (hv : v < 2 ^ 64) :
    Stops (arrSet M fuel m h p idx v) ∨
      ∃ m' h' nodes', arrSet M fuel m h p idx v = .ok (m', h') ∧
        Wrote M i m nodes (arrays.set i (absSet (arrays[i]?.getD []) (signed32 idx) v))
          m' h' nodes' := by
  rw [arrSet, absSet]
  obtain ⟨k, n, hk, rfl, hlive, hres⟩ := hr.resolve ha hfuel
  by_cases hneg : signed32 idx < 0
  · rw [if_pos hneg, if_pos hneg]
    exact Or.inr ⟨m, h, nodes, rfl, hr.wrote hk hlive (AgreeOff.refl _ _) hlive⟩
  have hnat : (signed32 idx).toNat = idx ∧ idx < 2 ^ 31 := by
    rw [signed32] at hneg ⊢
    split at hneg <;> lia
  have hidx1 : add32 idx 1 = idx + 1 := add32_of_lt (by lia)
  have hfull : decide (n.cap ≤ idx) = false → idx + 1 ≤ n.cap := fun hf =>
    Nat.not_le.mp (of_decide_eq_false hf)
  rw [if_neg hneg, if_neg hneg, hres, hnat.1]
  simp only [hlive.cap, hidx1]
  rcases hr.reserve hk hlive hfull with ⟨e, he, hne⟩ |
    ⟨m1, h₁, n1, nodes1, hok, ⟨k1, hk1⟩, hown, hneed, hlive1, hwrote⟩
  · rw [he]
    exact Or.inl ⟨e, rfl, hne⟩
  have hmem1 := mem_of_getElem? hk1
  have hfits1 := hwrote.holds.fits n1 hmem1
  have hslot := slotAddr_eq hfits1 hneed
  simp only [hok, hlive1.len, hslot]
  refine Or.inr ⟨_, h₁, nodes1, rfl, hwrote.trans ?_⟩
  generalize arrays[n.owner]?.getD [] = xs at *
  have hstoreAgree : ∀ m2, AgreeOff n1.block m2 (store64 m2 (slotAt n1.base idx) v) := by
    intro m2 x hx
    refine store64_of_ne ?_
    by_contra hnot
    rw [slotAt] at hnot
    exact hx (Node.block_has (by lia) (by lia))
  rw [← hown]
  by_cases hlt : idx < xs.length
  · have hnone : zeroSlots n1.base (idx - xs.length) xs.length m1 = m1 := by
      rw [Nat.sub_eq_zero_of_le hlt.le]
      rfl
    rw [hnone, hlive1.len, if_neg (Nat.not_le.mpr hlt), if_pos hlt]
    exact hwrote.holds.wrote hk1 hlive1 (hstoreAgree m1) (hlive1.overwrite hlt hv)
  · have hle := Nat.not_lt.mp hlt
    obtain ⟨hlenWord, hnew⟩ := hlive1.extend hfits1 hneed hle hv
    rw [hlenWord, if_pos hle, if_neg hlt]
    refine hwrote.holds.wrote hk1 hlive1 ?_ hnew
    refine ((zeroSlots_agree hfits1 hneed hle).trans ?_).trans (hstoreAgree _)
    exact agreeOff_store32 _ (Nat.le_add_right _ _) (by rw [Node.block]; simp only; lia)

/-! ### Slices -/

theorem arrGet_lt (hok : arrGet fuel m p idx = .ok v) : v < 2 ^ 64 := by
  rw [arrGet] at hok
  split at hok
  · exact nomatch hok
  · split at hok
    · exact Except.ok.inj hok ▸ (by decide)
    · exact Except.ok.inj hok ▸ load64_lt _ _

theorem signed32_add_one (hidx : idx < 2 ^ 32) (hlt : signed32 idx < 2 ^ 31 - 1) :
    add32 idx 1 < 2 ^ 32 ∧ signed32 (add32 idx 1) = signed32 idx + 1 := by
  rw [add32, signed32] at *
  rw [signed32]
  split at hlt <;> split <;> omega

theorem map_range_succ (f : Int → Nat) (a : Int) (d : Nat) :
    ((range (d + 1)).map fun t : Nat => f (a + t)) =
      f a :: (range d).map fun t : Nat => f (a + 1 + t) := by
  rw [range_succ_eq_map, map_cons, map_map]
  refine cons_eq_cons.mpr ⟨congrArg f (by lia), map_congr_left fun t _ => ?_⟩
  show f (a + ((t + 1 : Nat) : Int)) = f (a + 1 + t)
  exact congrArg f (by lia)

/-- The loop of a slice appends the elements to the new array. -/
theorem HoldsArrays.sliceLoop {q : Nat} (hfuel : 2 ^ 32 ≤ fuel) (hij : i ≠ j) :
    ∀ (d idx : Nat) (m : Memory) (h : σ) (arrays : List (List Nat)) (nodes : List Node),
      HoldsArrays M m h arrays nodes → Alias nodes p i → Alias nodes q j → idx < 2 ^ 32 →
      signed32 idx + d < 2 ^ 31 →
      Stops (sliceLoop M fuel q p d idx m h) ∨
        ∃ m' h' nodes', sliceLoop M fuel q p d idx m h = .ok (m', h') ∧
          Wrote M j m nodes (arrays.set j (arrays[j]?.getD [] ++
            (range d).map fun t : Nat => absGet (arrays[i]?.getD []) (signed32 idx + t)))
            m' h' nodes' := by
  intro d
  induction d with
  | zero =>
    intro idx m h arrays nodes hr _ hq _ _
    obtain ⟨k, n, hk, rfl, hlive, -⟩ := hr.resolve hq hfuel
    refine Or.inr ⟨m, h, nodes, rfl, ?_⟩
    rw [range_zero, map_nil, append_nil]
    exact hr.wrote hk hlive (AgreeOff.refl _ _) hlive
  | succ d ih =>
    intro idx m h arrays nodes hr hp hq hidx hbound
    have hget := hr.get hp hfuel hidx
    simp only [Linear.sliceLoop, hget]
    rcases hr.push hq hfuel (arrGet_lt hget) with ⟨e, he, hne⟩ | ⟨m1, h₁, nodes1, hok, hwrote⟩
    · rw [he]
      exact Or.inl ⟨e, rfl, hne⟩
    · obtain ⟨hnext, hsigned⟩ := signed32_add_one hidx (by lia)
      have hj : j < arrays.length := by
        obtain ⟨n, hn, -, rfl⟩ := hq
        exact hr.owner_lt n hn
      rw [hok]
      rcases ih (add32 idx 1) m1 h₁ _ nodes1 hwrote.holds (hp.grows hwrote.grows)
        (hq.grows hwrote.grows) hnext (by lia) with ⟨e, he, hne⟩ | ⟨m', h', nodes', hok', hw⟩
      · exact Or.inl ⟨e, he, hne⟩
      · refine Or.inr ⟨m', h', nodes', hok', hwrote.trans ?_⟩
        rw [set_set, getElem?_set_self hj, getElem?_set_ne (Ne.symm hij), hsigned,
          Option.getD_some, append_assoc] at hw
        rw [map_range_succ]
        exact hw

/-- **`__arr_slice`** -/
theorem HoldsArrays.slice (hr : HoldsArrays M m h arrays nodes) (ha : Alias nodes p i)
    (hfuel : 2 ^ 32 ≤ fuel) {start stop : Nat} (hstart : start < 2 ^ 32) (hstop : stop < 2 ^ 32) :
    Stops (arrSlice M fuel m h p start stop) ∨
      ∃ q m' h' nodes', arrSlice M fuel m h p start stop = .ok (q, m', h') ∧
        Alias nodes' q arrays.length ∧
        Wrote M arrays.length m nodes
          (arrays ++ [absSlice (arrays[i]?.getD []) (signed32 start) (signed32 stop)])
          m' h' nodes' := by
  have hi : i < arrays.length := by
    obtain ⟨n, hn, -, rfl⟩ := ha
    exact hr.owner_lt n hn
  rw [arrSlice]
  rcases hr.new 16 with ⟨e, he, hne⟩ | ⟨m1, h₁, n, hok, hown, hr1, hagree⟩
  · rw [he]
    exact Or.inl ⟨e, rfl, hne⟩
  · have hgrows : Grows arrays.length nodes (nodes ++ [n]) :=
      ⟨[n], rfl, fun x hx => mem_singleton.mp hx ▸ hown⟩
    have hn : n ∈ nodes ++ [n] := mem_append_right _ (mem_singleton_self n)
    have hq : Alias (nodes ++ [n]) n.base arrays.length := ⟨n, hn, rfl, hown⟩
    have hbound : signed32 start + (signed32 stop - signed32 start).toNat < 2 ^ 31 := by
      have h1 : signed32 start < 2 ^ 31 := by
        rw [signed32]
        split <;> lia
      have h2 : signed32 stop < 2 ^ 31 := by
        rw [signed32]
        split <;> lia
      lia
    rw [hok]
    simp only
    rcases HoldsArrays.sliceLoop hfuel hi.ne _ start m1 h₁ _ _ hr1
      (ha.grows hgrows) hq hstart hbound with ⟨e, he, hne⟩ | ⟨m', h', nodes', hok', hw⟩
    · rw [he]
      exact Or.inl ⟨e, rfl, hne⟩
    · rw [hok']
      refine Or.inr ⟨n.base, m', h', nodes', rfl, hq.grows hw.grows, ?_⟩
      rw [getElem?_append_left hi, getElem?_concat_length, Option.getD_some,
        nil_append, set_append_right _ _ .refl, Nat.sub_self,
        set_cons_zero] at hw
      exact ⟨hw.holds, hgrows.trans hw.grows,
        Stays.trans (stays_of_agree hn hown hagree) hw.grows hw.stays⟩

end

end Js2Wasm.Linear
