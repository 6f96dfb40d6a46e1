import Js2Wasm.Linear.ArrayNodes

/-! # The array operations

Each operation takes the abstract step on the array that its pointer stands for, and writes
only to the blocks of that array; when it allocates, the new block joins the list of nodes.
-/
namespace Js2Wasm.Linear
open List WordMemory

/-! ### The abstract operations -/

/-- The element at a signed index; 0 out of bounds. -/
def absGet (xs : List Nat) (idx : Int) : Nat := if idx < 0 then 0 else xs[idx.toNat]?.getD 0

/-- Store at a signed index, extending the list with zeros; a negative index does nothing. -/
def absSet (xs : List Nat) (idx : Int) (v : Nat) : List Nat :=
  if idx < 0 then xs
  else if idx.toNat < xs.length then xs.set idx.toNat v
  else xs ++ replicate (idx.toNat - xs.length) 0 ++ [v]

/-- The elements from `start` on to before `stop`. -/
def absSlice (xs : List Nat) (start stop : Int) : List Nat :=
  (range (stop - start).toNat).map fun i : Nat => absGet xs (start + i)

section
variable {σ : Type} {M : Malloc σ} {m m' : Memory} {h h' : σ} {arrays : List (List Nat)}
  {nodes : List Node} {n n' : Node} {xs : List Nat} {k i p fuel : Nat}

theorem maximumCapacity_lt : maximumCapacity < 2 ^ 31 := by decide

/-- No array has a negative index in bounds. -/
theorem signed32_of_lt_len {idx len : Nat} (hlen : len ≤ maximumCapacity)
    (hlt : idx < len) : ¬ signed32 idx < 0 ∧ (signed32 idx).toNat = idx := by
  have hmax := maximumCapacity_lt
  rw [signed32, if_pos (by lia)]
  lia

/-! ### Loops over slots -/

/-- The loop stores its values and writes nowhere else, as long as the values do not depend
on the slots it writes. -/
theorem storeSlots_spec (hfits : n.base + 16 + n.cap * 8 ≤ 2 ^ 32) {stop : Nat}
    (hstop : stop ≤ n.cap) (val : Memory → Nat → Nat) (hval : ∀ m j, val m j < 2 ^ 64)
    (hstable : ∀ m m' j, j < stop → AgreeOff n.block m m' → val m' j = val m j) :
    ∀ d i m, i + d = stop →
      (∀ j, i ≤ j → j < stop →
        load64 (storeSlots n.base val d i m) (slotAt n.base j) = val m j) ∧
      ∀ x, x < slotAt n.base i ∨ slotAt n.base stop ≤ x → storeSlots n.base val d i m x = m x := by
  intro d
  induction d with
  | zero =>
    intro i m hi
    exact ⟨fun j hij hj => absurd hj (by lia), fun x _ => rfl⟩
  | succ d ih =>
    intro i m hi
    have hlt : i < n.cap := by lia
    obtain ⟨hstored, hkeep⟩ :=
      ih (i + 1) (store64 m (slotAt n.base i) (val m i)) (by lia)
    have hagree : AgreeOff n.block m (store64 m (slotAt n.base i) (val m i)) := by
      intro x hx
      refine store64_of_ne ?_
      by_contra hnot
      refine hx (Node.block_has ?_ ?_) <;> rw [slotAt] at hnot <;> lia
    rw [storeSlots, slotAddr_eq hfits hlt, add32_of_lt (by lia)]
    refine ⟨fun j hij hj => ?_, fun x hx => ?_⟩
    · rcases Nat.eq_or_lt_of_le hij with rfl | hij
      · rw [load64_congr (m := store64 m (slotAt n.base i) (val m i)) fun x hx hx' =>
          hkeep x (Or.inl (by rw [slotAt] at hx' ⊢; lia))]
        exact load64_store64_self (hval m i)
      · rw [hstored j hij hj]
        exact hstable _ _ j hj hagree
    · rw [hkeep x (by rw [slotAt] at hx ⊢; rw [slotAt] at hx ⊢; lia)]
      exact store64_of_ne (by rw [slotAt] at hx ⊢; rw [slotAt] at hx; lia)

/-! ### A new array -/

/-- The bytes of a header. -/
theorem header_agree (m : Memory) (n : Node) (len : Nat) :
    AgreeOff n.block m
      (store32 (store32 (store8 m n.base arrayTag) (n.base + 8) len) (n.base + 12) n.cap) := by
  intro x hx
  have hout : x < n.base ∨ n.base + 16 ≤ x := by
    by_contra hnot
    exact hx (Node.block_has (by lia) (by lia))
  rw [store32_of_ne (by lia), store32_of_ne (by lia), store8_of_ne (by lia)]

/-- The header of a new node. -/
theorem header_live {len : Nat} (hcap : n.cap < 2 ^ 32) (hlen : len < 2 ^ 32)
    (hroom : len ≤ n.cap) (hxs : xs.length = len)
    (hslots : ∀ i < len, load64 m' (slotAt n.base i) = xs[i]?.getD 0)
    (hm : ∀ x, x < n.base + 16 →
      m' x = store32 (store32 (store8 m n.base arrayTag) (n.base + 8) len) (n.base + 12) n.cap x) :
    LiveAt m' n xs := by
  refine ⟨?_, ?_, ?_, hxs ▸ hroom, hxs ▸ hslots⟩
  · rw [hm _ (by lia), store32_of_ne (by lia), store32_of_ne (by lia), store8_self]
    rfl
  · rw [load32_congr (m := store32 (store32 (store8 m n.base arrayTag) (n.base + 8) len)
      (n.base + 12) n.cap) fun x hx hx' => hm x (by lia),
      load32_store32_of_disjoint (by lia), load32_store32_self hlen, hxs]
  · rw [load32_congr (m := store32 (store32 (store8 m n.base arrayTag) (n.base + 8) len)
      (n.base + 12) n.cap) fun x hx hx' => hm x (by lia), load32_store32_self hcap]

/-- The size of a checked allocation. -/
theorem checkedArrayAllocationSize_ok {cap size : Nat}
    (hok : checkedArrayAllocationSize cap = .ok size) :
    cap ≤ maximumCapacity ∧ size = 16 + cap * 8 := by
  rw [checkedArrayAllocationSize] at hok
  split at hok
  · exact nomatch hok
  · next hle =>
    have hmax : cap ≤ maximumCapacity := Nat.not_lt.mp hle
    have hbound : maximumCapacity = 536870909 := by decide
    rw [mul32_of_lt (by lia), add32_of_lt (by lia)] at hok
    exact ⟨hmax, (Except.ok.inj hok).symm⟩

/-! ### New nodes -/

/-- What an allocation promises, apart from the bytes it leaves alone. -/
theorem Allocated.append (ha : Allocated M h nodes)
    (hblocks : M.blocks h' = n.block :: M.blocks h) (hapart : ∀ b ∈ M.blocks h, b.Apart n.block)
    (hfits : n.base + 16 + n.cap * 8 ≤ 2 ^ 32) (hcap : n.cap ≤ maximumCapacity) :
    Allocated M h' (nodes ++ [n]) := by
  have hmem : ∀ {n'}, n' ∈ nodes ++ [n] → n' ∈ nodes ∨ n' = n := fun hn' =>
    (mem_append.mp hn').imp_right mem_singleton.mp
  refine ⟨?_, ?_, ?_, ?_⟩
  · intro n' hn'
    rw [hblocks]
    rcases hmem hn' with hold | rfl
    · exact mem_cons_of_mem _ (ha.granted _ hold)
    · exact mem_cons_self
  · intro n' hn'
    rcases hmem hn' with hold | rfl
    · exact ha.fits _ hold
    · exact hfits
  · intro n' hn'
    rcases hmem hn' with hold | rfl
    · exact ha.cap_le _ hold
    · exact hcap
  · intro k k' n1 n2 hk hk' hne
    rcases getElem?_snoc hk with hold | ⟨rfl, rfl⟩ <;>
      rcases getElem?_snoc hk' with hold' | ⟨rfl, rfl⟩
    · exact ha.apart hold hold' hne
    · exact hapart _ (ha.granted _ (mem_of_getElem? hold))
    · exact (hapart _ (ha.granted _ (mem_of_getElem? hold'))).symm
    · exact absurd rfl hne

section
variable (hr : HoldsArrays M m h arrays nodes)
include hr

/-- **A new array**: its first node. -/
theorem HoldsArrays.append (ha : Allocated M h' (nodes ++ [n])) (hagree : AgreeOff n.block m m')
    (howner : n.owner = arrays.length) (hlive : LiveAt m' n xs) :
    HoldsArrays M m' h' (arrays ++ [xs]) (nodes ++ [n]) := by
  have hold : ∀ {k : Nat} {n' : Node}, nodes[k]? = some n' →
      n'.owner < arrays.length ∧ ∀ x, n'.block.Has x → m' x = m x := by
    intro k n' hk
    have hlt := (List.getElem?_eq_some_iff.mp hk).1
    have hap := ha.apart (getElem?_snoc_old hk n) List.getElem?_concat_length hlt.ne
    exact ⟨hr.owner_lt _ (mem_of_getElem? hk), fun x hx => hagree x (hap.not_has hx)⟩
  refine ⟨ha, ?_, ?_, ?_⟩
  · intro n' hn'
    rw [length_append, length_singleton]
    rcases mem_append.mp hn' with hmem | hmem
    · have hlt := hr.owner_lt _ hmem
      lia
    · rw [mem_singleton.mp hmem]
      lia
  · intro k n' hk
    rcases getElem?_snoc hk with hk' | ⟨rfl, rfl⟩
    · obtain ⟨hlt, hsame⟩ := hold hk'
      rcases hr.node hk' with hl | ⟨k', n'', hkk, hk'', hown, hfwd⟩
      · rw [getElem?_append_left hlt]
        exact Or.inl (hl.congr hsame)
      · exact Or.inr ⟨k', n'', hkk, getElem?_snoc_old hk'' n, hown, hfwd.congr hsame⟩
    · rw [howner, getElem?_concat_length]
      exact Or.inl hlive
  · have htag : ∀ {k : Nat} {n' : Node}, nodes[k]? = some n' → m' n'.base = m n'.base :=
      fun hk => (hold hk).2 _ (Node.block_has .refl (by lia))
    intro k k' n1 n2 hk hk' hown ht ht'
    rcases getElem?_snoc hk with ho | ⟨rfl, rfl⟩ <;>
      rcases getElem?_snoc hk' with ho' | ⟨rfl, rfl⟩
    · rw [htag ho] at ht
      rw [htag ho'] at ht'
      exact hr.unique ho ho' hown ht ht'
    · exact absurd (hown.trans howner) (Nat.ne_of_lt (hold ho).1)
    · exact absurd (hown.symm.trans howner) (Nat.ne_of_lt (hold ho').1)
    · rfl

/-- **A relocated array**: the live node forwards to a new one with the same elements. -/
theorem HoldsArrays.relocate (hk : nodes[k]? = some n) (ha : Allocated M h' (nodes ++ [n']))
    (howner : n'.owner = n.owner) (hlive : LiveAt m n (arrays[n.owner]?.getD []))
    (hagree : ∀ x, ¬ n.block.Has x → ¬ n'.block.Has x → m' x = m x) (hfwd : ForwardedTo m' n n')
    (hlive' : LiveAt m' n' (arrays[n.owner]?.getD [])) :
    HoldsArrays M m' h' arrays (nodes ++ [n']) := by
  have hlt : k < nodes.length := (List.getElem?_eq_some_iff.mp hk).1
  have hold : ∀ {j : Nat} {n1 : Node}, nodes[j]? = some n1 → j ≠ k →
      ∀ x, n1.block.Has x → m' x = m x := by
    intro j n1 hj hne x hx
    have hlt' := (List.getElem?_eq_some_iff.mp hj).1
    have hap := ha.apart (getElem?_snoc_old hj n') List.getElem?_concat_length hlt'.ne
    exact hagree x ((hr.apart hj hk hne).not_has hx) (hap.not_has hx)
  refine ⟨ha, ?_, ?_, ?_⟩
  · intro n1 hn1
    rcases mem_append.mp hn1 with hmem | hmem
    · exact hr.owner_lt _ hmem
    · rw [mem_singleton.mp hmem, howner]
      exact hr.owner_lt _ (mem_of_getElem? hk)
  · intro j n1 hj
    rcases getElem?_snoc hj with hj | ⟨rfl, rfl⟩
    · by_cases hne : j = k
      · subst hne
        obtain rfl := Option.some.inj (hj.symm.trans hk)
        exact Or.inr ⟨nodes.length, n', hlt, getElem?_concat_length, howner, hfwd⟩
      · rcases hr.node hj with hl | ⟨k', n'', hkk, hk'', hown, hf⟩
        · exact Or.inl (hl.congr (hold hj hne))
        · exact Or.inr ⟨k', n'', hkk, getElem?_snoc_old hk'' n', hown, hf.congr (hold hj hne)⟩
    · rw [howner]
      exact Or.inl hlive'
  · -- the old node is not live any more, and the other nodes of the array were not
    have hdead : ∀ {j : Nat} {n1 : Node}, nodes[j]? = some n1 → (m' n1.base).toNat = arrayTag →
        j ≠ k ∧ (m n1.base).toNat = arrayTag := by
      intro j n1 hj ht
      have hne : j ≠ k := by
        rintro rfl
        obtain rfl := Option.some.inj (hj.symm.trans hk)
        exact absurd (hfwd.tag.symm.trans ht) (by decide)
      rw [hold hj hne _ (Node.block_has .refl (by lia))] at ht
      exact ⟨hne, ht⟩
    intro j j' n1 n2 hj hj' hown ht ht'
    rcases getElem?_snoc hj with ho | ⟨rfl, rfl⟩ <;>
      rcases getElem?_snoc hj' with ho' | ⟨rfl, rfl⟩
    · exact hr.unique ho ho' hown (hdead ho ht).2 (hdead ho' ht').2
    · obtain ⟨hne, ht⟩ := hdead ho ht
      exact absurd (hr.unique ho hk (hown.trans howner) ht hlive.tag) hne
    · obtain ⟨hne, ht'⟩ := hdead ho' ht'
      exact absurd (hr.unique ho' hk (hown.symm.trans howner) ht' hlive.tag) hne
    · rfl

/-! ### Allocating operations -/

/-- **`__arr_new`** -/
theorem HoldsArrays.new (cap : Nat) :
    (∃ e, arrNew M m h cap = .error e ∧ e ≠ .outOfFuel) ∨
      ∃ m' h' n, arrNew M m h cap = .ok (n.base, m', h') ∧ n.owner = arrays.length ∧
        HoldsArrays M m' h' (arrays ++ [[]]) (nodes ++ [n]) ∧ AgreeOff n.block m m' := by
  rw [arrNew]
  cases hsize : checkedArrayAllocationSize cap with
  | error e =>
    refine Or.inl ⟨e, rfl, ?_⟩
    rw [checkedArrayAllocationSize] at hsize
    split at hsize
    · cases hsize
      exact nofun
    · exact nomatch hsize
  | ok size =>
    obtain ⟨hcap, rfl⟩ := checkedArrayAllocationSize_ok hsize
    cases halloc : M.alloc m h (16 + cap * 8) with
    | none => exact Or.inl ⟨.outOfMemory, by simp only [halloc], nofun⟩
    | some r =>
      obtain ⟨ptr, m1, h'⟩ := r
      have hgrant := M.granted halloc
      have hfits : ptr + 16 + cap * 8 ≤ 2 ^ 32 := Nat.add_assoc ptr 16 _ ▸ hgrant.fits
      have hcap32 : cap < 2 ^ 32 := by lia
      have hheader := header_agree m1 ⟨ptr, cap, arrays.length⟩ 0
      refine Or.inr ⟨_, h', ⟨ptr, cap, arrays.length⟩, by simp only [halloc], rfl, ?_,
        hgrant.frame.trans hheader⟩
      refine hr.append (hr.toAllocated.append hgrant.blocks hgrant.apart hfits hcap)
        (hgrant.frame.trans hheader) rfl ?_
      exact @header_live m1 _ ⟨ptr, cap, arrays.length⟩ [] 0 hcap32 (by decide)
        (Nat.zero_le _) rfl (fun i hi => nomatch hi) fun x _ => rfl

end

theorem le_grownCapacity (doubled minCap : Nat) :
    doubled ≤ grownCapacity doubled minCap ∧ minCap ≤ grownCapacity doubled minCap := by
  simp only [grownCapacity]
  split <;> split <;> lia

/-- The copy loop of a relocation copies the elements. -/
theorem copySlots_spec (hlive : LiveAt m n xs) (hfits : n.base + 16 + n.cap * 8 ≤ 2 ^ 32)
    (hfits' : n'.base + 16 + n'.cap * 8 ≤ 2 ^ 32) (hroom : xs.length ≤ n'.cap)
    (hapart : n.block.Apart n'.block) (hagree : AgreeOff n'.block m m') :
    (∀ j < xs.length,
      load64 (copySlots n'.base n.base xs.length 0 m') (slotAt n'.base j) = xs[j]?.getD 0) ∧
      ∀ x, x < slotAt n'.base 0 ∨ slotAt n'.base xs.length ≤ x →
        copySlots n'.base n.base xs.length 0 m' x = m' x := by
  have hslot : ∀ {j}, j < xs.length → add32 n.base (mul32 j 8) + 16 = slotAt n.base j :=
    fun hj => slotAddr_eq hfits (hj.trans_le hlive.room)
  have hkeep : ∀ {m1 m2 : Memory} {j}, j < xs.length → AgreeOff n'.block m1 m2 →
      load64 m2 (slotAt n.base j) = load64 m1 (slotAt n.base j) := by
    intro m1 m2 j hj hag
    have hlt := hj.trans_le hlive.room
    refine load64_congr fun x hx hx' => hag x (hapart.not_has (Node.block_has ?_ ?_))
    · rw [slotAt] at hx
      lia
    · rw [slotAt] at hx'
      lia
  obtain ⟨hstored, hframe⟩ := storeSlots_spec hfits' hroom
    (fun m i => load64 m (add32 n.base (mul32 i 8) + 16)) (fun m j => load64_lt _ _)
    (fun m1 m2 j hj hag => by
      show load64 m2 (add32 n.base (mul32 j 8) + 16) = load64 m1 (add32 n.base (mul32 j 8) + 16)
      rw [hslot hj]
      exact hkeep hj hag) xs.length 0 m' (Nat.zero_add _)
  refine ⟨fun j hj => ?_, hframe⟩
  rw [copySlots, hstored j (Nat.zero_le j) hj]
  show load64 m' (add32 n.base (mul32 j 8) + 16) = _
  rw [hslot hj, hkeep hj hagree]
  exact hlive.slots j hj

/-- **`__arr_grow`** -/
theorem HoldsArrays.grow (hr : HoldsArrays M m h arrays nodes) (hk : nodes[k]? = some n)
    (hlive : LiveAt m n (arrays[n.owner]?.getD [])) (minCap : Nat) :
    (∃ e, arrGrow M m h n.base minCap = .error e ∧ e ≠ .outOfFuel) ∨
      ∃ m' h' n', arrGrow M m h n.base minCap = .ok (n'.base, m', h') ∧ n'.owner = n.owner ∧
        minCap ≤ n'.cap ∧ LiveAt m' n' (arrays[n.owner]?.getD []) ∧
        HoldsArrays M m' h' arrays (nodes ++ [n']) ∧
        ∀ x, ¬ n.block.Has x → ¬ n'.block.Has x → m' x = m x := by
  generalize hxs : arrays[n.owner]?.getD [] = xs at hlive ⊢
  have hmem := mem_of_getElem? hk
  have hhalf : maximumCapacityBeforeDoubling = 268435454 := by decide
  rw [arrGrow]
  simp only [hlive.len, hlive.cap]
  cases hdouble : checkedArrayCapacityDoubling n.cap with
  | error e =>
    refine Or.inl ⟨e, rfl, ?_⟩
    rw [checkedArrayCapacityDoubling] at hdouble
    split at hdouble
    · cases hdouble
      exact nofun
    · exact nomatch hdouble
  | ok doubled =>
    obtain rfl : doubled = n.cap * 2 := by
      rw [checkedArrayCapacityDoubling] at hdouble
      split at hdouble
      · exact nomatch hdouble
      · rw [mul32_of_lt (by lia)] at hdouble
        exact (Except.ok.inj hdouble).symm
    obtain ⟨hgrown, hgrown'⟩ := le_grownCapacity (n.cap * 2) minCap
    simp only
    generalize grownCapacity (n.cap * 2) minCap = newCap at hgrown hgrown'
    cases hsize : checkedArrayAllocationSize newCap with
    | error e =>
      refine Or.inl ⟨e, rfl, ?_⟩
      rw [checkedArrayAllocationSize] at hsize
      split at hsize
      · cases hsize
        exact nofun
      · exact nomatch hsize
    | ok size =>
      obtain ⟨hcap, rfl⟩ := checkedArrayAllocationSize_ok hsize
      cases halloc : M.alloc m h (16 + newCap * 8) with
      | none => exact Or.inl ⟨.outOfMemory, by simp only [halloc], nofun⟩
      | some r =>
        obtain ⟨ptr, m1, h'⟩ := r
        have hgrant := M.granted halloc
        have hfits : ptr + 16 + newCap * 8 ≤ 2 ^ 32 := Nat.add_assoc ptr 16 _ ▸ hgrant.fits
        have hroom : xs.length ≤ newCap := by
          have := hlive.room
          lia
        have hapart : n.block.Apart (Node.mk ptr newCap n.owner).block :=
          hgrant.apart _ (hr.granted n hmem)
        have hcap32 : newCap < 2 ^ 32 := by lia
        have hheader : AgreeOff (Node.mk ptr newCap n.owner).block m
            (store32 (store32 (store8 m1 ptr arrayTag) (ptr + 8) xs.length) (ptr + 12) newCap) :=
          AgreeOff.trans hgrant.frame (header_agree m1 ⟨ptr, newCap, n.owner⟩ xs.length)
        obtain ⟨hcopied, hframe⟩ := copySlots_spec hlive (hr.fits n hmem) hfits hroom
          hapart hheader
        have hlive1 := @header_live m1 (copySlots ptr n.base xs.length 0
          (store32 (store32 (store8 m1 ptr arrayTag) (ptr + 8) xs.length) (ptr + 12) newCap))
          ⟨ptr, newCap, n.owner⟩ xs xs.length hcap32 (by lia) hroom rfl hcopied
          fun x hx => hframe x (Or.inl hx)
        generalize hmc : copySlots ptr n.base xs.length 0
          (store32 (store32 (store8 m1 ptr arrayTag) (ptr + 8) xs.length) (ptr + 12) newCap) = mc
          at hcopied hframe hlive1
        have hfwdAgree : AgreeOff n.block mc
            (store32 (store8 mc n.base forwardingTag) (n.base + forwardingPointerOffset) ptr) := by
          intro x hx
          have hout : x < n.base ∨ n.base + 16 ≤ x := by
            by_contra hnot
            exact hx (Node.block_has (by lia) (by lia))
          rw [forwardingPointerOffset, store32_of_ne (by lia), store8_of_ne (by lia)]
        have hfinal : ∀ x, ¬ n.block.Has x → ¬ (Node.mk ptr newCap n.owner).block.Has x →
            store32 (store8 mc n.base forwardingTag) (n.base + forwardingPointerOffset) ptr x =
              m x := by
          intro x hx hx'
          have hout : x < ptr ∨ ptr + 16 + newCap * 8 ≤ x := by
            by_contra hnot
            exact hx' (Node.block_has (show ptr ≤ x by lia)
              (show x < ptr + 16 + newCap * 8 by lia))
          have houtside : x < slotAt ptr 0 ∨ slotAt ptr xs.length ≤ x := by
            rw [slotAt, slotAt]
            lia
          rw [hfwdAgree x hx, hframe x houtside]
          exact hheader x hx'
        refine Or.inr ⟨store32 (store8 mc n.base forwardingTag)
          (n.base + forwardingPointerOffset) ptr, h', ⟨ptr, newCap, n.owner⟩, by simp only [halloc, hmc], rfl,
          hgrown', ?_, ?_, ?_⟩
        · exact hlive1.congr fun x hx => hfwdAgree x (hapart.symm.not_has hx)
        · refine hr.relocate hk (hr.toAllocated.append hgrant.blocks hgrant.apart hfits hcap) rfl
            (hxs ▸ hlive) ?_ ⟨?_, ?_⟩ ?_
          · exact hfinal
          · rw [forwardingPointerOffset, store32_of_ne (by lia), store8_self]
            rfl
          · exact load32_store32_self (by lia)
          · rw [hxs]
            exact hlive1.congr fun x hx => hfwdAgree x (hapart.symm.not_has hx)
        · exact hfinal

end

end Js2Wasm.Linear
