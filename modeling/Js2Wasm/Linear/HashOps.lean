import Js2Wasm.Linear.HashTables

/-! # The operations on a hash table

Each operation on a table that holds a list of pairs returns what the list answers and
leaves a table that holds the updated list, writing only to the table's own bytes.
-/
namespace Js2Wasm.Linear

open WordMemory Probing

section
variable {strings : Strings} {T : TableKind} {m m' : Memory} {table cap a key i v fuel : Nat}
  {k : Key} {slot : Nat → Option (Key × Nat)} {l l' : List (Key × Nat)}

/-- The key is present or a slot is free. -/
def Room (cap : Nat) (l : List (Key × Nat)) (k : Key) : Prop :=
  KeyedList.has sameKey l k = true ∨ l.length < cap

/-! ### Locating a key -/

theorem SlotsHold.exists_stop (h : SlotsHold strings T m table cap slot l) (hroom : Room cap l k) :
    ∃ i < cap, Probing.Stops slot k i := by
  rcases hroom with hhas | hfree
  · obtain ⟨p, hp, hkp⟩ := KeyedList.has_iff.mp hhas
    obtain ⟨i, hi, hsl⟩ := mem_pairs.mp (h.perm.mem_iff.mpr hp)
    refine ⟨i, hi, fun q hq => ?_⟩
    rw [hsl] at hq
    rw [← Option.some.inj hq]
    exact (of_decide_eq_true hkp).symm
  · have hlen : (pairs cap slot).length < cap := h.perm.length_eq ▸ hfree
    obtain ⟨i, hi, hn⟩ := exists_free hlen
    exact ⟨i, hi, stops_of_none hn⟩

variable (h : Holds strings T m table cap l) (hs : strings.In m) (hk : Denotes strings T key k)

section
include h hs hk

/-- The home slot is the first one probed. -/
theorem Holds.locate_eq :
    T.locate fuel m table key = T.probe m table key k.hash cap fuel (probed Key.hash cap k 0) := by
  rw [TableKind.locate]
  simp only [h.capWord, hk.keyHash hs]
  rw [if_neg h.cap_pos.ne']
  rfl

theorem Holds.locate (hslot : SlotsHold strings T m table cap slot l)
    (hroom : Room cap l k) (hfuel : cap ≤ fuel) :
    ∃ d < cap, Probing.Stops slot k (probed Key.hash cap k d) ∧
      (∀ d' < d, ¬ Probing.Stops slot k (probed Key.hash cap k d')) ∧
      T.locate fuel m table key = .ok (endAt T table (probed Key.hash cap k d)
        (slot (probed Key.hash cap k d))) := by
  obtain ⟨i, hi, hstop⟩ := hslot.exists_stop hroom
  obtain ⟨d, hd, hds, hbefore⟩ := @exists_first Key Nat Key.hash cap slot k i hi hstop
  refine ⟨d, hd, hds, hbefore, ?_⟩
  rw [h.locate_eq hs hk]
  exact probe_ends hs hk h.cap_pos h.fits hslot.holds hds hbefore d 0 fuel (Nat.zero_add d)
    (by lia)

/-- **Without room** no operation on the key returns. -/
theorem Holds.locate_full (hroom : ¬ Room cap l k) (hfull : l.length ≤ cap) :
    T.locate fuel m table key = .error .outOfFuel := by
  obtain ⟨slot, hslot⟩ := h.slots
  rw [Room, not_or, Nat.not_lt, Bool.not_eq_true] at hroom
  have hlen : (pairs cap slot).length = cap :=
    hslot.perm.length_eq.trans (Nat.le_antisymm hfull hroom.2)
  rw [h.locate_eq hs hk]
  refine probe_full hs hk h.cap_pos h.fits hslot.holds (fun i hi hstop => ?_) fuel _
    (probed_lt h.cap_pos 0)
  obtain ⟨p, hp⟩ := Option.ne_none_iff_exists'.mp (occupied_of_full hlen hi)
  have hmem : p ∈ l := hslot.perm.mem_iff.mp (mem_pairs.mpr ⟨i, hi, hp⟩)
  have hne := KeyedList.has_eq_false_iff.mp hroom.1 p hmem
  exact absurd (hstop p hp).symm (of_decide_eq_false hne)

end

/-- What a located entry says about the list. -/
theorem SlotsHold.free_iff (h : SlotsHold strings T m table cap slot l) {d : Nat}
    (hbefore : ∀ d' < d, ¬ Probing.Stops slot k (probed Key.hash cap k d'))
    (hfree : slot (probed Key.hash cap k d) = none) : KeyedList.has sameKey l k = false := by
  rw [KeyedList.has_eq_false_iff]
  intro p hp
  obtain ⟨i, hi, hsl⟩ := mem_pairs.mp (h.perm.mem_iff.mpr hp)
  exact decide_eq_false fun he => h.chained.absent hfree hbefore hi hsl he.symm

theorem SlotsHold.mem (h : SlotsHold strings T m table cap slot l) {p : Key × Nat} (hi : i < cap)
    (hp : slot i = some p) : p ∈ l := h.perm.mem_iff.mp (mem_pairs.mpr ⟨i, hi, hp⟩)

theorem has_of_mem {p : Key × Nat} (hp : p ∈ l) (hpk : p.1 = k) :
    KeyedList.has sameKey l k = true :=
  KeyedList.has_iff.mpr ⟨p, hp, decide_eq_true hpk.symm⟩

/-! ### Writing an entry -/

/-- The bytes of the value are written in a map only. -/
def storeValue (T : TableKind) (m : Memory) (a v : Nat) : Memory :=
  if T.hasValue then store32 m (a + 8) v else m

theorem storeValue_agree : AgreeOff ⟨a, T.entryBytes⟩ m (storeValue T m a v) := by
  rw [storeValue]
  rcases T.entryBytes_cases with ⟨hv, he⟩ | ⟨hv, -⟩
  · rw [if_pos hv, he]
    exact agreeOff_store32 _ (Nat.le_add_right _ _) .refl
  · rw [if_neg (by rw [hv]; exact Bool.false_ne_true)]
    exact AgreeOff.refl _ _

/-- Overwriting the value. -/
theorem SlotHolds.storeValue {w : Nat} (h : SlotHolds strings T m a (some (k, w)))
    (hv : v < 2 ^ 32) (hset : T.hasValue = false → v = 0) :
    SlotHolds strings T (storeValue T m a v) a (some (k, v)) := by
  obtain ⟨hhash, hden, -⟩ := h
  rw [Linear.storeValue]
  by_cases hval : T.hasValue = true
  · rw [if_pos hval, SlotHolds, if_pos hval, load32_store32_of_disjoint (by lia),
      load32_store32_of_disjoint (by lia), load32_store32_self hv]
    exact ⟨hhash, hden, rfl⟩
  · rw [if_neg hval, SlotHolds, if_neg hval]
    exact ⟨hhash, hden, hset (Bool.eq_false_of_not_eq_true hval)⟩

/-- A new entry. -/
theorem slotHolds_fill (hk : Denotes strings T key k) (hkey : key < 2 ^ 32) (hv : v < 2 ^ 32)
    (hset : T.hasValue = false → v = 0) :
    SlotHolds strings T (storeValue T (store32 (store32 m a k.hash) (a + 4) key) a v) a
      (some (k, v)) := by
  have hhash : load32 (store32 (store32 m a k.hash) (a + 4) key) a = k.hash := by
    rw [load32_store32_of_disjoint (by lia), load32_store32_self k.hash_lt]
  have hword : load32 (store32 (store32 m a k.hash) (a + 4) key) (a + 4) = key :=
    load32_store32_self hkey
  refine SlotHolds.storeValue (w := if T.hasValue then
    load32 (store32 (store32 m a k.hash) (a + 4) key) (a + 8) else 0) ⟨hhash, ?_, ?_⟩ hv hset
  · rw [hword]
    exact hk
  · cases T.hasValue <;> rfl

theorem fill_agree : AgreeOff ⟨a, T.entryBytes⟩ m
    (storeValue T (store32 (store32 m a k.hash) (a + 4) key) a v) := by
  have hbytes := T.eight_le_entryBytes
  have hhash : AgreeOff ⟨a, T.entryBytes⟩ m (store32 m a k.hash) :=
    agreeOff_store32 _ .refl (Nat.add_le_add_left (show 4 ≤ T.entryBytes by lia) a)
  have hkey : AgreeOff ⟨a, T.entryBytes⟩ (store32 m a k.hash)
      (store32 (store32 m a k.hash) (a + 4) key) :=
    agreeOff_store32 _ (Nat.le_add_right a 4) (Nat.add_le_add_left hbytes a)
  exact (hhash.trans hkey).trans storeValue_agree

/-- A memory that differs in one entry and the count. -/
theorem Holds.update (h : Holds strings T m table cap l)
    (hslot : SlotsHold strings T m table cap slot l) (hi : i < cap)
    (hagree : ∀ x, ¬ (Block.mk (T.entryAt table i) T.entryBytes).Has x →
      ¬ (Block.mk (table + 8) 4).Has x → m' x = m x)
    (hentry : SlotHolds strings T m' (T.entryAt table i) (some (k, v)))
    (hcount : load32 m' (table + 8) = l'.length) (hdistinct : KeyedList.Distinct sameKey l')
    (hchained : Chained Key.hash cap (Function.update slot i (some (k, v))))
    (hperm : (pairs cap (Function.update slot i (some (k, v)))).Perm l') :
    Holds strings T m' table cap l' := by
  have hbounds : ∀ {j}, j < cap → table + 16 ≤ T.entryAt table j := fun hj =>
    (TableKind.entryAt_bounds hj).1
  have hcapWord : load32 m' (table + 12) = load32 m (table + 12) := by
    have hlow := hbounds hi
    refine load32_congr fun x hx hx' => hagree x (fun hx'' => ?_) (fun hx'' => ?_)
    · have hle : T.entryAt table i ≤ x := hx''.1
      lia
    · have hlt : x < table + 8 + 4 := hx''.2
      lia
  refine ⟨h.cap_pos, h.fits, hcapWord.trans h.capWord, hcount, hdistinct, _, ?_, hchained, hperm⟩
  intro j hj
  by_cases hji : j = i
  · rw [hji, Function.update_self]
    exact hentry
  · rw [Function.update_of_ne hji]
    refine (hslot.holds j hj).congr fun x hx hx' => hagree x (fun hx'' => ?_) (fun hx'' => ?_)
    · have hlow : T.entryAt table i ≤ x := hx''.1
      have hhigh : x < T.entryAt table i + T.entryBytes := hx''.2
      rcases @TableKind.entryAt_apart T table j i hji with hap | hap <;> lia
    · have hhigh : x < table + 8 + 4 := hx''.2
      have hlow := hbounds hj
      lia

/-! ### The operations -/

section
include h hs hk

/-- **Insert or update.** -/
theorem Holds.put (hkey : key < 2 ^ 32) (hv : v < 2 ^ 32) (hset : T.hasValue = false → v = 0)
    (hroom : Room cap l k) (hfuel : cap ≤ fuel) :
    ∃ m', T.put fuel m table key v = .ok m' ∧
      Holds strings T m' table cap (KeyedList.set sameKey l k v) ∧
      AgreeOff (T.block table cap) m m' := by
  obtain ⟨slot, hslot⟩ := h.slots
  obtain ⟨d, hd, hstop, hbefore, hloc⟩ := h.locate hs hk hslot hroom hfuel
  have hi : probed Key.hash cap k d < cap := probed_lt h.cap_pos d
  obtain ⟨hlow, hhigh⟩ := @TableKind.entryAt_bounds T table cap _ hi
  have haddr := TableKind.entryAddr_eq h.fits hi
  have hinside : ∀ {m1 m2 : Memory},
      AgreeOff ⟨T.entryAt table (probed Key.hash cap k d), T.entryBytes⟩ m1 m2 →
      AgreeOff (T.block table cap) m1 m2 := by
    intro m1 m2 hag x hx
    exact hag x fun hx' => hx (TableKind.block_has
      (Nat.le_trans ((Nat.le_add_right _ 16).trans hlow) hx'.1)
      (hx'.2.trans_le hhigh))
  have hcountKept : ∀ {m1 : Memory},
      AgreeOff ⟨T.entryAt table (probed Key.hash cap k d), T.entryBytes⟩ m m1 →
      load32 m1 (table + 8) = l.length := by
    intro m1 hag
    refine (load32_congr fun x hx hx' => hag x fun hx'' => ?_).trans h.countWord
    have hle : T.entryAt table (probed Key.hash cap k d) ≤ x := hx''.1
    lia
  rw [TableKind.put, hloc]
  generalize hidx : probed Key.hash cap k d = i at *
  have hkeyAddr : add32 table (mul32 i T.entryBytes) + 20 = T.entryAt table i + 4 := by lia
  have hvalAddr : add32 table (mul32 i T.entryBytes) + 24 = T.entryAt table i + 8 := by lia
  cases hsl : slot i with
  | none =>
    have habs : KeyedList.has sameKey l k = false :=
      hslot.free_iff (d := d) hbefore (hidx ▸ hsl)
    have hfree : l.length < cap := hroom.resolve_left (by rw [habs]; exact Bool.false_ne_true)
    have hcap : cap < 2 ^ 32 := by
      have hfits := h.fits
      rcases T.entryBytes_cases with ⟨-, he⟩ | ⟨-, he⟩ <;> rw [he] at hfits <;> lia
    have hfill := @fill_agree T m (T.entryAt table i) key v k
    have hfilled := @slotHolds_fill strings T m (T.entryAt table i) key v k hk hkey hv hset
    simp only [endAt, hk.keyHash hs, haddr, hkeyAddr, hvalAddr]
    refine ⟨_, rfl, ?_, ?_⟩
    · have hcount := hcountKept hfill
      rw [storeValue] at hcount hfill hfilled
      rw [hcount, add32_of_lt (by lia)]
      refine h.update hslot (v := v) (k := k) hi (fun x hx hx' => ?_) ?_ ?_
        (h.distinct.set KeyedList.isEquiv_decide k v) ?_ ?_
      · have hout : x < table + 8 ∨ table + 8 + 4 ≤ x := by
          have hnot : ¬ (table + 8 ≤ x ∧ x < table + 8 + 4) := hx'
          lia
        rw [store32_of_ne hout]
        exact hfill x hx
      · exact hfilled.congr fun x hx _ => store32_of_ne (Or.inr (by lia))
      · rw [load32_store32_self (by lia), KeyedList.length_set, habs]
        rfl
      · have hins := hslot.chained.insert hd (by rw [hidx]; exact hsl) hbefore v
        rw [hidx] at hins
        exact hins
      · rw [KeyedList.set_of_not_has habs]
        exact (pairs_insert hi hsl (k, v)).trans (hslot.perm.append_right _)
    · refine (hinside hfill).trans (agreeOff_store32 _ ?_ ?_)
      · exact Nat.le_add_right table 8
      · show table + 8 + 4 ≤ table + (16 + cap * T.entryBytes)
        lia
  | some p =>
    obtain rfl : p.1 = k := hstop p hsl
    have hhas : KeyedList.has sameKey l p.1 = true := has_of_mem (hslot.mem hi hsl) rfl
    have hagree := @storeValue_agree T m (T.entryAt table i) v
    have hentry := hslot.holds i hi
    rw [hsl] at hentry
    simp only [endAt, hvalAddr]
    refine ⟨storeValue T m (T.entryAt table i) v, rfl, ?_, hinside hagree⟩
    refine h.update hslot (v := v) (k := p.1) hi (fun x hx _ => hagree x hx) ?_ ?_
      (h.distinct.set KeyedList.isEquiv_decide p.1 v) (hslot.chained.replace hsl v) ?_
    · exact SlotHolds.storeValue (w := p.2) hentry hv hset
    · rw [hcountKept hagree, KeyedList.length_set, if_pos hhas]
    · rw [KeyedList.set_of_has hhas, hslot.chained.pairs_replace hi hsl v]
      exact hslot.perm.map _

/-- **Look-up of a value.** -/
theorem Holds.get (hval : T.hasValue = true) (hroom : Room cap l k) (hfuel : cap ≤ fuel) :
    T.get fuel m table key = .ok ((KeyedList.get? sameKey l k).getD 0) := by
  obtain ⟨slot, hslot⟩ := h.slots
  obtain ⟨d, -, hstop, hbefore, hloc⟩ := h.locate hs hk hslot hroom hfuel
  have hi : probed Key.hash cap k d < cap := probed_lt h.cap_pos d
  have haddr := TableKind.entryAddr_eq h.fits hi
  rw [TableKind.get, hloc]
  cases hsl : slot (probed Key.hash cap k d) with
  | none =>
    rw [KeyedList.get?_eq_none (hslot.free_iff hbefore hsl)]
    rfl
  | some p =>
    have hpk := hstop p hsl
    obtain ⟨-, -, hword⟩ : SlotHolds strings T m _ (some p) := hsl ▸ hslot.holds _ hi
    rw [if_pos hval] at hword
    rw [h.distinct.get?_of_mem KeyedList.isEquiv_decide (hslot.mem hi hsl)
      (decide_eq_true hpk.symm), Option.getD_some]
    simp only [endAt]
    rw [← hword, ← haddr]

/-- **Look-up of a key.** -/
theorem Holds.has (hroom : Room cap l k) (hfuel : cap ≤ fuel) :
    T.has fuel m table key = .ok (KeyedList.has sameKey l k).toNat := by
  obtain ⟨slot, hslot⟩ := h.slots
  obtain ⟨d, -, hstop, hbefore, hloc⟩ := h.locate hs hk hslot hroom hfuel
  have hi : probed Key.hash cap k d < cap := probed_lt h.cap_pos d
  rw [TableKind.has, hloc]
  cases hsl : slot (probed Key.hash cap k d) with
  | none =>
    rw [hslot.free_iff hbefore hsl]
    rfl
  | some p =>
    rw [has_of_mem (hslot.mem hi hsl) (hstop p hsl)]
    rfl

/-- **Without room** nothing returns. -/
theorem Holds.full (hroom : ¬ Room cap l k) (hfull : l.length ≤ cap) :
    T.put fuel m table key v = .error .outOfFuel ∧ T.get fuel m table key = .error .outOfFuel ∧
      T.has fuel m table key = .error .outOfFuel := by
  have hloc : T.locate fuel m table key = .error .outOfFuel := h.locate_full hs hk hroom hfull
  rw [TableKind.put, TableKind.get, TableKind.has, hloc]
  exact ⟨rfl, rfl, rfl⟩

end

/-! ### A new table -/

/-- The loop frees every entry and writes nowhere else. -/
theorem zeroHashes_spec (hfits : table + 16 + cap * T.entryBytes ≤ 2 ^ 32) :
    ∀ n i m, i + n = cap →
      (∀ j, i ≤ j → j < cap → load32 (T.zeroHashes table n i m) (T.entryAt table j) = 0) ∧
      ∀ x, x < T.entryAt table i ∨ table + 16 + cap * T.entryBytes ≤ x →
        T.zeroHashes table n i m x = m x := by
  intro n
  induction n with
  | zero =>
    intro i m hi
    exact ⟨fun j hij hj => absurd hj (by lia), fun x _ => rfl⟩
  | succ n ih =>
    intro i m hi
    have hlt : i < cap := by lia
    have hnext : T.entryAt table (i + 1) = T.entryAt table i + T.entryBytes := by
      rw [TableKind.entryAt, TableKind.entryAt, Nat.add_mul]
      lia
    have hbounds := @TableKind.entryAt_bounds T table cap i hlt
    have hbytes := T.eight_le_entryBytes
    have hwrap : i + 1 < 2 ^ 32 := by
      rcases T.entryBytes_cases with ⟨-, he⟩ | ⟨-, he⟩ <;> rw [he] at hfits <;> lia
    obtain ⟨hzero, hkeep⟩ := ih (i + 1) (store32 m (T.entryAt table i) 0) (by lia)
    rw [TableKind.zeroHashes, TableKind.entryAddr_eq hfits hlt, add32_of_lt hwrap]
    refine ⟨fun j hij hj => ?_, fun x hx => ?_⟩
    · rcases Nat.eq_or_lt_of_le hij with rfl | hij
      · rw [load32_congr (m := store32 m (T.entryAt table i) 0) fun x hx hx' =>
          hkeep x (Or.inl (by lia))]
        exact load32_store32_self (by decide)
      · exact hzero j hij hj
    · rw [hkeep x (by lia)]
      exact store32_of_ne (by lia)

/-- **A new table** is empty and lies in a new block. -/
theorem create_spec {σ : Type} (M : Malloc σ) {s s' : σ} {p : Nat} (hcap : 0 < cap)
    (hsize : 16 + cap * T.entryBytes < 2 ^ 32) (heq : T.create M cap m s = .ok (p, m', s')) :
    Granted (M.blocks s) (M.blocks s') m m' p (16 + cap * T.entryBytes) ∧
      Holds strings T m' p cap [] := by
  have hmul : cap * T.entryBytes < 2 ^ 32 := by lia
  rw [TableKind.create, mul32_of_lt hmul, add32_of_lt hsize] at heq
  split at heq
  · exact nomatch heq
  · next q m1 s1 halloc =>
    cases heq
    have hgrant := M.granted halloc
    have hfits : p + 16 + cap * T.entryBytes ≤ 2 ^ 32 := by
      have := hgrant.fits
      lia
    have hcap32 : cap < 2 ^ 32 := by
      rcases T.entryBytes_cases with ⟨-, he⟩ | ⟨-, he⟩ <;> rw [he] at hsize <;> lia
    obtain ⟨hzero, hkeep⟩ := @zeroHashes_spec T p cap hfits cap 0
      (store32 (store32 m1 (p + 8) 0) (p + 12) cap) (Nat.zero_add cap)
    have hfirst : T.entryAt p 0 = p + 16 := by rw [TableKind.entryAt, Nat.zero_mul, Nat.add_zero]
    rw [hfirst] at hkeep
    have hhead : ∀ o, o + 4 ≤ 16 →
        load32 (T.zeroHashes p cap 0 (store32 (store32 m1 (p + 8) 0) (p + 12) cap)) (p + o) =
          load32 (store32 (store32 m1 (p + 8) 0) (p + 12) cap) (p + o) :=
      fun o ho => load32_congr fun x hx hx' => hkeep x (Or.inl (by lia))
    refine ⟨⟨hgrant.blocks, hgrant.apart, hgrant.fits, hgrant.frame.trans fun x hx => ?_⟩,
      hcap, hfits, ?_, ?_, KeyedList.distinct_nil, fun _ => none, ?_, chained_empty, ?_⟩
    · have hnot : ¬ (p ≤ x ∧ x < p + (16 + cap * T.entryBytes)) := hx
      rw [hkeep x (by lia), store32_of_ne (by lia), store32_of_ne (by lia)]
    · rw [hhead 12 (by lia)]
      exact load32_store32_self hcap32
    · rw [hhead 8 (by lia), load32_store32_of_disjoint (by lia)]
      exact load32_store32_self (by decide)
    · exact fun i hi => hzero i (Nat.zero_le i) hi
    · rw [pairs_empty]

end

end Js2Wasm.Linear
