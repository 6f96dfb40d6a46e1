import Js2Wasm.Collections.Values
import Js2Wasm.Lib.Allocator
import Js2Wasm.Lib.Chains
import Js2Wasm.Lib.Records

/-! # The native Map

A map is a vector of entries in the order of insertion and an array of buckets.  A bucket
names the entry its chain begins with, an entry names the next one, and -1 names none.
Deleting an entry sets the tombstone bit of its hash; the entry stays in the vector and in
its chain.  The vector doubles when it is full and the buckets double when the live entries
exceed three quarters of them; the chains are then built again from the live entries.

Lengths and counts are i32: the doubling is reduced modulo `2 ^ 32` and the comparisons are
signed.  An access out of bounds or to an empty slot is a trap.

`Sound` is what every map satisfies between two calls.  The chains of its buckets are those
of `Chains.Table`: they run down through the entries, each live entry lies in the chain of
the bucket of its hash and in no other, and in no chain twice.  The live entries in the
order of the vector are the pairs of the map, and no two have SameValueZero-equal keys.

A key that is equal to a live one has its hash, so the walk along one chain decides whether
the key is there (`Sound.lookup`).  Here the NaN keys are
asked to have one hash (`KeyLaw`).
-/
namespace Js2Wasm.Collections
open List
open WordMemory (Halt add32 sub32 mul32 signed32)

/-- `INIT_CAP`. -/
def initCap : Nat := 8

/-- `TOMBSTONE_BIT`. -/
def tombstoneBit : BitVec 32 := 0x40000000#32

/-- `$MapEntry`. -/
structure MapEntry where
  key : AnyRef
  value : AnyRef
  next : Int
  hash : BitVec 32
deriving DecidableEq

def MapEntry.isLive (e : MapEntry) : Bool := e.hash &&& tombstoneBit == 0#32

/-- `$Map`. -/
structure NativeMap where
  buckets : List Int
  entries : List (Option MapEntry)
  entryCount : Nat
  liveCount : Nat
  kind : Nat
deriving DecidableEq

/-- `hash & (cap - 1)`. -/
def bucketOf (hash : BitVec 32) (cap : Nat) : Nat := (hash &&& (BitVec.ofNat 32 cap - 1#32)).toNat

/-! ### Arrays -/

def arrayGet {α : Type} (l : List α) (i : Nat) : Except Halt α :=
  match l[i]? with
  | some x => .ok x
  | none => .error .trap

def arraySet {α : Type} (l : List α) (i : Nat) (x : α) : Except Halt (List α) :=
  if i < l.length then .ok (l.set i x) else .error .trap

/-- The entry of a slot; the cast of an empty slot is a trap. -/
def entryAt (entries : List (Option MapEntry)) (i : Nat) : Except Halt MapEntry :=
  match entries[i]? with
  | some (some e) => .ok e
  | _ => .error .trap

/-! ### Look-up -/

section
variable (W : World)

/-- `__map_new`. -/
def mapNew (kind : Nat) : NativeMap :=
  ⟨replicate initCap (-1), replicate initCap none, 0, 0, kind⟩

/-- The walk along a chain. -/
def walkChain (entries : List (Option MapEntry)) (key : AnyRef) : Nat → Int → Except Halt Int
  | 0, _ => .error .outOfFuel
  | fuel + 1, cur =>
    if cur < 0 then .ok (-1)
    else
      match entryAt entries cur.toNat with
      | .error h => .error h
      | .ok entry =>
        if entry.isLive && sameValueZero W key entry.key then .ok cur
        else walkChain entries key fuel entry.next

/-- `__map_lookup_idx`. -/
def mapLookupIdx (fuel : Nat) (m : NativeMap) (key : AnyRef) : Except Halt Int :=
  match arrayGet m.buckets (bucketOf (hashAnyref W key) m.buckets.length) with
  | .error h => .error h
  | .ok cur => walkChain W m.entries key fuel cur

/-- `__map_get`. -/
def mapGet (fuel : Nat) (m : NativeMap) (key : AnyRef) : Except Halt AnyRef :=
  match mapLookupIdx W fuel m key with
  | .error h => .error h
  | .ok idx =>
    if idx < 0 then .ok W.missing
    else
      match entryAt m.entries idx.toNat with
      | .error h => .error h
      | .ok entry => .ok entry.value

/-- `__map_has`. -/
def mapHas (fuel : Nat) (m : NativeMap) (key : AnyRef) : Except Halt Bool :=
  match mapLookupIdx W fuel m key with
  | .error h => .error h
  | .ok idx => .ok (idx != -1)

/-- `__map_size`. -/
def mapSize (m : NativeMap) : Nat := m.liveCount

/-! ### Changes -/

/-- `growEntriesInstrs`: the entries are copied to a vector of twice the length. -/
def growEntries (m : NativeMap) : Except Halt NativeMap :=
  let len := mul32 m.entries.length 2
  if m.entries.length ≤ len then
    .ok { m with entries := m.entries ++ replicate (len - m.entries.length) none }
  else .error .trap

/-- The loop that links the live entries from `i` on, `todo` of them, into `cap` buckets. -/
def relink (cap : Nat) : (todo i : Nat) → NativeMap → Except Halt NativeMap
  | 0, _, m => .ok m
  | todo + 1, i, m =>
    match entryAt m.entries i with
    | .error h => .error h
    | .ok entry =>
      if entry.isLive then
        let bucket := bucketOf entry.hash cap
        match arrayGet m.buckets bucket with
        | .error h => .error h
        | .ok head =>
          relink cap todo (i + 1)
            { m with
              entries := m.entries.set i (some { entry with next := head })
              buckets := m.buckets.set bucket (signed32 i) }
      else relink cap todo (i + 1) m

/-- `rehashIfNeededInstrs`. -/
def rehashIfNeeded (m : NativeMap) : Except Halt NativeMap :=
  if signed32 (mul32 m.buckets.length 3) < signed32 (mul32 m.liveCount 4) then
    let cap := mul32 m.buckets.length 2
    relink cap (signed32 m.entryCount).toNat 0 { m with buckets := replicate cap (-1) }
  else .ok m

/-- The entry that `__map_set` adds for a new key. -/
def appendEntry (m : NativeMap) (key value : AnyRef) : Except Halt NativeMap :=
  let hash := hashAnyref W key
  let bucket := bucketOf hash m.buckets.length
  match arrayGet m.buckets bucket with
  | .error h => .error h
  | .ok next =>
    match arraySet m.entries m.entryCount (some ⟨key, value, next, hash⟩) with
    | .error h => .error h
    | .ok entries =>
      match arraySet m.buckets bucket (signed32 m.entryCount) with
      | .error h => .error h
      | .ok buckets =>
        rehashIfNeeded
          { m with
            buckets := buckets
            entries := entries
            entryCount := add32 m.entryCount 1
            liveCount := add32 m.liveCount 1 }

/-- `__map_set`. -/
def mapSet (fuel : Nat) (m : NativeMap) (key value : AnyRef) : Except Halt NativeMap :=
  match mapLookupIdx W fuel m key with
  | .error h => .error h
  | .ok idx =>
    if 0 ≤ idx then
      match entryAt m.entries idx.toNat with
      | .error h => .error h
      | .ok entry =>
        .ok { m with entries := m.entries.set idx.toNat (some { entry with value := value }) }
    else if signed32 m.entries.length ≤ signed32 m.entryCount then
      match growEntries m with
      | .error h => .error h
      | .ok m => appendEntry W m key value
    else appendEntry W m key value

/-- `__map_delete`. -/
def mapDelete (fuel : Nat) (m : NativeMap) (key : AnyRef) : Except Halt (NativeMap × Bool) :=
  match mapLookupIdx W fuel m key with
  | .error h => .error h
  | .ok idx =>
    if idx < 0 then .ok (m, false)
    else
      match entryAt m.entries idx.toNat with
      | .error h => .error h
      | .ok entry =>
        .ok ({ m with
          entries := m.entries.set idx.toNat
            (some ⟨.null, .null, entry.next, entry.hash ||| tombstoneBit⟩)
          liveCount := sub32 m.liveCount 1 }, true)

/-- `__map_clear`. -/
def mapClear (m : NativeMap) : NativeMap :=
  ⟨replicate initCap (-1), replicate initCap none, 0, 0, m.kind⟩

/-! ### Calls on any number of maps -/

inductive MapOp where
  | new (kind : Nat)
  | set (map : Nat) (key value : AnyRef)
  | get (map : Nat) (key : AnyRef)
  | has (map : Nat) (key : AnyRef)
  | delete (map : Nat) (key : AnyRef)
  | clear (map : Nat)
  | size (map : Nat)
deriving DecidableEq

/-- What a call answers, with the values it may answer. -/
inductive Answer (α : Type) where
  | unit
  | map (i : Nat)
  | value (v : α)
  | flag (b : Bool)
  | count (n : Nat)
deriving DecidableEq

/-- One call; a map is named by the order in which it was made. -/
def mapStep (fuel : Nat) (s : List NativeMap) :
    MapOp → Except Halt (List NativeMap × Answer AnyRef)
  | .new kind => .ok (s ++ [mapNew kind], .map s.length)
  | .set i key value =>
    match arrayGet s i with
    | .error h => .error h
    | .ok m =>
      match mapSet W fuel m key value with
      | .error h => .error h
      | .ok m => .ok (s.set i m, .map i)
  | .get i key =>
    match arrayGet s i with
    | .error h => .error h
    | .ok m =>
      match mapGet W fuel m key with
      | .error h => .error h
      | .ok v => .ok (s, .value v)
  | .has i key =>
    match arrayGet s i with
    | .error h => .error h
    | .ok m =>
      match mapHas W fuel m key with
      | .error h => .error h
      | .ok b => .ok (s, .flag b)
  | .delete i key =>
    match arrayGet s i with
    | .error h => .error h
    | .ok m =>
      match mapDelete W fuel m key with
      | .error h => .error h
      | .ok (m, b) => .ok (s.set i m, .flag b)
  | .clear i =>
    match arrayGet s i with
    | .error h => .error h
    | .ok m => .ok (s.set i (mapClear m), .unit)
  | .size i =>
    match arrayGet s i with
    | .error h => .error h
    | .ok m => .ok (s, .count (mapSize m))

end

/-! ### Hashes and tombstones -/

theorem bucketOf_lt {hash : BitVec 32} {cap : Nat} (h : 0 < cap) (hcap : cap < 2 ^ 32) :
    bucketOf hash cap < cap := by
  have hle : bucketOf hash cap ≤ (BitVec.ofNat 32 cap - 1#32).toNat := by
    rw [bucketOf, BitVec.toNat_and]
    exact Nat.and_le_right
  have hval : (BitVec.ofNat 32 cap - 1#32).toNat = cap - 1 := by
    rw [BitVec.toNat_sub, BitVec.toNat_ofNat, BitVec.toNat_ofNat, Nat.mod_eq_of_lt hcap]
    omega
  omega

theorem and_mask_tombstone (h : BitVec 32) : h &&& 0x3fffffff#32 &&& tombstoneBit = 0#32 := by
  rw [BitVec.and_assoc]
  exact BitVec.and_zero

/-- A hash has no tombstone bit. -/
theorem hashAnyref_and_tombstone (W : World) (k : AnyRef) :
    hashAnyref W k &&& tombstoneBit = 0#32 := by
  rw [hashAnyref_eq]
  cases denote W k with
  | number x | string s => exact and_mask_tombstone _
  | null | object _ => exact BitVec.zero_and

theorem or_tombstone (h : BitVec 32) : ((h ||| tombstoneBit) &&& tombstoneBit == 0#32) = false := by
  apply beq_false_of_ne
  intro hzero
  have hbit := congrArg (BitVec.getLsbD · 30) hzero
  have hone : tombstoneBit.getLsbD 30 = true := by decide
  rw [BitVec.getLsbD_and, BitVec.getLsbD_or, hone, Bool.or_true, Bool.and_true,
    BitVec.getLsbD_zero] at hbit
  exact nomatch hbit

/-! ## Well-formed maps and look-up -/

open Chains Records
open KeyedList (has Distinct)

/-- What is known of the keys: the hash of those that are NaN, and what holds of every key
that is kept. -/
structure KeyLaw where
  nanHash : BitVec 32
  keeps : AnyRef → Prop

/-! ### What an entry is -/

/-- The next entry of the chain. -/
def nextOf (entries : List (Option MapEntry)) (i : Nat) : Option Int :=
  entries[i]?.join.map (·.next)

/-- The bucket of a live entry. -/
def homeOf (cap : Nat) (entries : List (Option MapEntry)) (i : Nat) : Option Nat :=
  match entries[i]?.join with
  | some e => if e.isLive then some (bucketOf e.hash cap) else none
  | none => none

variable {W : World} {H : KeyLaw} {m : NativeMap} {entries : List (Option MapEntry)}
  {e : MapEntry} {i : Nat} {key : AnyRef}

theorem nextOf_of (h : entries[i]? = some (some e)) : nextOf entries i = some e.next := by
  rw [nextOf, h]
  rfl

theorem nextOf_some {n : Int} (h : nextOf entries i = some n) :
    ∃ e, entries[i]? = some (some e) ∧ e.next = n := by
  rw [nextOf] at h
  cases hx : entries[i]? with
  | none => rw [hx] at h; exact nomatch h
  | some x =>
    cases x with
    | none => rw [hx] at h; exact nomatch h
    | some e =>
      rw [hx] at h
      exact ⟨e, rfl, Option.some.inj h⟩

variable {cap : Nat} {α : Type} {l : List α}

theorem homeOf_of (h : entries[i]? = some (some e)) :
    homeOf cap entries i = if e.isLive then some (bucketOf e.hash cap) else none := by
  rw [homeOf, h]
  rfl

theorem homeOf_some {b : Nat} (h : homeOf cap entries i = some b) :
    ∃ e, entries[i]? = some (some e) ∧ e.isLive = true ∧ bucketOf e.hash cap = b := by
  rw [homeOf] at h
  cases hx : entries[i]? with
  | none => rw [hx] at h; exact nomatch h
  | some x =>
    cases x with
    | none => rw [hx] at h; exact nomatch h
    | some e =>
      rw [hx] at h
      have hif : (if e.isLive then some (bucketOf e.hash cap) else none) = some b := h
      cases hl : e.isLive with
      | false =>
        rw [hl] at hif
        exact nomatch hif
      | true =>
        rw [hl] at hif
        exact ⟨e, rfl, hl, Option.some.inj hif⟩

theorem entryAt_of (h : entries[i]? = some (some e)) : entryAt entries i = .ok e := by
  rw [entryAt, h]

theorem arrayGet_of {x : α} (h : l[i]? = some x) :
    arrayGet l i = .ok x := by rw [arrayGet, h]

theorem arraySet_of (h : i < l.length) (x : α) :
    arraySet l i x = .ok (l.set i x) := by rw [arraySet, if_pos h]

/-! ### The pairs of a map -/

section
variable (W : World)

/-- The key a collection keeps for a reference. -/
def keyOf (key : AnyRef) : JsValue := canonicalKey (denote W key)

/-- The pair of a live entry. -/
def slotOf : Option MapEntry → Option (JsValue × JsValue)
  | some e => if e.isLive then some (keyOf W e.key, denote W e.value) else none
  | none => none

/-- The used part of the vector as records. -/
def slots (m : NativeMap) : List (Option (JsValue × JsValue)) :=
  (m.entries.take m.entryCount).map (slotOf W)

/-- The live pairs in the order of the vector. -/
def pairs (m : NativeMap) : List (JsValue × JsValue) := (slots W m).reduceOption

/-- A NaN key has the hash of the law. -/
def Expected (H : KeyLaw) (key : AnyRef) : Prop :=
  (denote W key).isNaN = true → hashAnyref W key = H.nanHash

/-- A well-formed map. -/
structure Sound (H : KeyLaw) (m : NativeMap) : Prop where
  full : ∀ {i : Nat}, i < m.entryCount → ∃ e, m.entries[i]? = some (some e)
  linked : ∃ chains, Table (nextOf m.entries) m.buckets (homeOf m.buckets.length m.entries)
    m.entryCount chains
  hashed : ∀ {i : Nat} {e : MapEntry}, i < m.entryCount → m.entries[i]? = some (some e) →
    e.isLive = true → e.hash = hashAnyref W e.key ∧ Expected W H e.key ∧ H.keeps e.key
  distinct : Distinct svz (pairs W m)
  counted : m.liveCount = (pairs W m).length
  inside : m.entryCount ≤ m.entries.length
  grown : m.entries.length = initCap ∨ m.entries.length < 2 * m.entryCount
  few : m.entryCount ≤ 2 ^ 30 + 1
  entries_le : m.entries.length ≤ 2 ^ 31
  buckets_pos : 0 < m.buckets.length
  buckets_le : m.buckets.length ≤ 2 ^ 31

end

theorem slotOf_live (h : e.isLive = true) :
    slotOf W (some e) = some (keyOf W e.key, denote W e.value) := by
  rw [slotOf, if_pos h]

variable {fuel : Nat} {p : JsValue × JsValue}

theorem slotOf_some {x : Option MapEntry} (h : slotOf W x = some p) :
    ∃ e, x = some e ∧ e.isLive = true ∧ p = (keyOf W e.key, denote W e.value) := by
  cases x with
  | none => exact nomatch h
  | some e =>
    rw [slotOf] at h
    cases hl : e.isLive with
    | false => rw [hl] at h; exact nomatch h
    | true =>
      rw [hl] at h
      exact ⟨e, rfl, hl, (Option.some.inj h).symm⟩

theorem getElem?_slots (hi : i < m.entryCount) :
    (slots W m)[i]? = (m.entries[i]?).map (slotOf W) := by
  rw [slots, getElem?_map, getElem?_take_of_lt hi]

theorem slots_of (hi : i < m.entryCount) (he : m.entries[i]? = some (some e))
    (hl : e.isLive = true) :
    (slots W m)[i]? = some (some (keyOf W e.key, denote W e.value)) := by
  rw [getElem?_slots hi, he, Option.map_some, slotOf_live hl]

theorem slots_some (h : (slots W m)[i]? = some (some p)) :
    ∃ e, i < m.entryCount ∧ m.entries[i]? = some (some e) ∧ e.isLive = true ∧
      p = (keyOf W e.key, denote W e.value) := by
  have hi : i < m.entryCount := by
    by_contra hge
    rw [slots, getElem?_map, getElem?_take, if_neg hge] at h
    exact nomatch h
  rw [getElem?_slots hi] at h
  obtain ⟨x, hx, hp⟩ := Option.map_eq_some_iff.mp h
  obtain ⟨e, rfl, hl, rfl⟩ := slotOf_some hp
  exact ⟨e, hi, hx, hl, rfl⟩

theorem mem_pairs (h : p ∈ pairs W m) :
    ∃ i e, i < m.entryCount ∧ m.entries[i]? = some (some e) ∧ e.isLive = true ∧
      p = (keyOf W e.key, denote W e.value) := by
  obtain ⟨i, hi⟩ := getElem?_of_mem (reduceOption_mem_iff.mp h)
  obtain ⟨e, hlt, he, hl, hp⟩ := slots_some hi
  exact ⟨i, e, hlt, he, hl, hp⟩

theorem length_slots (h : m.entryCount ≤ m.entries.length) :
    (slots W m).length = m.entryCount := by
  rw [slots, length_map, length_take, Nat.min_eq_left h]

theorem Sound.liveCount_le (h : Sound W H m) : m.liveCount ≤ m.entryCount := by
  have hlen := reduceOption_length_le (slots W m)
  rw [length_slots h.inside] at hlen
  rw [h.counted]
  exact hlen

/-- The keys of a collection are compared as the references are. -/
theorem svz_keyOf (k k' : AnyRef) : svz (keyOf W k) (keyOf W k') = sameValueZero W k k' := by
  rw [sameValueZero_eq, keyOf, keyOf, svz_isEquiv.congr (svz_canonicalKey _), svz_comm,
    svz_isEquiv.congr (svz_canonicalKey _), svz_comm]

/-! ### Look-up -/

/-- The walk stops at the first live entry of the chain with an equal key. -/
theorem walkChain_spec (W : World) (key : AnyRef) {is : List Nat} {cur : Int}
    (hc : Chain (nextOf entries) cur is) (hf : is.length < fuel) :
    (walkChain W entries key fuel cur = .ok (-1) ∧
      ∀ i ∈ is, ∀ e, entries[i]? = some (some e) → e.isLive = true →
        sameValueZero W key e.key = false) ∨
    ∃ i ∈ is, ∃ e, walkChain W entries key fuel cur = .ok (i : Int) ∧
      entries[i]? = some (some e) ∧ e.isLive = true ∧ sameValueZero W key e.key = true := by
  induction is generalizing cur fuel with
  | nil =>
    obtain ⟨fuel, rfl⟩ := Nat.exists_eq_succ_of_ne_zero hf.ne'
    have hcur : cur = -1 := hc
    refine Or.inl ⟨?_, fun i hi => nomatch hi⟩
    rw [walkChain, if_pos (by omega)]
  | cons i is ih =>
    obtain ⟨rfl, n, hn, hrest⟩ := hc
    obtain ⟨e, he, rfl⟩ := nextOf_some hn
    rw [length_cons] at hf
    obtain ⟨fuel, rfl⟩ := Nat.exists_eq_succ_of_ne_zero (Nat.ne_of_gt (Nat.zero_lt_of_lt hf))
    have hstep : walkChain W entries key (fuel + 1) i =
        if e.isLive && sameValueZero W key e.key then .ok (i : Int)
        else walkChain W entries key fuel e.next := by
      rw [walkChain, if_neg (by omega), Int.toNat_natCast, entryAt_of he]
    cases hhit : e.isLive && sameValueZero W key e.key with
    | true =>
      obtain ⟨hl, hk⟩ := (Bool.and_eq_true _ _).mp hhit
      refine Or.inr ⟨i, mem_cons_self, e, ?_, he, hl, hk⟩
      rw [hstep, if_pos hhit]
    | false =>
      have hskip : walkChain W entries key (fuel + 1) i = walkChain W entries key fuel e.next := by
        rw [hstep, if_neg (by rw [hhit]; exact Bool.false_ne_true)]
      rw [hskip]
      have hshort : is.length < fuel := by omega
      rcases ih hrest hshort with ⟨hmiss, hnone⟩ | ⟨j, hj, e', hfound, he', hl, hk⟩
      · refine Or.inl ⟨hmiss, fun j hj e' he' hl => ?_⟩
        rcases mem_cons.mp hj with rfl | hj
        · rw [he] at he'
          obtain rfl := Option.some.inj (Option.some.inj he')
          rw [hl, Bool.true_and] at hhit
          exact hhit
        · exact hnone j hj e' he' hl
      · exact Or.inr ⟨j, mem_cons_of_mem i hj, e', hfound, he', hl, hk⟩

/-- What a look-up finds. -/
inductive LooksUp (W : World) (fuel : Nat) (m : NativeMap) (key : AnyRef) : Prop
  | miss (found : mapLookupIdx W fuel m key = .ok (-1))
      (absent : has svz (pairs W m) (keyOf W key) = false)
  | hit (i : Nat) (e : MapEntry) (found : mapLookupIdx W fuel m key = .ok (i : Int))
      (used : i < m.entryCount) (entry : m.entries[i]? = some (some e)) (live : e.isLive = true)
      (same : svz (keyOf W key) (keyOf W e.key) = true)

theorem Sound.bucket_lt (h : Sound W H m) (hash : BitVec 32) :
    bucketOf hash m.buckets.length < m.buckets.length :=
  bucketOf_lt h.buckets_pos (h.buckets_le.trans_lt (by decide))

/-- Equal keys, of which the NaN have one hash, have one hash. -/
theorem hash_eq_of_expected {k k' : AnyRef} (hk : Expected W H k) (hk' : Expected W H k')
    (h : sameValueZero W k k' = true) : hashAnyref W k = hashAnyref W k' := by
  rw [sameValueZero_eq] at h
  rcases hashAnyref_congr W h with heq | ⟨hn, hn'⟩
  · exact heq
  · rw [hk hn, hk' hn']

theorem Sound.lookup (h : Sound W H m) (hk : Expected W H key) (hf : 2 ^ 32 ≤ fuel) :
    LooksUp W fuel m key := by
  obtain ⟨chains, ht⟩ := h.linked
  have hb := h.bucket_lt (hashAnyref W key)
  have hhead := getElem?_eq_getElem hb
  have hfuel : (chains (bucketOf (hashAnyref W key) m.buckets.length)).length < fuel := by
    have hlen := ht.length_le hb
    have hfew := h.few
    omega
  have hlook : ∀ r, walkChain W m.entries key fuel
      m.buckets[bucketOf (hashAnyref W key) m.buckets.length] = r →
      mapLookupIdx W fuel m key = r := by
    intro r hr
    rw [mapLookupIdx, arrayGet_of hhead]
    exact hr
  rcases walkChain_spec W key (ht.chain hhead) hfuel with
    ⟨hmiss, hnone⟩ | ⟨i, hi, e, hfound, he, hl, hsame⟩
  · refine .miss (hlook _ hmiss) (KeyedList.has_eq_false_iff.mpr fun p hp => ?_)
    obtain ⟨i, e, hi, he, hl, rfl⟩ := mem_pairs hp
    obtain ⟨hhash, hexp, -⟩ := h.hashed hi he hl
    rw [svz_keyOf]
    cases hsvz : sameValueZero W key e.key with
    | false => rfl
    | true =>
      -- an equal live key would lie in the chain that was walked
      have hhome : homeOf m.buckets.length m.entries i =
          some (bucketOf (hashAnyref W key) m.buckets.length) := by
        rw [homeOf_of he, if_pos hl, hhash, hash_eq_of_expected hk hexp hsvz]
      have hne := hnone i (ht.covers hi hhome) e he hl
      rw [hsvz] at hne
      exact nomatch hne
  · refine .hit i e (hlook _ hfound) (ht.bound hb hi) he hl ?_
    rw [svz_keyOf]
    exact hsame

end Js2Wasm.Collections
