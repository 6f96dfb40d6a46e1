import Js2Wasm.Lib.Allocator
import Js2Wasm.Lib.Probing

/-! # The hash tables of the linear-memory runtime

The string-keyed and the i32-keyed `Map` and `Set` of the linear-memory backend: a fixed
table of slots, open addressing with linear probing, a hash of 0 for a free slot.

    [header 8B][count:u32 at +8][cap:u32 at +12][entries at +16...]

An entry is `[hash:u32][key:i32][val:i32]`, without the value in a set.  The four copies of
the code differ in the hash, the comparison of keys and the value only.

A table holds a list of pairs when its slots do: each pair is in one slot, reached from the
home slot of its key over occupied slots.  Every operation keeps this and answers as the
list does, provided the key is present or a slot is free; on a full table that lacks the
key the probe never ends.
-/
namespace Js2Wasm.Linear

open WordMemory

/-! ### Strings

    [header 8B][len:u32 at +8][utf8 bytes at +12...]
-/

section
variable (m : Memory)

/-- A loop over the `n` bytes of a string from byte `i` on. -/
def foldBytes (f : Nat → UInt8 → Nat) (ptr : Nat) : Nat → Nat → Nat → Nat
  | 0, _, hash => hash
  | n + 1, i, hash => foldBytes f ptr n (add32 i 1) (f hash (m (add32 ptr i + 12)))

/-- FNV offset basis. -/
def fnvBasis : Nat := 0x811c9dc5

/-- `hash ^= byte`, times the FNV prime. -/
def fnvStep (hash : Nat) (byte : UInt8) : Nat := mul32 (hash ^^^ byte.toNat) 16777619

/-- `__str_hash`: FNV-1a. -/
def strHash (ptr : Nat) : Nat := foldBytes m fnvStep ptr (load32 m (ptr + 8)) 0 fnvBasis

def strEqFrom (a b : Nat) : Nat → Nat → Bool
  | 0, _ => true
  | n + 1, i =>
    if m (add32 a i + 12) ≠ m (add32 b i + 12) then false else strEqFrom a b n (add32 i 1)

/-- `__str_eq`: byte by byte. -/
def strEq (a b : Nat) : Bool :=
  if load32 m (a + 8) ≠ load32 m (b + 8) then false else strEqFrom m a b (load32 m (a + 8)) 0

end

/-! ### The four tables -/

/-- The hash of an i32 key: `key * 2654435761`. -/
def knuthHash (key : Nat) : Nat := mul32 key 0x9e3779b1

/-- What the copies of the table differ in. -/
structure TableKind where
  /-- Keys are pointers to strings, not the i32 itself. -/
  strKeys : Bool
  hasValue : Bool
deriving DecidableEq

namespace TableKind
variable (T : TableKind)

def entryBytes : Nat := if T.hasValue then 12 else 8

/-- The hash of a key; bit 0 is set because 0 marks a free slot. -/
def keyHash (m : Memory) (key : Nat) : Nat :=
  (if T.strKeys then strHash m key else knuthHash key) ||| 1

def keyEq (m : Memory) (existing key : Nat) : Bool :=
  if T.strKeys then strEq m existing key else existing == key

/-- The loop of `__map_new` over the `n` entries from `i` on. -/
def zeroHashes (ptr : Nat) : Nat → Nat → Memory → Memory
  | 0, _, m => m
  | n + 1, i, m =>
    zeroHashes ptr n (add32 i 1) (store32 m (add32 ptr (mul32 i T.entryBytes) + 16) 0)

def create {σ : Type} (M : Malloc σ) (cap : Nat) (m : Memory) (h : σ) :
    Except Halt (Nat × Memory × σ) :=
  match M.alloc m h (add32 16 (mul32 cap T.entryBytes)) with
  | none => .error .outOfMemory
  | some (ptr, m, h) =>
    let m := store32 m (ptr + 8) 0
    let m := store32 m (ptr + 12) cap
    .ok (ptr, T.zeroHashes ptr cap 0 m, h)

/-- Where a probe ends: the address of the entry, less 16. -/
inductive End where
  | free (entryAddr : Nat)
  | held (entryAddr : Nat)
deriving DecidableEq

/-- The probe loop from slot `idx` on. -/
def probe (m : Memory) (table key hash cap : Nat) : Nat → Nat → Except Halt End
  | 0, _ => .error .outOfFuel
  | fuel + 1, idx =>
    let entryAddr := add32 table (mul32 idx T.entryBytes)
    let entryHash := load32 m (entryAddr + 16)
    if entryHash = 0 then .ok (.free entryAddr)
    else if entryHash = hash ∧ T.keyEq m (load32 m (entryAddr + 20)) key then
      .ok (.held entryAddr)
    else probe m table key hash cap fuel (add32 idx 1 % cap)

/-- The head of every operation; `i32.rem_u` traps on a capacity of 0. -/
def locate (fuel : Nat) (m : Memory) (table key : Nat) : Except Halt End :=
  let hash := T.keyHash m key
  let cap := load32 m (table + 12)
  if cap = 0 then .error .trap else T.probe m table key hash cap fuel (hash % cap)

/-- Insert or update. -/
def put (fuel : Nat) (m : Memory) (table key val : Nat) : Except Halt Memory :=
  let hash := T.keyHash m key
  match T.locate fuel m table key with
  | .error e => .error e
  | .ok (.free entryAddr) =>
    let m := store32 m (entryAddr + 16) hash
    let m := store32 m (entryAddr + 20) key
    let m := if T.hasValue then store32 m (entryAddr + 24) val else m
    .ok (store32 m (table + 8) (add32 (load32 m (table + 8)) 1))
  | .ok (.held entryAddr) =>
    .ok (if T.hasValue then store32 m (entryAddr + 24) val else m)

def get (fuel : Nat) (m : Memory) (table key : Nat) : Except Halt Nat :=
  match T.locate fuel m table key with
  | .error e => .error e
  | .ok (.free _) => .ok 0
  | .ok (.held entryAddr) => .ok (load32 m (entryAddr + 24))

def has (fuel : Nat) (m : Memory) (table key : Nat) : Except Halt Nat :=
  match T.locate fuel m table key with
  | .error e => .error e
  | .ok (.free _) => .ok 0
  | .ok (.held _) => .ok 1

end TableKind

/-- The number of entries is a word of the header. -/
def tableSize (m : Memory) (table : Nat) : Nat := load32 m (table + 8)

section
variable {σ : Type} (M : Malloc σ) (fuel : Nat) (m : Memory)

def strMap : TableKind := ⟨true, true⟩
def strSet : TableKind := ⟨true, false⟩
def numMap : TableKind := ⟨false, true⟩
def numSet : TableKind := ⟨false, false⟩

def mapNew (cap : Nat) (h : σ) := strMap.create M cap m h
def mapSet (map key val : Nat) := strMap.put fuel m map key val
def mapGet (map key : Nat) := strMap.get fuel m map key
def mapHas (map key : Nat) := strMap.has fuel m map key
def mapSize (map : Nat) := tableSize m map

def setNew (cap : Nat) (h : σ) := strSet.create M cap m h
def setAdd (set key : Nat) := strSet.put fuel m set key 0
def setHas (set key : Nat) := strSet.has fuel m set key
def setSize (set : Nat) := tableSize m set

def nmapNew (cap : Nat) (h : σ) := numMap.create M cap m h
def nmapSet (map key val : Nat) := numMap.put fuel m map key val
def nmapGet (map key : Nat) := numMap.get fuel m map key
def nmapHas (map key : Nat) := numMap.has fuel m map key
def nmapSize (map : Nat) := tableSize m map

def nsetNew (cap : Nat) (h : σ) := numSet.create M cap m h
def nsetAdd (set key : Nat) := numSet.put fuel m set key 0
def nsetHas (set key : Nat) := numSet.has fuel m set key
def nsetSize (set : Nat) := tableSize m set

end

/-! ## The hash tables hold finite maps -/

/-! ### Keys -/

/-- A key by its contents. -/
inductive Key where
  | str (bytes : List UInt8)
  | num (n : Nat)
deriving DecidableEq

def fnv (bytes : List UInt8) : Nat := bytes.foldl fnvStep fnvBasis

def Key.hash : Key → Nat
  | .str bytes => fnv bytes ||| 1
  | .num n => knuthHash n ||| 1

/-- A string lies at `p`. -/
structure StrAt (m : Memory) (p : Nat) (bytes : List UInt8) : Prop where
  fits : p + 12 + bytes.length ≤ 2 ^ 32
  length : load32 m (p + 8) = bytes.length
  byte : ∀ (i : Nat) (h : i < bytes.length), m (p + 12 + i) = bytes.get ⟨i, h⟩

/-- The strings of a program, by their pointers. -/
abbrev Strings := Nat → Option (List UInt8)

def Strings.In (strings : Strings) (m : Memory) : Prop :=
  ∀ p bytes, strings p = some bytes → StrAt m p bytes

/-- The key that the i32 passed for it stands for. -/
def Denotes (strings : Strings) (T : TableKind) (p : Nat) : Key → Prop
  | .str bytes => T.strKeys = true ∧ strings p = some bytes
  | .num n => T.strKeys = false ∧ n = p

section
variable {m m' : Memory} {p q : Nat} {bytes bytes' : List UInt8}

theorem StrAt.addr (h : StrAt m p bytes) {i : Nat} (hi : i < bytes.length) :
    m (add32 p i + 12) = bytes.get ⟨i, hi⟩ := by
  have hfits := h.fits
  rw [add32_of_lt (by lia), Nat.add_right_comm]
  exact h.byte i hi

theorem StrAt.congr (h : StrAt m p bytes)
    (hm : ∀ a, p ≤ a → a < p + 12 + bytes.length → m' a = m a) : StrAt m' p bytes where
  fits := h.fits
  length := by
    rw [load32_congr (m := m) fun i hi hi' => hm i (by lia) (by lia)]
    exact h.length
  byte i hi := by
    rw [hm _ (by lia) (by lia)]
    exact h.byte i hi

theorem foldBytes_eq (f : Nat → UInt8 → Nat) (h : StrAt m p bytes) :
    ∀ n i hash, i + n = bytes.length → foldBytes m f p n i hash =
      (bytes.drop i).foldl f hash := by
  intro n
  induction n with
  | zero =>
    intro i hash hi
    rw [List.drop_of_length_le (by lia)]
    rfl
  | succ n ih =>
    intro i hash hi
    have hfits := h.fits
    have hlt : i < bytes.length := by lia
    rw [foldBytes, h.addr hlt, add32_of_lt (by lia), ih _ _ (by lia),
      List.drop_eq_getElem_cons hlt, List.foldl_cons]
    rfl

theorem strHash_eq (h : StrAt m p bytes) : strHash m p = fnv bytes := by
  rw [strHash, h.length, foldBytes_eq _ h _ _ _ (Nat.zero_add _), List.drop_zero, fnv]

theorem strEqFrom_eq (h : StrAt m p bytes) (h' : StrAt m q bytes')
    (hlen : bytes.length = bytes'.length) :
    ∀ n i, i + n = bytes.length → strEqFrom m p q n i = decide (bytes.drop i = bytes'.drop i) := by
  intro n
  induction n with
  | zero =>
    intro i hi
    rw [List.drop_of_length_le (by lia), List.drop_of_length_le (by lia)]
    rfl
  | succ n ih =>
    intro i hi
    have hfits := h.fits
    have hlt : i < bytes.length := by lia
    have hlt' : i < bytes'.length := by lia
    rw [strEqFrom, h.addr hlt, h'.addr hlt', add32_of_lt (by lia), ih _ (by lia),
      List.drop_eq_getElem_cons hlt, List.drop_eq_getElem_cons hlt', List.get_eq_getElem,
      List.get_eq_getElem]
    split
    · next hne => exact (decide_eq_false fun heq => hne (List.cons.inj heq).1).symm
    · next heq =>
      refine decide_eq_decide.mpr ?_
      rw [List.cons_eq_cons]
      exact (and_iff_right (not_not.mp heq)).symm

theorem strEq_eq (h : StrAt m p bytes) (h' : StrAt m q bytes') :
    strEq m p q = decide (bytes = bytes') := by
  rw [strEq, h.length, h'.length]
  split
  · next hne => exact (decide_eq_false fun heq => hne (congrArg List.length heq)).symm
  · next heq => exact strEqFrom_eq h h' (not_not.mp heq) _ 0 (Nat.zero_add _)

variable {strings : Strings} {T : TableKind} {k k' : Key}

theorem Denotes.keyHash (hs : strings.In m) (h : Denotes strings T p k) :
    T.keyHash m p = k.hash := by
  cases k with
  | str bytes =>
    obtain ⟨hstr, hp⟩ := h
    rw [TableKind.keyHash, if_pos hstr, strHash_eq (hs p bytes hp), Key.hash]
  | num n =>
    obtain ⟨hnum, rfl⟩ := h
    rw [TableKind.keyHash, if_neg (by rw [hnum]; exact Bool.false_ne_true), Key.hash]

theorem Denotes.keyEq (hs : strings.In m) (h : Denotes strings T p k) (h' : Denotes strings T q k') :
    T.keyEq m p q = decide (k = k') := by
  cases k with
  | str bytes =>
    obtain ⟨hstr, hp⟩ := h
    cases k' with
    | str bytes' =>
      rw [TableKind.keyEq, if_pos hstr, strEq_eq (hs p bytes hp) (hs q bytes' h'.2)]
      exact decide_eq_decide.mpr (Key.str.injEq _ _).symm.to_iff
    | num n => exact absurd (hstr.symm.trans h'.1) (Bool.true_eq_false.mp ·)
  | num n =>
    obtain ⟨hnum, rfl⟩ := h
    cases k' with
    | str bytes' => exact absurd (hnum.symm.trans h'.1) Bool.false_ne_true
    | num n' =>
      obtain ⟨-, rfl⟩ := h'
      rw [TableKind.keyEq, if_neg (by rw [hnum]; exact Bool.false_ne_true)]
      exact decide_eq_decide.mpr (Key.num.injEq _ _).symm.to_iff

theorem Key.hash_pos (k : Key) : k.hash ≠ 0 := by
  have hor : ∀ x : Nat, x ||| 1 ≠ 0 := fun x h =>
    absurd (Nat.or_eq_zero_iff.mp h).2 Nat.one_ne_zero
  cases k <;> exact hor _

theorem Key.hash_lt (k : Key) : k.hash < 2 ^ 32 := by
  have hfnv : ∀ (bytes : List UInt8) (h : Nat), h < 2 ^ 32 →
      bytes.foldl fnvStep h < 2 ^ 32 := by
    intro bytes
    induction bytes with
    | nil => exact fun h hlt => hlt
    | cons b bytes ih => exact fun h _ => ih _ (Nat.mod_lt _ (by decide))
  cases k with
  | str bytes => exact Nat.or_lt_two_pow (hfnv bytes _ (by decide)) (by decide)
  | num n => exact Nat.or_lt_two_pow (Nat.mod_lt _ (by decide)) (by decide)

end

/-! ### Slots -/

namespace TableKind
variable (T : TableKind)

/-- The address of entry `i`. -/
def entryAt (table i : Nat) : Nat := table + 16 + i * T.entryBytes

/-- The bytes of a table. -/
def block (table cap : Nat) : Block := ⟨table, 16 + cap * T.entryBytes⟩

theorem entryBytes_cases :
    T.hasValue = true ∧ T.entryBytes = 12 ∨ T.hasValue = false ∧ T.entryBytes = 8 := by
  rw [entryBytes]
  cases T.hasValue
  · exact Or.inr ⟨rfl, rfl⟩
  · exact Or.inl ⟨rfl, rfl⟩

theorem eight_le_entryBytes : 8 ≤ T.entryBytes := by
  rcases T.entryBytes_cases with ⟨-, he⟩ | ⟨-, he⟩ <;> lia

variable {T} {table cap i j : Nat}

theorem entryAt_bounds (hi : i < cap) :
    table + 16 ≤ T.entryAt table i ∧
      T.entryAt table i + T.entryBytes ≤ table + 16 + cap * T.entryBytes := by
  rw [entryAt]
  rcases T.entryBytes_cases with ⟨-, he⟩ | ⟨-, he⟩ <;> rw [he] <;> lia

theorem block_has {x : Nat} (h : table ≤ x) (h' : x < table + 16 + cap * T.entryBytes) :
    (T.block table cap).Has x := ⟨h, by rw [block]; exact Nat.add_assoc table 16 _ ▸ h'⟩

/-- Two entries share no byte. -/
theorem entryAt_apart (hij : i ≠ j) :
    T.entryAt table i + T.entryBytes ≤ T.entryAt table j ∨
      T.entryAt table j + T.entryBytes ≤ T.entryAt table i := by
  rw [entryAt, entryAt]
  rcases T.entryBytes_cases with ⟨-, he⟩ | ⟨-, he⟩ <;> rw [he] <;> lia

/-- The address the code computes does not wrap. -/
theorem entryAddr_eq (hfits : table + 16 + cap * T.entryBytes ≤ 2 ^ 32) (hi : i < cap) :
    add32 table (mul32 i T.entryBytes) + 16 = T.entryAt table i := by
  have hlt : table + i * T.entryBytes < 2 ^ 32 ∧ i * T.entryBytes < 2 ^ 32 := by
    rcases T.entryBytes_cases with ⟨-, he⟩ | ⟨-, he⟩ <;> rw [he] at hfits ⊢ <;> lia
  rw [mul32_of_lt hlt.2, add32_of_lt hlt.1, entryAt]
  lia

end TableKind

/-- What an entry holds. -/
def SlotHolds (strings : Strings) (T : TableKind) (m : Memory) (a : Nat) :
    Option (Key × Nat) → Prop
  | none => load32 m a = 0
  | some (k, v) => load32 m a = k.hash ∧ Denotes strings T (load32 m (a + 4)) k ∧
      if T.hasValue then load32 m (a + 8) = v else v = 0

/-- The slots of a table hold the pairs of the list, each reachable from the home of its
key. -/
structure SlotsHold (strings : Strings) (T : TableKind) (m : Memory) (table cap : Nat)
    (slot : Nat → Option (Key × Nat)) (l : List (Key × Nat)) : Prop where
  holds : ∀ i < cap, SlotHolds strings T m (T.entryAt table i) (slot i)
  chained : Probing.Chained Key.hash cap slot
  perm : (Probing.pairs cap slot).Perm l

/-- Two keys are the same. -/
abbrev sameKey (a b : Key) : Bool := decide (a = b)

/-- **The table invariant.** -/
structure Holds (strings : Strings) (T : TableKind) (m : Memory) (table cap : Nat)
    (l : List (Key × Nat)) : Prop where
  cap_pos : 0 < cap
  fits : table + 16 + cap * T.entryBytes ≤ 2 ^ 32
  capWord : load32 m (table + 12) = cap
  countWord : load32 m (table + 8) = l.length
  distinct : KeyedList.Distinct sameKey l
  slots : ∃ slot, SlotsHold strings T m table cap slot l

section
variable {strings : Strings} {T : TableKind} {m m' : Memory} {table cap a key i : Nat}
  {k : Key} {v : Nat} {s : Option (Key × Nat)} {slot : Nat → Option (Key × Nat)}
  {l : List (Key × Nat)}

theorem SlotHolds.congr (h : SlotHolds strings T m a s)
    (hm : ∀ x, a ≤ x → x < a + T.entryBytes → m' x = m x) : SlotHolds strings T m' a s := by
  have hword : ∀ o, o + 4 ≤ T.entryBytes → load32 m' (a + o) = load32 m (a + o) :=
    fun o ho => load32_congr fun x hx hx' => hm x (by lia) (by lia)
  have hhash : load32 m' a = load32 m a := by
    rcases T.entryBytes_cases with ⟨-, he⟩ | ⟨-, he⟩ <;> exact hword 0 (by lia)
  have hkey : load32 m' (a + 4) = load32 m (a + 4) := by
    rcases T.entryBytes_cases with ⟨-, he⟩ | ⟨-, he⟩ <;> exact hword 4 (by lia)
  match s, h with
  | none, h => exact hhash.trans h
  | some (k, v), ⟨h1, h2, h3⟩ =>
    refine ⟨hhash.trans h1, hkey ▸ h2, ?_⟩
    rcases T.entryBytes_cases with ⟨hv, he⟩ | ⟨hv, -⟩
    · rw [if_pos hv] at h3 ⊢
      exact (hword 8 (by lia)).trans h3
    · rw [if_neg (by rw [hv]; exact Bool.false_ne_true)] at h3 ⊢
      exact h3

/-- A table is held by its own bytes. -/
theorem Holds.congr (h : Holds strings T m table cap l)
    (hm : ∀ x, (T.block table cap).Has x → m' x = m x) : Holds strings T m' table cap l := by
  have hhead : ∀ o, o + 4 ≤ 16 → load32 m' (table + o) = load32 m (table + o) :=
    fun o ho => load32_congr fun x hx hx' =>
      hm x (TableKind.block_has (by lia) (by lia))
  obtain ⟨slot, hslot⟩ := h.slots
  refine ⟨h.cap_pos, h.fits, (hhead 12 (by lia)).trans h.capWord,
    (hhead 8 (by lia)).trans h.countWord, h.distinct, slot,
    fun i hi => (hslot.holds i hi).congr fun x hx hx' => hm x ?_, hslot.chained, hslot.perm⟩
  obtain ⟨hlow, hhigh⟩ := @TableKind.entryAt_bounds T table cap i hi
  exact TableKind.block_has (by lia) (by lia)

/-! ### Probing -/

/-- The key of an occupied entry, as the probe compares it. -/
theorem SlotHolds.matches (hs : strings.In m) (hk : Denotes strings T key k)
    {p : Key × Nat} (h : SlotHolds strings T m a (some p)) :
    load32 m a ≠ 0 ∧
      ((load32 m a = k.hash ∧ T.keyEq m (load32 m (a + 4)) key = true) ↔ p.1 = k) := by
  obtain ⟨hhash, hden, -⟩ := h
  rw [hhash, hden.keyEq hs hk, decide_eq_true_iff]
  exact ⟨p.1.hash_pos, fun h => h.2, fun h => ⟨by rw [h], h⟩⟩

/-- Where a probe that stops at slot `i` ends. -/
def endAt (T : TableKind) (table i : Nat) (s : Option (Key × Nat)) : TableKind.End :=
  match s with
  | none => .free (add32 table (mul32 i T.entryBytes))
  | some _ => .held (add32 table (mul32 i T.entryBytes))

variable (hs : strings.In m) (hk : Denotes strings T key k) (hcap : 0 < cap)
  (hfits : table + 16 + cap * T.entryBytes ≤ 2 ^ 32)
include hs hk hfits

theorem probe_stop (hi : i < cap) (h : SlotHolds strings T m (T.entryAt table i) (slot i))
    (hstop : Probing.Stops slot k i) (fuel : Nat) :
    T.probe m table key k.hash cap (fuel + 1) i = .ok (endAt T table i (slot i)) := by
  have haddr := TableKind.entryAddr_eq hfits hi
  have hkeyAddr : add32 table (mul32 i T.entryBytes) + 20 = T.entryAt table i + 4 := by lia
  rw [TableKind.probe]
  simp only [haddr, hkeyAddr]
  cases hsl : slot i with
  | none =>
    rw [hsl] at h
    have hzero : load32 m (T.entryAt table i) = 0 := h
    rw [if_pos hzero, endAt]
  | some p =>
    rw [hsl] at h
    obtain ⟨hne, hmatch⟩ := h.matches hs hk
    rw [if_neg hne, if_pos (hmatch.mpr (hstop p hsl)), endAt]

theorem probe_next (hi : i < cap) (h : SlotHolds strings T m (T.entryAt table i) (slot i))
    (hstop : ¬ Probing.Stops slot k i) (fuel : Nat) :
    T.probe m table key k.hash cap (fuel + 1) i =
      T.probe m table key k.hash cap fuel ((i + 1) % cap) := by
  have haddr := TableKind.entryAddr_eq hfits hi
  have hkeyAddr : add32 table (mul32 i T.entryBytes) + 20 = T.entryAt table i + 4 := by lia
  have hwrap : i + 1 < 2 ^ 32 := by
    rcases T.entryBytes_cases with ⟨-, he⟩ | ⟨-, he⟩ <;> rw [he] at hfits <;> lia
  obtain ⟨p, hsl, hpk⟩ := Probing.not_stops_iff.mp hstop
  rw [hsl] at h
  obtain ⟨hne, hmatch⟩ := h.matches hs hk
  rw [TableKind.probe]
  simp only [haddr, hkeyAddr]
  rw [if_neg hne, if_neg (fun h => hpk (hmatch.mp h)), add32_of_lt hwrap]

include hcap

section
variable (h : ∀ i < cap, SlotHolds strings T m (T.entryAt table i) (slot i))
include h

/-- **The probe ends** at the first slot that is empty or holds the key. -/
theorem probe_ends {D : Nat} (hstop : Probing.Stops slot k (Probing.probed Key.hash cap k D))
    (hbefore : ∀ d < D, ¬ Probing.Stops slot k (Probing.probed Key.hash cap k d)) :
    ∀ n d fuel, d + n = D → n < fuel →
      T.probe m table key k.hash cap fuel (Probing.probed Key.hash cap k d) =
        .ok (endAt T table (Probing.probed Key.hash cap k D)
          (slot (Probing.probed Key.hash cap k D))) := by
  intro n
  induction n with
  | zero =>
    intro d fuel hd hfuel
    obtain ⟨fuel, rfl⟩ := Nat.exists_eq_succ_of_ne_zero hfuel.ne'
    obtain rfl : d = D := hd
    have hlt := @Probing.probed_lt Key Key.hash cap k hcap d
    exact probe_stop hs hk hfits hlt (h _ hlt) hstop fuel
  | succ n ih =>
    intro d fuel hd hfuel
    obtain ⟨fuel, rfl⟩ := Nat.exists_eq_succ_of_ne_zero (Nat.ne_of_gt (by lia : 0 < fuel))
    have hlt := @Probing.probed_lt Key Key.hash cap k hcap d
    rw [probe_next hs hk hfits hlt (h _ hlt) (hbefore d (by lia)), ← Probing.probed_succ]
    exact ih (d + 1) fuel (by lia) (by lia)

/-- **The probe of a full table** for a key it lacks never ends. -/
theorem probe_full (hfull : ∀ i < cap, ¬ Probing.Stops slot k i) :
    ∀ fuel i, i < cap → T.probe m table key k.hash cap fuel i = .error .outOfFuel := by
  intro fuel
  induction fuel with
  | zero => exact fun i _ => rfl
  | succ fuel ih =>
    intro i hi
    rw [probe_next hs hk hfits hi (h i hi) (hfull i hi)]
    exact ih _ (Nat.mod_lt _ hcap)

end

end

end Js2Wasm.Linear
