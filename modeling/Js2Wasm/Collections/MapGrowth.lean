import Js2Wasm.Collections.MapOps

/-! # Insertion and rehash

A new entry is put behind the others and in front of the chain of its bucket.  A rehash
gives every live entry a new link and changes nothing else of it, so the records stay
(`Restrung`).
-/
namespace Js2Wasm.Collections
open List
open WordMemory (Halt add32 sub32 mul32 signed32 add32_of_lt mul32_of_lt)
open Chains Records
open KeyedList (has Distinct)

variable {W : World} {H : KeyLaw} {m : NativeMap} {entries entries' : List (Option MapEntry)}
  {e e' : MapEntry} {i j : Nat} {key value : AnyRef} {fuel : Nat}

/-! ### A new entry -/

section
variable (W : World)

/-- The map with an entry for a new key, its vector longer by `c` slots. -/
def withEntry (m : NativeMap) (c : Nat) (head : Int) (key value : AnyRef) : NativeMap where
  buckets := m.buckets.set (bucketOf (hashAnyref W key) m.buckets.length) (signed32 m.entryCount)
  entries := (m.entries ++ replicate c none).set m.entryCount
    (some ⟨key, value, head, hashAnyref W key⟩)
  entryCount := add32 m.entryCount 1
  liveCount := add32 m.liveCount 1
  kind := m.kind

end

theorem isLive_of_hash {k : AnyRef} (h : e.hash = hashAnyref W k) : e.isLive = true := by
  rw [MapEntry.isLive, h, hashAnyref_and_tombstone]
  rfl

theorem Sound.append (h : Sound W H m) (hk : Expected W H key) (hkeep : H.keeps key)
    (habs : has svz (pairs W m) (keyOf W key) = false) (hfew : m.entryCount ≤ 2 ^ 30) {c : Nat}
    (hroom : m.entryCount < m.entries.length + c) (hle : m.entries.length + c ≤ 2 ^ 31)
    (hgrown : m.entries.length + c = initCap ∨ m.entries.length + c < 2 * (m.entryCount + 1))
    {head : Int}
    (hhead : m.buckets[bucketOf (hashAnyref W key) m.buckets.length]? = some head)
    (value : AnyRef) :
    Sound W H (withEntry W m c head key value) ∧
      slots W (withEntry W m c head key value) =
        slots W m ++ [some (keyOf W key, denote W value)] := by
  have hin := h.inside
  have hcount : (withEntry W m c head key value).entryCount = m.entryCount + 1 :=
    add32_of_lt (by lia)
  have hlen : (withEntry W m c head key value).entries.length = m.entries.length + c := by
    rw [withEntry, length_set, length_append, length_replicate]
  have hlenb : (withEntry W m c head key value).buckets.length = m.buckets.length :=
    length_set
  have hnew : (withEntry W m c head key value).entries[m.entryCount]? =
      some (some ⟨key, value, head, hashAnyref W key⟩) := by
    rw [withEntry, getElem?_set_self]
    rw [length_append, length_replicate]
    exact hroom
  have hold : ∀ j, j < m.entryCount →
      (withEntry W m c head key value).entries[j]? = m.entries[j]? := by
    intro j hj
    rw [withEntry, getElem?_set_ne (by lia), getElem?_append_left (by lia)]
  have hlive : (⟨key, value, head, hashAnyref W key⟩ : MapEntry).isLive = true :=
    isLive_of_hash (W := W) (k := key) rfl
  have hslots : slots W (withEntry W m c head key value) =
      slots W m ++ [some (keyOf W key, denote W value)] := by
    have htake : (withEntry W m c head key value).entries.take m.entryCount =
        m.entries.take m.entryCount := by
      apply ext_getElem?
      intro j
      rw [getElem?_take, getElem?_take]
      by_cases hj : j < m.entryCount
      · rw [if_pos hj, if_pos hj, hold j hj]
      · rw [if_neg hj, if_neg hj]
    rw [slots, hcount, take_add_one, htake, hnew, map_append]
    exact congrArg (slots W m ++ [·]) (slotOf_live hlive)
  have hpairs : pairs W (withEntry W m c head key value) =
      KeyedList.set svz (pairs W m) (keyOf W key) (denote W value) := by
    rw [pairs, hslots, ← put_eq_append habs, reduceOption_put]
    rfl
  obtain ⟨chains, ht⟩ := h.linked
  have hhome : homeOf m.buckets.length (withEntry W m c head key value).entries m.entryCount =
      some (bucketOf (hashAnyref W key) m.buckets.length) := by
    rw [homeOf_of hnew, if_pos hlive]
  have hnexts : ∀ j, j < m.entryCount →
      nextOf (withEntry W m c head key value).entries j = nextOf m.entries j := by
    intro j hj
    rw [nextOf, nextOf, hold j hj]
  have hhomes : ∀ j, j < m.entryCount →
      homeOf m.buckets.length (withEntry W m c head key value).entries j =
        homeOf m.buckets.length m.entries j := by
    intro j hj
    rw [homeOf, homeOf, hold j hj]
  have hlink := ht.link hhead hnexts (nextOf_of hnew) hhomes hhome
  refine ⟨?_, hslots⟩
  exact {
    full := by
      intro j hj
      rw [hcount] at hj
      by_cases hjn : j = m.entryCount
      · subst hjn
        exact ⟨_, hnew⟩
      · rw [hold j (by lia)]
        exact h.full (by lia)
    linked := by
      rw [hcount, hlenb]
      have hsigned : signed32 m.entryCount = m.entryCount := signed32_of_lt (by lia)
      rw [withEntry, hsigned]
      exact ⟨_, hlink⟩
    hashed := by
      intro j x hj hx hl
      rw [hcount] at hj
      by_cases hjn : j = m.entryCount
      · subst hjn
        rw [hnew] at hx
        obtain rfl := Option.some.inj (Option.some.inj hx)
        exact ⟨rfl, hk, hkeep⟩
      · rw [hold j (by lia)] at hx
        exact h.hashed (by lia) hx hl
    distinct := by
      rw [hpairs]
      exact h.distinct.set svz_isEquiv _ _
    counted := by
      have hlc : (withEntry W m c head key value).liveCount = m.liveCount + 1 := by
        have := h.liveCount_le
        exact add32_of_lt (by lia)
      rw [hpairs, KeyedList.length_set, if_neg (by rw [habs]; exact Bool.false_ne_true), hlc,
        h.counted]
    inside := by lia
    grown := by
      rw [hlen, hcount]
      exact hgrown
    few := by lia
    entries_le := by lia
    buckets_pos := by
      rw [hlenb]
      exact h.buckets_pos
    buckets_le := by
      rw [hlenb]
      exact h.buckets_le }

/-! ### Rehash -/

/-- An entry without its link. -/
def unlink : Option MapEntry → Option MapEntry := Option.map fun e => { e with next := -1 }

/-- The entries differ in their links only. -/
def Restrung (entries entries' : List (Option MapEntry)) : Prop :=
  entries'.map unlink = entries.map unlink

section
variable (h : Restrung entries entries')
include h

theorem Restrung.length : entries'.length = entries.length := by
  have hlen := congrArg List.length h
  rw [length_map, length_map] at hlen
  exact hlen

theorem Restrung.getElem? (j : Nat) :
    (entries'[j]?).map unlink = (entries[j]?).map unlink := by
  rw [← getElem?_map, ← getElem?_map, h]

theorem Restrung.entry (he : entries'[j]? = some (some e')) :
    ∃ e, entries[j]? = some (some e) ∧ e.key = e'.key ∧ e.hash = e'.hash := by
  have hj := h.getElem? j
  rw [he] at hj
  obtain ⟨x, hx, hux⟩ := Option.map_eq_some_iff.mp hj.symm
  cases x with
  | none => exact nomatch hux
  | some e =>
    have hee : ({ e with next := -1 } : MapEntry) = { e' with next := -1 } := Option.some.inj hux
    obtain ⟨hkey, -, -, hhash⟩ := MapEntry.mk.inj hee
    exact ⟨e, hx, hkey, hhash⟩

theorem Restrung.symm : Restrung entries' entries := Eq.symm h

end

theorem slotOf_unlink (x : Option MapEntry) : slotOf W (unlink x) = slotOf W x := by
  cases x <;> rfl

theorem Restrung.slots (h : Restrung entries entries') :
    entries'.map (slotOf W) = entries.map (slotOf W) := by
  have hmap := congrArg (List.map (slotOf W)) h
  rw [map_map, map_map] at hmap
  have hsame : slotOf W ∘ unlink = slotOf W := funext slotOf_unlink
  rw [hsame] at hmap
  exact hmap

/-- A new link of one entry. -/
theorem restrung_set (he : entries[i]? = some (some e)) (n : Int) :
    Restrung entries (entries.set i (some { e with next := n })) := by
  rw [Restrung, map_set]
  obtain ⟨hi, hval⟩ := List.getElem?_eq_some_iff.mp he
  have hi' : i < (entries.map unlink).length := by rw [List.length_map]; exact hi
  have hsame : unlink (some { e with next := n }) = (entries.map unlink)[i] := by
    rw [getElem_map, hval]
    rfl
  rw [hsame, set_getElem_self]

variable {cap todo : Nat} {head : Int}

theorem homeOf_congr (h : entries'[j]? = entries[j]?) :
    homeOf cap entries' j = homeOf cap entries j := by rw [homeOf, homeOf, h]

theorem relink_dead (he : m.entries[i]? = some (some e)) (hl : e.isLive = false) :
    relink cap (todo + 1) i m = relink cap todo (i + 1) m := by
  rw [relink, entryAt_of he]
  show (if e.isLive then _ else relink cap todo (i + 1) m) = _
  rw [hl, if_neg Bool.false_ne_true]

/-- The map with the link of its entry `i` drawn. -/
def linkedAt (cap : Nat) (m : NativeMap) (i : Nat) (e : MapEntry) (head : Int) : NativeMap :=
  { m with
    entries := m.entries.set i (some { e with next := head })
    buckets := m.buckets.set (bucketOf e.hash cap) i }

theorem relink_live (he : m.entries[i]? = some (some e)) (hl : e.isLive = true)
    (hhead : m.buckets[bucketOf e.hash cap]? = some head) (hi : i < 2 ^ 31) :
    relink cap (todo + 1) i m = relink cap todo (i + 1) (linkedAt cap m i e head) := by
  rw [relink, entryAt_of he]
  show (if e.isLive then _ else relink cap todo (i + 1) m) = _
  rw [if_pos hl]
  simp only [arrayGet_of hhead, signed32_of_lt hi]
  rfl

/-- One step of the loop on a live entry. -/
theorem table_linkedAt {chains : Nat → List Nat}
    (ht : Table (nextOf m.entries) m.buckets (homeOf cap m.entries) i chains)
    (he : m.entries[i]? = some (some e)) (hl : e.isLive = true)
    (hhead : m.buckets[bucketOf e.hash cap]? = some head) :
    Table (nextOf (linkedAt cap m i e head).entries) (linkedAt cap m i e head).buckets
      (homeOf cap (linkedAt cap m i e head).entries) (i + 1)
      (Function.update chains (bucketOf e.hash cap) (i :: chains (bucketOf e.hash cap))) := by
  have hset := getElem?_set_entry (x := some { e with next := head }) he
  have hnew : (linkedAt cap m i e head).entries[i]? = some (some { e with next := head }) := by
    rw [linkedAt, hset, if_pos rfl]
  have hsame : ∀ j, j < i → (linkedAt cap m i e head).entries[j]? = m.entries[j]? := by
    intro j hj
    rw [linkedAt, hset, if_neg (by lia)]
  have hnexts : ∀ j, j < i →
      nextOf (linkedAt cap m i e head).entries j = nextOf m.entries j := by
    intro j hj
    rw [nextOf, nextOf, hsame j hj]
  have hhome : homeOf cap (linkedAt cap m i e head).entries i = some (bucketOf e.hash cap) := by
    rw [homeOf_of hnew]
    exact if_pos hl
  exact ht.link hhead hnexts (nextOf_of hnew) (fun j hj => homeOf_congr (hsame j hj)) hhome

/-- The loop links the live entries from `i` on, those before `i` being linked. -/
theorem relink_spec (hcap : 0 < cap) (hcap' : cap < 2 ^ 32) (todo : Nat) :
    ∀ {i : Nat} {m : NativeMap} {chains : Nat → List Nat}, m.buckets.length = cap →
      (∀ j, j < i + todo → ∃ e, m.entries[j]? = some (some e)) → i + todo < 2 ^ 31 →
      Table (nextOf m.entries) m.buckets (homeOf cap m.entries) i chains →
      ∃ entries' buckets' chains',
        relink cap todo i m = .ok { m with entries := entries', buckets := buckets' } ∧
        buckets'.length = cap ∧ Restrung m.entries entries' ∧
        Table (nextOf entries') buckets' (homeOf cap entries') (i + todo) chains' := by
  induction todo with
  | zero => exact fun {i m chains} hb _ _ ht => ⟨m.entries, m.buckets, chains, rfl, hb, rfl, ht⟩
  | succ todo ih =>
    intro i m chains hb hfull hlt ht
    obtain ⟨e, he⟩ := hfull i (by lia)
    have hsum : i + (todo + 1) = i + 1 + todo := by lia
    have hlt' : i + 1 + todo < 2 ^ 31 := by lia
    rw [hsum]
    cases hl : e.isLive with
    | false =>
      have hhome : homeOf cap m.entries i = none := by
        rw [homeOf_of he, hl, if_neg Bool.false_ne_true]
      rw [relink_dead he hl]
      exact ih hb (fun j hj => hfull j (by lia)) hlt' (ht.skip hhome)
    | true =>
      have hbucket : bucketOf e.hash cap < m.buckets.length := by
        rw [hb]
        exact bucketOf_lt hcap hcap'
      obtain ⟨head, hhead⟩ : ∃ head, m.buckets[bucketOf e.hash cap]? = some head :=
        ⟨_, getElem?_eq_getElem hbucket⟩
      have hfull' : ∀ j, j < i + 1 + todo →
          ∃ x, (linkedAt cap m i e head).entries[j]? = some (some x) := by
        intro j hj
        rw [linkedAt, getElem?_set_entry he]
        by_cases hij : i = j
        · exact ⟨_, if_pos hij⟩
        · rw [if_neg hij]
          exact hfull j (by lia)
      have hb' : (linkedAt cap m i e head).buckets.length = cap := by
        rw [linkedAt, length_set, hb]
      obtain ⟨entries', buckets', chains', hrun, hlen, hstr, htable⟩ :=
        ih hb' hfull' hlt' (table_linkedAt ht he hl hhead)
      refine ⟨entries', buckets', chains', ?_, hlen, ?_, htable⟩
      · rw [relink_live he hl hhead (by lia)]
        exact hrun
      · exact Eq.trans hstr (restrung_set he head)

/-- A rehash gives well-formed chains and keeps the records. -/
theorem Sound.rehash (h : Sound W H m) (hb : m.buckets.length ≤ 2 ^ 30) :
    ∃ m', rehashIfNeeded m = .ok m' ∧ Sound W H m' ∧ slots W m' = slots W m := by
  rw [rehashIfNeeded]
  by_cases hload : signed32 (mul32 m.buckets.length 3) < signed32 (mul32 m.liveCount 4)
  · rw [if_pos hload]
    have hpos := h.buckets_pos
    have hfew := h.few
    have hcap : mul32 m.buckets.length 2 = m.buckets.length * 2 := mul32_of_lt (by lia)
    have hcount : (signed32 m.entryCount).toNat = m.entryCount := by
      rw [signed32_of_lt (by lia), Int.toNat_natCast]
    have hpos' : 0 < m.buckets.length * 2 := by lia
    have hempty := table_empty (nextOf m.entries)
      (homeOf (m.buckets.length * 2) m.entries) (m.buckets.length * 2)
    obtain ⟨entries', buckets', chains', hrun, hlen, hstr, ht⟩ := relink_spec hpos' (by lia)
      m.entryCount (m := { m with buckets := replicate (m.buckets.length * 2) (-1) })
      length_replicate (fun j hj => h.full (by lia)) (by lia) hempty
    rw [Nat.zero_add] at ht
    have hlenE : entries'.length = m.entries.length := hstr.length
    have hslots : slots W { m with entries := entries', buckets := buckets' } = slots W m := by
      rw [slots, slots, map_take, map_take]
      exact congrArg (List.take m.entryCount) hstr.slots
    refine ⟨{ m with entries := entries', buckets := buckets' }, ?_, ?_, hslots⟩
    · simp only [hcap, hcount]
      exact hrun
    · exact {
        full := by
          intro j hj
          obtain ⟨e, he⟩ := h.full hj
          obtain ⟨e', he', -⟩ := hstr.symm.entry he
          exact ⟨e', he'⟩
        linked := by
          refine ⟨chains', ?_⟩
          rw [← hlen] at ht
          exact ht
        hashed := by
          intro j e' hj he' hl
          obtain ⟨e, he, hkey, hhash⟩ := hstr.entry he'
          have hlive : e.isLive = true := by
            rw [MapEntry.isLive, hhash]
            exact hl
          rw [← hkey, ← hhash]
          exact h.hashed hj he hlive
        distinct := by
          rw [pairs, hslots]
          exact h.distinct
        counted := by
          rw [pairs, hslots]
          exact h.counted
        inside := by
          show m.entryCount ≤ entries'.length
          rw [hlenE]
          exact h.inside
        grown := by
          show entries'.length = _ ∨ entries'.length < _
          rw [hlenE]
          exact h.grown
        few := h.few
        entries_le := by
          show entries'.length ≤ _
          rw [hlenE]
          exact h.entries_le
        buckets_pos := by
          show 0 < buckets'.length
          lia
        buckets_le := by
          show buckets'.length ≤ _
          lia }
  · rw [if_neg hload]
    exact ⟨m, rfl, h, rfl⟩

/-! ### The calls -/

/-- What a set asks of the map: the key is there, or the counts are below the point where
the i32 doubling wraps. -/
def Roomy (W : World) (m : NativeMap) (key : AnyRef) : Prop :=
  has svz (pairs W m) (keyOf W key) = true ∨
    m.entryCount ≤ 2 ^ 30 ∧ m.buckets.length ≤ 2 ^ 30

/-- A new key goes to the end. -/
theorem Sound.insert (h : Sound W H m) (hk : Expected W H key) (hkeep : H.keeps key)
    (habs : has svz (pairs W m) (keyOf W key) = false) (hfew : m.entryCount ≤ 2 ^ 30)
    (hb : m.buckets.length ≤ 2 ^ 30) (value : AnyRef) :
    ∃ m', (if signed32 m.entries.length ≤ signed32 m.entryCount then
          match growEntries m with
          | .error h => .error h
          | .ok m => appendEntry W m key value
        else appendEntry W m key value) = .ok m' ∧
      Sound W H m' ∧ slots W m' = put svz (slots W m) (keyOf W key) (denote W value) := by
  obtain ⟨c, hgrow, hroom, hle, hgrown⟩ := h.room hfew
  obtain ⟨head, hhead⟩ :
      ∃ head, m.buckets[bucketOf (hashAnyref W key) m.buckets.length]? = some head :=
    ⟨_, getElem?_eq_getElem (h.bucket_lt _)⟩
  obtain ⟨hsound, hslots⟩ := h.append hk hkeep habs hfew hroom hle hgrown hhead value
  have hbw : (withEntry W m c head key value).buckets.length ≤ 2 ^ 30 := by
    rw [withEntry, length_set]
    exact hb
  obtain ⟨m', hrehash, hsound', hslots'⟩ := hsound.rehash hbw
  have happ : appendEntry W { m with entries := m.entries ++ replicate c none } key value =
      .ok m' := by
    have hlen : m.entryCount < (m.entries ++ replicate c none).length := by
      rw [length_append, length_replicate]
      exact hroom
    rw [appendEntry]
    simp only [arrayGet_of hhead, arraySet_of hlen, arraySet_of (h.bucket_lt _)]
    exact hrehash
  refine ⟨m', ?_, hsound', ?_⟩
  · by_cases hfull : signed32 m.entries.length ≤ signed32 m.entryCount
    · rw [if_pos hfull] at hgrow ⊢
      rw [hgrow]
      exact happ
    · rw [if_neg hfull] at hgrow ⊢
      rw [← Except.ok.inj hgrow] at happ
      exact happ
  · rw [hslots', hslots]
    exact (put_eq_append habs _).symm

section
variable (h : Sound W H m) (hk : Expected W H key) (hf : 2 ^ 32 ≤ fuel)
include h hk hf

theorem Sound.mapSet (hroom : Roomy W m key)
    (hkeep : has svz (pairs W m) (keyOf W key) = false → H.keeps key) (value : AnyRef) :
    ∃ m', mapSet W fuel m key value = .ok m' ∧ Sound W H m' ∧
      slots W m' = put svz (slots W m) (keyOf W key) (denote W value) := by
  rw [Collections.mapSet]
  cases h.lookup hk hf with
  | miss found absent =>
    rw [found]
    rcases hroom with hhas | ⟨hfew, hb⟩
    · rw [absent] at hhas
      cases hhas
    · exact h.insert hk (hkeep absent) absent hfew hb value
  | hit i e found used entry live same =>
    obtain ⟨hsound, hslots⟩ := h.overwrite used entry live same value
    refine ⟨_, ?_, hsound, hslots⟩
    rw [found]
    simp only [Int.toNat_natCast, entryAt_of entry]
    exact if_pos (Int.natCast_nonneg i)

theorem Sound.mapDelete :
    ∃ m', mapDelete W fuel m key = .ok (m', has svz (pairs W m) (keyOf W key)) ∧ Sound W H m' ∧
      slots W m' = remove svz (slots W m) (keyOf W key) := by
  rw [Collections.mapDelete]
  cases h.lookup hk hf with
  | miss found absent =>
    refine ⟨m, ?_, h, (remove_of_not_has absent).symm⟩
    rw [found, absent]
    rfl
  | hit i e found used entry live same =>
    obtain ⟨hsound, hslots⟩ := h.bury used entry live same
    have hhas : has svz (pairs W m) (keyOf W key) = true :=
      KeyedList.has_iff.mpr ⟨_, mem_reduceOption_of_getElem? (slots_of used entry live), same⟩
    refine ⟨_, ?_, hsound, hslots⟩
    rw [found, hhas]
    simp only [Int.toNat_natCast, entryAt_of entry]
    exact if_neg (Int.not_lt.mpr (Int.natCast_nonneg i))

theorem Sound.mapGet :
    ∃ v, mapGet W fuel m key = .ok v ∧
      denote W v = (KeyedList.get? svz (pairs W m) (keyOf W key)).getD (denote W W.missing) := by
  rw [Collections.mapGet]
  cases h.lookup hk hf with
  | miss found absent =>
    refine ⟨W.missing, ?_, ?_⟩
    · rw [found]
      rfl
    · rw [KeyedList.get?_eq_none absent]
      rfl
  | hit i e found used entry live same =>
    refine ⟨e.value, ?_, ?_⟩
    · rw [found]
      simp only [Int.toNat_natCast, entryAt_of entry]
      exact if_neg (Int.not_lt.mpr (Int.natCast_nonneg i))
    · have hmem := mem_reduceOption_of_getElem? (slots_of (W := W) used entry live)
      rw [h.distinct.get?_of_mem svz_isEquiv hmem same]
      rfl

theorem Sound.mapHas :
    mapHas W fuel m key = .ok (has svz (pairs W m) (keyOf W key)) := by
  rw [Collections.mapHas]
  cases h.lookup hk hf with
  | miss found absent =>
    rw [found, absent]
    rfl
  | hit i e found used entry live same =>
    have hhas : has svz (pairs W m) (keyOf W key) = true :=
      KeyedList.has_iff.mpr ⟨_, mem_reduceOption_of_getElem? (slots_of used entry live), same⟩
    have hne : ((i : Int) != -1) = true := bne_iff_ne.mpr (by lia)
    rw [found, hhas]
    exact congrArg Except.ok hne

end

end Js2Wasm.Collections
