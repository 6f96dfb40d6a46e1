import Js2Wasm.Collections.Map

/-! # What the calls of a map do

Each call on a well-formed map returns and leaves a well-formed map whose records are those
of `Records.put`, `Records.remove` and the empty list.  Two facts carry this: an entry may
be changed in place as long as its link stays (`Sound.touch`), and an entry linked in front
of the chain of its bucket is a step of `Chains.Table.link`, for an entry just added
(`Sound.append`) and for the entries a rehash goes through (`relink_spec`).
-/
namespace Js2Wasm.Collections
open WordMemory (Halt add32 sub32 mul32 signed32 add32_of_lt sub32_of_le mul32_of_lt)
open Chains Records
open KeyedList (has Distinct)

variable {W : World} {H : KeyLaw} {m : NativeMap} {entries entries' : List (Option MapEntry)}
  {e e' : MapEntry} {i j : Nat} {key value : AnyRef} {fuel : Nat}

theorem signed32_of_lt {a : Nat} (h : a < 2 ^ 31) : signed32 a = a := by rw [signed32, if_pos h]

/-! ### New and cleared maps -/

theorem sound_mapNew (kind : Nat) : Sound W H (mapNew kind) where
  full hi := absurd hi (Nat.not_lt_zero _)
  linked := ⟨_, table_empty _ _ initCap⟩
  hashed hi := absurd hi (Nat.not_lt_zero _)
  distinct := KeyedList.distinct_nil
  counted := rfl
  inside := Nat.zero_le _
  grown := Or.inl rfl
  few := Nat.zero_le _
  entries_le := show 8 ≤ 2 ^ 31 by decide
  buckets_pos := show 0 < 8 by decide
  buckets_le := show 8 ≤ 2 ^ 31 by decide

/-! ### An entry changed in place -/

theorem getElem?_set_entry {x : Option MapEntry} (h : entries[i]? = some (some e)) (j : Nat) :
    (entries.set i x)[j]? = if i = j then some x else entries[j]? := by
  rw [List.getElem?_set]
  by_cases hij : i = j
  · rw [if_pos hij, if_pos hij, if_pos (List.getElem?_eq_some_iff.mp h).1]
  · rw [if_neg hij, if_neg hij]

theorem slots_set (m : NativeMap) (x : Option MapEntry) (live : Nat) :
    slots W { m with entries := m.entries.set i x, liveCount := live } =
      (slots W m).set i (slotOf W x) := by
  show ((m.entries.set i x).take m.entryCount).map (slotOf W) = _
  rw [List.take_set, List.map_set]
  rfl

/-- An entry that keeps its link, and its key and hash while it is live. -/
theorem Sound.touch (h : Sound W H m) (he : m.entries[i]? = some (some e)) (e' : MapEntry)
    (live : Nat) (hnext : e'.next = e.next)
    (hkeep : e'.isLive = true → e.isLive = true ∧ e'.hash = e.hash ∧ e'.key = e.key)
    (hd : Distinct svz (pairs W
      { m with entries := m.entries.set i (some e'), liveCount := live }))
    (hlive : live =
      (pairs W { m with entries := m.entries.set i (some e'), liveCount := live }).length) :
    Sound W H { m with entries := m.entries.set i (some e'), liveCount := live } := by
  have hget := getElem?_set_entry (x := some e') he
  have hnexts : ∀ j, nextOf (m.entries.set i (some e')) j = nextOf m.entries j := by
    intro j
    rw [nextOf, nextOf, hget]
    by_cases hij : i = j
    · subst hij
      rw [if_pos rfl, he]
      exact congrArg some hnext
    · rw [if_neg hij]
  have hhomes : ∀ j b, homeOf m.buckets.length (m.entries.set i (some e')) j = some b →
      homeOf m.buckets.length m.entries j = some b := by
    intro j b hb
    by_cases hij : i = j
    · subst hij
      have hset : (m.entries.set i (some e'))[i]? = some (some e') := by rw [hget, if_pos rfl]
      obtain ⟨x, hx, hl, hbucket⟩ := homeOf_some hb
      rw [hset] at hx
      obtain rfl := Option.some.inj (Option.some.inj hx)
      obtain ⟨hel, hhash, -⟩ := hkeep hl
      rw [homeOf_of he, if_pos hel, ← hhash, hbucket]
    · rw [homeOf, hget, if_neg hij] at hb
      exact hb
  obtain ⟨chains, ht⟩ := h.linked
  exact {
    full := by
      intro j hj
      show ∃ x, (m.entries.set i (some e'))[j]? = some (some x)
      rw [hget]
      by_cases hij : i = j
      · exact ⟨e', if_pos hij⟩
      · rw [if_neg hij]
        exact h.full hj
    linked := ⟨chains, ht.congr (fun j _ => hnexts j) fun j b _ => hhomes j b⟩
    hashed := by
      intro j x hj hx hl
      have hx' : (m.entries.set i (some e'))[j]? = some (some x) := hx
      rw [hget] at hx'
      by_cases hij : i = j
      · subst hij
        rw [if_pos rfl] at hx'
        obtain rfl := Option.some.inj (Option.some.inj hx')
        obtain ⟨hel, hhash, hkey⟩ := hkeep hl
        rw [hhash, hkey]
        exact h.hashed hj he hel
      · rw [if_neg hij] at hx'
        exact h.hashed hj hx' hl
    distinct := hd
    counted := hlive
    inside := by
      show m.entryCount ≤ (m.entries.set i (some e')).length
      rw [List.length_set]
      exact h.inside
    grown := by
      show (m.entries.set i (some e')).length = _ ∨ (m.entries.set i (some e')).length < _
      rw [List.length_set]
      exact h.grown
    few := h.few
    entries_le := by
      show (m.entries.set i (some e')).length ≤ _
      rw [List.length_set]
      exact h.entries_le
    buckets_pos := h.buckets_pos
    buckets_le := h.buckets_le }

/-- The value of a key that is there is replaced. -/
theorem Sound.overwrite (h : Sound W H m) (hi : i < m.entryCount)
    (he : m.entries[i]? = some (some e)) (hl : e.isLive = true)
    (hsame : svz (keyOf W key) (keyOf W e.key) = true) (value : AnyRef) :
    Sound W H { m with entries := m.entries.set i (some { e with value := value }) } ∧
      slots W { m with entries := m.entries.set i (some { e with value := value }) } =
        put svz (slots W m) (keyOf W key) (denote W value) := by
  have hslot := slots_of (W := W) hi he hl
  have hlive : ({ e with value := value } : MapEntry).isLive = true := hl
  have hslots : slots W { m with entries := m.entries.set i (some { e with value := value }) } =
      put svz (slots W m) (keyOf W key) (denote W value) := by
    rw [put_eq_set svz_isEquiv h.distinct hslot hsame]
    refine (slots_set m _ m.liveCount).trans ?_
    rw [slotOf_live hlive]
  have hpairs : pairs W { m with entries := m.entries.set i (some { e with value := value }) } =
      KeyedList.set svz (pairs W m) (keyOf W key) (denote W value) := by
    rw [pairs, hslots, reduceOption_put]
    rfl
  have hhas : has svz (pairs W m) (keyOf W key) = true :=
    KeyedList.has_iff.mpr ⟨_, mem_reduceOption_of_getElem? hslot, hsame⟩
  refine ⟨h.touch he { e with value := value } m.liveCount rfl (fun _ => ⟨hl, rfl, rfl⟩) ?_ ?_, hslots⟩
  · show Distinct svz (pairs W { m with entries := m.entries.set i (some { e with value := value }) })
    rw [hpairs]
    exact h.distinct.set svz_isEquiv _ _
  · show m.liveCount =
      (pairs W { m with entries := m.entries.set i (some { e with value := value }) }).length
    rw [hpairs, KeyedList.length_set, if_pos hhas]
    exact h.counted

/-! ### Deletion -/

/-- The entry that is left where a key was. -/
def tombstone (e : MapEntry) : MapEntry := ⟨.null, .null, e.next, e.hash ||| tombstoneBit⟩

theorem isLive_tombstone (e : MapEntry) : (tombstone e).isLive = false := or_tombstone e.hash

/-- A key that is there is deleted. -/
theorem Sound.bury (h : Sound W H m) (hi : i < m.entryCount)
    (he : m.entries[i]? = some (some e)) (hl : e.isLive = true)
    (hsame : svz (keyOf W key) (keyOf W e.key) = true) :
    Sound W H { m with
        entries := m.entries.set i (some (tombstone e)), liveCount := sub32 m.liveCount 1 } ∧
      slots W { m with
        entries := m.entries.set i (some (tombstone e)), liveCount := sub32 m.liveCount 1 } =
        remove svz (slots W m) (keyOf W key) := by
  have hslot := slots_of (W := W) hi he hl
  have hslots : slots W { m with
      entries := m.entries.set i (some (tombstone e)), liveCount := sub32 m.liveCount 1 } =
      remove svz (slots W m) (keyOf W key) := by
    rw [remove_eq_set svz_isEquiv h.distinct hslot hsame, slots_set, slotOf, isLive_tombstone]
    rfl
  have hpairs : pairs W { m with
      entries := m.entries.set i (some (tombstone e)), liveCount := sub32 m.liveCount 1 } =
      KeyedList.delete svz (pairs W m) (keyOf W key) := by
    rw [pairs, hslots, reduceOption_remove]
    rfl
  have hhas : has svz (pairs W m) (keyOf W key) = true :=
    KeyedList.has_iff.mpr ⟨_, mem_reduceOption_of_getElem? hslot, hsame⟩
  have hdead : ¬(tombstone e).isLive = true := by
    rw [isLive_tombstone]
    exact Bool.false_ne_true
  refine ⟨h.touch he (tombstone e) _ rfl (fun hlive => absurd hlive hdead) ?_ ?_, hslots⟩
  · rw [hpairs]
    exact h.distinct.delete _
  · have hlen := h.distinct.length_delete svz_isEquiv hhas
    have hcount := h.counted
    have hle := h.liveCount_le
    have hfew := h.few
    rw [hpairs, sub32_of_le (by lia) (by lia)]
    lia

/-! ### Room for one more entry -/

/-- The vector is full at most once before it doubles, and doubles without wrapping. -/
theorem Sound.room (h : Sound W H m) (hfew : m.entryCount ≤ 2 ^ 30) :
    ∃ c, (if signed32 m.entries.length ≤ signed32 m.entryCount then growEntries m else .ok m) =
        .ok { m with entries := m.entries ++ List.replicate c none } ∧
      m.entryCount < m.entries.length + c ∧ m.entries.length + c ≤ 2 ^ 31 ∧
      (m.entries.length + c = initCap ∨ m.entries.length + c < 2 * (m.entryCount + 1)) := by
  have hin := h.inside
  have hlt : m.entries.length < 2 ^ 31 := by
    rcases h.grown with hcap | hlt
    · rw [hcap]
      decide
    · lia
  rw [signed32_of_lt hlt, signed32_of_lt (by lia)]
  by_cases hfull : m.entries.length ≤ m.entryCount
  · have heq : m.entryCount = m.entries.length := by lia
    refine ⟨m.entries.length, ?_, ?_, ?_, Or.inr ?_⟩
    · rw [if_pos (by lia), growEntries, mul32_of_lt (by lia), if_pos (by lia)]
      have hsub : m.entries.length * 2 - m.entries.length = m.entries.length := by lia
      rw [hsub]
    · have hpos : 0 < m.entries.length := by
        rcases h.grown with hcap | hlt
        · rw [hcap]
          decide
        · lia
      lia
    all_goals lia
  · refine ⟨0, ?_, by lia, by lia, ?_⟩
    · rw [if_neg (by lia), List.replicate_zero, List.append_nil]
    · rcases h.grown with hcap | hlt'
      · exact Or.inl hcap
      · exact Or.inr (by lia)

end Js2Wasm.Collections
