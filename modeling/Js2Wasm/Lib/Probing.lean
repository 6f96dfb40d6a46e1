import Js2Wasm.Lib.KeyedList
import Mathlib.Data.Nat.Find
import Mathlib.Data.List.Perm.Basic
import Mathlib.Data.List.Range

/-! # Linear probing

An open-addressing table of `cap` slots.  A key is looked for at its home slot and then at
the slots after it, cyclically, until a slot is empty or holds the key.  The search ends
unless the table is full and lacks the key, and if it ends at an empty slot the key is
nowhere: no slot between the home of a stored key and the key itself is empty.
-/
namespace Probing
open List Function

variable {K V : Type} (home : K → Nat) (cap : Nat) (slot : Nat → Option (K × V))

/-- The slot probed after `d` steps. -/
def probed (k : K) (d : Nat) : Nat := (home k + d) % cap

/-- The search for `k` stops here. -/
def Stops (k : K) (i : Nat) : Prop := ∀ p, slot i = some p → p.1 = k

/-- Every key is in one slot, and no probe for it meets an empty slot before. -/
structure Chained : Prop where
  unique : ∀ {i j p q}, i < cap → j < cap → slot i = some p → slot j = some q → p.1 = q.1 → i = j
  chain : ∀ {i p}, i < cap → slot i = some p →
    ∃ d < cap, probed home cap p.1 d = i ∧ ∀ d' < d, slot (probed home cap p.1 d') ≠ none

/-- The pairs of the table in slot order. -/
def pairs : List (K × V) := (range cap).filterMap slot

variable {home cap slot} {k : K}

theorem probed_lt (hcap : 0 < cap) (d : Nat) : probed home cap k d < cap := Nat.mod_lt _ hcap

theorem probed_succ (d : Nat) :
    probed home cap k (d + 1) = (probed home cap k d + 1) % cap := by
  rw [probed, probed, Nat.mod_add_mod, Nat.add_assoc]

/-- Every slot is probed. -/
theorem exists_probed {i : Nat} (hi : i < cap) : ∃ d < cap, probed home cap k d = i := by
  have hcap : 0 < cap := by omega
  have hhome : home k % cap < cap := Nat.mod_lt _ hcap
  by_cases h : home k % cap ≤ i
  · refine ⟨i - home k % cap, by omega, ?_⟩
    rw [probed, Nat.add_mod, Nat.mod_eq_of_lt (show i - home k % cap < cap by omega),
      Nat.add_sub_cancel' h, Nat.mod_eq_of_lt hi]
  · refine ⟨cap + i - home k % cap, by omega, ?_⟩
    rw [probed, Nat.add_mod, Nat.mod_eq_of_lt (show cap + i - home k % cap < cap by omega),
      show home k % cap + (cap + i - home k % cap) = cap + i by omega, Nat.add_mod_left,
      Nat.mod_eq_of_lt hi]

/-- **The search ends** at the first slot that is empty or holds the key, if there is one. -/
theorem exists_first {i : Nat} (hi : i < cap) (h : Stops slot k i) :
    ∃ d < cap, Stops slot k (probed home cap k d) ∧
      ∀ d' < d, ¬ Stops slot k (probed home cap k d') := by
  classical
  obtain ⟨d, hd, rfl⟩ := @exists_probed K home cap k i hi
  have hex : ∃ d, Stops slot k (probed home cap k d) := ⟨d, h⟩
  refine ⟨Nat.find hex, ?_, Nat.find_spec hex, fun d' hd' => Nat.find_min hex hd'⟩
  exact (Nat.find_min' hex h).trans_lt hd

variable {i d : Nat} {p : K × V}

theorem stops_of_none (h : slot i = none) : Stops slot k i := by
  intro p hp
  rw [h] at hp
  exact nomatch hp

theorem not_stops_iff : ¬ Stops slot k i ↔ ∃ p, slot i = some p ∧ p.1 ≠ k := by
  rw [Stops, not_forall]
  exact exists_congr fun p => Classical.not_imp

theorem occupied_of_not_stops (h : ¬ Stops slot k i) : slot i ≠ none :=
  fun hn => h (stops_of_none hn)

/-- **A search that ends at an empty slot** has missed nothing. -/
theorem Chained.absent (h : Chained home cap slot) (hd : slot (probed home cap k d) = none)
    (hbefore : ∀ d' < d, ¬ Stops slot k (probed home cap k d')) (hi : i < cap)
    (hp : slot i = some p) : p.1 ≠ k := by
  rintro rfl
  obtain ⟨e, -, he, hocc⟩ := h.chain hi hp
  rcases Nat.lt_trichotomy d e with hlt | rfl | hlt
  · exact hocc d hlt hd
  · rw [he, hp] at hd
    exact nomatch hd
  · refine hbefore e hlt fun q hq => ?_
    rw [he, hp] at hq
    rw [Option.some.inj hq]

theorem chained_empty : Chained home cap (fun _ => (none : Option (K × V))) where
  unique _ _ h := nomatch h
  chain _ h := nomatch h

/-- **Filling the slot** at which the search for the new key ended. -/
theorem Chained.insert (h : Chained home cap slot) (hd : d < cap)
    (hfree : slot (probed home cap k d) = none)
    (hbefore : ∀ d' < d, ¬ Stops slot k (probed home cap k d')) (v : V) :
    Chained home cap (update slot (probed home cap k d) (some (k, v))) where
  unique := by
    intro i j p q hi hj hp hq hpq
    have habs : ∀ {i p}, i < cap → slot i = some p → p.1 ≠ k := fun hi hp =>
      h.absent hfree hbefore hi hp
    rw [update_apply] at hp hq
    by_cases hik : i = probed home cap k d
    · by_cases hjk : j = probed home cap k d
      · rw [hik, hjk]
      · rw [if_pos hik] at hp
        rw [if_neg hjk] at hq
        cases hp
        exact absurd hpq.symm (habs hj hq)
    · rw [if_neg hik] at hp
      by_cases hjk : j = probed home cap k d
      · rw [if_pos hjk] at hq
        cases hq
        exact absurd hpq (habs hi hp)
      · rw [if_neg hjk] at hq
        exact h.unique hi hj hp hq hpq
  chain := by
    intro i p hi hp
    have hocc : ∀ {i}, slot i ≠ none →
        update slot (probed home cap k d) (some (k, v)) i ≠ none := by
      intro i hi
      rw [update_apply]
      split
      · exact Option.some_ne_none _
      · exact hi
    rw [update_apply] at hp
    split at hp
    · next hik =>
      cases hp
      exact ⟨d, hd, hik.symm, fun d' hd' => hocc (occupied_of_not_stops (hbefore d' hd'))⟩
    · obtain ⟨e, he, hei, hbe⟩ := h.chain hi hp
      exact ⟨e, he, hei, fun d' hd' => hocc (hbe d' hd')⟩

/-- Overwriting a value moves no key. -/
theorem Chained.replace (h : Chained home cap slot) (hp : slot i = some p) (v : V) :
    Chained home cap (update slot i (some (p.1, v))) := by
  have hold : ∀ {j q}, update slot i (some (p.1, v)) j = some q →
      ∃ q', slot j = some q' ∧ q'.1 = q.1 := by
    intro j q hq
    rw [update_apply] at hq
    split at hq
    · next hj =>
      cases hq
      exact ⟨p, hj ▸ hp, rfl⟩
    · exact ⟨q, hq, rfl⟩
  have hocc : ∀ {j}, slot j ≠ none → update slot i (some (p.1, v)) j ≠ none := by
    intro j hj
    rw [update_apply]
    split
    · exact Option.some_ne_none _
    · exact hj
  constructor
  · intro j j' q q' hj hj' hq hq' hqq
    obtain ⟨r, hr, hrq⟩ := hold hq
    obtain ⟨r', hr', hrq'⟩ := hold hq'
    exact h.unique hj hj' hr hr' (hrq.trans (hqq.trans hrq'.symm))
  · intro j q hj hq
    obtain ⟨r, hr, hrq⟩ := hold hq
    obtain ⟨e, he, hej, hbe⟩ := h.chain hj hr
    rw [hrq] at hej hbe
    exact ⟨e, he, hej, fun d' hd' => hocc (hbe d' hd')⟩

/-! ### The pairs of the table -/

theorem mem_pairs : p ∈ pairs cap slot ↔ ∃ i < cap, slot i = some p := by
  rw [pairs, mem_filterMap]
  exact exists_congr fun i => and_congr_left' mem_range

theorem pairs_empty : pairs cap (fun _ => (none : Option (K × V))) = [] := by
  rw [pairs, filterMap_eq_nil_iff]
  exact fun i _ => rfl

/-- A table with fewer pairs than slots has a free slot. -/
theorem exists_free (h : (pairs cap slot).length < cap) : ∃ i < cap, slot i = none := by
  have hlt : (pairs cap slot).length < (range cap).length := by
    rw [length_range]
    exact h
  obtain ⟨i, hi, hn⟩ := length_filterMap_lt_length_iff_exists.mp hlt
  exact ⟨i, mem_range.mp hi, hn⟩

/-- A full table has no free slot. -/
theorem occupied_of_full (h : (pairs cap slot).length = cap) (hi : i < cap) : slot i ≠ none := by
  intro hn
  have hlt : (pairs cap slot).length < (range cap).length :=
    length_filterMap_lt_length_iff_exists.mpr ⟨i, mem_range.mpr hi, hn⟩
  rw [length_range] at hlt
  omega

theorem filterMap_update_of_not_mem {l : List Nat} (h : i ∉ l) (x : Option (K × V)) :
    l.filterMap (update slot i x) = l.filterMap slot :=
  filterMap_congr fun j hj =>
    update_of_ne (fun he : j = i => h (he ▸ hj)) x slot

theorem perm_filterMap_update (p : K × V) (hfree : slot i = none) :
    ∀ l : List Nat, l.Nodup → i ∈ l →
      (l.filterMap (update slot i (some p))).Perm (l.filterMap slot ++ [p]) := by
  intro l
  induction l with
  | nil => exact fun _ h => nomatch h
  | cons j l ih =>
    intro hnd hi
    obtain ⟨hj, hnd⟩ := nodup_cons.mp hnd
    rcases mem_cons.mp hi with rfl | hi
    · rw [filterMap_cons_some (update_self i (some p) slot),
        filterMap_update_of_not_mem hj, filterMap_cons_none hfree]
      exact (perm_append_singleton _ _).symm
    · have hne : j ≠ i := fun he => hj (he ▸ hi)
      have hsame : update slot i (some p) j = slot j := update_of_ne hne _ _
      cases hs : slot j with
      | none =>
        rw [filterMap_cons_none (hsame.trans hs), filterMap_cons_none hs]
        exact ih hnd hi
      | some q =>
        rw [filterMap_cons_some (hsame.trans hs), filterMap_cons_some hs]
        exact (ih hnd hi).cons q

/-- Filling a free slot adds a pair. -/
theorem pairs_insert (hi : i < cap) (hfree : slot i = none) (p : K × V) :
    (pairs cap (update slot i (some p))).Perm (pairs cap slot ++ [p]) :=
  perm_filterMap_update p hfree _ nodup_range (mem_range.mpr hi)

/-- Overwriting a value is the update of the list of pairs. -/
theorem Chained.pairs_replace [DecidableEq K] (h : Chained home cap slot) (hi : i < cap)
    (hp : slot i = some p) (v : V) :
    pairs cap (update slot i (some (p.1, v))) =
      (pairs cap slot).map fun q => if decide (p.1 = q.1) then (q.1, v) else q := by
  rw [pairs, pairs, map_filterMap]
  refine filterMap_congr fun j hj => ?_
  by_cases hji : j = i
  · rw [hji, update_self, hp, Option.map_some, if_pos (decide_eq_true rfl)]
  · rw [update_of_ne hji]
    cases hs : slot j with
    | none => rfl
    | some q =>
      have hne : p.1 ≠ q.1 := fun he => hji (h.unique (mem_range.mp hj) hi hs hp he.symm)
      rw [Option.map_some, if_neg (by rw [decide_eq_false hne]; exact Bool.false_ne_true)]

end Probing
