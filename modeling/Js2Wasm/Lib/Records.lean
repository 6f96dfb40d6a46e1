import Js2Wasm.Lib.KeyedList
import Mathlib.Data.List.ReduceOption

/-! # Lists of records with holes

A map that is walked by position while it changes is a list of records that never gets
shorter: removing a key empties its record, and a key that comes back gets a new record at
the end.  Without its holes the list is the ordered map of `KeyedList`.

A cursor walks such a list.  It gives every record it finds filled and remembers which it
has given; `Cursor.Fair` is what holds of a cursor whatever happens to the list meanwhile.
-/
namespace Records
open KeyedList

variable {K V : Type} {eqv : K → K → Bool} {r : List (Option (K × V))} {k : K} {v : V}

section
variable (eqv : K → K → Bool)

/-- Give `k` the value `v`, in its record or in a new one. -/
def put (r : List (Option (K × V))) (k : K) (v : V) : List (Option (K × V)) :=
  if has eqv r.reduceOption k then
    r.map (Option.map fun p => if eqv k p.1 then (p.1, v) else p)
  else r ++ [some (k, v)]

/-- Empty the record of `k`. -/
def remove (r : List (Option (K × V))) (k : K) : List (Option (K × V)) :=
  r.map (Option.filter fun p => !eqv k p.1)

end

/-- Empty every record. -/
def clear (r : List (Option (K × V))) : List (Option (K × V)) := r.map fun _ => none

/-! ### The ordered map of the records -/

theorem reduceOption_put (r : List (Option (K × V))) (k : K) (v : V) :
    (put eqv r k v).reduceOption = set eqv r.reduceOption k v := by
  cases h : has eqv r.reduceOption k with
  | true =>
    rw [set_of_has h, put, if_pos h, List.reduceOption_map]
  | false =>
    rw [set_of_not_has h, put, if_neg (by rw [h]; exact Bool.false_ne_true),
      List.reduceOption_append]
    rfl

theorem reduceOption_remove (r : List (Option (K × V))) (k : K) :
    (remove eqv r k).reduceOption = delete eqv r.reduceOption k := by
  induction r with
  | nil => rfl
  | cons a r ih =>
    rw [remove, List.map_cons]
    cases a with
    | none => exact ih
    | some p =>
      rw [List.reduceOption_cons_of_some, delete, List.filter_cons, Option.filter]
      cases eqv k p.1 with
      | true => exact ih
      | false => exact congrArg (p :: ·) ih

variable {r' : List (Option (K × V))} {c c' : Cursor} {i j : Nat} {p : K × V}

theorem mem_reduceOption_of_getElem? (h : r[i]? = some (some p)) :
    p ∈ r.reduceOption := List.reduceOption_mem_iff.mpr (List.mem_of_getElem? h)

/-! ### The one record of a key -/

/-- A key has one record. -/
theorem unique_record (he : IsEquiv eqv) (hd : Distinct eqv r.reduceOption) {q : K × V}
    (hi : r[i]? = some (some p)) (hj : r[j]? = some (some q)) (hp : eqv k p.1 = true)
    (hq : eqv k q.1 = true) : i = j := by
  have hpair : r.Pairwise fun a b => ∀ p, id a = some p → ∀ q, id b = some q →
      eqv p.1 q.1 = false := List.pairwise_filterMap.mp hd
  have hlt : ∀ {i j : Nat} {p q : K × V}, r[i]? = some (some p) → r[j]? = some (some q) →
      eqv k p.1 = true → eqv k q.1 = true → ¬i < j := by
    intro i j p q hi hj hp hq hij
    obtain ⟨hil, hie⟩ := List.getElem?_eq_some_iff.mp hi
    obtain ⟨hjl, hje⟩ := List.getElem?_eq_some_iff.mp hj
    have hne := List.pairwise_iff_getElem.mp hpair i j hil hjl hij p hie q hje
    rw [← he.congr hp, hq] at hne
    exact nomatch hne
  have h1 := hlt hi hj hp hq
  have h2 := hlt hj hi hq hp
  lia

/-- A map that changes at most one record sets that record. -/
theorem map_eq_set {α : Type} {l : List α} {f : α → α} {a : α} (hi : l[i]? = some a)
    (hf : ∀ j b, l[j]? = some b → j ≠ i → f b = b) : l.map f = l.set i (f a) := by
  apply List.ext_getElem?
  intro j
  rw [List.getElem?_map, List.getElem?_set]
  by_cases hj : i = j
  · subst hj
    have hlt : i < l.length := (List.getElem?_eq_some_iff.mp hi).1
    rw [if_pos rfl, if_pos hlt, hi]
    rfl
  · rw [if_neg hj]
    cases hb : l[j]? with
    | none => rfl
    | some b => exact congrArg some (hf j b hb (Ne.symm hj))

theorem put_eq_set (he : IsEquiv eqv) (hd : Distinct eqv r.reduceOption)
    (hi : r[i]? = some (some p)) (hp : eqv k p.1 = true) (v : V) :
    put eqv r k v = r.set i (some (p.1, v)) := by
  have hhas : has eqv r.reduceOption k = true :=
    has_iff.mpr ⟨p, mem_reduceOption_of_getElem? hi, hp⟩
  rw [put, if_pos hhas, map_eq_set hi, Option.map_some, if_pos hp]
  intro j b hb hj
  cases b with
  | none => rfl
  | some q =>
    have hq : ¬eqv k q.1 = true := fun hq => hj (unique_record he hd hb hi hq hp)
    rw [Option.map_some, if_neg hq]

theorem put_eq_append (h : has eqv r.reduceOption k = false) (v : V) :
    put eqv r k v = r ++ [some (k, v)] := by
  rw [put, if_neg (by rw [h]; exact Bool.false_ne_true)]

theorem remove_eq_set (he : IsEquiv eqv) (hd : Distinct eqv r.reduceOption)
    (hi : r[i]? = some (some p)) (hp : eqv k p.1 = true) : remove eqv r k = r.set i none := by
  have hnone : Option.filter (fun p => !eqv k p.1) (some p) = none := by
    rw [Option.filter, hp]
    rfl
  rw [remove, map_eq_set hi, hnone]
  intro j b hb hj
  cases b with
  | none => rfl
  | some q =>
    have hq : eqv k q.1 = false :=
      Bool.not_eq_true _ ▸ fun hq => hj (unique_record he hd hb hi hq hp)
    rw [Option.filter, hq]
    rfl

theorem remove_of_not_has (h : has eqv r.reduceOption k = false) : remove eqv r k = r := by
  refine (List.map_congr_left ?_).trans (List.map_id r)
  intro a ha
  cases a with
  | none => rfl
  | some p =>
    have hp : eqv k p.1 = false :=
      has_eq_false_iff.mp h p (List.reduceOption_mem_iff.mpr ha)
    rw [Option.filter, hp]
    rfl

/-! ### Presence over time -/

/-- No record of `r'` is filled that `r` holds empty. -/
def Ages (r r' : List (Option (K × V))) : Prop :=
  r.length ≤ r'.length ∧ ∀ i, i < r.length → ∀ p, r'[i]? = some (some p) →
    ∃ q, r[i]? = some (some q)

/-- A change of each record that fills none. -/
theorem ages_map {f : Option (K × V) → Option (K × V)} (hf : f none = none) :
    Ages r (r.map f) := by
  refine ⟨Nat.le_of_eq (List.length_map f).symm, fun i hi p hp => ?_⟩
  rw [List.getElem?_map, List.getElem?_eq_getElem hi, Option.map_some] at hp
  rw [List.getElem?_eq_getElem hi]
  cases hr : r[i] with
  | none =>
    rw [hr, hf] at hp
    exact nomatch hp
  | some q => exact ⟨q, rfl⟩

theorem ages_append (a : Option (K × V)) : Ages r (r ++ [a]) := by
  refine ⟨?_, fun i hi p hp => ⟨p, ?_⟩⟩
  · rw [List.length_append]
    exact Nat.le_add_right _ _
  · rw [List.getElem?_append_left hi] at hp
    exact hp

theorem ages_put (r : List (Option (K × V))) (k : K) (v : V) : Ages r (put eqv r k v) := by
  rw [put]
  split
  · exact ages_map rfl
  · exact ages_append _

theorem ages_remove (r : List (Option (K × V))) (k : K) : Ages r (remove eqv r k) := ages_map rfl

theorem ages_clear (r : List (Option (K × V))) : Ages r (clear r) := ages_map rfl

/-! ### Records behind dead ones -/

theorem reduceOption_behind (n : Nat) (r : List (Option (K × V))) :
    (List.replicate n none ++ r).reduceOption = r.reduceOption := by
  rw [List.reduceOption_append, List.reduceOption_replicate_none, List.nil_append]

theorem put_behind (n : Nat) (r : List (Option (K × V))) (k : K) (v : V) :
    put eqv (List.replicate n none ++ r) k v = List.replicate n none ++ put eqv r k v := by
  rw [put, put, reduceOption_behind]
  split
  · rw [List.map_append, List.map_replicate]
    rfl
  · rw [List.append_assoc]

theorem remove_behind (n : Nat) (r : List (Option (K × V))) (k : K) :
    remove eqv (List.replicate n none ++ r) k = List.replicate n none ++ remove eqv r k := by
  rw [remove, List.map_append, List.map_replicate]
  rfl

theorem clear_behind (n : Nat) (r : List (Option (K × V))) :
    clear (List.replicate n none ++ r) = List.replicate (n + r.length) none := by
  rw [clear, List.map_const', List.length_append, List.length_replicate]

theorem getElem?_behind (n i : Nat) (r : List (Option (K × V))) :
    (List.replicate n none ++ r)[n + i]? = r[i]? := by
  have hsub : n + i - n = i := Nat.add_sub_cancel_left n i
  rw [List.getElem?_append_right (by rw [List.length_replicate]; lia), List.length_replicate,
    hsub]

theorem filled_behind {n : Nat} (h : (List.replicate n none ++ r)[j]? = some (some p)) :
    ∃ i, j = n + i ∧ r[i]? = some (some p) := by
  by_cases hj : n ≤ j
  · obtain ⟨i, rfl⟩ := Nat.exists_eq_add_of_le hj
    rw [getElem?_behind] at h
    exact ⟨i, rfl, h⟩
  · rw [List.getElem?_append_left (by rw [List.length_replicate]; omega),
      List.getElem?_replicate, if_pos (by omega)] at h
    exact nomatch h

theorem Ages.behind (h : Ages r r') (n : Nat) :
    Ages (List.replicate n none ++ r) (List.replicate n none ++ r') := by
  refine ⟨?_, fun j hj p hp => ?_⟩
  · rw [List.length_append, List.length_append]
    exact Nat.add_le_add_left h.1 _
  · obtain ⟨i, rfl, hi⟩ := filled_behind hp
    rw [List.length_append, List.length_replicate] at hj
    rw [getElem?_behind]
    exact h.2 i (by lia) p hi

/-! ### Cursors -/

/-- The first filled record from position `i` on, where `r` is what the list holds there. -/
def seek : List (Option (K × V)) → Nat → Option (Nat × K × V)
  | [], _ => none
  | none :: r, i => seek r (i + 1)
  | some p :: _, i => some (i, p)

/-- A walk over the records: where it goes on, whether it has ended, and the positions it has
given, the last one first. -/
structure Cursor where
  index : Nat
  done : Bool
  given : List Nat
deriving DecidableEq

def Cursor.start : Cursor := ⟨0, false, []⟩

/-- Give the next filled record, or end for good. -/
def Cursor.next (r : List (Option (K × V))) (c : Cursor) : Cursor × Option (K × V) :=
  if c.done then (c, none)
  else
    match seek (r.drop c.index) c.index with
    | some (i, p) => (⟨i + 1, false, i :: c.given⟩, some p)
    | none => (⟨r.length, true, c.given⟩, none)

theorem seek_none (h : seek r i = none) (j : Nat) (p : K × V) : r[j]? ≠ some (some p) := by
  induction r generalizing i j with
  | nil => exact fun hj => nomatch hj
  | cons a r ih =>
    cases a with
    | some q => exact nomatch h
    | none =>
      cases j with
      | zero => exact fun hj => nomatch hj
      | succ j => exact ih h j

theorem seek_some (h : seek r i = some (j, p)) :
    i ≤ j ∧ r[j - i]? = some (some p) ∧ ∀ d, i + d < j → ∀ q, r[d]? ≠ some (some q) := by
  induction r generalizing i with
  | nil => exact nomatch h
  | cons a r ih =>
    cases a with
    | some q =>
      cases h
      refine ⟨Nat.le_refl _, ?_, fun d hd => absurd hd (by lia)⟩
      rw [Nat.sub_self]
      rfl
    | none =>
      obtain ⟨hle, hget, hskip⟩ := ih h
      refine ⟨by lia, ?_, fun d hd => ?_⟩
      · have hsub : j - i = j - (i + 1) + 1 := by lia
        rw [hsub]
        exact hget
      · cases d with
        | zero => exact fun _ hj => nomatch hj
        | succ d => exact hskip d (by lia)

/-- The next record is the first filled one from the cursor on. -/
theorem next_some (h : c.next r = (c', some p)) :
    c.done = false ∧ ∃ i, c.index ≤ i ∧ r[i]? = some (some p) ∧
      (∀ j, c.index ≤ j → j < i → ∀ q, r[j]? ≠ some (some q)) ∧
      c' = ⟨i + 1, false, i :: c.given⟩ := by
  rw [Cursor.next] at h
  cases hd : c.done with
  | true =>
    rw [hd, if_pos rfl] at h
    exact nomatch (Prod.mk.inj h).2
  | false =>
    rw [hd, if_neg Bool.false_ne_true] at h
    cases hs : seek (r.drop c.index) c.index with
    | none =>
      rw [hs] at h
      exact nomatch (Prod.mk.inj h).2
    | some ip =>
      obtain ⟨i, q⟩ := ip
      rw [hs] at h
      obtain ⟨hc, hp⟩ := Prod.mk.inj h
      obtain ⟨hle, hget, hskip⟩ := seek_some hs
      rw [List.getElem?_drop, Nat.add_sub_cancel' hle, Option.some.inj hp] at hget
      refine ⟨rfl, i, hle, hget, fun j hj hji q => ?_, hc.symm⟩
      have hfree := hskip (j - c.index) (by omega) q
      rw [List.getElem?_drop, Nat.add_sub_cancel' hj] at hfree
      exact hfree

/-- A walk ends where no filled record is left. -/
theorem next_none (h : c.next r = (c', none)) (hd : c.done = false) :
    (∀ j, c.index ≤ j → ∀ q, r[j]? ≠ some (some q)) ∧ c' = ⟨r.length, true, c.given⟩ := by
  rw [Cursor.next, hd, if_neg Bool.false_ne_true] at h
  cases hs : seek (r.drop c.index) c.index with
  | some ip =>
    rw [hs] at h
    exact nomatch (Prod.mk.inj h).2
  | none =>
    rw [hs] at h
    refine ⟨fun j hj q => ?_, (Prod.mk.inj h).1.symm⟩
    have hfree := seek_none hs (j - c.index) q
    rw [List.getElem?_drop, Nat.add_sub_cancel' hj] at hfree
    exact hfree

theorem next_of_done (h : c.done = true) : c.next r = (c, none) := by
  rw [Cursor.next, h, if_pos rfl]

/-- What holds of a cursor at any time: no record was given twice, only records it has passed
were given, and every filled record it has passed was given. -/
structure Cursor.Fair (r : List (Option (K × V))) (c : Cursor) : Prop where
  once : c.given.Pairwise (· > ·)
  passed : ∀ i ∈ c.given, i < c.index
  inside : c.index ≤ r.length
  complete : ∀ i p, i < c.index → r[i]? = some (some p) → i ∈ c.given

theorem Cursor.fair_start (r : List (Option (K × V))) : Cursor.Fair r .start :=
  ⟨List.Pairwise.nil, fun _ h => (nomatch h), Nat.zero_le _, fun _ _ h => absurd h (Nat.not_lt_zero _)⟩

theorem Cursor.Fair.ages (h : c.Fair r) (hr : Ages r r') : c.Fair r' where
  once := h.once
  passed := h.passed
  inside := Nat.le_trans h.inside hr.1
  complete i p hi hp := by
    obtain ⟨q, hq⟩ := hr.2 i (Nat.lt_of_lt_of_le hi h.inside) p hp
    exact h.complete i q hi hq

theorem Cursor.Fair.next {c : Cursor} (h : c.Fair r) : (c.next r).1.Fair r := by
  cases hd : c.done with
  | true =>
    rw [next_of_done hd]
    exact h
  | false =>
    cases hn : c.next r with
    | mk c' out =>
      cases out with
      | none =>
        obtain ⟨hfree, rfl⟩ := next_none hn hd
        refine ⟨h.once, fun i hi => ?_, Nat.le_refl _, fun i p _ hp => ?_⟩
        · exact Nat.lt_of_lt_of_le (h.passed i hi) h.inside
        · by_cases hi : i < c.index
          · exact h.complete i p hi hp
          · exact absurd hp (hfree i (Nat.le_of_not_lt hi) p)
      | some q =>
        obtain ⟨-, i, hle, hget, hfree, rfl⟩ := next_some hn
        have hlt : i < r.length := (List.getElem?_eq_some_iff.mp hget).1
        refine ⟨?_, fun j hj => ?_, hlt, fun j p hj hp => ?_⟩
        · refine List.pairwise_cons.mpr ⟨fun j hj => ?_, h.once⟩
          exact Nat.lt_of_lt_of_le (h.passed j hj) hle
        · rcases List.mem_cons.mp hj with rfl | hj
          · exact Nat.lt_succ_self _
          · have := h.passed j hj
            show j < i + 1
            lia
        · by_cases hji : j = i
          · subst hji
            exact List.mem_cons_self
          · apply List.mem_cons_of_mem
            by_cases hjc : j < c.index
            · exact h.complete j p hjc hp
            · have hj' : j < i + 1 := hj
              exact absurd hp (hfree j (Nat.le_of_not_lt hjc) (by lia) p)

end Records
