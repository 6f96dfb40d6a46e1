import Mathlib.Data.List.Basic

/-! # Ordered maps as lists of pairs

A finite map is a list of pairs in the order in which the keys were first added.  Keys are
compared by an equivalence that need not be equality; no two pairs of a map have
equivalent keys, and a pair keeps the key it was added with.
-/
namespace KeyedList
open List

variable {K V : Type}

section
variable (eqv : K → K → Bool)

def has (l : List (K × V)) (k : K) : Bool := l.any fun p => eqv k p.1

def get? (l : List (K × V)) (k : K) : Option V := (l.find? fun p => eqv k p.1).map (·.2)

/-- Give `k` the value `v`, in place or at the end. -/
def set (l : List (K × V)) (k : K) (v : V) : List (K × V) :=
  if has eqv l k then l.map fun p => if eqv k p.1 then (p.1, v) else p else l ++ [(k, v)]

def delete (l : List (K × V)) (k : K) : List (K × V) := l.filter fun p => !eqv k p.1

/-- No two pairs have equivalent keys. -/
def Distinct (l : List (K × V)) : Prop := l.Pairwise fun p q => eqv p.1 q.1 = false

/-- The comparison is an equivalence. -/
structure IsEquiv : Prop where
  refl : ∀ a, eqv a a = true
  symm : ∀ a b, eqv a b = eqv b a
  trans : ∀ {a b c}, eqv a b = true → eqv b c = true → eqv a c = true

end

variable {eqv : K → K → Bool} {l l' : List (K × V)} {k : K} {v : V}

theorem isEquiv_decide [DecidableEq K] : IsEquiv fun a b : K => decide (a = b) where
  refl _ := decide_eq_true rfl
  symm _ _ := decide_eq_decide.mpr eq_comm
  trans hab hbc := decide_eq_true ((of_decide_eq_true hab).trans (of_decide_eq_true hbc))

/-- Equivalent keys are equivalent to the same keys. -/
theorem IsEquiv.congr (h : IsEquiv eqv) {a b : K} (hab : eqv a b = true) (c : K) :
    eqv a c = eqv b c := by
  cases hb : eqv b c with
  | true => exact h.trans hab hb
  | false =>
    cases ha : eqv a c with
    | false => rfl
    | true =>
      have hba : eqv b a = true := (h.symm b a).trans hab
      exact (h.trans hba ha).symm.trans hb

theorem has_iff : has eqv l k = true ↔ ∃ p ∈ l, eqv k p.1 = true := any_eq_true

theorem has_eq_false_iff : has eqv l k = false ↔ ∀ p ∈ l, eqv k p.1 = false := by
  rw [has, any_eq_false]
  exact forall₂_congr fun p _ => by rw [Bool.not_eq_true]

theorem get?_eq_none (h : has eqv l k = false) : get? eqv l k = none := by
  rw [get?, find?_eq_none.mpr, Option.map_none]
  intro p hp
  rw [has_eq_false_iff.mp h p hp]
  exact Bool.false_ne_true

theorem distinct_nil : Distinct eqv ([] : List (K × V)) := List.Pairwise.nil

/-- The pair of a key is the only one. -/
theorem Distinct.get?_of_mem (he : IsEquiv eqv) (h : Distinct eqv l) {p : K × V} (hp : p ∈ l)
    (hk : eqv k p.1 = true) : get? eqv l k = some p.2 := by
  induction l with
  | nil => exact nomatch hp
  | cons q l ih =>
    obtain ⟨hq, hl⟩ := pairwise_cons.mp h
    rcases mem_cons.mp hp with rfl | hp
    · have hfind : (p :: l).find? (fun q => eqv k q.1) = some p := find?_cons_of_pos hk
      rw [get?, hfind, Option.map_some]
    · have hne : eqv k q.1 = false := by
        rw [he.congr hk, he.symm]
        exact hq p hp
      have hfind : (q :: l).find? (fun q => eqv k q.1) = l.find? fun q => eqv k q.1 :=
        find?_cons_of_neg (by rw [hne]; exact Bool.false_ne_true)
      rw [get?, hfind]
      exact ih hl hp

theorem set_of_has (h : has eqv l k = true) (v : V) :
    set eqv l k v = l.map fun p => if eqv k p.1 then (p.1, v) else p := by rw [set, if_pos h]

theorem set_of_not_has (h : has eqv l k = false) (v : V) : set eqv l k v = l ++ [(k, v)] := by
  rw [set, if_neg (by rw [h]; exact Bool.false_ne_true)]

theorem length_set (l : List (K × V)) (k : K) (v : V) :
    (set eqv l k v).length = if has eqv l k then l.length else l.length + 1 := by
  cases h : has eqv l k with
  | true => rw [set_of_has h, length_map, if_pos rfl]
  | false => rw [set_of_not_has h, length_append, length_singleton]; rfl

/-- Setting a value touches no key. -/
theorem fst_set (b : Bool) (p : K × V) (v : V) : (if b then (p.1, v) else p).1 = p.1 := by
  cases b <;> rfl

theorem exists_of_get?_eq_some (h : get? eqv l k = some v) :
    ∃ p ∈ l, eqv k p.1 = true ∧ p.2 = v := by
  obtain ⟨p, hp, rfl⟩ := Option.map_eq_some_iff.mp h
  exact ⟨p, mem_of_find?_eq_some hp, find?_some (p := fun q : K × V => eqv k q.1) hp, rfl⟩

theorem get?_set (he : IsEquiv eqv) (l : List (K × V)) (k x : K) (v : V) :
    get? eqv (set eqv l k v) x = if eqv x k then some v else get? eqv l x := by
  have hkey : ∀ {p}, l.find? (fun q => eqv x q.1) = some p → eqv x k = eqv k p.1 :=
    fun hp => (he.congr (find?_some (p := fun q : K × V => eqv x q.1) hp) k).trans (he.symm _ k)
  cases hk : has eqv l k with
  | true =>
    have hfst : ((fun q : K × V => eqv x q.1) ∘ fun p => if eqv k p.1 then (p.1, v) else p) =
        fun p => eqv x p.1 := funext fun p => congrArg (eqv x) (fst_set _ p v)
    rw [set_of_has hk, get?, find?_map, hfst, get?]
    cases hx : l.find? fun p => eqv x p.1 with
    | none =>
      obtain ⟨p, hp, hkp⟩ := has_iff.mp hk
      rw [if_neg fun hxk => find?_eq_none.mp hx p hp (he.trans hxk hkp)]
      rfl
    | some p =>
      rw [hkey hx]
      cases h : eqv k p.1 <;> simp [h]
  | false =>
    rw [set_of_not_has hk, get?, find?_append, get?]
    cases hx : l.find? fun p => eqv x p.1 with
    | none => cases h : eqv x k <;> simp [h]
    | some p => simp [hkey hx, has_eq_false_iff.mp hk p (mem_of_find?_eq_some hx)]

theorem Distinct.set (he : IsEquiv eqv) (h : Distinct eqv l) (k : K) (v : V) :
    Distinct eqv (set eqv l k v) := by
  cases hk : has eqv l k with
  | true =>
    rw [set_of_has hk, Distinct, pairwise_map]
    refine List.Pairwise.imp (fun {p q} hpq => ?_) h
    rw [fst_set, fst_set]
    exact hpq
  | false =>
    rw [set_of_not_has hk, Distinct, pairwise_append]
    refine ⟨h, pairwise_singleton _ _, fun p hp q hq => ?_⟩
    rw [mem_singleton.mp hq, he.symm]
    exact has_eq_false_iff.mp hk p hp

theorem Distinct.delete (h : Distinct eqv l) (k : K) : Distinct eqv (delete eqv l k) :=
  List.Pairwise.filter _ h

theorem delete_of_not_has (h : has eqv l k = false) : delete eqv l k = l := by
  refine filter_eq_self.mpr fun p hp => ?_
  rw [has_eq_false_iff.mp h p hp]
  rfl

/-- Deleting a key that is there takes one pair away. -/
theorem Distinct.length_delete (he : IsEquiv eqv) (h : Distinct eqv l) (hk : has eqv l k = true) :
    (KeyedList.delete eqv l k).length + 1 = l.length := by
  induction l with
  | nil => exact nomatch hk
  | cons p l ih =>
    obtain ⟨hp, hl⟩ := pairwise_cons.mp h
    rw [KeyedList.delete, filter_cons]
    cases hkp : eqv k p.1 with
    | true =>
      have hrest : has eqv l k = false := by
        refine has_eq_false_iff.mpr fun q hq => ?_
        rw [he.congr hkp]
        exact hp q hq
      have hsame := delete_of_not_has hrest
      rw [KeyedList.delete] at hsame
      rw [Bool.not_true, if_neg Bool.false_ne_true, hsame, length_cons]
    | false =>
      have hrest : has eqv l k = true := by
        rw [has, any_cons, hkp] at hk
        exact hk
      have hlen := ih hl hrest
      rw [KeyedList.delete] at hlen
      rw [Bool.not_false, if_pos rfl, length_cons, length_cons, hlen]

end KeyedList
