import Mathlib.Data.List.Sort
import Mathlib.Order.MinMax

/-! # Inclusive ranges and legacy case folding

Class contents are lists of inclusive ranges. `mergeRanges` is the sort-and-merge
loop the compiler runs when it adds a class to the table and when case folding
coalesces a class (`codegen/regex/compile.ts` `addClass`,
`codegen/regex/casefold.ts` `coalesce`); membership is unchanged by it.

Non-Unicode `i` folds a code unit through the host's `toUpperCase`, which is a
parameter here: `HostUpperCase` carries what the engine relies on about it.
-/
namespace Js2Wasm.Regex
open List

/-- Membership of a code unit or code point in a list of inclusive ranges. -/
def inRanges (ranges : List (Nat × Nat)) (c : Nat) : Bool :=
  ranges.any fun r => r.1 ≤ c && c ≤ r.2

@[simp] theorem inRanges_nil (c : Nat) : inRanges [] c = false := rfl

theorem inRanges_cons (r : Nat × Nat) (rs : List (Nat × Nat)) (c : Nat) :
    inRanges (r :: rs) c = ((decide (r.1 ≤ c) && decide (c ≤ r.2)) || inRanges rs c) := rfl

theorem inRanges_append (rs ss : List (Nat × Nat)) (c : Nat) :
    inRanges (rs ++ ss) c = (inRanges rs c || inRanges ss c) := by
  simp [inRanges]

variable {rs : List (Nat × Nat)} {r : Nat × Nat}

theorem inRanges_eq_true {c : Nat} : inRanges rs c = true ↔ ∃ r ∈ rs, r.1 ≤ c ∧ c ≤ r.2 := by
  simp [inRanges]

theorem inRanges_perm {ss : List (Nat × Nat)} (h : rs.Perm ss) (c : Nat) :
    inRanges rs c = inRanges ss c := by
  rw [Bool.eq_iff_iff, inRanges_eq_true, inRanges_eq_true]
  exact exists_congr fun r => and_congr_left' h.mem_iff

/-! ### Sorting and merging -/

/-- The sort order `left[0] - right[0] || left[1] - right[1]`. -/
def rangeLe (x y : Nat × Nat) : Prop := x.1 < y.1 ∨ (x.1 = y.1 ∧ x.2 ≤ y.2)

instance : DecidableRel rangeLe := fun _ _ => inferInstanceAs (Decidable (_ ∨ _))

instance : Std.Total rangeLe := ⟨fun x y => by unfold rangeLe; omega⟩

instance : IsTrans (Nat × Nat) rangeLe := ⟨fun x y z => by unfold rangeLe; omega⟩

/-- One merge step: `last` is the range pushed most recently. -/
def mergeInto : Nat × Nat → List (Nat × Nat) → List (Nat × Nat)
  | last, [] => [last]
  | last, (lo, hi) :: rest =>
    if lo ≤ last.2 + 1 then mergeInto (last.1, max last.2 hi) rest
    else last :: mergeInto (lo, hi) rest

/-- Merge a sorted list of ranges. -/
def mergeSorted : List (Nat × Nat) → List (Nat × Nat)
  | [] => []
  | r :: rs => mergeInto r rs

/-- Sort, then merge overlapping and adjacent ranges. -/
def mergeRanges (ranges : List (Nat × Nat)) : List (Nat × Nat) :=
  mergeSorted (ranges.insertionSort rangeLe)

/-- Ranges are increasing, disjoint and non-adjacent. -/
def Separated : List (Nat × Nat) → Prop
  | [] => True
  | [r] => r.1 ≤ r.2
  | r :: s :: rest => r.1 ≤ r.2 ∧ r.2 + 1 < s.1 ∧ Separated (s :: rest)

theorem Separated.tail {r : Nat × Nat} {rs : List (Nat × Nat)} (h : Separated (r :: rs)) :
    Separated rs := by
  cases rs with
  | nil => trivial
  | cons s rest => exact h.2.2

theorem Separated.head_le (h : Separated (r :: rs)) : r.1 ≤ r.2 := by
  cases rs with
  | nil => exact h
  | cons s rest => exact h.1

theorem Separated.head_lt (h : Separated (r :: rs)) : ∀ s ∈ rs, r.2 + 1 < s.1 := by
  induction rs generalizing r with
  | nil => simp
  | cons t rest ih =>
    intro s hs
    rcases mem_cons.mp hs with rfl | hs
    · exact h.2.1
    · have h1 := ih h.tail s hs
      have h2 := h.2.1
      have h3 := h.tail.head_le
      omega

private theorem mergeInto_spec (rs : List (Nat × Nat)) :
    ∀ last : Nat × Nat, last.1 ≤ last.2 → (∀ r ∈ rs, r.1 ≤ r.2) →
      (∀ r ∈ rs, last.1 ≤ r.1) → rs.Pairwise rangeLe →
      (∃ hi rest, mergeInto last rs = (last.1, hi) :: rest) ∧ Separated (mergeInto last rs) ∧
        ∀ c, inRanges (mergeInto last rs) c = inRanges (last :: rs) c := by
  induction rs with
  | nil => exact fun last hl _ _ _ => ⟨⟨last.2, [], rfl⟩, hl, fun _ => rfl⟩
  | cons r rs ih =>
    obtain ⟨lo, hi⟩ := r
    intro last hl hok hge hsorted
    have hlo : lo ≤ hi := hok (lo, hi) mem_cons_self
    have hok' : ∀ r ∈ rs, r.1 ≤ r.2 := fun r hr => hok r (mem_cons_of_mem _ hr)
    obtain ⟨hhead, htail⟩ := pairwise_cons.mp hsorted
    have hlast : last.1 ≤ lo := hge (lo, hi) mem_cons_self
    by_cases hc : lo ≤ last.2 + 1
    · have hge' : ∀ r ∈ rs, (last.1, max last.2 hi).1 ≤ r.1 := fun r hr =>
        hge r (mem_cons_of_mem _ hr)
      obtain ⟨hshape, hsep, hmem⟩ :=
        ih (last.1, max last.2 hi) (by simp only; omega) hok' hge' htail
      rw [mergeInto, if_pos hc]
      refine ⟨hshape, hsep, fun c => ?_⟩
      rw [hmem c, inRanges_cons, inRanges_cons, inRanges_cons, Bool.eq_iff_iff]
      simp only [Bool.or_eq_true, Bool.and_eq_true, decide_eq_true_eq]
      by_cases hr : inRanges rs c = true
      · simp [hr]
      · rw [Bool.not_eq_true] at hr
        simp only [hr, Bool.false_eq_true, or_false, le_max_iff]
        omega
    · have hge' : ∀ r ∈ rs, (lo, hi).1 ≤ r.1 := by
        intro r hr
        have := hhead r hr
        unfold rangeLe at this
        simp only at this ⊢
        omega
      obtain ⟨⟨hi', rest, hshape⟩, hsep, hmem⟩ := ih (lo, hi) hlo hok' hge' htail
      rw [mergeInto, if_neg hc]
      refine ⟨⟨last.2, _, rfl⟩, ?_, fun c => ?_⟩
      · rw [hshape] at hsep ⊢
        exact ⟨hl, by simp only; omega, hsep⟩
      · rw [inRanges_cons, hmem c, inRanges_cons last]

/-- **Merging keeps the members and separates the ranges.** -/
theorem mergeRanges_spec (rs : List (Nat × Nat)) (hok : ∀ r ∈ rs, r.1 ≤ r.2) :
    Separated (mergeRanges rs) ∧ ∀ c, inRanges (mergeRanges rs) c = inRanges rs c := by
  have hperm := perm_insertionSort rangeLe rs
  have hsorted := pairwise_insertionSort rangeLe rs
  unfold mergeRanges
  cases h : rs.insertionSort rangeLe with
  | nil =>
    rw [h] at hperm
    exact ⟨trivial, fun c => inRanges_perm hperm c⟩
  | cons r ss =>
    rw [h] at hperm hsorted
    have hok' : ∀ s ∈ r :: ss, s.1 ≤ s.2 := fun s hs => hok s (hperm.mem_iff.mp hs)
    obtain ⟨hhead, htail⟩ := pairwise_cons.mp hsorted
    have hge : ∀ s ∈ ss, r.1 ≤ s.1 := by
      intro s hs
      have := hhead s hs
      unfold rangeLe at this
      omega
    obtain ⟨-, hsep, hmem⟩ := mergeInto_spec ss r (hok' r mem_cons_self)
      (fun s hs => hok' s (mem_cons_of_mem _ hs)) hge htail
    exact ⟨hsep, fun c => (hmem c).trans (inRanges_perm hperm c)⟩

/-! ### Legacy case folding -/

/-- The host's `toUpperCase` on the string of one code unit, with what the engine
relies on: ASCII letters map as in ASCII, other ASCII units to themselves, and the
two line separators are their own and only their own upper case. -/
structure HostUpperCase where
  toUpperCase : Nat → List Nat
  ascii : ∀ c < 128, toUpperCase c = [if 0x61 ≤ c ∧ c ≤ 0x7a then c - 0x20 else c]
  separator : ∀ c u, (u = 0x2028 ∨ u = 0x2029) → (toUpperCase c = [u] ↔ c = u)

variable (host : HostUpperCase)

/-- §22.2.2.9.3 legacy (non-Unicode) Canonicalize of one UTF-16 code unit. -/
def canonicalizeLegacy (ch : Nat) : Nat :=
  match host.toUpperCase ch with
  | [cu] => if 128 ≤ ch ∧ cu < 128 then ch else cu
  | _ => ch

/-- The units with the same canonical form as `ch`, ascending (`byCanon`). -/
def equivUnits (ch : Nat) : List Nat :=
  (range 0x10000).filter fun u => canonicalizeLegacy host u == canonicalizeLegacy host ch

/-- The legacy-canonicalization equivalence class of a single code unit. -/
def foldCharUnitsLegacy (code : Nat) : List Nat :=
  if code < 0x10000 ∧ 1 < (equivUnits host code).length then equivUnits host code else [code]

/-- Every code unit that has a non-trivial equivalence set, ascending. -/
def casedUnits : List Nat :=
  (range 0x10000).filter fun u => 1 < (equivUnits host u).length

/-- Sorted, merged inclusive ranges; empty entries are dropped first. -/
def coalesce (ranges : List (Nat × Nat)) : List (Nat × Nat) :=
  mergeRanges (ranges.filter fun r => r.1 ≤ r.2)

/-- A code-unit list as coalesced inclusive ranges. -/
def unitsToRanges (units : List Nat) : List (Nat × Nat) :=
  coalesce (units.map fun u => (u, u))

/-- Expand a class's ranges with every case partner of any member. -/
def foldClassRangesLegacy (ranges : List (Nat × Nat)) : List (Nat × Nat) :=
  let extra := ((casedUnits host).filter (inRanges ranges)).flatMap fun u =>
    (equivUnits host u).map fun p => (p, p)
  coalesce (ranges ++ extra)

/-- ASCII counterparts of a class's ranges (used in `u`/`v` mode). -/
def foldClassRangesAscii (ranges : List (Nat × Nat)) : List (Nat × Nat) :=
  ranges.flatMap fun (lo, hi) =>
    let uLo := max lo 0x41
    let uHi := min hi 0x5a
    let lLo := max lo 0x61
    let lHi := min hi 0x7a
    [(lo, hi)] ++ (if uLo ≤ uHi then [(uLo + 0x20, uHi + 0x20)] else []) ++
      (if lLo ≤ lHi then [(lLo - 0x20, lHi - 0x20)] else [])

end Js2Wasm.Regex
