import Js2Wasm.Regex.ClassParser
import Js2Wasm.Regex.Layout

/-! # The class table

What `addClass` appends to the table, and what `classMatch` finds in it
(`codegen/regex/compile.ts`, `codegen/regex/match-units.ts`).  The ranges of a record are
sorted and apart from each other, so the binary search may leave out the ranges on one side of
the one that it looks at.
-/
namespace Js2Wasm.Regex
open List

section
variable {rs : List (Nat × Nat)} {c : Nat}

theorem Separated.pairwise (h : Separated rs) : rs.Pairwise fun r s => r.2 + 1 < s.1 := by
  induction rs with
  | nil => exact List.Pairwise.nil
  | cons r rs ih => exact pairwise_cons.mpr ⟨h.head_lt, ih h.tail⟩

theorem Separated.le (h : Separated rs) {r : Nat × Nat} (hr : r ∈ rs) : r.1 ≤ r.2 := by
  induction rs with
  | nil => cases hr
  | cons s rs ih =>
    rcases mem_cons.mp hr with rfl | hr
    · exact h.head_le
    · exact ih h.tail hr

/-- The numbers of a record behind its count. -/
theorem getElem?_flatMap_pairs (rs : List (Nat × Nat)) (i : Nat) :
    (rs.flatMap fun r => [r.1, r.2])[2 * i]? = (rs[i]?).map Prod.fst ∧
      (rs.flatMap fun r => [r.1, r.2])[2 * i + 1]? = (rs[i]?).map Prod.snd := by
  induction rs generalizing i with
  | nil => exact ⟨rfl, rfl⟩
  | cons r rs ih =>
    cases i with
    | zero => exact ⟨rfl, rfl⟩
    | succ i => exact ih i

/-- When the ranges split into some that end below the unit and some that begin above it, none
holds it. -/
theorem inRanges_eq_false_of_split {lo hi : Int} (hlt : hi < lo)
    (hbelow : ∀ (i : Nat) (h : i < rs.length), (i : Int) < lo → rs[i].2 < c)
    (habove : ∀ (i : Nat) (h : i < rs.length), hi < (i : Int) → c < rs[i].1) :
    inRanges rs c = false := by
  rw [Bool.eq_false_iff, ne_eq, inRanges_eq_true]
  rintro ⟨r, hr, h1, h2⟩
  obtain ⟨i, hi', rfl⟩ := getElem_of_mem hr
  by_cases hil : (i : Int) < lo
  · exact absurd (hbelow i hi' hil) (by lia)
  · exact absurd (habove i hi' (by lia)) (by lia)

/-- **The search.**  The ranges before `lo` end below the unit, those behind `hi` begin above
it. -/
theorem classSearch_eq (hs : Separated rs) (fuel : Nat) (lo hi : Int) (hlo : 0 ≤ lo)
    (hhi : hi < rs.length) (hfuel : hi + 1 - lo ≤ fuel)
    (hbelow : ∀ (i : Nat) (h : i < rs.length), (i : Int) < lo → rs[i].2 < c)
    (habove : ∀ (i : Nat) (h : i < rs.length), hi < (i : Int) → c < rs[i].1) :
    classSearch (rs.length :: rs.flatMap fun r => [r.1, r.2]) 0 (some c) fuel lo hi =
      inRanges rs c := by
  induction fuel generalizing lo hi with
  | zero => exact (inRanges_eq_false_of_split (by lia) hbelow habove).symm
  | succ fuel ih =>
    rw [classSearch]
    by_cases hle : lo ≤ hi
    · have hmid : lo ≤ lo + (hi - lo) / 2 ∧ lo + (hi - lo) / 2 ≤ hi := by lia
      rw [if_pos hle]
      generalize lo + (hi - lo) / 2 = mid at hmid
      obtain ⟨m, rfl⟩ := Int.eq_ofNat_of_zero_le (show 0 ≤ mid by lia)
      have hm : m < rs.length := by lia
      obtain ⟨hfst, hsnd⟩ := getElem?_flatMap_pairs rs m
      rw [getElem?_eq_getElem hm] at hfst hsnd
      have hget1 : (rs.length :: rs.flatMap fun r => [r.1, r.2]).getD (0 + 1 + 2 * m) 0 =
          rs[m].1 := by
        rw [getD_eq_getElem?_getD, show 0 + 1 + 2 * m = 2 * m + 1 by lia,
          getElem?_cons_succ, hfst]
        rfl
      have hget2 : (rs.length :: rs.flatMap fun r => [r.1, r.2]).getD (0 + 1 + 2 * m + 1) 0 =
          rs[m].2 := by
        rw [getD_eq_getElem?_getD, show 0 + 1 + 2 * m + 1 = (2 * m + 1) + 1 by lia,
          getElem?_cons_succ, hsnd]
        rfl
      simp only [Int.toNat_natCast, hget1, hget2]
      have hpair := pairwise_iff_getElem.mp hs.pairwise
      by_cases hclo : c < rs[m].1
      · -- the ranges from here on begin above the unit
        have habove' : ∀ (i : Nat) (h : i < rs.length), (m : Int) - 1 < i → c < rs[i].1 := by
          intro i hi' hlt
          rcases Nat.eq_or_lt_of_le (show m ≤ i by lia) with rfl | hmi
          · exact hclo
          · have := hpair m i hm hi' hmi
            have := hs.le (getElem_mem hm)
            lia
        rw [if_pos hclo]
        exact ih lo (m - 1) hlo (by lia) (by lia) hbelow habove'
      · by_cases hchi : rs[m].2 < c
        · -- the ranges up to here end below the unit
          have hbelow' : ∀ (i : Nat) (h : i < rs.length), (i : Int) < m + 1 → rs[i].2 < c := by
            intro i hi' hlt
            rcases Nat.eq_or_lt_of_le (show i ≤ m by lia) with rfl | him
            · exact hchi
            · have := hpair i m hi' hm him
              lia
          rw [if_neg hclo, if_pos hchi]
          exact ih (m + 1) hi (by lia) hhi (by lia) hbelow' habove
        · rw [if_neg hclo, if_neg hchi]
          exact (inRanges_eq_true.mpr ⟨rs[m], getElem_mem hm, by lia, by lia⟩).symm
    · rw [if_neg hle]
      exact (inRanges_eq_false_of_split (by lia) hbelow habove).symm

variable {ranges : List (Nat × Nat)}

/-- A record accepts what its ranges hold. -/
theorem classMatch_classRecord (hr : ∀ r ∈ ranges, r.1 ≤ r.2) (c : Nat) (negated : Bool) :
    classMatch (Emitter.classRecord ranges) 0 (some c) negated =
      (inRanges ranges c != negated) := by
  obtain ⟨hs, hmem⟩ := mergeRanges_spec ranges hr
  have hsearch := classSearch_eq (c := c) hs ((mergeRanges ranges).length + 1) 0
    ((mergeRanges ranges).length - 1) (Int.le_refl 0) (by lia) (by lia)
    (fun i _ hi => absurd hi (by lia)) (fun i h hi => absurd h (by lia))
  have hcount : (Emitter.classRecord ranges).getD 0 0 = (mergeRanges ranges).length := rfl
  simp only [classMatch, hcount]
  rw [Emitter.classRecord, hsearch, hmem]
  cases negated <;> cases inRanges ranges c <;> rfl

/-- Complements of code-unit ranges hold code units only. -/
theorem le_of_inRanges_gapsFrom {next u : Nat} (hr : ∀ r ∈ ranges, r.1 ≤ 0x10000)
    (hu : inRanges (gapsFrom next ranges) u = true) : u ≤ 0xffff := by
  induction ranges generalizing next with
  | nil =>
    rw [gapsFrom] at hu
    split at hu
    · simp only [inRanges_cons, inRanges_nil, Bool.or_false, Bool.and_eq_true,
        decide_eq_true_eq] at hu
      exact hu.2
    · cases hu
  | cons r rest ih =>
    rw [gapsFrom, inRanges_append, Bool.or_eq_true] at hu
    rcases hu with hu | hu
    · have hlo := hr r mem_cons_self
      split at hu
      · simp only [inRanges_cons, inRanges_nil, Bool.or_false, Bool.and_eq_true,
          decide_eq_true_eq] at hu
        lia
      · cases hu
    · exact ih (fun r' hr' => hr r' (mem_cons_of_mem _ hr')) hu

/-- **Classes are exact.**  The record that is appended is sorted, disjoint and non-adjacent; a
search at its offset accepts what the ranges contain, whatever else the table holds; and
complements are exact. -/
theorem addClass_exact (ranges : List (Nat × Nat)) (hr : ∀ r ∈ ranges, r.1 ≤ r.2) :
    (∃ normalized, Separated normalized ∧ (∀ c, inRanges normalized c = inRanges ranges c) ∧
      ∀ em : Emitter, (em.addClass ranges).2.classTable =
        em.classTable ++ normalized.length :: normalized.flatMap fun r => [r.1, r.2]) ∧
    (∀ (em : Emitter) (following : List Nat) (c : Nat) (negated : Bool),
      classMatch ((em.addClass ranges).2.classTable ++ following) (em.addClass ranges).1 (some c)
        negated = (inRanges ranges c != negated)) ∧
    (∀ u ≤ 0xffff, inRanges (complementRanges ranges) u = !inRanges ranges u) ∧
    ((∀ r ∈ ranges, r.2 ≤ 0xffff) →
      ∀ u, inRanges (complementRanges ranges) u = true → u ≤ 0xffff) := by
  obtain ⟨hs, hmem⟩ := mergeRanges_spec ranges hr
  refine ⟨⟨mergeRanges ranges, hs, hmem, fun em => rfl⟩, fun em following c negated => ?_,
    fun u hu => inRanges_complementRanges hu ranges, fun hunits u hu => ?_⟩
  · have hdrop : ((em.addClass ranges).2.classTable ++ following).drop (em.addClass ranges).1 =
        Emitter.classRecord ranges ++ following := by
      rw [Emitter.addClass, append_assoc, drop_left]
    rw [classMatch_record hdrop, classMatch_classRecord hr]
  · refine le_of_inRanges_gapsFrom (fun r hmem => ?_) hu
    have hmem := (ranges.perm_insertionSort _).mem_iff.mp hmem
    have := hr r hmem
    have := hunits r hmem
    lia

/-- Overlapping and adjacent ranges in no order, between other records. -/
theorem addClass_exact_letters :
    classMatch (((Emitter.addClass [(0x61, 0x63), (0x30, 0x39), (0x64, 0x66), (0x62, 0x62)]
      ⟨[], [0], ⟨false, false, false⟩, false, [], 0, 0⟩).2.classTable) ++ [1, 0, 9]) 1
      (some 0x65) false = true :=
  (addClass_exact [(0x61, 0x63), (0x30, 0x39), (0x64, 0x66), (0x62, 0x62)] (by decide)).2.1
    ⟨[], [0], ⟨false, false, false⟩, false, [], 0, 0⟩ [1, 0, 9] 0x65 false

end

end Js2Wasm.Regex
