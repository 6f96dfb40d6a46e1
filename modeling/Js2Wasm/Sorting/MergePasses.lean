import Js2Wasm.Lib.StableSort
import Mathlib.Tactic.Ring

/-! # Merging by passes

What bottom-up merging does to a list, without buffers and cursors: a comparator with a state
merges two lists, a pass merges the runs of a width pairwise, and passes of doubled width follow
one another.  The comparator may throw; the outcome then holds what the merges have put out so
far.

If the comparator only returns, a pass returns a rearrangement.  If it tests for `>` in an
order, a pass keeps the order of equivalent elements and turns sorted runs of a width into
sorted runs of twice the width.
-/
namespace Js2Wasm.Sorting
open List StableSort

variable {α σ ε : Type}

/-- What a merge has put out, and the comparator's state or the exception. -/
inductive Outcome (α σ ε : Type) where
  | returned (out : List α) (st : σ)
  | threw (e : ε) (out : List α)

def Outcome.prepend (xs : List α) : Outcome α σ ε → Outcome α σ ε
  | .returned out st => .returned (xs ++ out) st
  | .threw e out => .threw e (xs ++ out)

def Outcome.bind (r : Outcome α σ ε) (f : σ → Outcome α σ ε) : Outcome α σ ε :=
  match r with
  | .returned out st => (f st).prepend out
  | .threw e out => .threw e out

section
variable (g : σ → α → α → Except ε (Bool × σ))

/-- The right list goes first only if it has the smaller element. -/
def mergeLists : List α → List α → σ → Outcome α σ ε
  | [], ys, st => .returned ys st
  | x :: xs, [], st => .returned (x :: xs) st
  | x :: xs, y :: ys, st =>
    match g st x y with
    | .error e => .threw e []
    | .ok (true, st) => (mergeLists (x :: xs) ys st).prepend [y]
    | .ok (false, st) => (mergeLists xs (y :: ys) st).prepend [x]
termination_by xs ys => xs.length + ys.length

/-- One pass. -/
def mergePairs (w : Nat) (l : List α) (st : σ) : Outcome α σ ε :=
  if _h : l = [] ∨ w = 0 then .returned l st
  else
    (mergeLists g (l.take w) ((l.drop w).take w) st).bind (mergePairs w ((l.drop w).drop w))
termination_by l.length
decreasing_by
  have hpos := length_pos_iff.mpr (not_or.mp _h).1
  simp only [length_drop]
  omega

/-- Where the comparator has thrown: `out` is what the pass had put out over `target`, the list
before the last pass. -/
structure Interrupted (α : Type) where
  pass : Nat
  out : List α
  target : List α

/-- The passes from width `w` on, up to `bound`. -/
def passes (bound w pass : Nat) (target l : List α) (st : σ) :
    Except (ε × Interrupted α) (List α × σ) :=
  if w = 0 ∨ bound ≤ w then .ok (l, st)
  else
    match mergePairs g w l st with
    | .returned out st => passes bound (2 * w) (pass + 1) l out st
    | .threw e out => .error (e, ⟨pass, out, target⟩)
termination_by bound - w

end

/-- The comparator only returns. -/
def Returns (g : σ → α → α → Except ε (Bool × σ)) : Prop :=
  ∀ st x y, ∃ greater st', g st x y = .ok (greater, st')

/-- The comparator tests for `>`. -/
def TestsGreater (g : σ → α → α → Except ε (Bool × σ)) (le : α → α → Bool) : Prop :=
  ∀ st x y, ∃ st', g st x y = .ok (!le x y, st')

variable {g : σ → α → α → Except ε (Bool × σ)} {le : α → α → Bool}

/-! ### Lengths -/

def Outcome.out : Outcome α σ ε → List α
  | .returned out _ => out
  | .threw _ out => out

theorem Outcome.out_prepend (xs : List α) (r : Outcome α σ ε) :
    (r.prepend xs).out = xs ++ r.out := by
  cases r <;> rfl

theorem mergeLists_nil (ys : List α) (st : σ) : mergeLists g [] ys st = .returned ys st := by
  rw [mergeLists]

theorem mergeLists_right_nil (xs : List α) (st : σ) :
    mergeLists g xs [] st = .returned xs st := by
  cases xs <;> rw [mergeLists]

theorem length_mergeLists_le (xs ys : List α) (st : σ) :
    (mergeLists g xs ys st).out.length ≤ xs.length + ys.length := by
  induction xs, ys, st using mergeLists.induct g with
  | case1 ys st =>
    rw [mergeLists]
    exact Nat.le_add_left _ _
  | case2 x xs st =>
    rw [mergeLists]
    exact Nat.le_add_right _ _
  | case3 x xs y ys st e h =>
    rw [mergeLists, h]
    exact Nat.zero_le _
  | case4 x xs y ys st st' h ih | case5 x xs y ys st st' h ih =>
    rw [mergeLists, h]
    dsimp only
    rw [Outcome.out_prepend, length_append]
    simp only [length_cons, length_nil] at ih ⊢
    omega

variable {bound w : Nat} {out l : List α} {st' st : σ}

theorem perm_mergeLists {xs ys : List α} (h : mergeLists g xs ys st = .returned out st') :
    out.Perm (xs ++ ys) := by
  induction xs, ys, st using mergeLists.induct g generalizing out with
  | case1 ys st =>
    rw [mergeLists] at h
    cases h
    exact .refl _
  | case2 x xs st =>
    rw [mergeLists] at h
    cases h
    rw [append_nil]
  | case3 x xs y ys st e hgt =>
    rw [mergeLists, hgt] at h
    cases h
  | case4 x xs y ys st st1 hgt ih =>
    rw [mergeLists, hgt] at h
    dsimp only at h
    cases hr : mergeLists g (x :: xs) ys st1 with
    | threw e out => rw [hr] at h; cases h
    | returned out st2 =>
      rw [hr] at h
      cases h
      exact ((ih hr).cons y).trans perm_middle.symm
  | case5 x xs y ys st st1 hgt ih =>
    rw [mergeLists, hgt] at h
    dsimp only at h
    cases hr : mergeLists g xs (y :: ys) st1 with
    | threw e out => rw [hr] at h; cases h
    | returned out st2 =>
      rw [hr] at h
      cases h
      exact (ih hr).cons x

theorem returns_mergeLists (hgt : Returns g) (xs ys : List α) (st : σ) :
    ∃ out st', mergeLists g xs ys st = .returned out st' := by
  induction xs, ys, st using mergeLists.induct g with
  | case1 ys st => exact ⟨ys, st, by rw [mergeLists]⟩
  | case2 x xs st => exact ⟨x :: xs, st, by rw [mergeLists]⟩
  | case3 x xs y ys st e h =>
    obtain ⟨greater, st', hok⟩ := hgt st x y
    rw [h] at hok
    cases hok
  | case4 x xs y ys st st' h ih =>
    obtain ⟨out, st2, hr⟩ := ih
    refine ⟨[y] ++ out, st2, ?_⟩
    rw [mergeLists, h]
    dsimp only
    rw [hr, Outcome.prepend]
  | case5 x xs y ys st st' h ih =>
    obtain ⟨out, st2, hr⟩ := ih
    refine ⟨[x] ++ out, st2, ?_⟩
    rw [mergeLists, h]
    dsimp only
    rw [hr, Outcome.prepend]

/-- With a test for `>` it is the merge of the order. -/
theorem mergeLists_eq_merge (hgt : TestsGreater g le) (xs ys : List α) (st : σ) :
    ∃ st', mergeLists g xs ys st = .returned (List.merge xs ys le) st' := by
  induction xs, ys, st using mergeLists.induct g with
  | case1 ys st => exact ⟨st, by rw [mergeLists, nil_merge]⟩
  | case2 x xs st => exact ⟨st, by rw [mergeLists, merge_right]⟩
  | case3 x xs y ys st e h =>
    obtain ⟨st', hok⟩ := hgt st x y
    rw [h] at hok
    cases hok
  | case4 x xs y ys st st' h ih =>
    obtain ⟨st1, hok⟩ := hgt st x y
    rw [h, Except.ok.injEq, Prod.mk.injEq] at hok
    obtain ⟨st2, hr⟩ := ih
    refine ⟨st2, ?_⟩
    rw [mergeLists, h]
    dsimp only
    rw [hr, Outcome.prepend, cons_merge_cons, if_neg (by simpa using hok.1)]
    rfl
  | case5 x xs y ys st st' h ih =>
    obtain ⟨st1, hok⟩ := hgt st x y
    rw [h, Except.ok.injEq, Prod.mk.injEq] at hok
    obtain ⟨st2, hr⟩ := ih
    refine ⟨st2, ?_⟩
    rw [mergeLists, h]
    dsimp only
    rw [hr, Outcome.prepend, cons_merge_cons, if_pos (by simpa using hok.1)]
    rfl

/-! ### One pass -/

theorem mergePairs_nil (w : Nat) (st : σ) : mergePairs g w [] st = .returned [] st := by
  rw [mergePairs, dif_pos (.inl rfl)]

theorem mergePairs_cons (hw : 0 < w) (hl : l ≠ []) (st : σ) :
    mergePairs g w l st = (mergeLists g (l.take w) ((l.drop w).take w) st).bind
      (mergePairs g w ((l.drop w).drop w)) := by
  rw [mergePairs, dif_neg (not_or.mpr ⟨hl, hw.ne'⟩)]

/-- Three parts of a list. -/
theorem take_drop_split (w : Nat) (l : List α) :
    l.take w ++ (l.drop w).take w ++ (l.drop w).drop w = l := by
  rw [append_assoc, take_append_drop, take_append_drop]

theorem Outcome.bind_returned {r : Outcome α σ ε} {f : σ → Outcome α σ ε}
    (h : r.bind f = .returned out st) : ∃ out1 st1 out2,
      r = .returned out1 st1 ∧ f st1 = .returned out2 st ∧ out = out1 ++ out2 := by
  cases r with
  | threw e out => cases h
  | returned out1 st1 =>
    rw [Outcome.bind] at h
    cases hf : f st1 with
    | threw e out2 => rw [hf] at h; cases h
    | returned out2 st2 =>
      rw [hf] at h
      cases h
      exact ⟨out1, st1, out2, rfl, hf, rfl⟩

theorem perm_mergePairs (h : mergePairs g w l st = .returned out st') : out.Perm l := by
  induction l, st using mergePairs.induct w generalizing out with
  | case1 l st hnil =>
    rw [mergePairs, dif_pos hnil] at h
    cases h
    exact .refl _
  | case2 l st hne ih =>
    rw [mergePairs, dif_neg hne] at h
    obtain ⟨out1, st1, out2, hmerge, hrest, rfl⟩ := Outcome.bind_returned h
    have hperm := (perm_mergeLists hmerge).append (ih st1 hrest)
    rwa [take_drop_split] at hperm

theorem returns_mergePairs (hgt : Returns g) (w : Nat) (l : List α) (st : σ) :
    ∃ out st', mergePairs g w l st = .returned out st' := by
  induction l, st using mergePairs.induct w with
  | case1 l st hnil => exact ⟨l, st, by rw [mergePairs, dif_pos hnil]⟩
  | case2 l st hne ih =>
    obtain ⟨out1, st1, hmerge⟩ := returns_mergeLists hgt (l.take w) ((l.drop w).take w) st
    obtain ⟨out2, st2, hrest⟩ := ih st1
    refine ⟨out1 ++ out2, st2, ?_⟩
    rw [mergePairs, dif_neg hne, hmerge, Outcome.bind, hrest, Outcome.prepend]

/-- What a pass puts out before it throws is no longer than the list. -/
theorem length_mergePairs_le (w : Nat) (l : List α) (st : σ) :
    (mergePairs g w l st).out.length ≤ l.length := by
  induction l, st using mergePairs.induct w with
  | case1 l st hnil => rw [mergePairs, dif_pos hnil, Outcome.out]
  | case2 l st hne ih =>
    rw [mergePairs, dif_neg hne]
    have hmerge := length_mergeLists_le (g := g) (l.take w) ((l.drop w).take w) st
    have hsplit := congrArg List.length (take_drop_split w l)
    rw [length_append, length_append] at hsplit
    cases hr : mergeLists g (l.take w) ((l.drop w).take w) st with
    | threw e out =>
      rw [hr, Outcome.out] at hmerge
      rw [Outcome.bind, Outcome.out]
      omega
    | returned out st1 =>
      rw [hr, Outcome.out] at hmerge
      have hrest := ih st1
      rw [Outcome.bind, Outcome.out_prepend, length_append]
      omega

/-! ### Runs -/

/-- The runs of a width are sorted. -/
def SortedRuns (le : α → α → Bool) (w : Nat) (l : List α) : Prop :=
  ∀ j, Sorted le ((l.drop (w * j)).take w)

theorem sortedRuns_one (l : List α) : SortedRuns le 1 l := by
  intro j
  cases (l.drop (1 * j)) with
  | nil => exact .nil
  | cons x xs => exact pairwise_singleton _ _

theorem SortedRuns.sorted (h : SortedRuns le w l) (hw : l.length ≤ w) : Sorted le l := by
  have h0 := h 0
  rwa [Nat.mul_zero, drop_zero, take_of_length_le hw] at h0

theorem SortedRuns.tail {w : Nat} {l : List α} (h : SortedRuns le w l) :
    SortedRuns le w ((l.drop w).drop w) := by
  intro j
  have hj := h (j + 2)
  rw [drop_drop, drop_drop]
  rwa [show w * (j + 2) = w + (w + w * j) by ring] at hj

/-- A sorted part and the runs behind it. -/
theorem SortedRuns.cons {w : Nat} {l l' : List α} (hl : Sorted le l)
    (hw : l.length = w ∨ l.length ≤ w ∧ l' = []) (h : SortedRuns le w l') :
    SortedRuns le w (l ++ l') := by
  intro j
  cases j with
  | zero =>
    rw [Nat.mul_zero, drop_zero]
    rcases hw with hw | ⟨hw, rfl⟩
    · rwa [← hw, take_left]
    · rwa [append_nil, take_of_length_le hw]
  | succ j =>
    rcases hw with hw | ⟨hw, rfl⟩
    · rw [show w * (j + 1) = l.length + w * j by rw [hw]; ring, ← drop_drop, drop_left]
      exact h j
    · rw [append_nil, drop_of_length_le (by rw [Nat.mul_succ]; omega)]
      rw [take_nil]
      exact .nil

/-- **A pass merges the runs.** -/
theorem mergePairs_sorts (hle : IsOrder le) (hgt : TestsGreater g le) (hw : 0 < w)
    (h : SortedRuns le w l) (st : σ) : ∃ out st',
      mergePairs g w l st = .returned out st' ∧ Keeps le l out ∧ SortedRuns le (2 * w) out := by
  induction l, st using mergePairs.induct w with
  | case1 l st hnil =>
    refine ⟨l, st, by rw [mergePairs, dif_pos hnil], .refl le l, fun j => ?_⟩
    rw [hnil.resolve_right hw.ne', drop_nil, take_nil]
    exact .nil
  | case2 l st hne ih =>
    obtain ⟨st1, hmerge⟩ := mergeLists_eq_merge hgt (l.take w) ((l.drop w).take w) st
    obtain ⟨out, st2, hrest, hkeeps, hruns⟩ := ih st1 h.tail
    have hleft : Sorted le (l.take w) := by
      have h0 := h 0
      rwa [Nat.mul_zero, drop_zero] at h0
    have hright : Sorted le ((l.drop w).take w) := by
      have h1 := h 1
      rwa [Nat.mul_one] at h1
    have hsorts := isStableSort_merge hle hleft hright
    refine ⟨List.merge (l.take w) ((l.drop w).take w) le ++ out, st2, ?_, ?_, ?_⟩
    · rw [mergePairs, dif_neg hne, hmerge, Outcome.bind, hrest, Outcome.prepend]
    · have happend := hsorts.toKeeps.append hkeeps
      rwa [take_drop_split] at happend
    · refine hruns.cons hsorts.sorted ?_
      have hout := hkeeps.perm.length_eq
      simp only [length_merge, length_take, length_drop] at hout ⊢
      by_cases hlong : w + w ≤ l.length
      · left
        omega
      · right
        exact ⟨by omega, length_eq_zero_iff.mp (by omega)⟩

/-! ### All passes -/

theorem perm_passes {pass : Nat} {target : List α}
    (h : passes g bound w pass target l st = .ok (out, st')) : out.Perm l := by
  induction w, pass, target, l, st using passes.induct g bound generalizing out with
  | case1 w pass target l st hend =>
    rw [passes, if_pos hend] at h
    cases h
    exact .refl _
  | case2 w pass target l st hmore out1 st1 hpairs ih =>
    rw [passes, if_neg hmore, hpairs] at h
    exact (ih h).trans (perm_mergePairs hpairs)
  | case3 w pass target l st hmore e out1 hpairs =>
    rw [passes, if_neg hmore, hpairs] at h
    cases h

theorem returns_passes (hgt : Returns g) (bound w pass : Nat) (target l : List α) (st : σ) :
    ∃ out st', passes g bound w pass target l st = .ok (out, st') := by
  induction w, pass, target, l, st using passes.induct g bound with
  | case1 w pass target l st hend => exact ⟨l, st, by rw [passes, if_pos hend]⟩
  | case2 w pass target l st hmore out1 st1 hpairs ih =>
    rw [passes, if_neg hmore, hpairs]
    exact ih
  | case3 w pass target l st hmore e out1 hpairs =>
    obtain ⟨out, st', hok⟩ := returns_mergePairs hgt w l st
    rw [hpairs] at hok
    cases hok

/-- **The passes sort stably.** -/
theorem passes_sorts (hle : IsOrder le) (hgt : TestsGreater g le) (hw : 0 < w)
    (hbound : l.length ≤ bound) (h : SortedRuns le w l) (pass : Nat) (target : List α) (st : σ) :
    ∃ out st',
      passes g bound w pass target l st = .ok (out, st') ∧ IsStableSort le l out := by
  induction w, pass, target, l, st using passes.induct g bound with
  | case1 w pass target l st hend =>
    have hsorted := h.sorted (hbound.trans (hend.resolve_left hw.ne'))
    exact ⟨l, st, by rw [passes, if_pos hend], .refl le l, hsorted⟩
  | case2 w pass target l st hmore out1 st1 hpairs ih =>
    obtain ⟨out2, st2, hok, hkeeps, hruns⟩ := mergePairs_sorts hle hgt hw h st
    rw [hpairs] at hok
    cases hok
    obtain ⟨out, st', hrest, hsorts⟩ := ih (Nat.mul_pos Nat.two_pos hw)
      (hkeeps.perm.length_eq ▸ hbound) hruns
    refine ⟨out, st', ?_, hkeeps.trans hsorts.toKeeps, hsorts.sorted⟩
    rw [passes, if_neg hmore, hpairs]
    exact hrest
  | case3 w pass target l st hmore e out1 hpairs =>
    obtain ⟨out2, st2, hok, -, -⟩ := mergePairs_sorts hle hgt hw h st
    rw [hpairs] at hok
    cases hok

end Js2Wasm.Sorting
