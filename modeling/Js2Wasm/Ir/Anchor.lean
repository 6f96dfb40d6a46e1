import Js2Wasm.Ir.Schedule
import Js2Wasm.Lib.Reorder

/-! # The anchor pass passes the verifier

`Settled b s i` says what the pass decides about instruction `i`, in terms of the final
schedule: emitted in place, never emitted, or moved to its first consumer with nothing
in between that forbids it.  The pass works from the last instruction to the first and
touches one index at a time; what it decided about a later index stays true
(`Settled.extend`), because definitions come before uses.

From there `anchorPass_accepted` goes over a conflicting pair: a moved definition is
emitted no later than anything it conflicts with, and where the two share a tree the
later one consumes it.
-/
namespace Js2Wasm.Ir
open Reorder List Function

/-! ### Consumption -/

/-- The lazy tree rooted at an instruction consumes a value. -/
inductive Consumes (instrs : List InstrFacts) (isLazyAt : Nat → Bool) : Nat → IrValueId → Prop
  | use {k v} : v ∈ usesAt instrs k → Consumes instrs isLazyAt k v
  | through {k v d t} : v ∈ usesAt instrs k → defIdxOf instrs v = some d → isLazyAt d = true →
      Consumes instrs isLazyAt d t → Consumes instrs isLazyAt k t

section
variable {instrs : List InstrFacts} {isLazyAt isLazyAt' : Nat → Bool} {k d cur : Nat}
  {v t : IrValueId}

theorem mem_lazyOperands : d ∈ lazyOperands instrs isLazyAt cur ↔
    ∃ v ∈ usesAt instrs cur, defIdxOf instrs v = some d ∧ isLazyAt d = true := by
  simp only [lazyOperands, mem_filterMap, Option.filter_eq_some_iff]

theorem Consumes.trans (h : Consumes instrs isLazyAt k v) (hd : defIdxOf instrs v = some d)
    (hlazy : isLazyAt d = true) (ht : Consumes instrs isLazyAt d t) :
    Consumes instrs isLazyAt k t := by
  induction h with
  | use hv => exact .through hv hd hlazy ht
  | through hv hd' hlazy' _ ih => exact .through hv hd' hlazy' (ih hd)

theorem Consumes.mono (h : Consumes instrs isLazyAt k t)
    (hle : ∀ i, isLazyAt i = true → isLazyAt' i = true) : Consumes instrs isLazyAt' k t := by
  induction h with
  | use hv => exact .use hv
  | through hv hd hlazy _ ih => exact .through hv hd (hle _ hlazy) ih

variable {seen stack : List Nat}

/-- What the walk finds is there. -/
theorem treeWalk_sound (h : treeWalk instrs isLazyAt t seen stack = true) :
    ∃ c ∈ stack, Consumes instrs isLazyAt c t := by
  induction seen, stack using treeWalk.induct instrs isLazyAt t with
  | case1 seen => rw [treeWalk] at h; exact absurd h Bool.false_ne_true
  | case2 seen cur stack hseen ih =>
    rw [treeWalk, if_pos hseen] at h
    obtain ⟨c, hc, hcons⟩ := ih h
    exact ⟨c, mem_cons_of_mem _ hc, hcons⟩
  | case3 seen cur stack hseen huse => exact ⟨cur, mem_cons_self, .use huse⟩
  | case4 seen cur stack hseen huse ih =>
    rw [treeWalk, if_neg hseen, if_neg huse] at h
    obtain ⟨c, hc, hcons⟩ := ih h
    rcases mem_append.mp hc with hc | hc
    · obtain ⟨v, hv, hd, hlazy⟩ := mem_lazyOperands.mp (mem_reverse.mp hc)
      exact ⟨cur, mem_cons_self, .through hv hd hlazy hcons⟩
    · exact ⟨c, mem_cons_of_mem _ hc, hcons⟩

/-- Nothing that was seen uses the target, and its lazy operands were seen or are
waiting. -/
def Walked (instrs : List InstrFacts) (isLazyAt : Nat → Bool) (t : IrValueId)
    (seen stack : List Nat) : Prop :=
  ∀ c ∈ seen, t ∉ usesAt instrs c ∧ ∀ d ∈ lazyOperands instrs isLazyAt c, d ∈ seen ∨ d ∈ stack

/-- A walk that is over has missed nothing. -/
theorem Walked.not_mem (hw : Walked instrs isLazyAt t seen []) (h : Consumes instrs isLazyAt k t) :
    k ∉ seen := by
  induction h with
  | use hv => exact fun hk => (hw _ hk).1 hv
  | through hv hd hlazy _ ih =>
    intro hk
    have hmem := (hw _ hk).2 _ (mem_lazyOperands.mpr ⟨_, hv, hd, hlazy⟩)
    exact ih hw (hmem.resolve_right not_mem_nil)

/-- What the walk does not find is not there. -/
theorem treeWalk_complete (hw : Walked instrs isLazyAt t seen stack)
    (h : treeWalk instrs isLazyAt t seen stack = false) :
    ∀ c, c ∈ seen ∨ c ∈ stack → ¬ Consumes instrs isLazyAt c t := by
  induction seen, stack using treeWalk.induct instrs isLazyAt t with
  | case1 seen =>
    exact fun c hc hcons => hw.not_mem hcons (hc.resolve_right not_mem_nil)
  | case2 seen cur stack hseen ih =>
    rw [treeWalk, if_pos hseen] at h
    intro c hc
    refine ih (fun c hc => ⟨(hw c hc).1, fun d hd => ?_⟩) h c ?_
    · rcases (hw c hc).2 d hd with hd | hd
      · exact Or.inl hd
      · rcases mem_cons.mp hd with rfl | hd
        · exact Or.inl hseen
        · exact Or.inr hd
    · rcases hc with hc | hc
      · exact Or.inl hc
      · rcases mem_cons.mp hc with rfl | hc
        · exact Or.inl hseen
        · exact Or.inr hc
  | case3 seen cur stack hseen huse =>
    rw [treeWalk, if_neg hseen, if_pos huse] at h
    exact absurd h.symm Bool.false_ne_true
  | case4 seen cur stack hseen huse ih =>
    rw [treeWalk, if_neg hseen, if_neg huse] at h
    intro c hc
    refine ih (fun c hc => ?_) h c ?_
    · rcases mem_cons.mp hc with rfl | hc
      · exact ⟨huse, fun d hd =>
          Or.inr (mem_append_left _ (mem_reverse.mpr hd))⟩
      · refine ⟨(hw c hc).1, fun d hd => ?_⟩
        rcases (hw c hc).2 d hd with hd | hd
        · exact Or.inl (mem_cons_of_mem _ hd)
        · rcases mem_cons.mp hd with rfl | hd
          · exact Or.inl mem_cons_self
          · exact Or.inr (mem_append_right _ hd)
    · rcases hc with hc | hc
      · exact Or.inl (mem_cons_of_mem _ hc)
      · rcases mem_cons.mp hc with rfl | hc
        · exact Or.inl mem_cons_self
        · exact Or.inr (mem_append_right _ hc)

/-- **The walk decides consumption.** -/
theorem treeConsumes_iff : treeConsumes instrs isLazyAt k t = true ↔
    Consumes instrs isLazyAt k t := by
  constructor
  · intro h
    obtain ⟨c, hc, hcons⟩ := treeWalk_sound h
    exact mem_singleton.mp hc ▸ hcons
  · intro h
    by_contra hno
    exact treeWalk_complete (fun c hc => absurd hc not_mem_nil) (Bool.not_eq_true _ ▸ hno) k
      (Or.inr mem_cons_self) h

end

/-! ### Accepted schedules -/

/-- Every conflicting pair keeps its order, or shares a tree in which the later one
consumes the earlier. -/
def Accepted (instrs : List InstrFacts) (s : Schedule) : Prop :=
  ∀ i k, i < k → k < instrs.length → s.emissionIdx i ≠ ⊤ → s.emissionIdx k ≠ ⊤ →
    effectsConflict (effectsAt instrs i) (effectsAt instrs k) = true →
    s.emissionIdx i < s.emissionIdx k ∨ (s.emissionIdx i = s.emissionIdx k ∧
      ∃ r, resultAt instrs i = some r ∧ Consumes instrs s.isLazyAt k r)

section
variable {instrs : List InstrFacts} {s : Schedule}

theorem checkPair_eq_none {i k : Nat} : checkPair instrs s i k = none ↔
    (effectsConflict (effectsAt instrs i) (effectsAt instrs k) = true →
      s.emissionIdx i < s.emissionIdx k ∨ (s.emissionIdx i = s.emissionIdx k ∧
        ∃ r, resultAt instrs i = some r ∧ Consumes instrs s.isLazyAt k r)) := by
  simp only [checkPair, Bool.not_eq_true', ← treeConsumes_iff]
  cases hc : effectsConflict (effectsAt instrs i) (effectsAt instrs k) with
  | false => simp
  | true =>
    by_cases hlt : s.emissionIdx i < s.emissionIdx k
    · simp [hlt]
    · by_cases heq : s.emissionIdx i = s.emissionIdx k
      · cases hr : resultAt instrs i with
        | none => simp [heq]
        | some r => simp [heq]
      · simp [hlt, heq]

theorem checkPairs_eq_nil (l : List Nat) : checkPairs instrs s l = [] ↔
    l.Pairwise fun i k => checkPair instrs s i k = none := by
  induction l with
  | nil => simp [checkPairs]
  | cons i l ih => simp [checkPairs, ih]

/-- **The verifier accepts exactly the schedules of `Accepted`.** -/
theorem verifyEmissionSchedule_eq_nil : verifyEmissionSchedule instrs s = [] ↔
    Accepted instrs s := by
  have hsorted : (effectful instrs s).Pairwise (· < ·) := pairwise_lt_range.filter _
  have hpairs : checkPairs instrs s (effectful instrs s) = [] ↔ Accepted instrs s := by
    rw [checkPairs_eq_nil]
    constructor
    · intro h i k hik hk hi' hk' hc
      have hpure : effectsArePure (effectsAt instrs i) = false ∧
          effectsArePure (effectsAt instrs k) = false := by
        constructor <;> by_contra hp <;> rw [Bool.not_eq_false] at hp
        · rw [effectsConflict_of_pure (Or.inl hp)] at hc
          exact Bool.false_ne_true hc
        · rw [effectsConflict_of_pure (Or.inr hp)] at hc
          exact Bool.false_ne_true hc
      have hmi : i ∈ effectful instrs s := by
        simp [effectful, hi', hpure.1, hik.trans hk]
      have hmk : k ∈ effectful instrs s := by
        simp [effectful, hk', hpure.2, hk]
      rcases before_total hmi hmk hik.ne with hb | hb
      · have hnone : checkPair instrs s i k = none := pairwise_iff_forall_sublist.mp h hb
        exact checkPair_eq_none.mp hnone hc
      · exact absurd (before_of_pairwise hsorted hb) (Nat.lt_asymm hik)
    · intro h
      refine pairwise_iff_forall_sublist.mpr fun {i k} hb => checkPair_eq_none.mpr ?_
      have hi := mem_filter.mp (Before.mem_left hb)
      have hk := mem_filter.mp (Before.mem_right hb)
      simp only [ne_eq, decide_not, Bool.and_eq_true, Bool.not_eq_true', decide_eq_false_iff_not,
        mem_range] at hi hk
      exact h i k (before_of_pairwise hsorted hb) hk.1 hi.2.1 hk.2.1
  rw [verifyEmissionSchedule]
  split
  · next hlen =>
    refine iff_of_true rfl (hpairs.mp ?_)
    rw [checkPairs_eq_nil]
    match hl : effectful instrs s with
    | [] => exact List.Pairwise.nil
    | [i] => exact pairwise_singleton _ _
    | i :: k :: l =>
      rw [hl] at hlen
      exact absurd hlen (Nat.not_lt.mpr (Nat.le_add_left 2 l.length))
  · exact hpairs

end

/-! ### Blocks in SSA form -/

/-- Every value is defined once, before its uses. -/
structure BlockFacts.SSA (b : BlockFacts) : Prop where
  unique : ∀ {i j v}, resultAt b.instrs i = some v → resultAt b.instrs j = some v → i = j
  defined : ∀ {i k v}, resultAt b.instrs i = some v → v ∈ readsAt b.instrs k → i < k

section
variable {b : BlockFacts} {i j k c : Nat} {v r : IrValueId}

theorem lt_of_resultAt (h : resultAt b.instrs i = some v) : i < b.instrs.length := by
  by_contra hge
  rw [resultAt, getElem?_eq_none (Nat.le_of_not_lt hge)] at h
  exact nomatch h

theorem lt_of_mem_readsAt (h : v ∈ readsAt b.instrs i) : i < b.instrs.length := by
  by_contra hge
  rw [readsAt, getElem?_eq_none (Nat.le_of_not_lt hge)] at h
  cases h

theorem lt_of_mem_usesAt (h : v ∈ usesAt b.instrs i) : i < b.instrs.length := by
  by_contra hge
  rw [usesAt, getElem?_eq_none (Nat.le_of_not_lt hge)] at h
  cases h

theorem usesAt_subset (h : v ∈ usesAt b.instrs i) : v ∈ readsAt b.instrs i := by
  rw [usesAt] at h
  rw [readsAt]
  cases hget : b.instrs[i]? with
  | none => rw [hget] at h; cases h
  | some instr =>
    rw [hget] at h
    exact mem_append_left _ h

/-- It is enough to look at the instructions there are. -/
theorem BlockFacts.SSA.of_bounded
    (hunique : ∀ i < b.instrs.length, ∀ j < b.instrs.length,
      (resultAt b.instrs i).isSome → resultAt b.instrs i = resultAt b.instrs j → i = j)
    (hdefined : ∀ k < b.instrs.length, ∀ v ∈ readsAt b.instrs k, ∀ i < b.instrs.length,
      resultAt b.instrs i = some v → i < k) : b.SSA where
  unique hi hj := hunique _ (lt_of_resultAt hi) _ (lt_of_resultAt hj) (by rw [hi]; rfl)
    (hi.trans hj.symm)
  defined hi hv := hdefined _ (lt_of_mem_readsAt hv) _ hv _ (lt_of_resultAt hi) hi

theorem BlockFacts.SSA.defIdxOf (hssa : b.SSA) (h : resultAt b.instrs i = some v) :
    defIdxOf b.instrs v = some i := by
  cases hd : Ir.defIdxOf b.instrs v with
  | none =>
    have := find?_eq_none.mp hd i
      (mem_reverse.mpr (mem_range.mpr (lt_of_resultAt h)))
    simp [h] at this
  | some d =>
    have hv : resultAt b.instrs d = some v := by simpa using find?_some hd
    rw [hssa.unique hv h]

theorem isConstant_of_kind (hssa : b.SSA) (h : resultAt b.instrs i = some v) :
    isConstant b.instrs v = true ↔ kindAt b.instrs i = "const" := by
  rw [isConstant, hssa.defIdxOf h]
  exact decide_eq_true_iff

/-- What an instruction reads is one of its own uses, a constant or used across blocks. -/
theorem reads_cases (hv : v ∈ readsAt b.instrs k) :
    v ∈ usesAt b.instrs k ∨ isConstant b.instrs v = true ∨ crossBlock b v = true := by
  rw [readsAt] at hv
  rw [usesAt]
  cases hget : b.instrs[k]? with
  | none => rw [hget] at hv; cases hv
  | some instr =>
    rw [hget] at hv
    rcases mem_append.mp hv with hv | hv
    · exact Or.inl hv
    · refine Or.inr ?_
      have hmem : v ∈ b.instrs.flatMap InstrFacts.nested :=
        mem_flatMap.mpr ⟨instr, mem_of_getElem? hget, hv⟩
      cases hc : isConstant b.instrs v with
      | true => exact Or.inl rfl
      | false => exact Or.inr (by simp [crossBlock, hmem, hc])

theorem mem_consumersOf : c ∈ consumersOf b r ↔
    r ∈ usesAt b.instrs c ∨ (r ∈ b.terminatorUses ∧ c = b.instrs.length) := by
  simp only [consumersOf, mem_append, mem_flatMap, mem_range, mem_replicate,
    ne_eq, count_eq_zero, not_not]
  constructor
  · rintro (⟨i, -, hu, rfl⟩ | ⟨hu, rfl⟩)
    · exact Or.inl hu
    · exact Or.inr ⟨hu, rfl⟩
  · rintro (hu | ⟨hu, rfl⟩)
    · exact Or.inl ⟨c, lt_of_mem_usesAt hu, hu, rfl⟩
    · exact Or.inr ⟨hu, rfl⟩

theorem BlockFacts.SSA.lt_consumer (hssa : b.SSA) (h : resultAt b.instrs i = some r)
    (hc : c ∈ consumersOf b r) : i < c := by
  rcases mem_consumersOf.mp hc with hu | ⟨-, rfl⟩
  · exact hssa.defined h (usesAt_subset hu)
  · exact lt_of_resultAt h

/-! ### The first consumer -/

variable {s s' : Schedule}

variable {e : WithTop Nat} {α : Type*}

variable (f : α → WithTop Nat)

theorem foldl_min_le (l : List α) (e : WithTop Nat) :
    l.foldl (fun e c => min e (f c)) e ≤ e := by
  induction l generalizing e with
  | nil => exact Std.le_refl e
  | cons a l ih => exact (ih _).trans (min_le_left _ _)

theorem foldl_min_le_of_mem {l : List α} {a : α} (ha : a ∈ l) (e : WithTop Nat) :
    l.foldl (fun e c => min e (f c)) e ≤ f a := by
  induction l generalizing e with
  | nil => cases ha
  | cons a' l ih =>
    rcases mem_cons.mp ha with rfl | ha
    · exact (foldl_min_le f l _).trans (min_le_right _ _)
    · exact ih ha _

theorem foldl_min_attained (l : List α) (e : WithTop Nat) :
    l.foldl (fun e c => min e (f c)) e = e ∨
      ∃ a ∈ l, l.foldl (fun e c => min e (f c)) e = f a := by
  induction l generalizing e with
  | nil => exact Or.inl rfl
  | cons a l ih =>
    rw [foldl_cons]
    rcases ih (min e (f a)) with h | ⟨a', ha', h⟩
    · rw [h]
      rcases le_total e (f a) with h' | h'
      · exact Or.inl (min_eq_left h')
      · exact Or.inr ⟨a, mem_cons_self, min_eq_right h'⟩
    · exact Or.inr ⟨a', mem_cons_of_mem _ ha', h⟩

theorem firstConsumer_le (hc : c ∈ consumersOf b r) :
    firstConsumer b s r ≤ consumerPoint b s c := foldl_min_le_of_mem _ hc _

theorem firstConsumer_attained : firstConsumer b s r = ⊤ ∨
    ∃ c ∈ consumersOf b r, firstConsumer b s r = consumerPoint b s c := foldl_min_attained _ _ _

/-! ### What the pass decides -/

/-- Emitted at its own position. -/
def InPlace (s : Schedule) (i : Nat) : Prop := s.emissionIdx i = i ∧ s.isLazyAt i = false

/-- Never emitted: no consumer is, and its result is no one's. -/
def Never (b : BlockFacts) (s : Schedule) (i : Nat) : Prop :=
  s.emissionIdx i = ⊤ ∧ s.isLazyAt i = false ∧
    ∀ r, resultAt b.instrs i = some r → crossBlock b r = false ∧ firstConsumer b s r = ⊤

/-- Moved to its first consumer, past nothing that forbids it. -/
def Moved (b : BlockFacts) (s : Schedule) (i : Nat) : Prop :=
  s.isLazyAt i = true ∧ s.emissionIdx i ≠ ⊤ ∧ ∃ r, resultAt b.instrs i = some r ∧
    crossBlock b r = false ∧ s.emissionIdx i = firstConsumer b s r ∧ mustAnchor b s i r (s.emissionIdx i) = false

def Settled (b : BlockFacts) (s : Schedule) (i : Nat) : Prop :=
  InPlace s i ∨ Never b s i ∨ Moved b s i

/-- `s'` is `s` with one more index scheduled. -/
structure Extends (i : Nat) (s s' : Schedule) : Prop where
  emission : ∀ j, j ≠ i → s'.emissionIdx j = s.emissionIdx j
  lazy_ne : ∀ j, j ≠ i → s'.isLazyAt j = s.isLazyAt j
  lazy_self : s.isLazyAt i = false

theorem Extends.lazy_le (h : Extends i s s') (j : Nat) (hj : s.isLazyAt j = true) :
    s'.isLazyAt j = true := by
  by_cases hji : j = i
  · rw [hji, h.lazy_self] at hj
    exact absurd hj Bool.false_ne_true
  · rw [h.lazy_ne j hji, hj]

theorem Extends.firstConsumer (h : Extends i s s') (hlt : ∀ c ∈ consumersOf b r, i < c) :
    firstConsumer b s' r = firstConsumer b s r := by
  refine foldl_ext _ _ _ fun e c hc => ?_
  rw [consumerPoint, consumerPoint, h.emission c (Nat.ne_of_gt (hlt c hc))]

theorem Extends.blocksMove (h : Extends i s s') (hk : k ≠ i) (hb : blocksMove b s' j r e k = true) :
    blocksMove b s j r e k = true := by
  simp only [Ir.blocksMove, h.emission k hk] at hb ⊢
  split at hb
  · exact absurd hb Bool.false_ne_true
  · next hne =>
    rw [if_neg hne]
    split at hb
    · exact absurd hb Bool.false_ne_true
    · next hno =>
      rw [if_neg fun hc => hno ⟨hc.1, treeConsumes_iff.mpr
        ((treeConsumes_iff.mp hc.2).mono h.lazy_le)⟩]
      exact hb

theorem Extends.mustAnchor (h : Extends i s s') (hij : i < j) (hm : mustAnchor b s j r e = false) :
    mustAnchor b s' j r e = false := by
  by_contra hc
  rw [Bool.not_eq_false, Ir.mustAnchor, Bool.and_eq_true, any_eq_true] at hc
  obtain ⟨hpure, k, hk, hb⟩ := hc
  have hjk : j < k := (of_decide_eq_true (mem_filter.mp hk).2).1
  have hall : Ir.mustAnchor b s j r e = true := by
    rw [Ir.mustAnchor, Bool.and_eq_true, any_eq_true]
    exact ⟨hpure, k, hk, h.blocksMove (by omega) hb⟩
  rw [hm] at hall
  exact Bool.false_ne_true hall

theorem Settled.extend (hssa : b.SSA) (h : Extends i s s') (hij : i < j)
    (hs : Settled b s j) : Settled b s' j := by
  have hne : j ≠ i := hij.ne'
  have hfirst : ∀ r, resultAt b.instrs j = some r →
      Ir.firstConsumer b s' r = Ir.firstConsumer b s r := fun r hr =>
    h.firstConsumer fun c hc => hij.trans (hssa.lt_consumer hr hc)
  rcases hs with ⟨he, hl⟩ | ⟨he, hl, hcons⟩ | ⟨hl, hfin, r, hr, hcross, he, hm⟩
  · exact Or.inl ⟨by rw [h.emission j hne, he], by rw [h.lazy_ne j hne, hl]⟩
  · refine Or.inr (Or.inl ⟨by rw [h.emission j hne, he], by rw [h.lazy_ne j hne, hl], ?_⟩)
    intro r hr
    exact ⟨(hcons r hr).1, by rw [hfirst r hr, (hcons r hr).2]⟩
  · refine Or.inr (Or.inr ⟨by rw [h.lazy_ne j hne, hl], by rwa [h.emission j hne], r, hr, hcross,
      ?_, ?_⟩)
    · rw [h.emission j hne, hfirst r hr, he]
    · rw [h.emission j hne]
      exact h.mustAnchor hij hm

/-! ### The pass -/

/-- Nothing below `i` is scheduled, everything from `i` on is settled. -/
structure PassInv (b : BlockFacts) (i : Nat) (s : Schedule) : Prop where
  todo : ∀ j < i, s.emissionIdx j = ⊤ ∧ s.isLazyAt j = false
  settled : ∀ j, i ≤ j → Settled b s j

theorem firstConsumer_of_unused (h : totalUses b r = 0) : Ir.firstConsumer b s r = ⊤ := by
  simp only [totalUses, Nat.add_eq_zero_iff, count_eq_zero] at h
  rcases @firstConsumer_attained b r s with htop | ⟨c, hc, -⟩
  · exact htop
  · exfalso
    rcases mem_consumersOf.mp hc with hu | ⟨hu, -⟩
    · refine h.1.1 (mem_flatMap.mpr ?_)
      rw [usesAt] at hu
      cases hget : b.instrs[c]? with
      | none => rw [hget] at hu; cases hu
      | some instr =>
        rw [hget] at hu
        exact ⟨instr, mem_of_getElem? hget, hu⟩
    · exact h.1.2 hu

theorem emitAt_extends (s : Schedule) (e : WithTop Nat) (hl : s.isLazyAt i = false) :
    Extends i s (s.emitAt i e) where
  emission _ hj := update_of_ne hj _ _
  lazy_ne _ _ := rfl
  lazy_self := hl

/-- **One step of the pass** schedules its index and keeps what was decided. -/
theorem anchorAt_inv (hssa : b.SSA) (h : PassInv b (i + 1) s) : PassInv b i (anchorAt b s i) := by
  obtain ⟨htop, hlazy⟩ := h.todo i (Nat.lt_succ_self i)
  -- every outcome extends the schedule at `i`; what remains is that `i` is settled
  have hdone : ∀ s', Extends i s s' → Settled b s' i → PassInv b i s' := by
    intro s' hext hset
    refine ⟨fun j hj => ?_, fun j hj => ?_⟩
    · rw [hext.emission j hj.ne, hext.lazy_ne j hj.ne]
      exact h.todo j (Nat.lt_succ_of_lt hj)
    · rcases Nat.lt_or_eq_of_le hj with hlt | rfl
      · exact (h.settled j hlt).extend hssa hext hlt
      · exact hset
  have hself : Extends i s s := ⟨fun _ _ => rfl, fun _ _ => rfl, hlazy⟩
  have hplace : PassInv b i (s.emitAt i i) :=
    hdone _ (emitAt_extends s _ hlazy) (Or.inl ⟨update_self _ _ _, hlazy⟩)
  rw [anchorAt]
  cases hget : b.instrs[i]? with
  | none =>
    refine hdone s hself (Or.inr (Or.inl ⟨htop, hlazy, fun r hr => ?_⟩))
    rw [resultAt, hget] at hr
    exact nomatch hr
  | some instr =>
    have hres : resultAt b.instrs i = instr.result := by rw [resultAt, hget, Option.bind_some]
    simp only
    cases hr : instr.result with
    | none => exact hplace
    | some r =>
      rw [hr] at hres
      have hlt : ∀ c ∈ consumersOf b r, i < c := fun c hc => hssa.lt_consumer hres hc
      simp only
      split
      · exact hplace
      · next hmoves =>
        have hcross : crossBlock b r = false := by
          by_contra hc
          rw [Bool.not_eq_false] at hc
          exact hmoves (by rw [hc, Bool.true_or])
        split
        · next hunused =>
          refine hdone s hself (Or.inr (Or.inl ⟨htop, hlazy, fun r' hr' => ?_⟩))
          obtain rfl := Option.some.inj (hres.symm.trans hr')
          exact ⟨hcross, firstConsumer_of_unused hunused⟩
        · split
          · next hnone =>
            refine hdone s hself (Or.inr (Or.inl ⟨htop, hlazy, fun r' hr' => ?_⟩))
            obtain rfl := Option.some.inj (hres.symm.trans hr')
            exact ⟨hcross, hnone⟩
          · next hsome =>
            split
            · exact hdone _ ⟨fun j hj => update_of_ne hj _ _, fun _ _ => rfl, hlazy⟩
                (Or.inl ⟨update_self _ _ _, hlazy⟩)
            · next hfree =>
              have hext : Extends i s (s.emitLazily i (firstConsumer b s r)) :=
                ⟨fun j hj => update_of_ne hj _ _,
                  fun j hj => update_of_ne hj _ _, hlazy⟩
              have hself : (s.emitLazily i (firstConsumer b s r)).emissionIdx i =
                  firstConsumer b s r := update_self _ _ _
              refine hdone _ hext (Or.inr (Or.inr ⟨update_self _ _ _, ?_, r, hres, hcross,
                ?_, ?_⟩))
              · rwa [hself]
              · rw [hself, hext.firstConsumer hlt]
              · rw [hself]
                by_contra hc
                rw [Bool.not_eq_false, mustAnchor, Bool.and_eq_true, any_eq_true] at hc
                obtain ⟨hpure, k, hk, hb⟩ := hc
                have hik : i < k := (of_decide_eq_true (mem_filter.mp hk).2).1
                refine hfree ?_
                rw [mustAnchor, Bool.and_eq_true, any_eq_true]
                exact ⟨hpure, k, hk, hext.blocksMove hik.ne' hb⟩

theorem anchorLoop_inv (hssa : b.SSA) (h : PassInv b i s) : PassInv b 0 (anchorLoop b i s) := by
  induction i generalizing s with
  | zero => exact h
  | succ i ih => exact ih (anchorAt_inv hssa h)

/-- **The pass settles every instruction.** -/
theorem anchorPass_settled (hssa : b.SSA) (i : Nat) : Settled b (anchorPass b) i := by
  refine (anchorLoop_inv hssa ⟨fun _ _ => ⟨rfl, rfl⟩, fun j hj => ?_⟩).settled i (Nat.zero_le i)
  refine Or.inr (Or.inl ⟨rfl, rfl, fun r hr => ?_⟩)
  exact absurd (lt_of_resultAt hr) (Nat.not_lt.mpr hj)

/-! ### Settled schedules are accepted -/

/-- Nothing is emitted before its position. -/
theorem le_emissionIdx (hssa : b.SSA) (hs : ∀ i, Settled b s i) :
    ∀ d i, b.instrs.length ≤ i + d → (i : WithTop Nat) ≤ s.emissionIdx i := by
  intro d
  induction d with
  | zero =>
    intro i hi
    rcases hs i with ⟨he, -⟩ | ⟨he, -⟩ | ⟨-, -, r, hr, -⟩
    · exact he.ge
    · rw [he]; exact le_top
    · exact absurd (lt_of_resultAt hr) (by omega)
  | succ d ih =>
    intro i hi
    rcases hs i with ⟨he, -⟩ | ⟨he, -⟩ | ⟨-, hfin, r, hr, -, he, -⟩
    · exact he.ge
    · rw [he]; exact le_top
    · rw [he] at hfin ⊢
      obtain ⟨c, hc, hpoint⟩ := firstConsumer_attained.resolve_left hfin
      have hic := hssa.lt_consumer hr hc
      rw [hpoint, consumerPoint]
      split
      · exact WithTop.coe_le_coe.mpr (Nat.le_of_lt (lt_of_resultAt hr))
      · exact le_trans (WithTop.coe_le_coe.mpr hic.le) (ih c (by omega))

/-- The root of a tree consumes what is emitted there. -/
theorem root_consumes (hssa : b.SSA) (hs : ∀ i, Settled b s i) {e : Nat}
    (he : e < b.instrs.length) :
    ∀ d i, b.instrs.length ≤ i + d → s.isLazyAt i = true → s.emissionIdx i = e →
      ∀ r, resultAt b.instrs i = some r → Consumes b.instrs s.isLazyAt e r := by
  intro d
  induction d with
  | zero =>
    intro i hi _ _ r hr
    exact absurd (lt_of_resultAt hr) (by omega)
  | succ d ih =>
    intro i hi hl hei r hr
    rcases hs i with ⟨-, hl'⟩ | ⟨-, hl', -⟩ | ⟨-, hfin, r', hr', -, hpoint, -⟩
    · exact absurd (hl.symm.trans hl') Bool.false_ne_true.symm
    · exact absurd (hl.symm.trans hl') Bool.false_ne_true.symm
    obtain rfl := Option.some.inj (hr'.symm.trans hr)
    rw [hpoint] at hfin hei
    obtain ⟨c, hc, hpc⟩ := firstConsumer_attained.resolve_left hfin
    have hic := hssa.lt_consumer hr hc
    rw [hpc, consumerPoint] at hei
    split at hei
    · have heq : b.instrs.length = e := WithTop.coe_injective hei
      exact absurd heq.symm he.ne
    · next hcn =>
      have huse : r' ∈ usesAt b.instrs c := by
        rcases mem_consumersOf.mp hc with hu | ⟨-, hu⟩
        · exact hu
        · exact absurd hu hcn
      rcases hs c with ⟨hec, -⟩ | ⟨hec, -⟩ | ⟨hlc, -, rc, hrc, -⟩
      · -- the consumer is the root itself
        obtain rfl : c = e := WithTop.coe_injective (hec.symm.trans hei)
        exact .use huse
      · rw [hec] at hei
        exact absurd hei (WithTop.top_ne_coe)
      · exact (ih c (by omega) hlc hei rc hrc).trans (hssa.defIdxOf hrc) hlc (.use huse)

theorem mustAnchor_of (hik : i < k) (hk : k < b.instrs.length) (hke : (k : WithTop Nat) < e)
    (hconf : effectsConflict (effectsAt b.instrs i) (effectsAt b.instrs k) = true)
    (hb : blocksMove b s i r e k = true) : mustAnchor b s i r e = true := by
  rw [mustAnchor, Bool.and_eq_true, any_eq_true]
  refine ⟨?_, k, mem_filter.mpr ⟨mem_range.mpr hk, decide_eq_true ⟨hik, hke⟩⟩, hb⟩
  rw [Bool.not_eq_true']
  by_contra hp
  rw [effectsConflict_of_pure (Or.inl (Bool.not_eq_false _ ▸ hp))] at hconf
  exact Bool.false_ne_true hconf

/-- **A settled schedule keeps every conflicting pair in order.** -/
theorem settled_accepted (hssa : b.SSA) (hs : ∀ i, Settled b s i) : Accepted b.instrs s := by
  intro i k hik hk hi' hk' hconf
  have hle : (k : WithTop Nat) ≤ s.emissionIdx k :=
    le_emissionIdx hssa hs b.instrs.length k (Nat.le_add_left _ _)
  rcases hs i with ⟨he, -⟩ | ⟨he, -⟩ | ⟨hl, -, r, hr, -, -, hm⟩
  · rw [he]
    exact Or.inl (lt_of_lt_of_le (WithTop.coe_lt_coe.mpr hik) hle)
  · exact absurd he hi'
  · rcases lt_trichotomy (s.emissionIdx i) (s.emissionIdx k) with hlt | heq | hgt
    · exact Or.inl hlt
    all_goals
      have hek : ¬ (s.emissionIdx k = ⊤ ∨ s.emissionIdx i < s.emissionIdx k) := by
        rintro (htop | hlt)
        · exact hk' htop
        · first
          | exact absurd heq (ne_of_lt hlt)
          | exact absurd hgt (lt_asymm hlt)
    · refine Or.inr ⟨heq, r, hr, ?_⟩
      rcases eq_or_lt_of_le hle with hroot | hbefore
      · exact root_consumes hssa hs hk b.instrs.length i (Nat.le_add_left _ _) hl
          (heq.trans hroot.symm) r hr
      · by_contra hno
        refine Bool.false_ne_true (hm.symm.trans ?_)
        refine mustAnchor_of hik hk (heq ▸ hbefore) hconf ?_
        rw [blocksMove, if_neg hek, if_neg fun hc => hno (treeConsumes_iff.mp hc.2), hconf]
    · exfalso
      refine Bool.false_ne_true (hm.symm.trans ?_)
      refine mustAnchor_of hik hk (lt_of_le_of_lt hle hgt) hconf ?_
      rw [blocksMove, if_neg hek, if_neg fun hc => ne_of_gt hgt hc.1.symm, hconf]

/-- **The anchor pass passes the verifier.** -/
theorem anchorPass_accepted (hssa : b.SSA) :
    verifyEmissionSchedule b.instrs (anchorPass b) = [] :=
  verifyEmissionSchedule_eq_nil.mpr (settled_accepted hssa (anchorPass_settled hssa))

end

end Js2Wasm.Ir
