import Mathlib.Algebra.Order.BigOperators.Group.List
import Mathlib.Algebra.Order.Ring.Nat
import Js2Wasm.Cfg.Reach

/-! # Immediate dominators

`computeIdoms` visits the blocks in reverse postorder and intersects over predecessors,
round after round.  `intersect` returns the lowest common ancestor (`intersect_spec`), so
each block visited is a `Dominators.Visit`; the sum of the numbers of all parents falls
in every round that changes one (`round_spec`).
-/
namespace Js2Wasm.Cfg
open Dominators Ancestors List Function

variable {Instr Ty : Type} {fn : IrFunction Instr Ty}

variable {v : Nat} {rpo : List Nat}

/-! ### Cells -/

theorem toInt32_of_lt (h : v < 2 ^ 31) : toInt32 v = v := by
  rw [toInt32, Int.bmod_eq_of_le] <;> lia

namespace Int32Array

@[simp] theorem read_natCast (a : Int32Array) (b : Nat) : a.read b = some (a b) := by
  simp [read]

theorem write_of_lt (a : Int32Array) (i : Nat) {v : Nat} (h : v < 2 ^ 31) :
    a.write i v = update a i (v : Int) := by
  rw [write, toInt32_of_lt h]

end Int32Array

@[simp] theorem gt_some (a b : Int) : gt (some a) (some b) = decide (b < a) := rfl

/-- The `idom` array of a parent function: `-1` where there is no parent. -/
def cellsOf (parent : Nat → Option Nat) : Int32Array := fun b => (parent b).elim (-1) (↑)

variable {parent : Nat → Option Nat} {b : Nat}

theorem cellsOf_some {u : Nat} (h : parent b = some u) : cellsOf parent b = u := by
  simp [cellsOf, h]

theorem cellsOf_none (h : parent b = none) : cellsOf parent b = -1 := by
  simp [cellsOf, h]

theorem cellsOf_eq_neg_one_iff : cellsOf parent b = -1 ↔ parent b = none := by
  cases h : parent b with
  | none => simp [cellsOf_none h]
  | some u =>
    simp [cellsOf_some h]

theorem write_cellsOf (parent : Nat → Option Nat) (b : Nat) (h : v < 2 ^ 31) :
    (cellsOf parent).write b v = cellsOf (update parent b (some v)) := by
  rw [Int32Array.write_of_lt _ _ h]
  funext x
  by_cases hx : x = b <;> simp [cellsOf, hx]

theorem rpoNumbers_foldl (l : List Nat) (k : Nat) (a : Int32Array) (b : Nat)
    (hnodup : l.Nodup) (hlen : k + l.length ≤ 2 ^ 31) :
    (l.zipIdx k).foldl (fun nums bi => nums.write bi.1 bi.2) a b =
      if b ∈ l then ((k + l.idxOf b : Nat) : Int) else a b := by
  induction l generalizing k a with
  | nil => simp
  | cons c l ih =>
    obtain ⟨hc, hl⟩ := nodup_cons.mp hnodup
    simp only [length_cons] at hlen
    rw [zipIdx_cons, foldl_cons, ih (k + 1) _ hl (by lia),
      Int32Array.write_of_lt _ _ (show k < 2 ^ 31 by lia)]
    by_cases hb : b = c
    · subst hb
      simp [hc]
    · have hbc : c ≠ b := fun h => hb h.symm
      simp only [mem_cons, hb, false_or, idxOf_cons_ne l hbc, update_of_ne,
        ne_eq, not_false_eq_true, Nat.succ_eq_add_one]
      split
      · lia
      · rfl

theorem rpoNumbers_apply (hnodup : rpo.Nodup) (hlen : rpo.length ≤ 2 ^ 31) (hb : b ∈ rpo) :
    rpoNumbers rpo b = rpo.idxOf b := by
  rw [rpoNumbers, rpoNumbers_foldl rpo 0 _ b hnodup (by lia), if_pos hb]
  simp

/-! ### The intersection -/

section Intersect
variable {parent : Nat → Option Nat} {num : Nat → Nat} {rpoNum : Int32Array}

/-- A tree whose ranks the array `rpoNum` holds. -/
structure Numbered (parent : Nat → Option Nat) (num : Nat → Nat) (rpoNum : Int32Array) : Prop
    where
  tree : Ranked parent 0 num
  root : num 0 = 0
  cells : ∀ b, (parent b).isSome → rpoNum b = num b

/-- `climb` goes up from `x` to the first ancestor that is not after `y`. -/
theorem climb_spec (T : Numbered parent num rpoNum) {x y : Nat} (hx : (parent x).isSome)
    (hy : (parent y).isSome) (fuel : Nat) (hfuel : num x ≤ fuel) :
    ∃ x' : Nat, climb fuel rpoNum (cellsOf parent) x y = some (x' : Int) ∧ Anc parent x' x ∧
      num x' ≤ num y ∧ ∀ z, Anc parent z x → num z ≤ num y → Anc parent z x' := by
  have hcell : ∀ {a}, Anc parent a x → rpoNum a = num a := fun ha =>
    T.cells _ (T.tree.isSome ha hx)
  obtain ⟨s, hrun, ⟨x', rfl, hx', hz⟩, hend⟩ := Loop.run_total
    (fun s => gt (rpoNum.read s) (rpoNum.read (y : Int))) (cellsOf parent).read
    (fun s => ∃ a : Nat, s = a ∧ Anc parent a x ∧
      ∀ z, Anc parent z x → num z ≤ num y → Anc parent z a)
    (fun s => num s.toNat)
    (by
      rintro _ ⟨a, rfl, ha, hz⟩ hc
      simp only [Int32Array.read_natCast, gt_some, T.cells y hy, hcell ha,
        decide_eq_true_eq] at hc
      have har : a ≠ 0 := by
        rintro rfl
        have := T.root
        lia
      obtain ⟨u, hu⟩ := Option.isSome_iff_exists.mp (T.tree.isSome ha hx)
      refine ⟨u, by simp [cellsOf_some hu], ⟨u, rfl, ((Anc.refl u).up hu).trans ha, ?_⟩, ?_⟩
      · intro z hzx hle
        refine (hz z hzx hle).of_ne hu ?_
        rintro rfl
        lia
      · simpa using T.tree.falls har hu)
    fuel x ⟨x, rfl, Anc.refl x, fun z hzx _ => hzx⟩ (by simpa using hfuel)
  refine ⟨x', hrun, hx', ?_, hz⟩
  simp only [Int32Array.read_natCast, gt_some, T.cells y hy, hcell hx', decide_eq_false_iff_not] at hend
  lia

/-- **`intersect` is the lowest common ancestor.** -/
theorem intersect_spec (T : Numbered parent num rpoNum) {a : Nat} (ha : (parent a).isSome)
    (hb : (parent b).isSome) (fuel : Nat) (hfuel : num a + num b ≤ fuel) :
    ∃ c : Nat, intersect fuel rpoNum (cellsOf parent) a b = some (c : Int) ∧
      ∀ z, Anc parent z c ↔ Anc parent z a ∧ Anc parent z b := by
  obtain ⟨s, hrun, ⟨x, y, rfl, hx, hy, hz⟩, hend⟩ := Loop.run_total
    (fun xy : Int × Int => decide (xy.1 ≠ xy.2))
    (fun xy => do
      let x ← climb fuel rpoNum (cellsOf parent) xy.1 xy.2
      let y ← climb fuel rpoNum (cellsOf parent) xy.2 x
      some (x, y))
    (fun s => ∃ x y : Nat, s = ((x : Int), (y : Int)) ∧ Anc parent x a ∧ Anc parent y b ∧
      ∀ z, (Anc parent z x ∧ Anc parent z y) ↔ (Anc parent z a ∧ Anc parent z b))
    (fun s => num s.1.toNat + num s.2.toNat)
    (by
      rintro _ ⟨x, y, rfl, hx, hy, hz⟩ hc
      have hxs := T.tree.isSome hx ha
      have hys := T.tree.isSome hy hb
      have hne : num x ≠ num y := fun he => by
        simp [T.tree.inj hxs hys he] at hc
      have hxa := T.tree.rank_le hx
      have hyb := T.tree.rank_le hy
      obtain ⟨x', hrx, hx', hlex, hzx⟩ := climb_spec T hxs hys fuel (by lia)
      obtain ⟨y', hry, hy', hley, hzy⟩ :=
        climb_spec T hys (T.tree.isSome hx' hxs) fuel (by lia)
      refine ⟨((x' : Int), (y' : Int)), by simp [hrx, hry],
        ⟨x', y', rfl, hx'.trans hx, hy'.trans hy, fun z => ?_⟩, ?_⟩
      · rw [← hz]
        constructor
        · exact fun h => ⟨h.1.trans hx', h.2.trans hy'⟩
        · rintro ⟨h1, h2⟩
          have h3 := hzx z h1 (T.tree.rank_le h2)
          exact ⟨h3, hzy z h2 (T.tree.rank_le h3)⟩
      · have h1 := T.tree.rank_le hx'
        simp only [Int.toNat_natCast]
        lia)
    fuel (a, b) ⟨a, b, rfl, Anc.refl a, Anc.refl b, fun z => Iff.rfl⟩ (by simpa using hfuel)
  obtain rfl : x = y := Int.natCast_inj.mp (by simpa using hend)
  exact ⟨x, by rw [intersect, hrun]; rfl, fun z => by rw [← hz, and_self]⟩

/-- `new` stands for the lowest common ancestor of those of `ps` that have a parent. -/
def MeetOf (parent : Nat → Option Nat) (ps : List Nat) (new : Int) : Prop :=
  (new = -1 ∧ ∀ p ∈ ps, parent p = none) ∨ ∃ v : Nat, new = v ∧ (parent v).isSome ∧
    ∀ z, Anc parent z v ↔ ∀ p ∈ ps, (parent p).isSome → Anc parent z p

variable {n fuel : Nat}

section
variable (T : Numbered parent num rpoNum) (hn : ∀ b, (parent b).isSome → num b ≤ n)
  (hfuel : 2 * n ≤ fuel)
include T hn hfuel

theorem meetPred_spec {p : Nat} {ps : List Nat} {new : Int} (h : MeetOf parent ps new) :
    ∃ new', meetPred fuel rpoNum (cellsOf parent) new p = some new' ∧
      MeetOf parent (ps ++ [p]) new' := by
  unfold meetPred
  simp only [cellsOf_eq_neg_one_iff]
  by_cases hp : parent p = none
  · refine ⟨new, if_pos hp, h.imp (fun h => ⟨h.1, ?_⟩) fun ⟨v, hv, hvs, hz⟩ => ⟨v, hv, hvs, ?_⟩⟩
    · simpa [or_imp, forall_and, hp] using h.2
    · intro z
      rw [hz]
      simp [or_imp, forall_and, hp]
  · have hps : (parent p).isSome := Option.isSome_iff_ne_none.mpr hp
    rw [if_neg hp]
    rcases h with ⟨rfl, hdone⟩ | ⟨v, rfl, hvs, hz⟩
    · refine ⟨p, rfl, .inr ⟨p, rfl, hps, fun z => ⟨?_, fun hall => hall p (by simp) hps⟩⟩⟩
      intro hzp q hq hqs
      rcases mem_append.mp hq with hq | hq
      · simp [hdone q hq] at hqs
      · exact mem_singleton.mp hq ▸ hzp
    · rw [if_neg (show (v : Int) ≠ -1 by lia)]
      have h1 := hn v hvs
      have h2 := hn p hps
      obtain ⟨c, hc, hcz⟩ := intersect_spec T hvs hps fuel (by lia)
      refine ⟨c, hc, .inr ⟨c, rfl, T.tree.isSome ((hcz c).mp (Anc.refl c)).1 hvs, fun z => ?_⟩⟩
      rw [hcz, hz]
      simp only [mem_append, mem_singleton, or_imp, forall_and, forall_eq, hps,
        forall_const]

theorem newIdom_spec (ps : List Nat) :
    ∃ new, newIdom fuel rpoNum (cellsOf parent) ps = some new ∧ MeetOf parent ps new :=
  Loop.forEach_total (MeetOf parent) ps (.inl ⟨rfl, by simp⟩)
    fun _ _ _ _ _ h => meetPred_spec T hn hfuel h

end

end Intersect

/-! ### The order of visit -/

variable {reachable : Nat → Bool} {b p : Nat}

theorem mem_addPred {preds : Nat → List Nat} {c : Nat} {t : Int} :
    p ∈ addPred fn reachable c preds t b ↔ p ∈ preds b ∨
      p = c ∧ t = b ∧ b < fn.blocks.length ∧ reachable b = true := by
  unfold addPred
  by_cases hb : t = b
  · subst hb
    simp only [Int.toNat_natCast, IrFunction.InRange, Int.natCast_nonneg, Int.ofNat_lt, true_and]
    split
    · rename_i h
      simp only [update_self, mem_append, mem_singleton]
      grind
    · grind
  · split
    · rename_i h
      have hne : b ≠ t.toNat := fun he => hb (by rw [he, Int.toNat_of_nonneg h.1.1])
      simp [update_of_ne hne, hb]
    · simp [hb]

theorem mem_predecessors :
    p ∈ predecessors fn reachable rpo b ↔ p ∈ rpo ∧ fn.Edge p b ∧ reachable b = true := by
  have hinner : ∀ (c : Nat) (ts : List Int) (preds : Nat → List Nat),
      p ∈ ts.foldl (addPred fn reachable c) preds b ↔ p ∈ preds b ∨
        p = c ∧ (b : Int) ∈ ts ∧ b < fn.blocks.length ∧ reachable b = true := by
    intro c ts
    induction ts with
    | nil => simp
    | cons t ts ih =>
      intro preds
      rw [foldl_cons, ih, mem_addPred, mem_cons]
      grind
  suffices houter : ∀ (l : List Nat) (preds : Nat → List Nat),
      p ∈ l.foldl (fun preds c => (fn.succs c).foldl (addPred fn reachable c) preds) preds b ↔
        p ∈ preds b ∨ p ∈ l ∧ fn.Edge p b ∧ reachable b = true by
    simpa [predecessors] using houter rpo fun _ => []
  intro l
  induction l with
  | nil => simp
  | cons c l ih =>
    intro preds
    rw [foldl_cons, ih, hinner, mem_cons, IrFunction.Edge]
    grind

theorem idxOf_lt_of_sublist {l : List Nat} (hnodup : l.Nodup) (h : [p, b].Sublist l) :
    l.idxOf p < l.idxOf b := by
  induction l with
  | nil => cases h
  | cons c l ih =>
    obtain ⟨hc, hl⟩ := nodup_cons.mp hnodup
    cases h with
    | cons _ h =>
      have hp : c ≠ p := fun he => hc (he ▸ h.subset (by simp))
      have hb : c ≠ b := fun he => hc (he ▸ h.subset (by simp))
      rw [idxOf_cons_ne _ hp, idxOf_cons_ne _ hb]
      exact Nat.succ_lt_succ (ih hl h)
    | cons_cons _ h =>
      have hb : p ≠ b := fun he => hc (he ▸ h.subset (by simp))
      rw [idxOf_cons_self, idxOf_cons_ne _ hb]
      exact Nat.succ_pos _

namespace Rpo
variable {rpo : List Nat} {b : Nat} (H : Rpo fn rpo)
include H

theorem root_mem : 0 ∈ rpo := (H.mem 0).mpr .root

theorem idxOf_root : rpo.idxOf 0 = 0 := by
  obtain ⟨t, ht⟩ : ∃ t, rpo = 0 :: t := by
    cases rpo with
    | nil => exact nomatch H.root_mem
    | cons c t => exact ⟨t, by simpa using H.head⟩
  rw [ht, idxOf_cons_self]

theorem idxOf_lt (hb : Reachable fn.Edge 0 b) : rpo.idxOf b < rpo.length :=
  idxOf_lt_length_iff.mpr ((H.mem b).mpr hb)

theorem numbering : Numbering fn.Edge 0 (rpo.idxOf ·) where
  inj ha _ he := (idxOf_inj ((H.mem _).mpr ha)).mp he
  before hb hne := by
    obtain ⟨p, he, hsub⟩ := H.after _ ((H.mem _).mpr hb) hne
    exact ⟨p, ⟨(H.mem p).mp (hsub.subset (by simp)), he⟩, idxOf_lt_of_sublist H.nodup hsub⟩

theorem length_le (hne : fn.blocks ≠ []) : rpo.length ≤ fn.blocks.length := by
  have hsub : rpo ⊆ range fn.blocks.length := fun b hb =>
    mem_range.mpr (((H.mem b).mp hb).closed (P := (· < fn.blocks.length))
      (length_pos_iff.mpr hne) fun _ _ _ he => he.2)
  simpa using (subperm_of_subset H.nodup hsub).length_le

end Rpo

/-! ### Rounds -/

/-- The number of the parent, or more than all numbers. -/
def weight (rpo : List Nat) (idom : Int32Array) (b : Nat) : Nat :=
  if idom b < 0 then rpo.length else rpo.idxOf (idom b).toNat

def totalWeight (rpo : List Nat) (idom : Int32Array) : Nat := (rpo.map (weight rpo idom)).sum

/-- What the iteration works on. -/
structure Setup (fn : IrFunction Instr Ty) (rpo : List Nat) (preds : Nat → List Nat) : Prop where
  order : Rpo fn rpo
  preds : ∀ b p, p ∈ preds b ↔ Pred fn.Edge 0 p b
  small : ∀ b, Reachable fn.Edge 0 b → b < 2 ^ 31
  length : rpo.length ≤ 2 ^ 31

/-- The tree of dominators. -/
structure DomTree (fn : IrFunction Instr Ty) (num : Nat → Nat) (parent : Nat → Option Nat) : Prop
    where
  tree : Ranked parent 0 num
  isSome_iff : ∀ b, (parent b).isSome ↔ Reachable fn.Edge 0 b
  anc_iff : ∀ {x b}, Reachable fn.Edge 0 b → (Anc parent x b ↔ Dominates fn.Edge 0 x b)

namespace Setup
variable {rpo : List Nat} {preds : Nat → List Nat} {parent : Nat → Option Nat} {b k v : Nat}
  (S : Setup fn rpo preds)
include S

theorem numbered (h : Partial fn.Edge 0 (rpo.idxOf ·) parent k) :
    Numbered parent (rpo.idxOf ·) (rpoNumbers rpo) where
  tree := h.tree
  root := S.order.idxOf_root
  cells b hb := rpoNumbers_apply S.order.nodup S.length ((S.order.mem b).mpr (h.reach hb))

variable {fuel : Nat}

/-- **A block visited gets the lowest common ancestor of its predecessors.** -/
theorem visitBlock_spec (h : Partial fn.Edge 0 (rpo.idxOf ·) parent k) (hb : Reachable fn.Edge 0 b)
    (hk : rpo.idxOf b = k) (hb0 : b ≠ 0) (hfuel : 2 * rpo.length ≤ fuel) (changed : Bool) :
    ∃ v, Visit fn.Edge 0 (rpo.idxOf ·) parent k b v ∧
      visitBlock fuel (rpoNumbers rpo) preds (cellsOf parent, changed) b =
        some (cellsOf (update parent b (some v)), changed || decide (parent b ≠ some v)) := by
  obtain ⟨new, hnew, hmeet⟩ := newIdom_spec (S.numbered h)
    (fun b hb => Nat.le_of_lt (S.order.idxOf_lt (h.reach hb))) hfuel (preds b)
  obtain ⟨p, hp, hlt⟩ := S.order.numbering.before hb hb0
  have hps : (parent p).isSome := h.done hp.1 (hk ▸ hlt)
  obtain ⟨-, hnone⟩ | ⟨v, rfl, hvs, hz⟩ := hmeet
  · simp [hnone p ((S.preds b p).mpr hp)] at hps
  have hV : Visit fn.Edge 0 (rpo.idxOf ·) parent k b v :=
    ⟨S.order.numbering, h, hb, hk, hb0, fun z => by simp only [hz, S.preds]⟩
  refine ⟨v, hV, ?_⟩
  have hv : v < 2 ^ 31 := S.small v (h.reach hvs)
  unfold visitBlock
  rw [if_neg hb0, hnew]
  by_cases hold : parent b = some v
  · have hcell : cellsOf parent b = v := cellsOf_some hold
    have hupd : update parent b (some v) = parent := by
      rw [← hold, update_eq_self]
    simp [hupd, hcell, hold]
  · have hcell : cellsOf parent b ≠ v := by
      cases hpb : parent b with
      | none =>
        rw [cellsOf_none hpb]
        lia
      | some u =>
        rw [cellsOf_some hpb]
        rintro he
        exact hold (by rw [hpb, Int.ofNat.inj he])
    have hv1 : (v : Int) ≠ -1 := by lia
    simp [hold, hcell, hv1, write_cellsOf parent b hv]

omit S in
theorem weight_some {u : Nat} (h : parent b = some u) : weight rpo (cellsOf parent) b = rpo.idxOf u := by
  simp only [weight, cellsOf_some h, Int.toNat_natCast]
  exact if_neg (by lia)

/-- A visit that changes the parent lowers the total. -/
theorem totalWeight_lt (h : Visit fn.Edge 0 (rpo.idxOf ·) parent k b v)
    (hne : parent b ≠ some v) :
    totalWeight rpo (cellsOf (update parent b (some v))) < totalWeight rpo (cellsOf parent) := by
  have hb : weight rpo (cellsOf (update parent b (some v))) b <
      weight rpo (cellsOf parent) b := by
    rw [weight_some (update_self b _ _)]
    cases hpb : parent b with
    | none =>
      simp only [weight, cellsOf_none hpb]
      exact S.order.idxOf_lt (h.inv.reach h.isSome)
    | some u =>
      rw [weight_some hpb]
      have hanc := h.anc_old hpb
      refine Nat.lt_of_le_of_ne (h.inv.tree.rank_le hanc) fun he => hne ?_
      rw [hpb, h.inv.tree.eq_of_rank hanc (h.inv.tree.closed hpb) he]
  refine sum_lt_sum _ _ (fun x _ => ?_) ⟨b, (S.order.mem b).mpr h.reach, hb⟩
  by_cases hx : x = b
  · subst hx
    exact hb.le
  · have hcell : cellsOf (update parent b (some v)) x = cellsOf parent x := by
      simp only [cellsOf, update_of_ne hx]
    exact Nat.le_of_eq (by rw [weight, weight, hcell])

/-- The state of a round that began with `parent0`, after the blocks `done`. -/
def RoundInv (parent0 : Nat → Option Nat) (rpo done : List Nat) (fn : IrFunction Instr Ty)
    (s : Int32Array × Bool) : Prop :=
  ∃ parent, s.1 = cellsOf parent ∧ Partial fn.Edge 0 (rpo.idxOf ·) parent (max 1 done.length) ∧
    (s.2 = true → totalWeight rpo s.1 < totalWeight rpo (cellsOf parent0)) ∧
    (s.2 = false → parent = parent0 ∧
      ∀ b ∈ done, b ≠ 0 → ∃ u, parent b = some u ∧ IsMeet fn.Edge 0 parent b u)

theorem round_step {parent0 : Nat → Option Nat} {done rest : List Nat} {s : Int32Array × Bool}
    (hfuel : 2 * rpo.length ≤ fuel) (hrpo : rpo = done ++ b :: rest)
    (h : RoundInv parent0 rpo done fn s)
    (hle : totalWeight rpo s.1 ≤ totalWeight rpo (cellsOf parent0)) :
    ∃ s', visitBlock fuel (rpoNumbers rpo) preds s b = some s' ∧
      RoundInv parent0 rpo (done ++ [b]) fn s' ∧
      totalWeight rpo s'.1 ≤ totalWeight rpo (cellsOf parent0) := by
  obtain ⟨cells, changed⟩ := s
  obtain ⟨parent, rfl, hpart, hchanged, hsame⟩ := h
  have hidx : rpo.idxOf b = done.length := by
    have hnot : b ∉ done := by
      have := S.order.nodup
      rw [hrpo, nodup_middle, nodup_cons] at this
      exact fun hb => this.1 (mem_append_left _ hb)
    rw [hrpo, idxOf_append_of_notMem hnot, idxOf_cons_self, Nat.add_zero]
  have hb : Reachable fn.Edge 0 b := (S.order.mem b).mp (hrpo ▸ by simp)
  by_cases hb0 : b = 0
  · subst hb0
    have hdone : done = [] := length_eq_zero_iff.mp (hidx.symm.trans S.order.idxOf_root)
    subst hdone
    exact ⟨(cellsOf parent, changed), by simp [visitBlock],
      ⟨parent, rfl, hpart, hchanged, fun hc => ⟨(hsame hc).1, by simp⟩⟩, hle⟩
  · have hpos : done.length ≠ 0 := fun hz => hb0
      ((idxOf_inj S.order.root_mem).mp (S.order.idxOf_root.trans (hz ▸ hidx).symm)).symm
    obtain ⟨v, hV, hrun⟩ := S.visitBlock_spec hpart hb (hidx.trans (by lia)) hb0 hfuel changed
    have hlen : max 1 (done ++ [b]).length = max 1 done.length + 1 := by
      rw [length_append, length_singleton]
      lia
    by_cases hold : parent b = some v
    · have hupd : update parent b (some v) = parent := by
        rw [← hold, update_eq_self]
      rw [hupd] at hrun
      refine ⟨_, hrun, ⟨parent, rfl, hlen ▸ hupd ▸ hV.step, by simpa [hold] using hchanged, ?_⟩, hle⟩
      intro hc
      simp only [hold, not_true_eq_false, ne_eq, decide_false, Bool.or_false] at hc
      obtain ⟨hp, hall⟩ := hsame hc
      refine ⟨hp, fun x hx hx0 => ?_⟩
      rcases mem_append.mp hx with hx | hx
      · exact hall x hx hx0
      · rw [mem_singleton.mp hx]
        exact ⟨v, hold, hV.meet⟩
    · have hlt := S.totalWeight_lt hV hold
      refine ⟨_, hrun, ⟨_, rfl, hlen ▸ hV.step, fun _ => hlt.trans_le hle, ?_⟩, (hlt.trans_le hle).le⟩
      intro hc
      simp [hold] at hc

/-- **A round** either lowers the total, or leaves a tree in which every parent is the
lowest common ancestor of all predecessors. -/
theorem round_spec (h : Partial fn.Edge 0 (rpo.idxOf ·) parent 1) (fuel : Nat)
    (hfuel : 2 * rpo.length ≤ fuel) :
    ∃ parent' changed, rpo.foldlM (visitBlock fuel (rpoNumbers rpo) preds)
        (cellsOf parent, false) = some (cellsOf parent', changed) ∧
      Partial fn.Edge 0 (rpo.idxOf ·) parent' rpo.length ∧
      (changed = true → totalWeight rpo (cellsOf parent') < totalWeight rpo (cellsOf parent)) ∧
      (changed = false → parent' = parent ∧
        ∀ b ∈ rpo, b ≠ 0 → ∃ u, parent' b = some u ∧ IsMeet fn.Edge 0 parent' b u) := by
  obtain ⟨⟨cells, changed⟩, hrun, ⟨parent', rfl, hpart, hlt, hsame⟩, -⟩ := Loop.forEach_total
    (fun done s => RoundInv parent rpo done fn s ∧
      totalWeight rpo s.1 ≤ totalWeight rpo (cellsOf parent)) rpo
    (s := (cellsOf parent, false))
    ⟨⟨parent, rfl, h, nofun, fun _ => ⟨rfl, by simp⟩⟩, le_rfl⟩
    fun done b rest s hrpo hs => S.round_step hfuel hrpo hs.1 hs.2
  have hpos : 0 < rpo.length := length_pos_of_mem S.order.root_mem
  exact ⟨parent', changed, hrun, (show max 1 rpo.length = rpo.length by lia) ▸ hpart, hlt, hsame⟩

/-- **The iteration ends with the tree of dominators.** -/
theorem computeIdoms_correct : ∃ N, ∀ fuel ≥ N, ∃ parent,
    computeIdoms fuel (rpoNumbers rpo) preds rpo = some (cellsOf parent) ∧
      DomTree fn (rpo.idxOf ·) parent := by
  have hstart : Int32Array.write (.fill (-1)) 0 0 =
      cellsOf (update (fun _ => none) 0 (some 0)) :=
    write_cellsOf (fun _ => none) 0 (v := 0) (by lia)
  refine ⟨2 * rpo.length + totalWeight rpo (Int32Array.write (.fill (-1)) 0 0) + 1,
    fun fuel hfuel => ?_⟩
  obtain ⟨⟨cells, changed⟩, hrun, ⟨parent, rfl, hpart, hfinal⟩, hend⟩ := Loop.run_total
    (fun s : Int32Array × Bool => s.2)
    (fun s => rpo.foldlM (visitBlock fuel (rpoNumbers rpo) preds) (s.1, false))
    (fun s => ∃ parent, s.1 = cellsOf parent ∧ Partial fn.Edge 0 (rpo.idxOf ·) parent 1 ∧
      (s.2 = false → (∀ b, Reachable fn.Edge 0 b → (parent b).isSome) ∧
        ∀ b, Reachable fn.Edge 0 b → b ≠ 0 →
          ∃ u, parent b = some u ∧ IsMeet fn.Edge 0 parent b u))
    (fun s => totalWeight rpo s.1 + if s.2 then 1 else 0)
    (by
      rintro ⟨cells, changed⟩ ⟨parent, rfl, hpart, -⟩ hc
      obtain ⟨parent', changed', hrun, hpart', hlt, hsame⟩ := S.round_spec hpart fuel (by lia)
      refine ⟨(cellsOf parent', changed'), hrun,
        ⟨parent', rfl, hpart'.restart (fun b hb => S.order.idxOf_lt hb) 1, ?_⟩, ?_⟩
      · intro hc'
        obtain ⟨-, hall⟩ := hsame hc'
        refine ⟨fun b hb => hpart'.done hb (S.order.idxOf_lt hb), fun b hb => ?_⟩
        exact hall b ((S.order.mem b).mpr hb)
      · simp only at hc
        cases changed' with
        | true => simpa [hc] using hlt rfl
        | false => simp [hc, (hsame rfl).1])
    fuel (Int32Array.write (.fill (-1)) 0 0, true)
    ⟨_, hstart, partial_start S.order.numbering S.order.idxOf_root, nofun⟩ (by simp; lia)
  obtain ⟨hsome, hmeet⟩ := hfinal hend
  exact ⟨parent, by rw [computeIdoms, hrun]; rfl, hpart.tree,
    fun b => ⟨hpart.reach, hsome b⟩, fun hb => hpart.exact hsome hmeet hb⟩

end Setup

end Js2Wasm.Cfg
