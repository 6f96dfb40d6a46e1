import Js2Wasm.Cfg.TreeOrder

/-! # The analysis is right

`computeDominance_runs` puts the parts together, with the exact numbers of the tree.
The query `dominates` compares what 32 bits keep of them, so it is right as long as they
fit, which is for up to `2 ^ 30` blocks; in a chain with one block more the entry seems not
to dominate the last block.
-/
namespace Js2Wasm.Cfg
open Dominators Ancestors List

variable {Instr Ty : Type} {fn : IrFunction Instr Ty}

/-! ### Ids -/

theorem misplacedBlock_none (h : fn.Contiguous) : misplacedBlock fn = none := by
  refine find?_eq_none.mpr fun bi hbi => ?_
  obtain ⟨-, hlt, hget⟩ := mem_zipIdx hbi
  have hid := h bi.2 (by simpa using hlt)
  simp only [Nat.sub_zero] at hget
  simp [hget, hid]

/-- **Only contiguous ids are accepted.** -/
theorem computeDominance_error (h : ¬ fn.Contiguous) (fuel : Nat) :
    ∃ block i, (block, i) ∈ fn.blocks.zipIdx ∧ block.id ≠ i ∧
      computeDominance fuel fn = some (.error
        s!"dominance: block ids not contiguous (blocks[{i}].id === {block.id})") := by
  cases hm : misplacedBlock fn with
  | none =>
    refine absurd (fun i hi => ?_) h
    have hall := find?_eq_none.mp hm (fn.blocks[i], i) (mem_zipIdx_iff_getElem?.mpr (by simp [hi]))
    simpa using hall
  | some bi =>
    obtain ⟨block, i⟩ := bi
    refine ⟨block, i, mem_of_find?_eq_some hm, by simpa using find?_some hm, ?_⟩
    simp only [computeDominance, hm]

/-! ### The parts together -/

/-- What is known of a result, numbers of the tree included. -/
structure Analysed (fn : IrFunction Instr Ty) (info : DominanceInfo) (parent : Nat → Option Nat)
    (tree : TreeWalk) (tin tout : Nat → Nat) : Prop where
  order : Rpo fn info.rpo
  reachable : ∀ b, info.reachable b = true ↔ Reachable fn.Edge 0 b
  dom : DomTree fn (info.rpo.idxOf ·) parent
  idom : info.idom = cellsOf parent
  frontier : ∀ a c, c ∈ info.frontier a ↔ InFrontier fn.Edge 0 a c
  numbers : Numbers parent info.rpo tree tin tout
  dominates : info.dominates = dominatesBy fn info.reachable tree

theorem computeDominance_runs (hids : fn.Contiguous) (hne : fn.blocks ≠ [])
    (hn : fn.blocks.length ≤ 2 ^ 31) : ∃ N, ∀ fuel ≥ N, ∃ info parent tree tin tout,
      computeDominance fuel fn = some (.ok info) ∧ Analysed fn info parent tree tin tout := by
  obtain ⟨N1, hdfs⟩ := dfs_correct hne
  obtain ⟨s, hs, horder, hreach⟩ := hdfs N1 .refl
  have hbound : ∀ b, Reachable fn.Edge 0 b → b < fn.blocks.length := fun b hb =>
    hb.closed (P := (· < fn.blocks.length)) (length_pos_iff.mpr hne) fun _ _ _ he => he.2
  have S : Setup fn s.postorder.reverse
      (predecessors fn s.reachable s.postorder.reverse) := by
    refine ⟨horder, fun b p => ?_, fun b hb => (hbound b hb).trans_le hn,
      (horder.length_le hne).trans hn⟩
    rw [mem_predecessors, horder.mem, hreach]
    exact ⟨fun h => ⟨h.1, h.2.1⟩, fun h => ⟨h.1, h.2, h.reachable⟩⟩
  obtain ⟨N2, hidoms⟩ := S.computeIdoms_correct
  refine ⟨N1 + N2 + 2 * s.postorder.reverse.length, fun fuel hfuel => ?_⟩
  obtain ⟨parent, hparent, D⟩ := hidoms fuel (by omega)
  have hmem : ∀ x, (parent x).isSome ↔ x ∈ s.postorder.reverse := fun x =>
    (D.isSome_iff x).trans (horder.mem x).symm
  obtain ⟨tree, tin, tout, htree, hnumbers⟩ :=
    numberTree_correct D.tree hmem horder.nodup fuel (by omega)
  obtain ⟨frontier, hfrontier, hin⟩ := frontiers_correct S D fuel fun b hb => by
    have := horder.idxOf_lt hb
    omega
  have hrun : dfs fuel fn = some s := Loop.run_mono (show N1 ≤ fuel by omega) hs
  refine ⟨⟨s.reachable, s.postorder.reverse, cellsOf parent,
    childrenOf parent s.postorder.reverse, predecessors fn s.reachable s.postorder.reverse,
    frontier, dominatesBy fn s.reachable tree⟩, parent, tree, tin, tout, ?_,
    ⟨horder, hreach, D, rfl, hin, hnumbers, rfl⟩⟩
  simp only [computeDominance, misplacedBlock_none hids, if_neg hne, hrun, Option.bind_eq_bind,
    Option.bind_some, hparent, htree, hfrontier,
    children_correct s.postorder.reverse fun b hb => (hmem b).mpr hb]

namespace Analysed
variable {info : DominanceInfo} {parent : Nat → Option Nat} {tree : TreeWalk} {tin tout : Nat → Nat}
  (A : Analysed fn info parent tree tin tout) {a b : Nat}
include A

/-- The query, on blocks of the function. -/
theorem dominates_iff_cells (ha : a < fn.blocks.length) (hb : b < fn.blocks.length) :
    info.dominates a b = true ↔ Reachable fn.Edge 0 a ∧ Reachable fn.Edge 0 b ∧
      toInt32 (tin a) ≤ toInt32 (tin b) ∧ toInt32 (tout b) ≤ toInt32 (tout a) := by
  have hra : fn.InRange (a : Int) := ⟨Int.natCast_nonneg a, Int.ofNat_lt.mpr ha⟩
  have hrb : fn.InRange (b : Int) := ⟨Int.natCast_nonneg b, Int.ofNat_lt.mpr hb⟩
  rw [A.dominates, dominatesBy, if_neg (by simp [hra, hrb])]
  simp only [Int.toNat_natCast]
  by_cases hreach : Reachable fn.Edge 0 a ∧ Reachable fn.Edge 0 b
  · obtain ⟨h1, h2⟩ := hreach
    have h1' := (A.order.mem a).mpr h1
    have h2' := (A.order.mem b).mpr h2
    simp [(A.reachable a).mpr h1, (A.reachable b).mpr h2, h1, h2, A.numbers.treeIn a h1',
      A.numbers.treeIn b h2', A.numbers.treeOut a h1', A.numbers.treeOut b h2']
  · have hfalse : (!info.reachable a || !info.reachable b) = true := by
      by_contra hnot
      simp only [Bool.or_eq_true, Bool.not_eq_true', not_or, Bool.not_eq_false, A.reachable] at hnot
      exact hreach hnot
    rw [hfalse]
    refine iff_of_false (by simp) ?_
    rintro ⟨h1, h2, -⟩
    exact hreach ⟨h1, h2⟩

theorem dominates_iff (hne : fn.blocks ≠ []) (hn : 2 * fn.blocks.length ≤ 2 ^ 31)
    (ha : a < fn.blocks.length) (hb : b < fn.blocks.length) :
    info.dominates a b = true ↔ Dominates fn.Edge 0 a b := by
  have hlen := A.order.length_le hne
  have hcell : ∀ {x : Nat}, x < 2 * info.rpo.length → toInt32 x = x := fun hx =>
    toInt32_of_lt (by omega)
  rw [A.dominates_iff_cells ha hb]
  constructor
  · rintro ⟨hra, hrb, hin, hout⟩
    have ha' := (A.order.mem a).mpr hra
    have hb' := (A.order.mem b).mpr hrb
    rw [hcell (A.numbers.tin_lt a ha'), hcell (A.numbers.tin_lt b hb')] at hin
    rw [hcell (A.numbers.tout_lt a ha'), hcell (A.numbers.tout_lt b hb')] at hout
    refine (A.dom.anc_iff hrb).mp ((A.numbers.anc_iff a ha' b hb').mpr ⟨?_, ?_⟩)
    all_goals omega
  · intro hdom
    have ha' := (A.order.mem a).mpr hdom.reachable_left
    have hb' := (A.order.mem b).mpr hdom.1
    obtain ⟨hin, hout⟩ := (A.numbers.anc_iff a ha' b hb').mp ((A.dom.anc_iff hdom.1).mpr hdom)
    refine ⟨hdom.reachable_left, hdom.1, ?_, ?_⟩
    · rw [hcell (A.numbers.tin_lt a ha'), hcell (A.numbers.tin_lt b hb')]
      omega
    · rw [hcell (A.numbers.tout_lt a ha'), hcell (A.numbers.tout_lt b hb')]
      omega

theorem idom_root : info.idom 0 = 0 := by
  rw [A.idom, cellsOf_some A.dom.tree.root]
  rfl

theorem idom_immediate (hb : Reachable fn.Edge 0 b) (hb0 : b ≠ 0) :
    ∃ u : Nat, info.idom b = u ∧ ImmediatelyDominates fn.Edge 0 u b := by
  obtain ⟨u, hu⟩ := Option.isSome_iff_exists.mp ((A.dom.isSome_iff b).mpr hb)
  exact ⟨u, by rw [A.idom, cellsOf_some hu],
    immediatelyDominates A.dom.tree A.dom.anc_iff hb hb0 hu⟩

theorem idom_unreachable (hb : ¬ Reachable fn.Edge 0 b) : info.idom b = -1 := by
  rw [A.idom, cellsOf_eq_neg_one_iff]
  exact Option.not_isSome_iff_eq_none.mp fun h => hb ((A.dom.isSome_iff b).mp h)

end Analysed

/-! ### The result -/

/-- What `computeDominance` promises of its result. -/
structure DominanceInfo.Correct (fn : IrFunction Instr Ty) (info : DominanceInfo) : Prop where
  dominates : ∀ a b : Nat, a < fn.blocks.length → b < fn.blocks.length →
    (info.dominates a b = true ↔ Dominates fn.Edge 0 a b)
  idom_entry : fn.blocks ≠ [] → info.idom 0 = 0
  idom : ∀ b < fn.blocks.length, b ≠ 0 → Reachable fn.Edge 0 b →
    ∃ u : Nat, info.idom b = u ∧ ImmediatelyDominates fn.Edge 0 u b
  idom_unreachable : ∀ b < fn.blocks.length, ¬ Reachable fn.Edge 0 b → info.idom b = -1
  frontier : ∀ a b, a < fn.blocks.length → b < fn.blocks.length →
    (b ∈ info.frontier a ↔ InFrontier fn.Edge 0 a b)

/-- **`computeDominance` ends, agrees with the naive reference and is dominance**, for
functions of up to `2 ^ 30` blocks. -/
theorem computeDominance_correct (fn : IrFunction Instr Ty) (hids : fn.Contiguous)
    (hn : fn.blocks.length ≤ 2 ^ 30) : ∃ N, ∀ fuel ≥ N, ∃ info,
      computeDominance fuel fn = some (.ok info) ∧ info.Correct fn ∧
      (fn.blocks ≠ [] → ∃ dom, computeDominanceNaive fuel fn = some dom ∧
        ∀ a b : Nat, a < fn.blocks.length → b < fn.blocks.length →
          info.dominates a b = decide (a ∈ dom b)) := by
  by_cases hne : fn.blocks = []
  · refine ⟨0, fun fuel _ => ⟨⟨fun _ => false, [], fun _ => -1, fun _ => [], fun _ => [],
      fun _ => [], fun _ _ => false⟩, ?_, ⟨?_, fun h => absurd hne h, ?_, ?_, ?_⟩,
      fun h => absurd hne h⟩⟩
    · simp only [computeDominance, misplacedBlock_none hids, if_pos hne]
    all_goals simp [hne]
  · obtain ⟨N1, hfast⟩ := computeDominance_runs hids hne (by omega)
    obtain ⟨N2, hnaive⟩ := computeDominanceNaive_correct hne
    refine ⟨N1 + N2, fun fuel hfuel => ?_⟩
    obtain ⟨info, parent, tree, tin, tout, hrun, A⟩ := hfast fuel (by omega)
    obtain ⟨dom, hdom, hmem⟩ := hnaive fuel (by omega)
    have hdominates : ∀ a b : Nat, a < fn.blocks.length → b < fn.blocks.length →
        (info.dominates a b = true ↔ Dominates fn.Edge 0 a b) := fun a b ha hb =>
      A.dominates_iff hne (by omega) ha hb
    refine ⟨info, hrun, ⟨hdominates, fun _ => A.idom_root, fun b _ hb0 hb => A.idom_immediate hb hb0,
      fun b _ hb => A.idom_unreachable hb, fun a b _ _ => A.frontier a b⟩, fun _ =>
      ⟨dom, hdom, fun a b ha hb => ?_⟩⟩
    rw [Bool.eq_iff_iff, hdominates a b ha hb, decide_eq_true_eq, hmem]

/-! ### A long chain -/

/-- Blocks that branch each to the next. -/
def chain (n : Nat) : IrFunction Unit Unit where
  name := "chain"
  params := []
  resultTypes := []
  blocks := (range n).map fun (i : Nat) =>
    { id := i, blockArgs := [], blockArgTypes := [], instrs := []
      terminator := if i + 1 < n then .br ⟨i + 1, []⟩ none else .ret [] none }
  exported := false
  valueCount := 0

@[simp] theorem chain_length (n : Nat) : (chain n).blocks.length = n := by simp [chain]

theorem chain_contiguous (n : Nat) : (chain n).Contiguous := fun i hi => by simp [chain]

theorem chain_edge {n u v : Nat} : (chain n).Edge u v ↔ v = u + 1 ∧ v < n := by
  by_cases hu : u < n
  · by_cases hlast : u + 1 < n
    · simp only [IrFunction.Edge, IrFunction.succs, chain, getElem?_map, getElem?_range hu,
        Option.map_some, Option.getD_some, blockSuccessors, if_pos hlast, mem_singleton,
        length_map, length_range]
      omega
    · simp only [IrFunction.Edge, IrFunction.succs, chain, getElem?_map, getElem?_range hu,
        Option.map_some, Option.getD_some, blockSuccessors, if_neg hlast, not_mem_nil,
        false_and, false_iff]
      omega
  · refine iff_of_false (fun h => hu (by simpa using h.lt)) ?_
    omega

theorem chain_reachable {n : Nat} : ∀ b < n, Reachable (chain n).Edge 0 b
  | 0, _ => .root
  | b + 1, h => (chain_reachable b (Nat.lt_of_succ_lt h)).step (chain_edge.mpr ⟨rfl, h⟩)

theorem chain_dominates {n a b : Nat} (hab : a ≤ b) (hb : b < n) :
    Dominates (chain n).Edge 0 a b := by
  refine dominates_iff.mpr ⟨chain_reachable b hb, fun hav => ?_⟩
  -- past `a` only the blocks before it can be reached
  have hlt : b < a := hav.closed (P := (· < a)) (fun h => Nat.pos_of_ne_zero h)
    fun u v hu he hne => by
      have := chain_edge.mp he
      omega
  omega

/-- The entry of a chain of `2 ^ 30 + 1` blocks dominates the last one, and `dominates`
says it does not: the post number of the entry is `2 ^ 31 + 1`. -/
theorem chain_dominates_wraps : (chain (2 ^ 30 + 1)).Contiguous ∧ ∃ N, ∀ fuel ≥ N, ∃ info dom,
    computeDominance fuel (chain (2 ^ 30 + 1)) = some (.ok info) ∧
    computeDominanceNaive fuel (chain (2 ^ 30 + 1)) = some dom ∧
    0 ∈ dom (2 ^ 30) ∧ info.dominates 0 ((2 ^ 30 : Nat) : Int) = false := by
  have hlen : (chain (2 ^ 30 + 1)).blocks.length = 2 ^ 30 + 1 := chain_length _
  have hne : (chain (2 ^ 30 + 1)).blocks ≠ [] := by
    rw [← length_pos_iff, hlen]
    omega
  obtain ⟨N1, hfast⟩ := computeDominance_runs (chain_contiguous (2 ^ 30 + 1)) hne (by omega)
  obtain ⟨N2, hnaive⟩ := computeDominanceNaive_correct hne
  refine ⟨chain_contiguous _, N1 + N2, fun fuel hfuel => ?_⟩
  obtain ⟨info, parent, tree, tin, tout, hrun, A⟩ := hfast fuel (by omega)
  obtain ⟨dom, hdom, hmem⟩ := hnaive fuel (by omega)
  have hreach : ∀ b < 2 ^ 30 + 1, Reachable (chain (2 ^ 30 + 1)).Edge 0 b := fun b hb =>
    chain_reachable b hb
  have hrpo : ∀ b < 2 ^ 30 + 1, b ∈ info.rpo := fun b hb => (A.order.mem b).mpr (hreach b hb)
  have hlast : 2 ^ 30 < 2 ^ 30 + 1 := by omega
  refine ⟨info, dom, hrun, hdom, (hmem 0 _).mpr (chain_dominates (Nat.zero_le _) hlast), ?_⟩
  -- post numbers fall along the chain
  have hfall : ∀ {x y : Nat}, x < y → y < 2 ^ 30 + 1 → tout y < tout x := fun {x y} hxy hy =>
    A.numbers.strict x (hrpo x (hxy.trans hy)) y (hrpo y hy)
      ((A.dom.anc_iff (hreach y hy)).mpr (chain_dominates hxy.le hy)) hxy.ne
  have hsize : info.rpo.length = 2 ^ 30 + 1 := by
    refine Nat.le_antisymm (hlen ▸ A.order.length_le hne) ?_
    have hsub : range (2 ^ 30 + 1) ⊆ info.rpo := fun b hb => hrpo b (mem_range.mp hb)
    simpa using (subperm_of_subset nodup_range hsub).length_le
  have hentry : tout 0 = 2 ^ 31 + 1 := by
    have := A.numbers.last
    omega
  have h1 : tout 1 < tout 0 := hfall (by omega) (by omega)
  have h2 : tout (2 ^ 30) < tout 1 := hfall (by omega) (by omega)
  have hcell : toInt32 (tout (2 ^ 30)) = tout (2 ^ 30) := toInt32_of_lt (by omega)
  have hwrap : toInt32 (tout 0 : Nat) = -(2 ^ 31 - 1) := by
    rw [hentry]
    decide
  rw [← Bool.not_eq_true]
  intro htrue
  have hcells := ((A.dominates_iff_cells (a := 0) (b := 2 ^ 30) (by omega) (by omega)).mp htrue).2.2.2
  rw [hcell, hwrap] at hcells
  omega

/-- `computeDominance_correct` on a chain of three blocks. -/
theorem chain_three_correct : (chain 3).Contiguous ∧ ∃ N, ∀ fuel ≥ N, ∃ info,
    computeDominance fuel (chain 3) = some (.ok info) ∧ info.Correct (chain 3) ∧
    ((chain 3).blocks ≠ [] → ∃ dom, computeDominanceNaive fuel (chain 3) = some dom ∧
      ∀ a b : Nat, a < (chain 3).blocks.length → b < (chain 3).blocks.length →
        info.dominates a b = decide (a ∈ dom b)) :=
  ⟨chain_contiguous 3, computeDominance_correct (chain 3) (chain_contiguous 3) (by decide)⟩

end Js2Wasm.Cfg
