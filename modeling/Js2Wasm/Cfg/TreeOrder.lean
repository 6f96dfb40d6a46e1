import Js2Wasm.Cfg.Idoms

/-! # The numbers of the tree, and the frontiers

`numberTree` walks the dominator tree with a stack and a clock.  `NumberInv` keeps the
numbers as they would be without the 32 bits of the cells: for a block that is finished,
the blocks below it are those whose two numbers lie between its own.

The runner of `frontiers` adds a block to the frontiers of the vertices from a
predecessor up to, and without, the block's parent.
-/
namespace Js2Wasm.Cfg
open Dominators Ancestors List Option Function

variable {Instr Ty : Type} {fn : IrFunction Instr Ty} {rpo : List Nat} {num : Nat → Nat}
  {parent : Nat → Option Nat}

/-! ### Children -/

/-- The children of `u`, in the order of the list. -/
def childrenOf (parent : Nat → Option Nat) (l : List Nat) (u : Nat) : List Nat :=
  l.filter fun b => b ≠ 0 ∧ parent b = some u

theorem mem_childrenOf {l : List Nat} {u c : Nat} :
    c ∈ childrenOf parent l u ↔ c ∈ l ∧ c ≠ 0 ∧ parent c = some u := by
  simp [childrenOf]

theorem children_correct (l : List Nat) (hl : ∀ b ∈ l, (parent b).isSome) :
    l.foldlM (addChild (cellsOf parent)) (fun _ => []) = some (childrenOf parent l) := by
  obtain ⟨children, hrun, rfl⟩ := Loop.forEach_total
    (f := addChild (cellsOf parent)) (fun done ch => ch = childrenOf parent done) l (s := fun _ => [])
    rfl (by
      rintro done b rest _ hl' rfl
      obtain ⟨u, hu⟩ := isSome_iff_exists.mp (hl b (hl' ▸ by simp))
      refine ⟨_, ?_, rfl⟩
      by_cases hb : b = 0
      · rw [addChild, if_pos (.inl hb)]
        congr 1
        funext x
        simp [childrenOf, hb]
      · rw [addChild, cellsOf_some hu, if_neg (by lia), if_neg (by lia), Int.toNat_natCast]
        congr 1
        funext x
        by_cases hx : x = u
        · subst hx
          simp [childrenOf, hb, hu]
        · have hne : u ≠ x := fun h => hx h.symm
          simp [childrenOf, update_of_ne hx, hu, hne])
  exact hrun

/-! ### Numbers -/

/-- Blocks that have been met. -/
def Visited (s : TreeWalk) (done : List Nat) (x : Nat) : Prop :=
  x ∈ done ∨ x ∈ s.stack.map Prod.fst

/-- The invariant of the walk, with the blocks finished. -/
structure WalkInv (parent : Nat → Option Nat) (rpo : List Nat) (s : TreeWalk) (done : List Nat) :
    Prop where
  /-- A frame is below those under it. -/
  chain : s.stack.Pairwise fun f g => Anc parent g.1 f.1 ∧ g.1 ≠ f.1
  nodup : done.Nodup
  apart : ∀ f ∈ s.stack, f.1 ∉ done
  mem : ∀ x, Visited s done x → x ∈ rpo
  clock : s.clock = 2 * done.length + s.stack.length
  down : ∀ x ∈ done, ∀ c ∈ childrenOf parent rpo x, c ∈ done
  up : ∀ c, Visited s done c → c ≠ 0 → ∀ u, parent c = some u → Visited s done u
  frames : ∀ f ∈ s.stack, ∀ c ∈ childrenOf parent rpo f.1,
    Visited s done c ↔ c ∈ (childrenOf parent rpo f.1).take f.2
  root : Visited s done 0

/-- The exact numbers: below a block on the stack lies what was met after it, below a
finished block what was met after it and finished before it. -/
structure NumberInv (parent : Nat → Option Nat) (s : TreeWalk) (done : List Nat)
    (tin tout : Nat → Nat) : Prop where
  treeIn : ∀ x, Visited s done x → s.treeIn x = toInt32 (tin x)
  treeOut : ∀ x ∈ done, s.treeOut x = toInt32 (tout x)
  tin_lt : ∀ x, Visited s done x → tin x < s.clock
  tout_lt : ∀ x ∈ done, tout x < s.clock
  unfinished : ∀ x ∈ s.stack.map Prod.fst, ∀ y, Visited s done y → (Anc parent x y ↔ tin x ≤ tin y)
  finished : ∀ x ∈ done, ∀ y, Visited s done y →
    (Anc parent x y ↔ tin x ≤ tin y ∧ y ∈ done ∧ tout y ≤ tout x)
  strict : ∀ x ∈ done, ∀ y ∈ done, Anc parent x y → x ≠ y → tout y < tout x
  last : 0 ∈ done → tout 0 + 1 = s.clock

theorem write_self (a : Int32Array) (i : Nat) (v : Int) : a.write i v i = toInt32 v :=
  update_self _ _ _

theorem write_of_ne (a : Int32Array) {i x : Nat} (v : Int) (h : x ≠ i) : a.write i v x = a x :=
  update_of_ne h _ _

/-- The walk goes down to `c`. -/
def TreeWalk.push (s : TreeWalk) (b i c : Nat) (rest : List (Nat × Nat)) : TreeWalk :=
  { s with
    treeIn := s.treeIn.write c s.clock
    clock := s.clock + 1
    stack := (c, 0) :: (b, i + 1) :: rest }

/-- The walk leaves `b`. -/
def TreeWalk.pop (s : TreeWalk) (b : Nat) (rest : List (Nat × Nat)) : TreeWalk :=
  { s with treeOut := s.treeOut.write b s.clock, clock := s.clock + 1, stack := rest }

section Step
variable {s : TreeWalk} {done : List Nat} {tin tout : Nat → Nat} {b c i x y : Nat}
  {rest : List (Nat × Nat)}

theorem visited_push (hs : s.stack = (b, i) :: rest) :
    Visited (s.push b i c rest) done x ↔ x = c ∨ Visited s done x := by
  simp only [Visited, TreeWalk.push, hs, map_cons, mem_cons]
  tauto

theorem visited_pop (hs : s.stack = (b, i) :: rest) :
    Visited (s.pop b rest) (b :: done) x ↔ Visited s done x := by
  simp only [Visited, TreeWalk.pop, hs, map_cons, mem_cons]
  tauto

namespace WalkInv
variable (T : Ranked parent 0 num) (W : WalkInv parent rpo s done)
include W

/-- The blocks on the stack are above its top. -/
theorem anc_top (hs : s.stack = (b, i) :: rest) (hx : x ∈ s.stack.map Prod.fst) :
    Anc parent x b := by
  have hchain := W.chain
  rw [hs] at hx hchain
  rcases mem_cons.mp hx with rfl | hx
  · exact Anc.refl _
  · obtain ⟨g, hg, rfl⟩ := mem_map.mp hx
    exact ((pairwise_cons.mp hchain).1 g hg).1

theorem ne_top (hs : s.stack = (b, i) :: rest) {f : Nat × Nat} (hf : f ∈ rest) : f.1 ≠ b := by
  have hchain := W.chain
  rw [hs] at hchain
  exact ((pairwise_cons.mp hchain).1 f hf).2

omit W in
theorem top_visited (hs : s.stack = (b, i) :: rest) : Visited s done b := .inr (by simp [hs])

include T

/-- Below a finished block everything is finished. -/
theorem anc_done (hparent : ∀ x, (parent x).isSome ↔ x ∈ rpo) (hx : x ∈ done) (hy : y ∈ rpo)
    (ha : Anc parent x y) : y ∈ done := by
  induction ha using Relation.ReflTransGen.head_induction_on with
  | refl => exact hx
  | @head y u hu ha ih =>
    have hud : u ∈ done := ih ((hparent u).mp (T.closed hu))
    by_cases hy0 : y = 0
    · subst hy0
      exact some.inj (T.root.symm.trans hu) ▸ hud
    · exact W.down u hud y (mem_childrenOf.mpr ⟨hy, hy0, hu⟩)

/-- Above a block that was met everything was met. -/
theorem anc_visited (hy : Visited s done y) (ha : Anc parent x y) : Visited s done x := by
  induction ha with
  | refl => exact hy
  | @tail z u _ hu ih =>
    by_cases hz : z = 0
    · subst hz
      exact some.inj (T.root.symm.trans hu) ▸ ih
    · exact W.up z ih hz u hu

/-- What was met below the top of the stack is the top or finished. -/
theorem below_top (hparent : ∀ x, (parent x).isSome ↔ x ∈ rpo) (hs : s.stack = (b, i) :: rest)
    (hy : Visited s done y) (ha : Anc parent b y) : y = b ∨ y ∈ done := by
  rcases hy with hy | hy
  · exact .inr hy
  · have hyb := W.anc_top hs hy
    refine .inl (T.eq_of_rank hyb ((hparent b).mpr (W.mem b (WalkInv.top_visited hs))) ?_)
    exact Nat.le_antisymm (T.rank_le hyb) (T.rank_le ha)

omit T in
theorem length_le : done.length + s.stack.length ≤ rpo.length := by
  have hstack : (s.stack.map Prod.fst).Nodup :=
    pairwise_map.mpr (W.chain.imp fun hfg he => hfg.2 he.symm)
  have hnodup : (done ++ s.stack.map Prod.fst).Nodup := by
    refine nodup_append.mpr ⟨W.nodup, hstack, ?_⟩
    rintro x hx y hy rfl
    obtain ⟨f, hf, rfl⟩ := mem_map.mp hy
    exact W.apart f hf hx
  have hsub : done ++ s.stack.map Prod.fst ⊆ rpo := fun x hx => W.mem x (mem_append.mp hx)
  simpa using (subperm_of_subset hnodup hsub).length_le

omit T in
/-- The next child of the top is new. -/
theorem new_child (hnodup : rpo.Nodup) (hs : s.stack = (b, i) :: rest)
    (hc : (childrenOf parent rpo b)[i]? = some c) : ¬ Visited s done c := by
  intro hv
  have htake := (W.frames (b, i) (hs ▸ mem_cons_self) c (mem_of_getElem? hc)).mp hv
  obtain ⟨hlt, hget⟩ := List.getElem?_eq_some_iff.mp hc
  obtain ⟨j, hj, hji⟩ := List.mem_take_iff_getElem.mp htake
  have := (List.Nodup.getElem_inj_iff (hnodup.filter _)).mp (hji.trans hget.symm)
  lia

theorem push (hnodup : rpo.Nodup) (hs : s.stack = (b, i) :: rest)
    (hc : (childrenOf parent rpo b)[i]? = some c) : WalkInv parent rpo (s.push b i c rest) done := by
  obtain ⟨hcr, hc0, hcb⟩ := mem_childrenOf.mp (mem_of_getElem? hc)
  have hnew := W.new_child hnodup hs hc
  have hchain := W.chain
  rw [hs] at hchain
  refine
    { chain := pairwise_cons.mpr ⟨fun g hg => ?_,
        pairwise_cons.mpr (pairwise_cons.mp hchain)⟩
      nodup := W.nodup, apart := ?_, mem := ?_, clock := ?_, down := W.down, up := ?_, frames := ?_,
      root := (visited_push hs).mpr (.inr W.root) }
  · have hg' : g.1 ∈ s.stack.map Prod.fst := by
      rw [hs]
      rcases mem_cons.mp hg with rfl | hg
      · exact mem_cons_self
      · exact mem_cons_of_mem _ (mem_map_of_mem hg)
    refine ⟨(W.anc_top hs hg').trans ((Anc.refl b).up hcb), ?_⟩
    rintro he
    exact hnew (.inr ((show g.1 = c from he) ▸ hg'))
  · intro f hf
    rcases mem_cons.mp hf with rfl | hf
    · exact fun hd => hnew (.inl hd)
    · rcases mem_cons.mp hf with rfl | hf
      · exact W.apart (b, i) (hs ▸ mem_cons_self)
      · exact W.apart f (hs ▸ mem_cons_of_mem _ hf)
  · intro x hx
    rcases (visited_push hs).mp hx with rfl | hx
    · exact hcr
    · exact W.mem x hx
  · have := W.clock
    simp only [hs, TreeWalk.push, length_cons] at this ⊢
    lia
  · intro x hx hx0 u hu
    rcases (visited_push hs).mp hx with rfl | hx
    · obtain rfl := some.inj (hcb.symm.trans hu)
      exact (visited_push hs).mpr (.inr (WalkInv.top_visited hs))
    · exact (visited_push hs).mpr (.inr (W.up x hx hx0 u hu))
  · intro f hf x hx
    rw [visited_push hs]
    obtain ⟨-, hx0, hxf⟩ := mem_childrenOf.mp hx
    rcases mem_cons.mp hf with rfl | hf
    · -- a child of the new block was not met before it
      simp only [take_zero, not_mem_nil, iff_false, not_or]
      have hxc : num c < num x := T.falls hx0 hxf
      refine ⟨?_, fun hv => hnew (W.up x hv hx0 _ hxf)⟩
      rintro rfl
      exact Nat.lt_irrefl _ hxc
    · rcases mem_cons.mp hf with rfl | hfr
      · rw [W.frames (b, i) (hs ▸ mem_cons_self) x hx, take_add_one, hc]
        simp only [toList_some, mem_append, mem_singleton]
        tauto
      · rw [← W.frames f (hs ▸ mem_cons_of_mem _ hfr) x hx, or_iff_right]
        rintro rfl
        exact W.ne_top hs hfr (some.inj (hxf.symm.trans hcb))

theorem pop (hparent : ∀ x, (parent x).isSome ↔ x ∈ rpo) (hs : s.stack = (b, i) :: rest)
    (hc : (childrenOf parent rpo b)[i]? = none) :
    WalkInv parent rpo (s.pop b rest) (b :: done) := by
  have hchain := W.chain
  rw [hs] at hchain
  refine
    { chain := (pairwise_cons.mp hchain).2
      nodup := nodup_cons.mpr ⟨W.apart (b, i) (hs ▸ mem_cons_self), W.nodup⟩
      apart := ?_
      mem := fun x hx => W.mem x ((visited_pop hs).mp hx)
      clock := ?_, down := ?_
      up := fun x hx hx0 u hu => (visited_pop hs).mpr (W.up x ((visited_pop hs).mp hx) hx0 u hu)
      frames := fun f hf x hx =>
        (visited_pop hs).trans (W.frames f (hs ▸ mem_cons_of_mem _ hf) x hx)
      root := (visited_pop hs).mpr W.root }
  · intro f hf hmem
    rcases mem_cons.mp hmem with he | hmem
    · exact W.ne_top hs hf he
    · exact W.apart f (hs ▸ mem_cons_of_mem _ hf) hmem
  · have := W.clock
    simp only [hs, TreeWalk.pop, length_cons] at this ⊢
    lia
  · intro x hx c hcx
    rcases mem_cons.mp hx with rfl | hx
    · have hframe := W.frames (x, i) (hs ▸ mem_cons_self) c hcx
      rw [take_of_length_le (getElem?_eq_none_iff.mp hc)] at hframe
      obtain ⟨-, -, hpc⟩ := mem_childrenOf.mp hcx
      exact mem_cons.mpr (W.below_top T hparent hs (hframe.mpr hcx) ((Anc.refl x).up hpc))
    · exact mem_cons_of_mem _ (W.down x hx c hcx)

end WalkInv

namespace NumberInv
variable (T : Ranked parent 0 num) (hparent : ∀ x, (parent x).isSome ↔ x ∈ rpo)
  (W : WalkInv parent rpo s done) (N : NumberInv parent s done tin tout)
include T hparent W N

theorem push (hnodup : rpo.Nodup) (hs : s.stack = (b, i) :: rest)
    (hc : (childrenOf parent rpo b)[i]? = some c) :
    NumberInv parent (s.push b i c rest) done (update tin c s.clock) tout := by
  obtain ⟨hcr, -, hcb⟩ := mem_childrenOf.mp (mem_of_getElem? hc)
  have hnew := W.new_child hnodup hs hc
  have hne : ∀ x, Visited s done x → x ≠ c := by
    rintro x hx rfl
    exact hnew hx
  have htin : ∀ x, Visited s done x → update tin c s.clock x = tin x := fun x hx =>
    update_of_ne (hne x hx) _ _
  refine
    { treeIn := ?_, treeOut := N.treeOut, tin_lt := ?_
      tout_lt := fun x hx => Nat.lt_succ_of_lt (N.tout_lt x hx)
      unfinished := ?_, finished := ?_, strict := N.strict, last := fun h0 => ?_ }
  · intro x hx
    rcases (visited_push hs).mp hx with rfl | hx
    · rw [update_self]
      exact write_self _ _ _
    · rw [htin x hx]
      exact (write_of_ne _ _ (hne x hx)).trans (N.treeIn x hx)
  · intro x hx
    rcases (visited_push hs).mp hx with rfl | hx
    · rw [update_self]
      exact Nat.lt_succ_self _
    · rw [htin x hx]
      exact Nat.lt_succ_of_lt (N.tin_lt x hx)
  · intro x hx y hy
    rcases mem_cons.mp hx with rfl | hx
    · rw [update_self]
      rcases (visited_push hs).mp hy with rfl | hy
      · simp [Anc.refl]
      · rw [htin y hy]
        refine iff_of_false (fun ha => hnew (W.anc_visited T hy ha)) ?_
        exact Nat.not_le.mpr (N.tin_lt y hy)
    · have hx' : x ∈ s.stack.map Prod.fst := by
        rw [hs]
        exact hx
      rw [htin x (.inr hx')]
      rcases (visited_push hs).mp hy with rfl | hy
      · rw [update_self]
        exact iff_of_true ((W.anc_top hs hx').trans ((Anc.refl b).up hcb))
          (Nat.le_of_lt (N.tin_lt x (.inr hx')))
      · rw [htin y hy]
        exact N.unfinished x hx' y hy
  · intro x hx y hy
    rw [htin x (.inl hx)]
    rcases (visited_push hs).mp hy with rfl | hy
    · refine iff_of_false (fun ha => hnew (.inl ?_)) fun hand => hnew (.inl hand.2.1)
      exact W.anc_done T hparent hx hcr ha
    · rw [htin y hy]
      exact N.finished x hx y hy
  · -- the root is on the stack
    have hroot : Anc parent 0 b := T.root_anc ((hparent b).mpr (W.mem b (WalkInv.top_visited hs)))
    exact absurd (W.anc_done T hparent h0 (W.mem b (WalkInv.top_visited hs)) hroot)
      (W.apart (b, i) (hs ▸ mem_cons_self))

theorem pop (hs : s.stack = (b, i) :: rest) :
    NumberInv parent (s.pop b rest) (b :: done) tin (update tout b s.clock) := by
  have hbdone : b ∉ done := W.apart (b, i) (hs ▸ mem_cons_self)
  have hbv : Visited s done b := WalkInv.top_visited hs
  have hbs : b ∈ s.stack.map Prod.fst := by simp [hs]
  have hne : ∀ x ∈ done, x ≠ b := by
    rintro x hx rfl
    exact hbdone hx
  have htout : ∀ x ∈ done, update tout b s.clock x = tout x := fun x hx =>
    update_of_ne (hne x hx) _ _
  have hnot : ∀ x ∈ done, ¬ Anc parent x b := fun x hx ha =>
    hbdone (W.anc_done T hparent hx (W.mem b hbv) ha)
  refine
    { treeIn := fun x hx => N.treeIn x ((visited_pop hs).mp hx)
      treeOut := ?_
      tin_lt := fun x hx => Nat.lt_succ_of_lt (N.tin_lt x ((visited_pop hs).mp hx))
      tout_lt := ?_
      unfinished := fun x hx y hy => N.unfinished x (by rw [hs]; exact mem_cons_of_mem _ hx) y
        ((visited_pop hs).mp hy)
      finished := ?_, strict := ?_, last := fun h0 => ?_ }
  · intro x hx
    rcases mem_cons.mp hx with rfl | hxd
    · rw [update_self]
      exact write_self _ _ _
    · rw [htout x hxd]
      exact (write_of_ne _ _ (hne x hxd)).trans (N.treeOut x hxd)
  · intro x hx
    rcases mem_cons.mp hx with rfl | hxd
    · rw [update_self]
      exact Nat.lt_succ_self _
    · rw [htout x hxd]
      exact Nat.lt_succ_of_lt (N.tout_lt x hxd)
  · intro x hx y hy
    replace hy := (visited_pop hs).mp hy
    rcases mem_cons.mp hx with rfl | hxd
    · rw [N.unfinished x hbs y hy, update_self]
      refine ⟨fun hle => ?_, fun hand => hand.1⟩
      rcases W.below_top T hparent hs hy ((N.unfinished x hbs y hy).mpr hle) with rfl | hyd
      · exact ⟨hle, mem_cons_self, by rw [update_self]⟩
      · exact ⟨hle, mem_cons_of_mem _ hyd, htout y hyd ▸ Nat.le_of_lt (N.tout_lt y hyd)⟩
    · rw [htout x hxd]
      by_cases hyb : y = b
      · subst hyb
        have := N.tout_lt x hxd
        refine iff_of_false (hnot x hxd) fun hand => ?_
        rw [update_self] at hand
        lia
      · rw [N.finished x hxd y hy, update_of_ne hyb, mem_cons, or_iff_right hyb]
  · intro x hx y hy ha hxy
    rcases mem_cons.mp hx with rfl | hxd
    · have hyd := (mem_cons.mp hy).resolve_left (Ne.symm hxy)
      rw [update_self, htout y hyd]
      exact N.tout_lt y hyd
    · rcases mem_cons.mp hy with rfl | hyd
      · exact absurd ha (hnot x hxd)
      · rw [htout x hxd, htout y hyd]
        exact N.strict x hxd y hyd ha hxy
  · rcases mem_cons.mp h0 with rfl | h0
    · rw [update_self]
      rfl
    · exact absurd (T.root_anc ((hparent b).mpr (W.mem b hbv))) (hnot 0 h0)

end NumberInv
end Step

/-- The numbers at the end, and the cells that hold them. -/
structure Numbers (parent : Nat → Option Nat) (rpo : List Nat) (s : TreeWalk)
    (tin tout : Nat → Nat) : Prop where
  treeIn : ∀ x ∈ rpo, s.treeIn x = toInt32 (tin x)
  treeOut : ∀ x ∈ rpo, s.treeOut x = toInt32 (tout x)
  tin_lt : ∀ x ∈ rpo, tin x < 2 * rpo.length
  tout_lt : ∀ x ∈ rpo, tout x < 2 * rpo.length
  anc_iff : ∀ x ∈ rpo, ∀ y ∈ rpo, (Anc parent x y ↔ tin x ≤ tin y ∧ tout y ≤ tout x)
  strict : ∀ x ∈ rpo, ∀ y ∈ rpo, Anc parent x y → x ≠ y → tout y < tout x
  last : tout 0 + 1 = 2 * rpo.length

/-- **The walk numbers the whole tree.** -/
theorem numberTree_correct (T : Ranked parent 0 num) (hparent : ∀ x, (parent x).isSome ↔ x ∈ rpo)
    (hnodup : rpo.Nodup) (fuel : Nat) (hfuel : 2 * rpo.length ≤ fuel) :
    ∃ s tin tout, numberTree fuel (childrenOf parent rpo) = some s ∧
      Numbers parent rpo s tin tout := by
  have h0 : 0 ∈ rpo := (hparent 0).mp (T.root ▸ rfl)
  have hstart : WalkInv parent rpo treeStart [] ∧
      NumberInv parent treeStart [] (fun _ => 0) (fun _ => 0) := by
    have hv : ∀ x, Visited treeStart [] x ↔ x = 0 := fun x => by simp [Visited, treeStart]
    refine ⟨⟨by simp [treeStart], nodup_nil, by simp, ?_, rfl, by simp, ?_, ?_, (hv 0).mpr rfl⟩,
      ⟨?_, by simp, fun x _ => Nat.zero_lt_one, by simp, ?_, by simp, by simp, by simp⟩⟩
    · exact fun x hx => (hv x).mp hx ▸ h0
    · exact fun x hx hx0 => absurd ((hv x).mp hx) hx0
    · intro f hf x hx
      obtain rfl : f = (0, 0) := mem_singleton.mp hf
      rw [hv]
      simpa using (mem_childrenOf.mp hx).2.1
    · intro x hx
      obtain rfl := (hv x).mp hx
      simp [treeStart, Int32Array.write]
    · intro x hx y hy
      obtain rfl : x = 0 := by simpa [treeStart] using hx
      rw [(hv y).mp hy]
      exact iff_of_true (Anc.refl 0) .refl
  obtain ⟨s, hrun, ⟨done, tin, tout, W, N⟩, hend⟩ := Loop.run_total
    (fun s : TreeWalk => !s.stack.isEmpty) (treeStep (childrenOf parent rpo))
    (fun s => ∃ done tin tout, WalkInv parent rpo s done ∧ NumberInv parent s done tin tout)
    (fun s => 2 * rpo.length - s.clock)
    (by
      rintro s ⟨done, tin, tout, W, N⟩ hc
      obtain ⟨⟨b, i⟩, rest, hs⟩ := exists_cons_of_ne_nil (l := s.stack) (by simpa using hc)
      have hlt : s.clock < 2 * rpo.length := by
        have hle := W.length_le
        have hclock := W.clock
        rw [hs, length_cons] at hle hclock
        lia
      cases hch : (childrenOf parent rpo b)[i]? with
      | some c =>
        refine ⟨s.push b i c rest, by simp [treeStep, hs, hch, TreeWalk.push],
          ⟨_, _, _, W.push T hnodup hs hch, N.push T hparent W hnodup hs hch⟩, ?_⟩
        exact Nat.sub_lt_sub_left hlt (Nat.lt_succ_self _)
      | none =>
        refine ⟨s.pop b rest, by simp [treeStep, hs, hch, TreeWalk.pop],
          ⟨_, _, _, W.pop T hparent hs hch, N.pop T hparent W hs⟩, ?_⟩
        exact Nat.sub_lt_sub_left hlt (Nat.lt_succ_self _))
    fuel treeStart ⟨_, _, _, hstart.1, hstart.2⟩ (by lia)
  have hstack : s.stack = [] := by simpa using hend
  have h0d : 0 ∈ done := W.root.resolve_right (by simp [hstack])
  have hdone : ∀ x ∈ rpo, x ∈ done := fun x hx =>
    W.anc_done T hparent h0d hx (T.root_anc ((hparent x).mpr hx))
  have hlen : done.length = rpo.length := by
    have hle := W.length_le
    have hge := (subperm_of_subset hnodup hdone).length_le
    lia
  have hclock : s.clock = 2 * rpo.length := by rw [W.clock, hstack, hlen, length_nil, Nat.add_zero]
  refine ⟨s, tin, tout, hrun, ⟨fun x hx => N.treeIn x (.inl (hdone x hx)),
    fun x hx => N.treeOut x (hdone x hx), fun x hx => hclock ▸ N.tin_lt x (.inl (hdone x hx)),
    fun x hx => hclock ▸ N.tout_lt x (hdone x hx), fun x hx y hy => ?_,
    fun x hx y hy => N.strict x (hdone x hx) y (hdone y hy), hclock ▸ N.last h0d⟩⟩
  rw [N.finished x (hdone x hx) y (.inl (hdone y hy)), and_iff_right (hdone y hy)]

/-! ### Frontiers -/

section Frontier
variable (T : Ranked parent 0 num) {b p u x a c fuel : Nat} {frontier : Nat → List Nat}

theorem mem_addFrontier : c ∈ addFrontier frontier x b a ↔ c ∈ frontier a ∨ c = b ∧ a = x := by
  unfold addFrontier
  split
  · grind
  · by_cases ha : a = x
    · subst ha
      simp
    · simp [ha]

include T

/-- **The runner** adds `b` to what lies from `p` up to the parent of `b`. -/
theorem runUp_spec (frontier : Nat → List Nat) (hb : parent b = some u)
    (hp : (parent p).isSome) (hup : Anc parent u p) (hfuel : num p ≤ fuel) :
    ∃ frontier', runUp fuel (cellsOf parent) b frontier p = some frontier' ∧
      ∀ a c, c ∈ frontier' a ↔ c ∈ frontier a ∨ c = b ∧ Anc parent a p ∧ ¬ Anc parent a u := by
  obtain ⟨⟨runner, fr⟩, hrun, ⟨x, rfl, hxp, hux, hmem⟩, hend⟩ := Loop.run_total
    (fun s : Int × (Nat → List Nat) => decide (s.1 ≠ cellsOf parent b))
    (fun s =>
      if s.1 < 0 then none
      else some (cellsOf parent s.1.toNat, addFrontier s.2 s.1.toNat b))
    (fun s => ∃ x : Nat, s.1 = x ∧ Anc parent x p ∧ Anc parent u x ∧
      ∀ a c, c ∈ s.2 a ↔ c ∈ frontier a ∨ c = b ∧ Anc parent a p ∧ ¬ Anc parent a x)
    (fun s => num s.1.toNat)
    (by
      rintro ⟨_, fr⟩ ⟨x, rfl, hxp, hux, hmem⟩ hc
      have hxu : x ≠ u := by
        rintro rfl
        simp [cellsOf_some hb] at hc
      have hx0 : x ≠ 0 := by
        rintro rfl
        exact hxu (T.eq_root_of_anc hux).symm
      obtain ⟨y, hy⟩ := isSome_iff_exists.mp (T.isSome hxp hp)
      have hlt := T.falls hx0 hy
      refine ⟨((y : Int), addFrontier fr x b), ?_, ⟨y, rfl, ((Anc.refl y).up hy).trans hxp,
        hux.of_ne hy (Ne.symm hxu), fun a c => ?_⟩, by simpa using hlt⟩
      · simp only [Int.toNat_natCast, cellsOf_some hy]
        exact if_neg (by lia)
      · have hnot : ¬ Anc parent x y := fun hxy => by
          have := T.rank_le hxy
          lia
        rw [mem_addFrontier, hmem]
        by_cases hax : a = x
        · subst hax
          simp [hxp, hnot, Anc.refl]
        · have hiff : Anc parent a x ↔ Anc parent a y := ⟨fun ha => ha.of_ne hy hax, fun ha => ha.up hy⟩
          simp [hax, hiff])
    fuel ((p : Int), frontier)
    ⟨p, rfl, Anc.refl p, hup, fun a c => by tauto⟩ (by simpa using hfuel)
  obtain rfl : x = u := Int.natCast_inj.mp (by simpa [cellsOf_some hb] using hend)
  exact ⟨fr, by rw [runUp, hrun]; rfl, hmem⟩

theorem frontiers_foldl (fuel : Nat) (preds : Nat → List Nat) (l : List Nat)
    (hparent : ∀ b ∈ l, ∀ p ∈ preds b, ∀ u, parent b = some u →
      (parent p).isSome ∧ Anc parent u p ∧ num p ≤ fuel)
    (hl : ∀ b ∈ l, (parent b).isSome) :
    ∃ frontier, l.foldlM
        (fun frontier b => (preds b).foldlM (runUp fuel (cellsOf parent) b) frontier)
        (fun _ => []) = some frontier ∧
      ∀ a c, c ∈ frontier a ↔ c ∈ l ∧ ∃ p ∈ preds c, Anc parent a p ∧
        ∀ u, parent c = some u → ¬ Anc parent a u := by
  refine Loop.forEach_total (fun done (frontier : Nat → List Nat) => ∀ a c, c ∈ frontier a ↔ c ∈ done ∧
    ∃ p ∈ preds c, Anc parent a p ∧ ∀ u, parent c = some u → ¬ Anc parent a u) l (by simp) ?_
  intro done b rest frontier hlb hfr
  have hbl : b ∈ l := hlb ▸ by simp
  obtain ⟨u, hu⟩ := isSome_iff_exists.mp (hl b hbl)
  obtain ⟨frontier', hrun, hmem⟩ := Loop.forEach_total
    (f := runUp fuel (cellsOf parent) b)
    (fun ps fr => ∀ a c, c ∈ fr a ↔ c ∈ frontier a ∨
      c = b ∧ ∃ p ∈ ps, Anc parent a p ∧ ¬ Anc parent a u) (preds b) (s := frontier)
    (by simp) (by
      intro ps p rest' fr hps hfr'
      obtain ⟨hpp, hup, hple⟩ := hparent b hbl p (hps ▸ by simp) u hu
      obtain ⟨fr', hrun', hmem'⟩ := runUp_spec T fr hu hpp hup hple
      refine ⟨fr', hrun', fun a c => ?_⟩
      rw [hmem', hfr']
      simp only [mem_append, mem_singleton]
      grind)
  refine ⟨frontier', hrun, fun a c => ?_⟩
  rw [hmem, hfr, mem_append, mem_singleton]
  by_cases hcb : c = b
  · subst hcb
    simp only [hu, some.injEq, forall_eq', true_and, or_true]
    tauto
  · simp [hcb]

end Frontier

/-- **The frontiers are the dominance frontiers.** -/
theorem frontiers_correct {preds : Nat → List Nat} (S : Setup fn rpo preds)
    (D : DomTree fn num parent) (fuel : Nat)
    (hfuel : ∀ b, Reachable fn.Edge 0 b → num b ≤ fuel) :
    ∃ frontier, frontiers fuel (cellsOf parent) preds rpo = some frontier ∧
      ∀ a c, c ∈ frontier a ↔ InFrontier fn.Edge 0 a c := by
  have hsome : ∀ {x}, Reachable fn.Edge 0 x → (parent x).isSome := fun hx => (D.isSome_iff _).mpr hx
  obtain ⟨frontier, hrun, hmem⟩ := frontiers_foldl D.tree fuel preds rpo
    (by
      intro b hb p hp u hu
      have hpp := (S.preds b p).mp hp
      have hrb := (S.order.mem b).mp hb
      refine ⟨hsome hpp.1, ?_, hfuel p hpp.1⟩
      by_cases hb0 : b = 0
      · subst hb0
        obtain rfl := some.inj (D.tree.root.symm.trans hu)
        exact D.tree.root_anc (hsome hpp.1)
      · obtain ⟨hne, hdom⟩ := (strictlyDominates_iff D.tree D.anc_iff hrb hb0 hu).mpr (Anc.refl u)
        exact (D.anc_iff hpp.1).mpr (hdom.pred hne hpp.1 hpp.2))
    (fun b hb => hsome ((S.order.mem b).mp hb))
  -- membership for blocks other than the entry
  have hother : ∀ a c, c ≠ 0 → (c ∈ frontier a ↔ InFrontier fn.Edge 0 a c) := by
    intro a c hc
    rw [hmem]
    constructor
    · rintro ⟨hcr, p, hp, hap, hnot⟩
      have hrc := (S.order.mem c).mp hcr
      obtain ⟨u, hu⟩ := isSome_iff_exists.mp (hsome hrc)
      exact (inFrontier_iff D.tree D.anc_iff hrc hc hu).mpr
        ⟨p, (S.preds c p).mp hp, hap, hnot u hu⟩
    · intro hfr
      have hrc : Reachable fn.Edge 0 c := by
        obtain ⟨⟨p, he, hp⟩, -⟩ := hfr
        exact hp.1.step he
      obtain ⟨u, hu⟩ := isSome_iff_exists.mp (hsome hrc)
      obtain ⟨p, hp, hap, hnot⟩ := (inFrontier_iff D.tree D.anc_iff hrc hc hu).mp hfr
      refine ⟨(S.order.mem c).mpr hrc, p, (S.preds c p).mpr hp, hap, fun u' hu' => ?_⟩
      exact some.inj (hu.symm.trans hu') ▸ hnot
  -- the entry joins its own frontier when it has a predecessor
  have hroot : ∀ a, InFrontier fn.Edge 0 a 0 ↔ ∃ p ∈ preds 0, Anc parent a p := by
    intro a
    rw [inFrontier_root_iff D.anc_iff]
    simp only [S.preds]
  have hmem0 : ∀ a, 0 ∈ frontier a ↔ (∃ p ∈ preds 0, Anc parent a p) ∧ a ≠ 0 := by
    intro a
    have hau : Anc parent a 0 ↔ a = 0 := ⟨D.tree.eq_root_of_anc, by
      rintro rfl
      exact Anc.refl 0⟩
    rw [hmem]
    simp only [S.order.root_mem, true_and, D.tree.root, some.injEq, forall_eq', hau]
    tauto
  unfold frontiers
  rw [hrun]
  simp only [bind_eq_bind, bind_some]
  by_cases hp0 : preds 0 = []
  · refine ⟨frontier, by rw [if_neg (not_not.mpr hp0)], fun a c => ?_⟩
    by_cases hc : c = 0
    · subst hc
      rw [hroot, hmem0, hp0]
      simp
    · exact hother a c hc
  · refine ⟨_, if_pos hp0, fun a c => ?_⟩
    by_cases ha : a = 0
    · subst ha
      rw [update_self, mem_append, mem_singleton]
      by_cases hc : c = 0
      · subst hc
        obtain ⟨p, hp⟩ := exists_mem_of_ne_nil _ hp0
        refine iff_of_true (.inr rfl) ((hroot 0).mpr ⟨p, hp, ?_⟩)
        exact D.tree.root_anc (hsome ((S.preds 0 p).mp hp).1)
      · rw [or_iff_left hc]
        exact hother 0 c hc
    · rw [update_of_ne ha]
      by_cases hc : c = 0
      · subst hc
        rw [hroot, hmem0, and_iff_left ha]
      · exact hother a c hc

end Js2Wasm.Cfg
