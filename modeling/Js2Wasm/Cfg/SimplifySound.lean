import Mathlib.Algebra.GroupWithZero.Nat
import Mathlib.Algebra.Order.Group.Nat
import Mathlib.Algebra.Order.BigOperators.Group.List
import Mathlib.Data.List.Nodup
import Js2Wasm.Cfg.Runs
import Js2Wasm.Cfg.Simplify
import Js2Wasm.Lib.Dominators

/-! # Merging keeps the function

`merged` is the function `mergeAt` builds, without the errors.  `place` maps the
configurations of the function to those of the merged one: a place in the absorbed block
is the same place further down in the block that absorbs it.  The jump between the two
is the one step that disappears.
-/
namespace Js2Wasm.Cfg
open Dominators List

variable {Instr Ty V Mem X : Type} {fn : IrFunction Instr Ty}

/-! ### Edges -/

/-- All edges, with repetitions. -/
def edges (fn : IrFunction Instr Ty) : List Int := fn.blocks.flatMap rawTargets

variable {b i j k t n : Nat} {target source block : IrBlock Instr Ty} {α : Type}

theorem mem_blockSuccessors {s : Int} : s ∈ blockSuccessors block ↔ s ∈ rawTargets block := by
  unfold blockSuccessors rawTargets
  cases block.terminator with
  | ret values site => rfl
  | br branch site => rfl
  | unreachable site => rfl
  | brIf condition ifTrue ifFalse site =>
    dsimp only
    split
    · rename_i h
      simp [h]
    · rfl

theorem toInt32_add_one (x : Int) : toInt32 (toInt32 x + 1) = toInt32 (x + 1) := by
  simp only [toInt32, Int.bmod_add_bmod]

theorem countTarget_foldl (fn : IrFunction Instr Ty) (ts : List Int) (count : Int32Array)
    (hb : b < fn.blocks.length) (hk : count b = toInt32 k) :
    ts.foldl (countTarget fn) count b = toInt32 ((k + ts.count (b : Int) : Nat) : Int) := by
  induction ts generalizing count k with
  | nil => simpa using hk
  | cons t ts ih =>
    rw [foldl_cons]
    by_cases ht : t = b
    · subst ht
      have hr : fn.InRange (b : Int) := ⟨Int.natCast_nonneg b, Int.ofNat_lt.mpr hb⟩
      rw [ih (k := k + 1), count_cons_self]
      · congr 2
        lia
      · rw [countTarget, if_pos hr, Int32Array.write, Int.toNat_natCast, Function.update_self, hk,
          toInt32_add_one]
        rfl
    · rw [ih (k := k), count_cons_of_ne (fun h => ht h)]
      unfold countTarget
      split
      · rename_i hr
        have hne : b ≠ t.toNat := fun he => ht (by rw [he, Int.toNat_of_nonneg hr.1])
        rw [Int32Array.write, Function.update_of_ne hne, hk]
      · exact hk

/-- **The counts, up to 32 bits.** -/
theorem rawPredecessorCounts_apply (hb : b < fn.blocks.length) :
    rawPredecessorCounts fn b = toInt32 ((edges fn).count (b : Int) : Nat) := by
  have h := countTarget_foldl fn (edges fn) (.fill 0) hb (k := 0) rfl
  rw [edges, foldl_flatMap] at h
  rw [rawPredecessorCounts, h, Nat.zero_add, edges]

theorem sum_count_le (es : List Int) (vs : List Int) (hvs : vs.Nodup) :
    (vs.map (es.count ·)).sum ≤ es.length := by
  induction es with
  | nil => simp
  | cons e es ih =>
    have hone : (vs.map fun v => if e == v then 1 else 0).sum ≤ 1 := by
      clear ih
      induction vs with
      | nil => simp
      | cons v vs ihv =>
        obtain ⟨hv, hvs⟩ := nodup_cons.mp hvs
        rw [map_cons, sum_cons]
        by_cases he : e = v
        · subst he
          have hzero : (vs.map fun v => if e == v then 1 else 0).sum = 0 := by
            refine sum_eq_zero fun x hx => ?_
            obtain ⟨w, hw, rfl⟩ := mem_map.mp hx
            have hne : e ≠ w := fun h => hv (h ▸ hw)
            simp [hne]
          rw [hzero, if_pos (beq_self_eq_true e)]
        · simpa [he] using ihv hvs
    simp only [count_cons, length_cons]
    rw [sum_map_add]
    lia

theorem two_le_sum {f : α → Nat} (l : List α) {a b : α} (hij : i ≠ j) (ha : l[i]? = some a)
    (hb : l[j]? = some b) (hfa : 1 ≤ f a) (hfb : 1 ≤ f b) : 2 ≤ (l.map f).sum := by
  have hone : ∀ {l : List α} {k : Nat} {c : α}, l[k]? = some c → 1 ≤ f c → 1 ≤ (l.map f).sum :=
    fun hc hfc => hfc.trans (le_sum_of_mem (mem_map_of_mem (mem_of_getElem? hc)))
  induction l generalizing i j with
  | nil => cases ha
  | cons c l ih =>
    rw [map_cons, sum_cons]
    cases i with
    | zero =>
      obtain ⟨j, rfl⟩ := Nat.exists_eq_succ_of_ne_zero (Ne.symm hij)
      have := hone (l := l) hb hfb
      obtain rfl : c = a := Option.some.inj ha
      lia
    | succ i =>
      cases j with
      | zero =>
        have := hone (l := l) ha hfa
        obtain rfl : c = b := Option.some.inj hb
        lia
      | succ j =>
        have := ih (fun h => hij (congrArg _ h)) ha hb
        lia

theorem rawTargets_length_le (block : IrBlock Instr Ty) : (rawTargets block).length ≤ 2 := by
  unfold rawTargets
  split <;> simp

theorem edges_length_le (blocks : List (IrBlock Instr Ty)) :
    (blocks.flatMap rawTargets).length ≤ 2 * blocks.length := by
  induction blocks with
  | nil => simp
  | cons b blocks ih =>
    have := rawTargets_length_le b
    rw [flatMap_cons, length_append, length_cons]
    lia

/-! ### The shape of a function the pass is given -/

/-- What the pass is promised: ids are indices, every block is reachable, every target is a
block. -/
structure IrFunction.Prepared (fn : IrFunction Instr Ty) : Prop where
  ids : fn.Contiguous
  reachable : ∀ b < fn.blocks.length, Reachable fn.Edge 0 b
  inRange : ∀ block ∈ fn.blocks, ∀ s ∈ rawTargets block, fn.InRange s

theorem mem_edges_of_reachable (hb : b ≠ 0) (h : Reachable fn.Edge 0 b) : (b : Int) ∈ edges fn := by
  obtain ⟨l, hl⟩ := h
  cases hl with
  | root => exact absurd rfl hb
  | @step u v l hl he =>
    have hu := he.lt
    have hmem := he.1
    rw [IrFunction.succs, getElem?_eq_getElem hu] at hmem
    exact mem_flatMap.mpr ⟨_, getElem_mem hu, mem_blockSuccessors.mp hmem⟩

/-- A block that some block branches to without a condition has at most as many incoming
edges as there are blocks, and one: all others but the entry need an edge too. -/
theorem count_le (H : fn.Prepared) (hi : fn.blocks[i]? = some source)
    (hone : (rawTargets source).length = 1) (ht : t < fn.blocks.length) (ht0 : t ≠ 0) :
    (edges fn).count (t : Int) ≤ fn.blocks.length + 1 := by
  -- edges: two for each block, one for the source
  have hlen : (edges fn).length + 1 ≤ 2 * fn.blocks.length := by
    obtain ⟨hlt, hget⟩ := List.getElem?_eq_some_iff.mp hi
    obtain ⟨pre, post, hsplit⟩ := List.append_of_mem (hget ▸ List.getElem_mem hlt)
    have h1 := edges_length_le pre
    have h2 := edges_length_le post
    rw [edges, hsplit]
    simp only [flatMap_append, flatMap_cons, length_append, length_cons]
    lia
  -- the other blocks
  have hsum := sum_count_le (edges fn)
    ((t : Int) :: (((range fn.blocks.length).erase 0).erase t).map (↑))
    (by
      rw [nodup_cons]
      refine ⟨?_, ((nodup_range.erase 0).erase t).map fun _ _ h => Int.ofNat.inj h⟩
      simp only [mem_map, not_exists, not_and]
      intro x hx he
      have hxt : x = t := by lia
      exact (nodup_range.erase 0).not_mem_erase (hxt ▸ hx))
  have hrest : (((range fn.blocks.length).erase 0).erase t).length ≤
      ((((range fn.blocks.length).erase 0).erase t).map (↑) |>.map
        ((edges fn).count ·)).sum := by
    have hall : ∀ x ∈ (((range fn.blocks.length).erase 0).erase t), 1 ≤ (edges fn).count (x : Int) := by
      intro x hx
      have hx' := mem_of_mem_erase hx
      obtain ⟨hx0, hxr⟩ := (nodup_range.mem_erase_iff).mp hx'
      exact count_pos_iff.mpr (mem_edges_of_reachable hx0 (H.reachable x (mem_range.mp hxr)))
    rw [map_map]
    generalize ((range fn.blocks.length).erase 0).erase t = l at hall
    induction l with
    | nil => simp
    | cons x l ih =>
      have hx := hall x mem_cons_self
      have hl := ih fun y hy => hall y (mem_cons_of_mem _ hy)
      simp only [length_cons, map_cons, sum_cons, Function.comp_apply]
      lia
  have hcard : (((range fn.blocks.length).erase 0).erase t).length = fn.blocks.length - 2 := by
    rw [length_erase_of_mem, length_erase_of_mem, length_range]
    · lia
    · exact mem_range.mpr (by lia)
    · exact (nodup_range.mem_erase_iff).mpr ⟨ht0, mem_range.mpr ht⟩
  rw [map_cons, sum_cons] at hsum
  lia

/-! ### An eligible merge -/

/-- Block `i` ends with a branch without arguments to the argument-free block `t`, and
nothing else branches to `t`. -/
structure Merge (fn : IrFunction Instr Ty) (i : Nat) (source : IrBlock Instr Ty) (t : Nat)
    (target : IrBlock Instr Ty) : Prop where
  atSource : fn.blocks[i]? = some source
  atTarget : fn.blocks[t]? = some target
  branch : ∃ site, source.terminator = .br ⟨t, []⟩ site
  ne : t ≠ i
  entry : t ≠ 0
  args : target.blockArgs = []
  once : (edges fn).count (t : Int) = 1

/-- What the pass checks. -/
theorem mergeTarget_eq_some {count : Int32Array}
    (h : mergeTarget fn count i block = some (t, target)) :
    (∃ site, block.terminator = .br ⟨t, []⟩ site) ∧ t ≠ i ∧ t ≠ 0 ∧ count t = 1 ∧
      fn.blocks[t]? = some target ∧ target.blockArgs = [] := by
  unfold mergeTarget at h
  split at h
  · rename_i branch site hterm
    obtain ⟨tgt, args⟩ := branch
    dsimp only at h
    split at h
    · cases h
    rename_i h1
    split at h
    · cases h
    rename_i h2
    split at h
    · cases h
    rename_i h3
    split at h
    · cases h
    rename_i block' hblock
    split at h
    · cases h
    rename_i h4
    split at h
    · cases h
    rename_i h5
    simp only [Option.some.injEq, Prod.mk.injEq] at h
    obtain ⟨rfl, rfl⟩ := h
    simp only [Int32Array.read, ne_eq, not_not, Option.ite_none_right_eq_some,
      Option.some.injEq] at h3
    obtain ⟨h0, hcount⟩ := h3
    have hnat : ((tgt.toNat : Nat) : Int) = tgt := Int.toNat_of_nonneg h0
    have hargs : args = [] := length_eq_zero_iff.mp (Nat.eq_zero_of_not_pos h5)
    subst hargs
    refine ⟨⟨site, by rw [hnat, hterm]⟩, fun he => h1 (by lia), fun he => h2 (by lia), hcount,
      hblock, length_eq_zero_iff.mp (Nat.eq_zero_of_not_pos h4)⟩
  · cases h

/-- The checks are complete. -/
theorem mergeTarget_isSome (count : Int32Array) {site : Option IrSiteId}
    (hterm : block.terminator = .br ⟨t, []⟩ site) (hti : t ≠ i) (ht0 : t ≠ 0) (hcount : count t = 1)
    (htarget : fn.blocks[t]? = some target) (hargs : target.blockArgs = []) :
    (mergeTarget fn count i block).isSome := by
  have h1 : ¬ (t : Int) = i := by lia
  have h3 : count.read (t : Int) = some 1 := by simp [Int32Array.read, hcount]
  simp [mergeTarget, hterm, h1, ht0, h3, htarget, hargs]

theorem toInt32_eq_one (hk : k ≤ 2 ^ 32) (h : toInt32 k = 1) : k = 1 := by
  rw [toInt32, Int.bmod_def] at h
  split at h <;> lia

/-- **The merge found is a merge.** -/
theorem findMerge_some (H : fn.Prepared) (hlen : fn.blocks.length < 2 ^ 32)
    (h : findMerge fn = some ((i, source), (t, target))) : Merge fn i source t target := by
  obtain ⟨⟨block, j⟩, hmem, hsome⟩ := exists_of_findSome?_eq_some h
  simp only [Option.map_eq_some_iff, Prod.mk.injEq] at hsome
  obtain ⟨⟨t', target'⟩, hmerge, ⟨rfl, rfl⟩, ht⟩ := hsome
  obtain ⟨rfl, rfl⟩ := ht
  obtain ⟨⟨site, hterm⟩, hti, ht0, hcount, htarget, hargs⟩ := mergeTarget_eq_some hmerge
  have hsource : fn.blocks[j]? = some block := by
    simpa using mem_zipIdx_iff_getElem?.mp hmem
  have ht : t < fn.blocks.length := (List.getElem?_eq_some_iff.mp htarget).1
  refine ⟨hsource, htarget, ⟨site, hterm⟩, hti, ht0, hargs, ?_⟩
  rw [rawPredecessorCounts_apply ht] at hcount
  have hle := count_le H hsource (by simp [rawTargets, hterm]) ht ht0
  exact toInt32_eq_one (by lia) hcount

/-- No block is left that the rule applies to. -/
def NoMergeLeft (fn : IrFunction Instr Ty) : Prop :=
  ∀ i source t target, ¬ Merge fn i source t target

theorem findMerge_none (h : findMerge fn = none) : NoMergeLeft fn := by
  intro i source t target M
  obtain ⟨site, hterm⟩ := M.branch
  have hall := findSome?_eq_none_iff.mp h (source, i)
    (mem_zipIdx_iff_getElem?.mpr (by simpa using M.atSource))
  have hsome := mergeTarget_isSome (rawPredecessorCounts fn) hterm M.ne M.entry
    (by
      rw [rawPredecessorCounts_apply (List.getElem?_eq_some_iff.mp M.atTarget).1, M.once]
      decide)
    M.atTarget M.args
  simp only [Option.map_eq_none_iff] at hall
  rw [hall] at hsome
  cases hsome

/-! ### The merged function -/

/-- New index of an old block; the absorbed block shares that of the next one, which is not
used. -/
def renumber (t j : Nat) : Nat := if j < t then j else j - 1

def renumberBranch (t : Nat) (br : IrBranch) : IrBranch := ⟨renumber t br.target.toNat, br.args⟩

def renumberTerminator (t : Nat) : IrTerminator → IrTerminator
  | .ret values site => .ret values site
  | .unreachable site => .unreachable site
  | .br branch site => .br (renumberBranch t branch) site
  | .brIf condition ifTrue ifFalse site =>
    .brIf condition (renumberBranch t ifTrue) (renumberBranch t ifFalse) site

/-- What becomes of block `j`. -/
def mergedBlock (i t : Nat) (target : IrBlock Instr Ty) (block : IrBlock Instr Ty) (j : Nat) :
    IrBlock Instr Ty :=
  { block with
    id := renumber t j
    instrs := if j = i then block.instrs ++ target.instrs else block.instrs
    terminator :=
      renumberTerminator t (if j = i then target.terminator else block.terminator) }

def merged (fn : IrFunction Instr Ty) (i t : Nat) (target : IrBlock Instr Ty) :
    IrFunction Instr Ty :=
  { fn with
    blocks := (fn.blocks.zipIdx.filter (·.2 ≠ t)).map fun bj => mergedBlock i t target bj.1 bj.2 }

theorem lookup_renumbering (hj : j < n) (hjt : j ≠ t) :
    (renumbering n t).lookup j = some (renumber t j) := by
  suffices ∀ m s k, s ≤ j → j < s + m →
      (((List.range' s m).filter (· ≠ t)).zipIdx k).lookup j =
        some (k + (j - s) - if s ≤ t ∧ t < j then 1 else 0) by
    rw [renumbering, range_eq_range', this n 0 0 (Nat.zero_le _) (by lia), renumber]
    refine congrArg some ?_
    split_ifs <;> lia
  intro m
  induction m with
  | zero =>
    intro s k h1 h2
    lia
  | succ m ih =>
    intro s k h1 h2
    rw [range'_succ]
    by_cases hs : s = t
    · rw [filter_cons_of_neg (by simp [hs]), ih (s + 1) k (by lia) (by lia)]
      refine congrArg some ?_
      split_ifs <;> lia
    · rw [filter_cons_of_pos (by simpa using hs), zipIdx_cons, lookup_cons]
      by_cases hjs : j = s
      · subst hjs
        rw [beq_self_eq_true]
        refine congrArg some ?_
        split_ifs <;> lia
      · rw [beq_eq_false_iff_ne.mpr hjs, ih (s + 1) (k + 1) (by lia) (by lia)]
        refine congrArg some ?_
        split_ifs <;> lia

theorem filter_zipIdx (l : List α) (k t : Nat) :
    (l.zipIdx k).filter (·.2 ≠ k + t) = (l.zipIdx k).eraseIdx t := by
  induction l generalizing k t with
  | nil => simp
  | cons a l ih =>
    rw [zipIdx_cons]
    cases t with
    | zero =>
      rw [filter_cons_of_neg (by simp), eraseIdx_cons_zero, filter_eq_self]
      intro x hx
      have := (mem_zipIdx hx).1
      simp only [Nat.add_zero, decide_eq_true_eq]
      lia
    | succ t =>
      rw [filter_cons_of_pos (by simp), eraseIdx_cons_succ, ← ih (k + 1) t]
      congr 2
      funext x
      rw [Nat.add_right_comm, Nat.add_assoc]

/-- The blocks of the merged function. -/
theorem merged_block (fn : IrFunction Instr Ty) (i : Nat) (target : IrBlock Instr Ty) (hjt : j ≠ t) :
    (merged fn i t target).blocks[renumber t j]? =
      (fn.blocks[j]?).map fun block => mergedBlock i t target block j := by
  have herase : fn.blocks.zipIdx.filter (·.2 ≠ t) = fn.blocks.zipIdx.eraseIdx t := by
    simpa using filter_zipIdx fn.blocks 0 t
  simp only [merged, herase, getElem?_map, getElem?_eraseIdx, renumber]
  by_cases hj : j < t
  · simp [hj, getElem?_zipIdx, Function.comp_def]
  · have h1 : ¬ j - 1 < t := by lia
    have h2 : j - 1 + 1 = j := by lia
    simp [hj, h1, h2, getElem?_zipIdx, Function.comp_def]

theorem merged_length (i : Nat) (target : IrBlock Instr Ty) (ht : t < fn.blocks.length) :
    (merged fn i t target).blocks.length + 1 = fn.blocks.length := by
  have herase : fn.blocks.zipIdx.filter (·.2 ≠ t) = fn.blocks.zipIdx.eraseIdx t := by
    simpa using filter_zipIdx fn.blocks 0 t
  rw [merged, length_map, herase, length_eraseIdx_of_lt (by simpa using ht),
    length_zipIdx]
  lia

/-- Where an old block is in the merged function. -/
def placeBlock (i t b : Nat) : Nat := renumber t (if b = t then i else b)

/-- Where an old configuration is. -/
def place (i t : Nat) (target : IrBlock Instr Ty) : Config Instr V Mem X → Config Instr V Mem X
  | .at b rest store =>
    .at (placeBlock i t b) (if b = i then rest ++ target.instrs else rest) store
  | .done outcome => .done outcome

theorem renumber_lt (hj : j < n) (hjt : j ≠ t) (ht : t < n) : renumber t j + 1 < n := by
  unfold renumber
  split <;> lia

theorem exists_renumber {j' : Nat} (t : Nat) (hj' : j' + 1 < n) :
    ∃ j < n, j ≠ t ∧ renumber t j = j' := by
  by_cases h : j' < t
  · exact ⟨j', by lia, by lia, if_pos h⟩
  · exact ⟨j' + 1, hj', by lia, if_neg (by lia)⟩

theorem rawTargets_mergedBlock :
    rawTargets (mergedBlock i t target block j) =
      (rawTargets (if j = i then target else block)).map fun s => ((renumber t s.toNat : Nat) : Int) := by
  have hterm : ∀ b : IrBlock Instr Ty, b.terminator =
      renumberTerminator t (if j = i then target else block).terminator →
      rawTargets b = (rawTargets (if j = i then target else block)).map fun s =>
        ((renumber t s.toNat : Nat) : Int) := by
    intro b hb
    unfold rawTargets
    rw [hb]
    cases (if j = i then target else block).terminator <;> rfl
  refine hterm _ ?_
  simp only [mergedBlock]
  split <;> rfl

section Merged
variable {i t : Nat} {source target : IrBlock Instr Ty} (H : fn.Prepared)
  (M : Merge fn i source t target)

/-- Targets that survive: blocks other than the absorbed one. -/
def Kept (fn : IrFunction Instr Ty) (t : Nat) (s : Int) : Prop := fn.InRange s ∧ s ≠ t

theorem rewriteBranch_ok {br : IrBranch} (h : Kept fn t br.target) :
    rewriteBranch br (renumbering fn.blocks.length t) fn.name = .ok (renumberBranch t br) := by
  obtain ⟨⟨h0, hlt⟩, hne⟩ := h
  have hlook := lookup_renumbering (n := fn.blocks.length) (t := t) (j := br.target.toNat)
    (by lia) (by lia)
  simp only [rewriteBranch, if_pos h0, hlook]
  rfl

theorem rewriteTerminatorTargets_ok (h : ∀ s ∈ rawTargets block, Kept fn t s) :
    rewriteTerminatorTargets block.terminator (renumbering fn.blocks.length t) fn.name =
      .ok (renumberTerminator t block.terminator) := by
  unfold rawTargets at h
  cases hterm : block.terminator with
  | ret values site => rfl
  | unreachable site => rfl
  | br branch site =>
    rw [hterm] at h
    rw [rewriteTerminatorTargets, rewriteBranch_ok (h branch.target (by simp))]
    rfl
  | brIf condition ifTrue ifFalse site =>
    rw [hterm] at h
    rw [rewriteTerminatorTargets, rewriteBranch_ok (h ifTrue.target (by simp)),
      rewriteBranch_ok (h ifFalse.target (by simp))]
    rfl

namespace Merge
include M

theorem lt : t < fn.blocks.length := (List.getElem?_eq_some_iff.mp M.atTarget).1

theorem source_targets : rawTargets source = [(t : Int)] := by
  obtain ⟨site, hterm⟩ := M.branch
  simp [rawTargets, hterm]

variable {block : IrBlock Instr Ty} {j : Nat}

/-- Only the source branches to the target. -/
theorem not_mem (hj : fn.blocks[j]? = some block) (hne : j ≠ i) : (t : Int) ∉ rawTargets block := by
  intro hmem
  have htwo := two_le_sum (f := fun b => (rawTargets b).count (t : Int)) fn.blocks hne hj
    M.atSource (count_pos_iff.mpr hmem) (by simp [M.source_targets])
  have hcount := M.once
  rw [edges, count_flatMap] at hcount
  simp only [Function.comp_def] at hcount
  lia

/-- The targets of the blocks that stay. -/
theorem kept (H : fn.Prepared) (hj : fn.blocks[j]? = some block) (hne : j ≠ i) :
    ∀ s ∈ rawTargets block, Kept fn t s := by
  intro s hs
  refine ⟨H.inRange block (mem_of_getElem? hj) s hs, ?_⟩
  rintro rfl
  exact M.not_mem hj hne hs

/-- **`mergeAt` throws nothing.** -/
theorem mergeAt_ok (H : fn.Prepared) :
    mergeAt fn i source t target = .ok (merged fn i t target) := by
  have hmap : (fn.blocks.zipIdx.filter (·.2 ≠ t)).mapM (fun bj =>
      renumberBlock (renumbering fn.blocks.length t) fn.name
        (if bj.2 = i then
          { id := source.id, blockArgs := source.blockArgs, blockArgTypes := source.blockArgTypes,
            instrs := source.instrs ++ target.instrs, terminator := target.terminator }
        else bj.1) (((renumbering fn.blocks.length t).lookup bj.2).getD 0)) =
      Except.ok ((fn.blocks.zipIdx.filter (·.2 ≠ t)).map fun bj =>
        mergedBlock i t target bj.1 bj.2) := by
    have hall : ∀ bj ∈ fn.blocks.zipIdx.filter (·.2 ≠ t),
        renumberBlock (renumbering fn.blocks.length t) fn.name
          (if bj.2 = i then
            { id := source.id, blockArgs := source.blockArgs, blockArgTypes := source.blockArgTypes,
              instrs := source.instrs ++ target.instrs, terminator := target.terminator }
          else bj.1) (((renumbering fn.blocks.length t).lookup bj.2).getD 0) =
        Except.ok (mergedBlock i t target bj.1 bj.2) := by
      rintro ⟨block, j⟩ hbj
      obtain ⟨hmem, hjt⟩ := mem_filter.mp hbj
      have hj : fn.blocks[j]? = some block := by simpa using mem_zipIdx_iff_getElem?.mp hmem
      have hjt' : j ≠ t := by simpa using hjt
      rw [lookup_renumbering (List.getElem?_eq_some_iff.mp hj).1 hjt', Option.getD_some]
      by_cases hji : j = i
      · subst hji
        obtain rfl := Option.some.inj (hj.symm.trans M.atSource)
        rw [if_pos rfl, renumberBlock, rewriteTerminatorTargets_ok (M.kept H M.atTarget M.ne)]
        simp [mergedBlock, Except.bind, bind]
      · rw [if_neg hji, renumberBlock, rewriteTerminatorTargets_ok (M.kept H hj hji)]
        simp [mergedBlock, hji, Except.bind, bind]
    generalize fn.blocks.zipIdx.filter (·.2 ≠ t) = l at hall
    induction l with
    | nil => rfl
    | cons bj l ih =>
      rw [mapM_cons, hall bj mem_cons_self, ih fun x hx => hall x (mem_cons_of_mem _ hx)]
      rfl
  rw [mergeAt]
  simp only [hmap]
  rfl

/-- Every block of the merged function comes from one that stays. -/
theorem exists_old {j' : Nat} (hj' : j' < (merged fn i t target).blocks.length) :
    ∃ j block, fn.blocks[j]? = some block ∧ j ≠ t ∧ j' = renumber t j ∧
      (merged fn i t target).blocks[j'] = mergedBlock i t target block j := by
  have hlen := merged_length i target M.lt
  obtain ⟨j, hj, hjt, hren⟩ := exists_renumber t (show j' + 1 < fn.blocks.length by lia)
  refine ⟨j, fn.blocks[j], getElem?_eq_getElem hj, hjt, hren.symm, ?_⟩
  have hget := merged_block fn i target hjt
  rw [hren, getElem?_eq_getElem hj', getElem?_eq_getElem hj, Option.map_some,
    Option.some.injEq] at hget
  exact hget

theorem merged_inRange (H : fn.Prepared) : ∀ block ∈ (merged fn i t target).blocks,
    ∀ s ∈ rawTargets block, (merged fn i t target).InRange s := by
  intro block hblock s hs
  obtain ⟨j', hj', rfl⟩ := mem_iff_getElem.mp hblock
  obtain ⟨j, old, hj, hjt, -, hget⟩ := M.exists_old hj'
  rw [hget, rawTargets_mergedBlock] at hs
  obtain ⟨s', hs', rfl⟩ := mem_map.mp hs
  obtain ⟨⟨h0, hlt⟩, hne⟩ : Kept fn t s' := by
    by_cases hji : j = i
    · rw [if_pos hji] at hs'
      exact M.kept H M.atTarget M.ne s' hs'
    · rw [if_neg hji] at hs'
      exact M.kept H hj hji s' hs'
  have hlen := merged_length i target M.lt
  have hren := renumber_lt (t := t) (j := s'.toNat) (n := fn.blocks.length) (by lia) (by lia) M.lt
  exact ⟨Int.natCast_nonneg _, Int.ofNat_lt.mpr (by lia)⟩

/-- An edge goes between the places of its ends, or its ends share a place. -/
theorem edge_place {u v : Nat} (h : fn.Edge u v) :
    placeBlock i t u = placeBlock i t v ∨
      (merged fn i t target).Edge (placeBlock i t u) (placeBlock i t v) := by
  have hlen := merged_length i target M.lt
  have hu := h.lt
  obtain ⟨block, hblock⟩ : ∃ block, fn.blocks[u]? = some block := ⟨_, getElem?_eq_getElem hu⟩
  have hmem : (v : Int) ∈ rawTargets block := by
    have := h.1
    rw [IrFunction.succs, hblock] at this
    exact mem_blockSuccessors.mp this
  -- an edge of the merged function, from the terminator it comes from
  have hedge : ∀ (j : Nat) (b : IrBlock Instr Ty), j ≠ t → fn.blocks[j]? = some b → v ≠ t →
      (v : Int) ∈ rawTargets (if j = i then target else b) →
      (merged fn i t target).Edge (renumber t j) (renumber t v) := by
    intro j b hjt hb hvt hv
    refine ⟨?_, ?_⟩
    · rw [IrFunction.succs, merged_block _ _ _ hjt, hb]
      refine mem_blockSuccessors.mpr ?_
      rw [rawTargets_mergedBlock]
      exact mem_map.mpr ⟨(v : Int), hv, by simp⟩
    · have := renumber_lt (t := t) (j := v) h.2 hvt M.lt
      lia
  by_cases hui : u = i
  · subst hui
    obtain rfl := Option.some.inj (hblock.symm.trans M.atSource)
    rw [M.source_targets, mem_singleton] at hmem
    have hvt : v = t := by lia
    exact .inl (by simp [placeBlock, hvt, M.ne.symm])
  · have hvt : v ≠ t := by
      rintro rfl
      exact M.not_mem hblock hui hmem
    rw [placeBlock, placeBlock, if_neg hvt]
    by_cases hut : u = t
    · subst hut
      obtain rfl := Option.some.inj (hblock.symm.trans M.atTarget)
      rw [if_pos rfl]
      exact .inr (hedge i source M.ne.symm M.atSource hvt (by rwa [if_pos rfl]))
    · rw [if_neg hut]
      exact .inr (hedge u block hut hblock hvt (by rwa [if_neg hui]))

theorem merged_reachable (H : fn.Prepared) : ∀ b < (merged fn i t target).blocks.length,
    Reachable (merged fn i t target).Edge 0 b := by
  have hplace : ∀ b, Reachable fn.Edge 0 b →
      Reachable (merged fn i t target).Edge 0 (placeBlock i t b) := by
    intro b hb
    refine hb.closed (P := fun b => Reachable (merged fn i t target).Edge 0 (placeBlock i t b)) ?_ ?_
    · have h0 : placeBlock i t 0 = 0 := by
        rw [placeBlock, if_neg (Ne.symm M.entry), renumber, if_pos (Nat.pos_of_ne_zero M.entry)]
      rw [h0]
      exact .root
    · intro u v hu he
      rcases M.edge_place he with heq | hedge
      · exact heq ▸ hu
      · exact hu.step hedge
  intro b hb
  obtain ⟨j, old, hj, hjt, rfl, -⟩ := M.exists_old hb
  have := hplace j (H.reachable j (List.getElem?_eq_some_iff.mp hj).1)
  rwa [placeBlock, if_neg hjt] at this

/-- **What the pass is promised it keeps.** -/
theorem merged_prepared (H : fn.Prepared) : (merged fn i t target).Prepared where
  ids := by
    intro j' hj'
    obtain ⟨j, old, -, -, rfl, hget⟩ := M.exists_old hj'
    rw [hget]
    rfl
  reachable := M.merged_reachable H
  inRange := M.merged_inRange H

/-! ### Runs -/

/-- A branch leads to the place of where it led. -/
theorem goto_place {br : IrBranch} (hbr : Kept fn t br.target) (store : Store V Mem) :
    (merged fn i t target).goto (renumberBranch t br) store =
      (fn.goto br store : Option (Config Instr V Mem X)).map (place i t target) := by
  have hlen := merged_length i target M.lt
  obtain ⟨⟨h0, hlt⟩, hne⟩ := hbr
  have hj : br.target.toNat < fn.blocks.length := by lia
  have hjt : br.target.toNat ≠ t := by lia
  have hren := renumber_lt (t := t) hj hjt M.lt
  rw [IrFunction.goto, if_pos ⟨Int.natCast_nonneg _, Int.ofNat_lt.mpr (by lia)⟩,
    IrFunction.goto, if_pos ⟨h0, hlt⟩]
  simp only [renumberBranch, Int.toNat_natCast, merged_block _ _ _ hjt, getElem?_eq_getElem hj,
    Option.map_some, place, placeBlock, mergedBlock, if_neg hjt]

theorem leave_place (P : Machine Instr V Mem X) (hkept : ∀ s ∈ rawTargets block, Kept fn t s)
    (store : Store V Mem) :
    (merged fn i t target).leave P (renumberTerminator t block.terminator) store =
      (fn.leave P block.terminator store).map (place i t target) := by
  unfold rawTargets at hkept
  cases hterm : block.terminator with
  | ret values site => rfl
  | unreachable site => rfl
  | br branch site =>
    rw [hterm] at hkept
    exact M.goto_place (hkept _ (by simp)) store
  | brIf condition ifTrue ifFalse site =>
    rw [hterm] at hkept
    simp only [renumberTerminator, IrFunction.leave]
    split
    all_goals exact M.goto_place (hkept _ (by simp)) store

/-- The jump from the source to the target is no step of the merged function. -/
theorem next_source (P : Machine Instr V Mem X) (store : Store V Mem) :
    fn.next P (.at i [] store) = some (none, .at t target.instrs store) := by
  obtain ⟨site, hterm⟩ := M.branch
  have hr : fn.InRange (t : Int) := ⟨Int.natCast_nonneg t, Int.ofNat_lt.mpr M.lt⟩
  simp [IrFunction.next, M.atSource, hterm, IrFunction.leave, IrFunction.goto, hr, M.atTarget,
    M.args]

/-- **Every other step is a step of the merged function.** -/
theorem next_place (H : fn.Prepared) (P : Machine Instr V Mem X) (c : Config Instr V Mem X)
    (hc : ∀ store, c ≠ .at i [] store) :
    (merged fn i t target).next P (place i t target c) =
      (fn.next P c).map (Prod.map id (place i t target)) := by
  match c with
  | .done o => rfl
  | .at b (instr :: rest) store =>
    have hrest : (if b = i then instr :: rest ++ target.instrs else instr :: rest) =
        instr :: if b = i then rest ++ target.instrs else rest := by
      split <;> rfl
    rw [place, hrest, IrFunction.next, IrFunction.next]
    cases P.exec instr store with
    | inl store' => rfl
    | inr x => rfl
  | .at b [] store =>
    have hbi : b ≠ i := by
      rintro rfl
      exact hc store rfl
    rw [place, if_neg hbi, IrFunction.next, IrFunction.next]
    by_cases hbt : b = t
    · subst hbt
      rw [placeBlock, if_pos rfl, merged_block _ _ _ M.ne.symm, M.atSource, M.atTarget]
      have hleave := M.leave_place P (M.kept H M.atTarget M.ne) store
      simp only [Option.map_some, Option.bind_some, mergedBlock, if_pos, hleave, Option.map_map]
      rfl
    · rw [placeBlock, if_neg hbt, merged_block _ _ _ hbt]
      cases hb : fn.blocks[b]? with
      | none => rfl
      | some block =>
        have hleave := M.leave_place P (M.kept H hb hbi) store
        simp only [Option.map_some, Option.bind_some, mergedBlock, if_neg hbi, hleave,
          Option.map_map]
        rfl

/-- **The merged function executes the same instructions and ends in the same way.** -/
theorem same_runs (H : fn.Prepared) (P : Machine Instr V Mem X) (store : Store V Mem) :
    (∀ trace, (merged fn i t target).Executes P store trace ↔ fn.Executes P store trace) ∧
    ∀ trace outcome, (merged fn i t target).Finishes P store trace outcome ↔
      fn.Finishes P store trace outcome := by
  have hmap : ∀ (c : Config Instr V Mem X) l c', fn.next P c = some (l, c') →
      (merged fn i t target).next P (place i t target c) = some (l, place i t target c') ∨
        l = none ∧ place i t target c' = place i t target c := by
    intro c l c' hc
    by_cases hsrc : ∀ store, c ≠ .at i [] store
    · rw [M.next_place H P c hsrc, hc]
      exact .inl rfl
    · simp only [ne_eq, not_forall, not_not] at hsrc
      obtain ⟨store, rfl⟩ := hsrc
      rw [M.next_source P store, Option.some.injEq, Prod.mk.injEq] at hc
      obtain ⟨rfl, rfl⟩ := hc
      refine .inr ⟨rfl, ?_⟩
      simp [place, placeBlock, M.ne, M.ne.symm]
  have hlift : ∀ (c : Config Instr V Mem X) l d,
      (merged fn i t target).next P (place i t target c) = some (l, d) →
        ∃ c', Stutter.Runs (fn.next P) c l.toList c' ∧ place i t target c' = d := by
    -- away from the jump, steps correspond
    have hstep : ∀ (c : Config Instr V Mem X) l d, (∀ store, c ≠ .at i [] store) →
        (merged fn i t target).next P (place i t target c) = some (l, d) →
          ∃ c', fn.next P c = some (l, c') ∧ place i t target c' = d := by
      intro c l d hsrc hd
      rw [M.next_place H P c hsrc, Option.map_eq_some_iff] at hd
      obtain ⟨⟨l', c'⟩, hc, heq⟩ := hd
      simp only [Prod.map_apply, id_eq, Prod.mk.injEq] at heq
      obtain ⟨rfl, rfl⟩ := heq
      exact ⟨c', hc, rfl⟩
    intro c l d hd
    by_cases hsrc : ∀ store, c ≠ .at i [] store
    · obtain ⟨c', hc, rfl⟩ := hstep c l d hsrc hd
      exact ⟨c', by simpa using Stutter.Runs.step hc (.refl c'), rfl⟩
    · simp only [ne_eq, not_forall, not_not] at hsrc
      obtain ⟨store, rfl⟩ := hsrc
      have hsame : place i t target (.at t target.instrs store : Config Instr V Mem X) =
          place i t target (.at i [] store) := by
        simp [place, placeBlock, M.ne, M.ne.symm]
      obtain ⟨c', hc, rfl⟩ := hstep (.at t target.instrs store) l d
        (fun _ he => M.ne (Config.at.inj he).1) (hsame ▸ hd)
      refine ⟨c', ?_, rfl⟩
      simpa using Stutter.Runs.step (M.next_source P store) (.step hc (.refl c'))
  -- both start in the entry
  have henter : (merged fn i t target).enter store =
      (fn.enter store : Option (Config Instr V Mem X)).map (place i t target) := by
    have h0 : renumber t 0 = 0 := if_pos (Nat.pos_of_ne_zero M.entry)
    have hblock := merged_block fn i target (Ne.symm M.entry)
    rw [h0] at hblock
    simp only [IrFunction.enter, hblock, Option.map_map]
    congr 1
    funext block
    simp [place, placeBlock, mergedBlock, Ne.symm M.entry, h0]
  constructor
  · intro trace
    simp only [IrFunction.Executes, henter, Option.map_eq_some_iff]
    constructor
    · rintro ⟨_, ⟨c, hc, rfl⟩, d, hrun⟩
      obtain ⟨c', hrun', -⟩ := Stutter.Runs.lift hlift hrun
      exact ⟨c, hc, c', hrun'⟩
    · rintro ⟨c, hc, c', hrun⟩
      exact ⟨_, ⟨c, hc, rfl⟩, _, hrun.map hmap⟩
  · intro trace outcome
    simp only [IrFunction.Finishes, henter, Option.map_eq_some_iff]
    constructor
    · rintro ⟨_, ⟨c, hc, rfl⟩, hrun⟩
      obtain ⟨c', hrun', hplace⟩ := Stutter.Runs.lift hlift hrun
      cases c' with
      | «at» b rest store => cases hplace
      | done outcome' =>
        cases hplace
        exact ⟨c, hc, hrun'⟩
    · rintro ⟨c, hc, hrun⟩
      exact ⟨_, ⟨c, hc, rfl⟩, hrun.map hmap⟩

end Merge

end Merged

/-! ### The pass -/

/-- The entry keeps its arguments and begins with its instructions. -/
def SameEntry (fn fn' : IrFunction Instr Ty) : Prop :=
  ∀ entry, fn.blocks[0]? = some entry → ∃ entry', fn'.blocks[0]? = some entry' ∧
    entry'.blockArgs = entry.blockArgs ∧ entry'.blockArgTypes = entry.blockArgTypes ∧
    entry.instrs <+: entry'.instrs

theorem Merge.sameEntry (M : Merge fn i source t target) : SameEntry fn (merged fn i t target) := by
  intro entry hentry
  have h0 : renumber t 0 = 0 := if_pos (Nat.pos_of_ne_zero M.entry)
  have hblock := merged_block fn i target (Ne.symm M.entry)
  rw [h0, hentry] at hblock
  refine ⟨_, hblock, rfl, rfl, ?_⟩
  simp only [mergedBlock]
  split
  · exact prefix_append _ _
  · exact prefix_refl _

/-- What `simplifyCFG` promises. -/
structure Simplified (fn fn' : IrFunction Instr Ty) : Prop where
  /-- Ids contiguous, blocks reachable, targets in range. -/
  prepared : fn'.Prepared
  entry : SameEntry fn fn'
  shorter : fn' = fn ∨ fn'.blocks.length < fn.blocks.length
  fixpoint : fn' = fn → NoMergeLeft fn
  executes : ∀ {V Mem X : Type} (P : Machine Instr V Mem X) (store : Store V Mem) trace,
    fn'.Executes P store trace ↔ fn.Executes P store trace
  finishes : ∀ {V Mem X : Type} (P : Machine Instr V Mem X) (store : Store V Mem) trace outcome,
    fn'.Finishes P store trace outcome ↔ fn.Finishes P store trace outcome

/-- **`simplifyCFG` keeps the function**, on functions whose targets are blocks; the bound is
the length of the longest array there is. -/
theorem simplifyCFG_correct (fn : IrFunction Instr Ty) (H : fn.Prepared)
    (hlen : fn.blocks.length < 2 ^ 32) :
    ∃ fn', simplifyCFG fn = .ok fn' ∧ Simplified fn fn' := by
  cases hfind : findMerge fn with
  | none =>
    refine ⟨fn, by rw [simplifyCFG, hfind], ⟨H, ?_, .inl rfl, fun _ => findMerge_none hfind,
      fun _ _ _ => Iff.rfl, fun _ _ _ _ => Iff.rfl⟩⟩
    exact fun entry hentry => ⟨entry, hentry, rfl, rfl, prefix_refl _⟩
  | some found =>
    obtain ⟨⟨i, source⟩, ⟨t, target⟩⟩ := found
    have M := findMerge_some H hlen hfind
    have hlt : (merged fn i t target).blocks.length < fn.blocks.length := by
      have := merged_length i target M.lt
      lia
    refine ⟨merged fn i t target, ?_, ⟨M.merged_prepared H, M.sameEntry, .inr hlt, fun he => ?_,
      fun P store => (M.same_runs H P store).1, fun P store => (M.same_runs H P store).2⟩⟩
    · rw [simplifyCFG, hfind]
      exact M.mergeAt_ok H
    · rw [he] at hlt
      exact absurd hlt (Nat.lt_irrefl _)

/-! ### Functions outside -/

/-- A block without arguments and instructions. -/
def plainBlock (id : Int) (terminator : IrTerminator) : IrBlock Unit Unit :=
  ⟨id, [], [], [], terminator⟩

def twoBlocks (first second : IrTerminator) : IrFunction Unit Unit :=
  ⟨"f", [], [], [plainBlock 0 first, plainBlock 1 second], false, 1⟩

theorem twoBlocks_contiguous (first second : IrTerminator) :
    (twoBlocks first second).Contiguous := by
  intro i hi
  match i, hi with
  | 0, _ => rfl
  | 1, _ => rfl

theorem twoBlocks_reachable (args : List IrValueId) (second : IrTerminator) :
    ∀ b < 2, Reachable (twoBlocks (.br ⟨1, args⟩ none) second).Edge 0 b := by
  intro b hb
  have hedge : (twoBlocks (.br ⟨1, args⟩ none) second).Edge 0 1 := by
    simp [IrFunction.Edge, IrFunction.succs, twoBlocks, plainBlock, blockSuccessors]
  obtain rfl | rfl : b = 0 ∨ b = 1 := by lia
  · exact .root
  · exact Reachable.root.step hedge

/-- A branch with an argument to a block without arguments is left alone, though no other
edge leads there; and a target that is no block makes a merge throw. -/
theorem simplifyCFG_outside :
    ((twoBlocks (.br ⟨1, [0]⟩ none) (.ret [] none)).Contiguous ∧
      (∀ b < 2, Reachable (twoBlocks (.br ⟨1, [0]⟩ none) (.ret [] none)).Edge 0 b) ∧
      simplifyCFG (twoBlocks (.br ⟨1, [0]⟩ none) (.ret [] none)) =
        .ok (twoBlocks (.br ⟨1, [0]⟩ none) (.ret [] none)) ∧
      (edges (twoBlocks (.br ⟨1, [0]⟩ none) (.ret [] none))).count 1 = 1) ∧
    (twoBlocks (.br ⟨1, []⟩ none) (.br ⟨2, []⟩ none)).Contiguous ∧
      (∀ b < 2, Reachable (twoBlocks (.br ⟨1, []⟩ none) (.br ⟨2, []⟩ none)).Edge 0 b) ∧
      simplifyCFG (twoBlocks (.br ⟨1, []⟩ none) (.br ⟨2, []⟩ none)) =
        .error "ir/passes/simplify-cfg: branch to missing block 2 in f" := by
  refine ⟨⟨twoBlocks_contiguous _ _, twoBlocks_reachable _ _, ?_, ?_⟩,
    twoBlocks_contiguous _ _, twoBlocks_reachable _ _, ?_⟩ <;> rfl

theorem twoBlocks_prepared : (twoBlocks (.br ⟨1, []⟩ none) (.ret [] none)).Prepared where
  ids := twoBlocks_contiguous _ _
  reachable := twoBlocks_reachable _ _
  inRange := by decide

/-- `simplifyCFG_correct` on two blocks in a row. -/
theorem twoBlocks_simplified :
    (twoBlocks (.br ⟨1, []⟩ none) (.ret [] none)).Prepared ∧
    ∃ fn', simplifyCFG (twoBlocks (.br ⟨1, []⟩ none) (.ret [] none)) = .ok fn' ∧
      Simplified (twoBlocks (.br ⟨1, []⟩ none) (.ret [] none)) fn' :=
  ⟨twoBlocks_prepared, simplifyCFG_correct _ twoBlocks_prepared (by decide)⟩

end Js2Wasm.Cfg
