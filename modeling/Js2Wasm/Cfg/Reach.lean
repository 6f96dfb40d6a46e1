import Mathlib.Algebra.GroupWithZero.Nat
import Mathlib.Data.Finset.Card
import Js2Wasm.Cfg.Dominance
import Js2Wasm.Lib.DominatorTree

/-! # The searches

The depth-first search of `computeDominance` and the flood of the naive reference both
end with the blocks the entry reaches.  The order the former leaves, reverse postorder,
has a predecessor of each block but the entry before it (`Rpo`).  That is what the
iteration rests on; nothing else of depth-first search is needed.
-/
namespace Js2Wasm.Cfg
open Dominators List Function

variable {Instr Ty : Type} {fn : IrFunction Instr Ty}

theorem blockSuccessors_length_le (block : IrBlock Instr Ty) :
    (blockSuccessors block).length ≤ 2 := by
  unfold blockSuccessors
  split <;> try split
  all_goals simp

namespace IrFunction

theorem succs_eq {b : Nat} {block : IrBlock Instr Ty} (h : fn.blocks[b]? = some block) :
    fn.succs b = blockSuccessors block := by
  simp [succs, h]

theorem edge_of_mem {b : Nat} {t : Int} (ht : t ∈ fn.succs b) (hr : fn.InRange t) :
    fn.Edge b t.toNat := by
  obtain ⟨h0, hn⟩ := hr
  refine ⟨?_, by lia⟩
  rwa [Int.toNat_of_nonneg h0]

theorem Edge.inRange {u v : Nat} (h : fn.Edge u v) : fn.InRange v :=
  ⟨Int.natCast_nonneg v, Int.ofNat_lt.mpr h.2⟩

end IrFunction

/-! ### Depth-first search -/

/-- Stack, bottom first, then reverse postorder: the order in the making. -/
def dfsOrder (s : Dfs) : List Nat := (s.stack.map Prod.fst).reverse ++ s.postorder.reverse

/-- The invariant of the search. -/
structure DfsInv (fn : IrFunction Instr Ty) (s : Dfs) : Prop where
  nodup : (dfsOrder s).Nodup
  head : (dfsOrder s).head? = some 0
  seen : ∀ b, s.reachable b = true ↔ b ∈ dfsOrder s
  bound : ∀ b ∈ dfsOrder s, b < fn.blocks.length
  reach : ∀ b ∈ dfsOrder s, Reachable fn.Edge 0 b
  /-- Each block but the entry comes after a predecessor. -/
  after : ∀ b ∈ dfsOrder s, b ≠ 0 → ∃ p, fn.Edge p b ∧ [p, b].Sublist (dfsOrder s)
  /-- Of a frame the successors before its index are seen. -/
  frames : ∀ f ∈ s.stack, f.2 ≤ (fn.succs f.1).length ∧
    ∀ t ∈ (fn.succs f.1).take f.2, fn.InRange t → t.toNat ∈ dfsOrder s
  finished : ∀ b ∈ s.postorder, ∀ v, fn.Edge b v → v ∈ dfsOrder s

/-- What is left to do: unseen blocks, and successors of the blocks on the stack. -/
def dfsLeft (fn : IrFunction Instr Ty) (s : Dfs) : Nat :=
  4 * (fn.blocks.length - (dfsOrder s).length) + (s.stack.map fun f => 3 - f.2).sum

theorem dfsStart_inv (h : fn.blocks ≠ []) : DfsInv fn dfsStart := by
  have horder : dfsOrder dfsStart = [0] := rfl
  refine ⟨?_, ?_, ?_, ?_, ?_, ?_, ?_, ?_⟩
  · simp [horder]
  · simp [horder]
  · intro b
    rw [horder, mem_singleton]
    by_cases hb : b = 0
    all_goals simp [hb, dfsStart]
  · intro b hb
    rw [horder, mem_singleton] at hb
    exact hb ▸ length_pos_iff.mpr h
  · intro b hb
    rw [horder, mem_singleton] at hb
    exact hb ▸ .root
  · intro b hb hne
    rw [horder, mem_singleton] at hb
    exact absurd hb hne
  · intro f hf
    obtain rfl : f = (0, 0) := mem_singleton.mp hf
    exact ⟨Nat.zero_le _, by simp⟩
  · exact fun b hb => nomatch hb

namespace DfsInv

theorem length_le {s : Dfs} (h : DfsInv fn s) : (dfsOrder s).length ≤ fn.blocks.length := by
  have hsub : dfsOrder s ⊆ range fn.blocks.length := fun b hb =>
    mem_range.mpr (h.bound b hb)
  simpa using (subperm_of_subset h.nodup hsub).length_le

section Step
variable {s : Dfs} {b i : Nat} {rest : List (Nat × Nat)} {t : Int}

section
variable (h : DfsInv fn s) (hs : s.stack = (b, i) :: rest)
include h hs

/-- The frame moves on to its next successor, which is seen or out of range. -/
theorem skip (ht : (fn.succs b)[i]? = some t) (hseen : fn.InRange t → s.reachable t.toNat = true) :
    DfsInv fn { s with stack := (b, i + 1) :: rest } := by
  have horder : dfsOrder { s with stack := (b, i + 1) :: rest } = dfsOrder s := by
    simp [dfsOrder, hs]
  refine ⟨horder ▸ h.nodup, horder ▸ h.head, horder ▸ h.seen, horder ▸ h.bound, horder ▸ h.reach,
    horder ▸ h.after, ?_, horder ▸ h.finished⟩
  rw [horder]
  intro f hf
  rcases mem_cons.mp hf with rfl | hf
  · obtain ⟨hlt, htake⟩ := List.getElem?_eq_some_iff.mp ht
    refine ⟨hlt, fun t' ht' hr => ?_⟩
    rw [take_add_one, ht] at ht'
    rcases mem_append.mp ht' with ht' | ht'
    · exact (h.frames (b, i) (hs ▸ mem_cons_self)).2 t' ht' hr
    · obtain rfl : t' = t := by simpa using ht'
      exact (h.seen _).mp (hseen hr)
  · exact h.frames f (hs ▸ mem_cons_of_mem _ hf)

/-- The frame's next successor is new and goes on top of the stack. -/
theorem push (ht : (fn.succs b)[i]? = some t) (hr : fn.InRange t)
    (hnew : s.reachable t.toNat = false) :
    DfsInv fn { s with
      reachable := update s.reachable t.toNat true
      stack := (t.toNat, 0) :: (b, i + 1) :: rest } := by
  have hedge : fn.Edge b t.toNat := IrFunction.edge_of_mem (mem_of_getElem? ht) hr
  have hold : dfsOrder s = (rest.map Prod.fst).reverse ++ b :: s.postorder.reverse := by
    simp [dfsOrder, hs]
  have horder : dfsOrder { s with
      reachable := update s.reachable t.toNat true
      stack := (t.toNat, 0) :: (b, i + 1) :: rest } =
      ((rest.map Prod.fst).reverse ++ [b]) ++ t.toNat :: s.postorder.reverse := by
    simp [dfsOrder]
  have hmem : ∀ x, x ∈ ((rest.map Prod.fst).reverse ++ [b]) ++ t.toNat :: s.postorder.reverse ↔
      x = t.toNat ∨ x ∈ dfsOrder s := by
    intro x
    simp only [hold, mem_append, mem_cons, mem_reverse, mem_map,
      not_mem_nil, or_false]
    grind
  have hsub : (dfsOrder s).Sublist
      (((rest.map Prod.fst).reverse ++ [b]) ++ t.toNat :: s.postorder.reverse) := by
    rw [hold, append_cons]
    exact (sublist_cons_self _ _).append_left _
  have hnot : t.toNat ∉ dfsOrder s := fun hin => by
    rw [(h.seen _).mpr hin] at hnew
    cases hnew
  refine ⟨?_, ?_, ?_, ?_, ?_, ?_, ?_, ?_⟩ <;> rw [horder]
  · rw [nodup_middle, nodup_cons, ← append_cons, ← hold]
    exact ⟨hnot, h.nodup⟩
  · have hhead := h.head
    rw [hold] at hhead
    cases hrest : (rest.map Prod.fst).reverse with
    | nil | cons x xs => simpa [hrest] using hhead
  · intro x
    rw [hmem]
    by_cases hx : x = t.toNat
    · simp [hx]
    · simp [hx, h.seen]
  · intro x hx
    rcases (hmem x).mp hx with rfl | hx
    · exact hedge.2
    · exact h.bound x hx
  · intro x hx
    rcases (hmem x).mp hx with rfl | hx
    · exact (h.reach b (hold ▸ by simp)).step hedge
    · exact h.reach x hx
  · intro x hx hne
    rcases (hmem x).mp hx with rfl | hx
    · refine ⟨b, hedge, ?_⟩
      rw [append_assoc]
      refine List.Sublist.trans ?_ (sublist_append_right _ _)
      simp
    · obtain ⟨p, hp, hps⟩ := h.after x hx hne
      exact ⟨p, hp, hps.trans hsub⟩
  · have hskip : ∀ f ∈ s.stack, f.2 ≤ (fn.succs f.1).length ∧ ∀ t' ∈ (fn.succs f.1).take f.2,
        fn.InRange t' → t'.toNat ∈ dfsOrder s := h.frames
    intro f hf
    rcases mem_cons.mp hf with rfl | hf
    · exact ⟨Nat.zero_le _, by simp⟩
    · rcases mem_cons.mp hf with rfl | hf
      · obtain ⟨hlt, -⟩ := List.getElem?_eq_some_iff.mp ht
        refine ⟨hlt, fun t' ht' hr' => (hmem _).mpr ?_⟩
        rw [take_add_one, ht] at ht'
        rcases mem_append.mp ht' with ht' | ht'
        · exact .inr ((h.frames (b, i) (hs ▸ mem_cons_self)).2 t' ht' hr')
        · obtain rfl : t' = t := by simpa using ht'
          exact .inl rfl
      · obtain ⟨hle, hall⟩ := h.frames f (hs ▸ mem_cons_of_mem _ hf)
        exact ⟨hle, fun t' ht' hr' => (hmem _).mpr (.inr (hall t' ht' hr'))⟩
  · exact fun x hx v hv => (hmem v).mpr (.inr (h.finished x hx v hv))

/-- The frame is done and its block joins the postorder. -/
theorem pop (ht : (fn.succs b)[i]? = none) :
    DfsInv fn { s with postorder := s.postorder ++ [b], stack := rest } := by
  have horder : dfsOrder { s with postorder := s.postorder ++ [b], stack := rest } =
      dfsOrder s := by
    simp [dfsOrder, hs]
  refine ⟨horder ▸ h.nodup, horder ▸ h.head, horder ▸ h.seen, horder ▸ h.bound, horder ▸ h.reach,
    horder ▸ h.after, ?_, ?_⟩ <;> rw [horder]
  · exact fun f hf => h.frames f (hs ▸ mem_cons_of_mem _ hf)
  · intro x hx v hv
    rcases mem_append.mp hx with hx | hx
    · exact h.finished x hx v hv
    · obtain rfl := mem_singleton.mp hx
      have hall := (h.frames (x, i) (hs ▸ mem_cons_self)).2
      rw [take_of_length_le (getElem?_eq_none_iff.mp ht)] at hall
      simpa using hall v hv.1 hv.inRange

end

end Step

/-- **One round of the search.** -/
theorem step {s : Dfs} (h : DfsInv fn s) (hne : s.stack ≠ []) :
    ∃ s', dfsStep fn s = some s' ∧ DfsInv fn s' ∧ dfsLeft fn s' < dfsLeft fn s := by
  obtain ⟨⟨b, i⟩, rest, hs⟩ := exists_cons_of_ne_nil hne
  have hb : b < fn.blocks.length := h.bound b (by simp [dfsOrder, hs])
  have hsuccs : fn.succs b = blockSuccessors fn.blocks[b] :=
    IrFunction.succs_eq (getElem?_eq_getElem hb)
  have hlen : (fn.succs b).length ≤ 2 := hsuccs ▸ blockSuccessors_length_le _
  unfold dfsStep
  simp only [hs, getElem?_eq_getElem hb, Option.map_some, ← hsuccs, Option.some.injEq,
    exists_eq_left']
  have hi := (h.frames (b, i) (hs ▸ mem_cons_self)).1
  cases ht : (fn.succs b)[i]? with
  | none =>
    refine ⟨h.pop hs ht, ?_⟩
    simp only [dfsLeft, dfsOrder, hs, map_cons, reverse_cons, length_append,
      length_reverse, length_map, length_cons, sum_cons, length_nil]
    simp only at hi
    lia
  | some t =>
    obtain ⟨hlt, -⟩ := List.getElem?_eq_some_iff.mp ht
    by_cases hnew : fn.InRange t ∧ s.reachable t.toNat = false
    · have hpush := h.push hs ht hnew.1 hnew.2
      simp only [hnew, and_self, if_true]
      refine ⟨hpush, ?_⟩
      have hle := hpush.length_le
      simp only [dfsLeft, dfsOrder, hs, map_cons, reverse_cons, length_append,
        length_reverse, length_map, length_cons, sum_cons,
        length_nil] at hle ⊢
      lia
    · simp only [hnew, if_false]
      refine ⟨h.skip hs ht fun hr => by simpa [hr] using hnew, ?_⟩
      simp only [dfsLeft, dfsOrder, hs, map_cons, reverse_cons, length_append,
        length_reverse, length_map, length_cons, sum_cons, length_nil]
      lia

end DfsInv

/-! ### Reverse postorder -/

/-- What the iteration needs of the order. -/
structure Rpo (fn : IrFunction Instr Ty) (rpo : List Nat) : Prop where
  nodup : rpo.Nodup
  head : rpo.head? = some 0
  mem : ∀ b, b ∈ rpo ↔ Reachable fn.Edge 0 b
  after : ∀ b ∈ rpo, b ≠ 0 → ∃ p, fn.Edge p b ∧ [p, b].Sublist rpo

/-- **The search ends with the reachable blocks in an order in which each but the entry
comes after a predecessor.** -/
theorem dfs_correct (h : fn.blocks ≠ []) : ∃ N, ∀ fuel ≥ N, ∃ s, dfs fuel fn = some s ∧
    Rpo fn s.postorder.reverse ∧ ∀ b, s.reachable b = true ↔ Reachable fn.Edge 0 b := by
  refine ⟨dfsLeft fn dfsStart, fun fuel hfuel => ?_⟩
  obtain ⟨s, hrun, hinv, hend⟩ := Loop.run_total (fun s => !s.stack.isEmpty)
    (dfsStep fn) (DfsInv fn) (dfsLeft fn)
    (fun s hs hc => hs.step (by simpa using hc)) fuel dfsStart (dfsStart_inv h) hfuel
  have hstack : s.stack = [] := by simpa using hend
  have horder : dfsOrder s = s.postorder.reverse := by simp [dfsOrder, hstack]
  have hmem : ∀ b, b ∈ s.postorder.reverse ↔ Reachable fn.Edge 0 b := by
    intro b
    refine ⟨fun hb => hinv.reach b (horder ▸ hb), fun hb => ?_⟩
    have hhead := hinv.head
    rw [horder] at hhead
    refine hb.closed (P := (· ∈ s.postorder.reverse)) (mem_of_mem_head? hhead) fun u v hu he => ?_
    exact horder ▸ hinv.finished u (mem_reverse.mp hu) v he
  refine ⟨s, hrun, ⟨horder ▸ hinv.nodup, horder ▸ hinv.head, hmem, horder ▸ hinv.after⟩, fun b => ?_⟩
  rw [hinv.seen, horder, hmem]

/-! ### The flood of the naive reference -/

/-- Edges that do not lead to the block removed. -/
def EdgeWithout (fn : IrFunction Instr Ty) (removed : Int) (u v : Nat) : Prop :=
  fn.Edge u v ∧ (v : Int) ≠ removed

/-- The invariant of the flood, inside a round too: the targets `ts` of `b` are left. -/
structure FloodInv (fn : IrFunction Instr Ty) (removed : Int) (b : Nat) (ts : List Int)
    (s : Flood) : Prop where
  entry : s.seen 0 = true
  reach : ∀ x, s.seen x = true → Reachable (EdgeWithout fn removed) 0 x
  bound : ∀ x, s.seen x = true → x < fn.blocks.length
  stack : ∀ x ∈ s.stack, s.seen x = true
  closed : ∀ x, s.seen x = true → x ∈ s.stack ∨
    ∀ v, EdgeWithout fn removed x v → s.seen v = true ∨ x = b ∧ (v : Int) ∈ ts

def unseen (fn : IrFunction Instr Ty) (s : Flood) : Finset Nat :=
  (Finset.range fn.blocks.length).filter fun b => s.seen b = false

def floodLeft (fn : IrFunction Instr Ty) (s : Flood) : Nat :=
  2 * (unseen fn s).card + s.stack.length

namespace FloodInv
variable {removed : Int} {b : Nat} {t : Int} {ts : List Int} {s : Flood}

/-- A new target is seen and goes on the stack. -/
theorem add (h : FloodInv fn removed b (t :: ts) s) (hb : s.seen b = true)
    (ht : t ∈ fn.succs b) (hr : fn.InRange t) (hne : t ≠ removed)
    (hnew : s.seen t.toNat = false) :
    FloodInv fn removed b ts ⟨update s.seen t.toNat true, t.toNat :: s.stack⟩ := by
  have hseen : ∀ x, update s.seen t.toNat true x = true ↔ x = t.toNat ∨ s.seen x = true := by
    intro x
    by_cases hx : x = t.toNat <;> simp [hx]
  have hedge : EdgeWithout fn removed b t.toNat :=
    ⟨IrFunction.edge_of_mem ht hr, by rwa [Int.toNat_of_nonneg hr.1]⟩
  refine ⟨(hseen 0).mpr (.inr h.entry), ?_, ?_, ?_, ?_⟩ <;> intro x hx
  · rcases (hseen x).mp hx with rfl | hx
    · exact (h.reach b hb).step hedge
    · exact h.reach x hx
  · rcases (hseen x).mp hx with rfl | hx
    · exact hedge.1.2
    · exact h.bound x hx
  · rcases mem_cons.mp hx with rfl | hx
    · exact (hseen _).mpr (.inl rfl)
    · exact (hseen x).mpr (.inr (h.stack x hx))
  · rcases (hseen x).mp hx with rfl | hx
    · exact .inl mem_cons_self
    · refine (h.closed x hx).imp (mem_cons_of_mem _) fun hall v hv => ?_
      rcases hall v hv with hv | ⟨rfl, hv⟩
      · exact .inl ((hseen v).mpr (.inr hv))
      · rcases mem_cons.mp hv with rfl | hv
        · exact .inl ((hseen _).mpr (.inl (by simp)))
        · exact .inr ⟨rfl, hv⟩

/-- A target that is seen, removed or out of range is passed over. -/
theorem pass (h : FloodInv fn removed b (t :: ts) s)
    (hpass : ¬ (fn.InRange t ∧ t ≠ removed ∧ s.seen t.toNat = false)) :
    FloodInv fn removed b ts s := by
  refine ⟨h.entry, h.reach, h.bound, h.stack, fun x hx => (h.closed x hx).imp id fun hall v hv => ?_⟩
  rcases hall v hv with hv' | ⟨rfl, hmem⟩
  · exact .inl hv'
  · rcases mem_cons.mp hmem with rfl | hmem
    · refine .inl ?_
      by_contra hnot
      exact hpass ⟨hv.1.inRange, hv.2, by simpa using hnot⟩
    · exact .inr ⟨rfl, hmem⟩

theorem unseen_add (hr : fn.InRange t) (hnew : s.seen t.toNat = false) :
    (unseen fn ⟨update s.seen t.toNat true, t.toNat :: s.stack⟩).card + 1 =
      (unseen fn s).card := by
  have hmem : t.toNat ∈ unseen fn s := by
    obtain ⟨h0, hlt⟩ := hr
    simp only [unseen, Finset.mem_filter, Finset.mem_range]
    exact ⟨by lia, hnew⟩
  rw [← Finset.card_erase_add_one hmem]
  congr 2
  ext x
  by_cases hx : x = t.toNat
  all_goals simp [unseen, hx]

/-- The targets of a block, one after the other. -/
theorem edges (hb : s.seen b = true) (hts : ∀ t ∈ ts, t ∈ fn.succs b)
    (h : FloodInv fn removed b ts s) :
    FloodInv fn removed b [] (ts.foldl (floodEdge fn removed) s) ∧
      floodLeft fn (ts.foldl (floodEdge fn removed) s) ≤ floodLeft fn s := by
  induction ts generalizing s with
  | nil => exact ⟨h, le_rfl⟩
  | cons t ts ih =>
    have htail : ∀ t ∈ ts, t ∈ fn.succs b := fun t' ht' => hts t' (mem_cons_of_mem _ ht')
    rw [foldl_cons, floodEdge]
    split
    · rename_i hc
      obtain ⟨hr, hne, hnew⟩ := hc
      have hadd := h.add hb (hts t mem_cons_self) hr hne hnew
      obtain ⟨hinv, hle⟩ := ih (by by_cases hx : b = t.toNat <;> simp [hx, hb]) htail hadd
      refine ⟨hinv, hle.trans ?_⟩
      have hcard := unseen_add hr hnew
      simp only [floodLeft, length_cons]
      lia
    · rename_i hc
      exact ih hb htail (h.pass hc)

/-- **One round of the flood.** -/
theorem step (h : FloodInv fn removed b [] s) (hne : s.stack ≠ []) :
    ∃ s', floodStep fn removed s = some s' ∧ (∃ b', FloodInv fn removed b' [] s') ∧
      floodLeft fn s' < floodLeft fn s := by
  obtain ⟨c, rest, hs⟩ := exists_cons_of_ne_nil hne
  have hc : s.seen c = true := h.stack c (hs ▸ mem_cons_self)
  have hlt := h.bound c hc
  have hsuccs : fn.succs c = blockSuccessors fn.blocks[c] :=
    IrFunction.succs_eq (getElem?_eq_getElem hlt)
  have hopen : FloodInv fn removed c (fn.succs c) { s with stack := rest } := by
    refine ⟨h.entry, h.reach, h.bound, fun x hx => h.stack x (hs ▸ mem_cons_of_mem _ hx), ?_⟩
    intro x hx
    by_cases hxc : x = c
    · exact .inr fun v hv => .inr ⟨hxc, hxc ▸ hv.1.1⟩
    · refine (h.closed x hx).imp (fun hmem => ?_) fun hall v hv => (hall v hv).imp id (by simp)
      exact (mem_cons.mp (hs ▸ hmem)).resolve_left hxc
  obtain ⟨hinv, hle⟩ := FloodInv.edges (s := ⟨s.seen, rest⟩) hc (fun _ ht => ht) hopen
  rw [hsuccs] at hinv hle
  refine ⟨_, ?_, ⟨c, hinv⟩, hle.trans_lt ?_⟩
  · simp [floodStep, hs, getElem?_eq_getElem hlt]
  · simp only [floodLeft, hs, length_cons, unseen]
    lia

end FloodInv

theorem reachableWithout_correct (h : fn.blocks ≠ []) :
    ∃ N, ∀ fuel ≥ N, ∀ removed, ∃ seen, reachableWithout fuel fn removed = some seen ∧
      ∀ b, seen b = true ↔ removed ≠ 0 ∧ Reachable (EdgeWithout fn removed) 0 b := by
  refine ⟨floodLeft fn ⟨update (fun _ => false) 0 true, [0]⟩, fun fuel hfuel removed => ?_⟩
  unfold reachableWithout
  by_cases hrem : removed = 0
  · exact ⟨fun _ => false, if_pos hrem, fun b => by simp [hrem]⟩
  have hstart : FloodInv fn removed 0 [] ⟨update (fun _ => false) 0 true, [0]⟩ := by
    have hseen : ∀ x, update (fun _ => false) 0 true x = true → x = 0 := by
      intro x hx
      by_contra hne
      simp [hne] at hx
    refine ⟨rfl, fun x hx => hseen x hx ▸ .root, fun x hx => ?_, fun x hx => ?_, fun x hx => ?_⟩
    · exact hseen x hx ▸ length_pos_iff.mpr h
    · rw [mem_singleton.mp hx]
      rfl
    · exact .inl (mem_singleton.mpr (hseen x hx))
  obtain ⟨s, hrun, ⟨b, hinv⟩, hend⟩ := Loop.run_total (fun s : Flood => !s.stack.isEmpty)
    (floodStep fn removed) (fun s => ∃ b, FloodInv fn removed b [] s) (floodLeft fn)
    (fun s ⟨b, hs⟩ hc => hs.step (by simpa using hc)) fuel _ ⟨0, hstart⟩ hfuel
  have hstack : s.stack = [] := by simpa using hend
  refine ⟨s.seen, by rw [if_neg hrem, hrun]; rfl, fun x => ⟨fun hx => ⟨hrem, hinv.reach x hx⟩, ?_⟩⟩
  rintro ⟨-, hx⟩
  refine hx.closed (P := fun x => s.seen x = true) hinv.entry fun u v hu he => ?_
  rcases hinv.closed u hu with hmem | hall
  · rw [hstack] at hmem
    cases hmem
  · exact (hall v he).resolve_right (by simp)

/-- Without a block, the flood finds what can be reached past it. -/
theorem reachable_without_iff {a b : Nat} :
    ((a : Int) ≠ 0 ∧ Reachable (EdgeWithout fn a) 0 b) ↔ Avoids fn.Edge 0 a b := by
  constructor
  · rintro ⟨hne, hb⟩
    have hroot : Avoids fn.Edge 0 a 0 := .root (by lia)
    exact hb.closed (P := Avoids fn.Edge 0 a) hroot fun u v hu he =>
      hu.step he.1 fun hav => he.2 (by rw [hav])
  · rintro ⟨l, hl, ha⟩
    refine ⟨fun h0 => ha ?_, ?_⟩
    · obtain rfl : a = 0 := by lia
      exact hl.root_mem
    · refine Avoids.closed (P := Reachable (EdgeWithout fn a) 0) (fun _ => .root) ?_ ⟨l, hl, ha⟩
      exact fun u v hu he hne => hu.step ⟨he, by lia⟩

theorem reachable_without_none_iff {b : Nat} :
    Reachable (EdgeWithout fn (-1)) 0 b ↔ Reachable fn.Edge 0 b := by
  constructor
  · exact fun hb => hb.closed .root fun u v hu he => hu.step he.1
  · exact fun hb => hb.closed .root fun u v hu he => hu.step ⟨he, by lia⟩

/-- What a pass over blocks adds for the block removed. -/
theorem mem_addDominator_foldl {baseline seen : Nat → Bool} {a x b : Nat} (l : List Nat)
    (dom : Nat → Finset Nat) :
    x ∈ l.foldl (addDominator baseline seen a) dom b ↔ x ∈ dom b ∨
      x = a ∧ b ∈ l ∧ baseline b = true ∧ baseline a = true ∧ (b = a ∨ seen b = false) := by
  induction l generalizing dom with
  | nil => simp
  | cons c l ih =>
    rw [foldl_cons, ih, addDominator]
    split
    · rename_i hc
      simp only [Bool.or_eq_true, Bool.not_eq_true'] at hc
      grind
    · split
      · by_cases hb : b = c
        · subst hb
          simp only [update_self, Finset.mem_insert]
          grind
        · rw [update_of_ne hb]
          grind
      · grind

/-- **The naive reference is dominance.** -/
theorem computeDominanceNaive_correct (h : fn.blocks ≠ []) : ∃ N, ∀ fuel ≥ N,
    ∃ dom, computeDominanceNaive fuel fn = some dom ∧
      ∀ a b, a ∈ dom b ↔ Dominates fn.Edge 0 a b := by
  obtain ⟨N, hN⟩ := reachableWithout_correct h
  refine ⟨N, fun fuel hfuel => ?_⟩
  obtain ⟨baseline, hbase, hreach⟩ := hN fuel hfuel (-1)
  have hreach' : ∀ b, baseline b = true ↔ Reachable fn.Edge 0 b := fun b => by
    rw [hreach, reachable_without_none_iff]
    simp
  have hlt : ∀ b, Reachable fn.Edge 0 b → b < fn.blocks.length := fun b hb =>
    hb.closed (P := (· < fn.blocks.length)) (length_pos_iff.mpr h) fun _ _ _ he => he.2
  suffices hfold : ∀ (l : List Nat) (dom : Nat → Finset Nat), ∃ dom',
      l.foldlM (fun dom (a : Nat) => do
        let seen ← reachableWithout fuel fn a
        some ((range fn.blocks.length).foldl (addDominator baseline seen a) dom)) dom =
          some dom' ∧
      ∀ x b, x ∈ dom' b ↔ x ∈ dom b ∨ x ∈ l ∧ Dominates fn.Edge 0 x b by
    obtain ⟨dom, hdom, hmem⟩ := hfold (range fn.blocks.length) fun _ => ∅
    refine ⟨dom, by simp only [computeDominanceNaive, hbase]; exact hdom, fun a b => ?_⟩
    rw [hmem]
    simp only [Finset.notMem_empty, mem_range, false_or, and_iff_right_iff_imp]
    exact fun hab => hlt a hab.reachable_left
  intro l
  induction l with
  | nil => exact fun dom => ⟨dom, rfl, by simp⟩
  | cons a l ih =>
    intro dom
    obtain ⟨seen, hseen, hav⟩ := hN fuel hfuel a
    obtain ⟨dom', hdom', hmem⟩ := ih
      ((range fn.blocks.length).foldl (addDominator baseline seen a) dom)
    refine ⟨dom', by rw [foldlM_cons, hseen]; exact hdom', fun x b => ?_⟩
    have hav' : ∀ b, seen b = false ↔ ¬ Avoids fn.Edge 0 a b := fun b => by
      rw [← reachable_without_iff, ← hav, Bool.not_eq_true]
    have hiff : (b ∈ range fn.blocks.length ∧ baseline b = true ∧ baseline a = true ∧
        (b = a ∨ seen b = false)) ↔ Dominates fn.Edge 0 a b := by
      rw [mem_range, hreach', hreach', hav', dominates_iff]
      constructor
      · rintro ⟨-, hb, -, rfl | hnot⟩
        · exact ⟨hb, (dominates_iff.mp (.refl hb)).2⟩
        · exact ⟨hb, hnot⟩
      · rintro ⟨hb, hnot⟩
        exact ⟨hlt b hb, hb, (dominates_iff.mpr ⟨hb, hnot⟩).reachable_left, .inr hnot⟩
    rw [hmem, mem_addDominator_foldl, hiff, mem_cons]
    grind

end Js2Wasm.Cfg
