import Mathlib.Data.List.Basic

/-! # Chains threaded through a vector

The nodes of a vector are linked by index: a node names the next one of its chain, a head
names the first, and -1 names none.  A table of heads keeps one chain for each of its
buckets.  A new node is linked in front of the chain of its bucket, so a chain runs from
the greatest index down and never comes back to a node.
-/
namespace Chains
open List Function

/-- `is` are the nodes from `cur` on. -/
def Chain (next : Nat → Option Int) : Int → List Nat → Prop
  | cur, [] => cur = -1
  | cur, i :: is => cur = i ∧ ∃ n, next i = some n ∧ Chain next n is

variable {next next' : Nat → Option Int} {cur : Int} {is : List Nat}

/-- A chain is that of any links that agree on its nodes. -/
theorem Chain.congr (h : Chain next cur is) (heq : ∀ i ∈ is, next' i = next i) :
    Chain next' cur is := by
  induction is generalizing cur with
  | nil => exact h
  | cons i is ih =>
    obtain ⟨hcur, n, hn, hrest⟩ := h
    refine ⟨hcur, n, ?_, ih hrest fun j hj => heq j (mem_cons_of_mem i hj)⟩
    rw [heq i mem_cons_self, hn]

/-- Decreasing positions below `n` are at most `n` many. -/
theorem length_le_of_decreasing {n : Nat} (h : is.Pairwise (· > ·)) (hn : ∀ i ∈ is, i < n) :
    is.length ≤ n := by
  induction is generalizing n with
  | nil => exact Nat.zero_le n
  | cons i is ih =>
    obtain ⟨hi, his⟩ := pairwise_cons.mp h
    have hlen := ih his hi
    have hlt := hn i mem_cons_self
    rw [length_cons]
    omega

/-! ### Tables of chains -/

/-- The first `n` nodes are linked: the chain of each bucket runs down through nodes of that
bucket, and through each of its nodes that counts.  `home i` is the bucket of node `i` where
it counts. -/
structure Table (next : Nat → Option Int) (heads : List Int) (home : Nat → Option Nat) (n : Nat)
    (chains : Nat → List Nat) : Prop where
  chain : ∀ {b : Nat} {head : Int}, heads[b]? = some head → Chain next head (chains b)
  sorted : ∀ {b : Nat}, b < heads.length → (chains b).Pairwise (· > ·)
  bound : ∀ {b i : Nat}, b < heads.length → i ∈ chains b → i < n
  own : ∀ {b i c : Nat}, b < heads.length → i ∈ chains b → home i = some c → c = b
  covers : ∀ {i b : Nat}, i < n → home i = some b → i ∈ chains b

variable {heads : List Int} {home home' : Nat → Option Nat} {n : Nat} {chains : Nat → List Nat}

/-- No node is linked. -/
theorem table_empty (next : Nat → Option Int) (home : Nat → Option Nat) (cap : Nat) :
    Table next (replicate cap (-1)) home 0 fun _ => [] where
  chain h := eq_of_mem_replicate (mem_of_getElem? h)
  sorted _ := List.Pairwise.nil
  bound _ h := nomatch h
  own _ h := nomatch h
  covers h := absurd h (Nat.not_lt_zero _)

section
variable (h : Table next heads home n chains)
include h

/-- A change that keeps the links of the nodes and gives no node a new home. -/
theorem Table.congr (hnext : ∀ i, i < n → next' i = next i)
    (hhome : ∀ i b, i < n → home' i = some b → home i = some b) :
    Table next' heads home' n chains where
  chain hb := by
    have hlt := (List.getElem?_eq_some_iff.mp hb).1
    exact (h.chain hb).congr fun i hi => hnext i (h.bound hlt hi)
  sorted := h.sorted
  bound := h.bound
  own hb hi hc := h.own hb hi (hhome _ _ (h.bound hb hi) hc)
  covers hi hb := h.covers hi (hhome _ _ hi hb)

/-- A node that does not count need not be linked. -/
theorem Table.skip (hn : home n = none) :
    Table next heads home (n + 1) chains where
  chain := h.chain
  sorted := h.sorted
  bound hb hi := Nat.lt_succ_of_lt (h.bound hb hi)
  own := h.own
  covers {i b} hi hb := by
    by_cases hin : i = n
    · subst hin
      rw [hn] at hb
      exact nomatch hb
    · exact h.covers (by omega) hb

/-- The next node is linked in front of the chain of its bucket. -/
theorem Table.link {b : Nat} {head : Int} (hb : heads[b]? = some head)
    (hnext : ∀ i, i < n → next' i = next i) (hn : next' n = some head)
    (hhome : ∀ i, i < n → home' i = home i) (hnb : home' n = some b) :
    Table next' (heads.set b n) home' (n + 1) (update chains b (n :: chains b)) := by
  have hlt : b < heads.length := (List.getElem?_eq_some_iff.mp hb).1
  have hlen : (heads.set b (n : Int)).length = heads.length := List.length_set
  have hold : ∀ {c : Nat} {hd : Int}, heads[c]? = some hd → Chain next' hd (chains c) := by
    intro c hd hc
    have hcl := (List.getElem?_eq_some_iff.mp hc).1
    exact (h.chain hc).congr fun i hi => hnext i (h.bound hcl hi)
  constructor
  · intro c hd hc
    by_cases hcb : c = b
    · subst hcb
      rw [getElem?_set_self hlt] at hc
      rw [update_self, ← Option.some.inj hc]
      exact ⟨rfl, head, hn, hold hb⟩
    · rw [getElem?_set_ne (Ne.symm hcb)] at hc
      rw [update_of_ne hcb]
      exact hold hc
  · intro c hc
    rw [hlen] at hc
    by_cases hcb : c = b
    · subst hcb
      rw [update_self]
      exact pairwise_cons.mpr ⟨fun i hi => h.bound hc hi, h.sorted hc⟩
    · rw [update_of_ne hcb]
      exact h.sorted hc
  · intro c i hc hi
    rw [hlen] at hc
    by_cases hcb : c = b
    · subst hcb
      rw [update_self] at hi
      rcases mem_cons.mp hi with rfl | hi
      · exact Nat.lt_succ_self _
      · exact Nat.lt_succ_of_lt (h.bound hc hi)
    · rw [update_of_ne hcb] at hi
      exact Nat.lt_succ_of_lt (h.bound hc hi)
  · intro c i d hc hi hd
    rw [hlen] at hc
    by_cases hcb : c = b
    · subst hcb
      rw [update_self] at hi
      rcases mem_cons.mp hi with rfl | hi
      · exact Option.some.inj (hd.symm.trans hnb)
      · rw [hhome i (h.bound hc hi)] at hd
        exact h.own hc hi hd
    · rw [update_of_ne hcb] at hi
      rw [hhome i (h.bound hc hi)] at hd
      exact h.own hc hi hd
  · intro i c hi hc
    by_cases hin : i = n
    · subst hin
      obtain rfl := Option.some.inj (hnb.symm.trans hc)
      rw [update_self]
      exact mem_cons_self
    · have hi' : i < n := by omega
      rw [hhome i hi'] at hc
      have hmem := h.covers hi' hc
      by_cases hcb : c = b
      · subst hcb
        rw [update_self]
        exact mem_cons_of_mem _ hmem
      · rw [update_of_ne hcb]
        exact hmem

/-- A chain has no more nodes than there are. -/
theorem Table.length_le {b : Nat} (hb : b < heads.length) :
    (chains b).length ≤ n := length_le_of_decreasing (h.sorted hb) fun _ hi => h.bound hb hi

end

end Chains
