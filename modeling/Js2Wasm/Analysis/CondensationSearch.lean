import Js2Wasm.Analysis.Condensation
import Js2Wasm.Lib.StronglyConnected

/-! # The search keeps its low links

Nodes on the component stack are reached by the frames below them (`frame_reach`).  A node on it
without a frame has a low link below its index, the index of a node on the stack that it reaches
(`low_lt`, `low_reach`).  And where an edge already looked at leads from a node to another on the
stack, a frame above has a low link that is not greater (`low_explored`): it may be one that the
low link has not come down to yet.

When the top frame is done and its low link is its own index, all nodes from it up reach it, and
no edge leaves them but to components closed before: they are the next component (`inv_close`).
-/
namespace Js2Wasm.Analysis
open StronglyConnected List Function

variable {α : Type}

def Search.idx (s : Search α) (v : α) : Nat := (s.indexByNode v).getD 0

/-- The nodes with frames, the top first. -/
def Search.path (s : Search α) : List α := s.searchStack.map SearchFrame.node

/-- The node is in a component already. -/
def Search.Done (s : Search α) (v : α) : Prop := s.indexByNode v ≠ none ∧ v ∉ s.componentStack

/-- An edge that has been looked at: its source has no frame, or one that has gone past it. -/
def Explored (succ : α → List α) (frames : List (SearchFrame α)) (x w : α) : Prop :=
  ∃ k, (succ x)[k]? = some w ∧ ∀ f ∈ frames, f.node = x → k < f.nextSuccessor

/-- The nodes with frames and those without a component yet, in the order of their indices. -/
structure Stacks (succ : α → List α) (s : Search α) : Prop where
  frame_succ : ∀ f ∈ s.searchStack, f.successors = succ f.node
  path_mem : ∀ v ∈ s.path, v ∈ s.componentStack
  path_desc : s.path.Pairwise fun u v => s.idx v < s.idx u
  stack_desc : s.componentStack.Pairwise fun u v => s.idx v < s.idx u
  stack_index : ∀ v ∈ s.componentStack, s.indexByNode v ≠ none
  index_lt : ∀ v, s.indexByNode v ≠ none → s.idx v < s.nextIndex
  explored_index : ∀ x w, s.indexByNode x ≠ none → Explored succ s.searchStack x w →
    s.indexByNode w ≠ none

/-- What the low links of the stack say, and what its frames reach. -/
structure LowLinks (succ : α → List α) (s : Search α) : Prop where
  low_le : ∀ v ∈ s.componentStack, s.lowLinkByNode v ≤ s.idx v
  low_reach : ∀ v ∈ s.componentStack, ∃ z ∈ s.componentStack,
    s.idx z = s.lowLinkByNode v ∧ Reach succ v z
  low_lt : ∀ v ∈ s.componentStack, v ∉ s.path → s.lowLinkByNode v < s.idx v
  low_explored : ∀ p ∈ s.path, ∀ x ∈ s.componentStack, s.idx p ≤ s.idx x →
    ∀ w ∈ s.componentStack, Explored succ s.searchStack x w →
      ∃ q ∈ s.path, s.idx p ≤ s.idx q ∧ s.lowLinkByNode q ≤ s.idx w
  frame_reach : ∀ p ∈ s.path, ∀ x ∈ s.componentStack, s.idx p ≤ s.idx x → Reach succ p x
  covered : ∀ x ∈ s.componentStack, ∃ p ∈ s.path, s.idx p ≤ s.idx x

/-- The components closed so far, and the nodes discovered. -/
structure Recorded (succ : α → List α) (roots : List α) (s : Search α) : Prop where
  done_closed : ∀ v, s.Done v → ∀ w ∈ succ v, s.Done w
  condensed : Condensed succ s.components
  mem_components : ∀ v, v ∈ s.components.flatten ↔ s.Done v
  reached : ∀ v, s.indexByNode v ≠ none → ∃ r ∈ roots, Reach succ r v
  adjacency_nodup : (s.adjacencyByNode.map Prod.fst).Nodup
  mem_adjacency : ∀ p, p ∈ s.adjacencyByNode ↔ s.indexByNode p.1 ≠ none ∧ p.2 = succ p.1

structure Inv (succ : α → List α) (roots : List α) (s : Search α) : Prop extends
  Stacks succ s, LowLinks succ s, Recorded succ roots s

section
variable {succ : α → List α} {roots : List α} {s : Search α} {u v w : α}
  {f : SearchFrame α} {frames : List (SearchFrame α)}

theorem inv_start : Inv succ roots (Search.start : Search α) where
  frame_succ _ h := nomatch h
  path_mem _ h := nomatch h
  path_desc := List.Pairwise.nil
  stack_desc := List.Pairwise.nil
  stack_index _ h := nomatch h
  index_lt _ h := absurd rfl h
  explored_index _ _ h := absurd rfl h
  done_closed _ h := absurd rfl h.1
  low_le _ h := nomatch h
  low_reach _ h := nomatch h
  low_lt _ h := nomatch h
  low_explored _ h := nomatch h
  frame_reach _ h := nomatch h
  covered _ h := nomatch h
  condensed := .nil
  mem_components _ := ⟨fun h => absurd h not_mem_nil, fun h => absurd rfl h.1⟩
  reached _ h := absurd rfl h
  adjacency_nodup := nodup_nil
  mem_adjacency _ := ⟨fun h => absurd h not_mem_nil, fun h => absurd rfl h.1⟩

theorem path_eq (hs : s.searchStack = f :: frames) :
    s.path = f.node :: frames.map SearchFrame.node := by
  rw [Search.path, hs, map_cons]

theorem top_mem_path (hs : s.searchStack = f :: frames) : f.node ∈ s.path := by
  rw [path_eq hs]
  exact mem_cons_self

section
variable (hs : s.searchStack = f :: frames)
include hs

theorem mem_path_of_below (hv : v ∈ frames.map SearchFrame.node) : v ∈ s.path := by
  rw [path_eq hs]
  exact mem_cons_of_mem _ hv

theorem mem_below_of_lt (hv : v ∈ s.path) (hlt : s.idx v < s.idx f.node) :
    v ∈ frames.map SearchFrame.node := by
  rw [path_eq hs] at hv
  exact (mem_cons.mp hv).resolve_left fun heq => absurd hlt (heq ▸ Nat.lt_irrefl _)

/-- Without the top frame no other node has more edges that have been looked at. -/
theorem explored_of_below {x : α} (hx : x ≠ f.node) (hw : Explored succ frames x w) :
    Explored succ s.searchStack x w := by
  obtain ⟨k, hk, hf⟩ := hw
  refine ⟨k, hk, fun g hg hgx => ?_⟩
  rw [hs] at hg
  rcases mem_cons.mp hg with rfl | hg
  · exact absurd hgx.symm hx
  · exact hf g hg hgx

end

section
variable (h : Inv succ roots s) (hs : s.searchStack = f :: frames)
include h hs

/-- The nodes of the frames below have smaller indices than the node of the top frame. -/
theorem Inv.idx_lt_top (hv : v ∈ frames.map SearchFrame.node) : s.idx v < s.idx f.node := by
  have hdesc := h.path_desc
  rw [path_eq hs] at hdesc
  exact (pairwise_cons.mp hdesc).1 v hv

theorem Inv.idx_le_top (hv : v ∈ s.path) : s.idx v ≤ s.idx f.node := by
  rw [path_eq hs] at hv
  rcases mem_cons.mp hv with rfl | hv
  · exact Nat.le_refl _
  · exact Nat.le_of_lt (h.idx_lt_top hs hv)

theorem Inv.below_desc : (frames.map SearchFrame.node).Pairwise fun u v => s.idx v < s.idx u := by
  have hdesc := h.path_desc
  rw [path_eq hs] at hdesc
  exact (pairwise_cons.mp hdesc).2

/-- The only frame from the top's index up is the top. -/
theorem Inv.eq_top (hv : v ∈ s.path) (hle : s.idx f.node ≤ s.idx v) : v = f.node := by
  rw [path_eq hs] at hv
  exact (mem_cons.mp hv).resolve_right fun hv =>
    absurd (h.idx_lt_top hs hv) (Nat.not_lt.mpr hle)

end

/-! ### A new node -/

/-- What the discovery of `w` changes. -/
structure Discovers (succ : α → List α) (s : Search α) (w : α) (t : Search α) : Prop where
  new : s.indexByNode w = none
  visited : ∀ v, t.indexByNode v ≠ none ↔ s.indexByNode v ≠ none ∨ v = w
  stack : t.componentStack = w :: s.componentStack
  path : t.path = w :: s.path
  next : t.nextIndex = s.nextIndex + 1
  idx_self : t.idx w = s.nextIndex
  idx_of_ne : ∀ v, v ≠ w → t.idx v = s.idx v
  low_self : t.lowLinkByNode w = s.nextIndex
  low_of_ne : ∀ v, v ≠ w → t.lowLinkByNode v = s.lowLinkByNode v
  frame_succ : ∀ f ∈ t.searchStack, f.successors = succ f.node
  explored : ∀ x v, Explored succ t.searchStack x v →
    x ≠ w ∧ (Explored succ s.searchStack x v ∨ v = w)

namespace Discovers
variable {t : Search α} (D : Discovers succ s w t)
include D

theorem done_iff (v : α) : t.Done v ↔ s.Done v := by
  rw [Search.Done, D.visited, D.stack, Search.Done, mem_cons, not_or]
  constructor
  · rintro ⟨hv | hv, hvw, hvs⟩
    · exact ⟨hv, hvs⟩
    · exact absurd hv hvw
  · exact fun hv => ⟨.inl hv.1, fun heq => hv.1 (heq ▸ D.new), hv.2⟩

theorem mem_stack (hv : v ∈ t.componentStack) (hvw : v ≠ w) : v ∈ s.componentStack := by
  rw [D.stack] at hv
  exact (mem_cons.mp hv).resolve_left hvw

variable (h : Inv succ roots s)
include h

theorem ne (hv : v ∈ s.componentStack) : v ≠ w := fun heq => h.stack_index v hv (heq ▸ D.new)

theorem idx_eq (hv : v ∈ s.componentStack) : t.idx v = s.idx v := D.idx_of_ne v (D.ne h hv)

/-- The new node has the greatest index. -/
theorem idx_lt (hv : v ∈ s.componentStack) : t.idx v < t.idx w := by
  rw [D.idx_eq h hv, D.idx_self]
  exact h.index_lt v (h.stack_index v hv)

/-- Below an old node there are old nodes only. -/
theorem mem_path (hu : u ∈ t.path) (hv : v ∈ s.componentStack) (hle : t.idx u ≤ t.idx v) :
    u ∈ s.path := by
  rw [D.path] at hu
  refine (mem_cons.mp hu).resolve_left fun heq => ?_
  exact absurd (D.idx_lt h hv) (Nat.not_lt.mpr (heq ▸ hle))

theorem pairwise {l : List α} (hl : l.Pairwise fun u v => s.idx v < s.idx u)
    (hsub : ∀ v ∈ l, v ∈ s.componentStack) : (w :: l).Pairwise fun u v => t.idx v < t.idx u := by
  refine pairwise_cons.mpr ⟨fun v hv => D.idx_lt h (hsub v hv), hl.imp_of_mem fun ha hb hab => ?_⟩
  rwa [D.idx_eq h (hsub _ ha), D.idx_eq h (hsub _ hb)]

theorem stacked : Stacks succ t where
  frame_succ := D.frame_succ
  path_mem := by
    rw [D.path, D.stack]
    exact forall_mem_cons.mpr ⟨mem_cons_self, fun v hv => mem_cons_of_mem _ (h.path_mem v hv)⟩
  path_desc := by
    rw [D.path]
    exact D.pairwise h h.path_desc h.path_mem
  stack_desc := by
    rw [D.stack]
    exact D.pairwise h h.stack_desc fun _ hv => hv
  stack_index v hv := by
    rw [D.stack] at hv
    exact (D.visited v).mpr ((mem_cons.mp hv).symm.imp_left (h.stack_index v))
  index_lt v hv := by
    rw [D.next]
    by_cases hvw : v = w
    · rw [hvw, D.idx_self]
      exact Nat.lt_succ_self _
    · rw [D.idx_of_ne v hvw]
      exact Nat.lt_succ_of_lt (h.index_lt v (((D.visited v).mp hv).resolve_right hvw))
  explored_index x v hx hv := by
    obtain ⟨hxw, hv⟩ := D.explored x v hv
    have hx := ((D.visited x).mp hx).resolve_right hxw
    exact (D.visited v).mpr (hv.imp_left (h.explored_index x v hx))

theorem lowLinks (hreach : ∀ p ∈ s.path, Reach succ p w) : LowLinks succ t where
  low_le v hv := by
    by_cases hvw : v = w
    · exact Nat.le_of_eq (hvw ▸ D.low_self.trans D.idx_self.symm)
    · rw [D.low_of_ne v hvw, D.idx_of_ne v hvw]
      exact h.low_le v (D.mem_stack hv hvw)
  low_reach v hv := by
    rw [D.stack]
    by_cases hvw : v = w
    · exact ⟨w, mem_cons_self, hvw ▸ D.idx_self.trans D.low_self.symm, hvw ▸ .refl⟩
    · obtain ⟨z, hz, hidxz, hr⟩ := h.low_reach v (D.mem_stack hv hvw)
      rw [D.low_of_ne v hvw]
      exact ⟨z, mem_cons_of_mem _ hz, (D.idx_eq h hz).trans hidxz, hr⟩
  low_lt v hv hvp := by
    rw [D.path, mem_cons, not_or] at hvp
    rw [D.low_of_ne v hvp.1, D.idx_of_ne v hvp.1]
    exact h.low_lt v (D.mem_stack hv hvp.1) hvp.2
  low_explored p hp x hx hpx v hv hxv := by
    obtain ⟨hxw, hxv⟩ := D.explored x v hxv
    have hxs := D.mem_stack hx hxw
    have hps := D.mem_path h hp hxs hpx
    rw [D.path]
    by_cases hvw : v = w
    · -- the new frame's low link is its index
      refine ⟨w, mem_cons_self, Nat.le_of_lt (D.idx_lt h (h.path_mem p hps)), Nat.le_of_eq ?_⟩
      rw [hvw, D.low_self, D.idx_self]
    · rw [D.idx_eq h (h.path_mem p hps), D.idx_eq h hxs] at hpx
      obtain ⟨q, hq, hpq, hlq⟩ := h.low_explored p hps x hxs hpx v (D.mem_stack hv hvw)
        (hxv.resolve_right hvw)
      have hqs := h.path_mem q hq
      refine ⟨q, mem_cons_of_mem _ hq, ?_, ?_⟩
      · rwa [D.idx_eq h (h.path_mem p hps), D.idx_eq h hqs]
      · rwa [D.low_of_ne q (D.ne h hqs), D.idx_of_ne v hvw]
  frame_reach p hp x hx hpx := by
    by_cases hxw : x = w
    · rw [D.path] at hp
      exact hxw ▸ (mem_cons.mp hp).elim (fun heq => heq ▸ .refl) (hreach p)
    · have hxs := D.mem_stack hx hxw
      have hps := D.mem_path h hp hxs hpx
      rw [D.idx_eq h (h.path_mem p hps), D.idx_eq h hxs] at hpx
      exact h.frame_reach p hps x hxs hpx
  covered x hx := by
    rw [D.path]
    by_cases hxw : x = w
    · exact ⟨w, mem_cons_self, Nat.le_of_eq (hxw ▸ rfl)⟩
    · have hxs := D.mem_stack hx hxw
      obtain ⟨p, hp, hpx⟩ := h.covered x hxs
      refine ⟨p, mem_cons_of_mem _ hp, ?_⟩
      rwa [D.idx_eq h (h.path_mem p hp), D.idx_eq h hxs]

theorem recorded (hroot : ∃ r ∈ roots, Reach succ r w) (hcomponents : t.components = s.components)
    (hadjacency : t.adjacencyByNode = s.adjacencyByNode ++ [(w, succ w)]) :
    Recorded succ roots t where
  done_closed v hv x hx := (D.done_iff x).mpr (h.done_closed v ((D.done_iff v).mp hv) x hx)
  condensed := hcomponents ▸ h.condensed
  mem_components v := by rw [D.done_iff, ← h.mem_components, hcomponents]
  reached v hv := ((D.visited v).mp hv).elim (h.reached v) fun heq => heq ▸ hroot
  adjacency_nodup := by
    rw [hadjacency, map_append, nodup_append']
    refine ⟨h.adjacency_nodup, nodup_singleton _, fun v hv hvw => ?_⟩
    obtain ⟨p, hp, rfl⟩ := mem_map.mp hv
    have hpw : p.1 = w := mem_singleton.mp hvw
    exact ((h.mem_adjacency p).mp hp).1 (hpw ▸ D.new)
  mem_adjacency p := by
    rw [hadjacency, mem_append, mem_singleton, h.mem_adjacency, D.visited]
    constructor
    · rintro (⟨h1, h2⟩ | rfl)
      · exact ⟨.inl h1, h2⟩
      · exact ⟨.inr rfl, rfl⟩
    · rintro ⟨h1 | h1, h2⟩
      · exact .inl ⟨h1, h2⟩
      · exact .inr (Prod.ext h1 (h2.trans (by rw [h1])))

end Discovers

variable [DecidableEq α]

/-- A node is discovered: from outside, or by the top frame as its next successor. -/
theorem inv_discover (h : Inv succ roots s) (hw : s.indexByNode w = none)
    {advanced : List (SearchFrame α)}
    (hpath : advanced.map SearchFrame.node = s.path)
    (hsucc : ∀ f ∈ advanced, f.successors = succ f.node)
    (hexplored : ∀ x v, Explored succ advanced x v → Explored succ s.searchStack x v ∨ v = w)
    (hreach : ∀ p ∈ s.path, Reach succ p w) (hroot : ∃ r ∈ roots, Reach succ r w) :
    Inv succ roots (Search.discover succ { s with searchStack := advanced } w) := by
  have D : Discovers succ s w (Search.discover succ { s with searchStack := advanced } w) :=
    { new := hw
      visited := fun v => by by_cases hv : v = w <;> simp [Search.discover, hv]
      stack := rfl
      path := congrArg (w :: ·) hpath
      next := rfl
      idx_self := by simp [Search.idx, Search.discover]
      idx_of_ne := fun v hv => by simp [Search.idx, Search.discover, hv]
      low_self := update_self ..
      low_of_ne := fun v hv => update_of_ne hv ..
      frame_succ := forall_mem_cons.mpr ⟨rfl, hsucc⟩
      explored := fun x v ⟨k, hk, hf⟩ =>
        ⟨fun heq => absurd (hf _ mem_cons_self heq.symm) (Nat.not_lt_zero k),
          hexplored x v ⟨k, hk, fun f hm => hf f (mem_cons_of_mem _ hm)⟩⟩ }
  exact ⟨D.stacked h, D.lowLinks h hreach, D.recorded h hroot rfl rfl⟩

omit [DecidableEq α] in
/-- The top frame goes past an edge to a node that was discovered before; its low link may come
down to a node on the stack that it reaches, and does so to the edge's target. -/
theorem inv_advance (h : Inv succ roots s) (hs : s.searchStack = f :: frames)
    {advanced : List (SearchFrame α)} (hpath : advanced.map SearchFrame.node = s.path)
    (hsucc : ∀ f ∈ advanced, f.successors = succ f.node)
    (hexplored : ∀ x v, Explored succ advanced x v →
      Explored succ s.searchStack x v ∨ x = f.node ∧ v = w)
    (hw : s.indexByNode w ≠ none) {low : α → Nat}
    (hother : ∀ v, v ≠ f.node → low v = s.lowLinkByNode v)
    (hle : low f.node ≤ s.lowLinkByNode f.node)
    (hlew : w ∈ s.componentStack → low f.node ≤ s.idx w)
    (hz : ∃ z ∈ s.componentStack, s.idx z = low f.node ∧ Reach succ f.node z) :
    Inv succ roots { s with searchStack := advanced, lowLinkByNode := low } := by
  have hlow : ∀ v, low v ≤ s.lowLinkByNode v := fun v => by
    by_cases hv : v = f.node
    · rwa [hv]
    · exact Nat.le_of_eq (hother v hv)
  have htop := top_mem_path hs
  have hto (v : α) : v ∈ advanced.map SearchFrame.node ↔ v ∈ s.path := by rw [hpath]
  exact {
    frame_succ := hsucc
    path_mem := fun v hv => h.path_mem v ((hto v).mp hv)
    path_desc := by
      show (advanced.map SearchFrame.node).Pairwise _
      rw [hpath]
      exact h.path_desc
    stack_desc := h.stack_desc
    stack_index := h.stack_index
    index_lt := h.index_lt
    explored_index := fun x v hx hv => (hexplored x v hv).elim (h.explored_index x v hx)
      fun heq => heq.2 ▸ hw
    low_le := fun v hv => Nat.le_trans (hlow v) (h.low_le v hv)
    low_reach := fun v hv => by
      by_cases hvf : v = f.node
      · rw [hvf]
        exact hz
      · obtain ⟨z, hz, hidx, hr⟩ := h.low_reach v hv
        exact ⟨z, hz, hidx.trans (hother v hvf).symm, hr⟩
    low_lt := fun v hv hvp =>
      Nat.lt_of_le_of_lt (hlow v) (h.low_lt v hv fun hmem => hvp ((hto v).mpr hmem))
    low_explored := fun p hp x hx hpx v hv hxv => by
      have hp := (hto p).mp hp
      rcases hexplored x v hxv with hxv | ⟨-, rfl⟩
      · obtain ⟨q, hq, hpq, hlq⟩ := h.low_explored p hp x hx hpx v hv hxv
        exact ⟨q, (hto q).mpr hq, hpq, Nat.le_trans (hlow q) hlq⟩
      · exact ⟨f.node, (hto _).mpr htop, h.idx_le_top hs hp, hlew hv⟩
    frame_reach := fun p hp => h.frame_reach p ((hto p).mp hp)
    covered := fun x hx => by
      obtain ⟨p, hp, hpx⟩ := h.covered x hx
      exact ⟨p, (hto p).mpr hp, hpx⟩
    toRecorded := { h.toRecorded with }
  }

/-! ### A frame that is done -/

section Finished
variable (h : Inv succ roots s) (hs : s.searchStack = f :: frames)
  (hend : f.successors[f.nextSuccessor]? = none)
include h hs hend

omit [DecidableEq α] in
/-- All edges of nodes from the top frame's node up have been looked at. -/
theorem explored_of_finished {x : α} (hle : x = f.node ∨ x ∉ s.path) (hw : w ∈ succ x) :
    Explored succ s.searchStack x w := by
  obtain ⟨k, hk, rfl⟩ := getElem_of_mem hw
  refine ⟨k, getElem?_eq_getElem hk, fun g hg hgx => ?_⟩
  have hgp : g.node ∈ s.path := mem_map_of_mem hg
  have hxf : x = f.node := hle.resolve_right fun hnot => hnot (hgx ▸ hgp)
  have hgf : g = f := by
    rw [hs] at hg
    rcases mem_cons.mp hg with rfl | hg
    · rfl
    · have := h.idx_lt_top hs (mem_map_of_mem hg)
      rw [hgx, hxf] at this
      exact absurd this (Nat.lt_irrefl _)
  rw [hgf]
  have hlen := getElem?_eq_none_iff.mp hend
  rw [h.frame_succ f (hs ▸ mem_cons_self), ← hxf] at hlen
  exact Nat.lt_of_lt_of_le hk hlen

omit [DecidableEq α] in
/-- Edges from the top frame's node up stay there or lead into components, when the low link has
not come down. -/
theorem segment_closed (hlow : s.lowLinkByNode f.node = s.idx f.node) {x : α}
    (hx : x ∈ s.componentStack) (hle : s.idx f.node ≤ s.idx x) (hw : w ∈ succ x) :
    (w ∈ s.componentStack ∧ s.idx f.node ≤ s.idx w) ∨ s.Done w := by
  have htop := top_mem_path hs
  have hxp : x = f.node ∨ x ∉ s.path := by
    by_cases hxp : x ∈ s.path
    · exact .inl (h.eq_top hs hxp hle)
    · exact .inr hxp
  have hexp := explored_of_finished h hs hend hxp hw
  by_cases hws : w ∈ s.componentStack
  · refine .inl ⟨hws, ?_⟩
    obtain ⟨q, hq, hpq, hlq⟩ := h.low_explored f.node htop x hx hle w hws hexp
    rwa [h.eq_top hs hq hpq, hlow] at hlq
  · exact .inr ⟨h.explored_index x w (h.stack_index x hx) hexp, hws⟩

end Finished

/-! ### A component -/

/-- The component stack from the top frame's node up, and below. -/
structure Segment (s : Search α) (root : α) (above below : List α) : Prop where
  stack_eq : s.componentStack = above ++ root :: below
  lt_above : ∀ x ∈ above, s.idx root < s.idx x
  below_lt : ∀ x ∈ below, s.idx x < s.idx root

omit [DecidableEq α] in
theorem exists_segment (h : Inv succ roots s) (hs : s.searchStack = f :: frames) :
    ∃ above below, Segment s f.node above below := by
  obtain ⟨above, below, heq⟩ := append_of_mem (h.path_mem _ (top_mem_path hs))
  have hdesc := h.stack_desc
  rw [heq] at hdesc
  obtain ⟨-, hbelow, hcross⟩ := pairwise_append.mp hdesc
  exact ⟨above, below, heq, fun x hx => hcross x hx _ mem_cons_self, (pairwise_cons.mp hbelow).1⟩

namespace Segment
variable {above below : List α} {root x : α} (S : Segment s root above below)
include S

omit [DecidableEq α]

theorem mem_iff : x ∈ above ++ [root] ↔ x ∈ s.componentStack ∧ s.idx root ≤ s.idx x := by
  rw [S.stack_eq, mem_append, mem_singleton, mem_append, mem_cons]
  constructor
  · rintro (hx | rfl)
    · exact ⟨.inl hx, Nat.le_of_lt (S.lt_above x hx)⟩
    · exact ⟨.inr (.inl rfl), Nat.le_refl _⟩
  · rintro ⟨hx | rfl | hx, hle⟩
    · exact .inl hx
    · exact .inr rfl
    · exact absurd (S.below_lt x hx) (Nat.not_lt.mpr hle)

theorem below_iff : x ∈ below ↔ x ∈ s.componentStack ∧ s.idx x < s.idx root := by
  constructor
  · intro hx
    rw [S.stack_eq]
    exact ⟨mem_append_right _ (mem_cons_of_mem _ hx), S.below_lt x hx⟩
  · rintro ⟨hx, hlt⟩
    rw [S.stack_eq, append_cons, mem_append] at hx
    refine hx.resolve_left fun hx => ?_
    exact absurd hlt (Nat.not_lt.mpr (S.mem_iff.mp hx).2)

theorem mem_stack (hx : x ∈ below) : x ∈ s.componentStack := (S.below_iff.mp hx).1

theorem not_done (hx : x ∈ above ++ [root]) : ¬ s.Done x := fun hd => hd.2 (S.mem_iff.mp hx).1

variable (h : Inv succ roots s)
include h

theorem nodup : (above ++ [root]).Nodup := by
  have hdesc := h.stack_desc
  rw [S.stack_eq, append_cons] at hdesc
  exact (pairwise_append.mp hdesc).1.imp fun hlt heq =>
    absurd (congrArg s.idx heq) (Nat.ne_of_gt hlt)

/-- Without the segment, what is done is what was and the segment. -/
theorem done_iff (v : α) :
    s.indexByNode v ≠ none ∧ v ∉ below ↔ s.Done v ∨ v ∈ above ++ [root] := by
  rw [S.below_iff, S.mem_iff, Search.Done, not_and, Nat.not_lt]
  constructor
  · rintro ⟨hv, hvb⟩
    by_cases hvs : v ∈ s.componentStack
    · exact .inr ⟨hvs, hvb hvs⟩
    · exact .inl ⟨hv, hvs⟩
  · rintro (⟨hv, hvs⟩ | ⟨hvs, hle⟩)
    · exact ⟨hv, fun hvb => absurd hvb hvs⟩
    · exact ⟨h.stack_index v hvs, fun _ => hle⟩

end Segment

section Closing
variable {above below : List α} (h : Inv succ roots s) (hs : s.searchStack = f :: frames)
  (hend : f.successors[f.nextSuccessor]? = none) (hlow : s.lowLinkByNode f.node = s.idx f.node)
  (S : Segment s f.node above below)
include h hs hend hlow S

omit [DecidableEq α]

/-- Edges from the segment stay in it or lead into components. -/
theorem segment_edge {x : α} (hx : x ∈ above ++ [f.node]) (hw : w ∈ succ x) :
    w ∈ above ++ [f.node] ∨ s.Done w := by
  obtain ⟨hxs, hle⟩ := S.mem_iff.mp hx
  exact (segment_closed h hs hend hlow hxs hle hw).imp_left S.mem_iff.mpr

theorem segment_strong (hu : u ∈ above ++ [f.node]) (v : α) :
    v ∈ above ++ [f.node] ↔ Reach succ u v ∧ Reach succ v u := by
  have hclosed : ∀ x, x ∈ above ++ [f.node] → ∀ y ∈ succ x, y ∈ above ++ [f.node] ∨ s.Done y :=
    fun x hx y hy => segment_edge h hs hend hlow S hx hy
  have hfrom (x : α) (hx : x ∈ above ++ [f.node]) : Reach succ f.node x :=
    h.frame_reach f.node (top_mem_path hs) x (S.mem_iff.mp hx).1 (S.mem_iff.mp hx).2
  have hto (x : α) (hx : x ∈ above ++ [f.node]) : Reach succ x f.node := by
    -- the low link of any other node is a smaller index
    refine reach_of_rank s.idx hclosed h.done_closed (fun x hx hne => ?_) hx
    obtain ⟨hxs, hle⟩ := S.mem_iff.mp hx
    obtain ⟨z, hz, hidx, hr⟩ := h.low_reach x hxs
    refine ⟨z, hr, fun hd => hd.2 hz, ?_⟩
    rw [hidx]
    exact h.low_lt x hxs fun hxp => hne (h.eq_top hs hxp hle)
  exact strong_of_root hclosed h.done_closed (fun x => S.not_done) hfrom hto hu v

/-- **A component.**  When the low link of the top frame's node has not come down, the nodes from
it up are the next component. -/
theorem inv_close : Inv succ roots { s with
    searchStack := frames
    componentStack := below
    components := s.components ++ [above ++ [f.node]] } := by
  have hpop (q : α) (hq : q ∈ s.path) (hlt : s.idx q < s.idx f.node) := mem_below_of_lt hs hq hlt
  have hsub (p : α) (hp : p ∈ frames.map SearchFrame.node) : p ∈ s.path := mem_path_of_below hs hp
  have hedge (x : α) (hx : x ∈ above ++ [f.node]) (y : α) (hy : y ∈ succ x) :=
    segment_edge h hs hend hlow S hx hy
  exact {
    frame_succ := fun g hg => h.frame_succ g (hs ▸ mem_cons_of_mem _ hg)
    path_mem := fun v hv => S.below_iff.mpr ⟨h.path_mem v (hsub v hv), h.idx_lt_top hs hv⟩
    path_desc := h.below_desc hs
    stack_desc := by
      have hdesc := h.stack_desc
      rw [S.stack_eq, append_cons] at hdesc
      exact (pairwise_append.mp hdesc).2.1
    stack_index := fun v hv => h.stack_index v (S.mem_stack hv)
    index_lt := h.index_lt
    explored_index := fun x w hx hxw => by
      by_cases hxf : x = f.node
      · obtain ⟨k, hk, -⟩ := hxw
        have hw : w ∈ succ f.node := hxf ▸ mem_of_getElem? hk
        rcases hedge _ mem_concat_self _ hw with hw | hw
        · exact h.stack_index w (S.mem_iff.mp hw).1
        · exact hw.1
      · exact h.explored_index x w hx (explored_of_below hs hxf hxw)
    low_le := fun v hv => h.low_le v (S.mem_stack hv)
    low_reach := fun v hv => by
      obtain ⟨z, hz, hidx, hr⟩ := h.low_reach v (S.mem_stack hv)
      refine ⟨z, S.below_iff.mpr ⟨hz, ?_⟩, hidx, hr⟩
      rw [hidx]
      exact Nat.lt_of_le_of_lt (h.low_le v (S.mem_stack hv)) (S.below_lt v hv)
    low_lt := fun v hv hvp =>
      h.low_lt v (S.mem_stack hv) fun hmem => hvp (hpop v hmem (S.below_lt v hv))
    low_explored := fun p hp x hx hpx w hw hxw => by
      have hxf : x ≠ f.node := fun heq => absurd (S.below_lt x hx) (heq ▸ Nat.lt_irrefl _)
      obtain ⟨q, hq, hpq, hlq⟩ := h.low_explored p (hsub p hp) x (S.mem_stack hx) hpx w
        (S.mem_stack hw) (explored_of_below hs hxf hxw)
      refine ⟨q, hpop q hq ?_, hpq, hlq⟩
      -- the frame is not the top one, whose low link is its index
      refine Nat.lt_of_le_of_ne (h.idx_le_top hs hq) fun heq => ?_
      rw [h.eq_top hs hq (Nat.le_of_eq heq.symm), hlow] at hlq
      exact absurd (S.below_lt w hw) (Nat.not_lt.mpr hlq)
    frame_reach := fun p hp x hx => h.frame_reach p (hsub p hp) x (S.mem_stack hx)
    covered := fun x hx => by
      obtain ⟨p, hp, hpx⟩ := h.covered x (S.mem_stack hx)
      exact ⟨p, hpop p hp (Nat.lt_of_le_of_lt hpx (S.below_lt x hx)), hpx⟩
    done_closed := fun v hv w hw => (S.done_iff h w).mpr <|
      ((S.done_iff h v).mp hv).elim (fun hv => .inl (h.done_closed v hv w hw))
        fun hv => (hedge v hv w hw).symm
    condensed := by
      refine h.condensed.push (by simp) (S.nodup h)
        (fun x hx hxc => S.not_done hx ((h.mem_components x).mp hxc))
        (fun u hu => segment_strong h hs hend hlow S hu) fun u hu v hr => ?_
      exact (hr.closed_or_done hedge h.done_closed hu).imp_right (h.mem_components v).mpr
    mem_components := fun v => by
      rw [flatten_append, flatten_singleton, mem_append, h.mem_components]
      exact (S.done_iff h v).symm
    reached := h.reached
    adjacency_nodup := h.adjacency_nodup
    mem_adjacency := h.mem_adjacency
  }

end Closing

/-- A frame below takes over the low link of a node that stays on the stack. -/
theorem inv_hand_down (h : Inv succ roots s) (hs : s.searchStack = f :: frames)
    (hend : f.successors[f.nextSuccessor]? = none)
    (hlt : s.lowLinkByNode f.node ≠ s.idx f.node) {parent : SearchFrame α}
    {rest : List (SearchFrame α)} (hframes : frames = parent :: rest) :
    Inv succ roots (Search.lower { s with searchStack := frames } parent.node
      (s.lowLinkByNode f.node)) := by
  have htop := h.path_mem _ (top_mem_path hs)
  have hsub (p : α) (hp : p ∈ frames.map SearchFrame.node) : p ∈ s.path := mem_path_of_below hs hp
  have hparent : parent.node ∈ frames.map SearchFrame.node := by
    rw [hframes]
    exact mem_cons_self
  have hparent_lt := h.idx_lt_top hs hparent
  have hle_parent : ∀ p ∈ frames.map SearchFrame.node, s.idx p ≤ s.idx parent.node := by
    intro p hp
    have hdesc := h.below_desc hs
    rw [hframes] at hdesc hp
    rcases mem_cons.mp hp with rfl | hp
    · exact Nat.le_refl _
    · exact Nat.le_of_lt ((pairwise_cons.mp hdesc).1 p hp)
  obtain ⟨low, hlow⟩ : ∃ low, low = update s.lowLinkByNode parent.node
      (min (s.lowLinkByNode parent.node) (s.lowLinkByNode f.node)) := ⟨_, rfl⟩
  have hself : low parent.node =
      min (s.lowLinkByNode parent.node) (s.lowLinkByNode f.node) := by rw [hlow, update_self]
  have hother : ∀ v, v ≠ parent.node → low v = s.lowLinkByNode v := fun v hv => by
    rw [hlow, update_of_ne hv]
  have hlow_le : ∀ v, low v ≤ s.lowLinkByNode v := fun v => by
    by_cases hv : v = parent.node
    · rw [hv, hself]
      exact Nat.min_le_left _ _
    · exact Nat.le_of_eq (hother v hv)
  have hexplored : ∀ x w, Explored succ frames x w → Explored succ s.searchStack x w := by
    intro x w hxw
    by_cases hxf : x = f.node
    · obtain ⟨k, hk, -⟩ := hxw
      exact explored_of_finished h hs hend (.inl hxf) (mem_of_getElem? hk)
    · exact explored_of_below hs hxf hxw
  show Inv succ roots { s with searchStack := frames, lowLinkByNode := update _ _ _ }
  rw [← hlow]
  exact {
    frame_succ := fun g hg => h.frame_succ g (hs ▸ mem_cons_of_mem _ hg)
    path_mem := fun v hv => h.path_mem v (hsub v hv)
    path_desc := h.below_desc hs
    stack_desc := h.stack_desc
    stack_index := h.stack_index
    index_lt := h.index_lt
    explored_index := fun x w hx hxw => h.explored_index x w hx (hexplored x w hxw)
    low_le := fun v hv => Nat.le_trans (hlow_le v) (h.low_le v hv)
    low_reach := fun v hv => by
      by_cases hvp : v = parent.node
      · rw [hvp]
        show ∃ z ∈ s.componentStack, s.idx z = low parent.node ∧ Reach succ parent.node z
        rw [hself]
        rcases Nat.le_total (s.lowLinkByNode parent.node) (s.lowLinkByNode f.node) with hle | hle
        · rw [Nat.min_eq_left hle]
          exact h.low_reach parent.node (hvp ▸ hv)
        · -- the parent reaches the node, and the node what its low link stands for
          rw [Nat.min_eq_right hle]
          obtain ⟨z, hz, hidxz, hr⟩ := h.low_reach f.node htop
          exact ⟨z, hz, hidxz, (h.frame_reach parent.node (hsub _ hparent) f.node htop
            (Nat.le_of_lt hparent_lt)).trans hr⟩
      · obtain ⟨z, hz, hidxz, hr⟩ := h.low_reach v hv
        exact ⟨z, hz, hidxz.trans (hother v hvp).symm, hr⟩
    low_lt := fun v hv hvp => by
      refine Nat.lt_of_le_of_lt (hlow_le v) ?_
      by_cases hvf : v = f.node
      · rw [hvf]
        exact Nat.lt_of_le_of_ne (h.low_le _ htop) hlt
      · refine h.low_lt v hv fun hmem => ?_
        rw [path_eq hs] at hmem
        exact hvp ((mem_cons.mp hmem).resolve_left hvf)
    low_explored := fun p hp x hx hpx w hw hxw => by
      obtain ⟨q, hq, hpq, hlq⟩ := h.low_explored p (hsub p hp) x hx hpx w hw (hexplored x w hxw)
      rw [path_eq hs] at hq
      rcases mem_cons.mp hq with rfl | hq
      · refine ⟨parent.node, hparent, hle_parent p hp, ?_⟩
        exact Nat.le_trans (Nat.le_of_eq hself) (Nat.le_trans (Nat.min_le_right _ _) hlq)
      · exact ⟨q, hq, hpq, Nat.le_trans (hlow_le q) hlq⟩
    frame_reach := fun p hp => h.frame_reach p (hsub p hp)
    covered := fun x hx => by
      obtain ⟨p, hp, hpx⟩ := h.covered x hx
      rw [path_eq hs] at hp
      rcases mem_cons.mp hp with rfl | hp
      · exact ⟨parent.node, hparent, Nat.le_of_lt (Nat.lt_of_lt_of_le hparent_lt hpx)⟩
      · exact ⟨p, hp, hpx⟩
    toRecorded := { h.toRecorded with }
  }

end

end Js2Wasm.Analysis
