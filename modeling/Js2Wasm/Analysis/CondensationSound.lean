import Js2Wasm.Analysis.CondensationSearch
import Mathlib.Algebra.BigOperators.Group.Finset.Piecewise
import Mathlib.Algebra.GroupWithZero.Nat

/-! # Condensation is correct

Each round of the search keeps the invariant and lowers a count of what is left to do: the edges
of the nodes not yet discovered and of the frames (`step_total`).  A search from a root ends with
empty stacks, so in the end every discovered node is in a component; then the numbering and the
collected edges say of the components what the graph says of their nodes.
-/
namespace Js2Wasm.Analysis
open StronglyConnected List Function

variable {α : Type} [DecidableEq α] {succ : α → List α} {roots : List α} {s : Search α}

/-! ### One round -/

/-- What is left to do. -/
def Search.work (succ : α → List α) (nodes : Finset α) (s : Search α) : Nat :=
  (∑ v ∈ nodes, if s.indexByNode v = none then (succ v).length + 1 else 0) +
    (s.searchStack.map fun f => f.successors.length - f.nextSuccessor + 1).sum

/-- The graph's part that the search can come to. -/
structure Within (succ : α → List α) (roots : List α) (nodes : Finset α) : Prop where
  roots : ∀ r ∈ roots, r ∈ nodes
  closed : ∀ u ∈ nodes, ∀ v ∈ succ u, v ∈ nodes

variable {nodes : Finset α} {r : α}

omit [DecidableEq α] in
theorem Within.reach (hn : Within succ roots nodes) {v : α} (hr : r ∈ roots) (h : Reach succ r v) :
    v ∈ nodes := by
  induction h with
  | refl => exact hn.roots r hr
  | tail _ hedge ih => exact hn.closed _ ih _ hedge

theorem indexByNode_discover (w : α) : (s.discover succ w).indexByNode =
    update s.indexByNode w (some s.nextIndex) := rfl

theorem work_discover {w : α} (hw : w ∈ nodes) (hnone : s.indexByNode w = none) :
    (s.discover succ w).work succ nodes = s.work succ nodes := by
  have hsum : (∑ v ∈ nodes, if (s.discover succ w).indexByNode v = none then (succ v).length + 1
      else 0) + ((succ w).length + 1) =
      ∑ v ∈ nodes, if s.indexByNode v = none then (succ v).length + 1 else 0 := by
    have hsame : ∀ v ∈ nodes.erase w,
        (if (s.discover succ w).indexByNode v = none then (succ v).length + 1 else 0) =
          if s.indexByNode v = none then (succ v).length + 1 else 0 := fun v hv => by
      rw [indexByNode_discover, update_of_ne (Finset.mem_erase.mp hv).1]
    rw [← Finset.sum_erase_add _ _ hw, ← Finset.sum_erase_add nodes _ hw, hnone,
      Finset.sum_congr rfl hsame, indexByNode_discover, update_self]
    rfl
  rw [Search.work, Search.work, ← hsum]
  simp only [Search.discover, map_cons, sum_cons]
  lia

omit [DecidableEq α] in
/-- The members popped are those down to the node. -/
theorem popComponent_eq {indexByNode : α → Option Nat} {node : α} {above below : List α}
    (h : ∀ m ∈ above, indexByNode m ≠ indexByNode node) :
    popComponent indexByNode node (above ++ node :: below) = (above ++ [node], below) := by
  induction above with
  | nil => exact if_pos rfl
  | cons m above ih =>
    rw [cons_append, popComponent, if_neg (h m mem_cons_self),
      ih fun m' hm' => h m' (mem_cons_of_mem _ hm')]
    rfl

section
variable {f : SearchFrame α} {frames : List (SearchFrame α)}

variable {v w : α}

omit [DecidableEq α] in
theorem Inv.index_eq (h : Inv succ roots s) (hv : v ∈ s.componentStack) :
    s.indexByNode v = some (s.idx v) := by
  obtain ⟨i, hi⟩ := Option.ne_none_iff_exists'.mp (h.stack_index v hv)
  rw [Search.idx, hi]
  rfl

omit [DecidableEq α] in
/-- Going past an edge only that edge is looked at. -/
theorem explored_advance (h : Inv succ roots s) (hs : s.searchStack = f :: frames)
    (hw : f.successors[f.nextSuccessor]? = some w) {x : α}
    (hx : Explored succ ({ f with nextSuccessor := f.nextSuccessor + 1 } :: frames) x v) :
    Explored succ s.searchStack x v ∨ x = f.node ∧ v = w := by
  obtain ⟨k, hk, hall⟩ := hx
  by_cases hlast : x = f.node ∧ k = f.nextSuccessor
  · refine .inr ⟨hlast.1, ?_⟩
    rw [h.frame_succ f (hs ▸ mem_cons_self), ← hlast.1, ← hlast.2, hk] at hw
    exact Option.some.inj hw
  · refine .inl ⟨k, hk, fun g hg hgx => ?_⟩
    rw [hs] at hg
    rcases mem_cons.mp hg with rfl | hg
    · have hlt : k < g.nextSuccessor + 1 := hall _ mem_cons_self hgx
      lia
    · exact hall g (mem_cons_of_mem _ hg) hgx

/-- A frame with a successor left. -/
theorem step_successor {nodes : Finset α} (hn : Within succ roots nodes) (h : Inv succ roots s)
    (hs : s.searchStack = f :: frames) (hw : f.successors[f.nextSuccessor]? = some w) :
    ∃ s', s.step succ = some s' ∧ Inv succ roots s' ∧ s'.work succ nodes < s.work succ nodes := by
  have hpath : ({ f with nextSuccessor := f.nextSuccessor + 1 } :: frames).map SearchFrame.node =
      s.path := (path_eq hs).symm
  have hsucc : ∀ g ∈ ({ f with nextSuccessor := f.nextSuccessor + 1 } :: frames : List _),
      g.successors = succ g.node := by
    intro g hg
    rcases mem_cons.mp hg with rfl | hg
    · exact h.frame_succ f (hs ▸ mem_cons_self)
    · exact h.frame_succ g (hs ▸ mem_cons_of_mem _ hg)
  have hexplored := fun x v => explored_advance h hs hw (x := x) (v := v)
  have htop := h.path_mem _ (top_mem_path hs)
  have hedge : w ∈ succ f.node := by
    rw [← h.frame_succ f (hs ▸ mem_cons_self)]
    exact mem_of_getElem? hw
  have hlen := (List.getElem?_eq_some_iff.mp hw).1
  have hwork (low : α → Nat) : Search.work succ nodes { s with
      searchStack := { f with nextSuccessor := f.nextSuccessor + 1 } :: frames
      lowLinkByNode := low } < s.work succ nodes := by
    simp only [Search.work, hs, map_cons, sum_cons]
    lia
  rw [Search.step, hs]
  simp only [hw]
  rcases hi : s.indexByNode w with _ | i
  · obtain ⟨r, hr, hrf⟩ := h.reached f.node (h.stack_index _ htop)
    refine ⟨_, rfl, inv_discover h hi hpath hsucc
      (fun x v hx => (hexplored x v hx).imp_right And.right)
      (fun p hp => ?_) ⟨r, hr, hrf.tail hedge⟩, ?_⟩
    · exact (h.frame_reach p hp f.node htop (h.idx_le_top hs hp)).tail hedge
    · exact Nat.lt_of_le_of_lt
        (Nat.le_of_eq (work_discover (hn.reach hr (hrf.tail hedge)) hi)) (hwork _)
  · have hvisited : s.indexByNode w ≠ none := by
      rw [hi]
      exact Option.some_ne_none i
    simp only
    split_ifs with hmem
    · have hidx : s.idx w = i := by
        rw [Search.idx, hi]
        rfl
      refine ⟨_, rfl, ?_, hwork _⟩
      refine inv_advance h hs hpath hsucc hexplored hvisited
        (fun v hv => update_of_ne hv _ _)
        ?_ (fun _ => ?_) ?_
      · rw [update_self]
        exact Nat.min_le_left _ _
      · rw [update_self, hidx]
        exact Nat.min_le_right _ _
      · rw [update_self]
        rcases Nat.le_total (s.lowLinkByNode f.node) i with hle | hle
        · rw [Nat.min_eq_left hle]
          exact h.low_reach f.node htop
        · rw [Nat.min_eq_right hle]
          exact ⟨w, hmem, hidx, .edge hedge⟩
    · refine ⟨_, rfl, ?_, hwork s.lowLinkByNode⟩
      exact inv_advance h hs hpath hsucc hexplored hvisited (fun _ _ => rfl) .refl
        (fun hw => absurd hw hmem) (h.low_reach f.node htop)

/-- A frame with no successor left. -/
theorem step_finished (nodes : Finset α) (h : Inv succ roots s)
    (hs : s.searchStack = f :: frames) (hend : f.successors[f.nextSuccessor]? = none) :
    ∃ s', s.step succ = some s' ∧ Inv succ roots s' ∧ s'.work succ nodes < s.work succ nodes := by
  have htop := h.path_mem _ (top_mem_path hs)
  have hwork (t : Search α) (hindex : t.indexByNode = s.indexByNode)
      (hsearch : t.searchStack = frames) : t.work succ nodes < s.work succ nodes := by
    rw [Search.work, Search.work, hindex, hsearch, hs, map_cons, sum_cons]
    lia
  rw [Search.step, hs]
  simp only [hend, Search.close]
  have hclose : some (s.lowLinkByNode f.node) = s.indexByNode f.node ↔
      s.lowLinkByNode f.node = s.idx f.node := by
    rw [h.index_eq htop, Option.some_inj]
  simp only [hclose]
  by_cases hlow : s.lowLinkByNode f.node = s.idx f.node
  · obtain ⟨above, below, S⟩ := exists_segment h hs
    have hpop : popComponent s.indexByNode f.node s.componentStack =
        (above ++ [f.node], below) := by
      rw [S.stack_eq]
      refine popComponent_eq fun m hm heq => ?_
      have hmem := (S.mem_iff.mp (mem_append_left _ hm)).1
      rw [h.index_eq hmem, h.index_eq htop, Option.some_inj] at heq
      exact absurd (S.lt_above m hm) (by lia)
    have hinv := inv_close h hs hend hlow S
    simp only [if_pos hlow, hpop]
    rcases frames with _ | ⟨parent, rest⟩
    · exact ⟨_, rfl, hinv, hwork _ rfl rfl⟩
    · -- the parent's low link is below the index of what was closed
      have hparent : parent.node ∈ (parent :: rest).map SearchFrame.node := mem_cons_self
      have hmem := h.path_mem _ (mem_path_of_below hs hparent)
      have hlt := h.idx_lt_top hs hparent
      have hle := h.low_le _ hmem
      have hmin : min (s.lowLinkByNode parent.node) (s.lowLinkByNode f.node) =
          s.lowLinkByNode parent.node := Nat.min_eq_left (by lia)
      refine ⟨_, rfl, ?_, hwork _ rfl rfl⟩
      rw [Search.lower, hmin, update_eq_self]
      exact hinv
  · simp only [if_neg hlow]
    rcases frames with _ | ⟨parent, rest⟩
    · -- the only frame's node has the least index of the stack
      obtain ⟨z, hz, hidx, -⟩ := h.low_reach f.node htop
      obtain ⟨p, hp, hpz⟩ := h.covered z hz
      rw [path_eq hs] at hp
      have hpf : p = f.node := mem_singleton.mp hp
      have hle := h.low_le f.node htop
      rw [hpf] at hpz
      exact absurd hlow (by lia)
    · exact ⟨_, rfl, inv_hand_down h hs hend hlow rfl, hwork _ rfl rfl⟩

end

variable {sets : List (List Nat)} {fuel i n : Nat} {edges : ComponentEdges} {P : Nat → Nat → Prop}
    {components : List (List α)} {v : α} {componentByNode : α → Option Nat} {nodes : Finset α}

/-- **One round** keeps the invariant and leaves less to do. -/
theorem step_total (hn : Within succ roots nodes) (h : Inv succ roots s)
    (hs : (!s.searchStack.isEmpty) = true) :
    ∃ s', s.step succ = some s' ∧ Inv succ roots s' ∧ s'.work succ nodes < s.work succ nodes := by
  rcases hframes : s.searchStack with _ | ⟨f, frames⟩
  · rw [hframes] at hs
    cases hs
  · rcases hw : f.successors[f.nextSuccessor]? with _ | w
    · exact step_finished nodes h hframes hw
    · exact step_successor hn h hframes hw

/-! ### All roots -/

/-- Between two roots the stacks are empty. -/
structure Between (succ : α → List α) (done : List α) (s : Search α) : Prop where
  searchStack : s.searchStack = []
  inv : Inv succ done s
  roots : ∀ r ∈ done, s.indexByNode r ≠ none

omit [DecidableEq α] in
theorem Inv.mono {more : List α} (h : Inv succ roots s) (hsub : ∀ r ∈ roots, r ∈ more) :
    Inv succ more s :=
  { h with
    reached := fun v hv => by
      obtain ⟨r, hr, hreach⟩ := h.reached v hv
      exact ⟨r, hsub r hr, hreach⟩ }

omit [DecidableEq α] in
theorem Between.componentStack (h : Between succ roots s) : s.componentStack = [] := by
  refine eq_nil_iff_forall_not_mem.mpr fun x hx => ?_
  obtain ⟨p, hp, -⟩ := h.inv.covered x hx
  rw [Search.path, h.searchStack] at hp
  cases hp

/-- A discovered node stays discovered. -/
theorem step_indexByNode {t : Search α} (h : s.step succ = some t) (hv : s.indexByNode v ≠ none) :
    t.indexByNode v ≠ none := by
  have hclose (u : Search α) (w : α) : (u.close w).indexByNode = u.indexByNode := by
    rw [Search.close]
    split <;> rfl
  rw [Search.step] at h
  rcases hs : s.searchStack with _ | ⟨f, frames⟩
  · rw [hs] at h
    cases h
  · rw [hs] at h
    rcases hw : f.successors[f.nextSuccessor]? with _ | w
    · simp only [hw] at h
      rcases frames with _ | ⟨parent, rest⟩
      · cases h
        rw [hclose]
        exact hv
      · cases h
        rw [Search.lower, hclose]
        exact hv
    · simp only [hw] at h
      rcases hi : s.indexByNode w with _ | i
      · simp only [hi] at h
        cases h
        have hne : v ≠ w := fun heq => hv (heq ▸ hi)
        rw [indexByNode_discover, update_of_ne hne]
        exact hv
      · simp only [hi] at h
        split_ifs at h
        all_goals
          cases h
          exact hv

/-- The search from one root ends, with empty stacks. -/
theorem fromRoot_total {done : List α} (hn : Within succ (done ++ [r]) nodes)
    (h : Between succ done s) (hfuel : s.work succ nodes ≤ fuel) :
    ∃ t, Search.fromRoot succ fuel s r = some t ∧ Between succ (done ++ [r]) t ∧
      t.work succ nodes ≤ s.work succ nodes := by
  have hsub : ∀ r' ∈ done, r' ∈ done ++ [r] := fun r' hr' => mem_append_left _ hr'
  have hr : r ∈ done ++ [r] := mem_append_right _ (mem_singleton_self r)
  rw [Search.fromRoot]
  rcases hi : s.indexByNode r with _ | i
  · rw [if_neg (by simp)]
    have hstart : Inv succ (done ++ [r]) (s.discover succ r) := by
      refine inv_discover (h.inv.mono hsub) hi rfl (fun f hf => ?_) (fun x v hx => .inl hx)
        (fun p hp => ?_) ⟨r, hr, .refl⟩
      · exact h.inv.frame_succ f hf
      · rw [Search.path, h.searchStack] at hp
        cases hp
    have hroots : ∀ r' ∈ done ++ [r], (s.discover succ r).indexByNode r' ≠ none := by
      intro r' hr'
      by_cases heq : r' = r
      · rw [heq, indexByNode_discover, update_self]
        exact Option.some_ne_none _
      · rw [indexByNode_discover, update_of_ne heq]
        refine h.roots r' ((mem_append.mp hr').resolve_right fun hmem => ?_)
        exact heq (mem_singleton.mp hmem)
    have hwork : (s.discover succ r).work succ nodes = s.work succ nodes :=
      work_discover (hn.roots r hr) hi
    obtain ⟨t, ht, ⟨hinv, hvisited, hle⟩, hend⟩ := Loop.run_total
      (fun s : Search α => !s.searchStack.isEmpty) (Search.step succ)
      (fun t => Inv succ (done ++ [r]) t ∧ (∀ r' ∈ done ++ [r], t.indexByNode r' ≠ none) ∧
        t.work succ nodes ≤ s.work succ nodes)
      (Search.work succ nodes) (fun t hinvt hne => by
        obtain ⟨hinv, hvisited, hle⟩ := hinvt
        obtain ⟨t', ht', hinv', hlt⟩ := step_total hn hinv hne
        exact ⟨t', ht', ⟨hinv', fun r' hr' => step_indexByNode ht' (hvisited r' hr'), by lia⟩,
          hlt⟩)
      fuel (s.discover succ r) ⟨hstart, hroots, hwork.le⟩ (by lia)
    refine ⟨t, ht, ⟨?_, hinv, hvisited⟩, hle⟩
    simpa using hend
  · rw [if_pos (by rfl)]
    refine ⟨s, rfl, ⟨h.searchStack, h.inv.mono hsub, fun r' hr' => ?_⟩, le_rfl⟩
    rcases mem_append.mp hr' with hr' | hr'
    · exact h.roots r' hr'
    · rw [mem_singleton.mp hr', hi]
      exact Option.some_ne_none i

/-- **The searches from all roots end.** -/
theorem fromRoots_total (hn : Within succ roots nodes)
    (hfuel : (Search.start : Search α).work succ nodes ≤ fuel) :
    ∃ t, roots.foldlM (Search.fromRoot succ fuel) Search.start = some t ∧
      Between succ roots t := by
  obtain ⟨t, ht, hbetween, -⟩ := Loop.forEach_total (f := Search.fromRoot succ fuel)
    (fun done s => Between succ done s ∧ s.work succ nodes ≤ fuel) roots
    (s := Search.start) ⟨⟨rfl, inv_start, fun r hr => nomatch hr⟩, hfuel⟩
    (fun done r rest s heq ⟨hbetween, hle⟩ => by
      have hn' : Within succ (done ++ [r]) nodes :=
        { hn with
          roots := fun r' hr' => by
            refine hn.roots r' ?_
            rw [heq, ← singleton_append, ← append_assoc]
            exact mem_append_left _ hr' }
      obtain ⟨t, ht, hbetween', hle'⟩ := fromRoot_total hn' hbetween hle
      exact ⟨t, ht, hbetween', hle'.trans hle⟩)
  exact ⟨t, ht, hbetween⟩

/-! ### Numbers and edges -/

theorem foldl_update (c : List α) (m : α → Option Nat) (i : Nat) (v : α) :
    c.foldl (fun m node => update m node (some i)) m v =
      if v ∈ c then some i else m v := by
  induction c generalizing m with
  | nil => rfl
  | cons u c ih =>
    rw [foldl_cons, ih]
    by_cases hvc : v ∈ c
    · rw [if_pos hvc, if_pos (mem_cons_of_mem _ hvc)]
    · rw [if_neg hvc]
      by_cases hvu : v = u
      · rw [hvu, update_self, if_pos mem_cons_self]
      · rw [update_of_ne hvu,
          if_neg fun h => (mem_cons.mp h).elim hvu hvc]

theorem numberComponents_of_not_mem (hv : v ∉ components.flatten) (k : Nat) (m : α → Option Nat) :
    numberComponents k components m v = m v := by
  induction components generalizing k m with
  | nil => rfl
  | cons c components ih =>
    rw [flatten_cons, mem_append, not_or] at hv
    rw [numberComponents, ih hv.2, foldl_update, if_neg hv.1]

/-- Every node of a component gets the component's number. -/
theorem numberComponents_eq (hnodup : components.flatten.Nodup) {j : Nat}
    (hj : j < components.length) (hv : v ∈ components[j]) (k : Nat) (m : α → Option Nat) :
    numberComponents k components m v = some (k + j) := by
  induction components generalizing j k m with
  | nil => exact absurd hj (Nat.not_lt_zero _)
  | cons c components ih =>
    rw [flatten_cons, nodup_append'] at hnodup
    rw [numberComponents]
    cases j with
    | zero =>
      have hv : v ∈ c := hv
      rw [numberComponents_of_not_mem (hnodup.2.2 hv), foldl_update, if_pos hv]
      rfl
    | succ j =>
      rw [ih hnodup.2.1 (Nat.lt_of_succ_lt_succ hj) hv]
      congr 1
      lia

theorem numberComponents_iff (hnodup : components.flatten.Nodup) (v : α) (i : Nat) :
    numberComponents 0 components (fun _ => none) v = some i ↔
      ∃ h : i < components.length, v ∈ components[i] := by
  constructor
  · intro h
    by_cases hv : v ∈ components.flatten
    · obtain ⟨c, hc, hvc⟩ := mem_flatten.mp hv
      obtain ⟨j, hj, rfl⟩ := getElem_of_mem hc
      rw [numberComponents_eq hnodup hj hvc, Nat.zero_add] at h
      cases h
      exact ⟨hj, hvc⟩
    · rw [numberComponents_of_not_mem hv] at h
      cases h
  · rintro ⟨hi, hv⟩
    rw [numberComponents_eq hnodup hi hv, Nat.zero_add]

theorem length_addTo (sets : List (List Nat)) (i x : Nat) :
    (addTo sets i x).length = sets.length := length_modify _ _ _

theorem getD_addTo (hi : i < sets.length) (x k : Nat) :
    (addTo sets i x).getD k [] =
      if i = k then if x ∈ sets.getD k [] then sets.getD k [] else sets.getD k [] ++ [x]
      else sets.getD k [] := by
  rw [addTo, getD_eq_getElem?_getD, getElem?_modify, getD_eq_getElem?_getD]
  by_cases hik : i = k
  · rw [← hik, getElem?_eq_getElem hi]
    simp
  · simp [hik]

theorem mem_addTo (hi : i < sets.length) (x k y : Nat) :
    y ∈ (addTo sets i x).getD k [] ↔ y ∈ sets.getD k [] ∨ k = i ∧ y = x := by
  rw [getD_addTo hi]
  by_cases hik : i = k
  · by_cases hx : x ∈ sets.getD k []
    · rw [if_pos hik, if_pos hx]
      exact ⟨.inl, fun h => h.elim id fun h => h.2 ▸ hx⟩
    · rw [if_pos hik, if_neg hx, mem_append, mem_singleton]
      simp [hik]
  · rw [if_neg hik]
    exact ⟨.inl, fun h => h.elim id fun h => absurd h.1.symm hik⟩

theorem nodup_addTo (hi : i < sets.length) (x : Nat) {k : Nat} (h : (sets.getD k []).Nodup) :
    ((addTo sets i x).getD k []).Nodup := by
  rw [getD_addTo hi]
  split_ifs with hik hx
  · exact h
  · exact nodup_append'.mpr ⟨h, nodup_singleton _, fun y hy hyx =>
      hx (mem_singleton.mp hyx ▸ hy)⟩
  · exact h

/-- The sets hold the pairs of a relation between `n` components, and its inverse. -/
structure Collected (n : Nat) (P : Nat → Nat → Prop) (edges : ComponentEdges) : Prop where
  length : edges.successors.length = n ∧ edges.predecessors.length = n
  mem_successors : ∀ i j, j ∈ edges.successors.getD i [] ↔ P i j
  mem_predecessors : ∀ i j, i ∈ edges.predecessors.getD j [] ↔ P i j
  nodup : ∀ i, (edges.successors.getD i []).Nodup ∧ (edges.predecessors.getD i []).Nodup

theorem Collected.add (h : Collected n P edges) {a b : Nat} (ha : a < n) (hb : b < n) :
    Collected n (fun i j => P i j ∨ i = a ∧ j = b ∧ i ≠ j) (edges.add a b) := by
  have ha' : a < edges.successors.length := h.length.1.symm ▸ ha
  have hb' : b < edges.predecessors.length := h.length.2.symm ▸ hb
  rw [ComponentEdges.add]
  split_ifs with hskip
  · -- the pair is no edge, or one that is there
    have hsame (i j : Nat) : P i j ↔ P i j ∨ i = a ∧ j = b ∧ i ≠ j := by
      refine ⟨.inl, fun hp => hp.elim id ?_⟩
      rintro ⟨rfl, rfl, hne⟩
      exact (h.mem_successors _ _).mp (hskip.resolve_left hne)
    exact ⟨h.length, fun i j => (h.mem_successors i j).trans (hsame i j),
      fun i j => (h.mem_predecessors i j).trans (hsame i j), h.nodup⟩
  · have hne : a ≠ b := fun heq => hskip (.inl heq)
    refine ⟨⟨?_, ?_⟩, fun i j => ?_, fun i j => ?_, fun i => ⟨?_, ?_⟩⟩
    · rw [length_addTo, h.length.1]
    · rw [length_addTo, h.length.2]
    · rw [mem_addTo ha', h.mem_successors]
      refine or_congr_right ⟨?_, fun hp => ⟨hp.1, hp.2.1⟩⟩
      rintro ⟨rfl, rfl⟩
      exact ⟨rfl, rfl, hne⟩
    · rw [mem_addTo hb', h.mem_predecessors]
      refine or_congr_right ⟨?_, fun hp => ⟨hp.2.1, hp.1⟩⟩
      rintro ⟨rfl, rfl⟩
      exact ⟨rfl, rfl, hne⟩
    · exact nodup_addTo ha' b (h.nodup i).1
    · exact nodup_addTo hb' a (h.nodup i).2

/-- The relation up to equivalence. -/
theorem Collected.congr {Q : Nat → Nat → Prop} (h : Collected n P edges)
    (hPQ : ∀ i j, P i j ↔ Q i j) : Collected n Q edges where
  length := h.length
  mem_successors i j := (h.mem_successors i j).trans (hPQ i j)
  mem_predecessors i j := (h.mem_predecessors i j).trans (hPQ i j)
  nodup := h.nodup

omit [DecidableEq α] in
theorem Collected.addNode {vs : List α} (h : Collected n P edges)
    (hv : (componentByNode v).getD 0 < n) (hvs : ∀ w ∈ vs, (componentByNode w).getD 0 < n) :
    Collected n (fun i j => P i j ∨ ∃ w ∈ vs, i = (componentByNode v).getD 0 ∧
      j = (componentByNode w).getD 0 ∧ i ≠ j) (edges.addNode componentByNode (v, vs)) := by
  rw [ComponentEdges.addNode]
  induction vs generalizing P edges with
  | nil => exact h.congr fun i j => by simp
  | cons w vs ih =>
    rw [foldl_cons]
    refine (ih (h.add hv (hvs w mem_cons_self)) fun w' hw' =>
      hvs w' (mem_cons_of_mem _ hw')).congr fun i j => ?_
    rw [exists_mem_cons_iff, or_assoc]

omit [DecidableEq α] in
theorem Collected.addNodes {adjacency : List (α × List α)} (h : Collected n P edges)
    (hv : ∀ p ∈ adjacency, (componentByNode p.1).getD 0 < n ∧
      ∀ w ∈ p.2, (componentByNode w).getD 0 < n) :
    Collected n (fun i j => P i j ∨ ∃ p ∈ adjacency, ∃ w ∈ p.2,
      i = (componentByNode p.1).getD 0 ∧ j = (componentByNode w).getD 0 ∧ i ≠ j)
      (adjacency.foldl (ComponentEdges.addNode componentByNode) edges) := by
  induction adjacency generalizing P edges with
  | nil => exact h.congr fun i j => by simp
  | cons p adjacency ih =>
    obtain ⟨hp, hps⟩ := hv p mem_cons_self
    rw [foldl_cons]
    refine (ih (h.addNode hp hps) fun p' hp' => hv p' (mem_cons_of_mem _ hp')).congr
      fun i j => ?_
    rw [exists_mem_cons_iff, or_assoc]

/-! ### The result -/

/-- What a condensation says of the graph below some roots. -/
structure IsCondensation (succ : α → List α) (roots : List α)
    (r : DirectedGraphCondensation α) : Prop where
  nonempty : ∀ c ∈ r.components, c ≠ []
  nodup : r.components.flatten.Nodup
  covers : ∀ v, v ∈ r.components.flatten ↔ ∃ root ∈ roots, Reach succ root v
  strong : ∀ c ∈ r.components, ∀ u ∈ c, ∀ v, v ∈ c ↔ Reach succ u v ∧ Reach succ v u
  after : ∀ i j (hi : i < r.components.length) (hj : j < r.components.length),
    ∀ u ∈ r.components[i], ∀ v ∈ r.components[j], Reach succ u v → j ≤ i
  componentByNode : ∀ v i, r.componentByNode v = some i ↔
    ∃ h : i < r.components.length, v ∈ r.components[i]
  length : r.successorsByComponent.length = r.components.length ∧
    r.predecessorsByComponent.length = r.components.length
  successors : ∀ i j, j ∈ r.successorsByComponent.getD i [] ↔ i ≠ j ∧
    ∃ u v, r.componentByNode u = some i ∧ r.componentByNode v = some j ∧ v ∈ succ u
  predecessors : ∀ i j, j ∈ r.predecessorsByComponent.getD i [] ↔
    i ∈ r.successorsByComponent.getD j []
  sets : ∀ i, (r.successorsByComponent.getD i []).Nodup ∧
    (r.predecessorsByComponent.getD i []).Nodup

/-- A search that is over condenses the graph. -/
theorem Between.isCondensation (h : Between succ roots s) :
    IsCondensation succ roots (condense s) := by
  have hinv := h.inv
  have hnil := h.componentStack
  have hcondensed := hinv.condensed
  have hdone : ∀ v, v ∈ s.components.flatten ↔ s.indexByNode v ≠ none := fun v => by
    rw [hinv.mem_components, Search.Done, hnil]
    exact and_iff_left not_mem_nil
  have hcovers : ∀ v, v ∈ s.components.flatten ↔ ∃ root ∈ roots, Reach succ root v := fun v => by
    constructor
    · exact fun hv => hinv.reached v ((hdone v).mp hv)
    · rintro ⟨root, hroot, hreach⟩
      refine (hinv.mem_components v).mpr (hreach.stays_done hinv.done_closed ?_)
      exact (hinv.mem_components root).mp ((hdone root).mpr (h.roots root hroot))
  obtain ⟨number, hnumber⟩ : ∃ number, number = numberComponents 0 s.components fun _ => none :=
    ⟨_, rfl⟩
  have hiff : ∀ v i, number v = some i ↔ ∃ h : i < s.components.length, v ∈ s.components[i] :=
    fun v i => hnumber ▸ numberComponents_iff hcondensed.nodup v i
  have hsome : ∀ v ∈ s.components.flatten, ∃ i, number v = some i ∧ i < s.components.length := by
    intro v hv
    obtain ⟨c, hc, hvc⟩ := mem_flatten.mp hv
    obtain ⟨i, hi, rfl⟩ := getElem_of_mem hc
    exact ⟨i, (hiff v i).mpr ⟨hi, hvc⟩, hi⟩
  have hedge : ∀ p ∈ s.adjacencyByNode, p.1 ∈ s.components.flatten ∧
      ∀ w ∈ p.2, w ∈ s.components.flatten := by
    intro p hp
    obtain ⟨hvisited, hsucc⟩ := (hinv.mem_adjacency p).mp hp
    have hmem := (hdone p.1).mpr hvisited
    refine ⟨hmem, fun w hw => ?_⟩
    rw [hsucc] at hw
    exact (hinv.mem_components w).mpr
      (hinv.done_closed _ ((hinv.mem_components p.1).mp hmem) w hw)
  have hlt : ∀ v ∈ s.components.flatten, (number v).getD 0 < s.components.length := by
    intro v hv
    obtain ⟨i, hi, hlt⟩ := hsome v hv
    rwa [hi]
  have hempty : Collected s.components.length (fun _ _ => False)
      ⟨s.components.map fun _ => [], s.components.map fun _ => []⟩ := by
    have hget (i : Nat) : (s.components.map fun _ => ([] : List Nat)).getD i [] = [] := by
      rw [getD_eq_getElem?_getD, getElem?_map]
      rcases s.components[i]? with _ | c <;> rfl
    refine ⟨⟨length_map _, length_map _⟩, fun i j => ?_, fun i j => ?_, fun i => ?_⟩
    · rw [hget]
      exact ⟨fun h => absurd h not_mem_nil, False.elim⟩
    · rw [hget]
      exact ⟨fun h => absurd h not_mem_nil, False.elim⟩
    · rw [hget]
      exact ⟨nodup_nil, nodup_nil⟩
  have hnumbered : ∀ p ∈ s.adjacencyByNode, (number p.1).getD 0 < s.components.length ∧
      ∀ w ∈ p.2, (number w).getD 0 < s.components.length :=
    fun p hp => ⟨hlt _ (hedge p hp).1, fun w hw => hlt w ((hedge p hp).2 w hw)⟩
  have hcollected := hempty.addNodes hnumbered
  have hrelation (i j : Nat) : (False ∨ ∃ p ∈ s.adjacencyByNode, ∃ w ∈ p.2,
      i = (number p.1).getD 0 ∧ j = (number w).getD 0 ∧ i ≠ j) ↔
      i ≠ j ∧ ∃ u v, number u = some i ∧ number v = some j ∧ v ∈ succ u := by
    rw [false_or]
    constructor
    · rintro ⟨p, hp, w, hw, rfl, rfl, hne⟩
      obtain ⟨hpmem, hps⟩ := hedge p hp
      obtain ⟨i, hi, -⟩ := hsome p.1 hpmem
      obtain ⟨j, hj, -⟩ := hsome w (hps w hw)
      rw [hi, hj] at hne ⊢
      exact ⟨hne, p.1, w, hi, hj, ((hinv.mem_adjacency p).mp hp).2 ▸ hw⟩
    · rintro ⟨hne, u, v, hu, hv, huv⟩
      obtain ⟨hi, hui⟩ := (hiff u i).mp hu
      have hvisited := (hdone u).mp (mem_flatten.mpr ⟨_, getElem_mem hi, hui⟩)
      refine ⟨(u, succ u), (hinv.mem_adjacency _).mpr ⟨hvisited, rfl⟩, v, huv, ?_, ?_, hne⟩
      · rw [hu]
        rfl
      · rw [hv]
        rfl
  have hcollected := hcollected.congr hrelation
  rw [condense, ← hnumber]
  exact
    { nonempty := hcondensed.nonempty
      nodup := hcondensed.nodup
      covers := hcovers
      strong := hcondensed.strong
      after := fun i j hi hj u hu v hv => hcondensed.le_of_reach hi hj hu hv
      componentByNode := hiff
      length := hcollected.length
      successors := hcollected.mem_successors
      predecessors := fun i j => (hcollected.mem_predecessors j i).trans
        (hcollected.mem_successors j i).symm
      sets := hcollected.nodup }

/-- **Condensation is correct.**  On a graph with finitely many nodes below the roots the searches
end, and the result is the condensation of that part. -/
theorem condenseDirectedGraph_correct {nodes : Finset α} (hn : Within succ roots nodes) :
    ∃ rounds, ∀ fuel, rounds ≤ fuel → ∃ r, condenseDirectedGraph fuel roots succ = some r ∧
      IsCondensation succ roots r := by
  refine ⟨(Search.start : Search α).work succ nodes, fun fuel hfuel => ?_⟩
  obtain ⟨t, ht, hbetween⟩ := fromRoots_total hn hfuel
  exact ⟨condense t, by rw [condenseDirectedGraph, ht, Option.map_some], hbetween.isCondensation⟩

/-- Two roots, a cycle with a repeated edge and a self loop. -/
theorem condenseDirectedGraph_correct_cycle :
    ∃ rounds, ∀ fuel, rounds ≤ fuel → ∃ r, condenseDirectedGraph fuel [0, 3]
      (fun n : Nat => if n = 0 then [1, 0] else if n = 1 then [2, 2] else if n = 2 then [1]
        else [0]) = some r ∧
      IsCondensation (fun n : Nat => if n = 0 then [1, 0] else if n = 1 then [2, 2]
        else if n = 2 then [1] else [0]) [0, 3] r :=
  have hn : Within (fun n : Nat => if n = 0 then [1, 0] else if n = 1 then [2, 2]
      else if n = 2 then [1] else [0]) [0, 3] {0, 1, 2, 3} := ⟨by decide, by decide⟩
  condenseDirectedGraph_correct hn

end Js2Wasm.Analysis
