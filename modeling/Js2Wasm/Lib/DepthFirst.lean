import Mathlib.Data.Finset.Card

/-! # Depth-first post-order on a graph with cycles

`visit` walks a graph from a node: it expands a node's successors first and lists the node
after them.  A node already listed or still being expanded is passed over, and so is one
that cannot be expanded (`succ x = none`).

On a finite part of a graph that is closed under successors the walk ends, and what it
lists is a post-order (`IsPostOrder`): the expandable nodes reachable from the root, each
once, the root last, and every successor before its predecessor unless it reaches it.
-/
namespace DepthFirst
open List Option

variable {α β : Type}

/-- `v` is a successor of the expandable node `u`. -/
def Edge (succ : α → Option (List α)) (u v : α) : Prop := ∃ vs, succ u = some vs ∧ v ∈ vs

/-- A path through expandable nodes. -/
def Reach (succ : α → Option (List α)) : α → α → Prop := Relation.ReflTransGen (Edge succ)

/-- `v` stands before `u`. -/
def Precedes (l : List α) (v u : α) : Prop := ∃ a b c, l = a ++ v :: (b ++ u :: c)

/-- The list is a post-order of what `root` reaches. -/
structure IsPostOrder (succ : α → Option (List α)) (root : α) (order : List α) : Prop where
  mem_iff : ∀ u, u ∈ order ↔ Reach succ root u ∧ (succ u).isSome
  nodup : order.Nodup
  last : (succ root).isSome → order.getLast? = some root
  before : ∀ u v, u ∈ order → Edge succ u v → (succ v).isSome →
    Precedes order v u ∨ Reach succ v u

structure State (α : Type) where
  done : List α
  stack : List α

def start : State α := { done := [], stack := [] }

/-- A finite set that holds the successors of its nodes. -/
def Closed (succ : α → Option (List α)) (nodes : Finset α) : Prop :=
  ∀ u ∈ nodes, ∀ v, Edge succ u v → v ∈ nodes

variable {succ : α → Option (List α)}

/-! ### What the walk keeps -/

/-- What holds of the state between two visits. -/
structure Sound (succ : α → Option (List α)) (s : State α) : Prop where
  nodup : (s.done ++ s.stack).Nodup
  isSome : ∀ u ∈ s.done, (succ u).isSome
  closed : ∀ u ∈ s.done, ∀ v, Edge succ u v → (succ v).isSome →
    v ∈ s.done ∨ v ∈ s.stack ∧ Reach succ v u
  ordered : s.done.Pairwise fun u v => Edge succ u v → Reach succ v u

/-- What one visit of `x` does. -/
structure Step (succ : α → Option (List α)) (x : α) (s t : State α) : Prop where
  sound : Sound succ t
  stack : t.stack = s.stack
  grown : ∃ new, t.done = s.done ++ new ∧ ∀ u ∈ new, Reach succ x u
  seen : (succ x).isSome → x ∈ t.done ∨ x ∈ t.stack

theorem Edge.reach {u v : α} (h : Edge succ u v) : Reach succ u v := Relation.ReflTransGen.single h

theorem start_sound : Sound succ start where
  nodup := nodup_nil
  isSome _ h := nomatch h
  closed _ h := nomatch h
  ordered := List.Pairwise.nil

/-- A node is pushed on the stack. -/
theorem Sound.push {s : State α} (hs : Sound succ s) {x : α} (hdone : x ∉ s.done)
    (hstack : x ∉ s.stack) : Sound succ { s with stack := x :: s.stack } where
  nodup := by
    show (s.done ++ x :: s.stack).Nodup
    rw [nodup_middle, nodup_cons, mem_append, not_or]
    exact ⟨⟨hdone, hstack⟩, hs.nodup⟩
  isSome := hs.isSome
  closed u hu v he hv := (hs.closed u hu v he hv).imp id fun h =>
    ⟨mem_cons_of_mem _ h.1, h.2⟩
  ordered := hs.ordered

/-- The node on top of the stack, its successors seen, is listed. -/
theorem Sound.pop {t : State α} (ht : Sound succ t) {x : α} {stack : List α}
    (hstack : t.stack = x :: stack) (hx : (succ x).isSome)
    (hpath : ∀ v ∈ stack, Reach succ v x)
    (hseen : ∀ v, Edge succ x v → (succ v).isSome → v ∈ t.done ∨ v ∈ t.stack) :
    Sound succ { done := t.done ++ [x], stack := stack } := by
  have hnodup := ht.nodup
  rw [hstack] at hnodup
  have hfresh : x ∉ t.done := fun h =>
    disjoint_of_nodup_append hnodup h mem_cons_self
  refine ⟨?_, ?_, ?_, ?_⟩
  · rwa [append_assoc]
  · intro u hu
    rcases mem_append.mp hu with hu | hu
    · exact ht.isSome u hu
    · exact mem_singleton.mp hu ▸ hx
  · intro u hu v he hv
    have hcases {w : α} (hw : w ∈ t.stack) : w ∈ t.done ++ [x] ∨ w ∈ stack := by
      rw [hstack] at hw
      rcases mem_cons.mp hw with rfl | hw
      · exact Or.inl (mem_append_right _ (mem_singleton_self _))
      · exact Or.inr hw
    rcases mem_append.mp hu with hu | hu
    · rcases ht.closed u hu v he hv with hdone | ⟨hon, hreach⟩
      · exact Or.inl (mem_append_left _ hdone)
      · exact (hcases hon).imp id fun h => ⟨h, hreach⟩
    · obtain rfl := mem_singleton.mp hu
      rcases hseen v he hv with hdone | hon
      · exact Or.inl (mem_append_left _ hdone)
      · exact (hcases hon).imp id fun h => ⟨h, hpath v h⟩
  · refine pairwise_append.mpr ⟨ht.ordered, pairwise_singleton _ _, ?_⟩
    intro u hu v hv he
    obtain rfl := mem_singleton.mp hv
    rcases ht.closed u hu v he hx with hdone | ⟨-, hreach⟩
    · exact absurd hdone hfresh
    · exact hreach

/-- The loop over the successors of the node on top of the stack. -/
theorem foldlM_step {x : α} {f : State α → α → Option (State α)}
    (hf : ∀ s y t, Sound succ s → (∀ v ∈ s.stack, Reach succ v y) → f s y = some t →
      Step succ y s t) :
    ∀ (ys : List α) (s t : State α), (∀ y ∈ ys, Edge succ x y) → Sound succ s →
      (∀ v ∈ s.stack, Reach succ v x) → ys.foldlM f s = some t →
      Sound succ t ∧ t.stack = s.stack ∧
        (∃ new, t.done = s.done ++ new ∧ ∀ u ∈ new, Reach succ x u) ∧
        ∀ y ∈ ys, (succ y).isSome → y ∈ t.done ∨ y ∈ t.stack
  | [], s, t, _, hs, _, h => by
    obtain rfl : s = t := some.inj h
    exact ⟨hs, rfl, ⟨[], by simp, by simp⟩, by simp⟩
  | y :: ys, s, t, hedge, hs, hpath, h => by
    rw [foldlM_cons] at h
    obtain ⟨u, hu, ht⟩ := bind_eq_some_iff.mp h
    have hxy : Edge succ x y := hedge y mem_cons_self
    have hstep := hf s y u hs (fun v hv => (hpath v hv).tail hxy) hu
    obtain ⟨hsound, hstack, ⟨new, hnew, hreach⟩, hseen⟩ := foldlM_step hf ys u t
      (fun z hz => hedge z (mem_cons_of_mem _ hz)) hstep.sound
      (by rw [hstep.stack]; exact hpath) ht
    obtain ⟨new', hnew', hreach'⟩ := hstep.grown
    refine ⟨hsound, hstack.trans hstep.stack, ⟨new' ++ new, ?_, ?_⟩, ?_⟩
    · rw [hnew, hnew', append_assoc]
    · intro w hw
      rcases mem_append.mp hw with hw | hw
      · exact hxy.reach.trans (hreach' w hw)
      · exact hreach w hw
    · intro z hz hzs
      rcases mem_cons.mp hz with rfl | hz
      · rcases hstep.seen hzs with hdone | hon
        · exact Or.inl (hnew ▸ mem_append_left _ hdone)
        · exact Or.inr (hstack ▸ hon)
      · exact hseen z hz hzs

section Walk
variable [DecidableEq α]

/-- Visit a node; the number bounds the depth of the walk. -/
def visit (succ : α → Option (List α)) : Nat → State α → α → Option (State α)
  | 0, _, _ => none
  | n + 1, s, x =>
    if x ∈ s.done ∨ x ∈ s.stack then some s
    else
      match succ x with
      | none => some s
      | some ys =>
        (ys.foldlM (visit succ n) { s with stack := x :: s.stack }).map fun t =>
          { done := t.done ++ [x], stack := t.stack.erase x }

/-- A visit of a node that everything on the stack reaches. -/
theorem visit_step (n : Nat) (s : State α) (x : α) (t : State α) (hs : Sound succ s)
    (hpath : ∀ v ∈ s.stack, Reach succ v x) (h : visit succ n s x = some t) :
    Step succ x s t ∧ (x ∉ s.done → x ∉ s.stack → (succ x).isSome →
      t.done.getLast? = some x) := by
  induction n generalizing s x t with
  | zero => cases h
  | succ n ih =>
    rw [visit] at h
    by_cases hseen : x ∈ s.done ∨ x ∈ s.stack
    · rw [if_pos hseen] at h
      cases h
      exact ⟨⟨hs, rfl, ⟨[], by simp, by simp⟩, fun _ => hseen⟩,
        fun hd hst => absurd hseen (not_or.mpr ⟨hd, hst⟩)⟩
    · rw [if_neg hseen] at h
      obtain ⟨hdone, hstack⟩ := not_or.mp hseen
      cases hsucc : succ x with
      | none =>
        rw [hsucc] at h
        cases h
        exact ⟨⟨hs, rfl, ⟨[], by simp, by simp⟩, fun hx => absurd hx (by simp [hsucc])⟩,
          fun _ _ hx => absurd hx (by simp)⟩
      | some ys =>
        rw [hsucc] at h
        obtain ⟨u, hu, rfl⟩ := map_eq_some_iff.mp h
        have hx : (succ x).isSome := by rw [hsucc]; rfl
        obtain ⟨hsound, hustack, ⟨new, hnew, hreach⟩, hys⟩ := foldlM_step (x := x)
          (fun s y t hs hp hv => (ih s y t hs hp hv).1) ys _ u
          (fun y hy => ⟨ys, hsucc, hy⟩) (hs.push hdone hstack)
          (forall_mem_cons.mpr ⟨Relation.ReflTransGen.refl, hpath⟩) hu
        have hpop : u.stack.erase x = s.stack := by
          rw [hustack]
          exact erase_cons_head ..
        have hlisted : Sound succ { done := u.done ++ [x], stack := s.stack } := by
          refine hsound.pop hustack hx hpath fun v he hv => ?_
          obtain ⟨ys', hys', hmem⟩ := he
          obtain rfl : ys = ys' := some.inj (hsucc.symm.trans hys')
          exact hys v hmem hv
        refine ⟨⟨hpop ▸ hlisted, hpop, ⟨new ++ [x], ?_, ?_⟩, fun _ => Or.inl ?_⟩,
          fun _ _ _ => ?_⟩
        · show u.done ++ [x] = s.done ++ (new ++ [x])
          rw [hnew, append_assoc]
        · intro w hw
          rcases mem_append.mp hw with hw | hw
          · exact hreach w hw
          · exact mem_singleton.mp hw ▸ Relation.ReflTransGen.refl
        · exact mem_append_right _ (mem_singleton_self x)
        · exact getLast?_concat ..

/-! ### The walk ends -/

omit [DecidableEq α] in
theorem foldlM_ends {σ : Type} {f : σ → α → Option σ} {P : σ → Prop} {xs : List α}
    (hf : ∀ s, P s → ∀ x ∈ xs, ∃ t, f s x = some t ∧ P t) :
    ∀ s, P s → ∃ t, xs.foldlM f s = some t ∧ P t := by
  induction xs with
  | nil => exact fun s hs => ⟨s, rfl, hs⟩
  | cons x xs ih =>
    intro s hs
    obtain ⟨t, ht, hPt⟩ := hf s hs x mem_cons_self
    obtain ⟨u, hu, hPu⟩ := ih (fun s hs y hy => hf s hs y (mem_cons_of_mem _ hy)) t hPt
    exact ⟨u, by rw [foldlM_cons, ht]; exact hu, hPu⟩

variable {u x v root : α} {t : State α} {l : List α} {n : Nat} {nodes : Finset α}

/-- The walk ends when it may go deeper than there are nodes off the stack, and it leaves
the stack as it was. -/
theorem visit_ends (hclosed : Closed succ nodes) (n : Nat) (s : State α) (x : α) (hx : x ∈ nodes)
    (hstack : s.stack.Nodup) (hin : ∀ v ∈ s.stack, v ∈ nodes) (hn : nodes.card < n + s.stack.length) :
    ∃ t, visit succ n s x = some t ∧ t.stack = s.stack := by
  induction n generalizing s x with
  | zero =>
    have hle : s.stack.toFinset.card ≤ nodes.card :=
      Finset.card_le_card fun v hv => hin v (mem_toFinset.mp hv)
    rw [toFinset_card_of_nodup hstack] at hle
    omega
  | succ n ih =>
    rw [visit]
    by_cases hseen : x ∈ s.done ∨ x ∈ s.stack
    · exact ⟨s, if_pos hseen, rfl⟩
    · rw [if_neg hseen]
      cases hsucc : succ x with
      | none => exact ⟨s, rfl, rfl⟩
      | some ys =>
        have hloop : ∃ t, ys.foldlM (visit succ n) { s with stack := x :: s.stack } = some t ∧
            t.stack = x :: s.stack := by
          refine foldlM_ends (P := fun t : State α => t.stack = x :: s.stack) ?_ _ rfl
          intro t ht y hy
          have hnodup : t.stack.Nodup :=
            ht ▸ nodup_cons.mpr ⟨fun h => hseen (Or.inr h), hstack⟩
          have hsub : ∀ v ∈ t.stack, v ∈ nodes := by
            rw [ht]
            exact forall_mem_cons.mpr ⟨hx, hin⟩
          obtain ⟨u, hu, hustack⟩ := ih t y (hclosed x hx y ⟨ys, hsucc, hy⟩) hnodup hsub
            (by rw [ht, length_cons]; omega)
          exact ⟨u, hu, hustack.trans ht⟩
        obtain ⟨t, ht, htstack⟩ := hloop
        refine ⟨{ done := t.done ++ [x], stack := t.stack.erase x }, ?_, ?_⟩
        · show Option.map _ _ = _
          rw [ht]
          rfl
        · show t.stack.erase x = s.stack
          rw [htstack, erase_cons_head]

/-! ### The whole walk -/

omit [DecidableEq α] in
/-- Two members of a list stand in one of the two orders. -/
theorem precedes_or_precedes (hu : u ∈ l) (hv : v ∈ l) (hne : u ≠ v) :
    Precedes l u v ∨ Precedes l v u := by
  obtain ⟨a, b, rfl⟩ := append_of_mem hu
  rcases mem_append.mp hv with hv | hv
  · obtain ⟨c, d, rfl⟩ := append_of_mem hv
    exact Or.inr ⟨c, d, b, by simp⟩
  · rcases mem_cons.mp hv with rfl | hv
    · exact absurd rfl hne
    · obtain ⟨c, d, rfl⟩ := append_of_mem hv
      exact Or.inl ⟨a, c, d, rfl⟩

omit [DecidableEq α] in
theorem Precedes.rel {R : α → α → Prop} (hl : l.Pairwise R) (h : Precedes l u v) : R u v := by
  obtain ⟨a, b, c, rfl⟩ := h
  have hcons := (pairwise_append.mp hl).2.1
  exact (pairwise_cons.mp hcons).1 v (by simp)

/-- **What a walk from the empty state lists is a post-order of what the root reaches.** -/
theorem visit_postOrder (h : visit succ n start root = some t) : IsPostOrder succ root t.done := by
  obtain ⟨hstep, hlast⟩ := visit_step n start root t start_sound
    (fun v hv => nomatch hv) h
  have hstack : t.stack = [] := hstep.stack
  have hclosed : ∀ u ∈ t.done, ∀ v, Edge succ u v → (succ v).isSome → v ∈ t.done := by
    intro u hu v he hv
    rcases hstep.sound.closed u hu v he hv with hdone | ⟨hon, -⟩
    · exact hdone
    · rw [hstack] at hon
      cases hon
  have hnodup : t.done.Nodup := (nodup_append.mp hstep.sound.nodup).1
  refine ⟨fun u => ⟨fun hu => ⟨?_, hstep.sound.isSome u hu⟩, fun hu => ?_⟩, hnodup,
    hlast not_mem_nil not_mem_nil, fun u v hu he hv => ?_⟩
  · obtain ⟨new, hnew, hreach⟩ := hstep.grown
    exact hreach u (by rwa [hnew] at hu)
  · -- along the path to `u` every node can be expanded, so every node is listed
    obtain ⟨hpath, hu⟩ := hu
    induction hpath with
    | refl =>
      rcases hstep.seen hu with hdone | hon
      · exact hdone
      · rw [hstack] at hon
        cases hon
    | tail _ he ih =>
      obtain ⟨vs, hvs, -⟩ := id he
      exact hclosed _ (ih (by rw [hvs]; rfl)) _ he hu
  · by_cases huv : u = v
    · exact Or.inr (huv ▸ Relation.ReflTransGen.refl)
    · rcases precedes_or_precedes hu (hclosed u hu v he hv) huv with hlt | hlt
      · exact Or.inr (hlt.rel hstep.sound.ordered he)
      · exact Or.inl hlt

theorem visit_start_ends (hclosed : Closed succ nodes) (hroot : root ∈ nodes) (hn : nodes.card < n) :
    ∃ t, visit succ n start root = some t := by
  obtain ⟨t, ht, -⟩ := visit_ends hclosed n start root hroot nodup_nil
    (fun v hv => nomatch hv) (by simpa [start] using hn)
  exact ⟨t, ht⟩

/-- A deeper bound changes nothing. -/
theorem visit_mono {m : Nat} (hnm : n ≤ m) {s : State α} (h : visit succ n s x = some t) :
    visit succ m s x = some t := by
  induction n generalizing m s x t with
  | zero => cases h
  | succ n ih =>
    obtain ⟨m, rfl⟩ : ∃ k, m = k + 1 := ⟨m - 1, by omega⟩
    have hloop : ∀ (ys : List α) (s t : State α), ys.foldlM (visit succ n) s = some t →
        ys.foldlM (visit succ m) s = some t := by
      intro ys
      induction ys with
      | nil => exact fun s t h => h
      | cons y ys ihys =>
        intro s t h
        rw [foldlM_cons] at h ⊢
        obtain ⟨u, hu, ht⟩ := bind_eq_some_iff.mp h
        rw [ih (by omega : n ≤ m) hu]
        exact ihys u t ht
    rw [visit] at h ⊢
    by_cases hseen : x ∈ s.done ∨ x ∈ s.stack
    · rwa [if_pos hseen] at h ⊢
    · rw [if_neg hseen] at h ⊢
      cases hsucc : succ x with
      | none => rwa [hsucc] at h
      | some ys =>
        rw [hsucc] at h
        obtain ⟨u, hu, rfl⟩ := map_eq_some_iff.mp h
        show Option.map _ (ys.foldlM _ _) = _
        rw [hloop ys _ u hu]
        rfl

/-! ### The walk depends on the graph only -/

def State.map (f : α → β) (s : State α) : State β :=
  { done := s.done.map f, stack := s.stack.map f }

variable [DecidableEq β]

/-- On the same graph under other names the walk is the same. -/
theorem visit_map {f : α → β} (hf : Function.Injective f) {succ' : β → Option (List β)}
    (hclosed : Closed succ nodes)
    (hsucc : ∀ x ∈ nodes, succ' (f x) = (succ x).map fun ys => ys.map f) (n : Nat) (s : State α)
    (hx : x ∈ nodes) : visit succ' n (s.map f) (f x) = (visit succ n s x).map fun t => t.map f := by
  induction n generalizing s x with
  | zero => rfl
  | succ n ih =>
    have hloop : ∀ (ys : List α) (s : State α), (∀ y ∈ ys, y ∈ nodes) →
        (ys.map f).foldlM (visit succ' n) (s.map f) =
          (ys.foldlM (visit succ n) s).map fun t => t.map f := by
      intro ys
      induction ys with
      | nil => exact fun s _ => rfl
      | cons y ys ihys =>
        intro s hys
        rw [map_cons, foldlM_cons, foldlM_cons, ih s (hys y mem_cons_self)]
        cases visit succ n s y with
        | none => rfl
        | some t => exact ihys t fun z hz => hys z (mem_cons_of_mem _ hz)
    rw [visit, visit, hsucc x hx]
    have hmem (l : List α) : f x ∈ l.map f ↔ x ∈ l := mem_map_of_injective hf
    have hseen : (f x ∈ (s.map f).done ∨ f x ∈ (s.map f).stack) ↔ x ∈ s.done ∨ x ∈ s.stack :=
      or_congr (hmem s.done) (hmem s.stack)
    by_cases h : x ∈ s.done ∨ x ∈ s.stack
    · rw [if_pos h, if_pos (hseen.mpr h)]
      rfl
    · rw [if_neg h, if_neg (hseen.not.mpr h)]
      cases hys : succ x with
      | none => rfl
      | some ys =>
        show Option.map _ ((ys.map f).foldlM _ (State.map f { s with stack := x :: s.stack })) =
          Option.map _ (Option.map _ _)
        rw [hloop ys _ fun y hy => hclosed x hx y ⟨ys, hys, hy⟩, Option.map_map, Option.map_map]
        congr 1
        funext t
        simp [Function.comp, State.map, map_erase hf]

end Walk

end DepthFirst
