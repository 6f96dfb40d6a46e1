import Mathlib.Data.List.Sort

/-! # Trees of spans

A tree whose nodes stand for spans of a text, children inside their parents and apart from each
other.  `collect` lists items in the order of a walk that some nodes stop: they give their own
items, and what is below them is not visited.

What the walk lists below a node is what lies in the node's span among all that it lists
(`filter_collectAll`).  So the items of a subtree can be read off a list made once for the whole
tree, and when that list is sorted by position, from the first position not below the span on
(`lowerBound_spec`).
-/
namespace SpanTrees
open List

inductive SpanTree (κ : Type*) where
  | node (start stop : Nat) (label : κ) (children : List (SpanTree κ))

variable {κ ι : Type*}

namespace SpanTree

def start : SpanTree κ → Nat
  | node s _ _ _ => s

def stop : SpanTree κ → Nat
  | node _ e _ _ => e

def label : SpanTree κ → κ
  | node _ _ k _ => k

def children : SpanTree κ → List (SpanTree κ)
  | node _ _ _ cs => cs

/-- The node at a place, the indices of the children on the way to it, the last one first. -/
def at? (t : SpanTree κ) : List Nat → Option (SpanTree κ)
  | [] => some t
  | i :: up => (t.at? up).bind fun n => n.children[i]?

mutual

/-- The items of a walk; `items` says which labels stop it, and with which items. -/
def collect (items : κ → Option (List ι)) : SpanTree κ → List ι
  | node _ _ k cs => (items k).getD (collectAll items cs)

def collectAll (items : κ → Option (List ι)) : List (SpanTree κ) → List ι
  | [] => []
  | c :: cs => collect items c ++ collectAll items cs

end

/-- Neither of two nodes reaches into the other. -/
def Apart (a b : SpanTree κ) : Prop := a.stop ≤ b.start ∨ b.stop ≤ a.start

/-- Items have spans, `first` and `last`. -/
structure Spans (ι : Type*) where
  first : ι → Nat
  last : ι → Nat

mutual

/-- Spans of children and of items are inside the node's, the children's apart from each other,
and items are not empty. -/
def Nested (spans : Spans ι) (items : κ → Option (List ι)) : SpanTree κ → Prop
  | node s e k cs =>
    s ≤ e ∧ (∀ l, items k = some l → ∀ i ∈ l,
      s ≤ spans.first i ∧ spans.first i < spans.last i ∧ spans.last i ≤ e) ∧
    (∀ c ∈ cs, s ≤ c.start ∧ c.stop ≤ e) ∧ cs.Pairwise Apart ∧ NestedAll spans items cs

def NestedAll (spans : Spans ι) (items : κ → Option (List ι)) : List (SpanTree κ) → Prop
  | [] => True
  | c :: cs => Nested spans items c ∧ NestedAll spans items cs

end

/-- A walk from `t` comes to `m`. -/
inductive Reaches (items : κ → Option (List ι)) (t : SpanTree κ) : SpanTree κ → Prop where
  | self : Reaches items t t
  | child {n c : SpanTree κ} : Reaches items t n → items n.label = none → c ∈ n.children →
      Reaches items t c

/-- The item lies in the node's span. -/
def Inside (spans : Spans ι) (m : SpanTree κ) (i : ι) : Prop :=
  m.start ≤ spans.first i ∧ spans.first i < spans.last i ∧ spans.last i ≤ m.stop

/-- The item lies before or behind the node's span. -/
def Outside (spans : Spans ι) (m : SpanTree κ) (i : ι) : Prop :=
  spans.first i < spans.last i ∧ (spans.last i ≤ m.start ∨ m.stop ≤ spans.first i)

section
variable {spans : Spans ι} {items : κ → Option (List ι)} {t m n c : SpanTree κ}
  {cs : List (SpanTree κ)}

theorem NestedAll.mem (h : NestedAll spans items cs) (hc : c ∈ cs) : Nested spans items c := by
  induction cs with
  | nil => cases hc
  | cons c' cs ih =>
    rcases mem_cons.mp hc with rfl | hc
    · exact h.1
    · exact ih h.2 hc

theorem collectAll_append (items : κ → Option (List ι)) (cs ds : List (SpanTree κ)) :
    collectAll items (cs ++ ds) = collectAll items cs ++ collectAll items ds := by
  induction cs with
  | nil => rfl
  | cons c cs ih => rw [cons_append, collectAll, collectAll, ih, append_assoc]

mutual

/-- A walk may select and change the items where it finds them. -/
theorem collect_filterMap {γ : Type*} (f : ι → Option γ) : (t : SpanTree κ) →
    collect (fun k => (items k).map (List.filterMap f)) t = (collect items t).filterMap f
  | node s e k cs => by
    rw [collect, collect, collectAll_filterMap f cs]
    rcases items k with _ | l <;> rfl

theorem collectAll_filterMap {γ : Type*} (f : ι → Option γ) : (cs : List (SpanTree κ)) →
    collectAll (fun k => (items k).map (List.filterMap f)) cs =
      (collectAll items cs).filterMap f
  | [] => rfl
  | c :: cs => by
    rw [collectAll, collectAll, collect_filterMap f c, collectAll_filterMap f cs,
      filterMap_append]

end

mutual

/-- What a walk lists lies in the span of the node it began at. -/
theorem inside_of_mem_collect {i : ι} :
    (t : SpanTree κ) → Nested spans items t → i ∈ collect items t → Inside spans t i
  | node s e k cs, h, hi => by
    obtain ⟨-, hitems, hchildren, -, hall⟩ := h
    rw [collect] at hi
    rcases hk : items k with _ | l
    · rw [hk, Option.getD_none] at hi
      obtain ⟨c, hc, h1, h2, h3⟩ := inside_of_mem_collectAll cs hall hi
      obtain ⟨h4, h5⟩ := hchildren c hc
      exact ⟨h4.trans h1, h2, h3.trans h5⟩
    · rw [hk, Option.getD_some] at hi
      exact hitems l hk i hi

theorem inside_of_mem_collectAll {i : ι} :
    (cs : List (SpanTree κ)) → NestedAll spans items cs → i ∈ collectAll items cs →
      ∃ c ∈ cs, Inside spans c i
  | [], _, hi => nomatch hi
  | c :: cs, h, hi => by
    rw [collectAll, mem_append] at hi
    rcases hi with hi | hi
    · exact ⟨c, mem_cons_self, inside_of_mem_collect c h.1 hi⟩
    · obtain ⟨c', hc', hin⟩ := inside_of_mem_collectAll cs h.2 hi
      exact ⟨c', mem_cons_of_mem _ hc', hin⟩

end

theorem Inside.outside {i : ι} (h : Inside spans c i) (ha : Apart c m) : Outside spans m i := by
  obtain ⟨h1, h2, h3⟩ := h
  rcases ha with h | h
  · exact ⟨h2, .inl (h3.trans h)⟩
  · exact ⟨h2, .inr (h.trans h1)⟩

/-- What lies outside a node lies outside its children. -/
theorem Outside.child {i : ι} (h : Outside spans n i) (hn : Nested spans items n)
    (hc : c ∈ n.children) : Outside spans c i := by
  obtain ⟨s, e, k, cs⟩ := n
  obtain ⟨h4, h5⟩ := hn.2.2.1 c hc
  exact ⟨h.1, h.2.imp (fun h => h.trans h4) fun h => h5.trans h⟩

theorem Nested.child (hn : Nested spans items n) (hc : c ∈ n.children) : Nested spans items c := by
  obtain ⟨s, e, k, cs⟩ := n
  exact hn.2.2.2.2.mem hc

theorem Nested.children (hn : Nested spans items n) :
    NestedAll spans items n.children ∧ n.children.Pairwise Apart := by
  obtain ⟨s, e, k, cs⟩ := n
  exact ⟨hn.2.2.2.2, hn.2.2.2.1⟩

/-- Among siblings, all but one's own items lie outside it. -/
theorem exists_collectAll_eq (h : NestedAll spans items cs) (ha : cs.Pairwise Apart) (hc : c ∈ cs) :
    ∃ before after, collectAll items cs = before ++ collect items c ++ after ∧
      ∀ i ∈ before ++ after, Outside spans c i := by
  obtain ⟨left, right, rfl⟩ := append_of_mem hc
  have hsplit : collectAll items (left ++ c :: right) =
      collectAll items left ++ collect items c ++ collectAll items right := by
    rw [collectAll_append, collectAll, append_assoc]
  refine ⟨_, _, hsplit, fun i hi => ?_⟩
  obtain ⟨hleft, hright, hcross⟩ := pairwise_append.mp ha
  have hpart (ds : List (SpanTree κ)) (hsub : ∀ d ∈ ds, d ∈ left ++ c :: right)
      (hap : ∀ d ∈ ds, Apart d c) (hi : i ∈ collectAll items ds) : Outside spans c i := by
    have hds : NestedAll spans items ds := by
      clear hap hi
      induction ds with
      | nil => trivial
      | cons d ds ih =>
        exact ⟨h.mem (hsub d mem_cons_self), ih fun d' hd' =>
          hsub d' (mem_cons_of_mem _ hd')⟩
    obtain ⟨d, hd, hin⟩ := inside_of_mem_collectAll ds hds hi
    exact hin.outside (hap d hd)
  rcases mem_append.mp hi with hi | hi
  · exact hpart left (fun d hd => mem_append_left _ hd)
      (fun d hd => hcross d hd c mem_cons_self) hi
  · exact hpart right (fun d hd => mem_append_right _ (mem_cons_of_mem _ hd))
      (fun d hd => Or.symm ((pairwise_cons.mp hright).1 d hd)) hi

/-- What a walk lists below `m` stands together, and all else lies outside `m`. -/
theorem Reaches.collectAll_eq (hr : Reaches items c m) (h : NestedAll spans items cs)
    (ha : cs.Pairwise Apart) (hc : c ∈ cs) :
    Nested spans items m ∧ ∃ before after,
      collectAll items cs = before ++ collect items m ++ after ∧
        ∀ i ∈ before ++ after, Outside spans m i := by
  induction hr with
  | self => exact ⟨h.mem hc, exists_collectAll_eq h ha hc⟩
  | @child n d _ hstop hd ih =>
    obtain ⟨hn, before, after, heq, hout⟩ := ih
    obtain ⟨hall, hapart⟩ := hn.children
    obtain ⟨before', after', heq', hout'⟩ := exists_collectAll_eq hall hapart hd
    have hnode : collect items n = collectAll items n.children := by
      obtain ⟨s, e, k, ds⟩ := n
      rw [collect, show items k = none from hstop]
      rfl
    refine ⟨hn.child hd, before ++ before', after' ++ after, ?_, fun i hi => ?_⟩
    · rw [heq, hnode, heq']
      simp
    · have hparts : i ∈ before ++ after ∨ i ∈ before' ++ after' := by
        simp only [mem_append] at hi ⊢
        tauto
      rcases hparts with hi | hi
      · exact (hout i hi).child hn hd
      · exact hout' i hi

/-- The query for what lies in a span. -/
def inSpan (spans : Spans ι) (lo hi : Nat) (i : ι) : Bool :=
  lo ≤ spans.first i && spans.first i < hi && spans.last i ≤ hi

theorem inSpan_of_inside {i : ι} (h : Inside spans m i) : inSpan spans m.start m.stop i := by
  obtain ⟨h1, h2, h3⟩ := h
  simp only [inSpan, Bool.and_eq_true, decide_eq_true_eq]
  omega

theorem not_inSpan_of_outside {i : ι} (h : Outside spans m i) :
    ¬ inSpan spans m.start m.stop i := by
  obtain ⟨h1, h2⟩ := h
  simp only [inSpan, Bool.and_eq_true, decide_eq_true_eq]
  omega

theorem filter_inSpan_collect (h : Nested spans items m) :
    (collect items m).filter (inSpan spans m.start m.stop) = collect items m :=
  filter_eq_self.mpr fun _ hi => inSpan_of_inside (inside_of_mem_collect m h hi)

/-- **The items below a node are those in its span.** -/
theorem filter_collectAll (hr : Reaches items c m) (h : NestedAll spans items cs)
    (ha : cs.Pairwise Apart) (hc : c ∈ cs) :
    (collectAll items cs).filter (inSpan spans m.start m.stop) = collect items m := by
  obtain ⟨hm, before, after, heq, hout⟩ := hr.collectAll_eq h ha hc
  have hnone (l : List ι) (hl : ∀ i ∈ l, i ∈ before ++ after) :
      l.filter (inSpan spans m.start m.stop) = [] :=
    filter_eq_nil_iff.mpr fun i hi => not_inSpan_of_outside (hout i (hl i hi))
  rw [heq, filter_append, filter_append, filter_inSpan_collect hm,
    hnone before fun i hi => mem_append_left _ hi,
    hnone after fun i hi => mem_append_right _ hi, nil_append, append_nil]

end

end SpanTree

/-! ### Positions in order -/

/-- Binary search between `a` and `b` for the first position that is not below `lo`. -/
def lowerBound (positions : List Nat) (lo a b : Nat) : Nat :=
  if a < b then
    let mid := (a + b) / 2
    if positions.getD mid 0 < lo then lowerBound positions lo (mid + 1) b
    else lowerBound positions lo a mid
  else a
  termination_by b - a

/-- All positions before the result are below `lo`. -/
theorem lowerBound_spec {positions : List Nat} {lo a b : Nat}
    (hs : positions.Pairwise fun x y => x ≤ y) (hb : b ≤ positions.length)
    (ha : ∀ x ∈ positions.take a, x < lo) :
    ∀ x ∈ positions.take (lowerBound positions lo a b), x < lo := by
  fun_induction lowerBound positions lo a b with
  | case1 a b hab mid hlt ih =>
    refine ih hb fun x hx => ?_
    have hmid : mid < positions.length := by omega
    obtain ⟨j, hj, rfl⟩ := mem_take_iff_getElem.mp hx
    rw [getD_eq_getElem?_getD, getElem?_eq_getElem hmid, Option.getD_some] at hlt
    refine Nat.lt_of_le_of_lt ?_ hlt
    rcases Nat.eq_or_lt_of_le (show j ≤ mid by omega) with heq | hjm
    · exact Nat.le_of_eq (by congr 1)
    · exact pairwise_iff_getElem.mp hs j mid (by omega) hmid hjm
  | case2 a b hab mid hge ih => exact ih (by omega) ha
  | case3 => exact ha

end SpanTrees
