import Mathlib.Data.List.Nodup
import Mathlib.Order.Basic
import Mathlib.Logic.Relation

/-! # Strongly connected components

Components listed one by one, each after all that it can reach (`Condensed`).  A list grows by a
set of nodes that reach each other and from which every edge stays in the set or leads into the
components listed before (`Condensed.push`).

That all nodes of a set reach one of them follows from a rank: every other node reaches one of
lower rank that is in no component yet (`reach_of_rank`).
-/
namespace StronglyConnected
open List

variable {α : Type*} {succ : α → List α}

def Reach (succ : α → List α) : α → α → Prop := Relation.ReflTransGen fun u v => v ∈ succ u

theorem Reach.edge {u v : α} (h : v ∈ succ u) : Reach succ u v := Relation.ReflTransGen.single h

/-- The components are strongly connected components, each after all that it can reach. -/
structure Condensed (succ : α → List α) (components : List (List α)) : Prop where
  nonempty : ∀ c ∈ components, c ≠ []
  nodup : components.flatten.Nodup
  strong : ∀ c ∈ components, ∀ u ∈ c, ∀ v, v ∈ c ↔ Reach succ u v ∧ Reach succ v u
  after : ∀ before c rest, components = before ++ c :: rest →
    ∀ u ∈ c, ∀ v, Reach succ u v → v ∈ before.flatten ∨ v ∈ c

theorem Condensed.nil : Condensed succ [] where
  nonempty _ h := nomatch h
  nodup := nodup_nil
  strong _ h := nomatch h
  after before c rest h := by
    have := congrArg List.length h
    simp at this

section
variable {closed done : α → Prop} {root : α}

/-- Where edges lead from the set into the set or into what is done, so do paths. -/
theorem Reach.closed_or_done (hclosed : ∀ x, closed x → ∀ y ∈ succ x, closed y ∨ done y)
    (hdone : ∀ x, done x → ∀ y ∈ succ x, done y) {x y : α} (hx : closed x) (h : Reach succ x y) :
    closed y ∨ done y := by
  induction h with
  | refl => exact .inl hx
  | tail _ hedge ih =>
    rcases ih with h | h
    · exact hclosed _ h _ hedge
    · exact .inr (hdone _ h _ hedge)

theorem Reach.stays_done (hdone : ∀ x, done x → ∀ y ∈ succ x, done y) {x y : α} (hx : done x)
    (h : Reach succ x y) : done y := by
  induction h with
  | refl => exact hx
  | tail _ hedge ih => exact hdone _ ih _ hedge

/-- Paths that go down in rank end at the root. -/
theorem reach_of_rank (rank : α → Nat)
    (hclosed : ∀ x, closed x → ∀ y ∈ succ x, closed y ∨ done y)
    (hdone : ∀ x, done x → ∀ y ∈ succ x, done y)
    (hlower : ∀ x, closed x → x ≠ root → ∃ w, Reach succ x w ∧ ¬ done w ∧ rank w < rank x)
    {x : α} (hx : closed x) : Reach succ x root := by
  -- by induction on the rank
  generalize hr : rank x = r
  induction r using Nat.strongRecOn generalizing x with
  | _ r ih =>
    by_cases hroot : x = root
    · rw [hroot]
      exact Relation.ReflTransGen.refl
    · obtain ⟨w, hreach, hnot, hlt⟩ := hlower x hx hroot
      have hw := (hreach.closed_or_done hclosed hdone hx).resolve_right hnot
      exact hreach.trans (ih (rank w) (hr ▸ hlt) hw rfl)

/-- Nodes that reach a root and are reached from it, with no edge to others but done ones, are a
component. -/
theorem strong_of_root (hclosed : ∀ x, closed x → ∀ y ∈ succ x, closed y ∨ done y)
    (hdone : ∀ x, done x → ∀ y ∈ succ x, done y) (hnot : ∀ x, closed x → ¬ done x)
    (hfrom : ∀ x, closed x → Reach succ root x) (hto : ∀ x, closed x → Reach succ x root)
    {u : α} (hu : closed u) (v : α) : closed v ↔ Reach succ u v ∧ Reach succ v u := by
  constructor
  · exact fun hv => ⟨(hto u hu).trans (hfrom v hv), (hto v hv).trans (hfrom u hu)⟩
  · rintro ⟨h1, h2⟩
    rcases h1.closed_or_done hclosed hdone hu with hv | hv
    · exact hv
    · exact absurd (h2.stays_done hdone hv) (hnot u hu)

end

variable {components : List (List α)}

/-- One more component. -/
theorem Condensed.push (h : Condensed succ components) {c : List α} (hc : c ≠ []) (hnodup : c.Nodup)
    (hdisjoint : ∀ x ∈ c, x ∉ components.flatten)
    (hstrong : ∀ u ∈ c, ∀ v, v ∈ c ↔ Reach succ u v ∧ Reach succ v u)
    (hafter : ∀ u ∈ c, ∀ v, Reach succ u v → v ∈ c ∨ v ∈ components.flatten) :
    Condensed succ (components ++ [c]) where
  nonempty d hd := by
    rcases mem_append.mp hd with hd | hd
    · exact h.nonempty d hd
    · rwa [mem_singleton.mp hd]
  nodup := by
    rw [flatten_append, flatten_singleton, nodup_append']
    exact ⟨h.nodup, hnodup, fun x hx hxc => hdisjoint x hxc hx⟩
  strong d hd := by
    rcases mem_append.mp hd with hd | hd
    · exact h.strong d hd
    · rwa [mem_singleton.mp hd]
  after before d rest heq u hu v hv := by
    rcases eq_nil_or_concat rest with rfl | ⟨rest, last, rfl⟩
    · obtain ⟨rfl, hd⟩ := append_inj' heq rfl
      obtain rfl := (List.cons.inj hd).1
      exact (hafter u hu v hv).symm
    · rw [concat_eq_append, ← cons_append, ← append_assoc] at heq
      exact h.after before d rest (append_inj' heq rfl).1 u hu v hv

/-- Components that are reached stand before or are the same. -/
theorem Condensed.le_of_reach (h : Condensed succ components) {i j : Nat}
    (hi : i < components.length) (hj : j < components.length) {u v : α} (hu : u ∈ components[i])
    (hv : v ∈ components[j]) (hreach : Reach succ u v) : j ≤ i := by
  by_contra hlt
  have hsplit : components = components.take i ++ components[i] :: components.drop (i + 1) := by
    rw [← drop_eq_getElem_cons hi, take_append_drop]
  have hdisjoint := (nodup_flatten.mp h.nodup).2
  rcases h.after _ _ _ hsplit u hu v hreach with hmem | hmem
  · obtain ⟨c, hc, hvc⟩ := mem_flatten.mp hmem
    obtain ⟨k, hk, rfl⟩ := mem_take_iff_getElem.mp hc
    exact pairwise_iff_getElem.mp hdisjoint k j (by omega) hj (by omega) hvc hv
  · exact pairwise_iff_getElem.mp hdisjoint i j hi hj (by omega) hmem hv

end StronglyConnected
