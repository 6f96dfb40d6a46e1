import Mathlib.Data.List.Sublists

/-! # Reordering independent steps

Two orders of the same steps end in the same state when every pair that the orders
disagree about commutes.  `Before l a b` says that `a` comes before `b` in `l`.

The argument moves the first step of one order to the front of the other: everything it
passes comes after it in the first order and before it in the second, hence commutes
with it.
-/
namespace Reorder
open List

variable {α σ : Type*}

/-- Run the steps of a list from left to right. -/
def run (step : α → σ → σ) (l : List α) (s : σ) : σ := l.foldl (fun s a => step a s) s

/-- `a` has an occurrence before an occurrence of `b`. -/
def Before (l : List α) (a b : α) : Prop := List.Sublist [a, b] l

def Commutes (step : α → σ → σ) (a b : α) : Prop := ∀ s, step a (step b s) = step b (step a s)

section
variable {step : α → σ → σ} {a b c : α} {l l' xs ys : List α}

@[simp] theorem run_cons (s : σ) : run step (a :: l) s = run step l (step a s) := rfl

theorem run_concat (s : σ) : run step (l ++ [a]) s = step a (run step l s) := by
  rw [run, foldl_append]
  rfl

theorem Before.mem_left (h : Before l a b) : a ∈ l := h.subset mem_cons_self

theorem Before.mem_right (h : Before l a b) : b ∈ l :=
  h.subset (mem_cons_of_mem _ mem_cons_self)

theorem Before.mono (h : Before l a b) (hl : List.Sublist l l') : Before l' a b :=
  List.Sublist.trans h hl

theorem before_cons_self (h : b ∈ l) : Before (a :: l) a b :=
  (singleton_sublist.mpr h).cons_cons a

theorem before_append (ha : a ∈ xs) (hb : b ∈ ys) : Before (xs ++ ys) a b :=
  (singleton_sublist.mpr ha).append (singleton_sublist.mpr hb)

/-- Two distinct members come in one order or the other. -/
theorem before_total (ha : a ∈ l) (hb : b ∈ l) (hab : a ≠ b) : Before l a b ∨ Before l b a := by
  obtain ⟨xs, ys, rfl⟩ := append_of_mem ha
  rcases mem_append.mp hb with hb | hb
  · exact Or.inr (before_append hb mem_cons_self)
  · rcases mem_cons.mp hb with hb | hb
    · exact absurd hb.symm hab
    · exact Or.inl ((before_cons_self hb).mono (sublist_append_right xs _))

theorem Before.asymm (h : Before l a b) (hn : l.Nodup) : ¬ Before l b a := by
  induction l with
  | nil => exact absurd h.mem_left not_mem_nil
  | cons c l ih =>
    obtain ⟨hc, hn⟩ := nodup_cons.mp hn
    intro h'
    cases h with
    | cons _ h =>
      cases h' with
      | cons _ h' => exact ih h hn h'
      | cons_cons _ h' => exact hc (Before.mem_right h)
    | cons_cons _ h =>
      cases h' with
      | cons _ h' => exact hc (Before.mem_right h')
      | cons_cons _ h' => exact hc (singleton_sublist.mp h')

theorem before_cons_iff : Before (c :: l) a b ↔ (a = c ∧ b ∈ l) ∨ Before l a b := by
  constructor
  · intro h
    cases h with
    | cons _ h => exact Or.inr h
    | cons_cons _ h => exact Or.inl ⟨rfl, singleton_sublist.mp h⟩
  · rintro (⟨rfl, hb⟩ | h)
    · exact before_cons_self hb
    · exact h.mono (sublist_cons_self c l)

theorem Before.trans (h : Before l a b) (h' : Before l b c) (hn : l.Nodup) : Before l a c := by
  induction l with
  | nil => exact absurd h.mem_left not_mem_nil
  | cons x l ih =>
    obtain ⟨hx, hn⟩ := nodup_cons.mp hn
    rw [before_cons_iff] at h h' ⊢
    rcases h' with ⟨rfl, hc⟩ | h'
    · rcases h with ⟨-, hb⟩ | h
      · exact absurd hb hx
      · exact absurd h.mem_right hx
    · rcases h with ⟨rfl, -⟩ | h
      · exact Or.inl ⟨rfl, h'.mem_right⟩
      · exact Or.inr (ih h h' hn)

/-- In a sorted list the order of the keys is the order of the list. -/
theorem before_of_pairwise {r : α → α → Prop} (h : l.Pairwise r) (hab : Before l a b) : r a b :=
  pairwise_iff_forall_sublist.mp h hab

/-- A step moves to the front past steps it commutes with. -/
theorem run_move_front (h : ∀ b ∈ xs, Commutes step a b) (s : σ) :
    run step (xs ++ a :: ys) s = run step (a :: (xs ++ ys)) s := by
  induction xs generalizing s with
  | nil => rfl
  | cons b xs ih =>
    rw [cons_append, run_cons, ih (fun c hc => h c (mem_cons_of_mem _ hc)), run_cons,
      h b mem_cons_self s]
    rfl

/-- **Orders that disagree only about commuting pairs are the same run.** -/
theorem run_perm (hp : l.Perm l') (hn : l.Nodup)
    (h : ∀ a b, Before l a b → Before l' b a → Commutes step a b) (s : σ) :
    run step l s = run step l' s := by
  induction l generalizing l' s with
  | nil => rw [hp.nil_eq]
  | cons a l ih =>
    obtain ⟨hal, hn⟩ := nodup_cons.mp hn
    obtain ⟨xs, ys, rfl⟩ := append_of_mem (hp.mem_iff.mp mem_cons_self)
    have hperm : l.Perm (xs ++ ys) := (hp.trans perm_middle).cons_inv
    have hsub : List.Sublist (xs ++ ys) (xs ++ a :: ys) :=
      (List.Sublist.refl xs).append (sublist_cons_self a ys)
    have hfront : ∀ b ∈ xs, Commutes step a b := fun b hb =>
      h a b (before_cons_self (hperm.mem_iff.mpr (mem_append_left _ hb)))
        (before_append hb mem_cons_self)
    rw [run_move_front hfront, run_cons, run_cons]
    exact ih hperm hn (fun b c hb hc => h b c (hb.mono (sublist_cons_self a l)) (hc.mono hsub)) _

end

end Reorder
