import Mathlib.Data.Fintype.Card

/-! # Expanding texts that refer to each other

A text is written in steps: it writes symbols, refers to another text by name, or fails;
a mark takes no room.  Several texts may refer to the same one, and a text may refer to
itself through others.  `Expands` says what a text stands for when every reference is
replaced by the text it names, with the position of every mark: a text on a cycle stands
for nothing (`Expands.acyclic`).

`expand` computes it and fails on a reference back to a text that is being expanded.  Over
finitely many names it needs no more depth than there are names (`expand_ne_overflow`) and
finds every expansion there is (`Expands.expand_eq`).  The marks of an expansion are the
occurrences that a path of references leads to, each once and in order.
-/
namespace Expansion
open List

/-- One step of writing a text. -/
inductive Step (ν μ β ε : Type) where
  | mark (m : μ)
  | write (bs : List β)
  | refer (n : ν)
  | fail (e : ε)

def Step.isMark : Step ν μ β ε → Bool
  | .mark _ => true
  | _ => false

/-- Why a text is not expanded: too many references inside each other, a reference back to
a text that is being expanded, or a failure of the text's own. -/
inductive Failure (ε : Type) where
  | overflow
  | cyclic
  | thrown (e : ε)
  deriving DecidableEq

/-- Symbols with marks at positions among them. -/
@[ext] structure Marked (μ β : Type) where
  symbols : List β
  marks : List (Nat × μ)

variable {ν μ β ε : Type}

namespace Marked

/-- The marks of a text that stands after `k` symbols. -/
def shift (k : Nat) (marks : List (Nat × μ)) : List (Nat × μ) :=
  marks.map fun m => (k + m.1, m.2)

def empty : Marked μ β := ⟨[], []⟩

instance : Append (Marked μ β) where
  append t u := ⟨t.symbols ++ u.symbols, t.marks ++ shift t.symbols.length u.marks⟩

@[simp] theorem shift_nil (k : Nat) : shift k ([] : List (Nat × μ)) = [] := rfl

@[simp] theorem shift_zero (marks : List (Nat × μ)) : shift 0 marks = marks := by
  simp [shift]

@[simp] theorem shift_append (k : Nat) (ms ms' : List (Nat × μ)) :
    shift k (ms ++ ms') = shift k ms ++ shift k ms' := map_append

@[simp] theorem shift_shift (k k' : Nat) (marks : List (Nat × μ)) :
    shift k (shift k' marks) = shift (k + k') marks := by
  simp [shift, Nat.add_assoc]

@[simp] theorem symbols_append (t u : Marked μ β) : (t ++ u).symbols = t.symbols ++ u.symbols :=
  rfl

@[simp] theorem marks_append (t u : Marked μ β) :
    (t ++ u).marks = t.marks ++ shift t.symbols.length u.marks := rfl

@[simp] theorem empty_symbols : (empty : Marked μ β).symbols = [] := rfl

@[simp] theorem empty_marks : (empty : Marked μ β).marks = [] := rfl

@[simp] theorem empty_append (t : Marked μ β) : empty ++ t = t := by
  apply Marked.ext <;> simp

@[simp] theorem append_empty (t : Marked μ β) : t ++ empty = t := by
  apply Marked.ext <;> simp

theorem append_assoc (t u v : Marked μ β) : t ++ u ++ v = t ++ (u ++ v) := by
  apply Marked.ext <;> simp

end Marked

/-! ### What a text stands for -/

section Expands

variable (content : ν → List (Step ν μ β ε))

/-- The steps write `t` when every reference is expanded. -/
inductive Expands : List (Step ν μ β ε) → Marked μ β → Prop
  | nil : Expands [] .empty
  | mark {m rest t} (h : Expands rest t) : Expands (.mark m :: rest) (⟨[], [(0, m)]⟩ ++ t)
  | write {bs rest t} (h : Expands rest t) : Expands (.write bs :: rest) (⟨bs, []⟩ ++ t)
  | refer {n rest t u} (hn : Expands (content n) t) (h : Expands rest u) :
    Expands (.refer n :: rest) (t ++ u)

/-- The text `n` refers to `m`. -/
def Refers (n m : ν) : Prop := Step.refer m ∈ content n

variable {content}

theorem Expands.append {xs ys : List (Step ν μ β ε)} {t u : Marked μ β}
    (hx : Expands content xs t) (hy : Expands content ys u) :
    Expands content (xs ++ ys) (t ++ u) := by
  induction hx with
  | nil => exact (Marked.empty_append u).symm ▸ hy
  | mark _ ih => exact Marked.append_assoc _ _ u ▸ .mark ih
  | write _ ih => exact Marked.append_assoc _ _ u ▸ .write ih
  | refer hn _ _ ih => exact Marked.append_assoc _ _ u ▸ .refer hn ih

theorem Expands.singleMark (m : μ) : Expands content [.mark m] ⟨[], [(0, m)]⟩ := by
  have h : Expands content [.mark m] (⟨[], [(0, m)]⟩ ++ .empty) := .mark .nil
  rwa [Marked.append_empty] at h

theorem Expands.singleWrite (bs : List β) : Expands content [.write bs] ⟨bs, []⟩ := by
  have h : Expands content [.write bs] (⟨bs, []⟩ ++ .empty) := .write .nil
  rwa [Marked.append_empty] at h

variable {t : Marked μ β} {n : ν}

theorem Expands.singleRefer (hn : Expands content (content n) t) :
    Expands content [.refer n] t := by
  have h : Expands content [.refer n] (t ++ .empty) := .refer hn .nil
  rwa [Marked.append_empty] at h

theorem Expands.accessible {steps : List (Step ν μ β ε)} (h : Expands content steps t)
    (hn : Step.refer n ∈ steps) : Acc (fun m n => Refers content n m) n := by
  induction h generalizing n with
  | nil => cases hn
  | mark _ ih | write _ ih => exact ih (by simpa using hn)
  | refer _ _ ihn ih =>
    rcases mem_cons.mp hn with heq | hrest
    · cases heq
      exact .intro _ fun m hm => ihn hm
    · exact ih hrest

theorem not_transGen_of_acc {r : ν → ν → Prop} (h : Acc (fun m n => r n m) n) :
    ¬ Relation.TransGen r n n := by
  induction h with
  | intro n _ ih =>
    intro hcycle
    obtain ⟨m, hm, hback⟩ := Relation.TransGen.head'_iff.mp hcycle
    exact ih m hm (Relation.TransGen.tail' hback hm)

/-- **A text on a cycle of references stands for nothing.** -/
theorem Expands.acyclic (h : Expands content (content n) t) :
    ¬ Relation.TransGen (Refers content) n n :=
  not_transGen_of_acc (.intro n fun _ hm => h.accessible hm)

end Expands

/-! ### Occurrences -/

section Occurrences

variable (content : ν → List (Step ν μ β ε))

/-- The mark that a path leads to: every number of the path but the last is the place of a
reference among the steps, and the last one that of the mark. -/
def markAt : List (Step ν μ β ε) → List Nat → Option μ
  | _, [] => none
  | steps, k :: path => steps[k]?.bind fun
    | .mark m => if path = [] then some m else none
    | .refer n => markAt (content n) path
    | _ => none

/-- What the path leads to stands after `k` symbols of the expansion. -/
inductive PositionAt : List (Step ν μ β ε) → List Nat → Nat → Prop
  | mark {before m rest t} (h : Expands content before t) :
    PositionAt (before ++ .mark m :: rest) [before.length] t.symbols.length
  | refer {before n rest t path k} (h : Expands content before t)
    (hk : PositionAt (content n) path k) :
    PositionAt (before ++ .refer n :: rest) (before.length :: path) (t.symbols.length + k)

/-- One place of the expansion at which a mark stands. -/
structure Occurrence (μ : Type) where
  path : List Nat
  position : Nat
  mark : μ

/-- The occurrences of marks in the expansion `t` of the steps, in order. -/
structure Enumerates (steps : List (Step ν μ β ε)) (t : Marked μ β)
    (occs : List (Occurrence μ)) : Prop where
  marks : occs.map (fun o => (o.position, o.mark)) = t.marks
  nodup : (occs.map Occurrence.path).Nodup
  complete : ∀ path m, markAt content steps path = some m ↔
    ∃ o ∈ occs, o.path = path ∧ o.mark = m
  positions : ∀ o ∈ occs, PositionAt content steps o.path o.position

/-- The path, behind one more step. -/
def behind : List Nat → List Nat
  | [] => []
  | k :: path => (k + 1) :: path

/-- The occurrence, behind a step that writes `k` symbols. -/
def Occurrence.behind (k : Nat) (o : Occurrence μ) : Occurrence μ :=
  ⟨Expansion.behind o.path, k + o.position, o.mark⟩

/-- The occurrence, inside the text that the first step refers to. -/
def Occurrence.inside (o : Occurrence μ) : Occurrence μ := ⟨0 :: o.path, o.position, o.mark⟩

variable {content}

theorem markAt_behind (step : Step ν μ β ε) (rest : List (Step ν μ β ε)) (k : Nat)
    (path : List Nat) :
    markAt content (step :: rest) ((k + 1) :: path) = markAt content rest (k :: path) := by
  rw [markAt, markAt, getElem?_cons_succ]

theorem behind_injective : Function.Injective behind := by
  intro p q h
  cases p <;> cases q <;> simp_all [behind]

variable {step : Step ν μ β ε} {t : Marked μ β} {steps : List (Step ν μ β ε)}

theorem PositionAt.behind {path : List Nat} {k : Nat} (hstep : Expands content [step] t)
    (h : PositionAt content steps path k) :
    PositionAt content (step :: steps) (Expansion.behind path) (t.symbols.length + k) := by
  cases h with
  | mark hb =>
    have hall := hstep.append hb
    simpa [Expansion.behind] using PositionAt.mark hall
  | refer hb hk =>
    have hall := hstep.append hb
    simpa [Expansion.behind, Nat.add_assoc] using PositionAt.refer hall hk

/-- Occurrences behind one more step that has none of its own. -/
theorem Enumerates.behind {u : Marked μ β} {occs : List (Occurrence μ)}
    (h : Enumerates content steps t occs) (first : List (Occurrence μ))
    (hstep : Expands content [step] u)
    (hfirst : first.map (fun o => (o.position, o.mark)) = u.marks)
    (hnodup : (first.map Occurrence.path).Nodup) (hzero : ∀ o ∈ first, ∃ path, o.path = 0 :: path)
    (hcomplete : ∀ path m, markAt content (step :: steps) (0 :: path) = some m ↔
      ∃ o ∈ first, o.path = 0 :: path ∧ o.mark = m)
    (hpositions : ∀ o ∈ first, PositionAt content (step :: steps) o.path o.position) :
    Enumerates content (step :: steps) (u ++ t)
      (first ++ occs.map (Occurrence.behind u.symbols.length)) where
  marks := by
    rw [map_append, hfirst, Marked.marks_append, ← h.marks, Marked.shift, map_map,
      map_map]
    rfl
  nodup := by
    rw [map_append, map_map, nodup_append]
    refine ⟨hnodup, ?_, ?_⟩
    · have hmap : Occurrence.path ∘ Occurrence.behind (μ := μ) u.symbols.length =
          Expansion.behind ∘ Occurrence.path := rfl
      rw [hmap, ← map_map]
      exact h.nodup.map behind_injective
    · intro p hp q hq heq
      obtain ⟨o, ho, rfl⟩ := mem_map.mp hp
      obtain ⟨o', ho', rfl⟩ := mem_map.mp hq
      obtain ⟨path, hpath⟩ := hzero o ho
      rw [hpath] at heq
      cases hpath' : o'.path <;> simp [Occurrence.behind, Expansion.behind, hpath'] at heq
  complete := by
    intro path m
    cases path with
    | nil =>
      refine ⟨fun hm => by simp [markAt] at hm, ?_⟩
      rintro ⟨o, ho, hpath, -⟩
      rcases mem_append.mp ho with ho | ho
      · obtain ⟨path, hcons⟩ := hzero o ho
        simp [hpath] at hcons
      · obtain ⟨o', ho', rfl⟩ := mem_map.mp ho
        have hpos := h.positions o' ho'
        cases hp : o'.path with
        | nil =>
          rw [hp] at hpos
          cases hpos
        | cons k path => simp [Occurrence.behind, Expansion.behind, hp] at hpath
    | cons k path =>
      cases k with
      | zero =>
        rw [hcomplete]
        refine ⟨?_, ?_⟩
        · rintro ⟨o, ho, hpath⟩
          exact ⟨o, mem_append_left _ ho, hpath⟩
        rintro ⟨o, ho, hpath⟩
        rcases mem_append.mp ho with ho | ho
        · exact ⟨o, ho, hpath⟩
        · obtain ⟨o', ho', rfl⟩ := mem_map.mp ho
          cases hp : o'.path <;> simp [Occurrence.behind, Expansion.behind, hp] at hpath
      | succ k =>
        rw [markAt_behind, h.complete]
        constructor
        · rintro ⟨o, ho, hpath, hmark⟩
          exact ⟨o.behind _, mem_append_right _ (mem_map_of_mem ho),
            by simp [Occurrence.behind, Expansion.behind, hpath], hmark⟩
        · rintro ⟨o, ho, hpath, hmark⟩
          rcases mem_append.mp ho with ho | ho
          · obtain ⟨path', hcons⟩ := hzero o ho
            simp [hpath] at hcons
          · obtain ⟨o', ho', rfl⟩ := mem_map.mp ho
            exact ⟨o', ho', behind_injective hpath, hmark⟩
  positions := by
    intro o ho
    rcases mem_append.mp ho with ho | ho
    · exact hpositions o ho
    · obtain ⟨o', ho', rfl⟩ := mem_map.mp ho
      exact (h.positions o' ho').behind hstep

/-- **The marks of an expansion are the occurrences**, each once and in order. -/
theorem Expands.enumerates (h : Expands content steps t) :
    ∃ occs, Enumerates content steps t occs := by
  induction h with
  | nil =>
    refine ⟨[], rfl, nodup_nil, fun path m => ?_, nofun⟩
    cases path <;> simp [markAt]
  | @mark m rest t _ ih =>
    obtain ⟨occs, hoccs⟩ := ih
    refine ⟨_, hoccs.behind [⟨[0], 0, m⟩] (.singleMark m) rfl (by simp) (by simp) ?_ ?_⟩
    · intro path m'
      cases path <;> simp [markAt]
    · intro o ho
      cases mem_singleton.mp ho
      exact .mark .nil
  | @write bs rest t _ ih =>
    obtain ⟨occs, hoccs⟩ := ih
    refine ⟨_, hoccs.behind [] (.singleWrite bs) rfl (by simp) nofun ?_ nofun⟩
    intro path m'
    simp [markAt]
  | @refer n rest t u hn _ ihn ih =>
    obtain ⟨inner, hinner⟩ := ihn
    obtain ⟨occs, hoccs⟩ := ih
    refine ⟨_, hoccs.behind (inner.map Occurrence.inside) (.singleRefer hn) ?_ ?_ ?_ ?_ ?_⟩
    · rw [← hinner.marks, map_map]
      rfl
    · have hmap : Occurrence.path ∘ Occurrence.inside (μ := μ) =
          List.cons 0 ∘ Occurrence.path := rfl
      rw [map_map, hmap, ← map_map]
      exact hinner.nodup.map cons_injective
    · intro o ho
      obtain ⟨o', -, rfl⟩ := mem_map.mp ho
      exact ⟨_, rfl⟩
    · intro path m
      have hmark : markAt content (.refer n :: rest) (0 :: path) =
          markAt content (content n) path := by
        rw [markAt, getElem?_cons_zero]
        rfl
      rw [hmark, hinner.complete]
      constructor
      · rintro ⟨o, ho, rfl, hm⟩
        exact ⟨o.inside, mem_map_of_mem ho, rfl, hm⟩
      · rintro ⟨o, ho, hpath, hm⟩
        obtain ⟨o', ho', rfl⟩ := mem_map.mp ho
        exact ⟨o', ho', (List.cons.inj hpath).2, hm⟩
    · intro o ho
      obtain ⟨o', ho', rfl⟩ := mem_map.mp ho
      have hpos : PositionAt content ([] ++ .refer n :: rest) (([] : List (Step ν μ β ε)).length
          :: o'.path) ((Marked.empty : Marked μ β).symbols.length + o'.position) :=
        .refer .nil (hinner.positions o' ho')
      simpa [Occurrence.inside] using hpos

/-! ### Marks that stand before a symbol of their own -/

/-- The first step writes `b` first, or fails. -/
def StartsWith (b : β) : List (Step ν μ β ε) → Prop
  | .write (c :: _) :: _ => c = b
  | .fail _ :: _ => True
  | _ => False

/-- Behind every mark its opening symbol is written, or the text fails. -/
def Opens (opener : μ → β) : List (Step ν μ β ε) → Prop
  | [] => True
  | .mark m :: rest => StartsWith (opener m) rest ∧ Opens opener rest
  | _ :: rest => Opens opener rest

omit content in
theorem StartsWith.append {b : β} {xs : List (Step ν μ β ε)} (h : StartsWith b xs)
    (ys : List (Step ν μ β ε)) : StartsWith b (xs ++ ys) := by
  match xs, h with
  | .write (_ :: _) :: _, h => exact h
  | .fail _ :: _, _ => trivial

/-- The marks are in increasing order, each at its opening symbol. -/
structure Marked.Opened (opener : μ → β) (t : Marked μ β) : Prop where
  sorted : t.marks.Pairwise (·.1 < ·.1)
  opening : ∀ p ∈ t.marks, t.symbols[p.1]? = some (opener p.2)

omit content in
theorem Marked.Opened.plain (opener : μ → β) (bs : List β) :
    Marked.Opened opener (⟨bs, []⟩ : Marked μ β) := ⟨.nil, nofun⟩

omit content in
theorem Marked.Opened.append {opener : μ → β} {t u : Marked μ β} (ht : t.Opened opener)
    (hu : u.Opened opener) : (t ++ u).Opened opener := by
  have hlt : ∀ p ∈ t.marks, p.1 < t.symbols.length := fun p hp =>
    (List.getElem?_eq_some_iff.mp (ht.opening p hp)).1
  constructor
  · refine pairwise_append.mpr ⟨ht.sorted, ?_, ?_⟩
    · rw [Marked.shift, pairwise_map]
      exact hu.sorted.imp fun hlt => Nat.add_lt_add_left hlt _
    · intro p hp q hq
      obtain ⟨q', -, rfl⟩ := mem_map.mp hq
      exact (hlt p hp).trans_le (Nat.le_add_right _ _)
  · intro p hp
    rw [Marked.symbols_append]
    rcases mem_append.mp hp with hp | hp
    · rw [getElem?_append_left (hlt p hp)]
      exact ht.opening p hp
    · obtain ⟨q, hq, rfl⟩ := mem_map.mp hp
      rw [getElem?_append_right (Nat.le_add_right _ _), Nat.add_sub_cancel_left]
      exact hu.opening q hq

/-- **Every mark of an expansion stands at its opening symbol.** -/
theorem Expands.opened {opener : μ → β} (hcontent : ∀ n, Opens opener (content n))
    {steps : List (Step ν μ β ε)} {t : Marked μ β} (h : Expands content steps t)
    (hsteps : Opens opener steps) : t.Opened opener := by
  induction h with
  | nil => exact .plain opener []
  | @mark m rest t hrest ih =>
    obtain ⟨hfirst, hopens⟩ := hsteps
    have ht := ih hopens
    cases hrest with
    | nil | mark _ | refer _ _ => exact hfirst.elim
    | @write bs rest u _ =>
      cases bs with
      | nil => exact hfirst.elim
      | cons b bs =>
        have hb : b = opener m := hfirst
        obtain ⟨hsorted, hat⟩ := ht
        constructor
        · refine pairwise_cons.mpr ⟨fun p hp => ?_, by simpa using hsorted⟩
          simp only [Marked.marks_append, nil_append, length_nil, Marked.shift_zero,
            length_cons] at hp
          obtain ⟨q, -, rfl⟩ := mem_map.mp hp
          show 0 < bs.length + 1 + q.1
          omega
        · intro p hp
          rcases mem_cons.mp hp with rfl | hp
          · simp [hb]
          · exact hat p (by simpa using hp)
  | write _ ih => exact (Marked.Opened.plain opener _).append (ih hsteps)
  | refer _ _ ihn ih => exact (ihn (hcontent _)).append (ih hsteps)

end Occurrences

/-! ### Computing the expansion -/

section Expand

variable (content : ν → List (Step ν μ β ε))

/-- Expand the steps, with `node` for the references. -/
def expandSteps (node : ν → Except (Failure ε) (Marked μ β)) :
    List (Step ν μ β ε) → Except (Failure ε) (Marked μ β)
  | [] => .ok .empty
  | .mark m :: rest => (expandSteps node rest).map (⟨[], [(0, m)]⟩ ++ ·)
  | .write bs :: rest => (expandSteps node rest).map (⟨bs, []⟩ ++ ·)
  | .refer n :: rest =>
    match node n with
    | .ok t => (expandSteps node rest).map (t ++ ·)
    | .error e => .error e
  | .fail e :: _ => .error (.thrown e)

/-- Expand the text `n` while those in `active` are being expanded, with `depth` references
inside each other at most. -/
def expand [DecidableEq ν] : Nat → List ν → ν → Except (Failure ε) (Marked μ β)
  | 0, _, _ => .error .overflow
  | depth + 1, active, n =>
    if n ∈ active then .error .cyclic
    else expandSteps (expand depth (n :: active)) (content n)

variable {content}

variable {t : Marked μ β}

theorem expandSteps_sound {node : ν → Except (Failure ε) (Marked μ β)}
    (hnode : ∀ n t, node n = .ok t → Expands content (content n) t) {steps : List (Step ν μ β ε)}
    (h : expandSteps node steps = .ok t) :
    Expands content steps t := by
  induction steps generalizing t with
  | nil =>
    cases h
    exact .nil
  | cons step rest ih =>
    cases step with
    | mark m =>
      rw [expandSteps] at h
      cases hr : expandSteps node rest with
      | error e => simp [hr, Except.map] at h
      | ok u =>
        simp only [hr, Except.map, Except.ok.injEq] at h
        exact h ▸ .mark (ih hr)
    | write bs =>
      rw [expandSteps] at h
      cases hr : expandSteps node rest with
      | error e => simp [hr, Except.map] at h
      | ok u =>
        simp only [hr, Except.map, Except.ok.injEq] at h
        exact h ▸ .write (ih hr)
    | refer n =>
      rw [expandSteps] at h
      cases hn : node n with
      | error e => simp [hn] at h
      | ok u =>
        cases hr : expandSteps node rest with
        | error e => simp [hn, hr, Except.map] at h
        | ok v =>
          simp only [hn, hr, Except.map, Except.ok.injEq] at h
          exact h ▸ .refer (hnode n u hn) (ih hr)
    | fail e => simp [expandSteps] at h

/-- What is computed is the expansion. -/
theorem expand_sound [DecidableEq ν] (depth : Nat) {active : List ν} {n : ν}
    (h : expand content depth active n = .ok t) : Expands content (content n) t := by
  induction depth generalizing active n t with
  | zero => simp [expand] at h
  | succ depth ih =>
    rw [expand] at h
    split at h
    · cases h
    · exact expandSteps_sound (fun m u hu => ih hu) h

section Finite

variable [Fintype ν] [DecidableEq ν]

variable {t : Marked μ β} {depth : Nat} {active : List ν}

/-- **The expansion is found**, when the texts that are being expanded lead to the steps and
the depth leaves room for the others. -/
theorem Expands.expandSteps_eq {steps : List (Step ν μ β ε)} (h : Expands content steps t)
    (hnodup : active.Nodup) (hdepth : Fintype.card ν < depth + active.length)
    (hpath : ∀ a ∈ active, ∀ n, Step.refer n ∈ steps → Relation.TransGen (Refers content) a n) :
    expandSteps (expand content depth active) steps = .ok t := by
  induction h generalizing depth active with
  | nil => rfl
  | mark _ ih | write _ ih =>
    rw [expandSteps, ih hnodup hdepth fun a ha n hn => hpath a ha n (.tail _ hn)]
    rfl
  | @refer n rest t u hn _ ihn ih =>
    have hfresh : n ∉ active := fun hmem => hn.acyclic (hpath n hmem n (.head _))
    have hroom := hnodup.length_le_card
    cases depth with
    | zero => omega
    | succ depth =>
      have hnode : expand content (depth + 1) active n = .ok t := by
        rw [expand, if_neg hfresh]
        apply ihn (nodup_cons.mpr ⟨hfresh, hnodup⟩)
        · simp only [length_cons]
          omega
        · intro a ha m hm
          rcases mem_cons.mp ha with rfl | ha
          · exact .single hm
          · exact .tail (hpath a ha n (.head _)) hm
      rw [expandSteps, hnode]
      show (expandSteps _ rest).map (t ++ ·) = _
      rw [ih hnodup hdepth fun a ha m hm => hpath a ha m (.tail _ hm)]
      rfl

theorem Expands.expand_eq {n : ν} (h : Expands content (content n) t) (hnodup : active.Nodup)
    (hdepth : Fintype.card ν < depth + active.length)
    (hpath : ∀ a ∈ active, Relation.TransGen (Refers content) a n) :
    expand content depth active n = .ok t := by
  have hrefer : Expands content [.refer n] (t ++ .empty) := .refer h .nil
  have heq := hrefer.expandSteps_eq hnodup hdepth fun a ha m hm => by
    cases mem_singleton.mp hm
    exact hpath a ha
  rw [expandSteps] at heq
  cases hn : expand content depth active n with
  | error e => simp [hn] at heq
  | ok u => simpa [hn, expandSteps, Except.map] using heq

omit [Fintype ν] [DecidableEq ν] in
theorem expandSteps_ne_overflow {node : ν → Except (Failure ε) (Marked μ β)}
    (hnode : ∀ n, node n ≠ .error .overflow) (steps : List (Step ν μ β ε)) :
    expandSteps node steps ≠ .error .overflow := by
  induction steps with
  | nil => exact nofun
  | cons step rest ih =>
    have hmap : ∀ f : Marked μ β → Marked μ β,
        (expandSteps node rest).map f ≠ .error .overflow := by
      intro f
      cases hr : expandSteps node rest with
      | ok u => exact nofun
      | error e => exact fun h => ih (hr.trans h)
    cases step with
    | mark m | write bs => exact hmap _
    | refer n =>
      rw [expandSteps]
      cases hn : node n with
      | ok t => exact hmap _
      | error e => exact fun h => hnode n (hn.trans h)
    | fail e => exact fun h => by cases h

/-- **No more depth is needed than there are texts.** -/
theorem expand_ne_overflow (depth : Nat) (hnodup : active.Nodup)
    (hdepth : Fintype.card ν < depth + active.length) (n : ν) :
    expand content depth active n ≠ .error .overflow := by
  induction depth generalizing active n with
  | zero => exact absurd hnodup.length_le_card (by omega)
  | succ depth ih =>
    rw [expand]
    split
    · exact nofun
    · next hfresh =>
      apply expandSteps_ne_overflow
      intro m
      apply ih (nodup_cons.mpr ⟨hfresh, hnodup⟩)
      simp only [length_cons]
      omega

end Finite

end Expand

/-! ### Following references -/

section Path

variable (content : ν → List (Step ν μ β ε))

/-- The texts on a way of references from `root`, nearest first, up to one that is entered. -/
inductive Way (root : ν) : List ν → ν → Prop
  | start : Way root [] root
  | follow {active p n} (h : Way root active p) (hp : p ∉ active) (hn : Refers content p n) :
    Way root (p :: active) n

variable {content} {root n : ν} {active : List ν}

section
variable (h : Way content root active n)
include h

theorem Way.nodup : active.Nodup := by
  induction h with
  | start => exact nodup_nil
  | follow _ hp _ ih => exact nodup_cons.mpr ⟨hp, ih⟩

theorem Way.leads :
    ∀ a ∈ active, Relation.TransGen (Refers content) a n := by
  induction h with
  | start => exact nofun
  | follow _ _ hn ih =>
    intro a ha
    rcases mem_cons.mp ha with rfl | ha
    · exact .single hn
    · exact .tail (ih a ha) hn

theorem Way.reaches :
    Relation.ReflTransGen (Refers content) root n ∧
      ∀ a ∈ active, Relation.ReflTransGen (Refers content) root a := by
  induction h with
  | start => exact ⟨.refl, nofun⟩
  | follow _ _ hn ih => exact ⟨.tail ih.1 hn, forall_mem_cons.mpr ih⟩

/-- A text is entered at the start or by a reference. -/
theorem Way.entered :
    n = root ∨ ∃ q ∈ active, Refers content q n := by
  cases h with
  | start => exact .inl rfl
  | follow _ _ hn => exact .inr ⟨_, mem_cons_self, hn⟩

theorem Way.entered_of_mem {a : ν} (ha : a ∈ active) :
    a = root ∨ ∃ q ∈ active, Refers content q a := by
  induction h with
  | start => cases ha
  | follow hway _ _ ih =>
    have hbefore := (mem_cons.mp ha).elim (fun heq => heq ▸ hway.entered) ih
    exact hbefore.imp_right fun ⟨q, hq, hr⟩ => ⟨q, .tail _ hq, hr⟩

/-- **A text that is entered again has two references to it**, or one and it is the root. -/
theorem Way.reentered (hn : n ∈ active) :
    (n = root ∧ ∃ p ∈ active, Refers content p n) ∨
      ∃ p ∈ active, ∃ q ∈ active, p ≠ q ∧ Refers content p n ∧ Refers content q n := by
  cases h with
  | start => cases hn
  | @follow active p _ hway hp hpn =>
    have hbefore := (mem_cons.mp hn).elim (fun heq => heq ▸ hway.entered) hway.entered_of_mem
    rcases hbefore with hroot | ⟨q, hq, hqn⟩
    · exact .inl ⟨hroot, p, .head _, hpn⟩
    · exact .inr ⟨p, .head _, q, .tail _ hq, fun heq => hp (heq ▸ hq), hpn, hqn⟩

end

end Path

end Expansion
