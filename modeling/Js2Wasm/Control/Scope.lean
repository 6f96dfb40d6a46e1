import Js2Wasm.Control.Lowering

/-! # Where a completion goes

A `Scope` is an enclosing statement part as the semantics sees it, with the control frame the
emitter has for it.  `Resolves` follows a completion outwards: through the statements a jump
leaves it runs what they have to run, `finally` bodies included, until the jump is at its
target or another completion has replaced it.
-/
namespace Js2Wasm.Control
open List

@[simp] theorem Crossed.union_none (cr : Crossed) : cr.union .none = cr := by
  simp [Crossed.union, Crossed.none]

inductive Scope where
  | breaks (label : Nat) (iter : Option Nat)
  | continues (label : Nat)
  /-- A `forof.iter` without a label. -/
  | iterates (iter : Nat)
  | plain
  /-- A `try` whose `finally` has been started. -/
  | masked (slot : Nat)
  | finally_ (body : List Instr) (slot : Nat)
  /-- The block of a `try` with a `catch` and no `finally`. -/
  | catches

namespace Scope

def frame : Scope → CtrlFrame
  | breaks label iter => .break_ label iter
  | continues label => .continue_ label
  | iterates i => .plain none (some i) none
  | plain | catches => .plain none none none
  | masked slot => .plain none none (some slot)
  | finally_ body slot => .plain (some body) none (some slot)

def targets : Scope → List (Nat × Mode)
  | breaks label _ => [(label, .break_)]
  | continues label => [(label, .continue_)]
  | _ => []

/-- The targets that code emitted here may find on the stack. -/
def labels : Scope → List (Nat × Mode)
  | finally_ body _ => boundAll body
  | σ => σ.targets

def slots : Scope → List Nat
  | finally_ _ slot => [slot]
  | _ => []

def crossed : Scope → Crossed
  | breaks _ (some _) | iterates _ | finally_ _ _ => ⟨false, true⟩
  | catches => ⟨true, false⟩
  | _ => .none

def close {S X : Type} (w : World S X) : Scope → S → S
  | breaks _ (some i), s | iterates i, s => w.iterReturn i s
  | _, s => s

/-- A scope with nothing to run on the way out. -/
def Simple (σ : Scope) : Prop := σ.crossed.cleanup = false

/-- A completion on the other side of the scope. -/
def out {X : Type} (σ : Scope) : Completion X → Completion X
  | .br l m cr => if (l, m) ∈ σ.targets then .normal else .br l m (cr.union σ.crossed)
  | k => k

theorem matches_frame (σ : Scope) (label : Nat) (mode : Mode) :
    σ.frame.matches_ label mode = true ↔ (label, mode) ∈ σ.targets := by
  cases σ with
  | breaks l iter | continues l =>
    simp only [frame, CtrlFrame.matches_, targets, decide_eq_true_eq, mem_singleton,
      Prod.mk.injEq]
    exact and_congr_left' eq_comm
  | _ => simp [frame, CtrlFrame.matches_, targets]

theorem Simple.close_eq {S X : Type} {w : World S X} {σ : Scope} (h : σ.Simple) (s : S) :
    σ.close w s = s := by
  cases σ with
  | breaks l iter =>
    cases iter with
    | none => rfl
    | some i => exact nomatch h
  | iterates i => exact nomatch h
  | _ => rfl

theorem Simple.slots_eq {σ : Scope} (h : σ.Simple) : σ.slots = [] := by
  cases σ with
  | finally_ f slot => exact nomatch h
  | _ => rfl

variable {X : Type}

@[simp] theorem out_plain (k : Completion X) : plain.out k = k := by
  cases k <;> simp [out, targets, crossed]

theorem out_catches (k : Completion X) : catches.out k = k.pass true := by
  cases k <;> simp [out, targets, crossed, Completion.pass, Crossed.union]

theorem out_breaks (label : Nat) (k : Completion X) :
    (breaks label none).out k = k.leave (some label) := by
  cases k with
  | br l m cr => cases m <;> simp [out, targets, crossed, Completion.leave]
  | _ => rfl

end Scope

/-! ### Resolution -/

section
variable {S X : Type} (w : World S X)

/-- `Resolves Γ k s r s' raised n`: outside of `Γ`, innermost scope first, the completion `k`
is the result `r` of the emitted code; the jumps have started `raised` of the `finally`
bodies on the way. -/
inductive Resolves : List Scope → Completion X → S → Res X → S → List Nat → Nat → Prop
  | normal {Γ s} : Resolves Γ .normal s .normal s [] 0
  | throw_ {Γ s x} : Resolves Γ (.throw_ x) s (.throw_ x) s [] 0
  | found {σ Γ l m cr s} : (l, m) ∈ σ.targets → Resolves (σ :: Γ) (.br l m cr) s (.br 0) s [] 0
  | skip {σ Γ l m cr s r s' raised n} : (l, m) ∉ σ.targets → σ.slots = [] →
      Resolves Γ (.br l m (cr.union σ.crossed)) (σ.close w s) r s' raised n →
      Resolves (σ :: Γ) (.br l m cr) s r.up s' raised n
  | finally_ {f slot Γ l m cr s k s1 r s' raised n n'} : Run w true f s k s1 n →
      (Completion.br l m cr).Clear k →
      Resolves Γ ((Completion.br l m cr).override k) s1 r s' raised n' →
      Resolves (.finally_ f slot :: Γ) (.br l m cr) s r.up s' (slot :: raised) (n + n' + 1)

variable {w}

variable {Γ inner : List Scope} {σ : Scope} {s' s : S} {k : Completion X} {slot n : Nat}
    {free free' bound bound' : List (Nat × Mode)} {r : Res X} {raised : List Nat}

theorem Resolves.ne_normal (h : Resolves w Γ k s r s' raised n) (hk : k ≠ .normal) :
    r ≠ .normal := by
  induction h with
  | normal => exact absurd rfl hk
  | throw_ | found _ => exact nofun
  | skip _ _ _ ih => exact mt Res.up_eq_normal.mp (ih nofun)
  | @finally_ _ _ _ _ _ _ _ k _ _ _ _ _ _ _ _ _ ih =>
    refine mt Res.up_eq_normal.mp (ih ?_)
    cases k <;> exact nofun

/-- Has the jump left the block of a `try` that would catch? -/
def Completion.caught : Completion X → Bool
  | .br _ _ cr => cr.catchOnly
  | _ => false

/-- A jump that has left a block whose `catch` no flag guards does not become a throw. -/
theorem Resolves.not_throw (h : Resolves w Γ k s r s' raised n) (hk : k.caught = true) :
    ∀ x, r ≠ .throw_ x := by
  induction h with
  | normal | throw_ => exact nomatch hk
  | found _ => exact nofun
  | @skip _ _ _ _ _ _ r _ _ _ _ _ _ ih =>
    have hr := ih (by simpa [Completion.caught, Crossed.union] using Or.inl hk)
    cases r with
    | throw_ x => exact absurd rfl (hr x)
    | _ => exact nofun
  | @finally_ _ _ _ _ _ _ _ k _ r _ _ _ _ _ hclear _ ih =>
    have hr : ∀ x, r ≠ .throw_ x := by
      apply ih
      cases k with
      | normal => exact hk
      | br l m cr' => simpa [Completion.override, Completion.caught, Crossed.union] using Or.inl hk
      | throw_ x =>
        simp only [Completion.caught] at hk
        simp only [Completion.Clear, hk, Bool.true_eq_false] at hclear
    cases r with
    | throw_ x => exact absurd rfl (hr x)
    | _ => exact nofun

/-- The same completion, having left less. -/
def Completion.Less : Completion X → Completion X → Prop
  | .br l m cr, .br l' m' cr' => l = l' ∧ m = m' ∧
    (cr.catchOnly = true → cr'.catchOnly = true) ∧ (cr.cleanup = true → cr'.cleanup = true)
  | k, k' => k = k'

theorem Resolves.less {k' : Completion X} (h : Resolves w Γ k s r s' raised n) (hk : k'.Less k) :
    Resolves w Γ k' s r s' raised n := by
  induction h generalizing k' with
  | normal =>
    cases k' with
    | normal => exact .normal
    | _ => exact nomatch hk
  | throw_ =>
    cases k' with
    | throw_ x =>
      obtain rfl := Completion.throw_.inj hk
      exact .throw_
    | _ => exact nomatch hk
  | found hmem =>
    cases k' with
    | br l m cr =>
      obtain ⟨rfl, rfl, -, -⟩ := hk
      exact .found hmem
    | _ => exact nomatch hk
  | skip hmem hslots _ ih =>
    cases k' with
    | br l m cr =>
      obtain ⟨rfl, rfl, h1, h2⟩ := hk
      refine .skip hmem hslots (ih ⟨rfl, rfl, ?_, ?_⟩)
      · simpa [Crossed.union] using Or.imp_left h1
      · simpa [Crossed.union] using Or.imp_left h2
    | _ => exact nomatch hk
  | @finally_ _ _ _ _ _ _ _ k _ _ _ _ _ _ hrun hclear _ ih =>
    cases k' with
    | br l m cr =>
      obtain ⟨rfl, rfl, h1, h2⟩ := hk
      cases k with
      | normal => exact .finally_ hrun trivial (ih ⟨rfl, rfl, h1, fun _ => rfl⟩)
      | br l' m' cr' =>
        refine .finally_ hrun ?_ (ih ⟨rfl, rfl, ?_, ?_⟩)
        · exact Bool.eq_false_iff.mpr fun h => by simp [h2 h, Completion.Clear] at hclear
        · simpa [Crossed.union] using Or.imp_left h1
        · simpa [Crossed.union] using Or.imp_left h2
      | throw_ x =>
        refine .finally_ hrun ?_ (ih rfl)
        exact Bool.eq_false_iff.mpr fun h => by simp [h1 h, Completion.Clear] at hclear
    | _ => exact nomatch hk

/-- Into a scope with nothing to run on the way out. -/
theorem Resolves.enter (hσ : σ.Simple) (h : Resolves w Γ (σ.out k) s r s' raised n) :
    ∃ r1, Resolves w (σ :: Γ) k s r1 s' raised n ∧ r1.leave = r := by
  cases k with
  | normal =>
    cases h
    exact ⟨.normal, .normal, rfl⟩
  | throw_ x =>
    cases h
    exact ⟨.throw_ x, .throw_, rfl⟩
  | br l m cr =>
    by_cases hmem : (l, m) ∈ σ.targets
    · rw [Scope.out, if_pos hmem] at h
      cases h
      exact ⟨.br 0, .found hmem, rfl⟩
    · rw [Scope.out, if_neg hmem] at h
      exact ⟨r.up, .skip hmem hσ.slots_eq (by rwa [hσ.close_eq]), r.leave_up⟩

/-- Into a scope that leaves no trace and that the completion does not target. -/
theorem Resolves.past (hσ : σ.crossed = .none) (hk : ∀ l m cr, k = .br l m cr → (l, m) ∉ σ.targets)
    (h : Resolves w Γ k s r s' raised n) : Resolves w (σ :: Γ) k s r.up s' raised n := by
  have hsimple : σ.Simple := by rw [Scope.Simple, hσ, Crossed.none]
  cases k with
  | normal =>
    cases h
    exact .normal
  | throw_ x =>
    cases h
    exact .throw_
  | br l m cr =>
    refine .skip (hk l m cr rfl) hsimple.slots_eq ?_
    rwa [hsimple.close_eq, hσ, Crossed.union_none]

/-- What is left when a jump has crossed `inner` is recorded. -/
def Covers (cr : Crossed) (inner : List Scope) : Prop :=
  ∀ σ ∈ inner, (σ.crossed.catchOnly = true → cr.catchOnly = true) ∧
    (σ.crossed.cleanup = true → cr.cleanup = true)

theorem Covers.snoc {cr cr' : Crossed} {inner : List Scope} {σ : Scope} (h : Covers cr inner)
    (h1 : cr.catchOnly = true ∨ σ.crossed.catchOnly = true → cr'.catchOnly = true)
    (h2 : cr.cleanup = true ∨ σ.crossed.cleanup = true → cr'.cleanup = true) :
    Covers cr' (inner ++ [σ]) := by
  intro σ' hσ'
  rcases mem_append.mp hσ' with hmem | hmem
  · exact ⟨fun hc => h1 (Or.inl ((h σ' hmem).1 hc)), fun hc => h2 (Or.inl ((h σ' hmem).2 hc))⟩
  · obtain rfl := mem_singleton.mp hmem
    exact ⟨fun hc => h1 (Or.inr hc), fun hc => h2 (Or.inr hc)⟩

/-- A second scan of scopes that have nothing to run. -/
theorem Resolves.cross {l : Nat} {m : Mode} {cr : Crossed}
    (hsimple : ∀ σ ∈ inner, σ.Simple ∧ (l, m) ∉ σ.targets) (hcovers : Covers cr inner)
    (h : Resolves w Γ (.br l m cr) s r s' raised n) :
    Resolves w (inner ++ Γ) (.br l m cr) s (r.upBy inner.length) s' raised n := by
  induction inner with
  | nil => simpa using h
  | cons σ inner ih =>
    have hrest := ih (fun σ' h => hsimple σ' (mem_cons_of_mem _ h))
      (fun σ' h => hcovers σ' (mem_cons_of_mem _ h))
    obtain ⟨hσ, hmem⟩ := hsimple σ mem_cons_self
    obtain ⟨hcatch, -⟩ := hcovers σ mem_cons_self
    rw [length_cons, ← Res.upBy_up]
    refine .skip hmem hσ.slots_eq ?_
    rw [hσ.close_eq]
    refine hrest.less ⟨rfl, rfl, ?_, ?_⟩
    · simpa [Crossed.union] using fun h => h.elim id hcatch
    · have hcleanup : σ.crossed.cleanup = false := hσ
      simp [Crossed.union, hcleanup]

/-! ### Well-scoped code -/

/-- The `finally` bodies find their jumps' targets outside. -/
def Enclosed : List Scope → Prop
  | [] => True
  | .finally_ f _ :: Γ => (∀ j ∈ freeAll f, j ∈ Γ.flatMap Scope.targets) ∧ Enclosed Γ
  | _ :: Γ => Enclosed Γ

/-- Code with the targets `bound` and the jumps `free` may stand inside of `Γ`. -/
structure Fits (Γ : List Scope) (bound free : List (Nat × Mode)) : Prop where
  once : ∀ j, bound.count j + (Γ.flatMap Scope.labels).count j ≤ 1
  free : ∀ j ∈ free, j ∈ Γ.flatMap Scope.targets
  enclosed : Enclosed Γ

theorem Fits.push (h : Fits Γ bound free) (henclosed : Enclosed (σ :: Γ))
    (hbound : ∀ j, bound'.count j + σ.labels.count j ≤ bound.count j)
    (hfree : ∀ j ∈ free', j ∈ σ.targets ∨ j ∈ free) : Fits (σ :: Γ) bound' free' where
  once j := by
    have h1 := h.once j
    have h2 := hbound j
    rw [flatMap_cons, count_append]
    omega
  free j hj := by
    rw [flatMap_cons, mem_append]
    exact (hfree j hj).imp_right (h.free j)
  enclosed := henclosed

theorem Fits.mono (h : Fits Γ bound free) (hbound : ∀ j, bound'.count j ≤ bound.count j)
    (hfree : ∀ j ∈ free', j ∈ free) : Fits Γ bound' free' where
  once j := Nat.le_trans (Nat.add_le_add_right (hbound j) _) (h.once j)
  free j hj := h.free j (hfree j hj)
  enclosed := h.enclosed

theorem Fits.plain {Γ : List Scope} {bound free : List (Nat × Mode)} (h : Fits Γ bound free) :
    Fits (.plain :: Γ) bound free :=
  h.push h.enclosed (fun _ => Nat.le_refl _) fun _ => Or.inr

theorem Fits.catches {Γ : List Scope} {bound free : List (Nat × Mode)} (h : Fits Γ bound free) :
    Fits (.catches :: Γ) bound free :=
  h.push h.enclosed (fun _ => Nat.le_refl _) fun _ => Or.inr

theorem Fits.masked (h : Fits Γ bound free) : Fits (.masked slot :: Γ) bound free :=
  h.push h.enclosed (fun _ => Nat.le_refl _) fun _ => Or.inr

theorem Scope.targets_subset_labels {j : Nat × Mode} (h : j ∈ σ.targets) : j ∈ σ.labels := by
  cases σ with
  | finally_ f slot => exact nomatch h
  | _ => exact h

theorem Enclosed.tail {σ : Scope} {Γ : List Scope} (h : Enclosed (σ :: Γ)) : Enclosed Γ := by
  cases σ with
  | finally_ f slot => exact h.2
  | _ => exact h

theorem Enclosed.drop (h : Enclosed (inner ++ Γ)) : Enclosed Γ := by
  induction inner with
  | nil => exact h
  | cons σ inner ih => exact ih h.tail

/-- Masking keeps the stack well-scoped. -/
theorem Enclosed.mask {f : List Instr} (h : Enclosed (inner ++ .finally_ f slot :: Γ)) :
    Enclosed (inner ++ .masked slot :: Γ) := by
  induction inner with
  | nil => exact h.2
  | cons σ inner ih =>
    cases σ with
    | finally_ f' slot' =>
      refine ⟨fun j hj => ?_, ih h.2⟩
      simpa [flatMap_append, Scope.targets] using h.1 j hj
    | _ => exact ih h

end

end Js2Wasm.Control
