import Js2Wasm.Lib.Backtrack

/-! # Explorations and simulations of backtracking machines

An exploration follows the forks of a state in the order in which they are tried and
stops at a list of states: the first of them that does not fail decides.

A simulation relates the states of two machines that do the same, up to silent steps
and explorations.  It preserves outcomes (`Simulates.evaluates`).
-/
namespace Backtrack
open List

variable {σ τ ο α : Type}

/-! ### The first that does not fail -/

/-- The outcome of trying the members of a list in order. -/
inductive FirstOf (P : α → Option ο → Prop) : List α → Option ο → Prop where
  | nil : FirstOf P [] none
  | hit {x : α} {xs : List α} {o : ο} : P x (some o) → FirstOf P (x :: xs) (some o)
  | miss {x : α} {xs : List α} {v : Option ο} :
    P x none → FirstOf P xs v → FirstOf P (x :: xs) v

section FirstOf

variable {P Q : α → Option ο → Prop} {xs ys : List α} {v : Option ο}

theorem FirstOf.imp (hPQ : ∀ x ∈ xs, ∀ v, P x v → Q x v) (h : FirstOf P xs v) :
    FirstOf Q xs v := by
  induction h with
  | nil => exact .nil
  | hit hx => exact .hit (hPQ _ mem_cons_self _ hx)
  | miss hx _ ih =>
    refine .miss (hPQ _ mem_cons_self _ hx) (ih ?_)
    exact fun x hx => hPQ x (mem_cons_of_mem _ hx)

theorem firstOf_map {β : Type} {P : β → Option ο → Prop} {f : α → β} :
    FirstOf P (xs.map f) v ↔ FirstOf (fun x => P (f x)) xs v := by
  constructor
  · intro h
    generalize hl : xs.map f = l at h
    induction h generalizing xs with
    | nil =>
      rw [map_eq_nil_iff.mp hl]
      exact .nil
    | hit hx =>
      obtain ⟨x, xs, rfl, rfl, rfl⟩ := map_eq_cons_iff.mp hl
      exact .hit hx
    | miss hx _ ih =>
      obtain ⟨x, xs, rfl, rfl, rfl⟩ := map_eq_cons_iff.mp hl
      exact .miss hx (ih rfl)
  · intro h
    induction h with
    | nil => exact .nil
    | hit hx => exact .hit hx
    | miss hx _ ih => exact .miss hx ih

theorem FirstOf.append_some {o : ο} (h : FirstOf P xs (some o)) :
    FirstOf P (xs ++ ys) (some o) := by
  generalize hv : some o = v at h
  induction h with
  | nil => cases hv
  | hit hx =>
    cases hv
    exact .hit hx
  | miss hx _ ih => exact .miss hx (ih hv)

theorem FirstOf.append_none (h : FirstOf P xs none) (hys : FirstOf P ys v) :
    FirstOf P (xs ++ ys) v := by
  generalize hv : none = w at h
  induction h with
  | nil => exact hys
  | hit => cases hv
  | miss hx _ ih => exact .miss hx (ih hv)

end FirstOf

/-! ### Explorations -/

/-- The states at which an exploration of a state stops, in the order in which they are
tried. -/
inductive Explores (step : σ → Step σ ο) : σ → List σ → Prop where
  | stop (s : σ) : Explores step s [s]
  | go {s s' : σ} {l : List σ} : step s = .go s' → Explores step s' l → Explores step s l
  | fork {s a b : σ} {l m : List σ} :
    step s = .fork a b → Explores step a l → Explores step b m → Explores step s (l ++ m)
  | fail {s : σ} : step s = .halt none → Explores step s []

/-- An exploration that does not stop at once. -/
inductive Unrolls (step : σ → Step σ ο) (s : σ) : List σ → Prop where
  | go {s' : σ} {l : List σ} : step s = .go s' → Explores step s' l → Unrolls step s l
  | fork {a b : σ} {l m : List σ} :
    step s = .fork a b → Explores step a l → Explores step b m → Unrolls step s (l ++ m)
  | fail : step s = .halt none → Unrolls step s []

variable {step : σ → Step σ ο} {s : σ} {l m : List σ} {v : Option ο}

theorem Unrolls.explores (h : Unrolls step s l) : Explores step s l := by
  cases h with
  | go h hl => exact .go h hl
  | fork h hl hm => exact .fork h hl hm
  | fail h => exact .fail h

/-- The states where an exploration stops may be explored further. -/
theorem Explores.bind {f g : α → σ} {xs : List α} (h : Explores step s (xs.map f))
    (ys : α → List α) (hys : ∀ x ∈ xs, Explores step (f x) ((ys x).map g)) :
    Explores step s ((xs.flatMap ys).map g) := by
  generalize hl : xs.map f = l at h
  induction h generalizing xs with
  | stop s =>
    obtain ⟨x, rfl, rfl⟩ := map_eq_singleton_iff.mp hl
    simpa using hys x (by simp)
  | go h _ ih => exact .go h (ih hys hl)
  | fork h _ _ iha ihb =>
    obtain ⟨xs1, xs2, rfl, rfl, rfl⟩ := map_eq_append_iff.mp hl
    rw [flatMap_append, map_append]
    refine .fork h (iha (fun x hx => hys x ?_) rfl) (ihb (fun x hx => hys x ?_) rfl)
    · exact mem_append_left _ hx
    · exact mem_append_right _ hx
  | fail h =>
    rw [map_eq_nil_iff.mp hl]
    exact .fail h

theorem Explores.first {fuel : Nat} (h : Explores step s l) (hv : eval step fuel s = some v) :
    FirstOf (fun s v => eval step fuel s = some v) l v := by
  induction h generalizing fuel v with
  | stop s =>
    cases v with
    | none => exact .miss hv .nil
    | some o => exact .hit hv
  | go h _ ih =>
    cases fuel with
    | zero => cases hv
    | succ fuel =>
      rw [eval_go h] at hv
      exact (ih hv).imp fun _ _ _ => eval_mono (Nat.le_succ _)
  | fork h _ _ iha ihb =>
    cases fuel with
    | zero => cases hv
    | succ fuel =>
      have mono : ∀ {l : List σ} {v}, FirstOf (fun s v => eval step fuel s = some v) l v →
          FirstOf (fun s v => eval step (fuel + 1) s = some v) l v :=
        fun h => h.imp fun _ _ _ => eval_mono (Nat.le_succ _)
      rcases (eval_fork h).mp hv with ⟨ha, hv⟩ | ⟨ha, hb⟩
      · obtain ⟨o, rfl⟩ := Option.ne_none_iff_exists'.mp hv
        exact (mono (iha ha)).append_some
      · exact (mono (iha ha)).append_none (mono (ihb hb))
  | fail h =>
    cases fuel with
    | zero => cases hv
    | succ fuel =>
      rw [eval_halt h] at hv
      cases hv
      exact .nil

/-- The states at which an unrolling stops are evaluated with less fuel. -/
theorem Unrolls.first {fuel : Nat} (h : Unrolls step s l) (hv : eval step fuel s = some v) :
    FirstOf (fun s v => ∃ k < fuel, eval step k s = some v) l v := by
  cases fuel with
  | zero => cases hv
  | succ fuel =>
    have mono : ∀ {l : List σ} {v}, FirstOf (fun s v => eval step fuel s = some v) l v →
        FirstOf (fun s v => ∃ k < fuel + 1, eval step k s = some v) l v :=
      fun h => h.imp fun _ _ _ hk => ⟨fuel, Nat.lt_succ_self fuel, hk⟩
    cases h with
    | go h hl =>
      rw [eval_go h] at hv
      exact mono (hl.first hv)
    | fork h hl hm =>
      rcases (eval_fork h).mp hv with ⟨ha, hv⟩ | ⟨ha, hb⟩
      · obtain ⟨o, rfl⟩ := Option.ne_none_iff_exists'.mp hv
        exact (mono (hl.first ha)).append_some
      · exact (mono (hl.first ha)).append_none (mono (hm.first hb))
    | fail h =>
      rw [eval_halt h] at hv
      cases hv
      exact .nil

theorem firstOf_append {P : σ → Option ο → Prop} (h : FirstOf P (l ++ m) v) :
    (FirstOf P l v ∧ v ≠ none) ∨ (FirstOf P l none ∧ FirstOf P m v) := by
  induction l generalizing v with
  | nil => exact .inr ⟨.nil, h⟩
  | cons x l ih =>
    cases h with
    | hit hx => exact .inl ⟨.hit hx, Option.some_ne_none _⟩
    | miss hx h =>
      rcases ih h with ⟨hl, hv⟩ | ⟨hl, hm⟩
      · exact .inl ⟨.miss hx hl, hv⟩
      · exact .inr ⟨.miss hx hl, hm⟩

/-- **The first state of an exploration that does not fail decides.** -/
theorem Explores.evaluates (h : Explores step s l) :
    Evaluates step s v ↔ FirstOf (Evaluates step) l v := by
  constructor
  · rintro ⟨fuel, hv⟩
    exact (h.first hv).imp fun _ _ _ hv => ⟨fuel, hv⟩
  · intro hv
    induction h generalizing v with
    | stop s =>
      cases hv with
      | hit hs => exact hs
      | miss hs hv => cases hv; exact hs
    | go h _ ih => exact (evaluates_go h).mpr (ih hv)
    | fork h _ _ iha ihb =>
      apply (evaluates_fork h).mpr
      rcases firstOf_append hv with ⟨ha, hv⟩ | ⟨ha, hb⟩
      · exact .inl ⟨iha ha, hv⟩
      · exact .inr ⟨iha ha, ihb hb⟩
    | fail h =>
      cases hv
      exact (evaluates_halt h).mpr rfl

/-! ### Simulations -/

/-- What the two machines do after the same outcome of a separate attempt. -/
inductive Resumes (R : σ → τ → Prop) : σ ⊕ Option ο → τ ⊕ Option ο → Prop where
  | go {c : σ} {a : τ} : R c a → Resumes R (.inl c) (.inl a)
  | halt (v : Option ο) : Resumes R (.inr v) (.inr v)

section Resumes

variable {R : σ → τ → Prop} {r1 : σ ⊕ Option ο} {r2 : τ ⊕ Option ο}

theorem Resumes.of_go (h : Resumes R r1 r2) {c : σ} (hc : r1 = .inl c) :
    ∃ a, r2 = .inl a ∧ R c a := by
  subst hc
  cases h with
  | go hR => exact ⟨_, rfl, hR⟩

theorem Resumes.of_halt (h : Resumes R r1 r2) {v : Option ο} (hv : r1 = .inr v) :
    r2 = .inr v := by
  subst hv
  cases h
  rfl

theorem Resumes.flip (h : Resumes R r1 r2) : Resumes (fun a c => R c a) r2 r1 := by
  cases h with
  | go hR => exact .go hR
  | halt v => exact .halt v

end Resumes

/-- Two states do the same and are related again afterwards, up to silent steps before. -/
inductive Sync (step1 : σ → Step σ ο) (step2 : τ → Step τ ο) (R : σ → τ → Prop) :
    σ → τ → Prop where
  | silentLeft {c c' : σ} {a : τ} :
    step1 c = .go c' → Sync step1 step2 R c' a → Sync step1 step2 R c a
  | silentRight {c : σ} {a a' : τ} :
    step2 a = .go a' → Sync step1 step2 R c a' → Sync step1 step2 R c a
  | go {c c' : σ} {a a' : τ} :
    step1 c = .go c' → step2 a = .go a' → R c' a' → Sync step1 step2 R c a
  | fork {c c1 c2 : σ} {a a1 a2 : τ} :
    step1 c = .fork c1 c2 → step2 a = .fork a1 a2 → R c1 a1 → R c2 a2 → Sync step1 step2 R c a
  | look {c sub1 : σ} {a sub2 : τ} {resume1 : Option ο → σ ⊕ Option ο}
    {resume2 : Option ο → τ ⊕ Option ο} :
    step1 c = .look sub1 resume1 → step2 a = .look sub2 resume2 → R sub1 sub2 →
    (∀ w, Resumes R (resume1 w) (resume2 w)) → Sync step1 step2 R c a
  | halt {c : σ} {a : τ} {v : Option ο} :
    step1 c = .halt v → step2 a = .halt v → Sync step1 step2 R c a
  | explore {α : Type} {c : σ} {a : τ} (f : α → σ) (g : α → τ) (xs : List α) :
    Unrolls step1 c (xs.map f) → Unrolls step2 a (xs.map g) → (∀ x ∈ xs, R (f x) (g x)) →
    Sync step1 step2 R c a

/-- Related states do the same. -/
def Simulates (step1 : σ → Step σ ο) (step2 : τ → Step τ ο) (R : σ → τ → Prop) : Prop :=
  ∀ c a, R c a → Sync step1 step2 R c a

variable {step1 : σ → Step σ ο} {step2 : τ → Step τ ο} {R : σ → τ → Prop} {c : σ} {a : τ}

theorem Sync.flip (h : Sync step1 step2 R c a) :
    Sync step2 step1 (fun a c => R c a) a c := by
  induction h with
  | silentLeft h _ ih => exact .silentRight h ih
  | silentRight h _ ih => exact .silentLeft h ih
  | go h h' hR => exact .go h' h hR
  | fork h h' hR hR' => exact .fork h' h hR hR'
  | look h h' hR hres => exact .look h' h hR fun w => (hres w).flip
  | halt h h' => exact .halt h' h
  | explore f g xs h h' hR => exact .explore g f xs h' h hR

theorem Simulates.flip (h : Simulates step1 step2 R) :
    Simulates step2 step1 (fun a c => R c a) := fun a c hR => (h c a hR).flip

theorem Simulates.of_eval (hsim : Simulates step1 step2 R) (hR : R c a) {fuel : Nat}
    (hv : eval step1 fuel c = some v) : Evaluates step2 a v := by
  induction fuel using Nat.strongRecOn generalizing c a v with
  | ind fuel ih =>
    have hsync := hsim c a hR
    clear hR
    induction hsync with
    | silentLeft h _ ih' =>
      cases fuel with
      | zero => cases hv
      | succ fuel =>
        rw [eval_go h] at hv
        exact ih' (eval_mono (Nat.le_succ _) hv)
    | silentRight h _ ih' => exact (evaluates_go h).mpr (ih' hv)
    | go h h' hR =>
      cases fuel with
      | zero => cases hv
      | succ fuel =>
        rw [eval_go h] at hv
        exact (evaluates_go h').mpr (ih fuel (Nat.lt_succ_self fuel) hR hv)
    | fork h h' hR hR' =>
      cases fuel with
      | zero => cases hv
      | succ fuel =>
        have hlt := Nat.lt_succ_self fuel
        apply (evaluates_fork h').mpr
        rcases (eval_fork h).mp hv with ⟨ha, hv⟩ | ⟨ha, hb⟩
        · exact .inl ⟨ih fuel hlt hR ha, hv⟩
        · exact .inr ⟨ih fuel hlt hR ha, ih fuel hlt hR' hb⟩
    | look h h' hR hres =>
      cases fuel with
      | zero => cases hv
      | succ fuel =>
        have hlt := Nat.lt_succ_self fuel
        obtain ⟨w, hw, hv⟩ := (eval_look h).mp hv
        apply (evaluates_look h').mpr
        refine ⟨w, ih fuel hlt hR hw, ?_⟩
        rcases hv with ⟨s', hs', hv⟩ | hv
        · obtain ⟨a', ha', hR'⟩ := (hres w).of_go hs'
          exact .inl ⟨a', ha', ih fuel hlt hR' hv⟩
        · exact .inr ((hres w).of_halt hv)
    | halt h h' =>
      cases fuel with
      | zero => cases hv
      | succ fuel =>
        rw [eval_halt h] at hv
        cases hv
        exact (evaluates_halt h').mpr rfl
    | explore f g xs h h' hR =>
      -- both machines try the same list
      have hfirst := firstOf_map.mp (h.first hv)
      apply h'.explores.evaluates.mpr
      exact firstOf_map.mpr (hfirst.imp fun x hx w ⟨k, hk, hw⟩ => ih k hk (hR x hx) hw)

/-- **Related states have the same outcomes.** -/
theorem Simulates.evaluates (hsim : Simulates step1 step2 R) (hR : R c a) :
    Evaluates step1 c v ↔ Evaluates step2 a v :=
  ⟨fun ⟨_, hv⟩ => hsim.of_eval hR hv, fun ⟨_, hv⟩ => hsim.flip.of_eval hR hv⟩

end Backtrack
