/-! # Backtracking machines

A state goes on, offers two successors of which the second is tried when the first one
fails, asks for the outcome of a separate attempt and goes on or ends with it, or
halts.  An outcome is `none` for a failure, which is retried, or a final answer, which
is not.

`eval` is the recursive reading of such a machine and `loop` the one with an explicit
stack of states to resume; they end with the same outcomes (`loop_iff`).
-/
namespace Backtrack

variable {σ ο : Type}

/-- What a state does. -/
inductive Step (σ ο : Type) where
  | go (s : σ)
  | fork (a b : σ)
  | look (sub : σ) (resume : Option ο → σ ⊕ Option ο)
  | halt (v : Option ο)

/-- The outcome of a state; `none` means that the fuel ran out. -/
def eval (step : σ → Step σ ο) : Nat → σ → Option (Option ο)
  | 0, _ => none
  | fuel + 1, s =>
    match step s with
    | .go s' => eval step fuel s'
    | .fork a b =>
      match eval step fuel a with
      | some none => eval step fuel b
      | r => r
    | .look sub resume =>
      match eval step fuel sub with
      | none => none
      | some w =>
        match resume w with
        | .inl s' => eval step fuel s'
        | .inr v => some v
    | .halt v => some v

/-- The outcome of a state in front of a stack of states to resume. -/
def loop (step : σ → Step σ ο) : Nat → σ → List σ → Option (Option ο)
  | 0, _, _ => none
  | fuel + 1, s, stack =>
    match step s with
    | .go s' => loop step fuel s' stack
    | .fork a b => loop step fuel a (b :: stack)
    | .look sub resume =>
      match loop step fuel sub [] with
      | none => none
      | some w =>
        match resume w, stack with
        | .inl s', stack => loop step fuel s' stack
        | .inr none, s' :: stack => loop step fuel s' stack
        | .inr v, _ => some v
    | .halt v =>
      match v, stack with
      | none, s' :: stack => loop step fuel s' stack
      | v, _ => some v

/-- A state ends with the outcome. -/
def Evaluates (step : σ → Step σ ο) (s : σ) (v : Option ο) : Prop :=
  ∃ fuel, eval step fuel s = some v

variable {step : σ → Step σ ο} {s s' a b sub : σ} {v w : Option ο} {fuel : Nat}
  {resume : Option ο → σ ⊕ Option ο}

/-! ### One step -/

theorem eval_go (h : step s = .go s') (fuel : Nat) :
    eval step (fuel + 1) s = eval step fuel s' := by
  rw [eval, h]

theorem eval_halt (h : step s = .halt v) (fuel : Nat) : eval step (fuel + 1) s = some v := by
  rw [eval, h]

theorem eval_fork (h : step s = .fork a b) :
    eval step (fuel + 1) s = some v ↔
      (eval step fuel a = some v ∧ v ≠ none) ∨
      (eval step fuel a = some none ∧ eval step fuel b = some v) := by
  simp only [eval, h]
  cases eval step fuel a with
  | none => simp
  | some w =>
    cases w with
    | none | some o => simp +contextual [eq_comm]

theorem eval_look (h : step s = .look sub resume) :
    eval step (fuel + 1) s = some v ↔
      ∃ w, eval step fuel sub = some w ∧
        ((∃ s', resume w = .inl s' ∧ eval step fuel s' = some v) ∨ resume w = .inr v) := by
  simp only [eval, h]
  cases eval step fuel sub with
  | none => simp
  | some w => cases hw : resume w <;> simp [hw]

/-- More fuel does not change an outcome. -/
theorem eval_mono {fuel' : Nat} (hle : fuel ≤ fuel') (h : eval step fuel s = some v) :
    eval step fuel' s = some v := by
  induction fuel generalizing fuel' s v with
  | zero => cases h
  | succ fuel ih =>
    obtain ⟨m, rfl⟩ := Nat.exists_eq_add_of_le' (Nat.le_trans (Nat.le_add_left 1 fuel) hle)
    have hm : fuel ≤ m := Nat.le_of_succ_le_succ hle
    cases hstep : step s with
    | go s' =>
      rw [eval_go hstep] at h ⊢
      exact ih hm h
    | fork a b =>
      rw [eval_fork hstep] at h ⊢
      rcases h with ⟨ha, hv⟩ | ⟨ha, hb⟩
      · exact .inl ⟨ih hm ha, hv⟩
      · exact .inr ⟨ih hm ha, ih hm hb⟩
    | look sub resume =>
      rw [eval_look hstep] at h ⊢
      obtain ⟨w, hw, ⟨s', hs', h⟩ | h⟩ := h
      · exact ⟨w, ih hm hw, .inl ⟨s', hs', ih hm h⟩⟩
      · exact ⟨w, ih hm hw, .inr h⟩
    | halt v' => rwa [eval_halt hstep] at h ⊢

theorem evaluates_go (h : step s = .go s') : Evaluates step s v ↔ Evaluates step s' v := by
  constructor
  · rintro ⟨fuel, hv⟩
    cases fuel with
    | zero => cases hv
    | succ fuel => exact ⟨fuel, by rwa [eval_go h] at hv⟩
  · rintro ⟨fuel, hv⟩
    exact ⟨fuel + 1, by rwa [eval_go h]⟩

theorem evaluates_halt (h : step s = .halt w) : Evaluates step s v ↔ v = w := by
  constructor
  · rintro ⟨fuel, hv⟩
    cases fuel with
    | zero => cases hv
    | succ fuel =>
      rw [eval_halt h] at hv
      exact (Option.some.inj hv).symm
  · rintro rfl
    exact ⟨1, eval_halt h 0⟩

/-- The first successor decides unless it fails. -/
theorem evaluates_fork (h : step s = .fork a b) :
    Evaluates step s v ↔
      (Evaluates step a v ∧ v ≠ none) ∨ (Evaluates step a none ∧ Evaluates step b v) := by
  constructor
  · rintro ⟨fuel, hv⟩
    cases fuel with
    | zero => cases hv
    | succ fuel =>
      rcases (eval_fork h).mp hv with ⟨ha, hv⟩ | ⟨ha, hb⟩
      · exact .inl ⟨⟨fuel, ha⟩, hv⟩
      · exact .inr ⟨⟨fuel, ha⟩, fuel, hb⟩
  · rintro (⟨⟨n, hn⟩, hv⟩ | ⟨⟨n, hn⟩, m, hm⟩)
    · exact ⟨n + 1, (eval_fork h).mpr (.inl ⟨hn, hv⟩)⟩
    · refine ⟨max n m + 1, (eval_fork h).mpr (.inr ⟨?_, ?_⟩)⟩
      · exact eval_mono (Nat.le_max_left n m) hn
      · exact eval_mono (Nat.le_max_right n m) hm

/-- The separate attempt says whether the state goes on. -/
theorem evaluates_look (h : step s = .look sub resume) :
    Evaluates step s v ↔
      ∃ w, Evaluates step sub w ∧
        ((∃ s', resume w = .inl s' ∧ Evaluates step s' v) ∨ resume w = .inr v) := by
  constructor
  · rintro ⟨fuel, hv⟩
    cases fuel with
    | zero => cases hv
    | succ fuel =>
      obtain ⟨w, hw, ⟨s', hs', hv⟩ | hv⟩ := (eval_look h).mp hv
      · exact ⟨w, ⟨fuel, hw⟩, .inl ⟨s', hs', fuel, hv⟩⟩
      · exact ⟨w, ⟨fuel, hw⟩, .inr hv⟩
  · rintro ⟨w, ⟨n, hn⟩, ⟨s', hs', m, hm⟩ | hv⟩
    · refine ⟨max n m + 1, (eval_look h).mpr ⟨w, ?_, .inl ⟨s', hs', ?_⟩⟩⟩
      · exact eval_mono (Nat.le_max_left n m) hn
      · exact eval_mono (Nat.le_max_right n m) hm
    · exact ⟨n + 1, (eval_look h).mpr ⟨w, hn, .inr hv⟩⟩

/-- What steps keep of states, and what outcomes then satisfy. -/
structure Keeps (step : σ → Step σ ο) (I : σ → Prop) (Q : Option ο → Prop) : Prop where
  go : ∀ s s', I s → step s = .go s' → I s'
  fork : ∀ s a b, I s → step s = .fork a b → I a ∧ I b
  look : ∀ s sub resume, I s → step s = .look sub resume → I sub ∧
    ∀ w, Q w → (∀ s', resume w = .inl s' → I s') ∧ ∀ v, resume w = .inr v → Q v
  halt : ∀ s v, I s → step s = .halt v → Q v

/-- The outcome of a state with a kept property. -/
theorem Keeps.outcome {I : σ → Prop} {Q : Option ο → Prop} (h : Keeps step I Q) (hs : I s)
    (hv : Evaluates step s v) : Q v := by
  obtain ⟨fuel, hv⟩ := hv
  induction fuel generalizing s v with
  | zero => cases hv
  | succ fuel ih =>
    cases hstep : step s with
    | go s' =>
      rw [eval_go hstep] at hv
      exact ih (h.go s s' hs hstep) hv
    | fork a b =>
      obtain ⟨ha, hb⟩ := h.fork s a b hs hstep
      rcases (eval_fork hstep).mp hv with ⟨hv, -⟩ | ⟨-, hv⟩
      · exact ih ha hv
      · exact ih hb hv
    | look sub resume =>
      obtain ⟨hsub, hresume⟩ := h.look s sub resume hs hstep
      obtain ⟨w, hw, ⟨s', hs', hv⟩ | hv⟩ := (eval_look hstep).mp hv
      · exact ih ((hresume w (ih hsub hw)).1 s' hs') hv
      · exact (hresume w (ih hsub hw)).2 v hv
    | halt v' =>
      rw [eval_halt hstep] at hv
      exact Option.some.inj hv ▸ h.halt s v' hs hstep

/-! ### The explicit stack -/

/-- What a stack makes of an outcome: a failure resumes its top. -/
def unwind (step : σ → Step σ ο) (fuel : Nat) : List σ → Option ο → Option (Option ο)
  | s :: stack, none => loop step fuel s stack
  | _, v => some v

theorem unwind_some (step : σ → Step σ ο) (fuel : Nat) (stack : List σ) (o : ο) :
    unwind step fuel stack (some o) = some (some o) := by
  cases stack <;> rfl

variable {stack : List σ}

theorem loop_go (h : step s = .go s') (fuel : Nat) (stack : List σ) :
    loop step (fuel + 1) s stack = loop step fuel s' stack := by
  rw [loop, h]

theorem loop_fork (h : step s = .fork a b) (fuel : Nat) (stack : List σ) :
    loop step (fuel + 1) s stack = loop step fuel a (b :: stack) := by
  rw [loop, h]

theorem loop_halt (h : step s = .halt v) (fuel : Nat) (stack : List σ) :
    loop step (fuel + 1) s stack = unwind step fuel stack v := by
  rw [loop, h]
  cases v <;> cases stack <;> rfl

theorem loop_look (h : step s = .look sub resume) :
    loop step (fuel + 1) s stack = some v ↔
      ∃ w, loop step fuel sub [] = some w ∧
        ((∃ s', resume w = .inl s' ∧ loop step fuel s' stack = some v) ∨
          ∃ w', resume w = .inr w' ∧ unwind step fuel stack w' = some v) := by
  simp only [loop, h]
  cases loop step fuel sub [] with
  | none => simp
  | some w =>
    cases hw : resume w with
    | inl s' => simp [hw]
    | inr w' => cases w' <;> cases stack <;> simp [hw, unwind]

theorem loop_mono {fuel' : Nat} (hle : fuel ≤ fuel') (h : loop step fuel s stack = some v) :
    loop step fuel' s stack = some v := by
  induction fuel generalizing fuel' s stack v with
  | zero => cases h
  | succ fuel ih =>
    obtain ⟨m, rfl⟩ := Nat.exists_eq_add_of_le' (Nat.le_trans (Nat.le_add_left 1 fuel) hle)
    have hm : fuel ≤ m := Nat.le_of_succ_le_succ hle
    have hunwind : ∀ {stack : List σ} {w : Option ο},
        unwind step fuel stack w = some v → unwind step m stack w = some v := by
      intro stack w hw
      cases stack with
      | nil => exact hw
      | cons s stack =>
        cases w with
        | none => exact ih hm hw
        | some o => exact hw
    cases hstep : step s with
    | go s' =>
      rw [loop_go hstep] at h ⊢
      exact ih hm h
    | fork a b =>
      rw [loop_fork hstep] at h ⊢
      exact ih hm h
    | look sub resume =>
      rw [loop_look hstep] at h ⊢
      obtain ⟨w, hw, ⟨s', hs', h⟩ | ⟨w', hw', h⟩⟩ := h
      · exact ⟨w, ih hm hw, .inl ⟨s', hs', ih hm h⟩⟩
      · exact ⟨w, ih hm hw, .inr ⟨w', hw', hunwind h⟩⟩
    | halt w =>
      rw [loop_halt hstep] at h ⊢
      exact hunwind h

/-- The loop carries out the evaluation of its state, whatever lies on the stack. -/
theorem loop_of_eval (h : eval step fuel s = some v) :
    ∃ m, ∀ k stack w, unwind step k stack v = some w →
      loop step (m + k) s stack = some w := by
  induction fuel generalizing s v with
  | zero => cases h
  | succ fuel ih =>
    cases hstep : step s with
    | go s' =>
      rw [eval_go hstep] at h
      obtain ⟨m, hm⟩ := ih h
      refine ⟨m + 1, fun k stack w hw => ?_⟩
      rw [Nat.add_right_comm, loop_go hstep]
      exact hm k stack w hw
    | fork a b =>
      rcases (eval_fork hstep).mp h with ⟨ha, hv⟩ | ⟨ha, hb⟩
      · obtain ⟨m, hm⟩ := ih ha
        refine ⟨m + 1, fun k stack w hw => ?_⟩
        obtain ⟨o, rfl⟩ := Option.ne_none_iff_exists'.mp hv
        rw [unwind_some] at hw
        rw [Nat.add_right_comm, loop_fork hstep]
        exact hm k _ w (by rwa [unwind_some])
      · obtain ⟨m, hm⟩ := ih ha
        obtain ⟨m', hm'⟩ := ih hb
        refine ⟨m + m' + 1, fun k stack w hw => ?_⟩
        rw [Nat.add_right_comm, loop_fork hstep, Nat.add_assoc]
        exact hm _ _ w (hm' k stack w hw)
    | look sub resume =>
      obtain ⟨u, hu, hres⟩ := (eval_look hstep).mp h
      obtain ⟨m, hm⟩ := ih hu
      -- on its empty stack the separate attempt returns its outcome as it is
      have hsub : ∀ k, loop step (m + k) sub [] = some u := fun k =>
        hm k [] u (by cases u <;> rfl)
      rcases hres with ⟨s', hs', hv⟩ | hv
      · obtain ⟨m', hm'⟩ := ih hv
        refine ⟨m + m' + 1, fun k stack w hw => ?_⟩
        rw [Nat.add_right_comm, loop_look hstep, Nat.add_assoc]
        refine ⟨u, hsub _, .inl ⟨s', hs', ?_⟩⟩
        exact loop_mono (Nat.le_add_left _ _) (hm' k stack w hw)
      · refine ⟨m + 1, fun k stack w hw => ?_⟩
        rw [Nat.add_right_comm, loop_look hstep]
        refine ⟨u, hsub k, .inr ⟨v, hv, ?_⟩⟩
        cases stack with
        | nil => exact hw
        | cons s' stack =>
          cases v with
          | none => exact loop_mono (Nat.le_add_left _ _) hw
          | some o => exact hw
    | halt v' =>
      rw [eval_halt hstep] at h
      cases h
      refine ⟨1, fun k stack w hw => ?_⟩
      rw [Nat.add_comm, loop_halt hstep]
      exact hw

/-- A loop that ends has evaluated its state, and the stack has settled the outcome with
less fuel. -/
theorem eval_of_loop (h : loop step fuel s stack = some w) :
    ∃ v, Evaluates step s v ∧ ∃ k < fuel, unwind step k stack v = some w := by
  induction fuel using Nat.strongRecOn generalizing s stack w with
  | ind fuel ih =>
    cases fuel with
    | zero => cases h
    | succ fuel =>
      have hlt : fuel < fuel + 1 := Nat.lt_succ_self fuel
      cases hstep : step s with
      | go s' =>
        rw [loop_go hstep] at h
        obtain ⟨v, hv, k, hk, hw⟩ := ih fuel hlt h
        exact ⟨v, (evaluates_go hstep).mpr hv, k, Nat.lt_succ_of_lt hk, hw⟩
      | fork a b =>
        rw [loop_fork hstep] at h
        obtain ⟨v, hv, k, hk, hw⟩ := ih fuel hlt h
        cases v with
        | some o =>
          refine ⟨some o, (evaluates_fork hstep).mpr (.inl ⟨hv, Option.some_ne_none o⟩), k,
            Nat.lt_succ_of_lt hk, ?_⟩
          rw [unwind_some] at hw ⊢
          exact hw
        | none =>
          -- the frame that the fork pushed is the one resumed
          obtain ⟨v', hv', k', hk', hw'⟩ := ih k (Nat.lt_succ_of_lt hk) hw
          refine ⟨v', (evaluates_fork hstep).mpr (.inr ⟨hv, hv'⟩), k', ?_, hw'⟩
          exact Nat.lt_trans hk' (Nat.lt_succ_of_lt hk)
      | look sub resume =>
        obtain ⟨u, hu, hres⟩ := (loop_look hstep).mp h
        obtain ⟨u', hu', k, -, hk⟩ := ih fuel hlt hu
        have hsub : Evaluates step sub u := by
          have : u' = u := by cases u' <;> exact Option.some.inj hk
          rwa [this] at hu'
        rcases hres with ⟨s', hs', h⟩ | ⟨v, hv, h⟩
        · obtain ⟨v, hv, k, hk, hw⟩ := ih fuel hlt h
          exact ⟨v, (evaluates_look hstep).mpr ⟨u, hsub, .inl ⟨s', hs', hv⟩⟩, k,
            Nat.lt_succ_of_lt hk, hw⟩
        · exact ⟨v, (evaluates_look hstep).mpr ⟨u, hsub, .inr hv⟩, fuel, hlt, h⟩
      | halt v =>
        rw [loop_halt hstep] at h
        exact ⟨v, (evaluates_halt hstep).mpr rfl, fuel, hlt, h⟩

/-- **The loop on an empty stack ends with the outcome of its state.** -/
theorem loop_iff : (∃ fuel, loop step fuel s [] = some v) ↔ Evaluates step s v := by
  constructor
  · rintro ⟨fuel, h⟩
    obtain ⟨v', hv', k, -, hk⟩ := eval_of_loop h
    have : v' = v := by cases v' <;> exact Option.some.inj hk
    rwa [this] at hv'
  · rintro ⟨fuel, h⟩
    obtain ⟨m, hm⟩ := loop_of_eval h
    exact ⟨m, hm 0 [] v (by cases v <;> rfl)⟩

end Backtrack
