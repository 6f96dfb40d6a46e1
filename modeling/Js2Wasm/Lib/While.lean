/-! # Loops

`Loop.run` repeats a body as long as a condition holds.  The body may fail, and the
number of rounds is bounded, so the result is an option; `run_total` is the rule for
total correctness: an invariant that the body keeps and a measure that it lowers make
the loop end, in a state with the invariant in which the condition fails.  `forEach_total`
is the rule for a loop over a list, whose invariant may speak of the elements done.

`Loop.exec` is such a loop in code that may also stop, with a value: `exec_next` and
`exec_stop` unroll one round.
-/
namespace Loop

variable {σ : Type}

/-- `while (cond(s)) s = body(s)`; `none` when the body fails or after more than `fuel`
rounds. -/
def run (cond : σ → Bool) (body : σ → Option σ) : Nat → σ → Option σ
  | 0, s => if cond s then none else some s
  | fuel + 1, s => if cond s then (body s).bind (run cond body fuel) else some s

variable {cond : σ → Bool} {body : σ → Option σ}

variable {s s' : σ}

theorem run_done (h : cond s = false) (fuel : Nat) : run cond body fuel s = some s := by
  cases fuel <;> simp [run, h]

theorem run_next (h : cond s = true) (hb : body s = some s') (fuel : Nat) :
    run cond body (fuel + 1) s = run cond body fuel s' := by
  simp [run, h, hb]

/-- More fuel does not change a result. -/
theorem run_mono {fuel fuel' : Nat} (hle : fuel ≤ fuel') (h : run cond body fuel s = some s') :
    run cond body fuel' s = some s' := by
  induction fuel generalizing fuel' s with
  | zero =>
    cases hc : cond s with
    | false =>
      rw [run_done hc] at h
      rw [run_done hc, h]
    | true => simp [run, hc] at h
  | succ fuel ih =>
    cases hc : cond s with
    | false =>
      rw [run_done hc] at h
      rw [run_done hc, h]
    | true =>
      obtain ⟨m, rfl⟩ := Nat.exists_eq_add_of_le' (Nat.le_trans (Nat.succ_le_succ (Nat.zero_le _)) hle)
      simp only [run, hc, if_true, Option.bind_eq_some_iff] at h ⊢
      obtain ⟨t, hb, ht⟩ := h
      exact ⟨t, hb, ih (Nat.le_of_succ_le_succ hle) ht⟩

/-- **Total correctness.** -/
theorem run_total (cond : σ → Bool) (body : σ → Option σ) (Inv : σ → Prop) (μ : σ → Nat)
    (hbody : ∀ s, Inv s → cond s = true → ∃ s', body s = some s' ∧ Inv s' ∧ μ s' < μ s)
    (fuel : Nat) : ∀ s, Inv s → μ s ≤ fuel →
      ∃ s', run cond body fuel s = some s' ∧ Inv s' ∧ cond s' = false := by
  induction fuel with
  | zero =>
    intro s hs hμ
    cases hc : cond s with
    | false => exact ⟨s, run_done hc 0, hs, hc⟩
    | true =>
      obtain ⟨s', -, -, hlt⟩ := hbody s hs hc
      omega
  | succ fuel ih =>
    intro s hs hμ
    cases hc : cond s with
    | false => exact ⟨s, run_done hc _, hs, hc⟩
    | true =>
      obtain ⟨s', hb, hs', hlt⟩ := hbody s hs hc
      obtain ⟨t, ht, hinv, hend⟩ := ih s' hs' (by omega)
      exact ⟨t, (run_next hc hb fuel).trans ht, hinv, hend⟩

/-- **A loop over a list.** -/
theorem forEach_total {α : Type} {f : σ → α → Option σ} (I : List α → σ → Prop) (l : List α)
    (hs : I [] s) (hbody : ∀ done a rest s, l = done ++ a :: rest → I done s →
      ∃ s', f s a = some s' ∧ I (done ++ [a]) s') :
    ∃ s', l.foldlM f s = some s' ∧ I l s' := by
  suffices ∀ rest done s, l = done ++ rest → I done s →
      ∃ s', rest.foldlM f s = some s' ∧ I l s' from this l [] s rfl hs
  intro rest
  induction rest with
  | nil =>
    intro done s hl hs
    rw [List.append_nil] at hl
    exact ⟨s, rfl, hl ▸ hs⟩
  | cons a rest ih =>
    intro done s hl hs
    obtain ⟨s', hf, hs'⟩ := hbody done a rest s hl hs
    obtain ⟨t, ht, hinv⟩ := ih (done ++ [a]) s' (by rw [hl, List.append_cons]) hs'
    exact ⟨t, by rw [List.foldlM_cons, hf]; exact ht, hinv⟩

/-! ### Loops in code that may stop -/

section
variable {ε : Type}

/-- `late` is how a run of more than `fuel` rounds stops. -/
def exec (cond : σ → Bool) (body : σ → Except ε σ) (late : ε) : Nat → σ → Except ε σ
  | 0, s => if cond s then .error late else .ok s
  | fuel + 1, s => if cond s then (body s).bind (exec cond body late fuel) else .ok s

variable {body : σ → Except ε σ} {late : ε} {s s' : σ}

theorem exec_done (h : cond s = false) (fuel : Nat) : exec cond body late fuel s = .ok s := by
  cases fuel <;> simp [exec, h]

theorem exec_next (h : cond s = true) (hb : body s = .ok s') (fuel : Nat) :
    exec cond body late (fuel + 1) s = exec cond body late fuel s' := by
  rw [exec, if_pos h, hb]
  rfl

theorem exec_stop {e : ε} (h : cond s = true) (hb : body s = .error e) (fuel : Nat) :
    exec cond body late (fuel + 1) s = .error e := by
  rw [exec, if_pos h, hb]
  rfl

end

end Loop
