import Js2Wasm.Sorting.MergeSortSound
import Mathlib.Data.List.Perm.Basic

/-! # Whole runs of the merge sort

Between two passes one buffer holds the list that the passes have reached, and the caller's
array a permutation of its elements.  A run then ends as the passes do.

With a comparator that only returns, the array is sorted in place, stably if the comparator is
a test of an order.  When the comparator throws, the array still has its elements if the pass
was one that writes into the other buffer, and else exactly if what that pass had put out is a
permutation of what it overwrote.
-/
namespace Js2Wasm.Sorting
open List WordMemory StableSort

variable {α σ ε : Type} {s s' : State α σ} {g : σ → α → α → Except ε (Bool × σ)} {len : Nat}
  {data : List α}

/-- The caller's array has kept its elements: the pass was writing elsewhere, or has put out
what stood there. -/
def Interrupted.Keeps (place : Interrupted α) : Prop :=
  place.pass % 2 = 0 ∨ place.out.Perm (place.target.take place.out.length)

/-- The state before pass `p`. -/
structure Between (len : Nat) (data : List α) (p : Nat) (target l : List α) (s : State α σ) :
    Prop where
  src : s.src = if p % 2 = 0 then .data else .scratch
  dst : s.dst = if p % 2 = 0 then .scratch else .data
  parity : s.parity = p % 2
  width : s.width = 2 ^ p
  source : (s.buffer s.src).take len = l
  target : p ≠ 0 → (s.buffer s.dst).take len = target
  perm : l.Perm (data.take len)
  data_perm : s.data.Perm data
  data_tail : s.data.drop len = data.drop len
  scratch_length : s.scratch.length = len

/-- The bounds on a sort: an array of `2 ^ 31` elements or more is not read at a negative index
if it is not to be sorted that far. -/
structure InRange (len : Nat) (data : List α) : Prop where
  le : len ≤ data.length
  lt : len < 2 ^ 31
  small : 2 ^ 30 < len → data.length < 2 ^ 31

section
variable {p : Nat} {target l : List α}

theorem Between.length_buffer (h : Between len data p target l s) (hlen : len ≤ data.length)
    (b : Buffer) : len ≤ (s.buffer b).length ∧ (s.buffer b).length ≤ data.length := by
  cases b with
  | data =>
    change len ≤ s.data.length ∧ s.data.length ≤ data.length
    rw [h.data_perm.length_eq]
    exact ⟨hlen, le_rfl⟩
  | scratch =>
    change len ≤ s.scratch.length ∧ s.scratch.length ≤ data.length
    rw [h.scratch_length]
    exact ⟨le_rfl, hlen⟩

/-- Only on a long array do the cursors overflow. -/
theorem lt_of_over (hp : 2 ^ p < len) (hover : 2 ^ 31 < len + 2 * 2 ^ p) : 2 ^ 30 < len := by
  by_contra hle
  have hp' : p < 30 :=
    (Nat.pow_lt_pow_iff_right (by decide : 1 < 2)).mp (hp.trans_le (Nat.le_of_not_lt hle))
  have hpow := Nat.pow_le_pow_right Nat.two_pos hp'
  rw [Nat.pow_succ'] at hpow
  lia

theorem Between.pass (h : Between len data p target l s) (hb : InRange len data)
    (hp : 2 ^ p < len) : Pass len { s with i := 0 } where
  ne := by
    change s.src ≠ s.dst
    rw [h.src, h.dst]
    by_cases hpar : p % 2 = 0
    · rw [if_pos hpar, if_pos hpar]
      exact Buffer.noConfusion
    · rw [if_neg hpar, if_neg hpar]
      exact Buffer.noConfusion
  width_pos := by
    change 0 < s.width
    rw [h.width]
    exact Nat.two_pow_pos p
  width_dvd := by
    change 2 * s.width ∣ _
    rw [h.width, ← Nat.pow_succ']
    have hlt : p < 31 := (Nat.pow_lt_pow_iff_right (by decide)).mp (hp.trans hb.lt)
    exact Nat.pow_dvd_pow 2 hlt
  i_dvd := Nat.dvd_zero _
  source := (h.length_buffer hb.le s.src).1
  len_lt := hb.lt
  source_lt := by
    change _ < len + 2 * s.width → (s.buffer s.src).length < _
    intro hover
    rw [h.width] at hover
    exact (h.length_buffer hb.le s.src).2.trans_lt (hb.small (lt_of_over hp hover))
  target := (h.length_buffer hb.le s.dst).1

variable {fuel : Nat} {out : List α}

section
variable (h : Between len data p target l s)
include h

/-- The buffers after a pass that has put out `out`. -/
theorem Between.data_of_wrote (hwrote : Wrote s s' 0 out) :
    s'.data = (if p % 2 = 0 then s.data else overwrite s.data 0 out) ∧
      s'.scratch = if p % 2 = 0 then overwrite s.scratch 0 out else s.scratch := by
  have hsource := hwrote.source
  have htarget := hwrote.target
  rw [h.src] at hsource
  rw [h.dst] at htarget
  by_cases hpar : p % 2 = 0
  · rw [if_pos hpar] at hsource htarget
    rw [if_pos hpar, if_pos hpar]
    exact ⟨hsource, htarget⟩
  · rw [if_neg hpar] at hsource htarget
    rw [if_neg hpar, if_neg hpar]
    exact ⟨htarget, hsource⟩

/-- A complete pass. -/
theorem Between.next (hb : InRange len data) (hp : 2 ^ p < len) {out : List α} (hout : out.Perm l)
    (hwrote : Wrote s s' 0 out) :
    Between len data (p + 1) l out { s' with
      src := s'.dst, dst := s'.src, parity := s'.parity ^^^ 1, width := shl32 s'.width 1 } := by
  have hlength : out.length = len := by
    rw [hout.length_eq, h.perm.length_eq, length_take, Nat.min_eq_left hb.le]
  obtain ⟨hdata, hscratch⟩ := h.data_of_wrote hwrote
  have hlt : p < 31 :=
    (Nat.pow_lt_pow_iff_right (by decide)).mp (hp.trans hb.lt)
  have hperm := hout.trans h.perm
  have hsource : (s'.buffer s'.dst).take len = out := by
    rw [hwrote.dst, hwrote.target, overwrite_zero, take_left' hlength]
  have htarget : (s'.buffer s'.src).take len = l := by
    rw [hwrote.src, hwrote.source, h.source]
  have hwidth : shl32 s'.width 1 = 2 ^ (p + 1) := by
    have hpow := Nat.pow_le_pow_right (Nat.two_pos) hlt
    rw [hwrote.width, h.width, shl32, Nat.shiftLeft_eq, Nat.pow_one, ← Nat.pow_succ]
    exact Nat.mod_eq_of_lt (by lia)
  have hsrc := hwrote.src.trans h.src
  have hdst := hwrote.dst.trans h.dst
  have hparity := hwrote.parity.trans h.parity
  by_cases hpar : p % 2 = 0
  · have hodd : (p + 1) % 2 = 1 := by lia
    rw [if_pos hpar] at hsrc hdst hdata hscratch
    exact
      { src := by rw [hodd]; exact hdst
        dst := by rw [hodd]; exact hsrc
        parity := by
          dsimp only
          rw [hparity, hpar, hodd]
          rfl
        width := hwidth
        source := hsource
        target := fun _ => htarget
        perm := hperm
        data_perm := hdata ▸ h.data_perm
        data_tail := hdata ▸ h.data_tail
        scratch_length := by
          change s'.scratch.length = len
          rw [hscratch, length_overwrite (by rw [hlength, h.scratch_length, Nat.zero_add]),
            h.scratch_length] }
  · have hodd : p % 2 = 1 := by lia
    have heven : (p + 1) % 2 = 0 := by lia
    rw [if_neg hpar] at hsrc hdst hdata hscratch
    rw [overwrite_zero, hlength, h.data_tail] at hdata
    exact
      { src := by rw [heven]; exact hdst
        dst := by rw [heven]; exact hsrc
        parity := by
          dsimp only
          rw [hparity, hodd, heven]
          rfl
        width := hwidth
        source := hsource
        target := fun _ => htarget
        perm := hperm
        data_perm := by
          change s'.data.Perm data
          rw [hdata]
          exact (hperm.append_right _).trans (by rw [take_append_drop])
        data_tail := by
          change s'.data.drop len = _
          rw [hdata, drop_left' hlength]
        scratch_length := hscratch ▸ h.scratch_length }

/-- An interrupted pass. -/
theorem Between.keeps_iff (hout : out.length ≤ len) (hwrote : Wrote s s' 0 out) :
    s'.data.Perm data ↔ Interrupted.Keeps ⟨p, out, target⟩ := by
  rw [(h.data_of_wrote hwrote).1, Interrupted.Keeps]
  by_cases hpar : p % 2 = 0
  · rw [if_pos hpar]
    exact ⟨fun _ => .inl hpar, fun _ => h.data_perm⟩
  · have hp : p ≠ 0 := fun hp => hpar (by rw [hp])
    have htarget : target.take out.length = s.data.take out.length := by
      have htake := h.target hp
      rw [h.dst, if_neg hpar] at htake
      rw [← htake, take_take, Nat.min_eq_left hout]
      rfl
    rw [if_neg hpar, overwrite_zero, or_iff_right hpar]
    dsimp only
    rw [htarget]
    have hsplit : (s.data.take out.length ++ s.data.drop out.length).Perm data := by
      rw [take_append_drop]
      exact h.data_perm
    constructor
    · exact fun hperm => (perm_append_right_iff _).mp (hperm.trans hsplit.symm)
    · exact fun hperm => (hperm.append_right _).trans hsplit

theorem length_of_between (hlen : len ≤ data.length) :
    l.length = len := by
  rw [h.perm.length_eq, length_take, Nat.min_eq_left hlen]

/-- What a pass is merging is the whole list. -/
theorem Between.rest_eq :
    ({ s with i := 0 } : State α σ).rest len = l := h.source

/-- **A pass of the code is a pass.** -/
theorem Between.passStep_ends (hb : InRange len data) (hp : 2 ^ p < len) (hfuel : len < fuel) :
    (match mergePairs g (2 ^ p) l s.comparator with
      | .returned out st => ∃ s', passStep g len fuel s = .ok s' ∧
        Between len data (p + 1) l out s' ∧ s'.comparator = st ∧ len + 2 * 2 ^ p ≤ 2 ^ 31
      | .threw e out => ∃ s', passStep g len fuel s = .error (.threw e s') ∧
        (s'.data.Perm data ↔ Interrupted.Keeps ⟨p, out, target⟩)) ∨
    2 ^ 31 < len + 2 * 2 ^ p ∧ passStep g len fuel s = .error .trap := by
  have hloop := (h.pass hb hp).pairLoop (g := g) hfuel.le
    (by rw [Nat.sub_zero]; exact hfuel) (Nat.two_pow_pos 31)
  rw [h.rest_eq] at hloop
  change FollowsBelow len _ 0 _ _ (mergePairs g s.width l s.comparator) at hloop
  rw [← h.width]
  rcases hloop with hfollows | ⟨hover, htrap⟩
  · left
    have hfollows : Follows _ 0 s _ _ := hfollows.of_start rfl rfl rfl rfl rfl
    cases ho : mergePairs g s.width l s.comparator with
    | returned out st =>
      rw [ho] at hfollows
      obtain ⟨s', hrun, hwrote, hst, hbelow⟩ := hfollows
      exact ⟨_, by rw [passStep, hrun]; rfl,
        h.next hb hp (perm_mergePairs ho) hwrote, hst, hbelow⟩
    | threw e out =>
      rw [ho] at hfollows
      obtain ⟨s', hrun, hwrote⟩ := hfollows
      have hout := length_mergePairs_le (g := g) s.width l s.comparator
      rw [ho, Outcome.out, length_of_between h hb.le] at hout
      exact ⟨s', by rw [passStep, hrun]; rfl, h.keeps_iff hout hwrote⟩
  · right
    exact ⟨hover, by rw [passStep, htrap]; rfl⟩

end

/-- How a run ends when the passes do. -/
def Ends (len : Nat) (data : List α) (r : Except (Stop α σ ε) (State α σ)) :
    Except (ε × Interrupted α) (List α × σ) → Prop
  | .ok (out, _) => ∃ s' p target, r = .ok s' ∧ Between len data p target out s'
  | .error (e, place) => ∃ s', r = .error (.threw e s') ∧ (s'.data.Perm data ↔ place.Keeps)

section
variable (h : Between len data p target l s) (hp : p < 31)
include h hp

theorem hasPass_eq (hlen : len < 2 ^ 31) :
    s.hasPass len = decide (2 ^ p < len) := by
  rw [State.hasPass, h.width]
  exact ltS_eq ((Nat.pow_lt_pow_iff_right (by decide)).mpr hp) hlen

theorem Between.passes_stop (hb : InRange len data) (hend : ¬2 ^ p < len) (fuel rounds : Nat) :
    Ends len data (Loop.exec (State.hasPass len) (passStep g len fuel) .outOfFuel rounds s)
      (passes g len (2 ^ p) p target l s.comparator) := by
  have hhas : s.hasPass len = false := by
    rw [hasPass_eq h hp hb.lt]
    exact decide_eq_false hend
  rw [Loop.exec_done hhas, passes, if_pos (.inr (Nat.le_of_not_lt hend))]
  exact ⟨s, p, target, rfl, h⟩

/-- **The loop over the passes.** -/
theorem Between.passes_end (hb : InRange len data) {rounds : Nat} (hfuel : len < fuel)
    (hrounds : len - 2 ^ p ≤ rounds) :
    Ends len data (Loop.exec (State.hasPass len) (passStep g len fuel) .outOfFuel rounds s)
      (passes g len (2 ^ p) p target l s.comparator) ∨
    2 ^ 30 < len ∧ Loop.exec (State.hasPass len) (passStep g len fuel) .outOfFuel rounds s =
      .error .trap := by
  induction rounds generalizing p target l s with
  | zero => exact .inl (h.passes_stop hp hb (by omega) fuel 0)
  | succ rounds ih =>
    by_cases hlt : 2 ^ p < len
    · have hhas : s.hasPass len = true := by
        rw [hasPass_eq h hp hb.lt]
        exact decide_eq_true hlt
      have hmore : ¬(2 ^ p = 0 ∨ len ≤ 2 ^ p) :=
        not_or.mpr ⟨Nat.ne_of_gt (Nat.two_pow_pos p), Nat.not_le.mpr hlt⟩
      rw [passes, if_neg hmore]
      rcases h.passStep_ends (g := g) hb hlt hfuel with hends | ⟨hover, htrap⟩
      · cases ho : mergePairs g (2 ^ p) l s.comparator with
        | returned out st =>
          rw [ho] at hends
          obtain ⟨s', hstep, hnext, rfl, hbelow⟩ := hends
          have hp' : p + 1 < 31 := (Nat.pow_lt_pow_iff_right (by decide : 1 < 2)).mp (by
            rw [Nat.pow_succ']
            omega)
          have hpow : 2 * 2 ^ p = 2 ^ (p + 1) := (Nat.pow_succ').symm
          rw [Loop.exec_next hhas hstep, hpow]
          exact ih hnext hp' (by rw [← hpow]; omega)
        | threw e out =>
          rw [ho] at hends
          obtain ⟨s', hstep, hkeeps⟩ := hends
          left
          exact ⟨s', Loop.exec_stop hhas hstep rounds, hkeeps⟩
      · right
        exact ⟨lt_of_over hlt hover, Loop.exec_stop hhas htrap rounds⟩
    · exact .inl (h.passes_stop hp hb hlt fuel (rounds + 1))

end

end

/-! ### The sort -/

/-- The state before the first pass. -/
theorem between_start (len : Nat) (data : List α) (seed : α) (st : σ) :
    Between len data 0 [] (data.take len)
      { data := data, scratch := replicate len seed, src := .data, dst := .scratch,
        width := 1, i := 0, mid := 0, hi := 0, a := 0, b := 0, k := 0, parity := 0,
        comparator := st } where
  src := rfl
  dst := rfl
  parity := rfl
  width := rfl
  source := rfl
  target h := absurd rfl h
  perm := .refl _
  data_perm := .refl _
  data_tail := rfl
  scratch_length := length_replicate

/-- After the last pass the list is in the caller's array, or is copied there. -/
theorem Between.finish {p : Nat} {target l : List α} (h : Between len data p target l s)
    (hlen : len ≤ data.length) : ∃ s',
      (if s.parity ≠ 0 then copyBack len s else return s : Except (Stop α σ ε) (State α σ)) =
        .ok s' ∧ s'.data = l ++ data.drop len := by
  have hsource := h.source
  rw [h.parity]
  by_cases hpar : p % 2 = 0
  · rw [h.src, if_pos hpar] at hsource
    refine ⟨s, by rw [hpar]; rfl, ?_⟩
    rw [← hsource, ← h.data_tail]
    exact (take_append_drop len s.data).symm
  · rw [if_pos hpar, copyBack,
      if_pos ⟨(h.length_buffer hlen s.src).1, (h.length_buffer hlen .data).1⟩]
    exact ⟨_, rfl, by rw [h.source, h.data_tail]⟩

theorem mergeSort_eq (hlt : ltS len 2 = false) {seed : α} (hseed : data[0]? = some seed)
    {fuel : Nat} {st : σ} : mergeSort g len fuel data st =
      (Loop.exec (State.hasPass len) (passStep g len fuel) .outOfFuel fuel
        { data := data, scratch := replicate len seed, src := .data, dst := .scratch,
          width := 1, i := 0, mid := 0, hi := 0, a := 0, b := 0, k := 0, parity := 0,
          comparator := st }).bind
        fun s => if s.parity ≠ 0 then copyBack len s else return s := by
  rw [mergeSort, hlt, if_neg Bool.false_ne_true, readSrc_some hseed]
  rfl

/-- **A run ends as the passes do.** -/
theorem mergeSort_ends (hb : InRange len data) (htwo : 2 ≤ len) {fuel : Nat} (hfuel : len < fuel)
    (st : σ) :
    (match passes g len 1 0 [] (data.take len) st with
      | .ok (out, _) => ∃ s, mergeSort g len fuel data st = .ok s ∧
        s.data = out ++ data.drop len ∧ out.length = len
      | .error (e, place) => ∃ s, mergeSort g len fuel data st = .error (.threw e s) ∧
        (s.data.Perm data ↔ place.Keeps)) ∨
    2 ^ 30 < len ∧ mergeSort g len fuel data st = .error .trap := by
  have hle := hb.le
  have hlt : ltS len 2 = false := by
    rw [ltS_eq hb.lt (by lia)]
    exact decide_eq_false (by lia)
  obtain ⟨seed, hseed⟩ : ∃ seed, data[0]? = some seed :=
    ⟨_, getElem?_eq_getElem (by lia)⟩
  have hends := (between_start len data seed st).passes_end (g := g) (by lia) hb hfuel
    (show len - 2 ^ 0 ≤ fuel by lia)
  rw [mergeSort_eq hlt hseed]
  change Ends len data _ (passes g len 1 0 [] (data.take len) st) ∨ _ at hends
  rcases hends with hends | ⟨hlong, htrap⟩
  · left
    cases hpasses : passes g len 1 0 [] (data.take len) st with
    | error place =>
      rw [hpasses] at hends
      obtain ⟨s, hrun, hkeeps⟩ := hends
      exact ⟨s, by rw [hrun]; rfl, hkeeps⟩
    | ok r =>
      rw [hpasses] at hends
      obtain ⟨s, p, target, hrun, hbetween⟩ := hends
      obtain ⟨s', hfinish, hdata⟩ := hbetween.finish (ε := ε) hle
      refine ⟨s', by rw [hrun]; exact hfinish, hdata, length_of_between hbetween hle⟩
  · right
    exact ⟨hlong, by rw [htrap]; rfl⟩

/-- **The merge sort sorts.** -/
theorem mergeSort_sorts (hgt : Returns g) (htwo : 2 ≤ len) (hlen : len ≤ 2 ^ 30)
    (hdata : len ≤ data.length) (st : σ) : ∃ rounds, ∀ fuel, rounds ≤ fuel →
      ∃ s, mergeSort g len fuel data st = .ok s ∧ s.data.drop len = data.drop len ∧
        (s.data.take len).Perm (data.take len) ∧
        ∀ le, IsOrder le → TestsGreater g le →
          IsStableSort le (data.take len) (s.data.take len) := by
  have hb : InRange len data := ⟨hdata, by lia, fun hlong => absurd hlen (Nat.not_le.mpr hlong)⟩
  refine ⟨len + 1, fun fuel hfuel => ?_⟩
  obtain ⟨out, st', hok⟩ := returns_passes hgt len 1 0 [] (data.take len) st
  have hends := (mergeSort_ends (g := g) hb htwo hfuel st).resolve_right fun h => by lia
  rw [hok] at hends
  obtain ⟨s, hrun, hs, hout⟩ := hends
  refine ⟨s, hrun, ?_, ?_, fun le hle htests => ?_⟩
  · rw [hs, drop_left' hout]
  · rw [hs, take_left' hout]
    exact perm_passes hok
  · obtain ⟨out', st'', hok', hsorts⟩ := passes_sorts hle htests Nat.one_pos
      (length_take_le len data) (sortedRuns_one _) 0 [] st
    rw [hok, Except.ok.injEq, Prod.mk.injEq] at hok'
    rw [hs, take_left' hout, hok'.1]
    exact hsorts

/-- Greater-than on numbers, and four of them. -/
theorem mergeSort_sorts_four : ∃ rounds, ∀ fuel, rounds ≤ fuel → ∃ s,
    mergeSort (fun st x y => (.ok (decide (y < x), st) : Except Unit (Bool × Unit))) 4 fuel
        [3, 1, 2, 1, 0] () = .ok s ∧
      s.data.drop 4 = [3, 1, 2, 1, 0].drop 4 ∧
      (s.data.take 4).Perm ([3, 1, 2, 1, 0].take 4) ∧
      ∀ le, IsOrder le →
        TestsGreater (fun st x y => (.ok (decide (y < x), st) : Except Unit (Bool × Unit))) le →
        IsStableSort le ([3, 1, 2, 1, 0].take 4) (s.data.take 4) :=
  mergeSort_sorts (fun st x y => ⟨decide (y < x), st, rfl⟩) (by decide) (by decide) (by decide) ()

/-- **What a throwing comparator leaves.** -/
theorem mergeSort_throw_keeps_iff (hdata : len ≤ data.length) (hsmall : data.length < 2 ^ 31)
    {fuel : Nat} (hfuel : len < fuel) {st : σ} {e : ε} {s : State α σ}
    (hthrow : mergeSort g len fuel data st = .error (.threw e s)) :
    ∃ place, passes g len 1 0 [] (data.take len) st = .error (e, place) ∧
      (s.data.Perm data ↔ place.Keeps) := by
  have hb : InRange len data := ⟨hdata, hdata.trans_lt hsmall, fun _ => hsmall⟩
  by_cases htwo : 2 ≤ len
  · rcases mergeSort_ends (g := g) hb htwo hfuel st with hends | ⟨-, htrap⟩
    · cases hpasses : passes g len 1 0 [] (data.take len) st with
      | ok r =>
        rw [hpasses] at hends
        obtain ⟨s', hrun, -⟩ := hends
        rw [hthrow] at hrun
        cases hrun
      | error r =>
        obtain ⟨e', place⟩ := r
        rw [hpasses] at hends
        obtain ⟨s', hrun, hkeeps⟩ := hends
        rw [hthrow] at hrun
        cases hrun
        exact ⟨place, rfl, hkeeps⟩
    · rw [hthrow] at htrap
      cases htrap
  · have hlt : ltS len 2 = true := by
      rw [ltS_eq hb.lt (by lia)]
      exact decide_eq_true (by lia)
    rw [mergeSort, hlt, if_pos rfl] at hthrow
    cases hthrow

/-- A comparator that counts its calls and throws at one of them. -/
def throwingAt (n : Nat) (st x y : Nat) : Except Unit (Bool × Nat) :=
  if st = n then .error () else .ok (decide (y < x), st + 1)

/-- A comparator that throws at its second call. -/
theorem mergeSort_throw_keeps_iff_second : ∃ s,
    mergeSort (throwingAt 1) 4 5 [3, 2, 1, 0] 0 = .error (.threw () s) ∧
      ∃ place, passes (throwingAt 1) 4 1 0 [] ([3, 2, 1, 0].take 4) 0 = .error ((), place) ∧
        (s.data.Perm [3, 2, 1, 0] ↔ place.Keeps) :=
  ⟨_, rfl, mergeSort_throw_keeps_iff (by decide) (by decide) (show 4 < 5 by decide) rfl⟩

/-- In the second pass, after one element has been put out, the greatest is gone. -/
theorem mergeSort_throw_loses : ∃ s, mergeSort (throwingAt 3) 4 5 [3, 2, 1, 0] 0 =
    .error (.threw () s) ∧ ¬s.data.Perm [3, 2, 1, 0] :=
  ⟨_, rfl, by decide⟩

end Js2Wasm.Sorting
