import Js2Wasm.Sorting.MergeSort
import Js2Wasm.Sorting.MergePasses

/-! # The merge sort follows the passes

The code writes into one buffer what the merges of lists put out, and reads the other, which it
leaves alone: `Wrote` says so of any part of a run.  A merge, a pass and all passes then follow
`mergeLists`, `mergePairs` and `passes`, also in what is written when the comparator throws.

`2 ^ 30` elements are the most that the cursors can hold.  On a longer array the pass of width
`2 ^ 30` begins with a window whose end is negative, and then reads at a negative index.
-/
namespace Js2Wasm.Sorting
open List WordMemory StableSort

variable {α σ ε : Type} {s s' s'' : State α σ} {g : σ → α → α → Except ε (Bool × σ)}

/-! ### Buffers -/

/-- `out` written over a list, from `p` on. -/
def overwrite (l : List α) (p : Nat) (out : List α) : List α :=
  l.take p ++ out ++ l.drop (p + out.length)

theorem overwrite_nil (l : List α) (p : Nat) : overwrite l p [] = l := by
  rw [overwrite, append_nil]
  exact take_append_drop p l

theorem overwrite_zero (l out : List α) : overwrite l 0 out = out ++ l.drop out.length := by
  rw [overwrite, take_zero, nil_append, Nat.zero_add]

variable {out l : List α} {p : Nat} {Q : State α σ → Prop} {r : Except (Stop α σ ε) (State α σ)}
    {v : α} {o : Outcome α σ ε}

theorem length_overwrite (h : p + out.length ≤ l.length) :
    (overwrite l p out).length = l.length := by
  rw [overwrite, length_append, length_append, length_take, length_drop]
  lia

theorem set_eq_overwrite (h : p < l.length) (v : α) : l.set p v = overwrite l p [v] := by
  rw [overwrite, set_eq_take_append_cons_drop, if_pos h, append_assoc]
  rfl

theorem overwrite_overwrite (h : p + out.length ≤ l.length) (out' : List α) :
    overwrite (overwrite l p out) (p + out.length) out' = overwrite l p (out ++ out') := by
  have hlen : (l.take p ++ out).length = p + out.length := by
    rw [length_append, length_take, Nat.min_eq_left (by lia)]
  rw [overwrite, overwrite, overwrite, ← hlen, take_left, ← drop_drop, drop_left,
    hlen, drop_drop, length_append, Nat.add_assoc]
  simp

@[simp] theorem buffer_setBuffer (s : State α σ) (values : List α) (b : Buffer) :
    (s.setBuffer values b).buffer b = values := by
  cases b <;> rfl

theorem buffer_setBuffer_of_ne {b b' : Buffer} (h : b' ≠ b) (s : State α σ) (values : List α) :
    (s.setBuffer values b).buffer b' = s.buffer b' := by
  cases b <;> cases b' <;> first | rfl | exact absurd rfl h

/-- From one state to the other `out` has been written, from `p` on. -/
structure Wrote (s s' : State α σ) (p : Nat) (out : List α) : Prop where
  src : s'.src = s.src
  dst : s'.dst = s.dst
  width : s'.width = s.width
  parity : s'.parity = s.parity
  source : s'.buffer s.src = s.buffer s.src
  target : s'.buffer s.dst = overwrite (s.buffer s.dst) p out

theorem Wrote.refl (s : State α σ) (p : Nat) : Wrote s s p [] :=
  ⟨rfl, rfl, rfl, rfl, rfl, (overwrite_nil _ p).symm⟩

theorem Wrote.trans {p : Nat} {out out' : List α} (h : Wrote s s' p out)
    (hfits : p + out.length ≤ (s.buffer s.dst).length)
    (h' : Wrote s' s'' (p + out.length) out') : Wrote s s'' p (out ++ out') where
  src := h'.src.trans h.src
  dst := h'.dst.trans h.dst
  width := h'.width.trans h.width
  parity := h'.parity.trans h.parity
  source := by rw [← h.source, ← h.src, h'.source]
  target := by rw [← overwrite_overwrite hfits, ← h.target, ← h.dst, h'.target]

/-- A part of a run puts out what an outcome does, and ends in a state with `Q`. -/
def Follows (Q : State α σ → Prop) (p : Nat) (s : State α σ)
    (r : Except (Stop α σ ε) (State α σ)) : Outcome α σ ε → Prop
  | .returned out st => ∃ s', r = .ok s' ∧ Wrote s s' p out ∧ s'.comparator = st ∧ Q s'
  | .threw e out => ∃ s', r = .error (.threw e s') ∧ Wrote s s' p out

theorem Follows.prepend (hwrote : Wrote s s' p out)
    (hfits : p + out.length ≤ (s.buffer s.dst).length) (h : Follows Q (p + out.length) s' r o) :
    Follows Q p s r (o.prepend out) := by
  cases o with
  | returned out' st =>
    obtain ⟨t, hr, hw, hst, hq⟩ := h
    exact ⟨t, hr, hwrote.trans hfits hw, hst, hq⟩
  | threw e out' =>
    obtain ⟨t, hr, hw⟩ := h
    exact ⟨t, hr, hwrote.trans hfits hw⟩

/-- The cursors at the start are not part of what follows. -/
theorem Follows.of_start (h : Follows Q p s r o) (hbuffer : s.buffer = s'.buffer)
    (hsrc : s.src = s'.src) (hdst : s.dst = s'.dst) (hwidth : s.width = s'.width)
    (hparity : s.parity = s'.parity) : Follows Q p s' r o := by
  have hwrote : ∀ {t out}, Wrote s t p out → Wrote s' t p out := fun h =>
    { src := h.src.trans hsrc
      dst := h.dst.trans hdst
      width := h.width.trans hwidth
      parity := h.parity.trans hparity
      source := by rw [← hsrc, h.source, hbuffer]
      target := by rw [← hdst, h.target, hbuffer] }
  cases o with
  | returned out st =>
    obtain ⟨t, hr, hw, hst, hq⟩ := h
    exact ⟨t, hr, hwrote hw, hst, hq⟩
  | threw e out =>
    obtain ⟨t, hr, hw⟩ := h
    exact ⟨t, hr, hwrote hw⟩

/-! ### One merge -/

/-- What of the left run is still to come. -/
def State.left (s : State α σ) : List α := ((s.buffer s.src).take s.mid).drop s.a

def State.right (s : State α σ) : List α := ((s.buffer s.src).take s.hi).drop s.b

/-- The cursors within a merge. -/
structure Window (s : State α σ) : Prop where
  ne : s.src ≠ s.dst
  a_le : s.a ≤ s.mid
  b_le : s.b ≤ s.hi
  mid_le : s.mid ≤ s.hi
  sum : s.k + (s.mid - s.a) + (s.hi - s.b) = s.hi
  small : s.hi < 2 ^ 31
  source : s.hi ≤ (s.buffer s.src).length
  target : s.hi ≤ (s.buffer s.dst).length

/-- The state with one element moved, before the cursors advance. -/
def State.moved (s : State α σ) (v : α) : State α σ :=
  s.setBuffer ((s.buffer s.dst).set s.k v) s.dst

/-- An element taken from the left run. -/
def State.tookA (s : State α σ) (v : α) : State α σ :=
  { s.moved v with a := s.a + 1, k := s.k + 1 }

def State.tookB (s : State α σ) (v : α) : State α σ :=
  { s.moved v with b := s.b + 1, k := s.k + 1 }

theorem wrote_moved (hne : s.src ≠ s.dst) (hk : s.k < (s.buffer s.dst).length) :
    Wrote s (s.moved v) s.k [v] where
  src := rfl
  dst := rfl
  width := rfl
  parity := rfl
  source := buffer_setBuffer_of_ne hne _ _
  target := by rw [State.moved, buffer_setBuffer, set_eq_overwrite hk]

/-- The cursors are not part of what is written. -/
theorem Wrote.of_buffers (h : Wrote s s' p out) (hbuffer : s''.buffer = s'.buffer)
    (hsrc : s''.src = s'.src) (hdst : s''.dst = s'.dst) (hwidth : s''.width = s'.width)
    (hparity : s''.parity = s'.parity) :
    Wrote s s'' p out where
  src := hsrc.trans h.src
  dst := hdst.trans h.dst
  width := hwidth.trans h.width
  parity := hparity.trans h.parity
  source := by rw [hbuffer, h.source]
  target := by rw [hbuffer, h.target]

theorem moveFrom_eq {c : Nat} (hread : (s.buffer s.src)[c]? = some v)
    (hk : s.k < (s.buffer s.dst).length) :
    (moveFrom s c : Except (Stop α σ ε) (State α σ)) = .ok (s.moved v) := by
  rw [moveFrom, readSrc, hread]
  simp only [bind, Except.bind]
  rw [if_pos hk]
  rfl

/-- A step of the merge moves one element. -/
structure Took (s s' : State α σ) (v : α) : Prop where
  window : Window s'
  wrote : Wrote s s' s.k [v]
  k : s'.k = s.k + 1
  hi : s'.hi = s.hi
  i : s'.i = s.i

theorem length_buffer_moved (v : α) (b : Buffer) :
    ((s.moved v).buffer b).length = (s.buffer b).length := by
  by_cases hb : b = s.dst
  · rw [hb, State.moved, buffer_setBuffer, length_set]
  · rw [State.moved, buffer_setBuffer_of_ne hb]

section
variable (h : Window s)
include h

theorem Window.took {a b : Nat} (ha : a ≤ s.mid) (hb : b ≤ s.hi)
    (hsum : s.k + 1 + (s.mid - a) + (s.hi - b) = s.hi) (v : α) (st : σ) :
    Took s { s.moved v with a := a, b := b, k := s.k + 1, comparator := st } v where
  window :=
    { ne := h.ne
      a_le := ha
      b_le := hb
      mid_le := h.mid_le
      sum := hsum
      small := h.small
      source := h.source.trans (length_buffer_moved v s.src).ge
      target := h.target.trans (length_buffer_moved v s.dst).ge }
  wrote := (wrote_moved h.ne (by have := h.sum; have := h.target; lia)).of_buffers
    rfl rfl rfl rfl rfl
  k := rfl
  hi := rfl
  i := rfl

theorem Window.tookA (ha : s.a < s.mid) (v : α) (st : σ) :
    Took s { s.tookA v with comparator := st } v :=
  h.took ha h.b_le (by have := h.sum; lia) v st

theorem Window.tookB (hb : s.b < s.hi) (v : α) (st : σ) :
    Took s { s.tookB v with comparator := st } v :=
  h.took h.a_le hb (by have := h.sum; lia) v st

theorem Window.left_cons (ha : s.a < s.mid) : ∃ v, (s.buffer s.src)[s.a]? = some v ∧
    s.left = v :: (s.tookA v).left := by
  have hlen := h.source
  have hmid := h.mid_le
  have hlt : s.a < (s.buffer s.src).length := by lia
  refine ⟨(s.buffer s.src)[s.a], getElem?_eq_getElem hlt, ?_⟩
  have hsource : (s.tookA (s.buffer s.src)[s.a]).buffer s.src = s.buffer s.src :=
    buffer_setBuffer_of_ne h.ne _ _
  change _ = _ :: (((s.tookA _).buffer s.src).take s.mid).drop (s.a + 1)
  rw [hsource, State.left, drop_eq_getElem_cons (by rw [length_take]; lia),
    getElem_take]

theorem Window.right_cons (hb : s.b < s.hi) : ∃ v, (s.buffer s.src)[s.b]? = some v ∧
    s.right = v :: (s.tookB v).right := by
  have hlen := h.source
  have hlt : s.b < (s.buffer s.src).length := by lia
  refine ⟨(s.buffer s.src)[s.b], getElem?_eq_getElem hlt, ?_⟩
  have hsource : (s.tookB (s.buffer s.src)[s.b]).buffer s.src = s.buffer s.src :=
    buffer_setBuffer_of_ne h.ne _ _
  change _ = _ :: (((s.tookB _).buffer s.src).take s.hi).drop (s.b + 1)
  rw [hsource, State.right, drop_eq_getElem_cons (by rw [length_take]; lia),
    getElem_take]

theorem Window.tookA_right (v : α) : (s.tookA v).right = s.right := by
  have hsource : (s.tookA v).buffer s.src = s.buffer s.src := buffer_setBuffer_of_ne h.ne _ _
  change (((s.tookA v).buffer s.src).take s.hi).drop s.b = _
  rw [hsource, State.right]

theorem Window.tookB_left (v : α) : (s.tookB v).left = s.left := by
  have hsource : (s.tookB v).buffer s.src = s.buffer s.src := buffer_setBuffer_of_ne h.ne _ _
  change (((s.tookB v).buffer s.src).take s.mid).drop s.a = _
  rw [hsource, State.left]

omit h in
theorem left_nil (ha : ¬s.a < s.mid) : s.left = [] :=
  drop_of_length_le (by rw [length_take]; lia)

omit h in
theorem right_nil (hb : ¬s.b < s.hi) : s.right = [] :=
  drop_of_length_le (by rw [length_take]; lia)

theorem Window.takeLeftCond_eq (g : σ → α → α → Except ε (Bool × σ)) :
    takeLeftCond g s =
      if s.a < s.mid then
        if s.b < s.hi then do
          let left ← readSrc s s.a
          let right ← readSrc s s.b
          match g s.comparator left right with
          | .ok (greater, comparator) => return (!greater, { s with comparator := comparator })
          | .error e => throw (.threw e s)
        else return (true, s)
      else return (false, s) := by
  have hsmall := h.small
  have hmid := h.mid_le
  have ha := h.a_le
  have hb := h.b_le
  have hltA : ltS s.a s.mid = decide (s.a < s.mid) := ltS_eq (by lia) (by lia)
  have hltB : ltS s.b s.hi = decide (s.b < s.hi) := ltS_eq (by lia) (by lia)
  rw [takeLeftCond, hltA, hltB]
  by_cases ha' : s.a < s.mid
  · by_cases hb' : s.b < s.hi
    · rw [decide_eq_true ha', decide_eq_true hb', if_pos ha', if_pos hb']
      rfl
    · rw [decide_eq_true ha', decide_eq_false hb', if_pos ha', if_neg hb']
      rfl
  · rw [decide_eq_false ha', if_neg ha']
    rfl

variable {st : σ}

theorem Window.move {i : Nat} (hk : s.k < s.hi) (hread : (s.buffer s.src)[i]? = some v) :
    (moveFrom { s with comparator := st } i : Except (Stop α σ ε) (State α σ)) =
      .ok (({ s with comparator := st } : State α σ).moved v) :=
  moveFrom_eq hread (hk.trans_le h.target)

theorem Window.mergeStep_left (ha : s.a < s.mid) (hread : (s.buffer s.src)[s.a]? = some v)
    (hcond : takeLeftCond g s = .ok (true, { s with comparator := st })) :
    mergeStep g s = .ok { s.tookA v with comparator := st } := by
  have hsum := h.sum
  have hsmall := h.small
  have hmid := h.mid_le
  have hadd : add32 s.a 1 = s.a + 1 := add32_of_lt (by lia)
  have haddk : add32 s.k 1 = s.k + 1 := add32_of_lt (by lia)
  rw [mergeStep, hcond]
  change (takeFromA { s with comparator := st } >>= fun s => pure { s with k := add32 s.k 1 }) = _
  rw [takeFromA, h.move (by lia) hread]
  change Except.ok { s.moved v with a := add32 s.a 1, k := add32 s.k 1, comparator := st } = _
  rw [hadd, haddk]
  rfl

theorem Window.mergeStep_right (hb : s.b < s.hi) (hread : (s.buffer s.src)[s.b]? = some v)
    (hcond : takeLeftCond g s = .ok (false, { s with comparator := st })) :
    mergeStep g s = .ok { s.tookB v with comparator := st } := by
  have hsum := h.sum
  have hsmall := h.small
  have hadd : add32 s.b 1 = s.b + 1 := add32_of_lt (by lia)
  have haddk : add32 s.k 1 = s.k + 1 := add32_of_lt (by lia)
  rw [mergeStep, hcond]
  change (takeFromB { s with comparator := st } >>= fun s => pure { s with k := add32 s.k 1 }) = _
  rw [takeFromB, h.move (by lia) hread]
  change Except.ok { s.moved v with b := add32 s.b 1, k := add32 s.k 1, comparator := st } = _
  rw [hadd, haddk]
  rfl

/-- **A step of the merge is one of `mergeLists`.** -/
theorem Window.mergeStep_spec (hk : s.k < s.hi) :
    (∃ v s', mergeStep g s = .ok s' ∧ Took s s' v ∧
      mergeLists g s.left s.right s.comparator =
        (mergeLists g s'.left s'.right s'.comparator).prepend [v]) ∨
    ∃ e, mergeStep g s = .error (.threw e s) ∧
      mergeLists g s.left s.right s.comparator = .threw e [] := by
  have hcond := h.takeLeftCond_eq g
  by_cases ha : s.a < s.mid
  · obtain ⟨x, hx, hleft⟩ := h.left_cons ha
    by_cases hb : s.b < s.hi
    · obtain ⟨y, hy, hright⟩ := h.right_cons hb
      rw [if_pos ha, if_pos hb, readSrc, hx, readSrc, hy] at hcond
      simp only [bind, Except.bind] at hcond
      cases hgt : g s.comparator x y with
      | error e =>
        right
        rw [hgt] at hcond
        refine ⟨e, ?_, by rw [hleft, hright, mergeLists, hgt]⟩
        rw [mergeStep, hcond]
        rfl
      | ok r =>
        left
        rw [hgt] at hcond
        obtain ⟨greater, st⟩ := r
        cases greater with
        | true =>
          refine ⟨y, _, h.mergeStep_right hb hy hcond, h.tookB hb y st, ?_⟩
          rw [hright, hleft, mergeLists, hgt, ← hleft]
          change _ = (mergeLists g (s.tookB y).left (s.tookB y).right st).prepend [y]
          rw [h.tookB_left]
        | false =>
          refine ⟨x, _, h.mergeStep_left ha hx hcond, h.tookA ha x st, ?_⟩
          rw [hright, hleft, mergeLists, hgt, ← hright]
          change _ = (mergeLists g (s.tookA x).left (s.tookA x).right st).prepend [x]
          rw [h.tookA_right]
    · left
      rw [if_pos ha, if_neg hb] at hcond
      refine ⟨x, _, h.mergeStep_left ha hx hcond, h.tookA ha x s.comparator, ?_⟩
      change _ = (mergeLists g (s.tookA x).left (s.tookA x).right s.comparator).prepend [x]
      rw [h.tookA_right, right_nil hb, hleft, mergeLists_right_nil, mergeLists_right_nil]
      rfl
  · left
    have hb : s.b < s.hi := by
      have := h.sum
      omega
    obtain ⟨y, hy, hright⟩ := h.right_cons hb
    rw [if_neg ha] at hcond
    refine ⟨y, _, h.mergeStep_right hb hy hcond, h.tookB hb y s.comparator, ?_⟩
    change _ = (mergeLists g (s.tookB y).left (s.tookB y).right s.comparator).prepend [y]
    rw [h.tookB_left, left_nil ha, hright, mergeLists_nil, mergeLists_nil]
    rfl

theorem Window.mergeLoop_end (hk : ¬s.k < s.hi) (fuel : Nat) :
    Follows (fun s' => s'.i = s.i) s.k s
      (Loop.exec State.merging (mergeStep g) .outOfFuel fuel s)
      (mergeLists g s.left s.right s.comparator) := by
  have hsum := h.sum
  have hlt : s.merging = false := by
    rw [State.merging, ltS_eq (by have := h.small; lia) h.small]
    exact decide_eq_false hk
  rw [Loop.exec_done hlt, left_nil (by lia), right_nil (by lia), mergeLists_nil]
  exact ⟨s, rfl, .refl s s.k, rfl, rfl⟩

/-- The loop of the merge. -/
theorem Window.mergeLoop {fuel : Nat} (hfuel : s.hi - s.k ≤ fuel) :
    Follows (fun s' => s'.i = s.i) s.k s
      (Loop.exec State.merging (mergeStep g) .outOfFuel fuel s)
      (mergeLists g s.left s.right s.comparator) := by
  induction fuel generalizing s with
  | zero => exact h.mergeLoop_end (by omega) 0
  | succ fuel ih =>
    by_cases hk : s.k < s.hi
    · have hlt : s.merging = true := by
        rw [State.merging, ltS_eq (hk.trans h.small) h.small]
        exact decide_eq_true hk
      rcases h.mergeStep_spec (g := g) hk with ⟨v, s', hstep, htook, hmerge⟩ | ⟨e, hstep, hmerge⟩
      · rw [Loop.exec_next hlt hstep, hmerge]
        have hfits : s.k + [v].length ≤ (s.buffer s.dst).length := hk.trans_le h.target
        refine Follows.prepend htook.wrote hfits ?_
        have hrest := ih htook.window (by rw [htook.hi, htook.k]; omega)
        rwa [htook.k, htook.i] at hrest
      · rw [Loop.exec_stop hlt hstep, hmerge]
        exact ⟨s, rfl, .refl s s.k⟩
    · exact h.mergeLoop_end hk (fuel + 1)

end

/-! ### One pass -/

/-- The state of a pass at one of its pairs. -/
structure Pass (len : Nat) (s : State α σ) : Prop where
  ne : s.src ≠ s.dst
  width_pos : 0 < s.width
  width_dvd : 2 * s.width ∣ 2 ^ 31
  i_dvd : 2 * s.width ∣ s.i
  source : len ≤ (s.buffer s.src).length
  len_lt : len < 2 ^ 31
  source_lt : 2 ^ 31 < len + 2 * s.width → (s.buffer s.src).length < 2 ^ 31
  target : len ≤ (s.buffer s.dst).length

/-- What of the list the pass has still to merge. -/
def State.rest (len : Nat) (s : State α σ) : List α := ((s.buffer s.src).take len).drop s.i

variable {len : Nat}

theorem clampToLen_eq {v : Nat} (hlen : len < 2 ^ 31) (hv : v < 2 ^ 31) :
    clampToLen len v = min v len := by
  rw [clampToLen, ltS_eq hlen hv]
  by_cases h : len < v
  · rw [decide_eq_true h, if_pos rfl, Nat.min_eq_right h.le]
  · rw [decide_eq_false h, if_neg Bool.false_ne_true, Nat.min_eq_left (Nat.le_of_not_lt h)]

/-- A word from `2 ^ 31` on is negative. -/
theorem clampToLen_negative {v : Nat} (hlen : len < 2 ^ 31) (hv : 2 ^ 31 ≤ v) (hv' : v < 2 ^ 32) :
    clampToLen len v = v := by
  have hge : ltS len v = false := by
    rw [ltS, signed32, if_pos hlen, signed32, if_neg (Nat.not_lt.mpr hv)]
    apply decide_eq_false
    lia
  rw [clampToLen, hge, if_neg Bool.false_ne_true]

section
variable {len : Nat} (h : Pass len s)
include h

/-- The next pair ends at `2 ^ 31` at the latest. -/
theorem Pass.pair_le (hlt : s.i < 2 ^ 31) : s.i + 2 * s.width ≤ 2 ^ 31 := by
  obtain ⟨m, hm⟩ := h.width_dvd
  obtain ⟨j, hj⟩ := h.i_dvd
  have hjm : j + 1 ≤ m := by
    by_contra hle
    have := Nat.mul_le_mul_left (2 * s.width) (Nat.le_of_lt_succ (Nat.lt_of_not_le hle))
    lia
  have := Nat.mul_le_mul_left (2 * s.width) hjm
  rw [Nat.mul_add, Nat.mul_one] at this
  lia

/-- The merge of a pair whose end is no negative word. -/
theorem Pass.merge_follows (hi : s.i < len) (hroom : min (s.i + s.width) len + s.width < 2 ^ 31)
    {fuel : Nat} (hfuel : len ≤ fuel) :
    Follows (fun s' => s'.i = s.i) s.i s (mergeRun g len fuel s)
      (mergeLists g ((s.rest len).take s.width) (((s.rest len).drop s.width).take s.width)
        s.comparator) := by
  have hlen := h.len_lt
  have hmid : clampToLen len (add32 s.i s.width) = min (s.i + s.width) len := by
    rw [add32_of_lt (by lia), clampToLen_eq hlen (by lia)]
  have hhi : clampToLen len (add32 (min (s.i + s.width) len) s.width) =
      min (min (s.i + s.width) len + s.width) len := by
    rw [add32_of_lt (by lia), clampToLen_eq hlen hroom]
  rw [mergeRun, hmid, hhi]
  have hwindow : Window { s with
      mid := min (s.i + s.width) len, hi := min (min (s.i + s.width) len + s.width) len,
      a := s.i, b := min (s.i + s.width) len, k := s.i } :=
    { ne := h.ne
      a_le := by dsimp only; lia
      b_le := by dsimp only; lia
      mid_le := by dsimp only; lia
      sum := by dsimp only; lia
      small := by dsimp only; lia
      source := (Nat.min_le_right _ _).trans h.source
      target := (Nat.min_le_right _ _).trans h.target }
  have hloop := hwindow.mergeLoop (g := g) (show _ ≤ fuel by dsimp only; lia)
  have hleft : ((s.buffer s.src).take (min (s.i + s.width) len)).drop s.i =
      (s.rest len).take s.width := by
    rw [State.rest, take_drop, take_take]
  have hright : ((s.buffer s.src).take (min (min (s.i + s.width) len + s.width) len)).drop
      (min (s.i + s.width) len) = ((s.rest len).drop s.width).take s.width := by
    rw [State.rest, drop_drop, take_drop, take_take]
    by_cases hfull : s.i + s.width ≤ len
    · rw [Nat.min_eq_left hfull]
    · rw [drop_of_length_le (by rw [length_take]; lia),
        drop_of_length_le (by rw [length_take]; lia)]
  rw [← hleft, ← hright]
  exact hloop.of_start rfl rfl rfl rfl rfl

/-- The merge of a pair whose end is a negative word does nothing. -/
theorem Pass.merge_negative (hi : s.i < len)
    (hroom : 2 ^ 31 ≤ min (s.i + s.width) len + s.width) (fuel : Nat) :
    ∃ s', mergeRun g len fuel s = .ok s' ∧ Wrote s s' s.i [] ∧ s'.i = s.i := by
  have hlen := h.len_lt
  have hpair := h.pair_le (hi.trans h.len_lt)
  have hmid : clampToLen len (add32 s.i s.width) = min (s.i + s.width) len := by
    rw [add32_of_lt (by lia), clampToLen_eq hlen (by lia)]
  have hhi : clampToLen len (add32 (min (s.i + s.width) len) s.width) =
      min (s.i + s.width) len + s.width := by
    rw [add32_of_lt (by lia), clampToLen_negative hlen hroom (by lia)]
  have hend : ltS s.i (min (s.i + s.width) len + s.width) = false := by
    rw [ltS, signed32, if_pos (by lia), signed32, if_neg (by lia)]
    apply decide_eq_false
    lia
  rw [mergeRun, hmid, hhi, Loop.exec_done (by exact hend)]
  exact ⟨_, rfl, (Wrote.refl s s.i).of_buffers rfl rfl rfl rfl rfl, rfl⟩

end

/-- After the last pair that ends at `2 ^ 31` the next read is at a negative index. -/
theorem pairStep_negative (hi : s.i = 2 ^ 31) (hlen : len < 2 ^ 31) (hpos : 0 < s.width)
    (hwidth : s.width ≤ 2 ^ 30) (hsource : (s.buffer s.src).length < 2 ^ 31) (fuel : Nat) :
    pairStep g len (fuel + 1) s = .error .trap := by
  have hmid : clampToLen len (add32 s.i s.width) = 2 ^ 31 + s.width := by
    rw [hi, add32_of_lt (by lia), clampToLen_negative hlen (by lia) (by lia)]
  have hlt : ∀ {x}, 2 ^ 31 ≤ x → x < 2 ^ 32 → signed32 x = (x : Int) - 2 ^ 32 := fun hx _ => by
    rw [signed32, if_neg (Nat.not_lt.mpr hx)]
  -- the end of the window is zero or negative
  obtain ⟨e, he, hend⟩ : ∃ e, clampToLen len (add32 (2 ^ 31 + s.width) s.width) = e ∧
      signed32 e = -2 ^ 31 + 2 * (s.width : Int) := by
    by_cases hw : s.width < 2 ^ 30
    · refine ⟨2 ^ 31 + s.width + s.width, ?_, ?_⟩
      · rw [add32_of_lt (by lia), clampToLen_negative hlen (by lia) (by lia)]
      · rw [hlt (by lia) (by lia)]
        push_cast
        lia
    · have hw' : s.width = 2 ^ 30 := by lia
      refine ⟨0, ?_, ?_⟩
      · rw [hw', show add32 (2 ^ 31 + 2 ^ 30) (2 ^ 30) = 0 from by decide,
          clampToLen_eq hlen (by lia), Nat.zero_min]
      · rw [hw']
        rfl
  have hk : ltS s.i e = true := by
    rw [ltS, hend, hi, hlt (by lia) (by lia)]
    apply decide_eq_true
    push_cast
    lia
  have ha : ltS s.i (2 ^ 31 + s.width) = true := by
    rw [ltS, hi, hlt (by lia) (by lia), hlt (by lia) (by lia)]
    apply decide_eq_true
    push_cast
    lia
  have hb : ltS (2 ^ 31 + s.width) e = true := by
    rw [ltS, hend, hlt (by lia) (by lia)]
    apply decide_eq_true
    push_cast
    lia
  have hread : (readSrc { s with
      mid := 2 ^ 31 + s.width, hi := e, a := s.i, b := 2 ^ 31 + s.width, k := s.i } s.i :
        Except (Stop α σ ε) α) = .error .trap :=
    readSrc_none (getElem?_eq_none (show (s.buffer s.src).length ≤ s.i by lia))
  have hstep : mergeStep g { s with
      mid := 2 ^ 31 + s.width, hi := e, a := s.i, b := 2 ^ 31 + s.width, k := s.i } =
        .error .trap := by
    rw [mergeStep, takeLeftCond]
    dsimp only
    rw [ha, hb, hread]
    rfl
  rw [pairStep, mergeRun, hmid, he, Loop.exec_stop (by exact hk) hstep]
  rfl

theorem hasPair_eq (hlen : len < 2 ^ 31) (hi : s.i < 2 ^ 31) :
    s.hasPair len = decide (s.i < len) := ltS_eq hi hlen

/-- Where a run follows an outcome unless the cursors overflow, and then it traps. -/
def FollowsBelow (len : Nat) (Q : State α σ → Prop) (p : Nat) (s : State α σ)
    (r : Except (Stop α σ ε) (State α σ)) (o : Outcome α σ ε) : Prop :=
  Follows Q p s r o ∨ 2 ^ 31 < len + 2 * s.width ∧ r = .error .trap

section
variable {len : Nat}

theorem length_rest (h : Pass len s) : (s.rest len).length = len - s.i := by
  rw [State.rest, length_drop, length_take, Nat.min_eq_left h.source]

/-- The state for the next pair. -/
theorem Pass.next {s1 : State α σ} {out : List α} (h : Pass len s)
    (hout : s.i + out.length ≤ len) (hwrote : Wrote s s1 s.i out)
    {i : Nat} (hi : i = s.i + 2 * s.width) :
    Pass len { s1 with i := i } where
  ne := by
    change s1.src ≠ s1.dst
    rw [hwrote.src, hwrote.dst]
    exact h.ne
  width_pos := hwrote.width ▸ h.width_pos
  width_dvd := by
    change 2 * s1.width ∣ _
    rw [hwrote.width]
    exact h.width_dvd
  i_dvd := by
    change 2 * s1.width ∣ i
    rw [hwrote.width, hi]
    exact Nat.dvd_add h.i_dvd (Nat.dvd_refl _)
  source := by
    change len ≤ (s1.buffer s1.src).length
    rw [hwrote.src, hwrote.source]
    exact h.source
  len_lt := h.len_lt
  source_lt := by
    change _ < len + 2 * s1.width → (s1.buffer s1.src).length < _
    rw [hwrote.src, hwrote.source, hwrote.width]
    exact h.source_lt
  target := by
    change len ≤ (s1.buffer s1.dst).length
    rw [hwrote.dst, hwrote.target, length_overwrite (hout.trans h.target)]
    exact h.target

variable {fuel rounds : Nat} {out : List α} {s1 : State α σ}

theorem rest_next (hwrote : Wrote s s1 s.i out) {i : Nat} (hi : i = s.i + 2 * s.width) :
    ({ s1 with i := i } : State α σ).rest len = ((s.rest len).drop s.width).drop s.width := by
  change ((s1.buffer s1.src).take len).drop i = _
  rw [hwrote.src, hwrote.source, hi, State.rest, drop_drop, drop_drop]
  congr 1
  lia

theorem Wrote.nil_at (h : Wrote s s' p []) (p' : Nat) : Wrote s s' p' [] :=
  { h with target := by rw [h.target, overwrite_nil, overwrite_nil] }

/-- The step to a pair behind `2 ^ 31` ends in a trap. -/
theorem Pass.pairs_trap (h : Pass len s) (hi : s.i < len) (hend : s.i + 2 * s.width = 2 ^ 31)
    (hrun : mergeRun g len fuel s = .ok s1) (hwrote : Wrote s s1 s.i out) (hi1 : s1.i = s.i)
    (hfuel : 0 < fuel) (hrounds : 1 < rounds) :
    Loop.exec (State.hasPair len) (pairStep g len fuel) .outOfFuel rounds s = .error .trap := by
  have hlen := h.len_lt
  have hpos := h.width_pos
  obtain ⟨rounds, rfl⟩ := Nat.exists_eq_add_of_lt hrounds
  obtain ⟨fuel, rfl⟩ := Nat.exists_eq_add_of_lt hfuel
  have hhas : s.hasPair len = true := by
    rw [hasPair_eq hlen (by lia)]
    exact decide_eq_true hi
  have hnext : add32 (add32 s1.i s1.width) s1.width = 2 ^ 31 := by
    have hmid : add32 s.i s.width = s.i + s.width := add32_of_lt (by lia)
    rw [hi1, hwrote.width, hmid, add32_of_lt (by lia)]
    lia
  have hstep : pairStep g len (0 + fuel + 1) s = .ok { s1 with i := 2 ^ 31 } := by
    rw [pairStep, hrun, ← hnext]
    rfl
  have hnegative : State.hasPair len { s1 with i := 2 ^ 31 } = true := by
    rw [State.hasPair, ltS, signed32, if_neg (Nat.lt_irrefl _), signed32, if_pos hlen]
    apply decide_eq_true
    push_cast
    lia
  rw [Nat.add_comm 1 rounds, Loop.exec_next hhas hstep, Loop.exec_stop hnegative]
  refine pairStep_negative rfl hlen ?_ ?_ ?_ _
  · exact hwrote.width ▸ hpos
  · change s1.width ≤ _
    rw [hwrote.width]
    lia
  · change (s1.buffer s1.src).length < _
    rw [hwrote.src, hwrote.source]
    exact h.source_lt (by lia)

/-- **The loop over the pairs follows a pass.** -/
theorem Pass.pairLoop (h : Pass len s) (hfuel : len ≤ fuel) (hrounds : len - s.i < rounds)
    (hi : s.i < 2 ^ 31) :
    FollowsBelow len (fun _ => len + 2 * s.width ≤ 2 ^ 31) s.i s
      (Loop.exec (State.hasPair len) (pairStep g len fuel) .outOfFuel rounds s)
      (mergePairs g s.width (s.rest len) s.comparator) := by
  induction rounds generalizing s with
  | zero => exact absurd hrounds (Nat.not_lt_zero _)
  | succ rounds ih =>
    have hlen := h.len_lt
    have hpos := h.width_pos
    by_cases hlt : s.i < len
    · have hhas : s.hasPair len = true := by
        rw [hasPair_eq hlen hi]
        exact decide_eq_true hlt
      have hpair := h.pair_le hi
      have hne : s.rest len ≠ [] := fun hnil => by
        have := length_rest h
        rw [hnil, length_nil] at this
        lia
      rw [mergePairs_cons hpos hne]
      by_cases hroom : min (s.i + s.width) len + s.width < 2 ^ 31
      · have hmerge := h.merge_follows (g := g) hlt hroom hfuel
        cases ho : mergeLists g ((s.rest len).take s.width)
            (((s.rest len).drop s.width).take s.width) s.comparator with
        | threw e out =>
          rw [ho] at hmerge
          obtain ⟨s1, hrun, hwrote⟩ := hmerge
          left
          refine ⟨s1, Loop.exec_stop hhas ?_ rounds, hwrote⟩
          rw [pairStep, hrun]
          rfl
        | returned out st =>
          rw [ho] at hmerge
          obtain ⟨s1, hrun, hwrote, hst, hi1⟩ := hmerge
          have hout : out.length = min (2 * s.width) (len - s.i) := by
            rw [(perm_mergeLists ho).length_eq, length_append, length_take,
              length_take, length_drop, length_rest h]
            lia
          by_cases hend : s.i + 2 * s.width < 2 ^ 31
          · have hnext : add32 (add32 s1.i s1.width) s1.width = s.i + 2 * s.width := by
              have hmid : add32 s.i s.width = s.i + s.width := add32_of_lt (by lia)
              rw [hi1, hwrote.width, hmid, add32_of_lt (by lia)]
              lia
            have hstep : pairStep g len fuel s =
                .ok { s1 with i := s.i + 2 * s.width } := by
              rw [pairStep, hrun, ← hnext]
              rfl
            have hfits : s.i + out.length ≤ len := by lia
            rw [Loop.exec_next hhas hstep]
            have hrest := ih (h.next hfits hwrote rfl) (by dsimp only; lia) hend
            rw [rest_next hwrote rfl] at hrest
            change FollowsBelow len (fun _ => len + 2 * s1.width ≤ 2 ^ 31) (s.i + 2 * s.width) _ _
              (mergePairs g s1.width _ s1.comparator) at hrest
            have hpairs : mergePairs g s1.width = mergePairs g s.width := by rw [hwrote.width]
            have hend' : (fun _ : State α σ => len + 2 * s1.width ≤ 2 ^ 31) =
                fun _ => len + 2 * s.width ≤ 2 ^ 31 := by rw [hwrote.width]
            rw [hpairs, hend'] at hrest
            rw [← hst]
            rcases hrest with hfollows | ⟨hover, htrap⟩
            · left
              have hwrote' : Wrote s { s1 with i := s.i + 2 * s.width } s.i out :=
                hwrote.of_buffers rfl rfl rfl rfl rfl
              refine Follows.prepend hwrote' (hfits.trans h.target) ?_
              by_cases hfull : s.i + 2 * s.width ≤ len
              · have hp : s.i + out.length = s.i + 2 * s.width := by lia
                rw [hp]
                exact hfollows
              · -- nothing is left
                have hnil : ((s.rest len).drop s.width).drop s.width = [] :=
                  length_eq_zero_iff.mp (by
                    rw [length_drop, length_drop, length_rest h]
                    lia)
                rw [hnil, mergePairs_nil] at hfollows ⊢
                obtain ⟨t, ht, hw, hrest⟩ := hfollows
                exact ⟨t, ht, hw.nil_at _, hrest⟩
            · right
              exact ⟨by rw [← hwrote.width]; exact hover, htrap⟩
          · right
            exact ⟨by lia, h.pairs_trap hlt (by lia) hrun hwrote hi1 (by lia) (by lia)⟩
      · obtain ⟨s1, hrun, hwrote, hi1⟩ := h.merge_negative (g := g) hlt (by lia) fuel
        right
        exact ⟨by lia, h.pairs_trap hlt (by lia) hrun hwrote hi1 (by lia) (by lia)⟩
    · have hhas : s.hasPair len = false := by
        rw [hasPair_eq hlen hi]
        exact decide_eq_false hlt
      have hnil : s.rest len = [] := length_eq_zero_iff.mp (by rw [length_rest h]; lia)
      left
      rw [Loop.exec_done hhas, hnil, mergePairs_nil]
      have hpair := h.pair_le hi
      exact ⟨s, rfl, .refl s s.i, rfl, by lia⟩

end

end Js2Wasm.Sorting
