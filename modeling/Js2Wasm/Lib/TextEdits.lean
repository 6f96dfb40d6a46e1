import Mathlib.Data.List.Range
import Mathlib.Data.List.Sort

/-! # Edits of a text

An edit replaces a span of a text; a span may be empty, and then the edit inserts.  Edits that
keep apart may be given in any order: `rewrite` says what stands at each offset of the text
afterwards, and where every character comes from.

A list of edits sorted by their starts can be applied in one pass (`spreadFrom`).  The pass
gives the same when texts that it meets in another order than they stand in commute
(`spread_eq`); for edits one behind the other there are no such texts, and the offsets that
the texts come from always commute. -/
namespace TextEdits
open List

/-- Replace the characters from `start` up to `stop`. -/
structure Edit (α : Type*) where
  start : Nat
  stop : Nat
  text : List α

variable {α β : Type*}

/-- Neither edit reaches into the other. -/
def Apart (a b : Edit α) : Prop := a.stop ≤ b.start ∨ b.stop ≤ a.start

instance (a b : Edit α) : Decidable (Apart a b) := inferInstanceAs (Decidable (_ ∨ _))

structure Valid (n : Nat) (edits : List (Edit α)) : Prop where
  bounds : ∀ e ∈ edits, e.start ≤ e.stop ∧ e.stop ≤ n
  apart : edits.Pairwise Apart

/-- Where a character of an edited text comes from: an offset of the text, or the edit that
starts there. -/
inductive Source where
  | copied (offset : Nat)
  | written (start : Nat)
  deriving DecidableEq

def Source.offset : Source → Nat
  | .copied q => q
  | .written q => q

/-! ### What stands at an offset -/

/-- The insertions at `q`, what replaces a span from `q` on, and the character at `q` unless a
span covers it, given by `g`; `f` is what an edit contributes. -/
def point (f : Edit α → List β) (g : Nat → List β) (edits : List (Edit α)) (q : Nat) : List β :=
  (edits.filter fun e => e.start = q ∧ e.stop = q).flatMap f ++
  (edits.filter fun e => e.start = q ∧ q < e.stop).flatMap f ++
  if ∃ e ∈ edits, e.start ≤ q ∧ q < e.stop then [] else g q

/-- All offsets of a text of length `n`, its end included. -/
def spread (f : Edit α → List β) (g : Nat → List β) (n : Nat) (edits : List (Edit α)) : List β :=
  (range (n + 1)).flatMap (point f g edits)

/-- The offset that a character comes from, with the end of the text, `n`, for the end. -/
def originAt (n : Nat) (text : List (α × Source)) (q : Nat) : Nat :=
  (text[q]?).elim n fun c => c.2.offset

/-- What an edit of a text with sources writes. -/
def Edit.written (n : Nat) (text : List (α × Source)) (e : Edit α) : List (α × Source) :=
  e.text.map fun c => (c, .written (originAt n text e.start))

/-- The edited text, every character with its source.  What was copied keeps the source that it
had, so that edits can be made one after the other. -/
def rewrite (n : Nat) (text : List (α × Source)) (edits : List (Edit α)) : List (α × Source) :=
  spread (Edit.written n text) (fun q => (text[q]?).toList) text.length edits

/-- A text before any edit. -/
def label (text : List α) : List (α × Source) := text.mapIdx fun i c => (c, .copied i)

/-- The edited text without the sources. -/
def edited (text : List α) (edits : List (Edit α)) : List α :=
  spread Edit.text (fun q => (text[q]?).toList) text.length edits

/-! ### One pass -/

/-- Apply edits that are sorted by their starts, from offset `pos` on. -/
def spreadFrom (f : Edit α → List β) (g : Nat → List β) (n : Nat) : Nat → List (Edit α) → List β
  | pos, [] => (List.range' pos (n + 1 - pos)).flatMap g
  | pos, e :: es =>
    (List.range' pos (e.start - pos)).flatMap g ++ f e ++ spreadFrom f g n (max pos e.stop) es

/-- The edits to come after a pass has come to `pos`, the last span having started at `p`:
they start at `pos` or later, or insert at `p`. -/
def Behind (n : Nat) : Nat → Nat → List (Edit α) → Prop
  | _, _, [] => True
  | p, pos, e :: es =>
    e.stop ≤ n ∧ (pos ≤ e.start ∧ e.start ≤ e.stop ∧ Behind n e.start e.stop es ∨
      e.start = p ∧ e.stop = p ∧ p < pos ∧ Behind n p pos es)

/-- The offset that the `i`-th character of the edited text comes from, counted from the
offset `pos` that a pass has come to. -/
def offsetFrom : Nat → List (Edit α) → Nat → Nat
  | pos, [], i => pos + i
  | pos, e :: es, i =>
    if i < e.start - pos then pos + i
    else if i < e.start - pos + e.text.length then e.start
    else offsetFrom (max pos e.stop) es (i - (e.start - pos + e.text.length))

/-- The sort by starts, stable. -/
def sort (edits : List (Edit α)) : List (Edit α) := edits.insertionSort fun a b => a.start ≤ b.start

section
variable {n p pos q : Nat} {e : Edit α} {es l : List (Edit α)}
  {f : Edit α → List β} {g : Nat → List β}

theorem Apart.symm {a b : Edit α} (h : Apart a b) : Apart b a := Or.symm h

theorem mem_sort : e ∈ sort l ↔ e ∈ l := mem_insertionSort _

theorem sorted_sort (l : List (Edit α)) : (sort l).Pairwise fun a b => a.start ≤ b.start := by
  exact pairwise_insertionSort _ l

/-- The sort keeps the order of edits with one start. -/
theorem filter_sort (l : List (Edit α)) (q : Nat) :
    (sort l).filter (fun e => e.start = q) = l.filter fun e => e.start = q := by
  have hpair : (l.filter fun e => e.start = q).Pairwise fun a b => a.start ≤ b.start := by
    refine pairwise_of_forall_mem_list fun a ha b hb => ?_
    simp only [mem_filter, decide_eq_true_eq] at ha hb
    lia
  have hsub : (l.filter fun e => e.start = q).Sublist (sort l) :=
    sublist_insertionSort hpair filter_sublist
  have hsub' := hsub.filter fun e => decide (e.start = q)
  rw [filter_filter] at hsub'
  simp only [Bool.and_self] at hsub'
  refine (hsub'.eq_of_length ?_).symm
  exact ((perm_insertionSort _ l).filter _).length_eq.symm

theorem filter_sort_and (l : List (Edit α)) (q : Nat) (r : Edit α → Prop) [DecidablePred r] :
    (sort l).filter (fun e => e.start = q ∧ r e) = l.filter fun e => e.start = q ∧ r e := by
  have h := congrArg (List.filter fun e => decide (r e)) (filter_sort l q)
  simpa only [filter_filter, ← Bool.decide_and, and_comm] using h

/-- Sorting changes nothing of what stands where. -/
theorem point_sort (f : Edit α → List β) (g : Nat → List β) (l : List (Edit α)) (q : Nat) :
    point f g (sort l) q = point f g l q := by
  rw [point, point, filter_sort_and, filter_sort_and]
  simp only [mem_sort]

theorem spread_sort (f : Edit α → List β) (g : Nat → List β) (n : Nat) (l : List (Edit α)) :
    spread f g n (sort l) = spread f g n l := by
  rw [spread, spread, funext (point_sort f g l)]

theorem behind_of_sorted (hs : es.Pairwise fun a b => a.start ≤ b.start)
    (hb : ∀ e ∈ es, e.start ≤ e.stop ∧ e.stop ≤ n) (ha : es.Pairwise Apart)
    (hp : ∀ e ∈ es, pos ≤ e.start ∨ e.start = p ∧ e.stop = p ∧ p < pos) : Behind n p pos es := by
  induction es generalizing p pos with
  | nil => trivial
  | cons e es ih =>
    obtain ⟨hse, hs⟩ := pairwise_cons.mp hs
    obtain ⟨hae, ha⟩ := pairwise_cons.mp ha
    obtain ⟨hbe, hbn⟩ := hb e mem_cons_self
    have hb' : ∀ e ∈ es, e.start ≤ e.stop ∧ e.stop ≤ n := fun e' he' =>
      hb e' (mem_cons_of_mem _ he')
    refine ⟨hbn, ?_⟩
    rcases hp e mem_cons_self with hle | ⟨h1, h2, h3⟩
    · refine .inl ⟨hle, hbe, ih hs hb' ha fun e' he' => ?_⟩
      have hst := hse e' he'
      have hbe' := (hb' e' he').1
      rcases hae e' he' with h | h
      · exact .inl h
      · rcases Nat.eq_or_lt_of_le hbe with heq | hlt
        · exact .inl (by lia)
        · exact .inr ⟨by lia, by lia, hlt⟩
    · exact .inr ⟨h1, h2, h3, ih hs hb' ha fun e' he' => hp e' (mem_cons_of_mem _ he')⟩

theorem behind_sort (h : Valid n l) : Behind n 0 0 (sort l) := by
  refine behind_of_sorted (sorted_sort l) (fun e he => h.bounds e (mem_sort.mp he)) ?_
    fun e _ => .inl (Nat.zero_le _)
  exact ((perm_insertionSort _ l).pairwise_iff Apart.symm).mpr h.apart

theorem Behind.mem (h : Behind n p pos es) (he : e ∈ es) :
    e.start ≤ e.stop ∧ e.stop ≤ n ∧ (pos ≤ e.start ∨ e.start = p ∧ e.stop = p ∧ p < pos) := by
  induction es generalizing p pos with
  | nil => cases he
  | cons e' es ih =>
    obtain ⟨hn, ⟨h1, h2, h3⟩ | ⟨h1, h2, h3, h4⟩⟩ := h
    · rcases mem_cons.mp he with rfl | he
      · exact ⟨h2, hn, .inl h1⟩
      · obtain ⟨h4, h5, h6⟩ := ih h3 he
        exact ⟨h4, h5, .inl (by lia)⟩
    · rcases mem_cons.mp he with rfl | he
      · exact ⟨by lia, hn, .inr ⟨h1, h2, h3⟩⟩
      · exact ih h4 he

/-! ### The pass meets what stands where -/

/-- A span's text commutes with insertions at its start that come after it in the list. -/
def Commutes (f : Edit α → List β) (es : List (Edit α)) : Prop :=
  es.Pairwise fun a b =>
    a.start < a.stop → b.start = a.start → b.stop = a.start → f a ++ f b = f b ++ f a

theorem append_flatMap_comm {x : List β} (h : ∀ b ∈ es, x ++ f b = f b ++ x) :
    x ++ es.flatMap f = es.flatMap f ++ x := by
  induction es with
  | nil => rw [flatMap_nil, append_nil, nil_append]
  | cons b es ih =>
    rw [flatMap_cons, ← append_assoc, h b mem_cons_self, append_assoc,
      ih fun b' hb' => h b' (mem_cons_of_mem _ hb'), append_assoc]

/-- An edit adds nothing at offsets that it neither starts at nor covers. -/
theorem point_cons_of_ne (hs : e.start ≠ q) (hc : ¬ (e.start ≤ q ∧ q < e.stop)) :
    point f g (e :: es) q = point f g es q := by
  rw [point, point]
  simp only [filter_cons, hs, false_and, decide_false, Bool.false_eq_true, if_false,
    exists_mem_cons_iff, hc, false_or]

/-- Nothing is written before the edits start. -/
theorem point_of_lt (h : ∀ e ∈ es, q < e.start) : point f g es q = g q := by
  have hins : es.filter (fun e => e.start = q ∧ e.stop = q) = [] :=
    filter_eq_nil_iff.mpr fun e he => by
      have := h e he
      simp only [decide_eq_true_eq]
      lia
  have hrep : es.filter (fun e => e.start = q ∧ q < e.stop) = [] :=
    filter_eq_nil_iff.mpr fun e he => by
      have := h e he
      simp only [decide_eq_true_eq]
      lia
  have hcov : ¬ ∃ e ∈ es, e.start ≤ q ∧ q < e.stop := by
    rintro ⟨e, he, h1, -⟩
    have := h e he
    lia
  rw [point, hins, hrep, if_neg hcov, flatMap_nil, nil_append, nil_append]

/-- An insertion comes first where it stands. -/
theorem point_cons_insertion (hs : e.start = q) (ht : e.stop = q) :
    point f g (e :: es) q = f e ++ point f g es q := by
  rw [point, point]
  have h1 : decide (e.start = q ∧ e.stop = q) = true := by simp [hs, ht]
  have h2 : decide (e.start = q ∧ q < e.stop) = false := by simp [ht]
  have h3 : ¬ (e.start ≤ q ∧ q < e.stop) := by lia
  simp only [filter_cons, h1, h2, if_true, Bool.false_eq_true, if_false, flatMap_cons,
    exists_mem_cons_iff, h3, false_or, append_assoc]

/-- Where a span starts there are the insertions and then its text. -/
theorem point_cons_span (hs : e.start = q) (ht : q < e.stop)
    (h : ∀ e' ∈ es, e'.start = q → e'.stop = q) :
    point f g (e :: es) q = (es.filter fun e => e.start = q ∧ e.stop = q).flatMap f ++ f e := by
  have h1 : decide (e.start = q ∧ e.stop = q) = false := by
    simp only [decide_eq_false_iff_not]
    lia
  have h2 : decide (e.start = q ∧ q < e.stop) = true := by simp [hs, ht]
  have hrep : es.filter (fun e => e.start = q ∧ q < e.stop) = [] :=
    filter_eq_nil_iff.mpr fun e' he' => by
      have := h e' he'
      simp only [decide_eq_true_eq]
      lia
  have hcov : ∃ e' ∈ e :: es, e'.start ≤ q ∧ q < e'.stop :=
    ⟨e, mem_cons_self, by lia, ht⟩
  rw [point, if_pos hcov, filter_cons, filter_cons, h1, h2, hrep]
  simp

/-- Inside a span there is nothing. -/
theorem point_inside (he : e ∈ es) (hs : e.start ≤ q) (ht : q < e.stop)
    (h : ∀ e' ∈ es, e'.start ≠ q) : point f g es q = [] := by
  have hins (r : Edit α → Prop) [DecidablePred r] :
      es.filter (fun e => e.start = q ∧ r e) = [] :=
    filter_eq_nil_iff.mpr fun e' he' => by
      simp [h e' he']
  rw [point, hins, hins, if_pos ⟨e, he, hs, ht⟩]
  rfl

variable {c : α} {m i o a : Nat} {γ : Type*} {text : List (α × Source)}

theorem flatMap_range'_congr {k : Nat} {g' : Nat → List β} (h : ∀ q, a ≤ q → q < a + k → g q = g' q) :
    (List.range' a k).flatMap g = (List.range' a k).flatMap g' :=
  flatMap_congr fun q hq => by
    rw [mem_range'_1] at hq
    exact h q hq.1 hq.2

theorem range'_split {b c : Nat} (hab : a ≤ b) (hbc : b ≤ c) :
    List.range' a (c - a) = List.range' a (b - a) ++ List.range' b (c - b) := by
  have h := @range'_append_1 a (b - a) (c - b)
  rw [show a + (b - a) = b by lia, show b - a + (c - b) = c - a by lia] at h
  exact h.symm

/-- The insertions that the pass has still to make at the start of the last span. -/
def late (p pos : Nat) (es : List (Edit α)) : List (Edit α) :=
  if p < pos then es.filter fun e => e.start = p ∧ e.stop = p else []

/-- **The pass.**  It writes what stands at the offsets from `pos` on, after the insertions that
belong to the start of the last span. -/
theorem spreadFrom_eq (h : Behind n p pos es) (hpos : pos ≤ n) (hcomm : Commutes f es) :
    spreadFrom f g n pos es =
      (late p pos es).flatMap f ++ (List.range' pos (n + 1 - pos)).flatMap (point f g es) := by
  induction es generalizing p pos with
  | nil =>
    have hlate : late p pos ([] : List (Edit α)) = [] := by
      rw [late]
      split <;> rfl
    rw [spreadFrom, hlate, flatMap_nil, nil_append]
    exact flatMap_range'_congr fun q _ _ =>
      (point_of_lt fun e he => absurd he not_mem_nil).symm
  | cons e es ih =>
    obtain ⟨hce, hcomm⟩ := pairwise_cons.mp hcomm
    obtain ⟨hn, ⟨h1, h2, h3⟩ | ⟨h1, h2, h3, h4⟩⟩ := h
    · have hes : ∀ e' ∈ es, e.start ≤ e'.start := fun e' he' => by
        have := h3.mem he'
        lia
      have hlate : late p pos (e :: es) = [] := by
        rw [late]
        split
        · refine filter_eq_nil_iff.mpr fun e' he' => ?_
          rcases mem_cons.mp he' with rfl | he'
          · simp only [decide_eq_true_eq]
            lia
          · have := hes e' he'
            simp only [decide_eq_true_eq]
            lia
        · rfl
      have hfirst : (List.range' pos (e.start - pos)).flatMap (point f g (e :: es)) =
          (List.range' pos (e.start - pos)).flatMap g :=
        flatMap_range'_congr fun q hq hq' => point_of_lt fun e' he' => by
          rcases mem_cons.mp he' with rfl | he'
          · lia
          · have := hes e' he'
            lia
      rw [hlate, flatMap_nil, nil_append, range'_split h1 (by lia), flatMap_append,
        hfirst, spreadFrom, append_assoc, Nat.max_eq_right (by lia), ih h3 hn hcomm]
      congr 1
      rcases Nat.eq_or_lt_of_le h2 with heq | hlt
      · -- an insertion: it comes first at its offset
        have hrest : (List.range' (e.start + 1) (n - e.start)).flatMap (point f g (e :: es)) =
            (List.range' (e.start + 1) (n - e.start)).flatMap (point f g es) :=
          flatMap_range'_congr fun q hq hq' => point_cons_of_ne (by lia) (by lia)
        have hnone : late e.start e.stop es = [] := by rw [late, if_neg (by lia)]
        have hsucc : n + 1 - e.start = n - e.start + 1 := by lia
        rw [hnone, flatMap_nil, nil_append, ← heq, hsucc, range'_succ,
          flatMap_cons, flatMap_cons, hrest, point_cons_insertion rfl heq.symm,
          append_assoc]
      · -- a span: it hides what it covers
        have hspan : point f g (e :: es) e.start =
            f e ++ (es.filter fun e' => e'.start = e.start ∧ e'.stop = e.start).flatMap f := by
          rw [point_cons_span rfl hlt fun e' he' hst => by have := h3.mem he'; lia]
          refine (append_flatMap_comm fun b hb => ?_).symm
          rw [mem_filter, decide_eq_true_eq] at hb
          exact hce b hb.1 hlt hb.2.1 hb.2.2
        have hinside : (List.range' (e.start + 1) (e.stop - (e.start + 1))).flatMap
            (point f g (e :: es)) = [] := by
          refine flatMap_eq_nil_iff.mpr fun q hq => ?_
          rw [mem_range'_1] at hq
          refine point_inside mem_cons_self (by lia) (by lia) fun e' he' => ?_
          rcases mem_cons.mp he' with rfl | he'
          · lia
          · have := h3.mem he'
            lia
        have hrest : (List.range' e.stop (n + 1 - e.stop)).flatMap (point f g (e :: es)) =
            (List.range' e.stop (n + 1 - e.stop)).flatMap (point f g es) :=
          flatMap_range'_congr fun q hq hq' => point_cons_of_ne (by lia) (by lia)
        have hsplit : List.range' e.start (n + 1 - e.start) =
            e.start :: (List.range' (e.start + 1) (e.stop - (e.start + 1)) ++
              List.range' e.stop (n + 1 - e.stop)) := by
          rw [← range'_split (by lia) (by lia), show n + 1 - e.start = n - e.start + 1 by lia,
            range'_succ, show n + 1 - (e.start + 1) = n - e.start by lia]
        rw [hsplit, flatMap_cons, flatMap_append, hinside, hspan, hrest, late, if_pos hlt,
          nil_append, append_assoc]
    · -- an insertion at the start of the last span
      have hlate : late p pos (e :: es) = e :: late p pos es := by
        rw [late, late, if_pos h3, if_pos h3]
        exact filter_cons_of_pos (by simp [h1, h2])
      have hrest : (List.range' pos (n + 1 - pos)).flatMap (point f g (e :: es)) =
          (List.range' pos (n + 1 - pos)).flatMap (point f g es) :=
        flatMap_range'_congr fun q hq hq' => point_cons_of_ne (by lia) (by lia)
      rw [spreadFrom, Nat.max_eq_left (by lia), ih h4 hpos hcomm, hlate, hrest,
        show e.start - pos = 0 by lia, range'_zero, flatMap_nil, nil_append,
        flatMap_cons, append_assoc]

/-- Sorted by their starts, edits that keep apart are made in one pass. -/
theorem spread_eq (h : Valid n l) (hcomm : Commutes f (sort l)) :
    spread f g n l = spreadFrom f g n 0 (sort l) := by
  rw [spreadFrom_eq (behind_sort h) (Nat.zero_le _) hcomm, ← spread_sort, spread, late,
    if_neg (Nat.lt_irrefl _), flatMap_nil, nil_append, Nat.sub_zero, range_eq_range']

/-- Edits one behind the other need no sorting. -/
theorem spread_eq_of_inOrder (hb : ∀ e ∈ l, e.start ≤ e.stop ∧ e.stop ≤ n)
    (ho : l.Pairwise fun a b => a.stop ≤ b.start) :
    spread f g n l = spreadFrom f g n 0 l := by
  have hs : l.Pairwise fun a b => a.start ≤ b.start :=
    ho.imp_of_mem fun ha _ h => Nat.le_trans (hb _ ha).1 h
  have hsort : sort l = l := List.Pairwise.insertionSort_eq hs
  have hv : Valid n l := ⟨hb, ho.imp Or.inl⟩
  have hcomm : Commutes f (sort l) := by
    rw [hsort]
    exact ho.imp fun h hlt hst _ => absurd hlt (by lia)
  rw [spread_eq hv hcomm, hsort]

/-- What is copied of a text between two offsets. -/
theorem flatMap_range'_getElem? (text : List α) (a k : Nat) :
    ((List.range' a k).flatMap fun q => (text[q]?).toList) = (text.drop a).take k := by
  induction k generalizing a with
  | zero => rfl
  | succ k ih =>
    rw [range'_succ, flatMap_cons, ih]
    rcases Nat.lt_or_ge a text.length with h | h
    · rw [drop_eq_getElem_cons h, take_succ_cons, getElem?_eq_getElem h]
      rfl
    · rw [getElem?_eq_none h, drop_eq_nil_of_le h, drop_eq_nil_of_le (by lia)]
      simp

/-! ### Offsets -/

/-- The offsets that an edit's text comes from. -/
def starts (e : Edit α) : List Nat := replicate e.text.length e.start

theorem commutes_starts (es : List (Edit α)) : Commutes starts es := by
  refine pairwise_of_forall fun a b _ hs _ => ?_
  rw [starts, starts, hs, replicate_append_replicate, replicate_append_replicate,
    Nat.add_comm]

theorem getElem?_spreadFrom (n pos : Nat) (es : List (Edit α))
    (hi : i < (spreadFrom starts (fun q => [q]) n pos es).length) :
    (spreadFrom starts (fun q => [q]) n pos es)[i]? = some (offsetFrom pos es i) := by
  induction es generalizing pos i with
  | nil =>
    rw [spreadFrom, flatMap_singleton'] at *
    rw [length_range'] at hi
    rw [getElem?_range' hi, offsetFrom, Nat.one_mul]
  | cons e es ih =>
    rw [spreadFrom, flatMap_singleton'] at *
    rw [offsetFrom]
    by_cases h1 : i < e.start - pos
    · rw [if_pos h1, append_assoc, getElem?_append_left (by rwa [length_range']),
        getElem?_range' h1, Nat.one_mul]
    · by_cases h2 : i < e.start - pos + e.text.length
      · rw [if_neg h1, if_pos h2, getElem?_append_left
          (by rw [length_append, length_range', starts, length_replicate]; exact h2),
          getElem?_append_right (by rw [length_range']; lia), length_range',
          starts, getElem?_replicate_of_lt (by lia)]
      · have hlen : (List.range' pos (e.start - pos) ++ starts e).length =
            e.start - pos + e.text.length := by
          rw [length_append, length_range', starts, length_replicate]
        rw [if_neg h1, if_neg h2, getElem?_append_right (by lia), hlen]
        rw [length_append, hlen] at hi
        exact ih (max pos e.stop) (by lia)

theorem eq_of_mem_point_starts {x : Nat} (h : x ∈ point starts (fun q => [q]) l q) : x = q := by
  have hstart (r : Edit α → Prop) [DecidablePred r]
      (hx : x ∈ (l.filter fun e => e.start = q ∧ r e).flatMap starts) : x = q := by
    obtain ⟨e, he, hxe⟩ := mem_flatMap.mp hx
    rw [mem_filter, decide_eq_true_eq] at he
    rw [eq_of_mem_replicate hxe, he.2.1]
  rw [point, mem_append, mem_append] at h
  rcases h with (h | h) | h
  · exact hstart _ h
  · exact hstart _ h
  · split at h
    · cases h
    · exact mem_singleton.mp h

theorem le_offsetFrom (h : Behind n p pos es) (hp : p ≤ pos) (i : Nat) :
    p ≤ offsetFrom pos es i := by
  induction es generalizing p pos i with
  | nil =>
    rw [offsetFrom]
    lia
  | cons e es ih =>
    obtain ⟨hn, ⟨h1, h2, h3⟩ | ⟨h1, h2, h3, h4⟩⟩ := h
    · have := ih h3 h2 (i - (e.start - pos + e.text.length))
      rw [offsetFrom, Nat.max_eq_right (by lia)]
      split
      · lia
      · split <;> lia
    · have := ih h4 hp (i - (e.start - pos + e.text.length))
      rw [offsetFrom, Nat.max_eq_left (by lia)]
      split
      · lia
      · split <;> lia

/-- Later characters do not come from earlier offsets. -/
theorem offsetFrom_mono (h : Behind n p pos es) (hp : p ≤ pos) {j : Nat} (hij : i ≤ j) :
    offsetFrom pos es i ≤ offsetFrom pos es j := by
  induction es generalizing p pos i j with
  | nil =>
    rw [offsetFrom, offsetFrom]
    omega
  | cons e es ih =>
    have hrest : e.start ≤ offsetFrom (max pos e.stop) es (j - (e.start - pos + e.text.length)) ∧
        offsetFrom (max pos e.stop) es (i - (e.start - pos + e.text.length)) ≤
          offsetFrom (max pos e.stop) es (j - (e.start - pos + e.text.length)) := by
      obtain ⟨hn, ⟨h1, h2, h3⟩ | ⟨h1, h2, h3, h4⟩⟩ := h
      · rw [Nat.max_eq_right (by omega)]
        exact ⟨le_offsetFrom h3 h2 _, ih h3 h2 (by omega)⟩
      · rw [Nat.max_eq_left (by omega)]
        exact ⟨h1 ▸ le_offsetFrom h4 hp _, ih h4 hp (by omega)⟩
    rw [offsetFrom, offsetFrom]
    split_ifs <;> omega

/-- What the edits add up to. -/
def width : Nat → List (Edit α) → Nat
  | _, [] => 0
  | pos, e :: es => e.start - pos + e.text.length + width (max pos e.stop) es

theorem width_lt_length (h : Behind n p pos es) (hpos : pos ≤ n) :
    width pos es < (spreadFrom starts (fun q => [q]) n pos es).length := by
  induction es generalizing p pos with
  | nil =>
    rw [spreadFrom, flatMap_singleton', length_range', width]
    lia
  | cons e es ih =>
    have hnext : width (max pos e.stop) es <
        (spreadFrom starts (fun q => [q]) n (max pos e.stop) es).length := by
      obtain ⟨hn, ⟨h1, h2, h3⟩ | ⟨h1, h2, h3, h4⟩⟩ := h
      · rw [Nat.max_eq_right (by lia)]
        exact ih h3 hn
      · rw [Nat.max_eq_left (by lia)]
        exact ih h4 hpos
    rw [spreadFrom, flatMap_singleton', width, length_append, length_append,
      length_range', starts, length_replicate]
    lia

/-! ### The sources of an edited text -/

theorem map_point (k : β → γ) (f : Edit α → List β) (g : Nat → List β) (es : List (Edit α))
    (q : Nat) :
    (point f g es q).map k = point (fun e => (f e).map k) (fun q => (g q).map k) es q := by
  rw [point, point, map_append, map_append, map_flatMap, map_flatMap]
  congr 1
  split <;> rfl

theorem map_spread (k : β → γ) (f : Edit α → List β) (g : Nat → List β) (n : Nat)
    (es : List (Edit α)) :
    (spread f g n es).map k = spread (fun e => (f e).map k) (fun q => (g q).map k) n es := by
  rw [spread, spread, map_flatMap]
  exact flatMap_congr fun q _ => map_point k f g es q

/-- The sources do not matter for the text. -/
theorem map_fst_rewrite (n : Nat) (text : List (α × Source)) (es : List (Edit α)) :
    (rewrite n text es).map Prod.fst = edited (text.map Prod.fst) es := by
  have hwritten (e : Edit α) : (e.written n text).map Prod.fst = e.text := by
    rw [Edit.written, map_map]
    exact map_id'' (fun _ => rfl) _
  have hcopied (q : Nat) : (text[q]?).toList.map Prod.fst = ((text.map Prod.fst)[q]?).toList := by
    rw [getElem?_map, Option.toList_map]
  rw [rewrite, map_spread, edited, length_map, funext hwritten, funext hcopied]

/-- The offsets that the characters come from, with the end of the text for the end. -/
theorem offsets_rewrite (m : Nat) (h : Valid text.length l) :
    (rewrite m text l).map (fun c => c.2.offset) ++ [m] =
      (spreadFrom starts (fun q => [q]) text.length 0 (sort l)).map (originAt m text) := by
  have hwritten (e : Edit α) : (e.written m text).map (fun c => c.2.offset) =
      (starts e).map (originAt m text) := by
    rw [Edit.written, map_map, starts, map_replicate]
    exact map_const' ..
  have hpoint : ∀ q < text.length,
      point (fun e => (starts e).map (originAt m text))
        (fun q => (text[q]?).toList.map fun c => c.2.offset) l q =
      point (fun e => (starts e).map (originAt m text)) (fun q => [originAt m text q]) l q :=
    fun q hq => by
      have hg : (text[q]?).toList.map (fun c => c.2.offset) = [originAt m text q] := by
        rw [originAt, getElem?_eq_getElem hq]
        rfl
      rw [point, point, hg]
  have hend : point (fun e => (starts e).map (originAt m text))
        (fun q => (text[q]?).toList.map fun c => c.2.offset) l text.length ++ [m] =
      point (fun e => (starts e).map (originAt m text)) (fun q => [originAt m text q]) l
        text.length := by
    have hcov : ¬ ∃ e ∈ l, e.start ≤ text.length ∧ text.length < e.stop := by
      rintro ⟨e, he, -, hlt⟩
      have := (h.bounds e he).2
      lia
    have hg : (text[text.length]?).toList.map (fun c => c.2.offset) = [] := by
      rw [getElem?_eq_none .refl]
      rfl
    have hm : originAt m text text.length = m := by
      rw [originAt, getElem?_eq_none .refl]
      rfl
    rw [point, point, if_neg hcov, if_neg hcov, hg, hm, append_nil]
  rw [← spread_eq h (commutes_starts _), map_spread, rewrite, map_spread, funext hwritten, spread,
    spread, range_succ, flatMap_append, flatMap_append, flatMap_singleton,
    flatMap_singleton, append_assoc, hend]
  congr 1
  exact flatMap_congr fun q hq => hpoint q (mem_range.mp hq)

/-- **Where a character comes from.** -/
theorem originAt_rewrite (h : Valid text.length l) (ho : o ≤ (rewrite m text l).length) :
    originAt m (rewrite m text l) o = originAt m text (offsetFrom 0 (sort l) o) := by
  have heq := offsets_rewrite m h
  have hlen := congrArg List.length heq
  rw [length_append, length_map, length_map, length_singleton] at hlen
  have hget := getElem?_spreadFrom text.length 0 (sort l) (i := o) (by lia)
  have hright : ((rewrite m text l).map (fun c => c.2.offset) ++ [m])[o]? =
      some (originAt m text (offsetFrom 0 (sort l) o)) := by
    rw [heq, getElem?_map, hget]
    rfl
  rcases Nat.eq_or_lt_of_le ho with rfl | hlt
  · rw [getElem?_append_right (by rw [length_map]), length_map,
      Nat.sub_self] at hright
    rw [← Option.some.inj hright, originAt, getElem?_eq_none .refl]
    rfl
  · rw [getElem?_append_left (by rwa [length_map]), getElem?_map,
      getElem?_eq_getElem hlt] at hright
    rw [← Option.some.inj hright, originAt, getElem?_eq_getElem hlt]
    rfl

/-- The characters come from the text or its end. -/
theorem offsetFrom_le (h : Valid text.length l) (ho : o ≤ (rewrite m text l).length) :
    offsetFrom 0 (sort l) o ≤ text.length := by
  have hlen := congrArg List.length (offsets_rewrite m h)
  rw [length_append, length_map, length_map, length_singleton] at hlen
  have hget := getElem?_spreadFrom text.length 0 (sort l) (i := o) (by lia)
  rw [← spread_eq h (commutes_starts _)] at hget
  obtain ⟨q, hq, hmem⟩ := mem_flatMap.mp (mem_of_getElem? hget)
  rw [eq_of_mem_point_starts hmem]
  exact Nat.lt_succ_iff.mp (mem_range.mp hq)

theorem width_le_length_rewrite (m : Nat) (h : Valid text.length l) :
    width 0 (sort l) ≤ (rewrite m text l).length := by
  have hlen := congrArg List.length (offsets_rewrite m h)
  have := width_lt_length (behind_sort h) (Nat.zero_le _)
  rw [length_append, length_map, length_map, length_singleton] at hlen
  lia

/-- A character with the source `copied` was copied. -/
theorem mem_of_mem_rewrite (h : (c, .copied q) ∈ rewrite m text l) : (c, .copied q) ∈ text := by
  obtain ⟨q', -, hq'⟩ := mem_flatMap.mp h
  have hno : ∀ e : Edit α, (c, Source.copied q) ∉ e.written m text := fun e he => by
    obtain ⟨d, -, hd⟩ := mem_map.mp he
    exact absurd (congrArg Prod.snd hd) (by simp)
  rw [point, mem_append, mem_append, mem_flatMap, mem_flatMap] at hq'
  rcases hq' with (⟨e, -, he⟩ | ⟨e, -, he⟩) | hq'
  · exact absurd he (hno e)
  · exact absurd he (hno e)
  · split at hq'
    · cases hq'
    · exact mem_of_getElem? (Option.mem_toList.mp hq')

theorem mem_label {text : List α} (h : (c, .copied q) ∈ label text) : text[q]? = some c := by
  obtain ⟨i, hi, heq⟩ := mem_mapIdx.mp h
  obtain ⟨rfl, hs⟩ := Prod.mk.inj heq
  obtain rfl := Source.copied.inj hs
  exact getElem?_eq_getElem hi

theorem map_fst_label (text : List α) : (label text).map Prod.fst = text := by
  refine ext_getElem? fun i => ?_
  rw [label, getElem?_map, getElem?_mapIdx, Option.map_map]
  exact congrFun Option.map_id _

theorem originAt_label {text : List α} (h : q ≤ text.length) :
    originAt text.length (label text) q = q := by
  rw [originAt, label, getElem?_mapIdx]
  rcases Nat.eq_or_lt_of_le h with rfl | hlt
  · rw [getElem?_eq_none .refl]
    rfl
  · rw [getElem?_eq_getElem hlt]
    rfl

end

end TextEdits
