import Js2Wasm.Script.LexicalElements

/-! # Masking by code points

The spaces are written at the places of code units into an array of code points.  That is
exact while no surrogate pair lies in front: `fillComments_exact` says when it is, and
`pairsBehind_of_exact` that it is then only. -/

namespace Js2Wasm.Script
open List

/-- The elements of a text without surrogate pairs. -/
def singles (t : Text) : List Text := t.map fun u => [u]

@[simp] theorem length_singles (t : Text) : (singles t).length = t.length := length_map _

@[simp] theorem flatten_singles (t : Text) : (singles t).flatten = t := by
  induction t with
  | nil => rfl
  | cons u t ih => exact congrArg (u :: ·) ih

theorem singles_append (a b : Text) : singles (a ++ b) = singles a ++ singles b := map_append

/-! ### Surrogate pairs -/

variable {u i q : Nat} {s b : Text} {els : List Element} {e : Element} {x : ProtectedSpan}

theorem pairAt_append {a : Text} : PairAt (a ++ b) (a.length + q) ↔ PairAt b q := by
  have hnext : a.length + q + 1 = a.length + (q + 1) := Nat.add_assoc _ _ _
  simp only [PairAt, hnext, getElem?_append_right (Nat.le_add_right _ _),
    Nat.add_sub_cancel_left]

theorem pairAt_cons : PairAt (u :: s) (q + 1) ↔ PairAt s q := by
  simp [PairAt]

theorem pairAt_zero {v : Nat} :
    PairAt (u :: v :: s) 0 ↔ (isHighSurrogate u && isLowSurrogate v) = true := by
  simp [PairAt]

theorem not_pairAt_single (u q : Nat) : ¬ PairAt [u] q := by
  rintro ⟨x, -, v, hv, -⟩
  simp at hv

/-! ### Code points -/

@[simp] theorem flatten_codePoints (s : Text) : (codePoints s).flatten = s := by
  fun_induction codePoints s with
  | case1 => rfl
  | case2 => rfl
  | case3 u v s h ih => simp [ih]
  | case4 u v s h ih => simp [ih]

theorem codePoints_cons (h : ¬ PairAt (u :: s) 0) : codePoints (u :: s) = [u] :: codePoints s := by
  cases s with
  | nil => rfl
  | cons v s =>
    rw [codePoints, if_neg]
    exact fun hpair => h (pairAt_zero.mpr hpair)

/-- Where no pair starts, an element is a code unit. -/
theorem codePoints_append {a b : Text} (h : ∀ q, q < a.length → ¬ PairAt (a ++ b) q) :
    codePoints (a ++ b) = singles a ++ codePoints b := by
  induction a with
  | nil => rfl
  | cons u a ih =>
    have hfirst : codePoints (u :: (a ++ b)) = [u] :: codePoints (a ++ b) :=
      codePoints_cons (h 0 (Nat.succ_pos _))
    have hrest := ih fun q hq hpair => h (q + 1) (Nat.succ_lt_succ hq) (pairAt_cons.mpr hpair)
    rw [cons_append, hfirst, hrest]
    rfl

/-- No pair lies across a boundary behind which there is no low surrogate. -/
theorem codePoints_split (h : ∀ u ∈ b.head?, isLowSurrogate u = false) (a : Text) :
    codePoints (a ++ b) = codePoints a ++ codePoints b := by
  fun_induction codePoints a with
  | case1 => rfl
  | case2 u =>
    refine codePoints_cons fun hpair => ?_
    obtain ⟨x, -, v, hv, -, hlow⟩ := hpair
    rw [h v (by cases b <;> simp_all)] at hlow
    exact Bool.false_ne_true hlow
  | case3 u v s hpair ih =>
    show codePoints (u :: v :: (s ++ b)) = _
    rw [codePoints, if_pos hpair, ih]
    rfl
  | case4 u v s hpair ih =>
    show codePoints (u :: v :: (s ++ b)) = _
    rw [codePoints, if_neg hpair]
    exact congrArg ([u] :: ·) ih

theorem length_codePoints_le (s : Text) : (codePoints s).length ≤ s.length := by
  fun_induction codePoints s with
  | case1 | case2 => exact le_rfl
  | case3 u v s h ih => simp only [length_cons]; lia
  | case4 u v s h ih => simpa using ih

/-- A pair takes one element. -/
theorem length_codePoints_lt (h : PairAt s q) : (codePoints s).length < s.length := by
  fun_induction codePoints s generalizing q with
  | case1 => exact absurd h (by simp [PairAt])
  | case2 u => exact absurd h (not_pairAt_single u q)
  | case3 u v s hpair ih =>
    have hle := length_codePoints_le s
    simp only [length_cons]
    lia
  | case4 u v s hpair ih =>
    cases q with
    | zero => exact absurd (pairAt_zero.mp h) hpair
    | succ q => simpa using ih (pairAt_cons.mp h)

/-- The first elements have at least as many code units as they are. -/
theorem le_length_take_codePoints (s : Text) (k : Nat) :
    min k s.length ≤ ((codePoints s).take k).flatten.length := by
  fun_induction codePoints s generalizing k with
  | case1 => simp
  | case2 u =>
    cases k with
    | zero => exact Nat.min_le_left _ _
    | succ k => exact (Nat.min_le_right _ _).trans_eq (by simp)
  | case3 u v s hpair ih =>
    cases k with
    | zero => exact Nat.min_le_left _ _
    | succ k =>
      have := ih k
      simp only [take_succ_cons, flatten_cons, length_append, length_cons,
        length_nil]
      lia
  | case4 u v s hpair ih =>
    cases k with
    | zero => exact Nat.min_le_left _ _
    | succ k =>
      have := ih k
      simp only [take_succ_cons, flatten_cons, length_append, length_cons,
        length_nil] at this ⊢
      lia

/-- They have more behind a pair. -/
theorem lt_length_take_codePoints {m : Nat} (h : PairAt s q) (hq : q < m) (hm : m < s.length) :
    m < ((codePoints s).take m).flatten.length := by
  fun_induction codePoints s generalizing q m with
  | case1 => exact absurd hm (Nat.not_lt_zero _)
  | case2 u => exact absurd h (not_pairAt_single u q)
  | case3 u v s hpair ih =>
    obtain ⟨m, rfl⟩ := Nat.exists_eq_succ_of_ne_zero (by lia : m ≠ 0)
    simp only [length_cons] at hm
    have := le_length_take_codePoints s m
    simp only [Nat.succ_eq_add_one, take_succ_cons, flatten_cons, length_append,
      length_cons, length_nil]
    lia
  | case4 u v s hpair ih =>
    obtain ⟨m, rfl⟩ := Nat.exists_eq_succ_of_ne_zero (by lia : m ≠ 0)
    cases q with
    | zero => exact absurd (pairAt_zero.mp h) hpair
    | succ q =>
      have := ih (pairAt_cons.mp h) (Nat.lt_of_succ_lt_succ hq) (Nat.lt_of_succ_lt_succ hm)
      simp only [Nat.succ_eq_add_one, take_succ_cons, flatten_cons, length_append,
        length_cons, length_nil]
      lia

/-! ### Spaces by index -/

/-- Writing at a place keeps what lies in front of it. -/
theorem setElement_prefix (output : List Text) (cursor : Nat) (x : Text) :
    ∃ rest, setElement output cursor x = output.take cursor ++ x :: rest ∨
      setElement output cursor x = output ++ rest ∧ output.length ≤ cursor := by
  rw [setElement]
  by_cases hlt : cursor < output.length
  · rw [if_pos hlt, set_eq_take_append_cons_drop, if_pos hlt]
    exact ⟨_, Or.inl rfl⟩
  · rw [if_neg hlt, append_assoc]
    exact ⟨_, Or.inr ⟨rfl, Nat.not_lt.mp hlt⟩⟩

theorem fillSpaces_prefix (n cursor : Nat) (output : List Text) :
    ∃ rest, fillSpaces n cursor output = output.take cursor ++ rest := by
  induction n generalizing cursor output with
  | zero => exact ⟨output.drop cursor, (take_append_drop _ _).symm⟩
  | succ n ih =>
    obtain ⟨rest, hrest⟩ := ih (cursor + 1) (setElement output cursor [space])
    rw [fillSpaces, hrest]
    obtain ⟨rest', h | ⟨h, hle⟩⟩ := setElement_prefix output cursor [space]
    · rw [h, take_append, take_take, Nat.min_eq_right (Nat.le_succ _), append_assoc]
      exact ⟨_, rfl⟩
    · rw [h, take_append, take_of_length_le (Nat.le_succ_of_le hle),
        take_of_length_le hle, append_assoc]
      exact ⟨_, rfl⟩

/-- Spaces at places of the array, or right behind it. -/
theorem fillSpaces_eq (n cursor : Nat) (output : List Text) (h : cursor ≤ output.length) :
    fillSpaces n cursor output =
      output.take cursor ++ replicate n [space] ++ output.drop (cursor + n) := by
  induction n generalizing cursor output with
  | zero => simp [fillSpaces]
  | succ n ih =>
    have hset : setElement output cursor [space] =
        output.take cursor ++ [space] :: output.drop (cursor + 1) := by
      rw [setElement]
      by_cases hlt : cursor < output.length
      · rw [if_pos hlt, set_eq_take_append_cons_drop, if_pos hlt]
      · have heq : cursor = output.length := Nat.le_antisymm h (Nat.not_lt.mp hlt)
        subst heq
        simp
    have hlen : (output.take cursor).length = cursor := length_take_of_le h
    rw [fillSpaces, ih _ _ (by rw [hset]; simp; lia), hset, take_append, hlen,
      drop_append, hlen, take_of_length_le (by lia),
      drop_eq_nil_of_le (by lia : (output.take cursor).length ≤ cursor + 1 + n)]
    have hone : cursor + 1 - cursor = 1 := Nat.add_sub_cancel_left _ _
    have hmore : cursor + 1 + n - cursor = n + 1 := by lia
    have hsucc : cursor + 1 + n = cursor + (n + 1) := by lia
    rw [hone, hmore, take_succ_cons, take_zero, drop_succ_cons, drop_drop,
      nil_append, hsucc, append_assoc, append_assoc, append_assoc,
      replicate_succ]
    rfl

/-! ### Comments -/

/-- A text without its HTML-like comments has the same length. -/
theorem length_text_masked (e : Element) : (textOf e.masked).length = e.text.length := by
  rw [Element.masked]
  split
  · simp [textOf, Element.text, flatMap_replicate]
  · simp [textOf]

theorem textOf_cons (e : Element) (es : List Element) : textOf (e :: es) = e.text ++ textOf es :=
  flatMap_cons

theorem maskedText_cons (e : Element) (es : List Element) :
    maskedText (e :: es) = textOf e.masked ++ maskedText es := by
  rw [maskedText, maskElements, flatMap_cons, textOf, flatMap_append]
  rfl

theorem textOf_masked_html (h : e.isHtmlComment = true) :
    textOf e.masked = replicate e.text.length space := by
  rw [Element.masked, if_pos h, textOf, flatMap_replicate]
  simp [Element.text]

theorem textOf_masked_other (h : e.isHtmlComment = false) : textOf e.masked = e.text := by
  rw [Element.masked, if_neg (by rw [h]; exact Bool.false_ne_true), textOf, flatMap_singleton]

/-- The array after the comments of the elements, which start at place `i`. -/
def fillComments : Nat → List Element → List Text → List Text
  | _, [], output => output
  | i, e :: es, output =>
    fillComments (i + e.text.length) es
      (if e.isHtmlComment then fillSpaces e.text.length i output else output)

/-- What is asked of the comments: a first character that is no space, one line, and
nothing but a line terminator behind. -/
def CommentsEnd : List Element → Prop
  | [] => True
  | e :: es => (e.isHtmlComment = true → (∃ u t, e.text = u :: t ∧ u ≠ space) ∧
      OnLine e.text ∧ AtLineEnd (textOf es)) ∧ CommentsEnd es

/-- No pair starts before the end of a comment, but inside of one that ends the text.  The
elements start at place `i`, the text `w` in front of their end has its pairs counted from
place `base`. -/
def PairsBehind (base : Nat) (w : Text) (i : Nat) (els : List Element) : Prop :=
  ∀ h ∈ spansOf Element.isHtmlComment i els, ∀ q, PairAt w q → base + q < h.stop →
    h.start ≤ base + q ∧ h.stop = i + (textOf els).length

theorem spansOf_cons (p : Element → Bool) (i : Nat) (e : Element) (es : List Element) :
    spansOf p i (e :: es) = (if p e then [⟨i, i + e.text.length⟩] else []) ++
      spansOf p (i + e.text.length) es := by
  rw [spansOf]
  split <;> rfl

/-- A span lies in its text. -/
theorem spansOf_bounds {p : Element → Bool} (h : x ∈ spansOf p i els) :
    i ≤ x.start ∧ x.stop ≤ i + (textOf els).length := by
  induction els generalizing i with
  | nil => cases h
  | cons e es ih =>
    rw [spansOf_cons] at h
    rw [textOf_cons, length_append]
    rcases mem_append.mp h with h | h
    · split at h
      · rw [mem_singleton.mp h]
        exact ⟨le_rfl, by simp only; lia⟩
      · cases h
    · have := ih h
      lia

theorem commentSpan_nonempty (hend : CommentsEnd els) (h : x ∈ spansOf Element.isHtmlComment i els) :
    x.start < x.stop := by
  induction els generalizing i with
  | nil => cases h
  | cons e es ih =>
    rw [spansOf_cons] at h
    rcases mem_append.mp h with h | h
    · split at h
      · next hhtml =>
        obtain ⟨⟨u, t, htext, -⟩, -⟩ := hend.1 hhtml
        rw [mem_singleton.mp h]
        simp [htext]
      · cases h
    · exact ih hend.2 h

section
variable {done mid rest : Text} {e : Element} {i : Nat}

/-- The array once a comment is masked that has no pair in front, and none inside unless it
ends the text. -/
theorem fillSpaces_comment (hi : done.length + mid.length = i)
    (hmid : ∀ q, q < mid.length → ¬ PairAt (mid ++ (e.text ++ rest)) q)
    (hinside : rest = [] ∨ ∀ q, q < e.text.length → ¬ PairAt (e.text ++ rest) q) :
    fillSpaces e.text.length i (singles done ++ codePoints (mid ++ (e.text ++ rest))) =
      singles (done ++ mid ++ replicate e.text.length space) ++ codePoints rest := by
  rw [codePoints_append hmid, ← append_assoc, ← singles_append]
  have hlen : (singles (done ++ mid)).length = i := by simp [hi]
  rw [fillSpaces_eq _ _ _ (by rw [length_append, hlen]; exact Nat.le_add_right _ _),
    take_left' hlen, drop_append, hlen, Nat.add_sub_cancel_left,
    drop_eq_nil_of_le (by lia), singles_append _ (replicate _ _)]
  have hdrop : (codePoints (e.text ++ rest)).drop e.text.length = codePoints rest := by
    rcases hinside with rfl | hinside
    · rw [append_nil]
      exact drop_eq_nil_of_le (length_codePoints_le _)
    · rw [codePoints_append hinside]
      exact drop_left' (length_singles _)
  rw [hdrop, nil_append, singles, singles, map_replicate]

end

/-- **Masking is exact** where the pairs allow it. -/
theorem fillComments_exact (els : List Element) :
    ∀ (i : Nat) (done mid : Text), done.length + mid.length = i → CommentsEnd els →
      PairsBehind done.length (mid ++ textOf els) i els →
      (fillComments i els (singles done ++ codePoints (mid ++ textOf els))).flatten =
        done ++ mid ++ maskedText els := by
  induction els with
  | nil =>
    intro i done mid _ _ _
    simp [fillComments, maskedText, maskElements, textOf]
  | cons e es ih =>
    intro i done mid hi hend hpairs
    rw [textOf_cons] at hpairs ⊢
    rw [fillComments, maskedText_cons]
    cases hhtml : e.isHtmlComment with
    | false =>
      have hspans : spansOf Element.isHtmlComment i (e :: es) =
          spansOf Element.isHtmlComment (i + e.text.length) es := by
        rw [spansOf_cons, hhtml]
        rfl
      rw [textOf_masked_other hhtml, if_neg Bool.false_ne_true, ← append_assoc mid,
        ih (i + e.text.length) done (mid ++ e.text) (by rw [length_append]; lia) hend.2,
        append_assoc done mid, append_assoc, append_assoc]
      intro h hh q hq hlt
      rw [append_assoc] at hq
      have := hpairs h (hspans ▸ hh) q hq hlt
      rwa [textOf_cons, length_append, ← Nat.add_assoc] at this
    | true =>
      have hself : ⟨i, i + e.text.length⟩ ∈ spansOf Element.isHtmlComment i (e :: es) := by
        rw [spansOf_cons, hhtml]
        exact mem_cons_self
      have hmid : ∀ q, q < mid.length → ¬ PairAt (mid ++ (e.text ++ textOf es)) q := by
        intro q hq hpair
        have := (hpairs _ hself q hpair (by simp only; lia)).1
        simp only at this
        lia
      have hinside : textOf es = [] ∨ ∀ q, q < e.text.length → ¬ PairAt (e.text ++ textOf es) q := by
        refine or_iff_not_imp_right.mpr fun hpair => ?_
        push Not at hpair
        obtain ⟨q, hq, hpair⟩ := hpair
        have := (hpairs _ hself _ (pairAt_append.mpr hpair) (by simp only; lia)).2
        simp only [textOf_cons, length_append] at this
        exact eq_nil_of_length_eq_zero (by lia)
      rw [if_pos rfl, fillSpaces_comment hi hmid hinside, textOf_masked_html hhtml]
      have hstep := ih (i + e.text.length) (done ++ mid ++ replicate e.text.length space) []
        (by simp only [length_append, length_replicate, length_nil]; lia) hend.2 ?_
      · rw [nil_append, append_nil] at hstep
        rw [hstep, append_assoc]
      · intro h hh q hq hlt
        rw [nil_append] at hq
        have hmem : h ∈ spansOf Element.isHtmlComment i (e :: es) := by
          rw [spansOf_cons]
          exact mem_append_right _ hh
        simp only [length_append, length_replicate] at hlt ⊢
        have := hpairs h hmem _ (pairAt_append.mpr (pairAt_append.mpr hq)) (by lia)
        rw [textOf_cons, length_append] at this
        lia

/-! ### The other direction -/

theorem fillComments_prefix (els : List Element) (i : Nat) (output : List Text) :
    ∃ rest, fillComments i els output = output.take i ++ rest := by
  induction els generalizing i output with
  | nil => exact ⟨output.drop i, (take_append_drop _ _).symm⟩
  | cons e es ih =>
    rw [fillComments]
    split
    · obtain ⟨rest, hrest⟩ := ih (i + e.text.length) (fillSpaces e.text.length i output)
      obtain ⟨rest', hfill⟩ := fillSpaces_prefix e.text.length i output
      rw [hrest, hfill, take_append]
      have hle : (output.take i).length ≤ i + e.text.length := by
        rw [length_take]
        lia
      rw [take_of_length_le hle, append_assoc]
      exact ⟨_, rfl⟩
    · obtain ⟨rest, hrest⟩ := ih (i + e.text.length) output
      rw [hrest]
      refine ⟨(output.drop i).take e.text.length ++ rest, ?_⟩
      rw [← append_assoc, take_add]

variable {mid done : Text} {es : List Element} {i q : Nat} {e : Element}

/-- A pair between the last comment and this one: the first character of this one stays. -/
theorem fillComments_ne_of_pair (hi : done.length + mid.length = i) (hend : CommentsEnd (e :: es))
    (hhtml : e.isHtmlComment = true) (hpair : PairAt (mid ++ textOf (e :: es)) q)
    (hq : q < mid.length) :
    (fillComments i (e :: es) (singles done ++ codePoints (mid ++ textOf (e :: es)))).flatten ≠
      done ++ mid ++ maskedText (e :: es) := by
  intro heq
  obtain ⟨⟨u, t, htext, hu⟩, -⟩ := hend.1 hhtml
  obtain ⟨rest, hrest⟩ := fillComments_prefix (e :: es) i
    (singles done ++ codePoints (mid ++ textOf (e :: es)))
  have hlen : (singles done).length = done.length := length_singles done
  have htake : (singles done ++ codePoints (mid ++ textOf (e :: es))).take i =
      singles done ++ (codePoints (mid ++ textOf (e :: es))).take mid.length := by
    rw [take_append, hlen, take_of_length_le (by lia)]
    congr 2
    lia
  have hlong : i < ((singles done ++ codePoints (mid ++ textOf (e :: es))).take i).flatten.length := by
    have := lt_length_take_codePoints hpair hq (by
      rw [length_append, textOf_cons, htext, cons_append, length_cons]
      lia)
    rw [htake, flatten_append, length_append, flatten_singles]
    lia
  -- the masked text begins with the elements in front of the comment
  have hprefix : ((singles done ++ codePoints (mid ++ textOf (e :: es))).take i).flatten <+:
      done ++ mid ++ textOf (e :: es) := by
    have hsplit := congrArg List.flatten
      (take_append_drop i (singles done ++ codePoints (mid ++ textOf (e :: es))))
    rw [flatten_append, flatten_append, flatten_singles, flatten_codePoints,
      ← append_assoc] at hsplit
    exact ⟨_, hsplit⟩
  have hprefix' : ((singles done ++ codePoints (mid ++ textOf (e :: es))).take i).flatten <+:
      done ++ mid ++ maskedText (e :: es) := by
    rw [← heq, hrest, flatten_append]
    exact prefix_append _ _
  have hmid : (done ++ mid).length = i := by rw [length_append, hi]
  have hat : (done ++ mid ++ textOf (e :: es))[i]? = (done ++ mid ++ maskedText (e :: es))[i]? := by
    obtain ⟨r, hr⟩ := hprefix
    obtain ⟨r', hr'⟩ := hprefix'
    rw [← hr, ← hr', getElem?_append_left hlong, getElem?_append_left hlong]
  rw [textOf_cons, htext, maskedText_cons, textOf_masked_html hhtml, htext, ← hmid,
    getElem?_append_right .refl, getElem?_append_right .refl,
    Nat.sub_self] at hat
  exact hu (Option.some.inj hat)

/-! ### Line terminators are lost -/

/-- How many line terminators a text has. -/
def terminators (t : Text) : Nat := t.countP isLineTerminator

theorem terminators_append (a b : Text) : terminators (a ++ b) = terminators a + terminators b :=
  countP_append

theorem terminators_onLine {t : Text} (h : OnLine t) : terminators t = 0 :=
  countP_eq_zero.mpr fun u hu hlt => absurd ((h u hu).symm.trans hlt) Bool.false_ne_true

theorem onLine_replicate_space (n : Nat) : OnLine (replicate n space) := by
  intro u hu
  rw [eq_of_mem_replicate hu]
  rfl

theorem terminators_setElement (output : List Text) (cursor : Nat) :
    terminators (setElement output cursor [space]).flatten ≤ terminators output.flatten := by
  have hspace : terminators [space] = 0 := rfl
  rw [setElement]
  by_cases hlt : cursor < output.length
  · rw [if_pos hlt, set_eq_take_append_cons_drop, if_pos hlt]
    have hsplit := congrArg (fun l => terminators (List.flatten l))
      (take_append_drop cursor output)
    rw [drop_eq_getElem_cons hlt] at hsplit
    simp only [flatten_append, flatten_cons, terminators_append, hspace] at hsplit ⊢
    lia
  · have hholes : (replicate (cursor - output.length) ([] : Text)).flatten = [] := by simp
    rw [if_neg hlt]
    simp only [flatten_append, terminators_append, hholes]
    exact rfl.le

theorem terminators_fillSpaces (n cursor : Nat) (output : List Text) :
    terminators (fillSpaces n cursor output).flatten ≤ terminators output.flatten := by
  induction n generalizing cursor output with
  | zero => exact le_rfl
  | succ n ih => exact (ih _ _).trans (terminators_setElement output cursor)

theorem terminators_fillComments (els : List Element) (i : Nat) (output : List Text) :
    terminators (fillComments i els output).flatten ≤ terminators output.flatten := by
  induction els generalizing i output with
  | nil => exact le_rfl
  | cons e es ih =>
    refine (ih _ _).trans ?_
    split
    · exact terminators_fillSpaces _ _ _
    · exact le_rfl

theorem terminators_maskedText (hend : CommentsEnd els) :
    terminators (maskedText els) = terminators (textOf els) := by
  induction els with
  | nil => rfl
  | cons e es ih =>
    rw [maskedText_cons, textOf_cons, terminators_append, terminators_append, ih hend.2]
    cases hhtml : e.isHtmlComment with
    | false => rw [textOf_masked_other hhtml]
    | true =>
      rw [textOf_masked_html hhtml, terminators_onLine (hend.1 hhtml).2.1,
        terminators_onLine (onLine_replicate_space _)]

theorem isLowSurrogate_of_lineTerminator (h : isLineTerminator u = true) :
    isLowSurrogate u = false := by
  simp only [isLineTerminator, Bool.or_eq_true, beq_iff_eq] at h
  rcases h with ((rfl | rfl) | rfl) | rfl <;> rfl

/-- A pair inside of a comment that does not end the text: the line terminator behind the
comment is lost. -/
theorem fillComments_ne_of_inside (hi : done.length + mid.length = i) (hend : CommentsEnd (e :: es))
    (hhtml : e.isHtmlComment = true)
    (hmid : ∀ q, q < mid.length → ¬ PairAt (mid ++ textOf (e :: es)) q)
    (hpair : PairAt (e.text ++ textOf es) q) (hq : q < e.text.length) (hrest : textOf es ≠ []) :
    (fillComments i (e :: es) (singles done ++ codePoints (mid ++ textOf (e :: es)))).flatten ≠
      done ++ mid ++ maskedText (e :: es) := by
  obtain ⟨-, honline, hline⟩ := hend.1 hhtml
  obtain ⟨u, rest, hes⟩ := exists_cons_of_ne_nil hrest
  have hlt : isLineTerminator u = true := hline u (by rw [hes]; exact Option.mem_some_self u)
  have hsplit : codePoints (e.text ++ textOf es) = codePoints e.text ++ codePoints (textOf es) := by
    refine codePoints_split (fun v hv => ?_) _
    rw [hes] at hv
    rw [← Option.some.inj hv]
    exact isLowSurrogate_of_lineTerminator hlt
  have hfirst : codePoints (textOf es) = [u] :: codePoints rest := by
    rw [hes]
    refine codePoints_cons fun ⟨x, hx, v, _, hhigh, _⟩ => ?_
    rw [← Option.some.inj hx] at hhigh
    simp only [isLineTerminator, Bool.or_eq_true, beq_iff_eq] at hlt
    rcases hlt with ((rfl | rfl) | rfl) | rfl <;> exact absurd hhigh (by decide)
  have hinside : PairAt e.text q := by
    obtain ⟨x, hx, v, hv, hhigh, hlow⟩ := hpair
    rw [getElem?_append_left hq] at hx
    refine ⟨x, hx, v, ?_, hhigh, hlow⟩
    by_cases hnext : q + 1 < e.text.length
    · rwa [getElem?_append_left hnext] at hv
    · have hzero : q + 1 - e.text.length = 0 := by lia
      rw [getElem?_append_right (Nat.not_lt.mp hnext), hzero, hes] at hv
      rw [← Option.some.inj hv, isLowSurrogate_of_lineTerminator hlt] at hlow
      exact absurd hlow Bool.false_ne_true
  have hshort := length_codePoints_lt hinside
  intro heq
  have hcount := congrArg terminators heq
  rw [fillComments, if_pos hhtml, textOf_cons, codePoints_append (textOf_cons e es ▸ hmid),
    ← append_assoc, ← singles_append] at hcount
  have hlen : (singles (done ++ mid)).length = i := by simp [hi]
  have hmasked := terminators_fillComments es (i + e.text.length)
    (fillSpaces e.text.length i (singles (done ++ mid) ++ codePoints (e.text ++ textOf es)))
  rw [hcount, fillSpaces_eq _ _ _ (by rw [length_append, hlen]; exact Nat.le_add_right _ _),
    take_left' hlen, drop_append, hlen, Nat.add_sub_cancel_left,
    drop_eq_nil_of_le (by lia), hsplit, drop_append,
    drop_eq_nil_of_le hshort.le] at hmasked
  obtain ⟨k, hk⟩ := Nat.exists_eq_succ_of_ne_zero
    (by lia : e.text.length - (codePoints e.text).length ≠ 0)
  have hspaces : (replicate e.text.length [space]).flatten =
      replicate e.text.length space := by simp
  have hlost : terminators ((codePoints rest).drop k).flatten ≤ terminators rest := by
    have := congrArg (fun l => terminators (List.flatten l)) (take_append_drop k (codePoints rest))
    simp only [flatten_append, flatten_codePoints, terminators_append] at this
    lia
  rw [hk, hfirst, Nat.succ_eq_add_one, drop_succ_cons, nil_append, nil_append,
    flatten_append, flatten_append, flatten_singles, hspaces] at hmasked
  have hone : terminators (u :: rest) = terminators rest + 1 := countP_cons_of_pos hlt
  simp only [terminators_append, terminators_onLine (onLine_replicate_space _),
    terminators_maskedText hend, textOf_cons, terminators_onLine honline, hes, hone] at hmasked
  lia

/-- **Only then.**  A masking that is exact had its pairs behind the comments. -/
theorem pairsBehind_of_exact (els : List Element) :
    ∀ (i : Nat) (done mid : Text), done.length + mid.length = i → CommentsEnd els →
      (fillComments i els (singles done ++ codePoints (mid ++ textOf els))).flatten =
        done ++ mid ++ maskedText els →
      PairsBehind done.length (mid ++ textOf els) i els := by
  induction els with
  | nil => exact fun i done mid _ _ _ h hh => nomatch hh
  | cons e es ih =>
    intro i done mid hi hend heq h hh q hq hlt
    rw [spansOf_cons] at hh
    cases hhtml : e.isHtmlComment with
    | false =>
      rw [hhtml, if_neg Bool.false_ne_true, nil_append] at hh
      rw [fillComments, hhtml, if_neg Bool.false_ne_true, maskedText_cons,
        textOf_masked_other hhtml, textOf_cons, ← append_assoc mid, ← append_assoc,
        append_assoc done mid] at heq
      rw [textOf_cons, ← append_assoc] at hq
      have := ih (i + e.text.length) done (mid ++ e.text) (by rw [length_append]; lia)
        hend.2 heq h hh q hq hlt
      rwa [textOf_cons, length_append, ← Nat.add_assoc]
    | true =>
      have hmid : ∀ q, q < mid.length → ¬ PairAt (mid ++ textOf (e :: es)) q :=
        fun q hq hpair => fillComments_ne_of_pair hi hend hhtml hpair hq heq
      have hbehind : mid.length ≤ q := Nat.not_lt.mp fun hlt => hmid q hlt hq
      obtain ⟨q, rfl⟩ := Nat.exists_eq_add_of_le hbehind
      have hq' : PairAt (e.text ++ textOf es) q := pairAt_append.mp (textOf_cons e es ▸ hq)
      rw [textOf_cons, length_append]
      by_cases hrest : textOf es = []
      · -- the comment ends the text and there are no others
        rw [hrest, length_nil, Nat.add_zero]
        rw [hhtml, if_pos rfl] at hh
        rcases mem_append.mp hh with hh | hh
        · rw [mem_singleton.mp hh]
          exact ⟨by simp only; lia, rfl⟩
        · have hbounds := spansOf_bounds hh
          have hpos := commentSpan_nonempty hend.2 hh
          rw [hrest] at hbounds
          simp only [length_nil] at hbounds
          lia
      · have hinside : ∀ q, q < e.text.length → ¬ PairAt (e.text ++ textOf es) q :=
          fun q hq hpair => fillComments_ne_of_inside hi hend hhtml hmid hpair hq hrest heq
        have hafter : e.text.length ≤ q := Nat.not_lt.mp fun hlt => hinside q hlt hq'
        obtain ⟨q, rfl⟩ := Nat.exists_eq_add_of_le hafter
        rw [hhtml, if_pos rfl] at hh
        rcases mem_append.mp hh with hh | hh
        · rw [mem_singleton.mp hh] at hlt
          simp only at hlt
          lia
        · rw [fillComments, hhtml, if_pos rfl, textOf_cons,
            fillSpaces_comment hi (textOf_cons e es ▸ hmid) (Or.inr hinside), maskedText_cons,
            textOf_masked_html hhtml, ← append_assoc] at heq
          have hstep := ih (i + e.text.length)
            (done ++ mid ++ replicate e.text.length space) []
            (by simp only [length_append, length_replicate, length_nil]; lia)
            hend.2 (by rw [nil_append, append_nil]; exact heq) h hh q
            (pairAt_append.mp hq')
          simp only [length_append, length_replicate] at hstep
          lia

end Js2Wasm.Script
