import Js2Wasm.Script.Masking
import Mathlib.Data.List.TakeWhile

/-! # The scan follows the lexical elements

Between two elements the scan has the flag of the grammar and, of the spans, all those
of the literals in front of it; it masks the HTML-like comments one by one.  Only a shift
in front of `!--` makes it leave the elements: it takes the second `<` for the beginning
of a comment. -/

namespace Js2Wasm.Script
open List

variable {body rest : Text} {b : Bool}

/-! ### Searching -/

theorem lineEnd_eq (hbody : OnLine body) (hrest : AtLineEnd rest) (i : Nat) :
    lineEnd (body ++ rest) i = i + body.length := by
  induction body generalizing i with
  | nil =>
    cases rest with
    | nil => rfl
    | cons u rest => exact if_pos (hrest u (Option.mem_some_self u))
  | cons u body ih =>
    have hu : isLineTerminator u = false := hbody u mem_cons_self
    rw [cons_append, lineEnd, if_neg (by rw [hu]; exact Bool.false_ne_true),
      ih (fun v hv => hbody v (mem_cons_of_mem _ hv)), length_cons]
    lia

theorem indexOf_isSome (pat s : Text) (i j : Nat) :
    (indexOf pat s i).isSome = (indexOf pat s j).isSome := by
  induction s generalizing i j with
  | nil => rfl
  | cons u s ih =>
    rw [indexOf, indexOf]
    split
    · rfl
    · exact ih _ _

theorem includes_cons {pat s : Text} {u : Nat} :
    includes pat (u :: s) = true ↔ pat <+: u :: s ∨ includes pat s = true := by
  rw [includes, indexOf, includes, indexOf_isSome pat s 0 1]
  by_cases h : pat.isPrefixOf (u :: s) = true
  · rw [if_pos h]
    exact iff_of_true rfl (Or.inl <| isPrefixOf_iff_prefix.mp h)
  · rw [if_neg h]
    exact (or_iff_right fun hp => h <| isPrefixOf_iff_prefix.mpr hp).symm

theorem includes_between {pat : Text} (hpat : pat ≠ []) (a b : Text) :
    includes pat (a ++ (pat ++ b)) = true := by
  induction a with
  | nil =>
    obtain ⟨u, t, rfl⟩ := exists_cons_of_ne_nil hpat
    exact includes_cons.mpr (Or.inl (prefix_append (u :: t) b))
  | cons u a ih => exact includes_cons.mpr (Or.inr ih)

/-- A block comment ends at the first `*/` of its text. -/
theorem indexOf_blockClose (h : ¬ includes blockClose body = true) (rest : Text) (i : Nat) :
    indexOf blockClose (body ++ (blockClose ++ rest)) i = some (i + body.length) := by
  induction body generalizing i with
  | nil => rfl
  | cons u body ih =>
    have hfirst : ¬ blockClose.isPrefixOf (u :: (body ++ (blockClose ++ rest))) = true := by
      intro hp
      refine h (includes_cons.mpr (Or.inl ?_))
      cases body with
      | nil => simp [blockClose] at hp
      | cons v body => simpa [blockClose] using hp
    rw [cons_append, indexOf, if_neg hfirst,
      ih fun hin => h (includes_cons.mpr (Or.inr hin)), length_cons]
    congr 1
    lia

/-! ### Spans -/

/-- The spans left at place `i` are past, or those of the literals ahead, or inside of a
comment ahead; and those of the literals ahead are all left. -/
structure SpansOk (literals comments : List ProtectedSpan) (i : Nat) (spans : List ProtectedSpan) :
    Prop where
  sorted : spans.Pairwise fun x y => x.start ≤ y.start
  sound : ∀ x ∈ spans, x.stop ≤ i ∨ x ∈ literals ∨
    ∃ h ∈ comments, h.start < x.start ∧ x.stop ≤ h.stop
  all : ∀ l ∈ literals, l ∈ spans

section
variable {literals comments spans : List ProtectedSpan} {i : Nat}

theorem SpansOk.mono (h : SpansOk literals comments i spans) {j : Nat} (hij : i ≤ j) :
    SpansOk literals comments j spans :=
  ⟨h.sorted, fun x hx => (h.sound x hx).imp_left (·.trans hij), h.all⟩

/-- Dropping the spans that are past. -/
theorem SpansOk.drop (h : SpansOk literals comments i spans) (hlit : ∀ l ∈ literals, i < l.stop) :
    SpansOk literals comments i (spans.dropWhile fun s => s.stop ≤ i) := by
  have hsub := dropWhile_sublist (l := spans) fun s => decide (s.stop ≤ i)
  refine ⟨h.sorted.sublist hsub, fun x hx => h.sound x (hsub.subset hx), fun l hl => ?_⟩
  have hmem := h.all l hl
  rw [← takeWhile_append_dropWhile (p := fun s => decide (s.stop ≤ i)) (l := spans)] at hmem
  refine (mem_append.mp hmem).resolve_left fun htake => ?_
  have := mem_takeWhile_imp htake
  exact absurd (of_decide_eq_true this) (Nat.not_le.mpr (hlit l hl))

/-- The first span left is not past. -/
theorem SpansOk.head {x : ProtectedSpan} {rest : List ProtectedSpan}
    (h : SpansOk literals comments i (x :: rest)) (hx : ¬ x.stop ≤ i) :
    x ∈ literals ∨ ∃ c ∈ comments, c.start < x.start :=
  ((h.sound x mem_cons_self).resolve_left hx).imp_right fun ⟨c, hc, hlt, _⟩ => ⟨c, hc, hlt⟩

end

/-! ### Rounds -/

section
variable {source : Text} {st : Scan} {literals comments : List ProtectedSpan}

/-- Where no literal starts, a round looks at the character. -/
theorem Scan.step_char (hspans : SpansOk literals comments st.index st.spans)
    (hlit : ∀ l ∈ literals, st.index < l.start ∧ l.start < l.stop)
    (hcom : ∀ c ∈ comments, st.index ≤ c.start) :
    ∃ spans, st.step source = Scan.char source { st with spans := spans } ∧
      SpansOk literals comments st.index spans := by
  have hdrop := hspans.drop fun l hl => (hlit l hl).1.trans (hlit l hl).2
  rw [Scan.step]
  split
  · next hnil => exact ⟨_, rfl, hnil ▸ hdrop⟩
  · next literal rest hcons =>
    have hpast : ¬ literal.stop ≤ st.index := by
      have := head?_dropWhile_not (fun s : ProtectedSpan => decide (s.stop ≤ st.index)) st.spans
      rw [hcons] at this
      simpa using this
    rw [hcons] at hdrop
    have hstart : literal.start ≠ st.index := by
      rcases hdrop.head hpast with hl | ⟨c, hc, hlt⟩
      · exact Nat.ne_of_gt (hlit literal hl).1
      · have := hcom c hc
        lia
    rw [if_neg hstart]
    exact ⟨_, rfl, hdrop⟩

theorem Scan.char_cons {u : Nat} {s : Text} (h : source.drop st.index = u :: s) :
    Scan.char source st =
      if isLineTerminator u then { st with atHtmlClosePrefix := true, index := st.index + 1 }
      else if isWhiteSpace u then { st with index := st.index + 1 }
      else if lineComment.isPrefixOf (u :: s) then { st with index := lineEnd (u :: s) st.index }
      else if blockOpen.isPrefixOf (u :: s) then
        let stop := (indexOf blockClose (s.drop 1) (st.index + 2)).elim source.length (· + 2)
        let body := (s.drop 1).take (stop - (st.index + 2))
        { st with atHtmlClosePrefix := st.atHtmlClosePrefix || body.any isLineTerminator
                  index := stop }
      else if htmlOpen.isPrefixOf (u :: s) then st.mask source
      else if st.atHtmlClosePrefix && htmlClose.isPrefixOf (u :: s) then st.mask source
      else { st with atHtmlClosePrefix := false, index := st.index + 1 } := by
  rw [Scan.char, h]
  rfl

theorem scan_succ {fuel : Nat} (h : st.index < source.length) :
    scan source (fuel + 1) st = scan source fuel (st.step source) := if_pos h

end

/-! ### Elements -/

/-- The state at place `i`, in front of the elements. -/
structure At (source : Text) (els : List Element) (i : Nat) (b : Bool) (output : List Text)
    (st : Scan) : Prop where
  index : st.index = i
  closes : st.atHtmlClosePrefix = b
  output : st.output.getD (codePoints source) = output
  spans : SpansOk (spansOf Element.isLiteral i els) (spansOf Element.isHtmlComment i els) i st.spans

/-- The scan comes from one state to another in at most `n` rounds. -/
def Within (source : Text) (st st' : Scan) (n : Nat) : Prop :=
  ∃ k ≤ n, ∀ fuel, scan source (k + fuel) st = scan source fuel st'

theorem Within.refl (source : Text) (st : Scan) : Within source st st 0 :=
  ⟨0, le_rfl, fun fuel => by rw [Nat.zero_add]⟩

theorem Within.trans {source : Text} {st1 st2 st3 : Scan} {m n : Nat} (h : Within source st1 st2 m)
    (h' : Within source st2 st3 n) : Within source st1 st3 (m + n) := by
  obtain ⟨k, hk, hscan⟩ := h
  obtain ⟨k', hk', hscan'⟩ := h'
  refine ⟨k + k', Nat.add_le_add hk hk', fun fuel => ?_⟩
  rw [Nat.add_assoc, hscan, hscan']

theorem Within.round {source : Text} {st st' : Scan} {n : Nat} (h : st.index < source.length)
    (hstep : st.step source = st') (hn : 0 < n) : Within source st st' n :=
  ⟨1, hn, fun fuel => by rw [Nat.add_comm, scan_succ h, hstep]⟩

theorem literalSpan_nonempty {els : List Element} {i : Nat} {x : ProtectedSpan} (h : Lexed b els)
    (hx : x ∈ spansOf Element.isLiteral i els) : x.start < x.stop := by
  induction els generalizing i b with
  | nil => cases hx
  | cons e es ih =>
    rw [spansOf_cons] at hx
    rcases mem_append.mp hx with hx | hx
    · cases e with
      | literal text =>
        rw [mem_singleton.mp hx]
        exact Nat.lt_add_of_pos_right (length_pos_of_ne_nil h.1)
      | _ => cases hx
    · exact ih h.2 hx

theorem length_pos_of_fits {e : Element} (h : e.Fits b rest) :
    0 < e.text.length := by
  cases e with
  | literal text => exact length_pos_of_ne_nil h
  | _ => exact Nat.succ_pos _

section
variable {source : Text} {e : Element} {es : List Element} {i : Nat} {b : Bool}
  {output : List Text} {st : Scan}

theorem spansOf_skip {p : Element → Bool} (hp : p e = false) :
    spansOf p i (e :: es) = spansOf p (i + e.text.length) es := by
  rw [spansOf_cons, hp]
  rfl

/-- Behind the element. -/
theorem SpansOk.after {spans : List ProtectedSpan}
    (h : SpansOk (spansOf Element.isLiteral (i + e.text.length) es)
      (spansOf Element.isHtmlComment i (e :: es)) i spans) :
    SpansOk (spansOf Element.isLiteral (i + e.text.length) es)
      (spansOf Element.isHtmlComment (i + e.text.length) es) (i + e.text.length) spans := by
  refine ⟨h.sorted, fun x hx => ?_, h.all⟩
  rcases h.sound x hx with hpast | hlit | ⟨c, hc, hlt, hle⟩
  · exact Or.inl (hpast.trans (Nat.le_add_right _ _))
  · exact Or.inr (Or.inl hlit)
  · rw [spansOf_cons] at hc
    rcases mem_append.mp hc with hc | hc
    · split at hc
      · rw [mem_singleton.mp hc] at hle
        exact Or.inl hle
      · cases hc
    · exact Or.inr (Or.inr ⟨c, hc, hlt, hle⟩)

/-- At an element that is no literal, a round looks at the character. -/
theorem At.step (hat : At source (e :: es) i b output st) (hlex : Lexed b (e :: es))
    (hlit : e.isLiteral = false) :
    ∃ spans, st.step source = Scan.char source { st with spans := spans } ∧
      SpansOk (spansOf Element.isLiteral (i + e.text.length) es)
        (spansOf Element.isHtmlComment i (e :: es)) i spans := by
  obtain ⟨rfl, -, -, hspans⟩ := hat
  rw [spansOf_skip hlit] at hspans
  have hlits : ∀ l ∈ spansOf Element.isLiteral (st.index + e.text.length) es,
      st.index < l.start ∧ l.start < l.stop := by
    intro l hl
    have hpos := length_pos_of_fits hlex.1
    have hstart := (spansOf_bounds hl).1
    exact ⟨by lia, literalSpan_nonempty hlex.2 hl⟩
  exact Scan.step_char hspans hlits fun c hc => (spansOf_bounds hc).1

/-- At a literal, a round skips it. -/
theorem At.step_literal {text : Text} (hat : At source (.literal text :: es) i b output st)
    (hlex : Lexed b (.literal text :: es)) :
    ∃ spans, st.step source = ⟨i + text.length, spans, false, st.output⟩ ∧
      SpansOk (spansOf Element.isLiteral (i + text.length) es)
        (spansOf Element.isHtmlComment (i + text.length) es) (i + text.length) spans := by
  have hself : ⟨i, i + text.length⟩ ∈
      spansOf Element.isLiteral i (.literal text :: es) := mem_cons_self
  have hlits : ∀ l ∈ spansOf Element.isLiteral i (.literal text :: es), i < l.stop := fun l hl =>
    (spansOf_bounds hl).1.trans_lt (literalSpan_nonempty hlex hl)
  have hdrop := hat.spans.drop hlits
  rw [Scan.step, hat.index]
  split
  · next hnil =>
    rw [hnil] at hdrop
    exact absurd (hdrop.all _ hself) not_mem_nil
  · next literal rest hcons =>
    have hpast : ¬ literal.stop ≤ i := by
      have := head?_dropWhile_not (fun s : ProtectedSpan => decide (s.stop ≤ i)) st.spans
      rw [hcons] at this
      simpa using this
    rw [hcons] at hdrop
    -- the first span left is the one of the literal
    have hle : literal.start ≤ i := by
      rcases mem_cons.mp (hdrop.all _ hself) with h | h
      · rw [← h]
      · exact (pairwise_cons.mp hdrop.sorted).1 _ h
    have heq : literal = ⟨i, i + text.length⟩ := by
      rcases hdrop.head hpast with hl | ⟨c, hc, hlt⟩
      · rw [spansOf_cons] at hl
        rcases mem_append.mp hl with hl | hl
        · exact mem_singleton.mp hl
        · have := (spansOf_bounds hl).1
          have := length_pos_of_fits hlex.1
          lia
      · have := (spansOf_bounds hc).1
        lia
    subst heq
    rw [if_pos rfl]
    refine ⟨rest, rfl, (pairwise_cons.mp hdrop.sorted).2, fun x hx => ?_, fun l hl => ?_⟩
    · rcases hdrop.sound x (mem_cons_of_mem _ hx) with h | h | h
      · exact Or.inl (h.trans (Nat.le_add_right _ _))
      · rw [spansOf_cons] at h
        rcases mem_append.mp h with h | h
        · rw [mem_singleton.mp h]
          exact Or.inl .refl
        · exact Or.inr (Or.inl h)
      · rw [spansOf_skip rfl] at h
        exact Or.inr (Or.inr h)
    · have hmem := hdrop.all l (by rw [spansOf_cons]; exact mem_append_right _ hl)
      refine (mem_cons.mp hmem).resolve_left fun h => ?_
      have hstart := (spansOf_bounds hl).1
      have hpos := length_pos_of_fits hlex.1
      rw [h] at hstart
      simp only [Element.text] at hstart hpos
      lia

/-! ### Tokens -/

/-- What the scan sees inside of a token: no white space, no slash and no comment. -/
def Inside (rest : Text) : Text → Prop
  | [] => True
  | v :: t => isLineTerminator v = false ∧ isWhiteSpace v = false ∧ v ≠ 0x2f ∧
      ¬ htmlOpen <+: v :: (t ++ rest) ∧ Inside rest t

variable {u : Nat} {s rest : Text}

theorem not_prefix_of_head {pat : Text} {v : Nat} (h : u ≠ v) :
    ¬ (u :: pat).isPrefixOf (v :: s) = true := by
  simp [h]

/-- The last branch of a round. -/
theorem Scan.char_other (hdrop : source.drop st.index = u :: s) (hlt : isLineTerminator u = false)
    (hws : isWhiteSpace u = false) (hline : ¬ lineComment <+: u :: s)
    (hblock : ¬ blockOpen <+: u :: s) (hopen : ¬ htmlOpen <+: u :: s)
    (hclose : st.atHtmlClosePrefix = true → ¬ htmlClose <+: u :: s) :
    Scan.char source st = { st with atHtmlClosePrefix := false, index := st.index + 1 } := by
  have hor : ¬ (st.atHtmlClosePrefix && htmlClose.isPrefixOf (u :: s)) = true := by
    intro h
    rw [Bool.and_eq_true, isPrefixOf_iff_prefix] at h
    exact hclose h.1 h.2
  rw [Scan.char_cons hdrop, if_neg (by rw [hlt]; exact Bool.false_ne_true),
    if_neg (by rw [hws]; exact Bool.false_ne_true),
    if_neg (by rwa [ isPrefixOf_iff_prefix]), if_neg (by rwa [ isPrefixOf_iff_prefix]),
    if_neg (by rwa [ isPrefixOf_iff_prefix]), if_neg hor]

/-- The characters of a token behind the first. -/
theorem scan_inside {literals comments : List ProtectedSpan} {rest : Text} (t : Text) :
    ∀ {st : Scan}, source.drop st.index = t ++ rest → Inside rest t →
      st.atHtmlClosePrefix = false → SpansOk literals comments st.index st.spans →
      (∀ l ∈ literals, st.index + t.length ≤ l.start ∧ l.start < l.stop) →
      (∀ c ∈ comments, st.index + t.length ≤ c.start) →
      ∃ spans, Within source st ⟨st.index + t.length, spans, false, st.output⟩ t.length ∧
        SpansOk literals comments (st.index + t.length) spans := by
  induction t with
  | nil =>
    intro st _ _ hclose hspans _ _
    refine ⟨st.spans, ?_, hspans⟩
    have hst : (⟨st.index + ([] : Text).length, st.spans, false, st.output⟩ : Scan) = st := by
      rw [← hclose]
      rfl
    rw [hst]
    exact Within.refl source st
  | cons v t ih =>
    intro st hdrop hin hclose hspans hlit hcom
    obtain ⟨hlt, hws, hslash, hopen, hin⟩ := hin
    simp only [length_cons] at hlit hcom
    obtain ⟨spans, hstep, hok⟩ := @Scan.step_char source st _ _ hspans
      (fun l hl => ⟨by have := (hlit l hl).1; lia, (hlit l hl).2⟩)
      (fun c hc => by have := hcom c hc; lia)
    have hline : ¬ lineComment <+: v :: (t ++ rest) := by
      rw [← isPrefixOf_iff_prefix]
      exact not_prefix_of_head (Ne.symm hslash)
    have hblock : ¬ blockOpen <+: v :: (t ++ rest) := by
      rw [← isPrefixOf_iff_prefix]
      exact not_prefix_of_head (Ne.symm hslash)
    have hchar : Scan.char source { st with spans := spans } =
        ⟨st.index + 1, spans, false, st.output⟩ :=
      Scan.char_other hdrop hlt hws hline hblock hopen fun h =>
        absurd (hclose.symm.trans h) Bool.false_ne_true
    rw [hchar] at hstep
    have hlength : st.index < source.length := by
      have := congrArg List.length hdrop
      rw [length_drop, cons_append, length_cons] at this
      lia
    have hdrop' : source.drop (st.index + 1) = t ++ rest := by
      rw [← drop_drop, hdrop]
      rfl
    obtain ⟨spans', hwithin, hok'⟩ := @ih ⟨st.index + 1, spans, false, st.output⟩ hdrop' hin rfl
      (hok.mono (Nat.le_succ _))
      (fun l hl => ⟨by have := (hlit l hl).1; simp only; lia, (hlit l hl).2⟩)
      (fun c hc => by have := hcom c hc; simp only; lia)
    have hindex : st.index + 1 + t.length = st.index + (v :: t).length := by
      rw [length_cons]
      lia
    simp only [hindex] at hwithin hok'
    refine ⟨spans', ?_, hok'⟩
    have hfirst : Within source st ⟨st.index + 1, spans, false, st.output⟩ 1 :=
      Within.round hlength hstep Nat.one_pos
    have := hfirst.trans hwithin
    rwa [Nat.add_comm 1] at this

/-- What the grammar and the condition on shifts say about the inside of a token. -/
theorem inside_of_fits {tail : Text} (hfits : (Element.token u tail).Fits b rest)
    (hshift : (Element.token u tail).isShift = true → ¬ htmlOpen.tail <+: rest) :
    Inside rest tail := by
  obtain ⟨hchars, hslash, hless, -⟩ := hfits
  have hplain : ∀ t : Text, (∀ v ∈ t, v ∈ tail) → 0x3c ∉ t → Inside rest t := by
    intro t
    induction t with
    | nil => exact fun _ _ => trivial
    | cons v t ih =>
      intro hmem hnot
      have hv := hmem v mem_cons_self
      obtain ⟨hlt, hws⟩ := hchars v (mem_cons_of_mem _ hv)
      refine ⟨hlt, hws, fun h => hslash (h ▸ hv), fun hp => ?_,
        ih (fun w hw => hmem w (mem_cons_of_mem _ hw)) fun h => hnot (mem_cons_of_mem _ h)⟩
      exact hnot ((cons_prefix_cons.mp hp).1 ▸ mem_cons_self)
  by_cases h : 0x3c ∈ tail
  · -- only the two shifts have `<` behind their first character
    rcases hless h with heq | heq
    · cases heq
      refine ⟨rfl, rfl, by decide, fun hp => hshift rfl ?_, trivial⟩
      exact (cons_prefix_cons.mp hp).2
    · cases heq
      refine ⟨rfl, rfl, by decide, fun hp => ?_, rfl, rfl, by decide, fun hp => ?_, trivial⟩
      · exact absurd (cons_prefix_cons.mp (cons_prefix_cons.mp hp).2).1 (by decide)
      · exact absurd (cons_prefix_cons.mp hp).1 (by decide)
  · exact hplain tail (fun _ hv => hv) h

/-! ### The whole scan -/

/-- The array behind an element. -/
def outputAfter (i : Nat) (e : Element) (output : List Text) : List Text :=
  if e.isHtmlComment then fillSpaces e.text.length i output else output

theorem onLine_append {a c : Text} (ha : OnLine a) (hc : OnLine c) : OnLine (a ++ c) :=
  fun u hu => (mem_append.mp hu).elim (ha u) (hc u)

theorem onLine_markers : OnLine lineComment ∧ OnLine htmlOpen ∧ OnLine htmlClose := by
  unfold OnLine
  decide

/-- A round that masks. -/
theorem Scan.mask_eq (hdrop : source.drop st.index = e.text ++ rest) (hline : OnLine e.text)
    (hend : AtLineEnd rest) :
    st.mask source = { st with
      index := st.index + e.text.length
      output := some (fillSpaces e.text.length st.index (st.output.getD (codePoints source))) } := by
  rw [Scan.mask, hdrop, lineEnd_eq hline hend, Nat.add_sub_cancel_left]

/-- The character round of an element that is neither a literal nor a token. -/
theorem Scan.char_element {st : Scan} (hdrop : source.drop st.index = e.text ++ textOf es)
    (hfits : e.Fits st.atHtmlClosePrefix (textOf es)) (hlit : e.isLiteral = false)
    (htoken : ∀ u tail, e ≠ .token u tail) :
    Scan.char source st = ⟨st.index + e.text.length, st.spans, e.closes st.atHtmlClosePrefix,
      if e.isHtmlComment then
        some (fillSpaces e.text.length st.index (st.output.getD (codePoints source)))
      else st.output⟩ := by
  cases e with
  | whiteSpace u =>
    have hlt : isLineTerminator u = false := by
      have : isWhiteSpace u = true := hfits
      rw [isWhiteSpace, Bool.and_eq_true] at this
      simpa using this.1
    have hws : isWhiteSpace u = true := hfits
    have hdrop' : source.drop st.index = u :: textOf es := hdrop
    rw [Scan.char_cons hdrop', if_neg (by rw [hlt]; exact Bool.false_ne_true), if_pos hws]
    rfl
  | newline u =>
    have hlt : isLineTerminator u = true := hfits
    have hdrop' : source.drop st.index = u :: textOf es := hdrop
    rw [Scan.char_cons hdrop', if_pos hlt]
    rfl
  | lineComment body =>
    have hend := lineEnd_eq (onLine_append onLine_markers.1 hfits.1) hfits.2 st.index
    have hdrop' : source.drop st.index = 0x2f :: 0x2f :: (body ++ textOf es) := hdrop
    have hchar := Scan.char_cons hdrop'
    rw [if_neg (by decide), if_neg (by decide), if_pos (by simp [lineComment])] at hchar
    rw [hchar]
    show { st with index := lineEnd ((lineComment ++ body) ++ textOf es) st.index } = _
    rw [hend]
    rfl
  | blockComment body =>
    have hdrop' : source.drop st.index =
        0x2f :: 0x2a :: (body ++ (blockClose ++ textOf es)) := by
      rw [hdrop]
      simp [Element.text, blockOpen]
    have hchar := Scan.char_cons hdrop'
    rw [if_neg (by decide), if_neg (by decide), if_neg (by simp [lineComment]),
      if_pos (by simp [blockOpen])] at hchar
    have hstop : st.index + 2 + body.length + 2 =
        st.index + (Element.blockComment body).text.length := by
      simp [Element.text, blockOpen, blockClose]
      lia
    have htake : (body ++ (blockClose ++ textOf es)).take
        (st.index + 2 + body.length + 2 - (st.index + 2)) = body ++ blockClose := by
      have hlen : st.index + 2 + body.length + 2 - (st.index + 2) = (body ++ blockClose).length := by
        simp [blockClose]
        lia
      rw [hlen, ← append_assoc, take_left]
    have hany : (body ++ blockClose).any isLineTerminator = body.any isLineTerminator := by
      rw [any_append]
      exact Bool.or_false _
    rw [hchar, drop_one, tail_cons, indexOf_blockClose hfits]
    show Scan.mk _ _ _ _ = _
    simp only [Option.elim_some]
    rw [htake, hany, hstop]
    rfl
  | htmlOpenComment body =>
    have hdrop' : source.drop st.index = 0x3c :: 0x21 :: 0x2d :: 0x2d :: (body ++ textOf es) := hdrop
    have hchar := Scan.char_cons hdrop'
    rw [if_neg (by decide), if_neg (by decide), if_neg (by simp [lineComment]),
      if_neg (by simp [blockOpen]), if_pos (by simp [htmlOpen])] at hchar
    rw [hchar, Scan.mask_eq hdrop (onLine_append onLine_markers.2.1 hfits.1) hfits.2]
    rfl
  | htmlCloseComment body =>
    have hdrop' : source.drop st.index = 0x2d :: 0x2d :: 0x3e :: (body ++ textOf es) := hdrop
    have hchar := Scan.char_cons hdrop'
    rw [if_neg (by decide), if_neg (by decide), if_neg (by simp [lineComment]),
      if_neg (by simp [blockOpen]), if_neg (by simp [htmlOpen]),
      if_pos (by simp [hfits.1, htmlClose])] at hchar
    rw [hchar, Scan.mask_eq hdrop (onLine_append onLine_markers.2.2 hfits.2.1) hfits.2.2]
    rfl
  | literal text => exact absurd hlit (by simp [Element.isLiteral])
  | token u tail => exact absurd rfl (htoken u tail)

/-- **From one element to the next.** -/
theorem scan_element (hat : At source (e :: es) i b output st) (hlex : Lexed b (e :: es))
    (hdrop : source.drop i = textOf (e :: es))
    (hshift : e.isShift = true → ¬ htmlOpen.tail <+: textOf es) :
    ∃ st', Within source st st' e.text.length ∧
      At source es (i + e.text.length) (e.closes b) (outputAfter i e output) st' := by
  have hpos := length_pos_of_fits hlex.1
  have hlength : st.index < source.length := by
    have := congrArg List.length hdrop
    rw [length_drop, textOf_cons, length_append] at this
    rw [hat.index]
    lia
  rw [textOf_cons] at hdrop
  cases hlit : e.isLiteral with
  | true =>
    cases e with
    | literal text =>
      obtain ⟨spans, hstep, hok⟩ := hat.step_literal hlex
      exact ⟨_, Within.round hlength hstep hpos, ⟨rfl, rfl, hat.output, hok⟩⟩
    | _ => exact absurd hlit Bool.false_ne_true
  | false =>
    obtain ⟨spans, hstep, hok⟩ := hat.step hlex hlit
    by_cases htoken : ∃ u tail, e = .token u tail
    · obtain ⟨u, tail, rfl⟩ := htoken
      have hhtml : spansOf Element.isHtmlComment i (.token u tail :: es) =
          spansOf Element.isHtmlComment (i + (tail.length + 1)) es := spansOf_skip rfl
      obtain ⟨hchars, hslash, hless, hline, hblock, hopen, hclose⟩ := hlex.1
      obtain ⟨rfl, rfl, hout, -⟩ := hat
      have hchar : Scan.char source { st with spans := spans } =
          ⟨st.index + 1, spans, false, st.output⟩ :=
        Scan.char_other hdrop (hchars u mem_cons_self).1 (hchars u mem_cons_self).2
          hline hblock hopen hclose
      have hdrop' : source.drop (st.index + 1) = tail ++ textOf es := by
        rw [← drop_drop, hdrop]
        rfl
      have hindex : st.index + 1 + tail.length = st.index + (tail.length + 1) := by lia
      rw [hhtml] at hok
      obtain ⟨spans', hwithin, hok'⟩ := @scan_inside source _ _ (textOf es) tail
        ⟨st.index + 1, spans, false, st.output⟩ hdrop' (inside_of_fits hlex.1 hshift) rfl
        (hok.mono (Nat.le_succ _))
        (fun l hl => ⟨by
          have := (spansOf_bounds hl).1
          simp only [Element.text, length_cons] at this ⊢
          lia, literalSpan_nonempty hlex.2 hl⟩)
        (fun c hc => by
          have := (spansOf_bounds hc).1
          simp only
          lia)
      simp only [hindex] at hwithin hok'
      refine ⟨⟨st.index + (tail.length + 1), spans', false, st.output⟩, ?_,
        ⟨rfl, rfl, hout, hok'⟩⟩
      have hall := (Within.round hlength (hstep.trans hchar) Nat.one_pos).trans hwithin
      rwa [Nat.add_comm 1] at hall
    · obtain ⟨rfl, rfl, hout, -⟩ := hat
      have hchar := @Scan.char_element source e es { st with spans := spans } hdrop hlex.1 hlit
        fun u tail he => htoken ⟨u, tail, he⟩
      refine ⟨_, Within.round hlength (hstep.trans hchar) hpos, ⟨rfl, rfl, ?_, hok.after⟩⟩
      rw [outputAfter, ← hout]
      cases e.isHtmlComment <;> rfl

/-- **To the end of the text.** -/
theorem scan_elements (els : List Element) :
    ∀ {i b output st}, At source els i b output st → Lexed b els → ShiftFree els →
      source.drop i = textOf els → i ≤ source.length →
      ∃ st', Within source st st' (textOf els).length ∧ st'.index = source.length ∧
        st'.output.getD (codePoints source) = fillComments i els output := by
  induction els with
  | nil =>
    intro i b output st hat _ _ hdrop hle
    have hlen := congrArg List.length hdrop
    rw [length_drop] at hlen
    have hlen' : source.length - i = 0 := hlen
    exact ⟨st, Within.refl source st, by rw [hat.index]; lia, hat.output⟩
  | cons e es ih =>
    intro i b output st hat hlex hshift hdrop hle
    obtain ⟨st', hwithin, hat'⟩ := scan_element hat hlex hdrop hshift.1
    have hlen := congrArg List.length hdrop
    rw [length_drop, textOf_cons, length_append] at hlen
    have hdrop' : source.drop (i + e.text.length) = textOf es := by
      rw [← drop_drop, hdrop, textOf_cons, drop_left]
    obtain ⟨st'', hwithin', hindex, hout⟩ := ih hat' hlex.2 hshift.2 hdrop' (by lia)
    refine ⟨st'', ?_, hindex, hout⟩
    rw [textOf_cons, length_append]
    exact hwithin.trans hwithin'

end

end Js2Wasm.Script
