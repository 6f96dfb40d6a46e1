import Js2Wasm.Script.ScanSound

/-! # When the normalization is exact

Given the literals of the script, the normalization replaces exactly the HTML-like comments
unless a surrogate pair lies in front of one, or a shift stands in front of `!--`. -/

namespace Js2Wasm.Script
open List

variable {parse : Text → List ProtectedSpan} {els : List Element}

/-! ### The normalization masks the comments -/

variable {c a : Text} {b : Bool} {e : Element}

theorem commentsEnd_of_lexed (h : Lexed b els) : CommentsEnd els := by
  induction els generalizing b with
  | nil => trivial
  | cons e es ih =>
    refine ⟨fun hhtml => ?_, ih h.2⟩
    cases e with
    | htmlOpenComment body =>
      exact ⟨⟨_, _, rfl, by decide⟩, onLine_append onLine_markers.2.1 h.1.1, h.1.2⟩
    | htmlCloseComment body =>
      exact ⟨⟨_, _, rfl, by decide⟩, onLine_append onLine_markers.2.2 h.1.2.1, h.1.2.2⟩
    | _ => exact absurd hhtml Bool.false_ne_true

/-- The state in which the scan starts. -/
theorem at_start (hparse : Reports parse els) :
    At (textOf els) els 0 true (codePoints (textOf els))
      ⟨0, collectLiteralSpans parse (textOf els), true, none⟩ := by
  refine ⟨rfl, rfl, rfl, ?_, fun x hx => ?_, fun l hl => ?_⟩
  · have htrans : ∀ x y z : ProtectedSpan, spanLe x y = true → spanLe y z = true →
        spanLe x z = true := by
      intro x y z hxy hyz
      simp only [spanLe, Bool.or_eq_true, Bool.and_eq_true, decide_eq_true_eq, beq_iff_eq]
        at hxy hyz ⊢
      lia
    have htotal : ∀ x y : ProtectedSpan, (spanLe x y || spanLe y x) = true := by
      intro x y
      simp only [spanLe, Bool.or_eq_true, Bool.and_eq_true, decide_eq_true_eq, beq_iff_eq]
      lia
    refine (pairwise_mergeSort htrans htotal (parse (textOf els))).imp fun hle => ?_
    simp only [spanLe, Bool.or_eq_true, Bool.and_eq_true, decide_eq_true_eq, beq_iff_eq] at hle
    lia
  · exact Or.inr (hparse.others x (mem_mergeSort.mp hx))
  · exact mem_mergeSort.mpr (hparse.literals l hl)

theorem includes_of_comment (he : e ∈ els) (hhtml : e.isHtmlComment = true) :
    includes htmlOpen (textOf els) = true ∨ includes htmlClose (textOf els) = true := by
  obtain ⟨pre, post, rfl⟩ := append_of_mem he
  have htext : textOf (pre ++ e :: post) = textOf pre ++ (e.text ++ textOf post) := by
    rw [textOf, flatMap_append, flatMap_cons]
    rfl
  rw [htext]
  cases e with
  | htmlOpenComment body =>
    left
    rw [Element.text, append_assoc]
    exact includes_between (by decide) _ _
  | htmlCloseComment body =>
    right
    rw [Element.text, append_assoc]
    exact includes_between (by decide) _ _
  | _ => exact absurd hhtml Bool.false_ne_true

theorem fillComments_of_none {i : Nat} {output : List Text}
    (h : ∀ e ∈ els, e.isHtmlComment = false) : fillComments i els output = output := by
  induction els generalizing i with
  | nil => rfl
  | cons e es ih =>
    rw [fillComments, h e mem_cons_self, if_neg Bool.false_ne_true]
    exact ih fun e he => h e (mem_cons_of_mem _ he)

/-- **The normalization masks the comments**, into an array of code points. -/
theorem normalize_eq (hlex : Lexed true els) (hparse : Reports parse els)
    (hshift : ShiftFree els) :
    normalizeScriptHtmlLikeComments parse (textOf els) =
      (fillComments 0 els (codePoints (textOf els))).flatten := by
  rw [normalizeScriptHtmlLikeComments]
  split
  · next hnone =>
    rw [Bool.and_eq_true, Bool.not_eq_true', Bool.not_eq_true'] at hnone
    rw [fillComments_of_none fun e he => ?_, flatten_codePoints]
    rw [← Bool.not_eq_true]
    intro hhtml
    rcases includes_of_comment he hhtml with h | h
    · exact Bool.false_ne_true (hnone.1.symm.trans h)
    · exact Bool.false_ne_true (hnone.2.symm.trans h)
  · obtain ⟨st, ⟨k, hk, hscan⟩, hindex, hout⟩ :=
      scan_elements els (at_start hparse) hlex hshift rfl (Nat.zero_le _)
    obtain ⟨fuel, hfuel⟩ := Nat.exists_eq_add_of_le
      (hk.trans (Nat.le_add_right _ (collectLiteralSpans parse (textOf els)).length))
    have hend : scan (textOf els) fuel st = st := by
      cases fuel with
      | zero => rfl
      | succ fuel => exact if_neg (by rw [hindex]; exact Nat.lt_irrefl _)
    show (scan _ _ _).output.elim (textOf els) List.flatten = _
    rw [hfuel, hscan, hend, ← hout]
    cases st.output with
    | none => exact (flatten_codePoints _).symm
    | some output => rfl

/-! ### The masked script -/

/-- Some characters of lines have become spaces. -/
def Blanked (a c : Text) : Prop :=
  List.Forall₂ (fun u v => v = u ∨ v = space ∧ isLineTerminator u = false) a c

theorem Blanked.refl (a : Text) : Blanked a a := by
  induction a with
  | nil => exact .nil
  | cons u a ih => exact .cons (Or.inl rfl) ih

theorem Blanked.append {a a' c c' : Text} (h : Blanked a c) (h' : Blanked a' c') :
    Blanked (a ++ a') (c ++ c') := rel_append h h'

variable {t : Text}

theorem blanked_replicate (h : OnLine t) : Blanked t (replicate t.length space) := by
  induction t with
  | nil => exact .nil
  | cons u t ih =>
    exact .cons (Or.inr ⟨rfl, h u mem_cons_self⟩)
      (ih fun v hv => h v (mem_cons_of_mem _ hv))

theorem blanked_maskedText (h : CommentsEnd els) : Blanked (textOf els) (maskedText els) := by
  induction els with
  | nil => exact .nil
  | cons e es ih =>
    rw [textOf_cons, maskedText_cons]
    refine Blanked.append ?_ (ih h.2)
    cases hhtml : e.isHtmlComment with
    | true =>
      rw [textOf_masked_html hhtml]
      exact blanked_replicate (h.1 hhtml).2.1
    | false =>
      rw [textOf_masked_other hhtml]
      exact Blanked.refl _

/-- No marker appears. -/
theorem Blanked.starts {pat : Text} (h : Blanked a c) (hpat : space ∉ pat) (hp : pat <+: c) :
    pat <+: a := by
  induction h generalizing pat with
  | nil => exact hp
  | cons hu _ ih =>
    cases pat with
    | nil => exact nil_prefix
    | cons x pat =>
      obtain ⟨rfl, htail⟩ := cons_prefix_cons.mp hp
      rcases hu with rfl | ⟨rfl, -⟩
      · exact cons_prefix_cons.mpr
          ⟨rfl, ih (fun h => hpat (mem_cons_of_mem _ h)) htail⟩
      · exact absurd mem_cons_self hpat

theorem Blanked.atLineEnd (h : Blanked a c) (ha : AtLineEnd a) : AtLineEnd c := by
  cases h with
  | nil => exact ha
  | cons hu _ =>
    intro v hv
    have hlt := ha _ (Option.mem_some_self _)
    rw [← Option.some.inj hv]
    rcases hu with rfl | ⟨-, hnot⟩
    · exact hlt
    · exact absurd (hnot.symm.trans hlt) Bool.false_ne_true

theorem Element.Fits.blanked {rest rest' : Text} (h : e.Fits b rest) (hrest : Blanked rest rest') :
    e.Fits b rest' := by
  have hkeep {u : Nat} {tail pat : Text} (hpat : space ∉ pat)
      (hnot : ¬ pat <+: (u :: tail) ++ rest) : ¬ pat <+: (u :: tail) ++ rest' :=
    fun hp => hnot (((Blanked.refl (u :: tail)).append hrest).starts hpat hp)
  cases e with
  | lineComment body | htmlOpenComment body => exact ⟨h.1, hrest.atLineEnd h.2⟩
  | htmlCloseComment body => exact ⟨h.1, h.2.1, hrest.atLineEnd h.2.2⟩
  | token u tail =>
    obtain ⟨hchars, hslash, hless, hline, hblock, hopen, hclose⟩ := h
    exact ⟨hchars, hslash, hless, hkeep (by decide) hline, hkeep (by decide) hblock,
      hkeep (by decide) hopen, fun hb => hkeep (by decide) (hclose hb)⟩
  | _ => exact h

theorem lexed_spaces (n : Nat) :
    Lexed b (replicate n (.whiteSpace space) ++ els) ↔ Lexed b els := by
  induction n with
  | zero => rfl
  | succ n ih => exact (and_iff_right rfl).trans ih

theorem lexed_masked (h : Lexed b els) : Lexed b (maskElements els) := by
  induction els generalizing b with
  | nil => trivial
  | cons e es ih =>
    have hrest : Lexed (e.closes b) (maskElements es) := ih h.2
    rw [maskElements, flatMap_cons, Element.masked]
    split
    · next hhtml =>
      refine (lexed_spaces _).mpr ?_
      cases e with
      | htmlOpenComment body | htmlCloseComment body => exact hrest
      | _ => exact absurd hhtml Bool.false_ne_true
    · exact ⟨h.1.blanked (blanked_maskedText (commentsEnd_of_lexed h.2)), hrest⟩

theorem shiftFree_spaces (n : Nat) :
    ShiftFree (replicate n (.whiteSpace space) ++ els) ↔ ShiftFree els := by
  induction n with
  | zero => rfl
  | succ n ih => exact (and_iff_right fun h => absurd h Bool.false_ne_true).trans ih

theorem shiftFree_masked (hlex : Lexed b els) (h : ShiftFree els) :
    ShiftFree (maskElements els) := by
  induction els generalizing b with
  | nil => trivial
  | cons e es ih =>
    rw [maskElements, flatMap_cons, Element.masked]
    split
    · exact (shiftFree_spaces _).mpr (ih hlex.2 h.2)
    · exact ⟨fun hshift hp => h.1 hshift
        ((blanked_maskedText (commentsEnd_of_lexed hlex.2)).starts (by decide) hp), ih hlex.2 h.2⟩

theorem masked_no_comment : ∀ e ∈ maskElements els, e.isHtmlComment = false := by
  intro e he
  obtain ⟨e', -, he'⟩ := mem_flatMap.mp he
  rw [Element.masked] at he'
  split at he'
  · rw [eq_of_mem_replicate he']
    rfl
  · next hhtml =>
    rw [mem_singleton.mp he']
    exact Bool.not_eq_true _ ▸ hhtml

/-- A script without HTML-like comments stays as it is. -/
theorem normalize_masked (hlex : Lexed true els) (hshift : ShiftFree els)
    (hparse : Reports parse (maskElements els)) :
    normalizeScriptHtmlLikeComments parse (maskedText els) = maskedText els := by
  rw [maskedText, normalize_eq (lexed_masked hlex) hparse (shiftFree_masked hlex hshift),
    fillComments_of_none masked_no_comment, flatten_codePoints]

/-! ### A shift in front of `!--` -/

/-- The array has a code unit for every place. -/
structure OneEach (n : Nat) (output : List Text) : Prop where
  length : output.length = n
  units : ∀ x ∈ output, x.length = 1

/-- There is a space at place `p`, too. -/
structure Spoilt (n p : Nat) (output : List Text) : Prop extends OneEach n output where
  blank : output[p]? = some [space]

section
variable {n p : Nat} {output : List Text}

variable {m u cursor : Nat}

theorem OneEach.setElement (h : OneEach n output) (hc : cursor < n) :
    Spoilt n cursor (setElement output cursor [space]) := by
  have hlt : cursor < output.length := h.length ▸ hc
  rw [Script.setElement, if_pos hlt]
  refine ⟨⟨(length_set ..).trans h.length, fun x hx => ?_⟩, getElem?_set_self hlt⟩
  rcases mem_or_eq_of_mem_set hx with hx | rfl
  · exact h.units x hx
  · rfl

theorem Spoilt.setElement (h : Spoilt n p output) (hc : cursor < n) :
    Spoilt n p (setElement output cursor [space]) := by
  obtain ⟨hone, hself⟩ := h.toOneEach.setElement hc
  refine ⟨hone, ?_⟩
  by_cases hp : cursor = p
  · exact hp ▸ hself
  · rw [Script.setElement, if_pos (h.length ▸ hc), getElem?_set_ne hp]
    exact h.blank

theorem OneEach.fillSpaces (h : OneEach n output) (hc : cursor + m ≤ n) :
    OneEach n (fillSpaces m cursor output) := by
  induction m generalizing cursor output with
  | zero => exact h
  | succ m ih => exact ih (h.setElement (by lia)).toOneEach (by lia)

theorem Spoilt.fillSpaces (h : Spoilt n p output) (hc : cursor + m ≤ n) :
    Spoilt n p (fillSpaces m cursor output) := by
  induction m generalizing cursor output with
  | zero => exact h
  | succ m ih => exact ih (h.setElement (by lia)) (by lia)

theorem lineEnd_bounds (s : Text) (i : Nat) : i ≤ lineEnd s i ∧ lineEnd s i ≤ i + s.length := by
  induction s generalizing i with
  | nil => exact ⟨le_rfl, le_rfl⟩
  | cons u s ih =>
    rw [lineEnd, length_cons]
    split
    · exact ⟨le_rfl, Nat.le_add_right _ _⟩
    · have := ih (i + 1)
      lia

variable {source : Text} {st : Scan}

/-- Masking a line. -/
theorem Spoilt.mask (h : Spoilt source.length p (st.output.getD (codePoints source))) :
    ∃ output, (st.mask source).output = some output ∧ Spoilt source.length p output := by
  refine ⟨_, rfl, ?_⟩
  by_cases hle : st.index ≤ source.length
  · refine h.fillSpaces ?_
    have := lineEnd_bounds (source.drop st.index) st.index
    rw [length_drop] at this
    lia
  · have hnil : source.drop st.index = [] := drop_eq_nil_of_le (by lia)
    rw [hnil, lineEnd, Nat.sub_self]
    exact h

/-- Masking a line blanks its first character. -/
theorem OneEach.mask (h : OneEach source.length (st.output.getD (codePoints source))) {s : Text}
    (hdrop : source.drop st.index = u :: s) (hu : isLineTerminator u = false) :
    ∃ output, (st.mask source).output = some output ∧ Spoilt source.length st.index output := by
  have hlength := congrArg List.length hdrop
  rw [length_drop, length_cons] at hlength
  have hbounds := lineEnd_bounds s (st.index + 1)
  have hend : lineEnd (source.drop st.index) st.index = lineEnd s (st.index + 1) := by
    rw [hdrop, lineEnd, if_neg (by rw [hu]; exact Bool.false_ne_true)]
  obtain ⟨m, hm⟩ := Nat.exists_eq_add_of_le hbounds.1
  have hcount : lineEnd s (st.index + 1) - st.index = m + 1 := by lia
  refine ⟨_, rfl, ?_⟩
  rw [hend, hcount]
  exact (h.setElement (by lia)).fillSpaces (by lia)

/-- What is spoilt stays so. -/
theorem Scan.step_spoilt (h : ∃ output, st.output = some output ∧ Spoilt source.length p output) :
    ∃ output, (st.step source).output = some output ∧ Spoilt source.length p output := by
  have hchar : ∀ st' : Scan, st'.output = st.output →
      ∃ output, (Scan.char source st').output = some output ∧ Spoilt source.length p output := by
    intro st' hout
    obtain ⟨output, hst, hok⟩ := h
    have hmask : ∃ output, (st'.mask source).output = some output ∧
        Spoilt source.length p output :=
      Spoilt.mask (by rw [hout, hst]; exact hok)
    have hsame : ∃ output, st'.output = some output ∧ Spoilt source.length p output :=
      ⟨output, hout.trans hst, hok⟩
    cases hdrop : source.drop st'.index with
    | nil => rwa [Scan.char, hdrop]
    | cons u s =>
      rw [Scan.char_cons hdrop]
      split
      · exact hsame
      · split
        · exact hsame
        · split
          · exact hsame
          · split
            · exact hsame
            · split
              · exact hmask
              · split
                · exact hmask
                · exact hsame
  rw [Scan.step]
  split
  · exact hchar _ rfl
  · split
    · exact h
    · exact hchar _ rfl

theorem scan_spoilt (fuel : Nat)
    (h : ∃ output, st.output = some output ∧ Spoilt source.length p output) :
    ∃ output, (scan source fuel st).output = some output ∧ Spoilt source.length p output := by
  induction fuel generalizing st with
  | zero => exact h
  | succ fuel ih =>
    rw [scan]
    split
    · exact ih (Scan.step_spoilt h)
    · exact h

theorem getElem?_flatten_units (h : ∀ x ∈ output, x.length = 1) (hp : output[p]? = some [u]) :
    output.flatten[p]? = some u := by
  induction output generalizing p with
  | nil => exact nomatch hp
  | cons y output ih =>
    obtain ⟨v, rfl⟩ := length_eq_one_iff.mp (h y mem_cons_self)
    cases p with
    | zero =>
      have : [v] = [u] := Option.some.inj hp
      simpa using this
    | succ p => exact ih (fun y hy => h y (mem_cons_of_mem _ hy)) hp

variable {e : Element} {es : List Element} {i : Nat} {b : Bool}

theorem OneEach.outputAfter (h : OneEach n output) (hle : i + e.text.length ≤ n) :
    OneEach n (outputAfter i e output) := by
  rw [Script.outputAfter]
  split
  · exact h.fillSpaces hle
  · exact h

theorem eq_shift_of_isShift (h : e.isShift = true) : e = .token 0x3c [0x3c] := by
  cases e with
  | token u tail =>
    obtain ⟨rfl, rfl⟩ := List.cons.inj (beq_iff_eq.mp h)
    rfl
  | _ => exact absurd h Bool.false_ne_true

/-- **The scan of a shift in front of `!--`** blanks the second `<`. -/
theorem scan_shift_here (hat : At source (.token 0x3c [0x3c] :: es) i b output st)
    (hlex : Lexed b (.token 0x3c [0x3c] :: es)) (hone : OneEach source.length output)
    (hdrop : source.drop i = textOf (.token 0x3c [0x3c] :: es))
    (hopen : htmlOpen.tail <+: textOf es) :
    ∃ st', Within source st st' 2 ∧
      ∃ output', st'.output = some output' ∧ Spoilt source.length (i + 1) output' := by
  obtain ⟨s, hs⟩ := hopen
  have hrest : textOf es = 0x21 :: 0x2d :: 0x2d :: s := hs.symm
  have hsource : source.drop i = 0x3c :: 0x3c :: 0x21 :: 0x2d :: 0x2d :: s := by
    rw [hdrop, textOf_cons, hrest]
    rfl
  have hlength := congrArg List.length hsource
  rw [length_drop] at hlength
  simp only [length_cons] at hlength
  obtain ⟨spans, hstep, hok⟩ := hat.step hlex rfl
  obtain ⟨rfl, rfl, hout, -⟩ := hat
  obtain ⟨hchars, -, -, hline, hblock, hopen, hclose⟩ := hlex.1
  have hdrop' : source.drop st.index = 0x3c :: ([0x3c] ++ textOf es) := by
    rw [hsource, hrest]
    rfl
  have hchar : Scan.char source { st with spans := spans } =
      ⟨st.index + 1, spans, false, st.output⟩ :=
    Scan.char_other hdrop' rfl rfl hline hblock hopen hclose
  have hfirst := Within.round (by omega) (hstep.trans hchar) Nat.one_pos
  rw [spansOf_skip rfl] at hok
  -- the next round sees `<!--`
  obtain ⟨spans', hstep', -⟩ := @Scan.step_char source ⟨st.index + 1, spans, false, st.output⟩ _ _
    (hok.mono (Nat.le_succ _))
    (fun l hl => ⟨(spansOf_bounds hl).1, literalSpan_nonempty hlex.2 hl⟩)
    (fun c hc => (Nat.le_succ _).trans (spansOf_bounds hc).1)
  have hnext : source.drop (st.index + 1) = 0x3c :: 0x21 :: 0x2d :: 0x2d :: s := by
    rw [← drop_drop, hsource]
    rfl
  have hmask : Scan.char source ⟨st.index + 1, spans', false, st.output⟩ =
      Scan.mask source ⟨st.index + 1, spans', false, st.output⟩ := by
    rw [Scan.char_cons hnext, if_neg (by decide), if_neg (by decide),
      if_neg (by simp [lineComment]), if_neg (by simp [blockOpen]), if_pos (by simp [htmlOpen])]
  refine ⟨_, hfirst.trans (Within.round ?_ (hstep'.trans hmask) Nat.one_pos), ?_⟩
  · simp only
    omega
  · exact OneEach.mask (by rw [hout]; exact hone) hnext rfl

/-- It reaches the first such shift. -/
theorem scan_shift (els : List Element) :
    ∀ {i b output st}, At source els i b output st → Lexed b els → ¬ ShiftFree els →
      OneEach source.length output → source.drop i = textOf els → i ≤ source.length →
      ∃ q st', Within source st st' (textOf els).length ∧ (maskedText els)[q]? = some 0x3c ∧
        ∃ output', st'.output = some output' ∧ Spoilt source.length (i + q) output' := by
  induction els with
  | nil => exact fun _ _ h => absurd trivial h
  | cons e es ih =>
    intro i b output st hat hlex hshift hone hdrop hle
    have hlen := congrArg List.length hdrop
    rw [length_drop, textOf_cons, length_append] at hlen
    by_cases hhere : e.isShift = true → ¬ htmlOpen.tail <+: textOf es
    · obtain ⟨st', hwithin, hat'⟩ := scan_element hat hlex hdrop hhere
      have hdrop' : source.drop (i + e.text.length) = textOf es := by
        rw [← drop_drop, hdrop, textOf_cons, drop_left]
      obtain ⟨q, st'', hwithin', hq, hspoilt⟩ := ih hat' hlex.2
        (fun hfree => hshift ⟨hhere, hfree⟩) (hone.outputAfter (by lia)) hdrop' (by lia)
      refine ⟨e.text.length + q, st'', ?_, ?_, Nat.add_assoc i _ q ▸ hspoilt⟩
      · rw [textOf_cons, length_append]
        exact hwithin.trans hwithin'
      · rw [maskedText_cons, ← length_text_masked, getElem?_append_right (Nat.le_add_right _ _),
          Nat.add_sub_cancel_left]
        exact hq
    · push Not at hhere
      obtain ⟨hshift', hopen⟩ := hhere
      obtain rfl := eq_shift_of_isShift hshift'
      obtain ⟨st', ⟨k, hk, hscan⟩, hspoilt⟩ := scan_shift_here hat hlex hone hdrop hopen
      refine ⟨1, st', ⟨k, hk.trans ?_, hscan⟩, ?_, hspoilt⟩
      · rw [textOf_cons, length_append]
        exact Nat.le_add_right 2 _
      · rw [maskedText_cons, textOf_masked_other rfl]
        rfl

theorem includes_append {pat b : Text} (h : includes pat b = true) (a : Text) :
    includes pat (a ++ b) = true := by
  induction a with
  | nil => exact h
  | cons u a ih => exact includes_cons.mpr (Or.inr ih)

theorem includes_of_shift (h : ¬ ShiftFree els) :
    includes htmlOpen (textOf els) = true := by
  induction els with
  | nil => exact absurd trivial h
  | cons e es ih =>
    rw [textOf_cons]
    by_cases hrest : ShiftFree es
    · obtain ⟨hshift, hopen⟩ : e.isShift = true ∧ htmlOpen.tail <+: textOf es := by
        by_contra hnot
        exact h ⟨fun hs ho => hnot ⟨hs, ho⟩, hrest⟩
      obtain rfl := eq_shift_of_isShift hshift
      obtain ⟨s, hs⟩ := hopen
      rw [← hs]
      exact @includes_between htmlOpen (by decide) [0x3c] s
    · exact includes_append (ih hrest) e.text

end

/-- Without surrogate pairs, a shift in front of `!--` is spoilt. -/
theorem normalize_ne_of_shift (hlex : Lexed true els) (hparse : Reports parse els)
    (hpairs : ∀ q, ¬ PairAt (textOf els) q) (hshift : ¬ ShiftFree els) :
    normalizeScriptHtmlLikeComments parse (textOf els) ≠ maskedText els := by
  have hsingles : codePoints (textOf els) = singles (textOf els) := by
    have := @codePoints_append (textOf els) [] fun q _ => by rw [append_nil]; exact hpairs q
    rwa [append_nil, codePoints, append_nil] at this
  have hone : OneEach (textOf els).length (codePoints (textOf els)) := by
    rw [hsingles]
    refine ⟨length_singles _, fun x hx => ?_⟩
    obtain ⟨u, -, rfl⟩ := mem_map.mp hx
    rfl
  obtain ⟨q, st, ⟨k, hk, hscan⟩, hq, hspoilt⟩ :=
    scan_shift els (at_start hparse) hlex hshift hone rfl (Nat.zero_le _)
  obtain ⟨fuel, hfuel⟩ := Nat.exists_eq_add_of_le
    (hk.trans (Nat.le_add_right _ (collectLiteralSpans parse (textOf els)).length))
  obtain ⟨output, hout, hspoilt⟩ := scan_spoilt fuel hspoilt
  have hresult : normalizeScriptHtmlLikeComments parse (textOf els) = output.flatten := by
    rw [normalizeScriptHtmlLikeComments, includes_of_shift hshift]
    show (scan _ _ _).output.elim (textOf els) List.flatten = _
    rw [hfuel, hscan, hout]
    rfl
  intro heq
  have hblank := getElem?_flatten_units hspoilt.units hspoilt.blank
  rw [← hresult, heq, Nat.zero_add, hq] at hblank
  exact absurd (Option.some.inj hblank) (by decide)

/-! ### The exact condition -/

/-- What is promised of a script: its HTML-like comments, and they only, become spaces, so
that the length and the line terminators stay; and the result stays as it is. -/
structure Exact (parse : Text → List ProtectedSpan) (els : List Element) : Prop where
  length : (normalizeScriptHtmlLikeComments parse (textOf els)).length = (textOf els).length
  terminators : ∀ (i u : Nat), isLineTerminator u = true →
    ((normalizeScriptHtmlLikeComments parse (textOf els))[i]? = some u ↔
      (textOf els)[i]? = some u)
  masked : normalizeScriptHtmlLikeComments parse (textOf els) = maskedText els
  again : normalizeScriptHtmlLikeComments parse
      (normalizeScriptHtmlLikeComments parse (textOf els)) =
    normalizeScriptHtmlLikeComments parse (textOf els)

theorem Blanked.terminators (h : Blanked a t) (i : Nat) {u : Nat} (hu : isLineTerminator u = true) :
    t[i]? = some u ↔ a[i]? = some u := by
  induction h generalizing i with
  | nil => rfl
  | @cons x y a t hxy _ ih =>
    cases i with
    | succ i => exact ih i
    | zero =>
      rcases hxy with rfl | ⟨rfl, hx⟩
      · rfl
      · refine iff_of_false (fun hy => ?_) fun hy => ?_
        · exact absurd (Option.some.inj hy ▸ hu) (by decide)
        · exact absurd (hx.symm.trans (Option.some.inj hy ▸ hu)) Bool.false_ne_true

theorem exact_of_masked (hlex : Lexed true els)
    (hmask : normalizeScriptHtmlLikeComments parse (textOf els) = maskedText els)
    (hagain : normalizeScriptHtmlLikeComments parse (maskedText els) = maskedText els) :
    Exact parse els := by
  have hblank := blanked_maskedText (commentsEnd_of_lexed hlex)
  refine ⟨?_, fun i u hu => ?_, hmask, ?_⟩
  · rw [hmask]
    exact hblank.length_eq.symm
  · rw [hmask]
    exact hblank.terminators i hu
  · rw [hmask, hagain]

theorem pairsBehind_iff_pairFree : PairsBehind 0 (textOf els) 0 els ↔ PairFree els := by
  simp [PairsBehind, PairFree]

/-- Where shifts do no harm, surrogate pairs decide. -/
theorem exact_iff_pairFree (hlex : Lexed true els) (hparse : Reports parse els)
    (hparse' : Reports parse (maskElements els)) (hshift : ShiftFree els) :
    Exact parse els ↔ PairFree els := by
  have hmask := normalize_eq hlex hparse hshift
  rw [← pairsBehind_iff_pairFree]
  constructor
  · intro hexact
    exact pairsBehind_of_exact els 0 [] [] rfl (commentsEnd_of_lexed hlex)
      (hmask.symm.trans hexact.masked)
  · intro hpairs
    exact exact_of_masked hlex
      (hmask.trans (fillComments_exact els 0 [] [] rfl (commentsEnd_of_lexed hlex) hpairs))
      (normalize_masked hlex hshift hparse')

/-- **HTML-like comments are removed exactly** if no surrogate pair stands in front of the
end of one, but inside of one that ends the text, and no shift in front of `!--`.  Where not
both of these can go wrong, exactly if. -/
theorem normalize_exact (hlex : Lexed true els) (hparse : Reports parse els)
    (hparse' : Reports parse (maskElements els)) :
    (PairFree els ∧ ShiftFree els → Exact parse els) ∧
      (ShiftFree els ∨ (∀ q, ¬ PairAt (textOf els) q) →
        Exact parse els → PairFree els ∧ ShiftFree els) := by
  constructor
  · rintro ⟨hpairs, hshift⟩
    exact (exact_iff_pairFree hlex hparse hparse' hshift).mpr hpairs
  · intro hone hexact
    have hshift : ShiftFree els := by
      rcases hone with hshift | hnone
      · exact hshift
      · by_contra hshift
        exact normalize_ne_of_shift hlex hparse hnone hshift hexact.masked
    exact ⟨(exact_iff_pairFree hlex hparse hparse' hshift).mp hexact, hshift⟩

/-! ### Scripts -/

theorem not_pairAt_of_plain {source : Text} (h : ∀ u ∈ source, isHighSurrogate u = false)
    (q : Nat) : ¬ PairAt source q := by
  rintro ⟨u, hu, -, -, hhigh, -⟩
  exact Bool.false_ne_true ((h u (mem_of_getElem? hu)).symm.trans hhigh)

/-- `'a'` and, on the next line, `<!-- b` -/
def plainScript : List Element :=
  [.literal [0x27, 0x61, 0x27], .newline 0x0a, .htmlOpenComment [0x20, 0x62]]

/-- `'😀';<!-- x` -/
def emojiScript : List Element :=
  [.literal [0x27, 0xd83d, 0xde00, 0x27], .token 0x3b [], .htmlOpenComment [0x20, 0x78]]

/-- `x<<!--y` -/
def shiftScript : List Element :=
  [.token 0x78 [], .token 0x3c [0x3c], .token 0x21 [], .token 0x2d [0x2d], .token 0x79 []]

theorem plainScript_lexed : Lexed true plainScript := by
  simp [plainScript, Lexed, Element.Fits, OnLine, AtLineEnd, textOf, isLineTerminator]

theorem reports_of_literals (h : parse (textOf els) = spansOf Element.isLiteral 0 els) :
    Reports parse els :=
  ⟨fun _ hl => h ▸ hl, fun _ hx => Or.inl (h ▸ hx)⟩

theorem normalize_exact_plain : Exact (fun _ => [⟨0, 3⟩]) plainScript :=
  (normalize_exact plainScript_lexed (reports_of_literals (by decide))
    (reports_of_literals (by decide))).1
    ⟨fun _ _ q hpair => absurd hpair (not_pairAt_of_plain (by decide) q),
      fun h => absurd h (by decide), fun h => absurd h (by decide),
      fun h => absurd h (by decide), trivial⟩

theorem emojiScript_lexed : Lexed true emojiScript := by
  simp [emojiScript, Lexed, Element.Fits, OnLine, AtLineEnd, textOf, isLineTerminator,
    isWhiteSpace, isSpace, Element.text, Element.closes, Script.lineComment, blockOpen, htmlOpen,
    htmlClose]

theorem shiftScript_lexed : Lexed true shiftScript := by
  simp [shiftScript, Lexed, Element.Fits, textOf, isLineTerminator, isWhiteSpace, isSpace,
    Element.text, Element.closes, Script.lineComment, blockOpen, htmlOpen, htmlClose]

/-- A literal outside the Basic Multilingual Plane shifts the spaces; a shift is taken for a
comment. -/
theorem normalize_not_exact :
    (Lexed true emojiScript ∧ Reports (fun _ => [⟨0, 4⟩]) emojiScript ∧
      Reports (fun _ => [⟨0, 4⟩]) (maskElements emojiScript) ∧
      ¬ Exact (fun _ => [⟨0, 4⟩]) emojiScript) ∧
    Lexed true shiftScript ∧ Reports (fun _ => []) shiftScript ∧
      Reports (fun _ => []) (maskElements shiftScript) ∧ ¬ Exact (fun _ => []) shiftScript := by
  refine ⟨⟨emojiScript_lexed, reports_of_literals (by decide), reports_of_literals (by decide),
    fun h => ?_⟩, shiftScript_lexed, reports_of_literals (by decide),
    reports_of_literals (by decide), fun h => ?_⟩
  · have hmasked := h.masked
    rw [normalizeScriptHtmlLikeComments, collectLiteralSpans, mergeSort_singleton] at hmasked
    exact absurd hmasked (by decide)
  · have hmasked := h.masked
    rw [normalizeScriptHtmlLikeComments, collectLiteralSpans, mergeSort_nil] at hmasked
    exact absurd hmasked (by decide)

end Js2Wasm.Script
