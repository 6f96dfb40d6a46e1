import Js2Wasm.Regex.AnnexB

/-! # The class parser against the Annex B grammar

The parser's escapes are the grammar's, alternative by alternative; its member loop
follows a derivation member by member, as long as no dash comes after the operand
of a dash that a class escape opened.
-/
namespace Js2Wasm.Regex.AnnexB

variable {u e : UInt16}

/-! ### Reading productions -/

theorem isUnit_iff {c : Char} : isUnit c u = true ↔ u.toNat = c.toNat := by
  simp [isUnit]

theorem unitBetween_iff {lo hi : Char} :
    unitBetween lo hi u = true ↔ lo.toNat ≤ u.toNat ∧ u.toNat ≤ hi.toNat := by
  simp [unitBetween]

/-! ### Legacy octal escapes -/

/-- Does an octal digit follow? -/
def octalAhead (src : JsString) : Bool := src.head?.any (unitBetween '0' '7')

theorem octalDigits_stop {src : JsString} (h : octalAhead src = false) (n v : Nat) :
    octalDigits n v src = (v, src) := by
  cases n with
  | zero => rfl
  | succ n =>
    cases src with
    | nil => rfl
    | cons d rest => rw [octalDigits, if_neg (by simpa [octalAhead] using h)]

/-- An octal digit ahead: its value, and what either side does with it. -/
theorem exists_octalDigit {src : JsString} (h : octalAhead src = true) :
    ∃ w rest, w < 8 ∧ octalDigit src = some (w, rest) ∧
      src.head?.any (unitBetween '0' '9') = true ∧ src.head?.any (unitBetween '8' '9') = false ∧
      ∀ n v, octalDigits (n + 1) v src =
        if 0o377 < v * 8 + w then (v, src) else octalDigits n (v * 8 + w) rest := by
  cases src with
  | nil => simp [octalAhead] at h
  | cons d rest =>
    have hd : unitBetween '0' '7' d = true := by simpa [octalAhead] using h
    have hrange := unitBetween_iff.mp hd
    simp only [Char.reduceToNat] at hrange
    refine ⟨d.toNat - 0x30, rest, by lia, ?_, ?_, ?_, fun n v => ?_⟩
    · rw [octalDigit, digit_cons, if_pos hd]
    · simp [unitBetween]
      lia
    · simp [unitBetween]
      lia
    · rw [octalDigits, if_pos hd]

/-- The parser's digit loop is the zero escape and the five octal productions. -/
theorem octal_eq (he : unitBetween '0' '7' e = true) (rest : JsString) :
    firstOf [ahead (!·.any (unitBetween '0' '9')) (digit '0' '0'), legacyOctalEscapeSequence]
      (e :: rest) = some (parseLegacyOctal (e :: rest)) := by
  have hrange := unitBetween_iff.mp he
  simp only [Char.reduceToNat] at hrange
  obtain ⟨v, hv⟩ : ∃ v, v = e.toNat - 0x30 := ⟨_, rfl⟩
  have htest : ∀ lo hi : Char,
      unitBetween lo hi e = decide (lo.toNat ≤ v + 48 ∧ v + 48 ≤ hi.toNat) := by
    intro lo hi
    rw [Bool.eq_iff_iff, unitBetween_iff, decide_eq_true_iff, hv, Nat.sub_add_cancel hrange.1]
  have h0 : unitBetween '0' '0' e = decide (v = 0) :=
    (htest _ _).trans (decide_eq_decide.mpr (by simp only [Char.reduceToNat]; lia))
  have h1 : unitBetween '1' '7' e = decide (v ≠ 0) :=
    (htest _ _).trans (decide_eq_decide.mpr (by simp only [Char.reduceToNat]; lia))
  have h3 : unitBetween '0' '3' e = decide (v ≤ 3) :=
    (htest _ _).trans (decide_eq_decide.mpr (by simp only [Char.reduceToNat]; lia))
  have h4 : unitBetween '4' '7' e = decide (¬ v ≤ 3) :=
    (htest _ _).trans (decide_eq_decide.mpr (by simp only [Char.reduceToNat]; lia))
  have hstart : parseLegacyOctal (e :: rest) = octalDigits 2 v rest := by
    rw [parseLegacyOctal, octalDigits, if_pos he, if_neg (by lia), hv, Nat.zero_mul, Nat.zero_add]
  rw [hstart]
  simp only [legacyOctalEscapeSequence, firstOf_cons, firstOf_nil, ahead, octalPair, digit_cons,
    h0, h1, h3, h4, ← hv]
  cases hd : octalAhead rest with
  | false =>
    have hd' : rest.head?.any (unitBetween '0' '7') = false := hd
    rw [octalDigits_stop hd]
    by_cases hz : v = 0
    · have h89 : rest.head?.any (unitBetween '0' '9') = rest.head?.any (unitBetween '8' '9') := by
        cases rest with
        | nil => rfl
        | cons d rest =>
          rw [List.head?_cons, Option.any_some, Bool.eq_false_iff, ne_eq, unitBetween_iff] at hd'
          rw [List.head?_cons, Option.any_some, Option.any_some, Bool.eq_iff_iff, unitBetween_iff,
            unitBetween_iff]
          simp only [Char.reduceToNat] at hd' ⊢
          lia
      cases h : rest.head?.any (unitBetween '8' '9') <;> simp [hz, h89, h]
    · simp [hz, hd']
  | true =>
    obtain ⟨w, rest', hw, hdigit, h09, h89, hcode⟩ := exists_octalDigit hd
    have hd' : rest.head?.any (unitBetween '0' '7') = true := hd
    rw [hcode, if_neg (show ¬ 0o377 < v * 8 + w by lia)]
    by_cases h3 : v ≤ 3
    · cases hx : octalAhead rest' with
      | false =>
        have hx' : rest'.head?.any (unitBetween '0' '7') = false := hx
        rw [octalDigits_stop hx]
        simp [h3, hd', h09, h89, hdigit, hx']
      | true =>
        obtain ⟨x, rest'', hx8, hdigit', -, -, hcode'⟩ := exists_octalDigit hx
        have hx' : rest'.head?.any (unitBetween '0' '7') = true := hx
        rw [hcode', if_neg (show ¬ 0o377 < (v * 8 + w) * 8 + x by lia)]
        by_cases hz : v = 0 <;>
          simp [h3, hz, hd', h09, h89, hdigit, hx', hdigit', octalDigits, Option.filter]
    · have hlast : octalDigits 1 (v * 8 + w) rest' = (v * 8 + w, rest') := by
        cases hx : octalAhead rest' with
        | false => exact octalDigits_stop hx 1 _
        | true =>
          obtain ⟨x, rest'', -, -, -, -, hcode'⟩ := exists_octalDigit hx
          rw [hcode']
          -- a third digit would take the value past 0o377
          split
          · rfl
          · lia
      rw [hlast]
      have hz : v ≠ 0 := by lia
      simp [h3, hz, hd', hdigit, Option.filter]

/-! ### Class atoms -/

theorem hexDigitRun_eq (count v : Nat) (src : JsString) :
    hexDigitRun count v src =
      if (src.take count).length = count ∧ (src.take count).all isHexDigit then
        some ((src.take count).foldl (fun v d => 16 * v + hexValue d) v, src.drop count)
      else none := by
  induction count generalizing v src with
  | zero => simp [hexDigitRun]
  | succ count ih =>
    cases src with
    | nil => simp [hexDigitRun]
    | cons e rest =>
      rw [hexDigitRun, ih]
      by_cases he : isHexDigit e = true <;> simp [he]

theorem hexDigitRun_zero (count : Nat) (src : JsString) :
    hexDigitRun count 0 src = hexDigits count src := hexDigitRun_eq count 0 src

/-- No hexadecimal digit is a brace. -/
theorem hexDigits_brace {src : JsString} (h : src.head?.any (isUnit '{') = true) (count : Nat) :
    hexDigits (count + 1) src = none := by
  cases src with
  | nil => simp at h
  | cons l rest =>
    have hl : l.toNat = 0x7b := by simpa [isUnit] using h
    simp [hexDigits, isHexDigit, unitBetween, hl]

/-- The ranges of a class escape. -/
def ClassEscape.ranges : ClassEscape → List (Nat × Nat)
  | .d => DIGIT
  | .D => NOT_DIGIT
  | .s => SPACE
  | .S => NOT_SPACE
  | .w => WORD
  | .W => NOT_WORD

/-- An atom as the parser returns it. -/
def ClassAtom.member : ClassAtom → ClassMember
  | .dash => .char 0x2d
  | .char code => .char code
  | .escape set => .shorthand set.ranges

/-- The grammar of the parser: it refuses `\u` in front of a brace, and takes `\k`
whatever the groups are. -/
def parsed : Grammar := ⟨false, false⟩

/-- The parser's member is the grammar's atom. -/
def Reads (src : JsString) : Option (ClassAtom × JsString) → Prop
  | some (a, rest) => parseClassMember false src = .ok (a.member, rest)
  | none => ∃ m, parseClassMember false src = .error m

/-- What stands behind a reverse solidus: an escape, or nothing in front of a `c`. -/
def escaped (G : Grammar) : Production ClassAtom := fun src =>
  (classEscape G src).or (if src.head?.any (isUnit 'c') then some (.char 0x5c, src) else none)

section Escaped

variable {c e : UInt16} (hc : isUnit '\\' c = true) (rest : JsString)
include hc

theorem reads_set (he : e.toNat ∈ [0x64, 0x44, 0x73, 0x53, 0x77, 0x57, 0x62]) :
    Reads (c :: e :: rest) (escaped parsed (e :: rest)) := by
  simp only [List.mem_cons, List.not_mem_nil, or_false] at he
  rcases he with he | he | he | he | he | he | he <;>
    simp [escaped, classEscape, chars, characterClassEscape, isUnit, he, Reads, parseClassMember,
      ClassAtom.member, ClassEscape.ranges, isUnit_iff.mp hc]

theorem reads_control (he : e.toNat ∈ [0x66, 0x6e, 0x72, 0x74, 0x76]) :
    Reads (c :: e :: rest) (escaped parsed (e :: rest)) := by
  simp only [List.mem_cons, List.not_mem_nil, or_false] at he
  rcases he with he | he | he | he | he <;>
    simp [escaped, classEscape, chars, characterClassEscape, isUnit, he, Reads,
      parseClassMember, ClassAtom.member, isUnit_iff.mp hc, parseEscapedCodeUnit, Except.map,
      characterEscape, controlEscape]

theorem reads_octal (he : unitBetween '0' '7' e = true) :
    Reads (c :: e :: rest) (escaped parsed (e :: rest)) := by
  have hrange := unitBetween_iff.mp he
  simp only [Char.reduceToNat] at hrange
  -- no letter is an octal digit
  have hno : ∀ c : Char, 55 < c.toNat → isUnit c e = false := fun c h => by
    rw [Bool.eq_false_iff, ne_eq, isUnit_iff]
    lia
  have hread := octal_eq he rest
  rw [firstOf_cons, firstOf_cons, firstOf_nil, Option.or_none] at hread
  have hchar : characterEscape parsed (e :: rest) = some (parseLegacyOctal (e :: rest)) := by
    simp only [characterEscape, firstOf_cons, firstOf_nil, controlEscape, terminal_cons, after_cons,
      hno, Char.reduceToNat, Nat.reduceLT, Bool.false_eq_true, if_false, Option.map_none,
      Option.none_or]
    rw [← Option.or_assoc, hread, Option.some_or]
  simp [escaped, classEscape, chars, characterClassEscape, hno, hchar, Reads, parseClassMember, hc,
    parseEscapedCodeUnit, he, Except.map, ClassAtom.member]

theorem reads_x (he : e.toNat = 0x78) :
    Reads (c :: e :: rest) (escaped parsed (e :: rest)) := by
  cases h : hexDigits 2 rest <;>
    simp [escaped, classEscape, chars, characterClassEscape, isUnit, unitBetween, he, Reads,
      parseClassMember, ClassAtom.member, isUnit_iff.mp hc, parseEscapedCodeUnit, Except.map,
      characterEscape, controlEscape, identityEscape, legacyOctalEscapeSequence, ahead, octalPair,
      parsed, hexDigitRun_zero, h]

theorem reads_u (he : e.toNat = 0x75) :
    Reads (c :: e :: rest) (escaped parsed (e :: rest)) := by
  cases hb : rest.head?.any (isUnit '{') with
  | true =>
    simp [escaped, classEscape, chars, characterClassEscape, isUnit, unitBetween, he, Reads,
      parseClassMember, isUnit_iff.mp hc, parseEscapedCodeUnit, Except.map, characterEscape,
      controlEscape, identityEscape, legacyOctalEscapeSequence, ahead, octalPair, parsed,
      hexDigitRun_zero, hexDigits_brace hb, hb]
  | false =>
    cases h : hexDigits 4 rest <;>
      simp [escaped, classEscape, chars, characterClassEscape, isUnit, unitBetween, he, Reads,
        parseClassMember, ClassAtom.member, isUnit_iff.mp hc, parseEscapedCodeUnit, Except.map,
        characterEscape, controlEscape, identityEscape, legacyOctalEscapeSequence, ahead, octalPair,
        parsed, hexDigitRun_zero, h, hb]

theorem reads_c (he : e.toNat = 0x63) :
    Reads (c :: e :: rest) (escaped parsed (e :: rest)) := by
  cases rest with
  | nil =>
    simp [escaped, classEscape, chars, characterClassEscape, isUnit, unitBetween, he, Reads,
      parseClassMember, ClassAtom.member, isUnit_iff.mp hc, parseEscapedCodeUnit, Except.map,
      characterEscape, controlEscape, identityEscape, legacyOctalEscapeSequence, ahead, octalPair,
      classControlLetter, asciiLetter]
  | cons l rest =>
    -- a letter, a digit or an underscore, or neither
    by_cases hletter : 97 ≤ l.toNat ∧ l.toNat ≤ 122 ∨ 65 ≤ l.toNat ∧ l.toNat ≤ 90 <;>
      have hletter' := hletter <;> rw [or_comm] at hletter' <;>
      by_cases hdigit : 48 ≤ l.toNat ∧ l.toNat ≤ 57 ∨ l.toNat = 95 <;>
      simp [escaped, classEscape, chars, characterClassEscape, isUnit_iff, unitBetween_iff, he,
        Reads, parseClassMember, ClassAtom.member, isUnit_iff.mp hc, parseEscapedCodeUnit, Except.map,
        characterEscape, controlEscape, identityEscape, legacyOctalEscapeSequence, ahead, octalPair,
        classControlLetter, asciiLetter, isControlLetter, Option.filter, hletter, hletter', hdigit]

theorem reads_identity (hset : e.toNat ∉ [0x64, 0x44, 0x73, 0x53, 0x77, 0x57, 0x62])
    (hcontrol : e.toNat ∉ [0x66, 0x6e, 0x72, 0x74, 0x76]) (hoctal : unitBetween '0' '7' e = false)
    (hx : e.toNat ≠ 0x78) (hu : e.toNat ≠ 0x75) (hcc : e.toNat ≠ 0x63) :
    Reads (c :: e :: rest) (escaped parsed (e :: rest)) := by
  have hsub : unitBetween '0' '0' e = false ∧ unitBetween '1' '7' e = false ∧
      unitBetween '0' '3' e = false ∧ unitBetween '4' '7' e = false := by
    simp only [Bool.eq_false_iff, ne_eq, unitBetween_iff, Char.reduceToNat] at hoctal ⊢
    lia
  simp only [List.mem_cons, List.not_mem_nil, or_false, not_or] at hset hcontrol
  simp [escaped, classEscape, chars, characterClassEscape, isUnit, hset, hcontrol, hoctal, hx, hu,
    hcc, hsub, Reads, parseClassMember, ClassAtom.member, isUnit_iff.mp hc, parseEscapedCodeUnit,
    Except.map, characterEscape, controlEscape, identityEscape, legacyOctalEscapeSequence, ahead,
    octalPair, parsed]

/-- Every escape the parser reads in a class is the grammar's, case by case. -/
theorem reads_escaped (src : JsString) : Reads (c :: src) (escaped parsed src) := by
  cases src with
  | nil => exact ⟨"unexpected end of pattern", by
      simp [parseClassMember, hc, parseEscapedCodeUnit, Except.map]⟩
  | cons e rest =>
    by_cases hset : e.toNat ∈ [0x64, 0x44, 0x73, 0x53, 0x77, 0x57, 0x62]
    · exact reads_set hc rest hset
    by_cases hcontrol : e.toNat ∈ [0x66, 0x6e, 0x72, 0x74, 0x76]
    · exact reads_control hc rest hcontrol
    by_cases hoctal : unitBetween '0' '7' e = true
    · exact reads_octal hc rest hoctal
    by_cases hx : e.toNat = 0x78
    · exact reads_x hc rest hx
    by_cases hu : e.toNat = 0x75
    · exact reads_u hc rest hu
    by_cases hcc : e.toNat = 0x63
    · exact reads_c hc rest hcc
    exact reads_identity hc rest hset hcontrol (Bool.eq_false_iff.mpr hoctal) hx hu hcc

end Escaped

theorem classAtom_cons (G : Grammar) (e : UInt16) (rest : JsString) :
    classAtom G (e :: rest) =
      if isUnit '-' e then some (.dash, rest)
      else if isUnit '\\' e then escaped G rest
      else if isUnit ']' e then none
      else some (.char e.toNat, rest) := by
  by_cases hdash : isUnit '-' e = true
  · simp [classAtom, hdash]
  by_cases hback : isUnit '\\' e = true
  · cases h : rest.head?.any (isUnit 'c') <;>
      simp [classAtom, classAtomNoDash, chars, ahead, escaped, Option.filter, hdash, hback, h]
  by_cases hclose : isUnit ']' e = true <;>
    simp [classAtom, classAtomNoDash, chars, ahead, hdash, hback, hclose]

/-- **One member of a class is one atom of the grammar.** -/
theorem reads_classAtom {src : JsString} (hopen : src.head?.all (isUnit ']') = false) :
    Reads src (classAtom parsed src) := by
  cases src with
  | nil => simp at hopen
  | cons e rest =>
    have hclose : isUnit ']' e = false := by simpa using hopen
    rw [classAtom_cons]
    by_cases hback : isUnit '\\' e = true
    · have hdash : isUnit '-' e = false := by
        have := isUnit_iff.mp hback
        simp [isUnit, this]
      simp only [hdash, hback, Bool.false_eq_true, if_false, if_true]
      exact reads_escaped hback rest
    · by_cases hdash : isUnit '-' e = true
      · have he := isUnit_iff.mp hdash
        simp [Reads, parseClassMember, ClassAtom.member, hdash, hback, he]
      · simp [Reads, parseClassMember, ClassAtom.member, hdash, hback, hclose]

/-- ClassAtomNoDash is ClassAtom in front of anything but a dash. -/
theorem classAtomNoDash_eq (G : Grammar) (src : JsString) :
    classAtomNoDash G src = if src.head?.any (isUnit '-') then none else classAtom G src := by
  cases src with
  | nil => rfl
  | cons e rest =>
    cases hdash : isUnit '-' e with
    | false => simp [classAtom, hdash]
    | true =>
      have hback : isUnit '\\' e = false := by
        have := isUnit_iff.mp hdash
        simp [isUnit, this]
      simp [classAtomNoDash, chars, ahead, hdash, hback]

variable {mid after operand : JsString} {close bracket : UInt16} {lo n hi rounds u v : Nat}
    {b a : ClassAtom} {G : Grammar} {r : ClassAtom × JsString} {named : Bool} {m : String}
    {items : List ClassItem} {α : Type} {i : ClassItem}

variable {rest : JsString}

section
variable {src : JsString}

theorem classAtomNoDash_some (h : classAtomNoDash G src = some (a, rest)) :
    src.head?.any (isUnit '-') = false ∧ classAtom G src = some (a, rest) := by
  rw [classAtomNoDash_eq] at h
  split at h
  · cases h
  · exact ⟨Bool.eq_false_iff.mpr ‹_›, h⟩

/-! ### What the parser consumes -/

theorem octalDigits_length (n v : Nat) (src : JsString) :
    (octalDigits n v src).2.length ≤ src.length := by
  induction n generalizing v src with
  | zero => simp [octalDigits]
  | succ n ih =>
    cases src with
    | nil => simp [octalDigits]
    | cons d rest =>
      rw [octalDigits]
      split
      · simp only
        split
        · exact le_rfl
        · exact (ih _ rest).trans (Nat.le_succ _)
      · exact le_rfl

variable {count : Nat}

theorem hexDigits_length (h : hexDigits count src = some (v, rest)) :
    rest.length ≤ src.length := by
  unfold hexDigits at h
  split at h
  · cases h
    simp
  · cases h

/-- A reader's result leaves at most `n` code units. -/
def Leaves {α : Type} (n : Nat) (r : Except String (α × JsString)) : Prop :=
  ∀ p, r = .ok p → p.2.length ≤ n

theorem leaves_ok {p : α × JsString} (h : p.2.length ≤ n) : Leaves n (.ok p) := by
  intro q hq
  cases hq
  exact h

theorem leaves_error (n : Nat) (m : String) :
    Leaves n (.error m : Except String (α × JsString)) := by
  intro p hp
  cases hp

theorem leaves_ite {c : Prop} [Decidable c] {x y : Except String (α × JsString)} (hx : Leaves n x)
    (hy : Leaves n y) : Leaves n (if c then x else y) := by
  split
  · exact hx
  · exact hy

theorem leaves_hex {unicode : Bool} (hrest : rest.length ≤ n) :
    Leaves n (match hexDigits count rest with
      | some (v, rest) => Except.ok (v, rest)
      | none => if !unicode then .ok (v, rest) else .error m) := by
  split
  · rename_i h
    exact leaves_ok ((hexDigits_length h).trans hrest)
  · exact leaves_ite (leaves_ok hrest) (leaves_error _ _)

theorem leaves_parseEscapedCodeUnit (unicode inClass : Bool) (src : JsString) :
    Leaves src.length (parseEscapedCodeUnit unicode inClass src) := by
  cases src with
  | nil => exact leaves_error _ _
  | cons e rest =>
    have hrest : rest.length ≤ (e :: rest).length := Nat.le_succ _
    unfold parseEscapedCodeUnit
    iterate 5 refine leaves_ite (leaves_ok hrest) ?_
    refine leaves_ite (leaves_ok (octalDigits_length 3 0 _)) ?_
    refine leaves_ite (leaves_ok hrest) ?_
    refine leaves_ite ?_ (leaves_ite (leaves_hex hrest) (leaves_ite ?_ (leaves_ok hrest)))
    · split
      · exact leaves_ok (by simp only [List.length_tail, List.length_cons]; lia)
      · exact leaves_ite (leaves_ok le_rfl) (leaves_error _ _)
    · exact leaves_ite (leaves_error _ _) (leaves_hex hrest)

theorem leaves_parseClassMember (unicode : Bool) (e : UInt16) (src : JsString) :
    Leaves src.length (parseClassMember unicode (e :: src)) := by
  have hescape : Leaves src.length
      ((parseEscapedCodeUnit unicode true src).map fun p => (ClassMember.char p.1, p.2)) := by
    intro p hp
    cases hq : parseEscapedCodeUnit unicode true src with
    | error m => rw [hq] at hp; cases hp
    | ok q =>
      rw [hq] at hp
      cases hp
      exact leaves_parseEscapedCodeUnit unicode true src q hq
  unfold parseClassMember
  refine leaves_ite ?_ (leaves_ok le_rfl)
  cases src with
  | nil => exact hescape
  | cons c rest =>
    iterate 7 refine leaves_ite (leaves_ok (Nat.le_succ _)) ?_
    exact hescape

/-! ### Rounds of the member loop -/

/-- The ranges of an atom. -/
def ClassAtom.ranges : ClassAtom → List (Nat × Nat)
  | .dash => [(0x2d, 0x2d)]
  | .char code => [(code, code)]
  | .escape set => set.ranges

/-- The ranges the parser pushes for a member. -/
def ClassItem.ranges : ClassItem → List (Nat × Nat)
  | .atom a => a.ranges
  | .range a b =>
    match a.value, b.value with
    | some lo, some hi => [(lo, hi)]
    | _, _ => a.ranges ++ (0x2d, 0x2d) :: b.ranges

theorem classAtom_open (h : classAtom G src = some (a, rest)) :
    src.head?.all (isUnit ']') = false := by
  cases src with
  | nil => cases h
  | cons e src =>
    rw [classAtom_cons] at h
    cases hclose : isUnit ']' e with
    | false => simpa using hclose
    | true =>
      have he := isUnit_iff.mp hclose
      simp [isUnit, he] at h

theorem parseClassMember_eq (h : classAtom parsed src = some (a, rest)) :
    parseClassMember false src = .ok (a.member, rest) := by
  have hread := reads_classAtom (classAtom_open h)
  rwa [h] at hread

theorem classAtom_length (h : classAtom parsed src = some (a, rest)) :
    rest.length < src.length := by
  cases src with
  | nil => cases h
  | cons e src =>
    exact Nat.lt_succ_of_le (leaves_parseClassMember false e src _ (parseClassMember_eq h))

theorem dashOperand_eq_some :
    dashOperand src = some operand ↔
      DashBefore operand src ∧ operand.head?.all (isUnit ']') = false := by
  unfold dashOperand DashBefore
  split
  · rename_i d c rest
    by_cases hd : isUnit '-' d = true <;> by_cases hc : isUnit ']' c = true <;>
      simp [hd, hc] <;> grind
  · rename_i hne
    simp only [reduceCtorEq, false_iff, not_and]
    rintro ⟨d, -, rfl⟩
    cases operand with
    | nil => simp
    | cons c rest => exact absurd rfl (hne d c rest)

theorem dashOperand_length (h : dashOperand src = some operand) :
    operand.length < src.length := by
  obtain ⟨⟨d, -, rfl⟩, -⟩ := dashOperand_eq_some.mp h
  exact Nat.lt_succ_self _

theorem parseClassItem_atom (h : classAtom parsed src = some (a, mid))
    (hmid : dashOperand mid = none) : parseClassItem false src = .ok (a.ranges, mid) := by
  unfold parseClassItem
  rw [parseClassMember_eq h]
  cases a <;> simp [hmid, ClassAtom.member, ClassAtom.ranges, bind, Except.bind, pure, Except.pure]

theorem parseClassItem_escape {set : ClassEscape}
    (h : classAtom parsed src = some (.escape set, mid)) (hmid : dashOperand mid = some operand) :
    parseClassItem false src = .ok (set.ranges ++ [(0x2d, 0x2d)], operand) := by
  unfold parseClassItem
  rw [parseClassMember_eq h]
  simp [hmid, ClassAtom.member, bind, Except.bind, pure, Except.pure]

theorem member_of_value (h : a.value = some v) : a.member = .char v ∧ a.ranges = [(v, v)] := by
  cases a <;> cases h <;> exact ⟨rfl, rfl⟩

theorem inOrder_range (ha : a.value = some lo) (hb : b.value = some hi) :
    (ClassItem.range a b).InOrder ↔ lo ≤ hi := by
  simp [ClassItem.InOrder, ha, hb]

theorem ranges_range (ha : a.value = some lo) (hb : b.value = some hi) :
    (ClassItem.range a b).ranges = [(lo, hi)] := by
  simp only [ClassItem.ranges, ha, hb]

theorem ranges_union (h : a.value = none ∨ b.value = none) :
    (ClassItem.range a b).ranges = a.ranges ++ (0x2d, 0x2d) :: b.ranges := by
  simp only [ClassItem.ranges]
  split
  · rename_i ha hb
    rw [ha, hb] at h
    simp at h
  · rfl

theorem inOrder_union (h : a.value = none ∨ b.value = none) : (ClassItem.range a b).InOrder := by
  intro lo hlo hi hhi
  rw [hlo, hhi] at h
  simp at h

theorem parseClassItem_range (h : classAtom parsed src = some (a, mid))
    (hlo : a.value = some lo) (hmid : dashOperand mid = some operand)
    (hb : classAtom parsed operand = some (b, after)) :
    parseClassItem false src =
      if (ClassItem.range a b).InOrder then .ok ((ClassItem.range a b).ranges, after)
      else .error "class range out of order" := by
  unfold parseClassItem
  rw [parseClassMember_eq h]
  simp only [bind, Except.bind, pure, Except.pure, member_of_value hlo, hmid,
    parseClassMember_eq hb]
  cases hv : b.value with
  | none =>
    rw [if_pos (inOrder_union (.inr hv)), ranges_union (.inr hv), (member_of_value hlo).2]
    cases b <;> cases hv
    rfl
  | some hi =>
    rw [(member_of_value hv).1, ranges_range hlo hv]
    by_cases hle : lo ≤ hi
    · rw [if_pos ((inOrder_range hlo hv).mpr hle)]
      exact if_neg (Nat.not_lt.mpr hle)
    · rw [if_neg fun h => hle ((inOrder_range hlo hv).mp h)]
      exact if_pos (Nat.lt_of_not_le hle)

/-! ### The member loop -/

theorem parseClassItems_ok {ranges : List (Nat × Nat)} (hopen : src.head?.all (isUnit ']') = false)
    (hitem : parseClassItem false src = .ok (ranges, mid)) :
    parseClassItems false (rounds + 1) src =
      (parseClassItems false rounds mid).map fun r => (ranges ++ r.1, r.2) := by
  rw [parseClassItems, hopen, hitem]
  cases h : parseClassItems false rounds mid <;>
    simp [h, bind, Except.bind, pure, Except.pure, Except.map]

theorem parseClassItems_error (hopen : src.head?.all (isUnit ']') = false)
    (hitem : parseClassItem false src = .error m) :
    parseClassItems false (rounds + 1) src = .error m := by
  rw [parseClassItems, hopen, hitem]
  rfl

theorem parseClassItems_closed (hclosed : src.head?.all (isUnit ']') = true)
    (rounds : Nat) : parseClassItems false rounds src = .ok ([], src) := by
  cases rounds with
  | zero => rfl
  | succ rounds => rw [parseClassItems, if_pos hclosed]

/-- Members that start with a dash which is not the last of them. -/
def OpensWithDash : List ClassItem → Prop
  | .atom .dash :: items => items ≠ []
  | .range .dash _ :: _ => True
  | _ => False

/-- A class escape stands on the left of a dash, and behind the operand of the dash
comes a further dash that does not close the class. -/
def DashAfterEscapeRange : List ClassItem → Prop
  | [] => False
  | .range (.escape _) _ :: items => OpensWithDash items ∨ DashAfterEscapeRange items
  | _ :: items => DashAfterEscapeRange items

theorem not_dashAfter_cons (h : ¬ DashAfterEscapeRange (i :: items)) :
    ¬ DashAfterEscapeRange items := by
  intro hitems
  apply h
  unfold DashAfterEscapeRange
  split
  · cases ‹_ :: _ = []›
  · exact .inr (by simp_all)
  · simp_all

/-- The loop's result for the members of a derivation. -/
def Follows (items : List ClassItem) (rest : JsString)
    (r : Except String (List (Nat × Nat) × JsString)) : Prop :=
  if ∀ i ∈ items, i.InOrder then r = .ok (items.flatMap ClassItem.ranges, rest)
  else ∃ m, r = .error m

theorem Follows.cons {i : ClassItem} {items : List ClassItem} {rest : JsString}
    {r : Except String (List (Nat × Nat) × JsString)} (hi : i.InOrder) (h : Follows items rest r) :
    Follows (i :: items) rest (r.map fun r => (i.ranges ++ r.1, r.2)) := by
  unfold Follows at h ⊢
  simp only [List.forall_mem_cons, hi, true_and, List.flatMap_cons]
  split at h
  · rw [if_pos ‹_›, h]
    rfl
  · rw [if_neg ‹_›]
    obtain ⟨m, rfl⟩ := h
    exact ⟨m, rfl⟩

theorem Follows.misordered (hi : ¬ i.InOrder) : Follows (i :: items) rest (.error m) := by
  unfold Follows
  rw [if_neg fun h => hi (h i List.mem_cons_self)]
  exact ⟨m, rfl⟩

theorem nonempty_of_noDash (h : NonemptyClassRangesNoDash G src items rest) :
    NonemptyClassRanges G src items rest := by
  cases h with
  | atom ha => exact .atom ha
  | atoms ha h => exact .atoms (classAtomNoDash_some ha).2 h
  | range ha hdash hb h => exact .range (classAtomNoDash_some ha).2 hdash hb h

/-- No dash operator stands in front of what NonemptyClassRangesNoDash derives. -/
theorem noDash_operand (h : NonemptyClassRangesNoDash parsed src items (close :: rest))
    (hclose : isUnit ']' close = true) : dashOperand src = none := by
  rw [Option.eq_none_iff_forall_not_mem]
  rintro operand hoperand
  obtain ⟨⟨d, hd, rfl⟩, hopen⟩ := dashOperand_eq_some.mp hoperand
  cases h with
  | atom ha =>
    rw [classAtom_cons, if_pos hd] at ha
    cases ha
    simp [hclose] at hopen
  | atoms ha | range ha =>
    have := (classAtomNoDash_some ha).1
    simp [hd] at this

theorem dashOperand_of_atom (hdash : DashBefore operand src)
    (h : classAtom G operand = some (a, after)) : dashOperand src = some operand :=
  dashOperand_eq_some.mpr ⟨hdash, classAtom_open h⟩

theorem dashOperand_close (hclose : isUnit ']' close = true) (rest : JsString) :
    dashOperand (close :: rest) = none := by
  have := isUnit_iff.mp hclose
  cases rest <;> simp [dashOperand, isUnit, this]

section
variable (h : ClassContents parsed src items (close :: rest)) (hclose : isUnit ']' close = true)
include h hclose

/-- What the contents of a class are, read from the left: nothing, an atom with no
dash operator behind it, or two atoms around one. -/
theorem ClassContents.inv :
    (items = [] ∧ src = close :: rest) ∨
    (∃ a mid items', classAtom parsed src = some (a, mid) ∧ dashOperand mid = none ∧
      items = .atom a :: items' ∧ ClassContents parsed mid items' (close :: rest)) ∨
    (∃ a mid operand b after items', classAtom parsed src = some (a, mid) ∧
      dashOperand mid = some operand ∧ classAtom parsed operand = some (b, after) ∧
      items = .range a b :: items' ∧ ClassContents parsed after items' (close :: rest)) := by
  cases h with
  | empty => exact .inl ⟨rfl, rfl⟩
  | ranges h =>
    cases h with
    | atom ha => exact .inr (.inl ⟨_, _, _, ha, dashOperand_close hclose rest, rfl, .empty _⟩)
    | atoms ha h =>
      exact .inr (.inl
        ⟨_, _, _, ha, noDash_operand h hclose, rfl, .ranges (nonempty_of_noDash h)⟩)
    | range ha hdash hb h =>
      exact .inr (.inr ⟨_, _, _, _, _, _, ha, dashOperand_of_atom hdash hb, hb, rfl, h⟩)

/-- A dash operator in front of the text is the first atom of its derivation. -/
theorem opensWithDash (hdash : dashOperand src = some operand) :
    OpensWithDash items := by
  obtain ⟨⟨d, hd, rfl⟩, hopen⟩ := dashOperand_eq_some.mp hdash
  have hatom : classAtom parsed (d :: operand) = some (.dash, operand) := by
    rw [classAtom_cons, if_pos hd]
  rcases h.inv hclose with ⟨-, hsrc⟩ | ⟨a, mid, items', ha, -, rfl, hl⟩ |
    ⟨a, mid, x, b, after, items', ha, -, -, rfl, -⟩
  · rw [hsrc, dashOperand_close hclose] at hdash
    cases hdash
  · rw [hatom] at ha
    cases ha
    rintro rfl
    cases hl with
    | empty => simp [hclose] at hopen
    | ranges h => cases h
  · rw [hatom] at ha
    cases ha
    trivial

end

theorem exists_rounds (hlt : mid.length < src.length) (h : src.length ≤ rounds) :
    ∃ k, rounds = k + 1 ∧ mid.length ≤ k :=
  ⟨rounds - 1, by lia, by lia⟩

/-- **The member loop follows the derivation**, one member a round; a class escape on
the left of a dash takes two. -/
theorem parseClassItems_follows (hrounds : src.length ≤ rounds)
    (h : ClassContents parsed src items (close :: rest)) (hclose : isUnit ']' close = true)
    (hclean : ¬ DashAfterEscapeRange items) :
    Follows items (close :: rest) (parseClassItems false rounds src) := by
  induction hn : src.length using Nat.strong_induction_on generalizing src items rounds with
  | _ n ih =>
  subst hn
  rcases h.inv hclose with ⟨rfl, rfl⟩ | ⟨a, mid, items, ha, hmid, rfl, hl⟩ |
    ⟨a, mid, operand, b, after, items, ha, hmid, hb, rfl, hl⟩
  · rw [parseClassItems_closed (by simpa using hclose)]
    exact rfl
  · obtain ⟨k, rfl, hk⟩ := exists_rounds (classAtom_length ha) hrounds
    rw [parseClassItems_ok (classAtom_open ha) (parseClassItem_atom ha hmid)]
    exact Follows.cons trivial
      (ih _ (classAtom_length ha) hk hl (not_dashAfter_cons hclean) rfl)
  · obtain ⟨k, rfl, hk⟩ := exists_rounds (classAtom_length ha) hrounds
    have hlt := dashOperand_length hmid
    have hafter := classAtom_length hb
    have hrest : ∀ {k}, after.length ≤ k →
        Follows items (close :: rest) (parseClassItems false k after) := fun hk =>
      ih _ (hafter.trans (hlt.trans (classAtom_length ha))) hk hl (not_dashAfter_cons hclean) rfl
    cases hv : a.value with
    | none =>
      -- the dash is pushed with the escape, and its operand in the next round
      obtain ⟨set, rfl⟩ : ∃ set, a = .escape set := by
        cases a <;> cases hv
        exact ⟨_, rfl⟩
      have hlone : dashOperand after = none := by
        rw [Option.eq_none_iff_forall_not_mem]
        intro x hx
        exact hclean (.inl (opensWithDash hl hclose hx))
      obtain ⟨k', rfl, hk'⟩ := exists_rounds hafter (hlt.le.trans hk)
      rw [parseClassItems_ok (classAtom_open ha) (parseClassItem_escape ha hmid),
        parseClassItems_ok (classAtom_open hb) (parseClassItem_atom hb hlone)]
      have := Follows.cons (inOrder_union (b := b) (.inl hv)) (hrest hk')
      rw [ranges_union (.inl hv)] at this
      cases hr : parseClassItems false k' after <;>
        simpa [hr, Except.map, ClassAtom.ranges] using this
    | some lo =>
      have hitem := parseClassItem_range ha hv hmid hb
      by_cases hin : (ClassItem.range a b).InOrder
      · rw [if_pos hin] at hitem
        rw [parseClassItems_ok (classAtom_open ha) hitem]
        exact Follows.cons hin (hrest (hafter.le.trans (hlt.le.trans hk)))
      · rw [if_neg hin] at hitem
        rw [parseClassItems_error (classAtom_open ha) hitem]
        exact Follows.misordered hin

/-! ### Meaning of the ranges -/

theorem inRanges_digit (u : Nat) : inRanges DIGIT u = true ↔ ClassEscape.d.Has u := by
  simp [DIGIT, inRanges_cons, ClassEscape.Has]

theorem inRanges_word (u : Nat) : inRanges WORD u = true ↔ ClassEscape.w.Has u := by
  simp [WORD, inRanges_cons, ClassEscape.Has, IsWord]
  lia

theorem inRanges_space (u : Nat) : inRanges SPACE u = true ↔ ClassEscape.s.Has u := by
  have hone {c : Nat} : c ≤ u ∧ u ≤ c ↔ u = c := and_comm.trans Nat.le_antisymm_iff.symm
  have htab : 0x09 ≤ u ∧ u ≤ 0x0d ↔ u = 0x09 ∨ u = 0x0a ∨ u = 0x0b ∨ u = 0x0c ∨ u = 0x0d := by
    lia
  have hline : 0x2028 ≤ u ∧ u ≤ 0x2029 ↔ u = 0x2028 ∨ u = 0x2029 := by lia
  simp only [SPACE, inRanges_cons, inRanges_nil, ClassEscape.Has, IsSpace, Bool.or_eq_true,
    Bool.and_eq_true, decide_eq_true_eq, Bool.false_eq_true, List.mem_cons, List.not_mem_nil,
    or_false, htab, hline, hone]
  -- both sides are the same alternatives in another order
  simp only [or_assoc, or_left_comm, or_comm]

theorem inRanges_complement (hu : u ≤ 0xffff) {ranges : List (Nat × Nat)} {P : Prop}
    (h : inRanges ranges u = true ↔ P) : inRanges (complementRanges ranges) u = true ↔ ¬ P := by
  rw [inRanges_complementRanges hu, Bool.not_eq_true', ← h, Bool.not_eq_true]

theorem inRanges_escape (hu : u ≤ 0xffff) (set : ClassEscape) :
    inRanges set.ranges u = true ↔ set.Has u := by
  cases set with
  | d => exact inRanges_digit u
  | D => exact inRanges_complement hu (inRanges_digit u)
  | s => exact inRanges_space u
  | S => exact inRanges_complement hu (inRanges_space u)
  | w => exact inRanges_word u
  | W => exact inRanges_complement hu (inRanges_word u)

theorem inRanges_atom (hu : u ≤ 0xffff) (a : ClassAtom) : inRanges a.ranges u = true ↔ a.Has u := by
  cases a with
  | dash | char code => simp [ClassAtom.ranges, ClassAtom.Has, inRanges_cons]; lia
  | escape set => exact inRanges_escape hu set

theorem has_range (ha : a.value = some lo) (hb : b.value = some hi) :
    (ClassItem.range a b).Has u ↔ lo ≤ u ∧ u ≤ hi := by
  simp only [ClassItem.Has, ha, hb]

theorem has_union (h : a.value = none ∨ b.value = none) :
    (ClassItem.range a b).Has u ↔ a.Has u ∨ b.Has u ∨ u = 0x2d := by
  simp only [ClassItem.Has]
  split
  · rename_i ha hb
    rw [ha, hb] at h
    simp at h
  · exact Iff.rfl

theorem inRanges_item (hu : u ≤ 0xffff) (i : ClassItem) : inRanges i.ranges u = true ↔ i.Has u := by
  have hunion : ∀ {a b : ClassAtom}, a.value = none ∨ b.value = none →
      (inRanges (ClassItem.range a b).ranges u = true ↔ (ClassItem.range a b).Has u) := by
    intro a b h
    have hdash : (decide (0x2d ≤ u) && decide (u ≤ 0x2d)) = true ↔ u = 0x2d := by
      simp
      lia
    rw [ranges_union h, has_union h, inRanges_append, inRanges_cons, Bool.or_eq_true,
      Bool.or_eq_true, inRanges_atom hu, inRanges_atom hu, hdash, or_comm (a := u = 0x2d)]
  cases i with
  | atom a => exact inRanges_atom hu a
  | range a b =>
    cases ha : a.value with
    | none => exact hunion (.inl ha)
    | some lo =>
      cases hb : b.value with
      | none => exact hunion (.inr hb)
      | some hi =>
        rw [ranges_range ha hb, has_range ha hb]
        simp [inRanges_cons]

theorem inRanges_items (hu : u ≤ 0xffff) (items : List ClassItem) :
    inRanges (items.flatMap ClassItem.ranges) u = true ↔ ∃ i ∈ items, i.Has u := by
  induction items with
  | nil => simp
  | cons i items ih => simp [List.flatMap_cons, inRanges_append, inRanges_item hu, ih]

end

/-! ### What the parser accepts is derivable -/

/-- A text read atom by atom. -/
inductive Atoms : JsString → JsString → Prop
  | nil (src) : Atoms src src
  | cons {src a mid rest} (ha : classAtom parsed src = some (a, mid)) (h : Atoms mid rest) :
    Atoms src rest

variable {src : JsString}

theorem exists_classAtom {member : ClassMember} (hopen : src.head?.all (isUnit ']') = false)
    (h : parseClassMember false src = .ok (member, rest)) :
    ∃ a, classAtom parsed src = some (a, rest) := by
  have hread := reads_classAtom hopen
  cases hatom : classAtom parsed src with
  | none =>
    rw [hatom] at hread
    obtain ⟨m, hm⟩ := hread
    rw [h] at hm
    cases hm
  | some r =>
    rw [hatom] at hread
    have heq := h.symm.trans hread
    cases heq
    exact ⟨r.1, rfl⟩

/-- The literal dash in front of an operand is an atom. -/
theorem atoms_dash (h : dashOperand src = some operand)
    (hrest : Atoms operand rest) : Atoms src rest := by
  obtain ⟨⟨d, hd, rfl⟩, -⟩ := dashOperand_eq_some.mp h
  exact .cons (by rw [classAtom_cons, if_pos hd]) hrest

theorem atoms_item {ranges : List (Nat × Nat)}
    (hopen : src.head?.all (isUnit ']') = false) (h : parseClassItem false src = .ok (ranges, rest)) :
    ∀ {last : JsString}, Atoms rest last → Atoms src last := by
  intro last hend
  unfold parseClassItem at h
  cases hm : parseClassMember false src with
  | error m => rw [hm] at h; cases h
  | ok r =>
    obtain ⟨member, mid⟩ := r
    obtain ⟨a, ha⟩ := exists_classAtom hopen hm
    rw [hm] at h
    simp only [bind, Except.bind, pure, Except.pure] at h
    refine .cons ha ?_
    split at h
    · cases h
      exact atoms_dash ‹_› hend
    · cases h
      exact hend
    · cases h
      exact hend
    · rename_i lo operand hdash
      cases hm' : parseClassMember false operand with
      | error m => rw [hm'] at h; cases h
      | ok r =>
        obtain ⟨hi, after⟩ := r
        obtain ⟨b, hb⟩ := exists_classAtom (dashOperand_eq_some.mp hdash).2 hm'
        rw [hm'] at h
        refine atoms_dash hdash (.cons hb ?_)
        cases hi with
        | shorthand ranges => cases h; exact hend
        | char hi =>
          simp only at h
          split at h
          · cases h
          · cases h
            exact hend

theorem atoms_items {ranges : List (Nat × Nat)}
    (h : parseClassItems false rounds src = .ok (ranges, rest)) : Atoms src rest := by
  induction rounds generalizing src ranges with
  | zero => cases h; exact .nil _
  | succ rounds ih =>
    rw [parseClassItems] at h
    split at h
    · cases h
      exact .nil _
    · rename_i hopen
      cases hitem : parseClassItem false src with
      | error m => rw [hitem] at h; cases h
      | ok r =>
        rw [hitem] at h
        simp only [bind, Except.bind, pure, Except.pure] at h
        cases hitems : parseClassItems false rounds r.2 with
        | error m => rw [hitems] at h; cases h
        | ok r' =>
          rw [hitems] at h
          cases h
          exact atoms_item (Bool.eq_false_iff.mpr hopen) hitem (ih hitems)

theorem noDash_of_nonempty (hdash : dashOperand src = none)
    (h : NonemptyClassRanges parsed src items rest) :
    NonemptyClassRangesNoDash parsed src items rest := by
  have hatom : ∀ {a mid}, classAtom parsed src = some (a, mid) →
      mid.head?.all (isUnit ']') = false → classAtomNoDash parsed src = some (a, mid) := by
    intro a mid ha hopen
    cases src with
    | nil => cases ha
    | cons d tail =>
      by_cases hd : isUnit '-' d = true
      · -- a dash with something behind it would be an operator
        rw [classAtom_cons, if_pos hd] at ha
        cases ha
        rw [dashOperand_eq_some.mpr ⟨⟨d, hd, rfl⟩, hopen⟩] at hdash
        cases hdash
      · rw [classAtomNoDash_eq, if_neg (by simpa using hd), ha]
  cases h with
  | atom ha => exact .atom ha
  | @atoms _ a mid items _ ha h =>
    have hopen : mid.head?.all (isUnit ']') = false := by
      cases nonempty_of_noDash h with
      | atom hb | atoms hb | range hb => exact classAtom_open hb
    exact .atoms (hatom ha hopen) h
  | @range _ a mid operand b after items _ ha hdash' hb h =>
    have hopen : mid.head?.all (isUnit ']') = false := by
      obtain ⟨d, hd, rfl⟩ := hdash'
      have := isUnit_iff.mp hd
      simp [isUnit, this]
    exact .range (hatom ha hopen) hdash' hb h

/-- Every text that reads atom by atom up to a closing bracket has a derivation. -/
theorem exists_contents (h : Atoms src (close :: rest)) (hclose : isUnit ']' close = true) :
    ∃ items, ClassContents parsed src items (close :: rest) := by
  induction hn : src.length using Nat.strong_induction_on generalizing src with
  | _ n ih =>
  subst hn
  cases h with
  | nil => exact ⟨[], .empty _⟩
  | @cons _ a mid _ ha h =>
    cases hdash : dashOperand mid with
    | none =>
      obtain ⟨items, hitems⟩ := ih _ (classAtom_length ha) h rfl
      cases hitems with
      | empty => exact ⟨_, .ranges (.atom ha)⟩
      | ranges hne => exact ⟨_, .ranges (.atoms ha (noDash_of_nonempty hdash hne))⟩
    | some operand =>
      obtain ⟨hbefore, hopen⟩ := dashOperand_eq_some.mp hdash
      obtain ⟨d, hd, rfl⟩ := hbefore
      cases h with
      | nil =>
        have h1 := isUnit_iff.mp hd
        have h2 := isUnit_iff.mp hclose
        simp_all
      | cons hd' h =>
        rw [classAtom_cons, if_pos hd] at hd'
        cases hd'
        cases h with
        | nil => simp [hclose] at hopen
        | cons hb h =>
          have hlt := (classAtom_length hb).trans
            ((Nat.lt_succ_self _).trans (classAtom_length ha))
          obtain ⟨items, hitems⟩ := ih _ hlt h rfl
          exact ⟨_, .ranges (.range ha ⟨d, hd, rfl⟩ hb hitems)⟩

/-! ### Named groups -/

theorem or_mono {x y y' : Option α} {r : α} (hy : y = some r → y' = some r) (h : x.or y = some r) :
    x.or y' = some r := by
  cases x with
  | none => exact hy h
  | some _ => exact h

theorem identityEscape_named {r : Nat × JsString}
    (h : identityEscape ⟨named, false⟩ src = some r) : identityEscape parsed src = some r := by
  cases src with
  | nil => cases h
  | cons e rest =>
    unfold identityEscape at h ⊢
    grind [parsed]

/-- Where a group is named fewer escapes are characters, and the others read the
same. -/
theorem characterEscape_named {r : Nat × JsString}
    (h : characterEscape ⟨named, false⟩ src = some r) : characterEscape parsed src = some r := by
  simp only [characterEscape, firstOf_cons, firstOf_nil, Option.or_none] at h ⊢
  iterate 6 refine or_mono ?_ h; clear h; intro h
  exact identityEscape_named h

theorem classEscape_named (h : classEscape ⟨named, false⟩ src = some r) :
    classEscape parsed src = some r := by
  simp only [classEscape, firstOf_cons, firstOf_nil, Option.or_none] at h ⊢
  iterate 3 refine or_mono ?_ h; clear h; intro h
  obtain ⟨c, hc, rfl⟩ := Option.map_eq_some_iff.mp h
  exact Option.map_eq_some_iff.mpr ⟨c, characterEscape_named hc, rfl⟩

/-- In front of a `c` the group names play no part. -/
theorem classEscape_c (G G' : Grammar) (he : isUnit 'c' e = true) (rest : JsString) :
    classEscape G (e :: rest) = classEscape G' (e :: rest) := by
  simp [classEscape, characterEscape, identityEscape, chars, he]

theorem escaped_named (h : escaped ⟨named, false⟩ src = some r) :
    escaped parsed src = some r := by
  cases src with
  | nil => cases h
  | cons e rest =>
    unfold escaped at h ⊢
    cases hc : isUnit 'c' e with
    | false =>
      simp only [List.head?_cons, Option.any_some, hc, Bool.false_eq_true, if_false,
        Option.or_none] at h ⊢
      exact classEscape_named h
    | true =>
      rw [classEscape_c _ parsed hc] at h
      exact h

theorem classAtom_named (h : classAtom ⟨named, false⟩ src = some r) :
    classAtom parsed src = some r := by
  cases src with
  | nil => cases h
  | cons e rest =>
    rw [classAtom_cons] at h ⊢
    by_cases hback : isUnit '\\' e = true
    · rw [if_pos hback] at h ⊢
      split at h
      · rw [if_pos ‹_›]
        exact h
      · rw [if_neg ‹_›]
        exact escaped_named h
    · rw [if_neg hback] at h ⊢
      exact h

theorem classAtomNoDash_named (h : classAtomNoDash ⟨named, false⟩ src = some r) :
    classAtomNoDash parsed src = some r := by
  rw [classAtomNoDash_eq] at h ⊢
  split at h
  · cases h
  · rw [if_neg ‹_›, classAtom_named h]

/-- A derivation where a group is named is one where none is. -/
theorem classContents_named (h : ClassContents ⟨named, false⟩ src items rest) :
    ClassContents parsed src items rest :=
  @ClassContents.rec _ (fun src items rest _ => ClassContents parsed src items rest)
    (fun src items rest _ => NonemptyClassRanges parsed src items rest)
    (fun src items rest _ => NonemptyClassRangesNoDash parsed src items rest)
    .empty (fun _ h => .ranges h) (fun ha => .atom (classAtom_named ha))
    (fun ha _ h => .atoms (classAtom_named ha) h)
    (fun ha hdash hb _ h => .range (classAtom_named ha) hdash (classAtom_named hb) h)
    (fun ha => .atom (classAtom_named ha)) (fun ha _ h => .atoms (classAtomNoDash_named ha) h)
    (fun ha hdash hb _ h => .range (classAtomNoDash_named ha) hdash (classAtom_named hb) h)
    src items rest h

/-! ### The class parser -/

/-- The text between the brackets, without the negation sign. -/
def classBody (src : JsString) : JsString :=
  if src.head?.any (isUnit '^') then src.tail else src

theorem parseClass_ok {ranges : List (Nat × Nat)} (hclose : isUnit ']' close = true)
    (h : parseClassItems false (classBody src).length (classBody src) = .ok (ranges, close :: rest)) :
    parseClass false (bracket :: src) = .ok (.cls ranges (src.head?.any (isUnit '^')), rest) := by
  unfold classBody at h
  simp only [parseClass, bind, Except.bind, pure, Except.pure, h, List.head?_cons, Option.any_some,
    hclose, if_true, List.tail_cons]

theorem parseClass_error
    (h : parseClassItems false (classBody src).length (classBody src) = .error m) :
    parseClass false (bracket :: src) = .error m := by
  unfold classBody at h
  simp only [parseClass, bind, Except.bind, pure, Except.pure, h]

theorem CharacterClass.contents {negated : Bool} (h : CharacterClass G src negated items rest) :
    ∃ bracket body close, src = bracket :: body ∧ negated = body.head?.any (isUnit '^') ∧
      isUnit ']' close = true ∧ ClassContents G (classBody body) items (close :: rest) := by
  cases h with
  | @plain bracket body items close rest hopen hcaret h hclose =>
    exact ⟨_, _, close, rfl, hcaret.symm, hclose, by rwa [classBody, hcaret]⟩
  | @negated bracket caret body items close rest hopen hcaret h hclose =>
    exact ⟨_, _, close, rfl, by simp [hcaret], hclose, by simpa [classBody, hcaret] using h⟩

theorem characterClass_of_contents {body : JsString} (hopen : isUnit '[' bracket = true)
    (hclose : isUnit ']' close = true) (h : ClassContents G (classBody body) items (close :: rest)) :
    CharacterClass G (bracket :: body) (body.head?.any (isUnit '^')) items rest := by
  cases hcaret : body.head?.any (isUnit '^') with
  | false => exact .plain hopen hcaret (by rwa [classBody, hcaret] at h) hclose
  | true =>
    cases body with
    | nil => simp at hcaret
    | cons caret body =>
      exact .negated hopen (by simpa using hcaret) (by rwa [classBody, hcaret] at h) hclose

/-- **A class is read as the Annex B grammar derives it.** In a pattern with or without
named groups, take a derivation of the class in which no identity escape `\u` stands in
front of a brace and no dash comes behind the operand of a dash after a class escape:
the class is accepted exactly when its ranges are in order, with the text that the
derivation leaves, and then accepts the code units the derivation denotes. A text
without a derivation is refused. -/
theorem parseClass_annexB {src : JsString} (hopen : src.head?.any (isUnit '[') = true) :
    (∀ named negated items rest, CharacterClass ⟨named, false⟩ src negated items rest →
      ¬ DashAfterEscapeRange items →
        if ∀ i ∈ items, i.InOrder then
          ∃ ranges, parseClass false src = .ok (.cls ranges negated, rest) ∧
            ∀ u ≤ 0xffff, (inRanges ranges u != negated) = true ↔ Accepts negated items u
        else ∃ m, parseClass false src = .error m) ∧
    ((∀ negated items rest, ¬ CharacterClass ⟨false, false⟩ src negated items rest) →
      ∃ m, parseClass false src = .error m) := by
  constructor
  · intro named negated items rest h hclean
    obtain ⟨bracket, body, close, rfl, rfl, hclose, hcontents⟩ := h.contents
    have hfollows := parseClassItems_follows le_rfl (classContents_named hcontents) hclose hclean
    unfold Follows at hfollows
    split at hfollows
    · rw [if_pos ‹_›]
      refine ⟨_, parseClass_ok hclose hfollows, fun u hu => ?_⟩
      have hset := inRanges_items hu items
      unfold Accepts
      cases body.head?.any (isUnit '^') with
      | false => simpa using hset
      | true =>
        rw [if_pos rfl, ← hset]
        simp
    · rw [if_neg ‹_›]
      obtain ⟨m, hm⟩ := hfollows
      exact ⟨m, parseClass_error hm⟩
  · intro hnone
    cases src with
    | nil => simp at hopen
    | cons bracket body =>
      cases hitems : parseClassItems false (classBody body).length (classBody body) with
      | error m => exact ⟨m, parseClass_error hitems⟩
      | ok r =>
        obtain ⟨ranges, rest⟩ := r
        refine ⟨"unterminated character class", ?_⟩
        have hrest : rest.head?.any (isUnit ']') = false := by
          rw [Bool.eq_false_iff]
          intro hclosed
          cases rest with
          | nil => simp at hclosed
          | cons close rest =>
            have hclose : isUnit ']' close = true := by simpa using hclosed
            obtain ⟨items, hcontents⟩ := exists_contents (atoms_items hitems) hclose
            exact hnone _ _ _
              (characterClass_of_contents (by simpa using hopen) hclose hcontents)
        unfold classBody at hitems
        simp only [parseClass, bind, Except.bind, pure, Except.pure, hitems, hrest]
        rfl

/-- `[a-c\d-]`: a range, a class escape, and a dash that closes the class. -/
theorem parseClass_digitsAndDash :
    ∃ ranges, parseClass false [0x5b, 0x61, 0x2d, 0x63, 0x5c, 0x64, 0x2d, 0x5d] =
        .ok (.cls ranges false, []) ∧
      ∀ u ≤ 0xffff, (inRanges ranges u != false) = true ↔
        Accepts false [.range (.char 0x61) (.char 0x63), .atom (.escape .d), .atom .dash] u := by
  have h := (@parseClass_annexB [0x5b, 0x61, 0x2d, 0x63, 0x5c, 0x64, 0x2d, 0x5d] rfl).1 false false
    [.range (.char 0x61) (.char 0x63), .atom (.escape .d), .atom .dash] []
    (.plain rfl rfl (.ranges (.range rfl ⟨0x2d, rfl, rfl⟩ rfl
      (.ranges (.atoms rfl (.atom rfl))))) rfl)
    (by simp [DashAfterEscapeRange])
  rwa [if_pos (by decide)] at h

/-- `[\u{61}]` is a class of the grammar, and the parser refuses it. -/
theorem parseClass_braced_refused :
    CharacterClass ⟨false, true⟩ [0x5b, 0x5c, 0x75, 0x7b, 0x36, 0x31, 0x7d, 0x5d] false
        [.atom (.char 0x75), .atom (.char 0x7b), .atom (.char 0x36), .atom (.char 0x31),
          .atom (.char 0x7d)] [] ∧
      (∀ i ∈ [ClassItem.atom (.char 0x75), .atom (.char 0x7b), .atom (.char 0x36),
        .atom (.char 0x31), .atom (.char 0x7d)], i.InOrder) ∧
      ∃ m, parseClass false [0x5b, 0x5c, 0x75, 0x7b, 0x36, 0x31, 0x7d, 0x5d] = .error m :=
  ⟨.plain rfl rfl (.ranges (.atoms rfl (.atoms rfl (.atoms rfl (.atoms rfl (.atom rfl)))))) rfl,
    by decide, _, rfl⟩

end Js2Wasm.Regex.AnnexB
